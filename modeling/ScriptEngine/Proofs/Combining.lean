import ScriptEngine.Proofs.Iterating

/-!
# Combined callables

Callables are joined by `+`, and a sum of them is one flat list of parts however it is
bracketed. A call of what they are joined to calls the parts one after the other, in
order and with the same arguments; each call leaves the stack and the frames as it found
them, the first failure ends them, and otherwise the first result of the last call stands
where the callee stood.
-/
namespace ScriptEngine

open Run

/-- Callables in brackets. -/
inductive Bracketing where
  | single (v : Value)
  | sum (left right : Bracketing)

namespace Bracketing

/-- The callables from left to right. -/
def values : Bracketing → List Value
  | single v => [v]
  | sum left right => left.values ++ right.values

end Bracketing

/-- A value that `+` joins; if it is a combination itself, it is there. -/
structure Heap.Joins (h : Heap) (v : Value) : Prop where
  combinable : v.isCombinable = true
  there : ∀ ref, v = .combined ref → ref < h.combinations.size

/-- The world with more combinations. -/
def World.combining (w : World) (more : Array (List Value)) : World :=
  { w with heap.combinations := w.heap.combinations ++ more }

/-- Parts are called one after the other with the same arguments. The answer is the first result of the last call, null
if it has none. The first call that does not answer is the last one. -/
inductive CallsEach (again : Reentry) (args : List Value) :
    List Value → Value → World → Except Halt Value → World → Prop
  | done {last : Value} {w : World} : CallsEach again args [] last w (.ok last) w
  | call {part last : Value} {parts results : List Value} {w w₁ w' : World} {r : Except Halt Value}
      (called : again.call part args w = .ok results w₁) (back : w.Back w₁)
      (rest : CallsEach again args parts (results.head?.getD .null) w₁ r w') :
      CallsEach again args (part :: parts) last w r w'
  | stopped {part last : Value} {parts : List Value} {e : Halt} {w w' : World}
      (called : again.call part args w = .error e w') (back : ∀ f, e = .failed f → w.Back w') :
      CallsEach again args (part :: parts) last w (.error e) w'

section

variable {again : Reentry} {w w' : World} {u v : Value} {rest : Array Value} {args parts : List Value} {ref : Nat}

/-! ## Sums -/

/-- What is there stays as it is when there are more combinations. -/
theorem Heap.Joins.combining (joins : w.heap.Joins v) (more : Array (List Value)) :
    (w.combining more).heap.Joins v ∧ (w.combining more).heap.parts v = w.heap.parts v := by
  obtain ⟨combinable, there⟩ := joins
  have size : (w.combining more).heap.combinations.size = w.heap.combinations.size + more.size := Array.size_append
  refine ⟨⟨combinable, fun ref same => by have := there ref same; omega⟩, ?_⟩
  cases v with
  | combined ref =>
    change ((w.heap.combinations ++ more)[ref]?).getD [] = (w.heap.combinations[ref]?).getD []
    rw [Array.getElem?_append_left (there ref rfl)]
  | _ => rfl

theorem World.Back.refl (sound : w.Sound) : w.Back w := ⟨sound.footing.holds, rfl, rfl, rfl⟩

theorem World.Back.trans {w'' : World} (first : w.Back w') (second : w'.Back w'') : w.Back w'' := by
  have at_ : w.footing.At w.machine.frames w.machine.marks w'.closures w' :=
    ⟨first.holds, first.frames, first.marks, rfl⟩
  have lasts := at_.back second
  exact ⟨lasts.stands.holds, second.size.trans first.size, lasts.stands.frames, lasts.stands.marks⟩

/-- The stack, the frames and the marks are as they were before the calls. -/
theorem CallsEach.back {last : Value} {r : Except Halt Value} (calls : CallsEach again args parts last w r w')
    (sound : w.Sound) (finished : r ≠ .error .outOfFuel) : w.Back w' := by
  induction calls with
  | done => exact .refl sound
  | call _ back _ ih => exact back.trans (ih back.holds.sound finished)
  | @stopped _ _ _ e _ _ _ back =>
    cases e with
    | failed f => exact back f rfl
    | outOfFuel => exact absurd rfl finished

end

theorem World.Sound.combining {w : World} {parts : List Value} (sound : w.Sound)
    (each : ∀ v ∈ parts, v.Within w.closures) : (w.combining #[parts]).Sound where
  heap := by
    have gains : w.heap.Gains {v | v ∈ parts} (w.heap.addCombination parts).2 :=
      Heap.gains_addCombination fun v mem => .inr (.mem mem)
    exact sound.heap.gains each gains
  offers := sound.offers
  natives := sound.natives
  queue := sound.queue

end ScriptEngine
