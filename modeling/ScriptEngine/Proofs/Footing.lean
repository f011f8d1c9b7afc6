import ScriptEngine.Proofs.Dispatching
import ScriptEngine.Proofs.Knowing

/-!
# Footing

What is carried out in the midst of a run stands on what is below: slots of the
stack up to some height, frames and marks. A footing names these as they were when it
began. They are not touched, whatever happens: a slot below keeps its value unless it
is that of a captured variable, and frames and marks are put on top only. All the
while the world stays sound.

`Sure` says so of a computation. It compares two of them, since the ways back into the
machine that they are given may be two, and it says in which worlds they may end.
-/
namespace ScriptEngine

open Run

/-- No captured variable lives in slot `i`. -/
def Heap.Apart (h : Heap) (i : Nat) : Prop := ∀ ref, h.cell ref ≠ .opened i

theorem Heap.apart_iff {h : Heap} {i : Nat} : h.Apart i ↔ .opened i ∉ h.cells := by
  constructor
  · intro apart mem
    obtain ⟨ref, at_⟩ := Array.mem_iff_getElem?.mp mem
    exact apart ref (congrArg (·.getD default) at_)
  · intro free ref
    exact Heap.getD_mem (P := fun c => c ≠ Cell.opened i) (by nofun) (fun c mem same => free (same ▸ mem)) ref

/-- The world with another heap. -/
def World.onHeap (w : World) (heap : Heap) : World := { w with heap }

section

variable {L F : Array Frame} {gs : List Frame}

theorem size_of_split (split : L.toList = F.toList ++ gs) : L.size = F.size + gs.length := by
  rw [← Array.length_toList, split, List.length_append, Array.length_toList]

theorem ne_nil_of_split (split : L.toList = F.toList ++ gs) (more : F.size < L.size) : gs ≠ [] := by
  rintro rfl
  have size := size_of_split split
  rw [List.length_nil] at size
  omega

/-- Where there are no more frames than there were, they are the same. -/
theorem eq_of_split (split : L.toList = F.toList ++ gs) (few : L.size ≤ F.size) : L = F := by
  have size := size_of_split split
  have none : gs = [] := List.eq_nil_of_length_eq_zero (by omega)
  rw [none, List.append_nil] at split
  exact Array.toList_inj.mp split

end

structure Footing where
  /-- Where it began. -/
  world : World
  /-- The slots from here on are free. -/
  floor : Nat
  frames : List Frame
  marks : List Nat

/-- A way that an instruction may end: with an answer, or with a failure that leaves the footing as it is. -/
structure Footing.Holds (G : Footing) (w : World) : Prop where
  sound : w.Sound
  size : G.floor ≤ w.machine.stack.size
  slots : ∀ i < G.floor, G.world.heap.Apart i → w.machine.stack[i]? = G.world.machine.stack[i]?
  apart : ∀ i < G.floor, G.world.heap.Apart i → w.heap.Apart i
  scripts : w.heap.scripts = G.world.heap.scripts
  closures : ∀ r < G.world.closures, w.heap.closures[r]? = G.world.heap.closures[r]?
  frames : G.frames <+: w.machine.frames.toList
  marks : G.marks <:+ w.machine.marks

/-- The footing holds, with these frames and marks and so many closures. -/
structure Footing.At (G : Footing) (F : Array Frame) (M : List Nat) (n : Nat) (w : World) : Prop where
  holds : G.Holds w
  frames : w.machine.frames = F
  marks : w.machine.marks = M
  count : w.closures = n

/-- Two computations that do the same; an answer is followed by what `Q` says, and a failure leaves the
footing as it is. -/
def Sure {α : Type} (G : Footing) (x y : Run α) (w : World) (Q : α → World → Prop) : Prop :=
  y w = x w ∧
    match x w with
    | .ok a w' => Q a w'
    | .error (.failed f) w' => G.Holds w' ∧ f.Within w'.closures
    | .error .outOfFuel _ => True

namespace Footing

variable {G : Footing} {F : Array Frame} {M : List Nat} {n : Nat} {w : World} {v : Value} {stack : Array Value}

namespace At

theorem sound (h : G.At F M n w) : w.Sound := h.holds.sound

theorem size (h : G.At F M n w) : G.floor ≤ w.machine.stack.size := h.holds.size

theorem knows (h : G.At F M n w) (offers : w.machine.Offers v) : v.Within n := h.count ▸ h.sound.offers v offers

theorem knows_slot (h : G.At F M n w) (mem : v ∈ w.machine.stack) : v.Within n := h.knows (.slot mem)

theorem knows_heap (h : G.At F M n w) (offers : w.heap.Offers v) : v.Within n :=
  h.count ▸ h.sound.heap.offers v offers

theorem inside (h : G.At F M n w) {r : Nat} (known : r < n) : r < w.heap.closures.size :=
  Nat.lt_of_lt_of_eq known h.count.symm

/-- A machine that has nothing new but what is known. -/
theorem onMachine {m : Machine} (h : G.At F M n w) (offers : ∀ v, m.Offers v → v.Within n)
    (size : G.floor ≤ m.stack.size)
    (below : ∀ i < G.floor, G.world.heap.Apart i → m.stack[i]? = w.machine.stack[i]?)
    (queue : ∀ s ∈ m.queue, s.Compiled) (frames : m.frames = F) (marks : m.marks = M) :
    G.At F M n { w with machine := m } where
  holds := {
    sound := ⟨h.sound.heap, fun v known => h.count ▸ offers v known, h.sound.natives, queue⟩
    size
    slots := fun i hi apart => (below i hi apart).trans (h.holds.slots i hi apart)
    apart := h.holds.apart
    scripts := h.holds.scripts
    closures := h.holds.closures
    frames := frames ▸ h.frames ▸ h.holds.frames
    marks := marks ▸ h.marks ▸ h.holds.marks }
  frames
  marks
  count := h.count

/-- Of the slots below, those of captured variables may change. -/
theorem onSlots (h : G.At F M n w) (size : G.floor ≤ stack.size)
    (below : ∀ i < G.floor, G.world.heap.Apart i → stack[i]? = w.machine.stack[i]?)
    (known : ∀ v ∈ stack, v.Within n) : G.At F M n (w.onStack stack) := by
  refine h.onMachine (fun v offers => ?_) size below h.sound.queue h.frames h.marks
  cases offers with
  | global name found => exact h.knows (.global name found)
  | registered name found => exact h.knows (.registered name found)
  | slot mem => exact known v mem

theorem onStack (h : G.At F M n w) (size : G.floor ≤ stack.size)
    (below : ∀ i < G.floor, stack[i]? = w.machine.stack[i]?) (known : ∀ v ∈ stack, v.Within n) :
    G.At F M n (w.onStack stack) := h.onSlots size (fun i hi _ => below i hi) known

/-- A machine that differs in what is no business of a footing. -/
theorem still {m : Machine} (h : G.At F M n w) (stack : m.stack = w.machine.stack)
    (globals : m.globals = w.machine.globals)
    (registry : m.registry = w.machine.registry) (queue : m.queue = w.machine.queue)
    (frames : m.frames = w.machine.frames) (marks : m.marks = w.machine.marks) :
    G.At F M n { w with machine := m } := by
  refine h.onMachine (fun v offers => ?_) (stack ▸ h.size) (fun _ _ _ => by rw [stack]) (queue ▸ h.sound.queue)
    (frames.trans h.frames) (marks.trans h.marks)
  cases offers with
  | global name found => exact h.knows (.global name (globals ▸ found))
  | registered name found => exact h.knows (.registered name (registry ▸ found))
  | slot mem => exact h.knows (.slot (stack ▸ mem))

/-- Other frames on top, and other marks. -/
theorem onFrames {L : Array Frame} {S : List Nat} (h : G.At F M n w) (frames : G.frames <+: L.toList)
    (marks : G.marks <:+ S) : G.At L S n { w with machine.frames := L, machine.marks := S } where
  holds := {
    sound := ⟨h.sound.heap, fun v offers => h.sound.offers v (by
      cases offers with
      | global name found => exact .global name found
      | registered name found => exact .registered name found
      | slot mem => exact .slot mem), h.sound.natives, h.sound.queue⟩
    size := h.size
    slots := h.holds.slots
    apart := h.holds.apart
    scripts := h.holds.scripts
    closures := h.holds.closures
    frames
    marks }
  frames := rfl
  marks := rfl
  count := h.count

/-- A heap that has nothing new but what is known. -/
theorem onHeap {h' : Heap} (h : G.At F M n w) (gains : w.heap.Gains {v | v.Within n} h')
    (apart : ∀ i < G.floor, w.heap.Apart i → h'.Apart i) : G.At F M n (w.onHeap h') := by
  have count : (w.onHeap h').closures = n := (congrArg Array.size gains.closures).trans h.count
  have here : w.heap.closures.size = n := h.count
  refine ⟨⟨⟨?_, fun v offers => ?_, fun ref => ?_, h.sound.queue⟩, h.size, h.holds.slots, fun i hi free => ?_, ?_,
    fun r hr => ?_,
    h.holds.frames, h.holds.marks⟩, h.frames, h.marks, count⟩
  · exact h.sound.heap.gains (fun v known => here ▸ known) gains
  · rw [count]
    exact h.knows offers
  · rw [count]
    exact h.count ▸ h.sound.natives ref
  · exact apart i hi (h.holds.apart i hi free)
  · exact gains.scripts.trans h.holds.scripts
  · exact (congrArg (·[r]?) gains.closures).trans (h.holds.closures r hr)

theorem gains {h' : Heap} (h : G.At F M n w) (gains : w.heap.Gains {v | v.Within n} h')
    (cells : h'.cells = w.heap.cells) : G.At F M n (w.onHeap h') := by
  refine h.onHeap gains fun i _ apart ref => ?_
  unfold Heap.cell
  rw [cells]
  exact apart ref

/-- One more closure, over a chunk that there is. -/
theorem addClosure {c : Closure} (h : G.At F M n w)
    (chunk : ∃ s d, w.heap.scripts[c.chunk.script]? = some s ∧ s.chunks[c.chunk.index]? = some d) :
    G.At F M (n + 1) (w.onHeap (w.heap.addClosure c).2) := by
  have here : w.heap.closures.size = n := h.count
  have count : (w.onHeap (w.heap.addClosure c).2).closures = n + 1 := (Array.size_push c).trans (congrArg (· + 1) here)
  have known {v : Value} (within : v.Within n) : v.Within (n + 1) := within.mono (Nat.le_succ n)
  have old (r : Nat) (inside : r < n) : (w.heap.closures.push c)[r]? = w.heap.closures[r]? :=
    Array.getElem?_push_lt (here ▸ inside) |>.trans (Array.getElem?_eq_getElem (here ▸ inside)).symm
  have sound : (w.heap.addClosure c).2.Sound := by
    refine ⟨h.sound.heap.scripts, h.sound.heap.small, fun d mem => ?_, fun v offers => ?_, fun r chain => ?_⟩
    · rcases Array.mem_push.mp mem with mem | rfl
      · exact h.sound.heap.closures d mem
      · exact chunk
    · have known := known (h.knows_heap (Heap.Offers.bare (h := w.heap) offers))
      rwa [← count] at known
    · have chain : w.heap.Chains (.closure r) := chain
      have arity := h.sound.heap.chains r chain
      unfold Heap.code Heap.closure at arity ⊢
      have same : (w.heap.addClosure c).2.closures[r]? = w.heap.closures[r]? := old r (h.knows_heap chain.offers r rfl)
      rw [same]
      exact arity
  refine ⟨⟨⟨sound, fun v offers => ?_, fun ref => ?_, h.sound.queue⟩, h.size, h.holds.slots, h.holds.apart,
    h.holds.scripts,
    fun r hr => ?_, h.holds.frames, h.holds.marks⟩, h.frames, h.marks, count⟩
  · rw [count]
    exact known (h.knows offers)
  · rw [count]
    exact (h.sound.natives ref).mono (h.count ▸ Nat.le_succ n)
  · have earlier := h.holds.closures r hr
    have inside : r < n := by
      rw [Array.getElem?_eq_getElem hr] at earlier
      exact here ▸ (Array.getElem?_eq_some_iff.mp earlier).1
    exact (old r inside).trans earlier

end At

end Footing

/-! ## Computations that keep their footing -/

section Rules

variable {α β : Type} {G : Footing} {x y : Run α} {f g : α → Run β} {w : World}

theorem sure_pure {a : α} {Q : α → World → Prop} (next : Q a w) : Sure G (pure a) (pure a) w Q := ⟨rfl, next⟩

theorem sure_bind {Q : β → World → Prop} (first : Sure G x y w fun a w' => Sure G (f a) (g a) w' Q) :
    Sure G (x >>= f) (y >>= g) w Q := by
  obtain ⟨same, out⟩ := first
  unfold Sure
  rw [bind_eq, bind_eq, same]
  cases ran : x w with
  | ok a w' =>
    rw [ran] at out
    exact out
  | error e w' =>
    rw [ran] at out
    exact ⟨rfl, by cases e <;> exact out⟩

theorem Sure.mono {P Q : α → World → Prop} (h : Sure G x y w P) (imp : ∀ a w', P a w' → Q a w') : Sure G x y w Q := by
  obtain ⟨same, out⟩ := h
  refine ⟨same, ?_⟩
  split at out
  · exact imp _ _ out
  · exact out
  · trivial

theorem sure_map {h : α → β} {Q : β → World → Prop} (first : Sure G x y w fun a => Q (h a)) :
    Sure G (h <$> x) (h <$> y) w Q := by
  rw [← bind_pure_comp, ← bind_pure_comp]
  exact sure_bind (first.mono fun _ _ => sure_pure)

theorem sure_ite {c : Prop} [Decidable c] {x' y' : Run α} {Q : α → World → Prop} (yes : c → Sure G x y w Q)
    (no : ¬ c → Sure G x' y' w Q) : Sure G (if c then x else x') (if c then y else y') w Q := by
  split
  · exact yes ‹_›
  · exact no ‹_›

theorem sure_ok {u : World} {a : α} {Q : α → World → Prop} (ran : x w = .ok a u) (next : Q a u) :
    Sure G x x w Q := by
  refine ⟨rfl, ?_⟩
  rw [ran]
  exact next

theorem sure_raise {e : Failure} {Q : α → World → Prop} (h : G.Holds w) (known : e.Within w.closures) :
    Sure G (raise e) (raise e) w Q := ⟨rfl, h, known⟩

theorem sure_fail {e : RuntimeError} {Q : α → World → Prop} (h : G.Holds w)
    (known : ∀ v, e = .thrown v → v.Within w.closures) : Sure G (fail e) (fail e) w Q := ⟨rfl, h, known⟩

theorem sure_refuse {e : RuntimeError} {Q : α → World → Prop} (h : G.Holds w) (plain : ∀ v, e ≠ .thrown v) :
    Sure G (fail e) (fail e) w Q := sure_fail h fun v thrown => absurd thrown (plain v)

/-- A computation that only looks, and finds something or fails. -/
def Looks (x : Run α) : Prop :=
  ∀ w, (∃ a, x w = .ok a w) ∨ ∃ e, (∀ v, e ≠ .thrown v) ∧ x w = .error (.failed { error := e }) w

theorem Looks.sure {Q : α → World → Prop} (looks : Looks x) (h : G.Holds w) (next : ∀ a, x w = .ok a w → Q a w) :
    Sure G x x w Q := by
  refine ⟨rfl, ?_⟩
  obtain ⟨a, ran⟩ | ⟨e, plain, ran⟩ := looks w
  · rw [ran]
    exact next a ran
  · rw [ran]
    exact ⟨h, fun v thrown => absurd thrown (plain v)⟩

theorem looks_pure (a : α) : Looks (pure a : Run α) := fun _ => .inl ⟨a, rfl⟩

theorem looks_fail {e : RuntimeError} (plain : ∀ v, e ≠ .thrown v) : Looks (fail e : Run α) := fun _ =>
  .inr ⟨e, plain, rfl⟩

theorem looks_internal (f : InternalFault) : Looks (failInternal f : Run α) := looks_fail nofun

theorem Looks.bind (first : Looks x) (then_ : ∀ a, Looks (f a)) : Looks (x >>= f) := by
  intro w
  rw [bind_eq]
  obtain ⟨a, ran⟩ | ⟨e, plain, ran⟩ := first w
  · rw [ran]
    exact then_ a w
  · rw [ran]
    exact .inr ⟨e, plain, rfl⟩

theorem Looks.ite {c : Prop} [Decidable c] (hx : Looks x) (hy : Looks y) : Looks (if c then x else y) := by
  split
  · exact hx
  · exact hy

theorem looks_machine : Looks machine := fun w => .inl ⟨w.machine, rfl⟩

theorem looks_heap : Looks heap := fun w => .inl ⟨w.heap, rfl⟩

theorem looks_stackSize : Looks stackSize := fun w => .inl ⟨w.machine.stack.size, rfl⟩

theorem looks_frame : Looks frame := by
  refine looks_machine.bind fun m => ?_
  split
  · exact looks_pure _
  · exact looks_internal _

theorem looks_chunk : Looks chunk := looks_frame.bind fun _ => looks_heap.bind fun _ => looks_pure _

theorem looks_name (index : UInt16) : Looks (name index) := by
  refine looks_chunk.bind fun c => ?_
  split
  · exact looks_pure _
  · exact looks_internal _

theorem looks_slot (i : Nat) : Looks (slot i) := by
  intro w
  unfold slot
  split
  · exact .inl ⟨_, rfl⟩
  · exact .inr ⟨.stackUnderflow, nofun, rfl⟩

theorem looks_peek (distance : Nat) : Looks (peek distance) :=
  looks_stackSize.bind fun _ => .ite (looks_slot _) (looks_fail nofun)

theorem looks_captured (index : UInt8) : Looks (captured index) := by
  refine looks_frame.bind fun _ => looks_heap.bind fun _ => ?_
  split
  · exact looks_pure _
  · exact looks_internal _

theorem looks_asType (op : String) (v : Value) : Looks (asType op v) := by
  unfold asType
  split
  · exact looks_pure _
  · exact looks_fail nofun

theorem looks_peekType (op : String) : Looks (peekType op) := (looks_peek 0).bind fun v => looks_asType op v

theorem looks_userType (ref : Nat) : Looks (userType ref) := looks_heap.bind fun _ => looks_pure _

theorem looks_position (index : Value) (length : Nat) : Looks (position index length) := by
  unfold position
  dsimp only
  split
  · exact .ite (looks_pure _) (looks_heap.bind fun _ => looks_fail nofun)
  · exact looks_heap.bind fun _ => looks_fail nofun

theorem looks_fieldName (v : Value) : Looks (fieldName v) := by
  unfold fieldName
  split
  · exact looks_pure _
  · exact looks_fail nofun

theorem looks_mapKey (v : Value) : Looks (mapKey v) := by
  unfold mapKey
  split
  · exact looks_pure _
  · exact looks_fail nofun

theorem looks_undefinedMethod (receiver : Value) (name : String) : Looks (undefinedMethod receiver name : Run α) :=
  looks_heap.bind fun _ => looks_fail nofun

theorem looks_undefinedProperty (target : Value) (name : String) : Looks (undefinedProperty target name : Run α) :=
  looks_heap.bind fun _ => looks_fail nofun

theorem looks_undefinedInSuper (ref : Nat) (name : String) : Looks (undefinedInSuper ref name : Run α) :=
  (looks_userType ref).bind fun _ => looks_fail nofun

end Rules

/-! ## Moves on the stack -/

section Stack

variable {α : Type} {G : Footing} {F : Array Frame} {M : List Nat} {n : Nat} {w : World} {v : Value}

theorem known_of_slot {i : Nat} (h : G.At F M n w) (there : slot i w = .ok v w) : v.Within n := by
  unfold slot at there
  cases found : w.machine.stack[i]? with
  | none =>
    rw [found] at there
    cases there
  | some u =>
    rw [found] at there
    cases there
    exact h.knows_slot (Array.mem_of_getElem? found)

theorem sure_slot {i : Nat} {Q : Value → World → Prop} (h : G.At F M n w)
    (next : ∀ v, v.Within n → slot i w = .ok v w → Q v w) : Sure G (slot i) (slot i) w Q :=
  (looks_slot i).sure h.holds fun v there => next v (known_of_slot h there) there

theorem sure_peek {distance : Nat} {Q : Value → World → Prop} (h : G.At F M n w)
    (next : ∀ v, v.Within n → Q v w) : Sure G (peek distance) (peek distance) w Q := by
  refine sure_bind (looks_stackSize.sure h.holds fun size _ => ?_)
  exact sure_ite (fun _ => sure_slot h fun v known _ => next v known) fun _ => sure_refuse h.holds nofun

/-- The top of the stack is free. -/
theorem sure_popTop {Q : Value → World → Prop} (h : G.At F M n w) (room : G.floor < w.machine.stack.size)
    (next : ∀ v w', G.At F M n w' → v.Within n → w.machine.stack = w'.machine.stack.push v →
      w'.heap = w.heap → Q v w') :
    Sure G pop pop w Q := by
  obtain ⟨stack, v, on⟩ := Array.eq_push_of_size_ne_zero (show w.machine.stack.size ≠ 0 by omega)
  have size : w.machine.stack.size = stack.size + 1 := by rw [on, Array.size_push]
  refine sure_ok (pop_eq on) (next v _ (h.onStack (by omega) (fun i hi => ?_) fun u mem => ?_) ?_ on rfl)
  · rw [on, Array.getElem?_push_lt (by omega)]
    exact Array.getElem?_eq_getElem _
  · exact h.knows_slot (on ▸ Array.mem_push_of_mem _ mem)
  · exact h.knows_slot (on ▸ Array.mem_push_self)

theorem sure_pop {Q : Value → World → Prop} (h : G.At F M n w) (room : G.floor < w.machine.stack.size)
    (next : ∀ v w', G.At F M n w' → v.Within n → w'.machine.stack.size + 1 = w.machine.stack.size → Q v w') :
    Sure G pop pop w Q :=
  sure_popTop h room fun v w' h' known on _ => next v w' h' known (by rw [on, Array.size_push])

theorem Footing.At.pushed (h : G.At F M n w) (known : v.Within n) :
    G.At F M n (w.onStack (w.machine.stack.push v)) := by
  have := h.size
  refine h.onStack ?_ (fun i hi => ?_) fun u mem => ?_
  · rw [Array.size_push]
    omega
  · rw [Array.getElem?_push_lt (by omega)]
    exact (Array.getElem?_eq_getElem _).symm
  · rcases Array.mem_push.mp mem with mem | rfl
    · exact h.knows_slot mem
    · exact known

theorem sure_push {Q : Unit → World → Prop} (h : G.At F M n w) (known : v.Within n)
    (next : ∀ w', G.At F M n w' → w'.machine.stack.size = w.machine.stack.size + 1 → Q () w') :
    Sure G (push v) (push v) w Q := sure_ok rfl (next _ (h.pushed known) (Array.size_push _))

theorem size_appendList {xs : Array Value} {vs : List Value} : (xs ++ vs).size = xs.size + vs.length := by
  rw [← Array.length_toList, Array.toList_appendList, List.length_append, Array.length_toList]

theorem Footing.At.pushedAll {vs : List Value} (h : G.At F M n w) (known : ∀ v ∈ vs, v.Within n) :
    G.At F M n (w.onStack (w.machine.stack ++ vs)) := by
  have floor := h.size
  refine h.onStack (size_appendList ▸ Nat.le_add_right_of_le floor) (fun i hi => ?_) fun u mem => ?_
  · rw [← Array.getElem?_toList, Array.toList_appendList, List.getElem?_append_left (by simp; omega),
      Array.getElem?_toList]
  · rw [← Array.mem_toList_iff, Array.toList_appendList, List.mem_append, Array.mem_toList_iff] at mem
    exact mem.elim h.knows_slot (known u)

theorem sure_pushAll {vs : List Value} {Q : Unit → World → Prop} (h : G.At F M n w) (known : ∀ v ∈ vs, v.Within n)
    (next : ∀ w', G.At F M n w' → w'.machine.stack.size = w.machine.stack.size + vs.length → Q () w') :
    Sure G (pushAll vs) (pushAll vs) w Q :=
  sure_ok (u := w.onStack (w.machine.stack ++ vs)) rfl (next _ (h.pushedAll known) size_appendList)

theorem sure_setSlot {i : Nat} {Q : Unit → World → Prop} (h : G.At F M n w) (known : v.Within n)
    (reach : i < G.floor → ¬G.world.heap.Apart i)
    (next : ∀ w', G.At F M n w' → w'.machine.stack.size = w.machine.stack.size → w'.heap = w.heap → Q () w') :
    Sure G (setSlot i v) (setSlot i v) w Q := by
  refine sure_bind (looks_stackSize.sure h.holds fun size hsize => ?_)
  cases hsize
  refine sure_ite (fun inside => ?_) fun _ => sure_refuse h.holds nofun
  have size : (w.machine.stack.setIfInBounds i v).size = w.machine.stack.size := Array.size_setIfInBounds
  refine sure_ok (u := w.onStack (w.machine.stack.setIfInBounds i v)) rfl (next _ ?_ size rfl)
  refine h.onSlots (size ▸ h.size) (fun j hj apart => ?_) fun u mem => ?_
  · exact Array.getElem?_setIfInBounds_ne (by rintro rfl; exact reach hj apart)
  · rcases Array.mem_or_eq_of_mem_setIfInBounds mem with mem | rfl
    · exact h.knows_slot mem
    · exact known

theorem shrink_below {xs : Array Value} {k i : Nat} (hi : i < k) : (xs.shrink k)[i]? = xs[i]? := by
  rw [← Array.getElem?_toList, Array.toList_shrink, List.getElem?_take_of_lt hi, Array.getElem?_toList]

theorem mem_of_mem_shrink {xs : Array Value} {k : Nat} (mem : v ∈ xs.shrink k) : v ∈ xs := by
  rw [← Array.mem_toList_iff, Array.toList_shrink] at mem
  exact Array.mem_toList_iff.mp (List.mem_of_mem_take mem)

theorem Footing.At.shrink {size : Nat} (h : G.At F M n w) (room : G.floor ≤ size) :
    G.At F M n (w.onStack (w.machine.stack.shrink size)) := by
  refine h.onStack ?_ (fun i hi => shrink_below (by omega)) fun v mem => h.knows_slot (mem_of_mem_shrink mem)
  have := h.size
  rw [Array.size_shrink]
  omega

theorem sure_truncate {size : Nat} {Q : Unit → World → Prop} (h : G.At F M n w) (room : G.floor ≤ size)
    (next : ∀ w', G.At F M n w' → w'.machine.stack.size = min size w.machine.stack.size → Q () w') :
    Sure G (truncate size) (truncate size) w Q :=
  sure_ok (u := w.onStack (w.machine.stack.shrink size)) rfl (next _ (h.shrink room) Array.size_shrink)

/-- What is taken is known, and it is all that lay there. -/
theorem sure_takeFrom {start : Nat} {Q : List Value → World → Prop} (h : G.At F M n w) (room : G.floor ≤ start)
    (next : ∀ vs w', G.At F M n w' → (∀ v ∈ vs, v.Within n) → vs.length = w.machine.stack.size - start →
      w'.machine.stack.size = min start w.machine.stack.size → Q vs w') :
    Sure G (takeFrom start) (takeFrom start) w Q := by
  refine sure_ok (u := w.onStack (w.machine.stack.shrink start)) rfl
    (next _ _ (h.shrink room) (fun v mem => ?_) (by simp) Array.size_shrink)
  rw [Array.toList_extract] at mem
  simp only [List.extract_eq_take_drop] at mem
  exact h.knows_slot (Array.mem_toList_iff.mp (List.mem_of_mem_drop (List.mem_of_mem_take mem)))

theorem sure_popMany {k : Nat} {Q : List Value → World → Prop} (h : G.At F M n w)
    (room : G.floor + k ≤ w.machine.stack.size)
    (next : ∀ vs w', G.At F M n w' → (∀ v ∈ vs, v.Within n) → vs.length = k →
      w'.machine.stack.size + k = w.machine.stack.size → Q vs w') :
    Sure G (popMany k) (popMany k) w Q := by
  refine sure_bind (looks_stackSize.sure h.holds fun size hsize => ?_)
  cases hsize
  refine sure_ite (fun _ => ?_) fun few => absurd (show k ≤ w.machine.stack.size by omega) few
  exact sure_takeFrom h (by omega) fun vs w' h' known length size =>
    next vs w' h' known (by omega) (by omega)

end Stack

end ScriptEngine
