import ScriptEngine.Proofs.Amending

/-!
# Objects of literals on the stack

A trace says which of the values on top of a frame are objects that the code of the frame
has made for literals, by the offsets of the instructions that made them. Nothing is known
of the other values, nor of those below the trace. Instructions take traces to traces, and
a trace may forget where lines of control meet.

`Chunk.Threaded` gives every offset of a chunk a trace. In a chunk that is marked pure, each
field is then stored to the object of a literal, and nothing is stored to anything else
that lives on.
-/
namespace ScriptEngine

open Assembler

abbrev Trace := List (Option Nat)

/-- The first trace knows all that the second one does. -/
def Trace.Knows (s t : Trace) : Prop := ∀ k q : Nat, t[k]? = some (some q) → s[k]? = some (some q)

open Trace

section Knows
variable {s t u : Trace}

theorem knows_refl (t : Trace) : Knows t t := fun _ _ h => h

theorem Trace.Knows.trans (h : Knows s t) (h' : Knows t u) : Knows s u := fun k q hk => h k q (h' k q hk)

@[simp] theorem knows_nil : Knows s [] := nofun

theorem Trace.Knows.cons (h : Knows s t) (x : Option Nat) : Knows (x :: s) (x :: t)
  | 0, _, hq => hq
  | k + 1, q, hq => h k q hq

/-- What is on top is forgotten. -/
theorem Trace.Knows.forget (h : Knows s t) (x : Option Nat) : Knows (x :: s) (none :: t)
  | 0, _, hq => nomatch hq
  | k + 1, q, hq => h k q hq

theorem Trace.Knows.tail (h : Knows s t) : Knows s.tail t.tail := by
  intro k q hk
  rw [List.getElem?_tail] at hk ⊢
  exact h _ q hk

theorem knows_headD (t : Trace) : Knows t (t.headD none :: t.tail) := by
  cases t with
  | nil =>
    intro k q hk
    cases k <;> cases hk
  | cons x t => exact knows_refl _

/-- A value on top is forgotten, if there is one. -/
theorem knows_none_tail (t : Trace) : Knows t (none :: t.tail) := by
  cases t with
  | nil => exact (knows_headD []).trans (knows_refl _)
  | cons x t => exact (knows_refl t).forget x

end Knows

/-- The trace behind an instruction at an offset, with what is certain of the values that it leaves. -/
def Instruction.trace (o : Nat) (t : Trace) : Instruction → Trace
  | .newDynamic => some o :: t
  | .duplicate => t.headD none :: t
  | .closure _ => none :: t
  | .capture _ => t
  | .multiVarStart | .multiVarEnd | .validate _ => []
  | i => match i.effect with
    | some (takes, gives) => List.replicate gives none ++ t.drop takes
    | none => []

/-- Stores to what outlives a function. -/
def Instruction.stores : Instruction → Bool
  | .defineGlobal _ | .setGlobal _ | .setIndex | .setProperty _ => true
  | _ => false

/-- A pure function stores a field only, and that to the object of a literal. The object lies below the value. -/
def Chunk.Guarded (c : Chunk) (t : Trace) : Instruction → Prop
  | .defineGlobal _ | .setGlobal _ | .setIndex => False
  | .setProperty _ => ∃ q, t[1]? = some (some q) ∧ c.code[q]? = some .newDynamic
  | _ => True

/-- A trace for each offset, and one for each label. -/
structure Chunk.Threaded (c : Chunk) (T want : Nat → Trace) : Prop where
  entry : Knows [] (T 0)
  step : ∀ o i, c.code[o]? = some i → i.falls → Knows (i.trace o (T o)) (T (o + 1))
  jump : ∀ (o : Nat) (i : Instruction) l, c.code[o]? = some i → i.target? = some l →
    l.toNat < c.labels.size ∧ Knows (i.trace o (T o)) (want l.toNat)
  place : ∀ (l : Nat) w, c.labels[l]? = some w → w ≠ Chunk.unplaced → c.code.size < 2 ^ 32 →
    w.toNat ≤ c.code.size ∧ Knows (want l) (T w.toNat)
  guard : c.modifiers.isPure → ∀ o i, c.code[o]? = some i → c.Guarded (T o) i

section Instructions
variable {i : Instruction} {o : Nat} {s t : Trace}

theorem trace_of_effect (takes gives : Nat) (h : i.effect = some (takes, gives)) :
    Knows (i.trace o t) (List.replicate gives none ++ t.drop takes) := by
  cases i with
  | newDynamic =>
    cases h
    exact (knows_refl t).forget _
  | duplicate =>
    cases h
    exact List.drop_one ▸ (knows_none_tail t).forget _
  | closure => cases h
  | capture => cases h
  | multiVarStart => cases h
  | multiVarEnd => cases h
  | validate => cases h
  | _ =>
    unfold Instruction.trace
    dsimp only
    rw [h]
    exact knows_refl _

theorem guarded_of_not_stores {c : Chunk} (h : i.stores = false) : c.Guarded t i := by
  cases i <;> trivial

theorem Chunk.Guarded.mono {c c' : Chunk} (h : c.Guarded t i) (grows : Grows c.code c'.code) : c'.Guarded t i := by
  cases i with
  | setProperty =>
    obtain ⟨q, known, made⟩ := h
    exact ⟨q, known, grows _ _ made⟩
  | _ => exact h

end Instructions

namespace Chunk.Threaded
variable {c c' : Chunk} {T want : Nat → Trace} {i : Instruction} {ℓ : UInt32} {t : Trace}

/-- Nothing has been written. -/
theorem empty (code : c.code = #[]) (labels : c.labels = #[]) : c.Threaded (fun _ => []) (fun _ => []) where
  entry := knows_nil
  step := fun o i h => by simp [code] at h
  jump := fun o i l h => by simp [code] at h
  place := fun l w h => by simp [labels] at h
  guard := fun _ o i h => by simp [code] at h

/-- Constants and the like do not matter. -/
theorem congr (h : c.Threaded T want) (code : c'.code = c.code) (labels : c'.labels = c.labels)
    (modifiers : c'.modifiers = c.modifiers) : c'.Threaded T want where
  entry := h.entry
  step := fun o i => code ▸ h.step o i
  jump := fun o i l => code ▸ labels ▸ h.jump o i l
  place := fun l w => code ▸ labels ▸ h.place l w
  guard := fun pure o i hi => (h.guard (modifiers ▸ pure) o i (code ▸ hi)).mono fun _ _ => code ▸ id

/-- An instruction is written, with the trace `t` behind it. -/
theorem emit (h : c.Threaded T want) (falls : i.falls → Knows (i.trace c.code.size (T c.code.size)) t)
    (target : ∀ l, i.target? = some l → l.toNat < c.labels.size ∧ Knows (i.trace c.code.size (T c.code.size)) (want l.toNat))
    (guard : c.modifiers.isPure → c.Guarded (T c.code.size) i) :
    (c.emit i ℓ).Threaded (Function.update T (c.code.size + 1) t) want := by
  have grows : Grows c.code (c.emit i ℓ).code := grows_push _ _
  have before {o : Nat} (ho : o ≤ c.code.size) : Function.update T (c.code.size + 1) t o = T o :=
    Function.update_of_ne (by omega) _ _
  constructor
  case entry =>
    rw [before (Nat.zero_le _)]
    exact h.entry
  case step =>
    intro o j ho goes
    rcases (code_emit o j).mp ho with ho | ⟨rfl, rfl⟩
    · have := lt_size_of_code ho
      rw [before (by omega), before (by omega)]
      exact h.step o j ho goes
    · rw [before le_rfl, Function.update_self]
      exact falls goes
  case jump =>
    intro o j l ho hl
    rcases (code_emit o j).mp ho with ho | ⟨rfl, rfl⟩
    · have := lt_size_of_code ho
      rw [before (by omega)]
      exact h.jump o j l ho hl
    · rw [before le_rfl]
      exact target l hl
  case place =>
    intro l w hl placed small
    rw [size_emit] at small ⊢
    obtain ⟨bound, knows⟩ := h.place l w hl placed (by omega)
    rw [before bound]
    exact ⟨by omega, knows⟩
  case guard =>
    intro pure o j ho
    rcases (code_emit o j).mp ho with ho | ⟨rfl, rfl⟩
    · have := lt_size_of_code ho
      rw [before (by omega)]
      exact (h.guard pure o j ho).mono grows
    · rw [before le_rfl]
      exact (guard pure).mono grows

/-- A label is made, with the trace `t` to be known where it is placed. -/
theorem addLabel (h : c.Threaded T want) (name : String) (t : Trace) :
    (c.addLabel name).Threaded T (Function.update want c.labels.size t) where
  entry := h.entry
  step := h.step
  jump := fun o i l hi hl => by
    obtain ⟨bound, knows⟩ := h.jump o i l hi hl
    rw [Function.update_of_ne (by omega)]
    exact ⟨by simp [Chunk.addLabel]; omega, knows⟩
  place := fun l w hl placed small => by
    have hl : (c.labels.push Chunk.unplaced)[l]? = some w := hl
    rw [Array.getElem?_push] at hl
    split_ifs at hl with last
    · cases hl
      exact absurd rfl placed
    · have bound := (Array.getElem?_eq_some_iff.mp hl).1
      rw [Function.update_of_ne last]
      exact h.place l w hl placed small
  guard := h.guard

/-- A label is placed where no more is known than the trace of the label. -/
theorem placeLabel (h : c.Threaded T want) (label : UInt16) (here : Knows (T c.code.size) t)
    (there : Knows (want label.toNat) t) :
    (c.placeLabel label).Threaded (Function.update T c.code.size t) want := by
  have weaker (o : Nat) : Knows (T o) (Function.update T c.code.size t o) := by
    by_cases last : o = c.code.size
    · subst last
      rw [Function.update_self]
      exact here
    · rw [Function.update_of_ne last]
      exact knows_refl _
  constructor
  case entry => exact h.entry.trans (weaker 0)
  case step =>
    intro o i hi goes
    have before : o < c.code.size := lt_size_of_code hi
    rw [Function.update_of_ne before.ne]
    exact (h.step o i hi goes).trans (weaker _)
  case jump =>
    intro o i l hi hl
    have before : o < c.code.size := lt_size_of_code hi
    rw [Function.update_of_ne before.ne]
    obtain ⟨bound, knows⟩ := h.jump o i l hi hl
    exact ⟨by simpa [Chunk.placeLabel] using bound, knows⟩
  case place =>
    intro l w hl placed small
    have small : c.code.size < 2 ^ 32 := small
    have hl : (c.labels.setIfInBounds label.toNat (UInt32.ofNat c.code.size))[l]? = some w := hl
    rw [Array.getElem?_setIfInBounds] at hl
    split_ifs at hl with same
    · cases hl
      subst same
      have size : (UInt32.ofNat c.code.size).toNat = c.code.size := by
        rw [UInt32.toNat_ofNat', Nat.mod_eq_of_lt small]
      rw [size, Function.update_self]
      exact ⟨le_rfl, there⟩
    · obtain ⟨bound, knows⟩ := h.place l w hl placed small
      exact ⟨bound, knows.trans (weaker _)⟩
  case guard =>
    intro pure o i hi
    have before : o < c.code.size := lt_size_of_code hi
    rw [Function.update_of_ne before.ne]
    exact h.guard pure o i hi

end Chunk.Threaded

end ScriptEngine
