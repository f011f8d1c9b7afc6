import ScriptEngine.Proofs.Point

/-!
# Chunks under construction

`Notes` go with a chunk that is still being written: the point ahead of every
instruction and at every label, the loops that are open there, and the variables
that closures have captured. `Draft` says that the notes are right. It holds of
an empty chunk and each thing that the assembler does to a chunk keeps it, given
the notes that the lemma for it names.

A label waits from when it is made until it is placed.
-/
namespace ScriptEngine

/-- A loop, by the offset where it starts and the number of variables outside. -/
abbrev Round := Nat × Nat

structure Notes where
  /-- What is known ahead of an instruction. -/
  point : Nat → Point
  /-- The loops around an instruction. -/
  rounds : Nat → List Round
  /-- What is known where a label is placed. -/
  want : Nat → Point
  placed : Nat → Option Nat
  /-- The variables on the stack, innermost first, with their numbers. -/
  vars : List (String × Nat)
  /-- The number of the next variable. -/
  fresh : Nat := 0
  /-- The offsets of captures and the numbers of the variables that they capture. -/
  caught : List (Nat × Nat) := []
  /-- How many captures follow a closure. -/
  run : Nat → Nat := fun _ => 0
  /-- How many captures are missing behind the last closure. -/
  left : Nat := 0

namespace Notes

/-- An instruction is written, with the point behind it. -/
def emit (N : Notes) (size : Nat) (q : Point) : Notes :=
  { N with
    point := Function.update N.point (size + 1) q
    rounds := Function.update N.rounds (size + 1) (N.rounds size) }

/-- The point at the end of the code is another one. -/
def relabel (N : Notes) (size : Nat) (q : Point) : Notes :=
  { N with point := Function.update N.point size q }

def newLabel (N : Notes) (label : Nat) (p : Point) : Notes :=
  { N with want := Function.update N.want label p }

def placeLabel (N : Notes) (label size : Nat) : Notes :=
  { N with placed := Function.update N.placed label (some size) }

def setRounds (N : Notes) (size : Nat) (rounds : List Round) : Notes :=
  { N with rounds := Function.update N.rounds size rounds }

end Notes

/-- Every instruction has its effect, and loops are closed only by jumps to their start. -/
structure Flow (known : Array Chunk) (c : Chunk) (width : Nat) (N : Notes) : Prop where
  step : ∀ o i, c.code[o]? = some i → ∃ p, Effect known c i (N.point o) p ∧
    (i.falls → p ≤ N.point (o + 1)) ∧
    ∀ l, i.target? = some l → l.toNat < c.labels.size ∧ p ≤ N.want l.toNat
  fits : ∀ o i, c.code[o]? = some i → Fits (fun _ _ => True) c width (N.point o) i
  suits : ∀ o i, c.code[o]? = some i → Suits (N.point o) i
  placed : ∀ l t, N.placed l = some t → l < c.labels.size ∧ t ≤ c.code.size ∧
    N.want l ≤ N.point t ∧ c.labels[l]? = some (UInt32.ofNat t)
  back : ∀ o i l t, c.code[o]? = some i → i.target? = some l → N.placed l.toNat = some t →
    t ≤ o → ∃ r ∈ N.rounds o, (N.want l.toNat).height ≤ r.2 ∧ ∀ s ∈ N.rounds o, s ∈ N.rounds t
  whole : ∀ o m q r, o ≤ m → m ≤ q → q ≤ c.code.size → r ∈ N.rounds o → r ∈ N.rounds q →
    r ∈ N.rounds m
  since : ∀ o r, o ≤ c.code.size → r ∈ N.rounds o → r.1 ≤ o
  within : ∀ o name id rest, c.code[o]? = some .pop → (N.point o).held = .bound name id :: rest →
    ∀ r ∈ N.rounds o, r.2 ≤ rest.length

/-- Captures follow closures, and what is dropped as it is has not been captured before. -/
structure Words (c : Chunk) (N : Notes) : Prop where
  caught : ∀ q n, c.code[q]? = some (.capture ⟨true, n⟩) →
    ∃ name id, (N.point q).at? n.toNat = some (.bound name id) ∧ (q, id) ∈ N.caught
  older : ∀ q id, (q, id) ∈ N.caught → q < c.code.size ∧ id < N.fresh
  drop : ∀ o name id rest, c.code[o]? = some .pop → (N.point o).held = .bound name id :: rest →
    ∀ q, (q, id) ∈ N.caught → o < q
  follow : ∀ o k, c.code[o]? = some (.closure k) → o + N.run o + 1 ≤ c.code.size + N.left ∧
    ∀ q, o < q → q ≤ o + N.run o → q < c.code.size → ∃ s, c.code[q]? = some (.capture s)
  belongs : ∀ q s, c.code[q]? = some (.capture s) →
    ∃ o k, c.code[o]? = some (.closure k) ∧ o < q ∧ q ≤ o + N.run o
  missing : N.left ≠ 0 → ∃ o k, c.code[o]? = some (.closure k) ∧
    o + N.run o + 1 = c.code.size + N.left

/-- The labels that wait to be placed. -/
structure Waiting (c : Chunk) (N : Notes) (ws : List Nat) : Prop where
  nodup : ws.Nodup
  mem : ∀ w, w ∈ ws ↔ w < c.labels.size ∧ N.placed w = none
  unplaced : ∀ w ∈ ws, c.labels[w]? = some Chunk.unplaced

structure Draft (known : Array Chunk) (c : Chunk) (width : Nat) (N : Notes) (ws : List Nat) : Prop where
  flow : Flow known c width N
  words : Words c N
  waiting : Waiting c N ws

section Emit
variable {known : Array Chunk} {legal : Nat → String → Prop} {c : Chunk} {width : Nat} {N : Notes}
  {ws : List Nat} {i : Instruction} {ℓ : UInt32} {p q : Point}

theorem code_emit (o : Nat) (j : Instruction) :
    (c.emit i ℓ).code[o]? = some j ↔
      c.code[o]? = some j ∨ (o = c.code.size ∧ i = j) := by
  change (c.code.push i)[o]? = some j ↔ _
  rw [Array.getElem?_push]
  split_ifs with h
  · subst h
    simp
  · simp [h]

@[simp] theorem size_emit : (c.emit i ℓ).code.size = c.code.size + 1 := by simp [Chunk.emit]

theorem lt_size_of_code {o : Nat} {j : Instruction} (h : c.code[o]? = some j) : o < c.code.size :=
  (Array.getElem?_eq_some_iff.mp h).1

@[simp] theorem point_emit_of_ne {size : Nat} {o : Nat} (h : o ≠ size + 1) :
    (N.emit size q).point o = N.point o := Function.update_of_ne h _ _

@[simp] theorem point_emit_succ {size : Nat} : (N.emit size q).point (size + 1) = q :=
  Function.update_self _ _ _

@[simp] theorem rounds_emit_of_ne {size : Nat} {o : Nat} (h : o ≠ size + 1) :
    (N.emit size q).rounds o = N.rounds o := Function.update_of_ne h _ _

@[simp] theorem rounds_emit_succ {size : Nat} : (N.emit size q).rounds (size + 1) = N.rounds size :=
  Function.update_self _ _ _

/-- What must hold to write an instruction with the point `q` behind it. -/
structure Emits (known : Array Chunk) (legal : Nat → String → Prop) (c : Chunk) (width : Nat)
    (N : Notes) (i : Instruction) (q : Point) : Prop where
  effect : ∃ p, Effect known c i (N.point c.code.size) p ∧ (i.falls → p ≤ q) ∧
    ∀ l, i.target? = some l → l.toNat < c.labels.size ∧ p ≤ N.want l.toNat
  fits : Fits legal c width (N.point c.code.size) i
  suits : Suits (N.point c.code.size) i
  back : ∀ l t, i.target? = some l → N.placed l.toNat = some t →
    ∃ r ∈ N.rounds c.code.size, (N.want l.toNat).height ≤ r.2 ∧
      ∀ s ∈ N.rounds c.code.size, s ∈ N.rounds t
  within : ∀ name id rest, i = .pop → (N.point c.code.size).held = .bound name id :: rest →
    ∀ r ∈ N.rounds c.code.size, r.2 ≤ rest.length

/-- What stands in a table also stands in another one, at the same place. -/
def Grows {α : Type} (xs ys : Array α) : Prop :=
  ∀ (k : Nat) (x : α), xs[k]? = some x → ys[k]? = some x

theorem Grows.refl {α : Type} (xs : Array α) : Grows xs xs := fun _ _ h => h

theorem Grows.trans {α : Type} {xs ys zs : Array α} (h : Grows xs ys) (k : Grows ys zs) :
    Grows xs zs :=
  fun _ _ hx => k _ _ (h _ _ hx)

theorem grows_push {α : Type} (xs : Array α) (x : α) : Grows xs (xs.push x) := by
  intro k y hy
  have := (Array.getElem?_eq_some_iff.mp hy).1
  rwa [Array.getElem?_push, if_neg (by omega)]

theorem Effect.mono {known' : Array Chunk} {c' : Chunk} {j : Instruction} {p q : Point}
    (h : Effect known c j p q) (within : Grows c.constants c'.constants)
    (grows : Grows known known') : Effect known' c' j p q := by
  cases h with
  | plain effect length values => exact .plain effect length values
  | byte => exact .byte
  | drop => exact .drop
  | close => exact .close
  | closure constant chunk ordinary => exact .closure (within _ _ constant) (grows _ _ chunk) ordinary
  | special constant chunk => exact .special (within _ _ constant) (grows _ _ chunk)
  | capture => exact .capture
  | chain chunk arity ordinary => exact .chain (grows _ _ chunk) arity ordinary
  | set => exact .set
  | start => exact .start
  | finish value => exact .finish value
  | validate value => exact .validate value

theorem Fits.mono {c' : Chunk} {width' : Nat} {j : Instruction} {p : Point}
    (h : Fits legal c width p j) (within : Grows c.constants c'.constants) (wider : width ≤ width') :
    Fits legal c' width' p j := by
  constructor
  case name =>
    intro n hn
    have := h.name n hn
    unfold Chunk.name? at this ⊢
    split at this
    · rename_i s hs
      rw [within _ _ hs]
      rfl
    · cases this
  case constant =>
    intro n hn
    rcases h.constant n hn with ⟨x, hx⟩ | ⟨s, hs⟩
    · exact .inl ⟨x, within _ _ hx⟩
    · exact .inr ⟨s, within _ _ hs⟩
  case slot => exact h.slot
  case upvalue =>
    intro n hn
    have := h.upvalue n hn
    omega
  case results => exact h.results
  case calm => exact h.calm

/-- What may be referred to matters only while an instruction is written. -/
theorem Fits.forget {j : Instruction} {p : Point} (h : Fits legal c width p j) :
    Fits (fun _ _ => True) c width p j where
  name := h.name
  constant := h.constant
  slot := fun n hn => by
    obtain ⟨name, id, at?, -⟩ := h.slot n hn
    exact ⟨name, id, at?, trivial⟩
  upvalue := h.upvalue
  results := h.results
  calm := h.calm

theorem Effect.emit {j : Instruction} {p q : Point} (h : Effect known c j p q) :
    Effect known (c.emit i ℓ) j p q := h.mono (.refl _) (.refl _)

theorem Fits.emit {j : Instruction} {p : Point} (h : Fits legal c width p j) :
    Fits legal (c.emit i ℓ) width p j := h.mono (.refl _) le_rfl

theorem Flow.emit (h : Flow known c width N) (e : Emits known legal c width N i q) :
    Flow known (c.emit i ℓ) width (N.emit c.code.size q) := by
  have old {o : Nat} {j : Instruction} (ho : c.code[o]? = some j) : o < c.code.size :=
    lt_size_of_code ho
  constructor
  case step =>
    intro o j ho
    rcases (code_emit o j).mp ho with ho | ⟨rfl, rfl⟩
    · obtain ⟨p, effect, falls, target⟩ := h.step o j ho
      have := old ho
      refine ⟨p, ?_, ?_, target⟩
      · rw [point_emit_of_ne (by omega)]
        exact effect.emit
      · rw [point_emit_of_ne (by omega)]
        exact falls
    · obtain ⟨p, effect, falls, target⟩ := e.effect
      refine ⟨p, ?_, ?_, target⟩
      · rw [point_emit_of_ne (by omega)]
        exact effect.emit
      · rw [point_emit_succ]
        exact falls
  case fits =>
    intro o j ho
    rcases (code_emit o j).mp ho with ho | ⟨rfl, rfl⟩
    · have := old ho
      rw [point_emit_of_ne (by omega)]
      exact (h.fits o j ho).emit
    · rw [point_emit_of_ne (by omega)]
      exact e.fits.forget.emit
  case suits =>
    intro o j ho
    rcases (code_emit o j).mp ho with ho | ⟨rfl, rfl⟩
    · have := old ho
      rw [point_emit_of_ne (by omega)]
      exact h.suits o j ho
    · rw [point_emit_of_ne (by omega)]
      exact e.suits
  case placed =>
    intro l t hl
    obtain ⟨size, bound, want, label⟩ := h.placed l t hl
    refine ⟨size, by simp; omega, ?_, label⟩
    rw [point_emit_of_ne (by omega)]
    exact want
  case back =>
    intro o j l t ho target placed le
    rcases (code_emit o j).mp ho with ho | ⟨rfl, rfl⟩
    · have := old ho
      rw [rounds_emit_of_ne (by omega), rounds_emit_of_ne (by omega)]
      exact h.back o j l t ho target placed le
    · rw [rounds_emit_of_ne (by omega), rounds_emit_of_ne (by omega)]
      exact e.back l t target placed
  case whole =>
    intro o m r s hom hmr hr ho hq
    rw [size_emit] at hr
    by_cases last : r = c.code.size + 1
    · subst last
      rw [rounds_emit_succ] at hq
      by_cases last : m = c.code.size + 1
      · subst last
        rwa [rounds_emit_succ]
      · rw [rounds_emit_of_ne last]
        rw [rounds_emit_of_ne (by omega)] at ho
        exact h.whole o m c.code.size s hom (by omega) le_rfl ho hq
    · rw [rounds_emit_of_ne (by omega)] at ho hq ⊢
      exact h.whole o m r s hom hmr (by omega) ho hq
  case since =>
    intro o r ho hr
    rw [size_emit] at ho
    by_cases last : o = c.code.size + 1
    · subst last
      rw [rounds_emit_succ] at hr
      have := h.since c.code.size r le_rfl hr
      omega
    · rw [rounds_emit_of_ne last] at hr
      exact h.since o r (by omega) hr
  case within =>
    intro o name id rest ho held r hr
    rcases (code_emit o _).mp ho with ho | ⟨rfl, rfl⟩
    · have := old ho
      rw [point_emit_of_ne (by omega)] at held
      rw [rounds_emit_of_ne (by omega)] at hr
      exact h.within o name id rest ho held r hr
    · rw [point_emit_of_ne (by omega)] at held
      rw [rounds_emit_of_ne (by omega)] at hr
      exact e.within name id rest rfl held r hr

/-- An instruction that is no part of the making of a closure. -/
def Instruction.isWord : Instruction → Bool
  | .closure _ | .capture _ => true
  | _ => false

theorem Words.emit (h : Words c N) (whole : N.left = 0) (word : i.isWord = false)
    (drop : ∀ name id rest, i = .pop → (N.point c.code.size).held = .bound name id :: rest →
      ∀ q, (q, id) ∉ N.caught) :
    Words (c.emit i ℓ) (N.emit c.code.size q) := by
  have code {o : Nat} {j : Instruction} (hj : j.isWord = true)
      (ho : (c.emit i ℓ).code[o]? = some j) : c.code[o]? = some j := by
    rcases (code_emit o j).mp ho with ho | ⟨-, rfl⟩
    · exact ho
    · rw [word] at hj
      cases hj
  constructor
  case caught =>
    intro o n ho
    have ho := code rfl ho
    have := lt_size_of_code ho
    rw [point_emit_of_ne (by omega)]
    exact h.caught o n ho
  case older =>
    intro o id ho
    have := h.older o id ho
    exact ⟨by simp; omega, this.2⟩
  case drop =>
    intro o name id rest ho held r hr
    rcases (code_emit o _).mp ho with ho | ⟨rfl, rfl⟩
    · have := lt_size_of_code ho
      rw [point_emit_of_ne (by omega)] at held
      exact h.drop o name id rest ho held r hr
    · rw [point_emit_of_ne (by omega)] at held
      exact (drop name id rest rfl held r hr).elim
  case follow =>
    intro o k ho
    obtain ⟨bound, follow⟩ := h.follow o k (code rfl ho)
    rw [whole] at bound
    refine ⟨by simp [Notes.emit, whole]; omega, fun r lo hi _ => ?_⟩
    have hi : r ≤ o + N.run o := hi
    obtain ⟨s, hs⟩ := follow r lo hi (by omega)
    exact ⟨s, (code_emit r _).mpr (.inl hs)⟩
  case belongs =>
    intro o s ho
    obtain ⟨p, k, hp, lo, hi⟩ := h.belongs o s (code rfl ho)
    exact ⟨p, k, (code_emit p _).mpr (.inl hp), lo, hi⟩
  case missing => exact fun missing => (missing whole).elim

/-- A closure, with so many captures to come. -/
theorem Words.emitClosure (h : Words c N) (whole : N.left = 0) {k : UInt16} (m : Nat) :
    Words (c.emit (.closure k) ℓ)
      { N.emit c.code.size q with run := Function.update N.run c.code.size m, left := m } := by
  have code {o : Nat} {s : Capture} (ho : (c.emit (.closure k) ℓ).code[o]? = some (.capture s)) :
      c.code[o]? = some (.capture s) := by
    rcases (code_emit o _).mp ho with ho | ⟨-, e⟩
    · exact ho
    · cases e
  have run {o : Nat} (ho : o < c.code.size) : Function.update N.run c.code.size m o = N.run o :=
    Function.update_of_ne (by omega) _ _
  constructor
  case caught =>
    intro o n ho
    have ho := code ho
    have := lt_size_of_code ho
    obtain ⟨name, id, at?, mem⟩ := h.caught o n ho
    refine ⟨name, id, ?_, mem⟩
    rw [← at?]
    exact congrArg (Point.at? · _) (point_emit_of_ne (by omega))
  case older =>
    intro o id ho
    have := h.older o id ho
    exact ⟨by simp; omega, this.2⟩
  case drop =>
    intro o name id rest ho held r hr
    rcases (code_emit o _).mp ho with ho | ⟨rfl, e⟩
    · have := lt_size_of_code ho
      refine h.drop o name id rest ho ?_ r hr
      rw [← held]
      exact congrArg Point.held (point_emit_of_ne (by omega)).symm
    · cases e
  case follow =>
    intro o j ho
    rcases (code_emit o _).mp ho with ho | ⟨rfl, -⟩
    · have := lt_size_of_code ho
      obtain ⟨bound, follow⟩ := h.follow o j ho
      rw [whole] at bound
      simp only [run this]
      refine ⟨by simp; omega, fun r lo hi _ => ?_⟩
      obtain ⟨s, hs⟩ := follow r lo hi (by omega)
      exact ⟨s, (code_emit r _).mpr (.inl hs)⟩
    · refine ⟨by simp, fun r lo _ hr => ?_⟩
      rw [size_emit] at hr
      omega
  case belongs =>
    intro o s ho
    obtain ⟨p, j, hp, lo, hi⟩ := h.belongs o s (code ho)
    refine ⟨p, j, (code_emit p _).mpr (.inl hp), lo, ?_⟩
    change o ≤ p + Function.update N.run c.code.size m p
    rwa [run (lt_size_of_code hp)]
  case missing =>
    refine fun _ => ⟨c.code.size, k, (code_emit _ _).mpr (.inr ⟨rfl, rfl⟩), ?_⟩
    simp
    omega

/-- A capture of the variables that are noted with it. -/
theorem Words.emitCapture (h : Words c N) {m : Nat} (left : N.left = m + 1) {s : Capture}
    {more : List (Nat × Nat)} (older : ∀ e ∈ more, e.1 = c.code.size ∧ e.2 < N.fresh)
    (caught : ∀ n, s = ⟨true, n⟩ → ∃ name id,
      (N.point c.code.size).at? n.toNat = some (.bound name id) ∧ (c.code.size, id) ∈ more) :
    Words (c.emit (.capture s) ℓ)
      { N.emit c.code.size q with caught := more ++ N.caught, left := m } := by
  have point {o : Nat} (ho : o < c.code.size + 1) :
      (N.emit c.code.size q).point o = N.point o := point_emit_of_ne (by omega)
  constructor
  case caught =>
    intro o n ho
    rcases (code_emit o _).mp ho with ho | ⟨rfl, e⟩
    · have := lt_size_of_code ho
      obtain ⟨name, id, at?, mem⟩ := h.caught o n ho
      refine ⟨name, id, ?_, List.mem_append_right _ mem⟩
      rw [← at?]
      exact congrArg (Point.at? · _) (point (by omega))
    · obtain ⟨name, id, at?, mem⟩ := caught n (by injection e)
      refine ⟨name, id, ?_, List.mem_append_left _ mem⟩
      rw [← at?]
      exact congrArg (Point.at? · _) (point (by omega))
  case older =>
    intro o id ho
    rcases List.mem_append.mp ho with ho | ho
    · obtain ⟨at', fresh⟩ := older _ ho
      exact ⟨by simp; omega, fresh⟩
    · have := h.older o id ho
      exact ⟨by simp; omega, this.2⟩
  case drop =>
    intro o name id rest ho held r hr
    rcases (code_emit o _).mp ho with ho | ⟨rfl, e⟩
    · have := lt_size_of_code ho
      rcases List.mem_append.mp hr with hr | hr
      · have : r = _ := (older _ hr).1
        omega
      · refine h.drop o name id rest ho ?_ r hr
        rw [← held]
        exact congrArg Point.held (point (by omega)).symm
    · cases e
  case follow =>
    intro o j ho
    rcases (code_emit o _).mp ho with ho | ⟨-, e⟩
    · obtain ⟨bound, follow⟩ := h.follow o j ho
      refine ⟨?_, fun r lo hi hr => ?_⟩
      · change o + N.run o + 1 ≤ _
        simp only [size_emit]
        omega
      · by_cases last : r = c.code.size
        · exact ⟨s, (code_emit r _).mpr (.inr ⟨last, rfl⟩)⟩
        · rw [size_emit] at hr
          obtain ⟨s, hs⟩ := follow r lo hi (by omega)
          exact ⟨s, (code_emit r _).mpr (.inl hs)⟩
    · cases e
  case belongs =>
    intro o s' ho
    rcases (code_emit o _).mp ho with ho | ⟨rfl, -⟩
    · obtain ⟨p, j, hp, lo, hi⟩ := h.belongs o s' ho
      exact ⟨p, j, (code_emit p _).mpr (.inl hp), lo, hi⟩
    · obtain ⟨p, j, hp, size⟩ := h.missing (by omega)
      refine ⟨p, j, (code_emit p _).mpr (.inl hp), lt_size_of_code hp, ?_⟩
      change c.code.size ≤ p + N.run p
      omega
  case missing =>
    intro missing
    obtain ⟨p, j, hp, size⟩ := h.missing (by omega)
    refine ⟨p, j, (code_emit p _).mpr (.inl hp), ?_⟩
    change p + N.run p + 1 = _
    simp only [size_emit]
    omega

theorem Waiting.emit (h : Waiting c N ws) : Waiting (c.emit i ℓ) (N.emit c.code.size q) ws :=
  ⟨h.nodup, h.mem, h.unplaced⟩

theorem Draft.emit (h : Draft known c width N ws) (e : Emits known legal c width N i q)
    (whole : N.left = 0) (word : i.isWord = false)
    (drop : ∀ name id rest, i = .pop → (N.point c.code.size).held = .bound name id :: rest →
      ∀ q, (q, id) ∉ N.caught) :
    Draft known (c.emit i ℓ) width (N.emit c.code.size q) ws :=
  ⟨h.flow.emit e, h.words.emit whole word drop, h.waiting.emit⟩

end Emit

section Change
variable {known : Array Chunk} {c : Chunk} {width : Nat} {N : Notes}
  {ws : List Nat} {q : Point}

/-- A draft depends on little of what it is about. -/
theorem Draft.mono {known' : Array Chunk} {c' : Chunk} {width' : Nat}
    (h : Draft known c width N ws) (code : c'.code = c.code) (labels : c'.labels = c.labels)
    (within : Grows c.constants c'.constants) (wider : width ≤ width') (grows : Grows known known') :
    Draft known' c' width' N ws := by
  obtain ⟨flow, words, waiting⟩ := h
  refine ⟨⟨?_, ?_, ?_, ?_, ?_, ?_, ?_, ?_⟩, ⟨?_, ?_, ?_, ?_, ?_, ?_⟩, ⟨waiting.nodup, ?_, ?_⟩⟩ <;>
    simp only [code, labels]
  · intro o i ho
    obtain ⟨p, effect, rest⟩ := flow.step o i ho
    exact ⟨p, effect.mono within grows, rest⟩
  · exact fun o i ho => (flow.fits o i ho).mono within wider
  · exact flow.suits
  · exact flow.placed
  · exact flow.back
  · exact flow.whole
  · exact flow.since
  · exact flow.within
  · exact words.caught
  · exact words.older
  · exact words.drop
  · exact words.follow
  · exact words.belongs
  · exact words.missing
  · exact waiting.mem
  · exact waiting.unplaced

theorem Draft.perm {ws' : List Nat} (h : Draft known c width N ws) (p : ws.Perm ws') :
    Draft known c width N ws' :=
  ⟨h.flow, h.words, p.nodup_iff.mp h.waiting.nodup, fun w => by rw [← p.mem_iff, h.waiting.mem],
    fun w hw => h.waiting.unplaced w (p.mem_iff.mpr hw)⟩

/-- What is known at the end of the code may be taken for less. -/
theorem Draft.relabel (h : Draft known c width N ws) (le : N.point c.code.size ≤ q) :
    Draft known c width (N.relabel c.code.size q) ws := by
  obtain ⟨flow, words, waiting⟩ := h
  have old {o : Nat} (ho : o ≠ c.code.size) : (N.relabel c.code.size q).point o = N.point o :=
    Function.update_of_ne ho _ _
  have last : (N.relabel c.code.size q).point c.code.size = q := Function.update_self _ _ _
  refine ⟨⟨?_, ?_, ?_, ?_, flow.back, flow.whole, flow.since, ?_⟩,
    ⟨?_, words.older, ?_, words.follow, words.belongs, words.missing⟩,
    ⟨waiting.nodup, waiting.mem, waiting.unplaced⟩⟩
  · intro o i ho
    have := lt_size_of_code ho
    obtain ⟨p, effect, falls, target⟩ := flow.step o i ho
    rw [old (by omega)]
    refine ⟨p, effect, fun hi => ?_, target⟩
    by_cases next : o + 1 = c.code.size
    · rw [next, last]
      exact Point.le_trans (falls hi) (next ▸ le)
    · rw [old next]
      exact falls hi
  · intro o i ho
    have := lt_size_of_code ho
    rw [old (by omega)]
    exact flow.fits o i ho
  · intro o i ho
    have := lt_size_of_code ho
    rw [old (by omega)]
    exact flow.suits o i ho
  · intro l t hl
    obtain ⟨size, bound, want, label⟩ := flow.placed l t hl
    refine ⟨size, bound, ?_, label⟩
    by_cases here : t = c.code.size
    · rw [here, last]
      exact Point.le_trans want (here ▸ le)
    · rw [old here]
      exact want
  · intro o name id rest ho held
    have := lt_size_of_code ho
    rw [old (by omega)] at held
    exact flow.within o name id rest ho held
  · intro o n ho
    have := lt_size_of_code ho
    rw [old (by omega)]
    exact words.caught o n ho
  · intro o name id rest ho held
    have := lt_size_of_code ho
    rw [old (by omega)] at held
    exact words.drop o name id rest ho held

theorem Draft.newLabel (h : Draft known c width N ws) (name : String) (p : Point) :
    Draft known (c.addLabel name) width (N.newLabel c.labels.size p) (c.labels.size :: ws) := by
  obtain ⟨flow, words, waiting⟩ := h
  have size : (c.addLabel name).labels.size = c.labels.size + 1 := by simp [Chunk.addLabel]
  have labels {l : Nat} (hl : l ≠ c.labels.size) : (c.addLabel name).labels[l]? = c.labels[l]? := by
    simp [Chunk.addLabel, Array.getElem?_push, hl]
  have want {l : Nat} (hl : l < c.labels.size) :
      (N.newLabel c.labels.size p).want l = N.want l := Function.update_of_ne (by omega) _ _
  have unplaced : N.placed c.labels.size = none := by
    cases hp : N.placed c.labels.size with
    | none => rfl
    | some t =>
      have := (flow.placed _ t hp).1
      omega
  refine ⟨⟨?_, fun o i ho => (flow.fits o i ho).mono (.refl _) le_rfl, flow.suits, ?_, ?_,
      flow.whole, flow.since, flow.within⟩,
    ⟨words.caught, words.older, words.drop, words.follow, words.belongs, words.missing⟩,
    ⟨?_, ?_, ?_⟩⟩
  · intro o i ho
    obtain ⟨p, effect, falls, target⟩ := flow.step o i ho
    refine ⟨p, effect.mono (.refl _) (.refl _), falls, fun l hl => ?_⟩
    obtain ⟨bound, le⟩ := target l hl
    exact ⟨by omega, by rwa [want bound]⟩
  · intro l t hl
    obtain ⟨bound, le, hw, label⟩ := flow.placed l t hl
    refine ⟨by omega, le, ?_, ?_⟩
    · rwa [want bound]
    · rwa [labels (by omega)]
  · intro o i l t ho hi hl le
    obtain ⟨r, hr, height, rest⟩ := flow.back o i l t ho hi hl le
    refine ⟨r, hr, ?_, rest⟩
    rwa [want (flow.placed _ t hl).1]
  · rw [List.nodup_cons, waiting.mem]
    exact ⟨fun h => absurd h.1 (by omega), waiting.nodup⟩
  · intro w
    rw [List.mem_cons, waiting.mem, size]
    refine ⟨?_, ?_⟩
    · rintro (rfl | ⟨bound, hw⟩)
      · exact ⟨by omega, unplaced⟩
      · exact ⟨by omega, hw⟩
    · rintro ⟨bound, hw⟩
      by_cases last : w = c.labels.size
      · exact .inl last
      · exact .inr ⟨by omega, hw⟩
  · intro w hw
    rcases List.mem_cons.mp hw with rfl | hw
    · simp [Chunk.addLabel]
    · rw [labels (by have := ((waiting.mem w).mp hw).1; omega)]
      exact waiting.unplaced w hw

/-- A label is placed where at least as much is known as it wants. -/
theorem Draft.placeLabel {label : UInt16} (h : Draft known c width N (label.toNat :: ws))
    (want : N.want label.toNat ≤ N.point c.code.size) :
    Draft known (c.placeLabel label) width (N.placeLabel label.toNat c.code.size) ws := by
  obtain ⟨flow, words, waiting⟩ := h
  obtain ⟨bound, unplaced⟩ := (waiting.mem label.toNat).mp (List.mem_cons_self ..)
  have size : (c.placeLabel label).labels.size = c.labels.size := by simp [Chunk.placeLabel]
  have labels {l : Nat} (hl : l ≠ label.toNat) :
      (c.placeLabel label).labels[l]? = c.labels[l]? := by
    simp only [Chunk.placeLabel, Array.getElem?_setIfInBounds]
    rw [if_neg (fun h => hl h.symm)]
  have placed {l : Nat} (hl : l ≠ label.toNat) :
      (N.placeLabel label.toNat c.code.size).placed l = N.placed l := Function.update_of_ne hl _ _
  have here : (N.placeLabel label.toNat c.code.size).placed label.toNat = some c.code.size :=
    Function.update_self _ _ _
  obtain ⟨fresh, nodup⟩ := List.nodup_cons.mp waiting.nodup
  refine ⟨⟨?_, fun o i ho => (flow.fits o i ho).mono (.refl _) le_rfl, flow.suits, ?_, ?_,
      flow.whole, flow.since, flow.within⟩,
    ⟨words.caught, words.older, words.drop, words.follow, words.belongs, words.missing⟩,
    ⟨nodup, ?_, ?_⟩⟩
  · intro o i ho
    obtain ⟨p, effect, falls, target⟩ := flow.step o i ho
    refine ⟨p, effect.mono (.refl _) (.refl _), falls, fun l hl => ?_⟩
    rw [size]
    exact target l hl
  · intro l t hl
    by_cases this : l = label.toNat
    · subst this
      rw [here] at hl
      cases hl
      refine ⟨by rwa [size], le_rfl, want, ?_⟩
      simp [Chunk.placeLabel, bound]
    · rw [placed this] at hl
      rw [labels this, size]
      exact flow.placed l t hl
  · intro o i l t ho hi hl le
    by_cases this : l.toNat = label.toNat
    · rw [this, here] at hl
      cases hl
      have := lt_size_of_code ho
      change o < c.code.size at this
      omega
    · rw [placed this] at hl
      exact flow.back o i l t ho hi hl le
  · intro w
    by_cases this : w = label.toNat
    · subst this
      rw [here]
      simp [fresh]
    · rw [placed this, size, ← waiting.mem, List.mem_cons]
      simp [this]
  · intro w hw
    rw [labels (fun this => fresh (this ▸ hw))]
    exact waiting.unplaced w (List.mem_cons_of_mem _ hw)

/-- Loops begin at the end of the code, or end there. -/
theorem Draft.setRounds (h : Draft known c width N ws) {rs : List Round}
    (old : ∀ r ∈ rs, r ∈ N.rounds c.code.size ∨ r.1 = c.code.size) :
    Draft known c width (N.setRounds c.code.size rs) ws := by
  obtain ⟨flow, words, waiting⟩ := h
  have rounds {o : Nat} (ho : o ≠ c.code.size) :
      (N.setRounds c.code.size rs).rounds o = N.rounds o := Function.update_of_ne ho _ _
  have here : (N.setRounds c.code.size rs).rounds c.code.size = rs := Function.update_self _ _ _
  refine ⟨⟨flow.step, flow.fits, flow.suits, flow.placed, ?_, ?_, ?_, ?_⟩,
    ⟨words.caught, words.older, words.drop, words.follow, words.belongs, words.missing⟩,
    ⟨waiting.nodup, waiting.mem, waiting.unplaced⟩⟩
  · intro o i l t ho hi hl le
    have := lt_size_of_code ho
    rw [rounds (by omega), rounds (by omega)]
    exact flow.back o i l t ho hi hl le
  · intro o m q r hom hmq hq ho hr
    by_cases last : q = c.code.size
    · subst last
      rw [here] at hr
      by_cases end' : m = c.code.size
      · rwa [end', here]
      · rw [rounds (by omega)] at ho ⊢
        rcases old r hr with hr | hr
        · exact flow.whole o m _ r hom hmq le_rfl ho hr
        · have := flow.since o r (by omega) ho
          omega
    · rw [rounds (by omega)] at ho hr ⊢
      exact flow.whole o m q r hom hmq hq ho hr
  · intro o r ho hr
    by_cases last : o = c.code.size
    · subst last
      rw [here] at hr
      rcases old r hr with hr | hr
      · exact flow.since _ r le_rfl hr
      · omega
    · rw [rounds last] at hr
      exact flow.since o r ho hr
  · intro o name id rest ho held
    have := lt_size_of_code ho
    rw [rounds (by omega)]
    exact flow.within o name id rest ho held

end Change

end ScriptEngine
