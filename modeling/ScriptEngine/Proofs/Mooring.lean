import ScriptEngine.Proofs.Anchoring
import ScriptEngine.Proofs.Catching

/-!
# Captured variables on the stack

As long as the slot of a captured variable lives, its cell refers to the slot. The machine
lists the cells that do, and `Tidy` says that the list is right: it has every open cell once,
and no two of them for one slot.

A slot is given up by popping it, so a world is `Moored` up to a height if every open cell
lies below, in a slot of one of the frames whose variable may have been captured there.
`Since` compares a world with an earlier one: up to a height no variable has been captured
since then, and what is read through cells is what was read, closed or not.
-/
namespace ScriptEngine

open Run

/-! ## Cells -/

namespace Heap

variable {h : Heap} {ref r i : Nat} {c : Cell}

theorem lt_of_opened (opened : h.cell ref = .opened i) : ref < h.cells.size := by
  by_contra outside
  unfold Heap.cell at opened
  rw [Array.getElem?_eq_none (by omega)] at opened
  cases opened

theorem cell_setCell (h : Heap) (ref r : Nat) (c : Cell) :
    (h.setCell ref c).cell r = if r = ref ∧ ref < h.cells.size then c else h.cell r := by
  unfold Heap.cell Heap.setCell Heap.change
  dsimp only
  rw [Array.getElem?_modify]
  by_cases same : ref = r
  · subst same
    by_cases inside : ref < h.cells.size
    · simp [inside]
    · simp [inside]
  · rw [if_neg same, if_neg (fun both => same both.1.symm)]

theorem cell_addCell (h : Heap) (c : Cell) (r : Nat) :
    (h.addCell c).2.cell r = if r = h.cells.size then c else h.cell r := by
  unfold Heap.cell Heap.addCell
  dsimp only
  rw [Array.getElem?_push]
  split_ifs <;> rfl

/-- The slots in which captured variables live. -/
def lodged (h : Heap) : Set Nat := {i | ∃ ref, h.cell ref = .opened i}

end Heap

/-- What is read through a cell: while the variable lives on the stack, its slot. -/
def World.reads (w : World) (ref : Nat) : Value :=
  match w.heap.cell ref with
  | .opened i => (w.machine.stack[i]?).getD .null
  | .closed v => v

/-- The open cells are listed, each of them once, and each has a slot of its own. -/
structure World.Tidy (w : World) : Prop where
  listed : ∀ ref, ref ∈ w.machine.openCells ↔ ∃ i, w.heap.cell ref = .opened i
  nodup : w.machine.openCells.Nodup
  distinct : ∀ i ref ref', w.heap.cell ref = .opened i → w.heap.cell ref' = .opened i → ref = ref'

section

variable {w w' : World} {ref i : Nat}

/-- A cell reads the same if it is the same and so is its slot. -/
theorem World.reads_eq (cell : w'.heap.cell ref = w.heap.cell ref)
    (slot : ∀ i, w.heap.cell ref = .opened i → w'.machine.stack[i]? = w.machine.stack[i]?) :
    w'.reads ref = w.reads ref := by
  unfold World.reads
  rw [cell]
  split
  · next i opened => rw [slot i opened]
  · rfl

theorem World.Tidy.same (tidy : w.Tidy) (cells : w'.heap.cells = w.heap.cells)
    (openCells : w'.machine.openCells = w.machine.openCells) : w'.Tidy := by
  have cell (r : Nat) : w'.heap.cell r = w.heap.cell r := congrArg (·[r]?.getD default) cells
  refine ⟨fun r => ?_, openCells ▸ tidy.nodup, fun i r r' => ?_⟩
  · rw [openCells, cell]
    exact tidy.listed r
  · rw [cell, cell]
    exact tidy.distinct i r r'

/-! ## Closing cells -/

/-- What closing does to a cell. -/
def Cell.closeAt (stack : Array Value) (start : Nat) : Cell → Cell
  | .opened i => if i < start then .opened i else .closed ((stack[i]?).getD .null)
  | .closed v => .closed v

theorem Cell.closeAt_opened {stack : Array Value} {start : Nat} {c : Cell} :
    c.closeAt stack start = .opened i ↔ c = .opened i ∧ i < start := by
  cases c with
  | closed => simp [closeAt]
  | opened j =>
    simp only [closeAt]
    split_ifs with below
    · refine ⟨fun same => ⟨same, ?_⟩, And.left⟩
      cases same
      exact below
    · refine ⟨nofun, fun ⟨same, below'⟩ => ?_⟩
      cases same
      exact absurd below' below

theorem cell_closeCells (stack : Array Value) (start : Nat) (refs : List Nat) (h : Heap) (r : Nat) :
    (closeCells stack start refs h).2.cell r = if r ∈ refs then (h.cell r).closeAt stack start else h.cell r := by
  induction refs generalizing h with
  | nil => simp [closeCells]
  | cons ref rest ih =>
    unfold closeCells
    by_cases here : r = ref
    · subst here
      rw [if_pos (.head _)]
      split
      · next v closed =>
        rw [ih, closed]
        simp [Cell.closeAt]
      · next i opened =>
        split
        · next below =>
          rw [ih, opened]
          simp [Cell.closeAt, below]
        · next above =>
          have closed := h.cell_setCell r r (.closed ((stack[i]?).getD .null))
          rw [if_pos ⟨rfl, Heap.lt_of_opened opened⟩] at closed
          rw [ih, closed, opened]
          simp [Cell.closeAt, above]
    · have elsewhere : r ∈ ref :: rest ↔ r ∈ rest := by simp [here]
      simp only [elsewhere]
      split
      · exact ih h
      · split
        · exact ih h
        · next i _ _ =>
          have same := h.cell_setCell ref r (.closed ((stack[i]?).getD .null))
          rw [if_neg fun both => here both.1] at same
          rw [ih, same]

theorem mem_closeCells (stack : Array Value) (start : Nat) (refs : List Nat) (h : Heap) (r : Nat) :
    r ∈ (closeCells stack start refs h).1 ↔ r ∈ refs ∧ ∃ i < start, h.cell r = .opened i := by
  induction refs generalizing h with
  | nil => simp [closeCells]
  | cons ref rest ih =>
    unfold closeCells
    split
    · next v closed =>
      rw [ih, List.mem_cons]
      refine ⟨And.imp_left .inr, ?_⟩
      rintro ⟨rfl | mem, i, below, found⟩
      · rw [closed] at found
        cases found
      · exact ⟨mem, i, below, found⟩
    · next i opened =>
      split
      · next below =>
        rw [List.mem_cons, ih, List.mem_cons]
        refine ⟨?_, fun both => both.1.imp_right fun mem => ⟨mem, both.2⟩⟩
        rintro (rfl | ⟨mem, found⟩)
        · exact ⟨.inl rfl, i, below, opened⟩
        · exact ⟨.inr mem, found⟩
      · next above =>
        rw [ih, List.mem_cons, h.cell_setCell]
        by_cases here : r = ref
        · subst here
          rw [if_pos ⟨rfl, Heap.lt_of_opened opened⟩, opened]
          simp only [Cell.opened.injEq, reduceCtorEq, and_false, exists_false, false_iff, not_and, not_exists]
          rintro - j below rfl
          exact absurd below above
        · rw [if_neg fun both => here both.1]
          simp [here]

theorem sublist_closeCells (stack : Array Value) (start : Nat) (refs : List Nat) (h : Heap) :
    (closeCells stack start refs h).1.Sublist refs := by
  induction refs generalizing h with
  | nil => exact .slnil
  | cons ref rest ih =>
    unfold closeCells
    split
    · exact (ih _).cons _
    · split
      · exact (ih _).cons_cons _
      · exact (ih _).cons _

theorem rest_closeCells (stack : Array Value) (start : Nat) (refs : List Nat) (h : Heap) :
    (closeCells stack start refs h).2.cells.size = h.cells.size ∧
      { (closeCells stack start refs h).2 with cells := h.cells } = h := by
  induction refs generalizing h with
  | nil => exact ⟨rfl, rfl⟩
  | cons ref rest ih =>
    unfold closeCells
    split
    · exact ih h
    · next i _ =>
      split
      · exact ih h
      · obtain ⟨size, same⟩ := ih (h.setCell ref (.closed ((stack[i]?).getD .null)))
        refine ⟨size.trans (by simp [Heap.setCell, Heap.change]), ?_⟩
        have whole := congrArg (fun g : Heap => { g with cells := h.cells }) same
        exact whole

/-- The variables from a slot on have been given values of their own, and nothing else has changed. -/
structure World.Closes (start : Nat) (w w' : World) : Prop where
  tidy : w'.Tidy
  opened : ∀ ref i, w'.heap.cell ref = .opened i ↔ w.heap.cell ref = .opened i ∧ i < start
  size : w'.heap.cells.size = w.heap.cells.size
  reads : ∀ ref, w'.reads ref = w.reads ref
  machine : { w'.machine with openCells := w.machine.openCells } = w.machine
  natives : w'.natives = w.natives
  heap : { w'.heap with cells := w.heap.cells } = w.heap

theorem World.Tidy.closeFrom (tidy : w.Tidy) (start : Nat) :
    ∃ w', closeFrom start w = .ok () w' ∧ w.Closes start w' := by
  by_cases none : w.machine.openCells.isEmpty
  · have empty := List.isEmpty_iff.mp none
    refine ⟨w, if_pos none, tidy, fun ref i => ⟨fun opened => ?_, And.left⟩, rfl, fun _ => rfl, rfl, rfl, rfl⟩
    have mem := (tidy.listed ref).mpr ⟨i, opened⟩
    rw [empty] at mem
    cases mem
  · let w₁ : World := { w with
      heap := (closeCells w.machine.stack start w.machine.openCells w.heap).2
      machine.openCells := (closeCells w.machine.stack start w.machine.openCells w.heap).1 }
    have cell (ref : Nat) : w₁.heap.cell ref = (w.heap.cell ref).closeAt w.machine.stack start := by
      refine (cell_closeCells _ _ _ _ ref).trans ?_
      split
      · rfl
      · next other =>
        cases found : w.heap.cell ref with
        | closed => rfl
        | opened i => exact absurd ((tidy.listed ref).mpr ⟨i, found⟩) other
    have opened (ref i : Nat) : w₁.heap.cell ref = .opened i ↔ w.heap.cell ref = .opened i ∧ i < start := by
      rw [cell, Cell.closeAt_opened]
    obtain ⟨size, heap⟩ := rest_closeCells w.machine.stack start w.machine.openCells w.heap
    refine ⟨w₁, if_neg none, ⟨fun ref => ?_, ?_, fun i ref ref' first second => ?_⟩,
      opened, size, fun ref => ?_, rfl, rfl,
      heap⟩
    · refine (mem_closeCells _ _ _ _ ref).trans ⟨fun ⟨_, i, below, found⟩ => ⟨i, (opened ref i).mpr ⟨found, below⟩⟩, ?_⟩
      rintro ⟨i, found⟩
      obtain ⟨found, below⟩ := (opened ref i).mp found
      exact ⟨(tidy.listed ref).mpr ⟨i, found⟩, i, below, found⟩
    · exact (sublist_closeCells _ _ _ _).nodup tidy.nodup
    · exact tidy.distinct i ref ref' ((opened ref i).mp first).1 ((opened ref' i).mp second).1
    · unfold World.reads
      rw [cell]
      cases found : w.heap.cell ref with
      | closed => rfl
      | opened i =>
        by_cases below : i < start
        · simp only [Cell.closeAt, if_pos below]
          rfl
        · simp only [Cell.closeAt, if_neg below]

end

/-! ## Slots of frames -/

/-- In the code that the frame runs, the variable in slot `i` may have been captured by now. -/
def Heap.Anchors (h : Heap) (f : Frame) (i : Nat) : Prop :=
  f.closure < h.closures.size ∧ ∀ s c N, h.scripts[(h.closure f.closure).chunk.script]? = some s →
    s.chunks[(h.closure f.closure).chunk.index]? = some c → Finished s.chunks c N → N.Anchors f.ip (i - f.base)

/-- The slots belong to the frames, the innermost first, and variables in them may have been captured. -/
def Heap.Owns (h : Heap) : List Frame → Set Nat → Prop
  | [], S => S = ∅
  | f :: fs, S => (∀ i ∈ S, f.base ≤ i → h.Anchors f i) ∧ h.Owns fs {i ∈ S | i < f.base}

section

variable {h h' : Heap} {f : Frame} {fs gs : List Frame} {S T : Set Nat} {i : Nat}

theorem Heap.Anchors.wider (anchors : h.Anchors f i) (wider : h.Wider h') : h'.Anchors f i := by
  obtain ⟨inside, anchors⟩ := anchors
  refine ⟨wider.lt inside, fun s c N => ?_⟩
  rw [wider.closure inside, wider.scripts]
  exact anchors s c N

theorem Heap.Owns.wider (owns : h.Owns fs S) (wider : h.Wider h') : h'.Owns fs S := by
  induction fs generalizing S with
  | nil => exact owns
  | cons f fs ih => exact ⟨fun i mem above => (owns.1 i mem above).wider wider, ih owns.2⟩

theorem Heap.Owns.mono (owns : h.Owns fs S) (sub : T ⊆ S) : h.Owns fs T := by
  induction fs generalizing S T with
  | nil => exact Set.subset_eq_empty sub owns
  | cons f fs ih => exact ⟨fun i mem => owns.1 i (sub mem), ih owns.2 fun i mem => ⟨sub mem.1, mem.2⟩⟩

/-- Frames on top, in which nothing has been captured. -/
theorem Heap.Owns.above (owns : h.Owns fs S) (above : ∀ g ∈ gs, ∀ i ∈ S, i < g.base) : h.Owns (gs ++ fs) S := by
  induction gs generalizing S with
  | nil => exact owns
  | cons g gs ih =>
    rw [List.forall_mem_cons] at above
    refine ⟨fun i mem le => absurd (above.1 i mem) (Nat.not_lt.mpr le), ih (owns.mono fun i => And.left) ?_⟩
    exact fun g' mem i inside => above.2 g' mem i inside.1

end

/-! ## Worlds -/

/-- A function of the host that makes neither scripts nor closures and captures no variable, whatever it is given. -/
def NativeProgram.Gentle : NativeProgram → Prop
  | .finish _ | .raise _ => True
  | .count next => ∀ n, (next n).Gentle
  | .argument _ next => ∀ v, (next v).Gentle
  | .read next => ∀ h, (next h).Gentle
  | .allocate make next =>
    (∀ h : Heap, (make h).2.scripts = h.scripts ∧ (make h).2.closures = h.closures ∧ (make h).2.cells = h.cells) ∧
      ∀ v, (next v).Gentle
  | .push _ next => next.Gentle
  | .call _ _ next => ∀ r, (next r).Gentle
  | .interpret _ next => next.Gentle

def NativeBody.Gentle : NativeBody → Prop
  | .core _ => True
  | .program steps => steps.Gentle

/-- Captured variables that live on the stack are listed, and they lie below `k` in slots of frames that captured
them. -/
structure World.Moored (w : World) (k : Nat) : Prop where
  tidy : w.Tidy
  below : ∀ i ∈ w.heap.lodged, i < k
  owned : w.heap.Owns w.machine.frames.toList.reverse w.heap.lodged
  natives : ∀ ref, (w.native ref).Gentle

/-- Below `k` no variable has been captured since, and what is read through the cells in `R` is what was read. -/
structure World.Since (R : Set Nat) (k : Nat) (w w' : World) : Prop where
  tidy : w'.Tidy
  natives : w'.natives = w.natives
  opened : ∀ ref i, w'.heap.cell ref = .opened i → i < k → w.heap.cell ref = .opened i
  cells : w.heap.cells.size ≤ w'.heap.cells.size
  reads : ∀ ref ∈ R, ref < w.heap.cells.size → w'.reads ref = w.reads ref
  heap : w.heap.Wider w'.heap
  floor : k ≤ w'.machine.stack.size

/-- No variable has been captured that still lives on the stack, and frames have only been put on top. -/
structure World.Minds (R : Set Nat) (k : Nat) (w w' : World) : Prop extends w.Since R k w' where
  below : ∀ i ∈ w'.heap.lodged, i < k
  frames : ∃ gs, w'.machine.frames.toList = w.machine.frames.toList ++ gs ∧ ∀ g ∈ gs, k ≤ g.base

theorem Heap.Wider.refl (h : Heap) : h.Wider h := ⟨rfl, fun _ _ => rfl⟩

theorem Heap.Wider.trans {h h' h'' : Heap} (first : h.Wider h') (second : h'.Wider h'') : h.Wider h'' where
  scripts := second.scripts.trans first.scripts
  closures r inside := (second.closures r (first.lt inside)).trans (first.closures r inside)

section

variable {R : Set Nat} {k j : Nat} {w w' w'' : World}

theorem World.Since.refl (tidy : w.Tidy) (floor : k ≤ w.machine.stack.size) : w.Since R k w where
  tidy
  natives := rfl
  opened _ _ opened _ := opened
  cells := Nat.le_refl _
  reads _ _ _ := rfl
  heap := .refl _
  floor

theorem World.Since.trans (h : w.Since R k w') (h' : w'.Since R j w'') (le : k ≤ j) : w.Since R k w'' where
  tidy := h'.tidy
  natives := h'.natives.trans h.natives
  opened ref i opened below := h.opened ref i (h'.opened ref i opened (Nat.lt_of_lt_of_le below le)) below
  cells := Nat.le_trans h.cells h'.cells
  reads ref mem inside := (h'.reads ref mem (Nat.lt_of_lt_of_le inside h.cells)).trans (h.reads ref mem inside)
  heap := h.heap.trans h'.heap
  floor := Nat.le_trans le h'.floor

theorem World.Since.mono (h : w.Since R k w') (le : j ≤ k) : w.Since R j w' :=
  { h with
    opened := fun ref i opened below => h.opened ref i opened (Nat.lt_of_lt_of_le below le)
    floor := Nat.le_trans le h.floor }

theorem World.Minds.lodged (h : w.Minds R k w') : w'.heap.lodged ⊆ w.heap.lodged := by
  rintro i ⟨ref, opened⟩
  exact ⟨ref, h.opened ref i opened (h.below i ⟨ref, opened⟩)⟩

theorem World.Moored.refl (h : w.Moored k) (floor : k ≤ w.machine.stack.size) : w.Minds R k w where
  toSince := .refl h.tidy floor
  below := h.below
  frames := ⟨[], by simp, nofun⟩

theorem World.Minds.trans (h : w.Minds R k w') (h' : w'.Minds R k w'') : w.Minds R k w'' where
  toSince := h.toSince.trans h'.toSince (Nat.le_refl k)
  below := h'.below
  frames := by
    obtain ⟨gs, frames, above⟩ := h.frames
    obtain ⟨gs', frames', above'⟩ := h'.frames
    refine ⟨gs ++ gs', by rw [frames', frames, List.append_assoc], fun g mem => ?_⟩
    exact (List.mem_append.mp mem).elim (above g) (above' g)

/-- With less room below, if captured variables lie lower. -/
theorem World.Minds.mono (h : w.Minds R k w') (le : j ≤ k) (below : ∀ i ∈ w.heap.lodged, i < j) : w.Minds R j w' where
  toSince := h.toSince.mono le
  below i mem := below i (h.lodged mem)
  frames := by
    obtain ⟨gs, frames, above⟩ := h.frames
    exact ⟨gs, frames, fun g mem => Nat.le_trans le (above g mem)⟩

theorem World.Moored.mono (h : w.Moored k) (le : k ≤ j) : w.Moored j :=
  { h with below := fun i mem => Nat.lt_of_lt_of_le (h.below i mem) le }

theorem World.gentle_of (natives : w'.natives = w.natives) (gentle : ∀ ref, (w.native ref).Gentle) (ref : Nat) :
    (w'.native ref).Gentle := by
  unfold World.native
  rw [natives]
  exact gentle ref

/-- What lies below belongs to the frames that were there, and nothing to those on top. -/
theorem World.Minds.moored (h : w.Minds R k w')
    (owned : w.heap.Owns w.machine.frames.toList.reverse {i ∈ w.heap.lodged | i < k})
    (gentle : ∀ ref, (w.native ref).Gentle) : w'.Moored k where
  tidy := h.tidy
  below := h.below
  owned := by
    obtain ⟨gs, frames, above⟩ := h.frames
    rw [frames, List.reverse_append]
    refine ((owned.wider h.heap).mono fun i mem => ⟨h.lodged mem, h.below i mem⟩).above fun g mem i inside => ?_
    exact Nat.lt_of_lt_of_le (h.below i inside) (above g (List.mem_reverse.mp mem))
  natives := w.gentle_of h.natives gentle

theorem World.Moored.minds (h : w.Moored k) (minds : w.Minds R k w') : w'.Moored k :=
  minds.moored (h.owned.mono fun _ => And.left) h.natives

end

end ScriptEngine
