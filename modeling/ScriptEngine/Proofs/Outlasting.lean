import ScriptEngine.Proofs.Delivering
import ScriptEngine.Proofs.Lodging

/-!
# Captured variables outlast their slots

What an instruction keeps, a loop of instructions keeps, and then a host call does, whatever
is carried out in it: the frames that were put on top are gone, or are cut off, with the
variables in them closed first. So captured variables are in order wherever execution comes,
in calls at any depth, from the first instruction of a script to its last one and across a
suspension, and what is read through a cell is what has been assigned to its variable.

Two watches are compared, of which one also stops where captured variables are not in order:
it stops nowhere else.
-/
namespace ScriptEngine

open Run

section

variable {R : Set Nat} {L F : Array Frame} {gs : List Frame} {b k fuel : Nat} {w w' w'' : World}
  {P : World → Prop}

/-- A watch under which execution stops where a world is not of some kind or captured variables are not in order. -/
noncomputable def Watch.moored (P : World → Prop) : Watch := .only fun w => P w ∧ w.Moored w.machine.stack.size

theorem Watch.moored_of (known : P w) (moored : w.Moored w.machine.stack.size) (stop : Nat) (x : Run Control) :
    (Watch.moored P).instruction stop x w = x w := Watch.only_of (And.intro known moored) stop x

theorem Watch.moored_of_not (unknown : ¬P w) (stop : Nat) (x : Run Control) :
    (Watch.moored P).instruction stop x w = .error .outOfFuel w := Watch.only_of_not (fun both => unknown both.1) stop x

/-! ## Loops -/

theorem World.Keeps.trans (h : w.Keeps R F b w') (h' : w'.Keeps R F b w'') : w.Keeps R F b w'' :=
  ⟨h.toSince.trans h'.toSince (Nat.le_refl b), h'.frames⟩

/-- What is kept below a frame is kept below those under it. -/
theorem World.Keeps.lower (h : w.Keeps R L k w') (below : L.toList = F.toList ++ gs) (bases : ∀ g ∈ gs, b ≤ g.base)
    (le : b ≤ k) : w.Keeps R F b w' := by
  obtain ⟨hs, frames, above⟩ := h.frames
  refine ⟨h.toSince.mono le, gs ++ hs, by rw [frames, below, List.append_assoc], fun g mem => ?_⟩
  exact (List.mem_append.mp mem).elim (bases g) fun mem => Nat.le_trans le (above g mem)

/-- A variable that was captured before still belongs to its frame, if that is there. -/
theorem World.Houses.lower (houses : w'.Houses L k) (before : w.Houses F b) (keeps : w.Keeps R L k w')
    {f : Frame} (frames : w.machine.frames = L.push f) (below : L.toList = F.toList ++ gs) (base : f.base = k) :
    w'.Houses F b := by
  have size : F.size ≤ L.size := size_of_split below ▸ Nat.le_add_right _ _
  obtain ⟨hs, frames', -⟩ := keeps.frames
  have drop : w'.machine.frames.toList.drop F.size = gs ++ hs := by
    rw [frames', below, List.append_assoc, ← Array.length_toList, List.drop_left]
  have above : w'.machine.frames.toList.drop L.size = hs := by
    rw [frames', ← Array.length_toList, List.drop_left]
  intro j lodged le
  rw [drop]
  by_cases inside : k ≤ j
  · obtain ⟨g, mem, base⟩ := houses j lodged inside
    exact ⟨g, List.mem_append_right _ (above ▸ mem), base⟩
  · obtain ⟨ref, opened⟩ := lodged
    obtain ⟨g, mem, le⟩ := before j ⟨ref, keeps.opened ref j opened (Nat.lt_of_not_le inside)⟩ le
    rw [frames, Array.toList_push, below, List.append_assoc, ← Array.length_toList, List.drop_left] at mem
    rcases List.mem_append.mp mem with mem | mem
    · exact ⟨g, List.mem_append_left _ mem, le⟩
    · obtain rfl := List.mem_singleton.mp mem
      omega

theorem Run.Keeping.lower {β : Type} {Q : β → World → Prop} {r : EStateM.Result Halt World β} {f : Frame}
    (h : Keeping R L f.base w Q r) (houses : w.Houses F b) (frames : w.machine.frames = L.push f)
    (below : L.toList = F.toList ++ gs) (bases : ∀ g ∈ gs, b ≤ g.base) (base : b ≤ f.base) : Keeping R F b w Q r := by
  cases r with
  | ok a w' =>
    obtain ⟨keeps, moored, houses', holds⟩ := h
    exact ⟨keeps.lower below bases base, moored, houses'.lower houses keeps frames below rfl, holds⟩
  | error e w' =>
    cases e with
    | failed => exact World.Keeps.lower h below bases base
    | outOfFuel => trivial

theorem World.Keeps.keeping {β : Type} {Q : β → World → Prop} {r : EStateM.Result Halt World β}
    (keeps : w.Keeps R F b w') (h : Keeping R F b w' Q r) : Keeping R F b w Q r := by
  cases r with
  | ok a w'' => exact ⟨keeps.trans h.1, h.2⟩
  | error e w'' =>
    cases e with
    | failed => exact keeps.trans h
    | outOfFuel => trivial

/-- From a world in which captured variables are in order a loop goes on through such worlds. -/
theorem keeps_execute (stands : ∀ u, P u → u.Stands) (apart : ∀ u, P u → ∀ ref ∈ R, ¬u.Assigns ref)
    (mindful : ∀ k < fuel, Mindful R ((Watch.only P).again k) ((Watch.moored P).again k))
    (moored : w.Moored w.machine.stack.size) (houses : w.Houses F b) (frames : w.machine.frames.toList = F.toList ++ gs)
    (some : gs ≠ []) (bases : ∀ g ∈ gs, b ≤ g.base) :
    (Watch.moored P).execute fuel F.size w = (Watch.only P).execute fuel F.size w ∧
      Keeping R F b w (fun how w' => how = .returned → w'.machine.frames.size ≤ F.size)
        ((Watch.only P).execute fuel F.size w) := by
  induction fuel generalizing w gs with
  | zero => exact ⟨rfl, trivial⟩
  | succ fuel ih =>
    rw [Watch.execute_succ, Watch.execute_succ]
    by_cases known : P w
    · rw [Watch.moored_of known moored, Watch.only_of known]
      obtain ⟨L, f, s, c, N, i, faces, next⟩ := (stands w known).faces
      -- the innermost frame is one of those above `F`
      obtain ⟨fs, g, rfl⟩ : ∃ fs g, gs = fs ++ [g] := ⟨_, _, (List.dropLast_append_getLast some).symm⟩
      have split := frames
      rw [faces.frames, Array.toList_push, ← List.append_assoc] at split
      obtain ⟨below, same⟩ := List.append_inj' split rfl
      obtain rfl := (List.cons.inj same).1
      obtain ⟨same, stepped⟩ := faces.keeps next moored (mindful fuel (Nat.lt_succ_self _)) (apart w known)
        (size_of_split below ▸ Nat.le_add_right _ _ : F.size ≤ L.size)
      have keeping := stepped.lower houses faces.frames below
        (fun g mem => bases g (List.mem_append_left _ mem)) (bases f (List.mem_append_right _ (.head _)))
      rw [same]
      cases ran : cycle ((Watch.only P).again fuel) F.size w with
      | error e w' =>
        rw [ran] at keeping
        cases e <;> exact ⟨rfl, keeping⟩
      | ok control w' =>
        rw [ran] at keeping
        obtain ⟨keeps, moored', houses', goesOn, returns⟩ := keeping
        cases control with
        | exit how => exact ⟨rfl, keeps, moored', houses', fun left => returns (congrArg Control.exit left)⟩
        | next =>
          obtain ⟨hs, frames', above⟩ := keeps.frames
          obtain ⟨same', further⟩ := ih (fun k hk => mindful k (Nat.lt_succ_of_lt hk)) moored' houses' frames'
            (ne_nil_of_split frames' (goesOn rfl)) above
          exact ⟨same', keeps.keeping further⟩
    · rw [Watch.moored_of_not known, Watch.only_of_not known]
      exact ⟨rfl, trivial⟩

/-! ## Host calls -/

variable {callee : Value} {args : List Value}

theorem minds_begun (moored : w.Moored k) (floor : k ≤ w.machine.stack.size) :
    w.Minds R w.machine.stack.size (Pausing.begun callee args w) := by
  have begins : Run.Spares w.machine.stack.size 0 1 (beginCall callee args) :=
    (Run.Spares.looks looks_stackSize).bind fun _ => (spares_push _).bind fun _ => (spares_pushAll _).bind fun _ =>
      .modify (fun _ => rfl) (fun _ => rfl) fun _ => rfl
  have moored' := moored.mono floor
  exact begins.minds moored'.tidy moored'.below (Nat.le_refl _)

/-- What comes of the body of a host call: its frames are gone, and all variables in them are closed. -/
def Run.Outlasted (R : Set Nat) (w : World) : EStateM.Result Halt World Unit → Prop
  | .ok _ w' => w.Minds R w.machine.stack.size w' ∧ w'.machine.frames = w.machine.frames
  | .error (.failed _) w' => w.Keeps R w.machine.frames w.machine.stack.size w'
  | .error .outOfFuel _ => True

/-- What has come of the frames that a call put on top. -/
theorem outlasted_untilReturned {a a' : Run Exit} (minds : w.Minds R w.machine.stack.size w')
    (run : w.machine.frames.size < w'.machine.frames.size → a' w' = a w' ∧
      Keeping R w.machine.frames w.machine.stack.size w'
        (fun how u => how = .returned → u.machine.frames.size ≤ w.machine.frames.size) (a w')) :
    untilReturned a' w.machine.frames.size w' = untilReturned a w.machine.frames.size w' ∧
      Outlasted R w (untilReturned a w.machine.frames.size w') := by
  obtain ⟨gs, frames, -⟩ := minds.frames
  rw [Pausing.untilReturned_eq, Pausing.untilReturned_eq]
  split
  · next more =>
    obtain ⟨same, keeping⟩ := run more
    rw [same]
    refine ⟨rfl, ?_⟩
    have since := minds.toSince
    cases ran : a w' with
    | error e u =>
      rw [ran] at keeping
      cases e with
      | failed => exact ⟨since.trans keeping.toSince (Nat.le_refl _), keeping.frames⟩
      | outOfFuel => trivial
    | ok how u =>
      rw [ran] at keeping
      obtain ⟨keeps, moored, houses, returns⟩ := keeping
      cases how with
      | yielded => exact ⟨since.trans keeps.toSince (Nat.le_refl _), keeps.frames⟩
      | returned =>
        obtain ⟨hs, split, -⟩ := keeps.frames
        have frames' := eq_of_split split (returns rfl)
        refine ⟨⟨since.trans keeps.toSince (Nat.le_refl _), fun j lodged => ?_,
          [], by rw [frames', List.append_nil], nofun⟩, frames'⟩
        by_contra above
        obtain ⟨g, mem, -⟩ := houses j lodged (Nat.le_of_not_lt above)
        rw [frames', ← Array.length_toList, List.drop_length] at mem
        cases mem
  · next done =>
    exact ⟨rfl, minds, eq_of_split frames (Nat.le_of_not_lt done)⟩

/-- A host call that has come to its end drops nothing but what lies above its start. -/
theorem outlasted_ok (moored : w.Moored k) (floor : k ≤ w.machine.stack.size) {w' : World}
    (outlasted : Outlasted R w (.ok () w')) :
    w.Minds R k { w.ended w' with machine.stack := w'.machine.stack.shrink w.machine.stack.size } := by
  obtain ⟨minds, -⟩ := outlasted
  have cut : w'.Untouched w.machine.stack.size
      { w.ended w' with machine.stack := w'.machine.stack.shrink w.machine.stack.size } := by
    refine ⟨rfl, rfl, rfl, rfl, rfl, rfl, fun i below => shrink_below below, ?_⟩
    change _ ≤ (w'.machine.stack.shrink _).size
    rw [Array.size_shrink]
    exact Nat.le_min.mpr ⟨Nat.le_refl _, minds.floor⟩
  exact (minds.trans (cut.minds minds.tidy minds.below)).mono floor moored.below

/-- One that has failed leaves the frames as they were, and no variable captured that was put on the stack for it. -/
theorem outlasted_error (moored : w.Moored k) (floor : k ≤ w.machine.stack.size) {f : Failure} {w' : World}
    (outlasted : Outlasted R w (.error (.failed f) w')) :
    ∃ u, Pausing.conclude w.machine.stack.size w.machine.frames.size w.machine.marks.length (.error f) w' =
      .error (.failed f) u ∧ w.Minds R k u := by
  have keeps : w.Keeps R w.machine.frames w.machine.stack.size w' := outlasted
  have since : w.Since R w.machine.stack.size (w.ended w') :=
    ⟨keeps.tidy.same rfl rfl, keeps.natives, keeps.opened, keeps.cells, keeps.reads, keeps.heap, keeps.floor⟩
  obtain ⟨u, closed, closes⟩ := since.tidy.closeFrom w.machine.stack.size
  have cut := (spares_truncate (k := w.machine.stack.size) (r := 0) (Nat.le_refl _)).closing (R := R)
    since.tidy since.floor
  rw [bind_of_ok closed] at cut
  change (w.ended w').Minds R _ { u with machine.stack := u.machine.stack.shrink w.machine.stack.size } at cut
  have whole := since.trans cut.toSince (Nat.le_refl _)
  have gone : u.machine.frames.shrink w.machine.frames.size = w.machine.frames := by
    obtain ⟨gs, frames, -⟩ := keeps.frames
    have same := congrArg Machine.frames closes.machine
    change u.machine.frames = w'.machine.frames at same
    apply Array.toList_inj.mp
    rw [Array.toList_shrink, same, frames, ← Array.length_toList, List.take_left]
  refine ⟨_, conclude_error closed, ?_⟩
  refine ⟨⟨whole.tidy.same rfl rfl, whole.natives, fun ref i opened below => ?_, whole.cells, whole.reads,
    whole.heap, ?_⟩,
    fun i ⟨ref, opened⟩ => ?_, [], by rw [gone, List.append_nil], nofun⟩
  · exact whole.opened ref i opened (Nat.lt_of_lt_of_le below floor)
  · exact Nat.le_trans floor whole.floor
  · exact moored.below i ⟨ref, whole.opened ref i opened (cut.below i ⟨ref, opened⟩)⟩

/-- A host call around a body that is outlasted minds captured variables. -/
theorem outlasted_hostCall {a a' : Nat → Run Unit} {r : Nat} (moored : w.Moored k) (room : k + r ≤ w.machine.stack.size)
    (body : a' w.machine.frames.size (Pausing.begun callee args w) =
        a w.machine.frames.size (Pausing.begun callee args w) ∧
      Outlasted R w (a w.machine.frames.size (Pausing.begun callee args w))) :
    hostCall callee args a' w = hostCall callee args a w ∧ Minded R k r w (hostCall callee args a w) := by
  have floor : k ≤ w.machine.stack.size := Nat.le_trans (Nat.le_add_right k r) room
  obtain ⟨same, outlasted⟩ := body
  rw [Pausing.hostCall_eq, Pausing.hostCall_eq]
  unfold EStateM.bind attempt
  rw [same]
  refine ⟨rfl, ?_⟩
  generalize a w.machine.frames.size (Pausing.begun callee args w) = r at outlasted ⊢
  match r, outlasted with
  | .ok _ w', outlasted =>
    refine ⟨outlasted_ok moored floor outlasted, ?_⟩
    change _ ≤ (w'.machine.stack.shrink w.machine.stack.size).size
    rw [Array.size_shrink, Nat.min_eq_left outlasted.1.floor]
    exact room
  | .error (.failed f) w', outlasted =>
    obtain ⟨u, concluded, minds⟩ := outlasted_error moored floor outlasted
    dsimp only
    rw [concluded]
    exact minds
  | .error .outOfFuel w', _ => trivial

theorem Watch.call_only (P : World → Prop) (fuel : Nat) (callee : Value) (args : List Value) :
    ((Watch.only P).again (fuel + 1)).call callee args = Run.hostCall callee args (fun depth => do
      callTop ((Watch.only P).again fuel) args.length
      untilReturned ((Watch.only P).execute fuel depth) depth) := rfl

/-- However many steps they are given, the ways back into the machine mind captured variables. -/
theorem mindful_again (stands : ∀ u, P u → u.Stands) (apart : ∀ u, P u → ∀ ref ∈ R, ¬u.Assigns ref) (fuel : Nat) :
    Mindful R ((Watch.only P).again fuel) ((Watch.moored P).again fuel) := by
  induction fuel using Nat.strongRecOn with
  | ind fuel ih =>
    cases fuel with
    | zero => exact ⟨fun _ _ _ _ _ _ _ _ => ⟨rfl, trivial⟩, fun _ _ _ _ _ _ _ => ⟨rfl, trivial⟩⟩
    | succ fuel =>
      refine ⟨fun k r callee args w moored inside room => ?_, fun k r s w moored inside room => ?_⟩
      · have floor : k ≤ w.machine.stack.size := Nat.le_trans (Nat.le_add_right k r) room
        have begun : w.Minds R w.machine.stack.size (Pausing.begun callee args w) := minds_begun moored floor
        obtain ⟨same, called⟩ := (ih fuel (Nat.lt_succ_self _)).callTop (k := w.machine.stack.size) args.length
          (Pausing.begun callee args w) ((moored.mono floor).minds begun) inside (by rw [size_begun]; omega)
        rw [Watch.call_only, Watch.moored, Watch.call_only]
        refine outlasted_hostCall moored room ?_
        rw [bind_eq, bind_eq]
        rw [Watch.moored] at same
        rw [same]
        cases ran : callTop ((Watch.only P).again fuel) args.length (Pausing.begun callee args w) with
        | error e w₁ =>
          rw [ran] at called
          cases e with
          | failed => exact ⟨rfl, (begun.trans called).toSince, (begun.trans called).frames⟩
          | outOfFuel => exact ⟨rfl, trivial⟩
        | ok _ w₁ =>
          rw [ran] at called
          obtain ⟨minds, -⟩ := called
          have whole := begun.trans minds
          refine outlasted_untilReturned whole fun more => ?_
          obtain ⟨gs, frames, above⟩ := whole.frames
          have some : gs ≠ [] := ne_nil_of_split frames more
          exact keeps_execute stands apart (fun k hk => ih k (Nat.lt_succ_of_lt hk))
            (((moored.mono floor).minds whole).mono whole.floor)
            (fun j lodged le => absurd (whole.below j lodged) (Nat.not_lt.mpr le)) frames some above
      · rw [interpret_refused _ inside, interpret_refused _ inside]
        exact ⟨rfl, moored.refl (Nat.le_trans (Nat.le_add_right k r) room)⟩

end

/-! ## Runs of scripts -/

open Pausing (rested vacated restored queueOutcome outermost)

/-- Nothing runs, and no captured variable lives on the stack. -/
structure World.Ashore (w : World) : Prop where
  frames : w.machine.frames = #[]
  openCells : w.machine.openCells = []
  closed : ∀ ref j, w.heap.cell ref ≠ .opened j
  natives : ∀ ref, (w.native ref).Gentle

/-- How a run of scripts ends: with all captured variables closed, or with those of the suspended script in order. -/
def Harbored : EStateM.Result Halt World Outcome → Prop
  | .ok (.completed _) w => w.Ashore
  | .ok (.yielded s) w => (restored s w).Moored s.stack.size
  | .error _ _ => True

/-- How the scripts in the queue end. -/
def QueueHarbored : EStateM.Result Halt World (Option Suspension) → Prop
  | .ok none w => w.Ashore
  | .ok (some s) w => (restored s w).Moored s.stack.size
  | .error _ _ => True

section

variable {w : World} {h : Heap} {fs : List Frame} {S : Set Nat} {j k : Nat} {P : World → Prop} {s : Script}

theorem Heap.Owns.base_le (owns : h.Owns fs S) (mem : j ∈ S) : ∃ g ∈ fs, g.base ≤ j := by
  induction fs generalizing S with
  | nil => exact absurd mem (owns ▸ Set.notMem_empty j)
  | cons f fs ih =>
    by_cases above : f.base ≤ j
    · exact ⟨f, .head _, above⟩
    · obtain ⟨g, mem', base⟩ := ih owns.2 ⟨mem, Nat.lt_of_not_le above⟩
      exact ⟨g, .tail _ mem', base⟩

theorem Heap.owns_of_empty (empty : S = ∅) : h.Owns fs S := by
  induction fs generalizing S with
  | nil => exact empty
  | cons f fs ih =>
    subst empty
    exact ⟨fun j mem => absurd mem (Set.notMem_empty j), ih (Set.sep_empty _)⟩

theorem World.Moored.houses (moored : w.Moored k) : w.Houses #[] 0 := by
  intro j lodged _
  obtain ⟨g, mem, base⟩ := moored.owned.base_le lodged
  exact ⟨g, List.mem_reverse.mp mem, base⟩

/-- Where there are no frames, no captured variable lives on the stack. -/
theorem World.Moored.none_lodged (moored : w.Moored k) (frames : w.machine.frames = #[]) : w.heap.lodged = ∅ := by
  have owned := moored.owned
  rwa [frames] at owned

theorem World.Moored.ashore (moored : w.Moored k) (frames : w.machine.frames = #[]) : (rested w).Ashore where
  frames := rfl
  openCells := rfl
  closed ref j opened := absurd ⟨ref, opened⟩ (moored.none_lodged frames ▸ Set.notMem_empty j)
  natives := moored.natives

theorem World.Ashore.none_lodged (ashore : w.Ashore) : w.heap.lodged = ∅ :=
  Set.eq_empty_of_forall_notMem fun j ⟨ref, opened⟩ => ashore.closed ref j opened

theorem World.Ashore.tidy (ashore : w.Ashore) : w.Tidy where
  listed ref := by
    rw [ashore.openCells]
    exact ⟨nofun, fun ⟨j, opened⟩ => absurd opened (ashore.closed ref j)⟩
  nodup := ashore.openCells ▸ .nil
  distinct j ref _ opened _ := absurd opened (ashore.closed ref j)

/-- A script that is begun. -/
theorem World.Ashore.entered (ashore : w.Ashore) :
    World.Moored { Pausing.loaded s w with machine.frames := w.machine.frames.push (outermost s w) }
      (Pausing.loaded s w).machine.stack.size where
  tidy := ashore.tidy.same rfl rfl
  below j := fun ⟨ref, opened⟩ => absurd opened (ashore.closed ref j)
  owned := Heap.owns_of_empty ashore.none_lodged
  natives := ashore.natives

variable (stands : ∀ u, P u → u.Stands) (fuel : Nat)

include stands in
theorem harbored_continueTop
    (queue : ∀ w, w.Ashore → (Watch.moored P).runQueue fuel w = (Watch.only P).runQueue fuel w ∧
      QueueHarbored ((Watch.only P).runQueue fuel w))
    (moored : w.Moored w.machine.stack.size) (inside : w.machine.frames ≠ #[]) :
    (Watch.moored P).continueTop (fuel + 1) w = (Watch.only P).continueTop (fuel + 1) w ∧
      Harbored ((Watch.only P).continueTop (fuel + 1) w) := by
  have apart (u : World) (_ : P u) (ref : Nat) (mem : ref ∈ (∅ : Set Nat)) : ¬u.Assigns ref :=
    absurd mem (Set.notMem_empty ref)
  obtain ⟨same, keeping⟩ := keeps_execute (F := #[]) (b := 0) stands apart
    (fun k (_ : k < fuel) => mindful_again stands apart k) moored moored.houses (List.nil_append _).symm
    (fun none => inside (Array.toList_inj.mp none)) fun _ _ => Nat.zero_le _
  change (Watch.moored P).execute fuel 0 w = (Watch.only P).execute fuel 0 w at same
  change Keeping ∅ #[] 0 w _ ((Watch.only P).execute fuel 0 w) at keeping
  rw [Watch.continueTop_succ, Watch.continueTop_succ, same]
  cases ran : (Watch.only P).execute fuel 0 w with
  | error e w₁ => cases e <;> exact ⟨rfl, trivial⟩
  | ok how w₁ =>
    rw [ran] at keeping
    obtain ⟨-, moored₁, -, returns⟩ := keeping
    cases how with
    | yielded => exact ⟨rfl, moored₁⟩
    | returned =>
      have frames : w₁.machine.frames = #[] := Array.eq_empty_of_size_eq_zero (Nat.le_zero.mp (returns rfl))
      obtain ⟨same', harbored⟩ := queue (rested w₁) (moored₁.ashore frames)
      dsimp only
      rw [same']
      refine ⟨rfl, ?_⟩
      generalize (Watch.only P).runQueue fuel (rested w₁) = r at harbored
      cases r with
      | error e w₂ => trivial
      | ok s w₂ => cases s <;> exact harbored

include stands in
/-- Wherever a run of scripts comes that stops at once where frames do not stand, captured variables are in order. -/
theorem harbored_watches :
    (∀ w, w.Moored w.machine.stack.size → w.machine.frames ≠ #[] →
      (Watch.moored P).continueTop fuel w = (Watch.only P).continueTop fuel w ∧
        Harbored ((Watch.only P).continueTop fuel w)) ∧
    (∀ w s, w.Ashore → (Watch.moored P).interpret fuel s w = (Watch.only P).interpret fuel s w ∧
      Harbored ((Watch.only P).interpret fuel s w)) ∧
    ∀ w, w.Ashore → (Watch.moored P).runQueue fuel w = (Watch.only P).runQueue fuel w ∧
      QueueHarbored ((Watch.only P).runQueue fuel w) := by
  induction fuel with
  | zero => exact ⟨fun _ _ _ => ⟨rfl, trivial⟩, fun _ _ _ => ⟨rfl, trivial⟩, fun _ _ => ⟨rfl, trivial⟩⟩
  | succ fuel ih =>
    obtain ⟨continueTop, interpret, runQueue⟩ := ih
    refine ⟨fun w => harbored_continueTop stands fuel runQueue, fun w s ashore => ?_, fun w ashore => ?_⟩
    · rw [Watch.interpret_succ, Watch.interpret_succ, Pausing.enter_eq, if_neg (by simp [ashore.frames])]
      by_cases room : w.machine.frames.size < w.machine.settings.maxFrames
      · rw [if_pos room]
        refine continueTop _ ashore.entered ?_
        intro none
        have size := congrArg Array.size none
        rw [Array.size_push] at size
        cases size
      · rw [if_neg room]
        exact ⟨rfl, trivial⟩
    · rw [Watch.runQueue_succ, Watch.runQueue_succ]
      cases waiting : w.machine.queue with
      | nil => exact ⟨rfl, ashore⟩
      | cons s others =>
        dsimp only
        have ashore' : World.Ashore { w with machine.queue := others } :=
          ⟨ashore.frames, ashore.openCells, ashore.closed, ashore.natives⟩
        obtain ⟨same, harbored⟩ := interpret _ s ashore'
        rw [same]
        generalize (Watch.only P).interpret fuel s { w with machine.queue := others } = r at harbored
        cases r with
        | error e w₁ => exact ⟨rfl, trivial⟩
        | ok outcome w₁ =>
          cases outcome with
          | yielded suspension => exact ⟨rfl, harbored⟩
          | completed v => exact runQueue w₁ harbored

end

/-! ## Single steps -/

section

variable {w : World} {R : Set Nat} {x y : Reentry} {i : Instruction} {stop ref : Nat}

/-- A step does the same with either way back into the machine, whatever its loop stops at. -/
theorem cycle_alike (stands : w.Stands) (sturdy : Sturdy x y) (stop : Nat) : cycle y stop w = cycle x stop w := by
  obtain ⟨-, -, -, -, -, i, -, next⟩ := stands.faces
  by_cases out : i.isWayOut
  · rw [cycle_eq next, cycle_eq next]
    cases i with
    | ret | yield => rfl
    | _ => cases out
  obtain ⟨F, f, fs, b, ms, frames, upright⟩ := stands.upright
  let G : Footing := ⟨w, 0, F.toList, []⟩
  have at_ : G.At (piled F (f :: fs)) w.machine.marks w.closures w := by
    refine ⟨⟨stands.sound, Nat.zero_le _, nofun, nofun, rfl, fun _ _ => rfl, ?_, List.nil_suffix⟩, frames, rfl, rfl⟩
    rw [frames, toList_piled]
    exact List.prefix_append _ _
  obtain ⟨same, -⟩ := sturdy.sure_cycle (G := G) at_ (Nat.zero_le b) rfl List.nil_suffix upright
  have ordinary : i.isWayOut = false := by simpa using out
  rw [cycle_eq next, cycle_eq next, step_ordinary stop ordinary, step_ordinary stop ordinary]
  rwa [cycle_eq next, cycle_eq next, step_ordinary F.size ordinary, step_ordinary F.size ordinary] at same

/-- A step that comes to its end leaves what is read through cells that it does not assign to. -/
theorem reads_cycle (stands : w.Stands) (moored : w.Moored w.machine.stack.size) (inside : stop < w.machine.frames.size)
    (mindful : Mindful R x y) (apart : ∀ ref ∈ R, ¬w.Assigns ref) (finished : Run.Finished (cycle x stop w))
    (mem : ref ∈ R)
    (old : ref < w.heap.cells.size) : (left (cycle x stop w)).reads ref = w.reads ref := by
  obtain ⟨L, f, s, c, N, i, faces, next⟩ := stands.faces
  rw [faces.frames, Array.size_push] at inside
  obtain ⟨-, keeping⟩ := faces.keeps next moored mindful apart (Nat.le_of_lt_succ inside)
  cases ran : cycle x stop w with
  | ok c w' =>
    rw [ran] at keeping
    exact keeping.1.reads ref mem old
  | error e w' =>
    rw [ran] at keeping finished
    cases e with
    | failed =>
      have keeps : w.Keeps R L f.base w' := keeping
      exact keeps.reads ref mem old
    | outOfFuel => exact finished.elim

/-- A machine that is stopped at times does what the machine itself does, where a step comes to its end. -/
theorem cycle_follows (next : w.next? = some i) (follows : Run.Follows x y) (inside : stop < w.machine.frames.size)
    (finished : Run.Finished (cycle x stop w)) : cycle y stop w = cycle x stop w := by
  rw [cycle_eq next] at finished
  rw [cycle_eq next, cycle_eq next]
  by_cases yields : i = .yield
  · subst yields
    rfl
  have done : Run.Finished (step x stop i w.fetched) := by
    unfold located at finished
    cases ran : step x stop i w.fetched with
    | ok => trivial
    | error e =>
      rw [ran] at finished
      cases e <;> exact finished
  have same := (Pausing.advances_step follows yields (w.size_fetched ▸ inside) done).1
  unfold located
  rw [same]

/-- Nothing is done by a way back into the machine that is not taken. -/
theorem mindful_none (R : Set Nat) : Mindful R (Run.again 0) (Run.again 0) :=
  ⟨fun _ _ _ _ _ _ _ _ => ⟨rfl, trivial⟩, fun _ _ _ _ _ _ _ => ⟨rfl, trivial⟩⟩

theorem cycle_of_not_calls (next : w.next? = some i) (calls : i.calls = false) (x y : Reentry) :
    cycle x stop w = cycle y stop w := by
  rw [cycle_eq next, cycle_eq next]
  cases i with
  | call | invoke | superInvoke | testSet | testCase => cases calls
  | _ => rfl

end

/-- Captured variables are in order wherever a compiled script comes that is begun on a machine at rest, in calls
at any depth, until it has ended or is suspended, and when it goes on from there. Cells that refer to the stack are
listed once, each for a slot of its own that is there. A step changes what is read through a cell only if it assigns
to the variable, or an instruction does that is carried out by a function of the host in the midst of the step. -/
theorem captured_variables_outlast (fuel : Nat) :
    (∀ w s, w.Idles → w.Ashore → s.Compiled →
      (Watch.only fun u => (u.Fits ∧ u.Stands) ∧ u.Moored u.machine.stack.size).interpret fuel s w =
          (Watch.only World.Fits).interpret fuel s w ∧
        Ended ((Watch.only World.Fits).interpret fuel s w) ∧ Harbored ((Watch.only World.Fits).interpret fuel s w)) ∧
    (∀ w s, w.Idles → s.Stands w.heap → (Pausing.restored s w).Moored s.stack.size →
      (Watch.only fun u => (u.Fits ∧ u.Stands) ∧ u.Moored u.machine.stack.size).resume fuel s w =
          (Watch.only World.Fits).resume fuel s w ∧
        Ended ((Watch.only World.Fits).resume fuel s w) ∧ Harbored ((Watch.only World.Fits).resume fuel s w)) ∧
    (∀ w : World, w.Moored w.machine.stack.size → w.machine.openCells.Nodup ∧
      (∀ ref, ref ∈ w.machine.openCells ↔ ∃ j, w.heap.cell ref = .opened j) ∧
      (∀ ref j, w.heap.cell ref = .opened j → j < w.machine.stack.size) ∧
      ∀ j ref ref', w.heap.cell ref = .opened j → w.heap.cell ref' = .opened j → ref = ref') ∧
    ∀ (w : World) (stop ref : Nat), w.Stands → w.Moored w.machine.stack.size → stop < w.machine.frames.size →
      ref < w.heap.cells.size → ¬w.Assigns ref →
      (∀ again i, w.next? = some i → i.calls = false → Run.Finished (cycle again stop w) →
        (left (cycle again stop w)).reads ref = w.reads ref) ∧
      (Run.Finished (cycle ((Watch.only fun u => u.Fits ∧ ¬u.Assigns ref).again fuel) stop w) →
        cycle (Run.again fuel) stop w = cycle ((Watch.only fun u => u.Fits ∧ ¬u.Assigns ref).again fuel) stop w ∧
          (left (cycle (Run.again fuel) stop w)).reads ref = w.reads ref) := by
  have stood (u : World) (both : u.Fits ∧ u.Stands) : u.Stands := both.2
  refine ⟨fun w s idles ashore compiled => ?_, fun w s idles stands moored => ?_, fun w moored => ?_,
    fun w stop ref stands moored inside old other => ⟨fun again i next calls finished => ?_, fun finished => ?_⟩⟩
  · obtain ⟨standing, ended⟩ := (runs_stand fuel).1 w s idles compiled
    obtain ⟨same, harbored⟩ := (harbored_watches stood fuel).2.1 w s ashore
    rw [standing] at same harbored
    exact ⟨same, ended, harbored⟩
  · obtain ⟨standing, ended⟩ := (runs_stand fuel).2 w s idles stands
    obtain ⟨f, fs, b, frames, -⟩ := stands.upright
    have inside : (restored s w).machine.frames ≠ #[] := by
      change s.frames ≠ #[]
      rw [frames, piled_cons]
      simp
    obtain ⟨same, harbored⟩ := (harbored_watches stood fuel).1 _ moored inside
    rw [Watch.resume_eq _ _ _ idles.frames] at standing ended ⊢
    rw [Watch.resume_eq _ _ _ idles.frames] at standing ⊢
    rw [standing] at same harbored
    exact ⟨same, ended, harbored⟩
  · exact ⟨moored.tidy.nodup, moored.tidy.listed, fun ref j opened => moored.below j ⟨ref, opened⟩,
    moored.tidy.distinct⟩
  · rw [cycle_of_not_calls next calls again (Run.again 0)] at finished ⊢
    refine reads_cycle stands moored inside (mindful_none {ref}) ?_ finished rfl old
    rintro _ rfl
    exact other
  · obtain ⟨-, -, -, -, -, i, -, next⟩ := stands.faces
    have same := cycle_follows next (Watch.follows_only _ fuel) inside finished
    have alike := cycle_alike stands (sturdy_again (fun u => u.Fits ∧ ¬u.Assigns ref) fuel) stop
    refine ⟨same, ?_⟩
    rw [← alike] at finished
    rw [same, ← alike]
    refine reads_cycle stands moored inside (mindful_again (R := {ref}) (fun _ => And.right) ?_ fuel) ?_
      finished rfl old
    · rintro u ⟨⟨-, apart⟩, -⟩ _ rfl
      exact apart
    · rintro _ rfl
      exact other

/-! ## A variable that is captured in a block -/

/-- A block whose variable is captured by a function, assigned to, and left behind. -/
def Script.catchingTokens : List Token :=
  [(.openBrace, "\x7b"), (.varWord, "var"), (.identifier, "x"), (.equal, "="), (.trueWord, "true"), (.semicolon, ";"),
    (.funWord, "fun"), (.identifier, "f"), (.openParen, "("), (.closeParen, ")"), (.openBrace, "\x7b"),
    (.returnWord, "return"), (.identifier, "x"), (.semicolon, ";"), (.closeBrace, "\x7d"), (.identifier, "x"),
    (.equal, "="), (.nullWord, "null"), (.semicolon, ";"), (.closeBrace, "\x7d")].map fun t =>
      ⟨t.1, t.2, .none, 1, 1, 0⟩

/-- What it is compiled to. -/
def Script.catching : Script where
  hash := "e8f4c70b14fec2951b98d4584c0c52b51c4acbee09aaaca051eb1bb303632862"
  top := .listed 1
  diagnostics := #[]
  chunks := #[
    { name := "f", source := "main", chain := "main.f", kind := .function
      code := #[.getUpvalue 0, .ret 1, .null, .ret 1], lines := #[⟨1, 4⟩], captureCount := 1 },
    { name := "main", source := "main", chain := "main", kind := .script
      code := #[.pushBool true, .closure 0, .capture ⟨true, 1⟩, .null, .setLocal 1, .pop, .pop, .closeUpvalue,
        .null, .ret 1]
      constants := #[.chunk (.listed 0)], lines := #[⟨1, 10⟩] }]

theorem Script.compiled_catching : catching.Compiled := compiled_of_parts catchingTokens (by decide +kernel)

/-- The machine where that script begins. -/
def catching : World := { Pausing.loaded .catching {} with machine.frames := #[Pausing.outermost .catching {}] }

theorem ashore_fresh (settings : Settings) : World.Ashore { machine := { settings } } :=
  ⟨rfl, rfl, fun _ _ => nofun, fun _ => trivial⟩

theorem awaits_catching : catching.Awaits catching.heap #[] 0 [] := by
  have small : Script.catching.Small := by
    unfold Script.Small
    decide
  exact awaits_begun Script.compiled_catching small

/-- Captured variables stay in order while no host call is made. -/
theorem World.Awaits.moored {h : Heap} {L : Array Frame} {b n : Nat} {M : List Nat} {u v : World}
    (awaits : u.Awaits h L b M)
    (moored : u.Moored u.machine.stack.size) (ran : u.cycles L.size n = some v) : v.Moored v.machine.stack.size := by
  induction n generalizing u with
  | zero => exact Option.some.inj ran ▸ moored
  | succ n ih =>
    obtain ⟨u', stepped, above, rest⟩ := World.cycles_succ ran
    refine ih (awaits.goes stepped (by rintro ⟨⟩) fun _ => above) ?_ rest
    obtain ⟨f, fs, frames, upright, -⟩ := awaits.upright
    have stands : u.Stands := ⟨awaits.sound, L, f, fs, b, M, frames, upright⟩
    obtain ⟨F, g, s, c, N, i, faces, next⟩ := stands.faces
    obtain ⟨-, keeping⟩ := faces.keeps (R := ∅) next moored (mindful_none ∅) (fun _ => nofun) (Nat.zero_le _)
    rw [stepped] at keeping
    exact keeping.2.1

/-- That script where it leaves the block, and the step that closes the variable. -/
theorem catching_leaves : ∃ w, catching.cycles 0 6 = some w ∧ w.machine.openCells = [0] ∧ w.heap.cell 0 = .opened 1 ∧
    w.next? = some .closeUpvalue ∧ 0 < w.machine.frames.size ∧
    (left (cycle (Run.again 0) 0 w)).heap.cell 0 = .closed .null ∧
    Run.Finished (cycle (Run.again 0) 0 w) := by
  have seen : (catching.cycles 0 6).map (fun w => (w.machine.openCells, w.heap.cell 0,
        w.next?, w.machine.frames.size)) =
      some ([0], .opened 1, some .closeUpvalue, 1) := by decide +kernel
  have closed : (catching.cycles 0 6).map (fun w => match cycle (Run.again 0) 0 w with
      | .ok _ w' => some (w'.heap.cell 0)
      | .error _ _ => none) = some (some (.closed .null)) := by decide +kernel
  obtain ⟨w, ran, answers⟩ := Option.map_eq_some_iff.mp seen
  obtain ⟨listed, opened, next, frames⟩ : _ ∧ _ ∧ _ ∧ _ := by simpa only [Prod.mk.injEq] using answers
  refine ⟨w, ran, listed, opened, next, by omega, ?_⟩
  rw [ran, Option.map_some] at closed
  cases stepped : cycle (Run.again 0) 0 w with
  | ok c w' =>
    rw [stepped] at closed
    exact ⟨Option.some.inj (Option.some.inj closed), trivial⟩
  | error e w' =>
    rw [stepped] at closed
    cases closed

theorem captured_variables_outlast_catching :
    ((Watch.only fun u => (u.Fits ∧ u.Stands) ∧ u.Moored u.machine.stack.size).interpret 20 .catching {} =
        (Watch.only World.Fits).interpret 20 .catching {} ∧
      Ended ((Watch.only World.Fits).interpret 20 .catching {}) ∧
      Harbored ((Watch.only World.Fits).interpret 20 .catching {})) ∧
    ∃ w, catching.cycles 0 6 = some w ∧ w.machine.openCells = [0] ∧ w.heap.cell 0 = .opened 1 ∧
      (left (cycle (Run.again 20) 0 w)).heap.cell 0 = .closed .null ∧
      (left (cycle (Run.again 20) 0 w)).reads 0 = w.reads 0 ∧ (∃ j < w.machine.stack.size, w.heap.cell 0 = .opened j) ∧
      (Watch.only fun u => (u.Fits ∧ u.Stands) ∧ u.Moored u.machine.stack.size).resume 20 w.machine.suspension (vacated w) =
          (Watch.only World.Fits).resume 20 w.machine.suspension (vacated w) ∧
        Ended ((Watch.only World.Fits).resume 20 w.machine.suspension (vacated w)) ∧
        Harbored ((Watch.only World.Fits).resume 20 w.machine.suspension (vacated w)) := by
  obtain ⟨begins, resumes, reading, steps⟩ := captured_variables_outlast 20
  refine ⟨begins {} .catching (idles_fresh {}) (ashore_fresh {}) Script.compiled_catching, ?_⟩
  obtain ⟨w, ran, listed, opened, next, inside, closed, finished⟩ := catching_leaves
  have began : catching.Moored catching.machine.stack.size :=
    World.Ashore.entered (w := {}) (s := .catching) (ashore_fresh {})
  have moored := awaits_catching.moored began ran
  obtain ⟨sound, grows, f, fs, frames, upright, -⟩ := awaits_catching.cycles ran
  have stands : w.Stands := ⟨sound, #[], f, fs, 0, [], frames, upright⟩
  have same : cycle (Run.again 20) 0 w = cycle (Run.again 0) 0 w := cycle_of_not_calls next rfl _ _
  have other : ¬w.Assigns 0 := by
    rintro (⟨-, assigns, -⟩ | ⟨-, assigns, -⟩) <;> cases next.symm.trans assigns
  obtain ⟨quiet, -⟩ := steps w 0 0 stands moored inside (Heap.lt_of_opened opened) other
  have idles : (vacated w).Idles :=
    ⟨sound.onMachine rfl rfl (fun _ => id) fun _ mem => absurd mem (Array.not_mem_empty _), rfl, rfl⟩
  have set : w.machine.suspension.Stands (vacated w).heap :=
    ⟨fun v mem => sound.offers v (.slot mem), f, fs, 0, frames, upright⟩
  obtain ⟨-, -, below, -⟩ := reading w moored
  rw [← same] at closed finished
  refine ⟨w, ran, listed, opened, closed, quiet _ _ next rfl finished, ⟨1, below 0 1 opened, opened⟩, ?_⟩
  exact resumes (vacated w) w.machine.suspension idles set moored

end ScriptEngine
