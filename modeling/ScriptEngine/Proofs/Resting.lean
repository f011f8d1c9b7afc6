import ScriptEngine.Proofs.Resuming

/-!
# Where a run leaves the machine

A run that ends drops all that execution holds, on whichever way it ends: with
the outermost frame, with a failure at any depth, in a host call, inside a set
of tests or in one of the queued scripts. The loop of a script is what resets
the machine, so the one way around it is a script whose own frame does not fit:
its closure is on the stack by then, and no loop runs. With room for one frame
this does not happen (`at_rest_after`).
-/
namespace ScriptEngine

open Run

/-- Nothing of an execution is left. -/
structure Machine.Rests (m : Machine) : Prop where
  stack : m.stack = #[]
  frames : m.frames = #[]
  openCells : m.openCells = []
  marks : m.marks = []
  hostCalls : m.hostCalls = 0
  currentSet : m.currentSet = none

theorem Machine.rests_reset (m : Machine) : m.reset.Rests := ⟨rfl, rfl, rfl, rfl, rfl, rfl⟩

theorem Machine.Rests.isIdle {m : Machine} (h : m.Rests) : m.isIdle = true := by
  simp [Machine.isIdle, h.stack, h.frames]

namespace Pausing

/-- There is room for the frame of a script. -/
def Roomy (w : World) : Prop := 0 < w.machine.settings.maxFrames

theorem enter_roomy (s : Script) {w : World} (vacant : w.machine.frames = #[]) (roomy : Roomy w) :
    ∃ w₁, enter s w = .ok () w₁ ∧ Inside w₁ ∧ Roomy w₁ := by
  refine ⟨{ loaded s w with machine.frames := w.machine.frames.push (outermost s w) },
    ?_, by simp [Inside], roomy⟩
  rw [enter_eq, if_neg (by simp [vacant]), if_pos (by simpa [vacant, Roomy] using roomy)]

theorem enter_full (s : Script) {w : World} (vacant : w.machine.frames = #[]) (full : ¬Roomy w) :
    enter s w = .error (.failed { error := .stackOverflow w.machine.settings.maxFrames })
      (loaded s w) := by
  rw [enter_eq, if_neg (by simp [vacant]), if_neg (by simpa [vacant, Roomy] using full)]

theorem execute_roomy {fuel : Nat} {w : World} (inside : Inside w) (roomy : Roomy w)
    (finished : Run.Finished (execute (fun _ => yield) fuel 0 w)) :
    Roomy (left (execute (fun _ => yield) fuel 0 w)) := by
  have within := (agree_yield.execute (Nat.le_refl fuel) inside trivial finished).2.1
  rwa [Roomy, within.settings]

/-- A run that ends leaves the machine at rest, and the room for a frame as it was. -/
def Leaves (x : EStateM.Result Halt World Outcome) : Prop :=
  ∀ e w', EndsAs x e w' → w'.machine.Rests ∧ Roomy w'

theorem leaves (fuel : Nat) :
    (∀ w, Inside w → Roomy w → Leaves (continueTop (fun _ => yield) fuel w)) ∧
    (∀ s w, w.machine.frames = #[] → Roomy w → Leaves (interpret (fun _ => yield) fuel s w)) ∧
    ∀ w v, w.machine.Rests → Roomy w →
      Leaves (queueOutcome v (runQueue (fun _ => yield) fuel w)) := by
  induction fuel with
  | zero => exact ⟨fun _ _ _ _ _ => nofun, fun _ _ _ _ _ _ => nofun, fun _ _ _ _ _ _ => nofun⟩
  | succ fuel ih =>
    obtain ⟨continueTop, interpret, runQueue⟩ := ih
    refine ⟨fun w inside roomy => ?_, fun s w vacant roomy => ?_, fun w v rests roomy => ?_⟩
    · rw [continueTop_succ]
      have kept := @execute_roomy fuel w inside roomy
      cases hx : execute (fun _ => yield) fuel 0 w with
      | error e w₁ =>
        rw [hx] at kept
        cases e with
        | outOfFuel => exact fun _ _ => nofun
        | failed f =>
          rintro _ _ ⟨⟩
          exact ⟨w₁.machine.rests_reset, kept trivial⟩
      | ok how w₁ =>
        rw [hx] at kept
        cases how with
        | yielded => exact fun _ _ => nofun
        | returned => exact runQueue (rested w₁) _ w₁.machine.rests_reset (kept trivial)
    · obtain ⟨w₁, entered, inside, roomy⟩ := enter_roomy s vacant roomy
      rw [interpret_succ, entered]
      exact continueTop w₁ inside roomy
    · rw [runQueue_succ]
      cases hq : w.machine.queue with
      | nil =>
        rintro _ _ ⟨⟩
        exact ⟨rests, roomy⟩
      | cons s others =>
        have run := interpret s { w with machine.queue := others } rests.frames roomy
        dsimp only
        cases hr : Pausing.interpret (fun _ => yield) fuel s { w with machine.queue := others } with
        | error e w₁ =>
          rw [hr] at run
          rintro _ _ ⟨⟩
          exact run _ _ .failed
        | ok r w₁ =>
          rw [hr] at run
          cases r with
          | yielded => exact fun _ _ => nofun
          | completed =>
            obtain ⟨rests, roomy⟩ := run _ _ .completed
            exact runQueue w₁ v rests roomy

end Pausing

/-- A script that is run on a machine with no frame in use leaves it at rest however it ends, if
the settings allow a frame at all, and otherwise leaves a value on the stack. Where they do, a
suspended script that is taken up leaves the machine at rest too. -/
theorem at_rest_after (w : World) (vacant : w.machine.frames = #[]) (fuel : Nat) :
    (∀ s e w', EndsAs (interpret fuel s w) e w' →
      (w'.machine.Rests ↔ 0 < w.machine.settings.maxFrames)) ∧
    (0 < w.machine.settings.maxFrames → ∀ suspension e w', 0 < suspension.frames.size →
      EndsAs (resume fuel suspension w) e w' → w'.machine.Rests) := by
  obtain ⟨continueTop, interpret, -⟩ := Pausing.leaves fuel
  refine ⟨fun s e w' ends => ⟨fun rests => ?_, fun roomy => ?_⟩,
    fun roomy suspension e w' inside ends => ?_⟩
  · refine Decidable.byContradiction fun full => ?_
    rw [← (Pausing.machine_yield fuel).2.2.1] at ends
    cases fuel with
    | zero => cases ends
    | succ fuel =>
      rw [Pausing.interpret_succ, Pausing.enter_full s vacant full] at ends
      cases ends
      exact Array.push_ne_empty rests.stack
  · rw [← (Pausing.machine_yield fuel).2.2.1] at ends
    exact (interpret s w vacant roomy e w' ends).1
  · rw [Pausing.resume_vacated fuel suspension vacant] at ends
    exact (continueTop (Pausing.restored suspension w) inside roomy e w' ends).1

/-- The script that returns null. -/
def bare : Script where
  hash := ""
  chunks := #[{ name := "main", source := "", chain := "main", kind := .script, code := #[.null, .ret 1] }]
  top := .listed 0
  diagnostics := #[]

/-- A machine that has no room for the frame of a script. -/
def crowded : World where machine := { settings := { maxFrames := 0 } }

def completes : EStateM.Result Halt World Outcome → Bool
  | .ok (.completed _) _ => true
  | _ => false

theorem EndsAs.of_completes {r : EStateM.Result Halt World Outcome} (h : completes r = true) :
    EndsAs r none (left r) := by
  unfold completes at h
  split at h
  · exact .completed
  · cases h

theorem at_rest_after_bare :
    (∃ w', EndsAs (interpret 4 bare {}) none w' ∧ w'.machine.Rests) ∧
      ∃ f w', EndsAs (interpret 4 bare crowded) (some f) w' ∧ ¬w'.machine.Rests := by
  have completed : EndsAs (interpret 4 bare {}) none _ := .of_completes (by decide +kernel)
  have failed : EndsAs (interpret 4 bare crowded) (some { error := .stackOverflow 0 })
    (left (interpret 4 bare crowded)) := EndsAs.failed
  exact ⟨⟨_, completed, ((at_rest_after {} rfl 4).1 bare _ _ completed).mpr (by decide)⟩, _, _, failed,
    fun rests => absurd (((at_rest_after crowded rfl 4).1 bare _ _ failed).mp rests) (by decide)⟩

end ScriptEngine
