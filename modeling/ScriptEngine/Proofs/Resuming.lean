import ScriptEngine.Proofs.Pausing

/-!
# Resuming at once

A script that yields and is resumed at once goes on as if it had not yielded.
`Pausing.pass` makes a machine that goes on by itself, and `resuming_at_once`
says that whatever comes of driving a script on the machine, resuming every
suspension, comes of running it on the other one, and conversely.

A yield ends only the loop of a script itself, in no host call and with the
current set that the script began with (`Pausing.topOnly`), and leaves a machine
that holds nothing of an execution. So the four parts of a suspension are all
there is to put back.
-/
namespace ScriptEngine

open Run

namespace Pausing

/-- Goes on at a `yield` where the machine would stop. -/
def pass (_ : Nat) : Run Control := do
  if (← machine).hostCalls = 0 then return .next else fail .yieldInHostCall

/-- Yields in the outermost loop while no test set is current. A `yield` anywhere else outside
of host calls has no answer. -/
def topOnly (stop : Nat) : Run Control := do
  let m ← machine
  if m.hostCalls = 0 then
    if stop = 0 ∧ m.currentSet = none then return .exit .yielded else throw .outOfFuel
  else fail .yieldInHostCall

theorem yield_eq (w : World) : yield w = if w.machine.hostCalls = 0 then .ok (.exit .yielded) w
    else .error (.failed { error := .yieldInHostCall }) w := by
  show (ite _ _ _ : Run Control) w = _
  split <;> rfl

theorem pass_eq (stop : Nat) (w : World) : pass stop w = if w.machine.hostCalls = 0 then .ok .next w
    else .error (.failed { error := .yieldInHostCall }) w := by
  show (ite _ _ _ : Run Control) w = _
  split <;> rfl

theorem topOnly_eq (stop : Nat) (w : World) : topOnly stop w =
    if w.machine.hostCalls = 0 then
      if stop = 0 ∧ w.machine.currentSet = none then .ok (.exit .yielded) w
      else .error .outOfFuel w
    else .error (.failed { error := .yieldInHostCall }) w := by
  show (ite _ (ite _ _ _) _ : Run Control) w = _
  split
  · split <;> rfl
  · rfl

theorem refuses_yield : Refuses fun _ => yield := fun _ w calling => by
  show yield w = _
  rw [yield_eq, if_neg (Nat.pos_iff_ne_zero.mp calling)]

theorem refuses_pass : Refuses pass := fun stop w calling => by
  rw [pass_eq, if_neg (Nat.pos_iff_ne_zero.mp calling)]

theorem refuses_topOnly : Refuses topOnly := fun stop w calling => by
  rw [topOnly_eq, if_neg (Nat.pos_iff_ne_zero.mp calling)]

theorem calms_yield : Calms yield := calms_machine.bind fun _ => .ite (.pure _) (calms_fail _)

theorem keeps_pass (stop : Nat) : Keeps (pass stop) :=
  calms_machine.keeps.bind fun _ => .ite (.pure _) (calms_fail _).keeps

/-! ## Scripts and queues, result by result -/

/-- The world once a run has ended. -/
def rested (w : World) : World := { w with machine := w.machine.reset }

/-- The world once a script has been suspended. -/
def vacated (w : World) : World := { w with machine := w.machine.restore ⟨#[], #[], [], []⟩ }

/-- The world in which a suspended script goes on. -/
def restored (s : Suspension) (w : World) : World := { w with machine := w.machine.restore s }

/-- The outcome of a script that has completed with a value, after the queue. -/
def queueOutcome (v : Value) :
    EStateM.Result Halt World (Option Suspension) → EStateM.Result Halt World Outcome
  | .ok none w => .ok (.completed v) w
  | .ok (some s) w => .ok (.yielded s) w
  | .error e w => .error e w

theorem restored_vacated (w : World) : restored w.machine.suspension (vacated w) = w := rfl

section

variable (pause : Nat → Run Control) (fuel : Nat)

theorem continueTop_zero (w : World) : continueTop pause 0 w = .error .outOfFuel w := rfl

theorem runQueue_zero (w : World) : runQueue pause 0 w = .error .outOfFuel w := rfl

theorem interpret_zero (s : Script) (w : World) : interpret pause 0 s w = .error .outOfFuel w := rfl

theorem continueTop_succ (w : World) : continueTop pause (fuel + 1) w =
    match execute pause fuel 0 w with
    | .ok .returned w₁ =>
      queueOutcome (w₁.machine.stack.back?.getD .null) (runQueue pause fuel (rested w₁))
    | .ok .yielded w₁ => .ok (.yielded w₁.machine.suspension) (vacated w₁)
    | .error (.failed f) w₁ => .error (.failed f) (rested w₁)
    | .error .outOfFuel w₁ => .error .outOfFuel w₁ := by
  show EStateM.bind (attempt (execute pause fuel 0)) _ w = _
  unfold EStateM.bind attempt
  cases execute pause fuel 0 w with
  | error e w₁ => cases e <;> rfl
  | ok how w₁ =>
    cases how with
    | yielded => rfl
    | returned =>
      show EStateM.bind (runQueue pause fuel) _ (rested w₁) = _
      dsimp only [EStateM.bind]
      cases runQueue pause fuel (rested w₁) with
      | error => rfl
      | ok s => cases s <;> rfl

theorem runQueue_succ (w : World) : runQueue pause (fuel + 1) w =
    match w.machine.queue with
    | [] => .ok none w
    | s :: others =>
      match interpret pause fuel s { w with machine.queue := others } with
      | .ok (.yielded suspension) w₁ => .ok (some suspension) w₁
      | .ok (.completed _) w₁ => runQueue pause fuel w₁
      | .error e w₁ => .error e w₁ := by
  obtain ⟨heap, natives, m⟩ := w
  obtain ⟨settings, stack, frames, openCells, marks, globals, registry, libraries, tests, currentSet, queue, calls,
    output⟩ := m
  cases queue with
  | nil => rfl
  | cons s others =>
    show EStateM.bind (interpret pause fuel s) _ _ = _
    unfold EStateM.bind
    dsimp only
    cases interpret pause fuel s _ with
    | error => rfl
    | ok r w₁ => cases r <;> rfl

theorem interpret_succ (s : Script) (w : World) : interpret pause (fuel + 1) s w =
    match enter s w with
    | .ok _ w₁ => continueTop pause fuel w₁
    | .error e w₁ => .error e w₁ := by
  show EStateM.bind (enter s) _ w = _
  unfold EStateM.bind
  cases enter s w <;> rfl

end

theorem keeps_enter (s : Script) : Keeps (enter s) := by
  refine Keeps.bind (calms_machine.keeps.bind fun m => .ite (calms_failInternal _).keeps (.pure _)) fun _ => ?_
  refine (keeps_allocate _).bind fun id => calms_stackSize.keeps.bind fun base =>
    (keeps_allocate _).bind fun v => (calms_push v).keeps.bind fun _ => ?_
  split
  · exact keeps_pushFrame _
  · exact .pure _

/-- The world in which the frame of a script is about to be pushed. -/
def loaded (s : Script) (w : World) : World :=
  let read := w.heap.load s
  let made := read.2.addClosure ⟨read.1, #[]⟩
  { w with heap := made.2, machine.stack := w.machine.stack.push made.1 }

/-- The frame in which a script runs. -/
def outermost (s : Script) (w : World) : Frame :=
  { closure := (w.heap.load s).2.closures.size, base := w.machine.stack.size }

theorem enter_eq (s : Script) (w : World) : enter s w =
    if (!w.machine.frames.isEmpty) = true then .error (.failed { error := .internal .running }) w
    else if w.machine.frames.size < w.machine.settings.maxFrames then
      .ok () { loaded s w with machine.frames := w.machine.frames.push (outermost s w) }
    else .error (.failed { error := .stackOverflow w.machine.settings.maxFrames }) (loaded s w) := by
  have check : checkStopped w = if (!w.machine.frames.isEmpty) = true then
      .error (.failed { error := .internal .running }) w else .ok () w := by
    show (ite _ _ _ : Run Unit) w = _
    split <;> rfl
  show EStateM.bind checkStopped _ w = _
  rw [EStateM.bind, check]
  by_cases busy : (!w.machine.frames.isEmpty) = true
  · simp only [if_pos busy]
  · simp only [if_neg busy]
    show (if w.machine.frames.size < w.machine.settings.maxFrames then
      modifyMachine fun m => { m with frames := m.frames.push (outermost s w) }
      else fail (.stackOverflow w.machine.settings.maxFrames) : Run Unit) (loaded s w) = _
    split <;> rfl

/-- A script that has been entered has a frame, and entering it stops only with a failure. -/
theorem enter_cases (s : Script) (w : World) :
    (∃ f w₁, enter s w = .error (.failed f) w₁) ∨ ∃ w₁, enter s w = .ok () w₁ ∧ Inside w₁ := by
  rw [enter_eq]
  split
  · exact .inl ⟨_, _, rfl⟩
  · split
    · exact .inr ⟨_, rfl, by simp [Inside]⟩
    · exact .inl ⟨_, _, rfl⟩

/-! ## Machines that agree -/

/-- Where `P` holds, which a run does not change, both machines do the same at a `yield` of the
outermost loop; in host calls both refuse it. -/
structure Agree (P : World → Prop) (pause pause' : Nat → Run Control) : Prop where
  lasting : Lasting P
  rests : ∀ w, P (rested w)
  refuses : Refuses pause
  refuses' : Refuses pause'
  same : ∀ w, P w → pause' 0 w = pause 0 w
  keeps : ∀ w, P w → Steady w (left (pause 0 w))

theorem agree_self {pause : Nat → Run Control} (refuses : Refuses pause) (keeps : Keeps (pause 0)) :
    Agree (fun _ => True) pause pause :=
  ⟨fun _ _ _ _ _ => trivial, fun _ => trivial, refuses, refuses, fun _ _ => rfl, fun w _ => keeps w⟩

theorem agree_topOnly :
    Agree (fun w => w.machine.currentSet = none) (fun _ => yield) topOnly where
  lasting _ _ _ currentSet none := currentSet.trans none
  rests _ := rfl
  refuses := refuses_yield
  refuses' := refuses_topOnly
  same w none := by
    show topOnly 0 w = yield w
    simp only [topOnly_eq, yield_eq, none, and_self, if_true]
  keeps w _ := calms_yield.keeps w

section

variable {P : World → Prop} {pause pause' : Nat → Run Control} (h : Agree P pause pause')
include h

theorem Agree.execute {fuel fuel' : Nat} (le : fuel ≤ fuel') {w : World} (inside : Inside w)
    (hP : P w) (finished : Run.Finished (execute pause fuel 0 w)) :
    Pausing.execute pause' fuel' 0 w = Pausing.execute pause fuel 0 w ∧
      Within 0 w (left (Pausing.execute pause fuel 0 w)) ∧
      ∀ w', Pausing.execute pause fuel 0 w = .ok .yielded w' →
        ∃ w₁, P w₁ ∧ Inside w₁ ∧ pause 0 w₁ = .ok (.exit .yielded) w' :=
  execute_tracks h.lasting h.same h.keeps (fun n _ m hm => follows_again h.refuses h.refuses' n m hm)
    fuel' le w inside hP finished

/-- What a run of the first machine comes to, that run of the second comes to. -/
def Same (P : World → Prop) (x y : Run α) (w : World) : Prop :=
  Run.Finished (x w) → y w = x w ∧ P (left (x w))

theorem Agree.runs (fuel : Nat) : ∀ fuel', fuel ≤ fuel' →
    (∀ w, Inside w → P w → Same P (continueTop pause fuel) (continueTop pause' fuel') w) ∧
    (∀ s w, P w → Same P (interpret pause fuel s) (interpret pause' fuel' s) w) ∧
    ∀ w, P w → Same P (runQueue pause fuel) (runQueue pause' fuel') w := by
  induction fuel with
  | zero => exact fun _ _ => ⟨fun _ _ _ done => done.elim, fun _ _ _ done => done.elim,
      fun _ _ done => done.elim⟩
  | succ fuel ih =>
    intro fuel' le
    obtain ⟨fuel', rfl⟩ : ∃ m, fuel' = m + 1 := ⟨fuel' - 1, by omega⟩
    have le := Nat.le_of_succ_le_succ le
    obtain ⟨continueTop, interpret, runQueue⟩ := ih fuel' le
    refine ⟨fun w inside hP done => ?_, fun s w hP done => ?_, fun w hP done => ?_⟩
    · rw [continueTop_succ] at done
      rw [continueTop_succ, continueTop_succ]
      have loop := h.execute le inside hP
      cases hx : Pausing.execute pause fuel 0 w with
      | error e w₁ =>
        rw [hx] at loop done
        cases e with
        | outOfFuel => exact done.elim
        | failed f =>
          rw [(loop trivial).1]
          exact ⟨rfl, h.rests w₁⟩
      | ok how w₁ =>
        rw [hx] at loop done
        obtain ⟨same, within, -⟩ := loop trivial
        rw [same]
        cases how with
        | yielded => exact ⟨rfl, h.lasting within.hostCalls within.currentSet hP⟩
        | returned =>
          have queue := runQueue (rested w₁) (h.rests w₁)
          dsimp only at done ⊢
          cases hq : Pausing.runQueue pause fuel (rested w₁) with
          | error e w₂ =>
            rw [hq] at done
            rw [Same, hq] at queue
            obtain ⟨same, hP⟩ := queue (by cases e <;> exact done)
            rw [same]
            exact ⟨rfl, hP⟩
          | ok r w₂ =>
            rw [Same, hq] at queue
            obtain ⟨same, hP⟩ := queue trivial
            rw [same]
            cases r <;> exact ⟨rfl, hP⟩
    · rw [interpret_succ] at done
      rw [interpret_succ, interpret_succ]
      have steady := keeps_enter s w
      obtain ⟨f, w₁, stopped⟩ | ⟨w₁, entered, inside⟩ := enter_cases s w
      · rw [stopped] at steady ⊢
        exact ⟨rfl, h.lasting steady.hostCalls steady.currentSet hP⟩
      · rw [entered] at steady done ⊢
        exact continueTop w₁ inside (h.lasting steady.hostCalls steady.currentSet hP) done
    · rw [runQueue_succ] at done
      rw [runQueue_succ, runQueue_succ]
      cases hq : w.machine.queue with
      | nil => exact ⟨rfl, hP⟩
      | cons s others =>
        rw [hq] at done
        dsimp only at done ⊢
        have run := interpret s { w with machine.queue := others } (h.lasting (w := w) rfl rfl hP)
        cases hr : Pausing.interpret pause fuel s { w with machine.queue := others } with
        | error e w₁ =>
          rw [hr] at done
          rw [Same, hr] at run
          obtain ⟨same, hP⟩ := run (by cases e <;> exact done)
          rw [same]
          exact ⟨rfl, hP⟩
        | ok r w₁ =>
          rw [hr] at done
          rw [Same, hr] at run
          obtain ⟨same, hP⟩ := run trivial
          rw [same]
          cases r with
          | yielded => exact ⟨rfl, hP⟩
          | completed => exact runQueue w₁ hP done

end

/-! ## Yielding and going on -/

theorem agree_yield : Agree (fun _ => True) (fun _ => yield) (fun _ => yield) :=
  agree_self refuses_yield calms_yield.keeps

theorem agree_pass : Agree (fun _ => True) pass pass := agree_self refuses_pass (keeps_pass 0)

/-- A loop that goes on at a `yield` does not end with one. -/
theorem execute_pass_ne_yielded {fuel : Nat} {w w' : World} (inside : Inside w) :
    execute pass fuel 0 w ≠ .ok .yielded w' := by
  intro hx
  have loop := agree_pass.execute (Nat.le_refl fuel) inside trivial (by rw [hx]; trivial)
  obtain ⟨w₁, -, -, yields⟩ := loop.2.2 w' hx
  rw [pass_eq] at yields
  split at yields <;> cases yields

theorem mono_pass {fuel fuel' : Nat} (le : fuel ≤ fuel') {w : World} (inside : Inside w)
    (finished : Run.Finished (execute pass fuel 0 w)) :
    execute pass fuel' 0 w = execute pass fuel 0 w :=
  (agree_pass.execute le inside trivial finished).1

/-- At an instruction of the outermost loop, one machine yields and the other goes on from there,
or both do the same. -/
theorem cycle_cases {w : World} (inside : Inside w) :
    (∃ w₁, Inside w₁ ∧ (∀ fuel, execute (fun _ => yield) (fuel + 1) 0 w = .ok .yielded w₁) ∧
      ∀ fuel, execute pass (fuel + 1) 0 w = execute pass fuel 0 w₁) ∨
    ((∀ fuel fuel', fuel ≤ fuel' → Advances 0 (cycle (fun _ => yield) (again (fun _ => yield) fuel) 0)
        (cycle pass (again pass fuel') 0) w) ∧
      ∀ fuel fuel', fuel ≤ fuel' → Advances 0 (cycle pass (again pass fuel) 0)
        (cycle (fun _ => yield) (again (fun _ => yield) fuel') 0) w) := by
  by_cases at_yield : ∃ w₁, fetch w = .ok .yield w₁
  · obtain ⟨w₁, fetched⟩ := at_yield
    have steady := keeps_fetch w
    rw [fetched] at steady
    by_cases calling : w₁.machine.hostCalls = 0
    · refine .inl ⟨w₁, inside.of_steady steady, fun fuel => ?_, fun fuel => ?_⟩
      · simp only [execute_succ, cycle_of_fetch fetched, if_true, located, yield_eq, if_pos calling]
      · simp only [execute_succ, cycle_of_fetch fetched, if_true, located, pass_eq, if_pos calling]
    · have within : Within 0 w w₁ := .of_steady (Nat.zero_le _) steady
      refine .inr ⟨fun _ _ _ _ => ?_, fun _ _ _ _ => ?_⟩
      all_goals
        simp only [cycle_of_fetch fetched, if_true, located, yield_eq, pass_eq, if_neg calling,
          true_and]
        exact ⟨within, .stopped⟩
  · have not_yield (w₁ : World) (eq : fetch w = .ok .yield w₁) : False := at_yield ⟨w₁, eq⟩
    exact .inr
      ⟨fun _ _ le => advances_cycle (follows_again refuses_yield refuses_pass _ _ le) inside not_yield,
      fun _ _ le => advances_cycle (follows_again refuses_pass refuses_yield _ _ le) inside not_yield⟩

/-- Where the machine yields, the other one goes on, and otherwise both loops end alike. -/
theorem pass_of_yield (fuel : Nat) : ∀ w, Inside w → Run.Finished (execute (fun _ => yield) fuel 0 w) →
    (∃ w₁, Inside w₁ ∧ execute (fun _ => yield) fuel 0 w = .ok .yielded w₁ ∧
      ∀ fuel', Run.Finished (execute pass fuel' 0 w₁) →
        execute pass (fuel + fuel') 0 w = execute pass fuel' 0 w₁) ∨
    execute pass fuel 0 w = execute (fun _ => yield) fuel 0 w ∧
      ∀ w₁, execute (fun _ => yield) fuel 0 w ≠ .ok .yielded w₁ := by
  induction fuel with
  | zero => exact fun _ _ finished => finished.elim
  | succ fuel ih =>
    intro w inside finished
    obtain ⟨w₁, inside₁, yields, goesOn⟩ | ⟨advances, -⟩ := cycle_cases inside
    · refine .inl ⟨w₁, inside₁, yields fuel, fun fuel' finished => ?_⟩
      rw [Nat.add_right_comm, goesOn]
      exact mono_pass (Nat.le_add_left _ _) inside₁ finished
    · rw [execute_succ] at finished
      rw [execute_succ]
      cases hc : cycle (fun _ => yield) (again (fun _ => yield) fuel) 0 w with
      | error e w₁ =>
        rw [hc] at finished
        obtain ⟨same, -⟩ := advances fuel fuel (Nat.le_refl _) (by rw [hc]; cases e <;> exact finished)
        rw [execute_succ, same, hc]
        exact .inr ⟨rfl, nofun⟩
      | ok c w₁ =>
        rw [hc] at finished
        have cycled (fuel' : Nat) (le : fuel ≤ fuel') := advances fuel fuel' le (by rw [hc]; trivial)
        simp only [hc] at cycled
        cases (cycled fuel (Nat.le_refl _)).2.2 with
        | returned =>
          rw [execute_succ, (cycled fuel (Nat.le_refl _)).1]
          exact .inr ⟨rfl, nofun⟩
        | next inside₁ =>
          obtain ⟨w₂, inside₂, yields, goesOn⟩ | same := ih w₁ inside₁ finished
          · refine .inl ⟨w₂, inside₂, yields, fun fuel' finished => ?_⟩
            rw [Nat.add_right_comm, execute_succ, (cycled _ (Nat.le_add_right _ _)).1]
            exact goesOn fuel' finished
          · rw [execute_succ, (cycled fuel (Nat.le_refl _)).1]
            exact .inr same

/-- Where the other machine comes to an end, the machine does too or it yields with less of the
way to go. -/
theorem yield_of_pass (fuel : Nat) : ∀ w, Inside w → Run.Finished (execute pass fuel 0 w) →
    (∃ w₁, Inside w₁ ∧ execute (fun _ => yield) fuel 0 w = .ok .yielded w₁ ∧
      ∃ fuel' < fuel, execute pass fuel' 0 w₁ = execute pass fuel 0 w) ∨
    execute (fun _ => yield) fuel 0 w = execute pass fuel 0 w := by
  induction fuel with
  | zero => exact fun _ _ finished => finished.elim
  | succ fuel ih =>
    intro w inside finished
    obtain ⟨w₁, inside₁, yields, goesOn⟩ | ⟨-, advances⟩ := cycle_cases inside
    · exact .inl ⟨w₁, inside₁, yields fuel, fuel, Nat.lt_succ_self _, (goesOn fuel).symm⟩
    · have advances := advances fuel fuel (Nat.le_refl _)
      rw [execute_succ] at finished
      rw [execute_succ, execute_succ]
      cases hc : cycle pass (again pass fuel) 0 w with
      | error e w₁ =>
        rw [hc] at finished
        rw [Advances, hc] at advances
        rw [(advances (by cases e <;> exact finished)).1]
        exact .inr rfl
      | ok c w₁ =>
        rw [hc] at finished
        rw [Advances, hc] at advances
        obtain ⟨same, -, how⟩ := advances trivial
        rw [same]
        cases how with
        | returned => exact .inr rfl
        | next inside₁ =>
          obtain ⟨w₂, inside₂, yields, fuel', less, same⟩ | same := ih w₁ inside₁ finished
          · exact .inl ⟨w₂, inside₂, yields, fuel', Nat.lt_succ_of_lt less, same⟩
          · exact .inr same

end Pausing

/-! ## Driving a script -/

/-- How a run ends: with a completed script, or with a failure. -/
inductive EndsAs : EStateM.Result Halt World Outcome → Option Failure → World → Prop
  | completed {v : Value} {w : World} : EndsAs (.ok (.completed v) w) none w
  | failed {f : Failure} {w : World} : EndsAs (.error (.failed f) w) (some f) w

/-- How a run ends when every suspension is resumed at once. -/
inductive DrivenTo : EStateM.Result Halt World Outcome → Option Failure → World → Prop
  | ended {r : EStateM.Result Halt World Outcome} {e : Option Failure} {w : World} :
      EndsAs r e w → DrivenTo r e w
  | resumed {s : Suspension} {fuel : Nat} {w w' : World} {e : Option Failure} :
      DrivenTo (resume fuel s w) e w' → DrivenTo (.ok (.yielded s) w) e w'

theorem DrivenTo.finished {r : EStateM.Result Halt World Outcome} {e : Option Failure} {w : World}
    (h : DrivenTo r e w) : Run.Finished r := by
  cases h with
  | ended h => cases h <;> trivial
  | resumed => trivial

namespace Pausing

/-- What is suspended can be taken up while no frame is in use. -/
theorem resume_eq (pause : Nat → Run Control) (fuel : Nat) (s : Suspension) (w : World) :
    resume pause fuel s w = if w.machine.frames.isEmpty then continueTop pause fuel (restored s w)
      else .error (.failed { error := .internal .running }) w := by
  have check : checkStopped w = if (!w.machine.frames.isEmpty) = true then
      .error (.failed { error := .internal .running }) w else .ok () w := by
    show (ite _ _ _ : Run Unit) w = _
    split <;> rfl
  show EStateM.bind checkStopped _ w = _
  rw [EStateM.bind, check]
  cases w.machine.frames.isEmpty <;> rfl

theorem resume_yield (fuel : Nat) (s : Suspension) :
    resume (fun _ => yield) fuel s = Run.resume fuel s := by
  unfold resume Run.resume
  rw [(machine_yield fuel).2.2.2.1]

theorem resume_vacated (fuel : Nat) (s : Suspension) {w : World} (vacant : w.machine.frames = #[]) :
    Run.resume fuel s w = continueTop (fun _ => yield) fuel (restored s w) := by
  rw [← resume_yield, resume_eq, vacant]
  rfl

theorem queueOutcome_finished {v : Value} {r : EStateM.Result Halt World (Option Suspension)}
    (h : Run.Finished (queueOutcome v r)) : Run.Finished r := by
  cases r with
  | ok => trivial
  | error e => cases e <;> exact h

/-- The end does not depend on the value. -/
theorem driven_value {v v' : Value} {r : EStateM.Result Halt World (Option Suspension)}
    {e : Option Failure} {w : World} (h : DrivenTo (queueOutcome v r) e w) :
    DrivenTo (queueOutcome v' r) e w := by
  cases r with
  | error => exact h
  | ok s w' =>
    cases s with
    | some => exact h
    | none =>
      cases h with
      | ended h =>
        cases h
        exact .ended .completed

section

variable (pause : Nat → Run Control)

/-- Going on with the script on the stack comes to this end. -/
def TopEnds (w : World) (e : Option Failure) (w' : World) : Prop :=
  ∃ fuel, DrivenTo (continueTop pause fuel w) e w'

def StartEnds (s : Script) (w : World) (e : Option Failure) (w' : World) : Prop :=
  ∃ fuel, DrivenTo (interpret pause fuel s w) e w'

def QueueEnds (w : World) (e : Option Failure) (w' : World) : Prop :=
  ∃ fuel, DrivenTo (queueOutcome .null (runQueue pause fuel w)) e w'

end

/-- When scripts have completed, none waits. -/
theorem queue_completed (pause : Nat → Run Control) (fuel : Nat) :
    (∀ w v w', continueTop pause fuel w = .ok (.completed v) w' → w'.machine.queue = []) ∧
    (∀ s w v w', interpret pause fuel s w = .ok (.completed v) w' → w'.machine.queue = []) ∧
    ∀ w w', runQueue pause fuel w = .ok none w' → w'.machine.queue = [] := by
  induction fuel with
  | zero => simp [continueTop_zero, interpret_zero, runQueue_zero]
  | succ fuel ih =>
    obtain ⟨continueTop, interpret, runQueue⟩ := ih
    refine ⟨fun w v w' done => ?_, fun s w v w' done => ?_, fun w w' done => ?_⟩
    · rw [continueTop_succ] at done
      split at done
      · unfold queueOutcome at done
        split at done <;> cases done
        rename_i emptied
        exact runQueue _ _ emptied
      all_goals cases done
    · rw [interpret_succ] at done
      split at done
      · exact continueTop _ _ _ done
      · cases done
    · rw [runQueue_succ] at done
      split at done
      · cases done
        assumption
      · split at done
        · cases done
        · exact runQueue _ _ done
        · cases done

section

variable {pause : Nat → Run Control} (self : Agree (fun _ => True) pause pause)
  {w w' : World} {e : Option Failure}

theorem QueueEnds.of_nil (empty : w.machine.queue = []) : QueueEnds pause w none w := by
  refine ⟨1, .ended ?_⟩
  rw [runQueue_succ, empty]
  exact .completed

theorem QueueEnds.of_cons {s : Script} {others : List Script} (queue : w.machine.queue = s :: others)
    (h : StartEnds pause s { w with machine.queue := others } e w') : QueueEnds pause w e w' := by
  obtain ⟨fuel, h⟩ := h
  refine ⟨fuel + 1, ?_⟩
  rw [runQueue_succ, queue]
  dsimp only
  cases hr : interpret pause fuel s { w with machine.queue := others } with
  | error e w₁ => rwa [hr] at h
  | ok r w₁ =>
    rw [hr] at h
    cases r with
    | yielded => exact h
    | completed v =>
      have empty := (queue_completed pause fuel).2.1 _ _ _ _ hr
      cases fuel with
      | zero => cases hr
      | succ fuel =>
        dsimp only
        rw [runQueue_succ, empty]
        cases h with
        | ended h =>
          cases h
          exact .ended .completed

theorem StartEnds.of_failed {s : Script} {f : Failure} (stopped : enter s w = .error (.failed f) w') :
    StartEnds pause s w (some f) w' := by
  refine ⟨1, .ended ?_⟩
  rw [interpret_succ, stopped]
  exact .failed

theorem StartEnds.of_entered {s : Script} {w₁ : World} (entered : enter s w = .ok () w₁)
    (h : TopEnds pause w₁ e w') : StartEnds pause s w e w' := by
  obtain ⟨fuel, h⟩ := h
  refine ⟨fuel + 1, ?_⟩
  rw [interpret_succ, entered]
  exact h

theorem TopEnds.of_failed {fuel : Nat} {f : Failure}
    (stopped : execute pause fuel 0 w = .error (.failed f) w') :
    TopEnds pause w (some f) (rested w') := by
  refine ⟨fuel + 1, .ended ?_⟩
  rw [continueTop_succ, stopped]
  exact .failed

include self

theorem TopEnds.of_returned (inside : Inside w) {fuel : Nat} {w₁ : World}
    (returned : execute pause fuel 0 w = .ok .returned w₁)
    (h : QueueEnds pause (rested w₁) e w') : TopEnds pause w e w' := by
  obtain ⟨fuel', h⟩ := h
  refine ⟨max fuel fuel' + 1, ?_⟩
  have loop := (self.execute (Nat.le_max_left fuel fuel') inside trivial
    (by rw [returned]; trivial)).1
  have queue := ((self.runs fuel' _ (Nat.le_max_right fuel fuel')).2.2 (rested w₁) trivial
    (queueOutcome_finished h.finished)).1
  rw [continueTop_succ, loop, returned]
  dsimp only
  rw [queue]
  exact driven_value h

end

/-! ## From the machine to the one that goes on -/

/-- A machine that goes on at a `yield` comes to one of two ends. -/
theorem TopEnds.cases_pass {w w' : World} {e : Option Failure} (inside : Inside w)
    (h : TopEnds pass w e w') :
    ∃ fuel, (∃ w₁, execute pass fuel 0 w = .ok .returned w₁ ∧ QueueEnds pass (rested w₁) e w') ∨
      ∃ f w₁, execute pass fuel 0 w = .error (.failed f) w₁ ∧ e = some f ∧ w' = rested w₁ := by
  obtain ⟨fuel, h⟩ := h
  cases fuel with
  | zero => exact h.finished.elim
  | succ fuel =>
    refine ⟨fuel, ?_⟩
    rw [continueTop_succ] at h
    cases hx : execute pass fuel 0 w with
    | error e w₁ =>
      rw [hx] at h
      cases e with
      | outOfFuel => exact h.finished.elim
      | failed f =>
        cases h with
        | ended h =>
          cases h
          exact .inr ⟨f, w₁, rfl, rfl, rfl⟩
    | ok how w₁ =>
      rw [hx] at h
      cases how with
      | returned => exact .inl ⟨w₁, rfl, fuel, driven_value h⟩
      | yielded => exact (execute_pass_ne_yielded inside hx).elim

/-- A run of the machine has an end that the other machine reaches too, or it is suspended and
whatever the other machine reaches from there, it reaches from the start. -/
def Settles (ends : Option Failure → World → Prop) : EStateM.Result Halt World Outcome → Prop
  | .ok (.completed _) w => ends none w
  | .ok (.yielded s) w => w.machine.frames = #[] ∧ Inside (restored s w) ∧
      ∀ e w', TopEnds pass (restored s w) e w' → ends e w'
  | .error (.failed f) w => ends (some f) w
  | .error .outOfFuel _ => True

theorem Settles.mono {ends ends' : Option Failure → World → Prop}
    {r : EStateM.Result Halt World Outcome} (h : Settles ends r)
    (le : ∀ e w, ends e w → ends' e w) : Settles ends' r := by
  cases r with
  | ok a w =>
    cases a with
    | completed => exact le _ _ h
    | yielded => exact ⟨h.1, h.2.1, fun e w' ended => le _ _ (h.2.2 e w' ended)⟩
  | error e w =>
    cases e with
    | failed => exact le _ _ h
    | outOfFuel => trivial

theorem settles (fuel : Nat) :
    (∀ w, Inside w → Settles (TopEnds pass w) (continueTop (fun _ => yield) fuel w)) ∧
    (∀ s w, Settles (StartEnds pass s w) (interpret (fun _ => yield) fuel s w)) ∧
    ∀ w v, Settles (QueueEnds pass w) (queueOutcome v (runQueue (fun _ => yield) fuel w)) := by
  induction fuel with
  | zero => exact ⟨fun _ _ => trivial, fun _ _ => trivial, fun _ _ => trivial⟩
  | succ fuel ih =>
    obtain ⟨continueTop, interpret, runQueue⟩ := ih
    refine ⟨fun w inside => ?_, fun s w => ?_, fun w v => ?_⟩
    · rw [continueTop_succ]
      have part := pass_of_yield fuel w inside
      cases hx : execute (fun _ => yield) fuel 0 w with
      | error e w₁ =>
        rw [hx] at part
        cases e with
        | outOfFuel => trivial
        | failed f =>
          obtain ⟨_, _, yields, -⟩ | ⟨same, -⟩ := part trivial
          · cases yields
          · exact TopEnds.of_failed same
      | ok how w₁ =>
        rw [hx] at part
        cases how with
        | returned =>
          obtain ⟨_, _, yields, -⟩ | ⟨same, -⟩ := part trivial
          · cases yields
          · exact (runQueue (rested w₁) _).mono fun e w' => TopEnds.of_returned agree_pass inside same
        | yielded =>
          obtain ⟨w₂, inside₂, yields, goesOn⟩ | ⟨-, never⟩ := part trivial
          · cases yields
            refine ⟨rfl, inside₂, fun e w' ended => ?_⟩
            obtain ⟨fuel', ⟨w₂, returned, queue⟩ | ⟨f, w₂, failed, rfl, rfl⟩⟩ :=
              TopEnds.cases_pass inside₂ ended
            · have further := goesOn fuel' (by rw [returned]; trivial)
              exact TopEnds.of_returned agree_pass inside (further.trans returned) queue
            · have further := goesOn fuel' (by rw [failed]; trivial)
              exact TopEnds.of_failed (further.trans failed)
          · exact (never w₁ rfl).elim
    · rw [interpret_succ]
      obtain ⟨f, w₁, stopped⟩ | ⟨w₁, entered, inside⟩ := enter_cases s w
      · rw [stopped]
        exact StartEnds.of_failed stopped
      · rw [entered]
        exact (continueTop w₁ inside).mono fun e w' => StartEnds.of_entered entered
    · rw [runQueue_succ]
      cases hq : w.machine.queue with
      | nil => exact QueueEnds.of_nil hq
      | cons s others =>
        dsimp only
        have run := (interpret s { w with machine.queue := others }).mono fun e w' =>
          @QueueEnds.of_cons pass _ _ _ _ _ hq
        cases hr : Pausing.interpret (fun _ => yield) fuel s { w with machine.queue := others } with
        | error => rwa [hr] at run
        | ok r w₁ =>
          rw [hr] at run
          cases r with
          | yielded => exact run
          | completed v =>
            have empty := (queue_completed _ fuel).2.1 _ _ _ _ hr
            cases fuel with
            | zero => cases hr
            | succ fuel =>
              dsimp only
              rw [runQueue_succ, empty]
              exact run

theorem Settles.driven {ends : Option Failure → World → Prop}
    {r : EStateM.Result Halt World Outcome} {e : Option Failure} {w : World}
    (driven : DrivenTo r e w) (h : Settles ends r) : ends e w := by
  induction driven generalizing ends with
  | ended ended => cases ended <;> exact h
  | @resumed s fuel w w' e _ ih =>
    obtain ⟨vacant, inside, goesOn⟩ := h
    refine goesOn _ _ (ih ?_)
    rw [resume_vacated fuel s vacant]
    exact (settles fuel).1 _ inside

/-! ## And back -/

theorem TopEnds.of_yielded {w w₁ w' : World} {e : Option Failure} {fuel : Nat}
    (yielded : execute (fun _ => yield) fuel 0 w = .ok .yielded w₁)
    (h : TopEnds (fun _ => yield) w₁ e w') : TopEnds (fun _ => yield) w e w' := by
  obtain ⟨fuel', h⟩ := h
  refine ⟨fuel + 1, ?_⟩
  rw [continueTop_succ, yielded]
  have resumed : DrivenTo (Run.resume fuel' w₁.machine.suspension (vacated w₁)) e w' := by
    rwa [resume_vacated fuel' _ rfl, restored_vacated]
  exact .resumed resumed

/-- What the machine reaches from every world from which its loop ends as the other loop does, it
reaches from the start of the other loop. -/
theorem TopEnds.of_pass {w' : World} {e : Option Failure} (fuel : Nat) (w : World)
    (inside : Inside w) (finished : Run.Finished (execute pass fuel 0 w))
    (direct : ∀ fuel' w₁, Inside w₁ →
      execute (fun _ => yield) fuel' 0 w₁ = execute pass fuel 0 w →
      TopEnds (fun _ => yield) w₁ e w') : TopEnds (fun _ => yield) w e w' := by
  induction fuel using Nat.strongRecOn generalizing w with
  | ind fuel ih =>
    obtain ⟨w₁, inside₁, yields, fuel', less, same⟩ | same := yield_of_pass fuel w inside finished
    · refine .of_yielded yields (ih fuel' less w₁ inside₁ (same ▸ finished) ?_)
      rwa [same]
    · exact direct fuel w inside same

theorem ends_of_pass (fuel : Nat) :
    (∀ w e w', Inside w → DrivenTo (continueTop pass fuel w) e w' →
      TopEnds (fun _ => yield) w e w') ∧
    (∀ s w e w', DrivenTo (interpret pass fuel s w) e w' →
      StartEnds (fun _ => yield) s w e w') ∧
    ∀ w v e w', DrivenTo (queueOutcome v (runQueue pass fuel w)) e w' →
      QueueEnds (fun _ => yield) w e w' := by
  induction fuel with
  | zero => exact ⟨fun _ _ _ _ h => h.finished.elim, fun _ _ _ _ h => h.finished.elim,
      fun _ _ _ _ h => h.finished.elim⟩
  | succ fuel ih =>
    obtain ⟨continueTop, interpret, runQueue⟩ := ih
    refine ⟨fun w e w' inside h => ?_, fun s w e w' h => ?_, fun w v e w' h => ?_⟩
    · rw [continueTop_succ] at h
      cases hx : execute pass fuel 0 w with
      | error e w₁ =>
        rw [hx] at h
        cases e with
        | outOfFuel => exact h.finished.elim
        | failed f =>
          refine .of_pass fuel w inside (by rw [hx]; trivial) fun fuel' w₂ _ same => ?_
          cases h with
          | ended h =>
            cases h
            exact TopEnds.of_failed (same.trans hx)
      | ok how w₁ =>
        rw [hx] at h
        refine .of_pass fuel w inside (by rw [hx]; trivial) fun fuel' w₂ inside₂ same => ?_
        cases how with
        | returned =>
          exact TopEnds.of_returned agree_yield inside₂ (same.trans hx) (runQueue _ _ e w' h)
        | yielded => exact (execute_pass_ne_yielded inside hx).elim
    · rw [interpret_succ] at h
      obtain ⟨f, w₁, stopped⟩ | ⟨w₁, entered, inside⟩ := enter_cases s w
      · rw [stopped] at h
        cases h with
        | ended h =>
          cases h
          exact .of_failed stopped
      · rw [entered] at h
        exact .of_entered entered (continueTop w₁ e w' inside h)
    · rw [runQueue_succ] at h
      cases hq : w.machine.queue with
      | nil =>
        rw [hq] at h
        cases h with
        | ended h =>
          cases h
          exact .of_nil hq
      | cons s others =>
        rw [hq] at h
        refine .of_cons hq (interpret s _ e w' ?_)
        dsimp only at h
        cases hr : Pausing.interpret pass fuel s { w with machine.queue := others } with
        | error => rwa [hr] at h
        | ok r w₁ =>
          rw [hr] at h
          cases r with
          | yielded => exact h
          | completed v =>
            have empty := (queue_completed _ fuel).2.1 _ _ _ _ hr
            cases fuel with
            | zero => cases hr
            | succ fuel =>
              dsimp only at h
              rw [runQueue_succ, empty] at h
              cases h with
              | ended h =>
                cases h
                exact .ended .completed

/-- A machine that goes on at a `yield` is never suspended. -/
theorem never_yielded (fuel : Nat) :
    (∀ w s w', Inside w → continueTop pass fuel w ≠ .ok (.yielded s) w') ∧
    (∀ script w s w', interpret pass fuel script w ≠ .ok (.yielded s) w') ∧
    ∀ w s w', runQueue pass fuel w ≠ .ok (some s) w' := by
  induction fuel with
  | zero => simp [continueTop_zero, interpret_zero, runQueue_zero]
  | succ fuel ih =>
    obtain ⟨continueTop, interpret, runQueue⟩ := ih
    refine ⟨fun w s w' inside eq => ?_, fun script w s w' eq => ?_, fun w s w' eq => ?_⟩
    · rw [continueTop_succ] at eq
      split at eq
      · unfold queueOutcome at eq
        split at eq <;> cases eq
        rename_i stopped
        exact runQueue _ _ _ stopped
      · rename_i yielded
        exact execute_pass_ne_yielded inside yielded
      all_goals cases eq
    · rw [interpret_succ] at eq
      obtain ⟨f, w₁, stopped⟩ | ⟨w₁, entered, inside⟩ := enter_cases script w
      · rw [stopped] at eq
        cases eq
      · rw [entered] at eq
        exact continueTop w₁ s w' inside eq
    · rw [runQueue_succ] at eq
      split at eq
      · cases eq
      · split at eq
        · rename_i hr
          cases eq
          exact interpret _ _ _ _ hr
        · exact runQueue _ _ _ eq
        · cases eq

/-! ## What a suspended machine holds -/

/-- What is left in the machine after a `yield`: nothing, for the suspension has it. -/
def AtRest (s : Suspension) (w : World) : Prop :=
  w.machine.reset = w.machine ∧ 0 < s.frames.size

theorem yielded_atRest (fuel : Nat) :
    (∀ w s w', Inside w → w.machine.currentSet = none →
      continueTop (fun _ => yield) fuel w = .ok (.yielded s) w' → AtRest s w') ∧
    (∀ script w s w', w.machine.currentSet = none →
      interpret (fun _ => yield) fuel script w = .ok (.yielded s) w' → AtRest s w') ∧
    ∀ w s w', w.machine.currentSet = none →
      runQueue (fun _ => yield) fuel w = .ok (some s) w' → AtRest s w' := by
  induction fuel with
  | zero => simp [continueTop_zero, interpret_zero, runQueue_zero]
  | succ fuel ih =>
    obtain ⟨continueTop, interpret, runQueue⟩ := ih
    refine ⟨fun w s w' inside none eq => ?_, fun script w s w' none eq => ?_,
      fun w s w' none eq => ?_⟩
    · rw [continueTop_succ] at eq
      split at eq
      · unfold queueOutcome at eq
        split at eq <;> cases eq
        rename_i stopped
        exact runQueue _ _ _ rfl stopped
      · rename_i w₁ hx
        obtain ⟨w₂, none, inside₂, yields⟩ := (agree_topOnly.execute (Nat.le_refl fuel) inside none
          (by rw [hx]; trivial)).2.2 w₁ hx
        rw [yield_eq] at yields
        split at yields <;> cases yields
        cases eq
        refine ⟨?_, inside₂⟩
        simp [vacated, Machine.reset, Machine.restore, *]
      all_goals cases eq
    · rw [interpret_succ] at eq
      have steady := keeps_enter script w
      obtain ⟨f, w₁, stopped⟩ | ⟨w₁, entered, inside⟩ := enter_cases script w
      · rw [stopped] at eq
        cases eq
      · rw [entered] at eq steady
        exact continueTop w₁ s w' inside (steady.currentSet.trans none) eq
    · rw [runQueue_succ] at eq
      cases hq : w.machine.queue with
      | nil =>
        rw [hq] at eq
        cases eq
      | cons script others =>
        rw [hq] at eq
        dsimp only at eq
        let w₀ : World := { w with machine.queue := others }
        have none₀ : w₀.machine.currentSet = .none := none
        have run := (agree_topOnly.runs fuel fuel (Nat.le_refl fuel)).2.1 script w₀ none₀
        cases hr : Pausing.interpret (fun _ => yield) fuel script w₀ with
        | error =>
          rw [hr] at eq
          cases eq
        | ok r w₁ =>
          rw [hr] at eq
          rw [Same, hr] at run
          cases r with
          | yielded =>
            cases eq
            exact interpret script w₀ s w' none₀ hr
          | completed => exact runQueue w₁ s w' (run trivial).2 eq

/-- A loop that yields has no host call in progress and leaves the current set alone. -/
theorem execute_yielded {fuel stop : Nat} {w w' : World} (above : stop < w.machine.frames.size)
    (yielded : Run.execute fuel stop w = .ok .yielded w') :
    w.machine.hostCalls = 0 ∧ w'.machine.hostCalls = 0 ∧
      w'.machine.currentSet = w.machine.currentSet := by
  rw [← (machine_yield fuel).1] at yielded
  have agree (w₁ : World) (_ : w₁.machine.hostCalls = w.machine.hostCalls ∧
      w₁.machine.currentSet = w.machine.currentSet) : (fun _ => yield) stop w₁ = (fun _ => yield) stop w₁ := rfl
  have loop := execute_tracks
    (fun _ _ hostCalls currentSet same => ⟨hostCalls.trans same.1, currentSet.trans same.2⟩)
    agree (fun w₁ _ => calms_yield.keeps w₁)
    (fun n _ m le => follows_again refuses_yield refuses_yield n m le) fuel (Nat.le_refl fuel) w
    above ⟨rfl, rfl⟩ (by rw [yielded]; trivial)
  obtain ⟨w₁, same, -, yields⟩ := loop.2.2 w' yielded
  rw [yield_eq] at yields
  split at yields <;> cases yields
  rename_i none
  exact ⟨same.1.symm.trans none, none, same.2⟩

end Pausing

/-- Driving a script, resuming every suspension at once, ends as running it on a machine that
goes on at a `yield`: both end or neither does, and with the same world, failed or completed.
Nothing is asked of the world.

While no test set is current when the script starts, a machine that yields in the outermost loop
only, in no host call and with no current set, does the same. So does it with a script that is
taken up again, and a suspended machine holds nothing of the execution. -/
theorem resuming_at_once (w : World) :
    (∀ s e w', (∃ fuel, DrivenTo (interpret fuel s w) e w') ↔
      ∃ fuel, EndsAs (Pausing.interpret Pausing.pass fuel s w) e w') ∧
    (∀ fuel stop w', stop < w.machine.frames.size → execute fuel stop w = .ok .yielded w' →
      w.machine.hostCalls = 0 ∧ w'.machine.hostCalls = 0 ∧
        w'.machine.currentSet = w.machine.currentSet) ∧
    (w.machine.currentSet = none → ∀ fuel,
      (∀ s, Run.Finished (interpret fuel s w) →
        Pausing.interpret Pausing.topOnly fuel s w = interpret fuel s w ∧
          ∀ suspension w', interpret fuel s w = .ok (.yielded suspension) w' →
            Pausing.AtRest suspension w') ∧
      ∀ s, 0 < s.frames.size → Run.Finished (resume fuel s w) →
        Pausing.resume Pausing.topOnly fuel s w = resume fuel s w ∧
          ∀ suspension w', resume fuel s w = .ok (.yielded suspension) w' →
            Pausing.AtRest suspension w') := by
  refine ⟨fun s e w' => ⟨?_, ?_⟩, fun fuel stop w' => Pausing.execute_yielded, fun none fuel => ?_⟩
  · rintro ⟨fuel, driven⟩
    rw [← (Pausing.machine_yield fuel).2.2.1] at driven
    obtain ⟨fuel', ended⟩ := Pausing.Settles.driven driven ((Pausing.settles fuel).2.1 s w)
    refine ⟨fuel', ?_⟩
    cases hr : Pausing.interpret Pausing.pass fuel' s w with
    | error =>
      rw [hr] at ended
      cases ended with
      | ended h => exact h
    | ok r w₁ =>
      cases r with
      | yielded => exact ((Pausing.never_yielded fuel').2.1 _ _ _ _ hr).elim
      | completed =>
        rw [hr] at ended
        cases ended with
        | ended h => exact h
  · rintro ⟨fuel, ended⟩
    obtain ⟨fuel', driven⟩ := (Pausing.ends_of_pass fuel).2.1 s w e w' (.ended ended)
    exact ⟨fuel', (Pausing.machine_yield fuel').2.2.1 s ▸ driven⟩
  · obtain ⟨continueTop, interpret, -⟩ :=
      Pausing.agree_topOnly.runs fuel fuel (Nat.le_refl fuel)
    obtain ⟨continueTop_rests, interpret_rests, -⟩ := Pausing.yielded_atRest fuel
    refine ⟨fun s finished => ?_, fun s frames finished => ?_⟩
    · rw [← (Pausing.machine_yield fuel).2.2.1] at finished ⊢
      exact ⟨(interpret s w none finished).1, fun suspension w' => interpret_rests s w _ w' none⟩
    · rw [← Pausing.resume_yield, Pausing.resume_eq] at finished
      rw [← Pausing.resume_yield, Pausing.resume_eq, Pausing.resume_eq]
      split
      · rename_i vacant
        rw [if_pos vacant] at finished
        exact ⟨(continueTop (Pausing.restored s w) frames none finished).1,
          fun suspension w' => continueTop_rests (Pausing.restored s w) _ w' frames none⟩
      · exact ⟨rfl, nofun⟩

end ScriptEngine
