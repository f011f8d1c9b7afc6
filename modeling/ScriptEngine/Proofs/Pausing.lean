import ScriptEngine.Proofs.Reentering

/-!
# Machines that differ at a yield

`Pausing` has the loop of the machine with what it does at a `yield` as a
parameter, which may depend on the depth at which the loop stops. With
`Run.yield` it is the machine itself (`execute_yield` and its neighbours).

In a host call no machine that refuses to yield there can be told from another:
the loops of calls have host calls in progress, so they do the same and never
end with a yield. This is an induction on the steps that a call is given, whose
invariant is that a loop stays above the depth at which it stops.
-/
namespace ScriptEngine

namespace Pausing

open Run

section

variable (pause : Nat → Run Control)

def cycle (again : Reentry) (stop : Nat) : Run Control := do
  let i ← fetch
  located (if i = .yield then pause stop else step again stop i)

mutual

def execute : Nat → Nat → Run Exit
  | 0, _ => throw .outOfFuel
  | fuel + 1, stop => do
    match ← cycle pause ⟨call fuel, fun s => discard (interpret fuel s)⟩ stop with
    | .next => execute fuel stop
    | .exit how => return how

def call : Nat → Value → List Value → Run (List Value)
  | 0, _, _ => throw .outOfFuel
  | fuel + 1, callee, args => hostCall callee args fun depth => do
    callTop ⟨call fuel, fun s => discard (interpret fuel s)⟩ args.length
    untilReturned (execute fuel depth) depth

def interpret : Nat → Script → Run Outcome
  | 0, _ => throw .outOfFuel
  | fuel + 1, s => do
    enter s
    continueTop fuel

def continueTop : Nat → Run Outcome
  | 0 => throw .outOfFuel
  | fuel + 1 => do
    match ← attempt (execute fuel 0) with
    | .ok .returned => do
      let v ← finished
      match ← runQueue fuel with
      | some suspension => return .yielded suspension
      | none => return .completed v
    | .ok .yielded => return .yielded (← suspend)
    | .error f => do
      modifyMachine Machine.reset
      raise f

def runQueue : Nat → Run (Option Suspension)
  | 0 => throw .outOfFuel
  | fuel + 1 => do
    match ← nextQueued with
    | none => return none
    | some s =>
      match ← interpret fuel s with
      | .yielded suspension => return some suspension
      | .completed _ => runQueue fuel

end

def resume (fuel : Nat) (s : Suspension) : Run Outcome := do
  checkStopped
  modifyMachine (·.restore s)
  continueTop pause fuel

/-- The ways back into the machine that its instructions are given. -/
def again (fuel : Nat) : Reentry :=
  ⟨call pause fuel, fun s => discard (interpret pause fuel s)⟩

end

/-! ## The machine itself -/

theorem cycle_yield (again : Reentry) (stop : Nat) :
    cycle (fun _ => yield) again stop = Run.cycle again stop := by
  unfold cycle Run.cycle
  congr 1
  funext i
  split
  · subst i
    rfl
  · rfl

theorem machine_yield (fuel : Nat) :
    (∀ stop, execute (fun _ => yield) fuel stop = Run.execute fuel stop) ∧
    (∀ callee args, call (fun _ => yield) fuel callee args = Run.call fuel callee args) ∧
    (∀ s, interpret (fun _ => yield) fuel s = Run.interpret fuel s) ∧
    continueTop (fun _ => yield) fuel = Run.continueTop fuel ∧
    runQueue (fun _ => yield) fuel = Run.runQueue fuel := by
  induction fuel with
  | zero => exact ⟨fun _ => rfl, fun _ _ => rfl, fun _ => rfl, rfl, rfl⟩
  | succ fuel ih =>
    obtain ⟨execute_eq, call_eq, interpret_eq, continueTop_eq, runQueue_eq⟩ := ih
    have call_eq : call (fun _ => yield) fuel = Run.call fuel := by
      funext callee args
      exact call_eq callee args
    refine ⟨fun stop => ?_, fun callee args => ?_, fun s => ?_, ?_, ?_⟩
    · simp only [execute, Run.execute, cycle_yield, call_eq, interpret_eq, execute_eq] <;> rfl
    · simp only [call, Run.call, call_eq, interpret_eq, execute_eq]
    · simp only [interpret, Run.interpret, continueTop_eq]
    · simp only [continueTop, Run.continueTop, execute_eq, runQueue_eq] <;> rfl
    · simp only [runQueue, Run.runQueue, interpret_eq, runQueue_eq] <;> rfl

/-! ## One cycle of a loop -/

/-- As `Steady`, but frames above `stop` may have returned. -/
structure Within (stop : Nat) (w w' : World) : Prop where
  depth : stop ≤ w'.machine.frames.size
  hostCalls : w'.machine.hostCalls = w.machine.hostCalls
  currentSet : w'.machine.currentSet = w.machine.currentSet
  settings : w'.machine.settings = w.machine.settings

theorem Within.of_steady {stop : Nat} {w w' : World} (above : stop ≤ w.machine.frames.size)
    (h : Steady w w') : Within stop w w' :=
  ⟨Nat.le_trans above h.depth, h.hostCalls, h.currentSet, h.settings⟩

theorem Within.after {stop : Nat} {w w' w'' : World} (h : Steady w w') (h' : Within stop w' w'') :
    Within stop w w'' :=
  ⟨h'.depth, h'.hostCalls.trans h.hostCalls, h'.currentSet.trans h.currentSet, h'.settings.trans h.settings⟩

theorem Within.trans {stop : Nat} {w w' w'' : World} (h : Within stop w w')
    (h' : Within stop w' w'') : Within stop w w'' :=
  ⟨h'.depth, h'.hostCalls.trans h.hostCalls, h'.currentSet.trans h.currentSet, h'.settings.trans h.settings⟩

/-- How the loop that stops at `stop` may go on after an instruction other than `yield`. -/
inductive GoesOn (stop : Nat) : EStateM.Result Halt World Control → Prop
  | next {w : World} : stop < w.machine.frames.size → GoesOn stop (.ok .next w)
  | returned {w : World} : GoesOn stop (.ok (.exit .returned) w)
  | stopped {e : Halt} {w : World} : GoesOn stop (.error e w)

/-- From worlds with at least `depth` frames `x` ends within the loop. -/
def Ends (depth stop : Nat) (x : Run Control) : Prop :=
  ∀ w, depth ≤ w.machine.frames.size → Within stop w (left (x w)) ∧ GoesOn stop (x w)

theorem Ends.bind {α : Type} {depth stop : Nat} {x : Run α} {f : α → Run Control} (first : Keeps x)
    (above : stop ≤ depth) (then_ : ∀ a, Ends depth stop (f a)) : Ends depth stop (x >>= f) := by
  intro w hw
  have steady := first w
  show Within stop w (left (EStateM.bind x f w)) ∧ GoesOn stop (EStateM.bind x f w)
  unfold EStateM.bind
  cases hx : x w with
  | error e w' =>
    rw [hx] at steady
    exact ⟨.of_steady (Nat.le_trans above hw) steady, .stopped⟩
  | ok a w' =>
    rw [hx] at steady
    obtain ⟨within, goesOn⟩ := then_ a w' (Nat.le_trans hw steady.depth)
    exact ⟨within.after steady, goesOn⟩

/-- A return takes one frame away, and the loop goes on while it is above its end. -/
theorem ends_returnFrom (count stop : Nat) : Ends (stop + 1) stop (returnFrom count stop) := by
  refine .bind (calms_popMany count).keeps (Nat.le_succ stop) fun results => ?_
  have asked : Ends stop stop (do return if (← depth) ≤ stop then .exit .returned else .next) := by
    intro w hw
    refine ⟨.of_steady hw (.refl w), ?_⟩
    show GoesOn stop (.ok (if w.machine.frames.size ≤ stop then .exit .returned else .next) w)
    split
    · exact .returned
    · exact .next (by omega)
  have popped (f : Frame → Run Control) (then_ : ∀ a, Ends stop stop (f a)) :
      Ends (stop + 1) stop (popFrame >>= f) := by
    intro w hw
    show Within stop w (left (EStateM.bind popFrame f w)) ∧ GoesOn stop (EStateM.bind popFrame f w)
    unfold EStateM.bind popFrame
    cases w.machine.frames.back? with
    | none => exact ⟨.of_steady (Nat.le_of_succ_le hw) (.refl w), .stopped⟩
    | some a =>
      obtain ⟨within, goesOn⟩ := then_ a { w with machine.frames := w.machine.frames.pop }
        (by simpa using Nat.le_sub_of_add_le hw)
      exact ⟨⟨within.depth, within.hostCalls, within.currentSet, within.settings⟩, goesOn⟩
  refine popped _ fun f => .bind (calms_closeFrom _).keeps (Nat.le_refl _) fun _ =>
    .bind (calms_truncate _).keeps (Nat.le_refl _) fun _ => ?_
  split
  · exact .bind (calms_pushResults _ _).keeps (Nat.le_refl _) fun _ => asked
  · exact asked

/-- What `x` does from a world in the loop, `y` does too, unless `x` uses up its steps. -/
def Advances (stop : Nat) (x y : Run Control) (w : World) : Prop :=
  Run.Finished (x w) → y w = x w ∧ Within stop w (left (x w)) ∧ GoesOn stop (x w)

theorem advances_step {again again' : Reentry} (h : Run.Follows again again') {i : Instruction}
    (not_yield : i ≠ .yield) {stop : Nat} {w : World} (above : stop < w.machine.frames.size) :
    Advances stop (step again stop i) (step again' stop i) w := by
  intro finished
  obtain ⟨count, rfl⟩ | rfl | plainly := step_cases i
  · obtain ⟨within, goesOn⟩ := ends_returnFrom _ stop w above
    exact ⟨rfl, within, goesOn⟩
  · exact absurd rfl not_yield
  · rw [plainly] at finished
    rw [plainly, plainly]
    have tracks := (h.plain i).bind fun _ => Run.Tracks.of_keeps (.pure Control.next)
    obtain ⟨same, steady⟩ := tracks w (Nat.zero_lt_of_lt above) finished
    refine ⟨same, .of_steady (Nat.le_of_lt above) steady, ?_⟩
    change GoesOn stop (EStateM.bind _ _ w)
    change Steady w (left (EStateM.bind _ _ w)) at steady
    unfold EStateM.bind at steady ⊢
    cases hp : plain again i w with
    | error => exact .stopped
    | ok a w' =>
      rw [hp] at steady
      exact .next (Nat.lt_of_lt_of_le above steady.depth)

theorem Advances.located {stop : Nat} {x y : Run Control} {w : World} (h : Advances stop x y w) :
    Advances stop (located x) (located y) w := by
  intro finished
  unfold Run.located at finished ⊢
  cases hx : x w with
  | ok c w' =>
    rw [Advances, hx] at h
    obtain ⟨same, within, goesOn⟩ := h trivial
    rw [same]
    exact ⟨rfl, within, goesOn⟩
  | error e w' =>
    rw [hx] at finished
    rw [Advances, hx] at h
    cases e with
    | outOfFuel => exact finished.elim
    | failed f =>
      obtain ⟨same, within, -⟩ := h trivial
      rw [same]
      exact ⟨rfl, within, .stopped⟩

theorem cycle_of_fetch {pause : Nat → Run Control} {again : Reentry} {stop : Nat}
    {i : Instruction} {w w₁ : World} (fetched : fetch w = .ok i w₁) :
    cycle pause again stop w =
      located (if i = .yield then pause stop else step again stop i) w₁ := by
  show EStateM.bind fetch _ w = _
  simp only [EStateM.bind, fetched]

/-- Only at a `yield` do two machines part. -/
theorem advances_cycle {pause pause' : Nat → Run Control} {again again' : Reentry}
    (h : Run.Follows again again') {stop : Nat} {w : World} (above : stop < w.machine.frames.size)
    (not_yield : ∀ w₁, fetch w ≠ .ok .yield w₁) :
    Advances stop (cycle pause again stop) (cycle pause' again' stop) w := by
  have steady := keeps_fetch w
  cases fetched : fetch w with
  | error e w₁ =>
    have stopped (pause : Nat → Run Control) (again : Reentry) :
        cycle pause again stop w = .error e w₁ := by
      show EStateM.bind fetch _ w = _
      simp only [EStateM.bind, fetched]
    rw [fetched] at steady
    rw [Advances, stopped, stopped]
    exact fun _ => ⟨rfl, .of_steady (Nat.le_of_lt above) steady, .stopped⟩
  | ok i w₁ =>
    rw [fetched] at steady
    have other : i ≠ .yield := fun eq => not_yield w₁ (eq ▸ fetched)
    rw [Advances, cycle_of_fetch fetched, cycle_of_fetch fetched, if_neg other, if_neg other]
    intro finished
    have above₁ := Nat.lt_of_lt_of_le above steady.depth
    obtain ⟨same, within, goesOn⟩ := (advances_step h other above₁).located finished
    exact ⟨same, within.after steady, goesOn⟩

/-! ## Loops -/

theorem execute_succ (pause : Nat → Run Control) (fuel stop : Nat) (w : World) :
    execute pause (fuel + 1) stop w = match cycle pause (again pause fuel) stop w with
      | .ok .next w' => execute pause fuel stop w'
      | .ok (.exit how) w' => .ok how w'
      | .error e w' => .error e w' := by
  show EStateM.bind (cycle pause (again pause fuel) stop) _ w = _
  unfold EStateM.bind
  cases cycle pause (again pause fuel) stop w with
  | error => rfl
  | ok c w' => cases c <;> rfl

/-- A condition on the host calls in progress and the current set, which an instruction keeps. -/
def Lasting (P : World → Prop) : Prop :=
  ∀ ⦃w w' : World⦄, w'.machine.hostCalls = w.machine.hostCalls →
    w'.machine.currentSet = w.machine.currentSet → P w → P w'

theorem lasting_calling : Lasting fun w => 0 < w.machine.hostCalls := by
  intro w w' hostCalls _ calling
  rwa [hostCalls]

/-- Where two machines do the same at a `yield`, their loops do the same, and end with one only
where the first of them does. -/
theorem execute_tracks {pause pause' : Nat → Run Control} {stop : Nat} {P : World → Prop}
    (lasting : Lasting P) (agree : ∀ w, P w → pause' stop w = pause stop w)
    (keeps : ∀ w, P w → Steady w (left (pause stop w))) {fuel : Nat}
    (follows : ∀ n < fuel, ∀ m ≥ n, Run.Follows (again pause n) (again pause' m)) :
    ∀ fuel', fuel ≤ fuel' → ∀ w, stop < w.machine.frames.size → P w →
      Run.Finished (execute pause fuel stop w) →
      execute pause' fuel' stop w = execute pause fuel stop w ∧
        Within stop w (left (execute pause fuel stop w)) ∧
        ∀ w', execute pause fuel stop w = .ok .yielded w' →
          ∃ w₁, P w₁ ∧ stop < w₁.machine.frames.size ∧ pause stop w₁ = .ok (.exit .yielded) w' := by
  induction fuel with
  | zero => exact fun _ _ _ _ _ finished => finished.elim
  | succ fuel ih =>
    intro fuel' le w above hP finished
    obtain ⟨fuel', rfl⟩ : ∃ m, fuel' = m + 1 := ⟨fuel' - 1, by omega⟩
    have le := Nat.le_of_succ_le_succ le
    have ih := ih fun n hn m hm => follows n (Nat.lt_succ_of_lt hn) m hm
    have next {w₁ : World} (within : Within stop w w₁) (above₁ : stop < w₁.machine.frames.size)
        (finished : Run.Finished (execute pause fuel stop w₁)) :=
      ih fuel' le w₁ above₁ (lasting within.hostCalls within.currentSet hP) finished
    rw [execute_succ] at finished
    rw [execute_succ, execute_succ]
    by_cases at_yield : ∃ w₁, fetch w = .ok .yield w₁
    · obtain ⟨w₁, fetched⟩ := at_yield
      have steady := keeps_fetch w
      rw [fetched] at steady
      have within : Within stop w w₁ := .of_steady (Nat.le_of_lt above) steady
      have above₁ := Nat.lt_of_lt_of_le above steady.depth
      have hP₁ := lasting steady.hostCalls steady.currentSet hP
      have steady₁ := keeps w₁ hP₁
      simp only [cycle_of_fetch fetched, if_true, located, agree w₁ hP₁] at finished ⊢
      cases hy : pause stop w₁ with
      | error e w₂ =>
        rw [hy] at steady₁
        cases e <;> exact ⟨rfl, within.trans (.of_steady (Nat.le_of_lt above₁) steady₁), fun _ same => by cases same⟩
      | ok c w₂ =>
        rw [hy] at steady₁ finished
        have within₂ := within.trans (.of_steady (Nat.le_of_lt above₁) steady₁)
        cases c with
        | next =>
          obtain ⟨same, within', yields⟩ :=
            next within₂ (Nat.lt_of_lt_of_le above₁ steady₁.depth) finished
          exact ⟨same, within₂.trans within', yields⟩
        | exit how =>
          refine ⟨rfl, within₂, fun w' eq => ?_⟩
          cases eq
          exact ⟨w₁, hP₁, above₁, hy⟩
    · have advances : Advances stop (cycle pause (again pause fuel) stop) (cycle pause' (again pause' fuel') stop) w :=
        advances_cycle (follows fuel (Nat.lt_succ_self _) fuel' le) above fun w₁ eq => at_yield ⟨w₁, eq⟩
      cases hc : cycle pause (again pause fuel) stop w with
      | error e w₁ =>
        rw [hc] at finished
        rw [Advances, hc] at advances
        obtain ⟨same, within, -⟩ := advances (by cases e <;> exact finished)
        rw [same]
        exact ⟨rfl, within, fun _ same => by cases same⟩
      | ok c w₁ =>
        rw [hc] at finished
        rw [Advances, hc] at advances
        obtain ⟨same, within, goesOn⟩ := advances trivial
        rw [same]
        cases goesOn with
        | next above₁ =>
          obtain ⟨same', within', yields⟩ := next within above₁ finished
          exact ⟨same', within.trans within', yields⟩
        | returned => exact ⟨rfl, within, fun _ same => by cases same⟩

/-! ## Host calls -/

/-- A machine that fails at a `yield` in a host call. -/
def Refuses (pause : Nat → Run Control) : Prop :=
  ∀ stop w, 0 < w.machine.hostCalls →
    pause stop w = .error (.failed { error := .yieldInHostCall }) w

/-- The rest of a host call that began at `base`, once its body has come to an end. -/
def conclude (base depth marks : Nat) (outcome : Except Failure Unit) : Run (List Value) := do
  modifyMachine fun m =>
    { m with hostCalls := m.hostCalls - 1, marks := m.marks.drop (m.marks.length - marks) }
  match outcome with
  | .ok () => takeFrom base
  | .error f =>
    closeFrom base
    modifyMachine fun m => { m with frames := m.frames.shrink depth }
    truncate base
    raise f

/-- A world in which the host call of `callee` has begun. -/
def begun (callee : Value) (args : List Value) (w : World) : World :=
  { w with
    machine.stack := w.machine.stack.push callee ++ args
    machine.marks := w.machine.stack.size :: w.machine.marks
    machine.hostCalls := w.machine.hostCalls + 1 }

theorem hostCall_eq (callee : Value) (args : List Value) (body : Nat → Run Unit) (w : World) :
    hostCall callee args body w = EStateM.bind (attempt (body w.machine.frames.size))
      (conclude w.machine.stack.size w.machine.frames.size w.machine.marks.length)
      (begun callee args w) := rfl

theorem conclude_within {base depth marks : Nat} {w w' : World} (outcome : Except Failure Unit)
    (above : depth ≤ w'.machine.frames.size)
    (hostCalls : w'.machine.hostCalls = w.machine.hostCalls + 1)
    (currentSet : w'.machine.currentSet = w.machine.currentSet)
    (settings : w'.machine.settings = w.machine.settings) :
    Within depth w (left (conclude base depth marks outcome w')) := by
  let w₁ : World := { w' with
    machine.hostCalls := w'.machine.hostCalls - 1
    machine.marks := w'.machine.marks.drop (w'.machine.marks.length - marks) }
  have fewer : w₁.machine.hostCalls = w.machine.hostCalls := by simp [w₁, hostCalls]
  cases outcome with
  | ok => exact ⟨above, fewer, currentSet, settings⟩
  | error f =>
    have enter : conclude base depth marks (.error f) w' = (do
        closeFrom base
        modifyMachine fun m => { m with frames := m.frames.shrink depth }
        truncate base
        raise f : Run (List Value)) w₁ := rfl
    have steady := (calms_closeFrom base).keeps w₁
    rw [enter]
    show Within depth w (left (EStateM.bind _ _ w₁))
    unfold EStateM.bind
    cases hc : closeFrom base w₁ with
    | error => unfold closeFrom at hc; split at hc <;> cases hc
    | ok _ w₂ =>
      rw [hc] at steady
      refine ⟨?_, steady.hostCalls.trans fewer, steady.currentSet.trans currentSet,
        steady.settings.trans settings⟩
      have kept := Nat.le_min.mpr ⟨Nat.le_refl depth, Nat.le_trans above steady.depth⟩
      change depth ≤ (w₂.machine.frames.shrink depth).size
      rw [Array.size_shrink]
      exact kept

theorem hostCall_tracks {body body' : Nat → Run Unit}
    (inner : ∀ depth w, 0 < depth → depth ≤ w.machine.frames.size → 0 < w.machine.hostCalls →
      Run.Finished (body depth w) →
      body' depth w = body depth w ∧ Within depth w (left (body depth w)))
    (callee : Value) (args : List Value) :
    Run.Tracks (hostCall callee args body) (hostCall callee args body') := by
  intro w inside finished
  rw [hostCall_eq] at finished
  rw [hostCall_eq, hostCall_eq]
  have inner := inner w.machine.frames.size (begun callee args w) inside (Nat.le_refl _)
    (Nat.succ_pos _)
  unfold EStateM.bind attempt at finished ⊢
  cases hb : body w.machine.frames.size (begun callee args w) with
  | ok a w₁ =>
    rw [hb] at inner
    obtain ⟨same, within⟩ := inner trivial
    obtain ⟨depth, hostCalls, currentSet, settings⟩ :=
      conclude_within (.ok ()) within.depth within.hostCalls within.currentSet within.settings
    rw [same]
    exact ⟨rfl, depth, hostCalls, currentSet, settings⟩
  | error e w₁ =>
    rw [hb] at inner finished
    cases e with
    | outOfFuel => exact finished.elim
    | failed f =>
      obtain ⟨same, within⟩ := inner trivial
      obtain ⟨depth, hostCalls, currentSet, settings⟩ :=
        conclude_within (.error f) within.depth within.hostCalls within.currentSet within.settings
      rw [same]
      exact ⟨rfl, depth, hostCalls, currentSet, settings⟩

theorem untilReturned_eq (x : Run Exit) (depth : Nat) (w : World) : untilReturned x depth w =
    if depth < w.machine.frames.size then
      match x w with
      | .ok .returned w' => .ok () w'
      | .ok .yielded w' => .error (.failed { error := .yieldInHostCall }) w'
      | .error e w' => .error e w'
    else .ok () w := by
  show (if depth < w.machine.frames.size then x >>= _ else pure ()) w = _
  split
  · show EStateM.bind x _ w = _
    unfold EStateM.bind
    cases x w with
    | error => rfl
    | ok how => cases how <;> rfl
  · rfl

theorem untilReturned_tracks {x y : Run Exit} {depth : Nat} {w : World}
    (above : depth ≤ w.machine.frames.size)
    (inner : depth < w.machine.frames.size → Run.Finished (x w) →
      y w = x w ∧ Within depth w (left (x w)))
    (finished : Run.Finished (untilReturned x depth w)) :
    untilReturned y depth w = untilReturned x depth w ∧
      Within depth w (left (untilReturned x depth w)) := by
  rw [untilReturned_eq] at finished
  rw [untilReturned_eq, untilReturned_eq]
  split at finished
  · rename_i more
    simp only [more, if_true]
    have inner := inner more
    cases hx : x w with
    | ok how w' =>
      rw [hx] at inner
      obtain ⟨same, within⟩ := inner trivial
      rw [same]
      cases how <;> exact ⟨rfl, within⟩
    | error e w' =>
      rw [hx] at inner finished
      obtain ⟨same, within⟩ := inner (by cases e <;> exact finished)
      rw [same]
      exact ⟨rfl, within⟩
  · rename_i no_more
    simp only [no_more, if_false, true_and]
    exact .of_steady above (.refl w)

/-- A script cannot be started while a frame is in use. -/
theorem interpret_refused (pause : Nat → Run Control) (fuel : Nat) (s : Script) {w : World}
    (inside : Inside w) :
    discard (interpret pause (fuel + 1) s) w =
      .error (.failed { error := .internal .running }) w := by
  have busy : w.machine.frames.isEmpty = false := by
    simpa [Array.isEmpty, Inside, Nat.pos_iff_ne_zero] using inside
  have refused : checkStopped w = .error (.failed { error := .internal .running }) w := by
    show (if (!w.machine.frames.isEmpty) = true then _ else _ : Run Unit) w = _
    rw [busy]
    rfl
  show EStateM.map _ (EStateM.bind (EStateM.bind checkStopped _) _) w = _
  simp only [EStateM.map, EStateM.bind, refused]

/-- The body of a host call: what it calls, and then its loop. -/
theorem body_tracks {again again' : Reentry} (h : Run.Follows again again') {x y : Run Exit} {argc depth : Nat}
    {w : World} (positive : 0 < depth) (above : depth ≤ w.machine.frames.size) (calling : 0 < w.machine.hostCalls)
    (loop : ∀ w, 0 < w.machine.hostCalls → depth < w.machine.frames.size → Run.Finished (x w) →
      y w = x w ∧ Within depth w (left (x w)))
    (finished : Run.Finished (EStateM.bind (callTop again argc) (fun _ => untilReturned x depth) w)) :
    EStateM.bind (callTop again' argc) (fun _ => untilReturned y depth) w =
        EStateM.bind (callTop again argc) (fun _ => untilReturned x depth) w ∧
      Within depth w (left (EStateM.bind (callTop again argc) (fun _ => untilReturned x depth) w)) := by
  have top := h.callTop argc w (Nat.lt_of_lt_of_le positive above)
  unfold EStateM.bind at finished ⊢
  cases ht : callTop again argc w with
  | error e w₁ =>
    rw [ht] at top finished
    obtain ⟨same, steady⟩ := top (by cases e <;> exact finished)
    rw [same]
    exact ⟨rfl, .of_steady above steady⟩
  | ok _ w₁ =>
    rw [ht] at top finished
    obtain ⟨same, steady⟩ := top trivial
    rw [same]
    obtain ⟨same, within⟩ := untilReturned_tracks (Nat.le_trans above steady.depth)
      (loop w₁ (steady.hostCalls ▸ calling)) finished
    exact ⟨same, within.after steady⟩

/-- In host calls all machines that refuse to yield there do the same. -/
theorem follows_again {pause pause' : Nat → Run Control} (refuses : Refuses pause)
    (refuses' : Refuses pause') (fuel : Nat) :
    ∀ fuel', fuel ≤ fuel' → Run.Follows (again pause fuel) (again pause' fuel') := by
  induction fuel using Nat.strongRecOn with
  | ind fuel ih =>
    intro fuel' le
    cases fuel with
    | zero => exact ⟨fun _ _ _ _ finished => finished.elim, fun _ _ _ finished => finished.elim⟩
    | succ fuel =>
      obtain ⟨fuel', rfl⟩ : ∃ m, fuel' = m + 1 := ⟨fuel' - 1, by omega⟩
      have le := Nat.le_of_succ_le_succ le
      refine ⟨fun callee args => hostCall_tracks (fun depth w positive above calling finished => ?_)
        callee args, fun s w inside _ => ?_⟩
      · refine body_tracks (ih fuel (Nat.lt_succ_self _) fuel' le) positive above calling
          (fun w calling more finished => ?_) finished
        obtain ⟨same, within, -⟩ := execute_tracks (P := fun w => 0 < w.machine.hostCalls)
          lasting_calling
          (fun w calling => by rw [refuses _ w calling, refuses' _ w calling])
          (fun w calling => by rw [refuses _ w calling]; exact .refl w)
          (fun n hn => ih n (Nat.lt_succ_of_lt hn)) fuel' le w more calling finished
        exact ⟨same, within⟩
      · show discard (interpret pause' (fuel' + 1) s) w = discard (interpret pause (fuel + 1) s) w ∧
          Steady w (left (discard (interpret pause (fuel + 1) s) w))
        rw [interpret_refused _ _ _ inside, interpret_refused _ _ _ inside]
        exact ⟨rfl, .refl w⟩

end Pausing
end ScriptEngine
