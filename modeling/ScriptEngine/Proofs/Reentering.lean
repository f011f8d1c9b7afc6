import ScriptEngine.Proofs.Keeping

/-!
# Instructions that go back into the machine

Some instructions call values through a `Reentry`. Two ways back are compared
from worlds in which a frame is in use: `Tracks x y` says that `x` uses up its
steps or does what `y` does, and that then it is `Steady`. If the calls of one
way back track those of the other, so do the instructions that make them.

Frames are in use whenever an instruction is carried out, which is why no
instruction can run a whole script.
-/
namespace ScriptEngine.Run

variable {α β : Type}

/-- A frame is in use. -/
def Inside (w : World) : Prop := 0 < w.machine.frames.size

theorem Inside.of_steady {w w' : World} (inside : Inside w) (h : Steady w w') : Inside w' :=
  Nat.lt_of_lt_of_le inside h.depth

/-- Not stopped for want of steps. -/
def Finished : EStateM.Result Halt World α → Prop
  | .error .outOfFuel _ => False
  | _ => True

def Tracks (x y : Run α) : Prop :=
  ∀ w, Inside w → Finished (x w) → y w = x w ∧ Steady w (left (x w))

namespace Tracks

theorem of_keeps {x : Run α} (h : Keeps x) : Tracks x x := fun w _ _ => ⟨rfl, h w⟩

theorem bind {x y : Run α} {f g : α → Run β} (first : Tracks x y)
    (then_ : ∀ a, Tracks (f a) (g a)) : Tracks (x >>= f) (y >>= g) := by
  intro w inside finished
  have hx := first w inside
  change Finished (EStateM.bind x f w) at finished
  show EStateM.bind y g w = EStateM.bind x f w ∧ Steady w (left (EStateM.bind x f w))
  unfold EStateM.bind at finished ⊢
  cases h : x w with
  | error e w' =>
    rw [h] at hx finished
    obtain ⟨same, steady⟩ := hx (by cases e <;> exact finished)
    rw [same]
    exact ⟨rfl, steady⟩
  | ok a w' =>
    rw [h] at hx finished
    obtain ⟨same, steady⟩ := hx trivial
    rw [same]
    obtain ⟨same', steady'⟩ := then_ a w' (inside.of_steady steady) finished
    exact ⟨same', steady.trans steady'⟩

theorem of_calms {x : Run α} (h : Calms x) : Tracks x x := of_keeps h.keeps

theorem of_bind {x : Run α} {f g : α → Run β} (first : Calms x)
    (then_ : ∀ a, Tracks (f a) (g a)) : Tracks (x >>= f) (x >>= g) := (of_calms first).bind then_

/-- What follows may depend on the machine as it is. -/
theorem withMachine {f g : Machine → Run α}
    (then_ : ∀ w, Inside w → Finished (f w.machine w) →
      g w.machine w = f w.machine w ∧ Steady w (left (f w.machine w))) :
    Tracks (machine >>= f) (machine >>= g) := then_

theorem map {x y : Run α} (h : Tracks x y) (f : α → β) : Tracks (f <$> x) (f <$> y) := by
  rw [← bind_pure_comp, ← bind_pure_comp]
  exact h.bind fun _ => of_keeps (.pure _)

/-- What is made of a result in the same world, with nothing made of steps used up. -/
theorem after {x y : Run α} {x' y' : Run β} (same : ∀ w, y w = x w → y' w = x' w)
    (world : ∀ w, left (x' w) = left (x w)) (finished : ∀ w, Finished (x' w) → Finished (x w))
    (h : Tracks x y) : Tracks x' y' := by
  intro w inside done
  obtain ⟨eq, steady⟩ := h w inside (finished w done)
  exact ⟨same w eq, (world w).symm ▸ steady⟩

theorem attempt {x y : Run α} (h : Tracks x y) : Tracks (attempt x) (attempt y) := by
  refine h.after (fun w eq => by simp only [Run.attempt, eq]) (fun w => ?_) fun w done => ?_
  · unfold Run.attempt
    cases x w with
    | ok => rfl
    | error e => cases e <;> rfl
  · unfold Run.attempt at done
    cases hw : x w with
    | ok => trivial
    | error e =>
      rw [hw] at done
      cases e <;> exact done

theorem located {x y : Run α} (h : Tracks x y) : Tracks (located x) (located y) := by
  refine h.after (fun w eq => by simp only [Run.located, eq]) (fun w => ?_) fun w done => ?_
  · unfold Run.located
    cases x w with
    | ok => rfl
    | error e => cases e <;> rfl
  · unfold Run.located at done
    cases hw : x w with
    | ok => trivial
    | error e =>
      rw [hw] at done
      cases e <;> exact done

theorem mapM {f g : α → Run β} (each : ∀ a, Tracks (f a) (g a)) (as : List α) :
    Tracks (as.mapM f) (as.mapM g) := by
  induction as with
  | nil => exact of_keeps (.pure _)
  | cons a as ih =>
    rw [List.mapM_cons, List.mapM_cons]
    exact (each a).bind fun _ => ih.bind fun _ => of_keeps (.pure _)

theorem foldlM {f g : β → α → Run β} (each : ∀ b a, Tracks (f b a) (g b a)) (as : List α)
    (b : β) : Tracks (as.foldlM f b) (as.foldlM g b) := by
  induction as generalizing b with
  | nil => exact of_keeps (.pure _)
  | cons a as ih =>
    rw [List.foldlM_cons, List.foldlM_cons]
    exact (each b a).bind ih

theorem filterM {f g : α → Run Bool} (each : ∀ a, Tracks (f a) (g a)) (as : List α) :
    Tracks (as.filterM f) (as.filterM g) := by
  have aux (taken : List α) :
      Tracks (as.filterAuxM f taken) (as.filterAuxM g taken) := by
    induction as generalizing taken with
    | nil => exact of_keeps (.pure _)
    | cons a as ih => exact (each a).bind fun _ => ih _
  exact (aux []).bind fun _ => of_keeps (.pure _)

end Tracks

/-! ## Two ways back -/

/-- The calls of one way back track those of another, and both refuse scripts. -/
structure Follows (again again' : Reentry) : Prop where
  call : ∀ callee args, Tracks (again.call callee args) (again'.call callee args)
  interpret : ∀ s, Tracks (again.interpret s) (again'.interpret s)

section

variable {again again' : Reentry} (h : Follows again again')
include h

theorem Follows.perform (args : Window) (steps : NativeProgram) :
    Tracks (Native.perform again args steps) (Native.perform again' args steps) := by
  induction steps with
  | finish result => exact .of_keeps (.pure _)
  | raise failure => exact .of_keeps (keeps_raise _)
  | count next ih => exact ih _
  | argument index next ih => exact .of_bind (calms_argument _ _) ih
  | read next ih => exact .of_bind calms_heap ih
  | allocate make next ih => exact (Tracks.of_keeps (keeps_allocate _)).bind ih
  | push v next ih => exact .of_bind (calms_push _) fun _ => ih
  | call callee values next ih => exact (h.call callee values).attempt.bind ih
  | interpret script next ih => exact (h.interpret script).bind fun _ => ih

theorem Follows.run (body : NativeBody) (args : Window) :
    Tracks (Native.run again body args) (Native.run again' body args) := by
  cases body with
  | core function => exact .of_calms (calms_core function args)
  | program steps => exact h.perform args steps

theorem Follows.callBack (f : Value) (args : List Value) :
    Tracks (Native.first <$> again.call f args) (Native.first <$> again'.call f args) :=
  (h.call f args).map _

theorem Follows.listMap (ref : Nat) (args : Window) :
    Tracks (Native.listMap again ref args) (Native.listMap again' ref args) :=
  .of_bind (calms_expect _ _ _) fun _ => .of_bind (calms_items ref) fun items =>
    .of_bind (calms_argument _ _) fun f => (Tracks.mapM (fun item => h.callBack f [item]) items).bind
      fun _ => .of_bind (calms_allocate fun _ => .same rfl rfl rfl) fun _ => .of_calms (calms_give _)

theorem Follows.listFilter (ref : Nat) (args : Window) :
    Tracks (Native.listFilter again ref args) (Native.listFilter again' ref args) :=
  .of_bind (calms_expect _ _ _) fun _ => .of_bind (calms_items ref) fun items =>
    .of_bind (calms_argument _ _) fun f =>
      (Tracks.filterM (fun item => (h.call f [item]).bind fun _ => .of_keeps (.pure _)) items).bind
        fun _ => .of_bind (calms_allocate fun _ => .same rfl rfl rfl) fun _ => .of_calms (calms_give _)

theorem Follows.listReduce (ref : Nat) (args : Window) :
    Tracks (Native.listReduce again ref args) (Native.listReduce again' ref args) :=
  .of_bind (calms_expect _ _ _) fun _ => .of_bind (calms_items ref) fun items =>
    .of_bind (calms_argument _ _) fun f => .of_bind (calms_argument _ _) fun start =>
      (Tracks.foldlM (fun acc item => h.callBack f [acc, item]) items start).bind
        fun _ => .of_calms (calms_give _)

/-- Both ways back know the same methods of lists. -/
theorem Follows.listMethod (ref : Nat) (name : String) :
    (Native.listMethod? again ref name = none ∧ Native.listMethod? again' ref name = none) ∨
      ∃ f g, Native.listMethod? again ref name = some f ∧
        Native.listMethod? again' ref name = some g ∧ ∀ args, Tracks (f args) (g args) := by
  unfold Native.listMethod?
  split
  · exact .inr ⟨_, _, rfl, rfl, fun args => .of_calms (calms_listAdd ref args)⟩
  · exact .inr ⟨_, _, rfl, rfl, fun args => .of_calms (calms_listCount ref args)⟩
  · exact .inr ⟨_, _, rfl, rfl, fun args => .of_calms (calms_listGet ref args)⟩
  · exact .inr ⟨_, _, rfl, rfl, h.listMap ref⟩
  · exact .inr ⟨_, _, rfl, rfl, h.listFilter ref⟩
  · exact .inr ⟨_, _, rfl, rfl, h.listReduce ref⟩
  · exact .inl ⟨rfl, rfl⟩

omit h in
theorem Tracks.callNative {f g : Window → Run NativeResult} (each : ∀ args, Tracks (f args) (g args))
    (argc base : Nat) : Tracks (callNative f argc base) (callNative g argc base) :=
  (each _).bind fun _ => .of_bind (calms_takeFrom _) fun _ => .of_bind (calms_truncate _) fun _ =>
    .of_calms (.ite (calms_pushResults _ _) (calms_pushResults _ _))

theorem Follows.native (ref argc base : Nat) :
    Tracks (do callNative (← native again ref) argc base)
      (do callNative (← native again' ref) argc base) :=
  fun w inside finished => (Tracks.callNative (h.run (w.native ref)) argc base) w inside finished

theorem Follows.callParts (args : List Value) (last : Value) (parts : List Value) :
    Tracks (callParts again args last parts) (callParts again' args last parts) := by
  induction parts generalizing last with
  | nil => exact .of_keeps (.pure _)
  | cons part rest ih => exact (h.call part args).bind fun _ => ih _

theorem Follows.callCombined (parts : List Value) (base : Nat) :
    Tracks (callCombined again parts base) (callCombined again' parts base) :=
  .of_bind (calms_takeFrom _) fun _ => .of_bind (calms_truncate _) fun _ =>
    (h.callParts _ _ _).bind fun _ => .of_calms (calms_push _)

theorem Follows.callTop (argc : Nat) : Tracks (callTop again argc) (callTop again' argc) := by
  refine .of_bind (calms_calleeSlot argc) fun base => .of_bind (calms_slot base) fun v => ?_
  split
  · exact .of_keeps (keeps_callClosure _ _ _)
  · refine .of_bind calms_heap fun heap => .of_bind (calms_setSlot _ _) fun _ => ?_
    split
    · exact .of_keeps (keeps_callClosure _ _ _)
    · exact h.native _ _ _
    · exact .of_calms (calms_fail _)
  · exact .of_keeps (keeps_instantiate _ _ _)
  · exact h.native _ _ _
  · exact .of_bind calms_heap fun _ => h.callCombined _ _
  · exact .of_calms (calms_fail _)

theorem Follows.callInstead (callee : Value) (argc base : Nat) :
    Tracks (callInstead again callee argc base) (callInstead again' callee argc base) :=
  .of_bind (calms_setSlot _ _) fun _ => h.callTop argc

theorem Follows.invoke (index : UInt16) (argc : Nat) :
    Tracks (invoke again index argc) (invoke again' index argc) := by
  refine .of_bind (calms_name index) fun name => .of_bind (calms_calleeSlot argc) fun base =>
    .of_bind (calms_slot base) fun receiver => .of_bind calms_heap fun heap => ?_
  have undefined := Tracks.of_calms (calms_undefinedMethod (α := Unit) receiver name)
  split
  · dsimp only
    split
    · exact h.callInstead _ _ _
    · split
      · exact .of_keeps (keeps_callClosure _ _ _)
      · exact h.native _ _ _
      · exact h.callInstead _ _ _
      · exact undefined
  · split
    · exact h.callInstead _ _ _
    · exact undefined
  · rename_i ref
    obtain ⟨none, none'⟩ | ⟨f, g, some, some', each⟩ := h.listMethod ref name
    · simpa only [none, none'] using undefined
    · simpa only [some, some'] using Tracks.callNative each argc base
  · split
    · rename_i found
      exact .callNative (fun args => .of_calms (calms_mapMethod found args)) _ _
    · exact undefined
  · exact undefined

/-! ## Tests -/

/-- What is done under another current set, after which the set before it is put back. -/
def underSet (set before : Option String) (x : Run α) (f : α → Run β) : Run β := do
  setCurrent set
  let a ← x
  setCurrent before
  f a

omit h in
theorem Tracks.underSet {x y : Run α} (h : Tracks x y) {f : Except Failure α → Run β}
    (then_ : ∀ r, Keeps (f r)) (set : Option String) {w : World} (inside : Inside w)
    (finished : Finished (underSet set w.machine.currentSet (Run.attempt x) f w)) :
    underSet set w.machine.currentSet (Run.attempt y) f w =
        underSet set w.machine.currentSet (Run.attempt x) f w ∧
      Steady w (left (underSet set w.machine.currentSet (Run.attempt x) f w)) := by
  let w₁ : World := { w with machine.currentSet := set }
  have enter (z : Run (Except Failure α)) : Run.underSet set w.machine.currentSet z f w =
      EStateM.bind z (fun r => setCurrent w.machine.currentSet >>= fun _ => f r) w₁ := rfl
  have attempted := h.attempt w₁ inside
  rw [enter] at finished
  rw [enter, enter]
  unfold EStateM.bind at finished ⊢
  cases hx : Run.attempt x w₁ with
  | error e w₂ =>
    -- an attempt stops only for want of steps
    cases e with
    | failed => unfold Run.attempt at hx; split at hx <;> cases hx
    | outOfFuel => rw [hx] at finished; exact finished.elim
  | ok r w₂ =>
    rw [hx] at attempted
    obtain ⟨same, steady⟩ := attempted trivial
    rw [same]
    refine ⟨rfl, Steady.trans ?_ (then_ r { w₂ with machine.currentSet := w.machine.currentSet })⟩
    exact ⟨steady.depth, steady.hostCalls, rfl, steady.settings⟩

/-- Notes what went wrong in the body of a set. -/
def noteSet (set : String) (outcome : Except Failure (List Value)) : Run Unit := do
  if let .error f := outcome then recordCase set fixture (.error f)

omit h in
theorem keeps_noteSet (set : String) (outcome : Except Failure (List Value)) :
    Keeps (noteSet set outcome) := by
  cases outcome with
  | ok => exact .pure _
  | error f => exact keeps_recordCase set fixture (.error f)

omit h in
theorem testSet_eq (again : Reentry) (index : UInt16) : testSet again index = (do
    let name ← name index
    let body ← pop
    modifyTests (·.beginSet name)
    let m ← machine
    if m.settings.testsEnabled then
      underSet (some name) m.currentSet (attempt (again.call body [])) (noteSet name)) := rfl

theorem Follows.testSet (index : UInt16) : Tracks (testSet again index) (testSet again' index) := by
  rw [testSet_eq, testSet_eq]
  refine .of_bind (calms_name index) fun name => .of_bind calms_pop fun body =>
    .of_bind (calms_modifyTests _) fun _ => .withMachine fun w inside => ?_
  split
  · exact (h.call body []).underSet (keeps_noteSet name) (some name) inside
  · exact fun _ => ⟨rfl, .refl w⟩

theorem Follows.runRows (set name : String) (case : Value) (i : Nat) (rows : List Value) :
    Tracks (runRows again set name case i rows) (runRows again' set name case i rows) := by
  induction rows generalizing i with
  | nil => exact .of_keeps (.pure _)
  | cons row rest ih =>
    exact .of_bind calms_heap fun heap => (h.call _ _).attempt.bind fun _ =>
      (Tracks.of_keeps (keeps_recordCase _ _ _)).bind fun _ => ih _

theorem Follows.testCase (index : UInt16) (hasRows : Bool) :
    Tracks (testCase again index hasRows) (testCase again' index hasRows) := by
  have popped : Calms (some <$> pop) := calms_pop.map _
  refine .of_bind (calms_name index) fun name => .of_bind calms_pop fun case => ?_
  have carried (rows : Option Value) : Tracks (carryOut again name case rows) (carryOut again' name case rows) := by
    refine .of_bind calms_machine fun m => ?_
    split
    · exact .of_calms (calms_failInternal _)
    · cases rows with
      | none => exact (h.call case []).attempt.bind fun _ => .of_keeps (keeps_recordCase _ _ _)
      | some data => exact .of_bind (calms_dataRows data) fun _ => h.runRows _ _ _ _ _
  split
  · exact .of_bind popped carried
  · exact carried none

/-! ## Every instruction but `return` and `yield` -/

theorem Follows.plain (i : Instruction) : Tracks (plain again i) (plain again' i) := by
  cases i with
  | call argc => exact h.callTop _
  | invoke name argc => exact h.invoke _ _
  | testSet name => exact h.testSet _
  | testCase name hasRows => exact h.testCase _ _
  | goto label => exact .of_keeps (keeps_goto label)
  | gotoIfFalse label => exact .of_keeps (keeps_gotoIfFalse label)
  | superInvoke name argc => exact .of_keeps (keeps_superInvoke name _)
  | closure n => exact .of_keeps (keeps_makeClosure n)
  | initChain => exact .of_keeps keeps_addInitChain
  | _ => exact .of_calms (calms_plain again rfl)

end

end ScriptEngine.Run
