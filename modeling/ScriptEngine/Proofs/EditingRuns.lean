import ScriptEngine.Proofs.Editing
import ScriptEngine.Proofs.Watching

/-!
# What runs do to the heap

A run is a chain of the changes that `Heap.Edit` lists, as far as what it does in
the bodies of types is admitted: `Watch.allowing` is the machine that stops before
an instruction that does something else to a type, and `Watch.admitting` the one
that stops only before a declaration of a member. Where everything is admitted it
is the machine itself.
-/
namespace ScriptEngine

open Run

variable {may : Change → Prop} {host : Heap → Heap → Prop}

/-- The instruction to which the innermost frame has come. -/
def World.next? (w : World) : Option Instruction :=
  match w.machine.frames.back? with
  | some f => (w.heap.code f.closure).code[f.ip]?
  | none => none

/-- Whether the next instruction declares only members that are admitted. -/
def World.Admits (may : Nat → Prop) (w : World) : Prop :=
  ∀ i ref, w.next? = some i → declaredBy w i = some ref → may ref

/-- Stops before an instruction that declares a member of a type that is not admitted. -/
noncomputable def Watch.admitting (may : Nat → Prop) : Watch where
  instruction _ x w := open Classical in if w.Admits may then x w else .error .outOfFuel w

/-- Whether the next instruction does to a type only what is admitted. -/
def World.Allows (may : Change → Prop) (w : World) : Prop :=
  ∀ i c, w.next? = some i → changedBy w i = some c → may c

/-- Stops before an instruction that does to a type what is not admitted. -/
noncomputable def Watch.allowing (may : Change → Prop) : Watch where
  instruction _ x w := open Classical in if w.Allows may then x w else .error .outOfFuel w

/-- Members of types as they are admitted, and all other parts. -/
def Change.Declares (may : Nat → Prop) : Change → Prop
  | .member ref => may ref
  | .part _ => True

theorem declaredBy_eq {w : World} {i : Instruction} {ref : Nat} :
    declaredBy w i = some ref ↔ changedBy w i = some (.member ref) := by
  have member {at? : Option Nat} : at? = some ref ↔ at?.map Change.member = some (.member ref) := by
    cases at? <;> simp
  have part {at? : Option Nat} : none = some ref ↔ at?.map Change.part = some (.member ref) := by
    cases at? <;> simp
  cases i with
  | staticMember | enumValue => exact member
  | mixin | signs | method | initChain | inherit | field | finishType => exact part
  | _ => exact ⟨nofun, nofun⟩

theorem World.allows_declares {may : Nat → Prop} {w : World} :
    w.Allows (Change.Declares may) ↔ w.Admits may := by
  constructor
  · exact fun h i ref next declared => h i _ next (declaredBy_eq.mp declared)
  · intro h i c next changed
    cases c with
    | member ref => exact h i ref next (declaredBy_eq.mpr changed)
    | part => trivial

theorem Watch.allowing_declares (may : Nat → Prop) :
    Watch.allowing (Change.Declares may) = Watch.admitting may := by
  have same : World.Allows (Change.Declares may) = World.Admits may :=
    funext fun _ => propext World.allows_declares
  unfold Watch.allowing Watch.admitting
  rw [same]

theorem Watch.admitting_all : Watch.admitting (fun _ => True) = Watch.none := by
  have nothing (x : Run Control) (w : World) :
      (open Classical in if w.Admits (fun _ => True) then x w else .error .outOfFuel w) = x w :=
    if_pos fun _ _ _ _ => trivial
  unfold Watch.admitting
  simp only [nothing]
  rfl

namespace Run

theorem fetch_ok {i : Instruction} {w w' : World} (h : fetch w = .ok i w') :
    w.next? = some i ∧ w'.machine.stack = w.machine.stack ∧ w'.natives = w.natives := by
  obtain ⟨f, w₁, hf, rest⟩ := bind_ok (x := frame) h
  obtain ⟨rfl, top⟩ := frame_ok hf
  rw [bind_of_ok (x := heap) rfl] at rest
  cases read : (w₁.heap.code f.closure).code[f.ip]? <;> rw [read] at rest <;> cases rest
  exact ⟨by rw [World.next?, top]; exact read, rfl, rfl⟩

theorem Reedits.cycle {again : Reentry} (h : Reedits may host again) {stop : Nat} {w : World}
    (heeds : w.Heeds host) (allows : w.Allows may) :
    w.Edited may host ((cycle again stop).after w) := by
  refine edited_bind (edits_fetch w heeds) fun i w' fetched => ?_
  obtain ⟨next, stack, natives⟩ := fetch_ok fetched
  have heeds' : w'.Heeds host := by
    intro ref
    unfold World.native
    rw [natives]
    exact heeds ref
  rw [after_located]
  refine h.step heeds' fun c changed => allows i c next ?_
  unfold changedBy typeBelow typeOnTop at changed ⊢
  rwa [stack] at changed

theorem Reedits.allowed {again : Reentry} (h : Reedits may host again) (stop : Nat) :
    Edits may host ((Watch.allowing may).instruction stop (Run.cycle again stop)) := by
  intro w heeds
  unfold after Watch.allowing
  dsimp only
  by_cases allows : w.Allows may
  · simp only [if_pos allows]
    exact h.cycle heeds allows
  · simp only [if_neg allows]
    exact .refl

/-! ## Calls from the host and whole scripts -/

theorem edits_enter (s : Script) : Edits may host (enter s) := by
  have started : Edits may host checkStopped := edits_machine.bind fun _ =>
    .ite (edits_failInternal _) (.pure _)
  refine started.bind fun _ => (edits_allocate fun _ => .load s).bind fun id =>
    edits_stackSize.bind fun base => (edits_allocate fun _ => .addClosure _).bind fun v =>
      (edits_push v).bind fun _ => ?_
  split
  · exact edits_pushFrame _
  · exact .pure _

theorem edits_nextQueued : Edits may host nextQueued := by
  refine edits_machine.bind fun m => ?_
  split
  · exact (edits_modifyMachine _).bind fun _ => .pure _
  · exact .pure _

theorem edits_finished : Edits may host finished :=
  edits_machine.bind fun _ => (edits_modifyMachine _).bind fun _ => .pure _

theorem edits_suspend : Edits may host suspend :=
  edits_machine.bind fun _ => (edits_modifyMachine _).bind fun _ => .pure _

theorem edits_hostCall {callee : Value} {args : List Value} {body : Nat → Run Unit}
    (each : ∀ depth, Edits may host (body depth)) : Edits may host (hostCall callee args body) := by
  have begun : Edits may host (beginCall callee args) :=
    edits_stackSize.bind fun _ => (edits_push _).bind fun _ => (edits_pushAll _).bind fun _ =>
      edits_modifyMachine _
  have marked : Edits may host markCount := fun _ _ => .refl
  refine edits_stackSize.bind fun base => edits_depth.bind fun depth => marked.bind fun marks =>
    begun.bind fun _ => (each depth).attempt.bind fun outcome => (edits_modifyMachine _).bind fun _ => ?_
  split
  · exact edits_takeFrom _
  · exact (edits_closeFrom _).bind fun _ => (edits_modifyMachine _).bind fun _ =>
      (edits_truncate _).bind fun _ => edits_raise _

theorem edits_untilReturned {run : Run Exit} (h : Edits may host run) (depth : Nat) :
    Edits may host (untilReturned run depth) := by
  refine edits_depth.bind fun _ => .ite (h.bind fun how => ?_) (.pure _)
  cases how
  · exact .pure _
  · exact edits_fail _

end Run

namespace Watch

/-- Whatever runs while what is done to types is admitted is a chain of changes. -/
theorem edits_allowing (may : Change → Prop) (host : Heap → Heap → Prop) (fuel : Nat) :
    (∀ stop, Edits may host (execute (allowing may) fuel stop)) ∧
    (∀ callee args, Edits may host (call (allowing may) fuel callee args)) ∧
    (∀ s, Edits may host (interpret (allowing may) fuel s)) ∧
    Edits may host (continueTop (allowing may) fuel) ∧
    Edits may host (runQueue (allowing may) fuel) := by
  induction fuel with
  | zero =>
    exact ⟨fun _ => .throw _, fun _ _ => .throw _, fun _ => .throw _, .throw _, .throw _⟩
  | succ fuel ih =>
    obtain ⟨execute_edits, call_edits, interpret_edits, continueTop_edits, runQueue_edits⟩ := ih
    have again : Reedits may host (again (allowing may) fuel) :=
      ⟨call_edits, fun s => (interpret_edits s).map _⟩
    refine ⟨fun stop => ?_, fun callee args => ?_, fun s => ?_, ?_, ?_⟩
    · refine (again.allowed stop).bind fun c => ?_
      cases c
      · exact execute_edits stop
      · exact .pure _
    · exact edits_hostCall fun depth =>
        (again.callTop _).bind fun _ => edits_untilReturned (execute_edits depth) depth
    · exact (edits_enter s).bind fun _ => continueTop_edits
    · refine (execute_edits 0).attempt.bind fun how => ?_
      split
      · refine edits_finished.bind fun v => runQueue_edits.bind fun r => ?_
        cases r <;> exact .pure _
      · exact edits_suspend.bind fun _ => .pure _
      · exact (edits_modifyMachine _).bind fun _ => edits_raise _
    · refine edits_nextQueued.bind fun next => ?_
      cases next with
      | none => exact .pure _
      | some s =>
        refine (interpret_edits s).bind fun outcome => ?_
        cases outcome
        · exact runQueue_edits
        · exact .pure _

theorem edits_resume (may : Change → Prop) (host : Heap → Heap → Prop) (fuel : Nat) (s : Suspension) :
    Edits may host (resume (allowing may) fuel s) :=
  (edits_machine.bind fun _ => .ite (edits_failInternal _) (.pure _)).bind fun _ =>
    (edits_modifyMachine _).bind fun _ => (edits_allowing may host fuel).2.2.2.1

end Watch
end ScriptEngine
