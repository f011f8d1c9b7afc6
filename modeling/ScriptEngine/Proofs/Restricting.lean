import ScriptEngine.Proofs.EditingRuns

/-!
# Frozen and read-only things

An instance or a type that is frozen stays frozen, and one that is read-only
stays read-only. The names of the members of a frozen thing stay the same, and a
read-only thing keeps its members as they are. Only the declaration of a member
of a type does not ask for the flags of the type.

`Heap.Lasting` says so of two heaps. Every single change of a heap is lasting, so
whatever runs is.
-/
namespace ScriptEngine

open Run

/-- Flags that are set stay set. -/
structure Flags.Last (f f' : Flags) : Prop where
  frozen : f.frozen = true → f'.frozen = true
  readOnly : f.readOnly = true → f'.readOnly = true

/-- What the flags of a thing say of its members and of those that it has later. -/
structure Flags.Hold (f : Flags) (members members' : Table String Value) : Prop where
  frozen : f.frozen = true → ∀ name, members'.contains name = members.contains name
  readOnly : f.readOnly = true → members' = members

namespace Flags

theorem Last.refl (f : Flags) : f.Last f := ⟨id, id⟩

theorem Last.trans {f f' f'' : Flags} (h : f.Last f') (h' : f'.Last f'') : f.Last f'' :=
  ⟨h'.frozen ∘ h.frozen, h'.readOnly ∘ h.readOnly⟩

theorem Hold.refl (f : Flags) (members : Table String Value) : f.Hold members members :=
  ⟨fun _ _ => rfl, fun _ => rfl⟩

theorem Hold.trans {f f' : Flags} {members members' members'' : Table String Value} (last : f.Last f')
    (h : f.Hold members members') (h' : f'.Hold members' members'') : f.Hold members members'' :=
  ⟨fun frozen name => (h'.frozen (last.frozen frozen) name).trans (h.frozen frozen name),
    fun readOnly => (h'.readOnly (last.readOnly readOnly)).trans (h.readOnly readOnly)⟩

theorem last_of_restricted {f f' : Flags} (h : f' = f.freeze ∨ f' = f.lock) : f.Last f' := by
  obtain rfl | rfl := h
  · exact ⟨fun _ => rfl, id⟩
  · exact ⟨fun _ => rfl, fun _ => rfl⟩

/-- A write that is not refused. -/
theorem hold_of_allowed {f : Flags} {members : Table String Value} {name : String} {v : Value}
    (allowed : f.refuses (members.contains name) = none) : f.Hold members (members.insert name v) := by
  unfold refuses at allowed
  split at allowed
  · cases allowed
  · rename_i writable
    refine ⟨fun frozen other => ?_, fun readOnly => absurd readOnly writable⟩
    have present : members.contains name = true := by
      simpa [frozen] using allowed
    unfold Table.contains at present ⊢
    rw [Table.get?_insert]
    split
    · rename_i same
      rw [← same, present]
      rfl
    · rfl

end Flags

/-- What is frozen or read-only in a heap is so in the other, and has members accordingly. Types
for which `may` holds may get other members. -/
structure Heap.Lasting (may : Nat → Prop) (h h' : Heap) : Prop where
  object : ∀ {ref : Nat} {o : Object}, h.objects[ref]? = some o →
    ∃ o', h'.objects[ref]? = some o' ∧ o.flags.Last o'.flags ∧ o.flags.Hold o.fields o'.fields
  userType : ∀ {ref : Nat} {t : UserType}, h.types[ref]? = some t →
    ∃ t', h'.types[ref]? = some t' ∧ t.flags.Last t'.flags ∧
      (¬may ref → t.flags.Hold t.statics t'.statics)

namespace Heap

variable {may : Nat → Prop}

namespace Lasting

theorem refl (h : Heap) : h.Lasting may h :=
  ⟨fun {_ o} found => ⟨o, found, .refl _, .refl _ _⟩, fun {_ t} found => ⟨t, found, .refl _, fun _ => .refl _ _⟩⟩

theorem trans {h h' h'' : Heap} (first : h.Lasting may h') (then_ : h'.Lasting may h'') :
    h.Lasting may h'' := by
  constructor
  · intro ref o found
    obtain ⟨o', found', last, hold⟩ := first.object found
    obtain ⟨o'', found'', last', hold'⟩ := then_.object found'
    exact ⟨o'', found'', last.trans last', hold.trans last hold'⟩
  · intro ref t found
    obtain ⟨t', found', last, hold⟩ := first.userType found
    obtain ⟨t'', found'', last', hold'⟩ := then_.userType found'
    exact ⟨t'', found'', last.trans last', fun closed => (hold closed).trans last (hold' closed)⟩

theorem mono {may' : Nat → Prop} {h h' : Heap} (le : ∀ ref, may ref → may' ref)
    (lasting : h.Lasting may h') : h.Lasting may' h' := by
  refine ⟨lasting.object, fun {ref t} found => ?_⟩
  obtain ⟨t', found', last, hold⟩ := lasting.userType found
  exact ⟨t', found', last, fun closed => hold (closed ∘ le ref)⟩

/-- Neither instances nor types are changed, but there may be more of them. -/
theorem of_grown {h h' : Heap} (objects : ∀ (ref : Nat) o, h.objects[ref]? = some o → h'.objects[ref]? = some o)
    (types : ∀ (ref : Nat) t, h.types[ref]? = some t → h'.types[ref]? = some t) : h.Lasting may h' :=
  ⟨fun {ref o} found => ⟨o, objects ref o found, .refl _, .refl _ _⟩,
    fun {ref t} found => ⟨t, types ref t found, .refl _, fun _ => .refl _ _⟩⟩

theorem of_updateObject {h : Heap} {ref : Nat} {f : Object → Object}
    (each : ∀ o, h.objects[ref]? = some o →
      o.flags.Last (f o).flags ∧ o.flags.Hold o.fields (f o).fields) :
    h.Lasting may (h.updateObject ref f) := by
  refine ⟨fun {ref' o} found => ?_, fun {_ t} found => ⟨t, found, .refl _, fun _ => .refl _ _⟩⟩
  by_cases same : ref = ref'
  · subst same
    refine ⟨f o, ?_, each o found⟩
    simp [updateObject, change, Array.getElem?_modify, found]
  · refine ⟨o, ?_, .refl _, .refl _ _⟩
    simp [updateObject, change, Array.getElem?_modify, same, found]

theorem of_updateType {h : Heap} {ref : Nat} {f : UserType → UserType}
    (each : ∀ t, h.types[ref]? = some t →
      t.flags.Last (f t).flags ∧ (¬may ref → t.flags.Hold t.statics (f t).statics)) :
    h.Lasting may (h.updateType ref f) := by
  refine ⟨fun {_ o} found => ⟨o, found, .refl _, .refl _ _⟩, fun {ref' t} found => ?_⟩
  by_cases same : ref = ref'
  · subst same
    refine ⟨f t, ?_, each t found⟩
    simp [updateType, change, Array.getElem?_modify, found]
  · refine ⟨t, ?_, .refl _, fun _ => .refl _ _⟩
    simp [updateType, change, Array.getElem?_modify, same, found]

end Lasting

/-- Every change of a heap is lasting. -/
theorem Edit.lasting {h h' : Heap} (edit : h.Edit (Change.Declares may) (Lasting fun _ => False) h') :
    h.Lasting may h' := by
  have same : h.Lasting may h := .refl h
  have pushed {α : Type} {xs : Array α} {a : α} (b : α) (ref : Nat) (found : xs[ref]? = some a) :
      (xs.push b)[ref]? = some a := by
    grind
  cases edit with
  | addObject o => exact .of_grown (fun ref _ found => pushed o ref found) fun _ _ found => found
  | addType t => exact .of_grown (fun _ _ found => found) fun ref _ found => pushed t ref found
  | updateType ref f statics flags admitted =>
    refine .of_updateType fun t _ => ?_
    rw [statics, flags]
    exact ⟨.refl _, fun _ => .refl _ _⟩
  | restrictObject ref f sets =>
    exact .of_updateObject fun o _ => ⟨Flags.last_of_restricted (sets o), .refl _ _⟩
  | restrictType ref f sets =>
    exact .of_updateType fun t _ => ⟨Flags.last_of_restricted (sets t), fun _ => .refl _ _⟩
  | storeObject ref name v allowed =>
    refine .of_updateObject fun o found => ⟨.refl _, Flags.hold_of_allowed ?_⟩
    rwa [object, found] at allowed
  | storeType ref name v allowed =>
    refine .of_updateType fun t found => ⟨.refl _, fun _ => Flags.hold_of_allowed ?_⟩
    rwa [userType, found] at allowed
  | declare ref name v admitted =>
    exact .of_updateType fun t _ => ⟨.refl _, fun closed => absurd admitted closed⟩
  | host h' subject => exact subject.mono fun _ => False.elim
  | _ => exact ⟨same.object, same.userType⟩

end Heap

/-- Functions of the host do not themselves disregard what is frozen or read-only. -/
abbrev World.Respectful (w : World) : Prop := w.Heeds (Heap.Lasting fun _ => False)

/-- So it is where the functions of the core library are all that there are. -/
theorem World.respectful_of_core {w : World} (core : ∀ ref, ∃ f, w.native ref = .core f) :
    w.Respectful := by
  intro ref
  obtain ⟨f, eq⟩ := core ref
  rw [eq]
  trivial

namespace Run

variable {α : Type} {may : Nat → Prop} {host : Heap → Heap → Prop}

theorem lasting_of_edited {w w' : World} (edited : w.Edited (Change.Declares may) (Heap.Lasting fun _ => False) w') :
    w.heap.Lasting may w'.heap := by
  induction edited with
  | refl => exact .refl _
  | tail _ edit ih =>
    cases edit with
    | machine m => exact ih
    | heap h edit => exact ih.trans edit.lasting

/-! ## Writes that are refused -/

/-- Why a member may not be written. -/
def refusal? (h : Heap) (target : Value) (name : String) : Option Refusal :=
  match target with
  | .object ref => (h.object ref).flags.refuses ((h.object ref).fields.contains name)
  | .userType ref => (h.userType ref).flags.refuses ((h.userType ref).statics.contains name)
  | _ => none

/-- The error of a write that is refused. -/
def refusedWrite (refusal : Refusal) (name holder : String) : RuntimeError :=
  match refusal with
  | .frozen => .frozenWrite name holder
  | .readOnly => .readOnlyWrite name holder

theorem writeField_refused {target : Value} {name : String} {refusal : Refusal} {w : World} (v : Value)
    (refused : refusal? w.heap target name = some refusal) :
    writeField target name v w =
      .error (.failed { error := refusedWrite refusal name (w.heap.text target) }) w := by
  have written {flags : Flags} {present : Bool} (write : Heap → Heap)
      (refuses : flags.refuses present = some refusal) : writeUnless flags present target name write w =
        .error (.failed { error := refusedWrite refusal name (w.heap.text target) }) w := by
    unfold writeUnless
    rw [refuses]
    cases refusal <;> rfl
  cases target with
  | object ref => exact written _ refused
  | userType ref => exact written _ refused
  | _ => cases refused

theorem pop_push {w : World} {stack : Array Value} {v : Value} (h : w.machine.stack = stack.push v) :
    pop w = .ok v { w with machine.stack := stack } := by
  unfold pop
  rw [h, Array.back?_push, Array.pop_push]

/-- An assignment to a property that is refused takes its operands and changes nothing else. -/
theorem setProperty_refused {index : UInt16} {name : String} {stack : Array Value} {target v : Value}
    {refusal : Refusal} {w : World} (named : Run.name index w = .ok name w)
    (operands : w.machine.stack = (stack.push target).push v)
    (refused : refusal? w.heap target name = some refusal) :
    setProperty index w =
      .error (.failed { error := refusedWrite refusal name (w.heap.text target) })
        { w with machine.stack := stack } :=
  calc setProperty index w
    _ = _ := bind_of_ok named _
    _ = _ := bind_of_ok (pop_push operands) _
    _ = _ := bind_of_ok (pop_push rfl) _
    _ = _ := bind_of_error (writeField_refused (w := { w with machine.stack := stack }) v refused) _

/-- An assignment to an index that is refused takes its operands and changes nothing else. -/
theorem setIndex_refused {name : String} {stack : Array Value} {target v : Value} {refusal : Refusal}
    {w : World} (operands : w.machine.stack = ((stack.push target).push (.string name)).push v)
    (refused : refusal? w.heap target name = some refusal) :
    setIndex w =
      .error (.failed { error := refusedWrite refusal name (w.heap.text target) })
        { w with machine.stack := stack } := by
  have element : setElement target (.string name) v = writeField target name v := by
    cases target with
    | object | userType => rfl
    | _ => cases refused
  calc setIndex w
    _ = _ := bind_of_ok (pop_push operands) _
    _ = _ := bind_of_ok (pop_push rfl) _
    _ = _ := bind_of_ok (pop_push rfl) _
    _ = _ := bind_of_error (element ▸ writeField_refused (w := { w with machine.stack := stack }) v refused) _

/-! ## Whatever runs -/

/-- Whatever runs while the members of types that are declared are admitted is a chain of changes. -/
theorem edits_admitting (may : Nat → Prop) (host : Heap → Heap → Prop) (fuel : Nat) :
    (∀ stop, Edits (Change.Declares may) host (Watch.execute (.admitting may) fuel stop)) ∧
    (∀ callee args, Edits (Change.Declares may) host (Watch.call (.admitting may) fuel callee args)) ∧
    (∀ s, Edits (Change.Declares may) host (Watch.interpret (.admitting may) fuel s)) ∧
    Edits (Change.Declares may) host (Watch.continueTop (.admitting may) fuel) ∧
    Edits (Change.Declares may) host (Watch.runQueue (.admitting may) fuel) ∧
    ∀ s, Edits (Change.Declares may) host (Watch.resume (.admitting may) fuel s) := by
  have all := Watch.edits_allowing (Change.Declares may) host fuel
  have resumed := Watch.edits_resume (Change.Declares may) host fuel
  rw [Watch.allowing_declares] at all resumed
  obtain ⟨execute_edits, call_edits, interpret_edits, continueTop_edits, runQueue_edits⟩ := all
  exact ⟨execute_edits, call_edits, interpret_edits, continueTop_edits, runQueue_edits, resumed⟩

/-- The ways back into the machine that its instructions are given. -/
abbrev again (fuel : Nat) : Reentry := ⟨call fuel, fun s => discard (interpret fuel s)⟩

theorem edits_all (fuel : Nat) :
    (∀ stop, Edits (Change.Declares fun _ => True) host (execute fuel stop)) ∧
    (∀ callee args, Edits (Change.Declares fun _ => True) host (call fuel callee args)) ∧
    (∀ s, Edits (Change.Declares fun _ => True) host (interpret fuel s)) ∧
    ∀ s, Edits (Change.Declares fun _ => True) host (resume fuel s) := by
  obtain ⟨execute_eq, call_eq, interpret_eq, continueTop_eq, -⟩ := Watch.machine_unwatched fuel
  obtain ⟨execute_edits, call_edits, interpret_edits, -, -, resume_edits⟩ :=
    edits_admitting (fun _ => True) host fuel
  rw [Watch.admitting_all] at execute_edits call_edits interpret_edits resume_edits
  refine ⟨fun stop => ?_, fun callee args => ?_, fun s => ?_, fun s => ?_⟩
  · exact execute_eq stop ▸ execute_edits stop
  · exact call_eq callee args ▸ call_edits callee args
  · exact interpret_eq s ▸ interpret_edits s
  · have resume_eq : Watch.resume .none fuel s = resume fuel s := by
      unfold Watch.resume resume
      rw [continueTop_eq]
    exact resume_eq ▸ resume_edits s

/-- A step that declares no member but what is admitted. -/
theorem edited_step {again : Reentry} {stop : Nat} {i : Instruction} {w : World}
    (reedits : Reedits (Change.Declares may) host again) (heeds : w.Heeds host)
    (admitted : ∀ ref, declaredBy w i = some ref → may ref) :
    w.Edited (Change.Declares may) host ((step again stop i).after w) := by
  refine reedits.step heeds fun c changed => ?_
  cases c with
  | member ref => exact admitted ref (declaredBy_eq.mpr changed)
  | part => trivial

end Run

open Run

/-- **Frozen and read-only things.** Whatever is carried out, of the instances and the types that
there are, the frozen ones stay frozen and the read-only ones stay read-only; the names of the members
of the frozen ones and the members of the read-only ones stay the same. For the members of a type this
holds of instructions that do not declare one, and of runs up to the first that does. An assignment
that is refused is an error that changes no member. -/
theorem restrictions_last (w : World) (respectful : w.Respectful) :
    -- all of it for instances, and flags also for types
    ((∀ fuel stop i, w.heap.Lasting (fun _ => True) ((step (again fuel) stop i).after w).heap) ∧
      (∀ fuel stop, w.heap.Lasting (fun _ => True) ((execute fuel stop).after w).heap) ∧
      (∀ fuel callee args, w.heap.Lasting (fun _ => True) ((call fuel callee args).after w).heap) ∧
      (∀ fuel s, w.heap.Lasting (fun _ => True) ((interpret fuel s).after w).heap) ∧
      ∀ fuel s, w.heap.Lasting (fun _ => True) ((resume fuel s).after w).heap) ∧
    -- the members of types for which `may` does not hold
    (∀ may : Nat → Prop,
      (∀ fuel stop i, (∀ ref, declaredBy w i = some ref → may ref) →
        w.heap.Lasting may ((step (Watch.again (.admitting may) fuel) stop i).after w).heap) ∧
      (∀ fuel stop, w.heap.Lasting may ((Watch.execute (.admitting may) fuel stop).after w).heap) ∧
      (∀ fuel callee args,
        w.heap.Lasting may ((Watch.call (.admitting may) fuel callee args).after w).heap) ∧
      (∀ fuel s, w.heap.Lasting may ((Watch.interpret (.admitting may) fuel s).after w).heap) ∧
      ∀ fuel s, w.heap.Lasting may ((Watch.resume (.admitting may) fuel s).after w).heap) ∧
    -- assignments that are refused
    ∀ (again : Reentry) (stop : Nat) (name : String) (stack : Array Value) (target v : Value)
      (refusal : Refusal), refusal? w.heap target name = some refusal →
      (∀ index, Run.name index w = .ok name w → w.machine.stack = (stack.push target).push v →
        step again stop (.setProperty index) w =
          .error (.failed { error := refusedWrite refusal name (w.heap.text target) })
            { w with machine.stack := stack }) ∧
      (w.machine.stack = ((stack.push target).push (.string name)).push v →
        step again stop .setIndex w =
          .error (.failed { error := refusedWrite refusal name (w.heap.text target) })
            { w with machine.stack := stack }) := by
  refine ⟨⟨fun fuel stop i => ?_, fun fuel stop => ?_, fun fuel callee args => ?_, fun fuel s => ?_,
    fun fuel s => ?_⟩, fun may => ⟨fun fuel stop i admitted => ?_, fun fuel stop => ?_,
    fun fuel callee args => ?_, fun fuel s => ?_, fun fuel s => ?_⟩, ?_⟩
  · have ⟨_, call_edits, interpret_edits, _⟩ := @edits_all (Heap.Lasting fun _ => False) fuel
    exact lasting_of_edited
      (edited_step ⟨call_edits, fun s => (interpret_edits s).map _⟩ respectful fun _ _ => trivial)
  · exact lasting_of_edited ((edits_all fuel).1 stop w respectful)
  · exact lasting_of_edited ((edits_all fuel).2.1 callee args w respectful)
  · exact lasting_of_edited ((edits_all fuel).2.2.1 s w respectful)
  · exact lasting_of_edited ((edits_all fuel).2.2.2 s w respectful)
  · have ⟨_, call_edits, interpret_edits, _⟩ := edits_admitting may (Heap.Lasting fun _ => False) fuel
    exact lasting_of_edited
      (edited_step ⟨call_edits, fun s => (interpret_edits s).map _⟩ respectful admitted)
  · exact lasting_of_edited ((edits_admitting may _ fuel).1 stop w respectful)
  · exact lasting_of_edited ((edits_admitting may _ fuel).2.1 callee args w respectful)
  · exact lasting_of_edited ((edits_admitting may _ fuel).2.2.1 s w respectful)
  · exact lasting_of_edited ((edits_admitting may _ fuel).2.2.2.2.2 s w respectful)
  · intro again stop name stack target v refusal refused
    exact ⟨fun index named operands => bind_of_error (setProperty_refused named operands refused) _,
      fun operands => bind_of_error (setIndex_refused operands refused) _⟩

/-- A read-only instance, and the operands of an assignment to its field `a`. -/
def sealedInstance : World where
  heap := { objects := #[⟨none, Table.ofList [("a", .null)], .lock {}⟩] }
  machine := { stack := #[.object 0, .string "a", .bool true] }

theorem restrictions_last_sealedInstance :
    sealedInstance.Respectful ∧
      step (again 1) 0 .setIndex sealedInstance =
        .error (.failed { error := .readOnlyWrite "a" (sealedInstance.heap.text (.object 0)) })
          { sealedInstance with machine.stack := #[] } :=
  have respectful : sealedInstance.Respectful :=
    World.respectful_of_core fun _ => ⟨.print, by simp [sealedInstance, World.native]; rfl⟩
  ⟨respectful, ((restrictions_last sealedInstance respectful).2.2 (again 1) 0 "a" #[] (.object 0)
    (.bool true) .readOnly (by decide)).2 rfl⟩

end ScriptEngine
