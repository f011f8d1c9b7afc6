import ScriptEngine.Proofs.Amending
import ScriptEngine.Proofs.Emitting
import ScriptEngine.Proofs.Mirroring

/-!
# What woven directives leave as it was

The directives of a statement change the function that they stand in and nothing around it,
if they are carried out one after the other: `Around` says so of the assemblies before and
after. Functions around it may have variables captured, and capture some themselves, which
is all that `Body.bare` leaves out.

The directives of a value do less. They leave the form of the function as it is and add
instructions to its code (`Lengthens`), none of which declares a member of a type (`Settles`).
-/
namespace ScriptEngine

open Assembler

/-- The instructions that declare what instances of a type have. -/
def Instruction.isMember : Instruction → Bool
  | .initChain | .field _ | .method _ => true
  | _ => false

/-- The code goes on, without instructions of a kind, and there may be more constants. -/
structure Chunk.Continues (p : Instruction → Bool) (c c' : Chunk) : Prop where
  code : ∃ is : List Instruction, c'.code.toList = c.code.toList ++ is ∧ ∀ i ∈ is, p i = false
  constants : Grows c.constants c'.constants

section Continues
variable {p : Instruction → Bool} {c c' c'' : Chunk}

theorem Chunk.Continues.refl (p : Instruction → Bool) (c : Chunk) : c.Continues p c := ⟨⟨[], by simp, nofun⟩, .refl _⟩

theorem Chunk.Continues.trans (h : c.Continues p c') (h' : c'.Continues p c'') : c.Continues p c'' := by
  obtain ⟨is, code, others⟩ := h.code
  obtain ⟨is', code', others'⟩ := h'.code
  refine ⟨⟨is ++ is', by rw [code', code, List.append_assoc], fun i hi => ?_⟩, h.constants.trans h'.constants⟩
  exact (List.mem_append.mp hi).elim (others i) (others' i)

end Continues

namespace Assembler

def Local.bare (l : Local) : Local := { l with captured := false }

/-- A function without its captures and without the marks on its locals that are captured. -/
def Body.bare (b : Body) : Body := { b with locals := b.locals.map Local.bare, captures := #[] }

theorem bare_form (b : Body) : b.bare.form = b.form := by
  have keys : (b.locals.map Local.bare).map Local.key = b.locals.map Local.key := by
    rw [List.map_map]
    rfl
  rw [form_iff]
  exact ⟨keys, rfl, rfl, rfl, rfl⟩

theorem form_of_bare {b c : Body} (h : c.bare = b.bare) : c.form = b.form := by
  rw [← bare_form c, h, bare_form]

theorem chunk_of_bare {b c : Body} (h : c.bare = b.bare) : c.chunk = b.chunk := by
  have chunk : c.bare.chunk = b.bare.chunk := by rw [h]
  exact chunk

/-- What is around the current function is as it was. -/
structure Around (a a' : Assembler) : Prop where
  outer : a'.outer.map Body.bare = a.outer.map Body.bare
  aside : a'.aside = a.aside
  types : a'.types = a.types
  testSets : a'.testSets = a.testSets

instance : Std.Refl Around := ⟨fun _ => ⟨rfl, rfl, rfl, rfl⟩⟩

instance : IsTrans Assembler Around := ⟨fun _ _ _ h h' =>
  ⟨h'.outer.trans h.outer, h'.aside.trans h.aside, h'.types.trans h.types, h'.testSets.trans h.testSets⟩⟩

/-- The current function has the form that it had, too, and its code goes on without instructions of a kind. -/
structure Lengthens (p : Instruction → Bool) (a a' : Assembler) : Prop extends Around a a' where
  form : a'.body.form = a.body.form
  chunk : a.body.chunk.Continues p a'.body.chunk

instance (p : Instruction → Bool) : Std.Refl (Lengthens p) := ⟨fun a => ⟨Std.Refl.refl a, rfl, .refl p _⟩⟩

instance (p : Instruction → Bool) : IsTrans Assembler (Lengthens p) := ⟨fun _ _ _ h h' =>
  ⟨IsTrans.trans _ _ _ h.toAround h'.toAround, h'.form.trans h.form, h.chunk.trans h'.chunk⟩⟩

/-- No members are declared. -/
abbrev Settles : Assembler → Assembler → Prop := Lengthens Instruction.isMember

end Assembler

/-- What the assembly comes to is in the relation to where it began. -/
def Moving (R : Assembler → Assembler → Prop) {α : Type} (x : Assembly α) : Prop := ∀ a, Does x a fun _ a' => R a a'

namespace Moving
variable {α β : Type} {R S : Assembler → Assembler → Prop} [Std.Refl R] [IsTrans Assembler R]

omit [Std.Refl R] [IsTrans Assembler R] in
theorem mono {x : Assembly α} (h : Moving R x) (imp : ∀ a a', R a a' → S a a') : Moving S x := fun a =>
  does_mono (h a) fun _ _ => imp _ _

omit [IsTrans Assembler R] in
theorem pure (r : α) : Moving R (Pure.pure r) := fun a => does_pure (Std.Refl.refl a)

omit [Std.Refl R] [IsTrans Assembler R] in
theorem throw (fault : CompileFault) : Moving R (throw fault : Assembly α) := fun _ => does_throw

omit [Std.Refl R] in
theorem bind {x : Assembly α} {f : α → Assembly β} (first : Moving R x) (then_ : ∀ r, Moving R (f r)) :
    Moving R (x >>= f) := fun a =>
  does_bind (does_mono (first a) fun r a' h => does_mono (then_ r a') fun _ _ h' => IsTrans.trans _ _ _ h h')

omit [Std.Refl R] [IsTrans Assembler R] in
theorem ite {c : Prop} [Decidable c] {x y : Assembly α} (hx : Moving R x) (hy : Moving R y) :
    Moving R (if c then x else y) := by
  split
  · exact hx
  · exact hy

theorem forM {f : α → Assembly Unit} (xs : List α) (each : ∀ x, Moving R (f x)) : Moving R (xs.forM f) := by
  induction xs with
  | nil => exact .pure ()
  | cons x xs ih => exact (each x).bind fun _ => ih

theorem mapM {f : α → Assembly β} (xs : List α) (each : ∀ x, Moving R (f x)) : Moving R (xs.mapM f) := by
  induction xs with
  | nil => exact .pure []
  | cons x xs ih =>
    rw [List.mapM_cons]
    exact (each x).bind fun _ => ih.bind fun _ => .pure _

omit [IsTrans Assembler R] in
theorem get : Moving R (get : Assembly Assembler) := fun a => does_get (Std.Refl.refl a)

omit [IsTrans Assembler R] in
theorem getBody : Moving R getBody := fun a => does_bind (does_get (does_pure (Std.Refl.refl a)))

theorem around {x : Assembly α} (h : Moving Settles x) : Moving Around x := h.mono fun _ _ => (·.toAround)

/-- Changes of the current function concern nothing around it. -/
theorem body (f : Assembler → Body) : Moving Around (modify fun a : Assembler => { a with body := f a }) := fun _ =>
  does_modify ⟨rfl, rfl, rfl, rfl⟩

theorem modifyBody (f : Body → Body) : Moving Around (modifyBody f) := body fun a : Assembler => f a.body

/-- A change of the chunk that lets its code go on. -/
theorem chunk {p : Instruction → Bool} {f : Assembler → Chunk} (kind : ∀ a, (f a).kind = a.body.chunk.kind)
    (modifiers : ∀ a, (f a).modifiers = a.body.chunk.modifiers)
    (continues : ∀ a : Assembler, a.body.chunk.Continues p (f a)) :
    Moving (Lengthens p) (modify fun a : Assembler => { a with body := { a.body with chunk := f a } }) := fun a =>
  does_modify ⟨⟨rfl, rfl, rfl, rfl⟩, form_iff.mpr ⟨rfl, rfl, rfl, kind a, modifiers a⟩, continues a⟩

end Moving

/-! ## Code, constants and labels -/

section Lengthens
variable {p : Instruction → Bool}

theorem lengthens_emit {i : Instruction} (other : p i = false) : Moving (Lengthens p) (emit i) :=
  Moving.chunk (f := fun a => a.body.chunk.emit i _) (fun _ => rfl) (fun _ => rfl) fun _ =>
    ⟨⟨[i], Array.toList_push .., fun _ h => List.mem_singleton.mp h ▸ other⟩, .refl _⟩

theorem around_emit (i : Instruction) : Moving Around (emit i) := .body fun a => a.body.emit i _

theorem lengthens_constant (k : Constant) : Moving (Lengthens p) (constant k) := by
  refine .bind .get fun a => ?_
  split
  · rename_i index free
    refine (Moving.chunk (f := fun a => a.body.chunk.putConstant index k) (fun a => ?_) (fun a => ?_) fun a => ?_).bind
      fun _ => .pure _
    · rw [putConstant_eq]
    · rw [putConstant_eq]
    · refine ⟨⟨[], ?_, nofun⟩, grows_putConstant _ _ _⟩
      rw [putConstant_eq, List.append_nil]
  · exact .throw _

theorem lengthens_nameConstant (name : String) : Moving (Lengthens p) (nameConstant name) := lengthens_constant _

theorem lengthens_emitNamed {make : UInt16 → Instruction} (other : ∀ n, p (make n) = false) (name : String) :
    Moving (Lengthens p) (emitNamed make name) := (lengthens_nameConstant name).bind fun n => lengthens_emit (other n)

end Lengthens

theorem settles_nameConstant (name : String) : Moving Settles (nameConstant name) := lengthens_nameConstant name

theorem around_emitNamed (make : UInt16 → Instruction) (name : String) : Moving Around (emitNamed make name) :=
  (settles_nameConstant name).around.bind fun _ => around_emit _

theorem settles_newLabel (name : String) : Moving Settles (newLabel name) := by
  refine .bind .get fun a => ?_
  split
  · exact (Moving.chunk (f := fun a => a.body.chunk.addLabel name) (fun _ => rfl) (fun _ => rfl) fun _ =>
      ⟨⟨[], (List.append_nil _).symm, nofun⟩, .refl _⟩).bind fun _ => .pure _
  · exact .throw _

theorem settles_placeLabel (label : UInt16) : Moving Settles (placeLabel label) :=
  Moving.chunk (f := fun a => a.body.chunk.placeLabel label) (fun _ => rfl) (fun _ => rfl) fun _ =>
    ⟨⟨[], (List.append_nil _).symm, nofun⟩, .refl _⟩

theorem settles_number (n : Number) : Moving Settles (number n) := by
  have large : Moving Settles (do emit (.pushConstant (← constant (.number n)))) :=
    (lengthens_constant _).bind fun _ => lengthens_emit rfl
  unfold number
  split
  · exact .ite (lengthens_emit rfl) large
  · exact large

/-! ## Variables -/

theorem bare_markCaptured (slot : Nat) (ls : List Local) : (markCaptured slot ls).map Local.bare = ls.map Local.bare := by
  induction ls with
  | nil => rfl
  | cons l ls ih =>
    unfold markCaptured
    split
    · rfl
    · rw [List.map_cons, ih, List.map_cons]

theorem bare_addCapture {b b' : Body} {c : Capture} {i : UInt8} (added : addCapture b c = .ok (i, b')) :
    b'.bare = b.bare := by
  unfold addCapture at added
  split at added
  · cases added
    rfl
  · split_ifs at added
    cases added
    rfl

theorem bare_captureFrom {name : String} {b b' : Body} {outer outer' : List Body} {i : UInt8}
    (found : captureFrom name b outer = .ok (some (i, b', outer'))) :
    b'.bare = b.bare ∧ outer'.map Body.bare = outer.map Body.bare := by
  induction outer generalizing b i b' outer' with
  | nil => cases found
  | cons e outer ih =>
    obtain ⟨slot, -, added, rfl⟩ | ⟨-, j, e', es, more, added, rfl⟩ := captureFrom_cons found
    · refine ⟨bare_addCapture added, ?_⟩
      simp only [List.map_cons, Body.bare, bare_markCaptured]
    · obtain ⟨head, tail⟩ := ih more
      exact ⟨bare_addCapture added, by rw [List.map_cons, head, tail, List.map_cons]⟩

theorem settles_findPlace (name : String) : Moving Settles (findPlace name) := by
  intro a
  refine does_bind (does_get (does_bind (does_lift fun r _ => ?_)))
  cases r with
  | some slot => exact does_pure (Std.Refl.refl a)
  | none =>
    refine does_bind (does_lift fun r outward => ?_)
    cases r with
    | some r =>
      obtain ⟨bare, around⟩ := bare_captureFrom outward
      refine does_bind (does_set (does_pure ⟨⟨around, rfl, rfl, rfl⟩, form_of_bare bare, ?_⟩))
      rw [chunk_of_bare bare]
      exact .refl _ _
    | none => exact does_pure (Std.Refl.refl a)

theorem settles_place (name : String) : Moving Settles (place name) := by
  refine (settles_findPlace name).bind fun r => ?_
  cases r with
  | some p => exact .pure p
  | none => exact (settles_nameConstant name).bind fun _ => .pure _

theorem isMember_access (p : Place) : p.getter.isMember = false ∧ p.setter.isMember = false := by
  cases p <;> exact ⟨rfl, rfl⟩

theorem settles_load (name : String) : Moving Settles (load name) :=
  (settles_place name).bind fun p => lengthens_emit (isMember_access p).1

theorem settles_checkStore (name : String) : Moving Settles (checkStore name) := by
  refine (settles_place name).bind fun p => .bind .getBody fun b => ?_
  dsimp only
  split
  · exact .ite ((Moving.throw _).bind fun _ => .pure _) (.pure _)
  · exact .pure _

theorem settles_store (name : String) : Moving Settles (store name) :=
  (settles_checkStore name).bind fun p => lengthens_emit (isMember_access p).2

theorem settles_checkImpure (target : String) : Moving Settles (checkImpure target) :=
  .bind .getBody fun _ => .ite (.throw _) (.pure _)

theorem settles_loadThis : Moving Settles loadThis := by
  refine (settles_findPlace "this").bind fun r => ?_
  cases r with
  | some p => exact lengthens_emit (isMember_access p).1
  | none => exact .throw _

theorem settles_checkSuper : Moving Settles checkSuper := by
  refine .bind .get fun a => ?_
  split
  · exact .throw _
  · exact .ite (.pure _) (.throw _)

theorem settles_perform {d : Directive} (value : d.isValue = true) : Moving Settles (perform d) := by
  cases d with
  | plain i plain => exact lengthens_emit (by cases i <;> first | rfl | cases plain)
  | number n => exact settles_number n
  | string s => exact (lengthens_constant _).bind fun _ => lengthens_emit rfl
  | reserve name => exact (settles_nameConstant name).bind fun _ => .pure _
  | resolve name => exact (settles_place name).bind fun _ => .pure _
  | checkStore name => exact (settles_checkStore name).bind fun _ => .pure _
  | load name => exact settles_load name
  | store name => exact settles_store name
  | receiver => exact lengthens_emit rfl
  | this => exact settles_loadThis
  | checkSuper => exact settles_checkSuper
  | checkImpure target => exact settles_checkImpure target
  | setProperty name => exact (settles_checkImpure _).bind fun _ => lengthens_emitNamed (fun _ => rfl) name
  | setIndex => exact (settles_checkImpure _).bind fun _ => lengthens_emit rfl
  | storeField name => exact (lengthens_emitNamed (fun _ => rfl) name).bind fun _ => lengthens_emit rfl
  | getSuper name | superInvoke name | getProperty name | invoke name | inject name | register name | staticMember name
    | enumValue name => exact lengthens_emitNamed (fun _ => rfl) name
  | _ => cases value

/-! ## Within a function -/

theorem around_beginScope : Moving Around beginScope := .modifyBody _

theorem around_emitDrops (depth : Nat) : Moving Around (emitDrops depth) :=
  .bind .getBody fun _ => .forM _ fun _ => around_emit _

theorem around_endScope : Moving Around endScope :=
  (Moving.modifyBody _).bind fun _ => .bind .getBody fun _ => (around_emitDrops _).bind fun _ => .modifyBody _

theorem around_pushLocal (name : String) : Moving Around (pushLocal name) :=
  .bind .getBody fun _ => .ite ((Moving.throw _).bind fun _ => .modifyBody _) (.modifyBody _)

theorem around_declareLocal (name : String) : Moving Around (declareLocal name) :=
  .bind .getBody fun _ => .ite (.pure ()) <|
    .ite ((Moving.throw _).bind fun _ => around_pushLocal name) (around_pushLocal name)

theorem around_complete : Moving Around complete := .modifyBody _

theorem around_declare (name : String) : Moving Around (declare name) :=
  .bind .getBody fun _ => .ite (around_declareLocal name) ((settles_nameConstant name).around.bind fun _ => .pure ())

theorem around_define (name : String) : Moving Around (define name) :=
  .bind .getBody fun _ => .ite around_complete ((settles_nameConstant name).around.bind fun _ => around_emit _)

theorem around_defineMany (names : List String) : Moving Around (defineMany names) :=
  .bind .getBody fun _ => .ite
    (.forM _ fun name => (around_declareLocal name).bind fun _ => around_complete)
    (.bind (.mapM _ fun name => (settles_nameConstant name).around) fun _ => .forM _ fun _ => around_emit _)

theorem around_listed (name : String) (f : UInt16 → Chunk → Chunk) : Moving Around (do
    let index ← nameConstant name
    modifyChunk (f index)) := (settles_nameConstant name).around.bind fun _ => .modifyBody _

theorem around_parameter (name : String) : Moving Around (parameter name) :=
  (around_declareLocal name).bind fun _ => around_complete.bind fun _ => around_listed name _

theorem around_resultName (name : String) : Moving Around (resultName name) :=
  (around_emit _).bind fun _ => (around_declareLocal name).bind fun _ => around_complete.bind fun _ =>
    around_listed name _

theorem around_storeMatching (fields : List String) : Moving Around (storeMatching fields) := by
  refine .bind .getBody fun b => .forM _ fun x => ?_
  dsimp only
  split
  · exact .ite ((around_emit _).bind fun _ => (around_emit _).bind fun _ => (around_emit _).bind fun _ =>
      around_emit _) (.pure _)
  · exact .pure _

theorem around_implicitReturn : Moving Around implicitReturn :=
  .bind .getBody fun _ => .ite ((around_emit _).bind fun _ => around_emit _)
    (.ite ((around_emit _).bind fun _ => around_emit _)
      ((Moving.forM _ fun _ => around_emit _).bind fun _ => around_emit _))

theorem around_newLabel (name : String) : Moving Around (newLabel name) := (settles_newLabel name).around

theorem around_placeLabel (label : UInt16) : Moving Around (placeLabel label) := (settles_placeLabel label).around

theorem around_pushControl (c : Control) : Moving Around (pushControl c) := .modifyBody _

theorem around_popControl : Moving Around popControl := by
  refine .bind .getBody fun b => ?_
  split
  · exact (Moving.modifyBody _).bind fun _ => .pure _
  · exact .throw _

theorem around_popJoin : Moving Around popJoin := by
  refine around_popControl.bind fun c => ?_
  split
  · exact .pure _
  · exact .throw _

theorem around_popLoop : Moving Around popLoop := by
  refine around_popControl.bind fun c => ?_
  split
  · exact .pure _
  · exact .throw _

theorem around_endJoin : Moving Around endJoin := around_popJoin.bind fun _ => around_placeLabel _

theorem around_branch : Moving Around branch :=
  (around_newLabel _).bind fun _ => (around_newLabel _).bind fun _ => (around_emit _).bind fun _ =>
    (around_emit _).bind fun _ => around_pushControl _

theorem around_branchElse : Moving Around branchElse := by
  refine around_popControl.bind fun c => ?_
  split
  · exact (around_emit _).bind fun _ => (around_placeLabel _).bind fun _ => (around_emit _).bind fun _ =>
      around_pushControl _
  · exact .throw _

theorem around_whileStart : Moving Around whileStart :=
  (around_newLabel _).bind fun _ => (around_newLabel _).bind fun _ => (around_newLabel _).bind fun _ =>
    (around_placeLabel _).bind fun _ => .bind .getBody fun _ => around_pushControl _

theorem around_whileBody : Moving Around whileBody := by
  refine around_popLoop.bind fun l => ?_
  split
  · exact (around_emit _).bind fun _ => (around_emit _).bind fun _ => around_pushControl _
  · exact .throw _

theorem around_placeFail (l : Loop) : Moving Around (placeFail l) := by
  unfold placeFail
  split
  · exact (around_placeLabel _).bind fun _ => around_emit _
  · exact .pure _

theorem around_endLoop : Moving Around endLoop :=
  around_popLoop.bind fun _ => (around_emit _).bind fun _ => (around_placeFail _).bind fun _ => around_placeLabel _

theorem around_forStart : Moving Around forStart :=
  (around_newLabel _).bind fun _ => (around_newLabel _).bind fun _ => (around_newLabel _).bind fun _ =>
    (around_placeLabel _).bind fun _ => .bind .getBody fun _ => around_pushControl _

theorem around_forCondition : Moving Around forCondition :=
  around_popLoop.bind fun _ => (around_newLabel _).bind fun _ => (around_emit _).bind fun _ =>
    (around_emit _).bind fun _ => around_pushControl _

theorem around_forStep : Moving Around forStep := by
  refine around_popLoop.bind fun l => ?_
  split
  · exact (around_emit _).bind fun _ => (around_newLabel _).bind fun _ => (around_placeLabel _).bind fun _ =>
      around_pushControl _
  · exact .throw _

theorem around_forStepEnd : Moving Around forStepEnd :=
  around_popLoop.bind fun _ => (around_emit _).bind fun _ => (around_emit _).bind fun _ => around_pushControl _

theorem around_forBody : Moving Around forBody := by
  refine around_popLoop.bind fun l => ?_
  split
  · exact (around_placeLabel _).bind fun _ => around_pushControl _
  · exact .throw _

theorem around_loopStart : Moving Around loopStart :=
  (around_newLabel _).bind fun _ => (around_newLabel _).bind fun _ => (around_placeLabel _).bind fun _ =>
    .bind .getBody fun _ => around_pushControl _

theorem around_loopEnd : Moving Around loopEnd := by
  have rest (l : Loop) : Moving Around (do
      emit (.goto l.next)
      placeLabel l.exit) := (around_emit _).bind fun _ => around_placeLabel _
  exact around_popLoop.bind fun l => .ite (rest l) ((Moving.throw _).bind fun _ => rest l)

theorem around_leaveLoops : Moving Around leaveLoops := .modifyBody _

theorem around_currentLoop (keyword : String) : Moving Around (currentLoop keyword) := by
  refine .bind .getBody fun b => ?_
  split
  · exact .pure _
  · exact .throw _

theorem around_breakLoop : Moving Around breakLoop :=
  (around_currentLoop _).bind fun _ => (around_emitDrops _).bind fun _ => (around_emit _).bind fun _ => .modifyBody _

theorem around_continueLoop : Moving Around continueLoop :=
  (around_currentLoop _).bind fun _ => (around_emitDrops _).bind fun _ => around_emit _

theorem around_returnCheck : Moving Around returnCheck :=
  .bind .getBody fun _ => .ite ((Moving.throw _).bind fun _ => .modifyBody _) (.modifyBody _)

theorem around_perform {d : Directive} (inside : d.isLocal = true) : Moving Around (perform d) := by
  cases d with
  | beginScope => exact around_beginScope
  | endScope => exact around_endScope
  | declare name => exact around_declare name
  | define name => exact around_define name
  | defineMany names => exact around_defineMany names
  | declareFunction name => exact (around_declare name).bind fun _ => around_complete
  | parameter name => exact around_parameter name
  | resultName name => exact around_resultName name
  | storeMatching fields => exact around_storeMatching fields
  | returnCheck => exact around_returnCheck
  | returnValueCheck => exact .bind .getBody fun _ => .ite (.throw _) (.pure _)
  | implicitReturn => exact around_implicitReturn
  | leaveLoops => exact around_leaveLoops
  | branch => exact around_branch
  | branchElse => exact around_branchElse
  | branchEnd => exact around_endJoin
  | whileStart => exact around_whileStart
  | whileBody => exact around_whileBody
  | whileEnd | forEnd => exact around_endLoop
  | forStart => exact around_forStart
  | forCondition => exact around_forCondition
  | forStep => exact around_forStep
  | forStepEnd => exact around_forStepEnd
  | forBody => exact around_forBody
  | loopStart => exact around_loopStart
  | loopEnd => exact around_loopEnd
  | loopCheck keyword => exact (around_currentLoop keyword).bind fun _ => .pure _
  | breakLoop => exact around_breakLoop
  | continueLoop => exact around_continueLoop
  | method name => exact around_emitNamed _ name
  | caseCheck => exact .bind .get fun _ => .ite (.pure _) (.throw _)
  | unreachable keyword line => exact fun _ => does_modify ⟨rfl, rfl, rfl, rfl⟩
  | _ => cases inside

/-! ## What is opened and closed -/

section ShortCircuits
variable {a a' : Assembler} {label : UInt16}

/-- The assembly within a short circuit. -/
abbrev Assembler.joining (a : Assembler) (label : UInt16) : Assembler :=
  a.setBody (a.body.setControl (.join label :: a.body.control))

theorem Assembler.Settles.joining (h : Settles a a') (label : UInt16) : Settles (a.joining label) (a'.joining label) := by
  refine ⟨⟨h.outer, h.aside, h.types, h.testSets⟩, ?_, h.chunk⟩
  obtain ⟨locals, depth, control, kind, modifiers⟩ := form_iff.mp h.form
  exact form_iff.mpr ⟨locals, depth, congrArg (List.cons _) control, kind, modifiers⟩

theorem settles_opens {d : Directive} (opens : d = .andThen ∨ d = .orElse) (a : Assembler) :
    Does (perform d) a fun _ a' => ∃ label, Settles (a.joining label) a' := by
  have push {x : Assembly UInt16} (h : Moving Settles x) : Does (x >>= fun label => pushControl (.join label)) a
      fun _ a' => ∃ label, Settles (a.joining label) a' :=
    does_bind (does_mono (h a) fun label _ settles => does_modify ⟨label, settles.joining label⟩)
  obtain rfl | rfl := opens
  · have before : Moving Settles (do
        let finish ← newLabel "and_end"
        emit (.gotoIfFalse finish)
        emit .pop
        return finish) :=
      (settles_newLabel _).bind fun _ => (lengthens_emit rfl).bind fun _ => (lengthens_emit rfl).bind fun _ => .pure _
    have opened := push before
    simp only [bind_assoc, pure_bind] at opened
    exact opened
  · have before : Moving Settles (do
        let right ← newLabel "or_rhs"
        let finish ← newLabel "or_end"
        emit (.gotoIfFalse right)
        emit (.goto finish)
        placeLabel right
        emit .pop
        return finish) :=
      (settles_newLabel _).bind fun _ => (settles_newLabel _).bind fun _ => (lengthens_emit rfl).bind fun _ =>
        (lengthens_emit rfl).bind fun _ => (settles_placeLabel _).bind fun _ => (lengthens_emit rfl).bind fun _ => .pure _
    have opened := push before
    simp only [bind_assoc, pure_bind] at opened
    exact opened

theorem settles_endJoin (h : Settles (a.joining label) a') : Does endJoin a' fun _ a'' => Settles a a'' := by
  obtain ⟨locals, depth, control, kind, modifiers⟩ := form_iff.mp h.form
  obtain ⟨c, cs, open_, join, rest⟩ := List.map_eq_cons_iff.mp control
  have popped : Settles a (a'.setBody (a'.body.setControl cs)) :=
    ⟨⟨h.outer, h.aside, h.types, h.testSets⟩, form_iff.mpr ⟨locals, depth, rest, kind, modifiers⟩, h.chunk⟩
  refine does_bind (does_bind (does_bind (does_bind (does_get (does_pure ?_)))))
  rw [open_]
  refine does_bind (does_modify (does_pure ?_))
  cases c with
  | join l => exact does_pure (does_mono (settles_placeLabel l _) fun _ _ placed => IsTrans.trans _ _ _ popped placed)
  | branch | loop => cases join

end ShortCircuits

section Functions
variable {a a' a'' : Assembler}

/-- The assembly is within a function that has begun. -/
def Assembler.Within (a a' : Assembler) : Prop :=
  ∃ a₁, Settles a a₁ ∧ Around { a₁ with outer := a₁.body :: a₁.outer } a'

theorem Assembler.Within.around (h : a.Within a') (h' : Around a' a'') : a.Within a'' := by
  obtain ⟨a₁, settles, around⟩ := h
  exact ⟨a₁, settles, IsTrans.trans _ _ _ around h'⟩

theorem Assembler.Within.after {a₀ : Assembler} (h : Settles a₀ a) (h' : a.Within a') : a₀.Within a' := by
  obtain ⟨a₁, settles, around⟩ := h'
  exact ⟨a₁, IsTrans.trans _ _ _ h settles, around⟩

theorem within_beginFunction (kind : FunctionKind) (name : String) (m : Modifiers) (a : Assembler) :
    Does (beginFunction kind name m) a fun _ a' => a.Within a' := by
  refine does_bind (does_get ?_)
  dsimp only
  split
  · exact does_bind does_throw
  · exact does_set ⟨a, Std.Refl.refl a, rfl, rfl, rfl, rfl⟩

/-- The closure is all that is left of a function that has ended. -/
theorem settles_endFunction (h : a.Within a') : Does endFunction a' fun _ a'' => Settles a a'' := by
  refine does_bind (does_mono (around_implicitReturn a') fun _ a₂ returns => ?_)
  obtain ⟨a₁, settles, around⟩ := h.around returns
  obtain ⟨e, outer, open_, here, rest⟩ := List.map_eq_cons_iff.mp around.outer
  refine does_bind (does_bind (does_get ?_))
  rw [open_]
  refine does_bind (does_set (does_pure ?_))
  have left : Settles a₁ { a₂ with body := e, outer := outer } := by
    refine ⟨⟨rest, around.aside, around.types, around.testSets⟩, form_of_bare here, ?_⟩
    rw [chunk_of_bare here]
    exact .refl _ _
  have listed (chunk : Chunk) : Moving Settles (modify fun a : Assembler => { a with chunks := a.chunks.push chunk }) :=
    fun _ => does_modify ⟨⟨rfl, rfl, rfl, rfl⟩, rfl, .refl _ _⟩
  have closure (chunk : Chunk) : Moving Settles (do
      let index := (← get).chunks.size
      modify fun a : Assembler => { a with chunks := a.chunks.push chunk }
      emit (.closure (← constant (.chunk (.listed index))))
      a₂.body.captures.toList.forM fun c => emit (.capture c)) :=
    .bind .get fun _ => (listed _).bind fun _ => (lengthens_constant _).bind fun _ => (lengthens_emit rfl).bind fun _ =>
      .forM _ fun _ => lengthens_emit rfl
  refine does_mono ((Moving.ite (closure _) ((Moving.throw _).bind fun _ => closure _)) _) fun _ _ closes => ?_
  exact IsTrans.trans _ _ _ settles (IsTrans.trans _ _ _ left closes)

theorem within_stepOut (h : a.Within a') : Does stepOut a' fun _ a'' =>
    ∃ b, Around { a with aside := b :: a.aside } a'' := by
  obtain ⟨a₁, settles, around⟩ := h
  obtain ⟨e, outer, open_, here, rest⟩ := List.map_eq_cons_iff.mp around.outer
  refine does_bind (does_bind (does_get ?_))
  rw [open_]
  refine does_bind (does_set (does_pure (does_modify ⟨a'.body, ?_, ?_, ?_, ?_⟩)))
  · exact rest.trans settles.outer
  · exact congrArg (List.cons _) (around.aside.trans settles.aside)
  · exact around.types.trans settles.types
  · exact around.testSets.trans settles.testSets

theorem within_stepIn {b : Body} (h : Around { a with aside := b :: a.aside } a') :
    Does stepIn a' fun _ a'' => { a with body := a'.body : Assembler }.Within a'' := by
  refine does_bind (does_get ?_)
  rw [h.aside]
  refine does_set ⟨_, Std.Refl.refl _, ?_, rfl, h.types, h.testSets⟩
  exact congrArg (List.cons _) h.outer

end Functions

section Types
variable {a a' a'' : Assembler}

/-- The assembly is within the body of a type. -/
def Assembler.InType (a a' : Assembler) : Prop := a'.types ≠ [] ∧ Around a { a' with types := a'.types.tail }

theorem Assembler.InType.around (h : a.InType a') (h' : Around a' a'') : a.InType a'' := by
  refine ⟨h'.types ▸ h.1, h'.outer.trans h.2.outer, h'.aside.trans h.2.aside, ?_, h'.testSets.trans h.2.testSets⟩
  exact (congrArg List.tail h'.types).trans h.2.types

theorem inType_beginType (kind : TypeKind) (name : String) (a : Assembler) :
    Does (beginType kind name) a fun _ a' => a.InType a' := by
  refine does_bind (does_mono ((settles_nameConstant name).around a) fun index a₁ h₁ => ?_)
  refine does_bind (does_mono (around_declare name a₁) fun _ a₂ h₂ => ?_)
  refine does_bind (does_mono (around_emit _ a₂) fun _ a₃ h₃ => ?_)
  refine does_bind (does_mono (around_define name a₃) fun _ a₄ h₄ => ?_)
  have h : Around a a₄ := IsTrans.trans _ _ _ (IsTrans.trans _ _ _ h₁ h₂) (IsTrans.trans _ _ _ h₃ h₄)
  exact does_modify ⟨List.cons_ne_nil _ _, h.outer, h.aside, h.types, h.testSets⟩

theorem inType_inheritFrom (parent name : String) (h : a.InType a') :
    Does (inheritFrom parent name) a' fun _ => a.InType := by
  refine does_bind (does_mono ((settles_load parent).around a') fun _ a₁ h₁ => ?_)
  refine does_bind (does_mono (around_beginScope a₁) fun _ a₂ h₂ => ?_)
  refine does_bind (does_mono (around_pushLocal _ a₂) fun _ a₃ h₃ => ?_)
  refine does_bind (does_mono (around_complete a₃) fun _ a₄ h₄ => ?_)
  refine does_bind (does_mono ((settles_load name).around a₄) fun _ a₅ h₅ => ?_)
  refine does_bind (does_mono (around_emit _ a₅) fun _ a₆ h₆ => does_modify ?_)
  have h := (((((h.around h₁).around h₂).around h₃).around h₄).around h₅).around h₆
  split
  · rename_i t rest types
    refine ⟨List.cons_ne_nil _ _, h.2.outer, h.2.aside, ?_, h.2.testSets⟩
    exact (congrArg List.tail types).symm.trans h.2.types
  · exact h

theorem around_endType (h : a.InType a') : Does endType a' fun _ a'' => Around a a'' := by
  refine does_bind (does_mono (around_emit _ a') fun _ a₁ h₁ => ?_)
  refine does_bind (does_mono (around_emit _ a₁) fun _ a₂ h₂ => does_bind (does_get ?_))
  have h := (h.around h₁).around h₂
  split
  swap
  · exact does_throw
  rename_i t rest types
  have drop {a₃ : Assembler} (h₃ : Around a₂ a₃) : Does (modify fun a : Assembler => { a with types := rest }) a₃
      fun _ a'' => Around a a'' := by
    have h := (h.around h₃).2
    refine does_modify ⟨h.outer, h.aside, ?_, h.testSets⟩
    have same : a₃.types.tail = rest := by rw [h₃.types, types]; rfl
    exact same.symm.trans h.types
  dsimp only
  split
  · exact does_bind (does_mono (around_endScope a₂) fun _ _ h₃ => drop h₃)
  · exact drop (Std.Refl.refl a₂)

end Types

/-! ## What is woven -/

/-- Steps with these directives lead to what is in the relation to where they began. -/
def Carried (R : Assembler → Assembler → Prop) (ds : List Directive) : Prop :=
  ∀ steps : List Step, steps.map (·.directive) = ds → Moving R (performAll steps)

section Carried
variable {R M : Assembler → Assembler → Prop} {ds es : List Directive} {d e : Directive}

theorem does_steps_cons {steps : List Step} {a : Assembler} {Q : Unit → Assembler → Prop}
    (same : steps.map (·.directive) = d :: ds)
    (h : ∀ m rest, rest.map (·.directive) = ds →
      Does (perform d) { a with mark := m } fun _ a' => Does (performAll rest) a' Q) : Does (performAll steps) a Q := by
  obtain ⟨t, rest, rfl, rfl, same'⟩ := List.map_eq_cons_iff.mp same
  exact does_bind (does_bind (does_modify (h t.mark rest same')))

theorem does_steps_append {steps : List Step} {a : Assembler} {Q : Unit → Assembler → Prop}
    (same : steps.map (·.directive) = ds ++ es)
    (h : ∀ front back, front.map (·.directive) = ds → back.map (·.directive) = es →
      Does (performAll front) a fun _ a' => Does (performAll back) a' Q) : Does (performAll steps) a Q := by
  obtain ⟨front, back, rfl, first, second⟩ := List.map_eq_append_iff.mp same
  rw [performAll_append_eq]
  exact does_bind (h front back first second)

theorem does_steps_last {steps : List Step} {a : Assembler} {Q : Unit → Assembler → Prop}
    (same : steps.map (·.directive) = [d]) (h : ∀ m, Does (perform d) { a with mark := m } Q) :
    Does (performAll steps) a Q :=
  does_steps_cons same fun m rest none => does_mono (h m) fun _ _ done => by
    obtain rfl := List.map_eq_nil_iff.mp none
    exact does_pure done

theorem carried_nil [Std.Refl R] : Carried R [] := fun steps same => by
  obtain rfl := List.map_eq_nil_iff.mp same
  exact .pure ()

theorem Carried.append [IsTrans Assembler R] (first : Carried R ds) (second : Carried R es) : Carried R (ds ++ es) :=
  fun _ same a => does_steps_append same fun front back same same' => does_mono (first front same a) fun _ a' h =>
    does_mono (second back same' a') fun _ _ h' => IsTrans.trans _ _ _ h h'

theorem Carried.mono {S : Assembler → Assembler → Prop} (h : Carried R ds) (imp : ∀ a a', R a a' → S a a') :
    Carried S ds := fun steps same => (h steps same).mono imp

/-- Something opens what `M` describes, something keeps it and something closes it. -/
theorem carried_bracket (opens : ∀ a, Does (perform d) a fun _ a' => M a a')
    (inner : ∀ steps : List Step, steps.map (·.directive) = ds → ∀ a a', M a a' → Does (performAll steps) a' fun _ => M a)
    (closes : ∀ a a', M a a' → Does (perform e) a' fun _ => R a)
    (marks : ∀ a a' m m', M { a with mark := m } a' → M a { a' with mark := m' }) :
    Carried R (d :: (ds ++ [e])) := fun _ same a =>
  does_steps_cons same fun m _ same => does_mono (opens _) fun _ a₁ h => does_steps_append same
    fun front _ same same' => does_mono (inner front same _ a₁ h) fun _ a₂ h' => does_steps_last same'
      fun m' => closes a _ (marks a a₂ m m' h')

end Carried

theorem settles_single {d : Directive} (value : d.isValue = true) : Carried Settles [d] := fun _ same _ =>
  does_steps_last same fun _ => does_mono (settles_perform value _) fun _ _ h =>
    ⟨⟨h.outer, h.aside, h.types, h.testSets⟩, h.form, h.chunk⟩

theorem around_single {d : Directive} (fits : d.fits .body = true) : Carried Around [d] := fun _ same _ => by
  have moving : Moving Around (perform d) :=
    (Bool.or_eq_true_iff.mp fits).elim (fun value => (settles_perform value).around) around_perform
  exact does_steps_last same fun _ => does_mono (moving _) fun _ _ h => ⟨h.outer, h.aside, h.types, h.testSets⟩

section Brackets
variable {ds : List Directive}

theorem settles_short {d : Directive} (opens : d = .andThen ∨ d = .orElse) (inner : Carried Settles ds) :
    Carried Settles (d :: (ds ++ [.shortEnd])) :=
  carried_bracket (M := fun a a' => ∃ label, Settles (a.joining label) a') (settles_opens opens)
    (fun steps same _ a' ⟨label, h⟩ => does_mono (inner steps same a') fun _ _ h' =>
      ⟨label, IsTrans.trans _ _ _ h h'⟩)
    (fun _ _ ⟨_, h⟩ => settles_endJoin h)
    fun _ _ _ _ ⟨label, h⟩ => ⟨label, ⟨h.outer, h.aside, h.types, h.testSets⟩, h.form, h.chunk⟩

theorem carried_function {R : Assembler → Assembler → Prop} {d e : Directive}
    (begins : ∀ a, Does (perform d) a fun _ => a.Within) (inner : Carried Around ds)
    (ends : ∀ a a', a.Within a' → Does (perform e) a' fun _ => R a) : Carried R (d :: (ds ++ [e])) :=
  carried_bracket begins (fun steps same _ a' h => does_mono (inner steps same a') fun _ _ h' => h.around h') ends
    fun _ _ _ _ ⟨a₁, settles, around⟩ => ⟨a₁, ⟨⟨settles.outer, settles.aside, settles.types, settles.testSets⟩,
      settles.form, settles.chunk⟩, around.outer, around.aside, around.types, around.testSets⟩

theorem settles_function (kind : FunctionKind) (name : String) (m : Modifiers) (inner : Carried Around ds) :
    Carried Settles (.beginFunction kind name m :: (ds ++ [.endFunction])) :=
  carried_function (within_beginFunction kind name m) inner fun _ _ => settles_endFunction

theorem around_chain (fields : List String) (inner : Carried Around ds) :
    Carried Around (.beginInitChain :: (ds ++ [.endInitChain fields])) :=
  carried_function (within_beginFunction _ _ _) inner fun _ _ h => does_bind (does_mono (settles_endFunction h)
    fun _ a' h => does_mono (((around_emit _).bind fun _ => .forM _ fun _ =>
      (settles_nameConstant _).around.bind fun _ => around_emit _) a') fun _ _ h' => IsTrans.trans _ _ _ h.toAround h')

theorem around_case (name : String) (inner : Carried Around ds) :
    Carried Around (.beginCase name :: (ds ++ [.endCase name false])) :=
  carried_function
    (fun a => does_bind (does_mono (settles_nameConstant name a) fun _ a₁ h => does_mono
      (within_beginFunction _ _ _ a₁) fun _ _ => .after h))
    inner fun _ _ h => does_bind (does_mono (settles_endFunction h) fun _ a' h => does_mono (around_emitNamed _ name a')
      fun _ _ h' => IsTrans.trans _ _ _ h.toAround h')

theorem around_test (name : String) (inner : Carried Around ds) :
    Carried Around (.beginTest name :: (ds ++ [.endTest name])) := by
  refine carried_bracket (M := fun a a' => a.Within { a' with testSets := a'.testSets.tail })
    (fun a => ?_) (fun steps same a a' h => ?_) (fun a a' h => ?_) fun _ _ _ _ h => ?_
  · refine does_bind (does_mono (settles_nameConstant name a) fun _ a₁ h => ?_)
    exact does_bind (does_mono (within_beginFunction _ _ _ a₁) fun _ _ h' => does_modify (h'.after h))
  · exact does_mono (inner steps same a') fun _ _ h' =>
      h.around ⟨h'.outer, h'.aside, h'.types, congrArg List.tail h'.testSets⟩
  · refine does_bind (does_modify (does_bind (does_mono (settles_endFunction h) fun _ a'' h => ?_)))
    exact does_mono (around_emitNamed _ name a'') fun _ _ h' => IsTrans.trans _ _ _ h.toAround h'
  · obtain ⟨a₁, settles, around⟩ := h
    exact ⟨a₁, ⟨⟨settles.outer, settles.aside, settles.types, settles.testSets⟩, settles.form, settles.chunk⟩,
      around.outer, around.aside, around.types, around.testSets⟩

theorem around_type (kind : TypeKind) (name : String) (parents : List String) (inner : Carried Around ds) :
    Carried Around (.beginType kind name :: (parents.map (.inheritFrom · name) ++ ds ++ [.endType])) := by
  have inherits (steps : List Step) (same : steps.map (·.directive) = parents.map (.inheritFrom · name))
      (a a' : Assembler) (h : a.InType a') : Does (performAll steps) a' fun _ => a.InType := by
    induction parents generalizing steps a' with
    | nil =>
      obtain rfl := List.map_eq_nil_iff.mp same
      exact does_pure h
    | cons parent parents ih =>
      exact does_steps_cons same fun m rest same => does_mono
        (inType_inheritFrom parent name (h.around ⟨rfl, rfl, rfl, rfl⟩)) fun _ a'' h => ih rest same a'' h
  refine carried_bracket (M := Assembler.InType) (inType_beginType kind name) (fun steps same a a' h => ?_)
    (fun _ _ => around_endType) fun _ _ _ _ h => ⟨h.1, h.2.outer, h.2.aside, h.2.types, h.2.testSets⟩
  exact does_steps_append same fun front back same same' => does_mono (inherits front same a a' h) fun _ a'' h =>
    does_mono (inner back same' a'') fun _ _ h' => h.around h'

/-- The arguments are a value in the function around the case, whose code they lengthen. -/
theorem around_rows (name : String) {es fs : List Directive} (before : Carried Around ds) (arguments : Carried Settles es)
    (after : Carried Around fs) : Carried Around
      (.beginCase name :: (ds ++ .stepOut :: (es ++ .stepIn :: (fs ++ [.endCase name true])))) := by
  intro steps same a
  have begins (m : Mark) : Does (perform (.beginCase name)) { a with mark := m } fun _ => a.Within :=
    does_bind (does_mono (settles_nameConstant name _) fun _ a₁ h => does_mono (within_beginFunction _ _ _ a₁)
      fun _ _ => .after ⟨⟨h.outer, h.aside, h.types, h.testSets⟩, h.form, h.chunk⟩)
  refine does_steps_cons same fun m rest same => does_mono (begins m) fun _ a₁ h => ?_
  refine does_steps_append same fun front rest same same' => does_mono (before front same a₁) fun _ a₂ h₂ => ?_
  replace h := h.around h₂
  refine does_steps_cons same' fun m rest same => does_mono (within_stepOut (h.around ⟨rfl, rfl, rfl, rfl⟩))
    fun _ a₃ h => ?_
  obtain ⟨b, h⟩ := h
  refine does_steps_append same fun front rest same same' => does_mono (arguments front same a₃) fun _ a₄ h₄ => ?_
  replace h : Around { a with aside := b :: a.aside } a₄ := IsTrans.trans _ _ _ h h₄.toAround
  refine does_steps_cons same' fun m rest same => does_mono
    (within_stepIn (b := b) (a := a) ⟨h.outer, h.aside, h.types, h.testSets⟩) fun _ a₅ h => ?_
  refine does_steps_append same fun front rest same same' => does_mono (after front same a₅) fun _ a₆ h₆ => ?_
  refine does_steps_last same' fun m => ?_
  refine does_bind (does_mono (settles_endFunction ((h.around h₆).around ⟨rfl, rfl, rfl, rfl⟩)) fun _ a₇ h => ?_)
  exact does_mono (around_emitNamed _ name a₇) fun _ _ h' =>
    have last := IsTrans.trans _ _ _ h.toAround h'
    ⟨last.outer, last.aside, last.types, last.testSets⟩

end Brackets

/-- What directives that reach so far lead to. -/
def Reach.relation : Reach → Assembler → Assembler → Prop
  | .value => Settles
  | .body => Around

theorem Woven.carried {r : Reach} {ds : List Directive} (h : Woven r ds) : Carried r.relation ds := by
  induction h with
  | nil r =>
    cases r with
    | value => exact carried_nil (R := Settles)
    | body => exact carried_nil (R := Around)
  | @append r _ _ _ _ ih ih' =>
    cases r with
    | value => exact Carried.append (R := Settles) ih ih'
    | body => exact Carried.append (R := Around) ih ih'
  | loosen _ ih => exact ih.mono fun _ _ => (·.toAround)
  | @single r _ fits =>
    cases r with
    | value => exact settles_single fits
    | body => exact around_single fits
  | short opens _ ih => exact settles_short opens ih
  | function _ ih => exact settles_function _ _ _ ih
  | chain _ ih => exact around_chain _ ih
  | type _ ih => exact around_type _ _ _ ih
  | test _ ih => exact around_test _ ih
  | case _ ih => exact around_case _ ih
  | rows _ _ _ ih ih' ih'' => exact around_rows _ ih ih' ih''

end ScriptEngine
