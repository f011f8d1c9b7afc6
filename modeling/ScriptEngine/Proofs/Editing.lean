import Mathlib.Logic.Relation
import ScriptEngine.Proofs.Keeping

/-!
# What instructions do to the heap

`Heap.Edit` lists the changes of the heap that there are: something new, a
captured variable, the elements of a list or map, flags that are set, and a
member that is stored as its holder's flags allow. The parts of types are put
together, and their members declared without asking the flags, where `may` admits
it; what functions of the host allocate is subject to `host`.

Every instruction is a chain of such changes if the calls that it makes are, and
so is everything that is run.
-/
namespace ScriptEngine

/-- What the body of a type does to it: it declares a static member, or it adds to the other parts. -/
inductive Change where
  | member (type : Nat)
  | part (type : Nat)
  deriving DecidableEq, Repr

/-- One change of a heap. -/
inductive Heap.Edit (may : Change → Prop) (host : Heap → Heap → Prop) (h : Heap) : Heap → Prop
  | load (s : Script) : Edit may host h (h.load s).2
  | addCell (c : Cell) : Edit may host h (h.addCell c).2
  | addClosure (c : Closure) : Edit may host h (h.addClosure c).2
  | addType (t : UserType) : Edit may host h (h.addType t).2
  | addObject (o : Object) : Edit may host h (h.addObject o).2
  | addBound (receiver method : Value) : Edit may host h (h.addBound receiver method).2
  | addCombination (parts : List Value) : Edit may host h (h.addCombination parts).2
  | addList (items : Array Value) : Edit may host h (h.addList items).2
  | addMap (entries : Table MapKey Value) : Edit may host h (h.addMap entries).2
  | setCell (ref : Nat) (c : Cell) : Edit may host h (h.setCell ref c)
  | updateList (ref : Nat) (f : Array Value → Array Value) : Edit may host h (h.updateList ref f)
  | updateMap (ref : Nat) (f : Table MapKey Value → Table MapKey Value) :
      Edit may host h (h.updateMap ref f)
  /-- Neither the static members of the type nor its flags. -/
  | updateType (ref : Nat) (f : UserType → UserType) (statics : ∀ t, (f t).statics = t.statics)
      (flags : ∀ t, (f t).flags = t.flags) (admitted : may (.part ref)) :
      Edit may host h (h.updateType ref f)
  | restrictObject (ref : Nat) (f : Object → Flags)
      (sets : ∀ o, f o = o.flags.freeze ∨ f o = o.flags.lock) :
      Edit may host h (h.updateObject ref fun o => { o with flags := f o })
  | restrictType (ref : Nat) (f : UserType → Flags)
      (sets : ∀ t, f t = t.flags.freeze ∨ f t = t.flags.lock) :
      Edit may host h (h.updateType ref fun t => { t with flags := f t })
  | storeObject (ref : Nat) (name : String) (v : Value)
      (allowed : (h.object ref).flags.refuses ((h.object ref).fields.contains name) = none) :
      Edit may host h (h.updateObject ref fun o => { o with fields := o.fields.insert name v })
  | storeType (ref : Nat) (name : String) (v : Value)
      (allowed : (h.userType ref).flags.refuses ((h.userType ref).statics.contains name) = none) :
      Edit may host h (h.updateType ref fun t => { t with statics := t.statics.insert name v })
  | declare (ref : Nat) (name : String) (v : Value) (admitted : may (.member ref)) :
      Edit may host h (h.updateType ref fun t => { t with statics := t.statics.insert name v })
  | host (h' : Heap) (subject : host h h') : Edit may host h h'

/-- One change of the world: of the machine or of the heap. -/
inductive World.Edit (may : Change → Prop) (host : Heap → Heap → Prop) (w : World) : World → Prop
  | machine (m : Machine) : Edit may host w { w with machine := m }
  | heap (h : Heap) (edit : w.heap.Edit may host h) : Edit may host w { w with heap := h }

/-- Any number of changes. -/
abbrev World.Edited (may : Change → Prop) (host : Heap → Heap → Prop) : World → World → Prop :=
  Relation.ReflTransGen (World.Edit may host)

/-- What a function of the host allocates is subject to `host`. -/
def NativeProgram.Heeds (host : Heap → Heap → Prop) : NativeProgram → Prop
  | .finish _ | .raise _ => True
  | .count next => ∀ n, (next n).Heeds host
  | .argument _ next => ∀ v, (next v).Heeds host
  | .read next => ∀ h, (next h).Heeds host
  | .allocate make next => (∀ h, host h (make h).2) ∧ ∀ v, (next v).Heeds host
  | .push _ next => next.Heeds host
  | .call _ _ next => ∀ r, (next r).Heeds host
  | .interpret _ next => next.Heeds host

def NativeBody.Heeds (host : Heap → Heap → Prop) : NativeBody → Prop
  | .core _ => True
  | .program steps => steps.Heeds host

/-- All functions of the host are subject to `host`. -/
def World.Heeds (host : Heap → Heap → Prop) (w : World) : Prop :=
  ∀ ref, (w.native ref).Heeds host

namespace World

variable {may : Change → Prop} {host : Heap → Heap → Prop} {w w' : World}

theorem Edit.natives (h : Edit may host w w') : w'.natives = w.natives := by
  cases h <;> rfl

theorem Edited.natives (h : Edited may host w w') : w'.natives = w.natives := by
  induction h with
  | refl => rfl
  | tail _ edit ih => exact edit.natives.trans ih

theorem Edited.heeds (h : Edited may host w w') (heeds : w.Heeds host) : w'.Heeds host := by
  intro ref
  unfold native
  rw [h.natives]
  exact heeds ref

end World

namespace Run

variable {α β : Type} {may : Change → Prop} {host : Heap → Heap → Prop}

/-- The world in which a computation leaves off. -/
def after (x : Run α) (w : World) : World := left (x w)

/-- All that a computation does is a chain of changes. -/
def Edits (may : Change → Prop) (host : Heap → Heap → Prop) (x : Run α) : Prop :=
  ∀ w : World, w.Heeds host → w.Edited may host (x.after w)

theorem after_ok {x : Run α} {w w' : World} {a : α} (h : x w = .ok a w') : x.after w = w' := by
  unfold after
  rw [h]
  rfl

/-- Whether a computation comes to a result. -/
def succeeds (x : Run α) (w : World) : Bool :=
  match x w with
  | .ok _ _ => true
  | .error _ _ => false

theorem ok_after {x : Run α} {w : World} (goes : succeeds x w) : ∃ a, x w = .ok a (x.after w) := by
  unfold succeeds at goes
  cases ran : x w with
  | ok a w' => exact ⟨a, congrArg _ (after_ok ran).symm⟩
  | error => simp [ran] at goes

theorem bind_eq (x : Run α) (f : α → Run β) (w : World) :
    (x >>= f) w = match x w with
      | .ok a w' => f a w'
      | .error e w' => .error e w' := by
  change EStateM.bind x f w = _
  unfold EStateM.bind
  cases x w <;> rfl

theorem bind_ok {x : Run α} {f : α → Run β} {w w'' : World} {b : β} (h : (x >>= f) w = .ok b w'') :
    ∃ a w', x w = .ok a w' ∧ f a w' = .ok b w'' := by
  rw [bind_eq] at h
  cases hx : x w with
  | error e w' =>
    rw [hx] at h
    cases h
  | ok a w' =>
    rw [hx] at h
    exact ⟨a, w', rfl, h⟩

theorem bind_of_ok {x : Run α} {w u : World} {a : α} (h : x w = .ok a u) (f : α → Run β) :
    (x >>= f) w = f a u := by
  rw [bind_eq, h]

theorem bind_of_error {x : Run α} {w w' : World} {e : Halt} (h : x w = .error e w') (f : α → Run β) :
    (x >>= f) w = .error e w' := by
  rw [bind_eq, h]

theorem edited_bind {x : Run α} {f : α → Run β} {w : World} (first : w.Edited may host (x.after w))
    (then_ : ∀ a w', x w = .ok a w' → w'.Edited may host ((f a).after w')) :
    w.Edited may host ((x >>= f).after w) := by
  unfold after at first ⊢
  rw [bind_eq]
  cases hx : x w with
  | error e w' => rwa [hx] at first
  | ok a w' =>
    rw [hx] at first
    exact first.trans (then_ a w' hx)

theorem after_map (x : Run α) (f : α → β) (w : World) : (f <$> x).after w = x.after w := by
  unfold after
  change (match EStateM.map f x w with | .ok _ w | .error _ w => w) = _
  unfold EStateM.map
  cases x w <;> rfl

theorem after_attempt (x : Run α) (w : World) : (attempt x).after w = x.after w := by
  unfold after attempt
  cases x w with
  | ok => rfl
  | error e => cases e <;> rfl

theorem after_located (x : Run α) (w : World) : (located x).after w = x.after w := by
  unfold after located
  cases x w with
  | ok => rfl
  | error e => cases e <;> rfl

namespace Edits

theorem pure (a : α) : Edits may host (Pure.pure a : Run α) := fun _ _ => .refl

theorem throw (e : Halt) : Edits may host (throw e : Run α) := fun _ _ => .refl

theorem bind {x : Run α} {f : α → Run β} (first : Edits may host x) (then_ : ∀ a, Edits may host (f a)) :
    Edits may host (x >>= f) := fun w heeds =>
  edited_bind (first w heeds) fun a w' hx =>
    then_ a w' ((after_ok hx ▸ first w heeds).heeds heeds)

theorem ite {c : Prop} [Decidable c] {x y : Run α} (hx : Edits may host x) (hy : Edits may host y) :
    Edits may host (if c then x else y) := by
  split
  · exact hx
  · exact hy

/-- What is made of the result of a computation in the same world. -/
theorem of_after {x : Run α} {y : Run β} (same : ∀ w, y.after w = x.after w) (h : Edits may host x) :
    Edits may host y := fun w heeds => (same w).symm ▸ h w heeds

theorem map {x : Run α} (h : Edits may host x) (f : α → β) : Edits may host (f <$> x) :=
  of_after (after_map x f) h

theorem attempt {x : Run α} (h : Edits may host x) : Edits may host (attempt x) :=
  of_after (after_attempt x) h

theorem located {x : Run α} (h : Edits may host x) : Edits may host (located x) :=
  of_after (after_located x) h

theorem mapM {f : α → Run β} (each : ∀ a, Edits may host (f a)) (as : List α) :
    Edits may host (as.mapM f) := by
  induction as with
  | nil => exact .pure _
  | cons a as ih =>
    rw [List.mapM_cons]
    exact (each a).bind fun _ => ih.bind fun _ => .pure _

theorem foldlM {f : β → α → Run β} (each : ∀ b a, Edits may host (f b a)) (as : List α) (b : β) :
    Edits may host (as.foldlM f b) := by
  induction as generalizing b with
  | nil => exact .pure _
  | cons a as ih =>
    rw [List.foldlM_cons]
    exact (each b a).bind ih

theorem filterM {f : α → Run Bool} (each : ∀ a, Edits may host (f a)) (as : List α) :
    Edits may host (as.filterM f) := by
  have aux (taken : List α) : Edits may host (as.filterAuxM f taken) := by
    induction as generalizing taken with
    | nil => exact .pure _
    | cons a as ih => exact (each a).bind fun _ => ih _
  exact (aux []).bind fun _ => .pure _

/-- A computation that leaves the heap alone. -/
theorem of_machine {x : Run α} (h : ∀ w, ∃ m, x.after w = { w with machine := m }) :
    Edits may host x := by
  intro w _
  obtain ⟨m, same⟩ := h w
  rw [same]
  exact .single (.machine m)

/-- A computation that changes the heap at once. -/
theorem of_heap {x : Run α} (h : ∀ w, ∃ h', w.heap.Edit may host h' ∧ x.after w = { w with heap := h' }) :
    Edits may host x := by
  intro w _
  obtain ⟨h', edit, same⟩ := h w
  rw [same]
  exact .single (.heap h' edit)

end Edits

/-! ## Moves on stack and frames -/

theorem edits_fail (e : RuntimeError) : Edits may host (fail e : Run α) := .throw _

theorem edits_failInternal (f : InternalFault) : Edits may host (failInternal f : Run α) := .throw _

theorem edits_raise (f : Failure) : Edits may host (raise f : Run α) := .throw _

theorem edits_machine : Edits may host machine := fun _ _ => .refl

theorem edits_heap : Edits may host heap := fun _ _ => .refl

theorem edits_modifyMachine (f : Machine → Machine) : Edits may host (modifyMachine f) :=
  .of_machine fun w => ⟨f w.machine, rfl⟩

theorem edits_modifyStack (f : Array Value → Array Value) : Edits may host (modifyStack f) :=
  edits_modifyMachine _

theorem edits_modifyHeap {f : Heap → Heap} (edit : ∀ h : Heap, h.Edit may host (f h)) :
    Edits may host (modifyHeap f) := .of_heap fun w => ⟨f w.heap, edit w.heap, rfl⟩

theorem edits_allocate {make : Heap → α × Heap} (edit : ∀ h : Heap, h.Edit may host (make h).2) :
    Edits may host (allocate make) := .of_heap fun w => ⟨(make w.heap).2, edit w.heap, rfl⟩

theorem edits_stackSize : Edits may host stackSize := fun _ _ => .refl

theorem edits_push (v : Value) : Edits may host (push v) := edits_modifyStack _

theorem edits_pushAll (vs : List Value) : Edits may host (pushAll vs) := edits_modifyStack _

theorem edits_slot (i : Nat) : Edits may host (slot i) := by
  refine .of_machine fun w => ⟨w.machine, ?_⟩
  unfold after slot
  cases w.machine.stack[i]? <;> rfl

theorem edits_pop : Edits may host pop := by
  refine .of_machine fun w => ?_
  unfold after pop
  cases w.machine.stack.back?
  · exact ⟨w.machine, rfl⟩
  · exact ⟨_, rfl⟩

theorem edits_peek (distance : Nat) : Edits may host (peek distance) :=
  edits_stackSize.bind fun _ => .ite (edits_slot _) (edits_fail _)

theorem edits_setSlot (i : Nat) (v : Value) : Edits may host (setSlot i v) :=
  edits_stackSize.bind fun _ => .ite (edits_modifyStack _) (edits_fail _)

theorem edits_truncate (size : Nat) : Edits may host (truncate size) := edits_modifyStack _

theorem edits_takeFrom (start : Nat) : Edits may host (takeFrom start) := .of_machine fun _ => ⟨_, rfl⟩

theorem edits_popMany (n : Nat) : Edits may host (popMany n) :=
  edits_stackSize.bind fun _ => .ite (edits_takeFrom _) (edits_fail _)

theorem edits_depth : Edits may host depth := fun _ _ => .refl

theorem edits_frame : Edits may host frame := by
  refine edits_machine.bind fun m => ?_
  cases m.frames.back?
  · exact edits_failInternal _
  · exact .pure _

theorem edits_pushFrame (f : Frame) : Edits may host (pushFrame f) :=
  edits_machine.bind fun _ => .ite (edits_modifyMachine _) (edits_fail _)

theorem edits_setIp (ip : Nat) : Edits may host (setIp ip) := edits_modifyMachine _

theorem edits_chunk : Edits may host chunk := edits_frame.bind fun _ => edits_heap.bind fun _ => .pure _

theorem edits_fetch : Edits may host fetch := by
  refine edits_frame.bind fun f => edits_heap.bind fun h => ?_
  dsimp only
  cases (h.code f.closure).code[f.ip]?
  · exact edits_failInternal _
  · exact (edits_setIp _).bind fun _ => .pure _

theorem edits_constant (index : UInt16) : Edits may host (constant index) := by
  refine edits_frame.bind fun f => edits_heap.bind fun h => ?_
  dsimp only
  cases (h.chunk (h.closure f.closure).chunk).constants[index.toNat]?
  · exact edits_failInternal _
  · exact .pure _

theorem edits_name (index : UInt16) : Edits may host (name index) := by
  refine edits_chunk.bind fun c => ?_
  cases c.name? index
  · exact edits_failInternal _
  · exact .pure _

theorem edits_goto (label : UInt16) : Edits may host (goto label) := by
  refine edits_chunk.bind fun c => ?_
  cases c.labelOffset? label
  · exact edits_failInternal _
  · exact edits_setIp _

/-! ## Variables -/

theorem edits_getLocal (index : UInt8) : Edits may host (getLocal index) :=
  edits_frame.bind fun _ => (edits_slot _).bind fun _ => edits_push _

theorem edits_setLocal (index : UInt8) : Edits may host (setLocal index) :=
  edits_frame.bind fun _ => (edits_peek _).bind fun _ => edits_setSlot _ _

theorem edits_captured (index : UInt8) : Edits may host (captured index) := by
  refine edits_frame.bind fun f => edits_heap.bind fun h => ?_
  cases (h.closure f.closure).cells[index.toNat]?
  · exact edits_failInternal _
  · exact .pure _

theorem edits_getCaptured (index : UInt8) : Edits may host (getCaptured index) := by
  refine (edits_captured index).bind fun ref => edits_heap.bind fun h => ?_
  cases h.cell ref
  · exact (edits_slot _).bind fun _ => edits_push _
  · exact edits_push _

theorem edits_setCaptured (index : UInt8) : Edits may host (setCaptured index) := by
  refine (edits_peek 0).bind fun v => (edits_captured index).bind fun ref => edits_heap.bind fun h => ?_
  cases h.cell ref
  · exact edits_setSlot _ _
  · exact edits_modifyHeap fun _ => .setCell _ _

theorem edits_cellOf (i : Nat) : Edits may host (cellOf i) := by
  refine edits_heap.bind fun h => edits_machine.bind fun m => ?_
  cases m.openCells.find? (isOpenAt h i)
  · exact (edits_allocate fun _ => .addCell _).bind fun _ => (edits_modifyMachine _).bind fun _ => .pure _
  · exact .pure _

/-- Closing cells changes one captured variable after the other. -/
theorem edited_closeCells (stack : Array Value) (start : Nat) (refs : List Nat) (w : World) :
    w.Edited may host { w with heap := (closeCells stack start refs w.heap).2 } := by
  induction refs generalizing w with
  | nil => exact .refl
  | cons ref rest ih =>
    unfold closeCells
    split
    · exact ih w
    · split
      · exact ih w
      · exact .head (.heap _ (.setCell ref _)) (ih { w with heap := w.heap.setCell ref _ })

theorem edits_closeFrom (start : Nat) : Edits may host (closeFrom start) := by
  intro w _
  unfold after closeFrom
  split
  · exact .refl
  · exact (edited_closeCells _ _ _ _).tail (.machine _)

theorem edits_closeTop : Edits may host closeTop := by
  refine edits_stackSize.bind fun size => .ite ((edits_fail _).bind fun _ => ?_) ?_
  all_goals exact (edits_closeFrom _).bind fun _ => edits_pop.bind fun _ => .pure _

theorem edits_captures (chain : String) (n : Nat) : Edits may host (captures chain n) := by
  induction n with
  | zero => exact .pure _
  | succ n ih =>
    refine edits_fetch.bind fun i => ?_
    have others (ref : Nat) : Edits may host (do return ref :: (← captures chain n)) :=
      ih.bind fun _ => .pure _
    split
    · exact edits_frame.bind fun _ => (edits_cellOf _).bind others
    · exact (edits_captured _).bind others
    · exact (edits_failInternal _).bind others

theorem edits_makeClosure (index : UInt16) : Edits may host (makeClosure index) := by
  refine (edits_constant index).bind fun v => ?_
  split
  · exact edits_heap.bind fun _ => (edits_captures _ _).bind fun _ =>
      (edits_allocate fun _ => .addClosure _).bind fun _ => edits_push _
  · exact edits_failInternal _

theorem edits_defineGlobal (index : UInt16) : Edits may host (defineGlobal index) :=
  (edits_name index).bind fun _ => edits_pop.bind fun _ => edits_modifyMachine _

theorem edits_getGlobal (index : UInt16) : Edits may host (getGlobal index) := by
  refine (edits_name index).bind fun name => edits_machine.bind fun m => ?_
  cases m.globals.get? name
  · exact edits_fail _
  · exact edits_push _

theorem edits_setGlobal (index : UInt16) : Edits may host (setGlobal index) :=
  (edits_name index).bind fun _ => edits_machine.bind fun _ => .ite
    ((edits_peek 0).bind fun _ => edits_modifyMachine _) (edits_fail _)

/-! ## Operators -/

theorem edits_apply (op : Operator) (a b : Value) : Edits may host (op.apply a b) := by
  have onNumbers (op : Operator) (f : Number → Number → Number) : Edits may host (op.onNumbers f a b) := by
    unfold Operator.onNumbers
    split
    · exact .pure _
    · exact edits_fail _
  have onOrdered (op : Operator) (f : Number → Number → Bool) (g : String → String → Bool) :
      Edits may host (op.onOrdered f g a b) := by
    unfold Operator.onOrdered
    split
    · exact .pure _
    · exact .pure _
    · exact edits_fail _
  cases op with
  | add =>
    change Edits may host (Operator.plus a b)
    unfold Operator.plus
    split
    · exact .pure _
    · exact edits_heap.bind fun h => .ite (.pure _)
        (.ite (edits_allocate fun _ => .addCombination _) (edits_fail _))
  | subtract | multiply | divide | modulus => exact onNumbers _ _
  | equal => exact .pure _
  | less | greater => exact onOrdered _ _ _
  | meets => exact edits_heap.bind fun _ => .pure _

theorem edits_binary (op : Operator) : Edits may host (binary op) :=
  edits_pop.bind fun _ => edits_pop.bind fun _ => (edits_apply _ _ _).bind fun _ => edits_push _

theorem edits_negate : Edits may host negate := by
  refine edits_pop.bind fun v => ?_
  split
  · exact edits_push _
  · exact edits_fail _

theorem edits_complement : Edits may host complement := edits_pop.bind fun _ => edits_push _

/-! ## Types -/

theorem edits_asType (op : String) (v : Value) : Edits may host (asType op v) := by
  unfold asType
  split
  · exact .pure _
  · exact edits_fail _

theorem edits_popType (op : String) : Edits may host (popType op) := edits_pop.bind fun _ => edits_asType _ _

theorem edits_peekType (op : String) : Edits may host (peekType op) :=
  (edits_peek 0).bind fun _ => edits_asType _ _

theorem edits_userType (ref : Nat) : Edits may host (userType ref) := edits_heap.bind fun _ => .pure _

theorem edits_declareType (kind : TypeKind) (index : UInt16) : Edits may host (declareType kind index) :=
  (edits_name index).bind fun _ => (edits_allocate fun _ => .addType _).bind fun _ => edits_push _

theorem edits_restrict (op : String) {change : Flags → Flags}
    (sets : ∀ f, change f = f.freeze ∨ change f = f.lock) : Edits may host (restrict op change) := by
  refine edits_pop.bind fun v => ?_
  split
  · exact edits_modifyHeap fun _ => .restrictObject _ _ fun o => sets o.flags
  · exact edits_modifyHeap fun _ => .restrictType _ _ fun t => sets t.flags
  · exact edits_fail _

/-! ## Properties and elements -/

theorem edits_undefinedProperty (target : Value) (name : String) :
    Edits may host (undefinedProperty target name : Run α) := edits_heap.bind fun _ => edits_fail _

theorem edits_property (target : Value) (name : String) : Edits may host (property target name) := by
  refine edits_heap.bind fun h => ?_
  split
  · dsimp only
    split
    · exact .pure _
    · split
      · exact edits_allocate fun _ => .addBound _ _
      · exact edits_undefinedProperty _ _
  · split
    · exact .pure _
    · exact edits_undefinedProperty _ _
  · exact edits_fail _

theorem edited_writeUnless {flags : Flags} {present : Bool} {target : Value} {name : String}
    {write : Heap → Heap} {w : World}
    (allowed : flags.refuses present = none → w.heap.Edit may host (write w.heap)) :
    w.Edited may host ((writeUnless flags present target name write).after w) := by
  unfold writeUnless
  cases refuses : flags.refuses present with
  | none => exact .single (.heap _ (allowed refuses))
  | some refusal => cases refusal <;> exact .refl

/-- A member is stored where the flags of its holder do not refuse it. -/
theorem edits_writeField (target : Value) (name : String) (v : Value) :
    Edits may host (writeField target name v) := by
  intro w _
  cases target with
  | object ref => exact edited_writeUnless fun allowed => .storeObject ref name v allowed
  | userType ref => exact edited_writeUnless fun allowed => .storeType ref name v allowed
  | _ => exact .refl

theorem edits_getProperty (index : UInt16) : Edits may host (getProperty index) :=
  (edits_name index).bind fun _ => edits_pop.bind fun _ => (edits_property _ _).bind fun _ => edits_push _

theorem edits_setProperty (index : UInt16) : Edits may host (setProperty index) :=
  (edits_name index).bind fun _ => edits_pop.bind fun _ => edits_pop.bind fun _ =>
    (edits_writeField _ _ _).bind fun _ => edits_push _

theorem edits_undefinedInSuper (ref : Nat) (name : String) :
    Edits may host (undefinedInSuper ref name : Run α) := (edits_userType ref).bind fun _ => edits_fail _

theorem edits_getSuper (index : UInt16) : Edits may host (getSuper index) := by
  refine (edits_name index).bind fun name => (edits_popType _).bind fun ref =>
    edits_pop.bind fun receiver => (edits_userType ref).bind fun t => ?_
  split
  · exact (edits_allocate fun _ => .addBound _ _).bind fun _ => edits_push _
  · exact edits_undefinedInSuper _ _

theorem edits_position (index : Value) (length : Nat) : Edits may host (position index length) := by
  unfold position
  dsimp only
  split
  · exact .ite (.pure _) (edits_heap.bind fun _ => edits_fail _)
  · exact edits_heap.bind fun _ => edits_fail _

theorem edits_fieldName (v : Value) : Edits may host (fieldName v) := by
  unfold fieldName
  split
  · exact .pure _
  · exact edits_fail _

theorem edits_mapKey (v : Value) : Edits may host (mapKey v) := by
  unfold mapKey
  split
  · exact .pure _
  · exact edits_fail _

theorem edits_element (target index : Value) : Edits may host (element target index) := by
  unfold element
  split
  · exact edits_heap.bind fun _ => (edits_position _ _).bind fun _ => .pure _
  · exact (edits_mapKey _).bind fun _ => edits_heap.bind fun _ => .pure _
  · exact (edits_position _ _).bind fun _ => .pure _
  · exact (edits_fieldName _).bind fun _ => edits_property _ _
  · exact (edits_fieldName _).bind fun _ => edits_property _ _
  · exact edits_fail _

theorem edits_setElement (target index v : Value) : Edits may host (setElement target index v) := by
  unfold setElement
  split
  · exact edits_heap.bind fun _ => (edits_position _ _).bind fun _ =>
      edits_modifyHeap fun _ => .updateList _ _
  · exact (edits_mapKey _).bind fun _ => edits_modifyHeap fun _ => .updateMap _ _
  · exact (edits_fieldName _).bind fun _ => edits_writeField _ _ _
  · exact (edits_fieldName _).bind fun _ => edits_writeField _ _ _
  · exact edits_fail _

theorem edits_getIndex : Edits may host getIndex :=
  edits_pop.bind fun _ => edits_pop.bind fun _ => (edits_element _ _).bind fun _ => edits_push _

theorem edits_setIndex : Edits may host setIndex :=
  edits_pop.bind fun _ => edits_pop.bind fun _ => edits_pop.bind fun _ =>
    (edits_setElement _ _ _).bind fun _ => edits_push _

theorem edits_buildList (n : UInt16) : Edits may host (buildList n) :=
  (edits_popMany _).bind fun _ => (edits_allocate fun _ => .addList _).bind fun _ => edits_push _

theorem edits_entriesOf (entries : Table MapKey Value) (flat : List Value) :
    Edits may host (entriesOf entries flat) := by
  fun_induction entriesOf entries flat with
  | case1 entries k v rest ih => exact (edits_mapKey k).bind ih
  | case2 => exact .pure _

theorem edits_buildMap (n : UInt16) : Edits may host (buildMap n) :=
  (edits_popMany _).bind fun _ => (edits_entriesOf _ _).bind fun _ =>
    (edits_allocate fun _ => .addMap _).bind fun _ => edits_push _

theorem edits_newDynamic : Edits may host newDynamic :=
  (edits_allocate fun _ => .addObject _).bind fun _ => edits_push _

/-! ## The bodies of types -/

theorem frame_ok {f : Frame} {w w' : World} (h : frame w = .ok f w') :
    w' = w ∧ w.machine.frames.back? = some f := by
  unfold frame at h
  rw [bind_of_ok (x := machine) rfl] at h
  cases hf : w.machine.frames.back? <;> rw [hf] at h <;> cases h
  exact ⟨rfl, rfl⟩

theorem chunk_ok {c : Chunk} {w w' : World} (h : chunk w = .ok c w') : w' = w := by
  obtain ⟨f, w₁, hf, rest⟩ := bind_ok (x := frame) h
  obtain ⟨rfl, -⟩ := frame_ok hf
  cases rest
  rfl

theorem name_ok {index : UInt16} {s : String} {w w' : World} (h : name index w = .ok s w') : w' = w := by
  obtain ⟨c, w₁, hc, rest⟩ := bind_ok (x := chunk) h
  obtain rfl := chunk_ok hc
  cases hn : c.name? index <;> rw [hn] at rest <;> cases rest
  rfl

theorem pop_ok {v : Value} {w w' : World} (h : pop w = .ok v w') :
    w.machine.stack.back? = some v ∧ w' = { w with machine.stack := w.machine.stack.pop } := by
  unfold pop at h
  cases hv : w.machine.stack.back? with
  | none =>
    rw [hv] at h
    cases h
  | some v =>
    rw [hv] at h
    cases h
    exact ⟨rfl, rfl⟩

theorem peek_ok {v : Value} {w w' : World} (h : peek 0 w = .ok v w') :
    w' = w ∧ w.machine.stack.back? = some v := by
  change (if 0 < w.machine.stack.size then slot (w.machine.stack.size - 1 - 0)
    else fail .stackUnderflow) w = _ at h
  rw [Array.back?_eq_getElem?]
  split at h
  · unfold slot at h
    rw [Nat.sub_zero] at h
    cases hv : w.machine.stack[w.machine.stack.size - 1]? <;> rw [hv] at h <;> cases h
    exact ⟨rfl, rfl⟩
  · cases h

theorem peekType_ok {op : String} {ref : Nat} {w w' : World} (h : peekType op w = .ok ref w') :
    w' = w ∧ w.machine.stack.back? = some (.userType ref) := by
  obtain ⟨v, w₁, hv, h⟩ := bind_ok h
  obtain ⟨rfl, top⟩ := peek_ok hv
  cases v <;> cases h
  exact ⟨rfl, top⟩

theorem popType_ok {op : String} {ref : Nat} {w w' : World} (h : popType op w = .ok ref w') :
    w.machine.stack.back? = some (.userType ref) ∧ w' = { w with machine.stack := w.machine.stack.pop } := by
  obtain ⟨v, w₁, hv, h⟩ := bind_ok h
  obtain ⟨top, rfl⟩ := pop_ok hv
  cases v <;> cases h
  exact ⟨top, rfl⟩

/-- The type on top. -/
def typeOnTop (w : World) : Option Nat :=
  match w.machine.stack.back? with
  | some (.userType ref) => some ref
  | _ => none

/-- The type that lies under the value on top. -/
def typeBelow (w : World) : Option Nat :=
  match w.machine.stack.pop.back? with
  | some (.userType ref) => some ref
  | _ => none

/-- The type of which an instruction declares a member. -/
def declaredBy (w : World) : Instruction → Option Nat
  | .staticMember _ | .enumValue _ => typeBelow w
  | _ => none

/-- What an instruction does to a type as one of the body of the type. -/
def changedBy (w : World) : Instruction → Option Change
  | .staticMember _ | .enumValue _ => (typeBelow w).map .member
  | .mixin | .signs | .method _ | .initChain => (typeBelow w).map .part
  | .inherit | .field _ | .finishType => (typeOnTop w).map .part
  | _ => none

theorem typeOnTop_eq {w : World} {ref : Nat} (top : w.machine.stack.back? = some (.userType ref)) :
    typeOnTop w = some ref := by
  unfold typeOnTop
  rw [top]

theorem typeBelow_eq {w : World} {ref : Nat} (below : w.machine.stack.pop.back? = some (.userType ref)) :
    typeBelow w = some ref := by
  unfold typeBelow
  rw [below]

/-- What precedes the declaration of a member: its name and value and the type are read. -/
theorem edited_declaration {op : String} {index : UInt16} {f : String → Value → Nat → Run β} {w : World}
    (heeds : w.Heeds host)
    (then_ : ∀ s v ref (w' : World), typeBelow w = some ref →
      w'.Edited may host ((f s v ref).after w')) :
    w.Edited may host ((do
      let s ← name index
      let v ← pop
      let ref ← peekType op
      f s v ref : Run β).after w) := by
  refine edited_bind (edits_name index w heeds) fun s w₁ hs => ?_
  obtain rfl := name_ok hs
  refine edited_bind (edits_pop w₁ heeds) fun v w₂ hv => ?_
  obtain ⟨-, rfl⟩ := pop_ok hv
  refine edited_bind (edits_peekType op _ heeds) fun ref w₃ href => ?_
  obtain ⟨rfl, top⟩ := peekType_ok href
  exact then_ s v ref _ (typeBelow_eq (w := w₁) top)

theorem edited_addStatic {index : UInt16} {w : World} (heeds : w.Heeds host)
    (admitted : ∀ ref, typeBelow w = some ref → may (.member ref)) :
    w.Edited may host ((addStatic index).after w) :=
  edited_declaration heeds fun s v ref _ below =>
    .single (.heap _ (.declare ref s v (admitted ref below)))

theorem edited_addEntry {index : UInt16} {w : World} (heeds : w.Heeds host)
    (admitted : ∀ ref, typeBelow w = some ref → may (.member ref)) :
    w.Edited may host ((addEntry index).after w) :=
  edited_declaration heeds fun s v ref _ below =>
    .tail (.single (.heap _ (.addObject (entry ref s v))))
      (.heap _ (.declare ref s _ (admitted ref below)))

/-- A part of a type that is neither its static members nor its flags. -/
theorem edited_updateType {w : World} {ref : Nat} {f : UserType → UserType} (statics : ∀ t, (f t).statics = t.statics)
    (flags : ∀ t, (f t).flags = t.flags) (admitted : may (.part ref)) :
    w.Edited may host ((updateType ref f).after w) :=
  .single (.heap _ (.updateType ref f statics flags admitted))

theorem edited_addMethod {index : UInt16} {w : World} (heeds : w.Heeds host)
    (admitted : ∀ ref, typeBelow w = some ref → may (.part ref)) :
    w.Edited may host ((addMethod index).after w) :=
  edited_declaration heeds fun _ _ ref _ below =>
    edited_updateType (fun _ => rfl) (fun _ => rfl) (admitted ref below)

/-- A type is put on one of the lists of the type below. -/
theorem edited_listed {op : String} {f : Nat → UserType → UserType} {w : World} (heeds : w.Heeds host)
    (statics : ∀ m t, (f m t).statics = t.statics) (flags : ∀ m t, (f m t).flags = t.flags)
    (admitted : ∀ ref, typeBelow w = some ref → may (.part ref)) :
    w.Edited may host ((do
      let m ← popType op
      updateType (← peekType op) (f m) : Run Unit).after w) := by
  refine edited_bind (edits_popType op w heeds) fun m w₁ hm => ?_
  obtain ⟨-, rfl⟩ := popType_ok hm
  refine edited_bind (edits_peekType op _ heeds) fun ref w₂ href => ?_
  obtain ⟨rfl, top⟩ := peekType_ok href
  exact edited_updateType (statics m) (flags m) (admitted ref (typeBelow_eq top))

theorem edited_addInitChain {w : World} (heeds : w.Heeds host)
    (admitted : ∀ ref, typeBelow w = some ref → may (.part ref)) :
    w.Edited may host (addInitChain.after w) := by
  refine edited_bind (edits_pop w heeds) fun chain w₁ hchain => ?_
  obtain ⟨-, rfl⟩ := pop_ok hchain
  refine edited_bind (edits_peekType _ _ heeds) fun ref w₂ href => ?_
  obtain ⟨rfl, top⟩ := peekType_ok href
  exact edited_updateType (fun _ => rfl) (fun _ => rfl) (admitted ref (typeBelow_eq top))

theorem edited_addField {index : UInt16} {w : World} (heeds : w.Heeds host)
    (admitted : ∀ ref, typeOnTop w = some ref → may (.part ref)) :
    w.Edited may host ((addField index).after w) := by
  refine edited_bind (edits_name index w heeds) fun s w₁ hs => ?_
  obtain rfl := name_ok hs
  refine edited_bind (edits_peekType _ _ heeds) fun ref w₂ href => ?_
  obtain ⟨rfl, top⟩ := peekType_ok href
  exact edited_updateType (fun _ => rfl) (fun _ => rfl) (admitted ref (typeOnTop_eq top))

theorem edited_inherit {w : World} (heeds : w.Heeds host)
    (admitted : ∀ ref, typeOnTop w = some ref → may (.part ref)) :
    w.Edited may host (inherit.after w) := by
  refine edited_bind (edits_popType _ w heeds) fun sub w₁ hsub => ?_
  obtain ⟨top, rfl⟩ := popType_ok hsub
  refine edited_bind (edits_peekType _ _ heeds) fun parent w₂ hparent => ?_
  obtain ⟨rfl, -⟩ := peekType_ok hparent
  refine edited_bind (edits_userType parent _ heeds) fun t w₃ ht => ?_
  cases ht
  split
  · exact edits_fail _ _ heeds
  · exact edited_updateType (fun _ => rfl) (fun _ => rfl) (admitted sub (typeOnTop_eq top))

theorem absorbAll_keeps (mixins : List UserType) (t : UserType) :
    (absorbAll mixins t).statics = t.statics ∧ (absorbAll mixins t).flags = t.flags := by
  have absorbed : (mixins.foldl UserType.absorb t).statics = t.statics ∧
      (mixins.foldl UserType.absorb t).flags = t.flags := by
    induction mixins generalizing t with
    | nil => exact ⟨rfl, rfl⟩
    | cons m rest ih => exact ih (t.absorb m)
  exact absorbed

theorem edited_finishType {w : World} (heeds : w.Heeds host)
    (admitted : ∀ ref, typeOnTop w = some ref → may (.part ref)) :
    w.Edited may host (finishType.after w) := by
  refine edited_bind (edits_peekType _ w heeds) fun ref w₁ href => ?_
  obtain ⟨rfl, top⟩ := peekType_ok href
  refine edited_bind (edits_heap _ heeds) fun before w₂ hbefore => ?_
  cases hbefore
  refine edited_bind (edited_updateType (fun t => (absorbAll_keeps _ t).1) (fun t => (absorbAll_keeps _ t).2)
    (admitted ref (typeOnTop_eq top))) fun _ w₃ habsorbed => ?_
  have rest : Edits may host (checkType ref) := by
    refine edits_heap.bind fun h => ?_
    dsimp only
    split
    · exact edits_fail _
    · refine edits_modifyHeap fun _ => .restrictType ref _ fun t => ?_
      split
      · exact .inr rfl
      · exact .inl rfl
  cases habsorbed
  exact rest _ heeds

/-! ## Natives -/

theorem edits_argument (args : Window) (index : Nat) : Edits may host (args.argument index) :=
  .ite (edits_failInternal _) (edits_slot _)

theorem edits_arguments (args : Window) : Edits may host args.arguments :=
  .mapM (fun _ => edits_argument args _) _

theorem edits_expect (args : Window) (name : String) (expected : Nat) :
    Edits may host (args.expect name expected) := .ite (.pure _) (edits_fail _)

theorem edits_give (v : Value) : Edits may host (Native.give v) := (edits_push v).bind fun _ => .pure _

theorem edits_core (function : CoreFunction) (args : Window) :
    Edits may host (Native.core function args) := by
  cases function with
  | print =>
    exact (edits_arguments args).bind fun _ => edits_heap.bind fun _ =>
      (edits_modifyMachine _).bind fun _ => .pure _
  | str =>
    exact (edits_expect _ _ _).bind fun _ => (edits_argument _ _).bind fun _ =>
      edits_heap.bind fun _ => edits_give _
  | list =>
    exact (edits_arguments args).bind fun _ => (edits_allocate fun _ => .addList _).bind
      fun _ => edits_give _
  | map =>
    exact (edits_expect _ _ _).bind fun _ => (edits_allocate fun _ => .addMap _).bind
      fun _ => edits_give _

theorem edits_items (ref : Nat) : Edits may host (Native.items ref) := edits_heap.bind fun _ => .pure _

theorem edits_mapMethod {ref : Nat} {name : String} {method : Window → Run NativeResult}
    (found : Native.mapMethod? ref name = some method) (args : Window) :
    Edits may host (method args) := by
  unfold Native.mapMethod? at found
  split at found <;> cases found
  · exact (edits_expect _ _ _).bind fun _ => edits_heap.bind fun _ => edits_give _
  · exact (edits_expect _ _ _).bind fun _ => (edits_argument _ _).bind fun _ =>
      (edits_mapKey _).bind fun _ => edits_heap.bind fun _ => edits_give _
  · exact (edits_expect _ _ _).bind fun _ => (edits_argument _ _).bind fun _ =>
      (edits_mapKey _).bind fun _ => edits_heap.bind fun _ =>
        (edits_modifyHeap fun _ => .updateMap _ _).bind fun _ => edits_give _

/-- All that calls through a way back do is a chain of changes. -/
structure Reedits (may : Change → Prop) (host : Heap → Heap → Prop) (again : Reentry) : Prop where
  call : ∀ callee args, Edits may host (again.call callee args)
  interpret : ∀ s, Edits may host (again.interpret s)

section

variable {again : Reentry} (h : Reedits may host again)
include h

theorem Reedits.perform (args : Window) {steps : NativeProgram} (heeds : steps.Heeds host) :
    Edits may host (Native.perform again args steps) := by
  induction steps with
  | finish result => exact .pure _
  | raise failure => exact edits_raise _
  | count next ih => exact ih _ (heeds _)
  | argument index next ih => exact (edits_argument _ _).bind fun v => ih v (heeds v)
  | read next ih => exact edits_heap.bind fun v => ih v (heeds v)
  | allocate make next ih =>
    exact (edits_allocate fun h => .host _ (heeds.1 h)).bind fun v => ih v (heeds.2 v)
  | push v next ih => exact (edits_push _).bind fun _ => ih heeds
  | call callee values next ih => exact (h.call callee values).attempt.bind fun r => ih r (heeds r)
  | interpret script next ih => exact (h.interpret script).bind fun _ => ih heeds

theorem Reedits.run {body : NativeBody} (heeds : body.Heeds host) (args : Window) :
    Edits may host (Native.run again body args) := by
  cases body with
  | core function => exact edits_core function args
  | program steps => exact h.perform args heeds

theorem Reedits.listMethod {ref : Nat} {name : String} {method : Window → Run NativeResult}
    (found : Native.listMethod? again ref name = some method) (args : Window) :
    Edits may host (method args) := by
  have asked (f : Value) (values : List Value) :
      Edits may host (Native.first <$> again.call f values) := (h.call f values).map _
  unfold Native.listMethod? at found
  split at found <;> cases found
  · exact (edits_expect _ _ _).bind fun _ => (edits_argument _ _).bind fun _ =>
      (edits_modifyHeap fun _ => .updateList _ _).bind fun _ => .pure _
  · exact (edits_expect _ _ _).bind fun _ => edits_heap.bind fun _ => edits_give _
  · exact (edits_expect _ _ _).bind fun _ => edits_heap.bind fun _ =>
      (edits_argument _ _).bind fun _ => (edits_position _ _).bind fun _ => edits_give _
  · exact (edits_expect _ _ _).bind fun _ => (edits_items ref).bind fun items =>
      (edits_argument _ _).bind fun f => (Edits.mapM (fun item => asked f [item]) items).bind
        fun _ => (edits_allocate fun _ => .addList _).bind fun _ => edits_give _
  · exact (edits_expect _ _ _).bind fun _ => (edits_items ref).bind fun items =>
      (edits_argument _ _).bind fun f =>
        (Edits.filterM (fun item => (h.call f [item]).bind fun _ => .pure _) items).bind
          fun _ => (edits_allocate fun _ => .addList _).bind fun _ => edits_give _
  · exact (edits_expect _ _ _).bind fun _ => (edits_items ref).bind fun items =>
      (edits_argument _ _).bind fun f => (edits_argument _ _).bind fun start =>
        (Edits.foldlM (fun acc item => asked f [acc, item]) items start).bind fun _ => edits_give _

end

/-! ## Calls -/

theorem edits_calleeSlot (argc : Nat) : Edits may host (calleeSlot argc) :=
  edits_stackSize.bind fun _ => .ite (.pure _) (edits_fail _)

theorem edits_pushResults (results : List Value) (start : Nat) :
    Edits may host (pushResults results start) :=
  edits_machine.bind fun _ => .ite (edits_pushAll _) (edits_fail _)

theorem edits_callClosure (ref argc base : Nat) : Edits may host (callClosure ref argc base) :=
  edits_heap.bind fun _ => .ite (edits_pushFrame _) (edits_fail _)

theorem edits_pushChains (made : Value) (type : String) (chains : List Value) :
    Edits may host (pushChains made type chains) := by
  induction chains with
  | nil => exact .pure _
  | cons chain rest ih =>
    unfold pushChains
    split
    · exact edits_stackSize.bind fun _ => (edits_push _).bind fun _ =>
        (edits_pushFrame _).bind fun _ => ih
    · exact edits_failInternal _

theorem edits_instantiate (ref argc base : Nat) : Edits may host (instantiate ref argc base) := by
  refine (edits_userType ref).bind fun t => ?_
  have made : Edits may host (makeObject ref argc base t) := by
    refine (edits_allocate fun _ => .addObject _).bind fun made => (edits_setSlot _ _).bind fun _ => ?_
    split
    · exact (edits_callClosure _ _ _).bind fun _ => edits_pushChains _ _ _
    · exact .ite ((edits_fail _).bind fun _ => edits_pushChains _ _ _) (edits_pushChains _ _ _)
  exact .ite ((edits_fail _).bind fun _ => made) made

theorem edits_undefinedMethod (receiver : Value) (name : String) :
    Edits may host (undefinedMethod receiver name : Run α) := edits_heap.bind fun _ => edits_fail _

theorem edits_superInvoke (index : UInt16) (argc : Nat) : Edits may host (superInvoke index argc) := by
  refine (edits_name index).bind fun name => (edits_popType _).bind fun ref =>
    (edits_calleeSlot _).bind fun base => (edits_userType ref).bind fun t => ?_
  split
  · exact edits_callClosure _ _ _
  · exact edits_undefinedInSuper _ _

theorem edits_callNative {body : Window → Run NativeResult} (each : ∀ args, Edits may host (body args))
    (argc base : Nat) : Edits may host (callNative body argc base) :=
  (each _).bind fun _ => (edits_takeFrom _).bind fun _ => (edits_truncate _).bind fun _ =>
    .ite (edits_pushResults _ _) (edits_pushResults _ _)

section

variable {again : Reentry} (h : Reedits may host again)
include h

theorem Reedits.native (ref argc base : Nat) :
    Edits may host (do callNative (← native again ref) argc base) := fun w heeds =>
  edits_callNative (h.run (heeds ref)) argc base w heeds

theorem Reedits.callParts (args : List Value) (last : Value) (parts : List Value) :
    Edits may host (callParts again args last parts) := by
  induction parts generalizing last with
  | nil => exact .pure _
  | cons part rest ih => exact (h.call part args).bind fun _ => ih _

theorem Reedits.callCombined (parts : List Value) (base : Nat) :
    Edits may host (callCombined again parts base) :=
  (edits_takeFrom _).bind fun _ => (edits_truncate _).bind fun _ =>
    (h.callParts _ _ _).bind fun _ => edits_push _

theorem Reedits.callTop (argc : Nat) : Edits may host (callTop again argc) := by
  refine (edits_calleeSlot argc).bind fun base => (edits_slot base).bind fun v => ?_
  split
  · exact edits_callClosure _ _ _
  · refine edits_heap.bind fun heap => (edits_setSlot _ _).bind fun _ => ?_
    split
    · exact edits_callClosure _ _ _
    · exact h.native _ _ _
    · exact edits_fail _
  · exact edits_instantiate _ _ _
  · exact h.native _ _ _
  · exact edits_heap.bind fun _ => h.callCombined _ _
  · exact edits_fail _

theorem Reedits.callInstead (callee : Value) (argc base : Nat) :
    Edits may host (callInstead again callee argc base) :=
  (edits_setSlot _ _).bind fun _ => h.callTop argc

theorem Reedits.invoke (index : UInt16) (argc : Nat) : Edits may host (invoke again index argc) := by
  refine (edits_name index).bind fun name => (edits_calleeSlot argc).bind fun base =>
    (edits_slot base).bind fun receiver => edits_heap.bind fun heap => ?_
  have undefined : Edits may host (undefinedMethod receiver name : Run Unit) :=
    edits_undefinedMethod receiver name
  split
  · dsimp only
    split
    · exact h.callInstead _ _ _
    · split
      · exact edits_callClosure _ _ _
      · exact h.native _ _ _
      · exact h.callInstead _ _ _
      · exact undefined
  · split
    · exact h.callInstead _ _ _
    · exact undefined
  · split
    · rename_i found
      exact edits_callNative (h.listMethod found) _ _
    · exact undefined
  · split
    · rename_i found
      exact edits_callNative (edits_mapMethod found) _ _
    · exact undefined
  · exact undefined

end

/-! ## Other instructions -/

theorem edits_beginSeveral : Edits may host beginSeveral :=
  edits_stackSize.bind fun _ => edits_modifyMachine _

theorem edits_endSeveral : Edits may host endSeveral := by
  refine edits_machine.bind fun m => ?_
  split
  · exact (edits_modifyMachine _).bind fun _ => edits_stackSize.bind fun _ => edits_push _
  · exact edits_failInternal _

theorem edits_popCount : Edits may host popCount := by
  refine edits_pop.bind fun v => ?_
  dsimp only
  split
  · exact .pure _
  · exact edits_heap.bind fun _ => edits_failInternal _

theorem edits_validate (check : Check) : Edits may host (validate check) := by
  cases check
  exact edits_popCount.bind fun _ => edits_popCount.bind fun _ => .ite (edits_fail _) (.pure _)

theorem edits_duplicatePair : Edits may host duplicatePair :=
  (edits_peek 1).bind fun _ => (edits_peek 0).bind fun _ => (edits_push _).bind fun _ => edits_push _

theorem edits_swap : Edits may host swap :=
  edits_pop.bind fun _ => edits_pop.bind fun _ => (edits_push _).bind fun _ => edits_push _

theorem edits_gotoIfFalse (label : UInt16) : Edits may host (gotoIfFalse label) :=
  (edits_peek 0).bind fun _ => .ite (edits_goto _) (.pure _)

theorem edits_throwTop : Edits may host (throwTop : Run α) := edits_pop.bind fun _ => edits_fail _

theorem edits_modifyTests (f : TestRecord → TestRecord) : Edits may host (modifyTests f) :=
  edits_modifyMachine _

theorem edits_recordCase (set case : String) (outcome : Except Failure (List Value)) :
    Edits may host (recordCase set case outcome) := by
  cases outcome with
  | ok => exact edits_modifyTests (·.record set case none)
  | error f =>
    have noted : Edits may host (do
        let h ← heap
        modifyTests (·.record set case (some (f.message h)))) :=
      edits_heap.bind fun _ => edits_modifyTests _
    exact .ite ((edits_raise f).bind fun _ => noted) noted

theorem edits_dataRows (v : Value) : Edits may host (dataRows v) := by
  unfold dataRows
  split
  · exact edits_items _
  · exact edits_fail _

theorem edits_build : Edits may host build := by
  refine edits_pop.bind fun v => ?_
  split
  · split
    · exact edits_modifyMachine _
    · exact edits_fail _
  · exact edits_fail _

theorem edits_register (index : UInt16) : Edits may host (register index) :=
  (edits_name index).bind fun _ => edits_pop.bind fun _ => edits_modifyMachine _

theorem edits_inject (index : UInt16) : Edits may host (inject index) := by
  refine (edits_name index).bind fun name => edits_machine.bind fun m => ?_
  split
  · exact edits_push _
  · exact edits_fail _

section

variable {again : Reentry} (h : Reedits may host again)
include h

theorem Reedits.testSet (index : UInt16) : Edits may host (testSet again index) := by
  refine (edits_name index).bind fun name => edits_pop.bind fun body =>
    (edits_modifyTests _).bind fun _ => edits_machine.bind fun m => .ite ?_ (.pure _)
  refine (edits_modifyMachine _).bind fun _ => (h.call body []).attempt.bind fun outcome =>
    (edits_modifyMachine _).bind fun _ => ?_
  cases outcome with
  | ok => exact .pure _
  | error f => exact edits_recordCase _ _ _

theorem Reedits.runRows (set name : String) (case : Value) (i : Nat) (rows : List Value) :
    Edits may host (runRows again set name case i rows) := by
  induction rows generalizing i with
  | nil => exact .pure _
  | cons row rest ih =>
    exact edits_heap.bind fun heap => (h.call _ _).attempt.bind fun _ =>
      (edits_recordCase _ _ _).bind fun _ => ih _

theorem Reedits.testCase (index : UInt16) (hasRows : Bool) :
    Edits may host (testCase again index hasRows) := by
  refine (edits_name index).bind fun name => edits_pop.bind fun case => ?_
  have carried (rows : Option Value) : Edits may host (carryOut again name case rows) := by
    refine edits_machine.bind fun m => ?_
    split
    · exact edits_failInternal _
    · cases rows with
      | none => exact (h.call case []).attempt.bind fun _ => edits_recordCase _ _ _
      | some data => exact (edits_dataRows data).bind fun _ => h.runRows _ _ _ _ _
  split
  · exact (edits_pop.map _).bind carried
  · exact carried none

/-! ## Every instruction -/

theorem Reedits.plain {i : Instruction} {w : World} (heeds : w.Heeds host)
    (admitted : ∀ c, changedBy w i = some c → may c) :
    w.Edited may host ((plain again i).after w) := by
  have of {x : Run Unit} (edits : Edits may host x) : w.Edited may host (x.after w) := edits w heeds
  have each {at? : Option Nat} {change : Nat → Change} (all : ∀ c, at?.map change = some c → may c) (ref : Nat)
      (found : at? = some ref) : may (change ref) := all _ (congrArg (Option.map change) found)
  cases i with
  | staticMember name => exact edited_addStatic heeds (each admitted)
  | enumValue name => exact edited_addEntry heeds (each admitted)
  | inherit => exact edited_inherit heeds (each admitted)
  | mixin => exact edited_listed heeds (fun _ _ => rfl) (fun _ _ => rfl) (each admitted)
  | signs => exact edited_listed heeds (fun _ _ => rfl) (fun _ _ => rfl) (each admitted)
  | field name => exact edited_addField heeds (each admitted)
  | method name => exact edited_addMethod heeds (each admitted)
  | initChain => exact edited_addInitChain heeds (each admitted)
  | finishType => exact edited_finishType heeds (each admitted)
  | call argc => exact of (h.callTop _)
  | invoke name argc => exact of (h.invoke _ _)
  | testSet name => exact of (h.testSet _)
  | testCase name hasRows => exact of (h.testCase _ _)
  | pushConstant n => exact of ((edits_constant n).bind fun _ => edits_push _)
  | pushByte | pushBool | null => exact of (edits_push _)
  | pop => exact of (edits_pop.bind fun _ => .pure _)
  | duplicate => exact of ((edits_peek 0).bind fun _ => edits_push _)
  | duplicatePair => exact of edits_duplicatePair
  | swap => exact of edits_swap
  | add | subtract | multiply | divide | modulus | equal | less | greater | meets =>
    exact of (edits_binary _)
  | negate => exact of edits_negate
  | not => exact of edits_complement
  | getLocal slot => exact of (edits_getLocal slot)
  | setLocal slot => exact of (edits_setLocal slot)
  | getUpvalue index => exact of (edits_getCaptured index)
  | setUpvalue index => exact of (edits_setCaptured index)
  | defineGlobal name => exact of (edits_defineGlobal name)
  | getGlobal name => exact of (edits_getGlobal name)
  | setGlobal name => exact of (edits_setGlobal name)
  | goto label => exact of (edits_goto label)
  | gotoIfFalse label => exact of (edits_gotoIfFalse label)
  | superInvoke name argc => exact of (edits_superInvoke name _)
  | throw => exact of edits_throwTop
  | closure n => exact of (edits_makeClosure n)
  | capture => exact of (edits_failInternal _)
  | closeUpvalue => exact of edits_closeTop
  | declareType kind name => exact of (edits_declareType kind name)
  | freeze => exact of (edits_restrict _ fun _ => .inl rfl)
  | readOnly => exact of (edits_restrict _ fun _ => .inr rfl)
  | getProperty name => exact of (edits_getProperty name)
  | setProperty name => exact of (edits_setProperty name)
  | getIndex => exact of edits_getIndex
  | setIndex => exact of edits_setIndex
  | getSuper name => exact of (edits_getSuper name)
  | buildList n => exact of (edits_buildList n)
  | buildMap n => exact of (edits_buildMap n)
  | newDynamic => exact of edits_newDynamic
  | multiVarStart => exact of edits_beginSeveral
  | multiVarEnd => exact of edits_endSeveral
  | validate check => exact of (edits_validate check)
  | build => exact of edits_build
  | register name => exact of (edits_register name)
  | inject name => exact of (edits_inject name)
  | ret | yield => exact .refl

omit h in
theorem edits_popFrame : Edits may host popFrame := by
  refine .of_machine fun w => ?_
  unfold after popFrame
  cases w.machine.frames.back?
  · exact ⟨w.machine, rfl⟩
  · exact ⟨_, rfl⟩

omit h in
theorem edits_returnFrom (count stop : Nat) : Edits may host (returnFrom count stop) := by
  refine (edits_popMany _).bind fun results => edits_popFrame.bind fun f =>
    (edits_closeFrom _).bind fun _ => (edits_truncate _).bind fun _ => ?_
  have asked : Edits may host
      (do return if (← depth) ≤ stop then Control.exit .returned else .next) :=
    edits_depth.bind fun _ => .pure _
  split
  · exact (edits_pushResults _ _).bind fun _ => asked
  · exact asked

omit h in
theorem edits_yield : Edits may host yield :=
  edits_machine.bind fun _ => .ite (.pure _) (edits_fail _)

theorem Reedits.step {stop : Nat} {i : Instruction} {w : World} (heeds : w.Heeds host)
    (admitted : ∀ c, changedBy w i = some c → may c) :
    w.Edited may host ((step again stop i).after w) := by
  obtain ⟨count, rfl⟩ | rfl | plain := step_cases i
  · exact edits_returnFrom _ _ w heeds
  · exact edits_yield w heeds
  · rw [plain]
    exact edited_bind (h.plain heeds admitted) fun _ _ _ => .refl

end

end Run
end ScriptEngine
