import ScriptEngine.Machine.Execute

/-!
# Moves that leave the frames alone

Most of what an instruction does is done by moves that push and pop values, read and
write the heap, and fail. `Calm` says what they leave as it is: the frames, the natives,
the code behind closures, and that init chains are closures. `Calms` says this of a
computation, and that its failures do not have a place yet.
-/
namespace ScriptEngine

namespace Heap

/-- A heap with the same scripts and more closures. -/
structure Wider (h h' : Heap) : Prop where
  scripts : h'.scripts = h.scripts
  closures : ∀ r < h.closures.size, h'.closures[r]? = h.closures[r]?

/-- The init chains of all types are closures. -/
def Chained (h : Heap) : Prop := ∀ t ∈ h.types, ∀ v ∈ t.initChains, ∃ r, v = .closure r

/-- A change that makes closures at most, and no init chains of anything else. -/
structure Mild (h h' : Heap) : Prop extends h.Wider h' where
  chained : h.Chained → h'.Chained

variable {h h' h'' : Heap}

theorem Wider.closure (wider : h.Wider h') {r : Nat} (inside : r < h.closures.size) : h'.closure r = h.closure r :=
  congrArg (·.getD default) (wider.closures r inside)

theorem Wider.lt (wider : h.Wider h') {r : Nat} (inside : r < h.closures.size) : r < h'.closures.size := by
  have same := wider.closures r inside
  rw [Array.getElem?_eq_getElem inside] at same
  exact (Array.getElem?_eq_some_iff.mp same).1

theorem Wider.code (wider : h.Wider h') {r : Nat} (inside : r < h.closures.size) : h'.code r = h.code r := by
  unfold Heap.code Heap.chunk
  rw [wider.closure inside, wider.scripts]

namespace Mild

theorem same (scripts : h'.scripts = h.scripts) (closures : h'.closures = h.closures) (types : h'.types = h.types) :
    h.Mild h' :=
  ⟨⟨scripts, fun _ _ => closures ▸ rfl⟩, fun chained => by unfold Chained; rwa [types]⟩

theorem refl (h : Heap) : h.Mild h := same rfl rfl rfl

theorem trans (first : h.Mild h') (second : h'.Mild h'') : h.Mild h'' where
  scripts := second.scripts.trans first.scripts
  closures r inside := (second.closures r (first.lt inside)).trans (first.closures r inside)
  chained chained := second.chained (first.chained chained)

end Mild

/-- Types with init chains that are closures. -/
theorem mild_types {types : Array UserType}
    (chains : h.Chained → ∀ t ∈ types, ∀ v ∈ t.initChains, ∃ r, v = .closure r) : h.Mild { h with types } :=
  ⟨⟨rfl, fun _ _ => rfl⟩, chains⟩

theorem mild_addType (name : String) (kind : TypeKind) (h : Heap) : h.Mild (h.addType { name, kind }).2 := by
  refine mild_types fun chained t mem => ?_
  rcases Array.mem_push.mp mem with mem | rfl
  · exact chained t mem
  · exact nofun

theorem mem_change {α : Type} {things : Array α} {ref : Nat} {f : α → α} {x : α} (h : x ∈ change things ref f) :
    x ∈ things ∨ ∃ y ∈ things, x = f y := by
  obtain ⟨i, hi⟩ := Array.mem_iff_getElem?.mp h
  unfold change at hi
  rw [Array.getElem?_modify] at hi
  split at hi
  · obtain ⟨y, found, same⟩ := Option.map_eq_some_iff.mp hi
    exact .inr ⟨y, Array.mem_of_getElem? found, same.symm⟩
  · exact .inl (Array.mem_of_getElem? hi)

theorem mild_updateType {ref : Nat} {f : UserType → UserType}
    (chains : h.Chained → ∀ t ∈ h.types, ∀ v ∈ (f t).initChains, v ∉ t.initChains → ∃ r, v = .closure r) :
    h.Mild (h.updateType ref f) := by
  refine mild_types fun chained t mem v chain => ?_
  rcases mem_change mem with mem | ⟨t, old, rfl⟩
  · exact chained t mem v chain
  · by_cases there : v ∈ t.initChains
    · exact chained t old v there
    · exact chains chained t old v chain there

/-- The same init chains as before. -/
theorem mild_updateType_same {ref : Nat} {f : UserType → UserType} (same : ∀ t, (f t).initChains = t.initChains)
    (h : Heap) : h.Mild (h.updateType ref f) :=
  mild_updateType fun _ t _ _ chain new => absurd (same t ▸ chain) new

theorem Chained.userType (chained : h.Chained) (ref : Nat) : ∀ v ∈ (h.userType ref).initChains, ∃ r, v = .closure r := by
  unfold Heap.userType
  cases found : h.types[ref]? with
  | none => exact nofun
  | some t => exact chained t (Array.mem_of_getElem? found)

theorem mild_addClosure (c : Closure) (h : Heap) : h.Mild (h.addClosure c).2 :=
  ⟨⟨rfl, fun _ inside => (Array.getElem?_push_lt inside).trans (Array.getElem?_eq_getElem inside).symm⟩, id⟩

end Heap

theorem UserType.initChains_absorb (mixins : List UserType) (t : UserType) :
    (mixins.foldl absorb t).initChains = t.initChains := by
  induction mixins generalizing t with
  | nil => rfl
  | cons m rest ih => exact ih (t.absorb m)

/-- What is left as it is by moves. -/
structure Calm (w w' : World) : Prop where
  frames : w'.machine.frames = w.machine.frames
  hostCalls : w'.machine.hostCalls = w.machine.hostCalls
  currentSet : w'.machine.currentSet = w.machine.currentSet
  settings : w'.machine.settings = w.machine.settings
  natives : w'.natives = w.natives
  heap : w.heap.Mild w'.heap

namespace Calm

theorem refl (w : World) : Calm w w := ⟨rfl, rfl, rfl, rfl, rfl, .refl _⟩

theorem trans {w w' w'' : World} (h : Calm w w') (h' : Calm w' w'') : Calm w w'' :=
  ⟨h'.frames.trans h.frames, h'.hostCalls.trans h.hostCalls, h'.currentSet.trans h.currentSet,
    h'.settings.trans h.settings, h'.natives.trans h.natives, h.heap.trans h'.heap⟩

end Calm

namespace Run

variable {α β : Type}

/-- The world in which a computation leaves off. -/
def left : EStateM.Result Halt World α → World
  | .ok _ w | .error _ w => w

/-- A failure has no place yet. -/
def Bare : EStateM.Result Halt World α → Prop
  | .error (.failed f) _ => f.location = none
  | _ => True

def Calms (x : Run α) : Prop := ∀ w, Calm w (left (x w)) ∧ Bare (x w)

namespace Calms

theorem pure (a : α) : Calms (Pure.pure a : Run α) := fun w => ⟨.refl w, trivial⟩

theorem bind {x : Run α} {f : α → Run β} (first : Calms x) (then_ : ∀ a, Calms (f a)) : Calms (x >>= f) := by
  intro w
  have h := first w
  show Calm w (left (EStateM.bind x f w)) ∧ Bare (EStateM.bind x f w)
  unfold EStateM.bind
  cases hx : x w with
  | error e w' =>
    rw [hx] at h
    exact ⟨h.1, by cases e <;> exact h.2⟩
  | ok a w' =>
    rw [hx] at h
    exact ⟨h.1.trans (then_ a w').1, (then_ a w').2⟩

theorem map {x : Run α} (h : Calms x) (f : α → β) : Calms (f <$> x) := by
  rw [← bind_pure_comp]
  exact h.bind fun _ => pure _

theorem ite {c : Prop} [Decidable c] {x y : Run α} (hx : Calms x) (hy : Calms y) :
    Calms (if c then x else y) := by
  split
  · exact hx
  · exact hy

/-- A change of the machine that leaves all of these alone. -/
theorem modify {f : Machine → Machine} (frames : ∀ m, (f m).frames = m.frames)
    (hostCalls : ∀ m, (f m).hostCalls = m.hostCalls)
    (currentSet : ∀ m, (f m).currentSet = m.currentSet) (settings : ∀ m, (f m).settings = m.settings) :
    Calms (modifyMachine f) :=
  fun _ => ⟨⟨frames _, hostCalls _, currentSet _, settings _, rfl, .refl _⟩, trivial⟩

end Calms

/-! ## Moves on stack and frames -/

theorem calms_fail (e : RuntimeError) : Calms (fail e : Run α) := fun w => ⟨.refl w, rfl⟩

theorem calms_failInternal (f : InternalFault) : Calms (failInternal f : Run α) := fun w => ⟨.refl w, rfl⟩

theorem calms_machine : Calms machine := fun w => ⟨.refl w, trivial⟩

theorem calms_heap : Calms heap := fun w => ⟨.refl w, trivial⟩

theorem calms_modifyHeap {f : Heap → Heap} (mild : ∀ h : Heap, h.Mild (f h)) : Calms (modifyHeap f) :=
  fun _ => ⟨⟨rfl, rfl, rfl, rfl, rfl, mild _⟩, trivial⟩

theorem calms_allocate {make : Heap → α × Heap} (mild : ∀ h : Heap, h.Mild (make h).2) : Calms (allocate make) :=
  fun _ => ⟨⟨rfl, rfl, rfl, rfl, rfl, mild _⟩, trivial⟩

theorem calms_updateType {f : UserType → UserType} (ref : Nat) (same : ∀ t, (f t).initChains = t.initChains) :
    Calms (updateType ref f) := calms_modifyHeap (Heap.mild_updateType_same same)

theorem calms_updateList (ref : Nat) (f : Array Value → Array Value) : Calms (modifyHeap (·.updateList ref f)) :=
  calms_modifyHeap fun _ => .same rfl rfl rfl

theorem calms_updateMap (ref : Nat) (f : Table MapKey Value → Table MapKey Value) :
    Calms (modifyHeap (·.updateMap ref f)) := calms_modifyHeap fun _ => .same rfl rfl rfl

theorem calms_modifyStack (f : Array Value → Array Value) : Calms (modifyStack f) :=
  .modify (fun _ => rfl) (fun _ => rfl) (fun _ => rfl) fun _ => rfl

theorem calms_stackSize : Calms stackSize := fun w => ⟨.refl w, trivial⟩

theorem calms_push (v : Value) : Calms (push v) := calms_modifyStack _

theorem calms_pushAll (vs : List Value) : Calms (pushAll vs) := calms_modifyStack _

theorem calms_slot (i : Nat) : Calms (slot i) := by
  intro w
  unfold slot
  cases w.machine.stack[i]? with
  | some => exact ⟨.refl w, trivial⟩
  | none => exact ⟨.refl w, rfl⟩

theorem calms_pop : Calms pop := by
  intro w
  unfold pop
  cases w.machine.stack.back? with
  | some => exact ⟨⟨rfl, rfl, rfl, rfl, rfl, .refl _⟩, trivial⟩
  | none => exact ⟨.refl w, rfl⟩

theorem calms_peek (distance : Nat) : Calms (peek distance) :=
  calms_stackSize.bind fun _ => .ite (calms_slot _) (calms_fail _)

theorem calms_setSlot (i : Nat) (v : Value) : Calms (setSlot i v) :=
  calms_stackSize.bind fun _ => .ite (calms_modifyStack _) (calms_fail _)

theorem calms_truncate (size : Nat) : Calms (truncate size) := calms_modifyStack _

theorem calms_takeFrom (start : Nat) : Calms (takeFrom start) := fun _ => ⟨⟨rfl, rfl, rfl, rfl, rfl, .refl _⟩, trivial⟩

theorem calms_popMany (n : Nat) : Calms (popMany n) :=
  calms_stackSize.bind fun _ => .ite (calms_takeFrom _) (calms_fail _)

theorem calms_frame : Calms frame := by
  refine calms_machine.bind fun m => ?_
  cases m.frames.back?
  · exact calms_failInternal _
  · exact .pure _

theorem calms_chunk : Calms chunk := calms_frame.bind fun _ => calms_heap.bind fun _ => .pure _

theorem calms_constant (index : UInt16) : Calms (constant index) := by
  refine calms_frame.bind fun f => calms_heap.bind fun h => ?_
  dsimp only
  cases (h.chunk (h.closure f.closure).chunk).constants[index.toNat]?
  · exact calms_failInternal _
  · exact .pure _

theorem calms_name (index : UInt16) : Calms (name index) := by
  refine calms_chunk.bind fun c => ?_
  cases c.name? index
  · exact calms_failInternal _
  · exact .pure _

/-! ## Variables -/

theorem calms_getLocal (index : UInt8) : Calms (getLocal index) :=
  calms_frame.bind fun _ => (calms_slot _).bind fun _ => calms_push _

theorem calms_setLocal (index : UInt8) : Calms (setLocal index) :=
  calms_frame.bind fun _ => (calms_peek _).bind fun _ => calms_setSlot _ _

theorem calms_captured (index : UInt8) : Calms (captured index) := by
  refine calms_frame.bind fun f => calms_heap.bind fun h => ?_
  cases (h.closure f.closure).cells[index.toNat]?
  · exact calms_failInternal _
  · exact .pure _

theorem calms_getCaptured (index : UInt8) : Calms (getCaptured index) := by
  refine (calms_captured index).bind fun ref => calms_heap.bind fun h => ?_
  cases h.cell ref
  · exact (calms_slot _).bind fun _ => calms_push _
  · exact calms_push _

theorem calms_setCaptured (index : UInt8) : Calms (setCaptured index) := by
  refine (calms_peek 0).bind fun v => (calms_captured index).bind fun ref =>
    calms_heap.bind fun h => ?_
  cases h.cell ref
  · exact calms_setSlot _ _
  · exact calms_modifyHeap fun _ => .same rfl rfl rfl

theorem calms_cellOf (i : Nat) : Calms (cellOf i) := by
  refine calms_heap.bind fun h => calms_machine.bind fun m => ?_
  have added (ref : Nat) :
      Calms (modifyMachine fun m => { m with openCells := ref :: m.openCells }) :=
    .modify (fun _ => rfl) (fun _ => rfl) (fun _ => rfl) fun _ => rfl
  cases m.openCells.find? (isOpenAt h i)
  · exact (calms_allocate fun _ => .same rfl rfl rfl).bind fun ref => (added ref).bind fun _ => .pure _
  · exact .pure _

theorem mild_closeCells (stack : Array Value) (start : Nat) (refs : List Nat) (h : Heap) :
    h.Mild (closeCells stack start refs h).2 := by
  fun_induction closeCells stack start refs h with
  | case1 => exact .refl _
  | case2 _ _ _ _ _ ih => exact ih
  | case3 ref rest h i opened below kept h' left ih =>
    rw [left] at ih
    exact ih
  | case4 ref rest h i opened above ih =>
    have closed : h.Mild (h.setCell ref (.closed ((stack[i]?).getD .null))) := .same rfl rfl rfl
    exact closed.trans ih

theorem calms_closeFrom (start : Nat) : Calms (closeFrom start) := by
  intro w
  unfold closeFrom
  split
  · exact ⟨.refl w, trivial⟩
  · exact ⟨⟨rfl, rfl, rfl, rfl, rfl, mild_closeCells _ _ _ _⟩, trivial⟩

theorem calms_closeTop : Calms closeTop := by
  refine calms_stackSize.bind fun size => .ite ((calms_fail _).bind fun _ => ?_) ?_
  all_goals exact (calms_closeFrom _).bind fun _ => calms_pop.bind fun _ => .pure _

theorem calms_defineGlobal (index : UInt16) : Calms (defineGlobal index) :=
  (calms_name index).bind fun _ => calms_pop.bind fun _ =>
    .modify (fun _ => rfl) (fun _ => rfl) (fun _ => rfl) fun _ => rfl

theorem calms_getGlobal (index : UInt16) : Calms (getGlobal index) := by
  refine (calms_name index).bind fun name => calms_machine.bind fun m => ?_
  cases m.globals.get? name
  · exact calms_fail _
  · exact calms_push _

theorem calms_setGlobal (index : UInt16) : Calms (setGlobal index) :=
  (calms_name index).bind fun _ => calms_machine.bind fun _ => .ite
    ((calms_peek 0).bind fun _ => .modify (fun _ => rfl) (fun _ => rfl) (fun _ => rfl) fun _ => rfl) (calms_fail _)

/-! ## Operators -/

theorem calms_apply (op : Operator) (a b : Value) : Calms (op.apply a b) := by
  have onNumbers (op : Operator) (f : Number → Number → Number) : Calms (op.onNumbers f a b) := by
    unfold Operator.onNumbers
    split
    · exact .pure _
    · exact calms_fail _
  have onOrdered (op : Operator) (f : Number → Number → Bool) (g : String → String → Bool) :
      Calms (op.onOrdered f g a b) := by
    unfold Operator.onOrdered
    split
    · exact .pure _
    · exact .pure _
    · exact calms_fail _
  cases op with
  | add =>
    show Calms (Operator.plus a b)
    unfold Operator.plus
    split
    · exact .pure _
    · exact calms_heap.bind fun h => .ite (.pure _) (.ite (calms_allocate fun _ => .same rfl rfl rfl) (calms_fail _))
  | subtract | multiply | divide | modulus => exact onNumbers _ _
  | equal => exact .pure _
  | less | greater => exact onOrdered _ _ _
  | meets => exact calms_heap.bind fun _ => .pure _

theorem calms_binary (op : Operator) : Calms (binary op) :=
  calms_pop.bind fun _ => calms_pop.bind fun _ => (calms_apply _ _ _).bind fun _ => calms_push _

theorem calms_negate : Calms negate := by
  refine calms_pop.bind fun v => ?_
  split
  · exact calms_push _
  · exact calms_fail _

theorem calms_complement : Calms complement := calms_pop.bind fun _ => calms_push _

/-! ## Types -/

theorem calms_asType (op : String) (v : Value) : Calms (asType op v) := by
  unfold asType
  split
  · exact .pure _
  · exact calms_fail _

theorem calms_popType (op : String) : Calms (popType op) := calms_pop.bind fun _ => calms_asType _ _

theorem calms_peekType (op : String) : Calms (peekType op) :=
  (calms_peek 0).bind fun _ => calms_asType _ _

theorem calms_userType (ref : Nat) : Calms (userType ref) := calms_heap.bind fun _ => .pure _

theorem calms_declareType (kind : TypeKind) (index : UInt16) : Calms (declareType kind index) :=
  (calms_name index).bind fun _ => (calms_allocate fun _ => Heap.mild_addType _ _ _).bind fun _ => calms_push _

theorem calms_inherit : Calms inherit := by
  refine (calms_popType _).bind fun sub => (calms_peekType _).bind fun parent w => ?_
  change Calm w (left ((if (w.heap.userType parent).kind = .enumKind then _ else _ : Run Unit) w)) ∧
    Bare ((if (w.heap.userType parent).kind = .enumKind then _ else _ : Run Unit) w)
  split
  · exact calms_fail _ w
  · refine ⟨⟨rfl, rfl, rfl, rfl, rfl, Heap.mild_updateType fun chained t _ v chain new => ?_⟩, trivial⟩
    exact chained.userType parent v ((List.mem_append.mp chain).resolve_left new)

theorem calms_addMixin : Calms addMixin :=
  (calms_popType _).bind fun _ => (calms_peekType _).bind fun _ => calms_updateType _ fun _ => by rfl

theorem calms_addContract : Calms addContract :=
  (calms_popType _).bind fun _ => (calms_peekType _).bind fun _ => calms_updateType _ fun _ => by rfl

theorem calms_addField (index : UInt16) : Calms (addField index) :=
  (calms_name index).bind fun _ => (calms_peekType _).bind fun _ => calms_updateType _ fun _ => by rfl

theorem calms_addMethod (index : UInt16) : Calms (addMethod index) :=
  (calms_name index).bind fun _ => calms_pop.bind fun _ => (calms_peekType _).bind fun _ =>
    calms_updateType _ fun _ => by rfl

theorem calms_addStatic (index : UInt16) : Calms (addStatic index) :=
  (calms_name index).bind fun _ => calms_pop.bind fun _ => (calms_peekType _).bind fun _ =>
    calms_updateType _ fun _ => by rfl

theorem calms_addEntry (index : UInt16) : Calms (addEntry index) :=
  (calms_name index).bind fun _ => calms_pop.bind fun _ => (calms_peekType _).bind fun _ =>
    (calms_allocate fun _ => .same rfl rfl rfl).bind fun _ => calms_updateType _ fun _ => by rfl

/-- A chain of a type that has taken over mixins is its own, or that of a mixin. -/
theorem mem_initChains_absorbAll {mixins : List UserType} {t : UserType} {v : Value}
    (mem : v ∈ (absorbAll mixins t).initChains) : v ∈ t.initChains ∨ ∃ m ∈ mixins, v ∈ m.initChains := by
  rcases List.mem_append.mp mem with mem | mem
  · obtain ⟨chains, from_, part⟩ := List.mem_flatten.mp mem
    obtain ⟨m, mem, rfl⟩ := List.mem_map.mp from_
    exact .inr ⟨m, mem, part⟩
  · exact .inl (UserType.initChains_absorb mixins t ▸ mem)

theorem mild_absorbAll (ref : Nat) (mixins : List Nat) (h : Heap) :
    h.Mild (h.updateType ref (absorbAll (mixins.map h.userType))) := by
  refine Heap.mild_updateType fun chained t _ v chain new => ?_
  obtain ⟨m, mem, chain⟩ := (mem_initChains_absorbAll chain).resolve_left new
  obtain ⟨r, -, rfl⟩ := List.mem_map.mp mem
  exact chained.userType r v chain

/-- The part of an instruction that checks a complete type against its contracts and closes it. -/
def checkType (ref : Nat) : Run Unit := do
  let h ← heap
  let t := h.userType ref
  match violation? h t (t.contracts.map h.userType) with
  | some e => fail e
  | none => updateType ref fun t => { t with flags := if t.kind = .enumKind then t.flags.lock else t.flags.freeze }

theorem calms_finishType : Calms finishType := by
  refine (calms_peekType _).bind fun ref w => ?_
  have absorbed : Calm w { w with heap := w.heap.updateType ref (absorbAll ((w.heap.userType ref).mixins.map w.heap.userType)) } :=
    ⟨rfl, rfl, rfl, rfl, rfl, mild_absorbAll _ _ _⟩
  have checked : Calms (checkType ref) := by
    refine calms_heap.bind fun h => ?_
    dsimp only
    split
    · exact calms_fail _
    · exact calms_updateType _ fun _ => rfl
  obtain ⟨calm, bare⟩ := checked { w with heap := w.heap.updateType ref _ }
  exact ⟨absorbed.trans calm, bare⟩

theorem calms_restrict (op : String) (change : Flags → Flags) : Calms (restrict op change) := by
  refine calms_pop.bind fun v => ?_
  split
  · exact calms_modifyHeap fun _ => .same rfl rfl rfl
  · exact calms_updateType _ fun _ => by rfl
  · exact calms_fail _

/-! ## Properties and elements -/

theorem calms_undefinedProperty (target : Value) (name : String) :
    Calms (undefinedProperty target name : Run α) := calms_heap.bind fun _ => calms_fail _

theorem calms_property (target : Value) (name : String) : Calms (property target name) := by
  refine calms_heap.bind fun h => ?_
  split
  · dsimp only
    split
    · exact .pure _
    · split
      · exact calms_allocate fun _ => .same rfl rfl rfl
      · exact calms_undefinedProperty _ _
  · split
    · exact .pure _
    · exact calms_undefinedProperty _ _
  · exact calms_fail _

theorem calms_writeUnless (flags : Flags) (present : Bool) (target : Value) (name : String)
    {write : Heap → Heap} (mild : ∀ h : Heap, h.Mild (write h)) : Calms (writeUnless flags present target name write) := by
  unfold writeUnless
  split
  · exact calms_heap.bind fun _ => calms_fail _
  · exact calms_heap.bind fun _ => calms_fail _
  · exact calms_modifyHeap mild

theorem calms_writeField (target : Value) (name : String) (v : Value) :
    Calms (writeField target name v) := by
  refine calms_heap.bind fun h => ?_
  split
  · exact calms_writeUnless _ _ _ _ fun _ => .same rfl rfl rfl
  · exact calms_writeUnless _ _ _ _ (Heap.mild_updateType_same fun _ => by rfl)
  · exact calms_fail _

theorem calms_getProperty (index : UInt16) : Calms (getProperty index) :=
  (calms_name index).bind fun _ => calms_pop.bind fun _ => (calms_property _ _).bind fun _ =>
    calms_push _

theorem calms_setProperty (index : UInt16) : Calms (setProperty index) :=
  (calms_name index).bind fun _ => calms_pop.bind fun _ => calms_pop.bind fun _ =>
    (calms_writeField _ _ _).bind fun _ => calms_push _

theorem calms_undefinedInSuper (ref : Nat) (name : String) :
    Calms (undefinedInSuper ref name : Run α) := (calms_userType ref).bind fun _ => calms_fail _

theorem calms_getSuper (index : UInt16) : Calms (getSuper index) := by
  refine (calms_name index).bind fun name => (calms_popType _).bind fun ref =>
    calms_pop.bind fun receiver => (calms_userType ref).bind fun t => ?_
  split
  · exact (calms_allocate fun _ => .same rfl rfl rfl).bind fun _ => calms_push _
  · exact calms_undefinedInSuper _ _

theorem calms_position (index : Value) (length : Nat) : Calms (position index length) := by
  unfold position
  dsimp only
  split
  · exact .ite (.pure _) (calms_heap.bind fun _ => calms_fail _)
  · exact calms_heap.bind fun _ => calms_fail _

theorem calms_fieldName (v : Value) : Calms (fieldName v) := by
  unfold fieldName
  split
  · exact .pure _
  · exact calms_fail _

theorem calms_mapKey (v : Value) : Calms (mapKey v) := by
  unfold mapKey
  split
  · exact .pure _
  · exact calms_fail _

theorem calms_element (target index : Value) : Calms (element target index) := by
  unfold element
  split
  · exact calms_heap.bind fun _ => (calms_position _ _).bind fun _ => .pure _
  · exact (calms_mapKey _).bind fun _ => calms_heap.bind fun _ => .pure _
  · exact (calms_position _ _).bind fun _ => .pure _
  · exact (calms_fieldName _).bind fun _ => calms_property _ _
  · exact (calms_fieldName _).bind fun _ => calms_property _ _
  · exact calms_fail _

theorem calms_setElement (target index v : Value) : Calms (setElement target index v) := by
  unfold setElement
  split
  · exact calms_heap.bind fun _ => (calms_position _ _).bind fun _ => calms_modifyHeap fun _ => .same rfl rfl rfl
  · exact (calms_mapKey _).bind fun _ => calms_modifyHeap fun _ => .same rfl rfl rfl
  · exact (calms_fieldName _).bind fun _ => calms_writeField _ _ _
  · exact (calms_fieldName _).bind fun _ => calms_writeField _ _ _
  · exact calms_fail _

theorem calms_getIndex : Calms getIndex :=
  calms_pop.bind fun _ => calms_pop.bind fun _ => (calms_element _ _).bind fun _ => calms_push _

theorem calms_setIndex : Calms setIndex :=
  calms_pop.bind fun _ => calms_pop.bind fun _ => calms_pop.bind fun _ =>
    (calms_setElement _ _ _).bind fun _ => calms_push _

theorem calms_buildList (n : UInt16) : Calms (buildList n) :=
  (calms_popMany _).bind fun _ => (calms_allocate fun _ => .same rfl rfl rfl).bind fun _ => calms_push _

theorem calms_entriesOf (entries : Table MapKey Value) (flat : List Value) :
    Calms (entriesOf entries flat) := by
  fun_induction entriesOf entries flat with
  | case1 entries k v rest ih => exact (calms_mapKey k).bind ih
  | case2 => exact .pure _

theorem calms_buildMap (n : UInt16) : Calms (buildMap n) :=
  (calms_popMany _).bind fun _ => (calms_entriesOf _ _).bind fun _ => (calms_allocate fun _ => .same rfl rfl rfl).bind
    fun _ => calms_push _

theorem calms_newDynamic : Calms newDynamic := (calms_allocate fun _ => .same rfl rfl rfl).bind fun _ => calms_push _

/-! ## Natives that do not call back -/

theorem calms_argument (args : Window) (index : Nat) : Calms (args.argument index) :=
  .ite (calms_failInternal _) (calms_slot _)

theorem calms_mapM {f : α → Run β} (each : ∀ a, Calms (f a)) (as : List α) :
    Calms (as.mapM f) := by
  induction as with
  | nil => exact .pure _
  | cons a as ih =>
    rw [List.mapM_cons]
    exact (each a).bind fun _ => ih.bind fun _ => .pure _

theorem calms_arguments (args : Window) : Calms args.arguments :=
  calms_mapM (fun _ => calms_argument args _) _

theorem calms_expect (args : Window) (name : String) (expected : Nat) :
    Calms (args.expect name expected) := .ite (.pure _) (calms_fail _)

theorem calms_give (v : Value) : Calms (Native.give v) := (calms_push v).bind fun _ => .pure _

theorem calms_core (function : CoreFunction) (args : Window) :
    Calms (Native.core function args) := by
  cases function with
  | print =>
    refine (calms_arguments args).bind fun values => calms_heap.bind fun h => ?_
    have printed (text : String) :
        Calms (modifyMachine fun m => { m with output := m.output ++ text }) :=
      .modify (fun _ => rfl) (fun _ => rfl) (fun _ => rfl) fun _ => rfl
    exact (printed _).bind fun _ => .pure _
  | str =>
    exact (calms_expect _ _ _).bind fun _ => (calms_argument _ _).bind fun _ =>
      calms_heap.bind fun _ => calms_give _
  | list =>
    exact (calms_arguments args).bind fun _ => (calms_allocate fun _ => .same rfl rfl rfl).bind fun _ => calms_give _
  | map =>
    exact (calms_expect _ _ _).bind fun _ => (calms_allocate fun _ => .same rfl rfl rfl).bind fun _ => calms_give _

theorem calms_items (ref : Nat) : Calms (Native.items ref) := calms_heap.bind fun _ => .pure _

theorem calms_listAdd (ref : Nat) (args : Window) : Calms (Native.listAdd ref args) :=
  (calms_expect _ _ _).bind fun _ => (calms_argument _ _).bind fun _ =>
    (calms_updateList _ _).bind fun _ => .pure _

theorem calms_listCount (ref : Nat) (args : Window) : Calms (Native.listCount ref args) :=
  (calms_expect _ _ _).bind fun _ => calms_heap.bind fun _ => calms_give _

theorem calms_listGet (ref : Nat) (args : Window) : Calms (Native.listGet ref args) :=
  (calms_expect _ _ _).bind fun _ => calms_heap.bind fun _ => (calms_argument _ _).bind fun _ =>
    (calms_position _ _).bind fun _ => calms_give _

theorem calms_mapMethod {ref : Nat} {name : String} {method : Window → Run NativeResult}
    (found : Native.mapMethod? ref name = some method) (args : Window) : Calms (method args) := by
  unfold Native.mapMethod? at found
  split at found <;> cases found
  · exact (calms_expect _ _ _).bind fun _ => calms_heap.bind fun _ => calms_give _
  · exact (calms_expect _ _ _).bind fun _ => (calms_argument _ _).bind fun _ =>
      (calms_mapKey _).bind fun _ => calms_heap.bind fun _ => calms_give _
  · exact (calms_expect _ _ _).bind fun _ => (calms_argument _ _).bind fun _ =>
      (calms_mapKey _).bind fun _ => calms_heap.bind fun _ => (calms_updateMap _ _).bind fun _ =>
        calms_give _

/-! ## Calls -/

theorem calms_calleeSlot (argc : Nat) : Calms (calleeSlot argc) :=
  calms_stackSize.bind fun _ => .ite (.pure _) (calms_fail _)

theorem calms_pushResults (results : List Value) (start : Nat) :
    Calms (pushResults results start) :=
  calms_machine.bind fun _ => .ite (calms_pushAll _) (calms_fail _)

theorem calms_undefinedMethod (receiver : Value) (name : String) :
    Calms (undefinedMethod receiver name : Run α) := calms_heap.bind fun _ => calms_fail _

/-! ## Other instructions -/

theorem calms_beginSeveral : Calms beginSeveral :=
  calms_stackSize.bind fun _ => .modify (fun _ => rfl) (fun _ => rfl) (fun _ => rfl) fun _ => rfl

theorem calms_endSeveral : Calms endSeveral := by
  refine calms_machine.bind fun m => ?_
  have dropped (marks : List Nat) : Calms (modifyMachine fun m => { m with marks }) :=
    .modify (fun _ => rfl) (fun _ => rfl) (fun _ => rfl) fun _ => rfl
  split
  · exact (dropped _).bind fun _ => calms_stackSize.bind fun _ => calms_push _
  · exact calms_failInternal _

theorem calms_popCount : Calms popCount := by
  refine calms_pop.bind fun v => ?_
  dsimp only
  split
  · exact .pure _
  · exact calms_heap.bind fun _ => calms_failInternal _

theorem calms_validate (check : Check) : Calms (validate check) := by
  cases check
  exact calms_popCount.bind fun _ => calms_popCount.bind fun _ => .ite (calms_fail _) (.pure _)

theorem calms_duplicatePair : Calms duplicatePair :=
  (calms_peek 1).bind fun _ => (calms_peek 0).bind fun _ => (calms_push _).bind fun _ =>
    calms_push _

theorem calms_swap : Calms swap :=
  calms_pop.bind fun _ => calms_pop.bind fun _ => (calms_push _).bind fun _ => calms_push _

theorem calms_throwTop : Calms (throwTop : Run α) := calms_pop.bind fun _ => calms_fail _

theorem calms_modifyTests (f : TestRecord → TestRecord) : Calms (modifyTests f) :=
  .modify (fun _ => rfl) (fun _ => rfl) (fun _ => rfl) fun _ => rfl

theorem calms_dataRows (v : Value) : Calms (dataRows v) := by
  unfold dataRows
  split
  · exact calms_items _
  · exact calms_fail _

theorem calms_build : Calms build := by
  refine calms_pop.bind fun v => ?_
  have queued (script : Script) :
      Calms (modifyMachine fun m => { m with queue := m.queue ++ [script] }) :=
    .modify (fun _ => rfl) (fun _ => rfl) (fun _ => rfl) fun _ => rfl
  split
  · split
    · exact queued _
    · exact calms_fail _
  · exact calms_fail _

theorem calms_register (index : UInt16) : Calms (register index) :=
  (calms_name index).bind fun _ => calms_pop.bind fun _ =>
    .modify (fun _ => rfl) (fun _ => rfl) (fun _ => rfl) fun _ => rfl

theorem calms_inject (index : UInt16) : Calms (inject index) := by
  refine (calms_name index).bind fun name => calms_machine.bind fun m => ?_
  split
  · exact calms_push _
  · exact calms_fail _

/-! ## Whole instructions -/

/-- An instruction that neither moves nor makes frames, and does not go back into the machine. -/
def isCalm : Instruction → Bool
  | .call _ | .invoke .. | .superInvoke .. | .testSet _ | .testCase .. | .goto _ | .gotoIfFalse _ | .closure _
  | .initChain => false
  | _ => true

theorem calms_plain (again : Reentry) {i : Instruction} (calm : isCalm i) : Calms (plain again i) := by
  cases i with
  | call | invoke | superInvoke | testSet | testCase | goto | gotoIfFalse | closure | initChain => cases calm
  | pushConstant n => exact (calms_constant n).bind fun _ => calms_push _
  | pushByte | pushBool | null => exact calms_push _
  | pop => exact calms_pop.bind fun _ => .pure _
  | duplicate => exact (calms_peek 0).bind fun _ => calms_push _
  | duplicatePair => exact calms_duplicatePair
  | swap => exact calms_swap
  | add | subtract | multiply | divide | modulus | equal | less | greater | meets => exact calms_binary _
  | negate => exact calms_negate
  | not => exact calms_complement
  | getLocal slot => exact calms_getLocal slot
  | setLocal slot => exact calms_setLocal slot
  | getUpvalue index => exact calms_getCaptured index
  | setUpvalue index => exact calms_setCaptured index
  | defineGlobal name => exact calms_defineGlobal name
  | getGlobal name => exact calms_getGlobal name
  | setGlobal name => exact calms_setGlobal name
  | throw => exact calms_throwTop
  | capture => exact calms_failInternal _
  | closeUpvalue => exact calms_closeTop
  | declareType kind name => exact calms_declareType kind name
  | inherit => exact calms_inherit
  | mixin => exact calms_addMixin
  | signs => exact calms_addContract
  | field name => exact calms_addField name
  | method name => exact calms_addMethod name
  | staticMember name => exact calms_addStatic name
  | enumValue name => exact calms_addEntry name
  | finishType => exact calms_finishType
  | freeze | readOnly => exact calms_restrict _ _
  | getProperty name => exact calms_getProperty name
  | setProperty name => exact calms_setProperty name
  | getIndex => exact calms_getIndex
  | setIndex => exact calms_setIndex
  | getSuper name => exact calms_getSuper name
  | buildList n => exact calms_buildList n
  | buildMap n => exact calms_buildMap n
  | newDynamic => exact calms_newDynamic
  | multiVarStart => exact calms_beginSeveral
  | multiVarEnd => exact calms_endSeveral
  | validate check => exact calms_validate check
  | build => exact calms_build
  | register name => exact calms_register name
  | inject name => exact calms_inject name
  | ret | yield => exact .pure _

end Run
end ScriptEngine
