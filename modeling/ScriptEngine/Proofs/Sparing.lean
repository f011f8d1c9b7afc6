import ScriptEngine.Proofs.Mooring

/-!
# Instructions that spare what lies below

Most instructions take values from the top of the stack and leave others there, and have
nothing to do with captured variables: cells and frames stay as they are, and so do the slots
below what the instruction takes. `Spares k r s x` says this of a computation that finds room
for `r` values above slot `k` and leaves room for `s`. An assignment to a local or a captured
variable is none of these, nor is an instruction that goes back into the machine.
-/
namespace ScriptEngine

/-- Nothing has changed that captured variables depend on, nor a slot below `k`. -/
structure World.Untouched (k : Nat) (w w' : World) : Prop where
  frames : w'.machine.frames = w.machine.frames
  openCells : w'.machine.openCells = w.machine.openCells
  natives : w'.natives = w.natives
  scripts : w'.heap.scripts = w.heap.scripts
  closures : w'.heap.closures = w.heap.closures
  cells : w'.heap.cells = w.heap.cells
  slots : ∀ i < k, w'.machine.stack[i]? = w.machine.stack[i]?
  floor : k ≤ w'.machine.stack.size

section

variable {R : Set Nat} {k : Nat} {w w' w'' : World}

theorem World.Untouched.refl (floor : k ≤ w.machine.stack.size) : w.Untouched k w :=
  ⟨rfl, rfl, rfl, rfl, rfl, rfl, fun _ _ => rfl, floor⟩

theorem World.Untouched.trans (h : w.Untouched k w') (h' : w'.Untouched k w'') : w.Untouched k w'' where
  frames := h'.frames.trans h.frames
  openCells := h'.openCells.trans h.openCells
  natives := h'.natives.trans h.natives
  scripts := h'.scripts.trans h.scripts
  closures := h'.closures.trans h.closures
  cells := h'.cells.trans h.cells
  slots i below := (h'.slots i below).trans (h.slots i below)
  floor := h'.floor

theorem World.Untouched.cell (h : w.Untouched k w') (ref : Nat) : w'.heap.cell ref = w.heap.cell ref :=
  congrArg (·[ref]?.getD default) h.cells

theorem World.Untouched.minds (h : w.Untouched k w') (tidy : w.Tidy) (below : ∀ i ∈ w.heap.lodged, i < k) :
    w.Minds R k w' where
  tidy := tidy.same h.cells h.openCells
  natives := h.natives
  opened ref i opened _ := h.cell ref ▸ opened
  cells := Nat.le_of_eq (congrArg Array.size h.cells).symm
  reads ref _ _ := World.reads_eq (h.cell ref) fun i opened => h.slots i (below i ⟨ref, opened⟩)
  heap := ⟨h.scripts, fun _ _ => by rw [h.closures]⟩
  floor := h.floor
  below := by
    rintro i ⟨ref, opened⟩
    exact below i ⟨ref, h.cell ref ▸ opened⟩
  frames := ⟨[], by simp [h.frames], nofun⟩

end

namespace Run

variable {α β : Type} {k r s t : Nat}

/-- With room for `r` values above slot `k`, the computation changes nothing that captured variables depend on; an
answer leaves room for `s`. -/
def Spares (k r s : Nat) (x : Run α) : Prop :=
  ∀ w, k + r ≤ w.machine.stack.size → match x w with
    | .ok _ w' => w.Untouched k w' ∧ k + s ≤ w'.machine.stack.size
    | .error _ w' => w.Untouched k w'

namespace Spares

theorem pure (a : α) : Spares k r r (Pure.pure a : Run α) := fun _ room => ⟨.refl (by omega), room⟩

theorem bind {x : Run α} {f : α → Run β} (first : Spares k r s x) (then_ : ∀ a, Spares k s t (f a)) :
    Spares k r t (x >>= f) := by
  intro w room
  have h := first w room
  rw [bind_eq]
  cases ran : x w with
  | error e w' =>
    rw [ran] at h
    exact h
  | ok a w' =>
    rw [ran] at h
    have next := then_ a w' h.2
    dsimp only
    split at next
    · next same => rw [same]; exact ⟨h.1.trans next.1, next.2⟩
    · next same => rw [same]; exact h.1.trans next

theorem map {x : Run α} (h : Spares k r s x) (f : α → β) : Spares k r s (f <$> x) := by
  rw [← bind_pure_comp]
  exact h.bind fun _ => pure _

theorem ite {c : Prop} [Decidable c] {x y : Run α} (hx : Spares k r s x) (hy : Spares k r s y) :
    Spares k r s (if c then x else y) := by
  split
  · exact hx
  · exact hy

/-- More room than is needed. -/
theorem mono {r' s' : Nat} {x : Run α} (h : Spares k r s x) (more : r ≤ r') (less : s' ≤ s) : Spares k r' s' x := by
  intro w room
  have h := h w (by omega)
  split at h
  · exact ⟨h.1, by omega⟩
  · exact h

/-- A failure leaves any room. -/
theorem fail (e : RuntimeError) : Spares k r s (Run.fail e : Run α) := fun _ room => World.Untouched.refl (by omega)

theorem raise (f : Failure) : Spares k r s (Run.raise f : Run α) := fun _ room => World.Untouched.refl (by omega)

theorem failInternal (f : InternalFault) : Spares k r s (Run.failInternal f : Run α) := fail _

/-- A computation that only looks. -/
theorem looks {x : Run α} (h : Looks x) : Spares k r r x := by
  intro w room
  obtain ⟨a, ran⟩ | ⟨e, -, ran⟩ := h w <;> rw [ran]
  · exact ⟨.refl (by omega), room⟩
  · exact .refl (by omega)

/-- A change of the machine beside the stack, the frames and the list of open cells. -/
theorem modify {f : Machine → Machine} (frames : ∀ m, (f m).frames = m.frames)
    (openCells : ∀ m, (f m).openCells = m.openCells) (stack : ∀ m, (f m).stack = m.stack) :
    Spares k r r (modifyMachine f) := fun w room =>
  ⟨⟨frames _, openCells _, rfl, rfl, rfl, rfl, fun _ _ => by rw [stack], by rw [stack]; omega⟩,
    by rw [stack]; exact room⟩

/-- A change of the heap beside scripts, closures and cells. -/
theorem modifyHeap {f : Heap → Heap} (scripts : ∀ h, (f h).scripts = h.scripts)
    (closures : ∀ h, (f h).closures = h.closures)
    (cells : ∀ h, (f h).cells = h.cells) : Spares k r r (Run.modifyHeap f) := fun _ room =>
  ⟨⟨rfl, rfl, rfl, scripts _, closures _, cells _, fun _ _ => rfl, Nat.le_trans (Nat.le_add_right k r) room⟩, room⟩

theorem allocate {make : Heap → α × Heap} (scripts : ∀ h, (make h).2.scripts = h.scripts)
    (closures : ∀ h, (make h).2.closures = h.closures) (cells : ∀ h, (make h).2.cells = h.cells) :
    Spares k r r (Run.allocate make) := fun _ room =>
  ⟨⟨rfl, rfl, rfl, scripts _, closures _, cells _, fun _ _ => rfl, Nat.le_trans (Nat.le_add_right k r) room⟩, room⟩

theorem updateType (ref : Nat) (f : UserType → UserType) : Spares k r r (Run.updateType ref f) :=
  modifyHeap (fun _ => rfl) (fun _ => rfl) fun _ => rfl

theorem updateList (ref : Nat) (f : Array Value → Array Value) : Spares k r r (Run.modifyHeap (·.updateList ref f)) :=
  modifyHeap (fun _ => rfl) (fun _ => rfl) fun _ => rfl

theorem updateMap (ref : Nat) (f : Table MapKey Value → Table MapKey Value) :
    Spares k r r (Run.modifyHeap (·.updateMap ref f)) := modifyHeap (fun _ => rfl) (fun _ => rfl) fun _ => rfl

end Spares

/-! ## The stack -/

/-- Another stack with the same slots below. -/
theorem spares_modifyStack {f : Array Value → Array Value}
    (slots : ∀ xs : Array Value, k + r ≤ xs.size → (∀ i < k, (f xs)[i]? = xs[i]?) ∧ k + s ≤ (f xs).size) :
    Spares k r s (modifyStack f) := fun w room =>
  have ⟨below, size⟩ := slots w.machine.stack room
  ⟨⟨rfl, rfl, rfl, rfl, rfl, rfl, below, by change k ≤ (f w.machine.stack).size; omega⟩, size⟩

theorem spares_push (v : Value) : Spares k r (r + 1) (push v) := by
  refine spares_modifyStack fun xs room => ⟨fun i below => ?_, by rw [Array.size_push]; omega⟩
  rw [Array.getElem?_push, if_neg (by omega)]

theorem spares_pushAll (vs : List Value) : Spares k r r (pushAll vs) := by
  refine spares_modifyStack fun xs room => ⟨fun i below => ?_, by rw [size_appendList]; omega⟩
  rw [← Array.getElem?_toList, Array.toList_appendList, List.getElem?_append_left (by simp; omega),
    Array.getElem?_toList]

theorem spares_shrink {size : Nat} (above : k ≤ size) : Spares k r 0 (modifyStack (·.shrink size)) := by
  refine spares_modifyStack fun xs room => ⟨fun i below => shrink_below (by omega), ?_⟩
  rw [Array.size_shrink]
  omega

theorem spares_truncate {size : Nat} (above : k ≤ size) : Spares k r 0 (truncate size) := spares_shrink above

theorem spares_setSlot {i : Nat} (above : k ≤ i) (v : Value) : Spares k r r (setSlot i v) := by
  refine (Spares.looks looks_stackSize).bind fun size =>
    .ite (spares_modifyStack fun xs room => ⟨fun j below => ?_, ?_⟩)
    (.fail _)
  · exact Array.getElem?_setIfInBounds_ne (by omega)
  · rw [Array.size_setIfInBounds]
    exact room

theorem spares_pop : Spares k (r + 1) r pop := by
  intro w room
  obtain ⟨stack, v, on⟩ := Array.eq_push_of_size_ne_zero (show w.machine.stack.size ≠ 0 by omega)
  have size : w.machine.stack.size = stack.size + 1 := by rw [on, Array.size_push]
  rw [pop_eq on]
  refine ⟨⟨rfl, rfl, rfl, rfl, rfl, rfl, fun i below => ?_, by change k ≤ stack.size; omega⟩,
    by change k + r ≤ stack.size; omega⟩
  rw [on, Array.getElem?_push_lt (by omega)]
  exact Array.getElem?_eq_getElem _

theorem spares_takeFrom {start : Nat} (above : k ≤ start) : Spares k r 0 (takeFrom start) := fun w room =>
  spares_shrink above w room

theorem spares_popMany (n : Nat) : Spares k (r + n) r (popMany n) := by
  intro w room
  have ran : popMany n w = takeFrom (w.machine.stack.size - n) w := by
    change (if n ≤ w.machine.stack.size then takeFrom _ else _ : Run (List Value)) w = _
    rw [if_pos (by omega)]
  rw [ran]
  refine ⟨(spares_takeFrom (by omega) w room).1, ?_⟩
  change k + r ≤ (w.machine.stack.shrink _).size
  rw [Array.size_shrink]
  omega

theorem spares_peek (distance : Nat) : Spares k r r (peek distance) := .looks (looks_peek distance)

theorem spares_name (index : UInt16) : Spares k r r (name index) := .looks (looks_name index)

theorem spares_heap : Spares k r r heap := .looks looks_heap

theorem spares_machine : Spares k r r machine := .looks looks_machine

theorem spares_frame : Spares k r r frame := .looks looks_frame

theorem spares_slot (i : Nat) : Spares k r r (slot i) := .looks (looks_slot i)

theorem looks_constant (index : UInt16) : Looks (constant index) := by
  refine looks_frame.bind fun _ => looks_heap.bind fun h => ?_
  dsimp only
  split
  · exact looks_pure _
  · exact looks_internal _

/-! ## Variables and operators -/

theorem spares_getLocal (index : UInt8) : Spares k r (r + 1) (getLocal index) :=
  spares_frame.bind fun _ => (spares_slot _).bind fun _ => spares_push _

theorem spares_getCaptured (index : UInt8) : Spares k r (r + 1) (getCaptured index) := by
  refine (Spares.looks (looks_captured index)).bind fun ref => spares_heap.bind fun h => ?_
  split
  · exact (spares_slot _).bind fun _ => spares_push _
  · exact spares_push _

theorem spares_defineGlobal (index : UInt16) : Spares k (r + 1) r (defineGlobal index) :=
  (spares_name index).bind fun _ => spares_pop.bind fun _ => .modify (fun _ => rfl) (fun _ => rfl) fun _ => rfl

theorem spares_getGlobal (index : UInt16) : Spares k r (r + 1) (getGlobal index) := by
  refine (spares_name index).bind fun name => spares_machine.bind fun m => ?_
  split
  · exact spares_push _
  · exact .fail _

theorem spares_setGlobal (index : UInt16) : Spares k r r (setGlobal index) :=
  (spares_name index).bind fun _ => spares_machine.bind fun _ => .ite
    ((spares_peek 0).bind fun _ => .modify (fun _ => rfl) (fun _ => rfl) fun _ => rfl) (.fail _)

theorem spares_apply (op : Operator) (a b : Value) : Spares k r r (op.apply a b) := by
  have onNumbers (op : Operator) (f : Number → Number → Number) : Spares k r r (op.onNumbers f a b) := by
    unfold Operator.onNumbers
    split
    · exact .pure _
    · exact .fail _
  have onOrdered (op : Operator) (f : Number → Number → Bool) (g : String → String → Bool) :
      Spares k r r (op.onOrdered f g a b) := by
    unfold Operator.onOrdered
    split
    · exact .pure _
    · exact .pure _
    · exact .fail _
  cases op with
  | add =>
    change Spares k r r (Operator.plus a b)
    unfold Operator.plus
    split
    · exact .pure _
    · refine spares_heap.bind fun h => .ite (.pure _) (.ite ?_ (.fail _))
      exact .allocate (fun _ => rfl) (fun _ => rfl) fun _ => rfl
  | subtract | multiply | divide | modulus => exact onNumbers _ _
  | equal => exact .pure _
  | less | greater => exact onOrdered _ _ _
  | meets => exact spares_heap.bind fun _ => .pure _

theorem spares_binary (op : Operator) : Spares k 2 1 (binary op) :=
  spares_pop.bind fun _ => spares_pop.bind fun _ => (spares_apply _ _ _).bind fun _ => spares_push _

theorem spares_negate : Spares k 1 1 negate := by
  refine spares_pop.bind fun v => ?_
  split
  · exact spares_push _
  · exact .fail _

/-! ## Types -/

theorem spares_popType (op : String) : Spares k (r + 1) r (popType op) :=
  spares_pop.bind fun _ => .looks (looks_asType _ _)

theorem spares_peekType (op : String) : Spares k r r (peekType op) := .looks (looks_peekType op)

theorem spares_userType (ref : Nat) : Spares k r r (userType ref) := .looks (looks_userType ref)

/-- Something that is no closure is put on the heap and on the stack. -/
theorem spares_pushNew {make : Heap → Value × Heap} (scripts : ∀ h, (make h).2.scripts = h.scripts)
    (closures : ∀ h, (make h).2.closures = h.closures) (cells : ∀ h, (make h).2.cells = h.cells) :
    Spares k r (r + 1) (do push (← Run.allocate make)) :=
  (Spares.allocate scripts closures cells).bind fun _ => spares_push _

theorem spares_inherit : Spares k 1 0 inherit := by
  refine (spares_popType _).bind fun _ => (spares_peekType _).bind fun _ => (spares_userType _).bind fun _ => ?_
  exact .ite (.fail _) (.updateType _ _)

theorem spares_addField (index : UInt16) : Spares k r r (addField index) :=
  (spares_name index).bind fun _ => (spares_peekType _).bind fun _ => .updateType _ _

/-- A part that is popped and added to the type below it. -/
theorem spares_addPart {op : String} (f : Value → UserType → UserType) :
    Spares k (r + 1) r (do
      let v ← pop
      Run.updateType (← peekType op) (f v)) :=
  spares_pop.bind fun _ => (spares_peekType _).bind fun _ => .updateType _ _

theorem spares_addEntry (index : UInt16) : Spares k (r + 1) r (addEntry index) :=
  (spares_name index).bind fun _ => spares_pop.bind fun _ => (spares_peekType _).bind fun _ =>
    (Spares.allocate (fun _ => rfl) (fun _ => rfl) fun _ => rfl).bind fun _ => .updateType _ _

theorem spares_finishType : Spares k r r finishType := by
  refine (spares_peekType _).bind fun _ => spares_heap.bind fun _ => (Spares.updateType _ _).bind fun _ =>
    spares_heap.bind fun _ => ?_
  dsimp only
  split
  · exact .fail _
  · exact .updateType _ _

theorem spares_restrict (op : String) (change : Flags → Flags) : Spares k 1 0 (restrict op change) := by
  refine spares_pop.bind fun v => ?_
  split
  · exact .modifyHeap (fun _ => rfl) (fun _ => rfl) fun _ => rfl
  · exact .updateType _ _
  · exact .fail _

/-! ## Properties and elements -/

theorem spares_property (target : Value) (name : String) : Spares k r r (property target name) := by
  refine spares_heap.bind fun h => ?_
  split
  · dsimp only
    split
    · exact .pure _
    · split
      · exact .allocate (fun _ => rfl) (fun _ => rfl) fun _ => rfl
      · exact .looks (looks_undefinedProperty _ _)
  · split
    · exact .pure _
    · exact .looks (looks_undefinedProperty _ _)
  · exact .fail _

theorem spares_writeUnless (flags : Flags) (present : Bool) (target : Value) (name : String) {write : Heap → Heap}
    (scripts : ∀ h, (write h).scripts = h.scripts) (closures : ∀ h, (write h).closures = h.closures)
    (cells : ∀ h, (write h).cells = h.cells) : Spares k r r (writeUnless flags present target name write) := by
  unfold writeUnless
  split
  · exact spares_heap.bind fun _ => .fail _
  · exact spares_heap.bind fun _ => .fail _
  · exact .modifyHeap scripts closures cells

theorem spares_writeField (target : Value) (name : String) (v : Value) : Spares k r r (writeField target name v) := by
  refine spares_heap.bind fun h => ?_
  split
  · exact spares_writeUnless _ _ _ _ (fun _ => rfl) (fun _ => rfl) fun _ => rfl
  · exact spares_writeUnless _ _ _ _ (fun _ => rfl) (fun _ => rfl) fun _ => rfl
  · exact .fail _

theorem spares_getProperty (index : UInt16) : Spares k 1 1 (getProperty index) :=
  (spares_name index).bind fun _ => spares_pop.bind fun _ => (spares_property _ _).bind fun _ => spares_push _

theorem spares_setProperty (index : UInt16) : Spares k 2 1 (setProperty index) :=
  (spares_name index).bind fun _ => spares_pop.bind fun _ => spares_pop.bind fun _ =>
    (spares_writeField _ _ _).bind fun _ => spares_push _

theorem spares_getSuper (index : UInt16) : Spares k 2 1 (getSuper index) := by
  refine (spares_name index).bind fun name => (spares_popType _).bind fun ref => spares_pop.bind fun receiver =>
    (spares_userType ref).bind fun t => ?_
  split
  · exact spares_pushNew (fun _ => rfl) (fun _ => rfl) fun _ => rfl
  · exact (spares_userType _).bind fun _ => .fail _

theorem spares_element (target index : Value) : Spares k r r (element target index) := by
  unfold element
  split
  · exact spares_heap.bind fun _ => (Spares.looks (looks_position _ _)).bind fun _ => .pure _
  · exact (Spares.looks (looks_mapKey _)).bind fun _ => spares_heap.bind fun _ => .pure _
  · exact (Spares.looks (looks_position _ _)).bind fun _ => .pure _
  · exact (Spares.looks (looks_fieldName _)).bind fun _ => spares_property _ _
  · exact (Spares.looks (looks_fieldName _)).bind fun _ => spares_property _ _
  · exact .fail _

theorem spares_setElement (target index v : Value) : Spares k r r (setElement target index v) := by
  unfold setElement
  split
  · exact spares_heap.bind fun _ => (Spares.looks (looks_position _ _)).bind fun _ => .updateList _ _
  · exact (Spares.looks (looks_mapKey _)).bind fun _ => .updateMap _ _
  · exact (Spares.looks (looks_fieldName _)).bind fun _ => spares_writeField _ _ _
  · exact (Spares.looks (looks_fieldName _)).bind fun _ => spares_writeField _ _ _
  · exact .fail _

theorem spares_getIndex : Spares k 2 1 getIndex :=
  spares_pop.bind fun _ => spares_pop.bind fun _ => (spares_element _ _).bind fun _ => spares_push _

theorem spares_setIndex : Spares k 3 1 setIndex :=
  spares_pop.bind fun _ => spares_pop.bind fun _ => spares_pop.bind fun _ =>
    (spares_setElement _ _ _).bind fun _ => spares_push _

theorem looks_entriesOf (entries : Table MapKey Value) (flat : List Value) : Looks (entriesOf entries flat) := by
  fun_induction entriesOf entries flat with
  | case1 entries k v rest ih => exact (looks_mapKey k).bind ih
  | case2 => exact looks_pure _

theorem spares_buildMap (n : UInt16) : Spares k (n.toNat * 2) 1 (buildMap n) := by
  have built : Spares k (0 + n.toNat * 2) 1 (buildMap n) :=
    (spares_popMany _).bind fun _ => (Spares.looks (looks_entriesOf _ _)).bind fun _ =>
      spares_pushNew (fun _ => rfl) (fun _ => rfl) fun _ => rfl
  rwa [Nat.zero_add] at built

theorem spares_buildList (n : UInt16) : Spares k n.toNat 1 (buildList n) := by
  have built : Spares k (0 + n.toNat) 1 (buildList n) :=
    (spares_popMany _).bind fun _ => spares_pushNew (fun _ => rfl) (fun _ => rfl) fun _ => rfl
  rwa [Nat.zero_add] at built

/-! ## Other instructions -/

theorem spares_endSeveral : Spares k r (r + 1) endSeveral := by
  refine spares_machine.bind fun m => ?_
  have dropped (marks : List Nat) : Spares k r r (modifyMachine fun m => { m with marks }) :=
    .modify (fun _ => rfl) (fun _ => rfl) fun _ => rfl
  split
  · exact (dropped _).bind fun _ => (Spares.looks looks_stackSize).bind fun _ => spares_push _
  · exact .failInternal _

theorem spares_popCount : Spares k (r + 1) r popCount := by
  refine spares_pop.bind fun v => ?_
  dsimp only
  split
  · exact .pure _
  · exact spares_heap.bind fun _ => .failInternal _

theorem spares_validate (check : Check) : Spares k (r + 2) r (validate check) := by
  cases check
  exact spares_popCount.bind fun _ => spares_popCount.bind fun _ => .ite (.fail _) (.pure _)

theorem spares_build : Spares k 1 0 build := by
  refine spares_pop.bind fun v => ?_
  split
  · split
    · exact .modify (fun _ => rfl) (fun _ => rfl) fun _ => rfl
    · exact .fail _
  · exact .fail _

theorem spares_inject (index : UInt16) : Spares k r (r + 1) (inject index) := by
  refine (spares_name index).bind fun name => spares_machine.bind fun m => ?_
  split
  · exact spares_push _
  · exact .fail _

/-- An instruction that goes on in its frame, has nothing to do with captured variables and does not go back into the
machine. -/
def isSparing : Instruction → Bool
  | .setLocal _ | .setUpvalue _ | .closeUpvalue | .throw | .ret _ | .yield => false
  | .initChain => true
  | i => isCalm i

/-- Instructions spare what lies below the values that they take. -/
theorem spares_plain (again : Reentry) {i : Instruction} (sparing : isSparing i) {takes gives : Nat}
    (effect : i.effect = some (takes, gives)) : Spares k takes gives (plain again i) := by
  cases i with
  | setLocal | setUpvalue | closeUpvalue | throw | ret | yield | call | invoke | superInvoke | testSet | testCase | goto
  | gotoIfFalse | closure => cases sparing
  | capture | initChain | multiVarStart | multiVarEnd | validate => cases effect
  | pushConstant n => cases effect; exact (Spares.looks (looks_constant n)).bind fun _ => spares_push _
  | pushByte | pushBool | null => cases effect; exact spares_push _
  | pop => cases effect; exact spares_pop.bind fun _ => .pure _
  | duplicate => cases effect; exact (spares_peek 0).bind fun _ => spares_push _
  | duplicatePair =>
    cases effect
    exact (spares_peek 1).bind fun _ => (spares_peek 0).bind fun _ => (spares_push _).bind fun _ => spares_push _
  | swap =>
    cases effect
    exact spares_pop.bind fun _ => spares_pop.bind fun _ => (spares_push _).bind fun _ => spares_push _
  | add | subtract | multiply | divide | modulus | equal | less | greater | meets => cases effect; exact spares_binary _
  | negate => cases effect; exact spares_negate
  | not => cases effect; exact spares_pop.bind fun _ => spares_push _
  | getLocal slot => cases effect; exact spares_getLocal slot
  | getUpvalue index => cases effect; exact spares_getCaptured index
  | defineGlobal name => cases effect; exact spares_defineGlobal name
  | getGlobal name => cases effect; exact spares_getGlobal name
  | setGlobal name => cases effect; exact spares_setGlobal name
  | declareType kind name =>
    cases effect
    exact (spares_name name).bind fun _ => spares_pushNew (fun _ => rfl) (fun _ => rfl) fun _ => rfl
  | inherit => cases effect; exact spares_inherit
  | mixin =>
    cases effect
    exact (spares_popType _).bind fun _ => (spares_peekType _).bind fun _ => .updateType _ _
  | signs =>
    cases effect
    exact (spares_popType _).bind fun _ => (spares_peekType _).bind fun _ => .updateType _ _
  | field name => cases effect; exact spares_addField name
  | method name => cases effect; exact (spares_name name).bind fun _ => spares_addPart _
  | staticMember name => cases effect; exact (spares_name name).bind fun _ => spares_addPart _
  | enumValue name => cases effect; exact spares_addEntry name
  | finishType => cases effect; exact spares_finishType
  | freeze | readOnly => cases effect; exact spares_restrict _ _
  | getProperty name => cases effect; exact spares_getProperty name
  | setProperty name => cases effect; exact spares_setProperty name
  | getIndex => cases effect; exact spares_getIndex
  | setIndex => cases effect; exact spares_setIndex
  | getSuper name => cases effect; exact spares_getSuper name
  | buildList n => cases effect; exact spares_buildList n
  | buildMap n => cases effect; exact spares_buildMap n
  | newDynamic => cases effect; exact spares_pushNew (fun _ => rfl) (fun _ => rfl) fun _ => rfl
  | build => cases effect; exact spares_build
  | register name =>
    cases effect
    exact (spares_name name).bind fun _ => spares_pop.bind fun _ => .modify (fun _ => rfl) (fun _ => rfl) fun _ => rfl
  | inject name => cases effect; exact spares_inject name

/-- So do those whose effect depends on what is held. -/
theorem spares_balance (again : Reentry) {known : Array Chunk} {c : Chunk} {i : Instruction} {p q : Point}
    (sparing : isSparing i) (effect : Effect known c i p q) : Spares k (i.balance p).1 0 (plain again i) := by
  cases effect with
  | plain effect =>
    rw [balance_of_effect effect]
    exact (spares_plain again sparing effect).mono (Nat.le_refl _) (Nat.zero_le _)
  | byte => exact (spares_push _).mono (Nat.le_refl _) (Nat.zero_le _)
  | drop => exact spares_pop.bind fun _ => .pure _
  | close | closure | special | set => cases sparing
  | capture => exact .failInternal _
  | chain => exact spares_pop.bind fun _ => (spares_peekType _).bind fun _ => .updateType _ _
  | start => exact (Spares.looks looks_stackSize).bind fun _ => .modify (fun _ => rfl) (fun _ => rfl) fun _ => rfl
  | finish => exact spares_endSeveral.mono (Nat.le_refl _) (Nat.zero_le _)
  | validate => exact (spares_validate (r := 1) .multiReturnMatches).mono (Nat.le_refl _) (Nat.zero_le _)

/-- It makes no difference to them which way leads back into the machine. -/
theorem plain_of_sparing {i : Instruction} (sparing : isSparing i) (x y : Reentry) : plain x i = plain y i := by
  cases i with
  | setLocal | setUpvalue | closeUpvalue | throw | ret | yield | call | invoke | superInvoke | testSet | testCase | goto
  | gotoIfFalse | closure => cases sparing
  | _ => rfl

end Run

end ScriptEngine
