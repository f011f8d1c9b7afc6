import ScriptEngine.Proofs.Footing

/-!
# Instructions that keep their footing

Most instructions take some values from the top of the stack, leave others in their
place and do something to the heap or to names. If the values that they take lie above
the floor, they keep the footing, frames and marks stay as they are, and the stack is
as much higher or lower as the instruction says.
-/
namespace ScriptEngine

open Run

/-- So many values have been taken and so many left in their place. -/
structure Footing.Turned (G : Footing) (F : Array Frame) (M : List Nat) (n : Nat) (w : World) (takes gives : Nat)
    (w' : World) : Prop where
  stands : G.At F M n w'
  size : w'.machine.stack.size + takes = w.machine.stack.size + gives

/-- The computation takes so many values and leaves so many. -/
abbrev Footing.Turns (G : Footing) (F : Array Frame) (M : List Nat) (n : Nat) (w : World) (takes gives : Nat)
    (x : Run Unit) : Prop :=
  Sure G x x w fun _ => G.Turned F M n w takes gives

section

variable {α : Type} {G : Footing} {F : Array Frame} {M : List Nat} {n : Nat} {w : World} {v : Value}

/-! ## Looking and changing -/

theorem sure_machine {Q : Machine → World → Prop} (next : Q w.machine w) : Sure G machine machine w Q :=
    sure_ok rfl next

theorem sure_heap {Q : Heap → World → Prop} (next : Q w.heap w) : Sure G heap heap w Q := sure_ok rfl next

theorem sure_stackSize {Q : Nat → World → Prop} (next : Q w.machine.stack.size w) : Sure G stackSize stackSize w Q :=
  sure_ok rfl next

theorem sure_frame {Q : Frame → World → Prop} (h : G.At F M n w) (next : ∀ f, F.back? = some f → Q f w) :
    Sure G frame frame w Q := by
  refine sure_bind (sure_machine ?_)
  rw [h.frames]
  cases found : F.back? with
  | none => exact sure_refuse h.holds nofun
  | some f => exact sure_pure (next f found)

theorem sure_modifyMachine {f : Machine → Machine} {Q : Unit → World → Prop}
    (next : Q () { w with machine := f w.machine }) : Sure G (modifyMachine f) (modifyMachine f) w Q := sure_ok rfl next

theorem sure_modifyHeap {f : Heap → Heap} {Q : Unit → World → Prop} (h : G.At F M n w)
    (gains : w.heap.Gains {v | v.Within n} (f w.heap)) (cells : (f w.heap).cells = w.heap.cells)
    (next : ∀ w', G.At F M n w' → w'.machine = w.machine → Q () w') : Sure G (modifyHeap f) (modifyHeap f) w Q :=
  sure_ok rfl (next _ (h.gains gains cells) rfl)

/-- What is put on the heap is not a closure. -/
theorem sure_allocate {make : Heap → Value × Heap} {Q : Value → World → Prop} (h : G.At F M n w)
    (plain : (make w.heap).1.isPlain) (gains : w.heap.Gains {v | v.Within n} (make w.heap).2)
    (cells : (make w.heap).2.cells = w.heap.cells)
    (next : ∀ v w', G.At F M n w' → v.Within n → w'.machine = w.machine → Q v w') :
    Sure G (allocate make) (allocate make) w Q :=
  sure_ok rfl (next _ _ (h.gains gains cells) (Value.within_of_isPlain plain) rfl)

/-- More names, for what is known. -/
theorem Footing.At.onGlobals {globals : Table String Value} (h : G.At F M n w)
    (known : ∀ name v, globals.get? name = some v → v.Within n) :
    G.At F M n { w with machine.globals := globals } := by
  refine h.onMachine (fun v offers => ?_) h.size (fun _ _ _ => rfl) h.sound.queue h.frames h.marks
  cases offers with
  | global name found => exact known name v found
  | registered name found => exact h.knows (.registered name found)
  | slot mem => exact h.knows (.slot mem)

theorem Footing.At.onRegistry {registry : Table String Value} (h : G.At F M n w)
    (known : ∀ name v, registry.get? name = some v → v.Within n) :
    G.At F M n { w with machine.registry := registry } := by
  refine h.onMachine (fun v offers => ?_) h.size (fun _ _ _ => rfl) h.sound.queue h.frames h.marks
  cases offers with
  | global name found => exact h.knows (.global name found)
  | registered name found => exact known name v found
  | slot mem => exact h.knows (.slot mem)

theorem Footing.At.insertGlobal {name : String} (h : G.At F M n w) (known : v.Within n) :
    G.At F M n { w with machine.globals := w.machine.globals.insert name v } := by
  refine h.onGlobals fun k _ found => ?_
  obtain found | rfl := Table.get?_insert_cases found
  · exact h.knows (.global k found)
  · exact known

/-! ## The stack -/

theorem turns_push (h : G.At F M n w) (known : v.Within n) : G.Turns F M n w 0 1 (push v) :=
  sure_push h known fun _ h size => ⟨h, size⟩

theorem turns_duplicate (h : G.At F M n w) : G.Turns F M n w 1 2 (do push (← peek 0)) :=
  sure_bind (sure_peek h fun _ known => sure_push h known fun _ h size => ⟨h, by omega⟩)

theorem turns_duplicatePair (h : G.At F M n w) : G.Turns F M n w 2 4 duplicatePair := by
  refine sure_bind (sure_peek h fun below known => sure_bind (sure_peek h fun top known' => ?_))
  refine sure_bind (sure_push h known fun w₁ h₁ size₁ => ?_)
  exact sure_push h₁ known' fun _ h size => ⟨h, by omega⟩

theorem turns_swap (h : G.At F M n w) (room : G.floor + 2 ≤ w.machine.stack.size) : G.Turns F M n w 2 2 swap := by
  refine sure_bind (sure_pop h (by omega) fun top w₁ h₁ known size₁ => ?_)
  refine sure_bind (sure_pop h₁ (by omega) fun below w₂ h₂ known' size₂ => ?_)
  refine sure_bind (sure_push h₂ known fun w₃ h₃ size₃ => ?_)
  exact sure_push h₃ known' fun _ h size => ⟨h, by omega⟩

theorem turns_pop (h : G.At F M n w) (room : G.floor + 1 ≤ w.machine.stack.size) :
    G.Turns F M n w 1 0 (do let _ ← pop) :=
  sure_bind (sure_pop h (by omega) fun _ _ h _ size => sure_pure ⟨h, by omega⟩)

/-! ## Constants and variables -/

theorem isPlain_constant (script : Nat) (c : Constant) : (Heap.constant script c).isPlain := by
  unfold Heap.constant
  split <;> rfl

theorem sure_constant {index : UInt16} {Q : Value → World → Prop} (h : G.At F M n w)
    (next : ∀ f c, F.back? = some f → (w.heap.code f.closure).constants[index.toNat]? = some c →
      Q (Heap.constant (w.heap.closure f.closure).chunk.script c) w) :
    Sure G (constant index) (constant index) w Q := by
  refine sure_bind (sure_frame h fun f back => sure_bind (sure_heap ?_))
  dsimp only
  cases found : (w.heap.chunk (w.heap.closure f.closure).chunk).constants[index.toNat]? with
  | none => exact sure_refuse h.holds nofun
  | some c => exact sure_pure (next f c back found)

theorem turns_pushConstant (h : G.At F M n w) (index : UInt16) : G.Turns F M n w 0 1 (do push (← constant index)) :=
  sure_bind (sure_constant h fun _ _ _ _ => turns_push h (Value.within_of_isPlain (isPlain_constant _ _)))

theorem turns_getLocal (h : G.At F M n w) (index : UInt8) : G.Turns F M n w 0 1 (getLocal index) :=
  sure_bind (sure_frame h fun _ _ => sure_bind (sure_slot h fun _ known _ => turns_push h known))

theorem turns_setLocal (h : G.At F M n w) (base : ∀ f, F.back? = some f → G.floor ≤ f.base) (index : UInt8) :
    G.Turns F M n w 1 1 (setLocal index) := by
  refine sure_bind (sure_frame h fun f found => sure_bind (sure_peek h fun v known => ?_))
  have := base f found
  exact sure_setSlot h known (fun below => absurd below (by omega)) fun _ h size _ => ⟨h, by omega⟩

theorem turns_getCaptured (h : G.At F M n w) (index : UInt8) : G.Turns F M n w 0 1 (getCaptured index) := by
  refine sure_bind ((looks_captured index).sure h.holds fun ref _ => sure_bind (sure_heap ?_))
  cases cell : w.heap.cell ref with
  | opened i => exact sure_bind (sure_slot h fun _ known _ => turns_push h known)
  | closed v => exact turns_push h (h.knows_heap (Heap.offers_cell cell))

theorem Heap.cell_setCell_ne {h : Heap} {ref : Nat} {i : Nat} (apart : h.Apart i) (v : Value) :
    (h.setCell ref (.closed v)).Apart i := by
  intro r
  unfold Heap.cell Heap.setCell Heap.change
  dsimp only
  rw [Array.getElem?_modify]
  split
  · cases h.cells[r]? <;> nofun
  · exact apart r

theorem Footing.At.setCell (h : G.At F M n w) (known : v.Within n) (ref : Nat) :
    G.At F M n (w.onHeap (w.heap.setCell ref (.closed v))) :=
  h.onHeap (Heap.gains_setCell (.mem known)) fun _ _ apart => Heap.cell_setCell_ne apart v

theorem turns_setCaptured (h : G.At F M n w) (index : UInt8) : G.Turns F M n w 1 1 (setCaptured index) := by
  refine sure_bind (sure_peek h fun v known => sure_bind ((looks_captured index).sure h.holds fun ref _ => ?_))
  refine sure_bind (sure_heap ?_)
  cases cell : w.heap.cell ref with
  | opened i =>
    -- the cell was open from the start if its slot is below the floor
    refine sure_setSlot h known (fun below apart => ?_) fun _ h size _ => ⟨h, by omega⟩
    exact h.holds.apart i below apart ref cell
  | closed u => exact sure_ok rfl ⟨h.setCell known ref, rfl⟩

theorem turns_defineGlobal (h : G.At F M n w) (room : G.floor + 1 ≤ w.machine.stack.size) (index : UInt16) :
    G.Turns F M n w 1 0 (defineGlobal index) := by
  refine sure_bind ((looks_name index).sure h.holds fun name _ => ?_)
  refine sure_bind (sure_pop h (by omega) fun v w₁ h₁ known size₁ => ?_)
  exact sure_modifyMachine ⟨h₁.insertGlobal known, size₁⟩

theorem turns_getGlobal (h : G.At F M n w) (index : UInt16) : G.Turns F M n w 0 1 (getGlobal index) := by
  refine sure_bind ((looks_name index).sure h.holds fun name _ => sure_bind (sure_machine ?_))
  cases found : w.machine.globals.get? name with
  | none => exact sure_refuse h.holds nofun
  | some v => exact turns_push h (h.knows (.global name found))

theorem turns_setGlobal (h : G.At F M n w) (index : UInt16) : G.Turns F M n w 1 1 (setGlobal index) := by
  refine sure_bind ((looks_name index).sure h.holds fun name _ => sure_bind (sure_machine ?_))
  refine sure_ite (fun _ => ?_) fun _ => sure_refuse h.holds nofun
  exact sure_bind (sure_peek h fun v known => sure_modifyMachine ⟨h.insertGlobal known, rfl⟩)

/-! ## Operators -/

/-- The value that an operation or a look at a property comes to. -/
structure Footing.Gives (G : Footing) (F : Array Frame) (M : List Nat) (n : Nat) (w : World) (v : Value) (w' : World) :
    Prop where
  stands : G.At F M n w'
  known : v.Within n
  size : w'.machine.stack.size = w.machine.stack.size

theorem sure_gives_plain (h : G.At F M n w) (plain : v.isPlain) : Sure G (pure v) (pure v) w (G.Gives F M n w) :=
  sure_pure ⟨h, Value.within_of_isPlain plain, rfl⟩

/-- What is put on the heap holds nothing but what is known. -/
theorem sure_gives_allocate {make : Heap → Value × Heap} (h : G.At F M n w) (plain : (make w.heap).1.isPlain)
    (gains : w.heap.Gains {v | v.Within n} (make w.heap).2) (cells : (make w.heap).2.cells = w.heap.cells) :
    Sure G (allocate make) (allocate make) w (G.Gives F M n w) :=
  sure_allocate h plain gains cells fun _ _ h known same => ⟨h, known, by rw [same]⟩

theorem sure_onNumbers (h : G.At F M n w) (op : Operator) (f : Number → Number → Number) (a b : Value) :
    Sure G (op.onNumbers f a b) (op.onNumbers f a b) w (G.Gives F M n w) := by
  unfold Operator.onNumbers
  split
  · exact sure_gives_plain h rfl
  · exact sure_refuse h.holds nofun

theorem sure_onOrdered (h : G.At F M n w) (op : Operator) (f : Number → Number → Bool) (g : String → String → Bool)
    (a b : Value) : Sure G (op.onOrdered f g a b) (op.onOrdered f g a b) w (G.Gives F M n w) := by
  unfold Operator.onOrdered
  split
  · exact sure_gives_plain h rfl
  · exact sure_gives_plain h rfl
  · exact sure_refuse h.holds nofun

theorem Heap.known_parts {h : Heap} {u : Value} (known : v.Within n) (heap : ∀ u, h.Offers u → u.Within n)
    (mem : u ∈ h.parts v) : u.Within n := by
  unfold Heap.parts at mem
  split at mem
  · exact heap u (Heap.offers_part mem)
  · rw [List.mem_singleton] at mem
    exact mem ▸ known

theorem sure_plus (h : G.At F M n w) {a b : Value} (ha : a.Within n) (hb : b.Within n) :
    Sure G (Operator.plus a b) (Operator.plus a b) w (G.Gives F M n w) := by
  unfold Operator.plus
  split
  · exact sure_gives_plain h rfl
  · refine sure_bind (sure_heap (sure_ite (fun _ => sure_gives_plain h rfl) fun _ => ?_))
    refine sure_ite (fun _ => ?_) fun _ => sure_refuse h.holds nofun
    refine sure_gives_allocate h rfl (Heap.gains_addCombination fun v mem => .inr (.mem ?_)) rfl
    exact (List.mem_append.mp mem).elim (Heap.known_parts ha fun _ => h.knows_heap)
      (Heap.known_parts hb fun _ => h.knows_heap)

theorem sure_apply (h : G.At F M n w) (op : Operator) {a b : Value} (ha : a.Within n) (hb : b.Within n) :
    Sure G (op.apply a b) (op.apply a b) w (G.Gives F M n w) := by
  cases op with
  | add => exact sure_plus h ha hb
  | subtract | multiply | divide | modulus => exact sure_onNumbers h _ _ a b
  | equal => exact sure_gives_plain h rfl
  | less | greater => exact sure_onOrdered h _ _ _ a b
  | meets => exact sure_bind (sure_heap (sure_gives_plain h rfl))

theorem turns_binary (h : G.At F M n w) (room : G.floor + 2 ≤ w.machine.stack.size) (op : Operator) :
    G.Turns F M n w 2 1 (binary op) := by
  refine sure_bind (sure_pop h (by omega) fun b w₁ h₁ kb size₁ => ?_)
  refine sure_bind (sure_pop h₁ (by omega) fun a w₂ h₂ ka size₂ => ?_)
  refine sure_bind ((sure_apply h₂ op ka kb).mono fun v w₃ ⟨h₃, known, size₃⟩ => ?_)
  exact sure_push h₃ known fun _ h size => ⟨h, by omega⟩

theorem turns_negate (h : G.At F M n w) (room : G.floor + 1 ≤ w.machine.stack.size) : G.Turns F M n w 1 1 negate := by
  refine sure_bind (sure_pop h (by omega) fun v w₁ h₁ _ size₁ => ?_)
  split
  · exact sure_push h₁ (Value.within_of_isPlain rfl) fun _ h size => ⟨h, by omega⟩
  · exact sure_refuse h₁.holds nofun

theorem turns_complement (h : G.At F M n w) (room : G.floor + 1 ≤ w.machine.stack.size) :
    G.Turns F M n w 1 1 complement :=
  sure_bind (sure_pop h (by omega) fun _ _ h₁ _ size₁ =>
    sure_push h₁ (Value.within_of_isPlain rfl) fun _ h size => ⟨h, by omega⟩)

/-! ## Types -/

theorem sure_popType {op : String} {Q : Nat → World → Prop} (h : G.At F M n w) (room : G.floor < w.machine.stack.size)
    (next : ∀ ref w', G.At F M n w' → w'.machine.stack.size + 1 = w.machine.stack.size → Q ref w') :
    Sure G (popType op) (popType op) w Q :=
  sure_bind (sure_pop h room fun v w₁ h₁ _ size =>
    (looks_asType op v).sure h₁.holds fun ref _ => next ref w₁ h₁ size)

theorem sure_userType {ref : Nat} {Q : UserType → World → Prop} (next : Q (w.heap.userType ref) w) :
    Sure G (userType ref) (userType ref) w Q := sure_bind (sure_heap (sure_pure next))

theorem sure_updateType {ref : Nat} {f : UserType → UserType} {Q : Unit → World → Prop} (h : G.At F M n w)
    (each : ∀ t v, (f t).Holds v → t.Holds v ∨ w.heap.Offers v ∨ v.Within n)
    (chains : ∀ t r, .closure r ∈ (f t).initChains →
      .closure r ∈ t.initChains ∨ w.heap.Chains (.closure r) ∨ (w.heap.code r).arity = 0)
    (next : ∀ w', G.At F M n w' → w'.machine = w.machine → Q () w') :
    Sure G (updateType ref f) (updateType ref f) w Q :=
  sure_modifyHeap h
    (Heap.gains_updateType (fun t v held => (each t v held).imp_right (.imp_right .mem)) chains) rfl next

/-- A change of a type that adds no member. -/
theorem sure_retype {ref : Nat} {f : UserType → UserType} {Q : Unit → World → Prop} (h : G.At F M n w)
    (methods : ∀ t, (f t).methods = t.methods) (statics : ∀ t, (f t).statics = t.statics)
    (chains : ∀ t, (f t).initChains = t.initChains)
    (next : ∀ w', G.At F M n w' → w'.machine = w.machine → Q () w') :
    Sure G (updateType ref f) (updateType ref f) w Q := by
  refine sure_updateType h (fun t v held => .inl ?_) (fun t r mem => .inl (chains t ▸ mem)) next
  cases held with
  | method name found => exact .method name (by rwa [UserType.method?, ← methods t])
  | static name found => exact .static name (by rwa [UserType.static?, ← statics t])
  | chain mem => exact .chain (chains t ▸ mem)

theorem turns_declareType (h : G.At F M n w) (kind : TypeKind) (index : UInt16) :
    G.Turns F M n w 0 1 (declareType kind index) := by
  refine sure_bind ((looks_name index).sure h.holds fun name _ => ?_)
  refine sure_bind ((sure_gives_allocate h rfl Heap.gains_addType rfl).mono fun v w₁ ⟨h₁, known, size₁⟩ => ?_)
  exact sure_push h₁ known fun _ h size => ⟨h, by omega⟩

theorem UserType.holds_inherit {t parent : UserType} {ref : Nat} (held : (t.inherit ref parent).Holds v) :
    t.Holds v ∨ parent.Holds v := by
  cases held with
  | method name found =>
    exact (Table.mem_of_insertAll found).imp (.method name) fun mem => .method name (Table.mem_toList.mp mem)
  | static name found => exact .inl (.static name found)
  | chain mem => exact (List.mem_append.mp mem).imp .chain .chain

theorem turns_inherit (h : G.At F M n w) (room : G.floor + 1 ≤ w.machine.stack.size) : G.Turns F M n w 1 0 inherit := by
  refine sure_bind (sure_popType h (by omega) fun sub w₁ h₁ size₁ => ?_)
  refine sure_bind ((looks_peekType _).sure h₁.holds fun parent _ => sure_bind (sure_userType ?_))
  refine sure_ite (fun _ => sure_refuse h₁.holds nofun) fun _ => ?_
  refine sure_updateType h₁ (fun t v held => ?_) (fun t r mem => ?_) fun w₂ h₂ same => ⟨h₂, by rw [same]; omega⟩
  · exact (UserType.holds_inherit held).imp_right fun held => .inl (Heap.offers_type held)
  · exact (List.mem_append.mp mem).imp_right fun mem => .inl (Heap.chains_type mem)

theorem turns_addMixin (h : G.At F M n w) (room : G.floor + 1 ≤ w.machine.stack.size) :
    G.Turns F M n w 2 1 addMixin := by
  refine sure_bind (sure_popType h (by omega) fun mixin w₁ h₁ size₁ => ?_)
  refine sure_bind ((looks_peekType _).sure h₁.holds fun t _ => ?_)
  exact sure_retype h₁ (fun _ => rfl) (fun _ => rfl) (fun _ => rfl) fun w₂ h₂ same => ⟨h₂, by rw [same]; omega⟩

theorem turns_addContract (h : G.At F M n w) (room : G.floor + 1 ≤ w.machine.stack.size) :
    G.Turns F M n w 2 1 addContract := by
  refine sure_bind (sure_popType h (by omega) fun contract w₁ h₁ size₁ => ?_)
  refine sure_bind ((looks_peekType _).sure h₁.holds fun t _ => ?_)
  exact sure_retype h₁ (fun _ => rfl) (fun _ => rfl) (fun _ => rfl) fun w₂ h₂ same => ⟨h₂, by rw [same]; omega⟩

theorem turns_addField (h : G.At F M n w) (index : UInt16) : G.Turns F M n w 1 1 (addField index) := by
  refine sure_bind ((looks_name index).sure h.holds fun name _ => ?_)
  refine sure_bind ((looks_peekType _).sure h.holds fun t _ => ?_)
  exact sure_retype h (fun _ => rfl) (fun _ => rfl) (fun _ => rfl) fun w₂ h₂ same => ⟨h₂, by rw [same]⟩

theorem turns_addMethod (h : G.At F M n w) (room : G.floor + 1 ≤ w.machine.stack.size) (index : UInt16) :
    G.Turns F M n w 2 1 (addMethod index) := by
  refine sure_bind ((looks_name index).sure h.holds fun name _ => ?_)
  refine sure_bind (sure_pop h (by omega) fun method w₁ h₁ known size₁ => ?_)
  refine sure_bind ((looks_peekType _).sure h₁.holds fun t _ => ?_)
  refine sure_updateType h₁ (fun t v held => ?_) (fun t r mem => .inl mem) fun w₂ h₂ same => ⟨h₂, by rw [same]; omega⟩
  cases held with
  | method name found =>
    obtain found | rfl := Table.get?_insert_cases found
    · exact .inl (.method name found)
    · exact .inr (.inr known)
  | static name found => exact .inl (.static name found)
  | chain mem => exact .inl (.chain mem)

/-- A static member that is known. -/
theorem UserType.holds_static {t : UserType} {name : String} {u : Value}
    (held : ({ t with statics := t.statics.insert name u } : UserType).Holds v) : t.Holds v ∨ v = u := by
  cases held with
  | method name found => exact .inl (.method name found)
  | static name found => exact (Table.get?_insert_cases found).imp_left (.static name)
  | chain mem => exact .inl (.chain mem)

theorem turns_addStatic (h : G.At F M n w) (room : G.floor + 1 ≤ w.machine.stack.size) (index : UInt16) :
    G.Turns F M n w 2 1 (addStatic index) := by
  refine sure_bind ((looks_name index).sure h.holds fun name _ => ?_)
  refine sure_bind (sure_pop h (by omega) fun u w₁ h₁ known size₁ => ?_)
  refine sure_bind ((looks_peekType _).sure h₁.holds fun t _ => ?_)
  refine sure_updateType h₁ (fun t v held => ?_) (fun t r mem => .inl mem) fun w₂ h₂ same => ⟨h₂, by rw [same]; omega⟩
  obtain held | rfl := UserType.holds_static held
  · exact .inl held
  · exact .inr (.inr known)

theorem known_entry {owner : Nat} {name key : String} {u : Value}
    (found : (entry owner name u).fields.get? key = some v) :
    v.isPlain ∨ v = u := by
  obtain found | mem := Table.mem_of_insertAll found
  · cases found
  · simp only [List.mem_cons, Prod.mk.injEq, List.not_mem_nil, or_false] at mem
    obtain ⟨-, rfl⟩ | ⟨-, rfl⟩ := mem
    · exact .inl rfl
    · exact .inr rfl

theorem turns_addEntry (h : G.At F M n w) (room : G.floor + 1 ≤ w.machine.stack.size) (index : UInt16) :
    G.Turns F M n w 2 1 (addEntry index) := by
  refine sure_bind ((looks_name index).sure h.holds fun name _ => ?_)
  refine sure_bind (sure_pop h (by omega) fun u w₁ h₁ known size₁ => ?_)
  refine sure_bind ((looks_peekType _).sure h₁.holds fun owner _ => ?_)
  refine sure_bind ((sure_gives_allocate h₁ rfl (Heap.gains_addObject fun key v found => ?_) rfl).mono
    fun made w₂ ⟨h₂, known', size₂⟩ => ?_)
  · obtain plain | rfl := known_entry found
    · exact .plain plain
    · exact .mem known
  · refine sure_updateType h₂ (fun t v held => ?_) (fun t r mem => .inl mem) fun w₃ h₃ same => ⟨h₃, by rw [same]; omega⟩
    obtain held | rfl := UserType.holds_static held
    · exact .inl held
    · exact .inr (.inr known')

theorem UserType.holds_absorb {mixin t : UserType} (held : (t.absorb mixin).Holds v) : t.Holds v ∨ mixin.Holds v := by
  cases held with
  | method name found =>
    rw [UserType.method?, UserType.absorb, Table.get?_insertAllNew] at found
    rcases Option.or_eq_some_iff.mp found with found | ⟨-, found⟩
    · exact .inl (.method name found)
    · exact .inr (.method name (Table.mem_toList.mp (Entries.mem_of_find? found)))
  | static name found => exact .inl (.static name found)
  | chain mem => exact .inl (.chain mem)

theorem UserType.holds_absorbed {mixins : List UserType} {t : UserType}
    (held : (mixins.foldl UserType.absorb t).Holds v) :
    t.Holds v ∨ ∃ m ∈ mixins, m.Holds v := by
  induction mixins generalizing t with
  | nil => exact .inl held
  | cons m rest ih =>
    obtain held | ⟨m', mem, held⟩ := ih held
    · exact (UserType.holds_absorb held).imp_right fun held => ⟨m, .head _, held⟩
    · exact .inr ⟨m', .tail _ mem, held⟩

theorem holds_absorbAll {mixins : List UserType} {t : UserType} (held : (absorbAll mixins t).Holds v) :
    t.Holds v ∨ ∃ m ∈ mixins, m.Holds v := by
  cases held with
  | method name found => exact UserType.holds_absorbed (.method name found)
  | static name found => exact UserType.holds_absorbed (.static name found)
  | chain mem => exact (mem_initChains_absorbAll mem).imp .chain fun ⟨m, mem, part⟩ => ⟨m, mem, .chain part⟩

theorem violation?_plain {heap : Heap} {t : UserType} {contracts : List UserType} {e : RuntimeError}
    (violates : violation? heap t contracts = some e) (v : Value) : e ≠ .thrown v := by
  induction contracts with
  | nil => cases violates
  | cons contract rest ih =>
    unfold violation? at violates
    split at violates
    · cases violates
      nofun
    · exact ih violates

theorem turns_finishType (h : G.At F M n w) : G.Turns F M n w 1 1 finishType := by
  refine sure_bind ((looks_peekType _).sure h.holds fun ref _ => sure_bind (sure_heap ?_))
  dsimp only
  have absorbed (v : Value) :
      (∃ m ∈ (w.heap.userType ref).mixins.map w.heap.userType, m.Holds v) → w.heap.Offers v := by
    rintro ⟨m, mem, held⟩
    obtain ⟨r, -, rfl⟩ := List.mem_map.mp mem
    exact Heap.offers_type held
  refine sure_bind (sure_updateType h (fun t v held => ?_) (fun t r mem => ?_) fun w₁ h₁ same₁ =>
    sure_bind (sure_heap ?_))
  · exact (holds_absorbAll held).imp_right fun held => .inl (absorbed v held)
  · refine (mem_initChains_absorbAll mem).imp_right ?_
    rintro ⟨m, mem, part⟩
    obtain ⟨r, -, rfl⟩ := List.mem_map.mp mem
    exact .inl (Heap.chains_type part)
  · split
    · next e violates => exact sure_refuse h₁.holds (violation?_plain violates)
    · exact sure_retype h₁ (fun _ => rfl) (fun _ => rfl) (fun _ => rfl) fun w₂ h₂ same₂ => ⟨h₂, by rw [same₂, same₁]⟩

theorem turns_restrict (h : G.At F M n w) (room : G.floor + 1 ≤ w.machine.stack.size) (op : String)
    (change : Flags → Flags) : G.Turns F M n w 1 0 (restrict op change) := by
  refine sure_bind (sure_pop h (by omega) fun v w₁ h₁ _ size₁ => ?_)
  split
  · exact sure_modifyHeap h₁ (Heap.gains_updateObject fun _ _ _ => .inl) rfl fun w₂ h₂ same => ⟨h₂, by rw [same]; omega⟩
  · exact sure_retype h₁ (fun _ => rfl) (fun _ => rfl) (fun _ => rfl) fun w₂ h₂ same => ⟨h₂, by rw [same]; omega⟩
  · exact sure_refuse h₁.holds nofun

/-! ## Properties and elements -/

theorem sure_property (h : G.At F M n w) {target : Value} (known : target.Within n) (name : String) :
    Sure G (property target name) (property target name) w (G.Gives F M n w) := by
  refine sure_bind (sure_heap ?_)
  dsimp only
  split
  · split
    · next found => exact sure_pure ⟨h, h.knows_heap (Heap.offers_field found), rfl⟩
    · split
      · next found =>
        exact sure_gives_allocate h rfl (Heap.gains_addBound (.mem known) (.inl (Heap.offers_method found))) rfl
      · exact (looks_undefinedProperty _ _).sure h.holds fun v there => nomatch there
  · split
    · next found => exact sure_pure ⟨h, h.knows_heap (Heap.offers_type (.static _ found)), rfl⟩
    · exact (looks_undefinedProperty _ _).sure h.holds fun v there => nomatch there
  · exact sure_refuse h.holds nofun

/-- A write leaves the stack as it is. -/
abbrev Footing.Writes (G : Footing) (F : Array Frame) (M : List Nat) (n : Nat) (w : World) (x : Run Unit) : Prop :=
  Sure G x x w fun _ w' => G.At F M n w' ∧ w'.machine = w.machine

theorem sure_writeUnless (h : G.At F M n w) {flags : Flags} {present : Bool} {target : Value} {name : String}
    {write : Heap → Heap} (gains : w.heap.Gains {v | v.Within n} (write w.heap))
    (cells : (write w.heap).cells = w.heap.cells) : G.Writes F M n w (writeUnless flags present target name write) := by
  unfold writeUnless
  split
  · exact sure_bind (sure_heap (sure_refuse h.holds nofun))
  · exact sure_bind (sure_heap (sure_refuse h.holds nofun))
  · exact sure_modifyHeap h gains cells fun _ h same => ⟨h, same⟩

theorem sure_writeField (h : G.At F M n w) (target : Value) (name : String) (known : v.Within n) :
    G.Writes F M n w (writeField target name v) := by
  refine sure_bind (sure_heap ?_)
  dsimp only
  split
  · refine sure_writeUnless h (Heap.gains_updateObject fun o key u found => ?_) rfl
    obtain found | rfl := Table.get?_insert_cases found
    · exact .inl found
    · exact .inr (.mem known)
  · refine sure_writeUnless h (Heap.gains_updateType (fun t u held => ?_) fun t r mem => .inl mem) rfl
    obtain held | rfl := UserType.holds_static held
    · exact .inl held
    · exact .inr (.inr (.mem known))
  · exact sure_refuse h.holds nofun

theorem turns_getProperty (h : G.At F M n w) (room : G.floor + 1 ≤ w.machine.stack.size) (index : UInt16) :
    G.Turns F M n w 1 1 (getProperty index) := by
  refine sure_bind ((looks_name index).sure h.holds fun name _ => ?_)
  refine sure_bind (sure_pop h (by omega) fun target w₁ h₁ known₁ size₁ => ?_)
  refine sure_bind ((sure_property h₁ known₁ name).mono fun v w₂ ⟨h₂, known₂, size₂⟩ => ?_)
  exact sure_push h₂ known₂ fun _ h size => ⟨h, by omega⟩

theorem turns_setProperty (h : G.At F M n w) (room : G.floor + 2 ≤ w.machine.stack.size) (index : UInt16) :
    G.Turns F M n w 2 1 (setProperty index) := by
  refine sure_bind ((looks_name index).sure h.holds fun name _ => ?_)
  refine sure_bind (sure_pop h (by omega) fun v w₁ h₁ known size₁ => ?_)
  refine sure_bind (sure_pop h₁ (by omega) fun target w₂ h₂ _ size₂ => ?_)
  refine sure_bind ((sure_writeField h₂ target name known).mono fun _ w₃ ⟨h₃, same⟩ => ?_)
  exact sure_push h₃ known fun _ h size => ⟨h, by rw [same] at size; omega⟩

theorem turns_getSuper (h : G.At F M n w) (room : G.floor + 2 ≤ w.machine.stack.size) (index : UInt16) :
    G.Turns F M n w 2 1 (getSuper index) := by
  refine sure_bind ((looks_name index).sure h.holds fun name _ => ?_)
  refine sure_bind (sure_popType h (by omega) fun ref w₁ h₁ size₁ => ?_)
  refine sure_bind (sure_pop h₁ (by omega) fun receiver w₂ h₂ known size₂ => sure_bind (sure_userType ?_))
  split
  · next found =>
    have offered : w₂.heap.Offers _ := Heap.offers_type (.method name found)
    refine sure_bind ((sure_gives_allocate h₂ rfl (Heap.gains_addBound (.mem known) (.inl offered)) rfl).mono
      fun v w₃ ⟨h₃, known₃, size₃⟩ => ?_)
    exact sure_push h₃ known₃ fun _ h size => ⟨h, by omega⟩
  · exact (looks_undefinedInSuper _ _).sure h₂.holds fun v there => nomatch there

theorem sure_element (h : G.At F M n w) {target : Value} (known : target.Within n) (index : Value) :
    Sure G (element target index) (element target index) w (G.Gives F M n w) := by
  unfold element
  split
  · next ref =>
    refine sure_bind (sure_heap (sure_bind ((looks_position _ _).sure h.holds fun i _ => sure_pure ⟨h, ?_, rfl⟩)))
    exact Heap.getD_mem (Value.within_of_isPlain rfl) (fun v item => h.knows_heap (Heap.offers_item item)) i
  · next ref =>
    refine sure_bind ((looks_mapKey _).sure h.holds fun k _ => sure_bind (sure_heap (sure_pure ⟨h, ?_, rfl⟩)))
    cases found : (w.heap.map ref).get? k with
    | none => exact Value.within_of_isPlain rfl
    | some v => exact h.knows_heap (Heap.offers_entry found)
  · exact sure_bind ((looks_position _ _).sure h.holds fun i _ => sure_gives_plain h rfl)
  · exact sure_bind ((looks_fieldName _).sure h.holds fun name _ => sure_property h known name)
  · exact sure_bind ((looks_fieldName _).sure h.holds fun name _ => sure_property h known name)
  · exact sure_refuse h.holds nofun

theorem sure_setElement (h : G.At F M n w) (target index : Value) (known : v.Within n) :
    G.Writes F M n w (setElement target index v) := by
  unfold setElement
  split
  · refine sure_bind (sure_heap (sure_bind ((looks_position _ _).sure h.holds fun i _ => ?_)))
    refine sure_modifyHeap h (Heap.gains_updateList fun vs u item => ?_) rfl fun _ h same => ⟨h, same⟩
    obtain item | rfl := Array.mem_or_eq_of_mem_setIfInBounds item
    · exact .inl item
    · exact .inr (.mem known)
  · refine sure_bind ((looks_mapKey _).sure h.holds fun k _ => ?_)
    refine sure_modifyHeap h (Heap.gains_updateMap fun t k u found => ?_) rfl fun _ h same => ⟨h, same⟩
    obtain found | rfl := Table.get?_insert_cases found
    · exact .inl found
    · exact .inr (.mem known)
  · exact sure_bind ((looks_fieldName _).sure h.holds fun name _ => sure_writeField h _ name known)
  · exact sure_bind ((looks_fieldName _).sure h.holds fun name _ => sure_writeField h _ name known)
  · exact sure_refuse h.holds nofun

theorem turns_getIndex (h : G.At F M n w) (room : G.floor + 2 ≤ w.machine.stack.size) :
    G.Turns F M n w 2 1 getIndex := by
  refine sure_bind (sure_pop h (by omega) fun index w₁ h₁ _ size₁ => ?_)
  refine sure_bind (sure_pop h₁ (by omega) fun target w₂ h₂ known size₂ => ?_)
  refine sure_bind ((sure_element h₂ known index).mono fun v w₃ ⟨h₃, known₃, size₃⟩ => ?_)
  exact sure_push h₃ known₃ fun _ h size => ⟨h, by omega⟩

theorem turns_setIndex (h : G.At F M n w) (room : G.floor + 3 ≤ w.machine.stack.size) :
    G.Turns F M n w 3 1 setIndex := by
  refine sure_bind (sure_pop h (by omega) fun v w₁ h₁ known size₁ => ?_)
  refine sure_bind (sure_pop h₁ (by omega) fun index w₂ h₂ _ size₂ => ?_)
  refine sure_bind (sure_pop h₂ (by omega) fun target w₃ h₃ _ size₃ => ?_)
  refine sure_bind ((sure_setElement h₃ target index known).mono fun _ w₄ ⟨h₄, same⟩ => ?_)
  exact sure_push h₄ known fun _ h size => ⟨h, by rw [same] at size; omega⟩

theorem turns_buildList (h : G.At F M n w) (index : UInt16) (room : G.floor + index.toNat ≤ w.machine.stack.size) :
    G.Turns F M n w index.toNat 1 (buildList index) := by
  refine sure_bind (sure_popMany h room fun vs w₁ h₁ known _ size₁ => ?_)
  refine sure_bind ((sure_gives_allocate h₁ rfl (Heap.gains_addList fun v item => ?_) rfl).mono
    fun v w₂ ⟨h₂, known₂, size₂⟩ => ?_)
  · exact .mem (known v (by simpa using item))
  · exact sure_push h₂ known₂ fun _ h size => ⟨h, by omega⟩

theorem sure_entriesOf (h : G.At F M n w) {flat : List Value} {entries : Table MapKey Value}
    (each : ∀ v ∈ flat, v.Within n) (known : ∀ k v, entries.get? k = some v → v.Within n) :
    Sure G (entriesOf entries flat) (entriesOf entries flat) w fun t w' =>
      w' = w ∧ ∀ k v, t.get? k = some v → v.Within n := by
  induction entries, flat using entriesOf.induct with
  | case1 entries k v rest ih =>
    refine sure_bind ((looks_mapKey k).sure h.holds fun key _ =>
      ih key (fun u mem => each u (.tail _ (.tail _ mem))) ?_)
    intro key' u found
    obtain found | rfl := Table.get?_insert_cases found
    · exact known key' u found
    · exact each u (.tail _ (.head _))
  | case2 flat entries short =>
    rw [entriesOf.eq_2 entries flat short]
    exact sure_pure ⟨rfl, known⟩

theorem turns_buildMap (h : G.At F M n w) (index : UInt16) (room : G.floor + index.toNat * 2 ≤ w.machine.stack.size) :
    G.Turns F M n w (index.toNat * 2) 1 (buildMap index) := by
  refine sure_bind (sure_popMany h room fun flat w₁ h₁ known _ size₁ => ?_)
  refine sure_bind ((sure_entriesOf h₁ known fun k v found => by cases found).mono fun t w₂ ⟨same, known₁⟩ => ?_)
  subst same
  have gains := Heap.gains_addMap (h := w₂.heap) (K := {v | v.Within n}) fun k v found => .mem (known₁ k v found)
  refine sure_bind ((sure_gives_allocate h₁ rfl gains rfl).mono fun v w₃ ⟨h₃, known₃, size₃⟩ => ?_)
  exact sure_push h₃ known₃ fun _ h size => ⟨h, by omega⟩

theorem turns_newDynamic (h : G.At F M n w) : G.Turns F M n w 0 1 newDynamic := by
  refine sure_bind ((sure_gives_allocate h rfl (Heap.gains_addObject fun _ _ found => by cases found) rfl).mono
    fun v w₁ ⟨h₁, known, size₁⟩ => ?_)
  exact sure_push h₁ known fun _ h size => ⟨h, by omega⟩

/-! ## Services -/

theorem turns_build (h : G.At F M n w) (room : G.floor + 1 ≤ w.machine.stack.size) : G.Turns F M n w 1 0 build := by
  refine sure_bind (sure_popTop h (by omega) fun v w₁ h₁ _ on _ => ?_)
  have size : w.machine.stack.size = w₁.machine.stack.size + 1 := by rw [on, Array.size_push]
  split
  · next source _ =>
    split
    · next s made =>
      refine sure_modifyMachine ⟨h₁.onMachine (fun v offers => ?_) h₁.size (fun _ _ _ => rfl) ?_ h₁.frames h₁.marks,
        size.symm⟩
      · cases offers with
        | global name found => exact h₁.knows (.global name found)
        | registered name found => exact h₁.knows (.registered name found)
        | slot mem => exact h₁.knows (.slot mem)
      · intro q mem
        rcases List.mem_append.mp mem with mem | mem
        · exact h₁.sound.queue q mem
        · exact List.mem_singleton.mp mem ▸ Script.compiled_ofSource made
    · exact sure_refuse h₁.holds nofun
  · exact sure_refuse h₁.holds nofun

theorem turns_register (h : G.At F M n w) (room : G.floor + 1 ≤ w.machine.stack.size) (index : UInt16) :
    G.Turns F M n w 1 0 (register index) := by
  refine sure_bind ((looks_name index).sure h.holds fun name _ => ?_)
  refine sure_bind (sure_pop h (by omega) fun v w₁ h₁ known size₁ => sure_modifyMachine ⟨h₁.onRegistry ?_, size₁⟩)
  intro key u found
  obtain found | rfl := Table.get?_insert_cases found
  · exact h₁.knows (.registered key found)
  · exact known

theorem turns_inject (h : G.At F M n w) (index : UInt16) : G.Turns F M n w 0 1 (inject index) := by
  refine sure_bind ((looks_name index).sure h.holds fun name _ => sure_bind (sure_machine ?_))
  cases found : w.machine.registry.get? name with
  | none => exact sure_refuse h.holds nofun
  | some v => exact turns_push h (h.knows (.registered name found))

end

end ScriptEngine
