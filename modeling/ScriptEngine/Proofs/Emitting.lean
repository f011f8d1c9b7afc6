import ScriptEngine.Proofs.Branching
import ScriptEngine.Proofs.Rendering

/-!
# The code of a tree is emitted

The directives of a tree are carried out from any state that has room for the constants
and labels of the tree and no local of a name that the tree reads. They succeed and do
nothing but add the code of the tree to the chunk: `Chunk.Adds` composes along the code.
What a short operator jumps to is known when its right operand has been emitted, at
labels that no operation before it refers to.
-/
namespace ScriptEngine

open Assembler

/-! ## Chunks that grow by operations -/

section Chunks
variable {K : Finset Constant} {c c' c'' : Chunk} {ops ops' : List Op} {labels labels' offset : Nat}

/-- A table has room for those of the constants that are not in it. -/
def RoomFor (K : Finset Constant) (constants : Array Constant) : Prop :=
  constants.size + (K \ constants.toList.toFinset).card ≤ 65536

theorem holds_nil : c.Holds labels offset [] := fun k op h => by cases h

theorem holds_cons {op : Op} {i : Instruction} (here : c.code[offset]? = some i) (stands : op.Stands c labels offset i)
    (rest : c.Holds labels (offset + 1) ops) : c.Holds labels offset (op :: ops) := by
  intro k op' found
  cases k with
  | zero =>
    obtain rfl := Option.some.inj found
    exact ⟨i, here, stands⟩
  | succ k =>
    rw [show offset + (k + 1) = offset + 1 + k by omega]
    exact rest k op' found

theorem Chunk.Holds.append (h : c.Holds labels offset ops) (h' : c.Holds labels (offset + ops.length) ops') :
    c.Holds labels offset (ops ++ ops') := by
  intro k op found
  by_cases first : k < ops.length
  · rw [List.getElem?_append_left first] at found
    exact h k op found
  · rw [List.getElem?_append_right (Nat.le_of_not_lt first)] at found
    have := h' _ op found
    rwa [show offset + ops.length + (k - ops.length) = offset + k by omega] at this

/-- Operations refer to no label but new ones, so that they stand when others are placed. -/
theorem Chunk.Holds.mono (h : c.Holds labels offset ops) (code : Grows c.code c'.code)
    (constants : Grows c.constants c'.constants)
    (same : ∀ l x, labels ≤ l → c.labels[l]? = some x → c'.labels[l]? = some x) (le : labels' ≤ labels) :
    c'.Holds labels' offset ops := by
  intro k op found
  obtain ⟨i, here, stands⟩ := h k op found
  refine ⟨i, code _ _ here, ?_⟩
  cases op with
  | plain | call => exact stands
  | constant value =>
    obtain ⟨n, eq, there⟩ := stands
    exact ⟨n, eq, constants _ _ there⟩
  | global name | property name | invoke name n =>
    obtain ⟨k, eq, there⟩ := stands
    exact ⟨k, eq, name?_grows constants there⟩
  | gotoIfFalse leap | goto leap =>
    obtain ⟨l, eq, new, there⟩ := stands
    exact ⟨l, eq, Nat.le_trans le new, same _ _ new there⟩

/-- The chunk has these operations more than it had, and room for the constants that it had room for. -/
structure Chunk.Adds (K : Finset Constant) (ops : List Op) (c c' : Chunk) : Prop where
  code : Grows c.code c'.code
  size : c'.code.size = c.code.size + ops.length
  constants : Grows c.constants c'.constants
  room : RoomFor K c.constants → RoomFor K c'.constants
  labels : Grows c.labels c'.labels
  jumps : c'.labels.size = c.labels.size + ops.countP Op.isJump
  holds : c'.Holds c.labels.size c.code.size ops

theorem Chunk.Adds.append (h : c.Adds K ops c') (h' : c'.Adds K ops' c'') : c.Adds K (ops ++ ops') c'' where
  code := h.code.trans h'.code
  size := by rw [h'.size, h.size, List.length_append, Nat.add_assoc]
  constants := h.constants.trans h'.constants
  room := h'.room ∘ h.room
  labels := h.labels.trans h'.labels
  jumps := by rw [h'.jumps, h.jumps, List.countP_append, Nat.add_assoc]
  holds := by
    refine (h.holds.mono h'.code h'.constants (fun l x _ there => h'.labels l x there) le_rfl).append ?_
    rw [← h.size]
    exact h'.holds.mono (.refl _) (.refl _) (fun _ _ _ there => there) (by rw [h.jumps]; exact Nat.le_add_right _ _)

/-- One instruction more. -/
theorem adds_emit {op : Op} {i : Instruction} (line : UInt32) (jump : op.isJump = false)
    (stands : op.Stands (c.emit i line) c.labels.size c.code.size i) : c.Adds K [op] (c.emit i line) where
  code := grows_push _ _
  size := Array.size_push _
  constants := .refl _
  room := id
  labels := .refl _
  jumps := by rw [List.countP_singleton, jump]; rfl
  holds := holds_cons (by simp [Chunk.emit]) stands holds_nil

/-! ## Constants -/

theorem shares_eq {v k : Constant} (h : Chunk.shares v k) : v = k := by
  unfold Chunk.shares at h
  split at h
  · rw [eq_of_beq h]
  · rw [eq_of_beq h]
  · cases h

theorem RoomFor.size_lt {constants : Array Constant} {k : Constant} (room : RoomFor K constants) (mem : k ∈ K)
    (new : k ∉ constants) : constants.size < 65536 := by
  have pos : 0 < (K \ constants.toList.toFinset).card := Finset.card_pos.mpr ⟨k, by simp [mem, new]⟩
  unfold RoomFor at room
  omega

theorem RoomFor.push {constants : Array Constant} {k : Constant} (room : RoomFor K constants) (mem : k ∈ K)
    (new : k ∉ constants) : RoomFor K (constants.push k) := by
  have fewer : (K \ (constants.push k).toList.toFinset).card + 1 = (K \ constants.toList.toFinset).card := by
    rw [show K \ (constants.push k).toList.toFinset = (K \ constants.toList.toFinset).erase k by
      ext x
      simp only [Array.toList_push, List.toFinset_append, Finset.mem_sdiff, Finset.mem_union, Finset.mem_erase,
        List.mem_toFinset, List.mem_singleton]
      tauto]
    exact Finset.card_erase_add_one (by simp [mem, new])
  unfold RoomFor at room ⊢
  rw [Array.size_push]
  omega

/-- An index is found for a constant that there is room for. -/
theorem RoomFor.index {k : Constant} (room : RoomFor K c.constants) (sharing : Chunk.shares k k) (mem : k ∈ K) :
    ∃ n, c.constantIndex? k = some n ∧ (c.putConstant n k).constants[n.toNat]? = some k ∧
      RoomFor K (c.putConstant n k).constants := by
  have full : c.constants.size ≤ 65536 := Nat.le_trans (Nat.le_add_right _ _) room
  have find (i : Nat) (h : (c.constants.findIdx? (Chunk.shares · k)).getD c.constants.size = i) (lt : i < 65536) :
      c.constantIndex? k = some (UInt16.ofNat i) ∧ (UInt16.ofNat i).toNat = i := by
    unfold Chunk.constantIndex?
    rw [h, if_pos lt]
    exact ⟨rfl, by rw [UInt16.toNat_ofNat', Nat.mod_eq_of_lt lt]⟩
  have there {n : UInt16} (found : c.constantIndex? k = some n) :
      (c.putConstant n k).constants[n.toNat]? = some k := by
    obtain ⟨v, at_, same⟩ := constant_putConstant found
    rw [at_]
    rcases same with rfl | shares
    · rfl
    · rw [shares_eq shares]
  cases hf : c.constants.findIdx? (Chunk.shares · k) with
  | none =>
    have new : k ∉ c.constants := fun there => by
      rw [Array.findIdx?_eq_none_iff] at hf
      rw [hf k there] at sharing
      cases sharing
    obtain ⟨found, toNat⟩ := find c.constants.size (by rw [hf]; rfl) (room.size_lt mem new)
    refine ⟨_, found, there found, ?_⟩
    rw [Chunk.putConstant, if_pos toNat]
    exact room.push mem new
  | some i =>
    obtain ⟨bound, -, -⟩ := Array.findIdx?_eq_some_iff_getElem.mp hf
    obtain ⟨found, toNat⟩ := find i (by rw [hf]; rfl) (Nat.lt_of_lt_of_le bound full)
    refine ⟨_, found, there found, ?_⟩
    rw [Chunk.putConstant, if_neg (by omega)]
    exact room

/-- A constant that there is room for is found or entered. -/
theorem constant_runs {a : Assembler} {k : Constant} (sharing : Chunk.shares k k) (mem : k ∈ K)
    (room : RoomFor K a.body.chunk.constants) :
    ∃ n cs, constant k a = .ok n (a.setBody (a.body.setChunk { a.body.chunk with constants := cs })) ∧
      Grows a.body.chunk.constants cs ∧ cs[n.toNat]? = some k ∧ RoomFor K cs := by
  obtain ⟨n, found, there, room'⟩ := room.index (c := a.body.chunk) sharing mem
  refine ⟨n, (a.body.chunk.putConstant n k).constants, ?_, grows_putConstant _ _ _, there, room'⟩
  rw [← putConstant_eq]
  unfold constant
  rw [assembly_bind (x := get) rfl, found]
  rfl

end Chunks

/-! ## Directives that emit operations -/

/-- An assembly adds operations to the chunk and does nothing else. -/
def Assembler.Adds (K : Finset Constant) (ops : List Op) (a a' : Assembler) : Prop :=
  ∃ m c, a' = { a.setBody (a.body.setChunk c) with mark := m } ∧ a.body.chunk.Adds K ops c

/-- There is room for the constants and for the labels of the operations, and the names that they read are no locals. -/
structure Assembler.Ready (K : Finset Constant) (ops : List Op) (a : Assembler) : Prop where
  constants : RoomFor K a.body.chunk.constants
  labels : a.body.chunk.labels.size + ops.countP Op.isJump ≤ 65536
  free : ∀ x, .global x ∈ ops → ∀ b ∈ a.body :: a.outer, ∀ l ∈ b.locals, l.name ≠ x

/-- The directives are carried out, and what they emit are these operations. -/
def Makes (K : Finset Constant) (ds : List Directive) (ops : List Op) : Prop :=
  ∀ (a : Assembler) (steps : List Step), steps.map (·.directive) = ds → a.Ready K ops →
    ∃ a', performAll steps a = .ok () a' ∧ a.Adds K ops a'

section Makes
variable {K : Finset Constant} {ds ds' : List Directive} {ops ops' : List Op} {a a' a'' : Assembler}

theorem Assembler.Adds.append (h : a.Adds K ops a') (h' : a'.Adds K ops' a'') : a.Adds K (ops ++ ops') a'' := by
  obtain ⟨m, c, rfl, adds⟩ := h
  obtain ⟨m', c', rfl, adds'⟩ := h'
  exact ⟨m', c', rfl, adds.append adds'⟩

theorem Assembler.Ready.left (h : a.Ready K (ops ++ ops')) : a.Ready K ops where
  constants := h.constants
  labels := by
    have := h.labels
    rw [List.countP_append] at this
    omega
  free x mem := h.free x (List.mem_append_left _ mem)

theorem Assembler.Ready.right (h : a.Ready K (ops ++ ops')) (adds : a.Adds K ops a') : a'.Ready K ops' := by
  obtain ⟨m, c, rfl, adds⟩ := adds
  refine ⟨adds.room h.constants, ?_, fun x mem b hb l hl => ?_⟩
  · have := h.labels
    rw [List.countP_append] at this
    change c.labels.size + _ ≤ _
    rw [adds.jumps]
    omega
  · rcases List.mem_cons.mp hb with rfl | hb
    · exact h.free x (List.mem_append_right _ mem) a.body (.head _) l hl
    · exact h.free x (List.mem_append_right _ mem) b (.tail _ hb) l hl

theorem performAll_append_eq (front back : List Step) :
    performAll (front ++ back) = performAll front >>= fun _ => performAll back := by
  induction front with
  | nil => rfl
  | cons s rest ih =>
    rw [List.cons_append, performAll, performAll, ih, bind_assoc]

theorem makes_nil : Makes K [] [] := by
  intro a steps map _
  obtain rfl := List.map_eq_nil_iff.mp map
  exact ⟨a, rfl, a.mark, a.body.chunk, rfl, .refl _, rfl, .refl _, id, .refl _, rfl, holds_nil⟩

theorem Makes.append (h : Makes K ds ops) (h' : Makes K ds' ops') : Makes K (ds ++ ds') (ops ++ ops') := by
  intro a steps map ready
  obtain ⟨front, back, rfl, map, map'⟩ := List.map_eq_append_iff.mp map
  obtain ⟨a', run, adds⟩ := h a front map ready.left
  obtain ⟨a'', run', adds'⟩ := h' a' back map' (ready.right adds)
  exact ⟨a'', ((congrFun (performAll_append_eq front back) a).trans (assembly_bind run _)).trans run', adds.append adds'⟩

/-- What a single directive does. -/
theorem makes_one {d : Directive}
    (h : ∀ a : Assembler, a.Ready K ops → ∃ a', perform d a = .ok () a' ∧ a.Adds K ops a') : Makes K [d] ops := by
  intro a steps map ready
  obtain ⟨s, rfl, rfl⟩ := List.map_eq_singleton_iff.mp map
  obtain ⟨a', run, m, c, eq, adds⟩ := h { a with mark := s.mark } ⟨ready.constants, ready.labels, ready.free⟩
  have step : performStep s a = .ok () a' := run
  exact ⟨a', (assembly_bind step _).trans rfl, m, c, eq, adds⟩

theorem makes_plain (i : Instruction) (plain : i.isPlain = true) : Makes K [.plain i plain] [.plain i] :=
  makes_one fun a _ => ⟨_, rfl, a.mark, a.body.chunk.emit i a.line, rfl, adds_emit a.line rfl rfl⟩

/-- An instruction that refers to a constant. -/
theorem adds_indexed {op : Op} {k : Constant} (make : UInt16 → Instruction) (sharing : Chunk.shares k k) (mem : k ∈ K)
    (jump : op.isJump = false)
    (stands : ∀ (c : Chunk) labels offset n, c.constants[n.toNat]? = some k → op.Stands c labels offset (make n))
    (room : RoomFor K a.body.chunk.constants) :
    ∃ a', (constant k >>= fun n => emit (make n)) a = .ok () a' ∧ a.Adds K [op] a' := by
  obtain ⟨n, cs, run, grows, there, room'⟩ := constant_runs sharing mem room
  refine ⟨_, assembly_bind run _, a.mark, Chunk.emit { a.body.chunk with constants := cs } (make n) a.line, rfl, ?_⟩
  have emitted : Chunk.Adds K [op] { a.body.chunk with constants := cs } _ :=
    adds_emit a.line jump (stands _ _ _ _ there)
  exact ⟨emitted.code, emitted.size, grows.trans emitted.constants, fun _ => emitted.room room', emitted.labels,
    emitted.jumps, emitted.holds⟩

theorem shares_string (x : String) : Chunk.shares (.string x) (.string x) := beq_self_eq_true x

theorem shares_number (v : Number) : Chunk.shares (.number v) (.number v) := beq_self_eq_true v

theorem makes_string (value : String) (mem : .string value ∈ K) : Makes K [.string value] [.constant (.string value)] :=
  makes_one fun _ ready => adds_indexed _ (shares_string value) mem rfl (fun _ _ _ n there => ⟨n, rfl, there⟩)
    ready.constants

theorem number_cases (value : Number) :
    (∃ b, Op.number value = .plain (.pushByte b) ∧ number value = emit (.pushByte b)) ∨
      (Op.number value = .constant (.number value) ∧
        number value = constant (.number value) >>= fun n => emit (.pushConstant n)) := by
  unfold Op.number Assembler.number
  rcases value.integer? with _ | (m | m)
  · exact .inr ⟨rfl, rfl⟩
  · by_cases small : m ≤ 255 ∧ value.negative = false
    · exact .inl ⟨_, if_pos small, if_pos small⟩
    · exact .inr ⟨if_neg small, if_neg small⟩
  · exact .inr ⟨rfl, rfl⟩

theorem makes_number (value : Number) (mem : ∀ k, (Op.number value).constant? = some k → k ∈ K) :
    Makes K [.number value] [.number value] := by
  refine makes_one fun a ready => ?_
  change ∃ a', number value a = .ok () a' ∧ _
  obtain ⟨b, shape, run⟩ | ⟨shape, run⟩ := number_cases value
  · rw [shape, run]
    exact ⟨_, rfl, a.mark, a.body.chunk.emit _ a.line, rfl, adds_emit a.line rfl rfl⟩
  · rw [shape] at mem ⊢
    rw [run]
    exact adds_indexed _ (shares_number value) (mem _ rfl) rfl (fun _ _ _ n there => ⟨n, rfl, there⟩) ready.constants

theorem makes_getProperty (name : String) (mem : .string name ∈ K) : Makes K [.getProperty name] [.property name] :=
  makes_one fun _ ready => adds_indexed _ (shares_string name) mem rfl
    (fun _ _ _ n there => ⟨n, rfl, name?_of_constant there⟩) ready.constants

theorem makes_invoke (name : String) (argc : Nat) (mem : .string name ∈ K) :
    Makes K [.invoke name (UInt8.ofNat argc)] [.invoke name argc] :=
  makes_one fun _ ready => adds_indexed (.invoke · (UInt8.ofNat argc)) (shares_string name) mem rfl
    (fun _ _ _ n there => ⟨n, rfl, name?_of_constant there⟩) ready.constants

/-- A name that is entered ahead of its use emits nothing. -/
theorem makes_reserve (name : String) (mem : .string name ∈ K) : Makes K [.reserve name] [] :=
  makes_one fun a ready => by
    obtain ⟨n, cs, run, grows, -, room⟩ := constant_runs (shares_string name) mem ready.constants
    exact ⟨_, assembly_bind run _, a.mark, { a.body.chunk with constants := cs }, rfl, .refl _, rfl, grows, fun _ => room, .refl _, rfl, holds_nil⟩

theorem slotOf_free {x : String} {locals : List Local} (free : ∀ l ∈ locals, l.name ≠ x) :
    slotOf x locals = .ok none := by
  have none : findLocal x locals = none := by
    induction locals with
    | nil => rfl
    | cons l rest ih =>
      rw [findLocal, if_neg (free l (.head _))]
      exact ih fun l' mem => free l' (.tail _ mem)
  rw [slotOf, none]

theorem captureFrom_free {x : String} {b : Body} {outer : List Body}
    (free : ∀ b ∈ outer, ∀ l ∈ b.locals, l.name ≠ x) : captureFrom x b outer = .ok none := by
  induction outer generalizing b with
  | nil => rfl
  | cons e rest ih =>
    rw [captureFrom, slotOf_free (free e (.head _))]
    change (captureFrom x e rest >>= _) = _
    rw [ih fun b mem => free b (.tail _ mem)]
    rfl

/-- A name that is no local is that of a global. -/
theorem makes_load (name : String) (mem : .string name ∈ K) : Makes K [.load name] [.global name] := by
  refine makes_one fun a ready => ?_
  have free := ready.free name (.head _)
  obtain ⟨n, cs, run, -⟩ := constant_runs (shares_string name) mem ready.constants
  have nowhere : findPlace name a = .ok none a := by
    change (lift (slotOf name a.body.locals) >>= _ : Assembly (Option Place)) a = _
    rw [slotOf_free (free a.body (.head _))]
    change (lift (captureFrom name a.body a.outer) >>= _ : Assembly (Option Place)) a = _
    rw [captureFrom_free fun b mem => free b (.tail _ mem)]
    rfl
  have found := (assembly_bind nowhere _ : place name a = _).trans (assembly_bind run _)
  have same : load name a = (constant (.string name) >>= fun n => emit (.getGlobal n)) a :=
    (assembly_bind found _).trans (assembly_bind run fun n => emit (.getGlobal n)).symm
  change ∃ a', load name a = .ok () a' ∧ _
  rw [same]
  exact adds_indexed _ (shares_string name) mem rfl (fun _ _ _ n there => ⟨n, rfl, name?_of_constant there⟩)
    ready.constants

/-! ## Short operators -/

/-- Operations whose last label is placed later: they stand once it is placed so many instructions behind them. -/
structure Chunk.Opens (ops : List Op) (n : Nat) (finish : UInt16) (c c' : Chunk) : Prop where
  code : Grows c.code c'.code
  size : c'.code.size = c.code.size + ops.length
  constants : c'.constants = c.constants
  labels : Grows c.labels c'.labels
  jumps : c'.labels.size = c.labels.size + ops.countP Op.isJump
  new : c.labels.size ≤ finish.toNat
  bound : finish.toNat < c'.labels.size
  holds : ∀ c'' : Chunk, Grows c'.code c''.code →
    (∀ (l : Nat) x, l ≠ finish.toNat → c'.labels[l]? = some x → c''.labels[l]? = some x) →
    c''.labels[finish.toNat]? = some (UInt32.ofNat (c'.code.size + n)) → c''.Holds c.labels.size c.code.size ops

theorem newLabel_runs (name : String) (room : a.body.chunk.labels.size < 65536) :
    newLabel name a = .ok (UInt16.ofNat a.body.chunk.labels.size)
      (a.setBody (a.body.setChunk (a.body.chunk.addLabel name))) := by
  unfold newLabel
  rw [assembly_bind (x := get) rfl, Chunk.nextLabel?, if_pos room]
  rfl

/-- The chunk when the right operand is to come. -/
def ShortOperator.opened (c : Chunk) (line : UInt32) : ShortOperator → Chunk
  | and => ((c.addLabel "and_end").emit (.gotoIfFalse (UInt16.ofNat c.labels.size)) line).emit .pop line
  | or =>
    let right := UInt16.ofNat c.labels.size
    let c₂ := (c.addLabel "or_rhs").addLabel "or_end"
    let c₄ := (c₂.emit (.gotoIfFalse right) line).emit (.goto (UInt16.ofNat (c.labels.size + 1))) line
    (c₄.placeLabel right).emit .pop line

/-- How many labels are made ahead of the one that is placed last. -/
def ShortOperator.before : ShortOperator → Nat
  | and => 0
  | or => 1

theorem orElse_runs {right finish : UInt16} (first : newLabel "or_rhs" a = .ok right a')
    (second : newLabel "or_end" a' = .ok finish a'') :
    orElse a = .ok () (a''.setBody ((a''.body.setChunk
      ((((a''.body.chunk.emit (.gotoIfFalse right) a''.line).emit (.goto finish) a''.line).placeLabel right).emit
        .pop a''.line)).setControl (.join finish :: a''.body.control))) :=
  (assembly_bind first _).trans ((assembly_bind second _).trans rfl)

theorem ShortOperator.runs (op : ShortOperator) (room : a.body.chunk.labels.size + op.before < 65536) :
    perform op.directive a = .ok () (a.setBody ((a.body.setChunk (op.opened a.body.chunk a.line)).setControl
      (.join (UInt16.ofNat (a.body.chunk.labels.size + op.before)) :: a.body.control))) := by
  cases op with
  | and => exact assembly_bind (newLabel_runs _ room) _
  | or =>
    have size : (a.body.chunk.addLabel "or_rhs").labels.size = a.body.chunk.labels.size + 1 := Array.size_push _
    have first := newLabel_runs (a := a) "or_rhs" (Nat.lt_of_succ_lt room)
    have second := newLabel_runs (a := a.setBody (a.body.setChunk (a.body.chunk.addLabel "or_rhs"))) "or_end"
      (size ▸ room)
    rw [show (a.setBody (a.body.setChunk (a.body.chunk.addLabel "or_rhs"))).body.chunk.labels.size =
      a.body.chunk.labels.size + 1 from size] at second
    have runs := orElse_runs first second
    unfold ShortOperator.opened ShortOperator.before
    dsimp only
    generalize UInt16.ofNat a.body.chunk.labels.size = right at runs ⊢
    generalize UInt16.ofNat (a.body.chunk.labels.size + 1) = finish at runs ⊢
    exact runs

theorem opens_and (n : Nat) {c : Chunk} (line : UInt32) (room : c.labels.size < 65536) :
    c.Opens (ShortOperator.and.code n) n (UInt16.ofNat c.labels.size) (ShortOperator.and.opened c line) := by
  have finish := toNat_label room
  have code : (ShortOperator.and.opened c line).code =
      (c.code.push (.gotoIfFalse (UInt16.ofNat c.labels.size))).push .pop := rfl
  have size : (ShortOperator.and.opened c line).code.size = c.code.size + 2 := by simp [code]
  refine ⟨?_, size, rfl, grows_push _ _, Array.size_push _, finish.ge, ?_, fun c'' code' _ placed => ?_⟩
  · rw [code]
    exact (grows_push _ _).trans (grows_push _ _)
  · rw [finish]
    exact Nat.lt_of_lt_of_eq (Nat.lt_succ_self _) (Array.size_push _).symm
  · rw [code] at code'
    have at₀ := code' _ _ (grows_push _ _ _ _ Array.getElem?_push_size)
    have at₁ := code' _ _ Array.getElem?_push_size
    rw [Array.size_push] at at₁
    refine holds_cons at₀ ⟨_, rfl, finish.ge, ?_⟩ (holds_cons at₁ rfl holds_nil)
    rw [placed, size]
    congr 2
    omega

theorem opens_or (n : Nat) {c : Chunk} (line : UInt32) (room : c.labels.size + 1 < 65536) :
    c.Opens (ShortOperator.or.code n) n (UInt16.ofNat (c.labels.size + 1)) (ShortOperator.or.opened c line) := by
  have right := toNat_label (Nat.lt_of_succ_lt room)
  have finish := toNat_label room
  have labels : (ShortOperator.or.opened c line).labels =
      ((c.labels.push Chunk.unplaced).push Chunk.unplaced).setIfInBounds c.labels.size
        (UInt32.ofNat (c.code.size + 2)) := by
    unfold ShortOperator.opened Chunk.placeLabel Chunk.emit Chunk.addLabel
    simp only [right, Array.size_push]
  have code : (ShortOperator.or.opened c line).code = ((c.code.push (.gotoIfFalse (UInt16.ofNat c.labels.size))).push
      (.goto (UInt16.ofNat (c.labels.size + 1)))).push .pop := rfl
  have size : (ShortOperator.or.opened c line).code.size = c.code.size + 3 := by simp [code]
  have constants : (ShortOperator.or.opened c line).constants = c.constants := by
    unfold ShortOperator.opened Chunk.placeLabel Chunk.emit Chunk.addLabel
    rfl
  refine ⟨?_, size, constants, ?_, ?_, ?_, ?_, fun c'' code' same placed => ?_⟩
  · rw [code]
    exact (grows_push _ _).trans ((grows_push _ _).trans (grows_push _ _))
  · intro k x there
    have below := (Array.getElem?_eq_some_iff.mp there).1
    rw [labels, Array.getElem?_setIfInBounds_ne (by omega)]
    exact grows_push _ _ _ _ (grows_push _ _ _ _ there)
  · simp [labels, ShortOperator.code]
    rfl
  · omega
  · rw [finish, labels, Array.size_setIfInBounds, Array.size_push, Array.size_push]
    exact Nat.lt_succ_self _
  · rw [code] at code'
    have at₀ := code' _ _ (grows_push _ _ _ _ (grows_push _ _ _ _ Array.getElem?_push_size))
    have at₁ := code' _ _ (grows_push _ _ _ _ Array.getElem?_push_size)
    have at₂ := code' _ _ Array.getElem?_push_size
    simp only [Array.size_push] at at₁ at₂
    have start := same c.labels.size (UInt32.ofNat (c.code.size + 2)) (by omega) (by simp [labels])
    refine holds_cons at₀ ⟨_, rfl, right.ge, by rw [right]; exact start⟩
      (holds_cons at₁ ⟨_, rfl, by omega, ?_⟩ (holds_cons at₂ rfl holds_nil))
    rw [placed, size]
    congr 2
    omega

theorem ShortOperator.opens (op : ShortOperator) (n : Nat) {c : Chunk} (line : UInt32)
    (room : c.labels.size + op.before < 65536) :
    c.Opens (op.code n) n (UInt16.ofNat (c.labels.size + op.before)) (op.opened c line) := by
  cases op with
  | and => exact opens_and n line room
  | or => exact opens_or n line room

/-- The last label is placed behind the right operand. -/
theorem Chunk.Opens.close {c c₁ c₂ : Chunk} {finish : UInt16} (h : c.Opens ops ops'.length finish c₁)
    (h' : c₁.Adds K ops' c₂) : c.Adds K (ops ++ ops') (c₂.placeLabel finish) := by
  have other (l : Nat) (ne : l ≠ finish.toNat) : (c₂.placeLabel finish).labels[l]? = c₂.labels[l]? :=
    Array.getElem?_setIfInBounds_ne fun same => ne same.symm
  have placed : (c₂.placeLabel finish).labels[finish.toNat]? = some (UInt32.ofNat c₂.code.size) :=
    Array.getElem?_setIfInBounds_self_of_lt (by rw [h'.jumps]; exact Nat.lt_add_right _ h.bound)
  refine ⟨h.code.trans h'.code, ?_, h.constants ▸ h'.constants, h.constants ▸ h'.room, fun k x there => ?_, ?_, ?_⟩
  · rw [List.length_append, ← Nat.add_assoc, ← h.size]
    exact h'.size
  · have below := (Array.getElem?_eq_some_iff.mp there).1
    have new := h.new
    rw [other k (by omega)]
    exact h'.labels _ _ (h.labels _ _ there)
  · rw [List.countP_append, ← Nat.add_assoc, ← h.jumps, ← h'.jumps]
    exact Array.size_setIfInBounds
  · refine (h.holds (c₂.placeLabel finish) h'.code (fun l x ne there => ?_) ?_).append ?_
    · rw [other l ne]
      exact h'.labels _ _ there
    · rw [placed, h'.size]
    · rw [← h.size]
      refine h'.holds.mono (.refl _) (.refl _) (fun l x new there => ?_) (by rw [h.jumps]; exact Nat.le_add_right _ _)
      have bound := h.bound
      rw [other l (by omega)]
      exact there

theorem ShortOperator.countP_code (op : ShortOperator) (n : Nat) : (op.code n).countP Op.isJump = op.before + 1 := by
  cases op <;> rfl

theorem makes_short (op : ShortOperator) (h : Makes K ds ops) :
    Makes K (op.directive :: (ds ++ [.shortEnd])) (op.code ops.length ++ ops) := by
  intro a steps map ready
  obtain ⟨s₁, rest, rfl, first, behind⟩ := List.map_eq_cons_iff.mp map
  obtain ⟨rs, last, rfl, middle, behind⟩ := List.map_eq_append_iff.mp behind
  obtain ⟨s₂, rfl, second⟩ := List.map_eq_singleton_iff.mp behind
  have few := ready.labels
  rw [List.countP_append, op.countP_code] at few
  have room : a.body.chunk.labels.size + op.before < 65536 := by omega
  have run₁ := op.runs (a := { a with mark := s₁.mark }) room
  have opens := op.opens ops.length (c := a.body.chunk) (Assembler.line { a with mark := s₁.mark }) room
  rw [← first] at run₁
  generalize UInt16.ofNat (a.body.chunk.labels.size + op.before) = finish at opens run₁
  generalize op.opened a.body.chunk _ = c₁ at opens run₁
  have ready₁ : Assembler.Ready K ops (({ a with mark := s₁.mark } : Assembler).setBody
      ((a.body.setChunk c₁).setControl (.join finish :: a.body.control))) := by
    refine ⟨?_, ?_, fun x mem b hb l hl => ?_⟩
    · change RoomFor K c₁.constants
      rw [opens.constants]
      exact ready.constants
    · change c₁.labels.size + _ ≤ _
      rw [opens.jumps, op.countP_code]
      omega
    · rcases List.mem_cons.mp hb with rfl | hb
      · exact ready.free x (List.mem_append_right _ mem) a.body (.head _) l hl
      · exact ready.free x (List.mem_append_right _ mem) b (.tail _ hb) l hl
  obtain ⟨a₂, run₂, m, c₂, rfl, adds⟩ := h _ rs middle ready₁
  have run : performAll (s₁ :: (rs ++ [s₂])) a = performAll [s₂] _ :=
    (assembly_bind (x := performStep s₁) run₁ _).trans
      ((congrFun (performAll_append_eq rs [s₂]) _).trans (assembly_bind run₂ _))
  refine ⟨{ a.setBody (a.body.setChunk (c₂.placeLabel finish)) with mark := s₂.mark }, run.trans ?_, s₂.mark,
    c₂.placeLabel finish, rfl, opens.close adds⟩
  rw [performAll, performStep, second]
  rfl

/-! ## Trees -/

theorem makes_binary (op : BinaryOperator) : Makes K (Grammar.binaryOperation op.token) op.code := by
  cases op <;> first
    | exact makes_plain _ rfl
    | exact (makes_plain _ rfl).append (makes_plain _ rfl)

theorem makes_arguments {args : List Tree} (each : ∀ e ∈ args, Makes K e.directives e.code) :
    Makes K (Tree.directives.allDirectives args) (Tree.code.allCode args) := by
  induction args with
  | nil => exact makes_nil
  | cons e es ih => exact (each e (.head _)).append (ih fun e' mem => each e' (.tail _ mem))

/-- A tree is emitted wherever its constants are among those that there is room for. -/
theorem Tree.makes (e : Tree) (mem : ∀ op ∈ e.code, ∀ k, op.constant? = some k → k ∈ K) :
    Makes K e.directives e.code := by
  induction e using Tree.induct with
  | number v => exact makes_number v (mem _ (.head _))
  | string v => exact makes_string v (mem _ (.head _) _ rfl)
  | bool v => exact makes_plain _ rfl
  | null => exact makes_plain _ rfl
  | identifier x => exact makes_load x (mem _ (.head _) _ rfl)
  | unary op e ih =>
    exact (ih fun x here => mem x (List.mem_append_left _ here)).append (makes_plain _ _)
  | binary op l r left right =>
    exact (left fun x here => mem x (List.mem_append_left _ here)).append
      ((right fun x here => mem x (List.mem_append_right _ (List.mem_append_left _ here))).append (makes_binary op))
  | short op l r left right =>
    exact (left fun x here => mem x (List.mem_append_left _ here)).append
      (makes_short op (right fun x here => mem x (List.mem_append_right _ (List.mem_append_right _ here))))
  | call f args callee each =>
    have parts := makes_arguments fun e here => each e here fun x there =>
      mem x (List.mem_append_right _ (List.mem_append_left _ (mem_allCode here there)))
    have last : Makes K [.plain (.call (UInt8.ofNat args.length))] [.call args.length] :=
      makes_one fun a _ => ⟨_, rfl, a.mark, a.body.chunk.emit _ a.line, rfl, adds_emit a.line rfl rfl⟩
    exact (callee fun x here => mem x (List.mem_append_left _ here)).append (parts.append last)
  | invoke o x args object each =>
    have parts := makes_arguments fun e here => each e here fun x there =>
      mem x (List.mem_append_right _ (List.mem_append_left _ (mem_allCode here there)))
    have named := mem (.invoke x args.length) (List.mem_append_right _ (List.mem_append_right _ (.head _))) _ rfl
    exact (object fun x here => mem x (List.mem_append_left _ here)).append
      ((makes_reserve x named).append (parts.append (makes_invoke x _ named)))
  | property o x object =>
    have named := mem (.property x) (List.mem_append_right _ (.head _)) _ rfl
    exact (object fun x here => mem x (List.mem_append_left _ here)).append
      ((makes_reserve x named).append (makes_getProperty x named))
  | index o k object key =>
    exact (object fun x here => mem x (List.mem_append_left _ here)).append
      ((key fun x here => mem x (List.mem_append_right _ (List.mem_append_left _ here))).append (makes_plain _ rfl))

end Makes

end ScriptEngine
