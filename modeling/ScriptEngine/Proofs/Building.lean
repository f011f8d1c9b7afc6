import ScriptEngine.Proofs.EditingRuns

/-!
# Building types

The instructions in the body of a type add its parts one after the other, each to
what is there already. `Part.addTo` says what one of them adds, and `Body` is the
way of the machine through a body: the type may inherit, then parts are added, and
in between anything may happen that adds no part to this type, as the values of
static members are computed by code of any kind.

What a finished type has is read off the list of its parts. Parts of one kind do
not depend on those of another, so each kind has a lemma of its own.
-/
namespace ScriptEngine

open Run

/-! ## Parts -/

/-- What an instruction in the body of a type adds to it. -/
inductive Part where
  | mixin (ref : Nat)
  | contract (ref : Nat)
  | field (name : String)
  | method (name : String) (body : Value)
  | chain (body : Value)
  deriving DecidableEq, Repr

namespace Part

def addTo : Part → UserType → UserType
  | .mixin ref, t => { t with mixins := t.mixins ++ [ref] }
  | .contract ref, t => { t with contracts := t.contracts ++ [ref] }
  | .field name, t => t.addFields [name]
  | .method name body, t => { t with methods := t.methods.insert name body }
  | .chain body, t => { t with initChains := t.initChains ++ [body] }

def mixin? : Part → Option Nat
  | .mixin ref => some ref
  | _ => none

def contract? : Part → Option Nat
  | .contract ref => some ref
  | _ => none

def field? : Part → Option String
  | .field name => some name
  | _ => none

def chain? : Part → Option Value
  | .chain body => some body
  | _ => none

/-- The method that is added under a name. -/
def defines? (name : String) : Part → Option Value
  | .method other body => if other = name then some body else none
  | _ => none

end Part

namespace UserType

/-- A type without its static members and flags, which code outside of its body can change. -/
def bare (t : UserType) : UserType := { t with statics := ∅, flags := {} }

/-! ## Names of fields -/

theorem addNames_append (names more rest : List String) :
    addNames names (more ++ rest) = addNames (addNames names more) rest := by
  induction more generalizing names with
  | nil => rfl
  | cons n more ih => exact ih _

/-- Of the names that are added, the first of each that is not there yet. -/
theorem addNames_eq (names more : List String) :
    addNames names more = names ++ (more.removeAll names).eraseDups := by
  induction more generalizing names with
  | nil => simp [addNames, List.removeAll]
  | cons n rest ih =>
    have step : addNames names (n :: rest) =
        addNames (if n ∈ names then names else names ++ [n]) rest := rfl
    rw [step, ih]
    by_cases present : n ∈ names
    · simp [present, List.removeAll]
    · have apart : rest.removeAll (names ++ [n]) = (rest.removeAll names).filter fun m => !m == n := by
        simp only [List.removeAll, List.filter_filter]
        exact List.filter_congr fun m _ => by
          rw [List.elem_eq_mem, List.elem_eq_mem]
          grind
      have first : (n :: rest).removeAll names = n :: rest.removeAll names := by
        simp [List.removeAll, present]
      rw [if_neg present, apart, first, List.eraseDups_cons, List.append_assoc]
      rfl

theorem addNames_nil (names : List String) : addNames [] names = names.eraseDups := by
  have all : names.removeAll [] = names := List.filter_eq_self.mpr fun _ _ => rfl
  rw [addNames_eq, all, List.nil_append]

theorem addNames_eraseDups (names more : List String) :
    addNames names.eraseDups more = (names ++ more).eraseDups := by
  rw [← addNames_nil, ← addNames_nil, addNames_append]

/-! ## What a type has -/

/-- What a type has that has inherited and to which parts were added after that. -/
structure Has (parent : Option UserType) (own : List Part) (t : UserType) : Prop where
  /-- The last definition of a method counts, and all come before those of the parent. -/
  methods : ∀ name, t.method? name =
    (own.reverse.findSome? (Part.defines? name)).or (parent.bind (·.method? name))
  fields : t.fields = (parent.elim [] fields ++ own.filterMap Part.field?).eraseDups
  initChains : t.initChains = parent.elim [] initChains ++ own.filterMap Part.chain?
  contracts : t.contracts = own.filterMap Part.contract?
  mixins : t.mixins = own.filterMap Part.mixin?

namespace Has

variable {parent : Option UserType} {own : List Part} {t t' : UserType}

theorem new (name : String) (kind : TypeKind) : Has none [] { name, kind } :=
  ⟨fun _ => rfl, rfl, rfl, rfl, rfl⟩

theorem of_bare (h : t.Has parent own) (same : t'.bare = t.bare) : t'.Has parent own := by
  have each {α : Type} (part : UserType → α) (stays : ∀ t, part t.bare = part t) : part t' = part t := by
    rw [← stays t', same, stays]
  constructor
  · intro name
    rw [← h.methods]
    exact each (·.method? name) fun _ => rfl
  · exact (each _ fun _ => rfl).trans h.fields
  · exact (each _ fun _ => rfl).trans h.initChains
  · exact (each _ fun _ => rfl).trans h.contracts
  · exact (each _ fun _ => rfl).trans h.mixins

theorem inherit (h : t.Has none []) (ref : Nat) (parent : UserType) :
    (t.inherit ref parent).Has (some parent) [] := by
  constructor
  · intro name
    have copied : (t.inherit ref parent).method? name = (parent.method? name).or (t.method? name) :=
      Table.get?_insertAll_toList t.methods parent.methods name
    rw [copied, h.methods]
    simp
  · change addNames t.fields parent.fields = _
    rw [h.fields, addNames_eraseDups]
    simp
  · change t.initChains ++ parent.initChains = _
    rw [h.initChains]
    simp
  · exact h.contracts
  · exact h.mixins

theorem addTo (h : t.Has parent own) (p : Part) : (p.addTo t).Has parent (own ++ [p]) := by
  constructor
  · intro name
    have first : (p.addTo t).method? name = (p.defines? name).or (t.method? name) := by
      cases p with
      | method other body =>
        change (t.methods.insert other body).get? name = _
        rw [Table.get?_insert]
        by_cases same : other = name <;> simp [Part.defines?, same, method?]
      | _ => rfl
    rw [first, h.methods, List.reverse_append, List.reverse_singleton, List.singleton_append,
      List.findSome?_cons]
    cases p.defines? name <;> rfl
  · have added : (p.addTo t).fields = addNames t.fields p.field?.toList := by
      cases p <;> rfl
    rw [added, h.fields, addNames_eraseDups, List.filterMap_append, List.append_assoc]
    cases p <;> rfl
  · rw [List.filterMap_append, ← List.append_assoc, ← h.initChains]
    cases p <;> simp [Part.addTo, Part.chain?, addFields]
  · rw [List.filterMap_append, ← h.contracts]
    cases p <;> simp [Part.addTo, Part.contract?, addFields]
  · rw [List.filterMap_append, ← h.mixins]
    cases p <;> simp [Part.addTo, Part.mixin?, addFields]

end Has

/-! ## Mixins -/

theorem method?_absorb (ms : List UserType) (t : UserType) (name : String) :
    (ms.foldl absorb t).method? name =
      (t.method? name).or (ms.findSome? (·.method? name)) := by
  induction ms generalizing t with
  | nil => simp
  | cons m rest ih =>
    have first : (t.absorb m).method? name = (t.method? name).or (m.method? name) :=
      Table.get?_insertAllNew t.methods m.methods.toList name
    rw [List.foldl_cons, ih, first, Option.or_assoc, List.findSome?_cons]
    cases m.method? name <;> rfl

theorem fields_absorb (ms : List UserType) (t : UserType) :
    (ms.foldl absorb t).fields = addNames t.fields (ms.flatMap fields) := by
  induction ms generalizing t with
  | nil => rfl
  | cons m rest ih =>
    rw [List.foldl_cons, ih, List.flatMap_cons, addNames_append]
    rfl

theorem contracts_absorb (ms : List UserType) (t : UserType) :
    (ms.foldl absorb t).contracts = t.contracts ++ ms.flatMap contracts := by
  induction ms generalizing t with
  | nil => simp
  | cons m rest ih =>
    rw [List.foldl_cons, ih, List.flatMap_cons, ← List.append_assoc]
    rfl

end UserType

/-! ## Contracts -/

namespace Heap

variable {h : Heap} {t : UserType}

theorem provided_of_met {required : List (String × Value)} (met : h.unmet? t required = none) {name : String}
    {method : Value} (mem : (name, method) ∈ required) :
    ∃ provided, t.method? name = some provided ∧ h.standsIn method provided = .ok () := by
  induction required with
  | nil => cases mem
  | cons first rest ih =>
    obtain ⟨name', method'⟩ := first
    simp only [unmet?] at met
    split at met
    · cases met
    · next provided found =>
      split at met
      · cases met
      · next stands =>
        obtain ⟨rfl, rfl⟩ | mem : (name = name' ∧ method = method') ∨ (name, method) ∈ rest := by
          simpa using mem
        · exact ⟨provided, found, stands⟩
        · exact ih met mem

theorem unmet?_of_violation? {contracts : List UserType} (met : violation? h t contracts = none)
    {contract : UserType} (mem : contract ∈ contracts) : h.unmet? t contract.methods.toList = none := by
  induction contracts with
  | nil => cases mem
  | cons first rest ih =>
    simp only [violation?] at met
    split at met
    · cases met
    · next none =>
      obtain rfl | mem := List.mem_cons.mp mem
      · exact none
      · exact ih met mem

/-- Whether a callable stands in for another does not depend on types. -/
theorem standsIn_updateType (ref : Nat) (f : UserType → UserType) (required provided : Value) :
    (h.updateType ref f).standsIn required provided = h.standsIn required provided := by
  have unbind (n : Nat) (v : Value) : (h.updateType ref f).unbind n v = h.unbind n v := by
    fun_induction Heap.unbind h n v with
    | case1 n r ih => exact ih
    | case2 n v other => cases n <;> cases v <;> simp_all [Heap.unbind]
  have callee (v : Value) : (h.updateType ref f).callee v = h.callee v := unbind _ v
  have arity (v : Value) : (h.updateType ref f).arity? v = h.arity? v := by
    unfold arity?
    rw [callee]
    rfl
  have modifiers (v : Value) : (h.updateType ref f).modifiers v = h.modifiers v := by
    unfold Heap.modifiers
    rw [callee]
    rfl
  unfold standsIn
  rw [arity, arity, modifiers, modifiers]

theorem types_updateType (ref : Nat) (f : UserType → UserType) (r : Nat) :
    (h.updateType ref f).types[r]? = if ref = r then (h.types[r]?).map f else h.types[r]? := by
  simp [updateType, change, Array.getElem?_modify]

theorem method?_updateType {ref : Nat} {f : UserType → UserType} (same : ∀ t, (f t).methods = t.methods)
    (r : Nat) (name : String) :
    ((h.updateType ref f).userType r).method? name = (h.userType r).method? name := by
  unfold userType
  rw [types_updateType]
  split
  · cases h.types[r]? with
    | none => rfl
    | some t => exact congrArg (·.get? name) (same t)
  · rfl

/-- A type that meets its contracts when its flags are set does so after that. -/
theorem met_of_restricted {ref : Nat} {f : UserType → UserType} (found : h.types[ref]? = some t)
    (restricts : ∀ u, ∃ flags, f u = { u with flags })
    (met : violation? h t (t.contracts.map h.userType) = none) :
    (∃ flags, (h.updateType ref f).userType ref = { t with flags }) ∧
      ∀ contract ∈ t.contracts, ∀ name required,
        ((h.updateType ref f).userType contract).method? name = some required →
        ∃ provided, t.method? name = some provided ∧
          (h.updateType ref f).standsIn required provided = .ok () := by
  constructor
  · obtain ⟨flags, restricted⟩ := restricts t
    refine ⟨flags, ?_⟩
    rw [userType, types_updateType, if_pos rfl, found]
    exact restricted
  · intro contract mem name required wanted
    have methods (u : UserType) : (f u).methods = u.methods := by
      obtain ⟨flags, restricted⟩ := restricts u
      rw [restricted]
    rw [method?_updateType methods] at wanted
    simp only [standsIn_updateType]
    exact provided_of_met (unmet?_of_violation? met (List.mem_map_of_mem mem))
      (Table.mem_toList.mpr wanted)

end Heap

/-! ## Instructions -/

/-- The name that the innermost frame has under an index. -/
def World.nameAt (w : World) (index : UInt16) : Option String :=
  match w.machine.frames.back? with
  | some f => (w.heap.code f.closure).name? index
  | none => none

/-- What an instruction adds to the type that it changes. -/
def World.part? (w : World) : Instruction → Option Part
  | .mixin => (typeOnTop w).map .mixin
  | .signs => (typeOnTop w).map .contract
  | .field index => (w.nameAt index).map .field
  | .method index => (w.nameAt index).bind fun name => w.machine.stack.back?.map (.method name)
  | .initChain => w.machine.stack.back?.map .chain
  | _ => none

/-- The same with the innermost frame at another instruction. -/
def World.moved (w : World) (ip : Nat) : World :=
  { w with machine := { w.machine with frames := jump ip w.machine.frames } }

theorem World.heap_moved (w : World) (ip : Nat) : (w.moved ip).heap = w.heap := rfl

namespace Run

variable {again : Reentry} {stop : Nat} {i : Instruction} {c : Control} {w w' : World}

theorem name_ok_iff {index : UInt16} {s : String} (h : name index w = .ok s w') :
    w' = w ∧ w.nameAt index = some s := by
  obtain ⟨ch, w₁, hc, rest⟩ := bind_ok (x := chunk) h
  obtain ⟨f, w₂, hf, read⟩ := bind_ok (x := frame) hc
  obtain ⟨rfl, top⟩ := frame_ok hf
  cases read
  cases hn : (w₁.heap.code f.closure).name? index <;> rw [hn] at rest <;> cases rest
  refine ⟨rfl, ?_⟩
  unfold World.nameAt
  rw [top]
  exact hn

theorem frame_eq {f : Frame} (top : w.machine.frames.back? = some f) : frame w = .ok f w := by
  change (match w.machine.frames.back? with | some f => pure f | none => failInternal .noFrame : Run Frame) w = _
  rw [top]
  rfl

theorem fetch_eq {f : Frame} (top : w.machine.frames.back? = some f) :
    fetch w = match (w.heap.code f.closure).code[f.ip]? with
      | some i => .ok i (w.moved (f.ip + 1))
      | none => .error (.failed { error := .internal (.pastEnd f.ip (w.heap.code f.closure).chain) }) w := by
  change (frame >>= _ : Run Instruction) w = _
  rw [bind_eq, frame_eq top]
  change (match (w.heap.code f.closure).code[f.ip]? with
    | some i => do
      setIp (f.ip + 1)
      return i
    | none => failInternal _) w = _
  cases (w.heap.code f.closure).code[f.ip]? <;> rfl

/-- A cycle is its instruction, carried out when the frame has moved on. -/
theorem cycle_ok (next : w.next? = some i) (ran : cycle again stop w = .ok c w') :
    ∃ ip, step again stop i (w.moved ip) = .ok c w' := by
  obtain ⟨i', w₁, fetched, located⟩ := bind_ok (x := fetch) ran
  obtain ⟨f, w₂, hf, rest⟩ := bind_ok (x := frame) fetched
  obtain ⟨rfl, top⟩ := frame_ok hf
  change (match (w₂.heap.code f.closure).code[f.ip]? with
    | some i => do
      setIp (f.ip + 1)
      return i
    | none => failInternal _) w₂ = _ at rest
  have read : (w₂.heap.code f.closure).code[f.ip]? = some i := by
    unfold World.next? at next
    rwa [top] at next
  rw [read] at rest
  cases rest
  refine ⟨f.ip + 1, ?_⟩
  unfold Run.located at located
  split at located
  · cases located
  · exact located

theorem back?_jump (ip : Nat) (frames : Array Frame) :
    (jump ip frames).back? = frames.back?.map fun f => { f with ip } := by
  unfold jump
  rw [Array.back?_eq_getElem?, Array.back?_eq_getElem?, Array.getElem?_modify, Array.size_modify]
  simp

theorem nameAt_moved (ip : Nat) (index : UInt16) : (w.moved ip).nameAt index = w.nameAt index := by
  unfold World.nameAt World.moved
  dsimp only
  rw [back?_jump]
  cases w.machine.frames.back? <;> rfl

theorem part?_moved (ip : Nat) : (w.moved ip).part? i = w.part? i := by
  have name (index : UInt16) := nameAt_moved (w := w) ip index
  cases i with
  | field index => exact congrArg (Option.map Part.field) (name index)
  | method index =>
    exact congrArg (·.bind fun name => w.machine.stack.back?.map (Part.method name)) (name index)
  | _ => rfl

/-- The name, the value and the type below it that a declaration reads. -/
theorem declaration_ok {op : String} {index : UInt16} {f : String → Value → Nat → Run Unit}
    (h : (do
      let s ← name index
      let v ← pop
      let ref ← peekType op
      f s v ref : Run Unit) w = .ok () w') :
    ∃ s v ref, w.nameAt index = some s ∧ w.machine.stack.back? = some v ∧ typeBelow w = some ref ∧
      f s v ref { w with machine.stack := w.machine.stack.pop } = .ok () w' := by
  obtain ⟨s, w₁, hs, unnamed⟩ := bind_ok (x := name index) h
  obtain ⟨rfl, named⟩ := name_ok_iff hs
  obtain ⟨v, w₂, hv, popped⟩ := bind_ok (x := pop) unnamed
  obtain ⟨top, rfl⟩ := pop_ok hv
  obtain ⟨ref, w₃, href, rest⟩ := bind_ok (x := peekType op) popped
  obtain ⟨rfl, below⟩ := peekType_ok href
  exact ⟨s, v, ref, named, top, typeBelow_eq (w := w₁) below, rest⟩

theorem listed_ok {op : String} {f : Nat → UserType → UserType}
    (h : (do
      let m ← popType op
      updateType (← peekType op) (f m) : Run Unit) w = .ok () w') :
    ∃ m ref, typeOnTop w = some m ∧ typeBelow w = some ref ∧ w'.heap = w.heap.updateType ref (f m) := by
  obtain ⟨m, w₁, hm, popped⟩ := bind_ok (x := popType op) h
  obtain ⟨top, rfl⟩ := popType_ok hm
  obtain ⟨ref, w₂, href, rest⟩ := bind_ok (x := peekType op) popped
  obtain ⟨rfl, below⟩ := peekType_ok href
  cases rest
  exact ⟨m, ref, typeOnTop_eq top, typeBelow_eq below, rfl⟩

/-- An instruction of a body adds its part to the type, and the heap is otherwise the same. -/
theorem plain_part {t : Nat} {p : Part} (into : changedBy w i = some (.part t)) (part : w.part? i = some p)
    (ran : plain again i w = .ok () w') : w'.heap = w.heap.updateType t p.addTo := by
  have same {at? : Option Nat} {ref : Nat} (found : at? = some ref) (into : at?.map Change.part = some (.part t)) :
      ref = t := by
    rw [found] at into
    cases into
    rfl
  have is {q : Part} (read : w.part? i = some q) : q = p := Option.some.inj (read.symm.trans part)
  cases i with
  | mixin =>
    obtain ⟨m, ref, top, below, heap⟩ := listed_ok ran
    obtain rfl := same below into
    obtain rfl : .mixin m = p := is (congrArg (Option.map Part.mixin) top)
    exact heap
  | signs =>
    obtain ⟨m, ref, top, below, heap⟩ := listed_ok ran
    obtain rfl := same below into
    obtain rfl : .contract m = p := is (congrArg (Option.map Part.contract) top)
    exact heap
  | method index =>
    obtain ⟨s, v, ref, named, top, below, rest⟩ := declaration_ok ran
    obtain rfl := same below into
    have read : w.part? (.method index) = some (.method s v) := by
      change (w.nameAt index).bind (fun name => w.machine.stack.back?.map (Part.method name)) = _
      rw [named, top]
      rfl
    obtain rfl := is read
    cases rest
    rfl
  | field index =>
    obtain ⟨s, w₁, hs, unnamed⟩ := bind_ok (x := name index) ran
    obtain ⟨rfl, named⟩ := name_ok_iff hs
    obtain ⟨ref, w₂, href, rest⟩ := bind_ok (x := peekType "field") unnamed
    obtain ⟨rfl, top⟩ := peekType_ok href
    obtain rfl := same (typeOnTop_eq top) into
    obtain rfl : .field s = p := is (congrArg (Option.map Part.field) named)
    cases rest
    rfl
  | initChain =>
    obtain ⟨v, w₁, hv, popped⟩ := bind_ok (x := pop) ran
    obtain ⟨top, rfl⟩ := pop_ok hv
    obtain ⟨ref, w₂, href, rest⟩ := bind_ok (x := peekType "init chain") popped
    obtain ⟨rfl, below⟩ := peekType_ok href
    obtain rfl := same (typeBelow_eq (w := w) below) into
    obtain rfl : .chain v = p := is (congrArg (Option.map Part.chain) top)
    cases rest
    rfl
  | _ => cases part

theorem inherit_ok {sub parent : Nat} (onTop : typeOnTop w = some sub) (below : typeBelow w = some parent)
    (ran : inherit w = .ok () w') :
    w'.heap = w.heap.updateType sub fun t => t.inherit parent (w.heap.userType parent) := by
  obtain ⟨sub', w₁, hsub, popped⟩ := bind_ok (x := popType "inherit") ran
  obtain ⟨top, rfl⟩ := popType_ok hsub
  obtain ⟨parent', w₂, hparent, peeked⟩ := bind_ok (x := peekType "inherit") popped
  obtain ⟨rfl, top'⟩ := peekType_ok hparent
  obtain rfl : sub' = sub := by
    simpa [typeOnTop_eq top] using onTop
  obtain rfl : parent' = parent := by
    simpa [typeBelow_eq top'] using below
  obtain ⟨t, w₃, ht, rest⟩ := bind_ok (x := userType parent') peeked
  cases ht
  split at rest
  · cases rest
  · cases rest
    rfl

theorem finishType_ok {t : Nat} (onTop : typeOnTop w = some t) (ran : finishType w = .ok () w') :
    let absorbed := w.heap.updateType t (absorbAll ((w.heap.userType t).mixins.map w.heap.userType))
    violation? absorbed (absorbed.userType t) ((absorbed.userType t).contracts.map absorbed.userType) = none ∧
      w'.heap = absorbed.updateType t fun t =>
        { t with flags := if t.kind = .enumKind then t.flags.lock else t.flags.freeze } := by
  obtain ⟨ref, w₁, href, peeked⟩ := bind_ok (x := peekType "finish") ran
  obtain ⟨rfl, top⟩ := peekType_ok href
  obtain rfl : ref = t := by
    simpa [typeOnTop_eq top] using onTop
  obtain ⟨before, w₂, hbefore, read⟩ := bind_ok (x := heap) peeked
  cases hbefore
  obtain ⟨⟨⟩, w₃, habsorbed, absorbed⟩ := bind_ok (x := updateType ref (absorbAll _)) read
  cases habsorbed
  obtain ⟨after, w₄, hafter, rest⟩ := bind_ok (x := heap) absorbed
  cases hafter
  dsimp only at rest ⊢
  cases met : violation? _ _ _ <;> rw [met] at rest <;> cases rest
  exact ⟨rfl, rfl⟩

end Run

/-! ## Bodies -/

/-- Types stay as they are but for their static members and their flags. -/
def Heap.SparesTypes (h h' : Heap) : Prop :=
  ∀ (ref : Nat) (t : UserType), h.types[ref]? = some t → ∃ t', h'.types[ref]? = some t' ∧ t'.bare = t.bare

/-- What may happen in the body of type `t` between its own instructions. -/
abbrev World.Between (t : Nat) : World → World → Prop :=
  World.Edited (· ≠ .part t) Heap.SparesTypes

/-- The body of type `t`, from its declaration onwards: what it has inherited, and the parts that
were added after that. -/
inductive Body (w : World) (t : Nat) : Option UserType → List Part → World → Prop
  | declare {again : Reentry} {stop : Nat} {kind : TypeKind} {index : UInt16} {c : Control} {w' : World}
      (next : w.next? = some (.declareType kind index)) (fresh : t = w.heap.types.size)
      (ran : cycle again stop w = .ok c w') : Body w t none [] w'
  | between {parent : Option UserType} {own : List Part} {w' w'' : World} (body : Body w t parent own w')
      (other : w'.Between t w'') : Body w t parent own w''
  | inherit {again : Reentry} {stop parent : Nat} {c : Control} {w' w'' : World} (body : Body w t none [] w')
      (next : w'.next? = some .inherit) (onTop : typeOnTop w' = some t) (below : typeBelow w' = some parent)
      (ran : cycle again stop w' = .ok c w'') : Body w t (some (w'.heap.userType parent)) [] w''
  | add {again : Reentry} {stop : Nat} {parent : Option UserType} {own : List Part} {i : Instruction} {p : Part}
      {c : Control} {w' w'' : World} (body : Body w t parent own w') (next : w'.next? = some i)
      (into : changedBy w' i = some (.part t)) (part : w'.part? i = some p)
      (ran : cycle again stop w' = .ok c w'') : Body w t parent (own ++ [p]) w''

namespace Body

variable {t : Nat} {parent : Option UserType} {own : List Part} {w w' w'' : World}

theorem bare_of_edit {h h' : Heap} (edit : h.Edit (· ≠ .part t) Heap.SparesTypes h') {r : UserType}
    (found : h.types[t]? = some r) : ∃ r', h'.types[t]? = some r' ∧ r'.bare = r.bare := by
  have updated (ref : Nat) (f : UserType → UserType) (same : ref = t → (f r).bare = r.bare) :
      ∃ r', (h.updateType ref f).types[t]? = some r' ∧ r'.bare = r.bare := by
    rw [Heap.types_updateType, found]
    by_cases here : ref = t
    · exact ⟨f r, if_pos here, same here⟩
    · exact ⟨r, if_neg here, rfl⟩
  cases edit with
  | addType u =>
    refine ⟨r, ?_, rfl⟩
    change (h.types.push u)[t]? = some r
    grind
  | updateType ref f statics flags admitted => exact updated ref f fun here => absurd (here ▸ rfl) admitted
  | restrictType ref f sets => exact updated ref _ fun _ => rfl
  | storeType ref name v allowed => exact updated ref _ fun _ => rfl
  | declare ref name v admitted => exact updated ref _ fun _ => rfl
  | host h' subject => exact subject t r found
  | _ => exact ⟨r, found, rfl⟩

theorem bare_of_between (between : w.Between t w') {r : UserType} (found : w.heap.types[t]? = some r) :
    ∃ r', w'.heap.types[t]? = some r' ∧ r'.bare = r.bare := by
  induction between with
  | refl => exact ⟨r, found, rfl⟩
  | tail _ edit ih =>
    obtain ⟨r', found', bare'⟩ := ih
    cases edit with
    | machine m => exact ⟨r', found', bare'⟩
    | heap h edit =>
      obtain ⟨r'', found'', bare''⟩ := bare_of_edit edit found'
      exact ⟨r'', found'', bare''.trans bare'⟩

/-- What lies between the instructions of a body can be any cycle that changes no part of the type,
whatever it calls. -/
theorem cycle {again : Reentry} {stop : Nat} (body : Body w t parent own w')
    (reenters : Reedits (· ≠ .part t) Heap.SparesTypes again) (heeds : w'.Heeds Heap.SparesTypes)
    (allows : w'.Allows (· ≠ .part t)) : Body w t parent own ((Run.cycle again stop).after w') :=
  body.between (reenters.cycle heeds allows)

/-- In the course of a body the type has what was added to it so far. -/
theorem has (body : Body w t parent own w') :
    ∃ r, w'.heap.types[t]? = some r ∧ r.Has parent own := by
  induction body with
  | @declare _ _ kind index _ _ next fresh ran =>
    obtain ⟨ip, ran⟩ := cycle_ok next ran
    obtain ⟨⟨⟩, w₁, ran, rest⟩ := bind_ok (x := declareType kind index) ran
    cases rest
    obtain ⟨s, w₂, hs, ran⟩ := bind_ok (x := name index) ran
    obtain ⟨rfl, -⟩ := name_ok_iff hs
    cases ran
    refine ⟨{ name := s, kind }, ?_, .new s kind⟩
    subst fresh
    exact Array.getElem?_push_size
  | between _ other ih =>
    obtain ⟨r, found, has⟩ := ih
    obtain ⟨r', found', bare⟩ := bare_of_between other found
    exact ⟨r', found', has.of_bare bare⟩
  | @inherit _ _ ref _ w' _ _ next onTop below ran ih =>
    obtain ⟨r, found, has⟩ := ih
    obtain ⟨ip, ran⟩ := cycle_ok next ran
    obtain ⟨⟨⟩, w₁, ran, rest⟩ := bind_ok (x := Run.inherit) ran
    cases rest
    refine ⟨r.inherit ref (w'.heap.userType ref), ?_, has.inherit ref (w'.heap.userType ref)⟩
    rw [inherit_ok (w := w'.moved ip) onTop below ran, Heap.types_updateType, if_pos rfl, World.heap_moved, found]
    rfl
  | @add again stop _ _ i p _ w' _ _ next into part ran ih =>
    obtain ⟨r, found, has⟩ := ih
    obtain ⟨ip, ran⟩ := cycle_ok next ran
    obtain ⟨count, rfl⟩ | rfl | plain := step_cases i
    · cases part
    · cases part
    rw [plain] at ran
    obtain ⟨⟨⟩, w₁, ran, rest⟩ := bind_ok (x := Run.plain again i) ran
    cases rest
    refine ⟨p.addTo r, ?_, has.addTo p⟩
    rw [plain_part (w := w'.moved ip) into ((part?_moved ip).trans part) ran, Heap.types_updateType, if_pos rfl, World.heap_moved, found]
    rfl

end Body

/-- What a type has when the mixins are added. -/
theorem UserType.Has.absorbAll {parent : Option UserType} {own : List Part} {t : UserType} (h : t.Has parent own)
    (ms : List UserType) :
    (∀ name, (absorbAll ms t).method? name =
      ((own.reverse.findSome? (Part.defines? name)).or (parent.bind (·.method? name))).or
        (ms.findSome? (·.method? name))) ∧
    (absorbAll ms t).fields =
      (parent.elim [] (·.fields) ++ own.filterMap Part.field? ++ ms.flatMap (·.fields)).eraseDups ∧
    (absorbAll ms t).initChains =
      ms.flatMap (·.initChains) ++ (parent.elim [] (·.initChains) ++ own.filterMap Part.chain?) ∧
    (absorbAll ms t).contracts = own.filterMap Part.contract? ++ ms.flatMap (·.contracts) := by
  refine ⟨fun name => ?_, ?_, ?_, ?_⟩
  · change (ms.foldl absorb t).method? name = _
    rw [method?_absorb, h.methods]
  · change (ms.foldl absorb t).fields = _
    rw [fields_absorb, h.fields, addNames_eraseDups]
  · change (ms.map (·.initChains)).flatten ++ (ms.foldl absorb t).initChains = _
    rw [initChains_absorb, h.initChains, List.flatMap_def]
  · change (ms.foldl absorb t).contracts = _
    rw [contracts_absorb, h.contracts]

/-- **Members of finished types.** A type that is declared, has inherited from `parent` or from none,
and has got the parts `own`, has when it is finished: under each name its own last definition, else the
method of its parent as it was inherited, else that of the first mixin that has one; the fields of its
parent, its own and those of its mixins, each at its first place; the init chains of its mixins, of its
parent and its own; and its own contracts and those of its mixins, and it meets them all. -/
theorem finished_members {again : Reentry} {stop t : Nat} {c : Control} {w w' w'' : World}
    {parent : Option UserType} {own : List Part} (body : Body w t parent own w')
    (next : w'.next? = some .finishType) (onTop : typeOnTop w' = some t)
    (ran : cycle again stop w' = .ok c w'') :
    let mixins := (own.filterMap Part.mixin?).map w'.heap.userType
    let made := w''.heap.userType t
    (∀ name, made.method? name =
      ((own.reverse.findSome? (Part.defines? name)).or (parent.bind (·.method? name))).or
        (mixins.findSome? (·.method? name))) ∧
    made.fields =
      (parent.elim [] (·.fields) ++ own.filterMap Part.field? ++ mixins.flatMap (·.fields)).eraseDups ∧
    made.initChains =
      mixins.flatMap (·.initChains) ++ (parent.elim [] (·.initChains) ++ own.filterMap Part.chain?) ∧
    made.contracts = own.filterMap Part.contract? ++ mixins.flatMap (·.contracts) ∧
    ∀ contract ∈ made.contracts, ∀ name required,
      (w''.heap.userType contract).method? name = some required →
      ∃ provided, made.method? name = some provided ∧
        w''.heap.standsIn required provided = .ok () := by
  obtain ⟨r, found, has⟩ := body.has
  obtain ⟨ip, ran⟩ := cycle_ok next ran
  obtain ⟨⟨⟩, w₁, ran, rest⟩ := bind_ok (x := finishType) ran
  cases rest
  obtain ⟨met, heap⟩ := finishType_ok (w := w'.moved ip) onTop ran
  have here : w'.heap.userType t = r := by
    rw [Heap.userType, found]
    rfl
  rw [World.heap_moved, here, has.mixins] at met heap
  have absorbed (ms : List UserType) :
      (w'.heap.updateType t (absorbAll ms)).types[t]? = some (absorbAll ms r) := by
    rw [Heap.types_updateType, if_pos rfl, found]
    rfl
  rw [Heap.userType, absorbed] at met
  obtain ⟨⟨flags, made⟩, contracts_met⟩ := Heap.met_of_restricted (absorbed _) (fun u => ⟨_, rfl⟩) met
  obtain ⟨methods, fields, initChains, contracts⟩ := has.absorbAll
    ((own.filterMap Part.mixin?).map w'.heap.userType)
  dsimp only
  rw [heap, made]
  exact ⟨methods, fields, initChains, contracts, contracts_met⟩

/-- A script that declares a type with a parent, a mixin, a contract, a method and a field. -/
def declaration : Script where
  hash := ""
  chunks := #[{
    name := "declaration", source := "", chain := "declaration", kind := .script
    constants := #[.string "A", .string "P", .string "M", .string "f", .string "m", .string "z"]
    code := #[.declareType .classKind 0, .defineGlobal 0, .getGlobal 1, .getGlobal 0, .inherit,
      .getGlobal 0, .getGlobal 2, .mixin, .getGlobal 1, .signs, .getGlobal 3, .method 4, .field 5,
      .finishType] }]
  top := .listed 0
  diagnostics := #[]

/-- No way back into the machine. -/
def unable : Reentry := ⟨fun _ _ => throw .outOfFuel, fun _ => throw .outOfFuel⟩

/-- That script after so many cycles, where there are a parent, a mixin and a function. -/
def declaring : Nat → World
  | 0 => {
    heap := {
      scripts := #[declaration], closures := #[⟨⟨0, 0⟩, #[]⟩]
      types := #[
        { name := "P", kind := .classKind, methods := Table.ofList [("m", .null)], fields := ["x"]
          initChains := [.bool false] },
        { name := "M", kind := .classKind, methods := Table.ofList [("m", .null), ("n", .closure 0)]
          fields := ["z", "y"], initChains := [.bool true] }] }
    machine := {
      frames := #[{ closure := 0, base := 0 }]
      globals := Table.ofList [("P", .userType 0), ("M", .userType 1), ("f", .closure 0)] } }
  | n + 1 => (cycle unable 0).after (declaring n)

theorem unable_reedits {may : Change → Prop} {host : Heap → Heap → Prop} : Reedits may host unable :=
  ⟨fun _ _ => .throw _, fun _ => .throw _⟩

theorem declaring_heeds (n : Nat) : (declaring n).Heeds Heap.SparesTypes := by
  induction n with
  | zero =>
    intro ref
    have core : (declaring 0).native ref = .core .print := by
      simp [declaring, World.native]
      rfl
    rw [core]
    trivial
  | succ n ih =>
    have edited : (declaring n).Edited (fun _ => True) Heap.SparesTypes (declaring (n + 1)) :=
      unable_reedits.cycle ih fun _ _ _ _ => trivial
    exact edited.heeds ih

theorem declaring_ran {n : Nat} (goes : succeeds (cycle unable 0) (declaring n)) : ∃ c, cycle unable 0 (declaring n) = .ok c (declaring (n + 1)) :=
  ok_after goes

theorem declaring_between {t n : Nat} {i : Instruction} {w : World} {parent : Option UserType} {own : List Part}
    (next : (declaring n).next? = some i) (spares : changedBy (declaring n) i = none)
    (body : Body w t parent own (declaring n)) : Body w t parent own (declaring (n + 1)) := by
  refine body.cycle unable_reedits (declaring_heeds n) fun i' c next' changed => ?_
  obtain rfl : i = i' := Option.some.inj (next.symm.trans next')
  rw [spares] at changed
  cases changed

theorem declaring_body : Body (declaring 0) 2 (some ((declaring 4).heap.userType 0))
    [.mixin 1, .contract 0, .method "m" (.closure 0), .field "z"] (declaring 13) := by
  have between {n : Nat} {parent : Option UserType} {own : List Part} (i : Instruction)
      (next : (declaring n).next? = some i) (spares : changedBy (declaring n) i = none)
      (body : Body (declaring 0) 2 parent own (declaring n)) :
      Body (declaring 0) 2 parent own (declaring (n + 1)) := declaring_between next spares body
  have add {n : Nat} {parent : Option UserType} {own : List Part} (i : Instruction) (p : Part)
      (next : (declaring n).next? = some i) (into : changedBy (declaring n) i = some (.part 2))
      (part : (declaring n).part? i = some p) (goes : _)
      (body : Body (declaring 0) 2 parent own (declaring n)) :
      Body (declaring 0) 2 parent (own ++ [p]) (declaring (n + 1)) :=
    body.add next into part (declaring_ran goes).choose_spec
  have first : (declaring 0).next? = some (.declareType .classKind 0) := by decide +kernel
  have declared : Body (declaring 0) 2 none [] (declaring 1) :=
    .declare first rfl (declaring_ran (by decide +kernel)).choose_spec
  have named : Body (declaring 0) 2 none [] (declaring 4) :=
    between (.getGlobal 0) (by decide +kernel) (by decide +kernel) <|
      between (.getGlobal 1) (by decide +kernel) (by decide +kernel) <|
        between (.defineGlobal 0) (by decide +kernel) (by decide +kernel) declared
  have inherited : Body (declaring 0) 2 (some ((declaring 4).heap.userType 0)) [] (declaring 5) :=
    named.inherit (by decide +kernel) (by decide +kernel) (by decide +kernel)
      (declaring_ran (by decide +kernel)).choose_spec
  have mixed := add .mixin (.mixin 1) (by decide +kernel) (by decide +kernel) (by decide +kernel)
    (by decide +kernel) <|
      between (.getGlobal 2) (by decide +kernel) (by decide +kernel) <|
        between (.getGlobal 0) (by decide +kernel) (by decide +kernel) inherited
  have signed := add .signs (.contract 0) (by decide +kernel) (by decide +kernel) (by decide +kernel)
    (by decide +kernel) <| between (.getGlobal 1) (by decide +kernel) (by decide +kernel) mixed
  have defined := add (.method 4) (.method "m" (.closure 0)) (by decide +kernel) (by decide +kernel)
    (by decide +kernel) (by decide +kernel) <|
      between (.getGlobal 3) (by decide +kernel) (by decide +kernel) signed
  exact add (.field 5) (.field "z") (by decide +kernel) (by decide +kernel) (by decide +kernel)
    (by decide +kernel) defined

theorem finished_members_declaring :
    (declaring 13).next? = some .finishType ∧ typeOnTop (declaring 13) = some 2 ∧
      (∃ c, cycle unable 0 (declaring 13) = .ok c (declaring 14)) ∧
      let made := (declaring 14).heap.userType 2
      made.method? "m" = some (.closure 0) ∧ made.fields = ["x", "z", "y"] ∧
        made.initChains = [.bool true, .bool false] ∧ made.contracts = [0] := by
  have next : (declaring 13).next? = some .finishType := by decide +kernel
  have onTop : typeOnTop (declaring 13) = some 2 := by decide +kernel
  obtain ⟨c, ran⟩ := declaring_ran (n := 13) (by decide +kernel)
  obtain ⟨methods, fields, initChains, contracts, -⟩ := finished_members declaring_body next onTop ran
  refine ⟨next, onTop, ⟨c, ran⟩, (methods "m").trans ?_, fields.trans ?_, initChains.trans ?_,
    contracts.trans ?_⟩
  · rfl
  all_goals decide +kernel

end ScriptEngine
