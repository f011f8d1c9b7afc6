import ScriptEngine.Proofs.Building
import ScriptEngine.Proofs.Regions

/-!
# What a machine knows

A closure is a number, and code is found behind it only if it was made before. In a
sound world every closure that can be got hold of was made: from the heap, from the
stack, by a global name, from the registry. The code behind it is that of a compiled
script, as is what waits to be run, and an init chain takes no arguments. Changes of the heap are sound if they
store nothing but what is known.
-/
namespace ScriptEngine

namespace Value

/-- Among so many closures, if it is one at all. -/
def Within (n : Nat) (v : Value) : Prop := ∀ r, v = closure r → r < n

def isPlain : Value → Bool
  | closure _ => false
  | _ => true

variable {n m : Nat} {v : Value}

theorem Within.mono (h : v.Within n) (le : n ≤ m) : v.Within m := fun r hr => Nat.lt_of_lt_of_le (h r hr) le

theorem within_of_isPlain (plain : v.isPlain) : v.Within n := by
  rintro r rfl
  cases plain

end Value

/-- A value that is thrown was known where it was thrown. -/
def Failure.Within (n : Nat) (f : Failure) : Prop := ∀ v, f.error = .thrown v → v.Within n

/-- What is within reach once some values are. -/
def Known (K : Set Value) (v : Value) : Prop := ∀ n, (∀ u ∈ K, u.Within n) → v.Within n

namespace Known

variable {K L : Set Value} {v : Value}

theorem mem (h : v ∈ K) : Known K v := fun _ known => known v h

theorem plain (h : v.isPlain) : Known K v := fun _ _ => Value.within_of_isPlain h

theorem mono (h : Known K v) (sub : K ⊆ L) : Known L v := fun n known => h n fun u hu => known u (sub hu)

theorem left (h : Known K v) : Known (K ∪ L) v := h.mono Set.subset_union_left

theorem right (h : v ∈ L) : Known (K ∪ L) v := .mem (.inr h)

end Known

/-! ## What a heap holds -/

inductive UserType.Holds (t : UserType) (v : Value) : Prop
  | method (name : String) (found : t.method? name = some v)
  | static (name : String) (found : t.static? name = some v)
  | chain (mem : v ∈ t.initChains)

namespace Heap

/-- What can be got from a heap. -/
inductive Offers (h : Heap) (v : Value) : Prop
  | plain (plain : v.isPlain)
  | cell (mem : .closed v ∈ h.cells)
  | type {t : UserType} (mem : t ∈ h.types) (held : t.Holds v)
  | field {o : Object} {name : String} (mem : o ∈ h.objects) (found : o.fields.get? name = some v)
  | receiver {b : BoundMethod} (mem : b ∈ h.bounds) (same : b.receiver = v)
  | method {b : BoundMethod} (mem : b ∈ h.bounds) (same : b.method = v)
  | part {vs : List Value} (mem : vs ∈ h.combinations) (part : v ∈ vs)
  | item {vs : Array Value} (mem : vs ∈ h.lists) (item : v ∈ vs)
  | entry {t : Table MapKey Value} {k : MapKey} (mem : t ∈ h.maps) (found : t.get? k = some v)

/-- What stands among the init chains of a type. -/
def Chains (h : Heap) (v : Value) : Prop := ∃ t ∈ h.types, v ∈ t.initChains

end Heap

/-- A script that some source makes. -/
def Script.Compiled (s : Script) : Prop := ∃ tokens scriptName, Script.Made tokens scriptName s

theorem Script.compiled_ofSource {source scriptName : String} {s : Script} (made : ofSource source scriptName = .ok s) :
    s.Compiled := by
  have made' := made
  unfold ofSource at made'
  split at made'
  · next tokens cut => exact ⟨tokens, scriptName, .inr ⟨source, cut, made⟩⟩
  · cases made'

/-- Offsets of the chunks fit the words that labels are kept in. -/
def Script.Small (s : Script) : Prop := ∀ c ∈ s.chunks, c.code.size < 2 ^ 32

structure Heap.Sound (h : Heap) : Prop where
  scripts : ∀ s ∈ h.scripts, s.Compiled
  small : ∀ s ∈ h.scripts, s.Small
  closures : ∀ c ∈ h.closures, ∃ s d, h.scripts[c.chunk.script]? = some s ∧ s.chunks[c.chunk.index]? = some d
  offers : ∀ v, h.Offers v → v.Within h.closures.size
  chains : ∀ r, h.Chains (.closure r) → (h.code r).arity = 0

namespace Heap

variable {h : Heap} {v : Value} {ref : Nat}

theorem getD_mem {α : Type} {xs : Array α} {d : α} {P : α → Prop} (default_ : P d) (each : ∀ x ∈ xs, P x) (i : Nat) :
    P ((xs[i]?).getD d) := by
  cases found : xs[i]? with
  | none => exact default_
  | some x => exact each x (Array.mem_of_getElem? found)

theorem offers_cell (found : h.cell ref = .closed v) : h.Offers v := by
  refine getD_mem (P := fun c => c = Cell.closed v → h.Offers v) ?_ (fun c mem same => ?_) ref found
  · rintro ⟨⟩
    exact .plain rfl
  · subst same
    exact .cell mem

theorem offers_type (held : (h.userType ref).Holds v) : h.Offers v := by
  refine getD_mem (P := fun t => t.Holds v → h.Offers v) ?_ (fun t mem held => .type mem held) ref held
  rintro (⟨name, found⟩ | ⟨name, found⟩ | mem)
  · cases found
  · cases found
  · cases mem

theorem chains_type (mem : v ∈ (h.userType ref).initChains) : h.Chains v :=
  getD_mem (P := fun t => v ∈ t.initChains → h.Chains v) (by rintro ⟨⟩) (fun t mem chain => ⟨t, mem, chain⟩) ref mem

theorem Chains.offers (chain : h.Chains v) : h.Offers v := by
  obtain ⟨t, mem, chain⟩ := chain
  exact .type mem (.chain chain)

theorem offers_field {name : String} (found : (h.object ref).fields.get? name = some v) : h.Offers v :=
  getD_mem (P := fun o => o.fields.get? name = some v → h.Offers v) (by rintro ⟨⟩)
    (fun o mem found => .field mem found) ref found

theorem offers_method {o : Object} {name : String} (found : h.method? o name = some v) : h.Offers v := by
  unfold method? at found
  split at found
  · exact offers_type (.method name found)
  · cases found

theorem offers_receiver : h.Offers (h.boundMethod ref).receiver :=
  getD_mem (P := fun b => h.Offers b.receiver) (.plain rfl) (fun _ mem => .receiver mem rfl) ref

theorem offers_bound : h.Offers (h.boundMethod ref).method :=
  getD_mem (P := fun b => h.Offers b.method) (.plain rfl) (fun _ mem => .method mem rfl) ref

theorem offers_part (mem : v ∈ h.combination ref) : h.Offers v :=
  getD_mem (P := fun vs => v ∈ vs → h.Offers v) (by rintro ⟨⟩) (fun _ mem part => .part mem part) ref mem

theorem offers_item (mem : v ∈ h.list ref) : h.Offers v :=
  getD_mem (P := fun vs => v ∈ vs → h.Offers v) (by simp) (fun _ mem item => .item mem item) ref mem

theorem offers_entry {k : MapKey} (found : (h.map ref).get? k = some v) : h.Offers v :=
  getD_mem (P := fun t => t.get? k = some v → h.Offers v) (by rintro ⟨⟩) (fun _ mem found => .entry mem found) ref found

/-- Neither scripts nor closures are offered by themselves. -/
theorem Offers.bare {scripts : Array Script} {closures : Array Closure}
    (offers : ({ h with scripts, closures } : Heap).Offers v) : h.Offers v := by
  cases offers with
  | plain plain => exact .plain plain
  | cell mem => exact .cell mem
  | type mem held => exact .type mem held
  | field mem found => exact .field mem found
  | receiver mem same => exact .receiver mem same
  | method mem same => exact .method mem same
  | part mem part => exact .part mem part
  | item mem item => exact .item mem item
  | entry mem found => exact .entry mem found

/-! ## Changes that store what is known -/

/-- A heap that has nothing new but what is known once the values of `K` are. -/
structure Gains (K : Set Value) (h h' : Heap) : Prop where
  scripts : h'.scripts = h.scripts
  closures : h'.closures = h.closures
  offers : ∀ v, h'.Offers v → h.Offers v ∨ Known K v
  chains : ∀ r, h'.Chains (.closure r) → h.Chains (.closure r) ∨ (h.code r).arity = 0

variable {K : Set Value} {h' : Heap}

theorem Gains.refl (K : Set Value) (h : Heap) : h.Gains K h := ⟨rfl, rfl, fun _ => .inl, fun _ => .inl⟩

theorem Gains.code (gains : h.Gains K h') (r : Nat) : h'.code r = h.code r := by
  unfold Heap.code Heap.closure Heap.chunk
  rw [gains.scripts, gains.closures]

theorem Sound.gains (sound : h.Sound) (known : ∀ v ∈ K, v.Within h.closures.size) (gains : h.Gains K h') :
    h'.Sound where
  scripts := gains.scripts ▸ sound.scripts
  small := gains.scripts ▸ sound.small
  closures := by
    rw [gains.closures, gains.scripts]
    exact sound.closures
  offers v offers := by
    rw [gains.closures]
    exact (gains.offers v offers).elim (sound.offers v) fun v => v _ known
  chains r chain := gains.code r ▸ (gains.chains r chain).elim (sound.chains r) id

theorem gains_cells {cells : Array Cell} (each : ∀ v, .closed v ∈ cells → h.Offers v ∨ Known K v) :
    h.Gains K { h with cells } := by
  refine ⟨rfl, rfl, fun v offers => ?_, fun _ => .inl⟩
  cases offers with
  | cell mem => exact each v mem
  | plain plain => exact .inl (.plain plain)
  | type mem held => exact .inl (.type mem held)
  | field mem found => exact .inl (.field mem found)
  | receiver mem same => exact .inl (.receiver mem same)
  | method mem same => exact .inl (.method mem same)
  | part mem part => exact .inl (.part mem part)
  | item mem item => exact .inl (.item mem item)
  | entry mem found => exact .inl (.entry mem found)

theorem gains_types {types : Array UserType} (each : ∀ t ∈ types, ∀ v, t.Holds v → h.Offers v ∨ Known K v)
    (chains : ∀ t ∈ types, ∀ r, .closure r ∈ t.initChains → h.Chains (.closure r) ∨ (h.code r).arity = 0) :
    h.Gains K { h with types } := by
  refine ⟨rfl, rfl, fun v offers => ?_, fun r ⟨t, mem, chain⟩ => chains t mem r chain⟩
  cases offers with
  | type mem held => exact each _ mem v held
  | plain plain => exact .inl (.plain plain)
  | cell mem => exact .inl (.cell mem)
  | field mem found => exact .inl (.field mem found)
  | receiver mem same => exact .inl (.receiver mem same)
  | method mem same => exact .inl (.method mem same)
  | part mem part => exact .inl (.part mem part)
  | item mem item => exact .inl (.item mem item)
  | entry mem found => exact .inl (.entry mem found)

theorem gains_objects {objects : Array Object}
    (each : ∀ o ∈ objects, ∀ name v, o.fields.get? name = some v → h.Offers v ∨ Known K v) :
    h.Gains K { h with objects } := by
  refine ⟨rfl, rfl, fun v offers => ?_, fun _ => .inl⟩
  cases offers with
  | field mem found => exact each _ mem _ v found
  | plain plain => exact .inl (.plain plain)
  | cell mem => exact .inl (.cell mem)
  | type mem held => exact .inl (.type mem held)
  | receiver mem same => exact .inl (.receiver mem same)
  | method mem same => exact .inl (.method mem same)
  | part mem part => exact .inl (.part mem part)
  | item mem item => exact .inl (.item mem item)
  | entry mem found => exact .inl (.entry mem found)

theorem gains_addBound {receiver method : Value} (known : Known K receiver)
    (known' : h.Offers method ∨ Known K method) :
    h.Gains K (h.addBound receiver method).2 := by
  refine ⟨rfl, rfl, fun v offers => ?_, fun _ => .inl⟩
  cases offers with
  | receiver mem same =>
    rcases Array.mem_push.mp mem with mem | rfl
    · exact .inl (.receiver mem same)
    · exact .inr (same ▸ known)
  | method mem same =>
    rcases Array.mem_push.mp mem with mem | rfl
    · exact .inl (.method mem same)
    · exact same ▸ known'
  | plain plain => exact .inl (.plain plain)
  | cell mem => exact .inl (.cell mem)
  | type mem held => exact .inl (.type mem held)
  | field mem found => exact .inl (.field mem found)
  | part mem part => exact .inl (.part mem part)
  | item mem item => exact .inl (.item mem item)
  | entry mem found => exact .inl (.entry mem found)

theorem gains_addCombination {parts : List Value} (each : ∀ v ∈ parts, h.Offers v ∨ Known K v) :
    h.Gains K (h.addCombination parts).2 := by
  refine ⟨rfl, rfl, fun v offers => ?_, fun _ => .inl⟩
  cases offers with
  | part mem part =>
    rcases Array.mem_push.mp mem with mem | rfl
    · exact .inl (.part mem part)
    · exact each v part
  | plain plain => exact .inl (.plain plain)
  | cell mem => exact .inl (.cell mem)
  | type mem held => exact .inl (.type mem held)
  | field mem found => exact .inl (.field mem found)
  | receiver mem same => exact .inl (.receiver mem same)
  | method mem same => exact .inl (.method mem same)
  | item mem item => exact .inl (.item mem item)
  | entry mem found => exact .inl (.entry mem found)

theorem gains_lists {lists : Array (Array Value)} (each : ∀ vs ∈ lists, ∀ v ∈ vs, h.Offers v ∨ Known K v) :
    h.Gains K { h with lists } := by
  refine ⟨rfl, rfl, fun v offers => ?_, fun _ => .inl⟩
  cases offers with
  | item mem item => exact each _ mem v item
  | plain plain => exact .inl (.plain plain)
  | cell mem => exact .inl (.cell mem)
  | type mem held => exact .inl (.type mem held)
  | field mem found => exact .inl (.field mem found)
  | receiver mem same => exact .inl (.receiver mem same)
  | method mem same => exact .inl (.method mem same)
  | part mem part => exact .inl (.part mem part)
  | entry mem found => exact .inl (.entry mem found)

theorem gains_maps {maps : Array (Table MapKey Value)}
    (each : ∀ t ∈ maps, ∀ k v, t.get? k = some v → h.Offers v ∨ Known K v) : h.Gains K { h with maps } := by
  refine ⟨rfl, rfl, fun v offers => ?_, fun _ => .inl⟩
  cases offers with
  | entry mem found => exact each _ mem _ v found
  | plain plain => exact .inl (.plain plain)
  | cell mem => exact .inl (.cell mem)
  | type mem held => exact .inl (.type mem held)
  | field mem found => exact .inl (.field mem found)
  | receiver mem same => exact .inl (.receiver mem same)
  | method mem same => exact .inl (.method mem same)
  | part mem part => exact .inl (.part mem part)
  | item mem item => exact .inl (.item mem item)

theorem gains_addCell {c : Cell} (known : ∀ v, c = .closed v → Known K v) : h.Gains K (h.addCell c).2 := by
  refine gains_cells fun v mem => ?_
  rcases Array.mem_push.mp mem with mem | same
  · exact .inl (.cell mem)
  · exact .inr (known v same.symm)

theorem gains_setCell (known : Known K v) : h.Gains K (h.setCell ref (.closed v)) := by
  refine gains_cells fun u mem => ?_
  rcases mem_change mem with mem | ⟨c, -, same⟩
  · exact .inl (.cell mem)
  · cases same
    exact .inr known

theorem gains_addType {name : String} {kind : TypeKind} : h.Gains K (h.addType { name, kind }).2 := by
  refine gains_types (fun t mem v held => ?_) fun t mem r chain => ?_
  · rcases Array.mem_push.mp mem with mem | rfl
    · exact .inl (.type mem held)
    · rcases held with ⟨_, found⟩ | ⟨_, found⟩ | mem
      · cases found
      · cases found
      · cases mem
  · rcases Array.mem_push.mp mem with mem | rfl
    · exact .inl ⟨t, mem, chain⟩
    · cases chain

theorem gains_updateType {f : UserType → UserType} (each : ∀ t v, (f t).Holds v → t.Holds v ∨ h.Offers v ∨ Known K v)
    (chains : ∀ t r, .closure r ∈ (f t).initChains →
      .closure r ∈ t.initChains ∨ h.Chains (.closure r) ∨ (h.code r).arity = 0) : h.Gains K (h.updateType ref f) := by
  refine gains_types (fun t mem v held => ?_) fun t mem r chain => ?_
  · obtain mem | ⟨t, mem', rfl⟩ := mem_change mem
    · exact .inl (.type mem held)
    · exact (each t v held).imp_left (.type mem') |>.elim .inl id
  · obtain mem | ⟨t, mem', rfl⟩ := mem_change mem
    · exact .inl ⟨t, mem, chain⟩
    · exact (chains t r chain).elim (fun chain => .inl ⟨t, mem', chain⟩) id

theorem gains_addObject {o : Object} (known : ∀ name v, o.fields.get? name = some v → Known K v) :
    h.Gains K (h.addObject o).2 := by
  refine gains_objects fun o mem name v found => ?_
  rcases Array.mem_push.mp mem with mem | rfl
  · exact .inl (.field mem found)
  · exact .inr (known name v found)

theorem gains_updateObject {f : Object → Object}
    (each : ∀ o name v, (f o).fields.get? name = some v → o.fields.get? name = some v ∨ Known K v) :
    h.Gains K (h.updateObject ref f) := by
  refine gains_objects fun o mem name v found => ?_
  obtain mem | ⟨o, mem', rfl⟩ := mem_change mem
  · exact .inl (.field mem found)
  · exact (each o name v found).imp_left (.field mem')

theorem gains_addList {items : Array Value} (known : ∀ v ∈ items, Known K v) : h.Gains K (h.addList items).2 := by
  refine gains_lists fun vs mem v item => ?_
  rcases Array.mem_push.mp mem with mem | rfl
  · exact .inl (.item mem item)
  · exact .inr (known v item)

theorem gains_updateList {f : Array Value → Array Value} (each : ∀ vs, ∀ v ∈ f vs, v ∈ vs ∨ Known K v) :
    h.Gains K (h.updateList ref f) := by
  refine gains_lists fun vs mem v item => ?_
  obtain mem | ⟨vs, mem', rfl⟩ := mem_change mem
  · exact .inl (.item mem item)
  · exact (each vs v item).imp_left (.item mem')

theorem gains_addMap {t : Table MapKey Value} (known : ∀ k v, t.get? k = some v → Known K v) :
    h.Gains K (h.addMap t).2 := by
  refine gains_maps fun t mem k v found => ?_
  rcases Array.mem_push.mp mem with mem | rfl
  · exact .inl (.entry mem found)
  · exact .inr (known k v found)

theorem gains_updateMap {f : Table MapKey Value → Table MapKey Value}
    (each : ∀ t k v, (f t).get? k = some v → t.get? k = some v ∨ Known K v) : h.Gains K (h.updateMap ref f) := by
  refine gains_maps fun t mem k v found => ?_
  obtain mem | ⟨t, mem', rfl⟩ := mem_change mem
  · exact .inl (.entry mem found)
  · exact (each t k v found).imp_left (.entry mem')

end Heap

theorem Table.get?_insert_cases {κ α : Type} [DecidableEq κ] {t : Table κ α} {k k' : κ} {v u : α}
    (h : (t.insert k v).get? k' = some u) : t.get? k' = some u ∨ u = v := by
  rw [Table.get?_insert] at h
  split at h
  · cases h
    exact .inr rfl
  · exact .inl h

/-! ## Functions of the host -/

/-- A function of the host deals in what it was given, makes neither scripts nor closures, captures no
variable and adds no init chain. -/
def NativeProgram.Fair (n : Nat) : NativeProgram → Prop
  | .finish _ => True
  | .raise f => f.Within n
  | .count next => ∀ k, (next k).Fair n
  | .argument _ next => ∀ v, v.Within n → (next v).Fair n
  | .read next => ∀ h : Heap, h.closures.size = n → (∀ v, h.Offers v → v.Within n) → (next h).Fair n
  | .allocate make next =>
      (∀ h : Heap, (make h).2.scripts = h.scripts ∧ (make h).2.closures = h.closures ∧
        (make h).2.cells = h.cells ∧ (∀ v, (make h).2.Chains v → h.Chains v) ∧
        (h.closures.size = n → (∀ v, h.Offers v → v.Within n) →
          (make h).1.Within n ∧ ∀ v, (make h).2.Offers v → v.Within n)) ∧
      ∀ v, v.Within n → (next v).Fair n
  | .push v next => v.Within n ∧ (next.Fair n)
  | .call callee args next => callee.Within n ∧ (∀ v ∈ args, v.Within n) ∧
      (∀ m, n ≤ m → ∀ results : List Value, (∀ v ∈ results, v.Within m) → (next (.ok results)).Fair m) ∧
      ∀ m, n ≤ m → ∀ f : Failure, f.Within m → (next (.error f)).Fair m
  | .interpret _ next => ∀ m, n ≤ m → next.Fair m

/-- A function of the host is fair from so many closures on. -/
def NativeBody.Fair (n : Nat) : NativeBody → Prop
  | .core _ => True
  | .program steps => ∀ m, n ≤ m → steps.Fair m

theorem NativeBody.Fair.mono {n m : Nat} {body : NativeBody} (h : body.Fair n) (le : n ≤ m) : body.Fair m := by
  cases body with
  | core => trivial
  | program steps => exact fun k hk => h k (Nat.le_trans le hk)

/-! ## Sound worlds -/

/-- What a machine has under a name. -/
inductive Machine.Offers (m : Machine) (v : Value) : Prop
  | global (name : String) (found : m.globals.get? name = some v)
  | registered (name : String) (found : m.registry.get? name = some v)
  | slot (mem : v ∈ m.stack)

def World.closures (w : World) : Nat := w.heap.closures.size

structure World.Sound (w : World) : Prop where
  heap : w.heap.Sound
  offers : ∀ v, w.machine.Offers v → v.Within w.closures
  natives : ∀ ref, (w.native ref).Fair w.closures
  queue : ∀ s ∈ w.machine.queue, s.Compiled

end ScriptEngine
