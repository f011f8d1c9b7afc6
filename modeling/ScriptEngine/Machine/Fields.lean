import ScriptEngine.Machine.Types

/-!
# Properties and elements

A property of an instance is one of its fields or else a method of its type,
bound to the instance; a property of a type is a static member. Lists are
indexed by position, maps by key, strings by character, and instances and types
by the name of a property.
-/
namespace ScriptEngine.Run

/-! ## Properties -/

def undefinedProperty {α : Type} (target : Value) (name : String) : Run α := do
  fail (.undefinedProperty name ((← heap).text target))

def property (target : Value) (name : String) : Run Value := do
  let h ← heap
  match target with
  | .object ref =>
    let o := h.object ref
    match o.fields.get? name with
    | some v => return v
    | none =>
      match h.method? o name with
      | some method => allocate (·.addBound target method)
      | none => undefinedProperty target name
  | .userType ref =>
    match (h.userType ref).static? name with
    | some v => return v
    | none => undefinedProperty target name
  | v => fail (.invalidTarget "property access" "an instance or type" v.kindName)

/-- Stores a field unless the flags of its holder refuse the write. -/
def writeUnless (flags : Flags) (present : Bool) (target : Value) (name : String)
    (write : Heap → Heap) : Run Unit := do
  match flags.refuses present with
  | some .frozen => fail (.frozenWrite name ((← heap).text target))
  | some .readOnly => fail (.readOnlyWrite name ((← heap).text target))
  | none => modifyHeap write

def writeField (target : Value) (name : String) (v : Value) : Run Unit := do
  let h ← heap
  match target with
  | .object ref =>
    let o := h.object ref
    writeUnless o.flags (o.fields.contains name) target name
      (·.updateObject ref fun o => { o with fields := o.fields.insert name v })
  | .userType ref =>
    let t := h.userType ref
    writeUnless t.flags (t.statics.contains name) target name
      (·.updateType ref fun t => { t with statics := t.statics.insert name v })
  | other => fail (.invalidTarget "property assignment" "an instance or type" other.kindName)

def getProperty (index : UInt16) : Run Unit := do
  let name ← name index
  let target ← pop
  push (← property target name)

def setProperty (index : UInt16) : Run Unit := do
  let name ← name index
  let v ← pop
  let target ← pop
  writeField target name v
  push v

def undefinedInSuper {α : Type} (ref : Nat) (name : String) : Run α := do
  fail (.undefinedMethod name s!"supertype '{(← userType ref).name}'")

def getSuper (index : UInt16) : Run Unit := do
  let name ← name index
  let ref ← popType "super"
  let receiver ← pop
  match (← userType ref).method? name with
  | some method => push (← allocate (·.addBound receiver method))
  | none => undefinedInSuper ref name

/-! ## Elements -/

/-- The position that a value stands for in a sequence of so many elements. -/
def position (index : Value) (length : Nat) : Run Nat := do
  let whole : Option Int := match index with
    | .number x => x.integer?
    | _ => none
  match whole with
  | some i =>
    if 0 ≤ i ∧ i < length then return i.toNat
    else fail (.indexOutOfRange ((← heap).text index) length)
  | none => fail (.indexOutOfRange ((← heap).text index) length)

def fieldName : Value → Run String
  | .string s => return s
  | v => fail (.invalidTarget "field index" "a string" v.kindName)

def mapKey (v : Value) : Run MapKey :=
  match MapKey.ofValue? v with
  | some k => return k
  | none => fail (.unhashableKey v.kindName)

def element (target index : Value) : Run Value := do
  match target with
  | .list ref =>
    let items := (← heap).list ref
    let i ← position index items.size
    return (items[i]?).getD .null
  | .map ref =>
    let k ← mapKey index
    return (((← heap).map ref).get? k).getD .null
  | .string s =>
    let cs := s.toList
    let i ← position index cs.length
    return .string (String.ofList ((cs.drop i).take 1))
  | .object _ | .userType _ => property target (← fieldName index)
  | v => fail (.invalidTarget "index" "a list, map, string or object" v.kindName)

def setElement (target index v : Value) : Run Unit := do
  match target with
  | .list ref =>
    let i ← position index ((← heap).list ref).size
    modifyHeap (·.updateList ref (·.setIfInBounds i v))
  | .map ref =>
    let k ← mapKey index
    modifyHeap (·.updateMap ref (·.insert k v))
  | .object _ | .userType _ => writeField target (← fieldName index) v
  | other => fail (.invalidTarget "index assignment" "a list, map or object" other.kindName)

def getIndex : Run Unit := do
  let index ← pop
  let target ← pop
  push (← element target index)

def setIndex : Run Unit := do
  let v ← pop
  let index ← pop
  let target ← pop
  setElement target index v
  push v

/-! ## Literals -/

def buildList (n : UInt16) : Run Unit := do
  let items ← popMany n.toNat
  push (← allocate (·.addList items.toArray))

/-- The entries that keys and values in turn make; a later entry replaces one before it. -/
def entriesOf (entries : Table MapKey Value) : List Value → Run (Table MapKey Value)
  | k :: v :: rest => do entriesOf (entries.insert (← mapKey k) v) rest
  | _ => return entries

def buildMap (n : UInt16) : Run Unit := do
  let flat ← popMany (n.toNat * 2)
  let entries ← entriesOf ∅ flat
  push (← allocate (·.addMap entries))

def newDynamic : Run Unit := do push (← allocate (·.addObject ⟨none, ∅, {}⟩))

end ScriptEngine.Run
