import ScriptEngine.Engine.Error

/-!
# Host values and script values

`ToValue` makes a value from something of the host, `OfValue` reads it back.
Scripts have one type of number, so reading an integer is refused when the
number has a fraction or lies outside the type; beyond 2 ^ 53 not every integer
is a number, so reading stops there.
-/
namespace ScriptEngine

class ToValue (α : Type) where
  toValue : α → Heap → Value × Heap

class OfValue (α : Type) where
  ofValue : Heap → Value → Except EngineError α

export ToValue (toValue)
export OfValue (ofValue)

/-- A number of the 32-bit format, kept as the number of the same value. -/
structure Single where
  number : Number
  deriving DecidableEq, Repr

namespace Single

def ofNumber (x : Number) : Single := ⟨x.narrow⟩

end Single

namespace Convert

def mismatch {α : Type} (expected : String) (v : Value) : Except EngineError α :=
  .error (.type expected v.kindName)

/-! ## From the host -/

instance : ToValue Value := ⟨fun v h => (v, h)⟩

instance : ToValue Unit := ⟨fun _ h => (.null, h)⟩

instance : ToValue Bool := ⟨fun b h => (.bool b, h)⟩

instance : ToValue Number := ⟨fun x h => (.number x, h)⟩

instance : ToValue Single := ⟨fun x h => (.number x.number, h)⟩

instance : ToValue Int32 := ⟨fun n h => (.number (.ofInt n.toInt), h)⟩

instance : ToValue Int64 := ⟨fun n h => (.number (.ofInt n.toInt), h)⟩

instance : ToValue UInt64 := ⟨fun n h => (.number (.ofNat n.toNat), h)⟩

instance : ToValue String := ⟨fun s h => (.string s, h)⟩

def optionValue {α : Type} [ToValue α] : Option α → Heap → Value × Heap
  | some a, h => toValue a h
  | none, h => (.null, h)

instance {α : Type} [ToValue α] : ToValue (Option α) := ⟨optionValue⟩

def listValues {α : Type} [ToValue α] : List α → Heap → List Value × Heap
  | [], h => ([], h)
  | a :: rest, h =>
    let (v, h) := toValue a h
    let (vs, h) := listValues rest h
    (v :: vs, h)

instance {α : Type} [ToValue α] : ToValue (List α) where
  toValue xs h :=
    let (vs, h) := listValues xs h
    h.addList vs.toArray

def tableEntries {α : Type} [ToValue α] :
    List (String × α) → Heap → List (MapKey × Value) × Heap
  | [], h => ([], h)
  | (k, a) :: rest, h =>
    let (v, h) := toValue a h
    let (es, h) := tableEntries rest h
    ((.string k, v) :: es, h)

instance {α : Type} [ToValue α] : ToValue (Table String α) where
  toValue t h :=
    let (es, h) := tableEntries t.toList h
    h.addMap (Table.ofList es)

/-! ## To the host -/

instance : OfValue Value := ⟨fun _ v => .ok v⟩

def unitOf : Value → Except EngineError Unit
  | .null => .ok ()
  | v => mismatch "null" v

instance : OfValue Unit := ⟨fun _ => unitOf⟩

def boolOf : Value → Except EngineError Bool
  | .bool b => .ok b
  | v => mismatch "bool" v

instance : OfValue Bool := ⟨fun _ => boolOf⟩

def numberOf : Value → Except EngineError Number
  | .number x => .ok x
  | v => mismatch "number" v

instance : OfValue Number := ⟨fun _ => numberOf⟩

def singleOf (v : Value) : Except EngineError Single := do
  let x ← numberOf v
  let narrow := Single.ofNumber x
  if narrow.number.isInfinite && x.isFinite then
    .error (.type "number within f32 range" x.digitsText)
  else .ok narrow

instance : OfValue Single := ⟨fun _ => singleOf⟩

/-- An integer within bounds. -/
def integerOf (expected : String) (low high : Int) (v : Value) : Except EngineError Int := do
  let x ← numberOf v
  match x.integer? with
  | some n => if low ≤ n ∧ n ≤ high then .ok n else .error (.type expected x.text)
  | none => .error (.type expected x.text)

instance : OfValue Int64 :=
  ⟨fun _ v => Int64.ofInt <$> integerOf "integer" (-(2 ^ 53)) (2 ^ 53) v⟩

instance : OfValue Int32 :=
  ⟨fun _ v => Int32.ofInt <$> integerOf "i32 integer" (-(2 ^ 31)) (2 ^ 31 - 1) v⟩

instance : OfValue UInt64 :=
  ⟨fun _ v =>
    (fun n => UInt64.ofNat n.toNat) <$> integerOf "non-negative integer" 0 (2 ^ 32 - 1) v⟩

def stringOf : Value → Except EngineError String
  | .string s => .ok s
  | v => mismatch "string" v

instance : OfValue String := ⟨fun _ => stringOf⟩

def optionOf {α : Type} [OfValue α] (h : Heap) : Value → Except EngineError (Option α)
  | .null => .ok none
  | v => some <$> ofValue h v

instance {α : Type} [OfValue α] : OfValue (Option α) := ⟨optionOf⟩

def listOf {α : Type} [OfValue α] (h : Heap) : Value → Except EngineError (List α)
  | .list ref => (h.list ref).toList.mapM (ofValue h)
  | v => mismatch "list" v

instance {α : Type} [OfValue α] : OfValue (List α) := ⟨listOf⟩

def textKey : MapKey → Except EngineError String
  | .string s => .ok s
  | k => mismatch "string map key" k.toValue

def tableOf {α : Type} [OfValue α] (h : Heap) : Value → Except EngineError (Table String α)
  | .map ref => do
    let entries ← (h.map ref).toList.mapM fun (k, v) => do
      let name ← textKey k
      return (name, ← ofValue h v)
    return Table.ofList entries
  | v => mismatch "map" v

instance {α : Type} [OfValue α] : OfValue (Table String α) := ⟨tableOf⟩

end Convert

end ScriptEngine
