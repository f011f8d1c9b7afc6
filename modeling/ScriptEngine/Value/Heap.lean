import ScriptEngine.Value.Object

/-!
# The heap

Everything that values refer to, by kind. A reference is the place of the thing
among those of its kind; nothing is ever taken away, so a reference stays good.
Each kind has an allocation that returns the new reference, a reader and, where
the thing can change, an update. The reader of a reference that was never
handed out gives an empty thing.
-/
namespace ScriptEngine

structure Heap where
  scripts : Array Script := #[]
  cells : Array Cell := #[]
  closures : Array Closure := #[]
  types : Array UserType := #[]
  objects : Array Object := #[]
  bounds : Array BoundMethod := #[]
  combinations : Array (List Value) := #[]
  lists : Array (Array Value) := #[]
  maps : Array (Table MapKey Value) := #[]
  deriving Inhabited

namespace Heap

/-! ## Reading -/

def chunk (h : Heap) (id : ChunkId) : Chunk :=
  match h.scripts[id.script]? with
  | some s => (s.chunks[id.index]?).getD default
  | none => default

def cell (h : Heap) (ref : Nat) : Cell := (h.cells[ref]?).getD default

def closure (h : Heap) (ref : Nat) : Closure := (h.closures[ref]?).getD default

def userType (h : Heap) (ref : Nat) : UserType := (h.types[ref]?).getD default

def object (h : Heap) (ref : Nat) : Object := (h.objects[ref]?).getD default

def boundMethod (h : Heap) (ref : Nat) : BoundMethod := (h.bounds[ref]?).getD default

def combination (h : Heap) (ref : Nat) : List Value := (h.combinations[ref]?).getD []

def list (h : Heap) (ref : Nat) : Array Value := (h.lists[ref]?).getD #[]

def map (h : Heap) (ref : Nat) : Table MapKey Value := (h.maps[ref]?).getD ∅

/-- The chunk that a closure runs. -/
def code (h : Heap) (closure : Nat) : Chunk := h.chunk (h.closure closure).chunk

/-! ## Allocation -/

/-- Makes the chunks of a script available; the answer names its top chunk. -/
def load (h : Heap) (s : Script) : ChunkId × Heap :=
  let index := match s.top with
    | .listed i => i
    | .stray _ => s.chunks.size
  (⟨h.scripts.size, index⟩, { h with scripts := h.scripts.push s })

def addCell (h : Heap) (c : Cell) : Nat × Heap :=
  (h.cells.size, { h with cells := h.cells.push c })

def addClosure (h : Heap) (c : Closure) : Value × Heap :=
  (.closure h.closures.size, { h with closures := h.closures.push c })

def addType (h : Heap) (t : UserType) : Value × Heap :=
  (.userType h.types.size, { h with types := h.types.push t })

def addObject (h : Heap) (o : Object) : Value × Heap :=
  (.object h.objects.size, { h with objects := h.objects.push o })

def addBound (h : Heap) (receiver method : Value) : Value × Heap :=
  (.bound h.bounds.size, { h with bounds := h.bounds.push ⟨receiver, method⟩ })

def addCombination (h : Heap) (parts : List Value) : Value × Heap :=
  (.combined h.combinations.size, { h with combinations := h.combinations.push parts })

def addList (h : Heap) (items : Array Value) : Value × Heap :=
  (.list h.lists.size, { h with lists := h.lists.push items })

def addMap (h : Heap) (entries : Table MapKey Value) : Value × Heap :=
  (.map h.maps.size, { h with maps := h.maps.push entries })

/-! ## Change -/

/-- Changes the thing that a reference leads to, if there is one. -/
def change {α : Type} (things : Array α) (ref : Nat) (f : α → α) : Array α :=
  things.modify ref f

def setCell (h : Heap) (ref : Nat) (c : Cell) : Heap :=
  { h with cells := change h.cells ref fun _ => c }

def updateType (h : Heap) (ref : Nat) (f : UserType → UserType) : Heap :=
  { h with types := change h.types ref f }

def updateObject (h : Heap) (ref : Nat) (f : Object → Object) : Heap :=
  { h with objects := change h.objects ref f }

def updateList (h : Heap) (ref : Nat) (f : Array Value → Array Value) : Heap :=
  { h with lists := change h.lists ref f }

def updateMap (h : Heap) (ref : Nat) (f : Table MapKey Value → Table MapKey Value) : Heap :=
  { h with maps := change h.maps ref f }

/-! ## Derived facts -/

/-- The method of an instance's type. -/
def method? (h : Heap) (o : Object) (name : String) : Option Value :=
  match o.fromType with
  | some t => (h.userType t).method? name
  | none => none

/-- Follows bound methods down to the callable itself. -/
def unbind (h : Heap) : Nat → Value → Value
  | fuel + 1, .bound ref => h.unbind fuel (h.boundMethod ref).method
  | _, v => v

/-- The callable below any number of receivers; each bound method is younger than its own. -/
def callee (h : Heap) (v : Value) : Value := h.unbind h.bounds.size v

/-- The number of arguments, where it is fixed. -/
def arity? (h : Heap) (v : Value) : Option Nat :=
  match h.callee v with
  | .closure ref => some (h.code ref).arity
  | _ => none

def modifiers (h : Heap) (v : Value) : Modifiers :=
  match h.callee v with
  | .closure ref => (h.code ref).modifiers
  | _ => {}

/-- A constant as a value of the script it stands in. -/
def constant (script : Nat) : Constant → Value
  | .number x => .number x
  | .string s => .string s
  | .chunk (.listed i) => .chunk ⟨script, i⟩
  | .chunk (.stray _) | .other _ => .null

end Heap

end ScriptEngine
