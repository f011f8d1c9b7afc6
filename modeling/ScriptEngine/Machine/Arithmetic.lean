import ScriptEngine.Machine.Run

/-!
# Operators

Every binary operator takes two operands from the stack, the right one first,
and pushes its result. Apart from `+`, arithmetic is for numbers only and a
comparison is for two numbers or two strings. `+` also joins texts, when one of
the operands is a string, and callables.
-/
namespace ScriptEngine

/-- The instructions that combine operands into a value. -/
inductive Operator where
  | add | subtract | multiply | divide | modulus | equal | less | greater | meets
  deriving DecidableEq, Repr

namespace Operator

def symbol : Operator → String
  | add => "+"
  | subtract => "-"
  | multiply => "*"
  | divide => "/"
  | modulus => "%"
  | equal => "=="
  | less => "<"
  | greater => ">"
  | meets => "meets"

def invalid (op : Operator) (a b : Value) : RuntimeError :=
  .invalidOperands op.symbol a.kindName b.kindName

def onNumbers (op : Operator) (f : Number → Number → Number) : Value → Value → Run Value
  | .number x, .number y => return .number (f x y)
  | a, b => Run.fail (op.invalid a b)

def onOrdered (op : Operator) (numbers : Number → Number → Bool)
    (strings : String → String → Bool) : Value → Value → Run Value
  | .number x, .number y => return .bool (numbers x y)
  | .string x, .string y => return .bool (strings x y)
  | a, b => Run.fail (op.invalid a b)

end Operator

/-- What a callable contributes to a combination: its parts, if it is one itself. -/
def Heap.parts (h : Heap) : Value → List Value
  | .combined ref => h.combination ref
  | v => [v]

def Value.isString : Value → Bool
  | string _ => true
  | _ => false

namespace Operator

def plus (a b : Value) : Run Value := do
  match a, b with
  | .number x, .number y => return .number (x.add y)
  | _, _ =>
    let h ← Run.heap
    if a.isString || b.isString then return .string (h.text a ++ h.text b)
    else if a.isCombinable && b.isCombinable then
      Run.allocate (·.addCombination (h.parts a ++ h.parts b))
    else Run.fail (add.invalid a b)

def apply : Operator → Value → Value → Run Value
  | add, a, b => plus a b
  | subtract, a, b => subtract.onNumbers Number.sub a b
  | multiply, a, b => multiply.onNumbers Number.mul a b
  | divide, a, b => divide.onNumbers Number.div a b
  | modulus, a, b => modulus.onNumbers Number.rem a b
  | equal, a, b => return .bool (a.same b)
  | less, a, b => less.onOrdered Number.less (fun s t => decide (s < t)) a b
  | greater, a, b => greater.onOrdered (fun x y => y.less x) (fun s t => decide (t < s)) a b
  | meets, a, b => return .bool ((← Run.heap).meets a b)

end Operator

namespace Run

def binary (op : Operator) : Run Unit := do
  let b ← pop
  let a ← pop
  push (← op.apply a b)

def negate : Run Unit := do
  match ← pop with
  | .number x => push (.number x.neg)
  | v => fail (.invalidOperand "-" v.kindName)

def complement : Run Unit := do
  let v ← pop
  push (.bool v.isFalsy)

end Run

end ScriptEngine
