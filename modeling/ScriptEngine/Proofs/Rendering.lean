import Mathlib.Data.List.Forall2
import Mathlib.Data.Finset.Card
import ScriptEngine.Assembler.State
import ScriptEngine.Grammar.Expression

/-!
# Expression trees

A tree of operators, calls and reads, with three readings that know nothing of each
other's algorithms: the tokens that it is rendered to, with the parentheses that the
levels of the operators require and no others; the directives that stand for it; and its
code in post-order, where an operand that is an index into a table of the chunk is given
by what stands there, and a jump by the number of instructions it leaps over.
-/
namespace ScriptEngine

inductive UnaryOperator where
  | negate | not
  deriving DecidableEq, Repr

inductive BinaryOperator where
  | add | subtract | multiply | divide | modulus
  | equal | unequal | less | lessEqual | greater | greaterEqual | meets
  deriving DecidableEq, Repr

/-- The operators that may leave their right operand out. -/
inductive ShortOperator where
  | and | or
  deriving DecidableEq, Repr

inductive Tree where
  | number (value : Number)
  | string (value : String)
  | bool (value : Bool)
  | null
  /-- A variable that is no local. -/
  | identifier (name : String)
  | unary (op : UnaryOperator) (operand : Tree)
  | binary (op : BinaryOperator) (left right : Tree)
  | short (op : ShortOperator) (left right : Tree)
  | call (callee : Tree) (arguments : List Tree)
  | invoke (object : Tree) (name : String) (arguments : List Tree)
  | property (object : Tree) (name : String)
  | index (object key : Tree)

/-- Induction over trees, with the arguments of a call among the parts. -/
@[elab_as_elim]
theorem Tree.induct {P : Tree → Prop} (number : ∀ v, P (.number v)) (string : ∀ v, P (.string v))
    (bool : ∀ v, P (.bool v)) (null : P .null) (identifier : ∀ x, P (.identifier x))
    (unary : ∀ op e, P e → P (.unary op e)) (binary : ∀ op l r, P l → P r → P (.binary op l r))
    (short : ∀ op l r, P l → P r → P (.short op l r))
    (call : ∀ f args, P f → (∀ e ∈ args, P e) → P (.call f args))
    (invoke : ∀ o x args, P o → (∀ e ∈ args, P e) → P (.invoke o x args))
    (property : ∀ o x, P o → P (.property o x)) (index : ∀ o k, P o → P k → P (.index o k)) : ∀ e, P e :=
  @Tree.rec P (fun args => ∀ e ∈ args, P e) number string bool null identifier unary binary short call invoke property
    index (fun _ => List.not_mem_nil.elim) fun _ _ first rest => List.forall_mem_cons.mpr ⟨first, rest⟩

/-! ## Levels -/

def BinaryOperator.level : BinaryOperator → Precedence
  | multiply | divide | modulus => .factor
  | add | subtract => .term
  | less | lessEqual | greater | greaterEqual | meets => .comparison
  | equal | unequal => .equality

def ShortOperator.level : ShortOperator → Precedence
  | and => .and
  | or => .or

theorem BinaryOperator.level_rank (op : BinaryOperator) :
    3 < op.level.rank ∧ op.level.rank < 8 ∧ op.level.next.rank = op.level.rank + 1 := by
  cases op <;> decide

theorem ShortOperator.level_rank (op : ShortOperator) :
    1 < op.level.rank ∧ op.level.rank < 4 ∧ op.level.next.rank = op.level.rank + 1 := by
  cases op <;> decide

def Tree.level : Tree → Precedence
  | number _ | string _ | bool _ | null | identifier _ => .primary
  | call _ _ | invoke _ _ _ | property _ _ | index _ _ => .call
  | unary _ _ => .unary
  | binary op _ _ => op.level
  | short op _ _ => op.level

theorem Tree.assignment_lt_level (e : Tree) : Precedence.assignment.rank < e.level.rank := by
  cases e with
  | binary op => exact Nat.lt_of_succ_lt (Nat.lt_of_succ_lt op.level_rank.1)
  | short op => exact op.level_rank.1
  | _ => exact Nat.le_of_ble_eq_true rfl

/-- As an operand at this level the tree needs parentheses. -/
def Tree.loose (e : Tree) (level : Precedence) : Bool := e.level.rank < level.rank

def Tree.isProperty : Tree → Bool
  | property _ _ => true
  | _ => false

/-! ## Tokens -/

def UnaryOperator.token : UnaryOperator → TokenKind
  | negate => .minus
  | not => .bang

def BinaryOperator.token : BinaryOperator → TokenKind
  | add => .plus
  | subtract => .minus
  | multiply => .star
  | divide => .slash
  | modulus => .percent
  | equal => .equalEqual
  | unequal => .bangEqual
  | less => .less
  | lessEqual => .lessEqual
  | greater => .greater
  | greaterEqual => .greaterEqual
  | meets => .meetsWord

def ShortOperator.token : ShortOperator → TokenKind
  | and => .andWord
  | or => .orWord

theorem BinaryOperator.infixLevel (op : BinaryOperator) : op.token.infixLevel = op.level := by cases op <;> rfl

theorem ShortOperator.infixLevel (op : ShortOperator) : op.token.infixLevel = op.level := by cases op <;> rfl

/-- A token, but for the place and the spelling it has in a source. -/
inductive Shape where
  | fixed (kind : TokenKind)
  | number (value : Number)
  | string (value : String)
  | identifier (name : String)
  | member (name : String)
  deriving DecidableEq, Repr

def Shape.Of (t : Token) : Shape → Prop
  | fixed kind => t.kind = kind
  | number value => t.kind = .number ∧ t.literal = .number value
  | string value => t.kind = .string ∧ t.literal = .string value
  | identifier name => t.kind = .identifier ∧ t.lexeme = name
  | member name => (t.kind = .identifier ∨ t.kind = .initWord) ∧ t.lexeme = name

instance (t : Token) : DecidablePred (Shape.Of t)
  | .fixed _ => inferInstanceAs (Decidable (_ = _))
  | .number _ | .string _ | .identifier _ => inferInstanceAs (Decidable (_ ∧ _))
  | .member _ => inferInstanceAs (Decidable ((_ ∨ _) ∧ _))

/-- The tokens have these shapes. -/
def Written (shapes : List Shape) (tokens : List Token) : Prop :=
  List.Forall₂ (fun s t => s.Of t) shapes tokens

instance : DecidableRel Written := inferInstanceAs (DecidableRel (List.Forall₂ _))

/-- Shapes between parentheses, where these are needed. -/
def enclosed (needed : Bool) (shapes : List Shape) : List Shape :=
  if needed then .fixed .openParen :: (shapes ++ [.fixed .closeParen]) else shapes

namespace Tree

/-- Binary operators group to the left, the short ones to the right. A call of a property read has the read in
parentheses, since it would be a method call without them. -/
def shapes : Tree → List Shape
  | number value => [.number value]
  | string value => [.string value]
  | bool true => [.fixed .trueWord]
  | bool false => [.fixed .falseWord]
  | null => [.fixed .nullWord]
  | identifier name => [.identifier name]
  | unary op e => .fixed op.token :: enclosed (e.loose .unary) e.shapes
  | binary op l r =>
    enclosed (l.loose op.level) l.shapes ++ .fixed op.token :: enclosed (r.loose op.level.next) r.shapes
  | short op l r =>
    enclosed (l.loose op.level.next) l.shapes ++ .fixed op.token :: enclosed (r.loose op.level) r.shapes
  | call f args =>
    enclosed (f.isProperty || f.loose .call) f.shapes ++
      .fixed .openParen :: ([.fixed .comma].intercalate (allShapes args) ++ [.fixed .closeParen])
  | invoke o name args =>
    enclosed (o.loose .call) o.shapes ++
      .fixed .dot :: .member name :: .fixed .openParen ::
        ([.fixed .comma].intercalate (allShapes args) ++ [.fixed .closeParen])
  | property o name => enclosed (o.loose .call) o.shapes ++ [.fixed .dot, .member name]
  | index o key => enclosed (o.loose .call) o.shapes ++ .fixed .openBracket :: (key.shapes ++ [.fixed .closeBracket])
where
  allShapes : List Tree → List (List Shape)
    | [] => []
    | e :: es => e.shapes :: allShapes es

end Tree

/-! ## Directives -/

def UnaryOperator.instruction : UnaryOperator → Instruction
  | negate => .negate
  | not => .not

theorem UnaryOperator.instruction_plain (op : UnaryOperator) : op.instruction.isPlain = true := by
  cases op <;> rfl

/-- What opens the right operand, which `shortEnd` closes. -/
def ShortOperator.directive : ShortOperator → Directive
  | and => .andThen
  | or => .orElse

namespace Tree

def directives : Tree → List Directive
  | number value => [.number value]
  | string value => [.string value]
  | bool value => [.plain (.pushBool value)]
  | null => [.plain .null]
  | identifier name => [.load name]
  | unary op e => e.directives ++ [.plain op.instruction op.instruction_plain]
  | binary op l r => l.directives ++ (r.directives ++ Grammar.binaryOperation op.token)
  | short op l r => l.directives ++ (op.directive :: (r.directives ++ [.shortEnd]))
  | call f args => f.directives ++ (allDirectives args ++ [.plain (.call (UInt8.ofNat args.length))])
  | invoke o name args =>
    o.directives ++ (.reserve name :: (allDirectives args ++ [.invoke name (UInt8.ofNat args.length)]))
  | property o name => o.directives ++ [.reserve name, .getProperty name]
  | index o key => o.directives ++ (key.directives ++ [.plain .getIndex])
where
  allDirectives : List Tree → List Directive
    | [] => []
    | e :: es => e.directives ++ allDirectives es

end Tree

/-! ## Code -/

/-- An instruction whose operand is given by what it refers to. -/
inductive Op where
  | plain (i : Instruction)
  | constant (value : Constant)
  | global (name : String)
  | property (name : String)
  | call (argc : Nat)
  | invoke (name : String) (argc : Nat)
  /-- A jump leaps over so many instructions. -/
  | gotoIfFalse (leap : Nat)
  | goto (leap : Nat)
  deriving DecidableEq, Repr

/-- A number that is an integer of one byte is part of its instruction. -/
def Op.number (value : Number) : Op :=
  match value.integer? with
  | some (.ofNat m) =>
    if m ≤ 255 ∧ value.negative = false then .plain (.pushByte (UInt8.ofNat m)) else .constant (.number value)
  | _ => .constant (.number value)

/-- The comparisons that have no instruction are negated ones. -/
def BinaryOperator.code : BinaryOperator → List Op
  | add => [.plain .add]
  | subtract => [.plain .subtract]
  | multiply => [.plain .multiply]
  | divide => [.plain .divide]
  | modulus => [.plain .modulus]
  | equal => [.plain .equal]
  | unequal => [.plain .equal, .plain .not]
  | less => [.plain .less]
  | lessEqual => [.plain .greater, .plain .not]
  | greater => [.plain .greater]
  | greaterEqual => [.plain .less, .plain .not]
  | meets => [.plain .meets]

/-- Leaves the left operand and leaps over the right one, or drops it and goes on to the right one. -/
def ShortOperator.code (right : Nat) : ShortOperator → List Op
  | and => [.gotoIfFalse (right + 1), .plain .pop]
  | or => [.gotoIfFalse 1, .goto (right + 1), .plain .pop]

namespace Tree

/-- The code in post-order. -/
def code : Tree → List Op
  | number value => [.number value]
  | string value => [.constant (.string value)]
  | bool value => [.plain (.pushBool value)]
  | null => [.plain .null]
  | identifier name => [.global name]
  | unary op e => e.code ++ [.plain op.instruction]
  | binary op l r => l.code ++ (r.code ++ op.code)
  | short op l r => l.code ++ (op.code r.code.length ++ r.code)
  | call f args => f.code ++ (allCode args ++ [.call args.length])
  | invoke o name args => o.code ++ (allCode args ++ [.invoke name args.length])
  | property o name => o.code ++ [.property name]
  | index o key => o.code ++ (key.code ++ [.plain .getIndex])
where
  allCode : List Tree → List Op
    | [] => []
    | e :: es => e.code ++ allCode es

theorem mem_allCode {args : List Tree} {e : Tree} {op : Op} (mem : e ∈ args) (here : op ∈ e.code) :
    op ∈ code.allCode args := by
  induction args with
  | nil => cases mem
  | cons e' es ih =>
    rcases List.mem_cons.mp mem with rfl | mem
    · exact List.mem_append_left _ here
    · exact List.mem_append_right _ (ih mem)

end Tree

namespace Op

/-- What the instruction needs an entry for in the table of constants. -/
def constant? : Op → Option Constant
  | constant value => some value
  | global name | property name | invoke name _ => some (.string name)
  | _ => none

def isJump : Op → Bool
  | gotoIfFalse _ | goto _ => true
  | _ => false

def argc : Op → Nat
  | call n | invoke _ n => n
  | _ => 0

/-- The instruction is that of the operation at an offset of a chunk. Its label, if it has one, is none of the first
ones. -/
def Stands (c : Chunk) (labels offset : Nat) (i : Instruction) : Op → Prop
  | plain j => i = j
  | constant value => ∃ n, i = .pushConstant n ∧ c.constants[n.toNat]? = some value
  | global name => ∃ n, i = .getGlobal n ∧ c.name? n = some name
  | property name => ∃ n, i = .getProperty n ∧ c.name? n = some name
  | call n => i = .call (UInt8.ofNat n)
  | invoke name n => ∃ k, i = .invoke k (UInt8.ofNat n) ∧ c.name? k = some name
  | gotoIfFalse leap => ∃ l, i = .gotoIfFalse l ∧ labels ≤ l.toNat ∧
      c.labels[l.toNat]? = some (UInt32.ofNat (offset + 1 + leap))
  | goto leap => ∃ l, i = .goto l ∧ labels ≤ l.toNat ∧ c.labels[l.toNat]? = some (UInt32.ofNat (offset + 1 + leap))

end Op

/-- From an offset on a chunk has these operations. -/
def Chunk.Holds (c : Chunk) (labels offset : Nat) (ops : List Op) : Prop :=
  ∀ k op, ops[k]? = some op → ∃ i, c.code[offset + k]? = some i ∧ op.Stands c labels (offset + k) i

end ScriptEngine
