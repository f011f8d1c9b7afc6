import ScriptEngine.Code.Instruction

/-!
# Instruction words

Every instruction fits a word of four bytes: a number for its operation, then
up to three bytes of operands, a wide operand with its low byte first. Bytes
without a meaning are written as zero and ignored when read, a truth value reads
as true from any byte but zero. `decode_encode` says that reading undoes
writing.
-/
namespace ScriptEngine

structure Word where
  op : UInt8
  a : UInt8
  b : UInt8
  c : UInt8
  deriving DecidableEq, Repr, Inhabited

namespace Word

/-- The bytes of a word, the operation first. -/
def bytes (w : Word) : List UInt8 := [w.op, w.a, w.b, w.c]

def low (n : UInt16) : UInt8 := n.toUInt8

def high (n : UInt16) : UInt8 := (n >>> 8).toUInt8

def join (low high : UInt8) : UInt16 := UInt16.ofNat (low.toNat + 256 * high.toNat)

theorem join_low_high (n : UInt16) : join (low n) (high n) = n := by
  have h := n.toNat_lt
  simp [join, low, high, Nat.shiftRight_eq_div_pow]
  rw [← UInt16.toNat_inj]
  simp
  omega

def pair (op : UInt8) (wide : UInt16) (c : UInt8) : Word := ⟨op, low wide, high wide, c⟩

def wide (w : Word) : UInt16 := join w.a w.b

@[simp] theorem wide_pair (op : UInt8) (n : UInt16) (c : UInt8) : (pair op n c).wide = n :=
  join_low_high n

end Word

namespace Instruction

def encode : Instruction → Word
  | pushConstant n => .pair 0 n 0
  | pushByte n => ⟨1, n, 0, 0⟩
  | pushBool value => ⟨2, value.toUInt8, 0, 0⟩
  | null => ⟨3, 0, 0, 0⟩
  | pop => ⟨4, 0, 0, 0⟩
  | duplicate => ⟨5, 0, 0, 0⟩
  | duplicatePair => ⟨6, 0, 0, 0⟩
  | swap => ⟨7, 0, 0, 0⟩
  | add => ⟨8, 0, 0, 0⟩
  | subtract => ⟨9, 0, 0, 0⟩
  | multiply => ⟨10, 0, 0, 0⟩
  | divide => ⟨11, 0, 0, 0⟩
  | modulus => ⟨12, 0, 0, 0⟩
  | negate => ⟨13, 0, 0, 0⟩
  | not => ⟨14, 0, 0, 0⟩
  | equal => ⟨15, 0, 0, 0⟩
  | less => ⟨16, 0, 0, 0⟩
  | greater => ⟨17, 0, 0, 0⟩
  | meets => ⟨18, 0, 0, 0⟩
  | getLocal slot => ⟨19, slot, 0, 0⟩
  | setLocal slot => ⟨20, slot, 0, 0⟩
  | getUpvalue index => ⟨21, index, 0, 0⟩
  | setUpvalue index => ⟨22, index, 0, 0⟩
  | defineGlobal name => .pair 23 name 0
  | getGlobal name => .pair 24 name 0
  | setGlobal name => .pair 25 name 0
  | goto label => .pair 26 label 0
  | gotoIfFalse label => .pair 27 label 0
  | call argc => ⟨28, argc, 0, 0⟩
  | invoke name argc => .pair 29 name argc
  | ret count => ⟨30, count, 0, 0⟩
  | yield => ⟨31, 0, 0, 0⟩
  | throw => ⟨32, 0, 0, 0⟩
  | closure n => .pair 33 n 0
  | capture source => ⟨34, source.fromLocal.toUInt8, source.index, 0⟩
  | closeUpvalue => ⟨35, 0, 0, 0⟩
  | declareType kind name => .pair 36 name kind.toByte
  | inherit => ⟨37, 0, 0, 0⟩
  | mixin => ⟨38, 0, 0, 0⟩
  | signs => ⟨39, 0, 0, 0⟩
  | field name => .pair 40 name 0
  | method name => .pair 41 name 0
  | staticMember name => .pair 42 name 0
  | initChain => ⟨43, 0, 0, 0⟩
  | enumValue name => .pair 44 name 0
  | finishType => ⟨45, 0, 0, 0⟩
  | freeze => ⟨46, 0, 0, 0⟩
  | readOnly => ⟨47, 0, 0, 0⟩
  | getProperty name => .pair 48 name 0
  | setProperty name => .pair 49 name 0
  | getIndex => ⟨50, 0, 0, 0⟩
  | setIndex => ⟨51, 0, 0, 0⟩
  | getSuper name => .pair 52 name 0
  | superInvoke name argc => .pair 53 name argc
  | buildList n => .pair 54 n 0
  | buildMap n => .pair 55 n 0
  | newDynamic => ⟨56, 0, 0, 0⟩
  | multiVarStart => ⟨57, 0, 0, 0⟩
  | multiVarEnd => ⟨58, 0, 0, 0⟩
  | validate check => ⟨59, check.toByte, 0, 0⟩
  | testSet name => .pair 60 name 0
  | testCase name hasRows => .pair 61 name hasRows.toUInt8
  | build => ⟨62, 0, 0, 0⟩
  | register name => .pair 63 name 0
  | inject name => .pair 64 name 0

def decode (w : Word) : Option Instruction :=
  match w.op with
  | 0 => some (.pushConstant w.wide)
  | 1 => some (.pushByte w.a)
  | 2 => some (.pushBool (w.a != 0))
  | 3 => some .null
  | 4 => some .pop
  | 5 => some .duplicate
  | 6 => some .duplicatePair
  | 7 => some .swap
  | 8 => some .add
  | 9 => some .subtract
  | 10 => some .multiply
  | 11 => some .divide
  | 12 => some .modulus
  | 13 => some .negate
  | 14 => some .not
  | 15 => some .equal
  | 16 => some .less
  | 17 => some .greater
  | 18 => some .meets
  | 19 => some (.getLocal w.a)
  | 20 => some (.setLocal w.a)
  | 21 => some (.getUpvalue w.a)
  | 22 => some (.setUpvalue w.a)
  | 23 => some (.defineGlobal w.wide)
  | 24 => some (.getGlobal w.wide)
  | 25 => some (.setGlobal w.wide)
  | 26 => some (.goto w.wide)
  | 27 => some (.gotoIfFalse w.wide)
  | 28 => some (.call w.a)
  | 29 => some (.invoke w.wide w.c)
  | 30 => some (.ret w.a)
  | 31 => some .yield
  | 32 => some .throw
  | 33 => some (.closure w.wide)
  | 34 => some (.capture ⟨w.a != 0, w.b⟩)
  | 35 => some .closeUpvalue
  | 36 => (TypeKind.ofByte? w.c).map (.declareType · w.wide)
  | 37 => some .inherit
  | 38 => some .mixin
  | 39 => some .signs
  | 40 => some (.field w.wide)
  | 41 => some (.method w.wide)
  | 42 => some (.staticMember w.wide)
  | 43 => some .initChain
  | 44 => some (.enumValue w.wide)
  | 45 => some .finishType
  | 46 => some .freeze
  | 47 => some .readOnly
  | 48 => some (.getProperty w.wide)
  | 49 => some (.setProperty w.wide)
  | 50 => some .getIndex
  | 51 => some .setIndex
  | 52 => some (.getSuper w.wide)
  | 53 => some (.superInvoke w.wide w.c)
  | 54 => some (.buildList w.wide)
  | 55 => some (.buildMap w.wide)
  | 56 => some .newDynamic
  | 57 => some .multiVarStart
  | 58 => some .multiVarEnd
  | 59 => (Check.ofByte? w.a).map .validate
  | 60 => some (.testSet w.wide)
  | 61 => some (.testCase w.wide (w.c != 0))
  | 62 => some .build
  | 63 => some (.register w.wide)
  | 64 => some (.inject w.wide)
  | _ => none

theorem decode_encode (i : Instruction) : decode i.encode = some i := by
  cases i with
  | pushConstant n => exact congrArg (some <| pushConstant ·) (Word.join_low_high n)
  | defineGlobal n => exact congrArg (some <| defineGlobal ·) (Word.join_low_high n)
  | getGlobal n => exact congrArg (some <| getGlobal ·) (Word.join_low_high n)
  | setGlobal n => exact congrArg (some <| setGlobal ·) (Word.join_low_high n)
  | goto n => exact congrArg (some <| goto ·) (Word.join_low_high n)
  | gotoIfFalse n => exact congrArg (some <| gotoIfFalse ·) (Word.join_low_high n)
  | closure n => exact congrArg (some <| closure ·) (Word.join_low_high n)
  | field n => exact congrArg (some <| field ·) (Word.join_low_high n)
  | method n => exact congrArg (some <| method ·) (Word.join_low_high n)
  | staticMember n => exact congrArg (some <| staticMember ·) (Word.join_low_high n)
  | enumValue n => exact congrArg (some <| enumValue ·) (Word.join_low_high n)
  | getProperty n => exact congrArg (some <| getProperty ·) (Word.join_low_high n)
  | setProperty n => exact congrArg (some <| setProperty ·) (Word.join_low_high n)
  | getSuper n => exact congrArg (some <| getSuper ·) (Word.join_low_high n)
  | buildList n => exact congrArg (some <| buildList ·) (Word.join_low_high n)
  | buildMap n => exact congrArg (some <| buildMap ·) (Word.join_low_high n)
  | testSet n => exact congrArg (some <| testSet ·) (Word.join_low_high n)
  | register n => exact congrArg (some <| register ·) (Word.join_low_high n)
  | inject n => exact congrArg (some <| inject ·) (Word.join_low_high n)
  | invoke n argc => exact congrArg (some <| invoke · argc) (Word.join_low_high n)
  | superInvoke n argc => exact congrArg (some <| superInvoke · argc) (Word.join_low_high n)
  | declareType kind n =>
    cases kind <;> exact congrArg (some <| declareType _ ·) (Word.join_low_high n)
  | testCase n hasRows =>
    cases hasRows <;> exact congrArg (some <| testCase · _) (Word.join_low_high n)
  | pushBool value => cases value <;> rfl
  | capture source => rcases source with ⟨_ | _, _⟩ <;> rfl
  | validate check => cases check; rfl
  | _ => rfl

end Instruction

end ScriptEngine
