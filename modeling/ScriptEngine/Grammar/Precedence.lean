import ScriptEngine.Token.Basic

/-!
# Binding strength of operators

Lowest first. `TokenKind.infixLevel` is the level at which a token continues an
expression; `none` means that it never does.
-/
namespace ScriptEngine

inductive Precedence where
  | none | assignment | or | and | equality | comparison | term | factor | unary | call | primary
  deriving DecidableEq, Repr

namespace Precedence

def rank : Precedence → Nat
  | none => 0
  | assignment => 1
  | or => 2
  | and => 3
  | equality => 4
  | comparison => 5
  | term => 6
  | factor => 7
  | unary => 8
  | call => 9
  | primary => 10

/-- The next stronger level, for the right operand of an operator that groups to the left. -/
def next : Precedence → Precedence
  | none => assignment
  | assignment => or
  | or => and
  | and => equality
  | equality => comparison
  | comparison => term
  | term => factor
  | factor => unary
  | unary => call
  | call | primary => primary

end Precedence

def TokenKind.infixLevel : TokenKind → Precedence
  | .openParen | .dot | .openBracket => .call
  | .minus | .plus => .term
  | .slash | .star | .percent => .factor
  | .bangEqual | .equalEqual => .equality
  | .greater | .greaterEqual | .less | .lessEqual | .meetsWord => .comparison
  | .andWord => .and
  | .orWord => .or
  | _ => .none

end ScriptEngine
