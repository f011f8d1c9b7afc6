import ScriptEngine.Number.Basic

/-!
# Tokens

The closed set of token kinds, each with a fixed meaning in the grammar, and
the tokens that carry them. A token remembers the text it was read from, its
line and character, both counted from one, and its offset in bytes.

Keywords and punctuation have one spelling each; `spellings` lists them all.
-/
namespace ScriptEngine

inductive TokenKind where
  | openParen | closeParen | openBrace | closeBrace | openBracket | closeBracket
  | comma | dot | semicolon | colon
  | minus | plus | slash | star | percent | bang | bangEqual | equal | equalEqual
  | greater | greaterEqual | less | lessEqual
  | plusEqual | minusEqual | starEqual | slashEqual | percentEqual
  | identifier | string | number
  | andWord | orWord | classWord | dataWord | systemWord | enumWord | elseWord | falseWord
  | forWord | funWord | ifWord | nullWord | returnWord | superWord | thisWord | trueWord
  | varWord | whileWord | loopWord | breakWord | continueWord | throwWord | yieldWord
  | initWord | staticWord | mixinWord | signsWord | meetsWord | freezeWord | readonlyWord
  | testWord | testcaseWord | buildWord | registerWord | injectWord | localWord | pureWord
  | eof
  deriving DecidableEq, Repr, Inhabited

namespace TokenKind

def keywords : List (String × TokenKind) := [
  ("and", andWord), ("or", orWord), ("class", classWord), ("data", dataWord),
  ("system", systemWord), ("enum", enumWord), ("else", elseWord), ("false", falseWord),
  ("for", forWord), ("fun", funWord), ("if", ifWord), ("null", nullWord),
  ("return", returnWord), ("super", superWord), ("this", thisWord), ("true", trueWord),
  ("var", varWord), ("while", whileWord), ("loop", loopWord), ("break", breakWord),
  ("continue", continueWord), ("throw", throwWord), ("yield", yieldWord), ("init", initWord),
  ("static", staticWord), ("mixin", mixinWord), ("signs", signsWord), ("meets", meetsWord),
  ("freeze", freezeWord), ("readonly", readonlyWord), ("test", testWord),
  ("testcase", testcaseWord), ("build", buildWord), ("register", registerWord),
  ("inject", injectWord), ("local", localWord), ("pure", pureWord)]

def punctuation : List (String × TokenKind) := [
  ("(", openParen), (")", closeParen), ("\x7b", openBrace), ("\x7d", closeBrace),
  ("[", openBracket), ("]", closeBracket), (",", comma), (".", dot), (";", semicolon),
  (":", colon), ("-", minus), ("+", plus), ("/", slash), ("*", star), ("%", percent),
  ("!", bang), ("!=", bangEqual), ("=", equal), ("==", equalEqual), (">", greater),
  (">=", greaterEqual), ("<", less), ("<=", lessEqual), ("+=", plusEqual),
  ("-=", minusEqual), ("*=", starEqual), ("/=", slashEqual), ("%=", percentEqual)]

def keyword? (word : String) : Option TokenKind := keywords.lookup word

def spellings : List (String × TokenKind) := keywords ++ punctuation

/-- The kind of a token that is always written the same way. -/
def ofSpelling? (text : String) : Option TokenKind := spellings.lookup text

end TokenKind

/-- The value that number and string tokens carry. -/
inductive Literal where
  | none
  | number (value : Number)
  | string (value : String)
  deriving DecidableEq, Repr, Inhabited

structure Token where
  kind : TokenKind
  lexeme : String
  literal : Literal
  line : Nat
  character : Nat
  offset : Nat
  deriving DecidableEq, Repr, Inhabited

namespace Token

/-- The mark that ends every token stream. -/
def endOfInput (line character offset : Nat) : Token := ⟨.eof, "", .none, line, character, offset⟩

def describe (t : Token) : String :=
  if t.kind = .eof then "end of input" else "'" ++ t.lexeme ++ "'"

end Token

end ScriptEngine
