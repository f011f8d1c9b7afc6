import ScriptEngine.Number.Rounding
import ScriptEngine.Text.Alphabetic
import ScriptEngine.Text.Blank
import ScriptEngine.Token.Basic

/-!
# From text to tokens

Each scanner splits a text into the characters it took and the rest, without
looking at positions: `gap` takes blanks and comments, `scan` takes one token.
Positions are then computed from the characters taken. A comment that never
closes is no gap; `scan` meets its opening and reports it.

`gap_append` and `Piece.append` say that nothing is lost between the two, and
every piece but the end of input is nonempty, so that the token list is defined
by recursion on the length of the rest.
-/
namespace ScriptEngine

structure Position where
  line : Nat
  column : Nat
  offset : Nat
  deriving DecidableEq, Repr

namespace Position

def start : Position := ⟨1, 1, 0⟩

def next (p : Position) (c : Char) : Position :=
  if c = '\n' then ⟨p.line + 1, 1, p.offset + c.utf8Size⟩
  else ⟨p.line, p.column + 1, p.offset + c.utf8Size⟩

def after (p : Position) (taken : List Char) : Position := taken.foldl next p

end Position

/-- Why a text has no tokens. -/
inductive LexFault where
  | unexpected (c : Char)
  | unclosedComment
  | unclosedString
  | unknownEscape (c : Char)
  deriving DecidableEq, Repr

def LexFault.message : LexFault → String
  | unexpected c => "Unexpected character '" ++ c.toString ++ "'"
  | unclosedComment => "Unterminated block comment"
  | unclosedString => "Unterminated string"
  | unknownEscape c => "Unknown escape sequence '\\" ++ c.toString ++ "'"

structure LexError where
  fault : LexFault
  line : Nat
  column : Nat
  deriving DecidableEq, Repr

def LexError.message (e : LexError) : String :=
  "Lexer error at " ++ toString e.line ++ ":" ++ toString e.column ++ ": " ++ e.fault.message

namespace Lexer

def isNameStart (c : Char) : Bool := Text.isAlphabetic c || c == '_'

def isNamePart (c : Char) : Bool := Text.isAlphanumeric c || c == '_'

/-! ## Gaps -/

inductive GapMode where
  | blank | line | block
  deriving DecidableEq, Repr

/-- A text cut in two. -/
structure Split where
  taken : List Char
  rest : List Char
  deriving DecidableEq, Repr

def Split.after (front : List Char) (s : Split) : Split := { s with taken := front ++ s.taken }

/-- The gap in front of a text, from inside a comment or outside; none if the text ends
inside a block comment. -/
def gapFrom : GapMode → List Char → Option Split
  | .blank, '/' :: '/' :: rest => (gapFrom .line rest).map (.after ['/', '/'])
  | .blank, '/' :: '*' :: rest =>
    match gapFrom .block rest with
    | some s => some (s.after ['/', '*'])
    | none => some ⟨[], '/' :: '*' :: rest⟩
  | .line, '\n' :: rest => (gapFrom .blank rest).map (.after ['\n'])
  | .block, '*' :: '/' :: rest => (gapFrom .blank rest).map (.after ['*', '/'])
  | .block, [] => none
  | _, [] => some ⟨[], []⟩
  | mode, c :: rest =>
    if mode = .blank ∧ Text.isBlank c = false then some ⟨[], c :: rest⟩
    else (gapFrom mode rest).map (.after [c])

def gap (text : List Char) : Split := (gapFrom .blank text).getD ⟨[], text⟩

theorem gapFrom_append {mode : GapMode} {text : List Char} {s : Split}
    (h : gapFrom mode text = some s) : s.taken ++ s.rest = text := by
  fun_induction gapFrom mode text generalizing s with
  | case1 rest ih | case4 rest ih | case5 rest ih | case9 mode c rest _ _ _ _ _ ih =>
    obtain ⟨t, ht, rfl⟩ := Option.map_eq_some_iff.1 h
    simp [Split.after, ih ht]
  | case2 rest t ht ih =>
    cases h
    simp [Split.after, ih ht]
  | case6 => cases h
  | case3 | case7 | case8 => cases h; rfl

theorem gap_append (text : List Char) : (gap text).taken ++ (gap text).rest = text := by
  unfold gap
  cases h : gapFrom .blank text with
  | none => rfl
  | some s => exact gapFrom_append h

theorem gap_rest_length_le (text : List Char) : (gap text).rest.length ≤ text.length := by
  have h := congrArg List.length (gap_append text)
  rw [List.length_append] at h
  omega

/-! ## Tokens -/

/-- A token cut off the front of a text. -/
structure Piece where
  kind : TokenKind
  literal : Literal
  taken : List Char
  rest : List Char
  deriving DecidableEq, Repr

/-- A fault, and the characters of the token before the place where it is reported. -/
structure Stop where
  fault : LexFault
  read : List Char
  deriving DecidableEq, Repr

/-- Strings that do not close are reported where they open. -/
def Stop.after (taken : List Char) (s : Stop) : Stop :=
  if s.fault = .unclosedString then s else { s with read := taken ++ s.read }

def unescape : Char → Option Char
  | 'n' => some '\n'
  | 't' => some '\t'
  | 'r' => some '\r'
  | '0' => some '\x00'
  | '"' => some '"'
  | '\\' => some '\\'
  | _ => none

/-- The body of a string up to its closing quote: its value, what was taken, the rest. -/
structure Quoted where
  value : List Char
  taken : List Char
  rest : List Char
  deriving DecidableEq, Repr

def Quoted.after (value : Char) (taken : List Char) (q : Quoted) : Quoted :=
  { q with value := value :: q.value, taken := taken ++ q.taken }

def extend (value : Char) (taken : List Char) : Except Stop Quoted → Except Stop Quoted
  | .ok q => .ok (q.after value taken)
  | .error s => .error (s.after taken)

def quoted : List Char → Except Stop Quoted
  | [] => .error ⟨.unclosedString, []⟩
  | '"' :: rest => .ok ⟨[], ['"'], rest⟩
  | ['\\'] => .error ⟨.unclosedString, []⟩
  | '\\' :: c :: rest =>
    match unescape c with
    | some value => extend value ['\\', c] (quoted rest)
    | none => .error ⟨.unknownEscape c, ['\\', c]⟩
  | c :: rest => extend c [c] (quoted rest)

def digitsValue (digits : List Char) : Nat :=
  digits.foldl (fun n c => 10 * n + (c.toNat - '0'.toNat)) 0

/-- Digits, with a point and more digits if a digit follows the point. -/
def number (text : List Char) : Piece :=
  let whole := text.takeWhile Char.isDigit
  match text.dropWhile Char.isDigit with
  | '.' :: d :: rest =>
    if d.isDigit then
      let places := (d :: rest).takeWhile Char.isDigit
      ⟨.number, .number (.ofDecimal (digitsValue (whole ++ places)) places.length),
        whole ++ '.' :: places, (d :: rest).dropWhile Char.isDigit⟩
    else ⟨.number, .number (.ofDecimal (digitsValue whole) 0), whole, '.' :: d :: rest⟩
  | rest => ⟨.number, .number (.ofDecimal (digitsValue whole) 0), whole, rest⟩

def name (text : List Char) : Piece :=
  let word := text.takeWhile isNamePart
  ⟨(TokenKind.keyword? (String.ofList word)).getD .identifier, .none, word,
    text.dropWhile isNamePart⟩

def symbol (kind : TokenKind) (c : Char) (rest : List Char) : Piece := ⟨kind, .none, [c], rest⟩

/-- An operator that an equals sign extends. -/
def operator (plain assigned : TokenKind) (c : Char) : List Char → Piece
  | '=' :: rest => ⟨assigned, .none, [c, '='], rest⟩
  | rest => ⟨plain, .none, [c], rest⟩

/-- Cuts one token off a text that starts with no gap. -/
def scan : List Char → Except Stop Piece
  | [] => .ok ⟨.eof, .none, [], []⟩
  | c :: rest =>
    match c with
    | '(' => .ok (symbol .openParen c rest)
    | ')' => .ok (symbol .closeParen c rest)
    | '{' => .ok (symbol .openBrace c rest)
    | '}' => .ok (symbol .closeBrace c rest)
    | '[' => .ok (symbol .openBracket c rest)
    | ']' => .ok (symbol .closeBracket c rest)
    | ',' => .ok (symbol .comma c rest)
    | '.' => .ok (symbol .dot c rest)
    | ';' => .ok (symbol .semicolon c rest)
    | ':' => .ok (symbol .colon c rest)
    | '-' => .ok (operator .minus .minusEqual c rest)
    | '+' => .ok (operator .plus .plusEqual c rest)
    | '*' => .ok (operator .star .starEqual c rest)
    | '/' =>
      if rest.head? = some '*' then .error ⟨.unclosedComment, []⟩
      else .ok (operator .slash .slashEqual c rest)
    | '%' => .ok (operator .percent .percentEqual c rest)
    | '!' => .ok (operator .bang .bangEqual c rest)
    | '=' => .ok (operator .equal .equalEqual c rest)
    | '<' => .ok (operator .less .lessEqual c rest)
    | '>' => .ok (operator .greater .greaterEqual c rest)
    | '"' =>
      match quoted rest with
      | .ok q => .ok ⟨.string, .string (String.ofList q.value), c :: q.taken, q.rest⟩
      | .error s => .error (s.after [c])
    | _ =>
      if c.isDigit then .ok (number (c :: rest))
      else if isNameStart c then .ok (name (c :: rest))
      else .error ⟨.unexpected c, []⟩

theorem extend_ok {value : Char} {taken : List Char} {r : Except Stop Quoted} {q : Quoted}
    (h : extend value taken r = .ok q) : ∃ p, r = .ok p ∧ q = p.after value taken := by
  cases r with
  | error s => cases h
  | ok p => exact ⟨p, rfl, by cases h; rfl⟩

theorem quoted_append {text : List Char} {q : Quoted} (h : quoted text = .ok q) :
    q.taken ++ q.rest = text := by
  fun_induction quoted text generalizing q with
  | case1 | case3 | case5 => cases h
  | case2 => cases h; rfl
  | case4 c rest value _ ih | case6 c rest _ _ _ ih =>
    obtain ⟨p, hp, rfl⟩ := extend_ok h
    simp [Quoted.after, ih hp]

theorem number_append (text : List Char) :
    (number text).taken ++ (number text).rest = text := by
  have h := List.takeWhile_append_dropWhile (p := Char.isDigit) (l := text)
  unfold number
  split
  · rename_i d rest hd
    rw [hd] at h
    split
    · have h2 := List.takeWhile_append_dropWhile (p := Char.isDigit) (l := d :: rest)
      simp only [List.append_assoc, List.cons_append, h2]
      exact h
    · exact h
  · exact h

theorem name_append (text : List Char) : (name text).taken ++ (name text).rest = text :=
  List.takeWhile_append_dropWhile

theorem operator_append (plain assigned : TokenKind) (c : Char) (rest : List Char) :
    (operator plain assigned c rest).taken ++ (operator plain assigned c rest).rest
      = c :: rest := by
  unfold operator
  split <;> rfl

/-- A token and the rest make up the text. -/
theorem scan_append {text : List Char} {p : Piece} (h : scan text = .ok p) :
    p.taken ++ p.rest = text := by
  unfold scan at h
  split at h
  · cases h; rfl
  · rename_i c rest
    split at h
    case h_20 =>
      split at h
      · rename_i q hq
        cases h
        simp [quoted_append hq]
      · cases h
    case h_21 =>
      split at h
      · cases h; exact number_append _
      · split at h
        · cases h; exact name_append _
        · cases h
    case h_14 =>
      split at h
      · cases h
      · cases h; exact operator_append ..
    all_goals
      cases h
      simp [symbol, operator_append]

theorem number_taken_ne_nil {c : Char} {rest : List Char} (h : c.isDigit = true) :
    (number (c :: rest)).taken ≠ [] := by
  have hw : (c :: rest).takeWhile Char.isDigit ≠ [] := by simp [h]
  unfold number
  split
  · split <;> simp [hw]
  · exact hw

theorem name_taken_ne_nil {c : Char} {rest : List Char} (h : isNameStart c = true) :
    (name (c :: rest)).taken ≠ [] := by
  have hp : isNamePart c = true := by
    simp only [isNameStart, Bool.or_eq_true] at h
    simp only [isNamePart, Bool.or_eq_true]
    exact h.imp Text.isAlphanumeric_of_isAlphabetic id
  simp [name, hp]

theorem operator_taken_ne_nil (plain assigned : TokenKind) (c : Char) (rest : List Char) :
    (operator plain assigned c rest).taken ≠ [] := by
  unfold operator
  split <;> simp

/-- Every token takes a character, except the end of input. -/
theorem scan_taken_ne_nil {text : List Char} {p : Piece} (h : scan text = .ok p)
    (hk : p.kind ≠ .eof) : p.taken ≠ [] := by
  unfold scan at h
  split at h
  · cases h; exact absurd rfl hk
  · rename_i c rest
    split at h
    case h_20 =>
      split at h
      · cases h; simp
      · cases h
    case h_21 =>
      split at h
      · rename_i hd
        cases h; exact number_taken_ne_nil hd
      · split at h
        · rename_i hn
          cases h; exact name_taken_ne_nil hn
        · cases h
    case h_14 =>
      split at h
      · cases h
      · cases h; exact operator_taken_ne_nil _ _ _ _
    all_goals
      cases h
      simp [symbol, operator_taken_ne_nil]

theorem scan_rest_length_lt {text : List Char} {p : Piece} (h : scan text = .ok p)
    (hk : p.kind ≠ .eof) : p.rest.length < text.length := by
  have hl := congrArg List.length (scan_append h)
  have hp := List.length_pos_iff.2 (scan_taken_ne_nil h hk)
  rw [List.length_append] at hl
  omega

def Piece.token (p : Piece) (start : Position) : Token :=
  ⟨p.kind, String.ofList p.taken, p.literal, start.line, start.column, start.offset⟩

/-- The tokens of a text that begins at a position. -/
def tokensFrom (pos : Position) (text : List Char) : Except LexError (List Token) :=
  let before := gap text
  let start := pos.after before.taken
  match _h : scan before.rest with
  | .error s =>
    let place := start.after s.read
    .error ⟨s.fault, place.line, place.column⟩
  | .ok p =>
    if _hk : p.kind = .eof then .ok [p.token start]
    else (tokensFrom (start.after p.taken) p.rest).map (p.token start :: ·)
termination_by text.length
decreasing_by
  exact Nat.lt_of_lt_of_le (scan_rest_length_lt ‹_› ‹_›) (gap_rest_length_le text)

end Lexer

/-- The tokens of a source text; the last one is the end of input. -/
def tokenize (source : String) : Except LexError (List Token) :=
  Lexer.tokensFrom .start source.toList

end ScriptEngine
