import ScriptEngine.Proofs.Respacing

/-!
# String literals

Between its quotes a string is written character by character. A backslash and a quote are
always escaped; a newline, a tab, a carriage return and a NUL may be; every other character
stands for itself. Whatever is written so has one token, and its literal is what was written.

The bodies of the string tokens of any source are written so too, and their literals are
found by undoing the escapes.
-/
namespace ScriptEngine

open Lexer

namespace Lexer

/-- The characters that have an escape, each with the letter behind the backslash. -/
def escapes : List (Char × Char) :=
  [('\n', 'n'), ('\t', 't'), ('\r', 'r'), ('\x00', '0'), ('"', '"'), ('\\', '\\')]

theorem unescape_of_mem {value letter : Char} (pair : (value, letter) ∈ escapes) :
    unescape letter = some value := by
  simp only [escapes, List.mem_cons, Prod.mk.injEq, List.not_mem_nil, or_false] at pair
  rcases pair with ⟨rfl, rfl⟩ | ⟨rfl, rfl⟩ | ⟨rfl, rfl⟩ | ⟨rfl, rfl⟩ | ⟨rfl, rfl⟩ | ⟨rfl, rfl⟩ <;> rfl

theorem mem_of_unescape {value letter : Char} (h : unescape letter = some value) :
    (value, letter) ∈ escapes := by
  unfold unescape at h
  split at h <;> cases h <;> simp [escapes]

/-- A text that stands for a string between two quotes: its characters, bare or escaped. -/
inductive Encodes : List Char → List Char → Prop
  | nil : Encodes [] []
  | bare {c : Char} {value body : List Char} (quote : c ≠ '"') (backslash : c ≠ '\\')
      (more : Encodes value body) : Encodes (c :: value) (c :: body)
  | escape {c letter : Char} {value body : List Char} (pair : (c, letter) ∈ escapes)
      (more : Encodes value body) : Encodes (c :: value) ('\\' :: letter :: body)

/-- What a backslash and a letter stand for. -/
def undo (letter : Char) : Char := ((escapes.find? (·.2 = letter)).map (·.1)).getD letter

/-- A text with its escapes undone. -/
def undone : List Char → List Char
  | '\\' :: letter :: rest => undo letter :: undone rest
  | c :: rest => c :: undone rest
  | [] => []

theorem undo_of_mem {c letter : Char} (pair : (c, letter) ∈ escapes) : undo letter = c := by
  simp only [escapes, List.mem_cons, Prod.mk.injEq, List.not_mem_nil, or_false] at pair
  rcases pair with ⟨rfl, rfl⟩ | ⟨rfl, rfl⟩ | ⟨rfl, rfl⟩ | ⟨rfl, rfl⟩ | ⟨rfl, rfl⟩ | ⟨rfl, rfl⟩ <;> rfl

/-- A text stands for one string. -/
theorem Encodes.undone {value body : List Char} (h : Encodes value body) : undone body = value := by
  induction h with
  | nil => rfl
  | bare _ backslash _ ih =>
    rw [Lexer.undone, ih]
    exact fun _ _ eq => absurd eq backslash
  | escape pair _ ih => rw [Lexer.undone, ih, undo_of_mem pair]

/-- The scanner reads an encoded string up to the quote behind it, and no further. -/
theorem Encodes.quoted {value body : List Char} (h : Encodes value body) (rest : List Char) :
    quoted (body ++ '"' :: rest) = .ok ⟨value, body ++ ['"'], rest⟩ := by
  induction h with
  | nil => rfl
  | bare quote backslash _ ih =>
    rw [List.cons_append, Lexer.quoted, ih]
    · rfl
    · exact quote
    · exact fun eq => absurd eq backslash
    · exact fun _ _ eq => absurd eq backslash
  | escape pair _ ih =>
    rw [List.cons_append, List.cons_append, Lexer.quoted, unescape_of_mem pair, ih]
    rfl

/-- What the scanner reads up to a quote encodes the string that it finds. -/
theorem encodes_of_quoted {text : List Char} {q : Quoted} (h : quoted text = .ok q) :
    ∃ body, q.taken = body ++ ['"'] ∧ Encodes q.value body := by
  fun_induction Lexer.quoted text generalizing q with
  | case1 | case3 | case5 => cases h
  | case2 =>
    cases h
    exact ⟨[], rfl, .nil⟩
  | case4 letter rest value known ih =>
    obtain ⟨p, hp, rfl⟩ := extend_ok h
    obtain ⟨body, taken, encodes⟩ := ih hp
    exact ⟨'\\' :: letter :: body, by simp [Quoted.after, taken], .escape (mem_of_unescape known) encodes⟩
  | case6 c rest quote last escape ih =>
    obtain ⟨p, hp, rfl⟩ := extend_ok h
    obtain ⟨body, taken, encodes⟩ := ih hp
    have backslash : c ≠ '\\' := by
      intro eq
      cases rest with
      | nil => exact last eq rfl
      | cons d rest => exact escape d rest eq rfl
    exact ⟨c :: body, by simp [Quoted.after, taken], .bare quote backslash encodes⟩

/-- A string token is an encoded string between two quotes. -/
theorem scan_string {text : List Char} {p : Piece} (found : scan text = .ok p) (kind : p.kind = .string) :
    ∃ body value, p.taken = '"' :: (body ++ ['"']) ∧ p.literal = .string (String.ofList value) ∧
      Encodes value body := by
  unfold scan at found
  split at found
  · cases found
    cases kind
  · split at found
    case h_20 =>
      split at found
      · rename_i q read
        cases found
        obtain ⟨body, taken, encodes⟩ := encodes_of_quoted read
        exact ⟨body, q.value, by rw [taken], rfl, encodes⟩
      · cases found
    case h_21 =>
      split at found
      · cases found
        cases kind.symm.trans (number_kind _)
      · split at found
        · cases found
          exact (name_kind_ne (by decide) (by decide) _ kind).elim
        · cases found
    case h_14 =>
      split at found
      · cases found
      · cases found
        unfold operator at kind
        split at kind <;> cases kind
    all_goals
      cases found
      first
        | cases kind
        | unfold operator at kind; split at kind <;> cases kind

theorem Lexes.encodes {pos : Position} {text : List Char} {ts : List Token} (h : Lexes pos text ts) :
    ∀ t ∈ ts, t.kind = .string → ∃ body value, t.lexeme = String.ofList ('"' :: (body ++ ['"'])) ∧
      t.literal = .string (String.ofList value) ∧ Encodes value body := by
  induction h with
  | last found eof =>
    intro t mem kind
    obtain rfl := List.mem_singleton.mp mem
    cases eof.symm.trans kind
  | token found _ _ ih =>
    intro t mem kind
    cases mem with
    | head =>
      obtain ⟨body, value, taken, literal, encodes⟩ := scan_string found kind
      exact ⟨body, value, congrArg String.ofList taken, literal, encodes⟩
    | tail _ mem => exact ih t mem kind

end Lexer

/-- A text between two quotes. -/
def quotation (body : List Char) : String := String.ofList ('"' :: (body ++ ['"']))

/-- The end of input behind a text. -/
def Token.endBehind (text : String) : Token :=
  .endOfInput (Position.behind text).line (Position.behind text).column (Position.behind text).offset

/-- The tokens of an encoded string between quotes. -/
theorem Lexer.Encodes.lexes {value body : List Char} (h : Encodes value body) :
    Lexes .start (quotation body).toList [⟨.string, quotation body, .string (String.ofList value), 1, 1, 0⟩,
      Token.endBehind (quotation body)] := by
  have cut : gap ('"' :: (body ++ ['"'])) = ⟨[], '"' :: (body ++ ['"'])⟩ :=
    gap_solid (by decide) fun slash => absurd slash (by decide)
  have found : scan (gap (quotation body).toList).rest =
      .ok ⟨.string, .string (String.ofList value), '"' :: (body ++ ['"']), []⟩ := by
    simp only [quotation, String.toList_ofList, cut, scan, h.quoted []]
  have start : Position.start.after (gap (quotation body).toList).taken = .start := by
    simp only [quotation, String.toList_ofList, cut]
    rfl
  have place : Position.start.after ('"' :: (body ++ ['"'])) = .behind (quotation body) := by
    have behind := Position.after_behind "" ('"' :: (body ++ ['"']))
    rwa [String.empty_append] at behind
  have token := @Lexes.token .start _ _ _ found (show TokenKind.string ≠ .eof by decide)
    (.last (p := ⟨.eof, .none, [], []⟩) rfl rfl)
  rw [start, place] at token
  exact token

/-- A string that is written between quotes, with its quotes and backslashes escaped and perhaps
other characters, has one token and then the end of input; and the literal of every string token is
the text between the quotes of its lexeme with the escapes undone. -/
theorem tokenize_quotation :
    (∀ value body : List Char, Encodes value body → tokenize (quotation body) =
      .ok [⟨.string, quotation body, .string (String.ofList value), 1, 1, 0⟩,
        Token.endBehind (quotation body)]) ∧
    ∀ (source : String) (tokens : List Token), tokenize source = .ok tokens →
      ∀ t ∈ tokens, t.kind = .string → ∃ body, t.lexeme = quotation body ∧
        t.literal = .string (String.ofList (undone body)) ∧ Encodes (undone body) body := by
  constructor
  · intro value body encodes
    exact encodes.lexes.tokensFrom
  · intro source tokens lexed t mem kind
    obtain ⟨body, value, lexeme, literal, encodes⟩ := (lexes_of_tokensFrom lexed).encodes t mem kind
    have unique := encodes.undone
    refine ⟨body, lexeme, ?_, ?_⟩
    · rw [literal, unique]
    · rw [unique]
      exact encodes

/-- A quote, a backslash, a newline as itself and one escaped, and a character of two bytes: there
and back. -/
theorem tokenize_quotation_mixed :
    Encodes ['"', '\\', '\n', '\n', 'é'] ['\\', '"', '\\', '\\', '\n', '\\', 'n', 'é'] ∧
      tokenize "\"\\\"\\\\\n\\né\"" = .ok [⟨.string, "\"\\\"\\\\\n\\né\"", .string "\"\\\n\né", 1, 1, 0⟩,
        .endOfInput 2 5 11] ∧
      ∃ body, "\"\\\"\\\\\n\\né\"" = quotation body ∧
        Literal.string "\"\\\n\né" = .string (String.ofList (undone body)) ∧ Encodes (undone body) body := by
  have encodes : Encodes ['"', '\\', '\n', '\n', 'é'] ['\\', '"', '\\', '\\', '\n', '\\', 'n', 'é'] := by
    apply Encodes.escape (by decide)
    apply Encodes.escape (by decide)
    apply Encodes.bare (by decide) (by decide)
    apply Encodes.escape (by decide)
    exact .bare (by decide) (by decide) .nil
  have lexed := tokenize_quotation.1 _ _ encodes
  constructor
  · exact encodes
  constructor
  · exact lexed.trans (by decide +kernel)
  · exact tokenize_quotation.2 _ _ lexed _ List.mem_cons_self rfl

end ScriptEngine
