import Mathlib.Data.List.Infix
import ScriptEngine.Token.Lexer

/-!
# Where tokens lie

Tokens and the gaps between them make up the source. `Laid` says so of the tokens behind
a part of the source that has been read, and each token carries the position behind
what comes before it: `Position.behind` counts it from the text alone.

`Filler` is what may stand in a gap. A line comment without the end of its line can only
stand at the end of the source.
-/
namespace ScriptEngine

open Lexer

/-! ## Positions -/

/-- The position behind a text that stands at the start of a source. -/
def Position.behind (before : String) : Position :=
  ⟨before.toList.count '\n' + 1, (before.toList.reverse.takeWhile (· ≠ '\n')).length + 1,
    before.utf8ByteSize⟩

theorem Position.next_behind (before : String) (c : Char) :
    (behind before).next c = behind (before ++ c.toString) := by
  unfold next
  split
  · rename_i newline
    subst newline
    simp [behind]
    rfl
  · rename_i other
    simp [behind, other]

theorem Position.after_behind (before : String) (text : List Char) :
    (behind before).after text = behind (before ++ String.ofList text) := by
  induction text generalizing before with
  | nil => simp [after]
  | cons c text ih =>
    have joined : before ++ c.toString ++ String.ofList text = before ++ String.ofList (c :: text) := by
      apply String.toList_injective
      simp
    show ((behind before).next c).after text = _
    rw [next_behind, ih, joined]

/-! ## Gaps -/

/-- Blanks and comments. Where nothing follows, the last line comment may lack its newline. -/
inductive Filler (last : Prop) : List Char → Prop
  | nothing : Filler last []
  | blank {c : Char} {rest : List Char} (blank : Text.isBlank c = true) (more : Filler last rest) :
      Filler last (c :: rest)
  | line {body rest : List Char} (single : '\n' ∉ body) (more : Filler last rest) :
      Filler last ('/' :: '/' :: (body ++ '\n' :: rest))
  | block {body rest : List Char} (single : ¬ ['*', '/'] <:+: body) (more : Filler last rest) :
      Filler last ('/' :: '*' :: (body ++ '*' :: '/' :: rest))
  | lastLine {body : List Char} (ends : last) (single : '\n' ∉ body) : Filler last ('/' :: '/' :: body)

theorem Filler.mono {last last' : Prop} {text : List Char} (h : Filler last text) (imp : last → last') :
    Filler last' text := by
  induction h with
  | nothing => exact .nothing
  | blank blank _ ih => exact .blank blank ih
  | line single _ ih => exact .line single ih
  | block single _ ih => exact .block single ih
  | lastLine ends single => exact .lastLine (imp ends) single

/-- What is taken of a gap from outside of comments or from inside one. -/
def Lexer.GapMode.Fills (last : Prop) (text : List Char) : GapMode → Prop
  | .blank => Filler last text
  | .line => (last ∧ '\n' ∉ text) ∨
      ∃ body rest, '\n' ∉ body ∧ Filler last rest ∧ text = body ++ '\n' :: rest
  | .block => ∃ body rest, ¬ ['*', '/'] <:+: body ∧ Filler last rest ∧ text = body ++ '*' :: '/' :: rest

/-- One character more in front, which neither begins a comment nor ends one. -/
theorem Lexer.GapMode.Fills.skip {last : Prop} {c : Char} {taken : List Char} {mode : GapMode}
    (h : mode.Fills last taken) (blank : mode = .blank → Text.isBlank c = true)
    (line : mode = .line → c ≠ '\n')
    (block : ∀ front, mode = .block → c = '*' → taken = '/' :: front → False) :
    mode.Fills last (c :: taken) := by
  cases mode with
  | blank => exact .blank (blank rfl) h
  | line =>
    have other := line rfl
    rcases h with ⟨ends, single⟩ | ⟨body, more, single, filler, rfl⟩
    · exact .inl ⟨ends, by simp [single, other.symm]⟩
    · exact .inr ⟨c :: body, more, by simp [single, other.symm], filler, rfl⟩
  | block =>
    obtain ⟨body, more, single, filler, rfl⟩ := h
    refine ⟨c :: body, more, ?_, filler, rfl⟩
    rw [List.infix_cons_iff]
    rintro (first | later)
    · cases body with
      | nil => simp at first
      | cons d body =>
        simp only [List.cons_prefix_cons] at first
        obtain ⟨rfl, rfl, -⟩ := first
        exact block _ rfl rfl rfl
    · exact single later

theorem Lexer.gapFrom_fills {mode : GapMode} {text : List Char} {s : Split}
    (h : gapFrom mode text = some s) : mode.Fills (s.rest = []) s.taken := by
  fun_induction gapFrom mode text generalizing s with
  | case1 rest ih =>
    obtain ⟨t, ht, rfl⟩ := Option.map_eq_some_iff.1 h
    rcases ih ht with ⟨ends, single⟩ | ⟨body, more, single, filler, eq⟩
    · exact .lastLine ends single
    · simp only [Split.after, eq]
      exact .line single filler
  | case2 rest t ht ih =>
    cases h
    obtain ⟨body, more, single, filler, eq⟩ := ih ht
    simp only [Split.after, eq]
    exact .block single filler
  | case3 => cases h; exact .nothing
  | case4 rest ih =>
    obtain ⟨t, ht, rfl⟩ := Option.map_eq_some_iff.1 h
    exact .inr ⟨[], t.taken, by simp, ih ht, rfl⟩
  | case5 rest ih =>
    obtain ⟨t, ht, rfl⟩ := Option.map_eq_some_iff.1 h
    exact ⟨[], t.taken, by simp, ih ht, rfl⟩
  | case6 => cases h
  | case7 mode outside =>
    cases h
    cases mode with
    | blank => exact .nothing
    | line => exact .inl ⟨rfl, by simp⟩
    | block => exact (outside rfl).elim
  | case8 => cases h; simp_all [GapMode.Fills, Filler.nothing]
  | case9 mode c rest _ _ line block goesOn ih =>
    obtain ⟨t, ht, rfl⟩ := Option.map_eq_some_iff.1 h
    refine (ih ht).skip (fun blank => ?_) line fun front inside star slash => ?_
    · simpa [blank] using goesOn
    · refine block (front ++ t.rest) inside star ?_
      rw [← gapFrom_append ht, slash]
      rfl

theorem Lexer.gap_filler (text : List Char) : Filler ((gap text).rest = []) (gap text).taken := by
  unfold gap
  cases h : gapFrom .blank text with
  | none => exact .nothing
  | some s => exact gapFrom_fills h

/-! ## Tokens -/

namespace Lexer

/-- How a token begins with its first character, and what that character begins whatever comes then. -/
inductive Begins (c : Char) (rest : List Char) : Piece → Prop
  | symbol {kind : TokenKind} (real : kind ≠ .eof) (always : ∀ r, scan (c :: r) = .ok (symbol kind c r)) :
      Begins c rest (symbol kind c rest)
  | operator {plain assigned : TokenKind} (real : plain ≠ .eof ∧ assigned ≠ .eof)
      (always : ∀ r, r.head? ≠ some '*' → scan (c :: r) = .ok (operator plain assigned c r)) :
      Begins c rest (operator plain assigned c rest)
  | string {q : Quoted} (quote : c = '"') (body : quoted rest = .ok q) :
      Begins c rest ⟨.string, .string (String.ofList q.value), c :: q.taken, q.rest⟩
  | number (digit : c.isDigit = true) (always : ∀ r, scan (c :: r) = .ok (number (c :: r))) :
      Begins c rest (number (c :: rest))
  | name (start : isNameStart c = true) (always : ∀ r, scan (c :: r) = .ok (name (c :: r))) :
      Begins c rest (name (c :: rest))

theorem begins_of_scan {c : Char} {rest : List Char} {p : Piece} (h : scan (c :: rest) = .ok p) :
    Begins c rest p := by
  unfold scan at h
  dsimp only at h
  split at h
  case h_14 =>
    split at h
    · cases h
    · cases h
      exact .operator (by decide) fun r other => if_neg other
  case h_20 =>
    split at h
    · rename_i q body
      cases h
      exact .string rfl body
    · cases h
  case h_21 =>
    have other (r : List Char) : scan (c :: r) = if c.isDigit then .ok (number (c :: r))
        else if isNameStart c then .ok (name (c :: r)) else .error ⟨.unexpected c, []⟩ := by
      unfold scan
      dsimp only
      split
      case h_21 => rfl
      all_goals exact absurd rfl (by assumption)
    split at h
    · rename_i digit
      cases h
      exact .number digit fun r => by rw [other, if_pos digit]
    · split at h
      · rename_i digit start
        cases h
        exact .name start fun r => by rw [other, if_neg digit, if_pos start]
      · cases h
  all_goals
    cases h
    first
      | exact .symbol (by decide) fun r => rfl
      | exact .operator (by decide) fun r other => rfl

theorem number_kind (text : List Char) : (number text).kind = .number := by
  unfold number
  split
  · split <;> rfl
  · rfl

/-- A name is an identifier or a keyword. -/
theorem name_kind (text : List Char) :
    (name text).kind = .identifier ∨ ∃ word, (word, (name text).kind) ∈ TokenKind.keywords := by
  cases word : TokenKind.keyword? (String.ofList (text.takeWhile isNamePart)) with
  | none => simp [name, word]
  | some kind =>
    obtain ⟨front, back, split, -⟩ := List.lookup_eq_some_iff.1 word
    right
    exact ⟨String.ofList (text.takeWhile isNamePart), by simp [name, word, split]⟩

theorem name_kind_ne {kind : TokenKind} (other : kind ≠ .identifier)
    (none : ∀ entry ∈ TokenKind.keywords, entry.2 ≠ kind) (text : List Char) : (name text).kind ≠ kind := by
  intro same
  rcases name_kind text with plain | ⟨word, mem⟩
  · exact other (same.symm.trans plain)
  · exact none _ mem same

theorem Begins.kind_ne_eof {c : Char} {rest : List Char} {p : Piece} (h : Begins c rest p) :
    p.kind ≠ .eof := by
  cases h with
  | symbol real => exact real
  | operator real =>
    unfold Lexer.operator
    split
    · exact real.2
    · exact real.1
  | string => simp
  | number => simp [number_kind]
  | name => exact name_kind_ne (by decide) (by decide) _

/-- The end of input is found at the end of the text only. -/
theorem scan_eof {text : List Char} {p : Piece} (h : scan text = .ok p) (eof : p.kind = .eof) :
    text = [] := by
  cases text with
  | nil => rfl
  | cons c rest => exact ((begins_of_scan h).kind_ne_eof eof).elim

/-- A text has these tokens: each is cut off behind a gap, and the end of input is the last one. -/
inductive Lexes : Position → List Char → List Token → Prop
  | last {pos : Position} {text : List Char} {p : Piece} (found : scan (gap text).rest = .ok p)
      (eof : p.kind = .eof) : Lexes pos text [p.token (pos.after (gap text).taken)]
  | token {pos : Position} {text : List Char} {p : Piece} {ts : List Token}
      (found : scan (gap text).rest = .ok p) (real : p.kind ≠ .eof)
      (more : Lexes ((pos.after (gap text).taken).after p.taken) p.rest ts) :
      Lexes pos text (p.token (pos.after (gap text).taken) :: ts)

theorem tokensFrom_of_scan {pos : Position} {text : List Char} {p : Piece}
    (found : scan (gap text).rest = .ok p) : tokensFrom pos text =
      if p.kind = .eof then .ok [p.token (pos.after (gap text).taken)]
      else (tokensFrom ((pos.after (gap text).taken).after p.taken) p.rest).map
        (p.token (pos.after (gap text).taken) :: ·) := by
  rw [tokensFrom.eq_def]
  dsimp only
  split
  · rename_i other
    rw [found] at other
    cases other
  · rename_i q other
    obtain rfl : q = p := Except.ok.inj (other.symm.trans found)
    split <;> rfl

theorem lexes_of_tokensFrom {pos : Position} {text : List Char} {ts : List Token}
    (h : tokensFrom pos text = .ok ts) : Lexes pos text ts := by
  fun_induction tokensFrom pos text generalizing ts with
  | case1 => cases h
  | case2 =>
    rename_i found eof
    cases h
    exact .last found eof
  | case3 =>
    rename_i start p found real ih
    cases more : tokensFrom (start.after p.taken) p.rest with
    | error e => rw [more] at h; cases h
    | ok us =>
      rw [more] at h
      cases h
      exact .token found real (ih more)

theorem Lexes.tokensFrom {pos : Position} {text : List Char} {ts : List Token}
    (h : Lexes pos text ts) : tokensFrom pos text = .ok ts := by
  induction h with
  | last found eof => rw [tokensFrom_of_scan found, if_pos eof]
  | token found real _ ih =>
    rw [tokensFrom_of_scan found, if_neg real, ih]
    rfl

end Lexer

/-! ## Layout -/

def Token.position (t : Token) : Position := ⟨t.line, t.character, t.offset⟩

/-- The offset behind a token. -/
def Token.stop (t : Token) : Nat := t.offset + t.lexeme.utf8ByteSize

/-- Gaps and tokens make up a text that stands behind another one. -/
inductive Laid : String → List Token → String → Prop
  | last {before gap : String} {t : Token} (filler : Filler True gap.toList) (eof : t.kind = .eof)
      (empty : t.lexeme = "") (place : t.position = .behind (before ++ gap)) : Laid before [t] gap
  | token {before gap rest : String} {t : Token} {ts : List Token} (filler : Filler False gap.toList)
      (real : t.kind ≠ .eof) (place : t.position = .behind (before ++ gap))
      (more : Laid (before ++ gap ++ t.lexeme) ts rest) : Laid before (t :: ts) (gap ++ t.lexeme ++ rest)

theorem Lexer.Lexes.laid {pos : Position} {text : List Char} {ts : List Token} (h : Lexes pos text ts)
    {b : String} (place : pos = .behind b) : Laid b ts (String.ofList text) := by
  induction h generalizing b with
  | @last pos text p found eof =>
    have ends := scan_eof found eof
    have taken : p.taken = [] := (List.append_eq_nil_iff.mp ((scan_append found).trans ends)).1
    have all : (gap text).taken = text := by simpa [ends] using gap_append text
    have filler := (gap_filler text).mono fun _ => trivial
    rw [all] at filler
    refine .last (by simpa using filler) eof (by simp [Piece.token, taken]) ?_
    simp [Token.position, Piece.token, place, Position.after_behind, all]
  | @token pos text p ts found real more ih =>
    have split : String.ofList text =
        String.ofList (gap text).taken ++ String.ofList p.taken ++ String.ofList p.rest := by
      rw [← String.ofList_append, ← String.ofList_append, List.append_assoc, scan_append found, gap_append]
    have inside : (gap text).rest ≠ [] := by
      intro ends
      rw [ends] at found
      cases found
      exact real rfl
    rw [place, Position.after_behind] at ih ⊢
    rw [split]
    refine .token ?_ real rfl (ih (Position.after_behind _ _))
    simpa using (gap_filler text).mono inside

/-- The text stands between two byte offsets of a source. -/
def Sliced (source : String) (start stop : Nat) (text : String) : Prop :=
  ∃ before after, source = before ++ text ++ after ∧ before.utf8ByteSize = start ∧
    start + text.utf8ByteSize = stop

/-- The bounds of the gaps: in front of each token and behind the last one. -/
def gapBounds (start stop : Nat) (tokens : List Token) : List (Nat × Nat) :=
  (start :: tokens.map Token.stop).zip (tokens.map (·.offset) ++ [stop])

theorem gapBounds_cons (start stop : Nat) (t : Token) (ts : List Token) :
    gapBounds start stop (t :: ts) = (start, t.offset) :: gapBounds t.stop stop ts := rfl

section Laid
variable {before text : String} {ts : List Token}

theorem Token.offset_of_position {t : Token} {front : String} (place : t.position = .behind front) :
    t.offset = front.utf8ByteSize :=
  congrArg Position.offset place

theorem Laid.located (h : Laid before ts text) : ∀ t ∈ ts, ∃ front back,
    before ++ text = front ++ t.lexeme ++ back ∧ t.position = .behind front := by
  induction h with
  | @last before gap t _ _ empty place =>
    simp only [List.mem_singleton, forall_eq]
    exact ⟨before ++ gap, "", by simp [empty], place⟩
  | @token before gap rest t ts _ _ place _ ih =>
    simp only [← String.append_assoc] at ih ⊢
    rintro u (_ | ⟨_, later⟩)
    · exact ⟨before ++ gap, rest, rfl, place⟩
    · exact ih u later

theorem Laid.le_offset (h : Laid before ts text) : ∀ t ∈ ts, before.utf8ByteSize ≤ t.offset := by
  induction h with
  | @last before gap t _ _ _ place =>
    simp only [List.mem_singleton, forall_eq, Token.offset_of_position place, String.utf8ByteSize_append]
    omega
  | @token before gap rest t ts _ _ place _ ih =>
    have offset := Token.offset_of_position place
    simp only [String.utf8ByteSize_append] at ih offset
    rintro u (_ | ⟨_, later⟩)
    · omega
    · have := ih u later
      omega

theorem Laid.apart (h : Laid before ts text) : ts.Pairwise fun t u => t.stop ≤ u.offset := by
  induction h with
  | last => exact List.pairwise_singleton _ _
  | token _ _ place more ih =>
    refine List.pairwise_cons.mpr ⟨fun u later => ?_, ih⟩
    have behind := more.le_offset u later
    rwa [String.utf8ByteSize_append, ← Token.offset_of_position place] at behind

theorem Laid.gaps (h : Laid before ts text) :
    ∀ bounds ∈ gapBounds before.utf8ByteSize (before ++ text).utf8ByteSize ts, ∃ gap,
      Sliced (before ++ text) bounds.1 bounds.2 gap ∧
        Filler (bounds.2 = (before ++ text).utf8ByteSize) gap.toList := by
  induction h with
  | @last before gap t filler _ empty place =>
    have offset := Token.offset_of_position place
    have stop : t.stop = (before ++ gap).utf8ByteSize := by simp [Token.stop, empty, offset]
    have one : gapBounds before.utf8ByteSize (before ++ gap).utf8ByteSize [t] =
        [(before.utf8ByteSize, t.offset), (t.stop, (before ++ gap).utf8ByteSize)] := rfl
    rw [one, List.forall_mem_cons, List.forall_mem_singleton]
    refine ⟨⟨gap, ⟨before, "", by simp, rfl, ?_⟩, filler.mono fun _ => offset⟩, "",
      ⟨before ++ gap, "", by simp, stop.symm, by simp [stop]⟩, .nothing⟩
    rw [offset, String.utf8ByteSize_append]
  | @token before gap rest t ts filler _ place _ ih =>
    have offset := Token.offset_of_position place
    have stop : t.stop = (before ++ gap ++ t.lexeme).utf8ByteSize := by
      simp [Token.stop, offset]
    rw [gapBounds_cons, List.forall_mem_cons, stop]
    simp only [← String.append_assoc] at ih ⊢
    refine ⟨⟨gap, ⟨before, t.lexeme ++ rest, by simp [String.append_assoc], rfl, ?_⟩, filler.mono False.elim⟩, ih⟩
    rw [offset, String.utf8ByteSize_append]

theorem Laid.ends (h : Laid before ts text) : ∃ front last, ts = front ++ [last] ∧
    (∀ t ∈ front, t.kind ≠ .eof) ∧ last.kind = .eof ∧ last.offset = (before ++ text).utf8ByteSize := by
  induction h with
  | @last before gap t _ eof _ place =>
    exact ⟨[], t, rfl, by simp, eof, Token.offset_of_position place⟩
  | @token before gap rest t ts _ real _ _ ih =>
    obtain ⟨front, last, rfl, others, eof, offset⟩ := ih
    refine ⟨t :: front, last, rfl, List.forall_mem_cons.mpr ⟨real, others⟩, eof, ?_⟩
    simpa only [← String.append_assoc] using offset

end Laid

/-- Tokens lose nothing of a source and are located in it. -/
structure Located (source : String) (tokens : List Token) : Prop where
  /-- A lexeme stands at the offset of its token. The line and the character are counted from what
  comes before it. -/
  place : ∀ t ∈ tokens, ∃ before after, source = before ++ t.lexeme ++ after ∧
    t.offset = before.utf8ByteSize ∧ t.line = before.toList.count '\n' + 1 ∧
    t.character = (before.toList.reverse.takeWhile (· ≠ '\n')).length + 1
  apart : tokens.Pairwise fun t u => t.stop ≤ u.offset
  /-- Between tokens, in front of the first and behind the last one are blanks and comments. -/
  gaps : ∀ bounds ∈ gapBounds 0 source.utf8ByteSize tokens, ∃ gap,
    Sliced source bounds.1 bounds.2 gap ∧ Filler (bounds.2 = source.utf8ByteSize) gap.toList
  ends : ∃ front last, tokens = front ++ [last] ∧ (∀ t ∈ front, t.kind ≠ .eof) ∧ last.kind = .eof ∧
    last.offset = source.utf8ByteSize

/-- The tokens of a source are located in it: in order and apart from each other, with nothing but
blanks and whole comments around them, and the end of input alone at the end of the source. -/
theorem tokenize_located {source : String} {tokens : List Token} (lexed : tokenize source = .ok tokens) :
    Located source tokens := by
  have laid : Laid "" tokens source := by
    have h := (lexes_of_tokensFrom lexed).laid (b := "") rfl
    rwa [String.ofList_toList] at h
  have located := laid.located
  have gaps := laid.gaps
  have ends := laid.ends
  rw [String.empty_append] at located gaps ends
  refine ⟨fun t mem => ?_, laid.apart, gaps, ends⟩
  obtain ⟨before, after, split, place⟩ := located t mem
  exact ⟨before, after, split, congrArg Position.offset place, congrArg Position.line place,
    congrArg Position.column place⟩

/-- A comment of two lines, a string with a character of two bytes, and a comment at the end. -/
theorem tokenize_located_small :
    tokenize "a\n/* b\n */\"é\" // c" = .ok [⟨.identifier, "a", .none, 1, 1, 0⟩,
        ⟨.string, "\"é\"", .string "é", 3, 4, 10⟩, .endOfInput 3 12 19] ∧
      Located "a\n/* b\n */\"é\" // c" [⟨.identifier, "a", .none, 1, 1, 0⟩,
        ⟨.string, "\"é\"", .string "é", 3, 4, 10⟩, .endOfInput 3 12 19] := by
  have lexed : tokenize "a\n/* b\n */\"é\" // c" = .ok [⟨.identifier, "a", .none, 1, 1, 0⟩,
      ⟨.string, "\"é\"", .string "é", 3, 4, 10⟩, .endOfInput 3 12 19] := by
    have name : scan (gap "a\n/* b\n */\"é\" // c".toList).rest =
      .ok ⟨.identifier, .none, ['a'], "\n/* b\n */\"é\" // c".toList⟩ := by decide +kernel
    have text : scan (gap "\n/* b\n */\"é\" // c".toList).rest =
      .ok ⟨.string, .string "é", "\"é\"".toList, " // c".toList⟩ := by decide +kernel
    have eof : scan (gap " // c".toList).rest = .ok ⟨.eof, .none, [], []⟩ := by decide +kernel
    rw [tokenize, tokensFrom_of_scan name, if_neg (by decide), tokensFrom_of_scan text,
      if_neg (by decide), tokensFrom_of_scan eof, if_pos rfl]
    decide +kernel
  exact ⟨lexed, tokenize_located lexed⟩

end ScriptEngine
