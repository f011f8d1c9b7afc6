import Mathlib.Data.List.TakeWhile
import ScriptEngine.Proofs.Locating

/-!
# Lexemes with spaces between them

Every token is cut off in the same way when a space follows it, or nothing. So the lexemes
of a source with single spaces between them have the tokens that the source has, but for
their places.
-/
namespace ScriptEngine

open Lexer

namespace Lexer

/-- Nothing, or a space in front. -/
def Spaced (rest : List Char) : Prop := ∀ c ∈ rest.head?, c = ' '

/-! ## Gaps -/

theorem gapFrom_blank_ne_none {mode : GapMode} {text : List Char} (h : gapFrom mode text = none) :
    mode = .block := by
  fun_induction gapFrom mode text with
  | case1 rest ih | case4 rest ih | case5 rest ih => cases ih (Option.map_eq_none_iff.mp h)
  | case2 | case3 | case7 | case8 => cases h
  | case6 => rfl
  | case9 mode c rest _ _ _ _ _ ih => exact ih (Option.map_eq_none_iff.mp h)

theorem gapFrom_rest_head {mode : GapMode} {text : List Char} {s : Split} (h : gapFrom mode text = some s)
    {c : Char} {rest : List Char} (front : s.rest = c :: rest) : Text.isBlank c = false := by
  fun_induction gapFrom mode text generalizing s with
  | case1 _ ih | case4 _ ih | case5 _ ih | case9 _ _ _ _ _ _ _ _ ih =>
    obtain ⟨t, ht, rfl⟩ := Option.map_eq_some_iff.1 h
    exact ih ht front
  | case2 _ t ht ih =>
    cases h
    exact ih ht front
  | case3 =>
    cases h
    cases front
    decide
  | case6 => cases h
  | case7 =>
    cases h
    cases front
  | case8 mode d rest _ _ _ _ solid =>
    cases h
    cases front
    exact solid.2

/-- No gap is left in front of a token. -/
theorem gap_rest_head {text rest : List Char} {c : Char} (front : (gap text).rest = c :: rest) :
    Text.isBlank c = false := by
  unfold gap at front
  cases h : gapFrom .blank text with
  | none => cases gapFrom_blank_ne_none h
  | some s =>
    rw [h] at front
    exact gapFrom_rest_head h front

theorem gapFrom_solid {c : Char} {rest : List Char} (solid : Text.isBlank c = false)
    (plain : c = '/' → rest.head? ≠ some '/' ∧ rest.head? ≠ some '*') :
    gapFrom .blank (c :: rest) = some ⟨[], c :: rest⟩ := by
  rw [gapFrom.eq_def]
  split
  case h_1 | h_2 =>
    rename_i text
    cases text
    simp at plain
  case h_3 => cases ‹GapMode.blank = GapMode.line›
  case h_4 | h_5 => cases ‹GapMode.blank = GapMode.block›
  case h_6 => cases ‹c :: rest = []›
  case h_7 =>
    rename_i text _ _ _ _
    cases text
    exact if_pos ⟨rfl, solid⟩

/-- A space in front of a token is its gap. -/
theorem gap_space {c : Char} {rest : List Char} (solid : Text.isBlank c = false)
    (plain : c = '/' → rest.head? ≠ some '/' ∧ rest.head? ≠ some '*') :
    gap (' ' :: c :: rest) = ⟨[' '], c :: rest⟩ := by
  have space : gapFrom .blank (' ' :: c :: rest) = (gapFrom .blank (c :: rest)).map (.after [' ']) := rfl
  rw [gap, space, gapFrom_solid solid plain]
  rfl

theorem gap_solid {c : Char} {rest : List Char} (solid : Text.isBlank c = false)
    (plain : c = '/' → rest.head? ≠ some '/' ∧ rest.head? ≠ some '*') :
    gap (c :: rest) = ⟨[], c :: rest⟩ := by
  rw [gap, gapFrom_solid solid plain]
  rfl

/-! ## Tokens -/

theorem takeWhile_spaced {f : Char → Bool} (space : f ' ' = false) {front rest : List Char}
    (all : ∀ c ∈ front, f c = true) (spaced : Spaced rest) :
    (front ++ rest).takeWhile f = front ∧ (front ++ rest).dropWhile f = rest := by
  rw [List.takeWhile_append_of_pos all, List.dropWhile_append_of_pos all]
  cases rest with
  | nil => simp
  | cons c rest =>
    obtain rfl : c = ' ' := spaced c rfl
    simp [space]

theorem quoted_append_rest {text : List Char} {q : Quoted} (h : quoted text = .ok q) (rest : List Char) :
    quoted (q.taken ++ rest) = .ok { q with rest } := by
  fun_induction quoted text generalizing q with
  | case1 | case3 | case5 => cases h
  | case2 => cases h; rfl
  | case4 c _ value known ih =>
    obtain ⟨p, hp, rfl⟩ := extend_ok h
    have body := ih hp
    simp only [Quoted.after, List.cons_append, List.nil_append] at body ⊢
    rw [quoted, known, body]
    rfl
  | case6 c text quote bare escape ih =>
    obtain ⟨p, hp, rfl⟩ := extend_ok h
    have body := ih hp
    have plain : c ≠ '\\' := by
      intro eq
      cases text with
      | nil => exact bare eq rfl
      | cons d text => exact escape d text eq rfl
    simp only [Quoted.after, List.cons_append, List.nil_append] at body ⊢
    rw [quoted, body]
    · rfl
    · exact quote
    · exact fun eq => absurd eq plain
    · exact fun _ _ eq => absurd eq plain

theorem number_whole {whole r : List Char} (digits : ∀ c ∈ whole, c.isDigit = true) (spaced : Spaced r) :
    number (whole ++ r) = ⟨.number, .number (.ofDecimal (digitsValue whole) 0), whole, r⟩ := by
  obtain ⟨taken, left⟩ := takeWhile_spaced (by decide) digits spaced
  unfold number
  rw [taken, left]
  cases r with
  | nil => rfl
  | cons c r =>
    obtain rfl : c = ' ' := spaced c rfl
    rfl

theorem number_point {whole places r : List Char} {d : Char} (digits : ∀ c ∈ whole, c.isDigit = true)
    (decimals : ∀ c ∈ d :: places, c.isDigit = true) (spaced : Spaced r) :
    number (whole ++ '.' :: (d :: places) ++ r) =
      ⟨.number, .number (.ofDecimal (digitsValue (whole ++ d :: places)) (d :: places).length),
        whole ++ '.' :: d :: places, r⟩ := by
  have point : ('.' :: ((d :: places) ++ r)).takeWhile Char.isDigit = [] := by simp
  obtain ⟨taken, left⟩ := takeWhile_spaced (by decide) decimals spaced
  have first : d.isDigit = true := decimals d List.mem_cons_self
  unfold number
  rw [List.append_assoc, List.cons_append, List.takeWhile_append_of_pos digits,
    List.dropWhile_append_of_pos digits, point, List.append_nil]
  have stop : ('.' :: (d :: places ++ r)).dropWhile Char.isDigit = '.' :: d :: (places ++ r) := by simp
  rw [stop]
  show (if d.isDigit = true then _ else _) = _
  rw [if_pos first, ← List.cons_append, taken, left]

theorem number_spaced {text r : List Char} (spaced : Spaced r) :
    number ((number text).taken ++ r) = { number text with rest := r } := by
  have digits (cs : List Char) : ∀ d ∈ cs.takeWhile Char.isDigit, d.isDigit = true :=
    fun d mem => List.mem_takeWhile_imp mem
  rw [number.eq_def text]
  dsimp only
  split
  · rename_i d rest _
    split
    · rename_i digit
      have decimals := digits (d :: rest)
      rw [List.takeWhile_cons_of_pos digit] at decimals ⊢
      exact number_point (digits _) decimals spaced
    · exact number_whole (digits _) spaced
  · exact number_whole (digits _) spaced

theorem name_spaced {text r : List Char} (spaced : Spaced r) :
    name ((name text).taken ++ r) = { name text with rest := r } := by
  have parts : ∀ c ∈ text.takeWhile isNamePart, isNamePart c = true := fun c mem => List.mem_takeWhile_imp mem
  have space : isNamePart ' ' = false := by decide +kernel
  obtain ⟨taken, left⟩ := takeWhile_spaced space parts spaced
  simp only [name, taken, left]

theorem operator_spaced (plain assigned : TokenKind) (c : Char) (rest : List Char) :
    ∃ t, (operator plain assigned c rest).taken = c :: t ∧ (t = [] ∨ t = ['=']) ∧
      ∀ r, Spaced r → operator plain assigned c (t ++ r) = { operator plain assigned c rest with rest := r } := by
  unfold operator
  split
  · exact ⟨['='], rfl, .inr rfl, fun r _ => rfl⟩
  · refine ⟨[], rfl, .inl rfl, fun r spaced => ?_⟩
    cases r with
    | nil => rfl
    | cons d r =>
      obtain rfl : d = ' ' := spaced d rfl
      rfl

/-- A piece that is cut off in the same way when a space follows it, or nothing. -/
structure Alone (p : Piece) : Prop where
  scans : ∀ r, Spaced r → scan (p.taken ++ r) = .ok { p with rest := r }
  solid : ∀ r, Spaced r → gap (p.taken ++ r) = ⟨[], p.taken ++ r⟩
  spaced : ∀ r, Spaced r → gap (' ' :: (p.taken ++ r)) = ⟨[' '], p.taken ++ r⟩

/-- No token begins a comment. -/
theorem Alone.of_scans {p : Piece} {c : Char} {t : List Char} (taken : p.taken = c :: t)
    (blank : Text.isBlank c = false) (scans : ∀ r, Spaced r → scan (c :: (t ++ r)) = .ok { p with rest := r })
    (plain : c = '/' → t = [] ∨ t = ['=']) : Alone p := by
  have opens (r : List Char) (spaced : Spaced r) :
      c = '/' → (t ++ r).head? ≠ some '/' ∧ (t ++ r).head? ≠ some '*' := by
    intro slash
    rcases plain slash with rfl | rfl
    · constructor <;> intro h <;> cases spaced _ h
    · simp
  refine ⟨fun r spaced => ?_, fun r spaced => ?_, fun r spaced => ?_⟩ <;> rw [taken, List.cons_append]
  · simpa only [taken] using scans r spaced
  · exact gap_solid blank (opens r spaced)
  · exact gap_space blank (opens r spaced)

theorem ne_slash {c : Char} {f : List Char → Piece} (always : ∀ r, scan (c :: r) = .ok (f (c :: r))) : c ≠ '/' := by
  rintro rfl
  cases always ['*']

theorem head_of_append {front back rest : List Char} {c : Char} (h : front ++ back = c :: rest)
    (nonempty : front ≠ []) : ∃ t, front = c :: t := by
  cases front with
  | nil => exact (nonempty rfl).elim
  | cons d t =>
    obtain rfl : d = c := (List.cons.inj h).1
    exact ⟨t, rfl⟩

theorem Begins.alone {c : Char} {rest : List Char} {p : Piece} (h : Begins c rest p)
    (blank : Text.isBlank c = false) : Alone p := by
  cases h with
  | symbol _ always => exact .of_scans rfl blank (fun r _ => always r) fun _ => .inl rfl
  | @operator plain assigned _ always =>
    obtain ⟨t, taken, sign, spaced⟩ := operator_spaced plain assigned c rest
    refine .of_scans taken blank (fun r h => ?_) fun _ => sign
    rw [always, spaced r h]
    rcases sign with rfl | rfl
    · intro star
      cases h _ star
    · simp
  | @string q quote body =>
    subst quote
    refine .of_scans rfl blank (fun r _ => ?_) nofun
    rw [scan]
    simp only [quoted_append_rest body r]
  | number digit always =>
    obtain ⟨t, taken⟩ := head_of_append (number_append _) (number_taken_ne_nil digit)
    refine .of_scans taken blank (fun r h => ?_) fun slash => absurd slash (ne_slash always)
    rw [always, ← List.cons_append, ← taken, number_spaced h]
  | name start always =>
    obtain ⟨t, taken⟩ := head_of_append (name_append _) (name_taken_ne_nil start)
    refine .of_scans taken blank (fun r h => ?_) fun slash => absurd slash (ne_slash always)
    rw [always, ← List.cons_append, ← taken, name_spaced h]

theorem scan_alone {text : List Char} {p : Piece} (found : scan (gap text).rest = .ok p)
    (real : p.kind ≠ .eof) : Alone p := by
  cases front : (gap text).rest with
  | nil =>
    rw [front] at found
    cases found
    exact (real rfl).elim
  | cons c rest =>
    rw [front] at found
    exact (begins_of_scan found).alone (gap_rest_head front)

end Lexer

/-! ## Token streams -/

/-- What a token is, apart from its place. -/
def Token.content (t : Token) : TokenKind × String × Literal := (t.kind, t.lexeme, t.literal)

/-- The lexemes of the tokens but the end of input, with a space between each two. -/
def respaced (tokens : List Token) : String :=
  " ".intercalate ((tokens.filter (·.kind ≠ .eof)).map (·.lexeme))

/-- The lexemes, with a space in front of each. -/
def trailing (tokens : List Token) : List Char :=
  (tokens.filter (·.kind ≠ .eof)).flatMap fun t => ' ' :: t.lexeme.toList

theorem spaced_trailing (tokens : List Token) : Spaced (trailing tokens) := by
  unfold trailing
  cases tokens.filter (·.kind ≠ .eof) with
  | nil => exact nofun
  | cons t ts => simp [Spaced]

theorem trailing_cons {t : Token} (ts : List Token) (real : t.kind ≠ .eof) :
    trailing (t :: ts) = ' ' :: (t.lexeme.toList ++ trailing ts) := by
  simp [trailing, real]

theorem intercalate_cons {α : Type} (between x : List α) (xs : List (List α)) :
    between.intercalate (x :: xs) = x ++ xs.flatMap (between ++ ·) := by
  induction xs generalizing x with
  | nil => simp
  | cons y xs ih => simp [ih]

theorem respaced_cons {t : Token} (ts : List Token) (real : t.kind ≠ .eof) :
    (respaced (t :: ts)).toList = t.lexeme.toList ++ trailing ts := by
  have kept : (t :: ts).filter (·.kind ≠ .eof) = t :: ts.filter (·.kind ≠ .eof) :=
    List.filter_cons_of_pos (by simpa using real)
  rw [respaced, kept, List.map_cons, String.toList_intercalate, List.map_cons, intercalate_cons, trailing,
    List.map_map, List.flatMap_map]
  rfl

/-- A gap and then a token of some kind, cut off alone, and the tokens behind it. -/
theorem Lexer.Alone.lexes {p : Piece} (alone : Alone p) (real : p.kind ≠ .eof) {ts : List Token}
    (more : ∀ pos, ∃ us, Lexes pos (trailing ts) us ∧ us.map Token.content = ts.map Token.content)
    {text : List Char} (cut : (gap text).rest = p.taken ++ trailing ts) (place pos : Position) :
    ∃ us, Lexes pos text us ∧
      us.map Token.content = (p.token place :: ts).map Token.content := by
  have found := alone.scans (trailing ts) (spaced_trailing ts)
  rw [← cut] at found
  obtain ⟨us, lexes, content⟩ := more ((pos.after (gap text).taken).after p.taken)
  exact ⟨_, .token found real lexes, congrArg (_ :: ·) content⟩

theorem Lexer.Lexes.trailing {pos : Position} {text : List Char} {ts : List Token} (h : Lexes pos text ts) :
    ∀ pos, ∃ us, Lexes pos (trailing ts) us ∧ us.map Token.content = ts.map Token.content := by
  induction h with
  | @last pos text p found eof =>
    intro pos
    rw [scan_eof found eof] at found
    cases found
    exact ⟨_, .last rfl rfl, rfl⟩
  | @token pos text p ts found real _ ih =>
    intro pos'
    have alone := scan_alone found real
    rw [trailing_cons ts real]
    refine alone.lexes real ih ?_ _ pos'
    rw [Piece.token, String.toList_ofList, alone.spaced _ (spaced_trailing ts)]

/-- The lexemes of a source, joined with single spaces, have the tokens of the source again: the
same kinds, lexemes and literals. -/
theorem tokenize_respaced {source : String} {tokens : List Token} (lexed : tokenize source = .ok tokens) :
    ∃ again, tokenize (respaced tokens) = .ok again ∧
      again.map Token.content = tokens.map Token.content := by
  suffices lexes : ∃ us, Lexes .start (respaced tokens).toList us ∧
      us.map Token.content = tokens.map Token.content by
    obtain ⟨us, lexes, content⟩ := lexes
    exact ⟨us, lexes.tokensFrom, content⟩
  cases lexes_of_tokensFrom lexed with
  | last found eof =>
    rw [scan_eof found eof] at found
    cases found
    exact ⟨_, .last rfl rfl, rfl⟩
  | token found real more =>
    have alone := scan_alone found real
    rw [respaced_cons _ real]
    refine alone.lexes real more.trailing ?_ _ _
    rw [Piece.token, String.toList_ofList, alone.solid _ (spaced_trailing _)]

/-- The tokens of `a-=1.5.b`. -/
def touching : List Token := [⟨.identifier, "a", .none, 1, 1, 0⟩, ⟨.minusEqual, "-=", .none, 1, 2, 1⟩,
  ⟨.number, "1.5", .number (.ofDecimal 15 1), 1, 4, 3⟩, ⟨.dot, ".", .none, 1, 7, 6⟩,
  ⟨.identifier, "b", .none, 1, 8, 7⟩, .endOfInput 1 9 8]

/-- An operator, a number and names that touch each other, and the same ones apart. -/
theorem tokenize_respaced_touching :
    tokenize "a-=1.5.b" = .ok touching ∧ respaced touching = "a -= 1.5 . b" ∧
      ∃ again, tokenize (respaced touching) = .ok again ∧
        again.map Token.content = touching.map Token.content := by
  have lexed : tokenize "a-=1.5.b" = .ok touching := by
    have first : scan (gap "a-=1.5.b".toList).rest = .ok ⟨.identifier, .none, ['a'], "-=1.5.b".toList⟩ := by
      decide +kernel
    have operator : scan (gap "-=1.5.b".toList).rest = .ok ⟨.minusEqual, .none, ['-', '='], "1.5.b".toList⟩ := by
      decide +kernel
    have number : scan (gap "1.5.b".toList).rest =
        .ok ⟨.number, .number (.ofDecimal 15 1), "1.5".toList, ".b".toList⟩ := by
      decide +kernel
    have dot : scan (gap ".b".toList).rest = .ok ⟨.dot, .none, ['.'], ['b']⟩ := by decide +kernel
    have last : scan (gap ['b']).rest = .ok ⟨.identifier, .none, ['b'], []⟩ := by decide +kernel
    have eof : scan (gap []).rest = .ok ⟨.eof, .none, [], []⟩ := rfl
    rw [tokenize, tokensFrom_of_scan first, if_neg (by decide), tokensFrom_of_scan operator,
      if_neg (by decide), tokensFrom_of_scan number, if_neg (by decide), tokensFrom_of_scan dot,
      if_neg (by decide), tokensFrom_of_scan last, if_neg (by decide), tokensFrom_of_scan eof, if_pos rfl]
    decide +kernel
  exact ⟨lexed, by decide +kernel, tokenize_respaced lexed⟩

end ScriptEngine
