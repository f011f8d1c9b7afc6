import ScriptEngine.Grammar.Program
import ScriptEngine.Proofs.Rendering

/-!
# Climbing reads what was rendered

`Yields` says of a parser that it reads tokens of given shapes and writes given
directives, whatever comes before, as long as the token behind them is one at which it
stops. An expression is a prefix and rounds of a loop that go on as long as operators
bind strongly enough, so the left spine of a tree is read by the rounds of one loop:
`Climbs` is about a prefix and some rounds, and holds of a tree at every level up to its
own. What is read by a call to the grammar, an operand or an argument, is a tree of
fewer tokens.
-/
namespace ScriptEngine.Grammar

/-! ## Parsers that read given tokens -/

/-- The tokens that are still to be read. -/
def Cursor.left (c : Cursor) : List Token := c.current :: c.ahead

/-- Tokens of the shapes, and then the rest. -/
def Spells (shapes : List Shape) (rest tokens : List Token) : Prop :=
  ∃ ts, Written shapes ts ∧ tokens = ts ++ rest

theorem spells_nil {rest tokens : List Token} : Spells [] rest tokens ↔ tokens = rest := by
  constructor
  · rintro ⟨ts, written, rfl⟩
    cases written
    rfl
  · rintro rfl
    exact ⟨[], .nil, rfl⟩

theorem spells_cons {s : Shape} {shapes : List Shape} {rest tokens : List Token} :
    Spells (s :: shapes) rest tokens ↔ ∃ t ts, tokens = t :: ts ∧ s.Of t ∧ Spells shapes rest ts := by
  constructor
  · rintro ⟨_, written, rfl⟩
    cases written with
    | cons of more => exact ⟨_, _, rfl, of, _, more, rfl⟩
  · rintro ⟨t, _, rfl, of, ts, more, rfl⟩
    exact ⟨t :: ts, .cons of more, rfl⟩

theorem spells_append {shapes shapes' : List Shape} {rest tokens : List Token} :
    Spells (shapes ++ shapes') rest tokens ↔ ∃ middle, Spells shapes middle tokens ∧ Spells shapes' rest middle := by
  induction shapes generalizing tokens with
  | nil => simp only [List.nil_append, spells_nil, exists_eq_left']
  | cons s shapes ih =>
    simp only [List.cons_append, spells_cons, ih]
    constructor
    · rintro ⟨t, ts, eq, of, middle, first, second⟩
      exact ⟨middle, ⟨t, ts, eq, of, first⟩, second⟩
    · rintro ⟨middle, ⟨t, ts, eq, of, first⟩, second⟩
      exact ⟨t, ts, eq, of, middle, first, second⟩

theorem Spells.length {shapes : List Shape} {rest tokens : List Token} (h : Spells shapes rest tokens) :
    tokens.length = shapes.length + rest.length := by
  obtain ⟨ts, written, rfl⟩ := h
  rw [List.length_append, written.length_eq]

theorem Spells.cons {shapes : List Shape} {t : Token} {rest tokens : List Token} (h : Spells shapes (t :: rest) tokens) :
    ∃ t' rest', tokens = t' :: rest' := by
  cases shapes with
  | nil => exact ⟨t, rest, spells_nil.mp h⟩
  | cons s shapes =>
    obtain ⟨t', rest', eq, -⟩ := spells_cons.mp h
    exact ⟨t', rest', eq⟩

/-- Directives are written. -/
def Cursor.Writes (c c' : Cursor) (ds : List Directive) : Prop :=
  ∃ steps, c'.steps.toList = c.steps.toList ++ steps ∧ steps.map (·.directive) = ds

theorem Cursor.Writes.refl {c c' : Cursor} (same : c'.steps = c.steps) : c.Writes c' [] :=
  ⟨[], by rw [same, List.append_nil], rfl⟩

theorem Cursor.Writes.trans {c c' c'' : Cursor} {ds ds' : List Directive} (h : c.Writes c' ds)
    (h' : c'.Writes c'' ds') : c.Writes c'' (ds ++ ds') := by
  obtain ⟨steps, eq, rfl⟩ := h
  obtain ⟨steps', eq', rfl⟩ := h'
  exact ⟨steps ++ steps', by rw [eq', eq, List.append_assoc], List.map_append⟩

/-- Where a token of a kind that `next` allows follows, the parser reads tokens of the shapes, writes the directives
and gives a result. -/
def Yields {α : Type} (x : Parser α) (a : α) (shapes : List Shape) (ds : List Directive) (next : TokenKind → Prop) :
    Prop :=
  ∀ c t rest, Spells shapes (t :: rest) c.left → next t.kind →
    ∃ c', x c = .ok a c' ∧ c'.left = t :: rest ∧ c.Writes c' ds

/-- The token behind a first part is one at which it stops, if a second part of these shapes follows. -/
def Joins (next next' : TokenKind → Prop) : List Shape → Prop
  | [] => ∀ k, next' k → next k
  | s :: _ => ∀ t, s.Of t → next t.kind

section Yields
variable {α β : Type} {x : Parser α} {f : α → Parser β} {a : α} {b : β} {s : Shape} {shapes shapes' : List Shape}
variable {ds ds' : List Directive} {next next' : TokenKind → Prop} {kind : TokenKind}

theorem parser_bind {c c' : Cursor} (h : x c = .ok a c') (f : α → Parser β) : (x >>= f) c = f a c' := by
  change EStateM.bind x f c = _
  unfold EStateM.bind
  rw [h]

theorem Yields.mono (h : Yields x a shapes ds next) (imp : ∀ k, next' k → next k) : Yields x a shapes ds next' :=
  fun c t rest spells here => h c t rest spells (imp _ here)

theorem Yields.bind (h : Yields x a shapes ds next) (h' : Yields (f a) b shapes' ds' next')
    (middle : Joins next next' shapes') :
    Yields (x >>= f) b (shapes ++ shapes') (ds ++ ds') next' := by
  intro c t rest spells here
  obtain ⟨mid, first, second⟩ := spells_append.mp spells
  obtain ⟨t', rest', rfl, here'⟩ : ∃ t' rest', mid = t' :: rest' ∧ next t'.kind := by
    cases shapes' with
    | nil => exact ⟨t, rest, spells_nil.mp second, middle _ here⟩
    | cons s shapes' =>
      obtain ⟨t', rest', eq, of, -⟩ := spells_cons.mp second
      exact ⟨t', rest', eq, middle t' of⟩
  obtain ⟨c₁, run, left, writes⟩ := h c t' rest' first here'
  obtain ⟨c₂, run', left', writes'⟩ := h' c₁ t rest (left ▸ second) here
  exact ⟨c₂, (parser_bind run f).trans run', left', writes.trans writes'⟩

/-- The second part reads nothing. -/
theorem Yields.last (h : Yields x a shapes ds next) (h' : Yields (f a) b [] ds' next) :
    Yields (x >>= f) b shapes (ds ++ ds') next := by
  have := h.bind h' fun _ here => here
  rwa [List.append_nil] at this

/-- The first part writes nothing. -/
theorem Yields.quiet (h : Yields x a shapes [] next) (h' : Yields (f a) b [] ds next) :
    Yields (x >>= f) b shapes ds next := h.last h'

/-- The first part is one token. -/
theorem Yields.token (h : Yields x a [s] [] fun _ => True) (h' : Yields (f a) b shapes ds next) :
    Yields (x >>= f) b (s :: shapes) ds next :=
  h.bind h' (by cases shapes <;> exact fun _ _ => trivial)

/-- The second part is one token. -/
theorem Yields.closed (h : Yields x a shapes ds next) (h' : Yields (f a) b [s] ds' next')
    (middle : ∀ t, s.Of t → next t.kind) : Yields (x >>= f) b (shapes ++ [s]) (ds ++ ds') next' := h.bind h' middle

theorem yields_pure : Yields (pure a) a [] [] next :=
  fun c _ _ spells _ => ⟨c, rfl, spells_nil.mp spells, .refl rfl⟩

theorem yields_write (d : Directive) : Yields (write d) () [] [d] next :=
  fun _ _ _ spells _ => ⟨_, rfl, spells_nil.mp spells, [_], Array.toList_push .., rfl⟩

theorem yields_written (d : Directive) {f : Unit → Parser β} (h : Yields (f ()) b shapes ds next) :
    Yields (write d >>= f) b shapes (d :: ds) next := by
  have first : Yields (write d) () [] [d] fun _ => True := yields_write d
  exact first.bind h (by cases shapes <;> exact fun _ _ => trivial)

theorem Cursor.advance_left {c : Cursor} {t t' : Token} {rest : List Token} (h : c.left = t :: t' :: rest) :
    c.advance.previous = t ∧ c.advance.left = t' :: rest ∧ c.advance.steps = c.steps := by
  obtain ⟨rfl, ahead⟩ := List.cons.inj h
  unfold Cursor.advance Cursor.left
  rw [ahead]
  exact ⟨rfl, rfl, rfl⟩

/-- What is read after a token that has been read already. -/
theorem yields_advance (h : ∀ t, s.Of t → ∀ c, c.previous = t → ∀ t' rest, Spells shapes (t' :: rest) c.left →
      next t'.kind → ∃ c', x c = .ok a c' ∧ c'.left = t' :: rest ∧ c.Writes c' ds) :
    Yields (advance >>= fun _ => x) a (s :: shapes) ds next := by
  intro c t rest spells here
  obtain ⟨t₀, ts, left, of, more⟩ := spells_cons.mp spells
  obtain ⟨t₁, ts', rfl⟩ := more.cons
  obtain ⟨previous, left', steps⟩ := Cursor.advance_left left
  obtain ⟨c', run, left'', writes⟩ := h t₀ of c.advance previous t rest (left' ▸ more) here
  refine ⟨c', run, left'', ?_⟩
  unfold Cursor.Writes at writes ⊢
  rw [← steps]
  exact writes

theorem currentKind_eq (c : Cursor) : currentKind c = .ok c.current.kind c := rfl

theorem previousToken_eq (c : Cursor) : previousToken c = .ok c.previous c := rfl

theorem accept_eq (kind : TokenKind) (c : Cursor) :
    accept kind c = if c.current.kind = kind then .ok true c.advance else .ok false c := by
  have checked : check kind c = .ok (decide (c.current.kind = kind)) c := rfl
  refine (parser_bind checked _).trans ?_
  by_cases h : c.current.kind = kind
  · rw [decide_eq_true h, if_pos h]
    rfl
  · rw [decide_eq_false h, if_neg h]
    rfl

theorem accept_hit {c : Cursor} {t t' : Token} {rest : List Token} (left : c.left = t :: t' :: rest)
    (hit : t.kind = kind) : accept kind c = .ok true c.advance := by
  rw [accept_eq, if_pos ((congrArg Token.kind (List.cons.inj left).1).trans hit)]

theorem accept_miss {c : Cursor} {t : Token} {rest : List Token} (left : c.left = t :: rest)
    (miss : t.kind ≠ kind) : accept kind c = .ok false c := by
  rw [accept_eq, if_neg fun hit => miss ((congrArg Token.kind (List.cons.inj left).1).symm.trans hit)]

theorem yields_accept (kind : TokenKind) : Yields (accept kind) true [.fixed kind] [] next := by
  intro c t rest spells _
  obtain ⟨t₀, ts, left, of, more⟩ := spells_cons.mp spells
  obtain rfl := spells_nil.mp more
  obtain ⟨-, left', steps⟩ := Cursor.advance_left left
  exact ⟨c.advance, accept_hit left of, left', .refl steps⟩

theorem yields_accept_not (kind : TokenKind) (other : ∀ k, next k → k ≠ kind) :
    Yields (accept kind) false [] [] next := by
  intro c t rest spells here
  have left := spells_nil.mp spells
  exact ⟨c, accept_miss left (other _ here), left, .refl rfl⟩

theorem yields_expect (kind : TokenKind) (what : String) : Yields (expect kind what) () [.fixed kind] [] next :=
  (yields_accept kind).quiet yields_pure

/-- A member name is an identifier or `init`. -/
theorem yields_expectMember (name what : String) : Yields (expectMember what) name [.member name] [] next := by
  intro c t rest spells _
  obtain ⟨t₀, ts, left, ⟨kind, rfl⟩, more⟩ := spells_cons.mp spells
  obtain rfl := spells_nil.mp more
  obtain ⟨previous, left', steps⟩ := Cursor.advance_left left
  refine ⟨c.advance, ?_, left', .refl steps⟩
  have lexeme : (do return (← previousToken).lexeme : Parser String) c.advance = .ok t₀.lexeme c.advance := by
    rw [← previous]
    rfl
  by_cases init : t₀.kind = .initWord
  · exact (parser_bind (accept_hit left init) _).trans lexeme
  · have identifier : t₀.kind = .identifier := kind.resolve_right init
    refine (parser_bind (accept_miss left init) _).trans ?_
    have expected : expect .identifier what c = .ok () c.advance := parser_bind (accept_hit left identifier) _
    exact (parser_bind expected _).trans lexeme

end Yields

/-! ## Loops -/

/-- Rounds of a loop that go on. Each of them reads a token or more. -/
inductive Rounds {σ : Type} (round : σ → Parser (σ × Bool)) : σ → Cursor → σ → Cursor → Prop
  | none {s : σ} {c : Cursor} : Rounds round s c s c
  | more {s s' s'' : σ} {c c' c'' : Cursor} (step : round s c = .ok (s', true) c')
      (less : c'.left.length < c.left.length) (rest : Rounds round s' c' s'' c'') : Rounds round s c s'' c''

section Rounds
variable {σ : Type} {round : σ → Parser (σ × Bool)} {s s' s'' : σ} {c c' c'' : Cursor}

theorem Rounds.snoc (h : Rounds round s c s' c') (step : round s' c' = .ok (s'', true) c'')
    (less : c''.left.length < c'.left.length) : Rounds round s c s'' c'' := by
  induction h with
  | none => exact .more step less .none
  | more first less' _ ih => exact .more first less' (ih step less)

theorem Rounds.rounds (h : Rounds round s c s' c') (last : round s' c' = .ok (s'', false) c'') {bound : List Token}
    (enough : c.left.length < bound.length) : Grammar.rounds round bound s c = .ok s'' c'' := by
  induction h generalizing bound with
  | none =>
    cases bound with
    | nil => cases enough
    | cons _ bound => exact parser_bind last _
  | more step less _ ih =>
    cases bound with
    | nil => cases enough
    | cons _ bound =>
      exact (parser_bind step _).trans (ih last (Nat.lt_of_lt_of_le less (Nat.le_of_lt_succ enough)))

theorem Rounds.repeatFrom (h : Rounds round s c s' c') (last : round s' c' = .ok (s'', false) c'') :
    Grammar.repeatFrom s round c = .ok s'' c'' :=
  h.rounds last (Nat.lt_succ_self c.left.length)

end Rounds

/-! ## Climbing -/

section Climb
variable (parse : Goal → Parser Unit) (level : Precedence) (canAssign : Bool)

/-- A round of the loop of `climb`. -/
def climbRound : Parser Bool := do
  if level.rank ≤ (← currentKind).infixLevel.rank then
    advance
    infixRule parse canAssign
    return true
  else
    return false

/-- What a climb does behind its prefix. -/
def climbOn : Parser Unit := do
  repeatWhile (climbRound parse level canAssign)
  if canAssign && isAssignment (← currentKind) then failHere .invalidTarget

/-- A prefix and some rounds of a climb read tokens of the shapes and write the directives. -/
def Climbs (shapes : List Shape) (ds : List Directive) (next : TokenKind → Prop) : Prop :=
  ∀ c t rest, Spells shapes (t :: rest) c.left → next t.kind →
    ∃ c₁ c', (advance >>= fun _ => prefixRule parse canAssign) c = .ok () c₁ ∧
      Rounds (fun _ => do return ((), ← climbRound parse level canAssign)) () c₁ () c' ∧
      c'.left = t :: rest ∧ c.Writes c' ds

theorem climb_eq (parse : Goal → Parser Unit) (level : Precedence) :
    climb parse level = (advance >>= fun _ => prefixRule parse (decide (level.rank ≤ Precedence.assignment.rank))) >>=
      fun _ => climbOn parse level (decide (level.rank ≤ Precedence.assignment.rank)) := by
  rw [bind_assoc]
  rfl

variable {parse level canAssign} {s : Shape} {shapes shapes' : List Shape} {ds ds' : List Directive}
variable {next next' : TokenKind → Prop}

theorem Climbs.mono (h : Climbs parse level canAssign shapes ds next) (imp : ∀ k, next' k → next k) :
    Climbs parse level canAssign shapes ds next' :=
  fun c t rest spells here => h c t rest spells (imp _ here)

theorem climbs_prefix (h : Yields (advance >>= fun _ => prefixRule parse canAssign) () shapes ds next) :
    Climbs parse level canAssign shapes ds next := by
  intro c t rest spells here
  obtain ⟨c', run, left, writes⟩ := h c t rest spells here
  exact ⟨c', c', run, .none, left, writes⟩

theorem Climbs.round (h : Climbs parse level canAssign shapes ds next)
    (h' : Yields (climbRound parse level canAssign) true (s :: shapes') ds' next')
    (middle : ∀ t, s.Of t → next t.kind) :
    Climbs parse level canAssign (shapes ++ s :: shapes') (ds ++ ds') next' := by
  intro c t rest spells here
  obtain ⟨mid, first, second⟩ := spells_append.mp spells
  obtain ⟨t', rest', rfl, of, -⟩ := spells_cons.mp second
  obtain ⟨c₁, c₂, start, rounds, left, writes⟩ := h c t' rest' first (middle t' of)
  obtain ⟨c₃, run, left', writes'⟩ := h' c₂ t rest (left ▸ second) here
  have less : c₃.left.length < c₂.left.length := by
    rw [left', left, second.length]
    simp only [List.length_cons]
    omega
  exact ⟨c₁, c₃, start, rounds.snoc (parser_bind run _) less, left', writes.trans writes'⟩

/-- An operand or a whole expression of a level ends at a token that does not continue it. -/
def Stops (level : Precedence) (kind : TokenKind) : Prop :=
  kind.infixLevel.rank < level.rank ∧ (level.rank ≤ Precedence.assignment.rank → isAssignment kind = false)

/-- A climb ends behind its rounds, if the next token continues nothing. -/
theorem climb_of_rounds {c c₁ c' : Cursor}
    (start : (advance >>= fun _ => prefixRule parse (decide (level.rank ≤ Precedence.assignment.rank))) c = .ok () c₁)
    (rounds : Rounds (fun _ => do
      return ((), ← climbRound parse level (decide (level.rank ≤ Precedence.assignment.rank)))) () c₁ () c')
    (stops : Stops level c'.current.kind) : climb parse level c = .ok () c' := by
  obtain ⟨weaker, noAssignment⟩ := stops
  have last : climbRound parse level (decide (level.rank ≤ Precedence.assignment.rank)) c' = .ok false c' := by
    refine (parser_bind (currentKind_eq c') _).trans ?_
    rw [if_neg (Nat.not_le_of_lt weaker)]
    rfl
  have loop := rounds.repeatFrom (parser_bind last _)
  have assignable : (decide (level.rank ≤ Precedence.assignment.rank) && isAssignment c'.current.kind) = false := by
    by_cases loose : level.rank ≤ Precedence.assignment.rank
    · rw [noAssignment loose, Bool.and_false]
    · rw [decide_eq_false loose, Bool.false_and]
  refine (congrFun (climb_eq parse level) c).trans ((parser_bind start _).trans ?_)
  refine (parser_bind loop _).trans ((parser_bind (currentKind_eq c') _).trans ?_)
  rw [assignable]
  rfl

theorem yields_climb (h : Climbs parse level (decide (level.rank ≤ Precedence.assignment.rank)) shapes ds next)
    (stops : ∀ k, next' k → next k ∧ Stops level k) : Yields (climb parse level) () shapes ds next' := by
  intro c t rest spells here
  obtain ⟨behind, ends⟩ := stops _ here
  obtain ⟨c₁, c', start, rounds, left, writes⟩ := h c t rest spells behind
  have current : c'.current = t := (List.cons.inj left).1
  exact ⟨c', climb_of_rounds start rounds (current ▸ ends), left, writes⟩

theorem climbs_read (X : Parser Unit) (read : ∀ t c, s.Of t → c.previous = t → prefixRule parse canAssign c = X c)
    (h : Yields X () shapes ds next) : Climbs parse level canAssign (s :: shapes) ds next :=
  climbs_prefix <| yields_advance fun t of c previous t' rest spells here => by
    rw [read t c of previous]
    exact h c t' rest spells here

theorem yields_climbRound {kind : TokenKind} (X : Parser Unit)
    (read : ∀ c, c.previous.kind = kind → infixRule parse canAssign c = X c) (h : Yields X () shapes ds next)
    (strong : level.rank ≤ kind.infixLevel.rank) :
    Yields (climbRound parse level canAssign) true (.fixed kind :: shapes) ds next := by
  have inner : Yields (advance >>= fun _ => infixRule parse canAssign >>= fun _ => pure true) true
      (.fixed kind :: shapes) ds next := by
    refine yields_advance fun t of c previous t' rest spells here => ?_
    obtain ⟨c', run, left, writes⟩ := h c t' rest spells here
    have same := read c (by rw [previous]; exact of)
    exact ⟨c', parser_bind (same.trans run) _, left, writes⟩
  intro c t rest spells here
  obtain ⟨c', run, result⟩ := inner c t rest spells here
  obtain ⟨t₀, ts, left, of, -⟩ := spells_cons.mp spells
  refine ⟨c', (parser_bind (currentKind_eq c) _).trans ?_, result⟩
  have current : c.current.kind = kind := (congrArg Token.kind (List.cons.inj left).1).trans of
  rw [current, if_pos strong]
  exact run

/-! ### Where an assignment could stand -/

/-- There is none behind a name, a member or an element. -/
theorem yields_unassigned {α : Type} {x y : Parser α} {a : α} (h : Yields y a shapes ds next)
    (first : Joins (fun k => canAssign → isAssignment k = false) next shapes) :
    Yields (currentKind >>= fun k => if canAssign && isAssignment k then x else y) a shapes ds next := by
  intro c t rest spells here
  have none : (canAssign && isAssignment c.current.kind) = false := by
    rw [Bool.and_eq_false_imp]
    cases shapes with
    | nil =>
      rw [(List.cons.inj (spells_nil.mp spells)).1]
      exact first _ here
    | cons s shapes =>
      obtain ⟨t₀, ts, left, of, -⟩ := spells_cons.mp spells
      rw [(List.cons.inj left).1]
      exact first _ of
  obtain ⟨c', run, result⟩ := h c t rest spells here
  refine ⟨c', (parser_bind (currentKind_eq c) _).trans ?_, result⟩
  rw [none]
  exact run

theorem climbs_identifier (name : String) :
    Climbs parse level canAssign [.identifier name] [.load name] fun k => canAssign → isAssignment k = false := by
  refine climbs_read (variableNamed parse name canAssign) (fun t c of previous => ?_)
    (yields_unassigned (yields_write _) fun _ here => here)
  refine (parser_bind (previousToken_eq c) _).trans ?_
  rw [previous, of.1, of.2]

theorem climbs_number (value : Number) : Climbs parse level canAssign [.number value] [.number value] next := by
  refine climbs_read (write (.number value)) (fun t c of previous => ?_) (yields_write _)
  refine (parser_bind (previousToken_eq c) _).trans ?_
  rw [previous, of.1, of.2]

theorem climbs_string (value : String) : Climbs parse level canAssign [.string value] [.string value] next := by
  refine climbs_read (write (.string value)) (fun t c of previous => ?_) (yields_write _)
  refine (parser_bind (previousToken_eq c) _).trans ?_
  rw [previous, of.1, of.2]

theorem climbs_bool (value : Bool) :
    Climbs parse level canAssign [.fixed (if value then .trueWord else .falseWord)] [.plain (.pushBool value)] next := by
  refine climbs_read (write (.plain (.pushBool value))) (fun t c of previous => ?_) (yields_write _)
  refine (parser_bind (previousToken_eq c) _).trans ?_
  cases value <;> rw [previous, of] <;> rfl

theorem climbs_null : Climbs parse level canAssign [.fixed .nullWord] [.plain .null] next := by
  refine climbs_read (write (.plain .null)) (fun t c of previous => ?_) (yields_write _)
  refine (parser_bind (previousToken_eq c) _).trans ?_
  rw [previous, of]

/-! ### Parts that are goals of their own -/

theorem climbs_unary (op : UnaryOperator) (h : Yields (parse (.expression .unary)) () shapes ds next) :
    Climbs parse level canAssign (.fixed op.token :: shapes)
      (ds ++ [.plain op.instruction op.instruction_plain]) next := by
  refine climbs_read _ (fun t c of previous => ?_)
    (h.last (f := fun _ => write (.plain op.instruction op.instruction_plain)) (yields_write _))
  refine (parser_bind (previousToken_eq c) _).trans ?_
  cases op <;> rw [previous, of] <;> rfl

/-- The closing parenthesis stands behind the expression. -/
theorem climbs_parentheses (h : Yields (expression parse) () shapes ds next) (closes : next .closeParen) :
    Climbs parse level canAssign (.fixed .openParen :: (shapes ++ [.fixed .closeParen])) ds next' := by
  have inner : Yields (expression parse >>= fun _ => expect .closeParen "')' after expression") ()
      (shapes ++ [.fixed .closeParen]) (ds ++ []) next' :=
    h.closed (yields_expect _ _) fun t of => by
      rw [show t.kind = .closeParen from of]
      exact closes
  rw [List.append_nil] at inner
  refine climbs_read _ (fun t c of previous => ?_) inner
  refine (parser_bind (previousToken_eq c) _).trans ?_
  rw [previous, of]

theorem yields_writeAll (ds : List Directive) : Yields (ds.forM write) () [] ds next := by
  induction ds with
  | nil => exact yields_pure
  | cons d ds ih => exact (yields_write d).last ih

theorem yields_binary (op : BinaryOperator) (h : Yields (parse (.expression op.level.next)) () shapes ds next)
    (strong : level.rank ≤ op.level.rank) :
    Yields (climbRound parse level canAssign) true (.fixed op.token :: shapes)
      (ds ++ binaryOperation op.token) next := by
  refine yields_climbRound _ (fun c kind => ?_)
    (h.last (f := fun _ => (binaryOperation op.token).forM write) (yields_writeAll _))
    (by rw [BinaryOperator.infixLevel]; exact strong)
  refine (parser_bind (previousToken_eq c) _).trans ?_
  cases op <;> rw [kind] <;> rfl

theorem yields_short (op : ShortOperator) (h : Yields (parse (.expression op.level)) () shapes ds next)
    (strong : level.rank ≤ op.level.rank) :
    Yields (climbRound parse level canAssign) true (.fixed op.token :: shapes)
      (op.directive :: (ds ++ [.shortEnd])) next := by
  refine yields_climbRound _ (fun c kind => ?_)
    (yields_written op.directive (f := fun _ => parse (.expression op.level) >>= fun _ => write .shortEnd)
      (h.last (yields_write .shortEnd)))
    (by rw [ShortOperator.infixLevel]; exact strong)
  refine (parser_bind (previousToken_eq c) _).trans ?_
  cases op <;> rw [kind] <;> rfl

/-! ### How an expression begins -/

def Begins : TokenKind → Bool
  | .openParen | .minus | .bang | .identifier | .string | .number | .trueWord | .falseWord | .nullWord => true
  | _ => false

/-- The first token is one that can begin an expression. -/
def Opens (shapes : List Shape) : Prop := ∃ s more, shapes = s :: more ∧ ∀ t, s.Of t → Begins t.kind

theorem opens_of {s : Shape} (more : List Shape) (begins : ∀ t, s.Of t → Begins t.kind) : Opens (s :: more) :=
  ⟨s, more, rfl, begins⟩

theorem Opens.append (h : Opens shapes) (shapes' : List Shape) : Opens (shapes ++ shapes') := by
  obtain ⟨s, more, rfl, begins⟩ := h
  exact opens_of _ begins

theorem Opens.enclosed (h : Opens shapes) (needed : Bool) : Opens (enclosed needed shapes) := by
  cases needed with
  | false => exact h
  | true => exact opens_of _ fun t of => by rw [show t.kind = .openParen from of]; rfl

theorem opens_shapes (e : Tree) : Opens e.shapes := by
  induction e using Tree.induct with
  | number | string | identifier => exact opens_of _ fun t of => by rw [of.1]; rfl
  | bool value => cases value <;> exact opens_of _ fun t of => by rw [show t.kind = _ from of]; rfl
  | null => exact opens_of _ fun t of => by rw [show t.kind = _ from of]; rfl
  | unary op e ih => exact opens_of _ fun t of => by cases op <;> rw [show t.kind = _ from of] <;> rfl
  | binary op l r left _ => exact (left.enclosed _).append _
  | short op l r left _ => exact (left.enclosed _).append _
  | call f args callee _ => exact (callee.enclosed _).append _
  | invoke o x args object _ => exact (object.enclosed _).append _
  | property o x object => exact (object.enclosed _).append _
  | index o k object _ => exact (object.enclosed _).append _

theorem Opens.spelled {rest tokens : List Token} (h : Opens shapes) (spells : Spells shapes rest tokens) :
    ∃ t ts, tokens = t :: ts ∧ Begins t.kind := by
  obtain ⟨s, more, rfl, begins⟩ := h
  obtain ⟨t, ts, eq, of, -⟩ := spells_cons.mp spells
  exact ⟨t, ts, eq, begins t of⟩

/-! ### Arguments -/

theorem arguments_singleton (e : Tree) : [Shape.fixed .comma].intercalate (Tree.shapes.allShapes [e]) = e.shapes := by
  simp [Tree.shapes.allShapes]

theorem arguments_cons (e e' : Tree) (es : List Tree) :
    [Shape.fixed .comma].intercalate (Tree.shapes.allShapes (e :: e' :: es)) =
      e.shapes ++ [.fixed .comma] ++ [.fixed .comma].intercalate (Tree.shapes.allShapes (e' :: es)) := by
  simp [Tree.shapes.allShapes, List.intercalate]

theorem opens_arguments (e : Tree) (es : List Tree) :
    Opens ([.fixed .comma].intercalate (Tree.shapes.allShapes (e :: es))) := by
  cases es with
  | nil =>
    rw [arguments_singleton]
    exact opens_shapes e
  | cons e' es =>
    rw [arguments_cons, List.append_assoc]
    exact (opens_shapes e).append _

/-- An argument has no more tokens than the list that it is in. -/
theorem arguments_length {e : Tree} {es : List Tree} (mem : e ∈ es) :
    e.shapes.length ≤ ([Shape.fixed .comma].intercalate (Tree.shapes.allShapes es)).length := by
  induction es with
  | nil => cases mem
  | cons e' es ih =>
    cases es with
    | nil =>
      rw [arguments_singleton, List.mem_singleton.mp mem]
    | cons e'' es =>
      rw [arguments_cons, List.length_append, List.length_append]
      rcases List.mem_cons.mp mem with rfl | mem
      · omega
      · exact Nat.le_trans (ih mem) (Nat.le_add_left _ _)

/-- A round of the loop of `argumentList`. -/
def argumentRound (parse : Goal → Parser Unit) (n : Nat) : Parser (Nat × Bool) := do
  expression parse
  if n ≥ 255 then failBefore .tooManyArguments
  return (n + 1, ← accept .comma)

/-- An argument is followed by a comma or by the end of the list. -/
def Separates (kind : TokenKind) : Prop := kind = .comma ∨ kind = .closeParen

theorem yields_argument {n : Nat} {more : Bool} (room : n < 255)
    (h : Yields (expression parse) () shapes ds Separates)
    (h' : Yields (accept .comma) more shapes' [] next)
    (middle : Joins Separates next shapes') :
    Yields (argumentRound parse n) (n + 1, more) (shapes ++ shapes') ds next := by
  have rest : Yields (do
      if n ≥ 255 then failBefore .tooManyArguments
      return (n + 1, ← accept .comma)) (n + 1, more) shapes' [] next := by
    rw [if_neg (Nat.not_le_of_lt room)]
    exact h'.quiet (f := fun more => pure (n + 1, more)) yields_pure
  have := h.bind (f := fun _ => _) rest middle
  rwa [List.append_nil] at this

theorem rounds_arguments {e : Tree} {es : List Tree}
    (reads : ∀ e' ∈ e :: es, Yields (expression parse) () e'.shapes e'.directives Separates) {n : Nat}
    (room : n + (e :: es).length ≤ 255) {c : Cursor} {t : Token} {rest : List Token}
    (spells : Spells ([.fixed .comma].intercalate (Tree.shapes.allShapes (e :: es))) (t :: rest) c.left)
    (closes : t.kind = .closeParen) :
    ∃ m c₁ c₂, Rounds (argumentRound parse) n c m c₁ ∧
      argumentRound parse m c₁ = .ok (n + (e :: es).length, false) c₂ ∧ c₂.left = t :: rest ∧
      c.Writes c₂ (Tree.directives.allDirectives (e :: es)) := by
  induction es generalizing e n c with
  | nil =>
    have round : Yields (argumentRound parse n) (n + 1, false) (e.shapes ++ []) e.directives (· = .closeParen) :=
      yields_argument room (reads e (.head _)) (yields_accept_not _ (by rintro _ rfl; decide)) fun _ => .inr
    rw [List.append_nil] at round
    obtain ⟨c', run, left, writes⟩ := round c t rest (arguments_singleton e ▸ spells) closes
    refine ⟨n, c, c', .none, run, left, ?_⟩
    simpa [Tree.directives.allDirectives] using writes
  | cons e' es ih =>
    have round : Yields (argumentRound parse n) (n + 1, true) (e.shapes ++ [.fixed .comma]) e.directives fun _ => True :=
      yields_argument (by simp only [List.length_cons] at room; omega) (reads e (.head _)) (yields_accept _)
        fun _ => .inl
    rw [arguments_cons] at spells
    obtain ⟨middle, first, second⟩ := spells_append.mp spells
    obtain ⟨t', rest', rfl⟩ := second.cons
    obtain ⟨c', run, left, writes⟩ := round c t' rest' first trivial
    have room' : n + 1 + (e' :: es).length ≤ 255 := by simpa [Nat.add_assoc, Nat.add_comm] using room
    obtain ⟨m, c₁, c₂, rounds, last, left', writes'⟩ :=
      ih (fun e'' mem => reads e'' (.tail _ mem)) room' (left ▸ second)
    refine ⟨m, c₁, c₂, .more run ?_ rounds, ?_, left', ?_⟩
    · rw [left, first.length]
      simp only [List.length_append, List.length_cons]
      omega
    · rw [last]
      simp only [List.length_cons, Nat.add_assoc, Nat.add_comm 1]
    · exact writes.trans writes'

theorem check_eq (kind : TokenKind) (c : Cursor) : check kind c = .ok (decide (c.current.kind = kind)) c := rfl

theorem yields_argumentList {es : List Tree}
    (reads : ∀ e ∈ es, Yields (expression parse) () e.shapes e.directives Separates) (room : es.length ≤ 255) :
    Yields (argumentList parse) (UInt8.ofNat es.length)
      ([.fixed .comma].intercalate (Tree.shapes.allShapes es) ++ [.fixed .closeParen])
      (Tree.directives.allDirectives es) next := by
  intro c t rest spells here
  obtain ⟨middle, first, second⟩ := spells_append.mp spells
  obtain ⟨t', rest', rfl, of, -⟩ := spells_cons.mp second
  have closing (n : Nat) : Yields (expect .closeParen "')' after arguments" >>= fun _ => pure (UInt8.ofNat n))
      (UInt8.ofNat n) [.fixed .closeParen] [] next := (yields_expect _ _).quiet yields_pure
  unfold argumentList
  cases es with
  | nil =>
    have current : c.current.kind = .closeParen := by
      rw [(List.cons.inj (spells_nil.mp first)).1]
      exact of
    obtain ⟨c', run, result⟩ := closing 0 c t rest (spells_nil.mp first ▸ second) here
    refine ⟨c', (parser_bind (check_eq _ c) _).trans ?_, result⟩
    rw [decide_eq_true current]
    exact run
  | cons e es =>
    have current : c.current.kind ≠ .closeParen := by
      obtain ⟨t₀, ts, left, begins⟩ := (opens_arguments e es).spelled first
      rw [(List.cons.inj left).1]
      rintro closes
      rw [closes] at begins
      cases begins
    obtain ⟨m, c₁, c₂, rounds, last, left, writes⟩ := rounds_arguments reads (n := 0) (by simpa using room) first of
    obtain ⟨c', run, left', writes'⟩ := closing (e :: es).length c₂ t rest (left ▸ second) here
    refine ⟨c', (parser_bind (check_eq _ c) _).trans ?_, left', ?_⟩
    · rw [decide_eq_false current]
      rw [Nat.zero_add] at last
      exact (parser_bind (rounds.repeatFrom last) _).trans run
    · have := writes.trans writes'
      rwa [List.append_nil] at this

/-! ### Calls and reads -/

theorem yields_call {es : List Tree}
    (reads : ∀ e ∈ es, Yields (expression parse) () e.shapes e.directives Separates) (room : es.length ≤ 255)
    (strong : level.rank ≤ Precedence.call.rank) :
    Yields (climbRound parse level canAssign) true
      (.fixed .openParen :: ([.fixed .comma].intercalate (Tree.shapes.allShapes es) ++ [.fixed .closeParen]))
      (Tree.directives.allDirectives es ++ [.plain (.call (UInt8.ofNat es.length))]) next := by
  refine yields_climbRound _ (fun c kind => ?_)
    ((yields_argumentList reads room).last (f := fun argc => write (.plain (.call argc))) (yields_write _)) strong
  refine (parser_bind (previousToken_eq c) _).trans ?_
  rw [kind]

theorem infixRule_dot {c : Cursor} (kind : c.previous.kind = .dot) :
    infixRule parse canAssign c = member parse canAssign c := by
  refine (parser_bind (previousToken_eq c) _).trans ?_
  rw [kind]

theorem yields_property (name : String) (strong : level.rank ≤ Precedence.call.rank) :
    Yields (climbRound parse level canAssign) true [.fixed .dot, .member name] [.reserve name, .getProperty name]
      fun k => k ≠ .openParen ∧ (canAssign → isAssignment k = false) := by
  refine yields_climbRound (member parse canAssign) (fun c => infixRule_dot) ?_ strong
  refine (yields_expectMember name _).token (yields_written _ ?_)
  refine yields_unassigned ?_ fun k here => here.2
  exact (yields_accept_not .openParen fun k here => here.1).quiet (yields_write _)

theorem yields_invoke (name : String) {es : List Tree}
    (reads : ∀ e ∈ es, Yields (expression parse) () e.shapes e.directives Separates) (room : es.length ≤ 255)
    (strong : level.rank ≤ Precedence.call.rank) :
    Yields (climbRound parse level canAssign) true
      (.fixed .dot :: .member name :: .fixed .openParen ::
        ([.fixed .comma].intercalate (Tree.shapes.allShapes es) ++ [.fixed .closeParen]))
      (.reserve name :: (Tree.directives.allDirectives es ++ [.invoke name (UInt8.ofNat es.length)])) next := by
  refine yields_climbRound (member parse canAssign) (fun c => infixRule_dot) ?_ strong
  refine (yields_expectMember name _).token (yields_written _ ?_)
  refine yields_unassigned ?_ fun t of => by rw [show t.kind = .openParen from of]; exact fun _ => rfl
  refine (yields_accept .openParen).token ?_
  exact (yields_argumentList reads room).last (f := fun argc => write (.invoke name argc)) (yields_write _)

theorem yields_index (h : Yields (expression parse) () shapes ds next) (closes : next .closeBracket)
    (strong : level.rank ≤ Precedence.call.rank) :
    Yields (climbRound parse level canAssign) true (.fixed .openBracket :: (shapes ++ [.fixed .closeBracket]))
      (ds ++ [.plain .getIndex]) fun k => canAssign → isAssignment k = false := by
  refine yields_climbRound (element parse canAssign) (fun c kind => ?_) ?_ strong
  · refine (parser_bind (previousToken_eq c) _).trans ?_
    rw [kind]
  · refine h.closed ?_ fun t of => ?_
    · exact (yields_expect .closeBracket _).quiet (yields_unassigned (yields_write _) fun _ here => here)
    · rw [show t.kind = .closeBracket from of]
      exact closes

end Climb

end ScriptEngine.Grammar

namespace ScriptEngine

open Grammar

/-! ## Trees -/

/-- A token of the kind may stand behind the tree, and it is not taken for a part of it. -/
def Tree.Before : Tree → TokenKind → Prop
  | unary _ _, k => k.infixLevel.rank < Precedence.unary.rank
  | binary op _ _, k => k.infixLevel.rank ≤ op.level.rank
  | short op _ _, k => k.infixLevel.rank < op.level.rank
  | property _ _, k => k ≠ .openParen
  | _, _ => True

theorem Tree.Before.of_stops {e : Tree} {level : Precedence} {k : TokenKind} (stops : Stops level k)
    (strong : level.rank ≤ e.level.rank) : e.Before k := by
  cases e with
  | unary => exact Nat.lt_of_lt_of_le stops.1 strong
  | binary op => exact Nat.le_of_lt (Nat.lt_of_lt_of_le stops.1 strong)
  | short op => exact Nat.lt_of_lt_of_le stops.1 strong
  | property =>
    rintro rfl
    exact Nat.lt_irrefl _ (Nat.lt_of_lt_of_le stops.1 strong)
  | _ => trivial

/-- A binary operator behind its left operand. -/
theorem Tree.Before.of_binary {e : Tree} {op : BinaryOperator} (tight : e.loose op.level = false) :
    e.Before op.token := by
  have le : op.token.infixLevel.rank ≤ e.level.rank := by
    rw [op.infixLevel]
    exact Nat.le_of_not_lt (of_decide_eq_false tight)
  cases e with
  | unary =>
    rw [Tree.Before, op.infixLevel]
    exact op.level_rank.2.1
  | binary => exact le
  | short op' =>
    rw [op.infixLevel] at le
    exact absurd (Nat.lt_of_lt_of_le op.level_rank.1 le) (Nat.not_lt_of_le (Nat.le_of_lt_succ op'.level_rank.2.1))
  | property => exact fun same => by cases op <;> cases same
  | _ => trivial

theorem Tree.Before.of_short {e : Tree} {op : ShortOperator} (tight : e.loose op.level.next = false) :
    e.Before op.token := by
  have lt : op.token.infixLevel.rank < e.level.rank := by
    rw [op.infixLevel]
    have := Nat.le_of_not_lt (of_decide_eq_false tight)
    rwa [op.level_rank.2.2] at this
  cases e with
  | unary => exact lt
  | binary => exact Nat.le_of_lt lt
  | short => exact lt
  | property => exact fun same => by cases op <;> cases same
  | _ => trivial

/-- A call or a read behind what it is applied to. -/
theorem Tree.Before.of_call {e : Tree} {k : TokenKind} (tight : e.loose .call = false)
    (other : e.isProperty → k ≠ .openParen) : e.Before k := by
  cases e with
  | unary => cases tight
  | binary op | short op => cases op <;> cases tight
  | property => exact other rfl
  | _ => trivial

/-- The grammar reads the tree, wherever there is room to nest as deep as it has tokens. -/
def Tree.Climbs (e : Tree) : Prop :=
  ∀ (n : Nat) (level : Precedence) (canAssign : Bool), e.shapes.length ≤ n + 1 → level.rank ≤ e.level.rank →
    Grammar.Climbs (parseGoal n) level canAssign e.shapes e.directives
      fun k => e.Before k ∧ (canAssign → isAssignment k = false)

theorem Tree.shapes_pos (e : Tree) : 0 < e.shapes.length := by
  obtain ⟨s, more, eq, -⟩ := opens_shapes e
  rw [eq]
  exact Nat.succ_pos _

section Parts
variable {e : Tree} {n : Nat} {level : Precedence}

theorem Tree.Climbs.yields (h : e.Climbs) (n : Nat) (level : Precedence) (room : e.shapes.length ≤ n) (strong : level.rank ≤ e.level.rank) :
    Yields (parseGoal n (.expression level)) () e.shapes e.directives (Stops level) := by
  cases n with
  | zero => exact absurd (Nat.lt_of_lt_of_le e.shapes_pos room) (Nat.lt_irrefl 0)
  | succ n =>
    refine yields_climb (h n level _ room strong) fun k stops => ⟨⟨.of_stops stops strong, fun loose => ?_⟩, stops⟩
    exact stops.2 (of_decide_eq_true loose)

theorem stops_of_none {k : TokenKind} (ends : k.infixLevel = .none) (other : isAssignment k = false)
    (some : 0 < level.rank) : Stops level k :=
  ⟨by rw [ends]; exact some, fun _ => other⟩

/-- The first operand of something, with parentheses or without. -/
theorem Tree.Climbs.first (h : e.Climbs) (n : Nat) (level : Precedence) (canAssign needed : Bool)
    (room : (enclosed needed e.shapes).length ≤ n + 1) (strong : needed = false → level.rank ≤ e.level.rank) :
    Grammar.Climbs (parseGoal n) level canAssign (enclosed needed e.shapes) e.directives
      fun k => (needed = false → e.Before k) ∧ (canAssign → isAssignment k = false) := by
  cases needed with
  | false => exact (h n level canAssign room (strong rfl)).mono fun k here => ⟨here.1 rfl, here.2⟩
  | true =>
    have room' : e.shapes.length ≤ n := by
      simp only [enclosed, if_true, List.length_cons, List.length_append, List.length_nil] at room
      omega
    exact climbs_parentheses (h.yields n _ room' (Nat.le_of_lt e.assignment_lt_level)) (stops_of_none rfl rfl (by decide))

/-- An operand that is a goal of its own. -/
theorem Tree.Climbs.operand (h : e.Climbs) (n : Nat) (level : Precedence)
    (room : (enclosed (e.loose level) e.shapes).length ≤ n) :
    Yields (parseGoal n (.expression level)) () (enclosed (e.loose level) e.shapes) e.directives (Stops level) := by
  have tight (free : e.loose level = false) : level.rank ≤ e.level.rank :=
    Nat.le_of_not_lt (of_decide_eq_false free)
  cases n with
  | zero =>
    obtain ⟨s, more, eq, -⟩ := (opens_shapes e).enclosed (e.loose level)
    rw [eq] at room
    cases room
  | succ n =>
    refine yields_climb (h.first n level _ _ room tight) fun k stops =>
      ⟨⟨fun free => .of_stops stops (tight free), fun loose => ?_⟩, stops⟩
    exact stops.2 (of_decide_eq_true loose)

/-- What a member or an element is read from. -/
theorem Tree.Climbs.object (h : e.Climbs) (n : Nat) (level : Precedence) (canAssign : Bool)
    (room : (enclosed (e.loose .call) e.shapes).length ≤ n + 1) (strong : level.rank ≤ Precedence.call.rank) :
    Grammar.Climbs (parseGoal n) level canAssign (enclosed (e.loose .call) e.shapes) e.directives
      fun k => k ≠ .openParen ∧ isAssignment k = false := by
  refine (h.first n level canAssign _ room fun tight => Nat.le_trans strong (Nat.le_of_not_lt (of_decide_eq_false tight))).mono ?_
  exact fun k here => ⟨fun tight => .of_call tight fun _ => here.1, fun _ => here.2⟩

theorem Tree.Climbs.arguments {args : List Tree} (each : ∀ e ∈ args, e.Climbs)
    (room : ([Shape.fixed .comma].intercalate (Tree.shapes.allShapes args)).length ≤ n) :
    ∀ e ∈ args, Yields (expression (parseGoal n)) () e.shapes e.directives Separates := by
  intro e mem
  refine ((each e mem).yields n _ (Nat.le_trans (arguments_length mem) room) (Nat.le_of_lt e.assignment_lt_level)).mono ?_
  rintro k (rfl | rfl) <;> exact stops_of_none rfl rfl (by decide)

end Parts

theorem Tree.climbs (e : Tree) (fits : ∀ op ∈ e.code, op.argc ≤ 255) : e.Climbs := by
  induction e using Tree.induct with
  | number v => exact fun n level canAssign _ _ => climbs_number v
  | string v => exact fun n level canAssign _ _ => climbs_string v
  | bool v =>
    intro n level canAssign _ _
    cases v with
    | true => exact climbs_bool true
    | false => exact climbs_bool false
  | null => exact fun n level canAssign _ _ => climbs_null
  | identifier x => exact fun n level canAssign _ _ => (climbs_identifier x).mono fun k here => here.2
  | unary op e ih =>
    intro n level canAssign room _
    have operand := (ih fun x mem => fits x (List.mem_append_left _ mem)).operand n .unary
      (Nat.le_of_succ_le_succ room)
    exact climbs_unary op (operand.mono fun k here => ⟨here.1, fun loose => absurd loose (by decide)⟩)
  | binary op l r left right =>
    intro n level canAssign room strong
    simp only [Tree.shapes, List.length_append, List.length_cons] at room
    have first := (left fun x mem => fits x (List.mem_append_left _ mem)).first n level canAssign
      (l.loose op.level) (by omega)
      fun tight => Nat.le_trans strong (Nat.le_of_not_lt (of_decide_eq_false tight))
    have second := (right fun x mem => fits x (List.mem_append_right _ (List.mem_append_left _ mem))).operand n
      op.level.next (by omega)
    refine first.round (yields_binary op (second.mono fun k here => ⟨?_, fun loose => ?_⟩) strong) fun t of => ?_
    · rw [op.level_rank.2.2]
      exact Nat.lt_succ_of_le here.1
    · rw [op.level_rank.2.2] at loose
      exact absurd (Nat.lt_of_lt_of_le op.level_rank.1 (Nat.le_of_succ_le loose)) (by decide)
    · rw [show t.kind = op.token from of]
      exact ⟨.of_binary, fun _ => by cases op <;> rfl⟩
  | short op l r left right =>
    intro n level canAssign room strong
    simp only [Tree.shapes, List.length_append, List.length_cons] at room
    have first := (left fun x mem => fits x (List.mem_append_left _ mem)).first n level canAssign
      (l.loose op.level.next) (by omega)
      fun tight => Nat.le_trans strong (Nat.le_trans (by rw [op.level_rank.2.2]; exact Nat.le_succ _)
        (Nat.le_of_not_lt (of_decide_eq_false tight)))
    have second := (right fun x mem => fits x (List.mem_append_right _ (List.mem_append_right _ mem))).operand n
      op.level (by omega)
    refine first.round (yields_short op (second.mono fun k here => ⟨here.1, fun loose => ?_⟩) strong) fun t of => ?_
    · exact absurd (Nat.lt_of_lt_of_le op.level_rank.1 loose) (by decide)
    · rw [show t.kind = op.token from of]
      exact ⟨.of_short, fun _ => by cases op <;> rfl⟩
  | call f args callee each =>
    intro n level canAssign room strong
    simp only [Tree.shapes, List.length_append, List.length_cons] at room
    have first := (callee fun x mem => fits x (List.mem_append_left _ mem)).first n level canAssign
      (f.isProperty || f.loose .call) (by omega)
      fun free => Nat.le_trans strong (Nat.le_of_not_lt (of_decide_eq_false (Bool.or_eq_false_iff.mp free).2))
    have inside : ∀ e ∈ args, e.Climbs := fun e mem => each e mem fun x here =>
      fits x (List.mem_append_right _ (List.mem_append_left _ (Tree.mem_allCode mem here)))
    have few : args.length ≤ 255 := fits (.call args.length)
      (List.mem_append_right _ (List.mem_append_right _ (List.mem_singleton_self _)))
    refine (first.round (yields_call (Tree.Climbs.arguments inside (by omega)) few strong) fun t of => ?_)
    rw [show t.kind = .openParen from of]
    refine ⟨fun free => .of_call (Bool.or_eq_false_iff.mp free).2 fun property => ?_, fun _ => rfl⟩
    rw [(Bool.or_eq_false_iff.mp free).1] at property
    cases property
  | invoke o x args object each =>
    intro n level canAssign room strong
    simp only [Tree.shapes, List.length_append, List.length_cons] at room
    have first := (object fun x mem => fits x (List.mem_append_left _ mem)).object n level canAssign
      (by omega) strong
    have inside : ∀ e ∈ args, e.Climbs := fun e mem => each e mem fun x here =>
      fits x (List.mem_append_right _ (List.mem_append_left _ (Tree.mem_allCode mem here)))
    have few : args.length ≤ 255 := fits (.invoke x args.length)
      (List.mem_append_right _ (List.mem_append_right _ (List.mem_singleton_self _)))
    refine (first.round (yields_invoke x (Tree.Climbs.arguments inside (by omega)) few strong) fun t of => ?_)
    rw [show t.kind = .dot from of]
    exact ⟨nofun, rfl⟩
  | property o x object =>
    intro n level canAssign room strong
    simp only [Tree.shapes, List.length_append, List.length_cons] at room
    have first := (object fun x mem => fits x (List.mem_append_left _ mem)).object n level canAssign
      (by omega) strong
    refine first.round (yields_property x strong) fun t of => ?_
    rw [show t.kind = .dot from of]
    exact ⟨nofun, rfl⟩
  | index o k object key =>
    intro n level canAssign room strong
    simp only [Tree.shapes, List.length_append, List.length_cons] at room
    have first := (object fun x mem => fits x (List.mem_append_left _ mem)).object n level canAssign
      (by omega) strong
    have second := (key fun x mem => fits x (List.mem_append_right _ (List.mem_append_left _ mem))).yields n _
      (by omega) (Nat.le_of_lt k.assignment_lt_level)
    refine (first.round (yields_index second (stops_of_none rfl rfl (by decide)) strong) fun t of => ?_).mono
      fun k here => here.2
    rw [show t.kind = .openBracket from of]
    exact ⟨nofun, rfl⟩

end ScriptEngine
