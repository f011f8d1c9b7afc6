import ScriptEngine.Proofs.Consuming
import ScriptEngine.Proofs.Erasing
import ScriptEngine.Proofs.Respacing

/-!
# Tokens that are moved

What a parser does with tokens depends on what stands behind them only as far as it looks
there, and on their lines only in a note. `Carries` says so of two parsers, which are in use
the same one with different bounds: what the first does with tokens in one place, the second
does with tokens like them in another place, if it ends so many tokens ahead of where they
end. Of a first part less has to be left behind it, since the second part reads on.

A parser never goes back, and loops make use of that a round reads a token if it asks for
another one: there is room for as many rounds as there are tokens.
-/
namespace ScriptEngine.Grammar

/-- Tokens are moved: they stood in front of some others, of two at least, and stand in front of the target now. -/
structure Move where
  source : List Token
  two : 2 ≤ source.length
  target : Token
  rest : List Token

/-- The first cursor is ahead of the tokens at the source, the second is ahead of tokens like them at the target. -/
structure Move.Ahead (m : Move) (moved : List Token) (c d : Cursor) : Prop where
  source : c.left = moved ++ m.source
  target : ∃ moved', d.left = moved' ++ m.target :: m.rest ∧ moved'.map Token.content = moved.map Token.content

/-- From both cursors the same directives are written, apart from lines. -/
def Alike (c c' d d' : Cursor) : Prop :=
  ∃ ds ds', c.Writes c' ds ∧ d.Writes d' ds' ∧ ds'.map Directive.unplaced = ds.map Directive.unplaced

/-- The first parser leaves an end of what was left, and less of it where `q` holds of its result. What it does with
tokens at the source, of which it leaves `n` or more, the second does with tokens like them at the target. -/
structure Move.Carries {α : Type} (m : Move) (q : α → Prop) (n : Nat) (x y : Parser α) : Prop where
  reads : ∀ c a c', x c = .ok a c' → c'.left <:+ c.left ∧ (q a → 2 ≤ c'.left.length → c'.left.length < c.left.length)
  moves : ∀ c d moved left a c', m.Ahead moved c d → x c = .ok a c' → c'.left = left ++ m.source → n ≤ left.length →
    ∃ d', y d = .ok a d' ∧ m.Ahead left c' d' ∧ Alike c c' d d'

section

variable {α β σ : Type} {m : Move} {p q r : α → Prop} {n k : Nat} {x y : Parser α} {kind : TokenKind}

theorem parser_bind_ok {f : α → Parser β} {c c' : Cursor} {b : β} (h : (x >>= f) c = .ok b c') :
    ∃ a c₁, x c = .ok a c₁ ∧ f a c₁ = .ok b c' := by
  cases run : x c with
  | ok a c₁ =>
    rw [parser_bind run] at h
    exact ⟨a, c₁, rfl, h⟩
  | error e c₁ =>
    rw [parser_bind_error run] at h
    cases h

theorem Cursor.left_advance (c : Cursor) : (∃ t ts, c.left = t :: ts ∧ ts ≠ [] ∧ c.advance.left = ts) ∨
    c.left = [c.current] ∧ c.advance.left = c.left := by
  unfold advance left
  cases c.ahead with
  | nil => exact .inr ⟨rfl, rfl⟩
  | cons t ts => exact .inl ⟨c.current, t :: ts, rfl, nofun, rfl⟩

theorem Alike.refl {c c' d d' : Cursor} (same : c'.steps = c.steps) (same' : d'.steps = d.steps) : Alike c c' d d' :=
  ⟨[], [], .refl same, .refl same', rfl⟩

theorem Alike.trans {c c' c'' d d' d'' : Cursor} (h : Alike c c' d d') (h' : Alike c' c'' d' d'') :
    Alike c c'' d d'' := by
  obtain ⟨ds, ds', writes, writes', same⟩ := h
  obtain ⟨es, es', wrote, wrote', same'⟩ := h'
  exact ⟨ds ++ es, ds' ++ es', writes.trans wrote, writes'.trans wrote', by rw [List.map_append, List.map_append, same, same']⟩

theorem Move.Ahead.eq {c d : Cursor} {moved left : List Token} (h : m.Ahead moved c d) (ends : c.left = left ++ m.source) :
    moved = left := List.append_cancel_right (h.source.symm.trans ends)

/-- The next tokens are among those that are moved. -/
theorem Move.Ahead.cons {c d : Cursor} {t : Token} {moved : List Token} (h : m.Ahead (t :: moved) c d) :
    c.current = t ∧ d.current.content = t.content ∧ m.Ahead moved c.advance d.advance := by
  obtain ⟨source, moved', target, like⟩ := h
  obtain ⟨t', moved', rfl, same, like⟩ := List.map_eq_cons_iff.mp like
  have two := m.two
  rw [List.cons_append] at source target
  have next (u : Token) (us : List Token) (e : Cursor) (left : e.left = u :: us) (some : us ≠ []) : e.advance.left = us := by
    obtain ⟨v, vs, rfl⟩ := List.exists_cons_of_ne_nil some
    exact (Cursor.advance_left left).2.1
  refine ⟨(List.cons.inj source).1, ?_, next _ _ _ source fun none => ?_, moved', next _ _ _ target ?_, like⟩
  · rw [(List.cons.inj target).1, same]
  · rw [(List.append_eq_nil_iff.mp none).2] at two
    cases two
  · simp

theorem Move.Ahead.nil {c d : Cursor} (h : m.Ahead [] c d) : d.current = m.target := by
  obtain ⟨-, moved', target, like⟩ := h
  obtain rfl := List.map_eq_nil_iff.mp like
  exact (List.cons.inj target).1

/-! ## Sequences -/

theorem Move.Carries.mono (h : m.Carries p n x y) (imp : ∀ a, q a → p a) (le : n ≤ k) : m.Carries q k x y where
  reads c a c' run := ⟨(h.reads c a c' run).1, fun ate => (h.reads c a c' run).2 (imp a ate)⟩
  moves c d moved left a c' ahead run ends more := h.moves c d moved left a c' ahead run ends (le.trans more)

theorem Move.Carries.any (h : m.Carries (fun _ => True) n x y) : m.Carries q n x y := h.mono (fun _ _ => trivial) le_rfl

theorem Move.Carries.shrinks (h : m.Carries q n x y) (c : Cursor) (a : α) (c' : Cursor) (run : x c = .ok a c') :
    c'.left <:+ c.left := (h.reads c a c' run).1

/-- What is left of the tokens by the end of a parser is left of them all the while. -/
theorem Move.Carries.left {c c' : Cursor} {a : α} {left : List Token} (h : m.Carries q n x y) (run : x c = .ok a c')
    (ends : c'.left = left ++ m.source) : ∃ more, c.left = (more ++ left) ++ m.source ∧ (q a → more ≠ []) := by
  obtain ⟨⟨more, eq⟩, ate⟩ := h.reads c a c' run
  refine ⟨more, by rw [← eq, ends, List.append_assoc], fun here none => ?_⟩
  have two := m.two
  have less := ate here (by rw [ends, List.length_append]; omega)
  rw [← eq, none, List.nil_append] at less
  exact Nat.lt_irrefl _ less

theorem carries_bind {f g : α → Parser β} {q : α → β → Prop} {r : β → Prop} (h : m.Carries p k x y)
    (h' : ∀ a, m.Carries (q a) n (f a) (g a)) (sum : ∀ a b, r b → p a ∨ q a b)
    (enough : ∀ a b, k ≤ n ∨ k ≤ n + 1 ∧ q a b) : m.Carries r n (x >>= f) (y >>= g) where
  reads c b c' run := by
    obtain ⟨a, c₁, first, second⟩ := parser_bind_ok run
    obtain ⟨end₁, ate₁⟩ := h.reads c a c₁ first
    obtain ⟨end₂, ate₂⟩ := (h' a).reads c₁ b c' second
    refine ⟨end₂.trans end₁, fun here two => ?_⟩
    have le₁ := end₁.length_le
    have le₂ := end₂.length_le
    rcases sum a b here with ate | ate
    · exact Nat.lt_of_le_of_lt le₂ (ate₁ ate (two.trans le₂))
    · exact Nat.lt_of_lt_of_le (ate₂ ate two) le₁
  moves c d moved left b c' ahead run ends more := by
    obtain ⟨a, c₁, first, second⟩ := parser_bind_ok run
    obtain ⟨between, left₁, ate⟩ := (h' a).left second ends
    have room : k ≤ (between ++ left).length := by
      rw [List.length_append]
      rcases enough a b with le | ⟨le, here⟩
      · omega
      · have := List.length_pos_iff.mpr (ate here)
        omega
    obtain ⟨d₁, run₁, ahead₁, alike⟩ := h.moves c d moved _ a c₁ ahead first left₁ room
    obtain ⟨d', run', ahead', alike'⟩ := (h' a).moves c₁ d₁ _ left b c' ahead₁ second ends more
    exact ⟨d', (parser_bind run₁ g).trans run', ahead', alike.trans alike'⟩

/-- The second part reads something. -/
theorem Move.Carries.then {f g : α → Parser β} {r : β → Prop} (h : m.Carries (fun _ => False) (n + 1) x y)
    (h' : ∀ a, m.Carries (fun _ => True) n (f a) (g a)) : m.Carries r n (x >>= f) (y >>= g) :=
  carries_bind h h' (fun _ _ _ => .inr trivial) fun _ _ => .inr ⟨le_rfl, trivial⟩

/-- The first part reads something. -/
theorem Move.Carries.eaten {f g : α → Parser β} {r : β → Prop} (h : m.Carries (fun _ => True) n x y)
    (h' : ∀ a, m.Carries (fun _ => False) n (f a) (g a)) : m.Carries r n (x >>= f) (y >>= g) :=
  carries_bind h h' (fun _ _ _ => .inl trivial) fun _ _ => .inl le_rfl

/-- One of the parts may read something. -/
theorem Move.Carries.next {f g : α → Parser β} {r : β → Prop} (h : m.Carries (fun _ => False) n x y)
    (h' : ∀ a, m.Carries r n (f a) (g a)) : m.Carries r n (x >>= f) (y >>= g) :=
  carries_bind h h' (fun _ _ => .inr) fun _ _ => .inl le_rfl

/-! ## Single steps -/

theorem carries_pure {a : α} (none : ¬q a) : m.Carries q n (pure a) (pure a) where
  reads := by
    rintro c _ _ ⟨⟩
    exact ⟨List.suffix_rfl, fun here => (none here).elim⟩
  moves := by
    rintro c d moved left _ _ ahead ⟨⟩ ends -
    obtain rfl := ahead.eq ends
    exact ⟨d, rfl, ahead, .refl rfl rfl⟩

theorem carries_writeAlike {d d' : Directive} (same : d'.unplaced = d.unplaced) :
    m.Carries (fun _ => False) n (write d) (write d') where
  reads := by
    rintro c _ _ ⟨⟩
    exact ⟨List.suffix_rfl, False.elim⟩
  moves := by
    rintro c c' moved left _ _ ahead ⟨⟩ ends -
    obtain rfl := ahead.eq ends
    exact ⟨_, rfl, ⟨ahead.source, ahead.target⟩, [d], [d'], ⟨[_], Array.toList_push .., rfl⟩,
      ⟨[_], Array.toList_push .., rfl⟩, congrArg ([·]) same⟩

theorem carries_write (d : Directive) : m.Carries (fun _ => False) n (write d) (write d) := carries_writeAlike rfl

theorem carries_writes (ds : List Directive) : m.Carries (fun _ => False) n (ds.forM write) (ds.forM write) := by
  induction ds with
  | nil => exact carries_pure id
  | cons d ds ih => exact (carries_write d).next fun _ => ih

theorem carries_failed (fails : ∀ c a c', x c ≠ .ok a c') : m.Carries q n x y where
  reads c a c' run := (fails c a c' run).elim
  moves _ _ _ _ a _ _ run _ _ := (fails _ a _ run).elim

theorem carries_failHere {fault : CompileFault} {y : Parser α} : m.Carries q n (failHere fault) y :=
  carries_failed fun _ _ _ => nofun

theorem carries_failBefore {fault : CompileFault} {y : Parser α} : m.Carries q n (failBefore fault) y :=
  carries_failed fun _ _ _ => nofun

/-- A token that is read is one of those that are moved. -/
theorem Move.moved_of_advance {c : Cursor} {moved left : List Token} (source : c.left = moved ++ m.source)
    (ends : c.advance.left = left ++ m.source) : ∃ t, moved = t :: left := by
  have two := m.two
  rcases c.left_advance with ⟨t, ts, eq, -, rest⟩ | ⟨single, same⟩
  · have eq : (t :: left) ++ m.source = moved ++ m.source := by rw [← source, eq, ← rest, ends]; rfl
    exact ⟨t, (List.append_cancel_right eq).symm⟩
  · have := congrArg List.length (single.symm.trans source)
    rw [List.length_append, List.length_singleton] at this
    omega

theorem reads_advance (c : Cursor) :
    c.advance.left <:+ c.left ∧ (2 ≤ c.advance.left.length → c.advance.left.length < c.left.length) := by
  rcases c.left_advance with ⟨t, ts, eq, -, rest⟩ | ⟨single, same⟩
  · rw [eq, rest]
    exact ⟨List.suffix_cons t ts, fun _ => Nat.lt_succ_self _⟩
  · rw [same, single]
    exact ⟨List.suffix_rfl, fun two => absurd two (Nat.not_succ_le_self 1)⟩

/-- The token that is read is like the one in the other place. -/
theorem carries_previous {f g : Token → Parser β} {r : β → Prop}
    (h : ∀ t t', t'.content = t.content → m.Carries (fun _ => False) n (f t) (g t')) :
    m.Carries r n (advance >>= fun _ => previousToken >>= f) (advance >>= fun _ => previousToken >>= g) where
  reads c b c' run := by
    obtain ⟨ends, ate⟩ := reads_advance c
    obtain ⟨ends', -⟩ := (h _ _ rfl).reads c.advance b c' run
    exact ⟨ends'.trans ends, fun _ two => Nat.lt_of_le_of_lt ends'.length_le (ate (two.trans ends'.length_le))⟩
  moves c d moved left b c' ahead run ends more := by
    change f c.advance.previous c.advance = _ at run
    obtain ⟨between, left₁, -⟩ := (h _ _ rfl).left (c := c.advance) run ends
    obtain ⟨t, rfl⟩ := Move.moved_of_advance ahead.source left₁
    obtain ⟨current, current', ahead'⟩ := ahead.cons
    have same : d.advance.previous.content = c.advance.previous.content := by
      rw [previous_advance, previous_advance, current, current']
    obtain ⟨d', run', ahead'', alike⟩ := (h _ _ same).moves c.advance d.advance _ left b c' ahead' run ends more
    refine ⟨d', run', ahead'', .trans (.refl (steps_advance c) (steps_advance d)) alike⟩

theorem carries_advance {f g : Unit → Parser β} {r : β → Prop} (h : m.Carries (fun _ => False) n (f ()) (g ())) :
    m.Carries r n (advance >>= f) (advance >>= g) :=
  carries_previous (f := fun _ => f ()) (g := fun _ => g ()) fun _ _ _ => h

/-! ## Looking ahead -/

theorem Move.Carries.moved_ne_nil {c c' d : Cursor} {a : α} {moved left : List Token} (h : m.Carries q n x y)
    (ahead : m.Ahead moved c d) (run : x c = .ok a c') (ends : c'.left = left ++ m.source)
    (more : n ≤ left.length) (sure : n = 0 → q a) : moved ≠ [] := by
  obtain ⟨between, eq, ate⟩ := h.left run ends
  obtain rfl := ahead.eq eq
  intro none
  obtain ⟨rfl, rfl⟩ := List.append_eq_nil_iff.mp none
  exact ate (sure (Nat.le_zero.mp more)) rfl

/-- Something is left or has been read when the parser ends, so the next token is one of those that are moved. -/
theorem carries_current {f g : Token → Parser β} {q : β → Prop}
    (h : ∀ t t', t'.content = t.content → m.Carries q n (f t) (g t')) (sure : n = 0 → ∀ b, q b) :
    m.Carries q n (get >>= fun c => f c.current) (get >>= fun c => g c.current) where
  reads c b c' run := (h c.current _ rfl).reads c b c' run
  moves c d moved left b c' ahead run ends more := by
    change f c.current c = _ at run
    have some : moved ≠ [] := (h _ _ rfl).moved_ne_nil ahead run ends more fun zero => sure zero b
    obtain ⟨t, moved, rfl⟩ := List.exists_cons_of_ne_nil some
    obtain ⟨here, there, -⟩ := ahead.cons
    exact (h _ _ (there.trans (congrArg Token.content here.symm))).moves c d _ left b c' ahead run ends more

theorem Token.kind_eq {t t' : Token} (same : t'.content = t.content) : t'.kind = t.kind := congrArg Prod.fst same

theorem Token.lexeme_eq {t t' : Token} (same : t'.content = t.content) : t'.lexeme = t.lexeme :=
  congrArg (fun content => content.2.1) same

theorem Token.literal_eq {t t' : Token} (same : t'.content = t.content) : t'.literal = t.literal :=
  congrArg (fun content => content.2.2) same

theorem carries_kind {f g : TokenKind → Parser β} {q : β → Prop} (h : ∀ k, m.Carries q n (f k) (g k))
    (sure : n = 0 → ∀ b, q b) : m.Carries q n (currentKind >>= f) (currentKind >>= g) :=
  carries_current (f := fun t => f t.kind) (g := fun t => g t.kind)
    (fun _ t' same => Token.kind_eq same ▸ h t'.kind) sure

theorem carries_check {f g : Bool → Parser β} {q : β → Prop} (h : ∀ b, m.Carries q n (f b) (g b))
    (sure : n = 0 → ∀ b, q b) : m.Carries q n (check kind >>= f) (check kind >>= g) :=
  carries_kind (f := fun k => f (decide (k = kind))) (g := fun k => g (decide (k = kind))) (fun _ => h _) sure

/-- Tokens of some kinds are read on. Where none of the tokens that are moved is left, the one at the target is not
of these kinds. -/
theorem carries_peek {f g : TokenKind → Parser β} {B B' : Parser β} {q : β → Prop} (P : TokenKind → Prop)
    (go : ∀ k, P k → m.Carries (fun _ => True) n (f k) (g k)) (stay : m.Carries q n B B')
    (others : ∀ k, ¬P k → f k = B ∧ g k = B') (stops : n = 0 → ¬P m.target.kind) :
    m.Carries q n (currentKind >>= f) (currentKind >>= g) where
  reads c b c' run := by
    change f c.current.kind c = _ at run
    by_cases here : P c.current.kind
    · have reads := (go _ here).reads c b c' run
      exact ⟨reads.1, fun _ => reads.2 trivial⟩
    · rw [(others _ here).1] at run
      exact stay.reads c b c' run
  moves c d moved left b c' ahead run ends more := by
    change f c.current.kind c = _ at run
    change ∃ d', g d.current.kind d = _ ∧ _
    cases moved with
    | cons t moved =>
      obtain ⟨current, current', -⟩ := ahead.cons
      rw [Token.kind_eq current', ← current]
      by_cases here : P c.current.kind
      · exact (go _ here).moves c d _ left b c' ahead run ends more
      · rw [(others _ here).1] at run
        rw [(others _ here).2]
        exact stay.moves c d _ left b c' ahead run ends more
    | nil =>
      by_cases here : P c.current.kind
      · exact ((go _ here).moved_ne_nil ahead run ends more (fun _ => trivial) rfl).elim
      · rw [(others _ here).1] at run
        obtain ⟨between, eq, -⟩ := stay.left run ends
        have none := List.append_eq_nil_iff.mp (ahead.eq eq).symm
        have zero : n = 0 := by simpa [none.2] using more
        rw [ahead.nil, (others _ (stops zero)).2]
        exact stay.moves c d [] left b c' ahead run ends more

/-- Tokens of some kinds are read, and it depends on the token what is read behind it. -/
theorem carries_continues {f g : Token → Parser β} {B B' : Parser β} {q : β → Prop} (P : TokenKind → Prop) [DecidablePred P]
    (go : ∀ t t', t'.content = t.content → P t.kind → m.Carries (fun _ => False) n (f t) (g t')) (stay : m.Carries q n B B')
    (stops : n = 0 → ¬P m.target.kind) :
    m.Carries q n (currentKind >>= fun k => if P k then advance >>= fun _ => previousToken >>= f else B)
      (currentKind >>= fun k => if P k then advance >>= fun _ => previousToken >>= g else B') := by
  -- the token that is read is the one that has been looked at
  have seen {h : Token → Parser β} {C : Parser β} :
      (currentKind >>= fun k => if P k then advance >>= fun _ => previousToken >>= h else C) =
        currentKind >>= fun k => if P k then advance >>= fun _ => previousToken >>= fun t =>
          if P t.kind then h t else failHere .exhausted else C := by
    funext c
    change (if P c.current.kind then advance >>= fun _ => previousToken >>= h else C) c =
      (if P c.current.kind then advance >>= fun _ => previousToken >>= fun t =>
        if P t.kind then h t else failHere .exhausted else C) c
    split
    · rename_i here
      change h c.advance.previous c.advance =
        (if P c.advance.previous.kind then h c.advance.previous else failHere .exhausted) c.advance
      rw [previous_advance, if_pos here]
    · rfl
  rw [seen, seen]
  refine carries_peek P (fun k here => ?_) stay (fun k other => ⟨if_neg other, if_neg other⟩) stops
  rw [if_pos here, if_pos here]
  refine carries_previous fun t t' same => ?_
  by_cases here : P t.kind
  · rw [if_pos here, if_pos (Token.kind_eq same ▸ here)]
    exact go t t' same here
  · rw [if_neg here]
    exact carries_failHere

theorem accept_bind (kind : TokenKind) (f : Bool → Parser β) : accept kind >>= f =
    currentKind >>= fun k => if k = kind then advance >>= fun _ => f true else f false := by
  funext c
  change _ = (if c.current.kind = kind then advance >>= fun _ => f true else f false) c
  by_cases here : c.current.kind = kind
  · have run : accept kind c = .ok true c.advance := by rw [accept_eq, if_pos here]
    rw [parser_bind run, if_pos here]
    rfl
  · have run : accept kind c = .ok false c := by rw [accept_eq, if_neg here]
    rw [parser_bind run, if_neg here]

theorem carries_accept {f g : Bool → Parser β} {q : β → Prop} (hit : m.Carries (fun _ => False) n (f true) (g true))
    (miss : m.Carries q n (f false) (g false)) (stops : n = 0 → m.target.kind ≠ kind) :
    m.Carries q n (accept kind >>= f) (accept kind >>= g) := by
  rw [accept_bind, accept_bind]
  refine carries_peek (· = kind) (fun k here => ?_) miss (fun k other => ⟨if_neg other, if_neg other⟩) stops
  rw [if_pos here, if_pos here]
  exact carries_advance hit

/-- A token that may be there, in front of something that reads on. -/
theorem carries_optional {f g : Bool → Parser β} {q : β → Prop} (hit : m.Carries (fun _ => False) n (f true) (g true))
    (miss : m.Carries (fun _ => True) n (f false) (g false)) : m.Carries q n (accept kind >>= f)
      (accept kind >>= g) := by
  rw [accept_bind, accept_bind]
  refine Move.Carries.any (carries_kind (fun k => ?_) fun _ _ => trivial)
  split
  · exact carries_advance hit
  · exact miss

theorem carries_accepts : m.Carries (fun _ => False) (n + 1) (accept kind) (accept kind) := by
  have h : m.Carries (fun _ => False) (n + 1) (accept kind >>= pure) (accept kind >>= pure) :=
    carries_accept (carries_pure id) (carries_pure id) fun zero => absurd zero (Nat.succ_ne_zero n)
  rwa [bind_pure] at h

theorem carries_expect {q : Unit → Prop} {what : String} : m.Carries q n (expect kind what) (expect kind what) :=
  carries_optional (carries_pure id) carries_failHere

theorem expectName_eq (what : String) : expectName what = currentKind >>= fun k =>
    if k = .identifier then advance >>= fun _ => previousToken >>= fun t => pure t.lexeme
    else failHere (.expected what) := by
  have expanded : expectName what = accept .identifier >>= fun found => (if found then pure () else failHere (.expected what)) >>=
      fun _ => previousToken >>= fun t => pure t.lexeme := by
    unfold expectName expect
    rw [bind_assoc]
  rw [expanded, accept_bind]
  rfl

theorem carries_expectName {q : String → Prop} {what : String} :
    m.Carries q n (expectName what) (expectName what) := by
  rw [expectName_eq]
  refine Move.Carries.any (carries_kind (fun k => ?_) fun _ _ => trivial)
  split
  · exact carries_previous fun t t' same => Token.lexeme_eq same ▸ carries_pure id
  · exact carries_failHere

theorem carries_expectMember {q : String → Prop} {what : String} :
    m.Carries q n (expectMember what) (expectMember what) := by
  unfold expectMember
  rw [accept_bind]
  refine Move.Carries.any (carries_kind (fun k => ?_) fun _ _ => trivial)
  split
  · exact carries_previous fun t t' same => Token.lexeme_eq same ▸ carries_pure id
  · exact carries_expectName

/-- What depends on the next two tokens only, and reads none. -/
theorem carries_looks (looks : ∀ c d a c', d.current.content = c.current.content →
    d.ahead.head?.map Token.content = c.ahead.head?.map Token.content → x c = .ok a c' → c' = c ∧ x d = .ok a d) :
    m.Carries (fun _ => False) (n + 2) x x where
  reads c a c' run := by
    rw [(looks c c a c' rfl rfl run).1]
    exact ⟨List.suffix_rfl, False.elim⟩
  moves c d moved left a c' ahead run ends more := by
    obtain rfl := (looks c c a c' rfl rfl run).1
    obtain rfl := ahead.eq ends
    have ⟨source, moved', target, like⟩ := ahead
    match moved, more, source, like with
    | t :: u :: moved, _, source, like =>
      obtain ⟨t', us, rfl, same, like⟩ := List.map_eq_cons_iff.mp like
      obtain ⟨u', moved', rfl, same', -⟩ := List.map_eq_cons_iff.mp like
      obtain ⟨here, next⟩ := List.cons.inj source
      obtain ⟨there, next'⟩ := List.cons.inj target
      have first : d.current.content = c'.current.content := by rw [here, there, same]
      have second : d.ahead.head?.map Token.content = c'.ahead.head?.map Token.content := by
        rw [next, next']
        exact congrArg some same'
      exact ⟨d, (looks c' d a c' first second run).2, ahead, .refl rfl rfl⟩

theorem carries_secondKind : m.Carries (fun _ => False) (n + 2) secondKind secondKind := by
  refine carries_looks fun c d a c' _ second run => ?_
  cases run
  refine ⟨rfl, congrArg (EStateM.Result.ok · d) ?_⟩
  have same := congrArg (Option.map Prod.fst) second
  rw [Option.map_map, Option.map_map] at same
  exact congrArg (Option.getD · TokenKind.eof) same

/-! ## Loops -/

theorem rounds_reads {round : σ → Parser (σ × Bool)}
    (each : ∀ s c r c', round s c = .ok r c' → c'.left <:+ c.left) {bound : List Token} {s s' : σ} {c c' : Cursor}
    (run : rounds round bound s c = .ok s' c') : c'.left <:+ c.left := by
  induction bound generalizing s c with
  | nil => cases run
  | cons t bound ih =>
    obtain ⟨⟨s₁, more⟩, c₁, first, second⟩ := parser_bind_ok run
    have ends := each s c _ c₁ first
    cases more with
    | true => exact (ih second).trans ends
    | false =>
      cases second
      exact ends

/-- Each round that asks for another one has read a token of those that are moved, so there is room for all of them. -/
theorem rounds_moves {round round' : σ → Parser (σ × Bool)}
    (each : ∀ s, m.Carries (fun r => r.2 = true) n (round s) (round' s)) {bound bound' : List Token} {s s' : σ}
    {c c' d : Cursor} {moved left : List Token} (ahead : m.Ahead moved c d) (run : rounds round bound s c = .ok s' c')
    (ends : c'.left = left ++ m.source) (more : n ≤ left.length) (room : moved.length < bound'.length) :
    ∃ d', rounds round' bound' s d = .ok s' d' ∧ m.Ahead left c' d' ∧ Alike c c' d d' := by
  induction bound generalizing s c d moved bound' with
  | nil => cases run
  | cons t bound ih =>
    obtain ⟨t', bound', rfl⟩ := List.exists_cons_of_length_pos (Nat.zero_lt_of_lt room)
    obtain ⟨⟨s₁, again⟩, c₁, first, second⟩ := parser_bind_ok run
    cases again with
    | false =>
      cases second
      obtain ⟨d', run', result⟩ := (each s).moves c d moved left _ _ ahead first ends more
      exact ⟨d', parser_bind run' _, result⟩
    | true =>
      obtain ⟨between, left₁⟩ := rounds_reads (fun s => (each s).shrinks) second
      rw [ends, ← List.append_assoc] at left₁
      obtain ⟨ate, eq, some⟩ := (each s).left first left₁.symm
      obtain rfl := ahead.eq eq
      have fewer : (between ++ left).length < bound'.length := by
        have := List.length_pos_iff.mpr (some rfl)
        rw [List.length_append, List.length_cons] at room
        omega
      obtain ⟨d₁, run₁, ahead₁, alike⟩ := (each s).moves c d _ _ _ c₁ ahead first left₁.symm
        (more.trans (by rw [List.length_append]; exact Nat.le_add_left _ _))
      obtain ⟨d', run', ahead', alike'⟩ := ih ahead₁ second fewer
      exact ⟨d', (parser_bind run₁ _).trans run', ahead', alike.trans alike'⟩

theorem carries_repeatFrom {round round' : σ → Parser (σ × Bool)} {s : σ}
    (each : ∀ s, m.Carries (fun r => r.2 = true) n (round s) (round' s)) :
    m.Carries (fun _ => False) n (repeatFrom s round) (repeatFrom s round') where
  reads c s' c' run := ⟨rounds_reads (fun s => (each s).shrinks) run, False.elim⟩
  moves c d moved left s' c' ahead run ends more := by
    refine rounds_moves each ahead run ends more ?_
    obtain ⟨-, moved', target, like⟩ := ahead
    have same := congrArg List.length like
    rw [List.length_map, List.length_map] at same
    change moved.length < d.left.length + 1
    rw [target, List.length_append]
    omega

theorem carries_repeatWhile {round round' : Parser Bool} (each : m.Carries (fun more => more = true) n round round') :
    m.Carries (fun _ => False) n (repeatWhile round) (repeatWhile round') :=
  carries_repeatFrom fun _ => carries_bind (q := fun a (r : Unit × Bool) => r.2 = true ∧ a = false) each
    (fun _ => carries_pure fun here => Bool.false_ne_true (here.2.symm.trans here.1))
    (fun a _ here => by cases a <;> simp [here]) fun _ _ => .inl le_rfl

theorem carries_commaSeparated {item item' : Parser Unit} (each : m.Carries (fun _ => True) (n + 1) item item') :
    m.Carries (fun _ => False) (n + 1) (commaSeparated item) (commaSeparated item') :=
  carries_repeatWhile <| each.eaten fun _ => carries_accepts

end

end ScriptEngine.Grammar
