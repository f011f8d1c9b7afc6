import ScriptEngine.Proofs.Weaving

/-!
# Reading that depends on nothing before

`Covers` is like `Yields`, for parsers whose result and whose directives depend on more
than the tokens that they read, such as their lines. `Refuses` is its counterpart: the
parser stops with a fault at tokens of these shapes. Both follow the parts of a parser, and
a loop is read lap by lap, with an invariant on what it still has to read.
-/
namespace ScriptEngine.Grammar

/-- Where a token of a kind that `next` allows follows, the parser reads tokens of the shapes, and its result and
what it writes are as `Q` says. -/
def Covers {α : Type} (x : Parser α) (shapes : List Shape) (next : TokenKind → Prop) (Q : α → List Directive → Prop) :
    Prop :=
  ∀ c t rest, Spells shapes (t :: rest) c.left → next t.kind →
    ∃ a c' ds, x c = .ok a c' ∧ c'.left = t :: rest ∧ c.Writes c' ds ∧ Q a ds

/-- The parser stops with a fault. -/
def Refuses {α : Type} (x : Parser α) (shapes : List Shape) (next : TokenKind → Prop) : Prop :=
  ∀ c t rest, Spells shapes (t :: rest) c.left → next t.kind → ∃ e c', x c = .error e c'

/-- The shapes begin with a token of a kind that `p` allows. -/
def Leads (p : TokenKind → Prop) (shapes : List Shape) : Prop := ∃ s more, shapes = s :: more ∧ ∀ t, s.Of t → p t.kind

theorem Cursor.Writes.unique {c c' : Cursor} {ds ds' : List Directive} (h : c.Writes c' ds) (h' : c.Writes c' ds') :
    ds' = ds := by
  obtain ⟨steps, eq, rfl⟩ := h
  obtain ⟨steps', eq', rfl⟩ := h'
  rw [List.append_cancel_left (eq'.symm.trans eq)]

section Parts
variable {α β : Type} {x : Parser α} {f : α → Parser β} {a : α} {s : Shape} {shapes shapes' : List Shape}
variable {d : Directive} {ds : List Directive} {next next' p : TokenKind → Prop}
variable {P Q : α → List Directive → Prop} {R : β → List Directive → Prop}

theorem Leads.append (h : Leads p shapes) (more : List Shape) : Leads p (shapes ++ more) := by
  obtain ⟨s, rest, rfl, of⟩ := h
  exact ⟨s, rest ++ more, rfl, of⟩

theorem Leads.mono {q : TokenKind → Prop} (h : Leads p shapes) (imp : ∀ k, p k → q k) : Leads q shapes := by
  obtain ⟨s, rest, rfl, of⟩ := h
  exact ⟨s, rest, rfl, fun t shape => imp _ (of t shape)⟩

theorem leads_fixed {kind : TokenKind} (of : p kind) (more : List Shape) : Leads p (.fixed kind :: more) :=
  ⟨_, more, rfl, fun t h => by rw [show t.kind = kind from h]; exact of⟩

theorem leads_identifier {name : String} (of : p .identifier) (more : List Shape) :
    Leads p (.identifier name :: more) := ⟨_, more, rfl, fun t h => by rw [h.1]; exact of⟩

theorem Leads.joins (h : Leads next shapes) (next' : TokenKind → Prop) : Joins next next' shapes := by
  obtain ⟨s, rest, rfl, of⟩ := h
  exact of

theorem joins_fixed {kind : TokenKind} (of : next kind) (more : List Shape) (next' : TokenKind → Prop) :
    Joins next next' (.fixed kind :: more) := (leads_fixed of more).joins next'

theorem joins_any (shapes : List Shape) (next' : TokenKind → Prop) : Joins (fun _ => True) next' shapes := by
  cases shapes <;> exact fun _ _ => trivial

/-- The kind of the token behind the first part. -/
theorem Joins.behind {t : Token} {rest middle : List Token} (h : Joins next next' shapes)
    (spells : Spells shapes (t :: rest) middle) (here : next' t.kind) :
    ∃ t' rest', middle = t' :: rest' ∧ next t'.kind := by
  cases shapes with
  | nil => exact ⟨t, rest, spells_nil.mp spells, h _ here⟩
  | cons s shapes =>
    obtain ⟨t', rest', eq, of, -⟩ := spells_cons.mp spells
    exact ⟨t', rest', eq, h t' of⟩

theorem Yields.covers (h : Yields x a shapes ds next) (q : Q a ds) : Covers x shapes next Q :=
  fun c t rest spells here => (h c t rest spells here).elim fun c' h => ⟨a, c', ds, h.1, h.2.1, h.2.2, q⟩

theorem Covers.mono (h : Covers x shapes next P) (imp : ∀ a ds, P a ds → Q a ds) : Covers x shapes next Q :=
  fun c t rest spells here => (h c t rest spells here).imp fun _ ⟨c', ds, run, left, writes, p⟩ =>
    ⟨c', ds, run, left, writes, imp _ _ p⟩

theorem Covers.before (h : Covers x shapes next Q) (imp : ∀ k, next' k → next k) : Covers x shapes next' Q :=
  fun c t rest spells here => h c t rest spells (imp _ here)

/-- What is known of everything that the parser writes. -/
theorem Covers.and (h : Covers x shapes next Q) (writing : Writing x P) :
    Covers x shapes next fun a ds => Q a ds ∧ P a ds := by
  intro c t rest spells here
  obtain ⟨a, c', ds, run, left, writes, q⟩ := h c t rest spells here
  obtain ⟨ds', writes', p⟩ := writing c a c' run
  rw [writes.unique writes'] at p
  exact ⟨a, c', ds, run, left, writes, q, p⟩

theorem Covers.bind (h : Covers x shapes next P)
    (h' : ∀ a ds, P a ds → Covers (f a) shapes' next' fun b es => R b (ds ++ es)) (middle : Joins next next' shapes') :
    Covers (x >>= f) (shapes ++ shapes') next' R := by
  intro c t rest spells here
  obtain ⟨mid, first, second⟩ := spells_append.mp spells
  obtain ⟨t', rest', rfl, here'⟩ := middle.behind second here
  obtain ⟨a, c₁, ds, run, left, writes, p⟩ := h c t' rest' first here'
  obtain ⟨b, c₂, es, run', left', writes', r⟩ := h' a ds p c₁ t rest (left ▸ second) here
  exact ⟨b, c₂, ds ++ es, (parser_bind run f).trans run', left', writes.trans writes', r⟩

/-- The second part reads nothing. -/
theorem Covers.last (h : Covers x shapes next P)
    (h' : ∀ a ds, P a ds → Covers (f a) [] next fun b es => R b (ds ++ es)) : Covers (x >>= f) shapes next R := by
  have := h.bind h' fun _ here => here
  rwa [List.append_nil] at this

theorem covers_pure (q : Q a []) : Covers (pure a) [] next Q := yields_pure.covers q

theorem covers_write {Q : Unit → List Directive → Prop} (q : Q () [d]) : Covers (write d) [] next Q :=
  (yields_write d).covers q

theorem covers_written {f : Unit → Parser β} (h : Covers (f ()) shapes next fun b es => R b (d :: es)) :
    Covers (write d >>= f) shapes next R := by
  have first : Yields (write d) () [] [d] fun _ => True := yields_write d
  exact (first.covers (Q := fun _ ds => ds = [d]) rfl).bind (fun _ _ eq => eq ▸ h) (joins_any shapes next)

/-- The first part writes nothing. -/
theorem Yields.then (h : Yields x a shapes [] next) (h' : Covers (f a) shapes' next' R)
    (middle : Joins next next' shapes') : Covers (x >>= f) (shapes ++ shapes') next' R :=
  (h.covers (Q := fun r ds => r = a ∧ ds = []) ⟨rfl, rfl⟩).bind (fun _ _ eq => by rw [eq.1, eq.2]; exact h') middle

/-- The first part is one token. -/
theorem Yields.read (h : Yields x a [s] [] fun _ => True) (h' : Covers (f a) shapes next R) :
    Covers (x >>= f) (s :: shapes) next R := h.then h' (joins_any shapes next)

/-- The first part reads nothing. -/
theorem Yields.look (h : Yields x a [] [] next) (h' : Covers (f a) shapes next' R)
    (middle : Joins next next' shapes) : Covers (x >>= f) shapes next' R := h.then h' middle

theorem yields_skip : Yields advance () [s] [] next := by
  intro c t rest spells _
  obtain ⟨t₀, ts, left, -, more⟩ := spells_cons.mp spells
  obtain rfl := spells_nil.mp more
  obtain ⟨-, left', steps⟩ := Cursor.advance_left left
  exact ⟨c.advance, rfl, left', .refl steps⟩

theorem yields_expectName (name what : String) : Yields (expectName what) name [.identifier name] [] next := by
  intro c t rest spells _
  obtain ⟨t₀, ts, left, ⟨kind, rfl⟩, more⟩ := spells_cons.mp spells
  obtain rfl := spells_nil.mp more
  obtain ⟨previous, left', steps⟩ := Cursor.advance_left left
  refine ⟨c.advance, ?_, left', .refl steps⟩
  have expected : expect .identifier what c = .ok () c.advance := parser_bind (accept_hit left kind) _
  refine (parser_bind expected _).trans ?_
  rw [← previous]
  rfl

/-- The parser looks at tokens of the shapes and reads none. -/
def Peeks {α : Type} (x : Parser α) (a : α) (shapes : List Shape) (next : TokenKind → Prop) : Prop :=
  ∀ c t rest, Spells shapes (t :: rest) c.left → next t.kind → x c = .ok a c

theorem Peeks.covers (h : Peeks x a shapes next) (h' : Covers (f a) shapes next R) : Covers (x >>= f) shapes next R :=
  fun c t rest spells here => (h' c t rest spells here).imp fun _ ⟨c', ds, run, result⟩ =>
    ⟨c', ds, (parser_bind (h c t rest spells here) f).trans run, result⟩

theorem Peeks.bind {b : β} (h : Peeks x a shapes next) (h' : Peeks (f a) b shapes next) :
    Peeks (x >>= f) b shapes next :=
  fun c t rest spells here => (parser_bind (h c t rest spells here) f).trans (h' c t rest spells here)

theorem Peeks.ahead (h : Peeks x a shapes next) (middle : Joins next next' shapes') :
    Peeks x a (shapes ++ shapes') next' := by
  intro c t rest spells here
  obtain ⟨mid, first, second⟩ := spells_append.mp spells
  obtain ⟨t', rest', rfl, here'⟩ := middle.behind second here
  exact h c t' rest' first here'

theorem peeks_pure (a : α) : Peeks (pure a) a shapes next := fun _ _ _ _ _ => rfl

theorem peeks_currentKind {kind : TokenKind} (only : Joins (· = kind) next shapes) :
    Peeks currentKind kind shapes next := by
  intro c t rest spells here
  obtain ⟨t', rest', left, kind⟩ := only.behind spells here
  rw [currentKind_eq, (List.cons.inj left).1, kind]

/-- Whatever the next token is. -/
theorem covers_currentKind {f : TokenKind → Parser β} (only : Joins p next shapes)
    (h : ∀ k, p k → Covers (f k) shapes next R) : Covers (currentKind >>= f) shapes next R := by
  intro c t rest spells here
  obtain ⟨t', rest', left, kind⟩ := only.behind spells here
  obtain ⟨b, c', ds, run, result⟩ := h _ kind c t rest spells here
  refine ⟨b, c', ds, (parser_bind (currentKind_eq c) f).trans ?_, result⟩
  rw [(List.cons.inj left).1]
  exact run

/-! ### Faults -/

theorem Refuses.bind (h : Refuses x shapes next) (f : α → Parser β) : Refuses (x >>= f) shapes next := by
  intro c t rest spells here
  obtain ⟨e, c', run⟩ := h c t rest spells here
  refine ⟨e, c', ?_⟩
  change EStateM.bind x f c = _
  unfold EStateM.bind
  rw [run]

theorem Covers.refuses (h : Covers x shapes next P) (h' : ∀ a ds, P a ds → Refuses (f a) shapes' next')
    (middle : Joins next next' shapes') : Refuses (x >>= f) (shapes ++ shapes') next' := by
  intro c t rest spells here
  obtain ⟨mid, first, second⟩ := spells_append.mp spells
  obtain ⟨t', rest', rfl, here'⟩ := middle.behind second here
  obtain ⟨a, c₁, ds, run, left, -, p⟩ := h c t' rest' first here'
  obtain ⟨e, c₂, run'⟩ := h' a ds p c₁ t rest (left ▸ second) here
  exact ⟨e, c₂, (parser_bind run f).trans run'⟩

theorem Yields.refuses (h : Yields x a shapes ds next) (h' : Refuses (f a) shapes' next')
    (middle : Joins next next' shapes') : Refuses (x >>= f) (shapes ++ shapes') next' :=
  (h.covers (Q := fun r _ => r = a) rfl).refuses (fun _ _ eq => eq ▸ h') middle

theorem Peeks.refuses (h : Peeks x a shapes next) (h' : Refuses (f a) shapes next) : Refuses (x >>= f) shapes next :=
  fun c t rest spells here => (h' c t rest spells here).imp fun _ ⟨c', run⟩ =>
    ⟨c', (parser_bind (h c t rest spells here) f).trans run⟩

theorem Refuses.written {f : Unit → Parser β} (h : Refuses (f ()) shapes next) : Refuses (write d >>= f) shapes next :=
  Yields.refuses (yields_write d) h (joins_any shapes next)

/-- Whatever follows. -/
theorem Refuses.ahead (h : Refuses x shapes next) (middle : Joins next next' shapes') :
    Refuses x (shapes ++ shapes') next' := by
  intro c t rest spells here
  obtain ⟨mid, first, second⟩ := spells_append.mp spells
  obtain ⟨t', rest', rfl, here'⟩ := middle.behind second here
  exact h c t' rest' first here'

theorem refuses_currentKind {f : TokenKind → Parser β} (only : Joins p next shapes)
    (h : ∀ k, p k → Refuses (f k) shapes next) : Refuses (currentKind >>= f) shapes next := by
  intro c t rest spells here
  obtain ⟨t', rest', left, kind⟩ := only.behind spells here
  obtain ⟨e, c', run⟩ := h _ kind c t rest spells here
  refine ⟨e, c', (parser_bind (currentKind_eq c) f).trans ?_⟩
  rw [(List.cons.inj left).1]
  exact run

theorem refuses_failHere (fault : CompileFault) : Refuses (failHere fault : Parser α) shapes next :=
  fun c _ _ _ _ => ⟨_, c, rfl⟩

theorem refuses_failBefore (fault : CompileFault) : Refuses (failBefore fault : Parser α) shapes next :=
  fun c _ _ _ _ => ⟨_, c, rfl⟩

end Parts

/-! ## Loops -/

section Loops
variable {σ ι : Type} {round : σ → Parser (σ × Bool)} {w : ι → List Shape} {p next : TokenKind → Prop}
variable {s s' : σ} {c c' c'' : Cursor} {e : SyntaxError}

theorem Rounds.rounds_error (h : Rounds round s c s' c') (last : round s' c' = .error e c'') {bound : List Token}
    (enough : c.left.length < bound.length) : Grammar.rounds round bound s c = .error e c'' := by
  induction h generalizing bound with
  | none =>
    cases bound with
    | nil => cases enough
    | cons _ bound =>
      change EStateM.bind (round _) _ _ = _
      unfold EStateM.bind
      rw [last]
  | more step less _ ih =>
    cases bound with
    | nil => cases enough
    | cons _ bound =>
      exact (parser_bind step _).trans (ih last (Nat.lt_of_lt_of_le less (Nat.le_of_lt_succ enough)))

theorem Rounds.repeatFrom_error (h : Rounds round s c s' c') (last : round s' c' = .error e c'') :
    Grammar.repeatFrom s round c = .error e c'' := h.rounds_error last (Nat.lt_succ_self c.left.length)

/-- The rounds of a loop that read one item each, as far as an invariant on the items to come leads. -/
theorem rounds_covered (I : List ι → σ → List Directive → Prop)
    (lap : ∀ i is s ds, I (i :: is) s ds → Covers (round s) (w i) p fun r es => r.2 = true ∧ I is r.1 (ds ++ es))
    (leads : ∀ i, Leads p (w i)) {final : List Shape} (ends : Joins p next final) {is : List ι}
    {ds : List Directive} (h : I is s ds) {t : Token} {rest : List Token}
    (spells : Spells (is.flatMap w ++ final) (t :: rest) c.left) (here : next t.kind) :
    ∃ s' c' es, Rounds round s c s' c' ∧ Spells final (t :: rest) c'.left ∧ c.Writes c' es ∧ I [] s' (ds ++ es) := by
  induction is generalizing s ds c with
  | nil => exact ⟨s, c, [], .none, spells, .refl rfl, by rwa [List.append_nil]⟩
  | cons i is ih =>
    rw [List.flatMap_cons, List.append_assoc] at spells
    obtain ⟨middle, first, second⟩ := spells_append.mp spells
    have joins : Joins p next (is.flatMap w ++ final) := by
      cases is with
      | nil => exact ends
      | cons j is =>
        rw [List.flatMap_cons, List.append_assoc]
        exact ((leads j).append _).joins _
    obtain ⟨t', rest', rfl, here'⟩ := joins.behind second here
    obtain ⟨⟨s', more⟩, c', es, run, left, writes, rfl, h'⟩ := lap i is s ds h c t' rest' first here'
    obtain ⟨s'', c'', fs, rounds, final, writes', h''⟩ := ih h' (left ▸ second)
    refine ⟨s'', c'', es ++ fs, .more run ?_ rounds, final, writes.trans writes', by rwa [← List.append_assoc]⟩
    obtain ⟨_, ws, eq, -⟩ := leads i
    rw [left, first.length, eq]
    simp only [List.length_cons]
    omega

variable (I : List ι → σ → List Directive → Prop)
  (lap : ∀ i is s ds, I (i :: is) s ds → Covers (round s) (w i) p fun r es => r.2 = true ∧ I is r.1 (ds ++ es))
  (leads : ∀ i, Leads p (w i)) {final : List Shape} (ends : Joins p next final)
include lap leads ends

/-- A loop whose last round reads what is left. -/
theorem covers_repeatFrom {Q : σ → List Directive → Prop}
    (stop : ∀ s ds, I [] s ds → Covers (round s) final next fun r es => r.2 = false ∧ Q r.1 (ds ++ es))
    {is : List ι} (h : I is s []) : Covers (repeatFrom s round) (is.flatMap w ++ final) next Q := by
  intro c t rest spells here
  obtain ⟨s', c', ds, rounds, spells', writes, h'⟩ := rounds_covered I lap leads ends h spells here
  obtain ⟨⟨s'', more⟩, c'', es, run, left, writes', rfl, q⟩ := stop s' _ h' c' t rest spells' here
  exact ⟨s'', c'', ds ++ es, rounds.repeatFrom run, left, writes.trans writes', q⟩

theorem refuses_repeatFrom (stop : ∀ s ds, I [] s ds → Refuses (round s) final next) {is : List ι} (h : I is s []) :
    Refuses (repeatFrom s round) (is.flatMap w ++ final) next := by
  intro c t rest spells here
  obtain ⟨s', c', ds, rounds, spells', -, h'⟩ := rounds_covered I lap leads ends h spells here
  obtain ⟨e, c'', run⟩ := stop s' _ h' c' t rest spells' here
  exact ⟨e, c'', rounds.repeatFrom_error run⟩

end Loops

end ScriptEngine.Grammar
