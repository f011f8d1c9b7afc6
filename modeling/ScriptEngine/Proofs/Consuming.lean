import ScriptEngine.Proofs.Climbing
import ScriptEngine.Proofs.Piling

/-!
# Reading comes to an end

Every round of a loop and every cycle of the recursion through the grammar reads a token.
So the bounds of both, which are counted in tokens, are never used up, and no more
directives are written than there are tokens, times a constant.

`Proceeds` says of a parser where it goes from a cursor with so many tokens ahead, both
when it succeeds and when it fails: the cursor stays in the stream, what is written fits
on the piles, and it is paid for. Every token that is read grants a number of directives
that may be written.
-/
namespace ScriptEngine

open Grammar Piece

/-! ## Cursors in a stream -/

/-- So many tokens of the stream have been read. At the end the last token stays in place. -/
structure Grammar.Cursor.Indexed (stream : List Token) (c : Cursor) (i : Nat) : Prop where
  bound : i ≤ stream.length
  previous : stream[i - 1]? = some c.previous
  current : stream[min i (stream.length - 1)]? = some c.current
  ahead : c.ahead = stream.drop (i + 1)

/-- The last token of the stream is the end of input. -/
structure Grammar.Cursor.On (stream : List Token) (c : Cursor) : Prop where
  ends : ∃ t, stream.getLast? = some t ∧ t.kind = .eof
  index : ∃ i, c.Indexed stream i

section Cursors
variable {stream : List Token} {c : Cursor} {i : Nat}

/-- The index is the next one, or the number of tokens. -/
theorem Grammar.Cursor.Indexed.advance (h : c.Indexed stream i) :
    c.advance.Indexed stream (if i < stream.length - 1 then i + 1 else stream.length) := by
  have some : 0 < stream.length := by
    have := (List.getElem?_eq_some_iff.mp h.previous).1
    omega
  unfold Cursor.advance
  cases ahead : c.ahead with
  | nil =>
    have behind : stream.length ≤ i + 1 := List.drop_eq_nil_iff.mp (h.ahead ▸ ahead)
    have last := h.current
    rw [Nat.min_eq_right (by omega)] at last
    rw [if_neg (by omega)]
    exact ⟨le_rfl, last, by rw [Nat.min_eq_right (by omega)]; exact last, by simp⟩
  | cons t ts =>
    have rest : stream.drop (i + 1) = t :: ts := h.ahead ▸ ahead
    have bound : i + 1 < stream.length := by
      have := congrArg List.length rest
      rw [List.length_drop, List.length_cons] at this
      omega
    have current := h.current
    rw [Nat.min_eq_left (by omega)] at current
    rw [if_pos (by omega)]
    refine ⟨by omega, current, ?_, ?_⟩
    · rw [Nat.min_eq_left (by omega), ← List.head?_drop, rest]
      rfl
    · rw [← List.drop_drop, rest]
      rfl

theorem Grammar.Cursor.On.advance (h : c.On stream) : c.advance.On stream :=
  ⟨h.ends, h.index.elim fun _ h => ⟨_, h.advance⟩⟩

/-- Behind any other token there is one more. -/
theorem Grammar.Cursor.On.ahead (h : c.On stream) (other : c.current.kind ≠ .eof) :
    ∃ t ts, c.ahead = t :: ts := by
  obtain ⟨⟨last, found, eof⟩, i, h⟩ := h
  cases ahead : c.ahead with
  | cons t ts => exact ⟨t, ts, rfl⟩
  | nil =>
    have behind : stream.length ≤ i + 1 := List.drop_eq_nil_iff.mp (h.ahead ▸ ahead)
    have current := h.current
    rw [Nat.min_eq_right (by omega), ← List.getLast?_eq_getElem?, found] at current
    cases current
    exact absurd eof other

theorem length_advance (c : Cursor) : c.advance.ahead.length = c.ahead.length - 1 := by
  unfold Cursor.advance
  cases ahead : c.ahead with
  | nil => rfl
  | cons t ts => simp

theorem previous_advance (c : Cursor) : c.advance.previous = c.current := by
  unfold Cursor.advance
  split <;> rfl

theorem steps_advance (c : Cursor) : c.advance.steps = c.steps := by
  unfold Cursor.advance
  split <;> rfl

end Cursors

/-! ## Where a parser goes -/

/-- The way from a cursor with `L` tokens ahead and `k` directives granted to another one. -/
structure Progress (stream : List Token) (c : Cursor) (L k : Nat) (P : Piles) (c' : Cursor) (L' k' : Nat)
    (P' : Piles) : Prop where
  on : c'.On stream
  left : c'.ahead.length = L'
  wrote : ∃ ds, c.Writes c' ds ∧ P.Become ds P' ∧ ds.length + 16 * L' + k' ≤ 16 * L + k

/-- From the cursor the parser goes on as `Q` says or stops for a reason that lies in the tokens. -/
def ProceedsAt (stream : List Token) (c : Cursor) {α : Type} (x : Parser α) (L k : Nat) (P : Piles)
    (Q : α → Nat → Nat → Piles → Prop) : Prop :=
  match x c with
  | .ok a c' => ∃ L' k' P', Q a L' k' P' ∧ Progress stream c L k P c' L' k' P'
  | .error e c' => e.fault.isInternal = false ∧ ∃ L' k' P', Progress stream c L k P c' L' k' P'

/-- It does so from every cursor with so many tokens ahead. -/
def Proceeds (stream : List Token) {α : Type} (x : Parser α) (L k : Nat) (P : Piles)
    (Q : α → Nat → Nat → Piles → Prop) : Prop :=
  ∀ c, c.On stream → c.ahead.length = L → ProceedsAt stream c x L k P Q

theorem parser_bind_error {α β : Type} {x : Parser α} {e : SyntaxError} {c c' : Cursor} (h : x c = .error e c')
    (f : α → Parser β) : (x >>= f) c = .error e c' := by
  change EStateM.bind x f c = _
  unfold EStateM.bind
  rw [h]

section Rules
variable {α β σ : Type} {stream : List Token} {c c' c'' : Cursor} {L k L' k' L'' k'' : Nat} {P P' P'' : Piles}

theorem Progress.refl (on : c.On stream) (left : c.ahead.length = L) : Progress stream c L k P c L k P :=
  ⟨on, left, [], .refl rfl, .nil P, by simp⟩

theorem Progress.trans (h : Progress stream c L k P c' L' k' P') (h' : Progress stream c' L' k' P' c'' L'' k'' P'') :
    Progress stream c L k P c'' L'' k'' P'' := by
  obtain ⟨ds, writes, become, paid⟩ := h.wrote
  obtain ⟨es, writes', become', paid'⟩ := h'.wrote
  refine ⟨h'.on, h'.left, ds ++ es, writes.trans writes', become.trans become', ?_⟩
  rw [List.length_append]
  omega

theorem Progress.advance (on : c.On stream) (left : c.ahead.length = L + 1) :
    Progress stream c (L + 1) k P c.advance L (k + 16) P :=
  ⟨on.advance, by rw [length_advance, left]; rfl, [], .refl (steps_advance c), .nil P, by simp; omega⟩

theorem proceeds_pure {a : α} {Q : α → Nat → Nat → Piles → Prop} (h : Q a L k P) : Proceeds stream (pure a) L k P Q :=
  fun _ on left => ⟨L, k, P, h, .refl on left⟩

theorem proceeds_mono {x : Parser α} {Q R : α → Nat → Nat → Piles → Prop} (h : Proceeds stream x L k P Q)
    (imp : ∀ a L' k' P', Q a L' k' P' → R a L' k' P') : Proceeds stream x L k P R := by
  intro c on left
  have h := h c on left
  unfold ProceedsAt at h ⊢
  cases run : x c with
  | ok a c' =>
    rw [run] at h
    obtain ⟨L', k', P', q, way⟩ := h
    exact ⟨L', k', P', imp _ _ _ _ q, way⟩
  | error e c' =>
    rw [run] at h
    exact h

theorem proceedsAt_bind {x : Parser α} {f : α → Parser β} {R : α → Nat → Nat → Piles → Prop}
    {Q : β → Nat → Nat → Piles → Prop} (first : ProceedsAt stream c x L k P R)
    (then_ : ∀ a c' L' k' P', x c = .ok a c' → c'.On stream → c'.ahead.length = L' → R a L' k' P' →
      ProceedsAt stream c' (f a) L' k' P' Q) : ProceedsAt stream c (x >>= f) L k P Q := by
  unfold ProceedsAt at first ⊢
  cases run : x c with
  | error e c' =>
    rw [run] at first
    rw [parser_bind_error run f]
    exact first
  | ok a c' =>
    rw [run] at first
    rw [parser_bind run f]
    obtain ⟨L', k', P', r, way⟩ := first
    have h := then_ a c' L' k' P' run way.on way.left r
    unfold ProceedsAt at h
    revert h
    cases f a c' with
    | ok b c'' => exact fun ⟨L'', k'', P'', q, way'⟩ => ⟨L'', k'', P'', q, way.trans way'⟩
    | error e c'' => exact fun ⟨real, L'', k'', P'', way'⟩ => ⟨real, L'', k'', P'', way.trans way'⟩

theorem proceeds_bind {x : Parser α} {f : α → Parser β} {R : α → Nat → Nat → Piles → Prop}
    {Q : β → Nat → Nat → Piles → Prop} (first : Proceeds stream x L k P R)
    (then_ : ∀ a L' k' P', R a L' k' P' → Proceeds stream (f a) L' k' P' Q) : Proceeds stream (x >>= f) L k P Q :=
  fun c on left => proceedsAt_bind (first c on left) fun a c' L' k' P' _ on' left' r => then_ a L' k' P' r c' on' left'

theorem proceeds_failHere {fault : CompileFault} {Q : α → Nat → Nat → Piles → Prop} (real : fault.isInternal = false) :
    Proceeds stream (failHere fault) L k P Q := fun _ on left => ⟨real, L, k, P, .refl on left⟩

theorem proceeds_failBefore {fault : CompileFault} {Q : α → Nat → Nat → Piles → Prop} (real : fault.isInternal = false) :
    Proceeds stream (failBefore fault) L k P Q := fun _ on left => ⟨real, L, k, P, .refl on left⟩

/-- A directive that has been paid for. -/
theorem proceeds_write {d : Directive} {Q : Unit → Nat → Nat → Piles → Prop} (piled : Piled d P P') (paid : 0 < k)
    (h : Q () L (k - 1) P') : Proceeds stream (write d) L k P Q := by
  intro c on left
  refine ⟨L, k - 1, P', h, ⟨on.ends, on.index.imp fun _ h => ⟨h.bound, h.previous, h.current, h.ahead⟩⟩, left, [d], ⟨[_], Array.toList_push .., rfl⟩, .single piled, ?_⟩
  rw [List.length_singleton]
  omega

theorem proceeds_written {d : Directive} {f : Unit → Parser β} {Q : β → Nat → Nat → Piles → Prop}
    (piled : Piled d P P') (paid : 0 < k) (rest : Proceeds stream (f ()) L (k - 1) P' Q) :
    Proceeds stream (write d >>= f) L k P Q :=
  proceeds_bind (R := fun _ L' k' P'' => L' = L ∧ k' = k - 1 ∧ P'' = P') (proceeds_write piled paid ⟨rfl, rfl, rfl⟩) <| by
    rintro _ _ _ _ ⟨rfl, rfl, rfl⟩
    exact rest

theorem proceeds_writes {ds : List Directive} {Q : Unit → Nat → Nat → Piles → Prop} (become : P.Become ds P')
    (paid : ds.length ≤ k) (h : Q () L (k - ds.length) P') : Proceeds stream (ds.forM write) L k P Q := by
  induction become generalizing k with
  | nil => exact proceeds_pure h
  | cons first _ ih =>
    rw [List.length_cons] at paid h
    exact proceeds_written first (by omega) (ih (by omega) (by rwa [Nat.sub_sub, Nat.add_comm]))

/-- Parsers that only look. -/
theorem proceeds_look {x : Parser α} {f : α → Parser β} {Q : β → Nat → Nat → Piles → Prop}
    (looks : ∀ c, ∃ a, x c = .ok a c) (rest : ∀ a, Proceeds stream (f a) L k P Q) :
    Proceeds stream (x >>= f) L k P Q := by
  refine proceeds_bind (R := fun _ L' k' P' => L' = L ∧ k' = k ∧ P' = P) (fun c on left => ?_) ?_
  · obtain ⟨a, run⟩ := looks c
    unfold ProceedsAt
    rw [run]
    exact ⟨L, k, P, ⟨rfl, rfl, rfl⟩, .refl on left⟩
  · rintro a _ _ _ ⟨rfl, rfl, rfl⟩
    exact rest a

theorem proceeds_previousToken {f : Token → Parser β} {Q : β → Nat → Nat → Piles → Prop}
    (rest : ∀ t, Proceeds stream (f t) L k P Q) : Proceeds stream (previousToken >>= f) L k P Q :=
  proceeds_look (fun c => ⟨c.previous, rfl⟩) rest

theorem proceedsAt_previousToken {f : Token → Parser β} {Q : β → Nat → Nat → Piles → Prop}
    (rest : ProceedsAt stream c (f c.previous) L k P Q) : ProceedsAt stream c (previousToken >>= f) L k P Q := rest

theorem proceeds_secondKind {f : TokenKind → Parser β} {Q : β → Nat → Nat → Piles → Prop}
    (rest : ∀ t, Proceeds stream (f t) L k P Q) : Proceeds stream (secondKind >>= f) L k P Q :=
  proceeds_look (fun _ => ⟨_, rfl⟩) rest

theorem proceeds_get {f : Cursor → Parser β} {Q : β → Nat → Nat → Piles → Prop}
    (rest : ∀ t, Proceeds stream (f t) L k P Q) : Proceeds stream (get >>= f) L k P Q :=
  proceeds_look (fun c => ⟨c, rfl⟩) rest

theorem proceedsAt_get {f : Cursor → Parser β} {Q : β → Nat → Nat → Piles → Prop}
    (rest : ProceedsAt stream c (f c) L k P Q) : ProceedsAt stream c (get >>= f) L k P Q := rest

theorem proceeds_check {kind : TokenKind} {f : Bool → Parser β} {Q : β → Nat → Nat → Piles → Prop}
    (rest : ∀ b, Proceeds stream (f b) L k P Q) : Proceeds stream (check kind >>= f) L k P Q :=
  proceeds_look (fun _ => ⟨_, rfl⟩) rest

/-- There is one more token behind any but the last. -/
theorem proceedsAt_currentKind (on : c.On stream) (left : c.ahead.length = L) {f : TokenKind → Parser β}
    {Q : β → Nat → Nat → Piles → Prop}
    (rest : (c.current.kind ≠ .eof → 0 < L) → ProceedsAt stream c (f c.current.kind) L k P Q) :
    ProceedsAt stream c (currentKind >>= f) L k P Q := by
  refine rest fun other => ?_
  obtain ⟨t, ts, ahead⟩ := on.ahead other
  rw [← left, ahead]
  exact Nat.succ_pos _

theorem proceeds_currentKind {f : TokenKind → Parser β} {Q : β → Nat → Nat → Piles → Prop}
    (rest : ∀ kind, (kind ≠ .eof → 0 < L) → Proceeds stream (f kind) L k P Q) :
    Proceeds stream (currentKind >>= f) L k P Q :=
  fun c on left => proceedsAt_currentKind on left fun more => rest _ more c on left

theorem proceedsAt_advance (on : c.On stream) (left : c.ahead.length = L) {f : Unit → Parser β}
    {Q : β → Nat → Nat → Piles → Prop} (more : 0 < L)
    (rest : ∀ L', L = L' + 1 → c.advance.On stream → c.advance.ahead.length = L' → c.advance.previous = c.current →
      ProceedsAt stream c.advance (f ()) L' (k + 16) P Q) :
    ProceedsAt stream c (advance >>= f) L k P Q := by
  obtain ⟨L, rfl⟩ := Nat.exists_eq_succ_of_ne_zero more.ne'
  refine proceedsAt_bind (R := fun _ L' k' P' => L' = L ∧ k' = k + 16 ∧ P' = P)
    ⟨L, k + 16, P, ⟨rfl, rfl, rfl⟩, .advance on left⟩ ?_
  rintro _ _ _ _ _ ⟨⟩ on' left' ⟨rfl, rfl, rfl⟩
  exact rest _ rfl on' left' (previous_advance c)

theorem proceeds_advance {f : Unit → Parser β} {Q : β → Nat → Nat → Piles → Prop} (more : 0 < L)
    (rest : ∀ L', L = L' + 1 → Proceeds stream (f ()) L' (k + 16) P Q) :
    Proceeds stream (advance >>= f) L k P Q :=
  fun _ on left => proceedsAt_advance on left more fun L' eq on' left' _ => rest L' eq _ on' left'

variable {kind : TokenKind}

theorem proceeds_accept {f : Bool → Parser β} {Q : β → Nat → Nat → Piles → Prop}
    (other : (kind == .eof) = false) (read : ∀ L', L = L' + 1 → Proceeds stream (f true) L' (k + 16) P Q)
    (missed : Proceeds stream (f false) L k P Q) :
    Proceeds stream (accept kind >>= f) L k P Q := by
  refine proceeds_bind (R := fun b L' k' P' => P' = P ∧
    if b then L = L' + 1 ∧ k' = k + 16 else L' = L ∧ k' = k) (fun c on left => ?_) ?_
  · unfold ProceedsAt
    rw [accept_eq]
    split_ifs with hit
    · obtain ⟨t, ts, ahead⟩ := on.ahead (by simpa [hit] using other)
      obtain ⟨L, rfl⟩ : ∃ L₀, L = L₀ + 1 := ⟨ts.length, by rw [← left, ahead]; rfl⟩
      exact ⟨L, k + 16, P, ⟨rfl, rfl, rfl⟩, .advance on left⟩
    · exact ⟨L, k, P, ⟨rfl, rfl, rfl⟩, .refl on left⟩
  · rintro (_ | _) L' k' _ ⟨rfl, h⟩
    · obtain ⟨rfl, rfl⟩ := h
      exact missed
    · obtain ⟨rfl, rfl⟩ := h
      exact read _ rfl

/-- A token that must be there. -/
theorem proceeds_expect {what : String} {f : Unit → Parser β} {Q : β → Nat → Nat → Piles → Prop}
    (other : (kind == .eof) = false) (read : ∀ L', L = L' + 1 → Proceeds stream (f ()) L' (k + 16) P Q) :
    Proceeds stream (expect kind what >>= f) L k P Q := by
  refine proceeds_bind (R := fun _ L' k' P' => L = L' + 1 ∧ k' = k + 16 ∧ P' = P) ?_ ?_
  · exact proceeds_accept other (fun L' eq => proceeds_pure ⟨eq, rfl, rfl⟩) (proceeds_failHere rfl)
  · rintro _ L' _ _ ⟨rfl, rfl, rfl⟩
    exact read L' rfl

/-- A token that must be there, and nothing else. -/
theorem proceeds_last {what : String} {Q : Unit → Nat → Nat → Piles → Prop}
    (other : (kind == .eof) = false) (read : ∀ L', L = L' + 1 → Q () L' (k + 16) P) :
    Proceeds stream (expect kind what) L k P Q :=
  proceeds_accept other (fun L' eq => proceeds_pure (read L' eq)) (proceeds_failHere rfl)

theorem proceeds_expectName {what : String} {f : String → Parser β} {Q : β → Nat → Nat → Piles → Prop}
    (read : ∀ name L', L = L' + 1 → Proceeds stream (f name) L' (k + 16) P Q) :
    Proceeds stream (expectName what >>= f) L k P Q := by
  refine proceeds_bind (R := fun _ L' k' P' => L = L' + 1 ∧ k' = k + 16 ∧ P' = P) ?_ ?_
  · unfold expectName
    exact proceeds_expect rfl fun L' eq => proceeds_previousToken fun t => proceeds_pure ⟨eq, rfl, rfl⟩
  · rintro name L' _ _ ⟨rfl, rfl, rfl⟩
    exact read name L' rfl

theorem proceeds_expectMember {what : String} {f : String → Parser β} {Q : β → Nat → Nat → Piles → Prop}
    (read : ∀ name L', L = L' + 1 → Proceeds stream (f name) L' (k + 16) P Q) :
    Proceeds stream (expectMember what >>= f) L k P Q := by
  refine proceeds_bind (R := fun _ L' k' P' => L = L' + 1 ∧ k' = k + 16 ∧ P' = P) ?_ ?_
  · unfold expectMember
    refine proceeds_accept rfl (fun L' eq => ?_) ?_
    · exact proceeds_previousToken fun t => proceeds_pure ⟨eq, rfl, rfl⟩
    · unfold expectName
      exact proceeds_expect rfl fun L' eq => proceeds_previousToken fun t => proceeds_pure ⟨eq, rfl, rfl⟩
  · rintro name L' _ _ ⟨rfl, rfl, rfl⟩
    exact read name L' rfl

/-- A round asks for another one only if it has read a token, and it uses up no more than that pays for. -/
def Turn (L k : Nat) (J : σ → Piles → Prop) (r : σ × Bool) (L' k' : Nat) (P' : Piles) : Prop :=
  (r.2 → L' < L) ∧ L' ≤ L ∧ k ≤ k' ∧ J r.1 P'

/-- There are never more rounds than tokens. -/
theorem proceeds_repeatFrom {round : σ → Parser (σ × Bool)} {s : σ} (J : σ → Piles → Prop) (start : J s P)
    (each : ∀ s L' k' P', L' ≤ L → k ≤ k' → J s P' → Proceeds stream (round s) L' k' P' (Turn L' k' J)) :
    Proceeds stream (repeatFrom s round) L k P fun s' L' k' P' => L' ≤ L ∧ k ≤ k' ∧ J s' P' := by
  have loop (left : List Token) (s : σ) (L' k' : Nat) (P' : Piles) (enough : L' < left.length) (few : L' ≤ L)
      (paid : k ≤ k') (h : J s P') :
      Proceeds stream (rounds round left s) L' k' P' fun s' L' k' P' => L' ≤ L ∧ k ≤ k' ∧ J s' P' := by
    induction left generalizing s L' k' P' with
    | nil => exact absurd enough (Nat.not_lt_zero L')
    | cons t left ih =>
      refine proceeds_bind (each s L' k' P' few paid h) fun r L'' k'' P'' h' => ?_
      obtain ⟨s', more⟩ := r
      obtain ⟨reads, few', paid', h'⟩ := h'
      cases more with
      | true =>
        have fewer : L'' < left.length := by
          have := reads rfl
          rw [List.length_cons] at enough
          omega
        exact ih s' L'' k'' P'' fewer (few'.trans few) (paid.trans paid') h'
      | false => exact proceeds_pure ⟨few'.trans few, paid.trans paid', h'⟩
  intro c on left
  refine loop (c.previous :: c.current :: c.ahead) s L k P ?_ le_rfl le_rfl start c on left
  rw [List.length_cons, List.length_cons]
  omega

theorem proceeds_repeatWhile {round : Parser Bool} (J : Piles → Prop) (start : J P)
    (each : ∀ L' k' P', L' ≤ L → k ≤ k' → J P' →
      Proceeds stream round L' k' P' fun more => Turn L' k' (fun _ => J) ((), more)) :
    Proceeds stream (repeatWhile round) L k P fun _ L' k' P' => L' ≤ L ∧ k ≤ k' ∧ J P' :=
  proceeds_repeatFrom (fun _ => J) start fun _ L' k' P' few paid h =>
    proceeds_bind (each L' k' P' few paid h) fun _ _ _ _ h' => proceeds_pure h'

/-- A round that goes on behind a comma. -/
theorem proceeds_comma {s : σ} {J : σ → Piles → Prop} {L₀ k₀ : Nat} (few : L ≤ L₀) (paid : k₀ ≤ k) (h : J s P) :
    Proceeds stream (do return (s, ← accept .comma)) L k P (Turn L₀ k₀ J) :=
  proceeds_accept rfl (fun L' _ => proceeds_pure ⟨fun _ => by omega, by omega, by omega, h⟩)
    (proceeds_pure ⟨nofun, few, paid, h⟩)

/-- Items and commas. -/
theorem proceeds_commaSeparated {item : Parser Unit} (J : Piles → Prop) (start : J P)
    (each : ∀ L' k' P', L' ≤ L → k ≤ k' → J P' →
      Proceeds stream item L' k' P' fun _ L'' k'' P'' => L'' ≤ L' ∧ k' ≤ k'' ∧ J P'') :
    Proceeds stream (commaSeparated item) L k P fun _ L' k' P' => L' ≤ L ∧ k ≤ k' ∧ J P' := by
  refine proceeds_repeatWhile J start fun L' k' P' few paid h =>
    proceeds_bind (each L' k' P' few paid h) fun _ L'' k'' P'' h' => ?_
  have read : Proceeds stream (accept .comma >>= pure) L'' k'' P'' fun more =>
      Turn L' k' (fun (_ : Unit) => J) ((), more) := by
    refine proceeds_accept rfl (fun L₁ eq => proceeds_pure ⟨fun _ => ?_, ?_, ?_, h'.2.2⟩)
      (proceeds_pure ⟨nofun, h'⟩)
    all_goals omega
  rwa [bind_pure] at read

/-- A failure is the last thing that happens. -/
theorem proceeds_failing {x : Parser α} {f : α → Parser β} {Q : β → Nat → Nat → Piles → Prop}
    (fails : Proceeds stream x L k P fun _ _ _ _ => False) : Proceeds stream (x >>= f) L k P Q :=
  proceeds_bind fails fun _ _ _ _ => False.elim

end Rules

/-! ## Goals -/

namespace Grammar.Goal

/-- The goals of statements may call for an expression without reading anything first. -/
def rank : Goal → Nat
  | .expression _ | .function _ _ _ _ => 1
  | .declaration | .statement => 2

/-- Where a goal may be called for. -/
def Ready (k : Nat) (P : Piles) : Goal → Prop
  | .expression level => 1 ≤ level.rank
  | .function kind _ m _ => 0 < k ∧ (kind.fills → m.isPure = false)
  | .declaration | .statement => Bare P.pieces

/-- A token has been read, and what has been written leaves some directives paid for. -/
def Post (L k : Nat) (P : Piles) (goal : Goal) (L' k' : Nat) (P' : Piles) : Prop :=
  L' < L ∧ k + 4 ≤ k' ∧ match goal with
    | .expression _ => ∃ t, t.isTemp ∧ P' = ⟨P.site, t :: P.pieces⟩
    | .function _ _ _ _ => P' = ⟨P.site, .value :: P.pieces⟩
    | .declaration | .statement => P' = P

end Grammar.Goal

/-- With the bound `n` on nesting goals are read from any cursor with few enough tokens ahead. -/
def Suffices (stream : List Token) (n : Nat) (parse : Goal → Parser Unit) : Prop :=
  ∀ goal L k P, 2 * L + goal.rank ≤ n → goal.Ready k P →
    Proceeds stream (parse goal) L k P fun _ => goal.Post L k P

end ScriptEngine
