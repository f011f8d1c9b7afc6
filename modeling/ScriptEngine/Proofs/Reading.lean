import ScriptEngine.Grammar.Program
import ScriptEngine.Proofs.Outline

/-!
# What a parser does to the outline

A cursor is at an outline when the directives that it holds lead there from the
start of a script. `Leads` says where a parser takes an outline if it succeeds:
each parser has one such statement, and the rules here put the statements of the
parts together.
-/
namespace ScriptEngine

open Grammar Outline

/-- The directives that are written lead to the outline. -/
def At (O : Outline) (c : Cursor) : Prop :=
  Moves (c.steps.toList.map (·.directive)) initial O

/-- A parser that succeeds leads from `O` to an outline that is as `Q` says. -/
def Leads {α : Type} (x : Parser α) (O : Outline) (Q : α → Outline → Prop) : Prop :=
  ∀ c, At O c → ∀ a c', x c = .ok a c' → ∃ O', Q a O' ∧ At O' c'

section Rules
variable {α β σ : Type} {O M : Outline}

theorem leads_pure {a : α} {Q : α → Outline → Prop} (h : Q a O) : Leads (pure a) O Q := by
  intro c hc b c' hb
  cases hb
  exact ⟨O, h, hc⟩

theorem leads_bind {x : Parser α} {f : α → Parser β} {P : α → Outline → Prop}
    {Q : β → Outline → Prop} (hx : Leads x O P)
    (hf : ∀ a M, P a M → Leads (f a) M Q) : Leads (x >>= f) O Q := by
  intro c hc b c' hb
  change EStateM.bind x f c = _ at hb
  unfold EStateM.bind at hb
  cases hxc : x c with
  | error e d => rw [hxc] at hb; cases hb
  | ok a d =>
    rw [hxc] at hb
    obtain ⟨M, hM, hd⟩ := hx c hc a d hxc
    exact hf a M hM d hd b c' hb

theorem leads_mono {x : Parser α} {P Q : α → Outline → Prop} (hx : Leads x O P)
    (h : ∀ a M, P a M → Q a M) : Leads x O Q := by
  intro c hc a c' ha
  obtain ⟨M, hM, hc'⟩ := hx c hc a c' ha
  exact ⟨M, h a M hM, hc'⟩

/-- A parser that leads to one outline, and the rest. -/
theorem leads_seq {x : Parser α} {f : α → Parser β} {Q : β → Outline → Prop}
    (hx : Leads x O fun _ M' => M' = M) (hf : ∀ a, Leads (f a) M Q) :
    Leads (x >>= f) O Q :=
  leads_bind hx fun a _ h => h ▸ hf a

theorem leads_fail {Q : α → Outline → Prop} {x : Parser α} (h : ∀ c a c', x c ≠ .ok a c') :
    Leads x O Q :=
  fun c _ a c' ha => (h c a c' ha).elim

theorem leads_failHere {fault : CompileFault} {Q : α → Outline → Prop} :
    Leads (failHere fault) O Q :=
  leads_fail fun _ _ _ h => by cases h

theorem leads_failBefore {fault : CompileFault} {Q : α → Outline → Prop} :
    Leads (failBefore fault) O Q :=
  leads_fail fun _ _ _ h => by cases h

/-- A directive that is written makes its move. -/
theorem leads_write {d : Directive} (h : Move d O M) :
    Leads (write d) O fun _ M' => M' = M := by
  intro c hc a c' ha
  cases ha
  refine ⟨M, rfl, ?_⟩
  simpa [At] using hc.snoc h

/-! ## Parsers that write nothing -/

theorem at_advance {c : Cursor} (h : At O c) : At O c.advance := by
  unfold At Cursor.advance
  cases c.ahead <;> exact h

theorem leads_advance : Leads advance O fun _ M => M = O := by
  intro c hc a c' ha
  cases ha
  exact ⟨O, rfl, at_advance hc⟩

theorem leads_get : Leads (get : Parser Cursor) O fun _ M => M = O := by
  intro c hc a c' ha
  cases ha
  exact ⟨O, rfl, hc⟩

theorem leads_currentKind : Leads currentKind O fun _ M => M = O := by
  intro c hc a c' ha
  cases ha
  exact ⟨O, rfl, hc⟩

theorem leads_secondKind : Leads secondKind O fun _ M => M = O := by
  intro c hc a c' ha
  cases ha
  exact ⟨O, rfl, hc⟩

theorem leads_previousToken : Leads previousToken O fun _ M => M = O := by
  intro c hc a c' ha
  cases ha
  exact ⟨O, rfl, hc⟩

theorem leads_check {kind : TokenKind} : Leads (check kind) O fun _ M => M = O :=
  leads_seq leads_currentKind fun _ => leads_pure rfl

theorem leads_accept {kind : TokenKind} : Leads (accept kind) O fun _ M => M = O := by
  refine leads_seq leads_check fun b => ?_
  split
  · exact leads_seq leads_advance fun _ => leads_pure rfl
  · exact leads_pure rfl

theorem leads_expect {kind : TokenKind} {what : String} :
    Leads (expect kind what) O fun _ M => M = O := by
  refine leads_seq leads_accept fun b => ?_
  split
  · exact leads_pure rfl
  · exact leads_failHere

theorem leads_expectName {what : String} : Leads (expectName what) O fun _ M => M = O :=
  leads_seq leads_expect fun _ => leads_seq leads_previousToken fun _ => leads_pure rfl

theorem leads_expectMember {what : String} :
    Leads (expectMember what) O fun _ M => M = O := by
  refine leads_seq leads_accept fun b => ?_
  split
  · exact leads_seq leads_previousToken fun _ => leads_pure rfl
  · exact leads_expectName

theorem leads_acceptAssignment : Leads acceptAssignment O fun r M =>
    (∃ kind, r = Assignment.ofKind? kind) ∧ M = O := by
  refine leads_seq leads_currentKind fun kind => ?_
  dsimp only
  split
  · exact leads_seq leads_advance fun _ => leads_pure ⟨⟨kind, rfl⟩, rfl⟩
  · exact leads_pure ⟨⟨kind, rfl⟩, rfl⟩

/-! ## Loops -/

/-- What holds ahead of every round holds behind the last one. -/
theorem leads_repeatFrom {round : σ → Parser (σ × Bool)} {s : σ} (I Q : σ → Outline → Prop)
    (start : I s O)
    (h : ∀ s M, I s M → Leads (round s) M fun r M' => if r.2 then I r.1 M' else Q r.1 M') :
    Leads (repeatFrom s round) O Q := by
  refine leads_seq leads_get fun c => ?_
  generalize c.previous :: c.current :: c.ahead = left
  induction left generalizing s O with
  | nil => exact leads_failHere
  | cons t left ih =>
    refine leads_bind (h s O start) fun r M hr => ?_
    obtain ⟨s', more⟩ := r
    cases more with
    | true => exact ih hr
    | false => exact leads_pure hr

theorem leads_repeatWhile {round : Parser Bool} (I : Outline → Prop) (start : I O)
    (h : ∀ M, I M → Leads round M fun _ M' => I M') :
    Leads (repeatWhile round) O fun _ M => I M := by
  refine leads_repeatFrom (fun _ => I) (fun _ => I) start fun _ M hM => ?_
  exact leads_bind (h M hM) fun _ _ h => leads_pure (by simpa using h)

theorem leads_commaSeparated {item : Parser Unit} (I : Outline → Prop) (start : I O)
    (h : ∀ M, I M → Leads item M fun _ M' => I M') :
    Leads (commaSeparated item) O fun _ M => I M := by
  refine leads_repeatWhile I start fun M hM => ?_
  exact leads_bind (h M hM) fun _ M' hM' => leads_mono leads_accept fun _ _ h => h ▸ hM'

end Rules

end ScriptEngine
