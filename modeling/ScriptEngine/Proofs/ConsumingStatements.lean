import ScriptEngine.Proofs.ConsumingExpressions

/-!
# Statements and functions come to an end

A statement reads its keyword or the first token of an expression and leaves the pile as
it was. The declarations of a block go on as long as each of them reads something, which
they do, and the end of the input ends every block.
-/
namespace ScriptEngine

open Grammar Piece

/-- A rule leaves the pile as it was, at the expense of the token that has been read last. -/
def Stated (L k : Nat) (P : Piles) (L' k' : Nat) (P' : Piles) : Prop := L' ≤ L ∧ k ≤ k' + 12 ∧ P' = P

section Heads
variable {stream : List Token} {L k : Nat} {F : Site} {ρ : List Piece}

theorem proceeds_parameters (bare : Bare ρ) :
    Proceeds stream parameters L k ⟨F, ρ⟩ fun _ L' k' P' => L' < L ∧ k ≤ k' ∧ P' = ⟨F, ρ⟩ := by
  have close (L' k' : Nat) (few : L' ≤ L) (paid' : k ≤ k') : Proceeds stream
      (expect .closeParen "')' after parameters") L' k' ⟨F, ρ⟩ fun _ L' k' P' => L' < L ∧ k ≤ k' ∧ P' = ⟨F, ρ⟩ :=
    proceeds_last rfl fun L'' eq => ⟨by omega, by omega, rfl⟩
  refine proceeds_check fun b => ?_
  dsimp only
  split
  · exact close L k le_rfl le_rfl
  refine proceeds_bind (proceeds_repeatFrom (fun _ P' => P' = ⟨F, ρ⟩) rfl ?_) ?_
  · rintro count L' k' _ few paid' rfl
    split
    · exact proceeds_failing (proceeds_failHere rfl)
    refine proceeds_expectName fun name L'' eq => ?_
    refine proceeds_written (.here (.still rfl bare)) (by omega) ?_
    exact proceeds_comma (by omega) (by omega) rfl
  · rintro _ L' k' _ ⟨few, paid', rfl⟩
    exact close L' k' few paid'

theorem proceeds_resultNames (bare : Bare ρ) :
    Proceeds stream resultNames L k ⟨F, ρ⟩ fun _ L' k' P' => L' ≤ L ∧ k ≤ k' ∧ P' = ⟨F, ρ⟩ := by
  refine proceeds_accept rfl (fun L₁ eq => ?_) (proceeds_pure ⟨le_rfl, le_rfl, rfl⟩)
  refine proceeds_bind (proceeds_commaSeparated (fun P' => P' = ⟨F, ρ⟩) rfl ?_) ?_
  · rintro L' k' _ few paid' rfl
    refine proceeds_expectName fun name L'' eq' => ?_
    exact proceeds_write (.here (.still rfl bare)) (by omega) ⟨by omega, by omega, rfl⟩
  · rintro _ L' k' _ ⟨few, paid', rfl⟩
    exact proceeds_last rfl fun L'' eq => ⟨by omega, by omega, rfl⟩

theorem proceeds_modifiers (m : Modifiers) {P : Piles} :
    Proceeds stream (modifiers m) L k P fun _ L' k' P' => L' ≤ L ∧ k ≤ k' ∧ P' = P := by
  refine proceeds_repeatFrom (fun _ P' => P' = P) rfl ?_
  rintro m L' k' _ few paid' rfl
  refine proceeds_accept rfl (fun L'' eq => proceeds_pure ⟨fun _ => by omega, by omega, by omega, rfl⟩) ?_
  exact proceeds_accept rfl (fun L'' eq => proceeds_pure ⟨fun _ => by omega, by omega, by omega, rfl⟩)
    (proceeds_pure ⟨nofun, le_rfl, le_rfl, rfl⟩)

end Heads

section Statements
variable {β : Type} {stream : List Token} {n L k : Nat} {F : Site} {ρ : List Piece} {parse : Goal → Parser Unit}
variable (goals : Suffices stream n parse)
include goals

theorem proceeds_substatement {f : Unit → Parser β} {Q : β → Nat → Nat → Piles → Prop} (bare : Bare ρ)
    (bound : 2 * L + 2 ≤ n) (rest : ∀ L' k', L' < L → k + 4 ≤ k' → Proceeds stream (f ()) L' k' ⟨F, ρ⟩ Q) :
    Proceeds stream (parse .statement >>= f) L k ⟨F, ρ⟩ Q := by
  refine proceeds_bind (goals .statement L k ⟨F, ρ⟩ bound bare) ?_
  rintro _ L' k' _ ⟨fewer, paid, rfl⟩
  exact rest L' k' fewer paid

theorem proceeds_block {f : Unit → Parser β} {Q : β → Nat → Nat → Piles → Prop} (bare : Bare ρ)
    (bound : 2 * L + 2 ≤ n) (rest : ∀ L' k', L' < L → k + 16 ≤ k' → Proceeds stream (f ()) L' k' ⟨F, ρ⟩ Q) :
    Proceeds stream (block parse >>= f) L k ⟨F, ρ⟩ Q := by
  refine proceeds_bind (R := fun _ L' k' P' => L' < L ∧ k + 16 ≤ k' ∧ P' = ⟨F, ρ⟩) ?_ ?_
  · unfold block
    refine proceeds_bind (proceeds_repeatFrom (fun _ P' => P' = ⟨F, ρ⟩) rfl ?_) ?_
    · rintro noted L₁ k₁ _ few paid rfl
      refine proceeds_currentKind fun leading _ => ?_
      split
      · exact proceeds_pure ⟨nofun, le_rfl, le_rfl, rfl⟩
      refine proceeds_bind (goals .declaration L₁ k₁ ⟨F, ρ⟩ (by simp [Goal.rank]; omega) bare) ?_
      rintro _ L₂ k₂ _ ⟨fewer, paid₂, rfl⟩
      have again (s : Bool) (k₃ : Nat) (paid₃ : k₁ ≤ k₃) : Proceeds stream (pure (s, true)) L₂ k₃ ⟨F, ρ⟩
          (Turn L₁ k₁ fun _ P' => P' = ⟨F, ρ⟩) := proceeds_pure ⟨fun _ => fewer, fewer.le, paid₃, rfl⟩
      split
      · refine proceeds_check fun last => ?_
        split
        · exact again noted k₂ (by omega)
        · refine proceeds_get fun c => ?_
          exact proceeds_written (piled_quiet rfl) (by omega) (again true _ (by omega))
      · exact again noted k₂ (by omega)
    · rintro _ L₁ k₁ _ ⟨few, paid, rfl⟩
      exact proceeds_last rfl fun L₂ eq => ⟨by omega, by omega, rfl⟩
  · rintro _ L' k' _ ⟨fewer, paid, rfl⟩
    exact rest L' k' fewer paid

theorem proceeds_function (kind : FunctionKind) (name : String) (m : Modifiers) (fields : List String)
    (bound : 2 * L ≤ n) (ready : 0 < k) (impure : kind.fills → m.isPure = false) :
    Proceeds stream (function parse kind name m fields) L k ⟨F, ρ⟩ fun _ =>
      (Goal.function kind name m fields).Post L k ⟨F, ρ⟩ := by
  refine proceeds_written (.begins rfl impure) ready ?_
  refine proceeds_expect rfl fun L₁ eq => ?_
  refine proceeds_bind (proceeds_parameters bare_nil) ?_
  rintro _ L₂ k₂ _ ⟨few₂, paid₂, rfl⟩
  refine proceeds_bind (proceeds_resultNames bare_nil) ?_
  rintro _ L₃ k₃ _ ⟨few₃, paid₃, rfl⟩
  have body (k₄ : Nat) (paid₄ : k + 4 ≤ k₄) : Proceeds stream (do
      expect .openBrace "'\x7b' before function body"
      block parse
      write .endFunction) L₃ k₄ ⟨F.within ρ kind m, []⟩ fun _ =>
        (Goal.function kind name m fields).Post L k ⟨F, ρ⟩ := by
    refine proceeds_expect rfl fun L₅ eq' => ?_
    refine proceeds_block goals bare_nil (by omega) fun L₆ k₆ few₆ paid₆ => ?_
    exact proceeds_write .endFunction (by omega) ⟨by omega, by omega, rfl⟩
  dsimp only
  split
  · rename_i init
    exact proceeds_written (.here (.storeMatching (init ▸ rfl) bare_nil)) (by omega) (body _ (by omega))
  · exact body _ (by omega)

/-! ## Simple statements -/

theorem proceeds_expressionStatement (bound : 2 * L + 1 ≤ n) :
    Proceeds stream (expressionStatement parse) L k ⟨F, ρ⟩ fun _ => Goal.statement.Post L k ⟨F, ρ⟩ := by
  refine proceeds_expression goals bound fun L₁ k₁ t few₁ paid₁ temp => ?_
  refine proceeds_expect rfl fun L₂ eq => ?_
  exact proceeds_write (piled_use rfl rfl temp) (by omega) ⟨by omega, by omega, rfl⟩

theorem proceeds_valueStatement {what : String} {d : Directive} (effect : d.effect = some (1, 0))
    (other : d.fillsField = false) (bound : 2 * L + 1 ≤ n) :
    Proceeds stream (valueStatement parse what d) L k ⟨F, ρ⟩ fun _ => Stated L k ⟨F, ρ⟩ := by
  refine proceeds_expression goals bound fun L₁ k₁ t few₁ paid₁ temp => ?_
  refine proceeds_expect rfl fun L₂ eq => ?_
  exact proceeds_write (piled_use effect other temp) (by omega) ⟨by omega, by omega, rfl⟩

theorem proceeds_initializer {f : Unit → Parser β} {Q : β → Nat → Nat → Piles → Prop} (paid : 1 ≤ k)
    (bound : 2 * L ≤ n) (rest : ∀ L' k' t, L' ≤ L → k ≤ k' + 1 → t.isTemp →
      Proceeds stream (f ()) L' k' ⟨F, t :: ρ⟩ Q) :
    Proceeds stream (initializer parse >>= f) L k ⟨F, ρ⟩ Q := by
  refine proceeds_bind (R := fun _ L' k' P' => L' ≤ L ∧ k ≤ k' + 1 ∧ ∃ t, t.isTemp ∧ P' = ⟨F, t :: ρ⟩) ?_ ?_
  · unfold initializer
    refine proceeds_accept rfl (fun L₁ eq => ?_) ?_
    · refine proceeds_mono (goals (.expression .assignment) L₁ _ ⟨F, ρ⟩ (by simp [Goal.rank]; omega) le_rfl) ?_
      rintro _ L' k' _ ⟨fewer, paid', t, temp, rfl⟩
      exact ⟨by omega, by omega, t, temp, rfl⟩
    · exact proceeds_write (piled_push rfl rfl) (by omega) ⟨le_rfl, by omega, .value, rfl, rfl⟩
  · rintro _ L' k' _ ⟨few, paid', t, temp, rfl⟩
    exact rest L' k' t few paid' temp

theorem proceeds_multiVariables (bare : Bare ρ) (bound : 2 * L ≤ n) :
    Proceeds stream (multiVariables parse) L k ⟨F, ρ⟩ fun _ => Stated L k ⟨F, ρ⟩ := by
  refine proceeds_bind (proceeds_repeatFrom (fun _ P' => P' = ⟨F, ρ⟩) rfl ?_) ?_
  · rintro names L' k' _ few paid rfl
    exact proceeds_expectName fun name L'' eq => proceeds_comma (by omega) (by omega) rfl
  rintro names L₁ k₁ _ ⟨few₁, paid₁, rfl⟩
  have body (L₂ k₂ : Nat) (few₂ : L₂ < L) (paid₂ : k + 16 ≤ k₂) : Proceeds stream (do
      write (.plain .multiVarStart rfl)
      expression parse
      write (.plain .multiVarEnd rfl)
      write (.plain (.pushByte (UInt8.ofNat names.length)) rfl)
      write (.plain (.validate .multiReturnMatches) rfl)
      expect .semicolon "';' after multi-var declaration"
      write (.defineMany names)) L₂ k₂ ⟨F, ρ⟩ fun _ => Stated L k ⟨F, ρ⟩ := by
    refine proceeds_written (.here (.still rfl bare)) (by omega) ?_
    refine proceeds_expression goals (by omega) fun L₃ k₃ t few₃ paid₃ temp => ?_
    refine proceeds_written (.here (.count temp bare)) (by omega) ?_
    refine proceeds_written (.here (.byte ?_)) (by omega) ?_
    · exact bare_cons.mpr ⟨rfl, bare_cons.mpr ⟨rfl, bare⟩⟩
    refine proceeds_written (.here (.validate bare)) (by omega) ?_
    refine proceeds_expect rfl fun L₄ eq => ?_
    exact proceeds_write (.here (.definition rfl rfl bare)) (by omega) ⟨by omega, by omega, rfl⟩
  dsimp only
  split
  · exact proceeds_failing (proceeds_failBefore rfl)
  refine proceeds_expect rfl fun L₂ eq => ?_
  refine proceeds_expect rfl fun L₃ eq' => ?_
  refine proceeds_currentKind fun kind _ => ?_
  refine proceeds_secondKind fun second => ?_
  split
  · exact proceeds_failing (proceeds_failHere rfl)
  · exact body L₃ _ (by omega) (by omega)

theorem proceeds_varStatement (bare : Bare ρ) (bound : 2 * L ≤ n) :
    Proceeds stream (varStatement parse) L k ⟨F, ρ⟩ fun _ => Stated L k ⟨F, ρ⟩ := by
  refine proceeds_accept rfl (fun L₁ eq => ?_) ?_
  · refine proceeds_mono (proceeds_multiVariables goals bare (by omega)) ?_
    rintro _ L' k' _ ⟨few, paid, rfl⟩
    exact ⟨by omega, by omega, rfl⟩
  refine proceeds_bind (proceeds_commaSeparated (fun P' => P' = ⟨F, ρ⟩) rfl ?_) ?_
  · rintro L' k' _ few paid rfl
    refine proceeds_expectName fun name L'' eq => ?_
    refine proceeds_written (.here (.still rfl bare)) (by omega) ?_
    refine proceeds_initializer goals (by omega) (by omega) fun L₂ k₂ t few₂ paid₂ temp => ?_
    exact proceeds_write (.here (.definition rfl temp bare)) (by omega) ⟨by omega, by omega, rfl⟩
  · rintro _ L' k' _ ⟨few, paid, rfl⟩
    exact proceeds_last rfl fun L'' eq => ⟨by omega, by omega, rfl⟩

theorem proceeds_throwStatement (bound : 2 * L + 1 ≤ n) (paid : 16 ≤ k) :
    Proceeds stream (throwStatement parse) L k ⟨F, ρ⟩ fun _ => Stated L k ⟨F, ρ⟩ := by
  refine proceeds_written (piled_quiet rfl) (by omega) ?_
  refine proceeds_accept rfl (fun L₁ eq => ?_) ?_
  · refine proceeds_written (piled_push rfl rfl) (by omega) ?_
    exact proceeds_write (piled_use rfl rfl rfl) (by omega) ⟨by omega, by omega, rfl⟩
  · refine proceeds_expression goals (by omega) fun L₁ k₁ t few₁ paid₁ temp => ?_
    refine proceeds_expect rfl fun L₂ eq => ?_
    exact proceeds_write (piled_use rfl rfl temp) (by omega) ⟨by omega, by omega, rfl⟩

theorem proceeds_registerStatement (bound : 2 * L ≤ n) :
    Proceeds stream (registerStatement parse) L k ⟨F, ρ⟩ fun _ => Stated L k ⟨F, ρ⟩ := by
  refine proceeds_expectName fun name L₁ eq => ?_
  refine proceeds_written (piled_quiet rfl) (by omega) ?_
  refine proceeds_expression goals (by omega) fun L₂ k₂ t few₂ paid₂ temp => ?_
  refine proceeds_expect rfl fun L₃ eq => ?_
  exact proceeds_write (piled_use rfl rfl temp) (by omega) ⟨by omega, by omega, rfl⟩

theorem proceeds_returnTuple (bare : Bare ρ) (bound : 2 * L + 1 ≤ n) (more : 0 < L) :
    Proceeds stream (returnTuple parse) L k ⟨F, ρ⟩ fun _ L' k' P' => L' ≤ L ∧ k ≤ k' ∧ P' = ⟨F, ρ⟩ := by
  refine proceeds_advance more fun L₁ eq => ?_
  refine proceeds_bind (proceeds_repeatFrom (fun m => Rises F ρ m) .none ?_) ?_
  · rintro m L' k' _ few paid ⟨τ, rfl, length, temps⟩
    refine proceeds_expression goals (by omega) fun L₂ k₂ t few₂ paid₂ temp => ?_
    exact proceeds_comma (by omega) (by omega) (.push ⟨τ, rfl, length, temps⟩ temp)
  · rintro m L' k' _ ⟨few, paid, τ, rfl, length, temps⟩
    dsimp only
    split
    · exact proceeds_failing (proceeds_failBefore rfl)
    refine proceeds_expect rfl fun L₂ eq' => ?_
    refine proceeds_expect rfl fun L₃ eq'' => ?_
    exact proceeds_write (.here (.ret temps bare)) (by omega) ⟨by omega, by omega, rfl⟩

theorem proceeds_returnStatement (bare : Bare ρ) (bound : 2 * L + 1 ≤ n) (paid : 16 ≤ k) :
    Proceeds stream (returnStatement parse) L k ⟨F, ρ⟩ fun _ => Stated L k ⟨F, ρ⟩ := by
  refine proceeds_written (piled_quiet rfl) (by omega) ?_
  refine proceeds_accept rfl (fun L₁ eq => ?_) ?_
  · exact proceeds_write (.here (.still rfl bare)) (by omega) ⟨by omega, by omega, rfl⟩
  refine proceeds_written (piled_quiet rfl) (by omega) fun c on left => proceedsAt_get ?_
  split
  · rename_i tuple
    refine proceeds_mono (proceeds_returnTuple goals bare bound ?_) (fun _ L' k' P' h => ?_) c on left
    · obtain ⟨t, ts, ahead⟩ := on.ahead fun eof => by simp [eof] at tuple
      rw [← left, ahead]
      exact Nat.succ_pos _
    · exact ⟨h.1, by omega, h.2.2⟩
  · refine proceeds_expression goals (by omega) (fun L₁ k₁ t few₁ paid₁ temp => ?_) c on left
    refine proceeds_expect rfl fun L₂ eq => ?_
    exact proceeds_write (.here (.ret (τ := [t]) (temps_singleton temp) bare)) (by omega) ⟨by omega, by omega, rfl⟩

/-! ## Control -/

theorem proceeds_condition {keyword : String} {f : Unit → Parser β} {Q : β → Nat → Nat → Piles → Prop}
    (bound : 2 * L ≤ n) (rest : ∀ L' k' t, L' < L → k + 16 ≤ k' → t.isTemp →
      Proceeds stream (f ()) L' k' ⟨F, t :: ρ⟩ Q) :
    Proceeds stream (condition parse keyword >>= f) L k ⟨F, ρ⟩ Q := by
  refine proceeds_bind (R := fun _ L' k' P' => L' < L ∧ k + 16 ≤ k' ∧ ∃ t, t.isTemp ∧ P' = ⟨F, t :: ρ⟩) ?_ ?_
  · refine proceeds_expect rfl fun L₁ eq => ?_
    refine proceeds_expression goals (by omega) fun L₂ k₂ t few₂ paid₂ temp => ?_
    exact proceeds_last rfl fun L₃ eq' => ⟨by omega, by omega, t, temp, rfl⟩
  · rintro _ L' k' _ ⟨fewer, paid, t, temp, rfl⟩
    exact rest L' k' t fewer paid temp

theorem proceeds_ifStatement (bare : Bare ρ) (bound : 2 * L ≤ n) :
    Proceeds stream (ifStatement parse) L k ⟨F, ρ⟩ fun _ => Stated L k ⟨F, ρ⟩ := by
  have inner {p : Piece} (outer : p.isInner = false) : Bare (p :: ρ) := bare_cons.mpr ⟨outer, bare⟩
  refine proceeds_condition goals bound fun L₁ k₁ t few₁ paid₁ temp => ?_
  refine proceeds_written (.here (.branch temp bare)) (by omega) ?_
  refine proceeds_substatement goals (inner rfl) (by omega) fun L₂ k₂ few₂ paid₂ => ?_
  refine proceeds_written (.here (.branchElse bare)) (by omega) ?_
  refine proceeds_accept rfl (fun L₃ eq => ?_) ?_
  · refine proceeds_substatement goals (inner rfl) (by omega) fun L₄ k₄ few₄ paid₄ => ?_
    exact proceeds_write (.here (.branchEnd bare)) (by omega) ⟨by omega, by omega, rfl⟩
  · exact proceeds_write (.here (.branchEnd bare)) (by omega) ⟨by omega, by omega, rfl⟩

theorem proceeds_whileStatement (bare : Bare ρ) (bound : 2 * L ≤ n) (paid : 16 ≤ k) :
    Proceeds stream (whileStatement parse) L k ⟨F, ρ⟩ fun _ => Stated L k ⟨F, ρ⟩ := by
  refine proceeds_written (.here (.whileStart bare)) (by omega) ?_
  refine proceeds_condition goals bound fun L₁ k₁ t few₁ paid₁ temp => ?_
  refine proceeds_written (.here (.whileBody temp bare)) (by omega) ?_
  refine proceeds_substatement goals (bare_cons.mpr ⟨rfl, bare⟩) (by omega) fun L₂ k₂ few₂ paid₂ => ?_
  exact proceeds_write (.here (.whileEnd bare)) (by omega) ⟨by omega, by omega, rfl⟩

theorem proceeds_forStatement (bare : Bare ρ) (bound : 2 * L ≤ n) (paid : 16 ≤ k) :
    Proceeds stream (forStatement parse) L k ⟨F, ρ⟩ fun _ => Stated L k ⟨F, ρ⟩ := by
  have inner : Bare (.scope :: ρ) := bare_cons.mpr ⟨rfl, bare⟩
  have body (L₁ k₁ : Nat) (few₁ : L₁ < L) (paid₁ : k + 4 ≤ k₁) : Proceeds stream (do
      write .forBody
      parse .statement
      write .forEnd
      write .endScope) L₁ k₁ ⟨F, .forLoop :: .scope :: ρ⟩ fun _ => Stated L k ⟨F, ρ⟩ := by
    refine proceeds_written (.here (.forGoes (.inr rfl) inner)) (by omega) ?_
    refine proceeds_substatement goals (bare_cons.mpr ⟨rfl, inner⟩) (by omega) fun L₂ k₂ few₂ paid₂ => ?_
    refine proceeds_written (.here (.forEnd inner)) (by omega) ?_
    exact proceeds_write (.here (.endScope bare)) (by omega) ⟨by omega, by omega, rfl⟩
  have step (L₁ k₁ : Nat) (few₁ : L₁ < L) (paid₁ : k + 5 ≤ k₁) : Proceeds stream (do
      unless ← accept .closeParen do
        write .forStep
        expression parse
        write .forStepEnd
        expect .closeParen "')' after for clauses"
      write .forBody
      parse .statement
      write .forEnd
      write .endScope) L₁ k₁ ⟨F, .forLoop :: .scope :: ρ⟩ fun _ => Stated L k ⟨F, ρ⟩ := by
    refine proceeds_accept rfl (fun L₂ eq => body L₂ _ (by omega) (by omega)) ?_
    refine proceeds_written (.here (.forGoes (.inl rfl) inner)) (by omega) ?_
    refine proceeds_expression goals (by omega) fun L₂ k₂ t few₂ paid₂ temp => ?_
    refine proceeds_written (.here (.forTest (.inr rfl) temp inner)) (by omega) ?_
    exact proceeds_expect rfl fun L₃ eq => body L₃ _ (by omega) (by omega)
  have test (L₁ k₁ : Nat) (few₁ : L₁ < L) (paid₁ : k + 6 ≤ k₁) : Proceeds stream (do
      write .forStart
      unless ← accept .semicolon do
        expression parse
        expect .semicolon "';' after loop condition"
        write .forCondition
      unless ← accept .closeParen do
        write .forStep
        expression parse
        write .forStepEnd
        expect .closeParen "')' after for clauses"
      write .forBody
      parse .statement
      write .forEnd
      write .endScope) L₁ k₁ ⟨F, .scope :: ρ⟩ fun _ => Stated L k ⟨F, ρ⟩ := by
    refine proceeds_written (.here (.forStart inner)) (by omega) ?_
    refine proceeds_accept rfl (fun L₂ eq => step L₂ _ (by omega) (by omega)) ?_
    refine proceeds_expression goals (by omega) fun L₂ k₂ t few₂ paid₂ temp => ?_
    refine proceeds_expect rfl fun L₃ eq => ?_
    exact proceeds_written (.here (.forTest (.inl rfl) temp inner)) (by omega) (step L₃ _ (by omega) (by omega))
  refine proceeds_written (.here (.beginScope bare)) (by omega) ?_
  refine proceeds_expect rfl fun L₁ eq => ?_
  refine proceeds_accept rfl (fun L₂ eq' => test L₂ _ (by omega) (by omega)) ?_
  refine proceeds_accept rfl (fun L₂ eq' => ?_) ?_
  · refine proceeds_bind (proceeds_varStatement goals inner (by omega)) ?_
    rintro _ L₃ k₃ _ ⟨few₃, paid₃, rfl⟩
    exact test L₃ k₃ (by omega) (by omega)
  · refine proceeds_bind (proceeds_expressionStatement goals (by omega)) ?_
    rintro _ L₃ k₃ _ ⟨fewer, paid₃, rfl⟩
    exact test L₃ k₃ (by omega) (by omega)

theorem proceeds_loopStatement (bare : Bare ρ) (bound : 2 * L + 2 ≤ n) (paid : 16 ≤ k) :
    Proceeds stream (do write .loopStart; parse .statement; write .loopEnd) L k ⟨F, ρ⟩
      fun _ => Stated L k ⟨F, ρ⟩ := by
  refine proceeds_written (.here (.loopStart bare)) (by omega) ?_
  refine proceeds_substatement goals (bare_cons.mpr ⟨rfl, bare⟩) (by omega) fun L₂ k₂ few₂ paid₂ => ?_
  exact proceeds_write (.here (.loopEnd bare)) (by omega) ⟨by omega, by omega, rfl⟩

omit goals in
theorem proceeds_jumpStatement {keyword : String} {jump : Directive} (still : jump.isStill) (bare : Bare ρ)
    (paid : 16 ≤ k) : Proceeds stream (jumpStatement keyword jump) L k ⟨F, ρ⟩ fun _ => Stated L k ⟨F, ρ⟩ := by
  refine proceeds_written (piled_quiet rfl) (by omega) ?_
  refine proceeds_expect rfl fun L₁ eq => ?_
  exact proceeds_write (.here (.still still bare)) (by omega) ⟨by omega, by omega, rfl⟩

/-- The rule of a keyword that has been read. -/
theorem proceeds_statementRule {kind : TokenKind} {rule : Parser Unit} (found : statementRule? parse kind = some rule)
    (bare : Bare ρ) (bound : 2 * L + 2 ≤ n) (paid : 16 ≤ k) :
    Proceeds stream rule L k ⟨F, ρ⟩ fun _ => Stated L k ⟨F, ρ⟩ := by
  unfold statementRule? at found
  split at found <;> cases found
  · refine proceeds_written (.here (.beginScope bare)) (by omega) ?_
    refine proceeds_block goals (bare_cons.mpr ⟨rfl, bare⟩) bound fun L₁ k₁ few₁ paid₁ => ?_
    exact proceeds_write (.here (.endScope bare)) (by omega) ⟨by omega, by omega, rfl⟩
  · exact proceeds_ifStatement goals bare (by omega)
  · exact proceeds_whileStatement goals bare (by omega) paid
  · exact proceeds_forStatement goals bare (by omega) paid
  · exact proceeds_loopStatement goals bare bound paid
  · exact proceeds_jumpStatement rfl bare paid
  · exact proceeds_jumpStatement rfl bare paid
  · exact proceeds_returnStatement goals bare (by omega) paid
  · exact proceeds_throwStatement goals (by omega) paid
  · refine proceeds_expect rfl fun L₁ eq => ?_
    exact proceeds_write (.here (.simple (τ := []) rfl rfl rfl (by simp))) (by omega) ⟨by omega, by omega, rfl⟩
  · exact proceeds_valueStatement goals rfl rfl (by omega)
  · exact proceeds_valueStatement goals rfl rfl (by omega)
  · exact proceeds_valueStatement goals rfl rfl (by omega)
  · exact proceeds_registerStatement goals (by omega)

theorem proceeds_statement (bare : Bare ρ) (bound : 2 * L + 1 ≤ n) :
    Proceeds stream (statement parse) L k ⟨F, ρ⟩ fun _ => Goal.statement.Post L k ⟨F, ρ⟩ := by
  refine proceeds_currentKind fun kind more => ?_
  split
  · rename_i rule found
    have real : kind ≠ .eof := fun eof => by
      rw [eof] at found
      cases found
    refine proceeds_advance (more real) fun L₁ eq => ?_
    refine proceeds_mono (proceeds_statementRule goals found bare (by omega) (by omega)) ?_
    rintro _ L' k' _ ⟨few, paid, rfl⟩
    exact ⟨by omega, by omega, rfl⟩
  · exact proceeds_expressionStatement goals bound

end Statements

end ScriptEngine
