import ScriptEngine.Proofs.Consuming

/-!
# Expressions come to an end

An expression begins with a token that has a prefix rule, so the goals that it calls for
have fewer tokens ahead. It piles up one value on those that are there. The object of a
literal stays where it is until all fields have been filled.
-/
namespace ScriptEngine

open Grammar Piece

section Expressions
variable {β : Type} {stream : List Token} {n L k : Nat} {F : Site} {ρ : List Piece} {parse : Goal → Parser Unit}

variable (goals : Suffices stream n parse)
include goals

theorem proceeds_operand {level : Precedence} {f : Unit → Parser β} {Q : β → Nat → Nat → Piles → Prop}
    (proper : 1 ≤ level.rank) (bound : 2 * L + 1 ≤ n)
    (rest : ∀ L' k' t, L' < L → k + 4 ≤ k' → t.isTemp → Proceeds stream (f ()) L' k' ⟨F, t :: ρ⟩ Q) :
    Proceeds stream (parse (.expression level) >>= f) L k ⟨F, ρ⟩ Q := by
  refine proceeds_bind (goals (.expression level) L k ⟨F, ρ⟩ bound proper) fun _ L' k' P' h => ?_
  obtain ⟨fewer, paid, t, temp, rfl⟩ := h
  exact rest L' k' t fewer paid temp

theorem proceeds_expression {f : Unit → Parser β} {Q : β → Nat → Nat → Piles → Prop} (bound : 2 * L + 1 ≤ n)
    (rest : ∀ L' k' t, L' < L → k + 4 ≤ k' → t.isTemp → Proceeds stream (f ()) L' k' ⟨F, t :: ρ⟩ Q) :
    Proceeds stream (expression parse >>= f) L k ⟨F, ρ⟩ Q := proceeds_operand goals le_rfl bound rest

/-- The values of the arguments are as many as are counted. -/
theorem proceeds_argumentList {f : UInt8 → Parser β} {Q : β → Nat → Nat → Piles → Prop} (bound : 2 * L + 1 ≤ n)
    (rest : ∀ argc L' k' τ, L' < L → k + 16 ≤ k' → τ.length = argc.toNat → (∀ p ∈ τ, p.isTemp) →
      Proceeds stream (f argc) L' k' ⟨F, τ ++ ρ⟩ Q) :
    Proceeds stream (argumentList parse >>= f) L k ⟨F, ρ⟩ Q := by
  refine proceeds_bind (R := fun argc L' k' P' => L' < L ∧ k + 16 ≤ k' ∧ Rises F ρ argc.toNat P') ?_ ?_
  · unfold argumentList
    have close (count L' k' : Nat) (P' : Piles) (few : L' ≤ L) (paid : k ≤ k') (small : count ≤ 255)
        (gains : Rises F ρ count P') : Proceeds stream (do
          expect .closeParen "')' after arguments"
          return UInt8.ofNat count) L' k' P' fun argc L' k' P' => L' < L ∧ k + 16 ≤ k' ∧ Rises F ρ argc.toNat P' := by
      refine proceeds_expect rfl fun L'' eq => proceeds_pure ⟨by omega, by omega, ?_⟩
      rwa [UInt8.toNat_ofNat', Nat.mod_eq_of_lt (by omega)]
    refine proceeds_check fun b => ?_
    dsimp only
    split
    · exact close 0 L k ⟨F, ρ⟩ le_rfl le_rfl (Nat.zero_le _) .none
    refine proceeds_bind (proceeds_repeatFrom (fun m P' => m ≤ 255 ∧ Rises F ρ m P') ⟨Nat.zero_le _, .none⟩ ?_) ?_
    · rintro m L' k' _ few paid ⟨small, τ, rfl, length, temps⟩
      refine proceeds_expression goals (by omega) fun L'' k'' t fewer paid' temp => ?_
      split
      · exact proceeds_failing (proceeds_failBefore rfl)
      · exact proceeds_comma fewer.le (by omega) ⟨by omega, .push ⟨τ, rfl, length, temps⟩ temp⟩
    · rintro m L' k' P' ⟨few, paid, small, gains⟩
      exact close m L' k' P' few paid small gains
  · rintro argc L' k' _ ⟨fewer, paid, τ, rfl, length, temps⟩
    exact rest argc L' k' τ fewer paid length temps

omit goals in
/-- The operation of an assignment takes two values. -/
theorem proceeds_acceptAssignment {P : Piles} {f : Option Assignment → Parser β} {Q : β → Nat → Nat → Piles → Prop}
    (rest : ∀ a L' k', L' ≤ L → k ≤ k' → (∀ operation, a = some (.compound operation) →
      operation.effect = some (2, 1) ∧ operation.fillsField = false) → Proceeds stream (f a) L' k' P Q) :
    Proceeds stream (acceptAssignment >>= f) L k P Q := by
  have takes (kind : TokenKind) (operation : Directive) (h : Assignment.ofKind? kind = some (.compound operation)) :
      operation.effect = some (2, 1) ∧ operation.fillsField = false := by
    cases kind <;> cases h <;> exact ⟨rfl, rfl⟩
  refine proceeds_bind (R := fun a L' k' P' => L' ≤ L ∧ k ≤ k' ∧ P' = P ∧ ∀ operation,
    a = some (.compound operation) → operation.effect = some (2, 1) ∧ operation.fillsField = false) ?_ ?_
  · unfold acceptAssignment
    refine proceeds_currentKind fun kind more => ?_
    dsimp only
    split
    · rename_i assigns
      refine proceeds_advance (more fun eof => ?_) fun L' eq => proceeds_pure ⟨by omega, by omega, rfl, takes kind⟩
      subst eof
      cases assigns
    · exact proceeds_pure ⟨le_rfl, le_rfl, rfl, takes kind⟩
  · rintro a L' k' _ ⟨few, paid, rfl, value⟩
    exact rest a L' k' few paid value

/-- A value has been made, at the expense of the token that has been read last. -/
def Valued (L k : Nat) (F : Site) (ρ : List Piece) (L' k' : Nat) (P' : Piles) : Prop :=
  L' ≤ L ∧ k ≤ k' + 12 ∧ ∃ t, t.isTemp ∧ P' = ⟨F, t :: ρ⟩

theorem proceeds_variableNamed (name : String) (canAssign : Bool) (bound : 2 * L + 1 ≤ n) (paid : 16 ≤ k) :
    Proceeds stream (variableNamed parse name canAssign) L k ⟨F, ρ⟩ fun _ => Valued L k F ρ := by
  refine proceeds_currentKind fun kind _ => ?_
  split
  · refine proceeds_written (piled_quiet rfl) (by omega) ?_
    refine proceeds_acceptAssignment fun a L' k' few paid' value => ?_
    refine proceeds_written (piled_quiet rfl) (by omega) ?_
    split
    · refine proceeds_written (piled_push rfl rfl) (by omega) ?_
      refine proceeds_expression goals (by omega) fun L'' k'' t fewer' paid' temp => ?_
      refine proceeds_written (piled_join (value _ rfl).1 (value _ rfl).2 temp rfl) (by omega) ?_
      exact proceeds_write (piled_change rfl rfl rfl) (by omega) ⟨by omega, by omega, .value, rfl, rfl⟩
    · refine proceeds_expression goals (by omega) fun L'' k'' t fewer' paid' temp => ?_
      exact proceeds_write (piled_change rfl rfl temp) (by omega) ⟨by omega, by omega, .value, rfl, rfl⟩
  · exact proceeds_write (piled_push rfl rfl) (by omega) ⟨le_rfl, by omega, .value, rfl, rfl⟩

theorem proceeds_superMember (bound : 2 * L + 1 ≤ n) (paid : 16 ≤ k) :
    Proceeds stream (superMember parse) L k ⟨F, ρ⟩ fun _ => Valued L k F ρ := by
  refine proceeds_written (piled_quiet rfl) (by omega) ?_
  refine proceeds_expect rfl fun L₁ eq => ?_
  refine proceeds_expectMember fun name L₂ eq' => ?_
  refine proceeds_written (piled_quiet rfl) (by omega) ?_
  refine proceeds_written (piled_push rfl rfl) (by omega) ?_
  refine proceeds_accept rfl (fun L₃ eq'' => ?_) ?_
  · refine proceeds_argumentList goals (by omega) fun argc L₄ k₄ τ fewer paid' length temps => ?_
    refine proceeds_written (piled_push rfl rfl) (by omega) ?_
    refine proceeds_write (piled_effect (τ := .value :: (τ ++ [.value])) rfl rfl (by simp) (by simp [length]) ?_)
      (by omega) ⟨by omega, by omega, .value, rfl, rfl⟩
    simpa [or_imp, forall_and, Piece.isTemp] using temps
  · refine proceeds_written (piled_push rfl rfl) (by omega) ?_
    exact proceeds_write (piled_join rfl rfl rfl rfl) (by omega) ⟨by omega, by omega, .value, rfl, rfl⟩

/-- The elements of a literal, each one a value or a key and a value. -/
theorem proceeds_bracketLiteral (bound : 2 * L + 1 ≤ n) (paid : 16 ≤ k) :
    Proceeds stream (bracketLiteral parse) L k ⟨F, ρ⟩ fun _ => Valued L k F ρ := by
  refine proceeds_accept rfl (fun L₁ eq => ?_) <| proceeds_accept rfl (fun L₁ eq => ?_) <|
    proceeds_expression goals (by omega) fun L₁ k₁ t few₁ paid₁ temp₁ => ?_
  · refine proceeds_expect rfl fun L₂ eq' => ?_
    exact proceeds_write (piled_push rfl rfl) (by omega) ⟨by omega, by omega, .value, rfl, rfl⟩
  · exact proceeds_write (piled_push rfl rfl) (by omega) ⟨by omega, by omega, .value, rfl, rfl⟩
  have rest (isMap : Bool) (L₂ k₂ : Nat) (P₂ : Piles) (few₂ : L₂ ≤ L) (paid₂ : k ≤ k₂)
      (gains : Rises F ρ (if isMap then 2 else 1) P₂) : Proceeds stream (do
        let count ← repeatFrom 1 fun n => do
          if !(← accept .comma) then return (n, false)
          if ← check .closeBracket then return (n, false)
          expression parse
          if isMap then
            expect .colon "':' between map key and value"
            expression parse
          return (n + 1, true)
        expect .closeBracket "']' after literal elements"
        if count ≥ 65536 then failBefore (.tooMany "elements in literal")
        let n := UInt16.ofNat count
        write (if isMap then .plain (.buildMap n) rfl else .plain (.buildList n) rfl)) L₂ k₂ P₂ fun _ => Valued L k F ρ := by
    refine proceeds_bind (proceeds_repeatFrom (fun m => Rises F ρ (m * if isMap then 2 else 1)) ?_ ?_) ?_
    · rwa [Nat.one_mul]
    · rintro m L' k' P' few paid' gains
      have next (P'' : Piles) (more : ∀ m, Rises F ρ m P' → Rises F ρ (m + if isMap then 2 else 1) P'') :
          Rises F ρ ((m + 1) * if isMap then 2 else 1) P'' := by
        rw [Nat.succ_mul]
        exact more _ gains
      obtain ⟨τ, rfl, length, temps⟩ := gains
      refine proceeds_accept rfl (fun L'' eq => ?_) (proceeds_pure ⟨nofun, le_rfl, le_rfl, τ, rfl, length, temps⟩)
      refine proceeds_check fun b => ?_
      split
      · exact proceeds_pure ⟨nofun, by omega, by omega, τ, rfl, length, temps⟩
      refine proceeds_expression goals (by omega) fun L₃ k₃ t few₃ paid₃ temp => ?_
      split
      · rename_i map
        simp only [if_pos map] at next
        refine proceeds_expect rfl fun L₄ eq' => ?_
        refine proceeds_expression goals (by omega) fun L₅ k₅ u few₅ paid₅ temp' => ?_
        exact proceeds_pure ⟨fun _ => by omega, by omega, by omega, next _ fun m gains => (gains.push temp).push temp'⟩
      · rename_i list
        simp only [if_neg list] at next
        exact proceeds_pure ⟨fun _ => by omega, by omega, by omega, next _ fun m gains => gains.push temp⟩
    · rintro m L' k' P' ⟨few, paid', gains⟩
      refine proceeds_expect rfl fun L'' eq => ?_
      dsimp only
      split
      · exact proceeds_failing (proceeds_failBefore rfl)
      rename_i small
      have count : (UInt16.ofNat m).toNat = m := by
        rw [UInt16.toNat_ofNat', Nat.mod_eq_of_lt (by omega)]
      obtain ⟨τ, rfl, length, temps⟩ := gains
      have piled : Piled
          (if isMap then .plain (.buildMap (UInt16.ofNat m)) rfl else .plain (.buildList (UInt16.ofNat m)) rfl)
          ⟨F, τ ++ ρ⟩ ⟨F, .value :: ρ⟩ := by
        cases isMap with
        | true =>
          have effect : (Directive.plain (.buildMap (UInt16.ofNat m)) rfl).effect = some (m * 2, 1) := by
            simp [Directive.effect, Instruction.effect, count]
          exact piled_effect effect rfl rfl length temps
        | false =>
          have effect : (Directive.plain (.buildList (UInt16.ofNat m)) rfl).effect = some (m, 1) := by
            simp [Directive.effect, Instruction.effect, count]
          exact piled_effect effect rfl rfl (by simpa using length) temps
      exact proceeds_write piled (by omega) ⟨by omega, by omega, .value, rfl, rfl⟩
  refine proceeds_accept rfl (fun L₂ eq => ?_) ?_
  · refine proceeds_expression goals (by omega) fun L₃ k₃ u few₃ paid₃ temp₃ => ?_
    exact rest true L₃ k₃ _ (by omega) (by omega) ((Rises.none.push temp₁).push temp₃)
  · exact rest false L₁ k₁ _ (by omega) (by omega) (Rises.none.push temp₁)

/-- The object stays below the values of its fields. -/
theorem proceeds_dynamicLiteral (bound : 2 * L + 1 ≤ n) (paid : 16 ≤ k) :
    Proceeds stream (dynamicLiteral parse) L k ⟨F, ρ⟩ fun _ => Valued L k F ρ := by
  refine proceeds_accept rfl (fun L₁ eq => ?_) <| proceeds_written (.here .object) (by omega) <|
    proceeds_check fun b => ?_
  · refine proceeds_expect rfl fun L₂ eq' => ?_
    exact proceeds_write (piled_push rfl rfl) (by omega) ⟨by omega, by omega, .value, rfl, rfl⟩
  have close (L' k' : Nat) (few : L' ≤ L) (paid' : k - 1 ≤ k') :
      Proceeds stream (expect .closeBrace "'\x7d' after dynamic object fields") L' k' ⟨F, .object :: ρ⟩
        fun _ => Valued L k F ρ :=
    proceeds_last rfl fun L'' eq => ⟨by omega, by omega, .object, rfl, rfl⟩
  split
  · exact close L (k - 1) le_rfl le_rfl
  refine proceeds_bind (proceeds_commaSeparated (fun P' => P' = ⟨F, .object :: ρ⟩) rfl ?_) ?_
  · rintro L' k' _ few paid' rfl
    refine proceeds_expectName fun name L'' eq => ?_
    refine proceeds_written (piled_quiet rfl) (by omega) ?_
    refine proceeds_expect rfl fun L₃ eq' => ?_
    refine proceeds_written (.here .again) (by omega) ?_
    refine proceeds_expression goals (by omega) fun L₄ k₄ t few₄ paid₄ temp => ?_
    exact proceeds_write (.here (.field temp)) (by omega) ⟨by omega, by omega, rfl⟩
  · rintro _ L' k' _ ⟨few, paid', rfl⟩
    exact close L' k' few paid'

theorem proceeds_prefixRule (canAssign : Bool) (bound : 2 * L + 1 ≤ n) (paid : 16 ≤ k) :
    Proceeds stream (prefixRule parse canAssign) L k ⟨F, ρ⟩ fun _ => Valued L k F ρ := by
  refine proceeds_previousToken fun token => ?_
  have value {L' k' : Nat} (few : L' ≤ L) (paid' : k ≤ k' + 12) : Valued L k F ρ L' k' ⟨F, .value :: ρ⟩ :=
    ⟨few, paid', .value, rfl, rfl⟩
  split
  · refine proceeds_expression goals (by omega) fun L' k' t fewer paid' temp => ?_
    exact proceeds_last rfl fun L'' eq => ⟨by omega, by omega, t, temp, rfl⟩
  · exact proceeds_bracketLiteral goals bound paid
  · exact proceeds_dynamicLiteral goals bound paid
  · refine proceeds_operand goals (by simp [Precedence.rank]) (by omega) fun L' k' t fewer paid' temp => ?_
    exact proceeds_write (piled_change rfl rfl temp) (by omega) (value (by omega) (by omega))
  · refine proceeds_operand goals (by simp [Precedence.rank]) (by omega) fun L' k' t fewer paid' temp => ?_
    exact proceeds_write (piled_change rfl rfl temp) (by omega) (value (by omega) (by omega))
  · exact proceeds_variableNamed goals _ _ bound paid
  · split
    · exact proceeds_write (piled_push rfl rfl) (by omega) (value le_rfl (by omega))
    · exact proceeds_failBefore rfl
  · split
    · exact proceeds_write (piled_push rfl rfl) (by omega) (value le_rfl (by omega))
    · exact proceeds_failBefore rfl
  · exact proceeds_write (piled_push rfl rfl) (by omega) (value le_rfl (by omega))
  · exact proceeds_write (piled_push rfl rfl) (by omega) (value le_rfl (by omega))
  · exact proceeds_write (piled_push rfl rfl) (by omega) (value le_rfl (by omega))
  · exact proceeds_write (piled_push rfl rfl) (by omega) (value le_rfl (by omega))
  · exact proceeds_superMember goals bound paid
  · refine proceeds_mono (goals (.function .function "anonymous" {} []) L k ⟨F, ρ⟩ bound ⟨by omega, nofun⟩) ?_
    rintro _ L' k' _ ⟨fewer, paid', rfl⟩
    exact value (by omega) (by omega)
  · refine proceeds_expectName fun name L' eq => ?_
    exact proceeds_write (piled_push rfl rfl) (by omega) (value (by omega) (by omega))
  · exact proceeds_failBefore rfl

/-- The value of a store is put on top of its targets. -/
theorem proceeds_assignedValue {old : List Directive} {m : Nat} {P : Piles} {f : Unit → Parser β}
    {Q : β → Nat → Nat → Piles → Prop} {a : Option Assignment} (bound : 2 * L + 1 ≤ n) (paid : old.length ≤ k)
    (gains : Rises F ρ m P) (reads : P.Become old ⟨F, .value :: (List.replicate m .value ++ ρ)⟩)
    (value : ∀ operation, a = some (.compound operation) →
      operation.effect = some (2, 1) ∧ operation.fillsField = false)
    (rest : ∀ L' k' P', L' < L → k ≤ k' + old.length → Rises F ρ (m + 1) P' → Proceeds stream (f ()) L' k' P' Q) :
    Proceeds stream (assignedValue parse old a >>= f) L k P Q := by
  refine proceeds_bind (R := fun _ L' k' P' => L' < L ∧ k ≤ k' + old.length ∧ Rises F ρ (m + 1) P') ?_
    fun _ L' k' P' h => rest L' k' P' h.1 h.2.1 h.2.2
  have targets : Rises F ρ m ⟨F, List.replicate m .value ++ ρ⟩ :=
    ⟨_, rfl, List.length_replicate, by simp +contextual [Piece.isTemp]⟩
  unfold assignedValue
  split
  · refine proceeds_bind (R := fun _ L' k' P' => L' = L ∧ k' = k - old.length ∧ P' = _)
      (proceeds_writes reads paid ⟨rfl, rfl, rfl⟩) ?_
    rintro _ _ _ _ ⟨rfl, rfl, rfl⟩
    refine proceeds_expression goals bound fun L' k' t fewer paid' temp => ?_
    exact proceeds_write (piled_join (value _ rfl).1 (value _ rfl).2 temp rfl) (by omega)
      ⟨fewer, by omega, targets.push rfl⟩
  · obtain ⟨τ, rfl, length, temps⟩ := gains
    refine proceeds_mono (goals (.expression .assignment) L k _ bound le_rfl) ?_
    rintro _ L' k' _ ⟨fewer, paid', t, temp, rfl⟩
    exact ⟨fewer, by omega, .push ⟨τ, rfl, length, temps⟩ temp⟩

theorem proceeds_member {t : Piece} (temp : t.isTemp) (canAssign : Bool) (bound : 2 * L + 1 ≤ n) (paid : 16 ≤ k) :
    Proceeds stream (member parse canAssign) L k ⟨F, t :: ρ⟩ fun _ => Valued L k F ρ := by
  have value {L' k' : Nat} (few : L' ≤ L) (paid' : k ≤ k' + 12) : Valued L k F ρ L' k' ⟨F, .value :: ρ⟩ :=
    ⟨few, paid', .value, rfl, rfl⟩
  refine proceeds_expectMember fun name L₁ eq => ?_
  refine proceeds_written (piled_quiet rfl) (by omega) ?_
  refine proceeds_currentKind fun kind more => ?_
  split
  · refine proceeds_written (piled_quiet rfl) (by omega) ?_
    refine proceeds_acceptAssignment fun a L₂ k₂ few₂ paid₂ operates => ?_
    have reads : Piles.Become ⟨F, t :: ρ⟩ [.plain .duplicate rfl, .getProperty name] ⟨F, [.value, .value] ++ ρ⟩ :=
      .cons (.here (.simple (τ := [t]) (show _ = some (_, 2) from rfl) rfl rfl (temps_singleton temp)))
        (.single (piled_change rfl rfl rfl))
    have target : Rises F ρ 1 ⟨F, t :: ρ⟩ := Rises.none.push temp
    refine proceeds_assignedValue goals (by omega) (by simp; omega) target reads operates
      fun L₃ k₃ P₃ fewer paid₃ gains => ?_
    obtain ⟨τ, rfl, length, temps⟩ := gains
    rw [List.length_cons, List.length_singleton] at paid₃
    exact proceeds_write (piled_effect rfl rfl rfl length temps) (by omega) (value (by omega) (by omega))
  · refine proceeds_accept rfl (fun L₂ eq' => ?_) ?_
    · refine proceeds_argumentList goals (by omega) fun argc L₃ k₃ τ fewer paid' length temps => ?_
      refine proceeds_write (piled_effect (τ := τ ++ [t]) rfl rfl (by simp) (by simp [length]) ?_) (by omega)
        (value (by omega) (by omega))
      simpa [or_imp, forall_and, temp] using temps
    · exact proceeds_write (piled_change rfl rfl temp) (by omega) (value (by omega) (by omega))

theorem proceeds_element {t : Piece} (temp : t.isTemp) (canAssign : Bool) (bound : 2 * L + 1 ≤ n) (paid : 16 ≤ k) :
    Proceeds stream (element parse canAssign) L k ⟨F, t :: ρ⟩ fun _ => Valued L k F ρ := by
  have value {L' k' : Nat} (few : L' ≤ L) (paid' : k ≤ k' + 12) : Valued L k F ρ L' k' ⟨F, .value :: ρ⟩ :=
    ⟨few, paid', .value, rfl, rfl⟩
  refine proceeds_expression goals (by omega) fun L₁ k₁ u few₁ paid₁ temp₁ => ?_
  refine proceeds_expect rfl fun L₂ eq => ?_
  refine proceeds_currentKind fun kind more => ?_
  split
  · refine proceeds_written (piled_quiet rfl) (by omega) ?_
    refine proceeds_acceptAssignment fun a L₃ k₃ few₃ paid₃ operates => ?_
    have targets : Rises F ρ 2 ⟨F, u :: t :: ρ⟩ := (Rises.none.push temp).push temp₁
    have reads : Piles.Become ⟨F, u :: t :: ρ⟩ [.plain .duplicatePair rfl, .plain .getIndex rfl]
        ⟨F, [.value, .value, .value] ++ ρ⟩ :=
      .cons (.here (.simple (τ := [u, t]) (show _ = some (_, 4) from rfl) rfl rfl (by simp [temp, temp₁])))
        (.single (piled_join rfl rfl rfl rfl))
    refine proceeds_assignedValue goals (by omega) (by simp; omega) targets reads operates
      fun L₄ k₄ P₄ fewer paid₄ gains => ?_
    obtain ⟨τ, rfl, length, temps⟩ := gains
    rw [List.length_cons, List.length_singleton] at paid₄
    exact proceeds_write (piled_effect rfl rfl rfl length temps) (by omega) (value (by omega) (by omega))
  · exact proceeds_write (piled_join rfl rfl temp₁ temp) (by omega) (value (by omega) (by omega))

omit goals in
theorem proper_next (level : Precedence) : 1 ≤ level.next.rank := by cases level <;> decide

omit goals in
/-- Every other token that may continue an expression is an operator with two operands. -/
theorem become_binaryOperation {kind : TokenKind} (continues : 1 ≤ kind.infixLevel.rank) (call : kind ≠ .openParen)
    (dot : kind ≠ .dot) (index : kind ≠ .openBracket) (and : kind ≠ .andWord) (or : kind ≠ .orWord) {t u : Piece}
    (temp : t.isTemp) (temp' : u.isTemp) :
    Piles.Become ⟨F, u :: t :: ρ⟩ (binaryOperation kind) ⟨F, .value :: ρ⟩ ∧ (binaryOperation kind).length ≤ 2 := by
  have one {d : Directive} (effect : d.effect = some (2, 1)) (other : d.fillsField = false) :
      Piles.Become ⟨F, u :: t :: ρ⟩ [d] ⟨F, .value :: ρ⟩ := .single (piled_join effect other temp' temp)
  have two {d : Directive} (effect : d.effect = some (2, 1)) (other : d.fillsField = false) :
      Piles.Become ⟨F, u :: t :: ρ⟩ [d, .plain .not rfl] ⟨F, .value :: ρ⟩ :=
    (one effect other).trans (.single (piled_change rfl rfl rfl))
  cases kind <;> first
    | contradiction
    | exact ⟨one rfl rfl, by decide⟩
    | exact ⟨two rfl rfl, by decide⟩

/-- What has been read so far is a value, and one more operator is applied to it. -/
theorem proceedsAt_infixRule {c : Cursor} {t : Piece} (on : c.On stream) (left : c.ahead.length = L)
    (continues : 1 ≤ c.previous.kind.infixLevel.rank) (temp : t.isTemp) (canAssign : Bool) (bound : 2 * L + 1 ≤ n)
    (paid : 16 ≤ k) : ProceedsAt stream c (infixRule parse canAssign) L k ⟨F, t :: ρ⟩ fun _ => Valued L k F ρ := by
  have value {L' k' : Nat} (few : L' ≤ L) (paid' : k ≤ k' + 12) : Valued L k F ρ L' k' ⟨F, .value :: ρ⟩ :=
    ⟨few, paid', .value, rfl, rfl⟩
  have short {d : Directive} (opens : d = .andThen ∨ d = .orElse) {level : Precedence} (proper : 1 ≤ level.rank) :
      Proceeds stream (do write d; parse (.expression level); write .shortEnd) L k ⟨F, t :: ρ⟩
        fun _ => Valued L k F ρ := by
    refine proceeds_written (.here (.short opens temp)) (by omega) ?_
    refine proceeds_operand goals proper (by omega) fun L' k' u fewer paid' temp' => ?_
    exact proceeds_write (.here (.shortEnd temp')) (by omega) (value (by omega) (by omega))
  refine proceedsAt_previousToken ?_
  dsimp only
  split
  · refine proceeds_argumentList goals (by omega) (fun argc L' k' τ fewer paid' length temps => ?_) c on left
    refine proceeds_write (piled_effect (τ := τ ++ [t]) rfl rfl (by simp) (by simp [length]) ?_) (by omega)
      (value (by omega) (by omega))
    simpa [or_imp, forall_and, temp] using temps
  · exact proceeds_member goals temp canAssign bound paid c on left
  · exact proceeds_element goals temp canAssign bound paid c on left
  · exact short (.inl rfl) (by simp [Precedence.rank]) c on left
  · exact short (.inr rfl) (by simp [Precedence.rank]) c on left
  · rename_i call dot index and or
    refine proceeds_operand goals ?_ (by omega) (fun L' k' u fewer paid' temp' => ?_) c on left
    · exact proper_next _
    · obtain ⟨become, few⟩ := become_binaryOperation (F := F) (ρ := ρ) continues call dot index and or temp temp'
      exact proceeds_writes become (by omega) (value (by omega) (by omega))

theorem proceeds_climb {level : Precedence} (proper : 1 ≤ level.rank) (bound : 2 * L ≤ n) :
    Proceeds stream (climb parse level) L k ⟨F, ρ⟩ fun _ => (Goal.expression level).Post L k ⟨F, ρ⟩ := by
  intro c on left
  unfold climb
  dsimp only
  cases L with
  | zero =>
    -- the end of input begins no expression
    have eof : c.current.kind = .eof := by
      by_contra other
      obtain ⟨t, ts, ahead⟩ := on.ahead other
      rw [ahead] at left
      cases left
    have ended : c.advance.previous.kind = .eof := by rwa [previous_advance]
    have stays : Progress stream c 0 k ⟨F, ρ⟩ c.advance 0 k ⟨F, ρ⟩ :=
      ⟨on.advance, by rw [length_advance, left], [], .refl (steps_advance c), .nil _, by simp⟩
    refine proceedsAt_bind (R := fun _ L' k' P' => L' = 0 ∧ P' = ⟨F, ρ⟩) ⟨0, k, _, ⟨rfl, rfl⟩, stays⟩ ?_
    rintro _ _ _ k' _ ⟨⟩ on' left' ⟨rfl, rfl⟩
    refine proceedsAt_bind (R := fun _ _ _ _ => False) ?_ fun _ _ _ _ _ _ _ _ => False.elim
    refine proceedsAt_previousToken ?_
    rw [ended]
    have fails : Proceeds stream (failBefore (.expected "expression") : Parser Unit) 0 k' ⟨F, ρ⟩
        fun _ _ _ _ => False := proceeds_failBefore rfl
    exact fails _ on' left'
  | succ L =>
    refine proceeds_advance (Nat.succ_pos L) (fun L' eq => ?_) c on left
    obtain rfl := Nat.succ.inj eq
    refine proceeds_bind (proceeds_prefixRule goals _ (by omega) (by omega)) ?_
    rintro _ L₁ k₁ _ ⟨few₁, paid₁, t, temp, rfl⟩
    refine proceeds_bind (proceeds_repeatWhile (fun P' => ∃ t, t.isTemp ∧ P' = ⟨F, t :: ρ⟩) ⟨t, temp, rfl⟩ ?_) ?_
    · rintro L₂ k₂ _ few₂ paid₂ ⟨u, temp₂, rfl⟩ c on left
      refine proceedsAt_currentKind on left fun more => ?_
      split
      · rename_i continues
        refine proceedsAt_advance on left (more ?_) fun L₃ eq on' left' previous => ?_
        · intro eof
          rw [eof] at continues
          exact absurd (proper.trans continues) (by decide)
        rw [← previous] at continues
        refine proceedsAt_bind (proceedsAt_infixRule goals on' left' (proper.trans continues) temp₂ _ (by omega)
          (by omega)) ?_
        rintro _ c' L₄ k₄ _ - on'' left'' ⟨few₄, paid₄, v, temp₄, rfl⟩
        exact proceeds_pure ⟨fun _ => by omega, by omega, by omega, v, temp₄, rfl⟩ c' on'' left''
      · exact proceeds_pure ⟨nofun, le_rfl, le_rfl, u, temp₂, rfl⟩ c on left
    · rintro _ L₂ k₂ _ ⟨few₂, paid₂, u, temp₂, rfl⟩
      have done : (Goal.expression level).Post (L + 1) k ⟨F, ρ⟩ L₂ k₂ ⟨F, u :: ρ⟩ :=
        ⟨by omega, by omega, u, temp₂, rfl⟩
      refine proceeds_currentKind fun kind _ => ?_
      split
      · exact proceeds_failHere rfl
      · exact proceeds_pure done

end Expressions

end ScriptEngine
