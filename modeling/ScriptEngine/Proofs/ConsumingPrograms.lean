import ScriptEngine.Proofs.ConsumingStatements
import ScriptEngine.Proofs.Weaving

/-!
# Types and programs come to an end

The elements of a type body leave the type on top of the pile. Within field declarations
the init chain is open, and that is all that a type body has to remember. Every goal is
read within a bound of twice the number of tokens ahead, and two more; so is a program.
-/
namespace ScriptEngine

open Grammar Piece

/-- Between the elements of a type body: `σ` is the pile with the type on top. -/
structure InTypeBody (F : Site) (σ : List Piece) (b : TypeBody) (P : Piles) : Prop where
  stage : b.chainOpen = true ↔ b.stage = .var
  piles : P = if b.chainOpen then ⟨F.within σ .initChain {}, []⟩ else ⟨F, σ⟩

section Stages
variable {β : Type} {stream : List Token} {L k : Nat} {F : Site} {σ : List Piece} {b b' : TypeBody} {P : Piles}

theorem InTypeBody.outside (h : InTypeBody F σ b P) (other : b.stage ≠ .var) : P = ⟨F, σ⟩ := by
  have closed : b.chainOpen = false := by simpa [other] using h.stage
  simpa [closed] using h.piles

theorem InTypeBody.inside (h : InTypeBody F σ b P) (var : b.stage = .var) : P = ⟨F.within σ .initChain {}, []⟩ := by
  rw [h.piles, if_pos (h.stage.mpr var)]

theorem InTypeBody.unmoved (h : InTypeBody F σ b P) (same : Unmoved b b') : InTypeBody F σ b' P :=
  ⟨by rw [same.1, same.2]; exact h.stage, by rw [same.2]; exact h.piles⟩

theorem proceeds_closeInitChain {f : TypeBody → Parser β} {Q : β → Nat → Nat → Piles → Prop} (bare : Bare σ)
    (h : InTypeBody F σ b P) (paid : 1 ≤ k)
    (rest : ∀ k', k ≤ k' + 1 → Proceeds stream (f { b with chainOpen := false }) L k' ⟨F, σ⟩ Q) :
    Proceeds stream (closeInitChain b >>= f) L k P Q := by
  refine proceeds_bind (R := fun b' L' k' P' => b' = { b with chainOpen := false } ∧ L' = L ∧ k ≤ k' + 1 ∧
    P' = ⟨F, σ⟩) ?_ ?_
  · unfold closeInitChain
    split
    · rename_i chain
      rw [h.piles, if_pos chain]
      exact proceeds_written (.endInitChain bare) (by omega) (proceeds_pure ⟨rfl, rfl, by omega, rfl⟩)
    · rename_i chain
      have closed : b.chainOpen = false := by simpa using chain
      rw [h.piles, if_neg chain]
      exact proceeds_pure ⟨by rw [← closed], rfl, by omega, rfl⟩
  · rintro _ L' k' _ ⟨rfl, rfl, paid', rfl⟩
    exact rest k' paid'

theorem proceeds_enterStage {stage : Grammar.Stage} {f : TypeBody → Parser β} {Q : β → Nat → Nat → Piles → Prop}
    (bare : Bare σ) (h : InTypeBody F σ b P) (paid : 1 ≤ k) (rest : ∀ b' k' P', k ≤ k' + 1 → InTypeBody F σ b' P' →
      b'.stage = stage → Proceeds stream (f b') L k' P' Q) : Proceeds stream (enterStage b stage >>= f) L k P Q := by
  refine proceeds_bind (R := fun b' L' k' P' => L' = L ∧ k ≤ k' + 1 ∧ InTypeBody F σ b' P' ∧ b'.stage = stage) ?_ ?_
  · unfold enterStage
    dsimp only
    split
    swap
    · exact proceeds_failing (proceeds_failHere rfl)
    split
    · exact proceeds_failing (proceeds_failHere rfl)
    split
    · rename_i leaving
      refine proceeds_closeInitChain bare h paid fun k' paid' => ?_
      rw [if_neg (by simp [leaving.2])]
      exact proceeds_pure ⟨rfl, paid', ⟨by simp [leaving.2], rfl⟩, rfl⟩
    split
    · rename_i entering
      rw [h.outside entering.2]
      exact proceeds_written (.begins rfl fun _ => rfl) (by omega)
        (proceeds_pure ⟨rfl, by omega, ⟨by simp [entering.1], rfl⟩, rfl⟩)
    · refine proceeds_pure ⟨rfl, by omega, ⟨?_, h.piles⟩, rfl⟩
      rw [h.stage]
      by_cases hv : stage = .var <;> simp_all
  · rintro b' L' k' P' ⟨rfl, paid', h', at_⟩
    exact rest b' k' P' paid' h' at_

/-- There is an element only ahead of another token. -/
theorem proceeds_elementStage {policy : StagePolicy} {f : Grammar.Stage → Parser β} {Q : β → Nat → Nat → Piles → Prop}
    (rest : ∀ stage, 0 < L → Proceeds stream (f stage) L k P Q) :
    Proceeds stream (elementStage policy >>= f) L k P Q := by
  refine proceeds_bind (R := fun _ L' k' P' => 0 < L' ∧ L' = L ∧ k' = k ∧ P' = P) ?_ ?_
  · refine proceeds_currentKind fun kind more => ?_
    split
    case h_8 =>
      have found : 0 < L := more (by simp)
      refine proceeds_secondKind fun second => ?_
      split
      · exact proceeds_pure ⟨found, rfl, rfl, rfl⟩
      · exact proceeds_pure ⟨found, rfl, rfl, rfl⟩
    case h_9 => exact proceeds_failHere rfl
    all_goals exact proceeds_pure ⟨more (by simp), rfl, rfl, rfl⟩
  · rintro stage _ _ _ ⟨found, rfl, rfl, rfl⟩
    exact rest stage found

end Stages

section Types
variable {β : Type} {stream : List Token} {n L k : Nat} {F : Site} {ρ : List Piece} {parse : Goal → Parser Unit}
variable {b : TypeBody}

/-- An element leaves the pile as it was, at the expense of its own tokens. -/
def Elemental (L k : Nat) (P : Piles) (b b' : TypeBody) (L' k' : Nat) (P' : Piles) : Prop :=
  L' < L ∧ k + 4 ≤ k' ∧ P' = P ∧ Unmoved b b'

variable (goals : Suffices stream n parse)
include goals

theorem proceeds_goalFunction {kind : FunctionKind} {name : String} {m : Modifiers} {fields : List String}
    {f : Unit → Parser β} {Q : β → Nat → Nat → Piles → Prop} (bound : 2 * L + 1 ≤ n) (ready : 0 < k)
    (impure : kind.fills → m.isPure = false)
    (rest : ∀ L' k', L' < L → k + 4 ≤ k' → Proceeds stream (f ()) L' k' ⟨F, .value :: ρ⟩ Q) :
    Proceeds stream (parse (.function kind name m fields) >>= f) L k ⟨F, ρ⟩ Q := by
  refine proceeds_bind (goals (.function kind name m fields) L k ⟨F, ρ⟩ bound ⟨ready, impure⟩) ?_
  rintro _ L' k' _ ⟨fewer, paid, rfl⟩
  exact rest L' k' fewer paid

theorem proceeds_staticElement (bound : 2 * L ≤ n) (more : 0 < L) :
    Proceeds stream (staticElement parse) L k ⟨F, .value :: ρ⟩ fun _ L' k' P' =>
      L' < L ∧ k + 4 ≤ k' ∧ P' = ⟨F, .value :: ρ⟩ := by
  refine proceeds_advance more fun L₁ eq => proceeds_accept rfl (fun L₂ eq' => ?_) ?_
  · refine proceeds_bind (proceeds_commaSeparated (fun P' => P' = ⟨F, .value :: ρ⟩) rfl ?_) ?_
    · rintro L' k' _ few paid rfl
      refine proceeds_expectName fun name L'' eq'' => ?_
      refine proceeds_written (piled_quiet rfl) (by omega) ?_
      refine proceeds_initializer goals (by omega) (by omega) fun L₃ k₃ t few₃ paid₃ temp => ?_
      exact proceeds_write (piled_join rfl rfl temp rfl) (by omega) ⟨by omega, by omega, rfl⟩
    · rintro _ L' k' _ ⟨few, paid, rfl⟩
      exact proceeds_last rfl fun L'' eq'' => ⟨by omega, by omega, rfl⟩
  · refine proceeds_bind (proceeds_modifiers _) ?_
    rintro m L' k' _ ⟨few, paid, rfl⟩
    refine proceeds_expectName fun name L'' eq'' => ?_
    refine proceeds_written (piled_quiet rfl) (by omega) ?_
    refine proceeds_goalFunction goals (by omega) (by omega) nofun fun L₃ k₃ few₃ paid₃ => ?_
    exact proceeds_write (piled_join rfl rfl rfl rfl) (by omega) ⟨by omega, by omega, rfl⟩

omit goals in
theorem proceeds_typeList {what after : String} {use : Directive} (effect : use.effect = some (2, 1))
    (other : use.fillsField = false) (more : 0 < L) :
    Proceeds stream (typeList what after use) L k ⟨F, .value :: ρ⟩ fun _ L' k' P' =>
      L' < L ∧ k + 4 ≤ k' ∧ P' = ⟨F, .value :: ρ⟩ := by
  refine proceeds_advance more fun L₁ eq => ?_
  refine proceeds_bind (proceeds_commaSeparated (fun P' => P' = ⟨F, .value :: ρ⟩) rfl ?_) ?_
  · rintro L' k' _ few paid rfl
    refine proceeds_expectName fun name L'' eq' => ?_
    refine proceeds_written (piled_push rfl rfl) (by omega) ?_
    exact proceeds_write (piled_join effect other rfl rfl) (by omega) ⟨by omega, by omega, rfl⟩
  · rintro _ L' k' _ ⟨few, paid, rfl⟩
    exact proceeds_last rfl fun L'' eq' => ⟨by omega, by omega, rfl⟩

omit goals in
theorem proceeds_leadingNumber {P : Piles} {f : Option Number → Parser β} {Q : β → Nat → Nat → Piles → Prop}
    (rest : ∀ given, Proceeds stream (f given) L k P Q) : Proceeds stream (leadingNumber? >>= f) L k P Q := by
  refine proceeds_bind (R := fun _ L' k' P' => L' = L ∧ k' = k ∧ P' = P) (proceeds_get fun c => ?_) ?_
  · dsimp only
    split <;> exact proceeds_pure ⟨rfl, rfl, rfl⟩
  · rintro given _ _ _ ⟨rfl, rfl, rfl⟩
    exact rest given

theorem proceeds_enumValueElement (bound : 2 * L ≤ n) :
    Proceeds stream (enumValueElement parse b) L k ⟨F, .value :: ρ⟩ (Elemental L k ⟨F, .value :: ρ⟩ b) := by
  have entry (name : String) (b' : TypeBody) (same : Unmoved b b') (L' k' : Nat) (t : Piece) (few : L' < L)
      (paid : k + 5 ≤ k') (temp : t.isTemp) : Proceeds stream (do
        write (.enumValue name)
        unless ← accept .comma do
          let _ ← accept .semicolon
        return b') L' k' ⟨F, t :: .value :: ρ⟩ (Elemental L k ⟨F, .value :: ρ⟩ b) := by
    refine proceeds_written (piled_join rfl rfl temp rfl) (by omega) ?_
    refine proceeds_accept rfl (fun L'' eq => proceeds_pure ⟨by omega, by omega, rfl, same⟩) ?_
    exact proceeds_accept rfl (fun L'' eq => proceeds_pure ⟨by omega, by omega, rfl, same⟩)
      (proceeds_pure ⟨by omega, by omega, rfl, same⟩)
  refine proceeds_expectName fun name L₁ eq => ?_
  refine proceeds_written (piled_quiet rfl) (by omega) ?_
  refine proceeds_accept rfl (fun L₂ eq' => ?_) ?_
  · refine proceeds_leadingNumber fun given => ?_
    dsimp only
    split
    · refine proceeds_expression goals (by omega) fun L₃ k₃ t few₃ paid₃ temp => ?_
      refine entry name _ ?_ L₃ k₃ t (by omega) (by omega) temp
      exact ⟨rfl, rfl⟩
    · exact proceeds_expression goals (by omega) fun L₃ k₃ t few₃ paid₃ temp =>
        entry name b ⟨rfl, rfl⟩ L₃ k₃ t (by omega) (by omega) temp
  · refine proceeds_written (piled_push rfl rfl) (by omega) ?_
    refine entry name _ ?_ L₁ (k + 16 - 1 - 1) .value (by omega) (by omega) rfl
    exact ⟨rfl, rfl⟩

/-- The fields of an object are filled by code of its init chain. -/
theorem proceeds_varElement (fills : F.kind.fills) (bound : 2 * L ≤ n) (more : 0 < L) :
    Proceeds stream (varElement parse b) L k ⟨F, ρ⟩ (Elemental L k ⟨F, ρ⟩ b) := by
  refine proceeds_advance more fun L₁ eq => ?_
  refine proceeds_bind (proceeds_repeatFrom (fun b' P' => P' = ⟨F, ρ⟩ ∧ Unmoved b b') ⟨rfl, rfl, rfl⟩ ?_) ?_
  · rintro b' L' k' _ few paid ⟨rfl, same⟩
    refine proceeds_expectName fun name L'' eq' => ?_
    dsimp only
    split
    · exact proceeds_failing (proceeds_failBefore rfl)
    refine proceeds_written (piled_quiet rfl) (by omega) ?_
    refine proceeds_written (piled_push rfl rfl) (by omega) ?_
    refine proceeds_initializer goals (by omega) (by omega) fun L₃ k₃ t few₃ paid₃ temp => ?_
    refine proceeds_written (.here (.preset temp rfl fills)) (by omega) ?_
    exact proceeds_comma (by omega) (by omega) ⟨rfl, same⟩
  · rintro b' L' k' _ ⟨few, paid, rfl, same⟩
    exact proceeds_expect rfl fun L'' eq' => proceeds_pure ⟨by omega, by omega, rfl, same⟩

theorem proceeds_initElement (bound : 2 * L ≤ n) (more : 0 < L) :
    Proceeds stream (initElement parse b) L k ⟨F, .value :: ρ⟩ (Elemental L k ⟨F, .value :: ρ⟩ b) := by
  refine proceeds_advance more fun L₁ eq => ?_
  dsimp only
  split
  · exact proceeds_failing (proceeds_failBefore rfl)
  refine proceeds_written (piled_quiet rfl) (by omega) ?_
  refine proceeds_goalFunction goals (by omega) (by omega) (fun _ => rfl) fun L₂ k₂ few₂ paid₂ => ?_
  refine proceeds_written (piled_join rfl rfl rfl rfl) (by omega) ?_
  exact proceeds_pure ⟨by omega, by omega, rfl, rfl, rfl⟩

theorem proceeds_methodElement (bound : 2 * L ≤ n) :
    Proceeds stream (methodElement parse) L k ⟨F, .value :: ρ⟩ fun _ L' k' P' =>
      L' < L ∧ k + 4 ≤ k' ∧ P' = ⟨F, .value :: ρ⟩ := by
  refine proceeds_bind (proceeds_modifiers _) ?_
  rintro m L' k' _ ⟨few, paid, rfl⟩
  refine proceeds_expectName fun name L'' eq => ?_
  refine proceeds_written (piled_quiet rfl) (by omega) ?_
  refine proceeds_goalFunction goals (by omega) (by omega) nofun fun L₃ k₃ few₃ paid₃ => ?_
  exact proceeds_write (piled_join rfl rfl rfl rfl) (by omega) ⟨by omega, by omega, rfl⟩

/-- An element has tokens of its own. -/
theorem proceeds_typeElement {P : Piles} (bare : Bare ρ) (h : InTypeBody F (.value :: ρ) b P) (bound : 2 * L ≤ n)
    (paid : 1 ≤ k) : Proceeds stream (typeElement parse b) L k P fun b' L' k' P' =>
      L' < L ∧ k ≤ k' ∧ InTypeBody F (.value :: ρ) b' P' := by
  have bare' : Bare (.value :: ρ) := bare_cons.mpr ⟨rfl, bare⟩
  refine proceeds_elementStage fun stage more => proceeds_enterStage bare' h paid fun b₁ k₁ P₁ paid₁ h₁ at_ => ?_
  have outside {x : Parser Unit} (other : stage ≠ .var) (inner : Proceeds stream x L k₁ ⟨F, .value :: ρ⟩
      fun _ L' k' P' => L' < L ∧ k₁ + 4 ≤ k' ∧ P' = ⟨F, .value :: ρ⟩) :
      Proceeds stream (do x; return b₁) L k₁ P₁ fun b' L' k' P' => L' < L ∧ k ≤ k' ∧ InTypeBody F (.value :: ρ) b' P' := by
    have eq := h₁.outside (at_ ▸ other)
    subst eq
    refine proceeds_bind inner ?_
    rintro _ L' k' _ ⟨fewer, paid', rfl⟩
    exact proceeds_pure ⟨fewer, by omega, h₁⟩
  have element {x : Parser TypeBody} (inner : Proceeds stream x L k₁ P₁ (Elemental L k₁ P₁ b₁)) :
      Proceeds stream x L k₁ P₁ fun b' L' k' P' => L' < L ∧ k ≤ k' ∧ InTypeBody F (.value :: ρ) b' P' := by
    refine proceeds_mono inner ?_
    rintro b' L' k' _ ⟨fewer, paid', rfl, same⟩
    exact ⟨fewer, by omega, h₁.unmoved same⟩
  cases stage with
  | static => exact outside nofun (proceeds_staticElement goals bound more)
  | mixin => exact outside nofun (proceeds_typeList rfl rfl more)
  | signs => exact outside nofun (proceeds_typeList rfl rfl more)
  | enumValue =>
    refine element ?_
    rw [h₁.outside (by simp [at_])]
    exact proceeds_enumValueElement goals bound
  | var =>
    refine element ?_
    rw [h₁.inside at_]
    exact proceeds_varElement goals rfl bound more
  | init =>
    refine element ?_
    rw [h₁.outside (by simp [at_])]
    exact proceeds_initElement goals bound more
  | begin | method => exact outside nofun (proceeds_methodElement goals bound)

theorem proceeds_typeDeclaration (policy : StagePolicy) (bare : Bare ρ) (bound : 2 * L ≤ n) :
    Proceeds stream (typeDeclaration parse policy) L k ⟨F, ρ⟩ fun _ => Stated L k ⟨F, ρ⟩ := by
  refine proceeds_expectName fun name L₁ eq => ?_
  refine proceeds_written (.here (.beginType bare)) (by omega) ?_
  refine proceeds_bind (R := fun _ L' k' P' => L' ≤ L₁ ∧ k + 14 ≤ k' ∧
    ∃ inherits, P' = ⟨F, .typeBody inherits :: ρ⟩) ?_ ?_
  · refine proceeds_accept rfl (fun L₂ eq' => ?_) (proceeds_pure ⟨le_rfl, by omega, false, rfl⟩)
    rw [if_pos rfl]
    split
    · exact proceeds_failing (proceeds_failBefore rfl)
    refine proceeds_expectName fun parent L₃ eq'' => ?_
    dsimp only
    split
    · exact proceeds_failing (proceeds_failBefore rfl)
    · exact proceeds_write (.here (.inheritFrom bare)) (by omega) ⟨by omega, by omega, true, rfl⟩
  rintro _ L₂ k₂ _ ⟨few₂, paid₂, inherits, rfl⟩
  have inner : Bare (.typeBody inherits :: ρ) := bare_cons.mpr ⟨rfl, bare⟩
  have inner' : Bare (.value :: .typeBody inherits :: ρ) := bare_cons.mpr ⟨rfl, inner⟩
  refine proceeds_written (piled_push rfl rfl) (by omega) ?_
  refine proceeds_expect rfl fun L₃ eq' => ?_
  refine proceeds_bind (proceeds_repeatFrom (InTypeBody F (.value :: .typeBody inherits :: ρ)) ⟨by simp, rfl⟩ ?_) ?_
  · intro b L' k' P' few paid h
    refine proceeds_currentKind fun kind _ => ?_
    split
    · exact proceeds_pure ⟨nofun, le_rfl, le_rfl, h⟩
    · refine proceeds_bind (proceeds_typeElement goals inner h (by omega) (by omega)) ?_
      rintro b' L'' k'' P'' ⟨fewer, paid', h'⟩
      exact proceeds_pure ⟨fun _ => fewer, fewer.le, paid', h'⟩
  · rintro b L' k' P' ⟨few, paid, h⟩
    refine proceeds_expect rfl fun L'' eq'' => ?_
    refine proceeds_closeInitChain inner' h (by omega) fun k'' paid' => ?_
    exact proceeds_write (.here (.endType rfl bare)) (by omega) ⟨by omega, by omega, rfl⟩

/-! ## Programs -/

theorem proceeds_functionDeclaration (bare : Bare ρ) (bound : 2 * L ≤ n) :
    Proceeds stream (functionDeclaration parse) L k ⟨F, ρ⟩ fun _ => Stated L k ⟨F, ρ⟩ := by
  have named (m : Modifiers) (L₁ k₁ : Nat) (few₁ : L₁ ≤ L) (paid₁ : k ≤ k₁) : Proceeds stream (do
      let name ← expectName "function name"
      write (.declareFunction name)
      parse (.function .function name m [])
      write (.define name)) L₁ k₁ ⟨F, ρ⟩ fun _ => Stated L k ⟨F, ρ⟩ := by
    refine proceeds_expectName fun name L₂ eq => ?_
    refine proceeds_written (.here (.still rfl bare)) (by omega) ?_
    refine proceeds_goalFunction goals (by omega) (by omega) nofun fun L₃ k₃ few₃ paid₃ => ?_
    exact proceeds_write (.here (.definition rfl rfl bare)) (by omega) ⟨by omega, by omega, rfl⟩
  refine proceeds_previousToken fun token => ?_
  dsimp only
  split
  · refine proceeds_bind (proceeds_modifiers _) ?_
    rintro m L₁ k₁ _ ⟨few₁, paid₁, rfl⟩
    exact proceeds_expect rfl fun L₂ eq => named m L₂ _ (by omega) (by omega)
  · exact named _ L k le_rfl le_rfl

theorem proceeds_testDeclaration (bare : Bare ρ) (bound : 2 * L ≤ n) :
    Proceeds stream (testDeclaration parse) L k ⟨F, ρ⟩ fun _ => Stated L k ⟨F, ρ⟩ := by
  refine proceeds_expectName fun name L₁ eq => ?_
  refine proceeds_written (.begins rfl nofun) (by omega) ?_
  refine proceeds_expect rfl fun L₂ eq' => ?_
  refine proceeds_block goals bare_nil (by omega) fun L₃ k₃ few₃ paid₃ => ?_
  exact proceeds_write (.endTest bare) (by omega) ⟨by omega, by omega, rfl⟩

/-- The rows of a test case are piled up on the function around it. -/
theorem proceeds_caseDeclaration (bare : Bare ρ) (bound : 2 * L ≤ n) (paid : 16 ≤ k) :
    Proceeds stream (caseDeclaration parse) L k ⟨F, ρ⟩ fun _ => Stated L k ⟨F, ρ⟩ := by
  have body (name : String) (hasRows : Bool) (τ : List Piece) (length : τ.length = if hasRows then 1 else 0)
      (temps : ∀ p ∈ τ, p.isTemp) (L₁ k₁ : Nat) (few₁ : L₁ < L) (paid₁ : k ≤ k₁) : Proceeds stream (do
        expect .openBrace "'\x7b' before test case body"
        block parse
        write (.endCase name hasRows)) L₁ k₁ ⟨F.within (τ ++ ρ) .function {}, []⟩ fun _ => Stated L k ⟨F, ρ⟩ := by
    refine proceeds_expect rfl fun L₂ eq' => ?_
    refine proceeds_block goals bare_nil (by omega) fun L₃ k₃ few₃ paid₃ => ?_
    exact proceeds_write (.endCase length temps bare) (by omega) ⟨by omega, by omega, rfl⟩
  refine proceeds_written (.here (.still rfl bare)) (by omega) ?_
  refine proceeds_expectName fun name L₁ eq => ?_
  refine proceeds_written (.begins rfl nofun) (by omega) ?_
  refine proceeds_accept rfl (fun L₂ eq' => ?_) (body name false [] rfl (by simp) L₁ _ (by omega) (by omega))
  refine proceeds_bind (proceeds_parameters bare_nil) ?_
  rintro _ L₃ k₃ _ ⟨few₃, paid₃, rfl⟩
  refine proceeds_accept rfl (fun L₄ eq'' => ?_) (body name false [] rfl (by simp) L₃ _ (by omega) (by omega))
  refine proceeds_written (.stepOut (F := F) (ρ := ρ)) (by omega) ?_
  refine proceeds_expression goals (by omega) fun L₅ k₅ t few₅ paid₅ temp => ?_
  refine proceeds_expect rfl fun L₆ eq₆ => ?_
  refine proceeds_written .stepIn (by omega) ?_
  exact body name true [t] rfl (temps_singleton temp) L₆ _ (by omega) (by omega)

theorem proceeds_declaration (bare : Bare ρ) (bound : 2 * L + 1 ≤ n) :
    Proceeds stream (declaration parse) L k ⟨F, ρ⟩ fun _ => Goal.declaration.Post L k ⟨F, ρ⟩ := by
  refine proceeds_currentKind fun kind more => ?_
  split
  swap
  · exact proceeds_statement goals bare bound
  rename_i rule found
  have real : kind ≠ .eof := fun eof => by
    rw [eof] at found
    cases found
  refine proceeds_advance (more real) fun L₁ eq => ?_
  have stated : Proceeds stream rule L₁ (k + 16) ⟨F, ρ⟩ fun _ => Stated L₁ (k + 16) ⟨F, ρ⟩ := by
    unfold declarationRule? at found
    split at found <;> cases found <;> first
      | exact proceeds_varStatement goals bare (by omega)
      | exact proceeds_functionDeclaration goals bare (by omega)
      | exact proceeds_typeDeclaration goals _ bare (by omega)
      | exact proceeds_testDeclaration goals bare (by omega)
      | exact proceeds_caseDeclaration goals bare (by omega) (by omega)
  refine proceeds_mono stated ?_
  rintro _ L' k' _ ⟨few, paid, rfl⟩
  exact ⟨by omega, by omega, rfl⟩

end Types

/-- A goal is read within a bound of twice the number of tokens ahead. -/
theorem suffices_parseGoal (stream : List Token) (n : Nat) : Suffices stream n (parseGoal n) := by
  induction n with
  | zero =>
    intro goal L k P bound
    cases goal <;> cases bound
  | succ n ih =>
    rintro goal L k ⟨F, ρ⟩ bound ready
    cases goal with
    | declaration => exact proceeds_declaration ih ready (by simp [Goal.rank] at bound; omega)
    | statement => exact proceeds_statement ih ready (by simp [Goal.rank] at bound; omega)
    | expression level => exact proceeds_climb ih ready (by simp [Goal.rank] at bound; omega)
    | function kind name m fields =>
      exact proceeds_function ih kind name m fields (by simp [Goal.rank] at bound; omega) ready.1 ready.2

/-- The directives of a program pile up nothing, and there are at most sixteen for each token, and one more. -/
theorem proceeds_program {stream : List Token} {bound L : Nat} (enough : 2 * L + 2 ≤ bound) :
    Proceeds stream (program bound) L 1 .initial fun _ _ _ P' => P' = .initial := by
  refine proceeds_bind (proceeds_repeatWhile (fun P' => P' = .initial) rfl ?_) ?_
  · rintro L' k' _ few paid rfl
    refine proceeds_check fun last => ?_
    split
    · exact proceeds_pure ⟨nofun, le_rfl, le_rfl, rfl⟩
    refine proceeds_bind (suffices_parseGoal stream bound .declaration L' k' .initial ?_ bare_nil) ?_
    · simp [Goal.rank]
      omega
    · rintro _ L'' k'' _ ⟨fewer, paid', rfl⟩
      exact proceeds_pure ⟨fun _ => fewer, fewer.le, by omega, rfl⟩
  · rintro _ L' k' _ ⟨few, paid, rfl⟩
    exact proceeds_write .endScript (by omega) rfl

end ScriptEngine
