import ScriptEngine.Proofs.Reading

/-!
# Expressions leave one value

Every rule of the expression grammar that succeeds leaves the outline as it was,
with one more value on top. The rules take the parser of goals as a parameter,
and `Reads` is what they may rely on.
-/
namespace ScriptEngine

open Grammar Outline

/-- The outline behind declarations. -/
def Declared (O O' : Outline) : Prop :=
  ∃ new started, O' = { O with here := { O.here with vars := new ++ O.here.vars, started } } ∧
    (O.here.inScope = false → new = [])

/-- What the goals of the grammar do to an outline. -/
structure Reads (parse : Goal → Parser Unit) : Prop where
  expression : ∀ level O, 1 ≤ level.rank → O.Plain →
    Leads (parse (.expression level)) O fun _ M => M = O.pushes 1
  statement : ∀ O, O.ready = false → O.here.Calm →
    Leads (parse .statement) O fun _ M => M = O.pushes 0
  declaration : ∀ O, O.ready = false → O.here.Calm → O.here.Declaring →
    Leads (parse .declaration) O fun _ M => Declared O M
  function : ∀ kind name m fields O, kind ≠ .script ∧ kind ≠ .initChain → O.ready = false → O.here.Usual →
    (O.here.pending.isFunction →
      O.here.temps = [] ∧ O.here.region = .none ∧ O.here.Declaring ∧ O.here.inScope) →
    Leads (parse (.function kind name m fields)) O
      fun _ M => M = { O with here := O.here.receive }

section Write
variable {O : Outline} {d : Directive}

theorem leads_level {L : Level} (move : LevelMove d O.here L) (ready : O.ready = false) :
    Leads (write d) O fun _ M => M = { O with here := L } :=
  leads_write (move_here move ready)

theorem leads_effect (k : Nat) {takes gives : Nat} (effect : d.effect = some (takes, gives))
    (free : d.isFree) (plain : O.Plain) :
    Leads (write d) (O.pushes (takes + k)) fun _ M => M = O.pushes (gives + k) :=
  leads_write (move_effect k effect free plain)

theorem leads_first {gives : Nat} (effect : d.effect = some (0, gives))
    (free : d.isFree) (plain : O.Plain) :
    Leads (write d) O fun _ M => M = O.pushes gives :=
  leads_write (move_first effect free plain)

/-- A directive that adds a value. -/
theorem leads_value (k : Nat) (effect : d.effect = some (0, 1)) (free : d.isFree)
    (plain : O.Plain) :
    Leads (write d) (O.pushes k) fun _ M => M = O.pushes (k + 1) :=
  leads_mono (leads_first effect free (plain.pushes k)) fun _ _ h => by simpa using h

theorem leads_quiet (quiet : d.isQuiet) (plain : O.Plain) :
    Leads (write d) O fun _ M => M = O.pushes 0 :=
  leads_write (move_quiet quiet plain)

theorem leads_quietly (k : Nat) (quiet : d.isQuiet) (plain : O.Plain) :
    Leads (write d) (O.pushes k) fun _ M => M = O.pushes k :=
  leads_mono (leads_quiet quiet (plain.pushes k)) fun _ _ h => by simpa using h

end Write

section Expressions
variable {parse : Goal → Parser Unit} {O : Outline}

theorem leads_expression (reads : Reads parse) (plain : O.Plain) :
    Leads (expression parse) O fun _ M => M = O.pushes 1 :=
  reads.expression .assignment O (by decide) plain

/-- An expression behind other values. -/
theorem leads_operand (reads : Reads parse) (k : Nat) (plain : O.Plain) :
    Leads (expression parse) (O.pushes k) fun _ M => M = O.pushes (k + 1) :=
  leads_mono (leads_expression reads (plain.pushes k)) fun _ _ h => by simpa using h

theorem leads_argumentList (reads : Reads parse) (k : Nat) (plain : O.Plain) :
    Leads (argumentList parse) (O.pushes k) fun argc M => M = O.pushes (argc.toNat + k) := by
  unfold argumentList
  dsimp only
  refine leads_seq leads_check fun b => ?_
  split
  · refine leads_seq leads_expect fun _ => leads_pure ?_
    simp
  · refine leads_bind (P := fun n M => n ≤ 255 ∧ M = O.pushes (n + k)) ?_ fun n M h => ?_
    · refine leads_repeatFrom (fun n M => n ≤ 255 ∧ M = O.pushes (n + k)) _ ⟨by simp, by simp⟩ ?_
      rintro n M ⟨hn, rfl⟩
      refine leads_seq (leads_operand reads _ plain) fun _ => ?_
      split
      · exact leads_bind leads_failBefore fun _ _ h => h
      · refine leads_seq leads_accept fun more => leads_pure ?_
        have hn' : n + 1 ≤ 255 := by omega
        simp [hn', Nat.add_right_comm]
    · obtain ⟨hn, rfl⟩ := h
      refine leads_seq leads_expect fun _ => leads_pure ?_
      rw [UInt8.toNat_ofNat', Nat.mod_eq_of_lt (by omega)]

/-- The operation of a compound assignment. -/
theorem leads_operation (k : Nat) {kind : TokenKind} {operation : Directive} (plain : O.Plain)
    (h : Assignment.ofKind? kind = some (.compound operation)) :
    Leads (write operation) (O.pushes (2 + k)) fun _ M => M = O.pushes (1 + k) := by
  cases kind <;> cases h <;> exact leads_effect k rfl rfl plain

theorem leads_variableNamed (reads : Reads parse) (plain : O.Plain) {name : String}
    (canAssign : Bool) :
    Leads (variableNamed parse name canAssign) O fun _ M => M = O.pushes 1 := by
  have load : Leads (write (.load name)) O fun _ M => M = O.pushes 1 :=
    leads_first rfl rfl plain
  have store : Leads (write (.store name)) (O.pushes 1) fun _ M => M = O.pushes 1 :=
    leads_effect 0 rfl rfl plain
  unfold variableNamed
  refine leads_seq leads_currentKind fun kind => ?_
  dsimp only
  split
  · refine leads_seq (leads_quiet rfl plain) fun _ => ?_
    refine leads_bind leads_acceptAssignment fun r M hr => ?_
    obtain ⟨⟨kind, hkind⟩, rfl⟩ := hr
    refine leads_seq (leads_quietly 0 rfl plain) fun _ => ?_
    split
    · refine leads_seq (M := O.pushes 1) (leads_effect 0 rfl rfl plain) fun _ => ?_
      refine leads_seq (leads_operand reads 1 plain) fun _ => ?_
      exact leads_seq (leads_operation 0 plain hkind.symm) fun _ => store
    · exact leads_seq (leads_operand reads 0 plain) fun _ => store
  · exact load

theorem leads_superMember (reads : Reads parse) (plain : O.Plain) :
    Leads (superMember parse) O fun _ M => M = O.pushes 1 := by
  have super (k : Nat) : Leads (write (.load "super")) (O.pushes k)
      fun _ M => M = O.pushes (k + 1) :=
    leads_value k rfl rfl plain
  unfold superMember
  refine leads_seq (leads_quiet rfl plain) fun _ => ?_
  refine leads_seq leads_expect fun _ => ?_
  refine leads_seq leads_expectMember fun name => ?_
  refine leads_seq (leads_quietly 0 rfl plain) fun _ => ?_
  refine leads_seq (leads_value 0 rfl rfl plain) fun _ => ?_
  refine leads_seq leads_accept fun b => ?_
  split
  · refine leads_bind (leads_argumentList reads 1 plain) fun argc M h => ?_
    subst h
    refine leads_seq (super _) fun _ => ?_
    exact leads_effect 0 rfl rfl plain
  · refine leads_seq (super _) fun _ => ?_
    exact leads_effect 0 rfl rfl plain

theorem leads_bracketLiteral (reads : Reads parse) (plain : O.Plain) :
    Leads (bracketLiteral parse) O fun _ M => M = O.pushes 1 := by
  unfold bracketLiteral
  refine leads_seq leads_accept fun b => ?_
  split
  · exact leads_seq leads_expect fun _ => leads_first rfl rfl plain
  refine leads_seq leads_accept fun b => ?_
  split
  · exact leads_first rfl rfl plain
  refine leads_seq (leads_expression reads plain) fun _ => ?_
  refine leads_seq leads_accept fun isMap => ?_
  cases isMap with
  | true =>
    refine leads_seq (leads_operand reads 1 plain) fun _ => ?_
    refine leads_bind (leads_repeatFrom (fun n M => M = O.pushes (n * 2))
      (fun n M => M = O.pushes (n * 2)) rfl ?_) fun n M h => ?_
    · rintro n M rfl
      refine leads_seq leads_accept fun more => ?_
      split
      · exact leads_pure rfl
      refine leads_seq leads_check fun last => ?_
      split
      · exact leads_pure rfl
      refine leads_seq (leads_operand reads _ plain) fun _ => ?_
      refine leads_seq leads_expect fun _ => ?_
      refine leads_seq (leads_operand reads _ plain) fun _ => leads_pure ?_
      simp [Nat.add_mul]
    · subst h
      refine leads_seq leads_expect fun _ => ?_
      dsimp only
      split
      · exact leads_bind leads_failBefore fun _ _ h => h
      · rename_i few
        have size : (UInt16.ofNat n).toNat = n := by
          rw [UInt16.toNat_ofNat', Nat.mod_eq_of_lt (by omega)]
        rw [← size]
        simp only [UInt16.ofNat_toNat]
        exact leads_effect 0 rfl rfl plain
  | false =>
    refine leads_bind (leads_repeatFrom (fun n M => M = O.pushes n)
      (fun n M => M = O.pushes n) rfl ?_) fun n M h => ?_
    · rintro n M rfl
      refine leads_seq leads_accept fun more => ?_
      split
      · exact leads_pure rfl
      refine leads_seq leads_check fun last => ?_
      split
      · exact leads_pure rfl
      exact leads_seq (leads_operand reads _ plain) fun _ => leads_pure rfl
    · subst h
      refine leads_seq leads_expect fun _ => ?_
      dsimp only
      split
      · exact leads_bind leads_failBefore fun _ _ h => h
      · rename_i few
        have size : (UInt16.ofNat n).toNat = n := by
          rw [UInt16.toNat_ofNat', Nat.mod_eq_of_lt (by omega)]
        rw [← size]
        simp only [UInt16.ofNat_toNat]
        exact leads_effect 0 rfl rfl plain

theorem leads_dynamicLiteral (reads : Reads parse) (plain : O.Plain) :
    Leads (dynamicLiteral parse) O fun _ M => M = O.pushes 1 := by
  unfold dynamicLiteral
  refine leads_seq leads_accept fun b => ?_
  split
  · exact leads_seq leads_expect fun _ => leads_first rfl rfl plain
  refine leads_seq (leads_first rfl rfl plain) fun _ => ?_
  refine leads_seq leads_check fun b => ?_
  dsimp only
  split
  · exact leads_expect
  refine leads_bind (leads_commaSeparated (· = O.pushes 1) rfl ?_) fun _ M h => ?_
  · rintro M rfl
    refine leads_seq leads_expectName fun name => ?_
    refine leads_seq (leads_quietly 1 rfl plain) fun _ => ?_
    refine leads_seq leads_expect fun _ => ?_
    refine leads_seq (M := O.pushes 2) (leads_effect 0 rfl rfl plain) fun _ => ?_
    refine leads_seq (leads_operand reads 2 plain) fun _ => ?_
    exact leads_effect 1 rfl rfl plain
  · subst h
    exact leads_expect

theorem leads_prefixRule (reads : Reads parse) (plain : O.Plain) (canAssign : Bool) :
    Leads (prefixRule parse canAssign) O fun _ M => M = O.pushes 1 := by
  unfold prefixRule
  refine leads_seq leads_previousToken fun token => ?_
  split
  · exact leads_bind (leads_expression reads plain) fun _ _ h => h ▸ leads_expect
  · exact leads_bracketLiteral reads plain
  · exact leads_dynamicLiteral reads plain
  · refine leads_seq (reads.expression .unary _ (by decide) plain) fun _ => ?_
    exact leads_effect 0 rfl rfl plain
  · refine leads_seq (reads.expression .unary _ (by decide) plain) fun _ => ?_
    exact leads_effect 0 rfl rfl plain
  · exact leads_variableNamed reads plain canAssign
  · split
    · exact leads_first rfl rfl plain
    · exact leads_failBefore
  · split
    · exact leads_first rfl rfl plain
    · exact leads_failBefore
  · exact leads_first rfl rfl plain
  · exact leads_first rfl rfl plain
  · exact leads_first rfl rfl plain
  · exact leads_first rfl rfl plain
  · exact leads_superMember reads plain
  · refine leads_mono (reads.function .function "anonymous" {} [] _ (by decide) plain.1 plain.2.2 ?_) ?_
    · simp [plain.2.1]
    · rintro _ _ rfl
      obtain ⟨⟨_, _, _, _, _, _, pending, _, _⟩, _, _, _⟩ := O
      cases pending <;> first | rfl | cases plain.2.1
  · refine leads_seq leads_expectName fun name => ?_
    exact leads_first rfl rfl plain
  · exact leads_failBefore

theorem leads_assignedValue (reads : Reads parse) (plain : O.Plain) {k : Nat}
    {old : List Directive} (hold : Leads (old.forM write) (O.pushes k)
      fun _ M => M = O.pushes (k + 1)) {r : Option Assignment}
    (hr : ∃ kind, r = Assignment.ofKind? kind) :
    Leads (assignedValue parse old r) (O.pushes k) fun _ M => M = O.pushes (k + 1) := by
  obtain ⟨kind, hkind⟩ := hr
  unfold assignedValue
  split
  · refine leads_seq hold fun _ => ?_
    refine leads_seq (leads_operand reads _ plain) fun _ => ?_
    have operation := @leads_operation _ k _ _ plain hkind.symm
    rwa [Nat.add_comm 2, Nat.add_comm 1] at operation
  · exact leads_operand reads k plain

theorem leads_member (reads : Reads parse) (plain : O.Plain) (canAssign : Bool) :
    Leads (member parse canAssign) (O.pushes 1) fun _ M => M = O.pushes 1 := by
  unfold member
  refine leads_seq leads_expectMember fun name => ?_
  refine leads_seq (leads_quietly 1 rfl plain) fun _ => ?_
  refine leads_seq leads_currentKind fun kind => ?_
  split
  · refine leads_seq (leads_quietly 1 rfl plain) fun _ => ?_
    refine leads_bind leads_acceptAssignment fun r M h => ?_
    obtain ⟨hr, rfl⟩ := h
    refine leads_seq (leads_assignedValue reads plain ?_ hr) fun _ => ?_
    · refine leads_seq (M := O.pushes 2) (leads_effect 0 rfl rfl plain) fun _ => ?_
      refine leads_seq (M := O.pushes 2) (leads_effect 1 rfl rfl plain) fun _ => leads_pure rfl
    · exact leads_effect 0 rfl rfl plain
  · refine leads_seq leads_accept fun call => ?_
    split
    · refine leads_bind (leads_argumentList reads 1 plain) fun argc M h => ?_
      subst h
      exact leads_effect 0 rfl rfl plain
    · exact leads_effect 0 rfl rfl plain

theorem leads_element (reads : Reads parse) (plain : O.Plain) (canAssign : Bool) :
    Leads (element parse canAssign) (O.pushes 1) fun _ M => M = O.pushes 1 := by
  unfold element
  refine leads_seq (leads_operand reads 1 plain) fun _ => ?_
  refine leads_seq leads_expect fun _ => ?_
  refine leads_seq leads_currentKind fun kind => ?_
  split
  · refine leads_seq (leads_quietly 2 rfl plain) fun _ => ?_
    refine leads_bind leads_acceptAssignment fun r M h => ?_
    obtain ⟨hr, rfl⟩ := h
    refine leads_seq (leads_assignedValue reads plain ?_ hr) fun _ => ?_
    · refine leads_seq (M := O.pushes 4) (leads_effect 0 rfl rfl plain) fun _ => ?_
      refine leads_seq (M := O.pushes 3) (leads_effect 2 rfl rfl plain) fun _ => leads_pure rfl
    · exact leads_effect 0 rfl rfl plain
  · exact leads_effect 0 rfl rfl plain

/-- The right operand of a short circuit stands for the left one. -/
theorem leads_short (reads : Reads parse) (plain : O.Plain) {d : Directive}
    {level : Precedence} (hlevel : 1 ≤ level.rank)
    (move : LevelMove d (O.pushes 1).here
      { O.here.touch with opens := .short O.here.temps O.here.region :: O.here.opens }) :
    Leads (do write d; parse (.expression level); write .shortEnd) (O.pushes 1)
      fun _ M => M = O.pushes 1 := by
  refine leads_seq (leads_level move plain.1) fun _ => ?_
  refine leads_seq (reads.expression level _ hlevel ⟨plain.1, plain.2.1, plain.2.2.temps, plain.2.2.region⟩) fun _ => ?_
  refine leads_level ?_ plain.1
  have right := (plain.pushes 1).2
  exact .shortEnd (e := .value) rfl rfl rfl ⟨right.1, right.2.temps, right.2.region⟩

theorem leads_binary (reads : Reads parse) (plain : O.Plain) {kind : TokenKind}
    (bound : 1 ≤ kind.infixLevel.next.rank) (h : binaryOperation kind ≠ []) :
    Leads (do parse (.expression kind.infixLevel.next); (binaryOperation kind).forM write)
      (O.pushes 1) fun _ M => M = O.pushes 1 := by
  refine leads_seq (M := O.pushes 2)
    (leads_mono (reads.expression _ _ bound (plain.pushes 1)) fun _ _ h => by simpa using h) fun _ => ?_
  cases kind <;> first
    | exact (h rfl).elim
    | exact leads_seq (M := O.pushes 1) (leads_effect 0 rfl rfl plain) fun _ => leads_pure rfl
    | exact leads_seq (M := O.pushes 1) (leads_effect 0 rfl rfl plain) fun _ =>
        leads_seq (M := O.pushes 1) (leads_effect 0 rfl rfl plain) fun _ => leads_pure rfl

/-- A token that continues an expression. -/
theorem leads_infixRule (reads : Reads parse) (plain : O.Plain) (canAssign : Bool)
    {c : Cursor} (hc : At (O.pushes 1) c) (bound : 1 ≤ c.previous.kind.infixLevel.rank)
    {c' : Cursor} (h : infixRule parse canAssign c = .ok () c') : At (O.pushes 1) c' := by
  have reached {x : Parser Unit} (leads : Leads x (O.pushes 1) fun _ M => M = O.pushes 1)
      (run : x c = .ok () c') : At (O.pushes 1) c' := by
    obtain ⟨_, rfl, hc'⟩ := leads c hc () c' run
    exact hc'
  unfold infixRule at h
  change EStateM.bind previousToken _ c = _ at h
  unfold EStateM.bind at h
  rw [show previousToken c = .ok c.previous c from rfl] at h
  dsimp only at h
  generalize c.previous.kind = kind at bound h
  split at h
  · refine reached (leads_bind (leads_argumentList reads 1 plain) fun argc M h => ?_) h
    subst h
    exact leads_effect 0 rfl rfl plain
  · exact reached (leads_member reads plain canAssign) h
  · exact reached (leads_element reads plain canAssign) h
  · exact reached (leads_short reads plain (by decide) (.andThen rfl rfl (plain.pushes 1).2)) h
  · exact reached (leads_short reads plain (by decide) (.orElse rfl rfl (plain.pushes 1).2)) h
  · refine reached (leads_binary reads plain ?_ ?_) h
    · cases kind <;> decide
    · cases kind <;> simp_all [binaryOperation, TokenKind.infixLevel, Precedence.rank]

theorem leads_climb (reads : Reads parse) (plain : O.Plain) {level : Precedence}
    (hlevel : 1 ≤ level.rank) :
    Leads (climb parse level) O fun _ M => M = O.pushes 1 := by
  unfold climb
  refine leads_seq leads_advance fun _ => ?_
  refine leads_seq (leads_prefixRule reads plain _) fun _ => ?_
  refine leads_bind (leads_repeatWhile (· = O.pushes 1) rfl ?_) fun _ M h => ?_
  · rintro M rfl c hc b c' h
    have hc' := at_advance hc
    have previous : c.advance.previous = c.current := by
      unfold Cursor.advance
      cases c.ahead <;> rfl
    change (if level.rank ≤ c.current.kind.infixLevel.rank then
      (do advance; infixRule parse _; pure true) else pure false : Parser Bool) c = _ at h
    split at h
    · rename_i continues
      change EStateM.bind (infixRule parse _) (fun _ => pure true) c.advance = _ at h
      unfold EStateM.bind at h
      split at h
      · rename_i d hd
        cases h
        exact ⟨_, rfl, leads_infixRule reads plain _ hc' (by rw [previous]; omega) hd⟩
      · cases h
    · cases h
      exact ⟨_, rfl, hc⟩
  · subst h
    refine leads_seq leads_currentKind fun _ => ?_
    split
    · exact leads_failHere
    · exact leads_pure rfl

end Expressions

end ScriptEngine
