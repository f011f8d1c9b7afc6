import ScriptEngine.Proofs.ConsumingPrograms
import ScriptEngine.Proofs.FittingFunctions
import ScriptEngine.Proofs.Scoping

/-!
# Compilation ends

Any list of tokens compiles or has an error of its own. A goal of the grammar takes a token
or fails, so the bound on nested goals, the rounds of loops and the directives are all
counted in tokens. The cursor stays among the tokens, and each directive finds on the stacks
of the assembly what it takes from them, also ahead of an error.
-/
namespace ScriptEngine

open Assembler Grammar

/-- The tokens, with the end of input supplied if it is missing. -/
def closedTokens (tokens : List Token) : List Token :=
  tokens ++ match tokens.getLast? with
    | some t => if t.kind = .eof then [] else [.endOfInput t.line t.character 0]
    | none => [.endOfInput 1 1 0]

/-- Goals that are called for: fields are filled by functions that are not pure. -/
def Grammar.Goal.Asked : Goal → Prop
  | .expression level => 1 ≤ level.rank
  | .function kind _ m _ => kind.fills → m.isPure = false
  | .declaration | .statement => True

/-- Takes something from the type that is open. -/
def Directive.isOfType : Directive → Bool
  | .inheritFrom _ _ | .endType => true
  | _ => false

/-- What a directive takes from the stacks of an assembly is there. -/
structure Assembler.Provides (a : Assembler) (d : Directive) : Prop where
  outer : d.shift = .ends ∨ d.shift = .aside → a.outer ≠ []
  aside : d.shift = .back → a.aside ≠ []
  types : d.isOfType → a.types ≠ []
  /-- Slots are words of one byte. -/
  locals : ∀ b ∈ a.opened ++ a.aside, b.locals.length ≤ 256 ∧
    ∀ name slot, slotOf name b.locals = .ok (some slot) → slot.toNat < b.locals.length

/-- Whatever the tokens are, reading and assembling them ends. -/
structure Script.Ends (tokens : List Token) (scriptName : String) : Prop where
  /-- There is a script, or an error that lies in the tokens. -/
  result : (∃ s, Script.ofTokens tokens scriptName = .ok s) ∨
    ∃ e, Script.ofTokens tokens scriptName = .error e ∧ e.fault.isInternal = false
  /-- Twice the number of tokens ahead is bound enough for any goal, and no loop has more rounds than tokens.
  A goal takes a token or fails. -/
  descent : ∀ goal n (c : Cursor), c.On (closedTokens tokens) → goal.Asked → 2 * c.ahead.length + 2 ≤ n →
    match parseGoal n goal c with
    | .ok _ c' => c'.On (closedTokens tokens) ∧ c'.ahead.length < c.ahead.length
    | .error e c' => c'.On (closedTokens tokens) ∧ c'.ahead.length ≤ c.ahead.length ∧ e.fault.isInternal = false
  /-- The same for the program. There are no more than sixteen directives for a token, and one. -/
  program : ∀ n, 2 * tokens.length + 2 ≤ n → match Grammar.program n (.ofTokens tokens) with
    | .ok _ c => c.On (closedTokens tokens) ∧ c.steps.size ≤ 16 * tokens.length + 1
    | .error e c => c.On (closedTokens tokens) ∧ c.steps.size ≤ 16 * tokens.length + 1 ∧ e.fault.isInternal = false
  provided : ∀ front t back a, (Program.ofTokens tokens).steps.toList = front ++ t :: back →
    performAll front (start scriptName) = .ok () a → a.Provides t.directive

section Cursors
variable {tokens : List Token}

theorem length_closedTokens (tokens : List Token) : (closedTokens tokens).length ≤ tokens.length + 1 := by
  unfold closedTokens
  rw [List.length_append]
  split
  · split_ifs <;> simp
  · simp

theorem closedTokens_ends (tokens : List Token) : ∃ t, (closedTokens tokens).getLast? = some t ∧ t.kind = .eof := by
  unfold closedTokens
  split
  · rename_i t last
    split_ifs with eof
    · exact ⟨t, by rw [List.append_nil, last], eof⟩
    · exact ⟨_, List.getLast?_concat, rfl⟩
  · exact ⟨_, List.getLast?_concat, rfl⟩

theorem ofTokens_eq (tokens : List Token) :
    Cursor.ofTokens tokens = match closedTokens tokens with
      | t :: ts => { previous := t, current := t, ahead := ts }
      | [] => { previous := .endOfInput 1 1 0, current := .endOfInput 1 1 0, ahead := [] } := rfl

theorem on_ofTokens (tokens : List Token) : (Cursor.ofTokens tokens).On (closedTokens tokens) ∧
    (Cursor.ofTokens tokens).ahead.length + 1 = (closedTokens tokens).length := by
  have ends := closedTokens_ends tokens
  rw [ofTokens_eq]
  cases stream : closedTokens tokens with
  | nil =>
    rw [stream] at ends
    obtain ⟨t, none, -⟩ := ends
    cases none
  | cons t ts => exact ⟨⟨stream ▸ ends, 0, Nat.zero_le _, rfl, rfl, rfl⟩, rfl⟩

end Cursors

section Goals
variable {tokens : List Token}

/-- Somewhere a goal may be called for. -/
theorem Grammar.Goal.Asked.ready {goal : Goal} (h : goal.Asked) : goal.Ready 1 .initial := by
  cases goal with
  | expression level => exact h
  | function kind name m fields => exact ⟨Nat.one_pos, h⟩
  | declaration => exact Piece.bare_nil
  | statement => exact Piece.bare_nil

theorem parseGoal_descends {goal : Goal} {n : Nat} {c : Cursor} (on : c.On (closedTokens tokens)) (asked : goal.Asked)
    (enough : 2 * c.ahead.length + 2 ≤ n) : match parseGoal n goal c with
    | .ok _ c' => c'.On (closedTokens tokens) ∧ c'.ahead.length < c.ahead.length
    | .error e c' => c'.On (closedTokens tokens) ∧ c'.ahead.length ≤ c.ahead.length ∧ e.fault.isInternal = false := by
  have rank : goal.rank ≤ 2 := by cases goal <;> simp [Goal.rank]
  have run := suffices_parseGoal (closedTokens tokens) n goal c.ahead.length 1 .initial (by omega) asked.ready c on rfl
  unfold ProceedsAt at run
  split at run <;> rename_i result <;> rw [result]
  · obtain ⟨L', k', P', post, way⟩ := run
    exact ⟨way.on, way.left ▸ post.1⟩
  · obtain ⟨real, L', k', P', way⟩ := run
    obtain ⟨ds, -, -, paid⟩ := way.wrote
    exact ⟨way.on, way.left ▸ by omega, real⟩

/-- Wherever reading a program stops, what has been written piles up. -/
theorem program_stops (tokens : List Token) {n : Nat} (enough : 2 * tokens.length + 2 ≤ n) : match Grammar.program n (.ofTokens tokens) with
    | .ok _ c => c.On (closedTokens tokens) ∧ c.steps.size ≤ 16 * tokens.length + 1 ∧
      ∃ P, Piles.initial.Become (c.steps.toList.map (·.directive)) P
    | .error e c => (c.On (closedTokens tokens) ∧ c.steps.size ≤ 16 * tokens.length + 1 ∧
      ∃ P, Piles.initial.Become (c.steps.toList.map (·.directive)) P) ∧ e.fault.isInternal = false := by
  obtain ⟨on, length⟩ := on_ofTokens tokens
  have bound := length_closedTokens tokens
  have start : (Cursor.ofTokens tokens).steps = #[] := by
    unfold Cursor.ofTokens
    dsimp only
    split <;> rfl
  have enough' : 2 * (Cursor.ofTokens tokens).ahead.length + 2 ≤ n := by omega
  have run := proceeds_program enough' _ on rfl
  have stops {c : Cursor} {L' k' : Nat} {P' : Piles}
      (way : Progress (closedTokens tokens) (.ofTokens tokens) (Cursor.ofTokens tokens).ahead.length 1 .initial c L' k' P') :
      c.On (closedTokens tokens) ∧ c.steps.size ≤ 16 * tokens.length + 1 ∧
        ∃ P, Piles.initial.Become (c.steps.toList.map (·.directive)) P := by
    obtain ⟨ds, ⟨steps, written, rfl⟩, become, paid⟩ := way.wrote
    rw [start, Array.toList_empty, List.nil_append] at written
    rw [List.length_map] at paid
    refine ⟨way.on, ?_, P', written ▸ become⟩
    rw [← Array.length_toList, written]
    omega
  unfold ProceedsAt at run
  split at run <;> rename_i result <;> rw [result]
  · obtain ⟨L', k', P', -, way⟩ := run
    exact stops way
  · obtain ⟨real, L', k', P', way⟩ := run
    exact ⟨stops way, real⟩

/-- The directives of any tokens pile up. -/
theorem become_ofTokens (tokens : List Token) :
    ∃ P, Piles.initial.Become ((Program.ofTokens tokens).steps.toList.map (·.directive)) P := by
  have stops := program_stops tokens (n := 4 * tokens.length + 8) (by omega)
  unfold Program.ofTokens
  cases result : Grammar.program (4 * tokens.length + 8) (.ofTokens tokens) with
  | ok u c =>
    rw [result] at stops
    exact stops.2.2
  | error e c =>
    rw [result] at stops
    exact stops.1.2.2

theorem fault_ofTokens {e : SyntaxError} (failed : (Program.ofTokens tokens).fault = some e) : e.fault.isInternal = false := by
  have stops := program_stops tokens (n := 4 * tokens.length + 8) (by omega)
  unfold Program.ofTokens at failed
  split at failed <;> rename_i result <;> rw [result] at stops <;> cases failed
  exact stops.2

end Goals

/-! ## The stacks of an assembly -/

section Stacks
variable {P P' P'' : Piles} {a a' : Assembler} {d : Directive}

theorem Piles.Become.split {ds es : List Directive} (h : P.Become (ds ++ es) P'') :
    ∃ P', P.Become ds P' ∧ P'.Become es P'' := by
  induction ds generalizing P with
  | nil => exact ⟨P, .nil P, h⟩
  | cons d ds ih =>
    cases h with
    | cons first rest =>
      obtain ⟨P', front, back⟩ := ih rest
      exact ⟨P', .cons first front, back⟩

/-- Functions of one byte's worth of locals and captures stay so. -/
theorem Shift.Takes.roomy {shift : Shift} (h : shift.Takes a a') (roomy : ∀ b ∈ a.opened ++ a.aside, b.Roomy) :
    ∀ b ∈ a'.opened ++ a'.aside, b.Roomy := by
  have grown {x y : Assembler} (extends_ : x.Extends y) (roomy : ∀ b ∈ x.opened ++ x.aside, b.Roomy) :
      ∀ b ∈ y.opened ++ y.aside, b.Roomy := by
    rw [List.forall_mem_append] at roomy ⊢
    exact ⟨roomy_of_extends extends_.opened roomy.1, extends_.aside ▸ roomy.2⟩
  cases shift with
  | stays => exact grown h roomy
  | begins =>
    obtain ⟨a₁, b, extends_, opened, aside, fresh⟩ := h
    rw [opened, aside, List.cons_append, List.forall_mem_cons]
    exact ⟨fresh, grown extends_ roomy⟩
  | ends =>
    obtain ⟨a₁, b, a₂, extends_, opened, aside, last⟩ := h
    have before := grown extends_ roomy
    rw [opened, ← aside, List.cons_append, List.forall_mem_cons] at before
    exact grown last before.2
  | aside =>
    obtain ⟨b, opened, aside⟩ := h
    intro x hx
    refine roomy x ?_
    rw [aside] at hx
    rw [opened]
    simp only [List.mem_append, List.mem_cons] at hx ⊢
    tauto
  | back =>
    obtain ⟨b, aside, opened⟩ := h
    intro x hx
    refine roomy x ?_
    rw [opened] at hx
    rw [aside]
    simp only [List.mem_append, List.mem_cons] at hx ⊢
    tauto

theorem roomy_performAll {steps : List Step} (roomy : ∀ b ∈ a.opened ++ a.aside, b.Roomy)
    (run : performAll steps a = .ok () a') : ∀ b ∈ a'.opened ++ a'.aside, b.Roomy := by
  induction steps generalizing a with
  | nil =>
    cases run
    exact roomy
  | cons t steps ih =>
    obtain ⟨a₁, first, rest⟩ := performAll_cons run
    exact ih ((takes_step t a () a₁ first).roomy roomy) rest

theorem roomy_start (scriptName : String) : ∀ b ∈ (start scriptName).opened ++ (start scriptName).aside, b.Roomy :=
  (begun_start scriptName).roomy

theorem shift_of_lay {kind : FunctionKind} {ρ σ : List Piece} (lay : Lay kind d ρ σ) : d.shift = .stays := by
  cases lay with
  | simple effect => cases d <;> first | rfl | cases effect
  | quiet quiet => cases d <;> first | rfl | cases quiet
  | short opens => obtain rfl | rfl := opens <;> rfl
  | still still => cases d <;> first | rfl | cases still
  | definition defines => cases d <;> first | rfl | cases defines
  | forTest tests => obtain rfl | rfl := tests <;> rfl
  | forGoes goes => obtain rfl | rfl := goes <;> rfl
  | _ => rfl

theorem shift_of_begins {kind : FunctionKind} {m : Modifiers} (begins : d.begins? = some (kind, m)) : d.shift = .begins := by
  cases d <;> first | rfl | cases begins

/-- There is a function around one that ends or is stepped out of, and one aside where one is stepped back into. -/
theorem around_of_piled (piled : Piled d P P') : (d.shift = .ends ∨ d.shift = .aside → P.site.outer ≠ []) ∧
    (d.shift = .back → P.site.aside ≠ []) := by
  cases piled with
  | here lay => simp [shift_of_lay lay]
  | begins begins => simp [shift_of_begins begins]
  | endScript => simp [Directive.shift]
  | stepIn => exact ⟨by simp [Directive.shift], fun _ => List.cons_ne_nil _ _⟩
  | _ => exact ⟨fun _ => List.cons_ne_nil _ _, by simp [Directive.shift]⟩

/-- A type is open where one inherits or ends. -/
theorem types_of_piled (piled : Piled d P P') (ofType : d.isOfType) : P.flags ≠ [] := by
  cases piled with
  | here lay =>
    cases lay with
    | inheritFrom => exact List.cons_ne_nil _ _
    | @endType t inherits ρ temp =>
      rw [Piles.flags, ← List.singleton_append, flags_flat (flat_of_temps (temps_singleton temp))]
      exact List.cons_ne_nil _ _
    | simple effect => cases d <;> first | (cases effect; done) | cases ofType
    | quiet quiet => cases d <;> first | (cases quiet; done) | cases ofType
    | short opens => obtain rfl | rfl := opens <;> cases ofType
    | still still => cases d <;> first | (cases still; done) | cases ofType
    | definition defines => cases d <;> first | (cases defines; done) | cases ofType
    | forTest tests => obtain rfl | rfl := tests <;> cases ofType
    | forGoes goes => obtain rfl | rfl := goes <;> cases ofType
    | _ => cases ofType
  | begins begins => cases d <;> first | (cases begins; done) | cases ofType
  | _ => cases ofType

theorem ne_nil_of_forall₂ {α β : Type} {R : α → β → Prop} {xs : List α} {ys : List β} (h : List.Forall₂ R xs ys)
    (some : xs ≠ []) : ys ≠ [] := by
  rintro rfl
  cases h
  exact some rfl

/-- What a directive that piles up takes is there. -/
theorem provides_piled (piled : Piled d P P') (fitted : Fitted P a) (roomy : ∀ b ∈ a.opened ++ a.aside, b.Roomy) :
    a.Provides d where
  outer := fun ends => ne_nil_of_forall₂ fitted.around.outer ((around_of_piled piled).1 ends)
  aside := fun back => ne_nil_of_forall₂ fitted.around.aside ((around_of_piled piled).2 back)
  types := fun ofType none => types_of_piled piled ofType (by rw [← fitted.around.types, none]; rfl)
  locals := fun b hb => by
    have room := (roomy b hb).1
    refine ⟨room, fun name slot found => ?_⟩
    obtain ⟨l, at_, -⟩ := slotOf_some found room
    have bound := (List.getElem?_eq_some_iff.mp (findLocal_some at_).1).1
    rwa [List.length_reverse] at bound

end Stacks

/-- Compilation comes to a script or to an error, whatever the tokens are. -/
theorem Script.compilation_ends (tokens : List Token) (scriptName : String) : Ends tokens scriptName := by
  obtain ⟨P, become⟩ := become_ofTokens tokens
  constructor
  case result =>
    cases failed : ofTokens tokens scriptName with
    | ok s => exact .inl ⟨s, rfl⟩
    | error e =>
    refine .inr ⟨e, rfl, ?_⟩
    have performed := fitted_performAll become (fitted_start scriptName)
    unfold Safely at performed
    unfold ofTokens Program.script assemble at failed
    cases run : performAll (Program.ofTokens tokens).steps.toList (start scriptName) with
    | error fault a =>
      rw [run] at performed failed
      cases failed
      exact performed
    | ok r a =>
      rw [run] at failed
      cases wrong : (Program.ofTokens tokens).fault with
      | none =>
        rw [wrong] at failed
        cases failed
      | some e' =>
        rw [wrong] at failed
        cases failed
        exact fault_ofTokens wrong
  case descent => exact fun goal n c on asked enough => parseGoal_descends on asked enough
  case program =>
    intro n enough
    have stops := program_stops tokens enough
    split at stops
    · exact ⟨stops.1, stops.2.1⟩
    · exact ⟨stops.1.1, stops.1.2.1, stops.2⟩
  case provided =>
    intro front t back a split run
    rw [split, List.map_append] at become
    obtain ⟨P', before, after⟩ := become.split
    have fitted := fitted_performAll before (fitted_start scriptName)
    unfold Safely at fitted
    rw [run] at fitted
    cases after with
    | cons piled _ => exact provides_piled piled fitted (roomy_performAll (roomy_start scriptName) run)

end ScriptEngine
