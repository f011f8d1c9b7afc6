import ScriptEngine.Compile.Script
import ScriptEngine.Proofs.Climbing
import ScriptEngine.Proofs.Emitting

/-!
# Expression statements

A tree that is rendered to tokens and followed by a semicolon is compiled to its code and
a `pop`: by the grammar and the assembler at any place where a statement may stand, and
by the compiler when it is a script.
-/
namespace ScriptEngine

open Grammar Assembler

namespace Tree

/-- The constants that the code refers to. -/
def constants (e : Tree) : Finset Constant := (e.code.filterMap Op.constant?).toFinset

/-- How many labels the code has. -/
def labels (e : Tree) : Nat := e.code.countP Op.isJump

/-- The shapes of the tree as a statement. -/
def statement (e : Tree) : List Shape := e.shapes ++ [.fixed .semicolon]

variable {e : Tree}

section Grammar
variable {n : Nat} {next : TokenKind → Prop}

theorem yields_expressionStatement (fits : ∀ op ∈ e.code, op.argc ≤ 255) (room : e.shapes.length ≤ n) :
    Yields (expressionStatement (parseGoal n)) () e.statement (e.directives ++ [.plain .pop]) next := by
  have whole := (e.climbs fits).yields n _ room (Nat.le_of_lt e.assignment_lt_level)
  refine whole.closed (f := fun _ => expect .semicolon "';' after expression" >>= fun _ => write (.plain .pop))
    ((yields_expect _ _).quiet (yields_write _)) fun t of => ?_
  rw [show t.kind = .semicolon from of]
  exact stops_of_none rfl rfl (by decide)

theorem statementRule?_begins {parse : Goal → Parser Unit} {k : TokenKind} (h : Begins k) :
    statementRule? parse k = none := by
  cases k <;> first | rfl | cases h

theorem declarationRule?_begins {parse : Goal → Parser Unit} {k : TokenKind} (h : Begins k) :
    declarationRule? parse k = none := by
  cases k <;> first | rfl | cases h

theorem yields_goal (fits : ∀ op ∈ e.code, op.argc ≤ 255) (room : e.shapes.length ≤ n) {goal : Goal}
    (either : goal = .statement ∨ goal = .declaration) :
    Yields (parseGoal (n + 1) goal) () e.statement (e.directives ++ [.plain .pop]) next := by
  intro c t rest spells here
  obtain ⟨t₀, ts, left, begins⟩ := ((opens_shapes e).append [.fixed .semicolon]).spelled spells
  have current : Begins c.current.kind := by
    rw [(List.cons.inj left).1]
    exact begins
  obtain ⟨c', run, result⟩ := yields_expressionStatement fits room c t rest spells here
  refine ⟨c', ?_, result⟩
  have statement : Grammar.statement (parseGoal n) c = .ok () c' := by
    refine (parser_bind (currentKind_eq c) _).trans ?_
    rw [statementRule?_begins current]
    exact run
  rcases either with rfl | rfl
  · exact statement
  · refine (parser_bind (currentKind_eq c) _).trans ?_
    rw [declarationRule?_begins current]
    exact statement

end Grammar

/-! ## In any place -/

/-- The code of the tree as a statement. -/
def statementCode (e : Tree) : List Op := e.code ++ [.plain .pop]

/-- An assembler has room for the constants and labels of the tree, and the names that the tree reads are no locals. -/
def Ready (e : Tree) (a : Assembler) : Prop := a.Ready e.constants e.code

theorem makes_statement {steps : List Step} (map : steps.map (·.directive) = e.directives ++ [.plain .pop])
    {a : Assembler} (ready : e.Ready a) :
    ∃ a', performAll steps a = .ok () a' ∧ a.Adds e.constants e.statementCode a' := by
  have made : Makes e.constants (e.directives ++ [.plain .pop]) e.statementCode :=
    (e.makes fun op mem k here => List.mem_toFinset.mpr (List.mem_filterMap.mpr ⟨op, mem, here⟩)).append
      (makes_plain _ rfl)
  refine made a steps map ⟨ready.constants, ?_, fun x mem => ready.free x ?_⟩
  · rw [statementCode, List.countP_append]
    exact ready.labels
  · refine (List.mem_append.mp mem).resolve_right fun last => ?_
    cases List.mem_singleton.mp last

/-- Wherever a statement may stand, the rendering of a tree is read, and the code is emitted. -/
theorem compiles_statement (fits : ∀ op ∈ e.code, op.argc ≤ 255) {tokens : List Token}
    (written : Written e.statement tokens) {n : Nat} (deep : tokens.length ≤ n) {goal : Goal}
    (either : goal = .statement ∨ goal = .declaration) {c : Cursor} {t : Token} {rest : List Token}
    (left : c.left = tokens ++ t :: rest) :
    ∃ c' steps, parseGoal n goal c = .ok () c' ∧ c'.left = t :: rest ∧ c'.steps.toList = c.steps.toList ++ steps ∧
      ∀ a, e.Ready a → ∃ a', performAll steps a = .ok () a' ∧ a.Adds e.constants e.statementCode a' := by
  have length := written.length_eq
  rw [statement, List.length_append] at length
  obtain ⟨n, rfl⟩ : ∃ m, n = m + 1 := ⟨n - 1, by simp only [List.length_singleton] at length; omega⟩
  have room : e.shapes.length ≤ n := by simp only [List.length_singleton] at length; omega
  have goal_ : Yields (parseGoal (n + 1) goal) () e.statement _ fun _ => True := yields_goal fits room either
  obtain ⟨c', run, left', steps, eq, map⟩ := goal_ c t rest ⟨tokens, written, left⟩ trivial
  exact ⟨c', steps, run, left', eq, fun a ready => makes_statement map ready⟩

/-! ## As a script -/

theorem ofTokens_left {tokens : List Token} {t : Token} (last : tokens.getLast? = some t) (other : t.kind ≠ .eof) :
    ∃ t', t'.kind = .eof ∧ (Cursor.ofTokens tokens).left = tokens ++ [t'] ∧ (Cursor.ofTokens tokens).steps = #[] := by
  refine ⟨.endOfInput t.line t.character 0, rfl, ?_⟩
  unfold Cursor.ofTokens
  rw [last]
  dsimp only
  rw [if_neg other]
  cases tokens with
  | nil => cases last
  | cons t₀ ts => exact ⟨rfl, rfl⟩

theorem statement_last {tokens : List Token} (written : Written e.statement tokens) :
    ∃ t, tokens.getLast? = some t ∧ t.kind ≠ .eof := by
  obtain ⟨_, ⟨ts, -, rfl⟩, second⟩ := spells_append.mp ⟨tokens, written, (List.append_nil tokens).symm⟩
  obtain ⟨t, rest, rfl, of, last⟩ := spells_cons.mp second
  obtain rfl := spells_nil.mp last
  refine ⟨t, List.getLast?_concat, ?_⟩
  rw [show t.kind = .semicolon from of]
  decide

/-- A round of the loop of `program`. -/
def declarationRound (bound : Nat) : Parser Bool := do
  if ← check .eof then return false
  parseGoal bound .declaration
  return true

theorem ofTokens_statement (fits : ∀ op ∈ e.code, op.argc ≤ 255) {tokens : List Token}
    (written : Written e.statement tokens) :
    ∃ steps, Program.ofTokens tokens = ⟨steps, none⟩ ∧
      steps.toList.map (·.directive) = e.directives ++ [.plain .pop, .endScript] := by
  have length := written.length_eq
  rw [statement, List.length_append] at length
  obtain ⟨t, last, other⟩ := statement_last written
  obtain ⟨t', ends, left, empty⟩ := ofTokens_left last other
  have statement : Yields (parseGoal (4 * tokens.length + 8) .declaration) () e.statement _ fun _ => True :=
    yields_goal fits (by omega) (.inr rfl)
  obtain ⟨c, run, left', steps, eq, map⟩ := statement (Cursor.ofTokens tokens) t' [] ⟨tokens, written, left⟩ trivial
  have more : declarationRound (4 * tokens.length + 8) (Cursor.ofTokens tokens) = .ok true c := by
    obtain ⟨t₀, ts, begin, begins⟩ := ((opens_shapes e).append [.fixed .semicolon]).spelled ⟨tokens, written, left⟩
    have current : (Cursor.ofTokens tokens).current.kind ≠ .eof := by
      rw [(List.cons.inj begin).1]
      rintro eof
      rw [eof] at begins
      cases begins
    refine (parser_bind (check_eq _ _) _).trans ?_
    rw [decide_eq_false current]
    exact parser_bind run _
  have done : declarationRound (4 * tokens.length + 8) c = .ok false c := by
    refine (parser_bind (check_eq _ _) _).trans ?_
    rw [decide_eq_true ((congrArg Token.kind (List.cons.inj left').1).trans ends)]
    rfl
  have less : c.left.length < (Cursor.ofTokens tokens).left.length := by
    rw [left, left', List.length_append, ← length]
    simp only [List.length_singleton]
    omega
  have loop : repeatWhile (declarationRound (4 * tokens.length + 8)) (Cursor.ofTokens tokens) = .ok () c :=
    Rounds.repeatFrom (.more (parser_bind more _) less .none) (parser_bind done _)
  have whole : program (4 * tokens.length + 8) (Cursor.ofTokens tokens) =
      .ok () { c with steps := c.steps.push ⟨c.previous.mark, .endScript⟩ } := parser_bind loop _
  refine ⟨c.steps.push ⟨c.previous.mark, .endScript⟩, ?_, ?_⟩
  · rw [Program.ofTokens, whole]
  · rw [Array.toList_push, eq, empty, List.map_append]
    simp [map]

theorem ready_start (scriptName : String) (constants : e.constants.card ≤ 65536) (labels : e.labels ≤ 65536)
    (names : .global "" ∉ e.code) : e.Ready (start scriptName) where
  constants := by simpa [RoomFor, start] using constants
  labels := by simpa [start, Tree.labels] using labels
  free x mem b hb l hl := by
    obtain rfl := List.mem_singleton.mp hb
    obtain rfl := List.mem_singleton.mp hl
    rintro rfl
    exact names mem

theorem endScript_runs (scriptName : String) (c : Chunk) {s : Step} (ends : s.directive = .endScript) (m : Mark) :
    ∃ a, performAll [s] { (start scriptName).setBody ((start scriptName).body.setChunk c) with mark := m } = .ok () a ∧
      a.chunks = #[(c.emit .null (UInt32.ofNat s.mark.line)).emit (.ret 1) (UInt32.ofNat s.mark.line)] := by
  rw [performAll, performStep, ends]
  exact ⟨_, rfl, rfl⟩

/-- As a script the tree gives one chunk, with its code and the return from the script. -/
theorem compiles_script (fits : ∀ op ∈ e.code, op.argc ≤ 255) {tokens : List Token}
    (written : Written e.statement tokens) (scriptName : String) (ready : e.Ready (start scriptName)) :
    ∃ s c, Script.ofTokens tokens scriptName = .ok s ∧ s.chunks = #[c] ∧
      c.code.size = e.statementCode.length + 2 ∧
      c.Holds 0 0 (e.statementCode ++ [.plain .null, .plain (.ret 1)]) := by
  obtain ⟨steps, program, map⟩ := ofTokens_statement fits written
  obtain ⟨front, back, split, map, last⟩ := List.map_eq_append_iff.mp
    (map.trans (List.append_assoc e.directives [.plain .pop] [.endScript]).symm)
  obtain ⟨s, rfl, ends⟩ := List.map_eq_singleton_iff.mp last
  obtain ⟨a, run, m, c, rfl, adds⟩ := makes_statement map ready
  obtain ⟨a, ended, chunks⟩ := endScript_runs scriptName c ends m
  have whole : performAll steps.toList (start scriptName) = .ok () a := by
    rw [split, performAll_append_eq]
    exact (assembly_bind run _).trans ended
  have assembled : assemble scriptName steps.toList = .ok a := by rw [assemble, whole]
  generalize UInt32.ofNat s.mark.line = line at chunks
  have added : (start scriptName).body.chunk.Adds e.constants (e.statementCode ++ [.plain .null, .plain (.ret 1)])
      ((c.emit .null line).emit (.ret 1) line) :=
    adds.append ((adds_emit line rfl rfl : c.Adds _ [.plain .null] _).append (adds_emit line rfl rfl))
  obtain ⟨script, compiled, same⟩ : ∃ s, Script.ofTokens tokens scriptName = .ok s ∧ s.chunks = a.chunks := by
    rw [Script.ofTokens, program, Program.script, assembled]
    exact ⟨_, rfl, rfl⟩
  refine ⟨script, _, compiled, same.trans chunks, ?_, added.holds⟩
  rw [added.size, List.length_append]
  exact Nat.zero_add _

/-- **Expressions are compiled as their precedence says.** Let a tree have no call of more than 255 arguments, and let
tokens be its rendering, with the parentheses that the levels require, and a semicolon. Wherever a statement or a
declaration may stand, the grammar reads these tokens and writes steps; and an assembler that has room for the constants
and labels of the tree, in which its names are no locals, carries them out and adds the code of the tree in post-order
and a `pop` to its chunk. As a script the tokens are compiled to that code and the return from the script. -/
theorem compiles (e : Tree) {tokens : List Token} (written : Written e.statement tokens)
    (arguments : ∀ op ∈ e.code, op.argc ≤ 255) :
    (∀ (n : Nat) (goal : Goal) (c : Cursor) (t : Token) (rest : List Token), tokens.length ≤ n →
      goal = .statement ∨ goal = .declaration → c.left = tokens ++ t :: rest →
      ∃ c' steps, parseGoal n goal c = .ok () c' ∧ c'.left = t :: rest ∧
        c'.steps.toList = c.steps.toList ++ steps ∧
        ∀ a, e.Ready a → ∃ a', performAll steps a = .ok () a' ∧ a.Adds e.constants e.statementCode a') ∧
    (∀ scriptName, e.constants.card ≤ 65536 → e.labels ≤ 65536 → .global "" ∉ e.code →
      ∃ s c, Script.ofTokens tokens scriptName = .ok s ∧ s.chunks = #[c] ∧
        c.code.size = e.statementCode.length + 2 ∧
        c.Holds 0 0 (e.statementCode ++ [.plain .null, .plain (.ret 1)])) :=
  ⟨fun _ _ _ _ _ deep either left => compiles_statement arguments written deep either left,
    fun scriptName constants labels names =>
      compiles_script arguments written scriptName (ready_start scriptName constants labels names)⟩

/-- The tokens of `(a + 1) * f.x(2) or b;`. -/
def smallExpression : List Token :=
  [(.openParen, "(", .none), (.identifier, "a", .none), (.plus, "+", .none), (.number, "1", .number ⟨0x3FF0000000000000⟩),
    (.closeParen, ")", .none), (.star, "*", .none), (.identifier, "f", .none), (.dot, ".", .none),
    (.identifier, "x", .none), (.openParen, "(", .none), (.number, "2", .number ⟨0x4000000000000000⟩),
    (.closeParen, ")", .none), (.orWord, "or", .none), (.identifier, "b", .none),
    (.semicolon, ";", .none)].map fun t => ⟨t.1, t.2.1, t.2.2, 1, 1, 0⟩

theorem compiles_smallExpression :
    (∃ c' steps a', parseGoal 15 .statement (Cursor.ofTokens smallExpression) = .ok () c' ∧
      c'.steps.toList = steps ∧ performAll steps (start "main") = .ok () a' ∧ a'.body.chunk.code.size = 12) ∧
    ∃ s c, Script.ofTokens smallExpression "main" = .ok s ∧ s.chunks = #[c] ∧
      c.Holds 0 0 [.global "a", .plain (.pushByte 1), .plain .add, .global "f", .plain (.pushByte 2), .invoke "x" 1,
        .plain .multiply, .gotoIfFalse 1, .goto 2, .plain .pop, .global "b", .plain .pop, .plain .null,
        .plain (.ret 1)] := by
  let e : Tree := .short .or
    (.binary .multiply (.binary .add (.identifier "a") (.number ⟨0x3FF0000000000000⟩))
      (.invoke (.identifier "f") "x" [.number ⟨0x4000000000000000⟩])) (.identifier "b")
  have code : e.code = [.global "a", .plain (.pushByte 1), .plain .add, .global "f", .plain (.pushByte 2),
      .invoke "x" 1, .plain .multiply, .gotoIfFalse 1, .goto 2, .plain .pop, .global "b"] := by decide +kernel
  have constants : e.constants.card ≤ 65536 := by decide +kernel
  have labels : e.labels ≤ 65536 := by decide +kernel
  have names : .global "" ∉ e.code := by decide +kernel
  obtain ⟨statement, script⟩ := @Tree.compiles e smallExpression (by decide +kernel) (by decide +kernel)
  constructor
  · obtain ⟨t, -, left, empty⟩ :=
      @ofTokens_left smallExpression ⟨.semicolon, ";", .none, 1, 1, 0⟩ (by decide +kernel) (by decide)
    obtain ⟨c', steps, run, -, written, performed⟩ :=
      statement 15 .statement (Cursor.ofTokens smallExpression) t [] (by decide +kernel) (.inl rfl) left
    obtain ⟨a', run', m, c, rfl, adds⟩ := performed (start "main") (ready_start "main" constants labels names)
    refine ⟨c', steps, _, run, ?_, run', ?_⟩
    · rw [written, empty]
      rfl
    · refine adds.size.trans ?_
      rw [statementCode, code]
      rfl
  · obtain ⟨s, c, compiled, chunks, -, holds⟩ := script "main" constants labels names
    rw [statementCode, code] at holds
    exact ⟨s, c, compiled, chunks, holds⟩

end Tree

end ScriptEngine
