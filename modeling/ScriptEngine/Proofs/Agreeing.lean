import ScriptEngine.Proofs.Regions

/-!
# Layouts agree

The notes that go with a complete chunk are not told by the chunk alone, but what they
say of heights and regions is: both follow from the code along every way that control
takes. A chunk has one height and one region ahead of each of its instructions.
-/
namespace ScriptEngine

section

variable {known : Array Chunk} {c : Chunk} {N N' : Notes} {o : Nat} {i : Instruction} {p q p' : Point}

/-- The region behind an instruction. -/
def Instruction.regionAfter (i : Instruction) (p : Point) : Region :=
  match i, p.region with
  | multiVarStart, _ => .opened p.height
  | multiVarEnd, .opened s => .counted s
  | validate _, _ => .none
  | _, r => r

theorem Effect.region (h : Effect known c i p q) : q.region = i.regionAfter p := by
  cases h with
  | plain effect => cases i <;> first | rfl | cases effect
  | _ => rfl

/-- A count with a number on top has got it from the instruction before. -/
theorem Finished.byte_pushed (h : Finished known c N) (reachable : N.layout.Reachable c o) {s : Nat} {m : UInt8}
    (region : (N.point o).region = .counted s) (top : (N.point o).held.head? = some (.byte m)) :
    ∃ o', o = o' + 1 ∧ c.code[o']? = some (.pushByte m) := by
  cases reachable with
  | entry =>
    obtain ⟨ps, id, entry, -⟩ := h.entry
    rw [entry] at region
    cases region
  | @next o i _ code falls =>
    obtain ⟨q, effect, next, -⟩ := h.effect code
    have le := next falls
    by_cases counted : (N.point o).region = .counted s
    · obtain ⟨k, held, rfl, split⟩ | ⟨k, e, rest, -, -, -, rfl⟩ := (h.suits code).counted_cases effect counted
      · have expected := h.expected code (show N.point o = ⟨.count :: held, .counted s⟩ by rw [← split, ← counted])
        rw [top] at expected
        cases expected
        exact ⟨o, rfl, code⟩
      · cases le.1.trans region
    · generalize N.point o = p at effect counted
      have after := le.1.trans region
      cases effect with
      | finish value =>
        obtain ⟨e, held, first, -, split⟩ := List.forall₂_cons_left_iff.mp le.2
        rw [split] at top
        cases top
        cases Held.count_le first
      | plain | byte | drop | close | closure | special | capture | chain | set => exact absurd after counted
      | start | validate => cases after
  | @jump o i label _ code target =>
    obtain ⟨q, effect, -, jumps⟩ := h.effect code
    have after := (jumps label target).1.trans region
    have same : i.regionAfter (N.point o) = (N.point o).region := by
      cases i <;> first | rfl | cases target
    rw [effect.region, same] at after
    obtain ⟨k, held, rfl, -⟩ | ⟨k, e, rest, rfl, -⟩ := (h.suits code).counted_cases effect after <;> cases target

/-- Two notes tell the same height and the same region ahead of an instruction. -/
structure Point.Agrees (p p' : Point) : Prop where
  height : p'.height = p.height
  region : p'.region = p.region

theorem Point.Agrees.regionAfter (h : p.Agrees p') (i : Instruction) : i.regionAfter p' = i.regionAfter p := by
  unfold Instruction.regionAfter
  rw [h.height, h.region]

/-- An instruction takes and leaves as many values by either notes. -/
theorem Finished.balance_eq (h : Finished known c N) (h' : Finished known c N') (reachable : N.layout.Reachable c o)
    (reachable' : N'.layout.Reachable c o) (agrees : (N.point o).Agrees (N'.point o)) (code : c.code[o]? = some i) :
    i.balance (N'.point o) = i.balance (N.point o) := by
  cases i with
  | validate check =>
    obtain ⟨q, effect, -⟩ := h.effect code
    obtain ⟨q', effect', -⟩ := h'.effect code
    have region := agrees.region
    have pushed {s m} := h.byte_pushed (s := s) (m := m) reachable
    have pushed' {s m} := h'.byte_pushed (s := s) (m := m) reachable'
    generalize N.point o = p at effect pushed region
    generalize N'.point o = p' at effect' pushed' region
    cases effect with
    | plain effect => cases effect
    | validate =>
      cases effect' with
      | plain effect => cases effect
      | validate =>
        obtain ⟨k, rfl, at_⟩ := pushed rfl rfl
        obtain ⟨k', same, at'⟩ := pushed' rfl rfl
        cases same
        cases at_.symm.trans at'
        rfl
  | _ => rfl

/-- What the notes of a chunk say of heights and regions, all notes of it say. -/
theorem Finished.agrees (h : Finished known c N) (h' : Finished known c N') (small : c.code.size < 2 ^ 32)
    (reachable : N.layout.Reachable c o) : N'.layout.Reachable c o ∧ (N.point o).Agrees (N'.point o) := by
  have levels := h.levels
  have levels' := h'.levels
  -- what an instruction comes to by either notes
  have step {o t : Nat} {i : Instruction} {q q' : Point} (before : N.layout.Reachable c o)
      (before' : N'.layout.Reachable c o) (agrees : (N.point o).Agrees (N'.point o)) (code : c.code[o]? = some i)
      (effect : Effect known c i (N.point o) q) (effect' : Effect known c i (N'.point o) q') (le : q ≤ N.point t)
      (le' : q' ≤ N'.point t)
      (height : (N.point t).height + (i.balance (N.point o)).1 = (N.point o).height + (i.balance (N.point o)).2)
      (height' : (N'.point t).height + (i.balance (N'.point o)).1 = (N'.point o).height + (i.balance (N'.point o)).2) :
      (N.point t).Agrees (N'.point t) := by
    rw [h.balance_eq h' before before' agrees code, agrees.height] at height'
    refine ⟨Nat.add_right_cancel (height'.trans height.symm), ?_⟩
    rw [← le'.1, ← le.1, effect.region, effect'.region]
    exact agrees.regionAfter i
  induction reachable with
  | entry =>
    refine ⟨.entry, levels'.entry.trans levels.entry.symm, ?_⟩
    obtain ⟨ps, id, entry, -⟩ := h.entry
    obtain ⟨ps', id', entry', -⟩ := h'.entry
    rw [entry, entry']
    rfl
  | @next o i before code falls ih =>
    obtain ⟨before', agrees⟩ := ih
    obtain ⟨q, effect, next, -⟩ := h.effect code
    obtain ⟨q', effect', next', -⟩ := h'.effect code
    exact ⟨.next before' code falls, step before before' agrees code effect effect' (next falls) (next' falls)
      (levels.next o i before code falls) (levels'.next o i before' code falls)⟩
  | @jump o i label before code target ih =>
    obtain ⟨before', agrees⟩ := ih
    obtain ⟨q, effect, -, jumps⟩ := h.effect code
    obtain ⟨q', effect', -, jumps'⟩ := h'.effect code
    have height' := levels'.jump o i label before' code target
    have place : N'.layout.place label.toNat = N.layout.place label.toNat := by
      have at_ := (levels.label o i label code target).2 small
      have at' := (levels'.label o i label code target).2 small
      exact Option.some.inj (at'.symm.trans at_)
    have reachable' : N'.layout.Reachable c (N'.layout.place label.toNat) := .jump before' code target
    have le' := jumps' label target
    rw [place] at reachable' le' height'
    exact ⟨reachable', step before before' agrees code effect effect' (jumps label target) le'
      (levels.jump o i label before code target) height'⟩

end

end ScriptEngine
