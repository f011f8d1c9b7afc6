import ScriptEngine.Proofs.Assembled

/-!
# Chunks are level

A layout says what the frame of a chunk holds ahead of each of its instructions,
and with it how high the stack is there. It is level when control comes to every
instruction at one height only, and no instruction takes what lies below it. The
notes that go with a complete chunk are such a layout.
-/
namespace ScriptEngine

/-- What the frame holds ahead of every instruction of a chunk, and where the labels of the chunk stand. -/
structure Layout where
  point : Nat → Point
  place : Nat → Nat

/-- The offsets that control may come to. -/
inductive Layout.Reachable (l : Layout) (c : Chunk) : Nat → Prop
  | entry : Reachable l c 0
  | next {o : Nat} {i : Instruction} (before : Reachable l c o) (code : c.code[o]? = some i) (falls : i.falls) :
      Reachable l c (o + 1)
  | jump {o : Nat} {i : Instruction} {label : UInt16} (before : Reachable l c o) (code : c.code[o]? = some i)
      (target : i.target? = some label) : Reachable l c (l.place label.toNat)

/-- How many values an instruction takes from a frame and how many it leaves in their place. A region for
several results counts as one value up to its end, and then as the number of values that is expected of it,
which is on top when it is checked. -/
def Instruction.balance (i : Instruction) (p : Point) : Nat × Nat :=
  match i, p.held with
  | closure _, _ | multiVarEnd, _ => (0, 1)
  | capture _, _ | multiVarStart, _ => (0, 0)
  | closeUpvalue, _ | testSet _, _ | initChain, _ => (1, 0)
  | validate _, .byte m :: _ => (3, m.toNat)
  | i, _ => i.effect.getD (0, 0)

/-- A layout that gives every instruction one height. -/
structure Layout.Levels (l : Layout) (known : Array Chunk) (c : Chunk) : Prop where
  /-- Slot zero and the arguments. -/
  entry : (l.point 0).height = 1 + c.arity
  within : ∀ o, l.Reachable c o → o < c.code.size
  /-- Instructions have their effects from point to point. -/
  effect : ∀ o i, l.Reachable c o → c.code[o]? = some i → ∃ p, Effect known c i (l.point o) p ∧
    (i.falls → p ≤ l.point (o + 1)) ∧ ∀ label, i.target? = some label → p ≤ l.point (l.place label.toNat)
  /-- Slot zero is not taken. -/
  takes : ∀ o i, l.Reachable c o → c.code[o]? = some i → (i.balance (l.point o)).1 < (l.point o).height
  next : ∀ o i, l.Reachable c o → c.code[o]? = some i → i.falls →
    (l.point (o + 1)).height + (i.balance (l.point o)).1 = (l.point o).height + (i.balance (l.point o)).2
  jump : ∀ o (i : Instruction) label, l.Reachable c o → c.code[o]? = some i → i.target? = some label →
    (l.point (l.place label.toNat)).height + (i.balance (l.point o)).1 =
      (l.point o).height + (i.balance (l.point o)).2
  /-- Labels are kept in words of 32 bits. -/
  label : ∀ (o : Nat) (i : Instruction) label, c.code[o]? = some i → i.target? = some label →
    c.labels[label.toNat]? = some (UInt32.ofNat (l.place label.toNat)) ∧
      (c.code.size < 2 ^ 32 → c.labelOffset? label = some (l.place label.toNat))
  slot : ∀ (o : Nat) (i : Instruction) n, c.code[o]? = some i → i.slot? = some n → n.toNat < (l.point o).height

section Effect
variable {known : Array Chunk} {c : Chunk} {i : Instruction} {p q : Point} {name : String} {id : Nat}

theorem balance_of_effect {takes gives : Nat} (h : i.effect = some (takes, gives)) (p : Point) :
    i.balance p = (takes, gives) := by
  have plain : i.balance p = i.effect.getD (0, 0) := by
    cases i <;> first | rfl | cases h
  rw [plain, h]
  rfl

/-- An instruction changes the top of a frame, by its balance; nothing else is left only where it takes no
variable. -/
theorem Effect.split (h : Effect known c i p q) : ∃ τ σ ρ, p.held = τ ++ ρ ∧ q.held = σ ++ ρ ∧
    i.balance p = (τ.length, σ.length) ∧ (ρ = [] → ∀ e ∈ τ, e.isBound = false) := by
  cases h with
  | @plain _ takes gives τ ρ r effect length values =>
    refine ⟨τ, List.replicate gives .value, ρ, rfl, rfl, ?_, fun _ e he => ?_⟩
    · rw [balance_of_effect effect, length, List.length_replicate]
    · have := values e he
      cases e <;> first | rfl | cases this
  | @byte n held r => exact ⟨[], [.byte n], held, rfl, rfl, rfl, by simp⟩
  | @drop x v e rest r => exact ⟨[.bound x v], [], e :: rest, rfl, rfl, rfl, by simp⟩
  | @close x v e rest r => exact ⟨[.bound x v], [], e :: rest, rfl, rfl, rfl, by simp⟩
  | @closure k j d held r => exact ⟨[], [.value], held, rfl, rfl, rfl, by simp⟩
  | @special k j d held r => exact ⟨[], [.closure j], held, rfl, rfl, rfl, by simp⟩
  | capture => exact ⟨[], [], p.held, rfl, rfl, rfl, by simp⟩
  | @chain j d e rest r => exact ⟨[.closure j], [], e :: rest, rfl, rfl, rfl, by simp⟩
  | @set n j rest r => exact ⟨[.closure j], [], rest, rfl, rfl, rfl, by simp [Held.isBound]⟩
  | @start held => exact ⟨[], [], held, rfl, rfl, rfl, by simp⟩
  | @finish e rest => exact ⟨[], [.count], e :: rest, rfl, rfl, rfl, by simp⟩
  | @validate n e rest value =>
    refine ⟨[.byte n, .count, e], List.replicate n.toNat .value, rest, rfl, rfl, ?_, fun _ x hx => ?_⟩
    · rw [List.length_replicate]
      rfl
    · rcases List.mem_cons.mp hx with rfl | hx
      · rfl
      rcases List.mem_cons.mp hx with rfl | hx
      · rfl
      obtain rfl := List.mem_singleton.mp hx
      cases x <;> first | rfl | cases value

/-- The variable in slot zero stays below what an instruction takes. -/
theorem Effect.above (h : Effect known c i p q) (bottom : p.at? 0 = some (.bound name id)) :
    (i.balance p).1 < p.height ∧ q.height + (i.balance p).1 = p.height + (i.balance p).2 ∧
      q.at? 0 = some (.bound name id) := by
  obtain ⟨τ, σ, ρ, hp, hq, balance, last⟩ := h.split
  unfold Point.at? at bottom ⊢
  unfold Point.height
  rw [hp] at bottom ⊢
  rw [hq, balance]
  have some : 0 < ρ.length := by
    rw [List.length_pos_iff]
    rintro rfl
    have mem : Held.bound name id ∈ τ := by
      rw [List.append_nil] at bottom
      exact List.mem_reverse.mp (List.mem_of_getElem? bottom)
    have := last rfl _ mem
    cases this
  rw [Held.at?_append_of_lt _ some] at bottom ⊢
  refine ⟨?_, ?_, bottom⟩
  · rw [List.length_append]
    dsimp only
    omega
  · rw [List.length_append, List.length_append]
    dsimp only
    omega

end Effect

section Finished
variable {known : Array Chunk} {c : Chunk} {N : Notes} {o : Nat} {i : Instruction}

/-- What a chunk holds ahead of its instructions, by the notes that go with it. -/
def Notes.layout (N : Notes) : Layout := ⟨N.point, fun label => (N.placed label).getD 0⟩

/-- The labels that a complete chunk jumps to have been placed. -/
theorem Finished.label {label : UInt16} (h : Finished known c N) (code : c.code[o]? = some i) (target : i.target? = some label) :
    ∃ t, N.placed label.toNat = some t ∧ N.layout.place label.toNat = t := by
  obtain ⟨width, -, -, draft⟩ := h.draft
  obtain ⟨p, -, -, jumps⟩ := draft.flow.step o i code
  cases placed : N.placed label.toNat with
  | none => exact absurd ((draft.waiting.mem _).mpr ⟨(jumps label target).1, placed⟩) (by simp)
  | some t => exact ⟨t, rfl, congrArg (·.getD 0) placed⟩

theorem Finished.effect (h : Finished known c N) (code : c.code[o]? = some i) : ∃ p, Effect known c i (N.point o) p ∧
    (i.falls → p ≤ N.point (o + 1)) ∧
    ∀ label, i.target? = some label → p ≤ N.point (N.layout.place label.toNat) := by
  obtain ⟨width, -, -, draft⟩ := h.draft
  obtain ⟨p, effect, next, jumps⟩ := draft.flow.step o i code
  refine ⟨p, effect, next, fun label target => ?_⟩
  obtain ⟨t, placed, place⟩ := h.label code target
  rw [place]
  exact Point.le_trans (jumps label target).2 (draft.flow.placed _ t placed).2.2.1

/-- The last instruction of a complete chunk returns. -/
theorem Finished.next (h : Finished known c N) (code : c.code[o]? = some i) (falls : i.falls) :
    o + 1 < c.code.size := by
  have bound := lt_size_of_code code
  obtain ⟨n, last⟩ := h.last
  rw [Array.back?_eq_getElem?] at last
  by_contra full
  rw [show c.code.size - 1 = o by omega, code] at last
  cases last
  cases falls

theorem Finished.within (h : Finished known c N) (reachable : N.layout.Reachable c o) : o < c.code.size := by
  cases reachable with
  | entry =>
    obtain ⟨n, last⟩ := h.last
    rw [Array.back?_eq_getElem?] at last
    have := lt_size_of_code last
    omega
  | next _ code falls => exact h.next code falls
  | jump _ code target =>
    obtain ⟨t, placed, place⟩ := h.label code target
    exact place ▸ h.placed _ t placed

/-- Wherever control comes, slot zero is there. -/
theorem Finished.bottom (h : Finished known c N) (reachable : N.layout.Reachable c o) :
    ∃ name id, (N.point o).at? 0 = some (.bound name id) := by
  induction reachable with
  | entry =>
    obtain ⟨ps, id, entry, -⟩ := h.entry
    refine ⟨c.kind.slotName, id, ?_⟩
    rw [entry]
    simp [Point.at?, Held.at?, calmPoint, bounds]
  | @next o i _ code falls ih =>
    obtain ⟨name, id, bottom⟩ := ih
    obtain ⟨p, effect, next, -⟩ := h.effect code
    exact ⟨name, id, Point.at?_bound (next falls) (effect.above bottom).2.2⟩
  | jump _ code target ih =>
    obtain ⟨name, id, bottom⟩ := ih
    obtain ⟨p, effect, -, jumps⟩ := h.effect code
    exact ⟨name, id, Point.at?_bound (jumps _ target) (effect.above bottom).2.2⟩

/-- The notes of a complete chunk are level. -/
theorem Finished.levels (h : Finished known c N) : N.layout.Levels known c := by
  obtain ⟨width, -, -, draft⟩ := h.draft
  refine ⟨?_, fun o => h.within, fun o i _ code => h.effect code, fun o i reachable code => ?_,
    fun o i reachable code falls => ?_, fun o i label reachable code target => ?_, fun o i label code target => ?_,
    fun o i n code slot => ?_⟩
  · obtain ⟨ps, id, entry, length⟩ := h.entry
    change (N.point 0).height = _
    rw [entry, ← show ps.length = c.arity from length]
    simp [Point.height, calmPoint, Nat.add_comm]
  · obtain ⟨name, id, bottom⟩ := h.bottom reachable
    obtain ⟨p, effect, -⟩ := h.effect code
    exact (effect.above bottom).1
  · obtain ⟨name, id, bottom⟩ := h.bottom reachable
    obtain ⟨p, effect, next, -⟩ := h.effect code
    change (N.point (o + 1)).height + _ = _
    rw [← Point.height_eq (next falls)]
    exact (effect.above bottom).2.1
  · obtain ⟨name, id, bottom⟩ := h.bottom reachable
    obtain ⟨p, effect, -, jumps⟩ := h.effect code
    change (N.point _).height + _ = _
    rw [← Point.height_eq (jumps label target)]
    exact (effect.above bottom).2.1
  · obtain ⟨t, placed, place⟩ := h.label code target
    have bound := h.placed _ t placed
    obtain ⟨-, -, -, labels⟩ := draft.flow.placed _ t placed
    rw [place]
    refine ⟨labels, fun small => ?_⟩
    have same : (UInt32.ofNat t).toNat = t := by
      rw [UInt32.toNat_ofNat', Nat.mod_eq_of_lt (by omega)]
    have real : UInt32.ofNat t ≠ Chunk.unplaced := by
      intro unplaced
      have last : t = 2 ^ 32 - 1 := same.symm.trans (congrArg UInt32.toNat unplaced)
      omega
    unfold Chunk.labelOffset?
    rw [labels]
    dsimp only
    rw [if_neg real, same]
  · obtain ⟨name, id, found, -⟩ := (draft.flow.fits o i code).slot n slot
    exact Held.lt_of_at? found

end Finished

end ScriptEngine
