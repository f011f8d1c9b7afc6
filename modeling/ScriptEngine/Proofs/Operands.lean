import ScriptEngine.Proofs.Completing

/-!
# Operands refer to what is there

Whatever an instruction of a compiled chunk names by an index is in the tables of that
chunk, and of the right kind: labels that are placed inside the code, names, numbers and
strings, chunks of the script. A capture that is read or stored is among those that stand
behind the closure that is made of the chunk.
-/
namespace ScriptEngine

/-- What the operands in the chunk at place `j` refer to is there. -/
structure Script.Operands (s : Script) (j : Nat) (c : Chunk) : Prop where
  labels : c.labels.size = c.labelNames.size
  target : ∀ i ∈ c.code, ∀ l, i.target? = some l →
    l.toNat < c.labels.size ∧ ∃ o < c.code.size, c.labelOffset? l = some o
  name : ∀ i ∈ c.code, ∀ n, i.name? = some n → ∃ t, c.constants[n.toNat]? = some (.string t)
  heads : ∀ n, n ∈ c.arguments ∨ n ∈ c.results → ∃ t, c.constants[n.toNat]? = some (.string t)
  constant : ∀ n, .pushConstant n ∈ c.code →
    (∃ x, c.constants[n.toNat]? = some (.number x)) ∨ ∃ t, c.constants[n.toNat]? = some (.string t)
  closure : ∀ k, .closure k ∈ c.code → ∃ d < s.chunks.size, c.constants[k.toNat]? = some (.chunk (.listed d))
  /-- There is a closure of the chunk, and captures enough behind any. -/
  upvalue : ∀ i ∈ c.code, ∀ n, i.upvalue? = some n → (∃ p o, s.Closes p o j) ∧
    ∀ p o d, s.Closes p o j → s.chunks[p]? = some d → n.toNat < d.captured o
  numbers : ∀ (m n : Nat) x, c.constants[m]? = some (.number x) → c.constants[n]? = some (.number x) → m = n
  strings : ∀ (m n : Nat) t, c.constants[m]? = some (.string t) → c.constants[n]? = some (.string t) → m = n
  last : ∃ n, c.code.back? = some (.ret n)

section Chunk
variable {c : Chunk}

theorem Chunk.name?_isSome {n : UInt16} : (c.name? n).isSome ↔ ∃ t, c.constants[n.toNat]? = some (.string t) := by
  unfold Chunk.name?
  split
  · rename_i t found
    simp [found]
  · rename_i other
    simpa using fun t found => other t found

/-- Constants that might share an entry do. -/
theorem Chunk.Tabled.eq_of_shares (h : c.Tabled) {k : Constant} (shared : Chunk.shares k k = true) {m n : Nat}
    (hm : c.constants[m]? = some k) (hn : c.constants[n]? = some k) : m = n := by
  rw [← Array.getElem?_toList] at hm hn
  have apart : ¬ Chunk.shares k k = false := by simp [shared]
  exact eq_of_pairwise h.distinct hm hn apart apart

/-- A label that is jumped to is placed, before the end. -/
theorem Finished.target {known : Array Chunk} {N : Notes} (h : Finished known c N) (small : c.code.size < 2 ^ 32 - 1)
    {i : Instruction} (hi : i ∈ c.code) {l : UInt16} (target : i.target? = some l) :
    l.toNat < c.labels.size ∧ ∃ o < c.code.size, c.labelOffset? l = some o := by
  obtain ⟨o, inside, rfl⟩ := Array.getElem_of_mem hi
  have code := Array.getElem?_eq_getElem inside
  obtain ⟨label, offset⟩ := h.levels.label o _ l code target
  obtain ⟨t, placed, place⟩ := h.label code target
  exact ⟨(Array.getElem?_eq_some_iff.mp label).1, t, h.placed _ t placed, place ▸ offset (by omega)⟩

end Chunk

section InOrder
variable {s : Script} {c : Chunk} {p o j : Nat}

theorem InOrder.closure (h : InOrder s.chunks) (hc : c ∈ s.chunks) {k : UInt16} (made : .closure k ∈ c.code) :
    ∃ d < s.chunks.size, c.constants[k.toNat]? = some (.chunk (.listed d)) := by
  have tabled := h.tabled c hc
  obtain ⟨d, closed⟩ := Option.isSome_iff_exists.mp (tabled.made k made)
  have mem : d ∈ c.refs := tabled.closed ▸ List.mem_filterMap.mpr ⟨_, Array.mem_toList_iff.mpr made, closed⟩
  have listed : d ∈ s.chunks.toList.flatMap Chunk.refs := List.mem_flatMap.mpr ⟨c, Array.mem_toList_iff.mpr hc, mem⟩
  obtain ⟨k', same, found⟩ := Chunk.closed?_eq_some.mp closed
  cases same
  have := List.mem_range.mp (h.refs.mem_iff.mp listed)
  exact ⟨d, by omega, found⟩

/-- The chunk of the script reads no captures, and any other chunk no more than its closure brings. -/
theorem InOrder.upvalue (h : InOrder s.chunks) (tree : s.Tree) (hc : s.chunks[j]? = some c) {i : Instruction}
    (hi : i ∈ c.code) {n : UInt8} (captured : i.upvalue? = some n) : (∃ p o, s.Closes p o j) ∧
      ∀ p o d, s.Closes p o j → s.chunks[p]? = some d → n.toNat < d.captured o := by
  constructor
  · rcases Nat.lt_or_ge (j + 1) s.chunks.size with inner | whole
    · obtain ⟨⟨p, o⟩, closes, -⟩ := tree.closed j inner
      exact ⟨p, o, closes⟩
    · obtain ⟨d, last, none⟩ := h.script
      have inside := (Array.getElem?_eq_some_iff.mp hc).1
      rw [Array.back?_eq_getElem?, show s.chunks.size - 1 = j by omega, hc] at last
      cases last
      exact absurd (none i hi n captured) (Nat.not_lt_zero _)
  · rintro p o d ⟨d', k, hd', code, constant⟩ hd
    obtain rfl : d' = d := Option.some.inj (hd'.symm.trans hd)
    have supplies := h.supplies d' (Array.mem_of_getElem? hd)
    exact supplies o _ j c code (Chunk.closed?_eq_some.mpr ⟨k, rfl, constant⟩) hc i hi n captured

end InOrder

/-- What the operands of compiled code refer to is there, and code ends with a return. -/
theorem Script.operands {tokens : List Token} {scriptName : String} {s : Script} (made : Made tokens scriptName s)
    (j : Nat) (c : Chunk) (hc : s.chunks[j]? = some c) (small : c.code.size < 2 ^ 32 - 1) : s.Operands j c := by
  have mem := Array.mem_of_getElem? hc
  have ordered := made.inOrder
  have tabled := ordered.tabled c mem
  obtain ⟨N, finished⟩ := made.finished c mem
  obtain ⟨width, -, -, draft⟩ := finished.draft
  have fits (i : Instruction) (hi : i ∈ c.code) : ∃ p, Fits (fun _ _ => True) c width p i := by
    obtain ⟨o, inside, rfl⟩ := Array.getElem_of_mem hi
    exact ⟨_, draft.flow.fits o _ (Array.getElem?_eq_getElem inside)⟩
  exact {
    labels := tabled.labels
    target := fun i hi l target => finished.target small hi target
    name := fun i hi n named => by
      obtain ⟨p, fits⟩ := fits i hi
      exact Chunk.name?_isSome.mp (fits.name n named)
    heads := fun n listed => Chunk.name?_isSome.mp (tabled.named n listed)
    constant := fun n hn => by
      obtain ⟨p, fits⟩ := fits _ hn
      exact fits.constant n rfl
    closure := fun k hk => ordered.closure mem hk
    upvalue := fun i hi n captured => ordered.upvalue (ordered.tree made.top) hc hi captured
    numbers := fun m n x hm hn => tabled.eq_of_shares (by simp [Chunk.shares]) hm hn
    strings := fun m n t hm hn => tabled.eq_of_shares (by simp [Chunk.shares]) hm hn
    last := finished.last }

theorem Script.operands_smallClosure : ∃ s, Made smallClosure "main" s ∧ s.chunks = smallChunks ∧
    ∀ j c, s.chunks[j]? = some c → c.code.size < 2 ^ 32 - 1 ∧ s.Operands j c := by
  obtain ⟨s, made, chunks, -⟩ := made_smallClosure
  have small : ∀ c ∈ s.chunks, c.code.size < 2 ^ 32 - 1 := by
    rw [chunks]
    decide
  refine ⟨s, made, chunks, fun j c hc => ?_⟩
  have short := small c (Array.mem_of_getElem? hc)
  exact ⟨short, operands made j c hc short⟩

end ScriptEngine
