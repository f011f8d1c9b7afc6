import ScriptEngine.Proofs.Referring
import ScriptEngine.Proofs.Storing

/-!
# Chunks in the order in which they are complete

A function is complete before the one around it, so the chunks of a script are a tree that
is listed from its leaves: every chunk but the last is a constant of exactly one chunk, which
comes later, and exactly one instruction makes a closure of it. Writing a script relies on
this, and reading it back does. Only lengths of four bytes may be too short for a script
whose strings are short.
-/
namespace ScriptEngine

/-! ## Positions -/

section Position
variable {α β : Type}

theorem eq_of_pairwise {R : α → α → Prop} {xs : List α} (apart : xs.Pairwise R) {p q : Nat} {x y : α}
    (hp : xs[p]? = some x) (hq : xs[q]? = some y) (there : ¬ R x y) (back : ¬ R y x) : p = q := by
  obtain ⟨insideP, rfl⟩ := List.getElem?_eq_some_iff.mp hp
  obtain ⟨insideQ, rfl⟩ := List.getElem?_eq_some_iff.mp hq
  rw [List.pairwise_iff_getElem] at apart
  rcases Nat.lt_trichotomy p q with before | same | behind
  · exact absurd (apart p q insideP insideQ before) there
  · exact same
  · exact absurd (apart q p insideQ insideP behind) back

/-- What is found once in the lists together is found at one position of one list. -/
theorem existsUnique_position {xs : List α} {f : α → List β} {g : α → β → Option Nat} {j : Nat}
    (nodup : (xs.flatMap fun x => (f x).filterMap (g x)).Nodup)
    (mem : j ∈ xs.flatMap fun x => (f x).filterMap (g x)) :
    ∃! a : Nat × Nat, ∃ x y, xs[a.1]? = some x ∧ (f x)[a.2]? = some y ∧ g x y = some j := by
  obtain ⟨each, apart⟩ := List.nodup_flatMap.mp nodup
  obtain ⟨x, hx, mem⟩ := List.mem_flatMap.mp mem
  obtain ⟨y, hy, found⟩ := List.mem_filterMap.mp mem
  obtain ⟨p, hp⟩ := List.mem_iff_getElem?.mp hx
  obtain ⟨o, ho⟩ := List.mem_iff_getElem?.mp hy
  refine ⟨(p, o), ⟨x, y, hp, ho, found⟩, ?_⟩
  rintro ⟨p', o'⟩ ⟨x', y', hp', ho', found'⟩
  have mem' : j ∈ (f x').filterMap (g x') := List.mem_filterMap.mpr ⟨y', List.mem_of_getElem? ho', found'⟩
  obtain rfl : p' = p :=
    eq_of_pairwise apart hp' hp (fun disjoint => disjoint mem' mem) fun disjoint => disjoint mem mem'
  obtain rfl : x' = x := Option.some.inj (hp'.symm.trans hp)
  have inner := List.pairwise_filterMap.mp (each x' hx)
  obtain rfl : o' = o :=
    eq_of_pairwise inner ho' ho (fun other => other j found' j found rfl) fun other => other j found j found' rfl
  rfl

end Position

/-! ## The tree of the chunks -/

/-- The constant `k` of the chunk `p` is the chunk `j`. -/
def Script.Holds (s : Script) (p k j : Nat) : Prop :=
  ∃ c, s.chunks[p]? = some c ∧ c.constants[k]? = some (.chunk (.listed j))

/-- The instruction at `o` in the chunk `p` makes a closure of the chunk `j`. -/
def Script.Closes (s : Script) (p o j : Nat) : Prop :=
  ∃ c k, s.chunks[p]? = some c ∧ c.code[o]? = some (.closure k) ∧ c.constants[k.toNat]? = some (.chunk (.listed j))

/-- Chunks are listed behind the chunks that they refer to, and the whole script comes last. -/
structure Script.Tree (s : Script) : Prop where
  some : 0 < s.chunks.size
  top : s.top = .listed (s.chunks.size - 1)
  listed : ∀ c ∈ s.chunks, ∀ r, .chunk r ∈ c.constants → ∃ j, r = .listed j
  backward : ∀ p k j, s.Holds p k j → j < p
  held : ∀ j, j + 1 < s.chunks.size → ∃! a : Nat × Nat, s.Holds a.1 a.2 j
  closed : ∀ j, j + 1 < s.chunks.size → ∃! a : Nat × Nat, s.Closes a.1 a.2 j

theorem Constant.ref?_eq_some {k : Constant} {j : Nat} : k.ref? = some j ↔ k = .chunk (.listed j) := by
  cases k with
  | chunk r => cases r <;> simp [Constant.ref?]
  | _ => simp [Constant.ref?]

theorem Chunk.closed?_eq_some {c : Chunk} {i : Instruction} {j : Nat} :
    c.closed? i = some j ↔ ∃ k, i = .closure k ∧ c.constants[k.toNat]? = some (.chunk (.listed j)) := by
  cases i <;> simp [Chunk.closed?, Option.bind_eq_some_iff, Constant.ref?_eq_some]

namespace InOrder
variable {chunks : Array Chunk} {p j : Nat}

theorem nonempty (h : InOrder chunks) : 0 < chunks.size := by
  obtain ⟨c, last, -⟩ := h.script
  exact Array.size_pos_iff.mpr fun empty => by simp [empty] at last

theorem refs_nodup (h : InOrder chunks) : (chunks.toList.flatMap Chunk.refs).Nodup :=
  h.refs.nodup_iff.mpr List.nodup_range

theorem mem_refs (h : InOrder chunks) (inner : j + 1 < chunks.size) : j ∈ chunks.toList.flatMap Chunk.refs :=
  h.refs.mem_iff.mpr (List.mem_range.mpr (by omega))

theorem flatMap_closed (h : InOrder chunks) : chunks.toList.flatMap Chunk.closed = chunks.toList.flatMap Chunk.refs :=
  List.flatMap_congr fun c hc => (h.tabled c (Array.mem_toList_iff.mp hc)).closed

end InOrder

section Tree
variable {s : Script} {p o k j : Nat}

theorem Script.holds_iff : s.Holds p k j ↔
    ∃ c v, s.chunks.toList[p]? = some c ∧ c.constants.toList[k]? = some v ∧ v.ref? = some j := by
  simp only [Script.Holds, Array.getElem?_toList, Constant.ref?_eq_some]
  aesop

theorem Script.closes_iff : s.Closes p o j ↔
    ∃ c i, s.chunks.toList[p]? = some c ∧ c.code.toList[o]? = some i ∧ c.closed? i = some j := by
  simp only [Script.Closes, Array.getElem?_toList, Chunk.closed?_eq_some]
  aesop

/-- Every chunk but the last is referred to at one place, and made a closure of at one place. -/
theorem InOrder.tree (h : InOrder s.chunks) (top : s.top = .listed (s.chunks.size - 1)) : s.Tree where
  some := h.nonempty
  top := top
  listed := by
    intro c hc r hr
    rcases (h.tabled c hc).constants _ hr with literal | ref
    · cases literal
    · cases r with
      | listed j => exact ⟨j, rfl⟩
      | stray name => cases ref
  backward := by
    rintro p k j ⟨c, hc, held⟩
    have mem : Constant.chunk (.listed j) ∈ c.constants.toList := Array.mem_toList_iff.mpr (Array.mem_of_getElem? held)
    exact h.backward p c hc j (List.mem_filterMap.mpr ⟨_, mem, rfl⟩)
  held := by
    intro j inner
    simp only [Script.holds_iff]
    exact existsUnique_position h.refs_nodup (h.mem_refs inner)
  closed := by
    intro j inner
    have nodup : (s.chunks.toList.flatMap Chunk.closed).Nodup := h.flatMap_closed ▸ h.refs_nodup
    have mem : j ∈ s.chunks.toList.flatMap Chunk.closed := h.flatMap_closed ▸ h.mem_refs inner
    simp only [Script.closes_iff]
    exact existsUnique_position nodup mem

end Tree

/-! ## Writing the tree -/

open Stored

/-- A chunk whose strings are short enough to be stored. -/
structure Chunk.Brief (c : Chunk) : Prop where
  name : Short c.name
  source : Short c.source
  chain : Short c.chain
  constants : ∀ t, .string t ∈ c.constants → Short t
  labelNames : ∀ t ∈ c.labelNames, Short t

structure Script.Brief (s : Script) : Prop where
  hash : Short s.hash
  chunks : ∀ c ∈ s.chunks, c.Brief
  diagnostics : ∀ d ∈ s.diagnostics, Short d

/-- How many chunks, messages or instructions there are, if these are too many. -/
def Script.Oversize (s : Script) (n : Nat) : Prop :=
  2 ^ 32 ≤ n ∧ (n = s.chunks.size ∨ n = s.diagnostics.size ∨ ∃ c ∈ s.chunks, n = c.code.size)

namespace Stored

theorem writeLength_of_le {n : Nat} (h : 2 ^ 32 ≤ n) : writeLength n = .error (.badReference (.tooLong n)) :=
  if_neg (Nat.not_lt.mpr h)

theorem writeAll_of_le {α : Type} {write : α → Except Fault Bytes} {xs : List α} (h : 2 ^ 32 ≤ xs.length) :
    writeAll write xs = .error (.badReference (.tooLong xs.length)) := by
  unfold writeAll
  rw [writeLength_of_le h]
  rfl

/-- Elements are written up to the first that cannot be. -/
theorem mapM_cases {α : Type} {write : α → Except Fault Bytes} {P : α → Fault → Prop} {xs : List α}
    (each : ∀ x ∈ xs, (∃ bytes, write x = .ok bytes) ∨ ∃ e, P x e ∧ write x = .error e) :
    (∀ x ∈ xs, ∃ bytes, write x = .ok bytes) ∨ ∃ x ∈ xs, ∃ e, P x e ∧ xs.mapM write = .error e := by
  induction xs with
  | nil => exact .inl nofun
  | cons x xs ih =>
    obtain ⟨first, others⟩ := List.forall_mem_cons.mp each
    obtain ⟨bytes, written⟩ | ⟨e, bad, failed⟩ := first
    · obtain written' | ⟨y, hy, e, bad, failed⟩ := ih others
      · exact .inl (List.forall_mem_cons.mpr ⟨⟨bytes, written⟩, written'⟩)
      · refine .inr ⟨y, .tail _ hy, e, bad, ?_⟩
        rw [List.mapM_cons, written, failed]
        rfl
    · refine .inr ⟨x, .head _, e, bad, ?_⟩
      rw [List.mapM_cons, failed]
      rfl

end Stored

/-- A chunk that is listed behind those it refers to can be stored but for the number of its instructions. -/
theorem Chunk.Tabled.storable {c : Chunk} {p : Nat} (tabled : c.Tabled) (brief : c.Brief) (backward : ∀ j ∈ c.refs, j < p)
    (heads : c.arguments.size + c.results.size < 256) (code : c.code.size < 2 ^ 32) : c.Storable p where
  name := brief.name
  source := brief.source
  chain := brief.chain
  code := code
  constants := tabled.constantRoom.trans_lt (by decide)
  lines := tabled.lines.trans_lt code
  labels := tabled.labelRoom.trans_lt (by decide)
  labelNames := tabled.labels ▸ tabled.labelRoom.trans_lt (by decide)
  arguments := by omega
  results := by omega
  everyConstant := by
    intro k hk
    rcases tabled.constants k hk with literal | ref
    · cases k with
      | number x => exact .number x
      | string t => exact .string (brief.constants t hk)
      | chunk | other => cases literal
    · obtain ⟨j, ref⟩ := Option.isSome_iff_exists.mp ref
      have before := backward j (List.mem_filterMap.mpr ⟨k, Array.mem_toList_iff.mpr hk, ref⟩)
      rw [Constant.ref?_eq_some.mp ref]
      exact .chunk before
  everyLabelName := brief.labelNames

theorem Chunk.Brief.tooLong {c : Chunk} (brief : c.Brief) (count : Nat) (long : 2 ^ 32 ≤ c.code.size) :
    writeChunk count c = .error (.badReference (.tooLong c.code.size)) := by
  obtain ⟨name, nameWritten, -⟩ := Kept.text brief.name
  obtain ⟨source, sourceWritten, -⟩ := Kept.text brief.source
  obtain ⟨chain, chainWritten, -⟩ := Kept.text brief.chain
  simp only [writeChunk, nameWritten, sourceWritten, chainWritten, writeLength_of_le long, Bind.bind, Except.bind]

namespace InOrder
variable {s : Script}

theorem storableChunk (h : InOrder s.chunks) (heads : ∀ c ∈ s.chunks, c.arguments.size + c.results.size < 256)
    (brief : s.Brief) {p : Nat} {c : Chunk} (hc : s.chunks[p]? = some c) (code : c.code.size < 2 ^ 32) : c.Storable p :=
  have mem := Array.mem_of_getElem? hc
  (h.tabled c mem).storable (brief.chunks c mem) (h.backward p c hc) (heads c mem) code

theorem storable (h : InOrder s.chunks) (top : s.top = .listed (s.chunks.size - 1))
    (heads : ∀ c ∈ s.chunks, c.arguments.size + c.results.size < 256) (brief : s.Brief) (fits : ∀ n, ¬ s.Oversize n) :
    s.Storable where
  hash := brief.hash
  chunks := Nat.not_le.mp fun many => fits _ ⟨many, .inl rfl⟩
  diagnostics := Nat.not_le.mp fun many => fits _ ⟨many, .inr (.inl rfl)⟩
  top := ⟨_, Nat.sub_lt h.nonempty Nat.one_pos, top⟩
  everyChunk := fun _ inside => h.storableChunk heads brief (Array.getElem?_eq_getElem inside) <|
    Nat.not_le.mp fun long => fits _ ⟨long, .inr (.inr ⟨_, Array.getElem_mem inside, rfl⟩)⟩
  everyDiagnostic := brief.diagnostics

/-- The first length that does not fit is reported. -/
theorem tooLong (h : InOrder s.chunks) (top : s.top = .listed (s.chunks.size - 1))
    (heads : ∀ c ∈ s.chunks, c.arguments.size + c.results.size < 256) (brief : s.Brief) {m : Nat} (large : s.Oversize m) :
    ∃ n, s.Oversize n ∧ s.toBytes = .error (.badReference (.tooLong n)) := by
  obtain ⟨hash, hashWritten, -⟩ := Kept.text brief.hash
  rcases Nat.lt_or_ge s.chunks.size (2 ^ 32) with few | many
  case inr =>
    have failed : writeAll (writeChunk s.chunks.size) s.chunks.toList = .error (.badReference (.tooLong s.chunks.size)) :=
      writeAll_of_le many
    refine ⟨_, ⟨many, .inl rfl⟩, ?_⟩
    simp only [Script.toBytes, hashWritten, failed, Bind.bind, Except.bind]
  have kept (c : Chunk) (hc : c ∈ s.chunks.toList) (short : c.code.size < 2 ^ 32) :
      Stored.Kept (writeChunk s.chunks.size) Reader.chunk c := by
    obtain ⟨p, hp⟩ := List.mem_iff_getElem?.mp hc
    rw [Array.getElem?_toList] at hp
    exact Kept.chunk (h.storableChunk heads brief hp short) (Array.getElem?_eq_some_iff.mp hp).1 few
  have long (c : Chunk) (hc : c ∈ s.chunks.toList) := (brief.chunks c (Array.mem_toList_iff.mp hc)).tooLong s.chunks.size
  have each : ∀ c ∈ s.chunks.toList, (∃ bytes, writeChunk s.chunks.size c = .ok bytes) ∨
      ∃ e, (2 ^ 32 ≤ c.code.size ∧ e = .badReference (.tooLong c.code.size)) ∧
        writeChunk s.chunks.size c = .error e := by
    intro c hc
    rcases Nat.lt_or_ge c.code.size (2 ^ 32) with short | size
    · obtain ⟨bytes, written, -⟩ := kept c hc short
      exact .inl ⟨bytes, written⟩
    · exact .inr ⟨_, ⟨size, rfl⟩, long c hc size⟩
  obtain written | ⟨c, hc, e, ⟨size, rfl⟩, failed⟩ := mapM_cases each
  case inr =>
    refine ⟨_, ⟨size, .inr (.inr ⟨c, Array.mem_toList_iff.mp hc, rfl⟩)⟩, ?_⟩
    simp only [Script.toBytes, hashWritten, writeAll, writeLength_of_lt (n := s.chunks.toList.length) few, failed,
      Bind.bind, Except.bind]
  -- all chunks are written, so there are too many messages
  have short (c : Chunk) (hc : c ∈ s.chunks.toList) : c.code.size < 2 ^ 32 := by
    by_contra size
    obtain ⟨bytes, written⟩ := written c hc
    rw [long c hc (Nat.not_lt.mp size)] at written
    cases written
  obtain ⟨chunks, chunksWritten, -⟩ := Kept.all few fun c hc => kept c hc (short c hc)
  have many : 2 ^ 32 ≤ s.diagnostics.size := by
    obtain ⟨size, rfl | rfl | ⟨c, hc, rfl⟩⟩ := large
    · exact absurd few (Nat.not_lt.mpr size)
    · exact size
    · exact absurd (short c (Array.mem_toList_iff.mpr hc)) (Nat.not_lt.mpr size)
  have placed : place s.chunks.size s.top = .ok (bytes32 (UInt32.ofNat (s.chunks.size - 1))) := by
    rw [top, place, if_pos (Nat.sub_lt h.nonempty Nat.one_pos)]
  have failed : writeAll writeText s.diagnostics.toList = .error (.badReference (.tooLong s.diagnostics.size)) :=
    writeAll_of_le many
  refine ⟨_, ⟨many, .inr (.inl rfl)⟩, ?_⟩
  simp only [Script.toBytes, hashWritten, chunksWritten, placed, failed, Bind.bind, Except.bind]

end InOrder

/-! ## Compiled scripts -/

/-- The chunks of a script that has been compiled are a tree. It can be stored and taken back whatever follows, if
its strings are short and there are not too many chunks, messages or instructions. -/
theorem Script.tree_stored {tokens : List Token} {scriptName : String} {s : Script} (made : Made tokens scriptName s) :
    s.Tree ∧ (s.Brief →
      (∃ bytes, s.toBytes = .ok bytes ∧ ∀ rest, Script.ofBytes (bytes ++ rest) = .ok s) ∨
        ∃ n, s.Oversize n ∧ s.toBytes = .error (.badReference (.tooLong n))) := by
  have ordered := made.inOrder
  refine ⟨ordered.tree made.top, fun brief => ?_⟩
  have heads : ∀ c ∈ s.chunks, c.arguments.size + c.results.size < 256 := by
    intro c hc
    obtain ⟨N, finished⟩ := made.finished c hc
    exact finished.heads
  by_cases fits : ∀ n, ¬ s.Oversize n
  · obtain ⟨bytes, written, taken⟩ := Kept.script (ordered.storable made.top heads brief fits)
    exact .inl ⟨bytes, written, taken.ofBytes⟩
  · obtain ⟨n, large⟩ := not_forall_not.mp fits
    exact .inr (ordered.tooLong made.top heads brief large)

/-- What the block with a variable and a function that reads it is compiled to. -/
def Script.smallChunks : Array Chunk := #[
  { name := "f", source := "main", chain := "main.f", kind := .function
    code := #[.getUpvalue 0, .pop, .null, .ret 1]
    lines := #[⟨1, 4⟩], captureCount := 1 },
  { name := "main", source := "main", chain := "main", kind := .script
    code := #[.null, .closure 0, .capture ⟨true, 1⟩, .pop, .closeUpvalue, .null, .ret 1]
    constants := #[.chunk (.listed 0)], lines := #[⟨1, 7⟩] }]

theorem Script.made_smallClosure : ∃ s, Made smallClosure "main" s ∧ s.chunks = smallChunks ∧ s.diagnostics = #[] ∧
    Short s.hash := by
  have parts : (Script.ofTokens smallClosure "main").toOption.map (fun s => (s.chunks, s.diagnostics)) =
      some (smallChunks, #[]) := by decide +kernel
  have hash : (Script.ofTokens smallClosure "main").toOption.all (fun s => Short s.hash) := by decide +kernel
  cases made : Script.ofTokens smallClosure "main" with
  | error e =>
    rw [made] at parts
    cases parts
  | ok s =>
    rw [made] at parts hash
    obtain ⟨chunks, diagnostics⟩ := Prod.mk.inj (Option.some.inj parts)
    exact ⟨s, .inl made, chunks, diagnostics, of_decide_eq_true hash⟩

theorem Script.tree_stored_smallClosure : ∃ s, Made smallClosure "main" s ∧ s.chunks = smallChunks ∧ s.Tree ∧ s.Brief ∧
    ∃ bytes, s.toBytes = .ok bytes ∧ ∀ rest, Script.ofBytes (bytes ++ rest) = .ok s := by
  obtain ⟨s, made, chunks, diagnostics, hash⟩ := made_smallClosure
  obtain ⟨tree, stored⟩ := tree_stored made
  have brief : s.Brief := by
    refine ⟨hash, ?_, by simp [diagnostics]⟩
    simp only [chunks, smallChunks, List.mem_toArray, List.forall_mem_cons]
    refine ⟨⟨by decide, by decide, by decide, by simp, by simp⟩,
      ⟨by decide, by decide, by decide, by simp, by simp⟩, by simp⟩
  obtain stored | ⟨n, ⟨large, size⟩, -⟩ := stored brief
  · exact ⟨s, made, chunks, tree, brief, stored⟩
  · rw [chunks, diagnostics] at size
    have small : n ≤ 7 := by
      simp only [smallChunks, List.mem_toArray, List.mem_cons, List.not_mem_nil, or_false] at size
      obtain rfl | rfl | ⟨c, rfl | rfl, rfl⟩ := size <;> decide
    omega

end ScriptEngine
