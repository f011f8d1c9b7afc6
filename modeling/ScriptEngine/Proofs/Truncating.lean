import ScriptEngine.Proofs.Loading

/-!
# Parts of a stored script

The bytes of a stored script say nothing about where they end, so a script that lost its
end has to be noticed by what is missing. A reader `Needs` what it takes when it takes
the same bytes whatever follows them, and asks for more when it is given a part of them.
Every reader of the format is put together from readers that do, and the checks between
them take nothing.

Writing succeeds only for what can be stored. So a stored script is read, and each part
of it is found to be truncated.
-/
namespace ScriptEngine

namespace Stored

/-- The reader takes the bytes that it takes in front of anything, and no part of them is enough. -/
def Needs {α : Type} (read : Reader α) : Prop :=
  ∀ input x rest, read input = .ok (x, rest) → ∃ front, input = front ++ rest ∧
    Takes read front x ∧ ∀ k < front.length, read (front.take k) = .error .truncated

namespace Needs

variable {α β : Type}

theorem pure (x : α) : Needs (Pure.pure x) := by
  intro input y rest h
  cases h
  exact ⟨[], rfl, Takes.pure x, nofun⟩

theorem throw (f : Fault) : Needs (throw f : Reader α) := by
  intro input x rest h
  cases h

theorem lift (check : Except Fault α) : Needs (StateT.lift check) := by
  intro input x rest h
  cases passed : check with
  | error f =>
    rw [passed] at h
    cases h
  | ok y =>
    rw [passed] at h
    cases h
    exact ⟨[], rfl, Takes.lift rfl, nofun⟩

/-- A part of what two readers take is a part of what the first takes, or all of that and a
part of what the second takes. -/
theorem bind {read : Reader α} {next : α → Reader β} (first : Needs read)
    (second : ∀ x, Needs (next x)) : Needs (read >>= next) := by
  intro input y rest h
  have unfold_bind : ∀ bytes, (read >>= next) bytes = (read bytes).bind fun r => next r.1 r.2 :=
    fun _ => rfl
  rw [unfold_bind] at h
  cases found : read input with
  | error f =>
    rw [found] at h
    cases h
  | ok result =>
    obtain ⟨x, middle⟩ := result
    rw [found] at h
    obtain ⟨front, rfl, takes, cut⟩ := first input x middle found
    obtain ⟨back, rfl, takes', cut'⟩ := second x middle y rest h
    refine ⟨front ++ back, (List.append_assoc ..).symm, takes.bind takes', fun k short => ?_⟩
    rw [unfold_bind]
    by_cases inside : k < front.length
    · rw [List.take_append_of_le_length (Nat.le_of_lt inside), cut k inside]
      rfl
    · rw [List.length_append] at short
      have whole : (front ++ back).take k = front ++ back.take (k - front.length) := by
        rw [List.take_append, List.take_of_length_le (by omega)]
      rw [whole, takes]
      exact cut' (k - front.length) (by omega)

theorem map {read : Reader α} (h : Needs read) (f : α → β) : Needs (do return f (← read)) :=
  h.bind fun x => pure (f x)

/-- A condition under which the reader fails. -/
theorem passed {p : Prop} [Decidable p] {f : Fault} {next : Unit → Reader α}
    (h : Needs (next ())) : Needs (if p then MonadExcept.throw f >>= next else next ()) := by
  by_cases hp : p
  · rw [if_pos hp]
    intro input x rest h'
    cases h'
  · rwa [if_neg hp]

/-! ## Parts of a script -/

theorem split_eq_none {n : Nat} {input : Bytes} (h : input.length < n) :
    Reader.split n input = none := by
  induction n generalizing input with
  | zero => cases h
  | succ n ih =>
    cases input with
    | nil => rfl
    | cons b bs => simp [Reader.split, ih (Nat.lt_of_succ_lt_succ h)]

theorem take (n : Nat) : Needs (Reader.take n) := by
  intro input bytes rest h
  cases found : Reader.split n input with
  | none => simp [Reader.take, found] at h
  | some parts =>
    obtain ⟨taken, left⟩ := parts
    simp only [Reader.take, found, Except.ok.injEq, Prod.mk.injEq] at h
    obtain ⟨rfl, rfl⟩ := h
    obtain ⟨rfl, rfl⟩ := split_eq_some found
    refine ⟨taken, rfl, Takes.take taken, fun k short => ?_⟩
    have few : (taken.take k).length < taken.length := by
      rw [List.length_take]
      omega
    simp only [Reader.take, split_eq_none few]

theorem byte : Needs Reader.byte := by
  intro input b rest h
  cases input with
  | nil => cases h
  | cons first others =>
    cases h
    refine ⟨[b], rfl, Takes.byte b, fun k short => ?_⟩
    obtain rfl : k = 0 := Nat.lt_one_iff.mp short
    rfl

theorem word16 : Needs Reader.word16 := (take 2).map _

theorem word32 : Needs Reader.word32 := (take 4).map _

theorem word64 : Needs Reader.word64 := (take 8).map _

theorem length : Needs Reader.length := word32.map _

theorem text : Needs Reader.text := by
  refine length.bind fun n => (take n).bind fun bytes => ?_
  split
  · exact pure _
  · exact throw _

theorem times {read : Reader α} (each : Needs read) (n : Nat) : Needs (Reader.times read n) := by
  induction n with
  | zero => exact pure _
  | succ n ih => exact each.bind fun x => ih.map (x :: ·)

theorem all {read : Reader α} (each : Needs read) : Needs (Reader.all read) :=
  length.bind (times each)

theorem constant : Needs Reader.constant := by
  refine byte.bind fun tag => ?_
  split
  · exact word64.map _
  · exact text.map _
  · exact length.map _
  · exact throw _

theorem lineRun : Needs Reader.lineRun := word32.bind fun _ => word32.map _

theorem instruction : Needs Reader.instruction := by
  refine byte.bind fun _ => byte.bind fun _ => byte.bind fun _ => byte.bind fun _ => ?_
  dsimp only
  split
  · exact pure _
  · exact throw _

theorem kind : Needs Reader.kind := by
  refine byte.bind fun _ => ?_
  split
  · exact pure _
  · exact throw _

theorem chunk : Needs Reader.chunk :=
  text.bind fun _ => text.bind fun _ => text.bind fun _ => kind.bind fun _ => byte.bind fun _ =>
    byte.bind fun _ => length.bind fun codeLength => (all constant).bind fun _ =>
    (all lineRun).bind fun _ => (all word32).bind fun _ => (all text).bind fun _ =>
    (times instruction codeLength).bind fun _ => (all word16).bind fun _ => (all word16).map _

theorem header : Needs Reader.header := by
  refine (take 4).bind fun _ => passed (word32.bind fun _ => ?_)
  split
  · exact throw _
  · exact pure _

theorem script : Needs Reader.script :=
  header.bind fun _ => text.bind fun _ => (all chunk).bind fun _ => (lift _).bind fun _ =>
    length.bind fun _ => passed ((all text).map _)

end Needs

/-! ## What can be written -/

variable {α β : Type}

theorem bind_eq_ok {x : Except Fault α} {f : α → Except Fault β} {b : β} (h : (x >>= f) = .ok b) :
    ∃ a, x = .ok a ∧ f a = .ok b := by
  cases x with
  | error e => cases h
  | ok a => exact ⟨a, rfl, h⟩

theorem lt_of_writeLength {n : Nat} {bytes : Bytes} (h : writeLength n = .ok bytes) : n < 2 ^ 32 := by
  unfold writeLength at h
  split at h
  · assumption
  · cases h

theorem short_of_writeText {s : String} {bytes : Bytes} (h : writeText s = .ok bytes) : Short s := by
  obtain ⟨length, written, -⟩ := bind_eq_ok h
  exact lt_of_writeLength written

theorem written_of_mapM {write : α → Except Fault Bytes} {xs : List α} {parts : List Bytes}
    (h : xs.mapM write = .ok parts) : ∀ x ∈ xs, ∃ bytes, write x = .ok bytes := by
  induction xs generalizing parts with
  | nil => simp
  | cons x xs ih =>
    rw [List.mapM_cons] at h
    obtain ⟨bytes, first, h⟩ := bind_eq_ok h
    obtain ⟨others, rest, -⟩ := bind_eq_ok h
    exact List.forall_mem_cons.mpr ⟨⟨bytes, first⟩, ih rest⟩

theorem written_of_writeAll {write : α → Except Fault Bytes} {xs : List α} {bytes : Bytes}
    (h : writeAll write xs = .ok bytes) :
    xs.length < 2 ^ 32 ∧ ∀ x ∈ xs, ∃ bytes, write x = .ok bytes := by
  obtain ⟨length, written, h⟩ := bind_eq_ok h
  obtain ⟨parts, each, -⟩ := bind_eq_ok h
  exact ⟨lt_of_writeLength written, written_of_mapM each⟩

theorem short_of_writeAll {texts : List String} {bytes : Bytes}
    (h : writeAll writeText texts = .ok bytes) :
    texts.length < 2 ^ 32 ∧ ∀ s ∈ texts, Short s := by
  obtain ⟨few, each⟩ := written_of_writeAll h
  refine ⟨few, fun s hs => ?_⟩
  obtain ⟨bytes, written⟩ := each s hs
  exact short_of_writeText written

/-- A constant that is written can be stored where the chunks that it may refer to come before. -/
theorem storable_of_writeConstant {k : Constant} {count position : Nat} {bytes : Bytes}
    (h : writeConstant count k = .ok bytes)
    (backward : ∀ ref, k = .chunk ref → ∃ i < position, ref = .listed i) : k.Storable position := by
  cases k with
  | number x => exact .number x
  | string s =>
    obtain ⟨text, written, -⟩ := bind_eq_ok h
    exact .string (short_of_writeText written)
  | chunk ref =>
    obtain ⟨i, before, rfl⟩ := backward ref rfl
    exact .chunk before
  | other kind => cases h

theorem storable_of_writeChunk {c : Chunk} {count position : Nat} {bytes : Bytes}
    (h : writeChunk count c = .ok bytes)
    (backward : ∀ ref, .chunk ref ∈ c.constants → ∃ i < position, ref = .listed i) :
    c.Storable position := by
  obtain ⟨_, name, h⟩ := bind_eq_ok h
  obtain ⟨_, source, h⟩ := bind_eq_ok h
  obtain ⟨_, chain, h⟩ := bind_eq_ok h
  obtain ⟨_, code, h⟩ := bind_eq_ok h
  obtain ⟨_, constants, h⟩ := bind_eq_ok h
  obtain ⟨_, lines, h⟩ := bind_eq_ok h
  obtain ⟨_, labels, h⟩ := bind_eq_ok h
  obtain ⟨_, labelNames, h⟩ := bind_eq_ok h
  obtain ⟨_, arguments, h⟩ := bind_eq_ok h
  obtain ⟨_, results, -⟩ := bind_eq_ok h
  have everyConstant : ∀ k ∈ c.constants, k.Storable position := by
    intro k hk
    obtain ⟨bytes, written⟩ := (written_of_writeAll constants).2 k (by simpa using hk)
    exact storable_of_writeConstant written fun ref same => backward ref (same ▸ hk)
  exact {
    name := short_of_writeText name
    source := short_of_writeText source
    chain := short_of_writeText chain
    code := lt_of_writeLength code
    constants := by simpa using (written_of_writeAll constants).1
    lines := by simpa using (written_of_writeAll lines).1
    labels := by simpa using (written_of_writeAll labels).1
    labelNames := by simpa using (short_of_writeAll labelNames).1
    arguments := by simpa using (written_of_writeAll arguments).1
    results := by simpa using (written_of_writeAll results).1
    everyConstant := everyConstant
    everyLabelName := fun s hs => (short_of_writeAll labelNames).2 s (by simpa using hs) }

end Stored

open Stored

/-- Whatever is written can be stored, where chunks refer to chunks before them. -/
theorem Script.storable_of_toBytes {s : Script} {bytes : Bytes} (h : s.toBytes = .ok bytes)
    (backward : ∀ p (inside : p < s.chunks.size) (ref : ChunkRef),
      .chunk ref ∈ s.chunks[p].constants → ∃ i < p, ref = .listed i) : s.Storable := by
  obtain ⟨_, hash, h⟩ := bind_eq_ok h
  obtain ⟨_, chunks, h⟩ := bind_eq_ok h
  obtain ⟨_, top, h⟩ := bind_eq_ok h
  obtain ⟨_, diagnostics, -⟩ := bind_eq_ok h
  have listed : ∃ i < s.chunks.size, s.top = .listed i := by
    cases found : s.top with
    | stray name =>
      rw [found] at top
      cases top
    | listed i =>
      refine ⟨i, ?_, rfl⟩
      rw [found, place] at top
      split at top
      · assumption
      · cases top
  have everyChunk : ∀ p (inside : p < s.chunks.size), s.chunks[p].Storable p := by
    intro p inside
    obtain ⟨bytes, written⟩ := (written_of_writeAll chunks).2 s.chunks[p] (by simp)
    exact storable_of_writeChunk written (backward p inside)
  exact {
    hash := short_of_writeText hash
    chunks := by simpa using (written_of_writeAll chunks).1
    diagnostics := by simpa using (short_of_writeAll diagnostics).1
    top := listed
    everyChunk := everyChunk
    everyDiagnostic := fun d hd => (short_of_writeAll diagnostics).2 d (by simpa using hd) }

/-- Of a stored script whose chunks refer to chunks before them, every part that is not the whole
is found to be truncated. -/
theorem Script.ofBytes_take {s : Script} {bytes : Bytes} (written : s.toBytes = .ok bytes)
    (backward : ∀ p (inside : p < s.chunks.size) (ref : ChunkRef),
      .chunk ref ∈ s.chunks[p].constants → ∃ i < p, ref = .listed i)
    (k : Nat) (short : k < bytes.length) : Script.ofBytes (bytes.take k) = .error .truncated := by
  obtain ⟨stored, written', taken⟩ := Kept.script (Script.storable_of_toBytes written backward)
  obtain rfl : bytes = stored := Except.ok.inj (written.symm.trans written')
  obtain ⟨front, split, -, cut⟩ := Needs.script _ _ _ (taken [])
  simp only [List.append_nil] at split
  subst split
  simp only [Script.ofBytes, StateT.run, cut k short]
  rfl

/-- The stored form of the script that doubles a number, cut off inside the name of its first chunk. -/
theorem Script.ofBytes_take_ofDouble : ∃ bytes, Script.ofDouble.toBytes = .ok bytes ∧
    (∀ p (inside : p < Script.ofDouble.chunks.size) (ref : ChunkRef),
      .chunk ref ∈ Script.ofDouble.chunks[p].constants → ∃ i < p, ref = .listed i) ∧
    26 < bytes.length ∧ Script.ofBytes (bytes.take 26) = .error .truncated := by
  have backward : ∀ p (inside : p < Script.ofDouble.chunks.size) (ref : ChunkRef),
      .chunk ref ∈ Script.ofDouble.chunks[p].constants → ∃ i < p, ref = .listed i := by
    intro p inside ref hk
    cases (Script.ofDouble_storable.everyChunk p inside).everyConstant _ hk with
    | chunk before => exact ⟨_, before, rfl⟩
  obtain ⟨bytes, written, taken⟩ := Kept.script Script.ofDouble_storable
  have long : 26 < bytes.length := by
    have size : Script.ofDouble.toBytes.toOption.map (fun bytes => decide (26 < bytes.length)) =
        some true := by decide +kernel
    rw [written] at size
    exact of_decide_eq_true (Option.some.inj size)
  exact ⟨bytes, written, backward, long, Script.ofBytes_take written backward 26 long⟩

end ScriptEngine
