import ScriptEngine.Stored.Read
import ScriptEngine.Stored.Write

/-!
# Reading undoes writing

A part of a script is written as bytes from which its reader takes it back,
whatever follows them. `Takes` says so of given bytes, and bytes that are taken
one after the other are taken together. So the law of a sequence, of a chunk and
of a script is put together in the order in which the parts stand.

Writing fails for a length that does not fit four bytes, for a constant that is
no part of a stored script and for a top chunk outside the list. A script
without these is `Script.Storable`. References are places in the list of
chunks, so chunks at two places are two chunks, whatever they hold.
-/
namespace ScriptEngine

namespace Stored

/-- From the front of these bytes the reader takes `x`, and nothing after them. -/
def Takes {α : Type} (read : Reader α) (bytes : Bytes) (x : α) : Prop :=
  ∀ rest, read (bytes ++ rest) = .ok (x, rest)

/-- What is written of `x` is read as `x`. -/
def Kept {α : Type} (write : α → Except Fault Bytes) (read : Reader α) (x : α) : Prop :=
  ∃ bytes, write x = .ok bytes ∧ Takes read bytes x

namespace Takes

variable {α β : Type}

theorem pure (x : α) : Takes (Pure.pure x) [] x := fun _ => rfl

theorem bind {read : Reader α} {next : α → Reader β} {front back : Bytes} {x : α} {y : β}
    (first : Takes read front x) (second : Takes (next x) back y) :
    Takes (read >>= next) (front ++ back) y := by
  intro rest
  have h : read (front ++ (back ++ rest)) = .ok (x, back ++ rest) := first (back ++ rest)
  simp only [List.append_assoc, Bind.bind, StateT.bind, h, Except.bind]
  exact second rest

/-- What follows may take nothing. -/
theorem last {read : Reader α} {next : α → Reader β} {bytes : Bytes} {x : α} {y : β}
    (first : Takes read bytes x) (second : Takes (next x) [] y) :
    Takes (read >>= next) bytes y := by
  rw [← List.append_nil bytes]
  exact first.bind second

theorem map {read : Reader α} {bytes : Bytes} {x : α} (h : Takes read bytes x) (f : α → β) :
    Takes (do return f (← read)) bytes (f x) := h.last (pure (f x))

/-- A check that passes takes nothing. -/
theorem lift {check : Except Fault α} {x : α} (h : check = .ok x) :
    Takes (StateT.lift check) [] x := by
  intro rest
  subst h
  rfl

theorem byte (b : UInt8) : Takes Reader.byte [b] b := fun _ => rfl

theorem take (bytes : Bytes) : Takes (Reader.take bytes.length) bytes bytes := by
  intro rest
  simp only [Reader.take, Reader.split_append]

theorem word16 (n : UInt16) : Takes Reader.word16 (bytes16 n) n := by
  have value : UInt16.ofNat (Reader.value (bytes16 n)) = n := by
    have h := n.toNat_lt
    apply UInt16.toNat_inj.mp
    simp [bytes16, Reader.value, Nat.shiftRight_eq_div_pow]
    omega
  have h := (take (bytes16 n)).map fun bytes => UInt16.ofNat (Reader.value bytes)
  rwa [value] at h

theorem value_bytes32 (n : UInt32) : Reader.value (bytes32 n) = n.toNat := by
  have h := n.toNat_lt
  simp [bytes32, Reader.value, Nat.shiftRight_eq_div_pow]
  omega

theorem word32 (n : UInt32) : Takes Reader.word32 (bytes32 n) n := by
  have h := (take (bytes32 n)).map fun bytes => UInt32.ofNat (Reader.value bytes)
  rwa [value_bytes32, UInt32.ofNat_toNat] at h

theorem word64 (n : UInt64) : Takes Reader.word64 (bytes64 n) n := by
  have value : UInt64.ofNat (Reader.value (bytes64 n)) = n := by
    have h := n.toNat_lt
    apply UInt64.toNat_inj.mp
    simp [bytes64, bytes32, Reader.value, Nat.shiftRight_eq_div_pow]
    omega
  have h := (take (bytes64 n)).map fun bytes => UInt64.ofNat (Reader.value bytes)
  rwa [value] at h

theorem length {n : Nat} (h : n < 2 ^ 32) : Takes Reader.length (bytes32 (UInt32.ofNat n)) n := by
  have toNat : (UInt32.ofNat n).toNat = n := by simpa using h
  have read := (word32 (UInt32.ofNat n)).map UInt32.toNat
  rwa [toNat] at read

theorem instruction (i : Instruction) : Takes Reader.instruction i.encode.bytes i := by
  intro rest
  have word : (⟨i.encode.op, i.encode.a, i.encode.b, i.encode.c⟩ : Word) = i.encode := rfl
  simp only [Reader.instruction, Word.bytes, Bind.bind, StateT.bind, Reader.byte, Except.bind,
    List.cons_append, word, Instruction.decode_encode]
  rfl

theorem kind (k : FunctionKind) : Takes Reader.kind [k.toByte] k := by
  intro rest
  simp only [Reader.kind, Bind.bind, StateT.bind, Reader.byte, Except.bind, List.cons_append,
    FunctionKind.ofByte?_toByte]
  rfl

theorem lineRun (run : LineRun) : Takes Reader.lineRun (writeRun run) run :=
  (word32 run.line).bind ((word32 run.count).map (LineRun.mk run.line))

/-- Elements that are taken one by one are taken as a list. -/
theorem times {read : Reader α} {write : α → Bytes} {xs : List α}
    (each : ∀ x ∈ xs, Takes read (write x) x) :
    Takes (Reader.times read xs.length) (xs.map write).flatten xs := by
  induction xs with
  | nil => exact pure []
  | cons x xs ih =>
    have first := each x List.mem_cons_self
    have others := ih fun y hy => each y (List.mem_cons_of_mem x hy)
    exact first.bind (others.map fun ys => x :: ys)

end Takes

/-! ## Parts of a script -/

theorem writeLength_of_lt {n : Nat} (h : n < 2 ^ 32) :
    writeLength n = .ok (bytes32 (UInt32.ofNat n)) := if_pos h

/-- Writing a list whose elements can be written puts their bytes in a row. -/
theorem mapM_ok {α : Type} {write : α → Except Fault Bytes} {bytes : α → Bytes} {xs : List α}
    (each : ∀ x ∈ xs, write x = .ok (bytes x)) : xs.mapM write = .ok (xs.map bytes) := by
  induction xs with
  | nil => rfl
  | cons x xs ih =>
    have others := ih fun y hy => each y (List.mem_cons_of_mem x hy)
    simp only [List.mapM_cons, each x List.mem_cons_self, others]
    rfl

theorem Kept.all {α : Type} {write : α → Except Fault Bytes} {read : Reader α} {xs : List α}
    (few : xs.length < 2 ^ 32) (each : ∀ x ∈ xs, Kept write read x) :
    Kept (writeAll write) (Reader.all read) xs := by
  classical
  let bytes (x : α) : Bytes := if h : x ∈ xs then (each x h).choose else []
  have chosen : ∀ x ∈ xs, write x = .ok (bytes x) ∧ Takes read (bytes x) x := by
    intro x hx
    simp only [bytes, hx, dite_true]
    exact (each x hx).choose_spec
  refine ⟨bytes32 (UInt32.ofNat xs.length) ++ (xs.map bytes).flatten, ?_, ?_⟩
  · simp only [writeAll, writeLength_of_lt few, mapM_ok fun x hx => (chosen x hx).1]
    rfl
  · exact (Takes.length few).bind (Takes.times fun x hx => (chosen x hx).2)

/-- A string short enough to be stored. -/
def Short (s : String) : Prop := s.utf8ByteSize < 2 ^ 32

instance (s : String) : Decidable (Short s) := Nat.decLt _ _

theorem Kept.text {s : String} (h : Short s) : Kept writeText Reader.text s := by
  have few : s.toUTF8.data.toList.length < 2 ^ 32 := h
  refine ⟨bytes32 (UInt32.ofNat s.toUTF8.data.toList.length) ++ s.toUTF8.data.toList, ?_, ?_⟩
  · simp only [writeText, writeLength_of_lt few]
    rfl
  · have whole : String.fromUTF8? ⟨s.toUTF8.data.toList.toArray⟩ = some s := by
      simp only [String.fromUTF8?, Array.toArray_toList, String.toUTF8_eq_toByteArray,
        dif_pos s.isValidUTF8]
      rfl
    refine (Takes.length few).bind ((Takes.take _).last ?_)
    simp only [whole]
    exact Takes.pure s

end Stored

/-! ## Scripts that can be stored -/

open Stored

/-- A constant of the chunk at some place in the list of chunks. -/
inductive Constant.Storable (position : Nat) : Constant → Prop
  | number (x : Number) : Storable position (.number x)
  | string {s : String} : Short s → Storable position (.string s)
  | chunk {i : Nat} : i < position → Storable position (.chunk (.listed i))

instance (position : Nat) : (k : Constant) → Decidable (k.Storable position)
  | .number x => isTrue (.number x)
  | .string s => decidable_of_iff (Short s) ⟨.string, fun | .string short => short⟩
  | .chunk (.listed i) => decidable_of_iff (i < position) ⟨.chunk, fun | .chunk before => before⟩
  | .chunk (.stray _) | .other _ => isFalse nofun

structure Chunk.Storable (position : Nat) (c : Chunk) : Prop where
  name : Short c.name
  source : Short c.source
  chain : Short c.chain
  code : c.code.size < 2 ^ 32
  constants : c.constants.size < 2 ^ 32
  lines : c.lines.size < 2 ^ 32
  labels : c.labels.size < 2 ^ 32
  labelNames : c.labelNames.size < 2 ^ 32
  arguments : c.arguments.size < 2 ^ 32
  results : c.results.size < 2 ^ 32
  everyConstant : ∀ k ∈ c.constants, k.Storable position
  everyLabelName : ∀ s ∈ c.labelNames, Short s

instance (position : Nat) (c : Chunk) : Decidable (c.Storable position) :=
  decidable_of_iff
    ((Short c.name ∧ Short c.source ∧ Short c.chain) ∧
      (c.code.size < 2 ^ 32 ∧ c.constants.size < 2 ^ 32 ∧ c.lines.size < 2 ^ 32 ∧
        c.labels.size < 2 ^ 32 ∧ c.labelNames.size < 2 ^ 32 ∧ c.arguments.size < 2 ^ 32 ∧
        c.results.size < 2 ^ 32) ∧
      (∀ k ∈ c.constants, k.Storable position) ∧ ∀ s ∈ c.labelNames, Short s)
    ⟨fun ⟨⟨h₁, h₂, h₃⟩, ⟨h₄, h₅, h₆, h₇, h₈, h₉, h₁₀⟩, h₁₁, h₁₂⟩ =>
      ⟨h₁, h₂, h₃, h₄, h₅, h₆, h₇, h₈, h₉, h₁₀, h₁₁, h₁₂⟩,
    fun h => ⟨⟨h.name, h.source, h.chain⟩, ⟨h.code, h.constants, h.lines, h.labels, h.labelNames,
      h.arguments, h.results⟩, h.everyConstant, h.everyLabelName⟩⟩

structure Script.Storable (s : Script) : Prop where
  hash : Short s.hash
  chunks : s.chunks.size < 2 ^ 32
  diagnostics : s.diagnostics.size < 2 ^ 32
  top : ∃ i < s.chunks.size, s.top = .listed i
  everyChunk : ∀ p (h : p < s.chunks.size), s.chunks[p].Storable p
  everyDiagnostic : ∀ d ∈ s.diagnostics, Short d

namespace Stored

theorem Kept.constant {position count : Nat} {k : Constant} (h : k.Storable position)
    (within : position < count) (few : count < 2 ^ 32) :
    Kept (writeConstant count) Reader.constant k := by
  cases h with
  | number x => exact ⟨0 :: bytes64 x.bits, rfl, (Takes.byte 0).bind ((Takes.word64 x.bits).map _)⟩
  | string short =>
    obtain ⟨bytes, written, taken⟩ := Kept.text short
    exact ⟨1 :: bytes, by simp only [writeConstant, written]; rfl, (Takes.byte 1).bind (taken.map _)⟩
  | @chunk i before =>
    have listed : i < count := Nat.lt_trans before within
    refine ⟨2 :: bytes32 (UInt32.ofNat i), ?_, ?_⟩
    · simp only [writeConstant, place, if_pos listed]
      rfl
    · exact (Takes.byte 2).bind ((Takes.length (Nat.lt_trans listed few)).map _)

theorem Kept.fixed {α : Type} {write : α → Bytes} {read : Reader α} {xs : List α}
    (few : xs.length < 2 ^ 32) (each : ∀ x, Takes read (write x) x) :
    Kept (writeAll fun x => .ok (write x)) (Reader.all read) xs :=
  Kept.all few fun x _ => ⟨write x, rfl, each x⟩

theorem Kept.chunk {position count : Nat} {c : Chunk} (h : c.Storable position)
    (within : position < count) (few : count < 2 ^ 32) :
    Kept (writeChunk count) Reader.chunk c := by
  obtain ⟨name, nameWritten, nameTaken⟩ := Kept.text h.name
  obtain ⟨source, sourceWritten, sourceTaken⟩ := Kept.text h.source
  obtain ⟨chain, chainWritten, chainTaken⟩ := Kept.text h.chain
  obtain ⟨constants, constantsWritten, constantsTaken⟩ :=
    Kept.all h.constants fun k hk => Kept.constant (h.everyConstant k (by simpa using hk)) within few
  obtain ⟨lines, linesWritten, linesTaken⟩ := Kept.fixed h.lines Takes.lineRun
  obtain ⟨labels, labelsWritten, labelsTaken⟩ := Kept.fixed h.labels Takes.word32
  obtain ⟨labelNames, labelNamesWritten, labelNamesTaken⟩ :=
    Kept.all h.labelNames fun s hs => Kept.text (h.everyLabelName s (by simpa using hs))
  obtain ⟨arguments, argumentsWritten, argumentsTaken⟩ := Kept.fixed h.arguments Takes.word16
  obtain ⟨results, resultsWritten, resultsTaken⟩ := Kept.fixed h.results Takes.word16
  have codeTaken : Takes (Reader.times Reader.instruction c.code.size)
      (c.code.toList.map fun i => i.encode.bytes).flatten c.code.toList :=
    Takes.times fun i _ => Takes.instruction i
  have taken : Takes Reader.chunk (name ++ (source ++ (chain ++ ([c.kind.toByte] ++
      ([c.modifiers.toByte] ++ ([c.captureCount] ++ (bytes32 (UInt32.ofNat c.code.size) ++
      (constants ++ (lines ++ (labels ++ (labelNames ++
      ((c.code.toList.map fun i => i.encode.bytes).flatten ++ (arguments ++ results)))))))))))))
      c := by
    refine nameTaken.bind (sourceTaken.bind (chainTaken.bind ((Takes.kind c.kind).bind
      ((Takes.byte c.modifiers.toByte).bind ((Takes.byte c.captureCount).bind
      ((Takes.length h.code).bind (constantsTaken.bind (linesTaken.bind (labelsTaken.bind
      (labelNamesTaken.bind (codeTaken.bind (argumentsTaken.bind (resultsTaken.last ?_)))))))))))))
    simp only [Modifiers.ofByte_toByte, Array.toArray_toList]
    exact Takes.pure c
  refine ⟨_, ?_, taken⟩
  simp only [writeChunk, nameWritten, sourceWritten, chainWritten, writeLength_of_lt h.code,
    constantsWritten, linesWritten, labelsWritten, labelNamesWritten, argumentsWritten,
    resultsWritten, Bind.bind, Except.bind, Pure.pure, Except.pure, List.append_assoc,
    List.cons_append, List.nil_append]

/-! ## The whole script -/

theorem forward?_eq_none {position : Nat} {ks : List Constant}
    (each : ∀ k ∈ ks, k.Storable position) : forward? position ks = none := by
  induction ks with
  | nil => rfl
  | cons k ks ih =>
    have others := ih fun y hy => each y (List.mem_cons_of_mem k hy)
    cases each k List.mem_cons_self with
    | number | string => exact others
    | chunk before => simpa only [forward?, if_pos before] using others

theorem checkForward_ok {cs : List Chunk} {position : Nat}
    (each : ∀ i (h : i < cs.length), cs[i].Storable (position + i)) :
    checkForward position cs = .ok () := by
  induction cs generalizing position with
  | nil => rfl
  | cons c cs ih =>
    have first := (each 0 (Nat.zero_lt_succ _)).everyConstant
    have none : forward? position c.constants.toList = .none :=
      forward?_eq_none fun k hk => first k (by simpa using hk)
    simp only [checkForward, none]
    refine ih fun i h => ?_
    rw [Nat.add_assoc, Nat.add_comm 1 i]
    exact each (i + 1) (Nat.succ_lt_succ h)

theorem Takes.header : Takes Reader.header (magic ++ bytes32 version) () := by
  refine (Takes.take magic).bind ?_
  simp only [ne_eq, not_true_eq_false, if_false]
  refine (Takes.word32 version).last ?_
  simp only [not_true_eq_false, if_false]
  exact Takes.pure ()

theorem Takes.script {s : Script} {hash chunks diagnostics : Bytes} {i : Nat}
    (storable : s.Storable) (listed : i < s.chunks.size) (top : s.top = .listed i)
    (hashTaken : Takes Reader.text hash s.hash)
    (chunksTaken : Takes (Reader.all Reader.chunk) chunks s.chunks.toList)
    (diagnosticsTaken : Takes (Reader.all Reader.text) diagnostics s.diagnostics.toList) :
    Takes Reader.script ((magic ++ bytes32 version) ++ (hash ++ (chunks ++
      (bytes32 (UInt32.ofNat i) ++ diagnostics)))) s := by
  have backward : checkForward 0 s.chunks.toList = .ok () :=
    checkForward_ok fun p h => by simpa using storable.everyChunk p (by simpa using h)
  refine Takes.header.bind (hashTaken.bind (chunksTaken.bind ?_))
  refine (Takes.lift backward).bind ((Takes.length (Nat.lt_trans listed storable.chunks)).bind ?_)
  have inside : ¬ s.chunks.toList.length ≤ i := Nat.not_le_of_lt listed
  simp only [inside, if_false, Array.toArray_toList, ← top]
  exact diagnosticsTaken.map _

theorem Takes.ofBytes {s : Script} {bytes : Bytes} (taken : Takes Reader.script bytes s)
    (rest : Bytes) : Script.ofBytes (bytes ++ rest) = .ok s := by
  simp only [Script.ofBytes, StateT.run, taken rest]
  rfl

theorem Kept.script {s : Script} (storable : s.Storable) :
    Kept Script.toBytes Reader.script s := by
  obtain ⟨hash, hashWritten, hashTaken⟩ := Kept.text storable.hash
  obtain ⟨i, listed, top⟩ := storable.top
  have each : ∀ c ∈ s.chunks.toList, Kept (writeChunk s.chunks.size) Reader.chunk c := by
    intro c hc
    obtain ⟨p, h, rfl⟩ := List.getElem_of_mem hc
    exact Kept.chunk (storable.everyChunk p (by simpa using h)) (by simpa using h) storable.chunks
  obtain ⟨chunks, chunksWritten, chunksTaken⟩ := Kept.all storable.chunks each
  obtain ⟨diagnostics, diagnosticsWritten, diagnosticsTaken⟩ :=
    Kept.all storable.diagnostics fun d hd =>
      Kept.text (storable.everyDiagnostic d (by simpa using hd))
  have taken := Takes.script storable listed top hashTaken chunksTaken diagnosticsTaken
  refine ⟨_, ?_, taken⟩
  simp only [Script.toBytes, hashWritten, chunksWritten, top, place, if_pos listed,
    diagnosticsWritten, Bind.bind, Except.bind, Pure.pure, Except.pure, List.append_assoc]

end Stored

open Stored in
/-- Reading the stored form of a script gives the script, whatever bytes follow. -/
theorem Script.ofBytes_toBytes {s : Script} (storable : s.Storable) :
    ∃ bytes, s.toBytes = .ok bytes ∧ ∀ rest, Script.ofBytes (bytes ++ rest) = .ok s := by
  obtain ⟨bytes, written, taken⟩ := Kept.script storable
  exact ⟨bytes, written, taken.ofBytes⟩

/-- A script that defines a function of one argument. -/
def Script.ofDouble : Script where
  hash := "c0de"
  chunks := #[
    { name := "double", source := "main", chain := "main.double", kind := .function
      modifiers := ⟨true, true⟩
      code := #[.getLocal 1, .pushConstant 0, .multiply, .ret 1]
      constants := #[.number ⟨0x4000000000000000⟩, .string "x"]
      lines := #[⟨1, 4⟩], arguments := #[1] },
    { name := "main", source := "main", chain := "main", kind := .script
      code := #[.closure 0, .defineGlobal 1, .null, .ret 1]
      constants := #[.chunk (.listed 0), .string "double"]
      lines := #[⟨2, 4⟩], labels := #[4], labelNames := #["end"] }]
  top := .listed 1
  diagnostics := #["unused label 'end'"]

theorem Script.ofDouble_storable : Script.ofDouble.Storable where
  hash := by decide
  chunks := by decide
  diagnostics := by decide
  top := ⟨1, by decide, rfl⟩
  everyDiagnostic := by decide
  everyChunk := by decide

theorem Script.ofBytes_toBytes_ofDouble :
    Script.ofDouble.Storable ∧ ∃ bytes, Script.ofDouble.toBytes = .ok bytes ∧
      ∀ rest, Script.ofBytes (bytes ++ rest) = .ok Script.ofDouble :=
  ⟨Script.ofDouble_storable, Script.ofBytes_toBytes Script.ofDouble_storable⟩

end ScriptEngine
