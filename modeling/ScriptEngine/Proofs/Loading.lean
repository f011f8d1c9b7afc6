import Mathlib.Algebra.GroupWithZero.Nat
import ScriptEngine.Proofs.Storing

/-!
# Writing what was read

A reader accepts bytes that no writer makes: spare bits of the modifiers, operand bytes
without a meaning, truth values other than one, anything after the last part. None of them
moves what follows. Every part takes as many bytes as its contents say, however they were
spelt, so `Consumes` of a reader gives the size of what it takes from that alone.

What is read can also be written. Texts and tables were read behind a length of four bytes,
and a chunk constant was checked to refer to a chunk before. So the script that some bytes
load is `Storable`, and its stored form, which loads it again, is as long as they were.
-/
namespace ScriptEngine

namespace Stored

/-! ## Sizes -/

def textSize (s : String) : Nat := 4 + s.utf8ByteSize

/-- The size of a list with its length in front. -/
def listSize {α : Type} (size : α → Nat) (xs : List α) : Nat := 4 + (xs.map size).sum

def constantSize : Constant → Nat
  | .number _ => 9
  | .string s => 1 + textSize s
  | .chunk _ | .other _ => 5

/-- The three ones are the kind, the modifiers and the number of captures. -/
def chunkSize (c : Chunk) : Nat :=
  textSize c.name + (textSize c.source + (textSize c.chain + (1 + (1 + (1 + (4 +
    (listSize constantSize c.constants.toList + (listSize (fun _ => 8) c.lines.toList +
    (listSize (fun _ => 4) c.labels.toList + (listSize textSize c.labelNames.toList +
    (4 * c.code.size + (listSize (fun _ => 2) c.arguments.toList +
    listSize (fun _ => 2) c.results.toList))))))))))))

/-- The eight bytes in front are the magic number and the version. -/
def scriptSize (s : Script) : Nat :=
  8 + (textSize s.hash + (listSize chunkSize s.chunks.toList + (4 +
    listSize textSize s.diagnostics.toList)))

/-! ## What a reader takes -/

/-- `Q` holds of whatever the reader takes from the front of an input and of the number of
bytes that it takes. -/
def Consumes {α : Type} (read : Reader α) (Q : α → Nat → Prop) : Prop :=
  ∀ input x rest, read input = .ok (x, rest) →
    ∃ front, input = front ++ rest ∧ Q x front.length

namespace Consumes

variable {α β : Type}

theorem mono {read : Reader α} {Q R : α → Nat → Prop} (h : Consumes read Q)
    (sub : ∀ x n, Q x n → R x n) : Consumes read R := by
  intro input x rest h'
  obtain ⟨front, split, holds⟩ := h input x rest h'
  exact ⟨front, split, sub x _ holds⟩

theorem pure {x : α} {Q : α → Nat → Prop} (h : Q x 0) : Consumes (Pure.pure x) Q := by
  intro input y rest h'
  cases h'
  exact ⟨[], rfl, h⟩

theorem throw (f : Fault) (Q : α → Nat → Prop) : Consumes (throw f : Reader α) Q := by
  intro input x rest h
  cases h

/-- A check takes nothing and may rely on having passed. -/
theorem lift {check : Except Fault α} {Q : α → Nat → Prop} (h : ∀ x, check = .ok x → Q x 0) :
    Consumes (StateT.lift check) Q := by
  intro input x rest h'
  cases passed : check with
  | error f =>
    rw [passed] at h'
    cases h'
  | ok y =>
    rw [passed] at h'
    cases h'
    exact ⟨[], rfl, h x passed⟩

theorem bind {read : Reader α} {next : α → Reader β} {Q : α → Nat → Prop}
    {R : β → Nat → Prop} (first : Consumes read Q)
    (second : ∀ x n, Q x n → Consumes (next x) fun y m => R y (n + m)) :
    Consumes (read >>= next) R := by
  intro input y rest h
  cases h₁ : read input with
  | error f =>
    simp only [Bind.bind, StateT.bind, h₁, Except.bind, reduceCtorEq] at h
  | ok found =>
    obtain ⟨x, middle⟩ := found
    simp only [Bind.bind, StateT.bind, h₁, Except.bind] at h
    obtain ⟨front, rfl, holds⟩ := first input x middle h₁
    obtain ⟨back, rfl, holds'⟩ := second x _ holds middle y rest h
    refine ⟨front ++ back, by rw [List.append_assoc], ?_⟩
    rwa [List.length_append]

/-- A condition under which the reader fails does not hold of what it takes. -/
theorem passed {p : Prop} [Decidable p] {f : Fault} {next : Unit → Reader α}
    {Q : α → Nat → Prop} (h : ¬ p → Consumes (next ()) Q) :
    Consumes (if p then MonadExcept.throw f >>= next else next ()) Q := by
  by_cases hp : p
  · rw [if_pos hp]
    intro input x rest h'
    cases h'
  · rw [if_neg hp]
    exact h hp

end Consumes

theorem split_eq_some {n : Nat} {input taken rest : Bytes}
    (h : Reader.split n input = some (taken, rest)) :
    input = taken ++ rest ∧ taken.length = n := by
  induction n generalizing input taken with
  | zero =>
    simp only [Reader.split, Option.some.injEq, Prod.mk.injEq] at h
    obtain ⟨rfl, rfl⟩ := h
    exact ⟨rfl, rfl⟩
  | succ n ih =>
    cases input with
    | nil => simp [Reader.split] at h
    | cons b bs =>
      simp only [Reader.split, Option.map_eq_some_iff, Prod.mk.injEq] at h
      obtain ⟨⟨front, back⟩, found, rfl, rfl⟩ := h
      obtain ⟨rfl, counted⟩ := ih found
      exact ⟨rfl, by simp [counted]⟩

namespace Consumes

variable {α : Type}

theorem take (n : Nat) : Consumes (Reader.take n) fun bytes m => bytes.length = n ∧ m = n := by
  intro input bytes rest h
  cases found : Reader.split n input with
  | none => simp [Reader.take, found] at h
  | some parts =>
    obtain ⟨taken, left⟩ := parts
    simp only [Reader.take, found, Except.ok.injEq, Prod.mk.injEq] at h
    obtain ⟨rfl, rfl⟩ := h
    obtain ⟨rfl, counted⟩ := split_eq_some found
    exact ⟨taken, rfl, counted, counted⟩

theorem byte : Consumes Reader.byte fun _ n => n = 1 := by
  intro input b rest h
  cases input with
  | nil => cases h
  | cons first others =>
    cases h
    exact ⟨[b], rfl, rfl⟩

theorem word16 : Consumes Reader.word16 fun _ n => n = 2 :=
  (take 2).bind fun _ _ h => pure h.2

theorem word32 : Consumes Reader.word32 fun _ n => n = 4 :=
  (take 4).bind fun _ _ h => pure h.2

theorem word64 : Consumes Reader.word64 fun _ n => n = 8 :=
  (take 8).bind fun _ _ h => pure h.2

theorem length : Consumes Reader.length fun k n => k < 2 ^ 32 ∧ n = 4 :=
  word32.bind fun w _ h => pure ⟨w.toNat_lt, h⟩

theorem utf8ByteSize_of_fromUTF8? {bytes : ByteArray} {s : String}
    (h : String.fromUTF8? bytes = some s) : s.utf8ByteSize = bytes.size := by
  simp only [String.fromUTF8?] at h
  split at h
  · cases h
    rfl
  · cases h

theorem text : Consumes Reader.text fun s n => Short s ∧ n = textSize s := by
  refine length.bind fun k n hk => (take k).bind fun bytes m hm => ?_
  split
  · next s read =>
    have size : s.utf8ByteSize = k := by
      rw [utf8ByteSize_of_fromUTF8? read, ← hm.1]
      rfl
    refine pure ⟨?_, ?_⟩
    · rw [Short, size]
      exact hk.1
    · rw [textSize, size, hk.2, hm.2]
      rfl
  · exact throw _ _

/-- So many elements take together what each of them takes. -/
theorem times {read : Reader α} {P : α → Prop} {size : α → Nat}
    (each : Consumes read fun x n => P x ∧ n = size x) (k : Nat) :
    Consumes (Reader.times read k) fun xs n =>
      xs.length = k ∧ (∀ x ∈ xs, P x) ∧ n = (xs.map size).sum := by
  induction k with
  | zero => exact pure ⟨rfl, by simp, rfl⟩
  | succ k ih =>
    refine each.bind fun x n hx => ih.bind fun xs m hxs => pure ⟨?_, ?_, ?_⟩
    · simp [hxs.1]
    · simpa using ⟨hx.1, hxs.2.1⟩
    · simp [hx.2, hxs.2.2]

theorem all {read : Reader α} {P : α → Prop} {size : α → Nat}
    (each : Consumes read fun x n => P x ∧ n = size x) :
    Consumes (Reader.all read) fun xs n =>
      xs.length < 2 ^ 32 ∧ (∀ x ∈ xs, P x) ∧ n = listSize size xs := by
  refine length.bind fun k n hk => (times each k).mono fun xs m hxs => ⟨?_, hxs.2.1, ?_⟩
  · rw [hxs.1]
    exact hk.1
  · rw [listSize, hk.2, hxs.2.2]

/-- Elements about which nothing but their size is known. -/
theorem fixed {read : Reader α} {k : Nat} (each : Consumes read fun _ n => n = k) :
    Consumes (Reader.all read) fun xs n => xs.length < 2 ^ 32 ∧ n = listSize (fun _ => k) xs :=
  (all (each.mono fun _ _ h => ⟨trivial, h⟩)).mono fun _ _ h => ⟨h.1, h.2.2⟩

/-! ## Parts of a script -/

/-- Where the chunk stands is not known yet, only that a reference fits four bytes. -/
theorem constant : Consumes Reader.constant fun k n => k.Storable (2 ^ 32) ∧ n = constantSize k := by
  refine byte.bind fun tag n hn => ?_
  split
  · exact word64.bind fun x m hm => pure ⟨.number _, by simp [constantSize, hn, hm]⟩
  · exact text.bind fun s m hs => pure ⟨.string hs.1, by simp [constantSize, hn, hs.2]⟩
  · exact length.bind fun i m hi => pure ⟨.chunk hi.1, by simp [constantSize, hn, hi.2]⟩
  · exact throw _ _

theorem lineRun : Consumes Reader.lineRun fun _ n => n = 8 :=
  word32.bind fun _ _ h => word32.bind fun _ _ h' => pure (by omega)

theorem instruction : Consumes Reader.instruction fun _ n => n = 4 := by
  refine byte.bind fun _ _ h₁ => byte.bind fun _ _ h₂ => byte.bind fun _ _ h₃ =>
    byte.bind fun _ _ h₄ => ?_
  dsimp only
  split
  · exact pure (by omega)
  · exact throw _ _

theorem code (k : Nat) :
    Consumes (Reader.times Reader.instruction k) fun is n => is.length = k ∧ n = 4 * is.length := by
  have each : Consumes Reader.instruction fun _ n => True ∧ n = 4 :=
    instruction.mono fun _ _ h => ⟨trivial, h⟩
  have all : Consumes (Reader.times Reader.instruction k) fun is n =>
      is.length = k ∧ (∀ i ∈ is, True) ∧ n = (is.map fun _ => 4).sum := times each k
  refine all.mono fun is n h => ⟨h.1, ?_⟩
  rw [h.2.2, List.map_const', List.sum_replicate_nat, Nat.mul_comm]

theorem kind : Consumes Reader.kind fun _ n => n = 1 := by
  refine byte.bind fun _ _ h => ?_
  split
  · exact pure h
  · exact throw _ _

theorem chunk : Consumes Reader.chunk fun c n => c.Storable (2 ^ 32) ∧ n = chunkSize c := by
  refine text.bind fun name _ hname => text.bind fun source _ hsource =>
    text.bind fun chain _ hchain => kind.bind fun kind _ hkind => byte.bind fun modifiers _ hmod =>
    byte.bind fun captures _ hcaptures => length.bind fun codeLength _ hlength =>
    (all constant).bind fun constants _ hconstants => (fixed lineRun).bind fun lines _ hlines =>
    (fixed word32).bind fun labels _ hlabels => (all text).bind fun labelNames _ hnames =>
    (code codeLength).bind fun code _ hcode => (fixed word16).bind fun arguments _ harguments =>
    (fixed word16).bind fun results _ hresults => pure ⟨?_, ?_⟩
  · exact {
      name := hname.1, source := hsource.1, chain := hchain.1
      code := by simpa [hcode.1] using hlength.1
      constants := by simpa using hconstants.1
      lines := by simpa using hlines.1
      labels := by simpa using hlabels.1
      labelNames := by simpa using hnames.1
      arguments := by simpa using harguments.1
      results := by simpa using hresults.1
      everyConstant := by simpa using hconstants.2.1
      everyLabelName := by simpa using hnames.2.1 }
  · simp only [chunkSize, hname.2, hsource.2, hchain.2, hkind, hmod, hcaptures, hlength.2,
      hconstants.2.2, hlines.2, hlabels.2, hnames.2.2, hcode.2, harguments.2, hresults.2,
      List.size_toArray, Nat.add_zero]

end Consumes

/-! ## The whole script -/

theorem storable_of_forward? {position : Nat} {ks : List Constant}
    (backward : forward? position ks = none) (each : ∀ k ∈ ks, k.Storable (2 ^ 32)) :
    ∀ k ∈ ks, k.Storable position := by
  induction ks with
  | nil => simp
  | cons k ks ih =>
    rw [List.forall_mem_cons] at each ⊢
    obtain ⟨first, others⟩ := each
    cases first with
    | number x => exact ⟨.number x, ih backward others⟩
    | string short => exact ⟨.string short, ih backward others⟩
    | @chunk i within =>
      by_cases before : i < position
      · rw [forward?, if_pos before] at backward
        exact ⟨.chunk before, ih backward others⟩
      · simp [forward?, before] at backward

theorem storable_of_checkForward {cs : List Chunk} {position : Nat}
    (backward : checkForward position cs = .ok ()) (each : ∀ c ∈ cs, c.Storable (2 ^ 32)) :
    ∀ i (h : i < cs.length), cs[i].Storable (position + i) := by
  induction cs generalizing position with
  | nil => simp
  | cons c cs ih =>
    intro i h
    have first := each c List.mem_cons_self
    cases found : forward? position c.constants.toList with
    | some j => simp [checkForward, found] at backward
    | none =>
      simp only [checkForward, found] at backward
      cases i with
      | zero =>
        have inside := storable_of_forward? found fun k hk => first.everyConstant k (by simpa using hk)
        exact { first with everyConstant := fun k hk => inside k (by simpa using hk) }
      | succ i =>
        have later := ih backward (fun c' hc' => each c' (List.mem_cons_of_mem c hc')) i
          (Nat.lt_of_succ_lt_succ h)
        rwa [Nat.add_right_comm] at later

namespace Consumes

theorem header : Consumes Reader.header fun _ n => n = 8 := by
  refine (take 4).bind fun _ _ hmagic => passed fun _ => word32.bind fun _ _ hversion => ?_
  split
  · exact throw _ _
  · exact pure (by omega)

theorem script : Consumes Reader.script fun s n => s.Storable ∧ n = scriptSize s := by
  refine header.bind fun _ _ hheader => text.bind fun hash _ hhash =>
    (all chunk).bind fun chunks _ hchunks => ?_
  have backward : Consumes (StateT.lift (checkForward 0 chunks)) fun _ n =>
      checkForward 0 chunks = .ok () ∧ n = 0 := lift fun _ h => ⟨h, rfl⟩
  refine backward.bind fun _ _ hbackward => length.bind fun top _ htop => passed fun inside =>
    (all text).bind fun diagnostics _ hdiagnostics => pure ⟨?_, ?_⟩
  · have each := storable_of_checkForward hbackward.1 hchunks.2.1
    exact {
      hash := hhash.1
      chunks := by simpa using hchunks.1
      diagnostics := by simpa using hdiagnostics.1
      top := ⟨top, by simpa using inside, rfl⟩
      everyChunk := fun p h => by simpa using each p (by simpa using h)
      everyDiagnostic := by simpa using hdiagnostics.2.1 }
  · simp only [scriptSize, hheader, hhash.2, hchunks.2.2, hbackward.2, htop.2, hdiagnostics.2.2,
      Nat.add_zero, Nat.zero_add]

end Consumes

end Stored

open Stored

/-- What some bytes load is written in as many bytes as were read, and loads again as it is. -/
theorem Script.toBytes_ofBytes {bytes : Bytes} {s : Script} (read : Script.ofBytes bytes = .ok s) :
    (∃ front rest stored, bytes = front ++ rest ∧ Reader.script.run bytes = .ok (s, rest) ∧
      s.toBytes = .ok stored ∧ Script.ofBytes stored = .ok s ∧ stored.length = front.length ∧
      (Script.ofBytes stored >>= Script.toBytes) = .ok stored) ∧
    (∀ p (h : p < s.chunks.size) (ref : ChunkRef), .chunk ref ∈ s.chunks[p].constants →
      ∃ i < p, ref = .listed i) ∧
    ∀ w i, Instruction.decode w = some i → Instruction.decode i.encode = some i := by
  cases found : Reader.script.run bytes with
  | error f =>
    simp only [Script.ofBytes, found] at read
    cases read
  | ok result =>
    obtain ⟨s', rest⟩ := result
    obtain rfl : s' = s := by
      simp only [Script.ofBytes, found] at read
      cases read
      rfl
    obtain ⟨front, split, storable, size⟩ := Consumes.script bytes s' rest found
    obtain ⟨stored, written, taken⟩ := Kept.script storable
    have again : Script.ofBytes stored = .ok s' := by
      have h := taken.ofBytes []
      rwa [List.append_nil] at h
    have length : stored.length = scriptSize s' := by
      obtain ⟨front', split', -, size'⟩ := Consumes.script (stored ++ []) s' [] (taken [])
      simp only [List.append_nil] at split'
      rw [split', size']
    refine ⟨⟨front, rest, stored, split, rfl, written, again, ?_, ?_⟩, ?_, ?_⟩
    · rw [length, size]
    · rw [again]
      exact written
    · intro p h ref hk
      cases (storable.everyChunk p h).everyConstant _ hk with
      | chunk before => exact ⟨_, before, rfl⟩
    · intro w i _
      exact Instruction.decode_encode i

/-- Bytes that no writer makes: spare bits of the modifiers are set, a truth value is seven,
operand bytes without a meaning are not zero, and two bytes follow the last part. -/
def looseBytes : Bytes :=
  magic ++ [1, 0, 0, 0] ++ [0, 0, 0, 0] ++ [1, 0, 0, 0] ++
    [0, 0, 0, 0] ++ [0, 0, 0, 0] ++ [0, 0, 0, 0] ++ [0, 0xFD, 0] ++ [2, 0, 0, 0] ++
    [0, 0, 0, 0] ++ [0, 0, 0, 0] ++ [0, 0, 0, 0] ++ [0, 0, 0, 0] ++
    [2, 7, 9, 9] ++ [30, 1, 9, 9] ++ [0, 0, 0, 0] ++ [0, 0, 0, 0] ++
    [0, 0, 0, 0] ++ [0, 0, 0, 0] ++ [5, 5]

def looseScript : Script where
  hash := ""
  chunks := #[{
    name := "", source := "", chain := "", kind := .script, modifiers := ⟨true, false⟩
    code := #[.pushBool true, .ret 1] }]
  top := .listed 0
  diagnostics := #[]

theorem ofBytes_looseBytes : Script.ofBytes looseBytes = .ok looseScript := by
  rfl

theorem Script.toBytes_ofBytes_loose : Script.ofBytes looseBytes = .ok looseScript ∧
    ∃ front rest stored, looseBytes = front ++ rest ∧
      Reader.script.run looseBytes = .ok (looseScript, rest) ∧
      looseScript.toBytes = .ok stored ∧ Script.ofBytes stored = .ok looseScript ∧
      stored.length = front.length ∧
      (Script.ofBytes stored >>= Script.toBytes) = .ok stored :=
  ⟨ofBytes_looseBytes, (Script.toBytes_ofBytes ofBytes_looseBytes).1⟩

end ScriptEngine
