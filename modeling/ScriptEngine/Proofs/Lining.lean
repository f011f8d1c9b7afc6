import ScriptEngine.Proofs.Referring

/-!
# Lines of instructions

A chunk keeps the lines of its instructions as runs. `Chunk.Emitted` tells how a chunk
came about: which instructions were emitted, each with which line, whatever else was done
to its tables. However many there were, the line that was passed for an instruction is
the one that `lineAt` reads back. All that the assembler does to a chunk is to emit and
to change other tables, so this holds of every chunk of a compiled script.
-/
namespace ScriptEngine

namespace Chunk

/-- A chunk whose code and lines come from emitting these instructions with these lines. -/
inductive Emitted : List (Instruction × UInt32) → Chunk → Prop
  | start {c : Chunk} (code : c.code = #[]) (lines : c.lines = #[]) : Emitted [] c
  | emit {es : List (Instruction × UInt32)} {c : Chunk} (i : Instruction) (line : UInt32) (before : Emitted es c) :
      Emitted (es ++ [(i, line)]) (c.emit i line)
  | other {es : List (Instruction × UInt32)} {c c' : Chunk} (before : Emitted es c) (code : c'.code = c.code)
      (lines : c'.lines = c.lines) : Emitted es c'

/-- The line that was passed when the instruction at an offset was emitted. -/
def Passed (c : Chunk) (offset : Nat) (line : UInt32) : Prop := ∃ es i, c.Emitted es ∧ es[offset]? = some (i, line)

/-- The lines that runs stand for. -/
def unrolled (runs : List LineRun) : List UInt32 := runs.flatMap fun run => List.replicate run.count.toNat run.line

theorem unrolled_append (runs more : List LineRun) : unrolled (runs ++ more) = unrolled runs ++ unrolled more := by
  simp [unrolled]

theorem lineIn_eq (runs : List LineRun) (offset : Nat) : lineIn runs offset = ((unrolled runs)[offset]?).getD 0 := by
  induction runs generalizing offset with
  | nil => rfl
  | cons run rest ih =>
    unfold lineIn
    rw [show run :: rest = [run] ++ rest from rfl, unrolled_append, List.getElem?_append]
    have first : unrolled [run] = List.replicate run.count.toNat run.line := by simp [unrolled]
    rw [first, List.length_replicate]
    split
    · next within => simp [within]
    · exact ih _

/-- One more line, if the count of the last run has room for it. -/
theorem unrolled_addLine {runs : Array LineRun} {line : UInt32} (room : (unrolled runs.toList).length + 1 < 2 ^ 32) :
    unrolled (addLine runs line).toList = unrolled runs.toList ++ [line] := by
  have new : unrolled (runs.push ⟨line, 1⟩).toList = unrolled runs.toList ++ [line] := by
    rw [Array.toList_push, unrolled_append]
    rfl
  unfold addLine
  split
  · next run last =>
    split
    · next same =>
      obtain ⟨before, rfl⟩ := Array.back?_eq_some_iff.mp last
      rw [Array.pop_push, Array.toList_push, Array.toList_push, unrolled_append, unrolled_append] at *
      have count : (run.count + 1).toNat = run.count.toNat + 1 := by
        have : run.count.toNat + 1 < 2 ^ 32 := by
          simp only [unrolled, List.length_append, List.flatMap_cons, List.length_replicate] at room
          omega
        rw [UInt32.toNat_add, UInt32.toNat_one, Nat.mod_eq_of_lt this]
      rw [List.append_assoc]
      simp [unrolled, count, same, List.replicate_succ']
    · exact new
  · exact new

namespace Emitted

variable {es : List (Instruction × UInt32)} {c : Chunk}

theorem toList_code (emitted : c.Emitted es) : c.code.toList = es.map Prod.fst := by
  induction emitted with
  | start code => rw [code]; rfl
  | emit i line _ ih => simp [Chunk.emit, ih]
  | other _ code _ ih => rw [code, ih]

theorem unrolled_lines (emitted : c.Emitted es) (few : es.length < 2 ^ 32) :
    unrolled c.lines.toList = es.map Prod.snd := by
  induction emitted with
  | start _ lines => rw [lines]; rfl
  | @emit es _ i line _ ih =>
    rw [List.length_append, List.length_singleton] at few
    have ih := ih (Nat.lt_of_succ_lt few)
    rw [Chunk.emit, unrolled_addLine (by rwa [ih, List.length_map]), ih, List.map_append]
    rfl
  | other _ _ lines ih => rw [lines, ih few]

/-- What was emitted is there, and its line is read back. -/
theorem lineAt_eq (emitted : c.Emitted es) (few : es.length < 2 ^ 32) {offset : Nat} {i : Instruction} {line : UInt32}
    (at_ : es[offset]? = some (i, line)) : c.code[offset]? = some i ∧ c.lineAt offset = line := by
  constructor
  · rw [← Array.getElem?_toList, emitted.toList_code, List.getElem?_map, at_]
    rfl
  · unfold lineAt
    rw [lineIn_eq, emitted.unrolled_lines few, List.getElem?_map, at_]
    rfl

/-- The line that is read back is the one that was passed. -/
theorem passed (emitted : c.Emitted es) (small : c.code.size < 2 ^ 32) {offset : Nat} (within : offset < c.code.size) :
    c.Passed offset (c.lineAt offset) := by
  have length : es.length = c.code.size := by
    rw [← Array.length_toList, emitted.toList_code, List.length_map]
  have at_ : es[offset]? = some es[offset] := List.getElem?_eq_getElem (length ▸ within)
  refine ⟨es, es[offset].1, emitted, ?_⟩
  rw [(emitted.lineAt_eq (length ▸ small) at_).2]
  exact at_

end Emitted

/-- A chunk that came about by emitting. -/
def Lined (c : Chunk) : Prop := ∃ es, c.Emitted es

theorem Lined.other {c c' : Chunk} (lined : c.Lined) (code : c'.code = c.code) (lines : c'.lines = c.lines) : c'.Lined :=
  lined.imp fun _ emitted => emitted.other code lines

end Chunk

open Assembler

/-! ## Assembling -/

/-- All chunks of an assembly came about by emitting. -/
structure Assembler.Lined (a : Assembler) : Prop where
  opened : ∀ b ∈ a.opened, b.chunk.Lined
  aside : ∀ b ∈ a.aside, b.chunk.Lined
  chunks : ∀ c ∈ a.chunks, c.Lined

theorem Chunk.Lined.emit {c : Chunk} (lined : c.Lined) (i : Instruction) (line : UInt32) : (c.emit i line).Lined := by
  obtain ⟨es, emitted⟩ := lined
  exact ⟨_, emitted.emit i line⟩

theorem Chunk.Lined.putConstant {c : Chunk} (lined : c.Lined) (index : UInt16) (k : Constant) :
    (c.putConstant index k).Lined := by
  unfold Chunk.putConstant
  split
  · exact lined.other rfl rfl
  · exact lined

/-- The function around gets its closure by emitting as well. -/
theorem Chunk.Lined.enclose {e : Body} (lined : e.chunk.Lined) (ref : ChunkRef) (index : UInt16) (captures : List Capture)
    (line : UInt32) : (e.enclose ref index captures line).chunk.Lined := by
  unfold Body.enclose
  have closure := (lined.putConstant index (.chunk ref)).emit (.closure index) line
  generalize hb : (e.setChunk (e.chunk.putConstant index (.chunk ref))).emit (.closure index) line = b
  have start : b.chunk.Lined := hb ▸ closure
  clear hb
  induction captures generalizing b with
  | nil => exact start
  | cons c captures ih => exact ih (b.emit (.capture c) line) (start.emit _ line)

namespace Assembler.Lined

variable {a a' : Assembler}

theorem start (scriptName : String) : (start scriptName).Lined where
  opened b mem := by
    obtain rfl := List.mem_singleton.mp mem
    exact ⟨[], .start rfl rfl⟩
  aside _ := nofun
  chunks _ := nofun

theorem setBody {b : Body} (h : a.Lined) (body : b.chunk.Lined) : (a.setBody b).Lined :=
  { h with
    opened := by
      change ∀ x ∈ b :: a.outer, x.chunk.Lined
      rw [List.forall_mem_cons]
      exact ⟨body, fun x mem => h.opened x (.tail _ mem)⟩ }

theorem rewired {xs ys : List Body} (h : ∀ b ∈ xs, b.chunk.Lined) (rewired : Rewired xs ys) : ∀ b ∈ ys, b.chunk.Lined := by
  induction rewired with
  | script _ chunk => simpa [chunk] using h
  | inner _ chunk _ ih =>
    rw [List.forall_mem_cons] at h ⊢
    exact ⟨chunk ▸ h.1, ih h.2⟩

theorem amends (h : a.Lined) (amends : a.Amends a') : a'.Lined := by
  refine amends.keeps (I := Assembler.Lined) (fun a a' amendment h => ?_) h
  have body : a.body.chunk.Lined := h.opened a.body (.head _)
  cases amendment with
  | books opened aside chunks => exact ⟨rewired h.opened opened, aside ▸ h.aside, chunks ▸ h.chunks⟩
  | emit => exact h.setBody (body.emit _ _)
  | constant => exact h.setBody (body.putConstant _ _)
  | label | place | argument | result => exact h.setBody (body.other rfl rfl)

theorem delivers (h : a.Lined) (delivers : a.Delivers a') : a'.Lined := by
  obtain ⟨e, outer, index, line, around, -, opened, aside, chunks⟩ := delivers
  have before := h.opened
  unfold Assembler.opened at before
  rw [around] at before
  simp only [List.forall_mem_cons] at before
  obtain ⟨inner, outside, others⟩ := before
  refine ⟨?_, aside ▸ h.aside, fun c mem => ?_⟩
  · rw [opened, List.forall_mem_cons]
    exact ⟨outside.enclose _ _ _ _, others⟩
  · rw [chunks] at mem
    rcases Array.mem_push.mp mem with mem | rfl
    · exact h.chunks c mem
    · exact inner.other rfl rfl

theorem carries {shift : Shift} (h : a.Lined) (carries : shift.Carries a a') : a'.Lined := by
  cases shift with
  | stays => exact h.amends carries
  | begins =>
    obtain ⟨a₁, b, amends, ⟨⟨name, source, chain, kind, modifiers, chunk⟩, -, -⟩, opened, aside, chunks⟩ := carries
    obtain ⟨lined, set_aside, listed⟩ := h.amends amends
    refine ⟨?_, aside ▸ set_aside, chunks ▸ listed⟩
    rw [opened, List.forall_mem_cons]
    exact ⟨chunk ▸ ⟨[], .start rfl rfl⟩, lined⟩
  | ends =>
    obtain ⟨a₁, a₂, first, delivers, last⟩ := carries
    exact ((h.amends first).delivers delivers).amends last
  | aside =>
    obtain ⟨b, opened, aside, chunks⟩ := carries
    have lined := h.opened
    rw [opened, List.forall_mem_cons] at lined
    refine ⟨lined.2, ?_, chunks ▸ h.chunks⟩
    rw [aside, List.forall_mem_cons]
    exact ⟨lined.1, h.aside⟩
  | back =>
    obtain ⟨b, aside, opened, chunks⟩ := carries
    have lined := h.aside
    rw [aside, List.forall_mem_cons] at lined
    refine ⟨?_, lined.2, chunks ▸ h.chunks⟩
    rw [opened, List.forall_mem_cons]
    exact ⟨lined.1, h.opened⟩

theorem performAll {steps : List Step} (h : a.Lined) (inner : ∀ t ∈ steps, t.directive ≠ .endScript)
    (run : Assembler.performAll steps a = .ok () a') : a'.Lined := by
  induction steps generalizing a with
  | nil =>
    cases run
    exact h
  | cons t steps ih =>
    rw [List.forall_mem_cons] at inner
    obtain ⟨a₁, first, rest⟩ := performAll_cons run
    exact ih (h.carries (carries_step inner.1 a () a₁ first)) inner.2 rest

end Assembler.Lined

/-- Every chunk of a script came about by emitting. -/
theorem Script.Made.lined {tokens : List Token} {scriptName : String} {s : Script} (made : Made tokens scriptName s) :
    ∀ c ∈ s.chunks, c.Lined := by
  obtain ⟨steps, a, a', inner, run, amends, -, -, chunks⟩ := made.ending
  have lined := ((Assembler.Lined.start scriptName).performAll inner run).amends amends
  intro c mem
  rw [chunks] at mem
  rcases Array.mem_push.mp mem with mem | rfl
  · exact lined.chunks c mem
  · exact lined.opened _ (.head _)

end ScriptEngine
