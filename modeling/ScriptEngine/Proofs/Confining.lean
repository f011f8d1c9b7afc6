import ScriptEngine.Proofs.Mirroring
import ScriptEngine.Proofs.Operands
import ScriptEngine.Proofs.Terminating

/-!
# Local and pure functions

What is asked of functions that are marked as local or pure holds of their code. Neither
captures anything: no capture follows the closure that is made of such a function, so there
is none for its code to read or to pass on. A pure function stores to no global and to no
element, and it stores a field only to the object that it has made for a literal.

The first half is kept along an assembly with the references between chunks, from what is
kept of the functions that are being written. The second half is read off the traces that
thread through finished chunks.
-/
namespace ScriptEngine

open Assembler

namespace Chunk

/-- Marked as local or pure. -/
def restricted (c : Chunk) : Bool := c.modifiers.isLocal || c.modifiers.isPure

/-- Nothing is captured for a chunk that is restricted. -/
def Withheld (c : Chunk) (captures : Nat) : Prop := c.restricted → captures = 0

/-- Traces that hold wherever control comes to an offset: at the start nothing is known, and none knows more
than the instructions ahead of it leave. Offsets of labels are words of 32 bits. -/
structure Traces (c : Chunk) (T : Nat → Trace) : Prop where
  entry : Trace.Knows [] (T 0)
  step : ∀ o i, c.code[o]? = some i → i.falls → Trace.Knows (i.trace o (T o)) (T (o + 1))
  jump : c.code.size < 2 ^ 32 → ∀ (o : Nat) (i : Instruction) l q, c.code[o]? = some i → i.target? = some l →
    c.labelOffset? l = some q → Trace.Knows (i.trace o (T o)) (T q)

theorem Threaded.traces {c : Chunk} {T want : Nat → Trace} (h : c.Threaded T want) : c.Traces T where
  entry := h.entry
  step := h.step
  jump := fun small o i l q code target offset => by
    obtain ⟨-, knows⟩ := h.jump o i l code target
    unfold labelOffset? at offset
    split at offset
    · rename_i w label
      split_ifs at offset with placed
      cases offset
      exact knows.trans (h.place l.toNat w label placed small).2
    · cases offset

end Chunk

/-! ## Assemblies in which nothing is captured for restricted functions -/

structure Assembler.Withholding (a : Assembler) : Prop where
  encloses : a.Encloses Chunk.Withheld
  counts : ∀ c ∈ a.written, c.Withheld c.captureCount.toNat

namespace Assembler.Withholding
variable {a a' : Assembler}

theorem start (scriptName : String) : (start scriptName).Withholding := by
  refine ⟨.start _ scriptName, ?_⟩
  rw [written_start, List.forall_mem_singleton]
  exact fun _ => rfl

theorem gains (h : a.Withholding) (tabled : ∀ c ∈ a.written, c.Tabled) (gains : a.Gains a') : a'.Withholding := by
  refine ⟨h.encloses.gains tabled gains, fun c hc restricted => ?_⟩
  obtain ⟨c₀, there, more⟩ := gains.written c hc
  unfold Chunk.restricted at restricted
  rw [more.modifiers] at restricted
  rw [more.captureCount]
  exact h.counts c₀ there restricted

theorem rearrange (h : a.Withholding) (functions : (a'.opened ++ a'.aside).Perm (a.opened ++ a.aside))
    (chunks : a'.chunks = a.chunks) : a'.Withholding :=
  ⟨h.encloses.rearrange functions chunks, fun c hc => h.counts c ((written_perm functions chunks).mem_iff.mp hc)⟩

theorem begins {b : Body} (h : a.Withholding) (fresh : b.Fresh) (opened : a'.opened = b :: a.opened)
    (aside : a'.aside = a.aside) (chunks : a'.chunks = a.chunks) : a'.Withholding := by
  refine ⟨h.encloses.begins fresh opened aside chunks, ?_⟩
  obtain ⟨⟨name, source, chain, kind, modifiers, chunk⟩, -, -⟩ := fresh
  rw [written_begins opened aside chunks, List.forall_mem_cons]
  exact ⟨fun _ => by rw [chunk]; rfl, h.counts⟩

/-- A function that is restricted ends without captures. -/
theorem delivers (h : a.Withholding) (ordered : a.Ordered) (closed : a.Sealed) (delivers : a.Delivers a') :
    a'.Withholding := by
  have suits : (a.body.chunk.counted a.body.captures.size).Withheld a.body.captures.size := fun restricted => by
    rw [closed.body restricted]
    rfl
  refine ⟨ordered.encloses_delivers h.encloses delivers suits, ?_⟩
  obtain ⟨e, e', outer, index, lines, rest, -, -, -, -, -, enclosed, -, -, -, before, after⟩ := delivers.written
  have counts := h.counts
  rw [before] at counts
  simp only [List.forall_mem_cons] at counts
  obtain ⟨-, outside, others⟩ := counts
  simp only [after, List.forall_mem_cons, List.forall_mem_append, List.mem_singleton, forall_eq]
  refine ⟨enclosed ▸ outside, others, fun restricted => ?_⟩
  have none : a.body.captures.size = 0 := suits restricted
  simp [Chunk.counted, none]

theorem performStep {t : Step} (h : a.Withholding) (ordered : a.Ordered) (closed : a.Sealed)
    (inner : t.directive ≠ .endScript) : Does (Assembler.performStep t) a fun _ a' => a'.Withholding := by
  by_cases ends : t.directive.shift = .ends
  · refine does_bind (does_modify (does_mono (does_ends (I := fun a₁ => a.Amends a₁ ∧ a₁.Sealed) ends fun sets => ?_)
      fun _ a' ⟨a₁, a₂, ⟨amends, closed₁⟩, delivers, last⟩ => ?_))
    · have same : a.Amends { a with mark := t.mark, testSets := sets } := .here (.refl _) rfl rfl rfl rfl rfl
      intro _ a₁ run
      have quiet := quiet_implicitReturn { a with mark := t.mark, testSets := sets }
      rw [run] at quiet
      exact ⟨same.trans (amending_implicitReturn _ () a₁ run), quiet.2 ⟨closed.body, closed.outer, closed.aside⟩⟩
    · have ordered₁ := ordered.gains amends.gains
      have ordered₂ := ordered₁.delivers delivers
      exact ((h.gains ordered.tabled amends.gains).delivers ordered₁ closed₁ delivers).gains ordered₂.tabled last.gains
  refine does_mono (carries_step inner a) fun _ a' carries => ?_
  cases shift : t.directive.shift with
  | ends => exact absurd shift ends
  | stays =>
    rw [shift] at carries
    exact h.gains ordered.tabled (Amends.gains carries)
  | begins =>
    rw [shift] at carries
    obtain ⟨a₁, b, amends, fresh, opened, aside, chunks⟩ := carries
    exact (h.gains ordered.tabled amends.gains).begins fresh opened aside chunks
  | aside =>
    rw [shift] at carries
    obtain ⟨b, opened, aside, chunks⟩ := carries
    refine h.rearrange ?_ chunks
    rw [opened, aside]
    exact List.perm_middle
  | back =>
    rw [shift] at carries
    obtain ⟨b, aside, opened, chunks⟩ := carries
    refine h.rearrange ?_ chunks
    rw [opened, aside]
    exact List.perm_middle.symm

theorem performAll {steps : List Step} (h : a.Withholding) (ordered : a.Ordered) (closed : a.Sealed)
    (inner : ∀ t ∈ steps, t.directive ≠ .endScript) (run : Assembler.performAll steps a = .ok () a') : a'.Withholding := by
  induction steps generalizing a with
  | nil =>
    cases run
    exact h
  | cons t steps ih =>
    rw [List.forall_mem_cons] at inner
    obtain ⟨a₁, first, rest⟩ := performAll_cons run
    have ordered₁ := ordered.carries (carries_step inner.1 a () a₁ first)
    have alone : Assembler.performAll ([] ++ [t]) a = .ok () a₁ := performAll_snoc.mpr ⟨a, rfl, first⟩
    have closed₁ : a₁.Sealed := sealed_performAll closed alone
    exact ih (h.performStep ordered closed inner.1 () a₁ first) ordered₁ closed₁ inner.2 rest

end Assembler.Withholding

/-! ## Scripts -/

section Scripts
variable {tokens : List Token} {scriptName : String} {s : Script}

/-- Nothing is captured for the chunks of a script that are restricted. -/
theorem Script.Made.withheld (made : Made tokens scriptName s) :
    ∀ c ∈ s.chunks, c.Encloses Chunk.Withheld s.chunks ∧ c.Withheld c.captureCount.toNat := by
  obtain ⟨steps, a, a', inner, run, amends, -, -, chunks⟩ := made.ending
  have ordered := (Assembler.Ordered.start scriptName).performAll inner () a run
  have withholding := (Assembler.Withholding.start scriptName).performAll (.start scriptName) (sealed_start scriptName)
    inner run
  have last := withholding.gains ordered.tabled amends.gains
  rw [chunks]
  exact fun c hc => ⟨(ordered.gains amends.gains).encloses_push last.encloses c hc, last.counts c (mem_written_of_push hc)⟩

/-- Traces thread through the chunks of a script. -/
theorem Script.Made.threaded (made : Made tokens scriptName s) : ∀ c ∈ s.chunks, ∃ T want, c.Threaded T want := by
  obtain ⟨hash, accepted⟩ := made.program
  obtain ⟨⟨a, run, -, chunks⟩, -⟩ := Program.assembled accepted
  obtain ⟨P, become⟩ := become_ofTokens tokens
  have fitted := fitted_performAll become (fitted_start scriptName)
  unfold Safely at fitted
  rw [run] at fitted
  exact chunks ▸ fitted.around.chunks

/-- What the chunk at place `j` keeps to if it is restricted, and if it is pure. -/
structure Script.Confines (s : Script) (j : Nat) (c : Chunk) : Prop where
  captureCount : c.restricted → c.captureCount = 0
  /-- No capture follows a closure that is made of the chunk. -/
  captured : c.restricted → ∀ p o d, s.Closes p o j → s.chunks[p]? = some d → ∀ source, d.code[o + 1]? ≠ some (.capture source)
  /-- Captures are not read, not stored and not passed on to other closures. -/
  upvalue : c.restricted → ∀ i ∈ c.code, i.upvalue? = none
  stores : c.modifiers.isPure → ∀ i ∈ c.code, i.stores → ∃ name, i = .setProperty name
  /-- Below the value that a pure function stores to a field lies the object of a literal, made at the offset `q`. -/
  field : c.modifiers.isPure → ∃ T, c.Traces T ∧ ∀ (o : Nat) name, c.code[o]? = some (.setProperty name) →
    ∃ q, (T o)[1]? = some (some q) ∧ c.code[q]? = some .newDynamic

theorem no_capture_of_captured {c : Chunk} {o : Nat} (none : c.captured o = 0) (source : Capture) :
    c.code[o + 1]? ≠ some (.capture source) := by
  intro code
  rw [← Array.getElem?_toList, ← List.head?_drop, List.head?_eq_some_iff] at code
  obtain ⟨rest, code⟩ := code
  unfold Chunk.captured at none
  rw [code, List.takeWhile_cons_of_pos rfl] at none
  cases none

/-- Local and pure functions keep to what they are marked as, in every script that is compiled. -/
theorem Script.confines (made : Made tokens scriptName s) (j : Nat) (c : Chunk) (hc : s.chunks[j]? = some c) :
    s.Confines j c := by
  have mem := Array.mem_of_getElem? hc
  have ordered := made.inOrder
  have captured (restricted : c.restricted) (p o : Nat) (d : Chunk) (closes : s.Closes p o j) (hd : s.chunks[p]? = some d) :
      d.captured o = 0 := by
    obtain ⟨d', k, hd', code, constant⟩ := closes
    obtain rfl : d' = d := Option.some.inj (hd'.symm.trans hd)
    exact (made.withheld d' (Array.mem_of_getElem? hd)).1 o _ j c code
      (Chunk.closed?_eq_some.mpr ⟨k, rfl, constant⟩) hc restricted
  obtain ⟨T, want, threaded⟩ := made.threaded c mem
  refine ⟨fun restricted => ?_, fun restricted p o d closes hd => ?_, fun restricted i hi => ?_, fun pure i hi stores => ?_,
    fun pure => ⟨T, threaded.traces, fun o name code => threaded.guard pure o _ code⟩⟩
  · exact UInt8.toNat_inj.mp ((made.withheld c mem).2 restricted)
  · exact no_capture_of_captured (captured restricted p o d closes hd)
  · by_contra reads
    obtain ⟨n, reads⟩ := Option.ne_none_iff_exists'.mp reads
    obtain ⟨⟨p, o, closes⟩, brings⟩ := ordered.upvalue (ordered.tree made.top) hc hi reads
    obtain ⟨d, k, hd, -⟩ := id closes
    have := brings p o d closes hd
    rw [captured restricted p o d closes hd] at this
    exact absurd this (Nat.not_lt_zero _)
  · obtain ⟨o, inside, rfl⟩ := Array.getElem_of_mem hi
    have guarded := threaded.guard pure o _ (Array.getElem?_eq_getElem inside)
    revert stores guarded
    cases c.code[o] with
    | setProperty name => exact fun _ _ => ⟨name, rfl⟩
    | defineGlobal | setGlobal | setIndex => exact fun _ => False.elim
    | _ => exact fun stores => nomatch stores

end Scripts

/-- A pure function that makes an object with a field. -/
def Script.pureLiteral : List Token :=
  [(.pureWord, "pure"), (.funWord, "fun"), (.identifier, "f"), (.openParen, "("), (.identifier, "a"),
    (.closeParen, ")"), (.openBrace, "\x7b"), (.returnWord, "return"), (.openBrace, "\x7b"), (.identifier, "x"),
    (.equal, "="), (.identifier, "a"), (.closeBrace, "\x7d"), (.semicolon, ";"), (.closeBrace, "\x7d")].map
    fun t => ⟨t.1, t.2, .none, 1, 1, 0⟩

theorem Script.confines_pureLiteral : ∃ s c, Made pureLiteral "main" s ∧ s.chunks[0]? = some c ∧
    c.modifiers.isPure ∧ c.code[3]? = some (.setProperty 1) ∧ s.Confines 0 c := by
  have parts : (Script.ofTokens pureLiteral "main").toOption.bind
      (fun s => s.chunks[0]?.map fun c => (c.modifiers.isPure, c.code[3]?)) = some (true, some (.setProperty 1)) := by
    decide +kernel
  cases made : Script.ofTokens pureLiteral "main" with
  | error e =>
    rw [made] at parts
    cases parts
  | ok s =>
    rw [made] at parts
    obtain ⟨c, hc, facts⟩ := Option.map_eq_some_iff.mp parts
    obtain ⟨pure, code⟩ := Prod.mk.inj facts
    exact ⟨s, c, .inl made, hc, pure, code, confines (.inl made) 0 c hc⟩

end ScriptEngine
