import Mathlib.Data.List.TakeWhile
import ScriptEngine.Proofs.Scoping

/-!
# References between chunks

A chunk refers to others through its constants, and it has one instruction for each of
these that makes a closure. The references of all chunks together, of those that are being
written and of those that are listed, are the places in the list, each of them once: a
function that ends gets the next place, which the function around it refers to at once.

`Ordered` says so of an assembly, and with it what else holds of the tables of a chunk and
of the captures that follow a closure. Amendments keep it, as `Gains` says of the chunk that
they change, and so do the directives that begin and end functions.
-/
namespace ScriptEngine

open Assembler

/-- The place of the chunk that a constant refers to. -/
def Constant.ref? : Constant → Option Nat
  | .chunk (.listed i) => some i
  | _ => none

namespace Chunk

/-- The chunks that the constants refer to, in the order of the table. -/
def refs (c : Chunk) : List Nat := c.constants.toList.filterMap Constant.ref?

/-- The chunk that an instruction makes a closure of. -/
def closed? (c : Chunk) : Instruction → Option Nat
  | .closure k => c.constants[k.toNat]?.bind Constant.ref?
  | _ => none

/-- The chunks that closures are made of, in the order of the code. -/
def closed (c : Chunk) : List Nat := c.code.toList.filterMap c.closed?

/-- How many captures stand right behind an instruction. -/
def captured (c : Chunk) (o : Nat) : Nat :=
  ((c.code.toList.drop (o + 1)).takeWhile Instruction.isCapture).length

/-- Only the first so many captures are read and stored. -/
def Reads (c : Chunk) (width : Nat) : Prop :=
  ∀ i ∈ c.code, ∀ n, i.upvalue? = some n → n.toNat < width

/-- Wherever a closure is made, the captures that follow are as many as suits the chunk. -/
def Encloses (R : Chunk → Nat → Prop) (known : Array Chunk) (c : Chunk) : Prop :=
  ∀ (o : Nat) i j d, c.code[o]? = some i → c.closed? i = some j → known[j]? = some d → R d (c.captured o)

/-- Wherever a closure is made, as many captures follow as the chunk reads. -/
abbrev Supplies (known : Array Chunk) (c : Chunk) : Prop := c.Encloses Reads known

/-- The tables of a chunk are in order. -/
structure Tabled (c : Chunk) : Prop where
  labels : c.labels.size = c.labelNames.size
  labelRoom : c.labels.size ≤ 65536
  constants : ∀ k ∈ c.constants, k.isLiteral ∨ k.ref?.isSome
  constantRoom : c.constants.size ≤ 65536
  distinct : c.constants.toList.Pairwise fun k l => shares k l = false
  named : ∀ n, n ∈ c.arguments ∨ n ∈ c.results → (c.name? n).isSome
  lines : c.lines.size ≤ c.code.size
  made : ∀ k, .closure k ∈ c.code → (c.closed? (.closure k)).isSome
  closed : c.closed = c.refs

theorem Tabled.empty {name source chain : String} {kind : FunctionKind} {modifiers : Modifiers} :
    Tabled { name, source, chain, kind, modifiers } := by
  constructor <;> simp [Chunk.closed, Chunk.refs]

theorem Tabled.counted {c : Chunk} (h : c.Tabled) (captures : Nat) : (c.counted captures).Tabled := { h with }

/-- A chunk to which has been added, but no chunk constant and no closure. -/
structure Gains (c c' : Chunk) : Prop where
  tabled : c.Tabled → c'.Tabled
  refs : c'.refs = c.refs
  code : ∃ more, c'.code.toList = c.code.toList ++ more ∧ ∀ i ∈ more, i.isWord = false
  constants : Grows c.constants c'.constants
  modifiers : c'.modifiers = c.modifiers
  captureCount : c'.captureCount = c.captureCount

variable {c c' c'' : Chunk} {k : Constant} {i : Instruction} {index : UInt16} {R : Chunk → Nat → Prop}

theorem Reads.mono {width width' : Nat} (h : c.Reads width) (le : width ≤ width') : c.Reads width' :=
  fun i hi n hn => (h i hi n hn).trans_le le

theorem Gains.refl (c : Chunk) : c.Gains c := ⟨id, rfl, ⟨[], by simp, nofun⟩, .refl _, rfl, rfl⟩

theorem Gains.trans (h : c.Gains c') (h' : c'.Gains c'') : c.Gains c'' := by
  obtain ⟨more, code, ordinary⟩ := h.code
  obtain ⟨more', code', ordinary'⟩ := h'.code
  refine ⟨h'.tabled ∘ h.tabled, h'.refs.trans h.refs, ⟨more ++ more', ?_, ?_⟩, h.constants.trans h'.constants,
    h'.modifiers.trans h.modifiers, h'.captureCount.trans h.captureCount⟩
  · rw [code', code, List.append_assoc]
  · intro i hi
    exact (List.mem_append.mp hi).elim (ordinary i) (ordinary' i)

/-! ## What is made of a constant stays what it is -/

theorem ref?_eq_none (literal : k.isLiteral) : k.ref? = none := by
  cases k <;> first | rfl | cases literal

theorem closed?_eq_none (ordinary : i.isWord = false) : c.closed? i = none := by
  cases i <;> first | rfl | cases ordinary

theorem closed?_mono (grows : Grows c.constants c'.constants) {j : Nat} (h : c.closed? i = some j) :
    c'.closed? i = some j := by
  cases i with
  | closure n =>
    obtain ⟨v, found, ref⟩ := Option.bind_eq_some_iff.mp h
    exact Option.bind_eq_some_iff.mpr ⟨v, grows _ _ found, ref⟩
  | _ => cases h

theorem name?_mono (grows : Grows c.constants c'.constants) {n : UInt16} (h : (c.name? n).isSome) :
    (c'.name? n).isSome := by
  unfold name? at h ⊢
  split at h
  · rename_i s found
    rw [grows _ _ found]
    rfl
  · cases h

/-- Closures are made of what they were made of when there are more constants. -/
theorem closed_mono (tabled : c.Tabled) (grows : Grows c.constants c'.constants) :
    c.code.toList.filterMap c'.closed? = c.closed := by
  refine List.filterMap_congr fun i hi => ?_
  cases i with
  | closure n =>
    obtain ⟨j, made⟩ := Option.isSome_iff_exists.mp (tabled.made n (Array.mem_toList_iff.mp hi))
    rw [made, closed?_mono grows made]
  | _ => rfl

/-- Code that does not begin with a capture leaves a closure the captures that it has. -/
theorem captured_append {more : List Instruction} (code : c'.code.toList = c.code.toList ++ more)
    (apart : ∀ i ∈ more.head?, i.isCapture = false) {o : Nat} (inside : o < c.code.size) :
    c'.captured o = c.captured o := by
  have none : more.takeWhile Instruction.isCapture = [] := by
    cases more with
    | nil => rfl
    | cons i more => exact List.takeWhile_cons_of_neg (by simp [apart i rfl])
  unfold captured
  rw [code, List.drop_append_of_le_length (by simpa using inside), List.takeWhile_append]
  split
  · rw [none, List.append_nil]
    rename_i all
    rw [(List.takeWhile_sublist _).eq_of_length all]
  · rfl

/-- Closures that were there have the captures that they had. -/
theorem Encloses.inside {known : Array Chunk} {more : List Instruction} (encloses : c.Encloses R known) (tabled : c.Tabled)
    (grows : Grows c.constants c'.constants) (code : c'.code.toList = c.code.toList ++ more)
    (apart : ∀ i ∈ more.head?, i.isCapture = false) {o j : Nat} {d : Chunk} (there : o < c.code.size)
    (found : c'.code[o]? = some i) (made : c'.closed? i = some j) (chunk : known[j]? = some d) : R d (c'.captured o) := by
  rw [← Array.getElem?_toList, code, List.getElem?_append_left (by simpa using there), Array.getElem?_toList] at found
  have before : c.closed? i = some j := by
    cases i with
    | closure n =>
      obtain ⟨j', before⟩ := Option.isSome_iff_exists.mp (tabled.made n (Array.mem_of_getElem? found))
      rw [before, ← closed?_mono grows before, made]
    | _ => cases made
  rw [captured_append code apart there]
  exact encloses o i j d found before chunk

theorem Gains.encloses {known : Array Chunk} (h : c.Gains c') (tabled : c.Tabled) (encloses : c.Encloses R known) :
    c'.Encloses R known := by
  intro o i j d found made chunk
  obtain ⟨more, code, ordinary⟩ := h.code
  rcases Nat.lt_or_ge o c.code.size with there | beyond
  · refine encloses.inside tabled h.constants code (fun i first => ?_) there found made chunk
    have := ordinary i (List.mem_of_mem_head? first)
    cases i <;> first | rfl | cases this
  · rw [← Array.getElem?_toList, code, List.getElem?_append_right (by simpa using beyond)] at found
    rw [closed?_eq_none (ordinary i (List.mem_of_getElem? found))] at made
    cases made

/-! ## Amendments to a chunk -/

theorem size_addLine (lines : Array LineRun) (line : UInt32) : (addLine lines line).size ≤ lines.size + 1 := by
  unfold addLine
  split
  · split <;> simp
  · simp

theorem gains_emit (ordinary : i.isWord = false) (line : UInt32) : c.Gains (c.emit i line) := by
  have code : (c.emit i line).code.toList = c.code.toList ++ [i] := Array.toList_push
  refine ⟨fun h => { h with lines := ?_, made := fun k hk => ?_, closed := ?_ }, rfl,
    ⟨[i], code, by simpa using ordinary⟩, .refl _, rfl, rfl⟩
  · have := size_addLine c.lines line
    have := h.lines
    simp only [Chunk.emit, Array.size_push]
    omega
  · have there : .closure k ∈ c.code ∨ .closure k = i := by simpa [Chunk.emit] using hk
    obtain there | rfl := there
    · exact h.made k there
    · cases ordinary
  · have none : (c.emit i line).closed? i = none := closed?_eq_none ordinary
    have before : c.code.toList.filterMap (c.emit i line).closed? = c.refs :=
      (closed_mono h (.refl _)).trans h.closed
    unfold Chunk.closed
    rw [code, List.filterMap_append, before, List.filterMap_cons_none none, List.filterMap_nil, List.append_nil]
    rfl

/-- A constant that is not shared is not in the table yet. -/
theorem constantIndex?_eq_some (free : c.constantIndex? k = some index) :
    (∃ v ∈ c.constants, shares v k) ∧ c.putConstant index k = c ∨
    index.toNat = c.constants.size ∧ c.constants.size < 65536 ∧ (∀ v ∈ c.constants, shares v k = false) ∧
      c.putConstant index k = { c with constants := c.constants.push k } := by
  unfold constantIndex? at free
  dsimp only at free
  split_ifs at free with room
  cases free
  unfold putConstant
  rw [UInt16.toNat_ofNat', Nat.mod_eq_of_lt (by omega)]
  cases found : c.constants.findIdx? (shares · k) with
  | none =>
    rw [found] at room
    refine .inr ⟨rfl, room, ?_, if_pos rfl⟩
    simpa using Array.findIdx?_eq_none_iff.mp found
  | some n =>
    obtain ⟨inside, same, -⟩ := Array.findIdx?_eq_some_iff_getElem.mp found
    exact .inl ⟨⟨_, Array.getElem_mem inside, same⟩, if_neg (Nat.ne_of_lt inside)⟩

theorem gains_constant (literal : k.isLiteral) (free : c.constantIndex? k = some index) :
    c.Gains (c.putConstant index k) := by
  obtain ⟨-, same⟩ | ⟨-, room, other, put⟩ := constantIndex?_eq_some free
  · rw [same]
    exact .refl c
  rw [put]
  have grows : Grows c.constants (c.constants.push k) := grows_push _ _
  have refs : ({ c with constants := c.constants.push k } : Chunk).refs = c.refs := by
    simp [Chunk.refs, ref?_eq_none literal]
  refine ⟨fun h => ?_, refs, ⟨[], by simp, nofun⟩, grows, rfl, rfl⟩
  exact { h with
    constants := by
      intro v hv
      obtain old | rfl := Array.mem_push.mp hv
      · exact h.constants v old
      · exact .inl literal
    constantRoom := by
      rw [Array.size_push]
      exact room
    distinct := by
      rw [Array.toList_push, List.pairwise_append]
      refine ⟨h.distinct, List.pairwise_singleton _ _, fun v hv l hl => ?_⟩
      rw [List.mem_singleton.mp hl]
      exact other v (Array.mem_toList_iff.mp hv)
    named := fun n hn => name?_mono grows (h.named n hn)
    made := fun n hn => by
      obtain ⟨j, made⟩ := Option.isSome_iff_exists.mp (h.made n hn)
      exact Option.isSome_iff_exists.mpr ⟨j, closed?_mono grows made⟩
    closed := by
      rw [refs, ← h.closed]
      exact closed_mono h grows }

theorem gains_addLabel (room : c.labels.size < 65536) (name : String) : c.Gains (c.addLabel name) := by
  refine ⟨fun h => { h with labels := ?_, labelRoom := ?_ }, rfl, ⟨[], by simp [addLabel], nofun⟩, .refl _, rfl, rfl⟩
  · simpa [addLabel] using h.labels
  · simpa [addLabel] using room

theorem gains_placeLabel (label : UInt16) : c.Gains (c.placeLabel label) := by
  refine ⟨fun h => { h with labels := ?_, labelRoom := ?_ }, rfl, ⟨[], by simp [placeLabel], nofun⟩, .refl _, rfl, rfl⟩
  · simpa [placeLabel] using h.labels
  · simpa [placeLabel] using h.labelRoom

theorem gains_argument (named : (c.name? index).isSome) :
    c.Gains { c with arguments := c.arguments.push index } := by
  refine ⟨fun h => { h with named := fun n hn => ?_ }, rfl, ⟨[], by simp, nofun⟩, .refl _, rfl, rfl⟩
  rw [Array.mem_push] at hn
  obtain (old | rfl) | old := hn
  · exact h.named n (.inl old)
  · exact named
  · exact h.named n (.inr old)

theorem gains_result (named : (c.name? index).isSome) :
    c.Gains { c with results := c.results.push index } := by
  refine ⟨fun h => { h with named := fun n hn => ?_ }, rfl, ⟨[], by simp, nofun⟩, .refl _, rfl, rfl⟩
  rw [Array.mem_push] at hn
  obtain old | old | rfl := hn
  · exact h.named n (.inl old)
  · exact h.named n (.inr old)
  · exact named

/-! ## A closure over the next chunk -/

section Closure
variable {n : Nat} {captures : List Capture} {lines : Array LineRun}

/-- The chunk behind what is written for a closure. -/
def withClosure (c : Chunk) (index : UInt16) (n : Nat) (captures : List Capture) (lines : Array LineRun) : Chunk :=
  { c with
    code := c.code ++ (Instruction.closure index :: captures.map Instruction.capture).toArray
    constants := c.constants.push (.chunk (.listed n))
    lines }

theorem code_withClosure : (c.withClosure index n captures lines).code.toList =
    c.code.toList ++ (Instruction.closure index :: captures.map Instruction.capture) := by
  simp [withClosure]

theorem refs_withClosure : (c.withClosure index n captures lines).refs = c.refs ++ [n] := by
  simp [withClosure, Chunk.refs, Constant.ref?]

theorem closed?_withClosure (last : index.toNat = c.constants.size) :
    (c.withClosure index n captures lines).closed? (.closure index) = some n := by
  simp [closed?, withClosure, last, Constant.ref?]

theorem closed?_captures : (captures.map Instruction.capture).filterMap (c.withClosure index n captures lines).closed? = [] := by
  simp [List.filterMap_map, closed?]

theorem Tabled.withClosure (h : c.Tabled) (last : index.toNat = c.constants.size) (room : c.constants.size < 65536)
    (size : lines.size ≤ c.lines.size + 1 + captures.length) : (c.withClosure index n captures lines).Tabled := by
  have grows : Grows c.constants (c.withClosure index n captures lines).constants := grows_push _ _
  have closure : (c.withClosure index n captures lines).closed? (.closure index) = some n := closed?_withClosure last
  exact { h with
    constants := by
      intro v hv
      obtain old | rfl := Array.mem_push.mp hv
      · exact h.constants v old
      · exact .inr rfl
    constantRoom := by simpa [Chunk.withClosure] using room
    distinct := by
      have other (v : Constant) : shares v (.chunk (.listed n)) = false := by cases v <;> rfl
      simpa [Chunk.withClosure, List.pairwise_append, other] using h.distinct
    named := fun n hn => name?_mono grows (h.named n hn)
    lines := by
      have := h.lines
      simp [Chunk.withClosure]
      omega
    made := fun k hk => by
      rw [← Array.mem_toList_iff, code_withClosure] at hk
      simp only [List.mem_append, List.mem_cons, List.mem_map, reduceCtorEq, and_false, exists_false, or_false] at hk
      obtain old | same := hk
      · obtain ⟨j, made⟩ := Option.isSome_iff_exists.mp (h.made k (Array.mem_toList_iff.mp old))
        exact Option.isSome_iff_exists.mpr ⟨j, closed?_mono grows made⟩
      · rw [same, closure]
        rfl
    closed := by
      rw [refs_withClosure, ← h.closed, ← closed_mono h grows, Chunk.closed, code_withClosure, List.filterMap_append,
        List.filterMap_cons_some closure, closed?_captures] }

/-- The new closure is followed by its captures. -/
theorem captured_withClosure : (c.withClosure index n captures lines).captured c.code.size = captures.length := by
  have all : (captures.map Instruction.capture).takeWhile Instruction.isCapture = captures.map Instruction.capture := by
    rw [List.takeWhile_eq_self_iff]
    simp [Instruction.isCapture]
  have beyond : (c.code.toList ++ (Instruction.closure index :: captures.map Instruction.capture)).drop (c.code.size + 1) =
      captures.map Instruction.capture := by
    rw [← Array.length_toList, List.drop_append]
    simp
  unfold captured
  rw [code_withClosure, beyond, all, List.length_map]

theorem Encloses.withClosure {known : Array Chunk} {d : Chunk} (h : c.Encloses R known) (tabled : c.Tabled)
    (last : index.toNat = c.constants.size) (chunk : known[n]? = some d) (suits : R d captures.length) :
    (c.withClosure index n captures lines).Encloses R known := by
  intro o i j d' found made there
  rcases Nat.lt_or_ge o c.code.size with old | beyond
  · exact h.inside tabled (grows_push _ _) code_withClosure (by simp [Instruction.isCapture]) old found made there
  · rw [← Array.getElem?_toList, code_withClosure, List.getElem?_append_right (by simpa using beyond),
      Array.length_toList, List.getElem?_cons] at found
    split_ifs at found with first
    · cases found
      rw [closed?_withClosure last] at made
      cases made
      rw [chunk] at there
      cases there
      rw [show o = c.code.size by omega, captured_withClosure]
      exact suits
    · rw [List.getElem?_map] at found
      obtain ⟨s, -, rfl⟩ := Option.map_eq_some_iff.mp found
      cases made

/-- A chunk more in the list changes nothing for those that refer to others. -/
theorem Encloses.push {known : Array Chunk} {d : Chunk} (h : c.Encloses R known) (tabled : c.Tabled)
    (below : ∀ j ∈ c.refs, j < known.size) : c.Encloses R (known.push d) := by
  intro o i j d' found made there
  have mem : j ∈ c.refs := by
    rw [← tabled.closed]
    exact List.mem_filterMap.mpr ⟨i, Array.mem_toList_iff.mpr (Array.mem_of_getElem? found), made⟩
  rw [Array.getElem?_push, if_neg (Nat.ne_of_lt (below j mem))] at there
  exact h o i j d' found made there

end Closure

section Enclose
variable {e : Body} {n : Nat}

theorem foldl_captures (captures : List Capture) (line : UInt32) (b : Body) : ∃ lines, (captures.foldl (fun b c => b.emit (.capture c) line) b).chunk =
      { b.chunk with code := b.chunk.code ++ (captures.map Instruction.capture).toArray, lines } ∧
    lines.size ≤ b.chunk.lines.size + captures.length := by
  induction captures generalizing b with
  | nil => exact ⟨b.chunk.lines, by simp, Nat.le_refl _⟩
  | cons c captures ih =>
    obtain ⟨lines, chunk, size⟩ := ih (b.emit (.capture c) line)
    refine ⟨lines, ?_, ?_⟩
    · rw [List.foldl_cons, chunk]
      simp [Body.emit, Chunk.emit]
    · have := size_addLine b.chunk.lines line
      simp only [Body.emit, Chunk.emit] at size
      rw [List.length_cons]
      omega

/-- What is written for a closure. -/
theorem enclose_chunk (captures : List Capture) (line : UInt32) (free : e.chunk.constantIndex? (.chunk (.listed n)) = some index) :
    index.toNat = e.chunk.constants.size ∧ e.chunk.constants.size < 65536 ∧
    ∃ lines, (e.enclose (.listed n) index captures line).chunk = e.chunk.withClosure index n captures lines ∧
      lines.size ≤ e.chunk.lines.size + 1 + captures.length := by
  obtain ⟨⟨v, -, shares⟩, -⟩ | ⟨last, room, -, put⟩ := constantIndex?_eq_some free
  · cases v <;> cases shares
  obtain ⟨lines, chunk, size⟩ := foldl_captures captures line
    ((e.setChunk (e.chunk.putConstant index (.chunk (.listed n)))).emit (.closure index) line)
  refine ⟨last, room, lines, ?_, ?_⟩
  · unfold Body.enclose
    rw [chunk]
    simp [Body.emit, Chunk.emit, Body.setChunk, put, Chunk.withClosure]
  · have := size_addLine e.chunk.lines line
    simp only [Body.emit, Chunk.emit, Body.setChunk, put] at size
    omega

end Enclose

end Chunk

/-! ## Assemblies -/

/-- A function to which an amendment has been made. -/
structure Assembler.Body.Gains (b b' : Body) : Prop where
  chunk : b.chunk.Gains b'.chunk
  reads : b.chunk.Reads b.captures.size → b'.chunk.Reads b'.captures.size

/-- The captures of the script. -/
def Assembler.scriptCaptures (a : Assembler) : Option (Array Capture) := a.opened.getLast?.map Body.captures

/-- The chunks that are being written, and those that are listed. -/
def Assembler.written (a : Assembler) : List Chunk := (a.opened ++ a.aside).map Body.chunk ++ a.chunks.toList

/-- Every closure that is made has the captures that suit its chunk. -/
def Assembler.Encloses (R : Chunk → Nat → Prop) (a : Assembler) : Prop := ∀ c ∈ a.written, c.Encloses R a.chunks

structure Assembler.Gains (a a' : Assembler) : Prop where
  opened : List.Forall₂ Body.Gains a.opened a'.opened
  aside : a'.aside = a.aside
  chunks : a'.chunks = a.chunks
  script : a'.scriptCaptures = a.scriptCaptures

/-- References are the places in the list, each once, and lead back. -/
structure Assembler.Ordered (a : Assembler) : Prop where
  tabled : ∀ c ∈ a.written, c.Tabled
  supplies : a.Encloses Chunk.Reads
  refs : (a.written.flatMap Chunk.refs).Perm (List.range a.chunks.size)
  backward : ∀ (p : Nat) c, a.chunks[p]? = some c → ∀ j ∈ c.refs, j < p
  reads : ∀ b ∈ a.opened ++ a.aside, b.chunk.Reads b.captures.size
  script : a.scriptCaptures = some #[]

section Gains
variable {a a' a'' : Assembler}

theorem Assembler.Body.Gains.refl (b : Body) : b.Gains b := ⟨.refl _, id⟩

theorem Assembler.Body.Gains.trans {b b' b'' : Body} (h : b.Gains b') (h' : b'.Gains b'') : b.Gains b'' :=
  ⟨h.chunk.trans h'.chunk, h'.reads ∘ h.reads⟩

theorem Assembler.Gains.refl (a : Assembler) : a.Gains a :=
  ⟨List.forall₂_same.mpr fun b _ => .refl b, rfl, rfl, rfl⟩

theorem Assembler.Gains.trans (h : a.Gains a') (h' : a'.Gains a'') : a.Gains a'' :=
  ⟨forall₂_trans (R := Body.Gains) .trans h.opened h'.opened, h'.aside.trans h.aside, h'.chunks.trans h.chunks,
    h'.script.trans h.script⟩

/-- A function that keeps its chunk and may have more captures. -/
theorem Assembler.Body.Extends.gains {b b' : Body} (extends_ : b.Extends b') (chunk : b'.chunk = b.chunk) :
    b.Gains b' := by
  refine ⟨chunk ▸ .refl _, fun reads => chunk ▸ reads.mono ?_⟩
  simpa using extends_.captures.length_le

theorem Assembler.Rewired.gains {xs ys : List Body} (h : Rewired xs ys) :
    List.Forall₂ Body.Gains xs ys ∧ ys.getLast?.map Body.captures = xs.getLast?.map Body.captures := by
  induction h with
  | script extends_ chunk captures => exact ⟨.cons (extends_.gains chunk) .nil, by simp [captures]⟩
  | inner extends_ chunk rest ih =>
    refine ⟨.cons (extends_.gains chunk) ih.1, ?_⟩
    cases rest with
    | script _ _ captures => simp [captures]
    | inner => exact ih.2

/-- Only the chunk of the current function is changed. -/
theorem gains_here {b : Body} (captures : b.captures = a.body.captures) (chunk : a.body.chunk.Gains b.chunk)
    (reads : a.body.chunk.Reads a.body.captures.size → b.chunk.Reads a.body.captures.size) :
    a.Gains (a.setBody b) := by
  refine ⟨.cons ⟨chunk, captures ▸ reads⟩ (List.forall₂_same.mpr fun b _ => .refl b), rfl, rfl, ?_⟩
  unfold scriptCaptures opened
  cases outer : a.outer with
  | nil => simp [Assembler.setBody, outer, captures]
  | cons e es => simp [Assembler.setBody, outer]

theorem Amendment.gains (h : Amendment a a') : a.Gains a' := by
  cases h with
  | books opened aside chunks => exact ⟨opened.gains.1, aside, chunks, opened.gains.2⟩
  | @emit i line ordinary captured =>
    refine gains_here rfl (Chunk.gains_emit ordinary line) fun reads j hj n hn => ?_
    have there : j ∈ a.body.chunk.code ∨ j = i := by simpa [Body.emit, Chunk.emit] using hj
    obtain there | rfl := there
    · exact reads j there n hn
    · exact captured n hn
  | constant literal free =>
    refine gains_here rfl (Chunk.gains_constant literal free) fun reads => ?_
    rw [Body.setChunk, putConstant_eq]
    exact reads
  | label room => exact gains_here rfl (Chunk.gains_addLabel room _) id
  | place => exact gains_here rfl (Chunk.gains_placeLabel _) id
  | argument named => exact gains_here rfl (Chunk.gains_argument named) id
  | result named => exact gains_here rfl (Chunk.gains_result named) id

theorem Assembler.Amends.gains (h : a.Amends a') : a.Gains a' := by
  induction h with
  | refl => exact .refl a
  | tail _ last ih => exact ih.trans last.gains

end Gains

section Written
variable {a a' : Assembler} {R : Chunk → Nat → Prop}

theorem mem_written {c : Chunk} : c ∈ a.written ↔ (∃ b ∈ a.opened ++ a.aside, b.chunk = c) ∨ c ∈ a.chunks.toList := by
  simp only [Assembler.written, List.mem_append, List.mem_map]

theorem forall₂_right {α β : Type} {R : α → β → Prop} {xs : List α} {ys : List β} (h : List.Forall₂ R xs ys) :
    ∀ y ∈ ys, ∃ x ∈ xs, R x y := by
  induction h with
  | nil => nofun
  | cons first _ ih =>
    intro y hy
    rcases List.mem_cons.mp hy with rfl | hy
    · exact ⟨_, .head _, first⟩
    · obtain ⟨x, hx, related⟩ := ih y hy
      exact ⟨x, .tail _ hx, related⟩

/-- The functions that amendments have been made to. -/
theorem Assembler.Gains.source (h : a.Gains a') : ∀ b' ∈ a'.opened ++ a'.aside, ∃ b ∈ a.opened ++ a.aside, b.Gains b' := by
  intro b' hb
  rw [h.aside] at hb
  rcases List.mem_append.mp hb with hb | hb
  · obtain ⟨b, hb, gains⟩ := forall₂_right h.opened b' hb
    exact ⟨b, List.mem_append_left _ hb, gains⟩
  · exact ⟨b', List.mem_append_right _ hb, .refl b'⟩

theorem Assembler.Gains.written (h : a.Gains a') : ∀ c ∈ a'.written, ∃ c₀ ∈ a.written, c₀.Gains c := by
  intro c hc
  rcases mem_written.mp hc with ⟨b', hb, rfl⟩ | hc
  · obtain ⟨b, hb, gains⟩ := h.source b' hb
    exact ⟨b.chunk, mem_written.mpr (.inl ⟨b, hb, rfl⟩), gains.chunk⟩
  · exact ⟨c, mem_written.mpr (.inr (h.chunks ▸ hc)), .refl c⟩

theorem written_perm (functions : (a'.opened ++ a'.aside).Perm (a.opened ++ a.aside)) (chunks : a'.chunks = a.chunks) :
    a'.written.Perm a.written := by
  unfold Assembler.written
  rw [chunks]
  exact (functions.map Body.chunk).append_right _

theorem written_begins {b : Body} (opened : a'.opened = b :: a.opened) (aside : a'.aside = a.aside)
    (chunks : a'.chunks = a.chunks) : a'.written = b.chunk :: a.written := by
  simp [Assembler.written, opened, aside, chunks]

theorem written_start (scriptName : String) :
    (Assembler.start scriptName).written = [(Assembler.start scriptName).body.chunk] := by
  simp [Assembler.written, opened, Assembler.start]

/-- All chunks, around one that is listed. -/
theorem Assembler.Delivers.written (h : a.Delivers a') : ∃ (e e' : Body) (outer : List Body) (index : UInt16)
    (lines : Array LineRun) (rest : List Chunk), a.outer = e :: outer ∧ a'.opened = e' :: outer ∧ a'.aside = a.aside ∧
    a'.chunks = a.chunks.push (a.body.chunk.counted a.body.captures.size) ∧ e'.captures = e.captures ∧
    e'.chunk = e.chunk.withClosure index a.chunks.size a.body.captures.toList lines ∧
    index.toNat = e.chunk.constants.size ∧ e.chunk.constants.size < 65536 ∧
    lines.size ≤ e.chunk.lines.size + 1 + a.body.captures.toList.length ∧
    a.written = a.body.chunk :: e.chunk :: rest ∧
    a'.written = e'.chunk :: (rest ++ [a.body.chunk.counted a.body.captures.size]) := by
  obtain ⟨e, outer, index, line, around, free, opened, aside, chunks⟩ := h
  obtain ⟨last, room, lines, enclosed, size⟩ := Chunk.enclose_chunk a.body.captures.toList line free
  have captures := (e.enclose_books (.listed a.chunks.size) index a.body.captures.toList line).1
  have openedBefore : a.opened = a.body :: e :: outer := congrArg (a.body :: ·) around
  refine ⟨e, _, outer, index, lines, (outer ++ a.aside).map Body.chunk ++ a.chunks.toList, around, opened, aside, chunks,
    captures, enclosed, last, room, size, ?_, ?_⟩
  · simp [Assembler.written, openedBefore]
  · simp [Assembler.written, opened, aside, chunks]

namespace Assembler.Encloses

theorem start (R : Chunk → Nat → Prop) (scriptName : String) : (start scriptName).Encloses R := by
  unfold Assembler.Encloses
  rw [written_start, List.forall_mem_singleton]
  intro o i j d code
  simp [Assembler.start] at code

theorem gains (h : a.Encloses R) (tabled : ∀ c ∈ a.written, c.Tabled) (gains : a.Gains a') : a'.Encloses R := by
  intro c hc
  obtain ⟨c₀, there, more⟩ := gains.written c hc
  rw [gains.chunks]
  exact more.encloses (tabled c₀ there) (h c₀ there)

theorem rearrange (h : a.Encloses R) (functions : (a'.opened ++ a'.aside).Perm (a.opened ++ a.aside))
    (chunks : a'.chunks = a.chunks) : a'.Encloses R := by
  intro c hc
  rw [chunks]
  exact h c ((written_perm functions chunks).mem_iff.mp hc)

theorem begins {b : Body} (h : a.Encloses R) (fresh : b.Fresh) (opened : a'.opened = b :: a.opened)
    (aside : a'.aside = a.aside) (chunks : a'.chunks = a.chunks) : a'.Encloses R := by
  obtain ⟨⟨name, source, chain, kind, modifiers, chunk⟩, -, -⟩ := fresh
  unfold Assembler.Encloses
  rw [written_begins opened aside chunks, chunks, List.forall_mem_cons]
  refine ⟨fun o i j d code => ?_, h⟩
  simp [chunk] at code

end Assembler.Encloses

end Written

namespace Assembler.Ordered
variable {a a' : Assembler} {R : Chunk → Nat → Prop}

theorem refs_gains {xs ys : List Body} (h : List.Forall₂ Body.Gains xs ys) :
    (ys.map Body.chunk).flatMap Chunk.refs = (xs.map Body.chunk).flatMap Chunk.refs := by
  induction h with
  | nil => rfl
  | cons first _ ih => rw [List.map_cons, List.map_cons, List.flatMap_cons, List.flatMap_cons, first.chunk.refs, ih]

/-- Amendments keep the order. -/
theorem gains (h : a.Ordered) (gains : a.Gains a') : a'.Ordered := by
  refine ⟨fun c hc => ?_, h.supplies.gains h.tabled gains, ?_, gains.chunks ▸ h.backward, fun b' hb => ?_,
    gains.script.trans h.script⟩
  · obtain ⟨c₀, there, more⟩ := gains.written c hc
    exact more.tabled (h.tabled c₀ there)
  · have same : a'.written.flatMap Chunk.refs = a.written.flatMap Chunk.refs := by
      unfold written
      rw [gains.aside, gains.chunks, List.map_append, List.map_append, List.flatMap_append, List.flatMap_append,
        List.flatMap_append, List.flatMap_append, refs_gains gains.opened]
    rw [same, gains.chunks]
    exact h.refs
  · obtain ⟨b, hb, more⟩ := gains.source b' hb
    exact more.reads (h.reads b hb)

theorem start (scriptName : String) : (Assembler.start scriptName).Ordered where
  tabled := by
    rw [written_start, List.forall_mem_singleton]
    exact .empty
  supplies := .start _ scriptName
  refs := by simp [written, opened, Assembler.start, Chunk.refs]
  backward := by simp [Assembler.start]
  reads := by
    intro b hb
    obtain rfl : b = (Assembler.start scriptName).body := by simpa [opened, Assembler.start] using hb
    simp [Chunk.Reads, Assembler.start]
  script := rfl

/-- The functions and the chunks are the same, in whatever order the functions stand. -/
theorem rearrange (h : a.Ordered) (functions : (a'.opened ++ a'.aside).Perm (a.opened ++ a.aside))
    (chunks : a'.chunks = a.chunks) (script : a'.scriptCaptures = a.scriptCaptures) : a'.Ordered := by
  have written := written_perm functions chunks
  refine ⟨fun c hc => h.tabled c (written.mem_iff.mp hc), h.supplies.rearrange functions chunks, ?_, chunks ▸ h.backward,
    fun b hb => h.reads b (functions.mem_iff.mp hb), script.trans h.script⟩
  rw [chunks]
  exact (written.flatMap_right _).trans h.refs

/-- A function begins. -/
theorem begins {b : Body} (h : a.Ordered) (fresh : b.Fresh) (opened : a'.opened = b :: a.opened)
    (aside : a'.aside = a.aside) (chunks : a'.chunks = a.chunks) : a'.Ordered := by
  have supplies := h.supplies.begins fresh opened aside chunks
  obtain ⟨⟨name, source, chain, kind, modifiers, chunk⟩, -, -⟩ := fresh
  have written := written_begins opened aside chunks
  refine ⟨?_, supplies, ?_, chunks ▸ h.backward, ?_, ?_⟩
  · rw [written, List.forall_mem_cons]
    exact ⟨chunk ▸ .empty, h.tabled⟩
  · rw [written, chunks, List.flatMap_cons]
    simpa [chunk, Chunk.refs] using h.refs
  · rw [opened, aside, List.cons_append, List.forall_mem_cons]
    refine ⟨?_, h.reads⟩
    simp [chunk, Chunk.Reads]
  · rw [← h.script]
    unfold scriptCaptures
    rw [opened]
    rfl

theorem below (h : a.Ordered) {c : Chunk} (hc : c ∈ a.written) : ∀ j ∈ c.refs, j < a.chunks.size := fun _ hj =>
  List.mem_range.mp (h.refs.mem_iff.mp (List.mem_flatMap.mpr ⟨c, hc, hj⟩))

/-- A function ends, with the captures that suit its chunk. -/
theorem encloses_delivers (h : a.Ordered) (encloses : a.Encloses R) (delivers : a.Delivers a')
    (suits : R (a.body.chunk.counted a.body.captures.size) a.body.captures.size) : a'.Encloses R := by
  obtain ⟨e, e', outer, index, lines, rest, -, -, -, chunks, -, enclosed, last, -, -, before, after⟩ := delivers.written
  have push {c : Chunk} (hc : c ∈ a.written) : c.Encloses R a'.chunks :=
    chunks ▸ (encloses c hc).push (h.tabled c hc) (h.below hc)
  have inner : a.body.chunk.Encloses R a'.chunks := push (before ▸ .head _)
  have outside : e.chunk ∈ a.written := before ▸ .tail _ (.head _)
  have new : a'.chunks[a.chunks.size]? = some (a.body.chunk.counted a.body.captures.size) := by simp [chunks]
  unfold Assembler.Encloses
  simp only [after, List.forall_mem_cons, List.forall_mem_append, List.mem_singleton, forall_eq]
  refine ⟨?_, fun c hc => push (before ▸ .tail _ (.tail _ hc)), inner⟩
  rw [enclosed]
  exact (push outside).withClosure (h.tabled _ outside) last new (by rwa [Array.length_toList])

/-- A function ends: its chunk takes the next place, to which the function around it refers. -/
theorem delivers (h : a.Ordered) (delivers : a.Delivers a') : a'.Ordered := by
  have supplies := h.encloses_delivers h.supplies delivers (h.reads a.body (.head _))
  obtain ⟨e, e', outer, index, lines, rest, around, opened, aside, chunks, captures, enclosed, last, room, size, before,
    after⟩ := delivers.written
  have openedBefore : a.opened = a.body :: e :: outer := congrArg (a.body :: ·) around
  have inner : a.body.chunk ∈ a.written := before ▸ .head _
  have outside : e.chunk ∈ a.written := before ▸ .tail _ (.head _)
  refine ⟨?_, supplies, ?_, ?_, ?_, ?_⟩
  · simp only [after, List.forall_mem_cons, List.forall_mem_append, List.mem_singleton, forall_eq]
    refine ⟨enclosed ▸ (h.tabled _ outside).withClosure last room size, fun c hc => ?_, (h.tabled _ inner).counted _⟩
    exact h.tabled c (before ▸ .tail _ (.tail _ hc))
  · rw [List.perm_iff_count]
    intro j
    have := List.perm_iff_count.mp h.refs j
    have same : (a.body.chunk.counted a.body.captures.size).refs = a.body.chunk.refs := rfl
    rw [before] at this
    rw [after, chunks, Array.size_push, List.range_succ, enclosed]
    simp only [List.flatMap_cons, List.flatMap_append, List.flatMap_nil, List.append_nil, List.count_append,
      Chunk.refs_withClosure, same] at this ⊢
    omega
  · intro p c hc
    rw [chunks, Array.getElem?_push] at hc
    split_ifs at hc with here
    · cases hc
      have below := h.below inner
      rwa [here]
    · exact h.backward p c hc
  · rw [opened, aside, List.cons_append, List.forall_mem_cons]
    refine ⟨?_, fun b hb => h.reads b (by simp [openedBefore] at hb ⊢; tauto)⟩
    rw [captures, enclosed]
    intro i hi n hn
    rw [← Array.mem_toList_iff, Chunk.code_withClosure] at hi
    simp only [List.mem_append, List.mem_cons, List.mem_map] at hi
    obtain old | rfl | ⟨s, -, rfl⟩ := hi
    · exact h.reads e (by simp [openedBefore]) i (Array.mem_toList_iff.mp old) n hn
    · cases hn
    · cases hn
  · rw [← h.script]
    unfold scriptCaptures
    rw [opened, openedBefore]
    cases outer <;> simp [captures]

theorem carries {shift : Shift} (h : a.Ordered) (carries : shift.Carries a a') : a'.Ordered := by
  cases shift with
  | stays => exact h.gains (Amends.gains carries)
  | begins =>
    obtain ⟨a₁, b, amends, fresh, opened, aside, chunks⟩ := carries
    exact (h.gains amends.gains).begins fresh opened aside chunks
  | ends =>
    obtain ⟨a₁, a₂, first, delivers, last⟩ := carries
    exact ((h.gains first.gains).delivers delivers).gains last.gains
  | aside =>
    obtain ⟨b, opened, aside, chunks⟩ := carries
    refine h.rearrange ?_ chunks ?_
    · rw [opened, aside]
      exact List.perm_middle
    · unfold scriptCaptures
      rw [opened]
      rfl
  | back =>
    obtain ⟨b, aside, opened, chunks⟩ := carries
    refine h.rearrange ?_ chunks ?_
    · rw [opened, aside]
      exact List.perm_middle.symm
    · unfold scriptCaptures
      rw [opened]
      rfl

/-- Any number of steps. -/
theorem performAll {steps : List Step} (h : a.Ordered) (inner : ∀ t ∈ steps, t.directive ≠ .endScript) :
    Does (Assembler.performAll steps) a fun _ a' => a'.Ordered := by
  induction steps generalizing a with
  | nil => exact does_pure h
  | cons t steps ih =>
    refine does_bind (does_mono (carries_step (inner t (.head _)) a) fun _ a₁ carries => ?_)
    exact ih (h.carries carries) fun t' ht => inner t' (.tail _ ht)

end Assembler.Ordered

/-! ## Scripts -/

/-- The chunks of a script, the last of which is that of the script itself. -/
structure InOrder (chunks : Array Chunk) : Prop where
  tabled : ∀ c ∈ chunks, c.Tabled
  supplies : ∀ c ∈ chunks, c.Supplies chunks
  /-- Every chunk but the last is referred to once. -/
  refs : (chunks.toList.flatMap Chunk.refs).Perm (List.range (chunks.size - 1))
  backward : ∀ (p : Nat) c, chunks[p]? = some c → ∀ j ∈ c.refs, j < p
  script : ∃ c, chunks.back? = some c ∧ c.Reads 0

/-- The chunks once the last one is listed are those that have been written. -/
theorem mem_written_of_push {a : Assembler} {c : Chunk} (hc : c ∈ a.chunks.push a.body.chunk) : c ∈ a.written := by
  rcases Array.mem_push.mp hc with old | rfl
  · exact mem_written.mpr (.inr (Array.mem_toList_iff.mpr old))
  · exact mem_written.mpr (.inl ⟨a.body, .head _, rfl⟩)

theorem Assembler.Ordered.encloses_push {a : Assembler} {R : Chunk → Nat → Prop} (h : a.Ordered) (encloses : a.Encloses R) :
    ∀ c ∈ a.chunks.push a.body.chunk, c.Encloses R (a.chunks.push a.body.chunk) := fun c hc =>
  have mem := mem_written_of_push hc
  (encloses c mem).push (h.tabled c mem) (h.below mem)

/-- The last function is listed. -/
theorem Assembler.Ordered.finish {a : Assembler} (h : a.Ordered) (outer : a.outer = []) (aside : a.aside = []) :
    InOrder (a.chunks.push a.body.chunk) := by
  have opened : a.opened = [a.body] := congrArg (a.body :: ·) outer
  have written : a.written = a.body.chunk :: a.chunks.toList := by simp [written, opened, aside]
  have captures : a.body.captures = #[] := by simpa [scriptCaptures, opened] using h.script
  refine ⟨fun c hc => h.tabled c (mem_written_of_push hc), h.encloses_push h.supplies, ?_, fun p c hc => ?_,
    a.body.chunk, by simp, ?_⟩
  · have := h.refs
    rw [written, List.flatMap_cons] at this
    simpa using List.perm_append_comm.trans this
  · rw [Array.getElem?_push] at hc
    split_ifs at hc with here
    · cases hc
      have below := h.below (mem_written_of_push (c := a.body.chunk) (by simp))
      rwa [here]
    · exact h.backward p c hc
  · simpa [captures] using h.reads a.body (by simp [opened])

/-- No move ends a script. -/
theorem Outline.Moves.inner {ds : List Directive} {O O' : Outline} (moves : Moves ds O O') :
    ∀ d ∈ ds, d ≠ .endScript := by
  induction ds generalizing O with
  | nil => nofun
  | cons d ds ih =>
    obtain ⟨M, move, moves⟩ := moves
    rw [List.forall_mem_cons]
    refine ⟨?_, ih moves⟩
    rintro rfl
    cases move with
    | here move =>
      cases move with
      | simple effect => cases effect
      | quiet quiet => cases quiet

/-- The steps behind a script, up to where only the chunk of the script itself is left to be listed. -/
theorem Script.Made.ending {tokens : List Token} {scriptName : String} {s : Script} (made : Made tokens scriptName s) :
    ∃ steps a a', (∀ t ∈ steps, t.directive ≠ .endScript) ∧ performAll steps (start scriptName) = .ok () a ∧
      a.Amends a' ∧ a'.outer = [] ∧ a'.aside = [] ∧ s.chunks = a'.chunks.push a'.body.chunk := by
  obtain ⟨mid, last, O, a', split, final, moves, -, run, chunks⟩ := made.assembled
  obtain ⟨a, front, ending⟩ := performAll_snoc.mp run
  have ended : endScript { a with mark := last.mark } = .ok () a' := by
    have performed : perform last.directive { a with mark := last.mark } = .ok () a' := ending
    rwa [final] at performed
  obtain ⟨a₁, amends, opened, aside, listed⟩ := does_endScript_amends _ () a' ended
  have marked : a.Amends { a with mark := last.mark } := .here (.refl _) rfl rfl rfl rfl rfl
  -- the program has ended all functions but the script, and has set none aside
  obtain ⟨hash, accepted⟩ := made.program
  obtain ⟨⟨-, -, accepted, -⟩, -⟩ := Program.assembled accepted
  obtain ⟨n, begun⟩ := begun_ofTokens accepted
  rw [split] at begun
  have matches_ := ((begun_start scriptName).run begun run).1
  have outer : a₁.outer = [] := by
    have only := matches_.opened
    rw [opened] at only
    simpa [Assembler.opened] using only
  have none : a₁.aside = [] := by simpa [aside, eq_comm] using matches_.aside
  exact ⟨mid, a, a₁, fun t ht => moves.inner _ (List.mem_map_of_mem ht), front, marked.trans amends, outer, none,
    chunks.trans listed⟩

theorem Script.Made.inOrder {tokens : List Token} {scriptName : String} {s : Script} (made : Made tokens scriptName s) :
    InOrder s.chunks := by
  obtain ⟨steps, a, a', inner, run, amends, outer, aside, chunks⟩ := made.ending
  have ordered := (Assembler.Ordered.start scriptName).performAll inner () a run
  exact chunks ▸ (ordered.gains amends.gains).finish outer aside

theorem Script.Made.finished {tokens : List Token} {scriptName : String} {s : Script} (made : Made tokens scriptName s) :
    ∀ c ∈ s.chunks, ∃ N, Finished s.chunks c N := by
  intro c hc
  obtain ⟨mid, last, O, a, -, final, moves, complete, run, chunks⟩ := made.assembled
  obtain ⟨us, listed, finished, -⟩ := traced_program final moves complete run
  rw [chunks, ← Array.mem_toList_iff, ← listed] at hc
  obtain ⟨⟨c, N⟩, mem, rfl⟩ := List.mem_map.mp hc
  rw [chunks]
  exact ⟨N, finished _ mem⟩

end ScriptEngine
