import ScriptEngine.Proofs.Agreeing
import ScriptEngine.Proofs.Weaving

/-!
# Declarations of several variables

The grammar writes four steps behind the value of such a declaration: the region for the
values is closed, their number is compared with the number of variables, and the variables
are declared. In a scope they are locals from then on, slot by slot. Outside of scopes a
word for each of them defines a global, the last one first. In the chunk that is completed
in the end the words are where the steps have put them, and the region begins at the slot
of the first variable.
-/
namespace ScriptEngine

open Grammar Assembler

deriving instance DecidableEq for Directive

/-- The steps behind the value of a declaration of several variables. -/
def Directive.unpacking (names : List String) : List Directive :=
  [.plain .multiVarEnd, .plain (.pushByte (UInt8.ofNat names.length)), .plain (.validate .multiReturnMatches),
    .defineMany names]

/-! ## The grammar -/

/-- A declaration of several variables opens a region, writes its value and unpacks it. -/
theorem writing_multiVariables {parse : Goal → Parser Unit} (goals : ∀ goal, Weaves (parse goal) goal.reach) :
    Writing (multiVariables parse) fun _ ds => ∃ names value, names.length < 256 ∧ Woven .value value ∧
      ds = .plain .multiVarStart :: (value ++ Directive.unpacking names) := by
  refine writing_bind (P := fun _ ds => ds = []) (writing_repeatFrom (fun _ ds => ds = []) rfl ?_) ?_
  · rintro names _ rfl
    exact (silent_expectName _).then fun _ => (silent_accept _).then fun _ => writing_pure rfl
  rintro names _ rfl
  dsimp only
  split
  · exact writing_bind (P := fun _ _ => False) (writing_fail (by rintro _ _ _ ⟨⟩)) fun _ _ => False.elim
  rename_i few
  have body : Writing (do
      write (.plain .multiVarStart)
      expression parse
      write (.plain .multiVarEnd)
      write (.plain (.pushByte (UInt8.ofNat names.length)))
      write (.plain (.validate .multiReturnMatches))
      expect .semicolon "';' after multi-var declaration"
      write (.defineMany names)) fun _ ds => ∃ names value, names.length < 256 ∧ Woven .value value ∧
        ds = .plain .multiVarStart :: (value ++ Directive.unpacking names) :=
    writing_written <| writing_bind (goals (.expression .assignment)) fun _ value woven =>
      writing_written <| writing_written <| writing_written <| (silent_expect _ _).then fun _ =>
        writing_write ⟨names, value, by omega, woven, rfl⟩
  refine (silent_expect _ _).then fun _ => (silent_expect _ _).then fun _ => silent_currentKind.then fun _ =>
    silent_secondKind.then fun _ => ?_
  split
  · exact (silent_failHere _).then fun _ => body
  · exact body

/-! ## The assembly -/

section Assembly
variable {a a' : Assembler} {b b' : Body} {names : List String} {t : Step} {i : Instruction}

/-- Several variables have been declared: in a scope they are locals, one upon the other, and outside of scopes a word
for each of them defines a global, the last one first. -/
structure Assembler.Body.Declares (b : Body) (names : List String) (b' : Body) : Prop where
  locals : 0 < b.depth → b'.chunk.code = b.chunk.code ∧
    b'.locals = (names.map fun x => ⟨x, some b.depth, false⟩).reverse ++ b.locals ∧
    ∀ j < names.length, b.locals.length + j < 256
  globals : b.depth = 0 → ∃ indices : List UInt16, indices.length = names.length ∧
    b'.chunk.code.toList = b.chunk.code.toList ++ indices.reverse.map .defineGlobal ∧
    ∀ (j : Nat) k, indices[j]? = some k → ∃ x, names[j]? = some x ∧ b'.chunk.name? k = some x

theorem does_defineEach (names : List String) (depth : 0 < b.depth) :
    Does (names.forM fun name => do declareLocal name; complete) (a.setBody b) fun _ a' =>
      a' = a.setBody { b with locals := (names.map fun x => ⟨x, some b.depth, false⟩).reverse ++ b.locals } ∧
        ∀ j < names.length, b.locals.length + j < 256 := by
  induction names generalizing b with
  | nil => exact does_pure ⟨rfl, fun j less => absurd less (Nat.not_lt_zero j)⟩
  | cons name names ih =>
    refine does_forM_cons (does_bind (does_declareLocal depth fun room => does_complete depth rfl ?_))
    refine does_mono (ih (b := { b with locals := ⟨name, some b.depth, false⟩ :: b.locals }) depth) ?_
    rintro _ _ ⟨rfl, rooms⟩
    refine ⟨by simp, fun j less => ?_⟩
    cases j with
    | zero => exact room
    | succ j =>
      have := rooms j (Nat.lt_of_succ_lt_succ less)
      rw [List.length_cons] at this
      omega

theorem does_emitEach {α : Type} (make : α → Instruction) (xs : List α) :
    Does (xs.forM fun x => emit (make x)) (a.setBody b) fun _ a' => ∃ code lines,
      a' = a.setBody (b.setChunk { b.chunk with code, lines }) ∧
        code.toList = b.chunk.code.toList ++ xs.map make := by
  induction xs generalizing b with
  | nil => exact does_pure ⟨_, _, rfl, (List.append_nil _).symm⟩
  | cons x xs ih =>
    refine does_forM_cons (does_emit (does_mono ih ?_))
    rintro _ _ ⟨code, lines, rfl, eq⟩
    exact ⟨code, lines, rfl, by rw [eq]; simp [Body.emit, Chunk.emit]⟩

theorem does_defineMany (names : List String) :
    Does (defineMany names) (a.setBody b) fun _ a' => b.Declares names a'.body := by
  unfold defineMany
  refine does_bind (does_getBody ?_)
  split
  · next depth =>
    refine does_mono (does_defineEach names depth) ?_
    rintro _ _ ⟨rfl, rooms⟩
    exact ⟨fun _ => ⟨rfl, rfl, rooms⟩, fun zero => absurd depth (by omega)⟩
  · next depth =>
    refine does_bind (does_mono (does_nameConstants names) ?_)
    rintro indices _ ⟨constants, rfl, -, length, named⟩
    refine does_mono (does_emitEach (a := a) .defineGlobal indices.reverse) ?_
    rintro _ _ ⟨code, lines, rfl, eq⟩
    refine ⟨fun pos => absurd pos depth, fun _ => ⟨indices, length, eq, fun j k at_ => ?_⟩⟩
    obtain ⟨x, there, found⟩ := named j k at_
    exact ⟨x, there, name?_of_constant found⟩

theorem performStep_plain {plain : i.isPlain} (spelled : t.directive = .plain i plain) (a : Assembler) :
    performStep t a = .ok ()
      (Assembler.setBody { a with mark := t.mark } (a.body.emit i (UInt32.ofNat t.mark.line))) := by
  unfold performStep
  rw [spelled]
  rfl

/-- Each of several locals has its slot, if their names are distinct. -/
theorem slotOf_declared {depth j : Nat} {x : String} {ls : List Local} (distinct : names.Nodup)
    (named : names[j]? = some x) :
    slotOf x ((names.map fun x => ⟨x, some depth, false⟩).reverse ++ ls) = .ok (some (UInt8.ofNat (ls.length + j))) := by
  have found : findLocal x ((names.map fun x => ⟨x, some depth, false⟩).reverse ++ ls) =
      some (ls.length + j, ⟨x, some depth, false⟩) := by
    induction names using List.reverseRecOn with
    | nil => cases named
    | append_singleton names y ih =>
      obtain ⟨distinct, -, apart⟩ := List.nodup_append.mp distinct
      rw [List.map_append, List.reverse_append, List.map_singleton, List.reverse_singleton, List.singleton_append,
        List.cons_append, findLocal]
      rcases Nat.lt_or_ge j names.length with less | ge
      · rw [List.getElem?_append_left less] at named
        rw [if_neg (Ne.symm (apart x (List.mem_of_getElem? named) y (.head _)))]
        exact ih distinct named
      · rw [List.getElem?_append_right ge] at named
        obtain ⟨zero, rfl⟩ : j - names.length = 0 ∧ y = x := by
          rw [List.getElem?_singleton] at named
          split at named
          · next zero => exact ⟨zero, Option.some.inj named⟩
          · cases named
        obtain rfl : j = names.length := by omega
        rw [if_pos rfl]
        simp [Nat.add_comm]
  unfold slotOf
  rw [found]
  rfl

end Assembly

/-! ## The chunk -/

/-- In the chunk `c` the values of a declaration of several variables are counted at offset `o`, and their number is
compared with the number of variables. The first variable has the slot `first`, if the variables are locals. -/
structure Script.Unpacks (s : Script) (c : Chunk) (o : Nat) (names : List String) (first : Option Nat) : Prop where
  mem : c ∈ s.chunks
  few : names.length < 256
  finish : c.code[o]? = some .multiVarEnd
  expect : c.code[o + 1]? = some (.pushByte (UInt8.ofNat names.length))
  check : c.code[o + 2]? = some (.validate .multiReturnMatches)
  /-- The region begins at the slot of the first variable. -/
  slots : ∀ k, first = some k → ∃ N, Finished s.chunks c N ∧ (N.point o).region = .opened k
  /-- The last of the values is on top. -/
  words : first = none → ∀ (j : Nat) x, names.reverse[j]? = some x →
    ∃ k, c.code[o + 3 + j]? = some (.defineGlobal k) ∧ c.name? k = some x

section Chunks
variable {tokens : List Token} {scriptName : String} {s : Script} {known : Array Chunk} {c : Chunk} {N : Notes}
  {names : List String} {o : Nat} {pre ts post : List Step} {t : Step}

/-- As many values as are expected lie above the start of the region behind the check. -/
theorem Finished.unpacked (h : Finished known c N) {m : UInt8} (finish : c.code[o]? = some .multiVarEnd)
    (expect : c.code[o + 1]? = some (.pushByte m)) (check : c.code[o + 2]? = some (.validate .multiReturnMatches)) :
    ∃ k, (N.point o).region = .opened k ∧ (N.point (o + 3)).height = m.toNat + k := by
  obtain ⟨p, effect, next, -⟩ := h.effect finish
  have le := next rfl
  generalize N.point o = start at effect
  cases effect with
  | plain effect => cases effect
  | @finish e rest value =>
    refine ⟨rest.length, rfl, ?_⟩
    obtain ⟨x, held, top, -, split⟩ := List.forall₂_cons_left_iff.mp le.2
    obtain rfl := Held.count_le top
    have at₁ : N.point (o + 1) = ⟨.count :: held, .counted rest.length⟩ := by
      rw [← split]
      exact congrArg (Point.mk _) le.1.symm
    have region := (h.expects expect at₁).1
    have top₂ := h.expected expect at₁
    obtain ⟨q, effect₂, next₂, -⟩ := h.effect check
    have le₂ := next₂ rfl
    generalize N.point (o + 2) = p₂ at effect₂ region top₂
    cases effect₂ with
    | plain effect => cases effect
    | @validate n e' rest' =>
      cases top₂
      have lower : rest.length = rest'.length := by injection region
      have length := le₂.2.length_eq
      rw [List.length_append, List.length_replicate] at length
      rw [lower]
      exact length.symm

/-- What a step that makes variables leaves goes on in a chunk of the script. -/
theorem Script.Made.seats (made : Script.Made tokens scriptName s)
    (split : (Program.ofTokens tokens).steps.toList = pre ++ t :: post) (declares : t.directive.declares) :
    ∃ a a' c N, performAll pre (start scriptName) = .ok () a ∧ performStep t a = .ok () a' ∧ c ∈ s.chunks ∧
      Finished s.chunks c N ∧ Seats N.point c.code a'.body ∧ Grows a'.body.chunk.constants c.constants := by
  obtain ⟨mid, last, O, A, steps, final, moves, complete, run, chunks⟩ := made.assembled
  obtain ⟨us, listed, finished, -, traced⟩ := traced_program final moves complete run
  rw [← steps, split] at run traced
  obtain ⟨a, front, back⟩ := performAll_append run
  obtain ⟨a', step, -⟩ := performAll_cons back
  obtain ⟨⟨c, N⟩, mem, seats, grows⟩ := traced.seated a t a' ⟨pre, post, rfl, front, step⟩ declares
  refine ⟨a, a', c, N, front, step, ?_, chunks ▸ finished _ mem, seats, grows⟩
  rw [chunks, ← Array.mem_toList_iff, ← listed]
  exact List.mem_map_of_mem mem

/-- A declaration of several variables is compiled to the words that unpack its value: they stand where the assembly
was when the value had been written, and in a scope the variables have their slots from then on. -/
theorem Script.Made.unpacks (made : Script.Made tokens scriptName s)
    (split : (Program.ofTokens tokens).steps.toList = pre ++ ts ++ post)
    (spelled : ts.map Step.directive = Directive.unpacking names) (few : names.length < 256) :
    ∃ a a' c, performAll pre (start scriptName) = .ok () a ∧ performAll (pre ++ ts) (start scriptName) = .ok () a' ∧
      a.body.chunk.code.toList <+: c.code.toList ∧
      s.Unpacks c a.body.chunk.code.size names (if a.body.depth = 0 then none else some a.body.locals.length) ∧
      (0 < a.body.depth → names.Nodup → ∀ (j : Nat) x, names[j]? = some x →
        ∃ slot, slotOf x a'.body.locals = .ok (some slot) ∧ slot.toNat = a.body.locals.length + j) := by
  obtain ⟨t₁, _, rfl, spelled₁, spelled⟩ := List.map_eq_cons_iff.mp spelled
  obtain ⟨t₂, _, rfl, spelled₂, spelled⟩ := List.map_eq_cons_iff.mp spelled
  obtain ⟨t₃, _, rfl, spelled₃, spelled⟩ := List.map_eq_cons_iff.mp spelled
  obtain ⟨t₄, _, rfl, spelled₄, spelled⟩ := List.map_eq_cons_iff.mp spelled
  obtain rfl := List.map_eq_nil_iff.mp spelled
  have apart : (Program.ofTokens tokens).steps.toList = (pre ++ [t₁, t₂, t₃]) ++ t₄ :: post := by rw [split]; simp
  obtain ⟨A, a', c, N, front, step, mem, finished, seats, grows⟩ := made.seats apart (by rw [spelled₄]; rfl)
  have behind : performAll (pre ++ [t₁, t₂, t₃, t₄]) (start scriptName) = .ok () a' := by
    rw [show pre ++ [t₁, t₂, t₃, t₄] = (pre ++ [t₁, t₂, t₃]) ++ [t₄] by simp]
    exact performAll_snoc.mpr ⟨A, front, step⟩
  obtain ⟨a, before, words⟩ := performAll_append front
  obtain ⟨_, first, words⟩ := performAll_cons words
  cases (performStep_plain spelled₁ a).symm.trans first
  obtain ⟨_, second, words⟩ := performAll_cons words
  cases (performStep_plain spelled₂ _).symm.trans second
  obtain ⟨_, third, words⟩ := performAll_cons words
  cases (performStep_plain spelled₃ _).symm.trans third
  cases words
  -- the body when the three words are there
  let o := a.body.chunk.code.size
  let B := ((a.body.emit .multiVarEnd (.ofNat t₁.mark.line)).emit (.pushByte (UInt8.ofNat names.length))
    (.ofNat t₂.mark.line)).emit (.validate .multiReturnMatches) (.ofNat t₃.mark.line)
  have code : B.chunk.code.toList = a.body.chunk.code.toList ++
      [.multiVarEnd, .pushByte (UInt8.ofNat names.length), .validate .multiReturnMatches] := by
    simp [B, Body.emit, Chunk.emit]
  have declares : B.Declares names a'.body := by
    unfold performStep at step
    rw [spelled₄] at step
    exact does_defineMany (a := { a with mark := t₄.mark }) (b := B) names () a' step
  have onward : B.chunk.code.toList <+: c.code.toList := by
    refine .trans ?_ seats.code
    rcases Nat.eq_zero_or_pos a.body.depth with zero | pos
    · obtain ⟨indices, -, more, -⟩ := declares.globals zero
      rw [more]
      exact List.prefix_append _ _
    · rw [(declares.locals pos).1]
  have word {k : Nat} {i : Instruction} (there : ([.multiVarEnd, .pushByte (UInt8.ofNat names.length),
      .validate .multiReturnMatches] : List Instruction)[k]? = some i) : c.code[o + k]? = some i := by
    obtain ⟨more, eq⟩ := onward
    rw [← Array.getElem?_toList, ← eq, code, List.append_assoc, List.getElem?_append_right (by simp [o])]
    rw [show o + k - a.body.chunk.code.toList.length = k by simp [o]]
    rw [List.getElem?_append_left (List.getElem?_eq_some_iff.mp there).1, there]
  have size : B.chunk.code.size = o + 3 := by
    rw [← Array.length_toList, code]
    simp [o]
  have toNat : (UInt8.ofNat names.length).toNat = names.length := by
    rw [UInt8.toNat_ofNat', Nat.mod_eq_of_lt few]
  refine ⟨a, a', c, before, behind, ?_, ⟨mem, few, word (k := 0) rfl, word (k := 1) rfl, word (k := 2) rfl, ?_, ?_⟩, ?_⟩
  · refine .trans ?_ onward
    rw [code]
    exact List.prefix_append _ _
  · intro k slots
    split at slots
    · cases slots
    · next inScope =>
      cases slots
      obtain ⟨same, locals, -⟩ := declares.locals (Nat.pos_of_ne_zero inScope)
      obtain ⟨k, region, height⟩ :=
        finished.unpacked (o := o) (word (k := 0) rfl) (word (k := 1) rfl) (word (k := 2) rfl)
      have seated := seats.height (by rw [same, size]; omega)
      rw [same, size, height, toNat, locals, List.length_append, List.length_reverse, List.length_map] at seated
      exact ⟨N, finished, region.trans (congrArg Region.opened (Nat.add_left_cancel seated))⟩
  · intro globals j x at_
    split at globals
    · next zero =>
      obtain ⟨indices, length, more, named⟩ := declares.globals zero
      have inside := (List.getElem?_eq_some_iff.mp at_).1
      rw [List.length_reverse] at inside
      rw [List.getElem?_reverse inside] at at_
      obtain ⟨k, index⟩ : ∃ k, indices[names.length - 1 - j]? = some k :=
        ⟨_, List.getElem?_eq_getElem (by omega)⟩
      obtain ⟨x', named, entered⟩ := named _ k index
      obtain rfl := Option.some.inj (at_.symm.trans named)
      refine ⟨k, ?_, name?_grows grows entered⟩
      obtain ⟨after, eq⟩ := seats.code
      rw [← Array.getElem?_toList, ← eq, more, List.append_assoc,
        List.getElem?_append_right (by rw [Array.length_toList, size]; omega)]
      rw [show o + 3 + j - B.chunk.code.toList.length = j by rw [Array.length_toList, size]; omega]
      rw [List.getElem?_append_left (by simp; omega), List.getElem?_map, List.getElem?_reverse (by omega), length,
        index]
      rfl
    · cases globals
  · intro inScope distinct j x at_
    obtain ⟨-, locals, room⟩ := declares.locals inScope
    refine ⟨_, by rw [locals]; exact slotOf_declared distinct at_, ?_⟩
    rw [UInt8.toNat_ofNat', Nat.mod_eq_of_lt (room j (List.getElem?_eq_some_iff.mp at_).1)]
    rfl

/-- Where the value is a call, its word is the last one ahead of those. -/
theorem Script.Made.unpacks_call (made : Script.Made tokens scriptName s) {i : Instruction} {plain : i.isPlain}
    (split : (Program.ofTokens tokens).steps.toList = pre ++ t :: ts ++ post) (calls : t.directive = .plain i plain)
    (spelled : ts.map Step.directive = Directive.unpacking names) (few : names.length < 256) :
    ∃ a a' c, performAll pre (start scriptName) = .ok () a ∧ performAll (pre ++ t :: ts) (start scriptName) = .ok () a' ∧
      c.code[a.body.chunk.code.size]? = some i ∧
      s.Unpacks c (a.body.chunk.code.size + 1) names (if a.body.depth = 0 then none else some a.body.locals.length) ∧
      (0 < a.body.depth → names.Nodup → ∀ (j : Nat) x, names[j]? = some x →
        ∃ slot, slotOf x a'.body.locals = .ok (some slot) ∧ slot.toNat = a.body.locals.length + j) := by
  have apart : pre ++ t :: ts = pre ++ [t] ++ ts := by simp
  rw [apart] at split ⊢
  obtain ⟨a₁, a', c, before, behind, ⟨more, code⟩, unpacks, slots⟩ := made.unpacks split spelled few
  obtain ⟨a, front, step⟩ := performAll_snoc.mp before
  cases (performStep_plain calls a).symm.trans step
  have size : (a.body.emit i (.ofNat t.mark.line)).chunk.code.size = a.body.chunk.code.size + 1 := Array.size_push _
  refine ⟨a, a', c, front, behind, ?_, ?_, slots⟩
  · rw [← Array.getElem?_toList, ← code]
    change ((a.body.chunk.code.push i).toList ++ more)[_]? = _
    simp
  · rw [← size]
    exact unpacks

end Chunks

end ScriptEngine
