import ScriptEngine.Proofs.AssemblingTypes

/-!
# Closures under assembly

A closure is written as one instruction and a word for each variable that it
captures. Between the words `Capturing` holds, which is `Core` but for the words
that are missing.
-/
namespace ScriptEngine

open Assembler Outline

/-- A function that has so many captures to write. -/
structure Capturing (known : Array Chunk) (legal : Nat → String → Prop) (c₀ : Chunk) (N₀ : Notes) (L : Level)
    (b : Body) (N : Notes) (ws : List Nat) (m : Nat) : Prop where
  draft : Draft known b.chunk b.captures.size N ws
  frames : Frames L b { N with left := 0 } ws
  now : N.point b.chunk.code.size = L.point N.vars
  later : Later c₀ N₀ b.chunk N
  adds : Adds legal c₀.code.size b.chunk N
  left : N.left = m

section Capturing
variable {known : Array Chunk} {legal : Nat → String → Prop} {c₀ : Chunk} {N₀ : Notes} {L : Level} {b e : Body}
  {N N' : Notes} {ws : List Nat} {p q : Point} {k : UInt16} {j m : Nat} {d : Chunk} {ℓ : UInt32}
  {a : Assembler} {name : String}

/-- A variable whose local is flagged is captured. -/
theorem Kept.catch {ls : List Local} {vs : List (String × Nat)} {n o : Nat} {l : Local} {v : String × Nat}
    (h : Kept N ls vs) (nodup : (vs.map Prod.snd).Nodup) (hl : ls.reverse[n]? = some l)
    (hv : vs.reverse[n]? = some v) (flag : l.captured) (caught : N'.caught = (o, v.2) :: N.caught) :
    Kept N' ls vs := by
  unfold Kept at h ⊢
  rw [← List.forall₂_reverse_iff, List.forall₂_iff_get] at h ⊢
  refine ⟨h.1, fun i hi hi' => ⟨(h.2 i hi hi').1, fun free q mem => ?_⟩⟩
  rw [caught] at mem
  rcases List.mem_cons.mp mem with same | mem
  · -- no other variable has its number
    obtain ⟨bound, rfl⟩ := List.getElem?_eq_some_iff.mp hl
    obtain ⟨bound', rfl⟩ := List.getElem?_eq_some_iff.mp hv
    have inj := List.nodup_reverse.mpr nodup
    rw [← List.map_reverse] at inj
    have index : i < (vs.reverse.map Prod.snd).length := by simpa using hi'
    have index' : n < (vs.reverse.map Prod.snd).length := by simpa using bound'
    have : i = n := (@List.Nodup.getElem_inj_iff _ _ inj i index n index').mp
      (by simpa using (Prod.ext_iff.mp same).2)
    subst this
    change ls.reverse[i].captured = false at free
    rw [flag] at free
    cases free
  · exact (h.2 i hi hi').2 free q mem

/-- The flow is not about variables. -/
theorem Flow.reword {c : Chunk} {width : Nat} (h : Flow known c width N) (vars : List (String × Nat))
    (fresh : Nat) (caught : List (Nat × Nat)) (run : Nat → Nat) (left : Nat) :
    Flow known c width { N with vars, fresh, caught, run, left } :=
  ⟨h.step, h.fits, h.suits, h.placed, h.back, h.whole, h.since, h.within⟩

/-- A capture is written, of the variables that are noted with it. -/
theorem Capturing.write {s : Capture} (h : Capturing known legal c₀ N₀ L b N ws (m + 1))
    (more : List (Nat × Nat)) (started : L.started) (region : ∀ s, L.region ≠ .counted s)
    (older : ∀ e ∈ more, e.1 = b.chunk.code.size ∧ e.2 < N.fresh)
    (caught : ∀ n, s = ⟨true, n⟩ → ∃ name id, (L.point N.vars).at? n.toNat = some (.bound name id) ∧
      legal n.toNat name ∧ (b.chunk.code.size, id) ∈ more)
    (upvalue : ∀ n, s = ⟨false, n⟩ → n.toNat < b.captures.size)
    (kept : ∀ (N' : Notes) (front ls : List Local), N'.caught = more ++ N.caught → b.locals = front ++ ls →
      L.pending.Front b.depth front → Kept N ls N.vars → Kept N' ls N.vars) :
    ∃ N', Capturing known legal c₀ N₀ L (b.emit (.capture s) ℓ) N' ws m := by
  have emits : Emits known legal b.chunk b.captures.size N (.capture s) (L.point N.vars) := by
    refine ⟨⟨L.point N.vars, h.now ▸ .capture, fun _ => Point.le_refl _, nofun⟩, ?_,
      h.now ▸ suits_handed region (.inr (.inr rfl)), nofun, nofun⟩
    constructor
    case slot =>
      intro n hn
      obtain ⟨_ | _, m⟩ := s
      · cases hn
      · cases hn
        obtain ⟨name, id, at?, ok, -⟩ := caught n rfl
        exact ⟨name, id, h.now ▸ at?, ok⟩
    case upvalue =>
      rintro n (hn | hn | hn)
      · cases hn
      · cases hn
      · exact upvalue n (by injection hn)
    all_goals simp [Instruction.name?]
  have words := h.draft.words.emitCapture (ℓ := ℓ) (q := L.point N.vars) h.left older fun n hn => by
    obtain ⟨name, id, at?, -, mem⟩ := caught n hn
    exact ⟨name, id, h.now ▸ at?, mem⟩
  have flow := h.draft.flow.emit emits (ℓ := ℓ)
  have frames := h.frames.emit (q := L.point N.vars) (i := .capture s) (ℓ := ℓ)
    (h.draft.flow.reword _ _ _ _ _) started (.inr rfl)
  refine ⟨{ N.emit b.chunk.code.size (L.point N.vars) with caught := more ++ N.caught, left := m }, ?_, ?_, ?_, ?_, ?_, rfl⟩
  · exact ⟨flow.reword _ _ _ _ _, words, h.draft.waiting.nodup, h.draft.waiting.mem, h.draft.waiting.unplaced⟩
  · obtain ⟨front, ls, split, front', kept', opened⟩ := frames.locals
    exact { frames with
      locals := ⟨front, ls, split, front', kept _ front ls rfl split front' kept',
        opened.congr (fun _ _ => rfl) (fun _ _ h => ⟨h, rfl⟩) fun _ _ _ _ _ h => h⟩
      whole := rfl }
  · simp only [Body.emit, size_emit]
    exact point_emit_succ
  · exact h.later.trans (Later.emit.trans (.still rfl rfl (.refl _)))
  · exact (h.adds.emit (ℓ := ℓ) (q := L.point N.vars) emits.fits.slot).still rfl rfl

theorem Capturing.capture {s : Capture} (h : Capturing known legal c₀ N₀ L b N ws (m + 1)) (started : L.started)
    (region : ∀ s, L.region ≠ .counted s) (pending : L.pending.isFunction = false) (linked : Linked #[s] b)
    (ok : ∀ n name, s = ⟨true, n⟩ → Lent b.locals name n.toNat → legal n.toNat name) :
    ∃ N', Capturing known legal c₀ N₀ L (b.emit (.capture s) ℓ) N' ws m := by
  obtain ⟨_ | _, n⟩ := s
  case false =>
    refine h.write [] started region (by simp) nofun ?_ fun _ _ _ caught _ _ kept => ?_
    · rintro _ ⟨⟩
      exact linked.2 n (by simp)
    · unfold Kept at kept ⊢
      rw [caught]
      exact kept
  case true =>
    obtain ⟨name, lent⟩ := linked.1 n (by simp)
    obtain ⟨l, hl, complete, flag⟩ := lent
    obtain ⟨found, named⟩ := findLocal_some hl
    obtain ⟨v, hv, same⟩ := h.frames.variable pending found complete
    have fresh := h.frames.fresh v (List.mem_reverse.mp (List.mem_of_getElem? hv))
    refine h.write [(b.chunk.code.size, v.2)] started region (by simpa using fresh) ?_ nofun ?_
    · rintro _ ⟨⟩
      exact ⟨v.1, v.2, at?_bounds hv _, ok n _ rfl (same ▸ named ▸ ⟨l, hl, complete, flag⟩), by simp⟩
    · intro N' front ls caught split front' kept
      exact kept.catch h.frames.nodup (front_behind front' pending (split ▸ found) complete) hv flag caught

/-- The captures of a closure are written one by one. -/
theorem Capturing.captures {captures : List Capture} (h : Capturing known legal c₀ N₀ L b N ws captures.length)
    (started : L.started) (region : ∀ s, L.region ≠ .counted s) (pending : L.pending.isFunction = false)
    (linked : ∀ s ∈ captures, Linked #[s] b)
    (ok : ∀ n name, ⟨true, n⟩ ∈ captures → Lent b.locals name n.toNat → legal n.toNat name) :
    Does (captures.forM fun s => emit (.capture s)) (a.setBody b) fun _ =>
      Follows known legal c₀ N₀ a b.captures L := by
  induction captures generalizing b N with
  | nil =>
    refine does_pure ⟨b, N, ws, rfl, rfl, h.draft, by simp, ?_, h.now, h.later, h.adds⟩
    have frames := h.frames
    rwa [show { N with left := 0 } = N by rw [← show N.left = 0 from h.left]] at frames
  | cons s captures ih =>
    refine does_forM_cons (does_emit ?_)
    obtain ⟨N', h'⟩ := h.capture (ℓ := a.line) started region pending (linked s (.head _)) fun n name hn =>
      ok n name (hn ▸ .head _)
    exact ih h' (fun s hs => linked s (.tail _ hs)) fun n name hn => ok n name (.tail _ hn)

/-- The instruction of a closure is written. -/
theorem Core.closure (h : Core known legal c₀ N₀ L b N [] ws (L.point N.vars)) (started : L.started)
    (usual : L.Usual) (effect : Effect known b.chunk (.closure k) (L.point N.vars) p) (le : p ≤ q) (m : Nat) :
    Draft known (b.emit (.closure k) ℓ).chunk b.captures.size
        { N.emit b.chunk.code.size q with run := Function.update N.run b.chunk.code.size m, left := m } ws ∧
      Frames L (b.emit (.closure k) ℓ)
        { N.emit b.chunk.code.size q with run := Function.update N.run b.chunk.code.size m, left := 0 } ws ∧
      Later c₀ N₀ (b.emit (.closure k) ℓ).chunk
        { N.emit b.chunk.code.size q with run := Function.update N.run b.chunk.code.size m, left := m } ∧
      Adds legal c₀.code.size (b.emit (.closure k) ℓ).chunk
        { N.emit b.chunk.code.size q with run := Function.update N.run b.chunk.code.size m, left := m } := by
  have emits : Emits known legal b.chunk b.captures.size N (.closure k) q :=
    ⟨⟨p, h.now ▸ effect, fun _ => le, nofun⟩, fits_open rfl nofun,
      h.now ▸ (usual.point N.vars).suits nofun nofun nofun, nofun, nofun⟩
  have adds := h.adds.emit (ℓ := ℓ) (q := q) emits.fits.slot
  have flow := h.draft.flow.emit emits (ℓ := ℓ)
  have words := h.draft.words.emitClosure (ℓ := ℓ) (q := q) (k := k) h.frames.whole m
  have frames := h.frames.emit (q := q) (i := .closure k) (ℓ := ℓ) h.draft.flow started (.inr rfl)
  refine ⟨⟨flow.reword _ _ _ _ _, words, h.draft.waiting.nodup, h.draft.waiting.mem, h.draft.waiting.unplaced⟩,
    ?_, h.later.trans (Later.emit.trans (.still rfl rfl (.refl _))), adds.still rfl rfl⟩
  obtain ⟨front, ls, split, front', kept, opened⟩ := frames.locals
  exact { frames with
    locals := ⟨front, ls, split, front', kept,
      opened.congr (fun _ _ => rfl) (fun _ _ h => ⟨h, rfl⟩) fun _ _ _ _ _ h => h⟩
    whole := rfl }

/-- A closure that is a temporary. -/
theorem Core.closureTemp {e : Held} (h : Core known legal c₀ N₀ L b N [] ws (L.point N.vars)) (started : L.started)
    (usual : L.Usual) (effect : ∀ held r, Effect known b.chunk (.closure k) ⟨held, r⟩ ⟨e :: held, r⟩) (m : Nat) :
    ∃ N', Capturing known legal c₀ N₀ (L.setTemps (e :: L.temps)) (b.emit (.closure k) ℓ) N' ws m := by
  obtain ⟨draft, frames, later, adds⟩ := h.closure (ℓ := ℓ) started usual (effect _ _) (Point.le_refl _) m
  refine ⟨_, draft, frames.setTemps (e :: L.temps), ?_, later, adds, rfl⟩
  simp only [Body.emit, size_emit]
  exact point_emit_succ

/-- A closure that is a variable as soon as it is there. -/
theorem Core.closureVariable (h : Core known legal c₀ N₀ L b N [] ws (L.point N.vars)) (started : L.started)
    (usual : L.Usual) (effect : ∀ held r, Effect known b.chunk (.closure k) ⟨held, r⟩ ⟨.value :: held, r⟩)
    (pending : L.pending = .function name) (temps : L.temps = []) (declaring : L.Declaring) (m : Nat) :
    ∃ N', Capturing known legal c₀ N₀ { L with vars := name :: L.vars, pending := .none, started := true }
      (b.emit (.closure k) ℓ) N' ws m := by
  have le : (⟨.value :: (L.point N.vars).held, L.region⟩ : Point) ≤
      ⟨.bound name N.fresh :: (L.point N.vars).held, L.region⟩ :=
    ⟨rfl, .cons (.inr ⟨rfl, .inr rfl⟩) (List.forall₂_same.mpr fun _ _ => Held.le_refl _)⟩
  obtain ⟨draft, frames, later, adds⟩ := h.closure (ℓ := ℓ) started usual (effect _ _) le m
  obtain ⟨front, ls, split, front', kept, opened⟩ := frames.locals
  rw [pending] at front'
  obtain ⟨c, rfl⟩ := front'
  have room := frames.room
  rw [split] at room
  have new : ∀ q, (q, N.fresh) ∉ N.caught := fun q mem =>
    absurd (h.draft.words.older q _ mem).2 (Nat.lt_irrefl _)
  have extended := frames.extend (l := ⟨name, some (b.emit (.closure k) ℓ).depth, c⟩) kept
    (opened.push (declaring_scope declaring) rfl) rfl (by simpa using room) new
  have same {b : Body} (locals : List Local) (split : b.locals = locals) :
      { b with locals, depth := b.depth } = b := by
    rw [← split]
  rw [same (_ :: ls) split] at extended
  refine ⟨_, draft.revar ((name, N.fresh) :: N.vars) (Nat.le_succ N.fresh), extended, ?_,
    later.trans (.still rfl rfl (.refl _)), adds.still rfl rfl, rfl⟩
  simp only [Body.emit, size_emit]
  rw [Level.point, temps]
  exact point_emit_succ

theorem Linked.single {captures : Array Capture} (h : Linked captures b) {s : Capture} (hs : s ∈ captures) :
    Linked #[s] b := by
  refine ⟨fun n hn => h.1 n ?_, fun n hn => h.2 n ?_⟩
  all_goals
    rw [Array.mem_singleton] at hn
    exact hn ▸ hs

/-- A closure over a chunk of the script. -/
theorem follows_closure {captures : Array Capture} {L' : Level} {constants : Array Constant}
    (linked : Linked captures b) (pending : L'.pending.isFunction = false) (region : ∀ s, L'.region ≠ .counted s)
    (started : L'.started)
    (ok : ∀ n name, ⟨true, n⟩ ∈ captures → Lent b.locals name n.toNat → legal n.toNat name)
    (writes : ∃ N', Capturing known legal c₀ N₀ L'
      ((b.setChunk { b.chunk with constants }).emit (.closure k) a.line) N' ws captures.size) :
    Does (do
      emit (.closure k)
      captures.toList.forM fun s => emit (.capture s)) (a.setBody (b.setChunk { b.chunk with constants })) fun _ =>
      Follows known legal c₀ N₀ a b.captures L' := by
  obtain ⟨N', writes⟩ := writes
  rw [← Array.length_toList] at writes
  refine does_bind (does_emit ?_)
  exact writes.captures started region pending (fun s hs => linked.single (Array.mem_toList_iff.mp hs))
    fun n name hn => ok n name (Array.mem_toList_iff.mp hn)

/-- An instruction for the closure on top, with the closure gone behind it. -/
theorem Core.consume {i : Instruction} {temps : List Held} (h : Core known legal c₀ N₀ L b N [] ws (L.point N.vars))
    (effect : Effect known b.chunk i (L.point N.vars) ⟨temps ++ bounds N.vars, L.region⟩)
    (suits : Suits (L.point N.vars) i) (bare : i.isOpen) (name : ∀ n, i.name? = some n → (b.chunk.name? n).isSome) (target : i.target? = none) (pop : i ≠ .pop)
    (word : i.isWord = false) (case : i.isTestCase = false) :
    Follows known legal c₀ N₀ a b.captures (L.setTemps temps) (a.setBody (b.emit i a.line)) :=
  Follows.of ((h.touch.bare rfl effect suits bare name target pop word case).setTemps temps) rfl rfl

/-- The initializers of a type go with it, and then the names of its fields. -/
theorem follows_chain (fields : List String) {rest : List Held}
    (h : Core known legal c₀ N₀ L b N [] ws (L.point N.vars)) (temps : L.temps = .closure j :: .value :: rest)
    (usual : (L.setTemps (.value :: rest)).Usual) (chunk : known[j]? = some d) (arity : d.arity = 0) (ordinary : d.isSet = false) :
    Does (do
      emit .initChain
      fields.forM fun f => do emit (.field (← nameConstant f))) (a.setBody b) fun _ =>
      Follows known legal c₀ N₀ a b.captures (L.setTemps (.value :: rest)) := by
  have effect : Effect known b.chunk .initChain (L.point N.vars) ⟨.value :: rest ++ bounds N.vars, L.region⟩ := by
    rw [Level.point, temps]
    exact .chain chunk arity ordinary
  refine does_bind (does_emit ?_)
  refine does_forM (I := Follows known legal c₀ N₀ a b.captures (L.setTemps (.value :: rest)))
    (h.consume effect (suits_handed usual.region (.inl rfl)) rfl (by rintro n ⟨⟩) rfl (by rintro ⟨⟩) rfl rfl) ?_
  rintro f - _ ⟨b', N', ws', rfl, captures, h'⟩
  have follows := follows_emitNamed (a := a) .field f h' (τ := [.value]) rfl
    (fun _ => rfl) rfl (by simp [Held.isValue]) (fun _ => rfl) (fun _ => rfl) (fun _ => rfl) usual fun _ => .inr rfl
  rwa [captures] at follows

/-- A test set is named. -/
theorem follows_testSet (name : String) {rest : List Held} (h : Core known legal c₀ N₀ L b N [] ws (L.point N.vars))
    (temps : L.temps = .closure j :: rest) (region : ∀ s, L.region ≠ .counted s) :
    Does (do emit (.testSet (← nameConstant name))) (a.setBody b) fun _ =>
      Follows known legal c₀ N₀ a b.captures (L.setTemps rest) := by
  refine does_bind (does_nameConstant fun index constants grows found => does_emit ?_)
  have effect : Effect known { b.chunk with constants } (.testSet index) (L.point N.vars)
      ⟨rest ++ bounds N.vars, L.region⟩ := by
    rw [Level.point, temps]
    exact .set
  refine (h.constants grows).consume effect (suits_handed region (.inr (.inl ⟨index, rfl⟩))) rfl (fun n hn => ?_)
    rfl (by rintro ⟨⟩) rfl rfl
  cases hn
  exact name_isSome found

/-! ## What becomes of a closure -/

/-- A closure is a value, or the variable that waits for it. -/
theorem Core.receive (h : Core known legal c₀ N₀ L b N [] ws (L.point N.vars)) (started : L.started)
    (effect : ∀ held r, Effect known b.chunk (.closure k) ⟨held, r⟩ ⟨.value :: held, r⟩)
    (usual : L.Usual) (pending : L.pending.isFunction → L.temps = [] ∧ L.region = .none ∧ L.Declaring ∧ L.inScope)
    (m : Nat) :
    ∃ N', Capturing known legal c₀ N₀ L.receive (b.emit (.closure k) ℓ) N' ws m := by
  unfold Level.receive
  split
  · rename_i name waits
    obtain ⟨temps, -, declaring, -⟩ := pending (by rw [waits]; rfl)
    exact h.closureVariable started usual effect waits temps declaring m
  · exact h.closureTemp started usual effect m

end Capturing

end ScriptEngine
