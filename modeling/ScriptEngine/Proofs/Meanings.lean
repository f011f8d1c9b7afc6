import ScriptEngine.Compile.Script
import ScriptEngine.Proofs.Levels
import ScriptEngine.Proofs.ReadingPrograms

/-!
# Slots and their variables

A program is carried out step by step. What a step writes that reads, stores or
captures a slot finds there the variable that the step means; and when a step
makes a variable, the variables in scope lie in their slots, the new one on top.
Both are kept for all codes that are written side by side: of the functions that
are open, of those that have been stepped out of, and of complete chunks.
-/
namespace ScriptEngine

open Assembler Outline

/-- A step of a program, between the assembly ahead of it and the one behind it. -/
def Assembler.Comes (scriptName : String) (steps : List Step) (a : Assembler) (t : Step) (a' : Assembler) : Prop :=
  ∃ pre post, steps = pre ++ t :: post ∧ performAll pre (start scriptName) = .ok () a ∧ performStep t a = .ok () a'

/-- All codes that have been written so far. -/
def Assembler.codes (a : Assembler) : List (Array Instruction) :=
  (a.body :: a.outer ++ a.aside).map (·.chunk.code) ++ a.chunks.toList.map (·.code)

/-- What stands at offset `o` of a code refers to slot `n` because a step means the variable there: the code is
that of a function that was open, and the step has written the offset. -/
def Sourced (scriptName : String) (steps : List Step) (point : Nat → Point) (code : Array Instruction) (o n : Nat) :
    Prop :=
  ∃ a t a' k b w name id, Comes scriptName steps a t a' ∧ (a.body :: a.outer).reverse[k]? = some b ∧
    b.chunk.code.toList <+: code.toList ∧ b.chunk.code.size ≤ o ∧ w ∈ a'.codes ∧ w.toList <+: code.toList ∧
    o < w.size ∧ (point o).at? n = some (.bound name id) ∧ t.directive.Means a k n name

/-- Directives that make variables. -/
def Directive.declares : Directive → Bool
  | .define _ | .defineMany _ | .parameter _ | .resultName _ | .beginType _ _ | .inheritFrom _ _ => true
  | _ => false

/-- The code goes on that of a function whose variables lie in their slots, with nothing above them. Ahead of all
code there are the parameters, and more of them may follow. -/
structure Seats (point : Nat → Point) (code : Array Instruction) (b : Body) : Prop where
  code : b.chunk.code.toList <+: code.toList
  locals : ∀ n x, b.locals.reverse[n]? = some x →
    ∃ id, (point b.chunk.code.size).at? n = some (.bound x.name id)
  height : b.chunk.code.size ≠ 0 → (point b.chunk.code.size).height = b.locals.length

section Later
variable {c c' : Chunk} {N N' : Notes} {scriptName : String} {steps : List Step} {o n : Nat} {b : Body}

theorem Sourced.later (h : Sourced scriptName steps N.point c.code o n) (later : Later c N c' N')
    (within : o < c.code.size) : Sourced scriptName steps N'.point c'.code o n := by
  obtain ⟨a, t, a', k, b, w, name, id, comes, opened, begun, start, mem, written, stop, found, means⟩ := h
  refine ⟨a, t, a', k, b, w, name, id, comes, opened, begun.trans later.code, start, mem, written.trans later.code,
    stop, ?_, means⟩
  rw [later.point o within]
  exact found

theorem Seats.later (h : Seats N.point c.code b) (later : Later c N c' N') : Seats N'.point c'.code b := by
  have size : b.chunk.code.size ≤ c.code.size := by simpa using h.code.length_le
  refine ⟨h.code.trans later.code, fun n x hx => ?_, fun some => ?_⟩
  · obtain ⟨id, found⟩ := h.locals n x hx
    refine ⟨id, ?_⟩
    rcases Nat.lt_or_ge b.chunk.code.size c.code.size with lt | ge
    · rwa [later.point _ lt]
    · have same : b.chunk.code.size = c.code.size := by omega
      rw [same] at found ⊢
      exact later.here n _ id found
  · rw [← h.height some]
    rcases Nat.lt_or_ge b.chunk.code.size c.code.size with lt | ge
    · rw [later.point _ lt]
    · have same : b.chunk.code.size = c.code.size := by omega
      rw [same] at some ⊢
      exact later.height some

end Later

/-- The codes that are written, with their notes. -/
def texts (ps qs : List (Body × Notes)) (ds : List (Chunk × Notes)) : List (Chunk × Notes) :=
  (ps ++ qs).map (fun x => (x.1.chunk, x.2)) ++ ds

section Turns
variable {legal : Nat → Nat → String → Prop} {ps ps' qs qs' : List (Body × Notes)} {ds ds' : List (Chunk × Notes)}
  {x y : Chunk × Notes}

theorem mem_texts : y ∈ texts ps qs ds ↔
    (∃ x ∈ ps, (x.1.chunk, x.2) = y) ∨ (∃ x ∈ qs, (x.1.chunk, x.2) = y) ∨ y ∈ ds := by
  simp [texts]

theorem Stays.lasts (h : Stays legal ps ps') {x : Body × Notes} (hx : x ∈ ps) :
    ∃ y ∈ ps', Later x.1.chunk x.2 y.1.chunk y.2 := by
  induction h with
  | nil => cases hx
  | @cons _ b' _ N' _ _ later _ _ ih =>
    rcases List.mem_cons.mp hx with rfl | hx
    · exact ⟨(b', N'), .head _, later⟩
    · obtain ⟨y, hy, later⟩ := ih hx
      exact ⟨y, .tail _ hy, later⟩

/-- What is added to a function may be referred to there. -/
theorem Stays.new (h : Stays legal ps ps') {y : Body × Notes} (hy : y ∈ ps') :
    ∃ k x, ps.reverse[k]? = some x ∧ Later x.1.chunk x.2 y.1.chunk y.2 ∧
      Adds (legal k) x.1.chunk.code.size y.1.chunk y.2 := by
  induction h with
  | nil => cases hy
  | @cons b _ N _ ps _ later adds _ ih =>
    rcases List.mem_cons.mp hy with rfl | hy
    · exact ⟨ps.length, (b, N), by simp, later, adds⟩
    · obtain ⟨k, x, hx, later, adds⟩ := ih hy
      have bound := (List.getElem?_eq_some_iff.mp hx).1
      refine ⟨k, x, ?_, later, adds⟩
      rw [List.reverse_cons, List.getElem?_append_left bound]
      exact hx

/-- What has been written goes on somewhere. -/
theorem Turns.lasts (h : Turns legal ps qs ds ps' qs' ds') (hx : x ∈ texts ps qs ds) :
    ∃ y ∈ texts ps' qs' ds', Later x.1 x.2 y.1 y.2 := by
  simp only [mem_texts] at hx ⊢
  cases h with
  | stays stays =>
    obtain ⟨x, hx, rfl⟩ | hx | hx := hx
    · obtain ⟨y, hy, later⟩ := stays.lasts hx
      exact ⟨_, .inl ⟨y, hy, rfl⟩, later⟩
    · exact ⟨x, .inr (.inl hx), .refl _ _⟩
    · exact ⟨x, .inr (.inr hx), .refl _ _⟩
  | begins stays empty =>
    obtain ⟨x, hx, rfl⟩ | hx | hx := hx
    · obtain ⟨y, hy, later⟩ := stays.lasts hx
      exact ⟨_, .inl ⟨y, .tail _ hy, rfl⟩, later⟩
    · exact ⟨x, .inr (.inl hx), .refl _ _⟩
    · exact ⟨x, .inr (.inr hx), .refl _ _⟩
  | @ends _ b N d _ _ _ _ stays code constants =>
    obtain ⟨x, hx, rfl⟩ | hx | hx := hx
    · obtain ⟨y, hy, later⟩ := stays.lasts hx
      rcases List.mem_cons.mp hy with rfl | hy
      · exact ⟨(d, N), .inr (.inr (by simp)), later.trans (.still code rfl constants)⟩
      · exact ⟨_, .inl ⟨y, hy, rfl⟩, later⟩
    · exact ⟨x, .inr (.inl hx), .refl _ _⟩
    · exact ⟨x, .inr (.inr (by simp [hx])), .refl _ _⟩
  | out stays =>
    obtain ⟨x, hx, rfl⟩ | ⟨x, hx, rfl⟩ | hx := hx
    · obtain ⟨y, hy, later⟩ := stays.lasts hx
      rcases List.mem_cons.mp hy with rfl | hy
      · exact ⟨_, .inr (.inl ⟨y, .head _, rfl⟩), later⟩
      · exact ⟨_, .inl ⟨y, hy, rfl⟩, later⟩
    · exact ⟨_, .inr (.inl ⟨x, .tail _ hx, rfl⟩), .refl _ _⟩
    · exact ⟨x, .inr (.inr hx), .refl _ _⟩
  | into stays =>
    obtain ⟨x, hx, rfl⟩ | ⟨x, hx, rfl⟩ | hx := hx
    · obtain ⟨y, hy, later⟩ := stays.lasts hx
      exact ⟨_, .inl ⟨y, .tail _ hy, rfl⟩, later⟩
    · rcases List.mem_cons.mp hx with rfl | hx
      · exact ⟨_, .inl ⟨x, .head _, rfl⟩, .refl _ _⟩
      · exact ⟨_, .inr (.inl ⟨x, hx, rfl⟩), .refl _ _⟩
    · exact ⟨x, .inr (.inr hx), .refl _ _⟩

/-- What is there was there before, goes on an open function, or is empty. -/
theorem Turns.new (h : Turns legal ps qs ds ps' qs' ds') (hy : y ∈ texts ps' qs' ds') :
    y ∈ texts ps qs ds ∨ y.1.code = #[] ∨ ∃ k x, ps.reverse[k]? = some x ∧ Later x.1.chunk x.2 y.1 y.2 ∧
      Adds (legal k) x.1.chunk.code.size y.1 y.2 := by
  simp only [mem_texts] at hy ⊢
  cases h with
  | stays stays =>
    obtain ⟨y, hy, rfl⟩ | hy | hy := hy
    · exact .inr (.inr (stays.new hy))
    · exact .inl (.inr (.inl hy))
    · exact .inl (.inr (.inr hy))
  | begins stays empty =>
    obtain ⟨y, hy, rfl⟩ | hy | hy := hy
    · rcases List.mem_cons.mp hy with rfl | hy
      · exact .inr (.inl empty)
      · exact .inr (.inr (stays.new hy))
    · exact .inl (.inr (.inl hy))
    · exact .inl (.inr (.inr hy))
  | ends stays code constants =>
    obtain ⟨y, hy, rfl⟩ | hy | hy := hy
    · exact .inr (.inr (stays.new (.tail _ hy)))
    · exact .inl (.inr (.inl hy))
    · rcases List.mem_append.mp hy with hy | hy
      · exact .inl (.inr (.inr hy))
      · obtain rfl := List.mem_singleton.mp hy
        obtain ⟨k, x, hx, later, adds⟩ := stays.new (.head _)
        exact .inr (.inr ⟨k, x, hx, later.trans (.still code rfl constants), adds.still code rfl⟩)
  | out stays =>
    obtain ⟨y, hy, rfl⟩ | ⟨y, hy, rfl⟩ | hy := hy
    · exact .inr (.inr (stays.new (.tail _ hy)))
    · rcases List.mem_cons.mp hy with rfl | hy
      · exact .inr (.inr (stays.new (.head _)))
      · exact .inl (.inr (.inl ⟨y, hy, rfl⟩))
    · exact .inl (.inr (.inr hy))
  | into stays =>
    obtain ⟨y, hy, rfl⟩ | ⟨y, hy, rfl⟩ | hy := hy
    · rcases List.mem_cons.mp hy with rfl | hy
      · exact .inl (.inr (.inl ⟨y, .head _, rfl⟩))
      · exact .inr (.inr (stays.new hy))
    · exact .inl (.inr (.inl ⟨y, .tail _ hy, rfl⟩))
    · exact .inl (.inr (.inr hy))

end Turns

/-- What is known of the codes when the steps of `pre` have been carried out. -/
structure Traced (scriptName : String) (steps pre : List Step) (us : List (Chunk × Notes)) : Prop where
  sourced : ∀ y ∈ us, ∀ (o : Nat) i n, y.1.code[o]? = some i → i.slot? = some n →
    Sourced scriptName steps y.2.point y.1.code o n.toNat
  seated : ∀ a t a', Comes scriptName pre a t a' → t.directive.declares →
    ∃ y ∈ us, Seats y.2.point y.1.code a'.body ∧ Grows a'.body.chunk.constants y.1.constants

section Run
variable {scriptName : String} {steps pre : List Step} {t : Step} {d : Directive}
  {O O' : Outline} {a a' : Assembler} {ps ps' qs qs' : List (Body × Notes)} {ds ds' : List (Chunk × Notes)}
  {flags : List Bool}

theorem performAll_snoc {s : Assembler} : performAll (pre ++ [t]) s = .ok () a' ↔
    ∃ a, performAll pre s = .ok () a ∧ performStep t a = .ok () a' := by
  induction pre generalizing s with
  | nil =>
    have step : performAll ([] ++ [t]) s = performStep t s := by
      change EStateM.bind _ _ _ = _
      unfold EStateM.bind
      split <;> simp_all [performAll, pure, EStateM.pure]
    rw [step]
    constructor
    · exact fun h => ⟨s, rfl, h⟩
    · rintro ⟨_, ⟨⟩, h⟩
      exact h
  | cons p pre ih =>
    change EStateM.bind _ _ _ = _ ↔ ∃ a, EStateM.bind _ _ _ = _ ∧ _
    unfold EStateM.bind
    split
    · exact ih
    · simp

theorem Assembler.Comes.snoc {u : Assembler} {s : Step} {u' : Assembler} (h : Comes scriptName (pre ++ [t]) u s u')
    (run : performAll pre (start scriptName) = .ok () a) (step : performStep t a = .ok () a') :
    Comes scriptName pre u s u' ∨ s = t ∧ u' = a' := by
  obtain ⟨front, back, split, ahead, behind⟩ := h
  rcases List.eq_nil_or_concat back with rfl | ⟨back, last, rfl⟩
  · obtain ⟨rfl, same⟩ := List.append_inj' split rfl
    cases same
    rw [run] at ahead
    cases ahead
    rw [step] at behind
    cases behind
    exact .inr ⟨rfl, rfl⟩
  · rw [List.concat_eq_append, ← List.cons_append, ← List.append_assoc] at split
    obtain ⟨rfl, -⟩ := List.append_inj' split rfl
    exact .inl ⟨front, back, rfl, ahead, behind⟩

/-- One more step. -/
theorem Traced.step (h : Traced scriptName steps pre (texts ps qs ds)) (split : ∃ post, steps = pre ++ t :: post)
    (run : performAll pre (start scriptName) = .ok () a) (step : performStep t a = .ok () a')
    (bodies : ps.map Prod.fst = a.body :: a.outer) (turns : Turns (t.directive.Means a) ps qs ds ps' qs' ds')
    (codes : ∀ y ∈ texts ps' qs' ds', y.1.code ∈ a'.codes)
    (seats : t.directive.declares → ∃ y ∈ texts ps' qs' ds', Seats y.2.point y.1.code a'.body ∧
      Grows a'.body.chunk.constants y.1.constants) :
    Traced scriptName steps (pre ++ [t]) (texts ps' qs' ds') where
  sourced y hy o i n hi hn := by
    have comes : Comes scriptName steps a t a' := by
      obtain ⟨post, rfl⟩ := split
      exact ⟨pre, post, rfl, run, step⟩
    obtain old | empty | ⟨k, x, hx, later, adds⟩ := turns.new hy
    · exact h.sourced y old o i n hi hn
    · simp [empty] at hi
    have hx' : x ∈ ps := List.mem_reverse.mp (List.mem_of_getElem? hx)
    rcases Nat.lt_or_ge o x.1.chunk.code.size with lt | ge
    · have hi' : x.1.chunk.code[o]? = some i := by
        obtain ⟨more, code⟩ := later.code
        rw [← Array.getElem?_toList] at hi ⊢
        rw [← code, List.getElem?_append_left (by simpa using lt)] at hi
        exact hi
      exact (h.sourced (x.1.chunk, x.2) (mem_texts.mpr (.inl ⟨x, hx', rfl⟩)) o i n hi' hn).later later lt
    · obtain ⟨name, id, found, means⟩ := adds o i n ge hi hn
      have opened : (a.body :: a.outer).reverse[k]? = some x.1 := by
        rw [← bodies, ← List.map_reverse, List.getElem?_map, hx]
        rfl
      exact ⟨a, t, a', k, x.1, y.1.code, name, id, comes, opened, later.code, ge, codes y hy,
        List.prefix_refl _, lt_size_of_code hi, found, means⟩
  seated u s u' comes declares := by
    obtain old | ⟨rfl, rfl⟩ := comes.snoc run step
    · obtain ⟨x, hx, seats, constants⟩ := h.seated u s u' old declares
      obtain ⟨y, hy, later⟩ := turns.lasts hx
      exact ⟨y, hy, seats.later later, constants.trans later.constants⟩
    · exact seats declares

theorem Sim.codes (h : Sim O flags a ps qs ds) : ∀ y ∈ texts ps qs ds, y.1.code ∈ a.codes := by
  intro y hy
  unfold Assembler.codes
  rw [← h.bodies, ← h.shelved, ← h.listed]
  rcases mem_texts.mp hy with ⟨x, hx, rfl⟩ | ⟨x, hx, rfl⟩ | hy
  · exact List.mem_append_left _ (by simpa using .inl ⟨x.1, ⟨x.2, hx⟩, rfl⟩)
  · exact List.mem_append_left _ (by simpa using .inr ⟨x.1, ⟨x.2, hx⟩, rfl⟩)
  · exact List.mem_append_right _ (by simpa using ⟨y.1, ⟨y.2, hy⟩, rfl⟩)

/-- Between statements the variables lie in their slots. -/
theorem Sim.seats (h : Sim O flags a ps qs ds) (calm : O.here.Calm) :
    ∃ y ∈ texts ps qs ds, Seats y.2.point y.1.code a.body ∧ Grows a.body.chunk.constants y.1.constants := by
  obtain ⟨b, N, ps, rfl⟩ := h.uncons
  obtain ⟨ws, tracks⟩ := h.nest.tracks
  obtain rfl : b = a.body := congrArg Assembler.body h.body
  refine ⟨_, mem_texts.mpr (.inl ⟨_, .head _, rfl⟩), ?_⟩
  have frames := tracks.frames
  obtain ⟨front, ls, split, front', kept, -⟩ := frames.locals
  obtain rfl := front_eq_nil calm.2.1 front'
  obtain rfl : a.body.locals = ls := split
  have now : N.point a.body.chunk.code.size = calmPoint N.vars := by
    rw [← calm_point calm]
    exact (tracks fun _ _ => False).now
  refine ⟨⟨List.prefix_refl _, fun n x hx => ?_, fun _ => ?_⟩, .refl _⟩
  · obtain ⟨v, hv, named⟩ := kept.variable hx
    dsimp only
    rw [now, named]
    exact ⟨v.2, at?_bounds hv []⟩
  · dsimp only
    rw [now]
    exact (length_bounds _).trans kept.length_eq.symm

/-- Once a variable is there, nothing lies above it. -/
theorem Outline.Move.calm (move : Move d O O') (declares : d.declares) : O'.here.Calm := by
  cases move with
  | here move =>
    cases move with
    | simple effect => cases d <;> first | (cases declares; done) | cases effect
    | quiet quiet => cases d <;> first | (cases declares; done) | cases quiet
    | define temps value pending region => exact ⟨rfl, rfl, region⟩
    | defined calm => exact calm
    | defineGlobal temps value pending region => exact ⟨rfl, pending, region⟩
    | defineMany temps pending region => exact ⟨rfl, pending, region⟩
    | defineManyGlobal temps pending region => exact ⟨rfl, pending, region⟩
    | parameter calm => exact calm
    | resultName calm => exact calm
    | beginType calm => exact calm
    | beginGlobalType calm => exact calm
    | inheritFrom calm => exact calm
    | _ => cases declares
  | _ => cases declares

/-- A list of steps, as their moves say. -/
theorem traced_moves {mid : List Step} (split : ∃ post, steps = pre ++ (mid ++ post))
    (run : performAll pre (start scriptName) = .ok () a) (h : Sim O (typeFlags (O.here :: O.outer)) a ps qs ds)
    (traced : Traced scriptName steps pre (texts ps qs ds)) (moves : Moves (mid.map Step.directive) O O') :
    Does (performAll mid) a fun _ a' => performAll (pre ++ mid) (start scriptName) = .ok () a' ∧ ∃ ps' qs' ds',
      Sim O' (typeFlags (O'.here :: O'.outer)) a' ps' qs' ds' ∧
        Traced scriptName steps (pre ++ mid) (texts ps' qs' ds') := by
  induction mid generalizing pre O a ps qs ds with
  | nil =>
    obtain rfl : O' = O := moves
    rw [List.append_nil]
    exact does_pure ⟨run, ps, qs, ds, h, traced⟩
  | cons t mid ih =>
    obtain ⟨M, move, moves⟩ := moves
    have marked : Sim O (typeFlags (O.here :: O.outer)) { a with mark := t.mark } ps qs ds := { h with }
    have reaches : Does (performStep t) a fun _ =>
        Reaches (t.directive.Means a) M (typeFlags (M.here :: M.outer)) ps qs ds :=
      does_bind (does_modify (reaches_move marked move))
    refine does_bind fun _ a' step => ?_
    obtain ⟨ps', qs', ds', h', turns⟩ := reaches () a' step
    obtain ⟨post, rfl⟩ := split
    have traced' := traced.step ⟨mid ++ post, rfl⟩ run step h.bodies turns h'.codes fun declares => h'.seats (move.calm declares)
    have rest := ih ⟨post, by simp⟩ (performAll_snoc.mpr ⟨a, run, step⟩) h' traced' moves
    rwa [List.append_assoc] at rest

/-- A whole program, whose last step completes the last chunk. -/
theorem traced_program {mid : List Step} {last : Step} (final : last.directive = .endScript)
    (moves : Moves (mid.map Step.directive) initial O) (complete : Complete O)
    (run : performAll (mid ++ [last]) (start scriptName) = .ok () a') :
    ∃ us, us.map Prod.fst = a'.chunks.toList ∧ (∀ y ∈ us, Finished a'.chunks y.1 y.2) ∧
      (∃ d, a'.chunks.back? = some d ∧ d.arity = 0) ∧ Traced scriptName (mid ++ [last]) (mid ++ [last]) us := by
  obtain ⟨c, empty, sim⟩ := sim_start scriptName
  have nothing : Traced scriptName (mid ++ [last]) [] (texts [(.begin c 0, .begin c.kind.slotName)] [] []) := by
    refine ⟨fun y hy o i n hi => ?_, fun u s u' comes => ?_⟩
    · obtain rfl : y = (c, .begin c.kind.slotName) := by simpa [texts, Body.begin] using hy
      simp [empty] at hi
    · obtain ⟨front, back, split, -⟩ := comes
      simp at split
  obtain ⟨a, runs, end'⟩ := performAll_snoc.mp run
  have split : mid ++ [last] = [] ++ (mid ++ [last]) := rfl
  obtain ⟨-, ps, qs, ds, sim', traced⟩ := traced_moves ⟨[last], split⟩ rfl sim nothing moves () a runs
  have marked : Sim O (typeFlags (O.here :: O.outer)) { a with mark := last.mark } ps qs ds := { sim' with }
  have ended : endScript { a with mark := last.mark } = .ok () a' := by
    have performed : perform last.directive { a with mark := last.mark } = .ok () a' := end'
    rwa [final] at performed
  obtain ⟨b, N, d, M, rfl, rfl, later, adds, chunks, finished, -, arity⟩ := does_endScript marked complete () a' ended
  have turns : Turns (last.directive.Means a) [(b, N)] [] ds [] [] (ds ++ [(d, M)]) :=
    .ends (show Stays _ [(b, N)] [(b.setChunk d, M)] from .cons later (adds.mono fun _ _ => False.elim) .nil) rfl (.refl _)
  have grown : Grows a.chunks a'.chunks := chunks ▸ grows_push _ _
  have listed : (ds ++ [(d, M)]).map Prod.fst = a'.chunks.toList := by
    rw [List.map_append, sim'.listed, chunks]
    simp
  refine ⟨ds ++ [(d, M)], listed, fun y hy => ?_, ⟨d, by rw [chunks, Array.back?_push], arity⟩, ?_⟩
  · rcases List.mem_append.mp hy with hy | hy
    · exact (sim'.finished y hy).grows grown
    · obtain rfl := List.mem_singleton.mp hy
      exact finished.grows grown
  · refine traced.step ⟨[], rfl⟩ runs end' sim'.bodies turns (fun y hy => ?_)
      (by simp [final, Directive.declares])
    have mem : y.1 ∈ a'.chunks.toList := listed ▸ List.mem_map_of_mem hy
    exact List.mem_append_right _ (List.mem_map_of_mem mem)

end Run

/-- A token stream, given as it is or cut from a source, makes a script. -/
def Script.Made (tokens : List Token) (scriptName : String) (s : Script) : Prop :=
  Script.ofTokens tokens scriptName = .ok s ∨
    ∃ source, tokenize source = .ok tokens ∧ Script.ofSource source scriptName = .ok s

theorem Script.Made.program {tokens : List Token} {scriptName : String} {s : Script} (h : Made tokens scriptName s) :
    ∃ hash, (Program.ofTokens tokens).script scriptName hash = .ok s := by
  obtain made | ⟨source, cut, made⟩ := h
  · exact ⟨_, made⟩
  · refine ⟨hashOf source.toUTF8.toList, ?_⟩
    unfold ofSource at made
    rw [cut] at made
    exact made

theorem Program.assembled {p : Program} {scriptName hash : String} {s : Script}
    (made : p.script scriptName hash = .ok s) :
    (∃ a, performAll p.steps.toList (start scriptName) = .ok () a ∧ p.fault = none ∧ s.chunks = a.chunks) ∧
      s.top = .listed (s.chunks.size - 1) := by
  unfold Program.script assemble at made
  cases run : performAll p.steps.toList (start scriptName) with
  | error fault a =>
    rw [run] at made
    cases made
  | ok _ a =>
    rw [run] at made
    cases accepted : p.fault with
    | some e =>
      rw [accepted] at made
      cases made
    | none =>
      rw [accepted] at made
      cases made
      exact ⟨⟨a, rfl, rfl, rfl⟩, rfl⟩

theorem Script.Made.top {tokens : List Token} {scriptName : String} {s : Script} (made : Made tokens scriptName s) :
    s.top = .listed (s.chunks.size - 1) := by
  obtain ⟨hash, made⟩ := made.program
  exact (Program.assembled made).2

/-- The steps behind a script: moves of a whole program, and then the end of the script. -/
theorem Script.Made.assembled {tokens : List Token} {scriptName : String} {s : Script} (made : Made tokens scriptName s) :
    ∃ mid last O a, (Program.ofTokens tokens).steps.toList = mid ++ [last] ∧ last.directive = .endScript ∧
      Moves (mid.map Step.directive) initial O ∧ Complete O ∧
      performAll (mid ++ [last]) (start scriptName) = .ok () a ∧ s.chunks = a.chunks := by
  obtain ⟨hash, made⟩ := made.program
  obtain ⟨⟨a, run, accepted, chunks⟩, -⟩ := Program.assembled made
  obtain ⟨ds, O, steps, moves, complete⟩ := moves_ofTokens accepted
  obtain ⟨mid, ends, split, rfl, ending⟩ := List.map_eq_append_iff.mp steps
  obtain ⟨last, rest, rfl, final, nothing⟩ := List.map_eq_cons_iff.mp ending
  obtain rfl := List.map_eq_nil_iff.mp nothing
  exact ⟨mid, last, O, a, split, final, moves, complete, split ▸ run, chunks⟩

/-- Every chunk of a script is level: control comes to each instruction at one height, and no instruction takes
slot zero. A slot that is read, stored or captured holds the variable that the step behind it means. Whenever a
step makes a variable, the variables in scope lie in their slots, with nothing above the new one. -/
theorem Script.level_chunks {tokens : List Token} {scriptName : String} {s : Script} (made : Made tokens scriptName s) :
    ∃ layout : Nat → Layout,
      (∀ j c, s.chunks[j]? = some c → (layout j).Levels s.chunks c ∧
        ∀ (o : Nat) i n, c.code[o]? = some i → i.slot? = some n →
          Sourced scriptName (Program.ofTokens tokens).steps.toList (layout j).point c.code o n.toNat) ∧
      ∀ a t a', Comes scriptName (Program.ofTokens tokens).steps.toList a t a' → t.directive.declares →
        ∃ j c, s.chunks[j]? = some c ∧ Seats (layout j).point c.code a'.body := by
  obtain ⟨mid, last, O, a, split, final, moves, complete, run, chunks⟩ := made.assembled
  rw [split]
  obtain ⟨us, listed, finished, -, traced⟩ := traced_program final moves complete run
  rw [← chunks] at listed finished
  have chunk (j : Nat) (c : Chunk) : s.chunks[j]? = some c ↔ ∃ N, us[j]? = some (c, N) := by
    rw [← Array.getElem?_toList, ← listed, List.getElem?_map]
    cases us[j]? <;> simp [Prod.ext_iff]
  obtain ⟨layout, same⟩ : ∃ layout : Nat → Layout, ∀ j c N, us[j]? = some (c, N) → layout j = N.layout :=
    ⟨fun j => (us[j]?.map (·.2.layout)).getD ⟨fun _ => ⟨[], .none⟩, fun _ => 0⟩, fun j c N h => by simp [h]⟩
  refine ⟨layout, fun j c hc => ?_, fun u t u' comes declares => ?_⟩
  · obtain ⟨N, hN⟩ := (chunk j c).mp hc
    have mem := List.mem_of_getElem? hN
    rw [same j c N hN]
    exact ⟨(finished _ mem).levels, fun o i n hi hn => traced.sourced _ mem o i n hi hn⟩
  · obtain ⟨⟨c, N⟩, mem, seats, -⟩ := traced.seated u t u' comes declares
    obtain ⟨j, hj⟩ := List.mem_iff_getElem?.mp mem
    refine ⟨j, c, (chunk j c).mpr ⟨N, hj⟩, ?_⟩
    rw [same j c N hj]
    exact seats

/-- A block that makes a variable and reads it. -/
def Script.smallBlock : List Token :=
  [(.openBrace, "\x7b"), (.varWord, "var"), (.identifier, "x"), (.semicolon, ";"), (.identifier, "x"),
    (.semicolon, ";"), (.closeBrace, "\x7d")].map fun t => ⟨t.1, t.2, .none, 1, 1, 0⟩

theorem Script.level_smallBlock : ∃ s c, Made smallBlock "main" s ∧ s.chunks[0]? = some c ∧
    c.code = #[.null, .getLocal 1, .pop, .pop, .null, .ret 1] ∧ ∃ layout : Layout, layout.Levels s.chunks c ∧
      Sourced "main" (Program.ofTokens smallBlock).steps.toList layout.point c.code 1 1 := by
  have codes : (Script.ofTokens smallBlock "main").toOption.map (·.chunks.map (·.code)) =
      some #[#[.null, .getLocal 1, .pop, .pop, .null, .ret 1]] := by decide +kernel
  cases made : Script.ofTokens smallBlock "main" with
  | error e =>
    rw [made] at codes
    cases codes
  | ok s =>
    rw [made] at codes
    obtain ⟨c, hc, code⟩ : ∃ c, s.chunks[0]? = some c ∧ c.code = #[.null, .getLocal 1, .pop, .pop, .null, .ret 1] := by
      have := congrArg (·[0]?) (Option.some.inj codes)
      simpa using this
    obtain ⟨layout, levels, -⟩ := Script.level_chunks (.inl made)
    have read : c.code[1]? = some (.getLocal 1) := by rw [code]; rfl
    exact ⟨s, c, .inl made, hc, code, layout 0, (levels 0 c hc).1, (levels 0 c hc).2 1 _ 1 read rfl⟩

end ScriptEngine
