import ScriptEngine.Proofs.Closing

/-!
# Functions under assembly

A function begins with an empty chunk. When it ends its chunk is complete and
goes to the list, and the enclosing function makes a closure of it.
-/
namespace ScriptEngine

open Assembler Outline

/-- The notes of a function that has just begun. -/
def Notes.begin (slot : String) : Notes where
  point := fun _ => calmPoint [(slot, 0)]
  rounds := fun _ => []
  want := fun _ => calmPoint []
  placed := fun _ => none
  vars := [(slot, 0)]
  fresh := 1

/-- A function that has just begun. -/
def Assembler.Body.begin (c : Chunk) (depth : Nat) : Body where
  chunk := c
  locals := [⟨c.kind.slotName, some depth, false⟩]
  depth := depth

/-- A chunk with nothing in it. -/
structure Chunk.Empty (c : Chunk) : Prop where
  code : c.code = #[]
  labels : c.labels = #[]
  arguments : c.arguments = #[]
  results : c.results = #[]

section Functions
variable {known known' : Array Chunk} {legal : Nat → Nat → String → Prop} {c₀ : Chunk} {N₀ : Notes} {O : Outline}
  {a a' : Assembler} {L L' E : Level} {Ls outer : List Level} {aside : List (Level × Role)} {b e : Body}
  {N M : Notes} {ws : List Nat} {extra : List (Nat × Point)} {p : Point} {ps qs : List (Body × Notes)}
  {ds : List (Chunk × Notes)} {name : String} {flags : List Bool} {c : Chunk}

/-! ## More chunks -/

theorem Tracks.grows (h : Tracks known L b N ws) (grows : Grows known known') : Tracks known' L b N ws :=
  fun legal => { h legal with draft := (h legal).draft.mono rfl rfl (.refl _) le_rfl grows }

theorem Nest.grows (h : Nest known Ls ps) (grows : Grows known known') : Nest known' Ls ps := by
  induction h with
  | script tracks captures role => exact .script (tracks.grows grows) captures role
  | inner tracks linked role started _ ih => exact .inner (tracks.grows grows) linked role started ih

theorem Shelf.grows {Ls : List (Level × Role)} (h : Shelf known Ls qs) (grows : Grows known known') :
    Shelf known' Ls qs := by
  induction h with
  | nil => exact .nil
  | cons tracks case fresh _ ih => exact .cons (tracks.grows grows) case fresh ih

theorem Finished.grows (h : Finished known c N) (grows : Grows known known') :
    Finished known' c N := by
  obtain ⟨width, room, captures, draft⟩ := h.draft
  exact { h with draft := ⟨width, room, captures, draft.mono rfl rfl (.refl _) le_rfl grows⟩ }

/-! ## Beginnings -/

theorem Draft.begin (empty : c.Empty) (slot : String) : Draft known c 0 (.begin slot) [] := by
  have code {o : Nat} {i : Instruction} (h : c.code[o]? = some i) : False := by simp [empty.code] at h
  refine ⟨⟨fun o i h => (code h).elim, fun o i h => (code h).elim, fun o i h => (code h).elim, nofun, fun o i l t h => (code h).elim,
      fun o m q r _ _ _ h _ => h, fun o r _ h => by simp [Notes.begin] at h, fun o name id rest h => (code h).elim⟩,
    ⟨fun q n h => (code h).elim, nofun, fun o name id rest h => (code h).elim, fun o k h => (code h).elim,
      fun q s h => (code h).elim, fun h => (h rfl).elim⟩, List.nodup_nil, fun w => ?_, nofun⟩
  simp [empty.labels]

theorem Tracks.begin (empty : c.Empty) (role : Role) (set : role = .set → c.kind = .function) :
    Tracks known (.ofKind c.kind role) (.begin c (Level.base (.ofKind c.kind role))) (.begin c.kind.slotName) [] := fun _ => {
  draft := Draft.begin empty _
  wants := nofun
  now := rfl
  later := .refl _ _
  adds := .nothing le_rfl
  frames := {
    kind := rfl
    names := rfl
    locals := ⟨[], [⟨c.kind.slotName, some (Level.base (.ofKind c.kind role)), false⟩], rfl, rfl,
      .cons ⟨rfl, fun _ q => by simp [Notes.begin]⟩ .nil, .base (by simp) (by simp [Level.ofKind, Notes.begin])⟩
    nodup := by simp [Notes.begin]
    fresh := by simp [Notes.begin]
    room := by simp [Body.begin]
    width := by simp [Body.begin]
    fixed := by simp [Level.ofKind, Body.begin, empty.arguments, empty.results]
    entry := ⟨[], 0, rfl, by simp [Body.begin, empty.arguments]⟩
    start := fun _ => ⟨by simp [Body.begin, empty.code], by simp [Body.begin, empty.labels], rfl,
      by simp [Body.begin, empty.results], rfl, rfl⟩
    role := fun _ => by simp [Body.begin, Chunk.isSet, empty.code]
    set := set
    bottom := ⟨[], rfl⟩
    heads := fun i index hi => by simp [Body.begin, empty.arguments, empty.results] at hi
    whole := rfl } }

theorem Nest.length_eq (h : Nest known Ls ps) : ps.length = Ls.length := by
  induction h with
  | script => rfl
  | inner _ _ _ _ _ ih => exact congrArg (· + 1) ih

theorem Sim.level (h : Sim O flags a ps qs ds) : a.outer.length = O.outer.length := by
  have nest := h.nest.length_eq
  have bodies := congrArg List.length h.bodies
  simp only [List.length_map, List.length_cons] at nest bodies
  omega

/-- A function begins within another one. -/
theorem Sim.begin (h : Sim O flags a ps qs ds) (role : Role) (empty : c.Empty) (inner : c.kind ≠ .script)
    (set : role = .set → c.kind = .function) (case : role = .case → O.here.role = .set) :
    Sim ⟨.ofKind c.kind role, O.here.touch :: O.outer, O.aside, false⟩ flags
      { a with
        body := .begin c 1
        outer := a.body :: a.outer
        testSets := if role = .set then (a.outer.length + 1) :: a.testSets else a.testSets }
      ((.begin c 1, .begin c.kind.slotName) :: ps) qs ds := by
  obtain ⟨b, N, ps, rfl⟩ := h.uncons
  have nest := h.touch.nest
  have base : Level.base (.ofKind c.kind role) = 1 := if_neg inner
  have tracks := @Tracks.begin a.chunks c empty role set
  rw [base] at tracks
  have sets : setLevels (O.here.touch :: O.outer) = a.testSets := h.touch.sets.symm
  exact {
    bodies := congrArg (Body.begin c 1 :: ·) h.bodies
    shelved := h.shelved
    listed := h.listed
    nest := .inner tracks ⟨nofun, nofun⟩ case rfl nest
    shelf := h.shelf
    finished := h.finished
    types := h.types
    sets := by
      rw [setLevels, sets, List.length_cons, h.level]
      by_cases set : role = .set <;> simp [Level.ofKind, set]
    ready := nofun }

theorem does_beginFunction {kind : FunctionKind} {modifiers : Modifiers} {Q : Unit → Assembler → Prop}
    (h : ∀ c : Chunk, c.Empty → c.kind = kind → Q () { a with body := .begin c 1, outer := a.body :: a.outer }) :
    Does (beginFunction kind name modifiers) a Q := by
  unfold beginFunction
  refine does_bind (does_get ?_)
  dsimp only
  by_cases deep : a.level + 1 ≥ 256
  · rw [if_pos deep]
    exact does_bind does_throw
  · rw [if_neg deep]
    refine does_set ?_
    exact h { name, source := a.scriptName, chain := chainName a name, kind, modifiers } ⟨rfl, rfl, rfl, rfl⟩ rfl

theorem reaches_beginFunction (role : Role) {kind : FunctionKind} {modifiers : Modifiers}
    (h : Sim O flags a ps qs ds) (inner : kind ≠ .script) (plain : role ≠ .set)
    (case : role = .case → O.here.role = .set) :
    Does (beginFunction kind name modifiers) a fun _ =>
      Reaches legal ⟨.ofKind kind role, O.here.touch :: O.outer, O.aside, false⟩ flags ps qs ds := by
  refine does_beginFunction fun c empty same => ?_
  subst same
  have nothing : (Body.begin c 1).chunk.code = #[] := empty.code
  have sim := h.begin role empty inner (fun set => (plain set).elim) case
  rw [if_neg plain] at sim
  exact ⟨_, qs, ds, sim, .begins (.refl ps) nothing⟩

theorem reaches_beginTest (h : Sim O flags a ps qs ds) :
    Does (beginTest name) a fun _ =>
      Reaches legal ⟨.ofKind .function .set, O.here.touch :: O.outer, O.aside, false⟩ flags ps qs ds := by
  obtain ⟨b, N, ps, rfl⟩ := h.uncons
  obtain ⟨ws, tracks⟩ := h.nest.tracks
  unfold beginTest
  rw [← h.body]
  refine does_bind (does_nameConstant fun _ constants grows _ => does_bind (does_beginFunction fun c empty same => ?_))
  have core := (tracks (legal ps.length)).constants grows
  have nothing : (Body.begin c 1).chunk.code = #[] := empty.code
  have sim := (h.setHead core.tracks rfl rfl).begin (c := c) .set empty (by simp [same]) (fun _ => same) nofun
  rw [same] at sim
  exact does_modify ⟨_, qs, ds, sim, .begins (stays_head core.later core.adds) nothing⟩

theorem reaches_beginCase (h : Sim O flags a ps qs ds) (role : O.here.role = .set) :
    Does (do
      let _ ← nameConstant name
      beginFunction .function name {}) a fun _ =>
      Reaches legal ⟨.ofKind .function .case, O.here.touch :: O.outer, O.aside, false⟩ flags ps qs ds := by
  obtain ⟨b, N, ps, rfl⟩ := h.uncons
  obtain ⟨ws, tracks⟩ := h.nest.tracks
  rw [← h.body]
  refine does_bind (does_nameConstant fun _ constants grows _ => ?_)
  have core := (tracks (legal ps.length)).constants grows
  have sim := h.setHead core.tracks rfl rfl
  refine does_mono (P := fun _ => Reaches legal _ flags _ qs ds)
    (reaches_beginFunction .case sim (by decide) (by decide) fun _ => role) fun _ _ reaches => ?_
  exact reaches.after (stays_head core.later core.adds)

/-! ## Ends -/

/-- How the chunk of a function goes with the level that it had. -/
structure Closed (L : Level) (d : Chunk) : Prop where
  ordinary : L.role ≠ .set → d.isSet = false
  fixed : L.fixed = 1 + d.arguments.size + d.results.size

def Assembler.Body.finish (b : Body) : Chunk := { b.chunk with captureCount := UInt8.ofNat b.captures.size }

theorem Opened.closed {base fixed d : Nat} {ls : List Local} {vs : List (String × Nat)} {cs : List Control}
    {rs : List Round} (h : Opened N base fixed [] d ls vs cs rs ws) : cs = [] ∧ ws = [] := by
  cases h
  exact ⟨rfl, rfl⟩

/-- A function that has returned with nothing open is complete. -/
theorem Core.finished {legal : Nat → String → Prop} {n : UInt8} (h : Core known legal c₀ N₀ L b N [] ws p) (opens : L.opens = [])
    (count : if L.kind = .script then b.captures = #[] else n = UInt8.ofNat b.captures.size)
    (last : ∃ n, b.chunk.code.back? = some (.ret n)) (placed : ∀ l t, N.placed l = some t → t < b.chunk.code.size) :
    b.control = [] ∧ Finished known { b.chunk with captureCount := n } N ∧
      Closed L { b.chunk with captureCount := n } := by
  have frames := h.frames
  obtain ⟨front, ls, locals, -, kept, opened⟩ := frames.locals
  rw [opens] at opened
  have enough := opened.enough
  obtain ⟨control, rfl⟩ := opened.closed
  have draft : Draft known { b.chunk with captureCount := n } b.captures.size N [] :=
    h.draft.mono rfl rfl (.refl _) le_rfl (.refl _)
  refine ⟨control, ⟨⟨_, frames.width, ?_, draft⟩, frames.whole, ?_, placed, last, ?_, ?_⟩, frames.role, frames.fixed⟩
  · dsimp only
    rw [frames.kind]
    split
    · rename_i kind
      rw [if_pos kind] at count
      rw [count]
      rfl
    · rename_i kind
      rwa [if_neg kind] at count
  · obtain ⟨ps, id, entry, length⟩ := frames.entry
    rw [← frames.kind] at entry
    exact ⟨ps, id, entry, length⟩
  · intro set
    refine frames.kind.trans (frames.set ?_)
    by_contra role
    have : b.chunk.isSet = false := frames.role role
    change b.chunk.isSet = true at set
    rw [this] at set
    cases set
  · have room := frames.room
    rw [locals, List.length_append, kept.length_eq] at room
    have := frames.fixed
    dsimp only
    omega

theorem does_popBody {rest : List Body} {Q : Body → Assembler → Prop} (outer : a.outer = e :: rest)
    (h : Q a.body { a with body := e, outer := rest }) : Does popBody a Q := by
  unfold popBody
  refine does_bind (does_get ?_)
  rw [outer]
  exact does_bind (does_set (does_pure h))

/-- What may be referred to when the innermost function ends: in it what it returns, and in the function around
it what it has captured. -/
structure MayEnd (legal : Nat → Nat → String → Prop) (a : Assembler) : Prop where
  returns : ∀ n name, a.body.chunk.ReturnsLocal n name → legal a.outer.length n name
  lends : ∀ e es n name, a.outer = e :: es → ⟨true, n⟩ ∈ a.body.captures → Lent e.locals name n.toNat →
    legal es.length n.toNat name

/-- The innermost function has ended, and its chunk is the last one. -/
def Ends (legal : Nat → Nat → String → Prop) (O : Outline) (flags : List Bool) (ps qs : List (Body × Notes))
    (ds : List (Chunk × Notes)) (a : Assembler) : Prop :=
  ∃ x ps₀ b N d ps', ps = x :: ps₀ ∧ Stays legal (x :: ps₀) ((b, N) :: ps') ∧ d.code = b.chunk.code ∧
    Grows b.chunk.constants d.constants ∧ Sim O flags a ps' qs (ds ++ [(d, N)])

theorem Ends.reaches (h : Ends legal O flags ps qs ds a) : Reaches legal O flags ps qs ds a := by
  obtain ⟨x, ps₀, b, N, d, ps', rfl, stays, code, constants, sim⟩ := h
  exact ⟨ps', qs, _, sim, .ends stays code constants⟩

/-- The enclosing function goes on. -/
theorem Ends.follow (h : Ends legal O flags ps qs ds a) {Q : Assembly Unit} (role : L'.role = O.here.role)
    (follows : ∀ b N ws, Core a.chunks (legal O.outer.length) b.chunk N O.here b N [] ws (O.here.point N.vars) →
      Does Q (a.setBody b) fun _ => Follows a.chunks (legal O.outer.length) b.chunk N a b.captures L') :
    Does Q a fun _ => Reaches legal { O with here := L' } flags ps qs ds := by
  obtain ⟨x, ps₀, b, N, d, ps', rfl, stays, code, constants, sim⟩ := h
  obtain ⟨e, M, ps', rfl⟩ := sim.uncons
  obtain ⟨ws, tracks⟩ := sim.nest.tracks
  have length : ps'.length = O.outer.length := sim.length_eq.trans sim.level
  have done := follows e M ws (tracks _)
  rw [sim.body] at done
  refine does_mono done ?_
  rintro _ _ ⟨e', M', ws', rfl, captures, core⟩
  refine ⟨_, qs, _, sim.setHead core.tracks captures role, .ends (stays.trans ?_) code constants⟩
  exact .cons (.refl _ _) (.nothing le_rfl) (stays_head core.later (length ▸ core.adds))

/-- A function ends, and a closure of it is made. -/
theorem ends_endFunction {E' : Level} (h : Sim ⟨L, E :: outer, aside, false⟩ flags a ps qs ds) (ts : List Nat)
    (calm : L.Calm) (opens : L.opens = []) (inner : L.kind ≠ .script) (may : MayEnd legal a)
    (sets : ts = setLevels (E :: outer)) (pending : E'.pending.isFunction = false)
    (region : ∀ s, E'.region ≠ .counted s) (started : E'.started) (role : E'.role = E.role)
    (writes : ∀ (d : Chunk) (e : Body) (M : Notes) (ws : List Nat) (k : UInt16) (c₀ : Chunk) (N₀ : Notes) (m : Nat)
      (legal : Nat → String → Prop),
      Closed L d → e.chunk.constants[k.toNat]? = some (.chunk (.listed a.chunks.size)) →
      Core (a.chunks.push d) legal c₀ N₀ E e M [] ws (E.point M.vars) →
      ∃ M', Capturing (a.chunks.push d) legal c₀ N₀ E' (e.emit (.closure k) a.line) M' ws m) :
    Does endFunction { a with testSets := ts } fun _ a' =>
      Ends legal ⟨E', outer, aside, false⟩ flags ps qs ds a' ∧
        ∃ d, Closed L d ∧ a'.chunks[a.chunks.size]? = some d := by
  obtain ⟨b, N, ps, rfl⟩ := h.uncons
  obtain ⟨ws, tracks⟩ := h.nest.tracks
  obtain _ | @⟨_, _, _, _, e, _, M, ps, _, -, linked, -, up, rest⟩ := h.nest
  obtain ⟨ws', enclosing⟩ := rest.tracks
  have bodies := h.bodies
  simp only [List.map_cons, List.cons.injEq] at bodies
  obtain ⟨body, outer'⟩ := bodies
  have level : a.outer.length = ps.length + 1 := by simp [← outer']
  unfold endFunction
  have same : ({ a with testSets := ts } : Assembler) = Assembler.setBody { a with testSets := ts } b := by
    rw [body]
    rfl
  rw [same]
  refine does_bind (does_mono (does_implicitReturn (tracks (legal (ps.length + 1))) calm fun n name returns =>
    level ▸ may.returns n name (body ▸ returns)) ?_)
  rintro _ _ ⟨b', N', ws₁, rfl, captures, core, last, placed⟩
  refine does_bind (does_popBody outer'.symm ?_)
  obtain ⟨control, finished, ordinary, fixed⟩ := core.finished (n := UInt8.ofNat b'.captures.size) opens (by
    split
    · exact (inner ‹_›).elim
    · rfl) last placed
  have closed : Closed L b'.finish := ⟨ordinary, fixed⟩
  change Does (if b'.control.isEmpty then _ else _) _ _
  rw [control, List.isEmpty_nil, if_pos rfl]
  refine does_bind (does_get (does_bind (does_modify ?_)))
  have grown : Grows a.chunks (a.chunks.push b'.finish) := grows_push _ _
  let A : Assembler := { a with outer := ps.map Prod.fst, testSets := ts, chunks := a.chunks.push b'.finish }
  change Does (do
    let k ← constant (.chunk (.listed a.chunks.size))
    emit (.closure k)
    b'.captures.toList.forM fun c => emit (.capture c)) (A.setBody e) _
  refine does_bind (does_constant fun k constants v grows found same => ?_)
  obtain rfl : v = .chunk (.listed a.chunks.size) := by
    rcases same with rfl | shares
    · rfl
    · unfold Chunk.shares at shares
      split at shares <;> first | cases shares | cases ‹Constant.chunk _ = _›
  have core' := (enclosing.grows grown (legal ps.length)).constants grows
  obtain ⟨M', writes⟩ := writes b'.finish _ M ws' k _ _ b'.captures.size _ closed found core'
  have linked' : Linked b'.captures e := captures ▸ linked
  have lends : ∀ n name, ⟨true, n⟩ ∈ b'.captures → Lent e.locals name n.toNat → legal ps.length n.toNat name := by
    intro n name hn lent
    have := may.lends e (ps.map Prod.fst) n name outer'.symm (by rwa [← body, ← captures]) lent
    rwa [List.length_map] at this
  have follows := follows_closure (a := A) linked' pending region started lends ⟨M', writes⟩
  refine does_mono follows ?_
  rintro _ _ ⟨e', M'', ws'', rfl, captures', core''⟩
  refine ⟨⟨(b, N), (e, M) :: ps, b', N', b'.finish, (e', M'') :: ps, rfl, ?_, rfl, .refl _, ?_⟩, b'.finish, closed, ?_⟩
  · exact .cons core.later core.adds (stays_head core''.later core''.adds)
  · exact {
      bodies := rfl
      shelved := h.shelved
      listed := by
        rw [List.map_append, h.listed]
        simp [A]
      nest := (rest.grows grown).replace core''.tracks captures' role
      shelf := h.shelf.grows grown
      finished := fun y hy => by
        rcases List.mem_append.mp hy with hy | hy
        · exact (h.finished y hy).grows grown
        · obtain rfl := List.mem_singleton.mp hy
          exact finished.grows grown
      types := h.types
      sets := by
        refine sets.trans ?_
        unfold setLevels
        rw [role]
      ready := nofun }
  · simp [A]

theorem Sim.started (h : Sim ⟨L, E :: outer, aside, false⟩ flags a ps qs ds) : E.started := by
  obtain _ | ⟨-, -, -, up, -⟩ := h.nest
  exact up

theorem receive_pending (E : Level) : E.receive.pending.isFunction = false := by
  unfold Level.receive
  split
  · rfl
  · rename_i other
    change E.pending.isFunction = false
    cases hp : E.pending with
    | function name => exact (other name hp).elim
    | _ => rfl

theorem receive_role (E : Level) : E.receive.role = E.role := by
  unfold Level.receive
  split <;> rfl

theorem receive_region (E : Level) : E.receive.region = E.region := by
  unfold Level.receive
  split <;> rfl

theorem receive_started (E : Level) : E.receive.started := by
  unfold Level.receive
  split <;> rfl

theorem ends_endPlain (h : Sim ⟨L, E :: outer, aside, false⟩ flags a ps qs ds) (calm : L.Calm)
    (opens : L.opens = []) (inner : L.kind ≠ .script) (role : L.role ≠ .set) (may : MayEnd legal a) (usual : E.Usual)
    (pending : E.pending.isFunction → E.temps = [] ∧ E.region = .none ∧ E.Declaring ∧ E.inScope) :
    Does endFunction a fun _ => Ends legal ⟨E.receive, outer, aside, false⟩ flags ps qs ds := by
  have sets : a.testSets = setLevels (E :: outer) := by
    refine h.sets.trans ?_
    rw [setLevels, if_neg role]
  refine does_mono (ends_endFunction h a.testSets calm opens inner may sets (receive_pending E)
    (by rw [receive_region]; exact usual.region) (receive_started E) (receive_role E) fun d e M ws k c₀ N₀ m _ closed constant core => ?_) fun _ _ ends => ends.1
  exact core.receive h.started (fun held r => .closure constant (by simp) (closed.ordinary role)) usual pending m

/-- A function ends, and its closure is for the next instruction only. -/
theorem ends_endSpecial (h : Sim ⟨L, E :: outer, aside, false⟩ flags a ps qs ds) (ts : List Nat)
    (calm : L.Calm) (opens : L.opens = []) (inner : L.kind ≠ .script) (may : MayEnd legal a)
    (sets : ts = setLevels (E :: outer)) (plain : E.Plain) :
    Does endFunction { a with testSets := ts } fun _ a' =>
      Ends legal ⟨E.setTemps (.closure a.chunks.size :: E.temps), outer, aside, false⟩ flags ps qs ds a' ∧
        ∃ d, Closed L d ∧ a'.chunks[a.chunks.size]? = some d :=
  ends_endFunction h ts calm opens inner may sets plain.1 plain.2.region rfl rfl
    fun d e M ws k c₀ N₀ m _ _ constant core => core.closureTemp h.started plain.2 (fun held r => .special constant (d := d) (by simp)) m

theorem reaches_endInitChain {fields : List String} {rest : List Held}
    (h : Sim ⟨L, E :: outer, aside, false⟩ flags a ps qs ds) (calm : L.Calm)
    (opens : L.opens = []) (inner : L.kind ≠ .script) (role : L.role = .plain) (may : MayEnd legal a) (fixed : L.fixed = 1)
    (plain : E.Plain) (temps : E.temps = .value :: rest) :
    Does (endInitChain fields) a fun _ => Reaches legal ⟨E.touch, outer, aside, false⟩ flags ps qs ds := by
  have sets : a.testSets = setLevels (E :: outer) := by
    refine h.sets.trans ?_
    rw [setLevels, if_neg (by simp [role])]
  unfold endInitChain
  refine does_bind (does_mono (ends_endSpecial h a.testSets calm opens inner may sets plain) ?_)
  rintro _ a₁ ⟨ends, d, closed, known⟩
  have arity : d.arity = 0 := by
    have := closed.fixed
    unfold Chunk.arity
    omega
  have same : E.touch = E.setTemps (.value :: rest) := by
    rw [← temps]
    rfl
  rw [same]
  exact ends.follow rfl fun b N ws core => follows_chain (L := E.setTemps (.closure a.chunks.size :: E.temps)) fields
    core (congrArg (Held.closure a.chunks.size :: ·) temps) (plain.2.setTemps (temps ▸ plain.2.temps)) known arity (closed.ordinary (by simp [role]))

theorem reaches_endTest (h : Sim ⟨L, E :: outer, aside, false⟩ flags a ps qs ds) (calm : L.Calm)
    (opens : L.opens = []) (inner : L.kind ≠ .script) (role : L.role = .set) (may : MayEnd legal a)
    (plain : E.Plain) :
    Does (endTest name) a fun _ => Reaches legal ⟨E.touch, outer, aside, false⟩ flags ps qs ds := by
  have sets : a.testSets.tail = setLevels (E :: outer) := by
    rw [h.sets, setLevels, if_pos role]
    rfl
  unfold endTest
  refine does_bind (does_modify (does_bind (does_mono (ends_endSpecial h _ calm opens inner may sets plain) ?_)))
  rintro _ a₁ ⟨ends, -⟩
  exact ends.follow rfl fun b N ws core =>
    follows_testSet (L := E.setTemps (.closure a.chunks.size :: E.temps)) name core rfl plain.2.region

theorem Sim.case (h : Sim ⟨L, E :: outer, aside, false⟩ flags a ps qs ds) (role : L.role = .case) :
    E.role = .set := by
  obtain _ | ⟨-, -, case, -, -⟩ := h.nest
  exact case role

theorem receive_eq (pending : E.pending.isFunction = false) : E.receive = E.setTemps (.value :: E.temps) := by
  unfold Level.receive
  split
  · rename_i waits
    rw [waits] at pending
    cases pending
  · rfl

theorem reaches_endCase {hasRows : Bool} {τ ρ : List Held}
    (h : Sim ⟨L, E :: outer, aside, false⟩ flags a ps qs ds) (calm : L.Calm) (opens : L.opens = [])
    (inner : L.kind ≠ .script) (role : L.role = .case) (may : MayEnd legal a) (plain : E.Plain)
    (temps : E.temps = τ ++ ρ) (length : τ.length = if hasRows then 1 else 0)
    (values : ∀ e ∈ τ, e.isValue) :
    Does (perform (.endCase name hasRows)) a fun _ =>
      Reaches legal ⟨E.setTemps ρ, outer, aside, false⟩ flags ps qs ds := by
  have set := h.case role
  refine does_bind (does_mono (ends_endPlain h calm opens inner (by simp [role]) may plain.2 (by simp [plain.1])) ?_)
  rw [receive_eq plain.1]
  rintro _ a₁ ends
  exact ends.follow rfl fun b N ws core => follows_emitNamed (.testCase · hasRows) name core
    (τ := .value :: τ) (congrArg (Held.value :: ·) temps) (fun _ => rfl)
    (by cases hasRows <;> simp_all) (by simpa [Held.isValue] using values) (fun _ => rfl) (fun _ => rfl)
    (fun _ => rfl) (plain.2.setTemps (List.forall_mem_cons.mpr ⟨rfl, plain.2.temps⟩)) fun _ => .inl set

/-! ## Test cases -/

theorem lt_of_setLevels {n : Nat} (h : n ∈ setLevels Ls) : n < Ls.length := by
  induction Ls with
  | nil => cases h
  | cons L Ls ih =>
    unfold setLevels at h
    split at h
    · rcases List.mem_cons.mp h with rfl | h
      · exact Nat.lt_succ_self _
      · exact Nat.lt_succ_of_lt (ih h)
    · exact Nat.lt_succ_of_lt (ih h)

/-- A test case stands in a test set. -/
theorem reaches_caseCheck (h : Sim ⟨L, outer, aside, false⟩ flags a ps qs ds) :
    Does caseCheck a fun _ => Reaches legal ⟨L, outer, aside, true⟩ flags ps qs ds := by
  unfold caseCheck
  refine does_bind (does_get ?_)
  split
  · rename_i innermost
    have role : L.role = .set := by
      rw [h.sets, Assembler.level, h.level, setLevels] at innermost
      by_contra role
      rw [if_neg role] at innermost
      have := lt_of_setLevels (List.mem_of_head? innermost)
      exact Nat.lt_irrefl _ this
    exact does_pure ⟨ps, qs, ds, { h with ready := fun _ => role }, .stays (.refl ps)⟩
  · exact does_throw

theorem reaches_stepOut (h : Sim ⟨L, E :: outer, aside, false⟩ flags a ps qs ds) (role : L.role = .case)
    (fresh : L.started = false) :
    Does stepOut a fun _ => Reaches legal ⟨E, outer, (L, E.role) :: aside, false⟩ flags ps qs ds := by
  have set := h.case role
  obtain ⟨b, N, ps, rfl⟩ := h.uncons
  obtain ⟨ws, tracks⟩ := h.nest.tracks
  obtain _ | @⟨_, _, _, _, e, _, M, ps, _, -, -, -, -, rest⟩ := h.nest
  have bodies := h.bodies
  simp only [List.map_cons, List.cons.injEq] at bodies
  obtain ⟨body, outer'⟩ := bodies
  unfold stepOut
  refine does_bind (does_popBody outer'.symm (does_modify ⟨(e, M) :: ps, (b, N) :: qs, ds, ?_, ?_⟩))
  · exact {
      bodies := rfl
      shelved := by
        rw [List.map_cons, h.shelved, body]
      listed := h.listed
      nest := rest
      shelf := set ▸ .cons tracks role fresh h.shelf
      finished := h.finished
      types := h.types
      sets := by
        refine h.sets.trans ?_
        rw [setLevels, if_neg (by simp [role])]
      ready := nofun }
  · exact .out (.refl _)

theorem reaches_stepIn (h : Sim ⟨E, outer, (L, E.role) :: aside, false⟩ flags a ps qs ds) :
    Does stepIn a fun _ => Reaches legal ⟨L, E.touch :: outer, aside, false⟩ flags ps qs ds := by
  have shelf := h.shelf
  have shelved := h.shelved
  generalize same : E.role = role at shelf
  obtain _ | @⟨_, _, b, N, ws, qs, tracks, case, fresh, rest⟩ := shelf
  obtain ⟨e, M, ps, rfl⟩ := h.uncons
  have bodies := h.bodies
  simp only [List.map_cons, List.cons.injEq] at bodies shelved
  have captures : b.captures = #[] := (tracks.frames.start fresh).2.2.1
  unfold stepIn
  refine does_bind (does_get ?_)
  rw [← shelved]
  refine does_set ⟨(b, N) :: (e, M) :: ps, qs, ds, ?_, ?_⟩
  · exact {
      bodies := by simp [bodies]
      shelved := rfl
      listed := h.listed
      nest := .inner tracks (by simp [captures, Linked]) (fun _ => same) rfl h.touch.nest
      shelf := rest
      finished := h.finished
      types := h.types
      sets := by
        rw [setLevels, if_neg (by simp [case])]
        exact h.touch.sets
      ready := nofun }
  · exact .into (.refl _)

/-! ## The end of a script -/

theorem reaches_note {keyword : String} {ℓ : Nat} (h : Sim O flags a ps qs ds) :
    Does (note keyword ℓ) a fun _ => Reaches legal O flags ps qs ds :=
  does_modify ⟨ps, qs, ds, { h with }, .stays (.refl ps)⟩

/-- The chunk of the script itself is the last one. -/
theorem does_endScript (h : Sim O flags a ps qs ds) (complete : Complete O) :
    Does endScript a fun _ a' => ∃ b N d M, ps = [(b, N)] ∧ qs = [] ∧ Later b.chunk N d M ∧
      Adds (fun _ _ => False) b.chunk.code.size d M ∧ a'.chunks = a.chunks.push d ∧ Finished a.chunks d M ∧ d.kind = .script ∧ d.arity = 0 := by
  obtain ⟨L, outer, aside, ready⟩ := O
  obtain ⟨kind, calm, opens, vars, rfl, rfl, -⟩ : L.kind = .script ∧ L.Calm ∧ L.opens = [] ∧ L.vars = [""] ∧ outer = [] ∧
    aside = [] ∧ ready = false := complete
  obtain ⟨b, N, ps, rfl⟩ := h.uncons
  have shelf := h.shelf
  cases shelf
  obtain @⟨_, _, _, ws, tracks, captures, -⟩ := h.nest
  unfold endScript
  rw [← h.body]
  refine does_bind (does_mono (follows_emit (i := .null) (τ := []) (ρ := L.temps) (tracks fun _ _ => False) rfl rfl rfl
    (by simp) rfl (fits_open rfl nofun) calm.usual (.inr rfl)) ?_)
  rintro _ _ ⟨b', N', ws', rfl, captures', core⟩
  refine does_bind (does_mono (does_return calm core (by decide) (by rw [calm.1]; rfl)
    (by rw [calm.1]; simp [Held.isValue])) ?_)
  rintro _ _ ⟨b₂, N₂, ws₂, rfl, captures₂, core₂, last, placed⟩
  obtain ⟨-, finished, -⟩ := core₂.finished (n := b₂.chunk.captureCount) opens (by
    split
    · exact captures₂.trans (captures'.trans captures)
    · exact (‹¬ _› kind).elim) last placed
  -- slot zero is the only variable that lives as long as the script
  have arity : b₂.chunk.arity = 0 := by
    obtain ⟨front, ls, -, -, -, opened⟩ := core₂.frames.locals
    rw [show L.touch.opens = [] from opens] at opened
    have enough := opened.enough
    have names : N₂.vars.length = 1 := by
      rw [← List.length_map (f := Prod.fst), core₂.frames.names, show L.touch.vars = [""] from vars]
      rfl
    have fixed := core₂.frames.fixed
    unfold Chunk.arity
    omega
  have complete : Does (set { a.setBody b₂ with chunks := a.chunks.push b₂.chunk } : Assembly PUnit) (a.setBody b₂)
      fun _ a' => ∃ b₁ N₁ d M, [(b, N)] = [(b₁, N₁)] ∧ ([] : List (Body × Notes)) = [] ∧ Later b₁.chunk N₁ d M ∧
        Adds (fun _ _ => False) b₁.chunk.code.size d M ∧ a'.chunks = a.chunks.push d ∧ Finished a.chunks d M ∧ d.kind = .script ∧ d.arity = 0 :=
    does_set ⟨b, N, b₂.chunk, N₂, rfl, rfl, core₂.later, core₂.adds, rfl, finished, core₂.frames.kind.trans kind, arity⟩
  refine does_bind (does_get ?_)
  dsimp only
  split
  · exact complete
  · exact does_bind does_throw

end Functions

end ScriptEngine
