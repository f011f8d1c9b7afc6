import ScriptEngine.Proofs.Nesting

/-!
# The assembler follows the outline

`Sim` relates an outline to an assembler, with notes for every function that is
open and for every chunk that is listed. Each directive that has a move takes it
to the outline behind the move, and what has been written by then stays written.
-/
namespace ScriptEngine

open Assembler Outline

/-- Whether the types that are open in a function have a supertype, innermost first. -/
def Outline.Level.flags (L : Level) : List Bool :=
  L.opens.filterMap fun
    | .typeBody inherits => some inherits
    | _ => none

def typeFlags (Ls : List Level) : List Bool := Ls.flatMap Level.flags

/-- How many functions enclose each of the test sets that are open. -/
def setLevels : List Level → List Nat
  | [] => []
  | L :: Ls => if L.role = .set then Ls.length :: setLevels Ls else setLevels Ls

/-- The functions that have been stepped out of. -/
inductive Shelf (known : Array Chunk) :
    List (Level × Role) → List (Body × Notes) → Prop
  | nil : Shelf known [] []
  | cons {L : Level} {Ls : List (Level × Role)} {b : Body} {N : Notes} {ws : List Nat}
      {qs : List (Body × Notes)} (tracks : Tracks known L b N ws) (case : L.role = .case)
      (fresh : L.started = false) (rest : Shelf known Ls qs) :
      Shelf known ((L, .set) :: Ls) ((b, N) :: qs)

/-- A chunk that is complete. -/
structure Finished (known : Array Chunk) (c : Chunk) (N : Notes) : Prop where
  draft : ∃ width ≤ 256, (if c.kind = .script then width = 0 else c.captureCount = UInt8.ofNat width) ∧
    Draft known c width N []
  whole : N.left = 0
  entry : ∃ ps id, N.point 0 = calmPoint (ps ++ [(c.kind.slotName, id)]) ∧ ps.length = c.arguments.size
  placed : ∀ l t, N.placed l = some t → t < c.code.size
  last : ∃ n, c.code.back? = some (.ret n)
  set : c.isSet → c.kind = .function
  /-- Arguments and results have slots. -/
  heads : c.arguments.size + c.results.size < 256

structure Sim (O : Outline) (flags : List Bool) (a : Assembler) (ps qs : List (Body × Notes))
    (ds : List (Chunk × Notes)) : Prop where
  bodies : ps.map Prod.fst = a.body :: a.outer
  shelved : qs.map Prod.fst = a.aside
  listed : ds.map Prod.fst = a.chunks.toList
  nest : Nest a.chunks (O.here :: O.outer) ps
  shelf : Shelf a.chunks O.aside qs
  finished : ∀ y ∈ ds, Finished a.chunks y.1 y.2
  types : a.types.map TypeScope.hasSuper = flags
  sets : a.testSets = setLevels (O.here :: O.outer)
  ready : O.ready = true → O.here.role = .set

/-- Functions that go on being written, innermost first; `legal` says under which names the slots of
a function may be referred to, given how many functions enclose it. -/
inductive Stays (legal : Nat → Nat → String → Prop) : List (Body × Notes) → List (Body × Notes) → Prop
  | nil : Stays legal [] []
  | cons {b b' : Body} {N N' : Notes} {ps ps' : List (Body × Notes)} (later : Later b.chunk N b'.chunk N')
      (adds : Adds (legal ps.length) b.chunk.code.size b'.chunk N') (rest : Stays legal ps ps') :
      Stays legal ((b, N) :: ps) ((b', N') :: ps')

/-- What a directive does to the functions that are open, to those that have been stepped out of and
to the chunks. -/
inductive Turns (legal : Nat → Nat → String → Prop) : List (Body × Notes) → List (Body × Notes) → List (Chunk × Notes) →
    List (Body × Notes) → List (Body × Notes) → List (Chunk × Notes) → Prop
  | stays {ps ps' qs : List (Body × Notes)} {ds : List (Chunk × Notes)} (stays : Stays legal ps ps') :
      Turns legal ps qs ds ps' qs ds
  | begins {b : Body} {N : Notes} {ps ps' qs : List (Body × Notes)} {ds : List (Chunk × Notes)}
      (stays : Stays legal ps ps') (empty : b.chunk.code = #[]) : Turns legal ps qs ds ((b, N) :: ps') qs ds
  | ends {x : Body × Notes} {b : Body} {N : Notes} {d : Chunk} {ps ps' qs : List (Body × Notes)}
      {ds : List (Chunk × Notes)} (stays : Stays legal (x :: ps) ((b, N) :: ps')) (code : d.code = b.chunk.code)
      (constants : Grows b.chunk.constants d.constants) :
      Turns legal (x :: ps) qs ds ps' qs (ds ++ [(d, N)])
  | out {x y : Body × Notes} {ps ps' qs : List (Body × Notes)} {ds : List (Chunk × Notes)}
      (stays : Stays legal (x :: ps) (y :: ps')) : Turns legal (x :: ps) qs ds ps' (y :: qs) ds
  | into {x : Body × Notes} {ps ps' qs : List (Body × Notes)} {ds : List (Chunk × Notes)} (stays : Stays legal ps ps') :
      Turns legal ps (x :: qs) ds (x :: ps') qs ds

def Reaches (legal : Nat → Nat → String → Prop) (O : Outline) (flags : List Bool) (ps qs : List (Body × Notes))
    (ds : List (Chunk × Notes)) (a : Assembler) : Prop :=
  ∃ ps' qs' ds', Sim O flags a ps' qs' ds' ∧ Turns legal ps qs ds ps' qs' ds'

section Stays
variable {legal : Nat → Nat → String → Prop} {ps ps' ps'' qs qs' : List (Body × Notes)}
  {ds ds' : List (Chunk × Notes)}

theorem Adds.trans {legal : Nat → String → Prop} {size : Nat} {c c' : Chunk} {N N' : Notes} (h : Adds legal size c N)
    (later : Later c N c' N') (k : Adds legal c.code.size c' N') : Adds legal size c' N' := by
  intro o i n ho hi hn
  rcases Nat.lt_or_ge o c.code.size with lt | ge
  · rw [later.point o lt]
    refine h o i n ho ?_ hn
    rw [← Array.getElem?_toList] at hi ⊢
    obtain ⟨more, code⟩ := later.code
    rw [← code, List.getElem?_append_left (by simpa using lt)] at hi
    exact hi
  · exact k o i n ge hi hn

theorem Stays.length_eq (h : Stays legal ps ps') : ps'.length = ps.length := by
  induction h with
  | nil => rfl
  | cons _ _ _ ih => exact congrArg (· + 1) ih

theorem Stays.refl (ps : List (Body × Notes)) : Stays legal ps ps := by
  induction ps with
  | nil => exact .nil
  | cons x ps ih => exact .cons (.refl _ _) (.nothing le_rfl) ih

theorem Stays.trans (h : Stays legal ps ps') (k : Stays legal ps' ps'') : Stays legal ps ps'' := by
  induction h generalizing ps'' with
  | nil => exact k
  | cons later adds rest ih =>
    cases k with
    | cons later' adds' rest' =>
      rw [rest.length_eq] at adds'
      exact .cons (later.trans later') (adds.trans later' adds') (ih rest')

theorem Turns.after (h : Stays legal ps ps') (k : Turns legal ps' qs ds ps'' qs' ds') :
    Turns legal ps qs ds ps'' qs' ds' := by
  cases k with
  | stays stays => exact .stays (h.trans stays)
  | begins stays empty => exact .begins (h.trans stays) empty
  | ends stays code constants =>
    cases h with
    | cons later adds rest => exact .ends ((Stays.cons later adds rest).trans stays) code constants
  | out stays =>
    cases h with
    | cons later adds rest => exact .out ((Stays.cons later adds rest).trans stays)
  | into stays => exact .into (h.trans stays)

theorem Rebooked.stays (h : Rebooked ps ps') : Stays legal ps ps' := by
  induction h with
  | nil => exact .nil
  | @cons x y _ _ same _ ih =>
    obtain ⟨b, N⟩ := x
    obtain ⟨b', N'⟩ := y
    obtain ⟨chunk, rfl⟩ : b'.chunk = b.chunk ∧ N' = N := same
    exact .cons (.still (congrArg Chunk.code chunk) rfl (by rw [chunk]; exact .refl _)) (.nothing (by rw [chunk])) ih

/-- The innermost function goes on. -/
theorem stays_head {b b' : Body} {N N' : Notes} (later : Later b.chunk N b'.chunk N')
    (adds : Adds (legal ps.length) b.chunk.code.size b'.chunk N') : Stays legal ((b, N) :: ps) ((b', N') :: ps) :=
  .cons later adds (.refl ps)

theorem Reaches.after {O : Outline} {flags : List Bool} {a : Assembler} (h : Stays legal ps ps')
    (k : Reaches legal O flags ps' qs ds a) : Reaches legal O flags ps qs ds a := by
  obtain ⟨ps'', qs'', ds'', sim, turns⟩ := k
  exact ⟨ps'', qs'', ds'', sim, turns.after h⟩

end Stays

section Sim
variable {known : Array Chunk} {legal : Nat → Nat → String → Prop} {O O' : Outline} {a a' : Assembler} {L L' : Level}
  {Ls : List Level} {b b' : Body} {N N' : Notes} {ws : List Nat} {ps qs : List (Body × Notes)}
  {ds : List (Chunk × Notes)} {name : String} {flags : List Bool}

theorem Nest.tracks (h : Nest known (L :: Ls) ((b, N) :: ps)) :
    ∃ ws, Tracks known L b N ws := by
  cases h with
  | script tracks => exact ⟨_, tracks⟩
  | inner tracks => exact ⟨_, tracks⟩

theorem Nest.replace (h : Nest known (L :: Ls) ((b, N) :: ps)) (tracks : Tracks known L' b' N' ws)
    (captures : b'.captures = b.captures) (role : L'.role = L.role) :
    Nest known (L' :: Ls) ((b', N') :: ps) := by
  cases h with
  | script _ none plain => exact .script tracks (captures.trans none) (role.trans plain)
  | inner _ linked case up rest =>
    exact .inner tracks (captures ▸ linked) (fun h => case (role.symm.trans h)) up rest

theorem Core.tracks {legal : Nat → String → Prop} {c₀ : Chunk} {N₀ : Notes} (h : Core known legal c₀ N₀ L b N [] ws (L.point N.vars)) :
    Tracks known L b N ws :=
  fun _ => ⟨h.draft, h.wants, h.frames, h.now, .refl _ _, .nothing le_rfl⟩

theorem Sim.body (h : Sim O flags a ((b, N) :: ps) qs ds) : a.setBody b = a := by
  have bodies := h.bodies
  injection bodies with body _
  rw [show b = a.body from body]
  rfl

/-- The innermost function is another one. -/
theorem Sim.setHead (h : Sim O flags a ((b, N) :: ps) qs ds)
    (tracks : Tracks a.chunks L' b' N' ws) (captures : b'.captures = b.captures)
    (role : L'.role = O.here.role) :
    Sim { O with here := L' } flags (a.setBody b') ((b', N') :: ps) qs ds := by
  have bodies := h.bodies
  rw [List.map_cons] at bodies
  injection bodies with _ outer
  exact {
    bodies := congrArg (b' :: ·) outer
    shelved := h.shelved
    listed := h.listed
    nest := h.nest.replace tracks captures role
    shelf := h.shelf
    finished := h.finished
    types := h.types
    sets := by
      refine h.sets.trans ?_
      unfold setLevels
      rw [role]
    ready := fun hr => role.trans (h.ready hr) }

theorem Sim.setTypes {types : List TypeScope} {flags' : List Bool} (h : Sim O flags a ps qs ds)
    (same : types.map TypeScope.hasSuper = flags') : Sim O flags' { a with types } ps qs ds :=
  { h with types := same }

theorem typeFlags_cons (L : Level) (Ls : List Level) : typeFlags (L :: Ls) = L.flags ++ typeFlags Ls := rfl

/-- Only the innermost function has changed. -/
theorem Sim.follow (h : Sim O flags a ((b, N) :: ps) qs ds)
    (follows : Follows a.chunks (legal ps.length) b.chunk N a b.captures L' a') (role : L'.role = O.here.role) :
    Reaches legal { O with here := L' } flags ((b, N) :: ps) qs ds a' := by
  obtain ⟨b', N', ws, rfl, captures, core⟩ := follows
  exact ⟨_, qs, ds, h.setHead core.tracks captures role, .stays (stays_head core.later core.adds)⟩

theorem Sim.touch (h : Sim O flags a ((b, N) :: ps) qs ds) :
    Sim { O with here := O.here.touch } flags a ((b, N) :: ps) qs ds := by
  obtain ⟨ws, tracks⟩ := h.nest.tracks
  have tracks' : Tracks a.chunks O.here.touch b N ws := fun _ => (tracks _).touch
  exact { h with nest := h.nest.replace tracks' rfl rfl }

/-! ## Variables -/

/-- A place that an instruction may refer to. -/
def Assembler.Place.Good (legal : Nat → String → Prop) (b : Body) (N : Notes) : Place → Prop
  | .slot n => ∃ v, N.vars.reverse[n.toNat]? = some v ∧ legal n.toNat v.1
  | .capture n => n.toNat < b.captures.size
  | .global n => (b.chunk.name? n).isSome

theorem fits_getter {legal : Nat → String → Prop} {place : Place} (h : place.Good legal b N) (temps : List Held) (r : Region) :
    Fits legal b.chunk b.captures.size ⟨temps ++ bounds N.vars, r⟩ place.getter := by
  cases place with
  | slot n =>
    obtain ⟨v, found, ok⟩ := h
    constructor
    case slot =>
      intro m hm
      obtain rfl : m = n := by simpa [Place.getter, eq_comm] using hm
      exact ⟨v.1, v.2, at?_bounds found temps, ok⟩
    all_goals simp [Place.getter, Instruction.name?]
  | capture n =>
    constructor
    case upvalue =>
      intro m hm
      obtain rfl : m = n := by simpa [Place.getter, eq_comm] using hm
      exact h
    all_goals simp [Place.getter, Instruction.name?]
  | global n => exact fits_open rfl fun m hm => by cases hm; exact h

theorem fits_setter {legal : Nat → String → Prop} {place : Place} (h : place.Good legal b N) (temps : List Held) (r : Region) :
    Fits legal b.chunk b.captures.size ⟨temps ++ bounds N.vars, r⟩ place.setter := by
  cases place with
  | slot n =>
    obtain ⟨v, found, ok⟩ := h
    constructor
    case slot =>
      intro m hm
      obtain rfl : m = n := by simpa [Place.setter, eq_comm] using hm
      exact ⟨v.1, v.2, at?_bounds found temps, ok⟩
    all_goals simp [Place.setter, Instruction.name?]
  | capture n =>
    constructor
    case upvalue =>
      intro m hm
      obtain rfl : m = n := by simpa [Place.setter, eq_comm] using hm
      exact h
    all_goals simp [Place.setter, Instruction.name?]
  | global n => exact fits_open rfl fun m hm => by cases hm; exact h

/-- What stands in front is not complete, where no function is about to become a variable. -/
theorem front_behind {pending : Pending} {depth n : Nat} {front ls : List Local} {l : Local}
    (h : pending.Front depth front) (plain : pending.isFunction = false)
    (found : (front ++ ls).reverse[n]? = some l) (complete : l.depth.isSome) : ls.reverse[n]? = some l := by
  rw [List.reverse_append, List.getElem?_append] at found
  split at found
  · exact found
  · cases pending with
    | none =>
      obtain rfl : front = [] := h
      simp at found
    | value name =>
      obtain ⟨c, rfl⟩ := h
      have := List.mem_of_getElem? found
      simp only [List.reverse_singleton, List.mem_singleton] at this
      subst this
      cases complete
    | function name => cases plain

/-- The variable of a local. -/
theorem Kept.variable {ls : List Local} {vs : List (String × Nat)} {n : Nat} {l : Local} (h : Kept N ls vs)
    (found : ls.reverse[n]? = some l) : ∃ v, vs.reverse[n]? = some v ∧ l.name = v.1 := by
  have kept := List.rel_reverse h
  obtain ⟨bound, rfl⟩ := List.getElem?_eq_some_iff.mp found
  have bound' : n < vs.reverse.length := kept.length_eq ▸ bound
  exact ⟨vs.reverse[n], List.getElem?_eq_getElem bound', (kept.get bound bound').1⟩

/-- A complete local is a variable, where no function is about to become one. -/
theorem Frames.variable (h : Frames L b N ws) (pending : L.pending.isFunction = false) {n : Nat}
    {l : Local} (found : b.locals.reverse[n]? = some l) (complete : l.depth.isSome) :
    ∃ v, N.vars.reverse[n]? = some v ∧ l.name = v.1 := by
  obtain ⟨front, ls, split, front', kept, -⟩ := h.locals
  exact kept.variable (front_behind front' pending (split ▸ found) complete)

theorem does_lift {α : Type} {x : Except CompileFault α} {Q : α → Assembler → Prop}
    (h : ∀ r, x = .ok r → Q r a) : Does (lift x) a Q := by
  unfold lift
  split
  · exact does_pure (h _ rfl)
  · exact does_throw

theorem Sim.length_eq (h : Sim O flags a ((b, N) :: ps) qs ds) : ps.length = a.outer.length := by
  have := congrArg List.length h.bodies
  simpa using this

theorem does_findPlace {legal : Nat → String → Prop} (h : Sim O flags a ps qs ds)
    (pending : O.here.pending.isFunction = false) (ok : ∀ n, Found a.body.locals name n → legal n name) :
    Does (findPlace name) a fun r a' => ∃ b N ps',
      Sim { O with here := O.here.touch } flags a' ((b, N) :: ps') qs ds ∧
        Rebooked ps ((b, N) :: ps') ∧ (∀ p, r = some p → p.Good legal b N) ∧
        b.locals = a.body.locals ∧ b.depth = a.body.depth := by
  obtain ⟨⟨b, N⟩, ps, rfl⟩ : ∃ x ps', ps = x :: ps' := by
    cases ps with
    | nil => cases h.bodies
    | cons x ps => exact ⟨x, ps, rfl⟩
  obtain ⟨body, outer⟩ : b = a.body ∧ ps.map Prod.fst = a.outer := by
    have := h.bodies
    injection this with body outer
    exact ⟨body, outer⟩
  have touched := h.touch
  unfold findPlace
  refine does_bind (does_get (does_bind (does_lift fun r hr => ?_)))
  rw [← body] at hr ok ⊢
  split
  · rename_i slot
    refine does_pure ⟨b, N, ps, touched, Rebooked.refl _, ?_, rfl, rfl⟩
    rintro p ⟨⟩
    obtain ⟨l, hl, complete⟩ := slotOf_some hr h.nest.room
    obtain ⟨ws, tracks⟩ := h.nest.tracks
    obtain ⟨hl, named⟩ := findLocal_some hl
    obtain ⟨v, hv, same⟩ := tracks.frames.variable pending hl complete
    refine ⟨v, hv, ?_⟩
    rw [← same, named]
    exact ok _ (slotOf_some hr h.nest.room)
  · refine does_bind (does_lift fun r hr => ?_)
    rw [← outer] at hr
    split
    · rename_i i b' es
      refine does_bind (does_set (does_pure ?_))
      obtain ⟨ps', captures, rfl, rfl, rebooked, -, bound, nest⟩ := touched.nest.captureFrom rfl hr
      refine ⟨{ b with captures }, N, ps', ?_, .cons ⟨rfl, rfl⟩ rebooked, ?_, rfl, rfl⟩
      · exact { touched with bodies := rfl, nest := nest }
      · rintro p ⟨⟩
        exact bound
    · exact does_pure ⟨b, N, ps, touched, Rebooked.refl _, nofun, rfl, rfl⟩

theorem does_place (h : Sim O flags a ps qs ds) (pending : O.here.pending.isFunction = false)
    (ok : ∀ n, Found a.body.locals name n → legal a.outer.length n name) :
    Does (place name) a fun p a' => ∃ b N ps',
      Sim { O with here := O.here.touch } flags a' ((b, N) :: ps') qs ds ∧
        Stays legal ps ((b, N) :: ps') ∧ p.Good (legal ps'.length) b N ∧
        b.locals = a.body.locals ∧ b.depth = a.body.depth := by
  have length := congrArg List.length h.bodies
  rw [List.length_map, List.length_cons] at length
  unfold place
  refine does_bind (does_mono (does_findPlace h pending ok) ?_)
  rintro r a' ⟨b, N, ps', sim, rebooked, good, books⟩
  have same : ps'.length = a.outer.length := by
    have := (rebooked.stays : Stays legal _ _).length_eq
    rw [List.length_cons] at this
    omega
  rw [← same] at good
  split
  · rename_i p
    exact does_pure ⟨b, N, ps', sim, rebooked.stays, good p rfl, books⟩
  · obtain ⟨ws, tracks⟩ := sim.nest.tracks
    rw [← sim.body]
    refine does_bind (does_nameConstant fun index constants grows found => does_pure ?_)
    have core := (tracks (legal ps'.length)).constants grows
    exact ⟨_, N, ps', sim.setHead core.tracks rfl rfl, rebooked.stays.trans (stays_head core.later core.adds),
      name_isSome found, books⟩

/-- An instruction for a place that has been looked up. -/
theorem does_access {i : Instruction} {takes : Nat} {τ ρ : List Held}
    (h : Sim O flags a ((b, N) :: ps) qs ds) (temps : O.here.temps = τ ++ ρ)
    (effect : i.effect = some (takes, 1)) (length : τ.length = takes)
    (values : ∀ e ∈ τ, e.isValue) (usual : O.here.Usual) (target : i.target? = none) (case : i.isTestCase = false)
    (fits : ∀ temps r, Fits (legal ps.length) b.chunk b.captures.size ⟨temps ++ bounds N.vars, r⟩ i) :
    Does (emit i) a fun _ a' => ∃ b' N', Sim { O with here := O.here.setTemps (.value :: ρ) } flags a' ((b', N') :: ps) qs ds ∧
      Stays legal ((b, N) :: ps) ((b', N') :: ps) ∧ b'.locals = b.locals ∧ b'.depth = b.depth := by
  obtain ⟨ws, tracks⟩ := h.nest.tracks
  rw [← h.body]
  refine does_emit ?_
  obtain ⟨N', -, -, -, core⟩ := (tracks _).simple temps effect length values target (fits _ _) usual (.inr case)
    (ℓ := a.line)
  exact ⟨_, N', h.setHead core.tracks rfl rfl, stays_head core.later core.adds, rfl, rfl⟩

theorem does_load (h : Sim O flags a ps qs ds) (plain : O.here.Plain)
    (ok : ∀ n, Found a.body.locals name n → legal a.outer.length n name) :
    Does (load name) a fun _ a' => ∃ b N ps',
      Sim { O with here := O.here.setTemps (.value :: O.here.temps) } flags a' ((b, N) :: ps') qs ds ∧
        Stays legal ps ((b, N) :: ps') ∧ b.locals = a.body.locals ∧ b.depth = a.body.depth := by
  unfold load
  refine does_bind (does_mono (does_place h plain.1 ok) ?_)
  rintro p a' ⟨b, N, ps', sim, stays, good, locals, depth⟩
  refine does_mono (does_access (τ := []) sim rfl (by cases p <;> rfl) rfl (by simp) ⟨plain.2.temps, plain.2.region⟩
    (by cases p <;> rfl) (by cases p <;> rfl) (fits_getter good)) ?_
  rintro _ a'' ⟨b', N', sim', stays', locals', depth'⟩
  exact ⟨b', N', ps', sim', stays.trans stays', locals'.trans locals, depth'.trans depth⟩

theorem reaches_load (h : Sim O flags a ps qs ds) (plain : O.here.Plain)
    (ok : ∀ n, Found a.body.locals name n → legal a.outer.length n name) :
    Does (load name) a fun _ =>
      Reaches legal { O with here := O.here.setTemps (.value :: O.here.temps) } flags ps qs ds := by
  refine does_mono (does_load h plain ok) ?_
  rintro _ a' ⟨b, N, ps', sim, stays, -⟩
  exact ⟨_, qs, ds, sim, .stays stays⟩

theorem reaches_this (h : Sim O flags a ps qs ds) (plain : O.here.Plain)
    (ok : ∀ n, Found a.body.locals "this" n → legal a.outer.length n "this") :
    Does loadThis a fun _ =>
      Reaches legal { O with here := O.here.setTemps (.value :: O.here.temps) } flags ps qs ds := by
  have length := congrArg List.length h.bodies
  rw [List.length_map, List.length_cons] at length
  unfold loadThis
  refine does_bind (does_mono (does_findPlace h plain.1 ok) ?_)
  rintro r a' ⟨b, N, ps', sim, rebooked, good, books⟩
  have same : ps'.length = a.outer.length := by
    have := (rebooked.stays : Stays legal _ _).length_eq
    rw [List.length_cons] at this
    omega
  rw [← same] at good
  split
  · rename_i p
    refine does_mono (does_access (τ := []) sim rfl (by cases p <;> rfl) rfl
      (by simp) ⟨plain.2.temps, plain.2.region⟩ (by cases p <;> rfl) (by cases p <;> rfl) (fits_getter (good p rfl))) ?_
    rintro _ a'' ⟨b', N', sim', stays', -⟩
    exact ⟨_, qs, ds, sim', .stays (rebooked.stays.trans stays')⟩
  · exact does_throw

theorem does_checkStore (h : Sim O flags a ps qs ds) (pending : O.here.pending.isFunction = false)
    (ok : ∀ n, Found a.body.locals name n → legal a.outer.length n name) :
    Does (checkStore name) a fun p a' => ∃ b N ps',
      Sim { O with here := O.here.touch } flags a' ((b, N) :: ps') qs ds ∧
        Stays legal ps ((b, N) :: ps') ∧ p.Good (legal ps'.length) b N := by
  unfold checkStore
  refine does_bind (does_mono (does_place h pending ok) ?_)
  rintro p a' ⟨b, N, ps', sim, stays, good, -⟩
  rw [← sim.body]
  refine does_bind (does_getBody ?_)
  rw [sim.body]
  have same := does_pure (a := a') (r := p) (Q := fun p a' => ∃ b N ps',
      Sim { O with here := O.here.touch } flags a' ((b, N) :: ps') qs ds ∧
        Stays legal ps ((b, N) :: ps') ∧ p.Good (legal ps'.length) b N) ⟨b, N, ps', sim, stays, good⟩
  dsimp only
  split
  · split
    · exact does_bind does_throw
    · exact same
  · exact same

theorem reaches_store (h : Sim O flags a ps qs ds) (plain : O.here.Plain)
    (ok : ∀ n, Found a.body.locals name n → legal a.outer.length n name) {e : Held} {rest : List Held}
    (temps : O.here.temps = e :: rest) (value : e.isValue) :
    Does (store name) a fun _ =>
      Reaches legal { O with here := O.here.setTemps (.value :: rest) } flags ps qs ds := by
  unfold store
  refine does_bind (does_mono (does_checkStore h plain.1 ok) ?_)
  rintro p a' ⟨b, N, ps', sim, stays, good⟩
  refine does_mono (does_access (τ := [e]) sim temps (by cases p <;> rfl) rfl
    (by simpa using value) ⟨plain.2.temps, plain.2.region⟩ (by cases p <;> rfl) (by cases p <;> rfl) (fits_setter good)) ?_
  rintro _ a'' ⟨b', N', sim', stays', -⟩
  exact ⟨_, qs, ds, sim', .stays (stays.trans stays')⟩

end Sim

end ScriptEngine
