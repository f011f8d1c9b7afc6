import ScriptEngine.Proofs.Assembling

/-!
# Types under assembly

A type is a variable from its declaration on. While its body is open, the
supertype is a hidden variable in a scope of its own.
-/
namespace ScriptEngine

open Assembler Outline

section Types
variable {known : Array Chunk} {legal : Nat → String → Prop} {c₀ : Chunk} {N₀ : Notes} {O O' : Outline}
  {a a' : Assembler} {L L' : Level} {Ls : List Level} {b b' : Body} {N N' : Notes} {ws : List Nat}
  {ps qs : List (Body × Notes)} {ds : List (Chunk × Notes)} {name : String} {p : Point}
  {flags : List Bool}

/-- A type body opens. -/
theorem Core.openType (h : Core known legal c₀ N₀ L b N [] ws p) :
    Core known legal c₀ N₀ (L.setOpens (.typeBody false :: L.opens)) b N [] ws p :=
  h.turn _ b.control [] _ (fun opened => .typeBody opened) (.refl _) (by simp)

/-- The variable of a type that is declared within a scope. -/
theorem follows_declareType (name : String) (kind : TypeKind) (h : Core known legal c₀ N₀ L b N [] ws (L.point N.vars))
    (calm : L.Calm) (declaring : L.Declaring) (inScope : L.inScope) :
    Does (do
      let index ← nameConstant name
      declare name
      emit (.declareType kind index)
      define name) (a.setBody b) fun _ => Follows known legal c₀ N₀ a b.captures
        { L.touch with vars := name :: L.vars } := by
  have depth := h.frames.depth_pos declaring inScope
  obtain ⟨k, role, vars, fixed, temps, region, pending, opens, started⟩ := L
  obtain ⟨rfl, rfl, rfl⟩ := calm
  refine does_bind (does_nameConstant fun index constants grows found => does_bind ?_)
  unfold declare
  refine does_bind (does_getBody ?_)
  rw [depth_setChunk, if_pos depth]
  refine does_declareLocal depth fun room => does_bind (does_emit ?_)
  have h₁ := (h.constants grows).pend ⟨name, none, false⟩ (.value name) rfl ⟨_, rfl⟩ room
  obtain ⟨N₁, -, -, -, h₂⟩ := Core.simple (i := .declareType kind index) (τ := [])
    (ℓ := a.line) h₁ rfl rfl rfl (by simp) rfl
    (fits_open rfl fun n hn => by cases hn; exact name_isSome found) (Level.usual_empty rfl nofun) (.inr rfl)
  have := follows_define (a := a) h₂ rfl rfl rfl declaring inScope
  exact this

/-- The global of a type. -/
theorem follows_declareGlobalType (name : String) (kind : TypeKind)
    (h : Core known legal c₀ N₀ L b N [] ws (L.point N.vars)) (calm : L.Calm)
    (outside : L.inScope = false) :
    Does (do
      let index ← nameConstant name
      declare name
      emit (.declareType kind index)
      define name) (a.setBody b) fun _ => Follows known legal c₀ N₀ a b.captures L.touch := by
  have depth := h.frames.depth_zero outside
  obtain ⟨k, role, vars, fixed, temps, region, pending, opens, started⟩ := L
  obtain ⟨rfl, rfl, rfl⟩ := calm
  refine does_bind (does_nameConstant fun index constants grows found => does_bind ?_)
  unfold declare
  refine does_bind (does_getBody ?_)
  rw [depth_setChunk, if_neg (by omega)]
  refine does_bind (does_nameConstant fun _ constants' grows' _ => does_pure (does_bind (does_emit ?_)))
  have h₁ := (h.constants grows).constants grows'
  obtain ⟨N₁, -, -, -, h₂⟩ := Core.simple (i := .declareType kind index) (τ := [])
    (ℓ := a.line) h₁.touch rfl rfl rfl (by simp) rfl
    (fits_open rfl fun n hn => by cases hn; exact name_isSome (grows' _ _ found))
    (Level.usual_empty rfl nofun) (.inr rfl)
  have := follows_defineGlobal (a := a) h₂ name rfl rfl rfl outside
  exact this

/-- The supertype becomes a hidden variable. -/
theorem Core.hide {os : List Opening} {e : Held}
    (h : Core known legal c₀ N₀ L b N [] ws ⟨e :: bounds N.vars, .none⟩) (name : String)
    (value : e.isValue) (calm : L.pending = .none) (opens : L.opens = .typeBody false :: os) (room : b.locals.length < 256) :
    ∃ N', N'.vars = (name, N.fresh) :: N.vars ∧ Core known legal c₀ N₀
      { L with vars := name :: L.vars, opens := .typeBody true :: os, pending := .none, started := true }
      { b with locals := ⟨name, some (b.depth + 1), false⟩ :: b.locals, depth := b.depth + 1 } N' [] ws
      (calmPoint N'.vars) := by
  change Core known legal c₀ N₀ L b N [] ws ⟨[] ++ e :: bounds N.vars, .none⟩ at h
  refine h.extend (l := ⟨name, some (b.depth + 1), false⟩) value rfl (fun front lower split pending => ?_) fun opened => ?_
  · obtain rfl := front_eq_nil calm pending
    obtain rfl : b.locals = lower := split
    exact ⟨rfl, room⟩
  · rw [opens] at opened
    obtain _ | _ | rest := opened
    exact .subtype rest rfl

theorem Sim.uncons (h : Sim O flags a ps qs ds) : ∃ b N ps', ps = (b, N) :: ps' := by
  cases ps with
  | nil => cases h.bodies
  | cons x ps => exact ⟨x.1, x.2, ps, rfl⟩

/-- The innermost function changes, and then the types that are open. -/
theorem Sim.followTypes {legal : Nat → Nat → String → Prop} {flags' : List Bool} (h : Sim O flags a ((b, N) :: ps) qs ds)
    (types : List TypeScope)
    (core : Core a.chunks (legal ps.length) b.chunk N L' b' N' [] ws (L'.point N'.vars))
    (captures : b'.captures = b.captures) (role : L'.role = O.here.role)
    (same : types.map TypeScope.hasSuper = flags') :
    Reaches legal { O with here := L' } flags' ((b, N) :: ps) qs ds { a.setBody b' with types } :=
  ⟨_, qs, ds, (h.setHead core.tracks captures role).setTypes same, .stays (stays_head core.later core.adds)⟩

/-- The type is finished and dropped. -/
theorem Core.finishType {e : Held} {ℓ : UInt32}
    (h : Core known legal c₀ N₀ L b N [] ws (L.point N.vars)) (temps : L.temps = [e]) (value : e.isValue)
    (region : L.region = .none) :
    ∃ N', N'.vars = N.vars ∧ Core known legal c₀ N₀ (L.setTemps [])
      ((b.emit .finishType ℓ).emit .pop ℓ) N' [] ws ((L.setTemps []).point N'.vars) := by
  obtain ⟨N₁, vars₁, -, -, h₁⟩ := h.simple (i := .finishType) (τ := [e]) (ℓ := ℓ) temps
    rfl rfl (by simpa using value) rfl (fits_open rfl nofun) (Level.usual_single temps value region) (.inr rfl)
  obtain ⟨N₂, vars₂, -, -, h₂⟩ := h₁.simple (i := .pop) (τ := [.value]) (ℓ := ℓ) rfl
    rfl rfl (by simp [Held.isValue]) rfl (fits_open rfl nofun) (Level.usual_single rfl rfl region) (.inr rfl)
  exact ⟨N₂, vars₂.trans vars₁, h₂⟩

section Reaches
variable {legal : Nat → Nat → String → Prop}

theorem beginType_eq (kind : TypeKind) (name : String) :
    beginType kind name = (do
      let index ← nameConstant name
      declare name
      emit (.declareType kind index)
      define name) >>= fun _ => modify fun a => { a with types := ⟨name, a.level, false⟩ :: a.types } := by
  unfold beginType
  simp only [bind_assoc]

theorem reaches_beginType {kind : TypeKind} (h : Sim O flags a ps qs ds) (calm : O.here.Calm)
    (declaring : O.here.Declaring) (inScope : O.here.inScope) :
    Does (beginType kind name) a fun _ => Reaches legal { O with here :=
      { O.here.setOpens (.typeBody false :: O.here.opens) with vars := name :: O.here.vars } }
        (false :: flags) ps qs ds := by
  obtain ⟨b, N, ps, rfl⟩ := h.uncons
  obtain ⟨ws, tracks⟩ := h.nest.tracks
  have follows := follows_declareType (a := a) name kind (tracks (legal ps.length)) calm declaring inScope
  rw [h.body] at follows
  rw [beginType_eq]
  refine does_bind (does_mono follows ?_)
  rintro _ _ ⟨b', N', ws', rfl, captures, core⟩
  exact does_modify (h.followTypes _ core.openType captures rfl (congrArg (false :: ·) h.types))

theorem reaches_beginGlobalType {kind : TypeKind} (h : Sim O flags a ps qs ds) (calm : O.here.Calm)
    (outside : O.here.inScope = false) :
    Does (beginType kind name) a fun _ => Reaches legal
      { O with here := O.here.setOpens (.typeBody false :: O.here.opens) } (false :: flags) ps qs ds := by
  obtain ⟨b, N, ps, rfl⟩ := h.uncons
  obtain ⟨ws, tracks⟩ := h.nest.tracks
  have follows := follows_declareGlobalType (a := a) name kind (tracks (legal ps.length)) calm outside
  rw [h.body] at follows
  rw [beginType_eq]
  refine does_bind (does_mono follows ?_)
  rintro _ _ ⟨b', N', ws', rfl, captures, core⟩
  exact does_modify (h.followTypes _ core.openType captures rfl (congrArg (false :: ·) h.types))

theorem reaches_endType {e : Held} {os : List Opening} (h : Sim O (false :: flags) a ps qs ds)
    (temps : O.here.temps = [e]) (value : e.isValue) (region : O.here.region = .none)
    (opens : O.here.opens = .typeBody false :: os) :
    Does endType a fun _ =>
      Reaches legal { O with here := { O.here.setTemps [] with opens := os } } flags ps qs ds := by
  obtain ⟨b, N, ps, rfl⟩ := h.uncons
  obtain ⟨ws, tracks⟩ := h.nest.tracks
  obtain ⟨t, rest, types, flag, others⟩ := List.map_eq_cons_iff.mp h.types
  rw [← h.body]
  unfold endType
  refine does_bind (does_emit (does_bind (does_emit (does_bind (does_get ?_)))))
  obtain ⟨N', -, core⟩ := Core.finishType (ℓ := a.line) (tracks (legal ps.length)) temps value region
  rw [setBody_types, types]
  dsimp only
  rw [if_neg (by simp [flag])]
  have closed := core.turn os b.control [] ws (fun {ls} opened => by
    rw [show (O.here.setTemps []).opens = .typeBody false :: os from opens] at opened
    obtain _ | _ | rest := opened
    exact rest) (.refl _) (by simp)
  exact does_modify (h.followTypes _ closed rfl rfl others)

theorem reaches_endSubtype {e : Held} {os : List Opening} {hidden : String} {below : List String}
    (h : Sim O (true :: flags) a ps qs ds) (temps : O.here.temps = [e]) (value : e.isValue)
    (pending : O.here.pending = .none) (region : O.here.region = .none)
    (opens : O.here.opens = .typeBody true :: os) (vars : O.here.vars = hidden :: below) :
    Does endType a fun _ => Reaches legal
      { O with here := { O.here.setTemps [] with opens := os, vars := below } } flags ps qs ds := by
  obtain ⟨b, N, ps, rfl⟩ := h.uncons
  obtain ⟨ws, tracks⟩ := h.nest.tracks
  obtain ⟨t, rest, types, flag, others⟩ := List.map_eq_cons_iff.mp h.types
  rw [← h.body]
  unfold endType
  refine does_bind (does_emit (does_bind (does_emit (does_bind (does_get ?_)))))
  obtain ⟨N', vars', core⟩ := Core.finishType (ℓ := a.line) (tracks (legal ps.length)) temps value region
  rw [setBody_types, types]
  dsimp only
  rw [if_pos flag]
  have point : (O.here.setTemps []).point N'.vars = calmPoint N'.vars :=
    calm_point (L := O.here.setTemps []) ⟨rfl, pending, region⟩ _
  rw [point] at core
  obtain ⟨front, ls, split, front', kept, opened⟩ := core.frames.locals
  obtain rfl := front_eq_nil pending front'
  rw [show (O.here.setTemps []).opens = .typeBody true :: os from opens] at opened
  obtain ⟨d, l, low, v, lvs, depth, rfl, hvars, hidden', inner⟩ := opened.subtype_inv
  have names : lvs.map Prod.fst = below := by
    have := core.frames.names
    rw [hvars] at this
    exact (List.cons.inj (this.trans vars)).2
  have leave := follows_leave (a := a) [l] low [v] _ core pending rfl region depth
    split hvars rfl (by simpa using hidden') kept inner
  refine does_bind (does_mono leave ?_)
  rintro _ _ ⟨b', N'', ws', rfl, captures, h'⟩
  rw [names] at h'
  exact does_modify (h.followTypes _ h' captures rfl others)

theorem reaches_inheritFrom {parent : String} {os : List Opening}
    (h : Sim O (false :: flags) a ps qs ds) (calm : O.here.Calm)
    (opens : O.here.opens = .typeBody false :: os)
    (ok : ∀ n x, (Directive.inheritFrom parent name).Refers a.body n x → legal a.outer.length n x) :
    Does (inheritFrom parent name) a fun _ => Reaches legal { O with here :=
      { O.here.setOpens (.typeBody true :: os) with vars := "super" :: O.here.vars } } (true :: flags)
        ps qs ds := by
  unfold inheritFrom
  obtain ⟨⟨kind, role, vars, fixed, temps, region, pending, openings, started⟩, outer, aside, ready⟩ := O
  obtain ⟨rfl, rfl, rfl⟩ := calm
  obtain rfl : openings = .typeBody false :: os := opens
  have length := congrArg List.length h.bodies
  rw [List.length_map, List.length_cons] at length
  refine does_bind (does_mono (does_load h ⟨rfl, Level.usual_empty rfl nofun⟩ fun n found => ok _ _ (.inl ⟨rfl, found⟩)) ?_)
  rintro _ a₁ ⟨b, N, ps₁, h₁, stays₁, locals, depth⟩
  obtain ⟨ws, tracks⟩ := h₁.nest.tracks
  rw [← h₁.body]
  refine does_bind (does_modifyBody (does_bind ?_))
  unfold pushLocal
  refine does_bind (does_getBody ?_)
  split
  · exact does_bind does_throw
  rename_i room
  refine does_modifyBody (does_bind (does_complete (Nat.succ_pos _) rfl ?_))
  obtain ⟨N₂, vars₂, core⟩ := (tracks (legal ps₁.length)).hide "super" rfl rfl rfl (by simpa using room)
  have core' := core.setTemps []
  have h₂ := h₁.setHead core'.tracks rfl rfl
  have level : a₁.outer.length = a.outer.length := by
    have same := stays₁.length_eq
    have level := h₁.length_eq
    rw [List.length_cons] at same
    omega
  have second : ∀ n, Found (⟨"super", some (b.depth + 1), false⟩ :: b.locals) name n →
      legal a₁.outer.length n name := by
    intro n found
    rw [depth, locals] at found
    rw [level]
    exact ok _ _ (.inr ⟨rfl, found⟩)
  refine does_bind (does_mono (does_load h₂ ⟨rfl, Level.usual_empty rfl nofun⟩ second) ?_)
  rintro _ a₃ ⟨b₃, N₃, ps₃, h₃, stays₃, -⟩
  obtain ⟨ws₃, tracks₃⟩ := h₃.nest.tracks
  rw [← h₃.body]
  refine does_bind (does_emit (does_modify ?_))
  obtain ⟨N₄, -, -, -, h₄⟩ := (tracks₃ (legal ps₃.length)).simple (i := .inherit) (τ := [.value]) (ℓ := a₃.line)
    rfl rfl rfl (by simp [Held.isValue]) rfl (fits_open rfl nofun) (Level.usual_single rfl rfl rfl) (.inr rfl)
  obtain ⟨t, rest, types, flag, others⟩ := List.map_eq_cons_iff.mp h₃.types
  have reaches := h₃.followTypes ({ t with hasSuper := true } :: rest) h₄ rfl rfl
    (congrArg (true :: ·) others)
  rw [setBody_types, types]
  exact reaches.after (stays₁.trans ((stays_head core'.later core'.adds).trans stays₃))

end Reaches

end Types

end ScriptEngine
