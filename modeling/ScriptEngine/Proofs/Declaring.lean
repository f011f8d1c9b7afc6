import ScriptEngine.Proofs.Performing

/-!
# Scopes and declarations

A variable is bound where its value is on top of the stack, and dropped at the
end of its scope. Between the two its place is the number of variables below it.
-/
namespace ScriptEngine

open Assembler Outline

section Frames
variable {known : Array Chunk} {legal : Nat → String → Prop} {c₀ : Chunk} {N₀ : Notes} {L : Level} {b : Body}
  {N : Notes} {extra : List (Nat × Point)} {ws : List Nat} {p q : Point} {i : Instruction}
  {ℓ : UInt32} {a : Assembler} {name : String}

theorem Opened.depth_base {base fixed d : Nat} {ls : List Local} {vs : List (String × Nat)} {cs : List Control}
    {rs : List Round} (h : Opened N base fixed [] d ls vs cs rs ws) : d = base := by
  cases h
  rfl

theorem Opened.depth_scope {base fixed d n : Nat} {os : List Opening} {ls : List Local}
    {vs : List (String × Nat)} {cs : List Control} {rs : List Round} (h : Opened N base fixed (.scope n :: os) d ls vs cs rs ws) : 0 < d := by
  cases h
  omega

/-- The innermost variable belongs to the scope that is open. -/
theorem Opened.depth_first {base fixed d : Nat} {os : List Opening} {l : Local} {ls : List Local}
    {v : String × Nat} {vs : List (String × Nat)} {cs : List Control} {rs : List Round}
    (h : Opened N base fixed os d (l :: ls) (v :: vs) cs rs ws)
    (declaring : os = [] ∨ ∃ n os', os = .scope n :: os' ∧ n ≤ vs.length) : l.depth = some d := by
  rcases declaring with rfl | ⟨n, os', rfl, le⟩
  · obtain ⟨depths⟩ := h
    exact depths l (.head _)
  · generalize hls : l :: ls = ls' at h
    generalize hvs : v :: vs = vs' at h
    obtain _ | @⟨_, _, lower, new, below, nvs, _, _, _, rest, depths, length⟩ := h
    cases new with
    | nil =>
      obtain rfl : nvs = [] := List.length_eq_zero_iff.mp length.symm
      obtain rfl : v :: vs = below := hvs
      simp at le
    | cons x new =>
      injection hls with same
      exact same ▸ depths x (.head _)

theorem Frames.depth_pos (h : Frames L b N ws) (declaring : L.Declaring) (inScope : L.inScope) :
    0 < b.depth := by
  obtain ⟨front, ls, -, -, -, opened⟩ := h.locals
  rcases declaring with opens | ⟨n, os, opens, -⟩
  · rw [opens] at opened
    rw [opened.depth_base]
    have : L.kind ≠ .script := by simpa [Level.inScope, opens] using inScope
    simp [Level.base, this]
  · rw [opens] at opened
    exact opened.depth_scope

theorem Frames.depth_zero (h : Frames L b N ws) (outside : L.inScope = false) : b.depth = 0 := by
  obtain ⟨front, ls, -, -, -, opened⟩ := h.locals
  obtain ⟨kind, opens⟩ : L.kind = .script ∧ L.opens = [] := by simpa [Level.inScope] using outside
  rw [opens] at opened
  rw [opened.depth_base]
  simp [Level.base, kind]

theorem declaring_scope {L : Level} (h : L.Declaring) :
    L.opens = [] ∨ ∃ n os, L.opens = .scope n :: os := by
  rcases h with h | ⟨n, os, h, -⟩
  · exact .inl h
  · exact .inr ⟨n, os, h⟩

/-- A new variable, with the local that stands for it and what is open then. -/
theorem Frames.extend {l : Local} {ls : List Local} {os : List Opening} {d : Nat}
    (h : Frames L b N ws) (kept : Kept N ls N.vars)
    (opened : Opened N L.base L.fixed os d (l :: ls) ((name, N.fresh) :: N.vars) b.control
      (N.rounds b.chunk.code.size) ws)
    (named : l.name = name) (room : ls.length < 256)
    (new : ∀ q, (q, N.fresh) ∉ N.caught) :
    Frames { L with vars := name :: L.vars, opens := os, pending := .none, started := true }
      { b with locals := l :: ls, depth := d }
      { N with vars := (name, N.fresh) :: N.vars, fresh := N.fresh + 1 } ws where
  kind := h.kind
  names := congrArg (name :: ·) h.names
  locals := ⟨[], l :: ls, rfl, rfl, .cons ⟨named, fun _ => new⟩ kept,
    opened.congr (fun _ _ => rfl) (fun _ _ h => ⟨h, rfl⟩) fun _ _ _ _ _ h => h⟩
  nodup := by
    refine List.nodup_cons.mpr ⟨fun mem => ?_, h.nodup⟩
    obtain ⟨v, hv, same⟩ := List.mem_map.mp mem
    have := h.fresh v hv
    dsimp only at same
    omega
  fresh := by
    intro v hv
    rcases List.mem_cons.mp hv with rfl | hv
    · exact Nat.lt_succ_self _
    · exact Nat.lt_succ_of_lt (h.fresh v hv)
  room := room
  width := h.width
  fixed := h.fixed
  entry := h.entry
  start := nofun
  role := h.role
  set := h.set
  bottom := by
    obtain ⟨vs, bottom⟩ := h.bottom
    exact ⟨name :: vs, congrArg (name :: ·) bottom⟩
  heads := h.heads.above [(name, N.fresh)]
  whole := h.whole

/-- The value on top of the variables becomes a variable. -/
theorem Core.extend {above : List Held} {e : Held} {r : Region} {l : Local} {ls : List Local}
    {os : List Opening} {d : Nat} (h : Core known legal c₀ N₀ L b N [] ws ⟨above ++ e :: bounds N.vars, r⟩)
    (value : e.isValue) (named : l.name = name)
    (front : ∀ front lower, b.locals = front ++ lower → L.pending.Front b.depth front →
      lower = ls ∧ lower.length < 256)
    (opened : Opened N L.base L.fixed L.opens b.depth ls N.vars b.control
        (N.rounds b.chunk.code.size) ws →
      Opened N L.base L.fixed os d (l :: ls) ((name, N.fresh) :: N.vars) b.control
        (N.rounds b.chunk.code.size) ws) :
    ∃ N', N'.vars = (name, N.fresh) :: N.vars ∧ Core known legal c₀ N₀
        { L with vars := name :: L.vars, opens := os, pending := .none, started := true }
        { b with locals := l :: ls, depth := d } N' [] ws ⟨above ++ bounds N'.vars, r⟩ := by
  have le : (⟨above ++ e :: bounds N.vars, r⟩ : Point) ≤
      ⟨above ++ .bound name N.fresh :: bounds N.vars, r⟩ := by
    refine ⟨rfl, List.rel_append (List.forall₂_same.mpr fun _ _ => Held.le_refl _)
      (.cons (.inr ⟨value, .inr rfl⟩) (List.forall₂_same.mpr fun _ _ => Held.le_refl _))⟩
  have h' := h.relabel le
  obtain ⟨front', lower, split, pending, kept, there⟩ := h.frames.locals
  obtain ⟨rfl, room⟩ := front front' lower split pending
  have new : ∀ q, (q, N.fresh) ∉ N.caught := fun q mem =>
    absurd (h'.draft.words.older q _ mem).2 (Nat.lt_irrefl _)
  have frames := h'.frames.extend (l := l) kept
    ((opened there).congr (fun _ _ => rfl) (fun _ _ h => ⟨h, rfl⟩) fun _ _ _ _ _ h => h) named room new
  exact ⟨_, rfl, h'.reframe (Nat.le_succ _) frames rfl rfl (.refl _) rfl (.refl _) (by simp)⟩

/-- A variable of the scope that is open. -/
theorem Core.bind {above : List Held} {e : Held} {r : Region}
    (h : Core known legal c₀ N₀ L b N [] ws ⟨above ++ e :: bounds N.vars, r⟩) (name : String)
    (captured : Bool) (ls : List Local) (value : e.isValue) (declaring : L.Declaring)
    (front : ∀ front lower, b.locals = front ++ lower → L.pending.Front b.depth front →
      lower = ls ∧ lower.length < 256) :
    ∃ N', N'.vars = (name, N.fresh) :: N.vars ∧
      Core known legal c₀ N₀ { L with vars := name :: L.vars, pending := .none, started := true }
        { b with locals := ⟨name, some b.depth, captured⟩ :: ls } N' [] ws ⟨above ++ bounds N'.vars, r⟩ :=
  h.extend value rfl front fun opened => opened.push (declaring_scope declaring) rfl

theorem does_declareLocal {Q : Unit → Assembler → Prop} (depth : 0 < b.depth)
    (h : b.locals.length < 256 → Q () (a.setBody { b with locals := ⟨name, none, false⟩ :: b.locals })) :
    Does (declareLocal name) (a.setBody b) Q := by
  unfold declareLocal
  refine does_bind (does_getBody ?_)
  rw [if_neg (by omega)]
  split
  · exact does_bind does_throw
  · unfold pushLocal
    refine does_bind (does_getBody ?_)
    split
    · exact does_bind does_throw
    · exact does_modifyBody (h (by omega))

theorem does_complete {l : Local} {ls : List Local} {Q : Unit → Assembler → Prop} (depth : 0 < b.depth)
    (locals : b.locals = l :: ls)
    (h : Q () (a.setBody { b with locals := { l with depth := some b.depth } :: ls })) :
    Does complete (a.setBody b) Q := by
  refine does_modifyBody ?_
  rw [if_neg (by omega), locals]
  exact h

/-- A local whose value is still to come. -/
theorem Core.pend (h : Core known legal c₀ N₀ L b N [] ws p) (l : Local) (pending : Pending)
    (calm : L.pending = .none) (front : pending.Front b.depth [l]) (room : b.locals.length < 256) :
    Core known legal c₀ N₀ { L.touch with pending := pending } { b with locals := l :: b.locals } N []
      ws p := by
  have frames : Frames { L.touch with pending := pending } { b with locals := l :: b.locals } N
      ws := by
    have h := h.frames.touch
    obtain ⟨front', ls, split, none, kept, opened⟩ := h.locals
    rw [show L.touch.pending = .none from calm] at none
    obtain rfl : front' = [] := none
    exact { h with
      locals := ⟨[l], ls, congrArg (l :: ·) split, front, kept, opened⟩
      room := room
      start := nofun }
  exact ⟨h.draft, h.wants, frames, h.now, h.later.trans (.still rfl rfl (.refl _)), h.adds.still rfl rfl⟩

theorem Core.nameConstant {Q : UInt16 → Assembler → Prop}
    (h : Core known legal c₀ N₀ L b N extra ws p)
    (then_ : ∀ index b', b' = b.setChunk { b.chunk with constants := b'.chunk.constants } →
      b'.chunk.constants[index.toNat]? = some (.string name) →
      Core known legal c₀ N₀ L b' N extra ws p → Q index (a.setBody b')) :
    Does (nameConstant name) (a.setBody b) Q :=
  does_nameConstant fun _ _ grows found => then_ _ _ rfl found (h.constants grows)

variable (h : Core known legal c₀ N₀ L b N [] ws (L.point N.vars))
include h

theorem follows_reserve : Does (do let _ ← nameConstant name) (a.setBody b) fun _ =>
    Follows known legal c₀ N₀ a b.captures L.touch :=
  does_bind (h.nameConstant fun _ b' same _ h' => does_pure (by
    have := Follows.intro (a := a) h'.touch
    rwa [same] at this ⊢))

theorem follows_declare (calm : L.Calm) (declaring : L.Declaring) (inScope : L.inScope) :
    Does (declare name) (a.setBody b) fun _ =>
      Follows known legal c₀ N₀ a b.captures { L.touch with pending := .value name } := by
  have depth := h.frames.depth_pos declaring inScope
  unfold declare
  refine does_bind (does_getBody ?_)
  rw [if_pos depth]
  exact does_declareLocal depth fun room => Follows.intro (h.pend _ _ calm.2.1 ⟨_, rfl⟩ room)

theorem follows_declareGlobal (outside : L.inScope = false) :
    Does (declare name) (a.setBody b) fun _ => Follows known legal c₀ N₀ a b.captures L.touch := by
  unfold declare
  refine does_bind (does_getBody ?_)
  rw [if_neg (by rw [h.frames.depth_zero outside]; omega)]
  exact follows_reserve h

theorem follows_declareGlobalFunction (outside : L.inScope = false) :
    Does (perform (.declareFunction name)) (a.setBody b) fun _ =>
      Follows known legal c₀ N₀ a b.captures L.touch := by
  refine does_bind (does_mono (follows_declareGlobal h outside) ?_)
  rintro _ _ ⟨b', N', ws', rfl, captures, h'⟩
  refine does_modifyBody ?_
  rw [if_pos (h'.frames.depth_zero outside)]
  exact ⟨b', N', ws', rfl, captures, h'⟩

theorem follows_declareFunction (calm : L.Calm) (declaring : L.Declaring) (inScope : L.inScope) :
    Does (perform (.declareFunction name)) (a.setBody b) fun _ =>
      Follows known legal c₀ N₀ a b.captures { L.touch with pending := .function name } := by
  have depth := h.frames.depth_pos declaring inScope
  refine does_bind ?_
  unfold declare
  refine does_bind (does_getBody ?_)
  rw [if_pos depth]
  refine does_declareLocal depth fun room => does_complete depth rfl ?_
  exact Follows.intro (h.pend _ _ calm.2.1 ⟨_, rfl⟩ room)

theorem follows_define {e : Held} (temps : L.temps = [e]) (value : e.isValue)
    (pending : L.pending = .value name) (declaring : L.Declaring)
    (inScope : L.inScope) :
    Does (define name) (a.setBody b) fun _ => Follows known legal c₀ N₀ a b.captures
      { L.setTemps [] with vars := name :: L.vars, pending := .none } := by
  have depth := h.frames.depth_pos declaring inScope
  unfold define
  refine does_bind (does_getBody ?_)
  rw [if_pos depth]
  obtain ⟨front, ls, split, front', -⟩ := h.frames.locals
  rw [pending] at front'
  obtain ⟨captured, rfl⟩ := front'
  refine does_complete depth split ?_
  have point : L.point N.vars = ⟨[] ++ e :: bounds N.vars, L.region⟩ := by simp [Level.point, temps]
  rw [point] at h
  have room := h.frames.room
  rw [split] at room
  obtain ⟨N', vars, h'⟩ := h.bind name captured ls value declaring (by
      intro front lower split' front'
      rw [pending] at front'
      obtain ⟨c, rfl⟩ := front'
      rw [split] at split'
      injection split' with same rest
      obtain rfl : ls = lower := rest
      exact ⟨rfl, by simpa using room⟩)
  exact ⟨_, N', ws, rfl, rfl, h'.setTemps []⟩

theorem follows_defined {below : List String} (calm : L.Calm) (vars : L.vars = name :: below)
    (declaring : { L with vars := below }.Declaring) (inScope : L.inScope) :
    Does (define name) (a.setBody b) fun _ => Follows known legal c₀ N₀ a b.captures L.touch := by
  have depth : 0 < b.depth := by
    refine h.frames.depth_pos ?_ inScope
    rcases declaring with opens | ⟨n, os, opens, le⟩
    · exact .inl opens
    · exact .inr ⟨n, os, opens, by rw [vars]; exact Nat.le_succ_of_le le⟩
  unfold define
  refine does_bind (does_getBody ?_)
  rw [if_pos depth]
  obtain ⟨front, ls, split, front', kept, opened⟩ := h.frames.locals
  rw [calm.2.1] at front'
  obtain rfl : front = [] := front'
  -- the local is complete already
  have names := h.frames.names
  rw [vars] at names
  obtain ⟨v, vs, hvars, -, -⟩ := List.map_eq_cons_iff.mp names
  rw [hvars] at kept opened
  obtain ⟨l, ls, rfl, kept⟩ : ∃ l ls', ls = l :: ls' ∧ Kept N ls' vs := by
    cases kept with
    | cons _ kept => exact ⟨_, _, rfl, kept⟩
  have length : vs.length = below.length := by
    have := congrArg List.length (h.frames.names.trans vars)
    simpa [hvars] using this
  have complete : l.depth = some b.depth := opened.depth_first (by
    rcases declaring with opens | ⟨n, os, opens, le⟩
    · exact .inl opens
    · exact .inr ⟨n, os, opens, by rw [length]; exact le⟩)
  have locals : b.locals = l :: ls := split
  refine does_complete depth locals ?_
  have same : { b with locals := { l with depth := some b.depth } :: ls } = b := by
    rw [← complete, ← locals]
  rw [same]
  exact Follows.intro h.touch

theorem follows_defineGlobal (name : String) {e : Held} (temps : L.temps = [e]) (value : e.isValue)
    (region : L.region = .none) (outside : L.inScope = false) :
    Does (define name) (a.setBody b) fun _ =>
      Follows known legal c₀ N₀ a b.captures (L.setTemps []) := by
  unfold define
  refine does_bind (does_getBody ?_)
  rw [if_neg (by rw [h.frames.depth_zero outside]; omega)]
  exact follows_emitNamed .defineGlobal _ h (τ := [e]) temps (fun _ => rfl) rfl
    (by simpa using value) (fun _ => rfl) (fun _ => rfl) (fun _ => rfl) (Level.usual_single temps value region)
    fun _ => .inr rfl

omit h

/-- So many values on top of the stack become variables, the lowest one first. -/
theorem follows_defineEach {names : List String} (depth : 0 < b.depth) (pending : L.pending = .none)
    (declaring : L.Declaring)
    (h : Core known legal c₀ N₀ L b N [] ws
      ⟨List.replicate names.length .value ++ bounds N.vars, L.region⟩) :
    Does (names.forM fun name => do declareLocal name; complete) (a.setBody b) fun _ =>
      Follows known legal c₀ N₀ a b.captures
        { L.setTemps [] with vars := names.reverse ++ L.vars } := by
  induction names generalizing L b N with
  | nil =>
    exact does_pure ⟨b, N, ws, rfl, rfl, h.setTemps []⟩
  | cons name names ih =>
    refine does_forM_cons (does_bind (does_declareLocal depth fun room => does_complete depth rfl ?_))
    rw [List.length_cons, List.replicate_succ', List.append_assoc] at h
    obtain ⟨N', vars, h'⟩ := h.bind name false b.locals rfl declaring (by
        intro front lower split front'
        rw [pending] at front'
        obtain rfl : front = [] := front'
        obtain rfl : b.locals = lower := split
        exact ⟨rfl, room⟩)
    have declaring' : { L with vars := name :: L.vars, pending := .none, started := true }.Declaring := by
      rcases declaring with opens | ⟨n, os, opens, le⟩
      · exact .inl opens
      · exact .inr ⟨n, os, opens, Nat.le_succ_of_le le⟩
    have := ih (b := { b with locals := ⟨name, some b.depth, false⟩ :: b.locals }) depth rfl
      declaring' h'
    simp only [List.reverse_cons, List.append_assoc, List.singleton_append]
    rw [← pending] at this
    exact this

theorem follows_defineMany {names : List String} (h : Core known legal c₀ N₀ L b N [] ws (L.point N.vars))
    (temps : L.temps = List.replicate names.length .value) (pending : L.pending = .none)
    (declaring : L.Declaring) (inScope : L.inScope) :
    Does (defineMany names) (a.setBody b) fun _ => Follows known legal c₀ N₀ a b.captures
      { L.setTemps [] with vars := names.reverse ++ L.vars } := by
  have depth := h.frames.depth_pos declaring inScope
  unfold defineMany
  refine does_bind (does_getBody ?_)
  rw [if_pos depth]
  unfold Level.point at h
  rw [temps] at h
  exact follows_defineEach depth pending declaring h

theorem does_nameConstants (names : List String) :
    Does (names.mapM nameConstant) (a.setBody b) fun indices a' =>
      ∃ constants, a' = a.setBody (b.setChunk { b.chunk with constants }) ∧ Grows b.chunk.constants constants ∧
        indices.length = names.length ∧ ∀ (j : Nat) i, indices[j]? = some i →
          ∃ name, names[j]? = some name ∧ constants[i.toNat]? = some (.string name) := by
  induction names generalizing b with
  | nil => exact does_pure ⟨_, rfl, .refl _, rfl, fun j i hi => by cases hi⟩
  | cons name names ih =>
    rw [List.mapM_cons]
    refine does_bind (does_nameConstant fun index constants grows found => ?_)
    refine does_bind (does_mono ih ?_)
    rintro indices _ ⟨constants', rfl, grows', length, named⟩
    refine does_pure ⟨constants', rfl, grows.trans grows', congrArg (· + 1) length, fun j i hi => ?_⟩
    cases j with
    | zero =>
      obtain rfl := Option.some.inj hi
      exact ⟨name, rfl, grows' _ _ found⟩
    | succ j => exact named j i hi

theorem follows_defineGlobals {indices : List UInt16}
    (h : Core known legal c₀ N₀ L b N [] ws (L.point N.vars))
    (temps : L.temps = List.replicate indices.length .value) (region : L.region = .none)
    (names : ∀ i ∈ indices, ∃ s, b.chunk.constants[i.toNat]? = some (.string s)) :
    Does (indices.forM fun index => emit (.defineGlobal index)) (a.setBody b) fun _ =>
      Follows known legal c₀ N₀ a b.captures (L.setTemps []) := by
  induction indices generalizing L b N with
  | nil =>
    have same : L.setTemps L.temps = L.setTemps [] := congrArg _ temps
    exact does_pure ⟨b, N, ws, rfl, rfl, same ▸ h.setTemps L.temps⟩
  | cons index indices ih =>
    obtain ⟨s, found⟩ := names index (.head _)
    refine does_forM_cons (does_emit ?_)
    obtain ⟨N', -, -, -, h'⟩ := h.simple (i := .defineGlobal index) (τ := [.value])
      (ℓ := a.line) temps rfl rfl
      (by simp [Held.isValue]) rfl (fits_open rfl fun n hn => by cases hn; exact name_isSome found)
      (Level.usual_values temps (by simp [region])) (.inr rfl)
    have := ih h' rfl region fun i hi => names i (.tail _ hi)
    exact this

theorem follows_defineManyGlobal {names : List String}
    (h : Core known legal c₀ N₀ L b N [] ws (L.point N.vars))
    (temps : L.temps = List.replicate names.length .value) (region : L.region = .none)
    (outside : L.inScope = false) :
    Does (defineMany names) (a.setBody b) fun _ =>
      Follows known legal c₀ N₀ a b.captures (L.setTemps []) := by
  unfold defineMany
  refine does_bind (does_getBody ?_)
  rw [if_neg (by rw [h.frames.depth_zero outside]; omega)]
  refine does_bind (does_mono (does_nameConstants names) ?_)
  rintro indices _ ⟨constants, rfl, grows, length, named⟩
  refine follows_defineGlobals (h.constants grows) (by simp [temps, length]) region fun i hi => ?_
  obtain ⟨j, at_⟩ := List.mem_iff_getElem?.mp (List.mem_reverse.mp hi)
  obtain ⟨name, -, found⟩ := named j i at_
  exact ⟨name, found⟩

/-! ## The head of a function -/

/-- Ahead of all code anything may be known. -/
theorem Draft.enter {c : Chunk} {width : Nat} (h : Draft known c width N ws)
    (code : c.code.size = 0) (labels : c.labels.size = 0) :
    Draft known c width (N.relabel c.code.size q) ws := by
  obtain ⟨flow, words, waiting⟩ := h
  have empty {o : Nat} {i : Instruction} (ho : c.code[o]? = some i) : False := by
    have := lt_size_of_code ho
    omega
  exact ⟨⟨fun o i ho => (empty ho).elim, fun o i ho => (empty ho).elim, fun o i ho => (empty ho).elim,
      fun l t hl => absurd (flow.placed l t hl).1 (by omega), fun o i l t ho => (empty ho).elim, flow.whole,
      flow.since, fun o name id rest ho => (empty ho).elim⟩,
    ⟨fun o n ho => (empty ho).elim, words.older, fun o name id rest ho => (empty ho).elim, words.follow,
      words.belongs, words.missing⟩,
    ⟨waiting.nodup, waiting.mem, waiting.unplaced⟩⟩

/-- A parameter is on the stack when the function is entered. -/
theorem follows_parameter (h : Core known legal c₀ N₀ L b N [] ws (L.point N.vars)) (calm : L.Calm)
    (opens : L.opens = []) (fresh : L.started = false) (inner : L.kind ≠ .script) :
    Does (parameter name) (a.setBody b) fun _ => Follows known legal c₀ N₀ a b.captures
      { L with vars := name :: L.vars, fixed := L.fixed + 1 } := by
  have depth := h.frames.depth_pos (.inl opens) (by simp [Level.inScope, inner])
  unfold parameter
  refine does_bind (does_declareLocal depth fun room => does_bind (does_complete depth rfl ?_))
  refine does_bind (does_nameConstant fun index constants grows found => does_modifyBody ?_)
  obtain ⟨code, labels, captures, results, heads, -⟩ := h.frames.start fresh
  obtain ⟨us, id, vars⟩ := h.frames.slotZero
  obtain ⟨front, ls, split, front', kept, opened⟩ := h.frames.locals
  rw [calm.2.1] at front'
  obtain rfl : front = [] := front'
  obtain rfl : b.locals = ls := split
  obtain ⟨low, bottom⟩ := h.frames.bottom
  rw [calm_point calm] at h
  let q := calmPoint ((name, N.fresh) :: N.vars)
  let N' : Notes := { N.relabel b.chunk.code.size q with
    vars := (name, N.fresh) :: N.vars, fresh := N.fresh + 1 }
  have here : N'.point b.chunk.code.size = q := Function.update_self _ _ _
  have length := congrArg List.length h.frames.names
  have opened' : Opened N' L.base L.fixed L.opens b.depth b.locals N.vars b.control
      (N.rounds b.chunk.code.size) ws :=
    opened.congr (fun _ _ => rfl) (fun _ _ h => ⟨h, rfl⟩) fun _ _ _ _ _ h => h
  have opened'' : Opened N' L.base (L.fixed + 1) L.opens b.depth
      (⟨name, some b.depth, false⟩ :: b.locals) ((name, N.fresh) :: N.vars) b.control
      (N.rounds b.chunk.code.size) ws := by
    have := opened'.push (l := ⟨name, some b.depth, false⟩) (v := (name, N.fresh)) (.inl opens) rfl
    rw [opens] at this ⊢
    exact this.fix (Nat.succ_le_succ opened'.enough)
  refine ⟨_, N', ws, rfl, rfl, ⟨?_, by simp, ?_, ?_, ?_, ?_⟩⟩
  · refine (((h.draft.enter code labels).revar ((name, N.fresh) :: N.vars) (Nat.le_succ _)).mono rfl rfl
      grows le_rfl (.refl _))
  · exact {
      kind := h.frames.kind
      names := congrArg (name :: ·) h.frames.names
      locals := ⟨[], ⟨name, some b.depth, false⟩ :: b.locals, rfl, by rw [calm.2.1]; rfl,
        .cons ⟨rfl, fun _ q mem => absurd (h.draft.words.older q _ mem).2 (Nat.lt_irrefl _)⟩ kept,
        opened''⟩
      nodup := by
        refine List.nodup_cons.mpr ⟨fun mem => ?_, h.frames.nodup⟩
        obtain ⟨v, hv, same⟩ := List.mem_map.mp mem
        have := h.frames.fresh v hv
        dsimp only at same
        omega
      fresh := by
        intro v hv
        rcases List.mem_cons.mp hv with rfl | hv
        · exact Nat.lt_succ_self _
        · exact Nat.lt_succ_of_lt (h.frames.fresh v hv)
      room := room
      width := h.frames.width
      fixed := by
        have := h.frames.fixed
        simp only [Body.setChunk, Array.size_push]
        omega
      entry := by
        refine ⟨(name, N.fresh) :: us, id, ?_, ?_⟩
        · rw [← code, here]
          simp [q, vars]
        · have := h.frames.fixed
          simp only [List.length_map, vars, List.length_append, List.length_singleton] at length
          simp only [List.length_cons, Body.setChunk, Array.size_push]
          omega
      start := fun _ => ⟨code, labels, captures, results, congrArg Nat.succ heads, opens⟩
      role := h.frames.role
      set := h.frames.set
      bottom := ⟨name :: low, congrArg (name :: ·) bottom⟩
      heads := by
        refine h.frames.heads.push ?_ ?_ grows found _
        · rw [← List.length_map, length, heads, h.frames.fixed]
        · simp [Body.setChunk, Array.size_eq_zero_iff.mp results]
      whole := h.frames.whole }
  · exact here.trans (calm_point (L := { L with vars := _, fixed := _ }) calm _).symm
  · refine h.later.trans ⟨List.prefix_refl _, fun o ho => absurd ho (by omega), ?_, fun some => (some code).elim, grows⟩
    intro n x id at?
    rw [h.now] at at?
    rw [show N'.point b.chunk.code.size = q from here]
    exact (Held.at?_append_of_lt [.bound name N.fresh] (Held.lt_of_at? at?)).trans at?
  · exact Adds.nothing (by
      change b.chunk.code.size ≤ _
      omega)

/-- A named result is null at first. -/
theorem follows_resultName (h : Core known legal c₀ N₀ L b N [] ws (L.point N.vars)) (calm : L.Calm)
    (opens : L.opens = []) (fixed : L.vars.length = L.fixed) (inner : L.kind ≠ .script) :
    Does (resultName name) (a.setBody b) fun _ => Follows known legal c₀ N₀ a b.captures
      { L.touch with vars := name :: L.vars, fixed := L.fixed + 1 } := by
  have depth := h.frames.depth_pos (.inl opens) (by simp [Level.inScope, inner])
  unfold resultName
  refine does_bind (does_emit ?_)
  obtain ⟨N', vars, -, -, h'⟩ := h.simple (i := .null) (τ := []) (ℓ := a.line)
    calm.1 rfl rfl (by simp) rfl (fits_open rfl nofun) calm.usual (.inr rfl)
  refine does_bind (does_declareLocal depth fun room => does_bind (does_complete depth rfl ?_))
  refine does_bind (does_nameConstant fun index constants grows found => does_modifyBody ?_)
  change Core known legal c₀ N₀ _ _ N' [] ws ⟨[] ++ .value :: bounds N'.vars, L.region⟩ at h'
  obtain ⟨N'', vars', h''⟩ := h'.bind name false b.locals rfl (.inl opens) (by
      intro front lower split front'
      obtain rfl : front = [] := by
        rw [show (L.setTemps _).pending = .none from calm.2.1] at front'
        exact front'
      obtain rfl : b.locals = lower := split
      exact ⟨rfl, room⟩)
  have h₃ := h''.constants grows
  refine ⟨_, N'', ws, rfl, rfl, ⟨h₃.draft.mono rfl rfl (.refl _) le_rfl (.refl _), h₃.wants, ?_, ?_,
    h₃.later.trans (.still rfl rfl (.refl _)), h₃.adds.still rfl rfl⟩⟩
  · exact { h₃.frames with
      locals := by
        obtain ⟨front, ls, split, front', kept, opened⟩ := h₃.frames.locals
        have opens' : (L.setTemps (List.replicate 1 .value ++ [])).opens = [] := opens
        rw [opens'] at opened
        have length := congrArg List.length h.frames.names
        rw [List.length_map] at length
        have opened' := opened.fix (f := L.fixed + 1) (by rw [vars', vars, List.length_cons]; omega)
        rw [← opens'] at opened'
        refine ⟨front, ls, split, ?_, kept, opened'⟩
        rwa [show L.touch.pending = .none from calm.2.1]
      fixed := by
        have := h.frames.fixed
        simp only [Body.setChunk, Body.emit, Chunk.emit, Array.size_push]
        omega
      start := nofun
      heads := by
        have length := congrArg List.length h.frames.names
        rw [List.length_map] at length
        rw [vars', vars]
        have grows' : Grows b.chunk.constants constants := grows
        refine h.frames.heads.push ?_ (by simp [Body.setChunk, Body.emit, Chunk.emit]) grows' found _
        rw [length, fixed, h.frames.fixed] }
  · refine h₃.now.trans ?_
    rw [Level.point, show L.touch.temps = [] from calm.1]
    rfl

end Frames

end ScriptEngine
