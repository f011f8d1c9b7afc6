import ScriptEngine.Proofs.Declaring

/-!
# Leaving scopes, loops and functions

What leaves a scope drops its variables, a loop is left for one of its labels,
and a function with the values that it returns.
-/
namespace ScriptEngine

open Assembler Outline

section Leaving
variable {known : Array Chunk} {legal : Nat → String → Prop} {c₀ : Chunk} {N₀ : Notes} {L : Level} {b : Body}
  {N : Notes} {extra : List (Nat × Point)} {ws : List Nat} {p q : Point} {i : Instruction}
  {ℓ : UInt32} {a : Assembler} {name : String}

/-- Only code has been added to a function, whose books are those of `b`. -/
def Wrote (known : Array Chunk) (legal : Nat → String → Prop) (c₀ : Chunk) (N₀ : Notes) (a : Assembler)
    (b' b : Body) (L : Level) (N : Notes) (ws : List Nat) (p : Point) (a' : Assembler) : Prop :=
  ∃ code lines N', a' = a.setBody (b'.setChunk { b.chunk with code, lines }) ∧ N'.vars = N.vars ∧
    N'.fresh = N.fresh ∧ N'.caught = N.caught ∧ N'.rounds code.size = N.rounds b.chunk.code.size ∧
    (∀ t ≤ b.chunk.code.size, N'.rounds t = N.rounds t) ∧ N'.want = N.want ∧ N'.placed = N.placed ∧
    Core known legal c₀ N₀ L (b.setChunk { b.chunk with code, lines }) N' [] ws p

/-- Variables are dropped in order, when those that are not flagged have not been captured. -/
theorem does_drops {new : List Local} {nvs vs : List (String × Nat)} {b' : Body}
    (same : b'.chunk = b.chunk)
    (h : Core known legal c₀ N₀ L b N [] ws (calmPoint (nvs ++ vs))) (started : L.started = true)
    (kept : Kept N new nvs) (above : vs ≠ []) (rounds : ∀ r ∈ N.rounds b.chunk.code.size, r.2 ≤ vs.length) :
    Does (new.forM fun l => emit (dropInstruction l)) (a.setBody b') fun _ =>
      Wrote known legal c₀ N₀ a b' b L N ws (calmPoint vs) := by
  unfold Kept at kept
  generalize hc : N.caught = caught at kept
  induction kept generalizing b b' N with
  | nil =>
    refine does_pure ⟨b.chunk.code, b.chunk.lines, N, ?_, rfl, rfl, rfl, rfl, fun _ _ => rfl, rfl, rfl, h⟩
    rw [← same]
    rfl
  | @cons l v new nvs first rest ih =>
    refine does_forM_cons (does_emit ?_)
    have h' := h.dropOne (ℓ := a.line) started (hc ▸ first.2) (by simp [above]) fun r hr => by
      have := rounds r hr
      change r.2 ≤ (nvs ++ vs).length
      rw [List.length_append]
      omega
    have size : (b.emit (dropInstruction l) a.line).chunk.code.size = b.chunk.code.size + 1 := by
      simp [Body.emit]
    have here : (N.emit b.chunk.code.size (calmPoint (nvs ++ vs))).rounds
        (b.emit (dropInstruction l) a.line).chunk.code.size = N.rounds b.chunk.code.size := by
      rw [size, rounds_emit_succ]
    refine does_mono (ih (b := b.emit (dropInstruction l) a.line)
      (by simp only [Body.emit, same]) h' ?_ hc) ?_
    · exact fun r hr => rounds r (here ▸ hr)
    · rintro _ _ ⟨code, lines, N', rfl, vars, fresh, caught, rounds', before, want, placed, h''⟩
      refine ⟨code, lines, N', rfl, vars, fresh, caught, rounds'.trans here, fun t ht => ?_, want,
        placed, h''⟩
      rw [before t (by omega), rounds_emit_of_ne (by omega)]

theorem Opened.scope_inv {base fixed d n : Nat} {os : List Opening} {ls : List Local}
    {vs : List (String × Nat)} {cs : List Control} {rs : List Round}
    (h : Opened N base fixed (.scope n :: os) d ls vs cs rs ws) :
    ∃ d' new low nvs lvs, d = d' + 1 ∧ ls = new ++ low ∧ vs = nvs ++ lvs ∧ n = lvs.length ∧
      new.length = nvs.length ∧ (∀ l ∈ new, l.depth = some (d' + 1)) ∧
      Opened N base fixed os d' low lvs cs rs ws := by
  obtain _ | @⟨_, d', low, new, lvs, nvs, _, _, _, rest, depths, length⟩ := h
  exact ⟨d', new, low, nvs, lvs, rfl, rfl, rfl, rfl, length, depths, rest⟩

theorem Opened.subtype_inv {base fixed d : Nat} {os : List Opening} {ls : List Local}
    {vs : List (String × Nat)} {cs : List Control} {rs : List Round}
    (h : Opened N base fixed (.typeBody true :: os) d ls vs cs rs ws) :
    ∃ d' l low v lvs, d = d' + 1 ∧ ls = l :: low ∧ vs = v :: lvs ∧ l.depth = some (d' + 1) ∧
      Opened N base fixed os d' low lvs cs rs ws := by
  obtain _ | _ | _ | @⟨_, d', low, lvs, _, _, _, l, v, rest, depth⟩ := h
  exact ⟨d', l, low, v, lvs, rfl, rfl, rfl, depth, rest⟩

theorem Kept.split {new low : List Local} {nvs lvs : List (String × Nat)}
    (h : Kept N (new ++ low) (nvs ++ lvs)) (length : new.length = nvs.length) :
    Kept N new nvs ∧ Kept N low lvs := by
  constructor
  · have := List.forall₂_take_append _ _ _ h
    rwa [← length, List.take_left'] at this
    rfl
  · have := List.forall₂_drop_append _ _ _ h
    rwa [← length, List.drop_left'] at this
    rfl

/-- The innermost scope ends with the variables that belong to it. -/
theorem follows_leave {os : List Opening} {d : Nat} (new low : List Local)
    (nvs lvs : List (String × Nat))
    (h : Core known legal c₀ N₀ L b N [] ws (calmPoint N.vars)) (pending : L.pending = .none)
    (temps : L.temps = []) (region : L.region = .none) (depth : b.depth = d + 1)
    (locals : b.locals = new ++ low) (vars : N.vars = nvs ++ lvs) (length : new.length = nvs.length)
    (depths : ∀ l ∈ new, l.depth = some (d + 1)) (kept : Kept N (new ++ low) N.vars)
    (rest : Opened N L.base L.fixed os d low lvs b.control (N.rounds b.chunk.code.size) ws) :
    Does endScope (a.setBody b) fun _ => Follows known legal c₀ N₀ a b.captures
      { L.setOpens os with vars := lvs.map Prod.fst } := by
  have above : localsAbove d (new ++ low) = new :=
    localsAbove_append (fun l hl => ⟨_, depths l hl, Nat.lt_succ_self d⟩) rest.depth_le
  unfold endScope
  refine does_bind (does_modifyBody (does_bind (does_getBody ?_)))
  change Does (emitDrops (b.depth - 1) >>= _) _ _
  rw [depth, Nat.add_sub_cancel]
  refine does_bind (does_bind (does_getBody ?_))
  change Does (List.forM (localsAbove d b.locals) _) _ _
  rw [show localsAbove d b.locals = new by rw [locals, above]]
  rw [vars] at kept h
  obtain ⟨kept, kept'⟩ := kept.split length
  have some : lvs ≠ [] := by
    rintro rfl
    have enough := rest.enough
    have fixed := h.frames.fixed
    simp at enough
    omega
  refine does_mono (does_drops (b := b) rfl h.touch rfl kept some rest.rounds_le) ?_
  rintro _ _ ⟨code, lines, N', rfl, vars', fresh, caught, rounds, before, want, placed, h'⟩
  refine does_modifyBody ?_
  change Follows _ _ _ _ _ _ _ (a.setBody (Body.mk { b.chunk with code, lines }
    (b.locals.drop (localsAbove d b.locals).length) b.captures d b.control))
  rw [locals, above, List.drop_left]
  let N'' : Notes := { N' with vars := lvs, fresh := N'.fresh }
  refine ⟨_, N'', ws, rfl, rfl, ?_⟩
  have point : ({ L.setOpens os with vars := lvs.map Prod.fst } : Level).point lvs = calmPoint lvs := by
    simp [Level.point, Level.setOpens, temps, region, calmPoint]
  rw [point]
  refine h'.reframe le_rfl ?_ rfl rfl (.refl _) rfl (.refl _) (by simp)
  have opened : Opened N'' L.base L.fixed os d low lvs b.control (N'.rounds code.size) ws := by
    rw [rounds]
    refine rest.congr (fun w _ => congrFun want w) (fun l t ht => ⟨placed ▸ ht, congrFun want l⟩) ?_
    intro l t r ht _ hr
    change r ∈ N'.rounds t
    rwa [before t (h.draft.flow.placed l t ht).2.1]
  have frames := h'.frames
  obtain ⟨us, id, slotZero⟩ := frames.slotZero
  exact { frames with
    names := rfl
    locals := ⟨[], low, rfl, front_nil pending,
      by unfold Kept; rwa [show N''.caught = N.caught from caught], opened⟩
    nodup := by
      have nodup := frames.nodup
      rw [vars', vars, List.map_append] at nodup
      exact (List.nodup_append.mp nodup).2.1
    fresh := fun v hv => frames.fresh v (by rw [vars', vars]; exact List.mem_append_right _ hv)
    room := by
      have := h.frames.room
      rw [locals, List.length_append] at this
      dsimp only
      omega
    start := by rintro ⟨⟩
    bottom := by
      have enough := rest.enough
      have one := h.frames.fixed
      rw [vars', vars] at slotZero
      rcases List.append_eq_append_iff.mp slotZero with ⟨us', rfl, rfl⟩ | ⟨us', rfl, last⟩
      · exact ⟨us'.map Prod.fst, List.map_append⟩
      · obtain ⟨rfl, rfl⟩ : us' = [] ∧ lvs = [(L.kind.slotName, id)] := by
          cases us' with
          | nil => exact ⟨rfl, last.symm⟩
          | cons v us' =>
            obtain ⟨-, rfl⟩ : us' = [] ∧ lvs = [] := by simpa [eq_comm] using congrArg List.tail last
            simp at enough
            omega
        exact ⟨[], rfl⟩
    heads := by
      have heads := frames.heads
      rw [vars', vars] at heads
      refine heads.below ?_
      have enough := rest.enough
      have fixed := h.frames.fixed
      change 1 + b.chunk.arguments.size + b.chunk.results.size ≤ _
      omega }

variable (h : Core known legal c₀ N₀ L b N [] ws (L.point N.vars)) (calm : L.Calm)
include h calm

theorem follows_endScope {new lower : List String} {os : List Opening}
    (opens : L.opens = .scope lower.length :: os) (vars : L.vars = new ++ lower) :
    Does endScope (a.setBody b) fun _ => Follows known legal c₀ N₀ a b.captures
      { L.setOpens os with vars := lower } := by
  rw [calm_point calm] at h
  obtain ⟨front, ls, split, pending, kept, opened⟩ := h.frames.locals
  obtain rfl := front_eq_nil calm.2.1 pending
  rw [opens] at opened
  obtain ⟨d, new', low, nvs, lvs, depth, rfl, hvars, length, lengths, depths, rest⟩ := opened.scope_inv
  have same : lower = lvs.map Prod.fst := by
    have names := h.frames.names
    rw [vars, hvars, List.map_append] at names
    exact (List.append_inj_right' names (by rw [List.length_map, length])).symm
  rw [same]
  exact follows_leave new' low nvs lvs h calm.2.1 calm.1 calm.2.2 depth split hvars lengths depths kept rest

theorem follows_beginScope : Does beginScope (a.setBody b) fun _ =>
    Follows known legal c₀ N₀ a b.captures (L.setOpens (.scope L.vars.length :: L.opens)) := by
  refine does_modifyBody ⟨_, N, ws, rfl, rfl, ⟨h.draft, h.wants, ?_, h.now, h.later.trans (.still rfl rfl (.refl _)),
    h.adds.still rfl rfl⟩⟩
  obtain ⟨front, ls, split, pending, kept, opened⟩ := h.frames.locals
  obtain rfl := front_eq_nil calm.2.1 pending
  have length : L.vars.length = N.vars.length := by rw [← h.frames.names, List.length_map]
  have none : ∀ l ∈ ([] : List Local), l.depth = some (b.depth + 1) := by simp
  have same : ([] : List Local).length = ([] : List (String × Nat)).length := rfl
  exact { h.frames with
    locals := ⟨[], ls, split, front_nil calm.2.1, kept, length ▸ .scope opened none same⟩
    start := nofun }

omit h calm

theorem does_leaveLoop {l : Loop} (h : Core known legal c₀ N₀ L b N [] ws (calmPoint N.vars))
    (pending : L.pending = .none) (innermost : innermostLoop? b.control = some l) :
    Does (emitDrops l.depth) (a.setBody b) fun _ a' => ∃ new low nvs lvs s rs',
      Innermost N l b.locals N.vars (N.rounds b.chunk.code.size) ws new low nvs lvs s rs' ∧
        Wrote known legal c₀ N₀ a b b L.touch N ws (calmPoint lvs) a' := by
  obtain ⟨front, ls, split, front', kept, opened⟩ := h.frames.locals
  obtain rfl := front_eq_nil pending front'
  obtain rfl : b.locals = ls := split
  obtain ⟨-, new, low, nvs, lvs, s, rs', inner⟩ := opened.innermost innermost
  have above : localsAbove l.depth b.locals = new := by
    rw [inner.locals]
    exact localsAbove_append inner.above inner.below
  unfold emitDrops
  refine does_bind (does_getBody ?_)
  change Does (List.forM (localsAbove l.depth b.locals) _) _ _
  rw [above]
  rw [inner.locals, inner.vars] at kept
  rw [inner.vars] at h
  have some : lvs ≠ [] := by
    rintro rfl
    have enough := opened.le_rounds (s, 0) (by rw [inner.rounds]; exact .head _)
    have fixed := h.frames.fixed
    simp at enough
    omega
  refine does_mono (does_drops rfl h.touch rfl (kept.split inner.length).1 some inner.within) ?_
  exact fun _ _ wrote => ⟨new, low, nvs, lvs, s, rs', inner, wrote⟩

theorem does_currentLoop {keyword : String} {Q : Loop → Assembler → Prop}
    (h : ∀ l, innermostLoop? b.control = some l → Q l (a.setBody b)) :
    Does (currentLoop keyword) (a.setBody b) Q := by
  unfold currentLoop
  refine does_bind (does_getBody ?_)
  split
  · exact does_pure (h _ ‹_›)
  · exact does_throw

/-- The control stack may change where that is of no account. -/
theorem Core.setControl {cs : List Control} (h : Core known legal c₀ N₀ L b N extra ws p)
    (same : ∀ {base fixed os d ls vs rs ws}, Opened N base fixed os d ls vs b.control rs ws →
      Opened N base fixed os d ls vs cs rs ws) :
    Core known legal c₀ N₀ L (b.setControl cs) N extra ws p := by
  obtain ⟨front, ls, split, front', kept, opened⟩ := h.frames.locals
  exact ⟨h.draft, h.wants, { h.frames with locals := ⟨front, ls, split, front', kept, same opened⟩ }, h.now,
    h.later.trans (.still rfl rfl (.refl _)), h.adds.still rfl rfl⟩

include h calm

theorem follows_breakLoop : Does breakLoop (a.setBody b) fun _ =>
    Follows known legal c₀ N₀ a b.captures L.touch := by
  have point := calm_point calm N.vars
  rw [point] at h
  unfold breakLoop
  refine does_bind (does_currentLoop fun l innermost => ?_)
  refine does_bind (does_mono (does_leaveLoop h calm.2.1 innermost) ?_)
  rintro _ _ ⟨new, low, nvs, lvs, s, rs', inner, code, lines, N', rfl, vars, fresh, caught, rounds, before,
    want, placed, h'⟩
  refine does_bind (does_emit (does_modifyBody ?_))
  have exit : calmPoint lvs ≤ N'.want l.exit.toNat := by
    rw [want, inner.want]
    exact Point.le_refl _
  have h'' := h'.goto (ℓ := a.line) rfl (usual_bounds _) inner.exit exit (calmPoint N.vars)
  refine ⟨_, N'.emit code.size (calmPoint N.vars), ws, rfl, rfl, ?_⟩
  rw [show L.touch.point (N'.emit code.size (calmPoint N.vars)).vars = calmPoint N.vars by
    rw [← point]; exact congrArg L.point vars]
  exact h''.setControl Opened.leaveInnermost

theorem follows_continueLoop : Does continueLoop (a.setBody b) fun _ =>
    Follows known legal c₀ N₀ a b.captures L.touch := by
  have point := calm_point calm N.vars
  rw [point] at h
  unfold continueLoop
  refine does_bind (does_currentLoop fun l innermost => ?_)
  refine does_bind (does_mono (does_leaveLoop h calm.2.1 innermost) ?_)
  rintro _ _ ⟨new, low, nvs, lvs, s, rs', inner, code, lines, N', rfl, vars, fresh, caught, rounds, before,
    want, placed, h'⟩
  refine does_emit ?_
  have next : N'.Behind l.next (calmPoint lvs) ((s, lvs.length) :: rs') := by
    obtain ⟨t, ht, hw, hr⟩ := inner.next
    rw [inner.rounds] at hr
    refine ⟨t, placed ▸ ht, (congrFun want _).trans hw, fun r mem => ?_⟩
    rw [before t (h.draft.flow.placed _ t ht).2.1]
    exact hr r mem
  have h'' := h'.gotoBack (ℓ := a.line) rfl (usual_bounds _) next (rounds.trans inner.rounds)
    (by simp [calmPoint, Point.height]) (calmPoint N.vars)
  refine ⟨_, N'.emit code.size (calmPoint N.vars), ws, rfl, rfl, ?_⟩
  rw [show L.touch.point (N'.emit code.size (calmPoint N.vars)).vars = calmPoint N.vars by
    rw [← point]; exact congrArg L.point vars]
  exact h''

/-! ## Results -/

omit h calm

theorem at?_bounds {vs : List (String × Nat)} {n : Nat} {v : String × Nat} (h : vs.reverse[n]? = some v)
    (temps : List Held) : Held.at? (temps ++ bounds vs) n = some (.bound v.1 v.2) := by
  have bound : n < (bounds vs).length := by
    simpa using (List.getElem?_eq_some_iff.mp h).1
  rw [Held.at?_append_of_lt temps bound]
  unfold Held.at? bounds
  rw [← List.map_reverse, List.getElem?_map, h]
  rfl

theorem Frames.variables_le (h : Frames L b N ws) : L.vars.length ≤ 256 := by
  obtain ⟨front, ls, split, -, kept, -⟩ := h.locals
  have := h.room
  rw [split, List.length_append, kept.length_eq] at this
  rw [← h.names, List.length_map]
  omega

theorem Frames.toNat_slot (h : Frames L b N ws) {n : Nat} {v : String × Nat}
    (found : N.vars.reverse[n]? = some v) : (UInt8.ofNat n).toNat = n := by
  have room := h.variables_le
  have bound := (List.getElem?_eq_some_iff.mp found).1
  have length := congrArg List.length h.names
  rw [List.length_map] at length
  rw [List.length_reverse] at bound
  rw [UInt8.toNat_ofNat', Nat.mod_eq_of_lt (by omega)]

theorem fits_getLocal {n : UInt8} {v : String × Nat} (found : N.vars.reverse[n.toNat]? = some v)
    (ok : legal n.toNat v.1) (temps : List Held) (r : Region) :
    Fits legal b.chunk b.captures.size ⟨temps ++ bounds N.vars, r⟩ (.getLocal n) := by
  constructor
  case slot =>
    intro m hm
    obtain rfl : m = n := by simpa [eq_comm] using hm
    exact ⟨v.1, v.2, at?_bounds found temps, ok⟩
  all_goals simp [Instruction.name?]

theorem fits_ret {c : Chunk} {width : Nat} {n : UInt8} (one : 1 ≤ n.toNat) (region : p.region = .none) :
    Fits legal c width p (.ret n) := by
  constructor
  case results =>
    rintro m ⟨⟩
    exact ⟨one, region⟩
  all_goals simp [Instruction.name?]

/-- What a function returns by itself: the receiver from an `init`, else its named results. -/
def Chunk.ReturnsLocal (c : Chunk) (n : Nat) (name : String) : Prop :=
  (c.kind = .init ∧ n = 0 ∧ name = "this") ∨
    ∃ i index, c.results[i]? = some index ∧ n = c.arity + 1 + i ∧ c.name? index = some name

/-- What an `init` stores ahead of its body: in the receiver, the parameters that are named like fields. -/
def Chunk.StoresLocal (c : Chunk) (fields : List String) (n : Nat) (name : String) : Prop :=
  (n = 0 ∧ name = "this") ∨
    ∃ i index, c.arguments[i]? = some index ∧ n = i + 1 ∧ c.name? index = some name ∧ name ∈ fields

/-- The current function follows the outline and has just returned, with all labels behind it. -/
def Returns (known : Array Chunk) (legal : Nat → String → Prop) (c₀ : Chunk) (N₀ : Notes) (a : Assembler)
    (captures : Array Capture) (L : Level) (a' : Assembler) : Prop :=
  ∃ b N ws, a' = a.setBody b ∧ b.captures = captures ∧ Core known legal c₀ N₀ L b N [] ws (L.point N.vars) ∧
    (∃ n, b.chunk.code.back? = some (.ret n)) ∧ ∀ l t, N.placed l = some t → t < b.chunk.code.size

/-- Variables are read one after the other. -/
theorem follows_loads (xs : List Nat) (slot : Nat → Nat)
    (h : Core known legal c₀ N₀ L b N [] ws (L.point N.vars))
    (started : L.started = true) (usual : L.Usual)
    (bound : ∀ x ∈ xs, ∃ v, N.vars.reverse[slot x]? = some v ∧ legal (slot x) v.1) :
    Does (xs.forM fun x => emit (.getLocal (UInt8.ofNat (slot x)))) (a.setBody b) fun _ =>
      Follows known legal c₀ N₀ a b.captures (L.pushes xs.length) := by
  induction xs generalizing L b N with
  | nil =>
    have same : L.pushes 0 = L := by
      rw [Level.pushes_zero, Level.touch, ← started]
    exact does_pure ⟨b, N, ws, rfl, rfl, same.symm ▸ h⟩
  | cons x xs ih =>
    obtain ⟨v, found, ok⟩ := bound x (.head _)
    have toNat := h.frames.toNat_slot found
    refine does_forM_cons (does_emit ?_)
    obtain ⟨N', vars, -, -, h'⟩ := h.simple (i := .getLocal (UInt8.ofNat (slot x))) (τ := [])
      (ℓ := a.line) rfl rfl rfl (by simp) rfl
      (fits_getLocal (toNat.symm ▸ found) (toNat.symm ▸ ok) _ _) usual (.inr rfl)
    have := ih h' rfl (Level.usual_pushes.mpr usual) fun y hy => vars ▸ bound y (.tail _ hy)
    change Does _ _ fun _ => Follows _ _ _ _ _ _ ((L.pushes 1).pushes xs.length) at this
    rwa [Level.pushes_pushes, Nat.add_comm] at this

include calm

theorem does_return {n : UInt8} {τ : List Held} {b' : Body} {N' : Notes} {ws' : List Nat}
    (h' : Core known legal c₀ N₀ (L.setTemps τ) b' N' [] ws' ((L.setTemps τ).point N'.vars))
    (one : 1 ≤ n.toNat) (length : τ.length = n.toNat) (values : ∀ e ∈ τ, e.isValue) :
    Does (emit (.ret n)) (a.setBody b') fun _ => Returns known legal c₀ N₀ a b'.captures L.touch := by
  refine does_emit ?_
  have h'' := h'.plain (i := .ret n) (ℓ := a.line) (τ := τ) (r := L.region) rfl
    rfl length values rfl (fits_ret one calm.2.2) ((calm.usual.setTemps values).point _) (.inr rfl)
  have point : L.touch.point N'.vars = ⟨List.replicate 0 .value ++ bounds N'.vars, L.region⟩ := by
    rw [Level.point, Level.touch, calm.1]
    rfl
  refine ⟨_, N'.emit b'.chunk.code.size ⟨List.replicate 0 .value ++ bounds N'.vars, L.region⟩, ws', rfl, rfl, ?_,
    ⟨n, Array.back?_push⟩, fun l t placed => ?_⟩
  · have h₃ := h''.setTemps L.temps
    rwa [← point] at h₃ ⊢
  · have := (h'.draft.flow.placed l t placed).2.1
    simp only [Body.emit, size_emit]
    omega

include h

theorem does_implicitReturn (ok : ∀ n name, b.chunk.ReturnsLocal n name → legal n name) : Does implicitReturn (a.setBody b) fun _ =>
    Returns known legal c₀ N₀ a b.captures L.touch := by
  unfold implicitReturn
  refine does_bind (does_getBody ?_)
  dsimp only
  split
  · rename_i init
    have receiver : L.kind.hasReceiver := by
      rw [← h.frames.kind, init]
      rfl
    refine does_bind (does_mono (follows_receiver h calm.usual receiver (ok _ _ (.inl ⟨init, rfl, rfl⟩))) ?_)
    rintro _ _ ⟨b', N', ws', rfl, captures, h'⟩
    exact captures ▸ does_return calm h' (by decide) (by rw [calm.1]; rfl) (by simp [calm.1, Held.isValue])
  · split
    · refine does_bind (does_mono (follows_emit (i := .null) (τ := []) (ρ := L.temps) h rfl rfl rfl (by simp) rfl
        (fits_open rfl (by rintro n ⟨⟩)) calm.usual (.inr rfl)) ?_)
      rintro _ _ ⟨b', N', ws', rfl, captures, h'⟩
      exact captures ▸ does_return calm h' (by decide) (by rw [calm.1]; rfl)
        (by simp [calm.1, Held.isValue])
    · rename_i some
      have fixed := h.frames.fixed
      have enough := h.frames.enough
      have room := h.frames.variables_le
      have some : 1 ≤ b.chunk.results.size := by
        rw [Array.isEmpty_iff_size_eq_zero] at some
        omega
      have toNat : (UInt8.ofNat b.chunk.results.size).toNat = b.chunk.results.size := by
        rw [UInt8.toNat_ofNat', Nat.mod_eq_of_lt (by omega)]
      have loads := follows_loads (a := a) (List.range b.chunk.results.size)
        (fun i => b.chunk.arity + 1 + i) h.touch rfl ⟨calm.usual.temps, calm.usual.region⟩ (by
          intro i hi
          have bound := List.mem_range.mp hi
          obtain ⟨v, found, named⟩ := h.frames.heads (b.chunk.arity + i) b.chunk.results[i] (by
            rw [Chunk.arity, Array.getElem?_append_right (by omega), Nat.add_sub_cancel_left]
            exact Array.getElem?_eq_getElem bound)
          rw [Nat.add_right_comm] at found
          exact ⟨v, found, ok _ _ (.inr ⟨i, _, Array.getElem?_eq_getElem bound, rfl, named⟩)⟩)
      rw [List.length_range] at loads
      refine does_bind (does_mono loads ?_)
      rintro _ _ ⟨b', N', ws', rfl, captures, h'⟩
      exact captures ▸ does_return calm (τ := List.replicate b.chunk.results.size Held.value ++ L.temps) h'
        (by omega) (by rw [calm.1, toNat]; simp) (by simp [calm.1, Held.isValue])

theorem follows_implicitReturn (ok : ∀ n name, b.chunk.ReturnsLocal n name → legal n name) : Does implicitReturn (a.setBody b) fun _ =>
    Follows known legal c₀ N₀ a b.captures L.touch := by
  refine does_mono (does_implicitReturn h calm ok) ?_
  rintro _ _ ⟨b', N', ws', rfl, captures, h', -⟩
  exact ⟨b', N', ws', rfl, captures, h'⟩

omit calm

/-- A parameter is stored in the field of the receiver that has its name. -/
theorem follows_storeOne {index : UInt16} {n : Nat} {v : String × Nat} (usual : L.Usual) (init : L.kind = .init)
    (this : legal 0 "this") (named : (b.chunk.name? index).isSome) (found : N.vars.reverse[n]? = some v)
    (ok : legal n v.1) :
    Does (do
      emit (.getLocal 0)
      emit (.getLocal (UInt8.ofNat n))
      emit (.setProperty index)
      emit .pop) (a.setBody b) fun _ a' => ∃ code lines N' ws',
        a' = a.setBody (b.setChunk { b.chunk with code, lines }) ∧
          Core known legal c₀ N₀ L.touch (b.setChunk { b.chunk with code, lines }) N' [] ws'
            (L.touch.point N'.vars) := by
  have toNat := h.frames.toNat_slot found
  have above (n : Nat) : (L.pushes n).Usual := Level.usual_pushes.mpr usual
  obtain ⟨N₁, vars, -, -, h₁⟩ := h.simple (i := .getLocal 0) (τ := [])
    (ℓ := a.line) rfl rfl rfl (by simp) rfl
    (fits_receiver h.frames (by rw [init]; rfl) this _ _) usual (.inr rfl)
  obtain ⟨N₂, -, -, -, h₂⟩ := h₁.simple (i := .getLocal (UInt8.ofNat n)) (τ := [])
    (ℓ := a.line) rfl rfl rfl (by simp) rfl
    (fits_getLocal (by rwa [toNat, vars]) (toNat.symm ▸ ok) _ _) (above 1) (.inr rfl)
  obtain ⟨N₃, -, -, -, h₃⟩ := h₂.simple (i := .setProperty index) (τ := [.value, .value])
    (ℓ := a.line) rfl rfl rfl (by simp [Held.isValue]) rfl
    (fits_open rfl fun m hm => by cases hm; exact named) (above 2) (.inr rfl)
  obtain ⟨N₄, -, -, -, h₄⟩ := h₃.simple (i := .pop) (τ := [.value]) (ℓ := a.line)
    rfl rfl rfl (by simp [Held.isValue]) rfl (fits_open rfl (by rintro n ⟨⟩)) (above 1)
    (.inr rfl)
  refine does_bind (does_emit (does_bind (does_emit (does_bind (does_emit (does_emit ?_))))))
  exact ⟨_, _, N₄, ws, rfl, h₄⟩

theorem follows_storeMatching {fields : List String} (usual : L.Usual) (init : L.kind = .init)
    (ok : ∀ n name, b.chunk.StoresLocal fields n name → legal n name) :
    Does (storeMatching fields) (a.setBody b) fun _ =>
      Follows known legal c₀ N₀ a b.captures L.touch := by
  unfold storeMatching
  refine does_bind (does_getBody ?_)
  dsimp only
  let I (a' : Assembler) : Prop := ∃ code lines N' ws',
    a' = a.setBody (b.setChunk { b.chunk with code, lines }) ∧
      Core known legal c₀ N₀ L.touch (b.setChunk { b.chunk with code, lines }) N' [] ws'
        (L.touch.point N'.vars)
  refine does_mono (does_forM (I := I) ⟨b.chunk.code, b.chunk.lines, N, ws, rfl, h.touch⟩ ?_) ?_
  · rintro ⟨index, i⟩ mem _ ⟨code, lines, N', ws', rfl, h'⟩
    have argument : b.chunk.arguments[i]? = some index := by
      have := List.mem_zipIdx_iff_getElem?.mp mem
      simpa using this
    dsimp only
    split
    · rename_i name named
      split
      · rename_i listed
        obtain ⟨v, found, named'⟩ := h'.frames.heads i index
          ((Array.getElem?_append_left (Array.getElem?_eq_some_iff.mp argument).1).trans argument)
        obtain rfl : name = v.1 := Option.some_inj.mp (named.symm.trans named')
        exact follows_storeOne h' ⟨usual.temps, usual.region⟩ init (ok _ _ (.inl ⟨rfl, rfl⟩)) (Option.isSome_iff_exists.mpr ⟨_, named⟩) found
          (ok _ _ (.inr ⟨i, index, argument, rfl, named, by simpa using listed⟩))
      · exact does_pure ⟨code, lines, N', ws', rfl, h'⟩
    · exact does_pure ⟨code, lines, N', ws', rfl, h'⟩
  · rintro _ _ ⟨code, lines, N', ws', rfl, h'⟩
    exact ⟨_, N', ws', rfl, rfl, h'⟩

end Leaving

end ScriptEngine
