import ScriptEngine.Proofs.Leaving

/-!
# Branches and loops

A directive that opens a construct makes the labels that it waits for, and the
point that each of them wants is settled then. The directives that divide and
close it place them where this is so.
-/
namespace ScriptEngine

open Assembler Outline

section Turn
variable {known : Array Chunk} {legal : Nat → String → Prop} {c₀ : Chunk} {N₀ : Notes} {L : Level} {b : Body}
  {N : Notes} {extra : List (Nat × Point)} {ws : List Nat} {p q : Point} {i : Instruction}
  {ℓ : UInt32} {a : Assembler} {name : String}

/-- Constructs open and close, and labels go to the control stack or come from it. -/
theorem Core.turn (h : Core known legal c₀ N₀ L b N extra ws p) (os : List Opening) (cs : List Control)
    (extra' : List (Nat × Point)) (ws' : List Nat)
    (opened : ∀ {ls}, Opened N L.base L.fixed L.opens b.depth ls N.vars b.control
        (N.rounds b.chunk.code.size) ws →
      Opened N L.base L.fixed os b.depth ls N.vars cs (N.rounds b.chunk.code.size) ws')
    (perm : (extra.map Prod.fst ++ ws).Perm (extra'.map Prod.fst ++ ws'))
    (wants : ∀ e ∈ extra', N.want e.1 = e.2) :
    Core known legal c₀ N₀ (L.setOpens os) (b.setControl cs) N extra' ws' p := by
  obtain ⟨front, ls, split, front', kept, opened'⟩ := h.frames.locals
  exact ⟨h.draft.perm perm, wants,
    { h.frames with locals := ⟨front, ls, split, front', kept, opened opened'⟩, start := nofun }, h.now,
    h.later.trans (.still rfl rfl (.refl _)), h.adds.still rfl rfl⟩

theorem toNat_label {n : Nat} (room : n < 65536) : (UInt16.ofNat n).toNat = n := by
  rw [UInt16.toNat_ofNat', Nat.mod_eq_of_lt room]

theorem does_label {Q : UInt16 → Assembler → Prop}
    (h : Core known legal c₀ N₀ L b N extra ws p) (started : L.started = true) (q : Point)
    (then_ : ∀ label, Core known legal c₀ N₀ L (b.setChunk (b.chunk.addLabel name))
        (N.newLabel label.toNat q) ((label.toNat, q) :: extra) ws p →
      Q label (a.setBody (b.setChunk (b.chunk.addLabel name)))) :
    Does (newLabel name) (a.setBody b) Q := by
  refine does_newLabel fun room => then_ _ ?_
  rw [toNat_label room]
  exact h.newLabel started name q

theorem point_cons {e : Held} {rest : List Held} {vs : List (String × Nat)} (temps : L.temps = e :: rest) :
    L.point vs = ⟨e :: (rest ++ bounds vs), L.region⟩ := by
  rw [Level.point, temps]
  rfl

theorem Core.popValue {e : Held} {rest : List Held} {r : Region}
    (h : Core known legal c₀ N₀ L b N extra ws ⟨e :: rest, r⟩) (started : L.started = true)
    (value : e.isValue) (usual : Point.Usual ⟨e :: rest, r⟩) :
    Core known legal c₀ N₀ L (b.emit .pop ℓ) (N.emit b.chunk.code.size ⟨rest, r⟩) extra ws ⟨rest, r⟩ :=
  h.plain (i := .pop) (τ := [e]) started rfl rfl (by simpa using value) rfl
    (fits_open rfl nofun) usual (.inr rfl)

variable (h : Core known legal c₀ N₀ L b N [] ws (L.point N.vars))
include h

/-! ## Short circuits -/

theorem follows_andThen {e : Held} {rest : List Held} (temps : L.temps = e :: rest) (value : e.isValue)
    (usual : L.Usual) :
    Does andThen (a.setBody b) fun _ => Follows known legal c₀ N₀ a b.captures
      { L.setTemps rest with opens := .short rest L.region :: L.opens } := by
  have here := usual.point N.vars
  rw [point_cons temps] at h here
  unfold andThen
  refine does_bind (does_label h.touch rfl ⟨.value :: (rest ++ bounds N.vars), L.region⟩
    fun label h' => ?_)
  refine does_bind (does_emit (does_bind (does_emit (does_pushControl ?_))))
  have h₁ := h'.gotoIfFalse (ℓ := a.line) rfl value here (List.mem_append_left _ (.head _))
    (h'.wants _ (.head _))
  have h₂ := (h₁.popValue (ℓ := a.line) rfl rfl (here.tail.cons rfl)).setTemps rest
  have h₃ := h₂.turn (.short rest L.region :: L.opens) _ [] _
    (fun opened => .short opened (h₂.wants _ (.head _))) (.refl _) (by simp)
  exact Follows.of h₃ rfl (by simp)

theorem follows_orElse {e : Held} {rest : List Held} (temps : L.temps = e :: rest) (value : e.isValue)
    (usual : L.Usual) :
    Does orElse (a.setBody b) fun _ => Follows known legal c₀ N₀ a b.captures
      { L.setTemps rest with opens := .short rest L.region :: L.opens } := by
  have here := usual.point N.vars
  rw [point_cons temps] at h here
  unfold orElse
  refine does_bind (does_label h.touch rfl ⟨.value :: (rest ++ bounds N.vars), L.region⟩
    fun right h' => ?_)
  refine does_bind (does_label h' rfl ⟨.value :: (rest ++ bounds N.vars), L.region⟩
    fun finish h'' => ?_)
  refine does_bind (does_emit (does_bind (does_emit (does_bind (does_placeLabel
    (does_bind (does_emit (does_pushControl ?_))))))))
  have h₁ := h''.gotoIfFalse (ℓ := a.line) rfl value here (List.mem_append_left _ (.tail _ (.head _)))
    (h''.wants _ (.tail _ (.head _)))
  have h₂ := h₁.goto (ℓ := a.line) rfl (here.tail.cons rfl) (List.mem_append_left _ (.head _))
    (by rw [h₁.wants _ (.head _)]; exact Point.le_refl _) ⟨.value :: (rest ++ bounds N.vars), L.region⟩
  have h₃ := (h₂.perm _ (.swap _ _ _)).placeLabel (Point.le_refl _)
  have h₄ := (h₃.popValue (ℓ := a.line) rfl rfl (here.tail.cons rfl)).setTemps rest
  have h₅ := h₄.turn (.short rest L.region :: L.opens) _ [] _
    (fun opened => .short opened (h₄.wants _ (.head _))) (.refl _) (by simp)
  exact Follows.of h₅ rfl (by simp)

omit h

theorem Opened.short_inv {base fixed d : Nat} {os : List Opening} {ls : List Local} {temps : List Held}
    {r : Region} {vs : List (String × Nat)} {cs : List Control} {rs : List Round}
    (h : Opened N base fixed (.short temps r :: os) d ls vs cs rs ws) :
    ∃ label cs' ws', cs = .join label :: cs' ∧ ws = label.toNat :: ws' ∧
      N.want label.toNat = ⟨.value :: (temps ++ bounds vs), r⟩ ∧
      ∀ {ls}, Opened N base fixed (.short temps r :: os) d ls vs cs rs ws →
        Opened N base fixed os d ls vs cs' rs ws' := by
  obtain _ | _ | _ | _ | ⟨rest, want⟩ := h
  refine ⟨_, _, _, rfl, rfl, want, fun h => ?_⟩
  cases h
  assumption

theorem Opened.alternative_inv {base fixed d : Nat} {os : List Opening} {ls : List Local}
    {vs : List (String × Nat)} {cs : List Control} {rs : List Round}
    (h : Opened N base fixed (.alternative :: os) d ls vs cs rs ws) :
    ∃ other finish cs' ws', cs = .branch other finish :: cs' ∧
      ws = other.toNat :: finish.toNat :: ws' ∧ N.want other.toNat = valuePoint vs ∧
      N.want finish.toNat = calmPoint vs ∧
      ∀ {ls}, Opened N base fixed (.alternative :: os) d ls vs cs rs ws →
        Opened N base fixed os d ls vs cs' rs ws' := by
  obtain _ | _ | _ | _ | _ | ⟨rest, fail, want⟩ := h
  refine ⟨_, _, _, _, rfl, rfl, fail, want, fun h => ?_⟩
  cases h
  assumption

theorem Opened.otherwise_inv {base fixed d : Nat} {os : List Opening} {ls : List Local}
    {vs : List (String × Nat)} {cs : List Control} {rs : List Round}
    (h : Opened N base fixed (.otherwise :: os) d ls vs cs rs ws) :
    ∃ finish cs' ws', cs = .join finish :: cs' ∧ ws = finish.toNat :: ws' ∧
      N.want finish.toNat = calmPoint vs ∧
      ∀ {ls}, Opened N base fixed (.otherwise :: os) d ls vs cs rs ws →
        Opened N base fixed os d ls vs cs' rs ws' := by
  obtain _ | _ | _ | _ | _ | _ | ⟨rest, want⟩ := h
  refine ⟨_, _, _, rfl, rfl, want, fun h => ?_⟩
  cases h
  assumption

theorem does_popJoin {Q : UInt16 → Assembler → Prop} {label : UInt16} {cs : List Control}
    (control : b.control = .join label :: cs) (h : Q label (a.setBody (b.setControl cs))) :
    Does popJoin (a.setBody b) Q := by
  unfold popJoin
  refine does_bind (does_popControl fun c cs' hc => ?_)
  rw [control] at hc
  cases hc
  exact does_pure h

include h

theorem follows_shortEnd {e : Held} {rest : List Held} {os : List Opening}
    (opens : L.opens = .short rest L.region :: os) (temps : L.temps = e :: rest) (value : e.isValue) :
    Does endJoin (a.setBody b) fun _ => Follows known legal c₀ N₀ a b.captures
      { L.setTemps (.value :: rest) with opens := os } := by
  rw [point_cons temps] at h
  obtain ⟨front, ls, -, -, -, opened⟩ := h.frames.locals
  rw [opens] at opened
  obtain ⟨label, cs, ws', control, waits, want, inner⟩ := opened.short_inv
  unfold endJoin
  refine does_bind (does_popJoin control (does_placeLabel ?_))
  have h₁ := h.turn os cs [(label.toNat, ⟨.value :: (rest ++ bounds N.vars), L.region⟩)] ws'
    (fun opened => inner (opens ▸ opened)) (by rw [waits]; exact .refl _) (by simpa using want)
  have h₂ := h₁.relabel (q := ⟨.value :: (rest ++ bounds N.vars), L.region⟩)
    ⟨rfl, .cons (.inr ⟨value, .inl rfl⟩) (List.forall₂_same.mpr fun _ _ => Held.le_refl _)⟩
  have h₃ := (h₂.placeLabel (Point.le_refl _)).setTemps (.value :: rest)
  exact Follows.of h₃ rfl (by simp)

/-! ## Alternatives -/

omit h in
theorem point_value {e : Held} {vs : List (String × Nat)} (temps : L.temps = [e])
    (region : L.region = .none) : L.point vs = ⟨e :: bounds vs, .none⟩ := by
  rw [Level.point, temps, region]
  rfl

theorem follows_branch {e : Held} (temps : L.temps = [e]) (value : e.isValue)
    (region : L.region = .none) :
    Does branch (a.setBody b) fun _ => Follows known legal c₀ N₀ a b.captures
      { L.setTemps [] with opens := .alternative :: L.opens } := by
  have point : (L.setTemps []).point N.vars = calmPoint N.vars := by
    rw [Level.point, show (L.setTemps []).region = .none from region]
    rfl
  rw [point_value temps region] at h
  unfold branch
  refine does_bind (does_label h.touch rfl (valuePoint N.vars) fun otherwise h' => ?_)
  refine does_bind (does_label h' rfl (calmPoint N.vars) fun finish h'' => ?_)
  refine does_bind (does_emit (does_bind (does_emit (does_pushControl ?_))))
  have h₁ := (h''.perm _ (.swap _ _ _)).gotoIfFalse (ℓ := a.line) rfl value ((usual_bounds _).cons value)
    (List.mem_append_left _ (.head _)) (h''.wants _ (.tail _ (.head _)))
  have h₂ := (h₁.popValue (ℓ := a.line) rfl rfl ((usual_bounds _).cons rfl)).setTemps []
  have h₃ := h₂.turn (.alternative :: L.opens) _ [] _
    (fun opened => .alternative opened (h₂.wants _ (.head _)) (h₂.wants _ (.tail _ (.head _))))
    (.refl _) (by simp)
  exact Follows.of h₃ point (by simp)

theorem follows_branchElse {os : List Opening} (calm : L.Calm) (opens : L.opens = .alternative :: os) :
    Does branchElse (a.setBody b) fun _ =>
      Follows known legal c₀ N₀ a b.captures (L.setOpens (.otherwise :: os)) := by
  have point := calm_point calm N.vars
  rw [point] at h
  obtain ⟨front, ls, -, -, -, opened⟩ := h.frames.locals
  rw [opens] at opened
  obtain ⟨other, finish, cs, ws', control, waits, fail, want, inner⟩ := opened.alternative_inv
  unfold branchElse
  refine does_bind (does_popControl fun c cs' hc => ?_)
  rw [control] at hc
  cases hc
  refine does_bind (does_emit (does_bind (does_placeLabel (does_bind (does_emit (does_pushControl ?_))))))
  have h₁ := h.turn os cs [(other.toNat, valuePoint N.vars), (finish.toNat, calmPoint N.vars)] ws'
    (fun opened => inner (opens ▸ opened)) (by rw [waits]; exact .refl _) (by simp [fail, want])
  have h₂ := h₁.goto (ℓ := a.line) rfl (usual_bounds _) (List.mem_append_left _ (.tail _ (.head _)))
    (by rw [h₁.wants _ (.tail _ (.head _))]; exact Point.le_refl _) (valuePoint N.vars)
  have h₃ := h₂.placeLabel (Point.le_refl _)
  have h₄ := h₃.popValue (ℓ := a.line) rfl rfl ((usual_bounds _).cons rfl)
  have h₅ := h₄.turn (.otherwise :: os) _ [] _
    (fun opened => .otherwise opened (h₄.wants _ (.head _))) (.refl _) (by simp)
  exact Follows.of h₅ point (by simp)

theorem follows_branchEnd {os : List Opening} (calm : L.Calm) (opens : L.opens = .otherwise :: os) :
    Does endJoin (a.setBody b) fun _ => Follows known legal c₀ N₀ a b.captures (L.setOpens os) := by
  have point := calm_point calm N.vars
  rw [point] at h
  obtain ⟨front, ls, -, -, -, opened⟩ := h.frames.locals
  rw [opens] at opened
  obtain ⟨finish, cs, ws', control, waits, want, inner⟩ := opened.otherwise_inv
  unfold endJoin
  refine does_bind (does_popJoin control (does_placeLabel ?_))
  have h₁ := h.turn os cs [(finish.toNat, calmPoint N.vars)] ws'
    (fun opened => inner (opens ▸ opened)) (by rw [waits]; exact .refl _) (by simpa using want)
  exact Follows.of (h₁.placeLabel (Point.le_refl _)) point (by simp)

/-! ## Loops -/

omit h

/-- What a loop that is open waits for and where it goes. -/
structure AtLoop (N : Notes) (phase : Phase) (l : Loop) (d : Nat) (vs : List (String × Nat))
    (rs : List Round) : Prop where
  depth : l.depth = d
  exit : N.want l.exit.toNat = calmPoint vs
  fail : ∀ f, l.fail = some f → N.want f.toNat = valuePoint vs
  body : phase.inHead → ∀ b, l.body = some b → N.want b.toNat = calmPoint vs
  untested : phase.untested → l.fail = none
  start : N.Behind l.start (calmPoint vs) rs
  next : N.Behind l.next (calmPoint vs) rs

theorem Opened.loop_inv {base fixed d : Nat} {phase : Phase} {os : List Opening} {ls : List Local}
    {vs : List (String × Nat)} {cs : List Control} {rs : List Round}
    (h : Opened N base fixed (.loop phase :: os) d ls vs cs rs ws) :
    ∃ l cs' s rs' ws', cs = .loop l :: cs' ∧ rs = (s, vs.length) :: rs' ∧
      ws = l.awaited phase ++ ws' ∧ AtLoop N phase l d vs rs ∧ Opened N base fixed os d ls vs cs' rs' ws' := by
  obtain _ | _ | _ | _ | _ | _ | _ | ⟨rest, depth, exit, fail, body, untested, start, next⟩ := h
  exact ⟨_, _, _, _, _, rfl, rfl, rfl, ⟨depth, exit, fail, body, untested, start, next⟩, rest⟩

/-- The loop that is open innermost of all. -/
theorem Core.loop {phase : Phase} {os : List Opening} (h : Core known legal c₀ N₀ L b N extra ws p)
    (opens : L.opens = .loop phase :: os) :
    ∃ l cs s rs ws', b.control = .loop l :: cs ∧ ws = l.awaited phase ++ ws' ∧
      N.rounds b.chunk.code.size = (s, N.vars.length) :: rs := by
  obtain ⟨front, ls, -, -, -, opened⟩ := h.frames.locals
  rw [opens] at opened
  obtain ⟨l, cs, s, rs, ws', control, rounds, waits, -, -⟩ := opened.loop_inv
  exact ⟨l, cs, s, rs, ws', control, waits, rounds⟩

theorem Core.atLoop {phase : Phase} {os : List Opening} {l : Loop} {cs : List Control}
    (h : Core known legal c₀ N₀ L b N extra ws p) (opens : L.opens = .loop phase :: os)
    (control : b.control = .loop l :: cs) :
    AtLoop N phase l b.depth N.vars (N.rounds b.chunk.code.size) := by
  obtain ⟨front, ls, -, -, -, opened⟩ := h.frames.locals
  rw [opens] at opened
  obtain ⟨l', cs', s, rs, ws', control', -, -, loop, -⟩ := opened.loop_inv
  rw [control] at control'
  cases control'
  exact loop

/-- A loop goes on to another phase. -/
theorem Core.reloop {phase : Phase} {os : List Opening} {l : Loop} {cs : List Control}
    (h : Core known legal c₀ N₀ L b N extra (l.awaited phase ++ ws) p) (phase' : Phase) (l' : Loop)
    (extra' : List (Nat × Point))
    (opens : L.opens = .loop phase :: os) (control : b.control = .loop l :: cs)
    (loop : AtLoop N phase' l' b.depth N.vars (N.rounds b.chunk.code.size))
    (perm : (extra.map Prod.fst ++ l.awaited phase).Perm (extra'.map Prod.fst ++ l'.awaited phase'))
    (wants : ∀ e ∈ extra', N.want e.1 = e.2) :
    Core known legal c₀ N₀ (L.setOpens (.loop phase' :: os)) (b.setControl (.loop l' :: cs)) N extra'
      (l'.awaited phase' ++ ws) p := by
  refine h.turn _ _ _ _ (fun {ls} opened => ?_) ?_ wants
  · rw [opens, control] at opened
    obtain ⟨l₁, cs₁, s, rs, ws₁, control₁, rounds, waits, -, rest⟩ := opened.loop_inv
    cases control₁
    rw [List.append_right_inj] at waits
    subst waits
    rw [rounds] at loop ⊢
    exact .loop rest loop.depth loop.exit loop.fail loop.body loop.untested loop.start loop.next
  · rw [← List.append_assoc, ← List.append_assoc]
    exact perm.append_right _

theorem Core.placeLabel' {label : UInt16} {want : Point}
    (h : Core known legal c₀ N₀ L b N ((label.toNat, want) :: extra) ws p) (le : want ≤ p) :
    (N.placeLabel label.toNat b.chunk.code.size).placed label.toNat = some b.chunk.code.size ∧
      (N.placeLabel label.toNat b.chunk.code.size).want label.toNat = want ∧
      Core known legal c₀ N₀ L (b.setChunk (b.chunk.placeLabel label))
        (N.placeLabel label.toNat b.chunk.code.size) extra ws p :=
  ⟨Function.update_self _ _ _, h.wants _ (.head _), h.placeLabel le⟩

include h

theorem follows_whileStart (calm : L.Calm) : Does whileStart (a.setBody b) fun _ =>
    Follows known legal c₀ N₀ a b.captures (L.setOpens (.loop .whileTest :: L.opens)) := by
  have point := calm_point calm N.vars
  rw [point] at h
  unfold whileStart
  refine does_bind (does_label h.touch rfl (calmPoint N.vars) fun start h₁ => ?_)
  refine does_bind (does_label h₁ rfl (valuePoint N.vars) fun fail h₂ => ?_)
  refine does_bind (does_label h₂ rfl (calmPoint N.vars) fun exit h₃ => ?_)
  refine does_bind (does_placeLabel (does_bind (does_getBody (does_pushControl ?_))))
  obtain ⟨placed, want, h₄⟩ := (h₃.perm ((start.toNat, calmPoint N.vars) ::
    [(exit.toNat, calmPoint N.vars), (fail.toNat, valuePoint N.vars)])
      (@List.perm_append_comm _ [_, _] _)).placeLabel' (Point.le_refl _)
  have h₅ := h₄.openLoop .whileTest { start, exit, next := start, fail := some fail, depth := b.depth } (.refl _) rfl
    (h₄.wants _ (.head _)) (by rintro f ⟨⟩; exact h₄.wants _ (.tail _ (.head _))) nofun nofun placed want rfl
  exact Follows.of h₅ point (by simp)

theorem follows_loopStart (calm : L.Calm) : Does loopStart (a.setBody b) fun _ =>
    Follows known legal c₀ N₀ a b.captures (L.setOpens (.loop .endless :: L.opens)) := by
  have point := calm_point calm N.vars
  rw [point] at h
  unfold loopStart
  refine does_bind (does_label h.touch rfl (calmPoint N.vars) fun start h₁ => ?_)
  refine does_bind (does_label h₁ rfl (calmPoint N.vars) fun exit h₂ => ?_)
  refine does_bind (does_placeLabel (does_bind (does_getBody (does_pushControl ?_))))
  obtain ⟨placed, want, h₃⟩ := (h₂.perm _ (.swap _ _ _)).placeLabel' (Point.le_refl _)
  have h₄ := h₃.openLoop .endless { start, exit, next := start, depth := b.depth }
    (.refl _) rfl (h₃.wants _ (.head _)) nofun nofun (fun _ => rfl) placed want rfl
  exact Follows.of h₄ point (by simp)

theorem follows_forStart (calm : L.Calm) : Does forStart (a.setBody b) fun _ =>
    Follows known legal c₀ N₀ a b.captures (L.setOpens (.loop .forTest :: L.opens)) := by
  have point := calm_point calm N.vars
  rw [point] at h
  unfold forStart
  refine does_bind (does_label h.touch rfl (calmPoint N.vars) fun start h₁ => ?_)
  refine does_bind (does_label h₁ rfl (calmPoint N.vars) fun body h₂ => ?_)
  refine does_bind (does_label h₂ rfl (calmPoint N.vars) fun exit h₃ => ?_)
  refine does_bind (does_placeLabel (does_bind (does_getBody (does_pushControl ?_))))
  obtain ⟨placed, want, h₄⟩ := (h₃.perm ((start.toNat, calmPoint N.vars) ::
    [(exit.toNat, calmPoint N.vars), (body.toNat, calmPoint N.vars)])
      (@List.perm_append_comm _ [_, _] _)).placeLabel' (Point.le_refl _)
  have h₅ := h₄.openLoop .forTest { start, exit, next := start, body := some body, depth := b.depth } (.refl _) rfl
    (h₄.wants _ (.head _)) nofun (by rintro - f ⟨⟩; exact h₄.wants _ (.tail _ (.head _)))
    (fun _ => rfl) placed want rfl
  exact Follows.of h₅ point (by simp)

omit h

theorem awaited_inHead {l : Loop} {phase : Phase} (head : phase.inHead) :
    l.awaited phase =
      l.exit.toNat :: ((l.fail.map UInt16.toNat).toList ++ (l.body.map UInt16.toNat).toList) := by
  rw [Loop.awaited, if_pos head]

theorem awaited_of_not_inHead {l : Loop} {phase : Phase} (head : phase.inHead = false) :
    l.awaited phase = l.exit.toNat :: (l.fail.map UInt16.toNat).toList := by
  rw [Loop.awaited, if_neg (by simp [head]), List.append_nil]

theorem does_popThis {Q : Loop → Assembler → Prop} {l : Loop} {cs : List Control}
    (control : b.control = .loop l :: cs) (h : Q l (a.setBody (b.setControl cs))) :
    Does popLoop (a.setBody b) Q := by
  refine does_popLoop fun l' cs' hc => ?_
  rw [control] at hc
  cases hc
  exact h

include h

theorem follows_whileBody {e : Held} {os : List Opening} (temps : L.temps = [e]) (value : e.isValue)
    (region : L.region = .none) (opens : L.opens = .loop .whileTest :: os) :
    Does whileBody (a.setBody b) fun _ => Follows known legal c₀ N₀ a b.captures
      { L.setTemps [] with opens := .loop .whileRun :: os } := by
  have point : (L.setTemps []).point N.vars = calmPoint N.vars := by
    rw [Level.point, show (L.setTemps []).region = .none from region]
    rfl
  rw [point_value temps region] at h
  obtain ⟨l, cs, s, rs, ws, control, rfl, -⟩ := h.loop opens
  have loop := h.atLoop opens control
  unfold whileBody
  refine does_bind (does_popThis control ?_)
  split
  · rename_i fail hfail
    refine does_bind (does_emit (does_bind (does_emit (does_pushControl ?_))))
    have h₁ := h.touch.gotoIfFalse (ℓ := a.line) rfl value ((usual_bounds _).cons value)
      (by simp [Loop.awaited, hfail]) (loop.fail fail hfail)
    have h₂ := (h₁.popValue (ℓ := a.line) rfl rfl ((usual_bounds _).cons rfl)).setTemps []
    have loop' := h₂.atLoop opens control
    have h₃ := h₂.reloop .whileRun l [] opens control
      ⟨loop'.depth, loop'.exit, loop'.fail, by rintro ⟨⟩, by rintro ⟨⟩, loop'.start, loop'.next⟩ (.refl _) (by simp)
    simp only [emit_setControl, setControl_setControl]
    exact Follows.of h₃ point (by simp)
  · exact does_throw

theorem follows_forCondition {e : Held} {os : List Opening} (temps : L.temps = [e]) (value : e.isValue)
    (region : L.region = .none) (opens : L.opens = .loop .forTest :: os) :
    Does forCondition (a.setBody b) fun _ => Follows known legal c₀ N₀ a b.captures
      { L.setTemps [] with opens := .loop .forTested :: os } := by
  have point : (L.setTemps []).point N.vars = calmPoint N.vars := by
    rw [Level.point, show (L.setTemps []).region = .none from region]
    rfl
  rw [point_value temps region] at h
  obtain ⟨l, cs, s, rs, ws, control, rfl, -⟩ := h.loop opens
  unfold forCondition
  refine does_bind (does_popThis control ?_)
  refine does_bind (does_newLabel fun room => does_bind (does_emit (does_bind (does_emit
    (does_pushControl ?_)))))
  have h₁ := h.touch.newLabel rfl "for_fail" (valuePoint N.vars)
  have toNat : (UInt16.ofNat b.chunk.labels.size).toNat = b.chunk.labels.size := toNat_label room
  rw [← toNat] at h₁
  have h₂ := h₁.gotoIfFalse (ℓ := a.line) rfl value ((usual_bounds _).cons value) (List.mem_append_left _ (.head _))
    (h₁.wants _ (.head _))
  have h₃ := (h₂.popValue (ℓ := a.line) rfl rfl ((usual_bounds _).cons rfl)).setTemps []
  have loop := h₃.atLoop opens control
  have fail := loop.untested rfl
  have h₄ := h₃.reloop .forTested { l with fail := some (.ofNat b.chunk.labels.size) } [] opens control
    ⟨loop.depth, loop.exit, by rintro f ⟨⟩; exact h₃.wants _ (.head _), loop.body, by rintro ⟨⟩, loop.start,
      loop.next⟩ (by simpa [Loop.awaited, fail, Phase.inHead] using .swap _ _ _) (by simp)
  simp only [emit_setControl, setChunk_setControl, setControl_setControl, chunk_setControl]
  exact Follows.of h₄ point (by simp)

theorem follows_forStep {phase : Phase} {os : List Opening} (calm : L.Calm)
    (opens : L.opens = .loop phase :: os) (reached : phase = .forTest ∨ phase = .forTested) :
    Does forStep (a.setBody b) fun _ =>
      Follows known legal c₀ N₀ a b.captures (L.setOpens (.loop .forStep :: os)) := by
  have point := calm_point calm N.vars
  rw [point] at h
  have head : phase.inHead := by rcases reached with rfl | rfl <;> rfl
  obtain ⟨l, cs, s, rs, ws, control, rfl, rounds⟩ := h.loop opens
  have loop := h.atLoop opens control
  unfold forStep
  refine does_bind (does_popThis control ?_)
  split
  · rename_i body hbody
    refine does_bind (does_emit (does_bind (does_newLabel fun room => does_bind (does_placeLabel
      (does_pushControl ?_)))))
    have mem : body.toNat ∈ ([] : List (Nat × Point)).map Prod.fst ++ (l.awaited phase ++ ws) := by
      simp [Loop.awaited, hbody, head]
    have h₁ := h.touch.goto (ℓ := a.line) rfl (usual_bounds _) mem
      (by rw [loop.body head body hbody]; exact Point.le_refl _) (calmPoint N.vars)
    have h₂ := h₁.newLabel rfl "for_step" (calmPoint N.vars)
    have toNat : (UInt16.ofNat (b.emit (.goto body) a.line).chunk.labels.size).toNat =
        (b.emit (.goto body) a.line).chunk.labels.size := toNat_label room
    rw [← toNat] at h₂
    obtain ⟨placed, want, h₃⟩ := h₂.placeLabel' (Point.le_refl _)
    have loop' := h₃.atLoop opens control
    have h₄ := h₃.reloop .forStep { l with next := .ofNat (b.emit (.goto body) a.line).chunk.labels.size } []
      opens control
      ⟨loop'.depth, loop'.exit, loop'.fail, fun _ => loop'.body head, by rintro ⟨⟩, loop'.start,
        ⟨_, placed, want, fun r hr => hr⟩⟩
      (by rw [awaited_inHead head, awaited_inHead rfl]) (by simp)
    simp only [emit_setControl, setChunk_setControl, setControl_setControl, chunk_setControl]
    exact Follows.of h₄ point (by simp)
  · exact does_throw

theorem follows_forStepEnd {e : Held} {os : List Opening} (temps : L.temps = [e]) (value : e.isValue)
    (region : L.region = .none) (opens : L.opens = .loop .forStep :: os) :
    Does forStepEnd (a.setBody b) fun _ => Follows known legal c₀ N₀ a b.captures
      { L.setTemps [] with opens := .loop .forStepped :: os } := by
  have point : (L.setTemps []).point N.vars = calmPoint N.vars := by
    rw [Level.point, show (L.setTemps []).region = .none from region]
    rfl
  rw [point_value temps region] at h
  obtain ⟨l, cs, s, rs, ws, control, rfl, rounds⟩ := h.loop opens
  unfold forStepEnd
  refine does_bind (does_popThis control ?_)
  refine does_bind (does_emit (does_bind (does_emit (does_pushControl ?_))))
  have h₁ := (h.touch.popValue (ℓ := a.line) rfl value ((usual_bounds _).cons value)).setTemps []
  have loop := h₁.atLoop opens control
  have here : (N.emit b.chunk.code.size ⟨bounds N.vars, .none⟩).rounds
      (b.emit .pop a.line).chunk.code.size = (s, N.vars.length) :: rs := by
    rw [← rounds]
    simp [Body.emit]
  have start := loop.start
  rw [here] at start
  have h₂ := h₁.gotoBack (ℓ := a.line) rfl (usual_bounds _) start here (by simp [Point.height]) (calmPoint N.vars)
  have loop' := h₂.atLoop opens control
  have h₃ := h₂.reloop .forStepped l [] opens control
    ⟨loop'.depth, loop'.exit, loop'.fail, fun _ => loop'.body rfl, by rintro ⟨⟩, loop'.start, loop'.next⟩
    (by simp [Loop.awaited, Phase.inHead]) (by simp)
  simp only [emit_setControl, setControl_setControl]
  exact Follows.of h₃ point (by simp)

theorem follows_forBody {phase : Phase} {os : List Opening} (calm : L.Calm)
    (opens : L.opens = .loop phase :: os)
    (reached : phase = .forTest ∨ phase = .forTested ∨ phase = .forStepped) :
    Does forBody (a.setBody b) fun _ =>
      Follows known legal c₀ N₀ a b.captures (L.setOpens (.loop .forRun :: os)) := by
  have point := calm_point calm N.vars
  rw [point] at h
  have head : phase.inHead := by rcases reached with rfl | rfl | rfl <;> rfl
  obtain ⟨l, cs, s, rs, ws, control, rfl, rounds⟩ := h.loop opens
  have loop := h.atLoop opens control
  unfold forBody
  refine does_bind (does_popThis control ?_)
  split
  · rename_i body hbody
    refine does_bind (does_placeLabel (does_pushControl ?_))
    have h₁ := h.reloop .forRun l [(body.toNat, calmPoint N.vars)] opens
      control ⟨loop.depth, loop.exit, loop.fail, nofun, nofun, loop.start, loop.next⟩
      (by
        rw [awaited_inHead head, awaited_of_not_inHead rfl, hbody]
        exact @List.perm_append_comm _ (l.exit.toNat :: _) [body.toNat])
      (by simpa using loop.body head body hbody)
    have h₂ := h₁.placeLabel (Point.le_refl _)
    simp only [setChunk_setControl, setControl_setControl, chunk_setControl] at h₂ ⊢
    exact Follows.of h₂ point (by simp)
  · exact does_throw

omit h in
/-- Where a failing condition goes, the condition is dropped. -/
theorem does_placeFail {l : Loop}
    (h : Core known legal c₀ N₀ L b N ((l.exit.toNat, calmPoint N.vars) ::
      (l.fail.map fun f => (f.toNat, valuePoint N.vars)).toList) ws p) (started : L.started = true)
    (behind : p = if l.fail = none then calmPoint N.vars else valuePoint N.vars) :
    Does (placeFail l) (a.setBody b) fun _ a' => ∃ b' N', a' = a.setBody b' ∧
      b'.captures = b.captures ∧ N'.vars = N.vars ∧
      Core known legal c₀ N₀ L b' N' [(l.exit.toNat, calmPoint N.vars)] ws (calmPoint N.vars) := by
  unfold placeFail
  split
  · rename_i fail hfail
    rw [hfail] at h behind
    rw [if_neg nofun] at behind
    subst behind
    refine does_bind (does_placeLabel (does_emit ?_))
    have h₁ := (h.perm _ (.swap _ _ _)).placeLabel (Point.le_refl _)
    have h₂ := h₁.popValue (ℓ := a.line) started rfl ((usual_bounds _).cons rfl)
    exact ⟨_, _, rfl, by simp, by rfl, h₂⟩
  · rename_i hfail
    rw [hfail] at h behind
    rw [if_pos rfl] at behind
    subst behind
    exact does_pure ⟨b, N, rfl, rfl, rfl, h⟩

/-- What is behind a loop that has been left. -/
theorem follows_endLoop {phase : Phase} {os : List Opening} (calm : L.Calm)
    (opens : L.opens = .loop phase :: os) (head : phase.inHead = false) :
    Does endLoop (a.setBody b) fun _ => Follows known legal c₀ N₀ a b.captures (L.setOpens os) := by
  have point := calm_point calm N.vars
  rw [point] at h
  obtain ⟨l, cs, s, rs, ws, control, rfl, rounds⟩ := h.loop opens
  have next := (h.atLoop opens control).next
  rw [rounds] at next
  unfold endLoop
  refine does_bind (does_popThis control (does_bind (does_emit ?_)))
  have h₁ := h.touch.gotoBack (ℓ := a.line) rfl (usual_bounds _) next rounds (by simp [Point.height, calmPoint])
    (if l.fail = none then calmPoint N.vars else valuePoint N.vars)
  obtain ⟨N', ws', h₂, vars⟩ := h₁.closeLoop rfl opens control head
  change N'.vars = N.vars at vars
  rw [show (N.emit _ _).vars = N'.vars from vars.symm] at h₂
  rw [emit_setControl]
  refine does_bind (does_mono (does_placeFail h₂ rfl (by rw [vars])) ?_)
  rintro _ _ ⟨b', N'', rfl, captures, vars', h₃⟩
  refine does_placeLabel ?_
  exact Follows.of (h₃.placeLabel (Point.le_refl _)) (by
    change L.point N''.vars = _
    rw [vars', vars, point]) (by simp [captures])

theorem follows_loopEnd {os : List Opening} (calm : L.Calm) (opens : L.opens = .loop .endless :: os) :
    Does loopEnd (a.setBody b) fun _ => Follows known legal c₀ N₀ a b.captures (L.setOpens os) := by
  have point := calm_point calm N.vars
  rw [point] at h
  obtain ⟨l, cs, s, rs, ws, control, rfl, rounds⟩ := h.loop opens
  have loop := h.atLoop opens control
  have next := loop.next
  rw [rounds] at next
  unfold loopEnd
  refine does_bind (does_popThis control ?_)
  split
  · refine does_bind (does_emit (does_placeLabel ?_))
    have h₁ := h.touch.gotoBack (ℓ := a.line) rfl (usual_bounds _) next rounds (by simp [Point.height, calmPoint])
      (calmPoint N.vars)
    obtain ⟨N', ws', h₂, vars⟩ := h₁.closeLoop rfl opens control rfl
    rw [loop.untested rfl] at h₂
    have h₃ := h₂.placeLabel (Point.le_refl _)
    rw [emit_setControl]
    exact Follows.of h₃ (by
      change L.point N'.vars = _
      rw [vars]
      exact point) (by simp)
  · exact does_bind does_throw

end Turn

end ScriptEngine
