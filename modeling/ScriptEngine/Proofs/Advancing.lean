import ScriptEngine.Proofs.Stepping

/-!
# A step of a run

A run stands on a floor, where the call that it is for began. `Upright` says how the
frames above the floor stand, the innermost at whatever point; every instruction leaves
them upright, or what the call was to leave, or a suspended tower of frames. If it
fails, the floor is as it was.
-/
namespace ScriptEngine

open Run

/-- What lies on top where the next instruction needs it to be of a kind. -/
structure Tops (h : Heap) (f : Frame) (p : Point) (stack : Array Value) : Prop where
  closure : ∀ j, .closure j ∈ p.held → ∃ r, stack.back? = some (.closure r) ∧
    (h.closure r).chunk = ⟨(h.closure f.closure).chunk.script, j⟩
  counted : ∀ s, p.region = .counted s → ∃ (k : Nat) (below : Array Value), below.size = f.base + s + k ∧
    ((p.held.head? = some .count ∧ stack = below.push (.ofNat k)) ∨
      ∃ c, p.held.head? = some (.byte c) ∧ stack = (below.push (.ofNat k)).push (.ofNat c.toNat))

/-- A frame in the midst of its code, and what waits for it. -/
structure Stance (h : Heap) (b : Nat) (ms : List Nat) (f : Frame) (fs : List Frame) (s : Script) (c : Chunk) (N : Notes)
    (entry : List Nat) : Prop where
  stand : Stand h f s c N
  above : b ≤ f.base
  low : Low entry f.base
  marked : ms <:+ entry
  rest : ∀ size, f.Returns entry size → Tower h b ms fs size entry

/-- Frames of which the innermost stands at any point of its code. -/
def Upright (h : Heap) (stack : Array Value) (b : Nat) (ms : List Nat) : List Frame → List Nat → Prop
  | [], marks => Tower h b ms [] stack.size marks
  | f :: fs, marks => ∃ s c N entry, Stance h b ms f fs s c N entry ∧
      Spans f.base (N.point f.ip) entry stack.size marks ∧ Tops h f (N.point f.ip) stack

section

variable {h h' : Heap} {f : Frame} {fs gs : List Frame} {s : Script} {c : Chunk} {N : Notes} {b size size' o : Nat}
  {ms marks entry : List Nat} {stack : Array Value} {p q : Point} {i : Instruction} {known : Array Chunk}

/-! ## Calm points -/

theorem Point.Calm.mono (calm : q.Calm) (le : q ≤ p) : p.Calm where
  closure j mem := calm.closure j (Held.closure_mem_of_le le.2 mem)
  counted s region := calm.counted s (le.1.trans region)

theorem Point.Calm.tops (calm : p.Calm) : Tops h f p stack where
  closure j mem := absurd mem (calm.closure j)
  counted s region := absurd region (calm.counted s)

theorem Suits.calm (suits : Suits p i) (other : i.isHanded = false) (open_ : ∀ s, p.region ≠ .counted s) : p.Calm :=
  ⟨suits.no_closure other, open_⟩

/-- Instructions after which the next one needs nothing of a kind. -/
def Instruction.leavesCalm : Instruction → Bool
  | closure _ | multiVarEnd => false
  | _ => true

theorem Effect.calm (effect : Effect known c i p q) (calm : p.Calm) (other : i.leavesCalm) : q.Calm := by
  cases effect with
  | plain =>
    refine ⟨fun j mem => ?_, calm.counted⟩
    rcases List.mem_append.mp mem with mem | mem
    · cases List.eq_of_mem_replicate mem
    · exact calm.closure j (List.mem_append_right _ mem)
  | byte => exact ⟨fun j mem => calm.closure j (by simpa using mem), calm.counted⟩
  | drop | close => exact ⟨fun j mem => calm.closure j (.tail _ mem), calm.counted⟩
  | closure | special | finish => cases other
  | capture => exact calm
  | chain | set => exact absurd (.head _) (calm.closure _)
  | start => exact ⟨calm.closure, nofun⟩
  | validate => exact absurd rfl (calm.counted _)

/-! ## From point to point -/

theorem Spans.le_point (spans : Spans f.base q entry size marks) (le : q ≤ p) : Spans f.base p entry size marks := by
  have height := Point.height_eq le
  unfold Spans at spans ⊢
  rwa [← le.1, ← height]

/-- So many entries are replaced. -/
theorem Spans.replace {τ σ ρ : List Held} {r : Region} (spans : Spans f.base ⟨τ ++ ρ, r⟩ entry size marks)
    (same : size' + τ.length = size + σ.length) : Spans f.base ⟨σ ++ ρ, r⟩ entry size' marks := by
  unfold Spans Point.height at spans ⊢
  dsimp only at spans ⊢
  rw [List.length_append] at spans ⊢
  split
  all_goals
    obtain ⟨marks, size⟩ := spans
    exact ⟨marks, by omega⟩

/-- Marks are not above what is left once the top is taken. -/
theorem Spans.low {τ ρ : List Held} {r : Region} {base : Nat} (spans : Spans f.base ⟨τ ++ ρ, r⟩ entry size marks)
    (low : Low entry f.base) (based : ∀ k, r.start? = some k → k ≤ ρ.length) (same : size = base + τ.length) :
    Low marks base := by
  have le := spans.le
  unfold Point.height at le
  rw [List.length_append] at le
  unfold Spans at spans
  cases r with
  | none => exact spans.1 ▸ low.mono (by omega)
  | counted k => exact spans.1 ▸ low.mono (by omega)
  | opened k =>
    have := based k rfl
    intro m head
    rw [spans.1] at head
    cases head
    omega

/-- What a call leaves in the place of what it takes. -/
theorem Spans.receive {τ ρ : List Held} {r : Region} {base : Nat} (spans : Spans f.base ⟨τ ++ ρ, r⟩ entry size marks)
    (low : Low entry f.base) (bottom : 0 < ρ.length) (open_ : ∀ k, r ≠ .counted k) (same : size = base + τ.length)
    (leaves : Leaves base marks size') : Spans f.base ⟨.value :: ρ, r⟩ entry size' marks := by
  unfold Spans Point.height at spans ⊢
  dsimp only at spans ⊢
  rw [List.length_append] at spans
  rw [List.length_cons]
  cases r with
  | counted k => exact absurd rfl (open_ k)
  | opened k =>
    dsimp only at spans ⊢
    have := leaves.lt
    exact ⟨spans.1, by omega⟩
  | none =>
    dsimp only at spans ⊢
    obtain ⟨rfl, size⟩ := spans
    rcases leaves with leaves | ⟨head, -⟩
    · exact ⟨rfl, by omega⟩
    · have := low base head
      omega

theorem Stance.goto {o : Nat} (stance : Stance h b ms f fs s c N entry) (reachable : N.layout.Reachable c o)
    (wider : h.Wider h') : Stance h' b ms { f with ip := o } fs s c N entry where
  stand :=
    let stand := stance.stand.wider wider
    ⟨stand.closure, stand.script, stand.chunk, stand.finished, stand.small, reachable⟩
  above := stance.above
  low := stance.low
  marked := stance.marked
  rest size returns := (stance.rest size returns).wider wider

theorem Stance.tower (stance : Stance h b ms f fs s c N entry) (spans : Spans f.base (N.point f.ip) entry size marks)
    (calm : (N.point f.ip).Calm) : Tower h b ms (f :: fs) size marks :=
  ⟨s, c, N, entry, stance.stand, spans, stance.above, stance.low, stance.marked, calm, stance.rest⟩

theorem Tower.upright (tower : Tower h b ms fs stack.size marks) : Upright h stack b ms fs marks := by
  cases fs with
  | nil => exact tower
  | cons f fs =>
    obtain ⟨s, c, N, entry, stand, spans, above, low, marked, calm, rest⟩ := tower
    exact ⟨s, c, N, entry, ⟨stand, above, low, marked, rest⟩, spans, calm.tops⟩

end

/-- What comes of an instruction: the frames that stand then, or what the call was to leave. Until then the outermost
frame is the one that it was. -/
def Footing.Goes (G : Footing) (F : Array Frame) (gs : List Frame) (b : Nat) (ms : List Nat) (n : Nat) (ctrl : Control)
    (w' : World) : Prop :=
  ∃ m fs marks, n ≤ m ∧ G.At (piled F fs) marks m w' ∧
    match ctrl with
    | .next => fs ≠ [] ∧ Upright w'.heap w'.machine.stack b ms fs marks ∧ origin fs = origin gs
    | .exit .returned => fs = [] ∧ Tower w'.heap b ms fs w'.machine.stack.size marks
    | .exit .yielded => fs ≠ [] ∧ Tower w'.heap b ms fs w'.machine.stack.size marks ∧ origin fs = origin gs

/-! ## What an instruction makes of a tower -/

section

variable {G : Footing} {F : Array Frame} {n m : Nat} {w w' : World} {x y : Reentry} {f : Frame} {fs gs : List Frame}
  {s : Script} {c : Chunk} {N : Notes} {b o : Nat} {ms marks M entry : List Nat} {p q : Point} {i : Instruction}

theorem Footing.At.wider {L : Array Frame} (h : G.At L M n w) : G.world.heap.Wider w.heap :=
    ⟨h.holds.scripts, h.holds.closures⟩

theorem goes_next (stance : Stance G.world.heap b ms f fs s c N entry) (le : n ≤ m)
    (h' : G.At ((piled F fs).push { f with ip := o }) marks m w') (reachable : N.layout.Reachable c o)
    (spans : Spans f.base (N.point o) entry w'.machine.stack.size marks)
    (tops : Tops w'.heap { f with ip := o } (N.point o) w'.machine.stack) : G.Goes F (f :: fs) b ms n .next w' := by
  rw [← piled_cons] at h'
  exact ⟨m, _, marks, le, h', List.cons_ne_nil _ _, ⟨s, c, N, entry, stance.goto reachable h'.wider, spans, tops⟩,
    origin_goto f o fs⟩

theorem goes_calm (stance : Stance G.world.heap b ms f fs s c N entry) (le : n ≤ m)
    (h' : G.At ((piled F fs).push { f with ip := o }) marks m w') (reachable : N.layout.Reachable c o)
    (spans : Spans f.base q entry w'.machine.stack.size marks) (point : q ≤ N.point o) (calm : q.Calm) :
    G.Goes F (f :: fs) b ms n .next w' :=
  goes_next stance le h' reachable (spans.le_point point) (calm.mono point).tops

/-- Some values have been taken and others left. -/
theorem goes_moved (stance : Stance G.world.heap b ms f fs s c N entry) (reachable : N.layout.Reachable c o)
    {τ σ ρ : List Held} {r : Region} (spans : Spans f.base ⟨τ ++ ρ, r⟩ entry w.machine.stack.size M)
    (point : ⟨σ ++ ρ, r⟩ ≤ N.point o) (calm : (N.point o).Calm)
    (moves : G.Moves ((piled F fs).push { f with ip := o }) M n w τ.length σ.length w') : G.Goes F (f :: fs) b ms n .next w' := by
  obtain ⟨m, le, h', size⟩ := moves
  exact goes_next stance le h' reachable ((spans.replace size).le_point point) calm.tops

/-- There is room for what an instruction takes. -/
theorem Stance.room {h : Heap} {size : Nat} {τ ρ : List Held} {r : Region} (stance : Stance h b ms f fs s c N entry)
    (floor : G.floor ≤ b) (spans : Spans f.base ⟨τ ++ ρ, r⟩ entry size M) : G.floor + τ.length ≤ size := by
  have room := spans.le
  have above := stance.above
  unfold Point.height at room
  rw [List.length_append] at room
  omega

/-- An instruction that goes straight on. -/
theorem Sturdy.goes_straight (sturdy : Sturdy x y) (stance : Stance G.world.heap b ms f fs s c N entry)
    (h : G.At ((piled F fs).push { f with ip := o }) M n w) (floor : G.floor ≤ b) (reachable : N.layout.Reachable c o)
    {τ ρ : List Held} {r : Region} {gives : Nat} (effect : i.effect = some (τ.length, gives)) (straight : i.isStraight)
    (spans : Spans f.base ⟨τ ++ ρ, r⟩ entry w.machine.stack.size M)
    (point : ⟨List.replicate gives .value ++ ρ, r⟩ ≤ N.point o) (calm : (N.point o).Calm) :
    Sure G (plain x i) (plain y i) w fun _ w' => G.Goes F (f :: fs) b ms n .next w' := by
  refine (sturdy.sure_straight h (by simp) (fun g back => ?_) effect straight (stance.room floor spans)).mono ?_
  · rw [Array.back?_push] at back
    cases back
    exact floor.trans stance.above
  · rintro _ w' moves
    refine goes_moved (σ := List.replicate gives .value) stance reachable spans point calm ?_
    rwa [List.length_replicate]

/-- A call: its frames stand on top, or it is over. -/
theorem goes_called (stance : Stance G.world.heap b ms f fs s c N entry) (reachable : N.layout.Reachable c o)
    {τ ρ : List Held} {r : Region} (spans : Spans f.base ⟨τ ++ ρ, r⟩ entry w.machine.stack.size M)
    (point : ⟨.value :: ρ, r⟩ ≤ N.point o) (calm : (N.point o).Calm) (bottom : 0 < ρ.length) {base : Nat}
    (size : w.machine.stack.size = base + τ.length)
    (calls : G.Calls ((piled F fs).push { f with ip := o }) M n base w') : G.Goes F (f :: fs) b ms n .next w' := by
  obtain ⟨m, gs, le, h', tower, -⟩ := calls
  rw [← piled_cons, ← piled_append] at h'
  have above : b ≤ base := by
    have := spans.le
    have := stance.above
    unfold Point.height at *
    rw [List.length_append] at *
    omega
  have marked : ms <:+ M := by
    unfold Spans at spans
    split at spans
    · exact spans.1 ▸ stance.marked
    · exact spans.1 ▸ stance.marked.trans (List.suffix_cons _ _)
    · exact spans.1 ▸ stance.marked
  have open_ (k : Nat) : r ≠ .counted k := fun same => calm.counted k (point.1.symm.trans same)
  have whole : Tower w'.heap b ms (gs ++ { f with ip := o } :: fs) w'.machine.stack.size M :=
    tower.append above marked fun size' leaves => (stance.goto reachable h'.wider).tower
      ((spans.receive stance.low bottom open_ size leaves).le_point point) calm
  exact ⟨m, _, M, le, h', by simp, whole.upright, (origin_append gs _ fs).trans (origin_goto f o fs)⟩

/-- An instruction that only lands at other code. -/
theorem goes_jump (stance : Stance G.world.heap b ms f fs s c N entry) {label : UInt16} {offset : Nat}
    (placed : c.labelOffset? label = some offset) (code : c.code[f.ip]? = some i) (target : i.target? = some label)
    (h' : G.At ((piled F fs).push { f with ip := offset }) marks n w') (calm : q.Calm)
    (point : q ≤ N.point (N.layout.place label.toNat)) (spans : Spans f.base q entry w'.machine.stack.size marks) :
    G.Goes F (f :: fs) b ms n .next w' := by
  have stand := stance.stand
  obtain ⟨-, at_⟩ := stand.finished.levels.label _ _ _ code target
  rw [at_ stand.small] at placed
  cases placed
  exact goes_calm stance (Nat.le_refl n) h' (.jump stand.reachable code target) spans point calm

/-! ## Ways out of the frame -/

theorem sure_popFrame {L : Array Frame} {Q : Frame → World → Prop} (h : G.At (L.push f) M n w)
    (below : G.frames <+: L.toList)
    (next : ∀ w', G.At L M n w' → w'.machine.stack = w.machine.stack → Q f w') : Sure G popFrame popFrame w Q := by
  have popped : G.At L M n { w with machine.frames := w.machine.frames.pop } := by
    have moved := h.onFrames (L := L) (S := M) below (h.marks ▸ h.holds.marks)
    rw [h.frames, Array.pop_push]
    convert moved using 2
    rw [← h.marks]
  refine sure_ok ?_ (next _ popped rfl)
  unfold popFrame
  rw [h.frames, Array.back?_push]

/-- The results of a frame are handed to what waits for them. -/
theorem sure_returnFrom {count : Nat} (stance : Stance G.world.heap b ms f fs s c N entry) (floor : G.floor ≤ b)
    (below : G.frames = F.toList) (h : G.At ((piled F fs).push { f with ip := o }) M n w) (some : 1 ≤ count)
    (spans : M = entry) (size : f.base + count ≤ w.machine.stack.size) :
    Sure G (returnFrom count F.size) (returnFrom count F.size) w (G.Goes F (f :: fs) b ms n) := by
  have above := stance.above
  have prefix_ : G.frames <+: (piled F fs).toList := by
    rw [below, toList_piled]
    exact List.prefix_append _ _
  subst spans
  refine sure_bind (sure_popMany h (by omega) fun results w₁ h₁ known length size₁ => ?_)
  refine sure_bind (sure_popFrame h₁ prefix_ fun w₂ h₂ stack₂ => ?_)
  dsimp only
  refine sure_bind ((sure_closeFrom h₂ f.base).mono fun _ w₃ ⟨h₃, stack₃⟩ => ?_)
  refine sure_bind (sure_truncate h₃ (by omega) fun w₄ h₄ size₄ => ?_)
  have size₄ : w₄.machine.stack.size = f.base := by
    rw [size₄, stack₃, stack₂]
    omega
  have handed {w₅ : World} (h₅ : G.At (piled F fs) M n w₅) (returns : f.Returns M w₅.machine.stack.size) :
      Sure G (do return if (← depth) ≤ F.size then Control.exit .returned else .next)
        (do return if (← depth) ≤ F.size then Control.exit .returned else .next) w₅ (G.Goes F (f :: fs) b ms n) := by
    refine sure_bind (sure_ok rfl (sure_pure ?_))
    rw [h₅.frames, size_piled]
    have tower := (stance.rest _ returns).wider h₅.wider
    cases fs with
    | nil =>
      rw [if_pos (by simp)]
      exact ⟨n, [], M, Nat.le_refl n, h₅, rfl, tower⟩
    | cons g fs =>
      rw [if_neg (by simp)]
      exact ⟨n, _, M, Nat.le_refl n, h₅, List.cons_ne_nil _ _, tower.upright, rfl⟩
  unfold Frame.Returns at handed
  refine sure_ite (fun kept => ?_) fun discarded => ?_
  · refine sure_bind (sure_pushResults h₄ known fun w₅ h₅ size₅ fits => handed h₅ ?_)
    have size₅ : w₅.machine.stack.size = f.base + results.length := by omega
    rw [if_neg (by simpa using kept)]
    rcases fits with one | head
    · exact .inl (by omega)
    · exact .inr ⟨head, by omega⟩
  · refine handed h₄ ?_
    rw [if_pos (by simpa using discarded)]
    exact size₄

theorem goes_yield (stance : Stance G.world.heap b ms f fs s c N entry) (reachable : N.layout.Reachable c o)
    (h : G.At ((piled F fs).push { f with ip := o }) M n w) (point : q ≤ N.point o) (calm : q.Calm)
    (spans : Spans f.base q entry w.machine.stack.size M) : Sure G yield yield w (G.Goes F (f :: fs) b ms n) := by
  refine sure_bind (sure_machine (sure_ite (fun _ => sure_pure ?_) fun _ => sure_refuse h.holds nofun))
  rw [← piled_cons] at h
  exact ⟨n, _, M, Nat.le_refl n, h, List.cons_ne_nil _ _,
    (stance.goto reachable h.wider).tower (spans.le_point point) (calm.mono point), origin_goto f o fs⟩

/-! ## Instructions that are for one kind of value -/

/-- Words that follow a closure are passed over. -/
theorem Finished.over_words (finished : Finished known c N) {k : Nat} (reachable : N.layout.Reachable c o)
    (point : q ≤ N.point o)
    (words : ∀ j < k, ∃ source, c.code[o + j]? = some (.capture source)) :
    N.layout.Reachable c (o + k) ∧ q ≤ N.point (o + k) := by
  induction k with
  | zero => exact ⟨reachable, point⟩
  | succ k ih =>
    obtain ⟨reachable, point⟩ := ih fun j hj => words j (by omega)
    obtain ⟨source, word⟩ := words k (Nat.lt_succ_self k)
    obtain ⟨p, effect, next, -⟩ := finished.effect word
    refine ⟨.next reachable word rfl, ?_⟩
    generalize N.point (o + k) = start at effect point
    cases effect with
    | plain effect => cases effect
    | capture => exact Point.le_trans point (next rfl)

theorem goes_closure (stance : Stance G.world.heap b ms f fs s c N entry) (floor : G.floor ≤ b)
    (below : G.frames <+: (piled F fs).toList) (heap : w.heap = G.world.heap)
    (h : G.At ((piled F fs).push { f with ip := o }) M n w) (reachable : N.layout.Reachable c o) {k : UInt16}
    {e : Held} {held : List Held} {r : Region} {j : Nat} {d : Chunk}
    (constant : c.constants[k.toNat]? = some (.chunk (.listed j)))
    (chunk : s.chunks[j]? = some d) (kind : e = .value ∨ e = .closure j) (others : ∀ i, .closure i ∉ held)
    (open_ : ∀ k, r ≠ .counted k) (spans : Spans f.base ⟨held, r⟩ entry w.machine.stack.size M)
    (point : ⟨e :: held, r⟩ ≤ N.point o) :
    Sure G (makeClosure k) (makeClosure k) w fun _ w' => G.Goes F (f :: fs) b ms n .next w' := by
  have stand := stance.stand
  have code : w.heap.code f.closure = c := heap ▸ stand.code
  have chunk : ∃ s d, w.heap.scripts[(w.heap.closure f.closure).chunk.script]? = some s ∧ s.chunks[j]? = some d :=
    ⟨s, d, heap ▸ stand.script, chunk⟩
  refine (sure_makeClosure h below (floor.trans stance.above) (by rwa [code]) chunk).mono ?_
  rintro _ w' ⟨k, h', words, stack, made⟩
  dsimp only at h' words made
  rw [code] at words
  obtain ⟨reachable, point⟩ := stand.finished.over_words reachable point words
  have size : w'.machine.stack.size = w.machine.stack.size + 1 := by rw [stack, Array.size_push]
  have same : w'.machine.stack.size + ([] : List Held).length = w.machine.stack.size + [e].length := size
  have spans' := Spans.replace (τ := []) (σ := [e]) spans same
  refine goes_next stance (Nat.le_succ n) h' reachable (spans'.le_point point) ⟨fun i mem => ?_, fun i region => ?_⟩
  · have mem := Held.closure_mem_of_le point.2 mem
    rcases List.mem_cons.mp mem with rfl | mem
    · obtain kind | kind := kind
      · cases kind
      · cases kind
        refine ⟨n, by rw [stack, Array.back?_push], made.trans ?_⟩
        dsimp only
        rw [heap, h'.wider.closure stand.closure]
    · exact absurd mem (others i)
  · exact absurd (point.1.trans region) (open_ i)

/-- The closure on top becomes an init chain. -/
theorem goes_chain (stance : Stance G.world.heap b ms f fs s c N entry) (floor : G.floor ≤ b)
    (heap : w.heap = G.world.heap)
    (h : G.At ((piled F fs).push { f with ip := o }) M n w) (reachable : N.layout.Reachable c o) {j : Nat} {d : Chunk}
    {e : Held} {rest : List Held} {r : Region} (chunk : s.chunks[j]? = some d) (arity : d.arity = 0)
    (spans : Spans f.base ⟨.closure j :: e :: rest, r⟩ entry w.machine.stack.size M)
    (tops : Tops G.world.heap f ⟨.closure j :: e :: rest, r⟩ w.machine.stack) (point : ⟨e :: rest, r⟩ ≤ N.point o)
    (calm : (N.point o).Calm) : Sure G addInitChain addInitChain w fun _ w' => G.Goes F (f :: fs) b ms n .next w' := by
  have spans : Spans f.base ⟨[.closure j] ++ e :: rest, r⟩ entry w.machine.stack.size M := spans
  refine (turns_addInitChain h (stance.room floor spans) fun ref top => ?_).moves.mono fun _ w' moves =>
    goes_moved (σ := []) stance reachable spans point calm moves
  obtain ⟨ref', top', made⟩ := tops.closure j (.head _)
  cases top.symm.trans top'
  unfold Heap.code Heap.chunk
  rw [heap, made]
  dsimp only
  rw [stance.stand.script]
  dsimp only
  rw [chunk]
  exact arity

/-! ## Regions for several results -/

theorem goes_start (stance : Stance G.world.heap b ms f fs s c N entry)
    (h : G.At ((piled F fs).push { f with ip := o }) M n w) (reachable : N.layout.Reachable c o) {held : List Held}
    (spans : Spans f.base ⟨held, .none⟩ entry w.machine.stack.size M) (point : ⟨held, .opened held.length⟩ ≤ N.point o)
    (calm : (N.point o).Calm) : Sure G beginSeveral beginSeveral w fun _ w' => G.Goes F (f :: fs) b ms n .next w' := by
  refine (sure_beginSeveral h).mono fun _ w' ⟨h', stack⟩ => ?_
  refine goes_next stance (Nat.le_refl n) h' reachable (Spans.le_point ?_ point) calm.tops
  obtain ⟨rfl, size⟩ := spans
  rw [stack, size]
  exact ⟨rfl, Nat.le_refl _⟩

theorem goes_finish (stance : Stance G.world.heap b ms f fs s c N entry) (within : G.marks <:+ ms)
    (h : G.At ((piled F fs).push { f with ip := o }) M n w) (reachable : N.layout.Reachable c o) {e : Held}
    {rest : List Held} (spans : Spans f.base ⟨e :: rest, .opened rest.length⟩ entry w.machine.stack.size M)
    (handed : ∀ j, .closure j ∉ e :: rest) (point : ⟨.count :: e :: rest, .counted rest.length⟩ ≤ N.point o) :
    Sure G endSeveral endSeveral w fun _ w' => G.Goes F (f :: fs) b ms n .next w' := by
  obtain ⟨rfl, size⟩ := spans
  refine (sure_endSeveral h (within.trans stance.marked)).mono fun _ w' ⟨h', stack⟩ => ?_
  have height : Point.height ⟨e :: rest, .opened rest.length⟩ = rest.length + 1 := rfl
  refine goes_next stance (Nat.le_refl n) h' reachable
    (Spans.le_point (q := ⟨.count :: e :: rest, .counted rest.length⟩) ?_ point)
    ⟨fun j mem => ?_, fun k region => ?_⟩
  · have height : Point.height ⟨.count :: e :: rest, .counted rest.length⟩ = rest.length + 2 := rfl
    rw [stack, Array.size_push]
    exact ⟨rfl, by omega⟩
  · rcases List.mem_cons.mp (Held.closure_mem_of_le point.2 mem) with mem | mem
    · cases mem
    · exact absurd mem (handed j)
  · cases point.1.trans region
    refine ⟨_, w.machine.stack, ?_, .inl ⟨?_, stack⟩⟩
    · dsimp only
      omega
    · obtain ⟨top, held, le, -, split⟩ := List.forall₂_cons_left_iff.mp point.2
      rw [split, Held.count_le le]
      rfl

theorem goes_expect (stance : Stance G.world.heap b ms f fs s c N entry)
    (h : G.At ((piled F fs).push { f with ip := o }) M n w) (reachable : N.layout.Reachable c o) {k : UInt8}
    {start : Nat}
    {held : List Held} (spans : Spans f.base ⟨.count :: held, .counted start⟩ entry w.machine.stack.size M)
    (tops : Tops G.world.heap f ⟨.count :: held, .counted start⟩ w.machine.stack) (handed : ∀ j, .closure j ∉ held)
    (point : ⟨.byte k :: .count :: held, .counted start⟩ ≤ N.point o) (top : (N.point o).held.head? = some (.byte k)) :
    Sure G (push (.ofNat k.toNat)) (push (.ofNat k.toNat)) w fun _ w' => G.Goes F (f :: fs) b ms n .next w' := by
  refine sure_ok (u := w.onStack (w.machine.stack.push (.ofNat k.toNat))) rfl ?_
  have h' := h.pushed (v := .ofNat k.toNat) (Value.within_of_isPlain rfl)
  obtain ⟨rfl, size⟩ := spans
  refine goes_next stance (Nat.le_refl n) h' reachable
    (Spans.le_point (q := ⟨.byte k :: .count :: held, .counted start⟩) ⟨rfl, ?_⟩ point)
    ⟨fun j mem => ?_, fun i region => ?_⟩
  · have height : Point.height ⟨.count :: held, .counted start⟩ = held.length + 1 := rfl
    have height' : Point.height ⟨.byte k :: .count :: held, .counted start⟩ = held.length + 2 := rfl
    have pushed : (w.onStack (w.machine.stack.push (.ofNat k.toNat))).machine.stack.size = w.machine.stack.size + 1 :=
      Array.size_push _
    omega
  · rcases List.mem_cons.mp (Held.closure_mem_of_le point.2 mem) with mem | mem
    · cases mem
    · rcases List.mem_cons.mp mem with mem | mem
      · cases mem
      · exact absurd mem (handed j)
  · cases point.1.trans region
    obtain ⟨count, below, size, ⟨-, stack⟩ | ⟨_, head, -⟩⟩ := tops.counted start rfl
    · exact ⟨count, below, size, .inr ⟨k, top, congrArg (fun st => st.push (.ofNat k.toNat)) stack⟩⟩
    · cases head

theorem goes_validate (stance : Stance G.world.heap b ms f fs s c N entry) (floor : G.floor ≤ b)
    (h : G.At ((piled F fs).push { f with ip := o }) M n w) (reachable : N.layout.Reachable c o) {k : UInt8} {e : Held}
    {rest : List Held}
    (spans : Spans f.base ⟨.byte k :: .count :: e :: rest, .counted rest.length⟩ entry w.machine.stack.size M)
    (tops : Tops G.world.heap f ⟨.byte k :: .count :: e :: rest, .counted rest.length⟩ w.machine.stack)
    (point : ⟨List.replicate k.toNat .value ++ rest, .none⟩ ≤ N.point o) (calm : (N.point o).Calm) :
    Sure G (validate .multiReturnMatches) (validate .multiReturnMatches) w fun _ w' => G.Goes F (f :: fs) b ms n .next w' := by
  obtain ⟨count, below, size, ⟨head, -⟩ | ⟨_, head, stack⟩⟩ := tops.counted _ rfl
  · cases head
  cases head
  have above := stance.above
  have small := k.toNat_lt
  refine (sure_validate h stack (by omega) (by omega)).mono fun _ w' ⟨h', stack', same⟩ => ?_
  refine goes_next stance (Nat.le_refl n) h' reachable
    (Spans.le_point (q := ⟨List.replicate k.toNat .value ++ rest, .none⟩) ⟨spans.1, ?_⟩ point) calm.tops
  rw [stack', size, same]
  unfold Point.height
  rw [List.length_append, List.length_replicate]
  omega

end

end ScriptEngine
