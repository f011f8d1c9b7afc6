import ScriptEngine.Proofs.Agreeing
import ScriptEngine.Proofs.Placing

/-!
# Calls in progress

A call pushes a frame, and as long as frames above those of the caller stand it is in
progress, also when a script is set aside in the midst of it and resumed later. What
the caller counts on is kept all the while: its frames, and the marks that were there
when it called. So when the frame that was pushed returns, its results are to go where
the callee was.
-/
namespace ScriptEngine

open Run

/-- More scripts and more closures. -/
structure Heap.Grows (h h' : Heap) : Prop where
  scripts : h.scripts.toList <+: h'.scripts.toList
  closures : h.closures.toList <+: h'.closures.toList

/-- The slot of the callee, where a call comes next. -/
def World.calleeSlot? (w : World) : Option Nat :=
  (w.next?.bind Instruction.calls?).map fun values => w.machine.stack.size - values

/-- A call that comes next in `w` has pushed a frame and is in progress. On the way it may be set aside, and it may be
resumed in a world with more scripts and closures. -/
inductive World.Underway (w : World) : World → Prop
  | begun {fuel stop : Nat} {u : World} (ran : cycle (Run.again fuel) stop w = .ok .next u)
      (frames : u.machine.frames.size = w.machine.frames.size + 1) : Underway w u
  | goes {fuel stop : Nat} {u v : World} (before : Underway w u) (ran : cycle (Run.again fuel) stop u = .ok .next v)
      (above : w.machine.frames.size < v.machine.frames.size) : Underway w v
  | resumed {fuel stop : Nat} {u v v' : World} (before : Underway w u)
      (ran : cycle (Run.again fuel) stop u = .ok (.exit .yielded) v) (sound : v'.Sound) (later : v.heap.Grows v'.heap)
      (same : v'.machine.suspension = v.machine.suspension) : Underway w v'

/-- The innermost frame stands where a region for several results is open in its code, which begins at slot `b`. -/
def World.Opens (w : World) (b : Nat) : Prop :=
  ∃ f s c N k, w.machine.frames.back? = some f ∧ Stand w.heap f s c N ∧ (N.point f.ip).region = .opened k ∧
    b = f.base + k

/-- Frames for a call that began at slot `b` with the marks `M` stand upright above those of its caller, and the heap
has nothing less than when it began. -/
structure World.Awaits (h : Heap) (L : Array Frame) (b : Nat) (M : List Nat) (u : World) : Prop where
  sound : u.Sound
  grows : h.Grows u.heap
  upright : ∃ f fs, u.machine.frames = piled L (f :: fs) ∧
    Upright u.heap u.machine.stack b M (f :: fs) u.machine.marks ∧ Seated b (f :: fs)

section

variable {h h' : Heap} {f : Frame} {fs gs : List Frame} {s : Script} {c : Chunk} {N : Notes} {b size values : Nat}
  {ms marks : List Nat} {i : Instruction} {again : Reentry} {stop stop' : Nat} {w u v : World}

/-! ## More scripts -/

theorem getElem?_of_prefix {α : Type} {as bs : Array α} (le : as.toList <+: bs.toList) {i : Nat} {a : α}
    (found : as[i]? = some a) : bs[i]? = some a := by
  obtain ⟨more, split⟩ := le
  rw [← Array.getElem?_toList] at found ⊢
  rw [← split, List.getElem?_append_left (List.getElem?_eq_some_iff.mp found).1, found]

theorem Heap.Grows.closure (grows : h.Grows h') {r : Nat} (inside : r < h.closures.size) :
    h'.closure r = h.closure r := by
  unfold Heap.closure
  rw [Array.getElem?_eq_getElem inside, getElem?_of_prefix grows.closures (Array.getElem?_eq_getElem inside)]

theorem Heap.Grows.refl (h : Heap) : h.Grows h := ⟨List.prefix_rfl, List.prefix_rfl⟩

theorem Heap.Grows.trans {h'' : Heap} (grows : h.Grows h') (grows' : h'.Grows h'') : h.Grows h'' :=
  ⟨grows.scripts.trans grows'.scripts, grows.closures.trans grows'.closures⟩

theorem Heap.Wider.grows (wider : h.Wider h') : h.Grows h' where
  scripts := wider.scripts ▸ List.prefix_rfl
  closures := by
    refine List.prefix_iff_getElem?.mpr fun r inside => ?_
    rw [Array.length_toList] at inside
    rw [Array.getElem?_toList, wider.closures r inside]
    simp

theorem Stand.grows (stand : Stand h f s c N) (grows : h.Grows h') : Stand h' f s c N where
  closure := Nat.lt_of_lt_of_le stand.closure (by simpa using grows.closures.length_le)
  script := by
    rw [grows.closure stand.closure]
    exact getElem?_of_prefix grows.scripts stand.script
  chunk := by rw [grows.closure stand.closure, stand.chunk]
  finished := stand.finished
  small := stand.small
  reachable := stand.reachable

theorem Tower.grows (tower : Tower h b ms fs size marks) (grows : h.Grows h') : Tower h' b ms fs size marks := by
  induction fs generalizing size marks with
  | nil => exact tower
  | cons f fs ih =>
    obtain ⟨s, c, N, entry, stand, spans, above, low, marked, calm, rest⟩ := tower
    exact ⟨s, c, N, entry, stand.grows grows, spans, above, low, marked, calm, fun size' returns =>
      ih (rest size' returns)⟩

/-- Nothing is lost for frames of which the innermost stands at any point. -/
theorem Upright.grows {stack : Array Value} (upright : Upright h stack b ms fs marks) (grows : h.Grows h')
    (known : ∀ r, stack.back? = some (.closure r) → r < h.closures.size) : Upright h' stack b ms fs marks := by
  cases fs with
  | nil => exact upright
  | cons f fs =>
    obtain ⟨s, c, N, entry, stance, spans, tops⟩ := upright
    refine ⟨s, c, N, entry, ⟨stance.stand.grows grows, stance.above, stance.low, stance.marked, fun size returns =>
      (stance.rest size returns).grows grows⟩, spans, fun j mem => ?_, tops.counted⟩
    obtain ⟨r, top, made⟩ := tops.closure j mem
    exact ⟨r, top, by rw [grows.closure (known r top), grows.closure stance.stand.closure, made]⟩

theorem Seated.of_origin (seated : Seated b gs) (same : origin fs = origin gs) : Seated b fs := fun g began =>
  seated g (same ▸ began)

/-! ## Where a loop stops -/

/-- The innermost frame hands over its results, whatever loop it is that goes on. -/
def Run.leave (count : Nat) : Run Unit := do
  let results ← popMany count
  let f ← popFrame
  closeFrom f.base
  truncate f.base
  if !f.discards then pushResults results f.base

theorem returnFrom_eq (count stop : Nat) : returnFrom count stop = (do
    leave count
    return if (← depth) ≤ stop then Control.exit .returned else .next) := by
  unfold returnFrom leave
  simp only [bind_assoc]
  refine bind_congr fun results => bind_congr fun f => bind_congr fun _ => bind_congr fun _ => ?_
  cases f.discards <;> rfl

/-- Loops that stop at other depths go the same way as long as they go on. -/
theorem step_stop {control : Control} (ran : step again stop i w = .ok control u)
    (goesOn : control = .next → stop' < u.machine.frames.size) (inside : control ≠ .exit .returned) :
    step again stop' i w = .ok control u := by
  by_cases out : i.isWayOut
  · cases i with
    | ret count =>
      change returnFrom count.toNat stop w = _ at ran
      change returnFrom count.toNat stop' w = _
      rw [returnFrom_eq, bind_eq] at ran ⊢
      cases left : leave count.toNat w with
      | error e w' =>
        rw [left] at ran
        cases ran
      | ok a w' =>
        rw [left] at ran
        change EStateM.Result.ok (if w'.machine.frames.size ≤ stop then Control.exit .returned else .next) w' = _ at ran
        change EStateM.Result.ok (if w'.machine.frames.size ≤ stop' then Control.exit .returned else .next) w' = _
        split at ran
        · cases ran
          exact absurd rfl inside
        · cases ran
          rw [if_neg (Nat.not_le_of_lt (goesOn rfl))]
    | yield => exact ran
    | _ => cases out
  · rw [step_ordinary _ (Bool.eq_false_iff.mpr out)] at ran ⊢
    exact ran

theorem cycle_stop {control : Control} (ran : cycle again stop w = .ok control u)
    (goesOn : control = .next → stop' < u.machine.frames.size) (inside : control ≠ .exit .returned) :
    cycle again stop' w = .ok control u := by
  change (fetch >>= fun i => located (step again stop i) : Run Control) w = _ at ran
  change (fetch >>= fun i => located (step again stop' i) : Run Control) w = _
  rw [bind_eq] at ran ⊢
  cases read : fetch w with
  | error e w' =>
    rw [read] at ran
    cases ran
  | ok i w' =>
    rw [read] at ran
    dsimp only at ran ⊢
    unfold located at ran ⊢
    cases stepped : step again stop i w' with
    | ok control' v =>
      rw [stepped] at ran
      cases ran
      rw [step_stop stepped goesOn inside]
    | error e v =>
      rw [stepped] at ran
      cases e <;> cases ran

/-! ## At a call -/

/-- The innermost frame stands where it calls, with the values for the call on top. -/
structure World.Ready (w : World) (b : Nat) (i : Instruction) (F : Array Frame) (f : Frame) (s : Script) (c : Chunk)
    (N : Notes) (ρ : List Held) (r : Region) : Prop where
  frames : w.machine.frames = F.push f
  stand : Stand w.heap f s c N
  code : c.code[f.ip]? = some i
  calls : i.calls? = some (w.machine.stack.size - b)
  size : b ≤ w.machine.stack.size
  bottom : 0 < ρ.length
  region : (N.point f.ip).region = r
  next : ⟨.value :: ρ, r⟩ ≤ N.point (f.ip + 1)
  low : Low w.machine.marks b
  above : f.base + ρ.length ≤ b
  opened : ∀ k, r = .opened k → w.machine.marks.head? = some (f.base + k)
  marked : w.machine.marks.head? = some b → ∃ k, r = .opened k

theorem World.Stands.ready (stands : w.Stands) (slot : w.calleeSlot? = some b) :
    ∃ i F f s c N ρ r, w.Ready b i F f s c N ρ r := by
  obtain ⟨F, f, fs, b', ms, frames, s, c, N, entry, stance, spans, -⟩ := stands.upright
  rw [piled_cons] at frames
  obtain ⟨values, calls, rfl⟩ := Option.map_eq_some_iff.mp slot
  obtain ⟨i, next, calls⟩ := Option.bind_eq_some_iff.mp calls
  have stand := stance.stand
  have finished := stand.finished
  have code : c.code[f.ip]? = some i := by
    unfold World.next? at next
    rw [frames, Array.back?_push] at next
    rwa [← stand.code]
  have effect := Instruction.effect_of_calls calls
  have balanced := balance_of_effect effect (N.point f.ip)
  obtain ⟨q, moves, goesOn, -⟩ := finished.effect code
  have based := finished.based stand.reachable
  obtain ⟨name, id, bottom⟩ := finished.bottom stand.reachable
  have above := (moves.above bottom).1
  generalize at_ : N.point f.ip = p at moves based above spans balanced
  cases moves with
  | @plain _ takes gives τ ρ r effect' length held =>
    obtain ⟨rfl, rfl⟩ := Prod.mk.inj (Option.some.inj (effect'.symm.trans effect))
    have room := spans.le
    unfold Point.height at room above
    rw [List.length_append] at room above
    rw [balanced] at above
    have based : Point.Based ⟨[] ++ ρ, r⟩ := based.replace fun e mem => Held.isBound_of_isValue (held e mem)
    refine ⟨i, _, f, s, c, N, ρ, r, frames, stand, code, ?_, Nat.sub_le _ _, by omega, by rw [at_],
      goesOn (by cases i <;> first | rfl | cases calls), ?_, by omega, ?_, fun head => ?_⟩
    · rw [calls]
      congr 1
      omega
    · exact spans.low stance.low (fun k start => based.le_height start) (by omega)
    · rintro k rfl
      exact congrArg List.head? spans.1
    · unfold Spans at spans
      cases r with
      | opened k => exact ⟨k, rfl⟩
      | none | counted =>
        rw [spans.1] at head
        have := stance.low _ head
        omega
  | _ => cases calls

theorem World.Ready.next? {F : Array Frame} {ρ : List Held} {r : Region} (ready : w.Ready b i F f s c N ρ r) :
    w.next? = some i := by
  unfold World.next?
  rw [ready.frames, Array.back?_push]
  dsimp only
  rw [ready.stand.code]
  exact ready.code

/-- The last mark is at the callee if and only if the region begins there that is open in the code at the call. -/
theorem World.Stands.marked_iff (stands : w.Stands) (slot : w.calleeSlot? = some b) :
    w.machine.marks.head? = some b ↔ w.Opens b := by
  obtain ⟨i, F, f, s, c, N, ρ, r, ready⟩ := stands.ready slot
  have stand := ready.stand
  have top : w.machine.frames.back? = some f := by rw [ready.frames, Array.back?_push]
  constructor
  · intro head
    obtain ⟨k, rfl⟩ := ready.marked head
    exact ⟨f, s, c, N, k, top, stand, ready.region, Option.some.inj (head.symm.trans (ready.opened k rfl))⟩
  · rintro ⟨f', s', c', N', k, top', stand', region', rfl⟩
    cases top.symm.trans top'
    cases stand.script.symm.trans stand'.script
    cases stand.chunk.symm.trans stand'.chunk
    have agrees := (stand.finished.agrees stand'.finished stand.small stand.reachable).2
    exact ready.opened k (ready.region.symm.trans (agrees.region.symm.trans region'))

theorem Instruction.isWayOut_of_calls (calls : i.calls? = some values) : i.isWayOut = false := by
  cases i <;> first | rfl | cases calls

/-- What the call that comes next leaves: frames above those of the caller, or its results. -/
theorem World.Stands.called {fuel : Nat} (stands : w.Stands) (slot : w.calleeSlot? = some b)
    (ran : Run.cycle (Run.again fuel) stop w = .ok .next u) :
    ∃ fs, u.Sound ∧ u.machine.frames = piled w.fetched.machine.frames fs ∧ u.machine.marks = w.machine.marks ∧
      Tower u.heap b w.machine.marks fs u.machine.stack.size w.machine.marks ∧ Seated b fs ∧ w.heap.Grows u.heap := by
  obtain ⟨i, F, f, s, c, N, ρ, r, ready⟩ := stands.ready slot
  have size := ready.size
  have marks : w.fetched.machine.marks = w.machine.marks := by rw [w.fetched_eq]
  have stack := congrArg Array.size w.stack_fetched
  rw [cycle_eq ready.next?, step_ordinary stop (Instruction.isWayOut_of_calls ready.calls)] at ran
  have called := (sturdy_self fuel).sure_calls (stands.sound.fetched.below (w.machine.stack.size - b))
    (w.size_fetched ▸ stands.inside) (b := b) (by change w.fetched.machine.stack.size - _ ≤ _; omega) ready.calls
    (by omega) (marks ▸ ready.low)
  unfold located at ran
  rw [bind_eq] at ran
  cases went : plain (Run.again fuel) i w.fetched with
  | error e v =>
    rw [went] at ran
    cases e <;> cases ran
  | ok a v =>
    rw [went] at ran
    cases ran
    obtain ⟨-, out⟩ := called
    rw [went] at out
    obtain ⟨m, fs, -, at_, tower, seated⟩ := out
    rw [marks] at tower
    have grows : w.fetched.heap.Grows u.heap := at_.wider.grows
    exact ⟨fs, at_.sound, at_.frames, at_.marks.trans marks, tower, seated, w.heap_fetched ▸ grows⟩

/-! ## On the way -/

variable {L : Array Frame} {M : List Nat} {fuel : Nat} {control : Control}

/-- What comes of an instruction for the call in progress. -/
theorem World.Awaits.goes (awaits : u.Awaits h L b M) (ran : Run.cycle (Run.again fuel) stop u = .ok control v)
    (inside : control ≠ .exit .returned) (above : control = .next → L.size < v.machine.frames.size) :
    v.Awaits h L b M := by
  obtain ⟨f, fs, frames, upright, seated⟩ := awaits.upright
  have ran : Run.cycle (Run.again fuel) L.size u = .ok control v := cycle_stop ran above inside
  let G : Footing := ⟨u, 0, L.toList, []⟩
  have at_ : G.At (piled L (f :: fs)) u.machine.marks u.closures u := by
    refine ⟨⟨awaits.sound, Nat.zero_le _, nofun, nofun, rfl, fun _ _ => rfl, ?_, List.nil_suffix⟩, frames, rfl, rfl⟩
    rw [frames, toList_piled]
    exact List.prefix_append _ _
  obtain ⟨-, out⟩ := (sturdy_self fuel).sure_cycle (G := G) at_ (Nat.zero_le b) rfl List.nil_suffix upright
  rw [ran] at out
  obtain ⟨m, gs, marks, -, at', out⟩ := out
  have stands (some : gs ≠ []) (upright : Upright v.heap v.machine.stack b M gs marks)
      (same : origin gs = origin (f :: fs)) : v.Awaits h L b M := by
    obtain ⟨g, gs, rfl⟩ := List.exists_cons_of_ne_nil some
    exact ⟨at'.sound, awaits.grows.trans at'.wider.grows, g, gs, at'.frames, at'.marks ▸ upright, seated.of_origin same⟩
  cases control with
  | next => exact stands out.1 out.2.1 out.2.2
  | exit how =>
    cases how with
    | returned => exact absurd rfl inside
    | yielded => exact stands out.1 out.2.1.upright out.2.2

/-- Frames that are set aside stand when they are taken up again. -/
theorem World.Awaits.resumed (awaits : u.Awaits h L b M) (sound : v.Sound) (grows : u.heap.Grows v.heap)
    (same : v.machine.suspension = u.machine.suspension) : v.Awaits h L b M := by
  obtain ⟨stack, frames, -, marks⟩ := Suspension.mk.inj same
  obtain ⟨f, fs, frames', upright, seated⟩ := awaits.upright
  refine ⟨sound, awaits.grows.trans grows, f, fs, frames.trans frames', ?_, seated⟩
  rw [stack, marks]
  exact upright.grows grows fun r top => awaits.sound.offers _ (.slot (Array.mem_of_back? top)) r rfl

/-- What the caller counts on is there as long as its call is in progress. -/
theorem World.Stands.awaits (stands : w.Stands) (slot : w.calleeSlot? = some b) (underway : w.Underway u) :
    u.Awaits w.heap w.fetched.machine.frames b w.machine.marks := by
  induction underway with
  | begun ran frames =>
    obtain ⟨fs, sound, frames', marks, tower, seated, grows⟩ := stands.called slot ran
    rw [frames', size_piled, w.size_fetched] at frames
    obtain ⟨f, rfl⟩ := List.length_eq_one_iff.mp (Nat.add_left_cancel frames)
    exact ⟨sound, grows, f, [], frames', marks ▸ tower.upright, seated⟩
  | goes before ran above ih => exact ih.goes ran nofun fun _ => w.size_fetched.symm ▸ above
  | resumed before ran sound later same ih => exact (ih.goes ran nofun nofun).resumed sound later same

/-! ## At the return -/

/-- The values on top that a frame returns, in the order in which they were pushed. -/
def World.results (w : World) (count : Nat) : List Value :=
  (w.machine.stack.extract (w.machine.stack.size - count)).toList

theorem World.length_results {count : Nat} (room : count ≤ w.machine.stack.size) : (w.results count).length = count := by
  unfold results
  rw [Array.length_toList, Array.size_extract]
  omega

theorem closeFrom_eq (start : Nat) (w : World) : ∃ h kept, w.heap.Wider h ∧
    closeFrom start w = .ok () { w with heap := h, machine.openCells := kept } := by
  obtain ⟨w', ran⟩ := closeFrom_ok start w
  have calm := (calms_closeFrom start w).1
  rw [ran] at calm
  refine ⟨w'.heap, w'.machine.openCells, calm.heap.toWider, ran.trans ?_⟩
  unfold closeFrom at ran
  split at ran <;> cases ran <;> rfl

/-- The world once the innermost frame has left so many results at its start, with another heap and other open
cells. -/
def World.left (w : World) (h : Heap) (kept : List Nat) (F : Array Frame) (b : Nat) (vs : List Value) : World :=
  { w with
    heap := h
    machine.openCells := kept
    machine.frames := F
    machine.stack := w.machine.stack.shrink b ++ vs }

/-- The results of a frame are one, or a region begins where they go. -/
theorem leave_eq {F : Array Frame} (count : Nat) (frames : w.machine.frames = F.push f) (discards : f.discards = false)
    (room : f.base + count ≤ w.machine.stack.size) : ∃ h kept, w.heap.Wider h ∧ leave count w =
      if count = 1 ∨ w.machine.marks.head? = some f.base then .ok () (w.left h kept F f.base (w.results count))
      else .error (.failed { error := .multiReturnMismatch 1 count }) (w.left h kept F f.base []) := by
  let w₁ : World := { w with
    machine.stack := w.machine.stack.shrink (w.machine.stack.size - count)
    machine.frames := F }
  obtain ⟨h, kept, wider, closed⟩ := closeFrom_eq f.base w₁
  refine ⟨h, kept, wider, ?_⟩
  have popped : popMany count w = .ok (w.results count)
      { w with machine.stack := w.machine.stack.shrink (w.machine.stack.size - count) } := by
    change (if count ≤ w.machine.stack.size then takeFrom _ else _ : Run (List Value)) w = _
    rw [if_pos (by omega)]
    rfl
  have left : popFrame { w with machine.stack := w.machine.stack.shrink (w.machine.stack.size - count) } = .ok f w₁ := by
    unfold popFrame
    dsimp only
    rw [frames, Array.back?_push, Array.pop_push]
  unfold leave
  rw [bind_eq, popped]
  dsimp only
  rw [bind_eq, left]
  dsimp only
  rw [bind_eq, closed]
  dsimp only
  have cut : (w.machine.stack.shrink (w.machine.stack.size - count)).shrink f.base = w.machine.stack.shrink f.base := by
    apply Array.toList_inj.mp
    rw [Array.toList_shrink, Array.toList_shrink, Array.toList_shrink, List.take_take, Nat.min_eq_left (by omega)]
  have cutOff : (w.machine.stack.shrink f.base ++ ([] : List Value)) = w.machine.stack.shrink f.base := by simp
  rw [discards]
  change (if (w.results count).length = 1 ∨ w.machine.marks.head? = some f.base then pushAll (w.results count) else
    fail (.multiReturnMismatch 1 (w.results count).length) : Run Unit) _ = _
  rw [w.length_results (by omega)]
  split
  · unfold World.left
    rw [← cut]
    rfl
  · unfold World.left
    rw [cutOff, ← cut]
    rfl

/-- Where the frame that a call pushed returns, the marks are those that its caller left, and the frame began at the
callee. -/
theorem World.Awaits.returning (awaits : u.Awaits h L b M) {count : UInt8} (next : u.next? = some (.ret count))
    (single : u.machine.frames.size = L.size + 1) (kept : ∀ g, u.machine.frames.back? = some g → g.discards = false) :
    u.machine.marks = M ∧ ∃ f, u.machine.frames = L.push f ∧ f.discards = false ∧ f.base = b ∧
      b + count.toNat ≤ u.machine.stack.size := by
  obtain ⟨f, fs, frames, ⟨s, c, N, entry, stance, spans, -⟩, seated⟩ := awaits.upright
  rw [frames, size_piled] at single
  obtain rfl : fs = [] := List.length_eq_zero_iff.mp (by rw [List.length_cons] at single; omega)
  rw [piled_cons, piled_nil] at frames
  have discards := kept f (by rw [frames, Array.back?_push])
  have finished := stance.stand.finished
  have code : c.code[f.ip]? = some (.ret count) := by
    unfold World.next? at next
    rw [frames, Array.back?_push] at next
    rwa [← stance.stand.code]
  obtain ⟨width, -, -, draft⟩ := finished.draft
  have region := ((draft.flow.fits f.ip _ code).results count rfl).2
  have base : f.base = b := seated { f with ip := 0 } rfl discards
  have tower := stance.rest (f.base + 1) (by
    unfold Frame.Returns
    rw [if_neg (by simp [discards])]
    exact .inl rfl)
  have below := finished.levels.takes f.ip _ stance.stand.reachable code
  unfold Spans at spans
  rw [region] at spans
  refine ⟨spans.1.trans tower.1, f, frames, discards, base, ?_⟩
  change count.toNat < (N.point f.ip).height at below
  omega

/-- The computation fails since another number of results was expected. -/
def Run.Mismatches {α : Type} (r : EStateM.Result Halt World α) (expected produced : Nat) : Prop :=
  ∃ g w', r = .error (.failed g) w' ∧ g.error = .multiReturnMismatch expected produced

/-- What comes of the return, in whatever loop: the results lie where the callee was, or they are refused. -/
theorem World.Awaits.returns (awaits : u.Awaits h L b M) {count : UInt8} (next : u.next? = some (.ret count))
    (single : u.machine.frames.size = L.size + 1)
    (kept : ∀ g, u.machine.frames.back? = some g → g.discards = false) :
    u.machine.marks = M ∧ b + count.toNat ≤ u.machine.stack.size ∧
    (count.toNat = 1 ∨ M.head? = some b → ∃ h kept, u.heap.Wider h ∧ ∀ again stop, cycle again stop u =
      .ok (if L.size ≤ stop then .exit .returned else .next) (u.left h kept L b (u.results count.toNat))) ∧
    (¬(count.toNat = 1 ∨ M.head? = some b) → ∀ again stop, Mismatches (cycle again stop u) 1 count.toNat) := by
  obtain ⟨marks, f, frames, discards, rfl, room⟩ := awaits.returning next single kept
  have read := u.frames_fetched frames
  have stack := u.stack_fetched
  have marks' : u.fetched.machine.marks = M := by rw [u.fetched_eq]; exact marks
  obtain ⟨h, cells, wider, left⟩ := leave_eq (w := u.fetched) count.toNat read discards (by rwa [stack])
  have results : u.fetched.results count.toNat = u.results count.toNat := by unfold World.results; rw [stack]
  have same (vs : List Value) : u.fetched.left h cells L f.base vs = u.left h cells L f.base vs := by
    rw [u.fetched_eq]
    rfl
  rw [u.heap_fetched] at wider
  rw [results, marks', same, same] at left
  have ran (again : Reentry) (stop : Nat) :
      cycle again stop u = located (returnFrom count.toNat stop) u.fetched := cycle_eq next
  refine ⟨marks, room, fun fits => ⟨h, cells, wider, fun again stop => ?_⟩, fun misfits again stop => ?_⟩
  · rw [if_pos fits] at left
    rw [ran]
    unfold located
    rw [returnFrom_eq, bind_eq, left]
    rfl
  · rw [if_neg misfits] at left
    rw [ran]
    unfold located
    rw [returnFrom_eq, bind_eq, left]
    exact ⟨_, _, rfl, rfl⟩

end

end ScriptEngine
