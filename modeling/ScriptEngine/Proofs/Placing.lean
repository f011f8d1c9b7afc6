import ScriptEngine.Proofs.Lining
import ScriptEngine.Proofs.Raising
import ScriptEngine.Proofs.Stopping

/-!
# The place of a failure

An instruction that fails by itself fails with its frame on top, behind the words that it
has read, and one that hands over what is refused leaves the frame on top that made the
call. `World.Raises` says which place that is: the chain of the frame's chunk and the
line with which the last word that the frame has read was emitted. A failure of a call
has its place already, and an instruction passes it on as it is.
-/
namespace ScriptEngine

open Run

/-- An error arises in the instruction to come, and this is its place. -/
inductive World.Raises (u : World) (e : RuntimeError) : Location → Prop
  /-- The frame is still there. It has read the instruction, and words behind it if there are captures. -/
  | reading {k stop more : Nat} {i : Instruction} {F : Array Frame} {f : Frame} {u' : World} {line : UInt32}
      (frames : u.machine.frames = F.push f) (next : u.next? = some i)
      (raised : step (Run.again k) stop i u.fetched = .error (.failed { error := e }) u')
      (read : u'.machine.frames = F.push { f with ip := f.ip + 1 + more }) (words : more = 0 ∨ ∃ n, i = .closure n)
      (passed : (u.heap.code f.closure).Passed (f.ip + more) line) :
      u.Raises e ⟨(u.heap.code f.closure).chain, line⟩
  /-- The frame has gone, and what it hands over is refused. The one below it has read its call. -/
  | refused {k stop n results : Nat} {count : UInt8} {j : Instruction} {F : Array Frame} {f g : Frame} {u' : World}
      {line : UInt32}
      (frames : u.machine.frames = (F.push g).push f) (next : u.next? = some (.ret count))
      (refusal : e = .multiReturnMismatch 1 results)
      (raised : step (Run.again k) stop (.ret count) u.fetched = .error (.failed { error := e }) u')
      (gone : u'.machine.frames = F.push g) (read : g.ip = n + 1)
      (call : (u.heap.code g.closure).code[n]? = some j) (calls : j.calls)
      (passed : (u.heap.code g.closure).Passed n line) :
      u.Raises e ⟨(u.heap.code g.closure).chain, line⟩

/-- Such an error has arisen in a world of some kind, if it is not that there were too many frames. -/
def Arisen (P : World → Prop) (e : RuntimeError) (place : Location) : Prop :=
  (∀ n, e ≠ .stackOverflow n) → ∃ u, P u ∧ u.Raises e place

section

variable {α β : Type} {w w' w'' u : World} {F : Array Frame} {f : Frame} {stop : Nat} {i : Instruction}
  {Q : RuntimeError → Location → Prop}

/-! ## What a loop leaves alone -/

/-- Frames up to a depth are as they were, and so are natives; nothing in the heap is out of order. -/
structure World.Guards (stop : Nat) (w w' : World) : Prop where
  depth : stop ≤ w'.machine.frames.size
  below : w'.machine.frames.toList.take stop = w.machine.frames.toList.take stop
  natives : w'.natives = w.natives
  heap : w.heap.Mild w'.heap

theorem World.Guards.trans (h : w.Guards stop w') (h' : w'.Guards stop w'') : w.Guards stop w'' :=
  ⟨h'.depth, h'.below.trans h.below, h'.natives.trans h.natives, h.heap.trans h'.heap⟩

/-- As `World.Guards`, for all frames but the innermost one. -/
structure World.Holds (w : World) (F : Array Frame) (w' : World) : Prop where
  frames : F.toList <+: w'.machine.frames.toList
  natives : w'.natives = w.natives
  heap : w.heap.Mild w'.heap

theorem World.Holds.guards (h : w.Holds F w') (frames : w.machine.frames = F.push f)
    (above : stop < w.machine.frames.size) : w.Guards stop w' := by
  rw [frames, Array.size_push] at above
  have within : stop ≤ F.toList.length := Nat.le_of_lt_succ above
  obtain ⟨gs, rest⟩ := h.frames
  have size := congrArg List.length rest
  have depth : w'.machine.frames.toList.length = w'.machine.frames.size := rfl
  rw [List.length_append] at size
  refine ⟨by omega, ?_, h.natives, h.heap⟩
  rw [frames, Array.toList_push, ← rest, List.take_append_of_le_length within, List.take_append_of_le_length within]

/-! ## Reading on -/

/-- The innermost frame has gone on to a word that is there or to the end. -/
structure World.ReadOn (w : World) (F : Array Frame) (f : Frame) (w' : World) : Prop where
  natives : w'.natives = w.natives
  heap : w.heap.Mild w'.heap
  frames : ∃ more, f.ip + more ≤ (w.heap.code f.closure).code.size ∧
    w'.machine.frames = F.push { f with ip := f.ip + more }

/-- A frame that reads words on, and does nothing else to frames. -/
def Run.ReadsOn (x : Run α) : Prop := ∀ w F f, w.machine.frames = F.push f → f.closure < w.heap.closures.size →
  f.ip ≤ (w.heap.code f.closure).code.size → w.ReadOn F f (left (x w)) ∧ Bare (x w)

theorem World.ReadOn.trans {more : Nat} (h : w.ReadOn F f w')
    (inside : f.closure < w.heap.closures.size) (h' : w'.ReadOn F { f with ip := f.ip + more } w'') : w.ReadOn F f w'' := by
  obtain ⟨natives, heap, more', within, frames⟩ := h'
  rw [h.heap.toWider.code inside] at within
  exact ⟨natives.trans h.natives, h.heap.trans heap, more + more', by rwa [← Nat.add_assoc], by
    rw [frames, Nat.add_assoc]⟩

namespace Run.ReadsOn

theorem of_calms {x : Run α} (h : Calms x) : ReadsOn x := fun w _ _ frames _ within =>
  have ⟨calm, bare⟩ := h w
  ⟨⟨calm.natives, calm.heap, 0, within, calm.frames.trans frames⟩, bare⟩

theorem bind {x : Run α} {g : α → Run β} (first : ReadsOn x) (then_ : ∀ a, ReadsOn (g a)) : ReadsOn (x >>= g) := by
  intro w F f frames inside within
  have h := first w F f frames inside within
  rw [bind_eq]
  cases ran : x w with
  | error e w' =>
    rw [ran] at h
    exact ⟨h.1, by cases e <;> exact h.2⟩
  | ok a w' =>
    rw [ran] at h
    obtain ⟨more, within', frames'⟩ := h.1.frames
    have wider : w.heap.Wider w'.heap := h.1.heap.toWider
    have next := then_ a w' F { f with ip := f.ip + more } frames' (wider.lt inside)
      (wider.code inside ▸ within' : f.ip + more ≤ (w'.heap.code f.closure).code.size)
    exact ⟨h.1.trans inside next.1, next.2⟩

theorem of_bind {x : Run α} {g : α → Run β} (first : Calms x) (then_ : ∀ a, ReadsOn (g a)) : ReadsOn (x >>= g) :=
  (of_calms first).bind then_

end Run.ReadsOn

theorem readsOn_fetch : ReadsOn fetch := by
  intro w F f frames inside within
  rw [fetch_eq (frames ▸ Array.back?_push)]
  split
  · next i code =>
    refine ⟨⟨rfl, .refl _, 1, ?_, ?_⟩, trivial⟩
    · exact (Array.getElem?_eq_some_iff.mp code).1
    · change jump (f.ip + 1) w.machine.frames = _
      rw [frames, jump_push]
  · exact ⟨⟨rfl, .refl _, 0, within, frames⟩, rfl⟩

theorem readsOn_captures (chain : String) (n : Nat) : ReadsOn (captures chain n) := by
  induction n with
  | zero => exact .of_calms (.pure _)
  | succ n ih =>
    have others (ref : Nat) : ReadsOn (do return ref :: (← captures chain n)) := ih.bind fun _ => .of_calms (.pure _)
    refine readsOn_fetch.bind fun i => ?_
    split
    · exact .of_bind calms_frame fun _ => .of_bind (calms_cellOf _) others
    · exact .of_bind (calms_captured _) others
    · exact .of_bind (calms_failInternal _) others

theorem readsOn_makeClosure (index : UInt16) : ReadsOn (makeClosure index) := by
  refine .of_bind (calms_constant index) fun v => ?_
  split
  · exact .of_bind calms_heap fun _ => (readsOn_captures _ _).bind fun _ =>
      .of_bind (calms_allocate fun _ => Heap.mild_addClosure _ _) fun _ => .of_calms (calms_push _)
  · exact .of_calms (calms_failInternal _)

/-! ## Where a world stands -/

theorem World.Sound.passed (sound : w.Sound) {ref offset : Nat} (inside : ref < w.heap.closures.size)
    (within : offset < (w.heap.code ref).code.size) :
    (w.heap.code ref).Passed offset ((w.heap.code ref).lineAt offset) := by
  obtain ⟨s, c, N, stand⟩ := sound.heap.stand inside 0 false
  have code : w.heap.code ref = c := stand.code
  obtain ⟨tokens, scriptName, made⟩ := sound.heap.scripts s (Array.mem_of_getElem? stand.script)
  obtain ⟨es, emitted⟩ := made.lined c (Array.mem_of_getElem? stand.chunk)
  rw [code] at within ⊢
  exact emitted.passed stand.small within

/-- There is a frame, over a closure that is there, and a word for it to read. -/
theorem World.Stands.reads (stands : w.Stands) : ∃ (F : Array Frame) (f : Frame) (i : Instruction), w.machine.frames = F.push f ∧
    f.closure < w.heap.closures.size ∧ (w.heap.code f.closure).code[f.ip]? = some i ∧ w.next? = some i := by
  obtain ⟨F, f, fs, b, ms, frames, s, c, N, entry, stance, -, -⟩ := stands.upright
  have stand := stance.stand
  have within := stand.finished.within stand.reachable
  have code : (w.heap.code f.closure).code[f.ip]? = some c.code[f.ip] := by
    rw [stand.code]
    exact Array.getElem?_eq_getElem within
  rw [piled_cons] at frames
  refine ⟨_, f, _, frames, stand.closure, code, ?_⟩
  unfold World.next?
  rw [frames, Array.back?_push]
  exact code

/-- What is made an init chain is a closure. -/
theorem World.Stands.chain (stands : w.Stands) (next : w.next? = some .initChain) :
    ∃ r, w.machine.stack.back? = some (.closure r) := by
  obtain ⟨F, f, fs, b, ms, frames, s, c, N, entry, stance, -, tops⟩ := stands.upright
  have code : c.code[f.ip]? = some .initChain := by
    unfold World.next? at next
    rw [frames, piled_cons, Array.back?_push] at next
    dsimp only at next
    rwa [stance.stand.code] at next
  obtain ⟨q, effect, -⟩ := stance.stand.finished.effect code
  generalize N.point f.ip = p at effect tops
  cases effect with
  | plain effect => cases effect
  | chain =>
    obtain ⟨r, top, -⟩ := tops.closure _ (.head _)
    exact ⟨r, top⟩

theorem World.fetched_of_push (frames : w.machine.frames = F.push f) : w.fetched = w.moved (f.ip + 1) := by
  unfold World.fetched
  rw [frames, Array.back?_push]

theorem World.frames_fetched (frames : w.machine.frames = F.push f) :
    w.fetched.machine.frames = F.push { f with ip := f.ip + 1 } := by
  rw [w.fetched_of_push frames]
  change jump (f.ip + 1) w.machine.frames = _
  rw [frames, jump_push]

/-- A step of a machine that is stopped at times is one of the machine itself. -/
theorem step_of_only {P : World → Prop} {k : Nat} {g : Failure} (above : stop < w.machine.frames.size)
    (ran : step ((Watch.only P).again k) stop i w = .error (.failed g) w') :
    step (Run.again k) stop i w = .error (.failed g) w' := by
  by_cases yields : i = .yield
  · subst yields
    exact ran
  · have advances := Pausing.advances_step (Watch.follows_only P k) yields above
    rw [Pausing.Advances, ran] at advances
    exact (advances trivial).1

/-! ## Instructions that stay in their frame -/

/-- It makes no difference to what waits for the innermost frame how far that one has come. -/
theorem World.Orderly.top {ip : Nat} (orderly : w.Orderly) (frames : w.machine.frames = F.push f)
    (natives : w'.natives = w.natives) (heap : w.heap.Mild w'.heap) (frames' : w'.machine.frames = F.push { f with ip }) :
    w'.Orderly where
  natives := orderly.native_of natives
  chained := heap.chained orderly.chained
  waits := by
    have waits := orderly.waits.imp fun _ _ awaits => awaits.wider heap.toWider
    rw [frames, Array.toList_push, List.isChain_append] at waits
    rw [frames', Array.toList_push, List.isChain_append]
    refine ⟨waits.1, .singleton _, fun x last y first kept => ?_⟩
    cases first
    exact waits.2.2 x last f rfl kept

theorem World.Orderly.fetched (orderly : w.Orderly) (frames : w.machine.frames = F.push f) : w.fetched.Orderly := by
  have read := w.frames_fetched frames
  rw [w.fetched_of_push frames] at read ⊢
  exact orderly.top frames rfl (.refl _) read

/-- What comes of an instruction, in a frame that has read it. A failure without a place is its own, and its frame
is still on top. -/
def Run.Handled (Q : RuntimeError → Location → Prop) (w : World) (F : Array Frame) (f : Frame) (i : Instruction) :
    EStateM.Result Halt World Unit → Prop
  | .ok _ w' => w'.Orderly ∧ w.Holds F w' ∧ F.size < w'.machine.frames.size
  | .error (.failed g) w' => w.Holds F w' ∧ F.size < w'.machine.frames.size ∧ g.Accounted Q ∧
      (g.location = none → (∃ n, g.error = .stackOverflow n) ∨ ∃ more, (more = 0 ∨ ∃ n, i = .closure n) ∧
        f.ip + more ≤ (w.heap.code f.closure).code.size ∧ w'.machine.frames = F.push { f with ip := f.ip + more })
  | .error .outOfFuel _ => True

theorem World.ReadOn.holds (h : w.ReadOn F f w') : w.Holds F w' ∧ F.size < w'.machine.frames.size := by
  obtain ⟨more, -, frames⟩ := h.frames
  refine ⟨⟨?_, h.natives, h.heap⟩, ?_⟩
  · rw [frames, Array.toList_push]
    exact List.prefix_append _ _
  · rw [frames, Array.size_push]
    exact Nat.lt_succ_self _

theorem World.ReadOn.orderly (orderly : w.Orderly) (frames : w.machine.frames = F.push f) (h : w.ReadOn F f w') :
    w'.Orderly :=
  have ⟨_, _, frames'⟩ := h.frames
  orderly.top frames h.natives h.heap frames'

section

variable (orderly : w.Orderly) (frames : w.machine.frames = F.push f) (inside : f.closure < w.heap.closures.size)
  (within : f.ip ≤ (w.heap.code f.closure).code.size)
include orderly frames inside within

theorem handled_of_readsOn {x : Run Unit} (h : ReadsOn x) (closure : ∃ n, i = .closure n) : Handled Q w F f i (x w) := by
  obtain ⟨readOn, bare⟩ := h w F f frames inside within
  cases ran : x w with
  | ok a w' =>
    rw [ran] at readOn
    exact ⟨readOn.orderly orderly frames, readOn.holds⟩
  | error e w' =>
    rw [ran] at readOn bare
    cases e with
    | failed g =>
      obtain ⟨more, within', frames'⟩ := readOn.frames
      exact ⟨readOn.holds.1, readOn.holds.2, Failure.accounted_of_bare bare, fun _ =>
        .inr ⟨more, .inr closure, within', frames'⟩⟩
    | outOfFuel => trivial

theorem handled_of_calms {x : Run Unit} (h : Calms x) : Handled Q w F f i (x w) := by
  obtain ⟨readOn, -⟩ := ReadsOn.of_calms h w F f frames inside within
  obtain ⟨calm, bare⟩ := h w
  cases ran : x w with
  | ok a w' =>
    rw [ran] at readOn
    exact ⟨readOn.orderly orderly frames, readOn.holds⟩
  | error e w' =>
    rw [ran] at readOn calm bare
    cases e with
    | failed g =>
      exact ⟨readOn.holds.1, readOn.holds.2, Failure.accounted_of_bare bare, fun _ =>
        .inr ⟨0, .inl rfl, within, calm.frames.trans frames⟩⟩
    | outOfFuel => trivial

omit inside within orderly in
theorem goto_eq (label : UInt16) :
    goto label w = match (w.heap.code f.closure).labelOffset? label with
      | some offset => .ok () (w.moved offset)
      | none => .error (.failed { error := .internal (.labelNotPlaced label (w.heap.code f.closure).chain) }) w := by
  change ((frame >>= fun f => heap >>= fun h => pure (h.code f.closure)) >>= _ : Run Unit) w = _
  rw [bind_eq, bind_eq, frame_eq (frames ▸ Array.back?_push)]
  change (match (w.heap.code f.closure).labelOffset? label with
    | some offset => setIp offset
    | none => failInternal _) w = _
  cases (w.heap.code f.closure).labelOffset? label <;> rfl

theorem handled_goto (label : UInt16) : Handled Q w F f i (goto label w) := by
  rw [goto_eq frames]
  split
  · next offset placed =>
    have moved : (w.moved offset).machine.frames = F.push { f with ip := offset } := by
      change jump offset w.machine.frames = _
      rw [frames, jump_push]
    refine ⟨orderly.top frames rfl (.refl _) moved, ⟨?_, rfl, .refl _⟩, ?_⟩
    · rw [moved, Array.toList_push]
      exact List.prefix_append _ _
    · rw [moved, Array.size_push]
      exact Nat.lt_succ_self _
  · exact handled_of_calms orderly frames inside within (calms_failInternal _)

omit orderly frames within in
theorem Run.Handled.after {r : EStateM.Result Halt World Unit} (calm : Calm w w') (h : Handled Q w' F f i r) :
    Handled Q w F f i r := by
  have holds {u : World} (h : w'.Holds F u) : w.Holds F u :=
    ⟨h.frames, h.natives.trans calm.natives, calm.heap.trans h.heap⟩
  unfold Handled at h ⊢
  split
  · exact ⟨h.1, holds h.2.1, h.2.2⟩
  · obtain ⟨h₁, above, accounted, own⟩ := h
    rw [calm.heap.toWider.code inside] at own
    exact ⟨holds h₁, above, accounted, own⟩
  · trivial

theorem handled_bind {x : Run α} {g : α → Run Unit} (first : Calms x)
    (then_ : ∀ a w', w'.Orderly → w'.machine.frames = F.push f → f.closure < w'.heap.closures.size →
      f.ip ≤ (w'.heap.code f.closure).code.size → Handled Q w' F f i (g a w')) : Handled Q w F f i ((x >>= g) w) := by
  obtain ⟨calm, -⟩ := first w
  have failed := handled_of_calms (Q := Q) (i := i) orderly frames inside within (first.bind fun _ => .pure ())
  rw [bind_eq] at failed ⊢
  cases ran : x w with
  | ok a w' =>
    rw [ran] at calm
    have wider : w.heap.Wider w'.heap := calm.heap.toWider
    exact .after inside calm (then_ a w' (orderly.spares calm.spares) (calm.frames.trans frames) (wider.lt inside)
      (wider.code inside ▸ within))
  | error e w' =>
    rw [ran] at failed
    exact failed

theorem handled_gotoIfFalse (label : UInt16) : Handled Q w F f i (gotoIfFalse label w) := by
  refine handled_bind orderly frames inside within (calms_peek 0) fun v w' orderly frames inside within => ?_
  split
  · exact handled_goto orderly frames inside within label
  · exact handled_of_calms orderly frames inside within (.pure ())

/-- An init chain is added, which is a closure. -/
theorem handled_addInitChain {r : Nat} (top : w.machine.stack.back? = some (.closure r)) :
    Handled Q w F f i (addInitChain w) := by
  let chained (v : Value) : Run Unit := do
    updateType (← peekType "init chain") fun t => { t with initChains := t.initChains ++ [v] }
  have calms : Calms (pop >>= fun _ => chained (.closure r)) := by
    refine calms_pop.bind fun _ => (calms_peekType _).bind fun _ => calms_modifyHeap fun _ =>
      Heap.mild_updateType fun _ t _ v chain new => ?_
    exact ⟨r, List.mem_singleton.mp ((List.mem_append.mp chain).resolve_left new)⟩
  have same : addInitChain w = (pop >>= fun _ => chained (.closure r)) w := by
    change (pop >>= chained) w = _
    have popped : pop w = .ok (.closure r) { w with machine.stack := w.machine.stack.pop } := by
      unfold pop
      rw [top]
    rw [bind_eq, bind_eq, popped]
  rw [same]
  exact handled_of_calms orderly frames inside within calms

end

/-! ## Every instruction -/

theorem handled_of_stacks {x : Run Unit} (h : Stacks Q x) (midway : w.Midway) (frames : w.machine.frames = F.push f)
    (within : f.ip ≤ (w.heap.code f.closure).code.size) : Handled Q w F f i (x w) := by
  have stacked := h w midway
  have holds {w' : World} (pushes : w.Pushes w') : w.Holds F w' ∧ F.size < w'.machine.frames.size := by
    obtain ⟨gs, frames', -⟩ := pushes.frames
    rw [frames, Array.toList_push, List.append_assoc] at frames'
    have size := size_of_split frames'
    rw [List.length_append, List.length_singleton] at size
    refine ⟨⟨?_, pushes.natives, pushes.heap⟩, by omega⟩
    rw [frames']
    exact List.prefix_append _ _
  unfold Stacked at stacked
  unfold Handled
  split at stacked
  · next ran =>
    rw [ran]
    exact ⟨midway.pushes stacked, holds stacked⟩
  · next ran =>
    rw [ran]
    obtain ⟨pushes, accounted, bare⟩ := stacked
    refine ⟨(holds pushes).1, (holds pushes).2, accounted, fun own => (bare own).symm.imp id fun same => ?_⟩
    exact ⟨0, .inl rfl, within, same.trans frames⟩
  · next ran =>
    rw [ran]
    trivial

/-- An instruction that does not lead out of its frame. -/
theorem World.Stands.handled {again : Reentry} (stands : u.Stands) (orderly : u.Orderly) (informs : Informs Q again)
    (frames : u.machine.frames = F.push f) (inside : f.closure < u.heap.closures.size)
    (code : (u.heap.code f.closure).code[f.ip]? = some i) (next : u.next? = some i) :
    Handled Q u.fetched F { f with ip := f.ip + 1 } i (plain again i u.fetched) := by
  have frames' := u.frames_fetched frames
  have stack := u.stack_fetched
  have heap := u.heap_fetched
  have orderly' := orderly.fetched frames
  have within : f.ip + 1 ≤ (u.heap.code f.closure).code.size := (Array.getElem?_eq_some_iff.mp code).1
  rw [← heap] at within inside code
  by_cases calls : i.calls
  · refine handled_of_stacks (informs.plain calls) ⟨orderly', { f with ip := f.ip + 1 }, ?_, inside, f.ip, i, rfl, code, calls⟩
      frames' within
    rw [frames', Array.back?_push]
  by_cases calm : isCalm i
  · exact handled_of_calms orderly' frames' inside within (calms_plain again calm)
  cases i with
  | goto label => exact handled_goto orderly' frames' inside within label
  | gotoIfFalse label => exact handled_gotoIfFalse orderly' frames' inside within label
  | closure n => exact handled_of_readsOn orderly' frames' inside within (readsOn_makeClosure n) ⟨n, rfl⟩
  | initChain =>
    obtain ⟨r, top⟩ := stands.chain next
    exact handled_addInitChain orderly' frames' inside within (stack ▸ top)
  | call | invoke | superInvoke | testSet | testCase => exact absurd rfl calls
  | _ => exact absurd rfl calm

/-! ## Failures get their place -/

theorem location?_push (h : Heap) : h.location? (F.push f) =
    some ⟨(h.code f.closure).chain, (h.code f.closure).lineAt (f.ip - 1)⟩ := by
  unfold Heap.location?
  rw [Array.back?_push]

theorem location?_eq_none {h : Heap} {frames : Array Frame} (none : h.location? frames = none) : frames = #[] := by
  unfold Heap.location? at none
  split at none
  · cases none
  · next empty => exact Array.back?_eq_none_iff.mp empty

/-- A failure that has a place keeps it. -/
theorem Failure.accounted_locate {g : Failure} {place? : Option Location} (accounted : g.Accounted Q)
    (own : g.location = none → ∀ place, place? = some place → Q g.error place) : (g.locate place?).Accounted Q := by
  intro place located
  unfold Failure.locate at located
  cases noted : g.location with
  | none =>
    rw [noted] at located
    exact own noted place located
  | some place' =>
    rw [noted] at located
    exact accounted place (noted.trans located)

theorem Failure.locate_eq_none {g : Failure} {place? : Option Location} (none : (g.locate place?).location = none) :
    g.location = .none ∧ place? = .none := by
  unfold Failure.locate at none
  cases noted : g.location with
  | none =>
    rw [noted] at none
    exact ⟨rfl, none⟩
  | some =>
    rw [noted] at none
    cases none

/-- What comes of an instruction, for the loop that stops at a depth. Where nothing is left to tell the place, the
outermost frame handed over what is refused. -/
def Run.Cycled (Q : RuntimeError → Location → Prop) (stop : Nat) (u : World) : EStateM.Result Halt World Control → Prop
  | .ok .next w' => w'.Orderly ∧ u.Guards stop w' ∧ stop < w'.machine.frames.size
  | .ok (.exit how) w' => w'.Orderly ∧ u.Guards stop w' ∧ (how = .returned → w'.machine.frames.size = stop)
  | .error (.failed g) w' => u.Guards stop w' ∧ g.Accounted Q ∧
      (g.location = none → w'.machine.frames = #[] ∧ ∃ n, g.error = .multiReturnMismatch 1 n)
  | .error .outOfFuel _ => True

/-! ## Ways out of a frame -/

/-- A frame that has been left hands over its results. -/
def Run.handOver (f : Frame) (results : List Value) (stop : Nat) : Run Control := do
  closeFrom f.base
  truncate f.base
  if !f.discards then pushResults results f.base
  return if (← depth) ≤ stop then .exit .returned else .next

theorem closeFrom_ok (start : Nat) (w : World) : ∃ w', closeFrom start w = .ok () w' := by
  unfold closeFrom
  split <;> exact ⟨_, rfl⟩

/-- It does so, or they are refused. -/
theorem handOver_cases (f : Frame) (results : List Value) (stop : Nat) (w : World) : ∃ w', Calm w w' ∧
    (handOver f results stop w = .ok (if w.machine.frames.size ≤ stop then .exit .returned else .next) w' ∨
      f.discards = false ∧
        handOver f results stop w = .error (.failed { error := .multiReturnMismatch 1 results.length }) w') := by
  obtain ⟨w₁, closed⟩ := closeFrom_ok f.base w
  have calm := (calms_closeFrom f.base w).1
  rw [closed] at calm
  let w₂ : World := { w₁ with machine.stack := w₁.machine.stack.shrink f.base }
  have calm₂ : Calm w w₂ := calm.trans (calms_truncate f.base w₁).1
  have ended (w' : World) (calm : Calm w₂ w') : (.ok (if w'.machine.frames.size ≤ stop then .exit .returned else .next) w' :
      EStateM.Result Halt World Control) = .ok (if w.machine.frames.size ≤ stop then .exit .returned else .next) w' := by
    rw [(calm₂.trans calm).frames]
  have enter : handOver f results stop w = (do
      if !f.discards then pushResults results f.base
      return if (← depth) ≤ stop then .exit .returned else .next : Run Control) w₂ := by
    change (closeFrom f.base >>= _ : Run Control) w = _
    rw [bind_eq, closed]
    rfl
  rw [enter]
  cases discards : f.discards with
  | true => exact ⟨w₂, calm₂, .inl (ended w₂ (.refl _))⟩
  | false =>
    by_cases taken : results.length = 1 ∨ w₂.machine.marks.head? = some f.base
    · refine ⟨_, calm₂.trans (calms_pushAll results w₂).1, .inl ?_⟩
      change ((if results.length = 1 ∨ w₂.machine.marks.head? = some f.base then _ else _) >>= _ : Run Control) w₂ = _
      rw [if_pos taken]
      exact ended _ (calms_pushAll results w₂).1
    · refine ⟨w₂, calm₂, .inr ⟨rfl, ?_⟩⟩
      change ((if results.length = 1 ∨ w₂.machine.marks.head? = some f.base then _ else _) >>= _ : Run Control) w₂ = _
      rw [if_neg taken]
      rfl

section

variable {P : World → Prop} {k : Nat} (known : P u) (stands : u.Stands) (orderly : u.Orderly)
  (above : stop < u.machine.frames.size) (frames : u.machine.frames = F.push f)
  (inside : f.closure < u.heap.closures.size)

section

include above frames

theorem World.Holds.guards_of_fetched (holds : u.fetched.Holds F w') : u.Guards stop w' := by
  have natives : u.fetched.natives = u.natives := by
    rw [u.fetched_of_push frames]
    rfl
  have heap := holds.heap
  rw [u.heap_fetched] at heap
  exact World.Holds.guards ⟨holds.frames, holds.natives.trans natives, heap⟩ frames above

theorem above_fetched : stop < u.fetched.machine.frames.size := by
  rwa [u.frames_fetched frames, Array.size_push, ← Array.size_push f, ← frames]

end

include known stands orderly above frames inside

omit orderly in
/-- An instruction has failed with its frame on top. -/
theorem cycled_failed {g : Failure} (next : u.next? = some i) (holds : u.fetched.Holds F w')
    (failed : step ((Watch.only P).again k) stop i u.fetched = .error (.failed g) w')
    (some : F.size < w'.machine.frames.size) (accounted : g.Accounted (Arisen P))
    (own : g.location = none → (∃ n, g.error = .stackOverflow n) ∨ ∃ more, (more = 0 ∨ ∃ n, i = .closure n) ∧
      f.ip + 1 + more ≤ (u.heap.code f.closure).code.size ∧
      w'.machine.frames = F.push { f with ip := f.ip + 1 + more }) :
    Cycled (Arisen P) stop u (located (step ((Watch.only P).again k) stop i) u.fetched) := by
  have guards := holds.guards_of_fetched above frames
  unfold located
  rw [failed]
  refine ⟨guards, Failure.accounted_locate accounted fun bare place found proper => ?_, fun none => ?_⟩
  · obtain ⟨n, overflow⟩ | ⟨more, words, within, frames'⟩ := own bare
    · exact absurd overflow (proper n)
    have last : f.ip + 1 + more - 1 = f.ip + more := by omega
    rw [frames', location?_push] at found
    dsimp only at found
    rw [last, guards.heap.toWider.code inside] at found
    obtain ⟨error, location⟩ := g
    cases bare
    cases found
    exact ⟨u, known, .reading frames next (step_of_only (above_fetched above frames) failed) frames' words
      (stands.sound.passed inside (by omega))⟩
  · have empty := location?_eq_none (Failure.locate_eq_none none).2
    rw [empty] at some
    cases some

theorem cycled_plain (informs : Informs (Arisen P) ((Watch.only P).again k))
    (code : (u.heap.code f.closure).code[f.ip]? = some i) (next : u.next? = some i) (ordinary : i.isWayOut = false) :
    Cycled (Arisen P) stop u (located (step ((Watch.only P).again k) stop i) u.fetched) := by
  have handled := stands.handled orderly informs frames inside code next
  have stepped : step ((Watch.only P).again k) stop i = _ := step_ordinary stop ordinary
  cases ran : plain ((Watch.only P).again k) i u.fetched with
  | ok a w' =>
    rw [ran] at handled
    obtain ⟨orderly', holds, more⟩ := handled
    have went : located (step ((Watch.only P).again k) stop i) u.fetched = .ok .next w' := by
      unfold located
      rw [stepped, bind_eq, ran]
      rfl
    rw [went]
    have guards := holds.guards_of_fetched above frames
    rw [frames, Array.size_push] at above
    exact ⟨orderly', guards, by omega⟩
  | error e w' =>
    rw [ran] at handled
    have failed : step ((Watch.only P).again k) stop i u.fetched = .error e w' := by rw [stepped, bind_eq, ran]
    cases e with
    | outOfFuel =>
      unfold located
      rw [failed]
      trivial
    | failed g =>
      obtain ⟨holds, some, accounted, own⟩ := handled
      rw [u.heap_fetched] at own
      exact cycled_failed known stands above frames inside next holds failed some accounted own

omit orderly in
/-- What the frame does first goes wrong, before anything is done to frames. -/
theorem cycled_calm {g : Failure} (code : (u.heap.code f.closure).code[f.ip]? = some i) (next : u.next? = some i)
    (calm : Calm u.fetched w') (bare : g.location = none)
    (failed : step ((Watch.only P).again k) stop i u.fetched = .error (.failed g) w') :
    Cycled (Arisen P) stop u (located (step ((Watch.only P).again k) stop i) u.fetched) := by
  have frames' := calm.frames.trans (u.frames_fetched frames)
  refine cycled_failed known stands above frames inside next ⟨?_, calm.natives, calm.heap⟩ failed ?_
    (Failure.accounted_of_bare bare) fun _ => .inr ⟨0, .inl rfl, (Array.getElem?_eq_some_iff.mp code).1, frames'⟩
  · rw [frames', Array.toList_push]
    exact List.prefix_append _ _
  · rw [frames', Array.size_push]
    exact Nat.lt_succ_self _

theorem cycled_yield (code : (u.heap.code f.closure).code[f.ip]? = some .yield) (next : u.next? = some .yield) :
    Cycled (Arisen P) stop u (located (step ((Watch.only P).again k) stop .yield) u.fetched) := by
  have yields : step ((Watch.only P).again k) stop .yield u.fetched = yield u.fetched := rfl
  rw [Pausing.yield_eq] at yields
  by_cases free : u.fetched.machine.hostCalls = 0
  · rw [if_pos free] at yields
    unfold located
    rw [yields]
    have holds : u.fetched.Holds F u.fetched := ⟨by
      rw [u.frames_fetched frames, Array.toList_push]
      exact List.prefix_append _ _, rfl, .refl _⟩
    exact ⟨orderly.fetched frames, holds.guards_of_fetched above frames, nofun⟩
  · rw [if_neg free] at yields
    exact cycled_calm known stands above frames inside code next (.refl _) rfl yields

omit known stands inside in
/-- A frame has handed over what it returns. -/
theorem cycled_left (holds : u.fetched.Holds F w') (gone : w'.machine.frames = F)
    (went : step ((Watch.only P).again k) stop i u.fetched = .ok (if F.size ≤ stop then .exit .returned else .next) w') :
    Cycled (Arisen P) stop u (located (step ((Watch.only P).again k) stop i) u.fetched) := by
  have guards := holds.guards_of_fetched above frames
  have waits := orderly.waits
  rw [frames, Array.toList_push] at waits
  rw [frames, Array.size_push] at above
  have orderly' : w'.Orderly := by
    refine ⟨orderly.native_of guards.natives, guards.heap.chained orderly.chained, ?_⟩
    rw [gone]
    exact (waits.imp fun _ _ awaits => awaits.wider guards.heap.toWider).left_of_append
  unfold located
  rw [went]
  dsimp only
  split
  · next last => exact ⟨orderly', guards, fun _ => by rw [gone]; omega⟩
  · next more => exact ⟨orderly', guards, by rw [gone]; omega⟩

omit inside in
/-- What a frame returns is refused, and what the frame below it has read last is its call. -/
theorem cycled_refused {count : UInt8} {results : List Value} (holds : u.fetched.Holds F w') (gone : w'.machine.frames = F)
    (next : u.next? = some (.ret count)) (discards : f.discards = false)
    (refused : step ((Watch.only P).again k) stop (.ret count) u.fetched =
      .error (.failed { error := .multiReturnMismatch 1 results.length }) w') :
    Cycled (Arisen P) stop u (located (step ((Watch.only P).again k) stop (.ret count)) u.fetched) := by
  have guards := holds.guards_of_fetched above frames
  unfold located
  rw [refused]
  refine ⟨guards, Failure.accounted_locate (Failure.accounted_of_bare rfl) fun _ place found _ => ?_, fun none =>
    ⟨location?_eq_none (Failure.locate_eq_none none).2, _, rfl⟩⟩
  obtain ⟨G, g, rfl⟩ : ∃ (G : Array Frame) (g : Frame), F = G.push g := by
    unfold Heap.location? at found
    rw [gone] at found
    split at found
    · next g top => exact ⟨_, g, (Array.back?_eq_some_iff.mp top).choose_spec⟩
    · cases found
  have waits := orderly.waits
  rw [frames, Array.toList_push, Array.toList_push, List.isChain_append] at waits
  obtain ⟨waiting, n, j, ip, word, calls⟩ := waits.2.2 g (by simp) f rfl discards
  rw [gone, location?_push, ip, Nat.add_sub_cancel, guards.heap.toWider.code waiting] at found
  cases found
  exact ⟨u, known, .refused frames next rfl (step_of_only (above_fetched above frames) refused) gone ip word calls
    (stands.sound.passed waiting (Array.getElem?_eq_some_iff.mp word).1)⟩

theorem cycled_ret {count : UInt8} (code : (u.heap.code f.closure).code[f.ip]? = some (.ret count))
    (next : u.next? = some (.ret count)) :
    Cycled (Arisen P) stop u (located (step ((Watch.only P).again k) stop (.ret count)) u.fetched) := by
  obtain ⟨calm, bare⟩ := calms_popMany count.toNat u.fetched
  have enter : step ((Watch.only P).again k) stop (.ret count) u.fetched =
      (popMany count.toNat >>= fun results => popFrame >>= fun f => handOver f results stop : Run Control) u.fetched := rfl
  rw [bind_eq] at enter
  cases popped : popMany count.toNat u.fetched with
  | error e w' =>
    rw [popped] at enter calm bare
    cases e with
    | outOfFuel =>
      unfold located
      rw [enter]
      trivial
    | failed g => exact cycled_calm known stands above frames inside code next calm bare enter
  | ok results w₁ =>
    rw [popped] at enter calm
    have read : w₁.machine.frames = F.push { f with ip := f.ip + 1 } := calm.frames.trans (u.frames_fetched frames)
    let w₂ : World := { w₁ with machine.frames := F }
    have left : popFrame w₁ = .ok { f with ip := f.ip + 1 } w₂ := by
      unfold popFrame
      rw [read, Array.back?_push, Array.pop_push]
    dsimp only at enter
    rw [bind_eq, left] at enter
    dsimp only at enter
    obtain ⟨w', calm', out⟩ := handOver_cases { f with ip := f.ip + 1 } results stop w₂
    have gone : w'.machine.frames = F := calm'.frames
    have holds : u.fetched.Holds F w' :=
      ⟨by rw [gone], calm'.natives.trans calm.natives, calm.heap.trans calm'.heap⟩
    rcases out with out | ⟨discards, out⟩
    · exact cycled_left orderly above frames holds gone (enter.trans out)
    · exact cycled_refused known stands orderly above frames holds gone next discards (enter.trans out)

end

/-- One instruction of a machine that is stopped where worlds are not of some kind. -/
theorem World.Stands.cycled {P : World → Prop} {k : Nat} (stands : u.Stands) (known : P u) (orderly : u.Orderly)
    (above : stop < u.machine.frames.size) (informs : Informs (Arisen P) ((Watch.only P).again k)) :
    Cycled (Arisen P) stop u (Run.cycle ((Watch.only P).again k) stop u) := by
  obtain ⟨F, f, i, frames, inside, code, next⟩ := stands.reads
  rw [cycle_eq next]
  by_cases out : i.isWayOut
  · cases i with
    | ret count => exact cycled_ret known stands orderly above frames inside code next
    | yield => exact cycled_yield known stands orderly above frames inside code next
    | _ => cases out
  · exact cycled_plain known stands orderly above frames inside informs code next (Bool.eq_false_iff.mpr out)

end

end ScriptEngine
