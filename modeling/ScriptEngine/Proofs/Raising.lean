import ScriptEngine.Proofs.Reentering
import Mathlib.Data.List.Chain

/-!
# Failures of instructions

An instruction fails by itself, without a place yet, or it passes on a failure of a call
that it has made. `Reports Q x` says that whatever place a failure of `x` has is accounted
for by `Q`, and that `x` leaves the frames as they are; `Pushes Q x` is the same for a
computation that may end by putting frames on top. Both are kept by the instructions that
go back into the machine, if the calls that they make keep them.

Frames that wait are the reason why the place of a failure can be read off later: a frame
stands behind the word by which it called the one above it.
-/
namespace ScriptEngine

/-- What is said of the place of an error holds of the failure, if it has a place. -/
def Failure.Accounted (Q : RuntimeError → Location → Prop) (f : Failure) : Prop :=
  ∀ place, f.location = some place → Q f.error place

theorem Failure.accounted_of_bare {Q : RuntimeError → Location → Prop} {f : Failure} (bare : f.location = none) :
    f.Accounted Q := by
  intro place located
  rw [bare] at located
  cases located

/-! ## Functions of the host -/

/-- A function of the host that raises no failures but those that are known and those of its own calls. The closures
that there are stay as they are, and the init chains that it makes are closures. -/
def NativeProgram.Relays (known : Failure → Prop) : NativeProgram → Prop
  | .finish _ => True
  | .raise f => known f
  | .count next => ∀ n, (next n).Relays known
  | .argument _ next => ∀ v, (next v).Relays known
  | .read next => ∀ h, (next h).Relays known
  | .allocate make next => (∀ h : Heap, h.Mild (make h).2) ∧ ∀ v, (next v).Relays known
  | .push _ next => next.Relays known
  | .call _ _ next => (∀ vs, (next (.ok vs)).Relays known) ∧ ∀ f, (next (.error f)).Relays fun g => known g ∨ g = f
  | .interpret _ next => next.Relays known

/-- Failures that it raises by itself have no place. -/
def NativeBody.Relays : NativeBody → Prop
  | .core _ => True
  | .program steps => steps.Relays fun f => f.location = none

/-! ## Frames that wait -/

/-- An instruction by which a frame comes to wait. -/
def Instruction.calls : Instruction → Bool
  | call _ | invoke .. | superInvoke .. | testSet _ | testCase .. => true
  | _ => false

/-- The frame stands behind an instruction that calls. -/
def Heap.Behind (h : Heap) (f : Frame) : Prop :=
  f.closure < h.closures.size ∧ ∃ n i, f.ip = n + 1 ∧ (h.code f.closure).code[n]? = some i ∧ i.calls

/-- A frame with another one on top of it has called that one, unless it is one that nothing is handed over by. -/
def Heap.Awaits (h : Heap) (f g : Frame) : Prop := g.discards = false → h.Behind f

theorem Heap.Behind.wider {h h' : Heap} {f : Frame} (behind : h.Behind f) (wider : h.Wider h') : h'.Behind f := by
  obtain ⟨inside, n, i, ip, code, calls⟩ := behind
  exact ⟨wider.lt inside, n, i, ip, wider.code inside ▸ code, calls⟩

theorem Heap.Awaits.wider {h h' : Heap} {f g : Frame} (awaits : h.Awaits f g) (wider : h.Wider h') : h'.Awaits f g :=
  fun kept => (awaits kept).wider wider

/-- Frames wait for those on top of them, natives relay failures, and init chains are closures. -/
structure World.Orderly (w : World) : Prop where
  natives : ∀ ref, (w.native ref).Relays
  chained : w.heap.Chained
  waits : w.machine.frames.toList.IsChain w.heap.Awaits

/-- In the midst of an instruction that calls. -/
structure World.Midway (w : World) : Prop extends w.Orderly where
  behind : ∃ f, w.machine.frames.back? = some f ∧ w.heap.Behind f

/-- Frames and natives are as before, and nothing in the heap is out of order. -/
structure World.Spares (w w' : World) : Prop where
  frames : w'.machine.frames = w.machine.frames
  natives : w'.natives = w.natives
  heap : w.heap.Mild w'.heap

/-- As `World.Spares`, but there may be frames on top, of which all but the lowest are for init chains. -/
structure World.Pushes (w w' : World) : Prop where
  frames : ∃ gs, w'.machine.frames.toList = w.machine.frames.toList ++ gs ∧ ∀ g ∈ gs.tail, g.discards = true
  natives : w'.natives = w.natives
  heap : w.heap.Mild w'.heap

section

variable {w w' w'' : World}

theorem World.Spares.refl (w : World) : w.Spares w := ⟨rfl, rfl, .refl _⟩

theorem World.Spares.trans (h : w.Spares w') (h' : w'.Spares w'') : w.Spares w'' :=
  ⟨h'.frames.trans h.frames, h'.natives.trans h.natives, h.heap.trans h'.heap⟩

theorem Calm.spares (calm : Calm w w') : w.Spares w' := ⟨calm.frames, calm.natives, calm.heap⟩

theorem World.Spares.pushes (h : w.Spares w') : w.Pushes w' := ⟨⟨[], by simp [h.frames], nofun⟩, h.natives, h.heap⟩

theorem World.Spares.then_pushes (h : w.Spares w') (h' : w'.Pushes w'') : w.Pushes w'' := by
  obtain ⟨gs, frames, discards⟩ := h'.frames
  exact ⟨⟨gs, h.frames ▸ frames, discards⟩, h'.natives.trans h.natives, h.heap.trans h'.heap⟩

theorem World.Orderly.native_of (orderly : w.Orderly) (natives : w'.natives = w.natives) :
    ∀ ref, (w'.native ref).Relays := by
  unfold World.native
  rw [natives]
  exact orderly.natives

theorem World.Orderly.spares (orderly : w.Orderly) (h : w.Spares w') : w'.Orderly where
  natives := orderly.native_of h.natives
  chained := h.heap.chained orderly.chained
  waits := h.frames ▸ orderly.waits.imp fun _ _ awaits => awaits.wider h.heap.toWider

theorem World.Midway.spares (midway : w.Midway) (h : w.Spares w') : w'.Midway where
  toOrderly := midway.toOrderly.spares h
  behind := by
    obtain ⟨f, top, behind⟩ := midway.behind
    exact ⟨f, h.frames ▸ top, behind.wider h.heap.toWider⟩

/-- Nothing waits for frames of init chains. -/
theorem isChain_discards {h : Heap} {f : Frame} {gs : List Frame} (discards : ∀ g ∈ gs, g.discards = true) :
    (f :: gs).IsChain h.Awaits := by
  induction gs generalizing f with
  | nil => exact .singleton f
  | cons g gs ih =>
    rw [List.forall_mem_cons] at discards
    refine List.isChain_cons_cons.mpr ⟨fun kept => ?_, ih discards.2⟩
    rw [discards.1] at kept
    cases kept

/-- The frame that calls is the one that the lowest new frame is put on. -/
theorem World.Midway.pushes (midway : w.Midway) (h : w.Pushes w') : w'.Orderly where
  natives := midway.native_of h.natives
  chained := h.heap.chained midway.chained
  waits := by
    obtain ⟨gs, frames, discards⟩ := h.frames
    obtain ⟨f, top, behind⟩ := midway.behind
    have wider := h.heap.toWider
    have waits := midway.waits.imp fun _ _ awaits => awaits.wider wider
    rw [frames]
    cases gs with
    | nil => rwa [List.append_nil]
    | cons g gs =>
      refine List.isChain_append.mpr ⟨waits, isChain_discards discards, fun x last y _ _ => ?_⟩
      rw [Array.getLast?_toList, top] at last
      cases last
      exact behind.wider wider

end

namespace Run

variable {α β : Type} {Q : RuntimeError → Location → Prop}

/-- The frames are as they were, and the place of a failure is accounted for. -/
def Reported (Q : RuntimeError → Location → Prop) (w : World) : EStateM.Result Halt World α → Prop
  | .ok _ w' => w.Spares w'
  | .error (.failed f) w' => w.Spares w' ∧ f.Accounted Q
  | .error .outOfFuel _ => True

/-- There may be frames on top, and the place of a failure is accounted for. A failure without one leaves the frames as
they were, unless no more could be put on top. -/
def Stacked (Q : RuntimeError → Location → Prop) (w : World) : EStateM.Result Halt World α → Prop
  | .ok _ w' => w.Pushes w'
  | .error (.failed f) w' => w.Pushes w' ∧ f.Accounted Q ∧
      (f.location = none → w'.machine.frames = w.machine.frames ∨ ∃ n, f.error = .stackOverflow n)
  | .error .outOfFuel _ => True

def Reports (Q : RuntimeError → Location → Prop) (x : Run α) : Prop := ∀ w, w.Midway → Reported Q w (x w)

def Stacks (Q : RuntimeError → Location → Prop) (x : Run α) : Prop := ∀ w, w.Midway → Stacked Q w (x w)

theorem Reported.after {w w' : World} {r : EStateM.Result Halt World α} (spares : w.Spares w') (h : Reported Q w' r) :
    Reported Q w r := by
  unfold Reported at h ⊢
  split
  · exact spares.trans h
  · exact ⟨spares.trans h.1, h.2⟩
  · trivial

theorem Stacked.after {w w' : World} {r : EStateM.Result Halt World α} (spares : w.Spares w') (h : Stacked Q w' r) :
    Stacked Q w r := by
  unfold Stacked at h ⊢
  split
  · exact spares.then_pushes h
  · refine ⟨spares.then_pushes h.1, h.2.1, fun bare => ?_⟩
    rw [← spares.frames]
    exact h.2.2 bare
  · trivial

theorem Reported.stacked {w : World} {r : EStateM.Result Halt World α} (h : Reported Q w r) : Stacked Q w r := by
  unfold Reported at h
  unfold Stacked
  split
  · exact h.pushes
  · exact ⟨h.1.pushes, h.2, fun _ => .inl h.1.frames⟩
  · trivial

namespace Reports

theorem of_calms {x : Run α} (h : Calms x) : Reports Q x := by
  intro w _
  obtain ⟨calm, bare⟩ := h w
  cases ran : x w with
  | ok a w' =>
    rw [ran] at calm
    exact calm.spares
  | error e w' =>
    rw [ran] at calm bare
    cases e with
    | failed f => exact ⟨calm.spares, Failure.accounted_of_bare bare⟩
    | outOfFuel => trivial

theorem bind {x : Run α} {f : α → Run β} (first : Reports Q x) (then_ : ∀ a, Reports Q (f a)) : Reports Q (x >>= f) := by
  intro w midway
  have h := first w midway
  change Reported Q w (EStateM.bind x f w)
  unfold EStateM.bind
  cases ran : x w with
  | ok a w' =>
    rw [ran] at h
    exact .after h (then_ a w' (midway.spares h))
  | error e w' =>
    rw [ran] at h
    cases e <;> exact h

theorem of_bind {x : Run α} {f : α → Run β} (first : Calms x) (then_ : ∀ a, Reports Q (f a)) : Reports Q (x >>= f) :=
  (of_calms first).bind then_

theorem map {x : Run α} (h : Reports Q x) (f : α → β) : Reports Q (f <$> x) := by
  rw [← bind_pure_comp]
  exact h.bind fun _ => of_calms (.pure _)

theorem ite {c : Prop} [Decidable c] {x y : Run α} (hx : Reports Q x) (hy : Reports Q y) :
    Reports Q (if c then x else y) := by
  split
  · exact hx
  · exact hy

/-- What is done about a failure may raise it again. -/
theorem attempt {x : Run α} {f : Except Failure α → Run β} (h : Reports Q x) (ok : ∀ a, Reports Q (f (.ok a)))
    (error : ∀ g : Failure, g.Accounted Q → Reports Q (f (.error g))) : Reports Q (attempt x >>= f) := by
  intro w midway
  have first := h w midway
  change Reported Q w (EStateM.bind (Run.attempt x) f w)
  unfold EStateM.bind Run.attempt
  cases ran : x w with
  | ok a w' =>
    rw [ran] at first
    exact .after first (ok a w' (midway.spares first))
  | error e w' =>
    rw [ran] at first
    cases e with
    | failed g => exact .after first.1 (error g first.2 w' (midway.spares first.1))
    | outOfFuel => trivial

theorem raise {f : Failure} (accounted : f.Accounted Q) : Reports Q (raise f : Run α) :=
  fun w _ => ⟨.refl w, accounted⟩

theorem mapM {f : α → Run β} (each : ∀ a, Reports Q (f a)) (as : List α) : Reports Q (as.mapM f) := by
  induction as with
  | nil => exact of_calms (.pure _)
  | cons a as ih =>
    rw [List.mapM_cons]
    exact (each a).bind fun _ => ih.bind fun _ => of_calms (.pure _)

theorem foldlM {f : β → α → Run β} (each : ∀ b a, Reports Q (f b a)) (as : List α) (b : β) :
    Reports Q (as.foldlM f b) := by
  induction as generalizing b with
  | nil => exact of_calms (.pure _)
  | cons a as ih =>
    rw [List.foldlM_cons]
    exact (each b a).bind ih

theorem filterM {f : α → Run Bool} (each : ∀ a, Reports Q (f a)) (as : List α) : Reports Q (as.filterM f) := by
  have aux (taken : List α) : Reports Q (as.filterAuxM f taken) := by
    induction as generalizing taken with
    | nil => exact of_calms (.pure _)
    | cons a as ih => exact (each a).bind fun _ => ih _
  exact (aux []).bind fun _ => of_calms (.pure _)

end Reports

namespace Stacks

theorem of_reports {x : Run α} (h : Reports Q x) : Stacks Q x := fun w midway => (h w midway).stacked

theorem of_calms {x : Run α} (h : Calms x) : Stacks Q x := of_reports (.of_calms h)

theorem of_bind {x : Run α} {f : α → Run β} (first : Calms x) (then_ : ∀ a, Stacks Q (f a)) : Stacks Q (x >>= f) := by
  intro w midway
  have h := Reports.of_calms (Q := Q) first w midway
  change Stacked Q w (EStateM.bind x f w)
  unfold EStateM.bind
  cases ran : x w with
  | ok a w' =>
    rw [ran] at h
    exact .after h (then_ a w' (midway.spares h))
  | error e w' =>
    rw [ran] at h
    have stacked := h.stacked
    cases e <;> exact stacked

theorem ite {c : Prop} [Decidable c] {x y : Run α} (hx : Stacks Q x) (hy : Stacks Q y) :
    Stacks Q (if c then x else y) := by
  split
  · exact hx
  · exact hy

end Stacks

/-! ## New frames -/

theorem stacks_pushFrame (f : Frame) : Stacks Q (pushFrame f) := by
  intro w midway
  change Stacked Q w ((if w.machine.frames.size < w.machine.settings.maxFrames then _ else _ : Run Unit) w)
  split
  · exact ⟨⟨[f], by simp, nofun⟩, rfl, .refl _⟩
  · exact (Reports.of_calms (calms_fail _) w midway).stacked

theorem stacks_callClosure (ref argc base : Nat) : Stacks Q (callClosure ref argc base) :=
  .of_bind calms_heap fun _ => .ite (stacks_pushFrame _) (.of_calms (calms_fail _))

/-- Frames for init chains, as far as there is room for them. -/
theorem pushChains_cases (made : Value) (type : String) {chains : List Value} (closures : ∀ v ∈ chains, ∃ r, v = .closure r)
    (w : World) : ∃ gs w', (∀ g ∈ gs, g.discards = true) ∧ w'.machine.frames.toList = w.machine.frames.toList ++ gs ∧
      w'.natives = w.natives ∧ w.heap.Mild w'.heap ∧ (pushChains made type chains w = .ok () w' ∨
        ∃ n, pushChains made type chains w = .error (.failed { error := .stackOverflow n }) w') := by
  induction chains generalizing w with
  | nil => exact ⟨[], w, nofun, by simp, rfl, .refl _, .inl rfl⟩
  | cons v chains ih =>
    rw [List.forall_mem_cons] at closures
    obtain ⟨⟨ref, rfl⟩, closures⟩ := closures
    let frame : Frame := { closure := ref, base := w.machine.stack.size, discards := true }
    let w₁ : World := { w with machine.stack := w.machine.stack.push made }
    have enter : pushChains made type (.closure ref :: chains) w =
        EStateM.bind (pushFrame frame) (fun _ => pushChains made type chains) w₁ := rfl
    have pushed : pushFrame frame w₁ = if w.machine.frames.size < w.machine.settings.maxFrames then
        .ok () { w₁ with machine.frames := w.machine.frames.push frame }
      else .error (.failed { error := .stackOverflow w.machine.settings.maxFrames }) w₁ := by
      change (if w.machine.frames.size < w.machine.settings.maxFrames then _ else _ : Run Unit) w₁ = _
      split <;> rfl
    rw [enter, EStateM.bind, pushed]
    by_cases room : w.machine.frames.size < w.machine.settings.maxFrames
    · rw [if_pos room]
      obtain ⟨gs, w', discards, frames, natives, heap, ran⟩ :=
        ih closures { w₁ with machine.frames := w.machine.frames.push frame }
      refine ⟨frame :: gs, w', ?_, ?_, natives, heap, ran⟩
      · rw [List.forall_mem_cons]
        exact ⟨rfl, discards⟩
      · rw [frames, Array.toList_push, List.append_assoc]
        rfl
    · rw [if_neg room]
      exact ⟨[], w₁, nofun, by simp [w₁], rfl, .refl _, .inr ⟨_, rfl⟩⟩

/-- Frames for init chains on top of others. -/
theorem Stacks.chains {x : Run Unit} (h : Stacks Q x) (made : Value) (type : String) {chains : List Value}
    (closures : ∀ v ∈ chains, ∃ r, v = .closure r) : Stacks Q (x >>= fun _ => pushChains made type chains) := by
  intro w midway
  have first := h w midway
  change Stacked Q w (EStateM.bind x _ w)
  unfold EStateM.bind
  cases ran : x w with
  | error e w₁ =>
    rw [ran] at first
    cases e <;> exact first
  | ok a w₁ =>
    rw [ran] at first
    obtain ⟨⟨gs, frames, discards⟩, natives, heap⟩ := first
    obtain ⟨gs', w', discards', frames', natives', heap', out⟩ := pushChains_cases made type closures w₁
    have pushes : w.Pushes w' := by
      refine ⟨⟨gs ++ gs', by rw [frames', frames, List.append_assoc], fun g mem => ?_⟩, natives'.trans natives,
        heap.trans heap'⟩
      cases gs with
      | nil => exact discards' g (List.mem_of_mem_tail mem)
      | cons _ gs => exact (List.mem_append.mp mem).elim (discards g) (discards' g)
    dsimp only
    rcases out with out | ⟨n, out⟩ <;> rw [out]
    · exact pushes
    · exact ⟨pushes, Failure.accounted_of_bare rfl, fun _ => .inr ⟨n, rfl⟩⟩

theorem stacks_instantiate (ref argc base : Nat) : Stacks Q (instantiate ref argc base) := by
  intro w midway
  have closures : ∀ v ∈ (w.heap.userType ref).initChains.reverse, ∃ r, v = .closure r := fun v mem =>
    midway.chained.userType ref v (List.mem_reverse.mp mem)
  have made (t : UserType) (closures : ∀ v ∈ t.initChains.reverse, ∃ r, v = .closure r) :
      Stacks Q (makeObject ref argc base t) := by
    refine .of_bind (calms_allocate fun _ => .same rfl rfl rfl) fun made => .of_bind (calms_setSlot _ _) fun _ => ?_
    split
    · exact (stacks_callClosure _ _ _).chains _ _ closures
    · have none : Stacks Q (pure () >>= fun _ => pushChains made t.name t.initChains.reverse) :=
        (Stacks.of_calms (.pure ())).chains _ _ closures
      exact .ite (.of_bind (calms_fail _) fun _ => none) none
  change Stacked Q w ((if (w.heap.userType ref).kind = .enumKind then _ else _ : Run Unit) w)
  split
  · exact (Stacks.of_bind (calms_fail _) fun _ => made _ closures) w midway
  · exact made _ closures w midway

/-! ## Instructions that go back into the machine -/

/-- Calls and scripts that report their failures. -/
structure Informs (Q : RuntimeError → Location → Prop) (again : Reentry) : Prop where
  call : ∀ callee args, Reports Q (again.call callee args)
  interpret : ∀ s, Reports Q (again.interpret s)

section

variable {again : Reentry} (h : Informs Q again)
include h

theorem Informs.perform {known : Failure → Prop} (accounted : ∀ f, known f → f.Accounted Q) (args : Window)
    {steps : NativeProgram} (relays : steps.Relays known) : Reports Q (Native.perform again args steps) := by
  induction steps generalizing known with
  | finish result => exact .of_calms (.pure _)
  | raise failure => exact .raise (accounted _ relays)
  | count next ih => exact ih _ accounted (relays _)
  | argument index next ih => exact .of_bind (calms_argument _ _) fun v => ih v accounted (relays v)
  | read next ih => exact .of_bind calms_heap fun heap => ih heap accounted (relays heap)
  | allocate make next ih => exact .of_bind (calms_allocate relays.1) fun v => ih v accounted (relays.2 v)
  | push v next ih => exact .of_bind (calms_push _) fun _ => ih accounted relays
  | call callee values next ih =>
    refine (h.call callee values).attempt (fun vs => ih _ accounted (relays.1 vs)) fun f reported => ?_
    refine ih _ (fun g known => ?_) (relays.2 f)
    rcases known with known | rfl
    · exact accounted g known
    · exact reported
  | interpret script next ih => exact (h.interpret script).bind fun _ => ih accounted relays

theorem Informs.run {body : NativeBody} (relays : body.Relays) (args : Window) :
    Reports Q (Native.run again body args) := by
  cases body with
  | core function => exact .of_calms (calms_core function args)
  | program steps => exact h.perform (fun _ => Failure.accounted_of_bare) args relays

theorem Informs.callBack (f : Value) (args : List Value) : Reports Q (Native.first <$> again.call f args) :=
  (h.call f args).map _

theorem Informs.listMap (ref : Nat) (args : Window) : Reports Q (Native.listMap again ref args) :=
  .of_bind (calms_expect _ _ _) fun _ => .of_bind (calms_items ref) fun items =>
    .of_bind (calms_argument _ _) fun f => (Reports.mapM (fun item => h.callBack f [item]) items).bind
      fun _ => .of_bind (calms_allocate fun _ => .same rfl rfl rfl) fun _ => .of_calms (calms_give _)

theorem Informs.listFilter (ref : Nat) (args : Window) : Reports Q (Native.listFilter again ref args) :=
  .of_bind (calms_expect _ _ _) fun _ => .of_bind (calms_items ref) fun items =>
    .of_bind (calms_argument _ _) fun f =>
      (Reports.filterM (fun item => (h.call f [item]).bind fun _ => .of_calms (.pure _)) items).bind
        fun _ => .of_bind (calms_allocate fun _ => .same rfl rfl rfl) fun _ => .of_calms (calms_give _)

theorem Informs.listReduce (ref : Nat) (args : Window) : Reports Q (Native.listReduce again ref args) :=
  .of_bind (calms_expect _ _ _) fun _ => .of_bind (calms_items ref) fun items =>
    .of_bind (calms_argument _ _) fun f => .of_bind (calms_argument _ _) fun start =>
      (Reports.foldlM (fun acc item => h.callBack f [acc, item]) items start).bind fun _ => .of_calms (calms_give _)

theorem Informs.listMethod {ref : Nat} {name : String} {method : Window → Run NativeResult}
    (found : Native.listMethod? again ref name = some method) (args : Window) : Reports Q (method args) := by
  unfold Native.listMethod? at found
  split at found <;> cases found
  · exact .of_calms (calms_listAdd ref args)
  · exact .of_calms (calms_listCount ref args)
  · exact .of_calms (calms_listGet ref args)
  · exact h.listMap ref args
  · exact h.listFilter ref args
  · exact h.listReduce ref args

omit h in
theorem Reports.callNative {method : Window → Run NativeResult} (each : ∀ args, Reports Q (method args)) (argc base : Nat) :
    Reports Q (callNative method argc base) :=
  (each _).bind fun _ => .of_bind (calms_takeFrom _) fun _ => .of_bind (calms_truncate _) fun _ =>
    .of_calms (.ite (calms_pushResults _ _) (calms_pushResults _ _))

theorem Informs.native (ref argc base : Nat) : Reports Q (do callNative (← native again ref) argc base) :=
  fun w midway => Reports.callNative (h.run (midway.natives ref)) argc base w midway

theorem Informs.callParts (args : List Value) (last : Value) (parts : List Value) :
    Reports Q (callParts again args last parts) := by
  induction parts generalizing last with
  | nil => exact .of_calms (.pure _)
  | cons part rest ih => exact (h.call part args).bind fun _ => ih _

theorem Informs.callCombined (parts : List Value) (base : Nat) : Reports Q (callCombined again parts base) :=
  .of_bind (calms_takeFrom _) fun _ => .of_bind (calms_truncate _) fun _ =>
    (h.callParts _ _ _).bind fun _ => .of_calms (calms_push _)

theorem Informs.callTop (argc : Nat) : Stacks Q (callTop again argc) := by
  refine .of_bind (calms_calleeSlot argc) fun base => .of_bind (calms_slot base) fun v => ?_
  split
  · exact stacks_callClosure _ _ _
  · refine .of_bind calms_heap fun heap => .of_bind (calms_setSlot _ _) fun _ => ?_
    split
    · exact stacks_callClosure _ _ _
    · exact .of_reports (h.native _ _ _)
    · exact .of_calms (calms_fail _)
  · exact stacks_instantiate _ _ _
  · exact .of_reports (h.native _ _ _)
  · exact .of_bind calms_heap fun _ => .of_reports (h.callCombined _ _)
  · exact .of_calms (calms_fail _)

theorem Informs.callInstead (callee : Value) (argc base : Nat) : Stacks Q (callInstead again callee argc base) :=
  .of_bind (calms_setSlot _ _) fun _ => h.callTop argc

theorem Informs.invoke (index : UInt16) (argc : Nat) : Stacks Q (invoke again index argc) := by
  refine .of_bind (calms_name index) fun name => .of_bind (calms_calleeSlot argc) fun base =>
    .of_bind (calms_slot base) fun receiver => .of_bind calms_heap fun heap => ?_
  have undefined := Stacks.of_calms (Q := Q) (calms_undefinedMethod (α := Unit) receiver name)
  split
  · dsimp only
    split
    · exact h.callInstead _ _ _
    · split
      · exact stacks_callClosure _ _ _
      · exact .of_reports (h.native _ _ _)
      · exact h.callInstead _ _ _
      · exact undefined
  · split
    · exact h.callInstead _ _ _
    · exact undefined
  · split
    · rename_i found
      exact .of_reports (.callNative (h.listMethod found) _ _)
    · exact undefined
  · split
    · rename_i found
      exact .of_reports (.callNative (fun args => .of_calms (calms_mapMethod found args)) _ _)
    · exact undefined
  · exact undefined

omit h in
theorem stacks_superInvoke (index : UInt16) (argc : Nat) : Stacks Q (superInvoke index argc) := by
  refine .of_bind (calms_name index) fun name => .of_bind (calms_popType _) fun ref =>
    .of_bind (calms_calleeSlot _) fun base => .of_bind (calms_userType ref) fun t => ?_
  split
  · exact stacks_callClosure _ _ _
  · exact .of_calms (calms_undefinedInSuper _ _)

/-! ## Tests -/

omit h in
theorem reports_setCurrent (set : Option String) : Reports Q (setCurrent set) := fun _ _ => ⟨rfl, rfl, .refl _⟩

omit h in
/-- A failure that is not noted goes on. -/
theorem reports_recordCase (set case : String) {outcome : Except Failure (List Value)}
    (accounted : ∀ f, outcome = .error f → f.Accounted Q) : Reports Q (recordCase set case outcome) := by
  cases outcome with
  | ok => exact .of_calms (calms_modifyTests (·.record set case none))
  | error f =>
    have noted : Reports Q (do
        let h ← heap
        modifyTests (·.record set case (some (f.message h)))) :=
      .of_bind calms_heap fun _ => .of_calms (calms_modifyTests _)
    exact .ite ((Reports.raise (accounted f rfl)).bind fun _ => noted) noted

theorem Informs.recorded (set : String) (case : String) (callee : Value) (args : List Value) {f : Run α}
    (rest : Reports Q f) : Reports Q (do
      let outcome ← attempt (again.call callee args)
      recordCase set case outcome
      f) :=
  (h.call callee args).attempt (fun _ => (reports_recordCase _ _ nofun).bind fun _ => rest) fun _ accounted =>
    (reports_recordCase _ _ fun _ same => Except.error.inj same ▸ accounted).bind fun _ => rest

theorem Informs.testSet (index : UInt16) : Reports Q (testSet again index) := by
  refine .of_bind (calms_name index) fun name => .of_bind calms_pop fun body =>
    .of_bind (calms_modifyTests _) fun _ => .of_bind calms_machine fun m => .ite ?_ (.of_calms (.pure _))
  refine (reports_setCurrent _).bind fun _ => (h.call body []).attempt (fun _ => ?_) fun _ accounted => ?_
  · exact (reports_setCurrent _).bind fun _ => .of_calms (.pure _)
  · exact (reports_setCurrent _).bind fun _ => reports_recordCase _ _ fun _ same => Except.error.inj same ▸ accounted

theorem Informs.runRows (set name : String) (case : Value) (i : Nat) (rows : List Value) :
    Reports Q (runRows again set name case i rows) := by
  induction rows generalizing i with
  | nil => exact .of_calms (.pure _)
  | cons row rest ih => exact .of_bind calms_heap fun heap => h.recorded _ _ _ _ (ih _)

theorem Informs.testCase (index : UInt16) (hasRows : Bool) : Reports Q (testCase again index hasRows) := by
  have popped : Calms (some <$> pop) := calms_pop.map _
  refine .of_bind (calms_name index) fun name => .of_bind calms_pop fun case => ?_
  have carried (rows : Option Value) : Reports Q (carryOut again name case rows) := by
    refine .of_bind calms_machine fun m => ?_
    split
    · exact .of_calms (calms_failInternal _)
    · cases rows with
      | none =>
        exact (h.call case []).attempt (fun _ => reports_recordCase _ _ fun _ same => by cases same) fun _ accounted =>
          reports_recordCase _ _ fun _ same => Except.error.inj same ▸ accounted
      | some data => exact .of_bind (calms_dataRows data) fun _ => h.runRows _ _ _ _ _
  split
  · exact .of_bind popped carried
  · exact carried none

/-- Instructions that call. -/
theorem Informs.plain {i : Instruction} (calls : i.calls) : Stacks Q (plain again i) := by
  cases i with
  | call argc => exact h.callTop _
  | invoke name argc => exact h.invoke _ _
  | superInvoke name argc => exact stacks_superInvoke name _
  | testSet name => exact .of_reports (h.testSet _)
  | testCase name hasRows => exact .of_reports (h.testCase _ _)
  | _ => cases calls

end

end Run
end ScriptEngine
