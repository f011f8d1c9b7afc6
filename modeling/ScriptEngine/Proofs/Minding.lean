import ScriptEngine.Proofs.Sparing
import ScriptEngine.Proofs.Raising

/-!
# Calls that mind captured variables

An instruction that goes back into the machine may have other instructions carried out that
capture variables, assign to them and close them. What it relies on is that such a call minds
the variables that it finds: those that it captures in its own frames are closed by the time it
has returned, and an assignment is the only thing that changes a variable. `Mindful` says so of
the ways back, and then all instructions that call mind captured variables too.

As with the footing, two ways back are compared, which do the same.
-/
namespace ScriptEngine

namespace Run

variable {α : Type} {R : Set Nat} {k r s : Nat} {x y : Run α}

/-- What comes of a computation that minds captured variables, where an answer leaves room for `s` values above
slot `k`. -/
def Minded (R : Set Nat) (k s : Nat) (w : World) : EStateM.Result Halt World α → Prop
  | .ok _ w' => w.Minds R k w' ∧ k + s ≤ w'.machine.stack.size
  | .error (.failed _) w' => w.Minds R k w'
  | .error .outOfFuel _ => True

/-- The two do the same where captured variables lie below slot `k` and there is room for `r` values above it, and they
mind captured variables. -/
def Minds (R : Set Nat) (k r s : Nat) (x y : Run α) : Prop :=
  ∀ w : World, w.Moored k → 0 < w.machine.frames.size → k + r ≤ w.machine.stack.size → y w = x w ∧ Minded R k s w (x w)

end Run

theorem World.Minds.inside {R : Set Nat} {k : Nat} {w w' : World} (h : w.Minds R k w')
    (inside : 0 < w.machine.frames.size) : 0 < w'.machine.frames.size := by
  obtain ⟨gs, frames, -⟩ := h.frames
  have size := size_of_split frames
  omega

namespace Run.Minds

open Run

variable {α β : Type} {R : Set Nat} {k r s t : Nat} {x y : Run α}

theorem of_spares {x : Run α} (h : Spares k r s x) : Run.Minds R k r s x x := by
  intro w moored _ room
  refine ⟨rfl, ?_⟩
  have h := h w room
  cases ran : x w with
  | ok a w' =>
    rw [ran] at h
    exact ⟨h.1.minds moored.tidy moored.below, h.2⟩
  | error e w' =>
    rw [ran] at h
    cases e with
    | failed f => exact h.minds moored.tidy moored.below
    | outOfFuel => trivial

theorem bind {f g : α → Run β} (first : Run.Minds R k r s x y) (then_ : ∀ a, Run.Minds R k s t (f a) (g a)) :
    Run.Minds R k r t (x >>= f) (y >>= g) := by
  intro w moored inside room
  obtain ⟨same, h⟩ := first w moored inside room
  rw [bind_eq, bind_eq, same]
  cases ran : x w with
  | error e w' =>
    rw [ran] at h
    exact ⟨rfl, by cases e <;> exact h⟩
  | ok a w' =>
    rw [ran] at h
    obtain ⟨minds, room'⟩ := h
    obtain ⟨same', next⟩ := then_ a w' (moored.minds minds) (minds.inside inside) room'
    refine ⟨same', ?_⟩
    dsimp only
    cases ran' : f a w' with
    | ok b w'' =>
      rw [ran'] at next
      exact ⟨minds.trans next.1, next.2⟩
    | error e w'' =>
      rw [ran'] at next
      cases e with
      | failed f => exact minds.trans next
      | outOfFuel => trivial

theorem of_bind {x : Run α} {f g : α → Run β} (first : Spares k r s x) (then_ : ∀ a, Run.Minds R k s t (f a) (g a)) :
    Run.Minds R k r t (x >>= f) (x >>= g) := (of_spares first).bind then_

theorem pure (a : α) : Run.Minds R k r r (Pure.pure a : Run α) (Pure.pure a) := of_spares (.pure a)

theorem map (h : Run.Minds R k r s x y) (f : α → β) : Run.Minds R k r s (f <$> x) (f <$> y) := by
  rw [← bind_pure_comp, ← bind_pure_comp]
  exact h.bind fun _ => pure _

theorem ite {c : Prop} [Decidable c] {x' y' : Run α} (hx : Run.Minds R k r s x y) (hy : Run.Minds R k r s x' y') :
    Run.Minds R k r s (if c then x else x') (if c then y else y') := by
  split
  · exact hx
  · exact hy

/-- More room than is needed. -/
theorem mono {r' s' : Nat} (h : Run.Minds R k r s x y) (more : r ≤ r') (less : s' ≤ s) : Run.Minds R k r' s' x y := by
  intro w moored inside room
  obtain ⟨same, h⟩ := h w moored inside (by omega)
  refine ⟨same, ?_⟩
  cases ran : x w with
  | ok a w' =>
    rw [ran] at h
    exact ⟨h.1, Nat.le_trans (Nat.add_le_add_left less k) h.2⟩
  | error e w' =>
    rw [ran] at h
    cases e <;> exact h

/-- A failure that is caught. -/
theorem attempt (h : Run.Minds R k r s x y) : Run.Minds R k r 0 (attempt x) (attempt y) := by
  intro w moored inside room
  obtain ⟨same, h⟩ := h w moored inside room
  unfold Run.attempt
  rw [same]
  refine ⟨rfl, ?_⟩
  cases ran : x w with
  | ok a w' =>
    rw [ran] at h
    exact ⟨h.1, h.1.floor⟩
  | error e w' =>
    rw [ran] at h
    cases e with
    | failed f => exact ⟨h, h.floor⟩
    | outOfFuel => trivial

theorem mapM {f g : α → Run β} (each : ∀ a, Run.Minds R k r r (f a) (g a)) (as : List α) :
    Run.Minds R k r r (as.mapM f) (as.mapM g) := by
  induction as with
  | nil => exact pure _
  | cons a as ih =>
    rw [List.mapM_cons, List.mapM_cons]
    exact (each a).bind fun _ => ih.bind fun _ => pure _

theorem foldlM {f g : β → α → Run β} (each : ∀ b a, Run.Minds R k r r (f b a) (g b a)) (as : List α) (b : β) :
    Run.Minds R k r r (as.foldlM f b) (as.foldlM g b) := by
  induction as generalizing b with
  | nil => exact pure _
  | cons a as ih =>
    rw [List.foldlM_cons, List.foldlM_cons]
    exact (each b a).bind ih

theorem filterM {f g : α → Run Bool} (each : ∀ a, Run.Minds R k r r (f a) (g a)) (as : List α) :
    Run.Minds R k r r (as.filterM f) (as.filterM g) := by
  have aux (taken : List α) : Run.Minds R k r r (as.filterAuxM f taken) (as.filterAuxM g taken) := by
    induction as generalizing taken with
    | nil => exact pure _
    | cons a as ih => exact (each a).bind fun _ => ih _
  exact (aux []).bind fun _ => pure _

end Run.Minds

namespace Run

variable {α : Type} {R : Set Nat} {k r s t : Nat} {f : Frame}

/-- What begins at the height of the stack begins above captured variables. -/
theorem minds_stackSize {f g : Nat → Run α} (each : ∀ n, k ≤ n → Minds R k r s (f n) (g n)) :
    Minds R k r s (stackSize >>= f) (stackSize >>= g) := by
  intro w moored inside room
  exact each w.machine.stack.size (Nat.le_trans (Nat.le_add_right k r) room) w moored inside room

/-- The callee of so many arguments lies above captured variables. -/
theorem minds_calleeSlot {argc : Nat} {f g : Nat → Run α}
    (each : ∀ base, k ≤ base → Minds R k (argc + 1) s (f base) (g base)) :
    Minds R k (argc + 1) s (calleeSlot argc >>= f) (calleeSlot argc >>= g) := by
  intro w moored inside room
  have slot : calleeSlot argc w = .ok (w.machine.stack.size - (argc + 1)) w := calleeSlot_eq (by omega)
  rw [bind_of_ok slot, bind_of_ok slot]
  exact each _ (by omega) w moored inside room

/-! ## Frames -/

theorem minds_pushFrame (above : k ≤ f.base) : Minds R k r r (pushFrame f) (pushFrame f) := by
  intro w moored inside room
  refine ⟨rfl, ?_⟩
  have moored' := moored.refl (R := R) (Nat.le_trans (Nat.le_add_right k r) room)
  have pushed : pushFrame f w = if w.machine.frames.size < w.machine.settings.maxFrames then
      .ok () { w with machine.frames := w.machine.frames.push f }
    else .error (.failed { error := .stackOverflow w.machine.settings.maxFrames }) w := by
    change (if w.machine.frames.size < w.machine.settings.maxFrames then _ else _ : Run Unit) w = _
    split <;> rfl
  rw [pushed]
  split_ifs
  · refine ⟨⟨⟨moored.tidy.same rfl rfl, rfl, moored'.opened, moored'.cells, moored'.reads, moored'.heap, moored'.floor⟩,
      moored'.below, [f], ?_, List.forall_mem_singleton.mpr above⟩, room⟩
    exact Array.toList_push
  · exact moored'

theorem minds_callClosure {base : Nat} (above : k ≤ base) (ref argc : Nat) :
    Minds R k r r (callClosure ref argc base) (callClosure ref argc base) :=
  .of_bind spares_heap fun _ => .ite (minds_pushFrame above) (.of_spares (.fail _))

theorem minds_pushChains (made : Value) (type : String) (chains : List Value) :
    Minds R k r 0 (pushChains made type chains) (pushChains made type chains) := by
  induction chains generalizing r with
  | nil => exact (Minds.pure ()).mono (Nat.le_refl r) (Nat.zero_le r)
  | cons chain rest ih =>
    unfold pushChains
    split
    · exact minds_stackSize fun n above => .of_bind (spares_push _) fun _ => (minds_pushFrame above).bind fun _ => ih
    · exact .of_spares (.failInternal _)

theorem minds_instantiate {base : Nat} (above : k ≤ base) (ref argc : Nat) :
    Minds R k r 0 (instantiate ref argc base) (instantiate ref argc base) := by
  refine .of_bind (spares_userType ref) fun t => ?_
  have made : Minds R k r 0 (makeObject ref argc base t) (makeObject ref argc base t) := by
    refine .of_bind (.allocate (fun _ => rfl) (fun _ => rfl) fun _ => rfl) fun made =>
      .of_bind (spares_setSlot above made) fun _ => ?_
    split
    · exact (minds_callClosure above _ _).bind fun _ => minds_pushChains _ _ _
    · exact .ite (.of_bind (.fail (s := r) _) fun _ => minds_pushChains _ _ _) (minds_pushChains _ _ _)
  exact .ite (.of_bind (.fail (s := r) _) fun _ => made) made

theorem minds_superInvoke (index : UInt16) (argc : Nat) :
    Minds R k (argc + 2) 0 (superInvoke index argc) (superInvoke index argc) := by
  refine .of_bind (spares_name index) fun name => .of_bind (spares_popType _) fun ref =>
    minds_calleeSlot fun base above => .of_bind (spares_userType ref) fun t => ?_
  split
  · exact (minds_callClosure above _ _).mono (Nat.le_refl _) (Nat.zero_le _)
  · exact .of_bind (spares_userType ref) fun _ => .of_spares (.fail _)

/-! ## Natives that do not call back -/

theorem spares_argument (args : Window) (index : Nat) : Spares k r r (args.argument index) :=
  .ite (.failInternal _) (spares_slot _)

theorem spares_expect (args : Window) (name : String) (expected : Nat) : Spares k r r (args.expect name expected) :=
  .ite (.pure _) (.fail _)

theorem spares_arguments (args : Window) : Spares k r r args.arguments := by
  suffices each : ∀ xs : List Nat, Spares k r r (xs.mapM fun i => args.argument (i + 1)) from each _
  intro xs
  induction xs with
  | nil => exact .pure _
  | cons x xs ih =>
    rw [List.mapM_cons]
    exact (spares_argument _ _).bind fun _ => ih.bind fun _ => .pure _

theorem spares_give (v : Value) : Spares k r 0 (Native.give v) :=
  ((spares_push v).bind fun _ => .pure _).mono (Nat.le_refl r) (Nat.zero_le _)

/-- Something that is no closure is put on the heap and handed over. -/
theorem spares_giveNew {make : Heap → Value × Heap} (scripts : ∀ h, (make h).2.scripts = h.scripts)
    (closures : ∀ h, (make h).2.closures = h.closures) (cells : ∀ h, (make h).2.cells = h.cells) :
    Spares k r 0 (do Native.give (← Run.allocate make)) :=
  (Spares.allocate scripts closures cells).bind fun _ => spares_give _

theorem spares_items (ref : Nat) : Spares k r r (Native.items ref) := spares_heap.bind fun _ => .pure _

theorem spares_core (function : CoreFunction) (args : Window) : Spares k r 0 (Native.core function args) := by
  cases function with
  | print =>
    refine (spares_arguments args).bind fun values => spares_heap.bind fun h => ?_
    have printed (text : String) : Spares k r r (modifyMachine fun m => { m with output := m.output ++ text }) :=
      .modify (fun _ => rfl) (fun _ => rfl) fun _ => rfl
    exact (printed _).bind fun _ => (Spares.pure _).mono (Nat.zero_le r) (Nat.le_refl 0)
  | str =>
    exact (spares_expect _ _ _).bind fun _ => (spares_argument _ _).bind fun _ =>
      spares_heap.bind fun _ => spares_give _
  | list => exact (spares_arguments args).bind fun _ => spares_giveNew (fun _ => rfl) (fun _ => rfl) fun _ => rfl
  | map => exact (spares_expect _ _ _).bind fun _ => spares_giveNew (fun _ => rfl) (fun _ => rfl) fun _ => rfl

theorem spares_mapMethod {ref : Nat} {name : String} {method : Window → Run NativeResult}
    (found : Native.mapMethod? ref name = some method) (args : Window) : Spares k r 0 (method args) := by
  unfold Native.mapMethod? at found
  split at found <;> cases found
  · exact (spares_expect _ _ _).bind fun _ => spares_heap.bind fun _ => spares_give _
  · exact (spares_expect _ _ _).bind fun _ => (spares_argument _ _).bind fun _ =>
      (Spares.looks (looks_mapKey _)).bind fun _ => spares_heap.bind fun _ => spares_give _
  · exact (spares_expect _ _ _).bind fun _ => (spares_argument _ _).bind fun _ =>
      (Spares.looks (looks_mapKey _)).bind fun _ => spares_heap.bind fun _ =>
        (Spares.updateMap _ _).bind fun _ => spares_give _

theorem spares_pushResults (results : List Value) (start : Nat) : Spares k r r (pushResults results start) :=
  spares_machine.bind fun _ => .ite (spares_pushAll _) (.fail _)

end Run

/-! ## Instructions that go back into the machine -/

/-- Two ways back into the machine that do the same and mind captured variables. -/
structure Mindful (R : Set Nat) (x y : Reentry) : Prop where
  call : ∀ k r callee args, Run.Minds R k r r (x.call callee args) (y.call callee args)
  interpret : ∀ k r s, Run.Minds R k r r (x.interpret s) (y.interpret s)

section

open Run

variable {R : Set Nat} {k r s : Nat} {x y : Reentry} (h : Mindful R x y)
include h

theorem Mindful.perform (args : Window) {steps : NativeProgram} (gentle : steps.Gentle) :
    Run.Minds R k r 0 (Native.perform x args steps) (Native.perform y args steps) := by
  induction steps generalizing r with
  | finish result => exact (Minds.pure _).mono (Nat.zero_le r) (Nat.le_refl 0)
  | raise failure => exact .of_spares (.raise failure)
  | count next ih => exact ih _ (gentle _)
  | argument index next ih => exact .of_bind (spares_argument _ _) fun v => ih v (gentle v)
  | read next ih => exact .of_bind spares_heap fun heap => ih heap (gentle heap)
  | allocate make next ih =>
    obtain ⟨kept, gentle⟩ := gentle
    exact .of_bind (.allocate (fun heap => (kept heap).1) (fun heap => (kept heap).2.1) fun heap => (kept heap).2.2)
      fun v => ih v (gentle v)
  | push v next ih => exact .of_bind (spares_push _) fun _ => ih gentle
  | call callee values next ih => exact (h.call k r callee values).attempt.bind fun answer => ih answer (gentle answer)
  | interpret script next ih => exact (h.interpret k r script).bind fun _ => ih gentle

theorem Mindful.run {body : NativeBody} (gentle : body.Gentle) (args : Window) :
    Run.Minds R k r 0 (Native.run x body args) (Native.run y body args) := by
  cases body with
  | core function => exact .of_spares (spares_core function args)
  | program steps => exact h.perform args gentle

theorem Mindful.callBack (f : Value) (args : List Value) :
    Run.Minds R k r r (Native.first <$> x.call f args) (Native.first <$> y.call f args) := (h.call k r f args).map _

theorem Mindful.listMap (ref : Nat) (args : Window) :
    Run.Minds R k r 0 (Native.listMap x ref args) (Native.listMap y ref args) :=
  .of_bind (spares_expect _ _ _) fun _ => .of_bind (spares_items ref) fun items =>
    .of_bind (spares_argument _ _) fun f => (Minds.mapM (fun item => h.callBack f [item]) items).bind fun _ =>
      .of_spares (spares_giveNew (fun _ => rfl) (fun _ => rfl) fun _ => rfl)

theorem Mindful.listFilter (ref : Nat) (args : Window) :
    Run.Minds R k r 0 (Native.listFilter x ref args) (Native.listFilter y ref args) :=
  .of_bind (spares_expect _ _ _) fun _ => .of_bind (spares_items ref) fun items =>
    .of_bind (spares_argument _ _) fun f =>
      (Minds.filterM (fun item => (h.call k r f [item]).bind fun _ => .pure _) items).bind fun _ =>
        .of_spares (spares_giveNew (fun _ => rfl) (fun _ => rfl) fun _ => rfl)

theorem Mindful.listReduce (ref : Nat) (args : Window) :
    Run.Minds R k r 0 (Native.listReduce x ref args) (Native.listReduce y ref args) :=
  .of_bind (spares_expect _ _ _) fun _ => .of_bind (spares_items ref) fun items =>
    .of_bind (spares_argument _ _) fun f => .of_bind (spares_argument _ _) fun start =>
      (Minds.foldlM (fun acc item => h.callBack f [acc, item]) items start).bind fun _ => .of_spares (spares_give _)

/-- A method of a list is the same one with either way back. -/
theorem Mindful.listMethod (ref : Nat) (name : String) :
    (Native.listMethod? x ref name = none ∧ Native.listMethod? y ref name = none) ∨
      ∃ a b, Native.listMethod? x ref name = some a ∧ Native.listMethod? y ref name = some b ∧
        ∀ args, Run.Minds R k r 0 (a args) (b args) := by
  unfold Native.listMethod?
  split
  · refine .inr ⟨_, _, rfl, rfl, fun args => .of_bind (spares_expect _ _ _) fun _ =>
      .of_bind (spares_argument _ _) fun _ => ?_⟩
    exact .of_bind (.updateList _ _) fun _ => (Minds.pure _).mono (Nat.zero_le r) (Nat.le_refl 0)
  · exact .inr ⟨_, _, rfl, rfl, fun args => .of_bind (spares_expect _ _ _) fun _ => .of_bind spares_heap fun _ =>
      .of_spares (spares_give _)⟩
  · exact .inr ⟨_, _, rfl, rfl, fun args => .of_bind (spares_expect _ _ _) fun _ => .of_bind spares_heap fun _ =>
      .of_bind (spares_argument _ _) fun _ => .of_bind (.looks (looks_position _ _)) fun _ =>
        .of_spares (spares_give _)⟩
  · exact .inr ⟨_, _, rfl, rfl, h.listMap ref⟩
  · exact .inr ⟨_, _, rfl, rfl, h.listFilter ref⟩
  · exact .inr ⟨_, _, rfl, rfl, h.listReduce ref⟩
  · exact .inl ⟨rfl, rfl⟩

omit h in
theorem Run.Minds.callNative {a b : Window → Run NativeResult} (each : ∀ args, Run.Minds R k r 0 (a args) (b args))
    {base : Nat}
    (above : k ≤ base) (argc : Nat) : Run.Minds R k r 0 (callNative a argc base) (callNative b argc base) :=
  (each _).bind fun _ => .of_bind (spares_takeFrom (by omega)) fun _ => .of_bind (spares_truncate above) fun _ =>
    .of_spares (.ite (spares_pushResults _ _) (spares_pushResults _ _))

theorem Mindful.native {base : Nat} (above : k ≤ base) (ref argc : Nat) :
    Run.Minds R k r 0 (do callNative (← native x ref) argc base) (do callNative (← native y ref) argc base) :=
  fun w moored inside room => Minds.callNative (h.run (moored.natives ref)) above argc w moored inside room

theorem Mindful.callParts (args : List Value) (last : Value) (parts : List Value) :
    Run.Minds R k r r (callParts x args last parts) (callParts y args last parts) := by
  induction parts generalizing last with
  | nil => exact .pure _
  | cons part rest ih => exact (h.call k r part args).bind fun _ => ih _

theorem Mindful.callCombined {base : Nat} (above : k ≤ base) (parts : List Value) :
    Run.Minds R k r 0 (callCombined x parts base) (callCombined y parts base) :=
  .of_bind (spares_takeFrom (by omega)) fun _ => .of_bind (spares_truncate above) fun _ =>
    (h.callParts _ _ _).bind fun _ =>
    (Minds.of_spares (spares_push _)).mono (Nat.le_refl 0) (Nat.zero_le _)

theorem Mindful.callTop (argc : Nat) : Run.Minds R k (argc + 1) 0 (callTop x argc) (callTop y argc) := by
  have closure {base : Nat} (above : k ≤ base) (ref : Nat) :
      Run.Minds R k (argc + 1) 0 (callClosure ref argc base) (callClosure ref argc base) :=
    (minds_callClosure above ref argc).mono (Nat.le_refl _) (Nat.zero_le _)
  refine minds_calleeSlot fun base above => .of_bind (spares_slot base) fun v => ?_
  split
  · exact closure above _
  · refine .of_bind spares_heap fun heap => .of_bind (spares_setSlot above _) fun _ => ?_
    split
    · exact closure above _
    · exact h.native above _ _
    · exact .of_spares (.fail _)
  · exact minds_instantiate above _ _
  · exact h.native above _ _
  · exact .of_bind spares_heap fun _ => h.callCombined above _
  · exact .of_spares (.fail _)

theorem Mindful.callInstead {base : Nat} (above : k ≤ base) (callee : Value) (argc : Nat) :
    Run.Minds R k (argc + 1) 0 (callInstead x callee argc base) (callInstead y callee argc base) :=
  .of_bind (spares_setSlot above callee) fun _ => h.callTop argc

theorem Mindful.invoke (index : UInt16) (argc : Nat) :
    Run.Minds R k (argc + 1) 0 (invoke x index argc) (invoke y index argc) := by
  refine .of_bind (spares_name index) fun name => minds_calleeSlot fun base above =>
    .of_bind (spares_slot base) fun receiver => .of_bind spares_heap fun heap => ?_
  have undefined : Run.Minds R k (argc + 1) 0 (undefinedMethod receiver name : Run Unit)
      (undefinedMethod receiver name) :=
    .of_bind spares_heap fun _ => .of_spares (.fail _)
  split
  · dsimp only
    split
    · exact h.callInstead above _ _
    · split
      · exact (minds_callClosure above _ _).mono (Nat.le_refl _) (Nat.zero_le _)
      · exact h.native above _ _
      · exact h.callInstead above _ _
      · exact undefined
  · split
    · exact h.callInstead above _ _
    · exact undefined
  · next ref =>
    rcases h.listMethod (k := k) (r := argc + 1) ref name with ⟨first, second⟩ | ⟨a, b, first, second, each⟩ <;>
      rw [first, second]
    · exact undefined
    · exact .callNative each above argc
  · split
    · next found => exact .callNative (fun args => .of_spares (spares_mapMethod found args)) above argc
    · exact undefined
  · exact undefined

/-! ## Tests -/

omit h in
theorem spares_modifyTests (f : TestRecord → TestRecord) : Spares k r r (modifyTests f) :=
  .modify (fun _ => rfl) (fun _ => rfl) fun _ => rfl

omit h in
theorem spares_setCurrent (set : Option String) : Spares k r r (setCurrent set) :=
  .modify (fun _ => rfl) (fun _ => rfl) fun _ => rfl

omit h in
theorem spares_recordCase (set case : String) (outcome : Except Failure (List Value)) :
    Spares k r r (recordCase set case outcome) := by
  cases outcome with
  | ok => exact spares_modifyTests (·.record set case none)
  | error f =>
    have noted : Spares k r r (do
        let h ← heap
        modifyTests (·.record set case (some (f.message h)))) := spares_heap.bind fun _ => spares_modifyTests _
    exact .ite ((Spares.raise f).bind fun _ => noted) noted

theorem Mindful.testSet (index : UInt16) : Run.Minds R k (r + 1) 0 (testSet x index) (testSet y index) := by
  refine .of_bind (spares_name index) fun name => .of_bind spares_pop fun body =>
    .of_bind (spares_modifyTests _) fun _ =>
    .of_bind spares_machine fun m => .ite ?_ ((Minds.pure _).mono (Nat.zero_le r) (Nat.le_refl 0))
  refine .of_bind (spares_setCurrent _) fun _ => (h.call k r body []).attempt.bind fun outcome =>
    .of_bind (spares_setCurrent _) fun _ => ?_
  cases outcome with
  | ok => exact .pure _
  | error f => exact .of_spares (spares_recordCase _ _ _)

theorem Mindful.runRows (set name : String) (case : Value) (i : Nat) (rows : List Value) :
    Run.Minds R k r 0 (runRows x set name case i rows) (runRows y set name case i rows) := by
  induction rows generalizing i r with
  | nil => exact (Minds.pure _).mono (Nat.zero_le r) (Nat.le_refl 0)
  | cons row rest ih =>
    exact .of_bind spares_heap fun heap => (h.call k r case _).attempt.bind fun _ =>
      .of_bind (spares_recordCase _ _ _) fun _ => ih _

theorem Mindful.testCase (index : UInt16) (hasRows : Bool) :
    Run.Minds R k (r + if hasRows then 2 else 1) 0 (testCase x index hasRows) (testCase y index hasRows) := by
  have carried (name : String) (case : Value) (rows : Option Value) :
      Run.Minds R k r 0 (carryOut x name case rows) (carryOut y name case rows) := by
    refine .of_bind spares_machine fun m => ?_
    split
    · exact .of_spares (.failInternal _)
    · cases rows with
      | none => exact (h.call k r case []).attempt.bind fun _ => .of_spares (spares_recordCase _ _ _)
      | some data =>
        refine .of_bind (s := r) ?_ fun _ => h.runRows _ _ _ _ _
        unfold dataRows
        split
        · exact spares_items _
        · exact .fail _
  cases hasRows with
  | true =>
    exact .of_bind (spares_name index) fun name => .of_bind spares_pop fun case =>
      .of_bind (spares_pop.map _) fun rows =>
      carried name case rows
  | false => exact .of_bind (spares_name index) fun name => .of_bind spares_pop fun case => carried name case none

/-- Instructions that call mind captured variables below what they take. -/
theorem Mindful.plain {i : Instruction} (calls : i.calls) {takes gives : Nat}
    (effect : i.effect = some (takes, gives) ∨ takes = 1 ∧ ∃ n, i = .testSet n) :
    Run.Minds R k takes 0 (plain x i) (plain y i) := by
  cases i with
  | call argc =>
    obtain ⟨⟨⟩⟩ | ⟨-, n, ⟨⟩⟩ := effect
    exact h.callTop _
  | invoke name argc =>
    obtain ⟨⟨⟩⟩ | ⟨-, n, ⟨⟩⟩ := effect
    exact h.invoke _ _
  | superInvoke name argc =>
    obtain ⟨⟨⟩⟩ | ⟨-, n, ⟨⟩⟩ := effect
    exact minds_superInvoke name _
  | testSet name =>
    obtain ⟨⟨⟩⟩ | ⟨rfl, -⟩ := effect
    exact h.testSet (r := 0) name
  | testCase name hasRows =>
    obtain ⟨⟨⟩⟩ | ⟨-, n, ⟨⟩⟩ := effect
    have minds := h.testCase (k := k) (r := 0) name hasRows
    rwa [Nat.zero_add] at minds
  | _ => cases calls

end

end ScriptEngine
