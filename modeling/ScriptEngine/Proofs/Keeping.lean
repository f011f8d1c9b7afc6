import ScriptEngine.Proofs.Calming

/-!
# What instructions leave alone

Host calls in progress, the current test set and the settings are no business of
an instruction, and only a return takes frames away. `Steady` says so of the worlds
before and after, and `Keeps` of a computation, whether it answers, fails or
uses up its steps. The computations that go back into the machine are not here.
-/
namespace ScriptEngine

structure Steady (w w' : World) : Prop where
  depth : w.machine.frames.size ≤ w'.machine.frames.size
  hostCalls : w'.machine.hostCalls = w.machine.hostCalls
  currentSet : w'.machine.currentSet = w.machine.currentSet
  settings : w'.machine.settings = w.machine.settings

namespace Steady

theorem refl (w : World) : Steady w w := ⟨Nat.le_refl _, rfl, rfl, rfl⟩

theorem trans {w w' w'' : World} (h : Steady w w') (h' : Steady w' w'') : Steady w w'' :=
  ⟨Nat.le_trans h.depth h'.depth, h'.hostCalls.trans h.hostCalls, h'.currentSet.trans h.currentSet,
    h'.settings.trans h.settings⟩

end Steady

namespace Run

variable {α β : Type}

def Keeps (x : Run α) : Prop := ∀ w, Steady w (left (x w))

namespace Keeps

theorem pure (a : α) : Keeps (Pure.pure a : Run α) := Steady.refl

theorem throw (e : Halt) : Keeps (throw e : Run α) := Steady.refl

theorem bind {x : Run α} {f : α → Run β} (first : Keeps x) (then_ : ∀ a, Keeps (f a)) :
    Keeps (x >>= f) := by
  intro w
  have h := first w
  show Steady w (left (EStateM.bind x f w))
  unfold EStateM.bind
  cases hx : x w with
  | error e w' => rwa [hx] at h
  | ok a w' =>
    rw [hx] at h
    exact h.trans (then_ a w')

theorem map {x : Run α} (h : Keeps x) (f : α → β) : Keeps (f <$> x) := by
  intro w
  have hx := h w
  show Steady w (left (EStateM.map f x w))
  unfold EStateM.map
  cases hw : x w <;> rwa [hw] at hx

theorem ite {c : Prop} [Decidable c] {x y : Run α} (hx : Keeps x) (hy : Keeps y) :
    Keeps (if c then x else y) := by
  split
  · exact hx
  · exact hy

/-- A change of the machine that leaves all of these alone. -/
theorem modify {f : Machine → Machine} (frames : ∀ m, (f m).frames.size = m.frames.size)
    (hostCalls : ∀ m, (f m).hostCalls = m.hostCalls)
    (currentSet : ∀ m, (f m).currentSet = m.currentSet) (settings : ∀ m, (f m).settings = m.settings) :
    Keeps (modifyMachine f) :=
  fun _ => ⟨Nat.le_of_eq (frames _).symm, hostCalls _, currentSet _, settings _⟩

end Keeps

theorem Calms.keeps {x : Run α} (h : Calms x) : Keeps x := fun w =>
  ⟨Nat.le_of_eq (congrArg Array.size (h w).1.frames).symm, (h w).1.hostCalls, (h w).1.currentSet, (h w).1.settings⟩

/-! ## Moves on stack and frames -/

theorem keeps_raise (f : Failure) : Keeps (raise f : Run α) := .throw _

theorem keeps_modifyHeap (f : Heap → Heap) : Keeps (modifyHeap f) :=
  fun _ => ⟨Nat.le_refl _, rfl, rfl, rfl⟩

theorem keeps_allocate (make : Heap → α × Heap) : Keeps (allocate make) :=
  fun _ => ⟨Nat.le_refl _, rfl, rfl, rfl⟩

theorem keeps_pushFrame (f : Frame) : Keeps (pushFrame f) := by
  refine calms_machine.keeps.bind fun m => .ite ?_ (calms_fail _).keeps
  exact fun w => ⟨by simp [left, modifyMachine], rfl, rfl, rfl⟩

theorem keeps_setIp (ip : Nat) : Keeps (setIp ip) :=
  .modify (fun _ => by simp [jump]) (fun _ => rfl) (fun _ => rfl) fun _ => rfl

theorem keeps_fetch : Keeps fetch := by
  refine calms_frame.keeps.bind fun f => calms_heap.keeps.bind fun h => ?_
  dsimp only
  cases (h.code f.closure).code[f.ip]?
  · exact (calms_failInternal _).keeps
  · exact (keeps_setIp _).bind fun _ => .pure _

theorem keeps_goto (label : UInt16) : Keeps (goto label) := by
  refine calms_chunk.keeps.bind fun c => ?_
  cases c.labelOffset? label
  · exact (calms_failInternal _).keeps
  · exact keeps_setIp _

/-! ## Variables -/

theorem keeps_captures (chain : String) (n : Nat) : Keeps (captures chain n) := by
  induction n with
  | zero => exact .pure _
  | succ n ih =>
    refine keeps_fetch.bind fun i => ?_
    have others (ref : Nat) : Keeps (do return ref :: (← captures chain n)) :=
      ih.bind fun _ => .pure _
    split
    · exact calms_frame.keeps.bind fun _ => (calms_cellOf _).keeps.bind others
    · exact (calms_captured _).keeps.bind others
    · exact (calms_failInternal _).keeps.bind others

theorem keeps_makeClosure (index : UInt16) : Keeps (makeClosure index) := by
  refine (calms_constant index).keeps.bind fun v => ?_
  split
  · exact calms_heap.keeps.bind fun _ => (keeps_captures _ _).bind fun _ =>
      (keeps_allocate _).bind fun _ => (calms_push _).keeps
  · exact (calms_failInternal _).keeps

/-! ## Types -/

theorem keeps_addInitChain : Keeps addInitChain :=
  calms_pop.keeps.bind fun _ => (calms_peekType _).keeps.bind fun _ => keeps_modifyHeap _

/-! ## Calls -/

theorem keeps_callClosure (ref argc base : Nat) : Keeps (callClosure ref argc base) :=
  calms_heap.keeps.bind fun _ => .ite (keeps_pushFrame _) (calms_fail _).keeps

theorem keeps_pushChains (made : Value) (type : String) (chains : List Value) :
    Keeps (pushChains made type chains) := by
  induction chains with
  | nil => exact .pure _
  | cons chain rest ih =>
    unfold pushChains
    split
    · exact calms_stackSize.keeps.bind fun _ => (calms_push _).keeps.bind fun _ =>
        (keeps_pushFrame _).bind fun _ => ih
    · exact (calms_failInternal _).keeps

/-- The part of an instantiation that follows once the type admits it. -/
def makeObject (ref argc base : Nat) (t : UserType) : Run Unit := do
  let made ← allocate (·.addObject ⟨some ref, ∅, {}⟩)
  setSlot base made
  match t.method? "init" with
  | some (.closure init) => callClosure init argc base
  | _ => if argc ≠ 0 then fail (.arity t.name 0 argc)
  pushChains made t.name t.initChains.reverse

theorem keeps_instantiate (ref argc base : Nat) : Keeps (instantiate ref argc base) := by
  refine (calms_userType ref).keeps.bind fun t => ?_
  have made : Keeps (makeObject ref argc base t) := by
    refine (keeps_allocate _).bind fun made => (calms_setSlot _ _).keeps.bind fun _ => ?_
    split
    · exact (keeps_callClosure _ _ _).bind fun _ => keeps_pushChains _ _ _
    · exact .ite ((calms_fail _).keeps.bind fun _ => keeps_pushChains _ _ _) (keeps_pushChains _ _ _)
  exact .ite ((calms_fail _).keeps.bind fun _ => made) made

theorem keeps_superInvoke (index : UInt16) (argc : Nat) : Keeps (superInvoke index argc) := by
  refine (calms_name index).keeps.bind fun name => (calms_popType _).keeps.bind fun ref =>
    (calms_calleeSlot _).keeps.bind fun base => (calms_userType ref).keeps.bind fun t => ?_
  split
  · exact keeps_callClosure _ _ _
  · exact (calms_undefinedInSuper _ _).keeps

/-! ## Other instructions -/

theorem keeps_gotoIfFalse (label : UInt16) : Keeps (gotoIfFalse label) :=
  (calms_peek 0).keeps.bind fun _ => .ite (keeps_goto _) (.pure _)

theorem keeps_recordCase (set case : String) (outcome : Except Failure (List Value)) :
    Keeps (recordCase set case outcome) := by
  cases outcome with
  | ok => exact (calms_modifyTests (·.record set case none)).keeps
  | error f =>
    have noted : Keeps (do
        let h ← heap
        modifyTests (·.record set case (some (f.message h)))) :=
      calms_heap.keeps.bind fun _ => (calms_modifyTests _).keeps
    exact .ite ((keeps_raise f).bind fun _ => noted) noted

/-- The part of a test case that follows once its operands have been taken. -/
def carryOut (again : Reentry) (name : String) (case : Value) (rows : Option Value) : Run Unit := do
  match (← machine).currentSet with
  | none => failInternal (.caseOutsideSet name)
  | some set =>
    match rows with
    | none => recordCase set name (← attempt (again.call case []))
    | some data => runRows again set name case 0 (← dataRows data)

/-- Only a return and a yield decide themselves what the loop does next. -/
theorem step_cases (i : Instruction) :
    (∃ count, i = .ret count) ∨ i = .yield ∨
      ∀ again stop, step again stop i = (do plain again i; return .next) := by
  cases i <;>
    first | exact .inr (.inr fun _ _ => rfl) | exact .inl ⟨_, rfl⟩ | exact .inr (.inl rfl)

end Run
end ScriptEngine
