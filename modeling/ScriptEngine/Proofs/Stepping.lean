import ScriptEngine.Proofs.Counting
import ScriptEngine.Proofs.Trying

/-!
# One instruction on top of a tower

The frame on top stands at a point of its layout. Whatever its instruction is, it comes
to the next point, jumps to another one, calls something that stands on top of it, or
returns to the frame that waits.
-/
namespace ScriptEngine

open Run

/-! ## Instructions that go straight on -/

/-- Neither a jump nor a call, and no way out of the frame. -/
def Instruction.isStraight : Instruction → Bool
  | goto _ | gotoIfFalse _ | call _ | invoke _ _ | superInvoke _ _ | ret _ | yield | throw => false
  | _ => true

section

variable {α : Type} {G : Footing} {F L : Array Frame} {M : List Nat} {n m : Nat} {w w' : World} {f : Frame}
  {x y : Reentry}
  {i : Instruction}

/-- Some closures later, so many values have been taken and so many left in their place. -/
def Footing.Moves (G : Footing) (F : Array Frame) (M : List Nat) (n : Nat) (w : World) (takes gives : Nat)
    (w' : World) :
    Prop :=
  ∃ m, n ≤ m ∧ G.At F M m w' ∧ w'.machine.stack.size + takes = w.machine.stack.size + gives

theorem Footing.Turns.moves {takes gives : Nat} {a : Run Unit} (h : G.Turns F M n w takes gives a) :
    Sure G a a w fun _ w' => G.Moves F M n w takes gives w' :=
  h.mono fun _ _ turned => ⟨n, Nat.le_refl n, turned.stands, turned.size⟩

theorem Sturdy.sure_straight (sturdy : Sturdy x y) {takes gives : Nat} (h : G.At F M n w) (inside : 0 < F.size)
    (base : ∀ f, F.back? = some f → G.floor ≤ f.base) (effect : i.effect = some (takes, gives))
    (straight : i.isStraight)
    (room : G.floor + takes ≤ w.machine.stack.size) :
    Sure G (plain x i) (plain y i) w fun _ w' => G.Moves F M n w takes gives w' := by
  cases i with
  | goto | gotoIfFalse | call | invoke | superInvoke | ret | yield | throw => cases straight
  | closure | capture | closeUpvalue | initChain | multiVarStart | multiVarEnd | validate | testSet => cases effect
  | pushConstant index => cases effect; exact (turns_pushConstant h index).moves
  | pushByte | pushBool | null => cases effect; exact (turns_push h (Value.within_of_isPlain rfl)).moves
  | pop => cases effect; exact (turns_pop h room).moves
  | duplicate => cases effect; exact (turns_duplicate h).moves
  | duplicatePair => cases effect; exact (turns_duplicatePair h).moves
  | swap => cases effect; exact (turns_swap h room).moves
  | add | subtract | multiply | divide | modulus | equal | less | greater | meets =>
    cases effect; exact (turns_binary h room _).moves
  | negate => cases effect; exact (turns_negate h room).moves
  | not => cases effect; exact (turns_complement h room).moves
  | getLocal index => cases effect; exact (turns_getLocal h index).moves
  | setLocal index => cases effect; exact (turns_setLocal h base index).moves
  | getUpvalue index => cases effect; exact (turns_getCaptured h index).moves
  | setUpvalue index => cases effect; exact (turns_setCaptured h index).moves
  | defineGlobal index => cases effect; exact (turns_defineGlobal h room index).moves
  | getGlobal index => cases effect; exact (turns_getGlobal h index).moves
  | setGlobal index => cases effect; exact (turns_setGlobal h index).moves
  | declareType kind index => cases effect; exact (turns_declareType h kind index).moves
  | inherit => cases effect; exact (turns_inherit h room).moves
  | mixin => cases effect; exact (turns_addMixin h (by omega)).moves
  | signs => cases effect; exact (turns_addContract h (by omega)).moves
  | field index => cases effect; exact (turns_addField h index).moves
  | method index => cases effect; exact (turns_addMethod h (by omega) index).moves
  | staticMember index => cases effect; exact (turns_addStatic h (by omega) index).moves
  | enumValue index => cases effect; exact (turns_addEntry h (by omega) index).moves
  | finishType => cases effect; exact (turns_finishType h).moves
  | freeze | readOnly => cases effect; exact (turns_restrict h room _ _).moves
  | getProperty index => cases effect; exact (turns_getProperty h room index).moves
  | setProperty index => cases effect; exact (turns_setProperty h room index).moves
  | getIndex => cases effect; exact (turns_getIndex h room).moves
  | setIndex => cases effect; exact (turns_setIndex h room).moves
  | getSuper index => cases effect; exact (turns_getSuper h room index).moves
  | buildList count => cases effect; exact (turns_buildList h count room).moves
  | buildMap count => cases effect; exact (turns_buildMap h count room).moves
  | newDynamic => cases effect; exact (turns_newDynamic h).moves
  | testCase index hasRows =>
    cases effect
    exact sturdy.sure_testCase h inside index hasRows room
  | build => cases effect; exact (turns_build h room).moves
  | register index => cases effect; exact (turns_register h room index).moves
  | inject index => cases effect; exact (turns_inject h index).moves

/-! ## Jumps -/

theorem sure_goto {label : UInt16} {Q : Unit → World → Prop} (h : G.At (L.push f) M n w) (below : G.frames <+: L.toList)
    (next : ∀ offset w', (w.heap.code f.closure).labelOffset? label = some offset →
      G.At (L.push { f with ip := offset }) M n w' → w'.machine.stack = w.machine.stack → w'.heap = w.heap → Q () w') :
    Sure G (goto label) (goto label) w Q := by
  refine sure_bind (sure_bind (sure_frame h fun g back => sure_bind (sure_heap (sure_pure ?_))))
  rw [Array.back?_push] at back
  cases back
  split
  · next offset placed => exact sure_setIp h below offset fun w' => next offset w' placed
  · exact sure_refuse h.holds nofun

theorem sure_gotoIfFalse {label : UInt16} {Q : Unit → World → Prop} (h : G.At (L.push f) M n w)
    (below : G.frames <+: L.toList) (stays : Q () w)
    (next : ∀ offset w', (w.heap.code f.closure).labelOffset? label = some offset →
      G.At (L.push { f with ip := offset }) M n w' → w'.machine.stack = w.machine.stack → w'.heap = w.heap → Q () w') :
    Sure G (gotoIfFalse label) (gotoIfFalse label) w Q :=
  sure_bind (sure_peek h fun _ _ => sure_ite (fun _ => sure_goto h below next) fun _ => sure_pure stays)

/-! ## Several results -/

theorem Footing.At.onMarks {S : List Nat} (h : G.At F M n w) (marks : G.marks <:+ S) :
    G.At F S n { w with machine.marks := S } := by
  have moved := h.onFrames (L := F) (S := S) (h.frames ▸ h.holds.frames) marks
  convert moved using 2
  rw [← h.frames]

theorem sure_beginSeveral (h : G.At F M n w) : Sure G beginSeveral beginSeveral w fun _ w' =>
    G.At F (w.machine.stack.size :: M) n w' ∧ w'.machine.stack = w.machine.stack := by
  refine sure_bind (sure_stackSize (sure_modifyMachine ⟨?_, rfl⟩))
  have moved := h.onMarks (S := w.machine.stack.size :: M) (.trans (h.marks ▸ h.holds.marks) (List.suffix_cons _ _))
  rw [← h.marks] at moved ⊢
  exact moved

theorem sure_endSeveral {mark : Nat} (h : G.At F (mark :: M) n w) (below : G.marks <:+ M) :
    Sure G endSeveral endSeveral w fun _ w' => G.At F M n w' ∧
      w'.machine.stack = w.machine.stack.push (.ofNat (w.machine.stack.size - mark)) := by
  refine sure_bind (sure_machine ?_)
  rw [h.marks]
  refine sure_bind (sure_modifyMachine (sure_bind (sure_stackSize (sure_ok rfl ⟨?_, rfl⟩))))
  exact (h.onMarks below).pushed (Value.within_of_isPlain rfl)

/-- A count is read off as it was, unless it has more bits than a number. -/
theorem sure_popCount {k : Nat} {Q : Nat → World → Prop} (h : G.At F M n w) (room : G.floor < w.machine.stack.size)
    (top : w.machine.stack.back? = some (.ofNat k))
    (next : ∀ c w', G.At F M n w' → w.machine.stack = w'.machine.stack.push (.ofNat k) →
      c = k ∨ 2 ^ 53 ≤ c ∧ 2 ^ 53 ≤ k → Q c w') : Sure G popCount popCount w Q := by
  refine sure_bind (sure_popTop h room fun v w₁ h₁ _ on _ => ?_)
  rw [on, Array.back?_push] at top
  cases top
  dsimp only [Value.ofNat]
  split
  · next count whole =>
    refine sure_pure (next _ w₁ h₁ on ?_)
    rcases Nat.lt_or_ge k (2 ^ 53) with small | large
    · rw [Number.integer?_ofNat small] at whole
      cases whole
      exact .inl (by unfold maxCount; omega)
    · have := Number.integer?_ofNat_large large whole
      refine .inr ⟨?_, large⟩
      unfold maxCount
      simp only [Int.ofNat_eq_natCast] at this
      omega
  · exact sure_bind (sure_heap (sure_refuse h₁.holds nofun))

/-- The check lets through what was expected only. -/
theorem sure_validate {k c : Nat} {stack : Array Value} (h : G.At F M n w)
    (on : w.machine.stack = (stack.push (.ofNat k)).push (.ofNat c)) (small : c < 2 ^ 53)
    (room : G.floor ≤ stack.size) :
    Sure G (validate .multiReturnMatches) (validate .multiReturnMatches) w fun _ w' =>
      G.At F M n w' ∧ w'.machine.stack = stack ∧ k = c := by
  have size : w.machine.stack.size = stack.size + 2 := by rw [on, Array.size_push, Array.size_push]
  refine sure_bind (sure_popCount h (by omega) (by rw [on, Array.back?_push]) fun expected w₁ h₁ on₁ same₁ => ?_)
  obtain ⟨-, on₁⟩ := Array.push_eq_push.mp (on₁.symm.trans on)
  have size₁ : w₁.machine.stack.size = stack.size + 1 := by rw [on₁, Array.size_push]
  refine sure_bind (sure_popCount h₁ (by omega) (by rw [on₁, Array.back?_push]) fun produced w₂ h₂ on₂ same₂ => ?_)
  obtain ⟨-, on₂⟩ := Array.push_eq_push.mp (on₂.symm.trans on₁)
  exact sure_ite (fun _ => sure_refuse h₂.holds nofun) fun same => sure_pure ⟨h₂, on₂, by omega⟩

/-! ## Ways out of a frame -/

theorem sure_throwTop {Q : α → World → Prop} (h : G.At F M n w) (room : G.floor + 1 ≤ w.machine.stack.size) :
    Sure G (throwTop : Run α) throwTop w Q :=
  sure_bind (sure_pop h (by omega) fun v w₁ h₁ known _ => sure_fail h₁.holds fun u same => by
    cases same
    exact h₁.count ▸ known)

theorem sure_located {a b : Run α} {Q : α → World → Prop} (run : Sure G a b w Q) :
    Sure G (located a) (located b) w Q := by
  obtain ⟨same, out⟩ := run
  unfold Sure located
  rw [same]
  cases ran : a w with
  | ok r w' =>
    rw [ran] at out
    exact ⟨rfl, out⟩
  | error e w' =>
    rw [ran] at out
    cases e with
    | failed f => exact ⟨rfl, out.1, out.2⟩
    | outOfFuel => exact ⟨rfl, trivial⟩

end

end ScriptEngine
