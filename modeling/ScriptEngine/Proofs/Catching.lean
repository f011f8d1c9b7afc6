import ScriptEngine.Proofs.Handling

/-!
# Closures and the variables they capture

A closure is made from the words that follow its instruction, one for each variable
that it captures. The frame steps over them, and no slot changes. Variables lose their
slots only above the floor, so no cell that was open below is closed there, nor
opened.
-/
namespace ScriptEngine

open Run

section

variable {G : Footing} {F L : Array Frame} {M : List Nat} {n : Nat} {w : World} {f : Frame}

/-! ## Cells -/

theorem Footing.At.closeCells {stack : Array Value} (start : Nat) (known : ∀ v ∈ stack, v.Within n) (refs : List Nat)
    (h : G.At F M n w) : G.At F M n (w.onHeap (closeCells stack start refs w.heap).2) := by
  induction refs generalizing w with
  | nil => exact h
  | cons ref rest ih =>
    unfold Run.closeCells
    split
    · exact ih h
    · next i _ =>
      split
      · exact ih h
      · have value := Heap.getD_mem (d := .null) (P := Value.Within n) (Value.within_of_isPlain rfl) known i
        exact ih (h.setCell value ref)

theorem Footing.At.closeFrom (h : G.At F M n w) (start : Nat) :
    ∃ w', closeFrom start w = .ok () w' ∧ G.At F M n w' ∧ w'.machine.stack = w.machine.stack := by
  by_cases none : w.machine.openCells.isEmpty
  · exact ⟨w, if_pos none, h, rfl⟩
  · refine ⟨_, if_neg none, ?_, rfl⟩
    exact (h.closeCells start (fun v => h.knows_slot) w.machine.openCells).still rfl rfl rfl rfl rfl rfl

theorem sure_closeFrom (h : G.At F M n w) (start : Nat) : Sure G (closeFrom start) (closeFrom start) w fun _ w' =>
    G.At F M n w' ∧ w'.machine.stack = w.machine.stack := by
  obtain ⟨w', ran, kept⟩ := h.closeFrom start
  exact sure_ok ran kept

theorem turns_closeTop (h : G.At F M n w) (room : G.floor + 1 ≤ w.machine.stack.size) :
    G.Turns F M n w 1 0 closeTop := by
  refine sure_bind (sure_stackSize ?_)
  refine sure_ite (fun none => absurd none (by omega)) fun _ => ?_
  refine sure_bind ((sure_closeFrom h _).mono fun _ w₁ ⟨h₁, same⟩ => ?_)
  exact sure_bind (sure_pop h₁ (by rw [same]; omega) fun _ w₂ h₂ _ size => sure_pure ⟨h₂, by rw [same] at size; omega⟩)

theorem sure_cellOf (h : G.At F M n w) {i : Nat} (above : G.floor ≤ i) : Sure G (cellOf i) (cellOf i) w fun _ w' =>
    G.At F M n w' ∧ w'.machine.stack = w.machine.stack ∧ w'.heap.scripts = w.heap.scripts ∧
      w'.heap.closures = w.heap.closures := by
  refine sure_bind (sure_heap (sure_bind (sure_machine ?_)))
  split
  · exact sure_pure ⟨h, rfl, rfl, rfl⟩
  · have opened : G.At F M n (w.onHeap (w.heap.addCell (.opened i)).2) := by
      refine h.onHeap (Heap.gains_addCell nofun) fun j below apart => ?_
      rw [Heap.apart_iff] at apart ⊢
      intro mem
      rcases Array.mem_push.mp mem with mem | same
      · exact apart mem
      · cases same
        omega
    refine sure_bind (sure_ok (u := w.onHeap (w.heap.addCell (.opened i)).2) rfl
      (sure_bind (sure_ok rfl (sure_pure ?_))))
    exact ⟨opened.still rfl rfl rfl rfl rfl rfl, rfl, rfl, rfl⟩

/-! ## The instruction to come -/

theorem jump_push (f : Frame) (ip : Nat) : jump ip (L.push f) = L.push { f with ip } := by
  apply Array.ext_getElem?
  intro i
  unfold jump
  rw [Array.getElem?_modify, Array.size_push, Nat.add_sub_cancel]
  grind

/-- The innermost frame goes on elsewhere. -/
theorem Footing.At.jump (h : G.At (L.push f) M n w) (below : G.frames <+: L.toList) (ip : Nat) :
    G.At (L.push { f with ip }) M n { w with machine.frames := Run.jump ip w.machine.frames } := by
  have moved := h.onFrames (L := L.push { f with ip }) (S := M) ?_ (h.marks ▸ h.holds.marks)
  · rw [h.frames, jump_push]
    convert moved using 2
    rw [← h.marks]
  · rw [Array.toList_push]
    exact below.trans (List.prefix_append _ _)

theorem sure_setIp {Q : Unit → World → Prop} (h : G.At (L.push f) M n w) (below : G.frames <+: L.toList) (ip : Nat)
    (next : ∀ w', G.At (L.push { f with ip }) M n w' → w'.machine.stack = w.machine.stack → w'.heap = w.heap →
      Q () w') :
    Sure G (setIp ip) (setIp ip) w Q :=
  sure_ok rfl (next _ (h.jump below ip) rfl rfl)

theorem sure_fetch {Q : Instruction → World → Prop} (h : G.At (L.push f) M n w) (below : G.frames <+: L.toList)
    (next : ∀ i w', (w.heap.code f.closure).code[f.ip]? = some i → G.At (L.push { f with ip := f.ip + 1 }) M n w' →
      w'.machine.stack = w.machine.stack → w'.heap = w.heap → Q i w') : Sure G fetch fetch w Q := by
  refine sure_bind (sure_frame h fun g back => sure_bind (sure_heap ?_))
  rw [Array.back?_push] at back
  cases back
  dsimp only
  cases found : (w.heap.code f.closure).code[f.ip]? with
  | none => exact sure_refuse h.holds nofun
  | some i => exact sure_bind (sure_setIp h below _ fun w' h' stack heap => sure_pure (next i w' found h' stack heap))

/-! ## Closures -/

/-- Neither scripts nor closures have changed, nor the stack. -/
structure World.Calm (w w' : World) : Prop where
  stack : w'.machine.stack = w.machine.stack
  scripts : w'.heap.scripts = w.heap.scripts
  closures : w'.heap.closures = w.heap.closures

theorem World.Calm.code {w' : World} (h : w.Calm w') (ref : Nat) : w'.heap.code ref = w.heap.code ref := by
  unfold Heap.code Heap.closure Heap.chunk
  rw [h.scripts, h.closures]

/-- The frame steps over the words of a closure. -/
theorem sure_captures (chain : String) (k : Nat) (h : G.At (L.push f) M n w) (below : G.frames <+: L.toList)
    (base : G.floor ≤ f.base) : Sure G (captures chain k) (captures chain k) w fun _ w' =>
      G.At (L.push { f with ip := f.ip + k }) M n w' ∧ w.Calm w' ∧
        ∀ j < k, ∃ source, (w.heap.code f.closure).code[f.ip + j]? = some (.capture source) := by
  induction k generalizing f w with
  | zero => exact sure_pure ⟨h, ⟨rfl, rfl, rfl⟩, nofun⟩
  | succ k ih =>
    unfold captures
    refine sure_bind (sure_fetch h below fun i w₁ code h₁ stack₁ heap₁ => ?_)
    have rest (source : Capture) (is_ : i = .capture source) (ref : Nat) (w₂ : World)
        (h₂ : G.At (L.push { f with ip := f.ip + 1 }) M n w₂) (calm : w₁.Calm w₂) :
        Sure G (do return ref :: (← captures chain k)) (do return ref :: (← captures chain k)) w₂ fun _ w' =>
          G.At (L.push { f with ip := f.ip + (k + 1) }) M n w' ∧ w.Calm w' ∧
            ∀ j < k + 1, ∃ source, (w.heap.code f.closure).code[f.ip + j]? = some (.capture source) := by
      have calm : w.Calm w₂ := ⟨calm.stack.trans stack₁, calm.scripts.trans (by rw [heap₁]),
        calm.closures.trans (by rw [heap₁])⟩
      refine sure_bind ((ih h₂ base).mono fun refs w₃ ⟨h₃, calm₃, words⟩ => sure_pure ⟨?_, ?_, fun j hj => ?_⟩)
      · rwa [show f.ip + (k + 1) = f.ip + 1 + k by omega]
      · exact ⟨calm₃.stack.trans calm.stack, calm₃.scripts.trans calm.scripts, calm₃.closures.trans calm.closures⟩
      · cases j with
        | zero => exact ⟨source, is_ ▸ code⟩
        | succ j =>
          obtain ⟨source, word⟩ := words j (by omega)
          rw [calm.code] at word
          exact ⟨source, by rwa [show f.ip + (j + 1) = f.ip + 1 + j by omega]⟩
    split
    · next index =>
      refine sure_bind (sure_frame h₁ fun g back => ?_)
      rw [Array.back?_push] at back
      cases back
      refine sure_bind ((sure_cellOf h₁ (by dsimp only; omega)).mono fun ref w₂ ⟨h₂, stack₂, scripts₂, closures₂⟩ => ?_)
      exact rest _ rfl ref w₂ h₂ ⟨stack₂, scripts₂, closures₂⟩
    · next index =>
      refine sure_bind ((looks_captured index).sure h₁.holds fun ref _ => ?_)
      exact rest _ rfl ref w₁ h₁ ⟨rfl, rfl, rfl⟩
    · exact sure_bind (sure_refuse h₁.holds nofun)

/-- A new closure lies on top, over the chunk that the constant names, and the frame has stepped over its words. -/
theorem sure_makeClosure {j : Nat} {index : UInt16} (h : G.At (L.push f) M n w) (below : G.frames <+: L.toList)
    (base : G.floor ≤ f.base) (named : (w.heap.code f.closure).constants[index.toNat]? = some (.chunk (.listed j)))
    (chunk : ∃ s d, w.heap.scripts[(w.heap.closure f.closure).chunk.script]? = some s ∧ s.chunks[j]? = some d) :
    Sure G (makeClosure index) (makeClosure index) w fun _ w' => ∃ k,
      G.At (L.push { f with ip := f.ip + k }) M (n + 1) w' ∧
      (∀ i < k, ∃ source, (w.heap.code f.closure).code[f.ip + i]? = some (.capture source)) ∧
      w'.machine.stack = w.machine.stack.push (.closure n) ∧
      (w'.heap.closure n).chunk = ⟨(w.heap.closure f.closure).chunk.script, j⟩ := by
  refine sure_bind (sure_constant h fun g c back found => ?_)
  rw [Array.back?_push] at back
  cases back
  rw [named] at found
  cases found
  refine sure_bind (sure_heap ?_)
  refine sure_bind ((sure_captures _ _ h below base).mono fun refs w₁ ⟨h₁, calm, words⟩ => ?_)
  have made : G.At _ M (n + 1) _ := h₁.addClosure
    (c := ⟨⟨(w.heap.closure f.closure).chunk.script, j⟩, refs.toArray⟩) (by rw [calm.scripts]; exact chunk)
  have size : w₁.heap.closures.size = n := h₁.count
  have known : (Value.closure n).Within (n + 1) := fun r same => by cases same; omega
  refine sure_bind (sure_ok (u := w₁.onHeap _) rfl ?_)
  rw [size]
  refine sure_ok rfl ⟨_, made.pushed known, words, ?_, ?_⟩
  · exact congrArg (fun stack => stack.push (.closure n)) calm.stack
  · change ((w₁.heap.closures.push _)[n]?.getD default).chunk = _
    rw [← size, Array.getElem?_push_size]
    rfl

/-- An init chain is added that takes no arguments. -/
theorem turns_addInitChain (h : G.At F M n w) (room : G.floor + 1 ≤ w.machine.stack.size)
    (arity : ∀ r, w.machine.stack.back? = some (.closure r) → (w.heap.code r).arity = 0) :
    G.Turns F M n w 1 0 addInitChain := by
  refine sure_bind (sure_popTop h (by omega) fun v w₁ h₁ known on same₁ => ?_)
  have size : w.machine.stack.size = w₁.machine.stack.size + 1 := by rw [on, Array.size_push]
  rw [on, Array.back?_push] at arity
  refine sure_bind ((looks_peekType _).sure h₁.holds fun t _ => ?_)
  refine sure_updateType h₁ (fun t u held => ?_) (fun t r mem => ?_) fun w₂ h₂ same => ⟨h₂, by rw [same]; omega⟩
  · cases held with
    | method name found => exact .inl (.method name found)
    | static name found => exact .inl (.static name found)
    | chain mem =>
      rcases List.mem_append.mp mem with mem | mem
      · exact .inl (.chain mem)
      · exact .inr (.inr (List.mem_singleton.mp mem ▸ known))
  · rcases List.mem_append.mp mem with mem | mem
    · exact .inl mem
    · rw [same₁]
      exact .inr (.inr (arity r (congrArg some (List.mem_singleton.mp mem).symm)))

end

end ScriptEngine
