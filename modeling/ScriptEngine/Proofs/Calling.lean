import ScriptEngine.Proofs.Standing

/-!
# Calls

Whatever is called, what is left is a tower of frames above the callee's slot: none if
the call is over and its results lie there, one for a closure, and one for `init` and
each init chain of a type.
-/
namespace ScriptEngine

open Run

/-- The frames of a call that began at a slot. -/
def Footing.Calls (G : Footing) (L : Array Frame) (M : List Nat) (n b : Nat) (w' : World) : Prop :=
  ∃ m gs, n ≤ m ∧ G.At (piled L gs) M m w' ∧ Tower w'.heap b M gs w'.machine.stack.size M ∧ Seated b gs

section

variable {G : Footing} {L : Array Frame} {M : List Nat} {n m argc b : Nat} {w w' : World} {f : Frame} {v : Value}
  {fs : List Frame} {x y : Reentry}

theorem Footing.At.push (h : G.At L M n w) (f : Frame) :
    G.At (L.push f) M n { w with machine.frames := w.machine.frames.push f } := by
  have moved := h.onFrames (L := L.push f) (S := M) ?_ (h.marks ▸ h.holds.marks)
  · rw [h.frames]
    convert moved using 2
    rw [← h.marks]
  · have below := h.holds.frames
    rw [h.frames] at below
    rw [Array.toList_push]
    exact below.trans (List.prefix_append _ _)

theorem sure_pushFrame {Q : Unit → World → Prop} (h : G.At L M n w)
    (next : ∀ w', G.At (L.push f) M n w' → w'.machine.stack = w.machine.stack → w'.heap = w.heap → Q () w') :
    Sure G (pushFrame f) (pushFrame f) w Q :=
  sure_bind (sure_machine (sure_ite (fun _ => sure_ok rfl (next _ (h.push f) rfl rfl)) fun _ =>
    sure_refuse h.holds nofun))

theorem sure_callClosure {ref : Nat} (h : G.At L M n w) (known : ref < n) (size : w.machine.stack.size = b + argc + 1)
    (low : Low M b) : Sure G (callClosure ref argc b) (callClosure ref argc b) w fun _ w' =>
      G.Calls L M n b w' ∧ w'.heap = w.heap := by
  refine sure_bind (sure_heap (sure_ite (fun arity => ?_) fun _ => sure_refuse h.holds nofun))
  refine sure_pushFrame h fun w₁ h₁ stack heap => ⟨⟨n, [{ closure := ref, base := b }], Nat.le_refl n, ?_, ?_, ?_⟩, heap⟩
  · rwa [piled_cons, piled_nil]
  · rw [heap, stack]
    have full : w.machine.stack.size = b + 1 + (w.heap.code ref).arity := by omega
    exact Tower.enter h.sound.heap (h.inside known) full (Nat.le_refl b) low List.suffix_rfl fun _ leaves =>
      ⟨rfl, leaves⟩
  · intro g began _
    obtain rfl := Option.some.inj began
    rfl

/-! ## Natives -/

theorem sure_pushResults {results : List Value} {Q : Unit → World → Prop} (h : G.At L M n w)
    (known : ∀ v ∈ results, v.Within n)
    (next : ∀ w', G.At L M n w' → w'.machine.stack.size = w.machine.stack.size + results.length →
      results.length = 1 ∨ M.head? = some b → Q () w') :
    Sure G (pushResults results b) (pushResults results b) w Q := by
  refine sure_bind (sure_machine (sure_ite (fun fits => ?_) fun _ => sure_refuse h.holds nofun))
  rw [h.marks] at fits
  exact sure_pushAll h known fun w' h' size => next w' h' size fits

theorem sure_callNative {p q : Window → Run NativeResult} (floor : G.floor ≤ b)
    (size : w.machine.stack.size = b + argc + 1) (plays : ∀ args, G.Plays L M n w (p args) (q args)) :
    Sure G (callNative p argc b) (callNative q argc b) w fun _ w' => G.Calls L M n b w' := by
  refine sure_bind ((plays _).mono fun outcome w₁ ⟨m, le, h₁, above⟩ => ?_)
  refine sure_bind (sure_takeFrom h₁ (by omega) fun results w₂ h₂ known length size₂ => ?_)
  refine sure_bind (sure_truncate h₂ floor fun w₃ h₃ size₃ => ?_)
  have handed (vs : List Value) (some : 1 ≤ vs.length) (known : ∀ v ∈ vs, v.Within m) :
      Sure G (pushResults vs b) (pushResults vs b) w₃ fun _ w' => G.Calls L M n b w' := by
    refine sure_pushResults h₃ known fun w₄ h₄ size₄ fits =>
      ⟨m, [], le, (piled_nil L).symm ▸ h₄, ⟨rfl, ?_⟩, seated_nil b⟩
    have size₄ : w₄.machine.stack.size = b + vs.length := by omega
    rcases fits with one | head
    · exact .inl (by omega)
    · exact .inr ⟨head, by omega⟩
  refine sure_ite (fun _ => handed [.null] (Nat.le_refl 1) ?_) fun nonempty => handed results ?_ known
  · exact List.forall_mem_singleton.mpr (Value.within_of_isPlain rfl)
  · cases results with
    | nil => exact absurd (.inr rfl) nonempty
    | cons => exact Nat.succ_pos _

theorem sure_native {ref : Nat} {k : (Window → Run NativeResult) → Run Unit} {Q : Unit → World → Prop}
    (next : Sure G (k (Native.run x (w.native ref))) (k (Native.run y (w.native ref))) w Q) :
    Sure G (native x ref >>= k) (native y ref >>= k) w Q := next

/-! ## Types -/

theorem sure_pushChains {made : Value} {type : String} {chains : List Value} (h : G.At (piled L fs) M n w)
    (known : made.Within n) (low : Low M b) (each : ∀ v ∈ chains, w.heap.Chains v)
    (tower : Tower w.heap b M fs w.machine.stack.size M) (seated : Seated b fs) :
    Sure G (pushChains made type chains) (pushChains made type chains) w fun _ w' => G.Calls L M n b w' := by
  induction chains generalizing fs w with
  | nil => exact sure_pure ⟨n, fs, Nat.le_refl n, h, tower, seated⟩
  | cons chain chains ih =>
    unfold pushChains
    split
    · next ref =>
      have offered := each _ (.head _)
      have inside : ref < n := h.knows_heap offered.offers ref rfl
      refine sure_bind (sure_stackSize (sure_bind (sure_ok rfl ?_)))
      refine sure_bind (sure_pushFrame (h.pushed known) fun w₁ h₁ stack heap => ?_)
      have full : w₁.machine.stack.size = w.machine.stack.size + 1 + (w₁.heap.code ref).arity := by
        rw [stack, heap]
        change _ = _ + 1 + (w.heap.code ref).arity
        rw [h.sound.heap.chains ref offered]
        exact Array.size_push _
      have above := Nat.le_of_lt tower.lt
      rw [← piled_cons] at h₁
      refine ih h₁ (fun v mem => heap ▸ each v (.tail _ mem)) ?_ (seated.cons rfl)
      exact Tower.enter h₁.sound.heap (h₁.inside inside) full above (low.mono above) List.suffix_rfl
        fun _ (same : _ = _) =>
        same ▸ heap ▸ tower
    · exact sure_refuse h.holds nofun

/-- A new instance takes the place of the type. -/
theorem sure_instantiate {ref : Nat} (h : G.At L M n w) (floor : G.floor ≤ b)
    (size : w.machine.stack.size = b + argc + 1) (low : Low M b) :
    Sure G (instantiate ref argc b) (instantiate ref argc b) w fun _ w' => G.Calls L M n b w' := by
  refine sure_bind (sure_userType (sure_ite (fun _ => sure_refuse h.holds nofun) fun _ => ?_))
  refine sure_bind (sure_ok (u := w.onHeap _) rfl ?_)
  have gains := Heap.gains_addObject (h := w.heap) (K := {v | v.Within n}) (o := ⟨some ref, ∅, {}⟩)
    fun _ _ found => by cases found
  have h₁ : G.At L M n (w.onHeap (w.heap.addObject ⟨some ref, ∅, {}⟩).2) := h.gains gains rfl
  refine sure_bind (sure_setSlot h₁ (Value.within_of_isPlain rfl) (fun below => absurd below (by omega))
    fun w₂ h₂ size₂ heap₂ => ?_)
  have chained : ∀ v ∈ (w.heap.userType ref).initChains.reverse, w₂.heap.Chains v := fun v mem =>
    heap₂ ▸ Heap.chains_type (h := w.heap) (List.mem_reverse.mp mem)
  have known : (w.heap.addObject ⟨some ref, ∅, {}⟩).1.Within n := Value.within_of_isPlain rfl
  split
  · next init found =>
    have inside := h.knows_heap (Heap.offers_type (.method "init" found)) init rfl
    refine sure_bind ((sure_callClosure h₂ inside (size₂.trans size) low).mono ?_)
    rintro _ w₃ ⟨⟨m, gs, le, h₃, tower, seated⟩, heap₃⟩
    refine (sure_pushChains h₃ (known.mono le) low (heap₃ ▸ chained) tower seated).mono ?_
    exact fun _ _ ⟨k, fs, le', rest⟩ => ⟨k, fs, le.trans le', rest⟩
  · refine sure_ite (fun _ => sure_bind (sure_refuse h₂.holds nofun)) fun few => ?_
    have size₂ : w₂.machine.stack.size = w.machine.stack.size := size₂
    have alone : w₂.machine.stack.size = b + 1 := by
      have : argc = 0 := by simpa using few
      omega
    have none : Tower w₂.heap b M [] w₂.machine.stack.size M := ⟨rfl, .inl alone⟩
    exact sure_pushChains ((piled_nil L).symm ▸ h₂) known low chained none (seated_nil b)

/-! ## Calls of anything -/

theorem sure_calleeSlot {Q : Nat → World → Prop} (size : w.machine.stack.size = b + argc + 1) (next : Q b w) :
    Sure G (calleeSlot argc) (calleeSlot argc) w Q := sure_ok (calleeSlot_eq size) next

variable (sturdy : Sturdy x y)
include sturdy

theorem Sturdy.sure_callParts {args parts : List Value} {last : Value} (h : G.At L M n w) (inside : 0 < L.size)
    (each : ∀ v ∈ args, v.Within n) (known : ∀ v ∈ parts, v.Within n) (last_ : last.Within n) :
    Sure G (callParts x args last parts) (callParts y args last parts) w fun v w' =>
      ∃ m, G.Lasts L M n w m w' ∧ v.Within m := by
  induction parts generalizing n w last with
  | nil => exact sure_pure ⟨n, h.lasts, last_⟩
  | cons part parts ih =>
    refine sure_bind ((sturdy.sure_call h inside (known part (.head _)) each).mono fun vs w₁ ⟨m, lasts, results⟩ => ?_)
    refine (ih lasts.stands (fun v mem => (each v mem).mono lasts.le)
      (fun v mem => (known v (.tail _ mem)).mono lasts.le) (within_first results)).mono ?_
    exact fun _ _ ⟨k, lasts', known⟩ => ⟨k, lasts.trans lasts', known⟩

theorem Sturdy.sure_callCombined {parts : List Value} (h : G.At L M n w) (inside : 0 < L.size) (floor : G.floor ≤ b)
    (size : w.machine.stack.size = b + argc + 1) (known : ∀ v ∈ parts, v.Within n) :
    Sure G (callCombined x parts b) (callCombined y parts b) w fun _ w' => G.Calls L M n b w' := by
  refine sure_bind (sure_takeFrom h (by omega) fun args w₁ h₁ each _ size₁ => ?_)
  refine sure_bind (sure_truncate h₁ floor fun w₂ h₂ size₂ => ?_)
  refine sure_bind ((sturdy.sure_callParts h₂ inside each known (Value.within_of_isPlain rfl)).mono ?_)
  rintro v w₃ ⟨m, lasts, result⟩
  have := lasts.size
  exact sure_push lasts.stands result fun w₄ h₄ size₄ =>
    ⟨m, [], lasts.le, (piled_nil L).symm ▸ h₄, ⟨rfl, .inl (by omega)⟩, seated_nil b⟩

theorem Sturdy.sure_callTop (h : G.At L M n w) (inside : 0 < L.size) (floor : G.floor ≤ b)
    (size : w.machine.stack.size = b + argc + 1) (low : Low M b) :
    Sure G (callTop x argc) (callTop y argc) w fun _ w' => G.Calls L M n b w' := by
  refine sure_bind (sure_calleeSlot size (sure_bind (sure_slot h fun v known there => ?_)))
  split
  · next ref => exact (sure_callClosure h (known ref rfl) size low).mono fun _ _ => And.left
  · next ref =>
    refine sure_bind (sure_heap ?_)
    dsimp only
    have receiver : (w.heap.boundMethod ref).receiver.Within n := h.knows_heap w.heap.offers_receiver
    have method : (w.heap.boundMethod ref).method.Within n := h.knows_heap w.heap.offers_bound
    refine sure_bind (sure_setSlot h receiver (fun below => absurd below (by omega)) fun w₁ h₁ size₁ _ => ?_)
    split
    · next r same => exact (sure_callClosure h₁ (method r same) (size₁.trans size) low).mono fun _ _ => And.left
    · exact sure_native (sure_callNative floor (size₁.trans size) fun args => sturdy.sure_run h₁ inside _ args)
    · exact sure_refuse h₁.holds nofun
  · exact sure_instantiate h floor size low
  · exact sure_native (sure_callNative floor size fun args => sturdy.sure_run h inside _ args)
  · next ref =>
    exact sure_bind (sure_heap (sturdy.sure_callCombined h inside floor size fun v part =>
      h.knows_heap (Heap.offers_part part)))
  · exact sure_refuse h.holds nofun

theorem Sturdy.sure_callInstead (h : G.At L M n w) (inside : 0 < L.size) (floor : G.floor ≤ b)
    (size : w.machine.stack.size = b + argc + 1) (low : Low M b) (known : v.Within n) :
    Sure G (callInstead x v argc b) (callInstead y v argc b) w fun _ w' => G.Calls L M n b w' :=
  sure_bind (sure_setSlot h known (fun below => absurd below (by omega)) fun _ h₁ size₁ _ =>
    sturdy.sure_callTop h₁ inside floor (size₁.trans size) low)

theorem Sturdy.sure_invoke (h : G.At L M n w) (inside : 0 < L.size) (floor : G.floor ≤ b)
    (size : w.machine.stack.size = b + argc + 1) (low : Low M b) (index : UInt16) :
    Sure G (invoke x index argc) (invoke y index argc) w fun _ w' => G.Calls L M n b w' := by
  have refused (receiver : Value) (name : String) : Sure G (undefinedMethod receiver name : Run Unit)
      (undefinedMethod receiver name) w fun _ w' => G.Calls L M n b w' :=
    (looks_undefinedMethod receiver name).sure h.holds fun v there => nomatch there
  refine sure_bind ((looks_name index).sure h.holds fun name _ => sure_bind (sure_calleeSlot size ?_))
  refine sure_bind (sure_slot h fun receiver known there => sure_bind (sure_heap ?_))
  split
  · next ref =>
    dsimp only
    split
    · next v found => exact sturdy.sure_callInstead h inside floor size low (h.knows_heap (Heap.offers_field found))
    · split
      · next r found =>
        exact (sure_callClosure h (h.knows_heap (Heap.offers_method found) r rfl) size low).mono fun _ _ => And.left
      · exact sure_native (sure_callNative floor size fun args => sturdy.sure_run h inside _ args)
      · next v _ _ found =>
        exact sturdy.sure_callInstead h inside floor size low (h.knows_heap (Heap.offers_method found))
      · exact refused _ _
  · next ref =>
    split
    · next v found =>
      exact sturdy.sure_callInstead h inside floor size low (h.knows_heap (Heap.offers_type (.static name found)))
    · exact refused _ _
  · next ref =>
    obtain ⟨none, none'⟩ | ⟨p, q, some, some', plays⟩ := sturdy.sure_listMethod h inside ref name
    · rw [none, none']
      exact refused _ _
    · rw [some, some']
      exact sure_callNative floor size plays
  · next ref =>
    split
    · next method found => exact sure_callNative floor size (sure_mapMethod h found)
    · exact refused _ _
  · exact refused _ _

omit sturdy in
/-- The supertype lies above the arguments. -/
theorem sure_superInvoke (h : G.At L M n w) (floor : G.floor ≤ b) (size : w.machine.stack.size = b + argc + 2)
    (low : Low M b) (index : UInt16) :
    Sure G (superInvoke index argc) (superInvoke index argc) w fun _ w' => G.Calls L M n b w' := by
  refine sure_bind ((looks_name index).sure h.holds fun name _ => ?_)
  refine sure_bind (sure_popType h (by omega) fun ref w₁ h₁ size₁ => ?_)
  have size₁ : w₁.machine.stack.size = b + argc + 1 := by omega
  refine sure_bind (sure_calleeSlot size₁ (sure_bind (sure_userType ?_)))
  split
  · next method found =>
    have known := h₁.knows_heap (Heap.offers_type (.method name found))
    exact (sure_callClosure h₁ (known method rfl) size₁ low).mono fun _ _ => And.left
  · exact (looks_undefinedInSuper _ _).sure h₁.holds fun v there => nomatch there

/-! ## Instructions that call -/

/-- So many values from the callee on are there for a call. -/
def Instruction.calls? : Instruction → Option Nat
  | call argc | invoke _ argc => some (argc.toNat + 1)
  | superInvoke _ argc => some (argc.toNat + 2)
  | _ => none

omit sturdy in
theorem Instruction.effect_of_calls {i : Instruction} {values : Nat} (calls : i.calls? = some values) :
    i.effect = some (values, 1) := by
  cases i <;> cases calls <;> rfl

theorem Sturdy.sure_calls {i : Instruction} {values : Nat} (h : G.At L M n w) (inside : 0 < L.size)
    (floor : G.floor ≤ b) (calls : i.calls? = some values) (size : w.machine.stack.size = b + values) (low : Low M b) :
    Sure G (plain x i) (plain y i) w fun _ w' => G.Calls L M n b w' := by
  cases i <;> cases calls
  · exact sturdy.sure_callTop h inside floor size low
  · exact sturdy.sure_invoke h inside floor size low _
  · exact sure_superInvoke h floor size low _

end

end ScriptEngine
