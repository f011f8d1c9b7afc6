import ScriptEngine.Proofs.Catching

/-!
# Functions that call back

A function of the host and a method of a list may call values of the machine. What they
rely on is that such a call leaves the machine as it found it, whether it answers or
fails: `Sturdy` says so of the ways back that they are given. Then they keep the
footing too, and leave their results in the place of the callee.
-/
namespace ScriptEngine

open Run

/-- The footing of what begins in a world: all that is there lies below. -/
def World.footing (w : World) : Footing :=
  ⟨w, w.machine.stack.size, w.machine.frames.toList, w.machine.marks⟩

/-- What was on the stack, in frames and in marks is as it was. -/
structure World.Back (w w' : World) : Prop where
  holds : w.footing.Holds w'
  size : w'.machine.stack.size = w.machine.stack.size
  frames : w'.machine.frames = w.machine.frames
  marks : w'.machine.marks = w.machine.marks

/-- How a host call leaves the machine. -/
def Returned (w : World) : EStateM.Result Halt World (List Value) → Prop
  | .ok vs w' => w.Back w' ∧ ∀ v ∈ vs, v.Within w'.closures
  | .error (.failed f) w' => w.Back w' ∧ f.Within w'.closures
  | .error .outOfFuel _ => True

/-- Two ways back into the machine that do the same: they leave it as they found it and start no script. -/
structure Sturdy (x y : Reentry) : Prop where
  call : ∀ w callee args, w.Sound → 0 < w.machine.frames.size → callee.Within w.closures →
    (∀ v ∈ args, Value.Within w.closures v) →
    y.call callee args w = x.call callee args w ∧ Returned w (x.call callee args w)
  interpret : ∀ (w : World) s, 0 < w.machine.frames.size → y.interpret s w = x.interpret s w ∧
    (x.interpret s w = .error .outOfFuel w ∨ x.interpret s w = .error (.failed { error := .internal .running }) w)

/-- The footing still holds, with the same frames and marks and a stack of the same height; there may be more
closures. -/
structure Footing.Lasts (G : Footing) (F : Array Frame) (M : List Nat) (n : Nat) (w : World) (m : Nat) (w' : World) :
    Prop where
  le : n ≤ m
  stands : G.At F M m w'
  size : w'.machine.stack.size = w.machine.stack.size

section

variable {α : Type} {G : Footing} {F : Array Frame} {M : List Nat} {n m : Nat} {w w' : World} {v : Value}
  {x y : Reentry}

theorem Footing.At.lasts (h : G.At F M n w) : G.Lasts F M n w n w := ⟨Nat.le_refl n, h, rfl⟩

theorem Footing.Lasts.trans {k : Nat} {w'' : World} (h : G.Lasts F M n w m w') (h' : G.Lasts F M m w' k w'') :
    G.Lasts F M n w k w'' := ⟨h.le.trans h'.le, h'.stands, h'.size.trans h.size⟩

theorem closures_le {w w' : World} (kept : ∀ r < w.closures, w'.heap.closures[r]? = w.heap.closures[r]?) :
    w.closures ≤ w'.closures := by
  by_contra fewer
  have inside : w'.closures < w.heap.closures.size := by
    unfold World.closures at fewer ⊢
    omega
  have same := kept _ inside
  have none : w'.heap.closures[w'.closures]? = none := Array.getElem?_eq_none (Nat.le_refl _)
  rw [Array.getElem?_eq_getElem inside, none] at same
  cases same

/-- What stands on a footing goes on from where the machine came back to. -/
theorem Footing.At.back (h : G.At F M n w) (back : w.Back w') : G.Lasts F M n w w'.closures w' := by
  have holds := back.holds
  refine ⟨h.count ▸ closures_le holds.closures, ⟨⟨holds.sound, h.size.trans holds.size, fun i hi apart => ?_,
    fun i hi apart => ?_, holds.scripts.trans h.holds.scripts, fun r hr => ?_, ?_, ?_⟩,
    back.frames.trans h.frames, back.marks.trans h.marks, rfl⟩, back.size⟩
  · exact (holds.slots i (Nat.lt_of_lt_of_le hi h.size) (h.holds.apart i hi apart)).trans (h.holds.slots i hi apart)
  · exact holds.apart i (Nat.lt_of_lt_of_le hi h.size) (h.holds.apart i hi apart)
  · have earlier := h.holds.closures r hr
    refine (holds.closures r ?_).trans earlier
    rw [Array.getElem?_eq_getElem hr] at earlier
    exact (Array.getElem?_eq_some_iff.mp earlier).1
  · exact back.frames ▸ h.holds.frames
  · exact back.marks ▸ h.holds.marks

/-! ## Calls back -/

theorem sure_attempt {a b : Run α} {Q : Except Failure α → World → Prop}
    (run : Sure G a b w fun r => Q (.ok r)) (failed : ∀ f w', a w = .error (.failed f) w' → Q (.error f) w') :
    Sure G (attempt a) (attempt b) w Q := by
  obtain ⟨same, out⟩ := run
  unfold Sure attempt
  rw [same]
  cases ran : a w with
  | ok r w' =>
    rw [ran] at out
    exact ⟨rfl, out⟩
  | error e w' =>
    cases e with
    | failed f => exact ⟨rfl, failed f w' ran⟩
    | outOfFuel => exact ⟨rfl, trivial⟩

theorem within_first {vs : List Value} (each : ∀ v ∈ vs, v.Within m) : (Native.first vs).Within m := by
  cases vs with
  | nil => exact Value.within_of_isPlain rfl
  | cons v vs => exact each v (.head _)

/-- A computation that comes to values, one for each element. -/
theorem sure_mapM {k : Nat} {xs : List α} {a b : α → Run Value}
    (each : ∀ e ∈ xs, ∀ n w, k ≤ n → G.At F M n w → Sure G (a e) (b e) w fun v w' =>
      ∃ m, G.Lasts F M n w m w' ∧ v.Within m)
    (le : k ≤ n) (h : G.At F M n w) : Sure G (xs.mapM a) (xs.mapM b) w fun vs w' =>
      ∃ m, G.Lasts F M n w m w' ∧ ∀ v ∈ vs, v.Within m := by
  induction xs generalizing n w with
  | nil => exact sure_pure ⟨n, h.lasts, nofun⟩
  | cons e xs ih =>
    rw [List.mapM_cons, List.mapM_cons]
    refine sure_bind ((each e (.head _) n w le h).mono fun v w₁ ⟨m, lasts, known⟩ => ?_)
    refine sure_bind ((ih (fun e mem => each e (.tail _ mem)) (Nat.le_trans le lasts.le) lasts.stands).mono ?_)
    rintro vs w₂ ⟨m', lasts', known'⟩
    exact sure_pure ⟨m', lasts.trans lasts', List.forall_mem_cons.mpr ⟨known.mono lasts'.le, known'⟩⟩

theorem sure_foldlM {k : Nat} {xs : List α} {a b : Value → α → Run Value}
    (each : ∀ e ∈ xs, ∀ n w v, k ≤ n → G.At F M n w → v.Within n → Sure G (a v e) (b v e) w fun u w' =>
      ∃ m, G.Lasts F M n w m w' ∧ u.Within m)
    (le : k ≤ n) (h : G.At F M n w) (start : v.Within n) : Sure G (xs.foldlM a v) (xs.foldlM b v) w fun u w' =>
      ∃ m, G.Lasts F M n w m w' ∧ u.Within m := by
  induction xs generalizing n w v with
  | nil => exact sure_pure ⟨n, h.lasts, start⟩
  | cons e xs ih =>
    rw [List.foldlM_cons, List.foldlM_cons]
    refine sure_bind ((each e (.head _) n w v le h start).mono fun u w₁ ⟨m, lasts, known⟩ => ?_)
    exact (ih (fun e mem => each e (.tail _ mem)) (Nat.le_trans le lasts.le) lasts.stands known).mono
      fun _ _ ⟨m', lasts', known'⟩ => ⟨m', lasts.trans lasts', known'⟩

/-- What is kept is among what there was. -/
theorem sure_filterM {k : Nat} {xs : List α} {a b : α → Run Bool}
    (each : ∀ e ∈ xs, ∀ n w, k ≤ n → G.At F M n w → Sure G (a e) (b e) w fun _ w' => ∃ m, G.Lasts F M n w m w')
    (le : k ≤ n) (h : G.At F M n w) : Sure G (xs.filterM a) (xs.filterM b) w fun kept w' =>
      (∃ m, G.Lasts F M n w m w') ∧ ∀ e ∈ kept, e ∈ xs := by
  have aux (ys taken : List α) (sub : ∀ e ∈ ys, e ∈ xs) (from_ : ∀ e ∈ taken, e ∈ xs) (n : Nat) (w : World)
      (le : k ≤ n) (h : G.At F M n w) : Sure G (ys.filterAuxM a taken) (ys.filterAuxM b taken) w fun kept w' =>
        (∃ m, G.Lasts F M n w m w') ∧ ∀ e ∈ kept, e ∈ xs := by
    induction ys generalizing taken n w with
    | nil => exact sure_pure ⟨⟨n, h.lasts⟩, from_⟩
    | cons e ys ih =>
      refine sure_bind ((each e (sub e (.head _)) n w le h).mono fun keep w₁ ⟨m, lasts⟩ => ?_)
      have more : ∀ e' ∈ cond keep (e :: taken) taken, e' ∈ xs := by
        cases keep
        · exact from_
        · exact List.forall_mem_cons.mpr ⟨sub e (.head _), from_⟩
      refine (ih _ (fun e mem => sub e (.tail _ mem)) more m w₁ (Nat.le_trans le lasts.le) lasts.stands).mono ?_
      exact fun _ _ ⟨⟨m', lasts'⟩, among⟩ => ⟨⟨m', lasts.trans lasts'⟩, among⟩
  exact sure_bind ((aux xs [] (fun _ => id) nofun n w le h).mono fun kept w' ⟨lasts, among⟩ =>
    sure_pure ⟨lasts, fun e mem => among e (List.mem_reverse.mp mem)⟩)

/-! ## Functions of the core library -/

/-- A native leaves its window, and what it pushed above it. -/
def Footing.Rises (G : Footing) (F : Array Frame) (M : List Nat) (n : Nat) (w w' : World) : Prop :=
  ∃ m, n ≤ m ∧ G.At F M m w' ∧ w.machine.stack.size ≤ w'.machine.stack.size

/-- A body of a native, which keeps the footing. -/
def Footing.Plays (G : Footing) (F : Array Frame) (M : List Nat) (n : Nat) (w : World) (a b : Run NativeResult) :
    Prop :=
  Sure G a b w fun _ w' => G.Rises F M n w w'

theorem sure_give (h : G.At F M n w) (known : v.Within n) : G.Plays F M n w (Native.give v) (Native.give v) :=
  sure_bind (sure_push h known fun w₁ h₁ size => sure_pure ⟨n, Nat.le_refl n, h₁, by omega⟩)

theorem Footing.Lasts.plays {a b : Run NativeResult} (lasts : G.Lasts F M n w m w') (plays : G.Plays F M m w' a b) :
    Sure G a b w' fun _ w'' => G.Rises F M n w w'' :=
  plays.mono fun _ _ ⟨k, le, h, size⟩ => ⟨k, lasts.le.trans le, h, lasts.size ▸ size⟩

theorem sure_argument {args : Window} {index : Nat} {Q : Value → World → Prop} (h : G.At F M n w)
    (next : ∀ v, v.Within n → Q v w) : Sure G (args.argument index) (args.argument index) w Q :=
  sure_ite (fun _ => sure_refuse h.holds nofun) fun _ => sure_slot h fun v known _ => next v known

theorem sure_expect {args : Window} {name : String} {count : Nat} {Q : Unit → World → Prop} (h : G.At F M n w)
    (next : Q () w) : Sure G (args.expect name count) (args.expect name count) w Q :=
  sure_ite (fun _ => sure_pure next) fun _ => sure_refuse h.holds nofun

theorem sure_arguments (h : G.At F M n w) (args : Window) : Sure G args.arguments args.arguments w fun vs w' =>
    ∃ m, G.Lasts F M n w m w' ∧ ∀ v ∈ vs, v.Within m :=
  sure_mapM (fun _ _ k _ _ h => sure_argument h fun _ known => ⟨k, h.lasts, known⟩) (Nat.le_refl n) h

theorem sure_newList {vs : List Value} (h : G.At F M n w) (each : ∀ v ∈ vs, v.Within n) :
    G.Plays F M n w (do Native.give (← allocate (·.addList vs.toArray)))
      (do Native.give (← allocate (·.addList vs.toArray))) := by
  refine sure_bind ((sure_gives_allocate h rfl (Heap.gains_addList fun v item => ?_) rfl).mono
    fun v w₁ ⟨h₁, known, size⟩ => ?_)
  · exact .mem (each v (by simpa using item))
  · exact Footing.Lasts.plays ⟨Nat.le_refl n, h₁, size⟩ (sure_give h₁ known)

theorem sure_core (h : G.At F M n w) (function : CoreFunction) (args : Window) :
    G.Plays F M n w (Native.core function args) (Native.core function args) := by
  cases function with
  | print =>
    refine sure_bind ((sure_arguments h args).mono fun vs w₁ ⟨m, lasts, _⟩ => sure_bind (sure_heap ?_))
    refine sure_bind (sure_modifyMachine (sure_pure ⟨m, lasts.le, ?_, Nat.le_of_eq lasts.size.symm⟩))
    exact lasts.stands.still rfl rfl rfl rfl rfl rfl
  | str =>
    refine sure_bind (sure_expect h (sure_bind (sure_argument h fun v _ => sure_bind (sure_heap ?_))))
    exact sure_give h (Value.within_of_isPlain rfl)
  | list =>
    refine sure_bind ((sure_arguments h args).mono fun vs w₁ ⟨m, lasts, known⟩ => ?_)
    exact lasts.plays (sure_newList lasts.stands known)
  | map =>
    refine sure_bind (sure_expect h (sure_bind ((sure_gives_allocate h rfl (Heap.gains_addMap ?_) rfl).mono ?_)))
    · exact fun _ _ found => by cases found
    · exact fun v w₁ ⟨h₁, known, size⟩ => Footing.Lasts.plays ⟨Nat.le_refl n, h₁, size⟩ (sure_give h₁ known)

variable (sturdy : Sturdy x y)
include sturdy

theorem Sturdy.sure_call (h : G.At F M n w) (inside : 0 < F.size) {callee : Value} {args : List Value}
    (known : callee.Within n) (each : ∀ v ∈ args, v.Within n) :
    Sure G (x.call callee args) (y.call callee args) w fun vs w' =>
      ∃ m, G.Lasts F M n w m w' ∧ ∀ v ∈ vs, v.Within m := by
  obtain ⟨same, returned⟩ := sturdy.call w callee args h.sound (h.frames ▸ inside) (h.count ▸ known)
    (h.count ▸ each)
  refine ⟨same, ?_⟩
  cases ran : x.call callee args w with
  | ok vs w' =>
    rw [ran] at returned
    exact ⟨_, h.back returned.1, returned.2⟩
  | error e w' =>
    cases e with
    | outOfFuel => trivial
    | failed f =>
      rw [ran] at returned
      exact ⟨(h.back returned.1).stands.holds, returned.2⟩

/-- A call whose failure is caught. -/
theorem Sturdy.sure_attempt (h : G.At F M n w) (inside : 0 < F.size) {callee : Value} {args : List Value}
    (known : callee.Within n) (each : ∀ v ∈ args, v.Within n) :
    Sure G (attempt (x.call callee args)) (attempt (y.call callee args)) w fun r w' =>
      ∃ m, G.Lasts F M n w m w' ∧ (∀ vs, r = .ok vs → ∀ v ∈ vs, v.Within m) ∧ ∀ f, r = .error f → f.Within m := by
  refine ScriptEngine.sure_attempt ((sturdy.sure_call h inside known each).mono fun vs w' ⟨m, lasts, known⟩ =>
    ⟨m, lasts, fun _ same => by cases same; exact known, nofun⟩) fun f w' ran => ?_
  obtain ⟨-, returned⟩ := sturdy.call w callee args h.sound (h.frames ▸ inside) (h.count ▸ known)
    (h.count ▸ each)
  rw [ran] at returned
  exact ⟨_, h.back returned.1, nofun, fun _ same => by cases same; exact returned.2⟩

/-- One value that a call comes to. -/
theorem Sturdy.sure_first (h : G.At F M n w) (inside : 0 < F.size) {callee : Value} {args : List Value}
    (known : callee.Within n) (each : ∀ v ∈ args, v.Within n) :
    Sure G (Native.first <$> x.call callee args) (Native.first <$> y.call callee args) w fun v w' =>
      ∃ m, G.Lasts F M n w m w' ∧ v.Within m :=
  sure_map ((sturdy.sure_call h inside known each).mono fun _ _ ⟨m, lasts, known⟩ => ⟨m, lasts, within_first known⟩)

/-! ## Methods of lists and maps -/

omit sturdy in
theorem sure_items {ref : Nat} {Q : List Value → World → Prop} (h : G.At F M n w)
    (next : ∀ vs : List Value, (∀ v ∈ vs, v.Within n) → Q vs w) : Sure G (Native.items ref) (Native.items ref) w Q :=
  sure_bind (sure_heap (sure_pure (next _ fun _ item =>
    h.knows_heap (Heap.offers_item (Array.mem_toList_iff.mp item)))))

theorem Sturdy.sure_listMap (h : G.At F M n w) (inside : 0 < F.size) (ref : Nat) (args : Window) :
    G.Plays F M n w (Native.listMap x ref args) (Native.listMap y ref args) := by
  refine sure_bind (sure_expect h (sure_bind (sure_items h fun items known =>
    sure_bind (sure_argument h fun f kf => ?_))))
  refine sure_bind ((sure_mapM (fun e mem n' w' le h' => ?_) (Nat.le_refl n) h).mono fun vs w₁ ⟨m, lasts, known⟩ => ?_)
  · exact sturdy.sure_first h' inside (kf.mono le) (List.forall_mem_singleton.mpr ((known e mem).mono le))
  · exact lasts.plays (sure_newList lasts.stands known)

theorem Sturdy.sure_listFilter (h : G.At F M n w) (inside : 0 < F.size) (ref : Nat) (args : Window) :
    G.Plays F M n w (Native.listFilter x ref args) (Native.listFilter y ref args) := by
  refine sure_bind (sure_expect h (sure_bind (sure_items h fun items known =>
    sure_bind (sure_argument h fun f kf => ?_))))
  refine sure_bind ((sure_filterM (fun e mem n' w' le h' => ?_) (Nat.le_refl n) h).mono
    fun vs w₁ ⟨⟨m, lasts⟩, among⟩ => ?_)
  · refine sure_bind ((sturdy.sure_call h' inside (kf.mono le)
      (List.forall_mem_singleton.mpr ((known e mem).mono le))).mono ?_)
    exact fun _ _ ⟨m, lasts, _⟩ => sure_pure ⟨m, lasts⟩
  · exact lasts.plays (sure_newList lasts.stands fun v mem => (known v (among v mem)).mono lasts.le)

theorem Sturdy.sure_listReduce (h : G.At F M n w) (inside : 0 < F.size) (ref : Nat) (args : Window) :
    G.Plays F M n w (Native.listReduce x ref args) (Native.listReduce y ref args) := by
  refine sure_bind (sure_expect h (sure_bind (sure_items h fun items known =>
    sure_bind (sure_argument h fun f kf => ?_))))
  refine sure_bind (sure_argument h fun start ks => sure_bind ?_)
  refine (sure_foldlM (fun e mem n' w' acc le h' ka => ?_) (Nat.le_refl n) h ks).mono fun v w₁ ⟨m, lasts, known⟩ => ?_
  · refine sturdy.sure_first h' inside (kf.mono le) (List.forall_mem_cons.mpr ⟨ka, ?_⟩)
    exact List.forall_mem_singleton.mpr ((known e mem).mono le)
  · exact lasts.plays (sure_give lasts.stands known)

/-- The same methods, which keep the footing. -/
theorem Sturdy.sure_listMethod (h : G.At F M n w) (inside : 0 < F.size) (ref : Nat) (name : String) :
    (Native.listMethod? x ref name = none ∧ Native.listMethod? y ref name = none) ∨
    ∃ a b, Native.listMethod? x ref name = some a ∧ Native.listMethod? y ref name = some b ∧
      ∀ args, G.Plays F M n w (a args) (b args) := by
  unfold Native.listMethod?
  split
  · refine .inr ⟨_, _, rfl, rfl, fun args => sure_bind (sure_expect h (sure_bind (sure_argument h fun v known => ?_)))⟩
    refine sure_bind (sure_modifyHeap h (Heap.gains_updateList fun vs u item => ?_) rfl fun w₁ h₁ same => ?_)
    · obtain item | rfl := Array.mem_push.mp item
      · exact .inl item
      · exact .inr (.mem known)
    · exact sure_pure ⟨n, Nat.le_refl n, h₁, by rw [same]⟩
  · refine .inr ⟨_, _, rfl, rfl, fun args => sure_bind (sure_expect h (sure_bind (sure_heap ?_)))⟩
    exact sure_give h (Value.within_of_isPlain rfl)
  · refine .inr ⟨_, _, rfl, rfl, fun args => sure_bind (sure_expect h (sure_bind (sure_heap ?_)))⟩
    refine sure_bind (sure_argument h fun index _ => sure_bind ((looks_position _ _).sure h.holds fun i _ => ?_))
    refine sure_give h (Heap.getD_mem (Value.within_of_isPlain rfl) (fun v item => ?_) i)
    exact h.knows_heap (Heap.offers_item item)
  · exact .inr ⟨_, _, rfl, rfl, sturdy.sure_listMap h inside ref⟩
  · exact .inr ⟨_, _, rfl, rfl, sturdy.sure_listFilter h inside ref⟩
  · exact .inr ⟨_, _, rfl, rfl, sturdy.sure_listReduce h inside ref⟩
  · exact .inl ⟨rfl, rfl⟩

omit sturdy in
theorem sure_mapMethod (h : G.At F M n w) {ref : Nat} {name : String} {a : Window → Run NativeResult}
    (method : Native.mapMethod? ref name = some a) (args : Window) : G.Plays F M n w (a args) (a args) := by
  unfold Native.mapMethod? at method
  split at method
  · cases method
    refine sure_bind (sure_expect h (sure_bind (sure_heap ?_)))
    exact sure_give h (Value.within_of_isPlain rfl)
  · cases method
    refine sure_bind (sure_expect h (sure_bind (sure_argument h fun v _ => ?_)))
    refine sure_bind ((looks_mapKey v).sure h.holds fun k _ => sure_bind (sure_heap ?_))
    exact sure_give h (Value.within_of_isPlain rfl)
  · cases method
    refine sure_bind (sure_expect h (sure_bind (sure_argument h fun v _ => ?_)))
    refine sure_bind ((looks_mapKey v).sure h.holds fun k _ => sure_bind (sure_heap ?_))
    refine sure_bind (sure_modifyHeap h (Heap.gains_updateMap fun t k' u found => ?_) rfl fun w₁ h₁ same => ?_)
    · rw [Table.get?_erase] at found
      split at found
      · cases found
      · exact .inl found
    · refine Footing.Lasts.plays ⟨Nat.le_refl n, h₁, by rw [same]⟩ (sure_give h₁ ?_)
      cases found : (w.heap.map ref).get? k with
      | none => exact Value.within_of_isPlain rfl
      | some v => exact h.knows_heap (Heap.offers_entry found)
  · cases method

/-! ## Functions of the host -/

theorem Sturdy.sure_perform (args : Window) (steps : NativeProgram) (h : G.At F M n w) (inside : 0 < F.size)
    (fair : steps.Fair n) : G.Plays F M n w (Native.perform x args steps) (Native.perform y args steps) := by
  induction steps generalizing n w with
  | finish result => exact sure_pure ⟨n, Nat.le_refl n, h, Nat.le_refl _⟩
  | raise failure => exact sure_raise h.holds (h.count ▸ fair)
  | count next ih => exact ih _ h (fair _)
  | argument index next ih => exact sure_bind (sure_argument h fun v known => ih v h (fair v known))
  | read next ih =>
    exact sure_bind (sure_heap (ih w.heap h (fair w.heap h.count fun _ offers => h.knows_heap offers)))
  | allocate make next ih =>
    obtain ⟨kept, fair⟩ := fair
    obtain ⟨scripts, closures, cells, chains, known⟩ := kept w.heap
    obtain ⟨given, offers⟩ := known h.count fun _ offers => h.knows_heap offers
    have gains : w.heap.Gains {v | v.Within n} (make w.heap).2 :=
      ⟨scripts, closures, fun v offered => .inr (.mem (offers v offered)), fun r chain => .inl (chains _ chain)⟩
    exact sure_bind (sure_ok (u := w.onHeap _) rfl (ih _ (h.gains gains cells) (fair _ given)))
  | push v next ih =>
    refine sure_bind (sure_push h fair.1 fun w₁ h₁ size => (ih h₁ fair.2).mono ?_)
    exact fun _ _ ⟨m, le, h, size'⟩ => ⟨m, le, h, by omega⟩
  | call callee values next ih =>
    obtain ⟨known, each, fairOk, fairError⟩ := fair
    refine sure_bind ((sturdy.sure_attempt h inside known each).mono fun r w₁ ⟨m, lasts, results, failure⟩ => ?_)
    refine lasts.plays (ih r lasts.stands ?_)
    cases r with
    | ok vs => exact fairOk m lasts.le vs (results vs rfl)
    | error f => exact fairError m lasts.le f (failure f rfl)
  | interpret script next ih =>
    refine sure_bind ?_
    obtain ⟨same, out | out⟩ := sturdy.interpret w script (h.frames ▸ inside)
    · refine ⟨same, ?_⟩
      rw [out]
      trivial
    · refine ⟨same, ?_⟩
      rw [out]
      exact ⟨h.holds, nofun⟩

theorem Sturdy.sure_run (h : G.At F M n w) (inside : 0 < F.size) (ref : Nat) (args : Window) :
    G.Plays F M n w (Native.run x (w.native ref) args) (Native.run y (w.native ref) args) := by
  have fair := h.sound.natives ref
  cases body : w.native ref with
  | core function => exact sure_core h function args
  | program steps =>
    rw [body] at fair
    exact sturdy.sure_perform args steps h inside (fair n (Nat.le_of_eq h.count))

end

end ScriptEngine
