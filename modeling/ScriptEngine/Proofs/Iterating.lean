import ScriptEngine.Proofs.Testing

/-!
# Callbacks of lists

A method of a list that calls back goes through the elements that the list had when the
method was called. The callback is called once for each of them, in order, and each call
leaves the stack and the frames as it found them; what it does to the list itself is not
seen. The first failure ends the method.
-/
namespace ScriptEngine

open Run

/-- Elements are gone through: the callback is called once for each of them, in order, and the first result of the
call, null if there is none, takes what has been collected a step further. The first call that does not answer is the
last one. -/
inductive Iterates {σ : Type} (again : Reentry) (callback : Value) (args : σ → Value → List Value)
    (further : σ → Value → Value → σ) : List Value → σ → World → Except Halt σ → World → Prop
  | done {s : σ} {w : World} : Iterates again callback args further [] s w (.ok s) w
  | call {item : Value} {items results : List Value} {s : σ} {w w₁ w' : World} {r : Except Halt σ}
      (called : again.call callback (args s item) w = .ok results w₁) (back : w.Back w₁)
      (rest : Iterates again callback args further items (further s item (results.head?.getD .null)) w₁ r w') :
      Iterates again callback args further (item :: items) s w r w'
  | stopped {item : Value} {items : List Value} {s : σ} {e : Halt} {w w' : World}
      (called : again.call callback (args s item) w = .error e w') (back : ∀ f, e = .failed f → w.Back w') :
      Iterates again callback args further (item :: items) s w (.error e) w'

/-- The next instruction calls a method with these arguments on a list, with the rest of the stack below it. -/
structure World.Calling (w : World) (method : String) (ref : Nat) (args : List Value) (rest : Array Value) : Prop where
  next : ∃ index argc, w.next? = some (.invoke index argc) ∧ argc.toNat = args.length ∧ w.nameAt index = some method
  stack : w.machine.stack = rest ++ (.list ref :: args).toArray

/-- The world in which a value stands in the place of the callee. -/
def World.answering (w : World) (base : Nat) (v : Value) : World :=
  w.onStack ((w.machine.stack.shrink base).push v)

/-- The world with one more list. -/
def World.listing (w : World) (items : List Value) : World :=
  { w with heap.lists := w.heap.lists.push items.toArray }

/-- The world in which a new list stands in the place of the callee. -/
def World.answeringList (w : World) (base : Nat) (items : List Value) : World :=
  (w.listing items).answering base (.list w.heap.lists.size)

/-- How an instruction ends: a failure is located where it arises. -/
def ending {σ : Type} (w : World) (answer : σ → World) : Except Halt σ → EStateM.Result Halt World Control
  | .ok s => .ok .next (answer s)
  | .error (.failed f) => .error (.failed (f.locate (w.heap.location? w.machine.frames))) w
  | .error .outOfFuel => .error .outOfFuel w

/-- How a computation ends that has come to so much in a world. -/
def endingAt {σ : Type} (w : World) : Except Halt σ → EStateM.Result Halt World σ
  | .ok s => .ok s w
  | .error e => .error e w

section

variable {σ α : Type} {again : Reentry} {callback : Value} {args : σ → Value → List Value}
  {further : σ → Value → Value → σ} {items : List Value} {s : σ} {w w' : World}

theorem map_run {β : Type} (f : α → β) (x : Run α) (w : World) : (f <$> x) w =
    match x w with
    | .ok a w' => .ok (f a) w'
    | .error e w' => .error e w' := by
  change EStateM.map f x w = _
  unfold EStateM.map
  cases x w <;> rfl

/-- What is collected from calls, one after the other. -/
theorem Sturdy.iterates (sturdy : Sturdy again again) (args : σ → Value → List Value)
    (further : σ → Value → Value → σ) (known : Nat → σ → Prop)
    (grows : ∀ {m n : Nat} {s : σ}, m ≤ n → known m s → known n s)
    (keeps : ∀ {n : Nat} {s : σ} {item v : Value}, known n s → item.Within n → v.Within n → known n (further s item v))
    (offers : ∀ {n : Nat} {s : σ} {item : Value}, known n s → item.Within n → ∀ v ∈ args s item, v.Within n)
    (sound : w.Sound) (inside : 0 < w.machine.frames.size) (callable : callback.Within w.closures)
    (each : ∀ v ∈ items, v.Within w.closures) (start : known w.closures s) :
    ∃ r w', Iterates again callback args further items s w r w' ∧
      items.foldlM (fun s item => (further s item <| Native.first ·) <$> again.call callback (args s item)) s w =
        endingAt w' r := by
  induction items generalizing s w with
  | nil => exact ⟨.ok s, w, .done, rfl⟩
  | cons item items ih =>
    have itemKnown : item.Within w.closures := each item (.head _)
    have returned := (sturdy.call w callback (args s item) sound inside callable (offers start itemKnown)).2
    rw [List.foldlM_cons, bind_eq, map_run]
    cases called : again.call callback (args s item) w with
    | ok vs w₁ =>
      rw [called] at returned
      obtain ⟨back, results⟩ := returned
      have le : w.closures ≤ w₁.closures := closures_le back.holds.closures
      have next : known w₁.closures (further s item (Native.first vs)) :=
        keeps (grows le start) (itemKnown.mono le) (within_first results)
      obtain ⟨r, w', iterates, ran⟩ := ih back.holds.sound (back.frames ▸ inside) (callable.mono le)
        (fun v mem => (each v (.tail _ mem)).mono le) next
      exact ⟨r, w', .call called back iterates, ran⟩
    | error e w₁ =>
      rw [called] at returned
      refine ⟨.error e, w₁, .stopped called fun f same => ?_, rfl⟩
      subst same
      exact returned.1

/-- Calls leave the stack as high as they found it. -/
theorem Iterates.size {r : Except Halt σ} (iterates : Iterates again callback args further items s w r w')
    (answered : ∃ s', r = .ok s') : w'.machine.stack.size = w.machine.stack.size := by
  induction iterates with
  | done => rfl
  | call _ back _ ih => exact (ih answered).trans back.size
  | stopped =>
    obtain ⟨_, same⟩ := answered
    cases same

/-! ## Folds -/

section

variable {m : Type → Type} [Monad m] [LawfulMonad m]

theorem foldlM_append_mapM (f : α → m σ) (items : List α) (front : List σ) :
    items.foldlM (fun vs item => (vs ++ [·]) <$> f item) front = (front ++ ·) <$> items.mapM f := by
  induction items generalizing front with
  | nil => simp
  | cons item items ih =>
    rw [List.foldlM_cons, List.mapM_cons, bind_map_left, map_bind]
    refine bind_congr fun v => ?_
    rw [ih]
    simp

theorem foldlM_append_filterM (p : α → m Bool) (items : List α) :
    items.foldlM (fun kept item => (fun keep => bif keep then kept ++ [item] else kept) <$> p item) [] =
      items.filterM p := by
  have aux (front : List α) : items.foldlM
      (fun kept item => (fun keep => bif keep then kept ++ [item] else kept) <$> p item) front.reverse =
        List.reverse <$> items.filterAuxM p front := by
    induction items generalizing front with
    | nil => simp [List.filterAuxM]
    | cons item items ih =>
      rw [List.foldlM_cons, List.filterAuxM, map_bind, bind_map_left]
      refine bind_congr fun keep => ?_
      rw [← ih]
      cases keep <;> simp
  rw [List.filterM, bind_pure_comp]
  exact aux []

end

/-! ## Methods -/

variable {stop base argc ref : Nat} {rest : Array Value} {v : Value} {arguments : List Value} {method : String}

theorem argument_eq {index : Nat} (le : index ≤ argc) (there : w.machine.stack[base + index]? = some v) :
    Window.argument ⟨base, argc⟩ index w = .ok v w := by
  unfold Window.argument
  rw [if_neg (Nat.not_lt.mpr le)]
  exact slot_eq there

/-- A native that gives one value leaves it in the place of its callee. -/
theorem callNative_give {body : Window → Run NativeResult} (ran : body ⟨base, argc⟩ w = Native.give v w')
    (size : w'.machine.stack.size = base + argc + 1) : callNative body argc base w = .ok () (w'.answering base v) := by
  have given : body ⟨base, argc⟩ w = .ok .expression (w'.onStack (w'.machine.stack.push v)) := ran
  have results : ((w'.machine.stack.push v).extract (base + argc + 1)).toList = [v] := by
    rw [← size]
    simp
  have left : ((w'.machine.stack.push v).shrink (base + argc + 1)).shrink base = w'.machine.stack.shrink base := by
    rw [← size, Array.shrink_eq_take, Array.shrink_eq_take, Array.shrink_eq_take]
    simp
  have taken : takeFrom (base + argc + 1) (w'.onStack (w'.machine.stack.push v)) =
      .ok [v] (w'.onStack ((w'.machine.stack.push v).shrink (base + argc + 1))) := by
    rw [← results]
    rfl
  have truncated : truncate base (w'.onStack ((w'.machine.stack.push v).shrink (base + argc + 1))) =
      .ok () (w'.onStack (w'.machine.stack.shrink base)) := by
    rw [← left]
    rfl
  have pushed (w : World) : pushResults [v] base w = .ok () (w.onStack (w.machine.stack.push v)) := by
    change (if [v].length = 1 ∨ w.machine.marks.head? = some base then pushAll [v]
      else fail (.multiReturnMismatch 1 1) : Run Unit) w = _
    rw [if_pos (.inl rfl)]
    simp [pushAll, modifyStack, modifyMachine, World.onStack]
  unfold callNative
  rw [bind_of_ok given, bind_of_ok taken, bind_of_ok truncated, if_neg (by simp), pushed]
  rfl

/-- The method of a list or a map under a name, which the machine runs by itself. -/
def nativeMethod? (again : Reentry) (method : String) : Value → Option (Window → Run NativeResult)
  | .list ref => Native.listMethod? again ref method
  | .map ref => Native.mapMethod? ref method
  | _ => none

theorem cycle_native {body : Window → Run NativeResult} {receiver : Value}
    (next : ∃ index argc, w.next? = some (.invoke index argc) ∧ argc.toNat = arguments.length ∧
      w.nameAt index = some method)
    (stack : w.machine.stack = rest ++ (receiver :: arguments).toArray)
    (found : nativeMethod? again method receiver = some body) : cycle again stop w =
      located (do
        callNative body arguments.length rest.size
        return .next) w.fetched := by
  obtain ⟨index, argc, next, count, named⟩ := next
  have stack : w.fetched.machine.stack = rest ++ (receiver :: arguments).toArray := w.stack_fetched.trans stack
  have called : invoke again index argc.toNat w.fetched = callNative body arguments.length rest.size w.fetched := by
    unfold invoke
    rw [bind_of_ok (name_eq ((w.nameAt_fetched index).trans named)), count,
      bind_of_ok (calleeSlot_eq (b := rest.size) (by simp [stack]; omega)),
      bind_of_ok (slot_eq (v := receiver) (by simp [stack])), bind_of_ok (x := heap) (u := w.fetched) rfl]
    unfold nativeMethod? at found
    split at found
    · dsimp only
      rw [found]
    · dsimp only
      rw [found]
    · cases found
  rw [cycle_eq next, step_ordinary stop rfl]
  unfold located
  have same : plain again (.invoke index argc) w.fetched = callNative body arguments.length rest.size w.fetched := called
  rw [bind_eq, bind_eq, same]

/-- A method that goes through the elements ends as its calls do. -/
theorem cycle_ending {body : Window → Run NativeResult} (calling : w.Calling method ref arguments rest)
    (found : Native.listMethod? again ref method = some body) {r : Except Halt σ} (answer : σ → World) (give : σ → Value)
    (ran : body ⟨rest.size, arguments.length⟩ w.fetched = match r with
      | .ok s => Native.give (give s) (answer s)
      | .error e => .error e w')
    (size : ∀ s, r = .ok s → (answer s).machine.stack.size = w.fetched.machine.stack.size) :
    cycle again stop w = ending w' (fun s => (answer s).answering rest.size (give s)) r := by
  rw [cycle_native calling.next calling.stack found]
  unfold located
  cases r with
  | ok s =>
    have height : (answer s).machine.stack.size = rest.size + arguments.length + 1 := by
      rw [size s rfl, w.stack_fetched, calling.stack]
      simp
      omega
    rw [bind_of_ok (callNative_give ran height)]
    rfl
  | error e =>
    have failed : callNative body arguments.length rest.size w.fetched = .error e w' := bind_of_error ran _
    rw [bind_of_error failed]
    cases e <;> rfl

theorem expect_eq {name : String} : Window.expect ⟨base, argc⟩ name argc w = .ok () w := by
  unfold Window.expect
  rw [if_pos rfl]
  rfl

theorem World.Calling.inside (calling : w.Calling method ref arguments rest) : 0 < w.fetched.machine.frames.size := by
  obtain ⟨index, argc, next, -⟩ := calling.next
  rw [w.size_fetched]
  refine Nat.pos_of_ne_zero fun empty => ?_
  have none : w.machine.frames.back? = Option.none := by simp [Array.eq_empty_of_size_eq_zero empty]
  unfold World.next? at next
  rw [none] at next
  cases next

/-- The receiver and the arguments stand in their slots. -/
theorem World.Calling.slot (calling : w.Calling method ref arguments rest) (index : Nat)
    (at_ : (.list ref :: arguments)[index]? = some v) : w.fetched.machine.stack[rest.size + index]? = some v := by
  rw [w.stack_fetched, calling.stack, Array.getElem?_append_right (Nat.le_add_right _ _), Nat.add_sub_cancel_left,
    List.getElem?_toArray]
  exact at_

theorem World.Calling.within (calling : w.Calling method ref arguments rest) (sound : w.Sound) :
    ∀ v ∈ arguments, v.Within w.fetched.closures := by
  intro v mem
  have there : v ∈ w.fetched.machine.stack := by simp [w.stack_fetched, calling.stack, mem]
  exact sound.fetched.offers v (.slot there)

theorem within_items (sound : w.Sound) (ref : Nat) : ∀ v ∈ (w.heap.list ref).toList, v.Within w.fetched.closures := by
  intro v mem
  apply sound.fetched.heap.offers
  rw [w.heap_fetched]
  exact Heap.offers_item (Array.mem_toList_iff.mp mem)

/-- A method that makes a list of what it collects. -/
theorem cycle_list {body : Window → Run NativeResult} {collect : Run (List Value)} {r : Except Halt (List Value)}
    (calling : w.Calling method ref arguments rest) (found : Native.listMethod? again ref method = some body)
    (does : body ⟨rest.size, arguments.length⟩ w.fetched = (do
      let items ← collect
      Native.give (← allocate (·.addList items.toArray)) : Run NativeResult) w.fetched)
    (ran : collect w.fetched = endingAt w' r)
    (size : (∃ items, r = .ok items) → w'.machine.stack.size = w.fetched.machine.stack.size) :
    cycle again stop w = ending w' (w'.answeringList rest.size) r := by
  refine cycle_ending calling found w'.listing (fun _ => .list w'.heap.lists.size) ?_
    fun items answered => size ⟨items, answered⟩
  rw [does, bind_eq, ran]
  cases r <;> rfl

theorem Sturdy.listMap_iterates (sturdy : Sturdy again again) (sound : w.Sound)
    (calling : w.Calling "Map" ref [callback] rest) : ∃ r w',
      Iterates again callback (fun _ item => [item]) (fun vs _ v => vs ++ [v]) (w.heap.list ref).toList [] w.fetched r w' ∧
        cycle again stop w = ending w' (w'.answeringList rest.size) r := by
  obtain ⟨r, w', iterates, ran⟩ := sturdy.iterates (fun _ item => [item]) (fun vs _ v => vs ++ [v])
    (fun _ _ => True) (s := []) (fun _ _ => trivial) (fun _ _ _ => trivial) (fun _ known => List.forall_mem_singleton.mpr known) sound.fetched
    calling.inside (calling.within sound callback (.head _)) (within_items sound ref) trivial
  have folded := foldlM_append_mapM (fun item => Native.first <$> again.call callback [item])
    (w.heap.list ref).toList []
  simp only [List.nil_append, id_map', Functor.map_map] at folded
  rw [folded] at ran
  refine ⟨r, w', iterates, cycle_list calling rfl ?_ ran iterates.size⟩
  change Native.listMap again ref ⟨rest.size, 1⟩ w.fetched = _
  unfold Native.listMap
  rw [bind_of_ok expect_eq, bind_of_ok (x := Native.items ref) (u := w.fetched) rfl,
    bind_of_ok (argument_eq (Nat.le_refl 1) (calling.slot 1 rfl)), w.heap_fetched]

theorem Sturdy.listFilter_iterates (sturdy : Sturdy again again) (sound : w.Sound)
    (calling : w.Calling "Filter" ref [callback] rest) : ∃ r w',
      Iterates again callback (fun _ item => [item])
          (fun kept item v => if v = .null ∨ v = .bool false then kept else kept ++ [item])
          (w.heap.list ref).toList [] w.fetched r w' ∧
        cycle again stop w = ending w' (w'.answeringList rest.size) r := by
  obtain ⟨r, w', iterates, ran⟩ := sturdy.iterates (fun _ item => [item])
    (fun kept item v => if v = .null ∨ v = .bool false then kept else kept ++ [item]) (fun _ _ => True) (s := [])
    (fun _ _ => trivial) (fun _ _ _ => trivial) (fun _ known => List.forall_mem_singleton.mpr known) sound.fetched
    calling.inside (calling.within sound callback (.head _)) (within_items sound ref) trivial
  have keeps (kept : List Value) (item v : Value) : (if v = .null ∨ v = .bool false then kept else kept ++ [item]) =
      bif !v.isFalsy then kept ++ [item] else kept := by
    cases v with
    | bool b => cases b <;> rfl
    | _ => rfl
  have folded := foldlM_append_filterM
    (fun item => (fun vs => !(Native.first vs).isFalsy) <$> again.call callback [item]) (w.heap.list ref).toList
  simp only [Functor.map_map, ← keeps] at folded
  rw [folded] at ran
  refine ⟨r, w', iterates, cycle_list calling rfl ?_ ran iterates.size⟩
  change Native.listFilter again ref ⟨rest.size, 1⟩ w.fetched = _
  unfold Native.listFilter
  rw [bind_of_ok expect_eq, bind_of_ok (x := Native.items ref) (u := w.fetched) rfl,
    bind_of_ok (argument_eq (Nat.le_refl 1) (calling.slot 1 rfl)), w.heap_fetched]
  simp only [bind_pure_comp]

theorem Sturdy.listReduce_iterates (sturdy : Sturdy again again) (sound : w.Sound) {start : Value}
    (calling : w.Calling "Reduce" ref [callback, start] rest) : ∃ r w',
      Iterates again callback (fun acc item => [acc, item]) (fun _ _ v => v) (w.heap.list ref).toList start w.fetched r w' ∧
        cycle again stop w = ending w' (w'.answering rest.size) r := by
  obtain ⟨r, w', iterates, ran⟩ := sturdy.iterates (fun acc item => [acc, item]) (fun _ _ v => v)
    (fun n v => v.Within n) (s := start) (fun le known => known.mono le) (fun _ _ known => known)
    (fun acc known => List.forall_mem_cons.mpr ⟨acc, List.forall_mem_singleton.mpr known⟩) sound.fetched
    calling.inside (calling.within sound callback (.head _)) (within_items sound ref)
    (calling.within sound start (.tail _ (.head _)))
  refine ⟨r, w', iterates, cycle_ending calling rfl (fun _ => w') id ?_
    fun v answered => iterates.size ⟨v, answered⟩⟩
  change Native.listReduce again ref ⟨rest.size, 2⟩ w.fetched = _
  unfold Native.listReduce
  rw [bind_of_ok expect_eq, bind_of_ok (x := Native.items ref) (u := w.fetched) rfl,
    bind_of_ok (argument_eq (by decide) (calling.slot 1 rfl)),
    bind_of_ok (argument_eq (by decide) (calling.slot 2 rfl)), w.heap_fetched, bind_eq]
  have ran : (w.heap.list ref).toList.foldlM (fun acc item => Native.first <$> again.call callback [acc, item]) start
      w.fetched = endingAt w' r := ran
  rw [ran]
  cases r <;> rfl

/-- What a new list leaves of the others, and what it is itself. -/
theorem World.list_answeringList (w : World) (base : Nat) (items : List Value) :
    (w.answeringList base items).heap.list w.heap.lists.size = items.toArray ∧
      ∀ r ≠ w.heap.lists.size, (w.answeringList base items).heap.list r = w.heap.list r := by
  have same (r : Nat) : (w.answeringList base items).heap.list r = (w.heap.lists.push items.toArray)[r]?.getD #[] := rfl
  constructor
  · rw [same, Array.getElem?_push_size]
    rfl
  · intro r other
    rw [same, Array.getElem?_push, if_neg other]
    rfl

/-- **Lists call back over what they held.** Where execution stands at a call of `Map`, `Filter` or `Reduce` on a list,
the callback is called once for each element that the list has there, in order, with the element or with what has been
accumulated and the element, whatever the calls do. The first call that does not answer ends the method with the same
failure. Otherwise the answer is a new list of the first results, or of the elements whose first result is neither null
nor false, or the last accumulated value, and nothing else differs from what the calls left. A run of compiled scripts,
whether begun or resumed, is sound wherever it comes. -/
theorem list_callbacks_iterate (fuel : Nat) :
    (∀ stop w, w.Sound → ∀ ref callback rest,
      (w.Calling "Map" ref [callback] rest → ∃ r w',
        Iterates (Run.again fuel) callback (fun _ item => [item]) (fun vs _ v => vs ++ [v])
            (w.heap.list ref).toList [] w.fetched r w' ∧
          cycle (Run.again fuel) stop w = ending w' (w'.answeringList rest.size) r) ∧
      (w.Calling "Filter" ref [callback] rest → ∃ r w',
        Iterates (Run.again fuel) callback (fun _ item => [item])
            (fun kept item v => if v = .null ∨ v = .bool false then kept else kept ++ [item])
            (w.heap.list ref).toList [] w.fetched r w' ∧
          cycle (Run.again fuel) stop w = ending w' (w'.answeringList rest.size) r) ∧
      ∀ start, w.Calling "Reduce" ref [callback, start] rest → ∃ r w',
        Iterates (Run.again fuel) callback (fun acc item => [acc, item]) (fun _ _ v => v)
            (w.heap.list ref).toList start w.fetched r w' ∧
          cycle (Run.again fuel) stop w = ending w' (w'.answering rest.size) r) ∧
    (∀ (w : World) base items, (w.answeringList base items).heap.list w.heap.lists.size = items.toArray ∧
      ∀ r ≠ w.heap.lists.size, (w.answeringList base items).heap.list r = w.heap.list r) ∧
    (∀ w s, w.Idles → s.Compiled →
      (Watch.only fun w => w.Fits ∧ w.Stands).interpret fuel s w = (Watch.only World.Fits).interpret fuel s w ∧
        Ended ((Watch.only World.Fits).interpret fuel s w)) ∧
    ∀ w s, w.Idles → s.Stands w.heap →
      (Watch.only fun w => w.Fits ∧ w.Stands).resume fuel s w = (Watch.only World.Fits).resume fuel s w ∧
        Ended ((Watch.only World.Fits).resume fuel s w) := by
  refine ⟨fun stop w sound ref callback rest => ⟨?_, ?_, fun start => ?_⟩, World.list_answeringList, runs_stand fuel⟩
  · exact (sturdy_self fuel).listMap_iterates sound
  · exact (sturdy_self fuel).listFilter_iterates sound
  · exact (sturdy_self fuel).listReduce_iterates sound

end

/-! ## A callback that adds to the list -/

/-- A function that adds its argument to a global list and answers it, and calls of the three methods with it. -/
def Script.addingTokens : List Token :=
  [(.funWord, "fun"), (.identifier, "f"), (.openParen, "("), (.identifier, "x"), (.closeParen, ")"),
    (.openBrace, "\x7b"), (.identifier, "l"), (.dot, "."), (.identifier, "Add"), (.openParen, "("),
    (.identifier, "x"), (.closeParen, ")"), (.semicolon, ";"), (.returnWord, "return"), (.identifier, "x"),
    (.semicolon, ";"), (.closeBrace, "\x7d"),
    (.identifier, "l"), (.dot, "."), (.identifier, "Map"), (.openParen, "("), (.identifier, "f"), (.closeParen, ")"),
    (.semicolon, ";"),
    (.identifier, "l"), (.dot, "."), (.identifier, "Filter"), (.openParen, "("), (.identifier, "f"),
    (.closeParen, ")"), (.semicolon, ";"),
    (.identifier, "l"), (.dot, "."), (.identifier, "Reduce"), (.openParen, "("), (.identifier, "f"), (.comma, ","),
    (.nullWord, "null"), (.closeParen, ")"), (.semicolon, ";")].map fun t => ⟨t.1, t.2, .none, 1, 1, 0⟩

/-- What it is compiled to. -/
def Script.adding : Script where
  hash := "b0384994781030da6241b930cc48254fe030e7b0d04fec42a7a175bfa647104d"
  top := .listed 1
  diagnostics := #[]
  chunks := #[
    { name := "f", source := "main", chain := "main.f", kind := .function
      code := #[.getGlobal 1, .getLocal 1, .invoke 2 1, .pop, .getLocal 1, .ret 1, .null, .ret 1]
      constants := #[.string "x", .string "l", .string "Add"], lines := #[⟨1, 8⟩], arguments := #[0] },
    { name := "main", source := "main", chain := "main", kind := .script
      code := #[.closure 1, .defineGlobal 0, .getGlobal 2, .getGlobal 0, .invoke 3 1, .pop, .getGlobal 2, .getGlobal 0,
        .invoke 4 1, .pop, .getGlobal 2, .getGlobal 0, .null, .invoke 5 2, .pop, .null, .ret 1]
      constants := #[.string "f", .chunk (.listed 0), .string "l", .string "Map", .string "Filter", .string "Reduce"]
      lines := #[⟨1, 17⟩] }]

/-- That script at an instruction, with a list of true and null on the stack and with these arguments. -/
def adding (ip : Nat) (arguments : List Value) : World where
  heap := { scripts := #[.adding], closures := #[⟨⟨0, 1⟩, #[]⟩, ⟨⟨0, 0⟩, #[]⟩], lists := #[#[.bool true, .null]] }
  machine := {
    stack := #[.closure 0] ++ (.list 0 :: arguments).toArray, frames := #[{ closure := 0, ip, base := 0 }]
    globals := Table.empty.insert "l" (.list 0) }

theorem compiled_adding : Script.adding.Compiled :=
  Script.compiled_of_parts Script.addingTokens (by decide +kernel)

theorem sound_adding {ip : Nat} {arguments : List Value} (known : ∀ v ∈ arguments, v.Within 2) :
    (adding ip arguments).Sound := by
  refine ⟨⟨fun s mem => ?_, fun s mem c listed => ?_, fun c mem => ?_, fun v offers => ?_, fun r ⟨t, mem, _⟩ => ?_⟩,
    fun v offers => ?_, fun ref => ?_, nofun⟩
  · obtain rfl := Array.mem_singleton.mp mem
    exact compiled_adding
  · obtain rfl := Array.mem_singleton.mp mem
    have small : ∀ c ∈ Script.adding.chunks, c.code.size < 2 ^ 32 := by decide
    exact small c listed
  · have each : ∀ c ∈ #[(⟨⟨0, 1⟩, #[]⟩ : Closure), ⟨⟨0, 0⟩, #[]⟩], c.chunk = ⟨0, 1⟩ ∨ c.chunk = ⟨0, 0⟩ := by decide
    rcases each c mem with same | same <;> rw [same]
    · exact ⟨.adding, Script.adding.chunks[1], rfl, rfl⟩
    · exact ⟨.adding, Script.adding.chunks[0], rfl, rfl⟩
  · cases offers with
    | plain plain => exact Value.within_of_isPlain plain
    | item mem item =>
      obtain rfl := Array.mem_singleton.mp mem
      have each : ∀ v ∈ #[Value.bool true, .null], v.isPlain := by decide
      exact Value.within_of_isPlain (each v item)
    | cell mem | type mem | field mem | receiver mem | method mem | part mem | entry mem =>
      exact absurd mem (Array.not_mem_empty _)
  · exact absurd mem (Array.not_mem_empty _)
  · cases offers with
    | global name found =>
      change (Table.insert Table.empty "l" (Value.list 0)).get? name = some v at found
      rw [Table.get?_insert] at found
      split at found <;> cases found
      exact Value.within_of_isPlain rfl
    | registered name found => cases found
    | slot mem =>
      have mem : v ∈ #[Value.closure 0] ++ (.list 0 :: arguments).toArray := mem
      rcases Array.mem_append.mp mem with mem | mem
      · obtain rfl := Array.mem_singleton.mp mem
        intro r same
        cases same
        exact Nat.two_pos
      rcases List.mem_cons.mp (List.mem_toArray.mp mem) with rfl | mem
      · exact Value.within_of_isPlain rfl
      · exact known v mem
  · trivial

/-- The function adds each element of the list to the list and answers it; in `Reduce` it is called with one argument
too many. -/
theorem list_callbacks_iterate_adding :
    ((adding 4 [.closure 1]).Calling "Map" 0 [.closure 1] #[.closure 0] ∧
      (∃ r w', Iterates (Run.again 9) (.closure 1) (fun _ item => [item]) (fun vs _ v => vs ++ [v])
          [.bool true, .null] [] (adding 4 [.closure 1]).fetched r w' ∧
        cycle (Run.again 9) 0 (adding 4 [.closure 1]) = ending w' (w'.answeringList 1) r) ∧
      ((cycle (Run.again 9) 0).after (adding 4 [.closure 1])).heap.lists =
        #[#[.bool true, .null, .bool true, .null], #[.bool true, .null]]) ∧
    ((adding 8 [.closure 1]).Calling "Filter" 0 [.closure 1] #[.closure 0] ∧
      (∃ r w', Iterates (Run.again 9) (.closure 1) (fun _ item => [item])
          (fun kept item v => if v = .null ∨ v = .bool false then kept else kept ++ [item])
          [.bool true, .null] [] (adding 8 [.closure 1]).fetched r w' ∧
        cycle (Run.again 9) 0 (adding 8 [.closure 1]) = ending w' (w'.answeringList 1) r) ∧
      ((cycle (Run.again 9) 0).after (adding 8 [.closure 1])).heap.lists =
        #[#[.bool true, .null, .bool true, .null], #[.bool true]]) ∧
    ((adding 13 [.closure 1, .null]).Calling "Reduce" 0 [.closure 1, .null] #[.closure 0] ∧
      (∃ r w', Iterates (Run.again 9) (.closure 1) (fun acc item => [acc, item]) (fun _ _ v => v)
          [.bool true, .null] .null (adding 13 [.closure 1, .null]).fetched r w' ∧
        cycle (Run.again 9) 0 (adding 13 [.closure 1, .null]) = ending w' (w'.answering 1) r) ∧
      ((cycle (Run.again 9) 0).after (adding 13 [.closure 1, .null])).heap.lists = #[#[.bool true, .null]]) ∧
    ((Watch.only fun w => w.Fits ∧ w.Stands).interpret 9 .adding {} = (Watch.only World.Fits).interpret 9 .adding {} ∧
      Ended ((Watch.only World.Fits).interpret 9 .adding {})) ∧
    (Watch.only fun w => w.Fits ∧ w.Stands).resume 9 (testing 2 0).machine.suspension (Pausing.vacated (testing 2 0)) =
        (Watch.only World.Fits).resume 9 (testing 2 0).machine.suspension (Pausing.vacated (testing 2 0)) ∧
      Ended ((Watch.only World.Fits).resume 9 (testing 2 0).machine.suspension (Pausing.vacated (testing 2 0))) := by
  obtain ⟨steps, -, begins, resumes⟩ := list_callbacks_iterate 9
  have callback : ∀ v ∈ [Value.closure 1], v.Within 2 := by
    intro v mem r same
    obtain rfl := List.mem_singleton.mp mem
    cases same
    exact Nat.one_lt_two
  have start : ∀ v ∈ [Value.closure 1, .null], v.Within 2 :=
    List.forall_mem_cons.mpr ⟨callback _ (.head _), List.forall_mem_singleton.mpr (Value.within_of_isPlain rfl)⟩
  have mapping : (adding 4 [.closure 1]).Calling "Map" 0 [.closure 1] #[.closure 0] :=
    ⟨⟨3, 1, by decide +kernel, rfl, by decide +kernel⟩, rfl⟩
  have filtering : (adding 8 [.closure 1]).Calling "Filter" 0 [.closure 1] #[.closure 0] :=
    ⟨⟨4, 1, by decide +kernel, rfl, by decide +kernel⟩, rfl⟩
  have reducing : (adding 13 [.closure 1, .null]).Calling "Reduce" 0 [.closure 1, .null] #[.closure 0] :=
    ⟨⟨5, 2, by decide +kernel, rfl, by decide +kernel⟩, rfl⟩
  refine ⟨⟨mapping, (steps 0 _ (sound_adding callback) 0 _ _).1 mapping, by decide +kernel⟩,
    ⟨filtering, (steps 0 _ (sound_adding callback) 0 _ _).2.1 filtering, by decide +kernel⟩,
    ⟨reducing, (steps 0 _ (sound_adding start) 0 _ _).2.2 .null reducing, by decide +kernel⟩,
    begins {} .adding (idles_fresh {}) compiled_adding, resumes _ _ suspended_testing.1 suspended_testing.2⟩

end ScriptEngine
