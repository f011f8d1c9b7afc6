import ScriptEngine.Proofs.Iterating
import ScriptEngine.Proofs.Keying

/-!
# Maps in a run

What a run does to a map are the stores and removals of its instructions, from the
literal on that makes it. Whatever lies between them, what an instruction reads off the
map is told by those changes. A key that is none is refused and leaves the heap as it is.
-/
namespace ScriptEngine

open Run

/-- The next instruction has these operands on top of the rest of the stack. -/
structure World.Before (w : World) (i : Instruction) (operands : List Value) (rest : Array Value) : Prop where
  next : w.next? = some i
  stack : w.machine.stack = rest ++ operands.toArray

/-- The next instruction calls a method on a receiver with these arguments, on top of the rest of the stack. -/
structure World.Invoking (w : World) (method : String) (receiver : Value) (args : List Value) (rest : Array Value) :
    Prop where
  next : ∃ index argc, w.next? = some (.invoke index argc) ∧ argc.toNat = args.length ∧ w.nameAt index = some method
  stack : w.machine.stack = rest ++ (receiver :: args).toArray

/-- The world with other maps. -/
def World.withMaps (w : World) (maps : Array (Table MapKey Value)) : World := { w with heap.maps := maps }

/-- A map comes to a world with the changes that instructions have made to it. -/
inductive World.MapHistory (ref : Nat) : List MapChange → World → Prop
  | made {again : Reentry} {stop : Nat} {n : UInt16} {pairs : List (Value × Value)} {rest : Array Value}
      {w w' : World} (before : w.Before (.buildMap n) (pairs.flatMap fun p => [p.1, p.2]) rest)
      (count : n.toNat = pairs.length) (fresh : ref = w.heap.maps.size) (ran : cycle again stop w = .ok .next w') :
      MapHistory ref (pairs.map fun p => .store p.1 p.2) w'
  | store {again : Reentry} {stop : Nat} {changes : List MapChange} {k v : Value} {rest : Array Value} {w w' : World}
      (history : MapHistory ref changes w) (before : w.Before .setIndex [.map ref, k, v] rest)
      (ran : cycle again stop w = .ok .next w') : MapHistory ref (changes ++ [.store k v]) w'
  | remove {again : Reentry} {stop : Nat} {changes : List MapChange} {k : Value} {rest : Array Value} {w w' : World}
      (history : MapHistory ref changes w) (invoking : w.Invoking "Remove" (.map ref) [k] rest)
      (ran : cycle again stop w = .ok .next w') : MapHistory ref (changes ++ [.remove k]) w'
  | other {changes : List MapChange} {w w' : World} (history : MapHistory ref changes w)
      (same : w'.heap.maps[ref]? = w.heap.maps[ref]?) : MapHistory ref changes w'

/-- A value is refused as a key, where the instruction stands, and the heap stays as it is. -/
def RefusesKey (k : Value) (w : World) (r : EStateM.Result Halt World Control) : Prop :=
  ∃ w', r = .error (.failed ⟨.unhashableKey k.kindName, w.fetched.heap.location? w.fetched.machine.frames⟩) w' ∧
    w'.heap = w.heap

section

variable {again : Reentry} {stop ref : Nat} {i : Instruction} {w w' : World} {rest : Array Value} {k v : Value}
  {key : MapKey} {t : Table MapKey Value} {operands args : List Value} {method : String}

/-! ## Instructions on operands -/

theorem cycle_next (next : w.next? = some i) (ordinary : i.isWayOut = false)
    (ran : plain again i w.fetched = .ok () w') : cycle again stop w = .ok .next w' := by
  rw [cycle_eq next, step_ordinary stop ordinary]
  unfold located
  rw [bind_of_ok ran]
  rfl

/-- A failure is located where the instruction has been read. -/
theorem cycle_failed {e : RuntimeError} {stack : Array Value} (next : w.next? = some i) (ordinary : i.isWayOut = false)
    (ran : plain again i w.fetched = .error (.failed { error := e }) (w.fetched.onStack stack)) :
    cycle again stop w = .error (.failed ⟨e, w.fetched.heap.location? w.fetched.machine.frames⟩)
      (w.fetched.onStack stack) := by
  rw [cycle_eq next, step_ordinary stop ordinary]
  unfold located
  rw [bind_of_error ran]
  rfl

theorem World.Before.fetched (before : w.Before i operands rest) :
    w.fetched.machine.stack = rest ++ operands.toArray := w.stack_fetched.trans before.stack

/-- The operands are popped from the last one on. -/
theorem pop_last (stack : Array Value) (vs : List Value) (on : w.machine.stack = stack ++ (vs ++ [v]).toArray) :
    pop w = .ok v (w.onStack (stack ++ vs.toArray)) := by
  refine pop_eq ?_
  rw [on]
  simp

theorem mapKey_eq (made : MapKey.ofValue? k = some key) : mapKey k w = .ok key w := by
  unfold mapKey
  rw [made]
  rfl

theorem mapKey_refused (other : ¬ k.IsKey) : mapKey k w = .error (.failed { error := .unhashableKey k.kindName }) w := by
  unfold mapKey
  cases found : MapKey.ofValue? k with
  | some key => exact absurd (MapKey.exists_ofValue?_iff.mp ⟨key, found⟩) other
  | none => rfl

/-! ## Elements -/

theorem element_map (made : MapKey.ofValue? k = some key) :
    element (.map ref) k w = .ok (((w.heap.map ref).get? key).getD .null) w := by
  change (mapKey k >>= fun key => do return (((← heap).map ref).get? key).getD .null : Run Value) w = _
  rw [bind_of_ok (mapKey_eq made)]
  rfl

theorem element_refused (other : ¬ k.IsKey) :
    element (.map ref) k w = .error (.failed { error := .unhashableKey k.kindName }) w := by
  change (mapKey k >>= fun key => do return (((← heap).map ref).get? key).getD .null : Run Value) w = _
  rw [bind_of_error (mapKey_refused other)]

theorem setElement_map (made : MapKey.ofValue? k = some key) : setElement (.map ref) k v w =
    .ok () (w.withMaps (w.heap.maps.modify ref (·.insert key v))) := by
  change (mapKey k >>= fun key => modifyHeap (·.updateMap ref (·.insert key v)) : Run Unit) w = _
  rw [bind_of_ok (mapKey_eq made)]
  rfl

theorem setElement_refused (other : ¬ k.IsKey) :
    setElement (.map ref) k v w = .error (.failed { error := .unhashableKey k.kindName }) w := by
  change (mapKey k >>= fun key => modifyHeap (·.updateMap ref (·.insert key v)) : Run Unit) w = _
  rw [bind_of_error (mapKey_refused other)]

theorem getIndex_eq (on : w.machine.stack = rest ++ [Value.map ref, k].toArray) :
    getIndex w = (element (.map ref) k >>= push : Run Unit) (w.onStack rest) := by
  unfold getIndex
  rw [bind_of_ok (pop_last rest [.map ref] on),
    bind_of_ok (pop_last rest [] rfl)]
  simp

theorem setIndex_eq (on : w.machine.stack = rest ++ [Value.map ref, k, v].toArray) :
    setIndex w = (do setElement (.map ref) k v; push v : Run Unit) (w.onStack rest) := by
  unfold setIndex
  rw [bind_of_ok (pop_last rest [.map ref, k] on),
    bind_of_ok (pop_last rest [.map ref] rfl),
    bind_of_ok (pop_last rest [] rfl)]
  simp

theorem cycle_getIndex (before : w.Before .getIndex [.map ref, k] rest) (made : MapKey.ofValue? k = some key) :
    cycle again stop w = .ok .next (w.fetched.onStack (rest.push (((w.heap.map ref).get? key).getD .null))) := by
  refine cycle_next before.next rfl ?_
  change getIndex w.fetched = _
  rw [getIndex_eq before.fetched, bind_of_ok (element_map made)]
  rw [← w.heap_fetched]
  rfl

theorem cycle_getIndex_refused (before : w.Before .getIndex [.map ref, k] rest) (other : ¬ k.IsKey) :
    cycle again stop w = .error (.failed ⟨.unhashableKey k.kindName, w.fetched.heap.location? w.fetched.machine.frames⟩)
      (w.fetched.onStack rest) := by
  refine cycle_failed before.next rfl ?_
  change getIndex w.fetched = _
  rw [getIndex_eq before.fetched, bind_of_error (element_refused other)]

theorem cycle_setIndex (before : w.Before .setIndex [.map ref, k, v] rest) (made : MapKey.ofValue? k = some key) :
    cycle again stop w = .ok .next
      ((w.fetched.withMaps (w.heap.maps.modify ref (·.insert key v))).onStack (rest.push v)) := by
  refine cycle_next before.next rfl ?_
  change setIndex w.fetched = _
  rw [setIndex_eq before.fetched, bind_of_ok (setElement_map made)]
  rw [← w.heap_fetched]
  rfl

theorem cycle_setIndex_refused (before : w.Before .setIndex [.map ref, k, v] rest) (other : ¬ k.IsKey) :
    cycle again stop w = .error (.failed ⟨.unhashableKey k.kindName, w.fetched.heap.location? w.fetched.machine.frames⟩)
      (w.fetched.onStack rest) := by
  refine cycle_failed before.next rfl ?_
  change setIndex w.fetched = _
  rw [setIndex_eq before.fetched, bind_of_error (setElement_refused other)]

/-! ## Literals -/

/-- The entries that pairs of keys and values make on top of some. -/
theorem entriesOf_eq {pairs : List (Value × Value)} {entries : Table MapKey Value} {changes : List MapChange}
    (keys : ∀ p ∈ pairs, p.1.IsKey) (follows : entries.Follows changes) : ∃ t : Table MapKey Value,
      entriesOf entries (pairs.flatMap fun p => [p.1, p.2]) w = .ok t w ∧
        t.Follows (changes ++ pairs.map fun p => .store p.1 p.2) := by
  induction pairs generalizing entries changes with
  | nil => exact ⟨entries, rfl, by simpa using follows⟩
  | cons p pairs ih =>
    obtain ⟨k, v⟩ := p
    obtain ⟨key, made⟩ := MapKey.exists_ofValue?_iff.mpr (keys _ (.head _))
    obtain ⟨t, ran, follows⟩ := ih (fun p mem => keys p (.tail _ mem)) (follows.store made v)
    refine ⟨t, ?_, by simpa using follows⟩
    change (mapKey k >>= fun key => entriesOf (entries.insert key v) (pairs.flatMap fun p => [p.1, p.2]) :
      Run (Table MapKey Value)) w = _
    rw [bind_of_ok (mapKey_eq made), ran]

/-- The first key that is none is refused. -/
theorem entriesOf_refused {before after : List (Value × Value)} {entries : Table MapKey Value}
    (keys : ∀ p ∈ before, p.1.IsKey) (other : ¬ k.IsKey) :
    entriesOf entries ((before ++ (k, v) :: after).flatMap fun p => [p.1, p.2]) w =
      .error (.failed { error := .unhashableKey k.kindName }) w := by
  induction before generalizing entries with
  | nil =>
    change (mapKey k >>= fun key => entriesOf (entries.insert key v) (after.flatMap fun p => [p.1, p.2]) :
      Run (Table MapKey Value)) w = _
    rw [bind_of_error (mapKey_refused other)]
  | cons p before ih =>
    obtain ⟨key, made⟩ := MapKey.exists_ofValue?_iff.mpr (keys p (.head _))
    change (mapKey p.1 >>= fun key => entriesOf (entries.insert key p.2)
      ((before ++ (k, v) :: after).flatMap fun p => [p.1, p.2]) : Run (Table MapKey Value)) w = _
    rw [bind_of_ok (mapKey_eq made), ih fun p mem => keys p (.tail _ mem)]

theorem length_flatMap_pairs (pairs : List (Value × Value)) :
    (pairs.flatMap fun p => [p.1, p.2]).length = pairs.length * 2 := by
  induction pairs with
  | nil => rfl
  | cons p pairs ih => simp [ih]; omega

theorem popMany_eq {n : Nat} {vs : List Value} (on : w.machine.stack = rest ++ vs.toArray) (count : n = vs.length) :
    popMany n w = .ok vs (w.onStack rest) := by
  have size : w.machine.stack.size = rest.size + n := by simp [on, count]
  have above : (w.machine.stack.extract rest.size).toList = vs := by simp [on]
  have below : w.machine.stack.shrink rest.size = rest := by simp [on, Array.shrink_eq_take]
  change (if n ≤ w.machine.stack.size then takeFrom (w.machine.stack.size - n)
    else fail .stackUnderflow : Run (List Value)) w = _
  rw [if_pos (by omega), size, Nat.add_sub_cancel]
  unfold takeFrom
  rw [above, below]
  rfl

theorem buildMap_eq {n : UInt16} {pairs : List (Value × Value)}
    (on : w.machine.stack = rest ++ (pairs.flatMap fun p => [p.1, p.2]).toArray) (count : n.toNat = pairs.length) :
    buildMap n w = (do
      let entries ← entriesOf ∅ (pairs.flatMap fun p => [p.1, p.2])
      push (← allocate (·.addMap entries)) : Run Unit) (w.onStack rest) := by
  unfold buildMap
  rw [bind_of_ok (popMany_eq on (by rw [length_flatMap_pairs, count]))]

theorem cycle_buildMap {n : UInt16} {pairs : List (Value × Value)}
    (before : w.Before (.buildMap n) (pairs.flatMap fun p => [p.1, p.2]) rest) (count : n.toNat = pairs.length)
    (keys : ∀ p ∈ pairs, p.1.IsKey) : ∃ t : Table MapKey Value, t.Follows (pairs.map fun p => .store p.1 p.2) ∧
      cycle again stop w = .ok .next
        ((w.fetched.withMaps (w.heap.maps.push t)).onStack (rest.push (.map w.heap.maps.size))) := by
  obtain ⟨t, ran, follows⟩ := entriesOf_eq (w := w.fetched.onStack rest) keys .empty
  refine ⟨t, by simpa using follows, cycle_next before.next rfl ?_⟩
  change buildMap n w.fetched = _
  rw [buildMap_eq before.fetched count, bind_of_ok ran, ← w.heap_fetched]
  rfl

theorem cycle_buildMap_refused {n : UInt16} {front after : List (Value × Value)}
    (before : w.Before (.buildMap n) ((front ++ (k, v) :: after).flatMap fun p => [p.1, p.2]) rest)
    (count : n.toNat = (front ++ (k, v) :: after).length) (keys : ∀ p ∈ front, p.1.IsKey) (other : ¬ k.IsKey) :
    cycle again stop w = .error (.failed ⟨.unhashableKey k.kindName, w.fetched.heap.location? w.fetched.machine.frames⟩)
      (w.fetched.onStack rest) := by
  refine cycle_failed before.next rfl ?_
  change buildMap n w.fetched = _
  rw [buildMap_eq before.fetched count, bind_of_error (entriesOf_refused keys other)]

/-! ## Methods -/

theorem cycle_mapMethod_give {body : Window → Run NativeResult} (invoking : w.Invoking method (.map ref) args rest)
    (found : Native.mapMethod? ref method = some body)
    (ran : body ⟨rest.size, args.length⟩ w.fetched = Native.give v w') (same : w'.machine.stack = w.machine.stack) :
    cycle again stop w = .ok .next (w'.onStack (rest.push v)) := by
  have size : w'.machine.stack.size = rest.size + args.length + 1 := by
    rw [same, invoking.stack]
    simp
    omega
  have answered : w'.answering rest.size v = w'.onStack (rest.push v) := by
    unfold World.answering
    rw [same, invoking.stack]
    congr 2
    simp [Array.shrink_eq_take]
  rw [cycle_native invoking.next invoking.stack found]
  unfold located
  rw [bind_of_ok (callNative_give ran size), answered]
  rfl

theorem cycle_mapMethod_refused {body : Window → Run NativeResult} (invoking : w.Invoking method (.map ref) args rest)
    (found : Native.mapMethod? ref method = some body) {e : RuntimeError}
    (ran : body ⟨rest.size, args.length⟩ w.fetched = .error (.failed { error := e }) w.fetched) :
    cycle again stop w = .error (.failed ⟨e, w.fetched.heap.location? w.fetched.machine.frames⟩) w.fetched := by
  have failed : callNative body args.length rest.size w.fetched = .error (.failed { error := e }) w.fetched :=
    bind_of_error ran _
  rw [cycle_native invoking.next invoking.stack found]
  unfold located
  rw [bind_of_error failed]
  rfl

theorem World.Invoking.argument (invoking : w.Invoking method (.map ref) [k] rest) :
    Window.argument ⟨rest.size, 1⟩ 1 w.fetched = .ok k w.fetched := by
  refine argument_eq (Nat.le_refl 1) ?_
  rw [w.stack_fetched, invoking.stack]
  simp

theorem cycle_count (invoking : w.Invoking "Count" (.map ref) [] rest) :
    cycle again stop w = .ok .next (w.fetched.onStack (rest.push (.ofNat (w.heap.map ref).size))) := by
  refine cycle_mapMethod_give invoking rfl ?_ w.stack_fetched
  change Native.mapCount ref ⟨rest.size, 0⟩ w.fetched = _
  unfold Native.mapCount
  rw [bind_of_ok expect_eq, ← w.heap_fetched]
  rfl

theorem cycle_has (invoking : w.Invoking "Has" (.map ref) [k] rest) (made : MapKey.ofValue? k = some key) :
    cycle again stop w = .ok .next (w.fetched.onStack (rest.push (.bool ((w.heap.map ref).contains key)))) := by
  refine cycle_mapMethod_give invoking rfl ?_ w.stack_fetched
  change Native.mapHas ref ⟨rest.size, 1⟩ w.fetched = _
  unfold Native.mapHas
  rw [bind_of_ok expect_eq, bind_of_ok invoking.argument, bind_of_ok (mapKey_eq made), ← w.heap_fetched]
  rfl

theorem cycle_has_refused (invoking : w.Invoking "Has" (.map ref) [k] rest) (other : ¬ k.IsKey) :
    cycle again stop w = .error
      (.failed ⟨.unhashableKey k.kindName, w.fetched.heap.location? w.fetched.machine.frames⟩) w.fetched := by
  refine cycle_mapMethod_refused invoking rfl ?_
  change Native.mapHas ref ⟨rest.size, 1⟩ w.fetched = _
  unfold Native.mapHas
  rw [bind_of_ok expect_eq, bind_of_ok invoking.argument, bind_of_error (mapKey_refused other)]

theorem cycle_remove (invoking : w.Invoking "Remove" (.map ref) [k] rest) (made : MapKey.ofValue? k = some key) :
    cycle again stop w = .ok .next ((w.fetched.withMaps (w.heap.maps.modify ref (·.erase key))).onStack
      (rest.push (((w.heap.map ref).get? key).getD .null))) := by
  refine cycle_mapMethod_give invoking rfl ?_ w.stack_fetched
  change Native.mapRemove ref ⟨rest.size, 1⟩ w.fetched = _
  unfold Native.mapRemove
  rw [bind_of_ok expect_eq, bind_of_ok invoking.argument, bind_of_ok (mapKey_eq made), ← w.heap_fetched]
  rfl

theorem cycle_remove_refused (invoking : w.Invoking "Remove" (.map ref) [k] rest) (other : ¬ k.IsKey) :
    cycle again stop w = .error
      (.failed ⟨.unhashableKey k.kindName, w.fetched.heap.location? w.fetched.machine.frames⟩) w.fetched := by
  refine cycle_mapMethod_refused invoking rfl ?_
  change Native.mapRemove ref ⟨rest.size, 1⟩ w.fetched = _
  unfold Native.mapRemove
  rw [bind_of_ok expect_eq, bind_of_ok invoking.argument, bind_of_error (mapKey_refused other)]

/-! ## Histories -/

/-- Where not all are keys, there is a first one that is none. -/
theorem keys_or_first (pairs : List (Value × Value)) : (∀ p ∈ pairs, p.1.IsKey) ∨
    ∃ front k v after, pairs = front ++ (k, v) :: after ∧ (∀ p ∈ front, Value.IsKey p.1) ∧ ¬ Value.IsKey k := by
  induction pairs with
  | nil => exact .inl (by simp)
  | cons p pairs ih =>
    by_cases known : p.1.IsKey
    · rcases ih with all | ⟨front, k, v, after, rfl, keys, other⟩
      · exact .inl (List.forall_mem_cons.mpr ⟨known, all⟩)
      · exact .inr ⟨p :: front, k, v, after, rfl, List.forall_mem_cons.mpr ⟨known, keys⟩, other⟩
    · exact .inr ⟨[], p.1, p.2, pairs, rfl, by simp, known⟩

/-- The map holds what lasts of its changes. -/
theorem World.MapHistory.follows {changes : List MapChange} (history : w.MapHistory ref changes) :
    ∃ t, w.heap.maps[ref]? = some t ∧ t.Follows changes := by
  induction history with
  | @made again stop n pairs rest w w' before count fresh ran =>
    rcases keys_or_first pairs with keys | ⟨front, k, v, after, rfl, keys, other⟩
    · obtain ⟨t, follows, same⟩ : ∃ t, _ ∧ cycle again stop w = _ := cycle_buildMap before count keys
      rw [same] at ran
      cases ran
      exact ⟨t, by rw [fresh]; exact Array.getElem?_push_size, follows⟩
    · rw [cycle_buildMap_refused before count keys other] at ran
      cases ran
  | @store again stop changes k v rest w w' history before ran ih =>
    obtain ⟨t, there, follows⟩ := ih
    by_cases known : k.IsKey
    · obtain ⟨key, made⟩ := MapKey.exists_ofValue?_iff.mpr known
      rw [cycle_setIndex before made] at ran
      cases ran
      refine ⟨t.insert key v, ?_, follows.store made v⟩
      change (w.heap.maps.modify ref _)[ref]? = _
      simp [Array.getElem?_modify, there]
    · rw [cycle_setIndex_refused before known] at ran
      cases ran
  | @remove again stop changes k rest w w' history invoking ran ih =>
    obtain ⟨t, there, follows⟩ := ih
    by_cases known : k.IsKey
    · obtain ⟨key, made⟩ := MapKey.exists_ofValue?_iff.mpr known
      rw [cycle_remove invoking made] at ran
      cases ran
      refine ⟨t.erase key, ?_, follows.remove made⟩
      change (w.heap.maps.modify ref _)[ref]? = _
      simp [Array.getElem?_modify, there]
    · rw [cycle_remove_refused invoking known] at ran
      cases ran
  | other history same ih =>
    obtain ⟨t, there, follows⟩ := ih
    exact ⟨t, same.trans there, follows⟩

theorem getD_map {t : Table MapKey Value} (there : w.heap.maps[ref]? = some t) : w.heap.map ref = t := by
  unfold Heap.map
  rw [there]
  rfl

theorem modify_other {f : Table MapKey Value → Table MapKey Value} {maps : Array (Table MapKey Value)} {r : Nat}
    (other : r ≠ ref) : (maps.modify ref f)[r]? = maps[r]? := by
  rw [Array.getElem?_modify, if_neg other.symm]

end

/-- **Maps are keyed by equality.** Where a map has come with some changes, and whatever the instruction is given as a
key: an element is what the last store under an equal key left, null if there is none; `Has` tells whether there is
one, `Count` how many keys have one, and a removal answers the element and goes on the list of changes, as a store does.
A literal makes a new map with its stores, in order. A value that is no key is refused by each of them, and nothing on
the heap changes. -/
theorem maps_keyed_by_equality :
    (∀ ref changes (w : World), w.MapHistory ref changes → ∀ again stop rest,
      (∀ k : Value, k.IsKey →
        (w.Before .getIndex [.map ref, k] rest → ∃ v, MapChange.Answers changes k v ∧
          cycle again stop w = .ok .next (w.fetched.onStack (rest.push v))) ∧
        (w.Invoking "Has" (.map ref) [k] rest → ∃ b : Bool, (b = true ↔ ∃ v, MapChange.Lasting changes k v) ∧
          cycle again stop w = .ok .next (w.fetched.onStack (rest.push (.bool b)))) ∧
        (w.Invoking "Remove" (.map ref) [k] rest → ∃ v w', MapChange.Answers changes k v ∧
          cycle again stop w = .ok .next w' ∧ w'.machine.stack = rest.push v ∧
          w'.MapHistory ref (changes ++ [.remove k]) ∧ ∀ r ≠ ref, w'.heap.maps[r]? = w.heap.maps[r]?) ∧
        ∀ v, w.Before .setIndex [.map ref, k, v] rest → ∃ w',
          cycle again stop w = .ok .next w' ∧ w'.machine.stack = rest.push v ∧
          w'.MapHistory ref (changes ++ [.store k v]) ∧ ∀ r ≠ ref, w'.heap.maps[r]? = w.heap.maps[r]?) ∧
      (w.Invoking "Count" (.map ref) [] rest → ∃ keys, MapChange.Keys changes keys ∧
        cycle again stop w = .ok .next (w.fetched.onStack (rest.push (.ofNat keys.length))))) ∧
    (∀ again stop (w : World) (n : UInt16) (pairs : List (Value × Value)) rest, n.toNat = pairs.length →
      w.Before (.buildMap n) (pairs.flatMap fun p => [p.1, p.2]) rest → (∀ p ∈ pairs, p.1.IsKey) → ∃ w',
        cycle again stop w = .ok .next w' ∧ w'.machine.stack = rest.push (.map w.heap.maps.size) ∧
        w'.MapHistory w.heap.maps.size (pairs.map fun p => .store p.1 p.2) ∧
        ∀ r ≠ w.heap.maps.size, w'.heap.maps[r]? = w.heap.maps[r]?) ∧
    ∀ again stop (w : World) rest ref (k : Value), ¬ k.IsKey →
      (w.Before .getIndex [.map ref, k] rest ∨ (∃ v, w.Before .setIndex [.map ref, k, v] rest) ∨
        w.Invoking "Has" (.map ref) [k] rest ∨ w.Invoking "Remove" (.map ref) [k] rest ∨
        ∃ (n : UInt16) (front after : List (Value × Value)) (v : Value),
          n.toNat = (front ++ (k, v) :: after).length ∧ (∀ p ∈ front, p.1.IsKey) ∧
          w.Before (.buildMap n) ((front ++ (k, v) :: after).flatMap fun p => [p.1, p.2]) rest) →
      RefusesKey k w (cycle again stop w) := by
  refine ⟨fun ref changes w history again stop rest => ⟨fun k known => ⟨?_, ?_, ?_, fun v => ?_⟩, ?_⟩,
    fun again stop w n pairs rest count before keys => ?_, fun again stop w rest ref k other operation => ?_⟩
  · intro before
    obtain ⟨key, made⟩ := MapKey.exists_ofValue?_iff.mpr known
    obtain ⟨t, there, follows⟩ := history.follows
    refine ⟨_, ?_, cycle_getIndex before made⟩
    rw [getD_map there]
    exact follows.answers made
  · intro invoking
    obtain ⟨key, made⟩ := MapKey.exists_ofValue?_iff.mpr known
    obtain ⟨t, there, follows⟩ := history.follows
    refine ⟨_, ?_, cycle_has invoking made⟩
    rw [getD_map there]
    exact follows.contains_iff made
  · intro invoking
    obtain ⟨key, made⟩ := MapKey.exists_ofValue?_iff.mpr known
    obtain ⟨t, there, follows⟩ := history.follows
    have ran : cycle again stop w = _ := cycle_remove invoking made
    refine ⟨_, _, ?_, ran, rfl, history.remove invoking ran, fun r ne => modify_other ne⟩
    rw [getD_map there]
    exact follows.answers made
  · intro before
    obtain ⟨key, made⟩ := MapKey.exists_ofValue?_iff.mpr known
    have ran : cycle again stop w = _ := cycle_setIndex before made
    exact ⟨_, ran, rfl, history.store before ran, fun r ne => modify_other ne⟩
  · intro invoking
    obtain ⟨t, there, follows⟩ := history.follows
    obtain ⟨keys, size, listed⟩ := follows.size_eq
    refine ⟨keys, listed, ?_⟩
    rw [cycle_count invoking, getD_map there, size]
  · obtain ⟨t, -, ran⟩ : ∃ t, _ ∧ cycle again stop w = _ := cycle_buildMap before count keys
    exact ⟨_, ran, rfl, .made before count rfl ran, fun r ne => (Array.getElem?_push ..).trans (if_neg ne)⟩
  · rcases operation with before | ⟨v, before⟩ | invoking | invoking | ⟨n, front, after, v, count, keys, before⟩
    · exact ⟨_, cycle_getIndex_refused before other, w.heap_fetched⟩
    · exact ⟨_, cycle_setIndex_refused before other, w.heap_fetched⟩
    · exact ⟨_, cycle_has_refused invoking other, w.heap_fetched⟩
    · exact ⟨_, cycle_remove_refused invoking other, w.heap_fetched⟩
    · exact ⟨_, cycle_buildMap_refused before count keys other, w.heap_fetched⟩

/-! ## The two zeros -/

/-- The zero with a sign. -/
def minusZero : Value := .number ⟨0x8000000000000000⟩

/-- A chunk with an instruction of each kind, at one of them, with these maps and operands. -/
def keyed (ip : Nat) (maps : Array (Table MapKey Value)) (operands : List Value) : World where
  heap := {
    scripts := #[{
      hash := "", top := .listed 0, diagnostics := #[]
      chunks := #[{
        name := "main", source := "", chain := "main", kind := .script
        code := #[.buildMap 1, .getIndex, .setIndex, .invoke 0 1, .invoke 1 1, .invoke 2 0]
        constants := #[.string "Has", .string "Remove", .string "Count"] }] }]
    closures := #[⟨⟨0, 0⟩, #[]⟩], maps }
  machine := { frames := #[{ closure := 0, ip, base := 0 }], stack := #[.closure 0] ++ operands.toArray }

/-- The map of the literal that stores true under the zero with a sign. -/
def zeroMap : Array (Table MapKey Value) := ((cycle unable 0).after (keyed 0 #[] [minusZero, .bool true])).heap.maps

theorem invoking_keyed {ip : Nat} {method : String} {maps : Array (Table MapKey Value)} {args : List Value}
    (index : UInt16) (argc : UInt8) (next : (keyed ip maps (.map 0 :: args)).next? = some (.invoke index argc))
    (count : argc.toNat = args.length) (named : (keyed ip maps (.map 0 :: args)).nameAt index = some method) :
    (keyed ip maps (.map 0 :: args)).Invoking method (.map 0) args #[.closure 0] :=
  ⟨⟨index, argc, next, count, named⟩, rfl⟩

/-- What is stored under one zero is found under the other, and a list is no key. -/
theorem maps_keyed_by_equality_zeros :
    let changes := [MapChange.store minusZero (.bool true)]
    let rest := #[Value.closure 0]
    (∃ w', cycle unable 0 (keyed 0 #[] [minusZero, .bool true]) = .ok .next w' ∧
      w'.machine.stack = rest.push (.map 0) ∧ w'.MapHistory 0 changes) ∧
    (∃ v, MapChange.Answers changes (.ofNat 0) v ∧ cycle unable 0 (keyed 1 zeroMap [.map 0, .ofNat 0]) =
      .ok .next ((keyed 1 zeroMap [.map 0, .ofNat 0]).fetched.onStack (rest.push v))) ∧
    ((cycle unable 0).after (keyed 1 zeroMap [.map 0, .ofNat 0])).machine.stack = rest.push (.bool true) ∧
    (∃ w', cycle unable 0 (keyed 2 zeroMap [.map 0, .ofNat 0, .null]) = .ok .next w' ∧
      w'.MapHistory 0 (changes ++ [.store (.ofNat 0) .null])) ∧
    (∃ b : Bool, (b = true ↔ ∃ v, MapChange.Lasting changes (.ofNat 0) v) ∧
      cycle unable 0 (keyed 3 zeroMap [.map 0, .ofNat 0]) =
        .ok .next ((keyed 3 zeroMap [.map 0, .ofNat 0]).fetched.onStack (rest.push (.bool b)))) ∧
    (∃ w', cycle unable 0 (keyed 4 zeroMap [.map 0, .ofNat 0]) = .ok .next w' ∧
      w'.MapHistory 0 (changes ++ [.remove (.ofNat 0)])) ∧
    (∃ keys, MapChange.Keys changes keys ∧ cycle unable 0 (keyed 5 zeroMap [.map 0]) =
      .ok .next ((keyed 5 zeroMap [.map 0]).fetched.onStack (rest.push (.ofNat keys.length)))) ∧
    RefusesKey (.list 0) (keyed 1 zeroMap [.map 0, .list 0]) (cycle unable 0 (keyed 1 zeroMap [.map 0, .list 0])) := by
  intro changes rest
  obtain ⟨histories, literals, refusals⟩ := maps_keyed_by_equality
  obtain ⟨w', ran, top, history, -⟩ := literals unable 0 (keyed 0 #[] [minusZero, .bool true]) 1
    [(minusZero, .bool true)] rest rfl ⟨by decide +kernel, rfl⟩ (by simp [minusZero, Value.IsKey])
  have kept (ip : Nat) (operands : List Value) : (keyed ip zeroMap operands).MapHistory 0 changes := by
    refine .other history ?_
    change zeroMap[0]? = w'.heap.maps[0]?
    unfold zeroMap
    rw [after_ok ran]
  have steps (ip : Nat) (operands : List Value) := histories 0 changes _ (kept ip operands) unable 0 rest
  have zero : (Value.ofNat 0).IsKey := trivial
  have stored := ((steps 2 [.map 0, .ofNat 0, .null]).1 _ zero).2.2.2 .null ⟨by decide +kernel, rfl⟩
  have removed := ((steps 4 [.map 0, .ofNat 0]).1 _ zero).2.2.1
    (invoking_keyed 1 1 (by decide +kernel) rfl (by decide +kernel))
  refine ⟨⟨w', ran, top, history⟩, ((steps 1 [.map 0, .ofNat 0]).1 _ zero).1 ⟨by decide +kernel, rfl⟩,
    by decide +kernel, ?_, ((steps 3 [.map 0, .ofNat 0]).1 _ zero).2.1
      (invoking_keyed 0 1 (by decide +kernel) rfl (by decide +kernel)), ?_,
    (steps 5 [.map 0]).2 (invoking_keyed 2 0 (by decide +kernel) rfl (by decide +kernel)),
    refusals unable 0 _ rest 0 (.list 0) id (.inl ⟨by decide +kernel, rfl⟩)⟩
  · obtain ⟨w', ran, -, history, -⟩ := stored
    exact ⟨w', ran, history⟩
  · obtain ⟨v, w', -, ran, -, history, -⟩ := removed
    exact ⟨w', ran, history⟩

end ScriptEngine
