import ScriptEngine.Proofs.Awaiting

/-!
# Several results are unpacked

Behind the right-hand side of a declaration of several variables the region is closed,
which counts the values that it left, and the count is compared with the number of
variables. In a scope the values are the variables from then on, slot by slot. Outside
of scopes each of them is taken from the stack, the last one first, and becomes a global.
-/
namespace ScriptEngine

open Run

/-- The world with the innermost frame at an offset, on this stack and with these marks. -/
def World.standing (w : World) (F : Array Frame) (f : Frame) (o : Nat) (stack : Array Value) (marks : List Nat) :
    World :=
  { w with
    machine.frames := F.push { f with ip := o }
    machine.stack := stack
    machine.marks := marks }

section

variable {w u : World} {fuel stop : Nat} {again : Reentry} {i : Instruction} {F : Array Frame} {f : Frame} {c : Chunk}
  {stack : Array Value} {marks : List Nat} {o : Nat}

/-! ## Single steps -/

theorem execute_next (ran : cycle (Run.again fuel) stop w = .ok .next u) :
    execute (fuel + 1) stop w = execute fuel stop u := by
  change EStateM.bind (cycle (Run.again fuel) stop) _ w = _
  unfold EStateM.bind
  rw [ran]

theorem execute_exit {how : Exit} (ran : cycle (Run.again fuel) stop w = .ok (.exit how) u) :
    execute (fuel + 1) stop w = .ok how u := by
  change EStateM.bind (cycle (Run.again fuel) stop) _ w = _
  unfold EStateM.bind
  rw [ran]
  rfl

theorem Run.Mismatches.execute {expected produced : Nat}
    (refused : Mismatches (cycle (Run.again fuel) stop w) expected produced) :
    Mismatches (execute (fuel + 1) stop w) expected produced := by
  obtain ⟨g, w', ran, error⟩ := refused
  refine ⟨g, w', ?_, error⟩
  change EStateM.bind (cycle (Run.again fuel) stop) _ w = _
  unfold EStateM.bind
  rw [ran]

variable (running : w.heap.code f.closure = c)
include running

theorem cycle_standing (code : c.code[o]? = some i) (ordinary : i.isWayOut = false) :
    cycle again stop (w.standing F f o stack marks) =
      located (do plain again i; return .next) (w.standing F f (o + 1) stack marks) := by
  have frames : (w.standing F f o stack marks).machine.frames = F.push { f with ip := o } := rfl
  have next : (w.standing F f o stack marks).next? = some i := by
    unfold World.next?
    rw [frames, Array.back?_push]
    change (w.heap.code f.closure).code[o]? = some i
    rw [running, code]
  rw [cycle_eq next, step_ordinary stop ordinary, World.fetched_of_push frames]
  unfold World.moved
  rw [frames, jump_push]
  rfl

/-- An instruction that only changes stack and marks. -/
theorem execute_standing {stack' : Array Value} {marks' : List Nat} (code : c.code[o]? = some i)
    (ordinary : i.isWayOut = false) (ran : plain (Run.again fuel) i (w.standing F f (o + 1) stack marks) =
      .ok () (w.standing F f (o + 1) stack' marks')) :
    execute (fuel + 1) stop (w.standing F f o stack marks) =
      execute fuel stop (w.standing F f (o + 1) stack' marks') := by
  apply execute_next
  rw [cycle_standing running code ordinary]
  unfold located
  rw [bind_eq, ran]
  rfl

omit running

/-! ## The check -/

theorem popCount_ofNat {k : Nat} (small : k < 2 ^ 53) :
    popCount (w.standing F f o (stack.push (.ofNat k)) marks) = .ok k (w.standing F f o stack marks) := by
  have popped : pop (w.standing F f o (stack.push (.ofNat k)) marks) = .ok (.ofNat k) (w.standing F f o stack marks) :=
    pop_eq rfl
  unfold popCount
  rw [bind_eq, popped]
  dsimp only [Value.ofNat]
  rw [Number.integer?_ofNat small]
  have least : min k maxCount = k := by
    unfold maxCount
    omega
  change EStateM.Result.ok (min k maxCount) _ = _
  rw [least]

include running

/-- Three words behind the right-hand side compare the number of values with the number of variables. -/
theorem execute_check (fuel stop : Nat) (F : Array Frame) (marks : List Nat) {m : UInt8} {b n : Nat}
    (finish : c.code[o]? = some .multiVarEnd)
    (expect : c.code[o + 1]? = some (.pushByte m)) (check : c.code[o + 2]? = some (.validate .multiReturnMatches))
    (size : stack.size = b + n) (small : n < 2 ^ 53) :
    (n = m.toNat → execute (fuel + 3) stop (w.standing F f o stack (b :: marks)) =
      execute fuel stop (w.standing F f (o + 3) stack marks)) ∧
    (n ≠ m.toNat → Mismatches (execute (fuel + 3) stop (w.standing F f o stack (b :: marks))) m.toNat n) := by
  have finished : execute (fuel + 3) stop (w.standing F f o stack (b :: marks)) =
      execute (fuel + 2) stop (w.standing F f (o + 1) (stack.push (.ofNat n)) marks) := by
    refine execute_standing running finish rfl ?_
    rw [show n = stack.size - b by omega]
    rfl
  have pushed : execute (fuel + 2) stop (w.standing F f (o + 1) (stack.push (.ofNat n)) marks) =
      execute (fuel + 1) stop (w.standing F f (o + 2) ((stack.push (.ofNat n)).push (.ofNat m.toNat)) marks) :=
    execute_standing running expect rfl rfl
  have counted (again : Reentry) : plain again (.validate .multiReturnMatches)
      (w.standing F f (o + 3) ((stack.push (.ofNat n)).push (.ofNat m.toNat)) marks) =
      (if m.toNat ≠ n then fail (.multiReturnMismatch m.toNat n) else pure () : Run Unit)
        (w.standing F f (o + 3) stack marks) := by
    change (popCount >>= fun expected => popCount >>= fun produced => _ : Run Unit) _ = _
    rw [bind_eq, popCount_ofNat (by have := m.toNat_lt; omega)]
    dsimp only
    rw [bind_eq, popCount_ofNat small]
  rw [finished, pushed]
  refine ⟨fun same => execute_standing running check rfl ?_, fun other => ?_⟩
  · rw [counted, if_neg (by simp [same])]
    rfl
  · apply Mismatches.execute
    rw [cycle_standing running check rfl]
    unfold located
    rw [bind_eq, counted, if_pos (Ne.symm other)]
    exact ⟨_, _, rfl, rfl⟩

/-! ## Globals -/

omit running in
/-- The world in which so many globals have been defined, one after the other. -/
def World.defining (w : World) (bindings : List (String × Value)) : World :=
  { w with machine.globals := w.machine.globals.insertAll bindings }

/-- Words that define globals take a value each. -/
theorem execute_define {bindings : List (String × Value)} (words : ∀ j x v, bindings[j]? = some (x, v) →
      ∃ k, c.code[o + j]? = some (.defineGlobal k) ∧ c.name? k = some x) :
    execute (fuel + bindings.length) stop (w.standing F f o (stack ++ (bindings.map (·.2)).reverse) marks) =
      execute fuel stop ((w.defining bindings).standing F f (o + bindings.length) stack marks) := by
  induction bindings generalizing w o with
  | nil =>
    rw [List.map_nil, List.reverse_nil, show stack ++ ([] : List Value) = stack by simp]
    rfl
  | cons e bindings ih =>
    obtain ⟨x, v⟩ := e
    obtain ⟨k, code, name⟩ := words 0 x v rfl
    rw [Nat.add_zero] at code
    let stack₁ := stack ++ (bindings.map (·.2)).reverse
    have top : stack ++ (((x, v) :: bindings).map (·.2)).reverse = stack₁.push v := by
      apply Array.toList_inj.mp
      simp [stack₁]
    have first : execute (fuel + bindings.length + 1) stop (w.standing F f o (stack₁.push v) marks) =
        execute (fuel + bindings.length) stop ((w.defining [(x, v)]).standing F f (o + 1) stack₁ marks) := by
      apply execute_next
      rw [cycle_standing running code rfl]
      have named : (w.standing F f (o + 1) (stack₁.push v) marks).nameAt k = some x := by
        unfold World.nameAt
        have frames : (w.standing F f (o + 1) (stack₁.push v) marks).machine.frames = F.push { f with ip := o + 1 } :=
          rfl
        rw [frames, Array.back?_push]
        change (w.heap.code f.closure).name? k = some x
        rw [running, name]
      have defined : plain (Run.again (fuel + bindings.length)) (.defineGlobal k)
          (w.standing F f (o + 1) (stack₁.push v) marks) = .ok () ((w.defining [(x, v)]).standing F f (o + 1) stack₁ marks) := by
        change (Run.name k >>= fun name => pop >>= fun v => _ : Run Unit) _ = _
        rw [bind_eq, name_eq named]
        dsimp only
        rw [bind_eq, pop_eq rfl]
        rfl
      unfold located
      rw [bind_eq, defined]
      rfl
    have rest := ih (w := w.defining [(x, v)]) (o := o + 1) running fun j y u found => by
      obtain ⟨k, code, name⟩ := words (j + 1) y u found
      exact ⟨k, by rwa [Nat.add_assoc, Nat.add_comm 1 j], name⟩
    rw [top, List.length_cons, ← Nat.add_assoc, first, rest]
    congr 2
    omega

omit running in
/-- Of as many names as values each has its value from then on, if the names are distinct. -/
theorem World.get?_defining {names : List String} {vs : List Value} (same : vs.length = names.length)
    (distinct : names.Nodup) : (∀ (j : Nat) x, names[j]? = some x →
      (w.defining (names.zip vs).reverse).machine.globals.get? x = vs[j]?) ∧
    ∀ x ∉ names, (w.defining (names.zip vs).reverse).machine.globals.get? x = w.machine.globals.get? x := by
  have keys : Entries.keys (names.zip vs).reverse = names.reverse := by
    unfold Entries.keys
    rw [List.map_reverse, List.map_fst_zip (Nat.le_of_eq same.symm)]
  have nodup : (Entries.keys (names.zip vs).reverse).Nodup := keys ▸ List.nodup_reverse.mpr distinct
  have found (x : String) : (w.defining (names.zip vs).reverse).machine.globals.get? x = _ :=
    w.machine.globals.get?_insertAll nodup x
  refine ⟨fun j x at_ => ?_, fun x other => ?_⟩
  · obtain ⟨inside, rfl⟩ := List.getElem?_eq_some_iff.mp at_
    have inside' : j < vs.length := same ▸ inside
    have mem : (names[j], vs[j]) ∈ (names.zip vs).reverse := by
      rw [List.mem_reverse, List.mem_iff_getElem?]
      exact ⟨j, by rw [List.getElem?_zip_eq_some]; simp [inside, inside']⟩
    rw [found, (Entries.find?_eq_some nodup).mpr mem, List.getElem?_eq_getElem inside']
    rfl
  · rw [found, Entries.find?_eq_none (by rw [keys]; simpa using other)]
    rfl

end

end ScriptEngine
