import ScriptEngine.Proofs.Distributing
import ScriptEngine.Proofs.Stopping
import ScriptEngine.Proofs.Unpacking

/-!
# Results are delivered

A frame returns as many values as its `return` names. Where its caller declares several
variables, and the region for their values begins at the callee, the call leaves all of
them, and the declaration accepts them if there is one for each variable. At any other
slot the call leaves one value. A call of the host answers with all of them.

Which of these it is, the machine tells by its last mark. So what is shown first is
that the mark is at the callee if and only if the code of the caller says so, whatever
the calls in between have done.
-/
namespace ScriptEngine

open Grammar Assembler Run

/-! ## What becomes of results -/

/-- The innermost frame of `u` is the only one above those of `w`, and it returns so many values. -/
structure World.Returning (w u : World) (count : UInt8) : Prop where
  next : u.next? = some (.ret count)
  single : u.machine.frames.size = w.machine.frames.size + 1
  kept : ∀ f, u.machine.frames.back? = some f → f.discards = false

/-- However many steps there are, execution comes from one world to the other. -/
def World.Continues (stop : Nat) (u u' : World) : Prop :=
  ∃ k, ∀ fuel, execute (fuel + k) stop u = execute fuel stop u'

/-- However many steps there are, execution fails after a few since another number of results was expected. -/
def World.Refuses (stop : Nat) (u : World) (expected produced : Nat) : Prop :=
  ∃ k, ∀ fuel, Mismatches (execute (fuel + k) stop u) expected produced

/-- The caller stands behind the call that comes next in `w`, and the values lie where the callee was. -/
structure World.Receives (w : World) (b : Nat) (vs : List Value) (u' : World) : Prop where
  frames : u'.machine.frames = w.fetched.machine.frames
  marks : u'.machine.marks = w.machine.marks
  stack : ∃ below : Array Value, below.size = b ∧ u'.machine.stack = below ++ vs

/-- Behind the instruction that comes next the values of a declaration of several variables are counted. -/
def World.Unpacks (w : World) (names : List String) (first : Option Nat) : Prop :=
  ∃ f s, w.machine.frames.back? = some f ∧ w.heap.scripts[(w.heap.closure f.closure).chunk.script]? = some s ∧
    s.Unpacks (w.heap.code f.closure) (f.ip + 1) names first

/-- The caller stands behind the declaration of several variables, which have the values. The region for the values is
no more. -/
structure World.Distributes (w : World) (b : Nat) (names : List String) (first : Option Nat) (vs : List Value)
    (u' : World) : Prop where
  frames : ∃ f, w.machine.frames.back? = some f ∧
    u'.machine.frames = jump (f.ip + 4 + if first = none then names.length else 0) w.machine.frames
  marks : w.machine.marks = b :: u'.machine.marks
  size : u'.machine.stack.size = b + if first = none then 0 else names.length
  globals : first = none → names.Nodup → ∀ (j : Nat) x, names[j]? = some x → u'.machine.globals.get? x = vs[j]?
  locals : ∀ k, first = some k → ∃ f, u'.machine.frames.back? = some f ∧
    ∀ j < names.length, u'.machine.stack[f.base + (k + j)]? = vs[j]?

/-- A call of a closure by the host has pushed its frame and is in progress. -/
inductive World.Hosts (w : World) (ref : Nat) (args : List Value) : World → Prop
  | begun {fuel : Nat} {u : World}
      (ran : callTop (Run.again fuel) args.length (Pausing.begun (.closure ref) args w) = .ok () u) : Hosts w ref args u
  | goes {fuel stop : Nat} {u v : World} (before : Hosts w ref args u)
      (ran : cycle (Run.again fuel) stop u = .ok .next v) (above : w.machine.frames.size < v.machine.frames.size) :
      Hosts w ref args v

section

variable {w u v : World} {b stop ref : Nat} {count : UInt8} {names : List String} {first : Option Nat}
  {args : List Value}

/-! ## Behind a call -/

theorem World.Returning.awaited (returning : w.Returning u count) (stands : w.Stands) (slot : w.calleeSlot? = some b)
    (underway : w.Underway u) :
    u.Awaits w.heap w.fetched.machine.frames b w.machine.marks ∧
      u.machine.frames.size = w.fetched.machine.frames.size + 1 :=
  ⟨stands.awaits slot underway, by rw [w.size_fetched, returning.single]⟩

theorem size_shrink {stack : Array Value} {n : Nat} (room : b + n ≤ stack.size) : (stack.shrink b).size = b := by
  rw [Array.size_shrink]
  omega

/-- What a call leaves anywhere else: one value, or nothing but a failure. -/
theorem World.Stands.receives (stands : w.Stands) (slot : w.calleeSlot? = some b) (underway : w.Underway u)
    (returning : w.Returning u count) (above : stop < w.machine.frames.size) (apart : ¬w.Opens b) :
    (count.toNat = 1 → ∃ u', u.Continues stop u' ∧ w.Receives b (u.results count.toNat) u') ∧
      (count.toNat ≠ 1 → u.Refuses stop 1 count.toNat) := by
  obtain ⟨awaits, single⟩ := returning.awaited stands slot underway
  obtain ⟨marks, room, accepts, refuses⟩ := awaits.returns returning.next single returning.kept
  have unmarked : w.machine.marks.head? ≠ some b := fun head => apart ((stands.marked_iff slot).mp head)
  refine ⟨fun one => ?_, fun other => ⟨1, fun fuel => ?_⟩⟩
  · obtain ⟨h, kept, -, ran⟩ := accepts (.inl one)
    refine ⟨u.left h kept w.fetched.machine.frames b (u.results count.toNat), ⟨1, fun fuel => execute_next ?_⟩, rfl,
      marks, u.machine.stack.shrink b, size_shrink room, rfl⟩
    rw [ran, if_neg (by rw [w.size_fetched]; exact Nat.not_le_of_lt above)]
  · exact (refuses (fun fits => fits.elim other unmarked) _ _).execute

theorem World.left_standing {h : Heap} {kept M : List Nat} {F : Array Frame} {f : Frame} {o : Nat} {vs : List Value}
    (marks : u.machine.marks = M) : u.left h kept (F.push { f with ip := o }) b vs =
      (u.left h kept #[] b []).standing F f o (u.machine.stack.shrink b ++ vs) M := by
  subst marks
  rfl

/-- Two layouts of a chunk tell the same start of a region behind a call. -/
theorem World.Ready.start_eq {i : Instruction} {F : Array Frame} {f : Frame} {s : Script} {c : Chunk} {N N' : Notes}
    {ρ : List Held} {k k' : Nat} (ready : w.Ready b i F f s c N ρ (.opened k)) (finished : Finished s.chunks c N')
    (region : (N'.point (f.ip + 1)).region = .opened k') : k' = k := by
  have stand := ready.stand
  have calls := ready.calls
  have reachable := stand.reachable.next ready.code (by cases i <;> first | rfl | cases calls)
  have agrees := (stand.finished.agrees finished stand.small reachable).2
  have same : Region.opened k' = .opened k := region.symm.trans (agrees.region.trans ready.next.1.symm)
  injection same

/-- Values with names, the last one first. -/
theorem bindings_at {vs : List Value} (same : vs.length = names.length) {j : Nat} {x : String} {v : Value}
    (at_ : (names.zip vs).reverse[j]? = some (x, v)) : names.reverse[j]? = some x := by
  rw [List.zip_eq_zipWith, List.reverse_zipWith same.symm, ← List.zip_eq_zipWith] at at_
  exact (List.getElem?_zip_eq_some.mp at_).1

/-- Words that define globals give each variable its value. -/
theorem Script.Unpacks.defines {s : Script} {c : Chunk} {o : Nat} {F : Array Frame} {f : Frame} {below : Array Value}
    {vs : List Value} {M : List Nat} (unpacks : s.Unpacks c o names none) (running : w.heap.code f.closure = c)
    (same : vs.length = names.length) (fuel : Nat) :
    execute (fuel + names.length) stop (w.standing F f (o + 3) (below ++ vs) M) =
      execute fuel stop ((w.defining (names.zip vs).reverse).standing F f (o + 3 + names.length) below M) := by
  let bindings := (names.zip vs).reverse
  have defined : execute (fuel + bindings.length) stop
      (w.standing F f (o + 3) (below ++ (bindings.map (·.2)).reverse) M) =
        execute fuel stop ((w.defining bindings).standing F f (o + 3 + bindings.length) below M) :=
    execute_define running fun j x v at_ => unpacks.words rfl j x (bindings_at same at_)
  have values : (bindings.map (·.2)).reverse = vs := by
    rw [List.map_reverse, List.reverse_reverse, List.map_snd_zip (Nat.le_of_eq same)]
  have many : bindings.length = names.length := by simp [bindings, same]
  rwa [values, many] at defined

/-- The results come to lie at the start of the region, and the caller goes on behind the call. -/
theorem World.Stands.lands (stands : w.Stands) (slot : w.calleeSlot? = some b) (underway : w.Underway u)
    (returning : w.Returning u count) (above : stop < w.machine.frames.size) (opens : w.Opens b) :
    ∃ i F f s c N ρ k M, w.Ready b i F f s c N ρ (.opened k) ∧ b = f.base + k ∧ w.machine.marks = b :: M ∧
      ∃ (v : World) (below : Array Value), v.heap.code f.closure = c ∧ below.size = b ∧
        ∀ fuel, execute (fuel + 1) stop u =
          execute fuel stop (v.standing F f (f.ip + 1) (below ++ u.results count.toNat) (b :: M)) := by
  obtain ⟨awaits, single⟩ := returning.awaited stands slot underway
  obtain ⟨marks, room, accepts, -⟩ := awaits.returns returning.next single returning.kept
  have head := (stands.marked_iff slot).mpr opens
  obtain ⟨h, kept, wider, ran⟩ := accepts (.inr head)
  obtain ⟨i, F, f, s, c, N, ρ, r, ready⟩ := stands.ready slot
  obtain ⟨k, rfl⟩ := ready.marked head
  obtain ⟨M, marked⟩ := List.head?_eq_some_iff.mp head
  have start : b = f.base + k := Option.some.inj (head.symm.trans (ready.opened k rfl))
  have running : h.code f.closure = c := (ready.stand.grows (awaits.grows.trans wider.grows)).code
  refine ⟨i, F, f, s, c, N, ρ, k, M, ready, start, marked, u.left h kept #[] b [], u.machine.stack.shrink b, running,
    size_shrink room, fun fuel => ?_⟩
  rw [← World.left_standing (marks.trans marked), ← w.frames_fetched ready.frames]
  apply execute_next
  rw [ran, if_neg (by rw [w.size_fetched]; exact Nat.not_le_of_lt above)]

/-- What a call leaves where several variables are declared: a value for each of them, or a failure. -/
theorem World.Stands.distributes (stands : w.Stands) (slot : w.calleeSlot? = some b) (underway : w.Underway u)
    (returning : w.Returning u count) (above : stop < w.machine.frames.size) (opens : w.Opens b)
    (unpacks : w.Unpacks names first) :
    (count.toNat = names.length → ∃ u', u.Continues stop u' ∧
        w.Distributes b names first (u.results count.toNat) u') ∧
      (count.toNat ≠ names.length → u.Refuses stop names.length count.toNat) := by
  obtain ⟨i, F, f, s, c, N, ρ, k, M, ready, rfl, marked, v, below, running, size, landed⟩ :=
    stands.lands slot underway returning above opens
  obtain ⟨awaits, single⟩ := returning.awaited stands slot underway
  obtain ⟨-, room, -⟩ := awaits.returns returning.next single returning.kept
  have top : w.machine.frames.back? = some f := by rw [ready.frames, Array.back?_push]
  obtain ⟨f', s', top', script, unpacks⟩ := unpacks
  cases top.symm.trans top'
  cases ready.stand.script.symm.trans script
  rw [ready.stand.code] at unpacks
  let vs := u.results count.toNat
  have length : vs.length = count.toNat := u.length_results (by omega)
  have toNat : (UInt8.ofNat names.length).toNat = names.length := by
    rw [UInt8.toNat_ofNat', Nat.mod_eq_of_lt unpacks.few]
  have total : (below ++ vs).size = f.base + k + count.toNat := by rw [size_appendList, size, length]
  have checked (fuel : Nat) := execute_check running fuel stop F M unpacks.finish unpacks.expect unpacks.check total
    (by have := count.toNat_lt; omega)
  rw [toNat] at checked
  refine ⟨fun fits => ?_, fun misfits => ⟨4, fun fuel => ?_⟩⟩
  · have length : vs.length = names.length := length.trans fits
    cases first with
    | none =>
      let u' := (v.defining (names.zip vs).reverse).standing F f (f.ip + 1 + 3 + names.length) below M
      refine ⟨u', ⟨names.length + 4, fun fuel => ?_⟩, ⟨f, top, ?_⟩, marked, size, fun _ distinct j x at_ => ?_, ?_⟩
      · rw [show fuel + (names.length + 4) = fuel + names.length + 3 + 1 by omega, landed, (checked _).1 fits]
        exact unpacks.defines running length fuel
      · rw [ready.frames, jump_push]
        rfl
      · exact (World.get?_defining length distinct).1 j x at_
      · rintro _ ⟨⟩
    | some k' =>
      obtain ⟨N', finished, region⟩ := unpacks.slots k' rfl
      obtain rfl := ready.start_eq finished region
      let u' := v.standing F f (f.ip + 1 + 3) (below ++ vs) M
      refine ⟨u', ⟨4, fun fuel => (landed _).trans ((checked fuel).1 fits)⟩, ⟨f, top, ?_⟩, marked, ?_, by rintro ⟨⟩, ?_⟩
      · rw [ready.frames, jump_push]
        rfl
      · exact total.trans (congrArg _ fits)
      · rintro k ⟨⟩
        refine ⟨{ f with ip := f.ip + 1 + 3 }, Array.back?_push, fun j less => ?_⟩
        change (below ++ vs)[f.base + (k' + j)]? = _
        rw [← Array.getElem?_toList, Array.toList_appendList, List.getElem?_append_right (by simp [size]),
          Array.length_toList, size]
        congr 1
        omega
  · rw [show fuel + 4 = fuel + 3 + 1 from rfl, landed]
    exact (checked fuel).2 misfits

/-! ## Calls of the host -/

theorem callTop_closure (again : Reentry) :
    callTop again args.length (Pausing.begun (.closure ref) args w) =
      callClosure ref args.length w.machine.stack.size (Pausing.begun (.closure ref) args w) := by
  have there : (Pausing.begun (.closure ref) args w).machine.stack[w.machine.stack.size]? = some (.closure ref) := by
    change (w.machine.stack.push (.closure ref) ++ args)[_]? = _
    rw [← Array.getElem?_toList]
    simp
  have found : slot w.machine.stack.size (Pausing.begun (.closure ref) args w) =
      .ok (.closure ref) (Pausing.begun (.closure ref) args w) := by
    unfold slot
    rw [there]
  unfold callTop
  rw [bind_eq, calleeSlot_eq size_begun]
  dsimp only
  rw [bind_eq, found]

theorem callClosure_ok {argc base : Nat} (ran : callClosure ref argc base w = .ok () u) :
    u = { w with machine.frames := w.machine.frames.push { closure := ref, base } } := by
  change (if argc = (w.heap.code ref).arity then pushFrame _ else fail _ : Run Unit) w = _ at ran
  split at ran
  · change (if w.machine.frames.size < w.machine.settings.maxFrames then modifyMachine _ else fail _ : Run Unit) w = _
      at ran
    split at ran
    · cases ran
      rfl
    · cases ran
  · cases ran

/-- More steps do not change what an instruction does in a host call. -/
theorem cycle_more {fuel fuel' : Nat} {control : Control} (le : fuel ≤ fuel') (calling : 0 < u.machine.hostCalls)
    (above : stop < u.machine.frames.size) (ran : cycle (Run.again fuel) stop u = .ok control v) :
    cycle (Run.again fuel') stop u = .ok control v ∧ 0 < v.machine.hostCalls := by
  have advances := Pausing.advances_calling (follows_more le) calling above
  rw [Pausing.Advances, ran] at advances
  obtain ⟨same, within, -⟩ := advances trivial
  exact ⟨same, within.hostCalls.symm ▸ calling⟩

theorem World.Awaits.above {h : Heap} {L : Array Frame} {M : List Nat} (awaits : u.Awaits h L b M) :
    L.size < u.machine.frames.size := by
  obtain ⟨f, fs, frames, -⟩ := awaits.upright
  rw [frames, size_piled, List.length_cons]
  omega

/-- The loop of a call by the host comes to `u`, if there are steps enough. -/
theorem World.Sound.hosts (sound : w.Sound) (known : ref < w.closures) (each : ∀ v ∈ args, v.Within w.closures)
    (hosts : w.Hosts ref args u) :
    u.Awaits w.heap w.machine.frames w.machine.stack.size (w.machine.stack.size :: w.machine.marks) ∧
      0 < u.machine.hostCalls ∧ ∃ u₀ N k, callClosure ref args.length w.machine.stack.size
        (Pausing.begun (.closure ref) args w) = .ok () u₀ ∧ w.machine.frames.size < u₀.machine.frames.size ∧
          ∀ fuel ≥ N, execute (fuel + k) w.machine.frames.size u₀ = execute fuel w.machine.frames.size u := by
  induction hosts with
  | @begun fuel u ran =>
    rw [callTop_closure] at ran
    have within : (Value.closure ref).Within w.closures := fun r same => by cases same; exact known
    have at_ := sound.begun within each
    obtain ⟨-, out⟩ := sure_callClosure at_ known size_begun (low_cons _ _)
    rw [ran] at out
    obtain ⟨⟨m, gs, -, called, tower, seated⟩, -⟩ := out
    have pushed := callClosure_ok ran
    have grows : w.heap.Grows u.heap := called.wider.grows
    have one : gs.length = 1 := by
      have frames := congrArg Array.size called.frames
      rw [pushed, size_piled] at frames
      change (w.machine.frames.push _).size = _ at frames
      rw [Array.size_push] at frames
      omega
    obtain ⟨f, rfl⟩ := List.length_eq_one_iff.mp one
    refine ⟨⟨called.sound, grows, f, [], called.frames, called.marks.symm ▸ tower.upright, seated⟩, ?_, u, 0, 0, ran,
      ?_, fun _ _ => rfl⟩
    · rw [pushed]
      exact Nat.succ_pos _
    · rw [called.frames, size_piled]
      exact Nat.lt_succ_self _
  | @goes fuel stop u v before ran above ih =>
    obtain ⟨awaits, calling, u₀, N, k, called, more, comes⟩ := ih
    have ran' : cycle (Run.again fuel) w.machine.frames.size u = .ok .next v :=
      cycle_stop ran (fun _ => above) (by rintro ⟨⟩)
    refine ⟨awaits.goes ran (by rintro ⟨⟩) fun _ => above, (cycle_more (Nat.le_refl fuel) calling awaits.above ran').2,
      u₀, max N fuel, k + 1, called, more, fun fuel' le => ?_⟩
    rw [← Nat.add_assoc, Nat.add_right_comm, comes _ (by omega)]
    exact execute_next (cycle_more (by omega) calling awaits.above ran').1

theorem extract_shrink_append {stack : Array Value} (below : (stack.shrink b).size = b) (vs : List Value) :
    ((stack.shrink b ++ vs).extract b).toList = vs := by
  have length : (stack.shrink b).toList.length = b := Array.length_toList.trans below
  rw [Array.toList_extract, Array.toList_appendList, List.extract_eq_take_drop, List.drop_append, length, Nat.sub_self,
    List.drop_of_length_le (Nat.le_of_eq length), List.nil_append, List.drop_zero]
  exact List.take_of_length_le (by rw [size_appendList, below]; omega)

/-- A call by the host answers with all results, in the order in which they were pushed. -/
theorem World.Sound.answers (sound : w.Sound) (known : ref < w.closures) (each : ∀ v ∈ args, v.Within w.closures)
    (hosts : w.Hosts ref args u) (returning : w.Returning u count) :
    ∃ N, ∀ fuel ≥ N, ∃ w', Run.call fuel (.closure ref) args w = .ok (u.results count.toNat) w' ∧
      w'.machine.frames = w.machine.frames ∧ w'.machine.marks = w.machine.marks ∧
        w'.machine.stack.size = w.machine.stack.size := by
  obtain ⟨awaits, -, u₀, N, k, called, more, comes⟩ := sound.hosts known each hosts
  obtain ⟨marks, room, accepts, -⟩ := awaits.returns returning.next returning.single returning.kept
  obtain ⟨h, kept, -, ran⟩ := accepts (.inr rfl)
  have below := size_shrink room
  refine ⟨N + k + 2, fun fuel le => ?_⟩
  obtain ⟨m, le, rfl⟩ : ∃ m, N ≤ m ∧ fuel = m + 1 + k + 1 := ⟨fuel - k - 2, by omega, by omega⟩
  have loop : execute (m + 1 + k) w.machine.frames.size u₀ = .ok .returned
      (u.left h kept w.machine.frames w.machine.stack.size (u.results count.toNat)) :=
    (comes _ (by omega)).trans (execute_exit (by rw [ran, if_pos (Nat.le_refl _)]))
  have body : (callTop (Run.again (m + 1 + k)) args.length >>= fun _ =>
      untilReturned (execute (m + 1 + k) w.machine.frames.size) w.machine.frames.size)
        (Pausing.begun (.closure ref) args w) = .ok ()
          (u.left h kept w.machine.frames w.machine.stack.size (u.results count.toNat)) := by
    rw [bind_eq, callTop_closure, called]
    dsimp only
    rw [Pausing.untilReturned_eq, if_pos more, loop]
  let v := u.left h kept w.machine.frames w.machine.stack.size (u.results count.toNat)
  have answered : Run.call (m + 1 + k + 1) (.closure ref) args w =
      Pausing.conclude w.machine.stack.size w.machine.frames.size w.machine.marks.length (.ok ()) v := by
    change hostCall _ _ _ w = _
    rw [Pausing.hostCall_eq]
    unfold EStateM.bind attempt
    rw [show _ = EStateM.Result.ok () v from body]
  have kept : v.machine.marks.drop (v.machine.marks.length - w.machine.marks.length) = w.machine.marks := by
    change u.machine.marks.drop (u.machine.marks.length - w.machine.marks.length) = _
    rw [marks, List.length_cons, Nat.add_sub_cancel_left]
    rfl
  have values := extract_shrink_append below (u.results count.toNat)
  let b := w.machine.stack.size
  refine ⟨{ w.ended v with machine.stack := (w.ended v).machine.stack.shrink b }, answered.trans ?_, rfl, kept, ?_⟩
  · exact congrArg (fun vs => EStateM.Result.ok vs _) values
  · change ((u.machine.stack.shrink b ++ u.results count.toNat).shrink b).size = b
    rw [Array.size_shrink, size_appendList, below]
    omega

/-- **Results are delivered.** A declaration of several variables with a call as its value is compiled to that call and
to words that unpack what it leaves: they count the values, compare their number with that of the variables, and
give each variable its slot or its global. Where execution stands at a call, and the frame that the call has pushed
returns so many values, the last mark is at the callee if and only if a region for several results begins there in the
code of the caller. If it does, and the values are unpacked behind the call, then as many values as variables are
accepted, and each variable has its value, and any other number is refused. If it does not, the call leaves one value in
place of the callee, and any other number is refused. A call by the host answers with all values in their order, and
leaves marks and frames as they were. A run of compiled scripts, whether begun or resumed, stands wherever it comes. -/
theorem results_delivered (fuel : Nat) :
    (∀ n, Writing (multiVariables (parseGoal n)) fun _ ds => ∃ names value, names.length < 256 ∧ Woven .value value ∧
      ds = .plain .multiVarStart :: (value ++ Directive.unpacking names)) ∧
    (∀ tokens scriptName s pre t ts post names argc, Script.Made tokens scriptName s →
      (Program.ofTokens tokens).steps.toList = pre ++ t :: ts ++ post → t.directive = .plain (.call argc) →
      ts.map Step.directive = Directive.unpacking names → names.length < 256 →
      ∃ a a' c, performAll pre (start scriptName) = .ok () a ∧
        performAll (pre ++ t :: ts) (start scriptName) = .ok () a' ∧
        c.code[a.body.chunk.code.size]? = some (.call argc) ∧
        s.Unpacks c (a.body.chunk.code.size + 1) names (if a.body.depth = 0 then none else some a.body.locals.length) ∧
        (0 < a.body.depth → names.Nodup → ∀ (j : Nat) x, names[j]? = some x →
          ∃ slot, slotOf x a'.body.locals = .ok (some slot) ∧ slot.toNat = a.body.locals.length + j)) ∧
    (∀ (w u : World) (b : Nat) (count : UInt8) (stop : Nat), w.Stands → w.calleeSlot? = some b →
      w.Underway u → w.Returning u count → stop < w.machine.frames.size →
        (w.machine.marks.head? = some b ↔ w.Opens b) ∧
        (∀ names first, w.Opens b → w.Unpacks names first →
          (count.toNat = names.length → ∃ u', u.Continues stop u' ∧
            w.Distributes b names first (u.results count.toNat) u') ∧
          (count.toNat ≠ names.length → u.Refuses stop names.length count.toNat)) ∧
        (¬w.Opens b →
          (count.toNat = 1 → ∃ u', u.Continues stop u' ∧ w.Receives b (u.results count.toNat) u') ∧
          (count.toNat ≠ 1 → u.Refuses stop 1 count.toNat))) ∧
    (∀ (w u : World) (ref : Nat) (args : List Value) (count : UInt8), w.Sound → ref < w.closures →
      (∀ v ∈ args, v.Within w.closures) → w.Hosts ref args u → w.Returning u count →
        ∃ N, ∀ steps ≥ N, ∃ w', Run.call steps (.closure ref) args w = .ok (u.results count.toNat) w' ∧
          w'.machine.frames = w.machine.frames ∧ w'.machine.marks = w.machine.marks ∧
            w'.machine.stack.size = w.machine.stack.size) ∧
    (∀ w s, w.Idles → s.Compiled →
      (Watch.only fun w => w.Fits ∧ w.Stands).interpret fuel s w = (Watch.only World.Fits).interpret fuel s w ∧
        Ended ((Watch.only World.Fits).interpret fuel s w)) ∧
    ∀ w s, w.Idles → s.Stands w.heap →
      (Watch.only fun w => w.Fits ∧ w.Stands).resume fuel s w = (Watch.only World.Fits).resume fuel s w ∧
        Ended ((Watch.only World.Fits).resume fuel s w) := by
  refine ⟨fun n => writing_multiVariables (weaves_parseGoal n), ?_, ?_, ?_, runs_stand fuel⟩
  · intro tokens scriptName s pre t ts post names argc made split calls spelled few
    exact made.unpacks_call split calls spelled few
  · intro w u b count stop stands slot underway returning above
    exact ⟨stands.marked_iff slot,
      fun names first opens unpacks => stands.distributes slot underway returning above opens unpacks,
      fun apart => stands.receives slot underway returning above apart⟩
  · intro w u ref args count sound known each hosts returning
    exact sound.answers known each hosts returning

end

/-! ## Two values for two variables -/

/-- A function that returns two values, two variables for them, and a call that passes them on as one argument. -/
def Script.pairTokens : List Token :=
  [(.funWord, "fun"), (.identifier, "f"), (.openParen, "("), (.closeParen, ")"), (.openBrace, "\x7b"),
    (.returnWord, "return"), (.openParen, "("), (.trueWord, "true"), (.comma, ","), (.nullWord, "null"),
    (.closeParen, ")"), (.semicolon, ";"), (.closeBrace, "\x7d"), (.varWord, "var"), (.openParen, "("),
    (.identifier, "a"), (.comma, ","), (.identifier, "b"), (.closeParen, ")"), (.equal, "="), (.identifier, "f"),
    (.openParen, "("), (.closeParen, ")"), (.semicolon, ";"), (.varWord, "var"), (.openParen, "("),
    (.identifier, "c"), (.comma, ","), (.identifier, "d"), (.closeParen, ")"), (.equal, "="), (.identifier, "f"),
    (.openParen, "("), (.identifier, "f"), (.openParen, "("), (.closeParen, ")"), (.closeParen, ")"),
    (.semicolon, ";")].map fun t => ⟨t.1, t.2, .none, 1, 1, 0⟩

/-- What its top level is compiled to. -/
def Script.pairTop : Chunk where
  name := "main"
  source := "main"
  chain := "main"
  kind := .script
  code := #[.closure 1, .defineGlobal 0, .multiVarStart, .getGlobal 0, .call 0, .multiVarEnd, .pushByte 2,
    .validate .multiReturnMatches, .defineGlobal 3, .defineGlobal 2, .multiVarStart, .getGlobal 0, .getGlobal 0, .call 0,
    .call 1, .multiVarEnd, .pushByte 2, .validate .multiReturnMatches, .defineGlobal 5, .defineGlobal 4, .null, .ret 1]
  constants := #[.string "f", .chunk (.listed 0), .string "a", .string "b", .string "c", .string "d"]
  lines := #[⟨1, 22⟩]

def Script.pair : Script where
  hash := "511a2d77e6400eab6467e684a989522c7f74f0effe0938c1767f537a9ecdb510"
  top := .listed 1
  diagnostics := #[]
  chunks := #[
    { name := "f", source := "main", chain := "main.f", kind := .function
      code := #[.pushBool true, .null, .ret 2, .null, .ret 1], lines := #[⟨1, 5⟩] },
    pairTop]

theorem Script.made_pair : Made pairTokens "main" pair := made_of_parts pairTokens (by decide +kernel)

theorem Script.split_pair : ∃ pre t ts post, (Program.ofTokens pairTokens).steps.toList = pre ++ t :: ts ++ post ∧
    t.directive = .plain (.call 0) ∧ ts.map Step.directive = Directive.unpacking ["a", "b"] := by
  have written : (((Program.ofTokens pairTokens).steps.toList.drop 11).take 5).map Step.directive =
      .plain (.call 0) :: Directive.unpacking ["a", "b"] := by decide +kernel
  generalize (Program.ofTokens pairTokens).steps.toList = steps at written ⊢
  obtain ⟨t, ts, behind, calls, spelled⟩ := List.map_eq_cons_iff.mp written
  refine ⟨steps.take 11, t, ts, (steps.drop 11).drop 5, ?_, calls, spelled⟩
  rw [← behind, List.append_assoc, List.take_append_drop, List.take_append_drop]

theorem Script.unpacks_pair : pair.Unpacks pairTop 5 ["a", "b"] none where
  mem := Array.mem_of_getElem? (i := 1) rfl
  few := by decide
  finish := rfl
  expect := rfl
  check := rfl
  slots := by rintro _ ⟨⟩
  words _ j x at_ := by
    rcases j with _ | _ | j <;> cases at_
    · exact ⟨3, rfl, rfl⟩
    · exact ⟨2, rfl, rfl⟩

/-- The machine where that script begins. -/
def pairing : World :=
  { Pausing.loaded .pair {} with machine.frames := #[Pausing.outermost .pair {}] }

/-- The world after so many instructions, if there are more frames than `depth` all the while. -/
def World.cycles (depth : Nat) : Nat → World → Option World
  | 0, w => some w
  | n + 1, w =>
    match cycle (Run.again 0) 0 w with
    | .ok .next v => if depth < v.machine.frames.size then v.cycles depth n else none
    | _ => none

section

variable {w u v : World} {depth n : Nat}

theorem World.cycles_succ (ran : w.cycles depth (n + 1) = some v) :
    ∃ u, cycle (Run.again 0) 0 w = .ok .next u ∧ depth < u.machine.frames.size ∧ u.cycles depth n = some v := by
  unfold cycles at ran
  split at ran
  · next u stepped =>
    split at ran
    · next above => exact ⟨u, stepped, above, ran⟩
    · cases ran
  · cases ran

theorem World.Awaits.cycles {h : Heap} {L : Array Frame} {b : Nat} {M : List Nat} (awaits : u.Awaits h L b M)
    (ran : u.cycles L.size n = some v) : v.Awaits h L b M := by
  induction n generalizing u with
  | zero => exact Option.some.inj ran ▸ awaits
  | succ n ih =>
    obtain ⟨u', stepped, above, ran⟩ := World.cycles_succ ran
    exact ih (awaits.goes stepped (by rintro ⟨⟩) fun _ => above) ran

theorem World.Underway.cycles (underway : w.Underway u) (ran : u.cycles w.machine.frames.size n = some v) :
    w.Underway v := by
  induction n generalizing u with
  | zero => exact Option.some.inj ran ▸ underway
  | succ n ih =>
    obtain ⟨u', stepped, above, ran⟩ := World.cycles_succ ran
    exact ih (.goes underway stepped above) ran

theorem World.Hosts.cycles {ref : Nat} {args : List Value} (hosts : w.Hosts ref args u)
    (ran : u.cycles w.machine.frames.size n = some v) : w.Hosts ref args v := by
  induction n generalizing u with
  | zero => exact Option.some.inj ran ▸ hosts
  | succ n ih =>
    obtain ⟨u', stepped, above, ran⟩ := World.cycles_succ ran
    exact ih (.goes hosts stepped above) ran

/-- Where a script begins on a machine that has just been made. -/
theorem awaits_begun {s : Script} (compiled : s.Compiled) (small : s.Small) :
    World.Awaits (Pausing.loaded s {}).heap #[] 0 []
      { Pausing.loaded s {} with machine.frames := #[Pausing.outermost s {}] } := by
  have fresh := (idles_fresh {}).sound
  have loaded := fresh.loaded compiled small
  refine ⟨loaded.onMachine rfl rfl (fun _ => id) fun v mem => loaded.offers v (.slot mem), .refl _,
    Pausing.outermost s {}, [], rfl, fresh.entered compiled small, ?_⟩
  intro g began _
  cases began
  rfl

theorem awaits_pairing : pairing.Awaits pairing.heap #[] 0 [] := by
  have small : Script.pair.Small := by
    unfold Script.Small
    decide
  exact awaits_begun ⟨_, _, Script.made_pair⟩ small

theorem World.underway_of_cycles {d : Nat} (size : w.machine.frames.size = d)
    (one : (w.cycles d 1).map (·.machine.frames.size) = some (d + 1)) (ran : w.cycles d (n + 1) = some u) :
    w.Underway u := by
  obtain ⟨u₁, stepped, above, rest⟩ := World.cycles_succ ran
  obtain ⟨v, once, pushed⟩ := Option.map_eq_some_iff.mp one
  obtain ⟨v₁, stepped', -, none⟩ := World.cycles_succ once
  cases stepped.symm.trans stepped'
  cases none
  exact World.Underway.cycles (.begun stepped (pushed.trans (congrArg (· + 1) size.symm))) (size ▸ rest)

/-- What is seen of a world where two values are returned. -/
def World.pairSeen (u : World) : Option Instruction × Nat × Option Bool × List Value :=
  (u.next?, u.machine.frames.size, u.machine.frames.back?.map (·.discards), u.results 2)

theorem World.returning_of_seen {vs : List Value} (one : w.machine.frames.size = 1)
    (seen : u.pairSeen = (some (.ret 2), 2, some false, vs)) : w.Returning u 2 ∧ u.results 2 = vs := by
  obtain ⟨next, two, kept, results⟩ : _ ∧ _ ∧ _ ∧ _ := by simpa only [pairSeen, Prod.mk.injEq] using seen
  refine ⟨⟨next, two.trans (congrArg (· + 1) one.symm), fun g top => ?_⟩, results⟩
  rw [top] at kept
  exact Option.some.inj kept

/-- Calls of that machine, and the returns from them. -/
theorem pairing_called (m b : Nat) (M : List Nat) (vs : List Value)
    (called : (pairing.cycles 0 m).map (fun w => (w.machine.frames.size, w.calleeSlot?, w.machine.marks,
      (w.cycles 1 1).map (·.machine.frames.size))) = some (1, some b, M, some 2))
    (returned : ((pairing.cycles 0 m).bind (World.cycles 1 3)).map World.pairSeen =
      some (some (.ret 2), 2, some false, vs)) :
    ∃ w u, pairing.cycles 0 m = some w ∧ w.cycles 1 3 = some u ∧ w.Stands ∧ w.calleeSlot? = some b ∧ w.Underway u ∧
      w.Returning u 2 ∧ w.machine.frames.size = 1 ∧ w.machine.marks = M ∧ u.results 2 = vs := by
  obtain ⟨w, ran, answers⟩ := Option.map_eq_some_iff.mp called
  obtain ⟨one, slot, marks, pushed⟩ : _ ∧ _ ∧ _ ∧ _ := by simpa only [Prod.mk.injEq] using answers
  obtain ⟨u, ran', seen⟩ := Option.map_eq_some_iff.mp returned
  rw [ran, Option.bind_some] at ran'
  obtain ⟨sound, grows, f, fs, frames, upright, -⟩ := awaits_pairing.cycles ran
  obtain ⟨returning, results⟩ := World.returning_of_seen one seen
  exact ⟨w, u, ran, ran', ⟨sound, #[], f, fs, 0, [], frames, upright⟩, slot,
    World.underway_of_cycles one pushed ran', returning, one, marks, results⟩

/-- A call by the host pushes its frame. -/
theorem World.hosts_begun {ref : Nat} {args : List Value} (arity : args.length = (w.heap.code ref).arity)
    (room : w.machine.frames.size < w.machine.settings.maxFrames) :
    w.Hosts ref args
      ((callClosure ref args.length w.machine.stack.size).after (Pausing.begun (.closure ref) args w)) := by
  let begun := Pausing.begun (.closure ref) args w
  have ran : callClosure ref args.length w.machine.stack.size begun = .ok ()
      { begun with
        machine.frames := begun.machine.frames.push { closure := ref, base := w.machine.stack.size } } := by
    change (if args.length = (w.heap.code ref).arity then pushFrame _ else fail _ : Run Unit) begun = _
    rw [if_pos arity]
    change (if w.machine.frames.size < w.machine.settings.maxFrames then modifyMachine _ else fail _ : Run Unit)
      begun = _
    rw [if_pos room]
    rfl
  rw [after_ok ran]
  exact @World.Hosts.begun w ref args 0 _ ((callTop_closure _).trans ran)

theorem results_delivered_pair :
    (∃ w u u', pairing.cycles 0 4 = some w ∧ w.cycles 1 3 = some u ∧ u.Continues 0 u' ∧
      u'.machine.globals.get? "a" = some (.bool true) ∧ u'.machine.globals.get? "b" = some .null) ∧
    (∃ w u, pairing.cycles 0 16 = some w ∧ w.cycles 1 3 = some u ∧ u.Refuses 0 1 2) ∧
    (∃ w, pairing.cycles 0 1 = some w ∧ ∃ N, ∀ steps ≥ N, ∃ w',
      Run.call steps (.closure 1) [] w = .ok [.bool true, .null] w' ∧ w'.machine.marks = w.machine.marks) ∧
    (∃ (a : Assembler) (c : Chunk) (first : Option Nat), c.code[a.body.chunk.code.size]? = some (.call 0) ∧
      Script.pair.Unpacks c (a.body.chunk.code.size + 1) ["a", "b"] first) ∧
    ((Watch.only fun w => w.Fits ∧ w.Stands).interpret 5 .pair {} = (Watch.only World.Fits).interpret 5 .pair {} ∧
      Ended ((Watch.only World.Fits).interpret 5 .pair {})) ∧
    (Watch.only fun w => w.Fits ∧ w.Stands).resume 5 (testing 2 0).machine.suspension (Pausing.vacated (testing 2 0)) =
        (Watch.only World.Fits).resume 5 (testing 2 0).machine.suspension (Pausing.vacated (testing 2 0)) ∧
      Ended ((Watch.only World.Fits).resume 5 (testing 2 0).machine.suspension (Pausing.vacated (testing 2 0))) := by
  obtain ⟨-, compiled, returns, hosted, begins, resumes⟩ := results_delivered 5
  refine ⟨?_, ?_, ?_, ?_, begins {} .pair (idles_fresh {}) ⟨_, _, Script.made_pair⟩,
    resumes _ _ suspended_testing.1 suspended_testing.2⟩
  · obtain ⟨w, u, ran, ran', stands, slot, underway, returning, one, marks, results⟩ :=
      pairing_called 4 1 [1] [.bool true, .null] (by decide +kernel) (by decide +kernel)
    have front : (pairing.cycles 0 4).map (fun w => w.machine.frames.back?.map fun f =>
        (f.ip, w.heap.code f.closure, w.heap.scripts[(w.heap.closure f.closure).chunk.script]?)) =
        some (some (4, Script.pairTop, some Script.pair)) := by decide +kernel
    rw [ran] at front
    obtain ⟨f, top, answers⟩ := Option.map_eq_some_iff.mp (Option.some.inj front)
    obtain ⟨ip, code, script⟩ : _ ∧ _ ∧ _ := by simpa only [Prod.mk.injEq] using answers
    have unpacks : w.Unpacks ["a", "b"] none := ⟨f, .pair, top, script, by rw [code, ip]; exact Script.unpacks_pair⟩
    obtain ⟨marked, accepts, -⟩ := returns w u 1 2 0 stands slot underway returning (by omega)
    have opens : w.Opens 1 := marked.mp (by rw [marks]; rfl)
    obtain ⟨u', continues, distributes⟩ := (accepts _ _ opens unpacks).1 rfl
    have globals := distributes.globals rfl (by decide)
    have results : u.results (2 : UInt8).toNat = [.bool true, .null] := results
    rw [results] at globals
    exact ⟨w, u, u', ran, ran', continues, globals 0 "a" rfl, globals 1 "b" rfl⟩
  · obtain ⟨w, u, ran, ran', stands, slot, underway, returning, one, marks, -⟩ :=
      pairing_called 16 2 [1] [.bool true, .null] (by decide +kernel) (by decide +kernel)
    obtain ⟨marked, -, otherwise⟩ := returns w u 2 2 0 stands slot underway returning (by omega)
    have apart : ¬w.Opens 2 := fun opens => by
      have head := marked.mpr opens
      rw [marks] at head
      cases head
    exact ⟨w, u, ran, ran', (otherwise apart).2 (by decide)⟩
  · let host : World → World := fun w =>
      (callClosure 1 0 w.machine.stack.size).after (Pausing.begun (.closure 1) [] w)
    have called : (pairing.cycles 0 1).map (fun w => (w.machine.frames.size, w.closures, (w.heap.code 1).arity,
        w.machine.settings.maxFrames)) = some (1, 2, 0, 512) := by decide +kernel
    have returned : ((pairing.cycles 0 1).bind fun w => (host w).cycles 1 2).map World.pairSeen =
        some (some (.ret 2), 2, some false, [.bool true, .null]) := by decide +kernel
    obtain ⟨w, ran, answers⟩ := Option.map_eq_some_iff.mp called
    obtain ⟨one, closures, arity, room⟩ : _ ∧ _ ∧ _ ∧ _ := by simpa only [Prod.mk.injEq] using answers
    obtain ⟨u, ran', seen⟩ := Option.map_eq_some_iff.mp returned
    rw [ran, Option.bind_some] at ran'
    obtain ⟨returning, results⟩ := World.returning_of_seen one seen
    have sound : w.Sound := (awaits_pairing.cycles ran).sound
    have hosts : w.Hosts 1 [] u :=
      World.Hosts.cycles (World.hosts_begun arity.symm (by omega)) (by rw [one]; exact ran')
    obtain ⟨N, answers⟩ := hosted w u 1 [] 2 sound (by omega) (by rintro _ ⟨⟩) hosts returning
    have results : u.results (2 : UInt8).toNat = [.bool true, .null] := results
    rw [results] at answers
    refine ⟨w, ran, N, fun steps le => ?_⟩
    obtain ⟨w', called, -, marks, -⟩ := answers steps le
    exact ⟨w', called, marks⟩
  · obtain ⟨pre, t, ts, post, split, calls, spelled⟩ := Script.split_pair
    obtain ⟨a, a', c, -, -, word, unpacks, -⟩ :=
      compiled _ _ _ pre t ts post _ 0 Script.made_pair split calls spelled (by decide)
    exact ⟨a, c, _, word, unpacks⟩

end

end ScriptEngine
