import ScriptEngine.Proofs.Placing

/-!
# Failures of runs

A failure keeps the place that it got in the instruction where it arose, through as many
loops as there are around it. A loop leaves the frames below it alone, so a call that has
come to an end leaves frames as they were, and so does one that fails. That is all that
the instruction around a call relies on, and by induction on the steps that a machine is
given it holds of all calls.
-/
namespace ScriptEngine

open Run

section

variable {w w' u : World} {P : World → Prop} {Q : RuntimeError → Location → Prop} {fuel stop : Nat}

/-! ## Loops -/

/-- What comes of a loop that stops at a depth. -/
def Run.Looped (Q : RuntimeError → Location → Prop) (stop : Nat) (w : World) : EStateM.Result Halt World Exit → Prop
  | .ok how w' => w'.Orderly ∧ w.Guards stop w' ∧ (how = .returned → w'.machine.frames.size = stop)
  | .error (.failed g) w' => w.Guards stop w' ∧ g.Accounted Q ∧
      (g.location = none → w'.machine.frames = #[] ∧ ∃ n, g.error = .multiReturnMismatch 1 n)
  | .error .outOfFuel _ => True

theorem Run.Looped.after {r : EStateM.Result Halt World Exit} (guards : w.Guards stop w') (h : Looped Q stop w' r) :
    Looped Q stop w r := by
  unfold Looped at h ⊢
  split
  · exact ⟨h.1, guards.trans h.2.1, h.2.2⟩
  · exact ⟨guards.trans h.1, h.2⟩
  · trivial

variable (stands : ∀ u, P u → u.Stands)
include stands

theorem looped_execute (informs : ∀ k < fuel, Informs (Arisen P) ((Watch.only P).again k)) (orderly : w.Orderly)
    (above : stop < w.machine.frames.size) : Looped (Arisen P) stop w ((Watch.only P).execute fuel stop w) := by
  induction fuel generalizing w with
  | zero => trivial
  | succ fuel ih =>
    rw [Watch.execute_succ]
    by_cases known : P w
    · have cycled := (stands w known).cycled known orderly above (informs fuel (Nat.lt_succ_self _))
      rw [Watch.only_of known]
      generalize Run.cycle ((Watch.only P).again fuel) stop w = r at cycled
      match r, cycled with
      | .ok .next w', ⟨orderly', guards, above'⟩ =>
        exact .after guards (ih (fun k hk => informs k (Nat.lt_succ_of_lt hk)) orderly' above')
      | .ok (.exit how) w', ended => exact ended
      | .error (.failed g) w', ended => exact ended
      | .error .outOfFuel w', _ => trivial
    · rw [Watch.only_of_not known]
      trivial

/-! ## Host calls -/

/-- What comes of the body of a host call. -/
def Run.Embodied (Q : RuntimeError → Location → Prop) (w : World) : EStateM.Result Halt World Unit → Prop
  | .ok _ w' => w.Spares w'
  | .error (.failed g) w' => w.Guards w.machine.frames.size w' ∧ g.Accounted Q
  | .error .outOfFuel _ => True

omit stands in
theorem World.Pushes.guards (h : w.Pushes w') : w.Guards w.machine.frames.size w' := by
  obtain ⟨gs, frames, -⟩ := h.frames
  have size := size_of_split frames
  refine ⟨by omega, ?_, h.natives, h.heap⟩
  rw [frames]
  exact List.take_append_of_le_length (Nat.le_refl _)

omit stands in
/-- As many frames as there were are those that there were. -/
theorem World.Guards.spares (h : w.Guards w.machine.frames.size w') (size : w'.machine.frames.size = w.machine.frames.size) :
    w.Spares w' := by
  refine ⟨Array.toList_inj.mp ?_, h.natives, h.heap⟩
  have below := h.below
  have all : w.machine.frames.toList.take w.machine.frames.size = w.machine.frames.toList :=
    List.take_of_length_le (Nat.le_refl _)
  rwa [List.take_of_length_le (Nat.le_of_eq size), all] at below

theorem embodied_body (informs : ∀ k ≤ fuel, Informs (Arisen P) ((Watch.only P).again k)) (midway : w.Midway)
    (argc : Nat) : Embodied (Arisen P) w ((do
      callTop ((Watch.only P).again fuel) argc
      untilReturned ((Watch.only P).execute fuel w.machine.frames.size) w.machine.frames.size : Run Unit) w) := by
  have stacked := (informs fuel (Nat.le_refl _)).callTop argc w midway
  rw [bind_eq]
  generalize callTop ((Watch.only P).again fuel) argc w = r at stacked
  match r, stacked with
  | .error (.failed g) w₁, ⟨pushes, accounted, _⟩ => exact ⟨pushes.guards, accounted⟩
  | .error .outOfFuel w₁, _ => trivial
  | .ok _ w₁, pushes =>
    have pushes : w.Pushes w₁ := pushes
    dsimp only
    rw [Pausing.untilReturned_eq]
    split
    · next more =>
      have looped := looped_execute stands (fun k hk => informs k (Nat.le_of_lt hk)) (midway.pushes pushes) more
      generalize (Watch.only P).execute fuel w.machine.frames.size w₁ = r at looped
      match r, looped with
      | .ok .returned w₂, ⟨_, guards, size⟩ => exact (pushes.guards.trans guards).spares (size rfl)
      | .ok .yielded w₂, ⟨_, guards, _⟩ => exact ⟨pushes.guards.trans guards, Failure.accounted_of_bare rfl⟩
      | .error (.failed g) w₂, ⟨guards, accounted, _⟩ => exact ⟨pushes.guards.trans guards, accounted⟩
      | .error .outOfFuel w₂, _ => trivial
    · next none => exact pushes.guards.spares (Nat.le_antisymm (Nat.not_lt.mp none) pushes.guards.depth)

omit stands in
/-- A host call leaves the frames as it found them. -/
theorem reported_hostCall {callee : Value} {args : List Value} {body : Nat → Run Unit}
    (embodied : Embodied Q (Pausing.begun callee args w) (body w.machine.frames.size (Pausing.begun callee args w))) :
    Reported Q w (hostCall callee args body w) := by
  have begins : w.Spares (Pausing.begun callee args w) := ⟨rfl, rfl, .refl _⟩
  rw [Pausing.hostCall_eq]
  unfold EStateM.bind attempt
  generalize body w.machine.frames.size (Pausing.begun callee args w) = r at embodied
  match r, embodied with
  | .ok _ w', spares =>
    have spares : (Pausing.begun callee args w).Spares w' := spares
    exact begins.trans ⟨spares.frames, spares.natives, spares.heap⟩
  | .error (.failed g) w', ⟨guards, accounted⟩ =>
    obtain ⟨w₂, closed⟩ := closeFrom_ok w.machine.stack.size (w.ended w')
    have calm : Calm (w.ended w') w₂ := by
      have calm := (calms_closeFrom w.machine.stack.size (w.ended w')).1
      rwa [closed] at calm
    dsimp only
    rw [conclude_error closed]
    refine ⟨⟨Array.toList_inj.mp ?_, calm.natives.trans guards.natives, guards.heap.trans calm.heap⟩, accounted⟩
    rw [Array.toList_shrink, calm.frames]
    exact guards.below.trans (List.take_of_length_le (Nat.le_refl _))
  | .error .outOfFuel w', _ => trivial

/-- However many steps they are given, calls report their failures. -/
theorem informs_again (fuel : Nat) : Informs (Arisen P) ((Watch.only P).again fuel) := by
  induction fuel using Nat.strongRecOn with
  | ind fuel ih =>
    cases fuel with
    | zero => exact ⟨fun _ _ _ _ => trivial, fun _ _ _ => trivial⟩
    | succ fuel =>
      refine ⟨fun callee args w midway => ?_, fun s w midway => ?_⟩
      · refine reported_hostCall ?_
        have begins : w.Spares (Pausing.begun callee args w) := ⟨rfl, rfl, .refl _⟩
        exact embodied_body stands (fun k hk => ih k (Nat.lt_succ_of_le hk)) (midway.spares begins) args.length
      · obtain ⟨f, top, -⟩ := midway.behind
        have inside : 0 < w.machine.frames.size := by
          obtain ⟨F, frames⟩ := Array.back?_eq_some_iff.mp top
          rw [frames, Array.size_push]
          exact Nat.succ_pos _
        rw [interpret_refused _ inside]
        exact ⟨.refl w, Failure.accounted_of_bare rfl⟩

end

/-! ## Scripts -/

/-- The frames of a script that has been set aside wait for those on top of them. -/
def Suspension.Waits (s : Suspension) (h : Heap) : Prop := s.frames.toList.IsChain h.Awaits

/-- Failures without a place: there were too many frames, or the outermost one handed over what is refused. -/
def Failure.Unplaced (f : Failure) : Prop :=
  (∃ n, f.error = .stackOverflow n) ∨ ∃ n, f.error = .multiReturnMismatch 1 n

/-- What comes of a script. -/
def Run.Settled (Q : RuntimeError → Location → Prop) : EStateM.Result Halt World Outcome → Prop
  | .ok (.completed _) w => w.Orderly ∧ w.machine.frames = #[]
  | .ok (.yielded s) w => (w.Orderly ∧ w.machine.frames = #[]) ∧ s.Waits w.heap
  | .error (.failed g) w => w.Orderly ∧ g.Accounted Q ∧ (g.location = none → g.Unplaced)
  | .error .outOfFuel _ => True

/-- What comes of the scripts in the queue. -/
def Run.QueueSettled (Q : RuntimeError → Location → Prop) : EStateM.Result Halt World (Option Suspension) → Prop
  | .ok none w => w.Orderly ∧ w.machine.frames = #[]
  | .ok (some s) w => (w.Orderly ∧ w.machine.frames = #[]) ∧ s.Waits w.heap
  | .error (.failed g) w => w.Orderly ∧ g.Accounted Q ∧ (g.location = none → g.Unplaced)
  | .error .outOfFuel _ => True

section

variable {w w' : World} {P : World → Prop} {Q : RuntimeError → Location → Prop}

theorem World.Orderly.emptied (orderly : w.Orderly) (natives : w'.natives = w.natives)
    (chained : w.heap.Chained → w'.heap.Chained) (frames : w'.machine.frames = #[]) : w'.Orderly where
  natives := orderly.native_of natives
  chained := chained orderly.chained
  waits := by
    rw [frames]
    exact .nil

open Pausing (rested vacated restored)

variable (stands : ∀ u, P u → u.Stands) (fuel : Nat)
include stands

theorem settled_continueTop
    (queue : ∀ w, w.Orderly → w.machine.frames = #[] → QueueSettled (Arisen P) ((Watch.only P).runQueue fuel w))
    (orderly : w.Orderly) (above : 0 < w.machine.frames.size) :
    Settled (Arisen P) ((Watch.only P).continueTop (fuel + 1) w) := by
  have looped := looped_execute stands (fun k (_ : k < fuel) => informs_again stands k) orderly above
  rw [Watch.continueTop_succ]
  generalize (Watch.only P).execute fuel 0 w = r at looped
  match r, looped with
  | .ok .returned w₁, ⟨orderly₁, _, _⟩ =>
    have queue := queue (rested w₁) (orderly₁.emptied rfl id rfl) rfl
    dsimp only
    generalize (Watch.only P).runQueue fuel (rested w₁) = r at queue
    match r, queue with
    | .ok none w₂, vacant => exact vacant
    | .ok (some s) w₂, ended => exact ended
    | .error (.failed g) w₂, ended => exact ended
    | .error .outOfFuel w₂, _ => trivial
  | .ok .yielded w₁, ⟨orderly₁, _, _⟩ => exact ⟨⟨orderly₁.emptied rfl id rfl, rfl⟩, orderly₁.waits⟩
  | .error (.failed g) w₁, ⟨guards, accounted, bare⟩ =>
    exact ⟨orderly.emptied guards.natives guards.heap.chained rfl, accounted, fun none => .inr (bare none).2⟩
  | .error .outOfFuel w₁, _ => trivial

theorem settled_runs :
    (∀ w, w.Orderly → 0 < w.machine.frames.size → Settled (Arisen P) ((Watch.only P).continueTop fuel w)) ∧
    (∀ w s, w.Orderly → w.machine.frames = #[] → Settled (Arisen P) ((Watch.only P).interpret fuel s w)) ∧
    ∀ w, w.Orderly → w.machine.frames = #[] → QueueSettled (Arisen P) ((Watch.only P).runQueue fuel w) := by
  induction fuel with
  | zero => exact ⟨fun _ _ _ => trivial, fun _ _ _ _ => trivial, fun _ _ _ => trivial⟩
  | succ fuel ih =>
    obtain ⟨continueTop, interpret, runQueue⟩ := ih
    refine ⟨fun w => settled_continueTop stands fuel runQueue, fun w s orderly vacant => ?_, fun w orderly vacant => ?_⟩
    · rw [Watch.interpret_succ, Pausing.enter_eq, if_neg (by simp [vacant])]
      by_cases room : w.machine.frames.size < w.machine.settings.maxFrames
      · rw [if_pos room]
        refine continueTop _ ⟨orderly.natives, orderly.chained, ?_⟩ ?_
        · change (w.machine.frames.push _).toList.IsChain _
          rw [vacant]
          exact .singleton _
        · change 0 < (w.machine.frames.push _).size
          rw [Array.size_push]
          exact Nat.succ_pos _
      · rw [if_neg room]
        exact ⟨orderly.emptied rfl id vacant, Failure.accounted_of_bare rfl, fun _ => .inl ⟨_, rfl⟩⟩
    · rw [Watch.runQueue_succ]
      split
      · exact ⟨orderly, vacant⟩
      · next s others waiting =>
        have settled := interpret { w with machine.queue := others } s (orderly.emptied rfl id vacant) vacant
        generalize (Watch.only P).interpret fuel s { w with machine.queue := others } = r at settled
        match r, settled with
        | .ok (.yielded _) w₁, ended => exact ended
        | .ok (.completed _) w₁, ⟨orderly₁, vacant₁⟩ => exact runQueue w₁ orderly₁ vacant₁
        | .error (.failed g) w₁, ended => exact ended
        | .error .outOfFuel w₁, _ => trivial

theorem settled_resume {s : Suspension} (orderly : w.Orderly) (vacant : w.machine.frames = #[])
    (waits : s.Waits w.heap) (some : 0 < s.frames.size) : Settled (Arisen P) ((Watch.only P).resume fuel s w) := by
  rw [Watch.resume_eq _ _ _ vacant]
  exact (settled_runs stands fuel).1 (restored s w) ⟨orderly.natives, orderly.chained, waits⟩ some

end

/-! ## Where failures come from -/

/-- Execution comes to a world of some kind: it makes a difference to stop there. -/
def Comes (run : Watch → EStateM.Result Halt World Outcome) (P : World → Prop) : Prop :=
  run (Watch.only fun u => u.Fits ∧ ¬P u) ≠ run (Watch.only World.Fits)

/-- A run that fails fails at a place where the error has arisen on the way, unless there were too many frames.
However it ends, the next run begins like this one. -/
def Placed (run : Watch → EStateM.Result Halt World Outcome) : Prop :=
  match run (Watch.only World.Fits) with
  | .ok (.completed _) w => w.Idles ∧ w.Orderly
  | .ok (.yielded s) w => w.Idles ∧ w.Orderly ∧ s.Stands w.heap ∧ s.Waits w.heap
  | .error (.failed f) w => (w.Fits → w.Idles) ∧ w.Orderly ∧
      (∀ place, f.location = some place → (∀ n, f.error ≠ .stackOverflow n) →
        Comes run fun u => u.Raises f.error place) ∧
      (f.location = none → f.Unplaced)
  | .error .outOfFuel _ => True

theorem placed_of_settled {run : Watch → EStateM.Result Halt World Outcome}
    (alike : ∀ P : World → Prop, (∀ w, P w → w.Fits) →
      run (Watch.only fun w => P w ∧ w.Stands) = run (Watch.only P) ∧ Ended (run (Watch.only P)))
    (settled : ∀ P : World → Prop, (∀ u, P u → u.Stands) → Settled (Arisen P) (run (Watch.only P))) :
    Placed run := by
  obtain ⟨same, ended⟩ := alike World.Fits fun _ => id
  have standing := settled (fun w => w.Fits ∧ w.Stands) fun _ => And.right
  rw [same] at standing
  unfold Placed
  cases ran : run (Watch.only World.Fits) with
  | ok outcome w =>
    rw [ran] at ended standing
    cases outcome with
    | completed v => exact ⟨ended, standing.1⟩
    | yielded s => exact ⟨ended.1, standing.1.1, ended.2, standing.2⟩
  | error e w =>
    rw [ran] at ended standing
    cases e with
    | outOfFuel => trivial
    | failed f =>
      refine ⟨fun fits => (ended fits).1, standing.1, fun place located proper unstopped => ?_, standing.2.2⟩
      -- a run that is stopped wherever the error arises does not fail so
      have stopped := settled (fun u => (u.Fits ∧ ¬u.Raises f.error place) ∧ u.Stands) fun _ => And.right
      rw [(alike _ fun _ => And.left).1, unstopped, ran] at stopped
      obtain ⟨u, ⟨⟨-, quiet⟩, -⟩, raises⟩ := stopped.2.1 place located proper
      exact quiet raises

/-- Wherever a run of a compiled script fails, its failure has the place where it arose, and the line of a word is the
one with which it was emitted. -/
theorem failures_located (fuel : Nat) :
    (∀ w s, w.Idles → w.Orderly → s.Compiled → Placed fun watch => watch.interpret fuel s w) ∧
    (∀ w s, w.Idles → w.Orderly → s.Stands w.heap → s.Waits w.heap → Placed fun watch => watch.resume fuel s w) ∧
    ∀ (es : List (Instruction × UInt32)) (c : Chunk), c.Emitted es → es.length < 2 ^ 32 → ∀ offset i line,
      es[offset]? = some (i, line) → c.code[offset]? = some i ∧ c.lineAt offset = line := by
  refine ⟨fun w s idles orderly compiled => ?_, fun w s idles orderly stands waits => ?_,
    fun es c emitted few offset i line => emitted.lineAt_eq few⟩
  · exact placed_of_settled (fun P fits => (alike_runs fits fuel).1 w s idles compiled) fun P known =>
      (settled_runs known fuel).2.1 w s orderly idles.frames
  · have some : 0 < s.frames.size := by
      obtain ⟨f, fs, b, frames, -⟩ := stands.upright
      rw [frames, piled_cons, Array.size_push]
      exact Nat.succ_pos _
    exact placed_of_settled (fun P fits => (alike_runs fits fuel).2 w s idles stands) fun P known =>
      settled_resume known fuel orderly idles.frames waits some

/-! ## A failure in a callback -/

instance (w : World) : Decidable w.Fits :=
  inferInstanceAs (Decidable (∀ s ∈ w.heap.scripts, ∀ c ∈ s.chunks, c.code.size < 2 ^ 32))

/-- The machine that is stopped where scripts do not fit, to be computed with. -/
def Watch.fitting : Watch where
  instruction _ x w := if w.Fits then x w else .error .outOfFuel w

theorem Watch.only_fits : Watch.only World.Fits = Watch.fitting := by
  unfold Watch.only Watch.fitting
  congr 1
  funext stop x w
  split <;> rfl

/-- A function that throws its argument, on the second of four lines, and `Map` with it on the last one. -/
def Script.throwingTokens : List Token :=
  [(.funWord, "fun", 1), (.identifier, "f", 1), (.openParen, "(", 1), (.identifier, "x", 1), (.closeParen, ")", 1),
    (.openBrace, "\x7b", 1), (.throwWord, "throw", 2), (.identifier, "x", 2), (.semicolon, ";", 2),
    (.closeBrace, "\x7d", 3), (.openBracket, "[", 4), (.nullWord, "null", 4), (.closeBracket, "]", 4), (.dot, ".", 4),
    (.identifier, "Map", 4), (.openParen, "(", 4), (.identifier, "f", 4), (.closeParen, ")", 4),
    (.semicolon, ";", 4)].map fun t => ⟨t.1, t.2.1, .none, t.2.2, 1, 0⟩

/-- What it is compiled to. -/
def Script.throwing : Script where
  hash := "0fbc4601e3bea911542efe9daaa6d3382d23e35caa9464acfaf8ddb5cd06b04a"
  top := .listed 1
  diagnostics := #[]
  chunks := #[
    { name := "f", source := "main", chain := "main.f", kind := .function
      code := #[.getLocal 1, .throw, .null, .ret 1]
      constants := #[.string "x"], lines := #[⟨2, 2⟩, ⟨3, 2⟩], arguments := #[0] },
    { name := "main", source := "main", chain := "main", kind := .script
      code := #[.closure 1, .defineGlobal 0, .null, .buildList 1, .getGlobal 0, .invoke 2 1, .pop, .null, .ret 1]
      constants := #[.string "f", .chunk (.listed 0), .string "Map"], lines := #[⟨3, 2⟩, ⟨4, 7⟩] }]

theorem Script.compiled_throwing : throwing.Compiled := compiled_of_parts throwingTokens (by decide +kernel)

theorem orderly_fresh (settings : Settings) : World.Orderly { machine := { settings } } where
  natives _ := trivial
  chained _ mem := absurd mem (Array.not_mem_empty _)
  waits := .nil

theorem failed_of_match {r : EStateM.Result Halt World Outcome} {f : Failure} (same : (match r with
    | .error (.failed g) _ => decide (g = f)
    | _ => false) = true) : ∃ w, r = .error (.failed f) w := by
  split at same
  · next g w => exact ⟨w, by rw [of_decide_eq_true same]⟩
  · cases same

theorem failures_located_callback :
    (∃ w, (Watch.only World.Fits).interpret 12 .throwing {} =
      .error (.failed ⟨.thrown .null, some ⟨"main.f", 2⟩⟩) w) ∧
    (Placed fun watch => watch.interpret 12 .throwing {}) ∧
    (Placed fun watch => watch.resume 9 (testing 2 0).machine.suspension (Pausing.vacated (testing 2 0))) ∧
    ((((default : Chunk).emit .null 7).emit .pop 7).emit .null 9).code[1]? = some .pop ∧
      ((((default : Chunk).emit .null 7).emit .pop 7).emit .null 9).lineAt 1 = 7 := by
  refine ⟨failed_of_match ?_, (failures_located 12).1 {} .throwing (idles_fresh {}) (orderly_fresh {}) Script.compiled_throwing,
    (failures_located 9).2.1 _ _ suspended_testing.1 ?_ suspended_testing.2 (.singleton _), ?_⟩
  · rw [Watch.only_fits]
    decide +kernel
  · exact (orderly_fresh { testsEnabled := true }).emptied rfl (fun _ _ mem => absurd mem (Array.not_mem_empty _)) rfl
  · exact (failures_located 0).2.2 [(.null, 7), (.pop, 7), (.null, 9)] _ (.emit .null 9 (.emit .pop 7 (.emit .null 7
      (.start rfl rfl)))) (by decide) 1 .pop 7 rfl

end ScriptEngine
