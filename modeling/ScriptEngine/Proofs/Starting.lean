import ScriptEngine.Proofs.Enduring

/-!
# Scripts that are started

A compiled script begins with a frame over its top chunk and nothing else, so its frames
stand from the first instruction on, and where one ends the next one in the queue
begins. A script that is suspended keeps its frames standing, and they stand when it is
resumed. So wherever execution comes, worlds are sound.
-/
namespace ScriptEngine

open Run

/-- Scripts that have been loaded fit the words that labels are kept in. -/
def World.Fits (w : World) : Prop := ∀ s ∈ w.heap.scripts, s.Small

/-- A sound world in which nothing runs. -/
structure World.Idles (w : World) : Prop where
  sound : w.Sound
  frames : w.machine.frames = #[]
  marks : w.machine.marks = []

/-- A sound world in which the frames of a script stand, and no others. -/
structure World.Runs (w : World) : Prop where
  sound : w.Sound
  upright : ∃ f fs b, w.machine.frames = piled #[] (f :: fs) ∧
    Upright w.heap w.machine.stack b [] (f :: fs) w.machine.marks

/-- The frames of a script that has been set aside stand, and what it holds is known. -/
structure Suspension.Stands (s : Suspension) (h : Heap) : Prop where
  offers : ∀ v ∈ s.stack, v.Within h.closures.size
  upright : ∃ f fs b, s.frames = piled #[] (f :: fs) ∧ Upright h s.stack b [] (f :: fs) s.marks

/-- How a run ends: in a sound world in which nothing runs. -/
def Ended : EStateM.Result Halt World Outcome → Prop
  | .ok (.completed _) w => w.Idles
  | .ok (.yielded s) w => w.Idles ∧ s.Stands w.heap
  | .error (.failed f) w => w.Fits → w.Idles ∧ f.Within w.closures
  | .error .outOfFuel _ => True

/-- How the scripts in the queue end. -/
def QueueEnded : EStateM.Result Halt World (Option Suspension) → Prop
  | .ok none w => w.Idles
  | .ok (some s) w => w.Idles ∧ s.Stands w.heap
  | .error (.failed f) w => w.Fits → w.Idles ∧ f.Within w.closures
  | .error .outOfFuel _ => True

/-! ## Result by result -/

namespace Watch

open Pausing (queueOutcome rested vacated restored)

variable (watch : Watch) (fuel : Nat)

theorem continueTop_succ (w : World) : watch.continueTop (fuel + 1) w =
    match watch.execute fuel 0 w with
    | .ok .returned w₁ => queueOutcome (w₁.machine.stack.back?.getD .null) (watch.runQueue fuel (rested w₁))
    | .ok .yielded w₁ => .ok (.yielded w₁.machine.suspension) (vacated w₁)
    | .error (.failed f) w₁ => .error (.failed f) (rested w₁)
    | .error .outOfFuel w₁ => .error .outOfFuel w₁ := by
  change EStateM.bind (attempt (watch.execute fuel 0)) _ w = _
  unfold EStateM.bind attempt
  cases watch.execute fuel 0 w with
  | error e w₁ => cases e <;> rfl
  | ok how w₁ =>
    cases how with
    | yielded => rfl
    | returned =>
      change EStateM.bind (watch.runQueue fuel) _ (rested w₁) = _
      dsimp only [EStateM.bind]
      cases watch.runQueue fuel (rested w₁) with
      | error => rfl
      | ok s => cases s <;> rfl

theorem runQueue_succ (w : World) : watch.runQueue (fuel + 1) w =
    match w.machine.queue with
    | [] => .ok Option.none w
    | s :: others =>
      match watch.interpret fuel s { w with machine.queue := others } with
      | .ok (.yielded suspension) w₁ => .ok (some suspension) w₁
      | .ok (.completed _) w₁ => watch.runQueue fuel w₁
      | .error e w₁ => .error e w₁ := by
  obtain ⟨heap, natives, m⟩ := w
  obtain ⟨settings, stack, frames, openCells, marks, globals, registry, libraries, tests, currentSet, queue, calls,
    output⟩ := m
  cases queue with
  | nil => rfl
  | cons s others =>
    change EStateM.bind (watch.interpret fuel s) _ _ = _
    unfold EStateM.bind
    dsimp only
    cases watch.interpret fuel s _ with
    | error => rfl
    | ok r w₁ => cases r <;> rfl

theorem interpret_succ (s : Script) (w : World) : watch.interpret (fuel + 1) s w =
    match enter s w with
    | .ok _ w₁ => watch.continueTop fuel w₁
    | .error e w₁ => .error e w₁ := by
  change EStateM.bind (enter s) _ w = _
  unfold EStateM.bind
  cases enter s w <;> rfl

theorem resume_eq (s : Suspension) {w : World} (vacant : w.machine.frames = #[]) :
    watch.resume fuel s w = watch.continueTop fuel (restored s w) := by
  have free : checkStopped w = .ok () w := by
    change (if (!w.machine.frames.isEmpty) = true then _ else _ : Run Unit) w = _
    rw [vacant]
    rfl
  change EStateM.bind checkStopped _ w = _
  unfold EStateM.bind
  rw [free]
  rfl

end Watch

/-! ## A script is loaded -/

section

variable {w w' : World} {s : Script} {h : Heap}

theorem Heap.Sound.load (sound : h.Sound) (compiled : s.Compiled) (small : s.Small) : (h.load s).2.Sound := by
  have old {i : Nat} {s' : Script} (found : h.scripts[i]? = some s') : (h.scripts.push s)[i]? = some s' := by
    obtain ⟨inside, same⟩ := Array.getElem?_eq_some_iff.mp found
    rw [Array.getElem?_push_lt inside, same]
  refine ⟨fun s' mem => ?_, fun s' mem => ?_, fun c mem => ?_, fun v offers => ?_, fun r chain => ?_⟩
  · rcases Array.mem_push.mp mem with mem | rfl
    · exact sound.scripts s' mem
    · exact compiled
  · rcases Array.mem_push.mp mem with mem | rfl
    · exact sound.small s' mem
    · exact small
  · obtain ⟨s', d, script, chunk⟩ := sound.closures c mem
    exact ⟨s', d, old script, chunk⟩
  · exact sound.offers v (Heap.Offers.bare offers)
  · have chain : h.Chains (.closure r) := chain
    have arity := sound.chains r chain
    have inside : r < h.closures.size := sound.offers _ chain.offers r rfl
    obtain ⟨s', d, script, chunk⟩ := sound.closures _ (Array.getElem_mem inside)
    have closure : h.closure r = h.closures[r] := by
      unfold Heap.closure
      rw [Array.getElem?_eq_getElem inside]
      rfl
    have same : (h.load s).2.code r = h.code r := by
      have closure' : (h.load s).2.closure r = h.closures[r] := closure
      have script' : (h.load s).2.scripts[h.closures[r].chunk.script]? = some s' := old script
      unfold Heap.code Heap.chunk
      rw [closure, closure', script, script']
    rw [same]
    exact arity

open Pausing (loaded outermost)

theorem top_chunk (compiled : s.Compiled) : ∃ d, (w.heap.load s).2.scripts[(w.heap.load s).1.script]? = some s ∧
    s.chunks[(w.heap.load s).1.index]? = some d ∧ d.arity = 0 := by
  obtain ⟨tokens, scriptName, made⟩ := compiled
  obtain ⟨d, top, arity⟩ := made.top_arity
  refine ⟨d, Array.getElem?_push_size, ?_, arity⟩
  unfold Heap.load
  rw [made.top, ← Array.back?_eq_getElem?]
  exact top

/-- The script is there, with a closure over its top chunk on the stack. -/
theorem World.Sound.loaded (sound : w.Sound) (compiled : s.Compiled) (small : s.Small) : (loaded s w).Sound := by
  have heap := sound.heap.load compiled small
  have sound' : (w.onHeap (w.heap.load s).2).Sound := ⟨heap, sound.offers, sound.natives, sound.queue⟩
  obtain ⟨d, script, chunk, -⟩ := top_chunk (w := w) compiled
  have made := sound'.footing.addClosure (c := ⟨(w.heap.load s).1, #[]⟩) ⟨s, d, script, chunk⟩
  exact (made.pushed (v := .closure w.heap.closures.size) fun r same => by cases same; exact Nat.lt_succ_self _).sound

/-- The frame of a script stands at its first instruction. -/
theorem World.Sound.entered (sound : w.Sound) (compiled : s.Compiled) (small : s.Small) :
    Upright (Pausing.loaded s w).heap (Pausing.loaded s w).machine.stack w.machine.stack.size []
      [outermost s w] [] := by
  have sound' := sound.loaded compiled small
  have inside : w.heap.closures.size < (Pausing.loaded s w).heap.closures.size := by
    change _ < (w.heap.closures.push _).size
    rw [Array.size_push]
    exact Nat.lt_succ_self _
  have closure : (Pausing.loaded s w).heap.closure w.heap.closures.size = ⟨(w.heap.load s).1, #[]⟩ := by
    change ((w.heap.closures.push _)[_]?.getD default) = _
    rw [Array.getElem?_push_size]
    rfl
  obtain ⟨d, script, chunk, arity⟩ := top_chunk (w := w) compiled
  have code : (Pausing.loaded s w).heap.code w.heap.closures.size = d := by
    have script : (Pausing.loaded s w).heap.scripts[(w.heap.load s).1.script]? = some s := script
    unfold Heap.code Heap.chunk
    rw [closure]
    dsimp only
    rw [script]
    dsimp only
    rw [chunk]
    rfl
  refine Tower.upright (Tower.enter sound'.heap inside ?_ (Nat.le_refl _) nofun List.suffix_rfl fun _ leaves =>
    ⟨rfl, leaves⟩)
  change _ = _ + 1 + ((Pausing.loaded s w).heap.code w.heap.closures.size).arity
  rw [code, arity]
  exact Array.size_push _

/-! ## Runs of scripts -/

open Pausing (rested vacated restored enter_eq queueOutcome)

/-- Nothing but what was there before. -/
theorem World.Sound.onMachine (sound : w.Sound) {m : Machine} (globals : m.globals = w.machine.globals)
    (registry : m.registry = w.machine.registry) (queue : ∀ s ∈ m.queue, s ∈ w.machine.queue)
    (stack : ∀ v ∈ m.stack, v.Within w.closures) : World.Sound { w with machine := m } where
  heap := sound.heap
  offers v offers := by
    cases offers with
    | global name found => exact sound.offers v (.global name (globals ▸ found))
    | registered name found => exact sound.offers v (.registered name (registry ▸ found))
    | slot mem => exact stack v mem
  natives := sound.natives
  queue s mem := sound.queue s (queue s mem)

theorem World.Sound.rested (sound : w.Sound) : (rested w).Idles :=
  ⟨sound.onMachine rfl rfl (fun _ => id) fun _ mem => by cases mem; contradiction, rfl, rfl⟩

theorem World.Idles.restored (idles : w.Idles) {suspension : Suspension} (stands : suspension.Stands w.heap) :
    (restored suspension w).Runs :=
  ⟨idles.sound.onMachine rfl rfl (fun _ => id) stands.offers, stands.upright⟩

/-- Under a watch that stops at once a script does not go on. -/
theorem continueTop_stopped {P : World → Prop} (fuel : Nat) (not : ¬P w) :
    (Watch.only P).continueTop fuel w = .error .outOfFuel w := by
  cases fuel with
  | zero => rfl
  | succ fuel =>
    have stopped : (Watch.only P).execute fuel 0 w = .error .outOfFuel w := by
      cases fuel with
      | zero => rfl
      | succ fuel =>
        change EStateM.bind ((Watch.only P).instruction 0 _) _ w = _
        unfold EStateM.bind Watch.only
        dsimp only
        rw [if_neg not]
    rw [Watch.continueTop_succ, stopped]

variable {P : World → Prop} (fits : ∀ w, P w → w.Fits) (fuel : Nat)

theorem alike_continueTop
    (queue : ∀ w, w.Idles → (Watch.only fun w => P w ∧ w.Stands).runQueue fuel w =
        (Watch.only P).runQueue fuel w ∧
      QueueEnded ((Watch.only P).runQueue fuel w)) (runs : w.Runs) :
    (Watch.only fun w => P w ∧ w.Stands).continueTop (fuel + 1) w =
        (Watch.only P).continueTop (fuel + 1) w ∧
      Ended ((Watch.only P).continueTop (fuel + 1) w) := by
  obtain ⟨sound, f, fs, b, frames, upright⟩ := runs
  let G : Footing := ⟨w, 0, [], []⟩
  have at_ : G.At (piled #[] (f :: fs)) w.machine.marks w.closures w := by
    refine ⟨⟨sound, Nat.zero_le _, nofun, nofun, rfl, fun _ _ => rfl, List.nil_prefix, List.nil_suffix⟩, frames,
      rfl, rfl⟩
  obtain ⟨same, out⟩ := sure_execute (fun k (_ : k < fuel) => sturdy_again P k) at_ (Nat.zero_le b) rfl
    List.suffix_rfl upright
  rw [show (#[] : Array Frame).size = 0 from rfl] at same out
  rw [Watch.continueTop_succ, Watch.continueTop_succ, same]
  cases ran : (Watch.only P).execute fuel 0 w with
  | error e w₁ =>
    rw [ran] at out
    cases e with
    | outOfFuel => exact ⟨rfl, trivial⟩
    | failed f => exact ⟨rfl, fun _ => ⟨out.1.sound.rested, out.2⟩⟩
  | ok how w₁ =>
    rw [ran] at out
    obtain ⟨m, fs', marks, -, h, ends⟩ := out
    cases how with
    | yielded =>
      obtain ⟨some, tower, -⟩ := ends
      obtain ⟨f', fs', rfl⟩ := List.exists_cons_of_ne_nil some
      refine ⟨rfl, ⟨h.sound.onMachine rfl rfl (fun _ => id) fun _ mem => by cases mem; contradiction, rfl, rfl⟩,
        fun v mem => h.sound.offers v (.slot mem), f', fs', b, h.frames, ?_⟩
      change Upright _ _ _ _ _ w₁.machine.marks
      rw [h.marks]
      exact tower.upright
    | returned =>
      obtain ⟨same, ended⟩ := queue (rested w₁) h.sound.rested
      dsimp only
      rw [same]
      refine ⟨rfl, ?_⟩
      generalize (Watch.only P).runQueue fuel (rested w₁) = r at ended
      cases r with
      | error e w₂ => cases e <;> exact ended
      | ok s w₂ => cases s <;> exact ended

include fits in
/-- Wherever a run of compiled scripts comes, its world stands. -/
theorem alike_watches :
    (∀ w, w.Runs → (Watch.only fun w => P w ∧ w.Stands).continueTop fuel w =
        (Watch.only P).continueTop fuel w ∧
      Ended ((Watch.only P).continueTop fuel w)) ∧
    (∀ w s, w.Idles → s.Compiled →
      (Watch.only fun w => P w ∧ w.Stands).interpret fuel s w = (Watch.only P).interpret fuel s w ∧
        Ended ((Watch.only P).interpret fuel s w)) ∧
    ∀ w, w.Idles → (Watch.only fun w => P w ∧ w.Stands).runQueue fuel w = (Watch.only P).runQueue fuel w ∧
      QueueEnded ((Watch.only P).runQueue fuel w) := by
  induction fuel with
  | zero => exact ⟨fun _ _ => ⟨rfl, trivial⟩, fun _ _ _ _ => ⟨rfl, trivial⟩, fun _ _ => ⟨rfl, trivial⟩⟩
  | succ fuel ih =>
    obtain ⟨continueTop, interpret, runQueue⟩ := ih
    refine ⟨fun w => alike_continueTop fuel runQueue, fun w s idles compiled => ?_, fun w idles => ?_⟩
    · rw [Watch.interpret_succ, Watch.interpret_succ, enter_eq, if_neg (by simp [idles.frames])]
      by_cases room : w.machine.frames.size < w.machine.settings.maxFrames
      · rw [if_pos room]
        dsimp only
        by_cases small : s.Small
        · refine continueTop _ ⟨?_, outermost s w, [], w.machine.stack.size, ?_, ?_⟩
          · exact (idles.sound.loaded compiled small).onMachine rfl rfl (fun _ => id) fun v mem =>
              (idles.sound.loaded compiled small).offers v (.slot mem)
          · rw [idles.frames, piled_cons, piled_nil]
          · change Upright _ _ _ _ _ w.machine.marks
            rw [idles.marks]
            exact idles.sound.entered compiled small
        · have large : ¬P { Pausing.loaded s w with machine.frames := w.machine.frames.push (outermost s w) } :=
            fun known => small (fits _ known s Array.mem_push_self)
          rw [continueTop_stopped fuel large, continueTop_stopped fuel fun both => large both.1]
          exact ⟨rfl, trivial⟩
      · rw [if_neg room]
        refine ⟨rfl, fun fits => ⟨⟨idles.sound.loaded compiled (fits s Array.mem_push_self), idles.frames,
          idles.marks⟩, nofun⟩⟩
    · rw [Watch.runQueue_succ, Watch.runQueue_succ]
      cases waiting : w.machine.queue with
      | nil => exact ⟨rfl, idles⟩
      | cons s others =>
        dsimp only
        have idles' : World.Idles { w with machine.queue := others } :=
          ⟨idles.sound.onMachine rfl rfl (fun _ mem => waiting ▸ .tail _ mem) fun v mem =>
            idles.sound.offers v (.slot mem),
            idles.frames, idles.marks⟩
        obtain ⟨same, ended⟩ := interpret _ s idles' (idles.sound.queue s (waiting ▸ .head _))
        rw [same]
        generalize (Watch.only P).interpret fuel s { w with machine.queue := others } = r at ended
        cases r with
        | error e w₁ => cases e <;> exact ⟨rfl, ended⟩
        | ok outcome w₁ =>
          cases outcome with
          | yielded suspension => exact ⟨rfl, ended⟩
          | completed v => exact runQueue w₁ ended

include fits in
/-- So do a script that is begun and one that is resumed, under any watch that stops where scripts do not fit. -/
theorem alike_runs :
    (∀ w s, w.Idles → s.Compiled →
      (Watch.only fun w => P w ∧ w.Stands).interpret fuel s w = (Watch.only P).interpret fuel s w ∧
        Ended ((Watch.only P).interpret fuel s w)) ∧
    ∀ w s, w.Idles → s.Stands w.heap →
      (Watch.only fun w => P w ∧ w.Stands).resume fuel s w = (Watch.only P).resume fuel s w ∧
        Ended ((Watch.only P).resume fuel s w) := by
  refine ⟨(alike_watches fits fuel).2.1, fun w s idles stands => ?_⟩
  rw [Watch.resume_eq _ _ _ idles.frames, Watch.resume_eq _ _ _ idles.frames]
  exact (alike_watches fits fuel).1 _ (idles.restored stands)

end

/-- Wherever scripts fit, a script that is begun or resumed comes to worlds that stand. -/
theorem runs_stand (fuel : Nat) :
    (∀ w s, w.Idles → s.Compiled →
      (Watch.only fun w => w.Fits ∧ w.Stands).interpret fuel s w = (Watch.only World.Fits).interpret fuel s w ∧
        Ended ((Watch.only World.Fits).interpret fuel s w)) ∧
    ∀ w s, w.Idles → s.Stands w.heap →
      (Watch.only fun w => w.Fits ∧ w.Stands).resume fuel s w = (Watch.only World.Fits).resume fuel s w ∧
        Ended ((Watch.only World.Fits).resume fuel s w) :=
  alike_runs (fun _ => id) fuel

end ScriptEngine
