import ScriptEngine.Proofs.Building
import ScriptEngine.Proofs.Starting

/-!
# Tests go on

A case is called once, or once for each row of its data as it was when the case began.
Whatever comes of a call is noted in the current set, and the machine is as it was
before: the next row follows, the next case and the rest of the script. Only a fatal
failure goes through.
-/
namespace ScriptEngine

open Run

/-- The world once the next instruction has been read. -/
def World.fetched (w : World) : World :=
  match w.machine.frames.back? with
  | some f => w.moved (f.ip + 1)
  | none => w

/-- One more record, under a name and in one set; it has a problem unless the call came to an answer. -/
structure Noted (set name : String) (outcome : Except Failure (List Value)) (w w' : World) : Prop where
  rest : w' = { w with machine.tests := w'.machine.tests }
  appended : ∃ problem, w'.machine.tests.cases? set =
    some ((w.machine.tests.cases? set).getD [] ++ [⟨name, problem⟩]) ∧ (problem = none ↔ ∃ vs, outcome = .ok vs)
  others : ∀ other ≠ set, w'.machine.tests.cases? other = w.machine.tests.cases? other

/-- The calls of a case: one, or one for each row of its data. -/
def World.calls? (w : World) (name : String) : Bool → Option (List (String × (Heap → List Value)))
  | false => some [(name, fun _ => [])]
  | true => match w.machine.stack.pop.back? with
    | some (.list ref) => some <| (w.heap.list ref).toList.mapIdx fun i row => (s!"{name}[{i}]", (rowArguments · row))
    | _ => none

/-- The world once the operands of a case have been taken. -/
def World.taken (w : World) : Bool → World
  | false => w.onStack w.machine.stack.pop
  | true => w.onStack w.machine.stack.pop.pop

/-- The world with another current set. -/
def World.underSet (w : World) (set : Option String) : World := { w with machine.currentSet := set }

/-- What comes of a computation unless it runs out of steps or fails with a fatal failure. -/
def Survives {α : Type} (r : EStateM.Result Halt World α) (Q : α → World → Prop) : Prop :=
  match r with
  | .ok a w' => Q a w'
  | .error (.failed f) _ => f.isFatal
  | .error .outOfFuel _ => True

section

variable {α β : Type} {w w' : World} {again : Reentry} {set name : String} {case : Value}

theorem Survives.mono {r : EStateM.Result Halt World α} {P Q : α → World → Prop} (h : Survives r P)
    (imp : ∀ a w', P a w' → Q a w') : Survives r Q := by
  unfold Survives at h ⊢
  split at h
  · exact imp _ _ h
  · exact h
  · trivial

theorem Noted.sound {outcome : Except Failure (List Value)} (noted : Noted set name outcome w w') (sound : w.Sound) :
    w'.Sound := by
  rw [noted.rest]
  exact sound.onMachine rfl rfl (fun _ => id) fun v mem => sound.offers v (.slot mem)

variable {i : Instruction} {stop : Nat}

theorem cycle_eq (next : w.next? = some i) : cycle again stop w = located (step again stop i) w.fetched := by
  unfold World.next? at next
  unfold World.fetched
  cases top : w.machine.frames.back? with
  | none =>
    rw [top] at next
    cases next
  | some f =>
    rw [top] at next
    dsimp only at next
    change (fetch >>= _ : Run Control) w = _
    rw [bind_eq, fetch_eq top, next]

theorem World.heap_fetched (w : World) : w.fetched.heap = w.heap := by
  unfold fetched
  split <;> rfl

theorem World.stack_fetched (w : World) : w.fetched.machine.stack = w.machine.stack := by
  unfold fetched
  split <;> rfl

theorem World.fetched_eq (w : World) : w.fetched = { w with machine.frames := w.fetched.machine.frames } := by
  unfold fetched
  split <;> rfl

theorem World.nameAt_fetched (w : World) (index : UInt16) : w.fetched.nameAt index = w.nameAt index := by
  unfold fetched
  split
  · exact nameAt_moved _ _
  · rfl

theorem step_ordinary (stop : Nat) (ordinary : i.isWayOut = false) :
    step again stop i = (do plain again i; return .next) := by
  cases i <;> first | rfl | cases ordinary

/-- An instruction that goes on leaves a world that stands. -/
theorem World.Stands.cycle (stands : w.Stands) (sturdy : Sturdy again again) (next : w.next? = some i)
    (ordinary : i.isWayOut = false) (ran : cycle again stop w = .ok .next w') : w'.Stands := by
  obtain ⟨F, f, fs, b, ms, frames, upright⟩ := stands.upright
  rw [cycle_eq next, step_ordinary stop ordinary, ← step_ordinary F.size ordinary, ← cycle_eq next] at ran
  let G : Footing := ⟨w, 0, F.toList, []⟩
  have at_ : G.At (piled F (f :: fs)) w.machine.marks w.closures w := by
    refine ⟨⟨stands.sound, Nat.zero_le _, nofun, nofun, rfl, fun _ _ => rfl, ?_, List.nil_suffix⟩, frames, rfl, rfl⟩
    rw [frames, toList_piled]
    exact List.prefix_append _ _
  obtain ⟨-, out⟩ := sturdy.sure_cycle (G := G) at_ (Nat.zero_le b) rfl List.nil_suffix upright
  rw [ran] at out
  obtain ⟨m, fs', M, -, h', some, upright', -⟩ := out
  obtain ⟨f', fs', rfl⟩ := List.exists_cons_of_ne_nil some
  exact h'.stands upright'

/-! ## The machine itself -/

theorem Watch.again_none (fuel : Nat) : Watch.none.again fuel = Run.again fuel := by
  obtain ⟨-, call_eq, interpret_eq, -, -⟩ := Watch.machine_unwatched fuel
  unfold Watch.again
  congr 1
  · funext callee args
    exact call_eq callee args
  · funext s
    rw [interpret_eq]

theorem sturdy_self (fuel : Nat) : Sturdy (Run.again fuel) (Run.again fuel) := by
  have unwatched : Watch.only (fun _ => True) = Watch.none := by
    unfold Watch.only Watch.none
    congr 1
    funext stop x w
    exact if_pos trivial
  have sturdy := sturdy_again (fun _ => True) fuel
  rw [unwatched, Watch.again_none] at sturdy
  exact ⟨fun w callee args sound inside known each => ⟨rfl, (sturdy.call w callee args sound inside known each).2⟩,
    fun w s inside => ⟨rfl, (sturdy.interpret w s inside).2⟩⟩

/-- With more steps the machine does the same in calls that come to an end. -/
theorem follows_more {fuel fuel' : Nat} (le : fuel ≤ fuel') : Run.Follows (Run.again fuel) (Run.again fuel') := by
  have same (fuel : Nat) : Pausing.again (fun _ => yield) fuel = Run.again fuel := by
    obtain ⟨-, call_eq, interpret_eq, -, -⟩ := Pausing.machine_yield fuel
    unfold Pausing.again
    congr 1
    · funext callee args
      exact call_eq callee args
    · funext s
      rw [interpret_eq]
  have follows := Pausing.follows_again Pausing.refuses_yield Pausing.refuses_yield fuel fuel' le
  rwa [same, same] at follows

/-- The floor below the operands of an instruction. -/
def World.below (w : World) (operands : Nat) : Footing := { w.footing with floor := w.machine.stack.size - operands }

theorem World.Sound.below (sound : w.Sound) (operands : Nat) :
    (w.below operands).At w.machine.frames w.machine.marks w.closures w where
  holds := ⟨sound, Nat.sub_le _ _, fun _ _ _ => rfl, fun _ _ apart => apart, rfl, fun _ _ => rfl, List.prefix_rfl,
    List.suffix_rfl⟩
  frames := rfl
  marks := rfl
  count := rfl

theorem World.Sound.fetched (sound : w.Sound) : w.fetched.Sound := by
  rw [World.fetched_eq]
  exact sound.onMachine rfl rfl (fun _ => id) fun v mem => sound.offers v (.slot mem)

theorem World.Stands.inside (stands : w.Stands) : 0 < w.machine.frames.size := by
  obtain ⟨F, f, fs, b, ms, frames, -⟩ := stands.upright
  rw [frames, piled_cons, Array.size_push]
  exact Nat.succ_pos _

theorem World.size_fetched (w : World) : w.fetched.machine.frames.size = w.machine.frames.size := by
  unfold fetched
  split
  · exact Array.size_modify
  · rfl

variable {index : UInt16} {fuel : Nat}

theorem World.Sound.onStack (sound : w.Sound) {stack : Array Value} (sub : ∀ v ∈ stack, v ∈ w.machine.stack) :
    (w.onStack stack).Sound :=
  sound.onMachine rfl rfl (fun _ => id) fun v mem => sound.offers v (.slot (sub v mem))

end

/-! ## A set with one case -/

/-- A set with one case, which is run for one row and throws it. -/
def Script.oneCaseTokens : List Token :=
  [(.testWord, "test"), (.identifier, "t"), (.openBrace, "\x7b"), (.testcaseWord, "testcase"), (.identifier, "c"),
    (.openParen, "("), (.identifier, "x"), (.closeParen, ")"), (.openParen, "("), (.openBracket, "["),
    (.nullWord, "null"),
    (.closeBracket, "]"), (.closeParen, ")"), (.openBrace, "\x7b"), (.throwWord, "throw"), (.identifier, "x"),
    (.semicolon, ";"), (.closeBrace, "\x7d"), (.closeBrace, "\x7d")].map fun t => ⟨t.1, t.2, .none, 1, 1, 0⟩

/-- What it is compiled to. -/
def Script.oneCase : Script where
  hash := "7ab05f1b8d076fd116d17f71ce2781cb1bb461695ac0ca1503d0ec7837f83f32"
  top := .listed 2
  diagnostics := #[]
  chunks := #[
    { name := "c", source := "main", chain := "main.t.c", kind := .function
      code := #[.getLocal 1, .throw, .null, .ret 1]
      constants := #[.string "x"], lines := #[⟨1, 4⟩], arguments := #[0] },
    { name := "t", source := "main", chain := "main.t", kind := .function
      code := #[.null, .buildList 1, .closure 1, .testCase 0 true, .null, .ret 1]
      constants := #[.string "c", .chunk (.listed 0)], lines := #[⟨1, 6⟩] },
    { name := "main", source := "main", chain := "main", kind := .script
      code := #[.closure 1, .testSet 0, .null, .ret 1]
      constants := #[.string "t", .chunk (.listed 1)], lines := #[⟨1, 4⟩] }]

/-- A script that is made of tokens, part by part. -/
theorem Script.made_of_parts (tokens : List Token) {s : Script}
    (parts : (Script.ofTokens tokens "main").toOption.map (fun s => (s.hash, s.chunks, s.top, s.diagnostics)) =
      some (s.hash, s.chunks, s.top, s.diagnostics)) : Made tokens "main" s := by
  cases made : Script.ofTokens tokens "main" with
  | error e =>
    rw [made] at parts
    cases parts
  | ok s' =>
    rw [made] at parts
    obtain ⟨hash, chunks, top, diagnostics⟩ := s
    obtain ⟨hash', chunks', top', diagnostics'⟩ := s'
    cases parts
    exact .inl made

theorem Script.compiled_of_parts (tokens : List Token) {s : Script}
    (parts : (Script.ofTokens tokens "main").toOption.map (fun s => (s.hash, s.chunks, s.top, s.diagnostics)) =
      some (s.hash, s.chunks, s.top, s.diagnostics)) : s.Compiled := ⟨_, _, made_of_parts tokens parts⟩

theorem Script.compiled_oneCase : oneCase.Compiled :=
  compiled_of_parts oneCaseTokens (by decide +kernel)

/-- That script, or the body of its set alone, after so many instructions. -/
def testing (chunk : Nat) : Nat → World
  | 0 => {
    heap := { scripts := #[.oneCase], closures := #[⟨⟨0, chunk⟩, #[]⟩] }
    machine := {
      settings := { testsEnabled := true }, stack := #[.closure 0], frames := #[{ closure := 0, base := 0 }]
      currentSet := some "t" } }
  | n + 1 => (cycle unable 0).after (testing chunk n)

/-- A machine that has just been made. -/
theorem idles_fresh (settings : Settings) : World.Idles { machine := { settings } } := by
  refine ⟨⟨⟨nofun, nofun, nofun, fun v offers => ?_, fun r ⟨t, mem, _⟩ => ?_⟩, fun v offers => ?_, fun ref => ?_,
    nofun⟩, rfl, rfl⟩
  · cases offers with
    | plain plain => exact Value.within_of_isPlain plain
    | cell mem | type mem | field mem | receiver mem | method mem | part mem | item mem | entry mem =>
      exact absurd mem (Array.not_mem_empty _)
  · exact absurd mem (Array.not_mem_empty _)
  · cases offers with
    | global name found | registered name found => cases found
    | slot mem => exact absurd mem (Array.not_mem_empty _)
  · trivial

theorem runs_testing {n : Nat} {d : Chunk} (listed : Script.oneCase.chunks[n]? = some d) (arity : d.arity = 0) :
    (testing n 0).Runs := by
  have fresh := (idles_fresh { testsEnabled := true }).sound
  have small : Script.oneCase.Small := fun c mem => by
    obtain ⟨i, at_⟩ := Array.mem_iff_getElem?.mp mem
    match i, at_ with
    | 0, at_ | 1, at_ | 2, at_ =>
      cases at_
      decide
  have loaded : World.Sound
      { heap := { scripts := #[.oneCase] }, machine := { settings := { testsEnabled := true } } } :=
    ⟨fresh.heap.load Script.compiled_oneCase small, fresh.offers, fresh.natives, fresh.queue⟩
  have made := loaded.footing.addClosure (c := ⟨⟨0, n⟩, #[]⟩) ⟨.oneCase, d, rfl, listed⟩
  have pushed := (made.pushed (v := .closure 0) fun r same => by cases same; exact Nat.lt_succ_self 0).sound
  have sound : (testing n 0).Sound := pushed.onMachine rfl rfl (fun _ => id) fun v mem => pushed.offers v (.slot mem)
  have code : (testing n 0).heap.code 0 = d := by
    change (Script.oneCase.chunks[n]?.getD default) = d
    rw [listed]
    rfl
  refine ⟨sound, { closure := 0, base := 0 }, [], 0, rfl, Tower.upright (Tower.enter sound.heap (Nat.lt_succ_self 0) ?_
    (Nat.le_refl 0) nofun List.suffix_rfl fun _ leaves => ⟨rfl, leaves⟩)⟩
  rw [code, arity]
  rfl

/-- That script can be set aside at its beginning. -/
theorem suspended_testing : (Pausing.vacated (testing 2 0)).Idles ∧
    (testing 2 0).machine.suspension.Stands (Pausing.vacated (testing 2 0)).heap := by
  have runs : (testing 2 0).Runs := runs_testing rfl rfl
  constructor
  · exact ⟨runs.sound.onMachine rfl rfl (fun _ => id) fun _ mem => absurd mem (Array.not_mem_empty _), rfl, rfl⟩
  · exact ⟨fun v mem => runs.sound.offers v (.slot mem), runs.upright⟩

theorem World.Runs.stands {w : World} (runs : w.Runs) : w.Stands :=
  have ⟨f, fs, b, frames, upright⟩ := runs.upright
  ⟨runs.sound, #[], f, fs, b, [], frames, upright⟩

end ScriptEngine
