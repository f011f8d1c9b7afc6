import ScriptEngine.Proofs.Advancing

/-!
# Execution keeps its footing

What a step leaves, the next step starts from: an execution that began in an upright
world comes to worlds that are upright, until what the call was to leave is there. So a
host call leaves the machine as it found it, however deep calls are nested, and a watch
that looks at worlds along the way finds nothing amiss.
-/
namespace ScriptEngine

open Run

section

variable {G : Footing} {F : Array Frame} {n m : Nat} {w w' : World} {x y : Reentry} {f : Frame} {fs : List Frame}
  {s : Script} {c : Chunk} {N : Notes} {b : Nat} {ms M entry : List Nat} {p q : Point} {i : Instruction}
  {τ ρ : List Held} {r : Region} {a a' : Run Unit}

/-! ## Every instruction -/

theorem falls_of_isStraight (straight : i.isStraight) : i.falls := by
  cases i <;> first | rfl | cases straight

theorem leavesCalm_of_effect {takes gives : Nat} (effect : i.effect = some (takes, gives)) : i.leavesCalm := by
  cases i <;> first | rfl | cases effect

/-- The frame is left, or set aside. -/
def Instruction.isWayOut : Instruction → Bool
  | ret _ | yield => true
  | _ => false

/-- A call of what lies below the values that the instruction takes. -/
theorem goes_call (stance : Stance G.world.heap b ms f fs s c N entry) (floor : G.floor ≤ b) {o : Nat}
    (reachable : N.layout.Reachable c o) (spans : Spans f.base ⟨τ ++ ρ, r⟩ entry w.machine.stack.size M)
    (point : ⟨.value :: ρ, r⟩ ≤ N.point o) (calm : (N.point o).Calm) (bottom : 0 < ρ.length)
    (based : ∀ k, r.start? = some k → k ≤ ρ.length)
    (calls : ∀ base, G.floor ≤ base → w.machine.stack.size = base + τ.length → Low M base →
      Sure G a a' w fun _ w' => G.Calls ((piled F fs).push { f with ip := o }) M n base w') :
    Sure G a a' w fun _ w' => G.Goes F (f :: fs) b ms n .next w' := by
  have above := stance.above
  have le := spans.le
  unfold Point.height at le
  rw [List.length_append] at le
  have size : w.machine.stack.size = w.machine.stack.size - τ.length + τ.length := by omega
  exact (calls _ (by omega) size (spans.low stance.low based size)).mono fun _ _ =>
    goes_called stance reachable spans point calm bottom size

/-- An instruction that takes and leaves temporaries. -/
theorem Sturdy.goes_effect (sturdy : Sturdy x y) (stance : Stance G.world.heap b ms f fs s c N entry)
    (floor : G.floor ≤ b) (below : G.frames <+: (piled F fs).toList) (code : c.code[f.ip]? = some i)
    (heap : w.heap = G.world.heap) (h : G.At ((piled F fs).push { f with ip := f.ip + 1 }) M n w)
    {takes gives : Nat} (effect : i.effect = some (takes, gives)) (length : τ.length = takes)
    (ordinary : i.isWayOut = false)
    (values : ∀ e ∈ τ, e.isValue)
    (spans : Spans f.base ⟨τ ++ ρ, r⟩ entry w.machine.stack.size M) (calm : Point.Calm ⟨τ ++ ρ, r⟩)
    (based : Point.Based ⟨τ ++ ρ, r⟩) (bottom : 0 < ρ.length)
    (next : i.falls → ⟨List.replicate gives .value ++ ρ, r⟩ ≤ N.point (f.ip + 1))
    (jumps : ∀ label, i.target? = some label →
      ⟨List.replicate gives .value ++ ρ, r⟩ ≤ N.point (N.layout.place label.toNat)) :
    Sure G (plain x i) (plain y i) w fun _ w' => G.Goes F (f :: fs) b ms n .next w' := by
  have reachable (falls : i.falls) := stance.stand.reachable.next code falls
  have based (k : Nat) (start : r.start? = some k) : k ≤ ρ.length := by
    have based : Point.Based ⟨[] ++ ρ, r⟩ := based.replace fun e mem => Held.isBound_of_isValue (values e mem)
    exact based.le_height start
  have calm : Point.Calm ⟨List.replicate gives .value ++ ρ, r⟩ :=
    have plain : Effect s.chunks c i _ _ := .plain effect length values
    plain.calm calm (leavesCalm_of_effect effect)
  have replaced : Spans f.base ⟨List.replicate gives .value ++ ρ, r⟩ entry
      (w.machine.stack.size - takes + gives) M := by
    have room := spans.le
    unfold Point.height at room
    rw [List.length_append] at room
    exact spans.replace (by rw [List.length_replicate]; omega)
  by_cases straight : i.isStraight
  · have falls := falls_of_isStraight straight
    exact sturdy.goes_straight stance h floor (reachable falls) (length ▸ effect) straight spans (next falls)
      (calm.mono (next falls))
  · have inside : 0 < ((piled F fs).push { f with ip := f.ip + 1 }).size := by simp
    have code' : w.heap.code f.closure = c := heap ▸ stance.stand.code
    cases i with
    | goto label =>
      cases effect
      refine sure_goto h below fun offset w' placed h' stack _ => ?_
      rw [code'] at placed
      exact goes_jump stance placed code rfl h' calm (jumps label rfl) (stack ▸ replaced)
    | gotoIfFalse label =>
      cases effect
      have size : w.machine.stack.size - 1 + 1 = w.machine.stack.size := by
        have room := stance.room floor spans
        omega
      rw [size] at replaced
      refine sure_gotoIfFalse h below ?_ fun offset w' placed h' stack _ => ?_
      · exact goes_calm stance (Nat.le_refl n) h (reachable rfl) replaced (next rfl) calm
      · rw [code'] at placed
        exact goes_jump stance placed code rfl h' calm (jumps label rfl) (stack ▸ replaced)
    | call | invoke | superInvoke =>
      cases effect
      exact goes_call stance floor (reachable rfl) spans (next rfl) (calm.mono (next rfl)) bottom based
        fun base above size low => sturdy.sure_calls h inside above rfl (length ▸ size) low
    | throw =>
      cases effect
      exact sure_throwTop h (by have := stance.room floor spans; omega)
    | ret | yield => cases ordinary
    | _ => exact absurd rfl straight

/-- An instruction that does not lead out of the frame. -/
theorem Sturdy.goes_plain (sturdy : Sturdy x y) (stance : Stance G.world.heap b ms f fs s c N entry)
    (floor : G.floor ≤ b) (below : G.frames <+: (piled F fs).toList) (within : G.marks <:+ ms)
    (code : c.code[f.ip]? = some i) (heap : w.heap = G.world.heap)
    (h : G.At ((piled F fs).push { f with ip := f.ip + 1 }) M n w) (ordinary : i.isWayOut = false)
    (spans : Spans f.base (N.point f.ip) entry w.machine.stack.size M)
    (tops : Tops G.world.heap f (N.point f.ip) w.machine.stack) :
    Sure G (plain x i) (plain y i) w fun _ w' => G.Goes F (f :: fs) b ms n .next w' := by
  have stand := stance.stand
  have finished := stand.finished
  obtain ⟨q, effect, next, jumps⟩ := finished.effect code
  have suits := finished.suits code
  have based := finished.based stand.reachable
  have handed := finished.handed stand.reachable
  obtain ⟨name, id, bottom⟩ := finished.bottom stand.reachable
  have reachable (falls : i.falls) := stand.reachable.next code falls
  by_cases counted : ∃ start, (N.point f.ip).region = .counted start
  · obtain ⟨start, region⟩ := counted
    obtain ⟨k, held, rfl, split⟩ | ⟨k, e, rest, rfl, split, rfl, rfl⟩ := suits.counted_cases effect region
    · have at_ : N.point f.ip = ⟨.count :: held, .counted start⟩ := by rw [← split, ← region]
      rw [at_] at spans tops handed
      exact goes_expect stance h (reachable rfl) spans tops handed (finished.expects code at_)
        (finished.expected code at_)
    · have at_ : N.point f.ip = ⟨.byte k :: .count :: e :: rest, .counted rest.length⟩ := by rw [← split, ← region]
      rw [at_] at spans tops handed
      have calm : Point.Calm ⟨List.replicate k.toNat .value ++ rest, .none⟩ := ⟨fun j mem => ?_, nofun⟩
      · exact goes_validate stance floor h (reachable rfl) spans tops (next rfl) (calm.mono (next rfl))
      rcases List.mem_append.mp mem with mem | mem
      · cases List.eq_of_mem_replicate mem
      · exact handed j (.tail _ (.tail _ mem))
  · have open_ (k : Nat) (region : (N.point f.ip).region = .counted k) : False := counted ⟨k, region⟩
    generalize at_ : N.point f.ip = p at effect suits based handed bottom spans tops open_
    have calm (other : i.isHanded = false) : p.Calm := suits.calm other fun k region => open_ k region
    have above := effect.above bottom
    have stays (other : i.isHanded = false) (leaves : i.leavesCalm) : q.Calm := effect.calm (calm other) leaves
    cases effect with
    | plain effect length values =>
      rw [balance_of_effect effect] at above
      unfold Point.height at above
      rw [List.length_append] at above
      exact sturdy.goes_effect stance floor below code heap h effect length ordinary values spans
        (calm (not_isHanded_of_effect effect)) based (by omega) next jumps
    | @byte k held r =>
      exact (turns_push h (Value.within_of_isPlain rfl)).moves.mono fun _ _ =>
        goes_moved (τ := []) (σ := [.byte k]) stance (reachable rfl) spans (next rfl) ((stays rfl rfl).mono (next rfl))
    | @drop x id e rest r =>
      exact (turns_pop h (stance.room (τ := [.bound x id]) floor spans)).moves.mono fun _ _ =>
        goes_moved (τ := [.bound x id]) (σ := []) stance (reachable rfl) spans (next rfl)
          ((stays rfl rfl).mono (next rfl))
    | @close x id e rest r =>
      exact (turns_closeTop h (stance.room (τ := [.bound x id]) floor spans)).moves.mono fun _ _ =>
        goes_moved (τ := [.bound x id]) (σ := []) stance (reachable rfl) spans (next rfl)
          ((stays rfl rfl).mono (next rfl))
    | closure constant chunk ordinary =>
      exact goes_closure stance floor below heap h (reachable rfl) constant chunk (.inl rfl)
        (calm rfl).closure open_ spans
        (next rfl)
    | special constant chunk =>
      exact goes_closure stance floor below heap h (reachable rfl) constant chunk (.inr rfl)
        (calm rfl).closure open_ spans
        (next rfl)
    | capture => exact sure_refuse h.holds nofun
    | chain chunk arity ordinary =>
      have calm : Point.Calm ⟨_ :: _, _⟩ := ⟨handed, open_⟩
      exact goes_chain stance floor heap h (reachable rfl) chunk arity spans tops (next rfl) (calm.mono (next rfl))
    | @set k j rest r =>
      have calm : Point.Calm ⟨rest, r⟩ := ⟨handed, open_⟩
      refine (sturdy.sure_testSet h (by simp) (stance.room (τ := [.closure j]) floor spans) k).mono fun _ w' moved => ?_
      exact goes_moved (τ := [.closure j]) (σ := []) stance (reachable rfl) spans (next rfl)
        (calm.mono (next rfl)) moved
    | start =>
      exact goes_start stance h (reachable rfl) spans (next rfl) ((stays rfl rfl).mono (next rfl))
    | finish value => exact goes_finish stance within h (reachable rfl) spans (calm rfl).closure (next rfl)
    | validate value => exact absurd rfl (open_ _)

/-- One instruction of the innermost frame. -/
theorem Sturdy.sure_cycle (sturdy : Sturdy x y) (h : G.At (piled F (f :: fs)) M n G.world) (floor : G.floor ≤ b)
    (below : G.frames = F.toList) (within : G.marks <:+ ms)
    (upright : Upright G.world.heap G.world.machine.stack b ms (f :: fs) M) :
    Sure G (cycle x F.size) (cycle y F.size) G.world (G.Goes F (f :: fs) b ms n) := by
  obtain ⟨s, c, N, entry, stance, spans, tops⟩ := upright
  have stand := stance.stand
  have finished := stand.finished
  have prefix_ : G.frames <+: (piled F fs).toList := by
    rw [below, toList_piled]
    exact List.prefix_append _ _
  rw [piled_cons] at h
  refine sure_bind (sure_fetch h prefix_ fun i w₁ code h₁ stack heap => sure_located ?_)
  rw [stand.code] at code
  rw [← stack] at spans tops
  have way (out : i.isWayOut) : ∃ takes τ ρ r, i.effect = some (takes, 0) ∧ τ.length = takes ∧
      N.point f.ip = ⟨τ ++ ρ, r⟩ ∧
      (i.falls → ⟨ρ, r⟩ ≤ N.point (f.ip + 1)) := by
    obtain ⟨q, effect, next, -⟩ := finished.effect code
    generalize N.point f.ip = p at effect
    cases effect with
    | @plain _ takes gives τ ρ r effect length values =>
      have none : gives = 0 := by
        cases i <;> first | exact (Prod.mk.inj (Option.some.inj effect)).2.symm | cases out
      subst none
      exact ⟨takes, τ, ρ, r, effect, length, rfl, next⟩
    | _ => cases out
  obtain ⟨width, -, -, draft⟩ := finished.draft
  have fits := draft.flow.fits f.ip i code
  by_cases out : i.isWayOut
  · cases i with
    | ret count =>
      obtain ⟨some, region⟩ := fits.results count rfl
      obtain ⟨_, τ, ρ, r, ⟨⟩, length, at_, -⟩ := way rfl
      rw [at_] at spans region
      cases region
      have room := spans.le
      unfold Point.height at room
      rw [List.length_append] at room
      exact sure_returnFrom stance floor below h₁ some spans.1 (by omega)
    | yield =>
      obtain ⟨_, τ, ρ, r, ⟨⟩, length, at_, next⟩ := way rfl
      obtain rfl := List.length_eq_zero_iff.mp length
      have region := fits.calm rfl
      have calm := (finished.suits code).calm rfl fun k counted => by
        rw [region] at counted
        cases counted
      rw [at_] at spans calm
      exact goes_yield stance (stand.reachable.next code rfl) h₁ (next rfl) calm spans
    | _ => cases out
  · have step (again : Reentry) : step again F.size i = (do plain again i; return .next) := by
      cases i <;> first | rfl | exact absurd rfl out
    rw [step, step]
    exact sure_bind ((sturdy.goes_plain stance floor prefix_ within code heap h₁ (by simpa using out) spans tops).mono
      fun _ _ => sure_pure)

end

end ScriptEngine
