import ScriptEngine.Proofs.Levels
import ScriptEngine.Proofs.Referring

/-!
# Regions for several results

Wherever control comes in a complete chunk, a region that is open begins above
variables, none of which is dropped before the region ends. What a region left is
counted, and two instructions later the count is checked against the number that
the chunk expects. A closure for the next instruction only lies on top, and it is
taken at once.
-/
namespace ScriptEngine

/-- Where a region begins that is open or counted. -/
def Region.start? : Region → Option Nat
  | none => Option.none
  | opened s | counted s => some s

namespace Held

theorem isBound_of_isValue {e : Held} (h : e.isValue) : e.isBound = false := by
  cases e <;> first | rfl | cases h

theorem mem_of_at? {τ ρ : List Held} {n : Nat} {e : Held} (h : at? (τ ++ ρ) n = some e) (above : ρ.length ≤ n) :
    e ∈ τ := by
  unfold at? at h
  rw [List.reverse_append, List.getElem?_append_right (by simpa using above)] at h
  exact List.mem_reverse.mp (List.mem_of_getElem? h)

theorem le_closure {e : Held} {j : Nat} (h : e ≤ closure j) : e = closure j := by
  rcases le_def.mp h with h | ⟨-, h | h⟩
  · exact h
  · cases h
  · cases h

theorem le_byte {e : Held} {n : UInt8} (h : e ≤ byte n) : e = byte n := by
  rcases le_def.mp h with h | ⟨-, h | h⟩
  · exact h
  · cases h
  · cases h

theorem count_le {e : Held} (h : count ≤ e) : e = count := by
  rcases le_def.mp h with h | ⟨h, -⟩
  · exact h.symm
  · cases h

theorem closure_mem_of_le {a b : List Held} (h : List.Forall₂ (· ≤ ·) a b) {j : Nat} (mem : closure j ∈ b) :
    closure j ∈ a := by
  induction h with
  | nil => exact mem
  | cons le _ ih =>
    rcases List.mem_cons.mp mem with rfl | mem
    · exact le_closure le ▸ .head _
    · exact .tail _ (ih mem)

end Held

namespace Point

variable {p q : Point}

/-- A region begins above variables. -/
def Based (p : Point) : Prop :=
  ∀ s, p.region.start? = some s → ∀ n < s, ∃ name id, p.at? n = some (.bound name id)

/-- A closure that is handed on lies on top. -/
def Handed (p : Point) : Prop := ∀ j, .closure j ∉ p.held.tail

theorem Based.of_none (h : p.region = .none) : p.Based := fun s hs => by rw [h] at hs; cases hs

theorem Based.mono (h : p.Based) (le : p ≤ q) : q.Based := fun s hs n hn => by
  obtain ⟨name, id, found⟩ := h s (le.1 ▸ hs) n hn
  exact ⟨name, id, at?_bound le found⟩

theorem Based.le_height (h : p.Based) {s : Nat} (region : p.region.start? = some s) : s ≤ p.height := by
  cases s with
  | zero => exact Nat.zero_le _
  | succ n =>
    obtain ⟨name, id, found⟩ := h _ region n (Nat.lt_succ_self n)
    exact Held.lt_of_at? found

/-- What is taken off and put above a region leaves it where it is. -/
theorem Based.replace {τ σ ρ : List Held} {r : Region} (h : Based ⟨τ ++ ρ, r⟩) (free : ∀ e ∈ τ, e.isBound = false) :
    Based ⟨σ ++ ρ, r⟩ := by
  intro s hs n hn
  obtain ⟨name, id, found⟩ := h s hs n hn
  refine ⟨name, id, ?_⟩
  unfold at? at found ⊢
  rcases Nat.lt_or_ge n ρ.length with below | above
  · rwa [Held.at?_append_of_lt _ below] at found ⊢
  · have := free _ (Held.mem_of_at? found above)
    cases this

theorem Handed.mono (h : p.Handed) (le : p ≤ q) : q.Handed := by
  intro j mem
  have covers := le.2
  have none := h j
  generalize p.held = a at covers none
  generalize q.held = b at covers mem
  cases covers with
  | nil => cases mem
  | cons _ covers => exact none (Held.closure_mem_of_le covers mem)

end Point

section Finished
variable {known : Array Chunk} {c : Chunk} {N : Notes} {o : Nat} {i : Instruction} {p q : Point}

/-- An instruction for the closure on top, or one between the closure and that. -/
def Instruction.isHanded : Instruction → Bool
  | initChain | testSet _ | capture _ => true
  | _ => false

theorem Suits.no_closure (h : Suits p i) (other : i.isHanded = false) (j : Nat) : .closure j ∉ p.held := fun mem => by
  obtain rfl | ⟨n, rfl⟩ | hi := h.handed j mem
  · cases other
  · cases other
  · cases i <;> cases hi
    cases other

theorem not_isHanded_of_effect {takes gives : Nat} (h : i.effect = some (takes, gives)) : i.isHanded = false := by
  cases i <;> first | rfl | cases h

theorem Effect.based (h : Effect known c i p q) (suits : Suits p i) (based : p.Based) : q.Based := by
  cases h with
  | plain effect length values => exact based.replace fun e he => Held.isBound_of_isValue (values e he)
  | byte => exact based.replace (τ := []) (σ := [_]) nofun
  | drop => exact .of_none (suits.drops (.inl rfl) _ _ _ rfl)
  | close => exact .of_none (suits.drops (.inr rfl) _ _ _ rfl)
  | closure => exact based.replace (τ := []) (σ := [_]) nofun
  | special => exact based.replace (τ := []) (σ := [_]) nofun
  | capture => exact based
  | chain => exact based.replace (τ := [_]) (σ := []) (by simp [Held.isBound])
  | set => exact based.replace (τ := [_]) (σ := []) (by simp [Held.isBound])
  | @start held =>
    rintro s ⟨⟩ n hn
    cases found : held.reverse[n]? with
    | none =>
      rw [List.getElem?_eq_none_iff, List.length_reverse] at found
      omega
    | some e =>
      have variable_ := suits.starts rfl e (List.mem_reverse.mp (List.mem_of_getElem? found))
      cases e with
      | bound name id => exact ⟨name, id, found⟩
      | _ => cases variable_
  | @finish e rest value =>
    rintro s ⟨⟩ n hn
    obtain ⟨name, id, found⟩ := based _ rfl n hn
    exact ⟨name, id, (Held.at?_append_of_lt [_] (Held.lt_of_at? found)).trans found⟩
  | validate => exact .of_none rfl

theorem Effect.handed (h : Effect known c i p q) (suits : Suits p i) (handed : p.Handed) : q.Handed := by
  have kept (other : i.isHanded = false) {held : List Held} {r : Region}
      (from_ : ∀ j, .closure j ∈ held → .closure j ∈ p.held) : Point.Handed ⟨held, r⟩ := fun j mem =>
    suits.no_closure other j (from_ j (List.mem_of_mem_tail mem))
  cases h with
  | plain effect =>
    refine kept (not_isHanded_of_effect effect) fun j mem => ?_
    rcases List.mem_append.mp mem with mem | mem
    · cases List.eq_of_mem_replicate mem
    · exact List.mem_append_right _ mem
  | byte => exact kept rfl fun j mem => by simpa using mem
  | drop => exact kept rfl fun j mem => .tail _ mem
  | close => exact kept rfl fun j mem => .tail _ mem
  | closure => exact kept rfl fun j mem => by simpa using mem
  | special => exact fun j mem => suits.no_closure rfl j mem
  | capture => exact handed
  | chain => exact fun j mem => handed j (List.mem_of_mem_tail mem)
  | set => exact fun j mem => handed j (List.mem_of_mem_tail mem)
  | start => exact kept rfl fun j mem => mem
  | finish => exact kept rfl fun j mem => by simpa using mem
  | validate =>
    refine kept rfl fun j mem => ?_
    rcases List.mem_append.mp mem with mem | mem
    · cases List.eq_of_mem_replicate mem
    · exact .tail _ (.tail _ (.tail _ mem))

theorem Finished.suits (h : Finished known c N) (code : c.code[o]? = some i) : Suits (N.point o) i := by
  obtain ⟨width, -, -, draft⟩ := h.draft
  exact draft.flow.suits o i code

/-- What holds at the entry and is kept by every instruction holds wherever control comes. -/
theorem Finished.always {P : Point → Prop} (h : Finished known c N) (entry : P (N.point 0))
    (mono : ∀ {p q : Point}, P p → p ≤ q → P q)
    (step : ∀ {i : Instruction} {p q : Point}, Effect known c i p q → Suits p i → P p → P q)
    (reachable : N.layout.Reachable c o) : P (N.point o) := by
  induction reachable with
  | entry => exact entry
  | next _ code falls ih =>
    obtain ⟨p, effect, next, -⟩ := h.effect code
    exact mono (step effect (h.suits code) ih) (next falls)
  | jump _ code target ih =>
    obtain ⟨p, effect, -, jumps⟩ := h.effect code
    exact mono (step effect (h.suits code) ih) (jumps _ target)

theorem Finished.based (h : Finished known c N) (reachable : N.layout.Reachable c o) : (N.point o).Based := by
  refine h.always (.of_none ?_) .mono (fun effect => effect.based) reachable
  obtain ⟨ps, id, entry, -⟩ := h.entry
  rw [entry]
  rfl

theorem Finished.handed (h : Finished known c N) (reachable : N.layout.Reachable c o) : (N.point o).Handed := by
  refine h.always ?_ .mono (fun effect => effect.handed) reachable
  obtain ⟨ps, id, entry, -⟩ := h.entry
  rw [entry]
  intro j mem
  have := List.mem_of_mem_tail mem
  simp [calmPoint, bounds] at this

/-- Once values have been counted, the number that is expected of them is pushed, or it is there and both are
compared. -/
theorem Suits.counted_cases {s : Nat} (suits : Suits p i) (effect : Effect known c i p q) (region : p.region = .counted s) :
    (∃ m held, i = .pushByte m ∧ p.held = .count :: held) ∨
    ∃ m e rest, i = .validate .multiReturnMatches ∧ p.held = .byte m :: .count :: e :: rest ∧ rest.length = s ∧
      q = ⟨List.replicate m.toNat .value ++ rest, .none⟩ := by
  obtain ⟨m, rfl, top⟩ | rfl := suits.counted s region
  · cases split : p.held with
    | nil =>
      rw [split] at top
      cases top
    | cons e held =>
      rw [split] at top
      cases top
      exact .inl ⟨m, held, rfl, rfl⟩
  · cases effect with
    | plain effect => cases effect
    | @validate m e rest value =>
      cases region
      exact .inr ⟨m, e, rest, rfl, rfl, rfl, rfl⟩

/-- The number that is expected of a count is known where it is checked. -/
theorem Finished.expects {s : Nat} {m : UInt8} {held : List Held} (h : Finished known c N)
    (code : c.code[o]? = some (.pushByte m)) (at_ : N.point o = ⟨.count :: held, .counted s⟩) :
    ⟨.byte m :: .count :: held, .counted s⟩ ≤ N.point (o + 1) := by
  obtain ⟨p, effect, next, -⟩ := h.effect code
  have le := next rfl
  rw [at_] at effect
  generalize from_ : (⟨.count :: held, .counted s⟩ : Point) = start at effect
  cases effect with
  | byte =>
    cases from_
    exact le
  | @plain _ takes gives τ ρ r effect length values =>
    -- a value in place of the number could not be compared
    cases effect
    obtain rfl := List.length_eq_zero_iff.mp length
    cases from_
    obtain ⟨i, code'⟩ : ∃ i, c.code[o + 1]? = some i := ⟨_, Array.getElem?_eq_getElem (h.next code rfl)⟩
    obtain ⟨p', effect', -⟩ := h.effect code'
    obtain ⟨b, rest, top, -, split⟩ := List.forall₂_cons_left_iff.mp le.2
    obtain ⟨_, _, -, counted⟩ | ⟨m', e, rest', -, checked, -⟩ := (h.suits code').counted_cases effect' le.1.symm
    · rw [split] at counted
      cases counted
      rcases Held.le_def.mp top with top | ⟨-, top | top⟩ <;> cases top
    · rw [split] at checked
      cases checked
      cases Held.le_byte top

/-- The number that is expected lies on top where it is compared. -/
theorem Finished.expected (finished : Finished known c N) {k : UInt8} {start : Nat} {held : List Held}
    (code : c.code[o]? = some (.pushByte k)) (at_ : N.point o = ⟨.count :: held, .counted start⟩) :
    (N.point (o + 1)).held.head? = some (.byte k) := by
  have le := finished.expects code at_
  obtain ⟨i, code'⟩ : ∃ i, c.code[o + 1]? = some i := ⟨_, Array.getElem?_eq_getElem (finished.next code rfl)⟩
  obtain ⟨p, effect, -⟩ := finished.effect code'
  obtain ⟨top, _, above, -, split⟩ := List.forall₂_cons_left_iff.mp le.2
  obtain ⟨_, _, -, counted⟩ | ⟨k', e, rest, -, compared, -⟩ := (finished.suits code').counted_cases effect le.1.symm
  · rw [split] at counted
    cases counted
    rcases Held.le_def.mp above with above | ⟨-, above | above⟩ <;> cases above
  · rw [split] at compared
    cases compared
    rw [split, Held.le_byte above]
    rfl

/-- The end of a region is followed by the number of values that is expected of it and by the check. -/
theorem Finished.region_end {e : Held} {rest : List Held} (h : Finished known c N)
    (code : c.code[o]? = some .multiVarEnd) (at_ : N.point o = ⟨e :: rest, .opened rest.length⟩) :
    ∃ m, c.code[o + 1]? = some (.pushByte m) ∧ c.code[o + 2]? = some (.validate .multiReturnMatches) := by
  obtain ⟨p, effect, next, -⟩ := h.effect code
  have le := next rfl
  rw [at_] at effect
  generalize from_ : (⟨e :: rest, .opened rest.length⟩ : Point) = start at effect
  cases effect with
  | plain effect => cases effect
  | finish value =>
    cases from_
    obtain ⟨i, code₁⟩ : ∃ i, c.code[o + 1]? = some i := ⟨_, Array.getElem?_eq_getElem (h.next code rfl)⟩
    obtain ⟨p₁, effect₁, next₁, -⟩ := h.effect code₁
    obtain ⟨b, held, top, -, split⟩ := List.forall₂_cons_left_iff.mp le.2
    obtain rfl := Held.count_le top
    obtain ⟨m, -, rfl, -⟩ | ⟨m, e, rest, -, checked, -⟩ := (h.suits code₁).counted_cases effect₁ le.1.symm
    · have at₁ : N.point (o + 1) = ⟨.count :: held, .counted rest.length⟩ := by
        rw [← split]
        exact congrArg (Point.mk _) le.1.symm
      have le₁ := h.expects code₁ at₁
      obtain ⟨i, code₂⟩ : ∃ i, c.code[o + 2]? = some i := ⟨_, Array.getElem?_eq_getElem (h.next code₁ rfl)⟩
      obtain ⟨p₂, effect₂, -⟩ := h.effect code₂
      obtain ⟨_, _, -, counted⟩ | ⟨-, -, -, rfl, -⟩ := (h.suits code₂).counted_cases effect₂ le₁.1.symm
      · obtain ⟨b, held', top', -, split'⟩ := List.forall₂_cons_left_iff.mp le₁.2
        rw [split'] at counted
        cases counted
        rcases Held.le_def.mp top' with top' | ⟨-, top' | top'⟩ <;> cases top'
      · exact ⟨m, code₁, code₂⟩
    · rw [split] at checked
      cases checked

end Finished

/-- A script takes no arguments. -/
theorem Script.Made.top_arity {tokens : List Token} {scriptName : String} {s : Script} (made : Made tokens scriptName s) :
    ∃ d, s.chunks.back? = some d ∧ d.arity = 0 := by
  obtain ⟨mid, last, O, a, -, final, moves, complete, run, chunks⟩ := made.assembled
  obtain ⟨-, -, -, top, -⟩ := traced_program final moves complete run
  exact chunks ▸ top

end ScriptEngine
