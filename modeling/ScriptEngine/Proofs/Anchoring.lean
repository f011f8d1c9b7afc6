import ScriptEngine.Proofs.Regions

/-!
# Captured variables are not dropped

Whether a variable is dropped as it is or gets a value of its own is decided when the drop
is written, from the captures that have been written by then. A capture further on may still
have been carried out before, in an earlier round of a loop. But then the capture lies in the
loop, as the drop does, and control comes back only to the start of the loop, where the stack
holds no more than what was declared outside of it; so the variable was declared outside, and
no drop in the loop goes down to it.

`Anchors` says this of a slot: the variable in it may have been captured by the time control
comes to an offset. Every instruction keeps that up, and a drop of the variable goes against it.
-/
namespace ScriptEngine

/-- The variable in slot `n` may have been captured ahead of the instruction at `o`: by a word further up, or by
one further down in a loop that is open there and outside of which the variable was declared. -/
def Notes.Anchors (N : Notes) (o n : Nat) : Prop :=
  ∃ name id q, (N.point o).at? n = some (.bound name id) ∧ (q, id) ∈ N.caught ∧
    (q < o ∨ ∃ r ∈ N.rounds o, r ∈ N.rounds q ∧ n < r.2)

section

variable {known : Array Chunk} {c : Chunk} {N : Notes} {o n : Nat} {i : Instruction} {p q : Point} {name : String}
  {id : Nat}

/-! ## Variables below what an instruction takes -/

/-- A variable below the temporaries that an instruction replaces stays where it is. -/
theorem Point.at?_replace {τ σ ρ : List Held} {r r' : Region} (found : Point.at? ⟨τ ++ ρ, r⟩ n = some (.bound name id))
    (free : ∀ e ∈ τ, e.isBound = false) :
    n < ρ.length ∧ Point.at? ⟨σ ++ ρ, r'⟩ n = some (.bound name id) := by
  unfold Point.at? at found ⊢
  rcases Nat.lt_or_ge n ρ.length with below | above
  · rw [Held.at?_append_of_lt _ below] at found ⊢
    exact ⟨below, found⟩
  · cases free _ (Held.mem_of_at? found above)

/-- A variable is the one that is dropped or closed, or it stays where it is, below what is taken. -/
theorem Effect.at?_bound (effect : Effect known c i p q) (found : p.at? n = some (.bound name id)) :
    (n + (i.balance p).1 < p.height ∧ q.at? n = some (.bound name id)) ∨
      (i = .pop ∨ i = .closeUpvalue) ∧ ∃ rest, p.held = .bound name id :: rest ∧ n = rest.length := by
  have replaced {τ σ ρ : List Held} {r r' : Region} (balance : (i.balance ⟨τ ++ ρ, r⟩).1 = τ.length)
      (free : ∀ e ∈ τ, e.isBound = false) (found : Point.at? ⟨τ ++ ρ, r⟩ n = some (.bound name id)) :
      n + (i.balance ⟨τ ++ ρ, r⟩).1 < Point.height ⟨τ ++ ρ, r⟩ ∧
        Point.at? ⟨σ ++ ρ, r'⟩ n = some (.bound name id) := by
    obtain ⟨below, stays⟩ : n < ρ.length ∧ Point.at? ⟨σ ++ ρ, r'⟩ n = some (.bound name id) :=
      Point.at?_replace found free
    refine ⟨?_, stays⟩
    rw [balance, Point.height, List.length_append]
    omega
  -- a variable on top is the one that the instruction is about
  have topped {name' : String} {id' : Nat} {rest : List Held} {r : Region}
      (takes : (i.balance ⟨.bound name' id' :: rest, r⟩).1 = 1)
      (found : Point.at? ⟨.bound name' id' :: rest, r⟩ n = some (.bound name id)) :
      (n + (i.balance ⟨.bound name' id' :: rest, r⟩).1 < Point.height ⟨.bound name' id' :: rest, r⟩ ∧
        Point.at? ⟨rest, r⟩ n = some (.bound name id)) ∨
      ∃ rest', Held.bound name' id' :: rest = .bound name id :: rest' ∧ n = rest'.length := by
    unfold Point.at? at found ⊢
    have inside := Held.lt_of_at? found
    rw [Held.at?_cons] at found
    split_ifs at found with top
    · cases found
      exact .inr ⟨rest, rfl, top⟩
    · rw [List.length_cons] at inside
      rw [takes, Point.height, List.length_cons]
      exact .inl ⟨by omega, found⟩
  cases effect with
  | @plain _ takes gives τ ρ r effect length values =>
    refine .inl (replaced ?_ (fun e mem => Held.isBound_of_isValue (values e mem)) found)
    rw [balance_of_effect effect, length]
  | @byte k held r => exact .inl (replaced (τ := []) (σ := [.byte k]) rfl (List.forall_mem_nil _) found)
  | drop => exact (topped rfl found).imp_right fun top => ⟨.inl rfl, top⟩
  | close => exact (topped rfl found).imp_right fun top => ⟨.inr rfl, top⟩
  | @closure k j d held r => exact .inl (replaced (τ := []) (σ := [.value]) rfl (List.forall_mem_nil _) found)
  | @special k j d held r => exact .inl (replaced (τ := []) (σ := [.closure j]) rfl (List.forall_mem_nil _) found)
  | capture => exact .inl (replaced (τ := []) (σ := []) rfl (List.forall_mem_nil _) found)
  | @chain j d e rest r => exact .inl (replaced (τ := [.closure j]) (σ := []) rfl (by simp [Held.isBound]) found)
  | @set k j rest r => exact .inl (replaced (τ := [.closure j]) (σ := []) rfl (by simp [Held.isBound]) found)
  | start => exact .inl (replaced (τ := []) (σ := []) rfl (List.forall_mem_nil _) found)
  | @finish e rest value => exact .inl (replaced (τ := []) (σ := [.count]) rfl (List.forall_mem_nil _) found)
  | @validate k e rest value =>
    refine .inl (replaced (τ := [.byte k, .count, e]) rfl ?_ found)
    have free := Held.isBound_of_isValue value
    exact List.forall_mem_cons.mpr ⟨rfl, List.forall_mem_cons.mpr ⟨rfl, List.forall_mem_singleton.mpr free⟩⟩

/-! ## The way of a captured variable -/

/-- A captured variable is not dropped as it is: it stays where it is, below what an instruction takes, or is closed. -/
theorem Finished.anchored (h : Finished known c N) (code : c.code[o]? = some i)
    (effect : Effect known c i (N.point o) p)
    (anchors : N.Anchors o n) :
    (n + (i.balance (N.point o)).1 < (N.point o).height ∧
        ∀ name id, (N.point o).at? n = some (.bound name id) → p.at? n = some (.bound name id)) ∨
      i = .closeUpvalue ∧ n + 1 = (N.point o).height := by
  obtain ⟨width, -, -, draft⟩ := h.draft
  obtain ⟨name, id, q, found, caught, when⟩ := anchors
  rcases effect.at?_bound found with ⟨below, stays⟩ | ⟨rfl | rfl, rest, held, top⟩
  · refine .inl ⟨below, fun name' id' found' => ?_⟩
    rwa [← found', found]
  · -- the capture comes later, so it lies in a loop that the drop does not reach out of
    have later := draft.words.drop o name id rest code held q caught
    rcases when with before | ⟨r, here, -, outside⟩
    · omega
    · have := draft.flow.within o name id rest code held r here
      omega
  · rw [Point.height, held, List.length_cons]
    exact .inr ⟨rfl, by omega⟩

/-- A variable that has been captured ahead of an instruction has been so behind it. -/
theorem Finished.anchors_next (h : Finished known c N) (code : c.code[o]? = some i) (falls : i.falls)
    (other : i ≠ .closeUpvalue ∨ n + 1 < (N.point o).height) (anchors : N.Anchors o n) : N.Anchors (o + 1) n := by
  obtain ⟨p, effect, next, -⟩ := h.effect code
  obtain ⟨width, -, -, draft⟩ := h.draft
  have stays : ∀ name id, (N.point o).at? n = some (.bound name id) → p.at? n = some (.bound name id) := by
    rcases h.anchored code effect anchors with ⟨-, stays⟩ | ⟨close, top⟩
    · exact stays
    · rcases other with other | below
      · exact absurd close other
      · omega
  obtain ⟨name, id, q, found, caught, when⟩ := anchors
  refine ⟨name, id, q, Point.at?_bound (next falls) (stays name id found), caught, ?_⟩
  rcases when with before | ⟨r, here, there, outside⟩
  · exact .inl (by omega)
  · by_cases passed : q < o + 1
    · exact .inl passed
    · have inside := (draft.words.older q id caught).1
      exact .inr ⟨r, draft.flow.whole o (o + 1) q r (by omega) (by omega) (by omega) here there, there, outside⟩

/-- A jump leads out of loops, or back to the start of a loop that leaves alone what was declared outside. -/
theorem Finished.anchors_jump (h : Finished known c N) (code : c.code[o]? = some i) {label : UInt16}
    (target : i.target? = some label) (anchors : N.Anchors o n) : N.Anchors (N.layout.place label.toNat) n := by
  obtain ⟨width, -, -, draft⟩ := h.draft
  obtain ⟨p, effect, -, jumps⟩ := draft.flow.step o i code
  obtain ⟨t, placed, place⟩ := h.label code target
  obtain ⟨-, bound, want, -⟩ := draft.flow.placed _ t placed
  obtain ⟨-, le⟩ := jumps label target
  have stays : ∀ name id, (N.point o).at? n = some (.bound name id) → p.at? n = some (.bound name id) := by
    rcases h.anchored code effect anchors with ⟨-, stays⟩ | ⟨rfl, -⟩
    · exact stays
    · cases target
  obtain ⟨name, id, q, found, caught, when⟩ := anchors
  have wanted := Point.at?_bound le (stays name id found)
  rw [place]
  refine ⟨name, id, q, Point.at?_bound want wanted, caught, ?_⟩
  by_cases passed : q < t
  · exact .inl passed
  have inside := (draft.words.older q id caught).1
  rcases Nat.lt_or_ge o t with forward | back
  · rcases when with before | ⟨r, here, there, outside⟩
    · omega
    · exact .inr ⟨r, draft.flow.whole o t q r (by omega) (by omega) (by omega) here there, there, outside⟩
  · -- the label lies at the start of a loop outside of which the variable was declared
    obtain ⟨r, here, height, rounds⟩ := draft.flow.back o i label t code target placed back
    have below := Nat.lt_of_lt_of_le (Held.lt_of_at? wanted) height
    rcases when with before | ⟨r', here', there, outside⟩
    · have started := rounds r here
      have there := draft.flow.whole t q o r (by omega) (by omega) (lt_size_of_code code).le started here
      exact .inr ⟨r, started, there, below⟩
    · exact .inr ⟨r', rounds r' here', there, outside⟩

/-- The variable that a word captures has been captured behind it. -/
theorem Finished.anchors_capture (h : Finished known c N) {index : UInt8}
    (code : c.code[o]? = some (.capture ⟨true, index⟩)) : N.Anchors (o + 1) index.toNat := by
  obtain ⟨width, -, -, draft⟩ := h.draft
  obtain ⟨name, id, found, caught⟩ := draft.words.caught o index code
  obtain ⟨p, effect, next, -⟩ := h.effect code
  refine ⟨name, id, o, Point.at?_bound (next rfl) ?_, caught, .inl (Nat.lt_succ_self o)⟩
  rcases effect.at?_bound found with ⟨-, stays⟩ | ⟨drops | closes, -⟩
  · exact stays
  · cases drops
  · cases closes

end

end ScriptEngine
