import ScriptEngine.Proofs.AssemblingFunctions

/-!
# Programs under assembly

The assembler keeps step with the outline along every program whose directives
have moves: one lemma for a directive, and from it one for a list of steps.
-/
namespace ScriptEngine

open Assembler Outline

/-- Directives that end the innermost function. -/
def Directive.endsFunction : Directive → Bool
  | .endFunction | .endInitChain _ | .endTest _ | .endCase _ _ => true
  | _ => false

/-- What a directive refers to: slots of a function, which is given by how many others enclose it, and
the names of their variables. A function that ends refers to what it has captured of the one around it. -/
def Directive.Means (d : Directive) (a : Assembler) (k n : Nat) (name : String) : Prop :=
  (k = a.outer.length ∧ d.Refers a.body n name) ∨
    (d.endsFunction ∧ ∃ e es m, a.outer = e :: es ∧ k = es.length ∧ n = m.toNat ∧ ⟨true, m⟩ ∈ a.body.captures ∧
      Lent e.locals name n)

section Step
variable {legal : Nat → Nat → String → Prop} {d : Directive} {O O' : Outline} {a a' : Assembler}
  {L L' : Level} {outer : List Level} {aside : List (Level × Role)} {ps qs : List (Body × Notes)}
  {ds : List (Chunk × Notes)} {flags : List Bool}

theorem Outline.LevelMove.role (move : LevelMove d L L') : L'.role = L.role := by
  cases move <;> rfl

/-- Types begin and end with directives of their own. -/
theorem Outline.LevelMove.sameFlags (move : LevelMove d L L') (own : d.isOwn) : L'.flags = L.flags := by
  cases move <;> first | rfl | (cases own; done) | simp_all [Level.flags, Level.setOpens]

/-- A directive that looks a variable up and does no more. -/
theorem does_lookup {α : Type} {x : Assembly α} {good : α → Body → Notes → List (Body × Notes) → Prop}
    (h : Does x a fun r a' => ∃ b N ps', Sim { O with here := O.here.touch } flags a' ((b, N) :: ps') qs ds ∧
      Stays legal ps ((b, N) :: ps') ∧ good r b N ps') :
    Does (do let _ ← x) a fun _ => Reaches legal { O with here := O.here.touch } flags ps qs ds := by
  refine does_bind (does_mono h ?_)
  rintro r a' ⟨b, N, ps', sim, stays, -⟩
  exact does_pure ⟨_, qs, ds, sim, .stays stays⟩

/-- The flags with a type body open. -/
theorem typeFlags_typeBody {os : List Opening} {inherits : Bool} (opens : L.opens = .typeBody inherits :: os) :
    typeFlags (L :: outer) = inherits :: typeFlags ({ L with opens := os } :: outer) := by
  rw [typeFlags_cons, typeFlags_cons, Level.flags, opens]
  rfl

/-- Directives that look variables up. -/
theorem reaches_variable (h : Sim ⟨L, outer, aside, false⟩ flags a ps qs ds) {takes gives : Nat}
    {τ ρ : List Held} (own : d.isOwn = false) (effect : d.effect = some (takes, gives))
    (temps : L.temps = τ ++ ρ) (length : τ.length = takes) (values : ∀ e ∈ τ, e.isValue)
    (plain : L.Plain) (ok : ∀ n x, d.Refers a.body n x → legal a.outer.length n x) :
    Does (perform d) a fun _ =>
      Reaches legal ⟨L.setTemps (List.replicate gives .value ++ ρ), outer, aside, false⟩ flags ps qs ds := by
  have single (he : takes = 0) : L.temps = ρ := by
    rw [temps, List.length_eq_zero_iff.mp (length.trans he)]
    rfl
  cases d
  case load name =>
    cases effect
    exact single rfl ▸ reaches_load h plain fun n found => ok n _ ⟨rfl, found⟩
  case this =>
    cases effect
    exact single rfl ▸ reaches_this h plain fun n found => ok n _ ⟨rfl, found⟩
  case store name =>
    cases effect
    obtain ⟨e, rfl⟩ := List.length_eq_one_iff.mp length
    exact reaches_store h plain (fun n found => ok n _ ⟨rfl, found⟩) temps (values _ (.head _))
  all_goals first | (cases own; done) | cases effect

theorem reaches_silent (h : Sim ⟨L, outer, aside, false⟩ flags a ps qs ds) (own : d.isOwn = false)
    (quiet : d.isQuiet) (pending : L.pending.isFunction = false)
    (ok : ∀ n x, d.Refers a.body n x → legal a.outer.length n x) :
    Does (perform d) a fun _ => Reaches legal ⟨L.touch, outer, aside, false⟩ flags ps qs ds := by
  obtain ⟨b, N, ps, rfl⟩ := h.uncons
  cases d
  case resolve name =>
    exact does_lookup (O := ⟨L, outer, aside, false⟩) (does_place h pending fun n found => ok n _ ⟨rfl, found⟩)
  case checkStore name =>
    exact does_lookup (O := ⟨L, outer, aside, false⟩) (does_checkStore h pending fun n found => ok n _ ⟨rfl, found⟩)
  case unreachable keyword ℓ => exact reaches_note h.touch
  all_goals first | (cases own; done) | cases quiet

/-- Every move within the innermost function. -/
theorem reaches_level (h : Sim ⟨L, outer, aside, false⟩ (typeFlags (L :: outer)) a ps qs ds) (move : LevelMove d L L')
    (ok : ∀ n x, d.Refers a.body n x → legal a.outer.length n x) :
    Does (perform d) a fun _ => Reaches legal ⟨L', outer, aside, false⟩ (typeFlags (L' :: outer)) ps qs ds := by
  by_cases own : d.isOwn
  · obtain ⟨b, N, ps, rfl⟩ := h.uncons
    obtain ⟨ws, tracks⟩ := h.nest.tracks
    obtain rfl : b = a.body := congrArg Assembler.body h.body
    have follows := follows_level (a := a) (tracks (legal ps.length)) move own fun n x refers =>
      h.length_eq ▸ ok n x refers
    rw [h.body] at follows
    rw [typeFlags_cons, move.sameFlags own]
    exact does_mono follows fun _ _ f => h.follow f move.role
  · have other : d.isOwn = false := by simpa using own
    cases move with
    | simple effect temps length values plain => exact reaches_variable h other effect temps length values plain ok
    | quiet quiet pending => exact reaches_silent h other quiet pending ok
    | beginType calm declaring inScope => exact reaches_beginType h calm declaring inScope
    | beginGlobalType calm outside => exact reaches_beginGlobalType h calm outside
    | inheritFrom calm opens =>
      rw [typeFlags_typeBody opens] at h
      exact reaches_inheritFrom h calm opens ok
    | endType temps value pending region opens =>
      rw [typeFlags_typeBody opens] at h
      exact reaches_endType h temps value region opens
    | endSubtype temps value pending region opens vars =>
      rw [typeFlags_typeBody opens] at h
      exact reaches_endSubtype h temps value pending region opens vars
    | _ => exact (own rfl).elim

theorem receive_flags (E : Level) : E.receive.flags = E.flags := by
  unfold Level.receive
  split <;> rfl

theorem typeFlags_closed (opens : L.opens = []) : typeFlags (L :: outer) = typeFlags outer := by
  rw [typeFlags_cons, Level.flags, opens]
  rfl

theorem mayEnd (ends : d.endsFunction) (same : ∀ n name, a.body.chunk.ReturnsLocal n name → d.Refers a.body n name) :
    MayEnd (d.Means a) a where
  returns _ _ returns := .inl ⟨rfl, same _ _ returns⟩
  lends e es n _ outer captured lent := .inr ⟨ends, e, es, n, outer, rfl, rfl, captured, lent⟩

/-- What a directive does, as its move says. -/
theorem reaches_move (h : Sim O (typeFlags (O.here :: O.outer)) a ps qs ds) (move : Move d O O') :
    Does (perform d) a fun _ => Reaches (d.Means a) O' (typeFlags (O'.here :: O'.outer)) ps qs ds := by
  cases move with
  | here move => exact reaches_level h move fun n x refers => .inl ⟨rfl, refers⟩
  | beginFunction named => exact reaches_beginFunction _ h named.1 (by decide) nofun
  | @endFunction L E outer aside calm opens role inner pending usual =>
    rw [typeFlags_closed opens] at h
    rw [typeFlags_cons, receive_flags]
    have ends := ends_endPlain h calm opens inner (by simp [role]) (mayEnd (d := .endFunction) rfl fun _ _ h => h) usual
      pending
    exact does_mono ends fun _ _ ends => ends.reaches
  | beginInitChain => exact reaches_beginFunction _ h (by decide) (by decide) nofun
  | endInitChain calm opens role inner fixed plain temps =>
    rw [typeFlags_closed opens] at h
    exact reaches_endInitChain h calm opens inner role (mayEnd rfl fun _ _ h => h) fixed plain temps
  | beginTest => exact reaches_beginTest h
  | endTest calm opens role inner plain =>
    rw [typeFlags_closed opens] at h
    exact reaches_endTest h calm opens inner role (mayEnd rfl fun _ _ h => h) plain
  | caseCheck => exact reaches_caseCheck h
  | beginCase => exact reaches_beginCase h (h.ready rfl)
  | stepOut role fresh =>
    obtain ⟨b, N, ps, rfl⟩ := h.uncons
    obtain ⟨ws, tracks⟩ := h.nest.tracks
    rw [typeFlags_closed (tracks.frames.start fresh).2.2.2.2.2] at h
    exact reaches_stepOut h role fresh
  | @stepIn L E outer aside =>
    have opens : L.opens = [] := by
      have shelf := h.shelf
      generalize E.role = role at shelf
      obtain _ | ⟨tracks, -, fresh, -⟩ := shelf
      exact (tracks.frames.start fresh).2.2.2.2.2
    rw [typeFlags_closed opens]
    exact reaches_stepIn h
  | endCase calm opens role inner plain temps length values =>
    rw [typeFlags_closed opens] at h
    exact reaches_endCase h calm opens inner role (mayEnd rfl fun _ _ h => h) plain temps length values

/-- A script that has just begun. -/
theorem sim_start (scriptName : String) :
    ∃ c : Chunk, c.code = #[] ∧ Sim initial (typeFlags (initial.here :: initial.outer)) (Assembler.start scriptName)
      [(.begin c 0, .begin c.kind.slotName)] [] [] := by
  refine ⟨{ name := scriptName, source := scriptName, chain := scriptName, kind := .script }, rfl, ?_⟩
  exact {
    bodies := rfl
    shelved := rfl
    listed := rfl
    nest := .script (Tracks.begin ⟨rfl, rfl, rfl, rfl⟩ .plain nofun) rfl rfl
    shelf := .nil
    finished := nofun
    types := rfl
    sets := rfl
    ready := nofun }

end Step

end ScriptEngine
