import ScriptEngine.Proofs.Balancing
import ScriptEngine.Proofs.Capturing
import ScriptEngine.Proofs.Meanings

/-!
# Lexical scoping

A name that a program reads or stores denotes the innermost local of that name, in the
function at hand or in one around it, and else a global. What is emitted leads there: to
the slot of the local, or to a capture from which the captures of the functions between
lead on to the slot. They do so until the function ends, whatever is captured besides,
since no function loses a capture and an accepted program leaves no function other than
by its end.
-/
namespace ScriptEngine

open Assembler Grammar

/-! ## The functions of a program -/

/-- Function number `f` and the functions around it, innermost first: those around it are open, whether it is open
itself or set aside. -/
def chain (f : Nat) : List (Nat × Bool) → List Body → List Body → List Body
  | (g, false) :: fs, b :: opened, aside => if g = f then b :: opened else chain f fs opened aside
  | (g, true) :: fs, opened, b :: aside => if g = f then b :: opened else chain f fs opened aside
  | _, _, _ => []

/-- The number of the current function. -/
def Begun.here? (F : Begun) : Option Nat := (F.functions.find? fun g => !g.2).map Prod.fst

/-- The functions of an assembly are those that its program has begun and not ended. -/
structure Begun.Matches (F : Begun) (a : Assembler) : Prop where
  opened : (F.functions.filter fun g => !g.2).length = a.opened.length
  aside : (F.functions.filter fun g => g.2).length = a.aside.length
  distinct : (F.functions.map Prod.fst).Nodup
  fresh : ∀ g ∈ F.functions, g.1 < F.count
  roomy : ∀ b ∈ a.opened ++ a.aside, b.Roomy

theorem begun_start (scriptName : String) : Begun.script.Matches (Assembler.start scriptName) := by
  refine ⟨rfl, rfl, by simp [Begun.script], by simp [Begun.script], ?_⟩
  intro b hb
  obtain rfl : b = (Assembler.start scriptName).body := by simpa [Assembler.opened, Assembler.start] using hb
  exact ⟨by simp [Assembler.start], by simp [Assembler.start]⟩

/-- What the directives of a kind do to the functions of an assembly. -/
def Shift.Takes (a a' : Assembler) : Shift → Prop
  | .stays => a.Extends a'
  | .begins => ∃ (a₁ : Assembler) (b : Body), a.Extends a₁ ∧ a'.opened = b :: a₁.opened ∧ a'.aside = a₁.aside ∧ b.Roomy
  | .ends => ∃ (a₁ : Assembler) (b : Body) (a₂ : Assembler), a.Extends a₁ ∧ a₁.opened = b :: a₂.opened ∧ a₂.aside = a₁.aside ∧ a₂.Extends a'
  | .aside => ∃ b, a.opened = b :: a'.opened ∧ a'.aside = b :: a.aside
  | .back => ∃ b, a.aside = b :: a'.aside ∧ a'.opened = b :: a.opened

section Perform
variable {a a' : Assembler}

theorem Assembler.Body.enclose_extends (e : Body) (ref : ChunkRef) (index : UInt16) (captures : List Capture)
    (line : UInt32) : e.Extends (e.enclose ref index captures line) := by
  obtain ⟨same, locals⟩ := e.enclose_books ref index captures line
  exact ⟨by rw [same], fun roomy => by rwa [Body.Roomy, same, locals]⟩

theorem Shift.Carries.takes {shift : Shift} (h : shift.Carries a a') : shift.Takes a a' := by
  cases shift with
  | stays => exact Assembler.Amends.extends h
  | begins =>
    obtain ⟨a₁, b, amends, fresh, here, there, -⟩ := h
    exact ⟨a₁, b, amends.extends, here, there, fresh.roomy⟩
  | ends =>
    obtain ⟨a₁, a₂, first, ⟨e, outer, index, line, around, -, here, there, -⟩, last⟩ := h
    let resumed : Assembler := { a₁ with body := e, outer := outer }
    have made : resumed.Extends a₂ := by
      refine ⟨?_, there⟩
      rw [here]
      exact .cons (e.enclose_extends _ _ _ _) (List.forall₂_same.mpr fun b _ => .refl b)
    have ended : a₁.opened = a₁.body :: resumed.opened := congrArg (a₁.body :: ·) around
    exact ⟨a₁, a₁.body, resumed, first.extends, ended, rfl, made.trans last.extends⟩
  | aside =>
    obtain ⟨b, here, there, -⟩ := h
    exact ⟨b, here, there⟩
  | back =>
    obtain ⟨b, here, there, -⟩ := h
    exact ⟨b, here, there⟩

theorem takes_step (t : Step) (a : Assembler) :
    Does (performStep t) a fun _ a' => t.directive.shift.Takes a a' := by
  by_cases last : t.directive = .endScript
  · refine does_bind (does_modify ?_)
    rw [last]
    refine does_mono (does_endScript_amends _) fun _ a' h => ?_
    obtain ⟨a₁, amends, opened, aside, -⟩ := h
    have extends_ := amends.extends
    exact ⟨opened ▸ extends_.opened, aside.trans extends_.aside⟩
  · exact does_mono (carries_step last a) fun _ _ h => h.takes

end Perform

/-! ## Functions last -/

section Lasting
variable {F F' F'' : Begun} {a a' a'' : Assembler} {d : Directive} {f : Nat}

/-- The chain of a function in an assembly. -/
abbrev Begun.chain (F : Begun) (a : Assembler) (f : Nat) : List Body :=
  ScriptEngine.chain f F.functions a.opened a.aside

theorem chain_mono (f : Nat) (fs : List (Nat × Bool)) {xs ys : List Body} (aside : List Body)
    (h : List.Forall₂ Body.Extends xs ys) :
    List.Forall₂ Body.Extends (ScriptEngine.chain f fs xs aside) (ScriptEngine.chain f fs ys aside) := by
  induction fs generalizing xs ys aside with
  | nil => exact .nil
  | cons g fs ih =>
    obtain ⟨g, _ | _⟩ := g
    · cases h with
      | nil => exact .nil
      | cons first rest =>
        unfold ScriptEngine.chain
        split
        · exact .cons first rest
        · exact ih aside rest
    · cases aside with
      | nil => exact .nil
      | cons b aside =>
        unfold ScriptEngine.chain
        split
        · exact .cons (.refl b) h
        · exact ih aside h

theorem roomy_of_extends {xs ys : List Body} (extends_ : List.Forall₂ Body.Extends xs ys) (h : ∀ b ∈ xs, b.Roomy) :
    ∀ b ∈ ys, b.Roomy := by
  induction extends_ with
  | nil => nofun
  | cons first _ ih =>
    intro b hb
    rcases List.mem_cons.mp hb with rfl | hb
    · exact first.roomy (h _ (.head _))
    · exact ih (fun x hx => h x (.tail _ hx)) b hb

/-- Functions that have not ended were there before, with fewer captures if any. -/
structure Begun.Lasts (F : Begun) (a : Assembler) (F' : Begun) (a' : Assembler) : Prop where
  count : F.count ≤ F'.count
  kept : ∀ f < F.count, f ∈ F'.functions.map Prod.fst →
    f ∈ F.functions.map Prod.fst ∧ List.Forall₂ Body.Extends (F.chain a f) (F'.chain a' f)

theorem Begun.Lasts.refl (F : Begun) (a : Assembler) : F.Lasts a F a :=
  ⟨Nat.le_refl _, fun _ _ there => ⟨there, List.forall₂_same.mpr fun b _ => .refl b⟩⟩

theorem Begun.Lasts.trans (h : F.Lasts a F' a') (h' : F'.Lasts a' F'' a'') : F.Lasts a F'' a'' := by
  refine ⟨h.count.trans h'.count, fun f old there => ?_⟩
  obtain ⟨there', extends_'⟩ := h'.kept f (old.trans_le h.count) there
  obtain ⟨there, extends_⟩ := h.kept f old there'
  exact ⟨there, forall₂_trans (R := Body.Extends) .trans extends_ extends_'⟩

/-- One directive. -/
theorem Begun.Matches.step (h : F.Matches a) (step : F.step? d = some F') (takes : d.shift.Takes a a') :
    F'.Matches a' ∧ F.Lasts a F' a' := by
  obtain ⟨fs, count⟩ := F
  obtain ⟨opened, aside, distinct, fresh, roomy⟩ := h
  dsimp only at opened aside distinct fresh
  simp only [List.mem_append] at roomy
  unfold Begun.step? at step
  generalize d.shift = shift at step takes
  cases shift with
  | stays =>
    cases step
    obtain ⟨extends_, same⟩ := takes
    refine ⟨⟨opened.trans extends_.length_eq, by rw [same]; exact aside, distinct, fresh, ?_⟩, Nat.le_refl _,
      fun f _ there => ⟨there, ?_⟩⟩
    · intro b hb
      rw [same] at hb
      rcases List.mem_append.mp hb with hb | hb
      · exact roomy_of_extends extends_ (fun x hx => roomy x (.inl hx)) b hb
      · exact roomy b (.inr hb)
    · unfold Begun.chain
      rw [same]
      exact chain_mono f fs a.aside extends_
  | begins =>
    cases step
    obtain ⟨a₁, b, ⟨extends_, same⟩, here, there, new⟩ := takes
    refine ⟨⟨?_, ?_, ?_, ?_, ?_⟩, Nat.le_succ _, fun f old found => ?_⟩
    · simp [here, opened, extends_.length_eq]
    · simpa [there, same] using aside
    · refine List.nodup_cons.mpr ⟨fun mem => ?_, distinct⟩
      obtain ⟨g, hg, eq⟩ := List.mem_map.mp mem
      exact absurd (fresh g hg) (by simp [eq])
    · intro g hg
      rcases List.mem_cons.mp hg with rfl | hg
      · exact Nat.lt_succ_self _
      · exact Nat.lt_succ_of_lt (fresh g hg)
    · intro x hx
      rw [here, there, same] at hx
      rcases List.mem_append.mp hx with hx | hx
      · rcases List.mem_cons.mp hx with rfl | hx
        · exact new
        · exact roomy_of_extends extends_ (fun x hx => roomy x (.inl hx)) x hx
      · exact roomy x (.inr hx)
    · have other : count ≠ f := Nat.ne_of_gt old
      refine ⟨?_, ?_⟩
      · simpa [Ne.symm other] using found
      · unfold Begun.chain
        rw [here, there, same, ScriptEngine.chain, if_neg other]
        exact chain_mono f fs a.aside extends_
  | ends =>
    obtain ⟨a₁, b, a₂, ⟨extends_, same⟩, here, there, extends_', same'⟩ := takes
    obtain _ | ⟨⟨g, _ | _⟩, fs⟩ := fs <;> cases step
    rw [here] at extends_
    obtain ⟨c, cs, split⟩ : ∃ c cs, a.opened = c :: cs := ⟨_, _, rfl⟩
    rw [split] at extends_ opened roomy
    obtain ⟨first, rest⟩ := List.forall₂_cons.mp extends_
    have rest' := forall₂_trans (R := Body.Extends) .trans rest extends_'
    have aside' : a'.aside = a.aside := (same'.trans there).trans same
    refine ⟨⟨?_, ?_, ?_, fun g hg => fresh g (.tail _ hg), ?_⟩, Nat.le_refl _, fun f _ found => ?_⟩
    · simpa [rest'.length_eq] using opened
    · simpa [aside'] using aside
    · exact (List.nodup_cons.mp distinct).2
    · intro x hx
      rw [aside'] at hx
      rcases List.mem_append.mp hx with hx | hx
      · exact roomy_of_extends rest' (fun x hx => roomy x (.inl (.tail _ hx))) x hx
      · exact roomy x (.inr hx)
    · have other : g ≠ f := fun eq => (List.nodup_cons.mp distinct).1 (eq ▸ found)
      refine ⟨.tail _ found, ?_⟩
      unfold Begun.chain
      rw [split, aside', ScriptEngine.chain, if_neg other]
      exact chain_mono f fs a.aside rest'
  | aside =>
    obtain ⟨b, here, there⟩ := takes
    obtain _ | ⟨⟨g, _ | _⟩, fs⟩ := fs <;> cases step
    have same (f : Nat) : Begun.chain ⟨(g, true) :: fs, count⟩ a' f = Begun.chain ⟨(g, false) :: fs, count⟩ a f := by
      unfold Begun.chain
      rw [here, there]
      rfl
    refine ⟨⟨?_, ?_, distinct, ?_, ?_⟩, Nat.le_refl _, fun f _ found => ⟨found, ?_⟩⟩
    · simpa [here] using opened
    · simpa [there] using aside
    · intro x hx
      rcases List.mem_cons.mp hx with rfl | hx
      · exact fresh (g, false) (.head _)
      · exact fresh x (.tail _ hx)
    · intro x hx
      rw [there] at hx
      rw [here] at roomy
      refine roomy x ?_
      simp only [List.mem_append, List.mem_cons] at hx ⊢
      tauto
    · rw [same]
      exact List.forall₂_same.mpr fun b _ => .refl b
  | back =>
    obtain ⟨b, there, here⟩ := takes
    obtain _ | ⟨⟨g, _ | _⟩, fs⟩ := fs <;> cases step
    have same (f : Nat) : Begun.chain ⟨(g, false) :: fs, count⟩ a' f = Begun.chain ⟨(g, true) :: fs, count⟩ a f := by
      unfold Begun.chain
      rw [here, there]
      rfl
    refine ⟨⟨?_, ?_, distinct, ?_, ?_⟩, Nat.le_refl _, fun f _ found => ⟨found, ?_⟩⟩
    · simpa [here] using opened
    · simpa [there] using aside
    · intro x hx
      rcases List.mem_cons.mp hx with rfl | hx
      · exact fresh (g, true) (.head _)
      · exact fresh x (.tail _ hx)
    · intro x hx
      rw [here] at hx
      rw [there] at roomy
      refine roomy x ?_
      simp only [List.mem_append, List.mem_cons] at hx ⊢
      tauto
    · rw [same]
      exact List.forall₂_same.mpr fun b _ => .refl b

/-- Any number of steps. -/
theorem Begun.Matches.run {steps : List Step} (h : F.Matches a) (begun : F.run? (steps.map (·.directive)) = some F')
    (run : performAll steps a = .ok () a') : F'.Matches a' ∧ F.Lasts a F' a' := by
  induction steps generalizing F a with
  | nil =>
    cases begun
    cases run
    exact ⟨h, .refl _ _⟩
  | cons t steps ih =>
    rw [List.map_cons, Begun.run?] at begun
    obtain ⟨G, step, begun⟩ := Option.bind_eq_some_iff.mp begun
    obtain ⟨a₁, first, run⟩ := performAll_cons run
    obtain ⟨matches_, lasts⟩ := h.step step (takes_step t a _ _ first)
    obtain ⟨matches_', lasts'⟩ := ih matches_ begun run
    exact ⟨matches_', lasts.trans lasts'⟩

/-- The chain of the current function is made of the functions that are open. -/
theorem chain_here {fs : List (Nat × Bool)} {xs aside : List Body}
    (here : (fs.find? fun g => !g.2).map Prod.fst = some f) (distinct : (fs.map Prod.fst).Nodup)
    (opened : (fs.filter fun g => !g.2).length = xs.length) (shelved : (fs.filter fun g => g.2).length = aside.length) :
    ScriptEngine.chain f fs xs aside = xs := by
  induction fs generalizing aside with
  | nil => cases here
  | cons g fs ih =>
    obtain ⟨g, _ | _⟩ := g
    · obtain rfl : g = f := by simpa using here
      obtain _ | ⟨b, xs⟩ := xs
      · simp at opened
      · rw [ScriptEngine.chain, if_pos rfl]
    · obtain _ | ⟨b, aside⟩ := aside
      · simp at shelved
      have here' : (fs.find? fun g => !g.2).map Prod.fst = some f := by simpa using here
      have other : g ≠ f := by
        rintro rfl
        obtain ⟨x, found, eq⟩ := Option.map_eq_some_iff.mp here'
        exact (List.nodup_cons.mp distinct).1 (List.mem_map.mpr ⟨x, List.mem_of_find?_eq_some found, eq⟩)
      rw [ScriptEngine.chain, if_neg other]
      exact ih here' (List.nodup_cons.mp distinct).2 (by simpa using opened) (by simpa using shelved)

theorem Begun.Matches.here (h : F.Matches a) : ∃ f, F.here? = some f ∧ f < F.count ∧ F.chain a f = a.opened := by
  have some : (F.functions.filter fun g => !g.2) ≠ [] := by
    intro none
    have := h.opened
    rw [none] at this
    cases this
  obtain ⟨g, hg⟩ := List.exists_mem_of_ne_nil _ some
  obtain ⟨mem, out⟩ := List.mem_filter.mp hg
  obtain ⟨x, found⟩ := Option.isSome_iff_exists.mp
    (List.find?_isSome (p := fun g : Nat × Bool => !g.2) |>.mpr ⟨g, mem, out⟩)
  have here : F.here? = .some x.1 := by rw [Begun.here?, found]; rfl
  exact ⟨x.1, here, h.fresh x (List.mem_of_find?_eq_some found), chain_here here h.distinct h.opened h.aside⟩

end Lasting

/-! ## Names -/

/-- Where a directive reads or stores a variable: the name, how it is accessed, and the assembly ahead of the
access and behind it. -/
inductive Directive.Names : Directive → Assembler → String → (Place → Instruction) → Assembler → Assembler → Prop
  | load {name : String} {a b : Assembler} (run : Assembler.load name a = .ok () b) :
      Names (.load name) a name Place.getter a b
  | store {name : String} {a b : Assembler} (run : Assembler.store name a = .ok () b) :
      Names (.store name) a name Place.setter a b
  | this {a b : Assembler} (run : Assembler.loadThis a = .ok () b) : Names .this a "this" Place.getter a b
  /-- The supertype is named ahead of the type itself. -/
  | parent {parent name : String} {a b : Assembler} (run : Assembler.load parent a = .ok () b) :
      Names (.inheritFrom parent name) a parent Place.getter a b
  | subtype {parent name : String} {a a₁ a₂ a₃ a₄ b : Assembler} (super : Assembler.load parent a = .ok () a₁)
      (scope : Assembler.beginScope a₁ = .ok () a₂) (hidden : Assembler.pushLocal "super" a₂ = .ok () a₃)
      (complete : Assembler.complete a₃ = .ok () a₄) (run : Assembler.load name a₄ = .ok () b) :
      Names (.inheritFrom parent name) a name Place.getter a₄ b

section Names
variable {d : Directive} {a a' b b' : Assembler} {name : String} {access : Place → Instruction}

theorem Directive.Names.accesses (h : d.Names a name access b b') : a.Extends b ∧ b.Accesses b' name access := by
  cases h with
  | load run => exact ⟨.refl a, does_load_accesses _ _ _ _ run⟩
  | store run => exact ⟨.refl a, does_store_accesses _ _ _ _ run⟩
  | this run => exact ⟨.refl a, does_loadThis_accesses _ _ _ run⟩
  | parent run => exact ⟨.refl a, does_load_accesses _ _ _ _ run⟩
  | subtype super scope hidden complete run =>
    have ahead := (amending_load _ _ _ _ super).trans (amending_beginScope _ _ _ scope)
    have hidden' := (amending_pushLocal _ _ _ _ hidden).trans (amending_complete _ _ _ complete)
    exact ⟨(ahead.trans hidden').extends, does_load_accesses _ _ _ _ run⟩

theorem amending_parent (name : String) : Amending (do
    Assembler.beginScope
    pushLocal "super"
    complete
    Assembler.load name
    emit .inherit
    modify fun a =>
      match a.types with
      | t :: rest => { a with types := { t with hasSuper := true } :: rest }
      | [] => a) :=
  amending_beginScope.bind fun _ => (amending_pushLocal _).bind fun _ => amending_complete.bind fun _ =>
    (amending_load name).bind fun _ => amending_inherits

/-- What follows an access in its directive. -/
theorem Directive.Names.rest (h : d.Names a name access b b') (run : perform d a = .ok () a') : b'.Extends a' := by
  cases h with
  | load here | store here | this here =>
    obtain ⟨-, rfl⟩ := EStateM.Result.ok.inj (here.symm.trans run)
    exact .refl _
  | @parent parent name _ b here =>
    exact (amending_parent name _ _ _ ((assembly_bind here _).symm.trans run)).extends
  | subtype super scope hidden complete here =>
    have run₁ := (assembly_bind super _).symm.trans run
    have run₂ := (assembly_bind scope _).symm.trans run₁
    have run₃ := (assembly_bind hidden _).symm.trans run₂
    have run₄ := (assembly_bind complete _).symm.trans run₃
    exact (amending_inherits _ _ _ ((assembly_bind here _).symm.trans run₄)).extends

theorem Directive.Names.stays (h : d.Names a name access b b') : d.shift = .stays := by
  cases h <;> rfl

end Names

/-- **Lexical scoping.** In a program that is accepted, wherever a directive reads or stores a variable of some name,
one instruction is emitted for it. If the innermost local of the name is one of the current function, the instruction
takes its slot. If it is one of the function `k` functions out, the instruction takes a capture from which, as long as
the current function has not ended, the captures of this function and those around it arrive at the slot of the local
after `k` functions. If there is no such local, the instruction takes the name of a global. -/
theorem Script.lexical_scoping {tokens : List Token} {scriptName : String} {s : Script}
    (made : Made tokens scriptName s) {pre post : List Step} {t : Step}
    (split : (Program.ofTokens tokens).steps.toList = pre ++ t :: post) :
    ∃ F f a a', Begun.script.run? (pre.map (·.directive)) = some F ∧ F.here? = some f ∧
      performAll pre (start scriptName) = .ok () a ∧ performStep t a = .ok () a' ∧
      ∀ name access b b', t.directive.Names { a with mark := t.mark } name access b b' →
        ∃ p, b'.body.chunk.code = b.body.chunk.code.push (access p) ∧
          (∀ s, Denotes b.opened name 0 s → ∃ n, p = .slot n ∧ n.toNat = s) ∧
          (∀ k s, Denotes b.opened name (k + 1) s → ∃ u n, p = .capture u ∧ n.toNat = s ∧
            ∀ mid rest, post = mid ++ rest →
              ∃ F' a'', Begun.script.run? ((pre ++ t :: mid).map (·.directive)) = some F' ∧
                performAll mid a' = .ok () a'' ∧
                (f ∈ F'.functions.map Prod.fst → follow (F'.chain a'' f) u = some (k + 1, n))) ∧
          (Unknown b.opened name → ∃ n, p = .global n ∧ b'.body.chunk.name? n = some name) := by
  obtain ⟨hash, made⟩ := made.program
  obtain ⟨⟨z, run, accepted, -⟩, -⟩ := Program.assembled made
  obtain ⟨count, begun⟩ := begun_ofTokens accepted
  rw [split] at run begun
  obtain ⟨a, front, back⟩ := performAll_append run
  obtain ⟨a', here, back⟩ := performAll_cons back
  rw [List.map_append, Begun.run?_append] at begun
  obtain ⟨F, begun_pre, begun⟩ := Option.bind_eq_some_iff.mp begun
  rw [List.map_cons, Begun.run?] at begun
  obtain ⟨G, step, begun⟩ := Option.bind_eq_some_iff.mp begun
  have matches_ := ((begun_start scriptName).run begun_pre front).1
  have matches' := (matches_.step step (takes_step t a _ _ here)).1
  obtain ⟨f, hf, old, -⟩ := matches_.here
  refine ⟨F, f, a, a', begun_pre, hf, front, here, fun name access b b' names => ?_⟩
  obtain rfl : F = G := by
    rw [Begun.step?, names.stays] at step
    exact Option.some.inj step
  obtain ⟨ahead, accesses⟩ := names.accesses
  have roomy : ∀ x ∈ b.opened, x.Roomy :=
    roomy_of_extends ahead.opened fun x hx => matches_.roomy x (List.mem_append_left _ hx)
  obtain ⟨p, code, found⟩ := accesses.found roomy
  refine ⟨p, code, ?_⟩
  cases p with
  | slot n =>
    refine ⟨fun s denotes => ⟨n, rfl, (Denotes.unique found denotes).2⟩, fun k s denotes => ?_, fun unknown => ?_⟩
    · cases (Denotes.unique found denotes).1
    · exact absurd unknown (Denotes.not_unknown found)
  | global n =>
    exact ⟨fun s denotes => absurd found.1 denotes.not_unknown, fun k s denotes => absurd found.1 denotes.not_unknown,
      fun _ => ⟨n, rfl, found.2⟩⟩
  | capture u =>
    obtain ⟨k, n, there, arrives⟩ := found
    refine ⟨fun s denotes => ?_, fun k' s denotes => ?_, fun unknown => absurd unknown there.not_unknown⟩
    · cases (there.unique denotes).1
    obtain ⟨rfl, rfl⟩ : k = k' ∧ n.toNat = s :=
      ⟨Nat.succ.inj (there.unique denotes).1, (there.unique denotes).2⟩
    refine ⟨u, n, rfl, rfl, ?_⟩
    rintro mid rest rfl
    obtain ⟨a'', run', -⟩ := performAll_append back
    rw [List.map_append, Begun.run?_append] at begun
    obtain ⟨F', begun', -⟩ := Option.bind_eq_some_iff.mp begun
    refine ⟨F', a'', ?_, run', fun there' => ?_⟩
    · rw [List.map_append, Begun.run?_append, begun_pre, List.map_cons]
      exact (Option.bind_some ..).trans (by rw [Begun.run?, step]; exact begun')
    -- the captures arrive behind the directive, and go on to do so
    obtain ⟨f', hf', -, chain⟩ := matches'.here
    obtain rfl : f = f' := Option.some.inj (hf.symm.trans hf')
    have arrives' := follow_mono (names.rest here).opened arrives
    rw [← chain] at arrives'
    exact follow_mono ((matches'.run begun' run').2.kept f old there').2 arrives'

/-- A block with a variable and a function that reads it. -/
def Script.smallClosure : List Token :=
  [(.openBrace, "\x7b"), (.varWord, "var"), (.identifier, "x"), (.semicolon, ";"), (.funWord, "fun"),
    (.identifier, "f"), (.openParen, "("), (.closeParen, ")"), (.openBrace, "\x7b"), (.identifier, "x"),
    (.semicolon, ";"), (.closeBrace, "\x7d"), (.closeBrace, "\x7d")].map fun t => ⟨t.1, t.2, .none, 1, 1, 0⟩

theorem Script.lexical_scoping_smallClosure : ∃ (s : Script) (pre post : List Step) (t : Step) (F : Begun) (f : Nat)
    (a a' : Assembler) (u n : UInt8), Made smallClosure "main" s ∧
    (Program.ofTokens smallClosure).steps.toList = pre ++ t :: post ∧ t.directive = .load "x" ∧ F.here? = some f ∧
    performAll pre (start "main") = .ok () a ∧ performStep t a = .ok () a' ∧ Denotes a.opened "x" 1 1 ∧
    a'.body.chunk.code = a.body.chunk.code.push (.getUpvalue u) ∧ n.toNat = 1 ∧
    Begun.script.run? ((pre ++ [t]).map (·.directive)) = some F ∧ follow (F.chain a' f) u = some (1, n) := by
  have accepted : (Script.ofTokens smallClosure "main").toOption.isSome := by decide +kernel
  have sixth : ((Program.ofTokens smallClosure).steps.toList[6]?.any fun t =>
      match t.directive with
      | .load "x" => true
      | _ => false) = true := by decide +kernel
  have locals : (match performAll ((Program.ofTokens smallClosure).steps.toList.take 6) (start "main") with
      | .ok () a => some (a.opened.map Body.locals)
      | .error _ _ => none) =
      some [[⟨"", some 1, false⟩], [⟨"f", some 1, false⟩, ⟨"x", some 1, false⟩, ⟨"", some 0, false⟩]] := by
    decide +kernel
  cases made : Script.ofTokens smallClosure "main" with
  | error e =>
    rw [made] at accepted
    cases accepted
  | ok s =>
    have scoping := @Script.lexical_scoping smallClosure "main" s (.inl made)
    generalize (Program.ofTokens smallClosure).steps.toList = steps at *
    obtain ⟨t, there, loads⟩ := (Option.any_eq_true ..).mp sixth
    have loads : t.directive = .load "x" := by
      split at loads
      · assumption
      · cases loads
    obtain ⟨long, rfl⟩ := List.getElem?_eq_some_iff.mp there
    have split : steps = steps.take 6 ++ steps[6] :: steps.drop 7 := by
      rw [← List.drop_eq_getElem_cons long, List.take_append_drop]
    obtain ⟨F, f, a, a', begun, here, front, step, names⟩ := scoping split
    rw [front] at locals
    obtain ⟨b, outer, opened, hb, more⟩ := List.map_eq_cons_iff.mp (Option.some.inj locals)
    obtain ⟨e, rest, rfl, he, -⟩ := List.map_eq_cons_iff.mp more
    have denotes : Denotes a.opened "x" 1 1 := by
      rw [opened]
      refine ⟨⟨e, ⟨"x", some 1, false⟩, rfl, by rw [he]; rfl, ⟨rfl, rfl⟩, fun s l after there is => ?_⟩,
        fun j b' l below there mem is => ?_⟩
      · rw [he] at there
        match s, after, there with
        | 2, _, there =>
          cases there
          exact absurd is.1 (by decide)
      · obtain rfl : j = 0 := Nat.lt_one_iff.mp below
        cases there
        rw [hb, List.mem_singleton] at mem
        subst mem
        exact absurd is.1 (by decide)
    have run : Assembler.load "x" { a with mark := steps[6].mark } = .ok () a' := by
      rw [performStep, loads] at step
      exact step
    have named : steps[6].directive.Names { a with mark := steps[6].mark } "x" Place.getter
        { a with mark := steps[6].mark } a' := by
      rw [loads]
      exact .load run
    obtain ⟨p, code, -, captured, -⟩ := names _ _ _ _ named
    obtain ⟨u, n, rfl, hn, lasts⟩ := captured 0 1 denotes
    obtain ⟨F', a'', begun', run', arrives⟩ := lasts [] _ rfl
    cases run'
    have same : Begun.script.run? ((steps.take 6 ++ [steps[6]]).map (·.directive)) = some F := by
      rw [List.map_append, Begun.run?_append, begun]
      exact (Begun.run?_singleton F steps[6].directive).trans (by rw [loads]; rfl)
    obtain rfl : F = F' := Option.some.inj (same.symm.trans begun')
    have among : f ∈ F.functions.map Prod.fst := by
      obtain ⟨g, found, rfl⟩ := Option.map_eq_some_iff.mp here
      exact List.mem_map_of_mem (List.mem_of_find?_eq_some found)
    exact ⟨s, _, _, _, F, f, a, a', u, n, .inl made, split, loads, here, front, step, denotes, code, hn, begun',
      arrives among⟩

end ScriptEngine
