import ScriptEngine.Proofs.Origins
import ScriptEngine.Proofs.Piling

/-!
# Directives fit together

The assembler takes it for granted that the control structure it needs is on top, that
there is a function around the one that ends, and the like; where it is wrong it fails
with a fault of its own. `Fitted` relates piles to an assembly: each construct that is
open has its control structure, and each function around has its pile. With it goes a
thread through every chunk, so that each object that a literal fills is known by where it
was made.

`Safely` says what holds when an assembly succeeds, and that it does not fail for want of
balance. `Stands` is what holds within a directive: it keeps the control structures, the
trace and the labels that wait for one.
-/
namespace ScriptEngine

open Assembler Piece Trace

/-- The result is as `Q` says, unless a source is at fault. -/
def Safely {α : Type} (x : Assembly α) (a : Assembler) (Q : α → Assembler → Prop) : Prop :=
  match x a with
  | .ok r a' => Q r a'
  | .error fault _ => fault.isInternal = false

section Rules
variable {α β : Type} {a : Assembler} {x : Assembly α} {f : α → Assembly β}

theorem safely_pure {r : α} {Q : α → Assembler → Prop} (h : Q r a) : Safely (pure r) a Q := h

theorem safely_bind {Q : β → Assembler → Prop} (h : Safely x a fun r a' => Safely (f r) a' Q) :
    Safely (x >>= f) a Q := by
  unfold Safely at h
  change match EStateM.bind x f a with | .ok r a' => Q r a' | .error fault _ => fault.isInternal = false
  unfold EStateM.bind
  cases run : x a with
  | ok r a' =>
    rw [run] at h
    exact h
  | error fault a' =>
    rw [run] at h
    exact h

theorem safely_mono {P Q : α → Assembler → Prop} (h : Safely x a P) (imp : ∀ r a', P r a' → Q r a') : Safely x a Q := by
  unfold Safely at h ⊢
  split at h
  · exact imp _ _ h
  · exact h

theorem safely_then {P : α → Assembler → Prop} {Q : β → Assembler → Prop} (first : Safely x a P)
    (rest : ∀ r a', P r a' → Safely (f r) a' Q) : Safely (x >>= f) a Q := safely_bind (safely_mono first rest)

theorem safely_throw {fault : CompileFault} {Q : α → Assembler → Prop} (real : fault.isInternal = false) :
    Safely (throw fault) a Q := real

theorem safely_get {Q : Assembler → Assembler → Prop} (h : Q a a) : Safely (get : Assembly Assembler) a Q := h

theorem safely_getBody {Q : Body → Assembler → Prop} (h : Q a.body a) : Safely getBody a Q := h

theorem safely_set {a' : Assembler} {Q : PUnit → Assembler → Prop} (h : Q () a') :
    Safely (set a' : Assembly PUnit) a Q := h

theorem safely_modify {g : Assembler → Assembler} {Q : PUnit → Assembler → Prop} (h : Q () (g a)) :
    Safely (modify g : Assembly PUnit) a Q := h

theorem safely_lift {r : Except CompileFault α} {Q : α → Assembler → Prop} (ok : ∀ v, r = .ok v → Q v a)
    (real : ∀ e, r = .error e → e.isInternal = false) : Safely (lift r) a Q := by
  cases r with
  | ok v => exact ok v rfl
  | error e => exact real e rfl

/-- What each round keeps holds behind a loop. -/
theorem safely_forM {g : α → Assembly Unit} {xs : List α} {I : Assembler → Prop} (start : I a)
    (round : ∀ x a, I a → Safely (g x) a fun _ => I) : Safely (xs.forM g) a fun _ => I := by
  induction xs generalizing a with
  | nil => exact safely_pure start
  | cons x xs ih => exact safely_then (round x a start) fun _ a' h => ih h

theorem safely_mapM {g : α → Assembly β} {xs : List α} {I : Assembler → Prop} (start : I a)
    (round : ∀ x a, I a → Safely (g x) a fun _ => I) : Safely (xs.mapM g) a fun _ => I := by
  induction xs generalizing a with
  | nil => exact safely_pure start
  | cons x xs ih =>
    rw [List.mapM_cons]
    exact safely_then (round x a start) fun _ a' h => safely_then (ih h) fun _ _ h' => safely_pure h'

end Rules

/-! ## Pieces and control structures -/

/-- How many scopes are open, those that types keep open included. -/
def scopes (ρ : List Piece) : Nat := ρ.countP fun | .scope | .typeBody true => true | _ => false

/-- Whether the types that are open have a supertype. -/
def flags (ρ : List Piece) : List Bool := ρ.filterMap fun | .typeBody inherits => some inherits | _ => none

/-- Neither a scope nor a type. -/
def Piece.isFlat : Piece → Bool
  | .scope | .typeBody _ => false
  | _ => true

theorem flat_of_temps {τ : List Piece} (temps : ∀ p ∈ τ, p.isTemp) : ∀ p ∈ τ, p.isFlat := by
  intro p hp
  have := temps p hp
  cases p <;> first | rfl | cases this

theorem scopes_flat {τ : List Piece} (flat : ∀ p ∈ τ, p.isFlat) (ρ : List Piece) : scopes (τ ++ ρ) = scopes ρ := by
  unfold scopes
  rw [List.countP_append, List.countP_eq_zero.mpr, Nat.zero_add]
  intro p hp
  have := flat p hp
  cases p <;> first | (cases this; done) | simp

@[simp] theorem scopes_scope (ρ : List Piece) : scopes (.scope :: ρ) = scopes ρ + 1 := List.countP_cons_of_pos rfl

@[simp] theorem scopes_inherits (ρ : List Piece) : scopes (.typeBody true :: ρ) = scopes ρ + 1 :=
  List.countP_cons_of_pos rfl

@[simp] theorem scopes_typeBody (ρ : List Piece) : scopes (.typeBody false :: ρ) = scopes ρ :=
  List.countP_cons_of_neg nofun

theorem flags_flat {τ : List Piece} (flat : ∀ p ∈ τ, p.isFlat) (ρ : List Piece) : flags (τ ++ ρ) = flags ρ := by
  unfold flags
  rw [List.filterMap_append, List.filterMap_eq_nil_iff.mpr, List.nil_append]
  intro p hp
  have := flat p hp
  cases p <;> first | (cases this; done) | rfl

def Assembler.Loop.labels (l : Loop) : List UInt16 := [l.start, l.exit, l.next] ++ l.fail.toList ++ l.body.toList

theorem mem_labels {l : Loop} {label : UInt16} : label ∈ l.labels ↔
    label = l.start ∨ label = l.exit ∨ label = l.next ∨ l.fail = some label ∨ l.body = some label := by
  simp [Loop.labels]

/-- What the directives of a loop rely on. -/
def Assembler.Loop.Suits (l : Loop) : Piece → Prop
  | .whileLoop => l.fail.isSome
  | .forLoop => l.body.isSome
  | .endless => True
  | _ => False

/-- A label that has been made, with the trace where it is placed. -/
def Awaits (c : Chunk) (want : Nat → Trace) (label : UInt16) (t : Trace) : Prop :=
  label.toNat < c.labels.size ∧ want label.toNat = t

/-- How the pieces of a function go with its control structures and with the trace behind its code. Nothing
need be known between statements. -/
inductive Over (c : Chunk) (want : Nat → Trace) : List Piece → List Control → Trace → Prop
  | nil {t : Trace} : Over c want [] [] t
  | value {ρ : List Piece} {cs : List Control} {t : Trace} (rest : Over c want ρ cs t.tail) :
      Over c want (.value :: ρ) cs t
  | object {ρ : List Piece} {cs : List Control} {t : Trace} {q : Nat} (made : c.code[q]? = some .newDynamic)
      (rest : Over c want ρ cs t) : Over c want (.object :: ρ) cs (some q :: t)
  | short {ρ : List Piece} {cs : List Control} {t : Trace} {finish : UInt16} (meets : Awaits c want finish (none :: t))
      (rest : Over c want ρ cs t) : Over c want (.short :: ρ) (.join finish :: cs) t
  | alternative {ρ : List Piece} {cs : List Control} {t : Trace} {otherwise finish : UInt16}
      (other : Awaits c want otherwise []) (meets : Awaits c want finish []) (rest : Over c want ρ cs []) :
      Over c want (.alternative :: ρ) (.branch otherwise finish :: cs) t
  | otherwise {ρ : List Piece} {cs : List Control} {t : Trace} {finish : UInt16} (meets : Awaits c want finish [])
      (rest : Over c want ρ cs []) : Over c want (.otherwise :: ρ) (.join finish :: cs) t
  | loop {p : Piece} {ρ : List Piece} {cs : List Control} {t : Trace} {l : Loop} (suits : l.Suits p)
      (labels : ∀ label ∈ l.labels, Awaits c want label []) (rest : Over c want ρ cs []) :
      Over c want (p :: ρ) (.loop l :: cs) t
  | scope {ρ : List Piece} {cs : List Control} {t : Trace} (rest : Over c want ρ cs []) : Over c want (.scope :: ρ) cs t
  | typeBody {ρ : List Piece} {cs : List Control} {t : Trace} {inherits : Bool} (rest : Over c want ρ cs []) :
      Over c want (.typeBody inherits :: ρ) cs t

/-- More has been written, and more labels have been made. -/
structure Continues (c : Chunk) (want : Nat → Trace) (c' : Chunk) (want' : Nat → Trace) : Prop where
  code : Grows c.code c'.code
  labels : c.labels.size ≤ c'.labels.size
  want : ∀ l < c.labels.size, want' l = want l

section Over
variable {c c' : Chunk} {want want' : Nat → Trace} {ρ : List Piece} {cs : List Control} {t : Trace}

theorem Continues.refl (c : Chunk) (want : Nat → Trace) : Continues c want c want := ⟨.refl _, le_rfl, fun _ _ => rfl⟩

theorem Awaits.follow {label : UInt16} (h : Awaits c want label t) (onward : Continues c want c' want') :
    Awaits c' want' label t := ⟨h.1.trans_le onward.labels, (onward.want _ h.1).trans h.2⟩

theorem Over.follow (h : Over c want ρ cs t) (onward : Continues c want c' want') : Over c' want' ρ cs t := by
  induction h with
  | nil => exact .nil
  | value _ ih => exact .value ih
  | object made _ ih => exact .object (onward.code _ _ made) ih
  | short meets _ ih => exact .short (meets.follow onward) ih
  | alternative other meets _ ih => exact .alternative (other.follow onward) (meets.follow onward) ih
  | otherwise meets _ ih => exact .otherwise (meets.follow onward) ih
  | loop suits labels _ ih => exact .loop suits (fun label hl => (labels label hl).follow onward) ih
  | scope _ ih => exact .scope ih
  | typeBody _ ih => exact .typeBody ih

/-- Between statements any trace will do. -/
theorem Over.bare (h : Over c want ρ cs t) (bare : Bare ρ) (u : Trace) : Over c want ρ cs u := by
  induction h generalizing u with
  | nil => exact .nil
  | value _ ih => exact .value (ih (bare_cons.mp bare).2 u.tail)
  | object => exact absurd (bare_cons.mp bare).1 (by simp [isInner])
  | short => exact absurd (bare_cons.mp bare).1 (by simp [isInner])
  | alternative other meets rest => exact .alternative other meets rest
  | otherwise meets rest => exact .otherwise meets rest
  | loop suits labels rest => exact .loop suits labels rest
  | scope rest => exact .scope rest
  | typeBody rest => exact .typeBody rest

theorem Over.temp {p : Piece} (temp : p.isTemp) (h : Over c want (p :: ρ) cs t) : Over c want ρ cs t.tail := by
  cases h with
  | value rest => exact rest
  | object made rest => exact rest
  | loop suits => cases p <;> first | (cases temp; done) | cases suits
  | _ => cases temp

theorem Over.temps {τ : List Piece} (temps : ∀ p ∈ τ, p.isTemp) (h : Over c want (τ ++ ρ) cs t) :
    Over c want ρ cs (t.drop τ.length) := by
  induction τ generalizing t with
  | nil => exact h
  | cons p τ ih =>
    have := ih (fun x hx => temps x (.tail _ hx)) (h.temp (temps p (.head _)))
    rwa [← List.drop_one, List.drop_drop, Nat.add_comm] at this

theorem over_values {n : Nat} (h : Over c want ρ cs (t.drop n)) : Over c want (List.replicate n .value ++ ρ) cs t := by
  induction n generalizing t with
  | zero => exact h
  | succ n ih => exact .value (ih (by rwa [← List.drop_one, List.drop_drop, Nat.add_comm]))

theorem Over.control_nil (h : Over c want [] cs t) : cs = [] := by
  cases h
  rfl

theorem Over.of_object (h : Over c want (.object :: ρ) cs t) : ∃ q u, t = some q :: u ∧
    c.code[q]? = some .newDynamic ∧ Over c want ρ cs u := by
  cases h with
  | object made rest => exact ⟨_, _, rfl, made, rest⟩
  | loop suits => cases suits

theorem Over.of_short (h : Over c want (.short :: ρ) cs t) : ∃ finish cs', cs = .join finish :: cs' ∧
    Awaits c want finish (none :: t) ∧ Over c want ρ cs' t := by
  cases h with
  | short meets rest => exact ⟨_, _, rfl, meets, rest⟩
  | loop suits => cases suits

theorem Over.of_alternative (h : Over c want (.alternative :: ρ) cs t) : ∃ otherwise finish cs',
    cs = .branch otherwise finish :: cs' ∧ Awaits c want otherwise [] ∧ Awaits c want finish [] ∧ Over c want ρ cs' [] := by
  cases h with
  | alternative other meets rest => exact ⟨_, _, _, rfl, other, meets, rest⟩
  | loop suits => cases suits

theorem Over.of_otherwise (h : Over c want (.otherwise :: ρ) cs t) : ∃ finish cs', cs = .join finish :: cs' ∧
    Awaits c want finish [] ∧ Over c want ρ cs' [] := by
  cases h with
  | otherwise meets rest => exact ⟨_, _, rfl, meets, rest⟩
  | loop suits => cases suits

/-- A loop that is open has its labels. -/
theorem Over.of_loop {p : Piece} (loops : p = .whileLoop ∨ p = .forLoop ∨ p = .endless) (h : Over c want (p :: ρ) cs t) :
    ∃ l cs', cs = .loop l :: cs' ∧ l.Suits p ∧ (∀ label ∈ l.labels, Awaits c want label []) ∧ Over c want ρ cs' [] := by
  cases h with
  | loop suits labels rest => exact ⟨_, _, rfl, suits, labels, rest⟩
  | _ => simp at loops

theorem Over.of_scope (h : Over c want (.scope :: ρ) cs t) : Over c want ρ cs [] := by
  cases h with
  | scope rest => exact rest
  | loop suits => cases suits

theorem Over.of_typeBody {inherits : Bool} (h : Over c want (.typeBody inherits :: ρ) cs t) : Over c want ρ cs [] := by
  cases h with
  | typeBody rest => exact rest
  | loop suits => cases suits

theorem Assembler.Loop.Suits.leave {l : Loop} {p : Piece} (h : l.Suits p) : { l with leaves := true }.Suits p := by
  cases p <;> exact h

theorem Over.leaveInnermost (h : Over c want ρ cs t) : Over c want ρ (leaveInnermost cs) t := by
  induction h with
  | nil => exact .nil
  | value _ ih => exact .value ih
  | object made _ ih => exact .object made ih
  | short meets _ ih => exact .short meets ih
  | alternative other meets _ ih => exact .alternative other meets ih
  | otherwise meets _ ih => exact .otherwise meets ih
  | loop suits labels rest => exact .loop suits.leave labels rest
  | scope _ ih => exact .scope ih
  | typeBody _ ih => exact .typeBody ih

theorem Over.leave (h : Over c want ρ cs t) : Over c want ρ (cs.map Control.leave) t := by
  induction h with
  | nil => exact .nil
  | value _ ih => exact .value ih
  | object made _ ih => exact .object made ih
  | short meets _ ih => exact .short meets ih
  | alternative other meets _ ih => exact .alternative other meets ih
  | otherwise meets _ ih => exact .otherwise meets ih
  | loop suits labels _ ih => exact .loop suits.leave labels ih
  | scope _ ih => exact .scope ih
  | typeBody _ ih => exact .typeBody ih

/-- The labels of the innermost loop. -/
theorem Over.innermost (h : Over c want ρ cs t) {l : Loop} (found : innermostLoop? cs = some l) :
    ∀ label ∈ l.labels, Awaits c want label [] := by
  induction h with
  | nil => cases found
  | loop suits labels =>
    cases found
    exact labels
  | value _ ih => exact ih found
  | object _ _ ih => exact ih found
  | short _ _ ih => exact ih found
  | alternative _ _ _ ih => exact ih found
  | otherwise _ _ ih => exact ih found
  | scope _ ih => exact ih found
  | typeBody _ ih => exact ih found

end Over

/-! ## Assemblies that fit -/

/-- A function under construction, with its control structures, the scopes that its pieces keep open, and the
trace behind its code. -/
structure Assembler.Body.Traced (kind : FunctionKind) (m : Modifiers) (want : Nat → Trace) (cs : List Control) (s : Nat)
    (t : Trace) (b : Body) : Prop where
  kind_eq : b.chunk.kind = kind
  modifiers_eq : b.chunk.modifiers = m
  thread : ∃ T, b.chunk.Threaded T want ∧ T b.chunk.code.size = t
  control : b.control = cs
  /-- A pure function declares no globals. -/
  deep : m.isPure → s < b.depth
  fills : kind.fills → m.isPure = false

def Assembler.Body.Fits (p : Pile) (b : Body) : Prop :=
  ∃ want cs t, b.Traced p.kind p.modifiers want cs (scopes p.pieces) t ∧ Over b.chunk want p.pieces cs t

structure Surrounds (F : Site) (ts : List Bool) (a : Assembler) : Prop where
  outer : List.Forall₂ Body.Fits F.outer a.outer
  aside : List.Forall₂ (fun q => Body.Fits ⟨q.1, q.2, []⟩) F.aside a.aside
  types : a.types.map TypeScope.hasSuper = ts
  chunks : ∀ c ∈ a.chunks, ∃ T want, c.Threaded T want

def Piles.flags (P : Piles) : List Bool := ScriptEngine.flags P.pieces ++ P.site.outer.flatMap fun p => ScriptEngine.flags p.pieces

structure Fitted (P : Piles) (a : Assembler) : Prop where
  around : Surrounds P.site P.flags a
  here : a.body.Fits ⟨P.site.kind, P.site.modifiers, P.pieces⟩

/-- What a directive starts from. -/
structure Ground where
  site : Site
  flags : List Bool
  chunk : Chunk
  want : Nat → Trace

/-- In the midst of a directive. -/
structure Stands (G : Ground) (ws : List (UInt16 × Trace)) (cs : List Control) (s : Nat) (t : Trace) (a : Assembler) : Prop where
  around : Surrounds G.site G.flags a
  here : ∃ want, a.body.Traced G.site.kind G.site.modifiers want cs s t ∧ Continues G.chunk G.want a.body.chunk want ∧
    ∀ w ∈ ws, Awaits a.body.chunk want w.1 w.2

section Stands
variable {G : Ground} {ws : List (UInt16 × Trace)} {cs : List Control} {s : Nat} {t u : Trace} {a a' : Assembler}
  {i : Instruction} {F : Site} {ρ : List Piece}

/-- A directive starts. -/
theorem Fitted.stands {τ : List Piece} (flat : ∀ p ∈ τ, p.isFlat) (h : Fitted ⟨F, τ ++ ρ⟩ a) : ∃ want cs t,
    Stands ⟨F, (⟨F, ρ⟩ : Piles).flags, a.body.chunk, want⟩ [] cs (scopes ρ) t a ∧ Over a.body.chunk want (τ ++ ρ) cs t := by
  obtain ⟨want, cs, t, traced, laid⟩ := h.here
  have around : Surrounds F (⟨F, ρ⟩ : Piles).flags a := by
    have := h.around
    unfold Piles.flags at this ⊢
    rwa [flags_flat flat] at this
  exact ⟨want, cs, t, ⟨around, want, scopes_flat flat ρ ▸ traced, .refl _ _, by simp⟩, laid⟩

/-- A directive is done. -/
theorem Stands.fitted {τ : List Piece} (flat : ∀ p ∈ τ, p.isFlat) {c : Chunk} {want : Nat → Trace}
    (h : Stands ⟨F, (⟨F, ρ⟩ : Piles).flags, c, want⟩ ws cs (scopes ρ) t a)
    (laid : ∀ c' want', Continues c want c' want' → (∀ w ∈ ws, Awaits c' want' w.1 w.2) → Over c' want' (τ ++ ρ) cs t) :
    Fitted ⟨F, τ ++ ρ⟩ a := by
  obtain ⟨want', traced, onward, awaits⟩ := h.here
  refine ⟨?_, want', cs, t, (scopes_flat flat ρ).symm ▸ traced, laid _ _ onward awaits⟩
  have := h.around
  unfold Piles.flags at this ⊢
  rwa [flags_flat flat]

/-- A label of a structure that is open is kept in mind. -/
theorem Stands.await {label : UInt16} (h : Stands G ws cs s t a) (awaits : Awaits G.chunk G.want label u) :
    Stands G ((label, u) :: ws) cs s t a := by
  obtain ⟨want, traced, onward, rest⟩ := h.here
  exact ⟨h.around, want, traced, onward, List.forall_mem_cons.mpr ⟨awaits.follow onward, rest⟩⟩

/-- Changes of the current function that neither its chunk nor its control structures show. -/
theorem Stands.books (h : Stands G ws cs s t a) (around : Surrounds G.site G.flags a') (code : a'.body.chunk.code = a.body.chunk.code)
    (labels : a'.body.chunk.labels = a.body.chunk.labels) (kind : a'.body.chunk.kind = a.body.chunk.kind)
    (modifiers : a'.body.chunk.modifiers = a.body.chunk.modifiers) (control : a'.body.control = a.body.control)
    (depth : a'.body.depth = a.body.depth) : Stands G ws cs s t a' := by
  obtain ⟨want, traced, onward, awaits⟩ := h.here
  obtain ⟨T, thread, last⟩ := traced.thread
  refine ⟨around, want, ⟨kind.trans traced.kind_eq, modifiers.trans traced.modifiers_eq, ⟨T, thread.congr code labels modifiers, ?_⟩,
    control.trans traced.control, depth ▸ traced.deep, traced.fills⟩, ⟨?_, ?_, onward.want⟩, ?_⟩
  · rw [code]
    exact last
  · rw [code]
    exact onward.code
  · rw [labels]
    exact onward.labels
  · unfold Awaits at awaits ⊢
    rw [labels]
    exact awaits

theorem Surrounds.same (h : Surrounds G.site G.flags a) (outer : a'.outer = a.outer) (aside : a'.aside = a.aside)
    (types : a'.types = a.types) (chunks : a'.chunks = a.chunks) : Surrounds G.site G.flags a' :=
  ⟨outer ▸ h.outer, aside ▸ h.aside, types ▸ h.types, chunks ▸ h.chunks⟩

theorem Stands.kind (h : Stands G ws cs s t a) : a.body.chunk.kind = G.site.kind := h.here.elim fun _ h => h.1.kind_eq

theorem Stands.modifiers (h : Stands G ws cs s t a) : a.body.chunk.modifiers = G.site.modifiers :=
  h.here.elim fun _ h => h.1.modifiers_eq

theorem Stands.control (h : Stands G ws cs s t a) : a.body.control = cs := h.here.elim fun _ h => h.1.control

/-- Other variables are in scope, or have been captured. -/
theorem stands_modifyBody {f : Body → Body} (h : Stands G ws cs s t a) (chunk : (f a.body).chunk = a.body.chunk)
    (control : (f a.body).control = a.body.control) (depth : (f a.body).depth = a.body.depth) :
    Safely (modifyBody f) a fun _ => Stands G ws cs s t :=
  h.books (h.around.same rfl rfl rfl rfl) (congrArg Chunk.code chunk) (congrArg Chunk.labels chunk)
    (congrArg Chunk.kind chunk) (congrArg Chunk.modifiers chunk) control depth

/-- An instruction is written. -/
theorem stands_emit (h : Stands G ws cs s t a) (falls : ∀ o, i.falls → Knows (i.trace o t) u)
    (target : ∀ o l, i.target? = some l → ∃ v, (l, v) ∈ ws ∧ Knows (i.trace o t) v)
    (guard : G.site.modifiers.isPure → ∀ c : Chunk, Grows G.chunk.code c.code → c.Guarded t i) :
    Safely (emit i) a fun _ => Stands G ws cs s u := by
  obtain ⟨want, traced, onward, awaits⟩ := h.here
  obtain ⟨T, thread, rfl⟩ := traced.thread
  refine safely_modify ⟨h.around.same rfl rfl rfl rfl, want, ⟨traced.kind_eq, traced.modifiers_eq,
    ⟨_, thread.emit (falls _) (fun l hl => ?_) fun pure => ?_, ?_⟩, traced.control, traced.deep, traced.fills⟩,
    ⟨onward.code.trans (grows_push _ _), onward.labels, onward.want⟩, awaits⟩
  · obtain ⟨v, mem, knows⟩ := target a.body.chunk.code.size l hl
    obtain ⟨bound, same⟩ := awaits _ mem
    exact ⟨bound, same ▸ knows⟩
  · rw [traced.modifiers_eq] at pure
    exact guard pure _ onward.code
  · exact (congrArg _ size_emit).trans (Function.update_self _ _ _)

/-- An instruction of which only the effect matters. -/
theorem stands_effect (takes gives : Nat) (h : Stands G ws cs s t a) (effect : i.effect = some (takes, gives))
    (target : i.target? = none) (guard : G.site.modifiers.isPure → i.stores = false) :
    Safely (emit i) a fun _ => Stands G ws cs s (List.replicate gives none ++ t.drop takes) :=
  stands_emit h (fun _ _ => trace_of_effect takes gives effect) (fun _ l hl => by rw [target] at hl; cases hl)
    fun pure _ _ => guarded_of_not_stores (guard pure)

/-- An instruction behind which nothing is known. -/
theorem stands_calm (h : Stands G ws cs s t a) (target : i.target? = none)
    (guard : G.site.modifiers.isPure → i.stores = false) : Safely (emit i) a fun _ => Stands G ws cs s [] :=
  stands_emit h (fun _ _ => knows_nil) (fun _ l hl => by rw [target] at hl; cases hl)
    fun pure _ _ => guarded_of_not_stores (guard pure)

theorem stands_pop {x : Option Nat} (h : Stands G ws cs s (x :: t) a) : Safely (emit .pop) a fun _ => Stands G ws cs s t :=
  stands_effect 1 0 h rfl rfl fun _ => rfl

theorem stands_goto {label : UInt16} {v : Trace} (h : Stands G ws cs s t a) (mem : (label, v) ∈ ws) (knows : Knows t v)
    (u : Trace) : Safely (emit (.goto label)) a fun _ => Stands G ws cs s u :=
  stands_emit h nofun (fun _ _ hl => Option.some.inj hl ▸ ⟨v, mem, knows⟩) fun _ _ _ => trivial

theorem stands_gotoIfFalse {label : UInt16} {v : Trace} (h : Stands G ws cs s t a) (mem : (label, v) ∈ ws)
    (knows : Knows (none :: t.tail) v) : Safely (emit (.gotoIfFalse label)) a fun _ => Stands G ws cs s (none :: t.tail) := by
  have effect (o : Nat) : Knows (Instruction.trace o t (.gotoIfFalse label)) (none :: t.tail) :=
    List.drop_one ▸ trace_of_effect 1 1 rfl
  exact stands_emit h (fun o _ => effect o) (fun o _ hl => Option.some.inj hl ▸ ⟨v, mem, (effect o).trans knows⟩)
    fun _ _ _ => trivial

theorem stands_constant (h : Stands G ws cs s t a) (k : Constant) : Safely (constant k) a fun _ => Stands G ws cs s t := by
  refine safely_bind (safely_get ?_)
  split
  · rename_i index _
    have put : (a.body.chunk.putConstant index k).code = a.body.chunk.code ∧
        (a.body.chunk.putConstant index k).labels = a.body.chunk.labels ∧
        (a.body.chunk.putConstant index k).kind = a.body.chunk.kind ∧
        (a.body.chunk.putConstant index k).modifiers = a.body.chunk.modifiers := by
      unfold Chunk.putConstant
      split <;> exact ⟨rfl, rfl, rfl, rfl⟩
    obtain ⟨code, labels, kind, modifiers⟩ := put
    exact safely_bind (safely_modify (safely_pure
      (h.books (h.around.same rfl rfl rfl rfl) code labels kind modifiers rfl rfl)))
  · exact safely_throw rfl

theorem stands_nameConstant (h : Stands G ws cs s t a) (name : String) :
    Safely (nameConstant name) a fun _ => Stands G ws cs s t := stands_constant h _

theorem stands_newLabel (h : Stands G ws cs s t a) (name : String) (u : Trace) :
    Safely (newLabel name) a fun label => Stands G ((label, u) :: ws) cs s t := by
  refine safely_bind (safely_get ?_)
  unfold Chunk.nextLabel?
  split_ifs with room
  swap
  · exact safely_throw rfl
  obtain ⟨want, traced, onward, awaits⟩ := h.here
  obtain ⟨T, thread, last⟩ := traced.thread
  have size : (UInt16.ofNat a.body.chunk.labels.size).toNat = a.body.chunk.labels.size := by
    rw [UInt16.toNat_ofNat', Nat.mod_eq_of_lt (by simpa using room)]
  have more : (a.body.chunk.addLabel name).labels.size = a.body.chunk.labels.size + 1 := Array.size_push _
  refine safely_bind (safely_modify (safely_pure ⟨h.around.same rfl rfl rfl rfl, _, ⟨traced.kind_eq, traced.modifiers_eq,
    ⟨T, thread.addLabel name u, last⟩, traced.control, traced.deep, traced.fills⟩,
    ⟨onward.code, onward.labels.trans (more ▸ Nat.le_succ _), fun l hl => ?_⟩, ?_⟩))
  · rw [Function.update_of_ne (hl.trans_le onward.labels).ne]
    exact onward.want l hl
  · refine List.forall_mem_cons.mpr ⟨⟨?_, ?_⟩, fun w hw => ?_⟩
    · rw [size]
      exact more ▸ Nat.lt_succ_self _
    · rw [size, Function.update_self]
    · obtain ⟨bound, same⟩ := awaits w hw
      refine ⟨bound.trans (more ▸ Nat.lt_succ_self _), ?_⟩
      rw [Function.update_of_ne bound.ne]
      exact same

theorem stands_placeLabel {label : UInt16} (h : Stands G ws cs s t a) (mem : (label, u) ∈ ws) (knows : Knows t u) :
    Safely (placeLabel label) a fun _ => Stands G ws cs s u := by
  obtain ⟨want, traced, onward, awaits⟩ := h.here
  obtain ⟨T, thread, rfl⟩ := traced.thread
  obtain ⟨-, same⟩ := awaits _ mem
  have size : (a.body.chunk.labels.setIfInBounds label.toNat (UInt32.ofNat a.body.chunk.code.size)).size =
      a.body.chunk.labels.size := Array.size_setIfInBounds
  refine safely_modify ⟨h.around.same rfl rfl rfl rfl, want, ⟨traced.kind_eq, traced.modifiers_eq,
    ⟨_, thread.placeLabel label knows ?_, Function.update_self _ _ _⟩, traced.control, traced.deep, traced.fills⟩,
    ⟨onward.code, onward.labels.trans size.ge, onward.want⟩, fun w hw => ?_⟩
  · rw [same]
    exact knows_refl _
  · obtain ⟨bound, wanted⟩ := awaits w hw
    exact ⟨bound.trans_le size.ge, wanted⟩

theorem stands_pushControl (h : Stands G ws cs s t a) (c : Control) :
    Safely (pushControl c) a fun _ => Stands G ws (c :: cs) s t := by
  obtain ⟨want, traced, rest⟩ := h.here
  exact safely_modify ⟨h.around.same rfl rfl rfl rfl, want,
    ⟨traced.kind_eq, traced.modifiers_eq, traced.thread, congrArg _ traced.control, traced.deep, traced.fills⟩, rest⟩

theorem stands_popControl {c : Control} (h : Stands G ws (c :: cs) s t a) :
    Safely popControl a fun r a' => r = c ∧ Stands G ws cs s t a' := by
  obtain ⟨want, traced, rest⟩ := h.here
  refine safely_bind (safely_getBody ?_)
  rw [traced.control]
  exact safely_bind (safely_modify (safely_pure ⟨rfl, h.around.same rfl rfl rfl rfl, want,
    ⟨traced.kind_eq, traced.modifiers_eq, traced.thread, rfl, traced.deep, traced.fills⟩, rest⟩))

theorem stands_popJoin {label : UInt16} (h : Stands G ws (.join label :: cs) s t a) :
    Safely popJoin a fun r a' => r = label ∧ Stands G ws cs s t a' :=
  safely_then (stands_popControl h) fun _ _ ⟨eq, h⟩ => eq ▸ safely_pure ⟨rfl, h⟩

theorem stands_popLoop {l : Loop} (h : Stands G ws (.loop l :: cs) s t a) :
    Safely popLoop a fun r a' => r = l ∧ Stands G ws cs s t a' :=
  safely_then (stands_popControl h) fun _ _ ⟨eq, h⟩ => eq ▸ safely_pure ⟨rfl, h⟩

end Stands

end ScriptEngine
