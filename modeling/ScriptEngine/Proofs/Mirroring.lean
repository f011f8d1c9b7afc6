import ScriptEngine.Proofs.Assembling

/-!
# What decides whether a directive can be carried out

Of a function under assembly its code, its tables and its captures do not: the names and
depths of its locals, the shape of its control structures, its kind and its modifiers do.
This is its form, and the form of an assembly has the forms of all functions, the types and
the test sets that are open. What can be carried out in one assembly can be carried out in
every other one of that form, unless a table is full there (`mirrors_perform`).

A function that is marked as local or pure captures nothing. The forms do not say so; it is
kept apart, as `Sealed`.
-/
namespace ScriptEngine

open Assembler

/-- The faults that say that something does not fit. -/
def CompileFault.isLimit : CompileFault → Bool
  | .tooMany _ | .nestedTooDeeply => true
  | _ => false

namespace Assembler

def Local.key (l : Local) : String × Option Nat := (l.name, l.depth)

/-- A control structure without its labels. -/
inductive Control.Form where
  | join
  | branch
  | loop (fails hasBody : Bool) (depth : Nat) (leaves : Bool)
  deriving DecidableEq, Repr

def Control.form : Control → Control.Form
  | .join _ => .join
  | .branch _ _ => .branch
  | .loop l => .loop l.fail.isSome l.body.isSome l.depth l.leaves

structure Body.Form where
  locals : List (String × Option Nat)
  depth : Nat
  control : List Control.Form
  kind : FunctionKind
  modifiers : Modifiers
  deriving DecidableEq, Repr

def Body.form (b : Body) : Body.Form :=
  ⟨b.locals.map Local.key, b.depth, b.control.map Control.form, b.chunk.kind, b.chunk.modifiers⟩

/-- Whether a function may not capture. -/
abbrev Body.restricted (b : Body) : Bool := b.chunk.modifiers.isLocal || b.chunk.modifiers.isPure

/-- A function that may not capture has not captured. -/
def Body.Sealed (b : Body) : Prop := b.restricted = true → b.captures = #[]

structure Form where
  body : Body.Form
  outer : List Body.Form
  aside : List Body.Form
  types : List TypeScope
  testSets : List Nat
  deriving DecidableEq, Repr

end Assembler

namespace Assembler

def form (a : Assembler) : Form :=
  ⟨a.body.form, a.outer.map Body.form, a.aside.map Body.form, a.types, a.testSets⟩

structure Sealed (a : Assembler) : Prop where
  body : a.body.Sealed
  outer : ∀ b ∈ a.outer, b.Sealed
  aside : ∀ b ∈ a.aside, b.Sealed

/-- The form of an assembly that is sealed. -/
structure Like (a b : Assembler) : Prop where
  form : b.form = a.form
  closed : a.Sealed

namespace Like
variable {a b : Assembler}

theorem body (h : Like a b) : b.body.form = a.body.form := congrArg Form.body h.form

theorem outer (h : Like a b) : b.outer.map Body.form = a.outer.map Body.form := congrArg Form.outer h.form

theorem aside (h : Like a b) : b.aside.map Body.form = a.aside.map Body.form := congrArg Form.aside h.form

theorem types (h : Like a b) : b.types = a.types := congrArg Form.types h.form

theorem testSets (h : Like a b) : b.testSets = a.testSets := congrArg Form.testSets h.form

theorem level (h : Like a b) : b.level = a.level := by
  unfold Assembler.level
  simpa using congrArg List.length h.outer

end Like

section Forms
variable {b c : Body} (h : c.form = b.form)
include h

theorem locals_of_form : c.locals.map Local.key = b.locals.map Local.key := congrArg Body.Form.locals h

theorem depth_of_form : c.depth = b.depth := congrArg Body.Form.depth h

theorem control_of_form : c.control.map Control.form = b.control.map Control.form := congrArg Body.Form.control h

theorem kind_of_form : c.chunk.kind = b.chunk.kind := congrArg Body.Form.kind h

theorem modifiers_of_form : c.chunk.modifiers = b.chunk.modifiers := congrArg Body.Form.modifiers h

theorem restricted_of_form : c.restricted = b.restricted := by
  unfold Body.restricted
  rw [modifiers_of_form h]

theorem length_of_form : c.locals.length = b.locals.length := by
  simpa using congrArg List.length (locals_of_form h)

end Forms

end Assembler

/-! ## Assemblies side by side -/

/-- The result is as `Q` says, unless something did not fit. -/
def UpToLimit {α : Type} (r : EStateM.Result CompileFault Assembler α) (Q : α → Assembler → Prop) : Prop :=
  match r with
  | .ok r a => Q r a
  | .error fault _ => fault.isLimit = true

/-- What the first comes to from a sealed assembly, the second comes to from every other one of that form. -/
def Mirrors {α β : Type} (x : Assembly α) (y : Assembly β) (R : α → β → Prop) : Prop :=
  ∀ a b, Like a b → Does x a fun r a' => UpToLimit (y b) fun s b' => Like a' b' ∧ R r s

/-- Fails only when something does not fit, and leaves the form as it is. -/
def Quiet {α : Type} (x : Assembly α) : Prop :=
  ∀ a, UpToLimit (x a) fun _ a' => a'.form = a.form ∧ (a.Sealed → a'.Sealed)

section Rules
variable {α β γ δ : Type}

theorem UpToLimit.mono {r : EStateM.Result CompileFault Assembler α} {P Q : α → Assembler → Prop}
    (h : UpToLimit r P) (imp : ∀ r a, P r a → Q r a) : UpToLimit r Q := by
  cases r with
  | ok => exact imp _ _ h
  | error => exact h

theorem UpToLimit.bind {x : Assembly α} {f : α → Assembly β} {a : Assembler} {Q : β → Assembler → Prop}
    (h : UpToLimit (x a) fun r a' => UpToLimit (f r a') Q) : UpToLimit ((x >>= f) a) Q := by
  change UpToLimit (EStateM.bind x f a) Q
  unfold EStateM.bind
  cases hx : x a with
  | ok r a' => rwa [hx] at h
  | error => rwa [hx] at h

namespace Quiet

theorem pure (r : α) : Quiet (Pure.pure r) := fun _ => ⟨rfl, id⟩

theorem bind {x : Assembly α} {f : α → Assembly β} (first : Quiet x) (then_ : ∀ r, Quiet (f r)) : Quiet (x >>= f) :=
  fun a => ((first a).mono fun r a' h => (then_ r a').mono fun _ _ h' => ⟨h'.1.trans h.1, h'.2 ∘ h.2⟩).bind

theorem ite {p : Prop} [Decidable p] {x y : Assembly α} (hx : Quiet x) (hy : Quiet y) : Quiet (if p then x else y) := by
  split
  · exact hx
  · exact hy

theorem forM {f : α → Assembly Unit} (xs : List α) (each : ∀ x, Quiet (f x)) : Quiet (xs.forM f) := by
  induction xs with
  | nil => exact .pure ()
  | cons x xs ih => exact (each x).bind fun _ => ih

theorem mapM {f : α → Assembly β} (xs : List α) (each : ∀ x, Quiet (f x)) : Quiet (xs.mapM f) := by
  induction xs with
  | nil => exact .pure []
  | cons x xs ih =>
    rw [List.mapM_cons]
    exact (each x).bind fun _ => ih.bind fun _ => .pure _

theorem get : Quiet (get : Assembly Assembler) := fun _ => ⟨rfl, id⟩

theorem getBody : Quiet getBody := fun _ => ⟨rfl, id⟩

/-- A change of the current function that its form does not show. -/
theorem body {f : Assembler → Body} (form : ∀ a, (f a).form = a.body.form)
    (captures : ∀ a, (f a).captures = a.body.captures) : Quiet (modify fun a => { a with body := f a }) := by
  refine fun a => ⟨by simp only [Assembler.form, form], fun h => ⟨fun restricted => ?_, h.outer, h.aside⟩⟩
  rw [restricted_of_form (form a)] at restricted
  exact (captures a).trans (h.body restricted)

end Quiet

theorem mirrors_pure {r : α} {s : β} {R : α → β → Prop} (h : R r s) : Mirrors (pure r) (pure s) R := by
  rintro a b like _ _ ⟨⟩
  exact ⟨like, h⟩

theorem mirrors_bind {x : Assembly α} {y : Assembly β} {f : α → Assembly γ} {g : β → Assembly δ}
    {R : α → β → Prop} {S : γ → δ → Prop} (first : Mirrors x y R)
    (then_ : ∀ r s, R r s → Mirrors (f r) (g s) S) : Mirrors (x >>= f) (y >>= g) S := fun a b like =>
  does_bind fun r a' run t a'' run' =>
    ((first a b like r a' run).mono fun s b' h => then_ r s h.2 a' b' h.1 t a'' run').bind

/-- What the first parts come to does not matter to the rest. -/
theorem mirrors_seq {x : Assembly α} {y : Assembly β} {f : α → Assembly γ} {g : β → Assembly δ}
    {R : α → β → Prop} {S : γ → δ → Prop} (first : Mirrors x y R)
    (then_ : ∀ r s, Mirrors (f r) (g s) S) : Mirrors (x >>= f) (y >>= g) S :=
  mirrors_bind first fun r s _ => then_ r s

/-- Nothing is said of a first assembly that fails. -/
theorem mirrors_throw {fault : CompileFault} {y : Assembly β} {R : α → β → Prop} :
    Mirrors (throw fault : Assembly α) y R := fun _ _ _ => does_throw

theorem mirrors_throw_bind {fault : CompileFault} {f : α → Assembly γ} {y : Assembly β} {R : γ → β → Prop} :
    Mirrors ((throw fault : Assembly α) >>= f) y R := fun _ _ _ => does_bind does_throw

theorem mirrors_ite {p q : Prop} [Decidable p] [Decidable q] {x x' : Assembly α} {y y' : Assembly β}
    {R : α → β → Prop} (same : q ↔ p) (yes : Mirrors x y R) (no : Mirrors x' y' R) :
    Mirrors (if p then x else x') (if q then y else y') R := by
  by_cases h : p
  · rwa [if_pos h, if_pos (same.mpr h)]
  · rwa [if_neg h, if_neg fun h' => h (same.mp h')]

theorem mirrors_get : Mirrors (get : Assembly Assembler) get Like := by
  rintro a b like _ _ ⟨⟩
  exact ⟨like, like⟩

theorem mirrors_getBody : Mirrors getBody getBody fun b c => c.form = b.form ∧ b.Sealed := by
  rintro a b like _ _ ⟨⟩
  exact ⟨like, like.body, like.closed.body⟩

theorem mirrors_quiet {x : Assembly α} {y : Assembly β} (hx : Quiet x) (hy : Quiet y) :
    Mirrors x y fun _ _ => True := by
  intro a b like r a' run
  have first := hx a
  rw [run] at first
  exact (hy b).mono fun _ b' h => ⟨⟨h.1.trans (like.form.trans first.1.symm), first.2 like.closed⟩, trivial⟩

theorem mirrors_set {a' b' : Assembler} (like : Like a' b') :
    Mirrors (set a' : Assembly PUnit) (set b') fun _ _ => True := by
  rintro a b - _ _ ⟨⟩
  exact ⟨like, trivial⟩

theorem mirrors_modify {f g : Assembler → Assembler} (each : ∀ a b, Like a b → Like (f a) (g b)) :
    Mirrors (modify f) (modify g) fun _ _ => True := by
  rintro a b like _ _ ⟨⟩
  exact ⟨each a b like, trivial⟩

theorem mirrors_body {f g : Body → Body} (form : ∀ b c, c.form = b.form → (g c).form = (f b).form)
    (closed : ∀ b, b.Sealed → (f b).Sealed) : Mirrors (modifyBody f) (modifyBody g) fun _ _ => True :=
  mirrors_modify fun a b like => by
    refine ⟨?_, closed _ like.closed.body, like.closed.outer, like.closed.aside⟩
    simp only [Assembler.form, form _ _ like.body, like.outer, like.aside, like.types, like.testSets]

theorem mirrors_forM {f : α → Assembly Unit} {g : β → Assembly Unit} {xs : List α} {ys : List β} {R : α → β → Prop}
    (same : List.Forall₂ R xs ys) (each : ∀ x y, R x y → Mirrors (f x) (g y) fun _ _ => True) :
    Mirrors (xs.forM f) (ys.forM g) fun _ _ => True := by
  induction same with
  | nil => exact mirrors_pure trivial
  | cons first _ ih => exact mirrors_seq (each _ _ first) fun _ _ => ih

end Rules

/-! ## Code, constants and labels -/

theorem quiet_emit (i : Instruction) : Quiet (emit i) :=
  Quiet.body (f := fun a => a.body.emit i _) (fun _ => rfl) fun _ => rfl

theorem quiet_chunk {f : Chunk → Chunk} (kind : ∀ c, (f c).kind = c.kind)
    (modifiers : ∀ c, (f c).modifiers = c.modifiers) : Quiet (modifyChunk f) :=
  Quiet.body (f := fun a => { a.body with chunk := f a.body.chunk })
    (fun a => by simp only [Body.form, kind, modifiers]) fun _ => rfl

theorem quiet_limit {α : Type} {fault : CompileFault} (limit : fault.isLimit = true) :
    Quiet (throw fault : Assembly α) := fun _ => limit

theorem quiet_constant (value : Constant) : Quiet (constant value) := by
  refine .bind .get fun a => ?_
  split
  · refine (quiet_chunk (fun c => ?_) fun c => ?_).bind fun _ => .pure _
    all_goals
      unfold Chunk.putConstant
      split <;> rfl
  · exact quiet_limit rfl

theorem quiet_nameConstant (name : String) : Quiet (nameConstant name) := quiet_constant _

theorem quiet_emitNamed (make : UInt16 → Instruction) (name : String) : Quiet (emitNamed make name) :=
  (quiet_nameConstant name).bind fun _ => quiet_emit _

theorem quiet_newLabel (name : String) : Quiet (newLabel name) := by
  refine .bind .get fun a => ?_
  split
  · exact (quiet_chunk (f := (·.addLabel name)) (fun _ => rfl) fun _ => rfl).bind fun _ => .pure _
  · exact quiet_limit rfl

theorem quiet_placeLabel (label : UInt16) : Quiet (placeLabel label) := quiet_chunk (fun _ => rfl) fun _ => rfl

theorem quiet_number (n : Number) : Quiet (number n) := by
  have large : Quiet (do emit (.pushConstant (← constant (.number n)))) :=
    (quiet_constant _).bind fun _ => quiet_emit _
  unfold number
  split
  · exact .ite (quiet_emit _) large
  · exact large

theorem quiet_emitDrops (depth : Nat) : Quiet (emitDrops depth) :=
  .bind .getBody fun _ => .forM _ fun _ => quiet_emit _

theorem quiet_note (keyword : String) (line : Nat) : Quiet (note keyword line) :=
  fun _ => ⟨rfl, fun h => ⟨h.body, h.outer, h.aside⟩⟩

theorem quiet_storeMatching (fields : List String) : Quiet (storeMatching fields) := by
  refine .bind .getBody fun b => .forM _ fun x => ?_
  dsimp only
  split
  · exact .ite ((quiet_emit _).bind fun _ => (quiet_emit _).bind fun _ => (quiet_emit _).bind fun _ => quiet_emit _)
      (.pure _)
  · exact .pure _

theorem quiet_implicitReturn : Quiet implicitReturn :=
  .bind .getBody fun _ => .ite ((quiet_emit _).bind fun _ => quiet_emit _)
    (.ite ((quiet_emit _).bind fun _ => quiet_emit _) ((Quiet.forM _ fun _ => quiet_emit _).bind fun _ => quiet_emit _))

/-! ## Scopes and declarations -/

theorem form_iff {b c : Body} : c.form = b.form ↔ c.locals.map Local.key = b.locals.map Local.key ∧
    c.depth = b.depth ∧ c.control.map Control.form = b.control.map Control.form ∧
    c.chunk.kind = b.chunk.kind ∧ c.chunk.modifiers = b.chunk.modifiers := by
  simp only [Body.form, Body.Form.mk.injEq]

theorem declaredHere_keys (depth : Nat) (ls : List Local) (name : String) : declaredHere depth ls name =
    ((ls.map Local.key).takeWhile fun k => k.2.all (depth ≤ ·)).any (·.1 == name) := by
  rw [List.takeWhile_map, List.any_map]
  rfl

theorem length_localsAbove (depth : Nat) (ls : List Local) : (localsAbove depth ls).length =
    ((ls.map Local.key).takeWhile fun k => k.2.any (depth < ·)).length := by
  rw [List.takeWhile_map, List.length_map]
  rfl

section Locals
variable {ls ms : List Local} (same : ms.map Local.key = ls.map Local.key)
include same

theorem slotOf_keys (name : String) : slotOf name ms = slotOf name ls := by
  unfold slotOf
  induction ls generalizing ms with
  | nil =>
    obtain rfl := List.map_eq_nil_iff.mp same
    rfl
  | cons l ls ih =>
    obtain ⟨m, ms, rfl, head, tail⟩ := List.map_eq_cons_iff.mp same
    obtain ⟨named, deep⟩ := Prod.mk.inj head
    have length : ms.length = ls.length := by simpa using congrArg List.length tail
    unfold findLocal
    by_cases here : l.name = name
    · rw [if_pos here, if_pos (named.trans here)]
      simp only [deep, length]
    · rw [if_neg here, if_neg fun h => here (named.symm.trans h)]
      exact ih tail

theorem declaredHere_of_keys (depth : Nat) (name : String) :
    declaredHere depth ms name = declaredHere depth ls name := by
  rw [declaredHere_keys, same, ← declaredHere_keys]

end Locals

theorem markCaptured_keys (slot : Nat) (ls : List Local) : (markCaptured slot ls).map Local.key = ls.map Local.key := by
  induction ls with
  | nil => rfl
  | cons l ls ih =>
    unfold markCaptured
    split
    · rfl
    · rw [List.map_cons, List.map_cons, ih]

/-- The same change of locals, depth and control structures. -/
theorem mirrors_beginScope : Mirrors beginScope beginScope fun _ _ => True :=
  mirrors_body (fun b c h => by rw [form_iff] at h ⊢; exact ⟨h.1, congrArg (· + 1) h.2.1, h.2.2⟩) fun _ => id

theorem mirrors_emitDrops (depth depth' : Nat) : Mirrors (emitDrops depth) (emitDrops depth') fun _ _ => True :=
  mirrors_quiet (quiet_emitDrops _) (quiet_emitDrops _)

theorem mirrors_endScope : Mirrors endScope endScope fun _ _ => True := by
  refine mirrors_seq (mirrors_body (fun b c h => ?_) fun _ => id) fun _ _ =>
    mirrors_bind mirrors_getBody fun b c h => mirrors_seq (mirrors_emitDrops _ _) fun _ _ =>
      mirrors_body (fun b' c' h' => ?_) fun _ => id
  · rw [form_iff] at h ⊢
    exact ⟨h.1, congrArg (· - 1) h.2.1, h.2.2⟩
  · rw [form_iff] at h' ⊢
    refine ⟨?_, h'.2⟩
    dsimp only
    rw [length_localsAbove, length_localsAbove, List.map_drop, List.map_drop, h'.1, depth_of_form h.1]

theorem mirrors_pushLocal (name : String) : Mirrors (pushLocal name) (pushLocal name) fun _ _ => True := by
  have push : Mirrors (modifyBody fun b => { b with locals := ⟨name, none, false⟩ :: b.locals })
      (modifyBody fun b => { b with locals := ⟨name, none, false⟩ :: b.locals }) fun _ _ => True :=
    mirrors_body (fun b c h => by
      rw [form_iff] at h ⊢
      exact ⟨by simp only [List.map_cons, h.1], h.2⟩) fun _ => id
  refine mirrors_bind mirrors_getBody fun b c h => ?_
  rw [length_of_form h.1]
  split
  · exact mirrors_throw_bind
  · exact push

theorem mirrors_declareLocal (name : String) : Mirrors (declareLocal name) (declareLocal name) fun _ _ => True := by
  refine mirrors_bind mirrors_getBody fun b c h => ?_
  rw [depth_of_form h.1, declaredHere_of_keys (locals_of_form h.1)]
  split_ifs
  · exact mirrors_pure trivial
  · exact mirrors_throw_bind
  · exact mirrors_pushLocal name

theorem mirrors_complete : Mirrors complete complete fun _ _ => True := by
  refine mirrors_body (fun b c h => ?_) fun b h => ?_
  · obtain ⟨keys, depth, rest⟩ := form_iff.mp h
    by_cases top : b.depth = 0
    · rwa [if_pos top, if_pos (depth.trans top)]
    rw [if_neg top, if_neg fun h => top (depth.symm.trans h)]
    cases hb : b.locals with
    | nil =>
      rw [hb] at keys
      rwa [List.map_eq_nil_iff.mp keys]
    | cons l ls =>
      rw [hb] at keys
      obtain ⟨m, ms, hc, head, tail⟩ := List.map_eq_cons_iff.mp keys
      rw [hc]
      refine form_iff.mpr ⟨?_, depth, rest⟩
      simp only [List.map_cons, tail, Local.key, depth, (Prod.mk.inj head).1]
  · split
    · exact h
    · split <;> exact h

theorem mirrors_reserve (name name' : String) : Mirrors (nameConstant name) (nameConstant name') fun _ _ => True :=
  mirrors_quiet (quiet_nameConstant _) (quiet_nameConstant _)

theorem mirrors_emit (i j : Instruction) : Mirrors (emit i) (emit j) fun _ _ => True :=
  mirrors_quiet (quiet_emit _) (quiet_emit _)

theorem mirrors_declare (name : String) : Mirrors (declare name) (declare name) fun _ _ => True :=
  mirrors_bind mirrors_getBody fun b c h => mirrors_ite (by rw [depth_of_form h.1]) (mirrors_declareLocal name)
    (mirrors_seq (mirrors_reserve _ _) fun _ _ => mirrors_pure trivial)

theorem mirrors_define (name : String) : Mirrors (define name) (define name) fun _ _ => True :=
  mirrors_bind mirrors_getBody fun b c h => mirrors_ite (by rw [depth_of_form h.1]) mirrors_complete
    (mirrors_seq (mirrors_reserve _ _) fun _ _ => mirrors_emit _ _)

theorem mirrors_defineMany (names : List String) : Mirrors (defineMany names) (defineMany names) fun _ _ => True :=
  mirrors_bind mirrors_getBody fun b c h => mirrors_ite (by rw [depth_of_form h.1])
    (mirrors_forM (List.forall₂_same.mpr fun _ _ => rfl) fun x y same => by
      subst same
      exact mirrors_seq (mirrors_declareLocal x) fun _ _ => mirrors_complete)
    (mirrors_quiet (.bind (.mapM _ quiet_nameConstant) fun _ => .forM _ fun _ => quiet_emit _)
      (.bind (.mapM _ quiet_nameConstant) fun _ => .forM _ fun _ => quiet_emit _))

/-! ## Variables -/

theorem addCapture_form {b b' : Body} {c : Capture} {i : UInt8} (added : addCapture b c = .ok (i, b'))
    (closed : b.Sealed) :
    b'.form = b.form ∧ b'.Sealed ∧ b.restricted = false := by
  cases restricted : b.restricted with
  | true =>
    unfold addCapture at added
    simp [closed restricted, restricted] at added
  | false =>
    unfold addCapture at added
    split at added
    · cases added
      exact ⟨rfl, closed, rfl⟩
    · rw [show (b.chunk.modifiers.isLocal || b.chunk.modifiers.isPure) = false from restricted] at added
      split_ifs at added
      cases added
      exact ⟨rfl, fun h => absurd (restricted.symm.trans h) (by decide), rfl⟩

/-- A function that is not marked captures, unless it has captured too much. -/
theorem addCapture_free {b : Body} (c : Capture) (free : b.restricted = false) :
    (∃ i b', addCapture b c = .ok (i, b') ∧ b'.form = b.form) ∨
      ∃ fault, addCapture b c = .error fault ∧ fault.isLimit = true := by
  unfold addCapture
  rw [show (b.chunk.modifiers.isLocal || b.chunk.modifiers.isPure) = false from free]
  split
  · exact .inl ⟨_, _, rfl, rfl⟩
  · split
    · exact .inr ⟨_, rfl, rfl⟩
    · exact .inl ⟨_, _, rfl, rfl⟩

/-- What one function can capture, another one of its form can, if the functions around them have the same forms. -/
theorem captureFrom_form {name : String} {b : Body} {outer : List Body} {r : Option (UInt8 × Body × List Body)}
    (run : captureFrom name b outer = .ok r) (closed : b.Sealed) (around : ∀ x ∈ outer, x.Sealed) :
    (∀ i b' outer', r = some (i, b', outer') → b'.form = b.form ∧ b'.Sealed ∧
      outer'.map Body.form = outer.map Body.form ∧ ∀ x ∈ outer', x.Sealed) ∧
    ∀ c others, c.form = b.form → others.map Body.form = outer.map Body.form →
      match captureFrom name c others with
      | .ok none => r = none
      | .ok (some (_, c', others')) => r ≠ none ∧ c'.form = c.form ∧ others'.map Body.form = others.map Body.form
      | .error fault => fault.isLimit = true := by
  induction outer generalizing b r with
  | nil =>
    cases run
    refine ⟨fun _ _ _ same => (by cases same), fun c others _ forms => ?_⟩
    obtain rfl := List.map_eq_nil_iff.mp forms
    rfl
  | cons e outer ih =>
    have sealed_ := around e (.head _)
    have around' : ∀ x ∈ outer, x.Sealed := fun x hx => around x (.tail _ hx)
    unfold captureFrom at run
    simp only [Bind.bind, Except.bind, Pure.pure, Except.pure] at run
    cases here : slotOf name e.locals with
    | error => rw [here] at run; cases run
    | ok place =>
      have elsewhere {e' : Body} (same : e'.form = e.form) : slotOf name e'.locals = .ok place :=
        (slotOf_keys (locals_of_form same) name).trans here
      rw [here] at run
      cases place with
      | some slot =>
        have marked (x : Body) : { x with locals := markCaptured slot.toNat x.locals : Body }.form = x.form := by
          rw [form_iff]
          exact ⟨markCaptured_keys _ _, rfl, rfl, rfl, rfl⟩
        dsimp only at run
        split at run
        · cases run
        rename_i added
        cases run
        obtain ⟨form, closed', free⟩ := addCapture_form added closed
        refine ⟨?_, fun c others same forms => ?_⟩
        · rintro _ _ _ ⟨⟩
          refine ⟨form, closed', by rw [List.map_cons, marked, List.map_cons], fun x hx => ?_⟩
          obtain rfl | hx := List.mem_cons.mp hx
          · exact sealed_
          · exact around' x hx
        · obtain ⟨e', os, rfl, head, tail⟩ := List.map_eq_cons_iff.mp forms
          unfold captureFrom
          simp only [Bind.bind, Except.bind, Pure.pure, Except.pure, elsewhere head]
          obtain ⟨i', c', run', form'⟩ | ⟨fault, run', limit⟩ :=
            addCapture_free ⟨true, slot⟩ ((restricted_of_form same).trans free)
          · rw [run']
            exact ⟨Option.some_ne_none _, form', by rw [List.map_cons, marked, List.map_cons]⟩
          · rw [run']
            exact limit
      | none =>
        dsimp only at run
        split at run
        · cases run
        rename_i more outward
        obtain ⟨kept, mirrored⟩ := ih outward sealed_ around'
        cases more with
        | none =>
          cases run
          refine ⟨fun _ _ _ same => (by cases same), fun c others same forms => ?_⟩
          obtain ⟨e', os, rfl, head, tail⟩ := List.map_eq_cons_iff.mp forms
          have outward' := mirrored e' os head tail
          unfold captureFrom
          simp only [Bind.bind, Except.bind, Pure.pure, Except.pure, elsewhere head]
          revert outward'
          cases captureFrom name e' os with
          | error => exact id
          | ok r => cases r with
            | none => exact fun _ => trivial
            | some => exact fun h => (h.1 rfl).elim
        | some more =>
          obtain ⟨j, e₁, outer₁⟩ := more
          obtain ⟨form₁, sealed₁, forms₁, around₁⟩ := kept _ _ _ rfl
          dsimp only at run
          split at run
          · cases run
          rename_i added
          cases run
          obtain ⟨form, closed', free⟩ := addCapture_form added closed
          refine ⟨?_, fun c others same forms => ?_⟩
          · rintro _ _ _ ⟨⟩
            refine ⟨form, closed', by rw [List.map_cons, form₁, forms₁, List.map_cons], fun x hx => ?_⟩
            obtain rfl | hx := List.mem_cons.mp hx
            · exact sealed₁
            · exact around₁ x hx
          · obtain ⟨e', os, rfl, head, tail⟩ := List.map_eq_cons_iff.mp forms
            have outward' := mirrored e' os head tail
            unfold captureFrom
            simp only [Bind.bind, Except.bind, Pure.pure, Except.pure, elsewhere head]
            revert outward'
            cases captureFrom name e' os with
            | error => exact id
            | ok r => cases r with
              | none => exact fun h => (Option.some_ne_none _ h).elim
              | some r =>
                obtain ⟨j', e₂, os₂⟩ := r
                rintro ⟨-, form₂, forms₂⟩
                dsimp only
                obtain ⟨i', c', run', form'⟩ | ⟨fault, run', limit⟩ :=
                  addCapture_free ⟨false, j'⟩ ((restricted_of_form same).trans free)
                · rw [run']
                  exact ⟨Option.some_ne_none _, form', by rw [List.map_cons, form₂, forms₂, List.map_cons]⟩
                · rw [run']
                  exact limit

theorem mirrors_lift {α β : Type} {x : Except CompileFault α} {y : Except CompileFault β} {R : α → β → Prop}
    (h : ∀ r, x = .ok r → match y with
      | .ok s => R r s
      | .error fault => fault.isLimit = true) : Mirrors (lift x) (lift y) R := by
  intro a b like
  refine does_lift fun r run => ?_
  have outcome := h r run
  cases y with
  | ok s => exact ⟨like, outcome⟩
  | error => exact outcome

namespace Assembler

/-- Whether a name is that of a global. The slots and captures need not be the same in two functions. -/
def Place.isGlobal : Place → Bool
  | .global _ => true
  | _ => false

end Assembler

theorem mirrors_findPlace (name : String) :
    Mirrors (findPlace name) (findPlace name) fun r s => s.map Place.isGlobal = r.map Place.isGlobal := by
  refine mirrors_bind mirrors_get fun a b like => ?_
  refine mirrors_bind (R := fun r s => s = r) (mirrors_lift fun r here => ?_) fun r s same => ?_
  · rw [slotOf_keys (locals_of_form like.body), here]
  subst same
  cases s with
  | some slot => exact mirrors_pure rfl
  | none =>
    refine mirrors_bind (R := fun r s => (r = none ∧ s = none) ∨ ∃ i b' o j c' o', r = some (i, b', o) ∧
        s = some (j, c', o') ∧ Like { a with body := b', outer := o } { b with body := c', outer := o' })
      (mirrors_lift fun r outward => ?_) fun r s h => ?_
    · obtain ⟨kept, mirrored⟩ := captureFrom_form outward like.closed.body like.closed.outer
      have outward' := mirrored b.body b.outer like.body like.outer
      revert outward'
      cases captureFrom name b.body b.outer with
      | error => exact id
      | ok s =>
        cases s with
        | none => exact fun h => .inl ⟨h, rfl⟩
        | some s =>
          obtain ⟨j, c', o'⟩ := s
          rintro ⟨some, form', forms'⟩
          obtain ⟨⟨i, b', o⟩, rfl⟩ := Option.ne_none_iff_exists'.mp some
          obtain ⟨form, closed, forms, around⟩ := kept _ _ _ rfl
          refine .inr ⟨i, b', o, j, c', o', rfl, rfl, ?_, closed, around, like.closed.aside⟩
          simp only [Assembler.form, form, form', forms, forms', like.body, like.outer, like.aside, like.types,
            like.testSets]
    · obtain ⟨rfl, rfl⟩ | ⟨i, b', o, j, c', o', rfl, rfl, like'⟩ := h
      · exact mirrors_pure rfl
      · exact mirrors_seq (mirrors_set like') fun _ _ => mirrors_pure rfl

theorem mirrors_place (name : String) :
    Mirrors (place name) (place name) fun p q => q.isGlobal = p.isGlobal := by
  refine mirrors_bind (mirrors_findPlace name) fun r s h => ?_
  cases r with
  | some p =>
    obtain ⟨q, rfl, same⟩ := Option.map_eq_some_iff.mp h
    exact mirrors_pure same
  | none =>
    obtain rfl := Option.map_eq_none_iff.mp h
    exact mirrors_seq (mirrors_reserve _ _) fun _ _ => mirrors_pure rfl

theorem mirrors_load (name : String) : Mirrors (load name) (load name) fun _ _ => True :=
  mirrors_seq (mirrors_place name) fun _ _ => mirrors_emit _ _

theorem mirrors_checkStore (name : String) : Mirrors (checkStore name) (checkStore name) fun _ _ => True := by
  refine mirrors_bind (mirrors_place name) fun p q same => mirrors_bind mirrors_getBody fun b c h => ?_
  dsimp only
  rw [modifiers_of_form h.1]
  cases p <;> cases q <;> cases same
  · exact mirrors_pure trivial
  · exact mirrors_pure trivial
  · exact mirrors_pure trivial
  · exact mirrors_pure trivial
  · dsimp only
    split
    · exact mirrors_throw_bind
    · exact mirrors_pure trivial

theorem mirrors_store (name : String) : Mirrors (store name) (store name) fun _ _ => True :=
  mirrors_seq (mirrors_checkStore name) fun _ _ => mirrors_emit _ _

theorem mirrors_checkImpure (target target' : String) :
    Mirrors (checkImpure target) (checkImpure target') fun _ _ => True := by
  refine mirrors_bind mirrors_getBody fun b c h => ?_
  dsimp only
  rw [modifiers_of_form h.1]
  split
  · exact mirrors_throw
  · exact mirrors_pure trivial

theorem mirrors_loadThis : Mirrors loadThis loadThis fun _ _ => True := by
  refine mirrors_bind (mirrors_findPlace "this") fun r s h => ?_
  cases r with
  | some p =>
    obtain ⟨q, rfl, -⟩ := Option.map_eq_some_iff.mp h
    exact mirrors_emit _ _
  | none => exact mirrors_throw

/-! ## Control structures -/

theorem mirrors_newLabel (name : String) : Mirrors (newLabel name) (newLabel name) fun _ _ => True :=
  mirrors_quiet (quiet_newLabel _) (quiet_newLabel _)

theorem mirrors_placeLabel (label label' : UInt16) : Mirrors (placeLabel label) (placeLabel label') fun _ _ => True :=
  mirrors_quiet (quiet_placeLabel _) (quiet_placeLabel _)

theorem mirrors_pushControl {c c' : Control} (same : c'.form = c.form) :
    Mirrors (pushControl c) (pushControl c') fun _ _ => True :=
  mirrors_body (fun a b h => by
    rw [form_iff] at h ⊢
    exact ⟨h.1, h.2.1, by simp only [List.map_cons, same, h.2.2.1], h.2.2.2⟩) fun _ => id

theorem mirrors_popControl : Mirrors popControl popControl fun c c' => c'.form = c.form := by
  refine mirrors_bind mirrors_getBody fun b c h => ?_
  have control := control_of_form h.1
  cases hb : b.control with
  | nil => exact mirrors_throw
  | cons x xs =>
    rw [hb] at control
    obtain ⟨y, ys, hc, head, tail⟩ := List.map_eq_cons_iff.mp control
    rw [hc]
    refine mirrors_seq (mirrors_body (fun a b h => ?_) fun _ => id) fun _ _ => mirrors_pure head
    rw [form_iff] at h ⊢
    exact ⟨h.1, h.2.1, tail, h.2.2.2⟩

theorem mirrors_popJoin : Mirrors popJoin popJoin fun _ _ => True := by
  refine mirrors_bind mirrors_popControl fun c c' same => ?_
  cases c
  case join => cases c' <;> first | exact mirrors_pure trivial | cases same
  all_goals exact mirrors_throw

/-- Loops that differ in their labels only. -/
theorem mirrors_popLoop : Mirrors popLoop popLoop fun l l' => Control.form (.loop l') = Control.form (.loop l) := by
  refine mirrors_bind mirrors_popControl fun c c' same => ?_
  cases c
  case loop => cases c' <;> first | exact mirrors_pure same | cases same
  all_goals exact mirrors_throw

theorem mirrors_andThen : Mirrors andThen andThen fun _ _ => True :=
  mirrors_seq (mirrors_newLabel _) fun _ _ => mirrors_seq (mirrors_emit _ _) fun _ _ =>
    mirrors_seq (mirrors_emit _ _) fun _ _ => mirrors_pushControl rfl

theorem mirrors_orElse : Mirrors orElse orElse fun _ _ => True :=
  mirrors_seq (mirrors_newLabel _) fun _ _ => mirrors_seq (mirrors_newLabel _) fun _ _ =>
    mirrors_seq (mirrors_emit _ _) fun _ _ => mirrors_seq (mirrors_emit _ _) fun _ _ =>
      mirrors_seq (mirrors_placeLabel _ _) fun _ _ => mirrors_seq (mirrors_emit _ _) fun _ _ => mirrors_pushControl rfl

theorem mirrors_endJoin : Mirrors endJoin endJoin fun _ _ => True :=
  mirrors_seq mirrors_popJoin fun _ _ => mirrors_placeLabel _ _

theorem mirrors_branch : Mirrors branch branch fun _ _ => True :=
  mirrors_seq (mirrors_newLabel _) fun _ _ => mirrors_seq (mirrors_newLabel _) fun _ _ =>
    mirrors_seq (mirrors_emit _ _) fun _ _ => mirrors_seq (mirrors_emit _ _) fun _ _ => mirrors_pushControl rfl

theorem mirrors_branchElse : Mirrors branchElse branchElse fun _ _ => True := by
  refine mirrors_bind mirrors_popControl fun c c' same => ?_
  cases c
  case branch =>
    cases c' <;> cases same
    exact mirrors_seq (mirrors_emit _ _) fun _ _ => mirrors_seq (mirrors_placeLabel _ _) fun _ _ =>
      mirrors_seq (mirrors_emit _ _) fun _ _ => mirrors_pushControl rfl
  all_goals exact mirrors_throw

theorem mirrors_whileStart : Mirrors whileStart whileStart fun _ _ => True :=
  mirrors_seq (mirrors_newLabel _) fun _ _ => mirrors_seq (mirrors_newLabel _) fun _ _ =>
    mirrors_seq (mirrors_newLabel _) fun _ _ => mirrors_seq (mirrors_placeLabel _ _) fun _ _ =>
      mirrors_bind mirrors_getBody fun _ _ h => mirrors_pushControl (by simp [Control.form, depth_of_form h.1])

theorem loop_form {l l' : Loop} : Control.form (.loop l') = Control.form (.loop l) ↔
    l'.fail.isSome = l.fail.isSome ∧ l'.body.isSome = l.body.isSome ∧ l'.depth = l.depth ∧ l'.leaves = l.leaves := by
  simp only [Control.form, Control.Form.loop.injEq]

theorem mirrors_whileBody : Mirrors whileBody whileBody fun _ _ => True := by
  refine mirrors_bind mirrors_popLoop fun l l' same => ?_
  have fails := (loop_form.mp same).1
  cases hl : l.fail with
  | none => exact mirrors_throw
  | some =>
    rw [hl] at fails
    obtain ⟨fail', hl'⟩ := Option.isSome_iff_exists.mp fails
    rw [hl']
    exact mirrors_seq (mirrors_emit _ _) fun _ _ => mirrors_seq (mirrors_emit _ _) fun _ _ => mirrors_pushControl same

theorem quiet_placeFail (l : Loop) : Quiet (placeFail l) := by
  unfold placeFail
  split
  · exact (quiet_placeLabel _).bind fun _ => quiet_emit _
  · exact .pure _

theorem mirrors_endLoop : Mirrors endLoop endLoop fun _ _ => True :=
  mirrors_seq mirrors_popLoop fun _ _ => mirrors_seq (mirrors_emit _ _) fun _ _ =>
    mirrors_seq (mirrors_quiet (quiet_placeFail _) (quiet_placeFail _)) fun _ _ => mirrors_placeLabel _ _

theorem mirrors_forStart : Mirrors forStart forStart fun _ _ => True :=
  mirrors_seq (mirrors_newLabel _) fun _ _ => mirrors_seq (mirrors_newLabel _) fun _ _ =>
    mirrors_seq (mirrors_newLabel _) fun _ _ => mirrors_seq (mirrors_placeLabel _ _) fun _ _ =>
      mirrors_bind mirrors_getBody fun _ _ h => mirrors_pushControl (by simp [Control.form, depth_of_form h.1])

theorem mirrors_forCondition : Mirrors forCondition forCondition fun _ _ => True :=
  mirrors_bind mirrors_popLoop fun _ _ same => mirrors_seq (mirrors_newLabel _) fun _ _ =>
    mirrors_seq (mirrors_emit _ _) fun _ _ => mirrors_seq (mirrors_emit _ _) fun _ _ =>
      mirrors_pushControl (loop_form.mpr ⟨rfl, (loop_form.mp same).2⟩)

theorem mirrors_forStep : Mirrors forStep forStep fun _ _ => True := by
  refine mirrors_bind mirrors_popLoop fun l l' same => ?_
  have bodies := (loop_form.mp same).2.1
  cases hl : l.body with
  | none => exact mirrors_throw
  | some =>
    rw [hl] at bodies
    obtain ⟨body', hl'⟩ := Option.isSome_iff_exists.mp bodies
    rw [hl']
    exact mirrors_seq (mirrors_emit _ _) fun _ _ => mirrors_seq (mirrors_newLabel _) fun _ _ =>
      mirrors_seq (mirrors_placeLabel _ _) fun _ _ =>
        mirrors_pushControl (loop_form.mpr (by simpa [hl, hl'] using loop_form.mp same))

theorem mirrors_forStepEnd : Mirrors forStepEnd forStepEnd fun _ _ => True :=
  mirrors_bind mirrors_popLoop fun _ _ same => mirrors_seq (mirrors_emit _ _) fun _ _ =>
    mirrors_seq (mirrors_emit _ _) fun _ _ => mirrors_pushControl same

theorem mirrors_forBody : Mirrors forBody forBody fun _ _ => True := by
  refine mirrors_bind mirrors_popLoop fun l l' same => ?_
  have bodies := (loop_form.mp same).2.1
  cases hl : l.body with
  | none => exact mirrors_throw
  | some =>
    rw [hl] at bodies
    obtain ⟨body', hl'⟩ := Option.isSome_iff_exists.mp bodies
    rw [hl']
    exact mirrors_seq (mirrors_placeLabel _ _) fun _ _ => mirrors_pushControl same

theorem mirrors_loopStart : Mirrors loopStart loopStart fun _ _ => True :=
  mirrors_seq (mirrors_newLabel _) fun _ _ => mirrors_seq (mirrors_newLabel _) fun _ _ =>
    mirrors_seq (mirrors_placeLabel _ _) fun _ _ =>
      mirrors_bind mirrors_getBody fun _ _ h => mirrors_pushControl (by simp [Control.form, depth_of_form h.1])

theorem mirrors_loopEnd : Mirrors loopEnd loopEnd fun _ _ => True := by
  refine mirrors_bind mirrors_popLoop fun l l' same => ?_
  rw [(loop_form.mp same).2.2.2]
  dsimp only
  split
  · exact mirrors_seq (mirrors_emit _ _) fun _ _ => mirrors_placeLabel _ _
  · exact mirrors_throw_bind

theorem leave_form {c c' : Control} (same : c'.form = c.form) : c'.leave.form = c.leave.form := by
  cases c <;> cases c' <;> first | cases same; done | rfl | skip
  exact loop_form.mpr ⟨(loop_form.mp same).1, (loop_form.mp same).2.1, (loop_form.mp same).2.2.1, rfl⟩

section ControlLists
variable {xs ys : List Control} (same : ys.map Control.form = xs.map Control.form)
include same

theorem leaveAll_form : (ys.map Control.leave).map Control.form = (xs.map Control.leave).map Control.form := by
  induction xs generalizing ys with
  | nil => rw [List.map_eq_nil_iff.mp same]
  | cons x xs ih =>
    obtain ⟨y, ys, rfl, head, tail⟩ := List.map_eq_cons_iff.mp same
    simp only [List.map_cons, leave_form head, ih tail]

theorem innermostLoop_form : (innermostLoop? ys).isSome = (innermostLoop? xs).isSome := by
  induction xs generalizing ys with
  | nil => rw [List.map_eq_nil_iff.mp same]
  | cons x xs ih =>
    obtain ⟨y, ys, rfl, head, tail⟩ := List.map_eq_cons_iff.mp same
    cases x <;> cases y <;> first | cases head; done | simpa only [innermostLoop?] using ih tail | rfl

theorem leaveInnermost_form : (leaveInnermost ys).map Control.form = (leaveInnermost xs).map Control.form := by
  induction xs generalizing ys with
  | nil => rw [List.map_eq_nil_iff.mp same]
  | cons x xs ih =>
    obtain ⟨y, ys, rfl, head, tail⟩ := List.map_eq_cons_iff.mp same
    cases x
    case loop =>
      cases y with
      | loop => exact congrArg₂ List.cons (leave_form head) tail
      | _ => cases head
    all_goals
      cases y <;> first
        | (cases head; done)
        | simp only [leaveInnermost, List.map_cons, head, ih tail]

end ControlLists

theorem mirrors_leaveLoops : Mirrors leaveLoops leaveLoops fun _ _ => True := by
  refine mirrors_body (fun b c h => ?_) fun _ => id
  rw [form_iff] at h ⊢
  exact ⟨h.1, h.2.1, leaveAll_form h.2.2.1, h.2.2.2⟩

theorem mirrors_currentLoop (keyword : String) :
    Mirrors (currentLoop keyword) (currentLoop keyword) fun _ _ => True := by
  refine mirrors_bind mirrors_getBody fun b c h => ?_
  have found := innermostLoop_form (control_of_form h.1)
  cases hb : innermostLoop? b.control with
  | none => exact mirrors_throw
  | some l =>
    rw [hb] at found
    obtain ⟨l', hc⟩ := Option.isSome_iff_exists.mp found
    rw [hc]
    exact mirrors_pure trivial

theorem mirrors_breakLoop : Mirrors breakLoop breakLoop fun _ _ => True := by
  refine mirrors_seq (mirrors_currentLoop _) fun _ _ => mirrors_seq (mirrors_emitDrops _ _) fun _ _ =>
    mirrors_seq (mirrors_emit _ _) fun _ _ => mirrors_body (fun b c h => ?_) fun _ => id
  rw [form_iff] at h ⊢
  exact ⟨h.1, h.2.1, leaveInnermost_form h.2.2.1, h.2.2.2⟩

theorem mirrors_continueLoop : Mirrors continueLoop continueLoop fun _ _ => True :=
  mirrors_seq (mirrors_currentLoop _) fun _ _ => mirrors_seq (mirrors_emitDrops _ _) fun _ _ => mirrors_emit _ _

theorem mirrors_returnCheck : Mirrors returnCheck returnCheck fun _ _ => True := by
  refine mirrors_bind mirrors_getBody fun b c h => ?_
  rw [kind_of_form h.1]
  dsimp only
  split
  · exact mirrors_throw_bind
  · exact mirrors_leaveLoops

theorem mirrors_returnValueCheck : Mirrors returnValueCheck returnValueCheck fun _ _ => True :=
  mirrors_bind mirrors_getBody fun _ _ h => mirrors_ite (by rw [kind_of_form h.1]) mirrors_throw (mirrors_pure trivial)

/-! ## Functions -/

theorem mirrors_beginFunction (kind : FunctionKind) (name : String) (m : Modifiers) :
    Mirrors (beginFunction kind name m) (beginFunction kind name m) fun _ _ => True := by
  refine mirrors_bind mirrors_get fun a b like => ?_
  rw [like.level]
  dsimp only
  split
  · exact mirrors_throw_bind
  · refine mirrors_set ⟨?_, fun _ => rfl, fun x hx => ?_, like.closed.aside⟩
    · simp only [Assembler.form, List.map_cons, like.body, like.outer, like.aside, like.types, like.testSets]
      rfl
    · obtain rfl | hx := List.mem_cons.mp hx
      · exact like.closed.body
      · exact like.closed.outer x hx

theorem mirrors_parameter (name : String) : Mirrors (parameter name) (parameter name) fun _ _ => True :=
  mirrors_seq (mirrors_declareLocal name) fun _ _ => mirrors_seq mirrors_complete fun _ _ =>
    mirrors_seq (mirrors_reserve _ _) fun i j =>
      mirrors_quiet (quiet_chunk (f := fun c => { c with arguments := c.arguments.push i }) (fun _ => rfl) fun _ => rfl)
        (quiet_chunk (f := fun c => { c with arguments := c.arguments.push j }) (fun _ => rfl) fun _ => rfl)

theorem mirrors_resultName (name : String) : Mirrors (resultName name) (resultName name) fun _ _ => True :=
  mirrors_seq (mirrors_emit _ _) fun _ _ => mirrors_seq (mirrors_declareLocal name) fun _ _ =>
    mirrors_seq mirrors_complete fun _ _ => mirrors_seq (mirrors_reserve _ _) fun i j =>
      mirrors_quiet (quiet_chunk (f := fun c => { c with results := c.results.push i }) (fun _ => rfl) fun _ => rfl)
        (quiet_chunk (f := fun c => { c with results := c.results.push j }) (fun _ => rfl) fun _ => rfl)

theorem mirrors_popBody : Mirrors popBody popBody fun b c => c.form = b.form ∧ b.Sealed := by
  refine mirrors_bind mirrors_get fun a b like => ?_
  have forms := like.outer
  cases ha : a.outer with
  | nil => exact mirrors_throw
  | cons e outer =>
    rw [ha] at forms
    obtain ⟨e', outer', hb, head, tail⟩ := List.map_eq_cons_iff.mp forms
    rw [hb]
    have around (x : Body) (hx : x ∈ e :: outer) : x.Sealed := like.closed.outer x (ha ▸ hx)
    refine mirrors_seq (mirrors_set ⟨?_, around e (.head _), fun x hx => around x (.tail _ hx), like.closed.aside⟩)
      fun _ _ => mirrors_pure ⟨like.body, like.closed.body⟩
    simp only [Assembler.form, head, tail, like.aside, like.types, like.testSets]

theorem mirrors_endFunction : Mirrors endFunction endFunction fun _ _ => True := by
  refine mirrors_seq (mirrors_quiet quiet_implicitReturn quiet_implicitReturn) fun _ _ =>
    mirrors_bind mirrors_popBody fun b c h => ?_
  have control : c.control.isEmpty = b.control.isEmpty := by
    have := congrArg List.isEmpty (control_of_form h.1)
    rwa [List.isEmpty_map, List.isEmpty_map] at this
  rw [control]
  dsimp only
  split
  · refine mirrors_seq mirrors_get fun _ _ => mirrors_seq (mirrors_modify fun _ _ like =>
        ⟨like.form, like.closed.body, like.closed.outer, like.closed.aside⟩) fun _ _ =>
      mirrors_seq (mirrors_quiet (quiet_constant _) (quiet_constant _)) fun _ _ => mirrors_seq (mirrors_emit _ _) fun _ _ =>
        mirrors_quiet (.forM _ fun _ => quiet_emit _) (.forM _ fun _ => quiet_emit _)
  · exact mirrors_throw_bind

theorem mirrors_stepOut : Mirrors stepOut stepOut fun _ _ => True :=
  mirrors_bind mirrors_popBody fun b c h => mirrors_modify fun a a' like => by
    refine ⟨?_, like.closed.body, like.closed.outer, fun x hx => ?_⟩
    · simp only [Assembler.form, List.map_cons, h.1, like.body, like.outer, like.aside, like.types, like.testSets]
    · obtain rfl | hx := List.mem_cons.mp hx
      · exact h.2
      · exact like.closed.aside x hx

theorem mirrors_stepIn : Mirrors stepIn stepIn fun _ _ => True := by
  refine mirrors_bind mirrors_get fun a b like => ?_
  have forms := like.aside
  cases ha : a.aside with
  | nil => exact mirrors_throw
  | cons e aside =>
    rw [ha] at forms
    obtain ⟨e', aside', hb, head, tail⟩ := List.map_eq_cons_iff.mp forms
    rw [hb]
    have away (x : Body) (hx : x ∈ e :: aside) : x.Sealed := like.closed.aside x (ha ▸ hx)
    refine mirrors_set ⟨?_, away e (.head _), fun x hx => ?_, fun x hx => away x (.tail _ hx)⟩
    · simp only [Assembler.form, List.map_cons, head, tail, like.body, like.outer, like.types, like.testSets]
    · obtain rfl | hx := List.mem_cons.mp hx
      · exact like.closed.body
      · exact like.closed.outer x hx

/-! ## Types and tests -/

/-- The same change of what is kept beside the functions. -/
theorem mirrors_beside {t : Assembler → List TypeScope} {s : Assembler → List Nat}
    (same : ∀ a b, Like a b → t b = t a ∧ s b = s a) :
    Mirrors (modify fun a => { a with types := t a, testSets := s a })
      (modify fun a => { a with types := t a, testSets := s a }) fun _ _ => True :=
  mirrors_modify fun a b like => by
    refine ⟨?_, like.closed.body, like.closed.outer, like.closed.aside⟩
    simp only [Assembler.form, like.body, like.outer, like.aside, same a b like]

/-- The keyword of a declaration decides nothing here. -/
theorem mirrors_beginType (kind kind' : TypeKind) (name : String) :
    Mirrors (beginType kind name) (beginType kind' name) fun _ _ => True :=
  mirrors_seq (mirrors_reserve _ _) fun _ _ => mirrors_seq (mirrors_declare name) fun _ _ =>
    mirrors_seq (mirrors_emit _ _) fun _ _ => mirrors_seq (mirrors_define name) fun _ _ =>
      mirrors_beside (t := fun a => ⟨name, a.level, false⟩ :: a.types) (s := fun a => a.testSets)
        fun a b like => by rw [like.level, like.types, like.testSets]; exact ⟨rfl, rfl⟩

theorem mirrors_inheritFrom (parent name : String) :
    Mirrors (inheritFrom parent name) (inheritFrom parent name) fun _ _ => True := by
  refine mirrors_seq (mirrors_load parent) fun _ _ => mirrors_seq mirrors_beginScope fun _ _ =>
    mirrors_seq (mirrors_pushLocal _) fun _ _ => mirrors_seq mirrors_complete fun _ _ =>
      mirrors_seq (mirrors_load name) fun _ _ => mirrors_seq (mirrors_emit _ _) fun _ _ =>
        mirrors_modify fun a b like => ?_
  have types := like.types
  cases ha : a.types with
  | nil =>
    rw [ha] at types
    simpa only [types] using like
  | cons t rest =>
    rw [ha] at types
    refine ⟨?_, like.closed.body, like.closed.outer, like.closed.aside⟩
    simp only [types, Assembler.form, like.body, like.outer, like.aside, like.testSets]

theorem mirrors_checkSuper : Mirrors checkSuper checkSuper fun _ _ => True := by
  refine mirrors_bind mirrors_get fun a b like => ?_
  rw [like.types]
  split
  · exact mirrors_throw
  · split
    · exact mirrors_pure trivial
    · exact mirrors_throw

/-- Nor do the names of the fields. -/
theorem mirrors_endInitChain (fields fields' : List String) :
    Mirrors (endInitChain fields) (endInitChain fields') fun _ _ => True :=
  mirrors_seq mirrors_endFunction fun _ _ => mirrors_seq (mirrors_emit _ _) fun _ _ =>
    mirrors_quiet (.forM _ fun _ => (quiet_nameConstant _).bind fun _ => quiet_emit _)
      (.forM _ fun _ => (quiet_nameConstant _).bind fun _ => quiet_emit _)

theorem mirrors_endType : Mirrors endType endType fun _ _ => True := by
  refine mirrors_seq (mirrors_emit _ _) fun _ _ => mirrors_seq (mirrors_emit _ _) fun _ _ =>
    mirrors_bind mirrors_get fun a b like => ?_
  rw [like.types]
  have drop (rest : List TypeScope) : Mirrors (modify fun a : Assembler => { a with types := rest })
      (modify fun a => { a with types := rest }) fun _ _ => True :=
    mirrors_beside (t := fun _ => rest) (s := fun a => a.testSets) fun _ _ like => ⟨rfl, like.testSets⟩
  split
  · dsimp only
    split
    · exact mirrors_seq mirrors_endScope fun _ _ => drop _
    · exact drop _
  · exact mirrors_throw

theorem mirrors_beginTest (name : String) : Mirrors (beginTest name) (beginTest name) fun _ _ => True :=
  mirrors_seq (mirrors_reserve _ _) fun _ _ => mirrors_seq (mirrors_beginFunction _ _ _) fun _ _ =>
    mirrors_beside (t := fun a => a.types) (s := fun a => a.level :: a.testSets)
      fun a b like => by rw [like.level, like.types, like.testSets]; exact ⟨rfl, rfl⟩

theorem mirrors_endTest (name : String) : Mirrors (endTest name) (endTest name) fun _ _ => True :=
  mirrors_seq (mirrors_beside (t := fun a => a.types) (s := fun a => a.testSets.tail)
      fun a b like => by rw [like.types, like.testSets]; exact ⟨rfl, rfl⟩) fun _ _ =>
    mirrors_seq mirrors_endFunction fun _ _ => mirrors_seq (mirrors_reserve _ _) fun _ _ => mirrors_emit _ _

theorem mirrors_caseCheck : Mirrors caseCheck caseCheck fun _ _ => True := by
  refine mirrors_bind mirrors_get fun a b like => ?_
  rw [like.testSets, like.level]
  split
  · exact mirrors_pure trivial
  · exact mirrors_throw

theorem mirrors_endScript : Mirrors endScript endScript fun _ _ => True := by
  refine mirrors_seq (mirrors_emit _ _) fun _ _ => mirrors_seq (mirrors_emit _ _) fun _ _ =>
    mirrors_bind mirrors_get fun a b like => ?_
  have outer : b.outer.isEmpty = a.outer.isEmpty := by
    have := congrArg List.isEmpty like.outer
    rwa [List.isEmpty_map, List.isEmpty_map] at this
  have control : b.body.control.isEmpty = a.body.control.isEmpty := by
    have := congrArg List.isEmpty (control_of_form like.body)
    rwa [List.isEmpty_map, List.isEmpty_map] at this
  rw [outer, control]
  dsimp only
  split
  · exact mirrors_set ⟨like.form, like.closed.body, like.closed.outer, like.closed.aside⟩
  · exact mirrors_throw_bind

/-! ## Directives -/

/-- Directives of which both can be carried out or neither can. -/
inductive Directive.Akin : Directive → Directive → Prop
  | refl (d : Directive) : Akin d d
  | number (n m : Number) : Akin (.number n) (.number m)
  | storeMatching (fields fields' : List String) : Akin (.storeMatching fields) (.storeMatching fields')
  | beginType (kind kind' : TypeKind) (name : String) : Akin (.beginType kind name) (.beginType kind' name)
  | endInitChain (fields fields' : List String) : Akin (.endInitChain fields) (.endInitChain fields')
  | unreachable (keyword : String) (line line' : Nat) : Akin (.unreachable keyword line) (.unreachable keyword line')

theorem Directive.Akin.symm {d d' : Directive} (h : d.Akin d') : d'.Akin d := by cases h <;> constructor

theorem Directive.Akin.trans {d d' d'' : Directive} (h : d.Akin d') (h' : d'.Akin d'') : d.Akin d'' := by
  cases h <;> cases h' <;> constructor

theorem mirrors_emitNamed (make make' : UInt16 → Instruction) (name : String) :
    Mirrors (emitNamed make name) (emitNamed make' name) fun _ _ => True :=
  mirrors_quiet (quiet_emitNamed _ _) (quiet_emitNamed _ _)

theorem mirrors_perform {d d' : Directive} (akin : d.Akin d') : Mirrors (perform d) (perform d') fun _ _ => True := by
  cases akin with
  | number n m => exact mirrors_quiet (quiet_number n) (quiet_number m)
  | storeMatching fields fields' => exact mirrors_quiet (quiet_storeMatching fields) (quiet_storeMatching fields')
  | beginType kind kind' name => exact mirrors_beginType kind kind' name
  | endInitChain fields fields' => exact mirrors_endInitChain fields fields'
  | unreachable keyword line line' => exact mirrors_quiet (quiet_note keyword line) (quiet_note keyword line')
  | refl => cases d with
    | plain i _ => exact mirrors_emit _ _
    | number n => exact mirrors_quiet (quiet_number n) (quiet_number n)
    | string s => exact mirrors_seq (mirrors_quiet (quiet_constant _) (quiet_constant _)) fun _ _ => mirrors_emit _ _
    | reserve name => exact mirrors_seq (mirrors_reserve _ _) fun _ _ => mirrors_pure trivial
    | resolve name => exact mirrors_seq (mirrors_place _) fun _ _ => mirrors_pure trivial
    | checkStore name => exact mirrors_seq (mirrors_checkStore _) fun _ _ => mirrors_pure trivial
    | load name => exact mirrors_load name
    | store name => exact mirrors_store name
    | receiver => exact mirrors_emit _ _
    | this => exact mirrors_loadThis
    | checkSuper => exact mirrors_checkSuper
    | getSuper name => exact mirrors_emitNamed _ _ name
    | superInvoke name argc => exact mirrors_emitNamed _ _ name
    | getProperty name => exact mirrors_emitNamed _ _ name
    | invoke name argc => exact mirrors_emitNamed _ _ name
    | checkImpure target => exact mirrors_checkImpure _ _
    | setProperty name => exact mirrors_seq (mirrors_checkImpure _ _) fun _ _ => mirrors_emitNamed _ _ name
    | setIndex => exact mirrors_seq (mirrors_checkImpure _ _) fun _ _ => mirrors_emit _ _
    | storeField name => exact mirrors_seq (mirrors_emitNamed _ _ name) fun _ _ => mirrors_emit _ _
    | inject name => exact mirrors_emitNamed _ _ name
    | register name => exact mirrors_emitNamed _ _ name
    | beginScope => exact mirrors_beginScope
    | endScope => exact mirrors_endScope
    | declare name => exact mirrors_declare name
    | define name => exact mirrors_define name
    | defineMany names => exact mirrors_defineMany names
    | declareFunction name => exact mirrors_seq (mirrors_declare name) fun _ _ => mirrors_complete
    | beginFunction kind name m => exact mirrors_beginFunction kind name m
    | parameter name => exact mirrors_parameter name
    | resultName name => exact mirrors_resultName name
    | storeMatching fields => exact mirrors_quiet (quiet_storeMatching fields) (quiet_storeMatching fields)
    | endFunction => exact mirrors_endFunction
    | returnCheck => exact mirrors_returnCheck
    | returnValueCheck => exact mirrors_returnValueCheck
    | implicitReturn => exact mirrors_quiet quiet_implicitReturn quiet_implicitReturn
    | leaveLoops => exact mirrors_leaveLoops
    | andThen => exact mirrors_andThen
    | orElse => exact mirrors_orElse
    | shortEnd => exact mirrors_endJoin
    | branch => exact mirrors_branch
    | branchElse => exact mirrors_branchElse
    | branchEnd => exact mirrors_endJoin
    | whileStart => exact mirrors_whileStart
    | whileBody => exact mirrors_whileBody
    | whileEnd => exact mirrors_endLoop
    | forStart => exact mirrors_forStart
    | forCondition => exact mirrors_forCondition
    | forStep => exact mirrors_forStep
    | forStepEnd => exact mirrors_forStepEnd
    | forBody => exact mirrors_forBody
    | forEnd => exact mirrors_endLoop
    | loopStart => exact mirrors_loopStart
    | loopEnd => exact mirrors_loopEnd
    | loopCheck keyword => exact mirrors_seq (mirrors_currentLoop keyword) fun _ _ => mirrors_pure trivial
    | breakLoop => exact mirrors_breakLoop
    | continueLoop => exact mirrors_continueLoop
    | beginType kind name => exact mirrors_beginType kind kind name
    | inheritFrom parent name => exact mirrors_inheritFrom parent name
    | beginInitChain => exact mirrors_beginFunction _ _ _
    | endInitChain fields => exact mirrors_endInitChain fields fields
    | staticMember name => exact mirrors_emitNamed _ _ name
    | method name => exact mirrors_emitNamed _ _ name
    | enumValue name => exact mirrors_emitNamed _ _ name
    | endType => exact mirrors_endType
    | beginTest name => exact mirrors_beginTest name
    | endTest name => exact mirrors_endTest name
    | caseCheck => exact mirrors_caseCheck
    | beginCase name => exact mirrors_seq (mirrors_reserve _ _) fun _ _ => mirrors_beginFunction _ _ _
    | stepOut => exact mirrors_stepOut
    | stepIn => exact mirrors_stepIn
    | endCase name hasRows => exact mirrors_seq mirrors_endFunction fun _ _ => mirrors_emitNamed _ _ name
    | unreachable keyword line => exact mirrors_quiet (quiet_note _ _) (quiet_note _ _)
    | endScript => exact mirrors_endScript

theorem mirrors_mark (m m' : Mark) : Mirrors (modify fun a => { a with mark := m })
    (modify fun a => { a with mark := m' }) fun _ _ => True :=
  mirrors_modify fun _ _ like => ⟨like.form, like.closed.body, like.closed.outer, like.closed.aside⟩

/-- The marks of the steps decide nothing. -/
theorem mirrors_performAll {steps steps' : List Step}
    (akin : List.Forall₂ (fun s s' => s.directive.Akin s'.directive) steps steps') :
    Mirrors (performAll steps) (performAll steps') fun _ _ => True := by
  induction akin with
  | nil => exact mirrors_pure trivial
  | cons first _ ih =>
    exact mirrors_seq (mirrors_seq (mirrors_mark _ _) fun _ _ => mirrors_perform first) fun _ _ => ih

/-- No function that is marked captures, in any assembly. -/
theorem sealed_performAll {steps : List Step} {a a' : Assembler} (closed : a.Sealed)
    (run : performAll steps a = .ok () a') : a'.Sealed := by
  have again := mirrors_performAll (List.forall₂_same.mpr fun s _ => .refl s.directive) a a ⟨rfl, closed⟩ () a' run
  rw [run] at again
  exact again.1.closed

theorem sealed_start (scriptName : String) : (start scriptName).Sealed :=
  ⟨fun _ => rfl, nofun, nofun⟩

end ScriptEngine
