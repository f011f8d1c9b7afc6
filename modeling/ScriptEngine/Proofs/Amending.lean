import ScriptEngine.Proofs.Assembling
import ScriptEngine.Proofs.Balancing

/-!
# Changes within a function

Few things are done to the chunk of a function while it is open: an instruction is
written, a constant or a label is made, a label is placed, an argument or a result is
listed. `Amendment` lists them, and with them what changes beside the chunks. `Amends`
is any number of these, and there is one lemma for each directive within a function: so
whatever each amendment keeps is kept by all of them.

What begins and ends functions and what steps out of them and back in does one thing
more. `Shift.Carries` says which, and `carries_perform` says it of every directive but
the last one of a script.
-/
namespace ScriptEngine

open Assembler

/-- The capture that an instruction reads or stores. -/
def Instruction.upvalue? : Instruction → Option UInt8
  | .getUpvalue n | .setUpvalue n => some n
  | _ => none

/-- A constant that is no chunk. -/
def Constant.isLiteral : Constant → Bool
  | .number _ | .string _ => true
  | _ => false

namespace Assembler

/-- Locals and captures have indices of one byte. -/
def Body.Roomy (b : Body) : Prop := b.locals.length ≤ 256 ∧ b.captures.size ≤ 256

/-- A function that has more captures than before. -/
structure Body.Extends (b b' : Body) : Prop where
  captures : b.captures.toList <+: b'.captures.toList
  roomy : b.Roomy → b'.Roomy

theorem Body.Extends.refl (b : Body) : b.Extends b := ⟨List.prefix_refl _, id⟩

theorem Body.Extends.trans {b b' b'' : Body} (h : b.Extends b') (h' : b'.Extends b'') : b.Extends b'' :=
  ⟨h.captures.trans h'.captures, h'.roomy ∘ h.roomy⟩

/-- The functions that are open, innermost first. -/
def opened (a : Assembler) : List Body := a.body :: a.outer

/-- The chunks stay as they are, and the last function, which is the script, captures nothing. -/
inductive Rewired : List Body → List Body → Prop
  | script {b b' : Body} (extends_ : b.Extends b') (chunk : b'.chunk = b.chunk)
      (captures : b'.captures = b.captures) : Rewired [b] [b']
  | inner {b b' : Body} {outer outer' : List Body} (extends_ : b.Extends b') (chunk : b'.chunk = b.chunk)
      (rest : Rewired outer outer') : Rewired (b :: outer) (b' :: outer')

theorem Rewired.here {b b' : Body} (outer : List Body) (extends_ : b.Extends b') (chunk : b'.chunk = b.chunk)
    (captures : b'.captures = b.captures) : Rewired (b :: outer) (b' :: outer) := by
  induction outer generalizing b b' with
  | nil => exact .script extends_ chunk captures
  | cons e outer ih => exact .inner extends_ chunk (ih (.refl e) rfl rfl)

theorem Rewired.extends {xs ys : List Body} (h : Rewired xs ys) : List.Forall₂ Body.Extends xs ys := by
  induction h with
  | script extends_ => exact .cons extends_ .nil
  | inner extends_ _ _ ih => exact .cons extends_ ih

theorem Rewired.chunk {b b' : Body} {outer outer' : List Body} (h : Rewired (b :: outer) (b' :: outer')) :
    b'.chunk = b.chunk := by
  cases h <;> assumption

end Assembler

/-- The same functions are open, and the same are set aside. -/
structure Assembler.Extends (a a' : Assembler) : Prop where
  opened : List.Forall₂ Body.Extends a.opened a'.opened
  aside : a'.aside = a.aside

theorem Assembler.Extends.refl (a : Assembler) : a.Extends a :=
  ⟨List.forall₂_same.mpr fun b _ => .refl b, rfl⟩

theorem forall₂_trans {α : Type} {R : α → α → Prop} (trans : ∀ {x y z : α}, R x y → R y z → R x z)
    {xs ys zs : List α} (h : List.Forall₂ R xs ys) (h' : List.Forall₂ R ys zs) : List.Forall₂ R xs zs := by
  induction h generalizing zs with
  | nil => exact h'
  | cons first _ ih =>
    cases h' with
    | cons first' rest' => exact .cons (trans first first') (ih rest')

theorem Assembler.Extends.trans {a a' a'' : Assembler} (h : a.Extends a') (h' : a'.Extends a'') : a.Extends a'' :=
  ⟨forall₂_trans (R := Body.Extends) .trans h.opened h'.opened, h'.aside.trans h.aside⟩

/-- The current function alone is changed. -/
theorem Assembler.Extends.here {a a' : Assembler} (body : a.body.Extends a'.body) (outer : a'.outer = a.outer)
    (aside : a'.aside = a.aside) : a.Extends a' := by
  refine ⟨?_, aside⟩
  unfold Assembler.opened
  rw [outer]
  exact .cons body (List.forall₂_same.mpr fun b _ => .refl b)

/-! ## Amendments -/

/-- One change. What the constructors take for granted is what the assembler has checked or looked up. -/
inductive Amendment (a : Assembler) : Assembler → Prop
  /-- Locals, captures and control structures, and what is kept beside the functions. -/
  | books {a' : Assembler} (opened : Rewired a.opened a'.opened) (aside : a'.aside = a.aside)
      (chunks : a'.chunks = a.chunks) : Amendment a a'
  | emit {i : Instruction} {line : UInt32} (ordinary : i.isWord = false)
      (captured : ∀ n, i.upvalue? = some n → n.toNat < a.body.captures.size) :
      Amendment a (a.setBody (a.body.emit i line))
  | constant {k : Constant} {index : UInt16} (literal : k.isLiteral)
      (free : a.body.chunk.constantIndex? k = some index) :
      Amendment a (a.setBody (a.body.setChunk (a.body.chunk.putConstant index k)))
  | label {name : String} (room : a.body.chunk.labels.size < 65536) :
      Amendment a (a.setBody (a.body.setChunk (a.body.chunk.addLabel name)))
  | place {label : UInt16} : Amendment a (a.setBody (a.body.setChunk (a.body.chunk.placeLabel label)))
  | argument {index : UInt16} (named : (a.body.chunk.name? index).isSome) :
      Amendment a (a.setBody (a.body.setChunk
        { a.body.chunk with arguments := a.body.chunk.arguments.push index }))
  | result {index : UInt16} (named : (a.body.chunk.name? index).isSome) :
      Amendment a (a.setBody (a.body.setChunk
        { a.body.chunk with results := a.body.chunk.results.push index }))

/-- Any number of changes. -/
def Assembler.Amends (a a' : Assembler) : Prop := Relation.ReflTransGen Amendment a a'

namespace Assembler.Amends
variable {a a' a'' : Assembler}

theorem refl (a : Assembler) : a.Amends a := Relation.ReflTransGen.refl

theorem trans (h : a.Amends a') (h' : a'.Amends a'') : a.Amends a'' := Relation.ReflTransGen.trans h h'

theorem single (h : Amendment a a') : a.Amends a' := Relation.ReflTransGen.single h

/-- What each amendment keeps is kept. -/
theorem keeps {I : Assembler → Prop} (kept : ∀ a a', Amendment a a' → I a → I a') (h : a.Amends a')
    (start : I a) : I a' := by
  induction h with
  | refl => exact start
  | tail _ last ih => exact kept _ _ last ih

/-- What is kept of the current function beside its chunk is changed, except for the captures. -/
theorem here (body : a.body.Extends a'.body) (chunk : a'.body.chunk = a.body.chunk)
    (captures : a'.body.captures = a.body.captures) (outer : a'.outer = a.outer) (aside : a'.aside = a.aside)
    (chunks : a'.chunks = a.chunks) : a.Amends a' := by
  refine .single (.books ?_ aside chunks)
  unfold Assembler.opened
  rw [outer]
  exact .here _ body chunk captures

end Assembler.Amends

theorem Assembler.Amends.extends {a a' : Assembler} (h : a.Amends a') : a.Extends a' := by
  induction h with
  | refl => exact .refl a
  | tail _ last ih =>
    refine ih.trans ?_
    cases last with
    | books opened aside => exact ⟨opened.extends, aside⟩
    | _ => exact .here ⟨List.prefix_refl _, id⟩ rfl rfl

/-- Whatever the assembly comes to, it has been amended. -/
def Amending {α : Type} (x : Assembly α) : Prop := ∀ a, Does x a fun _ a' => a.Amends a'

namespace Amending
variable {α β : Type}

theorem pure (r : α) : Amending (Pure.pure r) := fun a => does_pure (.refl a)

theorem throw (fault : CompileFault) : Amending (throw fault : Assembly α) := fun _ => does_throw

theorem bind {x : Assembly α} {f : α → Assembly β} (first : Amending x) (then_ : ∀ r, Amending (f r)) :
    Amending (x >>= f) := fun a =>
  does_bind (does_mono (first a) fun r a' h => does_mono (then_ r a') fun _ _ h' => h.trans h')

theorem ite {c : Prop} [Decidable c] {x y : Assembly α} (hx : Amending x) (hy : Amending y) :
    Amending (if c then x else y) := by
  split
  · exact hx
  · exact hy

theorem forM {f : α → Assembly Unit} (xs : List α) (each : ∀ x, Amending (f x)) : Amending (xs.forM f) := by
  induction xs with
  | nil => exact .pure ()
  | cons x xs ih => exact (each x).bind fun _ => ih

theorem mapM {f : α → Assembly β} (xs : List α) (each : ∀ x, Amending (f x)) : Amending (xs.mapM f) := by
  induction xs with
  | nil => exact .pure []
  | cons x xs ih =>
    rw [List.mapM_cons]
    exact (each x).bind fun _ => ih.bind fun _ => .pure _

theorem get : Amending (get : Assembly Assembler) := fun a => does_get (.refl a)

theorem getBody : Amending getBody := fun a => does_bind (does_get (does_pure (.refl a)))

/-- What is kept beside the functions is changed. -/
theorem modify {f : Assembler → Assembler} (body : ∀ a, (f a).body = a.body) (outer : ∀ a, (f a).outer = a.outer)
    (aside : ∀ a, (f a).aside = a.aside) (chunks : ∀ a, (f a).chunks = a.chunks) : Amending (modify f) := fun a =>
  does_modify (.here (body a ▸ .refl _) (by rw [body]) (by rw [body]) (outer a) (aside a) (chunks a))

theorem body {f : Body → Body} (each : ∀ b : Body, b.Roomy → (f b).Roomy) (chunk : ∀ b, (f b).chunk = b.chunk)
    (captures : ∀ b, (f b).captures = b.captures) : Amending (modifyBody f) := fun a =>
  does_modify (.here ⟨by rw [captures], each a.body⟩ (chunk _) (captures _) rfl rfl rfl)

/-- Neither locals nor captures are changed. -/
theorem books {f : Body → Body} (locals : ∀ b, (f b).locals = b.locals) (chunk : ∀ b, (f b).chunk = b.chunk)
    (captures : ∀ b, (f b).captures = b.captures) : Amending (modifyBody f) :=
  body (fun b roomy => by rwa [Body.Roomy, locals, captures]) chunk captures

end Amending

theorem amending_emit {i : Instruction} (ordinary : i.isWord = false) (none : i.upvalue? = none) :
    Amending (emit i) := fun _ =>
  does_modify (.single (.emit ordinary fun n h => by rw [none] at h; cases h))

theorem does_constant_amends {k : Constant} (literal : k.isLiteral) (a : Assembler) :
    Does (constant k) a fun index a' => a.Amends a' ∧ ∃ v,
      a'.body.chunk.constants[index.toNat]? = some v ∧ (v = k ∨ Chunk.shares v k) := by
  refine does_bind (does_get ?_)
  split
  · rename_i index free
    exact does_bind (does_modify (does_pure ⟨.single (.constant literal free), constant_putConstant free⟩))
  · exact does_throw

theorem amending_constant {k : Constant} (literal : k.isLiteral) : Amending (constant k) := fun a =>
  does_mono (does_constant_amends literal a) fun _ _ h => h.1

theorem amending_nameConstant (name : String) : Amending (nameConstant name) := amending_constant rfl

/-- The index of a name, put among the arguments or the results. -/
theorem amending_listed {name : String} {f : UInt16 → Chunk → Chunk}
    (each : ∀ a index, (a.body.chunk.name? index).isSome →
      Amendment a (a.setBody (a.body.setChunk (f index a.body.chunk)))) : Amending (do
      let index ← nameConstant name
      modifyChunk (f index)) := by
  intro a
  refine does_bind (does_mono (does_constant_amends (k := .string name) rfl a) ?_)
  rintro index a' ⟨amends, v, found, same⟩
  obtain rfl : v = .string name := same.elim id eq_of_shares
  exact does_modify (amends.trans (.single (each a' index (name_isSome found))))

theorem amending_newLabel (name : String) : Amending (newLabel name) := by
  intro a
  unfold newLabel Chunk.nextLabel?
  refine does_bind (does_get ?_)
  split
  · rename_i label free
    split_ifs at free with room
    exact does_bind (does_modify (does_pure (.single (.label room))))
  · exact does_throw

theorem amending_placeLabel (label : UInt16) : Amending (placeLabel label) := fun _ =>
  does_modify (.single .place)

theorem amending_number (n : Number) : Amending (number n) := by
  have large : Amending (do emit (.pushConstant (← constant (.number n)))) :=
    (amending_constant rfl).bind fun _ => amending_emit rfl rfl
  unfold number
  split
  · split
    · exact amending_emit rfl rfl
    · exact large
  · exact large

/-! ## Scopes and declarations -/

theorem amending_beginScope : Amending beginScope := .books (fun _ => rfl) (fun _ => rfl) fun _ => rfl

theorem amending_drop (l : Local) : Amending (emit (dropInstruction l)) := by
  unfold dropInstruction
  split <;> exact amending_emit rfl rfl

theorem amending_emitDrops (depth : Nat) : Amending (emitDrops depth) :=
  .bind .getBody fun _ => .forM _ amending_drop

theorem amending_endScope : Amending endScope := by
  refine .bind (.books (fun _ => rfl) (fun _ => rfl) fun _ => rfl) fun _ => .bind .getBody fun b =>
    (amending_emitDrops _).bind fun _ => .body (fun b roomy => ⟨?_, roomy.2⟩) (fun _ => rfl) fun _ => rfl
  rw [List.length_drop]
  exact (Nat.sub_le _ _).trans roomy.1

theorem amending_pushLocal (name : String) : Amending (pushLocal name) := by
  intro a
  refine does_bind (does_bind (does_get (does_pure ?_)))
  split_ifs with full
  · exact does_bind does_throw
  · exact does_modify (.here ⟨List.prefix_refl _, fun roomy => ⟨Nat.lt_of_not_le full, roomy.2⟩⟩ rfl rfl rfl rfl rfl)

theorem amending_declareLocal (name : String) : Amending (declareLocal name) := by
  refine .bind .getBody fun b => ?_
  split_ifs
  · exact .pure ()
  · exact (Amending.throw _).bind fun _ => amending_pushLocal name
  · exact amending_pushLocal name

theorem amending_complete : Amending complete := by
  refine .body (fun b roomy => ?_) (fun b => ?_) fun b => ?_
  · split
    · exact roomy
    · split
      · rename_i l rest locals
        exact ⟨by simpa [locals] using roomy.1, roomy.2⟩
      · exact roomy
  · split
    · rfl
    · split <;> rfl
  · split
    · rfl
    · split <;> rfl

theorem amending_declare (name : String) : Amending (declare name) :=
  .bind .getBody fun _ => .ite (amending_declareLocal name) ((amending_nameConstant name).bind fun _ => .pure ())

theorem amending_define (name : String) : Amending (define name) :=
  .bind .getBody fun _ => .ite amending_complete
    ((amending_nameConstant name).bind fun _ => amending_emit rfl rfl)

theorem amending_defineMany (names : List String) : Amending (defineMany names) :=
  .bind .getBody fun _ => .ite
    (.forM _ fun name => (amending_declareLocal name).bind fun _ => amending_complete)
    (.bind (.mapM _ amending_nameConstant) fun _ => .forM _ fun _ => amending_emit rfl rfl)

theorem amending_emitNamed {make : UInt16 → Instruction} (ordinary : ∀ n, (make n).isWord = false)
    (none : ∀ n, (make n).upvalue? = none) (name : String) : Amending (emitNamed make name) :=
  (amending_nameConstant name).bind fun n => amending_emit (ordinary n) (none n)

/-! ## Variables -/

theorem extends_addCapture {b b' : Body} {c : Capture} {i : UInt8} (added : addCapture b c = .ok (i, b')) :
    b.Extends b' ∧ b'.chunk = b.chunk ∧ i.toNat < b'.captures.size := by
  unfold addCapture at added
  split at added
  · rename_i k found
    cases added
    obtain ⟨bound, -, -⟩ := Array.findIdx?_eq_some_iff_getElem.mp found
    refine ⟨.refl b, rfl, ?_⟩
    rw [UInt8.toNat_ofNat']
    exact (Nat.mod_le _ _).trans_lt bound
  · split_ifs at added with full
    cases added
    refine ⟨⟨by simp, fun roomy => ⟨roomy.1, ?_⟩⟩, rfl, ?_⟩
    · rw [Array.size_push]
      omega
    · rw [Array.size_push, UInt8.toNat_ofNat']
      exact Nat.lt_succ_of_le (Nat.mod_le _ _)

theorem extends_markCaptured (b : Body) (slot : Nat) :
    b.Extends { b with locals := markCaptured slot b.locals } := by
  refine ⟨List.prefix_refl _, fun roomy => ⟨?_, roomy.2⟩⟩
  rw [← (marked_markCaptured slot b.locals).length_eq]
  exact roomy.1

section CaptureFrom
variable {name : String} {b b' e : Body} {outer outer' : List Body} {i : UInt8}

/-- A variable is a local of the next function, or the next function captures it itself. -/
theorem captureFrom_cons (found : captureFrom name b (e :: outer) = .ok (some (i, b', outer'))) :
    (∃ slot, slotOf name e.locals = .ok (some slot) ∧ addCapture b ⟨true, slot⟩ = .ok (i, b') ∧
      outer' = { e with locals := markCaptured slot.toNat e.locals } :: outer) ∨
    (slotOf name e.locals = .ok none ∧ ∃ j e' es, captureFrom name e outer = .ok (some (j, e', es)) ∧
      addCapture b ⟨false, j⟩ = .ok (i, b') ∧ outer' = e' :: es) := by
  unfold captureFrom at found
  simp only [Bind.bind, Except.bind, Pure.pure, Except.pure] at found
  split at found
  · cases found
  rename_i place hplace
  split at found
  · split at found
    · cases found
    rename_i added
    cases found
    exact .inl ⟨_, hplace, added, rfl⟩
  · split at found
    · cases found
    rename_i more hmore
    split at found
    · split at found
      · cases found
      rename_i added
      cases found
      exact .inr ⟨hplace, _, _, _, hmore, added, rfl⟩
    · cases found

theorem captureFrom_rewired (found : captureFrom name b outer = .ok (some (i, b', outer'))) :
    Rewired (b :: outer) (b' :: outer') ∧ i.toNat < b'.captures.size := by
  induction outer generalizing b i b' outer' with
  | nil => cases found
  | cons e outer ih =>
    obtain ⟨slot, -, added, rfl⟩ | ⟨-, j, e', es, more, added, rfl⟩ := captureFrom_cons found
    · obtain ⟨extends_, chunk, bound⟩ := extends_addCapture added
      exact ⟨.inner extends_ chunk (.here outer (extends_markCaptured e _) rfl rfl), bound⟩
    · obtain ⟨extends_, chunk, bound⟩ := extends_addCapture added
      exact ⟨.inner extends_ chunk (ih more).1, bound⟩

end CaptureFrom

/-- A capture at which a name is found is one of the function at hand. -/
def Assembler.Holds (a : Assembler) : Place → Prop
  | .capture n => n.toNat < a.body.captures.size
  | _ => True

theorem does_findPlace_amends (name : String) (a : Assembler) :
    Does (findPlace name) a fun r a' => a.Amends a' ∧ ∀ p, r = some p → a'.Holds p := by
  refine does_bind (does_get (does_bind (does_lift fun r _ => ?_)))
  cases r with
  | some slot => exact does_pure ⟨.refl a, fun p hp => Option.some.inj hp ▸ trivial⟩
  | none =>
    refine does_bind (does_lift fun r outward => ?_)
    cases r with
    | some r =>
      obtain ⟨i, body, outer⟩ := r
      obtain ⟨rewired, bound⟩ := captureFrom_rewired outward
      refine does_bind (does_set (does_pure ⟨.single (.books rewired rfl rfl), fun p hp => ?_⟩))
      cases hp
      exact bound
    | none => exact does_pure ⟨.refl a, nofun⟩

theorem does_place_amends (name : String) (a : Assembler) :
    Does (place name) a fun p a' => a.Amends a' ∧ a'.Holds p := by
  refine does_bind (does_mono (does_findPlace_amends name a) ?_)
  intro r a' h
  cases r with
  | some p => exact does_pure ⟨h.1, h.2 p rfl⟩
  | none =>
    refine does_bind (does_mono (amending_nameConstant name a') fun n a'' h' => does_pure ⟨h.1.trans h', trivial⟩)

theorem does_checkStore_amends (name : String) (a : Assembler) :
    Does (checkStore name) a fun p a' => a.Amends a' ∧ a'.Holds p := by
  refine does_bind (does_mono (does_place_amends name a) fun p a' h => ?_)
  refine does_bind (does_bind (does_get (does_pure ?_)))
  dsimp only
  split
  · split
    · exact does_bind does_throw
    · exact does_pure h
  · exact does_pure h

theorem does_access_amends {access : Place → Instruction} {p : Place} {a a' : Assembler}
    (getter : access = Place.getter ∨ access = Place.setter) (h : a.Amends a' ∧ a'.Holds p) :
    Does (emit (access p)) a' fun _ a'' => a.Amends a'' := by
  refine does_modify (h.1.trans (.single (.emit ?_ fun n captured => ?_)))
  · obtain rfl | rfl := getter <;> cases p <;> rfl
  · obtain rfl | rfl := getter <;> cases p <;> cases captured <;> exact h.2

theorem amending_load (name : String) : Amending (load name) := fun a =>
  does_bind (does_mono (does_place_amends name a) fun _ _ h => does_access_amends (.inl rfl) h)

theorem amending_store (name : String) : Amending (store name) := fun a =>
  does_bind (does_mono (does_checkStore_amends name a) fun _ _ h => does_access_amends (.inr rfl) h)

theorem amending_loadThis : Amending loadThis := by
  intro a
  refine does_bind (does_mono (does_findPlace_amends "this" a) fun r a' h => ?_)
  cases r with
  | some p => exact does_access_amends (.inl rfl) ⟨h.1, h.2 p rfl⟩
  | none => exact does_throw

/-! ## Control structures -/

theorem amending_pushControl (c : Control) : Amending (pushControl c) :=
  .books (fun _ => rfl) (fun _ => rfl) fun _ => rfl

theorem amending_popControl : Amending popControl := by
  refine .bind .getBody fun b => ?_
  split
  · exact .bind (.books (fun _ => rfl) (fun _ => rfl) fun _ => rfl) fun _ => .pure _
  · exact .throw _

theorem amending_popJoin : Amending popJoin := by
  refine amending_popControl.bind fun c => ?_
  split
  · exact .pure _
  · exact .throw _

theorem amending_popLoop : Amending popLoop := by
  refine amending_popControl.bind fun c => ?_
  split
  · exact .pure _
  · exact .throw _

theorem amending_andThen : Amending andThen :=
  (amending_newLabel _).bind fun _ => (amending_emit rfl rfl).bind fun _ => (amending_emit rfl rfl).bind fun _ =>
    amending_pushControl _

theorem amending_orElse : Amending orElse :=
  (amending_newLabel _).bind fun _ => (amending_newLabel _).bind fun _ => (amending_emit rfl rfl).bind fun _ =>
    (amending_emit rfl rfl).bind fun _ => (amending_placeLabel _).bind fun _ => (amending_emit rfl rfl).bind fun _ =>
      amending_pushControl _

theorem amending_endJoin : Amending endJoin := amending_popJoin.bind fun _ => amending_placeLabel _

theorem amending_branch : Amending branch :=
  (amending_newLabel _).bind fun _ => (amending_newLabel _).bind fun _ => (amending_emit rfl rfl).bind fun _ =>
    (amending_emit rfl rfl).bind fun _ => amending_pushControl _

theorem amending_branchElse : Amending branchElse := by
  refine amending_popControl.bind fun c => ?_
  split
  · exact (amending_emit rfl rfl).bind fun _ => (amending_placeLabel _).bind fun _ =>
      (amending_emit rfl rfl).bind fun _ => amending_pushControl _
  · exact .throw _

theorem amending_whileStart : Amending whileStart :=
  (amending_newLabel _).bind fun _ => (amending_newLabel _).bind fun _ => (amending_newLabel _).bind fun _ =>
    (amending_placeLabel _).bind fun _ => .bind .getBody fun _ => amending_pushControl _

theorem amending_whileBody : Amending whileBody := by
  refine amending_popLoop.bind fun l => ?_
  split
  · exact (amending_emit rfl rfl).bind fun _ => (amending_emit rfl rfl).bind fun _ => amending_pushControl _
  · exact .throw _

theorem amending_placeFail (l : Loop) : Amending (placeFail l) := by
  unfold placeFail
  split
  · exact (amending_placeLabel _).bind fun _ => amending_emit rfl rfl
  · exact .pure _

theorem amending_endLoop : Amending endLoop :=
  amending_popLoop.bind fun _ => (amending_emit rfl rfl).bind fun _ => (amending_placeFail _).bind fun _ =>
    amending_placeLabel _

theorem amending_forStart : Amending forStart :=
  (amending_newLabel _).bind fun _ => (amending_newLabel _).bind fun _ => (amending_newLabel _).bind fun _ =>
    (amending_placeLabel _).bind fun _ => .bind .getBody fun _ => amending_pushControl _

theorem amending_forCondition : Amending forCondition :=
  amending_popLoop.bind fun _ => (amending_newLabel _).bind fun _ => (amending_emit rfl rfl).bind fun _ =>
    (amending_emit rfl rfl).bind fun _ => amending_pushControl _

theorem amending_forStep : Amending forStep := by
  refine amending_popLoop.bind fun l => ?_
  split
  · exact (amending_emit rfl rfl).bind fun _ => (amending_newLabel _).bind fun _ =>
      (amending_placeLabel _).bind fun _ => amending_pushControl _
  · exact .throw _

theorem amending_forStepEnd : Amending forStepEnd :=
  amending_popLoop.bind fun _ => (amending_emit rfl rfl).bind fun _ => (amending_emit rfl rfl).bind fun _ =>
    amending_pushControl _

theorem amending_forBody : Amending forBody := by
  refine amending_popLoop.bind fun l => ?_
  split
  · exact (amending_placeLabel _).bind fun _ => amending_pushControl _
  · exact .throw _

theorem amending_loopStart : Amending loopStart :=
  (amending_newLabel _).bind fun _ => (amending_newLabel _).bind fun _ => (amending_placeLabel _).bind fun _ =>
    .bind .getBody fun _ => amending_pushControl _

theorem amending_loopEnd : Amending loopEnd := by
  have rest (l : Loop) : Amending (do
      emit (.goto l.next)
      placeLabel l.exit) := (amending_emit rfl rfl).bind fun _ => amending_placeLabel _
  exact amending_popLoop.bind fun l => .ite (rest l) ((Amending.throw _).bind fun _ => rest l)

theorem amending_leaveLoops : Amending leaveLoops := .books (fun _ => rfl) (fun _ => rfl) fun _ => rfl

theorem amending_currentLoop (keyword : String) : Amending (currentLoop keyword) := by
  refine .bind .getBody fun b => ?_
  split
  · exact .pure _
  · exact .throw _

theorem amending_breakLoop : Amending breakLoop :=
  (amending_currentLoop _).bind fun _ => (amending_emitDrops _).bind fun _ => (amending_emit rfl rfl).bind fun _ =>
    .books (fun _ => rfl) (fun _ => rfl) fun _ => rfl

theorem amending_continueLoop : Amending continueLoop :=
  (amending_currentLoop _).bind fun _ => (amending_emitDrops _).bind fun _ => amending_emit rfl rfl

theorem amending_returnCheck : Amending returnCheck :=
  .bind .getBody fun _ => .ite ((Amending.throw _).bind fun _ => amending_leaveLoops) amending_leaveLoops

theorem amending_returnValueCheck : Amending returnValueCheck :=
  .bind .getBody fun _ => .ite (.throw _) (.pure _)

theorem amending_checkImpure (target : String) : Amending (checkImpure target) :=
  .bind .getBody fun _ => .ite (.throw _) (.pure _)

/-! ## Functions and types -/

theorem amending_parameter (name : String) : Amending (parameter name) :=
  (amending_declareLocal name).bind fun _ => amending_complete.bind fun _ =>
    amending_listed fun _ _ named => .argument named

theorem amending_resultName (name : String) : Amending (resultName name) :=
  (amending_emit rfl rfl).bind fun _ => (amending_declareLocal name).bind fun _ => amending_complete.bind fun _ =>
    amending_listed fun _ _ named => .result named

theorem amending_storeMatching (fields : List String) : Amending (storeMatching fields) := by
  refine .bind .getBody fun b => .forM _ fun x => ?_
  dsimp only
  split
  · exact .ite ((amending_emit rfl rfl).bind fun _ => (amending_emit rfl rfl).bind fun _ =>
      (amending_emit rfl rfl).bind fun _ => amending_emit rfl rfl) (.pure _)
  · exact .pure _

theorem amending_implicitReturn : Amending implicitReturn :=
  .bind .getBody fun _ => .ite ((amending_emit rfl rfl).bind fun _ => amending_emit rfl rfl)
    (.ite ((amending_emit rfl rfl).bind fun _ => amending_emit rfl rfl)
      ((Amending.forM _ fun _ => amending_emit rfl rfl).bind fun _ => amending_emit rfl rfl))

theorem amending_checkSuper : Amending checkSuper := by
  refine .bind .get fun a => ?_
  split
  · exact .throw _
  · exact .ite (.pure _) (.throw _)

theorem amending_beginType (kind : TypeKind) (name : String) : Amending (beginType kind name) :=
  (amending_nameConstant name).bind fun _ => (amending_declare name).bind fun _ => (amending_emit rfl rfl).bind fun _ =>
    (amending_define name).bind fun _ => .modify (fun _ => rfl) (fun _ => rfl) (fun _ => rfl) fun _ => rfl

theorem amending_inherits : Amending (do
    emit .inherit
    modify fun a : Assembler =>
      match a.types with
      | t :: rest => { a with types := { t with hasSuper := true } :: rest }
      | [] => a) := by
  refine (amending_emit rfl rfl).bind fun _ => .modify (fun a => ?_) (fun a => ?_) (fun a => ?_) fun a => ?_
  all_goals split <;> rfl

/-- The name of the supertype is looked up, and that of the type in the scope of the hidden local. -/
theorem amending_inheritFrom (parent name : String) : Amending (inheritFrom parent name) :=
  (amending_load parent).bind fun _ => amending_beginScope.bind fun _ => (amending_pushLocal _).bind fun _ =>
    amending_complete.bind fun _ => (amending_load name).bind fun _ => amending_inherits

theorem amending_endType : Amending endType := by
  have rest (rest : List TypeScope) : Amending (modify fun a : Assembler => { a with types := rest }) :=
    .modify (fun _ => rfl) (fun _ => rfl) (fun _ => rfl) fun _ => rfl
  refine (amending_emit rfl rfl).bind fun _ => (amending_emit rfl rfl).bind fun _ => .bind .get fun a => ?_
  split
  · exact .ite (amending_endScope.bind fun _ => rest _) (rest _)
  · exact .throw _

theorem amending_caseCheck : Amending caseCheck := .bind .get fun _ => .ite (.pure _) (.throw _)

/-! ## Functions that begin and end -/

/-- A function of which nothing is written yet. -/
structure Assembler.Body.Fresh (b : Body) : Prop where
  chunk : ∃ name source chain kind modifiers, b.chunk = { name, source, chain, kind, modifiers }
  captures : b.captures = #[]
  roomy : b.Roomy

/-- The instructions that make a closure over a chunk are written. -/
def Assembler.Body.enclose (e : Body) (ref : ChunkRef) (index : UInt16) (captures : List Capture) (line : UInt32) :
    Body :=
  captures.foldl (fun b c => b.emit (.capture c) line)
    ((e.setChunk (e.chunk.putConstant index (.chunk ref))).emit (.closure index) line)

/-- The chunk of a function that has captured so many variables. -/
def Chunk.counted (c : Chunk) (captures : Nat) : Chunk := { c with captureCount := UInt8.ofNat captures }

theorem Assembler.Body.enclose_books (e : Body) (ref : ChunkRef) (index : UInt16) (captures : List Capture)
    (line : UInt32) : (e.enclose ref index captures line).captures = e.captures ∧
      (e.enclose ref index captures line).locals = e.locals := by
  have written (b : Body) : (captures.foldl (fun b c => b.emit (.capture c) line) b).captures = b.captures ∧
      (captures.foldl (fun b c => b.emit (.capture c) line) b).locals = b.locals := by
    induction captures generalizing b with
    | nil => exact ⟨rfl, rfl⟩
    | cons c captures ih => exact ih (b.emit (.capture c) line)
  exact written _

/-- The current function ends: its chunk is listed, and the function around it makes the closure. -/
def Assembler.Delivers (a a' : Assembler) : Prop :=
  ∃ (e : Body) (outer : List Body) (index : UInt16) (line : UInt32), a.outer = e :: outer ∧
    e.chunk.constantIndex? (.chunk (.listed a.chunks.size)) = some index ∧
    a'.opened = e.enclose (.listed a.chunks.size) index a.body.captures.toList line :: outer ∧
    a'.aside = a.aside ∧
    a'.chunks = a.chunks.push (a.body.chunk.counted a.body.captures.size)

/-- What the directives of a kind do to an assembly. -/
def Shift.Carries (a a' : Assembler) : Shift → Prop
  | .stays => a.Amends a'
  | .begins => ∃ (a₁ : Assembler) (b : Body), a.Amends a₁ ∧ b.Fresh ∧ a'.opened = b :: a₁.opened ∧
      a'.aside = a₁.aside ∧ a'.chunks = a₁.chunks
  | .ends => ∃ a₁ a₂ : Assembler, a.Amends a₁ ∧ a₁.Delivers a₂ ∧ a₂.Amends a'
  | .aside => ∃ b, a.opened = b :: a'.opened ∧ a'.aside = b :: a.aside ∧ a'.chunks = a.chunks
  | .back => ∃ b, a.aside = b :: a'.aside ∧ a'.opened = b :: a.opened ∧ a'.chunks = a.chunks

namespace Shift.Carries
variable {a a₁ a' : Assembler}

theorem begins_after (first : a.Amends a₁) (h : Shift.begins.Carries a₁ a') : Shift.begins.Carries a a' := by
  obtain ⟨a₂, b, amends, rest⟩ := h
  exact ⟨a₂, b, first.trans amends, rest⟩

theorem ends_after (first : a.Amends a₁) (h : Shift.ends.Carries a₁ a') : Shift.ends.Carries a a' := by
  obtain ⟨a₂, a₃, amends, rest⟩ := h
  exact ⟨a₂, a₃, first.trans amends, rest⟩

theorem marked {shift : Shift} {mark : Mark} (h : shift.Carries { a with mark := mark } a') : shift.Carries a a' := by
  have same : a.Amends { a with mark := mark } := .here (.refl _) rfl rfl rfl rfl rfl
  cases shift with
  | stays => exact same.trans h
  | begins => exact h.begins_after same
  | ends => exact h.ends_after same
  | aside => exact h
  | back => exact h

end Shift.Carries

theorem carries_beginFunction (kind : FunctionKind) (name : String) (m : Modifiers) (a : Assembler) :
    Does (beginFunction kind name m) a fun _ a' => Shift.begins.Carries a a' := by
  refine does_bind (does_get ?_)
  dsimp only
  by_cases deep : a.level + 1 ≥ 256
  · rw [if_pos deep]
    exact does_bind does_throw
  · rw [if_neg deep]
    exact does_set ⟨a, _, .refl a, ⟨⟨_, _, _, _, _, rfl⟩, rfl, by simp [Body.Roomy]⟩, rfl, rfl, rfl⟩

theorem does_captures (cs : List Capture) (a : Assembler) : Does (cs.forM fun c => emit (.capture c)) a fun _ a' =>
    a' = a.setBody (cs.foldl (fun b c => b.emit (.capture c) a.line) a.body) := by
  induction cs generalizing a with
  | nil => exact does_pure rfl
  | cons c cs ih => exact does_forM_cons (does_modify (ih (a.setBody (a.body.emit (.capture c) a.line))))

/-- The current function ends behind its implicit return. -/
theorem does_endFunction {I : Assembler → Prop} {a : Assembler} (first : Does implicitReturn a fun _ => I) :
    Does endFunction a fun _ a' => ∃ a₁, I a₁ ∧ a₁.Delivers a' := by
  refine does_bind (does_mono first fun _ a₁ first => ?_)
  refine does_bind (does_bind (does_get ?_))
  split
  swap
  · exact does_throw
  rename_i e outer around
  refine does_bind (does_set (does_pure ?_))
  have closure : Does (do
      let index := (← get).chunks.size
      modify fun a : Assembler => { a with chunks := a.chunks.push (a₁.body.chunk.counted a₁.body.captures.size) }
      emit (.closure (← constant (.chunk (.listed index))))
      a₁.body.captures.toList.forM fun c => emit (.capture c)) { a₁ with body := e, outer := outer }
      fun _ a' => a₁.Delivers a' := by
    refine does_bind (does_get (does_bind (does_modify (does_bind (does_bind (does_get ?_))))))
    dsimp only
    split
    swap
    · exact does_throw
    rename_i index free
    refine does_bind (does_modify (does_pure (does_bind (does_modify ?_))))
    refine does_mono (does_captures _ _) fun _ a' same => ?_
    subst same
    exact ⟨e, outer, index, _, around, free, rfl, rfl, rfl⟩
  dsimp only
  split
  · exact does_mono closure fun _ a' delivers => ⟨a₁, first, delivers⟩
  · exact does_bind does_throw

/-- Every directive that ends a function. What it amends before are the test sets, if anything. -/
theorem does_ends {d : Directive} {I : Assembler → Prop} {a : Assembler} (ends : d.shift = .ends)
    (first : ∀ sets, Does implicitReturn { a with testSets := sets } fun _ => I) :
    Does (perform d) a fun _ a' => ∃ a₁ a₂, I a₁ ∧ a₁.Delivers a₂ ∧ a₂.Amends a' := by
  have named (make : UInt16 → Instruction) (ordinary : ∀ n, (make n).isWord = false)
      (none : ∀ n, (make n).upvalue? = none) (name : String) : Amending (emitNamed make name) :=
    amending_emitNamed ordinary none name
  have closing := does_endFunction (first a.testSets)
  cases d with
  | endFunction => exact does_mono closing fun _ a₂ ⟨a₁, first, delivers⟩ => ⟨a₁, a₂, first, delivers, .refl a₂⟩
  | endInitChain fields =>
    refine does_bind (does_mono closing fun _ a₂ ⟨a₁, first, delivers⟩ => ?_)
    have last : Amending (do
        emit .initChain
        fields.forM fun f => do emit (.field (← nameConstant f))) :=
      (amending_emit rfl rfl).bind fun _ => .forM _ fun _ => (amending_nameConstant _).bind fun _ => amending_emit rfl rfl
    exact does_mono (last a₂) fun _ _ last => ⟨a₁, a₂, first, delivers, last⟩
  | endTest name =>
    refine does_bind (does_modify (does_bind (does_mono (does_endFunction (first a.testSets.tail))
      fun _ a₂ ⟨a₁, first, delivers⟩ => ?_)))
    exact does_mono (named .testSet (fun _ => rfl) (fun _ => rfl) name a₂) fun _ _ last => ⟨a₁, a₂, first, delivers, last⟩
  | endCase name hasRows =>
    refine does_bind (does_mono closing fun _ a₂ ⟨a₁, first, delivers⟩ => ?_)
    exact does_mono (named _ (fun _ => rfl) (fun _ => rfl) name a₂) fun _ _ last => ⟨a₁, a₂, first, delivers, last⟩
  | _ => cases ends

/-- Every directive but the last one of a script. -/
theorem carries_perform {d : Directive} (inner : d ≠ .endScript) (a : Assembler) :
    Does (perform d) a fun _ a' => d.shift.Carries a a' := by
  have stays {x : Assembly Unit} (h : Amending x) : Does x a fun _ a' => Shift.stays.Carries a a' := h a
  have named {make : UInt16 → Instruction} (ordinary : ∀ n, (make n).isWord = false)
      (none : ∀ n, (make n).upvalue? = none) (name : String) : Amending (emitNamed make name) :=
    amending_emitNamed ordinary none name
  cases d with
  | beginFunction kind name m => exact carries_beginFunction kind name m a
  | beginInitChain => exact carries_beginFunction _ _ _ a
  | beginTest name =>
    refine does_bind (does_mono (amending_nameConstant name a) fun _ a₁ first => ?_)
    refine does_bind (does_mono (carries_beginFunction _ _ _ a₁) fun _ a₂ begins => does_modify ?_)
    exact begins.begins_after first
  | beginCase name =>
    refine does_bind (does_mono (amending_nameConstant name a) fun _ a₁ first => ?_)
    exact does_mono (carries_beginFunction _ _ _ a₁) fun _ _ begins => begins.begins_after first
  | endFunction | endInitChain | endTest | endCase =>
    have same (sets : List Nat) : a.Amends { a with testSets := sets } := .here (.refl _) rfl rfl rfl rfl rfl
    exact does_ends rfl fun sets => does_mono (amending_implicitReturn _) fun _ _ first => (same sets).trans first
  | stepOut =>
    refine does_bind (does_bind (does_get ?_))
    split
    · rename_i outer
      exact does_bind (does_set (does_pure (does_modify ⟨a.body, congrArg (a.body :: ·) outer, rfl, rfl⟩)))
    · exact does_throw
  | stepIn =>
    refine does_bind (does_get ?_)
    split
    · rename_i aside
      exact does_set ⟨_, aside, rfl, rfl⟩
    · exact does_throw
  | plain i plain =>
    have ordinary : i.isWord = false ∧ i.upvalue? = none := by cases i <;> first | exact ⟨rfl, rfl⟩ | cases plain
    exact stays (amending_emit ordinary.1 ordinary.2)
  | number n => exact stays (amending_number n)
  | string s => exact stays ((amending_constant rfl).bind fun _ => amending_emit rfl rfl)
  | reserve name => exact stays ((amending_nameConstant name).bind fun _ => .pure _)
  | resolve name =>
    exact does_bind (does_mono (does_place_amends name a) fun _ _ amends => does_pure amends.1)
  | checkStore name =>
    exact does_bind (does_mono (does_checkStore_amends name a) fun _ _ amends => does_pure amends.1)
  | load name => exact stays (amending_load name)
  | store name => exact stays (amending_store name)
  | receiver => exact stays (amending_emit rfl rfl)
  | this => exact stays amending_loadThis
  | checkSuper => exact stays amending_checkSuper
  | getSuper name => exact stays (named (fun _ => rfl) (fun _ => rfl) name)
  | superInvoke name argc => exact stays (named (fun _ => rfl) (fun _ => rfl) name)
  | getProperty name => exact stays (named (fun _ => rfl) (fun _ => rfl) name)
  | invoke name argc => exact stays (named (fun _ => rfl) (fun _ => rfl) name)
  | checkImpure target => exact stays (amending_checkImpure _)
  | setProperty name =>
    exact stays ((amending_checkImpure _).bind fun _ => named (fun _ => rfl) (fun _ => rfl) name)
  | setIndex => exact stays ((amending_checkImpure _).bind fun _ => amending_emit rfl rfl)
  | storeField name => exact stays ((named (fun _ => rfl) (fun _ => rfl) name).bind fun _ => amending_emit rfl rfl)
  | inject name => exact stays (named (fun _ => rfl) (fun _ => rfl) name)
  | register name => exact stays (named (fun _ => rfl) (fun _ => rfl) name)
  | beginScope => exact stays amending_beginScope
  | endScope => exact stays amending_endScope
  | declare name => exact stays (amending_declare name)
  | define name => exact stays (amending_define name)
  | defineMany names => exact stays (amending_defineMany names)
  | declareFunction name => exact stays ((amending_declare name).bind fun _ => amending_complete)
  | parameter name => exact stays (amending_parameter name)
  | resultName name => exact stays (amending_resultName name)
  | storeMatching fields => exact stays (amending_storeMatching fields)
  | returnCheck => exact stays amending_returnCheck
  | returnValueCheck => exact stays amending_returnValueCheck
  | implicitReturn => exact stays amending_implicitReturn
  | leaveLoops => exact stays amending_leaveLoops
  | andThen => exact stays amending_andThen
  | orElse => exact stays amending_orElse
  | shortEnd => exact stays amending_endJoin
  | branch => exact stays amending_branch
  | branchElse => exact stays amending_branchElse
  | branchEnd => exact stays amending_endJoin
  | whileStart => exact stays amending_whileStart
  | whileBody => exact stays amending_whileBody
  | whileEnd => exact stays amending_endLoop
  | forStart => exact stays amending_forStart
  | forCondition => exact stays amending_forCondition
  | forStep => exact stays amending_forStep
  | forStepEnd => exact stays amending_forStepEnd
  | forBody => exact stays amending_forBody
  | forEnd => exact stays amending_endLoop
  | loopStart => exact stays amending_loopStart
  | loopEnd => exact stays amending_loopEnd
  | loopCheck keyword => exact stays ((amending_currentLoop keyword).bind fun _ => .pure _)
  | breakLoop => exact stays amending_breakLoop
  | continueLoop => exact stays amending_continueLoop
  | beginType kind name => exact stays (amending_beginType kind name)
  | inheritFrom parent name => exact stays (amending_inheritFrom parent name)
  | staticMember name => exact stays (named (fun _ => rfl) (fun _ => rfl) name)
  | method name => exact stays (named (fun _ => rfl) (fun _ => rfl) name)
  | enumValue name => exact stays (named (fun _ => rfl) (fun _ => rfl) name)
  | endType => exact stays amending_endType
  | caseCheck => exact stays amending_caseCheck
  | unreachable keyword line => exact stays (.modify (fun _ => rfl) (fun _ => rfl) (fun _ => rfl) fun _ => rfl)
  | endScript => exact absurd rfl inner

theorem carries_step {t : Step} (inner : t.directive ≠ .endScript) (a : Assembler) :
    Does (performStep t) a fun _ a' => t.directive.shift.Carries a a' :=
  does_bind (does_modify (does_mono (carries_perform inner _) fun _ _ h => h.marked))

/-- The chunk of a script is the last one that is listed. -/
theorem does_endScript_amends (a : Assembler) : Does endScript a fun _ a' => ∃ a₁, a.Amends a₁ ∧
    a'.opened = a₁.opened ∧ a'.aside = a₁.aside ∧ a'.chunks = a₁.chunks.push a₁.body.chunk := by
  refine does_bind (does_mono (amending_emit rfl rfl a) fun _ a₁ null => ?_)
  refine does_bind (does_mono (amending_emit rfl rfl a₁) fun _ a₂ returns => does_bind (does_get ?_))
  dsimp only
  split
  · exact does_set ⟨a₂, null.trans returns, rfl, rfl, rfl⟩
  · exact does_bind does_throw

end ScriptEngine
