import ScriptEngine.Proofs.Tracking

/-!
# Carrying out directives of one function

`Does` says what holds when an assembly succeeds; the rules give it for the
pieces that directives are made of. A directive that concerns the current
function alone takes its body, which follows the outline before the move of the
directive, to one that follows the outline behind it.
-/
namespace ScriptEngine

open Assembler Outline

/-- Whatever the assembly comes to, it is as `Q` says. -/
def Does {α : Type} (x : Assembly α) (a : Assembler) (Q : α → Assembler → Prop) : Prop :=
  ∀ r a', x a = .ok r a' → Q r a'

namespace Assembler

def setBody (a : Assembler) (b : Body) : Assembler := { a with body := b }

@[simp] theorem setBody_setBody (a : Assembler) (b b' : Body) :
    (a.setBody b).setBody b' = a.setBody b' := rfl

@[simp] theorem setBody_body (a : Assembler) : a.setBody a.body = a := rfl

section Fields
variable {a : Assembler} {b : Body}

@[simp] theorem setBody_types : (a.setBody b).types = a.types := rfl

@[simp] theorem setBody_outer : (a.setBody b).outer = a.outer := rfl

@[simp] theorem setBody_chunks : (a.setBody b).chunks = a.chunks := rfl

end Fields

def line (a : Assembler) : UInt32 := UInt32.ofNat a.mark.line

end Assembler

section Rules
variable {α β : Type} {a : Assembler} {b : Body}

theorem does_pure {r : α} {Q : α → Assembler → Prop} (h : Q r a) : Does (pure r) a Q := by
  rintro _ _ ⟨⟩
  exact h

theorem does_bind {x : Assembly α} {f : α → Assembly β} {Q : β → Assembler → Prop}
    (h : Does x a fun r a' => Does (f r) a' Q) : Does (x >>= f) a Q := by
  intro r a' hr
  change EStateM.bind x f a = _ at hr
  unfold EStateM.bind at hr
  split at hr
  · exact h _ _ ‹_› _ _ hr
  · cases hr

theorem does_mono {x : Assembly α} {P Q : α → Assembler → Prop} (h : Does x a P)
    (imp : ∀ r a', P r a' → Q r a') : Does x a Q :=
  fun r a' hr => imp r a' (h r a' hr)

theorem assembly_bind {x : Assembly α} {r : α} {a' : Assembler} (h : x a = .ok r a') (f : α → Assembly β) :
    (x >>= f) a = f r a' := by
  change EStateM.bind x f a = _
  unfold EStateM.bind
  rw [h]

theorem performAll_cons {t : Step} {steps : List Step} {a a'' : Assembler}
    (run : performAll (t :: steps) a = .ok () a'') :
    ∃ a', performStep t a = .ok () a' ∧ performAll steps a' = .ok () a'' := by
  change EStateM.bind (performStep t) (fun _ => performAll steps) a = _ at run
  unfold EStateM.bind at run
  split at run
  · rename_i a' first
    exact ⟨a', first, run⟩
  · cases run

theorem performAll_append {xs ys : List Step} {a a'' : Assembler} (run : performAll (xs ++ ys) a = .ok () a'') :
    ∃ a', performAll xs a = .ok () a' ∧ performAll ys a' = .ok () a'' := by
  induction xs generalizing a with
  | nil => exact ⟨a, rfl, run⟩
  | cons x xs ih =>
    obtain ⟨a₁, first, run⟩ := performAll_cons run
    obtain ⟨a', front, back⟩ := ih run
    exact ⟨a', (assembly_bind first _).trans front, back⟩

theorem does_forM_cons {f : α → Assembly Unit} {x : α} {xs : List α} {Q : Unit → Assembler → Prop}
    (h : Does (f x) a fun _ a' => Does (xs.forM f) a' Q) : Does ((x :: xs).forM f) a Q :=
  does_bind h

/-- What each round keeps holds behind a loop. -/
theorem does_forM {f : α → Assembly Unit} {xs : List α} {I : Assembler → Prop} (h : I a)
    (round : ∀ x ∈ xs, ∀ a, I a → Does (f x) a fun _ => I) : Does (xs.forM f) a fun _ => I := by
  induction xs generalizing a with
  | nil => exact does_pure h
  | cons x xs ih =>
    refine does_forM_cons (does_mono (round x (.head _) a h) fun _ a' h' => ?_)
    exact ih h' fun y hy => round y (.tail _ hy)

theorem does_throw {fault : CompileFault} {Q : α → Assembler → Prop} :
    Does (throw fault) a Q := by
  rintro _ _ ⟨⟩

theorem does_get {Q : Assembler → Assembler → Prop} (h : Q a a) :
    Does (get : Assembly Assembler) a Q := by
  rintro _ _ ⟨⟩
  exact h

theorem does_set {a' : Assembler} {Q : PUnit → Assembler → Prop} (h : Q () a') :
    Does (set a' : Assembly PUnit) a Q := by
  rintro _ _ ⟨⟩
  exact h

theorem does_modify {f : Assembler → Assembler} {Q : PUnit → Assembler → Prop} (h : Q () (f a)) :
    Does (modify f : Assembly PUnit) a Q := by
  rintro _ _ ⟨⟩
  exact h

theorem does_getBody {Q : Body → Assembler → Prop} (h : Q b (a.setBody b)) :
    Does getBody (a.setBody b) Q := by
  rintro _ _ ⟨⟩
  exact h

theorem does_modifyBody {f : Body → Body} {Q : Unit → Assembler → Prop}
    (h : Q () (a.setBody (f b))) : Does (modifyBody f) (a.setBody b) Q := by
  rintro _ _ ⟨⟩
  exact h

theorem does_emit {i : Instruction} {Q : Unit → Assembler → Prop}
    (h : Q () (a.setBody (b.emit i a.line))) : Does (emit i) (a.setBody b) Q := by
  rintro _ _ ⟨⟩
  exact h

theorem does_newLabel {name : String} {Q : UInt16 → Assembler → Prop}
    (h : b.chunk.labels.size < 65536 →
      Q (UInt16.ofNat b.chunk.labels.size) (a.setBody (b.setChunk (b.chunk.addLabel name)))) :
    Does (newLabel name) (a.setBody b) Q := by
  unfold newLabel
  refine does_bind (does_get ?_)
  unfold Chunk.nextLabel?
  split_ifs with room
  · exact does_bind (does_modifyBody (does_pure (h room)))
  · exact does_throw

theorem does_placeLabel {label : UInt16} {Q : Unit → Assembler → Prop}
    (h : Q () (a.setBody (b.setChunk (b.chunk.placeLabel label)))) :
    Does (placeLabel label) (a.setBody b) Q := by
  rintro _ _ ⟨⟩
  exact h

theorem does_pushControl {c : Control} {Q : Unit → Assembler → Prop}
    (h : Q () (a.setBody (b.setControl (c :: b.control)))) :
    Does (pushControl c) (a.setBody b) Q :=
  does_modifyBody h

theorem does_popControl {Q : Control → Assembler → Prop}
    (h : ∀ c cs, b.control = c :: cs → Q c (a.setBody (b.setControl cs))) :
    Does popControl (a.setBody b) Q := by
  unfold popControl
  refine does_bind (does_getBody ?_)
  split
  · rename_i c cs hc
    exact does_bind (does_modifyBody (does_pure (h c cs hc)))
  · exact does_throw

theorem does_popLoop {Q : Loop → Assembler → Prop}
    (h : ∀ l cs, b.control = .loop l :: cs → Q l (a.setBody (b.setControl cs))) :
    Does popLoop (a.setBody b) Q := by
  unfold popLoop
  refine does_bind (does_popControl fun c cs hc => ?_)
  split
  · exact does_pure (h _ cs hc)
  · exact does_throw

theorem putConstant_eq (c : Chunk) (index : UInt16) (value : Constant) :
    c.putConstant index value = { c with constants := (c.putConstant index value).constants } := by
  unfold Chunk.putConstant
  split <;> rfl

theorem grows_putConstant (c : Chunk) (index : UInt16) (value : Constant) :
    Grows c.constants (c.putConstant index value).constants := by
  unfold Chunk.putConstant
  split
  · exact grows_push _ _
  · exact .refl _

theorem eq_of_shares {v k : Constant} (h : Chunk.shares v k) : v = k := by
  unfold Chunk.shares at h
  split at h
  · rw [eq_of_beq h]
  · rw [eq_of_beq h]
  · cases h

/-- A constant stands at the index that is found for it, or one that it shares. -/
theorem constant_putConstant {c : Chunk} {index : UInt16} {value : Constant}
    (h : c.constantIndex? value = some index) : ∃ v,
      (c.putConstant index value).constants[index.toNat]? = some v ∧
        (v = value ∨ Chunk.shares v value) := by
  unfold Chunk.constantIndex? at h
  generalize hfound : c.constants.findIdx? (Chunk.shares · value) = found at h
  dsimp only at h
  split_ifs at h with room
  injection h with h
  have toNat : index.toNat = found.getD c.constants.size := by
    rw [← h, UInt16.toNat_ofNat', Nat.mod_eq_of_lt (by omega)]
  unfold Chunk.putConstant
  rw [toNat]
  cases found with
  | none =>
    refine ⟨value, ?_, .inl rfl⟩
    simp
  | some k =>
    obtain ⟨bound, shares, -⟩ := Array.findIdx?_eq_some_iff_getElem.mp hfound
    refine ⟨c.constants[k], ?_, .inr shares⟩
    rw [if_neg (by simp; omega)]
    simp [bound]

theorem does_constant {value : Constant} {Q : UInt16 → Assembler → Prop}
    (h : ∀ index constants v, Grows b.chunk.constants constants →
      constants[index.toNat]? = some v → v = value ∨ Chunk.shares v value →
      Q index (a.setBody (b.setChunk { b.chunk with constants := constants }))) :
    Does (constant value) (a.setBody b) Q := by
  unfold constant
  refine does_bind (does_get ?_)
  split
  · rename_i index hindex
    refine does_bind (does_modifyBody (does_pure ?_))
    obtain ⟨v, found, same⟩ := constant_putConstant hindex
    have := h index _ v (grows_putConstant b.chunk index value) found same
    rwa [← putConstant_eq] at this
  · exact does_throw

theorem does_nameConstant {name : String} {Q : UInt16 → Assembler → Prop}
    (h : ∀ index constants, Grows b.chunk.constants constants →
      constants[index.toNat]? = some (.string name) →
      Q index (a.setBody (b.setChunk { b.chunk with constants := constants }))) :
    Does (nameConstant name) (a.setBody b) Q := by
  refine does_constant fun index constants v grows found same => h index constants grows ?_
  rw [found, same.elim id eq_of_shares]

end Rules

section Follows
variable {known : Array Chunk} {legal : Nat → String → Prop} {c₀ : Chunk} {N₀ : Notes} {L : Level} {b : Body}
  {N : Notes} {extra : List (Nat × Point)} {ws : List Nat} {p : Point} {i : Instruction}
  {ℓ : UInt32} {a : Assembler}

/-- Only the current function has changed, and follows the outline. -/
def Follows (known : Array Chunk) (legal : Nat → String → Prop) (c₀ : Chunk) (N₀ : Notes) (a : Assembler)
    (captures : Array Capture) (L : Level) (a' : Assembler) : Prop :=
  ∃ b N ws, a' = a.setBody b ∧ b.captures = captures ∧
    Core known legal c₀ N₀ L b N [] ws (L.point N.vars)

theorem Core.touch (h : Core known legal c₀ N₀ L b N extra ws p) :
    Core known legal c₀ N₀ L.touch b N extra ws p :=
  ⟨h.draft, h.wants, h.frames.touch, h.now, h.later, h.adds⟩

theorem Core.setTemps (h : Core known legal c₀ N₀ L b N extra ws p) (temps : List Held) :
    Core known legal c₀ N₀ (L.setTemps temps) b N extra ws p :=
  ⟨h.draft, h.wants, h.frames.setTemps temps, h.now, h.later, h.adds⟩

theorem Core.constants (h : Core known legal c₀ N₀ L b N extra ws p) {constants : Array Constant}
    (grows : Grows b.chunk.constants constants) :
    Core known legal c₀ N₀ L (b.setChunk { b.chunk with constants := constants }) N extra ws p where
  draft := h.draft.mono rfl rfl grows le_rfl (.refl _)
  wants := h.wants
  frames := ⟨h.frames.kind, h.frames.names, h.frames.locals, h.frames.nodup, h.frames.fresh,
    h.frames.room, h.frames.width, h.frames.fixed, h.frames.entry, h.frames.start,
    h.frames.role, h.frames.set, h.frames.bottom,
    h.frames.heads.mono rfl rfl grows, h.frames.whole⟩
  now := h.now
  later := h.later.trans (.still rfl rfl grows)
  adds := h.adds.still rfl rfl

/-- An instruction between temporaries. -/
theorem Core.simple {takes gives : Nat} {τ ρ : List Held}
    (h : Core known legal c₀ N₀ L b N extra ws (L.point N.vars)) (temps : L.temps = τ ++ ρ)
    (effect : i.effect = some (takes, gives)) (length : τ.length = takes)
    (values : ∀ e ∈ τ, e.isValue) (target : i.target? = none)
    (fits : Fits legal b.chunk b.captures.size (L.point N.vars) i) (usual : L.Usual)
    (set : L.role = .set ∨ i.isTestCase = false) :
    ∃ N', N'.vars = N.vars ∧ N'.fresh = N.fresh ∧ N'.caught = N.caught ∧
      Core known legal c₀ N₀ (L.setTemps (List.replicate gives .value ++ ρ)) (b.emit i ℓ) N'
        extra ws ((L.setTemps (List.replicate gives .value ++ ρ)).point N'.vars) := by
  have split : L.point N.vars = ⟨τ ++ (ρ ++ bounds N.vars), L.region⟩ := by
    simp [Level.point, temps]
  have here := usual.point N.vars
  rw [split] at h fits here
  refine ⟨N.emit b.chunk.code.size ⟨List.replicate gives .value ++ ρ ++ bounds N.vars, L.region⟩,
    rfl, rfl, rfl, ?_⟩
  have := (h.setTemps (List.replicate gives .value ++ ρ)).plain rfl effect length values target fits here
    set (ℓ := ℓ)
  rwa [← List.append_assoc] at this

/-- Instructions whose operands are at most a name. -/
def Instruction.isOpen : Instruction → Bool
  | .pushConstant _ | .getLocal _ | .setLocal _ | .getUpvalue _ | .setUpvalue _ | .capture _
  | .ret _ | .yield => false
  | _ => true

theorem fits_open {c : Chunk} {width : Nat} (simple : i.isOpen)
    (name : ∀ n, i.name? = some n → (c.name? n).isSome) : Fits legal c width p i := by
  refine ⟨name, ?constant, ?slot, ?upvalue, ?results, ?calm⟩
  case constant =>
    rintro n rfl
    cases simple
  case slot =>
    intro n h
    cases i <;> first | (cases h; done) | cases simple
  case upvalue => rintro n (rfl | rfl | rfl) <;> cases simple
  case results =>
    rintro n rfl
    cases simple
  case calm =>
    rintro rfl
    cases simple

theorem name?_of_constant {c : Chunk} {index : UInt16} {name : String}
    (h : c.constants[index.toNat]? = some (.string name)) : c.name? index = some name := by
  rw [Chunk.name?, h]

theorem name?_grows {c c' : Chunk} (grows : Grows c.constants c'.constants) {index : UInt16} {name : String}
    (h : c.name? index = some name) : c'.name? index = some name := by
  unfold Chunk.name? at h ⊢
  split at h
  · rename_i found
    rw [grows _ _ found]
    exact h
  · cases h

theorem name_isSome {c : Chunk} {index : UInt16} {name : String}
    (h : c.constants[index.toNat]? = some (.string name)) : (c.name? index).isSome := by
  rw [name?_of_constant h]
  rfl

theorem Follows.intro (h : Core known legal c₀ N₀ L b N [] ws (L.point N.vars)) :
    Follows known legal c₀ N₀ a b.captures L (a.setBody b) :=
  ⟨b, N, ws, rfl, rfl, h⟩

theorem Follows.of {captures : Array Capture} (h : Core known legal c₀ N₀ L b N [] ws p)
    (point : L.point N.vars = p) (same : b.captures = captures) :
    Follows known legal c₀ N₀ a captures L (a.setBody b) :=
  ⟨b, N, ws, rfl, same, point ▸ h⟩

/-- A directive that is one instruction. -/
theorem follows_emit {takes gives : Nat} {τ ρ : List Held}
    (h : Core known legal c₀ N₀ L b N [] ws (L.point N.vars)) (temps : L.temps = τ ++ ρ)
    (effect : i.effect = some (takes, gives)) (length : τ.length = takes)
    (values : ∀ e ∈ τ, e.isValue) (target : i.target? = none)
    (fits : Fits legal b.chunk b.captures.size (L.point N.vars) i) (usual : L.Usual)
    (set : L.role = .set ∨ i.isTestCase = false) :
    Does (emit i) (a.setBody b) fun _ =>
      Follows known legal c₀ N₀ a b.captures (L.setTemps (List.replicate gives .value ++ ρ)) := by
  refine does_emit ?_
  obtain ⟨N', -, -, -, h'⟩ := h.simple temps effect length values target fits usual set (ℓ := a.line)
  exact ⟨_, N', ws, rfl, rfl, h'⟩

/-- A directive that is one instruction with a name. -/
theorem follows_emitNamed (make : UInt16 → Instruction) (name : String) {takes gives : Nat}
    {τ ρ : List Held} (h : Core known legal c₀ N₀ L b N [] ws (L.point N.vars))
    (temps : L.temps = τ ++ ρ) (effect : ∀ n, (make n).effect = some (takes, gives))
    (length : τ.length = takes) (values : ∀ e ∈ τ, e.isValue)
    (target : ∀ n, (make n).target? = none) (simple : ∀ n, (make n).isOpen)
    (named : ∀ n, (make n).name? = some n) (usual : L.Usual)
    (set : ∀ n, L.role = .set ∨ (make n).isTestCase = false) :
    Does (emitNamed make name) (a.setBody b) fun _ =>
      Follows known legal c₀ N₀ a b.captures (L.setTemps (List.replicate gives .value ++ ρ)) := by
  unfold emitNamed
  refine does_bind (does_nameConstant fun index constants grows found => ?_)
  refine follows_emit (h.constants grows) temps (effect index) length values (target index)
    (fits_open (simple index) fun n hn => ?_) usual (set index)
  rw [named index] at hn
  cases hn
  exact name_isSome found

theorem does_checkImpure {target : String} {Q : Unit → Assembler → Prop}
    (h : Q () (a.setBody b)) : Does (checkImpure target) (a.setBody b) Q := by
  unfold checkImpure
  refine does_bind (does_getBody ?_)
  dsimp only
  split
  · exact does_throw
  · exact does_pure h

/-- A constant that is a number or a text. -/
theorem follows_pushConstant {value : Constant} (plain : (∃ x, value = .number x) ∨ ∃ s, value = .string s)
    (h : Core known legal c₀ N₀ L b N [] ws (L.point N.vars)) (usual : L.Usual) :
    Does (do emit (.pushConstant (← constant value))) (a.setBody b) fun _ =>
      Follows known legal c₀ N₀ a b.captures (L.setTemps (.value :: L.temps)) := by
  refine does_bind (does_constant fun index constants v grows found same => ?_)
  refine follows_emit (i := .pushConstant index) (h.constants grows) (τ := []) rfl rfl rfl
    (by simp) rfl ?_ usual (.inr rfl)
  have : (∃ x, v = .number x) ∨ ∃ s, v = .string s := by
    rcases same with rfl | shares
    · exact plain
    · unfold Chunk.shares at shares
      split at shares
      · exact .inl ⟨_, rfl⟩
      · exact .inr ⟨_, rfl⟩
      · cases shares
  constructor
  case constant =>
    rintro n ⟨⟩
    change (∃ x, constants[index.toNat]? = _) ∨ ∃ s, constants[index.toNat]? = _
    rw [found]
    rcases this with ⟨x, rfl⟩ | ⟨s, rfl⟩
    · exact .inl ⟨x, rfl⟩
    · exact .inr ⟨s, rfl⟩
  all_goals simp [Instruction.name?]

theorem follows_number {n : Number} (h : Core known legal c₀ N₀ L b N [] ws (L.point N.vars)) (usual : L.Usual) :
    Does (number n) (a.setBody b) fun _ =>
      Follows known legal c₀ N₀ a b.captures (L.setTemps (.value :: L.temps)) := by
  unfold number
  have constant := follows_pushConstant (a := a) (.inl ⟨n, rfl⟩) h usual
  split
  · split
    · exact follows_emit (i := .pushByte _) h (τ := []) rfl rfl rfl (by simp) rfl
        (fits_open rfl nofun) usual (.inr rfl)
    · exact constant
  · exact constant

theorem name?_plain (hi : i.isPlain) : i.name? = none := by
  cases i <;> first | rfl | cases hi

theorem slot?_plain (hi : i.isPlain) : i.slot? = none := by
  cases i <;> first | rfl | cases hi

theorem follows_plain {hi : i.isPlain = true} {takes gives : Nat} {τ ρ : List Held}
    (h : Core known legal c₀ N₀ L b N [] ws (L.point N.vars)) (temps : L.temps = τ ++ ρ)
    (effect : i.effect = some (takes, gives)) (length : τ.length = takes)
    (values : ∀ e ∈ τ, e.isValue) (usual : L.Usual)
    (ret : ∀ n h, Directive.plain i hi = .plain (.ret n) h → 1 ≤ n.toNat ∧ L.region = .none)
    (yield : ∀ h, Directive.plain i hi = .plain .yield h → L.region = .none) :
    Does (perform (.plain i hi)) (a.setBody b) fun _ =>
      Follows known legal c₀ N₀ a b.captures (L.setTemps (List.replicate gives .value ++ ρ)) := by
  have fits : Fits legal b.chunk b.captures.size (L.point N.vars) i := by
    constructor
    case name => exact fun n hn => absurd hn (by rw [name?_plain hi]; nofun)
    case constant => rintro n rfl; cases hi
    case slot => exact fun n hn => absurd hn (by rw [slot?_plain hi]; nofun)
    case upvalue => rintro n (rfl | rfl | rfl) <;> cases hi
    case results => rintro n rfl; exact ret n hi rfl
    case calm => rintro rfl; exact yield hi rfl
  refine follows_emit h temps effect length values ?_ fits usual (.inr ?_)
  · cases i <;> first | rfl | cases hi
  · cases i <;> first | rfl | cases hi

/-- A store that drops the value again. -/
theorem follows_storeField {name : String} {x y : Held} {rest : List Held}
    (h : Core known legal c₀ N₀ L b N [] ws (L.point N.vars)) (temps : L.temps = x :: y :: rest)
    (hx : x.isValue) (hy : y.isValue) (usual : L.Usual) :
    Does (perform (.storeField name)) (a.setBody b) fun _ =>
      Follows known legal c₀ N₀ a b.captures (L.setTemps rest) := by
  refine does_bind (does_mono (follows_emitNamed _ _ h (τ := [x, y]) temps (fun _ => rfl) rfl
    (by simp [hx, hy]) (fun _ => rfl) (fun _ => rfl) (fun _ => rfl) usual fun _ => .inr rfl) ?_)
  rintro _ _ ⟨b', N', ws', rfl, captures, h'⟩
  rw [← captures]
  refine follows_emit (i := .pop) h' (τ := [.value]) rfl rfl rfl (by simp [Held.isValue]) rfl
    (fits_open rfl nofun) (usual.setTemps fun e he => ?_) (.inr rfl)
  rcases List.mem_cons.mp he with rfl | he
  · rfl
  · exact usual.temps e (temps ▸ .tail _ (.tail _ he))

/-- The variable in slot zero. -/
theorem Frames.slotZero (h : Frames L b N ws) :
    ∃ us id, N.vars = us ++ [(L.kind.slotName, id)] := by
  obtain ⟨vs, bottom⟩ := h.bottom
  obtain ⟨us, ls, vars, hus, hls⟩ := List.map_eq_append_iff.mp (h.names.trans bottom)
  obtain ⟨⟨name, id⟩, rfl, rfl⟩ := List.map_eq_singleton_iff.mp hls
  exact ⟨us, id, vars⟩

/-- Slot zero of a function whose receiver it is. -/
theorem fits_receiver (h : Frames L b N ws) (receiver : L.kind.hasReceiver)
    (this : legal 0 "this") (temps : List Held) (r : Region) :
    Fits legal b.chunk b.captures.size ⟨temps ++ bounds N.vars, r⟩ (.getLocal 0) := by
  obtain ⟨us, id, vars⟩ := h.slotZero
  constructor
  case slot =>
    intro n hn
    obtain rfl : n = 0 := by simpa [eq_comm] using hn
    refine ⟨"this", id, ?_, this⟩
    simp [Point.at?, Held.at?, bounds, vars, FunctionKind.slotName, receiver]
  all_goals simp [Instruction.name?]

theorem follows_receiver (h : Core known legal c₀ N₀ L b N [] ws (L.point N.vars))
    (usual : L.Usual) (receiver : L.kind.hasReceiver) (this : legal 0 "this") :
    Does (emit (.getLocal 0)) (a.setBody b) fun _ =>
      Follows known legal c₀ N₀ a b.captures (L.setTemps (.value :: L.temps)) :=
  follows_emit (i := .getLocal 0) h (τ := []) rfl rfl rfl (by simp) rfl
    (fits_receiver h.frames receiver this _ _) usual (.inr rfl)

end Follows

end ScriptEngine
