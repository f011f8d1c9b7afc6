import ScriptEngine.Assembler.Execute
import Mathlib.Tactic.SplitIfs

/-!
# Lines are erased

The mark of a directive goes into the line table of a chunk, into the place of an error and
into the text of a note. Nothing else is taken from it, so directives that differ in their
marks assemble to the same chunks without their lines.
-/
namespace ScriptEngine

/-- A directive without the line that it may name. -/
def Directive.unplaced : Directive → Directive
  | .unreachable keyword _ => .unreachable keyword 0
  | d => d

/-- A chunk without its lines. -/
def Chunk.unlined (c : Chunk) : Chunk := { c with lines := #[] }

namespace Assembler

def Body.unlined (b : Body) : Body := { b with chunk := b.chunk.unlined }

end Assembler

open Assembler

/-- An assembly without the lines of its chunks, its mark and its notes. -/
def Assembler.unlined (a : Assembler) : Assembler :=
  { a with
    mark := default
    body := a.body.unlined
    outer := a.outer.map Body.unlined
    aside := a.aside.map Body.unlined
    chunks := a.chunks.map Chunk.unlined
    diagnostics := #[] }

namespace Assembler

/-- What an assembly comes to, without lines. -/
def unlinedOutcome {α : Type} : EStateM.Result CompileFault Assembler α → EStateM.Result CompileFault Assembler α
  | .ok r a => .ok r a.unlined
  | .error e a => .error e a.unlined

/-- From assemblies that differ in lines only, both come to the same. -/
def Same {α : Type} (x y : Assembly α) : Prop := ∀ a b, a.unlined = b.unlined → unlinedOutcome (x a) = unlinedOutcome (y b)

section Rules
variable {α β : Type} {x y : Assembly α}

theorem same_pure (r : α) : Same (pure r) (pure r) := fun _ _ same => congrArg (EStateM.Result.ok r) same

theorem same_throw (e : CompileFault) : Same (throw e : Assembly α) (throw e) :=
  fun _ _ same => congrArg (EStateM.Result.error e) same

theorem Same.bind {f g : α → Assembly β} (h : Same x y) (h' : ∀ r, Same (f r) (g r)) : Same (x >>= f) (y >>= g) := by
  intro a b same
  have first := h a b same
  change unlinedOutcome (EStateM.bind x f a) = unlinedOutcome (EStateM.bind y g b)
  unfold EStateM.bind
  cases run : x a with
  | ok r a' =>
    rw [run] at first
    cases run' : y b with
    | ok s b' =>
      rw [run'] at first
      obtain ⟨rfl, same'⟩ := EStateM.Result.ok.inj first
      exact h' r a' b' same'
    | error e b' =>
      rw [run'] at first
      cases first
  | error e a' =>
    rw [run] at first
    cases run' : y b with
    | ok s b' =>
      rw [run'] at first
      cases first
    | error e' b' =>
      rw [run'] at first
      obtain ⟨rfl, same'⟩ := EStateM.Result.error.inj first
      exact congrArg (EStateM.Result.error e) same'

/-- What is read of the assembly. -/
theorem same_get {f g : Assembler → Assembly β} (h : ∀ a b, a.unlined = b.unlined → Same (f a) (g b)) :
    Same (get >>= f) (get >>= g) := fun a b same => h a b same a b same

theorem same_getBody {f g : Body → Assembly β} (h : ∀ b b', b.unlined = b'.unlined → Same (f b) (g b')) :
    Same (getBody >>= f) (getBody >>= g) :=
  fun a b same => h a.body b.body (congrArg Assembler.body same) a b same

/-- A part of the function that has no lines in it. -/
theorem same_read {f : Body → Assembly β} (blind : ∀ b, f b.unlined = f b) (h : ∀ b, Same (f b) (f b)) :
    Same (getBody >>= f) (getBody >>= f) :=
  same_getBody fun b b' same => by rw [← blind b', ← same, blind b]; exact h b

theorem same_modify {F G : Assembler → Assembler} (h : ∀ a b, a.unlined = b.unlined → (F a).unlined = (G b).unlined) :
    Same (modify F) (modify G) := fun a b same => congrArg (EStateM.Result.ok ()) (h a b same)

theorem same_set {a b : Assembler} (same : a.unlined = b.unlined) : Same (set a) (set b) :=
  fun _ _ _ => congrArg (EStateM.Result.ok _) same

theorem unlined_withBody {a b : Assembler} {p q : Body} (same : a.unlined = b.unlined) (body : p.unlined = q.unlined) :
    ({ a with body := p } : Assembler).unlined = ({ b with body := q } : Assembler).unlined :=
  calc ({ a with body := p } : Assembler).unlined = { a.unlined with body := p.unlined } := rfl
    _ = { b.unlined with body := q.unlined } := by rw [same, body]

theorem unlined_withBodies {a b : Assembler} {p q : Body} {ps qs : List Body} (same : a.unlined = b.unlined)
    (body : p.unlined = q.unlined) (outer : ps.map Body.unlined = qs.map Body.unlined) :
    ({ a with body := p, outer := ps } : Assembler).unlined = ({ b with body := q, outer := qs } : Assembler).unlined :=
  calc ({ a with body := p, outer := ps } : Assembler).unlined =
      { a.unlined with body := p.unlined, outer := ps.map Body.unlined } := rfl
    _ = { b.unlined with body := q.unlined, outer := qs.map Body.unlined } := by rw [same, body, outer]

theorem unlined_withChunk {a b : Assembler} {c d : Chunk} (same : a.unlined = b.unlined) (chunk : c.unlined = d.unlined) :
    ({ a with chunks := a.chunks.push c } : Assembler).unlined = ({ b with chunks := b.chunks.push d } : Assembler).unlined := by
  have chunks : a.chunks.map Chunk.unlined = b.chunks.map Chunk.unlined := congrArg Assembler.chunks same
  have pushed : (a.chunks.push c).map Chunk.unlined = (b.chunks.push d).map Chunk.unlined := by
    rw [Array.map_push, Array.map_push, chunks, chunk]
  calc ({ a with chunks := a.chunks.push c } : Assembler).unlined
      = { a.unlined with chunks := (a.chunks.push c).map Chunk.unlined } := rfl
    _ = { b.unlined with chunks := (b.chunks.push d).map Chunk.unlined } := by rw [same, pushed]

theorem unlined_withTypes {a b : Assembler} (same : a.unlined = b.unlined) (types : List TypeScope) :
    ({ a with types } : Assembler).unlined = ({ b with types } : Assembler).unlined :=
  congrArg (fun a : Assembler => { a with types }) same

theorem same_modifyBody {F : Body → Body} (blind : ∀ b, (F b.unlined).unlined = (F b).unlined) :
    Same (modifyBody F) (modifyBody F) := by
  refine same_modify fun a b same => unlined_withBody same ?_
  have body : a.body.unlined = b.body.unlined := congrArg Assembler.body same
  rw [← blind a.body, body, blind]

theorem same_modifyChunk {F : Chunk → Chunk} (blind : ∀ c, (F c.unlined).unlined = (F c).unlined) :
    Same (modifyChunk F) (modifyChunk F) :=
  same_modifyBody fun b => congrArg (fun chunk => { b with chunk }) (blind b.chunk)

theorem same_emit (i : Instruction) : Same (emit i) (emit i) := by
  refine same_modify fun a b same => unlined_withBody same ?_
  have emitted := congrArg (fun a : Assembler => (a.body.emit i 0).unlined) same
  exact emitted

theorem same_forM {xs : List α} {f : α → Assembly Unit} (h : ∀ x, Same (f x) (f x)) : Same (xs.forM f) (xs.forM f) := by
  induction xs with
  | nil => exact same_pure ()
  | cons x xs ih => exact (h x).bind fun _ => ih

theorem same_mapM {xs : List α} {f : α → Assembly β} (h : ∀ x, Same (f x) (f x)) : Same (xs.mapM f) (xs.mapM f) := by
  induction xs with
  | nil => exact same_pure []
  | cons x xs ih =>
    rw [List.mapM_cons]
    exact (h x).bind fun r => ih.bind fun rs => same_pure _

end Rules

/-! ## Constants, labels and scopes -/

/-- The chunk of the current function, but for its lines. -/
theorem same_chunk {β : Type} {f : Chunk → Assembly β} (blind : ∀ c, f c.unlined = f c) (h : ∀ c, Same (f c) (f c)) :
    Same (get >>= fun a => f a.body.chunk) (get >>= fun a => f a.body.chunk) :=
  same_read (fun b => blind b.chunk) fun b => h b.chunk

/-- The chunk of the current function with a new index in it, or a failure if there is none. -/
def indexed (index? : Chunk → Option UInt16) (use : UInt16 → Chunk → Chunk) (e : CompileFault) (c : Chunk) :
    Assembly UInt16 :=
  match index? c with
  | some index => do
    modifyChunk (use index)
    return index
  | none => throw e

theorem same_indexed (index? : Chunk → Option UInt16) (use : UInt16 → Chunk → Chunk) {e : CompileFault}
    (blind : ∀ c, index? c.unlined = index? c)
    (uses : ∀ index c, (use index c.unlined).unlined = (use index c).unlined) :
    Same (get >>= fun a => indexed index? use e a.body.chunk) (get >>= fun a => indexed index? use e a.body.chunk) := by
  refine same_chunk (fun c => by unfold indexed; rw [blind]) fun c => ?_
  unfold indexed
  split
  · exact (same_modifyChunk (uses _)).bind fun _ => same_pure _
  · exact same_throw _

theorem same_constant (value : Constant) : Same (constant value) (constant value) := by
  refine same_indexed (·.constantIndex? value) (fun index c => c.putConstant index value) (fun _ => rfl)
    fun index c => ?_
  change (if index.toNat = c.constants.size then _ else c.unlined).unlined =
    (if index.toNat = c.constants.size then _ else c).unlined
  split <;> rfl

theorem same_nameConstant (name : String) : Same (nameConstant name) (nameConstant name) := same_constant _

theorem same_newLabel (name : String) : Same (newLabel name) (newLabel name) :=
  same_indexed (·.nextLabel?) (fun _ c => c.addLabel name) (fun _ => rfl) fun _ _ => rfl

theorem same_placeLabel (label : UInt16) : Same (placeLabel label) (placeLabel label) := same_modifyChunk fun _ => rfl

theorem same_number (n : Number) : Same (number n) (number n) := by
  have constant : Same (do emit (.pushConstant (← constant (.number n)))) (do emit (.pushConstant (← constant (.number n)))) :=
    (same_constant _).bind fun _ => same_emit _
  unfold number
  split
  · split
    · exact same_emit _
    · exact constant
  · exact constant

theorem same_beginScope : Same beginScope beginScope := same_modifyBody fun _ => rfl

theorem same_emitDrops (depth : Nat) : Same (emitDrops depth) (emitDrops depth) :=
  same_read (fun _ => rfl) fun _ => same_forM fun _ => same_emit _

theorem same_endScope : Same endScope endScope := by
  refine (same_modifyBody fun _ => rfl).bind fun _ => same_read (fun _ => rfl) fun b => ?_
  exact (same_emitDrops _).bind fun _ => same_modifyBody fun _ => rfl

theorem same_pushLocal (name : String) : Same (pushLocal name) (pushLocal name) := by
  refine same_read (fun _ => rfl) fun b => ?_
  split
  · exact (same_throw _).bind fun _ => same_modifyBody fun _ => rfl
  · exact same_modifyBody fun _ => rfl

theorem same_declareLocal (name : String) : Same (declareLocal name) (declareLocal name) := by
  refine same_read (fun _ => rfl) fun b => ?_
  dsimp only
  split
  · exact same_pure ()
  split
  · exact (same_throw _).bind fun _ => same_pushLocal name
  · exact same_pushLocal name

theorem same_complete : Same complete complete := by
  refine same_modifyBody fun b => ?_
  obtain ⟨chunk, locals, captures, depth, control⟩ := b
  change (if depth = 0 then _ else _ : Body).unlined = (if depth = 0 then _ else _ : Body).unlined
  split
  · rfl
  · cases locals <;> rfl

theorem same_declare (name : String) : Same (declare name) (declare name) := by
  refine same_read (fun _ => rfl) fun b => ?_
  split
  · exact same_declareLocal name
  · exact (same_nameConstant name).bind fun _ => same_pure ()

theorem same_define (name : String) : Same (define name) (define name) := by
  refine same_read (fun _ => rfl) fun b => ?_
  split
  · exact same_complete
  · exact (same_nameConstant name).bind fun _ => same_emit _

/-! ## Variables -/

theorem slotOf_locals (name : String) (b : Body) : slotOf name b.unlined.locals = slotOf name b.locals := rfl

theorem addCapture_unlined (b : Body) (c : Capture) :
    addCapture b.unlined c = (addCapture b c).map fun r => (r.1, r.2.unlined) := by
  unfold addCapture Body.unlined Chunk.unlined
  dsimp only
  cases b.captures.findIdx? (· == c) with
  | some i => rfl
  | none =>
    dsimp only
    split_ifs <;> rfl

theorem captureFrom_unlined (name : String) (b : Body) (outer : List Body) :
    captureFrom name b.unlined (outer.map Body.unlined) =
      (captureFrom name b outer).map (Option.map fun r => (r.1, r.2.1.unlined, r.2.2.map Body.unlined)) := by
  induction outer generalizing b with
  | nil => rfl
  | cons enclosing rest ih =>
    rw [List.map_cons, captureFrom, captureFrom, slotOf_locals]
    rcases slotOf name enclosing.locals with e | _ | slot
    · rfl
    · change (captureFrom name enclosing.unlined (rest.map Body.unlined) >>= _) =
        Except.map _ (captureFrom name enclosing rest >>= _)
      rw [ih]
      rcases captureFrom name enclosing rest with e | _ | ⟨j, enclosing', rest'⟩
      · rfl
      · rfl
      · change (addCapture b.unlined ⟨false, j⟩ >>= _) = Except.map _ (addCapture b ⟨false, j⟩ >>= _)
        rw [addCapture_unlined]
        cases addCapture b ⟨false, j⟩ <;> rfl
    · change (addCapture b.unlined ⟨true, slot⟩ >>= _) = Except.map _ (addCapture b ⟨true, slot⟩ >>= _)
      rw [addCapture_unlined]
      cases addCapture b ⟨true, slot⟩ <;> rfl

theorem same_lift {α : Type} (r : Except CompileFault α) : Same (lift r) (lift r) := by
  cases r with
  | ok a => exact same_pure a
  | error e => exact same_throw e

theorem same_findPlace (name : String) : Same (findPlace name) (findPlace name) := by
  refine same_get fun a b same => ?_
  have body : a.body.unlined = b.body.unlined := congrArg Assembler.body same
  have outer : a.outer.map Body.unlined = b.outer.map Body.unlined := congrArg Assembler.outer same
  rw [← slotOf_locals, body, slotOf_locals]
  refine (same_lift _).bind fun found => ?_
  cases found with
  | some slot => exact same_pure _
  | none =>
    have captured := captureFrom_unlined name a.body a.outer
    rw [body, outer, captureFrom_unlined] at captured
    generalize captureFrom name a.body a.outer = r at captured ⊢
    generalize captureFrom name b.body b.outer = r' at captured ⊢
    rcases r with e | _ | ⟨i, p, ps⟩ <;> rcases r' with e' | _ | ⟨j, q, qs⟩ <;> try cases captured
    · exact same_throw e
    · exact same_pure none
    · obtain ⟨rfl, parts⟩ := Prod.mk.inj (Option.some.inj (Except.ok.inj captured))
      obtain ⟨here, others⟩ := Prod.mk.inj parts
      exact (same_set (unlined_withBodies same here.symm others.symm)).bind fun _ => same_pure _

theorem same_place (name : String) : Same (place name) (place name) := by
  refine (same_findPlace name).bind fun found => ?_
  cases found with
  | some p => exact same_pure p
  | none => exact (same_nameConstant name).bind fun _ => same_pure _

theorem same_load (name : String) : Same (load name) (load name) := (same_place name).bind fun _ => same_emit _

theorem same_checkStore (name : String) : Same (checkStore name) (checkStore name) := by
  refine (same_place name).bind fun p => same_read (fun _ => rfl) fun b => ?_
  cases p with
  | global n =>
    dsimp only
    split
    · exact (same_throw _).bind fun _ => same_pure _
    · exact same_pure _
  | slot | capture => exact same_pure _

theorem same_store (name : String) : Same (store name) (store name) := (same_checkStore name).bind fun _ => same_emit _

theorem same_checkImpure (target : String) : Same (checkImpure target) (checkImpure target) := by
  refine same_read (fun _ => rfl) fun b => ?_
  dsimp only
  split
  · exact same_throw _
  · exact same_pure ()

theorem same_loadThis : Same loadThis loadThis := by
  refine (same_findPlace _).bind fun found => ?_
  cases found with
  | some p => exact same_emit _
  | none => exact same_throw _

/-! ## Functions -/

theorem same_popBody {β : Type} {f : Body → Assembly β} (h : ∀ b b', b.unlined = b'.unlined → Same (f b) (f b')) :
    Same (popBody >>= f) (popBody >>= f) := by
  unfold popBody
  rw [bind_assoc]
  refine same_get fun a b same => ?_
  have body : a.body.unlined = b.body.unlined := congrArg Assembler.body same
  have outer : a.outer.map Body.unlined = b.outer.map Body.unlined := congrArg Assembler.outer same
  rcases ha : a.outer with _ | ⟨p, ps⟩ <;> rcases hb : b.outer with _ | ⟨q, qs⟩ <;> rw [ha, hb] at outer <;> try cases outer
  · exact same_throw _
  · obtain ⟨first, rest⟩ := List.cons.inj outer
    exact (same_set (unlined_withBodies same first rest)).bind fun _ => h _ _ body

theorem chainName_unlined (a : Assembler) (name : String) : chainName a.unlined name = chainName a name := by
  unfold chainName level unlined
  dsimp only
  rw [List.length_map]
  rfl

theorem level_eq {a b : Assembler} (same : a.unlined = b.unlined) : a.level = b.level := by
  have outer := congrArg (fun a : Assembler => a.outer.length) same
  simpa [Assembler.level, unlined] using outer

theorem same_beginFunction (kind : FunctionKind) (name : String) (modifiers : Modifiers) :
    Same (beginFunction kind name modifiers) (beginFunction kind name modifiers) := by
  refine same_get fun a b same => ?_
  have chain : chainName a name = chainName b name := by rw [← chainName_unlined, same, chainName_unlined]
  have script : a.scriptName = b.scriptName := (congrArg Assembler.scriptName same :)
  have body : a.body.unlined = b.body.unlined := congrArg Assembler.body same
  have outer : a.outer.map Body.unlined = b.outer.map Body.unlined := congrArg Assembler.outer same
  rw [level_eq same, chain]
  dsimp only
  have began : Same (set { a with
      body := { chunk := { name, source := a.scriptName, chain := chainName b name, kind, modifiers },
                locals := [⟨if kind.hasReceiver then "this" else "", some 1, false⟩], depth := 1 }
      outer := a.body :: a.outer }) (set { b with
      body := { chunk := { name, source := b.scriptName, chain := chainName b name, kind, modifiers },
                locals := [⟨if kind.hasReceiver then "this" else "", some 1, false⟩], depth := 1 }
      outer := b.body :: b.outer }) :=
    same_set (unlined_withBodies same (by rw [script]) (by rw [List.map_cons, List.map_cons, body, outer]))
  split
  · exact fun _ _ s => congrArg (EStateM.Result.error _) s
  · exact began

theorem same_parameter (name : String) : Same (parameter name) (parameter name) := by
  refine (same_declareLocal name).bind fun _ => same_complete.bind fun _ => ?_
  exact (same_nameConstant name).bind fun _ => same_modifyChunk fun _ => rfl

theorem same_resultName (name : String) : Same (resultName name) (resultName name) := by
  refine (same_emit _).bind fun _ => (same_declareLocal name).bind fun _ => same_complete.bind fun _ => ?_
  exact (same_nameConstant name).bind fun _ => same_modifyChunk fun _ => rfl

theorem same_storeMatching (fields : List String) : Same (storeMatching fields) (storeMatching fields) := by
  refine same_read (fun _ => rfl) fun b => same_forM fun ⟨index, i⟩ => ?_
  dsimp only
  split
  · split
    · exact (same_emit _).bind fun _ => (same_emit _).bind fun _ => (same_emit _).bind fun _ => same_emit _
    · exact same_pure ()
  · exact same_pure ()

theorem same_implicitReturn : Same implicitReturn implicitReturn := by
  refine same_read (fun _ => rfl) fun b => ?_
  dsimp only
  split
  · exact (same_emit _).bind fun _ => same_emit _
  split
  · exact (same_emit _).bind fun _ => same_emit _
  · exact (same_forM fun _ => same_emit _).bind fun _ => same_emit _

theorem same_endFunction : Same endFunction endFunction := by
  refine same_implicitReturn.bind fun _ => same_popBody fun b b' same => ?_
  have control : b.control = b'.control := (congrArg Body.control same :)
  have captures : b.captures = b'.captures := (congrArg Body.captures same :)
  have chunk : b.chunk.unlined = b'.chunk.unlined := congrArg Body.chunk same
  rw [control, captures]
  dsimp only
  have listed : Same (do
      let index := (← get).chunks.size
      modify fun a => { a with chunks := a.chunks.push { b.chunk with captureCount := UInt8.ofNat b'.captures.size } }
      emit (.closure (← constant (.chunk (.listed index))))
      b'.captures.toList.forM fun c => emit (.capture c)) (do
      let index := (← get).chunks.size
      modify fun a => { a with chunks := a.chunks.push { b'.chunk with captureCount := UInt8.ofNat b'.captures.size } }
      emit (.closure (← constant (.chunk (.listed index))))
      b'.captures.toList.forM fun c => emit (.capture c)) := by
    refine same_get fun x y same => ?_
    have size : x.chunks.size = y.chunks.size := by
      simpa [unlined] using congrArg (fun a : Assembler => a.chunks.size) same
    rw [size]
    have counted := congrArg (fun c : Chunk => { c with captureCount := UInt8.ofNat b'.captures.size }) chunk
    refine (same_modify fun u v same => unlined_withChunk same counted).bind fun _ => ?_
    refine (same_constant _).bind fun _ => (same_emit _).bind fun _ => ?_
    exact same_forM fun _ => same_emit _
  split
  · exact listed
  · exact (same_throw _).bind fun _ => listed

theorem same_stepOut : Same stepOut stepOut := by
  refine same_popBody fun b b' same => same_modify fun u v same' => ?_
  have aside : u.aside.map Body.unlined = v.aside.map Body.unlined := congrArg Assembler.aside same'
  calc ({ u with aside := b :: u.aside } : Assembler).unlined
      = { u.unlined with aside := b.unlined :: u.aside.map Body.unlined } := rfl
    _ = { v.unlined with aside := b'.unlined :: v.aside.map Body.unlined } := by rw [same', same, aside]

theorem same_stepIn : Same stepIn stepIn := by
  refine same_get fun a b same => ?_
  have aside : a.aside.map Body.unlined = b.aside.map Body.unlined := congrArg Assembler.aside same
  rcases ha : a.aside with _ | ⟨p, ps⟩ <;> rcases hb : b.aside with _ | ⟨q, qs⟩ <;> rw [ha, hb] at aside <;> try cases aside
  · exact same_throw _
  · obtain ⟨first, rest⟩ := List.cons.inj aside
    have body : a.body.unlined = b.body.unlined := congrArg Assembler.body same
    have outer : a.outer.map Body.unlined = b.outer.map Body.unlined := congrArg Assembler.outer same
    refine same_set ?_
    calc ({ a with body := p, outer := a.body :: a.outer, aside := ps } : Assembler).unlined
        = { a.unlined with body := p.unlined, outer := a.body.unlined :: a.outer.map Body.unlined,
                           aside := ps.map Body.unlined } := rfl
      _ = { b.unlined with body := q.unlined, outer := b.body.unlined :: b.outer.map Body.unlined,
                           aside := qs.map Body.unlined } := by rw [same, first, rest, body, outer]

/-! ## Types and tests -/

theorem types_eq {a b : Assembler} (same : a.unlined = b.unlined) : a.types = b.types :=
  (congrArg Assembler.types same :)

theorem same_testSets (F : List Nat → Nat → List Nat) :
    Same (modify fun a => { a with testSets := F a.testSets a.level }) (modify fun a => { a with testSets := F a.testSets a.level }) := by
  refine same_modify fun a b same => ?_
  have sets : a.testSets = b.testSets := (congrArg Assembler.testSets same :)
  calc ({ a with testSets := F a.testSets a.level } : Assembler).unlined
      = { a.unlined with testSets := F a.testSets a.level } := rfl
    _ = { b.unlined with testSets := F b.testSets b.level } := by rw [same, sets, level_eq same]

theorem same_beginType (kind : TypeKind) (name : String) : Same (beginType kind name) (beginType kind name) := by
  refine (same_nameConstant name).bind fun _ => (same_declare name).bind fun _ => (same_emit _).bind fun _ => ?_
  refine (same_define name).bind fun _ => same_modify fun a b same => ?_
  rw [types_eq same, level_eq same]
  exact unlined_withTypes same _

theorem same_inheritFrom (parent name : String) : Same (inheritFrom parent name) (inheritFrom parent name) := by
  refine (same_load parent).bind fun _ => same_beginScope.bind fun _ => (same_pushLocal _).bind fun _ => ?_
  refine same_complete.bind fun _ => (same_load name).bind fun _ => (same_emit _).bind fun _ => ?_
  refine same_modify fun a b same => ?_
  rw [types_eq same]
  split
  · exact unlined_withTypes same _
  · exact same

theorem same_checkSuper : Same checkSuper checkSuper := by
  refine same_get fun a b same => ?_
  rw [types_eq same]
  split
  · exact same_throw _
  · split
    · exact same_pure ()
    · exact same_throw _

theorem same_endInitChain (fields : List String) : Same (endInitChain fields) (endInitChain fields) := by
  refine same_endFunction.bind fun _ => (same_emit _).bind fun _ => same_forM fun f => ?_
  exact (same_nameConstant f).bind fun _ => same_emit _

theorem same_endType : Same endType endType := by
  refine (same_emit _).bind fun _ => (same_emit _).bind fun _ => same_get fun a b same => ?_
  rw [types_eq same]
  split
  · rename_i t rest _
    have close : Same (modify fun a => { a with types := rest }) (modify fun a => { a with types := rest }) :=
      same_modify fun a b same => unlined_withTypes same rest
    dsimp only
    split
    · exact same_endScope.bind fun _ => close
    · exact close
  · exact same_throw _

theorem same_beginTest (name : String) : Same (beginTest name) (beginTest name) := by
  refine (same_nameConstant name).bind fun _ => (same_beginFunction _ _ _).bind fun _ => ?_
  exact same_testSets fun sets level => level :: sets

theorem same_endTest (name : String) : Same (endTest name) (endTest name) := by
  refine (same_testSets fun sets _ => sets.tail).bind fun _ => same_endFunction.bind fun _ => ?_
  exact (same_nameConstant name).bind fun _ => same_emit _

theorem same_caseCheck : Same caseCheck caseCheck := by
  refine same_get fun a b same => ?_
  have sets : a.testSets = b.testSets := (congrArg Assembler.testSets same :)
  rw [sets, level_eq same]
  split
  · exact same_pure ()
  · exact same_throw _

/-! ## Control structures -/

theorem same_pushControl (c : Control) : Same (pushControl c) (pushControl c) := same_modifyBody fun _ => rfl

theorem same_popControl : Same popControl popControl := by
  refine same_read (fun _ => rfl) fun b => ?_
  split
  · exact (same_modifyBody fun _ => rfl).bind fun _ => same_pure _
  · exact same_throw _

theorem same_popJoin : Same popJoin popJoin := by
  refine same_popControl.bind fun c => ?_
  cases c with
  | join label => exact same_pure label
  | branch | loop => exact same_throw _

theorem same_popLoop : Same popLoop popLoop := by
  refine same_popControl.bind fun c => ?_
  cases c with
  | loop l => exact same_pure l
  | branch | join => exact same_throw _

theorem same_andThen : Same andThen andThen := by
  refine (same_newLabel _).bind fun finish => (same_emit _).bind fun _ => (same_emit _).bind fun _ => ?_
  exact same_pushControl _

theorem same_orElse : Same orElse orElse := by
  refine (same_newLabel _).bind fun right => (same_newLabel _).bind fun finish => (same_emit _).bind fun _ => ?_
  refine (same_emit _).bind fun _ => (same_placeLabel _).bind fun _ => (same_emit _).bind fun _ => ?_
  exact same_pushControl _

theorem same_endJoin : Same endJoin endJoin := same_popJoin.bind fun label => same_placeLabel label

theorem same_branch : Same branch branch := by
  refine (same_newLabel _).bind fun otherwise => (same_newLabel _).bind fun finish => (same_emit _).bind fun _ => ?_
  exact (same_emit _).bind fun _ => same_pushControl _

theorem same_branchElse : Same branchElse branchElse := by
  refine same_popControl.bind fun c => ?_
  cases c with
  | branch otherwise finish =>
    refine (same_emit _).bind fun _ => (same_placeLabel _).bind fun _ => (same_emit _).bind fun _ => ?_
    exact same_pushControl _
  | join | loop => exact same_throw _

theorem same_whileStart : Same whileStart whileStart := by
  refine (same_newLabel _).bind fun start => (same_newLabel _).bind fun fail => (same_newLabel _).bind fun exit => ?_
  exact (same_placeLabel _).bind fun _ => same_read (fun _ => rfl) fun b => same_pushControl _

theorem same_whileBody : Same whileBody whileBody := by
  refine same_popLoop.bind fun l => ?_
  split
  · exact (same_emit _).bind fun _ => (same_emit _).bind fun _ => same_pushControl _
  · exact same_throw _

theorem same_placeFail (l : Loop) : Same (placeFail l) (placeFail l) := by
  unfold placeFail
  split
  · exact (same_placeLabel _).bind fun _ => same_emit _
  · exact same_pure ()

theorem same_endLoop : Same endLoop endLoop := by
  refine same_popLoop.bind fun l => (same_emit _).bind fun _ => (same_placeFail l).bind fun _ => ?_
  exact same_placeLabel _

theorem same_forStart : Same forStart forStart := by
  refine (same_newLabel _).bind fun start => (same_newLabel _).bind fun body => (same_newLabel _).bind fun exit => ?_
  exact (same_placeLabel _).bind fun _ => same_read (fun _ => rfl) fun b => same_pushControl _

theorem same_forCondition : Same forCondition forCondition := by
  refine same_popLoop.bind fun l => (same_newLabel _).bind fun fail => (same_emit _).bind fun _ => ?_
  exact (same_emit _).bind fun _ => same_pushControl _

theorem same_forStep : Same forStep forStep := by
  refine same_popLoop.bind fun l => ?_
  split
  · refine (same_emit _).bind fun _ => (same_newLabel _).bind fun step => (same_placeLabel _).bind fun _ => ?_
    exact same_pushControl _
  · exact same_throw _

theorem same_forStepEnd : Same forStepEnd forStepEnd := by
  refine same_popLoop.bind fun l => (same_emit _).bind fun _ => (same_emit _).bind fun _ => ?_
  exact same_pushControl _

theorem same_forBody : Same forBody forBody := by
  refine same_popLoop.bind fun l => ?_
  split
  · exact (same_placeLabel _).bind fun _ => same_pushControl _
  · exact same_throw _

theorem same_loopStart : Same loopStart loopStart := by
  refine (same_newLabel _).bind fun start => (same_newLabel _).bind fun exit => (same_placeLabel _).bind fun _ => ?_
  exact same_read (fun _ => rfl) fun b => same_pushControl _

theorem same_loopEnd : Same loopEnd loopEnd := by
  refine same_popLoop.bind fun l => ?_
  have close : Same (do emit (.goto l.next); placeLabel l.exit) (do emit (.goto l.next); placeLabel l.exit) :=
    (same_emit _).bind fun _ => same_placeLabel _
  dsimp only
  split
  · exact close
  · exact (same_throw _).bind fun _ => close

theorem same_leaveLoops : Same leaveLoops leaveLoops := same_modifyBody fun _ => rfl

theorem same_currentLoop (keyword : String) : Same (currentLoop keyword) (currentLoop keyword) := by
  refine same_read (fun _ => rfl) fun b => ?_
  split
  · exact same_pure _
  · exact same_throw _

theorem same_breakLoop : Same breakLoop breakLoop := by
  refine (same_currentLoop _).bind fun l => (same_emitDrops _).bind fun _ => (same_emit _).bind fun _ => ?_
  exact same_modifyBody fun _ => rfl

theorem same_continueLoop : Same continueLoop continueLoop :=
  (same_currentLoop _).bind fun _ => (same_emitDrops _).bind fun _ => same_emit _

theorem same_returnCheck : Same returnCheck returnCheck := by
  refine same_read (fun _ => rfl) fun b => ?_
  dsimp only
  split
  · exact (same_throw _).bind fun _ => same_leaveLoops
  · exact same_leaveLoops

theorem same_returnValueCheck : Same returnValueCheck returnValueCheck := by
  refine same_read (fun _ => rfl) fun b => ?_
  split
  · exact same_throw _
  · exact same_pure ()

/-! ## Directives -/

theorem same_defineMany (names : List String) : Same (defineMany names) (defineMany names) := by
  refine same_read (fun _ => rfl) fun b => ?_
  split
  · exact same_forM fun name => (same_declareLocal name).bind fun _ => same_complete
  · exact (same_mapM same_nameConstant).bind fun indices => same_forM fun _ => same_emit _

theorem same_emitNamed (make : UInt16 → Instruction) (name : String) : Same (emitNamed make name) (emitNamed make name) :=
  (same_nameConstant name).bind fun _ => same_emit _

theorem same_note (keyword : String) (line line' : Nat) : Same (note keyword line) (note keyword line') :=
  same_modify fun _ _ same => same

theorem same_endScript : Same endScript endScript := by
  refine (same_emit _).bind fun _ => (same_emit _).bind fun _ => same_get fun a b same => ?_
  have body : a.body.unlined = b.body.unlined := congrArg Assembler.body same
  have outer : a.outer.isEmpty = b.outer.isEmpty := by
    simpa [unlined] using congrArg (fun a : Assembler => a.outer.isEmpty) same
  have control : a.body.control = b.body.control := (congrArg Body.control body :)
  have listed : Same (set { a with chunks := a.chunks.push a.body.chunk }) (set { b with chunks := b.chunks.push b.body.chunk }) :=
    same_set (unlined_withChunk same (congrArg Body.chunk body))
  rw [outer, control]
  dsimp only
  split
  · exact listed
  · exact fun _ _ same => congrArg (EStateM.Result.error _) same

theorem same_perform (d : Directive) : Same (perform d) (perform d) := by
  cases d with
  | plain => exact same_emit _
  | number n => exact same_number n
  | string s => exact (same_constant _).bind fun _ => same_emit _
  | reserve name => exact (same_nameConstant name).bind fun _ => same_pure ()
  | resolve name => exact (same_place name).bind fun _ => same_pure ()
  | checkStore name => exact (same_checkStore name).bind fun _ => same_pure ()
  | load name => exact same_load name
  | store name => exact same_store name
  | receiver => exact same_emit _
  | this => exact same_loadThis
  | checkSuper => exact same_checkSuper
  | getSuper | superInvoke | getProperty | invoke | inject | register | staticMember | method | enumValue =>
    exact same_emitNamed _ _
  | checkImpure target => exact same_checkImpure target
  | setProperty name => exact (same_checkImpure _).bind fun _ => same_emitNamed _ _
  | setIndex => exact (same_checkImpure _).bind fun _ => same_emit _
  | storeField name => exact (same_emitNamed _ _).bind fun _ => same_emit _
  | beginScope => exact same_beginScope
  | endScope => exact same_endScope
  | declare name => exact same_declare name
  | define name => exact same_define name
  | defineMany names => exact same_defineMany names
  | declareFunction name => exact (same_declare name).bind fun _ => same_complete
  | beginFunction | beginInitChain => exact same_beginFunction _ _ _
  | parameter name => exact same_parameter name
  | resultName name => exact same_resultName name
  | storeMatching fields => exact same_storeMatching fields
  | endFunction => exact same_endFunction
  | returnCheck => exact same_returnCheck
  | returnValueCheck => exact same_returnValueCheck
  | implicitReturn => exact same_implicitReturn
  | leaveLoops => exact same_leaveLoops
  | andThen => exact same_andThen
  | orElse => exact same_orElse
  | shortEnd | branchEnd => exact same_endJoin
  | branch => exact same_branch
  | branchElse => exact same_branchElse
  | whileStart => exact same_whileStart
  | whileBody => exact same_whileBody
  | whileEnd | forEnd => exact same_endLoop
  | forStart => exact same_forStart
  | forCondition => exact same_forCondition
  | forStep => exact same_forStep
  | forStepEnd => exact same_forStepEnd
  | forBody => exact same_forBody
  | loopStart => exact same_loopStart
  | loopEnd => exact same_loopEnd
  | loopCheck keyword => exact (same_currentLoop keyword).bind fun _ => same_pure ()
  | breakLoop => exact same_breakLoop
  | continueLoop => exact same_continueLoop
  | beginType kind name => exact same_beginType kind name
  | inheritFrom parent name => exact same_inheritFrom parent name
  | endInitChain fields => exact same_endInitChain fields
  | endType => exact same_endType
  | beginTest name => exact same_beginTest name
  | endTest name => exact same_endTest name
  | caseCheck => exact same_caseCheck
  | beginCase name => exact (same_nameConstant name).bind fun _ => same_beginFunction _ _ _
  | stepOut => exact same_stepOut
  | stepIn => exact same_stepIn
  | endCase name hasRows => exact same_endFunction.bind fun _ => same_emitNamed _ _
  | unreachable keyword line => exact same_note keyword line line
  | endScript => exact same_endScript

/-- Nothing but a note has to do with the line that a directive names. -/
theorem same_perform_unplaced (d : Directive) : Same (perform d) (perform d.unplaced) := by
  cases d with
  | unreachable keyword line => exact same_note keyword line 0
  | _ => exact same_perform _

theorem Same.trans {α : Type} {x y z : Assembly α} (h : Same x y) (h' : Same y z) : Same x z :=
  fun a b same => (h a a rfl).trans (h' a b same)

theorem Same.symm {α : Type} {x y : Assembly α} (h : Same x y) : Same y x :=
  fun a b same => (h b a same.symm).symm

/-- Steps with the same directives assemble to the same, whatever their marks are and the lines that they name. -/
theorem same_performAll {steps steps' : List Step}
    (same : steps.map (·.directive.unplaced) = steps'.map (·.directive.unplaced)) :
    Same (performAll steps) (performAll steps') := by
  induction steps generalizing steps' with
  | nil =>
    obtain rfl := List.map_eq_nil_iff.mp same.symm
    exact same_pure ()
  | cons s steps ih =>
    obtain ⟨s', steps', rfl, first, rest⟩ := List.map_eq_cons_iff.mp same.symm
    refine Same.bind ?_ fun _ => ih rest.symm
    have marked : Same (modify fun a => { a with mark := s.mark }) (modify fun a => { a with mark := s'.mark }) :=
      same_modify fun _ _ same => same
    have performed := (same_perform_unplaced s'.directive).symm
    rw [show s'.directive.unplaced = s.directive.unplaced from first] at performed
    exact marked.bind fun _ => (same_perform_unplaced _).trans performed

end Assembler

end ScriptEngine
