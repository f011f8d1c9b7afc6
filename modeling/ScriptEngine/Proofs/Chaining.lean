import ScriptEngine.Proofs.Settling
import ScriptEngine.Proofs.Staging

/-!
# Init chains

In order, a body falls into three parts: what comes before the fields, the fields and
what comes behind them (`Arranged.phases`).
-/
namespace ScriptEngine

open Grammar Assembler

/-! ## The parts of a body -/

/-- What elements of a kind write, one after the other. -/
inductive Joined {n : Nat} (S : Element n → Prop) : List Directive → Prop
  | nil : Joined S []
  | cons {e : Element n} {inner ds : List Directive} (of : S e) (gives : e.Gives inner) (rest : Joined S ds) :
      Joined S (inner ++ ds)

section Phases
variable {n : Nat} {b : TypeBody} {e : Element n} {es : List (Element n)} {ds : List Directive}

/-- The elements of these stages. -/
def Among (es : List (Element n)) (p : Stage → Prop) (e : Element n) : Prop := e ∈ es ∧ p e.stage

theorem Joined.behind {p : Stage → Prop} (h : Joined (Among es p) ds) (e : Element n) :
    Joined (Among (e :: es) p) ds := by
  induction h with
  | nil => exact .nil
  | cons of gives _ ih => exact .cons ⟨.tail _ of.1, of.2⟩ gives ih

/-- Ahead of the fields. -/
def Grammar.Stage.Early (s : Stage) : Prop := s.rank < Stage.var.rank

/-- Behind the fields. -/
def Grammar.Stage.Late (s : Stage) : Prop := Stage.var.rank < s.rank

theorem Grammar.Stage.Early.other {s : Stage} (h : s.Early) : s ≠ .var :=
  fun eq => absurd h (by rw [eq]; exact Nat.lt_irrefl _)

theorem Grammar.Stage.Late.other {s : Stage} (h : s.Late) : s ≠ .var :=
  fun eq => absurd h (by rw [eq]; exact Nat.lt_irrefl _)

theorem stage_var_iff (e : Element n) : e.stage = .var ↔ e.fieldNames ≠ [] := by
  cases e <;> simp [Element.stage, Element.fieldNames]

theorem rank_eq_var {s : Stage} : s.rank = Stage.var.rank ↔ s = .var := by cases s <;> decide

theorem noFields (others : ∀ e ∈ es, e.stage ≠ .var) : es.flatMap Element.fieldNames = [] :=
  List.flatMap_eq_nil_iff.mpr fun e mem => not_not.mp fun some => others e mem ((stage_var_iff e).mpr some)

theorem Grammar.Arranged.late (h : Arranged b es ds) (here : b.stage ≠ .var) (closed : b.chainOpen = false)
    (later : ∀ e ∈ es, e.stage.Late) : Joined (Among es Stage.Late) ds := by
  induction h with
  | nil b =>
    unfold TypeBody.closing
    rw [closed]
    exact .nil
  | @cons b e es inner ds gives rest ih =>
    have there := (later e (.head _)).other
    have none : b.passing e.stage = [] := by simp [TypeBody.passing, here, there]
    rw [none, List.nil_append]
    have rest := ih there (decide_eq_false there) fun x mem => later x (.tail _ mem)
    exact .cons ⟨.head _, later e (.head _)⟩ gives (rest.behind e)

theorem Grammar.Arranged.fields (h : Arranged b es ds) (here : b.stage = .var) (opened : b.chainOpen = true)
    (sorted : es.Pairwise fun e e' => e.stage.rank ≤ e'.stage.rank)
    (later : ∀ e ∈ es, Stage.var.rank ≤ e.stage.rank) : ∃ middle late, Joined (Among es (· = .var)) middle ∧
      Joined (Among es Stage.Late) late ∧
      ds = middle ++ .endInitChain (b.fields ++ es.flatMap Element.fieldNames) :: late := by
  induction h with
  | nil b =>
    unfold TypeBody.closing
    rw [opened]
    exact ⟨[], [], .nil, .nil, by simp⟩
  | @cons b e es inner ds gives rest ih =>
    obtain ⟨order, sorted⟩ := List.pairwise_cons.mp sorted
    by_cases there : e.stage = .var
    · have none : b.passing e.stage = [] := by simp [TypeBody.passing, here, there]
      obtain ⟨middle, late, fields, beyond, rfl⟩ :=
        ih there (decide_eq_true there) sorted fun x mem => later x (.tail _ mem)
      refine ⟨inner ++ middle, late, .cons ⟨.head _, there⟩ gives (fields.behind e), beyond.behind e, ?_⟩
      rw [none, List.nil_append, List.append_assoc, List.flatMap_cons, ← List.append_assoc b.fields]
      rfl
    · have lt : e.stage.Late := lt_of_le_of_ne (later e (.head _)) fun eq => there (rank_eq_var.mp eq.symm)
      have beyond : ∀ x ∈ e :: es, x.stage.Late :=
        List.forall_mem_cons.mpr ⟨lt, fun x mem => Nat.lt_of_lt_of_le lt (order x mem)⟩
      have passed : b.passing e.stage = [.endInitChain b.fields] := by simp [TypeBody.passing, here, there]
      have rest := rest.late there (decide_eq_false there) fun x mem => beyond x (.tail _ mem)
      refine ⟨[], inner ++ ds, .nil, .cons ⟨.head _, lt⟩ gives (rest.behind e), ?_⟩
      rw [passed, noFields fun x mem => (beyond x mem).other, List.append_nil]
      rfl

/-- What is written around the fields. -/
def chained (names : List String) (fields : List Directive) : List Directive :=
  if names = [] then [] else .beginInitChain :: (fields ++ [.endInitChain names])

theorem Grammar.Arranged.phases (h : Arranged b es ds) (here : b.stage.Early) (closed : b.chainOpen = false)
    (none : b.fields = []) (sorted : es.Pairwise fun e e' => e.stage.rank ≤ e'.stage.rank) :
    ∃ early middle late, Joined (Among es Stage.Early) early ∧ Joined (Among es (· = .var)) middle ∧
      Joined (Among es Stage.Late) late ∧
      ds = early ++ (chained (es.flatMap Element.fieldNames) middle ++ late) := by
  induction h with
  | nil b =>
    unfold TypeBody.closing
    rw [closed]
    exact ⟨[], [], [], .nil, .nil, .nil, rfl⟩
  | @cons b e es inner ds gives rest ih =>
    obtain ⟨order, sorted⟩ := List.pairwise_cons.mp sorted
    have known : (b.after e).fields = e.fieldNames := by
      rw [show (b.after e).fields = b.fields ++ e.fieldNames from rfl, none, List.nil_append]
    rcases Nat.lt_trichotomy e.stage.rank Stage.var.rank with lt | eq | gt
    · have there : e.stage ≠ .var := Stage.Early.other lt
      have fields : e.fieldNames = [] := not_not.mp fun some => there ((stage_var_iff e).mpr some)
      have passed : b.passing e.stage = [] := by simp [TypeBody.passing, here.other, there]
      obtain ⟨early, middle, late, first, second, third, rfl⟩ :=
        ih lt (decide_eq_false there) (known.trans fields) sorted
      refine ⟨inner ++ early, middle, late, .cons ⟨.head _, lt⟩ gives (first.behind e), second.behind e,
        third.behind e, ?_⟩
      rw [passed, List.nil_append, List.flatMap_cons, fields, List.nil_append, List.append_assoc]
    · have there := rank_eq_var.mp eq
      have passed : b.passing e.stage = [.beginInitChain] := by simp [TypeBody.passing, here.other, there]
      obtain ⟨middle, late, second, third, rfl⟩ := rest.fields there (decide_eq_true there) sorted
        fun x mem => eq ▸ order x mem
      refine ⟨[], inner ++ middle, late, .nil, .cons ⟨.head _, there⟩ gives (second.behind e), third.behind e, ?_⟩
      have some : e.fieldNames ++ es.flatMap Element.fieldNames ≠ [] :=
        List.append_ne_nil_of_left_ne_nil ((stage_var_iff e).mp there) _
      rw [passed, chained, List.flatMap_cons, if_neg some, known]
      simp only [List.append_assoc, List.nil_append, List.cons_append]
    · have beyond : ∀ x ∈ e :: es, x.stage.Late :=
        List.forall_mem_cons.mpr ⟨gt, fun x mem => Nat.lt_of_lt_of_le gt (order x mem)⟩
      refine ⟨[], [], _, .nil, .nil, Arranged.late (.cons gives rest) here.other closed beyond, ?_⟩
      rw [chained, if_pos (noFields fun x mem => (beyond x mem).other)]
      rfl

end Phases

/-! ## Forms -/

section Forms
variable {F F' F'' : Form} {ds ds' es : List Directive}

theorem akin_symm (h : List.Forall₂ Directive.Akin ds ds') : List.Forall₂ Directive.Akin ds' ds :=
  (h.imp fun _ _ => Directive.Akin.symm).flip

theorem akin_trans (h : List.Forall₂ Directive.Akin ds ds') (h' : List.Forall₂ Directive.Akin ds' es) :
    List.Forall₂ Directive.Akin ds es := by
  induction h generalizing es with
  | nil => exact h'
  | cons first _ ih =>
    cases h' with
    | cons first' rest => exact .cons (first.trans first') (ih rest)

/-- From every assembly of the one form directives like these lead to one of the other, unless something
does not fit. -/
def Drives (F : Form) (ds : List Directive) (F' : Form) : Prop :=
  ∀ b : Assembler, b.form = F → ∀ steps : List Step, List.Forall₂ Directive.Akin ds (steps.map (·.directive)) →
    UpToLimit (performAll steps b) fun _ b' => b'.form = F'

theorem drives_of_run {a a' : Assembler} {steps : List Step} (closed : a.Sealed)
    (run : performAll steps a = .ok () a') :
    Drives a.form (steps.map (·.directive)) a'.form := by
  intro b form steps' akin
  rw [List.forall₂_map_left_iff, List.forall₂_map_right_iff] at akin
  exact (mirrors_performAll akin a b ⟨form, closed⟩ () a' run).mono fun _ _ h => h.1.form

theorem Drives.akin (h : Drives F ds F') (akin : List.Forall₂ Directive.Akin ds ds') : Drives F ds' F' :=
  fun b form steps akin' => h b form steps (akin_trans akin akin')

theorem drives_nil (F : Form) : Drives F [] F := by
  intro b form steps akin
  cases steps with
  | nil => exact form
  | cons => cases akin

theorem Drives.append (h : Drives F ds F') (h' : Drives F' es F'') : Drives F (ds ++ es) F'' := by
  intro b form steps akin
  have first := List.forall₂_take_append _ _ _ akin.flip
  have second := List.forall₂_drop_append _ _ _ akin.flip
  rw [← List.map_take] at first
  rw [← List.map_drop] at second
  rw [← List.take_append_drop ds.length steps, performAll_append_eq]
  exact ((h b form _ first.flip).mono fun _ b' form' => h' b' form' _ second.flip).bind

/-- Where they lead to is given by one run. -/
theorem Drives.form (h : Drives F ds F') {a a' : Assembler} {steps : List Step} (form : a.form = F)
    (akin : List.Forall₂ Directive.Akin ds (steps.map (·.directive))) (run : performAll steps a = .ok () a') :
    a'.form = F' := by
  have driven := h a form steps akin
  rw [run] at driven
  exact driven

end Forms

/-! ## Code -/

/-- Instructions of init chains. -/
def Instruction.isChain : Instruction → Bool
  | .initChain | .field _ => true
  | _ => false

theorem isChain_of_isMember {i : Instruction} (h : i.isMember = false) : i.isChain = false := by
  cases i <;> first | rfl | cases h

theorem Chunk.Continues.weaken {p q : Instruction → Bool} {c c' : Chunk} (h : c.Continues p c')
    (imp : ∀ i, p i = false → q i = false) : c.Continues q c' := by
  obtain ⟨is, code, others⟩ := h.code
  exact ⟨⟨is, code, fun i hi => imp i (others i hi)⟩, h.constants⟩

/-- The code of the current function goes on without instructions of a kind. -/
def Goes (p : Instruction → Bool) (a a' : Assembler) : Prop := a.body.chunk.Continues p a'.body.chunk

instance (p : Instruction → Bool) : Std.Refl (Goes p) := ⟨fun _ => .refl p _⟩

instance (p : Instruction → Bool) : IsTrans Assembler (Goes p) := ⟨fun _ _ _ => .trans⟩

section Goes
variable {α : Type} {p : Instruction → Bool}

theorem Moving.goes {x : Assembly α} (h : Moving (Lengthens p) x) : Moving (Goes p) x := h.mono fun _ _ => (·.chunk)

theorem goes_modify {f : Assembler → Assembler} (same : ∀ a, (f a).body.chunk = a.body.chunk) :
    Moving (Goes p) (modify f) := fun a => does_modify (by rw [Goes, same]; exact .refl p _)

theorem goes_modifyBody {f : Body → Body} (same : ∀ b, (f b).chunk = b.chunk) : Moving (Goes p) (modifyBody f) :=
  goes_modify fun a => same a.body

theorem goes_emit {i : Instruction} (other : p i = false) : Moving (Goes p) (emit i) := (lengthens_emit other).goes

theorem goes_declareLocal (name : String) : Moving (Goes p) (declareLocal name) := by
  have push : Moving (Goes p) (pushLocal name) :=
    .bind .getBody fun _ => .ite ((Moving.throw _).bind fun _ => goes_modifyBody fun _ => rfl)
      (goes_modifyBody fun _ => rfl)
  exact .bind .getBody fun _ => .ite (.pure ()) (.ite ((Moving.throw _).bind fun _ => push) push)

theorem goes_complete : Moving (Goes p) complete := by
  refine goes_modifyBody fun b => ?_
  split
  · rfl
  · split <;> rfl

theorem goes_declare (name : String) : Moving (Goes p) (declare name) :=
  .bind .getBody fun _ => .ite (goes_declareLocal name) ((lengthens_nameConstant name).goes.bind fun _ => .pure ())

theorem goes_beginType (kind : TypeKind) (name : String) :
    Moving (Goes Instruction.isMember) (beginType kind name) := by
  have define : Moving (Goes Instruction.isMember) (define name) :=
    .bind .getBody fun _ => .ite goes_complete ((settles_nameConstant name).goes.bind fun _ => goes_emit rfl)
  exact (settles_nameConstant name).goes.bind fun _ => (goes_declare name).bind fun _ => (goes_emit rfl).bind fun _ =>
    define.bind fun _ => goes_modify fun _ => rfl

theorem goes_endType : Moving (Goes Instruction.isMember) endType := by
  have drop (l : Local) : Moving (Goes Instruction.isMember) (emit (dropInstruction l)) :=
    goes_emit (by unfold dropInstruction; split <;> rfl)
  have drops (depth : Nat) : Moving (Goes Instruction.isMember) (emitDrops depth) :=
    .bind .getBody fun _ => .forM _ drop
  have leave : Moving (Goes Instruction.isMember) endScope :=
    .bind (goes_modifyBody (by intros; rfl)) fun _ => .bind .getBody fun _ => .bind (drops _) fun _ =>
      goes_modifyBody (by intros; rfl)
  refine (goes_emit rfl).bind fun _ => (goes_emit rfl).bind fun _ => .bind .get fun a => ?_
  split
  · exact .ite (leave.bind fun _ => goes_modify fun _ => rfl) (goes_modify fun _ => rfl)
  · exact .throw _

end Goes

/-! ### One chain -/

/-- An init chain over these fields, if there are any. -/
def Chunk.IsChain (c : Chunk) (names : List String) (is : List Instruction) : Prop :=
  if names = [] then is = []
  else ∃ indices : List UInt16, is = .initChain :: indices.map .field ∧ indices.map c.name? = names.map some

/-- The code goes on with an init chain over these fields. -/
structure Chunk.Chains (names : List String) (c c' : Chunk) : Prop where
  code : ∃ before chain, c'.code.toList = c.code.toList ++ (before ++ chain) ∧ (∀ i ∈ before, i.isMember = false) ∧
    c'.IsChain names chain
  constants : Grows c.constants c'.constants

section Chains
variable {a a' : Assembler} {c c' : Chunk} {ds es : List Directive} {names : List String}

theorem names_grow (grows : Grows c.constants c'.constants) {indices : List UInt16}
    (h : indices.map c.name? = names.map some) : indices.map c'.name? = names.map some := by
  induction names generalizing indices with
  | nil =>
    obtain rfl := List.map_eq_nil_iff.mp h
    rfl
  | cons name names ih =>
    obtain ⟨n, rest, rfl, first, tail⟩ := List.map_eq_cons_iff.mp h
    rw [List.map_cons, List.map_cons, name?_grows grows first, ih tail]

theorem isChain_grows (grows : Grows c.constants c'.constants) {is : List Instruction} (h : c.IsChain names is) :
    c'.IsChain names is := by
  unfold Chunk.IsChain at h ⊢
  split_ifs at h ⊢
  · exact h
  · exact h.imp fun _ h => ⟨h.1, names_grow grows h.2⟩

/-- The fields of a chain are listed one by one. -/
theorem does_listFields (names : List String) (a : Assembler) :
    Does (names.forM fun f => do emit (.field (← nameConstant f))) a fun _ a' =>
      Grows a.body.chunk.constants a'.body.chunk.constants ∧ ∃ indices : List UInt16,
        a'.body.chunk.code.toList = a.body.chunk.code.toList ++ indices.map .field ∧
          indices.map a'.body.chunk.name? = names.map some := by
  induction names generalizing a with
  | nil => exact does_pure ⟨.refl _, [], (List.append_nil _).symm, rfl⟩
  | cons name names ih =>
    refine does_bind (does_bind (does_nameConstant (b := a.body) fun index constants grows found => ?_))
    refine does_modify (does_mono (ih _) fun _ a'' ⟨grows', indices, code, named⟩ => ?_)
    refine ⟨grows.trans grows', index :: indices, ?_, ?_⟩
    · rw [code, List.map_cons]
      exact (congrArg (· ++ _) (Array.toList_push ..)).trans (List.append_assoc _ _ _)
    · have entered : Chunk.name? { a.body.chunk with constants := constants } index = some name := by
        unfold Chunk.name?
        rw [found]
      rw [List.map_cons, List.map_cons, named, name?_grows grows' entered]

theorem does_endInitChain (some : names ≠ []) (h : a.Within a') : Does (endInitChain names) a' fun _ a'' =>
    Lengthens (fun _ => false) a a'' ∧ a.body.chunk.Chains names a''.body.chunk := by
  refine does_bind (does_mono (settles_endFunction h) fun _ a₁ settles => ?_)
  have form : Moving (Lengthens fun _ => false) (do
      emit .initChain
      names.forM fun f => do emit (.field (← nameConstant f))) :=
    (lengthens_emit rfl).bind fun _ => .forM _ fun _ => (lengthens_nameConstant _).bind fun _ => lengthens_emit rfl
  have lengthens : Lengthens (fun _ => false) a a₁ :=
    ⟨settles.toAround, settles.form, settles.chunk.weaken fun _ _ => rfl⟩
  intro r a₂ run
  refine ⟨IsTrans.trans _ _ _ lengthens (form a₁ r a₂ run), ?_⟩
  have listed : Does (do
      emit .initChain
      names.forM fun f => do emit (.field (← nameConstant f))) a₁ fun _ a₂ => a.body.chunk.Chains names a₂.body.chunk := by
    refine does_bind (does_modify (does_mono (does_listFields names _) fun _ a₂ ⟨grows, indices, code, named⟩ => ?_))
    obtain ⟨before, code₁, ordinary⟩ := settles.chunk.code
    refine ⟨⟨before, .initChain :: indices.map .field, ?_, ordinary, ?_⟩, settles.chunk.constants.trans grows⟩
    · have pushed : (a₁.body.emit .initChain (UInt32.ofNat a₁.mark.line)).chunk.code.toList =
          a₁.body.chunk.code.toList ++ [.initChain] := Array.toList_push ..
      refine code.trans ((congrArg (· ++ _) pushed).trans ?_)
      simp only [code₁, List.append_assoc, List.singleton_append]
    · rw [Chunk.IsChain, if_neg some]
      exact ⟨indices, rfl, named⟩
  exact listed r a₂ run

/-- The fields are within a function of their own. -/
theorem carried_chain (some : names ≠ []) (inner : Carried Around ds) :
    Carried (fun a a' => Lengthens (fun _ => false) a a' ∧ a.body.chunk.Chains names a'.body.chunk)
      (.beginInitChain :: (ds ++ [.endInitChain names])) :=
  carried_function (within_beginFunction _ _ _) inner fun _ _ => does_endInitChain some

theorem carried_chained (inner : Carried Around ds) :
    Carried (fun a a' => a.body.chunk.Chains names a'.body.chunk) (chained names ds) := by
  unfold chained
  split_ifs with none
  · intro steps same a
    obtain rfl := List.map_eq_nil_iff.mp same
    exact does_pure ⟨⟨[], [], by simp, nofun, by rw [Chunk.IsChain, if_pos none]⟩, .refl _⟩
  · exact (carried_chain none inner).mono fun _ _ h => h.2

end Chains

/-! ### Elements -/

section Elements
variable {n : Nat} {e : Element n} {ds : List Directive} {S : Element n → Prop}

theorem member_none (other : ¬e.stage.Late) : e.member? = none := by
  cases e with
  | init body => exact absurd (show Stage.var.rank < Stage.init.rank by decide) other
  | method words name body => exact absurd (show Stage.var.rank < Stage.method.rank by decide) other
  | _ => rfl

theorem gives_akin {es : List Directive} (h : e.Gives ds) (h' : e.Gives es) : List.Forall₂ Directive.Akin ds es := by
  unfold Element.Gives at h h'
  cases member : e.member? with
  | none =>
    rw [member] at h h'
    exact akin_trans (akin_symm h.akin) h'.akin
  | some name =>
    rw [member] at h h'
    obtain ⟨ds, h, rfl⟩ := h
    obtain ⟨es, h', rfl⟩ := h'
    exact List.rel_append (akin_trans (akin_symm h.akin) h'.akin) (.cons (.refl _) .nil)

/-- An element without a member is a value. -/
theorem settles_element (none : e.member? = none) (h : e.Gives ds) : Carried Settles ds := by
  unfold Element.Gives at h
  rw [none] at h
  exact h.woven.carried

theorem lengthens_element (h : e.Gives ds) : Carried (Lengthens Instruction.isChain) ds := by
  have weaken (a a' : Assembler) (settles : Settles a a') : Lengthens Instruction.isChain a a' :=
    ⟨settles.toAround, settles.form, settles.chunk.weaken fun _ => isChain_of_isMember⟩
  cases member : e.member? with
  | none => exact (settles_element member h).mono weaken
  | some name =>
    unfold Element.Gives at h
    rw [member] at h
    obtain ⟨es, h, rfl⟩ := h
    have method : Carried (Lengthens Instruction.isChain) [.method name] := fun _ same a => does_steps_last same fun m =>
      does_mono (lengthens_emitNamed (fun _ => rfl) name _) fun _ _ h =>
        ⟨⟨h.outer, h.aside, h.types, h.testSets⟩, h.form, h.chunk⟩
    exact (Carried.mono h.woven.carried weaken).append method

theorem Joined.settles (h : Joined S ds) (none : ∀ e, S e → e.member? = none) : Carried Settles ds := by
  induction h with
  | nil => exact carried_nil
  | cons of gives _ ih => exact (settles_element (none _ of) gives).append ih

theorem Joined.lengthens (h : Joined S ds) : Carried (Lengthens Instruction.isChain) ds := by
  induction h with
  | nil => exact carried_nil
  | cons _ gives _ ih => exact (lengthens_element gives).append ih

end Elements

/-! ### Declarations -/

/-- The code goes on with an init chain over these fields, and no other member is declared ahead of it
and no other field behind it. -/
def Chunk.Declares (names : List String) (c c' : Chunk) : Prop :=
  ∃ before chain behind, c'.code.toList = c.code.toList ++ (before ++ (chain ++ behind)) ∧
    (∀ i ∈ before, i.isMember = false) ∧ c'.IsChain names chain ∧ ∀ i ∈ behind, i.isChain = false

section Declarations
variable {n : Nat} {S T U : Element n → Prop} {early middle late : List Directive} {names : List String}
variable {c c₁ c₂ c₃ : Chunk}

theorem goes_single {p : Instruction → Bool} {d : Directive} (h : Moving (Goes p) (perform d)) : Carried (Goes p) [d] :=
  fun _ same _ => does_steps_last same fun _ => h _

theorem Chunk.Chains.declares (first : c.Continues Instruction.isMember c₁) (chains : c₁.Chains names c₂)
    (last : c₂.Continues Instruction.isChain c₃) : c.Declares names c₃ := by
  obtain ⟨is, code, ordinary⟩ := first.code
  obtain ⟨before, chain, code', ordinary', isChain⟩ := chains.code
  obtain ⟨behind, code'', others⟩ := last.code
  refine ⟨is ++ before, chain, behind, ?_, fun i hi => ?_, isChain_grows last.constants isChain, others⟩
  · rw [code'', code', code]
    simp only [List.append_assoc]
  · exact (List.mem_append.mp hi).elim (ordinary i) (ordinary' i)

theorem carried_declaration (kind : TypeKind) (name : String) (first : Joined S early) (fields : Joined T middle)
    (last : Joined U late) (alone : ∀ e, S e → e.member? = none) (alone' : ∀ e, T e → e.member? = none) :
    Carried (fun a a' => a.body.chunk.Declares names a'.body.chunk)
      (.beginType kind name :: .load name :: ((early ++ (chained names middle ++ late)) ++ [.endType])) := by
  have head : Carried (Goes Instruction.isMember) ([.beginType kind name] ++ ([.load name] ++ early)) :=
    (goes_single (goes_beginType kind name)).append
      ((goes_single (settles_load name).goes).append ((first.settles alone).mono fun _ _ => (·.chunk)))
  have chain : Carried (fun a a' => a.body.chunk.Chains names a'.body.chunk) (chained names middle) :=
    carried_chained ((fields.settles alone').mono fun _ _ => (·.toAround))
  have members : Carried (Goes Instruction.isChain) late := last.lengthens.mono fun _ _ => (·.chunk)
  have tail : Carried (Goes Instruction.isChain) (late ++ [.endType]) :=
    members.append ((goes_single goes_endType).mono fun _ _ h => h.weaken fun _ => isChain_of_isMember)
  intro steps same a
  have split : steps.map (·.directive) =
      ([.beginType kind name] ++ ([.load name] ++ early)) ++ (chained names middle ++ (late ++ [.endType])) := by
    rw [same]
    simp only [List.append_assoc, List.cons_append, List.nil_append]
  refine does_steps_append split fun front rest same same' => does_mono (head front same a) fun _ a₁ h₁ => ?_
  refine does_steps_append same' fun front rest same same' => does_mono (chain front same a₁) fun _ a₂ h₂ => ?_
  exact does_mono (tail rest same' a₂) fun _ a₃ h₃ => Chunk.Chains.declares h₁ h₂ h₃

end Declarations

end ScriptEngine
