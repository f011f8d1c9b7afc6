import ScriptEngine.Proofs.Chaining

/-!
# Which type bodies compile

A body whose elements compile each in a declaration of its own compiles exactly if it is in
order, unless it is too large (`declaration_compiles_iff`): the directives of an element
can be carried out wherever they can be carried out in an assembly of the same form, and
between the elements of a body the form is the one ahead of the first.
-/
namespace ScriptEngine

open Grammar Assembler

/-- What reading and assembling comes to. Faults of the assembly come before one of the grammar. -/
def Grammar.outcome {α : Type} (x : Parser α) (c : Cursor) (a : Assembler) : Except CompileFault (Cursor × Assembler) :=
  match x c with
  | .ok _ c' =>
    match performAll (c'.steps.toList.drop c.steps.size) a with
    | .ok _ a' => .ok (c', a')
    | .error fault _ => .error fault
  | .error e c' =>
    match performAll (c'.steps.toList.drop c.steps.size) a with
    | .ok _ _ => .error e.fault
    | .error fault _ => .error fault

/-- A keyword for a declaration of this element alone. -/
def Element.home {n : Nat} : Element n → TypeKind
  | enumValue _ _ => .enumKind
  | _ => .classKind

/-- A declaration with this body compiles, where the assembly has come to `a`. -/
def Compiles {n : Nat} (a : Assembler) (kind : TypeKind) (name : String) (es : List (Element n)) : Prop :=
  ∃ c t rest r, Spells (declarationShapes kind name es) (t :: rest) c.left ∧
    outcome (parseGoal (n + 1) .declaration) c a = .ok r

section Outcome
variable {α : Type} {x : Parser α} {c c' : Cursor} {a a' : Assembler} {ds : List Directive}

theorem steps_of_writes (writes : c.Writes c' ds) : ∃ steps, c'.steps.toList.drop c.steps.size = steps ∧
    steps.map (·.directive) = ds := by
  obtain ⟨steps, eq, rfl⟩ := writes
  refine ⟨steps, ?_, rfl⟩
  rw [eq, ← Array.length_toList, List.drop_left]

theorem outcome_ok {r : α} (run : x c = .ok r c') : outcome x c a =
    match performAll (c'.steps.toList.drop c.steps.size) a with
    | .ok _ a' => .ok (c', a')
    | .error fault _ => .error fault := by
  unfold outcome
  rw [run]

theorem outcome_ne_ok {e : SyntaxError} (run : x c = .error e c') (r : Cursor × Assembler) : outcome x c a ≠ .ok r := by
  unfold outcome
  rw [run]
  dsimp only
  split <;> nofun

/-- A run falls into parts like its directives. -/
theorem run_append (ds : List Directive) {es : List Directive} {steps : List Step}
    (same : steps.map (·.directive) = ds ++ es) (run : performAll steps a = .ok () a') :
    ∃ front back a₁, front.map (·.directive) = ds ∧
      back.map (·.directive) = es ∧ performAll front a = .ok () a₁ ∧ performAll back a₁ = .ok () a' := by
  obtain ⟨front, back, rfl, first, second⟩ := List.map_eq_append_iff.mp same
  obtain ⟨a₁, run, run'⟩ := performAll_append run
  exact ⟨front, back, a₁, first, second, run, run'⟩

end Outcome

section Alone
variable {n : Nat} {kind : TypeKind} {name : String} {es : List (Element n)} {a : Assembler} {e p : Element n}

/-- The parts of elements are elements in order. -/
theorem ordered_part (mem : p ∈ e.parts) : Ordered p.home.policy [p] ∧ p.parts = [p] ∧ p.stage = e.stage := by
  have alone (p : Element n) (allowed : p.home.policy.allows p.stage = true) (distinct : p.fieldNames.Nodup) :
      Ordered p.home.policy [p] :=
    ⟨by simpa using allowed, List.pairwise_singleton _ _, by simpa using distinct, List.countP_le_length⟩
  cases e with
  | fields entries last =>
    obtain ⟨x, -, rfl⟩ := List.mem_map.mp mem
    exact ⟨alone _ rfl (List.nodup_singleton _), rfl, rfl⟩
  | _ =>
    obtain rfl := List.mem_singleton.mp mem
    exact ⟨alone _ rfl .nil, rfl, rfl⟩

theorem Compiles.run (h : Compiles a kind name es) (ordered : Ordered kind.policy es) : ∃ steps a' inner,
    steps.map (·.directive) = .beginType kind name :: .load name :: (inner ++ [.endType]) ∧
      Arranged (.start kind name) (es.flatMap Element.parts) inner ∧ performAll steps a = .ok () a' := by
  obtain ⟨c, t, rest, r, spells, ok⟩ := h
  have covers : Covers (parseGoal (n + 1) .declaration) (declarationShapes kind name es) (fun _ => True) _ :=
    covers_declaration ordered
  obtain ⟨_, c', ds, run, -, writes, inner, rfl, arranged⟩ := covers c t rest spells trivial
  obtain ⟨steps, same, map⟩ := steps_of_writes writes
  rw [outcome_ok run, same] at ok
  split at ok
  · exact ⟨steps, _, inner, map, arranged, ‹_›⟩
  · cases ok

/-! ## Elements in any body -/

theorem Assembler.Lengthens.same {q : Instruction → Bool} {a a' : Assembler} (h : Lengthens q a a') :
    a'.form = a.form := by
  have forms : a'.outer.map Body.form = a.outer.map Body.form := by
    have bare (bs : List Body) : bs.map Body.form = (bs.map Body.bare).map Body.form := by
      rw [List.map_map]
      exact List.map_congr_left fun b _ => (bare_form b).symm
    rw [bare a'.outer, h.outer, ← bare]
  simp only [Assembler.form, h.form, forms, h.aside, h.types, h.testSets]

/-- Behind the head of a declaration, and behind the declaration. -/
structure Heads (a : Assembler) (kind : TypeKind) (name : String) (F E : Form) : Prop where
  head : Drives a.form [.beginType kind name, .load name] F
  last : Drives F [.endType] E

theorem Compiles.heads (h : Compiles (n := n) a kind name []) (closed : a.Sealed) : ∃ F E, Heads a kind name F E := by
  have empty : Ordered kind.policy ([] : List (Element n)) := ⟨nofun, .nil, .nil, Nat.zero_le _⟩
  obtain ⟨steps, a', inner, same, arranged, run⟩ := h.run empty
  cases arranged
  obtain ⟨front, back, a₁, first, second, run, run'⟩ := run_append [.beginType kind name, .load name] same run
  refine ⟨a₁.form, a'.form, first ▸ drives_of_run closed run, ?_⟩
  have last := drives_of_run (sealed_performAll closed run) run'
  rwa [second] at last

variable {F E : Form}

/-- An element on its own has run from where the head leads. -/
theorem Compiles.alone (h : Compiles a p.home name [p]) (part : p.parts = [p]) (ordered : Ordered p.home.policy [p])
    (closed : a.Sealed) (heads : Heads a kind name F E) : ∃ steps a₁ a₂ inner, steps.map (·.directive) = inner ∧
      a₁.Sealed ∧ a₁.form = F ∧ performAll steps a₁ = .ok () a₂ ∧ Arranged (.start p.home name) [p] inner := by
  obtain ⟨steps, a', inner, same, arranged, run⟩ := h.run ordered
  rw [List.flatMap_singleton, part] at arranged
  obtain ⟨front, back, a₁, first, second, run, run'⟩ :=
    run_append [.beginType p.home name, .load name] same run
  obtain ⟨middle, last, a₂, first', -, run', -⟩ := run_append _ second run'
  refine ⟨middle, a₁, a₂, inner, first', sealed_performAll closed run, heads.head.form rfl ?_ run, run', arranged⟩
  rw [first]
  exact .cons (.beginType _ _ _) (.cons (.refl _) .nil)

theorem arranged_alone {inner : List Directive} (arranged : Arranged (.start kind name) [p] inner) :
    if p.stage = .var then ∃ ds, p.Gives ds ∧ inner = .beginInitChain :: (ds ++ [.endInitChain p.fieldNames])
    else p.Gives inner := by
  cases arranged with
  | cons gives rest =>
    cases rest
    have begins : (TypeBody.start kind name).stage ≠ .var := nofun
    split_ifs with field
    · refine ⟨_, gives, ?_⟩
      simp [TypeBody.passing, TypeBody.closing, TypeBody.after, TypeBody.entering, TypeBody.start, field]
    · simpa [TypeBody.passing, TypeBody.closing, TypeBody.after, TypeBody.entering, begins, field] using gives

/-- An element that is no field can be carried out behind the head. -/
theorem Compiles.plain (h : Compiles a p.home name [p]) (part : p.parts = [p]) (ordered : Ordered p.home.policy [p])
    (closed : a.Sealed) (heads : Heads a kind name F E) (other : p.stage ≠ .var) {ds : List Directive}
    (gives : p.Gives ds) : Drives F ds F := by
  obtain ⟨steps, a₁, a₂, inner, rfl, closed', rfl, run, arranged⟩ := h.alone part ordered closed heads
  have gives' := arranged_alone arranged
  rw [if_neg other] at gives'
  have drives := drives_of_run closed' run
  rw [(lengthens_element gives' steps rfl a₁ () a₂ run).same] at drives
  exact drives.akin (gives_akin gives' gives)

/-- Where the fields of an init chain can be carried out. -/
structure Encloses (F C : Form) : Prop where
  begins : Drives F [.beginInitChain] C
  only : ∀ D, Drives F [.beginInitChain] D → D = C
  ends : ∀ names, Drives C [.endInitChain names] F

theorem Compiles.encloses (h : Compiles a p.home name [p]) (part : p.parts = [p]) (ordered : Ordered p.home.policy [p])
    (closed : a.Sealed) (heads : Heads a kind name F E) (field : p.stage = .var) :
    ∃ C, Encloses F C ∧ ∀ ds, p.Gives ds → Drives C ds C := by
  obtain ⟨steps, a₁, a₂, inner, same, closed', form, run, arranged⟩ := h.alone part ordered closed heads
  have chain := arranged_alone arranged
  rw [if_pos field] at chain
  obtain ⟨ds, gives, rfl⟩ := chain
  have settles : Carried Settles ds := settles_element (member_none fun late => late.other field) gives
  obtain ⟨front, back, a₃, first, second, run₁, run₂⟩ := run_append [.beginInitChain] same run
  obtain ⟨middle, last, a₄, first', second', run₃, run₄⟩ := run_append _ second run₂
  have closed₃ := sealed_performAll closed' run₁
  have only (D : Form) (drives : Drives F [.beginInitChain] D) : D = a₃.form :=
    (drives.form form (by rw [first]; exact .cons (.refl _) .nil) run₁).symm
  have inside := (settles middle first' a₃ () a₄ run₃).same
  have behind := (carried_chain ((stage_var_iff p).mp field) (settles.mono fun _ _ => (·.toAround)) steps same a₁ () a₂
    run).1.same
  have begins := drives_of_run closed' run₁
  have fields := drives_of_run closed₃ run₃
  have ends := drives_of_run (sealed_performAll closed₃ run₃) run₄
  rw [first, form] at begins
  rw [first', inside] at fields
  rw [second', inside, behind, form] at ends
  exact ⟨a₃.form, ⟨begins, only, fun names => ends.akin (.cons (.endInitChain _ _) .nil)⟩, fun es gives' =>
    fields.akin (gives_akin gives gives')⟩

end Alone

/-! ## Bodies in order -/

section Bodies
variable {n : Nat} {kind : TypeKind} {name : String} {es : List (Element n)} {a : Assembler} {F E : Form}

theorem fieldNames_parts (es : List (Element n)) :
    (es.flatMap Element.parts).flatMap Element.fieldNames = es.flatMap Element.fieldNames := by
  rw [List.flatMap_assoc]
  refine List.flatMap_congr fun e _ => ?_
  cases e with
  | fields entries last =>
    rw [Element.parts, List.flatMap_map]
    exact List.map_eq_flatMap.symm
  | _ => exact List.flatMap_singleton ..

theorem Ordered.parts (ordered : Ordered kind.policy es) :
    (es.flatMap Element.parts).Pairwise fun e e' => e.stage.rank ≤ e'.stage.rank := by
  refine List.pairwise_flatMap.mpr ⟨fun e _ => ?_, ordered.sorted.imp fun le p mem p' mem' => ?_⟩
  · refine List.pairwise_iff_forall_sublist.mpr fun {p p'} sub => ?_
    have mem := sub.subset
    rw [(ordered_part (mem (.head _))).2.2, (ordered_part (mem (.tail _ (.head _)))).2.2]
  · rw [(ordered_part mem).2.2, (ordered_part mem').2.2]
    exact le

theorem Joined.drives {S : Element n → Prop} {ds : List Directive} (h : Joined S ds)
    (each : ∀ e, S e → ∀ ds, e.Gives ds → Drives F ds F) : Drives F ds F := by
  induction h with
  | nil => exact drives_nil F
  | cons of gives _ ih => exact (each _ of _ gives).append ih

/-- Each part of an element compiles as a declaration of its own. -/
def WellFormed (a : Assembler) (name : String) (e : Element n) : Prop := ∀ p ∈ e.parts, Compiles a p.home name [p]

theorem drives_chained (each : ∀ e ∈ es, WellFormed a name e) (closed : a.Sealed) (heads : Heads a kind name F E)
    {middle : List Directive} (fields : Joined (Among (es.flatMap Element.parts) (· = .var)) middle) :
    Drives F (chained (es.flatMap Element.fieldNames) middle) F := by
  unfold chained
  split_ifs with none
  · exact drives_nil F
  have single (p : Element n) (of : Among (es.flatMap Element.parts) (· = .var) p) : ∃ C, Encloses F C ∧
      ∀ ds, p.Gives ds → Drives C ds C := by
    obtain ⟨e, mem, part⟩ := List.mem_flatMap.mp of.1
    obtain ⟨ordered, alone, -⟩ := ordered_part part
    exact (each e mem p part).encloses alone ordered closed heads of.2
  obtain ⟨first, here⟩ : ∃ p, Among (es.flatMap Element.parts) (· = .var) p := by
    by_contra others
    rw [← fieldNames_parts] at none
    exact none (noFields fun p mem field => others ⟨p, mem, field⟩)
  obtain ⟨C, encloses, -⟩ := single first here
  have inner : Drives C middle C := fields.drives fun p of ds gives => by
    obtain ⟨D, encloses', drives⟩ := single p of
    obtain rfl := encloses'.only C encloses.begins
    exact drives ds gives
  exact encloses.begins.append (inner.append (encloses.ends _))

theorem drives_plain (each : ∀ e ∈ es, WellFormed a name e) (closed : a.Sealed) (heads : Heads a kind name F E)
    {q : Stage → Prop} (other : ∀ s, q s → s ≠ .var) {ds : List Directive}
    (elements : Joined (Among (es.flatMap Element.parts) q) ds) : Drives F ds F :=
  elements.drives fun p of ds gives => by
    obtain ⟨e, mem, part⟩ := List.mem_flatMap.mp of.1
    obtain ⟨ordered, alone, -⟩ := ordered_part part
    exact (each e mem p part).plain alone ordered closed heads (other _ of.2) gives

/-- The directives of a body in order can be carried out, and leave an init chain over its fields. -/
theorem Ordered.carried (ordered : Ordered kind.policy es) (each : ∀ e ∈ es, WellFormed a name e) (closed : a.Sealed)
    (heads : Heads a kind name F E) {inner : List Directive}
    (arranged : Arranged (.start kind name) (es.flatMap Element.parts) inner) :
    Drives a.form (.beginType kind name :: .load name :: (inner ++ [.endType])) E ∧
      Carried (fun a a' => a.body.chunk.Declares (es.flatMap Element.fieldNames) a'.body.chunk)
        (.beginType kind name :: .load name :: (inner ++ [.endType])) := by
  have begins : (TypeBody.start kind name).stage.Early := show Stage.begin.rank < Stage.var.rank by decide
  obtain ⟨early, middle, late, first, fields, last, rfl⟩ := arranged.phases begins rfl rfl ordered.parts
  rw [fieldNames_parts]
  have before := drives_plain each closed heads (fun _ => Stage.Early.other) first
  have chain := drives_chained each closed heads fields
  have behind := drives_plain each closed heads (fun _ => Stage.Late.other) last
  refine ⟨heads.head.append ((before.append (chain.append behind)).append heads.last), ?_⟩
  refine carried_declaration kind name first fields last (fun e of => member_none fun later => ?_) fun e of =>
    member_none fun later => later.other of.2
  exact absurd (Nat.lt_trans of.2 later) (Nat.lt_irrefl _)

variable {c : Cursor} {t : Token} {rest : List Token}

theorem outcome_unordered (unordered : ¬Ordered kind.policy es)
    (spells : Spells (declarationShapes kind name es) (t :: rest) c.left) (r : Cursor × Assembler) :
    outcome (parseGoal (n + 1) .declaration) c a ≠ .ok r := by
  have refuses : Refuses (parseGoal (n + 1) .declaration) (declarationShapes kind name es) fun _ => True :=
    refuses_declaration unordered
  obtain ⟨e, c', run⟩ := refuses c t rest spells trivial
  exact outcome_ne_ok run r

theorem outcome_ordered (ordered : Ordered kind.policy es) (each : ∀ e ∈ es, WellFormed a name e) (closed : a.Sealed)
    (heads : Heads a kind name F E) (spells : Spells (declarationShapes kind name es) (t :: rest) c.left) :
    match outcome (parseGoal (n + 1) .declaration) c a with
    | .ok (c', a') => c'.left = t :: rest ∧ Around a a' ∧
        a.body.chunk.Declares (es.flatMap Element.fieldNames) a'.body.chunk
    | .error fault => fault.isLimit = true := by
  have covers : Covers (parseGoal (n + 1) .declaration) (declarationShapes kind name es) (fun _ => True) _ :=
    (covers_declaration ordered).and (weaves_parseGoal (n + 1) .declaration)
  obtain ⟨_, c', ds, run, left, writes, ⟨inner, rfl, arranged⟩, woven⟩ := covers c t rest spells trivial
  obtain ⟨steps, same, map⟩ := steps_of_writes writes
  obtain ⟨drives, declares⟩ := ordered.carried each closed heads arranged
  have driven := drives a rfl steps (by rw [map]; exact List.forall₂_same.mpr fun d _ => .refl d)
  rw [outcome_ok run, same]
  cases done : performAll steps a with
  | ok r a' => exact ⟨left, woven.carried steps map a r a' done, declares steps map a r a' done⟩
  | error fault a' =>
    rw [done] at driven
    exact driven

/-- The keyword, the order and the names decide whether a declaration without a supertype compiles, if what it consists
of compiles, and nothing remains open. -/
theorem declaration_compiles_iff {scriptName : String} {steps : List Step}
    (reached : performAll steps (start scriptName) = .ok () a) (header : Compiles (n := n) a kind name [])
    (each : ∀ e ∈ es, WellFormed a name e) (spells : Spells (declarationShapes kind name es) (t :: rest) c.left)
    (fits : ∀ fault, outcome (parseGoal (n + 1) .declaration) c a = .error fault → fault.isLimit = false) :
    ((∃ r, outcome (parseGoal (n + 1) .declaration) c a = .ok r) ↔ Ordered kind.policy es) ∧
      ∀ c' a', outcome (parseGoal (n + 1) .declaration) c a = .ok (c', a') →
        c'.left = t :: rest ∧ a'.level = a.level ∧ a'.types = a.types ∧
          a.body.chunk.Declares (es.flatMap Element.fieldNames) a'.body.chunk := by
  have closed := sealed_performAll (sealed_start scriptName) reached
  obtain ⟨F, E, heads⟩ := header.heads closed
  have accepted (r : Cursor × Assembler) (ok : outcome (parseGoal (n + 1) .declaration) c a = .ok r) :
      Ordered kind.policy es := by
    by_contra unordered
    exact outcome_unordered unordered spells r ok
  refine ⟨⟨fun ⟨r, ok⟩ => accepted r ok, fun ordered => ?_⟩, fun c' a' ok => ?_⟩
  · have result := outcome_ordered ordered each closed heads spells
    cases ok : outcome (parseGoal (n + 1) .declaration) c a with
    | ok r => exact ⟨r, rfl⟩
    | error fault =>
      rw [ok] at result
      have limit : fault.isLimit = true := result
      rw [fits fault ok] at limit
      cases limit
  · have result := outcome_ordered (accepted _ ok) each closed heads spells
    rw [ok] at result
    obtain ⟨left, around, declares⟩ := result
    refine ⟨left, ?_, around.types, declares⟩
    unfold Assembler.level
    simpa using congrArg List.length around.outer

end Bodies

/-- The tokens of a class around those of its body. -/
def smallClass (body : List Token) : List Token :=
  [⟨.classWord, "class", .none, 1, 1, 0⟩, ⟨.identifier, "A", .none, 1, 1, 0⟩, ⟨.openBrace, "\x7b", .none, 1, 1, 0⟩] ++
    body ++ [⟨.closeBrace, "\x7d", .none, 1, 1, 0⟩]

/-- The tokens of `var x = 1;`. -/
def smallField : List Token :=
  [⟨.varWord, "var", .none, 1, 1, 0⟩, ⟨.identifier, "x", .none, 1, 1, 0⟩, ⟨.equal, "=", .none, 1, 1, 0⟩,
    ⟨.number, "1", .number ⟨0x3FF0000000000000⟩, 1, 1, 0⟩, ⟨.semicolon, ";", .none, 1, 1, 0⟩]

/-- The tokens of an `init` that does nothing. -/
def smallInit : List Token :=
  [⟨.initWord, "init", .none, 1, 1, 0⟩, ⟨.openParen, "(", .none, 1, 1, 0⟩, ⟨.closeParen, ")", .none, 1, 1, 0⟩,
    ⟨.openBrace, "\x7b", .none, 1, 1, 0⟩, ⟨.closeBrace, "\x7d", .none, 1, 1, 0⟩]

def smallFieldElement : Element 2 :=
  .fields [] ⟨"x", some (.ofTree (.number ⟨0x3FF0000000000000⟩) (by decide) (by decide))⟩

def smallInitElement : Element 2 := .init (.empty .init "init" {})

theorem compiles_of_tokens {n : Nat} {a : Assembler} {kind : TypeKind} {name : String} {es : List (Element n)}
    {tokens : List Token} {t : Token} (left : (Cursor.ofTokens tokens).left = tokens ++ [t])
    (written : Written (declarationShapes kind name es) tokens)
    (ok : (outcome (parseGoal (n + 1) .declaration) (.ofTokens tokens) a).isOk = true) : Compiles a kind name es := by
  cases run : outcome (parseGoal (n + 1) .declaration) (.ofTokens tokens) a with
  | ok r => exact ⟨_, t, [], r, ⟨tokens, written, left⟩, run⟩
  | error fault =>
    rw [run] at ok
    cases ok

theorem fits_of_eval {α : Type} {x : Except CompileFault α}
    (small : (match x with | .error fault => fault.isLimit | .ok _ => false) = false) :
    ∀ fault, x = .error fault → fault.isLimit = false := by
  rintro fault rfl
  exact small

/-- With the field ahead of the `init` the class compiles, and the other way around it does not. -/
theorem declaration_compiles_iff_smallClass :
    (∃ c' a', outcome (parseGoal 3 .declaration) (.ofTokens (smallClass (smallField ++ smallInit))) (start "main") =
      .ok (c', a') ∧ (start "main").body.chunk.Declares ["x"] a'.body.chunk) ∧
    ∀ r, outcome (parseGoal 3 .declaration) (.ofTokens (smallClass (smallInit ++ smallField))) (start "main") ≠
      .ok r := by
  have reached : performAll [] (start "main") = .ok () (start "main") := rfl
  have left (body : List Token) :
      (Cursor.ofTokens (smallClass body)).left = smallClass body ++ [.endOfInput 1 1 0] := by
    unfold Cursor.ofTokens
    rw [smallClass, List.getLast?_concat]
    rfl
  have header : Compiles (start "main") .classKind "A" ([] : List (Element 2)) :=
    compiles_of_tokens (left []) (by decide) (by decide +kernel)
  have field : WellFormed (start "main") "A" smallFieldElement := fun p mem => by
    obtain rfl := List.mem_singleton.mp mem
    exact compiles_of_tokens (left smallField) (by decide) (by decide +kernel)
  have init : WellFormed (start "main") "A" smallInitElement := fun p mem => by
    obtain rfl := List.mem_singleton.mp mem
    exact compiles_of_tokens (left smallInit) (by decide) (by decide +kernel)
  have spells : Spells (declarationShapes .classKind "A" [smallFieldElement, smallInitElement]) [.endOfInput 1 1 0]
      (Cursor.ofTokens (smallClass (smallField ++ smallInit))).left := ⟨_, by decide, left _⟩
  have spells' : Spells (declarationShapes .classKind "A" [smallInitElement, smallFieldElement]) [.endOfInput 1 1 0]
      (Cursor.ofTokens (smallClass (smallInit ++ smallField))).left := ⟨_, by decide, left _⟩
  have first := declaration_compiles_iff reached header (by simp [field, init]) spells
    (fits_of_eval (by decide +kernel))
  have second := declaration_compiles_iff reached header (by simp [field, init]) spells'
    (fits_of_eval (by decide +kernel))
  have ordered : Ordered TypeKind.classKind.policy [smallFieldElement, smallInitElement] :=
    ⟨by decide, by decide, by decide, by decide⟩
  have unordered : ¬Ordered TypeKind.classKind.policy [smallInitElement, smallFieldElement] :=
    fun h => absurd h.sorted (by decide)
  obtain ⟨⟨c', a'⟩, run⟩ := first.1.mpr ordered
  exact ⟨⟨c', a', run, (first.2 c' a' run).2.2.2⟩, fun r run => unordered (second.1.mp ⟨r, run⟩)⟩

end ScriptEngine
