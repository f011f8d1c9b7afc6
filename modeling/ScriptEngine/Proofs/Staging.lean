import ScriptEngine.Proofs.Elements

/-!
# Reading type bodies

The grammar carries a state from one element of a body to the next: the stage that has been
reached, the fields that have been declared, whether there is an `init` and whether an init
chain is open. It reads a body if the body is `Ordered` (`covers_declaration`) and stops
with a fault if it is not (`refuses_declaration`). What it writes for a body that it reads
is `Arranged`: the directives of one element after the other, and a chain around the fields.
-/
namespace ScriptEngine

open Grammar

namespace Grammar

/-- Tokens at which an element or the end of the body begins. -/
def Follows : TokenKind → Bool
  | .staticWord | .mixinWord | .signsWord | .varWord | .initWord | .localWord | .pureWord | .identifier | .closeBrace =>
    true
  | _ => false

theorem Follows.separate {k : TokenKind} (h : Follows k = true) :
    Stops .assignment k ∧ k ≠ .comma ∧ k ≠ .semicolon ∧ k ≠ .openParen := by
  cases k <;> first
    | exact absurd h (by decide)
    | exact ⟨stops_of_none rfl rfl (by decide), nofun, nofun, nofun⟩

/-! ## Between elements -/

namespace TypeBody
variable {n : Nat}

/-- What is written ahead of an element of a stage. -/
def passing (b : TypeBody) (stage : Stage) : List Directive :=
  (if b.stage = .var ∧ stage ≠ .var then [.endInitChain b.fields] else []) ++
    if stage = .var ∧ b.stage ≠ .var then [.beginInitChain] else []

def closing (b : TypeBody) : List Directive := if b.chainOpen then [.endInitChain b.fields] else []

def entering (b : TypeBody) (stage : Stage) : TypeBody := { b with stage := stage, chainOpen := decide (stage = .var) }

/-- What is known behind an element, but for the counter. -/
def after (b : TypeBody) (e : Element n) : TypeBody :=
  { b.entering e.stage with hasInit := e.isInit || b.hasInit, fields := b.fields ++ e.fieldNames }

/-- The element may be the next one. -/
structure Admits (b : TypeBody) (e : Element n) : Prop where
  allowed : b.policy.allows e.stage = true
  order : b.stage.rank ≤ e.stage.rank
  distinct : (b.fields ++ e.fieldNames).Nodup
  single : e.isInit = true → b.hasInit = false

/-- An init chain is open where fields are declared, and no field has been declared twice. -/
structure Tidy (b : TypeBody) : Prop where
  chain : b.chainOpen = decide (b.stage = .var)
  distinct : b.fields.Nodup

end TypeBody

/-- The directives of a body for the declarations that are left. -/
inductive Arranged {n : Nat} : TypeBody → List (Element n) → List Directive → Prop
  | nil (b : TypeBody) : Arranged b [] b.closing
  | cons {b : TypeBody} {e : Element n} {es : List (Element n)} {inner ds : List Directive} (gives : e.Gives inner)
      (rest : Arranged (b.after e) es ds) : Arranged b (e :: es) (b.passing e.stage ++ (inner ++ ds))

section Between
variable {n : Nat} {b : TypeBody} {e : Element n} {es : List (Element n)} {inner ds : List Directive} {stage : Stage}

theorem passing_entering (b : TypeBody) (stage : Stage) : (b.entering stage).passing stage = [] := by
  unfold TypeBody.passing TypeBody.entering
  by_cases h : stage = .var <;> simp [h]

/-- From where its stage is entered, an element is arranged without a passage. -/
theorem Arranged.entered (h : Arranged (b.entering e.stage) (e :: es) ds) :
    Arranged b (e :: es) (b.passing e.stage ++ ds) := by
  cases h with
  | cons gives rest =>
    rw [passing_entering, List.nil_append]
    exact .cons gives rest

theorem Arranged.within (gives : e.Gives inner) (rest : Arranged (b.after e) es ds) :
    Arranged (b.entering e.stage) (e :: es) (inner ++ ds) := by
  have arranged : Arranged (b.entering e.stage) (e :: es) _ := .cons gives rest
  rwa [passing_entering] at arranged

/-- The directives of these declarations lead from one place in a body to another. -/
def Spans (b b' : TypeBody) (es : List (Element n)) (ds : List Directive) : Prop :=
  ∀ ps fs, Arranged b' ps fs → Arranged b (es ++ ps) (ds ++ fs)

theorem Spans.refl (b : TypeBody) : Spans b b ([] : List (Element n)) [] := fun _ _ => id

theorem Spans.trans {b' b'' : TypeBody} {es' : List (Element n)} {ds' : List Directive} (h : Spans b b' es ds)
    (h' : Spans b' b'' es' ds') : Spans b b'' (es ++ es') (ds ++ ds') := fun ps fs arranged => by
  rw [List.append_assoc, List.append_assoc]
  exact h _ _ (h' ps fs arranged)

theorem spans_within (gives : e.Gives inner) : Spans (b.entering e.stage) (b.after e) [e] inner :=
  fun _ _ => Arranged.within gives

theorem covers_closeInitChain (b : TypeBody) {next : TokenKind → Prop} :
    Covers (closeInitChain b) [] next fun b' ds => b' = { b with chainOpen := false } ∧ ds = b.closing := by
  unfold closeInitChain TypeBody.closing
  cases h : b.chainOpen with
  | true => exact covers_written (covers_pure ⟨rfl, rfl⟩)
  | false => exact covers_pure ⟨by rw [← h], rfl⟩

theorem covers_enterStage {next : TokenKind → Prop} (tidy : b.Tidy) (allowed : b.policy.allows stage = true)
    (order : b.stage.rank ≤ stage.rank) :
    Covers (enterStage b stage) [] next fun b' ds => b' = b.entering stage ∧ ds = b.passing stage := by
  unfold enterStage TypeBody.entering TypeBody.passing
  rw [if_pos allowed, if_neg (Nat.not_lt_of_le order)]
  have chain := tidy.chain
  by_cases here : b.stage = .var <;> by_cases there : stage = .var <;>
    simp only [here, there, ne_eq, not_true_eq_false, not_false_eq_true, and_true, and_false, and_self, if_true,
      if_false, decide_true, decide_false, List.nil_append, List.append_nil]
  · exact covers_pure ⟨by simp [chain, here], rfl⟩
  · refine (covers_closeInitChain b).last fun b' ds h => ?_
    obtain ⟨rfl, rfl⟩ := h
    simp only [false_and, if_false]
    exact covers_pure ⟨by simp, by simp [TypeBody.closing, chain, here]⟩
  · exact covers_written (covers_pure ⟨rfl, rfl⟩)
  · exact covers_pure ⟨by simp [chain, here], rfl⟩

theorem refuses_enterStage {shapes : List Shape} {next : TokenKind → Prop}
    (h : b.policy.allows stage = true → ¬b.stage.rank ≤ stage.rank) : Refuses (enterStage b stage) shapes next := by
  unfold enterStage
  by_cases allowed : b.policy.allows stage = true
  · rw [if_pos allowed, if_pos (Nat.lt_of_not_le (h allowed))]
    exact (refuses_failHere _).bind _
  · rw [if_neg allowed]
    exact (refuses_failHere _).bind _

end Between

/-! ## Parts of elements -/

section Parts
variable {n : Nat} {next : TokenKind → Prop}

theorem stops_separator : Stops .assignment .comma ∧ Stops .assignment .semicolon :=
  ⟨stops_of_none rfl rfl (by decide), stops_of_none rfl rfl (by decide)⟩

theorem Stops.not_equal {k : TokenKind} (h : Stops .assignment k) : k ≠ .equal := by
  rintro rfl
  cases h.2 (Nat.le_refl _)

theorem covers_value (v : Expression n) :
    Covers (parseGoal n (.expression .assignment)) v.shapes (Stops .assignment) fun _ => Resembles v.directives :=
  (v.reads.and (weaves_parseGoal n (.expression .assignment))).mono fun _ _ h => ⟨h.1, h.2⟩

theorem covers_routine {kind : FunctionKind} {name : String} {m : Modifiers} (r : Routine n kind name m)
    (fields : List String) :
    Covers (parseGoal n (.function kind name m fields)) r.shapes (fun _ => True) fun _ => Resembles r.directives :=
  ((r.reads fields).and (weaves_parseGoal n (.function kind name m fields))).mono fun _ _ h => ⟨h.1, h.2⟩

/-- A function begins with a parenthesis. -/
theorem refuses_function (n : Nat) {kind : FunctionKind} {name : String} {m : Modifiers} {fields : List String}
    {shapes : List Shape} (other : Joins (· ≠ .openParen) next shapes) :
    Refuses (parseGoal n (.function kind name m fields)) shapes next := by
  cases n with
  | zero => exact refuses_failHere _
  | succ n =>
    have miss : Refuses (expect .openParen "'(' after function name") shapes next := by
      intro c t rest spells here
      obtain ⟨t', rest', left, kind⟩ := other.behind spells here
      exact ⟨_, c, parser_bind (accept_miss left kind) _⟩
    exact Refuses.written (miss.bind _)

theorem covers_initializer (e : Entry n) :
    Covers (initializer (parseGoal n)) e.initial (Stops .assignment) fun _ => Resembles e.directives := by
  unfold Entry.initial Entry.directives
  cases e.value with
  | some v => exact (yields_accept .equal).read (covers_value v)
  | none =>
    refine (yields_accept_not .equal fun _ => Stops.not_equal).look ?_ fun _ => id
    exact covers_write (.single (.refl _) rfl)

/-- A list of members that one rule reads, up to a semicolon. -/
theorem covers_members {α : Type} {item : Parser Unit} {shapes : α → List Shape} {ds : α → List Directive}
    (each : ∀ x, Covers item (shapes x) (Stops .assignment) fun _ => Resembles (ds x))
    (first : ∀ x, Leads (fun _ => True) (shapes x)) (what : String)
    (members : List α) (last : α) : Covers (commaSeparated item >>= fun _ => expect .semicolon what)
      (commas shapes members last ++ [.fixed .semicolon]) next
      fun _ => Resembles ((members ++ [last]).flatMap ds) := by
  have more (x : α) : Covers (item >>= fun _ => accept .comma) (shapes x ++ [.fixed .comma]) (fun _ => True)
      fun r es => r = true ∧ Resembles (ds x) es :=
    (each x).bind (fun _ es h => (yields_accept .comma).covers ⟨rfl, by rwa [List.append_nil]⟩)
      ((leads_fixed stops_separator.1 []).joins _)
  have final : Covers (item >>= fun _ => accept .comma) (shapes last) (· = .semicolon)
      fun r es => r = false ∧ Resembles (ds last) es :=
    Covers.last ((each last).before (by rintro _ rfl; exact stops_separator.2)) fun _ es h =>
      (yields_accept_not .comma (by rintro _ rfl; decide)).covers ⟨rfl, by rwa [List.append_nil]⟩
  have loop : Covers (commaSeparated item) (commas shapes members last) (· = .semicolon)
      fun _ => Resembles ((members ++ [last]).flatMap ds) := by
    refine covers_repeatFrom (p := fun _ => True) (w := fun x => shapes x ++ [.fixed .comma])
      (fun xs _ es => ∃ done, done ++ xs = members ∧ Resembles (done.flatMap ds) es)
      (fun x xs _ es ⟨done, eq, h⟩ => (more x).last fun r fs h' => covers_pure ⟨h'.1, done ++ [x], ?_, ?_⟩)
      (fun x => ?_) (joins_any _ _) (fun _ es ⟨done, eq, h⟩ => final.last fun r fs h' => covers_pure ⟨h'.1, ?_⟩)
      ⟨[], rfl, .nil⟩
    · rw [List.append_assoc, List.singleton_append, eq]
    · simpa using h.append h'.2
    · obtain ⟨s, rest, eq, -⟩ := first x
      exact ⟨s, rest ++ [.fixed .comma], by rw [eq, List.cons_append], fun _ _ => trivial⟩
    · obtain rfl : done = members := by simpa using eq
      simpa using h.append h'.2
  exact loop.bind (fun _ es h => (yields_expect .semicolon what).covers (by rwa [List.append_nil]))
    (joins_fixed (by rfl) [] _)

theorem leads_entry (e : Entry n) : Leads (fun _ => True) e.shapes := leads_identifier trivial _

theorem covers_modifiers (words : List ModifierWord) (m : Modifiers) :
    Covers (modifiers m) (ModifierWord.shapes words) (fun k => k ≠ .localWord ∧ k ≠ .pureWord) fun r ds =>
      r = words.foldl ModifierWord.mark m ∧ ds = [] := by
  have all : ModifierWord.shapes words = words.flatMap (fun w => [.fixed w.token]) ++ [] := by
    rw [List.append_nil, ← List.map_eq_flatMap]
    rfl
  rw [all]
  refine covers_repeatFrom (p := fun _ => True) (fun ws r ds => ws.foldl ModifierWord.mark r =
    words.foldl ModifierWord.mark m ∧ ds = []) (fun w ws r ds h => ?_) (fun w => ⟨_, [], rfl, fun _ _ => trivial⟩)
    (joins_any _ _) (fun r ds h => ?_) ⟨rfl, rfl⟩
  · cases w with
    | localWord => exact (yields_accept .localWord).read (covers_pure ⟨rfl, h.1, by simp [h.2]⟩)
    | pureWord =>
      have other : Yields (accept .localWord) false [] [] (· = .pureWord) :=
        yields_accept_not .localWord (by rintro _ rfl; decide)
      exact other.look ((yields_accept .pureWord).read (covers_pure ⟨rfl, h.1, by simp [h.2]⟩))
        (joins_fixed (by rfl) [] _)
  · have stop : Covers (pure (r, false)) [] (fun k => k ≠ .localWord ∧ k ≠ .pureWord) fun s es =>
        s.2 = false ∧ s.1 = words.foldl ModifierWord.mark m ∧ ds ++ es = [] := covers_pure ⟨rfl, h.1, by simp [h.2]⟩
    exact (yields_accept_not .localWord fun k here => here.1).look
      ((yields_accept_not .pureWord fun k here => here.2).look stop fun _ => id) fun _ => id

theorem leads_marked {p : TokenKind → Prop} (of : p .localWord ∧ p .pureWord ∧ p .identifier)
    (words : List ModifierWord) (name : String) (shapes : List Shape) :
    Leads p (ModifierWord.shapes words ++ .identifier name :: shapes) := by
  match words with
  | [] => exact leads_identifier of.2.2 _
  | .localWord :: _ => exact leads_fixed of.1 _
  | .pureWord :: _ => exact leads_fixed of.2.1 _

/-- A name behind its modifiers. -/
theorem covers_marked {α : Type} {f : Modifiers → String → Parser α} {R : α → List Directive → Prop} {what name : String}
    {shapes : List Shape} (words : List ModifierWord)
    (h : Covers (f (ModifierWord.all words) name) shapes next fun a es => R a (.reserve name :: es)) :
    Covers (do
      let m ← modifiers {}
      let name ← expectName what
      write (.reserve name)
      f m name) (ModifierWord.shapes words ++ .identifier name :: shapes) next R := by
  refine (covers_modifiers words {}).bind (fun m ds eq => ?_) ((leads_identifier (by decide) shapes).joins next)
  obtain ⟨rfl, rfl⟩ := eq
  exact (yields_expectName name what).read (covers_written h)

/-! ## Elements -/

theorem covers_staticVariables (entries : List (Entry n)) (last : Entry n) :
    Covers (staticElement (parseGoal n)) (Element.staticVariables entries last).shapes next fun _ =>
      Resembles (Element.staticVariables entries last).directives := by
  refine yields_skip.read ((yields_accept .varWord).read (covers_members (fun e => ?_) leads_entry _ entries last))
  exact (yields_expectName _ _).read (covers_written ((covers_initializer e).last fun _ es h =>
    covers_write (.cons rfl (h.append (.single (.refl _) rfl)))))

theorem covers_staticMethod (words : List ModifierWord) (name : String)
    (body : Routine n .function name (ModifierWord.all words)) :
    Covers (staticElement (parseGoal n)) (Element.staticMethod words name body).shapes next fun _ =>
      Resembles (Element.staticMethod words name body).directives := by
  have other : Yields (accept .varWord) false [] [] (· ≠ .varWord) := yields_accept_not .varWord fun _ => id
  have method : Covers (do
      parseGoal n (.function .function name (ModifierWord.all words) [])
      write (.staticMember name)) body.shapes next
      fun _ es => Resembles (Element.staticMethod words name body).directives (.reserve name :: es) :=
    Covers.last ((covers_routine body []).before fun _ _ => trivial) fun _ es h =>
      covers_write (.cons rfl (h.append (.single (.refl _) rfl)))
  exact yields_skip.read (other.look (covers_marked words method) ((leads_marked (by decide) words name _).joins next))

theorem covers_typeList {what after : String} {use : Directive} {kind : TokenKind} (value : use.isValue = true)
    (names : List String) (last : String) : Covers (typeList what after use)
      (.fixed kind :: (commas (fun x => [.identifier x]) names last ++ [.fixed .semicolon])) next fun _ =>
      Resembles ((names ++ [last]).flatMap fun x => [.load x, use]) :=
  yields_skip.read (covers_members (fun x => (yields_expectName x _).read (covers_written (covers_write
    (.cons rfl (.single (.refl _) value))))) (fun _ => leads_identifier trivial []) _ names last)

theorem covers_ending (ending : Ending) {a : TypeBody} :
    Covers (do
      unless ← accept .comma do
        let _ ← accept .semicolon
      return a) ending.shapes (Follows · = true) fun r ds => r = a ∧ ds = [] := by
  have noComma {shapes : List Shape} (other : Joins (· ≠ .comma) (Follows · = true) shapes)
      (h : Covers (do
        let _ ← accept .semicolon
        return a) shapes (Follows · = true) fun r ds => r = a ∧ ds = []) :
      Covers (do
        unless ← accept .comma do
          let _ ← accept .semicolon
        return a) shapes (Follows · = true) fun r ds => r = a ∧ ds = [] := by
    have miss : Yields (accept .comma) false [] [] (· ≠ .comma) := yields_accept_not .comma fun _ => id
    exact miss.look h other
  cases ending with
  | comma => exact (yields_accept .comma).read (covers_pure ⟨rfl, rfl⟩)
  | semicolon => exact noComma (joins_fixed (by decide) [] _) ((yields_accept .semicolon).read (covers_pure ⟨rfl, rfl⟩))
  | none =>
    refine noComma (fun k here => (Follows.separate here).2.1) ?_
    exact (yields_accept_not .semicolon fun k here => (Follows.separate here).2.2.1).look (covers_pure ⟨rfl, rfl⟩)
      fun _ => id

theorem looks_leadingNumber (c : Cursor) : ∃ r, leadingNumber? c = .ok r c := by
  by_cases minus : c.current.kind = .minus
  · exact ⟨_, (congrFun (if_pos minus) c).trans rfl⟩
  · exact ⟨_, (congrFun (if_neg minus) c).trans rfl⟩

/-- An enum value, with what is known of the number at the start of its initializer. -/
theorem covers_countedValue {L : Option Number → Prop} (b : TypeBody) (entry : Entry n) (ending : Ending)
    (looks : ∀ v, entry.value = some v → ∀ c t rest, Spells (v.shapes ++ ending.shapes) (t :: rest) c.left →
      Follows t.kind = true → ∃ r, leadingNumber? c = .ok r c ∧ L r) :
    Covers (enumValueElement (parseGoal n) b) (Element.enumValue entry ending).shapes (Follows · = true)
      fun b' ds => (∃ r, (entry.value ≠ none → L r) ∧ b' = { b with counter := entry.counter r b.counter }) ∧
        entry.Values b.counter ds := by
  obtain ⟨name, value⟩ := entry
  have rest (k : Number) : Covers (do
      write (.enumValue name)
      unless ← accept .comma do
        let _ ← accept .semicolon
      return { b with counter := k }) ending.shapes (Follows · = true) fun b' ds =>
        b' = { b with counter := k } ∧ ds = [.enumValue name] :=
    covers_written ((covers_ending ending).mono fun _ _ h => ⟨h.1, by rw [h.2]⟩)
  have behind : Joins (Stops .assignment) (Follows · = true) ending.shapes := by
    cases ending with
    | none => exact fun _ here => (Follows.separate here).1
    | comma => exact joins_fixed stops_separator.1 [] _
    | semicolon => exact joins_fixed stops_separator.2 [] _
  refine (yields_expectName _ _).read (covers_written ?_)
  cases value with
  | none =>
    have miss : Yields (accept .equal) false [] [] (Stops .assignment) := yields_accept_not .equal fun _ => Stops.not_equal
    refine miss.look (covers_written ((rest _).mono fun _ _ h => ?_)) behind
    exact ⟨⟨none, (absurd rfl ·), h.1⟩, [_], by rw [h.2]; rfl, rfl⟩
  | some v =>
    have value (k : Number) : Covers (do
        expression (parseGoal n)
        write (.enumValue name)
        unless ← accept .comma do
          let _ ← accept .semicolon
        return { b with counter := k }) (v.shapes ++ ending.shapes) (Follows · = true) fun b' ds =>
          b' = { b with counter := k } ∧ (Entry.mk name (some v)).Values b.counter (.reserve name :: ds) := by
      refine (covers_value v).bind (fun _ es h => (rest k).mono fun _ _ h' => ⟨h'.1, es, ?_, h⟩) behind
      rw [h'.2]
    refine (yields_accept .equal).read fun c t more spells here => ?_
    obtain ⟨r, run, leading⟩ := looks v rfl c t more spells here
    obtain ⟨b', c', ds, run', left, writes, same, values⟩ :=
      value ((Entry.mk name (some v)).counter r b.counter) c t more spells here
    refine ⟨b', c', ds, (parser_bind run _).trans ?_, left, writes, ⟨r, fun _ => leading, same⟩, values⟩
    cases r <;> exact run'

theorem covers_enumValue (b : TypeBody) (entry : Entry n) (ending : Ending) :
    Covers (enumValueElement (parseGoal n) b) (Element.enumValue entry ending).shapes (Follows · = true)
      fun b' ds => (∃ k, b' = { b with counter := k }) ∧ Resembles (Element.enumValue entry ending).directives ds :=
  (covers_countedValue (L := fun _ => True) b entry ending fun _ _ c _ _ _ _ =>
    (looks_leadingNumber c).imp fun _ run => ⟨run, trivial⟩).mono fun _ _ ⟨⟨_, _, same⟩, values⟩ =>
      ⟨⟨_, same⟩, values.resembles ending⟩

/-! ### Fields -/

/-- A round of the loop of `varElement`. -/
def fieldRound (parse : Goal → Parser Unit) (b : TypeBody) : Parser (TypeBody × Bool) := do
  let name ← expectName "field name"
  if b.fields.contains name then failBefore (.duplicateField name b.name)
  write (.reserve name)
  write .receiver
  initializer parse
  write (.storeField name)
  return ({ b with fields := b.fields ++ [name] }, ← accept .comma)

theorem covers_field {b : TypeBody} {e : Entry n} {more : Bool} {shapes : List Shape} (fresh : e.name ∉ b.fields)
    (comma : Yields (accept .comma) more shapes [] next) (behind : Joins (Stops .assignment) next shapes) :
    Covers (fieldRound (parseGoal n) b) (e.shapes ++ shapes) next fun r ds =>
      r = ({ b with fields := b.fields ++ [e.name] }, more) ∧ Resembles (Element.fields [] e).directives ds := by
  refine (yields_expectName e.name _).read ?_
  rw [if_neg (by simpa using fresh)]
  refine covers_written (covers_written ((covers_initializer e).bind (fun _ es h => ?_) behind))
  refine covers_written ((comma.covers (Q := fun r ds => r = more ∧ ds = []) ⟨rfl, rfl⟩).last fun r ds eq => ?_)
  obtain ⟨rfl, rfl⟩ := eq
  have field : Resembles (.reserve e.name :: .receiver :: (e.directives ++ [.storeField e.name]))
      (.reserve e.name :: .receiver :: (es ++ [.storeField e.name])) :=
    .cons rfl (.cons rfl (h.append (.single (.refl _) rfl)))
  exact covers_pure ⟨rfl, by simpa [Element.directives] using field⟩

theorem refuses_field {b : TypeBody} {e : Entry n} (used : e.name ∈ b.fields) :
    Refuses (fieldRound (parseGoal n) b) [.identifier e.name] fun _ => True := by
  have name : Yields (expectName "field name") e.name [.identifier e.name] [] fun _ => True := yields_expectName _ _
  refine name.refuses ?_ (show Joins (fun _ => True) (fun _ => True) [] from fun _ => id)
  rw [if_pos (by simpa using used)]
  exact (refuses_failBefore _).bind _

theorem commas_split {α : Type} (shapes : α → List Shape) {members done todo : List α} {last x : α}
    (eq : members ++ [last] = done ++ x :: todo) :
    ∃ more, commas shapes members last = done.flatMap (fun x => shapes x ++ [.fixed .comma]) ++ (shapes x ++ more) := by
  unfold commas
  induction done generalizing members with
  | nil =>
    cases members with
    | nil =>
      obtain ⟨rfl, -⟩ := List.cons.inj eq
      exact ⟨[], (List.append_nil _).symm⟩
    | cons y members =>
      obtain ⟨rfl, -⟩ := List.cons.inj eq
      exact ⟨_, by rw [List.flatMap_cons, List.flatMap_nil, List.nil_append, List.append_assoc, List.append_assoc]⟩
  | cons y done ih =>
    cases members with
    | nil => simp at eq
    | cons z members =>
      obtain ⟨rfl, tail⟩ := List.cons.inj eq
      obtain ⟨more, same⟩ := ih tail
      refine ⟨more, ?_⟩
      rw [List.flatMap_cons, List.append_assoc, same, List.flatMap_cons]
      simp only [List.append_assoc]

/-- The first name that is not new. -/
theorem exists_repeated {known names : List String} (distinct : known.Nodup) (h : ¬(known ++ names).Nodup) :
    ∃ done x todo, names = done ++ x :: todo ∧ (known ++ done).Nodup ∧ x ∈ known ++ done := by
  induction names using List.reverseRecOn with
  | nil => exact absurd (by rwa [List.append_nil]) h
  | append_singleton names last ih =>
    by_cases good : (known ++ names).Nodup
    · refine ⟨names, last, [], rfl, good, ?_⟩
      by_contra fresh
      rw [← List.append_assoc] at h
      exact h (List.nodup_append_comm.mp (List.nodup_cons.mpr ⟨fresh, good⟩))
    · obtain ⟨done, x, todo, rfl, rest⟩ := ih good
      exact ⟨done, x, todo ++ [last], by simp, rest⟩

section Fields
variable {b : TypeBody} {entries done todo : List (Entry n)} {last e : Entry n} {ds : List Directive}

/-- The body in the middle of a list of fields. -/
def TypeBody.declaring (b : TypeBody) (done : List (Entry n)) : TypeBody :=
  { b.entering .var with fields := b.fields ++ done.map Entry.name }

theorem declaring_nil (b : TypeBody) : b.entering .var = b.declaring ([] : List (Entry n)) := by
  unfold TypeBody.declaring
  rw [List.map_nil, List.append_nil]
  rfl

theorem declaring_snoc (b : TypeBody) (done : List (Entry n)) (e : Entry n) : b.declaring (done ++ [e]) =
    { b.declaring done with fields := (b.declaring done).fields ++ [e.name] } := by
  unfold TypeBody.declaring
  rw [List.map_append, List.append_assoc]
  rfl

/-- One more field, if its name is new. -/
theorem covers_fieldLap {more : Bool} {shapes : List Shape}
    (distinct : (b.fields ++ (done ++ e :: todo).map Entry.name).Nodup)
    (spans : Spans (b.entering .var) (b.declaring done) (done.map fun e => Element.fields [] e) ds)
    (comma : Yields (accept .comma) more shapes [] next) (behind : Joins (Stops .assignment) next shapes) :
    Covers (fieldRound (parseGoal n) (b.declaring done)) (e.shapes ++ shapes) next fun r es =>
      r = (b.declaring (done ++ [e]), more) ∧
        Spans (b.entering .var) r.1 ((done ++ [e]).map fun e => Element.fields [] e) (ds ++ es) := by
  have fresh : e.name ∉ (b.declaring done).fields := by
    intro used
    rw [List.map_append, List.map_cons, ← List.append_assoc, List.nodup_append] at distinct
    exact distinct.2.2 _ used _ (.head _) rfl
  refine (covers_field fresh comma behind).mono fun r es h => ?_
  obtain ⟨rfl, gives⟩ := h
  rw [← declaring_snoc, List.map_append]
  refine ⟨rfl, spans.trans ?_⟩
  rw [declaring_snoc]
  exact spans_within (b := b.declaring done) (e := Element.fields [] e) gives

/-- Between the rounds of a list of fields. -/
def Declaring (b : TypeBody) (entries todo : List (Entry n)) (s : TypeBody) (ds : List Directive) : Prop :=
  ∃ done, done ++ todo = entries ∧ s = b.declaring done ∧
    Spans (b.entering .var) s (done.map fun e => Element.fields [] e) ds

theorem declaring_start (b : TypeBody) (entries : List (Entry n)) : Declaring b entries entries (b.entering .var) [] :=
  ⟨[], rfl, declaring_nil b, .refl _⟩

theorem covers_declaring {s : TypeBody} (distinct : (b.fields ++ entries.map Entry.name).Nodup)
    (h : Declaring b entries (e :: todo) s ds) : Covers (fieldRound (parseGoal n) s) (e.shapes ++ [.fixed .comma])
      (fun _ => True) fun r es => r.2 = true ∧ Declaring b entries todo r.1 (ds ++ es) := by
  obtain ⟨done, rfl, rfl, spans⟩ := h
  refine (covers_fieldLap distinct spans (yields_accept .comma) (joins_fixed stops_separator.1 [] _)).mono fun r es h => ?_
  obtain ⟨rfl, spans'⟩ := h
  exact ⟨rfl, done ++ [e], by rw [List.append_assoc, List.singleton_append], rfl, spans'⟩

theorem covers_fields (distinct : (b.fields ++ (entries ++ [last]).map Entry.name).Nodup) :
    Covers (varElement (parseGoal n) (b.entering .var)) (Element.fields entries last).shapes next fun b' ds =>
      b' = b.after (Element.fields entries last) ∧ Spans (b.entering .var) b' (Element.fields entries last).parts ds := by
  refine yields_skip.read ?_
  have before : (b.fields ++ entries.map Entry.name).Nodup := by
    rw [List.map_append, ← List.append_assoc] at distinct
    exact distinct.of_append_left
  have loop : Covers (repeatFrom (b.entering .var) (fieldRound (parseGoal n))) (commas Entry.shapes entries last)
      (· = .semicolon) fun b' ds => b' = b.declaring (entries ++ [last]) ∧
        Spans (b.entering .var) b' (Element.fields entries last).parts ds := by
    refine covers_repeatFrom (p := fun _ => True) (w := fun e => e.shapes ++ [.fixed .comma]) (Declaring b entries)
      (fun e es s ds h => covers_declaring before h) (fun e => (leads_entry e).append _) (joins_any _ _)
      (fun s ds ⟨done, eq, here, spans⟩ => ?_) (declaring_start b entries)
    subst here
    obtain rfl : done = entries := by rwa [List.append_nil] at eq
    have ends : Yields (accept .comma) false [] [] (· = .semicolon) := yields_accept_not .comma (by rintro _ rfl; decide)
    have lap := covers_fieldLap distinct spans ends (by rintro _ rfl; exact stops_separator.2)
    rw [List.append_nil] at lap
    refine lap.mono fun r fs h => ?_
    obtain ⟨rfl, spans'⟩ := h
    exact ⟨rfl, rfl, spans'⟩
  refine loop.bind (fun b' ds h => ?_) (joins_fixed (by rfl) [] _)
  obtain ⟨rfl, spans⟩ := h
  exact (yields_expect .semicolon _).read (covers_pure ⟨rfl, by rwa [List.append_nil]⟩)

/-- A name is declared twice. -/
theorem refuses_fields (known : b.fields.Nodup) (twice : ¬(b.fields ++ (entries ++ [last]).map Entry.name).Nodup) :
    Refuses (varElement (parseGoal n) (b.entering .var)) (Element.fields entries last).shapes next := by
  obtain ⟨names, x, more, eq, distinct, used⟩ := exists_repeated known twice
  obtain ⟨done, rest, split, rfl, tail⟩ := List.map_eq_append_iff.mp eq
  obtain ⟨e, todo, rfl, rfl, -⟩ := List.map_eq_cons_iff.mp tail
  obtain ⟨more, same⟩ := commas_split Entry.shapes split
  have loop : Refuses (repeatFrom (b.entering .var) (fieldRound (parseGoal n)))
      (commas Entry.shapes entries last ++ [.fixed .semicolon]) next := by
    rw [same, List.append_assoc]
    refine refuses_repeatFrom (p := fun _ => True) (w := fun e => e.shapes ++ [.fixed .comma]) (Declaring b done)
      (fun x es s ds h => covers_declaring distinct h) (fun e => (leads_entry e).append _) (joins_any _ _)
      (fun s ds ⟨before, eq, here, _⟩ => ?_) (declaring_start b done)
    subst here
    obtain rfl : before = done := by rwa [List.append_nil] at eq
    exact (refuses_field (e := e) used).ahead (joins_any _ _)
  have skipped : Yields advance () [.fixed .varWord] [] fun _ => True := yields_skip
  exact skipped.refuses (loop.bind _) (joins_any _ _)

end Fields

/-! ### Functions of instances -/

theorem covers_init {b : TypeBody} (free : b.hasInit = false) (body : Routine n .init "init" {}) :
    Covers (initElement (parseGoal n) b) (Element.init body).shapes next fun b' ds =>
      b' = { b with hasInit := true } ∧ (Element.init body).Gives ds := by
  refine yields_skip.read ?_
  rw [if_neg (by simp [free])]
  refine covers_written (Covers.last ((covers_routine body b.fields).before fun _ _ => trivial) fun _ es h => ?_)
  exact covers_written (covers_pure ⟨rfl, .reserve "init" :: es, h.cons rfl, rfl⟩)

theorem refuses_init {b : TypeBody} (taken : b.hasInit = true) (body : Routine n .init "init" {}) :
    Refuses (initElement (parseGoal n) b) (Element.init body).shapes next := by
  have skipped : Yields advance () [.fixed .initWord] [] fun _ => True := yields_skip
  refine skipped.refuses ?_ (joins_any _ _)
  rw [if_pos taken]
  exact (refuses_failBefore _).bind _

theorem covers_method (words : List ModifierWord) (name : String)
    (body : Routine n .method name (ModifierWord.all words)) :
    Covers (methodElement (parseGoal n)) (Element.method words name body).shapes next fun _ =>
      (Element.method words name body).Gives := by
  refine covers_marked (f := fun m name => do
    parseGoal n (.function .method name m [])
    write (.method name)) words ?_
  exact Covers.last ((covers_routine body []).before fun _ _ => trivial) fun _ es h =>
    covers_write ⟨.reserve name :: es, h.cons rfl, rfl⟩

/-- No function follows the name. -/
theorem refuses_method {shapes : List Shape} (name : String) (other : Joins (· ≠ .openParen) next shapes) :
    Refuses (methodElement (parseGoal n)) (.identifier name :: shapes) next := by
  refine (covers_modifiers [] {}).refuses (fun m ds _ => ?_) ((leads_identifier (by decide) shapes).joins next)
  have named : Yields (expectName "method name") name [.identifier name] [] fun _ => True := yields_expectName _ _
  exact named.refuses (((refuses_function n other).bind _).written) (joins_any _ _)

/-! ### The stage of an element -/

theorem leads_element (e : Element n) : Leads (fun k => Follows k = true ∧ k ≠ .closeBrace) e.shapes := by
  cases e with
  | staticVariables | staticMethod | mixins | signs | fields | init => exact leads_fixed (by decide) _
  | enumValue entry ending => exact leads_identifier (by decide) _
  | method words name body => exact leads_marked (by decide) words name _

/-- A name is taken for an enum value or for a method by the kind of the token behind it. -/
theorem peeks_identifier {policy : StagePolicy} {name : String} {shapes : List Shape} {p : TokenKind → Prop}
    {stage : Stage}
    (second : Joins p next shapes)
    (same : ∀ k, p k → (if policy.allows .enumValue && k ≠ .openParen then Stage.enumValue else .method) = stage) :
    Peeks (elementStage policy) stage (.identifier name :: shapes) next := by
  refine (peeks_currentKind ((leads_identifier (by rfl) shapes).joins next)).bind fun c t rest spells here => ?_
  obtain ⟨t₀, ts, left, -, more⟩ := spells_cons.mp spells
  obtain ⟨t₁, ts', rfl, kind⟩ := second.behind more here
  have peek : secondKind c = .ok t₁.kind c := by
    rw [show secondKind c = .ok ((c.ahead.head?.map (·.kind)).getD .eof) c from rfl, (List.cons.inj left).2]
    rfl
  refine (parser_bind peek _).trans ?_
  rw [← same _ kind]
  split <;> rfl

theorem joins_entry (entry : Entry n) (ending : Ending) :
    Joins (· ≠ .openParen) (Follows · = true) (entry.initial ++ ending.shapes) := by
  unfold Entry.initial
  cases entry.value with
  | some v => exact joins_fixed nofun _ _
  | none => cases ending with
    | none => exact fun _ here => (Follows.separate here).2.2.2
    | comma | semicolon => exact joins_fixed nofun _ _

theorem peeks_elementStage {policy : StagePolicy} (e : Element n)
    (taken : e.stage = .enumValue → policy.allows .enumValue = true) :
    Peeks (elementStage policy) e.stage e.shapes (Follows · = true) := by
  cases e with
  | staticVariables | staticMethod | mixins | signs | fields | init =>
    exact (peeks_currentKind (joins_fixed (by rfl) _ _)).bind (peeks_pure _)
  | enumValue entry ending =>
    refine peeks_identifier (joins_entry entry ending) fun k other => ?_
    rw [taken rfl]
    simp [other, Element.stage]
  | method words name body =>
    match words with
    | [] =>
      refine peeks_identifier (p := (· = .openParen)) (joins_fixed (by rfl) _ _) fun k here => ?_
      rw [here]
      simp [Element.stage]
    | .localWord :: _ | .pureWord :: _ => exact (peeks_currentKind (joins_fixed (by rfl) _ _)).bind (peeks_pure _)

/-! ### Any element -/

section Any
variable {b : TypeBody} {e : Element n}

theorem laid_recount {k : Number} {es : List (Element n)} {ds : List Directive}
    (h : Arranged { b with counter := k } es ds) : Arranged b es ds := by
  generalize same : { b with counter := k } = b' at h
  induction h generalizing b with
  | nil b' =>
    subst same
    exact .nil b
  | cons gives _ ih =>
    subst same
    exact .cons gives (ih rfl)

theorem spans_recount {b' : TypeBody} {k k' : Number} {es : List (Element n)} {ds : List Directive}
    (h : Spans { b with counter := k } { b' with counter := k' } es ds) : Spans b b' es ds :=
  fun ps fs arranged => laid_recount (h ps fs (laid_recount (k := b'.counter) arranged))

theorem TypeBody.Admits.tidy (admits : b.Admits e) : (b.after e).Tidy := ⟨rfl, admits.distinct⟩

/-- What one element leads to. -/
def Leaves (b : TypeBody) (e : Element n) (b' : TypeBody) (ds : List Directive) : Prop :=
  (∃ k, b' = { b.after e with counter := k }) ∧ Spans b (b.after e) e.parts ds

theorem leaves_single {inner : List Directive} (gives : e.Gives inner) (alone : e.parts = [e]) {b' : TypeBody}
    (same : ∃ k, b' = { b.after e with counter := k }) : Leaves b e b' (b.passing e.stage ++ inner) := by
  refine ⟨same, fun ps fs arranged => ?_⟩
  rw [alone, List.append_assoc]
  exact (spans_within gives ps fs arranged).entered

theorem after_eq (none : e.fieldNames = []) (b : TypeBody) :
    b.after e = { b.entering e.stage with hasInit := e.isInit || b.hasInit } := by
  unfold TypeBody.after
  rw [none, List.append_nil]
  rfl

/-- An element that changes nothing but the stage. -/
theorem covers_plain {x : Parser Unit} (h : Covers x e.shapes (Follows · = true) fun _ => e.Gives) (alone : e.parts = [e])
    (none : e.fieldNames = []) (other : e.isInit = false) :
    Covers (x >>= fun _ => pure (b.entering e.stage)) e.shapes (Follows · = true) fun b' ds =>
      Leaves b e b' (b.passing e.stage ++ ds) := by
  refine h.last fun _ ds gives => covers_pure ?_
  rw [List.append_nil]
  refine leaves_single gives alone ⟨b.counter, ?_⟩
  rw [after_eq none, other]
  rfl

theorem covers_typeElement (tidy : b.Tidy) (admits : b.Admits e) :
    Covers (typeElement (parseGoal n) b) e.shapes (Follows · = true) (Leaves b e) := by
  refine (peeks_elementStage e fun stage => stage ▸ admits.allowed).covers ?_
  have enter : Covers (enterStage b e.stage) [] (fun _ => True) fun b' ds =>
      b' = b.entering e.stage ∧ ds = b.passing e.stage :=
    covers_enterStage tidy admits.allowed admits.order
  refine enter.bind (fun b' ds h => ?_) (joins_any _ _)
  obtain ⟨rfl, rfl⟩ := h
  cases e with
  | staticVariables entries last => exact covers_plain (covers_staticVariables entries last) rfl rfl rfl
  | staticMethod words name body => exact covers_plain (covers_staticMethod words name body) rfl rfl rfl
  | mixins names last => exact covers_plain (e := .mixins names last) (covers_typeList rfl names last) rfl rfl rfl
  | signs names last => exact covers_plain (e := .signs names last) (covers_typeList rfl names last) rfl rfl rfl
  | enumValue entry ending =>
    refine (covers_enumValue _ entry ending).mono fun b' ds ⟨⟨k, same⟩, gives⟩ =>
      leaves_single (e := .enumValue entry ending) gives rfl ⟨k, ?_⟩
    rw [same, after_eq rfl]
    rfl
  | fields entries last =>
    refine (covers_fields admits.distinct).mono fun b' ds ⟨same, spans⟩ => ⟨⟨b.counter, same⟩, fun ps fs arranged => ?_⟩
    subst same
    obtain ⟨x, rest, parts⟩ : ∃ x rest, (Element.fields entries last).parts = .fields [] x :: rest := by
      cases entries <;> exact ⟨_, _, rfl⟩
    replace arranged := spans ps fs arranged
    rw [parts] at arranged ⊢
    rw [List.append_assoc]
    exact Arranged.entered (e := .fields [] x) arranged
  | init body =>
    refine (covers_init (b := b.entering .init) (admits.single rfl) body).mono fun b' ds ⟨same, gives⟩ =>
      leaves_single gives rfl ⟨b.counter, ?_⟩
    rw [same, after_eq rfl]
    rfl
  | method words name body => exact covers_plain (covers_method words name body) rfl rfl rfl

/-- Where there are no enum values, one looks like a method without parameters. -/
theorem refuses_strayValue (tidy : b.Tidy) (entry : Entry n) (ending : Ending)
    (stray : b.policy.allows .enumValue = false) :
    Refuses (typeElement (parseGoal n) b) (Element.enumValue entry ending).shapes (Follows · = true) := by
  have method : Peeks (elementStage b.policy) .method (Element.enumValue entry ending).shapes (Follows · = true) :=
    peeks_identifier (joins_entry entry ending) fun k _ => by rw [stray]; rfl
  refine method.refuses ?_
  by_cases allowed : b.policy.allows .method = true ∧ b.stage.rank ≤ Stage.method.rank
  · have enter : Covers (enterStage b .method) [] (fun _ => True) fun _ _ => True :=
      (covers_enterStage tidy allowed.1 allowed.2).mono fun _ _ _ => trivial
    exact enter.refuses (fun b' ds _ => (refuses_method entry.name (joins_entry entry ending)).bind _) (joins_any _ _)
  · exact (refuses_enterStage fun a o => allowed ⟨a, o⟩).bind _

theorem refuses_typeElement (tidy : b.Tidy) (bars : ¬b.Admits e) :
    Refuses (typeElement (parseGoal n) b) e.shapes (Follows · = true) := by
  by_cases taken : e.stage = .enumValue → b.policy.allows .enumValue = true
  swap
  · cases e with
    | enumValue entry ending => exact refuses_strayValue tidy entry ending (by simpa [Element.stage] using taken)
    | _ => exact absurd nofun taken
  refine (peeks_elementStage e taken).refuses ?_
  by_cases allowed : b.policy.allows e.stage = true ∧ b.stage.rank ≤ e.stage.rank
  swap
  · exact (refuses_enterStage fun a o => allowed ⟨a, o⟩).bind _
  have enter : Covers (enterStage b e.stage) [] (fun _ => True) fun b' ds =>
      b' = b.entering e.stage ∧ ds = b.passing e.stage :=
    covers_enterStage tidy allowed.1 allowed.2
  refine enter.refuses (fun b' ds h => ?_) (joins_any _ _)
  obtain ⟨rfl, rfl⟩ := h
  have fault : ¬(b.fields ++ e.fieldNames).Nodup ∨ ¬(e.isInit = true → b.hasInit = false) := by
    by_contra none
    rw [not_or, not_not, not_not] at none
    exact bars ⟨allowed.1, allowed.2, none.1, none.2⟩
  have distinct (none : e.fieldNames = []) : (b.fields ++ e.fieldNames).Nodup := by
    rw [none, List.append_nil]
    exact tidy.distinct
  cases e with
  | fields entries last => exact refuses_fields tidy.distinct (fault.resolve_right fun h => h nofun)
  | init body =>
    have twice := fault.resolve_left (not_not.mpr (distinct rfl))
    rw [Classical.not_imp, Bool.not_eq_false] at twice
    exact refuses_init (b := b.entering .init) twice.2 body
  | _ => exact (fault.elim (absurd (distinct rfl)) fun h => h nofun).elim

end Any

/-! ### All elements -/

/-- One element after the other may be the next one. -/
def TypeBody.AdmitsAll (b : TypeBody) : List (Element n) → Prop
  | [] => True
  | e :: es => b.Admits e ∧ (b.after e).AdmitsAll es

def TypeBody.afterAll (b : TypeBody) (es : List (Element n)) : TypeBody := es.foldl TypeBody.after b

section All
variable {b s : TypeBody} {e : Element n} {es todo : List (Element n)} {ds : List Directive}

theorem admitsAll_append {es' : List (Element n)} :
    b.AdmitsAll (es ++ es') ↔ b.AdmitsAll es ∧ (b.afterAll es).AdmitsAll es' := by
  induction es generalizing b with
  | nil => exact (and_iff_right trivial).symm
  | cons e es ih => exact (and_congr_right fun _ => ih).trans and_assoc.symm

theorem TypeBody.Tidy.afterAll (tidy : b.Tidy) (admits : b.AdmitsAll es) : (b.afterAll es).Tidy := by
  induction es generalizing b with
  | nil => exact tidy
  | cons e es ih => exact ih admits.1.tidy admits.2

theorem exists_barred (h : ¬b.AdmitsAll es) :
    ∃ done e todo, es = done ++ e :: todo ∧ b.AdmitsAll done ∧ ¬(b.afterAll done).Admits e := by
  induction es generalizing b with
  | nil => exact absurd trivial h
  | cons e es ih =>
    by_cases first : b.Admits e
    · obtain ⟨done, x, todo, rfl, admits, bars⟩ := ih fun rest => h ⟨first, rest⟩
      exact ⟨e :: done, x, todo, rfl, ⟨first, admits⟩, bars⟩
    · exact ⟨[], e, es, rfl, trivial, first⟩

theorem admitsAll_iff (known : b.fields.Nodup) : b.AdmitsAll es ↔
    (∀ e ∈ es, b.policy.allows e.stage = true) ∧ (∀ e ∈ es, b.stage.rank ≤ e.stage.rank) ∧
      es.Pairwise (fun e e' => e.stage.rank ≤ e'.stage.rank) ∧ (b.fields ++ es.flatMap Element.fieldNames).Nodup ∧
      es.countP Element.isInit + b.hasInit.toNat ≤ 1 := by
  induction es generalizing b with
  | nil =>
    refine (iff_true_intro trivial).trans (iff_of_true trivial ⟨nofun, nofun, .nil, by simpa using known, ?_⟩)
    rw [List.countP_nil, Nat.zero_add]
    exact b.hasInit.toNat_le
  | cons e es ih =>
    have fields : b.fields ++ (e :: es).flatMap Element.fieldNames =
        (b.after e).fields ++ es.flatMap Element.fieldNames := by
      rw [List.flatMap_cons, ← List.append_assoc]
      rfl
    have inits (single : e.isInit = true → b.hasInit = false) : (e :: es).countP Element.isInit + b.hasInit.toNat =
        es.countP Element.isInit + (b.after e).hasInit.toNat := by
      unfold TypeBody.after
      rw [List.countP_cons]
      cases h : e.isInit with
      | false => simp
      | true => simp [single h]
    rw [fields]
    constructor
    · rintro ⟨first, rest⟩
      obtain ⟨allowed, order, sorted, distinct, single⟩ := (ih first.distinct).mp rest
      refine ⟨List.forall_mem_cons.mpr ⟨first.allowed, allowed⟩, List.forall_mem_cons.mpr ⟨first.order, fun x mem => ?_⟩,
        List.pairwise_cons.mpr ⟨order, sorted⟩, distinct, by rwa [inits first.single]⟩
      exact first.order.trans (order x mem)
    · rintro ⟨allowed, order, sorted, distinct, single⟩
      have first : b.Admits e := by
        refine ⟨allowed e (.head _), order e (.head _), distinct.of_append_left, fun init => ?_⟩
        rw [List.countP_cons, if_pos init] at single
        cases h : b.hasInit with
        | false => rfl
        | true =>
          rw [h] at single
          exact absurd single (by simp)
      refine ⟨first, (ih first.distinct).mpr ⟨fun x mem => allowed x (.tail _ mem), (List.pairwise_cons.mp sorted).1,
        (List.pairwise_cons.mp sorted).2, distinct, by rwa [← inits first.single]⟩⟩

/-- A round of the loop of `typeDeclaration`. -/
def bodyRound (parse : Goal → Parser Unit) (b : TypeBody) : Parser (TypeBody × Bool) := do
  let kind ← currentKind
  if kind = .closeBrace ∨ kind = .eof then return (b, false)
  return (← typeElement parse b, true)

/-- Between the rounds. -/
def Reached (b : TypeBody) (es todo : List (Element n)) (s : TypeBody) (ds : List Directive) : Prop :=
  ∃ done k, done ++ todo = es ∧ s = { b.afterAll done with counter := k } ∧
    Spans b (b.afterAll done) (done.flatMap Element.parts) ds

theorem reached_start (b : TypeBody) (es : List (Element n)) : Reached b es es b [] := ⟨[], b.counter, rfl, rfl, .refl b⟩

theorem joins_elements (es : List (Element n)) :
    Joins (Follows · = true) (· = .closeBrace) (es.flatMap Element.shapes) := by
  cases es with
  | nil =>
    rintro _ rfl
    rfl
  | cons e es => exact (((leads_element e).mono fun _ here => here.1).append _).joins _

theorem element_kind {k : TokenKind} (h : Follows k = true ∧ k ≠ .closeBrace) : ¬(k = .closeBrace ∨ k = .eof) := by
  rintro (rfl | rfl)
  · exact h.2 rfl
  · cases h.1

theorem covers_reached (tidy : b.Tidy) (admits : b.AdmitsAll es) (h : Reached b es (e :: todo) s ds) :
    Covers (bodyRound (parseGoal n) s) e.shapes (Follows · = true) fun r fs =>
      r.2 = true ∧ Reached b es todo r.1 (ds ++ fs) := by
  obtain ⟨done, k, rfl, rfl, spans⟩ := h
  obtain ⟨before, here⟩ := admitsAll_append.mp admits
  refine covers_currentKind ((leads_element e).joins _) fun kind only => ?_
  rw [if_neg (element_kind only)]
  have tidy' := tidy.afterAll before
  refine (covers_typeElement (b := { b.afterAll done with counter := k }) ⟨tidy'.chain, tidy'.distinct⟩
    ⟨here.1.allowed, here.1.order, here.1.distinct, here.1.single⟩).last fun b' fs ⟨⟨k', same⟩, spans'⟩ => covers_pure ?_
  have more : b.afterAll (done ++ [e]) = (b.afterAll done).after e := List.foldl_append
  refine ⟨rfl, done ++ [e], k', by rw [List.append_assoc, List.singleton_append], by rw [more]; exact same, ?_⟩
  rw [more, List.append_nil, List.flatMap_append, List.flatMap_singleton]
  exact spans.trans (spans_recount spans')

theorem covers_body (tidy : b.Tidy) (admits : b.AdmitsAll es) :
    Covers (repeatFrom b (bodyRound (parseGoal n))) (es.flatMap Element.shapes) (· = .closeBrace) fun b' ds =>
      Arranged b (es.flatMap Element.parts) (ds ++ b'.closing) := by
  have stop (s : TypeBody) (ds : List Directive) (h : Reached b es [] s ds) :
      Covers (bodyRound (parseGoal n) s) [] (· = .closeBrace) fun r fs =>
        r.2 = false ∧ Arranged b (es.flatMap Element.parts) (ds ++ fs ++ r.1.closing) := by
    refine covers_currentKind (p := (· = .closeBrace)) (fun _ here => here) fun kind only => ?_
    rw [if_pos (.inl only)]
    obtain ⟨done, k, eq, rfl, spans⟩ := h
    obtain rfl : done = es := by rwa [List.append_nil] at eq
    refine covers_pure ⟨rfl, ?_⟩
    have arranged := spans [] _ (.nil _)
    rw [List.append_nil] at arranged ⊢
    exact arranged
  have ends : Joins (Follows · = true) (· = .closeBrace) [] := joins_elements ([] : List (Element n))
  have loop := covers_repeatFrom
    (Q := fun b' ds => Arranged b (es.flatMap Element.parts) (ds ++ b'.closing)) (Reached b es)
    (fun e todo s ds h => covers_reached tidy admits h) (fun e => (leads_element e).mono fun _ here => here.1)
    ends stop (reached_start b es)
  rwa [List.append_nil] at loop

theorem refuses_body (tidy : b.Tidy) (bars : ¬b.AdmitsAll es) :
    Refuses (repeatFrom b (bodyRound (parseGoal n))) (es.flatMap Element.shapes) (· = .closeBrace) := by
  obtain ⟨done, e, todo, rfl, before, here⟩ := exists_barred bars
  rw [List.flatMap_append, List.flatMap_cons]
  refine refuses_repeatFrom (Reached b done) (fun e todo s ds h => covers_reached tidy before h)
    (fun e => (leads_element e).mono fun _ here => here.1) (joins_elements (e :: todo)) (fun s ds h => ?_)
    (reached_start b done)
  obtain ⟨_, k, eq, rfl, -⟩ := h
  rw [List.append_nil] at eq
  subst eq
  refine Refuses.ahead (refuses_currentKind ((leads_element e).joins _) fun kind only => ?_) (joins_elements todo)
  rw [if_neg (element_kind only)]
  have tidy' := tidy.afterAll before
  refine (refuses_typeElement (b := { b.afterAll _ with counter := k })
    ⟨tidy'.chain, tidy'.distinct⟩ fun admits => ?_).bind _
  exact here ⟨admits.allowed, admits.order, admits.distinct, admits.single⟩

end All

/-! ## Declarations -/

section Declarations
variable {kind : TypeKind} {name : String} {es : List (Element n)}

/-- Ahead of the first element. -/
def TypeBody.start (kind : TypeKind) (name : String) : TypeBody := { name := name, policy := kind.policy }

theorem tidy_start (kind : TypeKind) (name : String) : (TypeBody.start kind name).Tidy := ⟨rfl, .nil⟩

theorem ordered_iff : Ordered kind.policy es ↔ (TypeBody.start kind name).AdmitsAll es := by
  rw [admitsAll_iff (tidy_start kind name).distinct]
  constructor
  · rintro ⟨allowed, sorted, distinct, single⟩
    exact ⟨allowed, fun _ _ => Nat.zero_le _, sorted, distinct, single⟩
  · rintro ⟨allowed, -, sorted, distinct, single⟩
    exact ⟨allowed, sorted, distinct, single⟩

/-- What a declaration does behind its name. -/
def declarationBody (parse : Goal → Parser Unit) (kind : TypeKind) (name : String) : Parser Unit := do
  write (.beginType kind name)
  supertype name kind
  write (.load name)
  expect .openBrace "'\x7b' before type body"
  let b ← repeatFrom (TypeBody.start kind name) (bodyRound parse)
  expect .closeBrace "'\x7d' after type body"
  let _ ← closeInitChain b
  write .endType

theorem typeDeclaration_eq (parse : Goal → Parser Unit) (kind : TypeKind) : typeDeclaration parse kind.policy =
    (expectName "type name" >>= fun name => declarationBody parse kind name) := by cases kind <;> rfl

theorem declarationRule_word (parse : Goal → Parser Unit) (kind : TypeKind) :
    declarationRule? parse kind.word = some (typeDeclaration parse kind.policy) := by cases kind <;> rfl

theorem refuses_declarationBody (unordered : ¬Ordered kind.policy es) :
    Refuses (declarationBody (parseGoal n) kind name)
      (.fixed .openBrace :: (es.flatMap Element.shapes ++ [.fixed .closeBrace])) next := by
  have single : Yields (supertype name kind) () [] [] (· = .openBrace) :=
    (yields_accept_not .less (by rintro _ rfl; decide)).quiet yields_pure
  have body := refuses_body (tidy_start kind name) (unordered ∘ ordered_iff.mpr)
  have brace : Yields (expect .openBrace "'\x7b' before type body") () [.fixed .openBrace] [] fun _ => True :=
    yields_expect _ _
  refine Refuses.written (single.refuses (Refuses.written (brace.refuses ?_ (joins_any _ _))) (joins_fixed (by rfl) _ _))
  exact (body.ahead (joins_fixed (by rfl) _ _)).bind _

/-- A declaration is read around its body. -/
theorem covers_declared {R : List Directive → Prop}
    (body : Covers (repeatFrom (.start kind name) (bodyRound (parseGoal n))) (es.flatMap Element.shapes) (· = .closeBrace)
      fun b ds => R (ds ++ b.closing)) :
    Covers (parseGoal (n + 1) .declaration) (declarationShapes kind name es) next fun _ ds =>
      ∃ inner, ds = .beginType kind name :: .load name :: (inner ++ [.endType]) ∧ R inner := by
  have word : Peeks currentKind kind.word (declarationShapes kind name es) next :=
    peeks_currentKind (joins_fixed (by rfl) _ _)
  have single : Yields (supertype name kind) () [] [] (· = .openBrace) :=
    (yields_accept_not .less (by rintro _ rfl; decide)).quiet yields_pure
  refine word.covers ?_
  rw [declarationRule_word, typeDeclaration_eq]
  refine yields_skip.read ((yields_expectName _ _).read ?_)
  refine covers_written (single.look (covers_written ((yields_expect .openBrace _).read ?_)) (joins_fixed (by rfl) _ _))
  refine body.bind (fun b ds inner => ?_) (joins_fixed (by rfl) _ _)
  refine (yields_expect .closeBrace _).read ((covers_closeInitChain b).last fun _ es closes => ?_)
  refine covers_write ⟨ds ++ b.closing, ?_, inner⟩
  rw [closes.2, List.append_assoc]

/-- The declaration of a body in order is read, and its directives are arranged. -/
theorem covers_declaration (ordered : Ordered kind.policy es) :
    Covers (parseGoal (n + 1) .declaration) (declarationShapes kind name es) next fun _ ds =>
      ∃ inner, ds = .beginType kind name :: .load name :: (inner ++ [.endType]) ∧
        Arranged (.start kind name) (es.flatMap Element.parts) inner :=
  covers_declared (covers_body (tidy_start kind name) (ordered_iff.mp ordered))

theorem refuses_declaration (unordered : ¬Ordered kind.policy es) :
    Refuses (parseGoal (n + 1) .declaration) (declarationShapes kind name es) next := by
  have word : Peeks currentKind kind.word (declarationShapes kind name es) next :=
    peeks_currentKind (joins_fixed (by rfl) _ _)
  refine word.refuses ?_
  rw [declarationRule_word, typeDeclaration_eq]
  have skipped : Yields advance () [.fixed kind.word] [] fun _ => True := yields_skip
  have named : Yields (expectName "type name") name [.identifier name] [] fun _ => True := yields_expectName _ _
  exact skipped.refuses (named.refuses (refuses_declarationBody unordered) (joins_any _ _)) (joins_any _ _)

end Declarations

end Parts

end Grammar
end ScriptEngine
