import ScriptEngine.Proofs.Staging
import ScriptEngine.Proofs.MovingPrograms

/-!
# The numbers of enum values

An enum value without an initializer has the value of a counter. The counter goes up by one
behind such a value, it is set behind an initializer that begins with a number, and it stays
as it is behind any other (`Element.counts`). Whether an initializer begins with a number is
read off its first two tokens, before it is known where it ends.
-/
namespace ScriptEngine

open Grammar

/-! ## Numbers at the start of an expression -/

/-- The number that a token of this shape is, with a sign. -/
def Shape.signed? (sign : Int) : Shape → Option Number
  | .number n => some (Number.mul (.ofInt sign) n)
  | _ => none

/-- The number that an expression begins with, behind a minus or without one. -/
def leading? : List Shape → Option Number
  | .fixed .minus :: shapes => shapes.head?.bind (Shape.signed? (-1))
  | shapes => shapes.head?.bind (Shape.signed? 1)

namespace Grammar
variable {n : Nat} {shapes : List Shape} {t : Token} {tokens rest : List Token}

theorem signed?_of {s : Shape} (of : s.Of t) (plain : s ≠ .fixed .number) (sign : Int) :
    signed? sign t.content = s.signed? sign := by
  rw [signed?_content]
  cases s with
  | fixed kind =>
    have other : t.kind ≠ .number := fun is => plain (by rw [← is, show t.kind = kind from of])
    split
    · exact absurd ‹t.kind = _› other
    · rfl
  | number value => rw [of.1, of.2]; rfl
  | string value => rw [of.1]; rfl
  | identifier name => rw [of.1]; rfl
  | member name => obtain h | h := of.1 <;> rw [h] <;> rfl

/-- The next token is a signed number if the first shape is, and the one behind the shapes is none. -/
theorem signed?_head (spells : Spells shapes (t :: rest) tokens) (plain : .fixed .number ∉ shapes)
    (here : t.kind ≠ .number) (sign : Int) :
    (tokens.head?.map Token.content).bind (signed? sign) = shapes.head?.bind (Shape.signed? sign) := by
  cases shapes with
  | nil =>
    rw [spells_nil.mp spells]
    exact signed?_of (s := .fixed t.kind) rfl (fun h => here (Shape.fixed.inj h)) sign
  | cons s shapes =>
    obtain ⟨t', rest', rfl, of, -⟩ := spells_cons.mp spells
    exact signed?_of of (fun h => plain (by rw [h]; exact .head _)) sign

/-- The shapes of an expression alone decide, as no number and no minus stands behind it. -/
theorem peeks_leadingNumber (plain : .fixed .number ∉ shapes) :
    Peeks leadingNumber? (leading? shapes) shapes fun k => k ≠ .number ∧ k ≠ .minus := by
  intro c t rest spells ⟨number, minus⟩
  rw [leadingNumber_eq]
  congr 1
  cases shapes with
  | nil =>
    have current : c.current = t := (List.cons.inj (spells_nil.mp spells)).1
    rw [if_neg (by rwa [current])]
    exact signed?_head spells plain number 1
  | cons s more =>
    obtain ⟨t', rest', left, of, behind⟩ := spells_cons.mp spells
    obtain ⟨rfl, rfl⟩ := List.cons.inj left
    by_cases sign : s = .fixed .minus
    · subst sign
      rw [if_pos (show c.current.kind = .minus from of)]
      exact signed?_head behind (fun mem => plain (.tail _ mem)) number (-1)
    · have other : c.current.kind ≠ .minus := by
        cases s with
        | fixed kind => exact fun is => sign (by rw [← is, show c.current.kind = kind from of])
        | number | string | identifier => rw [of.1]; decide
        | member => obtain h | h := of.1 <;> rw [h] <;> decide
      rw [if_neg other]
      refine (signed?_head spells plain number 1).trans ?_
      unfold leading?
      split
      · rename_i eq
        exact absurd (List.cons.inj eq).1 sign
      · rfl

end Grammar

/-! ## Counting -/

namespace Element
variable {n : Nat}

/-- Numbers in the first values are given with what they are. -/
def Plain (e : Element n) : Prop :=
  match e with
  | enumValue entry _ => ∀ v, entry.value = some v → .fixed .number ∉ v.shapes
  | _ => True

/-- An enum value without an initializer. -/
def isBare : Element n → Bool
  | enumValue entry _ => entry.value.isNone
  | _ => false

/-- The number that the initializer of an enum value begins with. -/
def leading? : Element n → Option Number
  | enumValue entry _ => entry.value.bind fun v => ScriptEngine.leading? v.shapes
  | _ => none

/-- The counter behind an element. -/
def counts (k : Number) (e : Element n) : Number :=
  match e with
  | enumValue entry _ => entry.counter e.leading? k
  | _ => k

/-- The element writes these directives where the counter is `k`. -/
def Counted (k : Number) (e : Element n) (ds : List Directive) : Prop :=
  match e with
  | enumValue entry _ => entry.Values k ds
  | e => e.Gives ds

theorem Counted.gives {k : Number} {e : Element n} {ds : List Directive} (h : e.Counted k ds) : e.Gives ds := by
  cases e with
  | enumValue entry ending => exact Entry.Values.resembles h ending
  | _ => exact h

end Element

/-- The counter behind the elements of a body. -/
def numbering {n : Nat} (es : List (Element n)) : Number := es.foldl Element.counts .zero

/-- The directives of the elements of a body, each with the counter behind those before it. -/
inductive Numbered {n : Nat} : List (Element n) → List Directive → Prop
  | nil : Numbered [] []
  | snoc {es : List (Element n)} {e : Element n} {ds inner : List Directive} (before : Numbered es ds)
        (counted : e.Counted (numbering es) inner) : Numbered (es ++ [e]) (ds ++ inner)

/-! ## Reading an enum -/

namespace Grammar
variable {n : Nat} {b s : TypeBody} {e : Element n} {es todo : List (Element n)} {ds : List Directive}

/-- What one element of an enum leads to. -/
def Counts (b : TypeBody) (e : Element n) (b' : TypeBody) (ds : List Directive) : Prop :=
  b' = { b.after e with counter := Element.counts b.counter e } ∧ e.Counted b.counter ds

/-- An element that leaves the counter as it is. -/
theorem covers_uncounted {x : Parser Unit} (h : Covers x e.shapes (Follows · = true) fun _ => e.Counted b.counter)
    (none : e.fieldNames = []) (other : e.isInit = false) (keeps : Element.counts b.counter e = b.counter) :
    Covers (x >>= fun _ => pure (b.entering e.stage)) e.shapes (Follows · = true) (Counts b e) := by
  refine h.last fun _ ds counted => covers_pure ⟨?_, by rwa [List.append_nil]⟩
  rw [after_eq none, other, keeps]
  rfl

theorem covers_countedElement (enum : b.policy = .enumPolicy) (tidy : b.Tidy) (other : b.stage ≠ .var)
    (admits : b.Admits e) (plain : e.Plain) :
    Covers (typeElement (parseGoal n) b) e.shapes (Follows · = true) (Counts b e) := by
  have allowed := admits.allowed
  rw [enum] at allowed
  have nothing : b.passing e.stage = [] := by
    have field : e.stage ≠ .var := fun h => by rw [h] at allowed; cases allowed
    simp [TypeBody.passing, other, field]
  refine (peeks_elementStage e fun stage => stage ▸ admits.allowed).covers ?_
  have enter : Covers (enterStage b e.stage) [] (fun _ => True) fun b' ds =>
      b' = b.entering e.stage ∧ ds = b.passing e.stage :=
    covers_enterStage tidy admits.allowed admits.order
  refine enter.bind (fun b' ds h => ?_) (joins_any _ _)
  obtain ⟨rfl, rfl⟩ := h
  rw [nothing]
  cases e with
  | staticVariables entries last => exact covers_uncounted (covers_staticVariables entries last) rfl rfl rfl
  | staticMethod words name body => exact covers_uncounted (covers_staticMethod words name body) rfl rfl rfl
  | method words name body => exact covers_uncounted (covers_method words name body) rfl rfl rfl
  | enumValue entry ending =>
    have apart : Joins (fun k => k ≠ .number ∧ k ≠ .minus) (Follows · = true) ending.shapes := by
      cases ending with
      | none => exact fun k here => by constructor <;> rintro rfl <;> cases here
      | comma | semicolon => exact joins_fixed (by decide) [] _
    have looks (v : Expression n) (known : entry.value = some v) : Peeks leadingNumber?
        (Element.enumValue entry ending).leading? (v.shapes ++ ending.shapes) (Follows · = true) := by
      have peeks := (peeks_leadingNumber (plain v known)).ahead apart
      rwa [show (Element.enumValue entry ending).leading? = leading? v.shapes by simp [Element.leading?, known]]
    refine (covers_countedValue (L := (· = (Element.enumValue entry ending).leading?)) (b.entering .enumValue) entry
      ending fun v known c t rest spells here => ⟨_, looks v known c t rest spells here, rfl⟩).mono ?_
    rintro b' ds ⟨⟨r, leads, rfl⟩, values⟩
    refine ⟨?_, values⟩
    have counter : entry.counter r b.counter = Element.counts b.counter (.enumValue entry ending) := by
      cases known : entry.value with
      | none => simp [Element.counts, Entry.counter, known]
      | some v =>
        rw [leads (by simp [known])]
        rfl
    rw [after_eq rfl, ← counter]
    rfl
  | mixins | signs | fields | init => cases allowed

theorem numbering_snoc (es : List (Element n)) (e : Element n) :
    numbering (es ++ [e]) = Element.counts (numbering es) e := by
  unfold numbering
  rw [List.foldl_append, List.foldl_cons, List.foldl_nil]

theorem afterAll_policy (b : TypeBody) (es : List (Element n)) : (b.afterAll es).policy = b.policy := by
  induction es generalizing b with
  | nil => rfl
  | cons e es ih => exact ih (b.after e)

theorem afterAll_stage (other : b.stage ≠ .var) (none : ∀ e ∈ es, e.stage ≠ .var) : (b.afterAll es).stage ≠ .var := by
  induction es generalizing b with
  | nil => exact other
  | cons e es ih => exact ih (none e (.head _)) fun x mem => none x (.tail _ mem)

/-- An enum declares no fields. -/
theorem ordered_stage (ordered : Ordered TypeKind.enumKind.policy es) : ∀ e ∈ es, e.stage ≠ .var := fun e mem is => by
  have allowed := ordered.allowed e mem
  rw [is] at allowed
  cases allowed

/-- Between the rounds. -/
def Tallied (name : String) (es todo : List (Element n)) (s : TypeBody) (ds : List Directive) : Prop :=
  ∃ done, done ++ todo = es ∧ s = { (TypeBody.start .enumKind name).afterAll done with counter := numbering done } ∧
    Numbered done ds

section Body
variable {name : String} (ordered : Ordered TypeKind.enumKind.policy es) (plain : ∀ e ∈ es, e.Plain)
include ordered plain

theorem covers_tallied (h : Tallied name es (e :: todo) s ds) :
    Covers (bodyRound (parseGoal n) s) e.shapes (Follows · = true) fun r fs =>
      r.2 = true ∧ Tallied name es todo r.1 (ds ++ fs) := by
  obtain ⟨done, rfl, rfl, numbered⟩ := h
  have admits : (TypeBody.start .enumKind name).AdmitsAll (done ++ e :: todo) := ordered_iff.mp ordered
  obtain ⟨before, here⟩ := admitsAll_append.mp admits
  refine covers_currentKind ((leads_element e).joins _) fun kind only => ?_
  rw [if_neg (element_kind only)]
  have tidy := (tidy_start .enumKind name).afterAll before
  have stage : ((TypeBody.start .enumKind name).afterAll done).stage ≠ .var :=
    afterAll_stage nofun fun e mem => ordered_stage ordered e (List.mem_append_left _ mem)
  refine (covers_countedElement (b := { (TypeBody.start .enumKind name).afterAll done with counter := numbering done })
    (afterAll_policy _ done) ⟨tidy.chain, tidy.distinct⟩ stage
    ⟨here.1.allowed, here.1.order, here.1.distinct, here.1.single⟩ (plain e (by simp))).last
    fun b' fs ⟨same, counted⟩ => covers_pure ⟨rfl, done ++ [e], ?_, ?_, ?_⟩
  · rw [List.append_assoc, List.singleton_append]
  · rw [same, numbering_snoc, TypeBody.afterAll, TypeBody.afterAll, List.foldl_append]
    rfl
  · rw [List.append_nil]
    exact numbered.snoc counted

theorem covers_enumBody : Covers (repeatFrom (.start .enumKind name) (bodyRound (parseGoal n)))
    (es.flatMap Element.shapes) (· = .closeBrace) fun b ds => b.chainOpen = false ∧ Numbered es ds := by
  have tidy := (tidy_start .enumKind name).afterAll (ordered_iff.mp ordered)
  have stop (s : TypeBody) (ds : List Directive) (h : Tallied name es [] s ds) :
      Covers (bodyRound (parseGoal n) s) [] (· = .closeBrace) fun r fs =>
        r.2 = false ∧ r.1.chainOpen = false ∧ Numbered es (ds ++ fs) := by
    refine covers_currentKind (p := (· = .closeBrace)) (fun _ here => here) fun kind only => ?_
    rw [if_pos (.inl only)]
    obtain ⟨done, eq, rfl, numbered⟩ := h
    obtain rfl : done = es := by rwa [List.append_nil] at eq
    have closed := tidy.chain.trans (decide_eq_false (afterAll_stage nofun (ordered_stage ordered)))
    exact covers_pure ⟨rfl, closed, by rwa [List.append_nil]⟩
  have ends : Joins (Follows · = true) (· = .closeBrace) [] := joins_elements ([] : List (Element n))
  have loop := covers_repeatFrom (Q := fun b ds => b.chainOpen = false ∧ Numbered es ds) (Tallied name es)
    (fun e todo s ds h => covers_tallied ordered plain h)
    (fun e => (leads_element e).mono fun _ here => here.1) ends stop ⟨[], rfl, rfl, .nil⟩
  rwa [List.append_nil] at loop

theorem covers_enum {next : TokenKind → Prop} :
    Covers (parseGoal (n + 1) .declaration) (declarationShapes .enumKind name es) next fun _ ds =>
      ∃ inner, ds = .beginType .enumKind name :: .load name :: (inner ++ [.endType]) ∧ Numbered es inner :=
  covers_declared ((covers_enumBody ordered plain).mono fun b ds body => by
    rw [TypeBody.closing, body.1, if_neg (by decide), List.append_nil]
    exact body.2)

end Body

end Grammar

/-! ## The value of the counter -/

/-- One more for each value without an initializer. -/
def Number.advanced (k : Number) (times : Nat) : Number := (Number.add · (.ofNat 1))^[times] k

theorem Number.advanced_succ (k : Number) (times : Nat) : k.advanced (times + 1) = (k.advanced times).add (.ofNat 1) :=
  Function.iterate_succ_apply' _ _ _

/-- Behind these elements the counter is `k`: from zero, or from one more than the last number that an initializer
begins with, there is one step for each value without an initializer. -/
inductive Tally {n : Nat} : List (Element n) → Number → Prop
  | zero {es : List (Element n)} (none : ∀ e ∈ es, e.leading? = none) :
    Tally es (Number.zero.advanced (es.countP Element.isBare))
  | leading {before behind : List (Element n)} {e : Element n} {m : Number} (some : e.leading? = some m)
      (none : ∀ e ∈ behind, e.leading? = none) :
    Tally (before ++ e :: behind) ((m.add (.ofNat 1)).advanced (behind.countP Element.isBare))

section Tally
variable {n : Nat} {es : List (Element n)} {e : Element n}

theorem counts_some {m : Number} (leads : e.leading? = some m) (k : Number) : Element.counts k e = m.add (.ofNat 1) := by
  unfold Element.counts
  rw [leads]
  match e, leads with
  | .enumValue ⟨_, some _⟩ _, _ => rfl

/-- An element without a number counts if it has no initializer. -/
theorem advanced_counts (none : e.leading? = none) (k : Number) (es : List (Element n)) :
    Element.counts (k.advanced (es.countP Element.isBare)) e = k.advanced ((es ++ [e]).countP Element.isBare) := by
  rw [List.countP_append, List.countP_singleton]
  unfold Element.counts
  rw [none]
  match e with
  | .enumValue ⟨_, .none⟩ _ => exact (Number.advanced_succ _ _).symm
  | .enumValue ⟨_, some _⟩ _ => rfl
  | .staticVariables .. | .staticMethod .. | .mixins .. | .signs .. | .fields .. | .init .. | .method .. => rfl

theorem Tally.step {k : Number} (h : Tally es k) (e : Element n) : Tally (es ++ [e]) (Element.counts k e) := by
  cases leads : e.leading? with
  | some m =>
    rw [counts_some leads]
    exact .leading leads nofun
  | none =>
    cases h with
    | zero none =>
      rw [advanced_counts leads]
      exact .zero (List.forall_mem_append.mpr ⟨none, List.forall_mem_singleton.mpr leads⟩)
    | leading some none =>
      rw [advanced_counts leads, List.append_assoc, List.cons_append]
      exact .leading some (List.forall_mem_append.mpr ⟨none, List.forall_mem_singleton.mpr leads⟩)

theorem tally_numbering (es : List (Element n)) : Tally es (numbering es) := by
  induction es using List.reverseRecOn with
  | nil => exact .zero nofun
  | append_singleton es e ih =>
    rw [numbering_snoc]
    exact ih.step e

theorem Numbered.last {ds : List Directive} (h : Numbered (es ++ [e]) ds) :
    ∃ ahead inner, ds = ahead ++ inner ∧ Numbered es ahead ∧ e.Counted (numbering es) inner := by
  generalize eq : es ++ [e] = all at h
  cases h with
  | nil => simp at eq
  | snoc numbered counted =>
    obtain ⟨rfl, rfl⟩ := List.append_singleton_inj.mp eq
    exact ⟨_, _, rfl, numbered, counted⟩

/-- Directives for the elements ahead of an element stand ahead of its own. -/
theorem Numbered.split {before after : List (Element n)} {ds : List Directive} (h : Numbered (before ++ e :: after) ds) :
    ∃ ahead inner behind, ds = ahead ++ (inner ++ behind) ∧ Numbered before ahead ∧ e.Counted (numbering before) inner := by
  induction after using List.reverseRecOn generalizing ds with
  | nil =>
    obtain ⟨ahead, inner, rfl, numbered, counted⟩ := h.last
    exact ⟨ahead, inner, [], by rw [List.append_nil], numbered, counted⟩
  | append_singleton after last ih =>
    rw [← List.cons_append, ← List.append_assoc] at h
    obtain ⟨_, more, rfl, numbered, -⟩ := h.last
    obtain ⟨ahead, inner, behind, rfl, first, counted⟩ := ih numbered
    exact ⟨ahead, inner, behind ++ more, by simp only [List.append_assoc], first, counted⟩

/-- An enum whose elements are in order is read, and an enum value without an initializer has the value that is tallied
behind the elements before it, where an initializer counts as a number if it begins with one. -/
theorem bare_values_numbered {name : String} {c : Cursor} {t : Token} {rest : List Token}
    (ordered : Ordered TypeKind.enumKind.policy es) (plain : ∀ e ∈ es, e.Plain)
    (spells : Spells (declarationShapes .enumKind name es) (t :: rest) c.left) :
    ∃ c' inner, parseGoal (n + 1) .declaration c = .ok () c' ∧ c'.left = t :: rest ∧
      c.Writes c' (.beginType .enumKind name :: .load name :: (inner ++ [.endType])) ∧
      ∀ before after x ending, es = before ++ .enumValue ⟨x, none⟩ ending :: after →
        Tally before (numbering before) ∧ ∃ ahead behind, Numbered before ahead ∧
          inner = ahead ++ (.reserve x :: .number (numbering before) :: .enumValue x :: behind) := by
  have covers : Covers (parseGoal (n + 1) .declaration) (declarationShapes .enumKind name es) (fun _ => True) _ :=
    covers_enum ordered plain
  obtain ⟨_, c', ds, run, left, writes, inner, rfl, numbered⟩ := covers c t rest spells trivial
  refine ⟨c', inner, run, left, writes, fun before after x ending eq => ?_⟩
  subst eq
  obtain ⟨ahead, own, behind, rfl, first, ds, rfl, value⟩ := numbered.split
  obtain rfl : ds = _ := value
  exact ⟨tally_numbering before, ahead, behind, first, rfl⟩

end Tally

/-- The tokens of an enum with the values `A = 5 + 1` and `B`. -/
def smallEnum : List Token :=
  [⟨.enumWord, "enum", .none, 1, 1, 0⟩, ⟨.identifier, "E", .none, 1, 1, 0⟩, ⟨.openBrace, "\x7b", .none, 1, 1, 0⟩,
    ⟨.identifier, "A", .none, 1, 1, 0⟩, ⟨.equal, "=", .none, 1, 1, 0⟩,
    ⟨.number, "5", .number ⟨0x4014000000000000⟩, 1, 1, 0⟩, ⟨.plus, "+", .none, 1, 1, 0⟩,
    ⟨.number, "1", .number ⟨0x3FF0000000000000⟩, 1, 1, 0⟩, ⟨.comma, ",", .none, 1, 1, 0⟩,
    ⟨.identifier, "B", .none, 1, 1, 0⟩, ⟨.closeBrace, "\x7d", .none, 1, 1, 0⟩]

def smallSum : Tree := .binary .add (.number ⟨0x4014000000000000⟩) (.number ⟨0x3FF0000000000000⟩)

def smallValues : List (Element 3) :=
  [.enumValue ⟨"A", some (.ofTree smallSum (by decide) (by decide))⟩ .comma, .enumValue ⟨"B", none⟩ .none]

/-- The sum counts as the five that it begins with: `B` is one more. -/
theorem bare_values_numbered_sum : ∃ c' ahead behind,
    parseGoal 4 .declaration (.ofTokens smallEnum) = .ok () c' ∧
      (Cursor.ofTokens smallEnum).Writes c' (ahead ++ .reserve "B" ::
        .number (((Number.ofInt 1).mul ⟨0x4014000000000000⟩).add (.ofNat 1)) :: .enumValue "B" :: behind) := by
  have ordered : Ordered TypeKind.enumKind.policy smallValues := ⟨by decide, by decide, by decide, by decide⟩
  have plain : ∀ e ∈ smallValues, e.Plain := by
    refine List.forall_mem_cons.mpr ⟨?_, List.forall_mem_singleton.mpr nofun⟩
    rintro _ ⟨⟩
    decide
  have left : (Cursor.ofTokens smallEnum).left = smallEnum ++ [.endOfInput 1 1 0] := by decide
  have spells : Spells (declarationShapes .enumKind "E" smallValues) [.endOfInput 1 1 0]
      (Cursor.ofTokens smallEnum).left := ⟨_, by decide, left⟩
  obtain ⟨c', inner, run, -, writes, values⟩ := bare_values_numbered ordered plain spells
  obtain ⟨-, ahead, behind, -, rfl⟩ := values [_] [] "B" .none rfl
  refine ⟨c', .beginType .enumKind "E" :: .load "E" :: ahead, behind ++ [.endType], run, ?_⟩
  simp only [List.cons_append, List.append_assoc] at writes ⊢
  exact writes

end ScriptEngine
