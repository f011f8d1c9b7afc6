import ScriptEngine.Proofs.Covering
import ScriptEngine.Proofs.Mirroring

/-!
# Type bodies as sequences of elements

An element of a type body is given by what it consists of, with the expressions and
functions in it as anything that the grammar reads as it stands. An element has tokens and
directives, up to what may differ from one place to another, and `Ordered` says of a
sequence of elements what a declaration keyword asks for.
-/
namespace ScriptEngine

open Grammar

/-- An expression that the grammar reads as it stands, with room for `n` nested goals. -/
structure Expression (n : Nat) where
  shapes : List Shape
  directives : List Directive
  reads : Covers (parseGoal n (.expression .assignment)) shapes (Stops .assignment) fun _ ds =>
    List.Forall₂ Directive.Akin directives ds

/-- An expression tree whose calls have 255 arguments or fewer. -/
def Expression.ofTree {n : Nat} (e : Tree) (fits : ∀ op ∈ e.code, op.argc ≤ 255) (room : e.shapes.length ≤ n) :
    Expression n where
  shapes := e.shapes
  directives := e.directives
  reads := ((e.climbs fits).yields n _ room (Nat.le_of_lt e.assignment_lt_level)).covers
    (List.forall₂_same.mpr fun d _ => .refl d)

/-- A function from its parameters on, with what stands behind the parenthesis that opens. -/
structure Routine (n : Nat) (kind : FunctionKind) (name : String) (m : Modifiers) where
  inner : List Shape
  directives : List Directive
  reads : ∀ fields, Covers (parseGoal n (.function kind name m fields)) (.fixed .openParen :: inner) (fun _ => True)
    fun _ ds => List.Forall₂ Directive.Akin directives ds

/-- A round of the loop of `block`. -/
def blockRound (parse : Goal → Parser Unit) (noted : Bool) : Parser (Bool × Bool) := do
  let leading ← currentKind
  if leading = .closeBrace ∨ leading = .eof then return (noted, false)
  parse .declaration
  match exitKeyword? leading with
  | some keyword =>
    if noted || (← check .closeBrace) then return (noted, true)
    write (.unreachable keyword (← get).current.line)
    return (true, true)
  | none => return (noted, true)

theorem covers_emptyBlock (parse : Goal → Parser Unit) {next : TokenKind → Prop} :
    Covers (block parse) [.fixed .closeBrace] next fun _ ds => ds = [] := by
  have stops : Covers (blockRound parse false) [] (· = .closeBrace) fun r ds => r.2 = false ∧ ds = [] := by
    refine covers_currentKind (p := (· = .closeBrace)) (fun _ => id) fun k here => ?_
    rw [if_pos (.inl here)]
    exact covers_pure ⟨rfl, rfl⟩
  have loop : Covers (repeatFrom false (blockRound parse)) [] (· = .closeBrace) fun _ ds => ds = [] := by
    intro c t rest spells here
    obtain ⟨⟨noted, _⟩, c', ds, run, left, writes, rfl, rfl⟩ := stops c t rest spells here
    exact ⟨noted, c', [], Rounds.none.repeatFrom run, left, writes, rfl⟩
  exact loop.bind (fun _ _ none => (yields_expect .closeBrace _).covers (by rw [none]; rfl))
    (joins_fixed (by rfl) [] next)

theorem yields_noParameters {next : TokenKind → Prop} : Yields parameters () [.fixed .closeParen] [] next := by
  intro c t rest spells here
  obtain ⟨t', rest', left, kind, -⟩ := spells_cons.mp spells
  have closes : Yields (expect .closeParen "')' after parameters") () [.fixed .closeParen] [] next := yields_expect _ _
  obtain ⟨c', run, result⟩ := closes c t rest spells here
  refine ⟨c', (parser_bind (check_eq _ c) _).trans ?_, result⟩
  rw [decide_eq_true ((congrArg Token.kind (List.cons.inj left).1).trans kind)]
  exact run

/-- A function with no parameters and no statements. -/
def Routine.empty {n : Nat} (kind : FunctionKind) (name : String) (m : Modifiers) : Routine (n + 1) kind name m where
  inner := [.fixed .closeParen, .fixed .openBrace, .fixed .closeBrace]
  directives := .beginFunction kind name m ::
    ((if kind = .init then [.storeMatching []] else []) ++ [.endFunction])
  reads := fun fields => by
    have body : Covers (do
        expect .openBrace "'\x7b' before function body"
        block (parseGoal n)
        write .endFunction) [.fixed .openBrace, .fixed .closeBrace] (fun _ => True) fun _ ds => ds = [.endFunction] :=
      (yields_expect _ _).read ((covers_emptyBlock _).last fun _ _ none => covers_write (by rw [none]; rfl))
    have matching : Covers (do
        if kind = .init then write (.storeMatching fields)
        expect .openBrace "'\x7b' before function body"
        block (parseGoal n)
        write .endFunction) [.fixed .openBrace, .fixed .closeBrace] (fun _ => True) fun _ ds =>
        List.Forall₂ Directive.Akin ((if kind = .init then [.storeMatching []] else []) ++ [.endFunction]) ds := by
      split_ifs with h
      · refine covers_written (body.mono fun _ ds eq => ?_)
        rw [eq]
        exact .cons (.storeMatching _ _) (.cons (.refl _) .nil)
      · refine body.mono fun _ ds eq => ?_
        rw [eq]
        exact .cons (.refl _) .nil
    have named : Yields resultNames () [] [] (· = .openBrace) :=
      (yields_accept_not .openParen (by rintro _ rfl; decide)).quiet yields_pure
    exact covers_written ((yields_expect _ _).read (Yields.read yields_noParameters
      (named.look (matching.mono fun _ _ h => .cons (.refl _) h) (joins_fixed (by rfl) [_] _))))

/-- A name that is declared, with its first value or without. -/
structure Entry (n : Nat) where
  name : String
  value : Option (Expression n) := none

inductive ModifierWord where
  | localWord | pureWord
  deriving DecidableEq, Repr

namespace ModifierWord

def token : ModifierWord → TokenKind
  | localWord => .localWord
  | pureWord => .pureWord

def mark (m : Modifiers) : ModifierWord → Modifiers
  | localWord => { m with isLocal := true }
  | pureWord => { m with isPure := true }

def all (words : List ModifierWord) : Modifiers := words.foldl mark {}

end ModifierWord

/-- What stands behind an enum value. -/
inductive Ending where
  | none | comma | semicolon
  deriving DecidableEq, Repr

/-- An element of a type body. Where there is a list, its last member has no comma behind it. -/
inductive Element (n : Nat) where
  | staticVariables (entries : List (Entry n)) (last : Entry n)
  | staticMethod (words : List ModifierWord) (name : String) (body : Routine n .function name (ModifierWord.all words))
  | mixins (names : List String) (last : String)
  | signs (names : List String) (last : String)
  | enumValue (entry : Entry n) (ending : Ending)
  | fields (entries : List (Entry n)) (last : Entry n)
  | init (body : Routine n .init "init" {})
  | method (words : List ModifierWord) (name : String) (body : Routine n .method name (ModifierWord.all words))

namespace Element
variable {n : Nat}

def stage : Element n → Stage
  | staticVariables _ _ | staticMethod _ _ _ => .static
  | mixins _ _ => .mixin
  | signs _ _ => .signs
  | enumValue _ _ => .enumValue
  | fields _ _ => .var
  | init _ => .init
  | method _ _ _ => .method

def fieldNames : Element n → List String
  | fields entries last => (entries ++ [last]).map Entry.name
  | _ => []

def isInit (e : Element n) : Bool := e.stage = .init

/-- The declarations that an element consists of. -/
def parts : Element n → List (Element n)
  | fields entries last => (entries ++ [last]).map (fields [])
  | e => [e]

end Element

/-- The elements of a body are of stages that the keyword allows, in the order of the stages, no field is
declared twice, and there is one `init` at most. -/
structure Ordered {n : Nat} (policy : StagePolicy) (es : List (Element n)) : Prop where
  allowed : ∀ e ∈ es, policy.allows e.stage = true
  sorted : es.Pairwise fun e e' => e.stage.rank ≤ e'.stage.rank
  distinct : (es.flatMap Element.fieldNames).Nodup
  single : es.countP Element.isInit ≤ 1

/-! ## Tokens -/

def Routine.shapes {n : Nat} {kind : FunctionKind} {name : String} {m : Modifiers} (r : Routine n kind name m) :
    List Shape := .fixed .openParen :: r.inner

/-- Members of a list with commas between them. -/
def commas {α : Type} (shapes : α → List Shape) (members : List α) (last : α) : List Shape :=
  members.flatMap (fun x => shapes x ++ [.fixed .comma]) ++ shapes last

namespace Entry
variable {n : Nat}

def initial (e : Entry n) : List Shape :=
  match e.value with
  | some v => .fixed .equal :: v.shapes
  | none => []

def shapes (e : Entry n) : List Shape := .identifier e.name :: e.initial

end Entry

def Ending.shapes : Ending → List Shape
  | none => []
  | comma => [.fixed .comma]
  | semicolon => [.fixed .semicolon]

def ModifierWord.shapes (words : List ModifierWord) : List Shape := words.map fun w => .fixed w.token

def Element.shapes {n : Nat} : Element n → List Shape
  | staticVariables entries last =>
    .fixed .staticWord :: .fixed .varWord :: (commas Entry.shapes entries last ++ [.fixed .semicolon])
  | staticMethod words name body =>
    .fixed .staticWord :: (ModifierWord.shapes words ++ .identifier name :: body.shapes)
  | mixins names last => .fixed .mixinWord :: (commas (fun x => [.identifier x]) names last ++ [.fixed .semicolon])
  | signs names last => .fixed .signsWord :: (commas (fun x => [.identifier x]) names last ++ [.fixed .semicolon])
  | enumValue entry ending => entry.shapes ++ ending.shapes
  | fields entries last => .fixed .varWord :: (commas Entry.shapes entries last ++ [.fixed .semicolon])
  | init body => .fixed .initWord :: body.shapes
  | method words name body => ModifierWord.shapes words ++ .identifier name :: body.shapes

def TypeKind.word : TypeKind → TokenKind
  | classKind => .classWord
  | dataKind => .dataWord
  | systemKind => .systemWord
  | enumKind => .enumWord

def TypeKind.policy : TypeKind → StagePolicy
  | classKind => .classPolicy
  | dataKind => .dataPolicy
  | systemKind => .systemPolicy
  | enumKind => .enumPolicy

/-- A declaration without a supertype. -/
def declarationShapes {n : Nat} (kind : TypeKind) (name : String) (es : List (Element n)) : List Shape :=
  .fixed kind.word :: .identifier name :: .fixed .openBrace :: (es.flatMap Element.shapes ++ [.fixed .closeBrace])

/-! ## Directives -/

/-- Directives like these, which stand by themselves. -/
structure Resembles (ds es : List Directive) : Prop where
  akin : List.Forall₂ Directive.Akin ds es
  woven : Woven .value es

theorem Resembles.nil : Resembles [] [] := ⟨.nil, .nil _⟩

theorem Resembles.append {ds es ds' es' : List Directive} (h : Resembles ds es) (h' : Resembles ds' es') :
    Resembles (ds ++ ds') (es ++ es') := ⟨List.rel_append h.akin h'.akin, h.woven.append h'.woven⟩

theorem Resembles.single {d d' : Directive} (akin : d.Akin d') (value : d'.isValue = true) : Resembles [d] [d'] :=
  ⟨.cons akin .nil, .single value⟩

theorem Resembles.cons {d : Directive} {ds es : List Directive} (value : d.isValue = true) (h : Resembles ds es) :
    Resembles (d :: ds) (d :: es) := Resembles.append (.single (.refl d) value) h

namespace Entry
variable {n : Nat}

/-- What makes the first value. -/
def directives (e : Entry n) : List Directive :=
  match e.value with
  | some v => v.directives
  | none => [.plain .null]

/-- What an enum value writes where the counter is `k`. -/
def Values (e : Entry n) (k : Number) (ds : List Directive) : Prop :=
  ∃ es, ds = .reserve e.name :: (es ++ [.enumValue e.name]) ∧
    match e.value with
    | some v => Resembles v.directives es
    | none => es = [.number k]

/-- The counter behind an enum value, whose first value begins with the number `leading`, if with any. -/
def counter (e : Entry n) (leading : Option Number) (k : Number) : Number :=
  match e.value, leading with
  | none, _ => k.add (.ofNat 1)
  | some _, some m => m.add (.ofNat 1)
  | some _, none => k

end Entry

namespace Element
variable {n : Nat}

/-- The member that the element ends with, if that is not a value of its own. -/
def member? : Element n → Option String
  | init _ => some "init"
  | method _ name _ => some name
  | _ => none

/-- What the element writes, but for its member. -/
def directives : Element n → List Directive
  | staticVariables entries last =>
    (entries ++ [last]).flatMap fun e => .reserve e.name :: (e.directives ++ [.staticMember e.name])
  | staticMethod _ name body => .reserve name :: (body.directives ++ [.staticMember name])
  | mixins names last => (names ++ [last]).flatMap fun x => [.load x, .plain .mixin]
  | signs names last => (names ++ [last]).flatMap fun x => [.load x, .plain .signs]
  | enumValue entry _ =>
    .reserve entry.name ::
      ((match entry.value with
        | some v => v.directives
        | none => [.number .zero]) ++ [.enumValue entry.name])
  | fields entries last =>
    (entries ++ [last]).flatMap fun e => .reserve e.name :: .receiver :: (e.directives ++ [.storeField e.name])
  | init body => .reserve "init" :: body.directives
  | method _ name body => .reserve name :: body.directives

/-- Directives that an element can write. -/
def Gives (e : Element n) (ds : List Directive) : Prop :=
  match e.member? with
  | some name => ∃ es, Resembles e.directives es ∧ ds = es ++ [.method name]
  | none => Resembles e.directives ds

end Element

theorem Entry.Values.resembles {n : Nat} {e : Entry n} {k : Number} {ds : List Directive} (h : e.Values k ds)
    (ending : Ending) : Resembles (Element.enumValue e ending).directives ds := by
  obtain ⟨name, value⟩ := e
  obtain ⟨es, rfl, written⟩ := h
  cases value with
  | none =>
    obtain rfl : es = _ := written
    exact .cons rfl (.append (.single (.number _ _) rfl) (.single (.refl _) rfl))
  | some v => exact .cons rfl (Resembles.append written (.single (.refl _) rfl))

end ScriptEngine
