import ScriptEngine.Value.Table

/-!
# Records of test cases

A record lists test sets in the order in which they were first mentioned, each
with its cases in the order in which they ran. A case either completed or has a
text that says why it did not.
-/
namespace ScriptEngine

structure CaseRecord where
  name : String
  /-- Why the case is incomplete. -/
  problem : Option String
  deriving DecidableEq, Repr, Inhabited

structure TestRecord where
  sets : Table String (List CaseRecord) := ∅
  deriving Inhabited

namespace TestRecord

/-- Mentions a set; one that was mentioned before keeps its cases. -/
def beginSet (r : TestRecord) (set : String) : TestRecord := ⟨r.sets.insertNew set []⟩

def cases? (r : TestRecord) (set : String) : Option (List CaseRecord) := r.sets.get? set

def record (r : TestRecord) (set case : String) (problem : Option String) : TestRecord :=
  ⟨r.sets.insert set ((r.cases? set).getD [] ++ [⟨case, problem⟩])⟩

def allCases (r : TestRecord) : List CaseRecord := (r.sets.toList.map Prod.snd).flatten

def completed (r : TestRecord) : Nat := r.allCases.countP (·.problem.isNone)

def incomplete (r : TestRecord) : Nat := r.allCases.countP (·.problem.isSome)

def allPassed (r : TestRecord) : Bool := r.allCases.all (·.problem.isNone)

def caseLine (c : CaseRecord) : String :=
  match c.problem with
  | none => s!"  {c.name} ... ok"
  | some problem => s!"  {c.name} ... INCOMPLETE: {problem}"

def setLines : String × List CaseRecord → List String
  | (set, cases) => set :: cases.map caseLine

def totalsLine (r : TestRecord) : String :=
  s!"{r.completed} completed, {r.incomplete} incomplete"

/-- One line for each set and each case, and the totals. -/
def report (r : TestRecord) : String :=
  "\n".intercalate ((r.sets.toList.map setLines).flatten ++ [r.totalsLine])

end TestRecord

end ScriptEngine
