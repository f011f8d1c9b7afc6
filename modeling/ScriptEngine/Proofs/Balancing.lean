import ScriptEngine.Proofs.Weaving

/-!
# Functions end where they begin

A program begins and ends functions, and steps out of some of them for a while. The
functions that are begun and not ended form a stack, on which some are marked as set
aside: `Begun.run?` follows the directives of a program on it and fails at one that is
out of place.

No program of the grammar fails there. Whatever is woven leaves the stack as it was, so
what is written while a function is set aside comes back to that function.
-/
namespace ScriptEngine

open Grammar

/-- What a directive does to the functions. -/
inductive Shift where
  | stays | begins | ends | aside | back
  deriving DecidableEq, Repr

def Directive.shift : Directive → Shift
  | .beginFunction _ _ _ | .beginInitChain | .beginTest _ | .beginCase _ => .begins
  | .endFunction | .endInitChain _ | .endTest _ | .endCase _ _ => .ends
  | .stepOut => .aside
  | .stepIn => .back
  | _ => .stays

/-- The functions that are begun and not ended, innermost first: their numbers, and which are set aside. -/
structure Begun where
  functions : List (Nat × Bool)
  /-- How many functions there have been. -/
  count : Nat
  deriving DecidableEq, Repr

namespace Begun

/-- The script is the first function. -/
def script : Begun := ⟨[(0, false)], 1⟩

def step? (F : Begun) (d : Directive) : Option Begun :=
  match d.shift, F.functions with
  | .stays, _ => some F
  | .begins, fs => some ⟨(F.count, false) :: fs, F.count + 1⟩
  | .ends, (_, false) :: fs => some ⟨fs, F.count⟩
  | .aside, (f, false) :: fs => some ⟨(f, true) :: fs, F.count⟩
  | .back, (f, true) :: fs => some ⟨(f, false) :: fs, F.count⟩
  | _, _ => none

def run? (F : Begun) : List Directive → Option Begun
  | [] => some F
  | d :: ds => (F.step? d).bind fun G => G.run? ds

theorem run?_append (F : Begun) (ds es : List Directive) :
    F.run? (ds ++ es) = (F.run? ds).bind fun G => G.run? es := by
  induction ds generalizing F with
  | nil => rfl
  | cons d ds ih =>
    rw [List.cons_append, run?, run?]
    cases F.step? d with
    | none => rfl
    | some G => exact ih G

theorem run?_singleton (F : Begun) (d : Directive) : F.run? [d] = F.step? d := by
  rw [run?]
  cases F.step? d <;> rfl

end Begun

theorem Directive.shift_of_fits {d : Directive} {r : Reach} (fits : d.fits r = true) : d.shift = .stays := by
  cases r <;> cases d <;> first | rfl | cases fits

/-! ## What is woven -/

namespace Begun
variable {F G : Begun} {d : Directive} {ds : List Directive}

theorem run?_step (step : F.step? d = some G) (es : List Directive) : F.run? (d :: es) = G.run? es := by
  rw [run?, step]
  rfl

theorem run?_then (first : F.run? ds = some G) (es : List Directive) : F.run? (ds ++ es) = G.run? es := by
  rw [run?_append, first]
  rfl

end Begun

/-- The directives leave the functions that are begun as they are. -/
def Balanced (ds : List Directive) : Prop :=
  ∀ (fs : List (Nat × Bool)) (n : Nat), ∃ m, Begun.run? ⟨fs, n⟩ ds = some ⟨fs, m⟩

section Balanced
variable {d e : Directive} {ds es : List Directive}

theorem Balanced.append (first : Balanced ds) (second : Balanced es) : Balanced (ds ++ es) := by
  intro fs n
  obtain ⟨m, first⟩ := first fs n
  rw [Begun.run?_then first]
  exact second fs m

theorem balanced_stays (stays : ∀ d ∈ ds, d.shift = .stays) : Balanced ds := by
  induction ds with
  | nil => exact fun fs n => ⟨n, rfl⟩
  | cons d ds ih =>
    intro fs n
    rw [Begun.run?_step (G := ⟨fs, n⟩) (by rw [Begun.step?, stays d (.head _)])]
    exact ih (fun d hd => stays d (.tail _ hd)) fs n

theorem balanced_single (stays : d.shift = .stays) : Balanced [d] :=
  balanced_stays fun _ h => List.mem_singleton.mp h ▸ stays

theorem balanced_around (opens : d.shift = .stays) (inner : Balanced ds) (closes : e.shift = .stays) :
    Balanced (d :: (ds ++ [e])) := (balanced_single opens).append (inner.append (balanced_single closes))

/-- A function that is begun is the innermost one when its end comes. -/
theorem balanced_function (begins : d.shift = .begins) (inner : Balanced ds) (ends : e.shift = .ends) :
    Balanced (d :: (ds ++ [e])) := by
  intro fs n
  obtain ⟨m, inner⟩ := inner ((n, false) :: fs) (n + 1)
  refine ⟨m, ?_⟩
  rw [Begun.run?_step (by rw [Begun.step?, begins]), Begun.run?_then inner, Begun.run?_singleton, Begun.step?, ends]

/-- What is written while a function is set aside comes back to it. -/
theorem balanced_rows {d e : Directive} {ds es fs : List Directive} (begins : d.shift = .begins) (before : Balanced ds)
    (away : Balanced es) (after : Balanced fs) (ends : e.shift = .ends) :
    Balanced (d :: (ds ++ .stepOut :: (es ++ .stepIn :: (fs ++ [e])))) := by
  intro gs n
  obtain ⟨m₁, before⟩ := before ((n, false) :: gs) (n + 1)
  obtain ⟨m₂, away⟩ := away ((n, true) :: gs) m₁
  obtain ⟨m₃, after⟩ := after ((n, false) :: gs) m₂
  refine ⟨m₃, ?_⟩
  rw [Begun.run?_step (by rw [Begun.step?, begins]), Begun.run?_then before, Begun.run?_step (by rfl),
    Begun.run?_then away, Begun.run?_step (by rfl), Begun.run?_then after, Begun.run?_singleton, Begun.step?, ends]

end Balanced

theorem Woven.balanced {r : Reach} {ds : List Directive} (h : Woven r ds) : Balanced ds := by
  induction h with
  | nil => exact balanced_stays nofun
  | append _ _ ih ih' => exact ih.append ih'
  | loosen _ ih => exact ih
  | single fits => exact balanced_single (Directive.shift_of_fits fits)
  | short opens _ ih => exact balanced_around (by obtain rfl | rfl := opens <;> rfl) ih rfl
  | function _ ih | chain _ ih | test _ ih | case _ ih => exact balanced_function rfl ih rfl
  | type _ ih => exact balanced_around rfl ((balanced_stays (by simp [Directive.shift])).append ih) rfl
  | rows _ _ _ ih ih' ih'' => exact balanced_rows rfl ih ih' ih'' rfl

/-- An accepted program ends all functions but the script, each where it began. -/
theorem begun_ofTokens {tokens : List Token} (accepted : (Program.ofTokens tokens).fault = none) :
    ∃ n, Begun.script.run? ((Program.ofTokens tokens).steps.toList.map (·.directive)) = some ⟨[(0, false)], n⟩ := by
  have start : (Cursor.ofTokens tokens).steps = #[] := by
    unfold Cursor.ofTokens
    dsimp only
    split <;> rfl
  unfold Program.ofTokens at accepted ⊢
  split at accepted
  · rename_i c ran
    obtain ⟨_, ⟨steps, written, rfl⟩, es, woven, eq⟩ := trails_program _ _ _ _ ran
    rw [start, List.nil_append] at written
    rw [written, eq]
    obtain ⟨n, inner⟩ := woven.balanced [(0, false)] 1
    exact ⟨n, (Begun.run?_then inner _).trans rfl⟩
  · cases accepted

end ScriptEngine
