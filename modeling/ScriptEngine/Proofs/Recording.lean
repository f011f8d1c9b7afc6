import ScriptEngine.TestRecord
import Mathlib.Data.List.Induction

/-!
# What a test record holds

A test record changes in two ways only: a set is mentioned, or the outcome of a case is
recorded in a set. Whatever the history of such changes, each set is listed once, in the
order in which the sets were first mentioned, with the cases recorded for it in the order in
which they came. No case is lost and none is made up, so the totals are those of the history,
and the report has a line for each set, a line for each case and the totals
(`history_kept`).

The order of the sets and the cases of one set come from what a single change does to the
keys and values of a table. The totals do not: they go through all sets at once, so the
invariant for them is that all cases together are the recorded ones in some order.
-/
namespace ScriptEngine

/-! ## Tables -/

namespace Entries
variable {κ α : Type} [DecidableEq κ]

theorem find?_isSome {k : κ} {es : List (κ × α)} : (find? k es).isSome ↔ k ∈ keys es := by
  induction es with
  | nil => simp [find?, keys]
  | cons e rest ih => obtain ⟨a, b⟩ := e; grind [find?, keys]

/-- A new key goes to the end, and one that is there stays where it is. -/
theorem keys_put (k : κ) (v : α) (es : List (κ × α)) :
    keys (put k v es) = if k ∈ keys es then keys es else keys es ++ [k] := by
  induction es with
  | nil => simp [put, keys]
  | cons e rest ih => obtain ⟨a, b⟩ := e; grind [put, keys]

/-- What is added to the list of a key is added to all lists. -/
theorem flatten_put_perm (k : κ) (more : List α) (es : List (κ × List α)) :
    ((put k ((find? k es).getD [] ++ more) es).map Prod.snd).flatten.Perm ((es.map Prod.snd).flatten ++ more) := by
  induction es with
  | nil => simp [put, find?]
  | cons e rest ih =>
    obtain ⟨k', xs⟩ := e
    by_cases here : k' = k
    · have behind : (more ++ (rest.map Prod.snd).flatten).Perm ((rest.map Prod.snd).flatten ++ more) :=
        List.perm_append_comm
      simpa [put, find?, here] using behind.append_left xs
    · simpa [put, find?, here] using ih.append_left xs

end Entries

namespace Table
variable {κ α : Type} [DecidableEq κ]

def keys (t : Table κ α) : List κ := Entries.keys t.toList

theorem contains_iff {t : Table κ α} {k : κ} : t.contains k ↔ k ∈ t.keys := Entries.find?_isSome

theorem keys_insert (t : Table κ α) (k : κ) (v : α) :
    (t.insert k v).keys = if k ∈ t.keys then t.keys else t.keys ++ [k] :=
  Entries.keys_put k v t.entries

theorem keys_insertNew (t : Table κ α) (k : κ) (v : α) :
    (t.insertNew k v).keys = if k ∈ t.keys then t.keys else t.keys ++ [k] := by
  unfold insertNew
  by_cases present : t.contains k
  · rw [if_pos present, if_pos (contains_iff.mp present)]
  · rw [if_neg present, keys_insert]

end Table

/-! ## Histories -/

/-- What is done to a test record. A case without a problem is completed. -/
inductive TestEvent where
  | mention (set : String)
  | outcome (set case : String) (problem : Option String)
  deriving DecidableEq, Repr

namespace TestEvent

def set : TestEvent → String
  | mention set => set
  | outcome set _ _ => set

def recorded? : TestEvent → Option CaseRecord
  | mention _ => none
  | outcome _ case problem => some ⟨case, problem⟩

def isOutcome : TestEvent → Bool
  | outcome .. => true
  | mention _ => false

def isCompleted : TestEvent → Bool
  | outcome _ _ none => true
  | _ => false

def isIncomplete : TestEvent → Bool
  | outcome _ _ (some _) => true
  | _ => false

theorem filterMap_recorded? (e : TestEvent) : [e].filterMap recorded? = e.recorded?.toList := by cases e <;> rfl

/-- The names and the message that an event brings. -/
def texts : TestEvent → List String
  | mention set => [set]
  | outcome set case problem => set :: case :: problem.toList

def OneLine (e : TestEvent) : Prop := ∀ text ∈ e.texts, '\n' ∉ text.toList

instance (e : TestEvent) : Decidable e.OneLine := by unfold OneLine; infer_instance

end TestEvent

/-- The cases recorded for a set, in the order in which they came. -/
def casesFor (es : List TestEvent) (set : String) : List CaseRecord :=
  (es.filter (·.set = set)).filterMap TestEvent.recorded?

namespace TestRecord

def note (r : TestRecord) : TestEvent → TestRecord
  | .mention set => r.beginSet set
  | .outcome set case problem => r.record set case problem

/-- The record behind a history. -/
def ofHistory (es : List TestEvent) : TestRecord := es.foldl note {}

def names (r : TestRecord) : List String := r.sets.keys

theorem ofHistory_snoc (es : List TestEvent) (e : TestEvent) : ofHistory (es ++ [e]) = (ofHistory es).note e :=
  by
  simp [ofHistory]

/-! ## One more event -/

theorem names_note (r : TestRecord) (e : TestEvent) :
    (r.note e).names = if e.set ∈ r.names then r.names else r.names ++ [e.set] := by
  cases e with
  | mention set => exact r.sets.keys_insertNew set []
  | outcome set case problem => exact r.sets.keys_insert set _

theorem cases?_isSome {r : TestRecord} {set : String} : (r.cases? set).isSome ↔ set ∈ r.names :=
  Table.contains_iff

theorem cases?_note (r : TestRecord) (e : TestEvent) (set : String) :
    (r.note e).cases? set =
      if e.set = set then some ((r.cases? set).getD [] ++ e.recorded?.toList) else r.cases? set := by
  cases e with
  | mention mentioned =>
    by_cases same : mentioned = set
    · cases found : r.sets.get? set <;>
        simp [note, beginSet, cases?, TestEvent.set, TestEvent.recorded?, Table.get?_insertNew, same, found]
    · simp [note, beginSet, cases?, TestEvent.set, Table.get?_insertNew, same]
  | outcome mentioned case problem =>
    by_cases same : mentioned = set <;>
      simp [note, record, cases?, TestEvent.set, TestEvent.recorded?, Table.get?_insert, same]

theorem allCases_note (r : TestRecord) (e : TestEvent) :
    (r.note e).allCases.Perm (r.allCases ++ e.recorded?.toList) := by
  cases e with
  | mention set =>
    cases found : r.sets.get? set with
    | some cases => simp [note, beginSet, Table.insertNew, Table.contains, found, TestEvent.recorded?]
    | none =>
      have missing : Entries.find? set r.sets.entries = none := found
      have added := Entries.flatten_put_perm set [] r.sets.entries
      rw [missing] at added
      simpa [note, beginSet, allCases, Table.insertNew, Table.contains, found, Table.insert, Table.toList,
        TestEvent.recorded?] using added
  | outcome set case problem => exact Entries.flatten_put_perm set [⟨case, problem⟩] r.sets.entries

/-! ## Whole histories -/

theorem mem_names_ofHistory (es : List TestEvent) (set : String) :
    set ∈ (ofHistory es).names ↔ set ∈ es.map TestEvent.set := by
  induction es using List.reverseRecOn with
  | nil => exact Iff.rfl
  | append_singleton es e ih =>
    rw [ofHistory_snoc, names_note]
    split <;> grind

theorem names_ofHistory_ordered (es : List TestEvent) : (ofHistory es).names.Pairwise fun set later =>
    (es.map TestEvent.set).idxOf set < (es.map TestEvent.set).idxOf later := by
  induction es using List.reverseRecOn with
  | nil => exact .nil
  | append_singleton es e ih =>
    have kept : ∀ set ∈ (ofHistory es).names,
        ((es ++ [e]).map TestEvent.set).idxOf set = (es.map TestEvent.set).idxOf set := fun set mem => by
      rw [List.map_append, List.idxOf_append, if_pos ((mem_names_ofHistory es set).mp mem)]
    have before : (ofHistory es).names.Pairwise fun set later =>
        ((es ++ [e]).map TestEvent.set).idxOf set < ((es ++ [e]).map TestEvent.set).idxOf later :=
      ih.imp_of_mem fun mem mem' lt => by rwa [kept _ mem, kept _ mem']
    rw [ofHistory_snoc, names_note]
    split
    · exact before
    · next new =>
      refine List.pairwise_append.mpr ⟨before, List.pairwise_singleton _ _, fun set mem later here => ?_⟩
      rw [List.mem_singleton.mp here, kept set mem, List.map_append, List.idxOf_append,
        if_neg fun mem => new ((mem_names_ofHistory es e.set).mpr mem)]
      exact Nat.lt_add_left _ (List.idxOf_lt_length_iff.mpr ((mem_names_ofHistory es set).mp mem))

theorem cases?_ofHistory (es : List TestEvent) (set : String) :
    (ofHistory es).cases? set = if set ∈ es.map TestEvent.set then some (casesFor es set) else none := by
  induction es using List.reverseRecOn with
  | nil => rfl
  | append_singleton es e ih =>
    rw [ofHistory_snoc, cases?_note, ih]
    by_cases here : e.set = set
    · by_cases before : set ∈ es.map TestEvent.set
      · simp [casesFor, here, before, TestEvent.filterMap_recorded?]
      · have none : es.filter (·.set = set) = [] := by
          simpa [List.filter_eq_nil_iff] using before
        simp [casesFor, here, before, none, TestEvent.filterMap_recorded?]
    · have other : ¬ set = e.set := fun same => here same.symm
      simp [casesFor, here, other]

theorem allCases_ofHistory (es : List TestEvent) :
    (ofHistory es).allCases.Perm (es.filterMap TestEvent.recorded?) := by
  induction es using List.reverseRecOn with
  | nil => exact .nil
  | append_singleton es e ih =>
    rw [ofHistory_snoc, List.filterMap_append, e.filterMap_recorded?]
    exact (allCases_note _ e).trans (ih.append_right _)

/-! ## Totals -/

theorem countP_allCases {p : CaseRecord → Bool} {q : TestEvent → Bool} (same : ∀ e, e.recorded?.any p = q e)
    (es : List TestEvent) : (ofHistory es).allCases.countP p = es.countP q := by
  rw [(allCases_ofHistory es).countP_eq, List.countP_filterMap]
  refine List.countP_congr fun e _ => ?_
  rw [← same e]
  cases e <;> rfl

theorem completed_ofHistory (es : List TestEvent) : (ofHistory es).completed = es.countP TestEvent.isCompleted :=
  countP_allCases (fun e => by obtain set | ⟨set, case, _ | problem⟩ := e <;> rfl) es

theorem incomplete_ofHistory (es : List TestEvent) : (ofHistory es).incomplete = es.countP TestEvent.isIncomplete :=
  countP_allCases (fun e => by obtain set | ⟨set, case, _ | problem⟩ := e <;> rfl) es

theorem length_allCases_ofHistory (es : List TestEvent) :
    (ofHistory es).allCases.length = es.countP TestEvent.isOutcome := by
  rw [← List.countP_true]
  exact countP_allCases (fun e => by cases e <;> rfl) es

/-- A case is completed or it is not. -/
theorem completed_add_incomplete (r : TestRecord) : r.completed + r.incomplete = r.allCases.length := by
  rw [List.length_eq_countP_add_countP (·.problem.isNone), completed, incomplete]
  congr 2
  funext c
  cases c.problem <;> rfl

theorem allPassed_iff (r : TestRecord) : r.allPassed = true ↔ r.incomplete = 0 := by
  rw [allPassed, incomplete, List.countP_eq_zero, List.all_eq_true]
  simp

/-! ## The report -/

/-- The line of a set and those of its cases. -/
def linesFor (es : List TestEvent) (set : String) : List String := set :: (casesFor es set).map caseLine

/-- The lines of a text. -/
def linesOf (text : String) : List String := (text.split '\n').toList.map (·.copy)

theorem linesOf_intercalate {lines : List String} (plain : ∀ line ∈ lines, '\n' ∉ line.toList) (some : lines ≠ []) :
    linesOf ("\n".intercalate lines) = lines := by
  have split := String.toList_split_intercalate plain
  rwa [if_neg some] at split

theorem toList_ofHistory (es : List TestEvent) :
    (ofHistory es).sets.toList = (ofHistory es).names.map fun set => (set, casesFor es set) := by
  refine (List.map_id _).symm.trans (Eq.trans (List.map_congr_left fun entry mem => ?_) (List.map_map).symm)
  have found : (ofHistory es).cases? entry.1 = some entry.2 := Table.mem_toList.mp mem
  rw [cases?_ofHistory] at found
  split at found
  · exact Prod.ext rfl (Option.some.inj found).symm
  · cases found

theorem report_ofHistory (es : List TestEvent) : (ofHistory es).report =
    "\n".intercalate ((ofHistory es).names.flatMap (linesFor es) ++ [(ofHistory es).totalsLine]) := by
  rw [report, toList_ofHistory, List.map_map]
  rfl

theorem plain_toDigits (n : Nat) : '\n' ∉ Nat.toDigits 10 n := by
  intro mem
  exact absurd (Nat.isDigit_of_mem_toDigits (by decide) (by decide) mem) (by decide)

theorem plain_totalsLine (r : TestRecord) : '\n' ∉ r.totalsLine.toList := by
  simp [totalsLine, ToString.toString, plain_toDigits]

theorem plain_caseLine {c : CaseRecord} (name : '\n' ∉ c.name.toList)
    (message : ∀ text ∈ c.problem, '\n' ∉ text.toList) : '\n' ∉ (caseLine c).toList := by
  unfold caseLine
  split
  · simp [ToString.toString, name]
  · next text problem => simp [ToString.toString, name, message text problem]

theorem plain_linesFor {es : List TestEvent} (plain : ∀ e ∈ es, e.OneLine) {set : String}
    (mentioned : set ∈ es.map TestEvent.set) : ∀ line ∈ linesFor es set, '\n' ∉ line.toList := by
  intro line mem
  rcases List.mem_cons.mp mem with rfl | mem
  · obtain ⟨e, there, rfl⟩ := List.mem_map.mp mentioned
    exact plain e there e.set (by cases e <;> simp [TestEvent.texts, TestEvent.set])
  · obtain ⟨c, recorded, rfl⟩ := List.mem_map.mp mem
    obtain ⟨e, kept, gives⟩ := List.mem_filterMap.mp recorded
    have texts := plain e (List.mem_filter.mp kept).1
    cases e with
    | mention => cases gives
    | outcome set case problem =>
      cases gives
      refine plain_caseLine (texts case (by simp [TestEvent.texts])) fun text (message : problem = some text) => ?_
      exact texts text (by simp [TestEvent.texts, message])

theorem linesOf_report {es : List TestEvent} (plain : ∀ e ∈ es, e.OneLine) : linesOf (ofHistory es).report =
    (ofHistory es).names.flatMap (linesFor es) ++ [(ofHistory es).totalsLine] := by
  rw [report_ofHistory]
  refine linesOf_intercalate (fun line mem => ?_) (by simp)
  rcases List.mem_append.mp mem with mem | mem
  · obtain ⟨set, named, mem⟩ := List.mem_flatMap.mp mem
    exact plain_linesFor plain ((mem_names_ofHistory es set).mp named) line mem
  · rw [List.mem_singleton.mp mem]
    exact plain_totalsLine _

theorem length_linesFor (es : List TestEvent) : ((ofHistory es).names.flatMap (linesFor es)).length =
    (ofHistory es).names.length + es.countP TestEvent.isOutcome := by
  rw [← length_allCases_ofHistory, allCases, toList_ofHistory]
  generalize (ofHistory es).names = sets
  induction sets with
  | nil => rfl
  | cons set sets ih =>
    simp only [List.flatMap_cons, List.map_cons, List.flatten_cons, List.length_append, ih, linesFor,
      List.length_cons, List.length_map]
    omega

/-! ## A record and its history -/

/-- A test record is what a history of changes calls for. -/
structure Reflects (r : TestRecord) (es : List TestEvent) : Prop where
  distinct : r.names.Nodup
  mentioned : ∀ set, set ∈ r.names ↔ set ∈ es.map TestEvent.set
  /-- The set that is mentioned first comes first. -/
  ordered : r.names.Pairwise fun set later => (es.map TestEvent.set).idxOf set < (es.map TestEvent.set).idxOf later
  cases : ∀ set, r.cases? set = if set ∈ es.map TestEvent.set then some (casesFor es set) else none
  completed : r.completed = es.countP TestEvent.isCompleted
  incomplete : r.incomplete = es.countP TestEvent.isIncomplete
  outcomes : r.completed + r.incomplete = es.countP TestEvent.isOutcome
  allPassed : r.allPassed = true ↔ ∀ e ∈ es, e.isIncomplete = false

theorem reflects_ofHistory (es : List TestEvent) : (ofHistory es).Reflects es where
  distinct := (names_ofHistory_ordered es).imp fun lt same => absurd (same ▸ lt) (Nat.lt_irrefl _)
  mentioned := mem_names_ofHistory es
  ordered := names_ofHistory_ordered es
  cases := cases?_ofHistory es
  completed := completed_ofHistory es
  incomplete := incomplete_ofHistory es
  outcomes := by rw [completed_add_incomplete, length_allCases_ofHistory]
  allPassed := by simp [allPassed_iff, incomplete_ofHistory]

/-- Whatever is done to a test record that was empty, it has each set once, in the order in which the sets were first
mentioned, and the cases recorded for it in their order; its totals are those of the outcomes, and its report has one
line for each set, one for each outcome and the totals, unless a text in it has several lines itself. -/
theorem history_kept (es : List TestEvent) :
    (ofHistory es).Reflects es ∧
    ((∀ e ∈ es, e.OneLine) →
      linesOf (ofHistory es).report = (ofHistory es).names.flatMap (linesFor es) ++
        [s!"{es.countP TestEvent.isCompleted} completed, {es.countP TestEvent.isIncomplete} incomplete"] ∧
      (linesOf (ofHistory es).report).length = (ofHistory es).names.length + es.countP TestEvent.isOutcome + 1) := by
  refine ⟨reflects_ofHistory es, fun plain => ⟨?_, ?_⟩⟩
  · rw [linesOf_report plain, totalsLine, completed_ofHistory, incomplete_ofHistory]
  · rw [linesOf_report plain, List.length_append, length_linesFor, List.length_singleton]

/-- A set that is mentioned, one that a case brings, and a second mention. -/
def interleaved : List TestEvent :=
  [.mention "B", .outcome "A" "first" none, .outcome "B" "second" (some "boom"), .mention "A",
    .outcome "A" "third" (some "bad"), .outcome "B" "fourth" none, .mention "C"]

theorem history_kept_interleaved :
    (∀ e ∈ interleaved, e.OneLine) ∧
    (ofHistory interleaved).names = ["B", "A", "C"] ∧
    (ofHistory interleaved).cases? "A" = some [⟨"first", none⟩, ⟨"third", some "bad"⟩] ∧
    (ofHistory interleaved).cases? "D" = none ∧
    (ofHistory interleaved).completed + (ofHistory interleaved).incomplete = 4 ∧
    (ofHistory interleaved).allPassed ≠ true ∧
    linesOf (ofHistory interleaved).report =
      ["B", "  second ... INCOMPLETE: boom", "  fourth ... ok", "A", "  first ... ok", "  third ... INCOMPLETE: bad", "C",
        "2 completed, 2 incomplete"] := by
  obtain ⟨reflects, report⟩ := history_kept interleaved
  have plain : ∀ e ∈ interleaved, e.OneLine := by decide
  have names : (ofHistory interleaved).names = ["B", "A", "C"] := by decide
  refine ⟨plain, names, reflects.cases "A", reflects.cases "D", reflects.outcomes, ?_, ?_⟩
  · rw [ne_eq, reflects.allPassed]
    decide
  · rw [(report plain).1, names]
    decide

end TestRecord

end ScriptEngine
