/-!
# Tables

A table holds at most one value per key and keeps the keys in the order in which
they came. Storing under a key that is present changes the value and not the
order. `get?_insert` and `get?_erase` say what a table answers after a change;
the order shows only in `toList`.
-/
namespace ScriptEngine

namespace Entries
variable {κ α : Type} [DecidableEq κ]

def put (k : κ) (v : α) : List (κ × α) → List (κ × α)
  | [] => [(k, v)]
  | (k', v') :: rest => if k' = k then (k, v) :: rest else (k', v') :: put k v rest

def drop (k : κ) : List (κ × α) → List (κ × α)
  | [] => []
  | (k', v') :: rest => if k' = k then rest else (k', v') :: drop k rest

def find? (k : κ) : List (κ × α) → Option α
  | [] => none
  | (k', v') :: rest => if k' = k then some v' else find? k rest

def keys (es : List (κ × α)) : List κ := es.map Prod.fst

theorem mem_keys_put {k k' : κ} {v : α} {es : List (κ × α)} :
    k' ∈ keys (put k v es) ↔ k' = k ∨ k' ∈ keys es := by
  induction es with
  | nil => simp [put, keys]
  | cons e rest ih =>
    obtain ⟨a, b⟩ := e
    by_cases h : a = k
    · subst h; simp [put, keys]
    · simp only [put, h, if_false, keys, List.map_cons, List.mem_cons] at ih ⊢
      rw [ih]; grind

theorem nodup_put {k : κ} {v : α} {es : List (κ × α)} (h : (keys es).Nodup) :
    (keys (put k v es)).Nodup := by
  induction es with
  | nil => simp [put, keys]
  | cons e rest ih =>
    obtain ⟨a, b⟩ := e
    have h' : a ∉ keys rest ∧ (keys rest).Nodup := by simpa [keys] using h
    by_cases hk : a = k
    · subst hk; simpa [put, keys] using h
    · have hn : a ∉ keys (put k v rest) := by rw [mem_keys_put]; simp [hk, h'.1]
      simpa [put, hk, keys] using And.intro hn (ih h'.2)

theorem drop_sublist (k : κ) (es : List (κ × α)) : List.Sublist (drop k es) es := by
  induction es with
  | nil => simp [drop]
  | cons e rest ih =>
    obtain ⟨a, b⟩ := e
    by_cases h : a = k <;> simp [drop, h, ih]

theorem nodup_drop {k : κ} {es : List (κ × α)} (h : (keys es).Nodup) :
    (keys (drop k es)).Nodup :=
  h.sublist ((drop_sublist k es).map Prod.fst)

theorem find?_put (k k' : κ) (v : α) (es : List (κ × α)) :
    find? k' (put k v es) = if k = k' then some v else find? k' es := by
  induction es with
  | nil => simp [put, find?]
  | cons e rest ih => obtain ⟨a, b⟩ := e; grind [put, find?]

theorem find?_eq_none {k : κ} {es : List (κ × α)} (h : k ∉ keys es) : find? k es = none := by
  induction es with
  | nil => rfl
  | cons e rest ih => obtain ⟨a, b⟩ := e; grind [find?, keys]

theorem find?_eq_some {k : κ} {v : α} {es : List (κ × α)} (h : (keys es).Nodup) :
    find? k es = some v ↔ (k, v) ∈ es := by
  induction es with
  | nil => simp [find?]
  | cons e rest ih =>
    obtain ⟨a, b⟩ := e
    have h' : a ∉ keys rest ∧ (keys rest).Nodup := by simpa [keys] using h
    by_cases hk : a = k
    · subst hk
      have absent : (a, v) ∉ rest := fun mem => h'.1 (List.mem_map_of_mem mem)
      simp [find?, absent, eq_comm]
    · simp [find?, hk, Ne.symm hk, ih h'.2]

theorem mem_of_find? {k : κ} {v : α} {es : List (κ × α)} (h : find? k es = some v) : (k, v) ∈ es := by
  induction es with
  | nil => cases h
  | cons e rest ih =>
    obtain ⟨a, b⟩ := e
    by_cases hk : a = k
    · subst hk
      simp [find?] at h
      simp [h]
    · simp only [find?, hk, if_false] at h
      exact List.mem_cons_of_mem _ (ih h)

theorem find?_drop (k k' : κ) {es : List (κ × α)} (h : (keys es).Nodup) :
    find? k' (drop k es) = if k = k' then none else find? k' es := by
  induction es with
  | nil => simp [drop, find?]
  | cons e rest ih =>
    obtain ⟨a, b⟩ := e
    have h' : a ∉ keys rest ∧ (keys rest).Nodup := by simpa [keys] using h
    have hn := find?_eq_none h'.1
    grind [drop, find?]

end Entries

structure Table (κ α : Type) [DecidableEq κ] where
  entries : List (κ × α)
  distinct : (Entries.keys entries).Nodup

namespace Table
variable {κ α : Type} [DecidableEq κ]

def empty : Table κ α := ⟨[], by simp [Entries.keys]⟩

instance : Inhabited (Table κ α) := ⟨empty⟩

instance : EmptyCollection (Table κ α) := ⟨empty⟩

def toList (t : Table κ α) : List (κ × α) := t.entries

def size (t : Table κ α) : Nat := t.entries.length

def get? (t : Table κ α) (k : κ) : Option α := Entries.find? k t.entries

def contains (t : Table κ α) (k : κ) : Bool := (t.get? k).isSome

def insert (t : Table κ α) (k : κ) (v : α) : Table κ α :=
  ⟨Entries.put k v t.entries, Entries.nodup_put t.distinct⟩

/-- Stores a value unless the key is present. -/
def insertNew (t : Table κ α) (k : κ) (v : α) : Table κ α :=
  if t.contains k then t else t.insert k v

def erase (t : Table κ α) (k : κ) : Table κ α :=
  ⟨Entries.drop k t.entries, Entries.nodup_drop t.distinct⟩

def insertAll (t : Table κ α) (es : List (κ × α)) : Table κ α :=
  es.foldl (fun t e => t.insert e.1 e.2) t

def insertAllNew (t : Table κ α) (es : List (κ × α)) : Table κ α :=
  es.foldl (fun t e => t.insertNew e.1 e.2) t

def ofList (es : List (κ × α)) : Table κ α := empty.insertAll es

@[simp] theorem get?_empty (k : κ) : (empty : Table κ α).get? k = none := rfl

theorem get?_insert (t : Table κ α) (k k' : κ) (v : α) :
    (t.insert k v).get? k' = if k = k' then some v else t.get? k' :=
  Entries.find?_put k k' v t.entries

theorem get?_erase (t : Table κ α) (k k' : κ) :
    (t.erase k).get? k' = if k = k' then none else t.get? k' :=
  Entries.find?_drop k k' t.distinct

theorem mem_toList {t : Table κ α} {k : κ} {v : α} : (k, v) ∈ t.toList ↔ t.get? k = some v :=
  (Entries.find?_eq_some t.distinct).symm

theorem get?_insertNew (t : Table κ α) (k k' : κ) (v : α) :
    (t.insertNew k v).get? k' = (t.get? k').or (if k = k' then some v else none) := by
  unfold insertNew contains
  by_cases present : k = k'
  · subst present
    cases found : t.get? k <;> simp [found, get?_insert]
  · cases t.get? k <;> simp [present, get?_insert]

/-- What a table has stays; of several new values for a key the first is taken. -/
theorem get?_insertAllNew (t : Table κ α) (es : List (κ × α)) (k : κ) :
    (t.insertAllNew es).get? k = (t.get? k).or (Entries.find? k es) := by
  induction es generalizing t with
  | nil => simp [insertAllNew, Entries.find?]
  | cons e rest ih =>
    obtain ⟨a, b⟩ := e
    have step : t.insertAllNew ((a, b) :: rest) = (t.insertNew a b).insertAllNew rest := rfl
    rw [step, ih, get?_insertNew, Option.or_assoc]
    by_cases h : a = k <;> simp [h, Entries.find?]

theorem mem_of_insertAll {t : Table κ α} {es : List (κ × α)} {k : κ} {v : α}
    (found : (t.insertAll es).get? k = some v) : t.get? k = some v ∨ (k, v) ∈ es := by
  induction es generalizing t with
  | nil => exact .inl found
  | cons e rest ih =>
    rcases ih (t := t.insert e.1 e.2) found with before | later
    · rw [get?_insert] at before
      split at before
      · next same =>
        cases before
        exact .inr (List.mem_cons.mpr (.inl (Prod.ext same.symm rfl)))
      · exact .inl before
    · exact .inr (List.mem_cons_of_mem e later)

/-- New values for distinct keys come before what a table has. -/
theorem get?_insertAll (t : Table κ α) {es : List (κ × α)} (distinct : (Entries.keys es).Nodup) (k : κ) :
    (t.insertAll es).get? k = (Entries.find? k es).or (t.get? k) := by
  induction es generalizing t with
  | nil => rfl
  | cons e rest ih =>
    obtain ⟨a, b⟩ := e
    have apart : a ∉ Entries.keys rest ∧ (Entries.keys rest).Nodup := by
      simpa [Entries.keys] using distinct
    have step : t.insertAll ((a, b) :: rest) = (t.insert a b).insertAll rest := rfl
    rw [step, ih _ apart.2, get?_insert]
    by_cases h : a = k
    · subst h
      simp [Entries.find?, Entries.find?_eq_none apart.1]
    · simp [Entries.find?, h]

/-- What another table has comes before what a table has. -/
theorem get?_insertAll_toList (t other : Table κ α) (k : κ) :
    (t.insertAll other.toList).get? k = (other.get? k).or (t.get? k) :=
  t.get?_insertAll other.distinct k

end Table

end ScriptEngine
