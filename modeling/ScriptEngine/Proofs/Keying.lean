import ScriptEngine.Value.Basic
import ScriptEngine.Value.Table
import ScriptEngine.Proofs.Rounding

/-!
# Maps keyed by equality

A map is kept by keys that are compared as they are, while scripts compare values as
numbers are compared. Two values have one key when they are equal, and a not-a-number
has one with itself; so what a map holds is told by the stores and removals that it has
seen, in terms of the equality of scripts alone: for a key the last store under an equal
one, unless a removal came after it.
-/
namespace ScriptEngine

/-! ## Keys -/

/-- The values that can be keys. -/
def Value.IsKey : Value → Prop
  | .null | .bool _ | .number _ | .string _ => True
  | _ => False

/-- Equal, or the same not-a-number. -/
def Value.SameKey (a b : Value) : Prop := a.same b = true ∨ ∃ x : Number, x.isNaN = true ∧ a = .number x ∧ b = .number x

namespace Number

theorem toNat_magnitude (x : Number) : x.magnitude.toNat = x.bits.toNat % 2 ^ 63 := by
  unfold magnitude
  have mask : (0x7FFFFFFFFFFFFFFF : UInt64).toNat = 2 ^ 63 - 1 := by decide
  rw [UInt64.toNat_and, mask, Nat.and_two_pow_sub_one_eq_mod]

/-- A number is its sign and its magnitude. -/
theorem eq_iff_magnitude {x y : Number} : x = y ↔ x.magnitude = y.magnitude ∧ x.negative = y.negative := by
  constructor
  · rintro rfl
    exact ⟨rfl, rfl⟩
  · rintro ⟨magnitude, negative⟩
    have low := congrArg UInt64.toNat magnitude
    rw [toNat_magnitude, toNat_magnitude] at low
    have high : 2 ^ 63 ≤ x.bits.toNat ↔ 2 ^ 63 ≤ y.bits.toNat := by rw [← negative_iff, ← negative_iff, negative]
    have bound := x.bits.toNat_lt
    have bound' := y.bits.toNat_lt
    have same : x.bits = y.bits := UInt64.toNat_inj.mp (by omega)
    cases x
    cases y
    exact congrArg _ same

theorem isZero_iff {x : Number} : x.isZero = true ↔ x.magnitude = 0 := by
  have fields : x.isZero = true ↔ x.exponentField = 0 ∧ x.fraction = 0 := by
    unfold isZero isFinite significand
    rw [Bool.and_eq_true, bne_iff_ne, beq_iff_eq]
    split <;> omega
  rw [fields, ← UInt64.toNat_inj, toNat_magnitude, exponentField_eq, fraction_eq, show (0 : UInt64).toNat = 0 from rfl]
  omega

theorem isNaN_of_magnitude {x y : Number} (same : x.magnitude = y.magnitude) : x.isNaN = y.isNaN := by
  have low := congrArg UInt64.toNat same
  rw [toNat_magnitude, toNat_magnitude] at low
  unfold isNaN
  rw [exponentField_eq, exponentField_eq, fraction_eq, fraction_eq,
    show x.bits.toNat / 2 ^ 52 % 2 ^ 11 = y.bits.toNat / 2 ^ 52 % 2 ^ 11 by omega,
    show x.bits.toNat % 2 ^ 52 = y.bits.toNat % 2 ^ 52 by omega]

theorem equal_iff {x y : Number} : x.equal y = true ↔
    x.isNaN = false ∧ x.magnitude = y.magnitude ∧ (x.negative = y.negative ∨ x.magnitude = 0) := by
  unfold equal
  simp only [Bool.and_eq_true, Bool.or_eq_true, Bool.not_eq_true', beq_iff_eq]
  constructor
  · rintro ⟨⟨⟨number, -⟩, magnitude⟩, sign⟩
    exact ⟨number, magnitude, sign⟩
  · rintro ⟨number, magnitude, sign⟩
    exact ⟨⟨⟨number, isNaN_of_magnitude magnitude ▸ number⟩, magnitude⟩, sign⟩

/-- The word that stands for a number in a key. -/
def keyBits (x : Number) : UInt64 := if x.isZero then Number.zero.bits else x.bits

theorem keyBits_eq_iff {x y : Number} : x.keyBits = y.keyBits ↔ x.equal y = true ∨ x.isNaN = true ∧ x = y := by
  have zero (z : Number) : z.bits = Number.zero.bits → z.isZero = true := fun same =>
    (show z = Number.zero from congrArg Number.mk same) ▸ by decide
  unfold keyBits
  rw [equal_iff]
  by_cases here : x.isZero = true
  · have number : x.isNaN = false := by
      rw [isNaN_of_magnitude (y := Number.zero) ((isZero_iff.mp here).trans (by decide))]
      decide
    rw [if_pos here, number, isZero_iff.mp here]
    by_cases there : y.isZero = true
    · simp [there, isZero_iff.mp there]
    · have other : Number.zero.bits ≠ y.bits := fun same => there (zero y same.symm)
      have nonzero : ¬ 0 = y.magnitude := fun same => there (isZero_iff.mpr same.symm)
      simp [there, other, nonzero]
  · rw [if_neg here]
    have nonzero : x.magnitude ≠ 0 := fun same => here (isZero_iff.mpr same)
    constructor
    · intro same
      have equal : x = y := by
        by_cases there : y.isZero = true
        · rw [if_pos there] at same
          exact absurd (zero x same) here
        · rw [if_neg there] at same
          exact congrArg Number.mk same
      subst equal
      cases number : x.isNaN
      · exact .inl ⟨rfl, rfl, .inl rfl⟩
      · exact .inr ⟨rfl, rfl⟩
    · intro same
      have equal : x = y := by
        rcases same with ⟨-, magnitude, negative | none⟩ | ⟨-, equal⟩
        · exact eq_iff_magnitude.mpr ⟨magnitude, negative⟩
        · exact absurd none nonzero
        · exact equal
      subst equal
      rw [if_neg here]

end Number

namespace MapKey

theorem ofValue?_number (x : Number) : ofValue? (.number x) = some (.number x.keyBits) := rfl

theorem exists_ofValue?_iff {v : Value} : (∃ key, ofValue? v = some key) ↔ v.IsKey := by
  cases v <;> simp [ofValue?, Value.IsKey]

/-- Two values have one key when scripts see no difference between them. -/
theorem ofValue?_eq_iff {a b : Value} (known : a.IsKey) (known' : b.IsKey) :
    ofValue? a = ofValue? b ↔ a.SameKey b := by
  cases a with
  | number x =>
    cases b with
    | number y =>
      rw [ofValue?_number, ofValue?_number, Option.some_inj, MapKey.number.injEq, Number.keyBits_eq_iff]
      refine or_congr_right ?_
      constructor
      · rintro ⟨nan, rfl⟩
        exact ⟨x, nan, rfl, rfl⟩
      · rintro ⟨z, nan, here, there⟩
        cases here
        cases there
        exact ⟨nan, rfl⟩
    | null | bool _ | string _ => simp [ofValue?, Value.SameKey, Value.same]
    | _ => exact known'.elim
  | null | bool _ | string _ =>
    cases b with
    | null | bool _ | string _ | number _ => simp [ofValue?, Value.SameKey, Value.same]
    | _ => exact known'.elim
  | _ => exact known.elim

/-- A key stands for a value that has it. -/
theorem ofValue?_toValue {v : Value} {key : MapKey} (made : ofValue? v = some key) : ofValue? key.toValue = some key := by
  cases v with
  | number x =>
    rw [ofValue?_number] at made
    cases made
    show some (MapKey.number (Number.keyBits ⟨x.keyBits⟩)) = _
    unfold Number.keyBits
    by_cases zero : x.isZero = true <;> simp [zero]
  | null | bool _ | string _ => cases made; rfl
  | _ => cases made

end MapKey

/-! ## What a map has seen -/

/-- A change of a map. -/
inductive MapChange where
  | store (key value : Value)
  | remove (key : Value)

namespace MapChange

def key : MapChange → Value
  | store key _ => key
  | remove key => key

/-- The last change under an equal key stores this value. -/
def Lasting (changes : List MapChange) (k v : Value) : Prop :=
  ∃ before key after, changes = before ++ store key v :: after ∧ key.SameKey k ∧ ∀ c ∈ after, ¬ c.key.SameKey k

/-- What a map with these changes answers for a key. -/
def Answers (changes : List MapChange) (k v : Value) : Prop :=
  Lasting changes k v ∨ v = .null ∧ ∀ v', ¬ Lasting changes k v'

/-- These are the keys under which there is something, each of them once. -/
structure Keys (changes : List MapChange) (keys : List Value) : Prop where
  distinct : keys.Pairwise fun a b => ¬ a.SameKey b
  stored : ∀ k : Value, k.IsKey → ((∃ v, Lasting changes k v) ↔ ∃ key ∈ keys, key.SameKey k)

theorem not_lasting_nil {k v : Value} : ¬ Lasting [] k v := by
  rintro ⟨before, key, after, same, -⟩
  simp at same

/-- A change decides for its own key and for no other one. -/
theorem lasting_concat {changes : List MapChange} {c : MapChange} {k v : Value} : Lasting (changes ++ [c]) k v ↔
    (∃ key, c = store key v ∧ key.SameKey k) ∨ ¬ c.key.SameKey k ∧ Lasting changes k v := by
  constructor
  · rintro ⟨before, key, after, same, equal, later⟩
    rcases List.eq_nil_or_concat after with rfl | ⟨after', last, rfl⟩
    · obtain ⟨-, last⟩ := List.append_inj' same rfl
      cases last
      exact .inl ⟨key, rfl, equal⟩
    · have split : changes ++ [c] = (before ++ store key v :: after') ++ [last] := by simpa using same
      obtain ⟨front, last⟩ := List.append_inj' split rfl
      cases last
      exact .inr ⟨later _ (by simp), before, key, after', front, equal, fun d mem => later d (by simp [mem])⟩
  · rintro (⟨key, rfl, equal⟩ | ⟨other, before, key, after, rfl, equal, later⟩)
    · exact ⟨changes, key, [], rfl, equal, by simp⟩
    · refine ⟨before, key, after ++ [c], by simp, equal, fun d mem => ?_⟩
      rcases List.mem_append.mp mem with mem | mem
      · exact later d mem
      · obtain rfl := List.mem_singleton.mp mem
        exact other

end MapChange

/-- A table holds what lasts of these changes. -/
structure Table.Follows (t : Table MapKey Value) (changes : List MapChange) : Prop where
  keys : ∀ c ∈ changes, c.key.IsKey
  made : ∀ key ∈ Entries.keys t.entries, MapKey.ofValue? key.toValue = some key
  holds : ∀ (k : Value) (key : MapKey), MapKey.ofValue? k = some key → ∀ v, t.get? key = some v ↔ MapChange.Lasting changes k v

namespace Table.Follows

open MapChange

variable {t : Table MapKey Value} {changes : List MapChange} {k : Value} {key : MapKey}

theorem empty : Follows ∅ [] where
  keys := by simp
  made := by simp [EmptyCollection.emptyCollection, Table.empty, Entries.keys]
  holds k key _ v := iff_of_false (by simp [EmptyCollection.emptyCollection]) not_lasting_nil

theorem isKey (made : MapKey.ofValue? k = some key) : k.IsKey := MapKey.exists_ofValue?_iff.mp ⟨key, made⟩

theorem key_eq_iff {k' : Value} {key' : MapKey} (made : MapKey.ofValue? k = some key)
    (made' : MapKey.ofValue? k' = some key') : key = key' ↔ k.SameKey k' := by
  rw [← MapKey.ofValue?_eq_iff (isKey made) (isKey made'), made, made', Option.some_inj]

theorem store (follows : t.Follows changes) (made : MapKey.ofValue? k = some key) (v : Value) :
    (t.insert key v).Follows (changes ++ [.store k v]) where
  keys c mem := by
    rcases List.mem_append.mp mem with mem | mem
    · exact follows.keys c mem
    · obtain rfl := List.mem_singleton.mp mem
      exact isKey made
  made key' mem := by
    rcases Entries.mem_keys_put.mp mem with rfl | mem
    · exact MapKey.ofValue?_toValue made
    · exact follows.made key' mem
  holds k' key' made' v' := by
    rw [get?_insert, lasting_concat, ← follows.holds k' key' made']
    have same := key_eq_iff made made'
    by_cases here : key = key'
    · have equal := same.mp here
      simp [here, equal, MapChange.key]
    · have other : ¬ k.SameKey k' := fun equal => here (same.mpr equal)
      simp [here, other, MapChange.key]

theorem remove (follows : t.Follows changes) (made : MapKey.ofValue? k = some key) :
    (t.erase key).Follows (changes ++ [.remove k]) where
  keys c mem := by
    rcases List.mem_append.mp mem with mem | mem
    · exact follows.keys c mem
    · obtain rfl := List.mem_singleton.mp mem
      exact isKey made
  made key' mem := follows.made key' (((Entries.drop_sublist key t.entries).map Prod.fst).mem mem)
  holds k' key' made' v' := by
    rw [get?_erase, lasting_concat, ← follows.holds k' key' made']
    have same := key_eq_iff made made'
    by_cases here : key = key'
    · have equal := same.mp here
      simp [here, equal, MapChange.key]
    · have other : ¬ k.SameKey k' := fun equal => here (same.mpr equal)
      simp [here, other, MapChange.key]

theorem answers (follows : t.Follows changes) (made : MapKey.ofValue? k = some key) :
    Answers changes k ((t.get? key).getD .null) := by
  cases found : t.get? key with
  | some v => exact .inl ((follows.holds k key made v).mp found)
  | none =>
    refine .inr ⟨rfl, fun v lasting => ?_⟩
    rw [(follows.holds k key made v).mpr lasting] at found
    cases found

theorem contains_iff (follows : t.Follows changes) (made : MapKey.ofValue? k = some key) :
    t.contains key = true ↔ ∃ v, Lasting changes k v := by
  unfold Table.contains
  rw [Option.isSome_iff_exists]
  exact exists_congr (follows.holds k key made)

/-- The size counts the keys that are stored. -/
theorem size_eq (follows : t.Follows changes) : ∃ keys, t.size = keys.length ∧ Keys changes keys := by
  have made : ∀ key ∈ Entries.keys t.entries, MapKey.ofValue? key.toValue = some key := follows.made
  refine ⟨(Entries.keys t.entries).map MapKey.toValue, by simp [Table.size, Entries.keys], ?_, fun k known => ?_⟩
  · rw [List.pairwise_map]
    refine t.distinct.imp_of_mem fun here there other equal => other ?_
    exact (key_eq_iff (made _ here) (made _ there)).mpr equal
  · obtain ⟨key, keyed⟩ := MapKey.exists_ofValue?_iff.mpr known
    rw [← follows.contains_iff keyed]
    constructor
    · intro present
      obtain ⟨v, found⟩ := Option.isSome_iff_exists.mp present
      have mem : key ∈ Entries.keys t.entries := List.mem_map_of_mem (Entries.mem_of_find? found)
      exact ⟨_, List.mem_map_of_mem mem, (key_eq_iff (made key mem) keyed).mp rfl⟩
    · rintro ⟨_, listed, equal⟩
      obtain ⟨key', mem, rfl⟩ := List.mem_map.mp listed
      obtain ⟨⟨first, v⟩, entry, here⟩ := List.mem_map.mp mem
      have same : first = key := here.trans ((key_eq_iff (made key' mem) keyed).mpr equal)
      subst same
      exact Option.isSome_iff_exists.mpr ⟨v, Table.mem_toList.mp entry⟩

end Table.Follows

end ScriptEngine
