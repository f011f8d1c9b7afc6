import ScriptEngine.Value.Contract

/-!
# The order of values by their members

`meets` compares two values member by member: each name that is required is
provided, and what is provided under the name of a callable can take its place.
A field provides less than a callable, so the members of one name are ordered as
well, and `meets` is a preorder because that order is one.

Taking the place of a callable is transitive as far as the numbers of arguments
are known. A callable whose number is not fixed takes the place of any other, and
any other takes its place: in the middle of two steps it would join callables of
different numbers. So transitivity asks for known numbers in the middle.
-/
namespace ScriptEngine

namespace Heap

variable {h : Heap}

/-! ## Callables -/

theorem keepsPromises_ok {required provided : Modifiers} :
    keepsPromises required provided = .ok () ↔
      (required.isLocal → provided.isLocal) ∧ (required.isPure → provided.isPure) := by
  obtain ⟨a, b⟩ := required
  obtain ⟨c, d⟩ := provided
  cases a <;> cases b <;> cases c <;> cases d <;> simp [keepsPromises]

/-- What it takes to stand in: where both numbers of arguments are known they are the same. -/
theorem standsIn_ok {required provided : Value} : h.standsIn required provided = .ok () ↔
    provided.isCallable ∧
      (∀ m n, h.arity? required = some m → h.arity? provided = some n → m = n) ∧
      ((h.modifiers required).isLocal → (h.modifiers provided).isLocal) ∧
      ((h.modifiers required).isPure → (h.modifiers provided).isPure) := by
  unfold standsIn
  cases callable : provided.isCallable with
  | false => simp
  | true =>
    cases want : h.arity? required with
    | none => simp [keepsPromises_ok]
    | some m =>
      cases given : h.arity? provided with
      | none => simp [keepsPromises_ok]
      | some n =>
        by_cases same : m = n <;> simp [same, keepsPromises_ok]

theorem standsIn_refl {v : Value} (callable : v.isCallable) : h.standsIn v v = .ok () := by
  refine standsIn_ok.mpr ⟨callable, fun m n hm hn => ?_, id, id⟩
  rw [hm] at hn
  exact Option.some.inj hn

theorem standsIn_trans {u v w : Value} (known : (h.arity? v).isSome) (first : h.standsIn u v = .ok ())
    (second : h.standsIn v w = .ok ()) : h.standsIn u w = .ok () := by
  obtain ⟨-, arity, isLocal, isPure⟩ := standsIn_ok.mp first
  obtain ⟨callable, arity', isLocal', isPure'⟩ := standsIn_ok.mp second
  refine standsIn_ok.mpr ⟨callable, fun m n hm hn => ?_, isLocal' ∘ isLocal, isPure' ∘ isPure⟩
  obtain ⟨k, hk⟩ := Option.isSome_iff_exists.mp known
  calc m = k := arity m k hm hk
    _ = n := arity' k n hk hn

/-! ## Members of one name -/

/-- A member that is a callable can be called. -/
def Member.Sound : Member → Prop
  | .field => True
  | .callable v => v.isCallable

/-- A member that is a callable takes a known number of arguments. -/
def Member.Fixed (h : Heap) : Member → Prop
  | .field => True
  | .callable v => (h.arity? v).isSome

theorem memberMeets_callable {u v : Value} :
    h.memberMeets (.callable u) (some (.callable v)) ↔ h.standsIn u v = .ok () := by
  change (h.standsIn u v).isOk = true ↔ _
  cases h.standsIn u v <;> simp [Except.isOk, Except.toBool]

theorem memberMeets_refl {m : Member} (sound : m.Sound) : h.memberMeets m (some m) := by
  cases m with
  | field => rfl
  | callable v => exact memberMeets_callable.mpr (standsIn_refl sound)

theorem memberMeets_trans {k l : Member} {m : Option Member} (fixed : l.Fixed h)
    (first : h.memberMeets k (some l)) (second : h.memberMeets l m) : h.memberMeets k m := by
  cases m with
  | none => cases second
  | some m =>
    cases k with
    | field => rfl
    | callable u =>
      cases l with
      | field => cases first
      | callable v =>
        cases m with
        | field => cases second
        | callable w =>
          exact memberMeets_callable.mpr <| standsIn_trans fixed
            (memberMeets_callable.mp first) (memberMeets_callable.mp second)

/-! ## Members of values -/

/-- The type of an instance, and a type itself. -/
def typeOf? (h : Heap) : Value → Option UserType
  | .object ref => (h.object ref).fromType.map h.userType
  | .userType ref => some (h.userType ref)
  | _ => none

/-- The methods of a value's type are closures. -/
def ClosureMethods (h : Heap) (v : Value) : Prop :=
  ∀ t name method, h.typeOf? v = some t → t.method? name = some method → ∃ ref, method = .closure ref

/-- All callable members of a value take known numbers of arguments. -/
def FixedMembers (h : Heap) (v : Value) : Prop :=
  ∀ members name w, h.members? v = some members → members.get? name = some (.callable w) →
    (h.arity? w).isSome

theorem fieldMember_sound (v : Value) : (fieldMember v).Sound := by
  unfold fieldMember
  split
  · assumption
  · trivial

theorem ownMembers_sound {o : Object} {name : String} {m : Member}
    (found : (Table.ofList (o.fields.toList.map fun (name, v) => (name, fieldMember v))).get? name =
      some m) : m.Sound := by
  rcases Table.mem_of_insertAll found with empty | own
  · cases empty
  · obtain ⟨⟨name', v⟩, -, same⟩ := List.mem_map.mp own
    cases same
    exact fieldMember_sound v

theorem typeMembers_get? (t : UserType) (own : Table String Member) (name : String) :
    (typeMembers t own).get? name = ((own.get? name).or
      (Entries.find? name (t.fields.map fun name => (name, .field)))).or
      ((t.method? name).map .callable) := by
  have methods (es : List (String × Value)) :
      Entries.find? name (es.map fun e => (e.1, Member.callable e.2)) =
        (Entries.find? name es).map .callable := by
    induction es with
    | nil => rfl
    | cons e rest ih =>
      by_cases here : e.1 = name <;> simp [Entries.find?, here, ih]
  unfold typeMembers
  dsimp only
  rw [Table.get?_insertAllNew, Table.get?_insertAllNew]
  exact congrArg _ (methods t.methods.toList)

theorem typeMembers_sound {t : UserType} {own : Table String Member} {name : String} {m : Member}
    (closures : ∀ name method, t.method? name = some method → ∃ ref, method = .closure ref)
    (sound : ∀ m, own.get? name = some m → m.Sound)
    (found : (typeMembers t own).get? name = some m) : m.Sound := by
  rw [typeMembers_get?, Option.or_eq_some_iff, Option.or_eq_some_iff] at found
  rcases found with (held | ⟨-, declared⟩) | ⟨-, method⟩
  · exact sound m held
  · obtain ⟨name', -, same⟩ := List.mem_map.mp (Entries.mem_of_find? declared)
    cases same
    trivial
  · obtain ⟨v, known, rfl⟩ := Option.map_eq_some_iff.mp method
    obtain ⟨ref, rfl⟩ := closures name v known
    rfl

theorem members_sound {v : Value} {members : Table String Member} {name : String} {m : Member}
    (closures : h.ClosureMethods v) (listed : h.members? v = some members)
    (found : members.get? name = some m) : m.Sound := by
  cases v with
  | object ref =>
    unfold members? at listed
    dsimp only at listed
    cases type : (h.object ref).fromType with
    | none =>
      rw [type] at listed
      cases listed
      exact ownMembers_sound found
    | some t =>
      rw [type] at listed
      cases listed
      exact typeMembers_sound (fun name method => closures _ name method (by rw [typeOf?, type]; rfl))
        (fun _ => ownMembers_sound) found
  | userType ref =>
    cases listed
    exact typeMembers_sound (fun name method => closures _ name method rfl)
      (fun m empty => by cases empty) found
  | _ => cases listed

/-- Values that have members are met member by member. -/
theorem meets_of_members {a b : Value} {provided wanted : Table String Member}
    (ha : h.members? a = some provided) (hb : h.members? b = some wanted) :
    h.meets a b ↔ ∀ name m, wanted.get? name = some m → h.memberMeets m (provided.get? name) := by
  unfold meets
  rw [ha, hb]
  simp only [List.all_eq_true, Prod.forall, Table.mem_toList]

/-- Values of which one has no members are met by their kind, and then neither has any. -/
theorem meets_of_none {a b : Value} (bare : h.members? a = none ∨ h.members? b = none) :
    h.meets a b ↔ a.kindName = b.kindName := by
  unfold meets
  rcases bare with none | none
  · simp [none]
  · cases h.members? a <;> simp [none]

/-- Whether a value has members is a matter of its kind. -/
theorem members_isSome (v : Value) :
    (h.members? v).isSome ↔ v.kindName = "instance" ∨ v.kindName = "type" := by
  cases v with
  | object ref =>
    unfold members?
    dsimp only
    cases (h.object ref).fromType <;> simp [Value.kindName]
  | _ => simp [members?, Value.kindName]

/-- What a value meets has members if the value has. -/
theorem members_isSome_of_meets {a b : Value} (meets : h.meets a b) :
    (h.members? a).isSome ↔ (h.members? b).isSome := by
  cases ha : h.members? a <;> cases hb : h.members? b
  · exact Iff.rfl
  all_goals first
    | exact Iff.rfl
    | rw [← ha, ← hb, members_isSome, members_isSome, (meets_of_none (by simp [ha, hb])).mp meets]

end Heap

open Heap

/-- Where methods are closures every value meets itself. A value that meets one that meets another
meets the other, where the callable members of the one between them take known numbers of arguments. -/
theorem Heap.meets_preorder (h : Heap) : (∀ v, h.ClosureMethods v → h.meets v v) ∧
    ∀ a b c, h.FixedMembers b → h.meets a b → h.meets b c → h.meets a c := by
  refine ⟨fun v closures => ?_, fun a b c fixed first second => ?_⟩
  · cases listed : h.members? v with
    | none => exact (meets_of_none (.inl listed)).mpr rfl
    | some members =>
      refine (meets_of_members listed listed).mpr fun name m found => ?_
      rw [found]
      exact memberMeets_refl (members_sound closures listed found)
  · have kinds := members_isSome_of_meets first
    have kinds' := members_isSome_of_meets second
    cases hb : h.members? b with
    | none =>
      -- none of the three has members
      have ha : h.members? a = none := by simpa [hb] using kinds
      have hc : h.members? c = none := by simpa [hb] using kinds'
      refine (meets_of_none (.inl ha)).mpr ?_
      exact ((meets_of_none (.inl ha)).mp first).trans ((meets_of_none (.inl hb)).mp second)
    | some between =>
      obtain ⟨provided, ha⟩ := Option.isSome_iff_exists.mp (by simpa [hb] using kinds)
      obtain ⟨wanted, hc⟩ := Option.isSome_iff_exists.mp (by simpa [hb] using kinds')
      refine (meets_of_members ha hc).mpr fun name k required => ?_
      have upper := (meets_of_members hb hc).mp second name k required
      cases middle : between.get? name with
      | none =>
        rw [middle] at upper
        cases upper
      | some l =>
        rw [middle] at upper
        refine memberMeets_trans (l := l) ?_ upper ((meets_of_members ha hb).mp first name l middle)
        cases l with
        | field => trivial
        | callable w => exact fixed between name w hb middle

/-- An instance of a class with a field and a method, an object that has the method bound, and one
that asks for a function of one argument; what is bound is local and pure, what is asked for is not. -/
def Heap.ofPoint : Heap where
  scripts := #[{
    hash := "", top := .listed 0, diagnostics := #[]
    chunks := #[
      { name := "move", source := "", chain := "", kind := .method, modifiers := ⟨true, true⟩, arguments := #[0] },
      { name := "f", source := "", chain := "", kind := .function, arguments := #[0] }] }]
  closures := #[⟨⟨0, 0⟩, #[]⟩, ⟨⟨0, 1⟩, #[]⟩]
  types := #[{ name := "Point", kind := .classKind, fields := ["x"], methods := .ofList [("move", .closure 0)] }]
  objects := #[⟨some 0, ∅, {}⟩, ⟨none, .ofList [("x", .null), ("move", .bound 0)], {}⟩,
    ⟨none, .ofList [("move", .closure 1)], {}⟩]
  bounds := #[⟨.object 0, .closure 0⟩]

theorem Heap.meets_ofPoint : ofPoint.ClosureMethods (.object 0) ∧ ofPoint.meets (.object 0) (.object 0) ∧
    ofPoint.FixedMembers (.object 1) ∧ ofPoint.meets (.object 0) (.object 1) ∧
    ofPoint.meets (.object 1) (.object 2) ∧ ofPoint.meets (.object 0) (.object 2) := by
  have closures : ofPoint.ClosureMethods (.object 0) := by
    intro t name method type found
    cases type
    rcases Table.mem_of_insertAll found with empty | listed
    · cases empty
    · cases List.mem_singleton.mp listed
      exact ⟨0, rfl⟩
  have fixed : ofPoint.FixedMembers (.object 1) := by
    intro members name w listed found
    cases listed
    rcases Table.mem_of_insertAll found with empty | listed
    · cases empty
    · have cases : (name, Member.callable w) ∈ [("x", .field), ("move", .callable (.bound 0))] := listed
      simp only [List.mem_cons, Prod.mk.injEq, reduceCtorEq, and_false, Member.callable.injEq,
        List.not_mem_nil, or_false, false_or] at cases
      rw [cases.2]
      rfl
  have first : ofPoint.meets (.object 0) (.object 1) := by decide +kernel
  have second : ofPoint.meets (.object 1) (.object 2) := by decide +kernel
  exact ⟨closures, ofPoint.meets_preorder.1 _ closures, fixed, first, second,
    ofPoint.meets_preorder.2 _ _ _ fixed first second⟩

end ScriptEngine
