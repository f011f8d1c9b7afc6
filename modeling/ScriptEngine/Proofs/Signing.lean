import ScriptEngine.Proofs.Building
import ScriptEngine.Proofs.Meeting
import ScriptEngine.Proofs.Restricting

/-!
# Contracts and `meets`

A type that is finished is checked against its contracts, method by method, and the
operator `meets` compares the members of two types. Where a contract asks for methods
only, none under the name of a field of the type, both look up the same methods and
compare them alike. So the check of a declaration passes exactly if the type meets
its contracts, those that it signs and those that its mixins bring.
-/
namespace ScriptEngine

open Run

namespace Heap

variable {h : Heap} {t c ref : Nat}

/-- Contract `c` declares no fields, and none of its methods has the name of a field of type `t`. -/
structure AsksMethods (h : Heap) (t c : Nat) : Prop where
  fieldless : (h.userType c).fields = []
  apart : ∀ name ∈ (h.userType t).fields, (h.userType c).method? name = none

/-! ## The check of a declaration -/

theorem unmet?_eq_none {u : UserType} {required : List (String × Value)} : h.unmet? u required = none ↔
    ∀ name method, (name, method) ∈ required →
      ∃ provided, u.method? name = some provided ∧ h.standsIn method provided = .ok () := by
  refine ⟨fun met name method => provided_of_met met, fun each => ?_⟩
  induction required with
  | nil => rfl
  | cons first rest ih =>
    obtain ⟨name, method⟩ := first
    obtain ⟨provided, found, stands⟩ := each name method List.mem_cons_self
    simp only [unmet?, found, stands]
    exact ih fun name method mem => each name method (List.mem_cons_of_mem _ mem)

theorem violation?_eq_none {u : UserType} {l : List UserType} :
    violation? h u l = none ↔ ∀ contract ∈ l, violation? h u [contract] = none := by
  induction l with
  | nil => simp [violation?]
  | cons first rest ih =>
    rw [List.forall_mem_cons, ← ih]
    simp only [violation?]
    cases h.unmet? u first.methods.toList with
    | none => simp
    | some reason => simp

theorem violation?_singleton {u contract : UserType} : violation? h u [contract] = none ↔
    ∀ name method, contract.method? name = some method →
      ∃ provided, u.method? name = some provided ∧ h.standsIn method provided = .ok () := by
  simp only [violation?]
  constructor
  · intro met name method wanted
    split at met
    · cases met
    · next none => exact unmet?_eq_none.mp none name method (Table.mem_toList.mpr wanted)
  · intro each
    rw [unmet?_eq_none.mpr fun name method mem => each name method (Table.mem_toList.mp mem)]

/-! ## Members of types -/

theorem find?_fields (name : String) (fields : List String) :
    Entries.find? name (fields.map fun name => (name, Member.field)) =
      if name ∈ fields then some .field else none := by
  induction fields with
  | nil => rfl
  | cons field rest ih =>
    by_cases same : field = name
    · simp [Entries.find?, same]
    · simp [Entries.find?, same, ih, Ne.symm same]

/-- A member of a type is a field or else a method. -/
theorem members_userType : h.members? (.userType t) = some (typeMembers (h.userType t) ∅) ∧
    ∀ name, (typeMembers (h.userType t) ∅).get? name =
      if name ∈ (h.userType t).fields then some .field else ((h.userType t).method? name).map .callable := by
  refine ⟨rfl, fun name => ?_⟩
  have none : (∅ : Table String Member).get? name = Option.none := rfl
  rw [typeMembers_get?, none, find?_fields]
  split <;> simp

/-- Among methods alone the check of a declaration is the comparison of members. -/
theorem violation?_iff_meets (asks : h.AsksMethods t c) :
    violation? h (h.userType t) [h.userType c] = none ↔ h.meets (.userType t) (.userType c) := by
  obtain ⟨provided, member⟩ := members_userType (h := h) (t := t)
  obtain ⟨wanted, required⟩ := members_userType (h := h) (t := c)
  rw [violation?_singleton, meets_of_members provided wanted]
  simp only [required, asks.fieldless, List.not_mem_nil, if_false, Option.map_eq_some_iff]
  constructor
  · rintro met name _ ⟨method, want, rfl⟩
    obtain ⟨v, found, stands⟩ := met name method want
    have method_ : name ∉ (h.userType t).fields := fun field => by simp [asks.apart name field] at want
    rw [member, if_neg method_, found]
    exact memberMeets_callable.mpr stands
  · intro met name method want
    have meets := met name _ ⟨method, want, rfl⟩
    have method_ : name ∉ (h.userType t).fields := fun field => by simp [asks.apart name field] at want
    rw [member, if_neg method_] at meets
    cases found : (h.userType t).method? name with
    | none =>
      rw [found] at meets
      cases meets
    | some v =>
      rw [found] at meets
      exact ⟨v, rfl, memberMeets_callable.mp meets⟩

end Heap

/-! ## Finished types -/

/-- A type with the members and contracts of its mixins, ahead of the check. -/
def Heap.absorbed (h : Heap) (t : Nat) : Heap :=
  h.updateType t (absorbAll ((h.userType t).mixins.map h.userType))

theorem contracts_absorbed {h : Heap} {t : Nat} : ((h.absorbed t).userType t).contracts =
    (h.userType t).contracts ++ (h.userType t).mixins.flatMap fun m => (h.userType m).contracts := by
  unfold Heap.absorbed
  cases found : h.types[t]? with
  | none =>
    have missing : h.userType t = default := by rw [Heap.userType, found]; rfl
    have made : (h.updateType t (absorbAll ((default : UserType).mixins.map h.userType))).userType t = default := by
      rw [Heap.userType, Heap.types_updateType, if_pos rfl, found]
      rfl
    rw [missing, made]
    rfl
  | some u =>
    have here : h.userType t = u := by
      rw [Heap.userType, found]
      rfl
    have made : (h.updateType t (absorbAll (u.mixins.map h.userType))).userType t =
        absorbAll (u.mixins.map h.userType) u := by
      rw [Heap.userType, Heap.types_updateType, if_pos rfl, found]
      rfl
    rw [here, made]
    change ((u.mixins.map h.userType).foldl UserType.absorb u).contracts = _
    rw [UserType.contracts_absorb, List.flatMap_map]

namespace Run

variable {w w' : World} {t c : Nat} {stack : Array Value}

theorem peekType_top {op : String} (top : w.machine.stack.back? = some (.userType t)) :
    peekType op w = .ok t w := by
  have bound : 0 < w.machine.stack.size := by
    rw [Array.back?_eq_getElem?] at top
    have := (Array.getElem?_eq_some_iff.mp top).1
    omega
  have peeked : peek 0 w = .ok (.userType t) w := by
    change (if 0 < w.machine.stack.size then slot (w.machine.stack.size - 1 - 0)
      else fail .stackUnderflow) w = _
    rw [if_pos bound, Nat.sub_zero]
    unfold slot
    rw [← Array.back?_eq_getElem?, top]
  exact bind_of_ok peeked _

/-- The check of a declaration passes if it does so contract by contract. -/
theorem finishType_iff (top : w.machine.stack.back? = some (.userType t)) :
    (∃ w', finishType w = .ok () w') ↔ ∀ contract ∈ ((w.heap.absorbed t).userType t).contracts,
      violation? (w.heap.absorbed t) ((w.heap.absorbed t).userType t)
        [(w.heap.absorbed t).userType contract] = none := by
  have each := Heap.violation?_eq_none (h := w.heap.absorbed t) (u := (w.heap.absorbed t).userType t)
    (l := ((w.heap.absorbed t).userType t).contracts.map (w.heap.absorbed t).userType)
  rw [List.forall_mem_map] at each
  rw [← each]
  refine ⟨fun ⟨w', ran⟩ => (finishType_ok (typeOnTop_eq top) ran).1, fun met => ?_⟩
  unfold finishType
  rw [bind_of_ok (peekType_top top)]
  change ∃ w', checkType t { w with heap := w.heap.absorbed t } = .ok () w'
  unfold checkType
  rw [bind_of_ok (x := heap) rfl]
  dsimp only
  rw [met]
  exact ⟨_, rfl⟩

theorem meets_ran {a b : Value} (on : w.machine.stack = (stack.push a).push b) : binary .meets w =
    .ok () { w with machine.stack := stack.push (.bool (w.heap.meets a b)) } := by
  unfold binary
  rw [bind_of_ok (pop_push on)]
  have below : ({ w with machine.stack := stack.push a } : World).machine.stack = stack.push a := rfl
  rw [bind_of_ok (pop_push below)]
  rfl

/-- A type that is finished meets the contracts that ask it for methods. -/
theorem meets_of_finishType (onTop : typeOnTop w = some t) (ran : finishType w = .ok () w') :
    (w'.heap.userType t).contracts =
      (w.heap.userType t).contracts ++ (w.heap.userType t).mixins.flatMap (fun m => (w.heap.userType m).contracts) ∧
    ∀ contract ∈ (w'.heap.userType t).contracts, w'.heap.AsksMethods t contract →
      w'.heap.meets (.userType t) (.userType contract) := by
  obtain ⟨met, heap⟩ := finishType_ok onTop ran
  change violation? (w.heap.absorbed t) ((w.heap.absorbed t).userType t)
    (((w.heap.absorbed t).userType t).contracts.map (w.heap.absorbed t).userType) = none at met
  change w'.heap = (w.heap.absorbed t).updateType t _ at heap
  have signed := contracts_absorbed (h := w.heap) (t := t)
  cases found : (w.heap.absorbed t).types[t]? with
  | none =>
    have missing : (w.heap.absorbed t).userType t = default := by
      rw [Heap.userType, found]
      rfl
    have made : w'.heap.userType t = default := by
      rw [heap, Heap.userType, Heap.types_updateType, if_pos rfl, found]
      rfl
    rw [missing] at signed
    rw [made]
    exact ⟨signed, fun _ mem => by cases mem⟩
  | some u =>
    have here : (w.heap.absorbed t).userType t = u := by
      rw [Heap.userType, found]
      rfl
    rw [here] at met signed
    obtain ⟨⟨flags, made⟩, contracts_met⟩ := Heap.met_of_restricted found (fun u => ⟨_, rfl⟩) met
    rw [← heap] at made contracts_met
    rw [made]
    refine ⟨signed, fun contract mem asks => ?_⟩
    refine (Heap.violation?_iff_meets asks).mp (Heap.violation?_singleton.mpr fun name required wanted => ?_)
    rw [made]
    exact contracts_met contract mem name required wanted

end Run

/-- **Contracts and `meets`.** Where a contract asks for methods only, none under the name of a field of
the type, `meets` gives whether the check of the type against the contract passes. A declaration is checked
against its contracts one by one, with the members of its mixins; a type that is finished meets all those
that ask for methods only, its own and those of its mixins. -/
theorem meets_agrees_with_contracts :
    (∀ (again : Reentry) (stop : Nat) (w : World) (stack : Array Value) (t c : Nat),
      w.machine.stack = (stack.push (.userType t)).push (.userType c) → w.heap.AsksMethods t c →
      step again stop .meets w = .ok .next { w with machine :=
        { w.machine with stack := stack.push (.bool
          (violation? w.heap (w.heap.userType t) [w.heap.userType c]).isNone) } }) ∧
    (∀ (w : World) (t : Nat), w.machine.stack.back? = some (.userType t) →
      ((∃ w', finishType w = .ok () w') ↔ ∀ contract ∈ ((w.heap.absorbed t).userType t).contracts,
        violation? (w.heap.absorbed t) ((w.heap.absorbed t).userType t)
          [(w.heap.absorbed t).userType contract] = none)) ∧
    ∀ (again : Reentry) (stop : Nat) (w w' : World) (c : Control) (t : Nat), w.next? = some .finishType →
      typeOnTop w = some t → cycle again stop w = .ok c w' →
      (w'.heap.userType t).contracts = (w.heap.userType t).contracts ++
        (w.heap.userType t).mixins.flatMap (fun m => (w.heap.userType m).contracts) ∧
      ∀ contract ∈ (w'.heap.userType t).contracts, w'.heap.AsksMethods t contract →
        w'.heap.meets (.userType t) (.userType contract) := by
  refine ⟨fun again stop w stack t c on asks => ?_, fun w t => finishType_iff, ?_⟩
  · have agrees : (violation? w.heap (w.heap.userType t) [w.heap.userType c]).isNone =
        w.heap.meets (.userType t) (.userType c) := by
      rw [Bool.eq_iff_iff, Option.isNone_iff_eq_none]
      exact Heap.violation?_iff_meets asks
    rw [agrees]
    exact bind_of_ok (meets_ran on) _
  · intro again stop w w' c t next onTop ran
    obtain ⟨ip, ran⟩ := cycle_ok next ran
    obtain ⟨⟨⟩, w₁, ran, rest⟩ := bind_ok (x := finishType) ran
    cases rest
    exact meets_of_finishType (w := w.moved ip) onTop ran

/-- The end of the declaration of a type that has a field and a method, signs a contract and mixes in a
type that signs another one. -/
def signing : World where
  heap := {
    scripts := #[{
      hash := "", top := .listed 0, diagnostics := #[]
      chunks := #[
        { name := "declaration", source := "", chain := "", kind := .script, code := #[.finishType] },
        { name := "m", source := "", chain := "", kind := .method, arguments := #[0] }] }]
    closures := #[⟨⟨0, 0⟩, #[]⟩, ⟨⟨0, 1⟩, #[]⟩]
    types := #[
      { name := "C", kind := .classKind, methods := .ofList [("m", .closure 1)] },
      { name := "D", kind := .classKind, methods := .ofList [("n", .closure 1)] },
      { name := "M", kind := .classKind, methods := .ofList [("n", .closure 1)], contracts := [1] },
      { name := "T", kind := .classKind, methods := .ofList [("m", .closure 1)], fields := ["x"]
        mixins := [2], contracts := [0] }] }
  machine := { frames := #[{ closure := 0, base := 0 }], stack := #[.userType 3] }

def signed : World := (cycle unable 0).after signing

/-- That type is compared with the contract of its mixin. -/
def comparing : World :=
  { signing with machine.stack := #[.userType 3, .userType 1] }

theorem meets_agrees_with_contracts_signing :
    (∃ c, cycle unable 0 signing = .ok c signed) ∧ (signed.heap.userType 3).contracts = [0, 1] ∧
    signed.heap.meets (.userType 3) (.userType 0) ∧ signed.heap.meets (.userType 3) (.userType 1) ∧
    step unable 0 .meets comparing = .ok .next { comparing with machine.stack := #[.bool false] } := by
  obtain ⟨c, finished⟩ : ∃ c, cycle unable 0 signing = .ok c signed := ok_after (by decide +kernel)
  obtain ⟨contracts, meets⟩ := meets_agrees_with_contracts.2.2 unable 0 signing _ c 3 (by decide +kernel)
    (by decide +kernel) finished
  have listed : (signing.heap.userType 3).contracts ++ (signing.heap.userType 3).mixins.flatMap
      (fun m => (signing.heap.userType m).contracts) = [0, 1] := by decide +kernel
  rw [listed] at contracts
  rw [contracts] at meets
  refine ⟨⟨c, finished⟩, contracts, meets 0 (by simp) ⟨?_, ?_⟩, meets 1 (by simp) ⟨?_, ?_⟩, ?_⟩
  · decide +kernel
  · decide +kernel
  · decide +kernel
  · decide +kernel
  · have violated : (violation? comparing.heap (comparing.heap.userType 3) [comparing.heap.userType 1]).isNone =
        false := by decide +kernel
    have ran := meets_agrees_with_contracts.1 unable 0 comparing #[] 3 1 rfl ⟨by decide +kernel, by decide +kernel⟩
    rw [violated] at ran
    exact ran

end ScriptEngine
