import ScriptEngine.Proofs.Calling

/-!
# Tests keep their footing

A set of tests calls its body and a case is called once for each of its rows. What they
note in the record and in the machine is no business of a footing, and a failure that
is caught has left the machine as it was.
-/
namespace ScriptEngine

open Run

section

variable {G : Footing} {F : Array Frame} {M : List Nat} {n m : Nat} {w w' : World} {x y : Reentry}

theorem sure_modifyTests {f : TestRecord → TestRecord} {Q : Unit → World → Prop} (h : G.At F M n w)
    (next : ∀ w', G.At F M n w' → w'.machine.stack = w.machine.stack → Q () w') :
    Sure G (modifyTests f) (modifyTests f) w Q := sure_modifyMachine (next _ (h.still rfl rfl rfl rfl rfl rfl) rfl)

theorem sure_setCurrent {set : Option String} {Q : Unit → World → Prop} (h : G.At F M n w)
    (next : ∀ w', G.At F M n w' → w'.machine.stack = w.machine.stack → Q () w') :
    Sure G (setCurrent set) (setCurrent set) w Q := sure_modifyMachine (next _ (h.still rfl rfl rfl rfl rfl rfl) rfl)

theorem sure_recordCase {set case : String} {outcome : Except Failure (List Value)} (h : G.At F M n w)
    (failure : ∀ f, outcome = .error f → f.Within n) :
    Sure G (recordCase set case outcome) (recordCase set case outcome) w
      fun _ w' => G.Lasts F M n w n w' := by
  have noted (f : TestRecord → TestRecord) : Sure G (modifyTests f) (modifyTests f) w fun _ w' =>
    G.Lasts F M n w n w' :=
    sure_modifyTests h fun w' h' stack => ⟨Nat.le_refl n, h', by rw [stack]⟩
  cases outcome with
  | ok vs => exact noted (·.record set case none)
  | error f =>
    refine sure_ite (fun _ => sure_bind (sure_raise h.holds (h.count ▸ failure f rfl))) fun _ => ?_
    exact sure_bind (sure_heap (noted _))

variable (sturdy : Sturdy x y)
include sturdy

theorem Sturdy.sure_testSet (h : G.At F M n w) (inside : 0 < F.size) (room : G.floor + 1 ≤ w.machine.stack.size)
    (index : UInt16) : Sure G (testSet x index) (testSet y index) w fun _ w' =>
      ∃ m, n ≤ m ∧ G.At F M m w' ∧ w'.machine.stack.size + 1 = w.machine.stack.size := by
  refine sure_bind ((looks_name index).sure h.holds fun name _ => ?_)
  refine sure_bind (sure_pop h (by omega) fun body w₁ h₁ known size₁ => ?_)
  refine sure_bind (sure_modifyTests h₁ fun w₂ h₂ stack₂ => sure_bind (sure_machine ?_))
  rw [← stack₂] at size₁
  refine sure_ite (fun _ => ?_) fun _ => sure_pure ⟨n, Nat.le_refl n, h₂, size₁⟩
  dsimp only
  refine sure_bind (sure_setCurrent h₂ fun w₃ h₃ stack₃ => ?_)
  rw [← stack₃] at size₁
  refine sure_bind ((sturdy.sure_attempt h₃ inside known fun _ mem => absurd mem List.not_mem_nil).mono
    fun outcome w₄ ⟨m, lasts, _, failure⟩ => ?_)
  refine sure_bind (sure_setCurrent lasts.stands fun w₅ h₅ stack₅ => ?_)
  have size₅ : w₅.machine.stack.size + 1 = w.machine.stack.size := by rw [stack₅, lasts.size, size₁]
  cases outcome with
  | ok vs => exact sure_pure ⟨m, lasts.le, h₅, size₅⟩
  | error f =>
    refine (sure_recordCase h₅ fun _ same => ?_).mono fun _ w' noted =>
      ⟨m, lasts.le, noted.stands, by rw [noted.size, size₅]⟩
    cases same
    exact failure f rfl

theorem Sturdy.sure_runRows {set name : String} {case : Value} {i : Nat} {rows : List Value} (h : G.At F M n w)
    (inside : 0 < F.size) (known : case.Within n) (each : ∀ v ∈ rows, v.Within n) :
    Sure G (runRows x set name case i rows) (runRows y set name case i rows) w fun _ w' =>
      ∃ m, G.Lasts F M n w m w' := by
  induction rows generalizing n w i with
  | nil => exact sure_pure ⟨n, h.lasts⟩
  | cons row rows ih =>
    have args : ∀ v ∈ rowArguments w.heap row, v.Within n := by
      unfold rowArguments
      split
      · exact fun v item => h.knows_heap (Heap.offers_item (Array.mem_toList_iff.mp item))
      · exact List.forall_mem_singleton.mpr (each row (.head _))
    refine sure_bind (sure_heap (sure_bind ((sturdy.sure_attempt h inside known args).mono ?_)))
    rintro outcome w₁ ⟨m, lasts, _, failure⟩
    refine sure_bind ((sure_recordCase lasts.stands failure).mono fun _ w₂ noted => ?_)
    refine (ih noted.stands (known.mono lasts.le) fun v mem => (each v (.tail _ mem)).mono lasts.le).mono ?_
    exact fun _ _ ⟨k, lasts'⟩ => ⟨k, (lasts.trans noted).trans lasts'⟩

omit sturdy in
theorem sure_dataRows {data : Value} {Q : List Value → World → Prop} (h : G.At F M n w)
    (next : ∀ vs : List Value, (∀ v ∈ vs, v.Within n) → Q vs w) : Sure G (dataRows data) (dataRows data) w Q := by
  unfold dataRows
  split
  · exact sure_items h next
  · exact sure_refuse h.holds nofun

theorem Sturdy.sure_testCase (h : G.At F M n w) (inside : 0 < F.size) (index : UInt16) (hasRows : Bool)
    (room : G.floor + (if hasRows then 2 else 1) ≤ w.machine.stack.size) :
    Sure G (testCase x index hasRows) (testCase y index hasRows) w fun _ w' =>
      ∃ m, n ≤ m ∧ G.At F M m w' ∧
        w'.machine.stack.size + (if hasRows then 2 else 1) = w.machine.stack.size := by
  refine sure_bind ((looks_name index).sure h.holds fun name _ => ?_)
  refine sure_bind (sure_pop h (by split at room <;> omega) fun case w₁ h₁ known size₁ => ?_)
  have carried (rows : Option Value) {w₂ : World} (h₂ : G.At F M n w₂) :
      Sure G (carryOut x name case rows) (carryOut y name case rows) w₂ fun _ w' => ∃ m, G.Lasts F M n w₂ m w' := by
    refine sure_bind (sure_machine ?_)
    split
    · exact sure_refuse h₂.holds (by rintro v ⟨⟩)
    · split
      · refine sure_bind ((sturdy.sure_attempt h₂ inside known fun _ mem => absurd mem List.not_mem_nil).mono ?_)
        rintro outcome w₃ ⟨m, lasts, _, failure⟩
        exact (sure_recordCase lasts.stands failure).mono fun _ _ noted => ⟨m, lasts.trans noted⟩
      · exact sure_bind (sure_dataRows h₂ fun rows each => sturdy.sure_runRows h₂ inside known each)
  cases hasRows with
  | false =>
    refine (carried none h₁).mono ?_
    rintro _ _ ⟨m, lasts⟩
    exact ⟨m, lasts.le, lasts.stands, by rw [lasts.size]; exact size₁⟩
  | true =>
    refine sure_bind (sure_map (sure_pop h₁ (by simp at room; omega) fun data w₂ h₂ _ size₂ => ?_))
    refine (carried (some data) h₂).mono ?_
    rintro _ _ ⟨m, lasts⟩
    exact ⟨m, lasts.le, lasts.stands, by rw [lasts.size]; simp; omega⟩

end

end ScriptEngine
