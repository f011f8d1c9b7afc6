import ScriptEngine.Proofs.Testing

/-!
# Machines that are stopped

A watch that only lets worlds of some kind go on takes no part otherwise: as long as it
does not stop the machine, the machine does what it does without it. So does everything
that an instruction does by calls back into the machine.
-/
namespace ScriptEngine

open Run

namespace Pausing

/-- In a host call every instruction advances, a `yield` by its refusal. -/
theorem advances_calling {again again' : Reentry} (h : Run.Follows again again') {stop : Nat} {w : World}
    (calling : 0 < w.machine.hostCalls) (above : stop < w.machine.frames.size) :
    Advances stop (Run.cycle again stop) (Run.cycle again' stop) w := by
  rw [← cycle_yield, ← cycle_yield]
  by_cases at_yield : ∃ w₁, fetch w = .ok .yield w₁
  · obtain ⟨w₁, fetched⟩ := at_yield
    have steady := keeps_fetch w
    rw [fetched] at steady
    have refused : yield w₁ = .error (.failed { error := .yieldInHostCall }) w₁ :=
      refuses_yield stop w₁ (steady.hostCalls ▸ calling)
    simp only [Advances, cycle_of_fetch fetched, if_true, located, refused]
    exact fun _ => ⟨trivial, .of_steady (Nat.le_of_lt above) steady, .stopped⟩
  · exact advances_cycle h above fun w₁ eq => at_yield ⟨w₁, eq⟩

end Pausing

namespace Watch

variable {P : World → Prop}

theorem execute_succ (watch : Watch) (fuel stop : Nat) (w : World) : watch.execute (fuel + 1) stop w =
    match watch.instruction stop (cycle (watch.again fuel) stop) w with
    | .ok .next w' => watch.execute fuel stop w'
    | .ok (.exit how) w' => .ok how w'
    | .error e w' => .error e w' := by
  change EStateM.bind (watch.instruction stop (cycle (watch.again fuel) stop)) _ w = _
  unfold EStateM.bind
  cases watch.instruction stop (cycle (watch.again fuel) stop) w with
  | error => rfl
  | ok c w' => cases c <;> rfl

theorem only_of {w : World} (known : P w) (stop : Nat) (x : Run Control) : (only P).instruction stop x w = x w :=
  if_pos known

theorem only_of_not {w : World} (not : ¬P w) (stop : Nat) (x : Run Control) :
    (only P).instruction stop x w = .error .outOfFuel w := if_neg not

/-- The loop of a host call that is not stopped. -/
theorem execute_only {fuel stop : Nat}
    (follows : ∀ k < fuel, Run.Follows ((only P).again k) (none.again k)) {w : World}
    (calling : 0 < w.machine.hostCalls) (above : stop < w.machine.frames.size)
    (done : Run.Finished ((only P).execute fuel stop w)) :
    none.execute fuel stop w = (only P).execute fuel stop w ∧
      Pausing.Within stop w (left ((only P).execute fuel stop w)) := by
  induction fuel generalizing w with
  | zero => exact done.elim
  | succ fuel ih =>
    rw [execute_succ] at done
    rw [execute_succ, execute_succ, none_instruction]
    by_cases known : P w
    · have advances : Pausing.Advances stop _ _ w :=
        Pausing.advances_calling (follows fuel (Nat.lt_succ_self _)) calling above
      rw [only_of known] at done ⊢
      cases ran : cycle ((only P).again fuel) stop w with
      | error e w₁ =>
        rw [ran] at done
        rw [Pausing.Advances, ran] at advances
        obtain ⟨same, within, -⟩ := advances (by cases e <;> exact done)
        rw [same]
        exact ⟨rfl, within⟩
      | ok c w₁ =>
        rw [ran] at done
        rw [Pausing.Advances, ran] at advances
        obtain ⟨same, within, goesOn⟩ := advances trivial
        rw [same]
        cases goesOn with
        | next above₁ =>
          obtain ⟨same, within₁⟩ := ih (fun k hk => follows k (Nat.lt_succ_of_lt hk)) (within.hostCalls ▸ calling)
            above₁ done
          exact ⟨same, within.trans within₁⟩
        | returned => exact ⟨rfl, within⟩
    · rw [only_of_not known] at done
      exact done.elim

/-- The ways back into a machine that is stopped at times lead where those of the machine itself do. -/
theorem follows_only (P : World → Prop) (fuel : Nat) : Run.Follows ((only P).again fuel) (Run.again fuel) := by
  rw [← again_none]
  induction fuel using Nat.strongRecOn with
  | ind fuel ih =>
    cases fuel with
    | zero => exact ⟨fun _ _ _ _ finished => finished.elim, fun _ _ _ finished => finished.elim⟩
    | succ fuel =>
      refine ⟨fun callee args => Pausing.hostCall_tracks (fun depth w positive above calling done => ?_) callee args,
        fun s w inside _ => ?_⟩
      · exact Pausing.body_tracks (ih fuel (Nat.lt_succ_self _)) positive above calling
          (fun w => execute_only fun k hk => ih k (Nat.lt_succ_of_lt hk)) done
      · rw [interpret_refused _ inside, interpret_refused _ inside]
        exact ⟨rfl, .refl w⟩

end Watch
end ScriptEngine
