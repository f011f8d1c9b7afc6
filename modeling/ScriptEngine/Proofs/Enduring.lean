import ScriptEngine.Proofs.Executing
import ScriptEngine.Proofs.Resuming
import ScriptEngine.Proofs.Watching

/-!
# Runs keep their footing

What an instruction leaves, the next one starts from: a run that began in an upright
world comes to worlds that are upright, until what its call was to leave is there. So a
host call leaves the machine as it found it, however deep calls are nested. Two
watches are compared, of which one looks at more worlds than the other: it stops
nowhere else.
-/
namespace ScriptEngine

open Run

/-- A watch under which execution stops where a world is not of some kind. -/
noncomputable def Watch.only (P : World → Prop) : Watch where
  instruction _ x w := open Classical in if P w then x w else .error .outOfFuel w

/-- The world is sound, and its frames stand above the floor of the call that they are for. -/
structure World.Stands (w : World) : Prop where
  sound : w.Sound
  upright : ∃ F f fs b ms, w.machine.frames = piled F (f :: fs) ∧
    Upright w.heap w.machine.stack b ms (f :: fs) w.machine.marks

/-- The same footing, from another world on. -/
def Footing.restart (G : Footing) (w : World) : Footing := { G with world := w }

section

variable {α : Type} {G : Footing} {F : Array Frame} {n m : Nat} {w w' w'' : World} {x y : Run α} {f : Frame}
  {fs : List Frame} {b : Nat} {ms M : List Nat}

/-! ## On the way -/

theorem Footing.Holds.restart (h : G.Holds w) : (G.restart w).Holds w where
  sound := h.sound
  size := h.size
  slots _ _ _ := rfl
  apart _ _ apart := apart
  scripts := rfl
  closures _ _ := rfl
  frames := h.frames
  marks := h.marks

theorem Footing.Holds.trans (h : G.Holds w) (h' : (G.restart w).Holds w') : G.Holds w' where
  sound := h'.sound
  size := h'.size
  slots i hi apart := (h'.slots i hi (h.apart i hi apart)).trans (h.slots i hi apart)
  apart i hi apart := h'.apart i hi (h.apart i hi apart)
  scripts := h'.scripts.trans h.scripts
  closures r hr := by
    have earlier := h.closures r hr
    refine (h'.closures r ?_).trans earlier
    rw [Array.getElem?_eq_getElem hr] at earlier
    exact (Array.getElem?_eq_some_iff.mp earlier).1
  frames := h'.frames
  marks := h'.marks

theorem Footing.At.restart {L : Array Frame} (h : G.At L M n w) : (G.restart w).At L M n w :=
  ⟨h.holds.restart, h.frames, h.marks, h.count⟩

theorem Footing.At.trans {L L' : Array Frame} {M' : List Nat} (h : G.At L M n w) (h' : (G.restart w).At L' M' m w') :
    G.At L' M' m w' := ⟨h.holds.trans h'.holds, h'.frames, h'.marks, h'.count⟩

/-- A failure further on leaves the footing as it was at first. -/
theorem Sure.of_restart {Q : α → World → Prop} (h : G.Holds w') (run : Sure (G.restart w') x y w Q) :
    Sure G x y w Q := by
  obtain ⟨same, out⟩ := run
  refine ⟨same, ?_⟩
  split at out
  · exact out
  · exact ⟨h.trans out.1, out.2⟩
  · trivial

theorem Footing.At.stands (h : G.At (piled F (f :: fs)) M n w)
    (upright : Upright w.heap w.machine.stack b ms (f :: fs) M) : w.Stands := by
  refine ⟨h.sound, F, f, fs, b, ms, h.frames, ?_⟩
  rw [h.marks]
  exact upright

/-! ## Loops -/

variable {P : World → Prop}

theorem Sure.only {stop : Nat} {x y : Run Control} {Q : Control → World → Prop} (stands : w.Stands)
    (run : Sure G x y w Q) :
    Sure G ((Watch.only P).instruction stop x) ((Watch.only fun w => P w ∧ w.Stands).instruction stop y) w Q := by
  unfold Sure Watch.only
  dsimp only
  by_cases known : P w
  · rw [if_pos known, if_pos ⟨known, stands⟩]
    exact run
  · rw [if_neg known, if_neg fun both => known both.1]
    exact ⟨rfl, trivial⟩

/-- An execution ends where its call does, or is suspended on the way. -/
theorem sure_execute {fuel : Nat}
    (sturdy : ∀ k < fuel, Sturdy ((Watch.only P).again k) ((Watch.only fun w => P w ∧ w.Stands).again k))
    (h : G.At (piled F (f :: fs)) M n G.world) (floor : G.floor ≤ b) (below : G.frames = F.toList)
    (within : G.marks <:+ ms)
    (upright : Upright G.world.heap G.world.machine.stack b ms (f :: fs) M) :
    Sure G ((Watch.only P).execute fuel F.size) ((Watch.only fun w => P w ∧ w.Stands).execute fuel F.size) G.world
      fun how => G.Goes F (f :: fs) b ms n (.exit how) := by
  induction fuel generalizing G f fs M n with
  | zero => exact ⟨rfl, trivial⟩
  | succ fuel ih =>
    have cycle := (sturdy fuel (Nat.lt_succ_self _)).sure_cycle h floor below within upright
    refine sure_bind ((cycle.only (h.stands upright)).mono fun control w' goes => ?_)
    cases control with
    | exit how => exact sure_pure goes
    | next =>
      obtain ⟨m, fs', M', le, h', some, upright', same⟩ := goes
      cases fs' with
      | nil => exact absurd rfl some
      | cons f' fs' =>
        have further := ih (G := G.restart w') (fun k hk => sturdy k (Nat.lt_succ_of_lt hk)) h'.restart floor below
          within upright'
        refine (further.of_restart h'.holds).mono fun how w'' ⟨m', fs'', M'', le', h'', ends⟩ => ?_
        refine ⟨m', fs'', M'', Nat.le_trans le le', h'.trans h'', ?_⟩
        cases how with
        | returned => exact ends
        | yielded => exact ⟨ends.1, ends.2.1, ends.2.2.trans same⟩

/-! ## Host calls -/

theorem World.Sound.footing (sound : w.Sound) : w.footing.At w.machine.frames w.machine.marks w.closures w where
  holds := {
    sound
    size := Nat.le_refl _
    slots := fun _ _ _ => rfl
    apart := fun _ _ apart => apart
    scripts := rfl
    closures := fun _ _ => rfl
    frames := List.prefix_rfl
    marks := List.suffix_rfl }
  frames := rfl
  marks := rfl
  count := rfl

variable {callee : Value} {args : List Value}

theorem size_begun : (Pausing.begun callee args w).machine.stack.size = w.machine.stack.size + args.length + 1 := by
  change (w.machine.stack.push callee ++ args).size = _
  rw [size_appendList, Array.size_push]
  omega

/-- A mark that has just been set. -/
theorem low_cons (b : Nat) (M : List Nat) : Low (b :: M) b := fun _ head => Option.some.inj head ▸ Nat.le_refl b

theorem World.Sound.begun (sound : w.Sound) (known : callee.Within w.closures)
    (each : ∀ v ∈ args, v.Within w.closures) :
    w.footing.At w.machine.frames (w.machine.stack.size :: w.machine.marks) w.closures (Pausing.begun callee args w) :=
  (((sound.footing.pushed known).pushedAll each).onMarks (List.suffix_cons _ _)).still rfl rfl rfl rfl rfl rfl

/-- The world once a host call has ended in `w'`. -/
def World.ended (w w' : World) : World :=
  { w' with
    machine.hostCalls := w'.machine.hostCalls - 1
    machine.marks := w'.machine.marks.drop (w'.machine.marks.length - w.machine.marks.length) }

theorem Footing.Holds.ended (h : w.footing.Holds w') :
    w.footing.At w'.machine.frames w.machine.marks w'.closures (w.ended w') := by
  have at_ : w.footing.At w'.machine.frames w'.machine.marks w'.closures w' := ⟨h, rfl, rfl, rfl⟩
  have ended := (at_.onMarks (S := w.machine.marks) List.suffix_rfl).still
    (m := (w.ended w').machine) rfl rfl rfl rfl rfl (List.suffix_iff_eq_drop.mp h.marks).symm
  exact ended

/-- A host call that has come to its end hands over what lies above its start. -/
theorem returned_ok {depth : Nat} (h : w.footing.At w.machine.frames (w.machine.stack.size :: w.machine.marks) m w') :
    Returned w (Pausing.conclude w.machine.stack.size depth w.machine.marks.length (.ok ()) w') := by
  have h₁ := h.holds.ended
  have room := h₁.size
  have h₂ := h₁.shrink (Nat.le_refl _)
  have size : ((w.ended w').machine.stack.shrink w.machine.stack.size).size = w.machine.stack.size := by
    rw [Array.size_shrink]
    exact Nat.min_eq_left room
  refine ⟨⟨h₂.holds, size, h.frames, h₂.marks⟩, fun v mem => ?_⟩
  rw [Array.toList_extract, List.extract_eq_take_drop] at mem
  have mem : v ∈ (w.ended w').machine.stack := Array.mem_toList_iff.mp (List.mem_of_mem_drop (List.mem_of_mem_take mem))
  exact h₁.knows_slot mem

theorem conclude_error {f : Failure} {w₂ : World} (closed : closeFrom w.machine.stack.size (w.ended w') = .ok () w₂) :
    Pausing.conclude w.machine.stack.size w.machine.frames.size w.machine.marks.length (.error f) w' =
      .error (.failed f) { w₂ with
        machine.frames := w₂.machine.frames.shrink w.machine.frames.size
        machine.stack := w₂.machine.stack.shrink w.machine.stack.size } := by
  change (EStateM.bind (closeFrom _) _ (w.ended w') : EStateM.Result Halt World (List Value)) = _
  unfold EStateM.bind
  rw [closed]
  rfl

/-- A host call that failed is undone. -/
theorem returned_error {f : Failure} (h : w.footing.Holds w') (known : f.Within w'.closures) :
    Returned w (Pausing.conclude w.machine.stack.size w.machine.frames.size w.machine.marks.length (.error f) w') := by
  obtain ⟨w₂, closed, h₂, stack₂⟩ := h.ended.closeFrom w.machine.stack.size
  have frames : w₂.machine.frames.shrink w.machine.frames.size = w.machine.frames := by
    apply Array.toList_inj.mp
    rw [Array.toList_shrink, h₂.frames]
    exact (List.prefix_iff_eq_take.mp h.frames).symm
  have h₃ : w.footing.At w.machine.frames w.machine.marks w'.closures
      { w₂ with machine.frames := w.machine.frames } := by
    convert h₂.onFrames (L := w.machine.frames) (S := w.machine.marks) List.prefix_rfl List.suffix_rfl using 2
    rw [← h₂.marks]
  have h₄ := h₃.shrink (Nat.le_refl _)
  have size : (w₂.machine.stack.shrink w.machine.stack.size).size = w.machine.stack.size := by
    rw [Array.size_shrink]
    exact Nat.min_eq_left h₂.size
  rw [conclude_error closed, frames]
  exact ⟨⟨h₄.holds, size, rfl, h₄.marks⟩, fun v thrown => h₄.count ▸ known v thrown⟩

/-- A host call around a body that keeps its footing leaves the machine as it was. -/
theorem returned_hostCall {a a' : Nat → Run Unit}
    (body : Sure w.footing (a w.machine.frames.size) (a' w.machine.frames.size) (Pausing.begun callee args w)
      fun _ w' =>
      ∃ m, w.footing.At w.machine.frames (w.machine.stack.size :: w.machine.marks) m w') :
    hostCall callee args a' w = hostCall callee args a w ∧ Returned w (hostCall callee args a w) := by
  obtain ⟨same, out⟩ := body
  rw [Pausing.hostCall_eq, Pausing.hostCall_eq]
  unfold EStateM.bind attempt
  rw [same]
  refine ⟨rfl, ?_⟩
  generalize a w.machine.frames.size (Pausing.begun callee args w) = r at out ⊢
  match r, out with
  | .ok _ w', ⟨m, h⟩ => exact returned_ok h
  | .error (.failed f) w', ⟨h, known⟩ => exact returned_error h known
  | .error .outOfFuel w', _ => trivial

/-- The frames of a call run until they are left. -/
theorem sure_untilReturned {a a' : Run Exit} (h : G.At (piled F fs) M n w)
    (tower : Tower w.heap b ms fs w.machine.stack.size M)
    (run : ∀ f gs, fs = f :: gs → Sure G a a' w fun how => G.Goes F fs b ms n (.exit how)) :
    Sure G (untilReturned a F.size) (untilReturned a' F.size) w fun _ w' => ∃ m, G.At F ms m w' := by
  refine sure_bind (sure_ok rfl (sure_ite (fun more => ?_) fun none => ?_))
  · rw [h.frames, size_piled] at more
    cases fs with
    | nil => simp at more
    | cons f fs =>
      refine sure_bind ((run f fs rfl).mono fun how w' ⟨m, fs', M', _, h', ends⟩ => ?_)
      cases how with
      | returned =>
        obtain ⟨rfl, rfl, -⟩ := ends
        exact sure_pure ⟨m, by rwa [piled_nil] at h'⟩
      | yielded => exact sure_refuse h'.holds nofun
  · rw [h.frames, size_piled] at none
    cases fs with
    | nil =>
      obtain ⟨rfl, -⟩ := tower
      exact sure_pure ⟨n, by rwa [piled_nil] at h⟩
    | cons f fs => simp at none

/-- No script is started while frames are in use. -/
theorem enter_refused {s : Script} (inside : 0 < w.machine.frames.size) :
    enter s w = .error (.failed { error := .internal .running }) w := by
  rw [Pausing.enter_eq, if_pos (by simpa [Array.isEmpty, Nat.pos_iff_ne_zero] using inside)]

theorem interpret_refused (watch : Watch) {s : Script} {fuel : Nat} (inside : 0 < w.machine.frames.size) :
    (watch.again (fuel + 1)).interpret s w = .error (.failed { error := .internal .running }) w := by
  change EStateM.map _ (EStateM.bind (enter s) _) w = _
  unfold EStateM.map EStateM.bind
  rw [enter_refused inside]

/-- However many steps they are given, the ways back into the machine leave it as they found it. -/
theorem sturdy_again (P : World → Prop) (fuel : Nat) :
    Sturdy ((Watch.only P).again fuel) ((Watch.only fun w => P w ∧ w.Stands).again fuel) := by
  induction fuel using Nat.strongRecOn with
  | ind fuel ih =>
    cases fuel with
    | zero => exact ⟨fun _ _ _ _ _ _ _ => ⟨rfl, trivial⟩, fun _ _ _ => ⟨rfl, .inl rfl⟩⟩
    | succ fuel =>
      refine ⟨fun w callee args sound inside known each => ?_, fun w s inside => ?_⟩
      · have begun := sound.begun known each
        refine returned_hostCall (sure_bind ?_)
        refine ((ih fuel (Nat.lt_succ_self _)).sure_callTop begun inside (Nat.le_refl _) size_begun
          (low_cons _ _)).mono ?_
        rintro _ w₁ ⟨m, gs, -, h₁, tower, -⟩
        refine Sure.of_restart h₁.holds ((sure_untilReturned h₁.restart tower ?_).mono ?_)
        · rintro f fs rfl
          exact sure_execute (fun k hk => ih k (Nat.lt_succ_of_lt hk)) h₁.restart (Nat.le_refl _) rfl
            (List.suffix_cons _ _) tower.upright
        · exact fun _ w' ⟨m, h'⟩ => ⟨m, h₁.trans h'⟩
      · rw [interpret_refused _ inside, interpret_refused _ inside]
        exact ⟨rfl, .inr rfl⟩

end

end ScriptEngine
