import ScriptEngine.Proofs.Releasing

/-!
# Variables that are captured

The words behind a closure name its variables, and each of those that belong to the frame gets
a cell, unless it has one already. So there is never more than one open cell for a slot. With
this every instruction keeps captured variables in order: `World.Faces.cycle`.
-/
namespace ScriptEngine

open Run

/-- The innermost frame has read on, and perhaps cells for slots of it have been opened. -/
structure World.Catches (w : World) (L : Array Frame) (f : Frame) (w' : World) : Prop where
  frames : ∃ o, w'.machine.frames = L.push { f with ip := o }
  stack : w'.machine.stack = w.machine.stack
  natives : w'.natives = w.natives
  scripts : w'.heap.scripts = w.heap.scripts
  closures : w'.heap.closures = w.heap.closures
  tidy : w'.Tidy
  size : w.heap.cells.size ≤ w'.heap.cells.size
  cells : ∀ ref < w.heap.cells.size, w'.heap.cell ref = w.heap.cell ref
  opened : ∀ ref i, w'.heap.cell ref = .opened i → i < f.base → w.heap.cell ref = .opened i

section

variable {α : Type} {R : Set Nat} {L : Array Frame} {f : Frame} {s : Script} {c : Chunk} {N : Notes} {i : Instruction}
  {j m o stop : Nat} {w w' w'' u : World} {x y : Reentry}

theorem World.Catches.refl (tidy : w.Tidy) (frames : w.machine.frames = L.push f) : w.Catches L f w where
  frames := ⟨f.ip, frames⟩
  stack := rfl
  natives := rfl
  scripts := rfl
  closures := rfl
  tidy
  size := Nat.le_refl _
  cells _ _ := rfl
  opened _ _ opened _ := opened

theorem World.Catches.trans (h : w.Catches L f w') (h' : w'.Catches L { f with ip := o } w'') : w.Catches L f w'' where
  frames := h'.frames
  stack := h'.stack.trans h.stack
  natives := h'.natives.trans h.natives
  scripts := h'.scripts.trans h.scripts
  closures := h'.closures.trans h.closures
  tidy := h'.tidy
  size := Nat.le_trans h.size h'.size
  cells ref inside := (h'.cells ref (Nat.lt_of_lt_of_le inside h.size)).trans (h.cells ref inside)
  opened ref i opened below := h.opened ref i (h'.opened ref i opened below) below

theorem World.Catches.of_moved (h : (w.moved o).Catches L f w') : w.Catches L f w' :=
  ⟨h.frames, h.stack, h.natives, h.scripts, h.closures, h.tidy, h.size, h.cells, h.opened⟩

/-! ## The cell of a slot -/

/-- Another slot of the innermost frame. -/
theorem Heap.Owns.insert {h : Heap} {fs : List Frame} {S T : Set Nat} (owns : h.Owns (f :: fs) S)
    (anchors : h.Anchors f j)
    (above : f.base ≤ j) (sub : ∀ i ∈ T, i ∈ S ∨ i = j) : h.Owns (f :: fs) T := by
  refine ⟨fun i mem base => ?_, owns.2.mono fun i ⟨mem, below⟩ => ?_⟩
  · obtain old | rfl := sub i mem
    · exact owns.1 i old base
    · exact anchors
  · obtain old | rfl := sub i mem
    · exact ⟨old, below⟩
    · omega

/-- The world with a new cell for a slot. -/
def World.lodging (w : World) (j : Nat) : World :=
  { w with
    heap := (w.heap.addCell (.opened j)).2
    machine.openCells := w.heap.cells.size :: w.machine.openCells }

theorem cellOf_eq (tidy : w.Tidy) (j : Nat) : (∃ ref, w.heap.cell ref = .opened j ∧ cellOf j w = .ok ref w) ∨
    (∀ ref, w.heap.cell ref ≠ .opened j) ∧ cellOf j w = .ok w.heap.cells.size (w.lodging j) := by
  unfold cellOf
  rw [bind_of_ok (rfl : heap w = .ok w.heap w), bind_of_ok (rfl : machine w = .ok w.machine w)]
  cases found : w.machine.openCells.find? (isOpenAt w.heap j) with
  | some ref => exact .inl ⟨ref, by simpa [isOpenAt] using List.find?_some found, rfl⟩
  | none =>
    refine .inr ⟨fun ref opened => ?_, rfl⟩
    have other := List.find?_eq_none.mp found ref ((tidy.listed ref).mpr ⟨j, opened⟩)
    exact other (by simpa [isOpenAt] using opened)

theorem World.cell_lodging (w : World) (j ref : Nat) :
    (w.lodging j).heap.cell ref = if ref = w.heap.cells.size then .opened j else w.heap.cell ref :=
  Heap.cell_addCell _ _ _

theorem World.Tidy.lodging (tidy : w.Tidy) (free : ∀ ref, w.heap.cell ref ≠ .opened j) : (w.lodging j).Tidy := by
  have old {ref i : Nat} (opened : w.heap.cell ref = .opened i) : ref ≠ w.heap.cells.size :=
    Nat.ne_of_lt (Heap.lt_of_opened opened)
  refine ⟨fun ref => ?_, ?_, fun i ref ref' first second => ?_⟩
  · rw [w.cell_lodging]
    refine List.mem_cons.trans ?_
    split_ifs with new
    · exact ⟨fun _ => ⟨j, rfl⟩, fun _ => .inl new⟩
    · rw [tidy.listed]
      exact or_iff_right new
  · refine List.nodup_cons.mpr ⟨fun mem => ?_, tidy.nodup⟩
    obtain ⟨i, opened⟩ := (tidy.listed _).mp mem
    exact old opened rfl
  · rw [w.cell_lodging] at first second
    split_ifs at first second with new new' new'
    · exact new.trans new'.symm
    · cases first
      exact absurd second (free _)
    · cases second
      exact absurd first (free _)
    · exact tidy.distinct i ref ref' first second

/-- A slot of the frame gets a cell, or has one. -/
theorem catches_cellOf (frames : w.machine.frames = L.push f) (moored : w.Moored m) (anchors : w.heap.Anchors f j)
    (above : f.base ≤ j) (below : j < m) :
    ∃ ref w', cellOf j w = .ok ref w' ∧ w.Catches L f w' ∧ w'.Moored m ∧ w'.machine.frames = w.machine.frames := by
  obtain ⟨ref, -, ran⟩ | ⟨free, ran⟩ := cellOf_eq moored.tidy j
  · exact ⟨ref, w, ran, .refl moored.tidy frames, moored, rfl⟩
  have sub : ∀ i ∈ (w.lodging j).heap.lodged, i ∈ w.heap.lodged ∨ i = j := by
    rintro i ⟨ref, opened⟩
    rw [w.cell_lodging] at opened
    split_ifs at opened
    · cases opened
      exact .inr rfl
    · exact .inl ⟨ref, opened⟩
  have wider : w.heap.Wider (w.lodging j).heap := ⟨rfl, fun _ _ => rfl⟩
  refine ⟨_, _, ran, ⟨⟨f.ip, frames⟩, rfl, rfl, rfl, rfl, moored.tidy.lodging free, ?_,
    fun ref inside => ?_, fun ref i opened less => ?_⟩,
    ⟨moored.tidy.lodging free, fun i mem => ?_, ?_, moored.natives⟩, rfl⟩
  · change _ ≤ (w.heap.cells.push _).size
    rw [Array.size_push]
    exact Nat.le_succ _
  · rw [w.cell_lodging, if_neg (Nat.ne_of_lt inside)]
  · rw [w.cell_lodging] at opened
    split_ifs at opened
    · cases opened
      omega
    · exact opened
  · obtain old | rfl := sub i mem
    · exact moored.below i old
    · exact below
  · have owned := moored.owned
    change Heap.Owns _ w.machine.frames.toList.reverse _
    rw [frames, Array.toList_push, List.reverse_append] at owned ⊢
    exact (owned.insert anchors above sub).wider wider

/-! ## The words behind a closure -/

/-- What comes of reading words: all variables that have been captured belong to the frame. -/
def Run.Caught {α : Type} (L : Array Frame) (f : Frame) (m : Nat) (w : World) : EStateM.Result Halt World α → Prop
  | .ok _ w' => w.Catches L f w' ∧ w'.Moored m
  | .error (.failed _) w' => w.Catches L f w'
  | .error .outOfFuel _ => True

theorem World.Poised.next (poised : w.Poised L f s c N m) (code : c.code[f.ip]? = some i) (falls : i.falls)
    (room : f.base + (N.point (f.ip + 1)).height ≤ m) :
    (w.moved (f.ip + 1)).Poised L { f with ip := f.ip + 1 } s c N m := by
  have stand := poised.stand
  refine ⟨World.frames_moved poised.frames _, ⟨stand.closure, stand.script, stand.chunk, stand.finished,
    stand.small, ?_⟩, room⟩
  exact .next stand.reachable code falls

theorem World.Poised.moored_next (poised : w.Poised L f s c N m) (moored : w.Moored m) (code : c.code[f.ip]? = some i)
    (falls : i.falls) (other : i ≠ .closeUpvalue) : (w.moved (f.ip + 1)).Moored m where
  tidy := moored.tidy.same rfl rfl
  below := moored.below
  owned := by
    have owned := poised.owned (k := m) moored fun _ finished _ _ => finished.anchors_next code falls (.inl other)
    exact owned.mono fun i lodged => ⟨lodged, moored.below i lodged⟩
  natives := moored.natives

theorem Run.Caught.cons {n : Nat} {chain : String} {ref : Nat} (h : w.Catches L f u)
    (rest : Caught L { f with ip := o } m u (captures chain n u)) :
    Caught L f m w ((do return ref :: (← captures chain n) : Run (List Nat)) u) := by
  rw [bind_eq]
  cases ran : captures chain n u with
  | ok refs w' =>
    rw [ran] at rest
    exact ⟨h.trans rest.1, rest.2⟩
  | error e w' =>
    rw [ran] at rest
    cases e with
    | failed => exact h.trans rest
    | outOfFuel => trivial

/-- A word takes nothing and leaves nothing. -/
theorem World.Poised.room_next (poised : w.Poised L f s c N m) (code : c.code[f.ip]? = some i) (word : i.isCapture) :
    f.base + (N.point (f.ip + 1)).height ≤ m := by
  have height := poised.stand.finished.levels.next f.ip i poised.stand.reachable code
  have room := poised.room
  cases i <;> cases word
  have height := height rfl
  change (N.point (f.ip + 1)).height + 0 = (N.point f.ip).height + 0 at height
  omega

theorem World.Poised.read (poised : w.Poised L f s c N m) (moored : w.Moored m) :
    w.Catches L f (w.moved (f.ip + 1)) :=
  .of_moved ⟨⟨_, World.frames_moved poised.frames _⟩, rfl, rfl, rfl, rfl, moored.tidy.same rfl rfl, Nat.le_refl _,
    fun _ _ => rfl, fun _ _ opened _ => opened⟩

/-- The slot that a word names holds a variable that is captured there. -/
theorem World.Poised.anchors (poised : w.Poised L f s c N m) {index : UInt8}
    (code : c.code[f.ip]? = some (.capture ⟨true, index⟩)) :
    w.heap.Anchors { f with ip := f.ip + 1 } (f.base + index.toNat) ∧ f.base + index.toNat < m := by
  have stand := poised.stand
  constructor
  · refine ⟨stand.closure, fun s' c' N' script chunk finished' => ?_⟩
    obtain rfl : s = s' := Option.some.inj (stand.script.symm.trans script)
    obtain rfl : c = c' := Option.some.inj (stand.chunk.symm.trans chunk)
    dsimp only
    rw [Nat.add_sub_cancel_left]
    exact finished'.anchors_capture code
  · obtain ⟨name, id, q, found, -⟩ := stand.finished.anchors_capture code
    have inside := Held.lt_of_at? found
    have room := poised.room_next code rfl
    change index.toNat < (N.point (f.ip + 1)).height at inside
    omega

theorem caught_captures (chain : String) (n : Nat) (poised : w.Poised L f s c N m) (moored : w.Moored m) :
    Caught L f m w (captures chain n w) := by
  induction n generalizing w f with
  | zero => exact ⟨.refl moored.tidy poised.frames, moored⟩
  | succ n ih =>
    have top : w.machine.frames.back? = some f := by rw [poised.frames, Array.back?_push]
    unfold captures
    rw [bind_eq, fetch_eq top, poised.stand.code]
    cases code : c.code[f.ip]? with
    | none => exact .refl moored.tidy poised.frames
    | some i =>
      have read := poised.read moored
      dsimp only
      split
      · next index =>
        have poised' := poised.next code rfl (poised.room_next code rfl)
        have moored' := poised.moored_next moored code rfl nofun
        have top' : (w.moved (f.ip + 1)).machine.frames.back? = some { f with ip := f.ip + 1 } := by
          rw [World.frames_moved poised.frames, Array.back?_push]
        obtain ⟨anchors, below⟩ := poised.anchors code
        obtain ⟨ref, u, ran, catches, moored'', same⟩ :=
          catches_cellOf poised'.frames moored' anchors (Nat.le_add_right _ _) below
        rw [bind_of_ok (frame_eq top'), bind_of_ok ran]
        have wider : (w.moved (f.ip + 1)).heap.Wider u.heap := ⟨catches.scripts, fun _ _ => by rw [catches.closures]⟩
        exact .cons (read.trans catches) (ih ⟨same.trans poised'.frames, poised'.stand.wider wider, poised'.room⟩
          moored'')
      · next index =>
        have poised' := poised.next code rfl (poised.room_next code rfl)
        have moored' := poised.moored_next moored code rfl nofun
        obtain ⟨ref, ran⟩ | ⟨e, -, ran⟩ := looks_captured index (w.moved (f.ip + 1))
        · rw [bind_of_ok ran]
          exact .cons read (ih poised' moored')
        · rw [bind_of_error ran]
          exact read
      · exact read

/-- The frame that has caught them is one of those above the others. -/
theorem World.Catches.keeps (h : w.Catches L f w') (base : f.base ≤ w.machine.stack.size) : w.Keeps R L f.base w' where
  tidy := h.tidy
  natives := h.natives
  opened ref i := h.opened ref i
  cells := h.size
  reads ref _ inside := World.reads_eq (h.cells ref inside) fun _ _ => by rw [h.stack]
  heap := ⟨h.scripts, fun _ _ => by rw [h.closures]⟩
  floor := h.stack ▸ base
  frames := by
    obtain ⟨o, frames⟩ := h.frames
    refine ⟨[{ f with ip := o }], ?_, List.forall_mem_singleton.mpr (Nat.le_refl _)⟩
    rw [frames, Array.toList_push]

/-- The world with a new closure on the stack. -/
def World.closing (w : World) (d : Closure) : World :=
  { w with heap := (w.heap.addClosure d).2, machine.stack := w.machine.stack.push (.closure w.heap.closures.size) }

/-- The variables that a closure has caught are in slots of the frame that makes it. -/
theorem World.Catches.closing (h : w.Catches L f w') (moored : w.Moored w.machine.stack.size)
    (base : f.base ≤ w.machine.stack.size) (moored' : w'.Moored (w.machine.stack.size + 1)) (d : Closure) :
    w.Keeps R L f.base (w'.closing d) ∧ (w'.closing d).Moored (w'.closing d).machine.stack.size ∧
      (w'.closing d).Houses L f.base ∧ L.size < (w'.closing d).machine.frames.size := by
  obtain ⟨o, frames⟩ := h.frames
  have size : (w'.closing d).machine.stack.size = w.machine.stack.size + 1 := by
    change (w'.machine.stack.push _).size = _
    rw [Array.size_push, h.stack]
  have keeps : w.Keeps R L f.base w' := h.keeps base
  have wider : w'.heap.Wider (w'.closing d).heap := (Heap.mild_addClosure d w'.heap).toWider
  have tidy : (w'.closing d).Tidy := h.tidy.same rfl rfl
  refine ⟨⟨⟨tidy, keeps.natives, keeps.opened, keeps.cells, fun ref mem inside => ?_, keeps.heap.trans wider, by omega⟩,
    keeps.frames⟩, ?_, fun j _ above => ?_, ?_⟩
  · refine World.reads_eq (h.cells ref inside) fun i opened => ?_
    have below := moored.below i ⟨ref, opened⟩
    change (w'.machine.stack.push _)[i]? = _
    rw [h.stack, Array.getElem?_push, if_neg (Nat.ne_of_lt below)]
  · rw [size]
    exact ⟨tidy, moored'.below, moored'.owned.wider wider, moored'.natives⟩
  · refine ⟨{ f with ip := o }, ?_, above⟩
    change _ ∈ w'.machine.frames.toList.drop L.size
    rw [frames, Array.toList_push, ← Array.length_toList, List.drop_left]
    exact .head _
  · change _ < w'.machine.frames.size
    rw [frames, Array.size_push]
    exact Nat.lt_succ_self _

theorem World.Faces.keeps_closure {index : UInt16} (faces : w.Faces L f s c N (.closure index))
    (moored : w.Moored w.machine.stack.size) : Keeping R L f.base w (fun _ w' => L.size < w'.machine.frames.size)
      (makeClosure index (w.moved (f.ip + 1))) := by
  have stand := faces.stand
  have base : f.base ≤ w.machine.stack.size := Nat.le_trans (Nat.le_add_right _ _) faces.room
  have moored' : (w.moved (f.ip + 1)).Moored (w.machine.stack.size + 1) :=
    (faces.moored_next moored rfl nofun).mono (Nat.le_succ_of_le (Nat.sub_le _ _))
  have read : w.Catches L f (w.moved (f.ip + 1)) :=
    .of_moved ⟨⟨_, World.frames_moved faces.frames _⟩, rfl, rfl, rfl, rfl, moored'.tidy, Nat.le_refl _, fun _ _ => rfl,
      fun _ _ opened _ => opened⟩
  -- the closure itself is counted ahead of its words
  have poised : (w.moved (f.ip + 1)).Poised L { f with ip := f.ip + 1 } s c N (w.machine.stack.size + 1) := by
    have height := stand.finished.levels.next f.ip _ stand.reachable faces.code rfl
    change (N.point (f.ip + 1)).height + 0 = (N.point f.ip).height + 1 at height
    have room := faces.room
    exact World.Poised.next ⟨faces.frames, stand, Nat.le_succ_of_le room⟩ faces.code rfl (by omega)
  unfold makeClosure
  obtain ⟨v, found⟩ | ⟨e, -, found⟩ := looks_constant index (w.moved (f.ip + 1))
  · rw [bind_of_ok found]
    split
    · next id =>
      rw [bind_of_ok (x := Run.heap) (u := w.moved (f.ip + 1)) rfl, bind_eq]
      have caught := caught_captures ((w.moved (f.ip + 1)).heap.chunk id).chain
        ((w.moved (f.ip + 1)).heap.chunk id).captureCount.toNat poised moored'
      cases taken : captures ((w.moved (f.ip + 1)).heap.chunk id).chain
          ((w.moved (f.ip + 1)).heap.chunk id).captureCount.toNat (w.moved (f.ip + 1)) with
      | ok refs w' =>
        rw [taken] at caught
        exact (read.trans caught.1).closing moored base caught.2 ⟨id, refs.toArray⟩
      | error e w' =>
        rw [taken] at caught
        cases e with
        | failed => exact (read.trans caught).keeps base
        | outOfFuel => trivial
    · exact read.keeps base
  · rw [bind_of_error found]
    exact read.keeps base

/-! ## Every instruction -/

theorem World.Faces.keeps_plain (faces : w.Faces L f s c N i) (next : w.next? = some i)
    (moored : w.Moored w.machine.stack.size) (mindful : Mindful R x y) (apart : ∀ ref ∈ R, ¬w.Assigns ref)
    (ordinary : i.isWayOut = false) :
    plain y i (w.moved (f.ip + 1)) = plain x i (w.moved (f.ip + 1)) ∧
      Keeping R L f.base w (fun _ w' => L.size < w'.machine.frames.size) (plain x i (w.moved (f.ip + 1))) := by
  by_cases sparing : isSparing i
  · exact ⟨by rw [plain_of_sparing sparing y x], faces.keeps_sparing moored sparing⟩
  cases i with
  | call | invoke | superInvoke | testSet | testCase => exact faces.keeps_call moored rfl mindful
  | setLocal n => exact ⟨rfl, faces.keeps_assignment moored next (.inl ⟨n, rfl⟩) apart⟩
  | setUpvalue n => exact ⟨rfl, faces.keeps_assignment moored next (.inr ⟨n, rfl⟩) apart⟩
  | closeUpvalue => exact ⟨rfl, faces.keeps_close moored⟩
  | goto label => exact ⟨rfl, faces.keeps_goto moored rfl⟩
  | gotoIfFalse label => exact ⟨rfl, faces.keeps_gotoIfFalse moored⟩
  | closure index => exact ⟨rfl, faces.keeps_closure moored⟩
  | throw => exact ⟨rfl, faces.keeps_throw moored⟩
  | ret | yield => cases ordinary
  | _ => exact absurd rfl sparing

/-- One instruction of the innermost frame. -/
theorem World.Faces.keeps (faces : w.Faces L f s c N i) (next : w.next? = some i)
    (moored : w.Moored w.machine.stack.size) (mindful : Mindful R x y) (apart : ∀ ref ∈ R, ¬w.Assigns ref)
    (within : stop ≤ L.size) :
    cycle y stop w = cycle x stop w ∧ Keeping R L f.base w (Control.Obeys stop) (cycle x stop w) := by
  rw [cycle_eq next, cycle_eq next, faces.fetched]
  suffices carried : step y stop i (w.moved (f.ip + 1)) = step x stop i (w.moved (f.ip + 1)) ∧
      Keeping R L f.base w (Control.Obeys stop) (step x stop i (w.moved (f.ip + 1))) by
    refine ⟨?_, carried.2.located⟩
    unfold located
    rw [carried.1]
  by_cases out : i.isWayOut
  · cases i with
    | ret count => exact ⟨rfl, faces.keeps_ret moored⟩
    | yield => exact ⟨rfl, faces.keeps_yield moored⟩
    | _ => cases out
  · have ordinary : i.isWayOut = false := by simpa using out
    obtain ⟨same, keeping⟩ := faces.keeps_plain next moored mindful apart ordinary
    rw [step_ordinary stop ordinary, step_ordinary stop ordinary, bind_eq, bind_eq, same]
    refine ⟨rfl, ?_⟩
    cases ran : plain x i (w.moved (f.ip + 1)) with
    | ok a w' =>
      rw [ran] at keeping
      exact ⟨keeping.1, keeping.2.1, keeping.2.2.1, fun _ => Nat.lt_of_le_of_lt within keeping.2.2.2, nofun⟩
    | error e w' =>
      rw [ran] at keeping
      cases e <;> exact keeping

end

end ScriptEngine
