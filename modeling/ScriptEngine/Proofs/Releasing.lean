import ScriptEngine.Proofs.Awaiting
import ScriptEngine.Proofs.Minding

/-!
# Instructions and captured variables

What an instruction takes from a frame lies above the variables in it that may have been
captured by then, unless it is the one that closes the variable on top. So a captured variable
is never dropped with its cell open, whichever instruction it is and wherever it leads, and a
frame that is left has the cells of its variables closed first. The variables that the frame
captures are put on the list, in slots that are its own. An assignment changes what is read
through the cell that it is for, and nothing else does so at all.

`Keeps` says this of an instruction with its frame above others: whatever becomes of the frame
and of those that are put on top of it, the others are left as they are.
-/
namespace ScriptEngine

open Run

/-- Nothing has become of captured variables below slot `b` and of the frames in `F`, and what is read through the cells
in `R` is what was read. -/
structure World.Keeps (R : Set Nat) (F : Array Frame) (b : Nat) (w w' : World) : Prop extends w.Since R b w' where
  frames : ∃ gs, w'.machine.frames.toList = F.toList ++ gs ∧ ∀ g ∈ gs, b ≤ g.base

/-- Captured variables from slot `b` on belong to frames on top of those in `F`. -/
def World.Houses (w : World) (F : Array Frame) (b : Nat) : Prop :=
  ∀ j ∈ w.heap.lodged, b ≤ j → ∃ g ∈ w.machine.frames.toList.drop F.size, g.base ≤ j

/-- What comes of a computation that keeps this, where an answer also leaves captured variables on the stack in
order. -/
def Run.Keeping {α : Type} (R : Set Nat) (F : Array Frame) (b : Nat) (w : World) (Q : α → World → Prop) :
    EStateM.Result Halt World α → Prop
  | .ok a w' => w.Keeps R F b w' ∧ w'.Moored w'.machine.stack.size ∧ w'.Houses F b ∧ Q a w'
  | .error (.failed _) w' => w.Keeps R F b w'
  | .error .outOfFuel _ => True

/-- A loop that stops at a depth goes on above it, and returns where it is reached. -/
def Control.Obeys (stop : Nat) (c : Control) (w : World) : Prop :=
  (c = .next → stop < w.machine.frames.size) ∧ (c = .exit .returned → w.machine.frames.size ≤ stop)

/-- The innermost frame stands at a point of its layout, and what the point says has room below slot `m`. -/
structure World.Poised (w : World) (L : Array Frame) (f : Frame) (s : Script) (c : Chunk) (N : Notes) (m : Nat) :
    Prop where
  frames : w.machine.frames = L.push f
  stand : Stand w.heap f s c N
  room : f.base + (N.point f.ip).height ≤ m

/-- The innermost frame is about to carry out an instruction. -/
structure World.Faces (w : World) (L : Array Frame) (f : Frame) (s : Script) (c : Chunk) (N : Notes)
    (i : Instruction) : Prop
    extends w.Poised L f s c N w.machine.stack.size where
  code : c.code[f.ip]? = some i
  full : (N.point f.ip).region = .none → w.machine.stack.size = f.base + (N.point f.ip).height

theorem World.Stands.faces {w : World} (stands : w.Stands) :
    ∃ L f s c N i, w.Faces L f s c N i ∧ w.next? = some i := by
  obtain ⟨F, f, fs, b, ms, frames, s, c, N, entry, stance, spans, -⟩ := stands.upright
  have stand := stance.stand
  obtain ⟨i, code⟩ : ∃ i, c.code[f.ip]? = some i :=
    ⟨_, Array.getElem?_eq_getElem (stand.finished.within stand.reachable)⟩
  rw [piled_cons] at frames
  refine ⟨_, f, s, c, N, i, ⟨⟨frames, stand, spans.le⟩, code, fun region => ?_⟩, ?_⟩
  · unfold Spans at spans
    rw [region] at spans
    exact spans.2
  · unfold World.next?
    rw [frames, Array.back?_push]
    dsimp only
    rw [stand.code]
    exact code

section

variable {α : Type} {R : Set Nat} {L F : Array Frame} {f : Frame} {s : Script} {c : Chunk} {N : Notes} {i : Instruction}
  {b k m o stop : Nat} {w w' u : World} {Q : α → World → Prop}

/-! ## Keeping -/

theorem Run.Keeping.located {x : Run α} (h : Keeping R F b w Q (x u)) : Keeping R F b w Q (located x u) := by
  unfold Run.located
  cases ran : x u with
  | ok a w' =>
    rw [ran] at h
    exact h
  | error e w' =>
    rw [ran] at h
    cases e <;> exact h

/-- From a world that differs in nothing but how far the innermost frame has come. -/
theorem World.Since.of_moved (h : (w.moved o).Since R k w') : w.Since R k w' :=
  ⟨h.tidy, h.natives, h.opened, h.cells, h.reads, h.heap, h.floor⟩

theorem World.frames_moved (frames : w.machine.frames = L.push f) (o : Nat) :
    (w.moved o).machine.frames = L.push { f with ip := o } := by
  change jump o w.machine.frames = _
  rw [frames, jump_push]

/-- The frame is one of those above the others. -/
theorem World.Minds.keeps (h : (w.moved o).Minds R k w') (frames : w.machine.frames = L.push f) (above : f.base ≤ k) :
    w.Keeps R L f.base w' ∧ L.size < w'.machine.frames.size := by
  obtain ⟨gs, frames', bases⟩ := h.frames
  rw [World.frames_moved frames, Array.toList_push, List.append_assoc] at frames'
  refine ⟨⟨h.toSince.of_moved.mono above, _, frames', fun g mem => ?_⟩, ?_⟩
  · rcases List.mem_append.mp mem with here | top
    · obtain rfl := List.mem_singleton.mp here
      exact Nat.le_refl _
    · exact Nat.le_trans above (bases g top)
  · have size := size_of_split frames'
    rw [List.length_append, List.length_singleton] at size
    omega

/-- And it is there that variables have been captured. -/
theorem World.Minds.houses (h : (w.moved o).Minds R k w') (frames : w.machine.frames = L.push f) :
    w'.Houses L f.base := by
  intro j lodged above
  obtain ⟨gs, frames', -⟩ := h.frames
  rw [World.frames_moved frames, Array.toList_push, List.append_assoc] at frames'
  refine ⟨{ f with ip := o }, ?_, above⟩
  rw [frames', ← Array.length_toList, List.drop_left]
  exact .head _

/-! ## Where captured variables lie -/

/-- The slots still belong to the frame, once it has come to another instruction. -/
theorem Heap.Owns.step {h : Heap} {fs : List Frame} {S T : Set Nat} (owns : h.Owns (f :: fs) S)
    (stand : Stand h f s c N)
    (sub : T ⊆ S)
    (step : ∀ N', Finished s.chunks c N' → ∀ n, f.base + n ∈ T → N'.Anchors f.ip n → N'.Anchors o n) :
    h.Owns ({ f with ip := o } :: fs) T := by
  refine ⟨fun i mem above => ?_, owns.2.mono fun i mem => ⟨sub mem.1, mem.2⟩⟩
  obtain ⟨inside, anchors⟩ := owns.1 i (sub mem) above
  refine ⟨inside, fun s' c' N' script chunk finished => ?_⟩
  obtain rfl : s = s' := Option.some.inj (stand.script.symm.trans script)
  obtain rfl : c = c' := Option.some.inj (stand.chunk.symm.trans chunk)
  refine step N' finished (i - f.base) ?_ (anchors s c N' script chunk finished)
  rwa [Nat.add_sub_cancel' above]

theorem World.Poised.owns (poised : w.Poised L f s c N m) (moored : w.Moored k) :
    w.heap.Owns (f :: L.toList.reverse) w.heap.lodged := by
  have owned := moored.owned
  rwa [poised.frames, Array.toList_push, List.reverse_append] at owned

/-- The same, from the world that the frame has come to. -/
theorem World.Poised.owned (poised : w.Poised L f s c N m) (moored : w.Moored b)
    (step : ∀ N', Finished s.chunks c N' → ∀ n, f.base + n < k → N'.Anchors f.ip n → N'.Anchors o n) :
    (w.moved o).heap.Owns (w.moved o).machine.frames.toList.reverse {i ∈ (w.moved o).heap.lodged | i < k} := by
  rw [World.frames_moved poised.frames, Array.toList_push, List.reverse_append]
  exact (poised.owns moored).step poised.stand (fun i mem => mem.1) fun N' finished n mem => step N' finished n mem.2

/-- Captured variables lie below what an instruction takes, if it does not close one. -/
theorem World.Faces.below (faces : w.Faces L f s c N i) (moored : w.Moored k) (other : i ≠ .closeUpvalue) :
    ∀ j ∈ w.heap.lodged, j < w.machine.stack.size - (i.balance (N.point f.ip)).1 := by
  intro j lodged
  have stand := faces.stand
  have room := faces.room
  have takes := stand.finished.levels.takes f.ip i stand.reachable faces.code
  change (i.balance (N.point f.ip)).1 < (N.point f.ip).height at takes
  by_cases above : f.base ≤ j
  · obtain ⟨-, anchors⟩ := (faces.owns moored).1 j lodged above
    obtain ⟨p, effect, -⟩ := stand.finished.effect faces.code
    rcases stand.finished.anchored faces.code effect (anchors s c N stand.script stand.chunk stand.finished) with
      ⟨below, -⟩ | ⟨close, -⟩
    · omega
    · exact absurd close other
  · omega

/-- What an instruction takes lies in its frame. -/
theorem World.Faces.above (faces : w.Faces L f s c N i) :
    f.base < w.machine.stack.size - (i.balance (N.point f.ip)).1 ∧
      w.machine.stack.size - (i.balance (N.point f.ip)).1 + (i.balance (N.point f.ip)).1 = w.machine.stack.size := by
  have stand := faces.stand
  have room := faces.room
  have takes := stand.finished.levels.takes f.ip i stand.reachable faces.code
  change (i.balance (N.point f.ip)).1 < (N.point f.ip).height at takes
  omega

theorem World.Faces.fetched (faces : w.Faces L f s c N i) : w.fetched = w.moved (f.ip + 1) :=
  w.fetched_of_push faces.frames

/-- An instruction that goes on leaves captured variables where they are. -/
theorem World.Faces.owned_next (faces : w.Faces L f s c N i) (moored : w.Moored b) (falls : i.falls)
    (other : i ≠ .closeUpvalue) :
    (w.moved (f.ip + 1)).heap.Owns (w.moved (f.ip + 1)).machine.frames.toList.reverse
      {j ∈ (w.moved (f.ip + 1)).heap.lodged | j < k} :=
  faces.owned moored fun _ finished _ _ => finished.anchors_next faces.code falls (.inl other)

/-- The world behind the instruction. -/
theorem World.Faces.moored_next (faces : w.Faces L f s c N i) (moored : w.Moored b) (falls : i.falls)
    (other : i ≠ .closeUpvalue) :
    (w.moved (f.ip + 1)).Moored (w.machine.stack.size - (i.balance (N.point f.ip)).1) where
  tidy := moored.tidy.same rfl rfl
  below := faces.below moored other
  owned := (faces.owned_next (k := w.machine.stack.size) moored falls other).mono fun j lodged =>
    ⟨lodged, Nat.lt_of_lt_of_le (faces.below moored other j lodged) (Nat.sub_le _ _)⟩
  natives := moored.natives

/-! ## What is done with captured variables -/

theorem Run.minded_of_left {r : EStateM.Result Halt World α} (h : w.Minds R k (left r)) : Minded R k 0 w r := by
  cases r with
  | ok a w' => exact ⟨h, h.floor⟩
  | error e w' =>
    cases e with
    | failed => exact h
    | outOfFuel => trivial

theorem Run.Spares.minds {x : Run α} {r t : Nat} (spares : Spares k r t x) (tidy : w.Tidy)
    (below : ∀ j ∈ w.heap.lodged, j < k)
    (room : k + r ≤ w.machine.stack.size) : w.Minds R k (left (x w)) := by
  have h := spares w room
  cases ran : x w with
  | ok a w' =>
    rw [ran] at h
    exact h.1.minds tidy below
  | error e w' =>
    rw [ran] at h
    exact h.minds tidy below

/-- If what is left belongs to the frame, and to the others, captured variables are in order. -/
theorem Run.Minded.keeping {r : EStateM.Result Halt World α} (minded : Minded R k 0 (w.moved o) r)
    (frames : w.machine.frames = L.push f) (above : f.base ≤ k)
    (owned : (w.moved o).heap.Owns (w.moved o).machine.frames.toList.reverse {j ∈ (w.moved o).heap.lodged | j < k})
    (natives : ∀ ref, (w.native ref).Gentle) :
    Keeping R L f.base w (fun _ w' => L.size < w'.machine.frames.size) r := by
  cases r with
  | ok a w' =>
    have minds : (w.moved o).Minds R k w' := minded.1
    obtain ⟨keeps, inside⟩ := minds.keeps frames above
    exact ⟨keeps, (minds.moored owned natives).mono minds.floor, minds.houses frames, inside⟩
  | error e w' =>
    cases e with
    | failed => exact (World.Minds.keeps (o := o) minded frames above).1
    | outOfFuel => trivial

/-- With the variables from a slot on closed, what lies below is spared. -/
theorem Run.Spares.closing {x : Run α} {r t : Nat} (spares : Spares b r t x) (tidy : w.Tidy)
    (room : b + r ≤ w.machine.stack.size) : w.Minds R b (left ((do closeFrom b; x : Run α) w)) := by
  obtain ⟨u, ran, closes⟩ := tidy.closeFrom b
  have stack := congrArg Machine.stack closes.machine
  have frames := congrArg Machine.frames closes.machine
  have scripts := congrArg Heap.scripts closes.heap
  have closures := congrArg Heap.closures closes.heap
  dsimp only at stack frames scripts closures
  have below : ∀ j ∈ u.heap.lodged, j < b := fun j ⟨ref, opened⟩ => ((closes.opened ref j).mp opened).2
  have closed : w.Minds R b u := {
    tidy := closes.tidy
    natives := closes.natives
    opened := fun ref j opened _ => ((closes.opened ref j).mp opened).1
    cells := Nat.le_of_eq closes.size.symm
    reads := fun ref _ _ => closes.reads ref
    heap := ⟨scripts, fun ref _ => by rw [closures]⟩
    floor := by rw [stack]; omega
    below
    frames := ⟨[], by rw [frames, List.append_nil], nofun⟩ }
  rw [bind_of_ok ran]
  exact closed.trans (spares.minds closes.tidy below (by rwa [stack]))

/-- The variable on top gets a value of its own, and then it is dropped. -/
theorem minds_closeTop (tidy : w.Tidy) (some : 0 < w.machine.stack.size) :
    w.Minds R (w.machine.stack.size - 1) (left (closeTop w)) := by
  have ran : closeTop w = (do closeFrom (w.machine.stack.size - 1); let _ ← pop : Run Unit) w := by
    change (if w.machine.stack.size = 0 then _ else _ : Run Unit) w = _
    rw [if_neg (Nat.ne_of_gt some)]
  rw [ran]
  have spares : Spares (w.machine.stack.size - 1) 1 0 (do let _ ← pop) := spares_pop.bind fun _ => .pure _
  exact spares.closing tidy (by omega)

/-! ## Assignments -/

/-- The instruction to come assigns to the variable that a cell is for. -/
inductive World.Assigns (w : World) (ref : Nat) : Prop
  | own {f : Frame} {n : UInt8} (top : w.machine.frames.back? = some f) (next : w.next? = some (.setLocal n))
      (opened : w.heap.cell ref = .opened (f.base + n.toNat))
  | captured {f : Frame} {n : UInt8} (top : w.machine.frames.back? = some f) (next : w.next? = some (.setUpvalue n))
      (cell : (w.heap.closure f.closure).cells[n.toNat]? = some ref)

/-- A computation that only looks, ahead of another one. -/
theorem minds_of_looks {β : Type} {x : Run β} {g : β → Run α} (looks : Looks x) (refl : w.Minds R k w)
    (then_ : ∀ a, x w = .ok a w → w.Minds R k (left (g a w))) : w.Minds R k (left ((x >>= g) w)) := by
  obtain ⟨a, ran⟩ | ⟨e, -, ran⟩ := looks w
  · rw [bind_of_ok ran]
    exact then_ a ran
  · rw [bind_of_error ran]
    exact refl

/-- A slot is written that no cell in `R` is for. -/
theorem minds_setSlot {j : Nat} (moored : w.Moored w.machine.stack.size)
    (apart : ∀ ref ∈ R, w.heap.cell ref ≠ .opened j)
    (v : Value) : w.Minds R w.machine.stack.size (left (setSlot j v w)) := by
  have refl := moored.refl (R := R) (Nat.le_refl _)
  refine minds_of_looks looks_stackSize refl fun size ran => ?_
  split
  · refine ⟨⟨moored.tidy.same rfl rfl, rfl, refl.opened, refl.cells, fun ref mem inside => ?_, refl.heap, ?_⟩,
      refl.below, refl.frames⟩
    · refine World.reads_eq rfl fun i opened => Array.getElem?_setIfInBounds_ne ?_
      rintro rfl
      exact apart ref mem opened
    · change _ ≤ (w.machine.stack.setIfInBounds j v).size
      rw [Array.size_setIfInBounds]
  · exact refl

theorem minds_setLocal {n : UInt8} (moored : w.Moored w.machine.stack.size) (top : w.machine.frames.back? = some f)
    (apart : ∀ ref ∈ R, w.heap.cell ref ≠ .opened (f.base + n.toNat)) :
    w.Minds R w.machine.stack.size (left (setLocal n w)) := by
  have refl := moored.refl (R := R) (Nat.le_refl _)
  refine minds_of_looks looks_frame refl fun g ran => ?_
  rw [frame_eq top] at ran
  cases ran
  exact minds_of_looks (looks_peek 0) refl fun v _ => minds_setSlot moored apart v

theorem captured_eq {n : UInt8} (top : w.machine.frames.back? = some f) :
    captured n w = match (w.heap.closure f.closure).cells[n.toNat]? with
      | some ref => .ok ref w
      | none => .error (.failed { error := .internal (.noUpvalue n) }) w := by
  change (frame >>= _ : Run Nat) w = _
  rw [bind_of_ok (frame_eq top)]
  change (match (w.heap.closure f.closure).cells[n.toNat]? with
    | some ref => pure ref
    | none => failInternal (.noUpvalue n) : Run Nat) w = _
  cases (w.heap.closure f.closure).cells[n.toNat]? <;> rfl

/-- A closed cell other than those in `R` gets another value. -/
theorem minds_setCell {ref : Nat} {v v' : Value} (moored : w.Moored k) (floor : k ≤ w.machine.stack.size)
    (closed : w.heap.cell ref = .closed v) (apart : ref ∉ R) :
    w.Minds R k { w with heap := w.heap.setCell ref (.closed v') } := by
  have refl := moored.refl (R := R) floor
  have opened (r j : Nat) : (w.heap.setCell ref (.closed v')).cell r = .opened j ↔ w.heap.cell r = .opened j := by
    rw [Heap.cell_setCell]
    split_ifs with here
    · rw [here.1, closed]
      simp
    · rfl
  refine ⟨⟨⟨fun r => ?_, moored.tidy.nodup, fun j r r' first second => ?_⟩, rfl,
    fun r j open_ _ => (opened r j).mp open_, ?_,
    fun r mem inside => ?_, ⟨rfl, fun _ _ => rfl⟩, floor⟩, ?_, refl.frames⟩
  · simp only [opened]
    exact moored.tidy.listed r
  · exact moored.tidy.distinct j r r' ((opened r j).mp first) ((opened r' j).mp second)
  · exact Nat.le_of_eq (by simp [Heap.setCell, Heap.change])
  · refine World.reads_eq ?_ fun _ _ => rfl
    change (w.heap.setCell ref (.closed v')).cell r = _
    rw [Heap.cell_setCell, if_neg]
    rintro ⟨rfl, -⟩
    exact apart mem
  · rintro j ⟨r, open_⟩
    exact moored.below j ⟨r, (opened r j).mp open_⟩

theorem minds_setCaptured {n : UInt8} (moored : w.Moored w.machine.stack.size) (top : w.machine.frames.back? = some f)
    (apart : ∀ ref ∈ R, (w.heap.closure f.closure).cells[n.toNat]? ≠ some ref) :
    w.Minds R w.machine.stack.size (left (setCaptured n w)) := by
  have refl := moored.refl (R := R) (Nat.le_refl _)
  refine minds_of_looks (looks_peek 0) refl fun v _ => minds_of_looks (looks_captured n) refl fun ref ran => ?_
  rw [captured_eq top] at ran
  split at ran <;> cases ran
  next found =>
  have other : ref ∉ R := fun mem => apart ref mem found
  refine minds_of_looks looks_heap refl fun h read => ?_
  cases read
  cases cell : w.heap.cell ref with
  | opened j =>
    refine minds_setSlot moored (fun ref' mem opened' => ?_) v
    obtain rfl := moored.tidy.distinct j ref ref' cell opened'
    exact other mem
  | closed v' => exact minds_setCell moored (Nat.le_refl _) cell other

/-! ## Instructions that go on in their frame -/

section

variable {x y : Reentry}

theorem falls_of_sparing (sparing : isSparing i) : i.falls := by
  cases i with
  | goto | ret | throw => cases sparing
  | _ => rfl

/-- An instruction that minds captured variables below what it takes. -/
theorem World.Faces.keeping {r : EStateM.Result Halt World Unit} (faces : w.Faces L f s c N i)
    (moored : w.Moored w.machine.stack.size) (falls : i.falls) (other : i ≠ .closeUpvalue) (above : f.base ≤ k)
    (minded : Minded R k 0 (w.moved (f.ip + 1)) r) :
    Keeping R L f.base w (fun _ w' => L.size < w'.machine.frames.size) r :=
  minded.keeping faces.frames above (faces.owned_next moored falls other) moored.natives

theorem World.Faces.keeps_sparing (faces : w.Faces L f s c N i) (moored : w.Moored w.machine.stack.size)
    (sparing : isSparing i) : Keeping R L f.base w (fun _ w' => L.size < w'.machine.frames.size)
      (plain x i (w.moved (f.ip + 1))) := by
  have other : i ≠ .closeUpvalue := by
    rintro rfl
    cases sparing
  obtain ⟨p, effect, -⟩ := faces.stand.finished.effect faces.code
  obtain ⟨above, room⟩ := faces.above
  refine faces.keeping moored (falls_of_sparing sparing) other (Nat.le_of_lt above) (minded_of_left ?_)
  exact (spares_balance x sparing effect).minds (moored.tidy.same rfl rfl) (faces.below moored other)
    (Nat.le_of_eq room)

theorem effect_of_calls {p q : Point} {known : Array Chunk} (effect : Effect known c i p q) (calls : i.calls) :
    i.effect = some (i.balance p) ∨ (i.balance p).1 = 1 ∧ ∃ n, i = .testSet n := by
  cases effect with
  | plain effect => exact .inl (by rw [balance_of_effect effect, effect])
  | set => exact .inr ⟨rfl, _, rfl⟩
  | _ => cases calls

theorem World.Faces.keeps_call (faces : w.Faces L f s c N i) (moored : w.Moored w.machine.stack.size) (calls : i.calls)
    (mindful : Mindful R x y) :
    plain y i (w.moved (f.ip + 1)) = plain x i (w.moved (f.ip + 1)) ∧
      Keeping R L f.base w (fun _ w' => L.size < w'.machine.frames.size) (plain x i (w.moved (f.ip + 1))) := by
  have other : i ≠ .closeUpvalue := by
    rintro rfl
    cases calls
  have falls : i.falls := by
    cases i <;> first | rfl | cases calls
  obtain ⟨p, effect, -⟩ := faces.stand.finished.effect faces.code
  obtain ⟨above, room⟩ := faces.above
  have inside : 0 < (w.moved (f.ip + 1)).machine.frames.size := by
    rw [World.frames_moved faces.frames, Array.size_push]
    omega
  obtain ⟨same, minded⟩ := (mindful.plain calls (effect_of_calls effect calls)) _ (faces.moored_next moored falls other)
    inside (Nat.le_of_eq room)
  exact ⟨same, faces.keeping moored falls other (Nat.le_of_lt above) minded⟩

theorem World.Faces.top (faces : w.Faces L f s c N i) (o : Nat) :
    (w.moved o).machine.frames.back? = some { f with ip := o } := by
  rw [World.frames_moved faces.frames, Array.back?_push]

theorem World.Faces.keeps_assignment (faces : w.Faces L f s c N i) (moored : w.Moored w.machine.stack.size)
    (next : w.next? = some i) (assigns : (∃ n, i = .setLocal n) ∨ ∃ n, i = .setUpvalue n)
    (apart : ∀ ref ∈ R, ¬w.Assigns ref) : Keeping R L f.base w (fun _ w' => L.size < w'.machine.frames.size)
      (plain x i (w.moved (f.ip + 1))) := by
  have top : w.machine.frames.back? = some f := by rw [faces.frames, Array.back?_push]
  have base : f.base ≤ w.machine.stack.size := Nat.le_trans (Nat.le_add_right _ _) faces.room
  have moored' (other : i ≠ .closeUpvalue) (falls : i.falls) :
      (w.moved (f.ip + 1)).Moored (w.moved (f.ip + 1)).machine.stack.size :=
    (faces.moored_next moored falls other).mono (Nat.sub_le _ _)
  obtain ⟨n, rfl⟩ | ⟨n, rfl⟩ := assigns
  · refine faces.keeping moored rfl nofun base (minded_of_left (minds_setLocal (moored' nofun rfl) (faces.top _) ?_))
    exact fun ref mem opened => apart ref mem (.own top next opened)
  · refine faces.keeping moored rfl nofun base (minded_of_left (minds_setCaptured (moored' nofun rfl) (faces.top _) ?_))
    exact fun ref mem cell => apart ref mem (.captured top next cell)

/-- The variable on top is the last one of the frame, so the others still belong to it. -/
theorem World.Faces.keeps_close (faces : w.Faces L f s c N .closeUpvalue) (moored : w.Moored w.machine.stack.size) :
    Keeping R L f.base w (fun _ w' => L.size < w'.machine.frames.size)
      (plain x .closeUpvalue (w.moved (f.ip + 1))) := by
  have stand := faces.stand
  have finished := stand.finished
  obtain ⟨above, room⟩ := faces.above
  change f.base < w.machine.stack.size - 1 at above
  obtain ⟨p, effect, -⟩ := finished.effect faces.code
  have region : (N.point f.ip).region = .none := by
    have suits := finished.suits faces.code
    generalize N.point f.ip = p at effect suits
    cases effect with
    | plain effect => cases effect
    | close => exact suits.drops (.inr rfl) _ _ _ rfl
  have full := faces.full region
  have some : 0 < (w.moved (f.ip + 1)).machine.stack.size :=
    Nat.lt_of_lt_of_le (Nat.zero_lt_of_lt above) (Nat.sub_le _ _)
  refine Minded.keeping (k := w.machine.stack.size - 1)
    (minded_of_left (minds_closeTop (w := w.moved (f.ip + 1)) (moored.tidy.same rfl rfl) some))
    faces.frames (Nat.le_of_lt above) (faces.owned moored fun N' finished' n below => ?_) moored.natives
  have height := (finished.agrees finished' stand.small stand.reachable).2.height
  exact finished'.anchors_next faces.code rfl (.inr (by omega))

/-! ## Jumps -/

theorem World.moved_moved (frames : w.machine.frames = L.push f) (o o' : Nat) : (w.moved o).moved o' = w.moved o' := by
  have same : (w.moved o).machine.frames.modify ((w.moved o).machine.frames.size - 1) (fun f => { f with ip := o' }) =
      jump o' w.machine.frames := by
    change jump o' (w.moved o).machine.frames = _
    rw [World.frames_moved frames, frames, jump_push, jump_push]
  unfold World.moved jump at same ⊢
  rw [same]

theorem World.Faces.keeps_goto (faces : w.Faces L f s c N i) (moored : w.Moored w.machine.stack.size) {label : UInt16}
    (target : i.target? = some label) : Keeping R L f.base w (fun _ w' => L.size < w'.machine.frames.size)
      (goto label (w.moved (f.ip + 1))) := by
  have stand := faces.stand
  have base : f.base ≤ w.machine.stack.size := Nat.le_trans (Nat.le_add_right _ _) faces.room
  have below (o : Nat) : ∀ j ∈ (w.moved o).heap.lodged, j < w.machine.stack.size := moored.below
  have refl (o : Nat) : (w.moved o).Minds R w.machine.stack.size (w.moved o) :=
    (World.Untouched.refl (w := w.moved o) (Nat.le_refl _)).minds (moored.tidy.same rfl rfl) (below o)
  rw [goto_eq (World.frames_moved faces.frames _)]
  dsimp only
  rw [World.heap_moved, stand.code]
  cases placed : c.labelOffset? label with
  | none => exact ((refl _).keeps faces.frames base).1
  | some offset =>
    dsimp only
    rw [World.moved_moved faces.frames]
    refine Minded.keeping (r := .ok () (w.moved offset)) ⟨refl offset, (refl offset).floor⟩
      faces.frames base ?_ moored.natives
    refine faces.owned moored fun N' finished' n _ anchors => ?_
    obtain ⟨-, at_⟩ := finished'.levels.label _ _ _ faces.code target
    rw [at_ stand.small] at placed
    cases placed
    exact finished'.anchors_jump faces.code target anchors

theorem World.Faces.keeps_gotoIfFalse {label : UInt16} (faces : w.Faces L f s c N (.gotoIfFalse label))
    (moored : w.Moored w.machine.stack.size) : Keeping R L f.base w (fun _ w' => L.size < w'.machine.frames.size)
      (gotoIfFalse label (w.moved (f.ip + 1))) := by
  have base : f.base ≤ w.machine.stack.size := Nat.le_trans (Nat.le_add_right _ _) faces.room
  have refl : (w.moved (f.ip + 1)).Minds R w.machine.stack.size (w.moved (f.ip + 1)) :=
    ((faces.moored_next moored rfl nofun).mono (Nat.sub_le _ _)).refl (Nat.le_refl _)
  obtain ⟨v, ran⟩ | ⟨e, -, ran⟩ := looks_peek 0 (w.moved (f.ip + 1))
  · have same : gotoIfFalse label (w.moved (f.ip + 1)) =
        (if v.isFalsy then goto label else pure () : Run Unit) (w.moved (f.ip + 1)) := bind_of_ok ran _
    rw [same]
    split
    · exact faces.keeps_goto moored rfl
    · exact faces.keeping (r := .ok () _) moored rfl nofun base ⟨refl, refl.floor⟩
  · have same : gotoIfFalse label (w.moved (f.ip + 1)) = .error (.failed { error := e }) (w.moved (f.ip + 1)) :=
      bind_of_error ran _
    rw [same]
    exact (refl.keeps faces.frames base).1

/-! ## Ways out of the frame -/

/-- What is thrown leaves the frame where it is. -/
theorem World.Faces.keeps_throw (faces : w.Faces L f s c N .throw) (moored : w.Moored w.machine.stack.size) :
    Keeping R L f.base w (fun _ w' => L.size < w'.machine.frames.size)
      (throwTop (w.moved (f.ip + 1)) : EStateM.Result Halt World Unit) := by
  obtain ⟨above, room⟩ := faces.above
  have spares : Run.Spares (w.machine.stack.size - 1) 1 0 (throwTop : Run Unit) := spares_pop.bind fun _ => .fail _
  have minds := spares.minds (R := R) (w := w.moved (f.ip + 1)) (moored.tidy.same rfl rfl) (faces.below moored nofun)
    (Nat.le_of_eq room)
  cases ran : (throwTop : Run Unit) (w.moved (f.ip + 1)) with
  | ok a w' =>
    obtain ⟨v, w₁, -, failed⟩ := bind_ok ran
    cases failed
  | error e w' =>
    rw [ran] at minds
    cases e with
    | failed => exact (minds.keeps faces.frames (Nat.le_of_lt above)).1
    | outOfFuel => trivial

theorem World.Faces.keeps_yield (faces : w.Faces L f s c N .yield) (moored : w.Moored w.machine.stack.size) :
    Keeping R L f.base w (Control.Obeys stop) (yield (w.moved (f.ip + 1))) := by
  have base : f.base ≤ w.machine.stack.size := Nat.le_trans (Nat.le_add_right _ _) faces.room
  have moored' := (faces.moored_next moored rfl nofun).mono (Nat.sub_le _ _)
  have minds : (w.moved (f.ip + 1)).Minds R w.machine.stack.size (w.moved (f.ip + 1)) := moored'.refl (Nat.le_refl _)
  obtain ⟨keeps, -⟩ := minds.keeps faces.frames base
  change Keeping R L f.base w (Control.Obeys stop) ((if (w.moved (f.ip + 1)).machine.hostCalls = 0 then
    pure (.exit .yielded) else fail .yieldInHostCall : Run Control) (w.moved (f.ip + 1)))
  split
  · exact ⟨keeps, moored', minds.houses faces.frames, nofun, nofun⟩
  · exact keeps

theorem leave_of_popped {count : Nat} {vs : List Value} (popped : popMany count w = .ok vs u)
    (frames : u.machine.frames = L.push f) : leave count w = (do
      closeFrom f.base
      (do
        truncate f.base
        if !f.discards then pushResults vs f.base) : Run Unit) { u with machine.frames := L } := by
  have left : popFrame u = .ok f { u with machine.frames := L } := by
    unfold popFrame
    rw [frames, Array.back?_push, Array.pop_push]
  unfold leave
  rw [bind_of_ok popped, bind_of_ok left]

/-- When a frame has been taken off, its variables are not in order until they are closed. -/
theorem World.Faces.keeps_cleared {count : UInt8} (faces : w.Faces L f s c N (.ret count)) (moored : w.Moored m)
    (untouched : (w.moved (f.ip + 1)).Untouched k u) (above : f.base ≤ k) (below : ∀ j ∈ w.heap.lodged, j < k)
    {rest : Run Unit} (spares : Run.Spares f.base 0 0 rest) :
    Keeping R L f.base w (fun _ _ => True)
      ((do closeFrom f.base; rest : Run Unit) { u with machine.frames := L }) := by
  have since := (untouched.minds (R := R) (moored.tidy.same rfl rfl) below).toSince.of_moved.mono above
  have since' : w.Since R f.base { u with machine.frames := L } :=
    ⟨since.tidy.same rfl rfl, since.natives, since.opened, since.cells, since.reads, since.heap, since.floor⟩
  have owned : u.heap.Owns L.toList.reverse {j ∈ u.heap.lodged | j < f.base} := by
    refine ((faces.owns moored).2.wider since.heap).mono ?_
    rintro j ⟨⟨ref, opened⟩, inside⟩
    exact ⟨⟨ref, untouched.cell ref ▸ opened⟩, inside⟩
  have minds := spares.closing (R := R) since'.tidy since'.floor
  have keeps {w' : World} (minds : World.Minds R f.base { u with machine.frames := L } w') : w.Keeps R L f.base w' :=
    ⟨since'.trans minds.toSince (Nat.le_refl _), minds.frames⟩
  generalize (do closeFrom f.base; rest : Run Unit) { u with machine.frames := L } = r at minds ⊢
  cases r with
  | ok a w' =>
    refine ⟨keeps minds, (minds.moored owned (w.gentle_of since'.natives moored.natives)).mono minds.floor,
      ?_, trivial⟩
    exact fun j lodged above => absurd (minds.below j lodged) (Nat.not_lt.mpr above)
  | error e w' =>
    cases e with
    | failed => exact keeps minds
    | outOfFuel => trivial

/-- The variables of the frame get values of their own, and its slots are gone. -/
theorem World.Faces.keeps_leave {count : UInt8} (faces : w.Faces L f s c N (.ret count))
    (moored : w.Moored w.machine.stack.size) :
    Keeping R L f.base w (fun _ _ => True) (leave count.toNat (w.moved (f.ip + 1))) := by
  obtain ⟨above, room⟩ := faces.above
  change f.base < w.machine.stack.size - count.toNat at above
  change w.machine.stack.size - count.toNat + count.toNat = w.machine.stack.size at room
  have below := faces.below moored nofun
  have spares : Run.Spares (w.machine.stack.size - count.toNat) (0 + count.toNat) 0 (popMany count.toNat) :=
    spares_popMany _
  have taken := spares (w.moved (f.ip + 1)) (Nat.zero_add _ ▸ Nat.le_of_eq room)
  cases popped : popMany count.toNat (w.moved (f.ip + 1)) with
  | error e u =>
    rw [popped] at taken
    have failed : leave count.toNat (w.moved (f.ip + 1)) = .error e u := bind_of_error popped _
    rw [failed]
    cases e with
    | failed => exact ((taken.minds (moored.tidy.same rfl rfl) below).keeps faces.frames (Nat.le_of_lt above)).1
    | outOfFuel => trivial
  | ok vs u =>
    rw [popped] at taken
    obtain ⟨untouched, -⟩ := taken
    rw [leave_of_popped popped (untouched.frames.trans (World.frames_moved faces.frames _))]
    exact faces.keeps_cleared moored untouched (Nat.le_of_lt above) below
      ((spares_truncate (Nat.le_refl _)).bind fun _ => .ite (spares_pushResults _ _) (.pure _))

theorem World.Faces.keeps_ret {count : UInt8} (faces : w.Faces L f s c N (.ret count))
    (moored : w.Moored w.machine.stack.size) :
    Keeping R L f.base w (Control.Obeys stop) (returnFrom count.toNat stop (w.moved (f.ip + 1))) := by
  have left := faces.keeps_leave (R := R) moored
  rw [returnFrom_eq, bind_eq]
  cases ran : leave count.toNat (w.moved (f.ip + 1)) with
  | error e w' =>
    rw [ran] at left
    cases e <;> exact left
  | ok a w' =>
    rw [ran] at left
    refine ⟨left.1, left.2.1, left.2.2.1, ?_⟩
    split
    · next le => exact ⟨nofun, fun _ => le⟩
    · next lt => exact ⟨fun _ => Nat.lt_of_not_le lt, nofun⟩

end

end

end ScriptEngine
