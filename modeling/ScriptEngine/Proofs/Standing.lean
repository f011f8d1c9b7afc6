import ScriptEngine.Proofs.Hosting

/-!
# Frames that stand on one another

A frame runs compiled code, so the layout of its chunk says how high the stack is, in
the midst of a region for several results at least how high. A frame that waits for a
call stands as soon as the call has left its results: one in the place of the callee,
or several where a region begins. `Tower` says so of all frames above a floor, and of
the call that waits below them.
-/
namespace ScriptEngine

/-- Heights of the stack that a call may leave which began at a slot. -/
def Leaves (b : Nat) (marks : List Nat) (size : Nat) : Prop := size = b + 1 ∨ marks.head? = some b ∧ b + 1 ≤ size

theorem Leaves.lt {b size : Nat} {marks : List Nat} (h : Leaves b marks size) : b < size := by
  rcases h with rfl | ⟨-, h⟩ <;> omega

/-- No mark is above so many values. -/
def Low (marks : List Nat) (b : Nat) : Prop := ∀ m, marks.head? = some m → m ≤ b

theorem Low.mono {marks : List Nat} {b b' : Nat} (h : Low marks b) (le : b ≤ b') : Low marks b' := fun m head =>
  Nat.le_trans (h m head) le

/-- The heights at which a frame hands over to what waits for it. -/
def Frame.Returns (f : Frame) (entry : List Nat) (size : Nat) : Prop :=
  if f.discards then size = f.base else Leaves f.base entry size

/-- The frame runs a chunk of a compiled script, at an offset to which control may come. -/
structure Stand (h : Heap) (f : Frame) (s : Script) (c : Chunk) (N : Notes) : Prop where
  closure : f.closure < h.closures.size
  script : h.scripts[(h.closure f.closure).chunk.script]? = some s
  chunk : s.chunks[(h.closure f.closure).chunk.index]? = some c
  finished : Finished s.chunks c N
  small : c.code.size < 2 ^ 32
  reachable : N.layout.Reachable c f.ip

/-- A frame that begins at `base` holds what the point says, where `entry` were the marks when it began. -/
def Spans (base : Nat) (p : Point) (entry : List Nat) (size : Nat) (marks : List Nat) : Prop :=
  match p.region with
  | .none => marks = entry ∧ size = base + p.height
  | .opened s => marks = (base + s) :: entry ∧ base + p.height ≤ size
  | .counted _ => marks = entry ∧ base + p.height ≤ size

/-- Nothing on top that the next instruction needs to be of a kind. -/
structure Point.Calm (p : Point) : Prop where
  closure : ∀ j, .closure j ∉ p.held
  counted : ∀ s, p.region ≠ .counted s

/-- The frames, the innermost first, above a call that began at `b` with the marks `ms`. -/
def Tower (h : Heap) (b : Nat) (ms : List Nat) : List Frame → Nat → List Nat → Prop
  | [], size, marks => marks = ms ∧ Leaves b ms size
  | f :: fs, size, marks => ∃ s c N entry, Stand h f s c N ∧ Spans f.base (N.point f.ip) entry size marks ∧
      b ≤ f.base ∧ Low entry f.base ∧ ms <:+ entry ∧ (N.point f.ip).Calm ∧
      ∀ size', f.Returns entry size' → Tower h b ms fs size' entry

/-- The outermost of the frames, as it began. -/
def origin (fs : List Frame) : Option Frame := fs.getLast?.map fun f => { f with ip := 0 }

theorem origin_append (gs : List Frame) (f : Frame) (fs : List Frame) : origin (gs ++ f :: fs) = origin (f :: fs) := by
  unfold origin
  rw [List.getLast?_append_of_ne_nil _ (List.cons_ne_nil f fs)]

/-- A frame goes on as it began. -/
theorem origin_goto (f : Frame) (o : Nat) (fs : List Frame) : origin ({ f with ip := o } :: fs) = origin (f :: fs) := by
  cases fs <;> rfl

/-- What the outermost of the frames hands over belongs in slot `b`. -/
def Seated (b : Nat) (fs : List Frame) : Prop := ∀ g, origin fs = some g → g.discards = false → g.base = b

theorem seated_nil (b : Nat) : Seated b [] := nofun

/-- A frame that hands nothing over makes no difference. -/
theorem Seated.cons {b : Nat} {f : Frame} {fs : List Frame} (h : Seated b fs) (discards : f.discards = true) :
    Seated b (f :: fs) := by
  intro g began kept
  cases fs with
  | nil =>
    obtain rfl := Option.some.inj began
    exact absurd (discards.symm.trans kept) (by decide)
  | cons f' fs => exact h g began kept

theorem Spans.le {base size : Nat} {p : Point} {entry marks : List Nat} (h : Spans base p entry size marks) :
    base + p.height ≤ size := by
  unfold Spans at h
  split at h
  · exact Nat.le_of_eq h.2.symm
  · exact h.2
  · exact h.2

section

variable {h h' : Heap} {f : Frame} {fs gs : List Frame} {s : Script} {c : Chunk} {N : Notes} {b b' size : Nat}
  {ms ms' marks : List Nat}

/-! ## More closures -/

theorem Stand.wider (stand : Stand h f s c N) (wider : h.Wider h') : Stand h' f s c N where
  closure := wider.lt stand.closure
  script := by rw [wider.scripts, wider.closure stand.closure, stand.script]
  chunk := by rw [wider.closure stand.closure, stand.chunk]
  finished := stand.finished
  small := stand.small
  reachable := stand.reachable

theorem Tower.wider (tower : Tower h b ms fs size marks) (wider : h.Wider h') : Tower h' b ms fs size marks := by
  induction fs generalizing size marks with
  | nil => exact tower
  | cons f fs ih =>
    obtain ⟨s, c, N, entry, stand, spans, above, low, marked, calm, rest⟩ := tower
    exact ⟨s, c, N, entry, stand.wider wider, spans, above, low, marked, calm, fun size' returns =>
      ih (rest size' returns)⟩

theorem Tower.lt (tower : Tower h b ms fs size marks) : b < size := by
  cases fs with
  | nil => exact tower.2.lt
  | cons f fs =>
    obtain ⟨s, c, N, entry, stand, spans, above, -⟩ := tower
    obtain ⟨name, id, bottom⟩ := stand.finished.bottom stand.reachable
    have := Held.lt_of_at? bottom
    have := spans.le
    unfold Point.height at this
    omega

/-- A tower above a call and a tower that waits for what the call leaves are one tower. -/
theorem Tower.append (tower : Tower h b ms gs size marks) (le : b' ≤ b) (within : ms' <:+ ms)
    (rest : ∀ size', Leaves b ms size' → Tower h b' ms' fs size' ms) : Tower h b' ms' (gs ++ fs) size marks := by
  induction gs generalizing size marks with
  | nil =>
    obtain ⟨rfl, leaves⟩ := tower
    exact rest size leaves
  | cons f gs ih =>
    obtain ⟨s, c, N, entry, stand, spans, above, low, marked, calm, waits⟩ := tower
    exact ⟨s, c, N, entry, stand, spans, Nat.le_trans le above, low, within.trans marked, calm, fun size' returns =>
      ih (waits size' returns)⟩

/-! ## Frames at the beginning of their code -/

theorem Stand.code (stand : Stand h f s c N) : h.code f.closure = c := by
  unfold Heap.code Heap.chunk
  rw [stand.script]
  dsimp only
  rw [stand.chunk]
  rfl

/-- Every closure of a sound heap runs the chunk of a compiled script. -/
theorem Heap.Sound.stand (sound : h.Sound) {ref : Nat} (inside : ref < h.closures.size) (base : Nat) (discards : Bool) :
    ∃ s c N, Stand h { closure := ref, base, discards } s c N := by
  obtain ⟨s, c, script, chunk⟩ := sound.closures _ (Array.getElem_mem inside)
  have closure : h.closure ref = h.closures[ref] := by
    unfold Heap.closure
    rw [Array.getElem?_eq_getElem inside]
    rfl
  have mem := Array.mem_of_getElem? script
  obtain ⟨tokens, scriptName, made⟩ := sound.scripts s mem
  obtain ⟨N, finished⟩ := made.finished c (Array.mem_of_getElem? chunk)
  exact ⟨s, c, N, inside, closure ▸ script, closure ▸ chunk, finished,
    sound.small s mem c (Array.mem_of_getElem? chunk),
    .entry⟩

/-- The frame of a call with the arguments that its closure takes. -/
theorem Tower.enter {ref base : Nat} {discards : Bool} (sound : h.Sound) (inside : ref < h.closures.size)
    (full : size = base + 1 + (h.code ref).arity) (above : b ≤ base) (low : Low marks base) (marked : ms <:+ marks)
    (rest : ∀ size', Frame.Returns { closure := ref, base, discards } marks size' → Tower h b ms fs size' marks) :
    Tower h b ms ({ closure := ref, base, discards } :: fs) size marks := by
  obtain ⟨s, c, N, stand⟩ := sound.stand inside base discards
  obtain ⟨ps, id, entry, length⟩ := stand.finished.entry
  have arity : (h.code ref).arity = ps.length := (congrArg Chunk.arity stand.code).trans length.symm
  refine ⟨s, c, N, marks, stand, ?_, above, low, marked, ⟨fun j mem => ?_, fun k => ?_⟩, rest⟩
  · have height : (N.point 0).height = 1 + ps.length := by
      rw [entry]
      simp [Point.height, calmPoint, Nat.add_comm]
    unfold Spans
    rw [entry]
    refine ⟨rfl, ?_⟩
    rw [← entry]
    dsimp only
    omega
  · dsimp only at mem
    rw [entry] at mem
    simp [calmPoint, bounds] at mem
  · dsimp only
    rw [entry]
    rintro ⟨⟩

end

/-! ## Frames on top of others -/

/-- Frames, the innermost first, on top of others. -/
def piled (F : Array Frame) (fs : List Frame) : Array Frame := F ++ fs.reverse.toArray

@[simp] theorem piled_nil (F : Array Frame) : piled F [] = F := by simp [piled]

theorem piled_cons (F : Array Frame) (f : Frame) (fs : List Frame) : piled F (f :: fs) = (piled F fs).push f := by
  simp [piled]

theorem piled_append (F : Array Frame) (gs fs : List Frame) : piled F (gs ++ fs) = piled (piled F fs) gs := by
  simp [piled, Array.append_assoc]

theorem toList_piled (F : Array Frame) (fs : List Frame) : (piled F fs).toList = F.toList ++ fs.reverse := by
  simp [piled]

theorem size_piled (F : Array Frame) (fs : List Frame) : (piled F fs).size = F.size + fs.length := by
  simp [piled]

end ScriptEngine
