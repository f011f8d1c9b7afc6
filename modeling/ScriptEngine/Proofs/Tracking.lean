import ScriptEngine.Assembler.Execute
import ScriptEngine.Proofs.Draft
import ScriptEngine.Proofs.Outline

/-!
# A function under assembly follows its outline

`Opened` relates what is open in the outline of a function to the scopes, the
control stack and the waiting labels that the assembler keeps for it. `Core` puts
this together with the draft of the code; it is kept by everything that the
assembler does to one function, and at the ends of directives the point at the
end of the code is the one that the outline describes.
-/
namespace ScriptEngine

open Assembler Outline

/-- Variables as a frame holds them. -/
def bounds (vs : List (String × Nat)) : List Held := vs.map fun v => .bound v.1 v.2

@[simp] theorem length_bounds (vs : List (String × Nat)) : (bounds vs).length = vs.length := by
  simp [bounds]

/-- A frame between statements. -/
def calmPoint (vs : List (String × Nat)) : Point := ⟨bounds vs, .none⟩

/-- A frame with one value between statements. -/
def valuePoint (vs : List (String × Nat)) : Point := ⟨.value :: bounds vs, .none⟩

theorem usual_bounds (vs : List (String × Nat)) : Point.Usual ⟨bounds vs, .none⟩ := by
  refine ⟨fun e he => ?_, nofun⟩
  obtain ⟨v, -, rfl⟩ := List.mem_map.mp he
  exact .inr rfl

/-- Between statements any instruction may stand. -/
theorem suits_calm (vs : List (String × Nat)) (i : Instruction) : Suits (calmPoint vs) i where
  counted := nofun
  handed j hj := absurd hj ((usual_bounds vs).no_closure j)
  starts _ e he := by
    obtain ⟨v, -, rfl⟩ := List.mem_map.mp he
    rfl
  drops _ _ _ _ _ := rfl

namespace Outline

def Level.point (L : Level) (vs : List (String × Nat)) : Point := ⟨L.temps ++ bounds vs, L.region⟩

theorem Level.Usual.point {L : Level} (h : L.Usual) (vs : List (String × Nat)) : (L.point vs).Usual := by
  refine ⟨fun e he => ?_, h.region⟩
  rcases List.mem_append.mp he with he | he
  · exact .inl (h.temps e he)
  · exact (usual_bounds vs).held e he

theorem calm_point {L : Level} (calm : L.Calm) (vs : List (String × Nat)) :
    L.point vs = calmPoint vs := by
  rw [Level.point, calm.1, calm.2.2]
  rfl

/-- The depth of the scopes of a function. -/
def Level.base (L : Level) : Nat := if L.kind = .script then 0 else 1

/-- Whether the body of a loop is still to come, and waits to be jumped to. -/
def Phase.inHead : Phase → Bool
  | forTest | forTested | forStep | forStepped => true
  | _ => false

/-- Whether a condition cannot have failed so far. -/
def Phase.untested : Phase → Bool
  | forTest | endless => true
  | _ => false

/-- The locals ahead of those that are there. -/
def Pending.Front (depth : Nat) (front : List Local) : Pending → Prop
  | none => front = []
  | value name => ∃ c, front = [⟨name, .none, c⟩]
  | function name => ∃ c, front = [⟨name, some depth, c⟩]

theorem front_nil {pending : Pending} {depth : Nat} (h : pending = .none) : pending.Front depth [] :=
  h ▸ rfl

theorem front_eq_nil {pending : Pending} {depth : Nat} {front : List Local} (h : pending = .none)
    (k : pending.Front depth front) : front = [] := by
  rw [h] at k
  exact k

end Outline

namespace Assembler

def Body.setChunk (b : Body) (c : Chunk) : Body := { b with chunk := c }

def Body.setControl (b : Body) (cs : List Control) : Body := { b with control := cs }

section Body
variable {b : Body} {c : Chunk} {cs : List Control} {i : Instruction} {ℓ : UInt32}

@[simp] theorem captures_setChunk : (b.setChunk c).captures = b.captures := rfl

@[simp] theorem captures_setControl : (b.setControl cs).captures = b.captures := rfl

@[simp] theorem captures_emit : (b.emit i ℓ).captures = b.captures := rfl

@[simp] theorem depth_setChunk : (b.setChunk c).depth = b.depth := rfl

@[simp] theorem chunk_setControl : (b.setControl cs).chunk = b.chunk := rfl

@[simp] theorem control_setControl : (b.setControl cs).control = cs := rfl

@[simp] theorem depth_setControl : (b.setControl cs).depth = b.depth := rfl

@[simp] theorem setControl_setControl {cs' : List Control} :
    (b.setControl cs).setControl cs' = b.setControl cs' := rfl

@[simp] theorem emit_setControl : (b.setControl cs).emit i ℓ = (b.emit i ℓ).setControl cs := rfl

@[simp] theorem setChunk_setControl : (b.setControl cs).setChunk c = (b.setChunk c).setControl cs := rfl

end Body

/-- The labels of a loop that wait to be placed. -/
def Loop.awaited (l : Loop) (phase : Phase) : List Nat :=
  l.exit.toNat :: ((l.fail.map UInt16.toNat).toList ++
    if phase.inHead then (l.body.map UInt16.toNat).toList else [])

end Assembler

/-- A label that a jump may go back to from within some loops. -/
def Notes.Behind (N : Notes) (label : UInt16) (p : Point) (rs : List Round) : Prop :=
  ∃ t, N.placed label.toNat = some t ∧ N.want label.toNat = p ∧ ∀ r ∈ rs, r ∈ N.rounds t

/-- What is open in an outline, with the depth of scopes, the locals and their variables, the
control stack, the loops and the labels that wait. -/
inductive Opened (N : Notes) (base fixed : Nat) : List Opening → Nat → List Local →
    List (String × Nat) → List Control → List Round → List Nat → Prop
  | base {ls : List Local} {vs : List (String × Nat)} (depths : ∀ l ∈ ls, l.depth = some base)
      (enough : fixed ≤ vs.length) : Opened N base fixed [] base ls vs [] [] []
  | scope {os : List Opening} {d : Nat} {ls new : List Local} {vs nvs : List (String × Nat)}
      {cs : List Control} {rs : List Round} {ws : List Nat} (rest : Opened N base fixed os d ls vs cs rs ws)
      (depths : ∀ l ∈ new, l.depth = some (d + 1)) (length : new.length = nvs.length) :
      Opened N base fixed (.scope vs.length :: os) (d + 1) (new ++ ls) (nvs ++ vs) cs rs ws
  | typeBody {os : List Opening} {d : Nat} {ls : List Local} {vs : List (String × Nat)}
      {cs : List Control} {rs : List Round} {ws : List Nat} (rest : Opened N base fixed os d ls vs cs rs ws) :
      Opened N base fixed (.typeBody false :: os) d ls vs cs rs ws
  | subtype {os : List Opening} {d : Nat} {ls : List Local} {vs : List (String × Nat)}
      {cs : List Control} {rs : List Round} {ws : List Nat} {hidden : Local} {v : String × Nat}
      (rest : Opened N base fixed os d ls vs cs rs ws) (depth : hidden.depth = some (d + 1)) :
      Opened N base fixed (.typeBody true :: os) (d + 1) (hidden :: ls) (v :: vs) cs rs ws
  | short {os : List Opening} {d : Nat} {ls : List Local} {vs : List (String × Nat)}
      {cs : List Control} {rs : List Round} {ws : List Nat} {temps : List Held} {region : Region}
      {label : UInt16} (rest : Opened N base fixed os d ls vs cs rs ws)
      (want : N.want label.toNat = ⟨.value :: (temps ++ bounds vs), region⟩) :
      Opened N base fixed (.short temps region :: os) d ls vs (.join label :: cs) rs (label.toNat :: ws)
  | alternative {os : List Opening} {d : Nat} {ls : List Local} {vs : List (String × Nat)}
      {cs : List Control} {rs : List Round} {ws : List Nat} {otherwise finish : UInt16}
      (rest : Opened N base fixed os d ls vs cs rs ws) (fail : N.want otherwise.toNat = valuePoint vs)
      (want : N.want finish.toNat = calmPoint vs) :
      Opened N base fixed (.alternative :: os) d ls vs (.branch otherwise finish :: cs) rs
        (otherwise.toNat :: finish.toNat :: ws)
  | otherwise {os : List Opening} {d : Nat} {ls : List Local} {vs : List (String × Nat)}
      {cs : List Control} {rs : List Round} {ws : List Nat} {finish : UInt16}
      (rest : Opened N base fixed os d ls vs cs rs ws) (want : N.want finish.toNat = calmPoint vs) :
      Opened N base fixed (.otherwise :: os) d ls vs (.join finish :: cs) rs (finish.toNat :: ws)
  | loop {os : List Opening} {d : Nat} {ls : List Local} {vs : List (String × Nat)}
      {cs : List Control} {rs : List Round} {ws : List Nat} {phase : Phase} {l : Loop} {s : Nat}
      (rest : Opened N base fixed os d ls vs cs rs ws) (depth : l.depth = d)
      (exit : N.want l.exit.toNat = calmPoint vs)
      (fail : ∀ f, l.fail = some f → N.want f.toNat = valuePoint vs)
      (body : phase.inHead → ∀ b, l.body = some b → N.want b.toNat = calmPoint vs)
      (untested : phase.untested → l.fail = none)
      (start : N.Behind l.start (calmPoint vs) ((s, vs.length) :: rs))
      (next : N.Behind l.next (calmPoint vs) ((s, vs.length) :: rs)) :
      Opened N base fixed (.loop phase :: os) d ls vs (.loop l :: cs) ((s, vs.length) :: rs)
        (l.awaited phase ++ ws)

/-- Locals with their variables; those that are not flagged have not been captured. -/
def Kept (N : Notes) (ls : List Local) (vs : List (String × Nat)) : Prop :=
  List.Forall₂ (fun l v => l.name = v.1 ∧ (l.captured = false → ∀ q, (q, v.2) ∉ N.caught)) ls vs

/-- Parameters and named results are the first variables above slot zero, in order. -/
def Headed (c : Chunk) (vs : List (String × Nat)) : Prop :=
  ∀ i index, (c.arguments ++ c.results)[i]? = some index →
    ∃ v, vs.reverse[i + 1]? = some v ∧ c.name? index = some v.1

/-- All but the code: how the books that the assembler keeps for a function go with its outline. -/
structure Frames (L : Level) (b : Body) (N : Notes) (ws : List Nat) : Prop where
  kind : b.chunk.kind = L.kind
  names : N.vars.map Prod.fst = L.vars
  locals : ∃ front ls, b.locals = front ++ ls ∧ L.pending.Front b.depth front ∧
    Kept N ls N.vars ∧
    Opened N L.base L.fixed L.opens b.depth ls N.vars b.control (N.rounds b.chunk.code.size) ws
  nodup : (N.vars.map Prod.snd).Nodup
  fresh : ∀ v ∈ N.vars, v.2 < N.fresh
  room : b.locals.length ≤ 256
  width : b.captures.size ≤ 256
  fixed : L.fixed = 1 + b.chunk.arguments.size + b.chunk.results.size
  entry : ∃ ps id, N.point 0 = calmPoint (ps ++ [(L.kind.slotName, id)]) ∧
    ps.length = b.chunk.arguments.size
  start : L.started = false → b.chunk.code.size = 0 ∧ b.chunk.labels.size = 0 ∧ b.captures = #[] ∧
    b.chunk.results.size = 0 ∧ L.vars.length = L.fixed ∧ L.opens = []
  role : L.role ≠ .set → b.chunk.isSet = false
  set : L.role = .set → L.kind = .function
  bottom : ∃ vs, L.vars = vs ++ [L.kind.slotName]
  heads : Headed b.chunk N.vars
  whole : N.left = 0

/-- What has been written stays, and variables stay where they are. -/
structure Later (c : Chunk) (N : Notes) (c' : Chunk) (N' : Notes) : Prop where
  code : c.code.toList <+: c'.code.toList
  point : ∀ o < c.code.size, N'.point o = N.point o
  here : ∀ n name id, (N.point c.code.size).at? n = some (.bound name id) →
    (N'.point c.code.size).at? n = some (.bound name id)
  /-- Only parameters are added without code. -/
  height : c.code.size ≠ 0 → (N'.point c.code.size).height = (N.point c.code.size).height
  constants : Grows c.constants c'.constants

/-- What refers to a slot from some offset on refers to a variable, under a name that it may be
referred to by. -/
def Adds (legal : Nat → String → Prop) (size : Nat) (c : Chunk) (N : Notes) : Prop :=
  ∀ o i n, size ≤ o → c.code[o]? = some i → i.slot? = some n →
    ∃ name id, (N.point o).at? n.toNat = some (.bound name id) ∧ legal n.toNat name

/-- A function that is under assembly since it was at `c₀` with the notes `N₀`. The labels of
`extra`, with the points that they want, are on no control stack. -/
structure Core (known : Array Chunk) (legal : Nat → String → Prop) (c₀ : Chunk) (N₀ : Notes) (L : Level)
    (b : Body) (N : Notes) (extra : List (Nat × Point)) (ws : List Nat) (p : Point) : Prop where
  draft : Draft known b.chunk b.captures.size N (extra.map Prod.fst ++ ws)
  wants : ∀ e ∈ extra, N.want e.1 = e.2
  frames : Frames L b N ws
  now : N.point b.chunk.code.size = p
  later : Later c₀ N₀ b.chunk N
  adds : Adds legal c₀.code.size b.chunk N

namespace Later
variable {c c' c'' : Chunk} {N N' N'' : Notes}

theorem refl (c : Chunk) (N : Notes) : Later c N c N :=
  ⟨List.prefix_refl _, fun _ _ => rfl, fun _ _ _ h => h, fun _ => rfl, .refl _⟩

theorem size_le (h : Later c N c' N') : c.code.size ≤ c'.code.size := by
  simpa using h.code.length_le

theorem trans (h : Later c N c' N') (k : Later c' N' c'' N'') : Later c N c'' N'' := by
  have size := h.size_le
  refine ⟨h.code.trans k.code, fun o ho => ?_, fun n name id at? => ?_, fun some => ?_, h.constants.trans k.constants⟩
  · rw [k.point o (by omega), h.point o ho]
  · have at?' := h.here n name id at?
    rcases Nat.lt_or_ge c.code.size c'.code.size with lt | ge
    · rwa [k.point _ lt]
    · have size : c.code.size = c'.code.size := by omega
      rw [size] at at?' ⊢
      exact k.here n name id at?'
  · rw [← h.height some]
    rcases Nat.lt_or_ge c.code.size c'.code.size with lt | ge
    · rw [k.point _ lt]
    · have size : c.code.size = c'.code.size := by omega
      rw [size] at some ⊢
      exact k.height some

theorem emit {i : Instruction} {ℓ : UInt32} {q : Point} :
    Later c N (c.emit i ℓ) (N.emit c.code.size q) := by
  have here : (N.emit c.code.size q).point c.code.size = N.point c.code.size := point_emit_of_ne (by omega)
  exact ⟨by simp [Chunk.emit], fun o ho => point_emit_of_ne (by omega), fun n name id at? => here ▸ at?,
    fun _ => congrArg Point.height here, .refl _⟩

/-- Nothing is written. -/
theorem still (code : c'.code = c.code) (point : N'.point = N.point) (constants : Grows c.constants c'.constants) :
    Later c N c' N' :=
  ⟨by rw [code], fun o _ => by rw [point], fun n name id at? => by rwa [point], fun _ => by rw [point], constants⟩

theorem relabel {q : Point} (le : N.point c.code.size ≤ q) :
    Later c N c (N.relabel c.code.size q) := by
  have here : (N.relabel c.code.size q).point c.code.size = q := Function.update_self _ _ _
  refine ⟨List.prefix_refl _, fun o ho => Function.update_of_ne (by omega) _ _, fun n name id at? => ?_, fun _ => ?_,
    .refl _⟩
  · rw [here]
    exact Point.at?_bound le at?
  · rw [here, Point.height_eq le]

end Later

namespace Adds
variable {legal : Nat → String → Prop} {c c' : Chunk} {N N' : Notes} {size : Nat} {i : Instruction} {ℓ : UInt32}
  {q : Point}

theorem nothing (h : c.code.size ≤ size) : Adds legal size c N := fun o i n ho hi =>
  absurd (lt_size_of_code hi) (by omega)

theorem emit (h : Adds legal size c N) (slot : ∀ n, i.slot? = some n →
      ∃ name id, (N.point c.code.size).at? n.toNat = some (.bound name id) ∧ legal n.toNat name) :
    Adds legal size (c.emit i ℓ) (N.emit c.code.size q) := by
  intro o j n ho hj hn
  rcases (code_emit o j).mp hj with hj | ⟨rfl, rfl⟩
  · have := lt_size_of_code hj
    rw [point_emit_of_ne (by omega)]
    exact h o j n ho hj hn
  · rw [point_emit_of_ne (by omega)]
    exact slot n hn

/-- Nothing is written. -/
theorem still (h : Adds legal size c N) (code : c'.code = c.code) (point : N'.point = N.point) :
    Adds legal size c' N' := by
  intro o i n ho hi
  rw [code] at hi
  rw [point]
  exact h o i n ho hi

theorem relabel (h : Adds legal size c N) : Adds legal size c (N.relabel c.code.size q) := by
  intro o i n ho hi
  have := lt_size_of_code hi
  rw [show (N.relabel c.code.size q).point o = N.point o from Function.update_of_ne (by omega) _ _]
  exact h o i n ho hi

theorem mono {legal' : Nat → String → Prop} (h : Adds legal size c N)
    (imp : ∀ n name, legal n name → legal' n name) : Adds legal' size c N := by
  intro o i n ho hi hn
  obtain ⟨name, id, at?, ok⟩ := h o i n ho hi hn
  exact ⟨name, id, at?, imp _ _ ok⟩

end Adds

/-- What a table of constants names, a longer one does too. -/
theorem Headed.mono {c c' : Chunk} {vs : List (String × Nat)} (h : Headed c vs) (arguments : c'.arguments = c.arguments)
    (results : c'.results = c.results) (within : Grows c.constants c'.constants) : Headed c' vs := by
  intro i index hi
  rw [arguments, results] at hi
  obtain ⟨v, hv, named⟩ := h i index hi
  refine ⟨v, hv, ?_⟩
  unfold Chunk.name? at named ⊢
  split at named
  · rename_i s hs
    rw [within _ _ hs]
    exact named
  · cases named

/-- Variables are added on top of those that are named. -/
theorem Headed.above {c : Chunk} {vs : List (String × Nat)} (h : Headed c vs) (new : List (String × Nat)) :
    Headed c (new ++ vs) := by
  intro i index hi
  obtain ⟨v, hv, named⟩ := h i index hi
  refine ⟨v, ?_, named⟩
  rw [List.reverse_append]
  exact List.getElem?_append_left (List.getElem?_eq_some_iff.mp hv).1 ▸ hv

theorem Headed.below {c : Chunk} {vs new : List (String × Nat)} (h : Headed c (new ++ vs))
    (enough : 1 + c.arguments.size + c.results.size ≤ vs.length) : Headed c vs := by
  intro i index hi
  obtain ⟨v, hv, named⟩ := h i index hi
  have bound := (Array.getElem?_eq_some_iff.mp hi).1
  rw [Array.size_append] at bound
  rw [List.reverse_append, List.getElem?_append_left (by rw [List.length_reverse]; omega)] at hv
  exact ⟨v, hv, named⟩

/-- One more parameter or named result. -/
theorem Headed.push {c c' : Chunk} {vs : List (String × Nat)} {name : String} {index : UInt16} (h : Headed c vs)
    (size : vs.length = 1 + c.arguments.size + c.results.size)
    (more : c'.arguments ++ c'.results = (c.arguments ++ c.results).push index)
    (within : Grows c.constants c'.constants) (named : c'.constants[index.toNat]? = some (.string name)) (id : Nat) :
    Headed c' ((name, id) :: vs) := by
  intro i k hi
  rw [more, Array.getElem?_push] at hi
  split at hi
  · rename_i last
    cases hi
    rw [Array.size_append] at last
    refine ⟨(name, id), ?_, by simp [Chunk.name?, named]⟩
    rw [List.reverse_cons, List.getElem?_append_right (by rw [List.length_reverse]; omega), List.length_reverse,
      size, last]
    simp [Nat.add_comm, Nat.add_left_comm]
  · have heads : Headed { c with constants := c'.constants } vs := h.mono rfl rfl within
    exact heads.above [(name, id)] i k hi

section Opened
variable {N N' : Notes} {base fixed d : Nat} {os : List Opening} {ls : List Local}
  {vs : List (String × Nat)} {cs : List Control} {rs : List Round} {ws : List Nat}

theorem Notes.Behind.congr {label : UInt16} {p : Point} (h : N.Behind label p rs)
    (placed : ∀ l t, N.placed l = some t → N'.placed l = some t ∧ N'.want l = N.want l)
    (rounds : ∀ l t r, N.placed l = some t → r ∈ rs → r ∈ N.rounds t → r ∈ N'.rounds t) :
    N'.Behind label p rs := by
  obtain ⟨t, ht, want, hr⟩ := h
  obtain ⟨ht', want'⟩ := placed _ t ht
  exact ⟨t, ht', want'.trans want, fun r hmem => rounds _ t r ht hmem (hr r hmem)⟩

/-- What is open depends on the wants of the waiting labels and on the labels that are placed. -/
theorem Opened.congr (h : Opened N base fixed os d ls vs cs rs ws)
    (wants : ∀ w ∈ ws, N'.want w = N.want w)
    (placed : ∀ l t, N.placed l = some t → N'.placed l = some t ∧ N'.want l = N.want l)
    (rounds : ∀ l t r, N.placed l = some t → r ∈ rs → r ∈ N.rounds t → r ∈ N'.rounds t) :
    Opened N' base fixed os d ls vs cs rs ws := by
  induction h with
  | base depths enough => exact .base depths enough
  | scope _ depths length ih => exact .scope (ih wants rounds) depths length
  | typeBody _ ih => exact .typeBody (ih wants rounds)
  | subtype _ depth ih => exact .subtype (ih wants rounds) depth
  | short _ want ih =>
    exact .short (ih (fun w hw => wants w (.tail _ hw)) rounds) ((wants _ (.head _)).trans want)
  | alternative _ fail want ih =>
    exact .alternative (ih (fun w hw => wants w (.tail _ (.tail _ hw))) rounds)
      ((wants _ (.head _)).trans fail) ((wants _ (.tail _ (.head _))).trans want)
  | otherwise _ want ih =>
    exact .otherwise (ih (fun w hw => wants w (.tail _ hw)) rounds) ((wants _ (.head _)).trans want)
  | @loop os d ls vs cs rs ws phase l s rest depth exit fail body untested start next ih =>
    have awaited {w : Nat} (hw : w ∈ l.awaited phase) : N'.want w = N.want w :=
      wants w (List.mem_append_left _ hw)
    refine .loop (ih (fun w hw => wants w (List.mem_append_right _ hw))
      fun l t r ht hr => rounds l t r ht (.tail _ hr)) depth ?_ ?_ ?_ untested
      (start.congr placed rounds) (next.congr placed rounds)
    · exact (awaited (by simp [Loop.awaited])).trans exit
    · intro f hf
      exact (awaited (by simp [Loop.awaited, hf])).trans (fail f hf)
    · intro head b hb
      exact (awaited (by simp [Loop.awaited, hb, head])).trans (body head b hb)

/-- No local is deeper than the scopes that are open. -/
theorem Opened.depth_le (h : Opened N base fixed os d ls vs cs rs ws) :
    ∀ l ∈ ls, ∃ k, l.depth = some k ∧ k ≤ d := by
  induction h with
  | base depths => exact fun l hl => ⟨_, depths l hl, le_rfl⟩
  | scope _ depths _ ih =>
    intro l hl
    rcases List.mem_append.mp hl with hl | hl
    · exact ⟨_, depths l hl, le_rfl⟩
    · obtain ⟨k, hk, le⟩ := ih l hl
      exact ⟨k, hk, by omega⟩
  | subtype _ depth ih =>
    intro l hl
    rcases List.mem_cons.mp hl with rfl | hl
    · exact ⟨_, depth, le_rfl⟩
    · obtain ⟨k, hk, le⟩ := ih l hl
      exact ⟨k, hk, by omega⟩
  | typeBody _ ih => exact ih
  | short _ _ ih => exact ih
  | alternative _ _ _ ih => exact ih
  | otherwise _ _ ih => exact ih
  | loop _ _ _ _ _ _ _ _ ih => exact ih

/-- The locals that are deeper than some scope stand in front. -/
theorem localsAbove_append {new lower : List Local} {d : Nat}
    (above : ∀ l ∈ new, ∃ k, l.depth = some k ∧ d < k)
    (below : ∀ l ∈ lower, ∃ k, l.depth = some k ∧ k ≤ d) :
    localsAbove d (new ++ lower) = new := by
  have above' : ∀ l ∈ new, l.depth.any (d < ·) = true := by
    intro l hl
    obtain ⟨k, hk, lt⟩ := above l hl
    simp [hk, lt]
  unfold localsAbove
  rw [List.takeWhile_append_of_pos above']
  cases lower with
  | nil => simp
  | cons l lower =>
    obtain ⟨k, hk, le⟩ := below l (.head _)
    rw [List.takeWhile_cons_of_neg (by simp [hk, le]), List.append_nil]

/-- The variables that live as long as the function are there. -/
theorem Opened.enough (h : Opened N base fixed os d ls vs cs rs ws) : fixed ≤ vs.length := by
  induction h with
  | base _ enough => exact enough
  | scope _ _ _ ih =>
    rw [List.length_append]
    omega
  | subtype _ _ ih => exact Nat.le_succ_of_le ih
  | typeBody _ ih => exact ih
  | short _ _ ih => exact ih
  | alternative _ _ _ ih => exact ih
  | otherwise _ _ ih => exact ih
  | loop _ _ _ _ _ _ _ _ ih => exact ih

theorem Opened.fix {f : Nat} (h : Opened N base fixed [] d ls vs cs rs ws)
    (enough : f ≤ vs.length) : Opened N base f [] d ls vs cs rs ws := by
  obtain ⟨depths⟩ := h
  exact .base depths enough

/-- The loops that are open keep no more variables outside than there are. -/
theorem Opened.rounds_le (h : Opened N base fixed os d ls vs cs rs ws) : ∀ r ∈ rs, r.2 ≤ vs.length := by
  induction h with
  | base => simp
  | scope _ _ _ ih =>
    intro r hr
    have := ih r hr
    rw [List.length_append]
    omega
  | subtype _ _ ih =>
    intro r hr
    have := ih r hr
    rw [List.length_cons]
    omega
  | loop _ _ _ _ _ _ _ _ ih =>
    intro r hr
    rcases List.mem_cons.mp hr with rfl | hr
    · exact le_rfl
    · exact ih r hr
  | typeBody _ ih => exact ih
  | short _ _ ih => exact ih
  | alternative _ _ _ ih => exact ih
  | otherwise _ _ ih => exact ih

/-- The variables that live as long as the function are outside of all loops. -/
theorem Opened.le_rounds (h : Opened N base fixed os d ls vs cs rs ws) : ∀ r ∈ rs, fixed ≤ r.2 := by
  induction h with
  | base => simp
  | loop rest _ _ _ _ _ _ _ ih =>
    intro r hr
    rcases List.mem_cons.mp hr with rfl | hr
    · exact rest.enough
    · exact ih r hr
  | scope _ _ _ ih => exact ih
  | typeBody _ ih => exact ih
  | subtype _ _ ih => exact ih
  | short _ _ ih => exact ih
  | alternative _ _ _ ih => exact ih
  | otherwise _ _ ih => exact ih

/-- What leaving the innermost loop drops, and where it goes. -/
structure Innermost (N : Notes) (l : Loop) (ls : List Local) (vs : List (String × Nat))
    (rs : List Round) (ws : List Nat) (new low : List Local) (nvs lvs : List (String × Nat))
    (s : Nat) (rs' : List Round) : Prop where
  locals : ls = new ++ low
  vars : vs = nvs ++ lvs
  length : new.length = nvs.length
  above : ∀ x ∈ new, ∃ k, x.depth = some k ∧ l.depth < k
  below : ∀ x ∈ low, ∃ k, x.depth = some k ∧ k ≤ l.depth
  rounds : rs = (s, lvs.length) :: rs'
  within : ∀ r ∈ rs, r.2 ≤ lvs.length
  exit : l.exit.toNat ∈ ws
  want : N.want l.exit.toNat = calmPoint lvs
  next : N.Behind l.next (calmPoint lvs) rs

theorem Opened.innermost (h : Opened N base fixed os d ls vs cs rs ws) {l : Loop}
    (hl : innermostLoop? cs = some l) :
    l.depth ≤ d ∧ ∃ new low nvs lvs s rs', Innermost N l ls vs rs ws new low nvs lvs s rs' := by
  induction h with
  | base => cases hl
  | @scope os d ls new vs nvs cs rs ws rest depths length ih =>
    obtain ⟨le, new', low, nvs', lvs, s, rs', rfl, rfl, length', above, below, rounds, within, exit,
      want, next⟩ := ih hl
    refine ⟨by omega, new ++ new', low, nvs ++ nvs', lvs, s, rs', by simp, by simp, by simp [length,
      length'], fun x hx => ?_, below, rounds, within, exit, want, next⟩
    rcases List.mem_append.mp hx with hx | hx
    · exact ⟨_, depths x hx, by omega⟩
    · exact above x hx
  | typeBody _ ih => exact ih hl
  | @subtype os d ls vs cs rs ws hidden v rest depth ih =>
    obtain ⟨le, new', low, nvs', lvs, s, rs', rfl, rfl, length', above, below, rounds, within, exit,
      want, next⟩ := ih hl
    refine ⟨by omega, hidden :: new', low, v :: nvs', lvs, s, rs', rfl, rfl, by simp [length'],
      fun x hx => ?_, below, rounds, within, exit, want, next⟩
    rcases List.mem_cons.mp hx with rfl | hx
    · exact ⟨_, depth, by omega⟩
    · exact above x hx
  | short _ _ ih =>
    obtain ⟨le, new, low, nvs, lvs, s, rs', h⟩ := ih hl
    exact ⟨le, new, low, nvs, lvs, s, rs', { h with exit := .tail _ h.exit }⟩
  | alternative _ _ _ ih =>
    obtain ⟨le, new, low, nvs, lvs, s, rs', h⟩ := ih hl
    exact ⟨le, new, low, nvs, lvs, s, rs', { h with exit := .tail _ (.tail _ h.exit) }⟩
  | otherwise _ _ ih =>
    obtain ⟨le, new, low, nvs, lvs, s, rs', h⟩ := ih hl
    exact ⟨le, new, low, nvs, lvs, s, rs', { h with exit := .tail _ h.exit }⟩
  | @loop os d ls vs cs rs ws phase l' s rest depth exit fail body untested start next ih =>
    cases hl
    refine ⟨depth.le, [], ls, [], vs, s, rs, rfl, rfl, rfl, by simp, ?_, rfl, ?_, ?_, exit, next⟩
    · rw [depth]
      exact rest.depth_le
    · intro r hr
      rcases List.mem_cons.mp hr with rfl | hr
      · exact le_rfl
      · exact rest.rounds_le r hr
    · simp [Loop.awaited]

/-- Noting that loops are left is of no account here. -/
theorem Opened.leaveInnermost (h : Opened N base fixed os d ls vs cs rs ws) :
    Opened N base fixed os d ls vs (leaveInnermost cs) rs ws := by
  induction h with
  | base depths enough => exact .base depths enough
  | scope _ depths length ih => exact .scope ih depths length
  | typeBody _ ih => exact .typeBody ih
  | subtype _ depth ih => exact .subtype ih depth
  | short _ want ih => exact .short ih want
  | alternative _ fail want ih => exact .alternative ih fail want
  | otherwise _ want ih => exact .otherwise ih want
  | loop rest depth exit fail body untested start next =>
    exact .loop rest depth exit fail body untested start next

theorem Opened.leaveAll (h : Opened N base fixed os d ls vs cs rs ws) :
    Opened N base fixed os d ls vs (cs.map Control.leave) rs ws := by
  induction h with
  | base depths enough => exact .base depths enough
  | scope _ depths length ih => exact .scope ih depths length
  | typeBody _ ih => exact .typeBody ih
  | subtype _ depth ih => exact .subtype ih depth
  | short _ want ih => exact .short ih want
  | alternative _ fail want ih => exact .alternative ih fail want
  | otherwise _ want ih => exact .otherwise ih want
  | loop _ depth exit fail body untested start next ih =>
    exact .loop ih depth exit fail body untested start next

/-- A variable that is declared belongs to the scope that is open. -/
theorem Opened.push {l : Local} {v : String × Nat} (h : Opened N base fixed os d ls vs cs rs ws)
    (declaring : os = [] ∨ ∃ n os', os = .scope n :: os') (depth : l.depth = some d) :
    Opened N base fixed os d (l :: ls) (v :: vs) cs rs ws := by
  cases h with
  | base depths enough =>
    refine .base (fun l' hl' => ?_) (Nat.le_succ_of_le enough)
    rcases List.mem_cons.mp hl' with rfl | hl'
    · exact depth
    · exact depths l' hl'
  | @scope os d ls new vs nvs cs rs ws rest depths length =>
    have depths' : ∀ l' ∈ l :: new, l'.depth = some (d + 1) := List.forall_mem_cons.mpr ⟨depth, depths⟩
    have length' : (l :: new).length = (v :: nvs).length := by simp [length]
    exact .scope rest depths' length'
  | typeBody => simp at declaring
  | subtype => simp at declaring
  | short => simp at declaring
  | alternative => simp at declaring
  | otherwise => simp at declaring
  | loop => simp at declaring

end Opened

section Core
variable {known : Array Chunk} {legal : Nat → String → Prop} {c₀ : Chunk} {N₀ : Notes} {L : Level} {b : Body}
  {N : Notes} {extra : List (Nat × Point)} {ws : List Nat} {p q : Point} {i : Instruction}
  {ℓ : UInt32}

theorem Frames.enough (h : Frames L b N ws) : L.fixed ≤ L.vars.length := by
  obtain ⟨_, _, -, -, -, opened⟩ := h.locals
  rw [← h.names, List.length_map]
  exact opened.enough

theorem Frames.touch (h : Frames L b N ws) : Frames L.touch b N ws :=
  ⟨h.kind, h.names, h.locals, h.nodup, h.fresh, h.room, h.width, h.fixed, h.entry, nofun,
    h.role, h.set, h.bottom, h.heads, h.whole⟩

theorem Frames.setTemps (h : Frames L b N ws) (temps : List Held) :
    Frames (L.setTemps temps) b N ws :=
  ⟨h.kind, h.names, h.locals, h.nodup, h.fresh, h.room, h.width, h.fixed, h.entry, nofun,
    h.role, h.set, h.bottom, h.heads, h.whole⟩

theorem isSet_emit (hi : i.isTestCase = false) (c : Chunk) : (c.emit i ℓ).isSet = c.isSet := by
  simp [Chunk.isSet, Chunk.emit, hi]

theorem Frames.emit (h : Frames L b N ws) (flow : Flow known b.chunk b.captures.size N)
    (started : L.started = true) (set : L.role = .set ∨ i.isTestCase = false) :
    Frames L (b.emit i ℓ) (N.emit b.chunk.code.size q) ws := by
  obtain ⟨front, ls, split, pending, kept, opened⟩ := h.locals
  refine ⟨h.kind, h.names, ⟨front, ls, split, pending, kept, ?_⟩, h.nodup, h.fresh, h.room, h.width,
    h.fixed, ?_, fun h => by simp [started] at h, ?_, h.set, h.bottom, h.heads, h.whole⟩
  · have rounds : (N.emit b.chunk.code.size q).rounds (b.emit i ℓ).chunk.code.size =
        N.rounds b.chunk.code.size := by
      simp only [Body.emit, size_emit, rounds_emit_succ]
    rw [rounds]
    refine opened.congr (fun _ _ => rfl) (fun _ _ h => ⟨h, rfl⟩) fun l t r ht hr hmem => ?_
    have := (flow.placed l t ht).2.1
    rwa [rounds_emit_of_ne (by omega)]
  · obtain ⟨ps, id, hps, length⟩ := h.entry
    exact ⟨ps, id, by rwa [point_emit_of_ne (by omega)], length⟩
  · intro role
    rcases set with set | set
    · exact (role set).elim
    · exact (isSet_emit set b.chunk).trans (h.role role)

theorem Core.emit (h : Core known legal c₀ N₀ L b N extra ws p) (started : L.started = true)
    (e : Emits known legal b.chunk b.captures.size N i q) (word : i.isWord = false)
    (drop : ∀ name id rest, i = .pop → p.held = .bound name id :: rest → ∀ q, (q, id) ∉ N.caught)
    (set : L.role = .set ∨ i.isTestCase = false) :
    Core known legal c₀ N₀ L (b.emit i ℓ) (N.emit b.chunk.code.size q) extra ws q where
  draft := h.draft.emit e h.frames.whole word (h.now ▸ drop)
  wants := h.wants
  frames := h.frames.emit h.draft.flow started set
  now := by simp only [Body.emit, size_emit, point_emit_succ]
  later := h.later.trans .emit
  adds := h.adds.emit e.fits.slot

/-- An instruction that only takes and leaves temporaries. -/
theorem Core.plain {takes gives : Nat} {τ ρ : List Held} {r : Region}
    (h : Core known legal c₀ N₀ L b N extra ws ⟨τ ++ ρ, r⟩) (started : L.started = true)
    (effect : i.effect = some (takes, gives)) (length : τ.length = takes)
    (values : ∀ e ∈ τ, e.isValue) (target : i.target? = none)
    (fits : Fits legal b.chunk b.captures.size ⟨τ ++ ρ, r⟩ i) (usual : Point.Usual ⟨τ ++ ρ, r⟩)
    (set : L.role = .set ∨ i.isTestCase = false) :
    Core known legal c₀ N₀ L (b.emit i ℓ)
      (N.emit b.chunk.code.size ⟨List.replicate gives .value ++ ρ, r⟩) extra ws
      ⟨List.replicate gives .value ++ ρ, r⟩ := by
  have word : i.isWord = false := by
    cases i <;> first | rfl | cases effect
  -- what is dropped is no variable
  have temporary {name : String} {id : Nat} {below : List Held} (hi : i = .pop)
      (held : τ ++ ρ = .bound name id :: below) : False := by
    subst hi
    cases effect
    obtain ⟨e, rfl⟩ := List.length_eq_one_iff.mp length
    cases held
    have := values _ (.head _)
    simp [Held.isValue] at this
  refine h.emit started ⟨⟨_, ?_, fun _ => Point.le_refl _, ?_⟩, ?_, ?_, ?_, ?_⟩ word ?_ set
  · rw [h.now]
    exact .plain effect length values
  · simp [target]
  · rw [h.now]
    exact fits
  · rw [h.now]
    exact suits_plain effect length values usual
  · simp [target]
  · intro name id below hi held
    rw [h.now] at held
    exact (temporary hi held).elim
  · exact fun name id below hi held => (temporary hi held).elim

theorem fits_goto {label : UInt16} : Fits legal b.chunk b.captures.size p (.goto label) := by
  constructor <;> simp [Instruction.name?]

theorem fits_gotoIfFalse {label : UInt16} :
    Fits legal b.chunk b.captures.size p (.gotoIfFalse label) := by
  constructor <;> simp [Instruction.name?]

/-- A label that waits is one of the chunk. -/
theorem Core.waits (h : Core known legal c₀ N₀ L b N extra ws p) {label : Nat}
    (mem : label ∈ extra.map Prod.fst ++ ws) :
    label < b.chunk.labels.size ∧ N.placed label = none :=
  (h.draft.waiting.mem label).mp mem

/-- A jump to a label that waits; behind it anything may be known. -/
theorem Core.goto (h : Core known legal c₀ N₀ L b N extra ws p) (started : L.started = true) (usual : p.Usual)
    {label : UInt16} (mem : label.toNat ∈ extra.map Prod.fst ++ ws)
    (want : p ≤ N.want label.toNat) (q : Point) :
    Core known legal c₀ N₀ L (b.emit (.goto label) ℓ) (N.emit b.chunk.code.size q) extra ws q := by
  obtain ⟨bound, unplaced⟩ := h.waits mem
  refine h.emit started ⟨⟨p, ?_, fun falls => (by cases falls), ?_⟩, fits_goto,
    h.now ▸ suits_plain (i := .goto label) (τ := []) rfl rfl (by simp) usual, ?_, ?_⟩ rfl ?_ (.inr rfl)
  · rw [h.now]
    exact .plain (i := .goto label) (τ := []) (r := p.region) rfl rfl (by simp)
  · rintro l ⟨⟩
    exact ⟨bound, want⟩
  · rintro l t ⟨⟩ placed
    rw [unplaced] at placed
    cases placed
  · exact fun _ _ _ e => nomatch e
  · exact fun _ _ _ e => nomatch e

/-- A jump back to where the innermost loop goes on. -/
theorem Core.gotoBack (h : Core known legal c₀ N₀ L b N extra ws p) (started : L.started = true) (usual : p.Usual)
    {label : UInt16} {r : Round} {rs : List Round} (behind : N.Behind label p (r :: rs))
    (rounds : N.rounds b.chunk.code.size = r :: rs) (height : p.height ≤ r.2) (q : Point) :
    Core known legal c₀ N₀ L (b.emit (.goto label) ℓ) (N.emit b.chunk.code.size q) extra ws q := by
  obtain ⟨t, ht, want, hr⟩ := behind
  obtain ⟨bound, -⟩ := h.draft.flow.placed _ t ht
  refine h.emit started ⟨⟨p, ?_, fun falls => (by cases falls), ?_⟩, fits_goto,
    h.now ▸ suits_plain (i := .goto label) (τ := []) rfl rfl (by simp) usual, ?_, ?_⟩ rfl ?_ (.inr rfl)
  · rw [h.now]
    exact .plain (i := .goto label) (τ := []) (r := p.region) rfl rfl (by simp)
  · rintro l ⟨⟩
    exact ⟨bound, want ▸ Point.le_refl p⟩
  · rintro l t' ⟨⟩ placed
    rw [ht] at placed
    cases placed
    rw [rounds, want]
    exact ⟨r, .head _, height, hr⟩
  · exact fun _ _ _ e => nomatch e
  · exact fun _ _ _ e => nomatch e

/-- A jump on the value on top, which stays. -/
theorem Core.gotoIfFalse {e : Held} {rest : List Held} {r : Region}
    (h : Core known legal c₀ N₀ L b N extra ws ⟨e :: rest, r⟩) (started : L.started = true)
    (value : e.isValue) (usual : Point.Usual ⟨e :: rest, r⟩) {label : UInt16}
    (mem : label.toNat ∈ extra.map Prod.fst ++ ws) (want : N.want label.toNat = ⟨.value :: rest, r⟩) :
    Core known legal c₀ N₀ L (b.emit (.gotoIfFalse label) ℓ)
      (N.emit b.chunk.code.size ⟨.value :: rest, r⟩) extra ws ⟨.value :: rest, r⟩ := by
  obtain ⟨bound, unplaced⟩ := h.waits mem
  refine h.emit started ⟨⟨⟨.value :: rest, r⟩, ?_, fun _ => Point.le_refl _, ?_⟩, fits_gotoIfFalse,
    h.now ▸ suits_plain (i := .gotoIfFalse label) (τ := [e]) rfl rfl (by simpa using value) usual, ?_, ?_⟩ rfl ?_ (.inr rfl)
  · rw [h.now]
    exact .plain (i := .gotoIfFalse label) (τ := [e]) rfl rfl (by simpa using value)
  · rintro l ⟨⟩
    exact ⟨bound, want ▸ Point.le_refl _⟩
  · rintro l t ⟨⟩ placed
    rw [unplaced] at placed
    cases placed
  · exact fun _ _ _ e => nomatch e
  · exact fun _ _ _ e => nomatch e

/-! ## Labels -/

theorem Frames.newLabel (h : Frames L b N ws) {name : String}
    (started : L.started = true) (flow : Flow known b.chunk b.captures.size N)
    (old : ∀ w ∈ ws, w < b.chunk.labels.size) :
    Frames L (b.setChunk (b.chunk.addLabel name))
      (N.newLabel b.chunk.labels.size p) ws := by
  obtain ⟨front, ls, split, pending, kept, opened⟩ := h.locals
  have want {l : Nat} (hl : l < b.chunk.labels.size) :
      (N.newLabel b.chunk.labels.size p).want l = N.want l := Function.update_of_ne (by omega) _ _
  exact ⟨h.kind, h.names, ⟨front, ls, split, pending, kept, opened.congr (fun w hw => want (old w hw))
    (fun l t ht => ⟨ht, want (flow.placed l t ht).1⟩) (fun _ _ _ _ _ hr => hr)⟩, h.nodup, h.fresh,
    h.room, h.width, h.fixed, h.entry, fun h => by simp [started] at h, h.role, h.set,
    h.bottom, h.heads, h.whole⟩

theorem Core.newLabel (h : Core known legal c₀ N₀ L b N extra ws p) (started : L.started = true)
    (name : String) (q : Point) :
    Core known legal c₀ N₀ L (b.setChunk (b.chunk.addLabel name))
      (N.newLabel b.chunk.labels.size q) ((b.chunk.labels.size, q) :: extra) ws p where
  draft := h.draft.newLabel name q
  wants := by
    intro e he
    rcases List.mem_cons.mp he with rfl | he
    · exact Function.update_self _ _ _
    · have := (h.waits (List.mem_append_left _ (List.mem_map_of_mem he))).1
      exact (Function.update_of_ne (by omega) _ _).trans (h.wants e he)
  frames := h.frames.newLabel started h.draft.flow fun w hw => (h.waits (List.mem_append_right _ hw)).1
  now := h.now
  later := h.later.trans (.still rfl rfl (.refl _))
  adds := h.adds.still rfl rfl

theorem Frames.placeLabel (h : Frames L b N ws) {label : UInt16}
    (unplaced : N.placed label.toNat = none) :
    Frames L (b.setChunk (b.chunk.placeLabel label))
      (N.placeLabel label.toNat b.chunk.code.size) ws := by
  obtain ⟨front, ls, split, pending, kept, opened⟩ := h.locals
  have placed (l t : Nat) (hl : N.placed l = some t) :
      (N.placeLabel label.toNat b.chunk.code.size).placed l = some t := by
    refine (Function.update_of_ne ?_ _ _).trans hl
    rintro rfl
    rw [unplaced] at hl
    cases hl
  exact ⟨h.kind, h.names, ⟨front, ls, split, pending, kept, opened.congr (fun _ _ => rfl)
    (fun l t ht => ⟨placed l t ht, rfl⟩) (fun _ _ _ _ _ hr => hr)⟩, h.nodup, h.fresh, h.room, h.width,
    h.fixed, h.entry, by simpa [Chunk.placeLabel, Body.setChunk] using h.start, h.role, h.set, h.bottom,
    h.heads, h.whole⟩

theorem Core.placeLabel {label : UInt16} {want : Point}
    (h : Core known legal c₀ N₀ L b N ((label.toNat, want) :: extra) ws p) (le : want ≤ p) :
    Core known legal c₀ N₀ L (b.setChunk (b.chunk.placeLabel label))
      (N.placeLabel label.toNat b.chunk.code.size) extra ws p where
  draft := h.draft.placeLabel (by rw [h.wants _ (.head _), h.now]; exact le)
  wants := fun e he => h.wants e (.tail _ he)
  frames := h.frames.placeLabel (h.waits (.head _)).2
  now := h.now
  later := h.later.trans (.still rfl rfl (.refl _))
  adds := h.adds.still rfl rfl

/-- The order of the labels that are on no control stack is of no account. -/
theorem Core.perm (h : Core known legal c₀ N₀ L b N extra ws p) (extra' : List (Nat × Point))
    (perm : extra.Perm extra') : Core known legal c₀ N₀ L b N extra' ws p :=
  ⟨h.draft.perm ((perm.map _).append_right _), fun e he => h.wants e (perm.mem_iff.mpr he), h.frames,
    h.now, h.later, h.adds⟩

/-! ## Changes of the books -/

theorem calmPoint_le {vs : List (String × Nat)} (h : calmPoint vs ≤ q) : q = calmPoint vs := by
  obtain ⟨region, held⟩ := h
  obtain ⟨_, _⟩ := q
  have same : ∀ {xs ys : List Held}, List.Forall₂ (· ≤ ·) xs ys → (∀ x ∈ xs, x.isValue = false) →
      ys = xs := by
    intro xs ys h
    induction h with
    | nil => exact fun _ => rfl
    | cons hd _ ih =>
      intro hx
      rw [ih fun x hx' => hx x (.tail _ hx')]
      rcases hd with rfl | ⟨value, -⟩
      · rfl
      · rw [hx _ (.head _)] at value
        cases value
  have bound : ∀ x ∈ bounds vs, x.isValue = false := by
    intro x hx
    obtain ⟨v, -, rfl⟩ := List.mem_map.mp hx
    rfl
  have held := same held bound
  dsimp only at region held
  rw [held, ← region]

/-- The end of the code may be taken for a place where less is known. -/
theorem Core.relabel (h : Core known legal c₀ N₀ L b N extra ws p) (le : p ≤ q) :
    Core known legal c₀ N₀ L b (N.relabel b.chunk.code.size q) extra ws q where
  draft := h.draft.relabel (h.now ▸ le)
  wants := h.wants
  frames := by
    obtain ⟨ps, id, entry, length⟩ := h.frames.entry
    obtain ⟨front, ls, split, pending, kept, opened⟩ := h.frames.locals
    refine { h.frames with
      locals := ⟨front, ls, split, pending, kept,
        opened.congr (fun _ _ => rfl) (fun _ _ h => ⟨h, rfl⟩) fun _ _ _ _ _ hr => hr⟩
      entry := ⟨ps, id, ?_, length⟩ }
    by_cases empty : 0 = b.chunk.code.size
    · have here := h.now
      rw [← empty, entry] at here
      subst here
      change Function.update N.point b.chunk.code.size q 0 = _
      rw [← empty, Function.update_self]
      exact calmPoint_le le
    · exact (Function.update_of_ne empty _ _).trans entry
  now := Function.update_self _ _ _
  later := h.later.trans (.relabel (h.now ▸ le))
  adds := h.adds.relabel

/-- The number of the next variable may grow. -/
theorem Draft.revar {c : Chunk} {width : Nat} (h : Draft known c width N ws)
    (vs : List (String × Nat)) {fresh : Nat} (le : N.fresh ≤ fresh) :
    Draft known c width { N with vars := vs, fresh := fresh } ws := by
  obtain ⟨flow, words, waiting⟩ := h
  refine ⟨⟨flow.step, flow.fits, flow.suits, flow.placed, flow.back, flow.whole, flow.since, flow.within⟩,
    ⟨words.caught, fun q id hq => ?_, words.drop, words.follow, words.belongs, words.missing⟩,
    ⟨waiting.nodup, waiting.mem, waiting.unplaced⟩⟩
  have := words.older q id hq
  exact ⟨this.1, by change id < fresh; omega⟩

/-- The books change and the code does not. -/
theorem Core.reframe {L' : Level} {b' : Body} {vs : List (String × Nat)} {fresh : Nat} {ws' : List Nat}
    {extra' : List (Nat × Point)}
    (h : Core known legal c₀ N₀ L b N extra ws p) (le : N.fresh ≤ fresh)
    (frames : Frames L' b' { N with vars := vs, fresh := fresh } ws')
    (code : b'.chunk.code = b.chunk.code) (labels : b'.chunk.labels = b.chunk.labels)
    (constants : Grows b.chunk.constants b'.chunk.constants)
    (captures : b'.captures = b.captures)
    (perm : (extra.map Prod.fst ++ ws).Perm (extra'.map Prod.fst ++ ws'))
    (wants : ∀ e ∈ extra', N.want e.1 = e.2) :
    Core known legal c₀ N₀ L' b' { N with vars := vs, fresh := fresh } extra' ws' p where
  draft := ((h.draft.perm perm).revar vs le).mono code labels constants (by rw [captures]) (.refl _)
  wants := wants
  frames := frames
  now := by rw [code]; exact h.now
  later := h.later.trans (.still code rfl constants)
  adds := h.adds.still code rfl

/-! ## Loops -/

/-- A loop starts at the end of the code. -/
theorem Core.openLoop (h : Core known legal c₀ N₀ L b N extra ws p) (phase : Phase) (l : Loop)
    (perm : (extra.map Prod.fst).Perm (l.awaited phase)) (depth : l.depth = b.depth)
    (exit : N.want l.exit.toNat = calmPoint N.vars)
    (fail : ∀ f, l.fail = some f → N.want f.toNat = valuePoint N.vars)
    (body : phase.inHead → ∀ b, l.body = some b → N.want b.toNat = calmPoint N.vars)
    (untested : phase.untested → l.fail = none)
    (start : N.placed l.start.toNat = some b.chunk.code.size)
    (want : N.want l.start.toNat = calmPoint N.vars) (next : l.next = l.start) :
    Core known legal c₀ N₀ (L.setOpens (.loop phase :: L.opens))
      (b.setControl (.loop l :: b.control))
      (N.setRounds b.chunk.code.size
        ((b.chunk.code.size, N.vars.length) :: N.rounds b.chunk.code.size)) []
      (l.awaited phase ++ ws) p where
  draft := (h.draft.perm (perm.append_right ws)).setRounds (by simp +contextual)
  wants := by simp
  frames := by
    obtain ⟨front, ls, split, pending, kept, opened⟩ := h.frames.locals
    let N' := N.setRounds b.chunk.code.size
      ((b.chunk.code.size, N.vars.length) :: N.rounds b.chunk.code.size)
    have here : N'.rounds b.chunk.code.size =
        (b.chunk.code.size, N.vars.length) :: N.rounds b.chunk.code.size :=
      Function.update_self _ _ _
    have rest : Opened N' L.base L.fixed L.opens b.depth ls N.vars b.control
        (N.rounds b.chunk.code.size) ws := by
      refine opened.congr (fun _ _ => rfl) (fun _ _ h => ⟨h, rfl⟩) fun _ t r _ hr hmem => ?_
      by_cases ht : t = b.chunk.code.size
      · rw [ht, here]
        exact .tail _ hr
      · change r ∈ Function.update N.rounds _ _ t
        rwa [Function.update_of_ne ht]
    have behind : N'.Behind l.start (calmPoint N.vars)
        ((b.chunk.code.size, N.vars.length) :: N.rounds b.chunk.code.size) :=
      ⟨_, start, want, fun r hr => by rwa [here]⟩
    refine { h.frames with
      locals := ⟨front, ls, split, pending, kept, ?_⟩
      start := fun h => nomatch h }
    change Opened N' _ _ _ _ _ _ _ (N'.rounds b.chunk.code.size) _
    rw [here]
    exact .loop rest depth exit fail body untested behind (next ▸ behind)
  now := h.now
  later := h.later.trans (.still rfl rfl (.refl _))
  adds := h.adds.still rfl rfl

/-- A loop ends, and what waits for its end is yet to be placed. -/
theorem Core.closeLoop {phase : Phase} {os : List Opening} {l : Loop} {cs : List Control}
    (h : Core known legal c₀ N₀ L b N [] ws p) (started : L.started = true)
    (opens : L.opens = .loop phase :: os) (control : b.control = .loop l :: cs)
    (head : phase.inHead = false) :
    ∃ N' ws', Core known legal c₀ N₀ { L with opens := os } (b.setControl cs) N'
        ((l.exit.toNat, calmPoint N.vars) ::
          (l.fail.map fun f => (f.toNat, valuePoint N.vars)).toList) ws' p ∧
      N'.vars = N.vars := by
  obtain ⟨front, ls, split, pending, kept, opened⟩ := h.frames.locals
  rw [opens, control] at opened
  generalize hrounds : N.rounds b.chunk.code.size = rs at opened
  cases opened with
  | @loop _ _ _ _ _ rs ws' _ _ s rest depth exit fail body untested start next =>
    let N' := N.setRounds b.chunk.code.size rs
    have here : N'.rounds b.chunk.code.size = rs := Function.update_self _ _ _
    have awaited : l.awaited phase = l.exit.toNat :: (l.fail.map UInt16.toNat).toList := by
      simp [Loop.awaited, head]
    refine ⟨N', ws', ⟨?_, ?_, ?_, h.now, h.later.trans (.still rfl rfl (.refl _)), h.adds.still rfl rfl⟩, rfl⟩
    · refine Draft.setRounds ?_ fun r hr => .inl (hrounds ▸ .tail _ hr)
      have draft := h.draft
      rw [awaited] at draft
      cases hf : l.fail <;> simpa [hf, Body.setControl] using draft
    · intro e he
      rcases List.mem_cons.mp he with rfl | he
      · exact exit
      · cases hf : l.fail with
        | none => simp [hf] at he
        | some f =>
          obtain rfl : e = (f.toNat, valuePoint N.vars) := by simpa [hf] using he
          exact fail f hf
    · refine { h.frames with
        locals := ⟨front, ls, split, pending, kept, ?_⟩
        start := fun h => by simp [started] at h }
      change Opened N' _ _ _ _ _ _ _ (N'.rounds b.chunk.code.size) _
      rw [here]
      refine rest.congr (fun _ _ => rfl) (fun _ _ h => ⟨h, rfl⟩) fun _ t r _ hr hmem => ?_
      by_cases ht : t = b.chunk.code.size
      · rwa [ht, here]
      · change r ∈ Function.update N.rounds _ _ t
        rwa [Function.update_of_ne ht]

/-! ## Leaving scopes -/

theorem fits_drop {l : Local} : Fits legal b.chunk b.captures.size p (dropInstruction l) := by
  unfold dropInstruction
  split <;> constructor <;> simp [Instruction.name?]

/-- A variable is dropped as it is when it has not been captured so far and lives within all
loops that are open. -/
theorem Core.dropOne {l : Local} {v : String × Nat} {vs : List (String × Nat)}
    (h : Core known legal c₀ N₀ L b N extra ws (calmPoint (v :: vs))) (started : L.started = true)
    (flag : l.captured = false → ∀ q, (q, v.2) ∉ N.caught) (above : vs ≠ [])
    (rounds : ∀ r ∈ N.rounds b.chunk.code.size, r.2 ≤ vs.length) :
    Core known legal c₀ N₀ L (b.emit (dropInstruction l) ℓ)
      (N.emit b.chunk.code.size (calmPoint vs)) extra ws (calmPoint vs) := by
  have target : (dropInstruction l).target? = none := by
    unfold dropInstruction
    split <;> rfl
  refine h.emit started ⟨⟨calmPoint vs, ?_, fun _ => Point.le_refl _, ?_⟩, fits_drop,
    h.now ▸ suits_calm _ _, ?_, ?_⟩ ?_ ?_
    (.inr ?_)
  · rw [h.now]
    obtain ⟨u, us, rfl⟩ := List.exists_cons_of_ne_nil above
    unfold dropInstruction
    split
    · exact .close
    · exact .drop
  · simp [target]
  · simp [target]
  · intro name id rest _ held r hr
    rw [h.now] at held
    injection held with _ held
    rw [← held, List.length_map]
    exact rounds r hr
  · unfold dropInstruction
    split <;> rfl
  · intro name id rest pop held
    injection held with var _
    injection var with _ var
    rw [← var]
    refine flag ?_
    unfold dropInstruction at pop
    split at pop
    · cases pop
    · rename_i kept
      simpa using kept
  · unfold dropInstruction
    split <;> rfl

end Core

end ScriptEngine
