import ScriptEngine.Proofs.Following

/-!
# Functions within functions

A function captures a variable of one that encloses it through all functions
between them. `Nest` says that the functions that are open follow their levels
and that what each of them captures is there in the next one.
-/
namespace ScriptEngine

open Assembler Outline

/-- Locals that have been flagged since. -/
def Marked (ls ls' : List Local) : Prop :=
  List.Forall₂ (fun l l' => l'.name = l.name ∧ l'.depth = l.depth ∧ (l.captured → l'.captured)) ls ls'

/-- A function follows its level, whatever may be referred to from here on. -/
def Tracks (known : Array Chunk) (L : Level) (b : Body) (N : Notes) (ws : List Nat) : Prop :=
  ∀ legal, Core known legal b.chunk N L b N [] ws (L.point N.vars)

theorem Tracks.frames {known : Array Chunk} {L : Level} {b : Body} {N : Notes} {ws : List Nat}
    (h : Tracks known L b N ws) : Frames L b N ws :=
  (h fun _ _ => False).frames

/-- The innermost local of a name is complete and has been captured. -/
def Lent (locals : List Local) (name : String) (n : Nat) : Prop :=
  ∃ l, findLocal name locals = some (n, l) ∧ l.depth.isSome ∧ l.captured

/-- What a function captures is there in the function that encloses it. -/
def Linked (captures : Array Capture) (e : Body) : Prop :=
  (∀ n, ⟨true, n⟩ ∈ captures → ∃ name, Lent e.locals name n.toNat) ∧
    ∀ n, ⟨false, n⟩ ∈ captures → n.toNat < e.captures.size

/-- The functions that are open, innermost first, with their levels and notes. -/
inductive Nest (known : Array Chunk) : List Level → List (Body × Notes) → Prop
  | script {L : Level} {b : Body} {N : Notes} {ws : List Nat} (tracks : Tracks known L b N ws)
      (captures : b.captures = #[]) (role : L.role = .plain) : Nest known [L] [(b, N)]
  | inner {L E : Level} {Ls : List Level} {b e : Body} {N M : Notes} {ps : List (Body × Notes)}
      {ws : List Nat} (tracks : Tracks known L b N ws) (linked : Linked b.captures e)
      (role : L.role = .case → E.role = .set) (started : E.started)
      (rest : Nest known (E :: Ls) ((e, M) :: ps)) :
      Nest known (L :: E :: Ls) ((b, N) :: (e, M) :: ps)

/-- Bodies with other books for the same code. -/
def Rebooked (ps ps' : List (Body × Notes)) : Prop :=
  List.Forall₂ (fun x y => y.1.chunk = x.1.chunk ∧ y.2 = x.2) ps ps'

section Marked
variable {ls ls' ls'' : List Local}

theorem Marked.refl (ls : List Local) : Marked ls ls :=
  List.forall₂_same.mpr fun _ _ => ⟨rfl, rfl, id⟩

theorem marked_markCaptured (slot : Nat) (ls : List Local) : Marked ls (markCaptured slot ls) := by
  induction ls with
  | nil => exact .nil
  | cons l ls ih =>
    unfold markCaptured
    split
    · exact .cons ⟨rfl, rfl, fun _ => rfl⟩ (Marked.refl ls)
    · exact .cons ⟨rfl, rfl, id⟩ ih

theorem Marked.findLocal {name : String} {n : Nat} {l : Local} (h : Marked ls ls')
    (hl : findLocal name ls = some (n, l)) :
    ∃ l', Assembler.findLocal name ls' = some (n, l') ∧ l'.depth = l.depth ∧ (l.captured → l'.captured) := by
  induction h with
  | nil => cases hl
  | @cons x y ls ls' first rest ih =>
    obtain ⟨named, depth, flag⟩ := first
    unfold Assembler.findLocal at hl ⊢
    rw [named, ← rest.length_eq]
    split at hl
    · cases hl
      exact ⟨y, if_pos ‹_›, depth, flag⟩
    · rw [if_neg ‹_›]
      exact ih hl

theorem findLocal_some {name : String} {slot : Nat} {l : Local} (h : findLocal name ls = some (slot, l)) :
    ls.reverse[slot]? = some l ∧ l.name = name := by
  induction ls with
  | nil => cases h
  | cons x ls ih =>
    unfold findLocal at h
    rw [List.reverse_cons]
    split at h
    · rename_i same
      cases h
      exact ⟨by simp, same⟩
    · obtain ⟨found, named⟩ := ih h
      have bound : slot < ls.reverse.length := (List.getElem?_eq_some_iff.mp found).1
      exact ⟨by rwa [List.getElem?_append_left bound], named⟩

/-- What is captured is flagged. -/
theorem findLocal_markCaptured {name : String} {slot : Nat} {l : Local} (h : findLocal name ls = some (slot, l)) :
    findLocal name (markCaptured slot ls) = some (slot, { l with captured := true }) := by
  induction ls with
  | nil => cases h
  | cons x ls ih =>
    unfold findLocal at h
    unfold markCaptured
    split at h
    · rename_i named
      cases h
      rw [if_pos rfl, findLocal, if_pos named]
    · rename_i other
      have bound := (List.getElem?_eq_some_iff.mp (findLocal_some h).1).1
      rw [List.length_reverse] at bound
      rw [if_neg (by omega), findLocal, if_neg other]
      exact ih h

/-- A slot that is looked up is the one of the innermost local of the name. -/
theorem slotOf_some {name : String} {slot : UInt8} (h : slotOf name ls = .ok (some slot))
    (room : ls.length ≤ 256) : Found ls name slot.toNat := by
  unfold slotOf at h
  split at h
  · cases h
  · rename_i n l found
    split at h
    · cases h
    · rename_i complete
      cases h
      have bound := (List.getElem?_eq_some_iff.mp (findLocal_some found).1).1
      rw [List.length_reverse] at bound
      refine ⟨l, ?_, by cases hd : l.depth <;> simp_all⟩
      rwa [UInt8.toNat_ofNat', Nat.mod_eq_of_lt (by omega)]

end Marked

section Nest
variable {known : Array Chunk} {L : Level} {Ls : List Level} {b b' e : Body}
  {N : Notes} {ws : List Nat} {ps : List (Body × Notes)} {name : String}

theorem Opened.mark {base fixed d : Nat} {os : List Opening} {ls ls' : List Local}
    {vs : List (String × Nat)} {cs : List Control} {rs : List Round}
    (h : Opened N base fixed os d ls vs cs rs ws) (marked : Marked ls ls') :
    Opened N base fixed os d ls' vs cs rs ws := by
  have same {xs ys : List Local} {k : Nat} (h : Marked xs ys) (depths : ∀ l ∈ xs, l.depth = some k) :
      ∀ l ∈ ys, l.depth = some k := by
    induction h with
    | nil => simp
    | cons first _ ih =>
      intro l hl
      rcases List.mem_cons.mp hl with rfl | hl
      · exact first.2.1.trans (depths _ (.head _))
      · exact ih (fun l hl => depths l (.tail _ hl)) l hl
  induction h generalizing ls' with
  | base depths enough => exact .base (same marked depths) enough
  | @scope os d ls new vs nvs cs rs ws _ depths length ih =>
    obtain ⟨new', low', marked₁, marked₂, rfl⟩ : ∃ new' low', Marked new new' ∧ Marked ls low' ∧
        ls' = new' ++ low' := by
      refine ⟨ls'.take new.length, ls'.drop new.length, ?_, ?_, (List.take_append_drop _ _).symm⟩
      · have := List.forall₂_take new.length marked
        rwa [List.take_left] at this
      · have := List.forall₂_drop new.length marked
        rwa [List.drop_left] at this
    exact .scope (ih marked₂) (same marked₁ depths) (marked₁.length_eq.symm.trans length)
  | typeBody _ ih => exact .typeBody (ih marked)
  | subtype _ depth ih =>
    cases marked with
    | cons first marked => exact .subtype (ih marked) (first.2.1.trans depth)
  | short _ want ih => exact .short (ih marked) want
  | alternative _ fail want ih => exact .alternative (ih marked) fail want
  | otherwise _ want ih => exact .otherwise (ih marked) want
  | loop _ depth exit fail body untested start next ih =>
    exact .loop (ih marked) depth exit fail body untested start next

theorem front_marked {pending : Pending} {depth : Nat} {front front' : List Local}
    (h : pending.Front depth front) (marked : Marked front front') : pending.Front depth front' := by
  have single {l : Local} (hl : front = [l]) : ∃ c, front' = [{ l with captured := c }] := by
    subst hl
    cases marked with
    | @cons _ l' _ _ first rest =>
      cases rest
      obtain ⟨name, depth, captured⟩ := l'
      obtain ⟨rfl, rfl, -⟩ := first
      exact ⟨captured, rfl⟩
  cases pending with
  | none =>
    obtain rfl : front = [] := h
    cases marked
    rfl
  | value name =>
    obtain ⟨c, rfl⟩ := h
    exact single rfl
  | function name =>
    obtain ⟨c, rfl⟩ := h
    exact single rfl

theorem Kept.mark {ls ls' : List Local} {vs : List (String × Nat)} (h : Kept N ls vs)
    (marked : Marked ls ls') : Kept N ls' vs := by
  unfold Kept at h ⊢
  induction marked generalizing vs with
  | nil => exact h
  | cons first _ ih =>
    cases h with
    | cons kept rest =>
      refine .cons ⟨first.1.trans kept.1, fun hc => kept.2 ?_⟩ (ih rest)
      by_contra captured
      rw [first.2.2 (by simpa using captured)] at hc
      cases hc

/-- More is captured, by a function and of it. -/
theorem Tracks.capture {locals : List Local} {captures : Array Capture} (h : Tracks known L b N ws)
    (marked : Marked b.locals locals) (more : b.captures.size ≤ captures.size)
    (room : captures.size ≤ 256) (started : L.started = false → captures = #[]) :
    Tracks known L { b with locals, captures } N ws := fun legal => { h legal with
  draft := (h legal).draft.mono rfl rfl (.refl _) more (.refl _)
  frames := by
    have frames := (h legal).frames
    obtain ⟨front, ls, split, pending, kept, opened⟩ := frames.locals
    rw [split] at marked
    have marked₁ := List.forall₂_take front.length marked
    have marked₂ := List.forall₂_drop front.length marked
    rw [List.take_left] at marked₁
    rw [List.drop_left] at marked₂
    refine { frames with
      locals := ⟨locals.take front.length, locals.drop front.length,
        (List.take_append_drop _ _).symm, ?_, ?_, opened.mark marked₂⟩
      room := ?_
      width := room
      start := fun h => ?_ }
    · exact front_marked pending marked₁
    · exact kept.mark marked₂
    · have := frames.room
      rw [split] at this
      rw [← marked.length_eq]
      exact this
    · obtain ⟨code, labels, -, rest⟩ := frames.start h
      exact ⟨code, labels, started h, rest⟩ }

theorem Linked.mono {captures : Array Capture} {e e' : Body} (h : Linked captures e)
    (marked : Marked e.locals e'.locals) (more : e.captures.size ≤ e'.captures.size) :
    Linked captures e' := by
  refine ⟨fun n hn => ?_, fun n hn => (h.2 n hn).trans_le more⟩
  obtain ⟨name, l, hl, complete, captured⟩ := h.1 n hn
  obtain ⟨l', hl', depth, flag⟩ := marked.findLocal hl
  exact ⟨name, l', hl', depth ▸ complete, flag captured⟩

/-- A change of the books of the innermost function that keeps what inner ones have captured. -/
theorem Nest.capture {locals : List Local} {captures : Array Capture}
    (h : Nest known (L :: Ls) ((b, N) :: ps)) (marked : Marked b.locals locals)
    (more : b.captures.size ≤ captures.size) (room : captures.size ≤ 256)
    (started : L.started = false → captures = #[])
    (linked : ∀ e M rest, ps = (e, M) :: rest → Linked captures e)
    (script : ps = [] → captures = #[]) :
    Nest known (L :: Ls) (({ b with locals, captures }, N) :: ps) := by
  cases h with
  | script tracks _ role => exact .script (tracks.capture marked more room started) (script rfl) role
  | inner tracks _ role up rest =>
    exact .inner (tracks.capture marked more room started) (linked _ _ _ rfl) role up rest

theorem addCapture_ok {s : Capture} {i : UInt8} (h : addCapture b s = .ok (i, b'))
    (room : b.captures.size ≤ 256) :
    ∃ captures, b' = { b with captures } ∧ (captures = b.captures ∨ captures = b.captures.push s) ∧
      captures.size ≤ 256 ∧ captures[i.toNat]? = some s := by
  unfold addCapture at h
  split at h
  · rename_i k found
    cases h
    obtain ⟨bound, same, -⟩ := Array.findIdx?_eq_some_iff_getElem.mp found
    refine ⟨b.captures, rfl, .inl rfl, room, ?_⟩
    rw [UInt8.toNat_ofNat', Nat.mod_eq_of_lt (by omega), Array.getElem?_eq_getElem bound,
      eq_of_beq same]
  · split_ifs at h with full
    cases h
    refine ⟨b.captures.push s, rfl, .inr rfl, by simp; omega, ?_⟩
    rw [UInt8.toNat_ofNat', Nat.mod_eq_of_lt (by omega)]
    simp

theorem Nest.width (h : Nest known (L :: Ls) ((b, N) :: ps)) : b.captures.size ≤ 256 := by
  cases h with
  | script tracks => exact tracks.frames.width
  | inner tracks => exact tracks.frames.width

theorem Nest.room (h : Nest known (L :: Ls) ((b, N) :: ps)) : b.locals.length ≤ 256 := by
  cases h with
  | script tracks => exact tracks.frames.room
  | inner tracks => exact tracks.frames.room

theorem Rebooked.refl (ps : List (Body × Notes)) : Rebooked ps ps :=
  List.forall₂_same.mpr fun _ _ => ⟨rfl, rfl⟩

/-- What a function captures is there. -/
theorem Nest.links (h : Nest known (L :: Ls) ((b, N) :: ps)) :
    (∀ e M rest, ps = (e, M) :: rest → Linked b.captures e) ∧ (ps = [] → b.captures = #[]) := by
  cases h with
  | script _ captures => exact ⟨nofun, fun _ => captures⟩
  | inner _ linked =>
    refine ⟨?_, nofun⟩
    rintro _ _ _ ⟨⟩
    exact linked

/-- Locals are flagged. -/
theorem Nest.mark {slot : Nat} (h : Nest known (L :: Ls) ((b, N) :: ps)) :
    Nest known (L :: Ls) (({ b with locals := markCaptured slot b.locals }, N) :: ps) := by
  refine h.capture (marked_markCaptured slot b.locals) le_rfl h.width (fun hs => ?_) h.links.1 h.links.2
  cases h with
  | script tracks captures => exact captures
  | inner tracks => exact (tracks.frames.start hs).2.2.1

theorem Linked.add {captures captures' : Array Capture} {s : Capture} (h : Linked captures e)
    (more : captures' = captures ∨ captures' = captures.push s)
    (there : Linked #[s] e) : Linked captures' e := by
  rcases more with rfl | rfl
  · exact h
  · refine ⟨fun n hn => ?_, fun n hn => ?_⟩
    · rcases Array.mem_push.mp hn with hn | hn
      · exact h.1 n hn
      · exact there.1 n (by simp [hn])
    · rcases Array.mem_push.mp hn with hn | hn
      · exact h.2 n hn
      · exact there.2 n (by simp [hn])

/-- A variable of an enclosing function, captured through the functions between. -/
theorem Nest.captureFrom {i : UInt8} {es : List Body} (h : Nest known (L :: Ls) ((b, N) :: ps))
    (started : L.started)
    (found : captureFrom name b (ps.map Prod.fst) = .ok (some (i, b', es))) :
    ∃ ps' captures, b' = { b with captures } ∧ ps'.map Prod.fst = es ∧ Rebooked ps ps' ∧
      b.captures.size ≤ captures.size ∧ i.toNat < captures.size ∧
      Nest known (L :: Ls) ((b', N) :: ps') := by
  induction ps generalizing L Ls b N i b' es with
  | nil => cases found
  | cons x ps ih =>
    obtain ⟨e, M⟩ := x
    have width := h.width
    obtain _ | @⟨_, E, Ls, _, _, _, _, _, ws, tracks, linked, role, up, rest⟩ := h
    -- what is added to the captures is there in the next function as it is then
    have step {e' : Body} {ps' : List (Body × Notes)} {s : Capture} {b' : Body} {i : UInt8}
        (rest' : Nest known (E :: Ls) ((e', M) :: ps')) (marked : Marked e.locals e'.locals)
        (more : e.captures.size ≤ e'.captures.size) (there : Linked #[s] e')
        (added : addCapture b s = .ok (i, b')) :
        ∃ captures, b' = { b with captures } ∧ b.captures.size ≤ captures.size ∧ i.toNat < captures.size ∧
          Nest known (L :: E :: Ls) ((b', N) :: (e', M) :: ps') := by
      obtain ⟨captures, rfl, grown, room, here⟩ := addCapture_ok added width
      have larger : b.captures.size ≤ captures.size := by
        rcases grown with rfl | rfl <;> simp
      have tracks' := tracks.capture (Marked.refl _) larger room fun hs => by simp [started] at hs
      exact ⟨captures, rfl, larger, (Array.getElem?_eq_some_iff.mp here).1,
        .inner tracks' ((linked.mono marked more).add grown there) role up rest'⟩
    rw [List.map_cons] at found
    unfold Assembler.captureFrom at found
    simp only [bind, Except.bind, pure, Except.pure] at found
    split at found
    · cases found
    rename_i place hplace
    split at found
    · rename_i slot
      -- the variable is a local of the next function
      split at found
      · cases found
      rename_i p added
      obtain ⟨j, b₁⟩ := p
      cases found
      obtain ⟨l, hl, complete⟩ := slotOf_some hplace rest.room
      have there : Linked #[⟨true, slot⟩] { e with locals := markCaptured slot.toNat e.locals } := by
        refine ⟨fun n hn => ?_, fun n hn => by simp at hn⟩
        obtain rfl : n = slot := by simpa using hn
        exact ⟨name, _, findLocal_markCaptured hl, complete, rfl⟩
      obtain ⟨captures, rfl, grown, bound, nest⟩ := step rest.mark (marked_markCaptured _ _) le_rfl there added
      exact ⟨({ e with locals := markCaptured slot.toNat e.locals }, M) :: ps, captures, rfl, rfl,
        .cons ⟨rfl, rfl⟩ (Rebooked.refl ps), grown, bound, nest⟩
    · -- the next function captures it itself
      split at found
      · cases found
      rename_i more hmore
      split at found
      · rename_i j e' es'
        split at found
        · cases found
        rename_i p added
        obtain ⟨k, b₁⟩ := p
        cases found
        obtain ⟨ps', captures, rfl, rfl, rebooked, larger, bound, rest'⟩ := ih rest up hmore
        have there : Linked #[⟨false, j⟩] { e with captures } := by
          refine ⟨fun n hn => by simp at hn, fun n hn => ?_⟩
          obtain rfl : n = j := by simpa using hn
          exact bound
        obtain ⟨captures', rfl, grown, bound', nest⟩ := step rest' (Marked.refl _) larger there added
        exact ⟨({ e with captures }, M) :: ps', captures', rfl, rfl, .cons ⟨rfl, rfl⟩ rebooked, grown, bound',
          nest⟩
      · cases found

end Nest

end ScriptEngine
