import ScriptEngine.Proofs.Amending

/-!
# Captures last

A function that is open keeps its captures where they are and gets more of them.
`follow` goes from a capture outward, function by function, to the slot that is
captured in the end. Where a name is captured it arrives at the innermost local of
that name.
-/
namespace ScriptEngine

open Assembler

/-- The slot at which the captures arrive that lead outward from one of the first function, and how many of the
functions they come from. -/
def follow : List Body → UInt8 → Option (Nat × UInt8)
  | [], _ => none
  | b :: outer, u =>
    match b.captures[u.toNat]? with
    | some ⟨true, s⟩ => some (1, s)
    | some ⟨false, v⟩ => (follow outer v).map fun r => (r.1 + 1, r.2)
    | none => none

/-- A local of the name whose initializer is complete. -/
def Assembler.Local.Is (l : Local) (name : String) : Prop := l.name = name ∧ l.depth.isSome

/-- Of functions, given innermost first, the one `k` functions out is the innermost that has a local of the name,
and the last one that it has is at slot `s`. -/
structure Denotes (functions : List Body) (name : String) (k s : Nat) : Prop where
  there : ∃ b l, functions[k]? = some b ∧ b.locals.reverse[s]? = some l ∧ l.Is name ∧
    ∀ s' l', s < s' → b.locals.reverse[s']? = some l' → ¬l'.Is name
  innermost : ∀ j b l, j < k → functions[j]? = some b → l ∈ b.locals → ¬l.Is name

/-- No function has a local of the name. -/
def Unknown (functions : List Body) (name : String) : Prop :=
  ∀ b ∈ functions, ∀ l ∈ b.locals, ¬l.Is name

theorem Denotes.not_unknown {functions : List Body} {name : String} {k s : Nat} (h : Denotes functions name k s) :
    ¬Unknown functions name := by
  obtain ⟨b, l, hb, hl, is, -⟩ := h.there
  exact fun unknown =>
    unknown b (List.mem_of_getElem? hb) l (List.mem_reverse.mp (List.mem_of_getElem? hl)) is

/-- A name denotes one local. -/
theorem Denotes.unique {functions : List Body} {name : String} {k s k' s' : Nat} (h : Denotes functions name k s)
    (h' : Denotes functions name k' s') : k = k' ∧ s = s' := by
  obtain ⟨b, l, hb, hl, is, last⟩ := h.there
  obtain ⟨b', l', hb', hl', is', last'⟩ := h'.there
  have same : k = k' := by
    rcases Nat.lt_trichotomy k k' with lt | eq | gt
    · exact absurd is (h'.innermost k b l lt hb (List.mem_reverse.mp (List.mem_of_getElem? hl)))
    · exact eq
    · exact absurd is' (h.innermost k' b' l' gt hb' (List.mem_reverse.mp (List.mem_of_getElem? hl')))
  subst same
  obtain rfl : b = b' := Option.some.inj (hb.symm.trans hb')
  refine ⟨rfl, ?_⟩
  rcases Nat.lt_trichotomy s s' with lt | eq | gt
  · exact absurd is' (last s' l' lt hl')
  · exact eq
  · exact absurd is (last' s l gt hl)

theorem follow_mono {xs ys : List Body} (h : List.Forall₂ Body.Extends xs ys) {u : UInt8} {r : Nat × UInt8}
    (found : follow xs u = some r) : follow ys u = some r := by
  induction h generalizing u r with
  | nil => exact found
  | @cons b b' outer outer' extends_ _ ih =>
    unfold follow at found ⊢
    cases there : b.captures[u.toNat]? with
    | none =>
      rw [there] at found
      cases found
    | some c =>
      have kept : b'.captures[u.toNat]? = some c := by
        obtain ⟨more, eq⟩ := extends_.captures
        rw [← Array.getElem?_toList] at there ⊢
        rw [← eq, List.getElem?_append_left (List.getElem?_eq_some_iff.mp there).1, there]
      rw [there] at found
      rw [kept]
      obtain ⟨_ | _, v⟩ := c
      · obtain ⟨r', found', rfl⟩ := Option.map_eq_some_iff.mp found
        exact Option.map_eq_some_iff.mpr ⟨r', ih found', rfl⟩
      · exact found

theorem slotOf_none {name : String} {ls : List Local} (h : slotOf name ls = .ok none) : ∀ l ∈ ls, l.name ≠ name := by
  unfold slotOf at h
  split at h
  · rename_i unknown
    clear h
    induction ls with
    | nil => nofun
    | cons x ls ih =>
      unfold findLocal at unknown
      split at unknown
      · cases unknown
      · rename_i other
        intro l hl
        rcases List.mem_cons.mp hl with rfl | hl
        · exact other
        · exact ih unknown l hl
  · split at h <;> cases h

/-- The last local of a name. -/
theorem findLocal_last {name : String} {ls : List Local} {s : Nat} {l : Local} (h : findLocal name ls = some (s, l)) :
    ls.reverse[s]? = some l ∧ l.name = name ∧ ∀ s' l', s < s' → ls.reverse[s']? = some l' → l'.name ≠ name := by
  refine ⟨(findLocal_some h).1, (findLocal_some h).2, fun s' l' later there => ?_⟩
  induction ls with
  | nil => cases h
  | cons x ls ih =>
    unfold findLocal at h
    rw [List.reverse_cons] at there
    split at h
    · cases h
      rw [List.getElem?_eq_none (by simp; omega)] at there
      cases there
    · rename_i other
      rcases Nat.lt_or_ge s' ls.reverse.length with lt | ge
      · exact ih h (by rwa [List.getElem?_append_left lt] at there)
      · rw [List.getElem?_append_right ge] at there
        obtain rfl := List.mem_singleton.mp (List.mem_of_getElem? there)
        exact other

theorem denotes_here {b : Body} {outer : List Body} {name : String} {slot : UInt8}
    (h : slotOf name b.locals = .ok (some slot)) (room : b.locals.length ≤ 256) :
    Denotes (b :: outer) name 0 slot.toNat := by
  obtain ⟨l, found, complete⟩ := slotOf_some h room
  obtain ⟨there, named, last⟩ := findLocal_last found
  exact ⟨⟨b, l, rfl, there, ⟨named, complete⟩, fun s' l' later there is => last s' l' later there is.1⟩,
    fun _ _ _ below => absurd below (Nat.not_lt_zero _)⟩

theorem Denotes.outward {b : Body} {outer : List Body} {name : String} {k s : Nat} (h : Denotes outer name k s)
    (other : ∀ l ∈ b.locals, l.name ≠ name) : Denotes (b :: outer) name (k + 1) s := by
  refine ⟨h.there, fun j b' l below found mem is => ?_⟩
  cases j with
  | zero =>
    cases found
    exact other l mem is.1
  | succ j => exact h.innermost j b' l (Nat.lt_of_succ_lt_succ below) found mem is

section CaptureFrom
variable {name : String} {b b' e : Body} {outer outer' : List Body} {i : UInt8}

/-- A name that is captured denotes the slot at which the capture arrives. -/
theorem captureFrom_some (roomy : ∀ x ∈ b :: outer, x.Roomy)
    (found : captureFrom name b outer = .ok (some (i, b', outer'))) :
    ∃ k s, Denotes outer name k s.toNat ∧ follow (b' :: outer') i = some (k + 1, s) := by
  induction outer generalizing b i b' outer' with
  | nil => cases found
  | cons e outer ih =>
    have roomy' : ∀ x ∈ e :: outer, x.Roomy := fun x hx => roomy x (.tail _ hx)
    obtain ⟨slot, here, added, rfl⟩ | ⟨other, j, e', es, more, added, rfl⟩ := captureFrom_cons found
    · obtain ⟨_, rfl, _, _, there⟩ := addCapture_ok added (roomy b (.head _)).2
      exact ⟨0, slot, denotes_here here (roomy' e (.head _)).1, by rw [follow, there]⟩
    · obtain ⟨_, rfl, _, _, there⟩ := addCapture_ok added (roomy b (.head _)).2
      obtain ⟨k, s, denotes, arrives⟩ := ih roomy' more
      exact ⟨k + 1, s, denotes.outward (slotOf_none other), by rw [follow, there]; dsimp only; rw [arrives]; rfl⟩

theorem captureFrom_none (h : captureFrom name b outer = .ok none) : Unknown outer name := by
  induction outer generalizing b with
  | nil => nofun
  | cons e outer ih =>
    unfold captureFrom at h
    simp only [bind, Except.bind, pure, Except.pure] at h
    split at h
    · cases h
    rename_i place hplace
    split at h
    · split at h <;> cases h
    · split at h
      · cases h
      rename_i more hmore
      split at h
      · split at h <;> cases h
      · intro x hx
        rcases List.mem_cons.mp hx with rfl | hx
        · exact fun l hl is => slotOf_none hplace l hl is.1
        · exact ih hmore x hx

end CaptureFrom

/-- Where a name leads that is looked up: to a local of the current function, through a capture to the local that
it denotes, or to a global, if there is no local of the name. -/
def Assembler.Found (a a' : Assembler) (name : String) : Place → Prop
  | .slot n => Denotes a.opened name 0 n.toNat
  | .capture u => ∃ k s, Denotes a.opened name (k + 1) s.toNat ∧ follow a'.opened u = some (k + 1, s)
  | .global n => Unknown a.opened name ∧ a'.body.chunk.name? n = some name

/-- A name is looked up. -/
structure Assembler.Looks (a a' : Assembler) (name : String) (p : Place) : Prop where
  extends_ : a.Extends a'
  code : a'.body.chunk.code = a.body.chunk.code
  found : (∀ b ∈ a.opened, b.Roomy) → a.Found a' name p

theorem does_findPlace_looks (name : String) (a : Assembler) : Does (findPlace name) a fun r a' =>
    (∀ p, r = some p → a.Looks a' name p) ∧ (r = none → a' = a ∧ Unknown a.opened name) := by
  unfold findPlace
  refine does_bind (does_get (does_bind (does_lift fun r here => ?_)))
  cases r with
  | some slot =>
    refine does_pure ⟨?_, nofun⟩
    rintro p ⟨⟩
    exact ⟨.refl a, rfl, fun roomy => denotes_here here (roomy _ (.head _)).1⟩
  | none =>
    have other := slotOf_none here
    refine does_bind (does_lift fun r outward => ?_)
    cases r with
    | some r =>
      obtain ⟨i, body, outer⟩ := r
      have rewired := (captureFrom_rewired outward).1
      refine does_bind (does_set (does_pure ⟨?_, nofun⟩))
      rintro p ⟨⟩
      refine ⟨⟨rewired.extends, rfl⟩, by rw [rewired.chunk], fun roomy => ?_⟩
      obtain ⟨k, s, denotes, arrives⟩ := captureFrom_some roomy outward
      exact ⟨k, s, denotes.outward other, arrives⟩
    | none =>
      refine does_pure ⟨nofun, fun _ => ⟨rfl, fun b hb => ?_⟩⟩
      rcases List.mem_cons.mp hb with rfl | hb
      · exact fun l hl is => other l hl is.1
      · exact captureFrom_none outward b hb

theorem does_place_looks (name : String) (a : Assembler) : Does (place name) a fun p a' => a.Looks a' name p := by
  unfold place
  refine does_bind (does_mono (does_findPlace_looks name a) ?_)
  rintro r a' ⟨found, unknown⟩
  cases r with
  | some p => exact does_pure (found p rfl)
  | none =>
    obtain ⟨rfl, unknown⟩ := unknown rfl
    rw [← setBody_body a']
    refine does_bind (does_nameConstant fun index constants _ there => does_pure ?_)
    refine ⟨.here ⟨List.prefix_refl _, id⟩ rfl rfl, rfl, fun _ => ⟨unknown, ?_⟩⟩
    exact name?_of_constant there

/-- A variable is read or stored. -/
structure Assembler.Accesses (a a' : Assembler) (name : String) (access : Place → Instruction) : Prop where
  extends_ : a.Extends a'
  found : (∀ b ∈ a.opened, b.Roomy) →
    ∃ p, a'.body.chunk.code = a.body.chunk.code.push (access p) ∧ a.Found a' name p

theorem Assembler.Looks.accesses {a a' : Assembler} {name : String} {p : Place} (h : a.Looks a' name p)
    (access : Place → Instruction) : Does (emit (access p)) a' fun _ a'' => a.Accesses a'' name access := by
  rintro _ _ ⟨⟩
  have emitted : a'.Extends { a' with body := a'.body.emit (access p) (UInt32.ofNat a'.mark.line) } :=
    .here ⟨List.prefix_refl _, id⟩ rfl rfl
  refine ⟨h.extends_.trans emitted, fun roomy => ⟨p, congrArg (·.push (access p)) h.code, ?_⟩⟩
  have found := h.found roomy
  cases p with
  | slot n => exact found
  | capture u =>
    obtain ⟨k, s, denotes, arrives⟩ := found
    exact ⟨k, s, denotes, follow_mono emitted.opened arrives⟩
  | global n => exact found

theorem does_load_accesses (name : String) (a : Assembler) :
    Does (load name) a fun _ a' => a.Accesses a' name Place.getter :=
  does_bind (does_mono (does_place_looks name a) fun _ _ looks => looks.accesses _)

theorem does_checkStore_looks (name : String) (a : Assembler) :
    Does (checkStore name) a fun p a' => a.Looks a' name p := by
  unfold checkStore
  refine does_bind (does_mono (does_place_looks name a) fun p a' looks => ?_)
  refine does_bind (does_bind (does_get (does_pure ?_)))
  dsimp only
  split
  · split
    · exact does_bind does_throw
    · exact does_pure looks
  · exact does_pure looks

theorem does_store_accesses (name : String) (a : Assembler) :
    Does (store name) a fun _ a' => a.Accesses a' name Place.setter :=
  does_bind (does_mono (does_checkStore_looks name a) fun _ _ looks => looks.accesses _)

theorem does_loadThis_accesses (a : Assembler) :
    Does loadThis a fun _ a' => a.Accesses a' "this" Place.getter := by
  refine does_bind (does_mono (does_findPlace_looks "this" a) ?_)
  rintro r a' ⟨found, -⟩
  cases r with
  | some p => exact (found p rfl).accesses _
  | none => exact does_throw

end ScriptEngine
