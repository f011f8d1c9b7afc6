import Mathlib.Data.List.Forall2
import Mathlib.Tactic
import ScriptEngine.Code.Chunk

/-!
# What a frame holds

A point says what is known of the values of a frame ahead of an instruction:
one entry for each value, the topmost first, and whether the instruction stands
in a region for several results. A value is a variable, a temporary value, or
one of the few temporaries that the next instruction needs to be of one kind.

`Effect` is the move that an instruction makes from point to point and `Fits`
says what its operands refer to. Within a region the frame may hold more than
the point says, since a call may have left several results.
-/
namespace ScriptEngine

inductive Held where
  /-- A variable, with its number among the variables of the chunk. -/
  | bound (name : String) (id : Nat)
  | value
  | byte (n : UInt8)
  /-- How many values a region left. -/
  | count
  /-- A closure over a chunk of the script. -/
  | closure (chunk : Nat)
  deriving DecidableEq, Repr

inductive Region where
  | none
  /-- Open, with the height at which it begins. -/
  | opened (start : Nat)
  /-- Ended, its values counted but not yet checked. -/
  | counted (start : Nat)
  deriving DecidableEq, Repr

structure Point where
  held : List Held
  region : Region := .none
  deriving DecidableEq, Repr

namespace Held

/-- A temporary of which nothing more need be known. -/
def isValue : Held → Bool
  | value | byte _ => true
  | _ => false

def isBound : Held → Bool
  | bound _ _ => true
  | _ => false

/-- A temporary may be taken for any value, or become a variable. -/
def Le (a b : Held) : Prop := a = b ∨ (a.isValue ∧ (b = value ∨ b.isBound))

instance : LE Held := ⟨Le⟩

theorem le_def {a b : Held} : a ≤ b ↔ a = b ∨ (a.isValue ∧ (b = value ∨ b.isBound)) := Iff.rfl

@[simp] theorem le_refl (a : Held) : a ≤ a := .inl rfl

theorem le_trans {a b c : Held} (h : a ≤ b) (k : b ≤ c) : a ≤ c := by
  rw [le_def] at h k ⊢
  rcases h with rfl | ⟨ha, hb⟩
  · exact k
  · rcases k with rfl | ⟨hb', hc⟩
    · exact .inr ⟨ha, hb⟩
    · exact .inr ⟨ha, hc⟩

theorem forall₂_le_trans {a b c : List Held} (h : List.Forall₂ (· ≤ ·) a b)
    (k : List.Forall₂ (· ≤ ·) b c) : List.Forall₂ (· ≤ ·) a c := by
  induction h generalizing c with
  | nil => exact k
  | cons hd _ ih =>
    obtain ⟨e, c, he, hc, rfl⟩ := List.forall₂_cons_left_iff.mp k
    exact .cons (le_trans hd he) (ih hc)

theorem bound_le {name : String} {id : Nat} {b : Held} (h : bound name id ≤ b) :
    b = bound name id := by
  rcases h with h | ⟨h, _⟩
  · exact h.symm
  · cases h

/-- The entry at a position counted from the bottom. -/
def at? (held : List Held) (n : Nat) : Option Held := held.reverse[n]?

@[simp] theorem at?_nil (n : Nat) : at? [] n = none := by simp [at?]

theorem at?_cons (a : Held) (held : List Held) (n : Nat) :
    at? (a :: held) n = if n = held.length then some a else at? held n := by
  unfold at?
  rw [List.reverse_cons, List.getElem?_append, List.length_reverse]
  split_ifs with h₁ h₂ h₂
  · omega
  · rfl
  · subst h₂; simp
  · rw [List.getElem?_eq_none (by simp; omega), List.getElem?_eq_none (by simp; omega)]

theorem at?_append_of_lt {held : List Held} (above : List Held) {n : Nat} (h : n < held.length) :
    at? (above ++ held) n = at? held n := by
  unfold at?
  rw [List.reverse_append, List.getElem?_append_left (by simpa using h)]

theorem lt_of_at? {held : List Held} {n : Nat} {a : Held} (h : at? held n = some a) :
    n < held.length := by
  unfold at? at h
  simpa using (List.getElem?_eq_some_iff.mp h).choose

end Held

namespace Point

def height (p : Point) : Nat := p.held.length

def at? (p : Point) (n : Nat) : Option Held := Held.at? p.held n

instance : LE Point := ⟨fun p q => p.region = q.region ∧ List.Forall₂ (· ≤ ·) p.held q.held⟩

theorem le_def {p q : Point} :
    p ≤ q ↔ p.region = q.region ∧ List.Forall₂ (· ≤ ·) p.held q.held := Iff.rfl

@[simp] theorem le_refl (p : Point) : p ≤ p :=
  ⟨rfl, List.forall₂_same.mpr fun _ _ => Held.le_refl _⟩

theorem le_trans {p q r : Point} (h : p ≤ q) (k : q ≤ r) : p ≤ r :=
  ⟨h.1.trans k.1, Held.forall₂_le_trans h.2 k.2⟩

theorem height_eq {p q : Point} (h : p ≤ q) : p.height = q.height := h.2.length_eq

/-- What was a variable stays that variable. -/
theorem at?_bound {p q : Point} (h : p ≤ q) {n id : Nat} {name : String}
    (hp : p.at? n = some (.bound name id)) : q.at? n = some (.bound name id) := by
  obtain ⟨-, h⟩ := h
  unfold at? at hp ⊢
  generalize p.held = a at h hp
  generalize q.held = b at h
  induction h with
  | nil => simp at hp
  | cons hd tl ih =>
    rw [Held.at?_cons] at hp ⊢
    rw [← tl.length_eq]
    split_ifs with hn
    · rw [if_pos hn] at hp
      cases hp
      rw [Held.bound_le hd]
    · rw [if_neg hn] at hp
      exact ih hp

end Point

namespace Instruction

/-- How many temporaries an instruction takes and how many it leaves, where that is all it does
to the frame. -/
def effect : Instruction → Option (Nat × Nat)
  | pushConstant _ | pushByte _ | pushBool _ | null | getLocal _ | getUpvalue _ | getGlobal _
  | declareType _ _ | newDynamic | inject _ => some (0, 1)
  | goto _ | yield => some (0, 0)
  | duplicate => some (1, 2)
  | duplicatePair => some (2, 4)
  | swap => some (2, 2)
  | pop | defineGlobal _ | throw | inherit | freeze | readOnly | build | register _ => some (1, 0)
  | negate | not | setLocal _ | setUpvalue _ | setGlobal _ | gotoIfFalse _ | field _ | finishType
  | getProperty _ => some (1, 1)
  | add | subtract | multiply | divide | modulus | equal | less | greater | meets
  | mixin | signs | method _ | staticMember _ | enumValue _ | setProperty _ | getIndex
  | getSuper _ => some (2, 1)
  | setIndex => some (3, 1)
  | call argc | invoke _ argc => some (argc.toNat + 1, 1)
  | superInvoke _ argc => some (argc.toNat + 2, 1)
  | ret count => some (count.toNat, 0)
  | buildList n => some (n.toNat, 1)
  | buildMap n => some (n.toNat * 2, 1)
  | testCase _ hasRows => some (if hasRows then 2 else 1, 0)
  | closure _ | capture _ | closeUpvalue | initChain | multiVarStart | multiVarEnd | validate _
  | testSet _ => none

/-- Whether control may go on to the next instruction. -/
def falls : Instruction → Bool
  | goto _ | ret _ | throw => false
  | _ => true

def target? : Instruction → Option UInt16
  | goto label | gotoIfFalse label => some label
  | _ => none

/-- The operand that must be a name. -/
def name? : Instruction → Option UInt16
  | defineGlobal n | getGlobal n | setGlobal n | invoke n _ | superInvoke n _ | declareType _ n
  | field n | method n | staticMember n | enumValue n | getProperty n | setProperty n | getSuper n
  | testSet n | testCase n _ | register n | inject n => some n
  | _ => none

/-- The slot that an instruction reads, writes or captures. -/
@[simp] def slot? : Instruction → Option UInt8
  | getLocal n | setLocal n | capture ⟨true, n⟩ => some n
  | _ => none

def isTestCase : Instruction → Bool
  | testCase _ _ => true
  | _ => false

def isCapture : Instruction → Bool
  | capture _ => true
  | _ => false

end Instruction

/-- A chunk that runs test cases, as the body of a test set does. -/
def Chunk.isSet (c : Chunk) : Bool := c.code.any Instruction.isTestCase

/-- The moves of the instructions of a chunk, where `known` has the chunks it may refer to. -/
inductive Effect (known : Array Chunk) (c : Chunk) : Instruction → Point → Point → Prop
  | plain {i : Instruction} {takes gives : Nat} {τ ρ : List Held} {r : Region}
      (effect : i.effect = some (takes, gives)) (length : τ.length = takes)
      (values : ∀ e ∈ τ, e.isValue) :
      Effect known c i ⟨τ ++ ρ, r⟩ ⟨List.replicate gives .value ++ ρ, r⟩
  | byte {n : UInt8} {held : List Held} {r : Region} :
      Effect known c (.pushByte n) ⟨held, r⟩ ⟨.byte n :: held, r⟩
  /-- A variable is dropped above another one. -/
  | drop {name : String} {id : Nat} {e : Held} {rest : List Held} {r : Region} :
      Effect known c .pop ⟨.bound name id :: e :: rest, r⟩ ⟨e :: rest, r⟩
  | close {name : String} {id : Nat} {e : Held} {rest : List Held} {r : Region} :
      Effect known c .closeUpvalue ⟨.bound name id :: e :: rest, r⟩ ⟨e :: rest, r⟩
  /-- A closure that may go anywhere. -/
  | closure {k : UInt16} {j : Nat} {d : Chunk} {held : List Held} {r : Region}
      (constant : c.constants[k.toNat]? = some (.chunk (.listed j))) (chunk : known[j]? = some d)
      (ordinary : d.isSet = false) :
      Effect known c (.closure k) ⟨held, r⟩ ⟨.value :: held, r⟩
  /-- A closure for the next instruction only. -/
  | special {k : UInt16} {j : Nat} {d : Chunk} {held : List Held} {r : Region}
      (constant : c.constants[k.toNat]? = some (.chunk (.listed j))) (chunk : known[j]? = some d) :
      Effect known c (.closure k) ⟨held, r⟩ ⟨.closure j :: held, r⟩
  | capture {source : Capture} {p : Point} : Effect known c (.capture source) p p
  | chain {j : Nat} {d : Chunk} {e : Held} {rest : List Held} {r : Region}
      (chunk : known[j]? = some d) (arity : d.arity = 0) (ordinary : d.isSet = false) :
      Effect known c .initChain ⟨.closure j :: e :: rest, r⟩ ⟨e :: rest, r⟩
  | set {n : UInt16} {j : Nat} {rest : List Held} {r : Region} :
      Effect known c (.testSet n) ⟨.closure j :: rest, r⟩ ⟨rest, r⟩
  | start {held : List Held} :
      Effect known c .multiVarStart ⟨held, .none⟩ ⟨held, .opened held.length⟩
  | finish {e : Held} {rest : List Held} (value : e.isValue) :
      Effect known c .multiVarEnd ⟨e :: rest, .opened rest.length⟩
        ⟨.count :: e :: rest, .counted rest.length⟩
  | validate {n : UInt8} {e : Held} {rest : List Held} (value : e.isValue) :
      Effect known c (.validate .multiReturnMatches)
        ⟨.byte n :: .count :: e :: rest, .counted rest.length⟩
        ⟨List.replicate n.toNat .value ++ rest, .none⟩

/-- What the operands of an instruction refer to; `width` is the number of variables that the
chunk has captured. A slot holds a variable, and it may be referred to under its name. -/
structure Fits (legal : Nat → String → Prop) (c : Chunk) (width : Nat) (p : Point) (i : Instruction) :
    Prop where
  name : ∀ n, i.name? = some n → (c.name? n).isSome
  constant : ∀ n, i = .pushConstant n →
    (∃ x, c.constants[n.toNat]? = some (.number x)) ∨ (∃ s, c.constants[n.toNat]? = some (.string s))
  slot : ∀ n, i.slot? = some n → ∃ name id, p.at? n.toNat = some (.bound name id) ∧ legal n.toNat name
  upvalue : ∀ n, i = .getUpvalue n ∨ i = .setUpvalue n ∨ i = .capture ⟨false, n⟩ → n.toNat < width
  results : ∀ n, i = .ret n → 1 ≤ n.toNat ∧ p.region = .none
  calm : i = .yield → p.region = .none

/-- Nothing but variables and values, and no count that is yet to be checked. -/
structure Point.Usual (p : Point) : Prop where
  held : ∀ e ∈ p.held, e.isValue ∨ e.isBound
  region : ∀ s, p.region ≠ .counted s

/-- Where an instruction may stand: what has been counted is checked at once, and a closure that is for the next
instruction only is taken by it; a region begins above variables, and none of them is dropped within it. -/
structure Suits (p : Point) (i : Instruction) : Prop where
  counted : ∀ s, p.region = .counted s →
    (∃ n, i = .pushByte n ∧ p.held.head? = some .count) ∨ i = .validate .multiReturnMatches
  handed : ∀ j, .closure j ∈ p.held → i = .initChain ∨ (∃ n, i = .testSet n) ∨ i.isCapture
  starts : i = .multiVarStart → ∀ e ∈ p.held, e.isBound
  drops : i = .pop ∨ i = .closeUpvalue → ∀ name id rest, p.held = .bound name id :: rest → p.region = .none

theorem Point.Usual.cons {e : Held} {rest : List Held} {r : Region} (h : Point.Usual ⟨rest, r⟩) (value : e.isValue) :
    Point.Usual ⟨e :: rest, r⟩ :=
  ⟨List.forall_mem_cons.mpr ⟨.inl value, h.held⟩, h.region⟩

theorem Point.Usual.tail {e : Held} {rest : List Held} {r : Region} (h : Point.Usual ⟨e :: rest, r⟩) :
    Point.Usual ⟨rest, r⟩ :=
  ⟨fun x hx => h.held x (.tail _ hx), h.region⟩

theorem Point.Usual.no_closure {p : Point} (h : p.Usual) (j : Nat) : .closure j ∉ p.held := fun hj =>
  (h.held _ hj).elim nofun nofun

/-- An instruction that neither begins a region nor drops a variable. -/
theorem Point.Usual.suits {p : Point} {i : Instruction} (h : p.Usual) (start : i ≠ .multiVarStart) (pop : i ≠ .pop)
    (close : i ≠ .closeUpvalue) : Suits p i where
  counted s hs := absurd hs (h.region s)
  handed j hj := absurd hj (h.no_closure j)
  starts hi := absurd hi start
  drops hi := hi.elim (absurd · pop) (absurd · close)

/-- An instruction for the closure on top. -/
theorem suits_handed {p : Point} {i : Instruction} (region : ∀ s, p.region ≠ .counted s)
    (takes : i = .initChain ∨ (∃ n, i = .testSet n) ∨ i.isCapture) : Suits p i where
  counted s hs := absurd hs (region s)
  handed _ _ := takes
  starts hi := by
    subst hi
    obtain hi | ⟨_, hi⟩ | hi := takes <;> cases hi
  drops hi := by
    obtain rfl | rfl := hi <;> obtain hi | ⟨_, hi⟩ | hi := takes <;> cases hi

/-- An instruction that only takes and leaves temporaries may stand wherever they are. -/
theorem suits_plain {i : Instruction} {takes gives : Nat} {τ ρ : List Held} {r : Region}
    (effect : i.effect = some (takes, gives)) (length : τ.length = takes) (values : ∀ e ∈ τ, e.isValue)
    (usual : Point.Usual ⟨τ ++ ρ, r⟩) : Suits ⟨τ ++ ρ, r⟩ i where
  counted s hs := absurd hs (usual.region s)
  handed j hj := absurd hj (usual.no_closure j)
  starts hi := by
    subst hi
    cases effect
  drops hi name id rest held := by
    obtain rfl | rfl := hi
    · cases effect
      obtain ⟨e, rfl⟩ := List.length_eq_one_iff.mp length
      cases held
      have := values _ (.head _)
      cases this
    · cases effect

end ScriptEngine
