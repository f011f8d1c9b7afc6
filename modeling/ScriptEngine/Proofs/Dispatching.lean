import ScriptEngine.Proofs.Building
import ScriptEngine.Proofs.Restricting

/-!
# Method calls and bound methods

A call of a method on a receiver looks the method up and calls it at once. The same
call can be made in two steps: the property is read, which binds a method to the
receiver, and what was read is called in the place of the receiver. Both come to the
same, whether a field or a static member is called, which may be anything, or a
method; and so do the two ways to call a method of a supertype.

To bind a method puts it on the heap, where it stays; nothing else differs.
-/
namespace ScriptEngine

/-- The world with another stack. -/
def World.onStack (w : World) (stack : Array Value) : World := { w with machine.stack := stack }

/-- The world with one more bound method on its heap. -/
def World.binding (w : World) (receiver method : Value) : World :=
  { w with heap := (w.heap.addBound receiver method).2 }

namespace Run

variable {α β : Type} {again : Reentry} {w w' : World} {base argc ref t : Nat} {r v m : Value} {name : String}

/-- The same outcome in another world. -/
def within (f : World → World) : EStateM.Result Halt World α → EStateM.Result Halt World α
  | .ok a w => .ok a (f w)
  | .error e w => .error e (f w)

/-- A property of the receiver that lies below so many arguments is read and called in its place. -/
def readAndCall (again : Reentry) (index : UInt16) (argc : UInt8) : Run Unit := do
  let base ← calleeSlot argc.toNat
  push (← slot base)
  plain again (.getProperty index)
  setSlot base (← pop)
  plain again (.call argc)

/-- A method of the supertype on top is bound to the receiver and called in its place. -/
def readSuperAndCall (again : Reentry) (index : UInt16) (argc : UInt8) : Run Unit := do
  let supertype ← pop
  let base ← calleeSlot argc.toNat
  push (← slot base)
  push supertype
  plain again (.getSuper index)
  setSlot base (← pop)
  plain again (.call argc)

/-! ## Slots -/

theorem calleeSlot_eq {b : Nat} (size : w.machine.stack.size = b + argc + 1) : calleeSlot argc w = .ok b w := by
  change (if argc < w.machine.stack.size then return w.machine.stack.size - (argc + 1)
    else fail .stackUnderflow : Run Nat) w = _
  rw [if_pos (by omega), size, Nat.add_assoc, Nat.add_sub_cancel]
  rfl

theorem pop_eq {s : Array Value} (on : w.machine.stack = s.push v) : pop w = .ok v (w.onStack s) :=
  pop_push on

theorem slot_eq (there : w.machine.stack[base]? = some v) : slot base w = .ok v w := by
  unfold slot
  rw [there]

theorem setSlot_eq (inside : base < w.machine.stack.size) (v : Value) : setSlot base v w =
    .ok () (w.onStack (w.machine.stack.setIfInBounds base v)) := by
  change (if base < w.machine.stack.size then modifyStack (·.setIfInBounds base v)
    else fail .stackUnderflow : Run Unit) w = _
  rw [if_pos inside]
  rfl

/-- What was there is put back. -/
theorem setIfInBounds_again {stack : Array Value} {i : Nat} {old : Value} (there : stack[i]? = some old)
    (v : Value) : (stack.setIfInBounds i v).setIfInBounds i old = stack := by
  apply Array.ext_getElem?
  intro j
  obtain ⟨inside, rfl⟩ := Array.getElem?_eq_some_iff.mp there
  rcases Decidable.em (i = j) with rfl | other
  · rw [Array.getElem?_setIfInBounds_self_of_lt (by simpa using inside), Array.getElem?_eq_getElem inside]
  · rw [Array.getElem?_setIfInBounds_ne other, Array.getElem?_setIfInBounds_ne other]

/-! ## Calls of methods -/

/-- A method is called, with its receiver in its slot. -/
def callMethod (again : Reentry) (m : Value) (argc base : Nat) : Run Unit :=
  match m with
  | .closure ref => callClosure ref argc base
  | .native ref _ => do callNative (← native again ref) argc base
  | v => fail (.notCallable v.kindName)

/-- A bound method that stands in the place of its receiver is called with it. -/
theorem callInstead_bound (size : w.machine.stack.size = base + argc + 1)
    (there : w.machine.stack[base]? = some r) (bound : w.heap.boundMethod ref = ⟨r, m⟩) :
    callInstead again (.bound ref) argc base w = callMethod again m argc base w := by
  have inside : base < w.machine.stack.size := by omega
  unfold callInstead
  rw [bind_of_ok (setSlot_eq inside _)]
  generalize hw : w.onStack (w.machine.stack.setIfInBounds base (.bound ref)) = w₁
  have stack : w₁.machine.stack = w.machine.stack.setIfInBounds base (.bound ref) := hw ▸ rfl
  have replaced : w₁.machine.stack[base]? = some (.bound ref) := by
    rw [stack]
    exact Array.getElem?_setIfInBounds_self_of_lt inside
  have bound : w₁.heap.boundMethod ref = ⟨r, m⟩ := hw ▸ bound
  unfold callTop
  rw [bind_of_ok (calleeSlot_eq (b := base) (by simpa [stack] using size)),
    bind_of_ok (slot_eq replaced)]
  dsimp only
  rw [bind_of_ok (x := heap) (u := w₁) rfl, bound]
  dsimp only
  rw [bind_of_ok (setSlot_eq (by simpa [stack] using inside) r)]
  have restored : w₁.onStack (w₁.machine.stack.setIfInBounds base r) = w := by
    rw [stack, setIfInBounds_again there]
    subst hw
    rfl
  rw [restored]
  cases m <;> rfl

@[simp] theorem onStack_onStack (stack stack' : Array Value) : (w.onStack stack).onStack stack' = w.onStack stack' :=
  rfl

@[simp] theorem machine_binding : (w.binding r m).machine = w.machine := rfl

theorem boundMethod_binding : (w.binding r m).heap.boundMethod w.heap.bounds.size = ⟨r, m⟩ := by
  change (w.heap.bounds.push ⟨r, m⟩)[w.heap.bounds.size]?.getD _ = _
  rw [Array.getElem?_push_size]
  rfl

theorem name_eq {index : UInt16} (named : w.nameAt index = some name) : Run.name index w = .ok name w := by
  unfold World.nameAt at named
  cases top : w.machine.frames.back? with
  | none =>
    rw [top] at named
    cases named
  | some f =>
    rw [top] at named
    have chunked : chunk w = .ok (w.heap.code f.closure) w := bind_of_ok (frame_eq top) _
    dsimp only at named
    unfold Run.name
    rw [bind_of_ok chunked, named]
    rfl

/-- A frame for a closure does not depend on what is bound. -/
theorem callClosure_binding : callClosure ref argc base (w.binding r m) =
    within (·.binding r m) (callClosure ref argc base w) := by
  change (if argc = (w.heap.code ref).arity then pushFrame { closure := ref, base }
    else fail (.arity (w.heap.code ref).name (w.heap.code ref).arity argc)) (w.binding r m) =
    within _ ((if argc = (w.heap.code ref).arity then pushFrame { closure := ref, base }
    else fail (.arity (w.heap.code ref).name (w.heap.code ref).arity argc)) w)
  split
  · change (if w.machine.frames.size < w.machine.settings.maxFrames then
      modifyMachine fun m => { m with frames := m.frames.push { closure := ref, base } }
      else fail (.stackOverflow w.machine.settings.maxFrames) : Run Unit) (w.binding r m) =
      within _ ((if w.machine.frames.size < w.machine.settings.maxFrames then
      modifyMachine fun m => { m with frames := m.frames.push { closure := ref, base } }
      else fail (.stackOverflow w.machine.settings.maxFrames) : Run Unit) w)
    split <;> rfl
  · rfl

/-! ## Reading and calling -/

/-- What can be read as a property, and the world in which that leaves off. -/
inductive Reads (w : World) (name : String) : Value → Value → World → Prop
  | field {ref : Nat} {v : Value} (found : (w.heap.object ref).fields.get? name = some v) :
      Reads w name (.object ref) v w
  | method {ref : Nat} {m : Value} (unshadowed : (w.heap.object ref).fields.get? name = none)
      (found : w.heap.method? (w.heap.object ref) name = some m) :
      Reads w name (.object ref) (.bound w.heap.bounds.size) (w.binding (.object ref) m)
  | member {ref : Nat} {v : Value} (found : (w.heap.userType ref).static? name = some v) :
      Reads w name (.userType ref) v w

theorem reads_iff : Reads w name r v w' ↔ property r name w = .ok v w' := by
  constructor
  · intro reads
    unfold property
    rw [bind_of_ok (x := heap) (u := w) rfl]
    cases reads with
    | field found => simp only [found]; rfl
    | method unshadowed found => simp only [unshadowed, found]; rfl
    | member found => simp only [found]; rfl
  · intro read
    obtain ⟨h, w₁, hh, read⟩ := bind_ok (x := heap) read
    cases hh
    cases r with
    | object ref =>
      dsimp only at read
      cases field : (w.heap.object ref).fields.get? name with
      | some u =>
        rw [field] at read
        cases read
        exact .field field
      | none =>
        cases found : w.heap.method? (w.heap.object ref) name with
        | some m =>
          rw [field, found] at read
          cases read
          exact .method field found
        | none =>
          rw [field, found] at read
          cases read
    | userType ref =>
      dsimp only at read
      cases found : (w.heap.userType ref).static? name with
      | some u =>
        rw [found] at read
        cases read
        exact .member found
      | none =>
        rw [found] at read
        cases read
    | _ => cases read

/-- What is read does not depend on the stack. -/
theorem Reads.onStack (reads : Reads w name r v w') (stack : Array Value) :
    Reads (w.onStack stack) name r v (w'.onStack stack) := by
  cases reads with
  | field found => exact .field found
  | method unshadowed found => exact .method unshadowed found
  | member found => exact .member found

theorem Reads.machine (reads : Reads w name r v w') : w'.machine = w.machine := by
  cases reads <;> rfl

theorem getProperty_eq {index : UInt16} {stack : Array Value} (named : w.nameAt index = some name)
    (reads : Reads w name r v w') : getProperty index (w.onStack (stack.push r)) =
      .ok () (w'.onStack (stack.push v)) := by
  have named : (w.onStack (stack.push r)).nameAt index = some name := named
  unfold getProperty
  rw [bind_of_ok (name_eq named), bind_of_ok (pop_eq (s := stack) rfl),
    onStack_onStack, bind_of_ok (reads_iff.mp (reads.onStack stack))]
  rfl

theorem readAndCall_eq {index : UInt16} {argc : UInt8} (named : w.nameAt index = some name)
    (size : w.machine.stack.size = base + argc.toNat + 1) (there : w.machine.stack[base]? = some r)
    (reads : Reads w name r v w') :
    readAndCall again index argc w = callInstead again v argc.toNat base w' := by
  have got : plain again (.getProperty index) (w.onStack (w.machine.stack.push r)) =
      .ok () (w'.onStack (w.machine.stack.push v)) := getProperty_eq named reads
  unfold readAndCall
  rw [bind_of_ok (calleeSlot_eq size), bind_of_ok (slot_eq there)]
  rw [bind_of_ok (x := push r) (u := w.onStack (w.machine.stack.push r)) rfl, bind_of_ok got,
    bind_of_ok (pop_eq rfl)]
  have machine := reads.machine
  obtain ⟨h', n', machine'⟩ := w'
  subst machine
  rfl

theorem getSuper_eq {index : UInt16} {stack : Array Value} (named : w.nameAt index = some name)
    (found : (w.heap.userType t).method? name = some m) :
    getSuper index (w.onStack ((stack.push r).push (.userType t))) =
      .ok () ((w.binding r m).onStack (stack.push (.bound w.heap.bounds.size))) := by
  have named : (w.onStack ((stack.push r).push (.userType t))).nameAt index = some name := named
  have popped : popType "super" (w.onStack ((stack.push r).push (.userType t))) =
      .ok t (w.onStack (stack.push r)) := by
    unfold popType
    rw [bind_of_ok (pop_eq (s := stack.push r) rfl)]
    rfl
  unfold getSuper
  rw [bind_of_ok (name_eq named), bind_of_ok popped, bind_of_ok (pop_eq (s := stack) rfl)]
  have method : (((w.onStack (stack.push r)).onStack stack).heap.userType t).method? name = some m := found
  rw [bind_of_ok (x := userType t) rfl, method]
  rfl

theorem readSuperAndCall_eq {index : UInt16} {argc : UInt8} {stack : Array Value}
    (named : w.nameAt index = some name) (on : w.machine.stack = stack.push (.userType t))
    (size : stack.size = base + argc.toNat + 1) (there : stack[base]? = some r)
    (found : (w.heap.userType t).method? name = some m) :
    readSuperAndCall again index argc w = callInstead again (.bound w.heap.bounds.size) argc.toNat base
      ((w.onStack stack).binding r m) := by
  have got : plain again (.getSuper index) (w.onStack ((stack.push r).push (.userType t))) =
      .ok () ((w.binding r m).onStack (stack.push (.bound w.heap.bounds.size))) := getSuper_eq named found
  unfold readSuperAndCall
  rw [bind_of_ok (pop_eq on), bind_of_ok (calleeSlot_eq (w := w.onStack stack) size),
    bind_of_ok (slot_eq (w := w.onStack stack) there)]
  rw [bind_of_ok (x := push r) (u := w.onStack (stack.push r)) rfl,
    bind_of_ok (x := push (.userType t)) (u := w.onStack ((stack.push r).push (.userType t))) rfl,
    bind_of_ok got, bind_of_ok (pop_eq rfl)]
  rfl

/-! ## Both ways -/

theorem callMethod_binding (closure : m = .closure ref) : callMethod again m argc base (w.binding r m) =
    within (·.binding r m) (callMethod again m argc base w) := by
  subst closure
  exact callClosure_binding

/-- A method that is a closure or a native is called at once. -/
theorem invoke_method {index : UInt16} (named : w.nameAt index = some name)
    (size : w.machine.stack.size = base + argc + 1) (there : w.machine.stack[base]? = some (.object ref))
    (unshadowed : (w.heap.object ref).fields.get? name = none)
    (found : w.heap.method? (w.heap.object ref) name = some m)
    (plain : (∃ c, m = .closure c) ∨ ∃ n shown, m = .native n shown) :
    invoke again index argc w = callMethod again m argc base w := by
  unfold invoke
  rw [bind_of_ok (name_eq named), bind_of_ok (calleeSlot_eq size), bind_of_ok (slot_eq there),
    bind_of_ok (x := heap) (u := w) rfl]
  dsimp only
  rw [unshadowed, found]
  obtain ⟨c, rfl⟩ | ⟨n, shown, rfl⟩ := plain <;> rfl

/-- A field is called in the place of the receiver. -/
theorem invoke_field {index : UInt16} (named : w.nameAt index = some name)
    (size : w.machine.stack.size = base + argc + 1) (there : w.machine.stack[base]? = some (.object ref))
    (found : (w.heap.object ref).fields.get? name = some v) :
    invoke again index argc w = callInstead again v argc base w := by
  unfold invoke
  rw [bind_of_ok (name_eq named), bind_of_ok (calleeSlot_eq size), bind_of_ok (slot_eq there),
    bind_of_ok (x := heap) (u := w) rfl]
  dsimp only
  rw [found]

/-- So is a static member. -/
theorem invoke_static {index : UInt16} (named : w.nameAt index = some name)
    (size : w.machine.stack.size = base + argc + 1) (there : w.machine.stack[base]? = some (.userType ref))
    (found : (w.heap.userType ref).static? name = some v) :
    invoke again index argc w = callInstead again v argc base w := by
  unfold invoke
  rw [bind_of_ok (name_eq named), bind_of_ok (calleeSlot_eq size), bind_of_ok (slot_eq there),
    bind_of_ok (x := heap) (u := w) rfl]
  dsimp only
  rw [found]

theorem superInvoke_eq {index : UInt16} {stack : Array Value} {c : Nat} (named : w.nameAt index = some name)
    (on : w.machine.stack = stack.push (.userType t)) (size : stack.size = base + argc + 1)
    (found : (w.heap.userType t).method? name = some (.closure c)) :
    superInvoke index argc w = callClosure c argc base (w.onStack stack) := by
  have popped : popType "super" w = .ok t (w.onStack stack) := by
    unfold popType
    rw [bind_of_ok (pop_eq on)]
    rfl
  unfold superInvoke
  rw [bind_of_ok (name_eq named), bind_of_ok popped, bind_of_ok (calleeSlot_eq (w := w.onStack stack) size),
    bind_of_ok (x := userType t) (a := w.heap.userType t) (u := w.onStack stack) rfl, found]

/-- **Method calls.** Where a property can be read, and what the type of the receiver has under its
name is a closure or a native, to read it and to call what was read in the place of the receiver is to
invoke it where the reading leaves off. That is the same world, or it has one more bound method; if the
method is a closure, the outcomes in the two worlds differ in nothing else. To call a closure as a
method of a supertype has the outcome of a call of the bound method, but for the bound method. -/
theorem invoke_agrees_with_bound_method :
    (∀ (again : Reentry) (index : UInt16) (argc : UInt8) (w w' : World) (base : Nat) (name : String)
      (r v : Value), w.nameAt index = some name → w.machine.stack.size = base + argc.toNat + 1 →
      w.machine.stack[base]? = some r →
      (∀ ref m, r = .object ref → w.heap.method? (w.heap.object ref) name = some m →
        (∃ c, m = .closure c) ∨ ∃ n shown, m = .native n shown) →
      property r name w = .ok v w' →
      readAndCall again index argc w = plain again (.invoke index argc) w' ∧
      (w' = w ∨ ∃ ref m, r = .object ref ∧ w.heap.method? (w.heap.object ref) name = some m ∧
        w' = w.binding r m ∧ ∀ c, m = .closure c →
          readAndCall again index argc w = within (·.binding r m) (plain again (.invoke index argc) w))) ∧
    ∀ (again : Reentry) (index : UInt16) (argc : UInt8) (w : World) (stack : Array Value) (base t c : Nat)
      (name : String) (r : Value), w.nameAt index = some name → w.machine.stack = stack.push (.userType t) →
      stack.size = base + argc.toNat + 1 → stack[base]? = some r →
      (w.heap.userType t).method? name = some (.closure c) →
      readSuperAndCall again index argc w =
        within (·.binding r (.closure c)) (plain again (.superInvoke index argc) w) := by
  constructor
  · intro again index argc w w' base name r v named size there methods read
    have reads := reads_iff.mpr read
    rw [readAndCall_eq named size there reads]
    cases reads with
    | field found => exact ⟨(invoke_field named size there found).symm, .inl rfl⟩
    | member found => exact ⟨(invoke_static named size there found).symm, .inl rfl⟩
    | @method ref m unshadowed found =>
      have plain := methods ref m rfl found
      have named' : (w.binding (.object ref) m).nameAt index = some name := named
      rw [callInstead_bound (w := w.binding (.object ref) m) size there boundMethod_binding]
      refine ⟨(invoke_method named' size there unshadowed found plain).symm, .inr ⟨ref, m, rfl, found, rfl, ?_⟩⟩
      intro c closure
      rw [callMethod_binding closure]
      exact congrArg _ (invoke_method named size there unshadowed found plain).symm
  · intro again index argc w stack base t c name r named on size there found
    rw [readSuperAndCall_eq named on size there found]
    have bound : ((w.onStack stack).binding r (.closure c)).heap.boundMethod w.heap.bounds.size = ⟨r, .closure c⟩ :=
      boundMethod_binding (w := w.onStack stack)
    rw [callInstead_bound (w := (w.onStack stack).binding r (.closure c)) size there bound, callMethod_binding rfl]
    exact congrArg _ (superInvoke_eq named on size found).symm

/-- An instance of a type with a method lies below an argument. -/
def dispatching : World where
  heap := {
    scripts := #[{
      hash := "", top := .listed 0, diagnostics := #[]
      chunks := #[
        { name := "main", source := "", chain := "", kind := .script, constants := #[.string "m"] },
        { name := "m", source := "", chain := "", kind := .method, arguments := #[0] }] }]
    closures := #[⟨⟨0, 0⟩, #[]⟩, ⟨⟨0, 1⟩, #[]⟩]
    types := #[{ name := "T", kind := .classKind, methods := .ofList [("m", .closure 1)] }]
    objects := #[⟨some 0, ∅, {}⟩] }
  machine := { frames := #[{ closure := 0, base := 0 }], stack := #[.object 0, .bool true] }

theorem invoke_agrees_with_bound_method_dispatching :
    readAndCall unable 0 1 dispatching =
      within (·.binding (.object 0) (.closure 1)) (plain unable (.invoke 0 1) dispatching) ∧
    readSuperAndCall unable 0 1 (dispatching.onStack #[.object 0, .bool true, .userType 0]) =
      within (·.binding (.object 0) (.closure 1))
        (plain unable (.superInvoke 0 1) (dispatching.onStack #[.object 0, .bool true, .userType 0])) := by
  have named : dispatching.nameAt 0 = some "m" := by decide +kernel
  have found : dispatching.heap.method? (dispatching.heap.object 0) "m" = some (.closure 1) := by decide +kernel
  have unshadowed : (dispatching.heap.object 0).fields.get? "m" = none := by decide +kernel
  constructor
  · have agrees := (invoke_agrees_with_bound_method.1 unable 0 1 dispatching _ 0 "m" (.object 0) _ named rfl rfl
      (fun ref m here method => by
        cases here
        rw [found] at method
        exact .inl ⟨1, (Option.some.inj method).symm⟩)
      (reads_iff.mp (.method unshadowed found))).2
    obtain same | ⟨ref, m, here, method, -, agrees⟩ := agrees
    · have grown := congrArg (·.heap.bounds.size) same
      cases grown
    · cases here
      rw [found] at method
      obtain rfl := Option.some.inj method
      exact agrees 1 rfl
  · exact invoke_agrees_with_bound_method.2 unable 0 1 _ #[.object 0, .bool true] 0 0 1 "m" (.object 0) named rfl
      rfl rfl found

end Run

end ScriptEngine
