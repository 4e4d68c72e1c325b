import ProtoScript.Fault
import ProtoScript.Store.Allocation
/-!
# The machine

The state of a running program, and computations on it.  A computation ends with a result, completes
abruptly — an exception on its way to a handler, or a jump on its way to its target — or is cut off
because its bound on steps is exhausted.
-/

namespace ProtoScript

/-- What does not change while a program runs. -/
structure Settings where
  maxCallDepth : Nat := 400
  harness : Bool := true
  strict : Bool := false
  deriving Inhabited

structure Machine where
  store : Store
  settings : Settings
  /-- The constructor that `new` is about to call, until the call has taken note of it. -/
  newTarget : Option Value
  /-- The number of calls under way. -/
  callDepth : Nat
  output : String
  deriving Inhabited

inductive Abrupt where
  | thrown (value : Value)
  | returned (value : Value)
  | broke (label : Option String)
  | continued (label : Option String)
  deriving Inhabited

/-- Why a computation ends without a result. -/
inductive Stop where
  | abrupt (completion : Abrupt)
  | exhausted
  deriving Inhabited

abbrev Eval := EStateM Stop Machine

namespace Eval

variable {α : Type}

@[inline] def read (f : Store → α) : Eval α := fun m => .ok (f m.store) m

@[inline] def updateGet (f : Store → α × Store) : Eval α := modifyGet fun m =>
  let (value, store) := f m.store
  (value, { m with store })

@[inline] def update (f : Store → Store) : Eval Unit := modify fun m =>
  { m with store := f m.store }

@[inline] def complete (c : Abrupt) : Eval α := throw (.abrupt c)

@[inline] def resume : Except Abrupt α → Eval α
  | .ok value => pure value
  | .error c => complete c

/-- Runs a computation and hands over how it completed.  One that is cut off stays cut off. -/
@[inline] def attempt (x : Eval α) : Eval (Except Abrupt α) := fun m =>
  match x m with
  | .ok value m => .ok (.ok value) m
  | .error (.abrupt c) m => .ok (.error c) m
  | .error .exhausted m => .error .exhausted m

@[inline] def exhausted : Eval α := throw .exhausted

def allocate (r : ObjectRecord) : Eval Value :=
  updateGet fun s =>
    let (id, s) := s.allocate r
    (.object id, s)

def fault (f : Fault) : Eval α := do
  let error ← allocate (.error f.kind f.message)
  complete (.thrown error)

def newArray (elements : Array (Option Value)) : Eval Value := allocate (.array elements)

def newFullArray (values : List Value) : Eval Value := newArray (values.map some).toArray

def newFunction (callable : Callable) : Eval Value :=
  updateGet fun s =>
    let (id, s) := s.newFunction callable
    (.object id, s)

def newScope (parent : ScopeId) (kind : ScopeKind) : Eval ScopeId :=
  updateGet fun s => s.newScope (some parent) kind

/-- Makes a scope inside another for code that is strict or not whatever is around it. -/
def openScope (parent : ScopeId) (kind : ScopeKind) (strict : Bool) : Eval ScopeId :=
  updateGet fun s =>
    let (id, s) := s.newScope (some parent) kind
    (id, s.modifyScope id fun scope => { scope with strict })

def isStrict (scope : ScopeId) : Eval Bool := read fun s => s.isStrict scope

def setStrict (scope : ScopeId) (strict : Bool) : Eval Unit :=
  update fun s => s.modifyScope scope fun scope => { scope with strict }

/-- The constructor that `new` is about to call; from now on there is none. -/
def takeNewTarget : Eval (Option Value) := modifyGet fun m =>
  (m.newTarget, { m with newTarget := none })

def setNewTarget (target : Option Value) : Eval Unit := modify fun m =>
  { m with newTarget := target }

def writeLine (line : String) : Eval Unit := modify fun m =>
  { m with output := m.output ++ line ++ "\n" }

/-!
### Step by step

What a computation that is put together from others comes to on one machine.
-/

section Steps

variable {α β : Type} {x : Eval α} {a : α} {m m' : Machine} {stop : Stop}

theorem bind_of_ok (h : x m = .ok a m') (f : α → Eval β) : (x >>= f) m = f a m' := by
  simp only [Bind.bind, EStateM.bind, h]

theorem bind_of_error (h : x m = .error stop m') (f : α → Eval β) :
    (x >>= f) m = .error stop m' := by
  simp only [Bind.bind, EStateM.bind, h]

/-- A computation that ends normally has done its first part so, and then the rest. -/
theorem ok_of_bind {f : α → Eval β} {b : β} (h : (x >>= f) m = .ok b m') :
    ∃ a m₁, x m = .ok a m₁ ∧ f a m₁ = .ok b m' := by
  cases hx : x m with
  | ok a m₁ => exact ⟨a, m₁, rfl, bind_of_ok hx f ▸ h⟩
  | error stop m₁ =>
    rw [bind_of_error hx] at h
    cases h

theorem attempt_of_ok (h : x m = .ok a m') : attempt x m = .ok (.ok a) m' := by
  simp only [attempt, h]

theorem attempt_of_abrupt {c : Abrupt} (h : x m = .error (.abrupt c) m') :
    attempt x m = .ok (.error c) m' := by
  simp only [attempt, h]

theorem attempt_of_exhausted (h : x m = .error .exhausted m') :
    attempt x m = .error .exhausted m' := by
  simp only [attempt, h]

theorem attempt_cases (x : Eval α) (m : Machine) :
    (∃ m', x m = .error .exhausted m') ∨ ∃ outcome m', attempt x m = .ok outcome m' := by
  cases hx : x m with
  | ok a m' => exact .inr ⟨_, m', attempt_of_ok hx⟩
  | error stop m' =>
    cases stop with
    | abrupt c => exact .inr ⟨_, m', attempt_of_abrupt hx⟩
    | exhausted => exact .inl ⟨m', rfl⟩

end Steps

end Eval

end ProtoScript
