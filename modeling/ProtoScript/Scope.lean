import ProtoScript.OrderedMap
import ProtoScript.Value
/-!
# Scopes and bindings

A scope binds names to values.  Each binding has a kind, which says who may write to it, and is
initialized or not; reading or writing one that is not is an error of its own.
-/

namespace ProtoScript

structure ScopeId where
  index : Nat
  deriving DecidableEq, Inhabited, Repr

inductive ScopeKind where
  | block
  /-- Holds parameters, `this` and perhaps an arguments object. -/
  | parameters (argumentsObject : Bool)
  | function
  | eval
  | global
  deriving DecidableEq, Inhabited, Repr

/-- Whether `var` declarations inside come to stand in a scope of this kind.  Only blocks pass them
on outward. -/
def ScopeKind.holdsVars (k : ScopeKind) : Bool := k != .block

inductive BindingKind where
  | variable
  | letBound
  | constant
  | readOnly
  /-- Nobody: a function expression's own name.  The attempt is an error if the binding is
  guarded and has no effect otherwise. -/
  | selfName (guarded : Bool)
  deriving DecidableEq, Inhabited, Repr

structure Binding where
  value : Value
  kind : BindingKind
  initialized : Bool
  deriving Inhabited

inductive BindingError where
  | unresolved
  | uninitialized
  | constant
  | readOnly
  | selfName
  deriving DecidableEq, Inhabited, Repr

namespace Binding

def read (b : Binding) : Except BindingError Value :=
  if b.initialized then .ok b.value else .error .uninitialized

def write (b : Binding) (value : Value) : Except BindingError Binding :=
  if b.initialized then
    match b.kind with
    | .variable | .letBound => .ok { b with value }
    | .constant => .error .constant
    | .readOnly => .error .readOnly
    | .selfName false => .ok b
    | .selfName true => .error .selfName
  else .error .uninitialized

end Binding

structure Scope where
  bindings : NameMap Binding
  parent : Option ScopeId
  strict : Bool
  kind : ScopeKind
  deriving Inhabited

namespace Scope

/-- Binds a name.  A variable starts out as `undefined`, everything else uninitialized.  A name that
is bound already stays as it is if it is declared as a variable again, and is bound anew
otherwise. -/
def declare (s : Scope) (name : String) (kind : BindingKind) : Scope :=
  if kind = .variable ∧ s.bindings.contains name then s
  else
    { s with bindings := s.bindings.insert name ⟨.undefined, kind, decide (kind = .variable)⟩ }

/-- Gives a binding its value, whatever its kind.  A name that is not bound becomes a variable. -/
def bind (s : Scope) (name : String) (value : Value) : Scope :=
  let kind := ((s.bindings.find? name).map Binding.kind).getD .variable
  { s with bindings := s.bindings.insert name ⟨value, kind, true⟩ }

def hasOwn (s : Scope) (name : String) : Bool := s.bindings.contains name

end Scope

end ProtoScript
