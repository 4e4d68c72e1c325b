import ProtoScript.Evaluation.Engine
/-!
# Names and references

Reading names and assigning to them, and the places that an assignment can write to.
-/

namespace ProtoScript

/-- A place that can be read and written: its parts are evaluated once and serve both. -/
inductive Reference where
  | name (name : String)
  | property (base : Value) (key : String)
  deriving Inhabited

namespace Eval

def lookupName (name : String) (scope : ScopeId) : Eval Value := do
  match ← read fun s => s.lookup scope name with
  | .ok value => pure value
  | .error .uninitialized => fault (.uninitialized name)
  | .error _ => fault (.notDefined name)

/-- Assigns to a name.  In sloppy code a name that nobody binds becomes a global variable. -/
def assignName (name : String) (value : Value) (scope : ScopeId) : Eval Unit := do
  let strict ← isStrict scope
  match ← updateGet fun s => s.assign scope name value with
  | .ok () => pure ()
  | .error .unresolved =>
    if strict then fault (.notDefined name)
    else update fun s => s.bind .global name value
  | .error .readOnly => if strict then fault (.readOnlyName name)
  | .error .constant | .error .selfName => fault (.constantName name)
  | .error .uninitialized => fault (.uninitialized name)

def lookupThis (scope : ScopeId) : Eval Value :=
  read fun s => (s.lookup? scope "this").getD .undefined

def getReference (r : Reference) (scope : ScopeId) : Eval Value :=
  match r with
  | .name name => lookupName name scope
  | .property base key => getMember base key

def putReference (r : Reference) (value : Value) (scope : ScopeId) : Eval Unit :=
  match r with
  | .name name => assignName name value scope
  | .property base key => do setMember base key value (← isStrict scope)

end Eval

namespace Engine

open Eval

def memberReference (e : Engine) (object : Expr) (key : MemberKey) (scope : ScopeId) :
    Eval (Value × String) := do
  let base ← e.evaluate object scope
  match key with
  | .dot name => return (base, name)
  | .computed expression =>
    let key ← e.evaluate expression scope
    if base.isNullish then fault (.readOfNullish base key.toString)
    else return (base, ← e.toUnicode key)

def reference (e : Engine) (target : Expr) (scope : ScopeId) : Eval Reference := do
  match target with
  | .identifier name => return .name name
  | .member object key =>
    let (base, key) ← e.memberReference object key scope
    return .property base key
  | _ => fault .invalidTarget

def propertyKey (e : Engine) (key : PropertyKey) (scope : ScopeId) : Eval String := do
  match key with
  | .identifier name => return name
  | .string text => return text
  | .number value => return Number.display value
  | .computed expression => e.toUnicode (← e.evaluate expression scope)

/-- Evaluates an expression.  A function without a name takes the given one. -/
def evaluateNamed (e : Engine) (expression : Expr) (name : String) (scope : ScopeId) :
    Eval Value := do
  let value ← e.evaluate expression scope
  if expression.isAnonymousFunction then update fun s => s.nameFunction value name
  return value

end Engine

/-!
### Declarations

Before the statements of a body run, the names that they declare are bound: `var` names and
functions in one scope, `let` and `const` names in another or the same.
-/

def DeclarationKind.bindingKind : DeclarationKind → BindingKind
  | .variable => .variable
  | .letBound => .letBound
  | .constant => .constant

namespace Eval

def newClosure (definition : FunctionDef) (scope : ScopeId) : Eval Value :=
  newFunction (.closure definition scope)

/-- Binds the names of a `let` or `const` declaration without a value. -/
def declareLexical (d : Declaration) (scope : ScopeId) : Eval Unit :=
  update fun s => s.declareAll scope d.boundNames d.kind.bindingKind

/-- Binds what the statements of a list declare themselves: functions, with their value, in one
scope and `let` and `const` names in another.  Functions see the latter. -/
def hoist (functions lexicals : ScopeId) (kind : BindingKind) : List Stmt → Eval Unit
  | [] => pure ()
  | .function definition :: rest => do
    let function ← newClosure definition lexicals
    match definition.name with
    | some name => update fun s => (s.declare functions name kind).bind functions name function
    | none => pure ()
    hoist functions lexicals kind rest
  | .declaration d :: rest => do
    if d.kind.isLexical then declareLexical d lexicals
    hoist functions lexicals kind rest
  | _ :: rest => hoist functions lexicals kind rest

/-- Binds what the body of a program, a function or an evaluated text declares.  Its `var` names are
found at any depth. -/
def hoistBody (body : List Stmt) (vars lexicals : ScopeId) : Eval Unit := do
  update fun s => s.declareAll vars (Stmt.varNamesOfList body) .variable
  hoist vars lexicals .variable body

def hoistBlock (body : List Stmt) (scope : ScopeId) : Eval Unit := hoist scope scope .letBound body

end Eval

end ProtoScript
