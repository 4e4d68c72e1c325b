import ProtoScript.Machine
/-!
# Tasks and engines

The rules of evaluation are written one level at a time: a rule that needs a nested evaluation hands
a task to an engine.  An engine carries tasks out down to some depth of nesting and grants loops a
number of rounds; the rules tied to themselves form the engines that are used.
-/

namespace ProtoScript

/-- What is nested in the evaluation of something else. -/
inductive Task where
  | evaluate (expression : Expr) (scope : ScopeId)
  /-- Executes a statement that stands directly behind some labels. -/
  | execute (statement : Stmt) (scope : ScopeId) (labels : List String)
  /-- Binds a pattern to a value.  With `fresh`, its names are given their first value in the scope
  itself; without it they are assigned to. -/
  | bind (pattern : Pattern) (value : Value) (scope : ScopeId) (fresh : Bool)
  | call (function receiver : Value) (arguments : List Value)
  | closure (definition : FunctionDef) (scope : ScopeId) (function receiver : Value)
      (arguments : List Value)
  /-- Runs a native function, which may look whether `new` called it. -/
  | native (function : Native) (receiver : Value) (arguments : List Value)
  | construct (constructor : Value) (arguments : List Value)
  | directEval (text : Value) (scope : ScopeId)
  /-- Evaluates a text in the global scope. -/
  | indirectEval (text : Value)
  | program (program : Program)

/-- What carries tasks out, with the number of rounds that a loop may take. -/
structure Engine where
  rounds : Nat
  run : Task → Eval Value

namespace Engine

@[inline] def evaluate (e : Engine) (expression : Expr) (scope : ScopeId) : Eval Value :=
  e.run (.evaluate expression scope)

@[inline] def execute (e : Engine) (statement : Stmt) (scope : ScopeId) : Eval Value :=
  e.run (.execute statement scope [])

@[inline] def bind (e : Engine) (pattern : Pattern) (value : Value) (scope : ScopeId)
    (fresh : Bool) : Eval Value :=
  e.run (.bind pattern value scope fresh)

@[inline] def call (e : Engine) (function receiver : Value) (arguments : List Value) : Eval Value :=
  e.run (.call function receiver arguments)

end Engine

/-- The functions that the embedding program provides, by their names: what each does with its
receiver and its arguments. -/
abbrev Host := String → Engine → Value → List Value → Eval Value

def Host.none : Host := fun _ _ _ _ => pure .undefined

/-!
### Conversion of objects

Objects become primitive values by running their methods, and primitive values become objects by
being wrapped.
-/

/-- What a primitive value is wanted for. -/
inductive Hint where
  | default
  | number
  | string
  deriving DecidableEq, Inhabited, Repr

def Hint.methods : Hint → List String
  | .string => ["toString", "valueOf"]
  | _ => ["valueOf", "toString"]

def Text.property? (t : Text) (key : String) : Option Value :=
  if key = "length" then some (.ofNat t.size)
  else ((Number.arrayIndex? key).bind t.unitAt?).map .string

/-- What a primitive value has at a key: the property of a string, or else what it inherits. -/
def Store.getOfPrimitive (s : Store) (v : Value) (key : String) : Value :=
  let own :=
    match v with
    | .string t => t.property? key
    | _ => none
  match own, v.primitivePrototype? with
  | some value, _ => value
  | none, some prototype => s.get prototype key
  | none, none => .undefined

namespace Eval

def getMember (base : Value) (key : String) : Eval Value :=
  match base with
  | .undefined | .null => fault (.readOfNullish base key)
  | .object id => read fun s => s.get id key
  | _ => read fun s => s.getOfPrimitive base key

/-- Assigns to a property of any value.  A refused assignment is an error in strict code. -/
def setMember (base : Value) (key : String) (value : Value) (strict : Bool) : Eval Unit :=
  match base with
  | .undefined | .null => fault (.writeToNullish base key)
  | .object id => do
    let stored ← updateGet fun s => s.set id key value
    if !stored && strict then fault (.readOnlyProperty key)
  | _ => do
    if strict then fault (.propertyOnPrimitive key (← read fun s => s.typeOf base))

def toObject (v : Value) : Eval Value :=
  match v with
  | .object _ => pure v
  | .undefined | .null => fault (.noObject v)
  | _ => allocate (.wrapper v)

end Eval

namespace Engine

open Eval

/-- Tries methods of an object until one gives a primitive value.  One that completes in another way
than by a result or an exception counts as giving none. -/
def tryMethods (e : Engine) (v : Value) : List String → Eval Value
  | [] => fault .noPrimitive
  | name :: rest => do
    let method ← getMember v name
    if ← read fun s => s.isCallable method then
      match ← attempt (e.call method v []) with
      | .ok result => if result.isObject then e.tryMethods v rest else pure result
      | .error (.thrown error) => complete (.thrown error)
      | .error _ => e.tryMethods v rest
    else e.tryMethods v rest

def toPrimitive (e : Engine) (v : Value) (hint : Hint) : Eval Value :=
  if v.isObject then e.tryMethods v hint.methods else pure v

def toNumber (e : Engine) (v : Value) : Eval Float :=
  return (← e.toPrimitive v .number).toNumber

def toText (e : Engine) (v : Value) : Eval Text :=
  return (← e.toPrimitive v .string).toText

/-- The Unicode text of the string that a value converts to, which is also the key that the value
stands for. -/
def toUnicode (e : Engine) (v : Value) : Eval String :=
  return (← e.toPrimitive v .string).toString

end Engine

end ProtoScript
