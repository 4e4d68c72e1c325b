import ProtoScript.Evaluation.Reference
import ProtoScript.Evaluation.Operator
/-!
# Expressions

What expressions evaluate to.  Operands are evaluated from left to right.
-/

namespace ProtoScript

def Literal.value : Literal → Value
  | .null => .null
  | .boolean b => .boolean b
  | .number x => .number x
  | .string s => .ofString s

def Expr.description : Expr → String
  | .identifier name => name
  | .this => "this"
  | .member base (.dot name) => base.description ++ "." ++ name
  | .member base (.computed _) => base.description ++ "[...]"
  | _ => "expression"

def Expr.isEvalName : Expr → Bool
  | .identifier name => name == "eval"
  | _ => false

namespace Engine

open Eval

def arrayElements (e : Engine) (scope : ScopeId) :
    List (Option Expr) → Eval (List (Option Value))
  | [] => return []
  | none :: rest => return none :: (← e.arrayElements scope rest)
  | some element :: rest => do
    let value ← e.evaluate element scope
    return some value :: (← e.arrayElements scope rest)

def property (e : Engine) (p : Property) (scope : ScopeId) : Eval (String × Value) := do
  let key ←
    match p with
    | .keyed key _ => e.propertyKey key scope
    | .shorthand name _ => pure name
  return (key, ← e.evaluateNamed p.value key scope)

def properties (e : Engine) (id : ObjectId) (scope : ScopeId) : List Property → Eval Unit
  | [] => pure ()
  | p :: rest => do
    let (key, value) ← e.property p scope
    update fun s => s.insert id key (.plain value)
    e.properties id scope rest

def arguments (e : Engine) (scope : ScopeId) : List Expr → Eval (List Value)
  | [] => return []
  | argument :: rest => do
    let value ← e.evaluate argument scope
    return value :: (← e.arguments scope rest)

/-- Evaluates expressions one after the other for the value of the last. -/
def sequence (e : Engine) (scope : ScopeId) : List Expr → Value → Eval Value
  | [], last => pure last
  | expression :: rest, _ => do
    let value ← e.evaluate expression scope
    e.sequence scope rest value

/-- The kind of a value in a word.  A name that nobody binds is no error here. -/
def typeOf (e : Engine) (operand : Expr) (scope : ScopeId) : Eval Value := do
  let value ←
    match operand with
    | .identifier name =>
      match ← read fun s => s.lookup scope name with
      | .error .unresolved => pure .undefined
      | _ => lookupName name scope
    | _ => e.evaluate operand scope
  return .ofString (← read fun s => s.typeOf value)

/-- Deletes a property, and says whether it is gone.  Names cannot be deleted; everything else is as
good as gone. -/
def delete (e : Engine) (operand : Expr) (scope : ScopeId) : Eval Value := do
  match operand with
  | .member object key =>
    let (base, key) ← e.memberReference object key scope
    if base.isNullish then fault (.noObjectToDelete base key)
    else
      match ← toObject base with
      | .object id =>
        let deleted ← updateGet fun s => s.delete id key
        if !deleted && (← isStrict scope) then fault (.notDeletable key)
        else return .boolean deleted
      | _ => return .boolean true
  | .identifier _ => return .boolean false
  | _ =>
    let _ ← e.evaluate operand scope
    return .boolean true

/-- Adds one to a place or takes one away; the value is the new number or the old one. -/
def applyUpdate (e : Engine) (op : UpdateOp) (inFront : Bool) (target : Expr) (scope : ScopeId) :
    Eval Value := do
  let reference ← e.reference target scope
  let old ← e.toNumber (← getReference reference scope)
  let new := op.apply old
  putReference reference (.number new) scope
  return .number (if inFront then new else old)

/-- Assigns to a place.  With an operator, the place is read before the right side is evaluated. -/
def assign (e : Engine) (op : Option BinaryOp) (target value : Expr) (scope : ScopeId) :
    Eval Value := do
  match op, target with
  | none, .identifier name =>
    let value ← e.evaluateNamed value name scope
    assignName name value scope
    return value
  | none, _ =>
    let reference ← e.reference target scope
    let value ← e.evaluate value scope
    putReference reference value scope
    return value
  | some op, _ =>
    let reference ← e.reference target scope
    let old ← getReference reference scope
    let value ← e.binary op old (← e.evaluate value scope)
    putReference reference value scope
    return value

def callee (e : Engine) (expression : Expr) (scope : ScopeId) : Eval (Value × Value) := do
  match expression with
  | .member object key =>
    let (base, key) ← e.memberReference object key scope
    return (← getMember base key, base)
  | _ => return (← e.evaluate expression scope, .undefined)

/-- Calls a function.  The function `eval`, called by that name, sees the caller's scope. -/
def applyCall (e : Engine) (callee : Expr) (arguments : List Expr) (scope : ScopeId) :
    Eval Value := do
  let (function, receiver) ← e.callee callee scope
  let values ← e.arguments scope arguments
  if callee.isEvalName && function.objectId? == some .evalFunction then
    e.run (.directEval (values.headD .undefined) scope)
  else if ← read fun s => s.isCallable function then e.call function receiver values
  else fault (.notFunction callee.description)

/-- Makes an object that inherits from the constructor's `prototype`. -/
def newInstance (constructor : Value) : Eval Value := do
  let prototype ← getMember constructor "prototype"
  allocate { prototype := some (prototype.objectId?.getD .objectPrototype) }

/-- Applies a constructor to a new instance.  An object that the constructor returns takes its
place. -/
def construct (e : Engine) (constructor : Value) (arguments : List Value) : Eval Value := do
  let receiver ← newInstance constructor
  setNewTarget (some constructor)
  let outcome ← attempt (e.call constructor receiver arguments)
  setNewTarget none
  match outcome with
  | .ok result => return if result.isObject then result else receiver
  | .error c => complete c

/-- Applies a value that messages refer to by a description, if it is a constructor. -/
def constructWith (e : Engine) (function : Value) (arguments : List Value)
    (description : String) : Eval Value := do
  if ← read fun s => s.isConstructor function then e.run (.construct function arguments)
  else fault (.notConstructor description)

def applyNew (e : Engine) (constructor : Expr) (arguments : List Expr) (scope : ScopeId) :
    Eval Value := do
  let function ← e.evaluate constructor scope
  let values ← e.arguments scope arguments
  e.constructWith function values constructor.description

def expression (e : Engine) (x : Expr) (scope : ScopeId) : Eval Value := do
  match x with
  | .literal l => return l.value
  | .identifier name => lookupName name scope
  | .this => lookupThis scope
  | .array elements => newArray (← e.arrayElements scope elements).toArray
  | .object properties =>
    let (id : ObjectId) ← updateGet fun s => s.newObject
    e.properties id scope properties
    return .object id
  | .function definition => newClosure definition scope
  | .unary op operand => e.unary op (← e.evaluate operand scope)
  | .binary op left right =>
    let left ← e.evaluate left scope
    e.binary op left (← e.evaluate right scope)
  | .logical op left right =>
    let left ← e.evaluate left scope
    if op.stopsAt left then return left else e.evaluate right scope
  | .update op inFront target => e.applyUpdate op inFront target scope
  | .assign op target value => e.assign op target value scope
  | .conditional test consequent alternate =>
    let test ← e.evaluate test scope
    if test.toBoolean then e.evaluate consequent scope else e.evaluate alternate scope
  | .call callee arguments => e.applyCall callee arguments scope
  | .construct callee arguments => e.applyNew callee arguments scope
  | .member object key =>
    let (base, key) ← e.memberReference object key scope
    getMember base key
  | .typeOf operand => e.typeOf operand scope
  | .void operand =>
    let _ ← e.evaluate operand scope
    return .undefined
  | .delete operand => e.delete operand scope
  | .sequence expressions => e.sequence scope expressions .undefined

end Engine

end ProtoScript
