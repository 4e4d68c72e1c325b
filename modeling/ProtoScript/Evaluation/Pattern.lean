import ProtoScript.Evaluation.Reference
/-!
# Binding

How the parts of a value come to the names and places of a pattern, and how declarations give names
their first values.
-/

namespace ProtoScript.Engine

open Eval

def elementsFrom (source : Value) (i : Nat) : Nat → Eval (List Value)
  | 0 => return []
  | count + 1 => do
    let element ← getMember source (toString i)
    return element :: (← elementsFrom source (i + 1) count)

/-- Binds the elements of an array pattern, from an index on, to those of a value with `size`
elements.  A rest takes what is left and ends the pattern. -/
def bindElements (e : Engine) (source : Value) (size : Nat) (scope : ScopeId) (fresh : Bool)
    (i : Nat) : List (Option Pattern) → Eval Unit
  | [] => pure ()
  | none :: elements => e.bindElements source size scope fresh (i + 1) elements
  | some (.rest target) :: _ => do
    let rest ← newFullArray (← elementsFrom source i (size - i))
    let _ ← e.bind target rest scope fresh
  | some target :: elements => do
    let element ← getMember source (toString i)
    let _ ← e.bind target element scope fresh
    e.bindElements source size scope fresh (i + 1) elements

def bindProperties (e : Engine) (source : Value) (scope : ScopeId) (fresh : Bool) :
    List PatternProperty → Eval Unit
  | [] => pure ()
  | .shorthand name :: rest => do
    let value ← getMember source name
    let _ ← e.bind (.identifier name) value scope fresh
    e.bindProperties source scope fresh rest
  | .keyed key target :: rest => do
    let key ← e.propertyKey key scope
    let value ← getMember source key
    let _ ← e.bind target value scope fresh
    e.bindProperties source scope fresh rest

/-- Evaluates a value that is written for a target.  A function without a name takes that of the
target. -/
def valueFor (e : Engine) (target : Pattern) (value : Expr) (scope : ScopeId) : Eval Value :=
  match target with
  | .identifier name => e.evaluateNamed value name scope
  | _ => e.evaluate value scope

/-- Binds a pattern to a value.  With `fresh`, names are given their first value in the scope
itself; without it they are assigned to. -/
def bindPattern (e : Engine) (pattern : Pattern) (value : Value) (scope : ScopeId)
    (fresh : Bool) : Eval Unit := do
  match pattern with
  | .identifier name =>
    if fresh then update fun s => s.bind scope name value else assignName name value scope
  | .member target =>
    let reference ← e.reference target scope
    putReference reference value scope
  | .withDefault target default =>
    let value ← if value.isUndefined then e.valueFor target default scope else pure value
    let _ ← e.bind target value scope fresh
  | .array elements =>
    if value.isNullish then fault (.notIterable value)
    else
      let source ← toObject value
      let size ← getMember source "length"
      e.bindElements source (Number.toIndex size.toNumber) scope fresh 0 elements
  | .object properties =>
    if value.isNullish then fault (.notDestructurable value)
    else e.bindProperties value scope fresh properties
  | .rest target =>
    let _ ← e.bind target value scope fresh

/-- Runs declarators.  A variable without an initial value stays as it is; a lexical name without
one becomes `undefined`. -/
def declarators (e : Engine) (kind : DeclarationKind) (scope : ScopeId) :
    List Declarator → Eval Unit
  | [] => pure ()
  | d :: rest => do
    match d.init with
    | some init =>
      let value ← e.valueFor d.target init scope
      let _ ← e.bind d.target value scope kind.isLexical
    | none =>
      if kind.isLexical then
        let _ ← e.bind d.target .undefined scope true
    e.declarators kind scope rest

def declaration (e : Engine) (d : Declaration) (scope : ScopeId) : Eval Unit :=
  e.declarators d.kind scope d.declarators

end ProtoScript.Engine
