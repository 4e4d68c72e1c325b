import ProtoScript.Builtin.Global
import ProtoScript.Evaluation.Pattern
import ProtoScript.Number.Binary64
/-!
# Functions of arrays

The methods work on everything that has a length and elements.
-/

namespace ProtoScript

namespace Engine

open Eval Value

def maxLength : Float := 9007199254740991

def lengthOf (e : Engine) (v : Value) : Eval Nat := do
  let length := Number.toIntegerOrInfinity (← e.toNumber (← getMember v "length"))
  if length ≤ 0 then return 0
  else if length < maxLength then return Number.toIndex length
  else return Number.toIndex maxLength

def elementsOf (e : Engine) (v : Value) : Eval (List Value) := do
  elementsFrom v 0 (← e.lengthOf v)

/-- Appends values to an array-like value from an index on; gives the index behind them. -/
def pushAll (o : Value) (i : Nat) : List Value → Eval Nat
  | [] => pure i
  | value :: rest => do
    setMember o (toString i) value true
    pushAll o (i + 1) rest

def push (e : Engine) (receiver : Value) (values : List Value) : Eval Value := do
  let o ← toObject receiver
  let length ← pushAll o (← e.lengthOf o) values
  setMember o "length" (.ofNat length) true
  return .ofNat length

def pop (e : Engine) (receiver : Value) : Eval Value := do
  let o ← toObject receiver
  let length ← e.lengthOf o
  if length = 0 then
    setMember o "length" (.ofNat 0) true
    return .undefined
  else
    let key := toString (length - 1)
    let element ← getMember o key
    match o with
    | .object id =>
      let _ ← updateGet fun s => s.delete id key
    | _ => pure ()
    setMember o "length" (.ofNat (length - 1)) true
    return element

/-- Appends the texts of the elements from an index on to a text, each behind a separator. -/
def joinFrom (e : Engine) (o : Value) (separator : Text) (i : Nat) : Nat → Text → Eval Text
  | 0, text => pure text
  | count + 1, text => do
    let text := if i = 0 then text else text ++ separator
    let element ← getMember o (toString i)
    let part ← if element.isNullish then pure .empty else e.toText element
    e.joinFrom o separator (i + 1) count (text ++ part)

/-- The texts of the elements with a separator between them; nullish elements have no text. -/
def join (e : Engine) (receiver separator : Value) : Eval Value := do
  let o ← toObject receiver
  let length ← e.lengthOf o
  let separator ←
    if separator.isUndefined then pure (Text.ofString ",") else e.toText separator
  return .string (← e.joinFrom o separator 0 length .empty)

/-- The first of `count` indices from one on at which an element equals a value. -/
def searchFrom (o target : Value) : Nat → Float → Eval Value
  | 0, _ => return .number (-1)
  | count + 1, position => do
    let key := toString (Number.toIndex position)
    let present ← read fun s => o.objectId?.any fun id => s.hasProperty id key
    let element ← getMember o key
    if present && element.strictlyEquals target then return .number position
    else searchFrom o target count (position + 1)

/-- The first index at which an element equals a value.  A negative start counts from the end. -/
def indexOf (e : Engine) (receiver target start : Value) : Eval Value := do
  let o ← toObject receiver
  let length ← e.lengthOf o
  let start ← e.position start
  let position :=
    if start < 0 then
      let fromEnd := Number.ofNat length + start
      if fromEnd < 0 then 0 else fromEnd
    else start
  searchFrom o target (length - Number.toIndex position) position

end Engine

open Eval Value

def ArrayNative.run (f : ArrayNative) (e : Engine) (receiver : Value) (arguments : List Value) :
    Eval Value := do
  match f with
  | .constructor =>
    let _ ← takeNewTarget
    match arguments with
    | [.number n] =>
      match ObjectRecord.arrayLength? (.number n) with
      | some size => newArray (Array.replicate size none)
      | none => fault .arrayLength
    | values => newFullArray values
  | .isArray =>
    return .boolean (← read fun s =>
      (s.objectOf? (argument arguments 0)).any fun r => r.objectClass = .array)
  | .push => e.push receiver arguments
  | .pop => e.pop receiver
  | .join => e.join receiver (argument arguments 0)
  | .toString => e.join receiver .undefined
  | .indexOf => e.indexOf receiver (argument arguments 0) (argument arguments 1)

end ProtoScript
