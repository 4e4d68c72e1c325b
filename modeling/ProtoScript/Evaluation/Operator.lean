import ProtoScript.Evaluation.Engine
import ProtoScript.Number.Radix
import ProtoScript.Store.Display
/-!
# Operators

What the operators do with the values of their operands.
-/

namespace ProtoScript

/-- The operators that convert both operands to numbers and give a number. -/
def BinaryOp.numeric? : BinaryOp → Option (Float → Float → Float)
  | .sub => some fun x y => x - y
  | .mul => some fun x y => x * y
  | .div => some fun x y => x / y
  | .mod => some Number.remainder
  | .exp => some Number.power
  | .leftShift => some Number.leftShift
  | .rightShift => some Number.signedRightShift
  | .unsignedRightShift => some Number.unsignedRightShift
  | .bitAnd => some Number.bitwiseAnd
  | .bitOr => some Number.bitwiseOr
  | .bitXor => some Number.bitwiseXor
  | _ => none

def LogicalOp.stopsAt : LogicalOp → Value → Bool
  | .and, v => !v.toBoolean
  | .or, v => v.toBoolean
  | .coalesce, v => !v.isNullish

def UpdateOp.apply : UpdateOp → Float → Float
  | .increment, x => x + 1
  | .decrement, x => x - 1

namespace Eval

/-- Whether a value inherits from the object that is the `prototype` of a function. -/
def instanceOf (left right : Value) : Eval Bool := do
  if !(← read fun s => s.isCallable right) then fault .instanceOfUncallable
  else
    match ← getMember right "prototype" with
    | .object ancestor => read fun s => s.inherits left ancestor
    | _ => fault .prototypeNotObject

end Eval

namespace Engine

open Eval

def unary (e : Engine) (op : UnaryOp) (v : Value) : Eval Value := do
  match op with
  | .not => return .boolean !v.toBoolean
  | .minus => return .number (-(← e.toNumber v))
  | .plus => return .number (← e.toNumber v)
  | .bitNot => return .number (Number.bitwiseNot (← e.toNumber v))

/-- Adds numbers, or joins strings if one of the operands is one. -/
def add (e : Engine) (left right : Value) : Eval Value := do
  let left ← e.toPrimitive left .default
  let right ← e.toPrimitive right .default
  if left.isString || right.isString then return .string (left.toText ++ right.toText)
  else return .number (left.toNumber + right.toNumber)

/-- Equality with conversion.  An object is converted unless the other side is one too, or is
nullish. -/
def looselyEquals (e : Engine) (left right : Value) : Eval Bool := do
  if left.isObject && !right.isObject && !right.isNullish then
    return (← e.toPrimitive left .default).looselyEquals right
  else if right.isObject && !left.isObject && !left.isNullish then
    return left.looselyEquals (← e.toPrimitive right .default)
  else return left.looselyEquals right

def hasKey (e : Engine) (key target : Value) : Eval Bool := do
  match target with
  | .object id =>
    let key ← e.toUnicode key
    read fun s => s.hasProperty id key
  | _ => fault (.searchInPrimitive target)

/-- Compares two values in order, after converting the left one and then the right one. -/
def compare (e : Engine) (left right : Value) (test : Value → Value → Bool) : Eval Value := do
  let left ← e.toPrimitive left .number
  let right ← e.toPrimitive right .number
  return .boolean (test left right)

def binary (e : Engine) (op : BinaryOp) (left right : Value) : Eval Value := do
  match op with
  | .add => e.add left right
  | .eq => return .boolean (← e.looselyEquals left right)
  | .notEq => return .boolean !(← e.looselyEquals left right)
  | .strictEq => return .boolean (left.strictlyEquals right)
  | .strictNotEq => return .boolean !(left.strictlyEquals right)
  | .lt => e.compare left right fun a b => a.lessThan? b == some true
  | .gt => e.compare left right fun a b => b.lessThan? a == some true
  | .ltEq => e.compare left right fun a b => b.lessThan? a == some false
  | .gtEq => e.compare left right fun a b => a.lessThan? b == some false
  | .hasKey => return .boolean (← e.hasKey left right)
  | .instanceOf => return .boolean (← instanceOf left right)
  | op =>
    match op.numeric? with
    | some f => return .number (f (← e.toNumber left) (← e.toNumber right))
    | none => return .undefined

end Engine

end ProtoScript
