import ProtoScript.Builtin.Global
import ProtoScript.Number.Radix
/-!
# Functions of strings, numbers and booleans

Each of the three constructors converts its argument; applied with `new` it wraps the result.  The
methods accept primitive values and their wrappers.
-/

namespace ProtoScript

def Store.primitiveOf? (s : Store) (receiver : Value) (wanted : ObjectClass) : Option Value :=
  match s.objectOf? receiver with
  | some r =>
    if r.objectClass = wanted then
      r.primitive.filter fun v => v.wrapperClass = wanted
    else none
  | none =>
    if receiver.wrapperClass = wanted then some receiver else none

namespace Engine

open Eval Value

/-- The primitive value of a class that a receiver is or wraps; an error if there is none. -/
def primitiveOf (receiver : Value) (wanted : ObjectClass) (method : String) : Eval Value := do
  match ← read fun s => s.primitiveOf? receiver wanted with
  | some v => return v
  | none => fault (.receiverNotOf wanted.name method)

def wrapIf (constructing : Bool) (v : Value) : Eval Value :=
  if constructing then allocate (.wrapper v) else pure v

def receiverText (e : Engine) (receiver : Value) (method : String) : Eval Text :=
  if receiver.isNullish then fault (.receiverNullish method) else e.toText receiver

/-- The place in a sequence that an integer stands for; a negative one counts from the end. -/
def placeIn (size : Nat) (position : Float) : Nat :=
  min size (Number.toIndex (if position < 0 then Number.ofNat size + position else position))

/-- The text of a number in the radix that an argument stands for, ten if it is missing. -/
def numberText (e : Engine) (x : Float) (radix : Value) : Eval Value := do
  let radix ← if radix.isUndefined then pure (10 : Float) else e.position radix
  if radix < 2 || 36 < radix then fault .radix
  else if radix == 10 || !x.isFinite || x == 0 then return .ofString (Number.display x)
  else return .ofString (String.ofList (Number.inRadix x (Number.toIndex radix)))

end Engine

open Eval Engine Value

def StringNative.run (f : StringNative) (e : Engine) (receiver : Value) (arguments : List Value) :
    Eval Value := do
  match f with
  | .constructor =>
    let constructing := (← takeNewTarget).isSome
    match arguments with
    | [] => wrapIf constructing (.string .empty)
    | v :: _ => wrapIf constructing (.string (← e.toText v))
  | .charAt =>
    let text ← e.receiverText receiver "charAt"
    let i ← e.position (argument arguments 0)
    if i < 0 then return .string .empty
    else return .string ((text.unitAt? (Number.toIndex i)).getD .empty)
  | .charCodeAt =>
    let text ← e.receiverText receiver "charCodeAt"
    let i ← e.position (argument arguments 0)
    match if i < 0 then none else text.units[Number.toIndex i]? with
    | some unit => return .ofNat unit.toNat
    | none => return .number Number.nan
  | .indexOf =>
    let text ← e.receiverText receiver "indexOf"
    let sought ← e.toText (argument arguments 0)
    let i ← e.position (argument arguments 1)
    let start := min text.size (Number.toIndex i)
    match text.indexOf? sought start with
    | some place => return .ofNat place
    | none => return .number (-1)
  | .slice =>
    let text ← e.receiverText receiver "slice"
    let start := placeIn text.size (← e.position (argument arguments 0))
    if (argument arguments 1).isUndefined then return .string (text.slice start text.size)
    else
      let stop := placeIn text.size (← e.position (argument arguments 1))
      return .string (text.slice start stop)
  | .toString => primitiveOf receiver .string "toString"
  | .valueOf => primitiveOf receiver .string "valueOf"

def NumberNative.run (f : NumberNative) (e : Engine) (receiver : Value) (arguments : List Value) :
    Eval Value := do
  match f with
  | .constructor =>
    let constructing := (← takeNewTarget).isSome
    match arguments with
    | [] => wrapIf constructing (.number 0)
    | v :: _ => wrapIf constructing (.number (← e.toNumber v))
  | .toString =>
    let v ← primitiveOf receiver .number "toString"
    e.numberText v.toNumber (argument arguments 0)
  | .valueOf => primitiveOf receiver .number "valueOf"

def BooleanNative.run (f : BooleanNative) (receiver : Value) (arguments : List Value) :
    Eval Value := do
  match f with
  | .constructor =>
    let constructing := (← takeNewTarget).isSome
    wrapIf constructing (.boolean (argument arguments 0).toBoolean)
  | .valueOf => primitiveOf receiver .boolean "valueOf"
  | .toString => return .string (← primitiveOf receiver .boolean "toString").toText

end ProtoScript
