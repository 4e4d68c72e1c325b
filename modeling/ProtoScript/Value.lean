import ProtoScript.Number.Exact
import ProtoScript.Text
import ProtoScript.Number.Display
import ProtoScript.Number.Numeral
import ProtoScript.Number.Order
/-!
# Values

What an expression can evaluate to.  Objects are named by their place in the store; everything else
is a primitive value and carries its content.
-/

namespace ProtoScript

structure ObjectId where
  index : Nat
  deriving DecidableEq, Inhabited, Repr

inductive Value where
  | undefined
  | null
  | boolean (b : Bool)
  | number (x : Float)
  | string (t : Text)
  | object (id : ObjectId)
  deriving Inhabited

namespace Value

def ofString (s : String) : Value := .string (Text.ofString s)

def ofNat (n : Nat) : Value := .number (Number.ofNat n)

def isUndefined : Value → Bool
  | undefined => true
  | _ => false

def isNullish : Value → Bool
  | undefined | null => true
  | _ => false

def isBoolean : Value → Bool
  | boolean _ => true
  | _ => false

def isString : Value → Bool
  | string _ => true
  | _ => false

def objectId? : Value → Option ObjectId
  | object id => some id
  | _ => none

def isObject (v : Value) : Bool := v.objectId?.isSome

end Value

/-!
### Conversion and comparison of primitive values

The conversions to boolean, number and text that need no script code, and the equalities and the
order that are built on them.  Objects are converted by running their methods, which is not the
business of this module; where one turns up here it counts as an opaque thing.
-/

namespace Value

def toBoolean : Value → Bool
  | undefined | null => false
  | boolean b => b
  | number x => x != 0 && !x.isNaN
  | string t => !t.isEmpty
  | object _ => true

def toNumber : Value → Float
  | undefined => Number.nan
  | null => 0
  | boolean b => if b then 1 else 0
  | number x => x
  | string t => Number.ofChars t.toString.toList
  | object _ => Number.nan

protected def toString : Value → String
  | undefined => "undefined"
  | null => "null"
  | boolean b => if b then "true" else "false"
  | number x => Number.display x
  | string t => t.toString
  | object _ => "[object Object]"

instance : ToString Value := ⟨Value.toString⟩

def toText : Value → Text
  | string t => t
  | v => Text.ofString v.toString

/-- Equality without conversion: no number equals not-a-number, and the two zeros are equal. -/
def strictlyEquals : Value → Value → Bool
  | undefined, undefined => true
  | null, null => true
  | boolean a, boolean b => a == b
  | number x, number y => x == y
  | string s, string t => s == t
  | object a, object b => a == b
  | _, _ => false

/-- Equality that finds not-a-number equal to itself and tells the two zeros apart. -/
def same : Value → Value → Bool
  | number x, number y => Number.sameValue x y
  | v, w => v.strictlyEquals w

/-- Equality of primitive values with conversion: values of two kinds are compared as numbers, but
`undefined` and `null` equal only each other. -/
def looselyEquals : Value → Value → Bool
  | undefined, w | null, w => w.isNullish
  | v, undefined | v, null => v.isNullish
  | boolean a, boolean b => a == b
  | number x, number y => x == y
  | string s, string t => s == t
  | object a, object b => a == b
  | v, w => v.toNumber == w.toNumber

/-- Whether one primitive value lies below another: strings by their units, everything else as
numbers.  Undecided if one of the numbers is not a number. -/
def lessThan? : Value → Value → Option Bool
  | string s, string t => some (s.compare t == .lt)
  | v, w => Number.lessThan? v.toNumber w.toNumber

end Value

end ProtoScript
