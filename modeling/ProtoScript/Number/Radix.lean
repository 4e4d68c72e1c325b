import ProtoScript.Number.Exact
import ProtoScript.Number.Numeral
/-!
# Numbers in other radices

Reading an integer in a radix from 2 to 36 at the start of a text, and writing a number in a radix.
-/

namespace ProtoScript.Number

/-!
### Bitwise operators

The bitwise operators act on 32-bit words.  A number becomes the word of its integer part modulo
`2 ^ 32`, infinities and what is not a number become the zero word.  Left shift is done on 64 bits,
so that it multiplies the signed value and does not wrap around.
-/

def euclideanRemainder (x y : Float) : Float :=
  let r := remainder x y
  if r < 0 then r + y.abs else r

def wordCount : Float := 4294967296

def toWord (x : Float) : BitVec 32 :=
  if x.isFinite then (euclideanRemainder (truncate x) wordCount).toUInt32.toBitVec else 0

def toUInt32 (x : Float) : Nat := (toWord x).toNat

def toInt32 (x : Float) : Int := (toWord x).toInt

def shiftDistance (y : Float) : Nat := (toWord y &&& 0x1F#32).toNat

def bitwiseNot (x : Float) : Float := ofInt (~~~toWord x).toInt

def bitwiseAnd (x y : Float) : Float := ofInt (toWord x &&& toWord y).toInt

def bitwiseOr (x y : Float) : Float := ofInt (toWord x ||| toWord y).toInt

def bitwiseXor (x y : Float) : Float := ofInt (toWord x ^^^ toWord y).toInt

def leftShift (x y : Float) : Float :=
  Float.ofInt ((toWord x).signExtend 64 <<< shiftDistance y).toInt

def signedRightShift (x y : Float) : Float := ofInt ((toWord x).sshiftRight (shiftDistance y)).toInt

def unsignedRightShift (x y : Float) : Float := ofNat (toWord x >>> shiftDistance y).toNat

/-! ### Reading and writing in a radix -/

def hexPrefix? : List Char → Option (List Char)
  | '0' :: c :: rest => if c == 'x' || c == 'X' then some rest else none
  | _ => none

/-- The integer at the start of a text, leading blanks aside, in the radix that the 32-bit value of
`radix` gives.  Radix zero means ten, or sixteen after a hexadecimal prefix. -/
def parseInt (cs : List Char) (radix : Float) : Float :=
  let (negative, unsigned) := splitSign (Text.dropBlanks cs)
  let chosen := toInt32 radix
  let base := if chosen = 0 then (if (hexPrefix? unsigned).isSome then 16 else 10) else chosen
  if base < 2 ∨ 36 < base then nan
  else
    let base := base.toNat
    let body := if base = 16 then (hexPrefix? unsigned).getD unsigned else unsigned
    let digits := body.takeWhile (isDigitOf base)
    if digits.isEmpty then nan else signed negative (numberOfDigits base digits)

/-- The digits of an integer part in a radix, added in front of `digits`.  An integer part has at
most 1024 digits. -/
def wholeDigits (radix : Nat) : Nat → Float → List Char → List Char
  | 0, _, digits => digits
  | fuel + 1, x, digits =>
    let digits := digitChar (toIndex (remainder x (ofNat radix))) :: digits
    let next := truncate (x / ofNat radix)
    if next < 1 then digits else wholeDigits radix fuel next digits

/-- At most `count` digits of a fraction in a radix; they end where less than `1e-10` remains. -/
def fractionDigits (radix : Nat) : Nat → Float → List Char
  | 0, _ => []
  | count + 1, x =>
    let scaled := x * ofNat radix
    let digit := toIndex scaled
    let left := scaled - ofNat digit
    digitChar digit :: (if left < 1e-10 then [] else fractionDigits radix count left)

/-- The text of a finite number in a radix, with at most twenty digits after the point. -/
def inRadix (x : Float) (radix : Nat) : List Char :=
  let magnitude := x.abs
  let whole := truncate magnitude
  let fraction := magnitude - whole
  (if x < 0 then ['-'] else []) ++ wholeDigits radix 1024 whole [] ++
    (if fraction == 0 then [] else '.' :: fractionDigits radix 20 fraction)

end ProtoScript.Number
