/-!
# Exact values of numbers

Script numbers are binary64 floating-point numbers.  `Binary64.ofFloat` reads the 64 bits of a
number as a sign, a natural mantissa and a power of two, so that rules about integer parts,
remainders and digits can be stated in exact integer arithmetic; `Binary64.pack` writes such a
value back.
-/

namespace ProtoScript.Number

/-- The exact value of a number: a finite one is `± mantissa * 2 ^ exponent`. -/
inductive Binary64 where
  | nan
  | infinity (negative : Bool)
  /-- A finite number; zero has mantissa `0` and keeps its sign. -/
  | finite (negative : Bool) (mantissa : Nat) (exponent : Int)
  deriving DecidableEq, Repr

namespace Binary64

def minExponent : Int := -1074

/-- The least mantissa of a normal number, `2 ^ 52`; mantissas lie below twice this. -/
def hiddenBit : Nat := 4503599627370496

def signBit : Nat := 9223372036854775808

/-- Reads the sign bit, the eleven exponent bits and the fifty-two fraction bits. -/
def ofFloat (x : Float) : Binary64 :=
  let bits := x.toBits.toNat
  let negative := signBit ≤ bits
  let biased : Nat := bits / hiddenBit % 2048
  let fraction := bits % hiddenBit
  if biased = 2047 then if fraction = 0 then infinity negative else nan
  else if biased = 0 then finite negative fraction minExponent
  else finite negative (hiddenBit + fraction) (biased - 1075)

/-- The bits of `mantissa * 2 ^ exponent` without the sign, for a mantissa below `2 ^ 53` and an
exponent in range. -/
def magnitudeBits (mantissa : Nat) (exponent : Int) : Nat :=
  let shift := min (52 - mantissa.log2) (exponent - minExponent).toNat
  let scaled := mantissa * Nat.pow 2 shift
  if scaled < hiddenBit then scaled
  else (exponent - shift + 1075).toNat * hiddenBit + (scaled - hiddenBit)

/-- The number `± mantissa * 2 ^ exponent`, for a mantissa below `2 ^ 53` and an exponent in
range. -/
def pack (negative : Bool) (mantissa : Nat) (exponent : Int) : Float :=
  Float.ofBits (UInt64.ofNat ((if negative then signBit else 0) +
    (if mantissa = 0 then 0 else magnitudeBits mantissa exponent)))

/-- The integer part of `mantissa * 2 ^ exponent`. -/
def floorMagnitude (mantissa : Nat) (exponent : Int) : Nat :=
  if 0 ≤ exponent then mantissa * Nat.pow 2 exponent.toNat
  else mantissa / Nat.pow 2 (-exponent).toNat

end Binary64

/-!
### Integers among the numbers

Truncation toward zero, the test for being an integer, and the remainder that keeps the sign of
the dividend.  Each is computed on the exact value of its arguments.
-/

/-- The exact integer part of a finite number, cut off toward zero. -/
def integerPart? (x : Float) : Option Int :=
  match Binary64.ofFloat x with
  | .finite negative mantissa exponent =>
    let magnitude := Binary64.floorMagnitude mantissa exponent
    some (if negative then -magnitude else magnitude)
  | _ => none

/-- The number without its fraction.  The sign stays, also that of a zero. -/
def truncate (x : Float) : Float :=
  match Binary64.ofFloat x with
  | .finite negative mantissa exponent =>
    if 0 ≤ exponent then x
    else Binary64.pack negative (Binary64.floorMagnitude mantissa exponent) 0
  | _ => x

def isInteger (x : Float) : Bool :=
  match Binary64.ofFloat x with
  | .finite _ mantissa exponent => 0 ≤ exponent || mantissa % Nat.pow 2 (-exponent).toNat == 0
  | _ => false

def integer? (x : Float) : Option Int := if isInteger x then integerPart? x else none

/-- An integer or an infinity: what is not a number counts as zero, and no zero keeps its sign. -/
def toIntegerOrInfinity (x : Float) : Float :=
  if x.isNaN || x == 0 then 0 else truncate x

/-- The greatest machine index, `2 ^ 64 - 1`, to which larger numbers are cut. -/
def maxIndex : Nat := 18446744073709551615

/-- The integer part as a natural number: zero below zero, and `maxIndex` above it. -/
def toIndex (x : Float) : Nat :=
  match Binary64.ofFloat x with
  | .finite false mantissa exponent => min (Binary64.floorMagnitude mantissa exponent) maxIndex
  | .infinity false => maxIndex
  | _ => 0

/-- The remainder of a division that is cut off toward zero.  It has the sign of the dividend. -/
def remainder (x y : Float) : Float :=
  match Binary64.ofFloat x, Binary64.ofFloat y with
  | .finite negative m p, .finite _ n q =>
    if n = 0 then 0 / 0
    else
      let least := min p q
      Binary64.pack negative
        (m * Nat.pow 2 (p - least).toNat % (n * Nat.pow 2 (q - least).toNat)) least
  | .finite _ _ _, .infinity _ => x
  | _, _ => 0 / 0

end ProtoScript.Number
