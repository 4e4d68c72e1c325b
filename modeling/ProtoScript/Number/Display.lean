import ProtoScript.Number.Binary64
/-!
# Number text

The written form of a number: its shortest digits, laid out by a `Format`.  Two formats are in use,
one for the text that scripts and users see, one for numbers quoted inside error messages.
-/

namespace ProtoScript.Number

/-!
### Shortest decimal digits

The fewest decimal digits that read back as a given number.  A decimal reads back as the number when
it lies between the midpoints to the number's two neighbours, the midpoints included if the mantissa
is even.  For one digit, two digits and so on, `shortest` tries the two points of that decimal grid
next to the number; of two that read back it takes the nearer, of two equally near the one that a
`Tie` names.
-/

/-- A positive decimal fraction `0.d₁d₂… * 10 ^ point`, where `d₁` and the last digit are not
zero. -/
structure Decimal where
  digits : List Char
  /-- The place of the decimal point, counted from the front of the digits. -/
  point : Int
  deriving DecidableEq, Repr

/-- Which of two equally near decimals is taken. -/
inductive Tie where
  | toEven
  | up
  deriving DecidableEq, Repr

/-- Whether the integer `c` is taken, and not `c + 1`, for a number halfway between them. -/
def Tie.takesLower : Tie → Nat → Bool
  | toEven, c => c % 2 == 0
  | up, _ => false

namespace Decimal

def ofScaled (significand : Nat) (scale : Int) : Decimal :=
  let all := Nat.toDigits 10 significand
  ⟨(all.reverse.dropWhile (· == '0')).reverse, scale + all.length⟩

/-- A number with the midpoints to its neighbours, all over one denominator. -/
structure Interval where
  low : Nat
  value : Nat
  high : Nat
  denominator : Nat
  closed : Bool

/-- The decimals that read back as `mantissa * 2 ^ exponent`.  Below a power of two the next smaller
number is only half as far away. -/
def Interval.of (mantissa : Nat) (exponent : Int) : Interval :=
  let scale := Nat.pow 2 exponent.toNat
  let below := if mantissa = Binary64.hiddenBit ∧ exponent ≠ Binary64.minExponent then 1 else 2
  { low := (4 * mantissa - below) * scale
    value := 4 * mantissa * scale
    high := (4 * mantissa + 2) * scale
    denominator := 4 * Nat.pow 2 (-exponent).toNat
    closed := mantissa % 2 == 0 }

def Interval.rescale (i : Interval) (scale : Int) : Interval :=
  let up := Nat.pow 10 (-scale).toNat
  { i with
    low := i.low * up
    value := i.value * up
    high := i.high * up
    denominator := i.denominator * Nat.pow 10 scale.toNat }

def Interval.contains (i : Interval) (c : Nat) : Bool :=
  let n := c * i.denominator
  if i.closed then i.low ≤ n && n ≤ i.high else i.low < n && n < i.high

def Interval.nearest? (i : Interval) (tie : Tie) : Option Nat :=
  let c := i.value / i.denominator
  match i.contains c, i.contains (c + 1) with
  | true, true =>
    let down := i.value - c * i.denominator
    let up := (c + 1) * i.denominator - i.value
    some (if down < up ∨ (down = up ∧ tie.takesLower c) then c else c + 1)
  | true, false => some c
  | false, true => some (c + 1)
  | false, false => none

/-- The least `point`, from the given one on, with `value < 10 ^ point`. -/
def Interval.point (i : Interval) : Nat → Int → Int
  | 0, p => p
  | fuel + 1, p =>
    let r := i.rescale p
    if r.value < r.denominator then p else i.point fuel (p + 1)

/-- The first grid from `count` digits on that has a point in the interval.  One of the first
seventeen grids always has; behind the last one tried the digits are cut off. -/
def Interval.search (i : Interval) (tie : Tie) (point : Int) : Nat → Nat → Decimal
  | 0, count =>
    let r := i.rescale (point - count)
    ofScaled (r.value / r.denominator) (point - count)
  | more + 1, count =>
    match (i.rescale (point - count)).nearest? tie with
    | some c => ofScaled c (point - count)
    | none => i.search tie point more (count + 1)

def pointBelow (mantissa : Nat) (exponent : Int) : Int :=
  (mantissa.log2 + exponent) * 30103 / 100000 - 1

/-- The fewest digits that read back as `mantissa * 2 ^ exponent`. -/
def shortest (tie : Tie) (mantissa : Nat) (exponent : Int) : Decimal :=
  let i := Interval.of mantissa exponent
  i.search tie (i.point 4 (pointBelow mantissa exponent)) 17 1

end Decimal

/-! ### Layout -/

/-- How the digits of a number are laid out. -/
structure Format where
  /-- The least place of the decimal point at which a number is written without an exponent. -/
  leastPoint : Int
  /-- The greatest place of the decimal point at which a number is written without an exponent. -/
  greatestPoint : Int
  /-- Whether a whole number is written with the fraction `.0`. -/
  wholeFraction : Bool
  exponentPlus : Bool
  infinity : String
  tie : Tie

/-- The text of numbers in scripts, but for zero, which they see without its sign: positional from
`1e-6` up to `1e21`, an even last digit for a number halfway between two decimals. -/
def Format.signed : Format := ⟨-5, 21, false, true, "Infinity", .toEven⟩

/-- The text of numbers in messages about tokens: positional from `1e-4` up to `1e16`, with a
fraction in every positional number, and the greater of two decimals around a number halfway between
them. -/
def Format.quoted : Format := ⟨-3, 16, true, false, "inf", .up⟩

namespace Format

def positional (f : Format) (d : Decimal) : List Char :=
  let count : Int := d.digits.length
  if count ≤ d.point then
    d.digits ++ List.replicate (d.point - count).toNat '0' ++
      (if f.wholeFraction then ['.', '0'] else [])
  else if 0 < d.point then
    d.digits.take d.point.toNat ++ '.' :: d.digits.drop d.point.toNat
  else
    '0' :: '.' :: List.replicate (-d.point).toNat '0' ++ d.digits

def scientific (f : Format) (d : Decimal) : List Char :=
  let exponent := d.point - 1
  let fraction := d.digits.drop 1
  d.digits.take 1 ++ (if fraction.isEmpty then [] else '.' :: fraction) ++ 'e' ::
    (if exponent < 0 then ['-'] else if f.exponentPlus then ['+'] else []) ++
    Nat.toDigits 10 exponent.natAbs

def decimal (f : Format) (d : Decimal) : List Char :=
  if f.leastPoint ≤ d.point ∧ d.point ≤ f.greatestPoint then f.positional d else f.scientific d

def chars (f : Format) (x : Float) : List Char :=
  match Binary64.ofFloat x with
  | .nan => ['N', 'a', 'N']
  | .infinity negative => (if negative then ['-'] else []) ++ f.infinity.toList
  | .finite negative mantissa exponent =>
    if mantissa = 0 then
      (if negative then ['-'] else []) ++ '0' :: (if f.wholeFraction then ['.', '0'] else [])
    else (if negative then ['-'] else []) ++ f.decimal (.shortest f.tie mantissa exponent)

end Format

/-- How finite numbers other than zero are written for scripts. -/
class FiniteText where
  finiteText : Float → String

/-- Programs run with the shortest digits. -/
instance : FiniteText where
  finiteText x := String.ofList (Format.signed.chars x)

def display [FiniteText] (x : Float) : String :=
  match Binary64.ofFloat x with
  | .nan => "NaN"
  | .infinity negative => if negative then "-Infinity" else "Infinity"
  | .finite _ mantissa _ => if mantissa = 0 then "0" else FiniteText.finiteText x

end ProtoScript.Number
