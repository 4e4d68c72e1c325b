import ProtoScript.Number.Exact
import ProtoScript.Text.Blank
/-!
# Numerals

Text that spells a number.  A decimal numeral has digits, perhaps a fraction and perhaps an
exponent; `decimalValue` is its value, correctly rounded.  `ofString` is the number that a whole
text converts to, `parseFloat` the number at the start of a text.
-/

namespace ProtoScript.Number

/-!
### Digits of a radix

Digits from zero to nine and then the letters in either case, up to radix 36.
-/

def digitOrLetter? (c : Char) : Option Nat :=
  if c.isDigit then some (c.toNat - '0'.toNat)
  else if c.isLower then some (c.toNat - 'a'.toNat + 10)
  else if c.isUpper then some (c.toNat - 'A'.toNat + 10)
  else none

def digitValue? (radix : Nat) (c : Char) : Option Nat :=
  (digitOrLetter? c).filter (· < radix)

def isDigitOf (radix : Nat) (c : Char) : Bool := (digitValue? radix c).isSome

def digitChar (value : Nat) : Char :=
  if value < 10 then Char.ofNat ('0'.toNat + value) else Char.ofNat ('a'.toNat + (value - 10))

/-- The natural number that decimal digits spell; other characters count as zero. -/
def naturalOfDigits (cs : List Char) : Nat :=
  cs.foldl (fun n c => n * 10 + (digitValue? 10 c).getD 0) 0

/-- The number that digits of a radix spell, rounded at every digit. -/
def numberOfDigits (radix : Nat) (cs : List Char) : Float :=
  cs.foldl (fun x c => x * ofNat radix + ofNat ((digitValue? radix c).getD 0)) 0

/-- The array index that a property key spells: a natural number below `2 ^ 32 - 1`, written without
leading zeros. -/
def arrayIndex? (key : String) : Option Nat :=
  let cs := key.toList
  if cs.isEmpty || (1 < cs.length && cs.head? == some '0') || !cs.all Char.isDigit then none
  else
    let n := naturalOfDigits cs
    if n < 4294967295 then some n else none

/-! ### Texts that spell numbers -/

structure DecimalParts where
  whole : List Char
  hasPoint : Bool
  fraction : List Char
  rest : List Char

def DecimalParts.of (cs : List Char) : DecimalParts :=
  let whole := cs.takeWhile Char.isDigit
  match cs.dropWhile Char.isDigit with
  | '.' :: rest => ⟨whole, true, rest.takeWhile Char.isDigit, rest.dropWhile Char.isDigit⟩
  | rest => ⟨whole, false, [], rest⟩

def DecimalParts.digits (p : DecimalParts) : List Char := p.whole ++ p.fraction

/-- How many digits the mantissa has, as far as 32 bits count them. -/
def DecimalParts.digitCount (p : DecimalParts) : Int32 := .ofNat p.digits.length

def DecimalParts.mantissa (p : DecimalParts) : List Char :=
  p.whole ++ (if p.hasPoint then '.' :: p.fraction else [])

structure ExponentParts where
  mark : Char
  sign : List Char
  digits : List Char
  rest : List Char

/-- Splits off an exponent at the start of a text; its digits may be missing. -/
def ExponentParts.of? : List Char → Option ExponentParts
  | [] => none
  | mark :: rest =>
    if mark == 'e' || mark == 'E' then
      let sign := rest.take 1 |>.filter fun c => c == '+' || c == '-'
      let body := rest.drop sign.length
      some ⟨mark, sign, body.takeWhile Char.isDigit, body.dropWhile Char.isDigit⟩
    else none

def ExponentParts.value (p : ExponentParts) : Int :=
  if p.sign == ['-'] then -naturalOfDigits p.digits else naturalOfDigits p.digits

def isExponentOrEmpty (cs : List Char) : Bool :=
  cs.isEmpty ||
    match ExponentParts.of? cs with
    | some exponent => !exponent.digits.isEmpty && exponent.rest.isEmpty
    | none => false

/-- Whether the text is a decimal numeral without a sign: digits with an optional fraction and
exponent, at least one digit in the mantissa and one in the exponent. -/
def isNumeral (cs : List Char) : Bool :=
  let parts := DecimalParts.of cs
  !parts.digits.isEmpty && isExponentOrEmpty parts.rest

/-- Whether the text is such a numeral, as far as the digits of its mantissa are counted. -/
def isDecimal (cs : List Char) : Bool :=
  let parts := DecimalParts.of cs
  parts.digitCount != 0 && isExponentOrEmpty parts.rest

/-- The value of a decimal numeral without a sign, rounded to the nearest number. -/
def decimalValue (cs : List Char) : Float :=
  let parts := DecimalParts.of cs
  let exponent := ((ExponentParts.of? parts.rest).map ExponentParts.value).getD 0
  let scale := exponent - parts.fraction.length
  Float.ofScientific (naturalOfDigits parts.digits) (scale < 0) scale.natAbs

/-- The radix that a prefix such as `0x` announces, and the text after the prefix. -/
def radixPrefix? : List Char → Option (Nat × List Char)
  | '0' :: c :: rest =>
    if c == 'x' || c == 'X' then some (16, rest)
    else if c == 'o' || c == 'O' then some (8, rest)
    else if c == 'b' || c == 'B' then some (2, rest)
    else none
  | _ => none

/-- Whether a minus sign stands in front, and the text after a sign. -/
def splitSign : List Char → Bool × List Char
  | '-' :: rest => (true, rest)
  | '+' :: rest => (false, rest)
  | cs => (false, cs)

def signed (negative : Bool) (x : Float) : Float := if negative then -x else x

def infinityWord : List Char := ['I', 'n', 'f', 'i', 'n', 'i', 't', 'y']

def infinity : Float := 1 / 0

def nan : Float := 0 / 0

/-- The number that a whole text converts to, blanks at its ends aside.  The empty text is zero, a
radix prefix takes no sign, and text that spells no number is not a number. -/
def ofChars (cs : List Char) : Float :=
  let trimmed := Text.trimBlanks cs
  if trimmed.isEmpty then 0
  else
    match radixPrefix? trimmed with
    | some (radix, digits) =>
      if digits.isEmpty || !digits.all (isDigitOf radix) then nan else numberOfDigits radix digits
    | none =>
      let (negative, unsigned) := splitSign trimmed
      if unsigned == infinityWord then signed negative infinity
      else if isDecimal unsigned then signed negative (decimalValue unsigned)
      else nan

/-!
### The number at the start of a text

The end of a numeral is looked for in the bytes of the text, and what is read is the text up to that
byte.
-/

def utf8 (cs : List Char) : List UInt8 := cs.flatMap String.utf8EncodeChar

def isDigitByte (b : UInt8) : Bool := '0'.toUInt8 ≤ b && b ≤ '9'.toUInt8

def digitsFrom (bytes : List UInt8) (place : Nat) : Nat :=
  ((bytes.drop place).takeWhile isDigitByte).length

def standsAt (signs : List Char) (bytes : List UInt8) (place : Nat) : Bool :=
  bytes[place]?.any fun b => signs.any fun c => c.toUInt8 == b

/-- Where the mantissa ends that starts at a place, and how many digits it has. -/
def mantissaEnd (bytes : List UInt8) (start : Nat) : Nat × Nat :=
  let whole := digitsFrom bytes start
  if standsAt ['.'] bytes (start + whole) then
    let fraction := digitsFrom bytes (start + whole + 1)
    (start + whole + 1 + fraction, whole + fraction)
  else (start + whole, whole)

/-- Where the exponent at a place ends.  Without a digit it is none, and the place stays. -/
def exponentEnd (bytes : List UInt8) (place : Nat) : Nat :=
  if standsAt ['e', 'E'] bytes place then
    let first := if standsAt ['+', '-'] bytes (place + 1) then place + 2 else place + 1
    let count := digitsFrom bytes first
    if 0 < count then first + count else place
  else place

/-- Where the decimal numeral at the start of a text ends, with its sign. -/
def numeralEnd? (bytes : List UInt8) : Option Nat :=
  let (stop, digits) := mantissaEnd bytes (if standsAt ['+', '-'] bytes 0 then 1 else 0)
  if digits = 0 then none else some (exponentEnd bytes stop)

/-- The text up to a byte, if a character ends there. -/
def sliceTo? : List Char → Nat → Option (List Char)
  | _, 0 => some []
  | [], _ + 1 => none
  | c :: cs, stop + 1 =>
    if c.utf8Size ≤ stop + 1 then (sliceTo? cs (stop + 1 - c.utf8Size)).map (c :: ·) else none

/-- The value of a whole text that is a decimal numeral with an optional sign; any other text is not
a number. -/
def ofNumeral (cs : List Char) : Float :=
  let (negative, unsigned) := splitSign cs
  if isNumeral unsigned then signed negative (decimalValue unsigned) else nan

/-- The number at the start of a text, leading blanks aside: an infinity or the longest decimal
numeral, with an optional sign. -/
def parseFloat (cs : List Char) : Float :=
  let text := Text.dropBlanks cs
  let unsigned := text.dropWhile fun c => c == '+' || c == '-'
  if infinityWord.isPrefixOf unsigned && text.length ≤ unsigned.length + 1 then
    signed (text.head? == some '-') infinity
  else
    match (numeralEnd? (utf8 text)).bind (sliceTo? text) with
    | some numeral => ofNumeral numeral
    | none => nan

end ProtoScript.Number
