/-!
# Script strings

A script string is a sequence of UTF-16 code units.  Any sequence is a string, also one that cuts a
surrogate pair apart; `toString` is the Unicode text that it displays as.
-/

namespace ProtoScript

/-!
### UTF-16 code units

Characters as one or two 16-bit units.  `encode` writes them; `decode` reads any sequence of units
and puts U+FFFD where a surrogate has no partner.
-/

namespace Text.Utf16

/-- The character that stands for a surrogate without a partner. -/
def replacement : Char := '\uFFFD'

def isHighSurrogate (u : UInt16) : Bool :=
  0xD800 ≤ u.toNat && u.toNat ≤ 0xDBFF

def isLowSurrogate (u : UInt16) : Bool :=
  0xDC00 ≤ u.toNat && u.toNat ≤ 0xDFFF

def encodeChar (c : Char) : List UInt16 :=
  let n := c.toNat
  if n < 0x10000 then [UInt16.ofNat n]
  else
    [UInt16.ofNat (0xD800 + (n - 0x10000) / 0x400), UInt16.ofNat (0xDC00 + (n - 0x10000) % 0x400)]

def encode (cs : List Char) : List UInt16 :=
  cs.flatMap encodeChar

def pairChar (high low : UInt16) : Char :=
  Char.ofNat (0x10000 + (high.toNat - 0xD800) * 0x400 + (low.toNat - 0xDC00))

def unitChar (u : UInt16) : Char :=
  if isHighSurrogate u || isLowSurrogate u then replacement else Char.ofNat u.toNat

/-- The characters of a sequence of units, a lone surrogate read as `replacement`. -/
def decode : List UInt16 → List Char
  | [] => []
  | [u] => [unitChar u]
  | u :: v :: rest =>
    if isHighSurrogate u && isLowSurrogate v then pairChar u v :: decode rest
    else unitChar u :: decode (v :: rest)

def wellFormed : List UInt16 → Bool
  | [] => true
  | [u] => !isHighSurrogate u && !isLowSurrogate u
  | u :: v :: rest =>
    if isHighSurrogate u then isLowSurrogate v && wellFormed rest
    else !isLowSurrogate u && wellFormed (v :: rest)

end Text.Utf16

/-! ### Strings -/

structure Text where
  units : Array UInt16
  deriving DecidableEq, Inhabited, Repr

namespace Text

def ofString (s : String) : Text :=
  ⟨(Utf16.encode s.toList).toArray⟩

/-- The Unicode text of a string, a lone surrogate shown as U+FFFD. -/
protected def toString (t : Text) : String :=
  String.ofList (Utf16.decode t.units.toList)

instance : ToString Text := ⟨Text.toString⟩

def empty : Text := ⟨#[]⟩

def size (t : Text) : Nat := t.units.size

def isEmpty (t : Text) : Bool := t.units.isEmpty

protected def append (s t : Text) : Text := ⟨s.units ++ t.units⟩

instance : Append Text := ⟨Text.append⟩

/-- The units from `start` up to `stop`, both cut off at the end of the string. -/
def slice (t : Text) (start stop : Nat) : Text :=
  ⟨t.units.extract start stop⟩

def unitAt? (t : Text) (i : Nat) : Option Text :=
  if i < t.size then some (t.slice i (i + 1)) else none

/-- Whether the units of `sought` stand in `t` from place `i` on. -/
def occursAt (t sought : Text) (i : Nat) : Bool :=
  t.units.extract i (i + sought.size) == sought.units

/-- The first of `count` places from `i` on where `sought` occurs. -/
def indexFrom? (t sought : Text) : Nat → Nat → Option Nat
  | 0, _ => none
  | count + 1, i => if t.occursAt sought i then some i else indexFrom? t sought count (i + 1)

/-- The first place at or after `start` where `sought` occurs.  The empty string occurs at every
place up to the end. -/
def indexOf? (t sought : Text) (start : Nat) : Option Nat :=
  if start + sought.size ≤ t.size then
    t.indexFrom? sought (t.size - sought.size - start + 1) start
  else none

/-- The order of strings: by the first unit in which they differ, a proper start first. -/
protected def compare (s t : Text) : Ordering :=
  compareLex s.units.toList t.units.toList
where
  compareLex : List UInt16 → List UInt16 → Ordering
    | [], [] => .eq
    | [], _ :: _ => .lt
    | _ :: _, [] => .gt
    | a :: as, b :: bs => if a < b then .lt else if b < a then .gt else compareLex as bs

def wellFormed (t : Text) : Bool := Utf16.wellFormed t.units.toList

end Text

end ProtoScript
