import ProtoScript.Number.Numeral
import ProtoScript.Token.Error
import ProtoScript.Text.Identifier
import ProtoScript.Token
/-!
# Literals and names

The tokens that are read character by character: strings, numbers and names.
-/

namespace ProtoScript.Token

/-!
### Strings

The characters between two quotes.  A backslash starts an escape: a letter for a control character,
an octal number in sloppy code, two hexadecimal digits after `x`, a Unicode escape after `u`, or a
line break that is left out; before any other character it stands for that character.
-/

/-- Reads a number of hexadecimal digits, each over the cursor's next character. -/
def readHexDigits : Nat → Nat → Cursor → Except LexicalError (Nat × Cursor)
  | 0, value, c => .ok (value, c)
  | count + 1, value, c =>
    match c.peek?.bind (Number.digitValue? 16) with
    | some digit => readHexDigits count (value * 16 + digit) c.step
    | none => .error ⟨.hexadecimalEscape, c.step.position⟩

/-- Reads hexadecimal digits up to a closing brace.  At least one is needed, as they are counted in
32 bits. -/
def readBracedDigits : List Char → Position → Nat → Int32 → Except LexicalError (Nat × Cursor)
  | [], p, _, _ => .error ⟨.unicodeEscape, p⟩
  | ch :: rest, p, value, count =>
    if ch == '\x7d' && 0 < count then .ok (value, ⟨rest, p.step ch⟩)
    else
      match Number.digitValue? 16 ch with
      | some digit =>
        if 0x10FFFF < value * 16 + digit then .error ⟨.codePointRange, p.step ch⟩
        else readBracedDigits rest (p.step ch) (value * 16 + digit) (count + 1)
      | none => .error ⟨.unicodeEscape, p.step ch⟩

/-- The character of a code point; a surrogate has none and becomes U+FFFD. -/
def charOfCodePoint (n : Nat) : Char :=
  if n.isValidChar then Char.ofNat n else '\uFFFD'

/-- Reads a Unicode escape behind its `u`: four digits, or digits in braces. -/
def readUnicodeEscape (c : Cursor) : Except LexicalError (Char × Cursor) := do
  let (value, next) ←
    if c.peek? == some '\x7b' then readBracedDigits c.step.rest c.step.position 0 0
    else readHexDigits 4 0 c
  return (charOfCodePoint value, next)

def readOctalDigits : Nat → Nat → Cursor → Nat × Cursor
  | 0, value, c => (value, c)
  | count + 1, value, c =>
    match c.peek?.bind (Number.digitValue? 8) with
    | some digit => readOctalDigits count (value * 8 + digit) c.step
    | none => (value, c)

/-- The control character that a letter stands for behind a backslash. -/
def controlEscape? : Char → Option Char
  | 'n' => some '\n'
  | 'r' => some '\r'
  | 't' => some '\t'
  | 'b' => some '\x08'
  | 'f' => some '\x0c'
  | 'v' => some '\x0b'
  | _ => none

/-- Reads an escape behind its backslash: the characters it stands for, at most one. -/
def readEscape (strict : Bool) (c : Cursor) : Except LexicalError (List Char × Cursor) :=
  match c.peek? with
  | none => .error ⟨.unterminatedEscape, c.position⟩
  | some ch =>
    let next := c.step
    match controlEscape? ch with
    | some control => .ok ([control], next)
    | none =>
      if ch == '0' && !(next.peek?.any Char.isDigit) then .ok (['\x00'], next)
      else match Number.digitValue? 8 ch with
        | some digit =>
          if strict then .error ⟨.octalEscape, next.position⟩
          else
            let (value, next) := readOctalDigits (if digit ≤ 3 then 2 else 1) digit next
            .ok ([Char.ofNat value], next)
        | none =>
          if ch == 'x' then
            (readHexDigits 2 0 next).map fun (value, next) => ([Char.ofNat value], next)
          else if ch == 'u' then (readUnicodeEscape next).map fun (char, next) => ([char], next)
          else if Text.isLineBreak ch then .ok ([], c.skipLineBreak)
          else .ok ([ch], next)

theorem length_rest_step {c : Cursor} : c.step.rest.length ≤ c.rest.length := by
  unfold Cursor.step
  split <;> simp_all

theorem length_rest_step_lt {c : Cursor} {ch : Char} (h : c.peek? = some ch) :
    c.step.rest.length < c.rest.length := by
  unfold Cursor.peek? at h
  unfold Cursor.step
  split <;> simp_all

theorem length_rest_skipLineBreak_lt {c : Cursor} {ch : Char} (h : c.peek? = some ch) :
    c.skipLineBreak.rest.length < c.rest.length := by
  unfold Cursor.peek? at h
  unfold Cursor.skipLineBreak
  split
  · next hr => simp only [hr, List.length_cons]; omega
  · next hr => simp only [hr, List.length_cons]; omega
  · next hr => simp [hr] at h

theorem length_rest_readHexDigits {count value : Nat} {c : Cursor} {r : Nat × Cursor}
    (h : readHexDigits count value c = .ok r) : r.2.rest.length ≤ c.rest.length := by
  induction count generalizing value c with
  | zero => cases h; exact Nat.le_refl _
  | succ count ih =>
    rw [readHexDigits] at h
    split at h
    · exact Nat.le_trans (ih h) length_rest_step
    · cases h

theorem length_rest_readBracedDigits {cs : List Char} {p : Position} {value : Nat} {count : Int32}
    {r : Nat × Cursor} (h : readBracedDigits cs p value count = .ok r) :
    r.2.rest.length ≤ cs.length := by
  induction cs generalizing p value count with
  | nil => cases h
  | cons ch rest ih =>
    rw [readBracedDigits] at h
    split at h
    · cases h; simp
    · split at h
      · split at h
        · cases h
        · have := ih h
          simp only [List.length_cons]
          omega
      · cases h

theorem length_rest_readUnicodeEscape {c : Cursor} {r : Char × Cursor}
    (h : readUnicodeEscape c = .ok r) : r.2.rest.length ≤ c.rest.length := by
  unfold readUnicodeEscape at h
  split at h
  · cases hd : readBracedDigits c.step.rest c.step.position 0 0 with
    | error e => rw [hd] at h; cases h
    | ok d =>
      rw [hd] at h
      cases h
      exact Nat.le_trans (length_rest_readBracedDigits hd) length_rest_step
  · cases hd : readHexDigits 4 0 c with
    | error e => rw [hd] at h; cases h
    | ok d =>
      rw [hd] at h
      cases h
      exact length_rest_readHexDigits hd

theorem length_rest_readOctalDigits (count value : Nat) (c : Cursor) :
    (readOctalDigits count value c).2.rest.length ≤ c.rest.length := by
  induction count generalizing value c with
  | zero => exact Nat.le_refl _
  | succ count ih =>
    rw [readOctalDigits]
    split
    · exact Nat.le_trans (ih _ _) length_rest_step
    · exact Nat.le_refl _

theorem length_rest_readEscape {strict : Bool} {c : Cursor} {r : List Char × Cursor}
    (h : readEscape strict c = .ok r) : r.2.rest.length < c.rest.length := by
  unfold readEscape at h
  split at h
  · cases h
  · next ch hc =>
    have hstep := length_rest_step_lt hc
    dsimp only at h
    split at h
    · cases h; exact hstep
    · split at h
      · cases h; exact hstep
      · split at h
        · split at h
          · cases h
          · cases h
            exact Nat.lt_of_le_of_lt (length_rest_readOctalDigits _ _ _) hstep
        · split at h
          · cases hd : readHexDigits 2 0 c.step with
            | error e => rw [hd] at h; cases h
            | ok d =>
              rw [hd] at h
              cases h
              exact Nat.lt_of_le_of_lt (length_rest_readHexDigits hd) hstep
          · split at h
            · cases hd : readUnicodeEscape c.step with
              | error e => rw [hd] at h; cases h
              | ok d =>
                rw [hd] at h
                cases h
                exact Nat.lt_of_le_of_lt (length_rest_readUnicodeEscape hd) hstep
            · split at h
              · cases h; exact length_rest_skipLineBreak_lt hc
              · cases h; exact hstep

/-- Reads the rest of a string literal behind its opening quote; `content` holds the characters read
so far, the last one first. -/
def readString (strict : Bool) (quote : Char) (c : Cursor) (content : List Char) :
    Except LexicalError (String × Cursor) :=
  match _hc : c.peek? with
  | none => .error ⟨.unterminatedString, c.position⟩
  | some ch =>
    if ch == quote then .ok (String.ofList content.reverse, c.step)
    else if ch == '\\' then
      match _he : readEscape strict c.step with
      | .ok (chars, next) => readString strict quote next (chars.reverse ++ content)
      | .error e => .error e
    else if ch == '\n' || ch == '\r' then .error ⟨.unterminatedString, c.step.position⟩
    else readString strict quote c.step (ch :: content)
termination_by c.rest.length
decreasing_by
  · exact Nat.lt_of_lt_of_le (length_rest_readEscape _he) length_rest_step
  · exact length_rest_step_lt _hc

/-!
### Numbers

Decimal literals, literals with a radix prefix, and the leading-zero literals of sloppy code.
Between two digits an underscore may stand.  A literal may not run into a name.
-/

/-- Takes digits of a radix off a text, leaving out underscores that a digit follows. -/
def takeDigits (radix : Nat) : List Char → Position → List Char × Cursor
  | [], p => ([], ⟨[], p⟩)
  | ch :: rest, p =>
    if Number.isDigitOf radix ch then
      let (digits, next) := takeDigits radix rest (p.step ch)
      (ch :: digits, next)
    else if ch == '_' && rest.head?.any (Number.isDigitOf radix) then
      takeDigits radix rest (p.step ch)
    else ([], ⟨ch :: rest, p⟩)

def digitsAt (radix : Nat) (c : Cursor) : List Char × Cursor := takeDigits radix c.rest c.position

variable [Text.IdentifierClasses]

/-- Ends a numeric literal: neither a name nor a digit may follow. -/
def endNumber (token : Token) (c : Cursor) : Except LexicalError (Token × Cursor) :=
  if c.peek?.any fun ch => Text.isIdentifierStart ch || ch.isDigit then
    .error ⟨.nameAfterNumber, c.position⟩
  else .ok (token, c)

def radixOfLetter? : Char → Option Nat
  | 'x' | 'X' => some 16
  | 'o' | 'O' => some 8
  | 'b' | 'B' => some 2
  | _ => none

def readRadixNumber (radix : Nat) (c : Cursor) : Except LexicalError (Token × Cursor) :=
  let (digits, next) := digitsAt radix c
  if digits.isEmpty then .error ⟨.numericLiteral, next.position⟩
  else endNumber (.number (Number.numberOfDigits radix digits)) next

/-- Reads the digits behind a leading zero.  They are octal unless one of them is eight or nine. -/
def readLeadingZero (strict : Bool) (c : Cursor) : Except LexicalError (Token × Cursor) :=
  if strict then .error ⟨.octalLiteral, c.position⟩
  else
    let digits := '0' :: c.rest.takeWhile Char.isDigit
    let next := c.skipWhile Char.isDigit
    if digits.all (Number.isDigitOf 8) then
      endNumber (.legacyOctal (Number.numberOfDigits 8 digits)) next
    else endNumber (.number (Number.decimalValue digits)) next

/-- The exponent at a cursor, if the letter `e` stands there: its characters without underscores. -/
def readExponent (c : Cursor) : Except LexicalError (List Char × Cursor) :=
  if c.peek?.any fun ch => ch == 'e' || ch == 'E' then
    let c := c.step
    let sign := c.peek?.toList.filter fun ch => ch == '+' || ch == '-'
    let (digits, next) := digitsAt 10 (c.skip sign.length)
    if digits.isEmpty then .error ⟨.numericLiteral, next.position⟩
    else .ok ('e' :: sign ++ digits, next)
  else .ok ([], c)

/-- The mantissa of a decimal literal behind its first character, without underscores. -/
def readMantissa (first : Char) (c : Cursor) : List Char × Cursor :=
  if first == '.' then
    let (fraction, next) := digitsAt 10 c
    (first :: fraction, next)
  else
    let (whole, next) := digitsAt 10 c
    if next.peek? == some '.' then
      let (fraction, next) := digitsAt 10 next.step
      (first :: whole ++ '.' :: fraction, next)
    else (first :: whole, next)

def readDecimal (first : Char) (c : Cursor) : Except LexicalError (Token × Cursor) := do
  let (mantissa, next) := readMantissa first c
  let (exponent, next) ← readExponent next
  endNumber (.number (Number.decimalValue (mantissa ++ exponent))) next

/-- Reads a numeric literal behind its first character, a digit or the point of a fraction. -/
def readNumber (strict : Bool) (first : Char) (c : Cursor) :
    Except LexicalError (Token × Cursor) :=
  match if first == '0' then c.peek?.bind radixOfLetter? else none with
  | some radix => readRadixNumber radix c.step
  | none =>
    if first == '0' && c.peek?.any Char.isDigit then readLeadingZero strict c
    else readDecimal first c

/-!
### Names

A name is a run of identifier characters, each written directly or as a Unicode escape.  A name
without escapes that is a keyword or the word of a literal is that token; one with escapes is always
an identifier.
-/

/-- Reads a name; `name` holds the characters read so far, the last one first, and `escaped` says
whether one of them was an escape. -/
def readName (c : Cursor) (name : List Char) (escaped : Bool) :
    Except LexicalError (String × Bool × Cursor) :=
  match _hc : c.peek? with
  | none => .ok (String.ofList name.reverse, escaped, c)
  | some ch =>
    if ch == '\\' then
      if c.step.peek? == some 'u' then
        match _he : readUnicodeEscape c.step.step with
        | .ok (char, next) => readName next (char :: name) true
        | .error e => .error e
      else .error ⟨.nameEscape, c.step.step.position⟩
    else if Text.isIdentifierContinue ch then readName c.step (ch :: name) escaped
    else .ok (String.ofList name.reverse, escaped, c)
termination_by c.rest.length
decreasing_by
  · exact Nat.lt_of_le_of_lt (Nat.le_trans (length_rest_readUnicodeEscape _he) length_rest_step)
      (length_rest_step_lt _hc)
  · exact length_rest_step_lt _hc

def ofWord (word : String) : Token :=
  if word == "true" then boolean true
  else if word == "false" then boolean false
  else if word == "null" then null
  else match Keyword.ofString? word with
    | some k => keyword k
    | none => identifier word

/-- Reads the token that starts with `first`, an identifier character or a backslash. -/
def readWord (first : Char) (c : Cursor) : Except LexicalError (Token × Cursor) := do
  let (name, escaped, next) ←
    if first == '\\' then readName c [] false else readName c.step [first] false
  return (if escaped then identifier name else ofWord name, next)

end ProtoScript.Token
