import ProtoScript.Text.Blank
/-!
# Errors in tokens

Why a source text cannot be split into tokens, and where.
-/

namespace ProtoScript

/-!
### Positions in a source text

A cursor is the part of a source text that is still to be read, with the position where it starts.
Offsets count bytes of UTF-8, columns count characters since the last line break, lines start at
one.  Lines and columns are counted in 32 bits.
-/

structure Position where
  offset : Nat
  lineCount : UInt32
  columnCount : UInt32
  deriving DecidableEq, Inhabited, Repr

namespace Position

def line (p : Position) : Nat := p.lineCount.toNat

def column (p : Position) : Nat := p.columnCount.toNat

def start : Position := ⟨0, 1, 0⟩

def step (p : Position) (c : Char) : Position :=
  { p with offset := p.offset + c.utf8Size, columnCount := p.columnCount + 1 }

def steps (p : Position) (cs : List Char) : Position := cs.foldl step p

/-- The start of the next line, behind a line break of the given characters. -/
def breakLine (p : Position) (cs : List Char) : Position :=
  { offset := (p.steps cs).offset, lineCount := p.lineCount + 1, columnCount := 0 }

end Position

/-- The part of a source text that is still to be read. -/
structure Cursor where
  rest : List Char
  position : Position
  deriving DecidableEq, Inhabited, Repr

namespace Cursor

def ofString (source : String) : Cursor := ⟨source.toList, .start⟩

def peek? (c : Cursor) : Option Char := c.rest.head?

def step (c : Cursor) : Cursor :=
  match c.rest with
  | [] => c
  | ch :: rest => ⟨rest, c.position.step ch⟩

def skip (c : Cursor) (count : Nat) : Cursor :=
  ⟨c.rest.drop count, c.position.steps (c.rest.take count)⟩

/-- Moves to the first character that does not satisfy the test. -/
def skipWhile (c : Cursor) (test : Char → Bool) : Cursor :=
  ⟨c.rest.dropWhile test, c.position.steps (c.rest.takeWhile test)⟩

def skipLine (c : Cursor) : Cursor := c.skipWhile fun ch => !Text.isLineBreak ch

/-- Moves over the line break at the start of the cursor: a carriage return takes a line feed
along. -/
def skipLineBreak (c : Cursor) : Cursor :=
  match c.rest with
  | '\r' :: '\n' :: rest => ⟨rest, c.position.breakLine ['\r', '\n']⟩
  | ch :: rest => ⟨rest, c.position.breakLine [ch]⟩
  | [] => c

end Cursor

/-! ### Errors -/

inductive LexicalFault where
  | unterminatedComment
  | unterminatedString
  | unterminatedEscape
  | octalEscape
  | hexadecimalEscape
  | codePointRange
  | unicodeEscape
  | numericLiteral
  | octalLiteral
  | nameAfterNumber
  | nameEscape
  | unexpectedCharacter (c : Char)
  deriving DecidableEq, Repr

def LexicalFault.message : LexicalFault → String
  | unterminatedComment => "Unterminated block comment"
  | unterminatedString => "Unterminated string literal"
  | unterminatedEscape => "Unterminated escape sequence"
  | octalEscape => "Octal escape sequences are not allowed in strict mode"
  | hexadecimalEscape => "Invalid hexadecimal escape sequence"
  | codePointRange => "Unicode code point out of range"
  | unicodeEscape => "Invalid Unicode escape sequence"
  | numericLiteral => "Invalid numeric literal"
  | octalLiteral => "Octal literals are not allowed in strict mode"
  | nameAfterNumber => "Identifier starts immediately after numeric literal"
  | nameEscape => "Invalid identifier escape"
  | unexpectedCharacter c => "Unexpected character: " ++ c.toString

/-- A fault and the place where the reader stood. -/
structure LexicalError where
  fault : LexicalFault
  position : Position
  deriving DecidableEq, Repr

def LexicalError.display (e : LexicalError) : String :=
  s!"{e.position.line}:{e.position.column}: " ++ e.fault.message

end ProtoScript
