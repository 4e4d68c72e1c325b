/-!
# Blanks and line breaks

The two character classes that separate tokens and that number text ignores at its ends.
`isBlank` is the Unicode property `White_Space` together with the byte order mark, so every line
break is a blank.
-/

namespace ProtoScript.Text

def isLineBreak (c : Char) : Bool :=
  c == '\n' || c == '\r' || c == '\u2028' || c == '\u2029'

def isWhiteSpace (c : Char) : Bool :=
  let n := c.toNat
  (0x9 ≤ n && n ≤ 0xD) || n == 0x20 || n == 0x85 || n == 0xA0 || n == 0x1680 ||
    (0x2000 ≤ n && n ≤ 0x200A) || n == 0x2028 || n == 0x2029 || n == 0x202F || n == 0x205F ||
    n == 0x3000

def isBlank (c : Char) : Bool :=
  isWhiteSpace c || c == '\uFEFF'

def isInlineBlank (c : Char) : Bool :=
  isBlank c && !isLineBreak c

def dropBlanks (cs : List Char) : List Char :=
  cs.dropWhile isBlank

def trimBlanks (cs : List Char) : List Char :=
  ((dropBlanks cs).reverse.dropWhile isBlank).reverse

theorem isBlank_of_isLineBreak {c : Char} (h : isLineBreak c = true) : isBlank c = true := by
  simp only [isLineBreak, Bool.or_eq_true, beq_iff_eq] at h
  rcases h with ((rfl | rfl) | rfl) | rfl <;> decide

end ProtoScript.Text
