import ProtoScript.Token.Progress
/-!
# Splitting a text into tokens

`Token.next` reads one token.  Blanks, comments and a `#!` line at the start of the text stand
between tokens; a block comment with a line break in it counts as a line break.  `Token.scan` reads
the tokens of a whole text.
-/

namespace ProtoScript

/-- A token with the offset where it starts and the cursor behind it. -/
structure Lexeme where
  token : Token
  start : Nat
  next : Cursor
  deriving Inhabited, Repr

namespace Token

/-- Reads the rest of a block comment: whether it has a line break in it, and the cursor behind
it. -/
def readBlockComment : List Char → Position → Bool → Except LexicalError (Bool × Cursor)
  | [], p, _ => .error ⟨.unterminatedComment, p⟩
  | '*' :: '/' :: rest, p, crossed => .ok (crossed, ⟨rest, p.steps ['*', '/']⟩)
  | '\r' :: '\n' :: rest, p, _ => readBlockComment rest (p.breakLine ['\r', '\n']) true
  | ch :: rest, p, crossed =>
    if Text.isLineBreak ch then readBlockComment rest (p.breakLine [ch]) true
    else readBlockComment rest (p.step ch) crossed

theorem length_rest_readBlockComment {cs : List Char} {p : Position} {crossed : Bool}
    {r : Bool × Cursor} (h : readBlockComment cs p crossed = .ok r) :
    r.2.rest.length ≤ cs.length := by
  fun_induction readBlockComment cs p crossed with
  | case1 => cases h
  | case2 => cases h; simp; omega
  | case3 _ _ _ ih => have := ih h; simp; omega
  | case4 _ _ _ _ _ _ _ ih => have := ih h; simp; omega
  | case5 _ _ _ _ _ _ _ ih => have := ih h; simp; omega

/-- What stands at a cursor behind inline blanks. -/
inductive Gap where
  | line
  | block
  | none

def gapAt (c : Cursor) : Gap :=
  match c.rest with
  | '/' :: '/' :: _ => .line
  | '/' :: '*' :: _ => .block
  | '#' :: '!' :: _ => if c.position.offset = 0 then .line else .none
  | _ => .none

theorem length_rest_skipLine_lt {c : Cursor} (h : gapAt c = .line) :
    c.skipLine.rest.length < c.rest.length := by
  have drop (ch : Char) (cs : List Char) (hch : Text.isLineBreak ch = false) :
      ((ch :: cs).dropWhile fun x => !Text.isLineBreak x).length < (ch :: cs).length := by
    rw [List.dropWhile_cons_of_pos (by simp [hch])]
    exact Nat.lt_succ_of_le (length_dropWhile_le _ _)
  unfold gapAt at h
  unfold Cursor.skipLine Cursor.skipWhile
  split at h
  · next hr => rw [hr]; simpa only using drop '/' _ (by decide)
  · cases h
  · next hr => rw [hr]; simpa only using drop '#' _ (by decide)
  · cases h

theorem length_rest_skip_two {c : Cursor} (h : gapAt c = .block) :
    (c.skip 2).rest.length < c.rest.length := by
  unfold gapAt at h
  split at h
  · cases h
  · next hr =>
    simp only [Cursor.skip, hr, List.drop_succ_cons, List.drop_zero, List.length_cons]
    omega
  · split at h <;> cases h
  · cases h

variable [Text.IdentifierClasses]

/-- Reads a token that is neither the end of the text nor a line break, at its first character. -/
def readToken (strict : Bool) (ch : Char) (c : Cursor) : Except LexicalError (Token × Cursor) :=
  if ch == '\'' || ch == '"' then
    (readString strict ch c.step []).map fun (content, next) => (string content, next)
  else if ch.isDigit || (ch == '.' && c.step.peek?.any Char.isDigit) then
    readNumber strict ch c.step
  else if Text.isIdentifierStart ch || ch == '\\' then readWord ch c
  else match Punctuator.longest? c.rest with
    | some sign => .ok (punctuator sign, c.skip sign.spelling.length)
    | none => .error ⟨.unexpectedCharacter ch, c.position⟩

def readLexeme (strict : Bool) (c : Cursor) : Except LexicalError Lexeme :=
  match c.peek? with
  | none => .ok ⟨endOfInput, c.position.offset, c⟩
  | some ch =>
    if Text.isLineBreak ch then .ok ⟨lineBreak, c.position.offset, c.skipLineBreak⟩
    else (readToken strict ch c).map fun (token, next) => ⟨token, c.position.offset, next⟩

def next (strict : Bool) (c : Cursor) : Except LexicalError Lexeme :=
  match _hg : gapAt (c.skipWhile Text.isInlineBlank) with
  | .line => next strict (c.skipWhile Text.isInlineBlank).skipLine
  | .block =>
    match _hb : readBlockComment ((c.skipWhile Text.isInlineBlank).skip 2).rest
        ((c.skipWhile Text.isInlineBlank).skip 2).position false with
    | .ok (true, behind) =>
      .ok ⟨lineBreak, (c.skipWhile Text.isInlineBlank).position.offset, behind⟩
    | .ok (false, behind) => next strict behind
    | .error e => .error e
  | .none => readLexeme strict (c.skipWhile Text.isInlineBlank)
termination_by c.rest.length
decreasing_by
  · exact Nat.lt_of_lt_of_le (length_rest_skipLine_lt _hg) (length_dropWhile_le _ _)
  · exact Nat.lt_of_le_of_lt (length_rest_readBlockComment _hb)
      (Nat.lt_of_lt_of_le (length_rest_skip_two _hg) (length_dropWhile_le _ _))

theorem length_rest_readToken {strict : Bool} {ch : Char} {c : Cursor} {r : Token × Cursor}
    (hc : c.peek? = some ch) (h : readToken strict ch c = .ok r) :
    r.2.rest.length < c.rest.length := by
  have hstep := length_rest_step_lt hc
  unfold readToken at h
  split at h
  · cases hs : readString strict ch c.step [] with
    | error e => simp [hs, Except.map] at h
    | ok d =>
      simp only [hs, Except.map] at h
      cases h
      exact Nat.lt_of_le_of_lt (length_rest_readString hs) hstep
  · split at h
    · exact Nat.lt_of_le_of_lt (length_rest_readNumber h) hstep
    · split at h
      · exact length_rest_readWord hc h
      · split at h
        · next sign _ =>
          cases h
          have := sign.spelling_length_pos
          simp only [Cursor.skip, List.length_drop]
          omega
        · cases h

theorem length_rest_readLexeme {strict : Bool} {c : Cursor} {l : Lexeme}
    (h : readLexeme strict c = .ok l) :
    l.token = endOfInput ∧ l.next = c ∨ l.next.rest.length < c.rest.length := by
  unfold readLexeme at h
  split at h
  · cases h; exact .inl ⟨rfl, rfl⟩
  · next ch hc =>
    split at h
    · cases h; exact .inr (length_rest_skipLineBreak_lt hc)
    · cases ht : readToken strict ch c with
      | error e => simp [ht, Except.map] at h
      | ok d =>
        simp only [ht, Except.map] at h
        cases h
        exact .inr (length_rest_readToken hc ht)

/-- Every token but the end of the text takes at least one character. -/
theorem length_rest_next {strict : Bool} {c : Cursor} {l : Lexeme} (h : next strict c = .ok l) :
    l.token = endOfInput ∧ l.next.rest.length ≤ c.rest.length ∨
      l.next.rest.length < c.rest.length := by
  have hblank (c : Cursor) :
      (c.skipWhile Text.isInlineBlank).rest.length ≤ c.rest.length := length_dropWhile_le _ _
  fun_induction next strict c with
  | case1 c hg ih =>
    have := length_rest_skipLine_lt hg
    have := hblank c
    rcases ih h with ⟨ht, hl⟩ | hl
    · exact .inl ⟨ht, by omega⟩
    · exact .inr (by omega)
  | case2 c hg behind hb =>
    cases h
    have := length_rest_readBlockComment hb
    have := length_rest_skip_two hg
    have := hblank c
    exact .inr (by dsimp only at *; omega)
  | case3 c hg behind hb ih =>
    have := length_rest_readBlockComment hb
    have := length_rest_skip_two hg
    have := hblank c
    rcases ih h with ⟨ht, hl⟩ | hl
    · exact .inl ⟨ht, by dsimp only at *; omega⟩
    · exact .inr (by dsimp only at *; omega)
  | case4 => cases h
  | case5 c hg =>
    have := hblank c
    rcases length_rest_readLexeme h with ⟨ht, hn⟩ | hl
    · exact .inl ⟨ht, by rw [hn]; exact this⟩
    · exact .inr (by omega)

/-- Reads at most `count` tokens, up to the end of the text or an error. -/
def scanFrom (strict : Bool) : Nat → Cursor → List Lexeme × Option LexicalError
  | 0, _ => ([], none)
  | count + 1, c =>
    match next strict c with
    | .error e => ([], some e)
    | .ok lexeme =>
      match lexeme.token with
      | endOfInput => ([lexeme], none)
      | _ =>
        let (lexemes, error) := scanFrom strict count lexeme.next
        (lexeme :: lexemes, error)

/-- The tokens of a text up to its end or the first error.  Every token but the last takes a
character, so there are at most one more than characters. -/
def scan (strict : Bool) (source : String) : List Lexeme × Option LexicalError :=
  scanFrom strict (source.toList.length + 1) (Cursor.ofString source)

end Token

end ProtoScript
