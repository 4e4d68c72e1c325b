import ProtoScript.Proofs.Layout
/-!
# Texts on lines of their own

A text can stand in a longer one, with other lines in front of it and a line feed behind it.  No
reader looks behind that line feed unless it takes it, and none depends on what was read before the
text.  So each reader of the text does in the longer one what it does in the text alone, and the
tokens of two texts with a line feed between them are those of the one, a line break, and those of
the other.
-/

namespace ProtoScript

open String (utf8Len)

/-! ## Placements -/

/-- Where a text stands in a longer one: the bytes and the lines in front of it, and what is behind
it, which starts with a line feed unless it is empty. -/
structure Placement where
  offset : Nat
  lines : UInt32
  behind : List Char
  head_behind : ∀ ch ∈ behind.head?, ch = '\n'

namespace Placement

variable {k : Placement} {c d : Cursor} {ch : Char}

def position (k : Placement) (p : Position) : Position :=
  { p with offset := k.offset + p.offset, lineCount := k.lines + p.lineCount }

def cursor (k : Placement) (c : Cursor) : Cursor := ⟨c.rest ++ k.behind, k.position c.position⟩

def error (k : Placement) (e : LexicalError) : LexicalError :=
  { e with position := k.position e.position }

def pair {α : Type} (k : Placement) (found : α × Cursor) : α × Cursor := (found.1, k.cursor found.2)

/-- A lexeme of the text in the longer one, where a line break comes for the end of the text if
anything is behind it. -/
def lexeme (k : Placement) (l : Lexeme) : Lexeme :=
  match l.token, k.behind with
  | .endOfInput, _ :: rest =>
    ⟨.lineBreak, k.offset + l.start, ⟨rest, (k.position l.next.position).breakLine ['\n']⟩⟩
  | token, _ => ⟨token, k.offset + l.start, k.cursor l.next⟩

theorem behind_cases (k : Placement) : k.behind = [] ∨ ∃ rest, k.behind = '\n' :: rest := by
  have hhead := k.head_behind
  cases hbehind : k.behind with
  | nil => exact .inl rfl
  | cons ch rest =>
    rw [hbehind] at hhead
    obtain rfl := hhead ch rfl
    exact .inr ⟨rest, rfl⟩

theorem lexeme_of {l : Lexeme} (h : k.behind = [] ∨ l.token ≠ .endOfInput) :
    k.lexeme l = ⟨l.token, k.offset + l.start, k.cursor l.next⟩ := by
  unfold lexeme
  split
  · next hend hbehind =>
    rcases h with h | h
    · cases h.symm.trans hbehind
    · exact absurd hend h
  · rfl

theorem lexeme_end {l : Lexeme} {ch : Char} {rest : List Char} (hend : l.token = .endOfInput)
    (hbehind : k.behind = ch :: rest) :
    k.lexeme l =
      ⟨.lineBreak, k.offset + l.start, ⟨rest, (k.position l.next.position).breakLine ['\n']⟩⟩ := by
  unfold lexeme
  rw [hend, hbehind]

theorem position_step (k : Placement) (p : Position) (ch : Char) :
    k.position (p.step ch) = (k.position p).step ch := by
  simp only [position, Position.step, Nat.add_assoc]

theorem position_steps (k : Placement) (p : Position) (cs : List Char) :
    k.position (p.steps cs) = (k.position p).steps cs := by
  induction cs generalizing p with
  | nil => rfl
  | cons ch cs ih =>
    calc k.position ((p.step ch).steps cs) = (k.position (p.step ch)).steps cs := ih (p.step ch)
      _ = ((k.position p).step ch).steps cs := by rw [position_step]

theorem position_breakLine (k : Placement) (p : Position) (cs : List Char) :
    k.position (p.breakLine cs) = (k.position p).breakLine cs := by
  have hoffset := congrArg Position.offset (k.position_steps p cs)
  rw [Position.breakLine, Position.breakLine, ← hoffset]
  simp only [position, UInt32.add_assoc]

/-! ### Cursors -/

theorem peek_cursor (hc : c.peek? = some ch) : (k.cursor c).peek? = some ch := by
  obtain ⟨cs, p⟩ := c
  obtain ⟨rest, rfl⟩ := List.head?_eq_some_iff.mp hc
  rfl

/-- With nothing behind the text, only the position is another one. -/
theorem rest_cursor (hbehind : k.behind = []) (c : Cursor) : (k.cursor c).rest = c.rest := by
  rw [cursor, hbehind, List.append_nil]

theorem peek_cursor_of_behind (hbehind : k.behind = []) (c : Cursor) :
    (k.cursor c).peek? = c.peek? := by
  rw [Cursor.peek?, rest_cursor hbehind]
  rfl

/-- What says the same of a line feed as of the end of a text cannot tell where the text ends. -/
theorem test_peek {β : Type} (k : Placement) (test : Option Char → β)
    (htest : test (some '\n') = test none) (c : Cursor) :
    test (k.cursor c).peek? = test c.peek? := by
  cases hc : c.peek? with
  | some ch => rw [peek_cursor hc]
  | none =>
    have hrest : c.rest = [] := List.head?_eq_none_iff.mp hc
    rw [Cursor.peek?, cursor, hrest, List.nil_append]
    rcases k.behind_cases with hbehind | ⟨rest, hbehind⟩
    · rw [hbehind]
      rfl
    · rw [hbehind]
      exact htest

theorem step_cursor (hc : c.peek? = some ch) : (k.cursor c).step = k.cursor c.step := by
  obtain ⟨cs, p⟩ := c
  obtain ⟨rest, rfl⟩ := List.head?_eq_some_iff.mp hc
  simp only [cursor, Cursor.step, List.cons_append, position_step]

theorem step_cursor_of_behind (hbehind : k.behind = []) (c : Cursor) :
    (k.cursor c).step = k.cursor c.step := by
  cases hc : c.peek? with
  | some ch => exact step_cursor hc
  | none =>
    obtain ⟨cs, p⟩ := c
    obtain rfl : cs = [] := List.head?_eq_none_iff.mp hc
    simp only [cursor, Cursor.step, hbehind, List.append_nil]

theorem skip_cursor {count : Nat} (hcount : count ≤ c.rest.length) :
    (k.cursor c).skip count = k.cursor (c.skip count) := by
  simp only [cursor, Cursor.skip, List.drop_append_of_le_length hcount,
    List.take_append_of_le_length hcount, position_steps]

theorem takeWhile_cursor (k : Placement) {test : Char → Bool} (htest : test '\n' = false)
    (c : Cursor) : (k.cursor c).rest.takeWhile test = c.rest.takeWhile test := by
  have hbehind : k.behind.takeWhile test = [] := by
    rcases k.behind_cases with hbehind | ⟨rest, hbehind⟩
    · rw [hbehind]
      rfl
    · rw [hbehind, List.takeWhile_cons_of_neg (by simp [htest])]
  rw [cursor, List.takeWhile_append, hbehind, List.append_nil]
  split
  · next hlength => exact ((List.takeWhile_prefix test).eq_of_length hlength).symm
  · rfl

theorem skipWhile_cursor (k : Placement) {test : Char → Bool} (htest : test '\n' = false)
    (c : Cursor) : (k.cursor c).skipWhile test = k.cursor (c.skipWhile test) := by
  have hrest : (k.cursor c).rest.dropWhile test = c.rest.dropWhile test ++ k.behind := by
    have hwhole : c.rest.takeWhile test ++ (k.cursor c).rest.dropWhile test =
        c.rest.takeWhile test ++ (c.rest.dropWhile test ++ k.behind) := by
      rw [← List.append_assoc, List.takeWhile_append_dropWhile, ← k.takeWhile_cursor htest c,
        List.takeWhile_append_dropWhile]
      rfl
    exact List.append_cancel_left hwhole
  rw [Cursor.skipWhile, hrest, k.takeWhile_cursor htest c, cursor, ← position_steps]
  rfl

/-- The text by itself is read as where it stands: it does not end with a carriage return, which
would take the line feed along, and it does not start with `#!` unless it is the start of both
texts. -/
structure Fits (k : Placement) (c : Cursor) : Prop where
  last : k.behind ≠ [] → c.rest.getLast? ≠ some '\r'
  first : k.offset = 0 ∨ c.position.offset ≠ 0 ∨ ¬ ['#', '!'] <+: c.rest

theorem Fits.behind {w : List Char} (h : k.Fits c) (hrest : c.rest = w ++ d.rest)
    (hoffset : d.position.offset = c.position.offset + utf8Len w) : k.Fits d := by
  constructor
  · intro hbehind hlast
    apply h.last hbehind
    rw [hrest, List.getLast?_append, hlast]
    rfl
  · cases w with
    | nil =>
      rw [List.nil_append] at hrest
      rw [String.utf8Len_nil, Nat.add_zero] at hoffset
      rw [← hrest, hoffset]
      exact h.first
    | cons ch w =>
      refine .inr (.inl ?_)
      have hsize := ch.utf8Size_pos
      rw [hoffset, String.utf8Len_cons]
      omega

theorem Fits.walk {w : List Char} {n : Nat} (h : k.Fits c) (hwalk : Cursor.Walk c w n d) :
    k.Fits d :=
  h.behind hwalk.rest_eq hwalk.offset_eq

theorem Fits.step (h : k.Fits c) (hc : c.peek? = some ch) : k.Fits c.step := by
  obtain ⟨cs, p⟩ := c
  obtain ⟨rest, rfl⟩ := List.head?_eq_some_iff.mp hc
  exact h.behind (w := [ch]) rfl (by simp [Cursor.step, Position.step])

theorem skipLineBreak_cursor (h : k.Fits c) (hc : c.peek? = some ch) :
    (k.cursor c).skipLineBreak = k.cursor c.skipLineBreak := by
  obtain ⟨cs, p⟩ := c
  obtain ⟨rest, rfl⟩ := List.head?_eq_some_iff.mp hc
  by_cases hpair : ch = '\r' ∧ rest.head? = some '\n'
  · obtain ⟨rfl, hhead⟩ := hpair
    obtain ⟨rest, rfl⟩ := List.head?_eq_some_iff.mp hhead
    simp only [cursor, Cursor.skipLineBreak, List.cons_append, position_breakLine]
  · have hne : ch = '\r' → rest.head? ≠ some '\n' := fun hreturn hhead => hpair ⟨hreturn, hhead⟩
    have hne' : ch = '\r' → (rest ++ k.behind).head? ≠ some '\n' := by
      intro hreturn hhead
      cases rest with
      | nil =>
        refine h.last ?_ (by rw [hreturn]; rfl)
        intro hbehind
        rw [hbehind] at hhead
        cases hhead
      | cons next rest => exact hne hreturn hhead
    rw [cursor, List.cons_append, Cursor.skipLineBreak_single hne', Cursor.skipLineBreak_single hne,
      cursor, position_breakLine]

/-! ### Readers -/

section Carries

variable {α β : Type} {move : α → α} {move' : β → β} {r r' : Except LexicalError α}

/-- The second reader does in the longer text what the first one does in the text: what is found is
found there, and a failure is the same one if nothing stands behind the text. -/
def Carries (k : Placement) (move : α → α) (r r' : Except LexicalError α) : Prop :=
  match r with
  | .ok found => r' = .ok (move found)
  | .error e => k.behind = [] → r' = .error (k.error e)

theorem Carries.bind {f f' : α → Except LexicalError β} (hr : k.Carries move r r')
    (hf : ∀ found, r = .ok found → k.Carries move' (f found) (f' (move found))) :
    k.Carries move' (r >>= f) (r' >>= f') := by
  cases r with
  | ok found =>
    obtain rfl : r' = .ok (move found) := hr
    exact hf found rfl
  | error e =>
    intro hbehind
    rw [hr hbehind]
    rfl

theorem Carries.map {f f' : α → β} (hr : k.Carries move r r')
    (hf : ∀ found, r = .ok found → f' (move found) = move' (f found)) :
    k.Carries move' (r.map f) (r'.map f') := by
  cases r with
  | ok found =>
    obtain rfl : r' = .ok (move found) := hr
    exact congrArg Except.ok (hf found rfl)
  | error e =>
    intro hbehind
    rw [hr hbehind]
    rfl

end Carries

end Placement

namespace Token

variable {k : Placement} {c d : Cursor} {ch : Char} {strict : Bool}

open Cursor (Walk)
open Placement (peek_cursor peek_cursor_of_behind step_cursor step_cursor_of_behind skip_cursor
  skipLineBreak_cursor)

/-! ## Escapes and strings -/

theorem carries_readHexDigits (k : Placement) (count value : Nat) (c : Cursor) :
    k.Carries k.pair (readHexDigits count value c) (readHexDigits count value (k.cursor c)) := by
  induction count generalizing value c with
  | zero => rfl
  | succ count ih =>
    rw [readHexDigits, readHexDigits,
      k.test_peek (fun next => next.bind (Number.digitValue? 16)) (by decide)]
    split
    · next digit hdigit =>
      obtain ⟨ch, hc, -⟩ := Option.bind_eq_some_iff.mp hdigit
      rw [step_cursor hc]
      exact ih _ c.step
    · intro hbehind
      rw [step_cursor_of_behind hbehind]
      rfl

theorem carries_readBracedDigits (k : Placement) (value : Nat) (count : Int32) (c : Cursor) :
    k.Carries k.pair (readBracedDigits c.rest c.position value count)
      (readBracedDigits (k.cursor c).rest (k.cursor c).position value count) := by
  obtain ⟨cs, p⟩ := c
  induction cs generalizing p value count with
  | nil =>
    intro hbehind
    rw [Placement.rest_cursor hbehind]
    rfl
  | cons ch cs ih =>
    have hc : Cursor.peek? ⟨ch :: cs, p⟩ = some ch := rfl
    rw [readBracedDigits_step, readBracedDigits_step (k.cursor _), peek_cursor hc, hc]
    dsimp only
    rw [step_cursor hc]
    split
    · rfl
    split
    · next digit _ =>
      split
      · exact fun _ => rfl
      · exact ih _ _ (p.step ch)
    · exact fun _ => rfl

theorem carries_readUnicodeEscape (k : Placement) (c : Cursor) :
    k.Carries k.pair (readUnicodeEscape c) (readUnicodeEscape (k.cursor c)) := by
  unfold readUnicodeEscape
  rw [k.test_peek (fun next => next == some '\x7b') (by decide)]
  split
  · next hbrace =>
    rw [step_cursor (eq_of_beq hbrace)]
    exact (carries_readBracedDigits k 0 0 c.step).bind fun _ _ => rfl
  · exact (carries_readHexDigits k 4 0 c).bind fun _ _ => rfl

theorem readOctalDigits_cursor (k : Placement) (count value : Nat) (c : Cursor) :
    readOctalDigits count value (k.cursor c) = k.pair (readOctalDigits count value c) := by
  induction count generalizing value c with
  | zero => rfl
  | succ count ih =>
    rw [readOctalDigits, readOctalDigits,
      k.test_peek (fun next => next.bind (Number.digitValue? 8)) (by decide)]
    split
    · next digit hdigit =>
      obtain ⟨ch, hc, -⟩ := Option.bind_eq_some_iff.mp hdigit
      rw [step_cursor hc]
      exact ih _ c.step
    · rfl

theorem carries_readEscape (h : k.Fits c) :
    k.Carries k.pair (readEscape strict c) (readEscape strict (k.cursor c)) := by
  unfold readEscape
  cases hc : c.peek? with
  | none =>
    intro hbehind
    rw [peek_cursor_of_behind hbehind, hc]
    rfl
  | some ch =>
    rw [peek_cursor hc]
    dsimp only
    rw [step_cursor hc, k.test_peek (fun next => next.any Char.isDigit) (by decide),
      skipLineBreak_cursor h hc]
    split
    · rfl
    split
    · rfl
    split
    · next digit _ =>
      rw [readOctalDigits_cursor]
      split
      · exact fun _ => rfl
      · rfl
    split
    · exact (carries_readHexDigits k 2 0 c.step).map fun _ _ => rfl
    split
    · exact (carries_readUnicodeEscape k c.step).map fun _ _ => rfl
    split
    · rfl
    · rfl

theorem carries_readString {quote : Char} {content : List Char} (h : k.Fits c) :
    k.Carries k.pair (readString strict quote c content)
      (readString strict quote (k.cursor c) content) := by
  induction hsize : c.rest.length using Nat.strongRecOn generalizing c content with
  | ind size ih =>
  subst hsize
  rw [readString_step, readString_step strict quote (k.cursor c)]
  cases hc : c.peek? with
  | none =>
    intro hbehind
    rw [peek_cursor_of_behind hbehind, hc]
    rfl
  | some ch =>
    have hstep := h.step hc
    have hlt := length_rest_step_lt hc
    rw [peek_cursor hc]
    dsimp only
    rw [step_cursor hc]
    split
    · rfl
    split
    · refine (carries_readEscape hstep).bind fun found he => ?_
      obtain ⟨w, hwalk, -⟩ := walk_readEscape he
      exact ih _ ((length_rest_readEscape he).trans hlt) (hstep.walk hwalk) rfl
    split
    · exact fun _ => rfl
    · exact ih _ hlt hstep rfl

/-! ## Numbers -/

theorem digitsAt_cursor (k : Placement) (radix : Nat) (c : Cursor) :
    digitsAt radix (k.cursor c) = k.pair (digitsAt radix c) := by
  obtain ⟨cs, p⟩ := c
  induction cs generalizing p with
  | nil =>
    show digitsAt radix ⟨k.behind, k.position p⟩ = ([], ⟨k.behind, k.position p⟩)
    rcases k.behind_cases with hbehind | ⟨rest, hbehind⟩
    · rw [hbehind]
      rfl
    · rw [hbehind]
      rfl
  | cons ch cs ih =>
    have hc : Cursor.peek? ⟨ch :: cs, p⟩ = some ch := rfl
    rw [digitsAt_step, digitsAt_step radix ⟨ch :: cs, p⟩, peek_cursor hc, hc]
    dsimp only
    rw [step_cursor hc, k.test_peek (fun next => next.any (Number.isDigitOf radix)) rfl,
      show Cursor.step ⟨ch :: cs, p⟩ = ⟨cs, p.step ch⟩ from rfl, ih]
    split
    · rfl
    split
    · rfl
    · rfl

theorem carries_endNumber (k : Placement) (token : Token) (c : Cursor) :
    k.Carries k.pair (endNumber token c) (endNumber token (k.cursor c)) := by
  unfold endNumber
  rw [k.test_peek (fun next => next.any fun ch => Text.isIdentifierStart ch || ch.isDigit)
    (by decide)]
  split
  · exact fun _ => rfl
  · rfl

theorem carries_readRadixNumber (k : Placement) (radix : Nat) (c : Cursor) :
    k.Carries k.pair (readRadixNumber radix c) (readRadixNumber radix (k.cursor c)) := by
  unfold readRadixNumber
  rw [digitsAt_cursor]
  dsimp only [Placement.pair]
  split
  · exact fun _ => rfl
  · exact carries_endNumber k _ _

theorem carries_readLeadingZero (k : Placement) (c : Cursor) :
    k.Carries k.pair (readLeadingZero strict c) (readLeadingZero strict (k.cursor c)) := by
  unfold readLeadingZero
  rw [k.takeWhile_cursor (by decide), k.skipWhile_cursor (by decide)]
  dsimp only
  split
  · exact fun _ => rfl
  split
  · exact carries_endNumber k _ _
  · exact carries_endNumber k _ _

theorem carries_readExponent (k : Placement) (c : Cursor) :
    k.Carries k.pair (readExponent c) (readExponent (k.cursor c)) := by
  unfold readExponent
  rw [k.test_peek (fun next => next.any fun ch => ch == 'e' || ch == 'E') (by decide)]
  split
  · next hletter =>
    obtain ⟨ch, hc, -⟩ := (Option.any_eq_true _ _).mp hletter
    dsimp only
    rw [step_cursor hc,
      k.test_peek (fun next => next.toList.filter fun ch => ch == '+' || ch == '-') (by decide),
      skip_cursor, digitsAt_cursor]
    · split
      · next hempty => exact fun _ => if_pos hempty
      · next hempty => exact if_neg hempty
    · obtain ⟨cs, p⟩ := c.step
      refine (List.length_filter_le _ _).trans ?_
      cases cs <;> simp [Cursor.peek?]
  · rfl

theorem readMantissa_cursor (k : Placement) (first : Char) (c : Cursor) :
    readMantissa first (k.cursor c) = k.pair (readMantissa first c) := by
  unfold readMantissa
  rw [digitsAt_cursor]
  dsimp only [Placement.pair]
  rw [k.test_peek (fun next => next == some '.') (by decide)]
  split
  · rfl
  split
  · next hpoint =>
    rw [step_cursor (eq_of_beq hpoint), digitsAt_cursor]
    rfl
  · rfl

theorem carries_readDecimal (k : Placement) (first : Char) (c : Cursor) :
    k.Carries k.pair (readDecimal first c) (readDecimal first (k.cursor c)) := by
  unfold readDecimal
  rw [readMantissa_cursor]
  exact (carries_readExponent k _).bind fun _ _ => carries_endNumber k _ _

theorem carries_readNumber (k : Placement) (first : Char) (c : Cursor) :
    k.Carries k.pair (readNumber strict first c) (readNumber strict first (k.cursor c)) := by
  unfold readNumber
  rw [k.test_peek (fun next => next.bind radixOfLetter?) (by decide),
    k.test_peek (fun next => next.any Char.isDigit) (by decide)]
  split
  · next radix hradix =>
    obtain ⟨ch, hc, -⟩ : ∃ ch, c.peek? = some ch ∧ radixOfLetter? ch = some radix := by
      split at hradix
      · exact Option.bind_eq_some_iff.mp hradix
      · cases hradix
    rw [step_cursor hc]
    exact carries_readRadixNumber k radix c.step
  split
  · exact carries_readLeadingZero k c
  · exact carries_readDecimal k first c

/-! ## Names -/

theorem readName_of_nil (hrest : c.rest = []) (name : List Char) (escaped : Bool) :
    readName (k.cursor c) name escaped = .ok (String.ofList name.reverse, escaped, k.cursor c) := by
  rw [readName_step, Cursor.peek?, Placement.cursor, hrest, List.nil_append]
  rcases k.behind_cases with hbehind | ⟨rest, hbehind⟩
  · rw [hbehind]
    rfl
  · rw [hbehind]
    rfl

theorem carries_readName (k : Placement) (c : Cursor) (name : List Char) (escaped : Bool) :
    k.Carries (Prod.map id k.pair) (readName c name escaped)
      (readName (k.cursor c) name escaped) := by
  induction hsize : c.rest.length using Nat.strongRecOn generalizing c name escaped with
  | ind size ih =>
  subst hsize
  cases hc : c.peek? with
  | none =>
    rw [readName_of_nil (List.head?_eq_none_iff.mp hc), readName_step, hc]
    rfl
  | some ch =>
    have hlt := length_rest_step_lt hc
    rw [readName_step, readName_step (k.cursor c), peek_cursor hc, hc]
    dsimp only
    rw [step_cursor hc, k.test_peek (fun next => next == some 'u') (by decide)]
    split
    · split
      · next hu =>
        have hlt' := length_rest_step_lt (eq_of_beq hu)
        rw [step_cursor (eq_of_beq hu)]
        refine (carries_readUnicodeEscape k c.step.step).bind fun found he => ?_
        have hle := length_rest_readUnicodeEscape he
        exact ih _ (by omega) found.2 _ true rfl
      · intro hbehind
        rw [step_cursor_of_behind hbehind]
        rfl
    split
    · exact ih _ hlt c.step _ escaped rfl
    · rfl

theorem carries_readWord (hc : c.peek? = some ch) :
    k.Carries k.pair (readWord ch c) (readWord ch (k.cursor c)) := by
  unfold readWord
  rw [step_cursor hc]
  dsimp only
  split
  · exact (carries_readName k c [] false).bind fun _ _ => rfl
  · exact (carries_readName k c.step [ch] false).bind fun _ _ => rfl

/-! ## Tokens -/

theorem prefix_cursor {w : List Char} (hw : '\n' ∉ w) (k : Placement) (cs : List Char) :
    w <+: cs ++ k.behind ↔ w <+: cs := by
  induction w generalizing cs with
  | nil => simp
  | cons ch w ih =>
    rw [List.mem_cons, not_or] at hw
    cases cs with
    | cons next cs => rw [List.cons_append, List.cons_prefix_cons, List.cons_prefix_cons, ih hw.2]
    | nil =>
      rcases k.behind_cases with hbehind | ⟨rest, hbehind⟩
      · rw [hbehind, List.append_nil]
      · rw [hbehind, List.nil_append, List.cons_prefix_cons]
        exact iff_of_false (fun h => hw.1 h.1.symm) (by simp)

theorem longest?_cursor (k : Placement) (c : Cursor) :
    Punctuator.longest? (k.cursor c).rest = Punctuator.longest? c.rest := by
  have hstart (sign : Punctuator) : sign.spelling.isPrefixOf (k.cursor c).rest =
      sign.spelling.isPrefixOf c.rest := by
    have hbreak : '\n' ∉ sign.spelling := by
      intro hmem
      cases inLine_spelling sign '\n' hmem
    rw [Bool.eq_iff_iff, List.isPrefixOf_iff_prefix, List.isPrefixOf_iff_prefix]
    exact prefix_cursor hbreak k c.rest
  unfold Punctuator.longest? Punctuator.ofLength?
  simp only [hstart]

theorem carries_readToken (h : k.Fits c) (hc : c.peek? = some ch) :
    k.Carries k.pair (readToken strict ch c) (readToken strict ch (k.cursor c)) := by
  unfold readToken
  rw [step_cursor hc, k.test_peek (fun next => next.any Char.isDigit) (by decide), longest?_cursor]
  split
  · exact (carries_readString (h.step hc)).map fun _ _ => rfl
  split
  · exact carries_readNumber k ch c.step
  split
  · exact carries_readWord hc
  split
  · next sign hsign =>
    rw [skip_cursor (spelling_prefix_of_longest? hsign).length_le]
    rfl
  · exact fun _ => rfl

theorem carries_readBlockComment (h : k.Fits c) (crossed : Bool) :
    k.Carries k.pair (readBlockComment c.rest c.position crossed)
      (readBlockComment (k.cursor c).rest (k.cursor c).position crossed) := by
  induction hsize : c.rest.length using Nat.strongRecOn generalizing c crossed with
  | ind size ih =>
  subst hsize
  rw [readBlockComment_step, readBlockComment_step (k.cursor c)]
  cases hc : c.peek? with
  | none =>
    intro hbehind
    rw [peek_cursor_of_behind hbehind, hc]
    rfl
  | some ch =>
    rw [peek_cursor hc]
    dsimp only
    rw [step_cursor hc, k.test_peek (fun next => next == some '/') (by decide),
      skipLineBreak_cursor h hc]
    split
    · next hclosed =>
      have hslash : c.step.peek? = some '/' := by simpa using (Bool.and_eq_true_iff.mp hclosed).2
      have hfirst := length_rest_step_lt hc
      have hsecond := length_rest_step_lt hslash
      rw [skip_cursor (by omega)]
      rfl
    split
    · next hbreak =>
      obtain ⟨along, -, hline⟩ := Walk.skipLineBreak hc hbreak
      exact ih _ (length_rest_skipLineBreak_lt hc) (h.walk hline) true rfl
    · exact ih _ (length_rest_step_lt hc) (h.step hc) crossed rfl

theorem gapAt_eq (c : Cursor) :
    gapAt c =
      if ['/', '/'] <+: c.rest then .line
      else if ['/', '*'] <+: c.rest then .block
      else if ['#', '!'] <+: c.rest ∧ c.position.offset = 0 then .line
      else .none := by
  unfold gapAt
  split
  · next hrest => simp [hrest]
  · next hrest => simp [hrest]
  · next hrest => simp [hrest]
  · next hline hblock hfirst =>
    have hnot (a b : Char) (h : ∀ rest, c.rest ≠ a :: b :: rest) : ¬ [a, b] <+: c.rest := by
      rintro ⟨rest, hrest⟩
      exact h rest hrest.symm
    rw [if_neg (hnot _ _ hline), if_neg (hnot _ _ hblock), if_neg fun h => hnot _ _ hfirst h.1]

theorem gapAt_cursor (h : k.Fits c) : gapAt (k.cursor c) = gapAt c := by
  have hprefix {w : List Char} (hw : '\n' ∉ w) : w <+: (k.cursor c).rest ↔ w <+: c.rest :=
    prefix_cursor hw k c.rest
  have hfirst : ['#', '!'] <+: c.rest ∧ (k.cursor c).position.offset = 0 ↔
      ['#', '!'] <+: c.rest ∧ c.position.offset = 0 := by
    refine and_congr_right fun hstart => ?_
    have hfits := h.first
    simp only [Placement.cursor, Placement.position]
    grind
  simp only [gapAt_eq, hprefix (show '\n' ∉ ['/', '/'] by decide),
    hprefix (show '\n' ∉ ['/', '*'] by decide), hprefix (show '\n' ∉ ['#', '!'] by decide), hfirst]

theorem carries_readLexeme (h : k.Fits c) :
    k.Carries k.lexeme (readLexeme strict c) (readLexeme strict (k.cursor c)) := by
  unfold readLexeme
  cases hc : c.peek? with
  | none =>
    have hrest : c.rest = [] := List.head?_eq_none_iff.mp hc
    rcases k.behind_cases with hbehind | ⟨rest, hbehind⟩
    · rw [peek_cursor_of_behind hbehind, hc]
      rw [Placement.Carries, Placement.lexeme_of (.inl hbehind)]
      rfl
    · have hcursor : k.cursor c = ⟨'\n' :: rest, k.position c.position⟩ := by
        rw [Placement.cursor, hrest, hbehind, List.nil_append]
      rw [hcursor, Placement.Carries, Placement.lexeme_end rfl hbehind]
      rfl
  | some ch =>
    rw [peek_cursor hc, skipLineBreak_cursor h hc]
    dsimp only
    split
    · rfl
    · refine (carries_readToken h hc).map fun found ht => ?_
      have hend : found.1 ≠ endOfInput := by
        intro hend
        have hfound := isEnd_readToken ht
        rw [hend] at hfound
        cases hfound
      rw [Placement.lexeme_of (.inr hend)]
      rfl

theorem carries_next (strict : Bool) (h : k.Fits c) :
    k.Carries k.lexeme (next strict c) (next strict (k.cursor c)) := by
  induction hsize : c.rest.length using Nat.strongRecOn generalizing c with
  | ind size ih =>
  subst hsize
  have hblank : k.Fits (c.skipWhile Text.isInlineBlank) :=
    h.walk (.skipWhile (fun _ => isLineBreak_of_isInlineBlank) c)
  have hlength : (c.skipWhile Text.isInlineBlank).rest.length ≤ c.rest.length :=
    length_dropWhile_le _ _
  -- neither the blanks nor the sign behind them run over a line feed
  rw [next_step, next_step strict (k.cursor c), k.skipWhile_cursor (by decide), gapAt_cursor hblank]
  generalize c.skipWhile Text.isInlineBlank = d at hblank hlength
  cases hg : gapAt d with
  | line =>
    have hskip : (k.cursor d).skipLine = k.cursor d.skipLine := k.skipWhile_cursor (by decide) d
    obtain ⟨w, hwalk⟩ := (skips_line hg).walk
    have hlt := length_rest_skipLine_lt hg
    dsimp only
    rw [hskip]
    exact ih _ (by omega) (hblank.walk hwalk) rfl
  | block =>
    obtain ⟨rest, hrest⟩ := rest_of_block hg
    have hopening := hblank.walk (walk_opening hg)
    have hlt := length_rest_skip_two hg
    dsimp only
    rw [skip_cursor (by simp [hrest])]
    refine (carries_readBlockComment hopening false).bind fun ⟨crossed, behind⟩ hb => ?_
    obtain ⟨body, hwalk, -⟩ := walk_readBlockComment hb
    have hle : behind.rest.length ≤ (d.skip 2).rest.length := length_rest_readBlockComment hb
    cases crossed with
    | true => rfl
    | false => exact ih _ (hle.trans_lt (hlt.trans_le hlength)) (hopening.walk hwalk) rfl
  | none => exact carries_readLexeme hblank

/-! ## Reading token after token -/

theorem next_cursor {l : Lexeme} (h : k.Fits c) (hl : next strict c = .ok l) :
    next strict (k.cursor c) = .ok (k.lexeme l) := by
  have hnext := carries_next strict h
  rwa [hl] at hnext

theorem fits_next {l : Lexeme} (h : k.Fits c) (hl : next strict c = .ok l) : k.Fits l.next := by
  obtain ⟨w, n, hwalk⟩ := exists_walk_next hl
  exact h.walk hwalk

namespace Scans

variable {ls more : List Lexeme} {e : Option LexicalError} {rest : List Char}

/-- With nothing behind the text, all of its tokens are read in the longer one, up to a failure. -/
theorem carry (h : Scans strict c ls e) (hfits : k.Fits c) (hbehind : k.behind = []) :
    Scans strict (k.cursor c) (ls.map k.lexeme) (e.map k.error) := by
  induction h with
  | @fails c error he =>
    have hnext := carries_next strict hfits
    rw [he] at hnext
    exact .fails (hnext hbehind)
  | ends hl ht =>
    exact .ends (next_cursor hfits hl) (by rw [Placement.lexeme_of (.inl hbehind), ht])
  | @token c l ls e hl ht _ ih =>
    have hrest := ih (fits_next hfits hl)
    have hlexeme := Placement.lexeme_of (l := l) (.inl hbehind)
    refine .token (next_cursor hfits hl) (by rwa [hlexeme]) ?_
    rwa [hlexeme]

/-- With a line feed behind the text, its tokens are read up to the end of the text, then a line
break, and then those of the next line. -/
theorem join (h : Scans strict c ls none) (hfits : k.Fits c) (hbehind : k.behind = '\n' :: rest) :
    ∃ (front : List Token) (p : Position), ls.map Lexeme.token = front ++ [endOfInput] ∧
      ∀ more e, Scans strict ⟨rest, p.breakLine ['\n']⟩ more e →
        ∃ joined, Scans strict (k.cursor c) joined e ∧
          joined.map Lexeme.token = front ++ lineBreak :: more.map Lexeme.token := by
  generalize hnone : (none : Option LexicalError) = failure at h
  induction h with
  | fails => cases hnone
  | @ends c l hl ht =>
    have hnext := next_cursor hfits hl
    rw [Placement.lexeme_end ht hbehind] at hnext
    refine ⟨[], k.position l.next.position, ?_, fun more e hmore => ?_⟩
    · rw [List.map_singleton, ht]
      rfl
    · exact ⟨_, .token hnext nofun hmore, rfl⟩
  | @token c l ls failure hl ht _ ih =>
    have hnext := next_cursor hfits hl
    rw [Placement.lexeme_of (.inr ht)] at hnext
    obtain ⟨front, p, hfront, hjoin⟩ := ih (fits_next hfits hl) hnone
    refine ⟨l.token :: front, p, ?_, fun more e hmore => ?_⟩
    · rw [List.map_cons, hfront]
      rfl
    · obtain ⟨joined, hscans, hjoined⟩ := hjoin more e hmore
      refine ⟨_, .token hnext ht hscans, ?_⟩
      rw [List.map_cons, hjoined]
      rfl

end Scans

/-- The tokens of two texts with a line feed between them: those of the first one without its end, a
line break, and those of the second one, up to the same failure if it has one. -/
theorem scan_joined_lines {first second : String} (hfirst : (scan strict first).2 = none)
    (hlast : first.toList.getLast? ≠ some '\r') (hstart : ¬ ['#', '!'] <+: second.toList) :
    ∃ front, (scan strict first).1.map Lexeme.token = front ++ [endOfInput] ∧
      (scan strict (first ++ "\n" ++ second)).1.map Lexeme.token =
        front ++ lineBreak :: (scan strict second).1.map Lexeme.token ∧
      (scan strict (first ++ "\n" ++ second)).2.map LexicalError.fault =
        (scan strict second).2.map LexicalError.fault := by
  have hscans := scans_scan strict first
  rw [hfirst] at hscans
  -- the first text is the start of the whole, with the line feed and the second text behind it
  let k : Placement := ⟨0, 0, '\n' :: second.toList, by simp⟩
  have hcursor : k.cursor (.ofString first) = .ofString (first ++ "\n" ++ second) := by
    simp [k, Placement.cursor, Placement.position, Cursor.ofString, Position.start]
  obtain ⟨front, p, hfront, hjoin⟩ := hscans.join (k := k) ⟨fun _ => hlast, .inl rfl⟩ rfl
  -- the second text is the end of the whole, at the start of the line that is reached there
  let k' : Placement := ⟨(p.breakLine ['\n']).offset, p.lineCount, [], by simp⟩
  have hcursor' : k'.cursor (.ofString second) = ⟨second.toList, p.breakLine ['\n']⟩ := by
    simp [k', Placement.cursor, Placement.position, Cursor.ofString, Position.start,
      Position.breakLine]
  have hmore := (scans_scan strict second).carry (k := k') ⟨absurd rfl, .inr (.inr hstart)⟩ rfl
  rw [hcursor'] at hmore
  obtain ⟨joined, hboth, hjoined⟩ := hjoin _ _ hmore
  rw [hcursor] at hboth
  have hscan : scan strict (first ++ "\n" ++ second) = (joined, _) :=
    hboth.scanFrom_eq (Nat.lt_succ_self _)
  have htokens (ls : List Lexeme) : (ls.map k'.lexeme).map Lexeme.token = ls.map Lexeme.token := by
    rw [List.map_map]
    refine List.map_congr_left fun l _ => ?_
    rw [Function.comp_apply, Placement.lexeme_of (.inl rfl)]
  refine ⟨front, hfront, ?_, ?_⟩
  · rw [hscan, hjoined, htokens]
  · rw [hscan, Option.map_map]
    rfl

/-- A comment up to the end of the first text, and a second text that fails behind a number. -/
theorem scan_joined_comment :
    (scan true "a // 'b'").2 = none ∧ ("a // 'b'".toList.getLast? ≠ some '\r') ∧
      (¬ ['#', '!'] <+: "1_0 #".toList) ∧
      ∃ front, (scan true "a // 'b'").1.map Lexeme.token = front ++ [endOfInput] ∧
        (scan true ("a // 'b'" ++ "\n" ++ "1_0 #")).1.map Lexeme.token =
          front ++ lineBreak :: (scan true "1_0 #").1.map Lexeme.token ∧
        (scan true ("a // 'b'" ++ "\n" ++ "1_0 #")).2.map LexicalError.fault =
          (scan true "1_0 #").2.map LexicalError.fault :=
  have hfirst : (scan true "a // 'b'").2 = none := by decide +kernel
  have hlast : "a // 'b'".toList.getLast? ≠ some '\r' := by decide +kernel
  have hstart : ¬ ['#', '!'] <+: "1_0 #".toList := by decide +kernel
  ⟨hfirst, hlast, hstart, scan_joined_lines hfirst hlast hstart⟩

end Token

end ProtoScript
