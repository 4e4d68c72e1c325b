import Mathlib.Algebra.GroupWithZero.Nat
import ProtoScript.Proofs.Layout
/-!
# The text of a token

A token takes the characters of the text between two offsets.  The line behind it is given by the
line breaks of the text up to there, apart from separators that stand raw in strings, and the name
of an identifier by the pieces it is written in.
-/

namespace ProtoScript

open String (utf8Len)

def Lexeme.span (source : String) (l : Lexeme) : List Char :=
  (String.Pos.Raw.extract source ⟨l.start⟩ ⟨l.next.position.offset⟩).toList

def Lexeme.rawSeparators (source : String) (l : Lexeme) : Nat :=
  l.token.rawSeparators (l.span source)

def Text.before (source : String) (offset : Nat) : List Char :=
  (String.Pos.Raw.extract source 0 ⟨offset⟩).toList

theorem Text.before_eq {source : String} {w rest : List Char} (h : source.toList = w ++ rest) :
    before source (utf8Len w) = w := by
  have hextract := String.extract_of_valid [] w rest
  rw [List.nil_append, ← h, String.ofList_toList, String.utf8Len_nil, Nat.zero_add] at hextract
  rw [before, show (0 : String.Pos.Raw) = ⟨0⟩ from rfl, hextract, String.toList_ofList]

theorem Text.lineBreaks_le_length (w : List Char) : lineBreaks w ≤ w.length := by
  fun_induction lineBreaks w with
  | case1 => exact Nat.le_refl _
  | case2 rest ih =>
    simp only [List.length_cons]
    omega
  | case3 ch rest _ ih =>
    simp only [List.length_cons]
    split <;> omega

namespace Token

open Cursor (Walk)

variable {c d : Cursor} {strict : Bool} {source : String} {v w : List Char} {n m : Nat} {l : Lexeme}

theorem span_eq (hbefore : Walk (.ofString source) v n d) (hstart : l.start = d.position.offset)
    (hwalk : Walk d w m l.next) : l.span source = w := by
  have hsource : source.toList = v ++ w ++ l.next.rest := by
    rw [List.append_assoc, ← hwalk.rest_eq]
    exact hbefore.rest_eq
  have hoffset := hbefore.offset_eq
  rw [show (Cursor.ofString source).position.offset = 0 from rfl, Nat.zero_add] at hoffset
  have hextract := String.extract_of_valid v w l.next.rest
  rw [← hsource, String.ofList_toList] at hextract
  rw [Lexeme.span, hstart, hwalk.offset_eq, hoffset, hextract, String.toList_ofList]

theorem span_of_next (hbefore : Walk (.ofString source) v n c) (hl : next strict c = .ok l) :
    ∃ d u, Walk (.ofString source) u n d ∧ readHere strict d = .ok l ∧
      Walk d (l.span source) (l.rawSeparators source) l.next := by
  obtain ⟨d, hskips, -, hnext⟩ := next_skips strict c
  rw [hl] at hnext
  obtain ⟨hstart, w, hwalk, -⟩ := walk_readHere hnext.symm
  obtain ⟨u, hblank⟩ := hskips.walk
  have hto := hbefore.trans hblank
  refine ⟨d, v ++ u, hto, hnext.symm, ?_⟩
  rw [Lexeme.rawSeparators, span_eq hto hstart hwalk]
  exact hwalk

/-! ## Lines -/

/-- The walk to the end of a lexeme passes the separators of the strings up to there as they are. -/
theorem Scans.walk_of_mem {front back : List Lexeme} {e : Option LexicalError}
    (h : Scans strict c (front ++ l :: back) e) (hbefore : Walk (.ofString source) v n c) :
    ∃ w, Walk (.ofString source) w
      (n + ((front ++ [l]).map (Lexeme.rawSeparators source)).sum) l.next := by
  induction front generalizing c v n with
  | nil =>
    have hl : next strict c = .ok l := by
      cases h with
      | ends hl => exact hl
      | token hl => exact hl
    obtain ⟨d, u, hto, -, hwalk⟩ := span_of_next hbefore hl
    exact ⟨_, by simpa using hto.trans hwalk⟩
  | cons first front ih =>
    rw [List.cons_append] at h
    generalize hls : front ++ l :: back = ls at h
    cases h with
    | ends => simp at hls
    | token hl _ hrest =>
      subst hls
      obtain ⟨d, u, hto, -, hwalk⟩ := span_of_next hbefore hl
      obtain ⟨w, hw⟩ := ih hrest (hto.trans hwalk)
      refine ⟨w, ?_⟩
      rw [List.cons_append, List.map_cons, List.sum_cons, ← Nat.add_assoc]
      exact hw

theorem walk_of_scan {front back : List Lexeme} (h : (scan strict source).1 = front ++ l :: back) :
    ∃ w, Walk (.ofString source) w ((front ++ [l]).map (Lexeme.rawSeparators source)).sum l.next ∧
      Text.before source l.next.position.offset = w := by
  have hscans := scans_scan strict source
  rw [h] at hscans
  obtain ⟨w, hwalk⟩ := hscans.walk_of_mem .done
  rw [Nat.zero_add] at hwalk
  have hoffset : l.next.position.offset = utf8Len w := by
    rw [hwalk.offset_eq]
    exact Nat.zero_add _
  exact ⟨w, hwalk, by rw [hoffset, Text.before_eq hwalk.rest_eq]⟩

/-- Behind every token the line is one more than the line breaks of the text up to there, where
separators that stand raw in strings do not count, as 32 bits count.  It is that number itself in
every text of fewer than `2 ^ 32 - 1` characters. -/
theorem line_counts_breaks {front back : List Lexeme}
    (h : (scan strict source).1 = front ++ l :: back) :
    l.next.position.line =
        (1 + Text.lineBreaks (Text.before source l.next.position.offset) -
          ((front ++ [l]).map (Lexeme.rawSeparators source)).sum) % 4294967296 ∧
      (source.length < 4294967295 →
        l.next.position.line + ((front ++ [l]).map (Lexeme.rawSeparators source)).sum =
          1 + Text.lineBreaks (Text.before source l.next.position.offset)) := by
  obtain ⟨w, hwalk, hbefore⟩ := walk_of_scan h
  have hline := hwalk.line_eq
  have hraw := hwalk.le_lineBreaks
  have hlt := l.next.position.lineCount.toNat_lt
  change l.next.position.line < 4294967296 at hlt
  rw [show (Cursor.ofString source).position.line = 1 from rfl] at hline
  rw [hbefore]
  refine ⟨by omega, fun hshort => ?_⟩
  have hbreaks := Text.lineBreaks_le_length w
  have hlength := congrArg List.length hwalk.rest_eq
  rw [show (Cursor.ofString source).rest = source.toList from rfl, List.length_append,
    String.length_toList] at hlength
  omega

/-- A break in a comment, one that a string leaves out, a separator raw in the string, and a
carriage return at the end: three of the four breaks of the text count. -/
theorem line_counts_every_break :
    ∃ front l, (scan true "/*\r\n*/'a\\\n\u2028'\r").1 = front ++ [l] ∧ l.next.position.line = 4 ∧
      l.next.position.line + ((front ++ [l]).map
          (Lexeme.rawSeparators "/*\r\n*/'a\\\n\u2028'\r")).sum =
        1 + Text.lineBreaks (Text.before "/*\r\n*/'a\\\n\u2028'\r" l.next.position.offset) := by
  have hline : (scan true "/*\r\n*/'a\\\n\u2028'\r").1.getLast?.map (·.next.position.line) =
      some 4 := by
    decide +kernel
  obtain ⟨l, hlast, hl⟩ := Option.map_eq_some_iff.mp hline
  obtain ⟨front, hfront⟩ := List.getLast?_eq_some_iff.mp hlast
  exact ⟨front, l, hfront, hl, (line_counts_breaks hfront).2 (by decide +kernel)⟩

/-! ### Texts of line feeds -/

theorem next_lineFeed (strict : Bool) (rest : List Char) (p : Position) :
    next strict ⟨'\n' :: rest, p⟩ =
      .ok ⟨lineBreak, p.offset, (⟨'\n' :: rest, p⟩ : Cursor).skipLineBreak⟩ := by
  have hgap : gapAt ⟨'\n' :: rest, p⟩ = .none := rfl
  have hbare : ¬ StartsTrivia ⟨'\n' :: rest, p⟩ :=
    not_startsTrivia (by simp; decide) (by rw [hgap]; exact nofun) (by rw [hgap]; exact nofun)
  rw [next_eq_readHere strict hbare, readHere, hgap]
  rfl

theorem scans_lineFeeds (strict : Bool) (source : String) (n : Nat) (p : Position) :
    ∃ front l, Scans strict ⟨List.replicate n '\n', p⟩ (front ++ [l]) none ∧ l.next.rest = [] ∧
      ∀ read ∈ front ++ [l], read.rawSeparators source = 0 := by
  induction n generalizing p with
  | zero =>
    have hend : next strict ⟨[], p⟩ = .ok ⟨endOfInput, p.offset, ⟨[], p⟩⟩ := by
      rw [next]
      rfl
    exact ⟨[], _, .ends hend rfl, rfl, by simp [Lexeme.rawSeparators, rawSeparators]⟩
  | succ n ih =>
    obtain ⟨front, l, hscans, hrest, hraw⟩ := ih (p.breakLine ['\n'])
    refine ⟨_ :: front, l, .token (next_lineFeed strict _ p) (by simp) ?_, hrest, ?_⟩
    · rw [Cursor.skipLineBreak_single fun hfeed => absurd hfeed (by decide)]
      exact hscans
    · rw [List.cons_append, List.forall_mem_cons]
      exact ⟨rfl, hraw⟩

theorem lineBreaks_replicate (n : Nat) : Text.lineBreaks (List.replicate n '\n') = n := by
  induction n with
  | zero => rfl
  | succ n ih =>
    rw [List.replicate_succ, Text.lineBreaks_cons fun hfeed => absurd hfeed (by decide), ih]
    rfl

theorem exists_line_lineFeeds (strict : Bool) {n : Nat} (h : source.toList = .replicate n '\n') :
    ∃ front l, (scan strict source).1 = front ++ [l] ∧
      l.next.position.line = (1 + n) % 4294967296 ∧
      ((front ++ [l]).map (Lexeme.rawSeparators source)).sum = 0 ∧
      Text.lineBreaks (Text.before source l.next.position.offset) = n := by
  obtain ⟨front, l, hscans, hrest, hraw⟩ := scans_lineFeeds strict source n .start
  have hscan : scan strict source = (front ++ [l], none) := by
    refine Scans.scanFrom_eq ?_ (Nat.lt_succ_self _)
    rw [Cursor.ofString, h]
    exact hscans
  obtain ⟨w, hwalk, hbefore⟩ := walk_of_scan (congrArg Prod.fst hscan)
  have hsum : ((front ++ [l]).map (Lexeme.rawSeparators source)).sum = 0 :=
    List.sum_eq_zero_iff_forall_eq_nat.mpr (List.forall_mem_map.mpr hraw)
  have hw : w = .replicate n '\n' := by
    have heq := hwalk.rest_eq
    rwa [hrest, List.append_nil, Cursor.ofString, h, eq_comm] at heq
  have hline := hwalk.line_eq
  rw [hsum, hw, lineBreaks_replicate] at hline
  refine ⟨front, l, congrArg Prod.fst hscan, ?_, hsum, by rw [hbefore, hw, lineBreaks_replicate]⟩
  exact (Nat.mod_eq_of_lt l.next.position.lineCount.toNat_lt).symm.trans hline

/-- Behind `2 ^ 32 - 1` line feeds the line is 0. -/
theorem line_wraps : (String.ofList (.replicate 4294967295 '\n')).length < 4294967296 ∧
    ∃ front l, (scan false (.ofList (.replicate 4294967295 '\n'))).1 = front ++ [l] ∧
      l.next.position.line = 0 ∧
      l.next.position.line + ((front ++ [l]).map
          (Lexeme.rawSeparators (.ofList (.replicate 4294967295 '\n')))).sum ≠
        1 + Text.lineBreaks
          (Text.before (.ofList (.replicate 4294967295 '\n')) l.next.position.offset) := by
  have hlength : (String.ofList (.replicate 4294967295 '\n')).length < 4294967296 := by
    rw [String.length_ofList, List.length_replicate]
    decide
  obtain ⟨front, l, hscan, hline, hsum, hbreaks⟩ :=
    exists_line_lineFeeds false String.toList_ofList
  refine ⟨hlength, front, l, hscan, hline, ?_⟩
  rw [hline, hsum, hbreaks]
  decide

/-! ## Names -/

/-- How a character of a name is written: as itself, or as an escape with its digits alone or in
braces. -/
inductive NamePiece where
  | direct (ch : Char)
  | escape (digits : List Char) (braced : Bool)

namespace NamePiece

def text : NamePiece → List Char
  | direct ch => [ch]
  | escape digits true => '\\' :: 'u' :: '\x7b' :: (digits ++ ['\x7d'])
  | escape digits false => '\\' :: 'u' :: digits

def value : NamePiece → Char
  | direct ch => ch
  | escape digits _ => charOfCodePoint ((hexValue? 0 digits).getD 0)

/-- A character as itself passes a test; an escape has four digits, or some in braces that are not
out of range. -/
def Written (test : Char → Bool) : NamePiece → Prop
  | direct ch => test ch = true
  | escape digits braced => ∃ codePoint, hexValue? 0 digits = some codePoint ∧
    if braced then digits ≠ [] ∧ codePoint ≤ 0x10FFFF else digits.length = 4

/-- What an escape stands for passes a test. -/
def Denotes (test : Char → Bool) : NamePiece → Prop
  | direct _ => True
  | escape digits braced => test (escape digits braced).value = true

theorem test_value_iff {test : Char → Bool} {piece : NamePiece} (h : piece.Written test) :
    test piece.value = true ↔ piece.Denotes test := by
  cases piece with
  | direct ch => exact iff_of_true h trivial
  | escape digits braced => exact Iff.rfl

end NamePiece

/-- A name as it is written: its first piece can start a name, and the other ones can go on with
it. -/
structure WritesName (name : String) (text : List Char) (first : NamePiece)
    (others : List NamePiece) : Prop where
  text_eq : text = (first :: others).flatMap NamePiece.text
  name_eq : name.toList = (first :: others).map NamePiece.value
  first : first.Written Text.isIdentifierStart
  others : ∀ piece ∈ others, NamePiece.Written Text.isIdentifierContinue piece

/-- The name is a word as far as its escapes stand for characters of names. -/
theorem WritesName.isWord_iff {name : String} {text : List Char} {first : NamePiece}
    {others : List NamePiece} (h : WritesName name text first others) :
    Text.isWord name.toList = true ↔ first.Denotes Text.isIdentifierStart ∧
      ∀ piece ∈ others, NamePiece.Denotes Text.isIdentifierContinue piece := by
  rw [h.name_eq, List.map_cons, Text.isWord, Bool.and_eq_true, List.all_map, List.all_eq_true]
  refine and_congr (NamePiece.test_value_iff h.first) (forall₂_congr fun piece hpiece => ?_)
  exact NamePiece.test_value_iff (h.others piece hpiece)

theorem digits_of_readHexDigits {count value : Nat} {r : Nat × Cursor}
    (h : readHexDigits count value c = .ok r) :
    ∃ digits, c.rest = digits ++ r.2.rest ∧ digits.length = count ∧
      hexValue? value digits = some r.1 := by
  induction count generalizing value c with
  | zero =>
    cases h
    exact ⟨[], rfl, rfl, rfl⟩
  | succ count ih =>
    rw [readHexDigits] at h
    split at h
    · next digit hdigit =>
      obtain ⟨ch, hc, hch⟩ := Option.bind_eq_some_iff.mp hdigit
      obtain ⟨cs, p⟩ := c
      obtain ⟨rest, rfl⟩ := List.head?_eq_some_iff.mp hc
      obtain ⟨digits, hrest, hlength, hvalue⟩ := ih h
      refine ⟨ch :: digits, congrArg (ch :: ·) hrest, congrArg (· + 1) hlength, ?_⟩
      rw [hexValue?, hch]
      exact hvalue
    · cases h

theorem digits_of_readBracedDigits {cs : List Char} {p : Position} {value : Nat} {count : Int32}
    {r : Nat × Cursor} (h : readBracedDigits cs p value count = .ok r)
    (hvalue : value ≤ 0x10FFFF) :
    ∃ digits, cs = digits ++ '\x7d' :: r.2.rest ∧ (count = 0 → digits ≠ []) ∧
      hexValue? value digits = some r.1 ∧ r.1 ≤ 0x10FFFF := by
  induction cs generalizing p value count with
  | nil => cases h
  | cons ch cs ih =>
    rw [readBracedDigits] at h
    split at h
    · next hclosed =>
      cases h
      obtain ⟨rfl, hcount⟩ : ch = '\x7d' ∧ 0 < count := by simpa using hclosed
      refine ⟨[], rfl, ?_, rfl, hvalue⟩
      rintro rfl
      exact absurd hcount (by decide)
    split at h
    · next digit hdigit =>
      split at h
      · cases h
      next hrange =>
      obtain ⟨digits, hrest, -, hdigits, hbound⟩ := ih h (Nat.le_of_not_lt hrange)
      refine ⟨ch :: digits, congrArg (ch :: ·) hrest, fun _ => List.cons_ne_nil _ _, ?_, hbound⟩
      rw [hexValue?, hdigit]
      exact hdigits
    · cases h

theorem rest_of_escape (hslash : c.peek? = some '\\') (hu : c.step.peek? = some 'u') :
    c.rest = '\\' :: 'u' :: c.step.step.rest := by
  obtain ⟨cs, p⟩ := c
  obtain ⟨rest, rfl⟩ := List.head?_eq_some_iff.mp hslash
  obtain ⟨rest, rfl⟩ := List.head?_eq_some_iff.mp hu
  rfl

theorem piece_of_readUnicodeEscape {r : Char × Cursor} (h : readUnicodeEscape c = .ok r)
    (test : Char → Bool) :
    ∃ digits braced, '\\' :: 'u' :: c.rest = (NamePiece.escape digits braced).text ++ r.2.rest ∧
      (NamePiece.escape digits braced).Written test ∧
      (NamePiece.escape digits braced).value = r.1 := by
  unfold readUnicodeEscape at h
  dsimp only at h
  split at h
  · next hbrace =>
    obtain ⟨cs, p⟩ := c
    obtain ⟨rest, rfl⟩ := List.head?_eq_some_iff.mp (eq_of_beq hbrace)
    obtain ⟨found, hd, h⟩ := bind_except_eq_ok h
    cases h
    obtain ⟨digits, hrest, hne, hvalue, hbound⟩ := digits_of_readBracedDigits hd (Nat.zero_le _)
    refine ⟨digits, true, ?_, ⟨found.1, hvalue, hne rfl, hbound⟩, ?_⟩
    · rw [show rest = digits ++ '\x7d' :: found.2.rest from hrest]
      simp [NamePiece.text]
    · simp [NamePiece.value, hvalue]
  · obtain ⟨found, hd, h⟩ := bind_except_eq_ok h
    cases h
    obtain ⟨digits, hrest, hlength, hvalue⟩ := digits_of_readHexDigits hd
    refine ⟨digits, false, ?_, ⟨found.1, hvalue, hlength⟩, ?_⟩
    · simp [NamePiece.text, hrest]
    · simp [NamePiece.value, hvalue]

/-- The characters of a name are those of the pieces it is written in. -/
theorem pieces_of_readName {name : List Char} {escaped : Bool} {r : String × Bool × Cursor}
    (h : readName c name escaped = .ok r) :
    ∃ pieces : List NamePiece, c.rest = pieces.flatMap NamePiece.text ++ r.2.2.rest ∧
      r.1.toList = name.reverse ++ pieces.map NamePiece.value ∧
      ∀ piece ∈ pieces, piece.Written Text.isIdentifierContinue := by
  fun_induction readName c name escaped with
  | case1 c name escaped hc =>
    cases h
    exact ⟨[], by simp, by simp, by simp⟩
  | case2 c name escaped ch hc hslash hu char next he ih =>
    obtain ⟨pieces, hrest, hname, hpieces⟩ := ih h
    obtain ⟨digits, braced, htext, hwritten, hvalue⟩ :=
      piece_of_readUnicodeEscape he Text.isIdentifierContinue
    refine ⟨.escape digits braced :: pieces, ?_, ?_, ?_⟩
    · rw [List.flatMap_cons, List.append_assoc, ← hrest, ← htext]
      exact rest_of_escape (by rw [hc, eq_of_beq hslash]) (eq_of_beq hu)
    · rw [hname, List.map_cons, hvalue, List.reverse_cons, List.append_assoc, List.singleton_append]
    · exact List.forall_mem_cons.mpr ⟨hwritten, hpieces⟩
  | case3 => cases h
  | case4 => cases h
  | case5 c name escaped ch hc hslash hcontinue ih =>
    obtain ⟨pieces, hrest, hname, hpieces⟩ := ih h
    obtain ⟨cs, p⟩ := c
    obtain ⟨rest, rfl⟩ := List.head?_eq_some_iff.mp hc
    refine ⟨.direct ch :: pieces, congrArg (ch :: ·) hrest, ?_, ?_⟩
    · rw [hname, List.map_cons, List.reverse_cons, List.append_assoc, List.singleton_append]
      rfl
    · exact List.forall_mem_cons.mpr ⟨hcontinue, hpieces⟩
  | case6 =>
    cases h
    exact ⟨[], by simp, by simp, by simp⟩

theorem eq_of_ofWord {word name : String} (h : ofWord word = identifier name) : word = name := by
  unfold ofWord at h
  repeat' split at h
  all_goals cases h
  rfl

/-- An identifier is a piece that can start a name, and others that can go on with it. -/
theorem pieces_of_readWord {ch : Char} (hc : c.peek? = some ch)
    (hch : Text.isIdentifierStart ch || ch == '\\') {name : String} {r : Token × Cursor}
    (h : readWord ch c = .ok r) (hname : r.1 = identifier name) :
    ∃ text first others, c.rest = text ++ r.2.rest ∧ WritesName name text first others := by
  have hword (found : String × Bool × Cursor)
      (h : (if found.2.1 = true then identifier found.1 else ofWord found.1) = identifier name) :
      found.1 = name := by
    split at h
    · exact identifier.inj h
    · exact eq_of_ofWord h
  unfold readWord at h
  dsimp only at h
  split at h
  · next hslash =>
    obtain ⟨found, hn, h⟩ := bind_except_eq_ok h
    cases h
    rw [← hword found hname]
    rw [readName_step, hc] at hn
    dsimp only at hn
    rw [if_pos hslash] at hn
    split at hn
    · next hu =>
      obtain ⟨escape, he, hn⟩ := bind_except_eq_ok hn
      obtain ⟨pieces, hrest, hvalues, hpieces⟩ := pieces_of_readName hn
      obtain ⟨digits, braced, htext, hwritten, hvalue⟩ :=
        piece_of_readUnicodeEscape he Text.isIdentifierStart
      refine ⟨_, .escape digits braced, pieces, ?_, rfl, ?_, hwritten, hpieces⟩
      · rw [List.flatMap_cons, List.append_assoc, ← hrest, ← htext]
        exact rest_of_escape (by rw [hc, eq_of_beq hslash]) (eq_of_beq hu)
      · rw [hvalues, List.map_cons, hvalue]
        rfl
    · cases hn
  · next hslash =>
    obtain ⟨found, hn, h⟩ := bind_except_eq_ok h
    cases h
    rw [← hword found hname]
    obtain ⟨pieces, hrest, hvalues, hpieces⟩ := pieces_of_readName hn
    obtain ⟨cs, p⟩ := c
    obtain ⟨rest, rfl⟩ := List.head?_eq_some_iff.mp hc
    exact ⟨ch :: pieces.flatMap NamePiece.text, .direct ch, pieces, congrArg (ch :: ·) hrest, rfl,
      hvalues, by simpa [NamePiece.Written, hslash] using hch, hpieces⟩

theorem token_endNumber {token : Token} {r : Token × Cursor} (h : endNumber token c = .ok r) :
    r.1 = token := by
  unfold endNumber at h
  split at h
  · cases h
  · cases h
    rfl

theorem token_readNumber {first : Char} {r : Token × Cursor}
    (h : readNumber strict first c = .ok r) :
    (∃ value, r.1 = number value) ∨ ∃ value, r.1 = legacyOctal value := by
  unfold readNumber at h
  split at h
  · unfold readRadixNumber at h
    dsimp only at h
    split at h
    · cases h
    · exact .inl ⟨_, token_endNumber h⟩
  split at h
  · unfold readLeadingZero at h
    dsimp only at h
    split at h
    · cases h
    split at h
    · exact .inr ⟨_, token_endNumber h⟩
    · exact .inl ⟨_, token_endNumber h⟩
  · obtain ⟨exponent, -, h⟩ := bind_except_eq_ok h
    exact .inl ⟨_, token_endNumber h⟩

theorem pieces_of_readToken {ch : Char} (hc : c.peek? = some ch) {name : String}
    {r : Token × Cursor} (h : readToken strict ch c = .ok r) (hname : r.1 = identifier name) :
    ∃ text first others, c.rest = text ++ r.2.rest ∧ WritesName name text first others := by
  unfold readToken at h
  split at h
  · obtain ⟨found, -, rfl⟩ := map_except_eq_ok h
    cases hname
  split at h
  · rcases token_readNumber h with ⟨value, hvalue⟩ | ⟨value, hvalue⟩
    · cases hvalue.symm.trans hname
    · cases hvalue.symm.trans hname
  split at h
  · next hch => exact pieces_of_readWord hc hch h hname
  split at h
  · cases h
    cases hname
  · cases h

theorem pieces_of_readHere {name : String} (h : readHere strict c = .ok l)
    (hname : l.token = identifier name) :
    ∃ text first others, c.rest = text ++ l.next.rest ∧ WritesName name text first others := by
  unfold readHere at h
  split at h
  · obtain ⟨found, -, rfl⟩ := map_except_eq_ok h
    cases hname
  unfold readLexeme at h
  split at h
  · cases h
    cases hname
  next ch hc =>
  split at h
  · cases h
    cases hname
  · obtain ⟨found, ht, rfl⟩ := map_except_eq_ok h
    exact pieces_of_readToken hc ht hname

/-- An identifier is written in pieces: characters that can start a name or go on with it, and
escapes.  So its name is not empty, and it is a word unless one of the escapes stands for a
character that could not stand there as itself, which nothing keeps an escape from. -/
theorem identifier_unless_escaped {name : String} (hl : l ∈ (scan strict source).1)
    (hname : l.token = identifier name) :
    ∃ first others, WritesName name (l.span source) first others ∧
      (Text.isWord name.toList = true ↔ first.Denotes Text.isIdentifierStart ∧
        ∀ piece ∈ others, NamePiece.Denotes Text.isIdentifierContinue piece) := by
  obtain ⟨c, v, n, hto, hnext⟩ := (scans_scan strict source).exists_next hl
  obtain ⟨d, u, -, hhere, hwalk⟩ := span_of_next hto hnext
  obtain ⟨text, first, others, hrest, hwrites⟩ := pieces_of_readHere hhere hname
  have hspan : l.span source = text := by
    rw [hwalk.rest_eq] at hrest
    exact List.append_cancel_right hrest
  rw [hspan]
  exact ⟨first, others, hwrites, hwrites.isWord_iff⟩

/-- The escape of a digit is read as a name that is no word. -/
theorem identifier_not_word :
    Text.isWord "0".toList = false ∧ ∃ l ∈ (scan true "\\u0030").1, l.token = identifier "0" ∧
      ∃ first others, WritesName "0" (l.span "\\u0030") first others ∧
        (Text.isWord "0".toList = true ↔ first.Denotes Text.isIdentifierStart ∧
          ∀ piece ∈ others, NamePiece.Denotes Text.isIdentifierContinue piece) := by
  have hscan : ((scan true "\\u0030").1.any fun l =>
      match l.token with
      | identifier name => name == "0"
      | _ => false) = true := by
    decide +kernel
  obtain ⟨l, hl, htoken⟩ := List.any_eq_true.mp hscan
  have hname : l.token = identifier "0" := by
    split at htoken
    · next name heq => rw [heq, eq_of_beq htoken]
    · cases htoken
  exact ⟨by decide +kernel, l, hl, hname, identifier_unless_escaped hl hname⟩

end Token

end ProtoScript
