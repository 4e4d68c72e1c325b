import ProtoScript.Grammar.TokenStream
import ProtoScript.Proofs.Spelling
import ProtoScript.Proofs.TokenReading
/-!
# Tokens are read as they are written
-/

namespace ProtoScript

/-! ### Characters of names -/

namespace Text

def blanks : List Nat :=
  [0x9, 0xA, 0xB, 0xC, 0xD, 0x20, 0x85, 0xA0, 0x1680, 0x2000, 0x2001, 0x2002, 0x2003, 0x2004,
   0x2005, 0x2006, 0x2007, 0x2008, 0x2009, 0x200A, 0x2028, 0x2029, 0x202F, 0x205F, 0x3000, 0xFEFF]

theorem toNat_mem_blanks {c : Char} (h : isBlank c = true) : c.toNat ∈ blanks := by
  unfold isBlank at h
  rcases Bool.or_eq_true_iff.mp h with h | h
  · simp only [isWhiteSpace, Bool.or_eq_true, Bool.and_eq_true, decide_eq_true_eq, beq_iff_eq] at h
    simp only [blanks, List.mem_cons, List.not_mem_nil, or_false]
    omega
  · obtain rfl : c = '\uFEFF' := by simpa using h
    decide

theorem memberOf_eq (changes : Array Nat) (codePoint : Nat) :
    IdentifierTable.memberOf changes codePoint =
      (changes.toList.countP (Nat.ble · codePoint) % 2 == 1) := by
  have hle (n : Nat) : decide (n ≤ codePoint) = Nat.ble n codePoint := by
    rw [Bool.eq_iff_iff, decide_eq_true_eq, Nat.ble_eq]
  unfold IdentifierTable.memberOf
  simp only [← Array.countP_toList, hle]

theorem memberOf_blanks : ∀ n ∈ blanks,
    (IdentifierTable.xidStartChanges.toList.countP (Nat.ble · n) % 2 == 1) = false := by
  decide +kernel

theorem memberOf_separators : ∀ n ∈ [0x2028, 0x2029],
    (IdentifierTable.xidContinueChanges.toList.countP (Nat.ble · n) % 2 == 1) = false := by
  decide +kernel

/-- What the reading of names takes of the two properties: no blank starts a name, and no separator
of lines goes on with one. -/
class LawfulIdentifierClasses [IdentifierClasses] : Prop where
  xidStart_of_isBlank : ∀ c : Char, isBlank c = true → IdentifierClasses.xidStart c = false
  xidContinue_of_separator : ∀ c : Char, c.toNat ∈ [0x2028, 0x2029] →
    IdentifierClasses.xidContinue c = false

instance : LawfulIdentifierClasses where
  xidStart_of_isBlank c h :=
    (memberOf_eq _ c.toNat).trans (memberOf_blanks c.toNat (toNat_mem_blanks h))
  xidContinue_of_separator c h :=
    (memberOf_eq _ c.toNat).trans (memberOf_separators c.toNat h)

variable [IdentifierClasses]

theorem isBlank_of_isIdentifierStart [LawfulIdentifierClasses] {c : Char}
    (h : isIdentifierStart c = true) : isBlank c = false := by
  rw [← Bool.not_eq_true]
  intro hblank
  have hplain : ∀ n ∈ blanks, (Char.ofNat n == '_' || Char.ofNat n == '$' ||
      (Char.ofNat n).isAlpha) = false := by decide +kernel
  have hc := hplain _ (toNat_mem_blanks hblank)
  rw [Char.ofNat_toNat] at hc
  rw [isIdentifierStart, hc, LawfulIdentifierClasses.xidStart_of_isBlank c hblank,
    Bool.and_false] at h
  cases h

theorem isDigit_of_isIdentifierStart {c : Char} (h : isIdentifierStart c = true) :
    c.isDigit = false := by
  rw [← Bool.not_eq_true]
  intro hdigit
  have hdigits : ∀ n ∈ List.range' 48 10, isIdentifierStart (Char.ofNat n) = false := by
    simp [isIdentifierStart, List.range']
  have hmem : c.toNat ∈ List.range' 48 10 := by
    have h : 48 ≤ c.toNat ∧ c.toNat ≤ 57 := Char.isDigit_iff_toNat.mp hdigit
    rw [List.mem_range'_1]
    omega
  have hstart := hdigits _ hmem
  rw [Char.ofNat_toNat, h] at hstart
  cases hstart

theorem ne_of_isIdentifierStart {c d : Char} (h : isIdentifierStart c = true)
    (hd : isIdentifierStart d = false) : c ≠ d := by
  rintro rfl
  cases h.symm.trans hd

end Text

namespace Token

variable {written rest : List Char} {p : Position} {strict : Bool}

/-! ### The longest sign -/

theorem sign_mem_all (sign : Punctuator) : sign ∈ Punctuator.all := by
  cases sign <;> decide

theorem spelling_inj : ∀ a ∈ Punctuator.all, ∀ b ∈ Punctuator.all,
    a.spelling = b.spelling → a = b := by
  decide +kernel

theorem length_spelling_le_of_prefix (hrest : IsGap rest) {a b : Punctuator}
    (h : b.spelling <+: a.spelling ++ rest) : b.spelling.length ≤ a.spelling.length := by
  refine Nat.le_of_not_lt fun hlt => ?_
  obtain ⟨more, hmore⟩ := List.prefix_of_prefix_length_le (List.prefix_append a.spelling rest) h
    (by omega)
  rw [← hmore, List.prefix_append_right_inj] at h
  cases more with
  | nil =>
    rw [List.append_nil] at hmore
    exact absurd hlt (by rw [hmore]; exact Nat.lt_irrefl _)
  | cons c more =>
    have hspace : ' ' ∉ b.spelling := by cases b <;> decide
    have hc : c ∈ b.spelling := by rw [← hmore]; simp
    rcases hrest with rfl | ⟨rest, rfl⟩
    · cases List.prefix_nil.mp h
    · obtain rfl : c = ' ' := (List.cons_prefix_cons.mp h).1
      exact hspace hc

theorem longest?_spelling (hrest : IsGap rest) (sign : Punctuator) :
    Punctuator.longest? (sign.spelling ++ rest) = some sign := by
  have hlonger {length : Nat} (h : sign.spelling.length < length) :
      Punctuator.ofLength? (sign.spelling ++ rest) length = none := by
    refine List.find?_eq_none.mpr fun b _ hb => ?_
    rw [Bool.and_eq_true, beq_iff_eq, List.isPrefixOf_iff_prefix] at hb
    have := length_spelling_le_of_prefix hrest hb.2
    omega
  have hsame : Punctuator.ofLength? (sign.spelling ++ rest) sign.spelling.length = some sign := by
    unfold Punctuator.ofLength?
    cases hfind : Punctuator.all.find? fun b => b.spelling.length == sign.spelling.length &&
        b.spelling.isPrefixOf (sign.spelling ++ rest) with
    | none =>
      have := List.find?_eq_none.mp hfind sign (sign_mem_all sign)
      simp at this
    | some b =>
      have hb := List.find?_some hfind
      rw [Bool.and_eq_true, beq_iff_eq, List.isPrefixOf_iff_prefix] at hb
      have heq := List.prefix_of_prefix_length_le hb.2 (List.prefix_append sign.spelling rest)
        (Nat.le_of_eq hb.1)
      rw [spelling_inj b (sign_mem_all b) sign (sign_mem_all sign) (heq.eq_of_length hb.1)]
  have hlength : sign.spelling.length = 1 ∨ sign.spelling.length = 2 ∨ sign.spelling.length = 3 ∨
      sign.spelling.length = 4 := by cases sign <;> decide
  unfold Punctuator.longest?
  rcases hlength with h | h | h | h <;> rw [h] at hsame hlonger <;>
    simp [List.findSome?, hlonger, hsame]

/-! ### Words -/

variable [Text.IdentifierClasses]

def EndsName (rest : List Char) : Prop :=
  ∀ ch ∈ rest.head?, Text.isIdentifierContinue ch = false ∧ ch ≠ '\\'

theorem IsGap.endsName (h : IsGap rest) : EndsName rest := by
  rintro ch hch
  rcases h with rfl | ⟨more, rfl⟩
  · cases hch
  · obtain rfl : ' ' = ch := Option.some.inj hch
    exact ⟨rfl, by decide⟩

theorem readName_word (hrest : EndsName rest) (before : List Char) (escaped : Bool)
    (h : written.all Text.isIdentifierContinue = true) :
    ∃ q, readName ⟨written ++ rest, p⟩ before escaped =
      .ok (String.ofList (before.reverse ++ written), escaped, ⟨rest, q⟩) := by
  induction written generalizing p before with
  | nil =>
    refine ⟨p, ?_⟩
    rw [readName, List.append_nil]
    split
    · rfl
    next ch hch =>
    obtain ⟨hcontinue, hslash⟩ := hrest ch hch
    rw [if_neg (by simpa using hslash), if_neg (by simp [hcontinue])]
    rfl
  | cons c written ih =>
    rw [List.all_cons, Bool.and_eq_true] at h
    obtain ⟨q, hq⟩ := ih (p := p.step c) (c :: before) h.2
    refine ⟨q, ?_⟩
    rw [readName]
    split
    · next hch => cases hch
    next ch hch =>
    obtain rfl : c = ch := Option.some.inj hch
    have hslash : ¬ (c == '\\') = true := by
      intro heq
      obtain rfl : c = '\\' := by simpa using heq
      exact absurd h.1 (by simp [Text.isIdentifierContinue])
    rw [if_neg hslash, if_pos h.1]
    rw [List.reverse_cons, List.append_assoc, List.singleton_append] at hq
    exact hq

theorem readToken_word (hrest : EndsName rest) {name : String}
    (hname : Text.isWord name.toList = true) {first : Char} {others : List Char}
    (hchars : name.toList = first :: others) :
    ∃ q, readToken strict first ⟨name.toList ++ rest, p⟩ = .ok (ofWord name, ⟨rest, q⟩) := by
  rw [hchars, Text.isWord, Bool.and_eq_true] at hname
  obtain ⟨q, hq⟩ := readName_word (p := p.step first) hrest [first] false hname.2
  refine ⟨q, ?_⟩
  have hne (d : Char) (hd : Text.isIdentifierStart d = false) : (first == d) = false := by
    rw [beq_eq_false_iff_ne]
    exact Text.ne_of_isIdentifierStart hname.1 hd
  unfold readToken
  rw [hne '\'' rfl, hne '"' rfl, hne '.' rfl, hne '\\' rfl, hname.1,
    Text.isDigit_of_isIdentifierStart hname.1, hchars]
  simp only [Bool.or_self, Bool.false_eq_true, if_false, Bool.false_and, Bool.or_false, if_true]
  unfold readWord
  rw [hne '\\' rfl]
  change (readName ⟨others ++ rest, p.step first⟩ [first] false >>= _) = _
  rw [hq, show name = String.ofList (first :: others) by rw [← hchars, String.ofList_toList]]
  rfl

structure BeginsWith (strict : Bool) (written rest : List Char) (p : Position) (t : Token)
    (first : Char) (others : List Char) : Prop where
  chars : written = first :: others
  notBlank : Text.isBlank first = false
  noGap : gapAt ⟨written ++ rest, p⟩ = .none
  read : ∃ q, readToken strict first ⟨written ++ rest, p⟩ = .ok (t, ⟨rest, q⟩)

theorem beginsWith_word [Text.LawfulIdentifierClasses] (hrest : EndsName rest) {name : String}
    (hname : Text.isWord name.toList = true) :
    ∃ first others, BeginsWith strict name.toList rest p (ofWord name) first others := by
  cases hchars : name.toList with
  | nil =>
    rw [hchars] at hname
    cases hname
  | cons first others =>
    have hfirst : Text.isIdentifierStart first = true := by
      rw [hchars, Text.isWord, Bool.and_eq_true] at hname
      exact hname.1
    refine ⟨first, others, rfl, Text.isBlank_of_isIdentifierStart hfirst, ?_, ?_⟩
    · have hne (d : Char) (hd : Text.isIdentifierStart d = false) : first ≠ d :=
        Text.ne_of_isIdentifierStart hfirst hd
      unfold gapAt
      split
      · next heq => exact absurd (List.cons.inj heq).1 (hne _ rfl)
      · next heq => exact absurd (List.cons.inj heq).1 (hne _ rfl)
      · next heq => exact absurd (List.cons.inj heq).1 (hne _ rfl)
      · rfl
    · rw [← hchars]
      exact readToken_word hrest hname hchars

/-! ### Signs -/

theorem readToken_sign (hrest : IsGap rest) {sign : Punctuator} {first : Char}
    {others : List Char} (hchars : sign.spelling = first :: others) :
    ∃ q, readToken strict first ⟨sign.spelling ++ rest, p⟩ = .ok (punctuator sign, ⟨rest, q⟩) := by
  have hquote : (first == '\'' || first == '"') = false := by cases sign <;> cases hchars <;> rfl
  have hdigit : first.isDigit = false := by cases sign <;> cases hchars <;> rfl
  have hstart : (Text.isIdentifierStart first || first == '\\') = false := by
    cases sign <;> cases hchars <;> rfl
  have hpoint : (first == '.' &&
      (⟨sign.spelling ++ rest, p⟩ : Cursor).step.peek?.any Char.isDigit) = false := by
    rcases hrest with rfl | ⟨more, rfl⟩ <;> cases sign <;> cases hchars <;> rfl
  refine ⟨p.steps sign.spelling, ?_⟩
  unfold readToken
  rw [hquote, hdigit, hpoint, hstart, longest?_spelling hrest]
  simp only [Bool.or_self, Bool.false_eq_true, if_false, Cursor.skip, List.drop_left,
    List.take_left]

/-! ### Tokens -/

theorem beginsWith_sign (hrest : IsGap rest) (sign : Punctuator) :
    ∃ first others, BeginsWith strict sign.spelling rest p (punctuator sign) first others := by
  cases hchars : sign.spelling with
  | nil =>
    have := sign.spelling_length_pos
    rw [hchars] at this
    cases this
  | cons first others =>
    refine ⟨first, others, rfl, ?_, ?_, ?_⟩
    · cases sign <;> cases hchars <;> rfl
    · rcases hrest with rfl | ⟨more, rfl⟩ <;> cases sign <;> cases hchars <;> rfl
    · rw [← hchars]
      exact readToken_sign hrest hchars

theorem beginsWith_string {quote : Char} {content : String}
    (hquote : quote = '"' ∨ quote = '\'') (hcontent : SpellsContent quote content.toList written) :
    BeginsWith strict (quote :: (written ++ [quote])) rest p (string content) quote
      (written ++ [quote]) := by
  refine ⟨rfl, ?_, ?_, ?_⟩
  · rcases hquote with rfl | rfl <;> rfl
  · rcases hquote with rfl | rfl <;> rfl
  · obtain ⟨q, hq⟩ := readString_content rest (p.step quote) strict hquote [] hcontent
    refine ⟨q, ?_⟩
    have hor : (quote == '\'' || quote == '"') = true := by rcases hquote with rfl | rfl <;> rfl
    unfold readToken
    rw [hor, if_pos rfl, List.cons_append, List.append_assoc, List.singleton_append]
    change (readString strict quote ⟨written ++ quote :: rest, p.step quote⟩ []).map _ = _
    rw [hq, List.reverse_nil, List.nil_append, String.ofList_toList]
    rfl

theorem Spelled.beginsWith [Text.LawfulIdentifierClasses] (strict : Bool) {t : Token}
    (h : t.Spelled written) (hrest : IsGap rest) (p : Position) :
    ∃ first others, BeginsWith strict written rest p t first others := by
  cases h with
  | @identifier name hname =>
    rw [← ofWord_of_isFreeName hname]
    exact beginsWith_word hrest.endsName hname.isWord
  | keyword word =>
    rw [← ofWord_spelling word]
    exact beginsWith_word hrest.endsName (isWord_spelling word)
  | boolean value =>
    cases value
    · exact beginsWith_word hrest.endsName (rfl : Text.isWord "false".toList = true)
    · exact beginsWith_word hrest.endsName (rfl : Text.isWord "true".toList = true)
  | null => exact beginsWith_word hrest.endsName (rfl : Text.isWord "null".toList = true)
  | sign sign => exact beginsWith_sign hrest sign
  | string hquote hcontent => exact ⟨_, _, beginsWith_string hquote hcontent⟩

theorem BeginsWith.next {t : Token} {first : Char} {others : List Char}
    (h : BeginsWith strict written rest p t first others) {c : Cursor}
    (hc : c.skipWhile Text.isInlineBlank = ⟨written ++ rest, p⟩) :
    ∃ l, Token.next strict c = .ok l ∧ l.token = t ∧ l.next.rest = rest := by
  obtain ⟨rfl, hblank, hgap, q, hq⟩ := h
  have hbreak : Text.isLineBreak first = false := by
    rw [← Bool.not_eq_true]
    intro hbreak
    cases (Text.isBlank_of_isLineBreak hbreak).symm.trans hblank
  rw [Token.next]
  split
  · next hg => rw [hc, hgap] at hg; cases hg
  · next hg => rw [hc, hgap] at hg; cases hg
  · unfold readLexeme
    rw [hc]
    simp only [Cursor.peek?, List.cons_append, List.head?_cons, hbreak, Bool.false_eq_true,
      if_false]
    rw [List.cons_append] at hq
    rw [hq]
    exact ⟨_, rfl, rfl, rfl⟩

theorem BeginsWith.skipWhile {t : Token} {first : Char} {others : List Char}
    (h : BeginsWith strict written rest p t first others) :
    (⟨written ++ rest, p⟩ : Cursor).skipWhile Text.isInlineBlank = ⟨written ++ rest, p⟩ := by
  have hinline : Text.isInlineBlank first = false := by
    rw [Text.isInlineBlank, h.notBlank, Bool.false_and]
  rw [h.chars]
  simp only [Cursor.skipWhile, List.cons_append, List.dropWhile_cons, List.takeWhile_cons, hinline,
    Bool.false_eq_true, if_false]
  rfl

theorem Spelled.ne_lineBreak {t : Token} (h : t.Spelled written) : t ≠ .lineBreak := by
  cases h <;> simp

theorem Spelled.length_pos [Text.LawfulIdentifierClasses] {t : Token} (h : t.Spelled written) :
    0 < written.length := by
  obtain ⟨first, others, hbegin⟩ := h.beginsWith false (.inl rfl) .start
  rw [hbegin.chars]
  exact Nat.zero_lt_succ _

theorem Spelled.ne_endOfInput {t : Token} (h : t.Spelled written) : t ≠ .endOfInput := by
  cases h <;> simp

theorem next_of_beginsWith {t : Token}
    (h : ∀ p, ∃ first others, BeginsWith strict written rest p t first others) {c : Cursor}
    (hc : c.rest = written ++ rest ∨ c.rest = ' ' :: (written ++ rest)) :
    ∃ l, Token.next strict c = .ok l ∧ l.token = t ∧ l.next.rest = rest := by
  obtain ⟨cs, p⟩ := c
  dsimp only at hc
  rcases hc with rfl | rfl
  · obtain ⟨first, others, hbegin⟩ := h p
    exact hbegin.next hbegin.skipWhile
  · obtain ⟨first, others, hbegin⟩ := h (p.step ' ')
    have hspace : (⟨' ' :: (written ++ rest), p⟩ : Cursor).skipWhile Text.isInlineBlank =
        (⟨written ++ rest, p.step ' '⟩ : Cursor).skipWhile Text.isInlineBlank := rfl
    exact hbegin.next (hspace.trans hbegin.skipWhile)

theorem Spelled.next_of_rest [Text.LawfulIdentifierClasses] (strict : Bool) {t : Token}
    (h : t.Spelled written) (hrest : IsGap rest) {c : Cursor}
    (hc : c.rest = written ++ rest ∨ c.rest = ' ' :: (written ++ rest)) :
    ∃ l, Token.next strict c = .ok l ∧ l.token = t ∧ l.next.rest = rest :=
  next_of_beginsWith (h.beginsWith strict hrest) hc

end Token

/-- The next token of a text in which tokens are spelled out with spaces between them. -/
theorem TokenStream.readToken_spelled (strict : Bool) {t : Token} {written rest : List Char}
    (h : t.Spelled written) (hrest : Token.IsGap rest) {c : Cursor}
    (hc : c.rest = written ++ rest ∨ c.rest = ' ' :: (written ++ rest)) :
    ∃ d, readToken strict c false = .ok (t, false, d) ∧ d.rest = rest := by
  obtain ⟨l, hl, rfl, hnext⟩ := h.next_of_rest strict hrest hc
  exact ⟨l.next, readToken_of_next hl h.ne_lineBreak, hnext⟩

namespace Token

/-! ### A text is read as the tokens it spells -/

section

variable [Text.IdentifierClasses]

/-- Names, keywords, literal words, signs and strings: the tokens with a spelling. -/
def IsSpellable : Token → Prop
  | identifier name => IsFreeName name
  | keyword _ | boolean _ | null | punctuator _ | string _ => True
  | _ => False

theorem exists_spelled_of_isSpellable {t : Token} (h : t.IsSpellable) :
    ∃ written, t.Spelled written := by
  cases t with
  | identifier name => exact ⟨_, .identifier h⟩
  | keyword word => exact ⟨_, .keyword word⟩
  | boolean value => exact ⟨_, .boolean value⟩
  | null => exact ⟨_, .null⟩
  | punctuator sign => exact ⟨_, .sign sign⟩
  | string content => exact exists_spelled_string content
  | _ => exact h.elim

def ScansAs (strict : Bool) (count : Nat) (c : Cursor) (ts : List Token) : Prop :=
  (scanFrom strict count c).1.map Lexeme.token = ts ++ [endOfInput] ∧
    (scanFrom strict count c).2 = none

variable {strict : Bool} {ts : List Token}

theorem scansAs_nil {c : Cursor} (hc : c.rest = []) (count : Nat) :
    ScansAs strict (count + 1) c [] := by
  obtain ⟨l, hl, hend⟩ : ∃ l, next strict c = .ok l ∧ l.token = endOfInput := next_of_rest_nil hc
  rw [ScansAs, scanFrom, hl]
  simp [hend]

theorem ScansAs.cons {c : Cursor} {l : Lexeme} (hl : next strict c = .ok l)
    (hend : l.token ≠ endOfInput) {count : Nat} (h : ScansAs strict count l.next ts) :
    ScansAs strict (count + 1) c (l.token :: ts) := by
  have hfrom : scanFrom strict (count + 1) c =
      (l :: (scanFrom strict count l.next).1, (scanFrom strict count l.next).2) := by
    rw [scanFrom, hl]
    dsimp only
    split
    · next heq => exact absurd heq hend
    · rfl
  rw [ScansAs, hfrom, List.map_cons, h.1, List.cons_append]
  exact ⟨rfl, h.2⟩

/-- Each token takes a character at least, so there are no more of them than characters. -/
theorem scansAs_behind [Text.LawfulIdentifierClasses] {rest : List Char} (h : Behind ts rest)
    {c : Cursor} (hc : c.rest = rest) {count : Nat} (hcount : rest.length < count) :
    ScansAs strict count c ts := by
  induction h generalizing c count with
  | nil =>
    obtain ⟨count, rfl⟩ := Nat.exists_eq_add_one_of_ne_zero (Nat.ne_zero_of_lt hcount)
    exact scansAs_nil hc count
  | cons ht hrest ih =>
    obtain ⟨count, rfl⟩ := Nat.exists_eq_add_one_of_ne_zero (Nat.ne_zero_of_lt hcount)
    obtain ⟨l, hl, rfl, hnext⟩ := ht.next_of_rest strict hrest.isGap (.inr hc)
    apply ScansAs.cons hl ht.ne_endOfInput
    apply ih hnext
    rw [List.length_cons, List.length_append] at hcount
    omega

theorem scansAs_spells [Text.LawfulIdentifierClasses] {source : List Char} (h : Spells ts source)
    {c : Cursor} (hc : c.rest = source) {count : Nat} (hcount : source.length < count) :
    ScansAs strict count c ts := by
  obtain ⟨count, rfl⟩ := Nat.exists_eq_add_one_of_ne_zero (Nat.ne_zero_of_lt hcount)
  cases h with
  | nil => exact scansAs_nil hc count
  | cons ht hrest =>
    obtain ⟨l, hl, rfl, hnext⟩ := ht.next_of_rest strict hrest.isGap (.inl hc)
    apply ScansAs.cons hl ht.ne_endOfInput
    apply scansAs_behind hrest hnext
    have := ht.length_pos
    rw [List.length_append] at hcount
    omega

end

/-- Tokens with a spelling can be written, and each text that spells them is read as them, whatever
the letters beyond ASCII are. -/
theorem scan_spelled [Text.IdentifierClasses] [Text.LawfulIdentifierClasses] (strict : Bool)
    {ts : List Token} (hts : ∀ t ∈ ts, t.IsSpellable) :
    (∃ source : String, Spells ts source.toList) ∧
    ∀ source : String, Spells ts source.toList →
      (scan strict source).1.map Lexeme.token = ts ++ [endOfInput] ∧
        (scan strict source).2 = none := by
  constructor
  · obtain ⟨written, hwritten⟩ := exists_spells fun t ht => exists_spelled_of_isSpellable (hts t ht)
    refine ⟨String.ofList written, ?_⟩
    rw [String.toList_ofList]
    exact hwritten
  · intro source hsource
    exact scansAs_spells hsource rfl (Nat.lt_succ_self _)

theorem isFreeName_dollar : IsFreeName "$a" :=
  { isWord := by decide
    ne_keyword := by
      intro word
      cases word <;> decide
    ne_boolean := by decide
    ne_null := by decide }

/-- A name, the longest sign, and a string with each form of a character. -/
theorem scan_spelled_every_form :
    (scan true "$a >>>= '\"\\n\\'\\x7F\\u00e9\\u\x7b1F600\x7d' null").1.map Lexeme.token =
      [identifier "$a", punctuator .unsignedRightShiftAssign,
        string "\"\n'\x7f\u00e9😀", null, endOfInput] := by
  have hstring : (string "\"\n'\x7f\u00e9😀").Spelled
      ('\'' :: (['"'] ++ (['\\', 'n'] ++ (['\\', '\''] ++ (['\\', 'x', '7', 'F'] ++
        (['\\', 'u', '0', '0', 'e', '9'] ++
          (['\\', 'u', '\x7b', '1', 'F', '6', '0', '0', '\x7d'] ++ []))))) ++ ['\''])) := by
    apply Spelled.string (.inr rfl)
    rw [show "\"\n'\x7f\u00e9😀".toList = ['"', '\n', '\'', '\x7f', '\u00e9', '😀'] by decide]
    exact .cons (.raw (by decide) (by decide) (by decide) (by decide)) <|
      .cons (.named (by decide)) <| .cons (.itself (by decide)) <|
      .cons (.hex rfl (by decide)) <| .cons (.unit rfl (by decide)) <|
      .cons (.braced (by decide : 0 < Int32.ofNat ['1', 'F', '6', '0', '0'].length) (by decide))
        .nil
  have hspells : Spells
      [identifier "$a", punctuator .unsignedRightShiftAssign, string "\"\n'\x7f\u00e9😀", null]
      "$a >>>= '\"\\n\\'\\x7F\\u00e9\\u\x7b1F600\x7d' null".toList := by
    have h := Spells.cons (.identifier isFreeName_dollar) <|
      .cons (.sign .unsignedRightShiftAssign) <|
      .cons hstring <| .cons .null .nil
    exact h
  have hts : ∀ t ∈ [identifier "$a", punctuator .unsignedRightShiftAssign,
      string "\"\n'\x7f\u00e9😀", null], t.IsSpellable := by
    simp [IsSpellable, isFreeName_dollar]
  exact ((scan_spelled true hts).2 _ hspells).1

/-- Digits in braces whose count does not come out positive are refused. -/
theorem scan_braced_of_count [Text.IdentifierClasses] (strict : Bool) {c : Char}
    {digits : List Char} (hvalue : hexValue? 0 digits = some c.toNat)
    (hcount : ¬ 0 < Int32.ofNat digits.length) :
    ∃ q, scan strict
        (String.ofList ('"' :: '\\' :: 'u' :: '\x7b' :: (digits ++ ['\x7d', '"']))) =
      ([], some ⟨.unicodeEscape, q⟩) := by
  obtain ⟨q, hq⟩ := readUnicodeEscape_braced ['"']
    (((Position.start.step '"').step '\\').step 'u') hvalue
  rw [if_neg hcount] at hq
  have hescape : readEscape strict ⟨'u' :: '\x7b' :: (digits ++ ['\x7d', '"']),
      (Position.start.step '"').step '\\'⟩ = .error ⟨.unicodeEscape, q⟩ := by
    change (readUnicodeEscape ⟨'\x7b' :: (digits ++ ['\x7d', '"']), _⟩).map _ = _
    rw [hq, Except.map]
  have hstring : readString strict '"' ⟨'\\' :: 'u' :: '\x7b' :: (digits ++ ['\x7d', '"']),
      Position.start.step '"'⟩ [] = .error ⟨.unicodeEscape, q⟩ := by
    rw [readString]
    split
    · next hch => cases hch
    next ch hch =>
    obtain rfl : '\\' = ch := Option.some.inj hch
    rw [if_neg (by decide), if_pos (beq_self_eq_true _)]
    split
    · next he => cases he.symm.trans hescape
    · next e he => rw [Except.error.inj (he.symm.trans hescape)]
  have hnext {d : Cursor}
      (hd : d = ⟨'"' :: '\\' :: 'u' :: '\x7b' :: (digits ++ ['\x7d', '"']), .start⟩) :
      next strict d = .error ⟨.unicodeEscape, q⟩ := by
    have hgap : gapAt (d.skipWhile Text.isInlineBlank) = .none := by rw [hd]; rfl
    rw [next]
    split
    · next hg => cases hg.symm.trans hgap
    · next hg => cases hg.symm.trans hgap
    · rw [hd]
      change Except.map _ (Except.map _ (readString strict '"' ⟨_, Position.start.step '"'⟩ [])) = _
      rw [hstring]
      rfl
  refine ⟨q, ?_⟩
  rw [scan, scanFrom, hnext (by rw [Cursor.ofString, String.toList_ofList])]

/-- An escape that spells `A` with 2147483648 digits is refused. -/
theorem scan_braced_uncounted :
    let digits := List.replicate 2147483646 '0' ++ ['4', '1']
    hexValue? 0 digits = some 'A'.toNat ∧
      ∀ strict : Bool, ∃ q, scan strict
          (String.ofList ('"' :: '\\' :: 'u' :: '\x7b' :: (digits ++ ['\x7d', '"']))) =
        ([], some ⟨.unicodeEscape, q⟩) := by
  intro digits
  have hzeros (count : Nat) : hexValue? 0 (List.replicate count '0' ++ ['4', '1']) = some 65 := by
    induction count with
    | zero => rfl
    | succ count ih => exact ih
  have hcount : ¬ 0 < Int32.ofNat digits.length := by
    rw [List.length_append, List.length_replicate]
    decide
  exact ⟨hzeros _, fun strict => scan_braced_of_count strict (c := 'A') (hzeros _) hcount⟩

end Token

end ProtoScript
