import ProtoScript.Token.Scan
/-!
# Spelling tokens

How tokens can be written: words and signs as they are, and strings between quotes with any
character either raw or as an escape.  A text that spells tokens has single spaces between them.
-/

namespace ProtoScript

namespace Token

/-! ### Strings -/

/-- The escapes of control characters: the letter behind the backslash, and the character. -/
def controlLetters : List (Char × Char) :=
  [('n', '\n'), ('t', '\t'), ('r', '\r'), ('b', '\x08'), ('f', '\x0c'), ('v', '\x0b')]

def hexValue? (value : Nat) : List Char → Option Nat
  | [] => some value
  | digit :: rest => (Number.digitValue? 16 digit).bind fun d => hexValue? (value * 16 + d) rest

/-- How a character can be written between two quotes.  The digits in braces are counted in 32
bits. -/
inductive SpellsChar (quote c : Char) : List Char → Prop
  | raw : c ≠ quote → c ≠ '\\' → c ≠ '\n' → c ≠ '\r' → SpellsChar quote c [c]
  | named {letter : Char} : (letter, c) ∈ controlLetters → SpellsChar quote c ['\\', letter]
  | itself : c = '"' ∨ c = '\'' ∨ c = '\\' → SpellsChar quote c ['\\', c]
  | hex {digits : List Char} : digits.length = 2 → hexValue? 0 digits = some c.toNat →
    SpellsChar quote c ('\\' :: 'x' :: digits)
  | unit {digits : List Char} : digits.length = 4 → hexValue? 0 digits = some c.toNat →
    SpellsChar quote c ('\\' :: 'u' :: digits)
  | braced {digits : List Char} : 0 < Int32.ofNat digits.length →
    hexValue? 0 digits = some c.toNat →
    SpellsChar quote c ('\\' :: 'u' :: '\x7b' :: (digits ++ ['\x7d']))

/-- How the content of a string can be written between two quotes. -/
inductive SpellsContent (quote : Char) : List Char → List Char → Prop
  | nil : SpellsContent quote [] []
  | cons {c : Char} {content written rest : List Char} : SpellsChar quote c written →
    SpellsContent quote content rest → SpellsContent quote (c :: content) (written ++ rest)

theorem exists_spellsChar (quote c : Char) (hquote : quote = '"' ∨ quote = '\'') :
    ∃ written, SpellsChar quote c written := by
  by_cases hself : c = '"' ∨ c = '\'' ∨ c = '\\'
  · exact ⟨_, .itself hself⟩
  rw [not_or, not_or] at hself
  by_cases hcontrol : c = '\n' ∨ c = '\r'
  · rcases hcontrol with rfl | rfl
    · exact ⟨['\\', 'n'], .named (by decide)⟩
    · exact ⟨['\\', 'r'], .named (by decide)⟩
  rw [not_or] at hcontrol
  refine ⟨[c], .raw ?_ hself.2.2 hcontrol.1 hcontrol.2⟩
  rcases hquote with rfl | rfl
  · exact hself.1
  · exact hself.2.1

theorem exists_spellsContent (quote : Char) (hquote : quote = '"' ∨ quote = '\'')
    (content : List Char) : ∃ written, SpellsContent quote content written := by
  induction content with
  | nil => exact ⟨[], .nil⟩
  | cons c content ih =>
    obtain ⟨written, hc⟩ := exists_spellsChar quote c hquote
    obtain ⟨rest, hrest⟩ := ih
    exact ⟨_, .cons hc hrest⟩

section

variable {c quote : Char} {digits : List Char} (rest : List Char) (p : Position)

theorem readHexDigits_of_hexValue {value n : Nat} (h : hexValue? value digits = some n) :
    ∃ q, readHexDigits digits.length value ⟨digits ++ rest, p⟩ = .ok (n, ⟨rest, q⟩) := by
  induction digits generalizing value p with
  | nil =>
    cases h
    exact ⟨p, rfl⟩
  | cons digit digits ih =>
    obtain ⟨d, hd, h⟩ := Option.bind_eq_some_iff.mp h
    obtain ⟨q, hq⟩ := ih (p.step digit) h
    refine ⟨q, ?_⟩
    simp only [List.length_cons, List.cons_append, readHexDigits, Cursor.peek?, List.head?_cons,
      Option.bind_some, hd]
    exact hq

theorem le_hexValue {value n : Nat} (h : hexValue? value digits = some n) : value ≤ n := by
  induction digits generalizing value with
  | nil =>
    cases h
    exact Nat.le_refl _
  | cons digit digits ih =>
    obtain ⟨d, -, h⟩ := Option.bind_eq_some_iff.mp h
    have := ih h
    omega

/-- Digits in braces are read if their number, counted in 32 bits, comes out positive. -/
theorem readBracedDigits_of_hexValue {value n : Nat} (count : Int32)
    (h : hexValue? value digits = some n) (hn : n ≤ 0x10FFFF) :
    ∃ q, readBracedDigits (digits ++ '\x7d' :: rest) p value count =
      if 0 < count + Int32.ofNat digits.length then .ok (n, ⟨rest, q⟩)
      else .error ⟨.unicodeEscape, q⟩ := by
  induction digits generalizing value p count with
  | nil =>
    cases h
    refine ⟨p.step '\x7d', ?_⟩
    have hbrace : Number.digitValue? 16 '\x7d' = none := by decide
    rw [List.nil_append, readBracedDigits, List.length_nil, show Int32.ofNat 0 = 0 from rfl,
      Int32.add_zero, hbrace]
    simp only [beq_self_eq_true, Bool.true_and, decide_eq_true_eq]
  | cons digit digits ih =>
    obtain ⟨d, hd, h⟩ := Option.bind_eq_some_iff.mp h
    have hbrace : (digit == '\x7d') = false := by
      rw [beq_eq_false_iff_ne]
      rintro rfl
      cases (show Number.digitValue? 16 '\x7d' = none by decide).symm.trans hd
    have hle := le_hexValue h
    obtain ⟨q, hq⟩ := ih (p.step digit) (count + 1) h
    refine ⟨q, ?_⟩
    simp only [List.cons_append, readBracedDigits, hbrace, Bool.false_and, Bool.false_eq_true,
      if_false, hd]
    rw [if_neg (by omega), hq, Int32.add_assoc, Int32.add_comm 1, List.length_cons, Int32.ofNat_add]
    rfl

theorem charOfCodePoint_toNat (c : Char) : charOfCodePoint c.toNat = c := by
  unfold charOfCodePoint
  rw [if_pos (show c.toNat.isValidChar from c.valid), Char.ofNat_toNat]

theorem toNat_le (c : Char) : c.toNat ≤ 0x10FFFF := by
  have := c.valid
  simp only [UInt32.isValidChar, Nat.isValidChar] at this
  change c.val.toNat ≤ _
  omega

theorem readUnicodeEscape_unit (hlength : digits.length = 4)
    (h : hexValue? 0 digits = some c.toNat) :
    ∃ q, readUnicodeEscape ⟨digits ++ rest, p⟩ = .ok (c, ⟨rest, q⟩) := by
  obtain ⟨q, hq⟩ := readHexDigits_of_hexValue rest p h
  rw [hlength] at hq
  refine ⟨q, ?_⟩
  have hbrace : ((⟨digits ++ rest, p⟩ : Cursor).peek? == some '\x7b') = false := by
    cases digits with
    | nil => cases hlength
    | cons digit digits =>
      obtain ⟨d, hd, -⟩ := Option.bind_eq_some_iff.mp h
      simp only [Cursor.peek?, List.cons_append, List.head?_cons, beq_eq_false_iff_ne, ne_eq,
        Option.some.injEq]
      rintro rfl
      cases (show Number.digitValue? 16 '\x7b' = none by decide).symm.trans hd
  unfold readUnicodeEscape
  simp only [hbrace, Bool.false_eq_true, if_false, hq, bind, Except.bind, charOfCodePoint_toNat]
  rfl

theorem readUnicodeEscape_braced (h : hexValue? 0 digits = some c.toNat) :
    ∃ q, readUnicodeEscape ⟨'\x7b' :: (digits ++ '\x7d' :: rest), p⟩ =
      if 0 < Int32.ofNat digits.length then .ok (c, ⟨rest, q⟩)
      else .error ⟨.unicodeEscape, q⟩ := by
  obtain ⟨q, hq⟩ := readBracedDigits_of_hexValue rest (p.step '\x7b') 0 h (toNat_le c)
  rw [Int32.zero_add] at hq
  refine ⟨q, ?_⟩
  unfold readUnicodeEscape
  simp only [Cursor.peek?, List.head?_cons, beq_self_eq_true, if_true, Cursor.step, hq]
  split
  · simp only [bind, Except.bind, charOfCodePoint_toNat]
    rfl
  · rfl

theorem controlEscape?_of_mem {letter : Char} (h : (letter, c) ∈ controlLetters) :
    controlEscape? letter = some c := by
  simp only [controlLetters, List.mem_cons, Prod.mk.injEq, List.not_mem_nil, or_false] at h
  rcases h with ⟨rfl, rfl⟩ | ⟨rfl, rfl⟩ | ⟨rfl, rfl⟩ | ⟨rfl, rfl⟩ | ⟨rfl, rfl⟩ | ⟨rfl, rfl⟩ <;> rfl

theorem readEscape_of_spells (strict : Bool) {written : List Char}
    (h : SpellsChar quote c ('\\' :: written)) :
    ∃ q, readEscape strict ⟨written ++ rest, p⟩ = .ok ([c], ⟨rest, q⟩) := by
  generalize hslashed : '\\' :: written = slashed at h
  cases h with
  | raw _ hslash =>
    cases hslashed
    exact absurd rfl hslash
  | @named letter hletter =>
    cases hslashed
    refine ⟨p.step letter, ?_⟩
    unfold readEscape
    simp only [List.cons_append, Cursor.peek?, List.head?_cons, controlEscape?_of_mem hletter]
    rfl
  | itself hself =>
    cases hslashed
    rcases hself with rfl | rfl | rfl <;> exact ⟨_, rfl⟩
  | @hex digits hlength hvalue =>
    cases hslashed
    obtain ⟨q, hq⟩ := readHexDigits_of_hexValue rest (p.step 'x') hvalue
    rw [hlength] at hq
    refine ⟨q, ?_⟩
    change (readHexDigits 2 0 ⟨digits ++ rest, p.step 'x'⟩).map
      (fun found => ([Char.ofNat found.1], found.2)) = _
    simp only [hq, Except.map, Char.ofNat_toNat]
  | @unit digits hlength hvalue =>
    cases hslashed
    obtain ⟨q, hq⟩ := readUnicodeEscape_unit rest (p.step 'u') hlength hvalue
    refine ⟨q, ?_⟩
    change (readUnicodeEscape ⟨digits ++ rest, p.step 'u'⟩).map
      (fun found => ([found.1], found.2)) = _
    rw [hq, Except.map]
  | @braced digits hcount hvalue =>
    cases hslashed
    obtain ⟨q, hq⟩ := readUnicodeEscape_braced rest (p.step 'u') hvalue
    rw [if_pos hcount] at hq
    refine ⟨q, ?_⟩
    change (readUnicodeEscape ⟨'\x7b' :: ((digits ++ ['\x7d']) ++ rest), p.step 'u'⟩).map
      (fun found => ([found.1], found.2)) = _
    rw [List.append_assoc, List.singleton_append, hq, Except.map]

theorem readString_char (strict : Bool) (hquote : quote = '"' ∨ quote = '\'')
    (content : List Char) {written : List Char} (h : SpellsChar quote c written) :
    ∃ q, readString strict quote ⟨written ++ rest, p⟩ content =
      readString strict quote ⟨rest, q⟩ (c :: content) := by
  have hslash : ('\\' == quote) = false := by rcases hquote with rfl | rfl <;> rfl
  have hescape {escape : List Char} (h : SpellsChar quote c ('\\' :: escape)) :
      ∃ q, readString strict quote ⟨'\\' :: escape ++ rest, p⟩ content =
        readString strict quote ⟨rest, q⟩ (c :: content) := by
    obtain ⟨q, hq⟩ := readEscape_of_spells rest (p.step '\\') strict h
    refine ⟨q, ?_⟩
    conv => lhs; rw [readString]
    split
    · simp_all [Cursor.peek?]
    next ch hch =>
    obtain rfl : '\\' = ch := Option.some.inj hch
    rw [hslash, if_neg Bool.false_ne_true, if_pos (beq_self_eq_true _)]
    split
    · next chars next he =>
      obtain ⟨rfl, rfl⟩ := Prod.mk.inj (Except.ok.inj (he.symm.trans hq))
      rfl
    · next e he => cases he.symm.trans hq
  cases h with
  | raw hq hs hn hr =>
    refine ⟨p.step c, ?_⟩
    conv => lhs; rw [readString]
    split
    · simp_all [Cursor.peek?]
    next ch hch =>
    obtain rfl : c = ch := Option.some.inj hch
    rw [if_neg (by simpa using hq), if_neg (by simpa using hs), if_neg (by simp [hn, hr])]
    rfl
  | named h => exact hescape (.named h)
  | itself h => exact hescape (.itself h)
  | hex hlength hvalue => exact hescape (.hex hlength hvalue)
  | unit hlength hvalue => exact hescape (.unit hlength hvalue)
  | braced hcount hvalue => exact hescape (.braced hcount hvalue)

theorem readString_content (strict : Bool) (hquote : quote = '"' ∨ quote = '\'')
    (before : List Char) {written content : List Char} (h : SpellsContent quote content written) :
    ∃ q, readString strict quote ⟨written ++ quote :: rest, p⟩ before =
      .ok (String.ofList (before.reverse ++ content), ⟨rest, q⟩) := by
  induction h generalizing p before with
  | nil =>
    refine ⟨p.step quote, ?_⟩
    rw [readString]
    split
    · simp_all [Cursor.peek?]
    next ch hch =>
    obtain rfl : quote = ch := Option.some.inj hch
    rw [if_pos (by simp), List.append_nil]
    rfl
  | @cons c content written more hc hrest ih =>
    obtain ⟨q, hq⟩ := readString_char (more ++ quote :: rest) p strict hquote before hc
    obtain ⟨u, hu⟩ := ih q (c :: before)
    refine ⟨u, ?_⟩
    rw [List.append_assoc, hq, hu, List.reverse_cons, List.append_assoc, List.singleton_append]

end

/-! ### Words -/

def IsGap (rest : List Char) : Prop := rest = [] ∨ ∃ more, rest = ' ' :: more

theorem ofWord_spelling (word : Keyword) : ofWord word.spelling = keyword word := by
  cases word <;> rfl

theorem spelling_of_ofString? {name : String} {word : Keyword}
    (h : Keyword.ofString? name = some word) : word.spelling = name := by
  simpa using List.find?_some h

theorem ofWord_toString (value : Bool) : ofWord (toString value) = boolean value := by
  cases value <;> rfl

end Token

variable [Text.IdentifierClasses]

def Text.isWord : List Char → Bool
  | [] => false
  | first :: rest => isIdentifierStart first && rest.all isIdentifierContinue

namespace Token

/-- A word that is no keyword and no literal, so that it can be a name. -/
structure IsFreeName (name : String) : Prop where
  isWord : Text.isWord name.toList = true
  ne_keyword : ∀ word : Keyword, name ≠ word.spelling
  ne_boolean : ∀ value : Bool, name ≠ toString value
  ne_null : name ≠ "null"

theorem isWord_spelling (word : Keyword) : Text.isWord word.spelling.toList = true := by
  cases word <;> rfl

theorem ofWord_of_isFreeName {name : String} (h : IsFreeName name) :
    ofWord name = identifier name := by
  have htrue : name ≠ "true" := h.ne_boolean true
  have hfalse : name ≠ "false" := h.ne_boolean false
  have hkeyword : Keyword.ofString? name = none := by
    rw [Option.eq_none_iff_forall_ne_some]
    intro word hword
    exact h.ne_keyword word (spelling_of_ofString? hword).symm
  simp [ofWord, htrue, hfalse, h.ne_null, hkeyword]

theorem word_cases {name : String} (h : Text.isWord name.toList = true) :
    (∃ value : Bool, name = toString value) ∨ name = "null" ∨
      (∃ word : Keyword, name = word.spelling) ∨ IsFreeName name := by
  by_cases hboolean : ∃ value : Bool, name = toString value
  · exact .inl hboolean
  by_cases hnull : name = "null"
  · exact .inr (.inl hnull)
  by_cases hkeyword : ∃ word : Keyword, name = word.spelling
  · exact .inr (.inr (.inl hkeyword))
  rw [not_exists] at hboolean hkeyword
  exact .inr (.inr (.inr ⟨h, hkeyword, hboolean, hnull⟩))

/-! ### Tokens -/

inductive Spelled : Token → List Char → Prop
  | identifier {name : String} : IsFreeName name → Spelled (identifier name) name.toList
  | keyword (word : Keyword) : Spelled (keyword word) word.spelling.toList
  | boolean (value : Bool) : Spelled (boolean value) (toString value).toList
  | null : Spelled null "null".toList
  | sign (sign : Punctuator) : Spelled (punctuator sign) sign.spelling
  | string {quote : Char} {content : String} {written : List Char} : quote = '"' ∨ quote = '\'' →
    SpellsContent quote content.toList written →
    Spelled (string content) (quote :: (written ++ [quote]))

theorem spelled_ofWord {name : String} (h : Text.isWord name.toList = true) :
    (ofWord name).Spelled name.toList := by
  rcases word_cases h with ⟨value, rfl⟩ | rfl | ⟨word, rfl⟩ | hname
  · rw [ofWord_toString]
    exact .boolean value
  · exact .null
  · rw [ofWord_spelling]
    exact .keyword word
  · rw [ofWord_of_isFreeName hname]
    exact .identifier hname

inductive Behind : List Token → List Char → Prop
  | nil : Behind [] []
  | cons {t : Token} {ts : List Token} {written rest : List Char} : t.Spelled written →
    Behind ts rest → Behind (t :: ts) (' ' :: (written ++ rest))

/-- Tokens with single spaces between them. -/
inductive Spells : List Token → List Char → Prop
  | nil : Spells [] []
  | cons {t : Token} {ts : List Token} {written rest : List Char} : t.Spelled written →
    Behind ts rest → Spells (t :: ts) (written ++ rest)

theorem Behind.isGap {ts : List Token} {rest : List Char} (h : Behind ts rest) : IsGap rest := by
  cases h with
  | nil => exact .inl rfl
  | cons => exact .inr ⟨_, rfl⟩

theorem exists_spelled_string (content : String) : ∃ written, (string content).Spelled written := by
  obtain ⟨written, h⟩ := exists_spellsContent '"' (.inl rfl) content.toList
  exact ⟨_, .string (.inl rfl) h⟩

theorem exists_behind {ts : List Token} (h : ∀ t ∈ ts, ∃ written, t.Spelled written) :
    ∃ written, Behind ts written := by
  induction ts with
  | nil => exact ⟨[], .nil⟩
  | cons t ts ih =>
    obtain ⟨written, ht⟩ := h t List.mem_cons_self
    obtain ⟨rest, hrest⟩ := ih fun t' ht' => h t' (List.mem_cons_of_mem _ ht')
    exact ⟨_, .cons ht hrest⟩

theorem exists_spells {ts : List Token} (h : ∀ t ∈ ts, ∃ written, t.Spelled written) :
    ∃ written, Spells ts written := by
  cases ts with
  | nil => exact ⟨[], .nil⟩
  | cons t ts =>
    obtain ⟨written, ht⟩ := h t List.mem_cons_self
    obtain ⟨rest, hrest⟩ := exists_behind fun t' ht' => h t' (List.mem_cons_of_mem _ ht')
    exact ⟨_, .cons ht hrest⟩

end Token

end ProtoScript
