import ProtoScript.Proofs.Layout.Texts
import ProtoScript.Proofs.Numerals.Decimal
/-!
# Numeric literals as texts

The reader of tokens and the conversion of texts to numbers split a text into the same parts.  So a
text without underscores that is one numeric literal converts to the value of the literal, and the
texts that are one are decimal numerals, digits behind a radix prefix, and digits behind a zero that
are not all octal.
-/

namespace ProtoScript

open Number (AreDigits IsMantissa IsExponent StartsNumeral DecimalParts ExponentParts isDigitOf
  decimalValue)

namespace Number

variable {cs w m e : List Char}

theorem isDigitOf_ten : isDigitOf 10 = Char.isDigit := by
  funext c
  unfold isDigitOf digitValue? digitOrLetter?
  split
  · next h =>
    have hbounds : 48 ≤ c.toNat ∧ c.toNat ≤ 57 := Char.isDigit_iff_toNat.mp h
    have hlt : c.toNat - '0'.toNat < 10 := by
      change c.toNat - 48 < 10
      omega
    rw [h, Option.filter_some, if_pos (by simpa using hlt)]
    rfl
  · next h =>
    rw [Bool.not_eq_true] at h
    rw [h]
    split
    · rw [Option.filter_some, if_neg (by simp)]
      rfl
    split
    · rw [Option.filter_some, if_neg (by simp)]
      rfl
    · rfl

theorem decimalValue_mark {mark : Char} {sign digits : List Char}
    (hm : (DecimalParts.of m).rest = []) (hmark : mark = 'e' ∨ mark = 'E') (hsign : sign ∈ signs)
    (hne : digits ≠ []) (hdigits : AreDigits digits) :
    decimalValue (m ++ mark :: (sign ++ digits)) = decimalValue (m ++ 'e' :: (sign ++ digits)) := by
  have hvalue {mark : Char} (hmark : mark = 'e' ∨ mark = 'E') :
      decimalValue (m ++ mark :: (sign ++ digits)) =
        let scale :=
          ExponentParts.value ⟨'e', sign, digits, []⟩ - (DecimalParts.of m).fraction.length
        Float.ofScientific (naturalOfDigits (DecimalParts.of m).digits) (scale < 0)
          scale.natAbs := by
    obtain ⟨hstop, hpoint⟩ := (IsExponent.mk hmark hsign hne hdigits).stops []
    rw [List.append_nil] at hstop hpoint
    have hof : ExponentParts.of? (mark :: (sign ++ digits ++ [])) = some ⟨mark, sign, digits, []⟩ :=
      exponentParts_eq hmark hsign hne hdigits stops_nil
    rw [List.append_nil] at hof
    unfold decimalValue
    rw [decimalParts_append hm hstop hpoint]
    dsimp only
    rw [hof]
    rfl
  rw [hvalue hmark, hvalue (.inl rfl)]

theorem ofChars_of_isNumeral (h : isNumeral cs = true) :
    ofChars cs = if Uncounted cs then nan else decimalValue cs :=
  ofChars_numeral (show [] ∈ signs by decide) h

theorem of_radixOfLetter? {x : Char} {radix : Nat} (h : Token.radixOfLetter? x = some radix) :
    Text.isBlank x = false ∧ ¬ IsNumeralChar x := by
  unfold Token.radixOfLetter? at h
  unfold IsNumeralChar
  split at h <;> first | cases h; decide | cases h

def literalValue (cs : List Char) : Float :=
  match radixPrefix? cs with
  | some (radix, digits) => numberOfDigits radix digits
  | none => decimalValue cs

theorem literalValue_of_isNumeral (h : isNumeral cs = true) :
    literalValue cs = decimalValue cs := by
  rw [literalValue, radixPrefix?_eq_none (isNumeralChar_of_isNumeral h)]

section Radix

variable {x : Char} {radix : Nat} (hx : Token.radixOfLetter? x = some radix)
include hx

theorem radixPrefix?_eq (w : List Char) : radixPrefix? ('0' :: x :: w) = some (radix, w) := by
  unfold Token.radixOfLetter? at hx
  split at hx <;> cases hx <;> rfl

theorem literalValue_radix (w : List Char) :
    literalValue ('0' :: x :: w) = numberOfDigits radix w := by
  rw [literalValue, radixPrefix?_eq hx]

theorem not_uncounted_radix (w : List Char) : ¬ Uncounted ('0' :: x :: w) := by
  obtain ⟨-, hplain⟩ := of_radixOfLetter? hx
  have hstop : Stops Char.isDigit (x :: w) := fun c hc => by
    cases hc
    exact Bool.eq_false_iff.mpr fun hdigit => hplain (.inl hdigit)
  have hpoint : (x :: w).head? ≠ some '.' := fun hc => by
    cases hc
    exact hplain (.inr (by decide))
  have hparts := decimalParts_whole (w := ['0']) (by decide) hstop hpoint
  rw [List.singleton_append] at hparts
  rw [Uncounted, hparts]
  exact fun h => absurd (show 1 % 4294967296 = 0 from h.2) (by decide)

theorem ofChars_radix (hne : w ≠ []) (hw : ∀ c ∈ w, isDigitOf radix c = true) :
    ofChars ('0' :: x :: w) = numberOfDigits radix w := by
  have htrim : Text.trimBlanks ('0' :: x :: w) = '0' :: x :: w := by
    refine trimBlanks_eq_self (List.forall_mem_cons.mpr ⟨by decide, List.forall_mem_cons.mpr
      ⟨(of_radixOfLetter? hx).1, fun c hc => ?_⟩⟩)
    obtain ⟨d, hd⟩ := Option.isSome_iff_exists.mp (hw c hc)
    have hbounds := bounds_of_digitOrLetter? (Option.eq_some_of_filter_eq_some hd)
    exact Text.isBlank_of_bounds (by omega) hbounds.2
  unfold ofChars
  rw [htrim]
  dsimp only
  rw [radixPrefix?_eq hx, List.isEmpty_cons, if_neg Bool.false_ne_true]
  dsimp only
  rw [if_neg]
  simpa using ⟨hne, hw⟩

end Radix

end Number

/-! ## The texts of literals -/

def HasLeadingZero (cs : List Char) : Prop :=
  ∃ c rest, cs = '0' :: c :: rest ∧ c.isDigit = true

/-- The texts without underscores that are one numeric literal, in code where digits may stand
behind a leading zero. -/
inductive IsNumericLiteral : List Char → Prop
  | decimal {cs m e : List Char} : cs = m ++ e → IsMantissa m → e = [] ∨ IsExponent e →
    ¬ HasLeadingZero cs → IsNumericLiteral cs
  | leadingZero {w : List Char} : AreDigits w → (∃ c ∈ w, isDigitOf 8 c = false) →
    IsNumericLiteral ('0' :: w)
  | radix {x : Char} {radix : Nat} {w : List Char} : Token.radixOfLetter? x = some radix →
    w ≠ [] → (∀ c ∈ w, isDigitOf radix c = true) → IsNumericLiteral ('0' :: x :: w)

namespace IsNumericLiteral

variable {cs w : List Char} {x : Char} {radix : Nat}

theorem iff_of_radix (hx : Token.radixOfLetter? x = some radix) :
    IsNumericLiteral ('0' :: x :: w) ↔ w ≠ [] ∧ ∀ c ∈ w, isDigitOf radix c = true := by
  obtain ⟨-, hplain⟩ := Number.of_radixOfLetter? hx
  refine ⟨fun h => ?_, fun h => .radix hx h.1 h.2⟩
  cases h with
  | decimal hcs hm he =>
    have hdecimal := Number.isNumeral_iff_mantissa.mpr ⟨_, _, hcs, hm, he⟩
    exact absurd (Number.isNumeralChar_of_isNumeral hdecimal x (by simp)) hplain
  | leadingZero hdigits => exact absurd (.inl (hdigits x List.mem_cons_self)) hplain
  | radix hx' hne hw =>
    cases hx.symm.trans hx'
    exact ⟨hne, hw⟩

theorem radixOfLetter?_of_isDigit (hx : x.isDigit = true) : Token.radixOfLetter? x = none := by
  rw [Option.eq_none_iff_forall_ne_some]
  intro radix hradix
  exact (Number.of_radixOfLetter? hradix).2 (.inl hx)

theorem iff_of_leadingZero (hx : x.isDigit = true) : IsNumericLiteral ('0' :: x :: w) ↔
    AreDigits (x :: w) ∧ ∃ c ∈ x :: w, isDigitOf 8 c = false := by
  refine ⟨fun h => ?_, fun h => .leadingZero h.1 h.2⟩
  cases h with
  | decimal _ _ _ hzero => exact absurd ⟨x, w, rfl, hx⟩ hzero
  | leadingZero hdigits hdecimal => exact ⟨hdigits, hdecimal⟩
  | radix hradix => cases (radixOfLetter?_of_isDigit hx).symm.trans hradix

theorem iff_of_decimal (hzero : ¬ HasLeadingZero cs)
    (hradix : ∀ x w, cs = '0' :: x :: w → Token.radixOfLetter? x = none) :
    IsNumericLiteral cs ↔ Number.isNumeral cs = true := by
  rw [Number.isNumeral_iff_mantissa]
  refine ⟨fun h => ?_, fun ⟨m, e, hcs, hm, he⟩ => .decimal hcs hm he hzero⟩
  cases h with
  | decimal hcs hm he => exact ⟨_, _, hcs, hm, he⟩
  | @leadingZero w hdigits hdecimal =>
    cases w with
    | nil => simp at hdecimal
    | cons c w => exact absurd ⟨c, w, rfl, hdigits c List.mem_cons_self⟩ hzero
  | radix hx => cases (hradix _ _ rfl).symm.trans hx

/-- A literal converts to the number that it stands for, unless its digits are too many to be
counted. -/
theorem ofChars_eq (h : IsNumericLiteral cs) :
    Number.ofChars cs = if Number.Uncounted cs then Number.nan else Number.literalValue cs := by
  have hnumeral (hcs : Number.isNumeral cs = true) :
      Number.ofChars cs =
        if Number.Uncounted cs then Number.nan else Number.literalValue cs := by
    rw [Number.ofChars_of_isNumeral hcs, Number.literalValue_of_isNumeral hcs]
  cases h with
  | decimal hcs hm he => exact hnumeral (Number.isNumeral_iff_mantissa.mpr ⟨_, _, hcs, hm, he⟩)
  | leadingZero hw =>
    exact hnumeral (Number.isNumeral_digits (List.cons_ne_nil _ _)
      (List.forall_mem_cons.mpr ⟨rfl, hw⟩))
  | radix hx hne hw =>
    rw [if_neg (Number.not_uncounted_radix hx _), Number.literalValue_radix hx,
      Number.ofChars_radix hx hne hw]

end IsNumericLiteral

theorem Cursor.Walk.eq_of_nil {c d : Cursor} {n : Nat} (h : Cursor.Walk c [] n d) : c = d := by
  cases h
  rfl

namespace Token

variable {cs : List Char} {c d : Cursor} {v : Float} {first : Char}

/-! ### What the readers of digits take -/

/-- Where no underscore stands, digits are read up to the first character that is none. -/
theorem takeDigits_eq (radix : Nat) (h : '_' ∉ cs) (p : Position) :
    ∃ q, takeDigits radix cs p =
      (cs.takeWhile (isDigitOf radix), ⟨cs.dropWhile (isDigitOf radix), q⟩) := by
  induction cs generalizing p with
  | nil => exact ⟨p, rfl⟩
  | cons ch cs ih =>
    have hch : (ch == '_') = false := beq_eq_false_iff_ne.mpr fun heq => h (by simp [heq])
    rw [takeDigits]
    split
    · next hdigit =>
      obtain ⟨q, hq⟩ := ih (fun hmem => h (List.mem_cons_of_mem ch hmem)) (p.step ch)
      rw [hq, List.takeWhile_cons_of_pos hdigit, List.dropWhile_cons_of_pos hdigit]
      exact ⟨q, rfl⟩
    · next hdigit =>
      rw [hch, Bool.false_and, if_neg Bool.false_ne_true, List.takeWhile_cons_of_neg hdigit,
        List.dropWhile_cons_of_neg hdigit]
      exact ⟨p, rfl⟩

theorem digitsAt_eq (radix : Nat) (h : '_' ∉ c.rest) :
    ∃ q, digitsAt radix c =
      (c.rest.takeWhile (isDigitOf radix), ⟨c.rest.dropWhile (isDigitOf radix), q⟩) :=
  takeDigits_eq radix h c.position

theorem digitsAt_ten (h : '_' ∉ c.rest) :
    ∃ q, digitsAt 10 c = (c.rest.takeWhile Char.isDigit, ⟨c.rest.dropWhile Char.isDigit, q⟩) := by
  rw [← Number.isDigitOf_ten]
  exact digitsAt_eq 10 h

theorem readMantissa_eq (hfirst : first.isDigit = true ∨ first = '.') (h : '_' ∉ c.rest) :
    ∃ q, readMantissa first c = ((DecimalParts.of (first :: c.rest)).mantissa,
      ⟨(DecimalParts.of (first :: c.rest)).rest, q⟩) := by
  obtain ⟨q, hdigits⟩ := digitsAt_ten h
  obtain ⟨cs, p⟩ := c
  obtain ⟨w, rest, rfl, hw, hstop⟩ := Number.exists_run Char.isDigit cs
  dsimp only at hdigits h ⊢
  rw [Number.takeWhile_append_stop hw hstop, Number.dropWhile_append_stop hw hstop] at hdigits
  unfold readMantissa
  rw [hdigits]
  split
  · next hdot =>
    obtain rfl : first = '.' := by simpa using hdot
    have hparts := Number.decimalParts_point (w := []) nofun hw hstop
    rw [List.nil_append] at hparts
    rw [hparts]
    exact ⟨q, rfl⟩
  · next hdot =>
    have hdigit : first.isDigit = true := hfirst.resolve_right fun heq => hdot (by simp [heq])
    have hwhole : AreDigits (first :: w) := List.forall_mem_cons.mpr ⟨hdigit, hw⟩
    rw [← List.cons_append]
    dsimp only
    split
    · next hpoint =>
      obtain ⟨rest, rfl⟩ := List.head?_eq_some_iff.mp (eq_of_beq hpoint)
      obtain ⟨q', hfraction⟩ :=
        digitsAt_ten (c := ⟨rest, q.step '.'⟩) fun hmem => h (by simp [hmem])
      obtain ⟨f, rest, rfl, hf, hstop⟩ := Number.exists_run Char.isDigit rest
      dsimp only at hfraction
      rw [Number.takeWhile_append_stop hf hstop, Number.dropWhile_append_stop hf hstop] at hfraction
      rw [Number.decimalParts_point hwhole hf hstop]
      refine ⟨q', ?_⟩
      change (first :: w ++ '.' :: (digitsAt 10 ⟨f ++ rest, q.step '.'⟩).1,
        (digitsAt 10 ⟨f ++ rest, q.step '.'⟩).2) = _
      rw [hfraction]
      rfl
    · next hpoint =>
      rw [Number.decimalParts_whole hwhole hstop (by simpa [Cursor.peek?] using hpoint)]
      exact ⟨q, by simp [DecimalParts.mantissa]⟩

/-- The exponent of a literal is the one at the start of the text, and it has digits. -/
theorem readExponent_eq (h : '_' ∉ c.rest) : ∃ q, readExponent c =
    match ExponentParts.of? c.rest with
    | none => .ok ([], c)
    | some parts =>
      if parts.digits.isEmpty then .error ⟨.numericLiteral, q⟩
      else .ok ('e' :: (parts.sign ++ parts.digits), ⟨parts.rest, q⟩) := by
  obtain ⟨cs, p⟩ := c
  cases cs with
  | nil => exact ⟨p, rfl⟩
  | cons mark body =>
    have hsign : body.head?.toList.filter (fun ch => ch == '+' || ch == '-') =
        (body.take 1).filter fun ch => ch == '+' || ch == '-' := by
      cases body <;> rfl
    obtain ⟨sign, behind, rfl, -, htaken, -⟩ := Number.exists_sign body
    obtain ⟨q, hdigits⟩ :=
      digitsAt_ten (c := Cursor.skip ⟨sign ++ behind, p.step mark⟩ sign.length) fun hmem => by
        simp_all [Cursor.skip]
    refine ⟨q, ?_⟩
    have hpeek :
        (Cursor.peek? ⟨mark :: (sign ++ behind), p⟩).any (fun ch => ch == 'e' || ch == 'E') =
          (mark == 'e' || mark == 'E') :=
      rfl
    dsimp only
    rw [readExponent, hpeek, ExponentParts.of?]
    split
    · dsimp only [Cursor.step, Cursor.peek?]
      rw [hsign, htaken, hdigits]
      rfl
    · rfl

/-! ### Readers that take a whole text -/

def TakesAll (r : Except LexicalError (Token × Cursor)) (v : Float) : Prop :=
  ∃ d, r = .ok (number v, d) ∧ d.rest = []

theorem takesAll_endNumber {token : Token} :
    TakesAll (endNumber token c) v ↔ c.rest = [] ∧ token = number v := by
  unfold TakesAll endNumber
  split
  · next hmore =>
    refine iff_of_false (by rintro ⟨d, h, -⟩; cases h) fun h => ?_
    rw [Cursor.peek?, h.1] at hmore
    cases hmore
  · constructor
    · rintro ⟨d, h, hd⟩
      cases h
      exact ⟨hd, rfl⟩
    · rintro ⟨hc, rfl⟩
      exact ⟨c, rfl, hc⟩

theorem not_takesAll_error {e : LexicalError} : ¬ TakesAll (.error e) v := by
  rintro ⟨d, h, -⟩
  cases h

theorem takesAll_readRadixNumber {radix : Nat} (h : '_' ∉ c.rest) :
    TakesAll (readRadixNumber radix c) v ↔
      (c.rest ≠ [] ∧ ∀ ch ∈ c.rest, isDigitOf radix ch = true) ∧
        Number.numberOfDigits radix c.rest = v := by
  obtain ⟨q, hdigits⟩ := digitsAt_eq radix h
  obtain ⟨cs, p⟩ := c
  obtain ⟨w, rest, rfl, hw, hstop⟩ := Number.exists_run (isDigitOf radix) cs
  dsimp only at hdigits ⊢
  rw [Number.takeWhile_append_stop hw hstop, Number.dropWhile_append_stop hw hstop] at hdigits
  unfold readRadixNumber
  rw [hdigits, Number.all_iff_of_stops hw hstop]
  dsimp only
  split
  · next hnone =>
    obtain rfl : w = [] := List.isEmpty_iff.mp hnone
    refine iff_of_false not_takesAll_error ?_
    rintro ⟨⟨hne, rfl⟩, -⟩
    exact hne rfl
  · next hsome =>
    rw [takesAll_endNumber, number.injEq]
    constructor
    · rintro ⟨rfl, rfl⟩
      rw [List.append_nil]
      exact ⟨⟨by simpa using hsome, rfl⟩, rfl⟩
    · rintro ⟨⟨-, rfl⟩, rfl⟩
      rw [List.append_nil]
      exact ⟨rfl, rfl⟩

theorem takesAll_readLeadingZero :
    TakesAll (readLeadingZero false c) v ↔
      (AreDigits c.rest ∧ ∃ ch ∈ c.rest, isDigitOf 8 ch = false) ∧
        decimalValue ('0' :: c.rest) = v := by
  obtain ⟨cs, p⟩ := c
  obtain ⟨w, rest, rfl, hw, hstop⟩ := Number.exists_run Char.isDigit cs
  have hoctal : (∃ ch ∈ w, isDigitOf 8 ch = false) ↔ ¬ ('0' :: w).all (isDigitOf 8) = true := by
    simp [show isDigitOf 8 '0' = true by decide]
  unfold readLeadingZero Cursor.skipWhile AreDigits
  rw [if_neg Bool.false_ne_true, Number.takeWhile_append_stop hw hstop,
    Number.dropWhile_append_stop hw hstop, Number.all_iff_of_stops hw hstop]
  dsimp only
  split
  · next hall =>
    rw [takesAll_endNumber]
    refine iff_of_false (fun h => Token.noConfusion h.2) ?_
    rintro ⟨⟨rfl, hsome⟩, -⟩
    rw [List.append_nil] at hsome
    exact hoctal.mp hsome hall
  · next hsome =>
    rw [takesAll_endNumber, number.injEq]
    constructor
    · rintro ⟨rfl, rfl⟩
      rw [List.append_nil]
      exact ⟨⟨rfl, hoctal.mpr hsome⟩, rfl⟩
    · rintro ⟨⟨rfl, -⟩, rfl⟩
      rw [List.append_nil]
      exact ⟨rfl, rfl⟩

/-- What stands behind a mantissa is taken if it is an exponent or empty. -/
theorem takesAll_readExponent {m : List Char} (hm : (DecimalParts.of m).rest = [])
    (h : '_' ∉ c.rest) :
    TakesAll (readExponent c >>= fun (exponent, next) =>
        endNumber (number (decimalValue (m ++ exponent))) next) v ↔
      (c.rest = [] ∨ IsExponent c.rest) ∧ decimalValue (m ++ c.rest) = v := by
  obtain ⟨q, hexponent⟩ := readExponent_eq h
  rw [hexponent, Number.isExponent_iff]
  cases hof : ExponentParts.of? c.rest with
  | none =>
    change TakesAll (endNumber (number (decimalValue (m ++ []))) c) v ↔ _
    rw [takesAll_endNumber, number.injEq, or_iff_left (by simp)]
    refine and_congr_right fun hrest => ?_
    rw [hrest]
  | some exponent =>
    obtain ⟨hrest, hmark, hsign, hdigits, -⟩ := Number.of_exponentParts hof
    rw [or_iff_right (by rw [hrest]; exact List.cons_ne_nil _ _)]
    dsimp only
    split
    · next hnone =>
      refine iff_of_false not_takesAll_error ?_
      rintro ⟨⟨exponent', hof', hne, -⟩, -⟩
      cases hof'
      exact hne (List.isEmpty_iff.mp hnone)
    · next hsome =>
      have hne : exponent.digits ≠ [] := by simpa using hsome
      change TakesAll (endNumber (number (decimalValue
        (m ++ 'e' :: (exponent.sign ++ exponent.digits)))) ⟨exponent.rest, q⟩) v ↔ _
      rw [takesAll_endNumber, number.injEq,
        ← Number.decimalValue_mark hm hmark hsign hne hdigits]
      have hend : (∃ parts, some exponent = some parts ∧ parts.digits ≠ [] ∧ parts.rest = []) ↔
          exponent.rest = [] :=
        ⟨by rintro ⟨_, ⟨⟩, -, hend⟩; exact hend, fun hend => ⟨_, rfl, hne, hend⟩⟩
      rw [hend]
      refine and_congr_right fun (hend : exponent.rest = []) => ?_
      rw [hrest, hend, List.append_nil]

theorem takesAll_readDecimal (hfirst : StartsNumeral first c.rest) (h : '_' ∉ c.rest) :
    TakesAll (readDecimal first c) v ↔ Number.isNumeral (first :: c.rest) = true ∧
      decimalValue (first :: c.rest) = v := by
  obtain ⟨q, hmantissa⟩ := readMantissa_eq (hfirst.imp_right And.left) h
  have hcount := Number.digits_ne_nil_iff.mpr ⟨first, c.rest, rfl, hfirst⟩
  have happend := Number.mantissa_append_rest (first :: c.rest)
  have hparts := congrArg DecimalParts.rest (Number.decimalParts_mantissa (first :: c.rest))
  have hplain : '_' ∉ (DecimalParts.of (first :: c.rest)).rest := by
    intro hmem
    have hmem := happend ▸ List.mem_append_right _ hmem
    rcases List.mem_cons.mp hmem with rfl | hmem
    · rcases hfirst with hdigit | ⟨hdot, -⟩
      · cases hdigit
      · cases hdot
    · exact h hmem
  unfold readDecimal
  rw [hmantissa, Number.isNumeral_iff, and_iff_right hcount]
  refine (takesAll_readExponent (c := ⟨_, q⟩) hparts hplain).trans ?_
  rw [happend]

/-- The texts that are read to their end as the number behind their first character. -/
theorem takesAll_readNumber (hfirst : StartsNumeral first c.rest) (h : '_' ∉ c.rest) :
    TakesAll (readNumber false first c) v ↔ IsNumericLiteral (first :: c.rest) ∧
      Number.literalValue (first :: c.rest) = v := by
  unfold readNumber
  split
  · next radix hradix =>
    obtain ⟨hzero, hletter⟩ : first = '0' ∧ c.peek?.bind radixOfLetter? = some radix := by
      split at hradix
      · exact ⟨by simp_all, hradix⟩
      · cases hradix
    subst hzero
    obtain ⟨x, hpeek, hx⟩ := Option.bind_eq_some_iff.mp hletter
    obtain ⟨cs, p⟩ := c
    obtain ⟨w, rfl⟩ := List.head?_eq_some_iff.mp hpeek
    change TakesAll (readRadixNumber radix ⟨w, p.step x⟩) v ↔ _
    rw [takesAll_readRadixNumber fun hmem => h (List.mem_cons_of_mem x hmem),
      IsNumericLiteral.iff_of_radix hx]
    rw [Number.literalValue_radix hx]
  · next hradix =>
    split
    · next hzero =>
      obtain ⟨hfirst, hnext⟩ : first = '0' ∧ c.peek?.any Char.isDigit = true := by simpa using hzero
      subst hfirst
      obtain ⟨cs, p⟩ := c
      cases cs with
      | nil => cases hnext
      | cons x w =>
        rw [takesAll_readLeadingZero, IsNumericLiteral.iff_of_leadingZero hnext]
        refine and_congr_right fun hdigits => ?_
        have hnumeral : Number.isNumeral ('0' :: x :: w) = true :=
          Number.isNumeral_digits (List.cons_ne_nil _ _) (List.forall_mem_cons.mpr ⟨rfl, hdigits.1⟩)
        rw [Number.literalValue_of_isNumeral hnumeral]
    · next hzero =>
      have hleading : ¬ HasLeadingZero (first :: c.rest) := by
        rintro ⟨x, w, heq, hx⟩
        obtain ⟨rfl, hrest⟩ := List.cons.inj heq
        exact hzero (by simp [Cursor.peek?, hrest, hx])
      have hletter (x : Char) (w : List Char) (heq : first :: c.rest = '0' :: x :: w) :
          radixOfLetter? x = none := by
        obtain ⟨rfl, hrest⟩ := List.cons.inj heq
        simpa [Cursor.peek?, hrest] using hradix
      rw [takesAll_readDecimal hfirst h, IsNumericLiteral.iff_of_decimal hleading hletter]
      refine and_congr_right fun hnumeral => ?_
      rw [Number.literalValue_of_isNumeral hnumeral]

/-! ### Texts that are one token -/

theorem ofWord_ne_number (word : String) (v : Float) : ofWord word ≠ number v := by
  unfold ofWord
  repeat' split
  all_goals nofun

theorem readWord_ne_number {r : Token × Cursor} (h : readWord first c = .ok r) :
    r.1 ≠ number v := by
  have hword (found : String × Bool × Cursor) :
      (if found.2.1 = true then identifier found.1 else ofWord found.1) ≠ number v := by
    split
    · nofun
    · exact ofWord_ne_number _ v
  unfold readWord at h
  dsimp only at h
  split at h
  all_goals
    obtain ⟨found, -, h⟩ := bind_except_eq_ok h
    cases h
    exact hword found

/-- A number starts with a digit, or with a point and a digit behind it. -/
theorem readNumber_of_readToken {strict : Bool} {r : Token × Cursor}
    (h : readToken strict first c = .ok r) (hr : r.1 = number v) :
    StartsNumeral first c.step.rest ∧
      readNumber strict first c.step = .ok r := by
  unfold readToken at h
  split at h
  · obtain ⟨found, -, rfl⟩ := map_except_eq_ok h
    cases hr
  split at h
  · next hfirst => exact ⟨by simpa [StartsNumeral, Cursor.peek?] using hfirst, h⟩
  split at h
  · exact absurd hr (readWord_ne_number h)
  split at h
  · cases h
    cases hr
  · cases h

theorem readNumber_of_readHere {strict : Bool} {l : Lexeme} (h : readHere strict c = .ok l)
    (hl : l.token = number v) :
    ∃ first, c.peek? = some first ∧
      StartsNumeral first c.step.rest ∧
        readNumber strict first c.step = .ok (number v, l.next) := by
  unfold readHere at h
  split at h
  · obtain ⟨found, -, rfl⟩ := map_except_eq_ok h
    cases hl
  unfold readLexeme at h
  split at h
  · cases h
    cases hl
  next first hc =>
  split at h
  · cases h
    cases hl
  · obtain ⟨found, ht, rfl⟩ := map_except_eq_ok h
    obtain ⟨hfirst, hnumber⟩ := readNumber_of_readToken ht hl
    exact ⟨first, hc, hfirst, hnumber.trans (by rw [← hl])⟩

theorem readHere_of_scan {strict : Bool} {t : String} {l eof : Lexeme}
    (hscan : scan strict t = ([l, eof], none)) (hspan : l.span t = t.toList) :
    readHere strict (.ofString t) = .ok l ∧ l.next.rest = [] := by
  have hscans := scans_scan strict t
  rw [hscan] at hscans
  have hnext : next strict (.ofString t) = .ok l := by
    cases hscans with
    | token hnext => exact hnext
  obtain ⟨d, u, hto, hhere, hwalk⟩ := span_of_next .done hnext
  have hrest : t.toList = u ++ d.rest := hto.rest_eq
  have hlength := congrArg List.length hrest
  rw [hwalk.rest_eq, hspan, List.length_append, List.length_append] at hlength
  -- the token takes as many characters as there are, so none stands in front of it
  obtain rfl : u = [] := List.eq_nil_of_length_eq_zero (by omega)
  obtain rfl := hto.eq_of_nil
  exact ⟨hhere, List.eq_nil_of_length_eq_zero (by omega)⟩

theorem scan_of_beginsWith {strict : Bool} {t : String} {token : Token}
    (h : BeginsWith strict t.toList [] .start token first cs) (htoken : token ≠ endOfInput) :
    ∃ l eof, scan strict t = ([l, eof], none) ∧ l.token = token ∧ l.span t = t.toList := by
  have hstart : (⟨t.toList ++ [], .start⟩ : Cursor) = .ofString t := by
    rw [List.append_nil]
    rfl
  have hskip := h.skipWhile
  obtain ⟨l, hl, rfl, hrest⟩ := h.next hskip
  rw [hstart] at hl
  obtain ⟨eof, heof, hend⟩ : ∃ eof, next strict l.next = .ok eof ∧ eof.token = endOfInput :=
    next_of_rest_nil hrest
  have hscans : Scans strict (.ofString t) [l, eof] none := .token hl htoken (.ends heof hend)
  refine ⟨l, eof, hscans.scanFrom_eq (Nat.lt_succ_self _), rfl, ?_⟩
  have hbare : ¬ StartsTrivia (.ofString t) := by
    have hgap := h.noGap
    rw [hstart] at hgap
    refine not_startsTrivia (fun ch hch => ?_) (by simp [hgap]) (by simp [hgap])
    rw [Cursor.ofString, h.chars] at hch
    cases hch
    rw [Text.isInlineBlank, h.notBlank, Bool.false_and]
  rw [next_eq_readHere strict hbare] at hl
  obtain ⟨hoffset, w, hwalk, -⟩ := walk_readHere hl
  have htext : t.toList = w ++ l.next.rest := hwalk.rest_eq
  rw [span_eq .done hoffset hwalk, htext, hrest, List.append_nil]

theorem step_ofString {t : String} (ht : t.toList = first :: cs) :
    (Cursor.ofString t).step = ⟨cs, Position.start.step first⟩ := by
  unfold Cursor.step Cursor.ofString
  rw [ht]

theorem beginsWith_number {strict : Bool} {t : String} {token : Token} (ht : t.toList = first :: cs)
    (hfirst : StartsNumeral first cs)
    (h : readNumber strict first ⟨cs, Position.start.step first⟩ = .ok (token, d))
    (hd : d.rest = []) : BeginsWith strict t.toList [] .start token first cs := by
  have hne (ch : Char) (hdigit : ch.isDigit = false) (hdot : ch ≠ '.') : first ≠ ch := by
    rintro rfl
    rcases hfirst with h | ⟨rfl, -⟩
    · cases hdigit.symm.trans h
    · exact hdot rfl
  have hstart : (⟨t.toList ++ [], .start⟩ : Cursor) = .ofString t := by
    rw [List.append_nil]
    rfl
  refine ⟨ht, ?_, ?_, d.position, ?_⟩
  · rcases hfirst with h | ⟨rfl, -⟩
    · have hbounds : 48 ≤ first.toNat ∧ first.toNat ≤ 57 := Char.isDigit_iff_toNat.mp h
      exact Text.isBlank_of_bounds (by omega) (by omega)
    · decide
  · rw [hstart]
    unfold gapAt Cursor.ofString
    rw [ht]
    split
    · next heq => exact absurd (List.cons.inj heq).1 (hne _ (by decide) (by decide))
    · next heq => exact absurd (List.cons.inj heq).1 (hne _ (by decide) (by decide))
    · next heq => exact absurd (List.cons.inj heq).1 (hne _ (by decide) (by decide))
    · rfl
  · rw [hstart, ← hd]
    unfold readToken
    rw [step_ofString ht,
      if_neg (by simp [hne '\'' (by decide) (by decide), hne '"' (by decide) (by decide)]),
      if_pos (by simpa [StartsNumeral, Cursor.peek?] using hfirst), h]

def IsOneNumber (strict : Bool) (t : String) (v : Float) : Prop :=
  ∃ l eof, scan strict t = ([l, eof], none) ∧ l.token = number v ∧ l.span t = t.toList

/-- A text is one number if it is read to its end as the number behind its first character. -/
theorem scan_number_iff {strict : Bool} {t : String} : IsOneNumber strict t v ↔
    ∃ first cs, t.toList = first :: cs ∧ StartsNumeral first cs ∧
      TakesAll (readNumber strict first ⟨cs, Position.start.step first⟩) v := by
  constructor
  · rintro ⟨l, eof, hscan, hl, hspan⟩
    obtain ⟨hhere, hend⟩ := readHere_of_scan hscan hspan
    obtain ⟨first, hpeek, hfirst, hnumber⟩ := readNumber_of_readHere hhere hl
    obtain ⟨cs, ht⟩ := List.head?_eq_some_iff.mp hpeek
    rw [step_ofString ht] at hfirst hnumber
    exact ⟨first, cs, ht, hfirst, l.next, hnumber, hend⟩
  · rintro ⟨first, cs, ht, hfirst, d, hnumber, hd⟩
    exact scan_of_beginsWith (beginsWith_number ht hfirst hnumber hd) nofun

theorem starts_of_isNumericLiteral (h : IsNumericLiteral cs) : ∃ first rest, cs = first :: rest ∧
    StartsNumeral first rest := by
  cases h with
  | decimal hcs hm he =>
    exact Number.head_of_isNumeral (Number.isNumeral_iff_mantissa.mpr ⟨_, _, hcs, hm, he⟩)
  | leadingZero => exact ⟨_, _, rfl, .inl rfl⟩
  | radix => exact ⟨_, _, rfl, .inl rfl⟩

theorem isOneNumber_iff {t : String} (h : '_' ∉ t.toList) : IsOneNumber false t v ↔
    IsNumericLiteral t.toList ∧ Number.literalValue t.toList = v := by
  rw [scan_number_iff]
  constructor
  · rintro ⟨first, cs, ht, hfirst, hall⟩
    rw [ht] at h ⊢
    exact (takesAll_readNumber hfirst fun hmem => h (List.mem_cons_of_mem first hmem)).mp hall
  · intro hliteral
    obtain ⟨first, cs, ht, hfirst⟩ := starts_of_isNumericLiteral hliteral.1
    rw [ht] at h hliteral
    refine ⟨first, cs, ht, hfirst, ?_⟩
    exact (takesAll_readNumber (c := ⟨cs, _⟩) hfirst
      fun hmem => h (List.mem_cons_of_mem first hmem)).mpr hliteral

/-- A text without underscores is one numeric literal if it is a decimal numeral, digits behind a
radix prefix, or digits behind a zero that are not all octal; and then it converts to the value of
the literal, unless 32 bits count none of the digits of its mantissa. -/
theorem literal_converts {t : String} (h : '_' ∉ t.toList) :
    ((∃ v, IsOneNumber false t v) ↔ IsNumericLiteral t.toList) ∧
      ∀ v, IsOneNumber false t v → Number.ofChars t.toList =
        if Number.Uncounted t.toList then Number.nan else v := by
  refine ⟨⟨fun ⟨v, hv⟩ => ((isOneNumber_iff h).mp hv).1,
    fun hliteral => ⟨_, (isOneNumber_iff h).mpr ⟨hliteral, rfl⟩⟩⟩, fun v hv => ?_⟩
  obtain ⟨hliteral, rfl⟩ := (isOneNumber_iff h).mp hv
  exact hliteral.ofChars_eq

/-- The mark of the exponent is a capital letter, which the reader replaces. -/
theorem literal_converts_exponent :
    '_' ∉ "1.5E3".toList ∧
      ∃ v, IsOneNumber false "1.5E3" v ∧ Number.ofChars "1.5E3".toList = v := by
  have hplain : '_' ∉ "1.5E3".toList := by decide
  have hmantissa : IsMantissa (['1'] ++ '.' :: ['5']) :=
    .point (by decide) (by decide) (by decide)
  have hexponent : IsExponent ('E' :: ([] ++ ['3'])) :=
    .mk (.inr rfl) (by decide) (by decide) (by decide)
  have hliteral : IsNumericLiteral "1.5E3".toList :=
    .decimal rfl hmantissa (.inr hexponent) (by rintro ⟨c, rest, heq, -⟩; cases heq)
  obtain ⟨v, hv⟩ := (literal_converts hplain).1.mpr hliteral
  exact ⟨hplain, v, hv, ((literal_converts hplain).2 v hv).trans (if_neg (by decide +kernel))⟩

theorem isNumericLiteral_zeros (n : Nat) :
    IsNumericLiteral (.replicate (n + 1) '0' ++ ['9']) :=
  .leadingZero (Number.areDigits_zeros n (by decide))
    ⟨'9', List.mem_append_right _ List.mem_cons_self, by decide⟩

theorem literal_of_uncounted :
    '_' ∉ (String.ofList (.replicate 4294967295 '0' ++ ['9'])).toList ∧
      ∃ v, IsOneNumber false (.ofList (.replicate 4294967295 '0' ++ ['9'])) v ∧
        Number.ofChars (String.ofList (.replicate 4294967295 '0' ++ ['9'])).toList ≠ v := by
  have hdigits := Number.areDigits_zeros 4294967295 (w := ['9']) (by decide)
  have hliteral := isNumericLiteral_zeros 4294967294
  have huncounted : Number.Uncounted (.replicate 4294967295 '0' ++ ['9']) := by
    rw [Number.uncounted_digits_iff hdigits, List.length_append, List.length_replicate]
    exact ⟨List.append_ne_nil_of_right_ne_nil _ (List.cons_ne_nil _ _), by simp⟩
  have hvalue : Number.literalValue (.replicate 4294967295 '0' ++ ['9']) ≠ Number.nan := by
    rw [Number.literalValue_of_isNumeral (Number.isNumeral_digits
        (List.append_ne_nil_of_right_ne_nil _ (List.cons_ne_nil _ _)) hdigits),
      Number.decimalValue_digits hdigits, Number.naturalOfDigits_zeros]
    decide +kernel
  have hplain : '_' ∉ (String.ofList (.replicate 4294967295 '0' ++ ['9'])).toList := by
    rw [String.toList_ofList]
    exact fun hmem => Bool.false_ne_true (hdigits '_' hmem)
  refine ⟨hplain, _, (isOneNumber_iff hplain).mpr ⟨?_, rfl⟩, ?_⟩
  · rwa [String.toList_ofList]
  · rw [String.toList_ofList, hliteral.ofChars_eq, if_pos huncounted]
    exact hvalue.symm

end Token

end ProtoScript
