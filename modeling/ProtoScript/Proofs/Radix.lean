import Mathlib.Data.Nat.Digits.Defs
import ProtoScript.Proofs.Numerals.Decimal
import ProtoScript.Proofs.Words
/-!
# Numerals of whole numbers

A whole number up to `2 ^ 53` in magnitude is written in a radix as its numeral, and the numeral is
read back.  Both directions compute with numbers: remainders and the sums on the way to the value
are exact, and a quotient is cut off at the same whole number as the exact one, although it is
rounded.
-/

namespace ProtoScript.Number

variable {x ρ : Float} {r : Nat}

/-! ### Numerals -/

/-- The numeral of an integer, with a minus sign if it is negative. -/
def numeral (r : Nat) (n : ℤ) : List Char :=
  (if n < 0 then ['-'] else []) ++ ((Nat.digits r n.natAbs).map digitChar).reverse

def spelled (r : Nat) (cs : List Char) : Nat :=
  Nat.ofDigits r (cs.map fun c => (digitOrLetter? c).getD 0).reverse

theorem digitOrLetter?_digitChar : ∀ {d : Nat}, d < 36 → digitOrLetter? (digitChar d) = some d := by
  decide

theorem isDigitOf_iff {c : Char} :
    isDigitOf r c = true ↔ ∃ d < r, digitOrLetter? c = some d := by
  rw [isDigitOf, digitValue?]
  cases digitOrLetter? c with
  | none => simp
  | some d =>
    rw [Option.filter_some]
    split <;> simp_all

theorem spelled_digits (n : Nat) (hr : 2 ≤ r) (hr' : r ≤ 36) :
    spelled r ((Nat.digits r n).map digitChar).reverse = n := by
  have hdigits : ((Nat.digits r n).map digitChar).map (fun c => (digitOrLetter? c).getD 0) =
      Nat.digits r n := by
    rw [List.map_map]
    refine List.map_congr_left (g := id) (fun d hd => ?_) |>.trans (List.map_id _)
    have := Nat.digits_lt_base hr hd
    exact congrArg (Option.getD · 0) (digitOrLetter?_digitChar (by omega))
  rw [spelled, List.map_reverse, List.reverse_reverse, hdigits, Nat.ofDigits_digits]

/-! ### Writing -/

theorem wholeDigits_eq (hr : 2 ≤ r) (hr' : r ≤ 36) {fuel n : Nat} (acc : List Char) (hn : 0 < n)
    (hn' : n ≤ 9007199254740992) (hfuel : n.log2 < fuel) (hx : value? x = some (n : ℚ)) :
    wholeDigits r fuel x acc = ((Nat.digits r n).map digitChar).reverse ++ acc := by
  induction fuel generalizing n x acc with
  | zero => exact absurd hfuel (Nat.not_lt_zero _)
  | succ fuel ih =>
    have hradix : value? (ofNat r) = some (r : ℚ) := value?_ofNat (by omega)
    have hdigit : toIndex (remainder x (ofNat r)) = n % r := by
      have hremainder := value?_remainder_intCast (i := n) (j := r) hx hradix (by omega)
      have hlt := Nat.mod_lt n (show 0 < r by omega)
      rw [toIndex_eq hremainder, ← Int.ofNat_tmod, Int.cast_natCast, Nat.floor_natCast, maxIndex]
      omega
    obtain ⟨c, hc, hc0, hfloor⟩ := value?_div_natCast hx hradix hn hn' hr (by omega)
    have hnext := value?_truncate hc
    rw [wholePart_of_nonneg hc0, hfloor, Int.cast_natCast] at hnext
    have hdone : truncate (x / ofNat r) < 1 ↔ n / r = 0 := by
      rw [lt_iff_value hnext value?_one]
      exact_mod_cast Nat.lt_one_iff
    rw [wholeDigits, hdigit, Nat.digits_def' hr hn, List.map_cons, List.reverse_cons,
      List.append_assoc]
    split
    · next h =>
      rw [hdone.mp h]
      simp
    · next h =>
      have hpos : 0 < n / r := Nat.pos_of_ne_zero (mt hdone.mpr h)
      refine ih _ hpos ((Nat.div_le_self n r).trans hn') ((Nat.log2_lt hpos.ne').mpr ?_) hnext
      refine Nat.div_lt_of_lt_mul (((Nat.log2_lt hn.ne').mp hfuel).trans_le ?_)
      rw [pow_succ']
      exact Nat.mul_le_mul_right _ hr

theorem inRadix_eq (hr : 2 ≤ r) (hr' : r ≤ 36) {n : ℤ} (hn : n ≠ 0)
    (hn' : n.natAbs ≤ 9007199254740992) (hx : value? x = some (n : ℚ)) :
    inRadix x r = numeral r n := by
  have habs : value? x.abs = some (n.natAbs : ℚ) := by
    rw [value?_abs hx, ← Int.cast_abs, Int.abs_eq_natAbs, Int.cast_natCast]
  have hwhole : value? (truncate x.abs) = some (n.natAbs : ℚ) := by
    rw [value?_truncate habs, wholePart_natCast, Int.cast_natCast]
  have hfraction : value? (x.abs - truncate x.abs) = some 0 := by
    have := value?_sub habs hwhole (by simpa using isRepresentable_natCast (Nat.zero_le _))
    rwa [sub_self] at this
  have hnone : (x.abs - truncate x.abs == 0) = true := (beq_iff_value hfraction value?_zero).mpr rfl
  have hsign : x < 0 ↔ n < 0 := by
    rw [lt_iff_value hx value?_zero]
    exact Int.cast_lt_zero
  have hfuel : n.natAbs.log2 < 1024 :=
    ((Nat.log2_lt (k := 54) (by omega)).mpr (by omega)).trans (by decide)
  unfold inRadix
  dsimp only
  rw [if_pos hnone, wholeDigits_eq hr hr' [] (by omega) hn' hfuel hwhole, List.append_nil,
    List.append_nil, numeral]
  simp only [hsign]

/-! ### Reading -/

theorem spelled_eq_foldl (r : Nat) (cs : List Char) :
    spelled r cs = cs.foldl (fun n c => n * r + (digitOrLetter? c).getD 0) 0 := by
  rw [spelled, Nat.ofDigits_eq_foldr, List.foldr_reverse, List.foldl_map]
  congr
  funext n c
  simp [Nat.mul_comm, Nat.add_comm]

theorem le_foldl (hr : 0 < r) (cs : List Char) (n : Nat) :
    n ≤ cs.foldl (fun n c => n * r + (digitOrLetter? c).getD 0) n := by
  induction cs generalizing n with
  | nil => exact le_rfl
  | cons c cs ih =>
    refine le_trans ?_ (ih _)
    exact (Nat.le_mul_of_pos_right n hr).trans (Nat.le_add_right ..)

/-- No sum on the way to a value exceeds it, so none of them is rounded. -/
theorem value?_foldl (hr : 2 ≤ r) (hr' : r ≤ 36) {cs : List Char} {n : Nat}
    (hdigits : ∀ c ∈ cs, isDigitOf r c = true)
    (h : cs.foldl (fun n c => n * r + (digitOrLetter? c).getD 0) n ≤ 9007199254740992)
    (hx : value? x = some (n : ℚ)) :
    value? (cs.foldl (fun x c => x * ofNat r + ofNat ((digitValue? r c).getD 0)) x) =
      some ((cs.foldl (fun n c => n * r + (digitOrLetter? c).getD 0) n : Nat) : ℚ) := by
  induction cs generalizing n x with
  | nil => exact hx
  | cons c cs ih =>
    obtain ⟨d, hdr, hd⟩ := isDigitOf_iff.mp (hdigits c List.mem_cons_self)
    have hdigit : (digitValue? r c).getD 0 = d := by
      rw [digitValue?, hd, Option.filter_some, if_pos (by simpa)]
      rfl
    rw [List.foldl_cons, List.foldl_cons, hdigit]
    rw [List.foldl_cons, hd, Option.getD_some] at h
    have hsum : n * r + d ≤ 9007199254740992 := (le_foldl (by omega) cs _).trans h
    refine ih (fun c hc => hdigits c (List.mem_cons_of_mem _ hc)) ?_ ?_
    · rwa [hd]
    · rw [hd, Option.getD_some]
      have hrepresentable {k : Nat} (hk : k ≤ 9007199254740992) : IsRepresentable |(k : ℚ)| := by
        rw [Nat.abs_cast]
        exact isRepresentable_natCast hk
      have hproduct := value?_mul hx (value?_ofNat (n := r) (by omega))
        (by exact_mod_cast hrepresentable ((Nat.le_add_right ..).trans hsum))
      have hnext := value?_add hproduct (value?_ofNat (n := d) (by omega))
        (by exact_mod_cast hrepresentable hsum)
      rw [hnext]
      push_cast
      rfl

theorem value?_numberOfDigits (hr : 2 ≤ r) (hr' : r ≤ 36) {cs : List Char}
    (hdigits : ∀ c ∈ cs, isDigitOf r c = true) (h : spelled r cs ≤ 9007199254740992) :
    value? (numberOfDigits r cs) = some (spelled r cs : ℚ) := by
  rw [spelled_eq_foldl] at h ⊢
  exact value?_foldl hr hr' hdigits h value?_zero

theorem toInt32_natCast {n : Nat} (h : value? x = some (n : ℚ)) (hn : n < 2147483648) :
    toInt32 x = n := by
  rw [toInt32, toInt_toWord, signedValue, integerOf_intCast (n := n) h, lastInt32]
  omega

/-- A text that starts, behind blanks and a sign, with digits of a radix.  What follows is no digit,
and in radix sixteen the digits are not the zero of a prefix. -/
structure LeadingInteger (r : Nat) where
  blanks : List Char
  sign : List Char
  digits : List Char
  rest : List Char
  isBlank_of_mem : ∀ c ∈ blanks, Text.isBlank c = true
  sign_mem : sign ∈ signs
  digits_ne_nil : digits ≠ []
  isDigitOf_of_mem : ∀ c ∈ digits, isDigitOf r c = true
  stops : Stops (isDigitOf r) rest
  not_marked : r = 16 → ∀ mark ∈ ['x', 'X'], ¬ ['0', mark] <+: digits ++ rest

namespace LeadingInteger

def chars (t : LeadingInteger r) : List Char := t.blanks ++ t.sign ++ t.digits ++ t.rest

def value (t : LeadingInteger r) : ℤ :=
  if t.sign = ['-'] then -spelled r t.digits else spelled r t.digits

theorem natAbs_value (t : LeadingInteger r) : t.value.natAbs = spelled r t.digits := by
  rw [value]
  split <;> simp

end LeadingInteger

theorem hexPrefix?_eq_none {cs : List Char} (h : ∀ mark ∈ ['x', 'X'], ¬ ['0', mark] <+: cs) :
    hexPrefix? cs = none := by
  unfold hexPrefix?
  split
  · next c rest =>
    rw [if_neg]
    intro hc
    refine h c ?_ ⟨rest, rfl⟩
    simpa using hc
  · rfl

theorem splitSign_chars (t : LeadingInteger r) :
    splitSign (Text.dropBlanks t.chars) = (t.sign == ['-'], t.digits ++ t.rest) := by
  obtain ⟨blanks, sign, digits, rest, hblanks, hsign, hne, hdigits, -, -⟩ := t
  dsimp only [LeadingInteger.chars]
  obtain ⟨first, more, rfl⟩ := List.exists_cons_of_ne_nil hne
  obtain ⟨d, -, hd⟩ := isDigitOf_iff.mp (hdigits first List.mem_cons_self)
  obtain ⟨hlow, hhigh⟩ := bounds_of_digitOrLetter? hd
  have hdrop : (sign ++ (first :: more ++ rest)).dropWhile Text.isBlank =
      sign ++ (first :: more ++ rest) := by
    have hblank := Text.isBlank_of_bounds (c := first) (by omega) hhigh
    rcases mem_signs.mp hsign with rfl | rfl | rfl
    · exact List.dropWhile_cons_of_neg (by rw [hblank]; decide)
    · rfl
    · rfl
  have hplain (mark : Char) (hmark : mark.toNat < 48) : first ≠ mark := by
    rintro rfl
    omega
  rw [Text.dropBlanks, List.append_assoc, List.append_assoc, List.dropWhile_append_of_pos hblanks,
    hdrop, splitSign_append hsign]
  rintro c hc
  cases hc
  exact ⟨hplain '+' (by decide), hplain '-' (by decide)⟩

/-- Digits behind blanks and a sign, with something behind them that is no digit, are read. -/
theorem value?_parseInt (hr : 2 ≤ r) (hr' : r ≤ 36) (hρ : value? ρ = some (r : ℚ))
    (t : LeadingInteger r) (h : t.value.natAbs ≤ 9007199254740992) :
    value? (parseInt t.chars ρ) = some (t.value : ℚ) := by
  have hchosen : toInt32 ρ = r := toInt32_natCast hρ (by omega)
  have hbody : (if r = 16 then (hexPrefix? (t.digits ++ t.rest)).getD (t.digits ++ t.rest)
      else t.digits ++ t.rest) = t.digits ++ t.rest := by
    split
    · next h =>
      rw [hexPrefix?_eq_none (t.not_marked h)]
      rfl
    · rfl
  have hempty : t.digits.isEmpty = false := by simpa using t.digits_ne_nil
  rw [t.natAbs_value] at h
  have hread := value?_numberOfDigits hr hr' t.isDigitOf_of_mem h
  unfold parseInt
  rw [splitSign_chars]
  dsimp only
  rw [hchosen, if_neg (show ¬ (r : ℤ) = 0 by omega), if_neg (by omega), Int.toNat_natCast, hbody,
    takeWhile_append_stop t.isDigitOf_of_mem t.stops, hempty, if_neg Bool.false_ne_true, signed,
    LeadingInteger.value]
  by_cases hminus : t.sign = ['-']
  · rw [if_pos (by simpa using hminus), if_pos hminus, value?_neg hread]
    push_cast
    rfl
  · rw [if_neg (by simpa using hminus), if_neg hminus, hread]
    rfl

/-- The digits of a numeral are digits of its radix, and none of them is the letter of a prefix. -/
theorem isDigitOf_of_mem_digits (hr : 2 ≤ r) (hr' : r ≤ 36) {n : Nat} {c : Char}
    (h : c ∈ ((Nat.digits r n).map digitChar).reverse) : isDigitOf r c = true := by
  obtain ⟨d, hd, rfl⟩ := List.mem_map.mp (List.mem_reverse.mp h)
  have hlt := Nat.digits_lt_base hr hd
  exact isDigitOf_iff.mpr ⟨d, hlt, digitOrLetter?_digitChar (by omega)⟩

def LeadingInteger.ofNumeral (hr : 2 ≤ r) (hr' : r ≤ 36) {n : ℤ} (hn : n ≠ 0) :
    LeadingInteger r where
  blanks := []
  sign := if n < 0 then ['-'] else []
  digits := ((Nat.digits r n.natAbs).map digitChar).reverse
  rest := []
  isBlank_of_mem := by simp
  sign_mem := by split <;> decide
  digits_ne_nil := by simpa [Nat.digits_eq_nil_iff_eq_zero] using hn
  isDigitOf_of_mem _ := isDigitOf_of_mem_digits hr hr'
  stops := stops_nil
  not_marked := by
    rintro rfl mark hmark hpre
    rw [List.append_nil] at hpre
    have hdigit := isDigitOf_of_mem_digits hr hr' (hpre.subset (show mark ∈ ['0', mark] by simp))
    have hnone : ['x', 'X'].all (fun c => !isDigitOf 16 c) = true := by decide
    simpa [hdigit] using List.all_eq_true.mp hnone mark hmark

theorem LeadingInteger.value_ofNumeral (hr : 2 ≤ r) (hr' : r ≤ 36) {n : ℤ} (hn : n ≠ 0) :
    (ofNumeral hr hr' hn).value = n := by
  have hspelled := spelled_digits n.natAbs hr hr'
  change (if (if n < 0 then ['-'] else []) = ['-'] then
    -(spelled r ((Nat.digits r n.natAbs).map digitChar).reverse : ℤ) else
      spelled r ((Nat.digits r n.natAbs).map digitChar).reverse) = n
  rw [hspelled]
  rcases lt_or_ge n 0 with hneg | hnonneg
  · rw [if_pos hneg, if_pos rfl]
    omega
  · rw [if_neg (by omega : ¬ n < 0), if_neg (by decide)]
    omega

theorem parseInt_numeral (hr : 2 ≤ r) (hr' : r ≤ 36) (hρ : value? ρ = some (r : ℚ)) {n : ℤ}
    (hn : n ≠ 0) (hn' : n.natAbs ≤ 9007199254740992) (hx : value? x = some (n : ℚ)) :
    parseInt (numeral r n) ρ = x := by
  have hvalue := LeadingInteger.value_ofNumeral hr hr' hn
  have hread := value?_parseInt hr hr' hρ (.ofNumeral hr hr' hn) (by rwa [hvalue])
  have hchars : (LeadingInteger.ofNumeral hr hr' hn).chars = numeral r n := List.append_nil _
  rw [hvalue, hchars] at hread
  exact eq_of_value? hread hx (by exact_mod_cast hn)

/-- Whole numbers are written as their numerals and read back, and a whole number at the start of a
text is read exactly. -/
theorem numerals_round_trip (hr : 2 ≤ r) (hr' : r ≤ 36) (hρ : value? ρ = some (r : ℚ)) :
    (∀ (n : ℤ) (x : Float), n ≠ 0 → n.natAbs ≤ 9007199254740992 → value? x = some (n : ℚ) →
      inRadix x r = numeral r n ∧ parseInt (inRadix x r) ρ = x) ∧
    ∀ t : LeadingInteger r, t.value.natAbs ≤ 9007199254740992 →
      value? (parseInt t.chars ρ) = some (t.value : ℚ) := by
  refine ⟨fun n x hn hn' hx => ?_, value?_parseInt hr hr' hρ⟩
  have hwritten := inRadix_eq hr hr' hn hn' hx
  refine ⟨hwritten, ?_⟩
  rw [hwritten]
  exact parseInt_numeral hr hr' hρ hn hn' hx

/-- The number -255 in radix sixteen, and a text with more than a numeral in it. -/
theorem numerals_round_trip_hexadecimal :
    (inRadix (ofInt (-255)) 16 = ['-', 'f', 'f'] ∧
      parseInt (inRadix (ofInt (-255)) 16) (ofNat 16) = ofInt (-255)) ∧
    value? (parseInt [' ', '+', '0', 'f', 'F', 'g'] (ofNat 16)) = some 255 := by
  have h := numerals_round_trip (r := 16) (by decide) (by decide)
    (value?_ofNat (n := 16) (by decide))
  refine ⟨h.1 (-255) (ofInt (-255)) (by decide) (by decide) (value?_ofInt (by decide)), ?_⟩
  exact h.2 ⟨[' '], ['+'], ['0', 'f', 'F'], ['g'], List.all_eq_true.mp (by decide), by decide,
    by decide, List.all_eq_true.mp (by decide), fun c hc => by cases hc; decide, by simp⟩
    (by decide)

end ProtoScript.Number
