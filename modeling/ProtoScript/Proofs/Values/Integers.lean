import Mathlib.Tactic.LinearCombination
import ProtoScript.Proofs.Values.Arithmetic
/-!
# Integers among the values

Truncation, remainders and the conversions from and to integers, in terms of exact values.  None of
them rounds: what they give is a value that a number can have.
-/

namespace ProtoScript.Number

open Float.Model Float.Model.UnpackedFloat

variable {x y : Float} {a b : ℚ}

/-! ### Whole parts -/

def wholePart (a : ℚ) : ℤ := if 0 ≤ a then ⌊a⌋ else ⌈a⌉

theorem wholePart_of_nonneg (h : 0 ≤ a) : wholePart a = ⌊a⌋₊ := by
  rw [wholePart, if_pos h]
  exact (Int.natCast_floor_eq_floor h).symm

theorem wholePart_neg (a : ℚ) : wholePart (-a) = -wholePart a := by
  rcases lt_trichotomy a 0 with h | rfl | h
  · rw [wholePart, wholePart, if_pos (by linarith), if_neg (by linarith), Int.floor_neg]
  · simp [wholePart]
  · rw [wholePart, wholePart, if_neg (by linarith), if_pos h.le, Int.ceil_neg]

theorem wholePart_intCast (n : ℤ) : wholePart n = n := by
  rw [wholePart]
  split
  · exact Int.floor_intCast n
  · exact Int.ceil_intCast n

theorem wholePart_natCast (n : Nat) : wholePart n = n := wholePart_intCast n

theorem wholePart_div_intCast (i j : ℤ) : wholePart ((i : ℚ) / j) = i.tdiv j := by
  have hnat (m n : Nat) : wholePart ((m : ℚ) / n) = (m : ℤ).tdiv n := by
    rw [wholePart_of_nonneg (by positivity), Nat.floor_div_eq_div, Int.ofNat_tdiv]
  obtain ⟨m, rfl | rfl⟩ := i.eq_nat_or_neg <;> obtain ⟨n, rfl | rfl⟩ := j.eq_nat_or_neg
  · exact hnat m n
  · rw [Int.cast_neg, div_neg, wholePart_neg, Int.tdiv_neg]
    exact congrArg _ (hnat m n)
  · rw [Int.cast_neg, neg_div, wholePart_neg, Int.neg_tdiv]
    exact congrArg _ (hnat m n)
  · rw [Int.cast_neg, Int.cast_neg, neg_div_neg_eq, Int.neg_tdiv, Int.tdiv_neg, neg_neg]
    exact hnat m n

/-! ### Exact readings -/

theorem exists_finite (h : value? x = some a) : ∃ (negative : Bool) (m : Nat) (e : Int),
    Binary64.ofFloat x = .finite negative m e ∧ m < 9007199254740992 ∧ -1074 ≤ e ∧ e ≤ 971 ∧
      a = (if negative then -1 else 1) * (m * 2 ^ e) := by
  have hvalue := h
  rw [value?, (unpack_spec x).1] at hvalue
  rw [(unpack_spec x).1]
  cases hasParts h with
  | zero hu =>
    rw [hu] at hvalue ⊢
    exact ⟨_, 0, -1074, rfl, by decide, by decide, by decide,
      (Option.some.inj hvalue).symm.trans (mul_assoc ..)⟩
  | finite hu hcanonical =>
    rw [hu] at hvalue ⊢
    obtain ⟨hm, he⟩ := hcanonical
    exact ⟨_, _, _, rfl, hm, by omega, by omega,
      (Option.some.inj hvalue).symm.trans (mul_assoc ..)⟩

theorem floorMagnitude_eq_floor (m : Nat) (e : Int) :
    Binary64.floorMagnitude m e = ⌊(m : ℚ) * 2 ^ e⌋₊ := by
  rw [Binary64.floorMagnitude]
  split
  · next h =>
    obtain ⟨n, rfl⟩ := Int.eq_ofNat_of_zero_le h
    rw [zpow_natCast]
    exact (Nat.floor_natCast (R := ℚ) (m * 2 ^ n)).symm.trans (by push_cast; rfl)
  · next h =>
    obtain ⟨n, rfl⟩ : ∃ n : Nat, e = -n := ⟨(-e).toNat, by omega⟩
    rw [zpow_neg, zpow_natCast, ← div_eq_mul_inv, neg_neg, Int.toNat_natCast]
    exact (Nat.floor_div_eq_div (K := ℚ) m (2 ^ n)).symm.trans (by push_cast; rfl)

theorem value?_ofExact (negative : Bool) {m : Nat} {e : Int} (hm : m < 9007199254740992)
    (he : -1074 ≤ e) (he' : e ≤ 971) : value? (Binary64.pack negative m e) =
      some ((if negative then -1 else 1) * ((m : ℚ) * 2 ^ e)) := by
  rw [value?]
  rcases eq_or_ne m 0 with rfl | hzero
  · rw [Binary64.ofFloat_pack_zero, Binary64.value?]
    simp
  · rw [Binary64.ofFloat_pack negative hzero hm he he', Binary64.value?, mul_assoc]
    rw [Nat.pow_eq, mul_pow_mul_zpow_sub]

/-! ### Truncation -/

theorem wholePart_signed (negative : Bool) (h : 0 ≤ a) :
    wholePart ((if negative then -1 else 1) * a) = (if negative then -1 else 1) * ⌊a⌋₊ := by
  cases negative
  · simp [wholePart_of_nonneg h]
  · simp [wholePart_neg, wholePart_of_nonneg h]

theorem value?_truncate (h : value? x = some a) : value? (truncate x) = some (wholePart a : ℚ) := by
  obtain ⟨negative, m, e, hx, hm, -, -, ha⟩ := exists_finite h
  rw [truncate, hx]
  dsimp only
  split
  · next he =>
    obtain ⟨n, rfl⟩ := Int.eq_ofNat_of_zero_le he
    have hinteger : a = ((if negative then -1 else 1) * (m * 2 ^ n) : ℤ) := by
      rw [ha]
      push_cast
      rfl
    rw [h, hinteger, wholePart_intCast]
  · next he =>
    have hfloor : Binary64.floorMagnitude m e ≤ m := by
      rw [Binary64.floorMagnitude, if_neg he]
      exact Nat.div_le_self ..
    rw [value?_ofExact negative (by omega) (by decide) (by decide), ha,
      wholePart_signed negative (by positivity), floorMagnitude_eq_floor, zpow_zero, mul_one]
    push_cast
    rfl

/-! ### Remainders -/

/-- The remainder of whole numbers of one unit, by the whole part of their quotient. -/
theorem mod_mul_eq_sub (m n : Nat) {u : ℚ} (hu : u ≠ 0) :
    ((m % n : Nat) : ℚ) * u = m * u - n * u * wholePart (m * u / (n * u)) := by
  have hwhole : wholePart (m * u / (n * u)) = (m / n : Nat) := by
    rw [mul_div_mul_right _ _ hu, wholePart_of_nonneg (by positivity), Nat.floor_div_eq_div]
  have hdivision : (n : ℚ) * (m / n : Nat) + (m % n : Nat) = m := by
    exact_mod_cast Nat.div_add_mod m n
  rw [hwhole, Int.cast_natCast]
  linear_combination u * hdivision

theorem value?_remainder (hx : value? x = some a) (hy : value? y = some b) (h : b ≠ 0) :
    value? (remainder x y) = some (a - b * wholePart (a / b)) := by
  obtain ⟨s, m, p, hxe, hm, hp, hp', ha⟩ := exists_finite hx
  obtain ⟨t, n, q, hye, hn, hq, hq', hb⟩ := exists_finite hy
  have hn0 : n ≠ 0 := by
    rintro rfl
    rw [Nat.cast_zero, zero_mul, mul_zero] at hb
    exact h hb
  rw [remainder, hxe, hye]
  dsimp only
  rw [if_neg hn0]
  generalize hl : min p q = least
  have hlt : m * 2 ^ (p - least).toNat % (n * 2 ^ (q - least).toNat) < 9007199254740992 := by
    rcases min_choice p q with hc | hc
    · rw [show (p - least).toNat = 0 by omega, pow_zero, mul_one]
      exact (Nat.mod_le ..).trans_lt hm
    · rw [show (q - least).toNat = 0 by omega, pow_zero, mul_one]
      exact (Nat.mod_lt _ (Nat.pos_of_ne_zero hn0)).trans hn
  rw [mul_zpow_of_le m (show least ≤ p by omega)] at ha
  rw [mul_zpow_of_le n (show least ≤ q by omega)] at hb
  rw [Nat.pow_eq, Nat.pow_eq, value?_ofExact s hlt (by omega) (by omega), ha, hb,
    mod_mul_eq_sub _ _ (by positivity)]
  congr 1
  cases s <;> cases t <;>
    simp only [Bool.false_eq_true, if_false, if_true, one_mul, neg_one_mul, neg_div, div_neg,
      neg_neg, wholePart_neg, Int.cast_neg] <;>
    ring

theorem value?_remainder_intCast {i j : ℤ} (hx : value? x = some (i : ℚ))
    (hy : value? y = some (j : ℚ)) (h : j ≠ 0) :
    value? (remainder x y) = some (i.tmod j : ℚ) := by
  rw [value?_remainder hx hy (by exact_mod_cast h), wholePart_div_intCast, Int.tmod_def]
  push_cast
  rfl

/-! ### Indices and words -/

theorem toIndex_eq (h : value? x = some a) : toIndex x = min ⌊a⌋₊ maxIndex := by
  obtain ⟨s, m, p, hx, -, -, -, ha⟩ := exists_finite h
  rw [toIndex, hx]
  cases s
  · dsimp only
    rw [floorMagnitude_eq_floor, ha, if_neg Bool.false_ne_true, one_mul]
  · have hneg : a ≤ 0 := by
      rw [ha, if_pos rfl, neg_one_mul]
      exact neg_nonpos.mpr (by positivity)
    rw [Nat.floor_of_nonpos hneg]
    rfl

theorem roundToInt_eq (s : Sign) (m : Nat) (e : Int) :
    roundToInt s m e = s.apply ⌊(m : ℚ) * 2 ^ e⌋₊ := by
  have hvalue := decreaseExponent_value m e 0
  have hplace : (decreaseExponent m e 0).2 ≤ 0 := by
    unfold decreaseExponent
    dsimp only
    omega
  unfold roundToInt
  generalize decreaseExponent m e 0 = parts at *
  obtain ⟨m', e'⟩ := parts
  dsimp only at hvalue hplace ⊢
  obtain ⟨k, rfl⟩ : ∃ k : Nat, e' = -k := ⟨(-e').toNat, by omega⟩
  have hfloor := ((locates_exact m').shiftRight k).floor
  rw [← hvalue, zpow_neg, zpow_natCast, ← div_eq_mul_inv, hfloor, shiftToExponent, zero_sub,
    neg_neg, Int.toNat_natCast]

theorem toNat_toUInt32 (h : value? x = some a) (hlow : 0 ≤ a) (hhigh : a < 4294967296) :
    x.toUInt32.toNat = ⌊a⌋₊ := by
  have hfloor : ⌊a⌋₊ < 4294967296 := (Nat.floor_lt hlow).mpr (by exact_mod_cast hhigh)
  change (UInt32.ofNatClamp (x.toModel.unpack.toInt 0 (UInt32.size - 1)).toNat).toNat = _
  have hwhole : x.toModel.unpack.toInt 0 (UInt32.size - 1) = ⌊a⌋₊ := by
    cases hasParts h with
    | zero hu ha =>
      rw [hu, ha, Nat.floor_zero]
      rfl
    | @finite s m e hpos hu _ ha =>
      rw [hu]
      refine (roundToInt_eq s m e).trans ?_
      cases s
      · rw [Sign.apply] at ha
        have : (0 : ℚ) < m * 2 ^ e := by positivity
        push_cast at ha
        linarith
      · rw [ha]
        rfl
  rw [hwhole, Int.toNat_natCast, UInt32.ofNatClamp, dif_pos hfloor, UInt32.toNat_ofNatLT]

/-! ### Numbers of integers -/

theorem value?_ofInt {n : ℤ} (h : n.natAbs < 9007199254740992) :
    value? (ofInt n) = some (n : ℚ) := by
  rw [ofInt, scaled, value?_ofExact _ h (by decide) (by decide), Int.ofNat_zero, zpow_zero, mul_one]
  rcases lt_or_ge n 0 with hn | hn
  · rw [if_pos (decide_eq_true hn), neg_one_mul, Nat.cast_natAbs, abs_of_neg hn, Int.cast_neg,
      neg_neg]
  · rw [if_neg (by simpa using hn), one_mul, Nat.cast_natAbs, abs_of_nonneg hn]

theorem value?_zero : value? 0 = some 0 := by
  have hread : Binary64.ofFloat 0 = .finite false 0 Binary64.minExponent := by decide +kernel
  rw [value?, hread, Binary64.value?]
  norm_num

theorem value?_one : value? 1 = some 1 := by
  have hread : Binary64.ofFloat 1 = .finite false 4503599627370496 (-52) := by decide +kernel
  rw [value?, hread, Binary64.value?]
  norm_num

theorem value?_ofNat {n : Nat} (h : n < 9007199254740992) : value? (ofNat n) = some (n : ℚ) := by
  rw [ofNat, if_pos h]
  exact value?_ofInt (by simpa using h)

theorem value?_toFloat {n : Nat} (h : n < 9007199254740992) :
    value? n.toUInt64.toFloat = some (n : ℚ) := by
  have hword : n.toUInt64.toNat = n :=
    UInt64.toNat_ofNat'.trans (Nat.mod_eq_of_lt (h.trans (by decide)))
  have hround := normalize_exact (n := n) (e := 0) (s := .positive)
    (by simpa using isRepresentable_natCast h.le)
  change value? (Float.ofModel (Float.Model.pack
    (UnpackedFloat.normalize Format.binary64 n.toUInt64.toNat 0 .positive))) = _
  rw [hword, hround.value?, zpow_zero, mul_one, Int.cast_natCast]

/-- A long natural number is multiplied by the zeroth power of ten. -/
theorem ofScientific_zero {n : Nat} (hn : 0 < n) (h : IsRepresentable n) :
    HasValue (UnpackedFloat.ofScientific Format.binary64 n 0) n := by
  have hvalue : ((n <<< 53 * 1 : Nat) : ℚ) * 2 ^ (-53 + 0 : Int) = n := by
    rw [mul_one, Nat.shiftLeft_eq, add_zero, zpow_neg, Nat.cast_mul, Nat.cast_pow]
    exact mul_inv_cancel_right₀ (by positivity) _
  have hround := roundWithAccuracy_exact (s := .positive) (m := n <<< 53 * 1) (e := -53 + 0)
    (by rw [mul_one, Nat.shiftLeft_eq]; positivity)
    (by
      rw [targetExponent, mul_one, log2_shiftLeft hn]
      omega)
    (by rwa [hvalue])
  rw [Sign.apply, Int.cast_natCast, hvalue] at hround
  unfold UnpackedFloat.ofScientific
  rw [dif_neg hn.ne', if_neg (by decide), if_neg (not_lt.mpr (neg_nonpos.mpr (by positivity))),
    if_pos le_rfl]
  exact hround

theorem value?_float_ofInt {n : ℤ} (h : IsRepresentable n.natAbs) :
    value? (Float.ofInt n) = some (n : ℚ) := by
  have hnat : value? (Float.ofNat n.natAbs) = some (n.natAbs : ℚ) := by
    change value? (Float.ofScientific n.natAbs false 0) = _
    rw [Float.ofScientific]
    split
    · next hsmall =>
      have hone : value? Float.exactlyRepresentablePowersOfTen[0] = some 1 := by
        have hread : Binary64.ofFloat Float.exactlyRepresentablePowersOfTen[0] =
            .finite false 4503599627370496 (-52) := by decide +kernel
        rw [value?, hread, Binary64.value?]
        norm_num
      have hproduct := value?_mul (value?_toFloat hsmall.1) hone (by rwa [mul_one, Nat.abs_cast])
      rw [mul_one] at hproduct
      exact hproduct
    · next hlarge =>
      exact (ofScientific_zero (by omega) h).value?
  rcases n with k | k
  · exact hnat
  · exact value?_neg hnat

end ProtoScript.Number
