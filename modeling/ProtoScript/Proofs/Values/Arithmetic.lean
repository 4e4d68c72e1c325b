import Mathlib.Algebra.Order.Floor.Semifield
import ProtoScript.Proofs.Values.Rounding
/-!
# Arithmetic on exact values

Where the exact result of an operation is a value that a number can have, the operation gives it.
A quotient of small integers is rounded, but never up to the next integer.
-/

namespace ProtoScript.Number

open Float.Model Float.Model.UnpackedFloat

variable {x y : Float} {a b : ℚ}

/-! ### Sums and differences -/

theorem decreaseExponent_apply (s : Sign) (m : Nat) {e t : Int} (h : t ≤ e) :
    (s.apply (decreaseExponent m e t).1 : ℚ) * 2 ^ t = s.apply m * 2 ^ e := by
  have hvalue := decreaseExponent_value m e t
  rw [show (decreaseExponent m e t).2 = t by unfold decreaseExponent; dsimp only; omega] at hvalue
  cases s
  · simp only [Sign.apply, Int.cast_neg, Int.cast_natCast, neg_mul, hvalue]
  · simp only [Sign.apply, Int.cast_natCast, hvalue]

theorem value?_add (hx : value? x = some a) (hy : value? y = some b)
    (h : IsRepresentable |a + b|) : value? (x + y) = some (a + b) := by
  change Number.value? (Float.ofModel (Float.Model.pack
    (UnpackedFloat.add Format.binary64 x.toModel.unpack y.toModel.unpack))) = _
  cases hasParts hx with
  | @zero s hu ha =>
    cases hasParts hy with
    | @zero t hv hb =>
      rw [hu, hv, ha, hb, add_zero]
      cases s <;> cases t <;> exact HasValue.value? ⟨trivial, rfl⟩
    | finite hv hcanonical hb =>
      rw [hu, hv, ha, hb, zero_add]
      exact HasValue.value? ⟨hcanonical, rfl⟩
  | @finite s m p hm hu hcanonical ha =>
    cases hasParts hy with
    | zero hv hb =>
      rw [hu, hv, ha, hb, add_zero]
      exact HasValue.value? ⟨hcanonical, rfl⟩
    | @finite t n q hn hv _ hb =>
      have hsum : ((s.apply (decreaseExponent m p (min p q)).1 +
          t.apply (decreaseExponent n q (min p q)).1 : Int) : ℚ) * 2 ^ min p q = a + b := by
        rw [Int.cast_add, add_mul, decreaseExponent_apply s m (min_le_left p q),
          decreaseExponent_apply t n (min_le_right p q), ha, hb]
      rw [← hsum] at h ⊢
      rw [hu, hv]
      exact (normalize_exact h).value?

theorem value?_sub (hx : value? x = some a) (hy : value? y = some b)
    (h : IsRepresentable |a - b|) : value? (x - y) = some (a - b) := by
  change Number.value? (Float.ofModel (Float.Model.pack
    (UnpackedFloat.sub Format.binary64 x.toModel.unpack y.toModel.unpack))) = _
  cases hasParts hx with
  | @zero s hu ha =>
    cases hasParts hy with
    | @zero t hv hb =>
      rw [hu, hv, ha, hb, sub_zero]
      cases s <;> cases t <;> exact HasValue.value? ⟨trivial, rfl⟩
    | @finite t n q hn hv hcanonical hb =>
      rw [hu, hv, ha, hb, zero_sub]
      refine HasValue.value? (u := .finite (-t) n q hn) ⟨hcanonical, congrArg some ?_⟩
      rw [apply_neg]
      push_cast
      rw [neg_mul]
  | @finite s m p hm hu hcanonical ha =>
    cases hasParts hy with
    | zero hv hb =>
      rw [hu, hv, ha, hb, sub_zero]
      exact HasValue.value? ⟨hcanonical, rfl⟩
    | @finite t n q hn hv _ hb =>
      have hdifference : ((s.apply (decreaseExponent m p (min p q)).1 -
          t.apply (decreaseExponent n q (min p q)).1 : Int) : ℚ) * 2 ^ min p q = a - b := by
        rw [Int.cast_sub, sub_mul, decreaseExponent_apply s m (min_le_left p q),
          decreaseExponent_apply t n (min_le_right p q), ha, hb]
      rw [← hdifference] at h ⊢
      rw [hu, hv]
      exact (normalize_exact h).value?

/-! ### Products -/

theorem apply_mul (s t : Sign) (m n : Nat) :
    ((s * t).apply (m * n : Nat) : ℚ) = s.apply m * t.apply n := by
  cases s <;> cases t
  · change (((m * n : Nat) : Int) : ℚ) = (-(m : Int) : Int) * (-(n : Int) : Int)
    push_cast
    ring
  · change ((-((m * n : Nat) : Int) : Int) : ℚ) = (-(m : Int) : Int) * (n : Int)
    push_cast
    ring
  · change ((-((m * n : Nat) : Int) : Int) : ℚ) = (m : Int) * (-(n : Int) : Int)
    push_cast
    ring
  · change (((m * n : Nat) : Int) : ℚ) = (m : Int) * (n : Int)
    push_cast
    ring

/-- The product of two mantissas is not too short for its exponent. -/
theorem le_targetExponent_mul {s t : Sign} {m n : Nat} {p q : Int} {hm : 0 < m} {hn : 0 < n}
    (hx : IsCanonical (.finite s m p hm)) (hy : IsCanonical (.finite t n q hn)) :
    p + q ≤ targetExponent (m * n) (p + q) := by
  obtain ⟨-, hp⟩ := hx
  obtain ⟨-, hq⟩ := hy
  rw [targetExponent]
  by_cases hfull : 4503599627370496 ≤ m * n
  · have := (Nat.le_log2 (Nat.mul_pos hm hn).ne').mpr (show 2 ^ 52 ≤ m * n from hfull)
    omega
  · have hm' : m ≤ m * n := Nat.le_mul_of_pos_right m hn
    have hn' : n ≤ m * n := Nat.le_mul_of_pos_left n hm
    omega

theorem value?_mul (hx : value? x = some a) (hy : value? y = some b)
    (h : IsRepresentable |a * b|) : value? (x * y) = some (a * b) := by
  change Number.value? (Float.ofModel (Float.Model.pack
    (UnpackedFloat.mul Format.binary64 x.toModel.unpack y.toModel.unpack))) = _
  cases hasParts hx with
  | @zero s hu ha =>
    rw [ha, zero_mul]
    cases hasParts hy with
    | @zero t hv _ =>
      rw [hu, hv]
      exact HasValue.value? (u := .zero (s * t)) ⟨trivial, rfl⟩
    | @finite t _ _ _ hv _ _ =>
      rw [hu, hv]
      exact HasValue.value? (u := .zero (s * t)) ⟨trivial, rfl⟩
  | @finite s m p hm hu hcx ha =>
    cases hasParts hy with
    | @zero t hv hb =>
      rw [hu, hv, hb, mul_zero]
      exact HasValue.value? (u := .zero (s * t)) ⟨trivial, rfl⟩
    | @finite t n q hn hv hcy hb =>
      have hproduct : ((s * t).apply (m * n : Nat) : ℚ) * 2 ^ (p + q) = a * b := by
        rw [apply_mul, zpow_add₀ two_ne_zero, ha, hb]
        ring
      have hmagnitude : |a * b| = (m * n : Nat) * 2 ^ (p + q) := by
        have hpos : (0 : ℚ) ≤ (m * n : Nat) * 2 ^ (p + q) := by positivity
        rw [← hproduct]
        cases s * t <;> simp only [Sign.apply, Int.cast_neg, Int.cast_natCast, neg_mul, abs_neg,
          abs_of_nonneg hpos]
      rw [hmagnitude] at h
      rw [hu, hv, ← hproduct]
      exact (roundWithAccuracy_exact (Nat.mul_pos hm hn) (le_targetExponent_mul hcx hcy) h).value?

/-! ### Quotients -/

/-- The parts of a number from one to `2 ^ 53`: the mantissa has its full length. -/
theorem parts_of_one_le (hx : value? x = some a) (hlow : 1 ≤ a) (hhigh : a ≤ 9007199254740992) :
    ∃ (m : Nat) (e : Int) (hpos : 0 < m), x.toModel.unpack = .finite .positive m e hpos ∧
      4503599627370496 ≤ m ∧ m < 9007199254740992 ∧ -52 ≤ e ∧ e ≤ 1 ∧ a = m * 2 ^ e := by
  cases hasParts hx with
  | zero _ ha => linarith
  | @finite s m e hpos hu hcanonical ha =>
    obtain ⟨hm, he⟩ := hcanonical
    cases s
    · have : (0 : ℚ) < m * 2 ^ e := by positivity
      simp only [Sign.apply, Int.cast_neg, Int.cast_natCast, neg_mul] at ha
      linarith
    simp only [Sign.apply, Int.cast_natCast] at ha
    have hmcast : (m : ℚ) < 2 ^ (53 : Int) := by
      norm_num
      exact_mod_cast hm
    have habove : (2 : ℚ) ^ (0 : Int) < 2 ^ (53 + e) := by
      rw [zpow_add₀ two_ne_zero, zpow_zero]
      exact hlow.trans_lt (ha ▸ mul_lt_mul_of_pos_right hmcast (by positivity))
    have hleast := (zpow_lt_zpow_iff_right₀ (one_lt_two (α := ℚ))).mp habove
    have hfull : 4503599627370496 ≤ m := by omega
    have hfullcast : (2 : ℚ) ^ (52 : Int) ≤ m := by
      norm_num
      exact_mod_cast hfull
    have hbelow : (2 : ℚ) ^ (52 + e) ≤ 2 ^ (53 : Int) := by
      rw [zpow_add₀ two_ne_zero]
      refine (mul_le_mul_of_nonneg_right hfullcast (by positivity)).trans ?_
      rw [← ha]
      norm_num
      exact hhigh
    have hgreatest := (zpow_le_zpow_iff_right₀ (one_lt_two (α := ℚ))).mp hbelow
    exact ⟨m, e, hpos, hu, hfull, hm, by omega, by omega, ha⟩

/-- The exact quotient of full mantissas, with one or two bits more than a mantissa has. -/
theorem divCore_full {m n : Nat} {p q : Int} (hm : m.log2 = 52) (hn : n.log2 = 52)
    (hp : -1000 ≤ p - q) : divCore Format.binary64 m p n q =
      (m * 9007199254740992 / n, p - q - 53, accuracyOfFraction (m * 9007199254740992 % n) n) := by
  have htarget : min (p - q) (Format.binary64.targetExponent
      (totalExponent m p - totalExponent n q)) = p - q - 53 := by
    change min (p - q) (max ((m.log2 : Int) + 1 + p - ((n.log2 : Int) + 1 + q) - 53) (-1074)) = _
    omega
  unfold divCore
  rw [htarget]
  dsimp only
  rw [show (p - q - (p - q - 53)).toNat = 53 by omega, Nat.shiftLeft_eq]

/-- The rounded quotient is a whole number of units, one of the two next to the exact one. -/
theorem value?_div (hx : value? x = some a) (hy : value? y = some b) (ha : 1 ≤ a)
    (ha' : a ≤ 9007199254740992) (hb : 1 ≤ b) (hb' : b ≤ 9007199254740992) :
    ∃ (M : Nat) (t : Int), value? (x / y) = some ((M : ℚ) * 2 ^ t) ∧
      4503599627370496 ≤ a / b / 2 ^ t ∧ (M = ⌊a / b / 2 ^ t⌋₊ ∨
        M = ⌊a / b / 2 ^ t⌋₊ + 1 ∧ (⌊a / b / 2 ^ t⌋₊ : ℚ) + 1 / 2 ≤ a / b / 2 ^ t) := by
  obtain ⟨m, p, hm, hu, hmlow, hmhigh, hp, hp', rfl⟩ := parts_of_one_le hx ha ha'
  obtain ⟨n, q, hn, hv, hnlow, hnhigh, hq, hq', rfl⟩ := parts_of_one_le hy hb hb'
  have hdiv : x / y = Float.ofModel (Float.Model.pack
      (UnpackedFloat.div Format.binary64 x.toModel.unpack y.toModel.unpack)) := rfl
  have hcore := divCore_full (p := p) (q := q) ((Nat.log2_eq_iff hm.ne').mpr ⟨hmlow, hmhigh⟩)
    ((Nat.log2_eq_iff hn.ne').mpr ⟨hnlow, hnhigh⟩) (by omega)
  rw [hdiv, hu, hv]
  unfold UnpackedFloat.div
  dsimp only
  rw [hcore]
  dsimp only
  have hn' : (n : ℚ) ≠ 0 := by exact_mod_cast hn.ne'
  have hexact : ((m * 9007199254740992 / n : Nat) : ℚ) + (m * 9007199254740992 % n : Nat) / n =
      m * 9007199254740992 / n := by
    field_simp
    exact_mod_cast Nat.div_add_mod' (m * 9007199254740992) n
  have hquotient : (m : ℚ) * 2 ^ p / (n * 2 ^ q) =
      m * 9007199254740992 / n * 2 ^ (p - q - 53) := by
    rw [show (9007199254740992 : ℚ) = 2 ^ (53 : Int) by norm_num, sub_sub, zpow_sub₀ two_ne_zero,
      zpow_add₀ two_ne_zero]
    field_simp
  have hlow : 4503599627370496 ≤ m * 9007199254740992 / n :=
    (Nat.le_div_iff_mul_le hn).mpr (by omega)
  have hhigh : m * 9007199254740992 / n < 18014398509481984 :=
    (Nat.div_lt_iff_lt_mul hn).mpr (by omega)
  have hlog : (m * 9007199254740992 / n).log2 < 54 := (Nat.log2_lt (by omega)).mpr hhigh
  have hlocates := locates_fraction (m * 9007199254740992 / n)
    (Nat.mod_lt (m * 9007199254740992) hn)
  rw [hexact] at hlocates
  rw [hquotient]
  obtain ⟨M, t, hvalue, hround⟩ := roundWithAccuracy_full (s := .positive) (e := p - q - 53) hlow
    (by omega) (by omega) hlocates
  exact ⟨M, t, hvalue.value?, hround⟩

theorem floor_quotient {n r P M : Nat} (hn : n ≤ 9007199254740992) (hr : 0 < r)
    (hfull : 4503599627370496 * r ≤ n * P)
    (hM : M = n * P / r ∨ M = n * P / r + 1 ∧ r ≤ 2 * (n * P % r)) : M / P = n / r := by
  have hdivision := Nat.div_add_mod (n * P) r
  have hmod := Nat.mod_lt (n * P) hr
  have hP : 0 < P := by
    rcases Nat.eq_zero_or_pos P with rfl | h
    · omega
    · exact h
  refine Nat.div_eq_of_lt_le ?_ ?_
  · have hlow : n / r * P ≤ n * P / r := by
      rw [Nat.le_div_iff_mul_le hr, Nat.mul_right_comm]
      exact Nat.mul_le_mul_right P (Nat.div_mul_le_self n r)
    omega
  have hnext : n * P < (n / r + 1) * P * r := by
    rw [Nat.mul_right_comm]
    exact Nat.mul_lt_mul_of_pos_right (Nat.lt_mul_of_div_lt (Nat.lt_succ_self _) hr) hP
  have hhigh : n * P / r < (n / r + 1) * P := (Nat.div_lt_iff_lt_mul hr).mpr hnext
  rcases hM with rfl | ⟨rfl, hhalf⟩
  · exact hhigh
  refine Nat.lt_of_le_of_ne hhigh fun htop => ?_
  -- The next whole number lies at least `1 / r` above the quotient, so only a divisor of at least
  -- twice the unit could reach it, and then the quotient has a mantissa of full length itself.
  have hgap : n + 1 ≤ (n / r + 1) * r := Nat.lt_mul_of_div_lt (Nat.lt_succ_self _) hr
  have hunit : 2 * P ≤ r := by
    have hscaled := Nat.mul_le_mul_right P hgap
    rw [Nat.mul_right_comm, ← htop, Nat.add_mul, Nat.add_mul, Nat.mul_comm (n * P / r) r] at hscaled
    omega
  have hexact : n * P = 4503599627370496 * r := by
    have hupper := (Nat.mul_le_mul_left n hunit).trans (Nat.mul_le_mul_right r hn)
    rw [Nat.mul_left_comm] at hupper
    omega
  rw [hexact, Nat.mul_mod_left] at hhalf
  omega

/-- The rounded quotient of two small whole numbers has the whole part of the exact one. -/
theorem value?_div_natCast {n r : Nat} (hx : value? x = some (n : ℚ)) (hy : value? y = some (r : ℚ))
    (hn : 0 < n) (hn' : n ≤ 9007199254740992) (hr : 2 ≤ r) (hr' : r ≤ 9007199254740992) :
    ∃ c : ℚ, value? (x / y) = some c ∧ 0 ≤ c ∧ ⌊c⌋₊ = n / r := by
  obtain ⟨M, t, hvalue, hfull, hM⟩ := value?_div hx hy (by exact_mod_cast hn)
    (by exact_mod_cast hn') (by exact_mod_cast (by omega : 1 ≤ r)) (by exact_mod_cast hr')
  refine ⟨_, hvalue, by positivity, ?_⟩
  have hrpos : (0 : ℚ) < r := by exact_mod_cast (by omega : 0 < r)
  have ht : t ≤ 0 := by
    have hsmall : (n : ℚ) / r ≤ 2 ^ (52 : Int) := by
      rw [div_le_iff₀ hrpos]
      norm_num
      exact_mod_cast (by omega : n ≤ 4503599627370496 * r)
    have hlarge : (2 : ℚ) ^ (52 + t) ≤ n / r := by
      rw [zpow_add₀ two_ne_zero, ← le_div_iff₀ (by positivity)]
      norm_num
      exact hfull
    have := (zpow_le_zpow_iff_right₀ (one_lt_two (α := ℚ))).mp (hlarge.trans hsmall)
    omega
  obtain ⟨j, rfl⟩ : ∃ j : Nat, t = -j := ⟨(-t).toNat, by omega⟩
  have hunits : (n : ℚ) / r / 2 ^ (-(j : Int)) = (n * 2 ^ j : Nat) / (r : Nat) := by
    rw [zpow_neg, div_inv_eq_mul, zpow_natCast]
    push_cast
    ring
  have hresult : (M : ℚ) * 2 ^ (-(j : Int)) = (M : Nat) / (2 ^ j : Nat) := by
    rw [zpow_neg, zpow_natCast]
    push_cast
    rw [div_eq_mul_inv]
  rw [hunits, Nat.floor_div_eq_div] at hM
  rw [hunits, le_div_iff₀ hrpos] at hfull
  rw [hresult, Nat.floor_div_eq_div]
  refine floor_quotient hn' (by omega) (by exact_mod_cast hfull)
    (hM.imp_right fun ⟨hM, hhalf⟩ => ⟨hM, ?_⟩)
  rw [le_div_iff₀ hrpos] at hhalf
  have hdivision := Nat.div_add_mod (n * 2 ^ j) r
  generalize n * 2 ^ j / r = Q at *
  generalize n * 2 ^ j % r = R at *
  have hsum : ((n * 2 ^ j : Nat) : ℚ) = r * Q + R := by exact_mod_cast hdivision.symm
  have hcast : (r : ℚ) ≤ 2 * R := by
    rw [hsum] at hhalf
    linarith
  exact_mod_cast hcast


end ProtoScript.Number
