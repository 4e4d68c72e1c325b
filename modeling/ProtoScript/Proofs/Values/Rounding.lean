import ProtoScript.Proofs.Values.Unpacked
/-!
# Rounding

Rounding shifts a mantissa to the right and keeps two bits of what falls off: whether it is half a
unit or more, and whether there is anything besides.  These bits say where the exact value lies
between two mantissas, so that a value that a number can have is rounded to itself, and any other
one to one of the two numbers next to it.
-/

namespace ProtoScript.Number

open Float.Model Float.Model.UnpackedFloat

/-! ### Mantissas with two more bits -/

/-- Where an exact number of units lies: at the mantissa, below or above half a unit behind it, or
half a unit behind it. -/
def Locates (em : ExtendedMantissa) (q : ℚ) : Prop :=
  match em.roundBit, em.stickyBit with
  | false, false => q = em.mantissa
  | false, true => em.mantissa < q ∧ q < em.mantissa + 1 / 2
  | true, false => q = em.mantissa + 1 / 2
  | true, true => em.mantissa + 1 / 2 < q ∧ q < em.mantissa + 1

variable {em : ExtendedMantissa} {q : ℚ}

theorem mantissa_ofMantissaAndAccuracy (m : Nat) (accuracy : Accuracy) :
    (ExtendedMantissa.ofMantissaAndAccuracy m accuracy).mantissa = m := by
  cases accuracy with
  | exact => rfl
  | inexact order => cases order <;> rfl

theorem locates_exact (m : Nat) : Locates (.ofMantissaAndAccuracy m .exact) m := rfl

theorem locates_fraction (m : Nat) {num den : Nat} (h : num < den) :
    Locates (.ofMantissaAndAccuracy m (accuracyOfFraction num den)) (m + num / den) := by
  have hden : (0 : ℚ) < den := by exact_mod_cast Nat.zero_lt_of_lt h
  have hlt : (num : ℚ) / den < 1 := (div_lt_one hden).mpr (by exact_mod_cast h)
  unfold accuracyOfFraction
  split
  · next hnum =>
    subst hnum
    simp [Locates, ExtendedMantissa.ofMantissaAndAccuracy]
  next hnum =>
  have hpos : (0 : ℚ) < num / den := by
    have : (0 : ℚ) < num := by exact_mod_cast Nat.pos_of_ne_zero hnum
    positivity
  rcases Nat.lt_trichotomy (2 * num) den with hc | hc | hc
  · have hhalf : (num : ℚ) / den < 1 / 2 := by
      rw [div_lt_div_iff₀ hden two_pos]
      exact_mod_cast (by omega : num * 2 < 1 * den)
    rw [compare_lt_iff_lt.mpr hc]
    exact ⟨lt_add_of_pos_right _ hpos, add_lt_add_right hhalf _⟩
  · have hhalf : (num : ℚ) / den = 1 / 2 := by
      rw [div_eq_div_iff hden.ne' two_ne_zero]
      exact_mod_cast (by omega : num * 2 = 1 * den)
    rw [compare_eq_iff_eq.mpr hc]
    exact congrArg (_ + ·) hhalf
  · have hhalf : 1 / 2 < (num : ℚ) / den := by
      rw [div_lt_div_iff₀ two_pos hden]
      exact_mod_cast (by omega : 1 * den < num * 2)
    rw [compare_gt_iff_gt.mpr hc]
    exact ⟨add_lt_add_right hhalf _, add_lt_add_right hlt _⟩

theorem Locates.bounds (h : Locates em q) : (em.mantissa : ℚ) ≤ q ∧ q < em.mantissa + 1 := by
  obtain ⟨m, round, sticky⟩ := em
  cases round <;> cases sticky <;> simp only [Locates] at h <;> constructor <;> linarith

theorem Locates.floor (h : Locates em q) : ⌊q⌋₊ = em.mantissa :=
  (Nat.floor_eq_iff ((Nat.cast_nonneg _).trans h.bounds.1)).mpr h.bounds

theorem Locates.shiftRightOne (h : Locates em q) : Locates em.shiftRightOne (q / 2) := by
  obtain ⟨m, round, sticky⟩ := em
  have hhalf : (m : ℚ) = 2 * (m / 2 : Nat) + (m % 2 : Nat) := by
    exact_mod_cast (Nat.div_add_mod m 2).symm
  rcases Nat.mod_two_eq_zero_or_one m with hm | hm <;> rw [hm] at hhalf <;> cases round <;>
    cases sticky <;>
    simp only [Locates, ExtendedMantissa.shiftRightOne, hm] at h hhalf ⊢ <;> grind

theorem Locates.shiftRight (h : Locates em q) (n : Nat) : Locates (em >>> n) (q / 2 ^ n) := by
  change Locates (n.repeat ExtendedMantissa.shiftRightOne em) _
  induction n with
  | zero => simpa [Nat.repeat] using h
  | succ n ih =>
    rw [pow_succ, ← div_div]
    exact ih.shiftRightOne

theorem Locates.rounded_natCast {n : Nat} (h : Locates em n) : em.roundedMantissa = n := by
  have hfloor := h.floor
  rw [Nat.floor_natCast] at hfloor
  obtain ⟨m, round, sticky⟩ := em
  subst hfloor
  cases round <;> cases sticky <;> simp only [Locates] at h
  · rfl
  · linarith
  · linarith
  · linarith

/-- What stands between two mantissas is rounded to one of them, and up only from the middle on. -/
theorem Locates.rounded (h : Locates em q) : em.roundedMantissa = ⌊q⌋₊ ∨
    em.roundedMantissa = ⌊q⌋₊ + 1 ∧ (⌊q⌋₊ : ℚ) + 1 / 2 ≤ q := by
  rw [h.floor]
  obtain ⟨m, round, sticky⟩ := em
  cases round <;> cases sticky <;> simp only [Locates] at h
  · exact .inl rfl
  · exact .inl rfl
  · rcases Nat.mod_two_eq_zero_or_one m with hm | hm
    · exact .inl (show m + m % 2 = m by omega)
    · exact .inr ⟨show m + m % 2 = m + 1 by omega, h.ge⟩
  · exact .inr ⟨rfl, h.1.le⟩

/-! ### Rounding to the exponent of a mantissa -/

/-- The exponent at which a value with these parts has a mantissa of full length, if it is not too
small for that. -/
def targetExponent (m : Nat) (e : Int) : Int := max (m.log2 + e - 52) (-1074)

theorem binary64_targetExponent (m : Nat) (e : Int) :
    Format.binary64.targetExponent (totalExponent m e) = targetExponent m e := by
  change max ((m.log2 : Int) + 1 + e - 53) (-1074) = _
  rw [targetExponent]
  omega

variable {m M : Nat} {e t : Int} {s : Sign} {accuracy : Accuracy}

/-- A mantissa that is no longer than the full length stays where it is. -/
theorem shiftToTargetExponent_exact (hM : M < 9007199254740992) (ht : -1074 ≤ t) :
    shiftToTargetExponent Format.binary64 M t .exact =
      (.ofMantissaAndAccuracy M .exact, t) := by
  have hlog : M.log2 ≤ 52 := by
    rcases Nat.eq_zero_or_pos M with rfl | hpos
    · exact Nat.zero_le _
    · exact Nat.le_of_lt_succ ((Nat.log2_lt hpos.ne').mpr hM)
  have hshift : (targetExponent M t - t).toNat = 0 := by
    rw [targetExponent]
    omega
  rw [shiftToTargetExponent, binary64_targetExponent, shiftToExponent, hshift]
  exact congrArg (Prod.mk _) (Int.add_zero t)

theorem shiftToTargetExponent_eq (ht : targetExponent m e = t) (he : e ≤ t) :
    shiftToTargetExponent Format.binary64 m e accuracy =
      (ExtendedMantissa.ofMantissaAndAccuracy m accuracy >>> (t - e).toNat, t) := by
  rw [shiftToTargetExponent, binary64_targetExponent, ht, shiftToExponent]
  exact congrArg (Prod.mk _) (by omega)

theorem le_of_targetExponent (ht : targetExponent m e = t) : -1074 ≤ t := by
  rw [← ht, targetExponent]
  omega

/-- The mantissa of the rounded value, if it does not become too long. -/
theorem roundWithAccuracy_eq (ht : targetExponent m e = t) (he : e ≤ t)
    (hM : (ExtendedMantissa.ofMantissaAndAccuracy m accuracy >>> (t - e).toNat).roundedMantissa = M)
    (hpos : 0 < M) (hlt : M < 9007199254740992) :
    roundWithAccuracy Format.binary64 s m e accuracy = .finite s M t hpos := by
  unfold roundWithAccuracy
  rw [shiftToTargetExponent_eq ht he]
  dsimp only
  rw [hM, shiftToTargetExponent_exact hlt (le_of_targetExponent ht)]
  exact dif_neg hpos.ne'

/-- Where the rounded mantissa becomes too long by one bit, it is a power of two. -/
theorem roundWithAccuracy_carry (ht : targetExponent m e = t) (he : e ≤ t)
    (hM : (ExtendedMantissa.ofMantissaAndAccuracy m accuracy >>> (t - e).toNat).roundedMantissa =
      9007199254740992) :
    roundWithAccuracy Format.binary64 s m e accuracy =
      .finite s 4503599627370496 (t + 1) (by decide) := by
  have hmin := le_of_targetExponent ht
  have hlog : (9007199254740992 : Nat).log2 = 53 := by decide
  have hsecond : shiftToTargetExponent Format.binary64 9007199254740992 t .exact =
      (.ofMantissaAndAccuracy 4503599627370496 .exact, t + 1) := by
    have hshift : (targetExponent 9007199254740992 t - t).toNat = 1 := by
      rw [targetExponent, hlog]
      omega
    rw [shiftToTargetExponent, binary64_targetExponent, shiftToExponent, hshift]
    rfl
  unfold roundWithAccuracy
  rw [shiftToTargetExponent_eq ht he]
  dsimp only
  rw [hM, hsecond]
  rfl

/-! ### Values that are rounded to themselves -/

def IsRepresentable (q : ℚ) : Prop :=
  ∃ (n : Nat) (k : Int), n < 9007199254740992 ∧ -1074 ≤ k ∧ k ≤ 971 ∧ q = n * 2 ^ k

theorem isRepresentable_natCast {n : Nat} (h : n ≤ 9007199254740992) :
    IsRepresentable (n : ℚ) := by
  rcases h.lt_or_eq with h | rfl
  · exact ⟨n, 0, h, by decide, by decide, by simp⟩
  · exact ⟨4503599627370496, 1, by decide, by decide, by decide, by norm_num⟩

theorem isRepresentable_intCast {n : ℤ} (h : n.natAbs ≤ 9007199254740992) :
    IsRepresentable |(n : ℚ)| := by
  rw [← Int.cast_abs, Int.abs_eq_natAbs, Int.cast_natCast]
  exact isRepresentable_natCast h

def HasValue (u : UnpackedFloat) (q : ℚ) : Prop := IsCanonical u ∧ partsValue? u = some q

theorem HasValue.value? {u : UnpackedFloat} (h : HasValue u q) :
    value? (Float.ofModel (Float.Model.pack u)) = some q :=
  (value?_pack h.1).trans h.2

theorem zpow_log2_le (hm : 0 < m) : (2 : ℚ) ^ (m.log2 + e) ≤ m * 2 ^ e := by
  rw [zpow_add₀ two_ne_zero, zpow_natCast]
  exact mul_le_mul_of_nonneg_right (by exact_mod_cast Nat.log2_self_le hm.ne') (by positivity)

theorem lt_zpow_log2 : m * 2 ^ e < (2 : ℚ) ^ (m.log2 + 1 + e) := by
  rw [zpow_add₀ two_ne_zero]
  exact mul_lt_mul_of_pos_right (by exact_mod_cast Nat.lt_log2_self) (by positivity)

theorem mul_pow_mul_zpow_sub (m n : Nat) (e : Int) :
    ((m * 2 ^ n : Nat) : ℚ) * 2 ^ (e - n) = m * 2 ^ e := by
  push_cast
  rw [mul_assoc, ← zpow_natCast, ← zpow_add₀ two_ne_zero, add_sub_cancel]

theorem mul_zpow_of_le (m : Nat) (h : t ≤ e) :
    (m : ℚ) * 2 ^ e = (m * 2 ^ (e - t).toNat : Nat) * 2 ^ t := by
  rw [← mul_pow_mul_zpow_sub m (e - t).toNat e]
  congr 2
  omega

/-- A value that a number can have is a whole number of units at its exponent. -/
theorem IsRepresentable.exists_mantissa (hm : 0 < m) (ht : targetExponent m e = t)
    (h : IsRepresentable (m * 2 ^ e)) :
    ∃ (M : Nat) (hpos : 0 < M), IsCanonical (.finite s M t hpos) ∧
      (m : ℚ) * 2 ^ e = M * 2 ^ t := by
  obtain ⟨n, k, hn, hk, hk', hvalue⟩ := h
  have hlow := zpow_log2_le (e := e) hm
  have hhigh := lt_zpow_log2 (m := m) (e := e)
  rw [hvalue] at hlow hhigh
  have hn' : (n : ℚ) < 2 ^ (53 : Int) := by
    norm_num
    exact_mod_cast hn
  have hbelow : (n : ℚ) * 2 ^ k < 2 ^ (53 + k) := by
    rw [zpow_add₀ two_ne_zero]
    exact mul_lt_mul_of_pos_right hn' (by positivity)
  have hlog : (m.log2 : Int) + e < 53 + k :=
    (zpow_lt_zpow_iff_right₀ one_lt_two).mp (hlow.trans_lt hbelow)
  rw [targetExponent] at ht
  have htk : t ≤ k := by omega
  have hunits := mul_zpow_of_le n htk
  generalize n * 2 ^ (k - t).toNat = M at hunits
  rw [hunits] at hvalue hlow hhigh
  have hunit : (0 : ℚ) < 2 ^ t := by positivity
  have hM : M < 9007199254740992 := by
    have : (M : ℚ) * 2 ^ t < 2 ^ (53 : Int) * 2 ^ t := by
      rw [← zpow_add₀ two_ne_zero]
      exact hhigh.trans_le (zpow_le_zpow_right₀ one_le_two (by omega))
    have := lt_of_mul_lt_mul_right this hunit.le
    norm_num at this
    exact_mod_cast this
  have hpos : 0 < M := by
    have : (0 : ℚ) < M * 2 ^ t := lt_of_lt_of_le (by positivity) hlow
    exact_mod_cast (pos_iff_pos_of_mul_pos this).mpr hunit
  refine ⟨M, hpos, ⟨hM, ?_⟩, hvalue⟩
  rcases eq_or_ne t (-1074) with hmin | hmin
  · exact .inl hmin
  · refine .inr ⟨?_, by omega, by omega⟩
    have : (2 : ℚ) ^ (52 : Int) * 2 ^ t ≤ M * 2 ^ t := by
      rw [← zpow_add₀ two_ne_zero]
      exact (zpow_le_zpow_right₀ one_le_two (by omega)).trans hlow
    have := le_of_mul_le_mul_right this hunit
    norm_num at this
    exact_mod_cast this

theorem roundWithAccuracy_exact (hm : 0 < m) (he : e ≤ targetExponent m e)
    (h : IsRepresentable (m * 2 ^ e)) :
    HasValue (roundWithAccuracy Format.binary64 s m e .exact) (s.apply m * 2 ^ e) := by
  obtain ⟨M, hpos, hcanonical, hvalue⟩ := h.exists_mantissa (s := s) hm rfl
  have hlocates : Locates (ExtendedMantissa.ofMantissaAndAccuracy m .exact >>>
      (targetExponent m e - e).toNat) M := by
    have hunits : (m : ℚ) / 2 ^ (targetExponent m e - e).toNat = M := by
      rw [div_eq_iff (by positivity), ← zpow_natCast]
      have hsplit : (2 : ℚ) ^ targetExponent m e =
          2 ^ ((targetExponent m e - e).toNat : Int) * 2 ^ e := by
        rw [← zpow_add₀ two_ne_zero]
        congr 1
        omega
      rw [hsplit, ← mul_assoc] at hvalue
      exact mul_right_cancel₀ (by positivity) hvalue
    have := (locates_exact m).shiftRight (targetExponent m e - e).toNat
    rwa [hunits] at this
  rw [roundWithAccuracy_eq rfl he hlocates.rounded_natCast hpos hcanonical.1]
  refine ⟨hcanonical, congrArg some ?_⟩
  cases s
  · simp only [Sign.apply, Int.cast_neg, Int.cast_natCast, neg_mul, hvalue]
  · simp only [Sign.apply, Int.cast_natCast, hvalue]

theorem log2_shiftLeft {n : Nat} (hm : 0 < m) : (m <<< n).log2 = m.log2 + n := by
  rw [Nat.shiftLeft_eq, Nat.log2_eq_iff (by positivity)]
  have hlow := Nat.log2_self_le hm.ne'
  have hhigh := Nat.lt_log2_self (n := m)
  constructor
  · rw [pow_add]
    exact Nat.mul_le_mul_right _ hlow
  · rw [Nat.add_right_comm, pow_add]
    exact Nat.mul_lt_mul_of_pos_right hhigh (by positivity)

theorem decreaseExponent_value (m : Nat) (e t : Int) :
    ((decreaseExponent m e t).1 : ℚ) * 2 ^ (decreaseExponent m e t).2 = m * 2 ^ e := by
  unfold decreaseExponent
  simp only [Nat.shiftLeft_eq]
  exact mul_pow_mul_zpow_sub m (e - t).toNat e

theorem round_exact (hm : 0 < m) (h : IsRepresentable (m * 2 ^ e)) :
    HasValue (UnpackedFloat.round Format.binary64 s m e) (s.apply m * 2 ^ e) := by
  have hvalue := decreaseExponent_value m e (targetExponent m e)
  have htarget : targetExponent (m <<< (e - targetExponent m e).toNat)
      (e - (e - targetExponent m e).toNat) = targetExponent m e := by
    rw [targetExponent, log2_shiftLeft hm, targetExponent]
    omega
  rw [UnpackedFloat.round, binary64_targetExponent]
  unfold decreaseExponent at hvalue ⊢
  dsimp only at hvalue ⊢
  rw [← hvalue] at h
  have hround := roundWithAccuracy_exact (s := s) (by rw [Nat.shiftLeft_eq]; positivity)
    (by rw [htarget]; omega) h
  cases s
  · simpa only [Sign.apply, Int.cast_neg, Int.cast_natCast, neg_mul, hvalue] using hround
  · simpa only [Sign.apply, Int.cast_natCast, hvalue] using hround

theorem normalize_exact {n : Int} (h : IsRepresentable |(n : ℚ) * 2 ^ e|) :
    HasValue (UnpackedFloat.normalize Format.binary64 n e s) (n * 2 ^ e) := by
  have hmagnitude : |(n : ℚ) * 2 ^ e| = n.natAbs * 2 ^ e := by
    rw [abs_mul, abs_of_nonneg (show (0 : ℚ) ≤ 2 ^ e by positivity), Nat.cast_natAbs, Int.cast_abs]
  rw [hmagnitude] at h
  unfold UnpackedFloat.normalize
  rcases lt_trichotomy n 0 with hn | rfl | hn
  · have hround := round_exact (s := .negative) (show 0 < n.natAbs by omega) h
    rw [compare_lt_iff_lt.mpr hn, show (-n).toNat = n.natAbs by omega]
    simpa [Sign.apply, show -|n| = n by rw [abs_of_neg hn, neg_neg]] using hround
  · exact ⟨trivial, congrArg some (by simp)⟩
  · have hround := round_exact (s := .positive) (show 0 < n.natAbs by omega) h
    rw [compare_gt_iff_gt.mpr hn, show n.toNat = n.natAbs by omega]
    simpa [Sign.apply, abs_of_pos hn] using hround

/-! ### Values between two numbers -/

theorem roundWithAccuracy_value (ht : targetExponent m e = t) (he : e ≤ t)
    (hM : (ExtendedMantissa.ofMantissaAndAccuracy m accuracy >>> (t - e).toNat).roundedMantissa = M)
    (hlow : 4503599627370496 ≤ M) (hhigh : M ≤ 9007199254740992) (htop : t ≤ 970) :
    HasValue (roundWithAccuracy Format.binary64 s m e accuracy) (s.apply M * 2 ^ t) := by
  have hmin := le_of_targetExponent ht
  rcases hhigh.lt_or_eq with hlt | rfl
  · rw [roundWithAccuracy_eq ht he hM (by omega) hlt]
    exact ⟨⟨hlt, by omega⟩, rfl⟩
  · rw [roundWithAccuracy_carry ht he hM]
    refine ⟨⟨by decide, .inr ⟨by decide, by omega, by omega⟩⟩, congrArg some ?_⟩
    rw [zpow_add₀ two_ne_zero]
    cases s <;> simp only [Sign.apply] <;> push_cast <;> ring

/-- A mantissa of full length or longer is rounded to a whole number of units, one of the two next
to the exact value. -/
theorem roundWithAccuracy_full {k : Nat} {w : ℚ} (hk : 4503599627370496 ≤ k)
    (he : -1074 ≤ e) (he' : k.log2 + e ≤ 1022)
    (h : Locates (.ofMantissaAndAccuracy k accuracy) w) :
    ∃ (M : Nat) (t : Int), HasValue (roundWithAccuracy Format.binary64 s k e accuracy)
        (s.apply M * 2 ^ t) ∧ 4503599627370496 ≤ w * 2 ^ e / 2 ^ t ∧
      (M = ⌊w * 2 ^ e / 2 ^ t⌋₊ ∨
        M = ⌊w * 2 ^ e / 2 ^ t⌋₊ + 1 ∧ (⌊w * 2 ^ e / 2 ^ t⌋₊ : ℚ) + 1 / 2 ≤ w * 2 ^ e / 2 ^ t) := by
  obtain ⟨d, hd⟩ : ∃ d, k.log2 = 52 + d := Nat.exists_eq_add_of_le ((Nat.le_log2 (by omega)).mpr hk)
  have ht : targetExponent k e = e + d := by
    rw [targetExponent]
    omega
  have hlow : (2 : ℚ) ^ (52 + d) ≤ k := by exact_mod_cast hd ▸ Nat.log2_self_le (by omega)
  have hhigh : (k : ℚ) + 1 ≤ 2 ^ (53 + d) := by
    rw [show 53 + d = k.log2 + 1 by omega]
    exact_mod_cast Nat.lt_log2_self
  have hbounds := h.bounds
  rw [mantissa_ofMantissaAndAccuracy] at hbounds
  have hunits := h.shiftRight d
  have hz : w * 2 ^ e / 2 ^ (e + d) = w / 2 ^ d := by
    rw [zpow_add₀ two_ne_zero, zpow_natCast]
    field_simp
  have hzlow : 4503599627370496 ≤ w / 2 ^ d := by
    rw [le_div_iff₀ (by positivity)]
    rw [pow_add] at hlow
    linarith
  have hzhigh : w / 2 ^ d < 9007199254740992 := by
    rw [div_lt_iff₀ (by positivity)]
    rw [pow_add] at hhigh
    linarith
  have hfloor : 4503599627370496 ≤ ⌊w / 2 ^ d⌋₊ := Nat.le_floor (by exact_mod_cast hzlow)
  have hfloor' : ⌊w / 2 ^ d⌋₊ < 9007199254740992 :=
    (Nat.floor_lt (by linarith)).mpr (by exact_mod_cast hzhigh)
  have hround := hunits.rounded
  generalize hM : (ExtendedMantissa.ofMantissaAndAccuracy k accuracy >>> d).roundedMantissa = M
    at hround
  refine ⟨M, e + d, roundWithAccuracy_value ht (by omega) ?_ (by omega) (by omega) (by omega),
    hz ▸ hzlow, hz ▸ hround⟩
  rw [show (e + d - e).toNat = d by omega, hM]

end ProtoScript.Number
