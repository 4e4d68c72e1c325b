import Mathlib.Algebra.Order.Field.Power
import Mathlib.Data.Rat.Floor
import Mathlib.Tactic.Linarith
import Mathlib.Tactic.NormNum
import Mathlib.Tactic.Positivity
import Mathlib.Tactic.Ring
import ProtoScript.Number.Exact
/-!
# Exact values

The exact value of a finite number is a rational number.  The arithmetic of numbers takes them apart
into a sign, a mantissa and an exponent, and puts together what it has computed.  Nothing is lost on
the way: a number that is put together from canonical parts has these parts, and every number has
canonical parts.
-/

namespace ProtoScript.Number

open Float.Model Float.Model.UnpackedFloat

def Binary64.value? : Binary64 → Option ℚ
  | finite negative mantissa exponent =>
    some ((if negative then -1 else 1) * mantissa * 2 ^ exponent)
  | _ => none

def value? (x : Float) : Option ℚ := (Binary64.ofFloat x).value?

/-! ### Canonical parts -/

/-- The parts of a number as its bits give them: the mantissa has its full length, or the exponent
is the least one. -/
def IsCanonical : UnpackedFloat → Prop
  | .finite _ mantissa exponent _ => mantissa < 9007199254740992 ∧
      (exponent = -1074 ∨ 4503599627370496 ≤ mantissa ∧ -1074 < exponent ∧ exponent ≤ 971)
  | _ => True

def Binary64.ofUnpacked : UnpackedFloat → Binary64
  | .notANumber => nan
  | .infinity s => infinity (s == .negative)
  | .zero s => finite (s == .negative) 0 minExponent
  | .finite s mantissa exponent _ => finite (s == .negative) mantissa exponent

theorem toNat_unpackExponent (b : BitVec 64) :
    (@unpackExponent Format.binary64 b).toNat = b.toNat / 4503599627370496 % 2048 := by
  show b.toNat >>> 52 % 2048 = _
  rw [Nat.shiftRight_eq_div_pow]

theorem toNat_unpackMantissa (b : BitVec 64) :
    (@unpackMantissa Format.binary64 b).toNat = b.toNat % 4503599627370496 := by
  show b.toNat >>> 0 % 4503599627370496 = _
  rw [Nat.shiftRight_zero]

theorem toNat_unpackSign (b : BitVec 64) :
    (@unpackSign Format.binary64 b).toNat = b.toNat / 9223372036854775808 % 2 := by
  show b.toNat >>> 63 % 2 = _
  rw [Nat.shiftRight_eq_div_pow]

theorem isNegative_unpackSign (b : BitVec 64) :
    (Sign.ofBitVec (@unpackSign Format.binary64 b) == .negative) =
      decide (9223372036854775808 ≤ b.toNat) := by
  have hlt := b.isLt
  have hfield := toNat_unpackSign b
  unfold Sign.ofBitVec
  split
  · next h =>
    rw [h] at hfield
    exact (decide_eq_false (by change 0 = _ at hfield; omega)).symm
  · next h =>
    have hne : (@unpackSign Format.binary64 b).toNat ≠ 0 := fun hz => h (BitVec.eq_of_toNat_eq hz)
    exact (decide_eq_true (by omega)).symm

theorem unpackExponent_eq_greatest_iff (b : BitVec 64) :
    @unpackExponent Format.binary64 b = -1#11 ↔ b.toNat / 4503599627370496 % 2048 = 2047 := by
  rw [← BitVec.toNat_inj, toNat_unpackExponent]
  rfl

theorem unpackExponent_eq_zero_iff (b : BitVec 64) :
    @unpackExponent Format.binary64 b = 0#11 ↔ b.toNat / 4503599627370496 % 2048 = 0 := by
  rw [← BitVec.toNat_inj, toNat_unpackExponent]
  rfl

theorem unpackMantissa_eq_zero_iff (b : BitVec 64) :
    @unpackMantissa Format.binary64 b = 0#52 ↔ b.toNat % 4503599627370496 = 0 := by
  rw [← BitVec.toNat_inj, toNat_unpackMantissa]
  rfl

/-- The parts that arithmetic uses are those of the exact reading, and they are canonical. -/
theorem unpack_spec (x : Float) :
    Binary64.ofFloat x = Binary64.ofUnpacked x.toModel.unpack ∧ IsCanonical x.toModel.unpack := by
  generalize hb : x.toBits.toBitVec = b
  have hbits : x.toBits.toNat = b.toNat := hb ▸ rfl
  have hexponent := toNat_unpackExponent b
  have hmantissa := toNat_unpackMantissa b
  have hsign := isNegative_unpackSign b
  have hall := unpackExponent_eq_greatest_iff b
  have hleast := unpackExponent_eq_zero_iff b
  have hzero := unpackMantissa_eq_zero_iff b
  have hunpack : x.toModel.unpack = UnpackedFloat.unpack Format.binary64 b := hb ▸ rfl
  rw [hunpack]
  unfold Binary64.ofFloat UnpackedFloat.unpack
  dsimp only [Binary64.hiddenBit, Binary64.signBit]
  rw [hbits]
  by_cases h : b.toNat / 4503599627370496 % 2048 = 2047
  · rw [if_pos h, if_pos (hall.mpr h)]
    by_cases h : b.toNat % 4503599627370496 = 0
    · rw [if_pos h, if_pos (hzero.mpr h)]
      exact ⟨congrArg Binary64.infinity hsign.symm, trivial⟩
    · rw [if_neg h, if_neg (mt hzero.mp h)]
      exact ⟨rfl, trivial⟩
  rw [if_neg h, if_neg (mt hall.mp h)]
  by_cases h : b.toNat / 4503599627370496 % 2048 = 0
  · rw [if_pos h, if_pos (hleast.mpr h)]
    by_cases hm : b.toNat % 4503599627370496 = 0
    · rw [dif_pos (hzero.mpr hm), hm]
      exact ⟨(Binary64.finite.injEq ..).mpr ⟨hsign.symm, rfl, rfl⟩, trivial⟩
    · rw [dif_neg (mt hzero.mp hm)]
      have hplace : ((@unpackExponent Format.binary64 b).toNat : Int) - 1075 + 1 = -1074 := by
        rw [hexponent, h]
        rfl
      exact ⟨(Binary64.finite.injEq ..).mpr ⟨hsign.symm, hmantissa.symm, hplace.symm⟩,
        by rw [hmantissa]; omega, .inl hplace⟩
  · rw [if_neg h, if_neg (mt hleast.mp h)]
    have hplace : ((@unpackExponent Format.binary64 b).toNat : Int) - 1075 =
        (b.toNat / 4503599627370496 % 2048 : Nat) - 1075 := by rw [hexponent]
    have hfull := toNat_one_append (@unpackMantissa Format.binary64 b)
    rw [hmantissa] at hfull
    refine ⟨(Binary64.finite.injEq ..).mpr ⟨hsign.symm, hfull.symm, hplace.symm⟩, ?_, ?_⟩
    · rw [hfull]
      omega
    · rw [hfull]
      change ((@unpackExponent Format.binary64 b).toNat : Int) - 1075 = -1074 ∨
        _ ∧ -1074 < ((@unpackExponent Format.binary64 b).toNat : Int) - 1075 ∧
          ((@unpackExponent Format.binary64 b).toNat : Int) - 1075 ≤ 971
      omega

theorem sign_packComponents (s : Sign) (exponent : BitVec 11) (mantissa : BitVec 52) :
    Sign.ofBitVec (unpackSign (packComponents Format.binary64 s exponent mantissa)) = s := by
  have hfield : unpackSign (packComponents Format.binary64 s exponent mantissa) = s.toBitVec := by
    change (s.toBitVec ++ exponent ++ mantissa).extractLsb' 63 1 = s.toBitVec
    rw [BitVec.extractLsb'_append_eq_of_le (by omega),
      BitVec.extractLsb'_append_eq_of_le (by omega)]
    cases s <;> rfl
  rw [hfield]
  cases s <;> rfl

theorem unpack_normal (s : Sign) {exponent : BitVec 11} (mantissa : BitVec 52)
    (hlow : exponent ≠ 0#11) (hhigh : exponent ≠ -1#11) :
    ∃ hpos, UnpackedFloat.unpack Format.binary64
      (packComponents Format.binary64 s exponent mantissa) =
        .finite s (1#1 ++ mantissa).toNat ((exponent.toNat : Int) - 1075) hpos := by
  have hpos : 0 < (1#1 ++ mantissa).toNat := by
    rw [toNat_one_append]
    omega
  refine ⟨hpos, ?_⟩
  have hexponent : unpackExponent (packComponents Format.binary64 s exponent mantissa) = exponent :=
    unpackExponent_packComponents
  have hmantissa : unpackMantissa (packComponents Format.binary64 s exponent mantissa) = mantissa :=
    unpackMantissa_packComponents
  have hsign := sign_packComponents s exponent mantissa
  generalize packComponents Format.binary64 s exponent mantissa = b at *
  subst hexponent hmantissa hsign
  unfold UnpackedFloat.unpack
  rw [if_neg hhigh, if_neg hlow]
  rfl

theorem unpack_subnormal (s : Sign) {mantissa : BitVec 52} (hpos : 0 < mantissa.toNat) :
    UnpackedFloat.unpack Format.binary64 (packComponents Format.binary64 s 0#11 mantissa) =
      .finite s mantissa.toNat (-1074) hpos := by
  have hexponent : unpackExponent (packComponents Format.binary64 s 0#11 mantissa) = 0#11 :=
    unpackExponent_packComponents
  have hmantissa : unpackMantissa (packComponents Format.binary64 s 0#11 mantissa) = mantissa :=
    unpackMantissa_packComponents
  have hsign := sign_packComponents s 0#11 mantissa
  generalize packComponents Format.binary64 s 0#11 mantissa = b at *
  subst hmantissa hsign
  have hne : @unpackMantissa Format.binary64 b ≠ 0#52 := fun hz => by
    rw [hz] at hpos
    cases hpos
  unfold UnpackedFloat.unpack
  rw [if_neg (by rw [hexponent]; decide), if_pos hexponent, dif_neg hne]
  exact (UnpackedFloat.finite.injEq ..).mpr ⟨rfl, rfl, by rw [hexponent]; rfl⟩

/-- Canonical parts are those of the number that is put together from them. -/
theorem unpack_pack {u : UnpackedFloat} (h : IsCanonical u) : (Float.Model.pack u).unpack = u := by
  cases u with
  | notANumber => rfl
  | infinity s => cases s <;> rfl
  | zero s => cases s <;> rfl
  | finite s mantissa exponent hpos =>
    obtain ⟨hm, he⟩ := h
    have hlog : mantissa.log2 < 53 := (Nat.log2_lt (by omega)).2 hm
    change UnpackedFloat.unpack Format.binary64
      (UnpackedFloat.pack Format.binary64 (.finite s mantissa exponent hpos)) = _
    rw [pack_finite, if_neg (by omega)]
    have hmantissa : (BitVec.ofNat 52 mantissa).toNat = mantissa % 4503599627370496 :=
      BitVec.toNat_ofNat ..
    by_cases hfull : 4503599627370496 ≤ mantissa
    · have hlog' : 52 ≤ mantissa.log2 := (Nat.le_log2 (by omega)).2 hfull
      generalize hplace : (exponent + 1023 + 52).toNat = place
      have hexponent : (BitVec.ofNat 11 place).toNat = place :=
        (BitVec.toNat_ofNat ..).trans (Nat.mod_eq_of_lt (show place < 2048 by omega))
      have hvalue : (1#1 ++ BitVec.ofNat 52 mantissa).toNat = mantissa := by
        rw [toNat_one_append, hmantissa]
        omega
      have hlow : BitVec.ofNat 11 place ≠ 0#11 := fun hz => by
        have := hexponent.symm.trans (congrArg BitVec.toNat hz)
        change place = 0 at this
        omega
      have hhigh : BitVec.ofNat 11 place ≠ -1#11 := fun hz => by
        have := hexponent.symm.trans (congrArg BitVec.toNat hz)
        change place = 2047 at this
        omega
      obtain ⟨hpos', hunpack⟩ := unpack_normal s (BitVec.ofNat 52 mantissa) hlow hhigh
      rw [if_pos (by omega), hunpack]
      exact (UnpackedFloat.finite.injEq ..).mpr ⟨rfl, hvalue, by rw [hexponent]; omega⟩
    · have hlog' : mantissa.log2 < 52 := (Nat.log2_lt (by omega)).2 (by omega)
      rw [Nat.mod_eq_of_lt (by omega)] at hmantissa
      rw [if_neg (by omega), unpack_subnormal s (by rwa [hmantissa])]
      exact (UnpackedFloat.finite.injEq ..).mpr ⟨rfl, hmantissa, by omega⟩

/-! ### Values of parts -/

def partsValue? : UnpackedFloat → Option ℚ
  | .zero _ => some 0
  | .finite s mantissa exponent _ => some (s.apply mantissa * 2 ^ exponent)
  | _ => none

theorem value?_eq_parts (x : Float) : value? x = partsValue? x.toModel.unpack := by
  rw [value?, (unpack_spec x).1]
  cases x.toModel.unpack with
  | notANumber => rfl
  | infinity => rfl
  | zero s => exact congrArg some (by simp)
  | finite s =>
    cases s
    · exact congrArg some (by
        rw [if_pos (by decide), Sign.apply]
        push_cast
        ring)
    · exact congrArg some (by
        rw [if_neg (by decide), Sign.apply]
        push_cast
        ring)

/-- A number that is put together from canonical parts has their value. -/
theorem value?_pack {u : UnpackedFloat} (h : IsCanonical u) :
    value? (Float.ofModel (Float.Model.pack u)) = partsValue? u := by
  rw [value?_eq_parts, unpack_pack h]

inductive HasParts (x : Float) (a : ℚ) : Prop
  | zero {s : Sign} : x.toModel.unpack = .zero s → a = 0 → HasParts x a
  | finite {s : Sign} {mantissa : Nat} {exponent : Int} {hpos : 0 < mantissa} :
    x.toModel.unpack = .finite s mantissa exponent hpos →
    IsCanonical (.finite s mantissa exponent hpos) →
    a = s.apply mantissa * 2 ^ exponent → HasParts x a

variable {x y : Float} {a b : ℚ}

theorem hasParts (h : value? x = some a) : HasParts x a := by
  rw [value?_eq_parts] at h
  have hcanonical := (unpack_spec x).2
  cases hu : x.toModel.unpack with
  | notANumber => rw [hu] at h; cases h
  | infinity => rw [hu] at h; cases h
  | zero s =>
    rw [hu] at h
    exact .zero hu (Option.some.inj h).symm
  | finite s mantissa exponent hpos =>
    rw [hu] at h hcanonical
    exact .finite hu hcanonical (Option.some.inj h).symm

/-! ### Signs -/

theorem apply_neg (s : Sign) (n : Int) : (-s).apply n = -s.apply n := by
  cases s
  · exact (Int.neg_neg n).symm
  · rfl

theorem value?_neg (h : value? x = some a) : value? (-x) = some (-a) := by
  change value? (Float.ofModel (Float.Model.pack x.toModel.unpack.neg)) = _
  cases hasParts h with
  | @zero s hu ha =>
    rw [hu, ha, neg_zero]
    exact value?_pack (u := .zero (-s)) trivial
  | @finite s mantissa exponent hpos hu hcanonical ha =>
    rw [hu, ha]
    refine (value?_pack (u := .finite (-s) mantissa exponent hpos) hcanonical).trans ?_
    change some (((-s).apply mantissa : ℚ) * 2 ^ exponent) = _
    rw [apply_neg]
    push_cast
    rw [neg_mul]

theorem value?_abs (h : value? x = some a) : value? x.abs = some |a| := by
  change value? (Float.ofModel (Float.Model.pack x.toModel.unpack.abs)) = _
  cases hasParts h with
  | zero hu ha =>
    rw [hu, ha, abs_zero]
    exact value?_pack (u := .zero .positive) trivial
  | @finite s mantissa exponent hpos hu hcanonical ha =>
    have hvalue : (0 : ℚ) ≤ mantissa * 2 ^ exponent := by positivity
    rw [hu, ha]
    refine (value?_pack (u := .finite .positive mantissa exponent hpos) hcanonical).trans ?_
    change some (((Sign.positive).apply mantissa : ℚ) * 2 ^ exponent) = _
    cases s <;> simp [Sign.apply, abs_of_nonneg hvalue]

/-! ### Comparison -/

/-- With a greater exponent comes a greater value, whatever the mantissas. -/
theorem lt_of_exponent_lt {s t : Sign} {m n : Nat} {p q : Int} {hm : 0 < m} {hn : 0 < n}
    (hx : IsCanonical (.finite s m p hm)) (hy : IsCanonical (.finite t n q hn)) (h : p < q) :
    (m : ℚ) * 2 ^ p < n * 2 ^ q := by
  obtain ⟨hmlt, hp⟩ := hx
  obtain ⟨-, hq⟩ := hy
  have hfull : 4503599627370496 ≤ n := by omega
  have hmcast : (m : ℚ) < 2 ^ (53 : Int) := by
    norm_num
    exact_mod_cast hmlt
  have hncast : (2 : ℚ) ^ (52 : Int) ≤ n := by
    norm_num
    exact_mod_cast hfull
  calc (m : ℚ) * 2 ^ p < 2 ^ (53 : Int) * 2 ^ p := by
        exact mul_lt_mul_of_pos_right hmcast (by positivity)
    _ = 2 ^ (53 + p) := (zpow_add₀ (by norm_num) _ _).symm
    _ ≤ 2 ^ (52 + q) := zpow_le_zpow_right₀ (by norm_num) (by omega)
    _ = 2 ^ (52 : Int) * 2 ^ q := zpow_add₀ (by norm_num) _ _
    _ ≤ n * 2 ^ q := mul_le_mul_of_nonneg_right hncast (by positivity)

theorem compare_magnitudes {s t : Sign} {m n : Nat} {p q : Int} {hm : 0 < m} {hn : 0 < n}
    (hx : IsCanonical (.finite s m p hm)) (hy : IsCanonical (.finite t n q hn)) :
    (compare p q).then (compare m n) = compare ((m : ℚ) * 2 ^ p) (n * 2 ^ q) := by
  rcases lt_trichotomy p q with h | rfl | h
  · rw [compare_lt_iff_lt.mpr h, compare_lt_iff_lt.mpr (lt_of_exponent_lt hx hy h)]
    rfl
  · have hpos : (0 : ℚ) < 2 ^ p := by positivity
    rw [compare_eq_iff_eq.mpr rfl, Ordering.then]
    rcases lt_trichotomy m n with h | rfl | h
    · rw [compare_lt_iff_lt.mpr h, compare_lt_iff_lt.mpr]
      exact mul_lt_mul_of_pos_right (by exact_mod_cast h) hpos
    · rw [compare_eq_iff_eq.mpr rfl, compare_eq_iff_eq.mpr rfl]
    · rw [compare_gt_iff_gt.mpr h, compare_gt_iff_gt.mpr]
      exact mul_lt_mul_of_pos_right (by exact_mod_cast h) hpos
  · rw [compare_gt_iff_gt.mpr h, compare_gt_iff_gt.mpr (lt_of_exponent_lt hy hx h)]
    rfl

theorem compare_neg (a b : ℚ) : compare (-a) (-b) = (compare a b).swap := by
  rcases lt_trichotomy a b with h | rfl | h
  · rw [compare_lt_iff_lt.mpr h, compare_gt_iff_gt.mpr (neg_lt_neg h)]
    rfl
  · rw [compare_eq_iff_eq.mpr rfl, compare_eq_iff_eq.mpr rfl]
    rfl
  · rw [compare_gt_iff_gt.mpr h, compare_lt_iff_lt.mpr (neg_lt_neg h)]
    rfl

theorem compare_values (hx : value? x = some a) (hy : value? y = some b) :
    x.toModel.unpack.compare y.toModel.unpack = some (compare a b) := by
  cases hasParts hx with
  | zero hu ha =>
    cases hasParts hy with
    | zero hv hb => rw [hu, hv, ha, hb]; rfl
    | @finite t n q hn hv _ hb =>
      have hpos : (0 : ℚ) < n * 2 ^ q := by positivity
      rw [hu, hv, ha, hb]
      cases t
      · exact congrArg some (compare_gt_iff_gt.mpr (by simpa [Sign.apply] using hpos)).symm
      · exact congrArg some (compare_lt_iff_lt.mpr (by simpa [Sign.apply] using hpos)).symm
  | @finite s m p hm hu hcx ha =>
    cases hasParts hy with
    | zero hv hb =>
      have hpos : (0 : ℚ) < m * 2 ^ p := by positivity
      rw [hu, hv, ha, hb]
      cases s
      · exact congrArg some (compare_lt_iff_lt.mpr (by simpa [Sign.apply] using hpos)).symm
      · exact congrArg some (compare_gt_iff_gt.mpr (by simpa [Sign.apply] using hpos)).symm
    | @finite t n q hn hv hcy hb =>
      have hm' : (0 : ℚ) < m * 2 ^ p := by positivity
      have hn' : (0 : ℚ) < n * 2 ^ q := by positivity
      have hcompare := compare_magnitudes hcx hcy
      rw [hu, hv, ha, hb]
      cases s <;> cases t <;> refine congrArg some ?_ <;>
        simp only [Sign.apply, Int.cast_neg, Int.cast_natCast, neg_mul]
      · rw [hcompare, compare_neg]
      · exact (compare_lt_iff_lt.mpr (by linarith)).symm
      · exact (compare_gt_iff_gt.mpr (by linarith)).symm
      · exact hcompare

theorem lt_iff_value (hx : value? x = some a) (hy : value? y = some b) : x < y ↔ a < b := by
  change decide (x.toModel.unpack.lt y.toModel.unpack = true) = true ↔ _
  rw [decide_eq_true_iff, UnpackedFloat.lt, compare_values hx hy]
  exact (beq_iff_eq.trans Option.some_inj).trans compare_lt_iff_lt

theorem beq_iff_value (hx : value? x = some a) (hy : value? y = some b) :
    (x == y) = true ↔ a = b := by
  change (x.toModel.unpack.compare y.toModel.unpack == some .eq) = true ↔ _
  rw [compare_values hx hy]
  exact (beq_iff_eq.trans Option.some_inj).trans compare_eq_iff_eq

theorem le_iff_value (hx : value? x = some a) (hy : value? y = some b) : x ≤ y ↔ a ≤ b := by
  change decide (x.toModel.unpack.le y.toModel.unpack = true) = true ↔ _
  rw [decide_eq_true_iff, UnpackedFloat.le, compare_values hx hy, Option.any_some]
  exact Ordering.isLE_iff_ne_gt.trans (compare_gt_iff_gt.not.trans not_lt)

theorem isNaN_of_value? (h : value? x = some a) : x.isNaN = false := by
  change x.toModel.unpack.isNaN = false
  cases hasParts h with
  | zero hu => rw [hu]; rfl
  | finite hu => rw [hu]; rfl

theorem isFinite_eq_isSome (x : Float) : x.isFinite = (value? x).isSome := by
  change x.toModel.unpack.isFinite = _
  rw [value?_eq_parts]
  cases x.toModel.unpack <;> rfl

/-! ### A value has one number -/

theorem unpackExponent_ne_of_isFinite (h : x.toModel.unpack.isFinite = true) :
    @unpackExponent Format.binary64 x.toModel.toBits.toBitVec ≠ -1#11 := by
  intro hexponent
  change (UnpackedFloat.unpack Format.binary64 x.toModel.toBits.toBitVec).isFinite = true at h
  unfold UnpackedFloat.unpack at h
  rw [if_pos hexponent] at h
  split at h <;> cases h

theorem eq_of_unpack (h : x.toModel.unpack = y.toModel.unpack)
    (hfinite : x.toModel.unpack.isFinite = true) : x = y := by
  have hx := pack_unpack _ (unpackExponent_ne_of_isFinite hfinite)
  have hy := pack_unpack _ (unpackExponent_ne_of_isFinite (h ▸ hfinite))
  obtain ⟨⟨bits, hvalid⟩⟩ := x
  obtain ⟨⟨bits', hvalid'⟩⟩ := y
  obtain rfl : bits = bits' := UInt64.eq_of_toBitVec_eq
    (hx.symm.trans ((congrArg (UnpackedFloat.pack Format.binary64) h).trans hy))
  rfl

/-- Two numbers with the same value are the same, but for the sign of zero. -/
theorem eq_of_value? (hx : value? x = some a) (hy : value? y = some a) (h : a ≠ 0) : x = y := by
  cases hasParts hx with
  | zero _ ha => exact absurd ha h
  | @finite s m p hm hu hcx ha =>
    cases hasParts hy with
    | zero _ hb => exact absurd hb h
    | @finite t n q hn hv hcy hb =>
      have hm' : (0 : ℚ) < m * 2 ^ p := by positivity
      have hn' : (0 : ℚ) < n * 2 ^ q := by positivity
      have hvalue := ha.symm.trans hb
      have hparts : s = t ∧ (m : ℚ) * 2 ^ p = n * 2 ^ q := by
        cases s <;> cases t <;>
          simp only [Sign.apply, Int.cast_neg, Int.cast_natCast, neg_mul] at hvalue
        · exact ⟨rfl, neg_injective hvalue⟩
        · linarith
        · linarith
        · exact ⟨rfl, hvalue⟩
      obtain ⟨rfl, hmagnitude⟩ := hparts
      have hcompare := compare_magnitudes hcx hcy
      rw [compare_eq_iff_eq.mpr hmagnitude, Ordering.then_eq_eq, compare_eq_iff_eq,
        compare_eq_iff_eq] at hcompare
      obtain ⟨rfl, rfl⟩ := hcompare
      exact eq_of_unpack (hu.trans hv.symm) (by rw [hu]; rfl)

end ProtoScript.Number
