import Mathlib.Data.Int.Bitwise
import ProtoScript.Number.Radix
import ProtoScript.Proofs.Values.Integers
/-!
# Bitwise operators on exact values

The bitwise operators are functions of the whole parts of their operands modulo `2 ^ 32`.  The words
in between are not seen: the results are stated on integers, and every one of them is exact.
-/

namespace ProtoScript.Number

variable {x : Float}

/-! ### Integers that numbers stand for -/

/-- The whole part of a number; zero for an infinity and for what is not a number. -/
def integerOf (x : Float) : ℤ := ((value? x).map wholePart).getD 0

/-- The two's-complement reading of the last 32 bits of an integer. -/
def lastInt32 (n : ℤ) : ℤ :=
  if n % 4294967296 < 2147483648 then n % 4294967296 else n % 4294967296 - 4294967296

def unsignedValue (x : Float) : ℤ := integerOf x % 4294967296

def signedValue (x : Float) : ℤ := lastInt32 (integerOf x)

def shiftCount (y : Float) : Nat := (unsignedValue y % 32).toNat

theorem integerOf_intCast {n : ℤ} (h : value? x = some (n : ℚ)) : integerOf x = n := by
  rw [integerOf, h, Option.map_some, wholePart_intCast]
  rfl

theorem lastInt32_eq_bmod (n : ℤ) : lastInt32 n = n.bmod 4294967296 := by
  rw [lastInt32, Int.bmod_def]
  rfl

/-! ### Words -/

theorem value?_wordCount : value? wordCount = some ((4294967296 : ℤ) : ℚ) := by
  have hread : Binary64.ofFloat wordCount = .finite false 4503599627370496 (-20) := by
    decide +kernel
  rw [value?, hread, Binary64.value?]
  norm_num

theorem value?_euclideanRemainder {i : ℤ} (h : value? x = some (i : ℚ)) :
    value? (euclideanRemainder x wordCount) = some ((i % 4294967296 : ℤ) : ℚ) := by
  have hremainder := value?_remainder_intCast h value?_wordCount (by decide)
  have hmod := Int.emod_eq_tmod (a := i) (b := 4294967296)
  have hlow := Int.emod_nonneg i (show (4294967296 : ℤ) ≠ 0 by decide)
  have hhigh := Int.emod_lt_of_pos i (show (0 : ℤ) < 4294967296 by decide)
  generalize i.tmod 4294967296 = r at *
  generalize i % 4294967296 = u at *
  rw [euclideanRemainder]
  split
  · next hlt =>
    have hneg : r < 0 := by exact_mod_cast (lt_iff_value hremainder value?_zero).mp hlt
    have hsum : (r : ℚ) + |((4294967296 : ℤ) : ℚ)| = (u : ℤ) := by
      have : r + 4294967296 = u := by
        split at hmod
        · omega
        · rw [hmod]
          rfl
      rw [← this]
      push_cast
      norm_num
    rw [← hsum]
    refine value?_add hremainder (value?_abs value?_wordCount) ?_
    rw [hsum]
    exact isRepresentable_intCast (by omega)
  · next hlt =>
    have hnonneg : 0 ≤ r := by
      have := mt (lt_iff_value hremainder value?_zero).mpr hlt
      exact_mod_cast not_lt.mp this
    have heq : r = u := by
      split at hmod
      · omega
      · rw [show ((4294967296 : ℤ).natAbs : ℤ) = 4294967296 by rfl] at hmod
        omega
    rw [← heq]
    exact hremainder

theorem toWord_eq (x : Float) : toWord x = BitVec.ofInt 32 (integerOf x) := by
  rw [toWord, isFinite_eq_isSome]
  cases h : value? x with
  | none =>
    rw [integerOf, h]
    rfl
  | some a =>
    rw [integerOf, h]
    have hremainder := value?_euclideanRemainder (value?_truncate h)
    have hlow := Int.emod_nonneg (wholePart a) (show (4294967296 : ℤ) ≠ 0 by decide)
    have hhigh := Int.emod_lt_of_pos (wholePart a) (show (0 : ℤ) < 4294967296 by decide)
    apply BitVec.eq_of_toNat_eq
    rw [BitVec.toNat_ofInt]
    refine (toNat_toUInt32 hremainder (by exact_mod_cast hlow) (by exact_mod_cast hhigh)).trans ?_
    rw [← Int.floor_toNat, Int.floor_intCast]
    rfl

/-! ### The words of numbers as integers -/

theorem toNat_toWord (x : Float) : ((toWord x).toNat : ℤ) = unsignedValue x := by
  rw [toWord_eq, BitVec.toNat_ofInt, unsignedValue]
  exact Int.toNat_of_nonneg (Int.emod_nonneg _ (by decide))

theorem toInt_toWord (x : Float) : (toWord x).toInt = signedValue x := by
  rw [toWord_eq, BitVec.toInt_ofInt, signedValue, lastInt32_eq_bmod]

theorem shiftDistance_eq (y : Float) : shiftDistance y = shiftCount y := by
  have hmask : (toWord y).toNat &&& 31 = (toWord y).toNat % 32 :=
    Nat.and_two_pow_sub_one_eq_mod _ 5
  have hword := toNat_toWord y
  rw [shiftDistance, BitVec.toNat_and, shiftCount]
  change (toWord y).toNat &&& 31 = _
  omega

theorem shiftCount_lt (y : Float) : shiftCount y < 32 := by
  rw [shiftCount]
  omega

theorem signedValue_bounds (x : Float) :
    -2147483648 ≤ signedValue x ∧ signedValue x < 2147483648 := by
  rw [signedValue, lastInt32]
  split <;> omega

/-! ### The bits of an integer -/

theorem testBit_toInt {w : Nat} (b : BitVec w) (k : Nat) :
    b.toInt.testBit k = if k < w then b.getLsbD k else b.msb := by
  rw [BitVec.toInt_eq_msb_cond]
  cases hsign : b.msb
  · change (b.toNat : ℤ).testBit k = _
    split
    · exact BitVec.testBit_toNat b
    · next hk => exact (BitVec.testBit_toNat b).trans (b.getLsbD_of_ge k (by omega))
  · have hnot : ((b.toNat : ℤ) - (2 ^ w : Nat)) = Int.negSucc (~~~b).toNat := by
      have := b.isLt
      rw [Int.negSucc_eq, BitVec.toNat_not]
      omega
    change ((b.toNat : ℤ) - (2 ^ w : Nat)).testBit k = _
    rw [hnot]
    change (!(~~~b).toNat.testBit k) = _
    rw [BitVec.testBit_toNat, BitVec.getLsbD_not]
    split
    · next hk => simp [hk]
    · next hk => simp [hk]

theorem eq_of_testBit {m n : ℤ} (h : ∀ k, m.testBit k = n.testBit k) : m = n := by
  -- Behind the highest bit of either, a negative integer has ones and the others have zeros.
  have hsign (p q : Nat) : ¬ ∀ k, (Int.ofNat p).testBit k = (Int.negSucc q).testBit k := by
    intro hall
    have hzero {n : Nat} (hn : n ≤ p + q) : n.testBit (p + q) = false :=
      Nat.testBit_lt_two_pow
        (Nat.lt_two_pow_self.trans_le (Nat.pow_le_pow_right (by decide) hn))
    have hbit := hall (p + q)
    change p.testBit (p + q) = !q.testBit (p + q) at hbit
    rw [hzero (Nat.le_add_right p q), hzero (Nat.le_add_left q p)] at hbit
    cases hbit
  cases m with
  | ofNat p =>
    cases n with
    | ofNat q => exact congrArg Int.ofNat (Nat.eq_of_testBit_eq h)
    | negSucc q => exact absurd h (hsign p q)
  | negSucc p =>
    cases n with
    | ofNat q => exact absurd (fun k => (h k).symm) (hsign q p)
    | negSucc q =>
      exact congrArg Int.negSucc (Nat.eq_of_testBit_eq fun k => Bool.not_inj (h k))

theorem toInt_and {w : Nat} (b c : BitVec w) : (b &&& c).toInt = Int.land b.toInt c.toInt := by
  refine eq_of_testBit fun k => ?_
  rw [Int.testBit_land, testBit_toInt, testBit_toInt, testBit_toInt, BitVec.getLsbD_and,
    BitVec.msb_and]
  split <;> rfl

theorem toInt_or {w : Nat} (b c : BitVec w) : (b ||| c).toInt = Int.lor b.toInt c.toInt := by
  refine eq_of_testBit fun k => ?_
  rw [Int.testBit_lor, testBit_toInt, testBit_toInt, testBit_toInt, BitVec.getLsbD_or,
    BitVec.msb_or]
  split <;> rfl

theorem toInt_xor {w : Nat} (b c : BitVec w) : (b ^^^ c).toInt = Int.xor b.toInt c.toInt := by
  refine eq_of_testBit fun k => ?_
  rw [Int.testBit_lxor, testBit_toInt, testBit_toInt, testBit_toInt, BitVec.getLsbD_xor,
    BitVec.msb_xor]
  split <;> rfl

theorem toInt_not {w : Nat} (b : BitVec (w + 1)) : (~~~b).toInt = Int.lnot b.toInt := by
  refine eq_of_testBit fun k => ?_
  rw [Int.testBit_lnot, testBit_toInt, testBit_toInt, BitVec.getLsbD_not, BitVec.msb_not]
  split
  · next hk => simp [hk]
  · simp

theorem value?_ofInt_toInt (b : BitVec 32) : value? (ofInt b.toInt) = some (b.toInt : ℚ) := by
  have hlow := BitVec.le_toInt b
  have hhigh := BitVec.toInt_lt (x := b)
  exact value?_ofInt (by omega)

/-! ### Shifts -/

theorem value?_leftShift (x y : Float) :
    value? (leftShift x y) = some ((signedValue x * 2 ^ shiftCount y : ℤ) : ℚ) := by
  have hcount : (2 : ℤ) ^ shiftCount y ≤ 2147483648 :=
    pow_le_pow_right₀ (a := (2 : ℤ)) (by decide) (Nat.le_of_lt_succ (shiftCount_lt y))
  have hpow : (0 : ℤ) < 2 ^ shiftCount y := by positivity
  obtain ⟨hlow, hhigh⟩ := signedValue_bounds x
  have hfits : ((toWord x).signExtend 64 <<< shiftDistance y).toInt =
      signedValue x * 2 ^ shiftCount y := by
    have htwo : BitVec.twoPow 64 (shiftCount y) = BitVec.ofInt 64 (2 ^ shiftCount y) := by
      apply BitVec.eq_of_toNat_eq
      rw [BitVec.toNat_twoPow, BitVec.toNat_ofInt]
      norm_cast
    rw [shiftDistance_eq, BitVec.shiftLeft_eq_mul_twoPow, htwo, BitVec.signExtend, toInt_toWord,
      ← BitVec.ofInt_mul, BitVec.toInt_ofInt]
    refine Int.bmod_eq_of_le_mul_two ?_ ?_ <;> push_cast <;> nlinarith
  have hrepresentable : IsRepresentable (signedValue x * 2 ^ shiftCount y).natAbs := by
    refine ⟨(signedValue x).natAbs, shiftCount y, by omega, by omega, ?_, ?_⟩
    · have := shiftCount_lt y
      omega
    · rw [Int.natAbs_mul, Int.natAbs_pow, zpow_natCast]
      push_cast
      rfl
  rw [leftShift, hfits, value?_float_ofInt hrepresentable]

theorem value?_signedRightShift (x y : Float) :
    value? (signedRightShift x y) = some (⌊(signedValue x : ℚ) / 2 ^ shiftCount y⌋ : ℚ) := by
  have hfloor : ⌊(signedValue x : ℚ) / 2 ^ shiftCount y⌋ =
      ((toWord x).sshiftRight (shiftDistance y)).toInt := by
    rw [BitVec.toInt_sshiftRight, toInt_toWord, shiftDistance_eq, Int.shiftRight_eq_div_pow]
    exact_mod_cast Rat.floor_intCast_div_natCast (signedValue x) (2 ^ shiftCount y)
  rw [signedRightShift, value?_ofInt_toInt, hfloor]

theorem value?_unsignedRightShift (x y : Float) :
    value? (unsignedRightShift x y) = some (⌊(unsignedValue x : ℚ) / 2 ^ shiftCount y⌋ : ℚ) := by
  have hfloor : ⌊(unsignedValue x : ℚ) / 2 ^ shiftCount y⌋ =
      ((toWord x >>> shiftDistance y).toNat : ℤ) := by
    rw [BitVec.toNat_ushiftRight, shiftDistance_eq, Nat.shiftRight_eq_div_pow]
    rw [← toNat_toWord]
    exact_mod_cast Rat.floor_intCast_div_natCast (toWord x).toNat (2 ^ shiftCount y)
  have hlt := (toWord x >>> shiftDistance y).isLt
  rw [unsignedRightShift, value?_ofNat (by omega), hfloor]
  rfl

/-! ### The operators -/

/-- The conversions to 32 bits and the bitwise operators, as functions of the whole parts of their
operands.  Left shift does not wrap around; its last 32 bits are those of a shift that does. -/
theorem bitwise_operators_exact (x y : Float) :
    (toUInt32 x : ℤ) = unsignedValue x ∧ toInt32 x = signedValue x ∧
    value? (leftShift x y) = some ((signedValue x * 2 ^ shiftCount y : ℤ) : ℚ) ∧
    value? (signedRightShift x y) = some (⌊(signedValue x : ℚ) / 2 ^ shiftCount y⌋ : ℚ) ∧
    value? (unsignedRightShift x y) = some (⌊(unsignedValue x : ℚ) / 2 ^ shiftCount y⌋ : ℚ) ∧
    value? (bitwiseAnd x y) = some (Int.land (signedValue x) (signedValue y) : ℚ) ∧
    value? (bitwiseOr x y) = some (Int.lor (signedValue x) (signedValue y) : ℚ) ∧
    value? (bitwiseXor x y) = some (Int.xor (signedValue x) (signedValue y) : ℚ) ∧
    value? (bitwiseNot x) = some (Int.lnot (signedValue x) : ℚ) ∧
    toInt32 (leftShift x y) = lastInt32 (signedValue x * 2 ^ shiftCount y) := by
  refine ⟨toNat_toWord x, toInt_toWord x, value?_leftShift x y, value?_signedRightShift x y,
    value?_unsignedRightShift x y, ?_, ?_, ?_, ?_, ?_⟩
  · rw [bitwiseAnd, value?_ofInt_toInt, toInt_and, toInt_toWord, toInt_toWord]
  · rw [bitwiseOr, value?_ofInt_toInt, toInt_or, toInt_toWord, toInt_toWord]
  · rw [bitwiseXor, value?_ofInt_toInt, toInt_xor, toInt_toWord, toInt_toWord]
  · rw [bitwiseNot, value?_ofInt_toInt, toInt_not, toInt_toWord]
  · rw [toInt32, toInt_toWord, signedValue, integerOf_intCast (value?_leftShift x y)]

end ProtoScript.Number
