import ProtoScript.Number.Binary64
/-!
# Exact numbers

A number can be rebuilt from its bits, so what `Binary64.pack` is given can be read off the number
that it makes.  `ofNat` and `ofInt` are the numbers of integers; below `2 ^ 53` in magnitude nothing
is lost.
-/

namespace ProtoScript.Number

open Float.Model Float.Model.UnpackedFloat

private theorem toBitVec_ofBitVec (b : BitVec 1) : (Sign.ofBitVec b).toBitVec = b := by
  unfold Sign.ofBitVec
  split
  · next h => rw [h]; rfl
  · next h =>
    have hlt := b.isLt
    have hne : b.toNat ≠ 0 := fun hz => h (BitVec.eq_of_toNat_eq hz)
    exact BitVec.eq_of_toNat_eq (show 1 = b.toNat by omega)

private theorem fields_append (b : BitVec 64) :
    (b.extractLsb 63 63 ++ b.extractLsb 62 52 ++ b.extractLsb 51 0 : BitVec (1 + 11 + 52)) = b := by
  apply BitVec.eq_of_getLsbD_eq
  intro i hi
  simp only [BitVec.getLsbD_append, BitVec.getLsbD_extractLsb]
  rcases Nat.lt_or_ge i 52 with h | h
  · simp [h]
  · rcases Nat.lt_or_ge i 63 with h' | h'
    · have e : 52 + (i - 52) = i := by omega
      simp [Nat.not_lt.2 h, e, show i - 52 < 11 by omega]
    · obtain rfl : i = 63 := by omega
      simp

private theorem packComponents_fields (b : BitVec 64) :
    packComponents Format.binary64 (Sign.ofBitVec (@unpackSign Format.binary64 b))
      (@unpackExponent Format.binary64 b) (@unpackMantissa Format.binary64 b) = b := by
  rw [packComponents, toBitVec_ofBitVec]
  exact fields_append b

theorem pack_finite (s : Sign) (m : Nat) (e : Int) (hpos : 0 < m) :
    UnpackedFloat.pack Format.binary64 (.finite s m e hpos) =
      if 2048 ≤ (e + 1023 + 52).toNat + 1 then packedInfinity Format.binary64 s
      else if m.log2 + 1 = 53 then
        packComponents Format.binary64 s (BitVec.ofNat 11 (e + 1023 + 52).toNat) (BitVec.ofNat 52 m)
      else packComponents Format.binary64 s 0#11 (BitVec.ofNat 52 m) := rfl

private theorem pack_subnormal (s : Sign) (e : Int) (m : BitVec 52) (he : e = -1074)
    (hpos : 0 < m.toNat) :
    UnpackedFloat.pack Format.binary64 (.finite s m.toNat e hpos) =
      packComponents Format.binary64 s 0#11 m := by
  have hlog : m.toNat.log2 < 52 := (Nat.log2_lt (by omega)).2 m.isLt
  rw [pack_finite, if_neg (by omega), if_neg (by omega)]
  congr 1
  exact BitVec.eq_of_toNat_eq (by simp)

theorem toNat_one_append (m : BitVec 52) :
    (1#1 ++ m).toNat = 4503599627370496 + m.toNat := by
  have hm := m.isLt
  rw [BitVec.toNat_append, ← Nat.shiftLeft_add_eq_or_of_lt hm]
  rfl

private theorem pack_normal (s : Sign) (e : BitVec 11) (m : BitVec 52) (h : e ≠ -1#11)
    (hpos : 0 < (1#1 ++ m).toNat) :
    UnpackedFloat.pack Format.binary64 (.finite s (1#1 ++ m).toNat (e.toNat - 1075) hpos) =
      packComponents Format.binary64 s e m := by
  have hm : m.toNat < 4503599627370496 := m.isLt
  have he : e.toNat < 2048 := e.isLt
  have hne : e.toNat ≠ 2047 := fun hz => h (BitVec.eq_of_toNat_eq (hz.trans rfl))
  have hv := toNat_one_append m
  have hlog : (1#1 ++ m).toNat.log2 = 52 := by
    rw [hv]
    exact (Nat.log2_eq_iff (by omega)).2 ⟨by omega, by omega⟩
  rw [pack_finite, if_neg (by omega), if_pos (by omega)]
  congr 1
  · exact BitVec.eq_of_toNat_eq (by simp; omega)
  · apply BitVec.eq_of_toNat_eq
    rw [BitVec.toNat_ofNat, hv]
    show (4503599627370496 + m.toNat) % 4503599627370496 = m.toNat
    omega

theorem pack_unpack (b : BitVec 64) (h : @unpackExponent Format.binary64 b ≠ -1#11) :
    UnpackedFloat.pack Format.binary64 (UnpackedFloat.unpack Format.binary64 b) = b := by
  have hp := packComponents_fields b
  unfold UnpackedFloat.unpack
  rw [if_neg h]
  by_cases h0 : @unpackExponent Format.binary64 b = 0#11
  · rw [h0] at hp
    rw [if_pos h0]
    by_cases hm : @unpackMantissa Format.binary64 b = 0#52
    · rw [hm] at hp
      rw [dif_pos hm]
      exact hp
    · rw [dif_neg hm]
      refine (pack_subnormal _ _ _ ?_ _).trans hp
      rw [h0]
      rfl
  · rw [if_neg h0]
    exact (pack_normal _ _ _ h _).trans hp

theorem toBits_ofBits {b : UInt64} (h : b.toNat / Binary64.hiddenBit % 2048 ≠ 2047) :
    (Float.ofBits b).toBits = b := by
  have hexp : @unpackExponent Format.binary64 b.toBitVec ≠ -1#11 := by
    intro he
    apply h
    have hv := congrArg BitVec.toNat he
    have hf : (@unpackExponent Format.binary64 b.toBitVec).toNat =
        b.toNat / Binary64.hiddenBit % 2048 := by
      show b.toNat >>> 52 % 2048 = _
      rw [Nat.shiftRight_eq_div_pow]
      rfl
    rw [hf] at hv
    exact hv
  show UInt64.ofBitVec (UnpackedFloat.pack Format.binary64
    (UnpackedFloat.unpack Format.binary64 b.toBitVec)) = b
  rw [pack_unpack _ hexp]

namespace Binary64

private theorem scaled_lt {mantissa shift : Nat} (h : mantissa ≠ 0)
    (hm : mantissa < 9007199254740992) (hs : shift ≤ 52 - mantissa.log2) :
    mantissa * Nat.pow 2 shift < 9007199254740992 := by
  have hlog : mantissa.log2 < 53 := (Nat.log2_lt h).2 hm
  have hpow : Nat.pow 2 (mantissa.log2 + 1 + shift) ≤ 9007199254740992 :=
    Nat.pow_le_pow_right (show 0 < 2 by omega) (show mantissa.log2 + 1 + shift ≤ 53 by omega)
  refine Nat.lt_of_lt_of_le ?_ hpow
  rw [show Nat.pow 2 (mantissa.log2 + 1 + shift) = Nat.pow 2 (mantissa.log2 + 1) * Nat.pow 2 shift
    from Nat.pow_add 2 _ _]
  exact Nat.mul_lt_mul_of_pos_right Nat.lt_log2_self (Nat.pow_pos (show 0 < 2 by omega))

theorem le_scaled {mantissa shift : Nat} (h : mantissa ≠ 0)
    (hs : 52 - mantissa.log2 ≤ shift) (hm : mantissa < 9007199254740992) :
    hiddenBit ≤ mantissa * Nat.pow 2 shift := by
  have hlog : mantissa.log2 < 53 := (Nat.log2_lt h).2 hm
  have hpow : hiddenBit ≤ Nat.pow 2 (mantissa.log2 + shift) :=
    Nat.pow_le_pow_right (show 0 < 2 by omega) (show 52 ≤ mantissa.log2 + shift by omega)
  refine Nat.le_trans hpow ?_
  rw [show Nat.pow 2 (mantissa.log2 + shift) = Nat.pow 2 mantissa.log2 * Nat.pow 2 shift
    from Nat.pow_add 2 _ _]
  exact Nat.mul_le_mul_right _ (Nat.log2_self_le h)

/-- The number whose bits are a sign, a biased exponent that is not the greatest and a fraction. -/
private theorem ofFloat_ofBits (negative : Bool) {biased fraction : Nat} (hb : biased < 2047)
    (hf : fraction < hiddenBit) :
    ofFloat (Float.ofBits (UInt64.ofNat
      ((if negative then signBit else 0) + (biased * hiddenBit + fraction)))) =
      if biased = 0 then finite negative fraction minExponent
      else finite negative (hiddenBit + fraction) (biased - 1075) := by
  generalize hw : (if negative then signBit else 0) + (biased * hiddenBit + fraction) = word
  simp only [hiddenBit, signBit] at hf hw ⊢
  have hword : word < 18446744073709551616 := by subst hw; split <;> omega
  have hto : (UInt64.ofNat word).toNat = word := by
    rw [UInt64.toNat_ofNat']
    exact Nat.mod_eq_of_lt hword
  have hexp : word / 4503599627370496 % 2048 = biased := by subst hw; split <;> omega
  have hfrac : word % 4503599627370496 = fraction := by subst hw; split <;> omega
  have hneg : decide (9223372036854775808 ≤ word) = negative := by
    subst hw
    cases negative
    · exact decide_eq_false (by rw [if_neg Bool.false_ne_true]; omega)
    · exact decide_eq_true (by rw [if_pos rfl]; omega)
  have hbits : (Float.ofBits (UInt64.ofNat word)).toBits = UInt64.ofNat word :=
    toBits_ofBits (by
      simp only [hiddenBit]
      rw [hto, hexp]
      omega)
  unfold ofFloat
  simp only [hiddenBit, signBit, hbits, hto, hexp, hfrac, hneg]
  rw [if_neg (by omega)]

/-- What a number was packed from can be read off it: the mantissa moves up to its full length as
far as the exponent allows. -/
theorem ofFloat_pack (negative : Bool) {mantissa : Nat} {exponent : Int} (h : mantissa ≠ 0)
    (hm : mantissa < 9007199254740992) (hlow : minExponent ≤ exponent) (hhigh : exponent ≤ 971) :
    ofFloat (pack negative mantissa exponent) =
      finite negative
        (mantissa * Nat.pow 2 (min (52 - mantissa.log2) (exponent - minExponent).toNat))
        (exponent - (min (52 - mantissa.log2) (exponent - minExponent).toNat : Nat)) := by
  have hmin : minExponent = -1074 := rfl
  have hbit : hiddenBit = 4503599627370496 := rfl
  have hlog : mantissa.log2 < 53 := (Nat.log2_lt h).2 hm
  unfold pack magnitudeBits
  simp only [if_neg h]
  generalize hs : min (52 - mantissa.log2) (exponent - minExponent).toNat = shift
  have hlt : mantissa * Nat.pow 2 shift < 9007199254740992 := scaled_lt h hm (by omega)
  have hle : 52 - mantissa.log2 ≤ shift → hiddenBit ≤ mantissa * Nat.pow 2 shift :=
    fun hc => le_scaled h hc hm
  generalize mantissa * Nat.pow 2 shift = scaled at hlt hle ⊢
  rcases Nat.lt_or_ge scaled hiddenBit with hsmall | hlarge
  · have hshift : shift = (exponent - minExponent).toNat := by omega
    have hof := ofFloat_ofBits negative (show 0 < 2047 by omega) hsmall
    rw [Nat.zero_mul, Nat.zero_add, if_pos rfl] at hof
    rw [if_pos hsmall, hof]
    congr 1
    omega
  · rw [if_neg (Nat.not_lt.2 hlarge), ofFloat_ofBits negative (by omega) (by omega),
      if_neg (by omega), show hiddenBit + (scaled - hiddenBit) = scaled by omega,
      show ((exponent - shift + 1075).toNat : Int) - 1075 = exponent - shift by omega]

theorem ofFloat_pack_zero (negative : Bool) (exponent : Int) :
    ofFloat (pack negative 0 exponent) = finite negative 0 minExponent := by
  have hof := ofFloat_ofBits negative (show 0 < 2047 by omega) (show 0 < hiddenBit by decide)
  rw [Nat.zero_mul, Nat.zero_add, if_pos rfl] at hof
  unfold pack
  rw [if_pos rfl, hof]

private theorem floorMagnitude_zero (exponent : Int) : floorMagnitude 0 exponent = 0 := by
  unfold floorMagnitude
  split
  · exact Nat.zero_mul _
  · exact Nat.zero_div _

private theorem floorMagnitude_lift (mantissa shift exponent : Nat) :
    floorMagnitude (mantissa * Nat.pow 2 shift) ((exponent : Int) - (shift : Int)) =
      mantissa * Nat.pow 2 exponent := by
  have hadd (a b : Nat) : Nat.pow 2 (a + b) = Nat.pow 2 a * Nat.pow 2 b := Nat.pow_add 2 a b
  unfold floorMagnitude
  split
  · rw [Nat.mul_assoc, ← hadd, show shift + ((exponent : Int) - shift).toNat = exponent by omega]
  · have hpos : 0 < Nat.pow 2 (shift - exponent) := Nat.pow_pos (show 0 < 2 by omega)
    rw [show (-((exponent : Int) - shift)).toNat = shift - exponent by omega,
      show shift = exponent + (shift - exponent) by omega, hadd, ← Nat.mul_assoc,
      show exponent + (shift - exponent) - exponent = shift - exponent by omega]
    exact Nat.mul_div_cancel _ hpos

end Binary64

/-- The number `n * 2 ^ exponent`, for an integer below `2 ^ 53` in magnitude and an exponent that
is at most 971. -/
def scaled (n : Int) (exponent : Nat) : Float :=
  Binary64.pack (decide (n < 0)) n.natAbs exponent

def ofInt (n : Int) : Float := scaled n 0

/-- The number nearest to a natural number; below `2 ^ 53` it is the natural number itself. -/
def ofNat (n : Nat) : Float := if n < 9007199254740992 then ofInt n else Float.ofNat n

theorem integerPart?_scaled {n : Int} {exponent : Nat} (h : n.natAbs < 9007199254740992)
    (he : exponent ≤ 971) : integerPart? (scaled n exponent) = some (n * Nat.pow 2 exponent) := by
  have hmin : Binary64.minExponent = -1074 := rfl
  unfold integerPart? scaled
  by_cases hz : n = 0
  · subst hz
    rw [Int.natAbs_zero, Binary64.ofFloat_pack_zero, Int.zero_mul]
    simp only [Binary64.floorMagnitude_zero, Int.natCast_zero, Int.neg_zero, ite_self]
  · rw [Binary64.ofFloat_pack _ (by omega) h (by omega) (by omega)]
    simp only [Binary64.floorMagnitude_lift, decide_eq_true_eq, Option.some.injEq]
    split
    · rw [Int.natCast_mul, ← Int.neg_mul, show -(n.natAbs : Int) = n by omega]
    · rw [Int.natCast_mul, show (n.natAbs : Int) = n by omega]

theorem integerPart?_ofInt {n : Int} (h : n.natAbs < 9007199254740992) :
    integerPart? (ofInt n) = some n := by
  have hs := integerPart?_scaled h (Nat.zero_le 971)
  rwa [show n * (Nat.pow 2 0 : Nat) = n from Int.mul_one n] at hs

private theorem isInteger_ofInt {n : Int} (h : n.natAbs < 9007199254740992) :
    isInteger (ofInt n) = true := by
  have hmin : Binary64.minExponent = -1074 := rfl
  unfold isInteger ofInt scaled
  by_cases hz : n = 0
  · subst hz
    rw [Int.natAbs_zero, Binary64.ofFloat_pack_zero]
    simp only [Nat.zero_mod, beq_self_eq_true, Bool.or_true]
  · rw [Binary64.ofFloat_pack _ (by omega) h (by omega) (by omega)]
    generalize min (52 - n.natAbs.log2) ((0 : Nat) - Binary64.minExponent).toNat = shift
    simp only [show (-(((0 : Nat) : Int) - (shift : Int))).toNat = shift by omega,
      Nat.mul_mod_left, beq_self_eq_true, Bool.or_true]

theorem integer?_ofInt {n : Int} (h : n.natAbs < 9007199254740992) :
    integer? (ofInt n) = some n := by
  unfold integer?
  rw [if_pos (isInteger_ofInt h), integerPart?_ofInt h]

theorem integer?_ofNat {n : Nat} (h : n < 9007199254740992) : integer? (ofNat n) = some n := by
  unfold ofNat
  rw [if_pos h]
  exact integer?_ofInt h

end ProtoScript.Number
