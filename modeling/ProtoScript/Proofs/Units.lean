import Mathlib.Data.List.Basic
import Mathlib.Data.String.Basic
import ProtoScript.Evaluation.Engine
/-!
# Texts and their code units

A character is one code unit, or two if it lies above U+FFFF, and the units of a text are read back
as its characters.  Any sequence of units can be read, but only one in which every surrogate has its
partner is written back as it was: a surrogate without one is read as U+FFFD.  Cuts and joins know
nothing of pairs, so what is cut apart anywhere can be put together again.
-/

namespace ProtoScript.Text

namespace Utf16

variable {u v : UInt16} {us : List UInt16}

/-! ### Single characters -/

theorem isHighSurrogate_iff : isHighSurrogate u = true ↔ 0xD800 ≤ u.toNat ∧ u.toNat ≤ 0xDBFF := by
  rw [isHighSurrogate, Bool.and_eq_true, decide_eq_true_eq, decide_eq_true_eq]

theorem isLowSurrogate_iff : isLowSurrogate u = true ↔ 0xDC00 ≤ u.toNat ∧ u.toNat ≤ 0xDFFF := by
  rw [isLowSurrogate, Bool.and_eq_true, decide_eq_true_eq, decide_eq_true_eq]

theorem isHighSurrogate_of_low (h : isLowSurrogate u = true) : isHighSurrogate u = false := by
  rw [isLowSurrogate_iff] at h
  rw [← Bool.not_eq_true, isHighSurrogate_iff]
  omega

def IsPlain (u : UInt16) : Prop := isHighSurrogate u = false ∧ isLowSurrogate u = false

theorem isPlain_iff : IsPlain u ↔ u.toNat < 0xD800 ∨ 0xDFFF < u.toNat := by
  rw [IsPlain, ← Bool.not_eq_true, ← Bool.not_eq_true, isHighSurrogate_iff, isLowSurrogate_iff]
  omega

theorem encodeChar_cases (c : Char) :
    (c.toNat ≤ 0xFFFF ∧ ∃ u, encodeChar c = [u] ∧ IsPlain u ∧ unitChar u = c) ∨
    (0xFFFF < c.toNat ∧ ∃ u v, encodeChar c = [u, v] ∧ isHighSurrogate u = true ∧
      isLowSurrogate v = true ∧ pairChar u v = c) := by
  have hvalid : c.toNat < 0xD800 ∨ 0xDFFF < c.toNat ∧ c.toNat < 0x110000 := c.valid
  have htoNat {n : Nat} (hn : n < 0x10000) : (UInt16.ofNat n).toNat = n :=
    UInt16.toNat_ofNat_of_lt' hn
  unfold encodeChar
  dsimp only
  split
  · next hlt =>
    have hplain : IsPlain (.ofNat c.toNat) := isPlain_iff.mpr (by rw [htoNat hlt]; omega)
    refine .inl ⟨by omega, _, rfl, hplain, ?_⟩
    rw [unitChar, hplain.1, hplain.2, htoNat hlt]
    exact c.ofNat_toNat
  · next hge =>
    have hhigh := htoNat (n := 0xD800 + (c.toNat - 0x10000) / 0x400) (by omega)
    have hlow := htoNat (n := 0xDC00 + (c.toNat - 0x10000) % 0x400) (by omega)
    refine .inr ⟨by omega, _, _, rfl, ?_, ?_, ?_⟩
    · rw [isHighSurrogate_iff, hhigh]
      omega
    · rw [isLowSurrogate_iff, hlow]
      omega
    · have hvalue : 0x10000 + (0xD800 + (c.toNat - 0x10000) / 0x400 - 0xD800) * 0x400 +
          (0xDC00 + (c.toNat - 0x10000) % 0x400 - 0xDC00) = c.toNat := by omega
      rw [pairChar, hhigh, hlow, hvalue]
      exact c.ofNat_toNat

theorem toNat_ofNat {n : Nat} (h : n.isValidChar) : (Char.ofNat n).toNat = n := by
  rw [Char.ofNat, dif_pos h]
  rfl

theorem encodeChar_unitChar (h : IsPlain u) : encodeChar (unitChar u) = [u] := by
  have hvalid : u.toNat.isValidChar := by
    have := isPlain_iff.mp h
    have := u.toNat_lt
    unfold Nat.isValidChar
    omega
  have hchar : (unitChar u).toNat = u.toNat := by
    rw [unitChar, h.1, h.2]
    exact toNat_ofNat hvalid
  unfold encodeChar
  dsimp only
  rw [hchar, if_pos u.toNat_lt, UInt16.ofNat_toNat]

theorem encodeChar_pairChar (hu : isHighSurrogate u = true) (hv : isLowSurrogate v = true) :
    encodeChar (pairChar u v) = [u, v] := by
  rw [isHighSurrogate_iff] at hu
  rw [isLowSurrogate_iff] at hv
  have hchar : (pairChar u v).toNat =
      0x10000 + (u.toNat - 0xD800) * 0x400 + (v.toNat - 0xDC00) :=
    toNat_ofNat (by unfold Nat.isValidChar; omega)
  have hhigh : 0xD800 + ((pairChar u v).toNat - 0x10000) / 0x400 = u.toNat := by omega
  have hlow : 0xDC00 + ((pairChar u v).toNat - 0x10000) % 0x400 = v.toNat := by omega
  unfold encodeChar
  dsimp only
  rw [if_neg (by omega), hhigh, hlow, UInt16.ofNat_toNat, UInt16.ofNat_toNat]

/-! ### Sequences -/

theorem decode_cons_of_not_high (h : isHighSurrogate u = false) (us : List UInt16) :
    decode (u :: us) = unitChar u :: decode us := by
  cases us with
  | nil => rfl
  | cons v rest => rw [decode, h, Bool.false_and, if_neg Bool.false_ne_true]

theorem decode_pair (hu : isHighSurrogate u = true) (hv : isLowSurrogate v = true)
    (us : List UInt16) : decode (u :: v :: us) = pairChar u v :: decode us := by
  rw [decode, hu, hv, Bool.and_self, if_pos rfl]

theorem decode_encodeChar_append (c : Char) (us : List UInt16) :
    decode (encodeChar c ++ us) = c :: decode us := by
  rcases encodeChar_cases c with ⟨-, u, hc, hplain, hread⟩ | ⟨-, u, v, hc, hu, hv, hread⟩
  · rw [hc, List.singleton_append, decode_cons_of_not_high hplain.1, hread]
  · rw [hc, List.cons_append, List.singleton_append, decode_pair hu hv, hread]

theorem encode_cons (c : Char) (cs : List Char) : encode (c :: cs) = encodeChar c ++ encode cs :=
  List.flatMap_cons

theorem decode_encode (cs : List Char) : decode (encode cs) = cs := by
  induction cs with
  | nil => rfl
  | cons c cs ih => rw [encode_cons, decode_encodeChar_append, ih]

theorem length_encode (cs : List Char) :
    (encode cs).length = cs.length + cs.countP fun c => 0xFFFF < c.toNat := by
  induction cs with
  | nil => rfl
  | cons c cs ih =>
    rw [encode_cons, List.length_append, ih, List.length_cons]
    rcases encodeChar_cases c with ⟨hc, u, hunits, -⟩ | ⟨hc, u, v, hunits, -⟩
    · rw [hunits, List.countP_cons_of_neg (by simpa using hc), List.length_singleton]
      omega
    · rw [hunits, List.countP_cons_of_pos (by simpa using hc), List.length_cons,
        List.length_singleton]
      omega

theorem wellFormed_cons_of_plain (h : IsPlain u) (us : List UInt16) :
    wellFormed (u :: us) = wellFormed us := by
  cases us with
  | nil => simp only [wellFormed, h.1, h.2, Bool.not_false, Bool.and_self]
  | cons v rest =>
    rw [wellFormed, h.1, h.2, if_neg Bool.false_ne_true, Bool.not_false, Bool.true_and]

theorem wellFormed_encode (cs : List Char) : wellFormed (encode cs) = true := by
  induction cs with
  | nil => rfl
  | cons c cs ih =>
    rw [encode_cons]
    rcases encodeChar_cases c with ⟨-, u, hunits, hplain, -⟩ | ⟨-, u, v, hunits, hu, hv, -⟩
    · rw [hunits, List.singleton_append, wellFormed_cons_of_plain hplain, ih]
    · rw [hunits, List.cons_append, List.singleton_append, wellFormed, if_pos hu, hv, ih]
      rfl

/-- Writing what was read changes nothing just if the units are well formed. -/
theorem encode_decode_iff : encode (decode us) = us ↔ wellFormed us = true := by
  refine ⟨fun h => h ▸ wellFormed_encode _, fun h => ?_⟩
  fun_induction wellFormed us with
  | case1 => rfl
  | case2 u =>
    rw [Bool.and_eq_true, Bool.not_eq_true', Bool.not_eq_true'] at h
    exact List.append_nil _ |>.trans (encodeChar_unitChar h)
  | case3 u v rest hu ih =>
    rw [Bool.and_eq_true] at h
    rw [decode_pair hu h.1, encode_cons, ih h.2, encodeChar_pairChar hu h.1]
    rfl
  | case4 u v rest hu ih =>
    rw [Bool.and_eq_true, Bool.not_eq_true'] at h
    rw [Bool.not_eq_true] at hu
    rw [decode_cons_of_not_high hu, encode_cons, ih h.2, encodeChar_unitChar ⟨hu, h.1⟩]
    rfl

/-! ### Partners -/

def highAt (us : List UInt16) (i : Nat) : Bool := us[i]?.any isHighSurrogate

def lowAt (us : List UInt16) (i : Nat) : Bool := us[i]?.any isLowSurrogate

/-- A surrogate without a partner stands at the place: a high one in front of anything but a low
one, or a low one behind anything but a high one. -/
def UnpairedAt (us : List UInt16) (i : Nat) : Prop :=
  highAt us i = true ∧ lowAt us (i + 1) = false ∨
    lowAt us i = true ∧ ∀ j, i = j + 1 → highAt us j = false

theorem unpairedAt_zero (u : UInt16) (us : List UInt16) : UnpairedAt (u :: us) 0 ↔
    isHighSurrogate u = true ∧ lowAt us 0 = false ∨ isLowSurrogate u = true := by
  simp [UnpairedAt, highAt, lowAt]

theorem unpairedAt_cons_succ (u : UInt16) (us : List UInt16) (i : Nat) :
    UnpairedAt (u :: us) (i + 2) ↔ UnpairedAt us (i + 1) := by
  simp [UnpairedAt, highAt, lowAt]

/-- Where the first unit is no high surrogate, the others have their partners among themselves. -/
theorem unpairedAt_cons (h : isHighSurrogate u = false) (us : List UInt16) (i : Nat) :
    UnpairedAt (u :: us) (i + 1) ↔ UnpairedAt us i := by
  cases i with
  | zero => simp [UnpairedAt, highAt, lowAt, h]
  | succ i => exact unpairedAt_cons_succ u us i

theorem paired_cons_of_not_high (h : isHighSurrogate u = false) (us : List UInt16) :
    (∀ i, ¬ UnpairedAt (u :: us) i) ↔ isLowSurrogate u = false ∧ ∀ i, ¬ UnpairedAt us i := by
  rw [← Nat.and_forall_add_one]
  simp only [unpairedAt_cons h, unpairedAt_zero, h, Bool.false_eq_true, false_and, false_or,
    Bool.not_eq_true]

theorem paired_cons_of_high (hu : isHighSurrogate u = true) (v : UInt16) (us : List UInt16) :
    (∀ i, ¬ UnpairedAt (u :: v :: us) i) ↔
      isLowSurrogate v = true ∧ ∀ i, ¬ UnpairedAt us i := by
  have hu' : isLowSurrogate u = false := by
    rw [← Bool.not_eq_true]
    exact fun hlow => Bool.false_ne_true ((isHighSurrogate_of_low hlow).symm.trans hu)
  have hfirst : UnpairedAt (u :: v :: us) 0 ↔ isLowSurrogate v = false := by
    simp [unpairedAt_zero, hu, hu', lowAt]
  have hsecond (hv : isLowSurrogate v = true) : ¬ UnpairedAt (u :: v :: us) 1 := by
    simp [UnpairedAt, highAt, lowAt, hu, isHighSurrogate_of_low hv]
  rw [← Nat.and_forall_add_one, ← Nat.and_forall_add_one, hfirst, Bool.not_eq_false]
  refine and_congr_right fun hv => ?_
  simp only [unpairedAt_cons_succ, unpairedAt_cons (isHighSurrogate_of_low hv), hsecond hv,
    not_false_eq_true, true_and]

/-- The well-formed sequences are those in which no surrogate stands without a partner. -/
theorem wellFormed_iff : wellFormed us = true ↔ ∀ i, ¬ UnpairedAt us i := by
  fun_induction wellFormed us with
  | case1 => simp [UnpairedAt, highAt, lowAt]
  | case2 u =>
    cases hu : isHighSurrogate u with
    | false =>
      rw [paired_cons_of_not_high hu]
      simp [UnpairedAt, highAt, lowAt]
    | true =>
      have hfirst : UnpairedAt [u] 0 := (unpairedAt_zero u []).mpr (.inl ⟨hu, rfl⟩)
      exact iff_of_false Bool.false_ne_true fun h => h 0 hfirst
  | case3 u v rest hu ih => rw [paired_cons_of_high hu, Bool.and_eq_true, ih]
  | case4 u v rest hu ih =>
    rw [Bool.not_eq_true] at hu
    rw [paired_cons_of_not_high hu, Bool.and_eq_true, Bool.not_eq_true', ih]

end Utf16

/-- Every surrogate of the text has its partner next to it. -/
def IsPaired (t : Text) : Prop := ∀ i, ¬ Utf16.UnpairedAt t.units.toList i

theorem isPaired_iff (t : Text) : t.IsPaired ↔ t.wellFormed = true := Utf16.wellFormed_iff.symm

instance (t : Text) : Decidable t.IsPaired := decidable_of_iff _ t.isPaired_iff.symm

theorem ofString_toString_iff (t : Text) : ofString t.toString = t ↔ t.IsPaired := by
  rw [isPaired_iff, wellFormed, ← Utf16.encode_decode_iff, ofString, Text.toString,
    String.toList_ofList]
  constructor
  · intro h
    exact congrArg (fun t => t.units.toList) h
  · intro h
    rw [h]

theorem toString_ofString (s : String) : (ofString s).toString = s := by
  rw [ofString, Text.toString, Utf16.decode_encode, String.ofList_toList]

theorem size_ofString (s : String) :
    (ofString s).size = s.length + s.toList.countP fun c => 0xFFFF < c.toNat := by
  rw [ofString, size, List.size_toArray, Utf16.length_encode, String.length_toList]

theorem size_slice_zero (t : Text) (i : Nat) : (t.slice 0 i).size = min i t.size :=
  Array.size_extract

theorem slice_append_slice (t : Text) (i : Nat) : t.slice 0 i ++ t.slice i t.size = t := by
  have hwhole : t.units.extract 0 i ++ t.units.extract i t.units.size = t.units := by
    rw [Array.extract_append_extract, Nat.zero_min,
      Array.extract_eq_self_of_le (Nat.le_max_right ..)]
  exact congrArg Text.mk hwhole

theorem toUnicode_string (e : Engine) (t : Text) (m : Machine) :
    e.toUnicode (.string t) m = .ok t.toString m := rfl

/-- What is lost and what is kept between Unicode text and code units.  All Unicode text comes back,
and one unit is counted for each character and one more for each above U+FFFF.  Units come back just
if their surrogates are paired, so paired strings that stand for the same property key are equal.  A
string that is cut in two, be it in the middle of a pair, is put together again by joining. -/
theorem units_round_trip :
    (∀ s : String, (ofString s).toString = s ∧
      (ofString s).size = s.length + s.toList.countP fun c => 0xFFFF < c.toNat) ∧
    (∀ t : Text, ofString t.toString = t ↔ t.IsPaired) ∧
    (∀ (t : Text) (i : Nat), (t.slice 0 i).size = min i t.size ∧
      t.slice 0 i ++ t.slice i t.size = t) ∧
    (∀ (e : Engine) (t : Text) (m : Machine), e.toUnicode (.string t) m = .ok t.toString m) ∧
    ∀ t u : Text, t.IsPaired → u.IsPaired → t.toString = u.toString → t = u := by
  refine ⟨fun s => ⟨toString_ofString s, size_ofString s⟩, ofString_toString_iff,
    fun t i => ⟨t.size_slice_zero i, t.slice_append_slice i⟩, toUnicode_string,
    fun t u ht hu hkey => ?_⟩
  calc
    t = ofString t.toString := ((ofString_toString_iff t).mpr ht).symm
    _ = ofString u.toString := by rw [hkey]
    _ = u := (ofString_toString_iff u).mpr hu

theorem units_round_trip_pair : (ofString "😀").IsPaired ∧ (⟨#[0xD83D, 0xDE00]⟩ : Text).IsPaired ∧
    ofString "😀" = ⟨#[0xD83D, 0xDE00]⟩ := by
  have hwritten : (ofString "😀").IsPaired :=
    (units_round_trip.2.1 _).mp (by rw [toString_ofString])
  have hpair : (⟨#[0xD83D, 0xDE00]⟩ : Text).IsPaired := by decide
  exact ⟨hwritten, hpair, units_round_trip.2.2.2.2 _ _ hwritten hpair (by decide)⟩

/-- Halves of pairs all stand for the same property key. -/
example : (ofString "😀").slice 0 1 ≠ (ofString "😀").slice 1 2 ∧
    ((ofString "😀").slice 0 1).toString = ((ofString "😀").slice 1 2).toString := by decide

end ProtoScript.Text
