import Mathlib.Data.List.Basic
import ProtoScript.Number.Numeral
/-!
# Array indices

A property key is an array index just if it is the decimal numeral of a number that is smaller than
the largest length.  So every index has one spelling and every spelling stands for one index.
-/

namespace ProtoScript.Number

variable {key : String} {cs : List Char} {i : Nat}

theorem digitValue?_of_isDigit {c : Char} (h : c.isDigit = true) :
    digitValue? 10 c = some (c.toNat - '0'.toNat) := by
  have hbounds : 48 ≤ c.toNat ∧ c.toNat ≤ 57 := Char.isDigit_iff_toNat.mp h
  rw [digitValue?, digitOrLetter?, if_pos h]
  exact Option.filter_some_pos (by simp; omega)

theorem naturalOfDigits_eq (h : ∀ c ∈ cs, c.isDigit = true) :
    naturalOfDigits cs = Nat.ofDigitChars 10 cs 0 := by
  rw [naturalOfDigits, Nat.ofDigitChars_eq_foldl]
  apply List.foldl_ext
  intro n c hc
  rw [digitValue?_of_isDigit (h c hc), Option.getD_some, Nat.mul_comm]

theorem digitChar_toNat_sub {c : Char} (h : c.isDigit = true) :
    Nat.digitChar (c.toNat - '0'.toNat) = c := by
  have hbounds : 48 ≤ c.toNat ∧ c.toNat ≤ 57 := Char.isDigit_iff_toNat.mp h
  apply Char.toNat_inj.mp
  rw [Nat.toNat_digitChar_of_lt_ten (by simp; omega)]
  simp
  omega

theorem toDigits_append {n : Nat} (hn : 0 < n) (h : ∀ c ∈ cs, c.isDigit = true) :
    Nat.toDigits 10 n ++ cs = Nat.toDigits 10 (Nat.ofDigitChars 10 cs n) := by
  induction cs generalizing n with
  | nil => simp
  | cons c cs ih =>
    have hdigit := h c List.mem_cons_self
    have hbounds : 48 ≤ c.toNat ∧ c.toNat ≤ 57 := Char.isDigit_iff_toNat.mp hdigit
    have hlt : c.toNat - '0'.toNat < 10 := by simp; omega
    have hone : Nat.toDigits 10 n ++ [c] = Nat.toDigits 10 (10 * n + (c.toNat - '0'.toNat)) := by
      rw [← Nat.toDigits_append_toDigits (by decide) hn hlt, Nat.toDigits_of_lt_base hlt,
        digitChar_toNat_sub hdigit]
    calc
      Nat.toDigits 10 n ++ c :: cs = (Nat.toDigits 10 n ++ [c]) ++ cs := by simp
      _ = Nat.toDigits 10 (10 * n + (c.toNat - '0'.toNat)) ++ cs := by rw [hone]
      _ = Nat.toDigits 10 (Nat.ofDigitChars 10 (c :: cs) n) := by
        rw [ih (by omega) fun d hd => h d (List.mem_cons_of_mem _ hd), Nat.ofDigitChars_cons]

theorem toDigits_ofDigitChars (hne : cs ≠ []) (hzero : cs.head? = some '0' → cs.length ≤ 1)
    (h : ∀ c ∈ cs, c.isDigit = true) : Nat.toDigits 10 (Nat.ofDigitChars 10 cs 0) = cs := by
  cases cs with
  | nil => exact absurd rfl hne
  | cons c rest =>
    have hdigit := h c List.mem_cons_self
    have hbounds : 48 ≤ c.toNat ∧ c.toNat ≤ 57 := Char.isDigit_iff_toNat.mp hdigit
    have hlt : c.toNat - '0'.toNat < 10 := by simp; omega
    have hfirst : Nat.toDigits 10 (c.toNat - '0'.toNat) = [c] := by
      rw [Nat.toDigits_of_lt_base hlt, digitChar_toNat_sub hdigit]
    rw [Nat.ofDigitChars_cons, Nat.mul_zero, Nat.zero_add]
    by_cases hc : c = '0'
    · have hrest : rest = [] := by
        have hlength := hzero (by rw [hc]; rfl)
        exact List.eq_nil_of_length_eq_zero (by simpa using hlength)
      rw [hrest, Nat.ofDigitChars_nil, hfirst]
    · have hpos : 0 < c.toNat - '0'.toNat := by
        have hne : c.toNat ≠ 48 := fun heq => hc (Char.toNat_inj.mp heq)
        simp
        omega
      rw [← toDigits_append hpos fun d hd => h d (List.mem_cons_of_mem _ hd), hfirst]
      rfl

theorem head?_toDigits_ne (h : 0 < i) : (Nat.toDigits 10 i).head? ≠ some '0' := by
  induction i using Nat.strongRecOn with
  | ind i ih =>
    by_cases hlt : i < 10
    · rw [Nat.toDigits_of_lt_base hlt]
      intro heq
      have hvalue := congrArg Char.toNat (Option.some.inj heq)
      rw [Nat.toNat_digitChar_of_lt_ten hlt] at hvalue
      simp at hvalue
      omega
    · rw [Nat.toDigits_of_base_le (by decide) (by omega),
        List.head?_append_of_ne_nil _ Nat.toDigits_ne_nil]
      exact ih (i / 10) (by omega) (by omega)

theorem isDigit_of_mem_toString {c : Char} (h : c ∈ (toString i).toList) : c.isDigit = true := by
  rw [Nat.toString_eq_ofList_toDigits, String.toList_ofList] at h
  exact Nat.isDigit_of_mem_toDigits (by decide) (by decide) h

theorem toString_ne_length : toString i ≠ "length" := by
  intro h
  have hdigit : 'l'.isDigit = true := isDigit_of_mem_toString (i := i) (by rw [h]; decide)
  exact absurd hdigit (by decide)

theorem arrayIndex?_toString (h : i < 4294967295) : arrayIndex? (toString i) = some i := by
  have hdigits : ∀ c ∈ Nat.toDigits 10 i, c.isDigit = true :=
    fun c hc => Nat.isDigit_of_mem_toDigits (by decide) (by decide) hc
  have hlist : (toString i).toList = Nat.toDigits 10 i := by
    rw [Nat.toString_eq_ofList_toDigits, String.toList_ofList]
  have hzero : ¬ (1 < (Nat.toDigits 10 i).length ∧ (Nat.toDigits 10 i).head? = some '0') := by
    rintro ⟨hlength, hhead⟩
    rcases Nat.eq_zero_or_pos i with rfl | hpos
    · simp at hlength
    · exact head?_toDigits_ne hpos hhead
  unfold arrayIndex?
  simp only [hlist]
  rw [if_neg, naturalOfDigits_eq hdigits, Nat.ofDigitChars_ten_toDigits, if_pos h]
  simpa [Nat.toDigits_ne_nil] using ⟨fun hlength hhead => hzero ⟨hlength, hhead⟩, hdigits⟩

/-- The array indices are the decimal numerals of the numbers below the largest length. -/
theorem arrayIndex?_eq_some_iff :
    arrayIndex? key = some i ↔ key = toString i ∧ i < 4294967295 := by
  refine ⟨fun h => ?_, fun ⟨hkey, hlt⟩ => hkey ▸ arrayIndex?_toString hlt⟩
  unfold arrayIndex? at h
  dsimp only at h
  split at h
  · cases h
  · next hnumeral =>
    simp only [Bool.or_eq_true, Bool.and_eq_true, decide_eq_true_eq, beq_iff_eq, List.isEmpty_iff,
      Bool.not_eq_true', not_or, Bool.not_eq_false, List.all_eq_true] at hnumeral
    obtain ⟨⟨hne, hzero⟩, hdigits⟩ := hnumeral
    rw [naturalOfDigits_eq hdigits] at h
    split at h
    · next hlt =>
      cases h
      refine ⟨?_, hlt⟩
      rw [Nat.toString_eq_ofList_toDigits, toDigits_ofDigitChars hne _ hdigits,
        String.ofList_toList]
      exact fun hhead => Nat.le_of_not_lt fun hlength => hzero ⟨hlength, hhead⟩
    · cases h

theorem arrayIndex?_eq_none_iff :
    arrayIndex? key = none ↔ ∀ i < 4294967295, key ≠ toString i := by
  rw [Option.eq_none_iff_forall_ne_some]
  exact forall_congr' fun i => by rw [ne_eq, arrayIndex?_eq_some_iff]; tauto

theorem toString_injective : Function.Injective (toString : Nat → String) := by
  intro i j h
  have hdigits : Nat.toDigits 10 i = Nat.toDigits 10 j := by
    simpa [Nat.toString_eq_ofList_toDigits] using congrArg String.toList h
  rw [← Nat.ofDigitChars_ten_toDigits (n := i), hdigits, Nat.ofDigitChars_ten_toDigits]

def IsNumeral (key : String) : Prop := ∃ i : Nat, key = toString i

theorem not_isNumeral (h : key.toList.all Char.isDigit = false) : ¬ IsNumeral key := by
  rintro ⟨i, rfl⟩
  have hdigits : (toString i).toList.all Char.isDigit = true :=
    List.all_eq_true.mpr fun _ hc => isDigit_of_mem_toString hc
  exact Bool.false_ne_true (h.symm.trans hdigits)

end ProtoScript.Number
