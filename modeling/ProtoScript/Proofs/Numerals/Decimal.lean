import Mathlib.Data.List.TakeWhile
import ProtoScript.Number.Numeral
/-!
# Decimal numerals

A decimal numeral is a mantissa with digits and an exponent or none.  The parts into which a text is
split say which numeral stands at its start, and that no longer one does.
-/

namespace ProtoScript

theorem Text.isBlank_of_bounds {c : Char} (h : 33 ≤ c.toNat) (h' : c.toNat ≤ 122) :
    isBlank c = false := by
  have hmark : c ≠ '\uFEFF' := by
    rintro rfl
    exact absurd h' (by decide)
  rw [isBlank, beq_eq_false_iff_ne.mpr hmark, Bool.or_false, isWhiteSpace]
  simp only [Bool.or_eq_false_iff, Bool.and_eq_false_iff, decide_eq_false_iff_not,
    beq_eq_false_iff_ne]
  omega

namespace Number

/-- Digits and letters are no blanks, and no signs stand among them. -/
theorem bounds_of_digitOrLetter? {c : Char} {d : Nat} (h : digitOrLetter? c = some d) :
    48 ≤ c.toNat ∧ c.toNat ≤ 122 := by
  have hclass : c.isDigit = true ∨ c.isLower = true ∨ c.isUpper = true := by
    unfold digitOrLetter? at h
    split at h
    · exact .inl ‹_›
    split at h
    · exact .inr (.inl ‹_›)
    split at h
    · exact .inr (.inr ‹_›)
    · cases h
  rcases hclass with h | h | h
  · have := Char.isDigit_iff_toNat.mp h
    change 48 ≤ c.toNat ∧ c.toNat ≤ 57 at this
    omega
  · change (decide (c.val ≥ 97) && decide (c.val ≤ 122)) = true at h
    simp only [Bool.and_eq_true, decide_eq_true_eq, ge_iff_le, UInt32.le_iff_toNat_le] at h
    change 97 ≤ c.toNat ∧ c.toNat ≤ 122 at h
    omega
  · change decide (c.val ≥ 65 ∧ c.val ≤ 90) = true at h
    simp only [decide_eq_true_eq, ge_iff_le, UInt32.le_iff_toNat_le] at h
    change 65 ≤ c.toNat ∧ c.toNat ≤ 90 at h
    omega

variable {cs w f m e rest p q : List Char}

/-! ### Runs of characters -/

section Runs

variable {test : Char → Bool}

/-- The text goes on with a character that fails a test, or ends. -/
def Stops (test : Char → Bool) (rest : List Char) : Prop := ∀ c ∈ rest.head?, test c = false

theorem stops_nil : Stops test [] := by
  intro c hc
  cases hc

theorem takeWhile_append_stop (h : ∀ c ∈ w, test c = true) (hstop : Stops test rest) :
    (w ++ rest).takeWhile test = w := by
  have hrest : rest.takeWhile test = [] := by
    cases rest with
    | nil => rfl
    | cons c rest => exact List.takeWhile_cons_of_neg (by simpa using hstop c rfl)
  rw [List.takeWhile_append_of_pos h, hrest, List.append_nil]

theorem dropWhile_append_stop (h : ∀ c ∈ w, test c = true) (hstop : Stops test rest) :
    (w ++ rest).dropWhile test = rest := by
  rw [List.dropWhile_append_of_pos h]
  cases rest with
  | nil => rfl
  | cons c rest => exact List.dropWhile_cons_of_neg (by simpa using hstop c rfl)

/-- A text is a run of characters that pass a test and a text that goes on with none. -/
theorem exists_run (test : Char → Bool) (cs : List Char) :
    ∃ w rest, cs = w ++ rest ∧ (∀ c ∈ w, test c = true) ∧ Stops test rest := by
  refine ⟨cs.takeWhile test, cs.dropWhile test, List.takeWhile_append_dropWhile.symm,
    fun _ => List.mem_takeWhile_imp, fun c hc => ?_⟩
  have hnot := List.head?_dropWhile_not test cs
  rw [hc] at hnot
  exact hnot

theorem all_iff_of_stops (hw : ∀ c ∈ w, test c = true) (hstop : Stops test rest) :
    (∀ c ∈ w ++ rest, test c = true) ↔ rest = [] := by
  rw [List.forall_mem_append, and_iff_right hw]
  cases rest with
  | nil => exact iff_of_true nofun rfl
  | cons c rest =>
    refine iff_of_false (fun hrest => ?_) (List.cons_ne_nil c rest)
    exact Bool.false_ne_true ((hstop c rfl).symm.trans (hrest c List.mem_cons_self))

end Runs

/-! ### Mantissas and exponents -/

def AreDigits (cs : List Char) : Prop := ∀ c ∈ cs, c.isDigit = true

instance : Decidable (AreDigits cs) := List.decidableBAll _ cs

theorem decimalParts_whole (hw : AreDigits w) (hstop : Stops Char.isDigit rest)
    (hpoint : rest.head? ≠ some '.') : DecimalParts.of (w ++ rest) = ⟨w, false, [], rest⟩ := by
  unfold DecimalParts.of
  rw [takeWhile_append_stop hw hstop, dropWhile_append_stop hw hstop]
  split
  · exact absurd rfl hpoint
  · rfl

theorem decimalParts_point (hw : AreDigits w) (hf : AreDigits f)
    (hstop : Stops Char.isDigit rest) :
    DecimalParts.of (w ++ '.' :: (f ++ rest)) = ⟨w, true, f, rest⟩ := by
  have hdot : Stops Char.isDigit ('.' :: (f ++ rest)) := by
    intro c hc
    cases hc
    rfl
  unfold DecimalParts.of
  rw [takeWhile_append_stop hw hdot, dropWhile_append_stop hw hdot]
  change DecimalParts.mk w true ((f ++ rest).takeWhile Char.isDigit)
    ((f ++ rest).dropWhile Char.isDigit) = _
  rw [takeWhile_append_stop hf hstop, dropWhile_append_stop hf hstop]

theorem decimalParts_digits (hw : AreDigits w) : DecimalParts.of w = ⟨w, false, [], []⟩ := by
  have hwhole : DecimalParts.of (w ++ []) = ⟨w, false, [], []⟩ :=
    decimalParts_whole hw stops_nil nofun
  rwa [List.append_nil] at hwhole

theorem decimalParts_fraction (hw : AreDigits w) (hf : AreDigits f) :
    DecimalParts.of (w ++ '.' :: f) = ⟨w, true, f, []⟩ := by
  have hpoint : DecimalParts.of (w ++ '.' :: (f ++ [])) = ⟨w, true, f, []⟩ :=
    decimalParts_point hw hf stops_nil
  rwa [List.append_nil] at hpoint

inductive Splits : List Char → DecimalParts → Prop
  | whole {w rest : List Char} : AreDigits w → Stops Char.isDigit rest → rest.head? ≠ some '.' →
    Splits (w ++ rest) ⟨w, false, [], rest⟩
  | point {w f rest : List Char} : AreDigits w → AreDigits f → Stops Char.isDigit rest →
    Splits (w ++ '.' :: (f ++ rest)) ⟨w, true, f, rest⟩

theorem splits (cs : List Char) : Splits cs (DecimalParts.of cs) := by
  obtain ⟨w, rest, rfl, hw, hstop⟩ := exists_run Char.isDigit cs
  by_cases hpoint : rest.head? = some '.'
  · obtain ⟨rest, rfl⟩ := List.head?_eq_some_iff.mp hpoint
    obtain ⟨f, rest, rfl, hf, hstop⟩ := exists_run Char.isDigit rest
    rw [decimalParts_point hw hf hstop]
    exact .point hw hf hstop
  · rw [decimalParts_whole hw hstop hpoint]
    exact .whole hw hstop hpoint

def StartsNumeral (first : Char) (rest : List Char) : Prop :=
  first.isDigit = true ∨ first = '.' ∧ rest.head?.any Char.isDigit = true

theorem digits_ne_nil_iff : (DecimalParts.of cs).digits ≠ [] ↔
    ∃ first rest, cs = first :: rest ∧ StartsNumeral first rest := by
  have hsplits := splits cs
  generalize DecimalParts.of cs = parts at *
  cases hsplits with
  | @whole w rest hw hstop hpoint =>
    cases w with
    | nil =>
      refine iff_of_false (fun hne => hne rfl) ?_
      rintro ⟨first, behind, rfl, hdigit | ⟨rfl, -⟩⟩
      · cases (hstop first rfl).symm.trans hdigit
      · exact hpoint rfl
    | cons c w =>
      exact iff_of_true (List.cons_ne_nil _ _) ⟨c, _, rfl, .inl (hw c List.mem_cons_self)⟩
  | @point w f rest hw hf hstop =>
    cases w with
    | nil =>
      cases f with
      | nil =>
        refine iff_of_false (fun hne => hne rfl) ?_
        rintro ⟨first, behind, heq, hstart⟩
        obtain ⟨rfl, rfl⟩ := List.cons.inj heq
        rcases hstart with hdigit | ⟨-, hdigit⟩
        · cases hdigit
        · rw [List.nil_append] at hdigit
          cases hhead : rest.head? with
          | none => rw [hhead] at hdigit; cases hdigit
          | some c => rw [hhead] at hdigit; cases (hstop c hhead).symm.trans hdigit
      | cons d f =>
        exact iff_of_true (List.cons_ne_nil _ _)
          ⟨'.', _, rfl, .inr ⟨rfl, hf d List.mem_cons_self⟩⟩
    | cons c w =>
      exact iff_of_true (List.cons_ne_nil _ _) ⟨c, _, rfl, .inl (hw c List.mem_cons_self)⟩

def signs : List (List Char) := [[], ['+'], ['-']]

theorem mem_signs {sign : List Char} :
    sign ∈ signs ↔ sign = [] ∨ sign = ['+'] ∨ sign = ['-'] := by
  simp [signs]

inductive IsExponent : List Char → Prop
  | mk {mark : Char} {sign digits : List Char} : mark = 'e' ∨ mark = 'E' →
    sign ∈ signs → digits ≠ [] → AreDigits digits →
    IsExponent (mark :: (sign ++ digits))

theorem exponentParts_eq {mark : Char} {sign digits : List Char} (hmark : mark = 'e' ∨ mark = 'E')
    (hsign : sign ∈ signs) (hne : digits ≠ []) (hdigits : AreDigits digits)
    (hstop : Stops Char.isDigit rest) :
    ExponentParts.of? (mark :: (sign ++ digits ++ rest)) = some ⟨mark, sign, digits, rest⟩ := by
  have hmark' : (mark == 'e' || mark == 'E') = true := by simpa using hmark
  have htaken : ((sign ++ digits ++ rest).take 1).filter (fun c => c == '+' || c == '-') =
      sign := by
    rcases mem_signs.mp hsign with rfl | rfl | rfl
    · obtain ⟨d, digits, rfl⟩ := List.exists_cons_of_ne_nil hne
      have hd := hdigits d List.mem_cons_self
      have hplain : (d == '+' || d == '-') = false := by
        rw [Bool.or_eq_false_iff, beq_eq_false_iff_ne, beq_eq_false_iff_ne]
        constructor <;> (rintro rfl; cases hd)
      simp [hplain]
    · rfl
    · rfl
  rw [ExponentParts.of?, if_pos hmark']
  dsimp only
  rw [htaken, List.append_assoc, List.drop_left, takeWhile_append_stop hdigits hstop,
    dropWhile_append_stop hdigits hstop]

def startsWithSign (cs : List Char) : Bool := cs.head?.any fun d => ['+', '-'].any (· == d)

theorem exists_sign (cs : List Char) : ∃ sign behind, cs = sign ++ behind ∧ sign ∈ signs ∧
    (cs.take 1).filter (fun c => c == '+' || c == '-') = sign ∧
      startsWithSign cs = !sign.isEmpty := by
  cases cs with
  | nil => exact ⟨[], [], rfl, by decide, rfl, rfl⟩
  | cons c cs =>
    by_cases hc : c = '+' ∨ c = '-'
    · rcases hc with rfl | rfl
      · exact ⟨['+'], cs, rfl, by decide, rfl, rfl⟩
      · exact ⟨['-'], cs, rfl, by decide, rfl, rfl⟩
    · rw [not_or] at hc
      have hplain : (c == '+' || c == '-') = false := by simpa using hc
      have hplus : ('+' == c) = false := beq_eq_false_iff_ne.mpr (Ne.symm hc.1)
      have hminus : ('-' == c) = false := beq_eq_false_iff_ne.mpr (Ne.symm hc.2)
      exact ⟨[], c :: cs, rfl, by decide, by simp [hplain],
        by simp [startsWithSign, hplus, hminus]⟩

theorem of_exponentParts {parts : ExponentParts} (h : ExponentParts.of? rest = some parts) :
    rest = parts.mark :: (parts.sign ++ parts.digits ++ parts.rest) ∧
      (parts.mark = 'e' ∨ parts.mark = 'E') ∧ parts.sign ∈ signs ∧
      AreDigits parts.digits ∧ Stops Char.isDigit parts.rest := by
  cases rest with
  | nil => cases h
  | cons mark body =>
    rw [ExponentParts.of?] at h
    split at h
    · next hmark =>
      cases h
      dsimp only
      obtain ⟨sign, behind, rfl, hmem, hsign, -⟩ := exists_sign body
      rw [hsign]
      rw [List.drop_left, List.append_assoc, List.takeWhile_append_dropWhile]
      obtain ⟨digits, rest, rfl, hdigits, hstop⟩ := exists_run Char.isDigit behind
      rw [takeWhile_append_stop hdigits hstop, dropWhile_append_stop hdigits hstop]
      exact ⟨rfl, by simpa using hmark, hmem, hdigits, hstop⟩
    · cases h

/-- A text is an exponent if it is split into one with digits and nothing behind them. -/
theorem isExponent_iff : IsExponent rest ↔
    ∃ parts, ExponentParts.of? rest = some parts ∧ parts.digits ≠ [] ∧ parts.rest = [] := by
  constructor
  · rintro ⟨hmark, hsign, hne, hdigits⟩
    have hof := exponentParts_eq hmark hsign hne hdigits stops_nil
    rw [List.append_nil] at hof
    exact ⟨_, hof, hne, rfl⟩
  · rintro ⟨parts, hof, hne, hnil⟩
    obtain ⟨hrest, hmark, hsign, hdigits, -⟩ := of_exponentParts hof
    rw [hrest, hnil, List.append_nil]
    exact .mk hmark hsign hne hdigits

/-- The characters of the exponent at the start of a text, none if its digits are missing. -/
def leadingExponent (rest : List Char) : List Char :=
  match ExponentParts.of? rest with
  | some parts =>
    if parts.digits.isEmpty then [] else parts.mark :: (parts.sign ++ parts.digits)
  | none => []

theorem leadingExponent_append (he : IsExponent e) (hstop : Stops Char.isDigit rest) :
    leadingExponent (e ++ rest) = e := by
  obtain ⟨hmark, hsign, hne, hdigits⟩ := he
  rw [leadingExponent, List.cons_append, exponentParts_eq hmark hsign hne hdigits hstop]
  exact if_neg (by simpa using hne)

theorem leadingExponent_spec (cs : List Char) : leadingExponent cs = [] ∨
    IsExponent (leadingExponent cs) ∧ ∃ rest, cs = leadingExponent cs ++ rest ∧
      Stops Char.isDigit rest := by
  rw [leadingExponent]
  cases h : ExponentParts.of? cs with
  | none => exact .inl rfl
  | some parts =>
    obtain ⟨hcs, hmark, hsign, hdigits, hstop⟩ := of_exponentParts h
    dsimp only
    split
    · exact .inl rfl
    · next hne => exact .inr ⟨.mk hmark hsign (by simpa using hne) hdigits, parts.rest, hcs, hstop⟩

theorem IsExponent.append (he : IsExponent e) (h : AreDigits w) : IsExponent (e ++ w) := by
  obtain ⟨hmark, hsign, hne, hdigits⟩ := he
  rw [List.cons_append, List.append_assoc]
  exact .mk hmark hsign (List.append_ne_nil_of_left_ne_nil hne w)
    (List.forall_mem_append.mpr ⟨hdigits, h⟩)

theorem length_le_leadingExponent (he : IsExponent e) (h : e <+: cs) :
    e.length ≤ (leadingExponent cs).length := by
  obtain ⟨behind, rfl⟩ := h
  obtain ⟨more, rest, rfl, hmore, hstop⟩ := exists_run Char.isDigit behind
  rw [← List.append_assoc, leadingExponent_append (he.append hmore) hstop, List.length_append]
  exact Nat.le_add_right ..

/-! ### Decimal numerals -/

theorem isNumeral_iff : isNumeral cs = true ↔ (DecimalParts.of cs).digits ≠ [] ∧
    ((DecimalParts.of cs).rest = [] ∨ IsExponent (DecimalParts.of cs).rest) := by
  unfold isNumeral isExponentOrEmpty
  dsimp only
  generalize DecimalParts.of cs = parts
  rw [Bool.and_eq_true, Bool.not_eq_true', List.isEmpty_eq_false_iff, Bool.or_eq_true,
    List.isEmpty_iff, isExponent_iff]
  refine and_congr_right fun _ => or_congr_right ?_
  cases ExponentParts.of? parts.rest with
  | none => exact iff_of_false Bool.false_ne_true nofun
  | some exponent => simp

/-- 32 bits count none of the digits that the mantissa at the start of a text has. -/
def Uncounted (cs : List Char) : Prop :=
  (DecimalParts.of cs).digits ≠ [] ∧ (DecimalParts.of cs).digits.length % 4294967296 = 0

instance (cs : List Char) : Decidable (Uncounted cs) := inferInstanceAs (Decidable (_ ∧ _))

theorem digitCount_eq_zero_iff {parts : DecimalParts} :
    parts.digitCount = 0 ↔ parts.digits.length % 4294967296 = 0 := by
  rw [DecimalParts.digitCount, ← Int32.toBitVec_inj, ← BitVec.toNat_inj]
  rfl

theorem isDecimal_iff : isDecimal cs = true ↔ isNumeral cs = true ∧ ¬ Uncounted cs := by
  unfold isDecimal isNumeral Uncounted
  dsimp only
  rw [Bool.and_eq_true, Bool.and_eq_true, bne_iff_ne, Ne, digitCount_eq_zero_iff,
    Bool.not_eq_true', List.isEmpty_eq_false_iff]
  by_cases hdigits : (DecimalParts.of cs).digits = []
  · simp [hdigits]
  · simp [hdigits, and_comm]

theorem Uncounted.le_length (h : Uncounted cs) : 4294967296 ≤ cs.length := by
  obtain ⟨hne, hcount⟩ := h
  have hpos := List.length_pos_iff.mpr hne
  have hsplits := splits cs
  generalize DecimalParts.of cs = parts at *
  cases hsplits with
  | whole => simp [DecimalParts.digits] at *; omega
  | point => simp [DecimalParts.digits] at *; omega

theorem decimalParts_append (h : (DecimalParts.of m).rest = []) (hstop : Stops Char.isDigit rest)
    (hpoint : rest.head? ≠ some '.') :
    DecimalParts.of (m ++ rest) = { DecimalParts.of m with rest := rest } := by
  have hsplits := splits m
  generalize DecimalParts.of m = parts at *
  cases hsplits with
  | whole hw =>
    subst h
    rw [List.append_nil, decimalParts_whole hw hstop hpoint]
  | point hw hf =>
    subst h
    rw [List.append_nil, List.append_assoc, List.cons_append, decimalParts_point hw hf hstop]

theorem mantissa_le (h : (DecimalParts.of m).rest = []) (rest : List Char) :
    (DecimalParts.of m).digits.length ≤ (DecimalParts.of (m ++ rest)).digits.length ∧
      m.length ≤ (DecimalParts.of (m ++ rest)).mantissa.length := by
  obtain ⟨more, rest, rfl, hmore, hstop⟩ := exists_run Char.isDigit rest
  have hsplits := splits m
  generalize DecimalParts.of m = parts at *
  cases hsplits with
  | @whole w _ hw =>
    subst h
    have hrun := List.forall_mem_append.mpr ⟨hw, hmore⟩
    by_cases hpoint : rest.head? = some '.'
    · obtain ⟨rest, rfl⟩ := List.head?_eq_some_iff.mp hpoint
      obtain ⟨f, rest, rfl, hf, hstop⟩ := exists_run Char.isDigit rest
      rw [List.append_nil, ← List.append_assoc, decimalParts_point hrun hf hstop]
      simp [DecimalParts.digits, DecimalParts.mantissa]
    · rw [List.append_nil, ← List.append_assoc, decimalParts_whole hrun hstop hpoint]
      simp [DecimalParts.digits, DecimalParts.mantissa]
  | @point w f _ hw hf =>
    subst h
    rw [List.append_nil, List.append_assoc, List.cons_append, ← List.append_assoc f,
      decimalParts_point hw (List.forall_mem_append.mpr ⟨hf, hmore⟩) hstop]
    simp [DecimalParts.digits, DecimalParts.mantissa]

theorem mantissa_append_rest (cs : List Char) :
    (DecimalParts.of cs).mantissa ++ (DecimalParts.of cs).rest = cs := by
  have hsplits := splits cs
  generalize DecimalParts.of cs = parts at *
  cases hsplits with
  | whole => simp [DecimalParts.mantissa]
  | point => simp [DecimalParts.mantissa]

theorem decimalParts_mantissa (cs : List Char) :
    DecimalParts.of (DecimalParts.of cs).mantissa = { DecimalParts.of cs with rest := [] } := by
  have hsplits := splits cs
  generalize DecimalParts.of cs = parts at *
  cases hsplits with
  | @whole w _ hw =>
    rw [DecimalParts.mantissa]
    exact (congrArg _ (List.append_nil w)).trans (decimalParts_digits hw)
  | point hw hf => exact decimalParts_fraction hw hf

theorem mantissa_eq_self (h : (DecimalParts.of m).rest = []) :
    (DecimalParts.of m).mantissa = m := by
  have happend := mantissa_append_rest m
  rwa [h, List.append_nil] at happend

theorem IsExponent.stops (he : IsExponent e) (rest : List Char) :
    Stops Char.isDigit (e ++ rest) ∧ (e ++ rest).head? ≠ some '.' := by
  obtain ⟨rfl | rfl, -, -, -⟩ := he
  · exact ⟨fun c hc => by cases hc; rfl, nofun⟩
  · exact ⟨fun c hc => by cases hc; rfl, nofun⟩

/-- A decimal numeral is a mantissa with digits and an exponent or none. -/
theorem isNumeral_iff_append : isNumeral cs = true ↔ ∃ m e, cs = m ++ e ∧
    (DecimalParts.of m).rest = [] ∧ (DecimalParts.of m).digits ≠ [] ∧
      (e = [] ∨ IsExponent e) := by
  rw [isNumeral_iff]
  constructor
  · rintro ⟨hcount, he⟩
    have hmantissa := decimalParts_mantissa cs
    refine ⟨_, _, (mantissa_append_rest cs).symm, ?_, ?_, he⟩
    · rw [hmantissa]
    · rw [hmantissa]
      exact hcount
  · rintro ⟨m, e, rfl, hm, hcount, rfl | he⟩
    · rw [List.append_nil]
      exact ⟨hcount, .inl hm⟩
    · obtain ⟨hstop, hpoint⟩ := he.stops []
      rw [List.append_nil] at hstop hpoint
      rw [decimalParts_append hm hstop hpoint]
      exact ⟨hcount, .inr he⟩

/-- Digits, perhaps with a point among them or at one of their ends. -/
inductive IsMantissa : List Char → Prop
  | whole {w : List Char} : w ≠ [] → AreDigits w → IsMantissa w
  | point {w f : List Char} : w ++ f ≠ [] → AreDigits w → AreDigits f → IsMantissa (w ++ '.' :: f)

theorem isMantissa_iff :
    IsMantissa m ↔ (DecimalParts.of m).rest = [] ∧ (DecimalParts.of m).digits ≠ [] := by
  constructor
  · intro h
    cases h with
    | whole hne hw =>
      rw [decimalParts_digits hw]
      exact ⟨rfl, by simpa [DecimalParts.digits] using hne⟩
    | point hne hw hf =>
      rw [decimalParts_fraction hw hf]
      exact ⟨rfl, hne⟩
  · have hsplits := splits m
    generalize DecimalParts.of m = parts at *
    cases hsplits with
    | whole hw =>
      rintro ⟨rfl, hcount⟩
      rw [List.append_nil]
      exact .whole (by simpa [DecimalParts.digits] using hcount) hw
    | point hw hf =>
      rintro ⟨rfl, hcount⟩
      rw [List.append_nil]
      exact .point hcount hw hf

theorem isNumeral_iff_mantissa :
    isNumeral cs = true ↔ ∃ m e, cs = m ++ e ∧ IsMantissa m ∧ (e = [] ∨ IsExponent e) := by
  rw [isNumeral_iff_append]
  simp only [isMantissa_iff, and_assoc]

def leadingNumeral (cs : List Char) : List Char :=
  (DecimalParts.of cs).mantissa ++ leadingExponent (DecimalParts.of cs).rest

theorem leadingNumeral_isStart (cs : List Char) : leadingNumeral cs <+: cs := by
  have hcs := mantissa_append_rest cs
  rw [leadingNumeral]
  rcases leadingExponent_spec (DecimalParts.of cs).rest with he | ⟨-, rest, he, -⟩
  · rw [he, List.append_nil]
    exact ⟨_, hcs⟩
  · refine ⟨rest, ?_⟩
    rw [List.append_assoc, ← he, hcs]

theorem digits_leadingNumeral (cs : List Char) :
    (DecimalParts.of (leadingNumeral cs)).digits = (DecimalParts.of cs).digits := by
  have hmantissa := decimalParts_mantissa cs
  rw [leadingNumeral]
  rcases leadingExponent_spec (DecimalParts.of cs).rest with he | ⟨he, -⟩
  · rw [he, List.append_nil, hmantissa]
    rfl
  · obtain ⟨hstop, hpoint⟩ := he.stops []
    rw [List.append_nil] at hstop hpoint
    rw [decimalParts_append (by rw [hmantissa]) hstop hpoint, hmantissa]
    rfl

theorem isNumeral_leadingNumeral (h : (DecimalParts.of cs).digits ≠ []) :
    isNumeral (leadingNumeral cs) = true := by
  have hmantissa := decimalParts_mantissa cs
  refine isNumeral_iff_append.mpr ⟨_, _, rfl, ?_, ?_, ?_⟩
  · rw [hmantissa]
  · rw [hmantissa]
    exact h
  · exact (leadingExponent_spec _).imp_right And.left

theorem length_le_leadingNumeral (hq : isNumeral q = true) (h : q <+: cs) :
    (DecimalParts.of cs).digits ≠ [] ∧ q.length ≤ (leadingNumeral cs).length := by
  obtain ⟨behind, rfl⟩ := h
  obtain ⟨m, e, rfl, hm, hcount, rfl | he⟩ := isNumeral_iff_append.mp hq
  · rw [List.append_nil, leadingNumeral, List.length_append]
    obtain ⟨hdigits, hlength⟩ := mantissa_le hm behind
    refine ⟨List.ne_nil_of_length_pos ?_, hlength.trans (Nat.le_add_right ..)⟩
    exact (List.length_pos_iff.mpr hcount).trans_le hdigits
  · obtain ⟨hstop, hpoint⟩ := he.stops behind
    have hparts := decimalParts_append hm hstop hpoint
    have hexponent := length_le_leadingExponent he (List.prefix_append e behind)
    rw [List.append_assoc, leadingNumeral, hparts, List.length_append, List.length_append]
    refine ⟨hcount, Nat.add_le_add (le_of_eq ?_) hexponent⟩
    exact congrArg List.length (mantissa_eq_self hm).symm

/-! ### Conversion -/

def IsNumeralChar (c : Char) : Prop := c.isDigit = true ∨ c ∈ ['.', 'e', 'E', '+', '-']

theorem isNumeralChar_of_isNumeral (h : isNumeral cs = true) : ∀ c ∈ cs, IsNumeralChar c := by
  obtain ⟨m, e, rfl, hm, -, he⟩ := isNumeral_iff_append.mp h
  refine List.forall_mem_append.mpr ⟨?_, ?_⟩
  · have hsplits := splits m
    generalize DecimalParts.of m = parts at *
    cases hsplits with
    | whole hw =>
      subst hm
      rw [List.append_nil]
      exact fun c hc => .inl (hw c hc)
    | point hw hf =>
      subst hm
      rw [List.append_nil]
      exact List.forall_mem_append.mpr ⟨fun c hc => .inl (hw c hc),
        List.forall_mem_cons.mpr ⟨.inr (by simp), fun c hc => .inl (hf c hc)⟩⟩
  · rcases he with rfl | ⟨hmark, hsign, -, hdigits⟩
    · exact fun c hc => absurd hc List.not_mem_nil
    · refine List.forall_mem_cons.mpr ⟨.inr ?_, List.forall_mem_append.mpr
        ⟨fun c hc => .inr ?_, fun c hc => .inl (hdigits c hc)⟩⟩
      · rcases hmark with rfl | rfl <;> simp
      · rcases mem_signs.mp hsign with rfl | rfl | rfl
        · cases hc
        · simp_all
        · simp_all

theorem head_of_isNumeral (h : isNumeral cs = true) :
    ∃ first rest, cs = first :: rest ∧ StartsNumeral first rest :=
  digits_ne_nil_iff.mp (isNumeral_iff.mp h).1

theorem not_sign_of_isNumeral (h : isNumeral cs = true) :
    ∀ c ∈ cs.head?, c ≠ '+' ∧ c ≠ '-' := by
  obtain ⟨first, rest, rfl, hfirst⟩ := head_of_isNumeral h
  rintro c hc
  cases hc
  constructor <;> (rintro rfl; rcases hfirst with h | ⟨h, -⟩ <;> cases h)

theorem startsWithSign_of_isNumeral (h : isNumeral cs = true) : startsWithSign cs = false := by
  have hhead := not_sign_of_isNumeral h
  obtain ⟨first, rest, rfl, -⟩ := head_of_isNumeral h
  obtain ⟨hplus, hminus⟩ := hhead first rfl
  simp [startsWithSign, Ne.symm hplus, Ne.symm hminus]

theorem bounds_of_isNumeralChar {c : Char} (h : IsNumeralChar c) :
    33 ≤ c.toNat ∧ c.toNat ≤ 101 := by
  rcases h with h | h
  · have hdigit : 48 ≤ c.toNat ∧ c.toNat ≤ 57 := Char.isDigit_iff_toNat.mp h
    omega
  · have hall : ['.', 'e', 'E', '+', '-'].all (fun c => 33 ≤ c.toNat && c.toNat ≤ 101) = true := by
      decide
    simpa using List.all_eq_true.mp hall c h

theorem trimBlanks_eq_self (h : ∀ c ∈ cs, Text.isBlank c = false) : Text.trimBlanks cs = cs := by
  have hdrop {cs : List Char} (h : ∀ c ∈ cs, Text.isBlank c = false) :
      cs.dropWhile Text.isBlank = cs := by
    cases cs with
    | nil => rfl
    | cons c cs =>
      exact List.dropWhile_cons_of_neg (by simpa using h c List.mem_cons_self)
  rw [Text.trimBlanks, Text.dropBlanks, hdrop h, hdrop fun c hc => h c (List.mem_reverse.mp hc),
    List.reverse_reverse]

theorem radixPrefix?_eq_none (h : ∀ c ∈ cs, IsNumeralChar c) : radixPrefix? cs = none := by
  unfold radixPrefix?
  split
  · next c rest =>
    have hne (d : Char) (hd : ¬ (d.isDigit = true ∨ d ∈ ['.', 'e', 'E', '+', '-'])) :
        (c == d) = false :=
      beq_eq_false_iff_ne.mpr fun heq => hd (heq ▸ h c (by simp))
    simp [hne 'x' (by decide), hne 'X' (by decide), hne 'o' (by decide), hne 'O' (by decide),
      hne 'b' (by decide), hne 'B' (by decide)]
  · rfl

theorem splitSign_append {sign : List Char} (hsign : sign ∈ signs)
    (h : ∀ c ∈ cs.head?, c ≠ '+' ∧ c ≠ '-') : splitSign (sign ++ cs) = (sign == ['-'], cs) := by
  rcases mem_signs.mp hsign with rfl | rfl | rfl
  · rw [List.nil_append, splitSign.eq_3]
    · rfl
    · rintro rest rfl
      exact (h '-' rfl).2 rfl
    · rintro rest rfl
      exact (h '+' rfl).1 rfl
  · rfl
  · rfl

theorem splitSign_of_startsWithSign {sign : List Char} (hsign : sign ∈ signs)
    (h : startsWithSign (sign ++ cs) = !sign.isEmpty) : (splitSign (sign ++ cs)).2 = cs := by
  rcases mem_signs.mp hsign with rfl | rfl | rfl
  · rw [splitSign_append hsign fun c hc => ?_]
    obtain ⟨rest, rfl⟩ := List.head?_eq_some_iff.mp hc
    constructor <;> (rintro rfl; cases h)
  · rfl
  · rfl

/-- A text that is a decimal numeral with a sign or none has the value of the numeral, unless its
digits are too many to be counted. -/
theorem ofChars_numeral {sign : List Char} (hsign : sign ∈ signs) (h : isNumeral cs = true) :
    ofChars (sign ++ cs) =
      if Uncounted cs then nan else signed (sign == ['-']) (decimalValue cs) := by
  obtain ⟨first, rest, rfl, hfirst⟩ := head_of_isNumeral h
  have hchars : ∀ c ∈ sign ++ first :: rest, IsNumeralChar c := by
    refine List.forall_mem_append.mpr ⟨fun c hc => .inr ?_, isNumeralChar_of_isNumeral h⟩
    rcases mem_signs.mp hsign with rfl | rfl | rfl <;> simp_all
  have htrim := trimBlanks_eq_self fun c hc => by
    have := bounds_of_isNumeralChar (hchars c hc)
    exact Text.isBlank_of_bounds this.1 (by omega)
  have hleads := radixPrefix?_eq_none hchars
  have hsplit := splitSign_append hsign (not_sign_of_isNumeral h)
  have hword : (first :: rest == infinityWord) = false := by
    rw [beq_eq_false_iff_ne]
    intro heq
    obtain rfl : first = 'I' := (List.cons.inj heq).1
    rcases hfirst with h | ⟨h, -⟩ <;> cases h
  unfold ofChars
  rw [htrim]
  dsimp only
  rw [hleads, if_neg (by simp)]
  dsimp only
  rw [hsplit]
  dsimp only
  rw [hword, if_neg Bool.false_ne_true]
  by_cases hcounted : Uncounted (first :: rest)
  · rw [if_pos hcounted, if_neg fun hdecimal => (isDecimal_iff.mp hdecimal).2 hcounted]
  · rw [if_neg hcounted, if_pos (isDecimal_iff.mpr ⟨h, hcounted⟩)]

theorem ofChars_infinityWord {sign : List Char} (hsign : sign ∈ signs) :
    ofChars (sign ++ infinityWord) = signed (sign == ['-']) infinity := by
  rcases mem_signs.mp hsign with rfl | rfl | rfl <;> rfl

/-! ### Texts of digits -/

theorem isNumeral_digits (hne : w ≠ []) (hw : AreDigits w) : isNumeral w = true :=
  isNumeral_iff_mantissa.mpr ⟨w, [], (List.append_nil w).symm, .whole hne hw, .inl rfl⟩

theorem digits_of_areDigits (hw : AreDigits w) : (DecimalParts.of w).digits = w := by
  rw [decimalParts_digits hw]
  exact List.append_nil w

theorem uncounted_digits_iff (hw : AreDigits w) :
    Uncounted w ↔ w ≠ [] ∧ w.length % 4294967296 = 0 := by
  rw [Uncounted, digits_of_areDigits hw]

theorem leadingNumeral_digits (hw : AreDigits w) : leadingNumeral w = w := by
  rw [leadingNumeral, decimalParts_digits hw]
  simp [DecimalParts.mantissa, leadingExponent, ExponentParts.of?]

theorem decimalValue_digits (hw : AreDigits w) :
    decimalValue w = Float.ofScientific (naturalOfDigits w) false 0 := by
  unfold decimalValue
  dsimp only
  rw [digits_of_areDigits hw, decimalParts_digits hw]
  rfl

theorem naturalOfDigits_zeros (n : Nat) (w : List Char) :
    naturalOfDigits (.replicate n '0' ++ w) = naturalOfDigits w := by
  induction n with
  | zero => rfl
  | succ n ih => exact ih

theorem areDigits_zeros (n : Nat) (hw : AreDigits w) : AreDigits (.replicate n '0' ++ w) :=
  List.forall_mem_append.mpr ⟨fun c hc => by rw [List.eq_of_mem_replicate hc]; rfl, hw⟩

end Number

end ProtoScript
