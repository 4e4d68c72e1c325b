import ProtoScript.Proofs.Numerals.Decimal
/-!
# Numerals at the start of a text

The numeral at the start of a text is looked for greedily, in the bytes of the text.  It is the
longest start of the text that is a numeral, and it ends where a character does.
-/

namespace ProtoScript.Number

variable {cs w f q : List Char}

/-! ### Bytes -/

def IsAscii (cs : List Char) : Prop := ∀ c ∈ cs, c.toNat < 128

theorem utf8EncodeChar_ascii {c : Char} (h : c.toNat < 128) :
    String.utf8EncodeChar c = [c.toUInt8] := by
  unfold String.utf8EncodeChar
  exact if_pos (Nat.le_of_lt_succ h)

theorem utf8EncodeChar_wide {c : Char} (h : 128 ≤ c.toNat) :
    ∃ b bytes, String.utf8EncodeChar c = b :: bytes ∧ 128 ≤ b.toNat := by
  unfold String.utf8EncodeChar
  dsimp only
  rw [if_neg (show ¬ c.val.toNat ≤ 127 from Nat.not_le_of_lt h)]
  split
  · exact ⟨_, _, rfl, by rw [UInt8.toNat_ofNat']; omega⟩
  split
  · exact ⟨_, _, rfl, by rw [UInt8.toNat_ofNat']; omega⟩
  · exact ⟨_, _, rfl, by rw [UInt8.toNat_ofNat']; omega⟩

theorem utf8_append (cs ds : List Char) : utf8 (cs ++ ds) = utf8 cs ++ utf8 ds :=
  List.flatMap_append

theorem length_utf8 (h : IsAscii cs) : (utf8 cs).length = cs.length := by
  induction cs with
  | nil => rfl
  | cons c cs ih =>
    rw [utf8, List.flatMap_cons, utf8EncodeChar_ascii (h c List.mem_cons_self)]
    exact congrArg (· + 1) (ih fun d hd => h d (List.mem_cons_of_mem c hd))

theorem toNat_toUInt8 {c : Char} (h : c.toNat < 128) : c.toUInt8.toNat = c.toNat := by
  change c.toNat % 256 = c.toNat
  omega

/-- A test of bytes that is one of characters, as far as these are one byte long, and passes no
other. -/
structure TestsBytes (byteTest : UInt8 → Bool) (test : Char → Bool) : Prop where
  ascii : ∀ c, c.toNat < 128 → byteTest c.toUInt8 = test c
  byte : ∀ b, 128 ≤ b.toNat → byteTest b = false
  char : ∀ c, 128 ≤ c.toNat → test c = false

variable {byteTest : UInt8 → Bool} {test : Char → Bool}

theorem testsBytes_isDigit : TestsBytes isDigitByte Char.isDigit where
  ascii c hc := by
    rw [Bool.eq_iff_iff, isDigitByte, Bool.and_eq_true, decide_eq_true_iff, decide_eq_true_iff,
      UInt8.le_iff_toNat_le, UInt8.le_iff_toNat_le, toNat_toUInt8 hc, Char.isDigit_iff_toNat]
    rfl
  byte b hb := by
    rw [isDigitByte, Bool.and_eq_false_iff, decide_eq_false_iff_not, decide_eq_false_iff_not,
      UInt8.le_iff_toNat_le, UInt8.le_iff_toNat_le]
    right
    change ¬ b.toNat ≤ 57
    omega
  char c hc := by
    rw [← Bool.not_eq_true, Char.isDigit_iff_toNat]
    change ¬ (48 ≤ c.toNat ∧ c.toNat ≤ 57)
    omega

theorem testsBytes_any {signs : List Char} (h : IsAscii signs) :
    TestsBytes (fun b => signs.any fun c => c.toUInt8 == b) fun d => signs.any (· == d) where
  ascii d hd := by
    refine Bool.eq_iff_iff.mpr ?_
    simp only [List.any_eq_true, beq_iff_eq]
    refine exists_congr fun c => and_congr_right fun hc => ⟨fun heq => ?_, fun heq => by rw [heq]⟩
    have hnat := congrArg UInt8.toNat heq
    rw [toNat_toUInt8 (h c hc), toNat_toUInt8 hd] at hnat
    exact Char.toNat_inj.mp hnat
  byte b hb := by
    refine List.any_eq_false.mpr fun c hc heq => ?_
    have hnat := toNat_toUInt8 (h c hc)
    rw [eq_of_beq heq] at hnat
    have := h c hc
    omega
  char d hd := by
    refine List.any_eq_false.mpr fun c hc heq => ?_
    have := h c hc
    rw [eq_of_beq heq] at this
    omega

theorem TestsBytes.head (h : TestsBytes byteTest test) (cs : List Char) :
    (utf8 cs).head?.any byteTest = cs.head?.any test := by
  cases cs with
  | nil => rfl
  | cons c cs =>
    rw [utf8, List.flatMap_cons]
    rcases Nat.lt_or_ge c.toNat 128 with hc | hc
    · rw [utf8EncodeChar_ascii hc]
      exact h.ascii c hc
    · obtain ⟨b, bytes, hbytes, hb⟩ := utf8EncodeChar_wide hc
      rw [hbytes]
      exact (h.byte b hb).trans (h.char c hc).symm

theorem TestsBytes.takeWhile (h : TestsBytes byteTest test) (cs : List Char) :
    ((utf8 cs).takeWhile byteTest).length = (cs.takeWhile test).length := by
  induction cs with
  | nil => rfl
  | cons c cs ih =>
    rw [utf8, List.flatMap_cons]
    rcases Nat.lt_or_ge c.toNat 128 with hc | hc
    · rw [utf8EncodeChar_ascii hc, List.singleton_append, List.takeWhile_cons,
        List.takeWhile_cons, h.ascii c hc]
      split
      · exact congrArg (· + 1) ih
      · rfl
    · obtain ⟨b, bytes, hbytes, hb⟩ := utf8EncodeChar_wide hc
      rw [hbytes, List.cons_append, List.takeWhile_cons, List.takeWhile_cons, h.byte b hb,
        h.char c hc]
      rfl

theorem digitsFrom_utf8 (h : IsAscii w) (cs : List Char) :
    digitsFrom (utf8 (w ++ cs)) w.length = (cs.takeWhile Char.isDigit).length := by
  rw [digitsFrom, utf8_append, ← length_utf8 h, List.drop_left]
  exact testsBytes_isDigit.takeWhile cs

theorem standsAt_utf8 {signs : List Char} (hsigns : IsAscii signs) (h : IsAscii w)
    (cs : List Char) :
    standsAt signs (utf8 (w ++ cs)) w.length = cs.head?.any fun d => signs.any (· == d) := by
  rw [standsAt, utf8_append, ← length_utf8 h, List.getElem?_append_right (Nat.le_refl _),
    Nat.sub_self, ← List.head?_eq_getElem?]
  exact (testsBytes_any hsigns).head cs

theorem sliceTo?_append (h : IsAscii w) (cs : List Char) :
    sliceTo? (w ++ cs) w.length = some w := by
  induction w with
  | nil => cases cs <;> rfl
  | cons c w ih =>
    have hsize : c.utf8Size = 1 := by
      have hc : c.val.toNat < 128 := h c List.mem_cons_self
      unfold Char.utf8Size
      exact if_pos (UInt32.le_iff_toNat_le.mpr (Nat.le_of_lt_succ hc))
    rw [List.cons_append, List.length_cons, sliceTo?, if_pos (by omega), hsize, Nat.add_sub_cancel,
      ih fun d hd => h d (List.mem_cons_of_mem c hd)]
    rfl

/-! ### The scanner -/

theorem isAscii_of_areDigits (h : AreDigits w) : IsAscii w := fun c hc => by
  have hdigit : 48 ≤ c.toNat ∧ c.toNat ≤ 57 := Char.isDigit_iff_toNat.mp (h c hc)
  omega

theorem IsAscii.append (hw : IsAscii w) (hf : IsAscii f) : IsAscii (w ++ f) :=
  List.forall_mem_append.mpr ⟨hw, hf⟩

theorem mantissaEnd_utf8 (h : IsAscii w) (cs : List Char) :
    mantissaEnd (utf8 (w ++ cs)) w.length =
      (w.length + (DecimalParts.of cs).mantissa.length, (DecimalParts.of cs).digits.length) := by
  have hdot : IsAscii ['.'] := by simp [IsAscii]
  have hsplits := splits cs
  generalize DecimalParts.of cs = parts at *
  cases hsplits with
  | @whole d rest hd hstop hpoint =>
    have hascii := h.append (isAscii_of_areDigits hd)
    have hstands := standsAt_utf8 hdot hascii rest
    rw [List.length_append, List.append_assoc] at hstands
    have hnone : (rest.head?.any fun c => ['.'].any (· == c)) = false := by
      cases rest with
      | nil => rfl
      | cons c rest =>
        have hne : ('.' == c) = false := beq_eq_false_iff_ne.mpr fun hc => hpoint (by rw [hc]; rfl)
        simp [hne]
    unfold mantissaEnd
    dsimp only
    rw [digitsFrom_utf8 h, takeWhile_append_stop hd hstop, hstands, hnone]
    simp [DecimalParts.mantissa, DecimalParts.digits]
  | @point d f rest hd hf hstop =>
    have hascii := h.append (isAscii_of_areDigits hd)
    have hstands := standsAt_utf8 hdot hascii ('.' :: (f ++ rest))
    have hfraction := digitsFrom_utf8 (hascii.append hdot) (f ++ rest)
    rw [List.length_append, List.append_assoc] at hstands
    rw [List.length_append, List.length_append, List.append_assoc, List.append_assoc,
      List.singleton_append, takeWhile_append_stop hf hstop] at hfraction
    have hbefore : Stops Char.isDigit ('.' :: (f ++ rest)) := fun c hc => by
      cases hc
      rfl
    unfold mantissaEnd
    dsimp only
    rw [digitsFrom_utf8 h, takeWhile_append_stop hd hbefore, hstands, if_pos (by rfl)]
    rw [List.length_singleton] at hfraction
    rw [hfraction]
    simp [DecimalParts.mantissa, DecimalParts.digits]
    omega

theorem exponentEnd_utf8 (h : IsAscii w) (cs : List Char) :
    exponentEnd (utf8 (w ++ cs)) w.length = w.length + (leadingExponent cs).length := by
  have hmarks : IsAscii ['e', 'E'] := by simp [IsAscii]
  have hsigns : IsAscii ['+', '-'] := by simp [IsAscii]
  unfold exponentEnd
  rw [standsAt_utf8 hmarks h]
  cases cs with
  | nil => rfl
  | cons mark body =>
    have hmark : ((mark :: body).head?.any fun d => ['e', 'E'].any (· == d)) =
        (mark == 'e' || mark == 'E') := by
      simp [Bool.beq_comm]
    rw [leadingExponent, ExponentParts.of?, hmark]
    split
    · next hm =>
      have hascii : IsAscii [mark] := by
        intro c hc
        obtain rfl := List.mem_singleton.mp hc
        rcases (by simpa using hm : c = 'e' ∨ c = 'E') with rfl | rfl <;> decide
      have hstands := standsAt_utf8 hsigns (h.append hascii) body
      rw [List.length_append, List.length_singleton, List.append_assoc, List.singleton_append]
        at hstands
      obtain ⟨sign, behind, rfl, hmem, hsign, hany⟩ := exists_sign body
      have hsignAscii : IsAscii sign := by
        rcases mem_signs.mp hmem with rfl | rfl | rfl <;> simp [IsAscii]
      have hdigits := digitsFrom_utf8 ((h.append hascii).append hsignAscii) behind
      rw [List.length_append, List.length_append, List.length_singleton, List.append_assoc,
        List.append_assoc, List.singleton_append] at hdigits
      have hfirst : (if standsAt ['+', '-'] (utf8 (w ++ mark :: (sign ++ behind))) (w.length + 1)
          then w.length + 2 else w.length + 1) = w.length + 1 + sign.length := by
        rw [hstands, ← startsWithSign, hany]
        rcases mem_signs.mp hmem with rfl | rfl | rfl <;> rfl
      dsimp only
      rw [hsign, List.drop_left, hfirst, hdigits]
      split
      · next hpos =>
        rw [if_neg (by simpa using List.ne_nil_of_length_pos hpos)]
        simp only [List.length_cons, List.length_append]
        omega
      · next hzero =>
        rw [if_pos (by simpa using hzero)]
        rfl
    · rfl

/-- The numeral that the bytes of a text start with ends where the characters of its sign and of its
numeral do. -/
theorem numeralEnd?_utf8 {sign : List Char} (hsign : sign ∈ signs)
    (hhead : startsWithSign (sign ++ cs) = !sign.isEmpty) :
    numeralEnd? (utf8 (sign ++ cs)) =
      if (DecimalParts.of cs).digits = [] then none
      else some (sign ++ leadingNumeral cs).length := by
  have hascii : IsAscii sign := by
    rcases mem_signs.mp hsign with rfl | rfl | rfl <;> simp [IsAscii]
  have hsigns : IsAscii ['+', '-'] := by simp [IsAscii]
  have hnil : IsAscii [] := by simp [IsAscii]
  have hstart : (if standsAt ['+', '-'] (utf8 (sign ++ cs)) 0 then 1 else 0) = sign.length := by
    have hstands := standsAt_utf8 hsigns hnil (sign ++ cs)
    rw [List.nil_append, List.length_nil, ← startsWithSign, hhead] at hstands
    rw [hstands]
    rcases mem_signs.mp hsign with rfl | rfl | rfl <;> rfl
  unfold numeralEnd?
  rw [hstart, mantissaEnd_utf8 hascii]
  simp only [List.length_eq_zero_iff]
  split
  · rfl
  · next hdigits =>
    have hchars := isNumeralChar_of_isNumeral (isNumeral_leadingNumeral hdigits)
    have hmantissa : IsAscii (DecimalParts.of cs).mantissa := fun c hc => by
      have := bounds_of_isNumeralChar (hchars c (List.mem_append_left _ hc))
      omega
    have hend := exponentEnd_utf8 (hascii.append hmantissa) (DecimalParts.of cs).rest
    rw [List.append_assoc, mantissa_append_rest, List.length_append] at hend
    rw [hend, leadingNumeral, List.length_append, List.length_append, Nat.add_assoc]

theorem sliceTo?_leadingNumeral {sign : List Char} (hsign : sign ∈ signs)
    (h : (DecimalParts.of cs).digits ≠ []) :
    IsAscii (sign ++ leadingNumeral cs) ∧ sliceTo? (sign ++ cs)
      (sign ++ leadingNumeral cs).length = some (sign ++ leadingNumeral cs) := by
  have hsignAscii : IsAscii sign := by
    rcases mem_signs.mp hsign with rfl | rfl | rfl <;> simp [IsAscii]
  have hascii : IsAscii (sign ++ leadingNumeral cs) := hsignAscii.append fun c hc => by
    have := bounds_of_isNumeralChar (isNumeralChar_of_isNumeral (isNumeral_leadingNumeral h) c hc)
    omega
  obtain ⟨rest, hrest⟩ := leadingNumeral_isStart cs
  have hslice := sliceTo?_append hascii rest
  rw [List.append_assoc, hrest] at hslice
  exact ⟨hascii, hslice⟩

/-! ### The longest numeral -/

/-- The texts that are read at the start of a longer one: an infinity or a decimal numeral, with a
sign or none. -/
def IsFloatText (p : List Char) : Prop :=
  ∃ sign unsigned, sign ∈ signs ∧ (unsigned = infinityWord ∨ isDecimal unsigned = true) ∧
    p = sign ++ unsigned

theorem IsFloatText.exists_unsigned {sign : List Char} (hq : IsFloatText q) (hsign : sign ∈ signs)
    (hhead : startsWithSign (sign ++ cs) = !sign.isEmpty) (h : q <+: sign ++ cs) :
    ∃ unsigned, q = sign ++ unsigned ∧ unsigned <+: cs ∧
      (unsigned = infinityWord ∨ isDecimal unsigned = true) := by
  obtain ⟨sign', unsigned, hsign', hunsigned, rfl⟩ := hq
  have hplain : ∃ c rest, unsigned = c :: rest ∧ c ≠ '+' ∧ c ≠ '-' := by
    rcases hunsigned with rfl | hdecimal
    · exact ⟨'I', _, rfl, by decide, by decide⟩
    · have hnumeral := (isDecimal_iff.mp hdecimal).1
      obtain ⟨c, rest, rfl, -⟩ := head_of_isNumeral hnumeral
      exact ⟨c, rest, rfl, not_sign_of_isNumeral hnumeral c rfl⟩
  obtain ⟨c, rest, rfl, hplus, hminus⟩ := hplain
  suffices sign' = sign by
    subst this
    exact ⟨_, rfl, (List.prefix_append_right_inj _).mp h, hunsigned⟩
  obtain ⟨behind, hbehind⟩ := h
  have hstart : startsWithSign (sign' ++ c :: rest ++ behind) = !sign'.isEmpty := by
    rcases mem_signs.mp hsign' with rfl | rfl | rfl
    · simp [startsWithSign, Ne.symm hplus, Ne.symm hminus]
    · rfl
    · rfl
  have hsame : sign'.isEmpty = sign.isEmpty := Bool.not_inj (hstart.symm.trans (hbehind ▸ hhead))
  rcases mem_signs.mp hsign' with rfl | rfl | rfl <;>
    rcases mem_signs.mp hsign with rfl | rfl | rfl <;>
    first
    | rfl
    | exact Bool.noConfusion hsame
    | exact absurd (List.cons.inj hbehind).1 (by decide)

theorem parseFloat_infinity {sign body : List Char} (hsign : sign ∈ signs)
    (hcs : Text.dropBlanks cs = sign ++ body) (h : infinityWord <+: body) :
    parseFloat cs = ofChars (sign ++ infinityWord) := by
  obtain ⟨behind, rfl⟩ := h
  have hdrop : (sign ++ (infinityWord ++ behind)).dropWhile (fun c => c == '+' || c == '-') =
      infinityWord ++ behind := by
    rcases mem_signs.mp hsign with rfl | rfl | rfl <;> rfl
  have hhead : ((sign ++ (infinityWord ++ behind)).head? == some '-') = (sign == ['-']) := by
    rcases mem_signs.mp hsign with rfl | rfl | rfl <;> rfl
  have hlength : sign.length ≤ 1 := by
    rcases mem_signs.mp hsign with rfl | rfl | rfl <;> decide
  have hword : infinityWord.isPrefixOf (infinityWord ++ behind) = true :=
    List.isPrefixOf_iff_prefix.mpr (List.prefix_append ..)
  unfold parseFloat
  rw [hcs]
  dsimp only
  rw [hdrop, hword, hhead, ofChars_infinityWord hsign, if_pos]
  rw [Bool.true_and, decide_eq_true_iff, List.length_append]
  omega

/-- The word is looked for behind a run of signs, but then there may be one sign only.  A numeral is
read with all its digits. -/
theorem parseFloat_numeral {sign body : List Char} (hsign : sign ∈ signs)
    (hhead : startsWithSign (sign ++ body) = !sign.isEmpty)
    (hcs : Text.dropBlanks cs = sign ++ body) (h : ¬ infinityWord <+: body) :
    parseFloat cs = if (DecimalParts.of body).digits = [] then nan
      else signed (sign == ['-']) (decimalValue (leadingNumeral body)) := by
  obtain ⟨run, unsigned, htext, hrun, hstop⟩ :=
    exists_run (fun c => c == '+' || c == '-') (sign ++ body)
  have hword : (infinityWord.isPrefixOf unsigned &&
      decide ((sign ++ body).length ≤ unsigned.length + 1)) = false := by
    rw [← Bool.not_eq_true, Bool.and_eq_true, List.isPrefixOf_iff_prefix, decide_eq_true_iff]
    rintro ⟨hleads, hlength⟩
    refine h ?_
    obtain ⟨behind, rfl⟩ := hleads
    rw [htext, List.length_append] at hlength
    have hsame : sign.length = run.length := by
      rw [htext] at hhead
      cases run with
      | nil => simpa [startsWithSign, infinityWord] using hhead.symm
      | cons c run =>
        have hc : c = '+' ∨ c = '-' := by simpa using hrun c List.mem_cons_self
        have hne : sign ≠ [] := by
          rintro rfl
          rcases hc with rfl | rfl <;> cases hhead
        have := List.length_pos_iff.mpr hne
        have : sign.length ≤ 1 := by
          rcases mem_signs.mp hsign with rfl | rfl | rfl <;> decide
        rw [List.length_cons] at hlength ⊢
        omega
    rw [(List.append_inj htext hsame).2]
    exact List.prefix_append ..
  unfold parseFloat
  rw [hcs]
  dsimp only
  have hdrop := dropWhile_append_stop hrun hstop
  rw [← htext] at hdrop
  rw [hdrop, hword, if_neg Bool.false_ne_true, numeralEnd?_utf8 hsign hhead]
  by_cases hdigits : (DecimalParts.of body).digits = []
  · rw [if_pos hdigits, if_pos hdigits]
    rfl
  · have hnumeral := isNumeral_leadingNumeral hdigits
    rw [if_neg hdigits, if_neg hdigits, Option.bind_some,
      (sliceTo?_leadingNumeral hsign hdigits).2]
    dsimp only
    rw [ofNumeral, splitSign_append hsign (not_sign_of_isNumeral hnumeral)]
    exact if_pos hnumeral

theorem dropBlanks_of_isNumeral (h : isNumeral cs = true) : Text.dropBlanks cs = cs := by
  have hchars := isNumeralChar_of_isNumeral h
  obtain ⟨first, rest, rfl, -⟩ := head_of_isNumeral h
  have hbounds := bounds_of_isNumeralChar (hchars first List.mem_cons_self)
  refine List.dropWhile_cons_of_neg ?_
  rw [Text.isBlank_of_bounds hbounds.1 (by omega)]
  exact Bool.false_ne_true

/-- What is read at the start of a text is the longest start of it that can be read. -/
def ReadsLongest (cs : List Char) : Prop :=
  (∀ p, p <+: Text.dropBlanks cs → ¬ IsFloatText p) ∧ parseFloat cs = nan ∨
    ∃ p, p <+: Text.dropBlanks cs ∧ IsFloatText p ∧
      (∀ q, q <+: Text.dropBlanks cs → IsFloatText q → q.length ≤ p.length) ∧
      parseFloat cs = ofChars p

theorem uncounted_leadingNumeral_iff : Uncounted (leadingNumeral cs) ↔ Uncounted cs := by
  rw [Uncounted, Uncounted, digits_leadingNumeral]

theorem readsLongest_of_counted {sign body : List Char} (hsign : sign ∈ signs)
    (hhead : startsWithSign (sign ++ body) = !sign.isEmpty)
    (hcs : Text.dropBlanks cs = sign ++ body) (hcounted : ¬ Uncounted body) : ReadsLongest cs := by
  have hstarts {q : List Char} (h : q <+: sign ++ body) (hq : IsFloatText q) :=
    hq.exists_unsigned hsign hhead h
  unfold ReadsLongest
  rw [hcs]
  by_cases hword : infinityWord <+: body
  · refine .inr ⟨sign ++ infinityWord, (List.prefix_append_right_inj _).mpr hword,
      ⟨sign, _, hsign, .inl rfl, rfl⟩, fun q hq hfloat => ?_,
      parseFloat_infinity hsign hcs hword⟩
    obtain ⟨unsigned, rfl, hleads, rfl | hdecimal⟩ := hstarts hq hfloat
    · exact le_rfl
    · obtain ⟨behind, rfl⟩ := hword
      obtain ⟨c, rest, rfl, hc⟩ := head_of_isNumeral (isDecimal_iff.mp hdecimal).1
      obtain ⟨behind', hbehind'⟩ := hleads
      obtain rfl : c = 'I' := (List.cons.inj hbehind').1
      rcases hc with hc | ⟨hc, -⟩ <;> cases hc
  · rw [parseFloat_numeral hsign hhead hcs hword]
    split
    · next hdigits =>
      refine .inl ⟨fun q hq hfloat => ?_, rfl⟩
      obtain ⟨unsigned, rfl, hleads, rfl | hdecimal⟩ := hstarts hq hfloat
      · exact hword hleads
      · exact (length_le_leadingNumeral (isDecimal_iff.mp hdecimal).1 hleads).1 hdigits
    · next hdigits =>
      have hnumeral := isNumeral_leadingNumeral hdigits
      have hcounted' := mt uncounted_leadingNumeral_iff.mp hcounted
      refine .inr ⟨_, (List.prefix_append_right_inj _).mpr (leadingNumeral_isStart body),
        ⟨sign, _, hsign, .inr (isDecimal_iff.mpr ⟨hnumeral, hcounted'⟩), rfl⟩,
        fun q hq hfloat => ?_, ?_⟩
      · obtain ⟨unsigned, rfl, hleads, rfl | hdecimal⟩ := hstarts hq hfloat
        · exact absurd hleads hword
        · rw [List.length_append, List.length_append]
          exact Nat.add_le_add_left
            (length_le_leadingNumeral (isDecimal_iff.mp hdecimal).1 hleads).2 _
      · rw [ofChars_numeral hsign hnumeral, if_neg hcounted']

/-- What is read at the start of a text is the longest start of it that can be read, unless 32 bits
count none of the digits that stand there.  The bytes of its numeral end with a character. -/
theorem parseFloat_longest (cs : List Char) :
    (¬ Uncounted (splitSign (Text.dropBlanks cs)).2 → ReadsLongest cs) ∧
    ∀ stop, numeralEnd? (utf8 (Text.dropBlanks cs)) = some stop →
      ∃ p, p <+: Text.dropBlanks cs ∧ (utf8 p).length = stop ∧
        sliceTo? (Text.dropBlanks cs) stop = some p := by
  obtain ⟨sign, body, htext, hsign, -, hhead⟩ := exists_sign (Text.dropBlanks cs)
  have hhead' := hhead
  rw [htext] at hhead'
  constructor
  · intro hcounted
    refine readsLongest_of_counted hsign hhead' htext ?_
    rwa [htext, splitSign_of_startsWithSign hsign hhead'] at hcounted
  · intro stop hstop
    rw [htext] at hstop ⊢
    rw [numeralEnd?_utf8 hsign hhead'] at hstop
    split at hstop
    · cases hstop
    · next hdigits =>
      cases hstop
      obtain ⟨hascii, hslice⟩ := sliceTo?_leadingNumeral hsign hdigits
      exact ⟨_, (List.prefix_append_right_inj _).mpr (leadingNumeral_isStart body),
        length_utf8 hascii, hslice⟩

/-- The mark of an exponent without digits is not part of the numeral. -/
theorem parseFloat_longest_signed : ReadsLongest " -1.5e+x".toList :=
  (parseFloat_longest " -1.5e+x".toList).1 (by decide +kernel)

/-- Behind `2 ^ 32 - 1` digits one more is read, but the longest start that counts as a numeral ends
in front of it. -/
theorem not_readsLongest_digits {d : Char} (hw : AreDigits w) (hd : d.isDigit = true)
    (hlength : w.length = 4294967295) (hvalue : decimalValue (w ++ [d]) ≠ decimalValue w) :
    ¬ ReadsLongest (w ++ [d]) := by
  have hne : w ≠ [] := List.ne_nil_of_length_pos (by omega)
  have hall : AreDigits (w ++ [d]) :=
    List.forall_mem_append.mpr ⟨hw, List.forall_mem_singleton.mpr hd⟩
  have hnumeral := isNumeral_digits hne hw
  have hnumeral' := isNumeral_digits (List.append_ne_nil_of_left_ne_nil hne [d]) hall
  have hcounted : ¬ Uncounted w := by
    rw [uncounted_digits_iff hw, hlength]
    exact fun h => absurd h.2 (by decide)
  have huncounted : Uncounted (w ++ [d]) := by
    rw [uncounted_digits_iff hall, List.length_append, hlength]
    exact ⟨List.append_ne_nil_of_left_ne_nil hne _, by rw [List.length_singleton]⟩
  have hsign : [] ∈ signs := by decide
  have hhead : startsWithSign ([] ++ (w ++ [d])) = !([] : List Char).isEmpty :=
    startsWithSign_of_isNumeral hnumeral'
  have htext : Text.dropBlanks (w ++ [d]) = [] ++ (w ++ [d]) := dropBlanks_of_isNumeral hnumeral'
  have hword : ¬ infinityWord <+: w ++ [d] := fun h =>
    Bool.false_ne_true (hall 'I' (h.subset List.mem_cons_self))
  have hparsed : parseFloat (w ++ [d]) = decimalValue (w ++ [d]) := by
    rw [parseFloat_numeral hsign hhead htext hword, digits_of_areDigits hall,
      leadingNumeral_digits hall]
    exact if_neg (List.append_ne_nil_of_left_ne_nil hne _)
  have hread : ofChars w = decimalValue w := by
    rw [← List.nil_append w, ofChars_numeral hsign hnumeral, if_neg hcounted]
    rfl
  have hfloat : IsFloatText w := ⟨[], w, hsign, .inr (isDecimal_iff.mpr ⟨hnumeral, hcounted⟩), rfl⟩
  unfold ReadsLongest
  rw [htext, hparsed]
  rintro (⟨hnone, -⟩ | ⟨p, hp, hpfloat, hlongest, hsame⟩)
  · exact hnone w (List.prefix_append ..) hfloat
  · obtain ⟨unsigned, rfl, hleads, rfl | hdecimal⟩ := hpfloat.exists_unsigned hsign hhead hp
    · exact hword hleads
    · rcases List.prefix_concat_iff.mp hleads with rfl | hshorter
      · exact (isDecimal_iff.mp hdecimal).2 huncounted
      · have hwhole := hshorter.eq_of_length_le (hlongest w (List.prefix_append ..) hfloat)
        exact hvalue (hsame.trans ((congrArg ofChars hwhole).trans hread))

theorem not_readsLongest_zeros : ¬ ReadsLongest (.replicate 4294967295 '0' ++ ['7']) := by
  have hzeros := areDigits_zeros 4294967295 (w := []) nofun
  have hseven := areDigits_zeros 4294967295 (w := ['7']) (by decide)
  have hvalue := naturalOfDigits_zeros 4294967295 []
  rw [List.append_nil] at hzeros hvalue
  refine not_readsLongest_digits hzeros rfl List.length_replicate ?_
  rw [decimalValue_digits hzeros, decimalValue_digits hseven, hvalue, naturalOfDigits_zeros]
  decide +kernel

end ProtoScript.Number
