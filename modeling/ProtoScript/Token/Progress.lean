import ProtoScript.Token.Literal
/-!
# Readers move forward

Each reader of a kind of token leaves at most what it was given, and at least one character less
where it has a first character of its own.  These lemmas are why splitting a text into tokens ends.
-/

namespace ProtoScript.Token

theorem length_dropWhile_le (test : Char → Bool) (cs : List Char) :
    (cs.dropWhile test).length ≤ cs.length :=
  (List.dropWhile_suffix test).length_le

theorem length_rest_readString {strict : Bool} {quote : Char} {c : Cursor} {content : List Char}
    {r : String × Cursor} (h : readString strict quote c content = .ok r) :
    r.2.rest.length ≤ c.rest.length := by
  fun_induction readString strict quote c content with
  | case1 => cases h
  | case2 => cases h; exact length_rest_step
  | case3 _ _ _ _ _ _ _ _ he ih =>
    have escape := Nat.le_of_lt (length_rest_readEscape he)
    exact Nat.le_trans (ih h) (Nat.le_trans escape length_rest_step)
  | case4 => cases h
  | case5 => cases h
  | case6 _ _ _ _ _ _ _ ih => exact Nat.le_trans (ih h) length_rest_step

theorem length_rest_takeDigits (radix : Nat) (cs : List Char) (p : Position) :
    (takeDigits radix cs p).2.rest.length ≤ cs.length := by
  fun_induction takeDigits radix cs p with
  | case1 => simp
  | case2 _ _ _ _ _ _ hd ih => simp only [hd] at ih; simp only [List.length_cons]; omega
  | case3 _ _ _ _ _ ih => simp only [List.length_cons]; omega
  | case4 => exact Nat.le_refl _

theorem length_rest_digitsAt (radix : Nat) (c : Cursor) :
    (digitsAt radix c).2.rest.length ≤ c.rest.length :=
  length_rest_takeDigits radix c.rest c.position

theorem length_rest_readExponent {c : Cursor} {r : List Char × Cursor}
    (h : readExponent c = .ok r) : r.2.rest.length ≤ c.rest.length := by
  unfold readExponent at h
  dsimp only at h
  split at h
  · split at h
    · cases h
    · cases h
      refine Nat.le_trans (length_rest_digitsAt _ _) (Nat.le_trans ?_ length_rest_step)
      simp [Cursor.skip]
  · cases h; exact Nat.le_refl _

theorem length_rest_readMantissa (first : Char) (c : Cursor) :
    (readMantissa first c).2.rest.length ≤ c.rest.length := by
  unfold readMantissa
  split
  · exact length_rest_digitsAt _ _
  · dsimp only
    split
    · exact Nat.le_trans (length_rest_digitsAt _ _)
        (Nat.le_trans length_rest_step (length_rest_digitsAt _ _))
    · exact length_rest_digitsAt _ _

variable [Text.IdentifierClasses]

theorem length_rest_endNumber {token : Token} {c : Cursor} {r : Token × Cursor}
    (h : endNumber token c = .ok r) : r.2.rest.length ≤ c.rest.length := by
  unfold endNumber at h
  split at h
  · cases h
  · cases h; exact Nat.le_refl _

theorem length_rest_readRadixNumber {radix : Nat} {c : Cursor} {r : Token × Cursor}
    (h : readRadixNumber radix c = .ok r) : r.2.rest.length ≤ c.rest.length := by
  unfold readRadixNumber at h
  dsimp only at h
  split at h
  · cases h
  · exact Nat.le_trans (length_rest_endNumber h) (length_rest_digitsAt radix c)

theorem length_rest_readLeadingZero {strict : Bool} {c : Cursor} {r : Token × Cursor}
    (h : readLeadingZero strict c = .ok r) : r.2.rest.length ≤ c.rest.length := by
  unfold readLeadingZero at h
  dsimp only at h
  split at h
  · cases h
  · split at h <;> exact Nat.le_trans (length_rest_endNumber h) (length_dropWhile_le _ _)

theorem length_rest_readDecimal {first : Char} {c : Cursor} {r : Token × Cursor}
    (h : readDecimal first c = .ok r) : r.2.rest.length ≤ c.rest.length := by
  unfold readDecimal at h
  cases he : readExponent (readMantissa first c).2 with
  | error e => simp [he, bind, Except.bind] at h
  | ok d =>
    simp only [he, bind, Except.bind] at h
    exact Nat.le_trans (length_rest_endNumber h)
      (Nat.le_trans (length_rest_readExponent he) (length_rest_readMantissa first c))

theorem length_rest_readNumber {strict : Bool} {first : Char} {c : Cursor} {r : Token × Cursor}
    (h : readNumber strict first c = .ok r) : r.2.rest.length ≤ c.rest.length := by
  unfold readNumber at h
  split at h
  · exact Nat.le_trans (length_rest_readRadixNumber h) length_rest_step
  · split at h
    · exact length_rest_readLeadingZero h
    · exact length_rest_readDecimal h

theorem length_rest_readName {c : Cursor} {name : List Char} {escaped : Bool}
    {r : String × Bool × Cursor} (h : readName c name escaped = .ok r) :
    r.2.2.rest.length ≤ c.rest.length := by
  fun_induction readName c name escaped with
  | case1 => cases h; exact Nat.le_refl _
  | case2 _ _ _ _ _ _ _ _ _ he ih =>
    exact Nat.le_trans (ih h) (Nat.le_trans (length_rest_readUnicodeEscape he)
      (Nat.le_trans length_rest_step length_rest_step))
  | case3 => cases h
  | case4 => cases h
  | case5 _ _ _ _ _ _ _ ih => exact Nat.le_trans (ih h) length_rest_step
  | case6 => cases h; exact Nat.le_refl _

/-- A name that starts with an escape takes at least the backslash. -/
theorem length_rest_readName_escape {c : Cursor} {r : String × Bool × Cursor}
    (hc : c.peek? = some '\\') (h : readName c [] false = .ok r) :
    r.2.2.rest.length < c.rest.length := by
  rw [readName] at h
  split at h
  · next hn => rw [hn] at hc; cases hc
  · next ch hch =>
    obtain rfl : ch = '\\' := Option.some.inj (hch.symm.trans hc)
    simp only [beq_self_eq_true, ↓reduceIte] at h
    split at h
    · split at h
      · next he =>
        exact Nat.lt_of_le_of_lt (Nat.le_trans (length_rest_readName h)
          (Nat.le_trans (length_rest_readUnicodeEscape he) length_rest_step))
          (length_rest_step_lt hc)
      · cases h
    · cases h

theorem length_rest_readWord {first : Char} {c : Cursor} {r : Token × Cursor}
    (hc : c.peek? = some first) (h : readWord first c = .ok r) :
    r.2.rest.length < c.rest.length := by
  unfold readWord at h
  split at h
  · next hf =>
    obtain rfl : first = '\\' := by simpa using hf
    cases hn : readName c [] false with
    | error e => simp [hn, bind, Except.bind] at h
    | ok d =>
      simp only [hn, bind, Except.bind] at h
      cases h
      exact length_rest_readName_escape hc hn
  · cases hn : readName c.step [first] false with
    | error e => simp [hn, bind, Except.bind] at h
    | ok d =>
      simp only [hn, bind, Except.bind] at h
      cases h
      exact Nat.lt_of_le_of_lt (length_rest_readName hn) (length_rest_step_lt hc)

end ProtoScript.Token
