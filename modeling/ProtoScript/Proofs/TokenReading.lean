import ProtoScript.Grammar.TokenStream
/-!
# Reading tokens

A token takes characters of the text, unless it is the end of the text.  Strict mode rejects octal
escapes and leading zeros and leaves every other token as it is, so what can be read in strict mode
can be read in either mode, with the same result.
-/

namespace ProtoScript

namespace Token

variable {c : Cursor}

theorem readEscape_of_strict (strict : Bool) {r : List Char × Cursor}
    (h : readEscape true c = .ok r) : readEscape strict c = .ok r := by
  cases strict with
  | true => exact h
  | false =>
    unfold readEscape at h ⊢
    dsimp only at h ⊢
    split at h
    · cases h
    split at h
    · exact h
    split at h
    · next hzero => rw [if_pos hzero]; exact h
    next hzero =>
    rw [if_neg hzero]
    split at h
    · cases h
    · exact h

theorem readString_of_strict (strict : Bool) {quote : Char} {content : List Char}
    {r : String × Cursor} (h : readString true quote c content = .ok r) :
    readString strict quote c content = .ok r := by
  fun_induction readString true quote c content with
  | case1 => cases h
  | case2 c content ch hc hquote =>
    rw [readString]
    split <;> simp_all
  | case3 c content ch hc hquote hslash chars next he ih =>
    have he' := readEscape_of_strict strict he
    rw [readString]
    split
    · simp_all
    · next ch' hc' =>
      obtain rfl : ch = ch' := Option.some.inj (hc.symm.trans hc')
      rw [if_neg hquote, if_pos hslash]
      split
      · next he'' =>
        rw [he'] at he''
        cases he''
        exact ih h
      · next he'' =>
        rw [he'] at he''
        cases he''
  | case4 => cases h
  | case5 => cases h
  | case6 c content ch hc hquote hslash hbreak ih =>
    rw [readString]
    split
    · simp_all
    · next ch' hc' =>
      obtain rfl : ch = ch' := Option.some.inj (hc.symm.trans hc')
      rw [if_neg hquote, if_neg hslash, if_neg hbreak]
      exact ih h

theorem readNumber_of_strict (strict : Bool) {first : Char} {r : Token × Cursor}
    (h : readNumber true first c = .ok r) : readNumber strict first c = .ok r := by
  unfold readNumber at h ⊢
  split
  · next heq => simpa only [heq] using h
  · next heq =>
    simp only [heq] at h
    split at h
    · simp only [readLeadingZero, if_true] at h
      cases h
    · next hzero => rwa [if_neg hzero]

theorem readToken_of_strict (strict : Bool) {ch : Char} {r : Token × Cursor}
    (h : readToken true ch c = .ok r) : readToken strict ch c = .ok r := by
  unfold readToken at h ⊢
  split at h
  · next hquote =>
    rw [if_pos hquote]
    cases hs : readString true ch c.step [] with
    | error e =>
      rw [hs] at h
      cases h
    | ok found =>
      rw [hs] at h
      rw [readString_of_strict strict hs]
      exact h
  · next hquote =>
    rw [if_neg hquote]
    split at h
    · next hdigit => rw [if_pos hdigit]; exact readNumber_of_strict strict h
    · next hdigit => rw [if_neg hdigit]; exact h

theorem readLexeme_of_strict (strict : Bool) {l : Lexeme} (h : readLexeme true c = .ok l) :
    readLexeme strict c = .ok l := by
  unfold readLexeme at h ⊢
  split at h
  · exact h
  · next ch _ =>
    dsimp only
    split at h
    · next hbreak => rwa [if_pos hbreak]
    · next hbreak =>
      rw [if_neg hbreak]
      cases ht : readToken true ch c with
      | error e =>
        rw [ht] at h
        cases h
      | ok found =>
        rw [ht] at h
        rw [readToken_of_strict strict ht]
        exact h

/-- A token that can be read in strict mode is read alike in either mode. -/
theorem next_of_strict (strict : Bool) {l : Lexeme} (h : next true c = .ok l) :
    next strict c = .ok l := by
  fun_induction next true c with
  | case1 c hg ih =>
    rw [next]
    split
    · exact ih h
    · simp_all
    · simp_all
  | case2 c hg behind hb =>
    rw [next]
    split
    · simp_all
    · split
      · next hb' =>
        rw [hb] at hb'
        cases hb'
        exact h
      · simp_all
      · simp_all
    · simp_all
  | case3 c hg behind hb ih =>
    rw [next]
    split
    · simp_all
    · split
      · simp_all
      · next hb' =>
        rw [hb] at hb'
        cases hb'
        exact ih h
      · simp_all
    · simp_all
  | case4 => cases h
  | case5 c hg =>
    rw [next]
    split
    · simp_all
    · simp_all
    · exact readLexeme_of_strict strict h

end Token

/-- The end of the text does not count as a token that is left to read. -/
def Token.weight (t : Token) : Nat := if t.isEnd then 0 else 1

theorem TokenStream.readToken_of_next {strict afterBreak : Bool} {c : Cursor} {l : Lexeme}
    (h : Token.next strict c = .ok l) (ht : l.token ≠ .lineBreak) :
    readToken strict c afterBreak = .ok (l.token, afterBreak, l.next) := by
  rw [readToken]
  split
  · next he => cases he.symm.trans h
  · next l' hl =>
    obtain rfl : l' = l := Except.ok.inj (hl.symm.trans h)
    split
    · next hbreak => exact absurd hbreak ht
    · rfl

theorem TokenStream.readToken_of_lineBreak {strict afterBreak : Bool} {c : Cursor} {l : Lexeme}
    (h : Token.next strict c = .ok l) (ht : l.token = .lineBreak) :
    readToken strict c afterBreak = readToken strict l.next true := by
  rw [readToken]
  split
  · next he => cases he.symm.trans h
  · next l' hl =>
    obtain rfl : l' = l := Except.ok.inj (hl.symm.trans h)
    split
    · rfl
    · next hother => exact absurd ht hother

theorem TokenStream.length_rest_readToken {strict afterBreak : Bool} {c : Cursor}
    {found : Token × Bool × Cursor} (h : readToken strict c afterBreak = .ok found) :
    found.2.2.rest.length + found.1.weight ≤ c.rest.length := by
  fun_induction readToken strict c afterBreak with
  | case1 => cases h
  | case2 c afterBreak l hn ht ih =>
    rcases Token.length_rest_next hn with ⟨hend, _⟩ | hlt
    · rw [hend] at ht
      cases ht
    · exact Nat.le_trans (ih h) (Nat.le_of_lt hlt)
  | case3 c afterBreak l hn =>
    cases h
    dsimp only
    rcases Token.length_rest_next hn with ⟨hend, hle⟩ | hlt
    · simpa [hend, Token.weight, Token.isEnd] using hle
    · unfold Token.weight
      split <;> omega

theorem TokenStream.readToken_of_strict (strict : Bool) {c : Cursor} {afterBreak : Bool}
    {found : Token × Bool × Cursor} (h : readToken true c afterBreak = .ok found) :
    readToken strict c afterBreak = .ok found := by
  fun_induction readToken true c afterBreak with
  | case1 => cases h
  | case2 c afterBreak l hn ht ih =>
    rw [readToken_of_lineBreak (Token.next_of_strict strict hn) ht]
    exact ih h
  | case3 c afterBreak l hn ht =>
    rw [readToken_of_next (Token.next_of_strict strict hn) ht]
    exact h

/-! ### The end of the text -/

namespace Token

theorem next_of_rest_nil [Text.IdentifierClasses] {strict : Bool} {c : Cursor} (h : c.rest = []) :
    ∃ l, next strict c = .ok l ∧ l.token = .endOfInput := by
  have hblank : (c.skipWhile Text.isInlineBlank).rest = [] := by
    simp only [Cursor.skipWhile, h, List.dropWhile_nil]
  have hgap : gapAt (c.skipWhile Text.isInlineBlank) = .none := by
    unfold gapAt
    rw [hblank]
  rw [next]
  split
  · simp_all
  · simp_all
  · unfold readLexeme Cursor.peek?
    rw [hblank]
    exact ⟨_, rfl, rfl⟩

/-- The token is a word or a literal: no sign, no line break and not the end of the text. -/
def IsPlain (t : Token) : Prop := t.sign? = none ∧ t.isEnd = false ∧ t ≠ .lineBreak

theorem isPlain_endNumber {token : Token} {c : Cursor} {r : Token × Cursor}
    (h : endNumber token c = .ok r) (htoken : token.IsPlain) : r.1.IsPlain := by
  unfold endNumber at h
  split at h
  · cases h
  · cases h
    exact htoken

theorem isPlain_readNumber {strict : Bool} {first : Char} {c : Cursor} {r : Token × Cursor}
    (h : readNumber strict first c = .ok r) : r.1.IsPlain := by
  unfold readNumber at h
  split at h
  · unfold readRadixNumber at h
    dsimp only at h
    split at h
    · cases h
    · exact isPlain_endNumber h ⟨rfl, rfl, nofun⟩
  split at h
  · unfold readLeadingZero at h
    dsimp only at h
    split at h
    · cases h
    · split at h
      · exact isPlain_endNumber h ⟨rfl, rfl, nofun⟩
      · exact isPlain_endNumber h ⟨rfl, rfl, nofun⟩
  · unfold readDecimal at h
    cases he : readExponent (readMantissa first c).2 with
    | error e =>
      simp only [he, bind, Except.bind] at h
      cases h
    | ok exponent =>
      simp only [he, bind, Except.bind] at h
      exact isPlain_endNumber h ⟨rfl, rfl, nofun⟩

theorem isPlain_ofWord (word : String) : (ofWord word).IsPlain := by
  unfold ofWord
  repeat' split
  all_goals exact ⟨rfl, rfl, nofun⟩

theorem isPlain_readWord {first : Char} {c : Cursor} {r : Token × Cursor}
    (h : readWord first c = .ok r) : r.1.IsPlain := by
  have hword (found : String × Bool × Cursor) :
      (if found.2.1 = true then identifier found.1 else ofWord found.1).IsPlain := by
    split
    · exact ⟨rfl, rfl, nofun⟩
    · exact isPlain_ofWord _
  unfold readWord at h
  split at h
  · cases hn : readName c [] false with
    | error e =>
      simp only [hn, bind, Except.bind] at h
      cases h
    | ok found =>
      simp only [hn, bind, Except.bind] at h
      cases h
      exact hword found
  · cases hn : readName c.step [first] false with
    | error e =>
      simp only [hn, bind, Except.bind] at h
      cases h
    | ok found =>
      simp only [hn, bind, Except.bind] at h
      cases h
      exact hword found

theorem spelling_prefix_of_longest? {cs : List Char} {sign : Punctuator}
    (h : Punctuator.longest? cs = some sign) : sign.spelling <+: cs := by
  obtain ⟨length, -, hfound⟩ := List.exists_of_findSome?_eq_some h
  have hsign := List.find?_some hfound
  rw [Bool.and_eq_true, List.isPrefixOf_iff_prefix] at hsign
  exact hsign.2

/-- A token is plain, or it is a sign that is spelled where it is read. -/
theorem isPlain_or_sign_readToken {strict : Bool} {ch : Char} {c : Cursor} {r : Token × Cursor}
    (h : readToken strict ch c = .ok r) :
    r.1.IsPlain ∨ ∃ sign, r.1 = punctuator sign ∧ c.rest = sign.spelling ++ r.2.rest := by
  unfold readToken at h
  split at h
  · cases hs : readString strict ch c.step [] with
    | error e =>
      rw [hs] at h
      cases h
    | ok found =>
      rw [hs] at h
      cases h
      exact .inl ⟨rfl, rfl, nofun⟩
  split at h
  · exact .inl (isPlain_readNumber h)
  split at h
  · exact .inl (isPlain_readWord h)
  · split at h
    · next sign hsign =>
      cases h
      obtain ⟨rest, hrest⟩ := spelling_prefix_of_longest? hsign
      exact .inr ⟨sign, rfl, by simp [Cursor.skip, ← hrest]⟩
    · cases h

theorem isEnd_readToken {strict : Bool} {ch : Char} {c : Cursor} {r : Token × Cursor}
    (h : readToken strict ch c = .ok r) : r.1.isEnd = false := by
  rcases isPlain_or_sign_readToken h with hplain | ⟨sign, hsign, -⟩
  · exact hplain.2.1
  · rw [hsign]
    rfl

theorem rest_of_endOfInput {strict : Bool} {c : Cursor} {l : Lexeme}
    (h : next strict c = .ok l) (hend : l.token = .endOfInput) : l.next.rest = [] := by
  fun_induction next strict c with
  | case1 c hg ih => exact ih h
  | case2 c hg behind hb =>
    cases h
    cases hend
  | case3 c hg behind hb ih => exact ih h
  | case4 => cases h
  | case5 c hg =>
    unfold readLexeme at h
    split at h
    · next hpeek =>
      cases h
      exact List.head?_eq_none_iff.mp hpeek
    split at h
    · cases h
      cases hend
    · next ch _ _ =>
      cases ht : readToken strict ch (c.skipWhile Text.isInlineBlank) with
      | error e =>
        rw [ht] at h
        cases h
      | ok found =>
        rw [ht] at h
        cases h
        have hfound := isEnd_readToken ht
        rw [show found.1 = .endOfInput from hend] at hfound
        cases hfound

end Token

theorem TokenStream.rest_of_endOfInput {strict : Bool} {c : Cursor} {afterBreak : Bool}
    {found : Token × Bool × Cursor} (h : readToken strict c afterBreak = .ok found)
    (hend : found.1.isEnd = true) : found.2.2.rest = [] := by
  fun_induction readToken strict c afterBreak with
  | case1 => cases h
  | case2 c afterBreak l hn ht ih => exact ih h
  | case3 c afterBreak l hn ht =>
    cases h
    refine Token.rest_of_endOfInput hn ?_
    cases hl : l.token with
    | endOfInput => rfl
    | _ =>
      rw [hl] at hend
      cases hend

end ProtoScript
