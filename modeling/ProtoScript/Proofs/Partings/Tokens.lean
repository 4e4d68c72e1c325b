import ProtoScript.Proofs.Partings.Readers
import ProtoScript.Proofs.TokenReading
/-!
# Tokens of texts that part behind a bracket

A parenthesis or a closing brace is a token by itself wherever it is not part of a comment, a string
or an escape, and no token in front of it depends on what stands behind it.  The next token at the
same place of two texts that part behind such a bracket is the same, unless the first reader takes
the bracket: then it has read the bracket itself, or it has run over it.
-/

namespace ProtoScript

namespace Parting

variable {k : Parting} {sign : Punctuator} {c d : Cursor} {ch : Char}

/-- The bracket is that of a sign, and the sign does not come again in the first text. -/
structure At (k : Parting) (sign : Punctuator) : Prop where
  isBracket : sign = .leftParen ∨ sign = .rightParen ∨ sign = .rightBrace
  spelling : sign.spelling = [k.bracket]
  absent : k.bracket ∉ k.behind

theorem At.mem (h : k.At sign) : k.bracket ∈ ['(', ')', '\x7d'] := by
  have hspelling := h.spelling
  rcases h.isBracket with rfl | rfl | rfl <;>
    simp only [Punctuator.spelling, List.cons.injEq] at hspelling <;> simp [← hspelling.1]

theorem At.ne (h : k.At sign) (hch : ch ∉ ['(', ')', '\x7d']) : k.bracket ≠ ch := by
  rintro rfl
  exact hch h.mem

theorem At.gapAt_bracket (hk : k.At sign) {z : List Char} (hc : c.rest = k.bracket :: z) :
    Token.gapAt c = .none := by
  unfold Token.gapAt
  rw [hc]
  split
  · next heq => exact absurd (List.cons.inj heq).1 (hk.ne (by decide))
  · next heq => exact absurd (List.cons.inj heq).1 (hk.ne (by decide))
  · next heq => exact absurd (List.cons.inj heq).1 (hk.ne (by decide))
  · rfl

/-- Comments and the like begin at the same places of the two texts. -/
theorem Near.gapAt (hk : k.At sign) (h : k.Near c d) (hb : k.Before c) :
    Token.gapAt d = Token.gapAt c := by
  have hpair {c d : Cursor} {a b : Char} {cs ds : List Char} (hc : c.rest = a :: b :: cs)
      (hd : d.rest = a :: b :: ds) (hoffset : c.position.offset = 0 ↔ d.position.offset = 0) :
      Token.gapAt d = Token.gapAt c := by
    unfold Token.gapAt
    rw [hc, hd]
    split <;> split <;> simp_all
  obtain ⟨w, -, hc, hd⟩ := (h.beside hb).rests
  have hoffsets := (h.beside hb).offsets
  cases w with
  | nil => rw [hk.gapAt_bracket hc, hk.gapAt_bracket hd]
  | cons a w =>
    cases w with
    | nil => exact hpair hc hd hoffsets
    | cons b w => exact hpair hc hd hoffsets

theorem At.length_spelling (hk : k.At sign) {other : Punctuator}
    (h : k.bracket ∈ other.spelling) : other.spelling.length = 1 := by
  have hsingle : ∀ ch ∈ ['(', ')', '\x7d'], ch ∈ other.spelling → other.spelling.length = 1 := by
    cases other <;> simp [Punctuator.spelling]
  exact hsingle _ hk.mem h

theorem At.spelling_prefix (hk : k.At sign) (other : Punctuator) (w z : List Char) :
    other.spelling <+: w ++ k.bracket :: z ↔ other.spelling <+: w ++ [k.bracket] := by
  have hwhole : w ++ [k.bracket] <+: w ++ k.bracket :: z := by simp
  refine ⟨fun h => ?_, fun h => h.trans hwhole⟩
  refine List.prefix_of_prefix_length_le h hwhole (Nat.le_of_not_lt fun hlt => ?_)
  have hmem : k.bracket ∈ other.spelling :=
    (List.prefix_of_prefix_length_le hwhole h (Nat.le_of_lt hlt)).subset (by simp)
  have hone := hk.length_spelling hmem
  rw [List.length_append, List.length_singleton] at hlt
  omega

theorem Beside.longest? (hk : k.At sign) (h : k.Beside c d) :
    Punctuator.longest? d.rest = Punctuator.longest? c.rest := by
  obtain ⟨w, -, hc, hd⟩ := h.rests
  have hstart (other : Punctuator) : other.spelling.isPrefixOf d.rest =
      other.spelling.isPrefixOf c.rest := by
    rw [Bool.eq_iff_iff, List.isPrefixOf_iff_prefix, List.isPrefixOf_iff_prefix, hc, hd,
      hk.spelling_prefix other w k.behind', hk.spelling_prefix other w k.behind]
  unfold Punctuator.longest? Punctuator.ofLength?
  simp only [hstart]

/-- Where two readers stand behind a token that both have read: at the same place in front of the
bracket, or, if the token is the bracket itself, behind it. -/
inductive Stands (k : Parting) (sign : Punctuator) (t : Token) (c d : Cursor) : Prop
  | beside (h : k.Beside c d)
  | taken (ht : t = .punctuator sign) (hc : c.rest = k.behind) (hd : d.rest = k.behind')

/-- The first reader has run over the bracket: it stands somewhere behind it, and the token it has
read is not the bracket. -/
structure Over (k : Parting) (sign : Punctuator) (t : Token) (c : Cursor) : Prop where
  suffix : c.rest <:+ k.behind
  token : t ≠ .punctuator sign

/-- A reader stood in front of the bracket if it has not run over it. -/
theorem Stands.before {t : Token} {e f : Cursor} (h : k.Stands sign t e f)
    (hle : t = .endOfInput ∧ e.rest.length ≤ c.rest.length ∨ e.rest.length < c.rest.length) :
    k.Before c := by
  cases h with
  | beside h => exact h.before.of_le (hle.elim And.right Nat.le_of_lt)
  | taken ht hc hd =>
    rcases hle with ⟨hend, -⟩ | hlt
    · rw [ht] at hend
      cases hend
    · rwa [hc] at hlt

end Parting

namespace Token

variable {k : Parting} {sign : Punctuator} {c d : Cursor} {ch : Char} {strict : Bool}

theorem readBlockComment_step (c : Cursor) (crossed : Bool) :
    readBlockComment c.rest c.position crossed =
      match c.peek? with
      | none => .error ⟨.unterminatedComment, c.position⟩
      | some ch =>
        if ch == '*' && c.step.peek? == some '/' then .ok (crossed, c.skip 2)
        else if Text.isLineBreak ch then
          readBlockComment c.skipLineBreak.rest c.skipLineBreak.position true
        else readBlockComment c.step.rest c.step.position crossed := by
  obtain ⟨cs, p⟩ := c
  dsimp only
  fun_cases readBlockComment cs p crossed with
  | case1 => rfl
  | case2 => rfl
  | case3 => rfl
  | case4 ch rest _ _ hcomment hpair hbreak =>
    have hopen : (ch == '*' && rest.head? == some '/') = false := by
      rw [← Bool.not_eq_true]
      simp only [Bool.and_eq_true, beq_iff_eq, List.head?_eq_some_iff]
      exact fun ⟨hstar, more, hmore⟩ => hcomment more hstar hmore
    rw [Cursor.skipLineBreak_single fun hreturn hhead =>
      (List.head?_eq_some_iff.mp hhead).elim fun more hmore => hpair more hreturn hmore]
    simp only [Cursor.peek?, Cursor.step, List.head?_cons, hopen, hbreak, if_true, if_false,
      Bool.false_eq_true]
  | case5 ch rest _ _ hcomment hpair hbreak =>
    have hopen : (ch == '*' && rest.head? == some '/') = false := by
      rw [← Bool.not_eq_true]
      simp only [Bool.and_eq_true, beq_iff_eq, List.head?_eq_some_iff]
      exact fun ⟨hstar, more, hmore⟩ => hcomment more hstar hmore
    simp only [Cursor.peek?, Cursor.step, List.head?_cons, hopen, hbreak, if_false,
      Bool.false_eq_true]

theorem agrees_readBlockComment (hk : k.At sign) {crossed : Bool} {r : Bool × Cursor}
    (h : k.Near c d) (hr : readBlockComment c.rest c.position crossed = .ok r) :
    k.Agrees r (readBlockComment d.rest d.position crossed) := by
  induction hsize : c.rest.length using Nat.strongRecOn generalizing c d crossed with
  | ind size ih =>
  subst hsize
  have hlength := length_rest_readBlockComment hr
  have hpeek (hb : k.Before r.2) : d.peek? = c.peek? := h.peek (hb.of_le hlength)
  rw [readBlockComment_step] at hr
  split at hr
  · cases hr
  next ch hc =>
  have hsecond (hb : k.Before r.2) : (ch == '*' && d.step.peek? == some '/') =
      (ch == '*' && c.step.peek? == some '/') := by
    by_cases hch : ch = '*'
    · rw [h.peek_step (hb.of_le hlength) hc (hch ▸ (hk.ne (by decide)).symm)]
    · rw [beq_false_of_ne hch, Bool.false_and, Bool.false_and]
  split at hr
  · next hclosed =>
    cases hr
    refine (Parting.Agrees.pure (h.skip 2)).congr fun hb => ?_
    rw [readBlockComment_step, hpeek hb, hc]
    dsimp only
    rw [hsecond hb, if_pos hclosed]
  next hopen =>
  split at hr
  · next hbreak =>
    refine (ih _ (length_rest_skipLineBreak_lt hc) (h.skipLineBreak (hk.ne (by decide))) hr
      rfl).congr fun hb => ?_
    rw [readBlockComment_step, hpeek hb, hc]
    dsimp only
    rw [hsecond hb, if_neg hopen, if_pos hbreak]
  · next hbreak =>
    refine (ih _ (length_rest_step_lt hc) h.step hr rfl).congr fun hb => ?_
    rw [readBlockComment_step, hpeek hb, hc]
    dsimp only
    rw [hsecond hb, if_neg hopen, if_neg hbreak]

/-! ### Tokens -/

theorem agrees_readToken (hk : k.At sign) {r : Token × Cursor} (h : k.Near c d)
    (hc : c.peek? = some ch) (hr : readToken strict ch c = .ok r) :
    k.Agrees r (readToken strict ch d) := by
  have hlength := Nat.le_of_lt (length_rest_readToken hc hr)
  have hpoint (hb : k.Before r.2) : (ch == '.' && d.step.peek?.any Char.isDigit) =
      (ch == '.' && c.step.peek?.any Char.isDigit) := by
    by_cases hch : ch = '.'
    · rw [h.peek_step (hb.of_le hlength) hc (hch ▸ (hk.ne (by decide)).symm)]
    · rw [beq_false_of_ne hch, Bool.false_and, Bool.false_and]
  unfold readToken at hr
  split at hr
  · next hquote =>
    cases hs : readString strict ch c.step [] with
    | error e => rw [hs] at hr; cases hr
    | ok found =>
      rw [hs] at hr
      cases hr
      obtain ⟨e, he, hok⟩ := agrees_readString ⟨hk.ne (by decide), hk.ne (by decide)⟩ h.step hs
      refine ⟨e, he, fun hb => ?_⟩
      rw [readToken, if_pos hquote, hok hb]
      rfl
  next hquote =>
  split at hr
  · next hdigit =>
    refine (agrees_readNumber (hk.ne (by decide)) h.step hr).congr fun hb => ?_
    rw [readToken, if_neg hquote, hpoint hb, if_pos hdigit]
  next hdigit =>
  split at hr
  · next hname =>
    refine (agrees_readWord (hk.ne (by decide)) h hr).congr fun hb => ?_
    rw [readToken, if_neg hquote, hpoint hb, if_neg hdigit, if_pos hname]
  next hname =>
  split at hr
  · next other hother =>
    cases hr
    refine (Parting.Agrees.pure (h.skip _)).congr fun hb => ?_
    rw [readToken, if_neg hquote, hpoint hb, if_neg hdigit, if_neg hname,
      (h.beside (hb.of_le hlength)).longest? hk, hother]
  · cases hr

theorem near_readLexeme (hk : k.At sign) {l : Lexeme} (h : k.Near c d)
    (hl : readLexeme strict c = .ok l) :
    ∃ m, k.Near l.next m.next ∧
      (k.Before l.next → readLexeme strict d = .ok m ∧ m.token = l.token) := by
  unfold readLexeme at hl
  split at hl
  · next hc =>
    cases hl
    refine ⟨⟨endOfInput, d.position.offset, d⟩, h, fun hb => ?_⟩
    rw [readLexeme, h.peek hb, hc]
    exact ⟨rfl, rfl⟩
  next ch hc =>
  split at hl
  · next hbreak =>
    cases hl
    refine ⟨⟨lineBreak, d.position.offset, d.skipLineBreak⟩, h.skipLineBreak (hk.ne (by decide)),
      fun hb => ?_⟩
    rw [readLexeme, h.peek (hb.of_le (Nat.le_of_lt (length_rest_skipLineBreak_lt hc))), hc]
    exact ⟨if_pos hbreak, rfl⟩
  next hbreak =>
  cases hr : readToken strict ch c with
  | error e => rw [hr] at hl; cases hl
  | ok found =>
    rw [hr] at hl
    cases hl
    obtain ⟨e, he, hok⟩ := agrees_readToken hk h hc hr
    refine ⟨⟨found.1, d.position.offset, e⟩, he, fun hb => ?_⟩
    rw [readLexeme, h.peek (hb.of_le (Nat.le_of_lt (length_rest_readToken hc hr))), hc]
    dsimp only
    rw [if_neg hbreak, hok hb]
    exact ⟨rfl, rfl⟩

/-! ### The next token -/

theorem next_step (strict : Bool) (c : Cursor) :
    next strict c =
      match gapAt (c.skipWhile Text.isInlineBlank) with
      | .line => next strict (c.skipWhile Text.isInlineBlank).skipLine
      | .block =>
        readBlockComment ((c.skipWhile Text.isInlineBlank).skip 2).rest
          ((c.skipWhile Text.isInlineBlank).skip 2).position false >>= fun found =>
            if found.1 then
              .ok ⟨lineBreak, (c.skipWhile Text.isInlineBlank).position.offset, found.2⟩
            else next strict found.2
      | .none => readLexeme strict (c.skipWhile Text.isInlineBlank) := by
  rw [next]
  split
  · next hg => rw [hg]
  · next hg =>
    rw [hg]
    split
    · next hb => rw [hb]; rfl
    · next hb => rw [hb]; rfl
    · next hb => rw [hb]; rfl
  · next hg => rw [hg]

theorem rest_of_sign {l : Lexeme} {other : Punctuator} (hl : readLexeme strict c = .ok l)
    (ht : l.token = punctuator other) : c.rest = other.spelling ++ l.next.rest := by
  unfold readLexeme at hl
  split at hl
  · cases hl
    cases ht
  split at hl
  · cases hl
    cases ht
  next ch _ _ =>
  cases hr : readToken strict ch c with
  | error e => rw [hr] at hl; cases hl
  | ok found =>
    rw [hr] at hl
    cases hl
    rcases isPlain_or_sign_readToken hr with hplain | ⟨read, hread, hrest⟩
    · have hsign := hplain.1
      rw [show found.1 = punctuator other from ht] at hsign
      cases hsign
    · obtain rfl : read = other := by
        rw [show found.1 = punctuator other from ht] at hread
        exact (punctuator.inj hread).symm
      exact hrest

theorem readLexeme_bracket (strict : Bool) (hk : k.At sign) {z : List Char}
    (hc : c.rest = k.bracket :: z) :
    ∃ l, readLexeme strict c = .ok l ∧ l.token = punctuator sign ∧ l.next.rest = z := by
  obtain ⟨cs, p⟩ := c
  dsimp only at hc
  subst hc
  have hspelling := hk.spelling
  rcases hk.isBracket with rfl | rfl | rfl
  all_goals
    obtain hx := (List.cons.inj hspelling).1
    rw [← hx]
    exact ⟨_, rfl, rfl, rfl⟩

theorem stands_readLexeme (hk : k.At sign) {l : Lexeme} (h : k.Near c d)
    (hl : readLexeme strict c = .ok l) :
    (∃ m, readLexeme strict d = .ok m ∧ m.token = l.token ∧
      k.Stands sign l.token l.next m.next) ∨ k.Over sign l.token l.next := by
  obtain ⟨m, hnear, hm⟩ := near_readLexeme hk h hl
  by_cases hb : k.Before l.next
  · exact .inl ⟨m, (hm hb).1, (hm hb).2, .beside (hnear.beside hb)⟩
  have hsuffix : l.next.rest <:+ k.behind := hnear.resolve_left fun hbeside => hb hbeside.before
  by_cases ht : l.token = punctuator sign
  · have hrest := rest_of_sign hl ht
    rw [hk.spelling, List.singleton_append] at hrest
    rcases h with h | h
    · obtain ⟨w, -, hc, hd⟩ := h.rests
      rw [hc] at hrest
      cases w with
      | nil =>
        obtain ⟨m, hm, htoken, hnext⟩ := readLexeme_bracket strict hk hd
        exact .inl ⟨m, hm, htoken.trans ht.symm, .taken ht (List.cons.inj hrest).2.symm hnext⟩
      | cons ch w =>
        refine absurd ?_ hb
        have hlength := congrArg List.length hrest
        simp only [List.cons_append, List.length_cons, List.length_append] at hlength
        rw [Parting.Before]
        omega
    · refine absurd (h.subset ?_) hk.absent
      rw [hrest]
      exact List.mem_cons_self
  · exact .inr ⟨hsuffix, ht⟩

theorem stands_next (hk : k.At sign) {l : Lexeme} (h : k.Near c d) (hl : next strict c = .ok l) :
    (∃ m, next strict d = .ok m ∧ m.token = l.token ∧ k.Stands sign l.token l.next m.next) ∨
      k.Over sign l.token l.next := by
  fun_induction next strict c generalizing d with
  | case1 c hg ih =>
    have hblank := h.skipWhile Text.isInlineBlank
    rcases ih (hblank.skipWhile _) hl with ⟨m, hm, htoken, hstands⟩ | hover
    · have hb := (hstands.before (length_rest_next hl)).of_le
        (Nat.le_of_lt (length_rest_skipLine_lt hg))
      refine .inl ⟨m, ?_, htoken, hstands⟩
      rw [next_step, hblank.gapAt hk hb, hg]
      exact hm
    · exact .inr hover
  | case2 c hg behind hcomment =>
    cases hl
    have hblank := h.skipWhile Text.isInlineBlank
    obtain ⟨e, he, hok⟩ := agrees_readBlockComment hk (hblank.skip 2) hcomment
    by_cases hb : k.Before behind
    · have hbefore := hb.of_le (Nat.le_trans (length_rest_readBlockComment hcomment)
        (Nat.le_of_lt (length_rest_skip_two hg)))
      refine .inl ⟨⟨lineBreak, (d.skipWhile Text.isInlineBlank).position.offset, e⟩, ?_, rfl,
        .beside (he.beside hb)⟩
      rw [next_step, hblank.gapAt hk hbefore, hg]
      dsimp only
      rw [hok hb]
      rfl
    · exact .inr ⟨he.resolve_left fun hbeside => hb hbeside.before, by simp⟩
  | case3 c hg behind hcomment ih =>
    have hblank := h.skipWhile Text.isInlineBlank
    obtain ⟨e, he, hok⟩ := agrees_readBlockComment hk (hblank.skip 2) hcomment
    rcases ih he hl with ⟨m, hm, htoken, hstands⟩ | hover
    · have hb := hstands.before (length_rest_next hl)
      have hbefore := hb.of_le (Nat.le_trans (length_rest_readBlockComment hcomment)
        (Nat.le_of_lt (length_rest_skip_two hg)))
      refine .inl ⟨m, ?_, htoken, hstands⟩
      rw [next_step, hblank.gapAt hk hbefore, hg]
      dsimp only
      rw [hok hb]
      exact hm
    · exact .inr hover
  | case4 => cases hl
  | case5 c hg =>
    have hblank := h.skipWhile Text.isInlineBlank
    rcases stands_readLexeme hk hblank hl with ⟨m, hm, htoken, hstands⟩ | hover
    · have hb := hstands.before ((length_rest_readLexeme hl).imp_left fun h =>
        ⟨h.1, Nat.le_of_eq (by rw [h.2])⟩)
      refine .inl ⟨m, ?_, htoken, hstands⟩
      rw [next_step, hblank.gapAt hk hb, hg]
      exact hm
    · exact .inr hover

end Token

theorem TokenStream.not_stands_readToken {k : Parting} {sign : Punctuator} {strict broken : Bool}
    {c e : Cursor} {found : Token × Bool × Cursor} (hr : readToken strict c broken = .ok found)
    (hc : c.rest <:+ k.behind) : ¬ k.Stands sign found.1 found.2.2 e := by
  intro hstands
  have hlength := length_rest_readToken hr
  refine Nat.not_le_of_lt (hstands.before (c := c) ?_) hc.length_le
  cases hend : found.1.isEnd with
  | true =>
    refine .inl ⟨?_, by omega⟩
    cases ht : found.1 <;> rw [ht] at hend <;> first | rfl | cases hend
  | false =>
    simp only [Token.weight, hend, Bool.false_eq_true, if_false] at hlength
    exact .inr hlength

theorem TokenStream.stands_readToken {k : Parting} {sign : Punctuator} (hk : k.At sign)
    {strict broken : Bool} {c d : Cursor} {found : Token × Bool × Cursor} (h : k.Near c d)
    (hr : readToken strict c broken = .ok found) :
    (∃ e, readToken strict d broken = .ok (found.1, found.2.1, e) ∧
      k.Stands sign found.1 found.2.2 e) ∨ k.Over sign found.1 found.2.2 := by
  fun_induction readToken strict c broken generalizing d with
  | case1 => cases hr
  | case2 c broken l hn ht ih =>
    rcases Token.stands_next hk h hn with ⟨m, hm, htoken, hstands⟩ | hover
    · have hbeside : k.Beside l.next m.next := by
        cases hstands with
        | beside hbeside => exact hbeside
        | taken hsign =>
          rw [ht] at hsign
          cases hsign
      rw [readToken_of_lineBreak hm (htoken.trans ht)]
      exact ih (.inl hbeside) hr
    · rcases ih (d := d) (.inr hover.suffix) hr with ⟨e, -, hstands⟩ | hbehind
      · exact absurd hstands (not_stands_readToken hr hover.suffix)
      · exact .inr hbehind
  | case3 c broken l hn ht =>
    cases hr
    rcases Token.stands_next hk h hn with ⟨m, hm, htoken, hstands⟩ | hover
    · refine .inl ⟨m.next, ?_, hstands⟩
      rw [readToken_of_next hm fun hbreak => ht (htoken.symm.trans hbreak), htoken]
    · exact .inr hover

end ProtoScript
