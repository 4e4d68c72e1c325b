import ProtoScript.Token.Scan
/-!
# Texts that part behind a bracket

Two texts are the same up to a bracket and differ behind it.  What is read from them in front of the
bracket is the same, because no reader looks further than to the bracket unless it takes it.  So
each reader, run at the same place of the two texts, ends at the same place with the same result, or
in the first text it ends behind the bracket.
-/

namespace ProtoScript

theorem Cursor.skipLineBreak_single {ch : Char} {cs : List Char} {p : Position}
    (hne : ch = '\r' → cs.head? ≠ some '\n') :
    (⟨ch :: cs, p⟩ : Cursor).skipLineBreak = ⟨cs, p.breakLine [ch]⟩ := by
  unfold skipLineBreak
  split
  · next heq =>
    obtain ⟨rfl, rfl⟩ := List.cons.inj heq
    exact absurd rfl (hne rfl)
  · next heq =>
    obtain ⟨rfl, rfl⟩ := List.cons.inj heq
    rfl
  · next heq => cases heq

/-- Where two texts part: what stands in front of the bracket, the bracket, and what stands behind
it in the one text and in the other. -/
structure Parting where
  front : List Char
  bracket : Char
  behind : List Char
  behind' : List Char

namespace Parting

variable {k : Parting} {c d e : Cursor} {ch : Char}

def Before (k : Parting) (c : Cursor) : Prop := k.behind.length < c.rest.length

structure Beside (k : Parting) (c d : Cursor) : Prop where
  rests : ∃ w, w <:+ k.front ∧ c.rest = w ++ k.bracket :: k.behind ∧
    d.rest = w ++ k.bracket :: k.behind'
  offsets : c.position.offset = 0 ↔ d.position.offset = 0

/-- The cursors stand at the same place of the two texts, or the first one is behind the bracket. -/
def Near (k : Parting) (c d : Cursor) : Prop := k.Beside c d ∨ c.rest <:+ k.behind

theorem Before.of_le (h : k.Before e) (hle : e.rest.length ≤ c.rest.length) : k.Before c :=
  Nat.lt_of_lt_of_le h hle

theorem Beside.before (h : k.Beside c d) : k.Before c := by
  obtain ⟨w, -, hw, -⟩ := h.rests
  simp only [Before, hw, List.length_append, List.length_cons]
  omega

namespace Near

theorem beside (h : k.Near c d) (hb : k.Before c) : k.Beside c d :=
  h.resolve_right fun hsuffix => Nat.not_le_of_lt hb hsuffix.length_le

theorem peek (h : k.Near c d) (hb : k.Before c) : d.peek? = c.peek? := by
  obtain ⟨w, -, hc, hd⟩ := (h.beside hb).rests
  simp only [Cursor.peek?, hc, hd]
  cases w <;> rfl

theorem step (h : k.Near c d) : k.Near c.step d.step := by
  rcases h with h | h
  · obtain ⟨w, hfront, hc, hd⟩ := h.rests
    obtain ⟨cs, p⟩ := c
    obtain ⟨ds, q⟩ := d
    dsimp only at hc hd
    subst hc hd
    cases w with
    | nil => exact .inr List.suffix_rfl
    | cons ch w =>
      refine .inl ⟨⟨w, (List.suffix_cons ch w).trans hfront, rfl, rfl⟩, ?_⟩
      have := ch.utf8Size_pos
      simp only [List.cons_append, Cursor.step, Position.step]
      omega
  · refine .inr (.trans ?_ h)
    unfold Cursor.step
    split
    · exact List.suffix_rfl
    · next heq => exact heq ▸ List.suffix_cons _ _

/-- The second character is the same where the first one is not the bracket. -/
theorem peek_step (h : k.Near c d) (hb : k.Before c) (hc : c.peek? = some ch)
    (hne : ch ≠ k.bracket) : d.step.peek? = c.step.peek? := by
  obtain ⟨w, -, hw, hd⟩ := (h.beside hb).rests
  obtain ⟨cs, p⟩ := c
  obtain ⟨ds, q⟩ := d
  dsimp only at hw hd
  subst hw hd
  cases w with
  | nil => exact absurd (Option.some.inj hc).symm hne
  | cons ch w => cases w <;> rfl

theorem skip (h : k.Near c d) (count : Nat) : k.Near (c.skip count) (d.skip count) := by
  have hskip (c : Cursor) (count : Nat) : c.skip (count + 1) = c.step.skip count := by
    obtain ⟨cs, p⟩ := c
    cases cs with
    | nil => simp [Cursor.skip, Cursor.step, Position.steps]
    | cons ch cs => rfl
  induction count generalizing c d with
  | zero => exact h
  | succ count ih =>
    rw [hskip, hskip]
    exact ih h.step

theorem skipWhile (h : k.Near c d) (test : Char → Bool) :
    k.Near (c.skipWhile test) (d.skipWhile test) := by
  have hskip (ch : Char) (cs : List Char) (p : Position) : (⟨ch :: cs, p⟩ : Cursor).skipWhile test =
      if test ch then (⟨cs, p.step ch⟩ : Cursor).skipWhile test else ⟨ch :: cs, p⟩ := by
    cases htest : test ch <;> simp [Cursor.skipWhile, htest, Position.steps]
  rcases h with h | h
  · obtain ⟨w, hfront, hc, hd⟩ := h.rests
    obtain ⟨cs, p⟩ := c
    obtain ⟨ds, q⟩ := d
    dsimp only at hc hd
    subst hc hd
    induction w generalizing p q with
    | nil =>
      rw [List.nil_append, List.nil_append, hskip, hskip]
      split
      · exact .inr (List.dropWhile_suffix _)
      · exact .inl h
    | cons ch w ih =>
      rw [List.cons_append, List.cons_append, hskip, hskip]
      split
      · have hsuffix := (List.suffix_cons ch w).trans hfront
        refine ih hsuffix _ _ ⟨⟨w, hsuffix, rfl, rfl⟩, ?_⟩
        have := ch.utf8Size_pos
        simp only [Position.step]
        omega
      · exact .inl h
  · exact .inr ((List.dropWhile_suffix _).trans h)

theorem takeWhile (h : k.Near c d) {test : Char → Bool} (hb : k.Before (c.skipWhile test)) :
    d.rest.takeWhile test = c.rest.takeWhile test := by
  have hbefore := hb.of_le (c := c) (Token.length_dropWhile_le test c.rest)
  obtain ⟨w, -, hc, hd⟩ := (h.beside hbefore).rests
  have hlength : k.behind.length < (c.rest.dropWhile test).length := hb
  rw [hc] at hlength ⊢
  rw [hd]
  clear hc hd h hb hbefore
  induction w with
  | nil =>
    have hstop : test k.bracket = false := by
      rw [← Bool.not_eq_true]
      intro htest
      rw [List.nil_append, List.dropWhile_cons_of_pos htest] at hlength
      exact Nat.not_le_of_lt hlength (Token.length_dropWhile_le _ _)
    simp [hstop]
  | cons ch w ih =>
    simp only [List.cons_append, List.takeWhile_cons]
    split
    · next htest =>
      rw [List.cons_append, List.dropWhile_cons_of_pos htest] at hlength
      rw [ih hlength]
    · rfl

theorem skipLineBreak (hk : k.bracket ≠ '\n') (h : k.Near c d) :
    k.Near c.skipLineBreak d.skipLineBreak := by
  have hsuffix : ∀ c : Cursor, c.skipLineBreak.rest <:+ c.step.rest := by
    rintro ⟨cs, p⟩
    unfold Cursor.skipLineBreak Cursor.step
    split
    · next heq =>
      dsimp only at heq
      subst heq
      exact List.suffix_cons _ _
    · next heq =>
      dsimp only at heq
      subst heq
      exact List.suffix_rfl
    · next heq =>
      dsimp only at heq
      subst heq
      exact List.suffix_rfl
  by_cases hb : k.Before c.step
  · obtain ⟨w, hfront, hc, hd⟩ := (h.beside (hb.of_le Token.length_rest_step)).rests
    obtain ⟨cs, p⟩ := c
    obtain ⟨ds, q⟩ := d
    dsimp only at hc hd
    subst hc hd
    cases w with
    | nil => exact absurd hb (Nat.lt_irrefl _)
    | cons ch w =>
      have hsize := ch.utf8Size_pos
      by_cases hpair : ch = '\r' ∧ w.head? = some '\n'
      · obtain ⟨rfl, hhead⟩ := hpair
        obtain ⟨w, rfl⟩ := List.head?_eq_some_iff.mp hhead
        have hsuffix := ((List.suffix_cons _ w).trans (List.suffix_cons _ _)).trans hfront
        refine .inl ⟨⟨w, hsuffix, rfl, rfl⟩, ?_⟩
        simp only [Cursor.skipLineBreak, List.cons_append, Position.breakLine, Position.steps,
          List.foldl_cons, List.foldl_nil, Position.step]
        omega
      · have hne (rest : List Char) : ch = '\r' → (w ++ k.bracket :: rest).head? ≠ some '\n' := by
          rintro rfl
          cases w with
          | nil => simpa using hk
          | cons next w => simpa using hpair
        rw [List.cons_append, List.cons_append, Cursor.skipLineBreak_single (hne _),
          Cursor.skipLineBreak_single (hne _)]
        refine .inl ⟨⟨w, (List.suffix_cons ch w).trans hfront, rfl, rfl⟩, ?_⟩
        simp only [Position.breakLine, Position.steps, List.foldl_cons, List.foldl_nil,
          Position.step]
        omega
  · exact .inr ((hsuffix c).trans (h.step.resolve_left fun hbeside => hb hbeside.before))

end Near

/-- The second reader ends where the first one does with the same result, unless the first one takes
the bracket. -/
def Agrees {α : Type} (k : Parting) (r : α × Cursor) (second : Except LexicalError (α × Cursor)) :
    Prop :=
  ∃ e, k.Near r.2 e ∧ (k.Before r.2 → second = .ok (r.1, e))

namespace Agrees

variable {α β : Type} {r : α × Cursor} {second third : Except LexicalError (α × Cursor)}

theorem pure {a : α} (h : k.Near c d) : k.Agrees (a, c) (.ok (a, d)) := ⟨d, h, fun _ => rfl⟩

theorem congr (h : k.Agrees r second) (heq : k.Before r.2 → third = second) : k.Agrees r third := by
  obtain ⟨e, he, hok⟩ := h
  exact ⟨e, he, fun hb => (heq hb).trans (hok hb)⟩

end Agrees

end Parting

namespace Token

variable {k : Parting} {c d : Cursor} {ch : Char} {strict : Bool}

/-! ### Escapes and strings -/

theorem agrees_readHexDigits {count value : Nat} {r : Nat × Cursor} (h : k.Near c d)
    (hr : readHexDigits count value c = .ok r) : k.Agrees r (readHexDigits count value d) := by
  induction count generalizing value c d with
  | zero =>
    cases hr
    exact .pure h
  | succ count ih =>
    rw [readHexDigits] at hr
    split at hr
    · next digit heq =>
      refine (ih h.step hr).congr fun hb => ?_
      rw [readHexDigits, h.peek (hb.of_le ?_), heq]
      exact Nat.le_trans (length_rest_readHexDigits hr) length_rest_step
    · cases hr

theorem readBracedDigits_step (c : Cursor) (value : Nat) (count : Int32) :
    readBracedDigits c.rest c.position value count =
      match c.peek? with
      | none => .error ⟨.unicodeEscape, c.position⟩
      | some ch =>
        if ch == '\x7d' && 0 < count then .ok (value, c.step)
        else
          match Number.digitValue? 16 ch with
          | some digit =>
            if 0x10FFFF < value * 16 + digit then .error ⟨.codePointRange, c.step.position⟩
            else readBracedDigits c.step.rest c.step.position (value * 16 + digit) (count + 1)
          | none => .error ⟨.unicodeEscape, c.step.position⟩ := by
  obtain ⟨cs, p⟩ := c
  cases cs <;> rfl

theorem agrees_readBracedDigits {cs : List Char} {p : Position} {value : Nat} {count : Int32}
    {r : Nat × Cursor} (h : k.Near ⟨cs, p⟩ d) (hr : readBracedDigits cs p value count = .ok r) :
    k.Agrees r (readBracedDigits d.rest d.position value count) := by
  induction cs generalizing p d value count with
  | nil => cases hr
  | cons ch cs ih =>
    have hlength := length_rest_readBracedDigits hr
    have hpeek (hb : k.Before r.2) : d.peek? = some ch := h.peek (hb.of_le hlength)
    rw [readBracedDigits] at hr
    split at hr
    · next hclosed =>
      cases hr
      refine (Parting.Agrees.pure h.step).congr fun hb => ?_
      rw [readBracedDigits_step, hpeek hb]
      exact if_pos hclosed
    · next hopen =>
      split at hr
      · next digit hdigit =>
        split at hr
        · cases hr
        next hrange =>
        refine (ih h.step hr).congr fun hb => ?_
        rw [readBracedDigits_step, hpeek hb]
        simp only [hopen, hdigit, hrange, if_false, Bool.false_eq_true]
      · cases hr

theorem agrees_readUnicodeEscape {r : Char × Cursor} (h : k.Near c d)
    (hr : readUnicodeEscape c = .ok r) : k.Agrees r (readUnicodeEscape d) := by
  have hlength := length_rest_readUnicodeEscape hr
  unfold readUnicodeEscape at hr
  split at hr
  · next hbrace =>
    cases hd : readBracedDigits c.step.rest c.step.position 0 0 with
    | error e => rw [hd] at hr; cases hr
    | ok found =>
      rw [hd] at hr
      cases hr
      obtain ⟨e, he, hok⟩ := agrees_readBracedDigits h.step hd
      refine ⟨e, he, fun hb => ?_⟩
      unfold readUnicodeEscape
      rw [h.peek (hb.of_le hlength), if_pos hbrace, hok hb]
      rfl
  · next hbrace =>
    cases hd : readHexDigits 4 0 c with
    | error e => rw [hd] at hr; cases hr
    | ok found =>
      rw [hd] at hr
      cases hr
      obtain ⟨e, he, hok⟩ := agrees_readHexDigits h hd
      refine ⟨e, he, fun hb => ?_⟩
      unfold readUnicodeEscape
      rw [h.peek (hb.of_le hlength), if_neg hbrace, hok hb]
      rfl

theorem agrees_readOctalDigits (count value : Nat) (h : k.Near c d) :
    k.Agrees (readOctalDigits count value c) (.ok (readOctalDigits count value d)) := by
  induction count generalizing value c d with
  | zero => exact .pure h
  | succ count ih =>
    rw [readOctalDigits]
    split
    · next digit heq =>
      refine (ih _ h.step).congr fun hb => ?_
      rw [readOctalDigits, h.peek (hb.of_le ?_), heq]
      exact Nat.le_trans (length_rest_readOctalDigits _ _ _) length_rest_step
    · next heq =>
      refine (Parting.Agrees.pure h).congr fun hb => ?_
      rw [readOctalDigits, h.peek hb, heq]

theorem agrees_readEscape (hk : k.bracket ≠ '0' ∧ k.bracket ≠ '\n') {r : List Char × Cursor}
    (h : k.Near c d) (hr : readEscape strict c = .ok r) : k.Agrees r (readEscape strict d) := by
  have hlength := Nat.le_of_lt (length_rest_readEscape hr)
  have hpeek (hb : k.Before r.2) : d.peek? = c.peek? := h.peek (hb.of_le hlength)
  unfold readEscape at hr
  split at hr
  · cases hr
  next ch hc =>
  have hnul (hb : k.Before r.2) : (ch == '0' && !(d.step.peek?.any Char.isDigit)) =
      (ch == '0' && !(c.step.peek?.any Char.isDigit)) := by
    by_cases hch : ch = '0'
    · rw [h.peek_step (hb.of_le hlength) hc (hch ▸ hk.1.symm)]
    · rw [beq_false_of_ne hch, Bool.false_and, Bool.false_and]
  dsimp only at hr
  split at hr
  · next control hcontrol =>
    cases hr
    refine (Parting.Agrees.pure h.step).congr fun hb => ?_
    simp only [readEscape, hpeek hb, hc, hcontrol]
  next hcontrol =>
  split at hr
  · next hzero =>
    cases hr
    refine (Parting.Agrees.pure h.step).congr fun hb => ?_
    simp only [readEscape, hpeek hb, hc, hcontrol, hnul hb, hzero, if_true]
  next hzero =>
  split at hr
  · next digit hdigit =>
    split at hr
    · cases hr
    next hsloppy =>
    cases hr
    obtain ⟨e, he, hok⟩ := agrees_readOctalDigits (if digit ≤ 3 then 2 else 1) digit h.step
    refine ⟨e, he, fun hb => ?_⟩
    obtain ⟨hvalue, hnext⟩ := Prod.mk.inj (Except.ok.inj (hok hb))
    simp only [readEscape, hpeek hb, hc, hcontrol, hnul hb, hzero, hdigit, hsloppy, if_false,
      Bool.false_eq_true, hvalue, hnext]
  next hdigit =>
  split at hr
  · next hhex =>
    cases hd : readHexDigits 2 0 c.step with
    | error e => rw [hd] at hr; cases hr
    | ok found =>
      rw [hd] at hr
      cases hr
      obtain ⟨e, he, hok⟩ := agrees_readHexDigits h.step hd
      refine ⟨e, he, fun hb => ?_⟩
      simp only [readEscape, hpeek hb, hc, hcontrol, hnul hb, hzero, hdigit, hhex, if_false,
        Bool.false_eq_true, if_true, hok hb]
      rfl
  next hhex =>
  split at hr
  · next hunit =>
    cases hd : readUnicodeEscape c.step with
    | error e => rw [hd] at hr; cases hr
    | ok found =>
      rw [hd] at hr
      cases hr
      obtain ⟨e, he, hok⟩ := agrees_readUnicodeEscape h.step hd
      refine ⟨e, he, fun hb => ?_⟩
      simp only [readEscape, hpeek hb, hc, hcontrol, hnul hb, hzero, hdigit, hhex, hunit, if_false,
        Bool.false_eq_true, if_true, hok hb]
      rfl
  next hunit =>
  split at hr
  · next hbreak =>
    cases hr
    refine (Parting.Agrees.pure (h.skipLineBreak hk.2)).congr fun hb => ?_
    simp only [readEscape, hpeek hb, hc, hcontrol, hnul hb, hzero, hdigit, hhex, hunit, hbreak,
      if_false, Bool.false_eq_true, if_true]
  · next hbreak =>
    cases hr
    refine (Parting.Agrees.pure h.step).congr fun hb => ?_
    simp only [readEscape, hpeek hb, hc, hcontrol, hnul hb, hzero, hdigit, hhex, hunit, hbreak,
      if_false, Bool.false_eq_true]

theorem readString_step (strict : Bool) (quote : Char) (c : Cursor) (content : List Char) :
    readString strict quote c content =
      match c.peek? with
      | none => .error ⟨.unterminatedString, c.position⟩
      | some ch =>
        if ch == quote then .ok (String.ofList content.reverse, c.step)
        else if ch == '\\' then
          readEscape strict c.step >>= fun found =>
            readString strict quote found.2 (found.1.reverse ++ content)
        else if ch == '\n' || ch == '\r' then .error ⟨.unterminatedString, c.step.position⟩
        else readString strict quote c.step (ch :: content) := by
  rw [readString]
  split
  · next hc => rw [hc]
  · next ch hc =>
    rw [hc]
    dsimp only
    congr 2
    split
    · next he => rw [he]; rfl
    · next he => rw [he]; rfl

theorem agrees_readString (hk : k.bracket ≠ '0' ∧ k.bracket ≠ '\n') {quote : Char}
    {content : List Char} {r : String × Cursor} (h : k.Near c d)
    (hr : readString strict quote c content = .ok r) :
    k.Agrees r (readString strict quote d content) := by
  have hlength := length_rest_readString hr
  fun_induction readString strict quote c content generalizing d with
  | case1 => cases hr
  | case2 c content ch hc hquote =>
    cases hr
    refine (Parting.Agrees.pure h.step).congr fun hb => ?_
    rw [readString_step, h.peek (hb.of_le hlength), hc]
    exact if_pos hquote
  | case3 c content ch hc hquote hslash chars next he ih =>
    obtain ⟨e, hnear, hok⟩ := agrees_readEscape hk h.step he
    refine (ih hnear hr (length_rest_readString hr)).congr fun hb => ?_
    rw [readString_step, h.peek (hb.of_le hlength), hc]
    dsimp only
    rw [if_neg hquote, if_pos hslash, hok (hb.of_le (length_rest_readString hr))]
    rfl
  | case4 => cases hr
  | case5 => cases hr
  | case6 c content ch hc hquote hslash hbreak ih =>
    refine (ih h.step hr (length_rest_readString hr)).congr fun hb => ?_
    rw [readString_step, h.peek (hb.of_le hlength), hc]
    dsimp only
    rw [if_neg hquote, if_neg hslash, if_neg hbreak]

/-! ### Names -/

theorem readName_step (c : Cursor) (name : List Char) (escaped : Bool) :
    readName c name escaped =
      match c.peek? with
      | none => .ok (String.ofList name.reverse, escaped, c)
      | some ch =>
        if ch == '\\' then
          if c.step.peek? == some 'u' then
            readUnicodeEscape c.step.step >>= fun found => readName found.2 (found.1 :: name) true
          else .error ⟨.nameEscape, c.step.step.position⟩
        else if Text.isIdentifierContinue ch then readName c.step (ch :: name) escaped
        else .ok (String.ofList name.reverse, escaped, c) := by
  rw [readName]
  split
  · next hc => rw [hc]
  · next ch hc =>
    rw [hc]
    dsimp only
    congr 2
    split
    · next he => rw [he]; rfl
    · next he => rw [he]; rfl

theorem agrees_readName (hk : k.bracket ≠ '\\') {name : List Char} {escaped : Bool}
    {r : String × Bool × Cursor} (h : k.Near c d) (hr : readName c name escaped = .ok r) :
    ∃ e, k.Near r.2.2 e ∧ (k.Before r.2.2 → readName d name escaped = .ok (r.1, r.2.1, e)) := by
  have hlength := length_rest_readName hr
  fun_induction readName c name escaped generalizing d with
  | case1 c name escaped hc =>
    cases hr
    refine ⟨d, h, fun hb => ?_⟩
    rw [readName_step, h.peek hb, hc]
  | case2 c name escaped ch hc hslash hu char next he ih =>
    obtain ⟨e, hnear, hok⟩ := agrees_readUnicodeEscape h.step.step he
    obtain ⟨f, hf, hname⟩ := ih hnear hr (length_rest_readName hr)
    refine ⟨f, hf, fun hb => ?_⟩
    have hbefore := hb.of_le hlength
    rw [readName_step, h.peek hbefore, hc]
    dsimp only
    rw [if_pos hslash, h.peek_step hbefore hc (by rw [eq_of_beq hslash]; exact hk.symm), if_pos hu,
      hok (hb.of_le (length_rest_readName hr))]
    exact hname hb
  | case3 => cases hr
  | case4 => cases hr
  | case5 c name escaped ch hc hslash hcontinue ih =>
    obtain ⟨f, hf, hname⟩ := ih h.step hr (length_rest_readName hr)
    refine ⟨f, hf, fun hb => ?_⟩
    rw [readName_step, h.peek (hb.of_le hlength), hc]
    dsimp only
    rw [if_neg hslash, if_pos hcontinue]
    exact hname hb
  | case6 c name escaped ch hc hslash hcontinue =>
    cases hr
    refine ⟨d, h, fun hb => ?_⟩
    rw [readName_step, h.peek hb, hc]
    dsimp only
    rw [if_neg hslash, if_neg hcontinue]

theorem agrees_readWord (hk : k.bracket ≠ '\\') {first : Char} {r : Token × Cursor}
    (h : k.Near c d) (hr : readWord first c = .ok r) : k.Agrees r (readWord first d) := by
  unfold readWord at hr
  split at hr
  · next hslash =>
    cases hn : readName c [] false with
    | error e => rw [hn] at hr; cases hr
    | ok found =>
      rw [hn] at hr
      cases hr
      obtain ⟨e, he, hok⟩ := agrees_readName hk h hn
      refine ⟨e, he, fun hb => ?_⟩
      rw [readWord, if_pos hslash, hok hb]
      rfl
  · next hslash =>
    cases hn : readName c.step [first] false with
    | error e => rw [hn] at hr; cases hr
    | ok found =>
      rw [hn] at hr
      cases hr
      obtain ⟨e, he, hok⟩ := agrees_readName hk h.step hn
      refine ⟨e, he, fun hb => ?_⟩
      rw [readWord, if_neg hslash, hok hb]
      rfl

/-! ### Numbers -/

theorem digitsAt_step (radix : Nat) (c : Cursor) :
    digitsAt radix c =
      match c.peek? with
      | none => ([], c)
      | some ch =>
        if Number.isDigitOf radix ch then
          (ch :: (digitsAt radix c.step).1, (digitsAt radix c.step).2)
        else if ch == '_' && c.step.peek?.any (Number.isDigitOf radix) then digitsAt radix c.step
        else ([], c) := by
  obtain ⟨cs, p⟩ := c
  cases cs <;> rfl

theorem agrees_digitsAt (hk : k.bracket ≠ '_') (radix : Nat) {r : List Char × Cursor}
    (h : k.Near c d) (hr : digitsAt radix c = r) : k.Agrees r (.ok (digitsAt radix d)) := by
  have hlength : r.2.rest.length ≤ c.rest.length := hr ▸ length_rest_digitsAt radix c
  obtain ⟨cs, p⟩ := c
  induction cs generalizing p d r with
  | nil =>
    subst hr
    refine (Parting.Agrees.pure h).congr fun hb => ?_
    rw [digitsAt_step, h.peek hb]
    rfl
  | cons ch cs ih =>
    have hc : Cursor.peek? ⟨ch :: cs, p⟩ = some ch := rfl
    rw [digitsAt_step, hc] at hr
    dsimp only at hr
    split at hr
    · next hdigit =>
      subst hr
      obtain ⟨e, he, hok⟩ := ih _ h.step rfl (length_rest_digitsAt radix _)
      refine ⟨e, he, fun hb => ?_⟩
      rw [digitsAt_step, h.peek (hb.of_le hlength), hc]
      dsimp only
      rw [if_pos hdigit, Except.ok.inj (hok hb)]
      rfl
    next hdigit =>
    have hsecond (hb : k.Before r.2) : (ch == '_' && d.step.peek?.any (Number.isDigitOf radix)) =
        (ch == '_' && (⟨ch :: cs, p⟩ : Cursor).step.peek?.any (Number.isDigitOf radix)) := by
      by_cases hch : ch = '_'
      · rw [h.peek_step (hb.of_le hlength) hc (hch ▸ hk.symm)]
      · rw [beq_false_of_ne hch, Bool.false_and, Bool.false_and]
    split at hr
    · next hunder =>
      refine (ih _ h.step hr (hr ▸ length_rest_digitsAt radix _)).congr fun hb => ?_
      rw [digitsAt_step, h.peek (hb.of_le hlength), hc]
      dsimp only
      rw [if_neg hdigit, hsecond hb, if_pos hunder]
    · next hunder =>
      subst hr
      refine (Parting.Agrees.pure h).congr fun hb => ?_
      rw [digitsAt_step, h.peek (hb.of_le hlength), hc]
      dsimp only
      rw [if_neg hdigit, hsecond hb, if_neg hunder]

theorem agrees_endNumber {token : Token} {r : Token × Cursor} (h : k.Near c d)
    (hr : endNumber token c = .ok r) : k.Agrees r (endNumber token d) := by
  unfold endNumber at hr
  split at hr
  · cases hr
  next hend =>
  cases hr
  refine (Parting.Agrees.pure h).congr fun hb => ?_
  rw [endNumber, h.peek hb, if_neg hend]

theorem agrees_readRadixNumber (hk : k.bracket ≠ '_') {radix : Nat} {r : Token × Cursor}
    (h : k.Near c d) (hr : readRadixNumber radix c = .ok r) :
    k.Agrees r (readRadixNumber radix d) := by
  unfold readRadixNumber at hr
  dsimp only at hr
  split at hr
  · cases hr
  next hdigits =>
  obtain ⟨e, he, hok⟩ := agrees_digitsAt hk radix h rfl
  refine (agrees_endNumber he hr).congr fun hb => ?_
  rw [readRadixNumber, Except.ok.inj (hok (hb.of_le (length_rest_endNumber hr)))]
  exact if_neg hdigits

theorem agrees_readLeadingZero {r : Token × Cursor} (h : k.Near c d)
    (hr : readLeadingZero strict c = .ok r) : k.Agrees r (readLeadingZero strict d) := by
  unfold readLeadingZero at hr
  split at hr
  · cases hr
  next hsloppy =>
  dsimp only at hr
  split at hr
  · next hoctal =>
    refine (agrees_endNumber (h.skipWhile _) hr).congr fun hb => ?_
    have hbefore := hb.of_le (length_rest_endNumber hr)
    rw [readLeadingZero, if_neg hsloppy, h.takeWhile hbefore]
    exact if_pos hoctal
  · next hoctal =>
    refine (agrees_endNumber (h.skipWhile _) hr).congr fun hb => ?_
    have hbefore := hb.of_le (length_rest_endNumber hr)
    rw [readLeadingZero, if_neg hsloppy, h.takeWhile hbefore]
    exact if_neg hoctal

theorem agrees_readExponent (hk : k.bracket ≠ '_') {r : List Char × Cursor} (h : k.Near c d)
    (hr : readExponent c = .ok r) : k.Agrees r (readExponent d) := by
  have hlength := length_rest_readExponent hr
  unfold readExponent at hr
  split at hr
  · next hletter =>
    dsimp only at hr
    split at hr
    · cases hr
    next hdigits =>
    cases hr
    obtain ⟨e, he, hok⟩ := agrees_digitsAt hk 10 (h.step.skip
      (c.step.peek?.toList.filter fun ch => ch == '+' || ch == '-').length) rfl
    refine ⟨e, he, fun hb => ?_⟩
    have hbefore : k.Before c.step := hb.of_le (Nat.le_trans (length_rest_digitsAt 10 _)
      (by simp [Cursor.skip]))
    rw [readExponent, h.peek (hb.of_le hlength), if_pos hletter]
    dsimp only
    rw [h.step.peek hbefore, Except.ok.inj (hok hb)]
    exact if_neg hdigits
  · next hletter =>
    cases hr
    refine (Parting.Agrees.pure h).congr fun hb => ?_
    rw [readExponent, h.peek hb, if_neg hletter]

theorem agrees_readMantissa (hk : k.bracket ≠ '_') {first : Char} {r : List Char × Cursor}
    (h : k.Near c d) (hr : readMantissa first c = r) : k.Agrees r (.ok (readMantissa first d)) := by
  unfold readMantissa at hr
  split at hr
  · next hpoint =>
    obtain ⟨e, he, hok⟩ := agrees_digitsAt hk 10 h rfl
    subst hr
    refine ⟨e, he, fun hb => ?_⟩
    rw [readMantissa, if_pos hpoint, Except.ok.inj (hok hb)]
  next hwhole =>
  obtain ⟨e, he, hok⟩ := agrees_digitsAt hk 10 h rfl
  dsimp only at hr
  split at hr
  · next hpoint =>
    obtain ⟨f, hf, hfraction⟩ := agrees_digitsAt hk 10 he.step rfl
    subst hr
    refine ⟨f, hf, fun hb => ?_⟩
    have hbefore := hb.of_le (Nat.le_trans (length_rest_digitsAt 10 _) length_rest_step)
    rw [readMantissa, if_neg hwhole, Except.ok.inj (hok hbefore)]
    dsimp only
    rw [he.peek hbefore, if_pos hpoint, Except.ok.inj (hfraction hb)]
  · next hpoint =>
    subst hr
    refine ⟨e, he, fun hb => ?_⟩
    rw [readMantissa, if_neg hwhole, Except.ok.inj (hok hb)]
    dsimp only
    rw [he.peek hb, if_neg hpoint]

theorem agrees_readDecimal (hk : k.bracket ≠ '_') {first : Char} {r : Token × Cursor}
    (h : k.Near c d) (hr : readDecimal first c = .ok r) : k.Agrees r (readDecimal first d) := by
  unfold readDecimal at hr
  obtain ⟨e, he, hmantissa⟩ := agrees_readMantissa hk h (Eq.refl (readMantissa first c))
  dsimp only at hr
  cases hd : readExponent (readMantissa first c).2 with
  | error error => rw [hd] at hr; cases hr
  | ok found =>
    rw [hd] at hr
    obtain ⟨f, hf, hexponent⟩ := agrees_readExponent hk he hd
    refine (agrees_endNumber hf hr).congr fun hb => ?_
    have hbefore := hb.of_le (length_rest_endNumber hr)
    rw [readDecimal, Except.ok.inj (hmantissa (hbefore.of_le (length_rest_readExponent hd)))]
    dsimp only
    rw [hexponent hbefore]
    rfl

theorem agrees_readNumber (hk : k.bracket ≠ '_') {first : Char} {r : Token × Cursor}
    (h : k.Near c d) (hr : readNumber strict first c = .ok r) :
    k.Agrees r (readNumber strict first d) := by
  have hlength := length_rest_readNumber hr
  have hpeek (hb : k.Before r.2) : d.peek? = c.peek? := h.peek (hb.of_le hlength)
  unfold readNumber at hr
  split at hr
  · next radix hradix =>
    refine (agrees_readRadixNumber hk h.step hr).congr fun hb => ?_
    rw [readNumber, hpeek hb, hradix]
  next hnone =>
  split at hr
  · next hzero =>
    refine (agrees_readLeadingZero h hr).congr fun hb => ?_
    rw [readNumber, hpeek hb, hnone]
    exact if_pos hzero
  · next hzero =>
    refine (agrees_readDecimal hk h hr).congr fun hb => ?_
    rw [readNumber, hpeek hb, hnone]
    exact if_neg hzero

end Token

end ProtoScript
