import ProtoScript.Proofs.Modes.Steps
import ProtoScript.Proofs.Partings.Tokens
import ProtoScript.Proofs.Separators
/-!
# Rules on texts that part behind a bracket

A rule that succeeds on the first of two texts that part behind a bracket does the same on the
second one, unless it takes the bracket and reads on behind it.  Rules go step by step, and it is
enough to know what a step does.

Where a line break stands in front of the bracket and no star behind it, no comment reaches over the
bracket.  Then a text does not end, and no sign is taken, before the bracket has been taken as a
token by itself, so what ends at the bracket in a text that ends there can be read whatever stands
behind the bracket.
-/

namespace ProtoScript

def TokenStream.last (s : TokenStream) : Token := (s.ahead.map Prod.fst).getD s.current

namespace Parting

variable {k : Parting} {sign : Punctuator} {s t u : TokenStream}

/-- The streams stand at the same place of the two texts: in front of the bracket, or the bracket is
the token that was read last.  No token is looked at behind a sign. -/
structure Abreast (k : Parting) (sign : Punctuator) (s t : TokenStream) : Prop where
  current : t.current = s.current
  afterBreak : t.afterBreak = s.afterBreak
  ahead : t.ahead = s.ahead
  looked : s.ahead ≠ none → s.current.sign? = none
  strict : t.strict = s.strict
  stands : k.Stands sign s.last s.cursor t.cursor

structure Lost (k : Parting) (sign : Punctuator) (s : TokenStream) : Prop where
  suffix : s.cursor.rest <:+ k.behind
  current : s.current ≠ .punctuator sign
  ahead : ∀ found ∈ s.ahead, found.1 ≠ .punctuator sign

namespace Lost

theorem advance (hk : k.At sign) (h : k.Lost sign s) (hs : Parser.advance s = .ok () u) :
    k.Lost sign u := by
  unfold Parser.advance at hs
  split at hs
  · next token broken hahead =>
    cases hs
    exact ⟨h.suffix, h.ahead _ hahead, nofun⟩
  · next hahead =>
    split at hs
    · next token broken cursor hread =>
      cases hs
      have hover := (TokenStream.stands_readToken hk (d := s.cursor)
        (.inr h.suffix) hread).resolve_left
        fun ⟨e, _, hstands⟩ => TokenStream.not_stands_readToken hread h.suffix hstands
      exact ⟨hover.suffix, hover.token, fun found hfound => by rw [hahead] at hfound; cases hfound⟩
    · cases hs

theorem peek (hk : k.At sign) (h : k.Lost sign s) {found : Token × Bool}
    (hs : Parser.peek s = .ok found u) : k.Lost sign u := by
  obtain ⟨v, hv, rfl⟩ := Grammar.advance_of_peek hs
  have hlost := h.advance hk hv
  refine ⟨hlost.suffix, h.current, fun found hfound => ?_⟩
  obtain rfl := Option.some.inj hfound
  exact hlost.current

theorem setStrict (h : k.Lost sign s) (mode : Bool) : k.Lost sign { s with strict := mode } :=
  ⟨h.suffix, h.current, h.ahead⟩

end Lost

namespace Abreast

theorem advance (hk : k.At sign) (h : k.Abreast sign s t) (hs : Parser.advance s = .ok () u) :
    (∃ v, Parser.advance t = .ok () v ∧ k.Abreast sign u v) ∨ k.Lost sign u := by
  have hstands := h.stands
  unfold Parser.advance at hs
  split at hs
  · next token broken hahead =>
    cases hs
    refine .inl ⟨{ t with current := token, afterBreak := broken, ahead := none }, ?_,
      rfl, rfl, rfl, absurd rfl, h.strict, ?_⟩
    · rw [Parser.advance, h.ahead, hahead]
    · rwa [TokenStream.last, hahead] at hstands
  · next hahead =>
    rw [TokenStream.last, hahead] at hstands
    have hnear : k.Near s.cursor t.cursor := by
      cases hstands with
      | beside hbeside => exact .inl hbeside
      | taken _ hc => exact .inr (hc ▸ List.suffix_rfl)
    split at hs
    · next token broken cursor hread =>
      cases hs
      rcases TokenStream.stands_readToken hk hnear hread with ⟨e, he, hstands⟩ | hover
      · refine .inl ⟨{ t with current := token, afterBreak := broken, cursor := e }, ?_, rfl, rfl,
          h.ahead, absurd hahead, h.strict, ?_⟩
        · rw [Parser.advance, h.ahead, hahead, h.strict]
          dsimp only
          rw [he]
        · rw [TokenStream.last]
          dsimp only
          rwa [hahead]
      · exact .inr ⟨hover.suffix, hover.token, fun found hfound => by
          rw [hahead] at hfound; cases hfound⟩
    · cases hs

theorem peek (hk : k.At sign) (h : k.Abreast sign s t) (hplain : s.current.sign? = none)
    {found : Token × Bool} (hs : Parser.peek s = .ok found u) :
    (∃ v, Parser.peek t = .ok found v ∧ k.Abreast sign u v) ∨ k.Lost sign u := by
  obtain ⟨v, hv, rfl⟩ := Grammar.advance_of_peek hs
  rcases h.advance hk hv with ⟨w, hw, hvw⟩ | hlost
  · rw [Grammar.peek_eq, hv] at hs
    cases hs
    refine .inl ⟨{ w with current := t.current, afterBreak := t.afterBreak,
                          ahead := some (w.current, w.afterBreak) }, ?_, ?_⟩
    · rw [Grammar.peek_eq, hw]
      dsimp only
      rw [hvw.current, hvw.afterBreak]
    · refine ⟨h.current, h.afterBreak, ?_, fun _ => hplain, hvw.strict, ?_⟩
      · dsimp only
        rw [hvw.current, hvw.afterBreak]
      · have hstands := hvw.stands
        rwa [TokenStream.last, Grammar.ahead_advance hv] at hstands
  · refine .inr ⟨hlost.suffix, fun hsign => ?_, fun found hfound => ?_⟩
    · rw [show s.current = .punctuator sign from hsign] at hplain
      cases hplain
    · obtain rfl := Option.some.inj hfound
      exact hlost.current

theorem setStrict (h : k.Abreast sign s t) (mode : Bool) :
    k.Abreast sign { s with strict := mode } { t with strict := mode } :=
  ⟨h.current, h.afterBreak, h.ahead, h.looked, rfl, h.stands⟩

end Abreast

end Parting

namespace Grammar

variable {α : Type} {K : Token → Prop} {m : Bool} {p : Parser α} {Q : α → Bool → Prop}
  {k : Parting} {sign : Punctuator} {s s' t : TokenStream} {a : α}

theorem strict_peek {found : Token × Bool} (h : Parser.peek s = .ok found t) :
    t.strict = s.strict := by
  obtain ⟨u, hu, rfl⟩ := advance_of_peek h
  have hstrict := strict_advance hu
  exact hstrict

theorem attempt_of_ok (h : p s = .ok a t) : Parser.attempt p s = .ok (.ok a) t := by
  unfold Parser.attempt
  rw [h]

theorem Proceeds.lost (hk : k.At sign) (h : Proceeds K m p Q) (hlost : k.Lost sign s)
    (hs : s.strict = m) (hK : K s.current) (hp : p s = .ok a s') : k.Lost sign s' := by
  induction h generalizing s s' with
  | pure _ =>
    cases hp
    exact hlost
  | fail h => exact absurd hp (h s a s')
  | current _ ih => exact ih s.current hK hlost hs rfl hp
  | afterBreak _ ih => exact ih s.afterBreak hlost hs hK hp
  | isStrict _ ih =>
    obtain rfl := hs
    exact ih hlost rfl hK hp
  | setStrict _ ih =>
    rw [setStrict_bind] at hp
    exact ih (hlost.setStrict _) rfl hK hp
  | advance _ ih =>
    obtain ⟨_, u, hu, hp⟩ := bind_eq_ok hp
    exact ih (hlost.advance hk hu) ((strict_advance hu).trans hs) trivial hp
  | peek hK' _ ih =>
    obtain ⟨found, u, hu, hp⟩ := bind_eq_ok hp
    exact ih found (hlost.peek hk hu) ((strict_peek hu).trans hs) (by rwa [current_peek hu]) hp
  | attempt hrule _ hfail ihp ihf =>
    obtain ⟨r, u, hu, hp⟩ := bind_eq_ok hp
    unfold Parser.attempt at hu
    split at hu
    · next hrun =>
      cases hu
      exact ihf _ _ (hrule.sound hs hK hrun) (ihp hlost hs hK hrun) rfl trivial hp
    · cases hu
    · cases hu
      exact absurd hp (hfail _ _ _ _)
  | bind hrule _ ihp ihf =>
    obtain ⟨b, u, hu, hp⟩ := bind_eq_ok hp
    exact ihf b _ (hrule.sound hs hK hu) (ihp hlost hs hK hu) rfl trivial hp

/-- What a rule does on the first text it does on the second one, unless it gets behind the
bracket. -/
theorem Proceeds.abreast (hk : k.At sign) (h : Proceeds K m p Q) (hst : k.Abreast sign s t)
    (hs : s.strict = m) (hK : K s.current) (hp : p s = .ok a s') :
    (∃ t', p t = .ok a t' ∧ k.Abreast sign s' t') ∨ k.Lost sign s' := by
  induction h generalizing s s' t with
  | pure _ =>
    cases hp
    exact .inl ⟨t, rfl, hst⟩
  | fail h => exact absurd hp (h s a s')
  | current _ ih =>
    rw [current_bind] at hp ⊢
    rw [hst.current]
    exact ih s.current hK hst hs rfl hp
  | afterBreak _ ih =>
    rw [afterBreak_bind] at hp ⊢
    rw [hst.afterBreak]
    exact ih s.afterBreak hst hs hK hp
  | isStrict _ ih =>
    obtain rfl := hs
    have hrun : ∀ {β : Type} (f : Bool → Parser β), (Parser.isStrict >>= f) t = f s.strict t := by
      intro β f
      rw [← hst.strict]
      rfl
    rw [hrun]
    exact ih hst rfl hK hp
  | setStrict _ ih =>
    rw [setStrict_bind] at hp ⊢
    exact ih (hst.setStrict _) rfl hK hp
  | advance hrest ih =>
    obtain ⟨_, u, hu, hp⟩ := bind_eq_ok hp
    have hstrict := (strict_advance hu).trans hs
    rcases hst.advance hk hu with ⟨v, hv, huv⟩ | hlost
    · rw [bind_of_ok hv]
      exact ih huv hstrict trivial hp
    · exact .inr (hrest.lost hk hlost hstrict trivial hp)
  | peek hK' hrest ih =>
    obtain ⟨found, u, hu, hp⟩ := bind_eq_ok hp
    have hstrict := (strict_peek hu).trans hs
    have hcurrent := current_peek hu
    rcases hst.peek hk (hK' _ hK) hu with ⟨v, hv, huv⟩ | hlost
    · rw [bind_of_ok hv]
      exact ih found huv hstrict (by rwa [hcurrent]) hp
    · exact .inr ((hrest found).lost hk hlost hstrict (by rwa [hcurrent]) hp)
  | attempt hrule hrest hfail ihp ihf =>
    obtain ⟨r, u, hu, hp⟩ := bind_eq_ok hp
    unfold Parser.attempt at hu
    split at hu
    · next hrun =>
      cases hu
      have hsound := hrule.sound hs hK hrun
      rcases ihp hst hs hK hrun with ⟨v, hv, huv⟩ | hlost
      · rw [bind_of_ok (attempt_of_ok hv)]
        exact ihf _ _ hsound huv rfl trivial hp
      · exact .inr ((hrest _ _ hsound).lost hk hlost rfl trivial hp)
    · cases hu
    · cases hu
      exact absurd hp (hfail _ _ _ _)
  | bind hrule hrest ihp ihf =>
    obtain ⟨b, u, hu, hp⟩ := bind_eq_ok hp
    have hsound := hrule.sound hs hK hu
    rcases ihp hst hs hK hu with ⟨v, hv, huv⟩ | hlost
    · rw [bind_of_ok hv]
      exact ihf b _ hsound huv rfl trivial hp
    · exact .inr ((hrest b _ hsound).lost hk hlost rfl trivial hp)

end Grammar

/-! ### A bracket behind a line break is not run over -/

namespace Parting

variable {k : Parting} {sign : Punctuator} {c d : Cursor}

structure Closed (k : Parting) (sign : Punctuator) : Prop extends k.At sign where
  lineEnd : ∃ more, k.front = more ++ ['\n']
  noStar : '*' ∉ k.behind

abbrev tail (k : Parting) : List Char := k.bracket :: k.behind

theorem before_of_suffix (h : k.tail <:+ c.rest) : k.Before c :=
  Nat.lt_of_lt_of_le (Nat.lt_succ_self _) h.length_le

theorem Beside.tail_suffix (h : k.Beside c d) : k.tail <:+ c.rest := by
  obtain ⟨w, -, hc, -⟩ := h.rests
  exact hc ▸ List.suffix_append w _

theorem Beside.lineEnd_suffix (hk : k.Closed sign) (h : k.Beside c d) :
    c.rest = k.tail ∨ '\n' :: k.tail <:+ c.rest := by
  obtain ⟨w, hfront, hc, -⟩ := h.rests
  obtain ⟨more, hmore⟩ := hk.lineEnd
  rw [hmore] at hfront
  rcases List.suffix_concat_iff.mp hfront with rfl | ⟨w', rfl, -⟩
  · exact .inl hc
  · refine .inr ⟨w', ?_⟩
    rw [hc, List.append_assoc, List.singleton_append]

end Parting

namespace Token

variable {k : Parting} {sign : Punctuator} {c d : Cursor} {strict : Bool}

theorem suffix_dropWhile {α : Type} {test : α → Bool} {a : α} {z l : List α}
    (ha : test a = false) (h : a :: z <:+ l) : a :: z <:+ l.dropWhile test := by
  induction l with
  | nil => exact h
  | cons b l ih =>
    rcases List.suffix_cons_iff.mp h with heq | h
    · have hkept : (b :: l).dropWhile test = a :: z := by
        rw [← heq, List.dropWhile_cons_of_neg (by simp [ha])]
      exact hkept ▸ List.suffix_rfl
    · rw [List.dropWhile_cons]
      split
      · exact ih h
      · exact h.trans (List.suffix_cons b l)

theorem star_mem_of_readBlockComment {cs : List Char} {p : Position} {crossed : Bool}
    {r : Bool × Cursor} (h : readBlockComment cs p crossed = .ok r) : '*' ∈ cs := by
  fun_induction readBlockComment cs p crossed with
  | case1 => cases h
  | case2 => exact List.mem_cons_self
  | case3 rest p _ ih => exact List.mem_cons_of_mem _ (List.mem_cons_of_mem _ (ih h))
  | case4 ch rest _ _ _ _ _ ih => exact List.mem_cons_of_mem _ (ih h)
  | case5 ch rest _ _ _ _ _ ih => exact List.mem_cons_of_mem _ (ih h)

/-- A comment ends in front of characters without a star, unless they begin with a slash. -/
theorem suffix_readBlockComment {cs z : List Char} {p : Position} {crossed : Bool}
    {r : Bool × Cursor} (hstar : '*' ∉ z) (hslash : z.head? ≠ some '/')
    (h : readBlockComment cs p crossed = .ok r) (hz : z <:+ cs) : z <:+ r.2.rest := by
  have hbehind {ch : Char} {rest : List Char} (hz : z <:+ ch :: rest) (hrest : '*' ∈ ch :: rest) :
      z <:+ rest := by
    rcases List.suffix_cons_iff.mp hz with rfl | hz
    · exact absurd hrest hstar
    · exact hz
  fun_induction readBlockComment cs p crossed with
  | case1 => cases h
  | case2 rest p _ =>
    cases h
    rcases List.suffix_cons_iff.mp (hbehind hz List.mem_cons_self) with rfl | hz
    · exact absurd rfl hslash
    · exact hz
  | case3 rest p _ ih =>
    have hmem := star_mem_of_readBlockComment h
    exact ih h (hbehind (hbehind hz (List.mem_cons_of_mem _ (List.mem_cons_of_mem _ hmem)))
      (List.mem_cons_of_mem _ hmem))
  | case4 ch rest _ _ _ _ _ ih =>
    exact ih h (hbehind hz (List.mem_cons_of_mem _ (star_mem_of_readBlockComment h)))
  | case5 ch rest _ _ _ _ _ ih =>
    exact ih h (hbehind hz (List.mem_cons_of_mem _ (star_mem_of_readBlockComment h)))

theorem suffix_skipLineBreak {z : List Char} (h : '\n' :: z <:+ c.rest) :
    z <:+ c.skipLineBreak.rest := by
  have hbehind {ch : Char} {rest : List Char} (h : '\n' :: z <:+ ch :: rest) : z <:+ rest := by
    rcases List.suffix_cons_iff.mp h with heq | h
    · exact (List.cons.inj heq).2 ▸ List.suffix_rfl
    · exact (List.suffix_cons _ _).trans h
  unfold Cursor.skipLineBreak
  split
  · next rest heq =>
    rw [heq] at h
    rcases List.suffix_cons_iff.mp h with heq | h
    · cases heq
    · exact hbehind h
  · next heq =>
    rw [heq] at h
    exact hbehind h
  · next heq =>
    rw [heq] at h
    cases List.suffix_nil.mp h

theorem not_over_sign (hk : k.Closed sign) {other : Punctuator} {z : List Char} (h : k.Beside c d)
    (hne : c.rest ≠ k.tail) (hc : c.rest = other.spelling ++ z) : ¬ z <:+ k.behind := by
  intro hz
  obtain ⟨w, -, hw, -⟩ := h.rests
  have hlength := hz.length_le
  have hstart : other.spelling <+: w ++ [k.bracket] :=
    (hk.spelling_prefix other w k.behind).mp (by rw [← hw, hc]; exact List.prefix_append _ _)
  have hsame := congrArg List.length (hc.symm.trans hw)
  simp only [List.length_append, List.length_cons] at hsame
  have heq := hstart.eq_of_length_le (by
    simp only [List.length_append, List.length_singleton]
    omega)
  have hone : other.spelling.length = 1 := hk.length_spelling (by simp [heq])
  rw [heq, List.length_append, List.length_singleton] at hone
  obtain rfl := List.length_eq_zero_iff.mp (Nat.succ.inj hone)
  exact hne hw

/-- The lexeme behind the gaps is not the end of the text, and no sign but the bracket reaches over
the bracket. -/
theorem not_over_readLexeme (hk : k.Closed sign) {l : Lexeme} (h : k.Beside c d)
    (hl : readLexeme strict c = .ok l) (ht : ¬ l.token.IsPlain) :
    ¬ k.Over sign l.token l.next := by
  intro hover
  rcases h.lineEnd_suffix hk with hc | hend
  · obtain ⟨l', hl', htoken, -⟩ := readLexeme_bracket strict hk.toAt hc
    obtain rfl := Except.ok.inj (hl.symm.trans hl')
    exact hover.token htoken
  have hne : c.rest ≠ k.tail := fun hc => Nat.not_succ_le_self _ (hc ▸ hend).length_le
  unfold readLexeme at hl
  split at hl
  · next hpeek =>
    cases (List.head?_eq_none_iff.mp hpeek) ▸ hend.length_le
  next ch hpeek =>
  split at hl
  · cases hl
    exact Nat.not_le_of_lt (Parting.before_of_suffix (suffix_skipLineBreak hend))
      hover.suffix.length_le
  cases hr : readToken strict ch c with
  | error e => rw [hr] at hl; cases hl
  | ok found =>
    rw [hr] at hl
    cases hl
    obtain ⟨other, -, hspelling⟩ := (isPlain_or_sign_readToken hr).resolve_left ht
    exact not_over_sign hk h hne hspelling hover.suffix

theorem beside_skipWhile (hk : k.Closed sign) (h : k.Beside c d) :
    k.Beside (c.skipWhile Text.isInlineBlank) (d.skipWhile Text.isInlineBlank) := by
  have hall : ∀ ch ∈ ['(', ')', '\x7d'], Text.isInlineBlank ch = false := by
    simp only [List.forall_mem_cons, List.not_mem_nil, false_implies, implies_true]
    decide
  have hsuffix := suffix_dropWhile (hall _ hk.mem) h.tail_suffix
  exact (Parting.Near.skipWhile (.inl h) _).beside (Parting.before_of_suffix hsuffix)

theorem beside_skipLine (hk : k.Closed sign) (h : k.Beside c d) (hg : gapAt c = .line) :
    k.Beside c.skipLine d.skipLine := by
  rcases h.lineEnd_suffix hk with hc | hend
  · rw [hk.gapAt_bracket hc] at hg
    cases hg
  have hsuffix : '\n' :: k.tail <:+ c.skipLine.rest := suffix_dropWhile (by decide) hend
  exact (Parting.Near.skipWhile (.inl h) _).beside
    (Parting.before_of_suffix ((List.suffix_cons _ _).trans hsuffix))

theorem beside_readBlockComment (hk : k.Closed sign) (h : k.Beside c d) (hg : gapAt c = .block)
    {r : Bool × Cursor} (hr : readBlockComment (c.skip 2).rest (c.skip 2).position false = .ok r) :
    ∃ e, k.Beside r.2 e := by
  have hstar : '*' ∉ k.tail := List.not_mem_cons_of_ne_of_not_mem (hk.ne (by decide)).symm hk.noStar
  have hslash : k.tail.head? ≠ some '/' := fun h => hk.ne (by decide) (Option.some.inj h)
  have hskip : k.tail <:+ (c.skip 2).rest := by
    have hbehind {ch : Char} {rest : List Char} (hne : k.bracket ≠ ch)
        (hz : k.tail <:+ ch :: rest) :
        k.tail <:+ rest :=
      (List.suffix_cons_iff.mp hz).resolve_left fun heq => hne (List.cons.inj heq).1
    have htail := h.tail_suffix
    unfold gapAt at hg
    split at hg
    · cases hg
    · next rest hc =>
      rw [hc] at htail
      rw [Cursor.skip, hc]
      exact hbehind (hk.ne (by decide)) (hbehind (hk.ne (by decide)) htail)
    · split at hg <;> cases hg
    · cases hg
  have hsuffix := suffix_readBlockComment hstar hslash hr hskip
  obtain ⟨e, hnear, -⟩ := agrees_readBlockComment hk.toAt (Parting.Near.skip (.inl h) 2) hr
  exact ⟨_, hnear.beside (Parting.before_of_suffix hsuffix)⟩

theorem not_over_next (hk : k.Closed sign) {l : Lexeme} (h : k.Beside c d)
    (hl : next strict c = .ok l) (ht : ¬ l.token.IsPlain) : ¬ k.Over sign l.token l.next := by
  fun_induction next strict c generalizing d with
  | case1 c hg ih => exact ih (beside_skipLine hk (beside_skipWhile hk h) hg) hl
  | case2 c hg behind hb =>
    cases hl
    obtain ⟨e, hbeside⟩ := beside_readBlockComment hk (beside_skipWhile hk h) hg hb
    exact fun hover => Nat.not_le_of_lt hbeside.before hover.suffix.length_le
  | case3 c hg behind hb ih =>
    obtain ⟨e, hbeside⟩ := beside_readBlockComment hk (beside_skipWhile hk h) hg hb
    exact ih hbeside hl
  | case4 => cases hl
  | case5 c hg => exact not_over_readLexeme hk (beside_skipWhile hk h) hl ht

end Token

/-! ### Streams -/

namespace TokenStream

variable {k : Parting} {sign : Punctuator} {strict : Bool} {c d : Cursor}

theorem not_over_readToken (hk : k.Closed sign) {broken : Bool} {found : Token × Bool × Cursor}
    (h : k.Beside c d) (hr : readToken strict c broken = .ok found) (ht : ¬ found.1.IsPlain) :
    ¬ k.Over sign found.1 found.2.2 := by
  fun_induction readToken strict c broken generalizing d with
  | case1 => cases hr
  | case2 c broken l hn hbreak ih =>
    have hover := Token.not_over_next hk h hn (by simp [hbreak, Token.IsPlain])
    rcases Token.stands_next hk.toAt (.inl h) hn with ⟨m, -, -, hstands⟩ | hover'
    · cases hstands with
      | beside hbeside => exact ih hbeside hr
      | taken hsign =>
        rw [hbreak] at hsign
        cases hsign
    · exact absurd hover' hover
  | case3 c broken l hn hbreak =>
    cases hr
    exact Token.not_over_next hk h hn ht

end TokenStream

namespace Parting

variable {k : Parting} {sign : Punctuator} {s t u : TokenStream}

/-- The stream stands in front of the bracket of the first text. -/
def Inside (k : Parting) (s : TokenStream) : Prop := s.ahead = none ∧ ∃ d, k.Beside s.cursor d

/-- A stream that stands in front of the bracket and moves to a sign or to the end of the text has
taken the bracket or still stands in front of it. -/
theorem Inside.advance (hk : k.Closed sign) (h : k.Inside s) (hs : Parser.advance s = .ok () t)
    (ht : ¬ t.current.IsPlain) :
    t.current.isEnd = false ∧ (t.current = .punctuator sign ∨ k.Inside t) := by
  obtain ⟨hahead, d, hbeside⟩ := h
  unfold Parser.advance at hs
  rw [hahead] at hs
  dsimp only at hs
  split at hs
  · next token broken cursor hread =>
    cases hs
    have hover := TokenStream.not_over_readToken hk hbeside hread ht
    rcases TokenStream.stands_readToken hk.toAt (.inl hbeside) hread with ⟨e, -, hstands⟩ | hover'
    · cases hstands with
      | beside hbeside' =>
        refine ⟨?_, .inr ⟨rfl, e, hbeside'⟩⟩
        rw [← Bool.not_eq_true]
        intro hend
        have hrest := TokenStream.rest_of_endOfInput hread hend
        have hlength := hbeside'.before
        rw [Parting.Before, hrest] at hlength
        exact Nat.not_lt_zero _ hlength
      | taken htoken =>
        obtain rfl : token = .punctuator sign := htoken
        exact ⟨rfl, .inl rfl⟩
    · exact absurd hover' hover
  · cases hs

/-- At a bracket the streams stand in front of the last one, or both have taken it. -/
theorem Abreast.cases (h : k.Abreast sign s t) (hs : s.current.sign? = some sign) :
    s.ahead = none ∧ (k.Inside s ∨ s.cursor.rest = k.behind ∧ t.cursor.rest = k.behind') := by
  have hahead : s.ahead = none := by
    by_contra hahead
    rw [h.looked hahead] at hs
    cases hs
  refine ⟨hahead, ?_⟩
  cases h.stands with
  | beside hbeside => exact .inl ⟨hahead, _, hbeside⟩
  | taken _ hc hd => exact .inr ⟨hc, hd⟩

/-- At a bracket behind which the first text ends it has been taken. -/
theorem Abreast.taken (hk : k.Closed sign) (h : k.Abreast sign s t)
    (hs : s.current.sign? = some sign) (hadvance : Parser.advance s = .ok () u)
    (hend : u.current.isEnd = true) : t.cursor.rest = k.behind' := by
  refine ((h.cases hs).2.resolve_left fun hinside => ?_).2
  have hnot := (hinside.advance hk hadvance fun hplain => ?_).1
  · rw [hend] at hnot
    cases hnot
  · rw [hplain.2.1] at hend
    cases hend

end Parting

/-- A rule that ends at a bracket behind which the first text ends does the same whatever stands
behind the bracket. -/
theorem Grammar.Proceeds.closes {α : Type} {k : Parting} {sign : Punctuator} {K : Token → Prop}
    {p : Parser α} {Q : α → Bool → Prop} {s t u v : TokenStream} {a : α} (hk : k.Closed sign)
    (h : Proceeds K s.strict p Q) (hst : k.Abreast sign s t) (hK : K s.current)
    (hp : p s = .ok a u) (hu : u.current.sign? = some sign) (hadvance : Parser.advance u = .ok () v)
    (hend : v.current.isEnd = true) :
    ∃ w, p t = .ok a w ∧ w.current.sign? = some sign ∧ w.ahead = none ∧ w.strict = u.strict ∧
      w.cursor.rest = k.behind' := by
  rcases h.abreast hk.toAt hst rfl hK hp with ⟨w, hw, huw⟩ | hlost
  · exact ⟨w, hw, huw.current ▸ hu, huw.ahead.trans (huw.cases hu).1, huw.strict,
      huw.taken hk hu hadvance hend⟩
  · exact absurd (Grammar.eq_punctuator hu) hlost.current

end ProtoScript
