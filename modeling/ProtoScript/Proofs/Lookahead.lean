import ProtoScript.Proofs.Grammar.Yields
import ProtoScript.Proofs.TokenReading
/-!
# Looking ahead

A token stream is a place in the sequence of the tokens that are no line breaks.  Moving on goes to
the next place, and looking ahead tells what stands there and stays.  Which token of the sequence is
current depends only on how often the stream has moved on: neither a token nor the line break in
front of it is lost, repeated or mixed up by looking ahead, whatever has been looked at before.
-/

namespace ProtoScript

/-! ### The sequence of tokens -/

namespace Token

/-- One mode reads tokens, line breaks too, from one cursor up to another. -/
inductive Reads (strict : Bool) : Cursor → List Token → Cursor → Prop
  | refl (c : Cursor) : Reads strict c [] c
  | step {c d : Cursor} {l : Lexeme} {ts : List Token} (first : Token.next strict c = .ok l)
      (rest : Reads strict l.next ts d) : Reads strict c (l.token :: ts) d

/-- The tokens that are no line breaks, each with whether line breaks stand directly in front of it.
With `broken`, one stands in front of them all. -/
def withoutBreaks : Bool → List Token → List (Token × Bool)
  | _, [] => []
  | _, lineBreak :: ts => withoutBreaks true ts
  | broken, t :: ts => (t, broken) :: withoutBreaks false ts

variable {strict : Bool} {c d e : Cursor} {ts us : List Token}

theorem Reads.trans (h : Reads strict c ts d) (h' : Reads strict d us e) :
    Reads strict c (ts ++ us) e := by
  induction h with
  | refl => exact h'
  | step first _ ih => exact .step first (ih h')

theorem Reads.split (h : Reads strict c (ts ++ us) e) :
    ∃ d, Reads strict c ts d ∧ Reads strict d us e := by
  induction ts generalizing c with
  | nil => exact ⟨c, .refl c, h⟩
  | cons t ts ih =>
    cases h with
    | step first rest =>
      obtain ⟨d, hts, hus⟩ := ih rest
      exact ⟨d, .step first hts, hus⟩

/-- There is one sequence of tokens to be read, and how far readings go is all they differ in. -/
theorem Reads.comparable (h : Reads strict c ts d) (h' : Reads strict c us e) :
    (∃ vs, us = ts ++ vs ∧ Reads strict d vs e) ∨ ∃ vs, ts = us ++ vs ∧ Reads strict e vs d := by
  induction h generalizing us with
  | refl => exact .inl ⟨us, rfl, h'⟩
  | @step c d l ts first rest ih =>
    cases h' with
    | refl => exact .inr ⟨l.token :: ts, rfl, .step first rest⟩
    | step first' rest' =>
      cases first.symm.trans first'
      rcases ih rest' with ⟨vs, rfl, hvs⟩ | ⟨vs, rfl, hvs⟩
      · exact .inl ⟨vs, rfl, hvs⟩
      · exact .inr ⟨vs, rfl, hvs⟩

theorem withoutBreaks_cons {t : Token} (ht : t ≠ lineBreak) (broken : Bool) (ts : List Token) :
    withoutBreaks broken (t :: ts) = (t, broken) :: withoutBreaks false ts := by
  cases t with
  | lineBreak => exact absurd rfl ht
  | _ => rfl

theorem or_not_isEmpty_cons (broken : Bool) (t : Token) (ts : List Token) :
    (broken || !(t :: ts).isEmpty) = true :=
  Bool.or_true broken

theorem withoutBreaks_append {breaks : List Token} (h : ∀ t ∈ breaks, t = lineBreak)
    (broken : Bool) (ts : List Token) :
    withoutBreaks broken (breaks ++ ts) = withoutBreaks (broken || !breaks.isEmpty) ts := by
  induction breaks generalizing broken with
  | nil => rw [List.nil_append, List.isEmpty_nil, Bool.not_true, Bool.or_false]
  | cons t breaks ih =>
    obtain ⟨rfl, hbreaks⟩ := List.forall_mem_cons.mp h
    rw [List.cons_append, withoutBreaks, ih hbreaks, Bool.true_or, or_not_isEmpty_cons]

theorem withoutBreaks_first {breaks : List Token} (h : ∀ t ∈ breaks, t = lineBreak) {t : Token}
    (ht : t ≠ lineBreak) (broken : Bool) (ts : List Token) :
    withoutBreaks broken (breaks ++ [t] ++ ts) =
      (t, broken || !breaks.isEmpty) :: withoutBreaks false ts := by
  rw [List.append_assoc, withoutBreaks_append h, List.singleton_append, withoutBreaks_cons ht]

theorem eq_append_of_withoutBreaks {broken : Bool} {found : Token × Bool}
    {rest : List (Token × Bool)} (h : withoutBreaks broken ts = found :: rest) :
    ∃ breaks us, ts = breaks ++ [found.1] ++ us ∧ (∀ t ∈ breaks, t = lineBreak) ∧
      found.1 ≠ lineBreak ∧ found.2 = (broken || !breaks.isEmpty) ∧
      rest = withoutBreaks false us := by
  induction ts generalizing broken with
  | nil => cases h
  | cons t ts ih =>
    by_cases ht : t = lineBreak
    · subst ht
      obtain ⟨breaks, us, rfl, hbreaks, hfound, hbroken, hrest⟩ := ih h
      refine ⟨lineBreak :: breaks, us, rfl, List.forall_mem_cons.mpr ⟨rfl, hbreaks⟩, hfound, ?_,
        hrest⟩
      rw [hbroken, Bool.true_or, or_not_isEmpty_cons]
    · rw [withoutBreaks_cons ht] at h
      cases h
      exact ⟨[], ts, rfl, List.forall_mem_nil _, ht, (Bool.or_false broken).symm, rfl⟩

end Token

namespace TokenStream

open Token

variable {strict : Bool} {c d : Cursor} {s t u : TokenStream} {found : Token × Bool}
  {rest : List (Token × Bool)}

/-- Reading a token reads the line breaks in front of it, and notes that there are some. -/
theorem readToken_eq_ok_iff {broken after : Bool} {token : Token} :
    readToken strict c broken = .ok (token, after, d) ↔
      ∃ breaks, Reads strict c (breaks ++ [token]) d ∧ (∀ t ∈ breaks, t = lineBreak) ∧
        token ≠ lineBreak ∧ after = (broken || !breaks.isEmpty) := by
  constructor
  · intro h
    fun_induction readToken strict c broken with
    | case1 => cases h
    | case2 c broken l hl hbreak ih =>
      obtain ⟨breaks, hreads, hbreaks, htoken, hafter⟩ := ih h
      refine ⟨l.token :: breaks, .step hl hreads, List.forall_mem_cons.mpr ⟨hbreak, hbreaks⟩,
        htoken, ?_⟩
      rw [hafter, Bool.true_or, or_not_isEmpty_cons]
    | case3 c broken l hl hother =>
      cases h
      exact ⟨[], .step hl (.refl _), List.forall_mem_nil _, hother, (Bool.or_false _).symm⟩
  · rintro ⟨breaks, hreads, hbreaks, htoken, hafter⟩
    induction breaks generalizing c broken with
    | nil =>
      generalize hts : [] ++ [token] = ts at hreads
      cases hreads with
      | refl => cases hts
      | step hl hreads =>
        obtain ⟨hfirst, rfl⟩ := List.cons.inj hts
        cases hreads
        rw [readToken_of_next hl (hfirst ▸ htoken), ← hfirst, hafter, List.isEmpty_nil,
          Bool.not_true, Bool.or_false]
    | cons t breaks ih =>
      obtain ⟨rfl, hothers⟩ := List.forall_mem_cons.mp hbreaks
      generalize hts : lineBreak :: breaks ++ [token] = ts at hreads
      cases hreads with
      | refl => cases hts
      | step hl hreads =>
        obtain ⟨hfirst, rfl⟩ := List.cons.inj hts
        rw [readToken_of_lineBreak hl hfirst.symm]
        refine ih hreads hothers ?_
        rw [hafter, Bool.true_or, or_not_isEmpty_cons]

/-! ### What lies ahead of a stream -/

/-- Tokens that lie behind the current one: the one that has been looked at, if there is one, and
what the mode reads from the cursor on. -/
def Upcoming (s : TokenStream) (rest : List (Token × Bool)) : Prop :=
  ∃ ts d, Reads s.strict s.cursor ts d ∧ rest = s.ahead.toList ++ withoutBreaks false ts

/-- The current token, with whether a line break stands in front of it. -/
def now (s : TokenStream) : Token × Bool := (s.current, s.afterBreak)

theorem Upcoming.of_advance (h : Parser.advance s = .ok () u) (hu : u.Upcoming rest) :
    s.Upcoming (u.now :: rest) := by
  obtain ⟨ts, d, hreads, rfl⟩ := hu
  unfold Parser.advance at h
  split at h
  · next token broken hahead =>
    cases h
    exact ⟨ts, d, hreads, by rw [hahead]; rfl⟩
  · next hahead =>
    split at h
    · next token broken c hread =>
      cases h
      obtain ⟨breaks, hfirst, hbreaks, htoken, hbroken⟩ := readToken_eq_ok_iff.mp hread
      refine ⟨(breaks ++ [token]) ++ ts, d, hfirst.trans hreads, ?_⟩
      rw [withoutBreaks_first hbreaks htoken, ← hbroken, hahead]
      rfl
    · cases h

theorem Upcoming.advance (h : s.Upcoming (found :: rest)) :
    ∃ u, Parser.advance s = .ok () u ∧ u.now = found ∧ u.Upcoming rest := by
  obtain ⟨ts, e, hreads, heq⟩ := h
  unfold Parser.advance
  cases hahead : s.ahead with
  | some looked =>
    rw [hahead] at heq
    obtain ⟨rfl, rfl⟩ := List.cons.inj heq
    exact ⟨_, rfl, rfl, ts, e, hreads, rfl⟩
  | none =>
    rw [hahead] at heq
    obtain ⟨breaks, us, rfl, hbreaks, hfound, hbroken, rfl⟩ :=
      eq_append_of_withoutBreaks (heq.symm :)
    obtain ⟨d, hfirst, hrest⟩ := hreads.split
    have hread := readToken_eq_ok_iff.mpr ⟨breaks, hfirst, hbreaks, hfound, hbroken⟩
    dsimp only
    rw [hread]
    exact ⟨_, rfl, rfl, us, e, hrest, rfl⟩

/-- What is seen by looking ahead is what moving on leads to, and looking ahead first makes no
difference to moving on. -/
theorem now_of_peek (h : Parser.peek s = .ok found t) :
    t.now = s.now ∧ ∃ u, Parser.advance s = .ok () u ∧ Parser.advance t = .ok () u ∧
      u.now = found := by
  obtain ⟨u, hu, rfl⟩ := Grammar.advance_of_peek h
  rw [Grammar.peek_eq, hu] at h
  cases h
  refine ⟨rfl, u, hu, ?_, rfl⟩
  have hahead := Grammar.ahead_advance hu
  unfold Parser.advance
  cases u
  cases hahead
  rfl

theorem Upcoming.of_peek (h : Parser.peek s = .ok found t) (ht : t.Upcoming rest) :
    (∃ others, rest = found :: others) ∧ s.Upcoming rest := by
  obtain ⟨u, hu, rfl⟩ := Grammar.advance_of_peek h
  rw [Grammar.peek_eq, hu] at h
  cases h
  obtain ⟨ts, d, hreads, rfl⟩ := ht
  refine ⟨⟨_, rfl⟩, .of_advance hu ⟨ts, d, hreads, ?_⟩⟩
  rw [Grammar.ahead_advance hu]
  rfl

theorem Upcoming.peek (h : s.Upcoming (found :: rest)) :
    ∃ t, Parser.peek s = .ok found t ∧ t.Upcoming (found :: rest) := by
  obtain ⟨u, hu, rfl, ts, d, hreads, hrest⟩ := h.advance
  rw [Grammar.ahead_advance hu] at hrest
  refine ⟨{ u with current := s.current, afterBreak := s.afterBreak, ahead := some u.now }, ?_,
    ts, d, hreads, ?_⟩
  · rw [Grammar.peek_eq, hu]
    rfl
  · rw [hrest]
    rfl

/-! ### Calls -/

inductive Call where
  | advance
  | peek

/-- What there is to see behind a call: the current token, and what the call has shown ahead. -/
structure Sight where
  now : Token × Bool
  ahead : Option (Token × Bool)

def Call.run : Call → Parser (Option (Token × Bool))
  | .advance => do
    Parser.advance
    return none
  | .peek => return some (← Parser.peek)

/-- Makes calls one after the other and takes down what there is to see behind each of them. -/
def watch : List Call → Parser (List Sight)
  | [] => return []
  | call :: calls => do
    let ahead ← call.run
    let token ← Parser.current
    let broken ← Parser.afterBreak
    let sights ← watch calls
    return ⟨(token, broken), ahead⟩ :: sights

/-- What there is to see behind calls where the stream is at the place `n` of a sequence of tokens:
moving on leads to the next place, and looking ahead shows it and stays. -/
inductive Sees (tokens : List (Token × Bool)) : Nat → List Call → List Sight → Prop
  | done (n : Nat) : Sees tokens n [] []
  | advance {n : Nat} {calls : List Call} {sights : List Sight} {next : Token × Bool}
      (there : tokens[n + 1]? = some next) (rest : Sees tokens (n + 1) calls sights) :
      Sees tokens n (.advance :: calls) (⟨next, none⟩ :: sights)
  | peek {n : Nat} {calls : List Call} {sights : List Sight} {now next : Token × Bool}
      (here : tokens[n]? = some now) (there : tokens[n + 1]? = some next)
      (rest : Sees tokens n calls sights) :
      Sees tokens n (.peek :: calls) (⟨now, some next⟩ :: sights)

variable {tokens : List (Token × Bool)} {n : Nat} {calls : List Call} {sights : List Sight}

theorem sees_cons_iff :
    Sees (found :: tokens) (n + 1) calls sights ↔ Sees tokens n calls sights := by
  constructor
  · intro h
    generalize hplace : n + 1 = place at h
    induction h generalizing n with
    | done => exact .done n
    | advance there _ ih =>
      subst hplace
      exact .advance there (ih rfl)
    | peek here there _ ih =>
      subst hplace
      exact .peek here there (ih rfl)
  · intro h
    induction h with
    | done n => exact .done (n + 1)
    | advance there _ ih => exact .advance there ih
    | peek here there _ ih => exact .peek here there ih

theorem watch_cons_iff {call : Call} :
    (∃ u, watch (call :: calls) s = .ok sights u) ↔
      ∃ ahead t others, call.run s = .ok ahead t ∧ sights = ⟨t.now, ahead⟩ :: others ∧
        ∃ u, watch calls t = .ok others u := by
  constructor
  · rintro ⟨u, h⟩
    obtain ⟨ahead, t, hcall, h⟩ := Grammar.bind_eq_ok h
    rw [Grammar.current_bind, Grammar.afterBreak_bind] at h
    obtain ⟨others, u', hothers, h⟩ := Grammar.bind_eq_ok h
    cases h
    exact ⟨ahead, t, others, hcall, rfl, _, hothers⟩
  · rintro ⟨ahead, t, others, hcall, rfl, u, hothers⟩
    refine ⟨u, ?_⟩
    rw [watch, Grammar.bind_of_ok hcall, Grammar.current_bind, Grammar.afterBreak_bind,
      Grammar.bind_of_ok hothers]
    rfl

theorem run_advance_iff {ahead : Option (Token × Bool)} :
    Call.advance.run s = .ok ahead t ↔ ahead = none ∧ Parser.advance s = .ok () t := by
  constructor
  · intro h
    obtain ⟨_, u, hadvance, h⟩ := Grammar.bind_eq_ok h
    cases h
    exact ⟨rfl, hadvance⟩
  · rintro ⟨rfl, hadvance⟩
    exact Grammar.bind_of_ok hadvance

theorem run_peek_iff {ahead : Option (Token × Bool)} :
    Call.peek.run s = .ok ahead t ↔ ∃ found, ahead = some found ∧ Parser.peek s = .ok found t := by
  constructor
  · intro h
    obtain ⟨found, u, hpeek, h⟩ := Grammar.bind_eq_ok h
    cases h
    exact ⟨found, rfl, hpeek⟩
  · rintro ⟨found, rfl, hpeek⟩
    exact Grammar.bind_of_ok hpeek

/-- Calls succeed and show some sights just if these can be seen in the sequence of the current
token and tokens that lie ahead. -/
theorem watch_iff (s : TokenStream) (calls : List Call) (sights : List Sight) :
    (∃ u, watch calls s = .ok sights u) ↔
      ∃ rest, s.Upcoming rest ∧ Sees (s.now :: rest) 0 calls sights := by
  induction calls generalizing s sights with
  | nil =>
    constructor
    · rintro ⟨u, h⟩
      cases h
      exact ⟨s.ahead.toList, ⟨[], s.cursor, .refl _, (List.append_nil _).symm⟩, .done 0⟩
    · rintro ⟨rest, -, hsees⟩
      cases hsees
      exact ⟨s, rfl⟩
  | cons call calls ih =>
    rw [watch_cons_iff]
    cases call with
    | advance =>
      constructor
      · rintro ⟨ahead, t, others, hcall, rfl, hwatch⟩
        obtain ⟨rfl, hadvance⟩ := run_advance_iff.mp hcall
        obtain ⟨rest, hrest, hsees⟩ := (ih t others).mp hwatch
        exact ⟨t.now :: rest, .of_advance hadvance hrest, .advance rfl (sees_cons_iff.mpr hsees)⟩
      · rintro ⟨rest, hrest, hsees⟩
        cases hsees with
        | @advance _ _ others next there hsees =>
          cases rest with
          | nil => cases there
          | cons found rest =>
            obtain rfl : found = next := Option.some.inj there
            obtain ⟨u, hadvance, hnow, hu⟩ := hrest.advance
            rw [← hnow] at hsees ⊢
            refine ⟨none, u, others, run_advance_iff.mpr ⟨rfl, hadvance⟩, rfl, ?_⟩
            exact (ih u others).mpr ⟨rest, hu, sees_cons_iff.mp hsees⟩
    | peek =>
      constructor
      · rintro ⟨ahead, t, others, hcall, rfl, hwatch⟩
        obtain ⟨found, rfl, hpeek⟩ := run_peek_iff.mp hcall
        obtain ⟨rest, hrest, hsees⟩ := (ih t others).mp hwatch
        obtain ⟨⟨behind, rfl⟩, hs⟩ := Upcoming.of_peek hpeek hrest
        rw [(now_of_peek hpeek).1] at hsees ⊢
        exact ⟨found :: behind, hs, .peek rfl rfl hsees⟩
      · rintro ⟨rest, hrest, hsees⟩
        cases hsees with
        | @peek _ _ others now next here there hsees =>
          cases rest with
          | nil => cases there
          | cons found rest =>
            cases here
            obtain rfl : found = next := Option.some.inj there
            obtain ⟨t, hpeek, ht⟩ := hrest.peek
            rw [← (now_of_peek hpeek).1] at hsees ⊢
            refine ⟨some found, t, others, run_peek_iff.mpr ⟨found, rfl, hpeek⟩, rfl, ?_⟩
            exact (ih t others).mpr ⟨found :: rest, ht, hsees⟩

/-! ### Texts -/

/-- The tokens that are read from a text, line breaks too, if the mode is set once the first token
is read that is no line break, and then stays as it is. -/
def ReadsText (strict : Bool) (source : String) (ts : List Token) : Prop :=
  ∃ breaks first rest c d, ts = breaks ++ [first] ++ rest ∧ (∀ t ∈ breaks, t = lineBreak) ∧
    first ≠ lineBreak ∧ Reads false (.ofString source) (breaks ++ [first]) c ∧
    Reads strict c rest d

theorem eq_nil_of_first {breaks others : List Token} {first other : Token} {ts : List Token}
    (hothers : ∀ t ∈ others, t = lineBreak) (hfirst : first ≠ lineBreak)
    (h : others ++ [other] = breaks ++ [first] ++ ts) : ts = [] := by
  rcases List.eq_nil_or_concat ts with rfl | ⟨front, last, rfl⟩
  · rfl
  · rw [List.concat_eq_append, ← List.append_assoc] at h
    obtain ⟨rfl, -⟩ := List.append_inj' h rfl
    exact absurd (hothers first (by simp)) hfirst

theorem ReadsText.comparable {source : String} {ts us : List Token}
    (h : ReadsText strict source ts) (h' : ReadsText strict source us) : ts <+: us ∨ us <+: ts := by
  obtain ⟨breaks, first, rest, c, d, rfl, hbreaks, hfirst, hhead, hrest⟩ := h
  obtain ⟨breaks', first', rest', c', d', rfl, hbreaks', hfirst', hhead', hrest'⟩ := h'
  obtain ⟨hsame, rfl⟩ : breaks' ++ [first'] = breaks ++ [first] ∧ c' = c := by
    rcases hhead.comparable hhead' with ⟨vs, heq, hvs⟩ | ⟨vs, heq, hvs⟩
    · obtain rfl := eq_nil_of_first hbreaks' hfirst heq
      cases hvs
      exact ⟨heq.trans (List.append_nil _), rfl⟩
    · obtain rfl := eq_nil_of_first hbreaks hfirst' heq
      cases hvs
      exact ⟨(heq.trans (List.append_nil _)).symm, rfl⟩
  rw [hsame]
  rcases hrest.comparable hrest' with ⟨vs, rfl, -⟩ | ⟨vs, rfl, -⟩
  · exact .inl (by simp)
  · exact .inr (by simp)

/-- What lies ahead of a stream at the start of a text is what is read behind its first token. -/
theorem upcoming_ofString {source : String} {first : TokenStream}
    (h : ofString source = .ok first) (strict : Bool) :
    (∀ rest, { first with strict := strict }.Upcoming rest →
      ∃ ts, ReadsText strict source ts ∧ withoutBreaks false ts = first.now :: rest) ∧
    ∀ ts, ReadsText strict source ts →
      ∃ rest, { first with strict := strict }.Upcoming rest ∧
        withoutBreaks false ts = first.now :: rest := by
  unfold ofString at h
  split at h
  · next token broken c hread =>
    cases h
    constructor
    · rintro _ ⟨ts, d, hreads, rfl⟩
      obtain ⟨breaks, hfirst, hbreaks, htoken, hbroken⟩ := readToken_eq_ok_iff.mp hread
      refine ⟨breaks ++ [token] ++ ts, ⟨breaks, token, ts, c, d, rfl, hbreaks, htoken, hfirst,
        hreads⟩, ?_⟩
      rw [withoutBreaks_first hbreaks htoken, ← hbroken]
      rfl
    · rintro _ ⟨breaks, token', ts, c', d, rfl, hbreaks, htoken, hfirst, hreads⟩
      have hread' : readToken false (.ofString source) false =
          .ok (token', false || !breaks.isEmpty, c') :=
        readToken_eq_ok_iff.mpr ⟨breaks, hfirst, hbreaks, htoken, rfl⟩
      cases hread.symm.trans hread'
      exact ⟨_, ⟨ts, d, hreads, rfl⟩, withoutBreaks_first hbreaks htoken false ts⟩
  · cases h

/-- Looking ahead is transparent.  On a text whose mode is left as it is, calls succeed as long as
there are tokens to be read, and what is current behind `n` moves is the token at the place `n` of
the sequence of the tokens that are no line breaks, with whether line breaks stand directly in front
of it.  There is one such sequence, which starts with the token that is current at first.  What
looking ahead shows is what moving on makes current, with or without having looked, and until then
what is current stays so. -/
theorem lookahead_transparent {source : String} {first : TokenStream}
    (h : ofString source = .ok first) (strict : Bool) :
    (∀ calls sights, (∃ s, watch calls { first with strict := strict } = .ok sights s) ↔
      ∃ ts, ReadsText strict source ts ∧ Sees (withoutBreaks false ts) 0 calls sights) ∧
    (∀ ts, ReadsText strict source ts →
      (withoutBreaks false ts).head? = some first.now ∧
      ∀ us, ReadsText strict source us → ts <+: us ∨ us <+: ts) ∧
    ∀ s t found, Parser.peek s = .ok found t → t.now = s.now ∧
      ∃ u, Parser.advance s = .ok () u ∧ Parser.advance t = .ok () u ∧ u.now = found := by
  obtain ⟨hreads, hfirst⟩ := upcoming_ofString h strict
  refine ⟨fun calls sights => ?_, fun ts hts => ⟨?_, fun us => hts.comparable⟩,
    fun s t found => now_of_peek⟩
  · rw [watch_iff]
    constructor
    · rintro ⟨rest, hrest, hsees⟩
      obtain ⟨ts, hts, heq⟩ := hreads rest hrest
      exact ⟨ts, hts, heq ▸ hsees⟩
    · rintro ⟨ts, hts, hsees⟩
      obtain ⟨rest, hrest, heq⟩ := hfirst ts hts
      exact ⟨rest, hrest, heq ▸ hsees⟩
  · obtain ⟨rest, -, heq⟩ := hfirst ts hts
    rw [heq]
    rfl

/-- A line break in front of the second of three tokens, looked at twice before the stream moves. -/
theorem lookahead_transparent_break : ∃ first sights ts,
    ofString "a\n( b" = .ok first ∧
      sights.map (fun sight => (sight.now.2, sight.ahead.map Prod.snd)) =
        [(false, some true), (false, some true), (true, none)] ∧
      ReadsText true "a\n( b" ts ∧
      Sees (withoutBreaks false ts) 0 [.peek, .peek, .advance] sights := by
  have hseen : (match ofString "a\n( b" with
      | .ok first =>
        match watch [.peek, .peek, .advance] { first with strict := true } with
        | .ok sights _ => sights.map fun sight => (sight.now.2, sight.ahead.map Prod.snd)
        | .error _ _ => []
      | .error _ => []) = [(false, some true), (false, some true), (true, none)] := by
    decide +kernel
  cases h : ofString "a\n( b" with
  | error e =>
    rw [h] at hseen
    cases hseen
  | ok first =>
    rw [h] at hseen
    dsimp only at hseen
    cases hwatch : watch [.peek, .peek, .advance] { first with strict := true } with
    | error e s =>
      rw [hwatch] at hseen
      cases hseen
    | ok sights s =>
      rw [hwatch] at hseen
      obtain ⟨ts, hts, hsees⟩ :=
        ((lookahead_transparent h true).1 [.peek, .peek, .advance] sights).mp ⟨s, hwatch⟩
      exact ⟨first, sights, ts, rfl, hseen, hts, hsees⟩

end TokenStream

end ProtoScript
