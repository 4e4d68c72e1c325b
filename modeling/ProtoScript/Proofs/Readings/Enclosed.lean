import ProtoScript.Proofs.Readings.Programs
import ProtoScript.Proofs.Partings.Streams
import ProtoScript.Proofs.Modes.Statement
import ProtoScript.Proofs.Marks
/-!
# Parameters and bodies on their own

A text is a list of parameters on its own if it is one between parentheses, and a function body on
its own if it is one between braces, both with a line break in front of the closing bracket and with
nothing behind it.  What such a text is it is in any other text as well: whatever stands behind the
closing bracket, the list or the body ends there.
-/

namespace ProtoScript

open Grammar

def Parser.ReadsWhole {α : Type} (rule : Nesting → Parser α) (source : String) (a : α) : Prop :=
  ∃ t, Parser.runOn rule source false = .ok (a, t) ∧ t.current.isEnd = true

def ReadsParameters (text : String) (list : List Pattern) : Prop :=
  Parser.ReadsWhole (fun n => parameters n .program) ("(" ++ text ++ "\n)") list

/-- The text is a function body on its own; `ownStrict` says whether it asks for strict mode. -/
def ReadsBody (text : String) (body : List Stmt) (ownStrict : Bool) : Prop :=
  Parser.ReadsWhole functionBody ("\x7b\n" ++ text ++ "\n\x7d") (body, ownStrict)

namespace Grammar

variable {α : Type} {n : Nesting} {c : Context} {s t u : TokenStream} {rule : Parser α}
  {sign : Punctuator} {a : α}

def closed (sign : Punctuator) (rule : Parser α) : Parser α := do
  let a ← rule
  Parser.expect sign
  return a

def openParameters (n : Nesting) (c : Context) : Parser (List Pattern) := do
  Parser.advance
  parameterList n c.bracketed n.rounds

/-- The statements of a function and the opening brace in front of them. -/
def openBody (n : Nesting) : Parser (List Stmt × Bool) := do
  Parser.advance
  let strict ← Parser.isStrict
  let body ← directiveBody n .functionBody (some .rightBrace) true n.rounds
  Parser.setStrict strict
  return body

theorem expect_bind {β : Type} {f : Unit → Parser β} (hs : s.current.sign? = some sign) :
    (Parser.expect sign >>= f) s = (Parser.advance >>= f) s := by
  unfold Parser.expect
  rw [bind_assoc, atSign_bind, if_pos (by simpa using hs)]

theorem parameters_eq_closed (hs : s.current.sign? = some .leftParen) :
    parameters n c s = closed .rightParen (openParameters n c) s := by
  unfold parameters closed openParameters
  rw [expect_bind hs, bind_assoc]

theorem functionBody_eq_closed (hs : s.current.sign? = some .leftBrace) :
    functionBody n s = closed .rightBrace (openBody n) s := by
  unfold functionBody closed openBody
  rw [expect_bind hs]
  simp only [bind_assoc, pure_bind]

theorem closed_eq_ok (h : closed sign rule s = .ok a t) :
    ∃ u, rule s = .ok a u ∧ Sign sign u t := by
  unfold closed at h
  obtain ⟨a, u, ha, h⟩ := bind_eq_ok h
  obtain ⟨_, v, hclose, h⟩ := bind_eq_ok h
  cases h
  exact ⟨u, ha, expect_eq_ok hclose⟩

theorem closed_of_sign (h : rule s = .ok a u) (hclose : Sign sign u t) :
    closed sign rule s = .ok a t := by
  unfold closed
  rw [bind_of_ok h, bind_of_ok (expect_of_sign hclose)]
  rfl

/-! ### Up to the closing sign -/

theorem proceeds_openParameters (rounds depth : Nat) (c : Context) :
    Proceeds (fun _ => True) false (openParameters ⟨rounds, parse depth⟩ c)
      fun _ mode => mode = false := by
  have hn : Nesting.Keeps ⟨rounds, parse depth⟩ := keeps_nesting depth
  unfold openParameters
  exact .advance ((keeps_parameterList hn _ _ _).mono fun _ _ h => h.1)

theorem proceeds_openBody (rounds depth : Nat) :
    Proceeds (fun _ => True) false (openBody ⟨rounds, parse depth⟩) fun _ mode => mode = false := by
  have hn : Nesting.Keeps ⟨rounds, parse depth⟩ := keeps_nesting depth
  unfold openBody
  refine .advance (.isStrict (.bind (proceeds_directiveBody hn .functionBody _ true _ _)
    fun body mode _ => ?_))
  exact .setStrict (.pure rfl)

/-- A rule that goes up to a bracket at the end of the first text yields the same whatever stands
behind the bracket. -/
theorem closed_behind {k : Parting} (hk : k.Closed sign)
    (h : Proceeds (fun _ => True) false rule fun _ mode => mode = false)
    (hst : k.Abreast sign s t) (hs : s.strict = false) (hrun : closed sign rule s = .ok a u)
    (hend : u.current.isEnd = true) :
    ∃ w, rule t = .ok a w ∧ w.current.sign? = some sign ∧ w.ahead = none ∧ w.strict = false ∧
      w.cursor.rest = k.behind' := by
  obtain ⟨v, hv, hclose⟩ := closed_eq_ok hrun
  have hmode : v.strict = false := h.sound hs trivial hv
  obtain ⟨w, hw, hsign, hahead, hstrict, hrest⟩ :=
    (hs ▸ h).closes hk hst trivial hv hclose.1 hclose.2 hend
  exact ⟨w, hw, hsign, hahead, hstrict.trans hmode, hrest⟩

end Grammar

namespace TokenStream

variable {s : TokenStream} {sign : Punctuator} {ch : Char} {text : List Char} {strict : Bool}

theorem advance_opening (hsign : (sign, ch) ∈ Punctuator.brackets) (hahead : s.ahead = none)
    (hs : s.strict = strict)
    (hrest : s.cursor.rest = ch :: text ∨ s.cursor.rest = ' ' :: ch :: text) :
    ∃ p, p.offset ≠ 0 ∧ Parser.advance s = .ok () (opening sign text p strict) := by
  obtain ⟨p, hread, hp⟩ := readToken_bracket hsign hrest s.strict
  refine ⟨p, hp, ?_⟩
  obtain ⟨current, broken, ahead, cursor, mode⟩ := s
  cases hahead
  cases hs
  exact Parser.advance_of_readToken rfl hread

theorem advance_end (hahead : s.ahead = none) (hrest : s.cursor.rest = []) :
    ∃ t, Parser.advance s = .ok () t ∧ t.current.isEnd = true ∧ t.strict = s.strict := by
  obtain ⟨l, hl, hend⟩ := Token.next_of_rest_nil hrest
  exact ⟨_, Parser.advance_of_readToken hahead (readToken_of_next hl (by rw [hend]; nofun)),
    by rw [hend]; rfl, rfl⟩

end TokenStream

theorem Parser.readsWhole_iff {α : Type} (rule : Nesting → Parser α) (a : α) {sign : Punctuator}
    {ch : Char} {source : String} {text : List Char} (hsign : (sign, ch) ∈ Punctuator.brackets)
    (hsource : source.toList = ch :: text) :
    ∃ p, p.offset ≠ 0 ∧ (Parser.ReadsWhole rule source a ↔ ∃ t,
      rule (nesting (text.length + 2)) (.opening sign text p false) = .ok a t ∧
        t.current.isEnd = true) := by
  obtain ⟨p, hp, hopening⟩ := TokenStream.ofString_opening hsign hsource
  have hdepth : depthOf source = text.length + 2 := by rw [depthOf, hsource, List.length_cons]
  refine ⟨p, hp, ?_⟩
  unfold Parser.ReadsWhole Parser.runOn
  rw [hopening, hdepth]
  unfold TokenStream.opening
  dsimp only
  cases rule (nesting (text.length + 2)) ⟨.punctuator sign, false, none, ⟨text, p⟩, false⟩ <;> simp

namespace Grammar

variable {α : Type} {k : Parting} {sign first next : Punctuator} {ch : Char} {text : List Char}
  {p q : Position} {a : α}

/-- A rule and the closing sign at the end of the first text yield the same in the second text, up
to the bracket that follows there. -/
theorem closed_opening {rule : Parser α} {u : TokenStream} (hk : k.Closed sign)
    (h : Proceeds (fun _ => True) false rule fun _ mode => mode = false)
    (hnext : (next, ch) ∈ Punctuator.brackets)
    (hbehind : k.behind' = ch :: text ∨ k.behind' = ' ' :: ch :: text)
    (hp : p.offset ≠ 0) (hq : q.offset ≠ 0)
    (hrun : closed sign rule (.opening first (k.front ++ k.tail) p false) = .ok a u)
    (hend : u.current.isEnd = true) :
    ∃ r, r.offset ≠ 0 ∧
      closed sign rule (.opening first (k.front ++ k.bracket :: k.behind') q false) =
        .ok a (.opening next text r false) := by
  obtain ⟨w, hw, hsign, hahead, hmode, hrest⟩ :=
    closed_behind hk h (k.abreast_opening sign first hp hq false) rfl hrun hend
  obtain ⟨r, hr, hadvance⟩ := TokenStream.advance_opening hnext hahead hmode (hrest ▸ hbehind)
  exact ⟨r, hr, closed_of_sign hw ⟨hsign, hadvance⟩⟩

/-- The rule reads what stands between two brackets, and what it reads it reads under a higher bound
as well. -/
structure Encloses (first sign : Punctuator) (rule inner : Nesting → Parser α) : Prop where
  eq_closed : ∀ {n s}, s.current.sign? = some first → rule n s = closed sign (inner n) s
  proceeds : ∀ rounds depth, Proceeds (fun _ => True) false (inner ⟨rounds, parse depth⟩)
    fun _ mode => mode = false
  lift : ∀ {rounds rounds' depth depth' a s t}, depth ≤ depth' → rounds ≤ rounds' →
    rule ⟨rounds, parse depth⟩ s = .ok a t → rule ⟨rounds', parse depth'⟩ s = .ok a t

theorem encloses_parameters :
    Encloses .leftParen .rightParen (fun n => parameters n .program)
      (openParameters · .program) where
  eq_closed hs := parameters_eq_closed hs
  proceeds rounds depth := proceeds_openParameters rounds depth .program
  lift {_ _ _ _ list _ _} hdepth hrounds h := by
    obtain ⟨list', h', hsame⟩ := (covers_parameters (covers_parse hdepth hrounds) .program).ok h
    obtain rfl : list = list' := hsame
    exact h'

theorem encloses_functionBody : Encloses .leftBrace .rightBrace functionBody openBody where
  eq_closed hs := functionBody_eq_closed hs
  proceeds rounds depth := proceeds_openBody rounds depth
  lift hdepth hrounds h := by
    obtain ⟨found, h', hsame⟩ := (covers_functionBody (covers_parse hdepth hrounds)).ok h
    obtain rfl := SameBody.eq hsame
    exact h'

/-- What is read of a whole text up to the bracket at its end is read in front of another bracket.
-/
theorem Encloses.opening_of_readsWhole {rule inner : Nesting → Parser α} {source : String}
    {c : Char} {depth rounds : Nat} (h : Encloses first sign rule inner) (hk : k.Closed sign)
    (hfirst : (first, c) ∈ Punctuator.brackets) (hsource : source.toList = c :: (k.front ++ k.tail))
    (hwhole : Parser.ReadsWhole rule source a) (hnext : (next, ch) ∈ Punctuator.brackets)
    (hbehind : k.behind' = ch :: text ∨ k.behind' = ' ' :: ch :: text) (hp : p.offset ≠ 0)
    (hdepth : source.toList.length + 1 ≤ depth) (hrounds : source.toList.length + 1 ≤ rounds) :
    ∃ q, q.offset ≠ 0 ∧
      rule ⟨rounds, parse depth⟩ (.opening first (k.front ++ k.bracket :: k.behind') p false) =
        .ok a (.opening next text q false) := by
  obtain ⟨p₀, hp₀, hiff⟩ := Parser.readsWhole_iff rule a hfirst hsource
  obtain ⟨t, hrun, hend⟩ := hiff.mp hwhole
  rw [h.eq_closed rfl] at hrun
  obtain ⟨q, hq, hclosed⟩ := closed_opening hk (h.proceeds _ _) hnext hbehind hp₀ hp hrun hend
  rw [← h.eq_closed rfl] at hclosed
  rw [hsource, List.length_cons] at hdepth hrounds
  exact ⟨q, hq, h.lift hdepth hrounds hclosed⟩

end Grammar

/-! ### In front of a body -/

def parametersParting (text : String) (behind : List Char) : Parting :=
  ⟨text.toList ++ ['\n'], ')', [], behind⟩

theorem closed_parametersParting (text : String) (behind : List Char) :
    (parametersParting text behind).Closed .rightParen :=
  ⟨⟨by simp, rfl, nofun⟩, ⟨_, rfl⟩, nofun⟩

namespace Grammar

variable {depth rounds : Nat} {text : String} {p : Position}

/-- A list of parameters on its own is read as such in front of a body. -/
theorem parameters_of_readsParameters {list : List Pattern} (h : ReadsParameters text list)
    (hdepth : text.toList.length + 4 ≤ depth) (hrounds : text.toList.length + 4 ≤ rounds)
    (body : List Char) (hp : p.offset ≠ 0) :
    ∃ q, q.offset ≠ 0 ∧ parameters ⟨rounds, parse depth⟩ .program
      (.opening .leftParen (text.toList ++ '\n' :: ')' :: ' ' :: '\x7b' :: body) p false) =
        .ok list (.opening .leftBrace body q false) := by
  have hsource : ("(" ++ text ++ "\n)").toList = '(' :: (text.toList ++ ['\n'] ++ [')']) := by simp
  have hlength := congrArg List.length hsource
  simp only [List.length_cons, List.length_append, List.length_nil] at hlength
  obtain ⟨q, hq, hlist⟩ := encloses_parameters.opening_of_readsWhole
    (closed_parametersParting text (' ' :: '\x7b' :: body)) Punctuator.leftParen_mem_brackets
    hsource h
    Punctuator.leftBrace_mem_brackets (.inr rfl) hp (show _ ≤ depth by omega)
    (show _ ≤ rounds by omega)
  refine ⟨q, hq, ?_⟩
  rwa [parametersParting, List.append_assoc] at hlist

end Grammar

/-! ### In front of the end -/

def bodyParting (text : String) (behind behind' : List Char) : Parting :=
  ⟨'\n' :: text.toList ++ ['\n'], '\x7d', behind, behind'⟩

theorem closed_bodyParting (text : String) {behind : List Char} (behind' : List Char)
    (hbehind : behind = [] ∨ behind = [')']) :
    (bodyParting text behind behind').Closed .rightBrace := by
  refine ⟨⟨by simp, rfl, ?_⟩, ⟨_, rfl⟩, ?_⟩ <;> rcases hbehind with rfl | rfl <;> simp [bodyParting]

theorem toList_body (text : String) : ("\x7b\n" ++ text ++ "\n\x7d").toList =
    '\x7b' :: ('\n' :: text.toList ++ ['\n'] ++ ['\x7d']) := by
  simp

namespace Grammar

variable {depth rounds : Nat} {text : String} {body : List Stmt} {ownStrict : Bool} {p : Position}

/-- A function body on its own is read as such in front of a closing parenthesis. -/
theorem functionBody_of_readsBody (h : ReadsBody text body ownStrict)
    (hdepth : text.toList.length + 5 ≤ depth) (hrounds : text.toList.length + 5 ≤ rounds)
    (hp : p.offset ≠ 0) :
    ∃ q, functionBody ⟨rounds, parse depth⟩
      (.opening .leftBrace ('\n' :: text.toList ++ ['\n', '\x7d', ')']) p false) =
        .ok (body, ownStrict) (.opening .rightParen [] q false) := by
  have hlength := congrArg List.length (toList_body text)
  simp only [List.length_cons, List.length_append, List.length_nil] at hlength
  obtain ⟨q, -, hbody⟩ := encloses_functionBody.opening_of_readsWhole
    (closed_bodyParting text [')'] (.inl rfl)) Punctuator.leftBrace_mem_brackets
    (toList_body text) h
    Punctuator.rightParen_mem_brackets (.inl rfl) hp (show _ ≤ depth by omega)
    (show _ ≤ rounds by omega)
  refine ⟨q, ?_⟩
  rwa [bodyParting, List.append_assoc] at hbody

end Grammar

/-! ### What ends a program ends the body -/

namespace Grammar

theorem endStatement_eq_ok {s t : TokenStream} (h : Parser.endStatement s = .ok () t) :
    Sign .semicolon s t ∨ t = s := by
  unfold Parser.endStatement at h
  rw [atSign_bind] at h
  split at h
  · next hsign => exact .inl ⟨sign_of_atSign hsign, h⟩
  rw [atSign_bind, afterBreak_bind] at h
  change (if (_ || _ || s.current.isEnd) = true then _ else _ : Parser Unit) s = _ at h
  split at h
  · cases h
    exact .inr rfl
  · cases h

end Grammar

namespace Parting

variable {k : Parting} {sign other : Punctuator} {s t u v w : TokenStream}

theorem Inside.advance_sign (hk : k.Closed sign) (h : k.Inside s)
    (hs : Parser.advance s = .ok () t) (ht : t.current.sign? = some other) (hne : other ≠ sign) :
    k.Inside t := by
  refine (h.advance hk hs fun hplain => ?_).2.resolve_left fun htaken => ?_
  · rw [hplain.1] at ht
    cases ht
  · rw [htaken] at ht
    exact hne (Option.some.inj ht).symm

theorem Inside.not_isEnd (hk : k.Closed sign) (h : k.Inside s) (hs : Parser.advance s = .ok () t) :
    t.current.isEnd ≠ true := by
  intro hend
  have hnot := (h.advance hk hs fun hplain => by rw [hplain.2.1] at hend; cases hend).1
  rw [hend] at hnot
  cases hnot

/-- Where the parenthesis is closed, the statement ends and the text ends behind a brace, the brace
is the last one. -/
theorem not_inside_of_end (hk : k.Closed .rightBrace) (hbrace : Parser.advance s = .ok () t)
    (hsep : Parser.separate .rightParen t = .ok () u) (hclose : Sign .rightParen u v)
    (hstop : Parser.endStatement v = .ok () w) (hend : w.current.isEnd = true) : ¬ k.Inside s := by
  intro hs
  have hu : k.Inside u := by
    rcases separate_eq_ok hsep with hcomma | ⟨ht, rfl⟩
    · have ht := hs.advance_sign hk hbrace hcomma.1 nofun
      exact ht.advance_sign hk hcomma.2 hclose.1 nofun
    · exact hs.advance_sign hk hbrace ht nofun
  rcases endStatement_eq_ok hstop with hsemicolon | rfl
  · exact (hu.advance_sign hk hclose.2 hsemicolon.1 nofun).not_isEnd hk hsemicolon.2 hend
  · exact hu.not_isEnd hk hclose.2 hend

end Parting

namespace Grammar

variable {depth rounds : Nat} {text : String} {body : List Stmt} {ownStrict : Bool} {p : Position}
  {s t u v : TokenStream}

/-- A function body behind which the parenthesis is closed, the statement ends and the text ends is
a function body on its own. -/
theorem readsBody_of_functionBody (hp : p.offset ≠ 0)
    (h : functionBody ⟨rounds, parse depth⟩
      (.opening .leftBrace ('\n' :: text.toList ++ ['\n', '\x7d', ')']) p false) =
        .ok (body, ownStrict) s)
    (hsep : Parser.separate .rightParen s = .ok () t) (hclose : Sign .rightParen t u)
    (hstop : Parser.endStatement u = .ok () v) (hend : v.current.isEnd = true) :
    ReadsBody text body ownStrict := by
  have hk := closed_bodyParting text [] (.inr rfl)
  generalize hname : bodyParting text [')'] [] = k at hk
  have hfirst : '\n' :: text.toList ++ ['\n', '\x7d', ')'] = k.front ++ k.tail := by
    simp [← hname, bodyParting, Parting.tail]
  have hsource : ("\x7b\n" ++ text ++ "\n\x7d").toList =
      '\x7b' :: (k.front ++ k.bracket :: k.behind') := by
    rw [← hname]
    exact toList_body text
  obtain ⟨p₀, hp₀, hwhole⟩ := Parser.readsWhole_iff functionBody (body, ownStrict)
    Punctuator.leftBrace_mem_brackets hsource
  rw [hfirst, functionBody_eq_closed rfl] at h
  obtain ⟨w, hw, hbrace⟩ := closed_eq_ok h
  rcases (proceeds_openBody rounds depth).abreast hk.toAt
    (k.abreast_opening _ _ hp hp₀ false) rfl trivial hw with ⟨w', hw', hwide⟩ | hlost
  swap
  · exact absurd (eq_punctuator hbrace.1) hlost.current
  obtain ⟨hahead, hinside | ⟨-, hrest⟩⟩ := hwide.cases hbrace.1
  · exact absurd hinside (Parting.not_inside_of_end hk hbrace.2 hsep hclose hstop hend)
  obtain ⟨z, hz, hdone, -⟩ := TokenStream.advance_end (s := w') (hwide.ahead.trans hahead)
    (hrest.trans (by rw [← hname, bodyParting]))
  have hown := closed_of_sign hw' (show Sign .rightBrace w' z from ⟨hwide.current ▸ hbrace.1, hz⟩)
  rw [← functionBody_eq_closed rfl] at hown
  refine hwhole.mpr ⟨z, ?_, hdone⟩
  -- The bound of the longer text is lowered to that of the body.
  generalize hbound : max (max rounds depth) ((k.front ++ k.bracket :: k.behind').length + 2) =
    bound
  have hlifted : functionBody (nesting bound) _ = .ok (body, ownStrict) z :=
    encloses_functionBody.lift (by omega) (by omega) hown
  rw [← functionBody_of_le (l := bound) ?_ (by omega)]
  · exact hlifted
  · simp [TokenStream.size, TokenStream.opening, Token.weight, Token.isEnd]

end Grammar

end ProtoScript
