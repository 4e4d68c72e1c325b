import ProtoScript.Proofs.Readings.Primary
import ProtoScript.Proofs.Partings.Streams
import ProtoScript.Proofs.StrictTokens
import ProtoScript.Proofs.Spelling.Tokens
/-!
# Programs that begin with a parenthesis

Where the first statement of a program is a function and its text begins with a parenthesis, the
function is all that is inside the parentheses, or an arrow function of which they hold the
parameters.

Where a primary expression is followed by a closing parenthesis or by the end of the text, no
operator goes on with it, so the rules for operators yield what the rule for primary expressions has
read, or end with its error.  So a text that is a function in parentheses is a program of one
statement.
-/

namespace ProtoScript

/-! ### Brackets -/

def Punctuator.brackets : List (Punctuator × Char) :=
  [(.leftParen, '('), (.rightParen, ')'), (.leftBrace, '\x7b'), (.rightBrace, '\x7d')]

theorem Punctuator.leftParen_mem_brackets : (.leftParen, '(') ∈ brackets := by decide

theorem Punctuator.rightParen_mem_brackets : (.rightParen, ')') ∈ brackets := by decide

theorem Punctuator.leftBrace_mem_brackets : (.leftBrace, '\x7b') ∈ brackets := by decide

theorem TokenStream.readToken_bracket {sign : Punctuator} {ch : Char} {z : List Char} {c : Cursor}
    (hsign : (sign, ch) ∈ Punctuator.brackets) (hc : c.rest = ch :: z ∨ c.rest = ' ' :: ch :: z)
    (strict : Bool) :
    ∃ p, readToken strict c false = .ok (.punctuator sign, false, ⟨z, p⟩) ∧ p.offset ≠ 0 := by
  obtain ⟨hread, hgap, hinline⟩ :
      (∀ p, Token.readLexeme strict ⟨ch :: z, p⟩ =
        .ok ⟨.punctuator sign, p.offset, ⟨z, p.step ch⟩⟩) ∧
      (∀ p, Token.gapAt ⟨ch :: z, p⟩ = .none) ∧ Text.isInlineBlank ch = false := by
    simp only [Punctuator.brackets, List.mem_cons, Prod.mk.injEq, List.not_mem_nil,
      or_false] at hsign
    rcases hsign with ⟨rfl, rfl⟩ | ⟨rfl, rfl⟩ | ⟨rfl, rfl⟩ | ⟨rfl, rfl⟩ <;>
      exact ⟨fun _ => rfl, fun _ => rfl, rfl⟩
  obtain ⟨p, hp⟩ : ∃ p, c.skipWhile Text.isInlineBlank = ⟨ch :: z, p⟩ := by
    refine ⟨_, congrArg (Cursor.mk · _) ?_⟩
    rcases hc with hc | hc <;> rw [hc]
    · rw [List.dropWhile_cons_of_neg (by simp [hinline])]
    · rw [List.dropWhile_cons_of_pos (by decide), List.dropWhile_cons_of_neg (by simp [hinline])]
  have hnext : Token.next strict c = .ok ⟨.punctuator sign, p.offset, ⟨z, p.step ch⟩⟩ := by
    rw [Token.next_step, hp, hgap]
    exact hread p
  refine ⟨p.step ch, readToken_of_next hnext nofun, ?_⟩
  have := ch.utf8Size_pos
  simp only [Position.step]
  omega

def TokenStream.opening (sign : Punctuator) (text : List Char) (p : Position) (strict : Bool) :
    TokenStream :=
  ⟨.punctuator sign, false, none, ⟨text, p⟩, strict⟩

/-- In front of a bracket the streams of two texts that part behind it are at the same place. -/
theorem Parting.abreast_opening (k : Parting) (sign first : Punctuator) {p q : Position}
    (hp : p.offset ≠ 0) (hq : q.offset ≠ 0) (strict : Bool) :
    k.Abreast sign (.opening first (k.front ++ k.bracket :: k.behind) p strict)
      (.opening first (k.front ++ k.bracket :: k.behind') q strict) :=
  ⟨rfl, rfl, rfl, absurd rfl, rfl, .beside ⟨⟨_, List.suffix_rfl, rfl, rfl⟩, iff_of_false hp hq⟩⟩

theorem TokenStream.ofString_opening {sign : Punctuator} {ch : Char} {source : String}
    {text : List Char} (hsign : (sign, ch) ∈ Punctuator.brackets)
    (hsource : source.toList = ch :: text) :
    ∃ p, p.offset ≠ 0 ∧ ofString source = .ok (opening sign text p false) := by
  obtain ⟨p, hread, hp⟩ := readToken_bracket (c := Cursor.ofString source) hsign
    (.inl hsource) false
  refine ⟨p, hp, ?_⟩
  unfold ofString
  rw [hread]
  rfl

namespace Grammar

variable {n : Nesting} {c : Context} {s t : TokenStream} {x : Expr}

theorem advance_of_expectWord {word : Keyword} (h : Parser.expectWord word s = .ok () t) :
    Parser.advance s = .ok () t := by
  unfold Parser.expectWord at h
  rw [atWord_bind] at h
  split at h
  · exact h
  · cases h

theorem expectWord_of_advance {word : Keyword} (hs : s.current = .keyword word)
    (h : Parser.advance s = .ok () t) : Parser.expectWord word s = .ok () t := by
  unfold Parser.expectWord
  rw [atWord_bind, if_pos (by simp [hs, Token.word?])]
  exact h

theorem item_at_leftParen (hs : s.current.sign? = some .leftParen) :
    item n c s = expressionStatement n c s := by
  have hcurrent := eq_punctuator hs
  have hlet (f : Bool → Parser Stmt) : (atLetDeclaration >>= f) s = f false s := by
    unfold atLetDeclaration
    rw [bind_assoc, atWord_bind, hcurrent]
    rfl
  unfold item
  rw [hlet, if_neg nofun, current_bind, hcurrent]
  dsimp only
  unfold statement
  rw [current_bind, hcurrent]
  dsimp only
  unfold expressionOrLabeled
  rw [currentName?_bind, hcurrent]
  rfl

/-- A function that is a statement at a parenthesis has been read from there. -/
theorem parenthesized_of_item {d : FunctionDef} (hs : s.current.sign? = some .leftParen)
    (h : item n c s = .ok (.expression (.function d)) t) :
    ∃ u, parenthesized n c s = .ok (.function d) u ∧ Parser.endStatement u = .ok () t := by
  rw [item_at_leftParen hs] at h
  unfold expressionStatement at h
  obtain ⟨x, u, hx, h⟩ := bind_eq_ok h
  obtain ⟨_, v, hend, h⟩ := bind_eq_ok h
  cases h
  unfold expression sequenceOf at hx
  obtain ⟨y, w, hy, hx⟩ := bind_eq_ok hx
  rw [atSign_bind] at hx
  split at hx
  · obtain ⟨ys, w', -, hx⟩ := bind_eq_ok hx
    cases hx
  cases hx
  refine ⟨u, ?_, hend⟩
  rw [← primary_at_leftParen hs]
  rcases assignment_eq_ok hy with ⟨hconditional, -⟩ | ⟨_, _, _, _, _, hassign, -⟩
  · exact rests_conditional n c s _ u hconditional rfl
  · cases hassign

/-- A function in parentheses that is no arrow function is all that is inside them, but for a
comma. -/
theorem single_of_parenthesized {d : FunctionDef} (h : parenthesized n c s = .ok (.function d) t)
    (hkind : d.kind ≠ .arrow) :
    ∃ u v w, Parser.advance s = .ok () u ∧
      n.parse (.assignment true) c.bracketed u = .ok (.function d) v ∧
      Parser.separate .rightParen v = .ok () w ∧ Sign .rightParen w t := by
  obtain ⟨list, rest, u, v, w, hopen, hlist, hclose, hbehind⟩ := parenthesized_eq_ok h
  rcases hbehind with ⟨rfl, rfl, rfl | hsequence⟩ | ⟨parameters, -, harrow⟩
  · generalize hrounds : n.rounds = rounds at hlist
    cases rounds with
    | zero => cases hlist
    | succ rounds =>
    rcases commaListRest_eq_ok hlist with ⟨-, hfound, -⟩ | ⟨_, _, -, -, hfound⟩ |
      ⟨first, ⟨others, rest⟩, u', v', hfirst, hsep, hothers, hfound⟩
    · cases hfound
    · cases hfound
    · cases hfound
      obtain rfl := eq_of_commaListRest_nil hothers
      exact ⟨u, u', v, hopen, hfirst.2, hsep, hclose⟩
  · cases hsequence
  · obtain ⟨f, hf, harrow, -⟩ := parameters_arrowFunction _ _ _ _ _ _ harrow
    cases hf
    exact absurd harrow hkind

theorem primary_at_function (hs : s.current = .keyword .functionWord) :
    primary n c s = (functionExpression n c >>= fun d => pure (.function d)) s := by
  unfold primary
  rw [current_bind, hs]

/-- At the word an expression that is a function is what the word begins. -/
theorem functionExpression_of_assignment {depth : Nat} {cover : Bool} {d : FunctionDef}
    (hword : s.current = .keyword .functionWord)
    (h : parse depth (.assignment cover) c s = .ok (.function d) t) :
    ∃ inner, depth = inner + 1 ∧
      functionExpression ⟨depth, parse inner⟩ c s = .ok d t := by
  cases depth with
  | zero => cases h
  | succ depth =>
    refine ⟨depth, rfl, ?_⟩
    have hprimary : primary ⟨depth + 1, parse depth⟩ c s = .ok (.function d) t := by
      rcases assignment_eq_ok h with ⟨hconditional, -⟩ | ⟨_, _, _, _, _, hassign, -⟩
      · exact rests_conditional _ c s _ t hconditional rfl
      · cases hassign
    rw [primary_at_function hword] at hprimary
    obtain ⟨d, u, hd, hdone⟩ := bind_eq_ok hprimary
    cases hdone
    exact hd

end Grammar

open Grammar

/-- A program that begins with a parenthesis and a function reads the function from there, and the
other statements behind it. -/
theorem Program.opening_of_ofString {source : String} {text : List Char} {strict : Bool}
    {program : Program} {d : FunctionDef} {rest : List Stmt}
    (hsource : source.toList = '(' :: text) (h : Program.ofString source strict = .ok program)
    (hbody : program.body = .expression (.function d) :: rest) :
    ∃ p t u v own, p.offset ≠ 0 ∧
      parenthesized ⟨source.toList.length + 1, parse source.toList.length⟩ .program
        (.opening .leftParen text p strict) = .ok (.function d) t ∧
        Parser.endStatement t = .ok () u ∧
      directiveBody (nesting (depthOf source)) .program none false source.toList.length u =
        .ok (rest, own) v := by
  unfold Program.ofString Parser.runOn at h
  obtain ⟨p, hp, hopening⟩ := TokenStream.ofString_opening Punctuator.leftParen_mem_brackets hsource
  rw [hopening] at h
  obtain ⟨⟨body, v⟩, hrun, h⟩ := bind_except_eq_ok h
  cases h
  dsimp only at hrun hbody
  split at hrun
  · next found v' hdirectives =>
    cases hrun
    rcases directiveBody_cases hdirectives with ⟨hend, -⟩ |
      ⟨first, u, others, hfirst, hothers, hrest⟩
    · cases hend
    obtain ⟨rfl, rfl⟩ := List.cons.inj (hothers.symm.trans hbody)
    obtain ⟨t, hparen, hend⟩ := parenthesized_of_item rfl hfirst
    rcases hrest with ⟨-, hdirective, -⟩ | ⟨-, hrest⟩
    · cases hdirective
    · exact ⟨p, t, u, v, others.2, hp, hparen, hend, hrest⟩
  · cases hrun

theorem Parser.advance_of_readToken {s : TokenStream} {token : Token} {broken : Bool} {c : Cursor}
    (hs : s.ahead = none)
    (h : TokenStream.readToken s.strict s.cursor false = .ok (token, broken, c)) :
    Parser.advance s = .ok () { s with current := token, afterBreak := broken, cursor := c } := by
  unfold Parser.advance
  rw [hs, h]

/-- A program that begins with a parenthesis and a function expression reads the function behind the
parenthesis.  Behind it the parenthesis is closed, perhaps behind a comma, the statement ends, and
the other statements follow. -/
theorem Program.function_of_ofString {source : String} {text : List Char} {strict : Bool}
    {program : Program} {d : FunctionDef} {rest : List Stmt}
    (hsource : source.toList = '(' :: ("function".toList ++ ' ' :: text))
    (h : Program.ofString source strict = .ok program)
    (hbody : program.body = .expression (.function d) :: rest) (hkind : d.kind ≠ .arrow) :
    ∃ inner c s t u v w own, source.toList.length = inner + 1 ∧ c.rest = ' ' :: text ∧
      functionExpression ⟨source.toList.length, parse inner⟩ .program
        ⟨.keyword .functionWord, false, none, c, strict⟩ = .ok d s ∧
      Parser.separate .rightParen s = .ok () t ∧ Sign .rightParen t u ∧
      Parser.endStatement u = .ok () v ∧
      directiveBody (nesting (depthOf source)) .program none false source.toList.length v =
        .ok (rest, own) w := by
  obtain ⟨p, u, v, w, own, -, hparen, hend, hrest⟩ := opening_of_ofString hsource h hbody
  obtain ⟨s₀, s, t, hopen, hread, hsep, hclose⟩ := single_of_parenthesized hparen hkind
  obtain ⟨c, hword, hc⟩ := TokenStream.readToken_spelled strict
    (c := ⟨"function".toList ++ ' ' :: text, p⟩) (.keyword .functionWord) (.inr ⟨text, rfl⟩)
    (.inl rfl)
  obtain ⟨-, rfl⟩ := ok_unique (Parser.advance_of_readToken rfl hword) hopen
  obtain ⟨inner, hinner, hfunction⟩ := functionExpression_of_assignment rfl hread
  exact ⟨inner, c, s, t, u, v, w, own, hinner, hc, hfunction, hsep, hclose, hend, hrest⟩

/-! ### In front of a closing parenthesis -/

namespace Grammar

variable {n : Nesting} {c : Context} {s t u : TokenStream} {x : Expr} {e : SyntaxError}

def endsExpression : Token → Bool
  | .punctuator .rightParen => true
  | .endOfInput => true
  | _ => false

def Halts (rest : Expr → Parser Expr) : Prop :=
  ∀ x t, endsExpression t.current = true → rest x t = .ok x t

theorem endsExpression_cases {token : Token} (h : endsExpression token = true) :
    token = .punctuator .rightParen ∨ token = .endOfInput := by
  unfold endsExpression at h
  split at h
  · exact .inl rfl
  · exact .inr rfl
  · cases h

theorem not_sign_of_endsExpression {token : Token} (h : endsExpression token = true)
    (sign : Punctuator) (hsign : sign ≠ .rightParen) : ¬ (token.sign? == some sign) = true := by
  rcases endsExpression_cases h with rfl | rfl
  · simpa [Token.sign?] using hsign.symm
  · simp [Token.sign?]

theorem halts_memberSuffixes (n : Nesting) (c : Context) (calls : Bool) (rounds : Nat) :
    Halts (memberSuffixes n c calls (rounds + 1)) := by
  intro x t ht
  unfold memberSuffixes
  rw [eat_bind, atSign_bind, if_neg (not_sign_of_endsExpression ht .dot (by decide)),
    if_neg Bool.false_ne_true, eat_bind, atSign_bind,
    if_neg (not_sign_of_endsExpression ht .leftBracket (by decide)), if_neg Bool.false_ne_true,
    atSign_bind, if_neg]
  · rfl
  · rw [Bool.and_eq_true]
    exact fun h => not_sign_of_endsExpression ht .leftParen (by decide) h.2

theorem halts_binaryRest (n : Nesting) (c : Context) (strength rounds : Nat) :
    Halts (binaryRest n c strength (rounds + 1)) := by
  intro x t ht
  unfold binaryRest
  rw [current_bind]
  rcases endsExpression_cases ht with h | h <;> rw [h] <;> rfl

theorem halts_logicalRest (sign : Punctuator) (op : LogicalOp) (operand : Parser Expr)
    (rounds : Nat) (hsign : sign ≠ .rightParen) :
    Halts (logicalRest sign op operand (rounds + 1)) := by
  intro x t ht
  unfold logicalRest
  rw [eat_bind, atSign_bind, if_neg (not_sign_of_endsExpression ht sign hsign)]
  rfl

/-- At the stream the second rule yields what the first one has read in front of a token that ends
an expression, and ends with its error. -/
structure Leads (s : TokenStream) (p q : Parser Expr) : Prop where
  ok : ∀ x t, p s = .ok x t → endsExpression t.current = true → q s = .ok x t
  error : ∀ e t, p s = .error e t → q s = .error e t

namespace Leads

variable {p q : Parser Expr}

theorem refl (s : TokenStream) (p : Parser Expr) : Leads s p p :=
  ⟨fun _ _ h _ => h, fun _ _ h => h⟩

theorem bind (h : Leads s p q) {rest : Expr → Parser Expr} (hrest : Halts rest) :
    Leads s p (q >>= rest) := by
  refine ⟨fun x t hp ht => ?_, fun e t hp => bind_of_error (h.error e t hp)⟩
  rw [bind_of_ok (h.ok x t hp ht)]
  exact hrest x t ht

theorem congr {q' : Parser Expr} (h : Leads s p q) (hq : q' s = q s) : Leads s p q' := by
  refine ⟨fun x t hp ht => ?_, fun e t hp => ?_⟩
  · rw [hq, h.ok x t hp ht]
  · rw [hq, h.error e t hp]

end Leads

structure Plain (s : TokenStream) : Prop where
  operator : frontOperator? s.current = none
  word : s.current.word? ≠ some .newWord

section Levels

variable (hrounds : n.rounds ≠ 0) (hs : Plain s)

include hrounds hs

theorem leads_leftHandSide : Leads s (primary n c) (leftHandSide n c) := by
  obtain ⟨rounds, hrounds⟩ := Nat.exists_eq_add_one_of_ne_zero hrounds
  have hleads := (Leads.refl s (primary n c)).bind (halts_memberSuffixes n c true rounds)
  refine hleads.congr ?_
  unfold leftHandSide
  rw [atWord_bind, if_neg (by simpa using hs.word), hrounds]

theorem leads_unary : Leads s (primary n c) (unary n c) := by
  have hpostfix : Leads s (primary n c) (postfixUpdate n c) := by
    unfold postfixUpdate
    refine (leads_leftHandSide hrounds hs).bind fun x t ht => ?_
    rw [current_bind, afterBreak_bind]
    rcases endsExpression_cases ht with h | h <;> rw [h] <;> cases t.afterBreak <;> rfl
  refine hpostfix.congr ?_
  unfold unary
  rw [current_bind, hs.operator]

theorem leads_binary (strength : Nat) : Leads s (primary n c) (binary n c strength) := by
  have hpower : Leads s (primary n c) (power n c) := by
    have hunary := leads_unary (c := c) hrounds hs
    unfold power
    refine ⟨fun x t hp ht => ?_, fun e t hp => ?_⟩
    · rw [current_bind, bind_of_ok (hunary.ok x t hp ht), atSign_bind,
        if_neg (not_sign_of_endsExpression ht .exponent nofun)]
      rfl
    · rw [current_bind, bind_of_error (hunary.error e t hp)]
  obtain ⟨rounds, hrounds⟩ := Nat.exists_eq_add_one_of_ne_zero hrounds
  unfold binary
  rw [hrounds]
  exact hpower.bind (halts_binaryRest n c strength rounds)

theorem leads_conditional : Leads s (primary n c) (conditional n c) := by
  have hcoalescing : Leads s (primary n c) (coalescing n c) := by
    obtain ⟨rounds, hn⟩ := Nat.exists_eq_add_one_of_ne_zero hrounds
    unfold coalescing disjunction conjunction
    rw [hn]
    exact (((leads_binary hrounds hs 0).bind (halts_logicalRest .logicalAnd _ _ _ nofun)).bind
      (halts_logicalRest .logicalOr _ _ _ nofun)).bind
        (halts_logicalRest .nullishCoalescing _ _ _ nofun)
  unfold conditional
  refine hcoalescing.bind fun x t ht => ?_
  rw [eat_bind, atSign_bind, if_neg (not_sign_of_endsExpression ht .question nofun)]
  rfl

/-- Nothing is assigned to a function in front of a token that ends an expression. -/
theorem assignment_of_primary {cover : Bool} {d : FunctionDef}
    (h : primary n c s = .ok (.function d) t) (ht : endsExpression t.current = true) :
    assignment n c cover s = .ok (.function d) t := by
  have hconditional := (leads_conditional hrounds hs).ok _ t h ht
  have hoperator : assignmentOperator? t.current = none := by
    rcases endsExpression_cases ht with h | h <;> rw [h] <;> rfl
  unfold assignment
  rw [bind_of_ok hconditional, current_bind, hoperator]
  cases cover <;> rfl

theorem assignment_eq_error {cover : Bool} (h : primary n c s = .error e t) :
    assignment n c cover s = .error e t := by
  unfold assignment
  rw [bind_of_error ((leads_conditional hrounds hs).error e t h)]

end Levels

theorem plain_of_function (hs : s.current = .keyword .functionWord) : Plain s := by
  constructor <;> rw [hs] <;> decide

theorem assignment_of_functionExpression {cover : Bool} {d : FunctionDef} (hrounds : n.rounds ≠ 0)
    (hs : s.current = .keyword .functionWord) (h : functionExpression n c s = .ok d t)
    (ht : endsExpression t.current = true) : assignment n c cover s = .ok (.function d) t := by
  refine assignment_of_primary hrounds (plain_of_function hs) ?_ ht
  rw [primary_at_function hs, bind_of_ok h]
  rfl

theorem assignment_eq_error_of_functionExpression {cover : Bool} (hrounds : n.rounds ≠ 0)
    (hs : s.current = .keyword .functionWord) (h : functionExpression n c s = .error e t) :
    assignment n c cover s = .error e t := by
  refine assignment_eq_error hrounds (plain_of_function hs) ?_
  rw [primary_at_function hs, bind_of_error h]

/-! ### A function in parentheses -/

section Parentheses

variable {d : FunctionDef}

theorem parenthesizedElements_of_word {rounds : Nat} (hword : u.current = .keyword .functionWord) :
    parenthesizedElements n c (rounds + 1) u = (n.parse (.assignment true) c >>= fun element =>
      Parser.separate .rightParen >>= fun _ => parenthesizedElements n c rounds >>= fun found =>
        pure (element :: found.1, found.2)) u := by
  conv => lhs; unfold parenthesizedElements
  rw [atSign_bind, hword, if_neg (by simp [Token.sign?]), eat_bind, atSign_bind, hword,
    if_neg (by simp [Token.sign?]), if_neg Bool.false_ne_true]

/-- A function expression and nothing else in parentheses, at the end of the text. -/
theorem parenthesized_of_function {v w : TokenStream} (hrounds : 1 < n.rounds)
    (hopen : Parser.advance s = .ok () u) (hword : u.current = .keyword .functionWord)
    (hread : n.parse (.assignment true) c.bracketed u = .ok (.function d) v)
    (hclose : Sign .rightParen v w) (hend : w.current.isEnd = true) :
    parenthesized n c s = .ok (.function d) w := by
  obtain ⟨rounds, hn⟩ := Nat.exists_eq_add_of_lt hrounds
  have hlist : parenthesizedElements n c.bracketed n.rounds u = .ok ([.function d], none) v := by
    rw [hn, show 1 + rounds + 1 = rounds + 1 + 1 by omega, parenthesizedElements_of_word hword,
      bind_of_ok hread]
    have hsep : Parser.separate .rightParen v = .ok () v := by
      unfold Parser.separate
      rw [atSign_bind, if_neg (by simp [hclose.1]), atSign_bind, if_pos (by simpa using hclose.1)]
      rfl
    have hnone : parenthesizedElements n c.bracketed (rounds + 1) v = .ok ([], none) v := by
      unfold parenthesizedElements
      rw [atSign_bind, if_pos (by simpa using hclose.1)]
      rfl
    rw [bind_of_ok hsep, bind_of_ok hnone]
    rfl
  have harrow : ¬ (w.current.sign? == some .arrow && !w.afterBreak) = true := by
    cases hw : w.current <;> simp_all [Token.isEnd, Token.sign?]
  unfold parenthesized
  rw [bind_of_ok hopen, bind_of_ok hlist]
  dsimp only
  rw [bind_of_ok (expect_of_sign hclose), atArrow_bind, if_neg harrow]
  rfl

theorem parenthesized_eq_error (hrounds : n.rounds ≠ 0) (hopen : Parser.advance s = .ok () u)
    (hword : u.current = .keyword .functionWord)
    (hread : n.parse (.assignment true) c.bracketed u = .error e t) :
    parenthesized n c s = .error e t := by
  obtain ⟨rounds, hn⟩ := Nat.exists_eq_add_one_of_ne_zero hrounds
  unfold parenthesized
  rw [bind_of_ok hopen, hn, bind_of_error]
  rw [parenthesizedElements_of_word hword, bind_of_error hread]

theorem eq_endOfInput {token : Token} (h : token.isEnd = true) : token = .endOfInput := by
  cases token <;> first | rfl | cases h

theorem plain_of_leftParen (hs : s.current.sign? = some .leftParen) : Plain s := by
  constructor
  · rw [eq_punctuator hs]
    rfl
  · rw [eq_punctuator hs]
    nofun

theorem item_of_parenthesized (hrounds : n.rounds ≠ 0) (hs : s.current.sign? = some .leftParen)
    (h : parenthesized n c s = .ok (.function d) t) (hend : t.current.isEnd = true) :
    item n c s = .ok (.expression (.function d)) t := by
  have hends := eq_endOfInput hend
  have hread : assignment n c false s = .ok (.function d) t :=
    assignment_of_primary hrounds (plain_of_leftParen hs) (primary_at_leftParen hs ▸ h)
      (by rw [hends]; rfl)
  have hstop : Parser.endStatement t = .ok () t := by
    unfold Parser.endStatement
    rw [atSign_bind, if_neg (by simp [hends, Token.sign?]), atSign_bind, afterBreak_bind]
    change (if (_ || _ || t.current.isEnd) = true then _ else _ : Parser Unit) t = _
    rw [hend, Bool.or_true]
    rfl
  rw [item_at_leftParen hs]
  unfold expressionStatement expression sequenceOf
  rw [bind_assoc, bind_of_ok hread, bind_assoc, atSign_bind, if_neg (by simp [hends, Token.sign?])]
  rw [bind_of_ok (rfl : (pure (.function d) : Parser Expr) t = .ok _ t), bind_of_ok hstop]
  rfl

theorem item_eq_error (hrounds : n.rounds ≠ 0) (hs : s.current.sign? = some .leftParen)
    (h : parenthesized n c s = .error e t) : item n c s = .error e t := by
  have hread : assignment n c false s = .error e t :=
    assignment_eq_error hrounds (plain_of_leftParen hs) (primary_at_leftParen hs ▸ h)
  rw [item_at_leftParen hs]
  unfold expressionStatement expression sequenceOf
  rw [bind_assoc, bind_of_error hread]

end Parentheses

end Grammar

variable {source : String} {text : List Char}

namespace Grammar

variable {n : Nesting} {c : Context} {s t : TokenStream} {rounds : Nat} {prologue : Bool}

theorem directiveBody_of_function {d : FunctionDef} (hs : s.current.isEnd = false)
    (hitem : n.parse .item c s = .ok (.expression (.function d)) t)
    (hend : t.current.isEnd = true) :
    directiveBody n c none prologue (rounds + 2) s =
      .ok ([.expression (.function d)], false) t := by
  have hrest : directiveBody n c none false (rounds + 1) t = .ok ([], false) t := by
    unfold directiveBody
    rw [current_bind, Option.any_none, if_neg Bool.false_ne_true, if_pos hend]
    rfl
  unfold directiveBody
  rw [current_bind, Option.any_none, if_neg Bool.false_ne_true, if_neg (by simp [hs]),
    bind_of_ok hitem]
  cases prologue <;> exact bind_of_ok hrest

theorem directiveBody_eq_error {e : SyntaxError} (hs : s.current.isEnd = false)
    (hitem : n.parse .item c s = .error e t) :
    directiveBody n c none prologue (rounds + 1) s = .error e t := by
  unfold directiveBody
  rw [current_bind, Option.any_none, if_neg Bool.false_ne_true, if_neg (by simp [hs]),
    bind_of_error hitem]

end Grammar

namespace Program

variable {strict : Bool}

/-- A text that begins with a parenthesis is a program as its statements are read from there. -/
theorem ofString_eq (strict : Bool) (hsource : source.toList = '(' :: text) :
    ∃ p, p.offset ≠ 0 ∧ Program.ofString source strict =
      match directiveBody (nesting (depthOf source)) .program none true (text.length + 2)
        (.opening .leftParen text p strict) with
      | .ok body t => .ok ⟨body.1, t.strict⟩
      | .error e _ => .error e := by
  obtain ⟨p, hp, hopening⟩ :=
    TokenStream.ofString_opening Punctuator.leftParen_mem_brackets hsource
  refine ⟨p, hp, ?_⟩
  have hdepth : (nesting (depthOf source)).rounds = text.length + 2 := by
    change source.toList.length + 1 = _
    rw [hsource, List.length_cons]
  unfold Program.ofString Parser.runOn
  rw [hopening]
  unfold TokenStream.opening
  dsimp only
  rw [hdepth]
  generalize directiveBody _ _ _ _ _ _ = r
  cases r <;> rfl

/-- A text that is a function in parentheses is a program of one statement. -/
theorem ofString_of_parenthesized {d : FunctionDef} (hsource : source.toList = '(' :: text)
    (h : ∀ p, p.offset ≠ 0 → ∃ t, t.current.isEnd = true ∧ t.strict = strict ∧
      parenthesized ⟨source.toList.length + 1, parse source.toList.length⟩ .program
        (.opening .leftParen text p strict) = .ok (.function d) t) :
    Program.ofString source strict = .ok ⟨[.expression (.function d)], strict⟩ := by
  obtain ⟨p, hp, hprogram⟩ := ofString_eq strict hsource
  obtain ⟨t, hend, rfl, hparen⟩ := h p hp
  have hitem := item_of_parenthesized (Nat.succ_ne_zero _) rfl hparen hend
  rw [hprogram, directiveBody_of_function rfl hitem hend]

theorem ofString_eq_error {e : SyntaxError} (hsource : source.toList = '(' :: text)
    (h : ∀ p, p.offset ≠ 0 → ∃ t,
      parenthesized ⟨source.toList.length + 1, parse source.toList.length⟩ .program
        (.opening .leftParen text p strict) = .error e t) :
    Program.ofString source strict = .error e := by
  obtain ⟨p, hp, hprogram⟩ := ofString_eq strict hsource
  obtain ⟨t, hparen⟩ := h p hp
  rw [hprogram, directiveBody_eq_error rfl (item_eq_error (Nat.succ_ne_zero _) rfl hparen)]

end Program

end ProtoScript
