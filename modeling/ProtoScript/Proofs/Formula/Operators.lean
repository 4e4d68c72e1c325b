import ProtoScript.Proofs.Formula.Levels
/-!
# The constructs of a formula

One lemma for each way to make a formula, from names and literals up to assignments.
-/

namespace ProtoScript

/-!
### Names, literals and parentheses

What the highest level reads: names, literals, `this`, and any formula between parentheses.  So a
formula can stand at any level, between parentheses or without.
-/

open Grammar

namespace Grammar

variable {α β : Type} {ts rest : List Token} {x : Expr} {xs : List Expr} {level : Nat} {n : Nesting}
  {c : Context}

theorem Reads.currentName {f : Option String → Parser β} {b : β}
    (h : Reads (f (nameOfToken? false (ts.headD .endOfInput))) ts b rest) :
    Reads (currentName? >>= f) ts b rest := by
  intro s hs
  rw [currentName?_bind, hs.strict, hs.current]
  exact h s hs

theorem reads_atArrow (hrest : Stops 17 rest) : Reads atArrow rest false rest := by
  unfold atArrow
  apply Reads.notAtSign (hrest.sign? rfl (Nat.le_refl _))
  apply Reads.afterBreak
  exact .pure

theorem nameOfToken?_identifier {name : String} (h : Token.IsFreeName name) :
    nameOfToken? false (.identifier name) = some name := by
  have hkeyword : Keyword.ofString? name = none := by
    rw [Option.eq_none_iff_forall_ne_some]
    intro word hword
    exact h.ne_keyword word (Token.spelling_of_ofString? hword).symm
  have htrue : name ≠ "true" := h.ne_boolean true
  have hfalse : name ≠ "false" := h.ne_boolean false
  simp [nameOfToken?, isReserved, hkeyword, htrue, hfalse, h.ne_null]

/-! ### Single tokens -/

namespace Legible

theorem single {t : Token} (hsign : t.sign? = none) (hword : t.word? ≠ some .newWord)
    (hfront : frontOperator? t = none) (hx : hasCoverProperty x = false)
    (h : ∀ n c rest, Stops 17 rest → Reads (primary n c) (t :: rest) x rest) :
    Legible [t] x 17 := by
  refine ⟨⟨t, [], rfl, ?_, ?_, hword, fun _ => hfront⟩, hx, fun n c _ _ => h n c⟩
  · rw [hsign]
    exact nofun
  · rw [hsign]
    exact nofun

theorem identifier {name : String} (h : Token.IsFreeName name) :
    Legible [.identifier name] (.identifier name) 17 := by
  apply single rfl (by intro h; cases h) rfl rfl
  intro n c rest hrest
  unfold primary
  apply Reads.current
  change Reads (nameOrArrow n c) _ _ _
  unfold nameOrArrow
  apply Reads.currentName
  rw [List.headD_cons, nameOfToken?_identifier h]
  apply Reads.advance_bind
  exact (reads_atArrow hrest).bind .pure

theorem this : Legible [.keyword .thisWord] .this 17 := by
  apply single rfl (by intro h; cases h) rfl rfl
  intro n c rest hrest
  unfold primary
  exact .current (.advance_bind .pure)

theorem null : Legible [.null] (.literal .null) 17 := by
  apply single rfl (by intro h; cases h) rfl rfl
  intro n c rest hrest
  unfold primary
  exact .current (.advance_bind .pure)

theorem boolean (value : Bool) : Legible [.boolean value] (.literal (.boolean value)) 17 := by
  apply single rfl (by intro h; cases h) rfl rfl
  intro n c rest hrest
  unfold primary
  exact .current (.advance_bind .pure)

theorem string (value : String) : Legible [.string value] (.literal (.string value)) 17 := by
  apply single rfl (by intro h; cases h) rfl rfl
  intro n c rest hrest
  unfold primary
  exact .current (.advance_bind .pure)

end Legible

/-! ### Lists -/

theorem stops_listedBehind (xs : List Expr) (hrest : Stops 1 rest) :
    Stops 1 (Expr.listedBehind xs ++ rest) := by
  cases xs with
  | nil => exact hrest
  | cons x xs => exact .of_some (t := .punctuator .comma) rfl Nat.one_pos

/-- Behind an element of a list comes the closing sign or, behind a comma, the next element. -/
theorem reads_separate (xs : List Expr) :
    Reads (Parser.separate .rightParen) (Expr.listedBehind xs ++ .punctuator .rightParen :: rest) ()
      (Expr.listed xs ++ .punctuator .rightParen :: rest) := by
  unfold Parser.separate
  cases xs with
  | nil =>
    change Reads _ (.punctuator .rightParen :: rest) () (.punctuator .rightParen :: rest)
    exact .notAtSign (by intro h; cases h) (.atSign .pure)
  | cons x xs => exact .atSign .advance

/-- The first token of an element neither closes the list nor announces a rest parameter. -/
theorem head_listed (h : Legible (x.tokens 1) x 1) (xs : List Expr) (rest : List Token) :
    ((Expr.listed (x :: xs) ++ rest).headD .endOfInput).sign? ≠ some .rightParen ∧
      ((Expr.listed (x :: xs) ++ rest).headD .endOfInput).sign? ≠ some .ellipsis := by
  obtain ⟨t, us, hts, ht⟩ := h.opens
  have hlisted : Expr.listed (x :: xs) = t :: (us ++ Expr.listedBehind xs) := by
    change x.tokens 1 ++ _ = _
    rw [hts, List.cons_append]
  rw [hlisted]
  exact ⟨ht.ne_close, ht.ne_ellipsis⟩

theorem reads_element (h : Legible (x.tokens 1) x 1) (hn : n.Tied) (hc : c.noIn = false)
    (cover : Bool) (hrest : Stops 1 rest) :
    Reads (n.parse (.assignment cover) c) (Expr.listed (x :: xs) ++ rest) x
      (Expr.listedBehind xs ++ rest) := by
  have hreads := h.parse_assignment hn hc cover _ (stops_listedBehind xs hrest)
  rw [← List.append_assoc] at hreads
  exact hreads

theorem stops_close : Stops level (.punctuator .rightParen :: rest) := .of_none rfl

theorem reads_parenthesizedElements (hn : n.Tied) (hc : c.noIn = false)
    (hxs : ∀ x ∈ xs, Legible (x.tokens 1) x 1) (rounds : Nat) :
    Reads (parenthesizedElements n c rounds) (Expr.listed xs ++ .punctuator .rightParen :: rest)
      (xs, none) (.punctuator .rightParen :: rest) := by
  induction xs generalizing rounds with
  | nil =>
    cases rounds with
    | zero => exact .exhausted
    | succ rounds => exact .atSign .pure
  | cons x xs ih =>
    cases rounds with
    | zero => exact .exhausted
    | succ rounds =>
      have hx := hxs x List.mem_cons_self
      obtain ⟨hclose, hellipsis⟩ := head_listed hx xs (.punctuator .rightParen :: rest)
      unfold parenthesizedElements
      apply Reads.notAtSign hclose
      apply Reads.notEat hellipsis
      apply (reads_element hx hn hc true stops_close).bind
      apply (reads_separate xs).bind
      exact (ih (fun y hy => hxs y (List.mem_cons_of_mem _ hy)) rounds).bind .pure

theorem reads_arguments (hn : n.Tied) (hc : c.noIn = false)
    (hxs : ∀ x ∈ xs, Legible (x.tokens 1) x 1) (rounds : Nat) :
    Reads (Parser.commaList .rightParen (n.parse (.assignment false) c) rounds)
      (Expr.listed xs ++ .punctuator .rightParen :: rest) xs (.punctuator .rightParen :: rest) := by
  induction xs generalizing rounds with
  | nil =>
    cases rounds with
    | zero => exact .exhausted
    | succ rounds => exact .atSign .pure
  | cons x xs ih =>
    cases rounds with
    | zero => exact .exhausted
    | succ rounds =>
      have hx := hxs x List.mem_cons_self
      unfold Parser.commaList
      apply Reads.notAtSign (head_listed hx xs _).1
      apply (reads_element hx hn hc false stops_close).bind
      apply (reads_separate xs).bind
      exact (ih (fun y hy => hxs y (List.mem_cons_of_mem _ hy)) rounds).bind .pure

theorem reads_others (hn : n.Tied) (hc : c.noIn = false) (hrest : Stops 0 rest)
    (hxs : ∀ x ∈ xs, Legible (x.tokens 1) x 1) (rounds : Nat) :
    Reads (sequenceOf.others n c rounds) (Expr.listedBehind xs ++ rest) xs rest := by
  induction xs generalizing rounds with
  | nil =>
    cases rounds with
    | zero => exact .exhausted
    | succ rounds =>
      unfold sequenceOf.others
      exact .notEat (hrest.sign? rfl (Nat.le_refl _)) .pure
  | cons x xs ih =>
    cases rounds with
    | zero => exact .exhausted
    | succ rounds =>
      unfold sequenceOf.others
      apply Reads.eat
      apply (reads_element (hxs x List.mem_cons_self) hn hc false (hrest.mono (Nat.zero_le 1))).bind
      exact (ih (fun y hy => hxs y (List.mem_cons_of_mem _ hy)) rounds).bind .pure

/-! ### Parentheses -/

theorem hasCoverProperty_grouped (h : ∀ x ∈ xs, Legible (x.tokens 1) x 1) :
    hasCoverProperty (grouped xs) = false := by
  match xs, h with
  | [], _ => rfl
  | [x], h => exact (h x List.mem_cons_self).plain
  | x :: y :: xs, _ => rfl

/-- Between parentheses stands an expression, or a sequence of them. -/
theorem Legible.parenthesized (hxs : ∀ x ∈ xs, Legible (x.tokens 1) x 1) (hne : xs ≠ []) :
    Legible (.punctuator .leftParen :: (Expr.listed xs ++ [.punctuator .rightParen])) (grouped xs)
      17 := by
  refine ⟨⟨_, _, rfl, nofun, nofun, nofun, fun _ => rfl⟩, hasCoverProperty_grouped hxs, ?_⟩
  intro n c hn hc rest hrest
  rw [List.cons_append, List.append_assoc]
  unfold primary
  apply Reads.current
  change Reads (Grammar.parenthesized n c) _ _ _
  unfold Grammar.parenthesized
  apply Reads.advance_bind
  apply (reads_parenthesizedElements hn rfl hxs n.rounds).bind
  apply Reads.expect.bind
  apply (reads_atArrow hrest).bind
  have hplain : xs.any hasCoverProperty = false := by
    rw [List.any_eq_false]
    intro x hx
    rw [(hxs x hx).plain]
    exact Bool.false_ne_true
  have hempty : xs.isEmpty = false := by
    rw [List.isEmpty_eq_false_iff]
    exact hne
  simp only [hplain, hempty, Option.isSome_none, Bool.or_self, Bool.false_eq_true, if_false]
  have hgrouped : Reads (pure (grouped xs)) rest (grouped xs) rest := .pure
  rw [← pure_grouped] at hgrouped
  exact hgrouped

/-! ### Places -/

def Readable (x : Expr) : Prop := ∀ level, level ≤ 17 → Legible (x.tokens level) x level

/-- What is written without parentheses at its own level is also read where it needs them. -/
theorem Legible.readable {own : Nat} (h : Legible ts x own) (hbare : x.bare = ts)
    (hown : x.level = own) (hbounds : 1 ≤ own ∧ own ≤ 17) : Readable x := by
  subst hbare hown
  intro level hle
  by_cases hplace : level ≤ x.level
  · rw [Expr.tokens_of_le hplace]
    exact h.of_le hbounds.2 hplace
  · have hone : Legible (x.tokens 1) x 1 := by
      rw [Expr.tokens_of_le hbounds.1]
      exact h.of_le hbounds.2 hbounds.1
    have hparens := Legible.parenthesized (fun y hy => by rwa [List.mem_singleton.mp hy])
      (List.cons_ne_nil x [])
    have hlisted : Expr.listed [x] = x.bare := by
      change x.tokens 1 ++ [] = x.bare
      rw [List.append_nil, Expr.tokens_of_le hbounds.1]
    rw [hlisted] at hparens
    rw [Expr.tokens_of_lt (Nat.lt_of_not_le hplace)]
    exact hparens.of_le (Nat.le_refl _) hle

theorem readable_sequence {y : Expr} (hxs : ∀ z ∈ x :: y :: xs, Readable z)
    (h : Legible (Expr.listed (x :: y :: xs)) (.sequence (x :: y :: xs)) 0) :
    Readable (.sequence (x :: y :: xs)) := by
  intro level hle
  by_cases hlevel : level = 0
  · subst hlevel
    exact h
  · have hparens := Legible.parenthesized (fun z hz => hxs z hz 1 (by decide))
      (List.cons_ne_nil x (y :: xs))
    rw [Expr.tokens_of_lt (Nat.pos_of_ne_zero hlevel)]
    exact hparens.of_le (Nat.le_refl _) hle

end Grammar

/-!
### Operators, member access and calls

One lemma for each construct: where its operands are legible at the levels that it asks for, it is
legible at its own level.
-/

namespace Grammar

variable {ts us vs rest rest' : List Token} {x y z : Expr} {xs : List Expr} {level : Nat}
  {n : Nesting} {c : Context}

theorem Legible.opens_append (h : Legible ts x level) {lower : Nat} (hle : lower ≤ level)
    (us : List Token) : ∃ t vs, ts ++ us = t :: vs ∧ Opens t lower := by
  obtain ⟨t, vs, rfl, ht⟩ := h.opens
  exact ⟨t, vs ++ us, rfl, ht.ne_close, ht.ne_ellipsis, ht.ne_new,
    fun hlower => ht.ne_front (Nat.le_trans hlower hle)⟩

theorem reads_checkAssignable (h : x.isReference = true) :
    Reads (checkAssignable x) ts () ts := by
  cases x with
  | identifier name => exact .isStrict .pure
  | member object key => exact .pure
  | _ => cases h

/-! ### Operators in front -/

def FrontOperator.applied : FrontOperator → Expr → Expr
  | .convert op, x => .unary op x
  | .update op, x => .update op true x
  | .typeOf, x => .typeOf x
  | .void, x => .void x
  | .delete, x => .delete x

theorem opens_of_frontOperator? {t : Token} {op : FrontOperator} (h : frontOperator? t = some op) :
    Opens t 14 := by
  refine ⟨?_, ?_, ?_, fun hle => absurd hle (by decide)⟩
  · intro hsign
    rw [Token.eq_of_sign? hsign] at h
    cases h
  · intro hsign
    rw [Token.eq_of_sign? hsign] at h
    cases h
  · intro hword
    rw [Token.eq_of_word? hword] at h
    cases h

theorem Legible.front {t : Token} {op : FrontOperator} (hop : frontOperator? t = some op)
    (h : Legible ts x 14) (hx : ∀ update, op = .update update → x.isReference = true) :
    Legible (t :: ts) (op.applied x) 14 := by
  refine ⟨⟨t, ts, rfl, opens_of_frontOperator? hop⟩, by cases op <;> rfl, ?_⟩
  intro n c hn hc rest hrest
  have hoperand : Reads (n.parse .unary c) (ts ++ rest) x rest :=
    .parse hn fun _ hm => h.unary hm hc rest hrest
  unfold Grammar.unary
  apply Reads.current
  rw [List.cons_append, List.headD_cons, hop]
  apply Reads.advance_bind
  apply hoperand.bind
  cases op with
  | convert op => exact .pure
  | typeOf => exact .pure
  | void => exact .pure
  | update op => exact (reads_checkAssignable (hx op rfl)).bind .pure
  | delete =>
    dsimp only
    split
    · exact .isStrict .pure
    · exact .pure

/-! ### Updates behind their target -/

theorem Legible.updateBehind (op : UpdateOp) (h : Legible ts x 16) (hx : x.isReference = true) :
    Legible (ts ++ [.punctuator op.sign]) (.update op false x) 15 := by
  refine ⟨h.opens_append (Nat.le_succ 15) _, rfl, fun n c hn hc rest hrest => ?_⟩
  have hreach : (Token.punctuator op.sign).reach? = some 15 := by cases op <;> rfl
  have hupdate : updateOperator? (.punctuator op.sign) = some op := by cases op <;> rfl
  rw [List.append_assoc, List.singleton_append]
  unfold Grammar.postfixUpdate
  apply (h.leftHandSide hn hc _ (.of_some hreach (Nat.lt_succ_self 15))).bind
  apply Reads.current
  apply Reads.afterBreak
  rw [List.headD_cons, hupdate]
  exact (reads_checkAssignable hx).bind (.advance_bind .pure)

/-! ### Powers and binary operators -/

theorem Legible.exponent (hx : Legible ts x 15) (hy : Legible us y 13) :
    Legible (ts ++ .punctuator .exponent :: us) (.binary .exp x y) 13 := by
  refine ⟨hx.opens_append (by decide) _, rfl, fun n c hn hc rest hrest => ?_⟩
  have hbase : Reads (Grammar.unary n c) (ts ++ .punctuator .exponent :: (us ++ rest)) x
      (.punctuator .exponent :: (us ++ rest)) :=
    (hx.lower (by decide)).unary hn hc _ (.of_some rfl (by decide))
  have hright : Reads (n.parse .power c) (us ++ rest) y rest :=
    .parse hn fun _ hm => hy.power hm hc rest hrest
  -- the base begins with no operator in front, so the sign of the power is not barred
  have hfront : frontOperator? ((ts ++ .punctuator .exponent :: us ++ rest).headD .endOfInput) =
      none := by
    obtain ⟨t, ts', rfl, ht⟩ := hx.opens
    exact ht.ne_front (Nat.le_refl _)
  unfold Grammar.power
  apply Reads.current
  rw [hfront, List.append_assoc, List.cons_append]
  apply hbase.bind
  apply Reads.atSign
  apply Reads.advance_bind
  exact hright.bind .pure

theorem binaryOperator?_token {op : BinaryOp} (hop : op ≠ .exp) (hc : c.noIn = false) :
    binaryOperator? c op.token = some (op, op.level - 4) := by
  cases op with
  | exp => exact absurd rfl hop
  | hasKey =>
    change (if c.noIn then none else some (BinaryOp.hasKey, 5)) = _
    rw [hc]
    rfl
  | _ => rfl

theorem level_bounds {op : BinaryOp} (hop : op ≠ .exp) : 5 ≤ op.level ∧ op.level ≤ 12 := by
  cases op with
  | exp => exact absurd rfl hop
  | _ => decide

theorem Legible.binaryOp {op : BinaryOp} (hop : op ≠ .exp) (hx : Legible ts x op.level)
    (hy : Legible us y (op.level + 1)) :
    Legible (ts ++ op.token :: us) (.binary op x y) op.level := by
  refine ⟨hx.opens_append (Nat.le_refl _) _, rfl, fun n c hn hc => ?_⟩
  obtain ⟨h5, h12⟩ := level_bounds hop
  have hoperator := binaryOperator?_token hop hc
  have hreach : op.token.reach? = some op.level := by
    rw [reach?_of_binaryOperator? hc hoperator, Nat.sub_add_cancel (by omega)]
  have hgoes := hx.readsAt n c hn hc
  rw [readsAt_binary h5 h12] at hgoes ⊢
  intro strength hstrength
  apply (hgoes strength hstrength).round
  · exact fun rest => .of_some hreach (Nat.lt_succ_self _)
  intro rest z rest' hrest hloop rounds
  have hright : Reads (n.parse (.binary (op.level - 4)) c) (us ++ rest) y rest := by
    refine .parse hn fun _ hm => Legible.binary ?_ (by omega) hm hc rest ?_
    · rwa [show op.level - 4 + 5 = op.level + 1 by omega]
    · exact hrest.mono (by omega)
  cases rounds with
  | zero => exact .exhausted
  | succ rounds =>
    unfold binaryRest
    apply Reads.current
    rw [List.cons_append, List.headD_cons, hoperator]
    dsimp only
    rw [if_neg (by omega)]
    apply Reads.advance_bind
    exact hright.bind (hloop rounds)

/-! ### Logical operators -/

theorem reads_logicalRest_round {sign : Punctuator} {op : LogicalOp} {operand : Parser Expr}
    (hy : ReadsAs operand level us y) (hrest : Stops level rest)
    (hloop : ∀ rounds, Reads (logicalRest sign op operand rounds (.logical op x y)) rest z rest')
    (rounds : Nat) :
    Reads (logicalRest sign op operand rounds x) (.punctuator sign :: us ++ rest) z rest' := by
  cases rounds with
  | zero => exact .exhausted
  | succ rounds =>
    unfold logicalRest
    apply Reads.eat
    exact (hy rest hrest).bind (hloop rounds)

theorem Legible.logicalOp (op : LogicalOp) (hx : Legible ts x op.level)
    (hy : Legible us y (op.level + 1)) :
    Legible (ts ++ .punctuator op.sign :: us) (.logical op x y) op.level := by
  refine ⟨hx.opens_append (Nat.le_refl _) _, rfl, fun n c hn hc => ?_⟩
  have hgoes := hx.readsAt n c hn hc
  have hstops (rest : List Token) : Stops (op.level + 1) (.punctuator op.sign :: us ++ rest) := by
    refine .of_some (k := op.level) ?_ (Nat.lt_succ_self _)
    cases op <;> rfl
  cases op with
  | and =>
    refine GoesOn.round hgoes hstops fun rest z rest' hrest hloop => ?_
    exact reads_logicalRest_round (Legible.binary hy (Nat.zero_le 8) hn hc) hrest hloop
  | or =>
    refine GoesOn.round hgoes hstops fun rest z rest' hrest hloop => ?_
    exact reads_logicalRest_round (Legible.conjunction hy hn hc) hrest hloop
  | coalesce =>
    refine GoesOn.round hgoes hstops fun rest z rest' hrest hloop => ?_
    exact reads_logicalRest_round (Legible.disjunction hy hn hc) hrest hloop

/-! ### Conditionals, assignments and sequences -/

theorem Legible.conditionalOp (hx : Legible ts x 2) (hy : Legible us y 1) (hz : Legible vs z 1) :
    Legible (ts ++ .punctuator .question :: (us ++ .punctuator .colon :: vs)) (.conditional x y z)
      1 := by
  refine ⟨hx.opens_append (by decide) _, rfl, fun n c hn hc => readsAs_assignment ?_ rfl⟩
  intro rest hrest
  simp only [List.append_assoc, List.cons_append]
  unfold Grammar.conditional
  apply (hx.coalescing hn hc _ (.of_some (t := .punctuator .question) rfl (by decide))).bind
  apply Reads.eat
  apply (hy.parse_assignment hn rfl false _ (.of_none (t := .punctuator .colon) rfl)).bind
  apply Reads.expect.bind
  exact (hz.parse_assignment hn hc false rest hrest).bind .pure

theorem Legible.assignOp {sign : Punctuator} {op : Option BinaryOp}
    (hop : assignmentOfSign? sign = some op) (hx : Legible ts x 16) (href : x.isReference = true)
    (hy : Legible us y 1) : Legible (ts ++ .punctuator sign :: us) (.assign op x y) 1 := by
  refine ⟨hx.opens_append (by decide) _, rfl, fun n c hn hc cover rest hrest => ?_⟩
  have hreach : (Token.punctuator sign).reach? = some 1 := reach?_of_assignmentOperator? hop
  have hquestion : sign ≠ .question := by
    rintro rfl
    cases hop
  have htarget : Reads (Grammar.conditional n c) (ts ++ .punctuator sign :: (us ++ rest)) x
      (.punctuator sign :: (us ++ rest)) :=
    (hx.of_le (by decide) (by decide)).conditional hn hc (.of_some hreach (by decide))
      fun h => hquestion (Option.some.inj h)
  have hliteral : isLiteralPattern x = false := by
    cases x with
    | identifier name => rfl
    | member object key => rfl
    | _ => cases href
  rw [List.append_assoc, List.cons_append]
  unfold Grammar.assignment
  apply htarget.bind
  apply Reads.current
  rw [List.headD_cons, show assignmentOperator? (.punctuator sign) = some op from hop]
  dsimp only
  rw [hliteral, Bool.and_false, if_neg Bool.false_ne_true]
  apply (reads_checkAssignable href).bind
  apply Reads.advance_bind
  exact (hy.parse_assignment hn hc false rest hrest).bind .pure

theorem Legible.sequenceOp (hx : Legible (x.tokens 1) x 1)
    (hxs : ∀ z ∈ y :: xs, Legible (z.tokens 1) z 1) :
    Legible (Expr.listed (x :: y :: xs)) (.sequence (x :: y :: xs)) 0 := by
  refine ⟨hx.opens_append (Nat.zero_le 1) _, rfl, fun n c hn hc first hfirst rest hrest => ?_⟩
  have hstops := stops_listedBehind (y :: xs) (hrest.mono (Nat.zero_le 1))
  have hreads : Reads first (Expr.listed (x :: y :: xs) ++ rest) x
      (Expr.listedBehind (y :: xs) ++ rest) := by
    change Reads first ((x.tokens 1 ++ Expr.listedBehind (y :: xs)) ++ rest) _ _
    rw [List.append_assoc]
    rcases hfirst with rfl | rfl
    · exact hx.assignment hn hc false _ hstops
    · exact hx.parse_assignment hn hc false _ hstops
  unfold sequenceOf
  apply hreads.bind
  apply Reads.atSign
  exact (reads_others hn hc hrest hxs n.rounds).bind .pure

/-! ### Member access and calls -/

theorem reads_memberName {name : String} (h : Text.isWord name.toList = true) :
    Reads memberName (.ofWord name :: rest) name rest := by
  unfold memberName
  apply Reads.current
  rw [List.headD_cons]
  rcases Token.word_cases h with ⟨value, rfl⟩ | rfl | ⟨word, rfl⟩ | hname
  · rw [Token.ofWord_toString]
    cases value
    · exact .advance_bind .pure
    · exact .advance_bind .pure
  · exact .advance_bind .pure
  · rw [Token.ofWord_spelling]
    exact .advance_bind .pure
  · rw [Token.ofWord_of_isFreeName hname]
    exact .advance_bind .pure

theorem Legible.dot {name : String} (h : Legible ts x 16) (hname : Text.isWord name.toList = true) :
    Legible (ts ++ [.punctuator .dot, .ofWord name]) (.member x (.dot name)) 16 := by
  refine ⟨h.opens_append (Nat.le_refl _) _, rfl, fun n c hn hc => ?_⟩
  apply GoesOn.round (h.readsAt n c hn hc)
  · exact fun rest => .of_some (t := .punctuator .dot) rfl (by decide)
  intro rest z rest' hrest hloop rounds
  cases rounds with
  | zero => exact .exhausted
  | succ rounds =>
    unfold memberSuffixes
    apply Reads.eat
    exact (reads_memberName hname).bind (hloop rounds)

theorem Legible.computed (h : Legible ts x 16) (hy : Legible us y 0) :
    Legible (ts ++ .punctuator .leftBracket :: (us ++ [.punctuator .rightBracket]))
      (.member x (.computed y)) 16 := by
  refine ⟨h.opens_append (Nat.le_refl _) _, rfl, fun n c hn hc => ?_⟩
  apply GoesOn.round (h.readsAt n c hn hc)
  · exact fun rest => .of_some (t := .punctuator .leftBracket) rfl (by decide)
  intro rest z rest' hrest hloop rounds
  have hkey : Reads (sequenceOf n c.bracketed (n.parse (.assignment false) c.bracketed))
      (us ++ .punctuator .rightBracket :: rest) y (.punctuator .rightBracket :: rest) :=
    hy.readsAt n c.bracketed hn rfl _ (.inr rfl) _ (.of_none rfl)
  rw [List.cons_append, List.append_assoc]
  cases rounds with
  | zero => exact .exhausted
  | succ rounds =>
    unfold memberSuffixes
    apply Reads.notEat (by intro h; cases h)
    apply Reads.eat
    apply hkey.bind
    exact Reads.expect.bind (hloop rounds)

theorem Legible.callOp (h : Legible ts x 16) (hxs : ∀ y ∈ xs, Legible (y.tokens 1) y 1) :
    Legible (ts ++ .punctuator .leftParen :: (Expr.listed xs ++ [.punctuator .rightParen]))
      (.call x xs) 16 := by
  refine ⟨h.opens_append (Nat.le_refl _) _, rfl, fun n c hn hc => ?_⟩
  apply GoesOn.round (h.readsAt n c hn hc)
  · exact fun rest => .of_some (t := .punctuator .leftParen) rfl (by decide)
  intro rest z rest' hrest hloop rounds
  have hlist : Reads (callArguments n c)
      (.punctuator .leftParen :: (Expr.listed xs ++ .punctuator .rightParen :: rest)) xs rest := by
    unfold callArguments
    apply Reads.expect.bind
    apply (reads_arguments hn rfl hxs n.rounds).bind
    exact Reads.expect.bind .pure
  rw [List.cons_append, List.append_assoc]
  cases rounds with
  | zero => exact .exhausted
  | succ rounds =>
    unfold memberSuffixes
    apply Reads.notEat (by intro h; cases h)
    apply Reads.notEat (by intro h; cases h)
    apply Reads.atSign
    exact hlist.bind (hloop rounds)

end Grammar

end ProtoScript
