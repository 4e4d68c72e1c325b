import ProtoScript.Proofs.Cover.Expression
import ProtoScript.Proofs.Formula
/-!
# The grammar rules level by level

Each level has a rule that reads the expressions of that level and of all higher ones, as long as
the token behind them does not go on with an expression at the level.  `Legible` says that given
tokens are read so.  A rule calls the rule of the next level first, so what is legible at a level is
legible at every lower one.
-/

namespace ProtoScript

open Grammar

theorem Token.eq_of_sign? {t : Token} {sign : Punctuator} (h : t.sign? = some sign) :
    t = .punctuator sign := by
  cases t with
  | punctuator sign' => rw [Option.some.inj h]
  | _ => cases h

theorem Token.eq_of_word? {t : Token} {word : Keyword} (h : t.word? = some word) :
    t = .keyword word := by
  cases t with
  | keyword word' => rw [Option.some.inj h]
  | _ => cases h

def Token.reach? : Token → Option Nat
  | .punctuator .arrow => some 17
  | .punctuator .dot => some 16
  | .punctuator .leftBracket => some 16
  | .punctuator .leftParen => some 16
  | .punctuator .increment => some 15
  | .punctuator .decrement => some 15
  | .punctuator .exponent => some 13
  | .punctuator .logicalAnd => some 4
  | .punctuator .logicalOr => some 3
  | .punctuator .nullishCoalescing => some 2
  | .punctuator .question => some 1
  | .punctuator .comma => some 0
  | token => match binaryOperator? .program token with
    | some (_, own) => some (own + 4)
    | none => (assignmentOperator? token).map fun _ => 1

namespace Grammar

variable {ts us rest : List Token} {x : Expr} {level : Nat} {n : Nesting} {c : Context}

/-- The first of the tokens does not go on with an expression at the level or at a higher one. -/
def Stops (level : Nat) (ts : List Token) : Prop :=
  ∀ k, (ts.headD .endOfInput).reach? = some k → k < level

namespace Stops

theorem nil : Stops level [] := by
  intro k hk
  cases hk

theorem of_none {t : Token} (h : t.reach? = none) : Stops level (t :: ts) := by
  intro k hk
  cases h.symm.trans hk

theorem of_some {t : Token} {k : Nat} (h : t.reach? = some k) (hk : k < level) :
    Stops level (t :: ts) := by
  intro k' hk'
  obtain rfl : k = k' := Option.some.inj (h.symm.trans hk')
  exact hk

theorem mono {higher : Nat} (h : Stops level ts) (hle : level ≤ higher) : Stops higher ts :=
  fun k hk => Nat.lt_of_lt_of_le (h k hk) hle

theorem sign? (h : Stops level ts) {sign : Punctuator} {k : Nat}
    (hk : (Token.punctuator sign).reach? = some k) (hle : level ≤ k) :
    (ts.headD .endOfInput).sign? ≠ some sign := by
  intro hsign
  have hhead := Token.eq_of_sign? hsign
  have := h k (by rw [hhead]; exact hk)
  omega

end Stops

theorem reach?_of_binaryOperator? {t : Token} {op : BinaryOp} {own : Nat} (hc : c.noIn = false)
    (h : binaryOperator? c t = some (op, own)) : t.reach? = some (own + 4) := by
  cases t with
  | punctuator sign => cases sign <;> cases h <;> rfl
  | keyword word =>
    cases word with
    | instanceofWord => cases h; rfl
    | inWord =>
      rw [binaryOperator?, hc] at h
      cases h
      rfl
    | _ => cases h
  | _ => cases h

theorem reach?_of_assignmentOperator? {t : Token} {op : Option BinaryOp}
    (h : assignmentOperator? t = some op) : t.reach? = some 1 := by
  cases t with
  | punctuator sign => cases sign <;> cases h <;> rfl
  | _ => cases h

theorem reach?_of_updateOperator? {t : Token} {op : UpdateOp} (h : updateOperator? t = some op) :
    t.reach? = some 15 := by
  cases t with
  | punctuator sign => cases sign <;> cases h <;> rfl
  | _ => cases h

/-! ### Reading at a level -/

/-- The rule reads the tokens as an expression if what is behind them does not go on with it. -/
def ReadsAs (rule : Parser Expr) (level : Nat) (ts : List Token) (x : Expr) : Prop :=
  ∀ rest, Stops level rest → Reads rule (ts ++ rest) x rest

/-- The rule reads the tokens as an expression and goes on behind it with a loop.  The loop takes
operators of the level that associate to the left. -/
def GoesOn (loop : Nat → Expr → Parser Expr) (rule : Parser Expr) (level : Nat) (ts : List Token)
    (x : Expr) : Prop :=
  ∀ rest y rest', Stops (level + 1) rest → (∀ rounds, Reads (loop rounds x) rest y rest') →
    Reads rule (ts ++ rest) y rest'

namespace GoesOn

variable {loop : Nat → Expr → Parser Expr} {rule : Parser Expr}

theorem first {first : Parser Expr} (h : ReadsAs first (level + 1) ts x) (rounds : Nat) :
    GoesOn loop (first >>= loop rounds) level ts x :=
  fun rest _ _ hrest hloop => (h rest hrest).bind (hloop rounds)

/-- Where nothing goes on with the expression, the loop ends with it. -/
theorem stop (h : GoesOn loop rule level ts x)
    (hstop : ∀ rest, Stops level rest → ∀ rounds, Reads (loop rounds x) rest x rest) :
    ReadsAs rule level ts x :=
  fun rest hrest => h rest x rest (hrest.mono (Nat.le_succ level)) (hstop rest hrest)

theorem mono {lower : Nat} (h : GoesOn loop rule level ts x) (hle : lower ≤ level) :
    GoesOn loop rule lower ts x :=
  fun rest y rest' hrest => h rest y rest' (hrest.mono (Nat.succ_le_succ hle))

/-- One more round of the loop, which makes `y` of `x` and the tokens `us` behind it. -/
theorem round {y : Expr} (h : GoesOn loop rule level ts x)
    (hus : ∀ rest, Stops (level + 1) (us ++ rest))
    (hround : ∀ rest z rest', Stops (level + 1) rest →
      (∀ rounds, Reads (loop rounds y) rest z rest') →
      ∀ rounds, Reads (loop rounds x) (us ++ rest) z rest') :
    GoesOn loop rule level (ts ++ us) y := by
  intro rest z rest' hrest hloop
  rw [List.append_assoc]
  exact h _ z rest' (hus rest) (hround rest z rest' hrest hloop)

end GoesOn

theorem reads_logicalRest_stop {sign : Punctuator} {op : LogicalOp} {operand : Parser Expr}
    (hsign : (rest.headD .endOfInput).sign? ≠ some sign) (rounds : Nat) :
    Reads (logicalRest sign op operand rounds x) rest x rest := by
  cases rounds with
  | zero => exact .exhausted
  | succ rounds =>
    unfold logicalRest
    exact .notEat hsign .pure

theorem reads_binaryRest_stop (hc : c.noIn = false) {strength : Nat}
    (hrest : Stops (strength + 5) rest) (rounds : Nat) :
    Reads (binaryRest n c strength rounds x) rest x rest := by
  cases rounds with
  | zero => exact .exhausted
  | succ rounds =>
    unfold binaryRest
    refine .current ?_
    cases hop : binaryOperator? c (rest.headD .endOfInput) with
    | none => exact .pure
    | some found =>
      obtain ⟨op, own⟩ := found
      have := hrest _ (reach?_of_binaryOperator? hc hop)
      dsimp only
      rw [if_pos (by omega)]
      exact .pure

theorem reads_memberSuffixes_stop (hrest : Stops 16 rest) (rounds : Nat) :
    Reads (memberSuffixes n c true rounds x) rest x rest := by
  cases rounds with
  | zero => exact .exhausted
  | succ rounds =>
    unfold memberSuffixes
    refine .notEat (hrest.sign? rfl (Nat.le_refl _)) ?_
    refine .notEat (hrest.sign? rfl (Nat.le_refl _)) ?_
    exact .notAtSign (hrest.sign? rfl (Nat.le_refl _)) .pure

theorem readsAs_assignment (h : ReadsAs (conditional n c) 1 ts x)
    (hplain : hasCoverProperty x = false) (cover : Bool) :
    ReadsAs (assignment n c cover) 1 ts x := by
  intro rest hrest
  unfold assignment
  apply (h rest hrest).bind
  apply Reads.current
  have hnone : assignmentOperator? (rest.headD .endOfInput) = none := by
    rw [Option.eq_none_iff_forall_ne_some]
    intro op hop
    exact absurd (hrest 1 (reach?_of_assignmentOperator? hop)) (Nat.lt_irrefl _)
  rw [hnone]
  dsimp only
  rw [hplain, Bool.and_false, if_neg Bool.false_ne_true]
  exact .pure

def ReadsAt (n : Nesting) (c : Context) (ts : List Token) (x : Expr) : Nat → Prop
  | 0 => ∀ first, first = assignment n c false ∨ first = n.parse (.assignment false) c →
    ReadsAs (sequenceOf n c first) 0 ts x
  | 1 => ∀ cover, ReadsAs (assignment n c cover) 1 ts x
  | 2 => GoesOn (logicalRest .nullishCoalescing .coalesce (disjunction n c)) (coalescing n c) 2 ts x
  | 3 => GoesOn (logicalRest .logicalOr .or (conjunction n c)) (disjunction n c) 3 ts x
  | 4 => GoesOn (logicalRest .logicalAnd .and (binary n c 0)) (conjunction n c) 4 ts x
  | 13 => ReadsAs (power n c) 13 ts x
  | 14 => ReadsAs (unary n c) 14 ts x
  | 15 => ReadsAs (postfixUpdate n c) 15 ts x
  | 16 => GoesOn (memberSuffixes n c true) (leftHandSide n c) 16 ts x
  | 17 => ReadsAs (primary n c) 17 ts x
  | level => ∀ strength, strength + 5 ≤ level →
    GoesOn (binaryRest n c strength) (binary n c strength) level ts x

theorem readsAt_binary (h5 : 5 ≤ level) (h12 : level ≤ 12) : ReadsAt n c ts x level =
    ∀ strength, strength + 5 ≤ level →
      GoesOn (binaryRest n c strength) (binary n c strength) level ts x := by
  have hlevel : level = 5 ∨ level = 6 ∨ level = 7 ∨ level = 8 ∨ level = 9 ∨ level = 10 ∨
      level = 11 ∨ level = 12 := by omega
  rcases hlevel with rfl | rfl | rfl | rfl | rfl | rfl | rfl | rfl <;> rfl

def Nesting.Tied (n : Nesting) : Prop := ∃ depth, n.parse = Grammar.parse depth

theorem Reads.parse {g : Goal} {a : g.Result} (hn : n.Tied)
    (h : ∀ m : Nesting, m.Tied → Reads (rule m c g) ts a rest) : Reads (n.parse g c) ts a rest := by
  obtain ⟨depth, hdepth⟩ := hn
  rw [hdepth]
  cases depth with
  | zero => exact .exhausted
  | succ depth => exact h ⟨depth + 1, Grammar.parse depth⟩ ⟨depth, rfl⟩

/-- The token can begin an expression of the level. -/
structure Opens (t : Token) (level : Nat) : Prop where
  ne_close : t.sign? ≠ some .rightParen
  ne_ellipsis : t.sign? ≠ some .ellipsis
  ne_new : t.word? ≠ some .newWord
  ne_front : 15 ≤ level → frontOperator? t = none

/-- The tokens are read as the expression by the rule of the level, in any context where `in` is an
operator. -/
structure Legible (ts : List Token) (x : Expr) (level : Nat) : Prop where
  opens : ∃ t us, ts = t :: us ∧ Opens t level
  plain : hasCoverProperty x = false
  readsAt : ∀ n c, Nesting.Tied n → c.noIn = false → ReadsAt n c ts x level

/-! ### From a level to the next lower one -/

namespace Legible

theorem opens_lower (h : Legible ts x (level + 1)) : ∃ t us, ts = t :: us ∧ Opens t level := by
  obtain ⟨t, us, hts, ht⟩ := h.opens
  exact ⟨t, us, hts, ht.ne_close, ht.ne_ellipsis, ht.ne_new, fun hle => ht.ne_front (by omega)⟩

theorem assignment (h : Legible ts x 1) (hn : n.Tied) (hc : c.noIn = false) (cover : Bool) :
    ReadsAs (Grammar.assignment n c cover) 1 ts x := h.readsAt n c hn hc cover

theorem parse_assignment (h : Legible ts x 1) (hn : n.Tied) (hc : c.noIn = false) (cover : Bool) :
    ReadsAs (n.parse (.assignment cover) c) 1 ts x :=
  fun rest hrest => .parse hn fun _ hm => h.assignment hm hc cover rest hrest

theorem coalescing (h : Legible ts x 2) (hn : n.Tied) (hc : c.noIn = false) :
    ReadsAs (Grammar.coalescing n c) 2 ts x := by
  apply GoesOn.stop (h.readsAt n c hn hc)
  intro rest hrest
  exact reads_logicalRest_stop (hrest.sign? rfl (Nat.le_refl _))

theorem disjunction (h : Legible ts x 3) (hn : n.Tied) (hc : c.noIn = false) :
    ReadsAs (Grammar.disjunction n c) 3 ts x := by
  apply GoesOn.stop (h.readsAt n c hn hc)
  intro rest hrest
  exact reads_logicalRest_stop (hrest.sign? rfl (Nat.le_refl _))

theorem conjunction (h : Legible ts x 4) (hn : n.Tied) (hc : c.noIn = false) :
    ReadsAs (Grammar.conjunction n c) 4 ts x := by
  apply GoesOn.stop (h.readsAt n c hn hc)
  intro rest hrest
  exact reads_logicalRest_stop (hrest.sign? rfl (Nat.le_refl _))

theorem power (h : Legible ts x 13) (hn : n.Tied) (hc : c.noIn = false) :
    ReadsAs (Grammar.power n c) 13 ts x := h.readsAt n c hn hc

theorem unary (h : Legible ts x 14) (hn : n.Tied) (hc : c.noIn = false) :
    ReadsAs (Grammar.unary n c) 14 ts x := h.readsAt n c hn hc

theorem postfixUpdate (h : Legible ts x 15) (hn : n.Tied) (hc : c.noIn = false) :
    ReadsAs (Grammar.postfixUpdate n c) 15 ts x := h.readsAt n c hn hc

theorem leftHandSide (h : Legible ts x 16) (hn : n.Tied) (hc : c.noIn = false) :
    ReadsAs (Grammar.leftHandSide n c) 16 ts x := by
  apply GoesOn.stop (h.readsAt n c hn hc)
  intro rest hrest
  exact reads_memberSuffixes_stop hrest

theorem binary {strength : Nat} (h : Legible ts x (strength + 5)) (hstrength : strength ≤ 8)
    (hn : n.Tied) (hc : c.noIn = false) :
    ReadsAs (Grammar.binary n c strength) (strength + 5) ts x := by
  by_cases height : strength = 8
  · subst height
    intro rest hrest
    exact (h.power hn hc rest hrest).bind (reads_binaryRest_stop hc hrest n.rounds)
  · have hgoes := h.readsAt n c hn hc
    rw [readsAt_binary (by omega) (by omega)] at hgoes
    apply GoesOn.stop (hgoes strength (Nat.le_refl _))
    intro rest hrest
    exact reads_binaryRest_stop hc hrest

theorem conditional (h : Legible ts x 2) (hn : n.Tied) (hc : c.noIn = false) (hrest : Stops 2 rest)
    (hquestion : (rest.headD .endOfInput).sign? ≠ some .question) :
    Reads (Grammar.conditional n c) (ts ++ rest) x rest := by
  unfold Grammar.conditional
  apply (h.coalescing hn hc rest hrest).bind
  exact .notEat hquestion .pure

theorem lower_member (h : Legible ts x 17) : Legible ts x 16 := by
  refine ⟨h.opens_lower, h.plain, fun n c hn hc rest y rest' hrest hloop => ?_⟩
  obtain ⟨t, us, rfl, ht⟩ := h.opens
  unfold Grammar.leftHandSide
  refine Reads.notAtWord ht.ne_new ?_
  exact (h.readsAt n c hn hc rest hrest).bind (hloop n.rounds)

theorem lower_update (h : Legible ts x 16) : Legible ts x 15 := by
  refine ⟨h.opens_lower, h.plain, fun n c hn hc rest hrest => ?_⟩
  unfold Grammar.postfixUpdate
  apply (h.leftHandSide hn hc rest (hrest.mono (Nat.le_succ 15))).bind
  apply Reads.current
  apply Reads.afterBreak
  have hnone : updateOperator? (rest.headD .endOfInput) = none := by
    rw [Option.eq_none_iff_forall_ne_some]
    intro op hop
    exact absurd (hrest 15 (reach?_of_updateOperator? hop)) (Nat.lt_irrefl _)
  rw [hnone]
  exact .pure

theorem lower_front (h : Legible ts x 15) : Legible ts x 14 := by
  refine ⟨h.opens_lower, h.plain, fun n c hn hc rest hrest => ?_⟩
  obtain ⟨t, us, rfl, ht⟩ := h.opens
  unfold Grammar.unary
  apply Reads.current
  rw [List.cons_append, List.headD_cons, ht.ne_front (Nat.le_refl _)]
  exact h.postfixUpdate hn hc rest (hrest.mono (Nat.le_succ 14))

theorem lower_power (h : Legible ts x 14) : Legible ts x 13 := by
  refine ⟨h.opens_lower, h.plain, fun n c hn hc rest hrest => ?_⟩
  unfold Grammar.power
  apply Reads.current
  apply (h.unary hn hc rest (hrest.mono (Nat.le_succ 13))).bind
  exact .notAtSign (hrest.sign? rfl (Nat.le_refl _)) .pure

theorem lower_product (h : Legible ts x 13) : Legible ts x 12 :=
  ⟨h.opens_lower, h.plain, fun n _ hn hc _ _ => .first (h.power hn hc) n.rounds⟩

theorem lower_binary (h : Legible ts x (level + 1)) (h5 : 5 ≤ level) (h11 : level ≤ 11) :
    Legible ts x level := by
  refine ⟨h.opens_lower, h.plain, fun n c hn hc => ?_⟩
  have hgoes := h.readsAt n c hn hc
  rw [readsAt_binary (by omega) (by omega)] at hgoes
  rw [readsAt_binary h5 (by omega)]
  intro strength hstrength
  exact (hgoes strength (by omega)).mono (Nat.le_succ level)

theorem lower_conjunction (h : Legible ts x 5) : Legible ts x 4 :=
  ⟨h.opens_lower, h.plain, fun n _ hn hc => .first (h.binary (Nat.zero_le 8) hn hc) n.rounds⟩

theorem lower_disjunction (h : Legible ts x 4) : Legible ts x 3 :=
  ⟨h.opens_lower, h.plain, fun n _ hn hc => .first (h.conjunction hn hc) n.rounds⟩

theorem lower_coalescing (h : Legible ts x 3) : Legible ts x 2 :=
  ⟨h.opens_lower, h.plain, fun n _ hn hc => .first (h.disjunction hn hc) n.rounds⟩

theorem lower_assignment (h : Legible ts x 2) : Legible ts x 1 := by
  refine ⟨h.opens_lower, h.plain, fun n c hn hc cover => readsAs_assignment ?_ h.plain cover⟩
  intro rest hrest
  exact h.conditional hn hc (hrest.mono (Nat.le_succ 1)) (hrest.sign? rfl (Nat.le_refl _))

theorem lower_sequence (h : Legible ts x 1) : Legible ts x 0 := by
  refine ⟨h.opens_lower, h.plain, fun n c hn hc first hfirst rest hrest => ?_⟩
  have hreads : ReadsAs first 1 ts x := by
    rcases hfirst with rfl | rfl
    · exact h.assignment hn hc false
    · exact h.parse_assignment hn hc false
  unfold sequenceOf
  apply (hreads rest (hrest.mono (Nat.zero_le 1))).bind
  exact .notAtSign (hrest.sign? rfl (Nat.le_refl _)) .pure

theorem lower (h : Legible ts x (level + 1)) (hlevel : level ≤ 16) : Legible ts x level := by
  by_cases hbinary : 5 ≤ level ∧ level ≤ 11
  · exact h.lower_binary hbinary.1 hbinary.2
  have hcases : level = 0 ∨ level = 1 ∨ level = 2 ∨ level = 3 ∨ level = 4 ∨ level = 12 ∨
      level = 13 ∨ level = 14 ∨ level = 15 ∨ level = 16 := by omega
  rcases hcases with rfl | rfl | rfl | rfl | rfl | rfl | rfl | rfl | rfl | rfl
  · exact h.lower_sequence
  · exact h.lower_assignment
  · exact h.lower_coalescing
  · exact h.lower_disjunction
  · exact h.lower_conjunction
  · exact h.lower_product
  · exact h.lower_power
  · exact h.lower_front
  · exact h.lower_update
  · exact h.lower_member

theorem of_le {own : Nat} (h : Legible ts x own) (hown : own ≤ 17) (hle : level ≤ own) :
    Legible ts x level := by
  obtain ⟨k, rfl⟩ := Nat.exists_eq_add_of_le hle
  induction k with
  | zero => exact h
  | succ k ih =>
    rw [← Nat.add_assoc] at h hown
    exact ih (h.lower (by omega)) (by omega) (Nat.le_add_right _ _)

end Legible

end Grammar

end ProtoScript
