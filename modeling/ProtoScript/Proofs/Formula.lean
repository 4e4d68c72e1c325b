import ProtoScript.Grammar.Operator
import ProtoScript.Proofs.Spelling
import ProtoScript.Grammar.Program
import ProtoScript.Proofs.Grammar.Yields
import ProtoScript.Proofs.Spelling.Tokens
import ProtoScript.Proofs.TokenReading
/-!
# Formulas and how they are written

A formula is an expression that operators, member access and calls build from names and from
literals that are no numbers.  Every expression has a level, which says how tightly the operator
binds that it is made by:

* 0: sequences; 1: assignments and conditionals
* 2: `??`; 3: `||`; 4: `&&`
* 5: `|`; 6: `^`; 7: `&`; 8: equality; 9: relations; 10: shifts; 11: sums; 12: products; 13: powers
* 14: operators in front of their operand; 15: updates behind their target
* 16: calls and member access; 17: names, literals and `this`

Every place of an operand asks for a level.  An operand that has a lower one is written between
parentheses there.
-/

namespace ProtoScript

/-! ### Operators -/

def BinaryOp.token : BinaryOp → Token
  | .add => .punctuator .plus
  | .sub => .punctuator .minus
  | .mul => .punctuator .star
  | .div => .punctuator .slash
  | .mod => .punctuator .percent
  | .exp => .punctuator .exponent
  | .eq => .punctuator .equal
  | .notEq => .punctuator .notEqual
  | .strictEq => .punctuator .strictEqual
  | .strictNotEq => .punctuator .strictNotEqual
  | .lt => .punctuator .lessThan
  | .gt => .punctuator .greaterThan
  | .ltEq => .punctuator .lessThanEqual
  | .gtEq => .punctuator .greaterThanEqual
  | .leftShift => .punctuator .leftShift
  | .rightShift => .punctuator .rightShift
  | .unsignedRightShift => .punctuator .unsignedRightShift
  | .bitAnd => .punctuator .ampersand
  | .bitOr => .punctuator .pipe
  | .bitXor => .punctuator .caret
  | .hasKey => .keyword .inWord
  | .instanceOf => .keyword .instanceofWord

def BinaryOp.level : BinaryOp → Nat
  | .bitOr => 5
  | .bitXor => 6
  | .bitAnd => 7
  | .eq | .notEq | .strictEq | .strictNotEq => 8
  | .lt | .gt | .ltEq | .gtEq | .hasKey | .instanceOf => 9
  | .leftShift | .rightShift | .unsignedRightShift => 10
  | .add | .sub => 11
  | .mul | .div | .mod => 12
  | .exp => 13

/-- The level that the left operand needs.  No operator in front goes with the base of a power. -/
def BinaryOp.leftLevel (op : BinaryOp) : Nat := if op = .exp then 15 else op.level

/-- The level that the right operand needs.  Powers associate to the right. -/
def BinaryOp.rightLevel (op : BinaryOp) : Nat := if op = .exp then 13 else op.level + 1

def LogicalOp.sign : LogicalOp → Punctuator
  | .and => .logicalAnd
  | .or => .logicalOr
  | .coalesce => .nullishCoalescing

def LogicalOp.level : LogicalOp → Nat
  | .coalesce => 2
  | .or => 3
  | .and => 4

def UnaryOp.sign : UnaryOp → Punctuator
  | .plus => .plus
  | .minus => .minus
  | .bitNot => .tilde
  | .not => .bang

def UpdateOp.sign : UpdateOp → Punctuator
  | .increment => .increment
  | .decrement => .decrement

/-- The sign of an assignment that combines with an operator.  Not every operator has one. -/
def assignmentSign : Option BinaryOp → Punctuator
  | some .add => .plusAssign
  | some .sub => .minusAssign
  | some .mul => .starAssign
  | some .div => .slashAssign
  | some .mod => .percentAssign
  | some .exp => .exponentAssign
  | some .leftShift => .leftShiftAssign
  | some .rightShift => .rightShiftAssign
  | some .unsignedRightShift => .unsignedRightShiftAssign
  | some .bitAnd => .ampersandAssign
  | some .bitOr => .pipeAssign
  | some .bitXor => .caretAssign
  | _ => .assign

/-! ### Formulas -/

/-- Whether the expression is a name or a member, to which a value can be assigned. -/
def Expr.isReference : Expr → Bool
  | .identifier _ => true
  | .member _ _ => true
  | _ => false

/-- Expressions that operators, member access and calls build from names and from literals that are
no numbers. -/
inductive Expr.Formula : Expr → Prop
  | identifier {name : String} : Token.IsFreeName name → Formula (.identifier name)
  | null : Formula (.literal .null)
  | boolean (value : Bool) : Formula (.literal (.boolean value))
  | string (value : String) : Formula (.literal (.string value))
  | this : Formula .this
  | unary (op : UnaryOp) {x : Expr} : Formula x → Formula (.unary op x)
  | typeOf {x : Expr} : Formula x → Formula (.typeOf x)
  | void {x : Expr} : Formula x → Formula (.void x)
  | delete {x : Expr} : Formula x → Formula (.delete x)
  | update (op : UpdateOp) (inFront : Bool) {target : Expr} : Formula target →
    target.isReference = true → Formula (.update op inFront target)
  | assign (op : Option BinaryOp) {target value : Expr} :
    Grammar.assignmentOfSign? (assignmentSign op) = some op → Formula target →
    target.isReference = true → Formula value → Formula (.assign op target value)
  | binary (op : BinaryOp) {left right : Expr} : Formula left → Formula right →
    Formula (.binary op left right)
  | logical (op : LogicalOp) {left right : Expr} : Formula left → Formula right →
    Formula (.logical op left right)
  | conditional {test consequent alternate : Expr} : Formula test → Formula consequent →
    Formula alternate → Formula (.conditional test consequent alternate)
  | dot {object : Expr} {name : String} : Formula object → Text.isWord name.toList = true →
    Formula (.member object (.dot name))
  | computed {object key : Expr} : Formula object → Formula key →
    Formula (.member object (.computed key))
  | call {callee : Expr} {arguments : List Expr} : Formula callee →
    (∀ x ∈ arguments, Formula x) → Formula (.call callee arguments)
  | sequence {expressions : List Expr} : 2 ≤ expressions.length →
    (∀ x ∈ expressions, Formula x) → Formula (.sequence expressions)

/-! ### Writing -/

def Expr.level : Expr → Nat
  | .sequence _ => 0
  | .assign _ _ _ => 1
  | .conditional _ _ _ => 1
  | .logical op _ _ => op.level
  | .binary op _ _ => op.level
  | .unary _ _ => 14
  | .typeOf _ => 14
  | .void _ => 14
  | .delete _ => 14
  | .update _ inFront _ => if inFront then 14 else 15
  | .call _ _ => 16
  | .member _ _ => 16
  | _ => 17

def Literal.token : Literal → Token
  | .null => .null
  | .boolean value => .boolean value
  | .number value => .number value
  | .string value => .string value

/-- The tokens of an expression at a place that asks for a level. -/
def Expr.enclosed (x : Expr) (level : Nat) (tokens : List Token) : List Token :=
  if x.level < level then .punctuator .leftParen :: (tokens ++ [.punctuator .rightParen])
  else tokens

mutual

/-- The tokens of a formula where nothing asks for a level. -/
def Expr.bare : Expr → List Token
  | .identifier name => [.identifier name]
  | .literal value => [value.token]
  | .this => [.keyword .thisWord]
  | .unary op x => .punctuator op.sign :: x.enclosed 14 x.bare
  | .typeOf x => .keyword .typeofWord :: x.enclosed 14 x.bare
  | .void x => .keyword .voidWord :: x.enclosed 14 x.bare
  | .delete x => .keyword .deleteWord :: x.enclosed 14 x.bare
  | .update op true x => .punctuator op.sign :: x.enclosed 14 x.bare
  | .update op false x => x.enclosed 16 x.bare ++ [.punctuator op.sign]
  | .assign op target value =>
    target.enclosed 16 target.bare ++ .punctuator (assignmentSign op) :: value.enclosed 1 value.bare
  | .binary op left right =>
    left.enclosed op.leftLevel left.bare ++ op.token :: right.enclosed op.rightLevel right.bare
  | .logical op left right =>
    left.enclosed op.level left.bare ++
      .punctuator op.sign :: right.enclosed (op.level + 1) right.bare
  | .conditional test consequent alternate =>
    test.enclosed 2 test.bare ++ .punctuator .question :: (consequent.enclosed 1 consequent.bare ++
      .punctuator .colon :: alternate.enclosed 1 alternate.bare)
  | .member object key => object.enclosed 16 object.bare ++ key.tokens
  | .call callee arguments =>
    callee.enclosed 16 callee.bare ++
      .punctuator .leftParen :: (Expr.listed arguments ++ [.punctuator .rightParen])
  | .sequence expressions => Expr.listed expressions
  | _ => []

def MemberKey.tokens : MemberKey → List Token
  | .dot name => [.punctuator .dot, .ofWord name]
  | .computed key =>
    .punctuator .leftBracket :: (key.enclosed 0 key.bare ++ [.punctuator .rightBracket])

def Expr.listed : List Expr → List Token
  | [] => []
  | x :: rest => x.enclosed 1 x.bare ++ Expr.listedBehind rest

def Expr.listedBehind : List Expr → List Token
  | [] => []
  | x :: rest => .punctuator .comma :: (x.enclosed 1 x.bare ++ Expr.listedBehind rest)

end

/-- The tokens of a formula at a place that asks for a level: it stands between parentheses there if
its own level is too low. -/
def Expr.tokens (x : Expr) (level : Nat) : List Token := x.enclosed level x.bare

namespace Expr

variable {x : Expr} {level : Nat}

theorem tokens_of_le (h : level ≤ x.level) : x.tokens level = x.bare := if_neg (by omega)

theorem tokens_of_lt (h : x.level < level) :
    x.tokens level = .punctuator .leftParen :: (x.bare ++ [.punctuator .rightParen]) := if_pos h

end Expr

/-!
### Rules that read given tokens

`Shows` says which tokens a stream of sloppy code still has, and `Reads` that a rule makes a result
of given tokens and leaves the ones behind.  The bound of a rule is left open here: where it is too
low the rule may run into it.
-/

namespace TokenStream

/-- A stream that stands in front of the given tokens, spelled out with spaces between them. -/
structure Shows (s : TokenStream) (ts : List Token) : Prop where
  strict : s.strict = false
  afterBreak : s.afterBreak = false
  ahead : s.ahead = none
  current : s.current = ts.headD .endOfInput
  behind : Token.Behind ts.tail s.cursor.rest

theorem readToken_behind {ts : List Token} {c : Cursor} (h : Token.Behind ts c.rest) :
    ∃ d, readToken false c false = .ok (ts.headD .endOfInput, false, d) ∧
      Token.Behind ts.tail d.rest := by
  generalize hc : c.rest = cs at h
  cases h with
  | nil =>
    obtain ⟨l, hl, hend⟩ : ∃ l, Token.next false c = .ok l ∧ l.token = .endOfInput :=
      Token.next_of_rest_nil hc
    refine ⟨l.next, ?_, ?_⟩
    · rw [readToken_of_next hl (by rw [hend]; nofun), hend]
      rfl
    · rw [Token.rest_of_endOfInput hl hend]
      exact .nil
  | @cons t ts written rest ht hrest =>
    obtain ⟨d, hd, hnext⟩ := readToken_spelled false ht hrest.isGap (.inr hc)
    refine ⟨d, hd, ?_⟩
    rw [hnext]
    exact hrest

theorem Shows.advance {s : TokenStream} {t : Token} {ts : List Token} (h : s.Shows (t :: ts)) :
    ∃ u, Parser.advance s = .ok () u ∧ u.Shows ts := by
  obtain ⟨d, hd, hbehind⟩ := readToken_behind h.behind
  rw [List.tail_cons] at hd
  unfold Parser.advance
  rw [h.ahead, h.strict]
  dsimp only
  rw [hd]
  exact ⟨_, rfl, rfl, rfl, rfl, rfl, hbehind⟩

theorem shows_ofString {source : String} {ts : List Token} (h : Token.Spells ts source.toList) :
    ∃ s, TokenStream.ofString source = .ok s ∧ s.Shows ts := by
  have hfirst : ∃ d, readToken false (Cursor.ofString source) false =
      .ok (ts.headD .endOfInput, false, d) ∧ Token.Behind ts.tail d.rest := by
    generalize hsource : source.toList = cs at h
    cases h with
    | nil =>
      refine @readToken_behind [] _ ?_
      rw [Cursor.ofString, hsource]
      exact .nil
    | cons ht hrest =>
      obtain ⟨d, hd, hnext⟩ := readToken_spelled false ht hrest.isGap (c := .ofString source)
        (.inl hsource)
      refine ⟨d, hd, ?_⟩
      rw [hnext]
      exact hrest
  obtain ⟨d, hd, hbehind⟩ := hfirst
  unfold TokenStream.ofString
  rw [hd]
  exact ⟨_, rfl, rfl, rfl, rfl, rfl, hbehind⟩

end TokenStream

namespace Grammar

variable {α β : Type} {ts us rest : List Token}

/-- The rule makes a result of given tokens and leaves the ones behind, or runs into its bound. -/
def Reads (p : Parser α) (ts : List Token) (a : α) (rest : List Token) : Prop :=
  ∀ s : TokenStream, s.Shows ts → match p s with
    | .ok b t => b = a ∧ t.Shows rest
    | .error e _ => e = .outOfFuel

namespace Reads

theorem pure {a : α} : Reads (pure a) ts a ts := fun _ hs => ⟨rfl, hs⟩

theorem exhausted {a : α} : Reads (throw .outOfFuel) ts a rest := fun _ _ => rfl

theorem bind {p : Parser α} {f : α → Parser β} {a : α} {b : β} (hp : Reads p ts a us)
    (hf : Reads (f a) us b rest) : Reads (p >>= f) ts b rest := by
  intro s hs
  have h := hp s hs
  simp only [Bind.bind, EStateM.bind]
  cases hr : p s with
  | error e t =>
    rw [hr] at h
    exact h
  | ok a' t =>
    rw [hr] at h
    obtain ⟨rfl, ht⟩ := h
    exact hf t ht

theorem advance {t : Token} : Reads Parser.advance (t :: ts) () ts := by
  intro s hs
  obtain ⟨u, hu, hshows⟩ := hs.advance
  rw [hu]
  exact ⟨rfl, hshows⟩

theorem advance_bind {t : Token} {f : Unit → Parser β} {b : β} (h : Reads (f ()) ts b rest) :
    Reads (Parser.advance >>= f) (t :: ts) b rest :=
  bind advance h

theorem current {f : Token → Parser β} {b : β} (h : Reads (f (ts.headD .endOfInput)) ts b rest) :
    Reads (Parser.current >>= f) ts b rest := by
  intro s hs
  rw [current_bind, hs.current]
  exact h s hs

theorem isStrict {f : Bool → Parser β} {b : β} (h : Reads (f false) ts b rest) :
    Reads (Parser.isStrict >>= f) ts b rest := by
  intro s hs
  change match f s.strict s with | .ok _ _ => _ | .error _ _ => _
  rw [hs.strict]
  exact h s hs

theorem afterBreak {f : Bool → Parser β} {b : β} (h : Reads (f false) ts b rest) :
    Reads (Parser.afterBreak >>= f) ts b rest := by
  intro s hs
  rw [afterBreak_bind, hs.afterBreak]
  exact h s hs

theorem atSign {sign : Punctuator} {f : Bool → Parser β} {b : β}
    (h : Reads (f true) (.punctuator sign :: ts) b rest) :
    Reads (Parser.atSign sign >>= f) (.punctuator sign :: ts) b rest := by
  intro s hs
  rw [atSign_bind, hs.current, List.headD_cons, Token.sign?, beq_self_eq_true]
  exact h s hs

theorem notAtSign {sign : Punctuator} {f : Bool → Parser β} {b : β}
    (hne : (ts.headD .endOfInput).sign? ≠ some sign) (h : Reads (f false) ts b rest) :
    Reads (Parser.atSign sign >>= f) ts b rest := by
  intro s hs
  rw [atSign_bind, hs.current, beq_eq_false_iff_ne.mpr hne]
  exact h s hs

theorem notAtWord {word : Keyword} {f : Bool → Parser β} {b : β}
    (hne : (ts.headD .endOfInput).word? ≠ some word) (h : Reads (f false) ts b rest) :
    Reads (Parser.atWord word >>= f) ts b rest := by
  intro s hs
  rw [atWord_bind, hs.current, beq_eq_false_iff_ne.mpr hne]
  exact h s hs

theorem eat {sign : Punctuator} {f : Bool → Parser β} {b : β} (h : Reads (f true) ts b rest) :
    Reads (Parser.eat sign >>= f) (.punctuator sign :: ts) b rest := by
  rw [eat_bind]
  exact atSign (advance_bind h)

theorem notEat {sign : Punctuator} {f : Bool → Parser β} {b : β}
    (hne : (ts.headD .endOfInput).sign? ≠ some sign) (h : Reads (f false) ts b rest) :
    Reads (Parser.eat sign >>= f) ts b rest := by
  rw [eat_bind]
  exact notAtSign hne h

theorem expect {sign : Punctuator} : Reads (Parser.expect sign) (.punctuator sign :: ts) () ts := by
  unfold Parser.expect
  exact atSign advance

end Reads

end Grammar

end ProtoScript
