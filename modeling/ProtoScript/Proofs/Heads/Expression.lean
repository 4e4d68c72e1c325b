import ProtoScript.Grammar.Program
import ProtoScript.Proofs.Grammar.Rules
import ProtoScript.Proofs.Syntax.Parts
/-!
# Heads of loops

How rules read in the head of a loop, and the rules for expressions there.
-/

namespace ProtoScript

/-!
### The word `in` in the head of a loop

In the head of a `for` loop `in` ends an expression, elsewhere it is an operator.  So a rule in such
a head goes the way that it goes elsewhere until it comes to an `in` outside of all brackets; there
it stops, with what it has read so far or with an error, and elsewhere it goes on to an expression
with that operator.
-/

/-- The expressions in an expression that have no brackets of their own around them. -/
def Expr.operands : Expr → List Expr
  | .unary _ operand => [operand]
  | .binary _ left right => [left, right]
  | .logical _ left right => [left, right]
  | .update _ _ target => [target]
  | .assign _ target value => [target, value]
  | .conditional test _ alternate => [test, alternate]
  | .call callee _ => [callee]
  | .construct callee _ => [callee]
  | .member base _ => [base]
  | .typeOf operand => [operand]
  | .void operand => [operand]
  | .delete operand => [operand]
  | .function ⟨_, .arrow, _, [.returnStmt (some value)], _⟩ => [value]
  | _ => []

/-- The expression has the operator `in`, and no brackets around it that a tree shows. -/
inductive Expr.HasIn : Expr → Prop
  | operator {left right : Expr} : HasIn (.binary .hasKey left right)
  | operand {x y : Expr} (hy : y ∈ x.operands) (h : HasIn y) : HasIn x

theorem Expr.not_hasIn_identifier (name : String) : ¬ (Expr.identifier name).HasIn
  | .operand hy _ => nomatch hy

namespace Grammar

variable {α β : Type}

def StopsAtIn (r : EStateM.Result SyntaxError TokenStream α) : Prop :=
  match r with
  | .ok _ s => s.current = .keyword .inWord
  | .error _ s => s.current = .keyword .inWord

def Waits (p : Parser α) : Prop :=
  ∀ s : TokenStream, s.current = .keyword .inWord → StopsAtIn (p s)

/-- The first rule goes the way of the second, or it stops at an `in` and the second, where it
succeeds, has a result with a property. -/
def Alike (V : α → Prop) (p q : Parser α) : Prop :=
  ∀ s, p s = q s ∨ StopsAtIn (p s) ∧ ∀ a t, q s = .ok a t → V a

namespace Waits

theorem pure (a : α) : Waits (pure a) := fun _ hs => hs

theorem fail (e : SyntaxError) : Waits (throw e : Parser α) := fun _ hs => hs

theorem bind {p : Parser α} {f : α → Parser β} (hp : Waits p) (hf : ∀ a, Waits (f a)) :
    Waits (p >>= f) := by
  intro s hs
  have h := hp s hs
  simp only [Bind.bind, EStateM.bind]
  cases hr : p s with
  | ok a t =>
    rw [hr] at h
    exact hf a t h
  | error e t =>
    rw [hr] at h
    exact h

theorem ite {c : Prop} [Decidable c] {p q : Parser α} (hp : Waits p) (hq : Waits q) :
    Waits (if c then p else q) := by
  split
  · exact hp
  · exact hq

theorem failed (e : SyntaxError) (f : α → Parser β) : Waits ((throw e : Parser α) >>= f) :=
  fun _ hs => hs

theorem current : Waits Parser.current := fun _ hs => hs

theorem afterBreak : Waits Parser.afterBreak := fun _ hs => hs

theorem isStrict : Waits Parser.isStrict := fun _ hs => hs

theorem look {f : Token → Parser β} (h : Waits (f (.keyword .inWord))) :
    Waits (Parser.current >>= f) := by
  intro s hs
  rw [current_bind, hs]
  exact h s hs

theorem atSign {sign : Punctuator} {f : Bool → Parser β} (h : Waits (f false)) :
    Waits (Parser.atSign sign >>= f) := by
  intro s hs
  rw [atSign_bind, hs]
  exact h s hs

theorem eat {sign : Punctuator} {f : Bool → Parser β} (h : Waits (f false)) :
    Waits (Parser.eat sign >>= f) := by
  rw [eat_bind]
  exact .atSign h

end Waits

namespace Alike

variable {U V : α → Prop} {W : β → Prop}

theorem refl (p : Parser α) : Alike V p p := fun _ => .inl rfl

theorem bind {p q : Parser α} {f g : α → Parser β} (hp : Alike U p q)
    (hwaits : ∀ a, Waits (f a)) (hf : ∀ a, Alike W (f a) (g a))
    (hg : ∀ a, U a → Yields (g a) W) : Alike W (p >>= f) (q >>= g) := by
  intro s
  rcases hp s with heq | ⟨hstops, hU⟩
  · simp only [Bind.bind, EStateM.bind, heq]
    cases q s with
    | ok a t => exact hf a t
    | error e t => exact .inl rfl
  refine .inr ⟨?_, fun b u hu => ?_⟩
  · simp only [Bind.bind, EStateM.bind]
    cases hr : p s with
    | ok a t =>
      rw [hr] at hstops
      exact hwaits a t hstops
    | error e t =>
      rw [hr] at hstops
      exact hstops
  · obtain ⟨a, t, ha, hb⟩ := bind_eq_ok hu
    exact hg a (hU a t ha) t b u hb

theorem after {p : Parser α} {f g : α → Parser β} (hf : ∀ a, Alike W (f a) (g a)) :
    Alike W (p >>= f) (p >>= g) := by
  intro s
  simp only [Bind.bind, EStateM.bind]
  cases p s with
  | ok a t => exact hf a t
  | error e t => exact .inl rfl

theorem ite {c : Prop} [Decidable c] {p q p' q' : Parser α} (hp : Alike V p q)
    (hq : Alike V p' q') : Alike V (if c then p else p') (if c then q else q') := by
  split
  · exact hp
  · exact hq

theorem map {p q : Parser α} {f : α → β} (hp : Alike U p q) (hU : ∀ a, U a → W (f a)) :
    Alike W (p >>= fun a => Pure.pure (f a)) (q >>= fun a => Pure.pure (f a)) :=
  hp.bind (fun _ => .pure _) (fun _ => .refl _) fun a ha => .pure (hU a ha)

end Alike

structure Nesting.Alike (n : Nesting) : Prop where
  assignment (cover : Bool) (c : Context) : Grammar.Alike Expr.HasIn
    (n.parse (.assignment cover) c.forHead) (n.parse (.assignment cover) c.bracketed)
  binary (strength : Nat) (c : Context) : Grammar.Alike Expr.HasIn
    (n.parse (.binary strength) c.forHead) (n.parse (.binary strength) c.bracketed)
  power (c : Context) : Grammar.Alike Expr.HasIn (n.parse .power c.forHead)
    (n.parse .power c.bracketed)
  unary (c : Context) : Grammar.Alike Expr.HasIn (n.parse .unary c.forHead)
    (n.parse .unary c.bracketed)
  construct (c : Context) : Grammar.Alike Expr.HasIn (n.parse .construct c.forHead)
    (n.parse .construct c.bracketed)

end Grammar

/-!
### Expressions in the head of a loop

The rules for expressions read alike in the head of a loop and elsewhere, if the rules for what is
nested in them do.  A rule that stops at an `in` is followed by rules that take nothing there; a
rule that goes on puts what it has read under the operator, and what follows it keeps that.
-/

namespace Grammar

variable {n : Nesting}

/-! ### Primary expressions -/

theorem waits_finishFunction (name : Option String) (kind : FunctionKind)
    (parameters : List Pattern) (body : List Stmt) (ownStrict : Bool) :
    Waits (finishFunction name kind parameters body ownStrict) := by
  unfold finishFunction
  refine .bind .isStrict fun strict => ?_
  dsimp only
  refine .ite (.failed _ _) (.ite ?_ (.ite ?_ (.pure _)))
  · split
    · exact .failed _ _
    · refine .ite ?_ (.pure _)
      split
      · exact .failed _ _
      · exact .pure _
  · split
    · exact .failed _ _
    · exact .pure _

theorem alike_arrowFunction (hn : n.Alike) (c : Context) (parameters : List Pattern) :
    Alike Expr.HasIn (arrowFunction n c.forHead parameters)
      (arrowFunction n c.bracketed parameters) := by
  unfold arrowFunction
  refine .after fun _ => .after fun braced => .ite (.refl _) ?_
  refine (hn.assignment false c).bind (fun value => ?_) (fun value => .refl _) ?_
  · exact .bind (waits_finishFunction _ _ _ _ _) fun _ => .pure _
  · intro value hvalue
    refine .bind (yields_finishFunction_eq _ _ _ _ _) fun d hd => .pure ?_
    obtain ⟨strict, rfl⟩ := hd
    exact .operand (List.mem_singleton_self _) hvalue

theorem alike_parenthesized (hn : n.Alike) (c : Context) :
    Alike Expr.HasIn (parenthesized n c.forHead) (parenthesized n c.bracketed) := by
  unfold parenthesized
  refine .after fun _ => .after fun found => ?_
  obtain ⟨elements, rest⟩ := found
  refine .after fun _ => .after fun arrow => .ite (.after fun strict => ?_) (.refl _)
  split
  · exact alike_arrowFunction hn c _
  · exact .refl _

theorem alike_nameOrArrow (hn : n.Alike) (c : Context) :
    Alike Expr.HasIn (nameOrArrow n c.forHead) (nameOrArrow n c.bracketed) := by
  unfold nameOrArrow
  refine .after fun name => ?_
  cases name with
  | none => exact .refl _
  | some name =>
    refine .after fun _ => .after fun arrow => .ite (.after fun _ => ?_) (.refl _)
    exact alike_arrowFunction hn c _

theorem alike_primary (hn : n.Alike) (c : Context) :
    Alike Expr.HasIn (primary n c.forHead) (primary n c.bracketed) := by
  unfold primary
  refine .after fun token => ?_
  split
  case h_2 => exact alike_nameOrArrow hn c
  case h_3 => exact alike_nameOrArrow hn c
  case h_9 => exact alike_parenthesized hn c
  all_goals exact .refl _

/-! ### Operands -/

theorem memberSuffixes_forHead (c : Context) (calls : Bool) (rounds : Nat) (x : Expr) :
    memberSuffixes n c.forHead calls rounds x = memberSuffixes n c.bracketed calls rounds x := by
  induction rounds generalizing x with
  | zero => rfl
  | succ rounds ih =>
    unfold memberSuffixes
    simp only [ih]
    rfl

theorem waits_memberSuffixes (c : Context) (calls : Bool) (rounds : Nat) (x : Expr) :
    Waits (memberSuffixes n c calls rounds x) := by
  cases rounds with
  | zero => exact .fail _
  | succ rounds =>
    unfold memberSuffixes
    refine .eat (.eat ?_)
    cases calls
    · exact .bind .current fun _ => .pure _
    · exact .atSign (.pure _)

theorem yields_memberSuffixes_hasIn (c : Context) (calls : Bool) (rounds : Nat) {x : Expr}
    (hx : x.HasIn) : Yields (memberSuffixes n c calls rounds x) Expr.HasIn := by
  induction rounds generalizing x with
  | zero => exact .fail
  | succ rounds ih =>
    unfold memberSuffixes
    refine .skip fun dot => .ite (fun _ => .skip fun name => ih ?_) fun _ => ?_
    · exact .operand (List.mem_singleton.mpr rfl) hx
    refine .skip fun bracket => .ite (fun _ => .skip fun key => .skip fun _ => ih ?_) fun _ => ?_
    · exact .operand (List.mem_singleton.mpr rfl) hx
    refine .skip fun opened => .ite (fun _ => .skip fun list => ih ?_) fun _ => .pure hx
    exact .operand (List.mem_singleton.mpr rfl) hx

theorem alike_memberSuffixes {p q : Parser Expr} (hp : Alike Expr.HasIn p q) (c : Context)
    (calls : Bool) : Alike Expr.HasIn
      (p >>= fun x => memberSuffixes n c.forHead calls n.rounds x)
      (q >>= fun x => memberSuffixes n c.bracketed calls n.rounds x) := by
  refine hp.bind (fun x => waits_memberSuffixes _ _ _ _) (fun x => ?_)
    fun x hx => yields_memberSuffixes_hasIn _ _ _ hx
  rw [memberSuffixes_forHead]
  exact .refl _

theorem alike_construct (hn : n.Alike) (c : Context) :
    Alike Expr.HasIn (construct n c.forHead) (construct n c.bracketed) := by
  unfold construct
  have hrest (p q : Parser Expr) (hp : Alike Expr.HasIn p q) : Alike Expr.HasIn
      (p >>= fun x => memberSuffixes n c.forHead false n.rounds x >>= fun callee => do
        if ← Parser.atSign .leftParen then
          return Expr.construct callee (← callArguments n c.forHead)
        else return Expr.construct callee [])
      (q >>= fun x => memberSuffixes n c.bracketed false n.rounds x >>= fun callee => do
        if ← Parser.atSign .leftParen then
          return Expr.construct callee (← callArguments n c.bracketed)
        else return Expr.construct callee []) := by
    rw [← bind_assoc, ← bind_assoc]
    refine (alike_memberSuffixes hp c false).bind (fun callee => .atSign (.pure _))
      (fun callee => .refl _) fun callee hcallee => .skip fun opened => ?_
    have hdone (list : List Expr) : (Expr.construct callee list).HasIn :=
      .operand (List.mem_singleton.mpr rfl) hcallee
    exact .ite (fun _ => .skip fun list => .pure (hdone list)) fun _ => .pure (hdone [])
  refine .after fun _ => .after fun nested => .ite ?_ ?_
  · exact hrest _ _ (hn.construct c)
  · exact hrest _ _ (alike_primary hn c)

theorem alike_leftHandSide (hn : n.Alike) (c : Context) :
    Alike Expr.HasIn (leftHandSide n c.forHead) (leftHandSide n c.bracketed) := by
  unfold leftHandSide
  refine .after fun constructs => .ite ?_ ?_
  · exact alike_memberSuffixes (alike_construct hn c) c true
  · exact alike_memberSuffixes (alike_primary hn c) c true

theorem waits_checkAssignable (x : Expr) : Waits (checkAssignable x) := by
  unfold checkAssignable
  split
  · exact .bind .isStrict fun _ => .ite (.fail _) (.pure _)
  · exact .pure _
  · exact .fail _

theorem alike_postfixUpdate (hn : n.Alike) (c : Context) :
    Alike Expr.HasIn (postfixUpdate n c.forHead) (postfixUpdate n c.bracketed) := by
  unfold postfixUpdate
  refine (alike_leftHandSide hn c).bind (fun target => ?_) (fun target => .refl _)
    fun target htarget => ?_
  · refine .look (.bind .afterBreak fun broken => ?_)
    have hnone : (if broken = true then none else updateOperator? (.keyword .inWord)) = none := by
      cases broken <;> rfl
    rw [hnone]
    exact .pure _
  · refine .skip fun token => .skip fun broken => ?_
    split
    · exact .skip fun _ => .skip fun _ => .pure (.operand (List.mem_singleton.mpr rfl) htarget)
    · exact .pure htarget

theorem alike_unary (hn : n.Alike) (c : Context) :
    Alike Expr.HasIn (unary n c.forHead) (unary n c.bracketed) := by
  unfold unary
  refine .after fun token => ?_
  split
  · exact alike_postfixUpdate hn c
  next op _ =>
  refine .after fun _ => (hn.unary c).bind (fun operand => ?_) (fun operand => .refl _)
    fun operand hoperand => ?_
  · cases op with
    | convert op => exact .pure _
    | typeOf => exact .pure _
    | void => exact .pure _
    | update op => exact .bind (waits_checkAssignable _) fun _ => .pure _
    | delete =>
      dsimp only
      split
      · exact .bind .isStrict fun _ => .ite (.failed _ _) (.pure _)
      · exact .pure _
  · cases op with
    | convert op => exact .pure (.operand (List.mem_singleton.mpr rfl) hoperand)
    | typeOf => exact .pure (.operand (List.mem_singleton.mpr rfl) hoperand)
    | void => exact .pure (.operand (List.mem_singleton.mpr rfl) hoperand)
    | update op => exact .skip fun _ => .pure (.operand (List.mem_singleton.mpr rfl) hoperand)
    | delete =>
      dsimp only
      have hdone : Yields (pure (Expr.delete operand)) Expr.HasIn :=
        .pure (.operand (List.mem_singleton.mpr rfl) hoperand)
      split
      · exact .skip fun _ => .ite (fun _ => .failed) fun _ => hdone
      · exact hdone

theorem alike_power (hn : n.Alike) (c : Context) :
    Alike Expr.HasIn (power n c.forHead) (power n c.bracketed) := by
  unfold power
  refine .after fun token => (alike_unary hn c).bind (fun base => .atSign (.pure _))
    (fun base => .after fun raised => .ite (.ite (.refl _) ?_) (.refl _)) fun base hbase => ?_
  · refine .after fun _ => (hn.power c).map fun exponent hexponent => ?_
    exact .operand (List.mem_cons_of_mem _ (List.mem_singleton_self _)) hexponent
  · refine .skip fun raised => .ite (fun _ => ?_) fun _ => .pure hbase
    refine .ite (fun _ => .failed) fun _ => .skip fun _ => .skip fun exponent => .pure ?_
    exact .operand (List.mem_cons_self ..) hbase

/-! ### Binary operators -/

theorem waits_binaryRest (c : Context) (strength rounds : Nat) (left : Expr) :
    Waits (binaryRest n c.forHead strength rounds left) := by
  cases rounds with
  | zero => exact .fail _
  | succ rounds =>
    unfold binaryRest
    exact .look (.pure _)

theorem yields_binaryRest_hasIn (c : Context) (strength rounds : Nat) {left : Expr}
    (h : left.HasIn) : Yields (binaryRest n c strength rounds left) Expr.HasIn := by
  have hany (own : Nat) : Yields (n.parse (.binary own) c) fun _ : Expr => True := .any _
  refine .in_binaryRest hany (fun op x y hx _ => ?_) strength rounds h
  exact .operand (List.mem_cons_self ..) hx

/-- Only the word `in` is an operator in one place and none in the other. -/
theorem binaryOperator?_forHead {token : Token} (h : token ≠ .keyword .inWord) (c : Context) :
    binaryOperator? c.forHead token = binaryOperator? c.bracketed token := by
  unfold binaryOperator?
  split
  · rfl
  · rfl
  · exact absurd rfl h
  · rfl

theorem binaryRest_forHead_in {s : TokenStream} (h : s.current = .keyword .inWord) (c : Context)
    (strength rounds : Nat) (left : Expr) :
    binaryRest n c.forHead strength (rounds + 1) left s = .ok left s := by
  unfold binaryRest
  rw [current_bind, h]
  rfl

theorem binaryRest_bracketed_in {s : TokenStream} (h : s.current = .keyword .inWord) (c : Context)
    (strength rounds : Nat) (left : Expr) :
    binaryRest n c.bracketed strength (rounds + 1) left s =
      if 5 ≤ strength then .ok left s
      else (Parser.advance >>= fun _ => n.parse (.binary 5) c.bracketed >>= fun right =>
        binaryRest n c.bracketed strength rounds (.binary .hasKey left right)) s := by
  conv_lhs => unfold binaryRest
  rw [current_bind, h]
  change (if 5 ≤ strength then pure left else _ : Parser Expr) s = _
  split <;> rfl

/-- Here the ways part: where the one rule stops, the other one takes the operator. -/
theorem alike_binaryRest (hn : n.Alike) (c : Context) (strength rounds : Nat) (left : Expr) :
    Alike Expr.HasIn (binaryRest n c.forHead strength rounds left)
      (binaryRest n c.bracketed strength rounds left) := by
  induction rounds generalizing left with
  | zero => exact .refl _
  | succ rounds ih =>
    intro s
    have hgoes (op : BinaryOp) (own : Nat) := Alike.after (p := Parser.advance) fun _ =>
      (hn.binary own c).bind
        (fun right => waits_binaryRest c strength rounds (.binary op left right))
        (fun right => ih _) fun right hright => yields_binaryRest_hasIn c.bracketed _ _
          (.operand (List.mem_cons_of_mem _ (List.mem_singleton_self _)) hright)
    by_cases hin : s.current = .keyword .inWord
    · rw [binaryRest_forHead_in hin, binaryRest_bracketed_in hin]
      split
      · exact .inl rfl
      · have hyields : Yields (Parser.advance >>= fun _ =>
            n.parse (.binary 5) c.bracketed >>= fun right =>
              binaryRest n c.bracketed strength rounds (.binary .hasKey left right)) Expr.HasIn :=
          .skip fun _ => .skip fun right => yields_binaryRest_hasIn _ _ _ .operator
        exact .inr ⟨hin, fun x t hx => hyields s x t hx⟩
    · unfold binaryRest
      rw [current_bind, current_bind, binaryOperator?_forHead hin]
      cases binaryOperator? c.bracketed s.current with
      | none => exact .inl rfl
      | some found => exact Alike.ite (.refl _) (hgoes found.1 found.2) s

theorem alike_binary (hn : n.Alike) (c : Context) (strength : Nat) :
    Alike Expr.HasIn (binary n c.forHead strength) (binary n c.bracketed strength) := by
  unfold binary
  exact (alike_power hn c).bind (fun left => waits_binaryRest _ _ _ _)
    (fun left => alike_binaryRest hn c _ _ _) fun left hleft => yields_binaryRest_hasIn _ _ _ hleft

theorem waits_logicalRest (sign : Punctuator) (op : LogicalOp) (operand : Parser Expr)
    (rounds : Nat) (left : Expr) : Waits (logicalRest sign op operand rounds left) := by
  cases rounds with
  | zero => exact .fail _
  | succ rounds =>
    unfold logicalRest
    exact .eat (.pure _)

theorem yields_logicalRest_hasIn (sign : Punctuator) (op : LogicalOp) (operand : Parser Expr)
    (rounds : Nat) {left : Expr} (h : left.HasIn) :
    Yields (logicalRest sign op operand rounds left) Expr.HasIn := by
  refine .in_logicalRest (.any operand) (fun x y hx _ => ?_) rounds h
  exact .operand (List.mem_cons_self ..) hx

theorem alike_logicalRest (sign : Punctuator) (op : LogicalOp) {p q : Parser Expr}
    (hp : Alike Expr.HasIn p q) (rounds : Nat) (left : Expr) :
    Alike Expr.HasIn (logicalRest sign op p rounds left) (logicalRest sign op q rounds left) := by
  induction rounds generalizing left with
  | zero => exact .refl _
  | succ rounds ih =>
    unfold logicalRest
    refine .after fun more => .ite ?_ (.refl _)
    refine hp.bind (fun right => waits_logicalRest _ _ _ _ _) (fun right => ih _)
      fun right hright => yields_logicalRest_hasIn _ _ _ _ ?_
    exact .operand (List.mem_cons_of_mem _ (List.mem_singleton_self _)) hright

theorem alike_logical (sign : Punctuator) (op : LogicalOp) {p q : Parser Expr}
    (hp : Alike Expr.HasIn p q) (rounds : Nat) : Alike Expr.HasIn
      (p >>= fun left => logicalRest sign op p rounds left)
      (q >>= fun left => logicalRest sign op q rounds left) :=
  hp.bind (fun _ => waits_logicalRest _ _ _ _ _) (fun _ => alike_logicalRest _ _ hp _ _)
    fun _ hleft => yields_logicalRest_hasIn _ _ _ _ hleft

theorem alike_conjunction (hn : n.Alike) (c : Context) :
    Alike Expr.HasIn (conjunction n c.forHead) (conjunction n c.bracketed) := by
  unfold conjunction
  exact alike_logical _ _ (alike_binary hn c 0) _

theorem alike_disjunction (hn : n.Alike) (c : Context) :
    Alike Expr.HasIn (disjunction n c.forHead) (disjunction n c.bracketed) := by
  unfold disjunction
  exact alike_logical _ _ (alike_conjunction hn c) _

theorem alike_coalescing (hn : n.Alike) (c : Context) :
    Alike Expr.HasIn (coalescing n c.forHead) (coalescing n c.bracketed) := by
  unfold coalescing
  exact alike_logical _ _ (alike_disjunction hn c) _

/-! ### Conditionals and assignments -/

theorem alike_conditional (hn : n.Alike) (c : Context) :
    Alike Expr.HasIn (conditional n c.forHead) (conditional n c.bracketed) := by
  unfold conditional
  refine (alike_coalescing hn c).bind (fun test => .eat (.pure _)) (fun test => ?_)
    fun test htest => ?_
  · refine .after fun asked => .ite (.after fun consequent => .after fun _ => ?_) (.refl _)
    refine (hn.assignment false c).map fun alternate halternate => ?_
    exact .operand (List.mem_cons_of_mem _ (List.mem_singleton_self _)) halternate
  · refine .skip fun asked => .ite (fun _ => ?_) fun _ => .pure htest
    refine .skip fun consequent => .skip fun _ => .skip fun alternate => .pure ?_
    exact .operand (List.mem_cons_self ..) htest

theorem alike_assignment (hn : n.Alike) (c : Context) (cover : Bool) :
    Alike Expr.HasIn (assignment n c.forHead cover) (assignment n c.bracketed cover) := by
  unfold assignment
  refine (alike_conditional hn c).bind (fun left => ?_) (fun left => ?_) fun left hleft => ?_
  · exact .look (.ite (.failed _ _) (.pure _))
  · refine .after fun token => ?_
    split
    · exact .refl _
    · refine .ite (.refl _) (.after fun _ => .after fun _ => ?_)
      refine (hn.assignment false c).map fun value hvalue => ?_
      exact .operand (List.mem_cons_of_mem _ (List.mem_singleton_self _)) hvalue
  · refine .skip fun token => ?_
    split
    · exact .ite (fun _ => .failed) fun _ => .pure hleft
    · refine .ite (fun _ => .failed) fun _ => .skip fun _ => .skip fun _ => .skip fun value => ?_
      exact .pure (.operand (List.mem_cons_self ..) hleft)

/-! ### At any depth -/

theorem alike_rule (hn : n.Alike) (rounds : Nat) :
    Nesting.Alike ⟨rounds, fun g c => rule n c g⟩ where
  assignment cover c := alike_assignment hn c cover
  binary strength c := alike_binary hn c strength
  power c := alike_power hn c
  unary c := alike_unary hn c
  construct c := alike_construct hn c

theorem alike_parse (depth rounds : Nat) : Nesting.Alike ⟨rounds, parse depth⟩ := by
  induction depth generalizing rounds with
  | zero => exact ⟨fun _ _ => .refl _, fun _ _ => .refl _, fun _ => .refl _, fun _ => .refl _,
      fun _ => .refl _⟩
  | succ depth ih => exact alike_rule (ih (depth + 1)) rounds

/-- The expressions of any depth are read alike in the head of a loop and elsewhere. -/
theorem alike_nesting (depth : Nat) : (nesting depth).Alike := alike_parse depth depth

end Grammar

end ProtoScript
