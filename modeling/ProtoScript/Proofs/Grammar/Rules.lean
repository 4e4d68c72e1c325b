import ProtoScript.Proofs.Grammar.Yields
/-!
# Rules that put together

What holds of all trees that the nested rules yield holds of all trees in what the rules around them
make lists, operands and statements of.
-/

namespace ProtoScript.Grammar.Yields

variable {n : Nesting} {c : Context} {P : Expr → Prop} {Q : Pattern → Prop} {R : Stmt → Prop}

theorem some_map {α : Type} {p : Parser α} {T : α → Prop} (h : Yields p T) :
    Yields (some <$> p) fun found => ∀ a ∈ found, T a := by
  refine h.map fun a ha b hb => ?_
  cases hb
  exact ha

/-! ### Patterns and functions -/

theorem all_propertyKey (h : Yields (n.parse (.assignment false) c.bracketed) P) :
    Yields (propertyKey n c) fun key => ∀ x ∈ key.parts, P x := by
  unfold propertyKey
  refine .skip fun token => ?_
  split
  · refine .skip fun _ => .bind h.attempt fun key hkey => .skip fun _ => ?_
    cases key with
    | error e => exact .fail
    | ok key => exact .pure (List.forall_mem_singleton.mpr (hkey key rfl))
  · exact .skip fun _ => .pure nofun
  · exact .skip fun _ => .pure nofun
  · exact .skip fun _ => .pure nofun
  · exact .skip fun _ => .pure nofun
  · exact .skip fun _ => .pure nofun
  · exact .skip fun _ => .pure nofun
  · exact .skip fun _ => .skip fun _ => .pure nofun
  · exact .fail

theorem all_parameterList (hrest : Yields (n.parse .pattern c) fun p => Q (.rest p))
    (h : Yields (n.parse .element c) Q) (rounds : Nat) :
    Yields (parameterList n c rounds) fun list => ∀ p ∈ list, Q p := by
  induction rounds with
  | zero => exact .fail
  | succ rounds ih =>
    unfold parameterList
    refine .skip fun closed => .ite (fun _ => .pure nofun) fun _ => ?_
    refine .skip fun isRest => .ite (fun _ => ?_) fun _ => ?_
    · exact .bind hrest fun target htarget => .pure (List.forall_mem_singleton.mpr htarget)
    refine .bind h fun first hfirst => .skip fun _ => ?_
    exact .bind ih fun others hothers => .pure (List.forall_mem_cons.mpr ⟨hfirst, hothers⟩)

theorem all_parameters (hrest : Yields (n.parse .pattern c.bracketed) fun p => Q (.rest p))
    (h : Yields (n.parse .element c.bracketed) Q) :
    Yields (parameters n c) fun list => ∀ p ∈ list, Q p := by
  unfold parameters
  refine .skip fun _ => .bind (all_parameterList hrest h _) fun list hlist => ?_
  exact .skip fun _ => .pure hlist

theorem all_directiveBody (h : Yields (n.parse .item c) R) (close : Option Punctuator)
    (prologue : Bool) (rounds : Nat) :
    Yields (directiveBody n c close prologue rounds) fun body => ∀ s ∈ body.1, R s := by
  induction rounds generalizing prologue with
  | zero => exact .fail
  | succ rounds ih =>
    unfold directiveBody
    refine .skip fun token => .ite (fun _ => .pure nofun) fun _ => ?_
    refine .ite (fun _ => ?_) fun _ => ?_
    · cases close with
      | some sign => exact .fail
      | none => exact .pure nofun
    refine .bind h fun first hfirst => ?_
    have hrest (next : Bool) (strict : Bool) : Yields
        (do
          let others ← directiveBody n c close next rounds
          return (first :: others.1, strict || others.2)) fun body => ∀ s ∈ body.1, R s :=
      .bind (ih next) fun others hothers => .pure (List.forall_mem_cons.mpr ⟨hfirst, hothers⟩)
    exact .ite (fun _ => .skip fun _ => hrest _ _) fun _ => hrest _ _

theorem all_functionBody (h : Yields (n.parse .item .functionBody) R) :
    Yields (functionBody n) fun body => ∀ s ∈ body.1, R s := by
  unfold functionBody
  refine .skip fun _ => .skip fun strict => ?_
  refine .bind (all_directiveBody h _ true _) fun body hbody => ?_
  exact .skip fun _ => .skip fun _ => .pure hbody

/-! ### Expressions -/

theorem all_parenthesizedElements (h : Yields (n.parse (.assignment true) c) P)
    (hrest : Yields (n.parse .pattern c) Q) (rounds : Nat) :
    Yields (parenthesizedElements n c rounds) fun found =>
      (∀ x ∈ found.1, P x) ∧ ∀ p ∈ found.2, Q p := by
  induction rounds with
  | zero => exact .fail
  | succ rounds ih =>
    unfold parenthesizedElements
    refine .skip fun closed => .ite (fun _ => ?_) fun _ => ?_
    · exact .pure ⟨nofun, nofun⟩
    refine .skip fun isRest => .ite (fun _ => ?_) fun _ => ?_
    · refine .bind hrest fun target htarget => .pure ⟨nofun, fun p hp => ?_⟩
      cases hp
      exact htarget
    refine .bind h fun first hfirst => .skip fun _ => ?_
    refine .bind ih fun found hfound => .pure ⟨?_, hfound.2⟩
    exact List.forall_mem_cons.mpr ⟨hfirst, hfound.1⟩

theorem all_arrayElement (h : Yields (n.parse (.assignment false) c) P) :
    Yields (arrayElement n c) fun element => ∀ x ∈ element, P x := by
  unfold arrayElement
  refine .skip fun hole => .ite (fun _ => .pure nofun) fun _ => ?_
  refine .bind h fun value hvalue => .pure fun x hx => ?_
  cases hx
  exact hvalue

theorem all_callArguments (h : Yields (n.parse (.assignment false) c.bracketed) P) :
    Yields (callArguments n c) fun list => ∀ x ∈ list, P x := by
  unfold callArguments
  refine .skip fun _ => .bind (.commaList h _) fun list hlist => ?_
  exact .skip fun _ => .pure hlist

theorem all_others (h : Yields (n.parse (.assignment false) c) P) (rounds : Nat) :
    Yields (sequenceOf.others n c rounds) fun list => ∀ x ∈ list, P x := by
  induction rounds with
  | zero => exact .fail
  | succ rounds ih =>
    unfold sequenceOf.others
    refine .skip fun comma => .ite (fun _ => ?_) fun _ => .pure nofun
    refine .bind h fun next hnext => .bind ih fun others hothers => ?_
    exact .pure (List.forall_mem_cons.mpr ⟨hnext, hothers⟩)

/-- A single expression, or a sequence of expressions that all have the property. -/
theorem in_sequenceOf {first : Parser Expr} (hfirst : Yields first P)
    (h : Yields (n.parse (.assignment false) c) P)
    (hsequence : ∀ list, (∀ x ∈ list, P x) → P (.sequence list)) :
    Yields (sequenceOf n c first) P := by
  unfold sequenceOf
  refine .bind hfirst fun x hx => .skip fun comma => .ite (fun _ => ?_) fun _ => .pure hx
  refine .bind (all_others h _) fun others hothers => .pure (hsequence _ ?_)
  exact List.forall_mem_cons.mpr ⟨hx, hothers⟩

theorem in_binaryRest {P' : Expr → Prop} (h : ∀ strength, Yields (n.parse (.binary strength) c) P')
    (hop : ∀ op left right, P left → P' right → P (.binary op left right)) (strength rounds : Nat)
    {left : Expr} (hleft : P left) : Yields (binaryRest n c strength rounds left) P := by
  induction rounds generalizing left with
  | zero => exact .fail
  | succ rounds ih =>
    unfold binaryRest
    refine .skip fun token => ?_
    split
    · exact .pure hleft
    refine .ite (fun _ => .pure hleft) fun _ => .skip fun _ => ?_
    exact .bind (h _) fun right hright => ih (hop _ _ _ hleft hright)

theorem in_logicalRest {P' : Expr → Prop} {sign : Punctuator} {op : LogicalOp}
    {operand : Parser Expr} (h : Yields operand P')
    (hop : ∀ left right, P left → P' right → P (.logical op left right)) (rounds : Nat)
    {left : Expr} (hleft : P left) : Yields (logicalRest sign op operand rounds left) P := by
  induction rounds generalizing left with
  | zero => exact .fail
  | succ rounds ih =>
    unfold logicalRest
    refine .skip fun more => .ite (fun _ => ?_) fun _ => .pure hleft
    exact .bind h fun right hright => ih (hop _ _ hleft hright)

/-- Logical operators of all levels, over operands that all have the property. -/
theorem in_coalescing (h : Yields (binary n c 0) P)
    (hop : ∀ op left right, P left → P right → P (.logical op left right)) :
    Yields (coalescing n c) P := by
  have hconjunction : Yields (conjunction n c) P := by
    unfold conjunction
    exact .bind h fun left hleft => in_logicalRest h (hop _) _ hleft
  have hdisjunction : Yields (disjunction n c) P := by
    unfold disjunction
    exact .bind hconjunction fun left hleft => in_logicalRest hconjunction (hop _) _ hleft
  unfold coalescing
  exact .bind hdisjunction fun left hleft => in_logicalRest hdisjunction (hop _) _ hleft

/-! ### Statements -/

theorem all_declarators (htarget : Yields (bindingPattern n c) Q)
    (hinit : Yields (n.parse (.assignment false) c) P) (kind : DeclarationKind) (rounds : Nat) :
    Yields (declarators n c kind rounds) fun list =>
      ∀ d ∈ list, Q d.target ∧ ∀ x ∈ d.init, P x := by
  induction rounds with
  | zero => exact .fail
  | succ rounds ih =>
    unfold declarators
    refine .bind htarget fun target htarget => ?_
    have hrest {init : Option Expr} (hinit : ∀ x ∈ init, P x) : Yields
        (do
          if ← Parser.eat .comma then
            return Declarator.mk target init :: (← declarators n c kind rounds)
          else return [⟨target, init⟩])
        fun list => ∀ d ∈ list, Q d.target ∧ ∀ x ∈ d.init, P x := by
      refine .skip fun more => .ite (fun _ => .bind ih fun others hothers => ?_) fun _ => ?_
      · exact .pure (List.forall_mem_cons.mpr ⟨⟨htarget, hinit⟩, hothers⟩)
      · exact .pure (List.forall_mem_singleton.mpr ⟨htarget, hinit⟩)
    refine .ite (fun _ => .failed) fun _ => .skip fun assigned => .ite (fun _ => ?_) fun _ => ?_
    · exact .bind (some_map hinit) fun init hinit => hrest hinit
    · exact hrest nofun

theorem in_condition (h : Yields (expression n c) P) : Yields (condition n c) P := by
  unfold condition
  exact .skip fun _ => .bind h fun test htest => .skip fun _ => .pure htest

theorem all_optionalExpression (h : Yields (expression n c) P) (close : Punctuator) :
    Yields (optionalExpression n c close) fun value => ∀ x ∈ value, P x := by
  unfold optionalExpression
  refine .skip fun closed => .ite (fun _ => .pure nofun) fun _ => ?_
  refine .bind h fun value hvalue => .pure fun x hx => ?_
  cases hx
  exact hvalue

theorem all_blockItems (h : Yields (n.parse .item c) R) (declared : List String) (rounds : Nat) :
    Yields (blockItems n c declared rounds) fun body => ∀ s ∈ body, R s := by
  induction rounds generalizing declared with
  | zero => exact .fail
  | succ rounds ih =>
    unfold blockItems
    refine .skip fun closed => .ite (fun _ => .pure nofun) fun _ => ?_
    refine .skip fun ended => .ite (fun _ => .fail) fun _ => ?_
    refine .bind h fun first hfirst => .skip fun names => ?_
    exact .bind (ih names) fun others hothers => .pure (List.forall_mem_cons.mpr ⟨hfirst, hothers⟩)

theorem all_block (h : Yields (n.parse .item c) R) :
    Yields (block n c) fun body => ∀ s ∈ body, R s := by
  unfold block
  exact .skip fun _ => .bind (all_blockItems h _ _) fun body hbody => .skip fun _ => .pure hbody

theorem all_handler (hparameter : Yields (bindingPattern n c) Q) (h : Yields (n.parse .item c) R) :
    Yields (handler n c) fun found => (∀ p ∈ found.parameter, Q p) ∧ ∀ s ∈ found.body, R s := by
  unfold handler
  refine .skip fun opened => .ite (fun _ => ?_) fun _ => ?_
  · refine .bind hparameter fun parameter hparameter => .skip fun _ => ?_
    refine .bind (all_block h) fun body hbody => .pure ⟨fun p hp => ?_, hbody⟩
    cases hp
    exact hparameter
  · exact .bind (all_block h) fun body hbody => .pure ⟨nofun, hbody⟩

theorem in_tryStatement {T : Stmt → Prop} (hparameter : Yields (bindingPattern n c) Q)
    (h : Yields (n.parse .item c) R)
    (htry : ∀ tried handler finalizer, (∀ s ∈ tried, R s) →
      (∀ found ∈ handler, (∀ p ∈ found.parameter, Q p) ∧ ∀ s ∈ found.body, R s) →
      (∀ body ∈ finalizer, ∀ s ∈ body, R s) → T (.tryStmt tried handler finalizer)) :
    Yields (tryStatement n c) T := by
  unfold tryStatement
  refine .skip fun _ => .bind (all_block h) fun tried htried => ?_
  have hdone {handler : Option Handler} {finalizer : Option (List Stmt)}
      (hhandler : ∀ found ∈ handler, (∀ p ∈ found.parameter, Q p) ∧ ∀ s ∈ found.body, R s)
      (hfinalizer : ∀ body ∈ finalizer, ∀ s ∈ body, R s) : Yields
      (do
        if handler.isNone && finalizer.isNone then throw .missingHandler
        return Stmt.tryStmt tried handler finalizer) T :=
    .ite (fun _ => .failed) fun _ => .pure (htry _ _ _ htried hhandler hfinalizer)
  have hfinally {handler : Option Handler}
      (hhandler : ∀ found ∈ handler, (∀ p ∈ found.parameter, Q p) ∧ ∀ s ∈ found.body, R s) : Yields
      (do
        let finalizer ←
          if ← Parser.eatWord .finallyWord then some <$> block n c else Pure.pure none
        if handler.isNone && finalizer.isNone then throw .missingHandler
        return Stmt.tryStmt tried handler finalizer) T := by
    refine .skip fun finalized => .ite (fun _ => ?_) fun _ => hdone hhandler nofun
    exact .bind (some_map (all_block h)) fun finalizer hfinalizer => hdone hhandler hfinalizer
  refine .skip fun caught => .ite (fun _ => ?_) fun _ => hfinally nofun
  exact .bind (some_map (all_handler hparameter h)) fun handler hhandler => hfinally hhandler

theorem all_clauseItems (h : Yields (n.parse .item c) R) (declared : List String) (rounds : Nat) :
    Yields (clauseItems n c declared rounds) fun found => ∀ s ∈ found.1, R s := by
  induction rounds generalizing declared with
  | zero => exact .fail
  | succ rounds ih =>
    unfold clauseItems
    refine .skip fun token => .ite (fun _ => .pure nofun) fun _ => ?_
    refine .bind h fun first hfirst => .skip fun names => ?_
    exact .bind (ih names) fun others hothers => .pure (List.forall_mem_cons.mpr ⟨hfirst, hothers⟩)

theorem all_switchClauses (htest : Yields (expression n c) P) (h : Yields (n.parse .item c) R)
    (declared : List String) (hasDefault : Bool) (rounds : Nat) :
    Yields (switchClauses n c declared hasDefault rounds) fun clauses =>
      ∀ clause ∈ clauses, (∀ x ∈ clause.test, P x) ∧ ∀ s ∈ clause.body, R s := by
  induction rounds generalizing declared hasDefault with
  | zero => exact .fail
  | succ rounds ih =>
    unfold switchClauses
    refine .skip fun closed => .ite (fun _ => .pure nofun) fun _ => .skip fun isCase => ?_
    have hrest {test : Option Expr} (htest : ∀ x ∈ test, P x) : Yields
        (do
          Parser.expect .colon
          let found ← clauseItems n c declared n.rounds
          let others ← switchClauses n c found.2 (hasDefault || test.isNone) rounds
          return SwitchCase.mk test found.1 :: others)
        fun clauses =>
          ∀ clause ∈ clauses, (∀ x ∈ clause.test, P x) ∧ ∀ s ∈ clause.body, R s := by
      refine .skip fun _ => .bind (all_clauseItems h _ _) fun found hfound => ?_
      refine .bind (ih found.2 _) fun others hothers => .pure ?_
      exact List.forall_mem_cons.mpr ⟨⟨htest, hfound⟩, hothers⟩
    refine .ite (fun _ => ?_) fun _ => .skip fun _ => .ite (fun _ => .failed) fun _ => hrest nofun
    exact .bind (some_map htest) fun test htest => hrest htest

end ProtoScript.Grammar.Yields
