import ProtoScript.Proofs.Modes.Expression
/-!
# Statements and the mode around them

The rules for statements go step by step, keep the mode and yield what fits it, if the rules for
what is nested in them do.
-/

namespace ProtoScript

variable {m : Bool}

def Declarator.Fits (m : Bool) (d : Declarator) : Prop :=
  d.target.Fits m ∧ ∀ x ∈ d.init, x.Fits m

@[simp] theorem Piece.fits_declaration {d : Declaration} :
    (Piece.declaration d).Fits m ↔ ∀ declarator ∈ d.declarators, declarator.Fits m := by
  have hparts : (∀ q ∈ (Piece.declaration d).parts, q.Fits m) ↔
      ∀ declarator ∈ d.declarators, declarator.Fits m := by
    simp only [parts, List.forall_mem_flatMap, List.forall_mem_cons, List.forall_mem_map,
      fits_pattern, fits_whole, Option.mem_toList, Option.mem_def, Declarator.Fits]
  rw [← hparts]
  exact ⟨fun h _ hq => h.part hq, fun h => .intro trivial h⟩

@[simp] theorem Piece.fits_handler {h : Handler} : (Piece.handler h).Fits m ↔
    (∀ p ∈ h.parameter, p.Fits m) ∧ ∀ s ∈ h.body, s.Fits m := by
  have hparts : (∀ q ∈ (Piece.handler h).parts, q.Fits m) ↔
      (∀ p ∈ h.parameter, p.Fits m) ∧ ∀ s ∈ h.body, s.Fits m := by
    simp only [parts, List.forall_mem_append, List.forall_mem_map, fits_pattern, fits_statement,
      Option.mem_toList, Option.mem_def]
  rw [← hparts]
  exact ⟨fun h _ hq => h.part hq, fun h => .intro trivial h⟩

namespace Grammar

variable {n : Nesting}

/-! ### Declarations -/

theorem keeps_declarators (hn : n.Keeps) (c : Context) (kind : DeclarationKind) (rounds : Nat) :
    Keeps m (declarators n c kind rounds) fun list => ∀ d ∈ list, d.Fits m := by
  induction rounds with
  | zero => exact .fail
  | succ rounds ih =>
    unfold declarators
    refine .bind (keeps_bindingPattern hn c) fun target htarget => ?_
    have hrest {init : Option Expr} (hinit : ∀ x ∈ init, x.Fits m) : Keeps m
        (do
          if ← Parser.eat .comma then
            return Declarator.mk target init :: (← declarators n c kind rounds)
          else return [⟨target, init⟩])
        fun list => ∀ d ∈ list, d.Fits m := by
      refine .skip .eat fun more => .ite (fun _ => .bind ih fun others hothers => ?_) fun _ => ?_
      · exact .pure (List.forall_mem_cons.mpr ⟨⟨htarget, hinit⟩, hothers⟩)
      · exact .pure (List.forall_mem_singleton.mpr ⟨htarget, hinit⟩)
    refine .ite (fun _ => .failed) fun _ => .skip .eat fun assigned =>
      .ite (fun _ => ?_) fun _ => ?_
    · refine .bind (.map (hn.assignment c false) fun value hvalue => ?_) fun init hinit =>
        hrest hinit
      exact fun x hx => by cases hx; exact hvalue
    · exact hrest nofun

theorem steady_checkInitializers (d : Declaration) : Steady (checkInitializers d) := by
  unfold checkInitializers
  exact .ite .fail .pure

theorem keeps_declarationStatement (hn : n.Keeps) (c : Context) (kind : DeclarationKind) :
    Keeps m (declarationStatement n c kind) (Stmt.Fits m) := by
  unfold declarationStatement
  refine .advance (.bind (keeps_declarators hn c kind _) fun list hlist => ?_)
  refine .skip (steady_checkInitializers _) fun _ => .skip .endStatement fun _ => .pure ?_
  exact List.forall_mem_singleton.mpr (Piece.fits_declaration.mpr hlist)

/-- Whether a `let` starts a declaration; the look ahead is taken at the word. -/
theorem steady_atLetDeclaration : Steady atLetDeclaration := by
  intro m K
  unfold atLetDeclaration Parser.atWord
  rw [bind_assoc]
  refine .current fun token _ => ?_
  rw [pure_bind]
  by_cases hlet : (token.word? == some .letWord) = true
  · rw [if_pos hlet]
    refine .isStrict ?_
    split
    · exact .pure ⟨rfl, trivial⟩
    · refine .peek (fun token' heq => ?_) fun found => .pure ⟨rfl, trivial⟩
      subst heq
      cases token' <;> simp_all [Token.sign?, Token.word?]
  · rw [if_neg hlet]
    exact .pure ⟨rfl, trivial⟩

/-! ### Blocks -/

theorem keeps_condition (hn : n.Keeps) (c : Context) :
    Keeps m (condition n c) (Expr.Fits m) := by
  unfold condition
  exact .skip .expect fun _ => .bind (keeps_expression hn c) fun test htest =>
    .skip .expect fun _ => .pure htest

theorem steady_declareAll (declared : List String) (s : Stmt) : Steady (declareAll declared s) := by
  unfold declareAll
  dsimp only
  split
  · exact .fail
  · exact .pure

theorem keeps_blockItems (hn : n.Keeps) (c : Context) (declared : List String) (rounds : Nat) :
    Keeps m (blockItems n c declared rounds) fun body => ∀ s ∈ body, s.Fits m := by
  induction rounds generalizing declared with
  | zero => exact .fail
  | succ rounds ih =>
    unfold blockItems
    refine .skip .atSign fun closed => .ite (fun _ => .pure nofun) fun _ => ?_
    refine .skip .atEnd fun ended => .ite (fun _ => .fail) fun _ => ?_
    refine .bind (hn.item c) fun first hfirst => .skip (steady_declareAll _ _) fun names => ?_
    exact .bind (ih names) fun others hothers => .pure (List.forall_mem_cons.mpr ⟨hfirst, hothers⟩)

theorem keeps_block (hn : n.Keeps) (c : Context) :
    Keeps m (block n c) fun body => ∀ s ∈ body, s.Fits m := by
  unfold block
  exact .skip .expect fun _ => .bind (keeps_blockItems hn c _ _) fun body hbody =>
    .advance (.pure hbody)

/-! ### Statements that are no loops -/

theorem keeps_expressionStatement (hn : n.Keeps) (c : Context) :
    Keeps m (expressionStatement n c) (Stmt.Fits m) := by
  unfold expressionStatement
  refine .bind (keeps_expression hn c) fun value hvalue => .skip .endStatement fun _ => .pure ?_
  exact List.forall_mem_singleton.mpr (Piece.fits_whole.mpr hvalue)

theorem keeps_labeledStatement (hn : n.Keeps) (c : Context) (chain : Option Nat) (name : String) :
    Keeps m (labeledStatement n c chain name) (Stmt.Fits m) := by
  unfold labeledStatement
  refine .advance (.advance (.ite (fun _ => .failed) fun _ => .current fun token => ?_))
  refine .ite (fun _ => .failed) fun _ => .bind (hn.statement _ _) fun body hbody => .pure ?_
  exact List.forall_mem_singleton.mpr (Piece.fits_statement.mpr hbody)

theorem keeps_expressionOrLabeled (hn : n.Keeps) (c : Context) (chain : Option Nat) :
    Keeps m (expressionOrLabeled n c chain) (Stmt.Fits m) := by
  intro K
  unfold expressionOrLabeled currentName?
  rw [bind_assoc]
  refine .isStrict ?_
  rw [bind_assoc]
  refine .current fun token _ => ?_
  rw [pure_bind]
  cases hname : nameOfToken? m token with
  | none => exact keeps_expressionStatement hn c _
  | some name =>
    refine .peek (fun token' heq => ?_) fun found => ?_
    · subst heq
      unfold nameOfToken? at hname
      split at hname
      · rfl
      · rfl
      · cases hname
    · split
      · exact keeps_labeledStatement hn c chain name _
      · exact keeps_expressionStatement hn c _

theorem fits_pieces {body : List Stmt} (h : ∀ s ∈ body, s.Fits m) :
    ∀ q ∈ body.map Piece.statement, q.Fits m :=
  List.forall_mem_map.mpr fun s hs => Piece.fits_statement.mpr (h s hs)

theorem fits_option {x : Option Expr} (h : ∀ y ∈ x, y.Fits m) :
    ∀ q ∈ x.toList.map Piece.whole, q.Fits m :=
  List.forall_mem_map.mpr fun y hy => Piece.fits_whole.mpr (h y (Option.mem_toList.mp hy))

theorem fits_some {x : Expr} (h : x.Fits m) : ∀ y ∈ some x, y.Fits m := by
  intro y hy
  cases hy
  exact h

theorem keeps_ifStatement (hn : n.Keeps) (c : Context) :
    Keeps m (ifStatement n c) (Stmt.Fits m) := by
  unfold ifStatement
  refine .advance (.bind (keeps_condition hn c) fun test htest => ?_)
  refine .bind (hn.statement c none) fun consequent hconsequent => .skip .eatWord fun _ => ?_
  have htest := Piece.fits_whole.mpr htest
  have hconsequent := Piece.fits_statement.mpr hconsequent
  refine .ite (fun _ => ?_) fun _ => .pure ?_
  · refine .bind (hn.statement c none) fun alternate halternate => .pure ?_
    refine List.forall_mem_cons.mpr ⟨htest, List.forall_mem_cons.mpr ⟨hconsequent, ?_⟩⟩
    exact List.forall_mem_singleton.mpr (Piece.fits_statement.mpr halternate)
  · exact List.forall_mem_cons.mpr ⟨htest, List.forall_mem_singleton.mpr hconsequent⟩

theorem keeps_returnStatement (hn : n.Keeps) (c : Context) :
    Keeps m (returnStatement n c) (Stmt.Fits m) := by
  unfold returnStatement
  refine .ite (fun _ => .failed) fun _ => ?_
  have hrest {value : Option Expr} (hvalue : ∀ x ∈ value, x.Fits m) : Keeps m
      (Parser.endStatement >>= fun _ => pure (Stmt.returnStmt value)) (Stmt.Fits m) :=
    .skip .endStatement fun _ => .pure (fits_option hvalue)
  refine .advance (.current fun token => .afterBreak fun broken => .ite (fun _ => ?_) fun _ => ?_)
  · exact hrest nofun
  · exact .bind (.map (keeps_expression hn c) fun x hx => fits_some hx) fun value hvalue =>
      hrest hvalue

theorem steady_jumpLabel : Steady jumpLabel := by
  unfold jumpLabel
  refine .bind .afterBreak fun broken => .ite .pure (.bind .currentName fun name => ?_)
  exact .ite (.bind .advance fun _ => .pure) .pure

theorem steady_checkJump (c : Context) (continues : Bool) (label : Option String) :
    Steady (checkJump c continues label) := by
  unfold checkJump
  split
  · split
    · exact .fail
    · exact .ite .fail .pure
  · exact .ite (.ite .pure .fail) (.ite .pure .fail)

theorem keeps_jumpStatement (c : Context) (continues : Bool) :
    Keeps m (jumpStatement c continues) (Stmt.Fits m) := by
  unfold jumpStatement
  refine .advance (.skip steady_jumpLabel fun label => .skip (steady_checkJump _ _ _) fun _ => ?_)
  refine .skip .endStatement fun _ => .pure ?_
  cases continues <;> exact nofun

theorem keeps_throwStatement (hn : n.Keeps) (c : Context) :
    Keeps m (throwStatement n c) (Stmt.Fits m) := by
  unfold throwStatement
  refine .advance (.afterBreak fun broken => .ite (fun _ => .failed) fun _ => ?_)
  refine .bind (keeps_expression hn c) fun value hvalue => .skip .endStatement fun _ => .pure ?_
  exact List.forall_mem_singleton.mpr (Piece.fits_whole.mpr hvalue)

theorem keeps_handler (hn : n.Keeps) (c : Context) :
    Keeps m (handler n c) fun h => (Piece.handler h).Fits m := by
  unfold handler
  refine .skip .eat fun opened => .ite (fun _ => ?_) fun _ => ?_
  · refine .bind (keeps_bindingPattern hn c) fun parameter hparameter => .skip .expect fun _ => ?_
    refine .bind (keeps_block hn c) fun body hbody => .pure (Piece.fits_handler.mpr ⟨?_, hbody⟩)
    exact fun p hp => by cases hp; exact hparameter
  · exact .bind (keeps_block hn c) fun body hbody =>
      .pure (Piece.fits_handler.mpr ⟨nofun, hbody⟩)

theorem keeps_tryStatement (hn : n.Keeps) (c : Context) :
    Keeps m (tryStatement n c) (Stmt.Fits m) := by
  unfold tryStatement
  refine .advance (.bind (keeps_block hn c) fun tried htried => ?_)
  have hdone {handler : Option Handler} {finalizer : Option (List Stmt)}
      (hhandler : ∀ q ∈ handler.toList.map Piece.handler, q.Fits m)
      (hfinalizer : ∀ q ∈ finalizer.toList.flatMap fun body => body.map Piece.statement, q.Fits m) :
      Keeps m
      (do
        if handler.isNone && finalizer.isNone then throw .missingHandler
        return Stmt.tryStmt tried handler finalizer) (Stmt.Fits m) := by
    refine .ite (fun _ => .failed) fun _ => .pure ?_
    refine List.forall_mem_append.mpr ⟨fits_pieces htried, ?_⟩
    exact List.forall_mem_append.mpr ⟨hhandler, hfinalizer⟩
  have hfinally {handler : Option Handler}
      (hhandler : ∀ q ∈ handler.toList.map Piece.handler, q.Fits m) : Keeps m
      (do
        let finalizer ← if ← Parser.eatWord .finallyWord then some <$> block n c else pure none
        if handler.isNone && finalizer.isNone then throw .missingHandler
        return Stmt.tryStmt tried handler finalizer) (Stmt.Fits m) := by
    refine .skip .eatWord fun finalized => .ite (fun _ => ?_) fun _ => hdone hhandler nofun
    refine .bind (.map (keeps_block hn c) fun body hbody => ?_) fun f hf => hdone hhandler hf
    exact List.forall_mem_append.mpr ⟨fits_pieces hbody, nofun⟩
  refine .skip .eatWord fun caught => .ite (fun _ => ?_) fun _ => hfinally nofun
  refine .bind (.map (keeps_handler hn c) fun handler hhandler => ?_) fun h hh => hfinally hh
  exact List.forall_mem_singleton.mpr hhandler

theorem keeps_clauseItems (hn : n.Keeps) (c : Context) (declared : List String) (rounds : Nat) :
    Keeps m (clauseItems n c declared rounds) fun found => ∀ s ∈ found.1, s.Fits m := by
  induction rounds generalizing declared with
  | zero => exact .fail
  | succ rounds ih =>
    unfold clauseItems
    refine .current fun token => .ite (fun _ => .pure nofun) fun _ => ?_
    refine .bind (hn.item c) fun first hfirst => .skip (steady_declareAll _ _) fun names => ?_
    exact .bind (ih names) fun others hothers => .pure (List.forall_mem_cons.mpr ⟨hfirst, hothers⟩)

def FitsClause (m : Bool) (clause : SwitchCase) : Prop :=
  (∀ x ∈ clause.test, x.Fits m) ∧ ∀ s ∈ clause.body, s.Fits m

theorem keeps_switchClauses (hn : n.Keeps) (c : Context) (declared : List String)
    (hasDefault : Bool) (rounds : Nat) :
    Keeps m (switchClauses n c declared hasDefault rounds) fun clauses =>
      ∀ clause ∈ clauses, FitsClause m clause := by
  induction rounds generalizing declared hasDefault with
  | zero => exact .fail
  | succ rounds ih =>
    unfold switchClauses
    refine .skip .atSign fun closed => .ite (fun _ => .pure nofun) fun _ => ?_
    have hrest {test : Option Expr} (htest : ∀ x ∈ test, x.Fits m) : Keeps m
        (do
          Parser.expect .colon
          let found ← clauseItems n c declared n.rounds
          let others ← switchClauses n c found.2 (hasDefault || test.isNone) rounds
          return SwitchCase.mk test found.1 :: others)
        fun clauses => ∀ clause ∈ clauses, FitsClause m clause := by
      refine .skip .expect fun _ => .bind (keeps_clauseItems hn c _ _) fun found hfound => ?_
      refine .bind (ih found.2 _) fun others hothers => .pure ?_
      exact List.forall_mem_cons.mpr ⟨⟨htest, hfound⟩, hothers⟩
    refine .skip .eatWord fun isCase => .ite (fun _ => ?_) fun _ => .skip .expectWord fun _ => ?_
    · exact .bind (.map (keeps_expression hn c) fun x hx => fits_some hx)
        fun test htest => hrest htest
    · exact .ite (fun _ => .failed) fun _ => hrest nofun

theorem keeps_switchStatement (hn : n.Keeps) (c : Context) :
    Keeps m (switchStatement n c) (Stmt.Fits m) := by
  unfold switchStatement
  refine .advance (.bind (keeps_condition hn c) fun subject hsubject => .skip .expect fun _ => ?_)
  refine .bind (keeps_switchClauses hn _ _ _ _) fun clauses hclauses => .skip .expect fun _ => ?_
  refine .pure (List.forall_mem_cons.mpr ⟨Piece.fits_whole.mpr hsubject, ?_⟩)
  exact List.forall_mem_flatMap.mpr fun clause hclause => List.forall_mem_append.mpr
    ⟨fits_option (hclauses clause hclause).1, fits_pieces (hclauses clause hclause).2⟩

/-! ### Loops -/

theorem keeps_loopBody (hn : n.Keeps) (c : Context) :
    Keeps m (loopBody n c) (Stmt.Fits m) :=
  hn.statement c.loopBody none

theorem keeps_whileStatement (hn : n.Keeps) (c : Context) :
    Keeps m (whileStatement n c) (Stmt.Fits m) := by
  unfold whileStatement
  refine .advance (.bind (keeps_condition hn c) fun test htest => ?_)
  refine .bind (keeps_loopBody hn c) fun body hbody => .pure ?_
  refine List.forall_mem_cons.mpr ⟨Piece.fits_whole.mpr htest, ?_⟩
  exact List.forall_mem_singleton.mpr (Piece.fits_statement.mpr hbody)

theorem keeps_doWhileStatement (hn : n.Keeps) (c : Context) :
    Keeps m (doWhileStatement n c) (Stmt.Fits m) := by
  unfold doWhileStatement
  refine .advance (.bind (keeps_loopBody hn c) fun body hbody => .skip .expectWord fun _ => ?_)
  refine .bind (keeps_condition hn c) fun test htest => .skip .eat fun _ => .pure ?_
  refine List.forall_mem_cons.mpr ⟨Piece.fits_statement.mpr hbody, ?_⟩
  exact List.forall_mem_singleton.mpr (Piece.fits_whole.mpr htest)

def FitsHead (m : Bool) : LoopHead → Prop
  | .keys (.declaration d) => (Piece.declaration d).Fits m
  | .keys (.pattern p) => (Piece.pattern p).Fits m
  | .test none => True
  | .test (some (.declaration d)) => (Piece.declaration d).Fits m
  | .test (some (.expression x)) => (Piece.whole x).Fits m

theorem keeps_declarationHead (hn : n.Keeps) (c : Context) (kind : DeclarationKind) :
    Keeps m (declarationHead n c kind) (FitsHead m) := by
  unfold declarationHead
  refine .advance (.bind (keeps_declarators hn c kind _) fun list hlist => ?_)
  have hdeclared : (Piece.declaration ⟨kind, list⟩).Fits m := Piece.fits_declaration.mpr hlist
  refine .skip .atWord fun keyed => .ite (fun _ => ?_) fun _ => ?_
  · split
    · exact .isStrict (.ite (fun _ => .failed) fun _ => .advance (.pure hdeclared))
    · exact .fail
  · exact .skip (steady_checkInitializers _) fun _ => .pure hdeclared

theorem keeps_loopHead (hn : n.Keeps) (c : Context) : Keeps m (loopHead n c) (FitsHead m) := by
  unfold loopHead
  refine .skip steady_atLetDeclaration fun isLet =>
    .ite (fun _ => keeps_declarationHead hn c _) fun _ => .current fun token => ?_
  split
  · exact .pure trivial
  · exact keeps_declarationHead hn c _
  · exact keeps_declarationHead hn c _
  refine .bind (keeps_expression hn c) fun value hvalue => .skip .eatWord fun keyed => ?_
  refine .ite (fun _ => .isStrict ?_) fun _ => .pure (Piece.fits_whole.mpr hvalue)
  split
  · next target heq => exact .pure (Expr.fits_toPattern hvalue heq)
  · exact .fail

theorem keeps_optionalExpression (hn : n.Keeps) (c : Context) (close : Punctuator) :
    Keeps m (optionalExpression n c close) fun x => ∀ y ∈ x, y.Fits m := by
  unfold optionalExpression
  refine .skip .atSign fun closed => .ite (fun _ => .pure nofun) fun _ => ?_
  exact .bind (keeps_expression hn c) fun value hvalue => .pure (fits_some hvalue)

theorem keeps_forStatement (hn : n.Keeps) (c : Context) :
    Keeps m (forStatement n c) (Stmt.Fits m) := by
  unfold forStatement
  refine .advance (.skip .expect fun _ => .bind (keeps_loopHead hn _) fun head hhead => ?_)
  cases head with
  | keys target =>
    refine .bind (keeps_expression hn c) fun object hobject => .skip .expect fun _ => ?_
    refine .bind (keeps_loopBody hn c) fun body hbody => .pure (List.forall_mem_cons.mpr ⟨?_, ?_⟩)
    · cases target <;> exact hhead
    · refine List.forall_mem_cons.mpr ⟨Piece.fits_whole.mpr hobject, ?_⟩
      exact List.forall_mem_singleton.mpr (Piece.fits_statement.mpr hbody)
  | test init =>
    refine .skip .expect fun _ => .bind (keeps_optionalExpression hn c _) fun test htest => ?_
    refine .skip .expect fun _ => .bind (keeps_optionalExpression hn c _) fun update hupdate => ?_
    refine .skip .expect fun _ => .bind (keeps_loopBody hn c) fun body hbody => .pure ?_
    refine List.forall_mem_append.mpr ⟨?_, List.forall_mem_append.mpr ⟨fits_option htest, ?_⟩⟩
    · cases init with
      | none => exact nofun
      | some init => cases init <;> exact List.forall_mem_singleton.mpr hhead
    · refine List.forall_mem_append.mpr ⟨fits_option hupdate, ?_⟩
      exact List.forall_mem_singleton.mpr (Piece.fits_statement.mpr hbody)

/-! ### All statements -/

theorem keeps_statement (hn : n.Keeps) (c : Context) (chain : Option Nat) :
    Keeps m (statement n c chain) (Stmt.Fits m) := by
  unfold statement
  refine .current fun token => ?_
  split
  · exact .bind (keeps_block hn c) fun body hbody => .pure (fits_pieces hbody)
  · exact .advance (.pure nofun)
  · exact .fail
  · exact keeps_declarationStatement hn c _
  · exact keeps_ifStatement hn c
  · exact keeps_whileStatement hn c
  · exact keeps_doWhileStatement hn c
  · exact keeps_forStatement hn c
  · exact keeps_returnStatement hn c
  · exact keeps_jumpStatement c _
  · exact keeps_jumpStatement c _
  · exact keeps_throwStatement hn c
  · exact keeps_tryStatement hn c
  · exact keeps_switchStatement hn c
  · exact .isStrict (.ite (fun _ => .fail) fun _ => .fail)
  · exact .fail
  · exact .advance (.skip .endStatement fun _ => .pure nofun)
  · exact keeps_expressionOrLabeled hn c chain

theorem keeps_item (hn : n.Keeps) (c : Context) : Keeps m (item n c) (Stmt.Fits m) := by
  unfold item
  refine .skip steady_atLetDeclaration fun isLet =>
    .ite (fun _ => keeps_declarationStatement hn c _) fun _ => .current fun token => ?_
  split
  · exact .bind (keeps_functionDeclaration hn c) fun d hd =>
      .pure (List.forall_mem_singleton.mpr hd)
  · exact keeps_declarationStatement hn c _
  · exact keeps_statement hn c none

/-! ### All rules -/

/-- The rules of every depth go step by step, keep the mode and yield what fits it. -/
theorem keeps_nesting (depth : Nat) : (nesting depth).Keeps := by
  have hparse : ∀ depth g c m, Keeps m (parse depth g c) (g.Fits m) := by
    intro depth
    induction depth with
    | zero => exact fun g c m => .fail
    | succ depth ih =>
      intro g c m
      have hn : Nesting.Keeps ⟨depth + 1, parse depth⟩ := ih
      cases g with
      | assignment cover => exact keeps_assignment hn c cover
      | binary strength => exact keeps_binary hn c strength
      | power => exact keeps_power hn c
      | unary => exact keeps_unary hn c
      | construct => exact keeps_construct hn c
      | pattern => exact keeps_bindingPattern hn c
      | element => exact keeps_bindingElement hn c (keeps_bindingPattern hn c)
      | statement chain => exact keeps_statement hn c chain
      | item => exact keeps_item hn c
  exact hparse depth

end Grammar

end ProtoScript
