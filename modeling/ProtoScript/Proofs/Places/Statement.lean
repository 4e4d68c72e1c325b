import ProtoScript.Proofs.Places.Expression
/-!
# Statements in their places

What the rules for statements yield, if the rules for what is nested in them yield what they are to
yield.  Whatever a statement takes up is a whole, and its declarations and handlers bind names.
-/

namespace ProtoScript.Grammar

variable {n : Nesting}

abbrev PlacedStatement (s : Stmt) : Prop := (Piece.statement s).Placed

theorem PlacedStatement.of_pieces {s : Stmt} (h : ∀ q ∈ s.pieces, q.Placed) : PlacedStatement s :=
  .intro trivial h

abbrev PlacedOption (x : Option Expr) : Prop := ∀ q ∈ x.toList.map Piece.whole, q.Placed

theorem placedOption_of {x : Option Expr} (h : ∀ y ∈ x, (Piece.whole y).Placed) : PlacedOption x :=
  List.forall_mem_map.mpr fun y hy => h y (Option.mem_toList.mp hy)

abbrev PlacedStatements (body : List Stmt) : Prop := ∀ q ∈ body.map Piece.statement, q.Placed

/-! ### Declarations -/

def DeclaratorBinds (d : Declarator) : Prop := d.target.Binds ∧ PlacedOption d.init

theorem places_declarators (hn : n.Placed) (c : Context) (kind : DeclarationKind) (rounds : Nat) :
    Yields (declarators n c kind rounds) fun list => ∀ d ∈ list, DeclaratorBinds d :=
  (Yields.all_declarators (places_bindingPattern hn c) (hn.assignment c) kind rounds).mono
    fun _ h d hd => ⟨(h d hd).1, placedOption_of (h d hd).2⟩

theorem placed_declaration {kind : DeclarationKind} {list : List Declarator}
    (h : ∀ d ∈ list, DeclaratorBinds d) : (Piece.declaration ⟨kind, list⟩).Placed := by
  refine .intro (fun d hd => (h d hd).1.names) (List.forall_mem_flatMap.mpr fun d hd => ?_)
  exact List.forall_mem_cons.mpr ⟨(h d hd).1.placed, (h d hd).2⟩

theorem places_declarationStatement (hn : n.Placed) (c : Context) (kind : DeclarationKind) :
    Yields (declarationStatement n c kind) PlacedStatement := by
  unfold declarationStatement
  refine .skip fun _ => .bind (places_declarators hn c kind _) fun list hlist => ?_
  refine .skip fun _ => .skip fun _ => .pure (.of_pieces ?_)
  exact List.forall_mem_singleton.mpr (placed_declaration hlist)

/-! ### Blocks -/

theorem places_condition (hn : n.Placed) (c : Context) :
    Yields (condition n c) fun x => (Piece.whole x).Placed :=
  .in_condition (places_expression hn c)

theorem places_block (hn : n.Placed) (c : Context) : Yields (block n c) PlacedStatements :=
  (Yields.all_block (hn.item c)).mono fun _ h => List.forall_mem_map.mpr h

/-! ### Statements that are no loops -/

theorem places_expressionStatement (hn : n.Placed) (c : Context) :
    Yields (expressionStatement n c) PlacedStatement := by
  unfold expressionStatement
  refine .bind (places_expression hn c) fun value hvalue => .skip fun _ => .pure (.of_pieces ?_)
  exact List.forall_mem_singleton.mpr hvalue

theorem places_labeledStatement (hn : n.Placed) (c : Context) (chain : Option Nat)
    (name : String) : Yields (labeledStatement n c chain name) PlacedStatement := by
  unfold labeledStatement
  refine .skip fun _ => .skip fun _ => .ite (fun _ => .failed) fun _ => .skip fun token => ?_
  refine .ite (fun _ => .failed) fun _ => .bind (hn.statement _ _) fun body hbody => .pure ?_
  exact .of_pieces (List.forall_mem_singleton.mpr hbody)

theorem places_expressionOrLabeled (hn : n.Placed) (c : Context) (chain : Option Nat) :
    Yields (expressionOrLabeled n c chain) PlacedStatement := by
  unfold expressionOrLabeled
  refine .skip fun name => ?_
  cases name with
  | none => exact places_expressionStatement hn c
  | some name =>
    refine .skip fun next => .ite (fun _ => ?_) fun _ => places_expressionStatement hn c
    exact places_labeledStatement hn c chain name

theorem places_ifStatement (hn : n.Placed) (c : Context) :
    Yields (ifStatement n c) PlacedStatement := by
  unfold ifStatement
  refine .skip fun _ => .bind (places_condition hn c) fun test htest => ?_
  refine .bind (hn.statement c none) fun consequent hconsequent => .skip fun otherwise => ?_
  refine .ite (fun _ => ?_) fun _ => .pure (.of_pieces ?_)
  · refine .bind (hn.statement c none) fun alternate halternate => .pure (.of_pieces ?_)
    refine List.forall_mem_cons.mpr ⟨htest, List.forall_mem_cons.mpr ⟨hconsequent, ?_⟩⟩
    exact List.forall_mem_singleton.mpr halternate
  · exact List.forall_mem_cons.mpr ⟨htest, List.forall_mem_singleton.mpr hconsequent⟩

theorem places_returnStatement (hn : n.Placed) (c : Context) :
    Yields (returnStatement n c) PlacedStatement := by
  unfold returnStatement
  refine .ite (fun _ => .failed) fun _ => ?_
  have hrest {value : Option Expr} (hvalue : PlacedOption value) : Yields
      (Parser.endStatement >>= fun _ => pure (Stmt.returnStmt value)) PlacedStatement :=
    .skip fun _ => .pure (.of_pieces hvalue)
  refine .skip fun _ => .skip fun token => .skip fun broken => .ite (fun _ => ?_) fun _ => ?_
  · exact hrest nofun
  · exact .bind (.some_map (places_expression hn c)) fun value hvalue =>
      hrest (placedOption_of hvalue)

theorem places_jumpStatement (c : Context) (continues : Bool) :
    Yields (jumpStatement c continues) PlacedStatement := by
  unfold jumpStatement
  refine .skip fun _ => .skip fun label => .skip fun _ => .skip fun _ => .pure (.of_pieces ?_)
  cases continues <;> exact nofun

theorem places_throwStatement (hn : n.Placed) (c : Context) :
    Yields (throwStatement n c) PlacedStatement := by
  unfold throwStatement
  refine .skip fun _ => .skip fun broken => .ite (fun _ => .failed) fun _ => ?_
  refine .bind (places_expression hn c) fun value hvalue => .skip fun _ => .pure (.of_pieces ?_)
  exact List.forall_mem_singleton.mpr hvalue

theorem places_tryStatement (hn : n.Placed) (c : Context) :
    Yields (tryStatement n c) PlacedStatement := by
  refine .in_tryStatement (places_bindingPattern hn c) (hn.item c) ?_
  intro tried handler finalizer htried hhandler hfinalizer
  refine .of_pieces (List.forall_mem_append.mpr ⟨List.forall_mem_map.mpr htried, ?_⟩)
  refine List.forall_mem_append.mpr ⟨List.forall_mem_map.mpr fun h hh => ?_, ?_⟩
  · obtain ⟨hparameter, hbody⟩ := hhandler h (Option.mem_toList.mp hh)
    refine .intro (fun p hp => (hparameter p hp).names) (List.forall_mem_append.mpr ⟨?_, ?_⟩)
    · exact List.forall_mem_map.mpr fun p hp => (hparameter p (Option.mem_toList.mp hp)).placed
    · exact List.forall_mem_map.mpr hbody
  · exact List.forall_mem_flatMap.mpr fun body hbody =>
      List.forall_mem_map.mpr (hfinalizer body (Option.mem_toList.mp hbody))

def PlacedClause (clause : SwitchCase) : Prop :=
  PlacedOption clause.test ∧ PlacedStatements clause.body

theorem places_switchClauses (hn : n.Placed) (c : Context) (declared : List String)
    (hasDefault : Bool) (rounds : Nat) :
    Yields (switchClauses n c declared hasDefault rounds) fun clauses =>
      ∀ clause ∈ clauses, PlacedClause clause :=
  (Yields.all_switchClauses (places_expression hn c) (hn.item c) declared hasDefault rounds).mono
    fun _ h clause hclause =>
      ⟨placedOption_of (h clause hclause).1, List.forall_mem_map.mpr (h clause hclause).2⟩

theorem places_switchStatement (hn : n.Placed) (c : Context) :
    Yields (switchStatement n c) PlacedStatement := by
  unfold switchStatement
  refine .skip fun _ => .bind (places_condition hn c) fun subject hsubject => .skip fun _ => ?_
  refine .bind (places_switchClauses hn _ _ _ _) fun clauses hclauses => .skip fun _ => ?_
  refine .pure (.of_pieces (List.forall_mem_cons.mpr ⟨hsubject, ?_⟩))
  exact List.forall_mem_flatMap.mpr fun clause hclause =>
    List.forall_mem_append.mpr (hclauses clause hclause)

/-! ### Loops -/

theorem places_loopBody (hn : n.Placed) (c : Context) : Yields (loopBody n c) PlacedStatement :=
  hn.statement c.loopBody none

theorem places_whileStatement (hn : n.Placed) (c : Context) :
    Yields (whileStatement n c) PlacedStatement := by
  unfold whileStatement
  refine .skip fun _ => .bind (places_condition hn c) fun test htest => ?_
  refine .bind (places_loopBody hn c) fun body hbody => .pure (.of_pieces ?_)
  exact List.forall_mem_cons.mpr ⟨htest, List.forall_mem_singleton.mpr hbody⟩

theorem places_doWhileStatement (hn : n.Placed) (c : Context) :
    Yields (doWhileStatement n c) PlacedStatement := by
  unfold doWhileStatement
  refine .skip fun _ => .bind (places_loopBody hn c) fun body hbody => .skip fun _ => ?_
  refine .bind (places_condition hn c) fun test htest => .skip fun _ => .pure (.of_pieces ?_)
  exact List.forall_mem_cons.mpr ⟨hbody, List.forall_mem_singleton.mpr htest⟩

def PlacedHead : LoopHead → Prop
  | .keys (.declaration d) => (Piece.declaration d).Placed
  | .keys (.pattern p) => (Piece.pattern p).Placed
  | .test none => True
  | .test (some (.declaration d)) => (Piece.declaration d).Placed
  | .test (some (.expression x)) => (Piece.whole x).Placed

theorem places_declarationHead (hn : n.Placed) (c : Context) (kind : DeclarationKind) :
    Yields (declarationHead n c kind) PlacedHead := by
  unfold declarationHead
  refine .skip fun _ => .bind (places_declarators hn c kind _) fun list hlist => ?_
  have hdeclared : (Piece.declaration ⟨kind, list⟩).Placed := placed_declaration hlist
  refine .skip fun keyed => .ite (fun _ => ?_) fun _ => .skip fun _ => .pure hdeclared
  split
  · exact .skip fun strict => .ite (fun _ => .failed) fun _ => .skip fun _ => .pure hdeclared
  · exact .fail

theorem places_loopHead (hn : n.Placed) (c : Context) : Yields (loopHead n c) PlacedHead := by
  unfold loopHead
  refine .skip fun isLet => .ite (fun _ => places_declarationHead hn c _) fun _ => ?_
  refine .skip fun token => ?_
  split
  · exact .pure trivial
  · exact places_declarationHead hn c _
  · exact places_declarationHead hn c _
  refine .bind (places_expression hn c) fun value hvalue => .skip fun keyed => ?_
  refine .ite (fun _ => .skip fun strict => ?_) fun _ => .pure hvalue
  split
  · rename_i target heq
    exact .pure (Expr.placed_toPattern hvalue.operand heq)
  · exact .fail

theorem places_optionalExpression (hn : n.Placed) (c : Context) (close : Punctuator) :
    Yields (optionalExpression n c close) PlacedOption :=
  (Yields.all_optionalExpression (places_expression hn c) close).mono fun _ => placedOption_of

theorem places_forStatement (hn : n.Placed) (c : Context) :
    Yields (forStatement n c) PlacedStatement := by
  unfold forStatement
  refine .skip fun _ => .skip fun _ => .bind (places_loopHead hn _) fun head hhead => ?_
  cases head with
  | keys target =>
    refine .bind (places_expression hn c) fun object hobject => .skip fun _ => ?_
    refine .bind (places_loopBody hn c) fun body hbody => .pure (.of_pieces ?_)
    refine List.forall_mem_cons.mpr ⟨?_, List.forall_mem_cons.mpr ⟨hobject, ?_⟩⟩
    · cases target <;> exact hhead
    · exact List.forall_mem_singleton.mpr hbody
  | test init =>
    refine .skip fun _ => .bind (places_optionalExpression hn c _) fun test htest => ?_
    refine .skip fun _ => .bind (places_optionalExpression hn c _) fun update hupdate => ?_
    refine .skip fun _ => .bind (places_loopBody hn c) fun body hbody => .pure (.of_pieces ?_)
    refine List.forall_mem_append.mpr ⟨?_, List.forall_mem_append.mpr ⟨htest, ?_⟩⟩
    · cases init with
      | none => exact nofun
      | some init => cases init <;> exact List.forall_mem_singleton.mpr hhead
    · exact List.forall_mem_append.mpr ⟨hupdate, List.forall_mem_singleton.mpr hbody⟩

/-! ### All statements -/

theorem places_statement (hn : n.Placed) (c : Context) (chain : Option Nat) :
    Yields (statement n c chain) PlacedStatement := by
  unfold statement
  refine .skip fun token => ?_
  split
  · exact .bind (places_block hn c) fun body hbody => .pure (.of_pieces hbody)
  · exact .skip fun _ => .pure (.of_pieces nofun)
  · exact .fail
  · exact places_declarationStatement hn c _
  · exact places_ifStatement hn c
  · exact places_whileStatement hn c
  · exact places_doWhileStatement hn c
  · exact places_forStatement hn c
  · exact places_returnStatement hn c
  · exact places_jumpStatement c _
  · exact places_jumpStatement c _
  · exact places_throwStatement hn c
  · exact places_tryStatement hn c
  · exact places_switchStatement hn c
  · exact .skip fun strict => .ite (fun _ => .fail) fun _ => .fail
  · exact .fail
  · exact .skip fun _ => .skip fun _ => .pure (.of_pieces nofun)
  · exact places_expressionOrLabeled hn c chain

theorem places_item (hn : n.Placed) (c : Context) : Yields (item n c) PlacedStatement := by
  unfold item
  refine .skip fun isLet => .ite (fun _ => places_declarationStatement hn c _) fun _ => ?_
  refine .skip fun token => ?_
  split
  · exact .bind (places_functionDeclaration hn c) fun d hd =>
      .pure (.of_pieces (List.forall_mem_singleton.mpr hd))
  · exact places_declarationStatement hn c _
  · exact places_statement hn c none

end ProtoScript.Grammar
