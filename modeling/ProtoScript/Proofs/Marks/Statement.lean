import ProtoScript.Proofs.Grammar.Statement
import ProtoScript.Proofs.Marks.Expression
/-!
# Statements with marks

Loops and switches are counted while their bodies are read.  The labels in front of a statement stay
known to be on a loop until each of them is dropped behind the statement, so a statement leaves only
the labels around its own chain as they were.
-/

namespace ProtoScript.Marked

variable {N : Nesting} {n : Grammar.Nesting} {m : Marks} (hn : N.Matches n) (hm : m.Clear)

include hn hm

/-! ### Declarations and blocks -/

theorem keeps_declarators (kind : DeclarationKind) (rounds : Nat) :
    Keeps m (declarators N kind rounds) (Grammar.declarators n m.context kind rounds) := by
  induction rounds with
  | zero => exact .fail
  | succ rounds ih =>
    unfold declarators Grammar.declarators
    refine (keeps_bindingPattern hn hm).bind fun target => ?_
    refine .ite .failed (.step fun assigned => .ite (.bind (.map (hn.whole hm) _) ?_) ?_)
    · exact fun init => .step fun more => .ite (ih.bind fun others => .done) .done
    · exact .step fun more => .ite (ih.bind fun others => .done) .done

theorem keeps_declarationStatement (kind : DeclarationKind) :
    Keeps m (declarationStatement N kind) (Grammar.declarationStatement n m.context kind) := by
  unfold declarationStatement Grammar.declarationStatement
  rw [hn.rounds]
  refine .step fun _ => (keeps_declarators hn hm _ _).bind fun list => ?_
  exact .step fun _ => .step fun _ => .done

theorem keeps_condition : Keeps m (condition N) (Grammar.condition n m.context) := by
  unfold condition Grammar.condition
  exact .step fun _ => (keeps_expression hn hm).bind fun test => .step fun _ => .done

theorem keeps_blockItems (declared : List String) (rounds : Nat) :
    Keeps m (blockItems N declared rounds) (Grammar.blockItems n m.context declared rounds) := by
  induction rounds generalizing declared with
  | zero => exact .fail
  | succ rounds ih =>
    unfold blockItems Grammar.blockItems
    refine .step fun closed => .ite .done (.step fun ended => .ite .fail ?_)
    refine (hn.item m hm).bind fun first => .step fun names => ?_
    exact (ih names).bind fun others => .done

theorem keeps_block : Keeps m (block N) (Grammar.block n m.context) := by
  unfold block Grammar.block
  rw [hn.rounds]
  exact .step fun _ => (keeps_blockItems hn hm _ _).bind fun body => .step fun _ => .done

/-! ### Statements that are no loops -/

theorem keeps_expressionStatement :
    Keeps m (expressionStatement N) (Grammar.expressionStatement n m.context) := by
  unfold expressionStatement Grammar.expressionStatement
  exact (keeps_expression hn hm).bind fun value => .step fun _ => .done

theorem keeps_ifStatement : Keeps m (ifStatement N) (Grammar.ifStatement n m.context) := by
  unfold ifStatement Grammar.ifStatement
  refine .step fun _ => (keeps_condition hn hm).bind fun test => ?_
  refine (hn.plain hm).bind fun consequent => .step fun otherwise => .ite ?_ .done
  exact (hn.plain hm).bind fun alternate => .done

theorem keeps_returnStatement :
    Keeps m (returnStatement N) (Grammar.returnStatement n m.context) := by
  unfold returnStatement Grammar.returnStatement
  refine .marks (.ite .failed (.step fun _ => .step fun token => .step fun broken => ?_))
  refine .ite (.step fun _ => .done) ?_
  exact .bind (.map (keeps_expression hn hm) _) fun value => .step fun _ => .done

omit hn hm in
theorem keeps_jumpStatement (continues : Bool) :
    Keeps m (jumpStatement continues) (Grammar.jumpStatement m.context continues) := by
  unfold jumpStatement Grammar.jumpStatement
  exact .step fun _ => .step fun label => .marks (.step fun _ => .step fun _ => .done)

theorem keeps_throwStatement :
    Keeps m (throwStatement N) (Grammar.throwStatement n m.context) := by
  unfold throwStatement Grammar.throwStatement
  refine .step fun _ => .step fun broken => .ite .failed ?_
  exact (keeps_expression hn hm).bind fun value => .step fun _ => .done

theorem keeps_handler : Keeps m (handler N) (Grammar.handler n m.context) := by
  unfold handler Grammar.handler
  refine .step fun opened => .ite ?_ ((keeps_block hn hm).bind fun body => .done)
  refine (keeps_bindingPattern hn hm).bind fun parameter => .step fun _ => ?_
  exact (keeps_block hn hm).bind fun body => .done

theorem keeps_tryStatement : Keeps m (tryStatement N) (Grammar.tryStatement n m.context) := by
  unfold tryStatement Grammar.tryStatement
  refine .step fun _ => (keeps_block hn hm).bind fun tried => .step fun caught => .ite ?_ ?_
  · refine .bind (.map (keeps_handler hn hm) _) fun handler => .step fun finalized => .ite ?_ ?_
    · exact .bind (.map (keeps_block hn hm) _) fun finalizer => .ite .failed .done
    · exact .bind .done fun finalizer => .ite .failed .done
  · refine .bind .done fun handler => .step fun finalized => .ite ?_ ?_
    · exact .bind (.map (keeps_block hn hm) _) fun finalizer => .ite .failed .done
    · exact .bind .done fun finalizer => .ite .failed .done

theorem keeps_clauseItems (declared : List String) (rounds : Nat) :
    Keeps m (clauseItems N declared rounds) (Grammar.clauseItems n m.context declared rounds) := by
  induction rounds generalizing declared with
  | zero => exact .fail
  | succ rounds ih =>
    unfold clauseItems Grammar.clauseItems
    refine .step fun token => .ite .done ((hn.item m hm).bind fun first => .step fun names => ?_)
    exact (ih names).bind fun found => .done

theorem keeps_switchClauses (declared : List String) (hasDefault : Bool) (rounds : Nat) :
    Keeps m (switchClauses N declared hasDefault rounds)
      (Grammar.switchClauses n m.context declared hasDefault rounds) := by
  induction rounds generalizing declared hasDefault with
  | zero => exact .fail
  | succ rounds ih =>
    unfold switchClauses Grammar.switchClauses
    rw [hn.rounds]
    refine .step fun closed => .ite .done (.step fun isCase => .ite ?_ ?_)
    · refine .bind (.map (keeps_expression hn hm) _) fun test => .step fun _ => ?_
      exact (keeps_clauseItems hn hm _ _).bind fun found => (ih _ _).bind fun others => .done
    · refine .step fun _ => .ite .failed (.step fun _ => ?_)
      exact (keeps_clauseItems hn hm _ _).bind fun found => (ih _ _).bind fun others => .done

theorem keeps_switchStatement :
    Keeps m (switchStatement N) (Grammar.switchStatement n m.context) := by
  unfold switchStatement Grammar.switchStatement
  rw [hn.rounds]
  refine .step fun _ => (keeps_condition hn hm).bind fun subject => .step fun _ => ?_
  refine .bind (.around (keeps_switchClauses hn hm.switchBody _ _ _) ?_) fun clauses => ?_
  · exact fun m' hm' => by rw [hm']; rfl
  · exact .step fun _ => .done

/-! ### Loops -/

theorem keeps_loopBody : Keeps m (loopBody N) (Grammar.loopBody n m.context) :=
  .around (hn.plain hm.loopBody) fun m' hm' => by rw [hm']; rfl

theorem keeps_whileStatement :
    Keeps m (whileStatement N) (Grammar.whileStatement n m.context) := by
  unfold whileStatement Grammar.whileStatement
  refine .step fun _ => (keeps_condition hn hm).bind fun test => ?_
  exact (keeps_loopBody hn hm).bind fun body => .done

theorem keeps_doWhileStatement :
    Keeps m (doWhileStatement N) (Grammar.doWhileStatement n m.context) := by
  unfold doWhileStatement Grammar.doWhileStatement
  refine .step fun _ => (keeps_loopBody hn hm).bind fun body => .step fun _ => ?_
  exact (keeps_condition hn hm).bind fun test => .step fun _ => .done

theorem keeps_declarationHead (kind : DeclarationKind) :
    Keeps m (declarationHead N kind) (Grammar.declarationHead n m.context kind) := by
  unfold declarationHead Grammar.declarationHead
  rw [hn.rounds]
  refine .step fun _ => (keeps_declarators hn hm _ _).bind fun list => .step fun keyed => ?_
  refine .ite ?_ (.step fun _ => .done)
  rcases list with - | ⟨⟨target, init⟩, - | ⟨second, others⟩⟩
  · exact .fail
  · exact .step fun strict => .ite .failed (.step fun _ => .done)
  · exact .fail

theorem keeps_loopHead : Keeps m (loopHead N) (Grammar.loopHead n m.context) := by
  unfold loopHead Grammar.loopHead
  refine .step fun isLet => .ite (keeps_declarationHead hn hm _) (.step fun token => ?_)
  by_cases hsemicolon : token = .punctuator .semicolon
  · rw [hsemicolon]
    exact .done
  by_cases hvar : token = .keyword .varWord
  · rw [hvar]
    exact keeps_declarationHead hn hm _
  by_cases hconst : token = .keyword .constWord
  · rw [hconst]
    exact keeps_declarationHead hn hm _
  -- the token is none of these, which decides the cases of both rules
  simp only
  refine (keeps_expression hn hm).bind fun value => .step fun keyed => .ite ?_ .done
  refine .step fun strict => ?_
  cases value.toPattern strict with
  | ok target => exact .done
  | error e => exact .fail

theorem keeps_optionalExpression (close : Punctuator) :
    Keeps m (optionalExpression N close) (Grammar.optionalExpression n m.context close) := by
  unfold optionalExpression Grammar.optionalExpression
  exact .step fun closed => .ite .done ((keeps_expression hn hm).bind fun value => .done)

theorem keeps_forStatement : Keeps m (forStatement N) (Grammar.forStatement n m.context) := by
  unfold forStatement Grammar.forStatement
  refine .step fun _ => .step fun _ => ?_
  refine .bind (.around (keeps_loopHead hn hm.forHead) ?_) fun head => ?_
  · exact fun m' hm' => by rw [hm']; rfl
  cases head with
  | keys target =>
    refine (keeps_expression hn hm).bind fun object => .step fun _ => ?_
    exact (keeps_loopBody hn hm).bind fun body => .done
  | test init =>
    refine .step fun _ => (keeps_optionalExpression hn hm _).bind fun test => ?_
    refine .step fun _ => (keeps_optionalExpression hn hm _).bind fun update => ?_
    exact .step fun _ => (keeps_loopBody hn hm).bind fun body => .done

/-! ### Labels -/

omit hn hm in
theorem Marks.leaves_self (m : Marks) : m.Leaves { m with chain := none } := ⟨rfl, rfl, rfl⟩

omit hn hm in
/-- A rule that leaves the marks as they were leaves the labels around the chain as they were. -/
theorem follows_of_keeps {p : Reading Stmt} {q : Parser Stmt}
    (h : Keeps { m with chain := none } p q) : Follows { m with chain := none } m.Leaves p q :=
  h.mono fun m' hm' => by rw [hm']; exact m.leaves_self

omit hn hm in
theorem length_addLabel {labels : List Grammar.Label} {start : Nat} (hstart : start ≤ labels.length)
    (name : String) (onLoop : Bool) :
    (Grammar.addLabel labels start name onLoop).length = labels.length + 1 := by
  have hnames := congrArg List.length (Grammar.Context.map_name_behindLabel
    (c := { Grammar.Context.program with labels := labels }) hstart name onLoop)
  rw [List.length_append, List.length_map, List.length_map] at hnames
  exact hnames

omit hn hm in
/-- Behind a statement with one more label in front, that label is dropped. -/
theorem Marks.Leaves.dropLabel {m' : Marks} {start : Nat} {name : String} {onLoop : Bool}
    (hchain : m.chain.getD m.labels.length = start) (hstart : start ≤ m.labels.length)
    (h : Marks.Leaves
      { m with chain := some start, labels := Grammar.addLabel m.labels start name onLoop } m') :
    m.Leaves { m' with chain := none, labels := m'.labels.dropLast } := by
  have hlength : m'.labels.length = m.labels.length + 1 :=
    h.length.trans (length_addLabel hstart name onLoop)
  have houter : m'.labels.take start = m.labels.take start :=
    h.outer.trans (Grammar.Context.take_behindLabel (c := m.context) hstart name onLoop)
  refine ⟨?_, ?_, ?_⟩
  · rw [h.others]
  · rw [List.length_dropLast, hlength]
    rfl
  · rw [hchain, List.dropLast_eq_take, List.take_take, hlength, Nat.add_sub_cancel,
      Nat.min_eq_left hstart]
    exact houter

section Labels

variable (hcover : m.cover = false) (hstart : ∀ start ∈ m.chain, start ≤ m.labels.length)

include hcover

omit hm in
include hstart in
/-- A statement with a label in front.  If a loop follows, all labels of the chain are marked. -/
theorem follows_labeledStatement (name : String) :
    Follows { m with chain := none } m.Leaves (labeledStatement N m.chain name)
      (Grammar.labeledStatement n m.context m.chain name) := by
  have hbound : m.chain.getD m.labels.length ≤ m.labels.length := by
    cases hchain : m.chain with
    | none => exact Nat.le_refl _
    | some start => exact hstart start hchain
  unfold labeledStatement Grammar.labeledStatement
  refine .step fun _ => .step fun _ => .marks (.ite .failed (.mark (.step fun token => ?_)))
  generalize hchain : m.chain.getD m.labels.length = start at hbound
  have hbody (onLoop : Bool) : Follows
      { m with chain := none, labels := Grammar.addLabel m.labels start name onLoop } m.Leaves
      (around (fun m => m.chained start)
        (fun _ m => { m with chain := none, labels := m.labels.dropLast }) (N.parse .statement))
      (n.parse (.statement (some start))
        { m.context with labels := Grammar.addLabel m.labels start name onLoop }) := by
    refine .around (hn.statement (Marks.chained _ start) hcover fun s hs => ?_) fun m' hm' => ?_
    · cases hs
      exact (length_addLabel hbound name onLoop).symm ▸ Nat.le_succ_of_le hbound
    · exact Marks.Leaves.dropLabel hchain hbound hm'
  have hcontext : m.chain.getD m.context.labels.length = start := hchain
  dsimp only
  rw [hcontext]
  cases token.word?.any Grammar.startsLoop with
  | false =>
    rw [if_neg Bool.false_ne_true]
    exact .ite .failed ((hbody false).andThen fun body m' hm' => .pure hm')
  | true =>
    rw [if_pos rfl]
    exact .mark (.ite .failed ((hbody true).andThen fun body m' hm' => .pure hm'))

omit hm in
include hstart in
theorem follows_expressionOrLabeled :
    Follows { m with chain := none } m.Leaves (expressionOrLabeled N m.chain)
      (Grammar.expressionOrLabeled n m.context m.chain) := by
  have hplain : Follows { m with chain := none } m.Leaves (expressionStatement N)
      (Grammar.expressionStatement n m.context) :=
    follows_of_keeps (keeps_expressionStatement hn ⟨rfl, hcover⟩)
  unfold expressionOrLabeled Grammar.expressionOrLabeled
  refine .step fun name => ?_
  cases name with
  | none => exact hplain
  | some name =>
    exact .step fun next => .ite (follows_labeledStatement hn hcover hstart name) hplain

omit hm in
include hstart in
theorem follows_statement :
    Follows m m.Leaves (statement N) (Grammar.statement n m.context m.chain) := by
  have hclear : Marks.Clear { m with chain := none } := ⟨rfl, hcover⟩
  unfold statement
  refine .takeChain ?_
  unfold statementBehind Grammar.statement
  refine .step fun token => ?_
  split
  · exact follows_of_keeps ((keeps_block hn hclear).bind fun body => .done)
  · exact follows_of_keeps (.step fun _ => .done)
  · exact .fail
  · exact follows_of_keeps (keeps_declarationStatement hn hclear _)
  · exact follows_of_keeps (keeps_ifStatement hn hclear)
  · exact follows_of_keeps (keeps_whileStatement hn hclear)
  · exact follows_of_keeps (keeps_doWhileStatement hn hclear)
  · exact follows_of_keeps (keeps_forStatement hn hclear)
  · exact follows_of_keeps (keeps_returnStatement hn hclear)
  · exact follows_of_keeps (keeps_jumpStatement _)
  · exact follows_of_keeps (keeps_jumpStatement _)
  · exact follows_of_keeps (keeps_throwStatement hn hclear)
  · exact follows_of_keeps (keeps_tryStatement hn hclear)
  · exact follows_of_keeps (keeps_switchStatement hn hclear)
  · exact .step fun strict => .ite .fail .fail
  · exact .fail
  · exact follows_of_keeps (.step fun _ => .step fun _ => .done)
  · exact .of_eq (by grind) (follows_expressionOrLabeled hn hcover hstart)

end Labels

/-! ### All rules -/

theorem keeps_item : Keeps m (item N) (Grammar.item n m.context) := by
  have hstatement : Keeps m (statement N) (Grammar.statement n m.context none) := by
    have h := follows_statement hn hm.cover (m := m) (by rw [hm.chain]; exact nofun)
    rw [hm.chain] at h
    exact h.mono fun m' hm' => hm'.eq hm.chain
  unfold item Grammar.item
  refine .step fun isLet => .ite (keeps_declarationStatement hn hm _) (.step fun token => ?_)
  split
  · exact (keeps_functionDeclaration hn hm).bind fun d => .done
  · exact keeps_declarationStatement hn hm _
  · exact .of_eq (by grind) hstatement

omit hm in
theorem matches_rule {rounds : Nat} : Nesting.Matches ⟨rounds, rule N⟩
    ⟨rounds, fun g c => Grammar.rule n c g⟩ where
  rounds := rfl
  assignment _ hchain := follows_assignment hn hchain
  binary strength _ hm := keeps_binary hn hm strength
  power _ hm := keeps_power hn hm
  unary _ hm := keeps_unary hn hm
  construct _ hm := keeps_construct hn hm
  pattern _ hm := keeps_bindingPattern hn hm
  element _ hm := keeps_bindingElement hn hm (keeps_bindingPattern hn hm)
  statement _ hcover hstart := follows_statement hn hcover hstart
  item _ hm := keeps_item hn hm

omit hn hm in
theorem matches_parse (depth rounds : Nat) :
    Nesting.Matches ⟨rounds, parse depth⟩ ⟨rounds, Grammar.parse depth⟩ := by
  induction depth generalizing rounds with
  | zero =>
    exact ⟨rfl, fun _ _ => .fail, fun _ _ _ => .fail, fun _ _ => .fail, fun _ _ => .fail,
      fun _ _ => .fail, fun _ _ => .fail, fun _ _ => .fail, fun _ _ _ => .fail, fun _ _ => .fail⟩
  | succ depth ih => exact matches_rule (ih (depth + 1))

omit hn hm in
theorem matches_nesting (depth : Nat) : (nesting depth).Matches (Grammar.nesting depth) :=
  matches_parse depth depth

end ProtoScript.Marked
