import ProtoScript.Proofs.Progress.Expression
import ProtoScript.Grammar.Statement
/-!
# Statements move forward
-/

namespace ProtoScript

namespace Grammar

variable {r : Course} {n : Nesting} {more : Bool} {limit : Nat}

theorem takes_declarators (hn : n.Takes r limit) (c : Context) (kind : DeclarationKind)
    {rounds : Nat} (hrounds : limit ≤ rounds) :
    Takes r more 0 limit (declarators n c kind rounds) := by
  induction rounds generalizing limit more with
  | zero =>
    obtain rfl := Nat.le_zero.mp hrounds
    exact .zero
  | succ rounds ih =>
    cases limit with
    | zero => exact .zero
    | succ limit =>
      have hn' := hn.le (Nat.le_succ limit)
      have hnext : Takes r false 0 limit (declarators n c kind rounds) :=
        ih hn' (Nat.le_of_succ_le_succ hrounds)
      have hrest (target : Pattern) (init : Option Expr) : Takes r false 0 limit (do
          if ← Parser.eat .comma then
            return Declarator.mk target init :: (← declarators n c kind rounds)
          else return [Declarator.mk target init]) :=
        .keep .eat_any fun more => .ite (fun _ => .keep hnext fun _ => .pure) fun _ => .pure
      unfold declarators
      refine .take (takes_bindingPattern hn' c) fun target =>
        .ite (fun _ => .failed nofun) fun _ => ?_
      refine .keep .eat_any fun assigned => .ite (fun _ => ?_) fun _ => hrest _ _
      exact .keep (.map (hn'.parse _ _ rfl).any) fun init => hrest _ _

theorem looks_checkInitializers (d : Declaration) : Looks (checkInitializers d) :=
  .ite (.fail nofun) .pure

theorem takes_declarationStatement (hn : n.Takes r limit) (c : Context) (kind : DeclarationKind) :
    Takes r true 1 (limit + 1) (declarationStatement n c kind) := by
  unfold declarationStatement
  refine .take .advance fun _ => .keep (takes_declarators hn c kind hn.rounds) fun list => ?_
  exact .look (looks_checkInitializers _) fun _ => .keep .endStatement fun _ => .pure

theorem atLetDeclaration_bind {β : Type} (f : Bool → Parser β) : (atLetDeclaration >>= f) =
    (Parser.atWord .letWord >>= fun found =>
      if found = true then Parser.isStrict >>= fun strict =>
        if strict = true then f true
        else Parser.peek >>= fun next => f (startsBinding next.1)
      else f false) := by
  unfold atLetDeclaration
  rw [bind_assoc]
  refine congrArg _ (funext fun found => ?_)
  cases found
  · exact pure_bind _ _
  · simp only [if_true]
    rw [bind_assoc]
    refine congrArg _ (funext fun strict => ?_)
    cases strict
    · exact bind_assoc ..
    · exact pure_bind _ _

/-- The question whether a declaration begins leaves the current token as it is. -/
theorem takes_atLetDeclaration {β : Type} {p q : Parser β} {count : Nat}
    (hp : Takes r true count limit p) (hq : Takes r false count limit q) :
    Takes r more count limit
      (atLetDeclaration >>= fun found => if found = true then p else q) := by
  rw [atLetDeclaration_bind]
  refine .atWord (.look .isStrict fun strict => .ite (fun _ => hp) fun _ => ?_) hq.here
  exact .peek fun next => .ite (fun _ => hp) fun _ => hq.here

theorem takes_condition (hn : n.Takes r limit) (c : Context) :
    Takes r more 1 (limit + 1) (condition n c) := by
  unfold condition
  refine .take .expect fun _ => .keep (takes_expression hn c).later fun test => ?_
  exact .keep Takes.expect.any fun _ => .pure

theorem looks_declareAll (declared : List String) (statement : Stmt) :
    Looks (declareAll declared statement) := by
  unfold declareAll
  dsimp only
  split
  · exact .fail nofun
  · exact .pure

theorem takes_blockItems (hn : n.Takes r limit) (c : Context) (declared : List String)
    {rounds : Nat} (hrounds : limit ≤ rounds) :
    Takes r more 0 limit (blockItems n c declared rounds) := by
  induction rounds generalizing limit more declared with
  | zero =>
    obtain rfl := Nat.le_zero.mp hrounds
    exact .zero
  | succ rounds ih =>
    cases limit with
    | zero => exact .zero
    | succ limit =>
      unfold blockItems
      refine .atSign .pure (.atEnd (.fail nofun)
        (.take (hn.parse _ _ rfl).here fun statement => ?_))
      refine .look (looks_declareAll _ _) fun declared => .keep ?_ fun _ => .pure
      exact ih (hn.le (Nat.le_succ _)) declared (Nat.le_of_succ_le_succ hrounds)

theorem takes_block (hn : n.Takes r limit) (c : Context) :
    Takes r more 1 (limit + 1) (block n c) := by
  unfold block
  refine .take .expect fun _ => .keep (takes_blockItems hn c [] hn.rounds) fun body => ?_
  exact .keep .advance_any fun _ => .pure

theorem takes_expressionStatement (hn : n.Takes r limit) (c : Context) :
    Takes r more 1 (limit + 1) (expressionStatement n c) := by
  unfold expressionStatement
  exact .take (takes_expression hn c) fun value => .keep .endStatement fun _ => .pure

theorem takes_labeledStatement (hn : n.Takes r limit) (c : Context) (chain : Option Nat)
    (name : String) : Takes r true 1 (limit + 1) (labeledStatement n c chain name) := by
  unfold labeledStatement
  refine .take .advance fun _ => .keep .advance_any fun _ =>
    .ite (fun _ => .failed nofun) fun _ => ?_
  refine .look .current fun token => .ite (fun _ => .failed nofun) fun _ => ?_
  exact .keep (hn.parse _ _ rfl).any fun _ => .pure

theorem takes_expressionOrLabeled (hn : n.Takes r limit) (c : Context) (chain : Option Nat) :
    Takes r more 1 (limit + 1) (expressionOrLabeled n c chain) := by
  unfold expressionOrLabeled
  refine .name (fun name => .peek fun next => ?_) (takes_expressionStatement hn c)
  refine .ite (fun _ => takes_labeledStatement hn c chain name) fun _ => ?_
  exact takes_expressionStatement hn c

theorem takes_loopBody (hn : n.Takes r limit) (c : Context) :
    Takes r false 1 limit (loopBody n c) := hn.parse _ _ rfl

theorem takes_ifStatement (hn : n.Takes r limit) (c : Context) :
    Takes r true 1 (limit + 1) (ifStatement n c) := by
  unfold ifStatement
  refine .take .advance fun _ => .keep (takes_condition hn c).later fun test => ?_
  refine .keep (hn.parse _ _ rfl).any fun consequent => .keep .eatWord_any fun found => ?_
  exact .ite (fun _ => .keep (hn.parse _ _ rfl).any fun _ => .pure) fun _ => .pure

theorem takes_whileStatement (hn : n.Takes r limit) (c : Context) :
    Takes r true 1 (limit + 1) (whileStatement n c) := by
  unfold whileStatement
  refine .take .advance fun _ => .keep (takes_condition hn c).later fun test => ?_
  exact .keep (takes_loopBody hn c).any fun _ => .pure

theorem takes_doWhileStatement (hn : n.Takes r limit) (c : Context) :
    Takes r true 1 (limit + 1) (doWhileStatement n c) := by
  unfold doWhileStatement
  refine .take .advance fun _ => .keep (takes_loopBody hn c).any fun body => ?_
  refine .keep Takes.expectWord.any fun _ => .keep (takes_condition hn c).later fun test => ?_
  exact .keep .eat_any fun _ => .pure

theorem takes_declarationHead (hn : n.Takes r limit) (c : Context) (kind : DeclarationKind) :
    Takes r true 1 (limit + 1) (declarationHead n c kind) := by
  unfold declarationHead
  refine .take .advance fun _ => .keep (takes_declarators hn c kind hn.rounds) fun list => ?_
  refine .look .atWord fun keyed => .ite (fun _ => ?_) fun _ => ?_
  · split
    · refine .look .isStrict fun strict => .ite (fun _ => .failed nofun) fun _ => ?_
      exact .keep .advance_any fun _ => .pure
    · exact .fail nofun
  · exact .look (looks_checkInitializers _) fun _ => .pure

theorem takes_loopHead (hn : n.Takes r limit) (c : Context) :
    Takes r more 0 limit (loopHead n c) := by
  unfold loopHead
  refine takes_atLetDeclaration (takes_declarationHead hn c _).later ?_
  refine .here (.current fun token => ?_)
  split
  · exact .pure
  · exact (takes_declarationHead hn c _).later
  · exact (takes_declarationHead hn c _).later
  refine .keep (takes_expression hn c).later fun value => .keep .eatWord_any fun keyed => ?_
  refine .ite (fun _ => .look .isStrict fun strict => ?_) fun _ => .pure
  split
  · exact .pure
  · next heq => exact .fail (Expr.toPattern_ne_outOfFuel _ _ heq)

theorem takes_optionalExpression (hn : n.Takes r limit) (c : Context) (close : Punctuator) :
    Takes r more 0 limit (optionalExpression n c close) := by
  unfold optionalExpression
  exact .atSign .pure (.keep (takes_expression hn c).later fun _ => .pure)

theorem takes_forStatement (hn : n.Takes r limit) (c : Context) :
    Takes r true 1 (limit + 1) (forStatement n c) := by
  unfold forStatement
  refine .take .advance fun _ => .keep Takes.expect.any fun _ => ?_
  refine .keep (takes_loopHead hn _) fun head => ?_
  cases head with
  | keys target =>
    refine .keep (takes_expression hn c).later fun object => .keep Takes.expect.any fun _ => ?_
    exact .keep (takes_loopBody hn c).any fun _ => .pure
  | test init =>
    refine .keep Takes.expect.any fun _ => .keep (takes_optionalExpression hn c _) fun test => ?_
    refine .keep Takes.expect.any fun _ => .keep (takes_optionalExpression hn c _) fun update => ?_
    refine .keep Takes.expect.any fun _ => ?_
    exact .keep (takes_loopBody hn c).any fun _ => .pure

theorem takes_returnStatement (hn : n.Takes r limit) (c : Context) :
    Takes r true 1 (limit + 1) (returnStatement n c) := by
  unfold returnStatement
  refine .ite (fun _ => .failed nofun) fun _ =>
    .take .advance fun _ => .look .current fun token => ?_
  have hdone (value : Option Expr) : Takes r false 0 limit (do
      Parser.endStatement
      return Stmt.returnStmt value) := .keep .endStatement fun _ => .pure
  refine .look .afterBreak fun broken => .ite (fun _ => hdone _) fun _ => ?_
  exact .keep (.map (takes_expression hn c).later) hdone

theorem takes_jumpLabel : Takes r more 0 limit jumpLabel := by
  unfold jumpLabel
  refine .look .afterBreak fun broken => .ite (fun _ => .pure) fun _ => ?_
  refine .name (fun name => .keep .advance_any fun _ => .pure) .pure

theorem looks_checkJump (c : Context) (continues : Bool) (label : Option String) :
    Looks (checkJump c continues label) := by
  unfold checkJump
  split
  · split
    · exact .fail nofun
    · exact .ite (.fail nofun) .pure
  · exact .ite (.ite .pure (.fail nofun)) (.ite .pure (.fail nofun))

theorem takes_jumpStatement (c : Context) (continues : Bool) :
    Takes r true 1 (limit + 1) (jumpStatement c continues) := by
  unfold jumpStatement
  refine .take .advance fun _ => .keep takes_jumpLabel fun label => ?_
  exact .look (looks_checkJump _ _ _) fun _ => .keep .endStatement fun _ => .pure

theorem takes_throwStatement (hn : n.Takes r limit) (c : Context) :
    Takes r true 1 (limit + 1) (throwStatement n c) := by
  unfold throwStatement
  refine .take .advance fun _ => .look .afterBreak fun broken => .ite (fun _ => .failed nofun) ?_
  refine fun _ => .keep (takes_expression hn c).later fun value => ?_
  exact .keep .endStatement fun _ => .pure

theorem takes_handler (hn : n.Takes r limit) (c : Context) :
    Takes r more 0 limit (handler n c) := by
  unfold handler
  refine .keep .eat_any fun opened => .ite (fun _ => ?_) fun _ => ?_
  · refine .keep (takes_bindingPattern hn c).later fun parameter =>
      .keep Takes.expect.any fun _ => ?_
    exact .keep (takes_block hn c).later fun _ => .pure
  · exact .keep (takes_block hn c).later fun _ => .pure

theorem takes_tryStatement (hn : n.Takes r limit) (c : Context) :
    Takes r true 1 (limit + 1) (tryStatement n c) := by
  unfold tryStatement
  refine .take .advance fun _ => .keep (takes_block hn c).later fun tried => ?_
  have hdone (handler : Option Handler) (finalizer : Option (List Stmt)) :
      Takes r false 0 limit (do
        if handler.isNone && finalizer.isNone then throw .missingHandler
        return Stmt.tryStmt tried handler finalizer) :=
    .ite (fun _ => .failed nofun) fun _ => .pure
  have hfinally (handler : Option Handler) : Takes r false 0 limit (do
      let finalizer ← if ← Parser.eatWord .finallyWord then some <$> block n c else pure none
      if handler.isNone && finalizer.isNone then throw .missingHandler
      return Stmt.tryStmt tried handler finalizer) := by
    refine .keep .eatWord_any fun found => .ite (fun _ => ?_) fun _ => hdone _ _
    exact .keep (.map (takes_block hn c).later) fun _ => hdone _ _
  refine .keep .eatWord_any fun caught => .ite (fun _ => ?_) fun _ => hfinally _
  exact .keep (.map (takes_handler hn c)) fun _ => hfinally _

theorem takes_clauseItems (hn : n.Takes r limit) (c : Context) (declared : List String)
    {rounds : Nat} (hrounds : limit ≤ rounds) :
    Takes r more 0 limit (clauseItems n c declared rounds) := by
  induction rounds generalizing limit more declared with
  | zero =>
    obtain rfl := Nat.le_zero.mp hrounds
    exact .zero
  | succ rounds ih =>
    cases limit with
    | zero => exact .zero
    | succ limit =>
      unfold clauseItems
      refine .look .current fun token => .ite (fun _ => .pure) fun _ => ?_
      refine .take (hn.parse _ _ rfl).here fun statement =>
        .look (looks_declareAll _ _) fun names => ?_
      refine .keep ?_ fun _ => .pure
      exact ih (hn.le (Nat.le_succ _)) names (Nat.le_of_succ_le_succ hrounds)

theorem takes_switchClauses (hn : n.Takes r limit) (c : Context) (declared : List String)
    (hasDefault : Bool) {rounds : Nat} (hrounds : limit ≤ rounds) :
    Takes r more 0 limit (switchClauses n c declared hasDefault rounds) := by
  induction rounds generalizing limit more declared hasDefault with
  | zero =>
    obtain rfl := Nat.le_zero.mp hrounds
    exact .zero
  | succ rounds ih =>
    cases limit with
    | zero => exact .zero
    | succ limit =>
      have hn' := hn.le (Nat.le_succ limit)
      have hrest (test : Option Expr) : Takes r false 0 limit (do
          Parser.expect .colon
          let found ← clauseItems n c declared n.rounds
          let others ← switchClauses n c found.2 (hasDefault || test.isNone) rounds
          return SwitchCase.mk test found.1 :: others) := by
        refine .keep Takes.expect.any fun _ => ?_
        refine .keep (takes_clauseItems hn' c declared hn'.rounds) fun found => ?_
        exact .keep (ih hn' _ _ (Nat.le_of_succ_le_succ hrounds)) fun _ => .pure
      unfold switchClauses
      refine .atSign .pure (.eatWord (.keep ?_ hrest) ?_)
      · exact .map (takes_expression hn' c).later
      · exact .take .expectWord fun _ => .ite (fun _ => .failed nofun) fun _ => hrest none

theorem takes_switchStatement (hn : n.Takes r limit) (c : Context) :
    Takes r true 1 (limit + 1) (switchStatement n c) := by
  unfold switchStatement
  refine .take .advance fun _ => .keep (takes_condition hn c).later fun subject => ?_
  refine .keep Takes.expect.any fun _ => .keep (takes_switchClauses hn _ _ _ hn.rounds) ?_
  exact fun clauses => .keep Takes.expect.any fun _ => .pure

theorem takes_statement (hn : n.Takes r limit) (c : Context) (chain : Option Nat) :
    Takes r more 1 (limit + 1) (statement n c chain) := by
  unfold statement
  refine .here (.current fun token => ?_)
  split
  · exact .take (takes_block hn c) fun _ => .pure
  · exact .take .advance fun _ => .pure
  · exact .fail nofun
  · exact takes_declarationStatement hn c _
  · exact takes_ifStatement hn c
  · exact takes_whileStatement hn c
  · exact takes_doWhileStatement hn c
  · exact takes_forStatement hn c
  · exact takes_returnStatement hn c
  · exact takes_jumpStatement c false
  · exact takes_jumpStatement c true
  · exact takes_throwStatement hn c
  · exact takes_tryStatement hn c
  · exact takes_switchStatement hn c
  · exact .look .isStrict fun strict => .ite (fun _ => .fail nofun) fun _ => .fail nofun
  · exact .fail nofun
  · exact .take .advance fun _ => .keep .endStatement fun _ => .pure
  · exact takes_expressionOrLabeled hn c chain

theorem takes_item (hn : n.Takes r limit) (c : Context) :
    Takes r more 1 (limit + 1) (item n c) := by
  unfold item
  refine takes_atLetDeclaration (takes_declarationStatement hn c _)
    (.here (.current fun token => ?_))
  split
  · exact .take (takes_functionDeclaration hn c) fun _ => .pure
  · exact takes_declarationStatement hn c _
  · exact takes_statement hn c none

end Grammar

/-!
### Programs move forward

A depth of nesting serves a text with fewer tokens left than the depth: every rule takes a token and
hands fewer tokens on to the rules it uses.
-/

namespace Grammar

def Course.mode : Course where
  Leads s t := t.strict = s.strict
  refl _ := rfl
  trans h h' := h'.trans h
  strict_eq h := h
  advance := strict_advance
  peek h := by
    obtain ⟨u, hu, rfl⟩ := advance_of_peek h
    exact (strict_advance hu :)
  restore _ := rfl

variable {r : Course}

theorem takes_rule {n : Nesting} {limit : Nat} (hn : n.Takes r limit) (g : Goal) (c : Context) :
    Takes r true 1 (limit + 1) (rule n c g) ∧
      (g.isAnnounced = false → Takes r false 1 (limit + 1) (rule n c g)) := by
  cases g with
  | assignment cover => exact ⟨takes_assignment hn c cover, fun _ => takes_assignment hn c cover⟩
  | binary strength => exact ⟨takes_binary hn c strength, fun _ => takes_binary hn c strength⟩
  | power => exact ⟨takes_power hn c, fun _ => takes_power hn c⟩
  | unary => exact ⟨takes_unary hn c, fun _ => takes_unary hn c⟩
  | construct => exact ⟨takes_construct hn c, nofun⟩
  | pattern => exact ⟨takes_bindingPattern hn c, fun _ => takes_bindingPattern hn c⟩
  | element =>
    exact ⟨takes_bindingElement hn c (takes_bindingPattern hn c), fun _ =>
      takes_bindingElement hn c (takes_bindingPattern hn c)⟩
  | statement chain => exact ⟨takes_statement hn c chain, fun _ => takes_statement hn c chain⟩
  | item => exact ⟨takes_item hn c, fun _ => takes_item hn c⟩

/-- The rules of a depth take a token each where fewer tokens than the depth are left. -/
theorem takes_parse (depth : Nat) (g : Goal) (c : Context) :
    Takes r true 1 depth (parse depth g c) ∧
      (g.isAnnounced = false → Takes r false 1 depth (parse depth g c)) := by
  induction depth generalizing g c with
  | zero => exact ⟨.zero, fun _ => .zero⟩
  | succ depth ih =>
    exact takes_rule ⟨Nat.le_succ depth, fun g c => (ih g c).2, fun g c => (ih g c).1⟩ g c

theorem takes_nesting (depth : Nat) : (nesting depth).Takes r depth where
  rounds := Nat.le_refl _
  parse g c := (takes_parse depth g c).2
  announced g c := (takes_parse depth g c).1

end Grammar

theorem TokenStream.size_ofString {source : String} {s : TokenStream}
    (h : TokenStream.ofString source = .ok s) : s.size < Grammar.depthOf source := by
  unfold TokenStream.ofString at h
  split at h
  · next hread =>
    cases h
    have hle := TokenStream.length_rest_readToken hread
    simp only [TokenStream.size, Grammar.depthOf, Option.elim_none, Cursor.ofString] at hle ⊢
    omega
  · cases h

end ProtoScript
