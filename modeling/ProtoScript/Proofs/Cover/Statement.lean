import ProtoScript.Proofs.Cover.Expression
/-!
# Statements in two readings
-/

namespace ProtoScript

def Grammar.LoopHead.erase : Grammar.LoopHead → Grammar.LoopHead
  | .keys target => .keys target.erase
  | .test init => .test (ForInit.eraseOption init)

namespace Grammar

variable {lax : Bool} {n m : Nesting}

/-! ### Parts of a statement -/

theorem same_declarators {as bs : List Declarator} (h : Same lax Declarator.eraseAll as bs) :
    as = [] ∧ bs = [] ∨ ∃ a as' b bs', as = a :: as' ∧ bs = b :: bs' ∧
      Same lax Declarator.erase a b ∧ Same lax Declarator.eraseAll as' bs' := by
  cases lax with
  | false =>
    obtain rfl : as = bs := h
    cases as with
    | nil => exact .inl ⟨rfl, rfl⟩
    | cons a as => exact .inr ⟨a, as, a, as, rfl, rfl, rfl, rfl⟩
  | true =>
    have h : Declarator.eraseAll as = Declarator.eraseAll bs := h
    cases as with
    | nil =>
      cases bs with
      | nil => exact .inl ⟨rfl, rfl⟩
      | cons b bs => cases h
    | cons a as =>
      cases bs with
      | nil => cases h
      | cons b bs =>
        simp only [Declarator.eraseAll, List.cons.injEq] at h
        exact .inr ⟨a, as, b, bs, rfl, rfl, h.1, h.2⟩

theorem same_head {a b : LoopHead} (h : Same lax LoopHead.erase a b) :
    (∃ x y, a = .keys x ∧ b = .keys y ∧ Same lax ForInTarget.erase x y) ∨
      ∃ x y, a = .test x ∧ b = .test y ∧ Same lax ForInit.eraseOption x y := by
  cases lax with
  | false =>
    obtain rfl : a = b := h
    cases a with
    | keys x => exact .inl ⟨x, x, rfl, rfl, rfl⟩
    | test x => exact .inr ⟨x, x, rfl, rfl, rfl⟩
  | true =>
    have h : a.erase = b.erase := h
    cases a with
    | keys x =>
      cases b with
      | keys y => exact .inl ⟨x, y, rfl, rfl, LoopHead.keys.inj h⟩
      | test y => cases h
    | test x =>
      cases b with
      | keys y => cases h
      | test y => exact .inr ⟨x, y, rfl, rfl, LoopHead.test.inj h⟩

/-! ### Declarations -/

theorem covers_declarators (h : n.Covers lax m) (c : Context) (kind : DeclarationKind)
    {rounds rounds' : Nat} (hrounds : rounds ≤ rounds') :
    Covers lax (declarators n c kind rounds) (declarators m c kind rounds')
      (Same lax Declarator.eraseAll) := by
  induction rounds generalizing rounds' with
  | zero => exact .exhausted
  | succ rounds ih =>
    cases rounds' with
    | zero => cases hrounds
    | succ rounds' =>
      have hnext := ih (Nat.le_of_succ_le_succ hrounds)
      have hrest {p q : Pattern} (hpq : Same lax Pattern.erase p q) (x y : Option Expr)
          (hxy : Same lax Expr.eraseOption x y) : Covers lax
          (do
            if ← Parser.eat .comma then
              return Declarator.mk p x :: (← declarators n c kind rounds)
            else return [Declarator.mk p x])
          (do
            if ← Parser.eat .comma then
              return Declarator.mk q y :: (← declarators m c kind rounds')
            else return [Declarator.mk q y]) (Same lax Declarator.eraseAll) := by
        refine .andThen (.eat _) fun _ => .ite (.bind hnext fun as bs has => .pure ?_) (.pure ?_)
        · refine hpq.congr₃ (f := fun p x as => Declarator.mk p x :: as) hxy has
            fun _ _ _ _ _ _ h h' h'' => ?_
          simp only [Declarator.eraseAll, Declarator.erase, h, h', h'']
        · refine hpq.congr₂ (f := fun p x => [Declarator.mk p x]) hxy fun _ _ _ _ h h' => ?_
          simp only [Declarator.eraseAll, Declarator.erase, h, h']
      unfold declarators
      refine .bind (covers_bindingPattern h c) fun p q hpq => ?_
      have hnames : p.boundNames = q.boundNames :=
        hpq.read (f := Pattern.boundNames) fun a b h => by
          rw [← Pattern.boundNames_erase a, h, Pattern.boundNames_erase]
      rw [hnames]
      refine .ite .failed (.andThen (.eat _) fun assigned => .ite ?_ (hrest hpq _ _ (.refl _ _)))
      refine .bind (.map (h.assignment _ _) fun x y hxy => ?_) (hrest hpq)
      exact hxy.congr fun _ _ h => by simp only [Expr.eraseOption, h]

theorem same_declaration {as bs : List Declarator} (h : Same lax Declarator.eraseAll as bs)
    (kind : DeclarationKind) : Same lax Declaration.erase ⟨kind, as⟩ ⟨kind, bs⟩ :=
  h.congr (f := Declaration.mk kind) fun _ _ h => by simp only [Declaration.erase, h]

theorem covers_checkInitializers {a b : Declaration} (hab : Same lax Declaration.erase a b) :
    Covers lax (checkInitializers a) (checkInitializers b) Eq := by
  have heq : checkInitializers a = checkInitializers b :=
    hab.read (f := checkInitializers) fun a b h => by
      rw [← checkInitializers_erase a, h, checkInitializers_erase]
  rw [heq]
  exact .ite .fail (.pure rfl)

theorem covers_declarationStatement (h : n.Covers lax m) (c : Context) (kind : DeclarationKind) :
    Covers lax (declarationStatement n c kind) (declarationStatement m c kind)
      (Same lax Stmt.erase) := by
  unfold declarationStatement
  refine .andThen .advance fun _ => .bind (covers_declarators h c kind h.rounds) fun as bs has => ?_
  have hd := same_declaration has kind
  refine .andThen (covers_checkInitializers hd) fun _ => .andThen .endStatement fun _ => .pure ?_
  exact hd.congr fun _ _ h => by simp only [Stmt.erase, h]

/-- A pattern does not start with a token at which `let` would be a name. -/
theorem fails_bindingPattern {s : TokenStream} (h : startsBinding s.current = false) (n : Nesting)
    (c : Context) : Fails (bindingPattern n c) s := by
  intro p t ht
  unfold bindingPattern at ht
  rw [currentName?_bind] at ht
  have hname : nameOfToken? s.strict s.current = none := by
    cases hname : nameOfToken? s.strict s.current with
    | none => rfl
    | some name =>
      rcases isName_of_nameOfToken? hname with ⟨name, hc⟩ | hc
      · rw [hc] at h
        cases h
      · rw [hc] at h
        cases h
  have hsign (sign : Punctuator) (hstarts : startsBinding (.punctuator sign) = true) :
      (s.current.sign? == some sign) = false := by
    cases hc : s.current with
    | punctuator sign' =>
      rw [hc] at h
      refine beq_eq_false_iff_ne.mpr fun heq => ?_
      rw [show sign' = sign from Option.some.inj heq, hstarts] at h
      cases h
    | _ => rfl
  simp only [hname, eat_bind, atSign_bind, hsign .leftBracket rfl, hsign .leftBrace rfl,
    Bool.false_eq_true, if_false] at ht
  exact Fails.throw (.noPattern s.current) s p t ht

theorem fails_declarators {s : TokenStream} (h : startsBinding s.current = false) (n : Nesting)
    (c : Context) (kind : DeclarationKind) (rounds : Nat) :
    Fails (declarators n c kind rounds) s := by
  cases rounds with
  | zero => exact .throw _ s
  | succ rounds =>
    unfold declarators
    exact (fails_bindingPattern h n c).bind _

/-- Whether a `let` starts a declaration.  Strict code takes it for one at once, and has to fail
where the token behind it does not let it be one. -/
theorem Covers.atLetDeclaration {γ δ : Type} {V : γ → δ → Prop} {p p' : Parser γ} {q q' : Parser δ}
    (hp : Covers lax p q V) (hq : Covers lax p' q' V)
    (hlost : ∀ s, (∀ t, Parser.advance s = .ok () t → startsBinding t.current = false) →
      Fails p s) :
    Covers lax (Grammar.atLetDeclaration >>= fun found => if found = true then p else p')
      (Grammar.atLetDeclaration >>= fun found => if found = true then q else q') V := by
  rw [atLetDeclaration_bind, atLetDeclaration_bind]
  refine .andThen (.atWord _) fun found => .ite ?_ hq
  simp only [if_true]
  refine .bind .isStrict fun mode mode' hmode => ?_
  rcases hmode.cases with rfl | ⟨rfl, rfl, rfl⟩
  · exact .ite hp (.andThen .peek fun next => .ite hp hq)
  intro s t hst
  simp only [if_true, Bool.false_eq_true, if_false]
  cases hs : Parser.advance s with
  | error e s' =>
    refine .lost (hlost s fun u hu => ?_) _
    rw [hs] at hu
    cases hu
  | ok a s' =>
    obtain ⟨t', ht, hst', -⟩ := TokenStream.Narrows.peek hst hs
    simp only [Bind.bind, EStateM.bind, ht]
    cases hstarts : startsBinding s'.current with
    | true => exact hp s t' hst'
    | false =>
      refine .lost (hlost s fun u hu => ?_) _
      rw [hs] at hu
      cases hu
      exact hstarts

/-! ### Statements -/

theorem covers_condition (h : n.Covers lax m) (c : Context) :
    Covers lax (condition n c) (condition m c) (Same lax Expr.erase) := by
  unfold condition
  refine .andThen (.expect _) fun _ => .bind (covers_expression h c) fun x y hxy => ?_
  exact .andThen (.expect _) fun _ => .pure hxy

theorem covers_declareAll (declared : List String) {a b : Stmt} (hab : Same lax Stmt.erase a b) :
    Covers lax (declareAll declared a) (declareAll declared b) Eq := by
  have hnames : lexicalNames a = lexicalNames b :=
    hab.read (f := lexicalNames) fun a b h => by
      rw [← lexicalNames_erase a, h, lexicalNames_erase]
  unfold declareAll
  dsimp only
  rw [hnames]
  split
  · exact .fail
  · exact .pure rfl

theorem same_cons {a b : Stmt} {as bs : List Stmt} (hab : Same lax Stmt.erase a b)
    (has : Same lax Stmt.eraseAll as bs) : Same lax Stmt.eraseAll (a :: as) (b :: bs) :=
  hab.congr₂ has fun _ _ _ _ h h' => by simp only [Stmt.eraseAll, h, h']

theorem covers_blockItems (h : n.Covers lax m) (c : Context) (declared : List String)
    {rounds rounds' : Nat} (hrounds : rounds ≤ rounds') :
    Covers lax (blockItems n c declared rounds) (blockItems m c declared rounds')
      (Same lax Stmt.eraseAll) := by
  induction rounds generalizing rounds' declared with
  | zero => exact .exhausted
  | succ rounds ih =>
    cases rounds' with
    | zero => cases hrounds
    | succ rounds' =>
      unfold blockItems
      refine .andThen (.atSign _) fun _ => .ite (.pure (.refl _ _)) (.andThen .atEnd fun _ => ?_)
      refine .ite .fail (.bind (h.item _) fun a b hab => .andThen (covers_declareAll _ hab) ?_)
      intro declared
      refine .bind (ih declared (Nat.le_of_succ_le_succ hrounds)) fun as bs has => .pure ?_
      exact same_cons hab has

theorem covers_block (h : n.Covers lax m) (c : Context) :
    Covers lax (block n c) (block m c) (Same lax Stmt.eraseAll) := by
  unfold block
  refine .andThen (.expect _) fun _ => .bind (covers_blockItems h c [] h.rounds) fun as bs has => ?_
  exact .andThen .advance fun _ => .pure has

theorem covers_expressionStatement (h : n.Covers lax m) (c : Context) :
    Covers lax (expressionStatement n c) (expressionStatement m c) (Same lax Stmt.erase) := by
  unfold expressionStatement
  refine .bind (covers_expression h c) fun x y hxy => .andThen .endStatement fun _ => .pure ?_
  exact hxy.congr fun _ _ h => by simp only [Stmt.erase, h]

theorem covers_labeledStatement (h : n.Covers lax m) (c : Context) (chain : Option Nat)
    (name : String) : Covers lax (labeledStatement n c chain name)
      (labeledStatement m c chain name) (Same lax Stmt.erase) := by
  unfold labeledStatement
  refine .andThen .advance fun _ => .andThen .advance fun _ => .ite .failed ?_
  refine .andThen .current fun token => .ite .failed (.bind (h.statement _ _) fun a b hab => ?_)
  exact .pure (hab.congr fun _ _ h => by simp only [Stmt.erase, h])

theorem covers_expressionOrLabeled (h : n.Covers lax m) (c : Context) (chain : Option Nat) :
    Covers lax (expressionOrLabeled n c chain) (expressionOrLabeled m c chain)
      (Same lax Stmt.erase) := by
  unfold expressionOrLabeled
  refine .name (fun name => ?_) fun s hs => (hs.fails_expression n c).bind _
  cases name with
  | none => exact covers_expressionStatement h c
  | some name =>
    refine .andThen .peek fun next => .ite (covers_labeledStatement h c chain name) ?_
    exact covers_expressionStatement h c

theorem covers_loopBody (h : n.Covers lax m) (c : Context) :
    Covers lax (loopBody n c) (loopBody m c) (Same lax Stmt.erase) := h.statement _ _

theorem covers_ifStatement (h : n.Covers lax m) (c : Context) :
    Covers lax (ifStatement n c) (ifStatement m c) (Same lax Stmt.erase) := by
  unfold ifStatement
  refine .andThen .advance fun _ => .bind (covers_condition h c) fun x y hxy => ?_
  refine .bind (h.statement _ _) fun a b hab => .andThen (.eatWord _) fun _ => .ite ?_ (.pure ?_)
  · refine .bind (h.statement _ _) fun a' b' hab' => .pure ?_
    refine hxy.congr₃ (f := fun x a a' => Stmt.ifStmt x a (some a')) hab hab'
      fun _ _ _ _ _ _ h h' h'' => ?_
    simp only [Stmt.erase, Stmt.eraseOption, h, h', h'']
  · refine hxy.congr₂ (f := fun x a => Stmt.ifStmt x a none) hab fun _ _ _ _ h h' => ?_
    simp only [Stmt.erase, h, h']

theorem covers_whileStatement (h : n.Covers lax m) (c : Context) :
    Covers lax (whileStatement n c) (whileStatement m c) (Same lax Stmt.erase) := by
  unfold whileStatement
  refine .andThen .advance fun _ => .bind (covers_condition h c) fun x y hxy => ?_
  refine .bind (covers_loopBody h c) fun a b hab => .pure ?_
  exact hxy.congr₂ hab fun _ _ _ _ h h' => by simp only [Stmt.erase, h, h']

theorem covers_doWhileStatement (h : n.Covers lax m) (c : Context) :
    Covers lax (doWhileStatement n c) (doWhileStatement m c) (Same lax Stmt.erase) := by
  unfold doWhileStatement
  refine .andThen .advance fun _ => .bind (covers_loopBody h c) fun a b hab => ?_
  refine .andThen (.expectWord _) fun _ => .bind (covers_condition h c) fun x y hxy => ?_
  refine .andThen (.eat _) fun _ => .pure (hab.congr₂ hxy fun _ _ _ _ h h' => ?_)
  simp only [Stmt.erase, h, h']

theorem covers_declarationHead (h : n.Covers lax m) (c : Context) (kind : DeclarationKind) :
    Covers lax (declarationHead n c kind) (declarationHead m c kind)
      (Same lax LoopHead.erase) := by
  unfold declarationHead
  refine .andThen .advance fun _ => .bind (covers_declarators h c kind h.rounds) fun as bs has => ?_
  have hd := same_declaration has kind
  refine .andThen (.atWord _) fun keyed => .ite ?_ ?_
  · have hdone : Covers lax
        (Parser.advance >>= fun _ => pure (LoopHead.keys (.declaration ⟨kind, as⟩)))
        (Parser.advance >>= fun _ => pure (LoopHead.keys (.declaration ⟨kind, bs⟩)))
        (Same lax LoopHead.erase) := by
      refine .andThen .advance fun _ => .pure ?_
      refine hd.congr (f := fun d => LoopHead.keys (.declaration d)) fun _ _ h => ?_
      simp only [LoopHead.erase, ForInTarget.erase, h]
    rcases same_declarators has with ⟨rfl, rfl⟩ | ⟨⟨p, x⟩, as, ⟨q, y⟩, bs, rfl, rfl, hfirst, has⟩
    · exact .fail
    rcases same_declarators has with ⟨rfl, rfl⟩ | ⟨_, _, _, _, rfl, rfl, _, _⟩
    · have hinit : x.isSome = y.isSome :=
        hfirst.read (f := fun d => d.init.isSome) fun a b h => by
          rw [← isSome_init_erase a, h, isSome_init_erase]
      have hsimple : p.isIdentifier = q.isIdentifier :=
        hfirst.read (f := fun d => d.target.isIdentifier) fun a b h => by
          rw [← isIdentifier_target_erase a, h, isIdentifier_target_erase]
      refine .bind .isStrict fun mode mode' hmode => ?_
      rw [hinit, hsimple]
      rcases hmode.cases with rfl | ⟨rfl, rfl, rfl⟩
      · exact .ite .failed hdone
      · cases y with
        | none => exact hdone
        | some y => exact .lost fun s => .bind (.throw _ s) _
    · exact .fail
  · refine .andThen (covers_checkInitializers hd) fun _ => .pure ?_
    refine hd.congr (f := fun d => LoopHead.test (some (.declaration d))) fun _ _ h => ?_
    simp only [LoopHead.erase, ForInit.eraseOption, ForInit.erase, h]

theorem covers_loopHead (h : n.Covers lax m) (c : Context) :
    Covers lax (loopHead n c) (loopHead m c) (Same lax LoopHead.erase) := by
  unfold loopHead
  refine .atLetDeclaration (covers_declarationHead h c _) (.andThen .current fun token => ?_)
    fun s hs => ?_
  · split
    · exact .pure (.refl _ _)
    · exact covers_declarationHead h c _
    · exact covers_declarationHead h c _
    refine .bind (covers_expression h c) fun x y hxy => .andThen (.eatWord _) fun _ => .ite ?_ ?_
    · refine .bind .isStrict fun mode mode' hmode => ?_
      have htarget := Agrees.of_erase Expr.toPattern_erase Expr.toPattern_of_strict hxy hmode
      cases hr : x.toPattern mode with
      | ok p =>
        rw [hr] at htarget
        obtain ⟨q, hr', hpq⟩ := htarget
        rw [hr']
        refine .pure (hpq.congr (f := fun p => LoopHead.keys (.pattern p)) fun _ _ h => ?_)
        simp only [LoopHead.erase, ForInTarget.erase, h]
      | error e =>
        rw [hr] at htarget
        rcases htarget with rfl | hr'
        · exact .lost fun s => .throw e s
        · rw [hr']
          exact .fail
    · refine .pure (hxy.congr (f := fun x => LoopHead.test (some (.expression x))) fun _ _ h => ?_)
      simp only [LoopHead.erase, ForInit.eraseOption, ForInit.erase, h]
  · exact .after fun _ t ht => (fails_declarators (hs t ht) n _ _ _).bind _

theorem covers_optionalExpression (h : n.Covers lax m) (c : Context) (close : Punctuator) :
    Covers lax (optionalExpression n c close) (optionalExpression m c close)
      (Same lax Expr.eraseOption) := by
  unfold optionalExpression
  refine .andThen (.atSign _) fun _ => .ite (.pure (.refl _ _)) ?_
  refine .bind (covers_expression h c) fun x y hxy => .pure (hxy.congr fun _ _ h => ?_)
  simp only [Expr.eraseOption, h]

theorem same_forStmt {i i' : Option ForInit} {x x' u u' : Option Expr} {b b' : Stmt}
    (hi : Same lax ForInit.eraseOption i i') (hx : Same lax Expr.eraseOption x x')
    (hu : Same lax Expr.eraseOption u u') (hb : Same lax Stmt.erase b b') :
    Same lax Stmt.erase (.forStmt i x u b) (.forStmt i' x' u' b') := by
  cases lax with
  | false =>
    obtain rfl : i = i' := hi
    obtain rfl : x = x' := hx
    obtain rfl : u = u' := hu
    obtain rfl : b = b' := hb
    rfl
  | true =>
    have hi : ForInit.eraseOption i = ForInit.eraseOption i' := hi
    have hx : Expr.eraseOption x = Expr.eraseOption x' := hx
    have hu : Expr.eraseOption u = Expr.eraseOption u' := hu
    have hb : b.erase = b'.erase := hb
    change Stmt.erase _ = Stmt.erase _
    simp only [Stmt.erase, hi, hx, hu, hb]

theorem covers_forStatement (h : n.Covers lax m) (c : Context) :
    Covers lax (forStatement n c) (forStatement m c) (Same lax Stmt.erase) := by
  unfold forStatement
  refine .andThen .advance fun _ => .andThen (.expect _) fun _ => ?_
  refine .bind (covers_loopHead h _) fun head head' hhead => ?_
  rcases same_head hhead with ⟨target, target', rfl, rfl, ht⟩ | ⟨init, init', rfl, rfl, hi⟩
  · refine .bind (covers_expression h c) fun x y hxy => .andThen (.expect _) fun _ => ?_
    refine .bind (covers_loopBody h c) fun a b hab => .pure ?_
    exact ht.congr₃ hxy hab fun _ _ _ _ _ _ h h' h'' => by simp only [Stmt.erase, h, h', h'']
  · refine .andThen (.expect _) fun _ => .bind (covers_optionalExpression h c _) fun x y hxy => ?_
    refine .andThen (.expect _) fun _ => .bind (covers_optionalExpression h c _) fun u v huv => ?_
    refine .andThen (.expect _) fun _ => .bind (covers_loopBody h c) fun a b hab => ?_
    exact .pure (same_forStmt hi hxy huv hab)

theorem covers_returnStatement (h : n.Covers lax m) (c : Context) :
    Covers lax (returnStatement n c) (returnStatement m c) (Same lax Stmt.erase) := by
  unfold returnStatement
  refine .ite .failed (.andThen .advance fun _ => .andThen .current fun token => ?_)
  have hdone (x y : Option Expr) (hxy : Same lax Expr.eraseOption x y) : Covers lax
      (do
        Parser.endStatement
        return Stmt.returnStmt x)
      (do
        Parser.endStatement
        return Stmt.returnStmt y) (Same lax Stmt.erase) := by
    refine .andThen .endStatement fun _ => .pure (hxy.congr fun _ _ h => ?_)
    simp only [Stmt.erase, h]
  refine .andThen .afterBreak fun broken => .ite (hdone _ _ (.refl _ _)) ?_
  refine .bind (.map (covers_expression h c) fun x y hxy => ?_) hdone
  exact hxy.congr fun _ _ h => by simp only [Expr.eraseOption, h]

theorem covers_checkJump (c : Context) (continues : Bool) (label : Option String) :
    Covers lax (checkJump c continues label) (checkJump c continues label) Eq := by
  unfold checkJump
  split
  · split
    · exact .fail
    · exact .ite .fail (.pure rfl)
  · exact .ite (.ite (.pure rfl) .fail) (.ite (.pure rfl) .fail)

theorem Barred.fails_endStatement {s : TokenStream} (h : Barred s) (hbreak : s.afterBreak = false) :
    Fails Parser.endStatement s := by
  intro a t ht
  unfold Parser.endStatement at ht
  simp only [h.atSign, afterBreak_bind, hbreak, Parser.atEnd, Bool.false_eq_true, if_false,
    bind_assoc, current_bind, pure_bind, h.isName.isEnd, Bool.or_self] at ht
  exact Fails.throw (.unexpectedToken s.current) s a t ht

theorem covers_jumpStatement (c : Context) (continues : Bool) :
    Covers lax (jumpStatement c continues) (jumpStatement c continues) (Same lax Stmt.erase) := by
  unfold jumpStatement jumpLabel
  have hdone (label : Option String) : Covers lax
      (do
        checkJump c continues label
        Parser.endStatement
        return if continues = true then Stmt.continueStmt label else .breakStmt label)
      (do
        checkJump c continues label
        Parser.endStatement
        return if continues = true then Stmt.continueStmt label else .breakStmt label)
      (Same lax Stmt.erase) :=
    .andThen (covers_checkJump c continues label) fun _ => .andThen .endStatement fun _ =>
      .pure (.refl _ _)
  refine .andThen .advance fun _ => ?_
  simp only [bind_assoc]
  intro s t hst
  rw [afterBreak_bind, afterBreak_bind, ← hst.afterBreak]
  cases hbreak : s.afterBreak with
  | true => exact hdone none s t hst
  | false =>
    simp only [Bool.false_eq_true, if_false, bind_assoc]
    refine .name hst (fun name => ?_) fun hs => ?_
    · cases name with
      | none => exact hdone none s t hst
      | some name =>
        refine Covers.bind (U := Eq) ?_ (fun label label' hlabel => ?_) s t hst
        · exact .andThen .advance fun _ => .pure rfl
        · obtain rfl : label = label' := hlabel
          exact hdone label
    · refine .after fun label t ht => ?_
      cases ht
      refine .after fun _ t ht => ?_
      have hlooks := looks_checkJump c continues none s
      rw [ht] at hlooks
      obtain rfl : t = s := hlooks
      exact (hs.fails_endStatement hbreak).bind _

theorem covers_throwStatement (h : n.Covers lax m) (c : Context) :
    Covers lax (throwStatement n c) (throwStatement m c) (Same lax Stmt.erase) := by
  unfold throwStatement
  refine .andThen .advance fun _ => .andThen .afterBreak fun broken => .ite .failed ?_
  refine .bind (covers_expression h c) fun x y hxy => .andThen .endStatement fun _ => .pure ?_
  exact hxy.congr fun _ _ h => by simp only [Stmt.erase, h]

theorem covers_handler (h : n.Covers lax m) (c : Context) :
    Covers lax (handler n c) (handler m c) (Same lax Handler.erase) := by
  unfold handler
  refine .andThen (.eat _) fun opened => .ite ?_ ?_
  · refine .bind (covers_bindingPattern h c) fun p q hpq => .andThen (.expect _) fun _ => ?_
    refine .bind (covers_block h c) fun as bs has => .pure ?_
    refine hpq.congr₂ (f := fun p as => Handler.mk (some p) as) has fun _ _ _ _ h h' => ?_
    simp only [Handler.erase, Pattern.eraseOption, h, h']
  · refine .bind (covers_block h c) fun as bs has => .pure ?_
    refine has.congr (f := fun as => Handler.mk none as) fun _ _ h => ?_
    simp only [Handler.erase, h]

theorem covers_tryStatement (h : n.Covers lax m) (c : Context) :
    Covers lax (tryStatement n c) (tryStatement m c) (Same lax Stmt.erase) := by
  unfold tryStatement
  refine .andThen .advance fun _ => .bind (covers_block h c) fun tried tried' htried => ?_
  have hdone {x y : Option Handler} (hxy : Same lax Handler.eraseOption x y)
      (u v : Option (List Stmt)) (huv : Same lax Stmt.eraseFinalizer u v) : Covers lax
      (do
        if x.isNone && u.isNone then throw .missingHandler
        return Stmt.tryStmt tried x u)
      (do
        if y.isNone && v.isNone then throw .missingHandler
        return Stmt.tryStmt tried' y v) (Same lax Stmt.erase) := by
    have hx : x.isNone = y.isNone :=
      hxy.read (f := fun x => x.isNone) fun a b h => by
        rw [← Option.not_isSome, ← isSome_eraseOption, h, isSome_eraseOption, Option.not_isSome]
    have hu : u.isNone = v.isNone :=
      huv.read (f := fun u => u.isNone) fun a b h => by
        rw [← Option.not_isSome, ← isSome_eraseFinalizer, h, isSome_eraseFinalizer,
          Option.not_isSome]
    rw [hx, hu]
    refine .ite .failed (.pure (htried.congr₃ hxy huv fun _ _ _ _ _ _ h h' h'' => ?_))
    simp only [Stmt.erase, h, h', h'']
  have hfinally (x y : Option Handler) (hxy : Same lax Handler.eraseOption x y) : Covers lax
      (do
        let u ← if ← Parser.eatWord .finallyWord then some <$> block n c else pure none
        if x.isNone && u.isNone then throw .missingHandler
        return Stmt.tryStmt tried x u)
      (do
        let v ← if ← Parser.eatWord .finallyWord then some <$> block m c else pure none
        if y.isNone && v.isNone then throw .missingHandler
        return Stmt.tryStmt tried' y v) (Same lax Stmt.erase) := by
    refine .andThen (.eatWord _) fun found => .ite ?_ (hdone hxy _ _ (.refl _ _))
    refine .bind (.map (covers_block h c) fun as bs has => ?_) (hdone hxy)
    exact has.congr fun _ _ h => by simp only [Stmt.eraseFinalizer, h]
  refine .andThen (.eatWord _) fun caught => .ite ?_ (hfinally _ _ (.refl _ _))
  refine .bind (.map (covers_handler h c) fun x y hxy => ?_) hfinally
  exact hxy.congr fun _ _ h => by simp only [Handler.eraseOption, h]

/-- The statements of a `switch` clause with the names that are declared behind them. -/
def SameClause (lax : Bool) (a b : List Stmt × List String) : Prop :=
  Same lax Stmt.eraseAll a.1 b.1 ∧ a.2 = b.2

theorem covers_clauseItems (h : n.Covers lax m) (c : Context) (declared : List String)
    {rounds rounds' : Nat} (hrounds : rounds ≤ rounds') :
    Covers lax (clauseItems n c declared rounds) (clauseItems m c declared rounds')
      (SameClause lax) := by
  induction rounds generalizing rounds' declared with
  | zero => exact .exhausted
  | succ rounds ih =>
    cases rounds' with
    | zero => cases hrounds
    | succ rounds' =>
      unfold clauseItems
      refine .andThen .current fun token => .ite (.pure ⟨.refl _ _, rfl⟩) ?_
      refine .bind (h.item _) fun a b hab => .andThen (covers_declareAll _ hab) fun declared => ?_
      refine .bind (ih declared (Nat.le_of_succ_le_succ hrounds)) fun found found' hfound => ?_
      exact .pure ⟨same_cons hab hfound.1, hfound.2⟩

theorem covers_switchClauses (h : n.Covers lax m) (c : Context) (declared : List String)
    (hasDefault : Bool) {rounds rounds' : Nat} (hrounds : rounds ≤ rounds') :
    Covers lax (switchClauses n c declared hasDefault rounds)
      (switchClauses m c declared hasDefault rounds') (Same lax SwitchCase.eraseAll) := by
  induction rounds generalizing rounds' declared hasDefault with
  | zero => exact .exhausted
  | succ rounds ih =>
    cases rounds' with
    | zero => cases hrounds
    | succ rounds' =>
      have hrest (x y : Option Expr) (hxy : Same lax Expr.eraseOption x y) : Covers lax
          (do
            Parser.expect .colon
            let found ← clauseItems n c declared n.rounds
            let others ← switchClauses n c found.2 (hasDefault || x.isNone) rounds
            return SwitchCase.mk x found.1 :: others)
          (do
            Parser.expect .colon
            let found ← clauseItems m c declared m.rounds
            let others ← switchClauses m c found.2 (hasDefault || y.isNone) rounds'
            return SwitchCase.mk y found.1 :: others) (Same lax SwitchCase.eraseAll) := by
        have hx : x.isNone = y.isNone :=
          hxy.read (f := fun x => x.isNone) fun a b h => by
            rw [← isNone_eraseOption a, h, isNone_eraseOption]
        refine .andThen (.expect _) fun _ => ?_
        refine .bind (covers_clauseItems h c declared h.rounds) fun found found' hfound => ?_
        rw [hfound.2, hx]
        refine .bind (ih _ _ (Nat.le_of_succ_le_succ hrounds)) fun as bs has => .pure ?_
        refine hxy.congr₃ (f := fun x body as => SwitchCase.mk x body :: as) hfound.1 has
          fun _ _ _ _ _ _ h h' h'' => ?_
        simp only [SwitchCase.eraseAll, SwitchCase.erase, h, h', h'']
      unfold switchClauses
      refine .andThen (.atSign _) fun _ => .ite (.pure (.refl _ _))
        (.andThen (.eatWord _) fun _ => ?_)
      refine .ite (.bind (.map (covers_expression h c) fun x y hxy => ?_) hrest) ?_
      · exact hxy.congr fun _ _ h => by simp only [Expr.eraseOption, h]
      · exact .andThen (.expectWord _) fun _ => .ite .failed (hrest _ _ (.refl _ _))

theorem covers_switchStatement (h : n.Covers lax m) (c : Context) :
    Covers lax (switchStatement n c) (switchStatement m c) (Same lax Stmt.erase) := by
  unfold switchStatement
  refine .andThen .advance fun _ => .bind (covers_condition h c) fun x y hxy => ?_
  refine .andThen (.expect _) fun _ => .bind (covers_switchClauses h _ _ _ h.rounds) ?_
  refine fun as bs has => .andThen (.expect _) fun _ => .pure ?_
  exact hxy.congr₂ has fun _ _ _ _ h h' => by simp only [Stmt.erase, h, h']

theorem covers_statement (h : n.Covers lax m) (c : Context) (chain : Option Nat) :
    Covers lax (statement n c chain) (statement m c chain) (Same lax Stmt.erase) := by
  unfold statement
  refine .andThen .current fun token => ?_
  split
  · refine .bind (covers_block h c) fun as bs has => .pure (has.congr fun _ _ h => ?_)
    simp only [Stmt.erase, h]
  · exact .andThen .advance fun _ => .pure (.refl _ _)
  · exact .fail
  · exact covers_declarationStatement h c _
  · exact covers_ifStatement h c
  · exact covers_whileStatement h c
  · exact covers_doWhileStatement h c
  · exact covers_forStatement h c
  · exact covers_returnStatement h c
  · exact covers_jumpStatement c false
  · exact covers_jumpStatement c true
  · exact covers_throwStatement h c
  · exact covers_tryStatement h c
  · exact covers_switchStatement h c
  · refine .bind .isStrict fun mode mode' hmode => ?_
    rcases hmode.cases with rfl | ⟨rfl, rfl, rfl⟩
    · exact .ite .fail .fail
    · exact .lost fun s => .throw _ s
  · exact .fail
  · exact .andThen .advance fun _ => .andThen .endStatement fun _ => .pure (.refl _ _)
  · exact covers_expressionOrLabeled h c chain

theorem covers_item (h : n.Covers lax m) (c : Context) :
    Covers lax (item n c) (item m c) (Same lax Stmt.erase) := by
  unfold item
  refine .atLetDeclaration (covers_declarationStatement h c _) (.andThen .current fun token => ?_)
    fun s hs => .after fun _ t ht => (fails_declarators (hs t ht) n _ _ _).bind _
  split
  · refine .bind (covers_functionDeclaration h c) fun f g hfg => .pure (hfg.congr fun _ _ h => ?_)
    simp only [Stmt.erase, h]
  · exact covers_declarationStatement h c _
  · exact covers_statement h c none

end Grammar

end ProtoScript
