import ProtoScript.Proofs.Grammar.Expression
/-!
# Statements and programs are sound

What the rules for statements yield, if the rules for what is nested in them yield sound trees; and
so, from one depth to the next, what all rules yield and what is read from texts.  The labels of a
context are all those around a statement; those directly in front of it are known to be on a loop
before the loop itself is read, so they count as labels of the loop in its body only.
-/

namespace ProtoScript

namespace Grammar

variable {n : Nesting}

/-! ### Labels in front of a statement -/

namespace Context

variable {c : Context} {start : Nat}

/-- A statement that is no loop does not look at which labels stand in front of it. -/
theorem targetsFrom_eq_targets (h : ∀ l ∈ c.labels.drop start, l.isLoop = false) :
    c.targetsFrom start = c.targets := by
  have hdrop : (c.labels.drop start).filter Label.isLoop = [] :=
    List.filter_eq_nil_iff.mpr fun l hl => by rw [h l hl]; exact Bool.false_ne_true
  have hall : c.labels.filter Label.isLoop = (c.labels.take start).filter Label.isLoop := by
    rw [← List.take_append_drop start c.labels, List.filter_append, List.take_append_drop, hdrop,
      List.append_nil]
  unfold targets targetsFrom
  rw [List.take_length, hall]

/-- In the body of a loop the labels in front of the loop can be continued. -/
theorem targets_loopBody (h : ∀ l ∈ c.labels.drop start, l.isLoop = true) :
    c.loopBody.targets = (c.targetsFrom start).loop (c.chainFrom start) := by
  have hdrop : (c.labels.drop start).filter Label.isLoop = c.labels.drop start :=
    List.filter_eq_self.mpr h
  have hall : c.labels.filter Label.isLoop =
      (c.labels.take start).filter Label.isLoop ++ c.labels.drop start := by
    conv_lhs => rw [← List.take_append_drop start c.labels, List.filter_append, hdrop]
  unfold targets targetsFrom loopBody Targets.loop chainFrom
  simp only [List.take_length, hall, List.map_append, Bool.true_or]

theorem targets_inSwitch : { c with inSwitch := true }.targets = c.targets.switch := by
  unfold targets targetsFrom Targets.switch
  simp only [Bool.or_true]

def behindLabel (c : Context) (start : Nat) (name : String) (onLoop : Bool) : Context :=
  { c with labels := addLabel c.labels start name onLoop }

variable (hstart : start ≤ c.labels.length) (name : String) (onLoop : Bool)

include hstart

theorem take_behindLabel :
    (c.behindLabel start name onLoop).labels.take start = c.labels.take start := by
  have hlen : (c.labels.take start).length = start := List.length_take_of_le hstart
  unfold behindLabel addLabel
  cases onLoop with
  | false =>
    simp only [Bool.false_eq_true, if_false]
    exact List.take_append_of_le_length hstart
  | true =>
    simp only [if_true]
    rw [List.take_append_of_le_length hstart, List.take_left' hlen]

theorem drop_behindLabel :
    (c.behindLabel start name onLoop).labels.drop start =
      (c.labels.drop start ++ [(⟨name, false⟩ : Label)]).map
        fun l : Label => { l with isLoop := l.isLoop || onLoop } := by
  have hlen : (c.labels.take start).length = start := List.length_take_of_le hstart
  unfold behindLabel addLabel
  cases onLoop with
  | false =>
    simp only [Bool.false_eq_true, if_false, Bool.or_false, List.map_id']
    exact List.drop_append_of_le_length hstart
  | true =>
    simp only [if_true, Bool.or_true]
    rw [List.take_append_of_le_length hstart, List.drop_left' hlen,
      List.drop_append_of_le_length hstart]

theorem map_name_drop_behindLabel :
    ((c.behindLabel start name onLoop).labels.drop start).map Label.name =
      (c.labels.drop start).map Label.name ++ [name] := by
  rw [drop_behindLabel hstart, List.map_map, List.map_append]
  rfl

theorem map_name_behindLabel :
    (c.behindLabel start name onLoop).labels.map Label.name =
      c.labels.map Label.name ++ [name] := by
  rw [← List.take_append_drop start (c.behindLabel start name onLoop).labels,
    take_behindLabel hstart, List.map_append, map_name_drop_behindLabel hstart,
    ← List.append_assoc, ← List.map_append, List.take_append_drop]

theorem targetsFrom_behindLabel :
    (c.behindLabel start name onLoop).targetsFrom start = (c.targetsFrom start).labeled name := by
  unfold targetsFrom Targets.labeled
  rw [take_behindLabel hstart, map_name_behindLabel hstart]
  rfl

theorem chainFrom_behindLabel :
    (c.behindLabel start name onLoop).chainFrom start = c.chainFrom start ++ [name] :=
  map_name_drop_behindLabel hstart name onLoop

/-- If the labels in front are not marked yet, the further label marks them all. -/
theorem marked_behindLabel {s : TokenStream} (h : ∀ l ∈ c.labels.drop start, l.isLoop = false) :
    (c.behindLabel start name (s.current.word?.any startsLoop)).Marked start s := by
  refine ⟨?_, fun l hl => ?_⟩
  · have hlen := congrArg List.length
      (map_name_behindLabel hstart name (s.current.word?.any startsLoop))
    rw [List.length_append, List.length_map, List.length_map] at hlen
    omega
  · rw [drop_behindLabel hstart] at hl
    obtain ⟨before, hbefore, rfl⟩ := List.mem_map.mp hl
    rcases List.mem_append.mp hbefore with hbefore | hbefore
    · simp only [h before hbefore, Bool.false_or]
    · simp only [List.mem_singleton.mp hbefore, Bool.false_or]

end Context

/-! ### Declarations -/

theorem yields_declarators (hn : n.Sound) (c : Context) (kind : DeclarationKind) (rounds : Nat) :
    Yields (declarators n c kind rounds) fun list =>
      ∀ d ∈ list, d.target.Sound ∧ ∀ x ∈ d.init, x.Sound :=
  .all_declarators ((yields_bindingPattern hn c).mono fun _ h => h.sound) (hn.assignment c false)
    kind rounds

theorem sound_declaration {kind : DeclarationKind} {list : List Declarator}
    (h : ∀ d ∈ list, d.target.Sound ∧ ∀ x ∈ d.init, x.Sound) :
    (Declaration.mk kind list).Sound :=
  .intro (fun d hd => (h d hd).1) fun d hd => (h d hd).2

theorem yields_declarationStatement (hn : n.Sound) (c : Context) (kind : DeclarationKind) :
    Yields (declarationStatement n c kind) fun s =>
      ∃ d : Declaration, s = .declaration d ∧ d.kind = kind ∧ d.Sound := by
  unfold declarationStatement
  refine .skip fun _ => .bind (yields_declarators hn c kind _) fun list hlist => ?_
  exact .skip fun _ => .skip fun _ => .pure ⟨_, rfl, rfl, sound_declaration hlist⟩

/-! ### Blocks -/

theorem yields_condition (hn : n.Sound) (c : Context) : Yields (condition n c) Expr.Sound :=
  .in_condition (yields_expression hn c)

theorem yields_block (hn : n.Sound) (c : Context) :
    Yields (block n c) fun body => ∀ s ∈ body, s.Sound c.targets [] :=
  .all_block (hn.item c)

/-! ### Statements that are no loops -/

/-- The statement is sound wherever the targets are those, whatever stands in front of it. -/
abbrev Anywhere (t : Targets) (s : Stmt) : Prop := ∀ chain, Alone t chain s

theorem yields_expressionStatement (hn : n.Sound) (c : Context) :
    Yields (expressionStatement n c) (Anywhere c.targets) := by
  unfold expressionStatement
  refine .bind (yields_expression hn c) fun value hvalue => .skip fun _ => .pure fun chain => ?_
  exact ⟨.expression hvalue, rfl⟩

theorem yields_ifStatement (hn : n.Sound) (c : Context) :
    Yields (ifStatement n c) (Anywhere c.targets) := by
  unfold ifStatement
  refine .skip fun _ => .bind (yields_condition hn c) fun test htest => ?_
  refine .bind (hn.statement c) fun consequent hconsequent => .skip fun otherwise => ?_
  refine .ite (fun _ => ?_) fun _ => .pure fun chain => ?_
  · refine .bind (hn.statement c) fun alternate halternate => .pure fun chain => ⟨?_, rfl⟩
    refine .ifStmt htest hconsequent.1 hconsequent.2 (fun s hs => ?_) fun s hs => ?_
    · cases hs
      exact halternate.1
    · cases hs
      exact halternate.2
  · exact ⟨.ifStmt htest hconsequent.1 hconsequent.2 nofun nofun, rfl⟩

theorem yields_returnStatement (hn : n.Sound) (c : Context) :
    Yields (returnStatement n c) (Anywhere c.targets) := by
  unfold returnStatement
  refine .ite (fun _ => .failed) fun hinside => ?_
  have hreturns : c.targets.returns = true := by
    unfold Context.targets Context.targetsFrom
    simpa using hinside
  have hrest {value : Option Expr} (hvalue : ∀ x ∈ value, x.Sound) : Yields
      (Parser.endStatement >>= fun _ => pure (Stmt.returnStmt value)) (Anywhere c.targets) :=
    .skip fun _ => .pure fun chain => ⟨.returnStmt hreturns hvalue, rfl⟩
  refine .skip fun _ => .skip fun token => .skip fun broken => .ite (fun _ => ?_) fun _ => ?_
  · exact hrest nofun
  · exact .bind (.some_map (yields_expression hn c)) fun value hvalue => hrest hvalue

theorem yields_checkJump (c : Context) (continues : Bool) (label : Option String) :
    Yields (checkJump c continues label) fun _ =>
      c.targets.allows (if continues then .continued label else .broke label) := by
  unfold checkJump
  cases label with
  | none =>
    refine .ite (fun hc => .ite (fun h => .pure ?_) fun _ => .fail) fun hc =>
      .ite (fun h => .pure ?_) fun _ => .fail
    · rw [if_pos hc]
      exact h
    · rw [if_neg hc]
      exact h
  | some name =>
    dsimp only
    split
    · exact .fail
    rename_i label hfound
    have hmem : label ∈ c.labels := List.mem_of_find?_eq_some hfound
    have hname : label.name = name := by simpa using List.find?_some hfound
    refine .ite (fun _ => .fail) fun hloop => .pure ?_
    cases continues with
    | false => exact List.mem_map.mpr ⟨label, hmem, hname⟩
    | true =>
      have hisLoop : label.isLoop = true := by simpa using hloop
      refine List.mem_map.mpr ⟨label, List.mem_filter.mpr ⟨?_, hisLoop⟩, hname⟩
      rw [List.take_length]
      exact hmem

theorem yields_jumpStatement (c : Context) (continues : Bool) :
    Yields (jumpStatement c continues) (Anywhere c.targets) := by
  unfold jumpStatement
  refine .skip fun _ => .skip fun label => .bind (yields_checkJump c continues label) fun _ h => ?_
  refine .skip fun _ => .pure fun chain => ?_
  cases continues with
  | false => exact ⟨.breakStmt h, rfl⟩
  | true => exact ⟨.continueStmt h, rfl⟩

theorem yields_throwStatement (hn : n.Sound) (c : Context) :
    Yields (throwStatement n c) (Anywhere c.targets) := by
  unfold throwStatement
  refine .skip fun _ => .skip fun broken => .ite (fun _ => .failed) fun _ => ?_
  refine .bind (yields_expression hn c) fun value hvalue => .skip fun _ => .pure fun chain => ?_
  exact ⟨.throwStmt hvalue, rfl⟩

theorem yields_tryStatement (hn : n.Sound) (c : Context) :
    Yields (tryStatement n c) (Anywhere c.targets) := by
  refine .in_tryStatement ((yields_bindingPattern hn c).mono fun _ h => h.sound) (hn.item c) ?_
  intro tried handler finalizer htried hhandler hfinalizer chain
  refine ⟨.tryStmt htried ?_ ?_ hfinalizer, rfl⟩
  · exact fun h hh => (hhandler h hh).1
  · exact fun h hh => (hhandler h hh).2

def ClauseSound (t : Targets) (clause : SwitchCase) : Prop :=
  (∀ x ∈ clause.test, x.Sound) ∧ ∀ s ∈ clause.body, s.Sound t []

theorem yields_switchClauses (hn : n.Sound) (c : Context) (declared : List String)
    (hasDefault : Bool) (rounds : Nat) :
    Yields (switchClauses n c declared hasDefault rounds) fun clauses =>
      ∀ clause ∈ clauses, ClauseSound c.targets clause :=
  .all_switchClauses (yields_expression hn c) (hn.item c) declared hasDefault rounds

theorem yields_switchStatement (hn : n.Sound) (c : Context) :
    Yields (switchStatement n c) (Anywhere c.targets) := by
  unfold switchStatement
  refine .skip fun _ => .bind (yields_condition hn c) fun subject hsubject => .skip fun _ => ?_
  refine .bind (yields_switchClauses hn _ _ _ _) fun clauses hclauses => .skip fun _ => ?_
  rw [Context.targets_inSwitch] at hclauses
  refine .pure fun chain => ⟨.switchStmt hsubject ?_ ?_, rfl⟩
  · exact fun clause hclause => (hclauses clause hclause).1
  · exact fun clause hclause => (hclauses clause hclause).2

/-! ### Loops -/

abbrev AsLoop (inner : Targets) (s : Stmt) : Prop :=
  ∀ t chain, inner = t.loop chain → Alone t chain s

theorem yields_loopBody (hn : n.Sound) (c : Context) :
    Yields (loopBody n c) (Alone c.loopBody.targets []) :=
  hn.statement c.loopBody

theorem yields_whileStatement (hn : n.Sound) (c : Context) :
    Yields (whileStatement n c) (AsLoop c.loopBody.targets) := by
  unfold whileStatement
  refine .skip fun _ => .bind (yields_condition hn c) fun test htest => ?_
  refine .bind (yields_loopBody hn c) fun body hbody => .pure fun t chain ht => ?_
  rw [ht] at hbody
  exact ⟨.whileStmt htest hbody.1 hbody.2, rfl⟩

theorem yields_doWhileStatement (hn : n.Sound) (c : Context) :
    Yields (doWhileStatement n c) (AsLoop c.loopBody.targets) := by
  unfold doWhileStatement
  refine .skip fun _ => .bind (yields_loopBody hn c) fun body hbody => .skip fun _ => ?_
  refine .bind (yields_condition hn c) fun test htest => .skip fun _ => .pure fun t chain ht => ?_
  rw [ht] at hbody
  exact ⟨.doWhileStmt hbody.1 hbody.2 htest, rfl⟩

def LoopHead.Sound : LoopHead → Prop
  | .keys target =>
    (∀ d, target = .declaration d → d.Sound) ∧
      (∀ d, target = .declaration d → ∃ declarator, d.declarators = [declarator]) ∧
      ∀ p, target = .pattern p → p.Sound
  | .test init =>
    (∀ d, init = some (.declaration d) → d.Sound) ∧ ∀ x, init = some (.expression x) → x.Sound

theorem yields_declarationHead (hn : n.Sound) (c : Context) (kind : DeclarationKind) :
    Yields (declarationHead n c kind) LoopHead.Sound := by
  unfold declarationHead
  refine .skip fun _ => .bind (yields_declarators hn c kind _) fun list hlist => ?_
  have hdeclared : (Declaration.mk kind list).Sound := sound_declaration hlist
  refine .skip fun keyed => .ite (fun _ => ?_) fun _ => .skip fun _ => .pure ⟨fun d hd => ?_, nofun⟩
  · split
    · next heq =>
      have hkeys : Yields (Parser.advance >>= fun _ =>
          pure (LoopHead.keys (.declaration ⟨kind, list⟩))) LoopHead.Sound := by
        refine .skip fun _ => .pure ⟨fun d hd => ?_, fun d hd => ?_, nofun⟩
        · cases hd
          exact hdeclared
        · cases hd
          exact ⟨_, heq⟩
      exact .skip fun strict => .ite (fun _ => .failed) fun _ => hkeys
    · exact .fail
  · cases hd
    exact hdeclared

theorem yields_loopHead (hn : n.Sound) (c : Context) : Yields (loopHead n c) LoopHead.Sound := by
  unfold loopHead
  refine .skip fun isLet => .ite (fun _ => yields_declarationHead hn c _) fun _ => ?_
  refine .skip fun token => ?_
  split
  · exact .pure ⟨nofun, nofun⟩
  · exact yields_declarationHead hn c _
  · exact yields_declarationHead hn c _
  refine .bind (yields_expression hn c) fun value hvalue => .skip fun keyed => ?_
  refine .ite (fun _ => .skip fun strict => ?_) fun _ => .pure ⟨nofun, fun x hx => ?_⟩
  · split
    · rename_i target heq
      refine .pure ⟨nofun, nofun, fun p hp => ?_⟩
      cases hp
      exact (Expr.sound_toPattern hvalue heq).sound
    · exact .fail
  · cases hx
    exact hvalue

theorem yields_optionalExpression (hn : n.Sound) (c : Context) (close : Punctuator) :
    Yields (optionalExpression n c close) fun value => ∀ x ∈ value, x.Sound :=
  .all_optionalExpression (yields_expression hn c) close

theorem yields_forStatement (hn : n.Sound) (c : Context) :
    Yields (forStatement n c) (AsLoop c.loopBody.targets) := by
  unfold forStatement
  refine .skip fun _ => .skip fun _ => .bind (yields_loopHead hn _) fun head hhead => ?_
  cases head with
  | keys target =>
    refine .bind (yields_expression hn c) fun object hobject => .skip fun _ => ?_
    refine .bind (yields_loopBody hn c) fun body hbody => .pure fun t chain ht => ?_
    rw [ht] at hbody
    exact ⟨.forInStmt hhead.1 hhead.2.1 hhead.2.2 hobject hbody.1 hbody.2, rfl⟩
  | test init =>
    refine .skip fun _ => .bind (yields_optionalExpression hn c _) fun test htest => ?_
    refine .skip fun _ => .bind (yields_optionalExpression hn c _) fun update hupdate => ?_
    refine .skip fun _ => .bind (yields_loopBody hn c) fun body hbody => .pure fun t chain ht => ?_
    rw [ht] at hbody
    exact ⟨.forStmt hhead.1 hhead.2 htest hupdate hbody.1 hbody.2, rfl⟩

/-! ### All statements -/

/-- The labels in front of a statement that is no loop itself are not marked as loops when a further
label is read behind them. -/
theorem yields_labeledStatement (hn : n.Sound) (c : Context) {chain : Option Nat}
    (hstart : chain.getD c.labels.length ≤ c.labels.length)
    (hlabels : ∀ l ∈ c.labels.drop (chain.getD c.labels.length), l.isLoop = false) (name : String) :
    Yields (labeledStatement n c chain name) (Alone
      (c.targetsFrom (chain.getD c.labels.length)) (c.chainFrom (chain.getD c.labels.length))) := by
  unfold labeledStatement
  refine .skip fun _ => .skip fun _ => .ite (fun _ => .failed) fun _ => .current fun s v s' hv => ?_
  generalize hs : chain.getD c.labels.length = start at hstart hlabels hv ⊢
  have hmarked := Context.marked_behindLabel hstart name (s := s) hlabels
  dsimp only at hv
  split at hv
  · cases hv
  have hbody : Yields (fun s₁ => n.parse (.statement (some start)) (c.behindLabel start name
      (s.current.word?.any startsLoop)) s) (Alone ((c.targetsFrom start).labeled name)
        (c.chainFrom start ++ [name])) := by
    intro s₁ body s₂ hbody
    have hsound := hn.chained _ hmarked hbody
    rw [Context.targetsFrom_behindLabel hstart, Context.chainFrom_behindLabel hstart] at hsound
    exact hsound
  refine Yields.bind hbody (fun body hbody => Yields.pure ?_) s v s' hv
  exact ⟨.labeled hbody.1 hbody.2, rfl⟩

/-- What a chain of labels is marked with when a statement comes up. -/
theorem Context.marked_of_ready {c : Context} {chain : Option Nat} {s : TokenStream}
    (h : (Goal.statement chain).Ready c s) : c.Marked (chain.getD c.labels.length) s := by
  cases chain with
  | some start => exact h
  | none =>
    refine ⟨Nat.le_refl _, fun l hl => ?_⟩
    rw [Option.getD_none, List.drop_length] at hl
    cases hl

theorem eq_of_startsLoop {t : Token} (h : t.word?.any startsLoop = true) :
    t = .keyword .forWord ∨ t = .keyword .whileWord ∨ t = .keyword .doWord := by
  cases t with
  | keyword word =>
    simp only [Token.word?, Option.any_some, startsLoop, Bool.or_eq_true, beq_iff_eq] at h
    rcases h with (rfl | rfl) | rfl
    · exact .inl rfl
    · exact .inr (.inl rfl)
    · exact .inr (.inr rfl)
  | _ => cases h

theorem yields_expressionOrLabeled (hn : n.Sound) (c : Context) {chain : Option Nat}
    (hstart : chain.getD c.labels.length ≤ c.labels.length)
    (hlabels : ∀ l ∈ c.labels.drop (chain.getD c.labels.length), l.isLoop = false) :
    Yields (expressionOrLabeled n c chain) (Alone
      (c.targetsFrom (chain.getD c.labels.length)) (c.chainFrom (chain.getD c.labels.length))) := by
  have hplain : Yields (expressionStatement n c) (Alone
      (c.targetsFrom (chain.getD c.labels.length)) (c.chainFrom (chain.getD c.labels.length))) := by
    rw [Context.targetsFrom_eq_targets hlabels]
    exact (yields_expressionStatement hn c).mono fun s hs => hs _
  unfold expressionOrLabeled
  refine .skip fun name => ?_
  cases name with
  | none => exact hplain
  | some name =>
    refine .skip fun next => .ite (fun _ => ?_) fun _ => hplain
    exact yields_labeledStatement hn c hstart hlabels name

theorem sound_statement (hn : n.Sound) (c : Context) {chain : Option Nat} {s s' : TokenStream}
    {v : Stmt} (hready : (Goal.statement chain).Ready c s) (h : statement n c chain s = .ok v s') :
    Alone (c.targetsFrom (chain.getD c.labels.length)) (c.chainFrom (chain.getD c.labels.length))
      v := by
  obtain ⟨hstart, hlabels⟩ := Context.marked_of_ready hready
  have hplain (hword : s.current.word?.any startsLoop = false) {p : Parser Stmt}
      (hp : Yields p (Anywhere c.targets)) (h : p s = .ok v s') : Alone
        (c.targetsFrom (chain.getD c.labels.length)) (c.chainFrom (chain.getD c.labels.length))
          v := by
    rw [Context.targetsFrom_eq_targets fun l hl => (hlabels l hl).trans hword]
    exact hp s v s' h _
  have hloop (hword : s.current.word?.any startsLoop = true) {p : Parser Stmt}
      (hp : Yields p (AsLoop c.loopBody.targets)) (h : p s = .ok v s') : Alone
        (c.targetsFrom (chain.getD c.labels.length)) (c.chainFrom (chain.getD c.labels.length))
          v :=
    hp s v s' h _ _ (Context.targets_loopBody fun l hl => (hlabels l hl).trans hword)
  unfold statement at h
  rw [current_bind] at h
  generalize htoken : s.current = token at h
  split at h
  · refine hplain (by rw [htoken]; rfl) (.bind (yields_block hn c) fun body hbody => ?_) h
    exact .pure fun chain => ⟨.block hbody, rfl⟩
  · exact hplain (by rw [htoken]; rfl) (.skip fun _ => .pure fun chain => ⟨.empty, rfl⟩) h
  · cases h
  · refine hplain (by rw [htoken]; rfl) ((yields_declarationStatement hn c _).mono ?_) h
    rintro s ⟨d, rfl, hkind, hd⟩ chain
    refine ⟨.declaration hd, ?_⟩
    unfold lexicalNames
    dsimp only
    rw [hkind]
    rfl
  · exact hplain (by rw [htoken]; rfl) (yields_ifStatement hn c) h
  · exact hloop (by rw [htoken]; rfl) (yields_whileStatement hn c) h
  · exact hloop (by rw [htoken]; rfl) (yields_doWhileStatement hn c) h
  · exact hloop (by rw [htoken]; rfl) (yields_forStatement hn c) h
  · exact hplain (by rw [htoken]; rfl) (yields_returnStatement hn c) h
  · exact hplain (by rw [htoken]; rfl) (yields_jumpStatement c false) h
  · exact hplain (by rw [htoken]; rfl) (yields_jumpStatement c true) h
  · exact hplain (by rw [htoken]; rfl) (yields_throwStatement hn c) h
  · exact hplain (by rw [htoken]; rfl) (yields_tryStatement hn c) h
  · exact hplain (by rw [htoken]; rfl) (yields_switchStatement hn c) h
  · exact (Yields.skip fun strict => .ite (fun _ => .fail) fun _ => .fail) s v s' h
  · cases h
  · refine hplain (by rw [htoken]; rfl) (.skip fun _ => .skip fun _ => ?_) h
    exact .pure fun chain => ⟨.debugger, rfl⟩
  · have hword : s.current.word?.any startsLoop = false := by
      refine Bool.eq_false_iff.mpr fun hword => ?_
      rw [htoken] at hword
      rcases eq_of_startsLoop hword with rfl | rfl | rfl <;> contradiction
    exact yields_expressionOrLabeled hn c hstart (fun l hl => (hlabels l hl).trans hword) s v s' h

theorem yields_item (hn : n.Sound) (c : Context) :
    Yields (item n c) (Stmt.Sound c.targets []) := by
  have hdeclaration (kind : DeclarationKind) :
      Yields (declarationStatement n c kind) (Stmt.Sound c.targets []) := by
    refine (yields_declarationStatement hn c kind).mono ?_
    rintro s ⟨d, rfl, -, hd⟩
    exact .declaration hd
  unfold item
  refine .skip fun isLet => .ite (fun _ => hdeclaration _) fun _ => .skip fun token => ?_
  split
  · refine .bind (yields_functionDeclaration hn c) fun d hd => .pure (.function hd.1 ?_)
    rw [hd.2]
    exact nofun
  · exact hdeclaration _
  · intro s v s' h
    have hready : (Goal.statement none).Ready c s := trivial
    have hsound := (sound_statement hn c hready h).1
    have hchain : c.chainFrom c.labels.length = [] := by
      unfold Context.chainFrom
      rw [List.drop_length]
      rfl
    rw [Option.getD_none, hchain] at hsound
    exact hsound

end Grammar

/-!
### Programs are sound

Every tree that the grammar yields is sound, at any nesting depth: the rules of a depth use those of
the depth below.
-/

namespace Grammar

theorem sound_rule {n : Nesting} (hn : n.Sound) (g : Goal) (c : Context) {s s' : TokenStream}
    {v : g.Result} (hready : g.Ready c s) (h : rule n c g s = .ok v s') : g.Sound c v := by
  cases g with
  | assignment cover => exact yields_assignment hn c cover s v s' h
  | binary strength => exact yields_binary hn c strength s v s' h
  | power => exact yields_power hn c s v s' h
  | unary => exact yields_unary hn c s v s' h
  | construct => exact yields_construct hn c s v s' h
  | pattern => exact yields_bindingPattern hn c s v s' h
  | element => exact yields_bindingElement hn c (yields_bindingPattern hn c) s v s' h
  | statement chain => exact sound_statement hn c hready h
  | item => exact yields_item hn c s v s' h

theorem sound_nesting (depth : Nat) : (nesting depth).Sound := by
  have hparse : ∀ depth g c s v s', g.Ready c s → parse depth g c s = .ok v s' → g.Sound c v := by
    intro depth
    induction depth with
    | zero =>
      intro g c s v s' _ h
      cases h
    | succ depth ih =>
      intro g c s v s' hready h
      have hn : Nesting.Sound ⟨depth + 1, parse depth⟩ := ih
      exact sound_rule hn g c hready h
  exact hparse depth

end Grammar

theorem Parser.yields_runOn {α : Type} {rule : Grammar.Nesting → Parser α} {Q : α → Prop}
    (h : ∀ depth, Grammar.Yields (rule (Grammar.nesting depth)) Q) {source : String}
    {strict : Bool} {v : α} {s : TokenStream}
    (hrun : Parser.runOn rule source strict = .ok (v, s)) : Q v := by
  unfold Parser.runOn at hrun
  split at hrun
  · cases hrun
  split at hrun
  · rename_i heq
    cases hrun
    exact h _ _ _ _ heq
  · cases hrun

theorem Parser.sound_runOn {α : Type} {rule : Grammar.Nesting → Parser α} {Q : α → Prop}
    (h : ∀ n : Grammar.Nesting, n.Sound → Grammar.Yields (rule n) Q) {source : String}
    {strict : Bool} {v : α} {s : TokenStream}
    (hrun : Parser.runOn rule source strict = .ok (v, s)) : Q v :=
  Parser.yields_runOn (fun depth => h _ (Grammar.sound_nesting depth)) hrun

theorem Program.sound_ofString {source : String} {strict : Bool} {p : Program}
    (h : Program.ofString source strict = .ok p) : p.Sound := by
  unfold Program.ofString at h
  cases hrun : Parser.runOn
      (fun n => Grammar.directiveBody n .program none true n.rounds) source strict with
  | error e => simp [hrun, bind, Except.bind] at h
  | ok found =>
    simp only [hrun, bind, Except.bind, pure, Except.pure, Except.ok.injEq] at h
    rw [← h]
    exact Parser.sound_runOn (fun n hn => Grammar.yields_directiveBody hn .program none true _) hrun

theorem FunctionDef.sound_ofString {source : String} {strict : Bool} {p : Program}
    {d : FunctionDef} {rest : List Stmt} (h : Program.ofString source strict = .ok p)
    (hbody : p.body = .expression (.function d) :: rest) : d.Sound := by
  have hsound := Program.sound_ofString h (.expression (.function d)) (by simp [hbody])
  cases hsound with
  | expression value => exact value.definition

end ProtoScript
