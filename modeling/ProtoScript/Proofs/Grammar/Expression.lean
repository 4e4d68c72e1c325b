import ProtoScript.Proofs.Grammar.Pattern
/-!
# Expressions are sound

What the rules for expressions yield, if the rules for what is nested in them yield sound trees.
-/

namespace ProtoScript.Grammar

variable {n : Nesting}

theorem yields_arrowFunction (hn : n.Sound) (c : Context) {parameters : List Pattern}
    (h : ∀ p ∈ parameters, p.Sound) : Yields (arrowFunction n c parameters) Expr.Sound := by
  unfold arrowFunction
  refine .skip fun _ => .skip fun braced => .ite (fun _ => ?_) fun _ => ?_
  · refine .bind (yields_functionBody hn) fun body hbody => ?_
    exact .bind (yields_finishFunction _ h hbody nofun) fun d hd => .pure (.function hd.1)
  · refine .bind (hn.assignment c false) fun value hvalue => ?_
    have hbody : ∀ s ∈ [Stmt.returnStmt (some value)], s.Sound .function [] := by
      intro s hs
      rw [List.mem_singleton.mp hs]
      refine .returnStmt rfl fun x hx => ?_
      cases hx
      exact hvalue
    exact .bind (yields_finishFunction _ h hbody nofun) fun d hd => .pure (.function hd.1)

theorem sound_toParameters {strict : Bool} {elements : List Expr} {rest : Option Pattern}
    {list : List Pattern} (hes : ∀ x ∈ elements, x.Sound) (hrest : ∀ p ∈ rest, p.Sound)
    (h : toParameters strict elements rest = .ok list) : ∀ p ∈ list, p.Sound := by
  intro p hp
  rcases exists_of_mem_toParameters h hp with ⟨x, hx, hread, -⟩ | ⟨q, hq, rfl⟩
  · exact (Expr.sound_toPattern (hes x hx) hread).sound
  · exact .rest (hrest q hq)

theorem yields_parenthesized (hn : n.Sound) (c : Context) :
    Yields (parenthesized n c) Expr.Sound := by
  unfold parenthesized
  have helements := Yields.all_parenthesizedElements (hn.assignment c.bracketed true)
    ((hn.pattern c.bracketed).mono fun _ h => h.sound)
  refine .skip fun _ => .bind (helements _) fun found hfound => ?_
  obtain ⟨elements, rest⟩ := found
  refine .skip fun _ => .skip fun arrow => .ite (fun _ => .skip fun strict => ?_) fun _ => ?_
  · split
    · rename_i list heq
      exact yields_arrowFunction hn c (sound_toParameters hfound.1 hfound.2 heq)
    · exact .fail
  refine .ite (fun _ => .fail) fun _ => .ite (fun _ => .fail) fun _ => ?_
  split
  · exact .pure (hfound.1 _ (List.mem_singleton_self _))
  · exact .pure (.of_parts nofun hfound.1)

theorem yields_objectProperty (hn : n.Sound) (c : Context) :
    Yields (objectProperty n c) fun p => ∀ x ∈ p.parts, x.Sound := by
  unfold objectProperty
  refine .bind yields_currentName? fun shorthand hshorthand => ?_
  refine .bind (yields_propertyKey hn c) fun key hkey => ?_
  have hkeyed {value : Expr} (h : value.Sound) :
      ∀ x ∈ (Property.keyed key value).parts, x.Sound := by
    intro x hx
    rcases List.mem_append.mp hx with hx | hx
    · exact hkey x hx
    · rw [List.mem_singleton.mp hx]
      exact h
  refine .skip fun keyed => .ite (fun _ => ?_) fun _ => ?_
  · exact .bind (hn.assignment c false) fun value hvalue => .pure (hkeyed hvalue)
  refine .skip fun isMethod => .ite (fun _ => ?_) fun _ => ?_
  · refine .bind (yields_functionRest hn c fun h => absurd rfl h) fun d hd => .pure ?_
    exact hkeyed (.function hd.1)
  cases shorthand with
  | none => exact .skip fun _ => .fail
  | some name =>
    have hname : (Expr.identifier name).Sound := .identifier (hshorthand name rfl)
    refine .skip fun assigned => .ite (fun _ => ?_) fun _ => .pure fun x hx => ?_
    · refine .bind (hn.assignment c false) fun cover hcover => .pure fun x hx => ?_
      rw [List.mem_singleton.mp hx]
      refine .of_parts nofun fun y hy => ?_
      rcases List.mem_cons.mp hy with rfl | hy
      · exact hname
      · rw [List.mem_singleton.mp hy]
        exact hcover
    · rw [List.mem_singleton.mp hx]
      exact hname

theorem yields_nameOrArrow (hn : n.Sound) (c : Context) :
    Yields (nameOrArrow n c) Expr.Sound := by
  unfold nameOrArrow
  refine .bind yields_currentName? fun name hname => ?_
  cases name with
  | none => exact .skip fun _ => .fail
  | some name =>
    refine .skip fun _ => .skip fun arrow => .ite (fun _ => .skip fun _ => ?_) fun _ => ?_
    · refine yields_arrowFunction hn c fun p hp => ?_
      rw [List.mem_singleton.mp hp]
      exact .identifier (hname name rfl)
    · exact .pure (.identifier (hname name rfl))

theorem yields_primary (hn : n.Sound) (c : Context) : Yields (primary n c) Expr.Sound := by
  unfold primary
  refine .skip fun token => ?_
  split
  · exact .skip fun _ => .pure (.of_parts nofun nofun)
  · exact yields_nameOrArrow hn c
  · exact yields_nameOrArrow hn c
  · exact .skip fun _ => .pure (.of_parts nofun nofun)
  · exact .skip fun _ => .pure (.of_parts nofun nofun)
  · exact .skip fun _ => .pure (.of_parts nofun nofun)
  · exact .skip fun _ => .skip fun _ => .pure (.of_parts nofun nofun)
  · exact .skip fun _ => .pure (.of_parts nofun nofun)
  · exact yields_parenthesized hn c
  · refine .skip fun _ => ?_
    refine .bind (.commaList (.all_arrayElement (hn.assignment _ false)) _)
      fun elements helements => ?_
    refine .skip fun _ => .pure (.of_parts nofun fun x hx => ?_)
    exact helements _ (List.reduceOption_mem_iff.mp hx) x rfl
  · refine .skip fun _ => .bind (.commaList (yields_objectProperty hn _) _) fun ps hps => ?_
    refine .skip fun _ => .pure (.of_parts nofun fun x hx => ?_)
    obtain ⟨p, hp, hx⟩ := List.mem_flatMap.mp hx
    exact hps p hp x hx
  · exact .bind (yields_functionExpression hn c) fun d hd => .pure (.function hd)
  · exact .fail
  · exact .fail

theorem yields_sequenceOf (hn : n.Sound) (c : Context) {first : Parser Expr}
    (h : Yields first Expr.Sound) : Yields (sequenceOf n c first) Expr.Sound :=
  .in_sequenceOf h (hn.assignment c false) fun _ hlist => .of_parts nofun hlist

theorem yields_memberSuffixes (hn : n.Sound) (c : Context) (calls : Bool) (rounds : Nat)
    {object : Expr} (h : object.Sound) :
    Yields (memberSuffixes n c calls rounds object) Expr.Sound := by
  induction rounds generalizing object with
  | zero => exact .fail
  | succ rounds ih =>
    unfold memberSuffixes
    refine .skip fun dot => .ite (fun _ => .skip fun name => ih ?_) fun _ => ?_
    · exact .of_parts nofun (List.forall_mem_cons.mpr ⟨h, nofun⟩)
    refine .skip fun bracket => .ite (fun _ => ?_) fun _ => ?_
    · refine .bind (yields_sequenceOf hn _ (hn.assignment _ false)) fun key hkey => ?_
      refine .skip fun _ => ih (.of_parts nofun ?_)
      exact List.forall_mem_cons.mpr ⟨h, List.forall_mem_singleton.mpr hkey⟩
    refine .skip fun opened => .ite (fun _ => ?_) fun _ => .pure h
    refine .bind (.all_callArguments (hn.assignment _ false)) fun list hlist =>
      ih (.of_parts nofun ?_)
    exact List.forall_mem_cons.mpr ⟨h, hlist⟩

theorem yields_construct (hn : n.Sound) (c : Context) : Yields (construct n c) Expr.Sound := by
  unfold construct
  have hrest {object : Expr} (h : object.Sound) : Yields
      (memberSuffixes n c false n.rounds object >>= fun callee => do
        if ← Parser.atSign .leftParen then return .construct callee (← callArguments n c)
        else return .construct callee []) Expr.Sound := by
    refine .bind (yields_memberSuffixes hn c _ _ h) fun callee hcallee => ?_
    refine .skip fun opened => .ite (fun _ => ?_) fun _ => ?_
    · refine .bind (.all_callArguments (hn.assignment _ false)) fun list hlist =>
        .pure (.of_parts nofun ?_)
      exact List.forall_mem_cons.mpr ⟨hcallee, hlist⟩
    · exact .pure (.of_parts nofun (List.forall_mem_singleton.mpr hcallee))
  refine .skip fun _ => .skip fun nested => .ite (fun _ => ?_) fun _ => ?_
  · exact .bind (hn.construct c) fun object hobject => hrest hobject
  · exact .bind (yields_primary hn c) fun object hobject => hrest hobject

theorem yields_leftHandSide (hn : n.Sound) (c : Context) :
    Yields (leftHandSide n c) Expr.Sound := by
  unfold leftHandSide
  refine .skip fun nested => .ite (fun _ => ?_) fun _ => ?_
  · exact .bind (yields_construct hn c) fun object h => yields_memberSuffixes hn c _ _ h
  · exact .bind (yields_primary hn c) fun object h => yields_memberSuffixes hn c _ _ h

theorem yields_postfixUpdate (hn : n.Sound) (c : Context) :
    Yields (postfixUpdate n c) Expr.Sound := by
  unfold postfixUpdate
  refine .bind (yields_leftHandSide hn c) fun target htarget => .skip fun token => ?_
  refine .skip fun broken => ?_
  split
  · refine .skip fun _ => .skip fun _ => .pure (.of_parts nofun ?_)
    exact List.forall_mem_singleton.mpr htarget
  · exact .pure htarget

theorem yields_unary (hn : n.Sound) (c : Context) : Yields (unary n c) Expr.Sound := by
  unfold unary
  refine .skip fun token => ?_
  split
  · exact yields_postfixUpdate hn c
  refine .skip fun _ => .bind (hn.unary c) fun operand hoperand => ?_
  have hpart {x : Expr} (hx : ¬ x.IsLeaf) (hparts : x.parts = [operand]) :
      Yields (pure x) Expr.Sound := by
    refine .pure (.of_parts hx ?_)
    rw [hparts]
    exact List.forall_mem_singleton.mpr hoperand
  split
  · exact hpart nofun rfl
  · exact hpart nofun rfl
  · exact hpart nofun rfl
  · exact .skip fun _ => hpart nofun rfl
  · dsimp only
    split
    · exact .skip fun strict => .ite (fun _ => .failed) fun _ => hpart nofun rfl
    · exact hpart nofun rfl

theorem yields_power (hn : n.Sound) (c : Context) : Yields (power n c) Expr.Sound := by
  unfold power
  refine .skip fun token => .bind (yields_unary hn c) fun base hbase => .skip fun raised => ?_
  refine .ite (fun _ => .ite (fun _ => .failed) fun _ => .skip fun _ => ?_) fun _ => .pure hbase
  refine .bind (hn.power c) fun exponent hexponent => .pure (.of_parts nofun ?_)
  exact List.forall_mem_cons.mpr ⟨hbase, List.forall_mem_singleton.mpr hexponent⟩

theorem yields_binary (hn : n.Sound) (c : Context) (strength : Nat) :
    Yields (binary n c strength) Expr.Sound := by
  unfold binary
  refine .bind (yields_power hn c) fun left hleft => ?_
  refine .in_binaryRest (hn.binary c) (fun op x y hx hy => .of_parts nofun ?_) _ _ hleft
  exact List.forall_mem_cons.mpr ⟨hx, List.forall_mem_singleton.mpr hy⟩

theorem yields_coalescing (hn : n.Sound) (c : Context) : Yields (coalescing n c) Expr.Sound := by
  refine .in_coalescing (yields_binary hn c 0) fun op x y hx hy => .of_parts nofun ?_
  exact List.forall_mem_cons.mpr ⟨hx, List.forall_mem_singleton.mpr hy⟩

theorem yields_conditional (hn : n.Sound) (c : Context) : Yields (conditional n c) Expr.Sound := by
  unfold conditional
  refine .bind (yields_coalescing hn c) fun test htest => .skip fun asked => ?_
  refine .ite (fun _ => ?_) fun _ => .pure htest
  refine .bind (hn.assignment _ false) fun consequent hconsequent => .skip fun _ => ?_
  refine .bind (hn.assignment c false) fun alternate halternate => .pure (.of_parts nofun ?_)
  refine List.forall_mem_cons.mpr ⟨htest, List.forall_mem_cons.mpr ⟨hconsequent, ?_⟩⟩
  exact List.forall_mem_singleton.mpr halternate

theorem yields_assignment (hn : n.Sound) (c : Context) (cover : Bool) :
    Yields (assignment n c cover) Expr.Sound := by
  unfold assignment
  refine .bind (yields_conditional hn c) fun left hleft => .skip fun token => ?_
  split
  · exact .ite (fun _ => .failed) fun _ => .pure hleft
  refine .ite (fun _ => .failed) fun _ => .skip fun _ => .skip fun _ => ?_
  refine .bind (hn.assignment c false) fun value hvalue => .pure (.of_parts nofun ?_)
  exact List.forall_mem_cons.mpr ⟨hleft, List.forall_mem_singleton.mpr hvalue⟩

theorem yields_expression (hn : n.Sound) (c : Context) : Yields (expression n c) Expr.Sound := by
  unfold expression
  exact yields_sequenceOf hn c (yields_assignment hn c false)

end ProtoScript.Grammar
