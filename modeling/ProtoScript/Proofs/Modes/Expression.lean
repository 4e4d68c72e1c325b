import ProtoScript.Proofs.Modes.Pattern
/-!
# Expressions and the mode around them

The rules for expressions go step by step, keep the mode and yield what fits it, if the rules for
what is nested in them do.
-/

namespace ProtoScript

variable {m : Bool}

/-- An expression that is no function fits with the expressions in it, except that an object literal
has its own rule. -/
theorem Expr.fits_of_parts {x : Expr} (hfunction : ∀ d, x ≠ .function d)
    (hobject : ∀ ps, x ≠ .object ps) (h : ∀ y ∈ x.parts, y.Fits m) : x.Fits m := by
  have hpieces : ∀ q ∈ x.pieces, ∃ y ∈ x.parts, q = .whole y ∨ q = .operand y := by
    cases x with
    | function d => exact absurd rfl (hfunction d)
    | object ps => exact absurd rfl (hobject ps)
    | _ => simp +contextual [pieces, parts]
  intro q hq
  obtain ⟨y, hy, rfl | rfl⟩ := hpieces q hq
  · exact Piece.fits_whole.mpr (h y hy)
  · exact Piece.fits_operand.mpr (h y hy)

namespace Grammar

variable {n : Nesting}

/-! ### Arrow functions and parentheses -/

theorem steady_checkAssignable (x : Expr) : Steady (checkAssignable x) := by
  unfold checkAssignable
  split
  · exact .bind .isStrict fun _ => .ite .fail .pure
  · exact .pure
  · exact .fail

theorem steady_atArrow : Steady atArrow :=
  .bind .atSign fun _ => .bind .afterBreak fun _ => .pure

theorem keeps_arrowFunction (hn : n.Keeps) (c : Context) {parameters : List Pattern}
    (hparameters : ∀ p ∈ parameters, p.Fits m) :
    Keeps m (arrowFunction n c parameters) (Expr.Fits m) := by
  have hdone {d : FunctionDef} (hd : (Piece.function d).Fits m) :
      Keeps m (pure (.function d)) (Expr.Fits m) :=
    .pure (Expr.fits_function.mpr hd)
  unfold arrowFunction
  refine .skip .expect fun _ => .skip .atSign fun braced => .ite (fun _ => ?_) fun _ => ?_
  · refine .bind (keeps_functionBody hn) fun body hbody => ?_
    exact .bind (keeps_finishFunction _ _ hbody.1 hparameters hbody.2) fun d hd => hdone hd
  · refine .bind (hn.assignment c false) fun value hvalue => ?_
    refine .bind (keeps_finishFunction none .arrow rfl hparameters ?_) fun d hd => hdone hd
    rw [Bool.or_false]
    refine List.forall_mem_singleton.mpr fun q hq => ?_
    obtain rfl := List.mem_singleton.mp hq
    exact Piece.fits_whole.mpr hvalue

theorem keeps_parenthesizedElements (hn : n.Keeps) (c : Context) (rounds : Nat) :
    Keeps m (parenthesizedElements n c rounds) fun found =>
      (∀ x ∈ found.1, x.Fits m) ∧ ∀ p ∈ found.2, p.Fits m := by
  induction rounds with
  | zero => exact .fail
  | succ rounds ih =>
    unfold parenthesizedElements
    refine .skip .atSign fun closed => .ite (fun _ => .pure ⟨nofun, nofun⟩) fun _ => ?_
    refine .skip .eat fun isRest => .ite (fun _ => ?_) fun _ => ?_
    · refine .bind (hn.pattern c) fun target htarget => .pure ⟨nofun, fun p hp => ?_⟩
      cases hp
      exact htarget
    refine .bind (hn.assignment c true) fun first hfirst => .skip .separate fun _ => ?_
    refine .bind ih fun found hfound => .pure ⟨?_, hfound.2⟩
    exact List.forall_mem_cons.mpr ⟨hfirst, hfound.1⟩

theorem fits_toParameters {strict : Bool} {elements : List Expr} {rest : Option Pattern}
    {list : List Pattern} (hes : ∀ x ∈ elements, x.Fits m) (hrest : ∀ p ∈ rest, p.Fits m)
    (h : toParameters strict elements rest = .ok list) : ∀ p ∈ list, p.Fits m := by
  intro p hp
  rcases exists_of_mem_toParameters h hp with ⟨x, hx, hread, -⟩ | ⟨q, hq, rfl⟩
  · exact Expr.fits_toPattern (hes x hx) hread
  · exact Pattern.fits_rest.mpr (hrest q hq)

theorem keeps_parenthesized (hn : n.Keeps) (c : Context) :
    Keeps m (parenthesized n c) (Expr.Fits m) := by
  unfold parenthesized
  refine .advance (.bind (keeps_parenthesizedElements hn _ _) fun found hfound => ?_)
  obtain ⟨elements, rest⟩ := found
  refine .skip .expect fun _ => .skip steady_atArrow fun arrow => .ite (fun _ => ?_) fun _ => ?_
  · refine .isStrict ?_
    split
    · next list heq => exact keeps_arrowFunction hn c (fits_toParameters hfound.1 hfound.2 heq)
    · exact .fail
  refine .ite (fun _ => .fail) fun _ => .ite (fun _ => .fail) fun _ => ?_
  split
  · exact .pure (hfound.1 _ (List.mem_singleton_self _))
  · exact .pure (Expr.fits_of_parts nofun nofun hfound.1)

/-! ### Primary expressions -/

theorem keeps_arrayElement (hn : n.Keeps) (c : Context) :
    Keeps m (arrayElement n c) fun element => ∀ x ∈ element, x.Fits m := by
  unfold arrayElement
  refine .skip .atSign fun hole => .ite (fun _ => .pure nofun) fun _ => ?_
  refine .bind (hn.assignment c false) fun value hvalue => .pure fun x hx => ?_
  cases hx
  exact hvalue

theorem keeps_objectProperty (hn : n.Keeps) (c : Context) :
    Keeps m (objectProperty n c) (Property.Fits m) := by
  unfold objectProperty
  refine .skip .currentName fun shorthand => .bind (keeps_propertyKey hn c) fun key hkey => ?_
  refine .skip .eat fun keyed => .ite (fun _ => ?_) fun _ => ?_
  · exact .bind (hn.assignment c false) fun value hvalue =>
      .pure (Property.fits_keyed.mpr ⟨hkey, hvalue⟩)
  refine .skip .atSign fun isMethod => .ite (fun _ => ?_) fun _ => ?_
  · exact .bind (keeps_functionRest hn c _ _) fun d hd =>
      .pure (Property.fits_keyed.mpr ⟨hkey, Expr.fits_function.mpr hd⟩)
  cases shorthand with
  | none => exact .current fun _ => .fail
  | some name =>
    refine .skip .eat fun assigned => .ite (fun _ => ?_) fun _ => ?_
    · refine .bind (hn.assignment c false) fun cover hcover => .pure ?_
      exact Property.fits_shorthand.mpr fun x hx => by cases hx; exact hcover
    · exact .pure (Property.fits_shorthand.mpr nofun)

theorem keeps_nameOrArrow (hn : n.Keeps) (c : Context) :
    Keeps m (nameOrArrow n c) (Expr.Fits m) := by
  unfold nameOrArrow
  refine .skip .currentName fun name => ?_
  cases name with
  | none => exact .current fun _ => .fail
  | some name =>
    refine .advance (.skip steady_atArrow fun arrow => .ite (fun _ => ?_) fun _ => ?_)
    · exact .skip .checkBinding fun _ => keeps_arrowFunction hn c
        (List.forall_mem_singleton.mpr (Pattern.fits_identifier name))
    · exact .pure (Expr.fits_of_parts nofun nofun nofun)

theorem keeps_primary (hn : n.Keeps) (c : Context) : Keeps m (primary n c) (Expr.Fits m) := by
  have hleaf {x : Expr} (hfunction : ∀ d, x ≠ .function d) (hobject : ∀ ps, x ≠ .object ps)
      (h : x.parts = []) : Keeps m (Parser.advance >>= fun _ => pure x) (Expr.Fits m) :=
    .advance (.pure (Expr.fits_of_parts hfunction hobject (by simp [h])))
  unfold primary
  refine .current fun token => ?_
  split
  · exact hleaf nofun nofun rfl
  · exact keeps_nameOrArrow hn c
  · exact keeps_nameOrArrow hn c
  · exact hleaf nofun nofun rfl
  · exact hleaf nofun nofun rfl
  · exact hleaf nofun nofun rfl
  · exact .skip .checkOctal fun _ => hleaf nofun nofun rfl
  · exact hleaf nofun nofun rfl
  · exact keeps_parenthesized hn c
  · refine .advance (.bind (.commaList (keeps_arrayElement hn _) _) fun elements helements => ?_)
    exact .skip .expect fun _ =>
      .pure (Expr.fits_array.mpr fun x hx => helements (some x) hx x rfl)
  · refine .advance (.bind (.commaList (keeps_objectProperty hn _) _) fun ps hps => ?_)
    exact .skip .expect fun _ => .pure (Expr.fits_object.mpr hps)
  · exact .bind (keeps_functionExpression hn c) fun d hd => .pure (Expr.fits_function.mpr hd)
  · exact .fail
  · exact .fail

/-! ### Operators -/

theorem keeps_callArguments (hn : n.Keeps) (c : Context) :
    Keeps m (callArguments n c) fun list => ∀ x ∈ list, x.Fits m := by
  unfold callArguments
  refine .skip .expect fun _ => .bind (.commaList (hn.assignment _ false) _) fun list hlist => ?_
  exact .skip .expect fun _ => .pure hlist

theorem keeps_others (hn : n.Keeps) (c : Context) (rounds : Nat) :
    Keeps m (sequenceOf.others n c rounds) fun list => ∀ x ∈ list, x.Fits m := by
  induction rounds with
  | zero => exact .fail
  | succ rounds ih =>
    unfold sequenceOf.others
    refine .skip .eat fun comma => .ite (fun _ => ?_) fun _ => .pure nofun
    refine .bind (hn.assignment c false) fun next hnext => .bind ih fun others hothers => ?_
    exact .pure (List.forall_mem_cons.mpr ⟨hnext, hothers⟩)

theorem keeps_sequenceOf (hn : n.Keeps) (c : Context) {first : Parser Expr}
    (h : Keeps m first (Expr.Fits m)) : Keeps m (sequenceOf n c first) (Expr.Fits m) := by
  unfold sequenceOf
  refine .bind h fun x hx => .skip .atSign fun comma => .ite (fun _ => ?_) fun _ => .pure hx
  refine .bind (keeps_others hn c _) fun others hothers => .pure ?_
  exact Expr.fits_of_parts nofun nofun (List.forall_mem_cons.mpr ⟨hx, hothers⟩)

theorem steady_memberName : Steady memberName := by
  unfold memberName
  refine .bind .current fun token => ?_
  split
  · exact .bind .advance fun _ => .pure
  · exact .bind .advance fun _ => .pure
  · exact .bind .advance fun _ => .pure
  · exact .bind .advance fun _ => .pure
  · exact .fail

theorem keeps_memberSuffixes (hn : n.Keeps) (c : Context) (calls : Bool) (rounds : Nat)
    {object : Expr} (h : object.Fits m) :
    Keeps m (memberSuffixes n c calls rounds object) (Expr.Fits m) := by
  induction rounds generalizing object with
  | zero => exact .fail
  | succ rounds ih =>
    unfold memberSuffixes
    refine .skip .eat fun dot => .ite (fun _ => .skip steady_memberName fun name => ih ?_)
      fun _ => ?_
    · exact Expr.fits_of_parts nofun nofun (List.forall_mem_singleton.mpr h)
    refine .skip .eat fun bracket => .ite (fun _ => ?_) fun _ => ?_
    · refine .bind (keeps_sequenceOf hn _ (hn.assignment _ false)) fun key hkey => ?_
      refine .skip .expect fun _ => ih (Expr.fits_of_parts nofun nofun ?_)
      exact List.forall_mem_cons.mpr ⟨h, List.forall_mem_singleton.mpr hkey⟩
    refine .skip .atSign fun opened => .ite (fun _ => ?_) fun _ => .pure h
    refine .bind (keeps_callArguments hn c) fun list hlist => ih ?_
    exact Expr.fits_of_parts nofun nofun (List.forall_mem_cons.mpr ⟨h, hlist⟩)

theorem keeps_construct (hn : n.Keeps) (c : Context) : Keeps m (construct n c) (Expr.Fits m) := by
  unfold construct
  have hrest {object : Expr} (h : object.Fits m) : Keeps m
      (memberSuffixes n c false n.rounds object >>= fun callee => do
        if ← Parser.atSign .leftParen then return .construct callee (← callArguments n c)
        else return .construct callee []) (Expr.Fits m) := by
    refine .bind (keeps_memberSuffixes hn c _ _ h) fun callee hcallee => ?_
    refine .skip .atSign fun opened => .ite (fun _ => ?_) fun _ => .pure ?_
    · refine .bind (keeps_callArguments hn c) fun list hlist => .pure ?_
      exact Expr.fits_of_parts nofun nofun (List.forall_mem_cons.mpr ⟨hcallee, hlist⟩)
    · exact Expr.fits_of_parts nofun nofun (List.forall_mem_singleton.mpr hcallee)
  refine .advance (.skip .atWord fun nested => .ite (fun _ => ?_) fun _ => ?_)
  · exact .bind (hn.construct c) fun object hobject => hrest hobject
  · exact .bind (keeps_primary hn c) fun object hobject => hrest hobject

theorem keeps_leftHandSide (hn : n.Keeps) (c : Context) :
    Keeps m (leftHandSide n c) (Expr.Fits m) := by
  unfold leftHandSide
  refine .skip .atWord fun nested => .ite (fun _ => ?_) fun _ => ?_
  · exact .bind (keeps_construct hn c) fun object h => keeps_memberSuffixes hn c _ _ h
  · exact .bind (keeps_primary hn c) fun object h => keeps_memberSuffixes hn c _ _ h

theorem keeps_postfixUpdate (hn : n.Keeps) (c : Context) :
    Keeps m (postfixUpdate n c) (Expr.Fits m) := by
  unfold postfixUpdate
  refine .bind (keeps_leftHandSide hn c) fun target htarget => .current fun token => ?_
  refine .afterBreak fun broken => ?_
  split
  · refine .skip (steady_checkAssignable target) fun _ => .advance (.pure ?_)
    exact Expr.fits_of_parts nofun nofun (List.forall_mem_singleton.mpr htarget)
  · exact .pure htarget

theorem keeps_unary (hn : n.Keeps) (c : Context) : Keeps m (unary n c) (Expr.Fits m) := by
  unfold unary
  refine .current fun token => ?_
  split
  · exact keeps_postfixUpdate hn c
  refine .advance (.bind (hn.unary c) fun operand hoperand => ?_)
  have hpart {x : Expr} (hfunction : ∀ d, x ≠ .function d) (hobject : ∀ ps, x ≠ .object ps)
      (hparts : x.parts = [operand]) : Keeps m (pure x) (Expr.Fits m) :=
    .pure (Expr.fits_of_parts hfunction hobject (by simpa [hparts] using hoperand))
  split
  · exact hpart nofun nofun rfl
  · exact hpart nofun nofun rfl
  · exact hpart nofun nofun rfl
  · exact .skip (steady_checkAssignable operand) fun _ => hpart nofun nofun rfl
  · dsimp only
    split
    · exact .isStrict (.ite (fun _ => .failed) fun _ => hpart nofun nofun rfl)
    · exact hpart nofun nofun rfl

theorem fits_of_pair {x left right : Expr} (hfunction : ∀ d, x ≠ .function d)
    (hobject : ∀ ps, x ≠ .object ps) (hparts : x.parts = [left, right]) (hleft : left.Fits m)
    (hright : right.Fits m) : x.Fits m := by
  refine Expr.fits_of_parts hfunction hobject ?_
  rw [hparts]
  exact List.forall_mem_cons.mpr ⟨hleft, List.forall_mem_singleton.mpr hright⟩

theorem keeps_power (hn : n.Keeps) (c : Context) : Keeps m (power n c) (Expr.Fits m) := by
  unfold power
  refine .current fun token => .bind (keeps_unary hn c) fun base hbase => ?_
  refine .skip .atSign fun raised => .ite (fun _ => ?_) fun _ => .pure hbase
  refine .ite (fun _ => .failed) fun _ => .advance ?_
  exact .bind (hn.power c) fun exponent hexponent =>
    .pure (fits_of_pair nofun nofun rfl hbase hexponent)

theorem keeps_binaryRest (hn : n.Keeps) (c : Context) (strength rounds : Nat) {left : Expr}
    (h : left.Fits m) : Keeps m (binaryRest n c strength rounds left) (Expr.Fits m) := by
  induction rounds generalizing left with
  | zero => exact .fail
  | succ rounds ih =>
    unfold binaryRest
    refine .current fun token => ?_
    split
    · exact .pure h
    refine .ite (fun _ => .pure h) fun _ => .advance ?_
    exact .bind (hn.binary c _) fun right hright => ih (fits_of_pair nofun nofun rfl h hright)

theorem keeps_binary (hn : n.Keeps) (c : Context) (strength : Nat) :
    Keeps m (binary n c strength) (Expr.Fits m) := by
  unfold binary
  exact .bind (keeps_power hn c) fun left hleft => keeps_binaryRest hn c _ _ hleft

theorem keeps_logicalRest (sign : Punctuator) (op : LogicalOp) {operand : Parser Expr}
    (ho : Keeps m operand (Expr.Fits m)) (rounds : Nat) {left : Expr} (h : left.Fits m) :
    Keeps m (logicalRest sign op operand rounds left) (Expr.Fits m) := by
  induction rounds generalizing left with
  | zero => exact .fail
  | succ rounds ih =>
    unfold logicalRest
    refine .skip .eat fun more => .ite (fun _ => ?_) fun _ => .pure h
    exact .bind ho fun right hright => ih (fits_of_pair nofun nofun rfl h hright)

theorem keeps_conjunction (hn : n.Keeps) (c : Context) :
    Keeps m (conjunction n c) (Expr.Fits m) := by
  unfold conjunction
  refine .bind (keeps_binary hn c 0) fun left hleft => ?_
  exact keeps_logicalRest _ _ (keeps_binary hn c 0) _ hleft

theorem keeps_disjunction (hn : n.Keeps) (c : Context) :
    Keeps m (disjunction n c) (Expr.Fits m) := by
  unfold disjunction
  refine .bind (keeps_conjunction hn c) fun left hleft => ?_
  exact keeps_logicalRest _ _ (keeps_conjunction hn c) _ hleft

theorem keeps_coalescing (hn : n.Keeps) (c : Context) :
    Keeps m (coalescing n c) (Expr.Fits m) := by
  unfold coalescing
  refine .bind (keeps_disjunction hn c) fun left hleft => ?_
  exact keeps_logicalRest _ _ (keeps_disjunction hn c) _ hleft

theorem keeps_conditional (hn : n.Keeps) (c : Context) :
    Keeps m (conditional n c) (Expr.Fits m) := by
  unfold conditional
  refine .bind (keeps_coalescing hn c) fun test htest => .skip .eat fun asked => ?_
  refine .ite (fun _ => ?_) fun _ => .pure htest
  refine .bind (hn.assignment _ false) fun consequent hconsequent => .skip .expect fun _ => ?_
  refine .bind (hn.assignment c false) fun alternate halternate => .pure ?_
  refine Expr.fits_of_parts nofun nofun (List.forall_mem_cons.mpr ⟨htest, ?_⟩)
  exact List.forall_mem_cons.mpr ⟨hconsequent, List.forall_mem_singleton.mpr halternate⟩

theorem keeps_assignment (hn : n.Keeps) (c : Context) (cover : Bool) :
    Keeps m (assignment n c cover) (Expr.Fits m) := by
  unfold assignment
  refine .bind (keeps_conditional hn c) fun left hleft => .current fun token => ?_
  split
  · exact .ite (fun _ => .failed) fun _ => .pure hleft
  refine .ite (fun _ => .failed) fun _ => .skip (steady_checkAssignable left) fun _ => ?_
  refine .advance (.bind (hn.assignment c false) fun value hvalue => .pure ?_)
  exact Expr.fits_assign.mpr ⟨hleft, hvalue⟩

theorem keeps_expression (hn : n.Keeps) (c : Context) :
    Keeps m (expression n c) (Expr.Fits m) := by
  unfold expression
  exact keeps_sequenceOf hn c (keeps_assignment hn c false)

end Grammar

end ProtoScript
