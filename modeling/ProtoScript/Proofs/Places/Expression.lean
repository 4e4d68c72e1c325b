import ProtoScript.Proofs.Places.Pattern
/-!
# Expressions in their places

What the rules for expressions yield, if the rules for what is nested in them yield what they are to
yield.  What an operator, a call or a member access takes up is an operand; the checks for literals
that only patterns can be are made where an expression is a whole.
-/

namespace ProtoScript

/-- An expression is in its place with one operand in its place and other wholes in theirs. -/
theorem Expr.Placed.of_operand {x y : Expr} (others : List Expr)
    (h : x.pieces = .operand y :: others.map .whole) (hy : y.Placed)
    (hothers : ∀ z ∈ others, (Piece.whole z).Placed) : x.Placed := by
  refine .of_pieces ?_
  rw [h]
  exact List.forall_mem_cons.mpr ⟨hy, List.forall_mem_map.mpr hothers⟩

theorem Expr.Placed.of_operands {x left right : Expr}
    (h : x.pieces = [.operand left, .operand right]) (hleft : left.Placed)
    (hright : right.Placed) : x.Placed := by
  refine .of_pieces ?_
  rw [h]
  exact List.forall_mem_cons.mpr ⟨hleft, List.forall_mem_singleton.mpr hright⟩

theorem Expr.Placed.of_wholes {x : Expr} (parts : List Expr) (h : x.pieces = parts.map .whole)
    (hparts : ∀ y ∈ parts, (Piece.whole y).Placed) : x.Placed := by
  refine .of_pieces ?_
  rw [h]
  exact List.forall_mem_map.mpr hparts

namespace Grammar

variable {n : Nesting}

theorem yields_checkAssignable (x : Expr) :
    Yields (checkAssignable x) fun _ => hasCoverProperty x = false := by
  unfold checkAssignable
  split
  · exact (Yields.any _).mono fun _ _ => rfl
  · exact .pure rfl
  · exact .fail

/-! ### Arrow functions and parentheses -/

theorem places_arrowFunction (hn : n.Placed) (c : Context) {parameters : List Pattern}
    (hsuits : ∀ p ∈ parameters, p.SuitsArrow)
    (hparameters : ∀ p ∈ parameters, (Piece.pattern p).Placed) :
    Yields (arrowFunction n c parameters) fun x => (Piece.whole x).Placed := by
  have hdone {body : List Stmt} {ownStrict : Bool}
      (hbody : ∀ s ∈ body, (Piece.statement s).Placed) : Yields
      (finishFunction none .arrow parameters body ownStrict >>= fun d => pure (.function d))
      fun x => (Piece.whole x).Placed := by
    refine .bind (places_finishFunction _ (fun p hp => ?_) hparameters hbody) fun d hd => ?_
    · exact ⟨fun h => absurd rfl h, fun _ => hsuits p hp⟩
    · exact .pure (.intro rfl (List.forall_mem_singleton.mpr hd))
  unfold arrowFunction
  refine .skip fun _ => .skip fun braced => .ite (fun _ => ?_) fun _ => ?_
  · exact .bind (places_functionBody hn) fun body hbody => hdone hbody
  · refine .bind (hn.assignment c) fun value hvalue => hdone (List.forall_mem_singleton.mpr ?_)
    exact .intro trivial (List.forall_mem_singleton.mpr hvalue)

/-- Parameters that are read as expressions first are no member expressions, and the rest behind
them has been read as a pattern. -/
theorem placed_toParameters {strict : Bool} {elements : List Expr} {rest : Option Pattern}
    {list : List Pattern} (hes : ∀ x ∈ elements, x.Placed) (hrest : ∀ p ∈ rest, p.Binds)
    (h : toParameters strict elements rest = .ok list) :
    ∀ p ∈ list, p.SuitsArrow ∧ (Piece.pattern p).Placed := by
  intro p hp
  rcases exists_of_mem_toParameters h hp with ⟨x, hx, hread, hmember⟩ | ⟨q, hq, rfl⟩
  · refine ⟨⟨hmember, ?_⟩, Expr.placed_toPattern (hes x hx) hread⟩
    rintro target rfl
    exact absurd hread Expr.toPattern_ne_rest
  · refine ⟨⟨rfl, fun target heq => ?_⟩, (hrest q hq).rest.placed⟩
    cases heq
    exact (hrest q hq).names

theorem places_parenthesized (hn : n.Placed) (c : Context) :
    Yields (parenthesized n c) Expr.Placed := by
  unfold parenthesized
  have helements := Yields.all_parenthesizedElements (hn.cover c.bracketed) (hn.pattern c.bracketed)
  refine .skip fun _ => .bind (helements _) fun found hfound => ?_
  obtain ⟨elements, rest⟩ := found
  refine .skip fun _ => .skip fun arrow => .ite (fun _ => .skip fun strict => ?_) fun _ => ?_
  · split
    · rename_i list heq
      have hlist := placed_toParameters hfound.1 hfound.2 heq
      exact (places_arrowFunction hn c (fun p hp => (hlist p hp).1)
        fun p hp => (hlist p hp).2).mono fun x hx => hx.operand
    · exact .fail
  refine .ite (fun _ => .fail) fun _ => .ite (fun _ => .fail) fun hcover => ?_
  rw [List.any_eq_true, not_exists] at hcover
  split
  · exact .pure (hfound.1 _ (List.mem_singleton_self _))
  · refine .pure (.of_wholes _ rfl fun x hx => ?_)
    exact (hfound.1 x hx).whole (Bool.eq_false_iff.mpr fun h => hcover x ⟨hx, h⟩)

/-! ### Primary expressions -/

theorem places_objectProperty (hn : n.Placed) (c : Context) :
    Yields (objectProperty n c) fun p => ∀ q ∈ p.pieces, q.Placed := by
  unfold objectProperty
  refine .skip fun shorthand => .bind (places_propertyKey hn c) fun key hkey => ?_
  have hkeyed {value : Expr} (h : (Piece.whole value).Placed) :
      ∀ q ∈ (Property.keyed key value).pieces, q.Placed :=
    List.forall_mem_append.mpr ⟨List.forall_mem_map.mpr hkey, List.forall_mem_singleton.mpr h⟩
  refine .skip fun keyed => .ite (fun _ => ?_) fun _ => ?_
  · exact .bind (hn.assignment c) fun value hvalue => .pure (hkeyed hvalue)
  refine .skip fun isMethod => .ite (fun _ => ?_) fun _ => ?_
  · refine .bind (places_functionRest hn c _ nofun) fun d hd => .pure (hkeyed ?_)
    exact .intro rfl (List.forall_mem_singleton.mpr hd)
  cases shorthand with
  | none => exact .skip fun _ => .fail
  | some name =>
    refine .skip fun assigned => .ite (fun _ => ?_) fun _ => .pure nofun
    exact .bind (hn.assignment c) fun cover hcover =>
      .pure (List.forall_mem_singleton.mpr hcover)

theorem places_nameOrArrow (hn : n.Placed) (c : Context) :
    Yields (nameOrArrow n c) Expr.Placed := by
  unfold nameOrArrow
  refine .skip fun name => ?_
  cases name with
  | none => exact .skip fun _ => .fail
  | some name =>
    refine .skip fun _ => .skip fun arrow => .ite (fun _ => .skip fun _ => ?_) fun _ => ?_
    · refine (places_arrowFunction hn c ?_ ?_).mono fun x hx => hx.operand
      · exact List.forall_mem_singleton.mpr (.identifier name)
      · exact List.forall_mem_singleton.mpr (Pattern.placed_identifier name)
    · exact .pure (.of_pieces (List.forall_mem_nil _))

theorem places_primary (hn : n.Placed) (c : Context) : Yields (primary n c) Expr.Placed := by
  unfold primary
  refine .skip fun token => ?_
  split
  · exact .skip fun _ => .pure (.of_pieces nofun)
  · exact places_nameOrArrow hn c
  · exact places_nameOrArrow hn c
  · exact .skip fun _ => .pure (.of_pieces nofun)
  · exact .skip fun _ => .pure (.of_pieces nofun)
  · exact .skip fun _ => .pure (.of_pieces nofun)
  · exact .skip fun _ => .skip fun _ => .pure (.of_pieces nofun)
  · exact .skip fun _ => .pure (.of_pieces nofun)
  · exact places_parenthesized hn c
  · refine .skip fun _ => ?_
    refine .bind (.commaList (.all_arrayElement (hn.assignment _)) _) fun elements helements => ?_
    refine .skip fun _ => .pure (.of_wholes _ rfl fun x hx => ?_)
    exact helements _ (List.reduceOption_mem_iff.mp hx) x rfl
  · refine .skip fun _ => .bind (.commaList (places_objectProperty hn _) _) fun ps hps => ?_
    exact .skip fun _ => .pure (.of_pieces (List.forall_mem_flatMap.mpr hps))
  · exact .bind (places_functionExpression hn c) fun d hd =>
      .pure (.of_pieces (List.forall_mem_singleton.mpr hd))
  · exact .fail
  · exact .fail

/-! ### Operators -/

theorem places_sequenceOf (hn : n.Placed) (c : Context) {first : Parser Expr}
    (h : Yields first fun x => (Piece.whole x).Placed) :
    Yields (sequenceOf n c first) fun x => (Piece.whole x).Placed :=
  .in_sequenceOf h (hn.assignment c) fun list hlist =>
    Expr.Placed.whole (.of_wholes list rfl hlist) rfl

theorem places_memberSuffixes (hn : n.Placed) (c : Context) (calls : Bool) (rounds : Nat)
    {object : Expr} (h : object.Placed) :
    Yields (memberSuffixes n c calls rounds object) Expr.Placed := by
  induction rounds generalizing object with
  | zero => exact .fail
  | succ rounds ih =>
    unfold memberSuffixes
    refine .skip fun dot => .ite (fun _ => .skip fun name => ih ?_) fun _ => ?_
    · exact .of_operand [] rfl h nofun
    refine .skip fun bracket => .ite (fun _ => ?_) fun _ => ?_
    · refine .bind (places_sequenceOf hn _ (hn.assignment _)) fun key hkey => ?_
      exact .skip fun _ => ih (.of_operand _ rfl h (List.forall_mem_singleton.mpr hkey))
    refine .skip fun opened => .ite (fun _ => ?_) fun _ => .pure h
    exact .bind (.all_callArguments (hn.assignment _)) fun list hlist =>
      ih (.of_operand _ rfl h hlist)

theorem places_construct (hn : n.Placed) (c : Context) : Yields (construct n c) Expr.Placed := by
  unfold construct
  have hrest {object : Expr} (h : object.Placed) : Yields
      (memberSuffixes n c false n.rounds object >>= fun callee => do
        if ← Parser.atSign .leftParen then return .construct callee (← callArguments n c)
        else return .construct callee []) Expr.Placed := by
    refine .bind (places_memberSuffixes hn c _ _ h) fun callee hcallee => ?_
    refine .skip fun opened => .ite (fun _ => ?_) fun _ => ?_
    · exact .bind (.all_callArguments (hn.assignment _)) fun list hlist =>
        .pure (.of_operand _ rfl hcallee hlist)
    · exact .pure (.of_operand [] rfl hcallee nofun)
  refine .skip fun _ => .skip fun nested => .ite (fun _ => ?_) fun _ => ?_
  · exact .bind (hn.construct c) fun object hobject => hrest hobject
  · exact .bind (places_primary hn c) fun object hobject => hrest hobject

theorem places_leftHandSide (hn : n.Placed) (c : Context) :
    Yields (leftHandSide n c) Expr.Placed := by
  unfold leftHandSide
  refine .skip fun nested => .ite (fun _ => ?_) fun _ => ?_
  · exact .bind (places_construct hn c) fun object h => places_memberSuffixes hn c _ _ h
  · exact .bind (places_primary hn c) fun object h => places_memberSuffixes hn c _ _ h

theorem places_postfixUpdate (hn : n.Placed) (c : Context) :
    Yields (postfixUpdate n c) Expr.Placed := by
  unfold postfixUpdate
  refine .bind (places_leftHandSide hn c) fun target htarget => .skip fun token => ?_
  refine .skip fun broken => ?_
  split
  · refine .bind (yields_checkAssignable target) fun _ htaken => .skip fun _ => .pure ?_
    exact .of_wholes _ rfl (List.forall_mem_singleton.mpr (htarget.whole htaken))
  · exact .pure htarget

theorem places_unary (hn : n.Placed) (c : Context) : Yields (unary n c) Expr.Placed := by
  unfold unary
  refine .skip fun token => ?_
  split
  · exact places_postfixUpdate hn c
  refine .skip fun _ => .bind (hn.unary c) fun operand hoperand => ?_
  have hpart {x : Expr} (hpieces : x.pieces = [.operand operand]) :
      Yields (pure x) Expr.Placed :=
    .pure (.of_operand [] hpieces hoperand nofun)
  split
  · exact hpart rfl
  · exact hpart rfl
  · exact hpart rfl
  · refine .bind (yields_checkAssignable operand) fun _ htaken => .pure ?_
    exact .of_wholes _ rfl (List.forall_mem_singleton.mpr (hoperand.whole htaken))
  · dsimp only
    split
    · exact .skip fun strict => .ite (fun _ => .failed) fun _ => hpart rfl
    · exact hpart rfl

theorem places_power (hn : n.Placed) (c : Context) : Yields (power n c) Expr.Placed := by
  unfold power
  refine .skip fun token => .bind (places_unary hn c) fun base hbase => .skip fun raised => ?_
  refine .ite (fun _ => .ite (fun _ => .failed) fun _ => .skip fun _ => ?_) fun _ => .pure hbase
  exact .bind (hn.power c) fun exponent hexponent => .pure (.of_operands rfl hbase hexponent)

theorem places_binary (hn : n.Placed) (c : Context) (strength : Nat) :
    Yields (binary n c strength) Expr.Placed := by
  unfold binary
  refine .bind (places_power hn c) fun left hleft => ?_
  exact .in_binaryRest (hn.binary c) (fun _ _ _ hx hy => .of_operands rfl hx hy) _ _ hleft

theorem places_coalescing (hn : n.Placed) (c : Context) :
    Yields (coalescing n c) Expr.Placed :=
  .in_coalescing (places_binary hn c 0) fun _ _ _ hx hy => .of_operands rfl hx hy

theorem places_conditional (hn : n.Placed) (c : Context) :
    Yields (conditional n c) Expr.Placed := by
  unfold conditional
  refine .bind (places_coalescing hn c) fun test htest => .skip fun asked => ?_
  refine .ite (fun _ => ?_) fun _ => .pure htest
  refine .bind (hn.assignment _) fun consequent hconsequent => .skip fun _ => ?_
  refine .bind (hn.assignment c) fun alternate halternate => .pure ?_
  refine .of_operand [consequent, alternate] rfl htest ?_
  exact List.forall_mem_cons.mpr ⟨hconsequent, List.forall_mem_singleton.mpr halternate⟩

/-- Where the expression cannot become a parameter, a literal that only a pattern can be is
refused. -/
theorem places_assignment (hn : n.Placed) (c : Context) (cover : Bool) :
    Yields (assignment n c cover) (Goal.Placed (.assignment cover)) := by
  have hwhole {x : Expr} (hx : (Piece.whole x).Placed) : Goal.Placed (.assignment cover) x := by
    cases cover with
    | false => exact hx
    | true => exact hx.operand
  unfold assignment
  refine .bind (places_conditional hn c) fun left hleft => .skip fun token => ?_
  split
  · refine .ite (fun _ => .failed) fun hfree => .pure ?_
    cases cover with
    | false => exact hleft.whole (by simpa using hfree)
    | true => exact hleft
  refine .ite (fun _ => .failed) fun _ => ?_
  refine .bind (yields_checkAssignable left) fun _ htaken => .skip fun _ => ?_
  refine .bind (hn.assignment c) fun value hvalue => .pure (hwhole (Expr.Placed.whole ?_ rfl))
  refine .of_wholes [left, value] rfl ?_
  exact List.forall_mem_cons.mpr ⟨hleft.whole htaken, List.forall_mem_singleton.mpr hvalue⟩

theorem places_expression (hn : n.Placed) (c : Context) :
    Yields (expression n c) fun x => (Piece.whole x).Placed := by
  unfold expression
  exact places_sequenceOf hn c (places_assignment hn c false)

end Grammar

end ProtoScript
