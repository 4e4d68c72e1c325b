import ProtoScript.Proofs.Separators
/-!
# Expressions without operators

The rules for operators call one another down to the rule for primary expressions.  Where none of
them finds an operator, what they yield is what the last one has read.
-/

namespace ProtoScript.Grammar

variable {n : Nesting} {c : Context} {s t u : TokenStream} {x : Expr} {rounds : Nat}

def isPrimary : Expr → Bool
  | .unary _ _ => false
  | .typeOf _ => false
  | .void _ => false
  | .delete _ => false
  | .update _ _ _ => false
  | .binary _ _ _ => false
  | .logical _ _ _ => false
  | .conditional _ _ _ => false
  | .member _ _ => false
  | .call _ _ => false
  | .construct _ _ => false
  | _ => true

/-- A rule that goes on with an expression leaves it alone if it makes no operator of it. -/
def LeavesAlone (rest : Expr → Parser Expr) : Prop :=
  ∀ y s x t, rest y s = .ok x t → isPrimary x = true → x = y ∧ t = s

theorem leavesAlone_memberSuffixes (n : Nesting) (c : Context) (calls : Bool) (rounds : Nat) :
    LeavesAlone (memberSuffixes n c calls rounds) := by
  intro y s x t h hx
  induction rounds generalizing y s with
  | zero => cases h
  | succ rounds ih =>
    unfold memberSuffixes at h
    rw [eat_bind, atSign_bind] at h
    split at h
    · obtain ⟨_, u, -, h⟩ := bind_eq_ok h
      obtain ⟨name, v, -, h⟩ := bind_eq_ok h
      obtain ⟨rfl, -⟩ := ih _ _ h
      cases hx
    rw [if_neg Bool.false_ne_true, eat_bind, atSign_bind] at h
    split at h
    · obtain ⟨_, u, -, h⟩ := bind_eq_ok h
      obtain ⟨key, v, -, h⟩ := bind_eq_ok h
      obtain ⟨_, w, -, h⟩ := bind_eq_ok h
      obtain ⟨rfl, -⟩ := ih _ _ h
      cases hx
    rw [if_neg Bool.false_ne_true, atSign_bind] at h
    split at h
    · obtain ⟨list, u, -, h⟩ := bind_eq_ok h
      obtain ⟨rfl, -⟩ := ih _ _ h
      cases hx
    · cases h
      exact ⟨rfl, rfl⟩

theorem leavesAlone_binaryRest (n : Nesting) (c : Context) (strength rounds : Nat) :
    LeavesAlone (binaryRest n c strength rounds) := by
  intro y s x t h hx
  induction rounds generalizing y s with
  | zero => cases h
  | succ rounds ih =>
    unfold binaryRest at h
    rw [current_bind] at h
    cases hop : binaryOperator? c s.current with
    | none =>
      rw [hop] at h
      cases h
      exact ⟨rfl, rfl⟩
    | some op =>
    rw [hop] at h
    dsimp only at h
    split at h
    · cases h
      exact ⟨rfl, rfl⟩
    · obtain ⟨_, u, -, h⟩ := bind_eq_ok h
      obtain ⟨right, v, -, h⟩ := bind_eq_ok h
      obtain ⟨rfl, -⟩ := ih _ _ h
      cases hx

theorem leavesAlone_logicalRest (sign : Punctuator) (op : LogicalOp) (operand : Parser Expr)
    (rounds : Nat) : LeavesAlone (logicalRest sign op operand rounds) := by
  intro y s x t h hx
  induction rounds generalizing y s with
  | zero => cases h
  | succ rounds ih =>
    unfold logicalRest at h
    rw [eat_bind, atSign_bind] at h
    split at h
    · obtain ⟨_, u, -, h⟩ := bind_eq_ok h
      obtain ⟨right, v, -, h⟩ := bind_eq_ok h
      obtain ⟨rfl, -⟩ := ih _ _ h
      cases hx
    · cases h
      exact ⟨rfl, rfl⟩

def Rests (p q : Parser Expr) : Prop :=
  ∀ s x t, p s = .ok x t → isPrimary x = true → q s = .ok x t

theorem Rests.bind {p q : Parser Expr} {rest : Expr → Parser Expr} (h : Rests p q)
    (hrest : LeavesAlone rest) : Rests (p >>= rest) q := by
  intro s x t hp hx
  obtain ⟨y, u, hy, hp⟩ := bind_eq_ok hp
  obtain ⟨rfl, rfl⟩ := hrest _ _ _ _ hp hx
  exact h _ _ _ hy hx

theorem Rests.refl (p : Parser Expr) : Rests p p := fun _ _ _ h _ => h

theorem Rests.of_yields {p q : Parser Expr} (h : Yields p fun x => isPrimary x = false) :
    Rests p q := by
  intro s x t hp hx
  rw [h s x t hp] at hx
  cases hx

theorem rests_leftHandSide (n : Nesting) (c : Context) :
    Rests (leftHandSide n c) (primary n c) := by
  have hconstruct : Yields (construct n c) fun x => isPrimary x = false := by
    unfold construct
    have hrest (object : Expr) :
        Yields (memberSuffixes n c false n.rounds object >>= fun callee => do
        if ← Parser.atSign .leftParen then return .construct callee (← callArguments n c)
        else return .construct callee []) fun x => isPrimary x = false :=
      .skip fun callee => .skip fun opened =>
        .ite (fun _ => .skip fun list => .pure rfl) fun _ => .pure rfl
    refine .skip fun _ => .skip fun nested => .ite (fun _ => ?_) fun _ => ?_
    · exact .skip fun object => hrest object
    · exact .skip fun object => hrest object
  intro s x t h hx
  unfold leftHandSide at h
  rw [atWord_bind] at h
  split at h
  · exact (Rests.of_yields hconstruct).bind
      (leavesAlone_memberSuffixes n c true n.rounds) _ _ _ h hx
  · exact (Rests.refl _).bind (leavesAlone_memberSuffixes n c true n.rounds) _ _ _ h hx

theorem rests_postfixUpdate (n : Nesting) (c : Context) :
    Rests (postfixUpdate n c) (primary n c) := by
  refine (rests_leftHandSide n c).bind fun y s x t h hx => ?_
  rw [current_bind, afterBreak_bind] at h
  cases hop : if s.afterBreak then none else updateOperator? s.current with
  | none =>
    rw [hop] at h
    cases h
    exact ⟨rfl, rfl⟩
  | some op =>
    rw [hop] at h
    obtain ⟨_, u, -, h⟩ := bind_eq_ok h
    obtain ⟨_, v, -, h⟩ := bind_eq_ok h
    cases h
    cases hx

theorem rests_unary (n : Nesting) (c : Context) : Rests (unary n c) (primary n c) := by
  intro s x t h hx
  unfold unary at h
  rw [current_bind] at h
  cases hop : frontOperator? s.current with
  | none =>
    rw [hop] at h
    exact rests_postfixUpdate n c s x t h hx
  | some op =>
    rw [hop] at h
    obtain ⟨_, u, -, h⟩ := bind_eq_ok h
    obtain ⟨operand, v, -, h⟩ := bind_eq_ok h
    cases op with
    | convert op =>
      cases h
      cases hx
    | typeOf =>
      cases h
      cases hx
    | void =>
      cases h
      cases hx
    | update op =>
      obtain ⟨_, w, -, h⟩ := bind_eq_ok h
      cases h
      cases hx
    | delete =>
      dsimp only at h
      split at h
      · rw [isStrict_bind] at h
        split at h
        · cases h
        · cases h
          cases hx
      · cases h
        cases hx

theorem rests_power (n : Nesting) (c : Context) : Rests (power n c) (primary n c) := by
  intro s x t h hx
  unfold power at h
  rw [current_bind] at h
  refine (rests_unary n c).bind (fun y s x t h hx => ?_) s x t h hx
  rw [atSign_bind] at h
  split at h
  · split at h
    · cases h
    · obtain ⟨_, u, -, h⟩ := bind_eq_ok h
      obtain ⟨exponent, v, -, h⟩ := bind_eq_ok h
      cases h
      cases hx
  · cases h
    exact ⟨rfl, rfl⟩

theorem rests_binary (n : Nesting) (c : Context) (strength : Nat) :
    Rests (binary n c strength) (primary n c) :=
  (rests_power n c).bind (leavesAlone_binaryRest n c strength n.rounds)

theorem rests_coalescing (n : Nesting) (c : Context) : Rests (coalescing n c) (primary n c) :=
  ((((rests_binary n c 0).bind (leavesAlone_logicalRest _ _ _ _)).bind
    (leavesAlone_logicalRest _ _ _ _)).bind (leavesAlone_logicalRest _ _ _ _))

theorem rests_conditional (n : Nesting) (c : Context) : Rests (conditional n c) (primary n c) := by
  refine (rests_coalescing n c).bind fun y s x t h hx => ?_
  rw [eat_bind, atSign_bind] at h
  split at h
  · obtain ⟨_, u, -, h⟩ := bind_eq_ok h
    obtain ⟨consequent, v, -, h⟩ := bind_eq_ok h
    obtain ⟨_, w, -, h⟩ := bind_eq_ok h
    obtain ⟨alternate, w', -, h⟩ := bind_eq_ok h
    cases h
    cases hx
  · cases h
    exact ⟨rfl, rfl⟩

/-- What an assignment rule reads: an expression that is not assigned to, or an assignment. -/
theorem assignment_eq_ok {cover : Bool} (h : assignment n c cover s = .ok x t) :
    conditional n c s = .ok x t ∧ assignmentOperator? t.current = none ∨
      ∃ op left value u v, x = .assign op left value ∧ conditional n c s = .ok left u ∧
        assignmentOperator? u.current = some op ∧ (op = none → isLiteralPattern left = false) ∧
        checkAssignable left u = .ok () u ∧ Parser.advance u = .ok () v ∧
        n.parse (.assignment false) c v = .ok value t := by
  unfold assignment at h
  obtain ⟨left, u, hleft, h⟩ := bind_eq_ok h
  rw [current_bind] at h
  cases hop : assignmentOperator? u.current with
  | none =>
    rw [hop] at h
    dsimp only at h
    split at h
    · cases h
    · cases h
      exact .inl ⟨hleft, hop⟩
  | some op =>
    rw [hop] at h
    dsimp only at h
    split at h
    · cases h
    next hliteral =>
    obtain ⟨_, v, hcheck, h⟩ := bind_eq_ok h
    obtain ⟨_, w, hadvance, h⟩ := bind_eq_ok h
    obtain ⟨value, w', hvalue, h⟩ := bind_eq_ok h
    cases h
    obtain rfl : v = u := by
      unfold checkAssignable at hcheck
      split at hcheck
      · rw [isStrict_bind] at hcheck
        split at hcheck <;> cases hcheck
        rfl
      · cases hcheck
        rfl
      · cases hcheck
    refine .inr ⟨op, left, value, v, w, rfl, hleft, hop, ?_, hcheck, hadvance, hvalue⟩
    rintro rfl
    simpa using hliteral

theorem checkAssignable_eq_ok (h : checkAssignable x s = .ok () t) :
    (∃ name, x = .identifier name) ∨ ∃ object key, x = .member object key := by
  unfold checkAssignable at h
  split at h
  · exact .inl ⟨_, rfl⟩
  · exact .inr ⟨_, _, rfl⟩
  · cases h

/-! ### What lists and functions have read -/

theorem ok_unique {α : Type} {rule : Parser α} {a b : α} (h : rule s = .ok a t)
    (h' : rule s = .ok b u) : a = b ∧ t = u := by
  cases h.symm.trans h'
  exact ⟨rfl, rfl⟩

/-- What a round of a list reads: nothing in front of the closing sign, or an element. -/
theorem commaList_eq_ok {α : Type} {close : Punctuator} {element : Parser α} {list : List α}
    (h : Parser.commaList close element (rounds + 1) s = .ok list t) :
    s.current.sign? = some close ∧ list = [] ∧ t = s ∨
      ∃ first others u v, s.current.sign? ≠ some close ∧ list = first :: others ∧
        element s = .ok first u ∧ Parser.separate close u = .ok () v ∧
        Parser.commaList close element rounds v = .ok others t := by
  unfold Parser.commaList at h
  rw [atSign_bind] at h
  split at h
  · next hclose =>
    cases h
    exact .inl ⟨sign_of_atSign hclose, rfl, rfl⟩
  · next hclose =>
    obtain ⟨first, u, hfirst, h⟩ := bind_eq_ok h
    obtain ⟨_, v, hsep, h⟩ := bind_eq_ok h
    obtain ⟨others, w, hothers, h⟩ := bind_eq_ok h
    cases h
    exact .inr ⟨first, others, u, v, by simpa using hclose, rfl, hfirst, hsep, hothers⟩

theorem commaListRest_eq_ok {α β : Type} {close : Punctuator} {element : Parser α}
    {rest : Parser β} {found : List α × Option β}
    (h : commaListRest close element rest (rounds + 1) s = .ok found t) :
    s.current.sign? = some close ∧ found = ([], none) ∧ t = s ∨
      (∃ last u, Sign .ellipsis s u ∧ rest u = .ok last t ∧ found = ([], some last)) ∨
      ∃ first others u v, Entry (restEnds close) element s first u ∧
        Parser.separate close u = .ok () v ∧
        commaListRest close element rest rounds v = .ok others t ∧
        found = (first :: others.1, others.2) := by
  unfold commaListRest at h
  rw [atSign_bind] at h
  split at h
  · next hclose =>
    cases h
    exact .inl ⟨sign_of_atSign hclose, rfl, rfl⟩
  next hclose =>
  obtain ⟨ellipsis, u, heat, hfound⟩ := bind_eq_ok h
  rcases eat_eq_ok heat with ⟨rfl, hellipsis⟩ | ⟨rfl, hellipsis, rfl⟩
  · obtain ⟨last, v, hlast, hdone⟩ := bind_eq_ok hfound
    cases hdone
    exact .inr (.inl ⟨last, u, hellipsis, hlast, rfl⟩)
  · obtain ⟨first, v, hfirst, hnext⟩ := bind_eq_ok hfound
    obtain ⟨_, w, hsep, hnext⟩ := bind_eq_ok hnext
    obtain ⟨others, w', hothers, hdone⟩ := bind_eq_ok hnext
    cases hdone
    have hends : ∀ sign ∈ restEnds close, u.current.sign? ≠ some sign := by
      simpa [restEnds, hellipsis] using hclose
    exact .inr (.inr ⟨first, others, v, w, ⟨hends, hfirst⟩, hsep, hothers, rfl⟩)

theorem eq_of_commaListRest_nil {α β : Type} {close : Punctuator} {element : Parser α}
    {rest : Parser β} (h : commaListRest close element rest rounds s = .ok ([], none) t) :
    t = s := by
  cases rounds with
  | zero => cases h
  | succ rounds =>
    rcases commaListRest_eq_ok h with ⟨-, -, hend⟩ | ⟨_, _, -, -, hfound⟩ |
      ⟨_, _, _, _, -, -, -, hfound⟩
    · exact hend
    · cases hfound
    · cases hfound

theorem checkBinding_eq_ok {name : String} (h : checkBinding name s = .ok () t) : t = s := by
  unfold checkBinding at h
  rw [isStrict_bind] at h
  split at h
  · cases h
  · cases h
    rfl

theorem parameters_arrowFunction (n : Nesting) (c : Context) (parameters : List Pattern) :
    Yields (arrowFunction n c parameters) fun x =>
      ∃ f, x = .function f ∧ f.kind = .arrow ∧ f.parameters = parameters := by
  unfold arrowFunction
  refine .skip fun _ => .skip fun brace => .ite (fun _ => .skip fun body => ?_)
    fun _ => .skip fun value => ?_
  · refine .bind (yields_finishFunction_eq _ _ _ _ _) fun d hd => .pure ?_
    obtain ⟨mode, rfl⟩ := hd
    exact ⟨_, rfl, rfl, rfl⟩
  · refine .bind (yields_finishFunction_eq _ _ _ _ _) fun d hd => .pure ?_
    obtain ⟨mode, rfl⟩ := hd
    exact ⟨_, rfl, rfl, rfl⟩

theorem parameters_eq_ok {list : List Pattern} (h : parameters n c s = .ok list t) :
    ∃ u found v, Sign .leftParen s u ∧
      commaListRest .rightParen (n.parse .element c.bracketed) (n.parse .pattern c.bracketed)
        n.rounds u = .ok found v ∧ Sign .rightParen v t ∧
      list = found.1 ++ found.2.toList.map .rest := by
  unfold parameters at h
  rw [parameterList_eq] at h
  obtain ⟨_, u, hopen, h⟩ := bind_eq_ok h
  obtain ⟨_, v, hlist, h⟩ := bind_eq_ok h
  obtain ⟨_, w, hclose, h⟩ := bind_eq_ok h
  cases h
  obtain ⟨found, v, hlist, hfound⟩ := bind_eq_ok hlist
  cases hfound
  exact ⟨u, found, v, expect_eq_ok hopen, hlist, expect_eq_ok hclose, rfl⟩

theorem functionRest_eq_ok {name : Option String} {kind : FunctionKind} {d : FunctionDef}
    (h : functionRest n c name kind s = .ok d t) :
    ∃ u ownStrict v, parameters n c s = .ok d.parameters u ∧
      functionBody n u = .ok (d.body, ownStrict) v ∧
      finishFunction name kind d.parameters d.body ownStrict v = .ok d t := by
  unfold functionRest at h
  obtain ⟨list, u, hlist, h⟩ := bind_eq_ok h
  obtain ⟨⟨body, ownStrict⟩, v, hbody, h⟩ := bind_eq_ok h
  obtain ⟨mode, rfl⟩ := yields_finishFunction_eq _ _ _ _ _ _ _ _ h
  exact ⟨u, ownStrict, v, hlist, hbody, h⟩

end ProtoScript.Grammar
