import ProtoScript.Proofs.Progress.Function
/-!
# Expressions move forward
-/

namespace ProtoScript.Grammar

variable {r : Course} {n : Nesting} {more : Bool} {limit : Nat}

theorem takes_arrowFunction (hn : n.Takes r limit) (c : Context) (parameters : List Pattern) :
    Takes r more 1 (limit + 1) (arrowFunction n c parameters) := by
  unfold arrowFunction
  refine .take .expect fun _ => .atSign ?_ ?_
  · refine .keep (takes_functionBody hn).later fun body => ?_
    exact .keep (takes_finishFunction _ _ _ _ _) fun _ => .pure
  · refine .keep (hn.parse _ _ rfl).any fun value => ?_
    exact .keep (takes_finishFunction _ _ _ _ _) fun _ => .pure

theorem looks_atArrow : Looks atArrow := .bind .atSign fun _ => .bind .afterBreak fun _ => .pure

theorem takes_parenthesizedElements (hn : n.Takes r limit) (c : Context) {rounds : Nat}
    (hrounds : limit ≤ rounds) : Takes r more 0 limit (parenthesizedElements n c rounds) := by
  induction rounds generalizing limit more with
  | zero =>
    obtain rfl := Nat.le_zero.mp hrounds
    exact .zero
  | succ rounds ih =>
    cases limit with
    | zero => exact .zero
    | succ limit =>
      unfold parenthesizedElements
      refine .atSign .pure (.eat (.keep (hn.parse _ _ rfl).later fun _ => .pure) ?_)
      refine .take (hn.parse _ _ rfl).here fun element => .keep .separate fun _ => ?_
      exact .keep (ih (hn.le (Nat.le_succ _)) (Nat.le_of_succ_le_succ hrounds)) fun _ => .pure

theorem toParameters_ne_outOfFuel {strict : Bool} {elements : List Expr} {rest : Option Pattern}
    {e : SyntaxError} (h : toParameters strict elements rest = .error e) : e ≠ .outOfFuel := by
  have hmap : ∀ e, elements.mapM (Expr.toPattern strict) = .error e → e ≠ .outOfFuel := by
    clear h
    induction elements with
    | nil =>
      intro e h
      rw [List.mapM_nil] at h
      cases h
    | cons x elements ih =>
      intro e h
      rw [List.mapM_cons] at h
      refine ne_outOfFuel_of_bind h (Expr.toPattern_ne_outOfFuel x) fun target e h => ?_
      exact ne_outOfFuel_of_map h ih
  refine ne_outOfFuel_of_bind h hmap fun targets e h => ?_
  dsimp only at h
  split at h <;> cases h
  simp

theorem takes_parenthesized (hn : n.Takes r limit) (c : Context) :
    Takes r true 1 (limit + 1) (parenthesized n c) := by
  unfold parenthesized
  refine .take .advance fun _ => .keep (takes_parenthesizedElements hn _ hn.rounds) fun found => ?_
  refine .keep Takes.expect.any fun _ => .look looks_atArrow fun arrow =>
    .ite (fun _ => ?_) fun _ => ?_
  · refine .look .isStrict fun strict => ?_
    split
    · exact (takes_arrowFunction hn c _).later
    · next heq => exact .fail (toParameters_ne_outOfFuel heq)
  refine .ite (fun _ => .fail nofun) fun _ => .ite (fun _ => .fail nofun) fun _ => ?_
  split <;> exact .pure

theorem arrayElement_bind {β : Type} (n : Nesting) (c : Context) (f : Option Expr → Parser β) :
    (arrayElement n c >>= f) = (Parser.atSign .comma >>= fun found =>
      if found = true then f none
      else n.parse (.assignment false) c >>= fun value => f (some value)) := by
  unfold arrayElement
  rw [bind_assoc]
  refine congrArg _ (funext fun found => ?_)
  cases found
  · exact bind_assoc ..
  · exact pure_bind _ _

/-- A hole of an array literal takes nothing, but the comma behind it does. -/
theorem takes_arrayElement (hn : n.Takes r (limit + 1)) (c : Context) {β : Type}
    {f : Option Expr → Parser β} (hf : ∀ a, Takes r false 0 limit (f a)) :
    Takes r false 1 (limit + 1)
      (arrayElement n c >>= fun a => Parser.separate .rightBracket >>= fun _ => f a) := by
  rw [arrayElement_bind]
  intro s _ hs
  change Goes r 1 (if (s.current.sign? == some .comma) = true then _ else _) s
  by_cases hcomma : (s.current.sign? == some .comma) = true
  · have hseparate : (Parser.separate .rightBracket >>= fun _ => f none) s =
        (Parser.advance >>= fun _ => f none) s := by
      unfold Parser.separate
      rw [bind_assoc, atSign_bind, hcomma]
      rfl
    have hmore : s.current.isEnd = false := by
      cases hc : s.current with
      | endOfInput => simp [hc, Token.sign?] at hcomma
      | _ => rfl
    have hhole : Takes r true 1 (limit + 1) (Parser.advance >>= fun _ => f none) :=
      .take .advance fun _ => hf none
    rw [if_pos hcomma]
    unfold Goes
    rw [hseparate]
    exact hhole s (fun _ => hmore) hs
  · have hvalue : Takes r false 1 (limit + 1) (n.parse (.assignment false) c >>= fun value =>
        Parser.separate .rightBracket >>= fun _ => f (some value)) :=
      .take (hn.parse _ _ rfl) fun value => .keep .separate fun _ => hf _
    rw [if_neg hcomma]
    exact hvalue s (fun h => absurd h Bool.false_ne_true) hs

theorem takes_objectProperty (hn : n.Takes r limit) (c : Context) :
    Takes r more 1 (limit + 1) (objectProperty n c) := by
  unfold objectProperty
  refine .look (fun _ => rfl) fun shorthand => .take (takes_propertyKey hn c) fun key => ?_
  refine .keep .eat_any fun keyed => .ite (fun _ => ?_) fun _ => .atSign ?_ ?_
  · exact .keep (hn.parse _ _ rfl).any fun _ => .pure
  · exact .keep (takes_functionRest hn c _ _).later fun _ => .pure
  cases shorthand with
  | none => exact .current fun _ => .fail nofun
  | some name =>
    refine .keep .eat_any fun assigned => .ite (fun _ => ?_) fun _ => .pure
    exact .keep (hn.parse _ _ rfl).any fun _ => .pure

theorem takes_nameOrArrow (hn : n.Takes r limit) (c : Context) :
    Takes r more 1 (limit + 1) (nameOrArrow n c) := by
  unfold nameOrArrow
  refine .name (fun name => .take .advance fun _ => ?_) (.current fun _ => .fail nofun)
  refine .look looks_atArrow fun arrow => .ite (fun _ => ?_) fun _ => .pure
  exact .look (looks_checkBinding name) fun _ => (takes_arrowFunction hn c _).later

theorem takes_primary (hn : n.Takes r limit) (c : Context) :
    Takes r more 1 (limit + 1) (primary n c) := by
  unfold primary
  refine .here (.current fun token => ?_)
  split
  · exact .take .advance fun _ => .pure
  · exact takes_nameOrArrow hn c
  · exact takes_nameOrArrow hn c
  · exact .take .advance fun _ => .pure
  · exact .take .advance fun _ => .pure
  · exact .take .advance fun _ => .pure
  · exact .look looks_checkOctal fun _ => .take .advance fun _ => .pure
  · exact .take .advance fun _ => .pure
  · exact takes_parenthesized hn c
  · refine .take .advance fun _ => .keep (.commaList hn.rounds fun limit' hlimit _ f hf => ?_) ?_
    · exact takes_arrayElement (hn.le hlimit) _ hf
    · exact fun elements => .keep Takes.expect.any fun _ => .pure
  · refine .take .advance fun _ => .keep (.commaList hn.rounds fun limit' hlimit _ f hf => ?_) ?_
    · refine .take (takes_objectProperty (hn.le (Nat.le_of_lt hlimit)) _) fun property => ?_
      exact .keep .separate fun _ => hf property
    · exact fun properties => .keep Takes.expect.any fun _ => .pure
  · exact .take (takes_functionExpression hn c) fun _ => .pure
  · exact .fail nofun
  · exact .fail nofun

theorem takes_callArguments (hn : n.Takes r limit) (c : Context) :
    Takes r more 1 (limit + 1) (callArguments n c) := by
  unfold callArguments
  refine .take .expect fun _ => .keep (.commaList hn.rounds fun limit' hlimit _ f hf => ?_) ?_
  · refine .take ((hn.le hlimit).parse _ _ rfl) fun argument => ?_
    exact .keep .separate fun _ => hf argument
  · exact fun list => .keep Takes.expect.any fun _ => .pure

theorem takes_memberName : Takes r more 1 (limit + 1) memberName := by
  unfold memberName
  refine .here (.current fun token => ?_)
  split
  · exact .take .advance fun _ => .pure
  · exact .take .advance fun _ => .pure
  · exact .take .advance fun _ => .pure
  · exact .take .advance fun _ => .pure
  · exact .fail nofun

theorem takes_others (hn : n.Takes r limit) (c : Context) {rounds : Nat}
    (hrounds : limit ≤ rounds) : Takes r more 0 limit (sequenceOf.others n c rounds) := by
  induction rounds generalizing limit more with
  | zero =>
    obtain rfl := Nat.le_zero.mp hrounds
    exact .zero
  | succ rounds ih =>
    cases limit with
    | zero => exact .zero
    | succ limit =>
      unfold sequenceOf.others
      refine .eat (.keep (hn.parse _ _ rfl).later fun next => ?_) .pure
      exact .keep (ih (hn.le (Nat.le_succ _)) (Nat.le_of_succ_le_succ hrounds)) fun _ => .pure

theorem takes_sequenceOf (hn : n.Takes r limit) (c : Context) {first : Parser Expr}
    (h : Takes r more 1 (limit + 1) first) :
    Takes r more 1 (limit + 1) (sequenceOf n c first) := by
  unfold sequenceOf
  refine .take h fun first => .atSign ?_ .pure
  exact .keep (takes_others hn c hn.rounds) fun _ => .pure

theorem takes_memberSuffixes (hn : n.Takes r limit) (c : Context) (calls : Bool) {rounds : Nat}
    (hrounds : limit ≤ rounds) (object : Expr) :
    Takes r more 0 limit (memberSuffixes n c calls rounds object) := by
  induction rounds generalizing limit object more with
  | zero =>
    obtain rfl := Nat.le_zero.mp hrounds
    exact .zero
  | succ rounds ih =>
    cases limit with
    | zero => exact .zero
    | succ limit =>
      have hn' := hn.le (Nat.le_succ limit)
      have hnext (object : Expr) : Takes r false 0 limit (memberSuffixes n c calls rounds object) :=
        ih hn' (Nat.le_of_succ_le_succ hrounds) object
      unfold memberSuffixes
      refine .eat (.keep takes_memberName.later fun name => hnext _) (.eat ?_ ?_)
      · refine .keep (takes_sequenceOf hn' _ (hn.parse _ _ rfl)).later fun key => ?_
        exact .keep Takes.expect.any fun _ => hnext _
      · refine .look .atSign fun opened => .ite (fun _ => ?_) fun _ => .pure
        exact .take (takes_callArguments hn' c) fun list => hnext _

theorem takes_construct (hn : n.Takes r limit) (c : Context) :
    Takes r true 1 (limit + 1) (construct n c) := by
  unfold construct
  have hrest (object : Expr) : Takes r false 0 limit
      (memberSuffixes n c false n.rounds object >>= fun callee => do
        if ← Parser.atSign .leftParen then return Expr.construct callee (← callArguments n c)
        else return Expr.construct callee []) := by
    refine .keep (takes_memberSuffixes hn c false hn.rounds object) fun callee => .atSign ?_ .pure
    exact .keep (takes_callArguments hn c).later fun _ => .pure
  refine .take .advance fun _ => .atWord ?_ ?_
  · exact .keep (hn.announced .construct c).drop hrest
  · exact .keep (takes_primary hn c).later hrest

theorem takes_leftHandSide (hn : n.Takes r limit) (c : Context) :
    Takes r more 1 (limit + 1) (leftHandSide n c) := by
  unfold leftHandSide
  refine .atWord ?_ ?_
  · exact .take (takes_construct hn c) (takes_memberSuffixes hn c true hn.rounds)
  · exact .take (takes_primary hn c) (takes_memberSuffixes hn c true hn.rounds)

theorem looks_checkAssignable (target : Expr) : Looks (checkAssignable target) := by
  unfold checkAssignable
  split
  · exact .bind .isStrict fun _ => .ite (.fail nofun) .pure
  · exact .pure
  · exact .fail nofun

theorem takes_postfixUpdate (hn : n.Takes r limit) (c : Context) :
    Takes r more 1 (limit + 1) (postfixUpdate n c) := by
  unfold postfixUpdate
  refine .take (takes_leftHandSide hn c) fun target => .look .current fun token => ?_
  refine .look .afterBreak fun broken => ?_
  split
  · exact .look (looks_checkAssignable _) fun _ => .keep .advance_any fun _ => .pure
  · exact .pure

theorem isEnd_of_frontOperator? {token : Token} {op : FrontOperator}
    (h : frontOperator? token = some op) : token.isEnd = false := by
  cases token with
  | endOfInput => cases h
  | _ => rfl

theorem takes_unary (hn : n.Takes r limit) (c : Context) :
    Takes r more 1 (limit + 1) (unary n c) := by
  unfold unary
  refine .here (.current fun token => ?_)
  split
  · exact takes_postfixUpdate hn c
  next op heq =>
  rw [isEnd_of_frontOperator? heq]
  refine .take .advance fun _ => .keep (hn.parse _ _ rfl).any fun operand => ?_
  split
  · exact .pure
  · exact .pure
  · exact .pure
  · exact .look (looks_checkAssignable _) fun _ => .pure
  · dsimp only
    split
    · exact .look .isStrict fun strict => .ite (fun _ => .failed nofun) fun _ => .pure
    · exact .pure

theorem takes_power (hn : n.Takes r limit) (c : Context) :
    Takes r more 1 (limit + 1) (power n c) := by
  unfold power
  refine .look .current fun token => .take (takes_unary hn c) fun base => .atSign ?_ .pure
  refine .ite (fun _ => .failed nofun) fun _ => .keep .advance_any fun _ => ?_
  exact .keep (hn.parse _ _ rfl).any fun _ => .pure

theorem isEnd_of_binaryOperator? {c : Context} {token : Token} {op : BinaryOp × Nat}
    (h : binaryOperator? c token = some op) : token.isEnd = false := by
  cases token with
  | endOfInput => cases h
  | _ => rfl

theorem takes_binaryRest (hn : n.Takes r limit) (c : Context) (strength : Nat) {rounds : Nat}
    (hrounds : limit ≤ rounds) (left : Expr) :
    Takes r more 0 limit (binaryRest n c strength rounds left) := by
  induction rounds generalizing limit left more with
  | zero =>
    obtain rfl := Nat.le_zero.mp hrounds
    exact .zero
  | succ rounds ih =>
    cases limit with
    | zero => exact .zero
    | succ limit =>
      have hn' := hn.le (Nat.le_succ limit)
      unfold binaryRest
      refine .here (.current fun token => ?_)
      split
      · exact .pure
      next op own heq =>
      rw [isEnd_of_binaryOperator? heq]
      refine .ite (fun _ => .pure) fun _ => .take .advance fun _ => ?_
      refine .keep (hn'.parse _ _ rfl).any fun right => ?_
      exact ih hn' (Nat.le_of_succ_le_succ hrounds) _

theorem takes_binary (hn : n.Takes r limit) (c : Context) (strength : Nat) :
    Takes r more 1 (limit + 1) (binary n c strength) := by
  unfold binary
  exact .take (takes_power hn c) (takes_binaryRest hn c strength hn.rounds)

theorem takes_logicalRest (sign : Punctuator) (op : LogicalOp) {operand : Parser Expr}
    (ho : Takes r false 1 (limit + 1) operand) {rounds : Nat} (hrounds : limit ≤ rounds)
    (left : Expr) : Takes r more 0 limit (logicalRest sign op operand rounds left) := by
  induction rounds generalizing limit left more with
  | zero =>
    obtain rfl := Nat.le_zero.mp hrounds
    exact .zero
  | succ rounds ih =>
    cases limit with
    | zero => exact .zero
    | succ limit =>
      have ho' : Takes r false 1 (limit + 1) operand :=
        ho.weaken (Nat.le_refl _) (Nat.le_succ _)
      unfold logicalRest
      refine .eat (.keep ho'.later fun right => ?_) .pure
      exact ih ho' (Nat.le_of_succ_le_succ hrounds) _

theorem takes_conjunction (hn : n.Takes r limit) (c : Context) :
    Takes r more 1 (limit + 1) (conjunction n c) := by
  unfold conjunction
  exact .take (takes_binary hn c 0) (takes_logicalRest _ _ (takes_binary hn c 0) hn.rounds)

theorem takes_disjunction (hn : n.Takes r limit) (c : Context) :
    Takes r more 1 (limit + 1) (disjunction n c) := by
  unfold disjunction
  exact .take (takes_conjunction hn c) (takes_logicalRest _ _ (takes_conjunction hn c) hn.rounds)

theorem takes_coalescing (hn : n.Takes r limit) (c : Context) :
    Takes r more 1 (limit + 1) (coalescing n c) := by
  unfold coalescing
  exact .take (takes_disjunction hn c) (takes_logicalRest _ _ (takes_disjunction hn c) hn.rounds)

theorem takes_conditional (hn : n.Takes r limit) (c : Context) :
    Takes r more 1 (limit + 1) (conditional n c) := by
  unfold conditional
  refine .take (takes_coalescing hn c) fun test => .keep .eat_any fun asked => ?_
  refine .ite (fun _ => .keep (hn.parse _ _ rfl).any fun consequent => ?_) fun _ => .pure
  exact .keep Takes.expect.any fun _ => .keep (hn.parse _ _ rfl).any fun _ => .pure

theorem takes_assignment (hn : n.Takes r limit) (c : Context) (cover : Bool) :
    Takes r more 1 (limit + 1) (assignment n c cover) := by
  unfold assignment
  refine .take (takes_conditional hn c) fun left => .look .current fun token => ?_
  split
  · exact .ite (fun _ => .failed nofun) fun _ => .pure
  refine .ite (fun _ => .failed nofun) fun _ => .look (looks_checkAssignable _) fun _ => ?_
  exact .keep .advance_any fun _ => .keep (hn.parse _ _ rfl).any fun _ => .pure

theorem takes_expression (hn : n.Takes r limit) (c : Context) :
    Takes r more 1 (limit + 1) (expression n c) := by
  unfold expression
  exact takes_sequenceOf hn c (takes_assignment hn c false)

end ProtoScript.Grammar
