import ProtoScript.Proofs.Marks.Follows
/-!
# Patterns, functions and expressions with marks

The rules with marks leave the marks as they were if the rules for what is nested in them do, and
they end as the rules of the grammar end in the context that the marks describe.
-/

namespace ProtoScript.Marked

/-! ### Marks -/

namespace Marks

variable (m : Marks)

theorem clear_program : program.Clear := ⟨rfl, rfl⟩

variable {m}

theorem Clear.bracketed (h : m.Clear) : m.bracketed.Clear := ⟨h.chain, h.cover⟩

theorem Clear.forHead (h : m.Clear) : m.forHead.Clear := ⟨h.chain, h.cover⟩

theorem Clear.loopBody (h : m.Clear) : m.loopBody.Clear := ⟨h.chain, h.cover⟩

theorem Clear.switchBody (h : m.Clear) : m.switchBody.Clear := ⟨h.chain, h.cover⟩

theorem Clear.functionBody (h : m.Clear) : m.functionBody.Clear := ⟨h.chain, h.cover⟩

theorem Clear.takeCover (h : m.Clear) : { m with cover := false } = m := by
  rw [← h.cover]

/-- What a statement leaves of the marks.  The labels of the chain in front of it may be known to be
on a loop by then. -/
structure Leaves (m m' : Marks) : Prop where
  others : m' = { m with chain := none, labels := m'.labels }
  length : m'.labels.length = m.labels.length
  outer : m'.labels.take (m.chain.getD m.labels.length) =
    m.labels.take (m.chain.getD m.labels.length)

/-- Where no labels stand in front, a statement leaves the marks as they were. -/
theorem Leaves.eq {m' : Marks} (h : m.Leaves m') (hchain : m.chain = none) : m' = m := by
  have houter := h.outer
  rw [hchain, Option.getD_none, List.take_length, ← h.length, List.take_length] at houter
  rw [h.others, houter, ← hchain]

end Marks

structure Nesting.Matches (N : Nesting) (n : Grammar.Nesting) : Prop where
  rounds : N.rounds = n.rounds
  assignment : ∀ m, m.chain = none → Follows m (· = { m with cover := false })
    (N.parse .assignment) (n.parse (.assignment m.cover) m.context)
  binary : ∀ strength m, m.Clear →
    Keeps m (N.parse (.binary strength)) (n.parse (.binary strength) m.context)
  power : ∀ m, m.Clear → Keeps m (N.parse .power) (n.parse .power m.context)
  unary : ∀ m, m.Clear → Keeps m (N.parse .unary) (n.parse .unary m.context)
  construct : ∀ m, m.Clear → Keeps m (N.parse .construct) (n.parse .construct m.context)
  pattern : ∀ m, m.Clear → Keeps m (N.parse .pattern) (n.parse .pattern m.context)
  element : ∀ m, m.Clear → Keeps m (N.parse .element) (n.parse .element m.context)
  statement : ∀ m, m.cover = false → (∀ start ∈ m.chain, start ≤ m.labels.length) →
    Follows m m.Leaves (N.parse .statement) (n.parse (.statement m.chain) m.context)
  item : ∀ m, m.Clear → Keeps m (N.parse .item) (n.parse .item m.context)

variable {N : Nesting} {n : Grammar.Nesting} {m : Marks}

namespace Nesting.Matches

variable (hn : N.Matches n) (hm : m.Clear)

include hn hm

theorem whole : Keeps m (N.parse .assignment) (n.parse (.assignment false) m.context) := by
  have h := hn.assignment m hm.chain
  rw [hm.takeCover, hm.cover] at h
  exact h

theorem cover : Follows { m with cover := true } (· = m) (N.parse .assignment)
    (n.parse (.assignment true) m.context) := by
  have h := hn.assignment { m with cover := true } hm.chain
  dsimp only at h
  rw [hm.takeCover] at h
  exact h

theorem plain : Keeps m (N.parse .statement) (n.parse (.statement none) m.context) := by
  have h := hn.statement m hm.cover (by rw [hm.chain]; exact nofun)
  rw [hm.chain] at h
  exact h.mono fun m' hm' => hm'.eq hm.chain

end Nesting.Matches

variable (hn : N.Matches n) (hm : m.Clear)

/-! ### Patterns -/

include hn hm

theorem keeps_propertyKey : Keeps m (propertyKey N) (Grammar.propertyKey n m.context) := by
  unfold propertyKey Grammar.propertyKey
  refine .step fun token => ?_
  split
  · have hkey := Follows.withIn (hn.whole hm.bracketed)
    refine .step fun _ => .attempt hkey (fun key m' hm' => ?_) fun e m' => .step fun _ => .fail
    rw [hm']
    exact .step fun _ => .done
  · exact .step fun _ => .done
  · exact .step fun _ => .done
  · exact .step fun _ => .done
  · exact .step fun _ => .done
  · exact .step fun _ => .done
  · exact .step fun _ => .done
  · exact .step fun _ => .step fun _ => .done
  · -- the token is none of those above, so the second rule fails as well
    exact .of_eq (by grind) .fail

theorem keeps_bindingElement {target : Reading Pattern} {target' : Parser Pattern}
    (ht : Keeps m target target') :
    Keeps m (bindingElement N target) (Grammar.bindingElement n m.context target') := by
  unfold bindingElement Grammar.bindingElement
  refine ht.bind fun p => .step fun eaten => .ite ?_ (.done)
  exact .bind (.withIn (hn.whole hm.bracketed)) fun value => .done

theorem keeps_arrayPatternElements (rounds : Nat) : Keeps m (arrayPatternElements N rounds)
    (Grammar.arrayPatternElements n m.context rounds) := by
  induction rounds with
  | zero => exact .fail
  | succ rounds ih =>
    unfold arrayPatternElements Grammar.arrayPatternElements
    refine .step fun closed => .ite (.done) ?_
    refine .step fun hole => .ite (ih.bind fun elements => .done) ?_
    refine .step fun isRest => .ite ((hn.pattern m hm).bind fun target => .done) ?_
    refine (hn.element m hm).bind fun element => .step fun _ => ?_
    exact ih.bind fun elements => .done

theorem keeps_patternProperty :
    Keeps m (patternProperty N) (Grammar.patternProperty n m.context) := by
  unfold patternProperty Grammar.patternProperty
  refine .step fun shorthand => (keeps_propertyKey hn hm).bind fun key => .step fun keyed => ?_
  refine .ite ((hn.element m hm).bind fun target => .done) ?_
  cases shorthand with
  | none => exact .fail
  | some name =>
    refine .step fun _ => .step fun assigned => .ite ?_ (.done)
    exact (hn.whole hm).bind fun value => .done

theorem keeps_bindingPattern : Keeps m (bindingPattern N) (Grammar.bindingPattern n m.context) := by
  unfold bindingPattern Grammar.bindingPattern
  rw [hn.rounds]
  refine .step fun name => ?_
  cases name with
  | some name => exact .step fun _ => .step fun _ => .done
  | none =>
    refine .step fun bracket => .ite ?_ (.step fun brace => .ite ?_ (.step fun _ => .fail))
    · exact (keeps_arrayPatternElements hn hm _).bind fun elements => .step fun _ => .done
    · refine (Follows.commaList (keeps_patternProperty hn hm) _).bind fun properties => ?_
      exact .step fun _ => .done

/-! ### Functions -/

omit hn hm in
/-- What stands behind an element of a list: a comma, or the closing sign. -/
theorem separate_bind {α : Type} (close : Punctuator) (f : Unit → Parser α) :
    (Parser.separate close >>= f) = (Parser.atSign .comma >>= fun found =>
      if found = true then Parser.advance >>= fun _ => f ()
      else Parser.atSign close >>= fun closed =>
        if closed = true then f ()
        else Parser.current >>= fun token => throw (.unexpectedToken token)) := by
  unfold Parser.separate
  rw [bind_assoc]
  refine congrArg _ (funext fun found => ?_)
  cases found with
  | true => rfl
  | false =>
    refine (bind_assoc ..).trans (congrArg _ (funext fun closed => ?_))
    cases closed with
    | true => exact pure_bind ..
    | false => rfl

theorem handsOver_parameterList (rounds : Nat) : HandsOver m (parameterList N rounds)
    (Grammar.parameterList n m.context rounds) := by
  induction rounds with
  | zero => exact .escape
  | succ rounds ih =>
    unfold parameterList Grammar.parameterList
    simp only [separate_bind]
    refine .step fun closed => .ite .pure (.step fun isRest => .ite ?_ ?_)
    · exact .bind (hn.pattern m hm) fun target => .pure
    refine .attempt (hn.element m hm) (fun parameter => ?_) fun e => rfl
    refine .step fun comma => .ite (.step fun _ => ih.map _) (.step fun last => .ite (ih.map _) ?_)
    exact .step fun token => .fail

theorem keeps_parameters : Keeps m (parameters N) (Grammar.parameters n m.context) := by
  unfold parameters Grammar.parameters
  rw [hn.rounds]
  refine .step fun _ => .marks (.mark ?_)
  refine (handsOver_parameterList hn hm.bracketed _).follows (fun list => ?_) fun e st => ?_
  · exact .mark (.step fun _ => .done)
  · exact ⟨{ st.marks with noIn := m.noIn }, rfl⟩

theorem keeps_directiveBody (close : Option Punctuator) (prologue : Bool) (rounds : Nat) :
    Keeps m (directiveBody N close prologue rounds)
      (Grammar.directiveBody n m.context close prologue rounds) := by
  induction rounds generalizing prologue with
  | zero => exact .fail
  | succ rounds ih =>
    unfold directiveBody Grammar.directiveBody
    refine .step fun token => .ite (.done) (.ite ?_ ?_)
    · cases close with
      | some sign => exact .fail
      | none => exact .done
    refine (hn.item m hm).bind fun first => .ite (.step fun _ => ?_) ?_
    · exact (ih _).bind fun others => .done
    · exact (ih _).bind fun others => .done

/-- A function body is read as it is read anywhere.  Where it begins, nothing is marked for the next
expression or statement only. -/
theorem keeps_functionBody {s : TokenStream} (hs : s.ahead = none) :
    FollowsAt s m (· = m) (functionBody N) (Grammar.functionBody n) := by
  have hrest : Keeps m (do
      Parser.expect .leftBrace
      let strict ← Parser.isStrict
      let body ← around Marks.functionBody
        (fun before m => { m with inFunction := m.inFunction - 1, inLoop := before.inLoop,
                                  inSwitch := before.inSwitch, labels := before.labels,
                                  noIn := before.noIn })
        (directiveBody N (some .rightBrace) true N.rounds)
      Parser.setStrict strict
      Parser.expect .rightBrace
      return body) (Grammar.functionBody n) := by
    unfold Grammar.functionBody
    rw [hn.rounds]
    refine .step fun _ => .step fun strict => .bind (.around (S := (· = m.functionBody)) ?_ ?_) ?_
    · exact keeps_directiveBody hn hm.functionBody _ _ _
    · exact fun m' hm' => by rw [hm']; rfl
    · exact fun body => .step fun _ => .step fun _ => .done
  exact fun bodies hbodies => hrest s _ (List.forall_mem_cons.mpr ⟨⟨hm, hs⟩, hbodies⟩)

omit hn hm in
theorem ahead_expect {sign : Punctuator} {s t : TokenStream} {u : Unit}
    (h : Parser.expect sign s = .ok u t) : t.ahead = none := by
  unfold Parser.expect at h
  rw [Grammar.atSign_bind] at h
  split at h
  · exact Grammar.ahead_advance h
  · cases h

theorem keeps_functionRest (name : Option String) (kind : FunctionKind) :
    Keeps m (functionRest N name kind) (Grammar.functionRest n m.context name kind) := by
  unfold functionRest Grammar.functionRest
  refine fun s => (keeps_parameters hn hm s).bind fun list m' t hm' hlist => ?_
  have hahead : t.ahead = none := by
    obtain ⟨_, _, -, hlist⟩ := Grammar.bind_eq_ok hlist
    obtain ⟨_, _, -, hlist⟩ := Grammar.bind_eq_ok hlist
    obtain ⟨_, _, hclose, hlist⟩ := Grammar.bind_eq_ok hlist
    cases hlist
    exact ahead_expect hclose
  rw [hm']
  refine (keeps_functionBody hn hm hahead).bind fun body m' t hm' _ => ?_
  rw [hm']
  exact Follows.lift _ t

theorem keeps_functionExpression :
    Keeps m (functionExpression N) (Grammar.functionExpression n m.context) := by
  unfold functionExpression Grammar.functionExpression
  refine .step fun _ => .step fun name => ?_
  cases name with
  | some name => exact .step fun _ => .step fun _ => keeps_functionRest hn hm _ _
  | none =>
    refine .step fun opened => .ite (keeps_functionRest hn hm _ _) ?_
    exact .step fun token => .fail

theorem keeps_functionDeclaration :
    Keeps m (functionDeclaration N) (Grammar.functionDeclaration n m.context) := by
  unfold functionDeclaration Grammar.functionDeclaration
  refine .step fun _ => .step fun name => ?_
  cases name with
  | some name => exact .step fun _ => .step fun _ => keeps_functionRest hn hm _ _
  | none => exact .fail

/-! ### Expressions -/

theorem keeps_arrowFunction (parameters : List Pattern) :
    Keeps m (arrowFunction N parameters) (Grammar.arrowFunction n m.context parameters) := by
  unfold arrowFunction Grammar.arrowFunction
  refine fun s => (Follows.lift _ s).bind fun _ m' t hm' hsign => ?_
  have hahead : t.ahead = none := ahead_expect hsign
  rw [hm']
  refine (Follows.lift _ t).bind fun braced m' u hm' hbraced => ?_
  cases hbraced
  rw [hm']
  split
  · refine (keeps_functionBody hn hm hahead).bind fun body m' t hm' _ => ?_
    have hdone : Keeps m (do
        return Expr.function (← Grammar.finishFunction none .arrow parameters body.1 body.2))
        (do return .function (← Grammar.finishFunction none .arrow parameters body.1 body.2)) :=
      .step fun d => .done
    rw [hm']
    exact hdone t
  · have hvalue : Keeps m (do
        let value ← N.parse .assignment
        return Expr.function
          (← Grammar.finishFunction none .arrow parameters [.returnStmt (some value)] false))
        (do
          let value ← n.parse (.assignment false) m.context
          return .function
            (← Grammar.finishFunction none .arrow parameters [.returnStmt (some value)] false)) :=
      (hn.whole hm).bind fun value => .step fun d => .done
    exact hvalue t

theorem keeps_parenthesizedElements (rounds : Nat) : Keeps m (parenthesizedElements N rounds)
    (Grammar.parenthesizedElements n m.context rounds) := by
  induction rounds with
  | zero => exact .fail
  | succ rounds ih =>
    unfold parenthesizedElements Grammar.parenthesizedElements
    refine .step fun closed => .ite (.done) (.step fun isRest => .ite ?_ (.mark ?_))
    · exact (hn.pattern m hm).bind fun target => .done
    refine (hn.cover hm).andThen fun first m' hm' => ?_
    rw [hm']
    exact .step fun _ => ih.bind fun found => .done

theorem keeps_parenthesized : Keeps m (parenthesized N) (Grammar.parenthesized n m.context) := by
  unfold parenthesized Grammar.parenthesized
  rw [hn.rounds]
  refine .step fun _ => (Follows.withIn (keeps_parenthesizedElements hn hm.bracketed _)).bind ?_
  rintro ⟨elements, rest⟩
  refine .step fun _ => .step fun arrow => .ite (.step fun strict => ?_) ?_
  · cases Grammar.toParameters strict elements rest with
    | ok list => exact keeps_arrowFunction hn hm list
    | error e => exact .fail
  · refine .ite .fail (.ite .fail ?_)
    rcases elements with - | ⟨first, - | ⟨second, others⟩⟩
    · exact .done
    · exact .done
    · exact .done

theorem keeps_arrayElement : Keeps m (arrayElement N) (Grammar.arrayElement n m.context) := by
  unfold arrayElement Grammar.arrayElement
  exact .step fun hole => .ite (.done) ((hn.whole hm).bind fun value => .done)

theorem keeps_objectProperty :
    Keeps m (objectProperty N) (Grammar.objectProperty n m.context) := by
  unfold objectProperty Grammar.objectProperty
  refine .step fun shorthand => (keeps_propertyKey hn hm).bind fun key => .step fun keyed => ?_
  refine .ite ((hn.whole hm).bind fun value => .done) (.step fun isMethod => .ite ?_ ?_)
  · exact (keeps_functionRest hn hm _ _).bind fun d => .done
  cases shorthand with
  | none => exact .step fun token => .fail
  | some name =>
    exact .step fun assigned => .ite ((hn.whole hm).bind fun cover => .done) (.done)

theorem keeps_nameOrArrow : Keeps m (nameOrArrow N) (Grammar.nameOrArrow n m.context) := by
  unfold nameOrArrow Grammar.nameOrArrow
  refine .step fun name => ?_
  cases name with
  | none => exact .step fun token => .fail
  | some name =>
    refine .step fun _ => .step fun arrow => .ite (.step fun _ => ?_) (.done)
    exact keeps_arrowFunction hn hm _

theorem keeps_primary : Keeps m (primary N) (Grammar.primary n m.context) := by
  unfold primary Grammar.primary
  rw [hn.rounds]
  refine .step fun token => ?_
  split
  · exact .step fun _ => .done
  · exact keeps_nameOrArrow hn hm
  · exact keeps_nameOrArrow hn hm
  · exact .step fun _ => .done
  · exact .step fun _ => .done
  · exact .step fun _ => .done
  · exact .step fun _ => .step fun _ => .done
  · exact .step fun _ => .done
  · exact keeps_parenthesized hn hm
  · refine .step fun _ => .bind (.withIn (.commaList (keeps_arrayElement hn hm.bracketed) _)) ?_
    exact fun elements => .step fun _ => .done
  · refine .step fun _ => .bind (.withIn (.commaList (keeps_objectProperty hn hm.bracketed) _)) ?_
    exact fun properties => .step fun _ => .done
  · exact (keeps_functionExpression hn hm).bind fun d => .done
  · exact .fail
  · exact .of_eq (by grind) .fail

theorem keeps_callArguments : Keeps m (callArguments N) (Grammar.callArguments n m.context) := by
  unfold callArguments Grammar.callArguments
  rw [hn.rounds]
  refine .step fun _ => .bind (.withIn (.commaList (hn.whole hm.bracketed) _)) fun list => ?_
  exact .step fun _ => .done

theorem keeps_others (rounds : Nat) : Keeps m (sequenceOf.others N rounds)
    (Grammar.sequenceOf.others n m.context rounds) := by
  induction rounds with
  | zero => exact .fail
  | succ rounds ih =>
    unfold sequenceOf.others Grammar.sequenceOf.others
    refine .step fun comma => .ite ?_ (.done)
    exact (hn.whole hm).bind fun next => ih.bind fun others => .done

theorem keeps_sequenceOf {first : Reading Expr} {first' : Parser Expr}
    (h : Keeps m first first') :
    Keeps m (sequenceOf N first) (Grammar.sequenceOf n m.context first') := by
  unfold sequenceOf Grammar.sequenceOf
  rw [hn.rounds]
  refine h.bind fun x => .step fun comma => .ite ?_ (.done)
  exact (keeps_others hn hm _).bind fun others => .done

theorem keeps_memberSuffixes (calls : Bool) (rounds : Nat) (object : Expr) :
    Keeps m (memberSuffixes N calls rounds object)
      (Grammar.memberSuffixes n m.context calls rounds object) := by
  induction rounds generalizing object with
  | zero => exact .fail
  | succ rounds ih =>
    unfold memberSuffixes Grammar.memberSuffixes
    refine .step fun dot => .ite (.step fun name => ih _) (.step fun bracket => .ite ?_ ?_)
    · have hkey := Follows.withIn (keeps_sequenceOf hn hm.bracketed (hn.whole hm.bracketed))
      exact hkey.bind fun key => .step fun _ => ih _
    · refine .step fun opened => .ite ?_ (.done)
      exact (keeps_callArguments hn hm).bind fun list => ih _

theorem keeps_construct : Keeps m (construct N) (Grammar.construct n m.context) := by
  unfold construct Grammar.construct
  rw [hn.rounds]
  have hrest (object : Expr) : Keeps m
      (memberSuffixes N false n.rounds object >>= fun callee => do
        if ← Parser.atSign .leftParen then return Expr.construct callee (← callArguments N)
        else return Expr.construct callee [])
      (Grammar.memberSuffixes n m.context false n.rounds object >>= fun callee => do
        if ← Parser.atSign .leftParen then
          return Expr.construct callee (← Grammar.callArguments n m.context)
        else return Expr.construct callee []) := by
    refine (keeps_memberSuffixes hn hm _ _ _).bind fun callee => .step fun opened => ?_
    exact .ite ((keeps_callArguments hn hm).bind fun list => .done) (.done)
  refine .step fun _ => .step fun nested => .ite ?_ ?_
  · exact (hn.construct m hm).bind hrest
  · exact (keeps_primary hn hm).bind hrest

theorem keeps_leftHandSide : Keeps m (leftHandSide N) (Grammar.leftHandSide n m.context) := by
  unfold leftHandSide Grammar.leftHandSide
  rw [hn.rounds]
  refine .step fun nested => .ite ?_ ?_
  · exact (keeps_construct hn hm).bind fun object => keeps_memberSuffixes hn hm _ _ _
  · exact (keeps_primary hn hm).bind fun object => keeps_memberSuffixes hn hm _ _ _

theorem keeps_postfixUpdate : Keeps m (postfixUpdate N) (Grammar.postfixUpdate n m.context) := by
  unfold postfixUpdate Grammar.postfixUpdate
  refine (keeps_leftHandSide hn hm).bind fun target => .step fun token => .step fun broken => ?_
  generalize (if broken = true then none else Grammar.updateOperator? token) = op
  cases op with
  | some op => exact .step fun _ => .step fun _ => .done
  | none => exact .done

theorem keeps_unary : Keeps m (unary N) (Grammar.unary n m.context) := by
  unfold unary Grammar.unary
  refine .step fun token => ?_
  cases Grammar.frontOperator? token with
  | none => exact keeps_postfixUpdate hn hm
  | some op =>
    refine .step fun _ => (hn.unary m hm).bind fun operand => ?_
    cases op with
    | convert op => exact .done
    | typeOf => exact .done
    | void => exact .done
    | update op => exact .step fun _ => .done
    | delete =>
      cases operand with
      | identifier name => exact .step fun strict => .ite .failed (.done)
      | _ => exact .done

theorem keeps_power : Keeps m (power N) (Grammar.power n m.context) := by
  unfold power Grammar.power
  refine .step fun token => (keeps_unary hn hm).bind fun base => .step fun raised => ?_
  refine .ite (.ite .failed (.step fun _ => ?_)) (.done)
  exact (hn.power m hm).bind fun exponent => .done

theorem keeps_binaryRest (strength rounds : Nat) (left : Expr) :
    Keeps m (binaryRest N strength rounds left)
      (Grammar.binaryRest n m.context strength rounds left) := by
  induction rounds generalizing left with
  | zero => exact .fail
  | succ rounds ih =>
    unfold binaryRest Grammar.binaryRest
    refine .marks (.step fun token => ?_)
    cases Grammar.binaryOperator? m.context token with
    | none => exact .done
    | some found =>
      refine .ite (.done) (.step fun _ => ?_)
      exact (hn.binary _ m hm).bind fun right => ih _

theorem keeps_binary (strength : Nat) :
    Keeps m (binary N strength) (Grammar.binary n m.context strength) := by
  unfold binary Grammar.binary
  rw [hn.rounds]
  exact (keeps_power hn hm).bind fun left => keeps_binaryRest hn hm _ _ _

omit hn hm in
theorem keeps_logicalRest (sign : Punctuator) (op : LogicalOp) {operand : Reading Expr}
    {operand' : Parser Expr} (ho : Keeps m operand operand') (rounds : Nat) (left : Expr) :
    Keeps m (logicalRest sign op operand rounds left)
      (Grammar.logicalRest sign op operand' rounds left) := by
  induction rounds generalizing left with
  | zero => exact .fail
  | succ rounds ih =>
    unfold logicalRest Grammar.logicalRest
    exact .step fun more => .ite (ho.bind fun right => ih _) (.done)

theorem keeps_conjunction : Keeps m (conjunction N) (Grammar.conjunction n m.context) := by
  unfold conjunction Grammar.conjunction
  rw [hn.rounds]
  have hoperand := keeps_binary hn hm 0
  exact hoperand.bind fun left => keeps_logicalRest _ _ hoperand _ _

theorem keeps_disjunction : Keeps m (disjunction N) (Grammar.disjunction n m.context) := by
  unfold disjunction Grammar.disjunction
  rw [hn.rounds]
  have hoperand := keeps_conjunction hn hm
  exact hoperand.bind fun left => keeps_logicalRest _ _ hoperand _ _

theorem keeps_coalescing : Keeps m (coalescing N) (Grammar.coalescing n m.context) := by
  unfold coalescing Grammar.coalescing
  rw [hn.rounds]
  have hoperand := keeps_disjunction hn hm
  exact hoperand.bind fun left => keeps_logicalRest _ _ hoperand _ _

theorem keeps_conditional : Keeps m (conditional N) (Grammar.conditional n m.context) := by
  unfold conditional Grammar.conditional
  refine (keeps_coalescing hn hm).bind fun test => .step fun asked => .ite ?_ (.done)
  refine .bind (.withIn (hn.whole hm.bracketed)) fun consequent => .step fun _ => ?_
  exact (hn.whole hm).bind fun alternate => .done

omit hm in
theorem follows_assignment (hchain : m.chain = none) :
    Follows m (· = { m with cover := false }) (assignment N)
      (Grammar.assignment n m.context m.cover) := by
  unfold assignment Grammar.assignment
  have hclear : Marks.Clear { m with cover := false } := ⟨hchain, rfl⟩
  refine .takeCover ((keeps_conditional hn hclear).bind fun left => .step fun token => ?_)
  cases Grammar.assignmentOperator? token with
  | none => exact .ite .failed (.done)
  | some op =>
    refine .ite .failed (.step fun _ => .step fun _ => ?_)
    exact (hn.whole hclear).bind fun value => .done

theorem keeps_expression : Keeps m (expression N) (Grammar.expression n m.context) := by
  unfold expression Grammar.expression
  have hfirst := follows_assignment hn hm.chain
  rw [hm.takeCover, hm.cover] at hfirst
  exact keeps_sequenceOf hn hm hfirst

end ProtoScript.Marked
