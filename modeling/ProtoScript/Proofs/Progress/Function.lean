import ProtoScript.Proofs.Progress
/-!
# Patterns and functions move forward
-/

namespace ProtoScript

/-! ### Patterns move forward -/

/-- An error of a computation in two steps is an error of one of them. -/
theorem ne_outOfFuel_of_bind {α β : Type} {p : Except SyntaxError α} {f : α → Except SyntaxError β}
    {e : SyntaxError} (h : (p >>= f) = .error e) (hp : ∀ e, p = .error e → e ≠ .outOfFuel)
    (hf : ∀ a e, f a = .error e → e ≠ .outOfFuel) : e ≠ .outOfFuel := by
  cases hr : p with
  | error e' =>
    rw [hr] at h
    cases h
    exact hp _ hr
  | ok a =>
    rw [hr] at h
    exact hf a e h

theorem ne_outOfFuel_of_map {α β : Type} {p : Except SyntaxError α} {f : α → β}
    {e : SyntaxError} (h : (do return f (← p)) = Except.error e)
    (hp : ∀ e, p = .error e → e ≠ .outOfFuel) : e ≠ .outOfFuel :=
  ne_outOfFuel_of_bind h hp fun _ _ h => by cases h

mutual

theorem Expr.toPattern_ne_outOfFuel {strict : Bool} (x : Expr) :
    ∀ e, x.toPattern strict = .error e → e ≠ .outOfFuel := by
  intro e h
  match x with
  | .identifier name =>
    unfold Expr.toPattern at h
    split at h <;> cases h
    exact nofun
  | .member base key => unfold Expr.toPattern at h; cases h
  | .assign none target value =>
    unfold Expr.toPattern at h
    exact ne_outOfFuel_of_map h (Expr.toPattern_ne_outOfFuel target)
  | .array elements =>
    unfold Expr.toPattern at h
    exact ne_outOfFuel_of_map h (Expr.toPatternElements_ne_outOfFuel elements)
  | .object properties =>
    unfold Expr.toPattern at h
    exact ne_outOfFuel_of_map h (Expr.toPatternProperties_ne_outOfFuel properties)
  | .assign (some _) _ _ | .literal _ | .this | .function _ | .unary _ _ | .binary _ _ _
  | .logical _ _ _ | .update _ _ _ | .conditional _ _ _ | .call _ _ | .construct _ _ | .typeOf _
  | .void _ | .delete _ | .sequence _ => unfold Expr.toPattern at h; cases h; exact nofun

theorem Expr.toPatternElements_ne_outOfFuel {strict : Bool} (elements : List (Option Expr)) :
    ∀ e, Expr.toPatternElements strict elements = .error e → e ≠ .outOfFuel := by
  intro e h
  match elements with
  | [] => unfold Expr.toPatternElements at h; cases h
  | none :: rest =>
    unfold Expr.toPatternElements at h
    exact ne_outOfFuel_of_map h (Expr.toPatternElements_ne_outOfFuel rest)
  | some x :: rest =>
    unfold Expr.toPatternElements at h
    refine ne_outOfFuel_of_bind h (Expr.toPattern_ne_outOfFuel x) fun target e h => ?_
    exact ne_outOfFuel_of_map h (Expr.toPatternElements_ne_outOfFuel rest)

theorem Expr.toPatternProperties_ne_outOfFuel {strict : Bool} (properties : List Property) :
    ∀ e, Expr.toPatternProperties strict properties = .error e → e ≠ .outOfFuel := by
  intro e h
  match properties with
  | [] => unfold Expr.toPatternProperties at h; cases h
  | p :: rest =>
    unfold Expr.toPatternProperties at h
    refine ne_outOfFuel_of_bind h (Property.toPattern_ne_outOfFuel p) fun target e h => ?_
    exact ne_outOfFuel_of_map h (Expr.toPatternProperties_ne_outOfFuel rest)

theorem Property.toPattern_ne_outOfFuel {strict : Bool} (p : Property) :
    ∀ e, p.toPattern strict = .error e → e ≠ .outOfFuel := by
  intro e h
  match p with
  | .shorthand name none => unfold Property.toPattern at h; cases h
  | .shorthand name (some cover) => unfold Property.toPattern at h; cases h
  | .keyed key value =>
    unfold Property.toPattern at h
    exact ne_outOfFuel_of_map h (Expr.toPattern_ne_outOfFuel value)

end

namespace Grammar

variable {r : Course} {n : Nesting} {more : Bool} {limit : Nat}

theorem looks_checkBinding (name : String) : Looks (checkBinding name) :=
  .bind .isStrict fun _ => .ite (.fail nofun) .pure

theorem looks_checkOctal : Looks checkOctal :=
  .bind .isStrict fun _ => .ite (.fail nofun) .pure

theorem takes_propertyKey (hn : n.Takes r limit) (c : Context) :
    Takes r more 1 (limit + 1) (propertyKey n c) := by
  unfold propertyKey
  refine .here (.current fun token => ?_)
  split
  · refine .take .advance fun _ => .attempt (hn.parse _ _ rfl).any (fun key => ?_) fun e he s => ?_
    · exact .keep Takes.expect.any fun _ => .pure
    · have hclose : Takes r false 1 (s.size + 1) (Parser.expect .rightBracket) := .expect
      have hexpect := hclose s nofun (Nat.lt_succ_self _)
      unfold Goes at hexpect
      simp only [Bind.bind, EStateM.bind]
      cases ht : Parser.expect .rightBracket s with
      | ok a t => exact ⟨e, t, rfl, he⟩
      | error e' t =>
        rw [ht] at hexpect
        exact ⟨e', t, rfl, hexpect⟩
  · exact .take .advance fun _ => .pure
  · exact .take .advance fun _ => .pure
  · exact .take .advance fun _ => .pure
  · exact .take .advance fun _ => .pure
  · exact .take .advance fun _ => .pure
  · exact .take .advance fun _ => .pure
  · exact .look looks_checkOctal fun _ => .take .advance fun _ => .pure
  · exact .fail nofun

theorem takes_bindingElement (hn : n.Takes r limit) (c : Context) {target : Parser Pattern}
    (ht : Takes r more 1 (limit + 1) target) :
    Takes r more 1 (limit + 1) (bindingElement n c target) := by
  unfold bindingElement
  refine .take ht fun target => .keep .eat_any fun found => .ite (fun _ => ?_) fun _ => .pure
  exact .keep (hn.parse _ _ rfl).any fun _ => .pure

theorem takes_arrayPatternElements (hn : n.Takes r limit) (c : Context) {rounds : Nat}
    (hrounds : limit ≤ rounds) : Takes r more 0 limit (arrayPatternElements n c rounds) := by
  induction rounds generalizing limit more with
  | zero =>
    obtain rfl := Nat.le_zero.mp hrounds
    exact .zero
  | succ rounds ih =>
    cases limit with
    | zero => exact .zero
    | succ limit =>
      have hnext : Takes r false 0 limit (arrayPatternElements n c rounds) :=
        ih (hn.le (Nat.le_succ _)) (Nat.le_of_succ_le_succ hrounds)
      unfold arrayPatternElements
      refine .atSign .pure (.eat (.keep hnext fun _ => .pure) ?_)
      refine .eat (.keep (hn.parse _ _ rfl).later fun _ => .pure) ?_
      refine .take (hn.parse _ _ rfl).here fun element => .keep .eat_any fun _ => ?_
      exact .keep hnext fun _ => .pure

theorem takes_patternProperty (hn : n.Takes r limit) (c : Context) :
    Takes r more 1 (limit + 1) (patternProperty n c) := by
  unfold patternProperty
  refine .look (fun _ => rfl) fun shorthand => .take (takes_propertyKey hn c) fun key => ?_
  refine .keep .eat_any fun keyed => .ite (fun _ => ?_) fun _ => ?_
  · exact .keep (hn.parse _ _ rfl).any fun _ => .pure
  cases shorthand with
  | none => exact .fail nofun
  | some name =>
    refine .look (looks_checkBinding name) fun _ => .keep .eat_any fun assigned => ?_
    exact .ite (fun _ => .keep (hn.parse _ _ rfl).any fun _ => .pure) fun _ => .pure

theorem takes_bindingPattern (hn : n.Takes r limit) (c : Context) :
    Takes r more 1 (limit + 1) (bindingPattern n c) := by
  unfold bindingPattern
  refine .here (.name (fun name => ?_) (.eat ?_ (.eat ?_ (.current fun token => .fail ?_))))
  · exact .look (looks_checkBinding name) fun _ => .take .advance fun _ => .pure
  · refine .keep (takes_arrayPatternElements hn c hn.rounds) fun elements => ?_
    exact .keep Takes.expect.any fun _ => .pure
  · refine .keep (.commaList hn.rounds fun limit' hlimit _ f hf => ?_) fun properties => ?_
    · exact .take (takes_patternProperty (hn.le (Nat.le_of_lt hlimit)) c) fun _ =>
        .keep .separate fun _ => hf _
    · exact .keep Takes.expect.any fun _ => .pure
  · exact nofun

end Grammar

/-! ### Functions move forward -/

namespace Grammar

variable {r : Course} {n : Nesting} {more : Bool} {limit : Nat}

theorem takes_parameterList (hn : n.Takes r limit) (c : Context) {rounds : Nat}
    (hrounds : limit ≤ rounds) : Takes r more 0 limit (parameterList n c rounds) := by
  induction rounds generalizing limit more with
  | zero =>
    obtain rfl := Nat.le_zero.mp hrounds
    exact .zero
  | succ rounds ih =>
    cases limit with
    | zero => exact .zero
    | succ limit =>
      unfold parameterList
      refine .atSign .pure (.eat (.keep (hn.parse _ _ rfl).later fun _ => .pure) ?_)
      refine .take (hn.parse _ _ rfl).here fun parameter => .keep .separate fun _ => ?_
      exact .keep (ih (hn.le (Nat.le_succ _)) (Nat.le_of_succ_le_succ hrounds)) fun _ => .pure

theorem takes_parameters (hn : n.Takes r limit) (c : Context) :
    Takes r more 1 (limit + 1) (parameters n c) := by
  unfold parameters
  refine .take .expect fun _ => .keep (takes_parameterList hn _ hn.rounds) fun list => ?_
  exact .keep Takes.expect.any fun _ => .pure

/-- How a rule ends that may have switched to strict mode: set back to the mode it started in, the
stream is one that the course leads to. -/
def Returns (r : Course) (limit : Nat) {α : Type} (p : Parser α) : Prop :=
  ∀ s : TokenStream, s.size < limit → match p s with
    | .ok _ t => t.size ≤ s.size ∧ r.Leads s { t with strict := s.strict }
    | .error e _ => e ≠ .outOfFuel

namespace Returns

variable {α β : Type}

theorem pure {a : α} : Returns r limit (pure a) := fun s _ => ⟨Nat.le_refl _, r.refl s⟩

theorem fail {e : SyntaxError} (h : e ≠ .outOfFuel) : Returns r limit (throw e : Parser α) :=
  fun _ _ => h

theorem map {p : Parser α} {f : α → β} (hp : Returns r limit p) :
    Returns r limit (p >>= fun a => Pure.pure (f a)) := by
  intro s hs
  have h := hp s hs
  simp only [Bind.bind, EStateM.bind]
  cases hr : p s with
  | ok a t =>
    rw [hr] at h
    exact h
  | error e t =>
    rw [hr] at h
    exact h

theorem take {p : Parser α} {f : α → Parser β} (hp : Takes r false 1 (limit + 1) p)
    (hf : ∀ a, Returns r limit (f a)) : Returns r (limit + 1) (p >>= f) := by
  intro s hs
  have h := hp s nofun hs
  unfold Goes at h
  simp only [Bind.bind, EStateM.bind]
  cases hr : p s with
  | error e t =>
    rw [hr] at h
    exact h
  | ok a t =>
    rw [hr] at h
    have hnext := hf a t (by omega)
    dsimp only
    cases hu : f a t with
    | error e u =>
      rw [hu] at hnext
      exact hnext
    | ok b u =>
      rw [hu] at hnext
      refine ⟨by have := h.1; have := hnext.1; omega, ?_⟩
      rw [← r.strict_eq h.2]
      exact r.trans h.2 hnext.2

theorem current {f : Token → Parser β} (hf : ∀ token, Returns r limit (f token)) :
    Returns r limit (Parser.current >>= f) :=
  fun s => hf s.current s

theorem ite {c : Prop} [Decidable c] {p q : Parser α} (hp : Returns r limit p)
    (hq : Returns r limit q) : Returns r limit (if c then p else q) := by
  split
  · exact hp
  · exact hq

theorem setStrict {f : Unit → Parser β} (hf : Returns r limit (f ())) :
    Returns r limit (Parser.setStrict true >>= f) := by
  intro s hs
  have h := hf { s with strict := true } hs
  change match f () { s with strict := true } with | .ok _ t => _ | .error e _ => _
  cases hr : f () { s with strict := true } with
  | ok a t =>
    rw [hr] at h
    exact ⟨h.1, r.restore h.2⟩
  | error e t =>
    rw [hr] at h
    exact h

end Returns

theorem returns_directiveBody (hn : n.Takes r limit) (c : Context) (close : Option Punctuator)
    (prologue : Bool) {rounds : Nat} (hrounds : limit ≤ rounds) :
    Returns r limit (directiveBody n c close prologue rounds) := by
  induction rounds generalizing limit prologue with
  | zero =>
    obtain rfl := Nat.le_zero.mp hrounds
    exact fun s hs => absurd hs (Nat.not_lt_zero _)
  | succ rounds ih =>
    cases limit with
    | zero => exact fun s hs => absurd hs (Nat.not_lt_zero _)
    | succ limit =>
      have hnext (prologue : Bool) : Returns r limit (directiveBody n c close prologue rounds) :=
        ih (hn.le (Nat.le_succ _)) prologue (Nat.le_of_succ_le_succ hrounds)
      unfold directiveBody
      refine .current fun token => .ite .pure (.ite ?_
        (.take (hn.parse _ _ rfl) fun statement => ?_))
      · cases close with
        | some sign => exact .fail nofun
        | none => exact .pure
      · exact .ite (.setStrict (.map (hnext _))) (.map (hnext _))

theorem takes_functionBody (hn : n.Takes r limit) :
    Takes r more 1 (limit + 1) (functionBody n) := by
  unfold functionBody
  refine .take .expect fun _ s _ hs => ?_
  have h := returns_directiveBody hn .functionBody (some .rightBrace) true hn.rounds s hs
  change Goes r 0 (directiveBody n .functionBody (some .rightBrace) true n.rounds >>= fun body =>
    Parser.setStrict s.strict >>= fun _ => Parser.expect .rightBrace >>= fun _ => pure body) s
  unfold Goes
  cases hr : directiveBody n .functionBody (some .rightBrace) true n.rounds s with
  | error e t =>
    rw [hr] at h
    simp only [Bind.bind, EStateM.bind, hr]
    exact h
  | ok body t =>
    rw [hr] at h
    have hclose : Takes r false 0 limit (Parser.expect .rightBrace >>= fun _ => pure body) :=
      .keep Takes.expect.any fun _ => .pure
    have hnext := hclose { t with strict := s.strict } nofun (Nat.lt_of_le_of_lt h.1 hs)
    unfold Goes at hnext
    rw [bind_of_ok hr, setStrict_bind]
    split
    · next heq =>
      rw [heq] at hnext
      exact ⟨Nat.le_trans hnext.1 h.1, r.trans h.2 hnext.2⟩
    · next heq =>
      rw [heq] at hnext
      exact hnext

theorem looks_finishFunction (name : Option String) (kind : FunctionKind)
    (parameters : List Pattern) (body : List Stmt) (ownStrict : Bool) :
    Looks (finishFunction name kind parameters body ownStrict) := by
  unfold finishFunction
  refine .bind .isStrict fun strict => ?_
  dsimp only
  refine .ite (.failed nofun) (.ite ?_ (.ite ?_ .pure))
  · split
    · exact .failed nofun
    · refine .ite ?_ .pure
      split
      · exact .failed nofun
      · exact .pure
  · split
    · exact .failed nofun
    · exact .pure

theorem takes_finishFunction (name : Option String) (kind : FunctionKind)
    (parameters : List Pattern) (body : List Stmt) (ownStrict : Bool) :
    Takes r more 0 limit (finishFunction name kind parameters body ownStrict) :=
  .of_looks (looks_finishFunction _ _ _ _ _)

theorem takes_functionRest (hn : n.Takes r limit) (c : Context) (name : Option String)
    (kind : FunctionKind) : Takes r more 1 (limit + 1) (functionRest n c name kind) := by
  unfold functionRest
  refine .take (takes_parameters hn c) fun list =>
    .keep (takes_functionBody hn).later fun body => ?_
  exact takes_finishFunction _ _ _ _ _

theorem takes_functionExpression (hn : n.Takes r limit) (c : Context) :
    Takes r more 1 (limit + 1) (functionExpression n c) := by
  unfold functionExpression
  refine .take .expectWord fun _ => .name (fun name => ?_) ?_
  · refine .look (looks_checkBinding name) fun _ => .keep .advance_any fun _ => ?_
    exact (takes_functionRest hn c _ _).later
  · exact .atSign (takes_functionRest hn c _ _).later (.current fun _ => .fail nofun)

theorem takes_functionDeclaration (hn : n.Takes r limit) (c : Context) :
    Takes r more 1 (limit + 1) (functionDeclaration n c) := by
  unfold functionDeclaration
  refine .take .expectWord fun _ => .name (fun name => ?_) (.fail nofun)
  refine .look (looks_checkBinding name) fun _ => .keep .advance_any fun _ => ?_
  exact (takes_functionRest hn c _ _).later

end Grammar

end ProtoScript
