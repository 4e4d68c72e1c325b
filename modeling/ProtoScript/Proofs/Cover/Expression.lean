import ProtoScript.Proofs.Cover.Function
/-!
# Expressions in two readings
-/

namespace ProtoScript.Grammar

variable {lax : Bool} {n m : Nesting}

/-! ### Between parentheses -/

theorem mapM_toPattern_erase (strict : Bool) (elements : List Expr) :
    (Expr.eraseAll elements).mapM (Expr.toPattern strict) =
      (elements.mapM (Expr.toPattern strict)).map Pattern.eraseAll := by
  induction elements with
  | nil => rfl
  | cons x rest ih =>
    simp only [Expr.eraseAll, List.mapM_cons, Expr.toPattern_erase, ih, map_bind_except,
      bind_map_except]
    rfl

def eraseElements (found : List Expr × Option Pattern) : List Expr × Option Pattern :=
  (Expr.eraseAll found.1, Pattern.eraseOption found.2)

theorem toParameters_erase (strict : Bool) (found : List Expr × Option Pattern) :
    toParameters strict (eraseElements found).1 (eraseElements found).2 =
      (toParameters strict found.1 found.2).map Pattern.eraseAll := by
  obtain ⟨elements, rest⟩ := found
  have hrest : (Pattern.eraseOption rest).toList.map Pattern.rest =
      Pattern.eraseAll (rest.toList.map Pattern.rest) := by cases rest <;> rfl
  unfold toParameters eraseElements
  simp only [mapM_toPattern_erase, map_bind_except, bind_map_except, any_isMember_eraseAll, hrest]
  refine congrArg _ (funext fun targets => ?_)
  split
  · rfl
  · simp only [pure, Except.pure, Except.map, eraseAll_append]

theorem toParameters_of_strict (strict : Bool) (found : List Expr × Option Pattern)
    (list : List Pattern) (h : toParameters true found.1 found.2 = .ok list) :
    toParameters strict found.1 found.2 = .ok list := by
  unfold toParameters at h ⊢
  refine bind_eq_ok_of h ?_ fun _ _ h => h
  generalize found.1 = elements
  induction elements with
  | nil => exact fun _ h => h
  | cons x rest ih =>
    intro targets h
    rw [List.mapM_cons] at h ⊢
    refine bind_eq_ok_of h (Expr.toPattern_of_strict strict x) fun target r h => ?_
    exact bind_eq_ok_of h ih fun _ _ h => h

def grouped : List Expr → Expr
  | [x] => x
  | xs => .sequence xs

theorem grouped_erase (xs : List Expr) : grouped (Expr.eraseAll xs) = (grouped xs).erase := by
  match xs with
  | [] => rfl
  | [x] => rfl
  | x :: y :: rest => rfl

theorem pure_grouped (xs : List Expr) :
    (match xs with
      | [x] => pure x
      | xs => pure (.sequence xs) : Parser Expr) = pure (grouped xs) := by
  match xs with
  | [] => rfl
  | [x] => rfl
  | x :: y :: rest => rfl

/-! ### The rules -/

theorem covers_checkAssignable {x y : Expr} (hxy : Same lax Expr.erase x y) :
    Covers lax (checkAssignable x) (checkAssignable y) Eq := by
  have heq : checkAssignable x = checkAssignable y :=
    hxy.read (f := checkAssignable) fun a b h => by
      rw [← checkAssignable_erase a, h, checkAssignable_erase]
  rw [heq]
  unfold checkAssignable
  split
  · exact .bind .isStrict fun _ _ hab => .check hab (.pure rfl)
  · exact .pure rfl
  · exact .fail

theorem covers_arrowFunction (h : n.Covers lax m) (c : Context) {ps qs : List Pattern}
    (hps : Same lax Pattern.eraseAll ps qs) :
    Covers lax (arrowFunction n c ps) (arrowFunction m c qs) (Same lax Expr.erase) := by
  unfold arrowFunction
  refine .andThen (.expect _) fun _ => .andThen (.atSign _) fun _ => .ite ?_ ?_
  · refine .bind (covers_functionBody h) fun body body' hbody => ?_
    refine .bind (covers_finishFunction _ _ hps hbody) fun f g hfg => .pure ?_
    exact hfg.congr fun _ _ h => by simp only [Expr.erase, h]
  · refine .bind (h.assignment _ _) fun x y hxy => ?_
    have hbody : SameBody lax ([.returnStmt (some x)], false) ([.returnStmt (some y)], false) := by
      refine ⟨hxy.congr (f := fun x => [Stmt.returnStmt (some x)]) fun _ _ h => ?_, rfl⟩
      simp only [Stmt.eraseAll, Stmt.erase, Expr.eraseOption, h]
    refine .bind (covers_finishFunction _ _ hps hbody) fun f g hfg => .pure ?_
    exact hfg.congr fun _ _ h => by simp only [Expr.erase, h]

theorem covers_atArrow : Covers lax atArrow atArrow Eq := by
  unfold atArrow
  exact .andThen (.atSign _) fun _ => .andThen .afterBreak fun _ => .pure rfl

theorem covers_parenthesizedElements (h : n.Covers lax m) (c : Context) {rounds rounds' : Nat}
    (hrounds : rounds ≤ rounds') : Covers lax (parenthesizedElements n c rounds)
      (parenthesizedElements m c rounds') (Same lax eraseElements) := by
  induction rounds generalizing rounds' with
  | zero => exact .exhausted
  | succ rounds ih =>
    cases rounds' with
    | zero => cases hrounds
    | succ rounds' =>
      unfold parenthesizedElements
      refine .andThen (.atSign _) fun _ => .ite (.pure (.refl _ _)) (.andThen (.eat _) fun _ => ?_)
      refine .ite (.bind (h.pattern _) fun a b hab => .pure ?_) ?_
      · refine hab.congr (f := fun p => (([] : List Expr), some p)) fun _ _ h => ?_
        simp only [eraseElements, Pattern.eraseOption, h]
      · refine .bind (h.assignment _ _) fun x y hxy => .andThen (.separate _) fun _ => ?_
        refine .bind (ih (Nat.le_of_succ_le_succ hrounds)) fun as bs has => .pure ?_
        refine hxy.congr₂ (f := fun x (found : List Expr × Option Pattern) =>
          (x :: found.1, found.2)) has fun _ _ _ _ h h' => ?_
        simp only [eraseElements, Prod.mk.injEq] at h' ⊢
        simp only [Expr.eraseAll, h, h', and_self]

theorem covers_parenthesized (h : n.Covers lax m) (c : Context) :
    Covers lax (parenthesized n c) (parenthesized m c) (Same lax Expr.erase) := by
  unfold parenthesized
  refine .andThen .advance fun _ => .bind (covers_parenthesizedElements h _ h.rounds) ?_
  intro found found' hfound
  have hrest : found.2.isSome = found'.2.isSome :=
    hfound.read (f := fun found => found.2.isSome) fun a b h => by
      have hsome (p : Option Pattern) : (Pattern.eraseOption p).isSome = p.isSome := by
        cases p <;> rfl
      rw [← hsome a.2, ← hsome b.2]
      exact congrArg (fun found => found.2.isSome) h
  have hempty : found.1.isEmpty = found'.1.isEmpty :=
    hfound.read (f := fun found => found.1.isEmpty) fun a b h => by
      rw [← isEmpty_eraseAll a.1, ← isEmpty_eraseAll b.1]
      exact congrArg (fun found => found.1.isEmpty) h
  have hcover : found.1.any hasCoverProperty = found'.1.any hasCoverProperty :=
    hfound.read (f := fun found => found.1.any hasCoverProperty) fun a b h => by
      rw [← any_hasCoverProperty_eraseAll a.1, ← any_hasCoverProperty_eraseAll b.1]
      exact congrArg (fun found => found.1.any hasCoverProperty) h
  refine .andThen (.expect _) fun _ => .andThen covers_atArrow fun arrow => .ite ?_ ?_
  · refine .bind .isStrict fun mode mode' hmode => ?_
    have hlist := Agrees.of_erase (f := fun strict (found : List Expr × Option Pattern) =>
      toParameters strict found.1 found.2) toParameters_erase toParameters_of_strict hfound hmode
    cases hr : toParameters mode found.1 found.2 with
    | ok list =>
      rw [hr] at hlist
      obtain ⟨list', hr', hlist⟩ := hlist
      rw [hr']
      exact covers_arrowFunction h c hlist
    | error e =>
      rw [hr] at hlist
      rcases hlist with rfl | hr'
      · exact .lost fun s => .throw e s
      · rw [hr']
        exact .fail
  rw [hrest, hempty, hcover]
  refine .ite .fail (.ite .fail ?_)
  have hdone : Covers lax (pure (grouped found.1)) (pure (grouped found'.1))
      (Same lax Expr.erase) := by
    refine .pure (hfound.congr (f := fun found => grouped found.1) fun a b h => ?_)
    rw [← grouped_erase, ← grouped_erase]
    exact congrArg (fun found => grouped found.1) h
  rw [← pure_grouped, ← pure_grouped] at hdone
  exact hdone

theorem covers_arrayElement (h : n.Covers lax m) (c : Context) :
    Covers lax (arrayElement n c) (arrayElement m c) (Same lax Expr.eraseOption) := by
  unfold arrayElement
  refine .andThen (.atSign _) fun _ => .ite (.pure (.refl _ _)) ?_
  refine .bind (h.assignment _ _) fun x y hxy => .pure (hxy.congr fun _ _ h => ?_)
  simp only [Expr.eraseOption, h]

theorem covers_arrayElements (h : n.Covers lax m) (c : Context) :
    Covers lax (Parser.commaList .rightBracket (arrayElement n c) n.rounds)
      (Parser.commaList .rightBracket (arrayElement m c) m.rounds)
      (Same lax Expr.eraseElements) := by
  refine .commaList _ (covers_arrayElement h c) (.refl _ _) (fun x y xs ys hxy hxs => ?_) h.rounds
  exact hxy.congr₂ hxs fun _ _ _ _ h h' => by simp only [eraseElements_cons, h, h']

theorem covers_objectProperty (h : n.Covers lax m) (c : Context) :
    Covers lax (objectProperty n c) (objectProperty m c) (Same lax Property.erase) := by
  unfold objectProperty
  refine .bind .currentName fun name name' hname => .bind (covers_propertyKey h c) fun k k' hk => ?_
  refine .andThen (.eat _) fun keyed => .ite ?_ (.andThen (.atSign _) fun _ => .ite ?_ ?_)
  · refine .bind (h.assignment _ _) fun x y hxy => .pure (hk.congr₂ hxy fun _ _ _ _ h h' => ?_)
    simp only [Property.erase, h, h']
  · have hmethod : methodName? k = methodName? k' :=
      hk.read (f := methodName?) fun a b h => by
        rw [← methodName?_erase a, h, methodName?_erase]
    rw [hmethod]
    refine .bind (covers_functionRest h c _ _) fun f g hfg => .pure ?_
    refine hk.congr₂ (f := fun key f => Property.keyed key (.function f)) hfg fun _ _ _ _ h h' => ?_
    simp only [Property.erase, Expr.erase, h, h']
  rcases hname with rfl | ⟨rfl, rfl⟩
  · cases name with
    | none => exact .andThen .current fun _ => .fail
    | some name =>
      refine .andThen (.eat _) fun assigned => .ite ?_ (.pure (.refl _ _))
      refine .bind (h.assignment _ _) fun x y hxy => .pure ?_
      refine hxy.congr (f := fun x => Property.shorthand name (some x)) fun _ _ h => ?_
      simp only [Property.erase, Expr.eraseOption, h]
  · exact .lost fun s => .after fun token t _ => .throw _ t

theorem covers_objectProperties (h : n.Covers lax m) (c : Context) :
    Covers lax (Parser.commaList .rightBrace (objectProperty n c) n.rounds)
      (Parser.commaList .rightBrace (objectProperty m c) m.rounds)
      (Same lax Property.eraseAll) := by
  refine .commaList _ (covers_objectProperty h c) (.refl _ _) (fun x y xs ys hxy hxs => ?_) h.rounds
  exact hxy.congr₂ hxs fun _ _ _ _ h h' => by simp only [Property.eraseAll, h, h']

theorem covers_nameOrArrow (h : n.Covers lax m) (c : Context) :
    Covers lax (nameOrArrow n c) (nameOrArrow m c) (Same lax Expr.erase) := by
  unfold nameOrArrow
  refine .name (fun name => ?_) fun s _ => .after fun token t _ => .throw _ t
  cases name with
  | none => exact .andThen .current fun _ => .fail
  | some name =>
    refine .andThen .advance fun _ => .andThen covers_atArrow fun arrow => ?_
    refine .ite (.andThen (covers_checkBinding name) fun _ => ?_) (.pure (.refl _ _))
    exact covers_arrowFunction h c (.refl _ _)

theorem covers_primary (h : n.Covers lax m) (c : Context) :
    Covers lax (primary n c) (primary m c) (Same lax Expr.erase) := by
  unfold primary
  refine .andThen .current fun token => ?_
  split
  · exact .andThen .advance fun _ => .pure (.refl _ _)
  · exact covers_nameOrArrow h c
  · exact covers_nameOrArrow h c
  · exact .andThen .advance fun _ => .pure (.refl _ _)
  · exact .andThen .advance fun _ => .pure (.refl _ _)
  · exact .andThen .advance fun _ => .pure (.refl _ _)
  · exact .andThen covers_checkOctal fun _ => .andThen .advance fun _ => .pure (.refl _ _)
  · exact .andThen .advance fun _ => .pure (.refl _ _)
  · exact covers_parenthesized h c
  · refine .andThen .advance fun _ => .bind (covers_arrayElements h _) fun xs ys hxs => ?_
    refine .andThen (.expect _) fun _ => .pure (hxs.congr fun _ _ h => ?_)
    simp only [Expr.erase, h]
  · refine .andThen .advance fun _ => .bind (covers_objectProperties h _) fun xs ys hxs => ?_
    refine .andThen (.expect _) fun _ => .pure (hxs.congr fun _ _ h => ?_)
    simp only [Expr.erase, h]
  · refine .bind (covers_functionExpression h c) fun f g hfg => .pure (hfg.congr fun _ _ h => ?_)
    simp only [Expr.erase, h]
  · exact .fail
  · exact .fail

theorem covers_callArguments (h : n.Covers lax m) (c : Context) :
    Covers lax (callArguments n c) (callArguments m c) (Same lax Expr.eraseAll) := by
  unfold callArguments
  refine .andThen (.expect _) fun _ => .bind (U := Same lax Expr.eraseAll) ?_ fun xs ys hxs => ?_
  · refine .commaList _ (h.assignment _ _) (.refl _ _) (fun x y xs ys hxy hxs => ?_) h.rounds
    exact hxy.congr₂ hxs fun _ _ _ _ h h' => by simp only [Expr.eraseAll, h, h']
  · exact .andThen (.expect _) fun _ => .pure hxs

theorem covers_memberName : Covers lax memberName memberName Eq := by
  unfold memberName
  refine .andThen .current fun token => ?_
  split
  · exact .andThen .advance fun _ => .pure rfl
  · exact .andThen .advance fun _ => .pure rfl
  · exact .andThen .advance fun _ => .pure rfl
  · exact .andThen .advance fun _ => .pure rfl
  · exact .fail

theorem covers_others (h : n.Covers lax m) (c : Context) {rounds rounds' : Nat}
    (hrounds : rounds ≤ rounds') : Covers lax (sequenceOf.others n c rounds)
      (sequenceOf.others m c rounds') (Same lax Expr.eraseAll) := by
  induction rounds generalizing rounds' with
  | zero => exact .exhausted
  | succ rounds ih =>
    cases rounds' with
    | zero => cases hrounds
    | succ rounds' =>
      unfold sequenceOf.others
      refine .andThen (.eat _) fun _ => .ite ?_ (.pure (.refl _ _))
      refine .bind (h.assignment _ _) fun x y hxy => ?_
      refine .bind (ih (Nat.le_of_succ_le_succ hrounds)) fun xs ys hxs => .pure ?_
      exact hxy.congr₂ hxs fun _ _ _ _ h h' => by simp only [Expr.eraseAll, h, h']

theorem covers_sequenceOf (h : n.Covers lax m) (c : Context) {p q : Parser Expr}
    (hp : Covers lax p q (Same lax Expr.erase)) :
    Covers lax (sequenceOf n c p) (sequenceOf m c q) (Same lax Expr.erase) := by
  unfold sequenceOf
  refine .bind hp fun x y hxy => .andThen (.atSign _) fun _ => .ite ?_ (.pure hxy)
  refine .bind (covers_others h c h.rounds) fun xs ys hxs => .pure ?_
  refine hxy.congr₂ (f := fun x xs => Expr.sequence (x :: xs)) hxs fun _ _ _ _ h h' => ?_
  simp only [Expr.erase, Expr.eraseAll, h, h']

theorem covers_memberSuffixes (h : n.Covers lax m) (c : Context) (calls : Bool)
    {rounds rounds' : Nat} (hrounds : rounds ≤ rounds') {x y : Expr}
    (hxy : Same lax Expr.erase x y) : Covers lax (memberSuffixes n c calls rounds x)
      (memberSuffixes m c calls rounds' y) (Same lax Expr.erase) := by
  induction rounds generalizing rounds' x y with
  | zero => exact .exhausted
  | succ rounds ih =>
    cases rounds' with
    | zero => cases hrounds
    | succ rounds' =>
      have hnext {x y : Expr} (hxy : Same lax Expr.erase x y) :=
        ih (Nat.le_of_succ_le_succ hrounds) hxy
      unfold memberSuffixes
      refine .andThen (.eat _) fun _ => .ite (.andThen covers_memberName fun name => hnext ?_) ?_
      · refine hxy.congr (f := fun x => Expr.member x (.dot name)) fun _ _ h => ?_
        simp only [Expr.erase, h]
      refine .andThen (.eat _) fun _ => .ite ?_ (.andThen (.atSign _) fun _ => .ite ?_ (.pure hxy))
      · refine .bind (covers_sequenceOf h _ (h.assignment _ _)) fun k k' hk => ?_
        refine .andThen (.expect _) fun _ => hnext ?_
        refine hxy.congr₂ (f := fun x key => Expr.member x (.computed key)) hk
          fun _ _ _ _ h h' => ?_
        simp only [Expr.erase, MemberKey.erase, h, h']
      · refine .bind (covers_callArguments h c) fun xs ys hxs => hnext ?_
        exact hxy.congr₂ hxs fun _ _ _ _ h h' => by simp only [Expr.erase, h, h']

theorem covers_construct (h : n.Covers lax m) (c : Context) :
    Covers lax (construct n c) (construct m c) (Same lax Expr.erase) := by
  unfold construct
  have hrest (x y : Expr) (hxy : Same lax Expr.erase x y) : Covers lax
      (memberSuffixes n c false n.rounds x >>= fun callee => do
        if ← Parser.atSign .leftParen then return Expr.construct callee (← callArguments n c)
        else return Expr.construct callee [])
      (memberSuffixes m c false m.rounds y >>= fun callee => do
        if ← Parser.atSign .leftParen then return Expr.construct callee (← callArguments m c)
        else return Expr.construct callee []) (Same lax Expr.erase) := by
    refine .bind (covers_memberSuffixes h c false h.rounds hxy) fun x y hxy => ?_
    refine .andThen (.atSign _) fun _ => .ite ?_ (.pure ?_)
    · refine .bind (covers_callArguments h c) fun xs ys hxs => .pure ?_
      exact hxy.congr₂ hxs fun _ _ _ _ h h' => by simp only [Expr.erase, h, h']
    · refine hxy.congr (f := fun x => Expr.construct x []) fun _ _ h => ?_
      simp only [Expr.erase, h]
  refine .andThen .advance fun _ => .andThen (.atWord _) fun _ => .ite ?_ ?_
  · exact .bind (h.construct _) hrest
  · exact .bind (covers_primary h c) hrest

theorem covers_leftHandSide (h : n.Covers lax m) (c : Context) :
    Covers lax (leftHandSide n c) (leftHandSide m c) (Same lax Expr.erase) := by
  unfold leftHandSide
  refine .andThen (.atWord _) fun _ => .ite ?_ ?_
  · exact .bind (covers_construct h c) fun x y hxy => covers_memberSuffixes h c true h.rounds hxy
  · exact .bind (covers_primary h c) fun x y hxy => covers_memberSuffixes h c true h.rounds hxy

theorem covers_postfixUpdate (h : n.Covers lax m) (c : Context) :
    Covers lax (postfixUpdate n c) (postfixUpdate m c) (Same lax Expr.erase) := by
  unfold postfixUpdate
  refine .bind (covers_leftHandSide h c) fun x y hxy => .andThen .current fun token => ?_
  refine .andThen .afterBreak fun broken => ?_
  split
  · refine .andThen (covers_checkAssignable hxy) fun _ => .andThen .advance fun _ => .pure ?_
    exact hxy.congr fun _ _ h => by simp only [Expr.erase, h]
  · exact .pure hxy

theorem covers_delete {x y : Expr} (hxy : Same lax Expr.erase x y) :
    Covers lax (do
        match x with
        | .identifier _ => if ← Parser.isStrict then throw .strictDelete
        | _ => pure ()
        return Expr.delete x)
      (do
        match y with
        | .identifier _ => if ← Parser.isStrict then throw .strictDelete
        | _ => pure ()
        return Expr.delete y) (Same lax Expr.erase) := by
  have hname (name : String) : x = .identifier name ↔ y = .identifier name := by
    cases lax with
    | false => rw [show x = y from hxy]
    | true => rw [← erase_eq_identifier, show x.erase = y.erase from hxy, erase_eq_identifier]
  have hdone : Same lax Expr.erase (.delete x) (.delete y) :=
    hxy.congr fun _ _ h => by simp only [Expr.erase, h]
  dsimp only
  split
  · next name =>
    obtain rfl : y = .identifier name := (hname name).mp rfl
    refine .bind .isStrict fun mode mode' hmode => ?_
    rcases hmode.cases with rfl | ⟨rfl, rfl, rfl⟩
    · exact .ite .failed (.pure (.refl _ _))
    · exact .lost fun s => .bind (.throw _ s) _
  · next hx =>
    split
    · next name => exact absurd ((hname name).mpr rfl) (hx name)
    · exact .pure hdone

theorem covers_unary (h : n.Covers lax m) (c : Context) :
    Covers lax (unary n c) (unary m c) (Same lax Expr.erase) := by
  unfold unary
  refine .andThen .current fun token => ?_
  split
  · exact covers_postfixUpdate h c
  next op _ =>
  refine .andThen .advance fun _ => .bind (h.unary _) fun x y hxy => ?_
  split
  · exact .pure (hxy.congr fun _ _ h => by simp only [Expr.erase, h])
  · exact .pure (hxy.congr fun _ _ h => by simp only [Expr.erase, h])
  · exact .pure (hxy.congr fun _ _ h => by simp only [Expr.erase, h])
  · refine .andThen (covers_checkAssignable hxy) fun _ => .pure ?_
    exact hxy.congr fun _ _ h => by simp only [Expr.erase, h]
  · exact covers_delete hxy

theorem covers_power (h : n.Covers lax m) (c : Context) :
    Covers lax (power n c) (power m c) (Same lax Expr.erase) := by
  unfold power
  refine .andThen .current fun token => .bind (covers_unary h c) fun x y hxy => ?_
  refine .andThen (.atSign _) fun _ => .ite (.ite .failed ?_) (.pure hxy)
  refine .andThen .advance fun _ => .bind (h.power _) fun x' y' hxy' => .pure ?_
  exact hxy.congr₂ hxy' fun _ _ _ _ h h' => by simp only [Expr.erase, h, h']

theorem covers_binaryRest (h : n.Covers lax m) (c : Context) (strength : Nat) {rounds rounds' : Nat}
    (hrounds : rounds ≤ rounds') {x y : Expr} (hxy : Same lax Expr.erase x y) :
    Covers lax (binaryRest n c strength rounds x) (binaryRest m c strength rounds' y)
      (Same lax Expr.erase) := by
  induction rounds generalizing rounds' x y with
  | zero => exact .exhausted
  | succ rounds ih =>
    cases rounds' with
    | zero => cases hrounds
    | succ rounds' =>
      unfold binaryRest
      refine .andThen .current fun token => ?_
      split
      · exact .pure hxy
      · refine .ite (.pure hxy) (.andThen .advance fun _ =>
          .bind (h.binary _ _) fun x' y' hxy' => ?_)
        refine ih (Nat.le_of_succ_le_succ hrounds) ?_
        exact hxy.congr₂ hxy' fun _ _ _ _ h h' => by simp only [Expr.erase, h, h']

theorem covers_binary (h : n.Covers lax m) (c : Context) (strength : Nat) :
    Covers lax (binary n c strength) (binary m c strength) (Same lax Expr.erase) := by
  unfold binary
  exact .bind (covers_power h c) fun x y hxy => covers_binaryRest h c strength h.rounds hxy

theorem covers_logicalRest (sign : Punctuator) (op : LogicalOp) {p q : Parser Expr}
    (hp : Covers lax p q (Same lax Expr.erase)) {rounds rounds' : Nat} (hrounds : rounds ≤ rounds')
    {x y : Expr} (hxy : Same lax Expr.erase x y) : Covers lax (logicalRest sign op p rounds x)
      (logicalRest sign op q rounds' y) (Same lax Expr.erase) := by
  induction rounds generalizing rounds' x y with
  | zero => exact .exhausted
  | succ rounds ih =>
    cases rounds' with
    | zero => cases hrounds
    | succ rounds' =>
      unfold logicalRest
      refine .andThen (.eat _) fun _ => .ite (.bind hp fun x' y' hxy' => ?_) (.pure hxy)
      refine ih (Nat.le_of_succ_le_succ hrounds) ?_
      exact hxy.congr₂ hxy' fun _ _ _ _ h h' => by simp only [Expr.erase, h, h']

theorem covers_conjunction (h : n.Covers lax m) (c : Context) :
    Covers lax (conjunction n c) (conjunction m c) (Same lax Expr.erase) := by
  unfold conjunction
  exact .bind (covers_binary h c 0) fun x y hxy =>
    covers_logicalRest _ _ (covers_binary h c 0) h.rounds hxy

theorem covers_disjunction (h : n.Covers lax m) (c : Context) :
    Covers lax (disjunction n c) (disjunction m c) (Same lax Expr.erase) := by
  unfold disjunction
  exact .bind (covers_conjunction h c) fun x y hxy =>
    covers_logicalRest _ _ (covers_conjunction h c) h.rounds hxy

theorem covers_coalescing (h : n.Covers lax m) (c : Context) :
    Covers lax (coalescing n c) (coalescing m c) (Same lax Expr.erase) := by
  unfold coalescing
  exact .bind (covers_disjunction h c) fun x y hxy =>
    covers_logicalRest _ _ (covers_disjunction h c) h.rounds hxy

theorem covers_conditional (h : n.Covers lax m) (c : Context) :
    Covers lax (conditional n c) (conditional m c) (Same lax Expr.erase) := by
  unfold conditional
  refine .bind (covers_coalescing h c) fun x y hxy => .andThen (.eat _) fun _ => .ite ?_ (.pure hxy)
  refine .bind (h.assignment _ _) fun x' y' hxy' => .andThen (.expect _) fun _ => ?_
  refine .bind (h.assignment _ _) fun x'' y'' hxy'' => .pure ?_
  exact hxy.congr₃ hxy' hxy'' fun _ _ _ _ _ _ h h' h'' => by simp only [Expr.erase, h, h', h'']

theorem covers_assignment (h : n.Covers lax m) (c : Context) (cover : Bool) :
    Covers lax (assignment n c cover) (assignment m c cover) (Same lax Expr.erase) := by
  unfold assignment
  refine .bind (covers_conditional h c) fun x y hxy => .andThen .current fun token => ?_
  have hcover : hasCoverProperty x = hasCoverProperty y :=
    hxy.read (f := hasCoverProperty) fun a b h => by
      rw [← hasCoverProperty_erase a, h, hasCoverProperty_erase]
  have hliteral : isLiteralPattern x = isLiteralPattern y :=
    hxy.read (f := isLiteralPattern) fun a b h => by
      rw [← isLiteralPattern_erase a, h, isLiteralPattern_erase]
  rw [hcover, hliteral]
  split
  · exact .ite .failed (.pure hxy)
  · refine .ite .failed (.andThen (covers_checkAssignable hxy) fun _ =>
      .andThen .advance fun _ => ?_)
    refine .bind (h.assignment _ _) fun x' y' hxy' => .pure ?_
    exact hxy.congr₂ hxy' fun _ _ _ _ h h' => by simp only [Expr.erase, h, h']

theorem covers_expression (h : n.Covers lax m) (c : Context) :
    Covers lax (expression n c) (expression m c) (Same lax Expr.erase) := by
  unfold expression
  exact covers_sequenceOf h c (covers_assignment h c false)

/-! ### No expression starts with a barred name -/

namespace Barred

variable {s : TokenStream}

theorem atWord {β : Type} (h : Barred s) {word : Keyword} (hword : word ≠ .letWord)
    (f : Bool → Parser β) : (Parser.atWord word >>= f) s = f false s := by
  rw [atWord_bind]
  rcases h.isName with ⟨name, hname⟩ | hlet
  · rw [hname]
    rfl
  · rw [hlet]
    exact congrArg (f · s) (by simpa [Token.word?] using Ne.symm hword)

theorem frontOperator? (h : Barred s) : Grammar.frontOperator? s.current = none := by
  rcases h.isName with ⟨name, hname⟩ | hlet
  · rw [hname]
    rfl
  · rw [hlet]
    rfl

theorem fails_nameOrArrow (h : Barred s) (n : Nesting) (c : Context) :
    Fails (nameOrArrow n c) s := by
  intro x t ht
  unfold nameOrArrow at ht
  rw [currentName?_bind, h.strict, h.reserved] at ht
  exact Fails.throw (.reservedWord s.current) s x t ht

theorem fails_primary (h : Barred s) (n : Nesting) (c : Context) : Fails (primary n c) s := by
  have hprimary : primary n c s = nameOrArrow n c s := by
    unfold primary
    rw [current_bind]
    rcases h.isName with ⟨name, hname⟩ | hlet
    · rw [hname]
    · rw [hlet]
  intro x t ht
  exact h.fails_nameOrArrow n c x t (hprimary.symm.trans ht)

theorem fails_leftHandSide (h : Barred s) (n : Nesting) (c : Context) :
    Fails (leftHandSide n c) s := by
  unfold leftHandSide
  intro x t ht
  rw [h.atWord (by decide)] at ht
  exact (h.fails_primary n c).bind _ x t ht

theorem fails_unary (h : Barred s) (n : Nesting) (c : Context) : Fails (unary n c) s := by
  unfold unary
  intro x t ht
  rw [current_bind, h.frontOperator?] at ht
  exact (h.fails_leftHandSide n c).bind _ x t ht

theorem fails_binary (h : Barred s) (n : Nesting) (c : Context) (strength : Nat) :
    Fails (binary n c strength) s := by
  have hpower : Fails (power n c) s := .after fun token t ht => by
    cases ht
    exact (h.fails_unary n c).bind _
  exact hpower.bind _

/-- An expression does not start with a name that strict code reserves. -/
theorem fails_expression (h : Barred s) (n : Nesting) (c : Context) :
    Fails (expression n c) s :=
  .bind (.bind (.bind (.bind (.bind (.bind (h.fails_binary n c 0) _) _) _) _) _) _

end Barred

end ProtoScript.Grammar
