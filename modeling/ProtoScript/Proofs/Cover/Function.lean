import ProtoScript.Proofs.Cover
/-!
# Patterns and functions in two readings
-/

namespace ProtoScript

/-! ### Patterns in two readings -/

variable {lax : Bool}

/-- How two checks of a tree end: the second one as the first, or in any way where the readings are
lax and the first one fails. -/
def Agrees {ε α β : Type} (lax : Bool) (V : α → β → Prop) : Except ε α → Except ε β → Prop
  | .ok a, second => ∃ b, second = .ok b ∧ V a b
  | .error e, second => lax = true ∨ second = .error e

/-- A check that passes in either mode what it passes in strict mode, and that sees no marks of
strict mode in a tree. -/
theorem Agrees.of_erase {ε α β : Type} {view : α → α} {view' : β → β} {f : Bool → α → Except ε β}
    (hview : ∀ strict a, f strict (view a) = (f strict a).map view')
    (hstrict : ∀ strict a r, f true a = .ok r → f strict a = .ok r) {a b : α}
    (hab : Same lax view a b) {mode mode' : Bool} (hmode : Grammar.Modes lax mode mode') :
    Agrees lax (Same lax view') (f mode a) (f mode' b) := by
  cases lax with
  | false =>
    obtain rfl : a = b := hab
    obtain rfl : mode = mode' := hmode
    cases f mode a with
    | ok r => exact ⟨r, rfl, rfl⟩
    | error e => exact .inr rfl
  | true =>
    obtain rfl : mode = true := hmode
    have hab' : view a = view b := hab
    cases hr : f true a with
    | error e => exact .inl rfl
    | ok r =>
      have hb : (f mode' b).map view' = .ok (view' r) := by
        rw [← hview, ← hab', hview, hstrict mode' a r hr]
        rfl
      cases hr' : f mode' b with
      | error e =>
        rw [hr'] at hb
        cases hb
      | ok r' =>
        rw [hr'] at hb
        exact ⟨r', rfl, (Except.ok.inj hb).symm⟩

/-! ### Expressions read again as patterns -/

section ToPattern

variable {ε α β α' β' : Type}

theorem map_bind_except {x : Except ε α} {f : α → Except ε β} {view : β → β'} :
    (x >>= f).map view = x >>= fun a => (f a).map view := by
  cases x <;> rfl

theorem bind_map_except {x : Except ε α} {view : α → α'} {f : α' → Except ε β} :
    x.map view >>= f = x >>= fun a => f (view a) := by
  cases x <;> rfl

theorem bind_eq_ok_of {x y : Except ε α} {f g : α → Except ε β} {r : β} (h : x >>= f = .ok r)
    (hx : ∀ a, x = .ok a → y = .ok a) (hf : ∀ a r, f a = .ok r → g a = .ok r) :
    y >>= g = .ok r := by
  cases hx' : x with
  | error e =>
    rw [hx'] at h
    cases h
  | ok a =>
    rw [hx'] at h
    rw [hx a hx']
    exact hf a r h

end ToPattern

mutual

theorem Expr.toPattern_erase (strict : Bool) (x : Expr) :
    x.erase.toPattern strict = (x.toPattern strict).map Pattern.erase := by
  match x with
  | .identifier name =>
    simp only [Expr.erase, Expr.toPattern]
    split <;> rfl
  | .assign none target value =>
    simp only [Expr.erase, Expr.toPattern, Expr.toPattern_erase strict target, map_bind_except,
      bind_map_except]
    rfl
  | .array elements =>
    simp only [Expr.erase, Expr.toPattern, Expr.toPatternElements_erase strict elements,
      map_bind_except, bind_map_except]
    rfl
  | .object properties =>
    simp only [Expr.erase, Expr.toPattern, Expr.toPatternProperties_erase strict properties,
      map_bind_except, bind_map_except]
    rfl
  | .assign (some _) _ _ | .member _ _ | .literal _ | .this | .function _ | .unary _ _
  | .binary _ _ _ | .logical _ _ _ | .update _ _ _ | .conditional _ _ _ | .call _ _
  | .construct _ _ | .typeOf _ | .void _ | .delete _ | .sequence _ =>
    simp only [Expr.erase, Expr.toPattern]; rfl

theorem Expr.toPatternElements_erase (strict : Bool) (elements : List (Option Expr)) :
    Expr.toPatternElements strict (Expr.eraseElements elements) =
      (Expr.toPatternElements strict elements).map Pattern.eraseElements := by
  match elements with
  | [] => rfl
  | none :: rest =>
    simp only [Expr.eraseElements, Expr.toPatternElements,
      Expr.toPatternElements_erase strict rest, map_bind_except, bind_map_except]
    rfl
  | some x :: rest =>
    simp only [Expr.eraseElements, Expr.toPatternElements, Expr.toPattern_erase strict x,
      Expr.toPatternElements_erase strict rest, map_bind_except, bind_map_except]
    rfl

theorem Expr.toPatternProperties_erase (strict : Bool) (properties : List Property) :
    Expr.toPatternProperties strict (Property.eraseAll properties) =
      (Expr.toPatternProperties strict properties).map PatternProperty.eraseAll := by
  match properties with
  | [] => rfl
  | p :: rest =>
    simp only [Property.eraseAll, Expr.toPatternProperties, Property.toPattern_erase strict p,
      Expr.toPatternProperties_erase strict rest, map_bind_except, bind_map_except]
    rfl

theorem Property.toPattern_erase (strict : Bool) (p : Property) :
    p.erase.toPattern strict = (p.toPattern strict).map PatternProperty.erase := by
  match p with
  | .shorthand name none => rfl
  | .shorthand name (some cover) => rfl
  | .keyed key value =>
    simp only [Property.erase, Property.toPattern, Expr.toPattern_erase strict value,
      map_bind_except, bind_map_except]
    rfl

end

mutual

theorem Expr.toPattern_of_strict (strict : Bool) (x : Expr) (p : Pattern)
    (h : x.toPattern true = .ok p) : x.toPattern strict = .ok p := by
  match x with
  | .identifier name =>
    simp only [Expr.toPattern] at h ⊢
    split at h
    · cases h
    · next hn => rw [if_neg (by cases strict <;> simp_all)]; exact h
  | .member object key => simpa only [Expr.toPattern] using h
  | .assign none target value =>
    simp only [Expr.toPattern] at h ⊢
    exact bind_eq_ok_of h (Expr.toPattern_of_strict strict target) fun _ _ h => h
  | .array elements =>
    simp only [Expr.toPattern] at h ⊢
    exact bind_eq_ok_of h (Expr.toPatternElements_of_strict strict elements) fun _ _ h => h
  | .object properties =>
    simp only [Expr.toPattern] at h ⊢
    exact bind_eq_ok_of h (Expr.toPatternProperties_of_strict strict properties) fun _ _ h => h
  | .assign (some _) _ _ | .literal _ | .this | .function _ | .unary _ _ | .binary _ _ _
  | .logical _ _ _ | .update _ _ _ | .conditional _ _ _ | .call _ _ | .construct _ _ | .typeOf _
  | .void _ | .delete _ | .sequence _ => simp only [Expr.toPattern] at h; cases h

theorem Expr.toPatternElements_of_strict (strict : Bool) (elements : List (Option Expr))
    (targets : List (Option Pattern)) (h : Expr.toPatternElements true elements = .ok targets) :
    Expr.toPatternElements strict elements = .ok targets := by
  match elements with
  | [] => exact h
  | none :: rest =>
    simp only [Expr.toPatternElements] at h ⊢
    exact bind_eq_ok_of h (Expr.toPatternElements_of_strict strict rest) fun _ _ h => h
  | some x :: rest =>
    simp only [Expr.toPatternElements] at h ⊢
    refine bind_eq_ok_of h (Expr.toPattern_of_strict strict x) fun target r h => ?_
    exact bind_eq_ok_of h (Expr.toPatternElements_of_strict strict rest) fun _ _ h => h

theorem Expr.toPatternProperties_of_strict (strict : Bool) (properties : List Property)
    (targets : List PatternProperty) (h : Expr.toPatternProperties true properties = .ok targets) :
    Expr.toPatternProperties strict properties = .ok targets := by
  match properties with
  | [] => exact h
  | p :: rest =>
    simp only [Expr.toPatternProperties] at h ⊢
    refine bind_eq_ok_of h (Property.toPattern_of_strict strict p) fun target r h => ?_
    exact bind_eq_ok_of h (Expr.toPatternProperties_of_strict strict rest) fun _ _ h => h

theorem Property.toPattern_of_strict (strict : Bool) (p : Property) (target : PatternProperty)
    (h : p.toPattern true = .ok target) : p.toPattern strict = .ok target := by
  match p with
  | .shorthand name none => exact h
  | .shorthand name (some cover) => exact h
  | .keyed key value =>
    simp only [Property.toPattern] at h ⊢
    exact bind_eq_ok_of h (Expr.toPattern_of_strict strict value) fun _ _ h => h

end

namespace Grammar

variable {n m : Nesting} {γ δ : Type} {V : γ → δ → Prop}

/-! ### Names -/

theorem isReserved_of_sloppy {word : String} (h : isReserved word false = true) :
    isReserved word true = true := by
  unfold isReserved at h ⊢
  cases hk : Keyword.ofString? word with
  | some k => simp
  | none =>
    rw [hk] at h
    simp only [Option.any_none, Bool.false_or, Bool.false_and, Bool.or_false] at h ⊢
    rw [h, Bool.true_or]

theorem nameOfToken?_of_strict {t : Token} {name : String} (h : nameOfToken? true t = some name) :
    nameOfToken? false t = some name := by
  unfold nameOfToken? at h ⊢
  split
  · next word =>
    simp only at h
    split at h
    · cases h
    · next hreserved =>
      rw [if_neg fun hr => hreserved (isReserved_of_sloppy hr)]
      exact h
  · simp at h
  · simp_all

theorem isName_of_nameOfToken? {strict : Bool} {t : Token} {name : String}
    (h : nameOfToken? strict t = some name) : t.IsName := by
  unfold nameOfToken? at h
  split at h
  · exact .inl ⟨_, rfl⟩
  · exact .inr rfl
  · cases h

theorem Covers.currentName : Covers lax currentName? currentName?
    fun a b => a = b ∨ lax = true ∧ a = none := by
  intro s t hst
  refine ⟨nameOfToken? t.strict t.current, t, rfl, ?_, hst⟩
  rw [hst.current]
  rcases hst.strict.cases with hmode | ⟨hlax, hs, ht⟩
  · rw [hmode]
    exact .inl rfl
  · rw [hs, ht]
    cases hname : nameOfToken? true t.current with
    | none => exact .inr ⟨hlax, rfl⟩
    | some name => exact .inl (nameOfToken?_of_strict hname).symm

structure Barred (s : TokenStream) : Prop where
  strict : s.strict = true
  isName : s.current.IsName
  reserved : nameOfToken? true s.current = none

/-- The current token as a name.  Strict code has to fail where the token is a name in sloppy code
alone. -/
theorem Meets.name {f : Option String → Parser γ} {g : Option String → Parser δ}
    {s t : TokenStream} (hst : Paired lax s t) (h : ∀ name, Meets lax V (f name s) (g name t))
    (hlost : Barred s → Fails (f none) s) :
    Meets lax V ((currentName? >>= f) s) ((currentName? >>= g) t) := by
  rw [currentName?_bind, currentName?_bind, ← hst.current]
  rcases hst.strict.cases with hmode | ⟨rfl, hs, ht⟩
  · rw [hmode]
    exact h _
  · rw [hs, ht]
    cases hname : nameOfToken? true s.current with
    | some name =>
      rw [nameOfToken?_of_strict hname]
      exact h _
    | none =>
      cases hname' : nameOfToken? false s.current with
      | none => exact h _
      | some name => exact .lost (hlost ⟨hs, isName_of_nameOfToken? hname', hname⟩) _

theorem Covers.name {f : Option String → Parser γ} {g : Option String → Parser δ}
    (h : ∀ name, Covers lax (f name) (g name) V) (hlost : ∀ s, Barred s → Fails (f none) s) :
    Covers lax (currentName? >>= f) (currentName? >>= g) V :=
  fun s t hst => .name hst (fun name => h name s t hst) (hlost s)

namespace Barred

variable {s : TokenStream}

theorem atSign (h : Barred s) (sign : Punctuator) (f : Bool → Parser γ) :
    (Parser.atSign sign >>= f) s = f false s := by
  rw [atSign_bind, h.isName.sign?]
  rfl

theorem eat (h : Barred s) (sign : Punctuator) (f : Bool → Parser γ) :
    (Parser.eat sign >>= f) s = f false s := by
  rw [eat_bind, h.atSign]
  rfl

end Barred

theorem covers_checkBinding (name : String) :
    Covers lax (checkBinding name) (checkBinding name) Eq := by
  unfold checkBinding
  exact .bind .isStrict fun _ _ hab => .check hab (.pure rfl)

theorem covers_checkOctal : Covers lax checkOctal checkOctal Eq := by
  unfold checkOctal
  refine .bind .isStrict fun a b hab => ?_
  rcases hab.cases with rfl | ⟨rfl, rfl, rfl⟩
  · exact .ite .fail (.pure rfl)
  · exact .lost fun s => .throw _ s

/-! ### The rules -/

theorem covers_propertyKey (h : n.Covers lax m) (c : Context) :
    Covers lax (propertyKey n c) (propertyKey m c) (Same lax PropertyKey.erase) := by
  unfold propertyKey
  refine .andThen .current fun token => ?_
  split
  · refine .andThen .advance fun _ => .attempt (h.assignment _ _) (fun a b hab => ?_) ?_ ?_
    · refine .andThen (.expect _) fun _ => .pure (hab.congr fun _ _ h => ?_)
      simp only [PropertyKey.erase, h]
    · exact fun e => .andThen (.expect _) fun _ => .fail
    · exact fun e s => .after fun _ t _ => .throw e t
  · exact .andThen .advance fun _ => .pure (.refl _ _)
  · exact .andThen .advance fun _ => .pure (.refl _ _)
  · exact .andThen .advance fun _ => .pure (.refl _ _)
  · exact .andThen .advance fun _ => .pure (.refl _ _)
  · exact .andThen .advance fun _ => .pure (.refl _ _)
  · exact .andThen .advance fun _ => .pure (.refl _ _)
  · exact .andThen covers_checkOctal fun _ => .andThen .advance fun _ => .pure (.refl _ _)
  · exact .fail

theorem covers_bindingElement (h : n.Covers lax m) (c : Context) {p q : Parser Pattern}
    (hp : Covers lax p q (Same lax Pattern.erase)) :
    Covers lax (bindingElement n c p) (bindingElement m c q) (Same lax Pattern.erase) := by
  unfold bindingElement
  refine .bind hp fun a b hab => .andThen (.eat _) fun found => .ite ?_ (.pure hab)
  refine .bind (h.assignment _ _) fun x y hxy => .pure (hab.congr₂ hxy fun _ _ _ _ h h' => ?_)
  simp only [Pattern.erase, h, h']

theorem covers_arrayPatternElements (h : n.Covers lax m) (c : Context) {rounds rounds' : Nat}
    (hrounds : rounds ≤ rounds') : Covers lax (arrayPatternElements n c rounds)
      (arrayPatternElements m c rounds') (Same lax Pattern.eraseElements) := by
  induction rounds generalizing rounds' with
  | zero => exact .exhausted
  | succ rounds ih =>
    cases rounds' with
    | zero => cases hrounds
    | succ rounds' =>
      have hnext := ih (Nat.le_of_succ_le_succ hrounds)
      unfold arrayPatternElements
      refine .andThen (.atSign _) fun _ => .ite (.pure (.refl _ _)) (.andThen (.eat _) fun _ => ?_)
      refine .ite (.bind hnext fun a b hab => .pure (hab.congr fun _ _ h => ?_)) ?_
      · simp only [Pattern.eraseElements, h]
      refine .andThen (.eat _) fun _ => .ite (.bind (h.pattern _) fun a b hab => ?_) ?_
      · refine .pure (hab.congr (f := fun p => [some (Pattern.rest p)]) fun _ _ h => ?_)
        simp only [Pattern.eraseElements, Pattern.erase, h]
      · refine .bind (h.element _) fun a b hab => .andThen (.eat _) fun _ => ?_
        refine .bind hnext fun as bs has => .pure ?_
        refine hab.congr₂ (f := fun p rest => some p :: rest) has fun _ _ _ _ h h' => ?_
        simp only [Pattern.eraseElements, h, h']

theorem covers_patternProperty (h : n.Covers lax m) (c : Context) :
    Covers lax (patternProperty n c) (patternProperty m c) (Same lax PatternProperty.erase) := by
  unfold patternProperty
  refine .bind .currentName fun name name' hname => .bind (covers_propertyKey h c) fun k k' hk => ?_
  refine .andThen (.eat _) fun keyed => .ite ?_ ?_
  · refine .bind (h.element _) fun a b hab => .pure (hk.congr₂ hab fun _ _ _ _ h h' => ?_)
    simp only [PatternProperty.erase, h, h']
  rcases hname with rfl | ⟨rfl, rfl⟩
  · cases name with
    | none => exact .fail
    | some name =>
      refine .andThen (covers_checkBinding name) fun _ => .andThen (.eat _) fun assigned => ?_
      refine .ite (.bind (h.assignment _ _) fun a b hab => .pure ?_) (.pure (.refl _ _))
      refine hk.congr₂ (f := fun key value =>
        PatternProperty.keyed key (.withDefault (.identifier name) value)) hab
        fun _ _ _ _ h h' => ?_
      simp only [PatternProperty.erase, Pattern.erase, h, h']
  · exact .lost fun s => .throw _ s

theorem covers_patternProperties (h : n.Covers lax m) (c : Context) :
    Covers lax (Parser.commaList .rightBrace (patternProperty n c) n.rounds)
      (Parser.commaList .rightBrace (patternProperty m c) m.rounds)
      (Same lax PatternProperty.eraseAll) := by
  refine .commaList _ (covers_patternProperty h c) (.refl _ _)
    (fun a b as bs hab has => ?_) h.rounds
  refine hab.congr₂ has fun _ _ _ _ h h' => ?_
  simp only [PatternProperty.eraseAll, h, h']

theorem covers_bindingPattern (h : n.Covers lax m) (c : Context) :
    Covers lax (bindingPattern n c) (bindingPattern m c) (Same lax Pattern.erase) := by
  unfold bindingPattern
  refine .name (fun name => ?_) fun s hs => ?_
  · cases name with
    | some name =>
      exact .andThen (covers_checkBinding name) fun _ => .andThen .advance fun _ =>
        .pure (.refl _ _)
    | none =>
      refine .andThen (.eat _) fun array => .ite ?_ (.andThen (.eat _) fun object => .ite ?_ ?_)
      · refine .bind (covers_arrayPatternElements h c h.rounds) fun as bs has => ?_
        refine .andThen (.expect _) fun _ => .pure (has.congr fun _ _ h => ?_)
        simp only [Pattern.erase, h]
      · refine .bind (covers_patternProperties h c) fun as bs has => ?_
        refine .andThen (.expect _) fun _ => .pure (has.congr fun _ _ h => ?_)
        simp only [Pattern.erase, h]
      · exact .andThen .current fun _ => .fail
  · intro p t ht
    simp only [hs.eat, Bool.false_eq_true, if_false] at ht
    exact Fails.throw (.noPattern s.current) s p t ht

end Grammar

/-! ### Functions in two readings -/

namespace Grammar

variable {n m : Nesting}

theorem covers_parameterList (h : n.Covers lax m) (c : Context) {rounds rounds' : Nat}
    (hrounds : rounds ≤ rounds') : Covers lax (parameterList n c rounds)
      (parameterList m c rounds') (Same lax Pattern.eraseAll) := by
  induction rounds generalizing rounds' with
  | zero => exact .exhausted
  | succ rounds ih =>
    cases rounds' with
    | zero => cases hrounds
    | succ rounds' =>
      unfold parameterList
      refine .andThen (.atSign _) fun _ => .ite (.pure (.refl _ _)) (.andThen (.eat _) fun _ => ?_)
      refine .ite (.bind (h.pattern _) fun a b hab => .pure ?_) ?_
      · refine hab.congr (f := fun p => [Pattern.rest p]) fun _ _ h => ?_
        simp only [Pattern.eraseAll, Pattern.erase, h]
      · refine .bind (h.element _) fun a b hab => .andThen (.separate _) fun _ => ?_
        refine .bind (ih (Nat.le_of_succ_le_succ hrounds)) fun as bs has => .pure ?_
        refine hab.congr₂ has fun _ _ _ _ h h' => ?_
        simp only [Pattern.eraseAll, h, h']

theorem covers_parameters (h : n.Covers lax m) (c : Context) :
    Covers lax (parameters n c) (parameters m c) (Same lax Pattern.eraseAll) := by
  unfold parameters
  refine .andThen (.expect _) fun _ => .bind (covers_parameterList h _ h.rounds) fun as bs has => ?_
  exact .andThen (.expect _) fun _ => .pure has

def SameBody (lax : Bool) (a b : List Stmt × Bool) : Prop :=
  Same lax Stmt.eraseAll a.1 b.1 ∧ a.2 = b.2

theorem covers_directiveBody (h : n.Covers lax m) (c : Context) (close : Option Punctuator)
    (prologue : Bool) {rounds rounds' : Nat} (hrounds : rounds ≤ rounds') :
    Covers lax (directiveBody n c close prologue rounds) (directiveBody m c close prologue rounds')
      (SameBody lax) := by
  induction rounds generalizing rounds' prologue with
  | zero => exact .exhausted
  | succ rounds ih =>
    cases rounds' with
    | zero => cases hrounds
    | succ rounds' =>
      unfold directiveBody
      refine .andThen .current fun token => .ite (.pure ⟨.refl _ _, rfl⟩) (.ite ?_ ?_)
      · cases close with
        | some sign => exact .fail
        | none => exact .pure ⟨.refl _ _, rfl⟩
      refine .bind (h.item _) fun a b hab => ?_
      have hdirective : directive? a = directive? b :=
        hab.read fun a b h => by rw [← directive?_erase a, h, directive?_erase]
      rw [hdirective]
      have hrest (asks : Bool) (prologue : Bool) : Covers lax
          (directiveBody n c close prologue rounds >>= fun found =>
            pure (a :: found.1, asks || found.2))
          (directiveBody m c close prologue rounds' >>= fun found =>
            pure (b :: found.1, asks || found.2)) (SameBody lax) := by
        refine .bind (ih _ (Nat.le_of_succ_le_succ hrounds)) fun as bs has => .pure ⟨?_, ?_⟩
        · refine hab.congr₂ has.1 fun _ _ _ _ h h' => ?_
          simp only [Stmt.eraseAll, h, h']
        · rw [has.2]
      dsimp only
      refine .ite (.andThen (.setStrict ?_) fun _ => hrest _ _) (hrest _ _)
      cases lax <;> rfl

theorem covers_functionBody (h : n.Covers lax m) :
    Covers lax (functionBody n) (functionBody m) (SameBody lax) := by
  unfold functionBody
  refine .andThen (.expect _) fun _ => .bind .isStrict fun mode mode' hmode => ?_
  refine .bind (covers_directiveBody h _ _ _ h.rounds) fun as bs has => ?_
  exact .andThen (.setStrict hmode) fun _ => .andThen (.expect _) fun _ => .pure has

theorem same_functionDef {parameters parameters' : List Pattern} {body body' : List Stmt}
    (hp : Same lax Pattern.eraseAll parameters parameters') (hb : Same lax Stmt.eraseAll body body')
    (name : Option String) (kind : FunctionKind) {strict strict' : Bool}
    (hs : lax = true ∨ strict = strict') : Same lax FunctionDef.erase
      ⟨name, kind, parameters, body, strict⟩ ⟨name, kind, parameters', body', strict'⟩ := by
  rcases hs with rfl | rfl
  · have hp' : Pattern.eraseAll parameters = Pattern.eraseAll parameters' := hp
    have hb' : Stmt.eraseAll body = Stmt.eraseAll body' := hb
    change FunctionDef.erase _ = FunctionDef.erase _
    simp only [FunctionDef.erase, hp', hb']
  · refine hp.congr₂ (f := fun parameters body =>
      FunctionDef.mk name kind parameters body strict) hb
      fun _ _ _ _ h h' => ?_
    simp only [FunctionDef.erase, h, h']

theorem covers_finishFunction (name : Option String) (kind : FunctionKind)
    {parameters parameters' : List Pattern} {body body' : List Stmt × Bool}
    (hp : Same lax Pattern.eraseAll parameters parameters') (hb : SameBody lax body body') :
    Covers lax (finishFunction name kind parameters body.1 body.2)
      (finishFunction name kind parameters' body'.1 body'.2) (Same lax FunctionDef.erase) := by
  have hsimple : parameters.all Pattern.isIdentifier = parameters'.all Pattern.isIdentifier :=
    hp.read (f := fun ps => ps.all Pattern.isIdentifier) fun a b h => by
      rw [← all_isIdentifier_eraseAll a, h, all_isIdentifier_eraseAll]
  have hnames : parameters.flatMap Pattern.boundNames = parameters'.flatMap Pattern.boundNames :=
    hp.read (f := fun ps => ps.flatMap Pattern.boundNames) fun a b h => by
      rw [← boundNames_eraseAll a, h, boundNames_eraseAll]
  unfold finishFunction
  refine .bind .isStrict fun mode mode' hmode => ?_
  rw [hsimple, hnames, hb.2]
  dsimp only
  generalize parameters'.flatMap Pattern.boundNames = names
  generalize parameters'.all Pattern.isIdentifier = simple
  generalize body'.2 = own
  have hstrict : (mode || own) = (mode' || own) ∨
      lax = true ∧ (mode || own) = true ∧ (mode' || own) = false := by
    rcases hmode.cases with rfl | ⟨hlax, rfl, rfl⟩
    · exact .inl rfl
    · cases own with
      | true => exact .inl rfl
      | false => exact .inr ⟨hlax, rfl, rfl⟩
  generalize (mode || own) = strict at hstrict ⊢
  generalize (mode' || own) = strict' at hstrict ⊢
  refine .ite .failed ?_
  rcases hstrict with rfl | ⟨rfl, rfl, rfl⟩
  · have hdone := same_functionDef hp hb.1 name kind (.inr (Eq.refl strict))
    refine .ite ?_ (.ite ?_ (.pure hdone))
    · split
      · exact .failed
      · refine .ite ?_ (.pure hdone)
        split
        · exact .failed
        · exact .pure hdone
    · split
      · exact .failed
      · exact .pure hdone
  · -- The strict reading makes all checks; the other one makes some of them.
    have hdone := same_functionDef hp hb.1 name kind
      (.inl (Eq.refl true) : true = true ∨ true = false)
    simp only [if_true, Bool.false_eq_true, if_false, Bool.true_or, Bool.false_or]
    split
    · exact .lost fun s => .bind (.throw _ s) _
    split
    · exact .lost fun s => .bind (.throw _ s) _
    · split
      · exact .pure hdone
      · exact .pure hdone

theorem covers_functionRest (h : n.Covers lax m) (c : Context) (name : Option String)
    (kind : FunctionKind) : Covers lax (functionRest n c name kind) (functionRest m c name kind)
      (Same lax FunctionDef.erase) := by
  unfold functionRest
  refine .bind (covers_parameters h c) fun as bs has => ?_
  exact .bind (covers_functionBody h) fun body body' hbody =>
    covers_finishFunction name kind has hbody

theorem covers_functionExpression (h : n.Covers lax m) (c : Context) :
    Covers lax (functionExpression n c) (functionExpression m c) (Same lax FunctionDef.erase) := by
  unfold functionExpression
  refine .andThen (.expectWord _) fun _ => .name (fun name => ?_) fun s hs => ?_
  · cases name with
    | some name =>
      refine .andThen (covers_checkBinding name) fun _ => .andThen .advance fun _ => ?_
      exact covers_functionRest h c _ _
    | none =>
      refine .andThen (.atSign _) fun _ => .ite (covers_functionRest h c _ _) ?_
      exact .andThen .current fun _ => .fail
  · intro p t ht
    simp only [hs.atSign, Bool.false_eq_true, if_false] at ht
    exact Fails.throw (.unexpectedToken s.current) s p t ht

theorem covers_functionDeclaration (h : n.Covers lax m) (c : Context) :
    Covers lax (functionDeclaration n c) (functionDeclaration m c)
      (Same lax FunctionDef.erase) := by
  unfold functionDeclaration
  refine .andThen (.expectWord _) fun _ => .name (fun name => ?_) fun s _ => .throw _ s
  cases name with
  | some name =>
    refine .andThen (covers_checkBinding name) fun _ => .andThen .advance fun _ => ?_
    exact covers_functionRest h c _ _
  | none => exact .fail

end Grammar

end ProtoScript
