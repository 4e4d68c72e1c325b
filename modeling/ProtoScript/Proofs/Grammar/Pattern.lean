import ProtoScript.Proofs.Grammar.Rules
/-!
# Patterns are sound

What the rules for patterns yield, and what expressions that are read again as patterns become, if
the rules for what is nested in them yield sound trees.
-/

namespace ProtoScript

theorem Pattern.Sound.withDefault {target : Pattern} {value : Expr} (ht : target.Sound)
    (hv : value.Sound) : (Pattern.withDefault target value).Sound := by
  refine .intro (fun q hq => ?_) (fun x hx => ?_) nofun nofun
  · rw [List.mem_singleton.mp hq]
    exact ht
  · rw [List.mem_singleton.mp hx]
    exact hv

theorem Pattern.Sound.rest {target : Pattern} (h : target.Sound) : (Pattern.rest target).Sound := by
  refine .intro (fun q hq => ?_) nofun nofun nofun
  rw [List.mem_singleton.mp hq]
  exact h

structure Pattern.SoundElements (elements : List (Option Pattern)) : Prop where
  sound : ∀ p, some p ∈ elements → p.Sound
  last : ∀ before target after, elements = before ++ some (.rest target) :: after → after = []

theorem Pattern.soundElements_nil : SoundElements [] :=
  ⟨nofun, fun before _ _ h => absurd h.symm (List.append_ne_nil_of_right_ne_nil before nofun)⟩

theorem Pattern.SoundElements.cons {elements : List (Option Pattern)} (h : SoundElements elements)
    {element : Option Pattern} (hsingle : ∀ p ∈ element, p.Single) :
    SoundElements (element :: elements) := by
  refine ⟨fun p hp => ?_, fun before target after heq => ?_⟩
  · rcases List.mem_cons.mp hp with hfirst | hrest
    · exact (hsingle p hfirst.symm).sound
    · exact h.sound p hrest
  · cases before with
    | nil =>
      obtain ⟨rfl, -⟩ := List.cons.inj heq
      exact absurd rfl ((hsingle _ rfl).no_rest target)
    | cons _ before => exact h.last before target after (List.cons.inj heq).2

theorem Pattern.soundElements_of_single {elements : List (Option Pattern)}
    (h : ∀ p, some p ∈ elements → p.Single) : SoundElements elements := by
  refine ⟨fun p hp => (h p hp).sound, fun before target after heq => ?_⟩
  have hrest : (Pattern.rest target).Single :=
    h _ (heq ▸ List.mem_append_right _ List.mem_cons_self)
  exact absurd rfl (hrest.no_rest target)

theorem Pattern.soundElements_rest {target : Pattern} (h : (Pattern.rest target).Sound) :
    SoundElements [some (.rest target)] := by
  refine ⟨fun p hp => ?_, fun before _ after heq => ?_⟩
  · cases List.mem_singleton.mp hp
    exact h
  · cases before with
    | nil => exact (List.cons.inj heq).2.symm
    | cons _ before =>
      exact absurd (List.cons.inj heq).2.symm (List.append_ne_nil_of_right_ne_nil before nofun)

theorem Pattern.SoundElements.array {elements : List (Option Pattern)}
    (h : SoundElements elements) : (Pattern.array elements).Sound := by
  refine .intro (fun p hp => h.sound p (List.reduceOption_mem_iff.mp hp)) nofun nofun
    fun before target after heq => ?_
  cases heq
  exact h.last before target after rfl

def PatternProperty.Sound (p : PatternProperty) : Prop :=
  p.target.Sound ∧ ∀ x ∈ p.expressions, x.Sound

theorem Pattern.Sound.object {ps : List PatternProperty} (h : ∀ p ∈ ps, p.Sound) :
    (Pattern.object ps).Sound := by
  refine .intro (fun q hq => ?_) (fun x hx => ?_) nofun nofun
  · obtain ⟨p, hp, rfl⟩ := List.mem_map.mp hq
    exact (h p hp).1
  · obtain ⟨p, hp, hx⟩ := List.mem_flatMap.mp hx
    exact (h p hp).2 x hx

theorem Pattern.Sound.member {x : Expr} (h : x.Sound) : (Pattern.member x).Sound := by
  refine .intro nofun (fun y hy => ?_) nofun nofun
  rw [List.mem_singleton.mp hy]
  exact h

theorem Expr.sound_toPattern {strict : Bool} {x : Expr} {p : Pattern} (hx : x.Sound)
    (h : x.toPattern strict = .ok p) : p.Single := by
  revert hx
  refine Expr.toPattern_induction (motive := fun x p => x.Sound → p.Single)
    ?identifier ?member ?withDefault ?array ?object h
  case identifier => exact fun name hx => ⟨.identifier hx.usable, nofun⟩
  case member => exact fun base key hx => ⟨.member hx, nofun⟩
  case withDefault =>
    intro target value p htarget hx
    have hsingle := htarget (hx.part (by simp [Expr.parts]))
    exact ⟨.withDefault hsingle.sound (hx.part (by simp [Expr.parts])), nofun⟩
  case array =>
    intro elements ps hps hx
    refine ⟨(Pattern.soundElements_of_single fun p hp => ?_).array, nofun⟩
    obtain ⟨y, hy, hsingle⟩ := hps p hp
    exact hsingle (hx.part (List.reduceOption_mem_iff.mpr hy))
  case object =>
    intro properties ps hps hx
    refine ⟨.object fun p hp => ?_, nofun⟩
    obtain ⟨property, hproperty, hfrom⟩ := hps p hp
    have hparts (y : Expr) (hy : y ∈ property.parts) : y.Sound :=
      hx.part (List.mem_flatMap.mpr ⟨property, hproperty, hy⟩)
    cases hfrom with
    | name name =>
      have hname := hparts (.identifier name) (by simp [Property.parts, Property.value])
      exact ⟨.identifier hname.usable, nofun⟩
    | cover name cover =>
      have hassign := hparts (.assign none (.identifier name) cover)
        (by simp [Property.parts, Property.value])
      have hname : (Expr.identifier name).Sound := hassign.part (by simp [Expr.parts])
      have hcover : cover.Sound := hassign.part (by simp [Expr.parts])
      exact ⟨.withDefault (.identifier hname.usable) hcover, nofun⟩
    | @keyed key value target htarget =>
      have hvalue : value.Sound := hparts value (by simp [Property.parts, Property.value])
      exact ⟨(htarget hvalue).sound, fun y hy => hparts y (List.mem_append_left _ hy)⟩

namespace Grammar

variable {n : Nesting}

theorem yields_propertyKey (hn : n.Sound) (c : Context) :
    Yields (propertyKey n c) fun key => ∀ x ∈ key.parts, x.Sound :=
  .all_propertyKey (hn.assignment _ false)

theorem yields_bindingElement (hn : n.Sound) (c : Context) {target : Parser Pattern}
    (ht : Yields target Pattern.Single) : Yields (bindingElement n c target) Pattern.Single := by
  unfold bindingElement
  refine .bind ht fun p hp => .skip fun eaten => .ite (fun _ => ?_) fun _ => .pure hp
  exact .bind (hn.assignment _ false) fun value hvalue =>
    .pure ⟨.withDefault hp.sound hvalue, nofun⟩

theorem yields_arrayPatternElements (hn : n.Sound) (c : Context) (rounds : Nat) :
    Yields (arrayPatternElements n c rounds) Pattern.SoundElements := by
  induction rounds with
  | zero => exact .fail
  | succ rounds ih =>
    unfold arrayPatternElements
    refine .skip fun closed => .ite (fun _ => .pure Pattern.soundElements_nil) fun _ => ?_
    refine .skip fun hole => .ite (fun _ => ?_) fun _ => ?_
    · exact .bind ih fun elements helements => .pure (helements.cons nofun)
    refine .skip fun isRest => .ite (fun _ => ?_) fun _ => ?_
    · exact .bind (hn.pattern c) fun target htarget =>
        .pure (Pattern.soundElements_rest (.rest htarget.sound))
    refine .bind (hn.element c) fun element helement => .skip fun _ => ?_
    refine .bind ih fun elements helements => .pure (helements.cons fun p hp => ?_)
    cases hp
    exact helement

theorem yields_patternProperty (hn : n.Sound) (c : Context) :
    Yields (patternProperty n c) PatternProperty.Sound := by
  unfold patternProperty
  refine .bind yields_currentName? fun shorthand hshorthand => ?_
  refine .bind (yields_propertyKey hn c) fun key hkey => ?_
  refine .skip fun keyed => .ite (fun _ => ?_) fun _ => ?_
  · exact .bind (hn.element c) fun target htarget => .pure ⟨htarget.sound, hkey⟩
  cases shorthand with
  | none => exact .fail
  | some name =>
    have hname : (Pattern.identifier name).Sound := .identifier (hshorthand name rfl)
    refine .skip fun _ => .skip fun assigned => .ite (fun _ => ?_) fun _ => ?_
    · refine .bind (hn.assignment c false) fun value hvalue => .pure ?_
      exact ⟨.withDefault hname hvalue, hkey⟩
    · exact .pure ⟨hname, nofun⟩

theorem yields_bindingPattern (hn : n.Sound) (c : Context) :
    Yields (bindingPattern n c) Pattern.Single := by
  unfold bindingPattern
  refine .bind yields_currentName? fun name hname => ?_
  cases name with
  | some name => exact .skip fun _ => .skip fun _ => .pure ⟨.identifier (hname name rfl), nofun⟩
  | none =>
    refine .skip fun bracket => .ite (fun _ => ?_) fun _ => ?_
    · refine .bind (yields_arrayPatternElements hn c _) fun elements helements => .skip fun _ => ?_
      exact .pure ⟨helements.array, nofun⟩
    refine .skip fun brace => .ite (fun _ => ?_) fun _ => .skip fun _ => .fail
    refine .bind (.commaList (yields_patternProperty hn c) _) fun ps hps => .skip fun _ => ?_
    exact .pure ⟨.object hps, nofun⟩

end Grammar

/-!
### Functions are sound

What the rules for functions yield, if the rules for what is nested in them yield sound trees.
-/

namespace Grammar

variable {n : Nesting}

theorem yields_parameters (hn : n.Sound) (c : Context) :
    Yields (parameters n c) fun list => ∀ p ∈ list, p.Sound :=
  .all_parameters ((hn.pattern _).mono fun _ h => .rest h.sound)
    ((hn.element _).mono fun _ h => h.sound)

theorem yields_directiveBody (hn : n.Sound) (c : Context) (close : Option Punctuator)
    (prologue : Bool) (rounds : Nat) :
    Yields (directiveBody n c close prologue rounds) fun body =>
      ∀ s ∈ body.1, s.Sound c.targets [] :=
  .all_directiveBody (hn.item c) close prologue rounds

theorem yields_functionBody (hn : n.Sound) :
    Yields (functionBody n) fun body => ∀ s ∈ body.1, s.Sound .function [] :=
  .all_functionBody (hn.item .functionBody)

theorem yields_finishFunction {name : Option String} {kind : FunctionKind}
    {parameters : List Pattern} {body : List Stmt} (ownStrict : Bool)
    (hparameters : ∀ p ∈ parameters, p.Sound) (hbody : ∀ s ∈ body, s.Sound .function [])
    (hname : kind ≠ .method → ∀ word ∈ name, Usable word) :
    Yields (finishFunction name kind parameters body ownStrict)
      fun d => d.Sound ∧ d.kind = kind := by
  refine (yields_finishFunction_eq name kind parameters body ownStrict).mono fun d hd => ?_
  obtain ⟨strict, rfl⟩ := hd
  exact ⟨.intro hparameters hbody hname, rfl⟩

theorem yields_functionRest (hn : n.Sound) (c : Context) {name : Option String}
    {kind : FunctionKind} (hname : kind ≠ .method → ∀ word ∈ name, Usable word) :
    Yields (functionRest n c name kind) fun d => d.Sound ∧ d.kind = kind := by
  unfold functionRest
  refine .bind (yields_parameters hn c) fun list hlist => ?_
  refine .bind (yields_functionBody hn) fun body hbody => ?_
  exact yields_finishFunction _ hlist hbody hname

theorem yields_functionExpression (hn : n.Sound) (c : Context) :
    Yields (functionExpression n c) FunctionDef.Sound := by
  unfold functionExpression
  refine .skip fun _ => .bind yields_currentName? fun name hname => ?_
  cases name with
  | some name =>
    have hrest : Yields (functionRest n c (some name) .expression) _ :=
      yields_functionRest hn c fun _ => hname
    exact .skip fun _ => .skip fun _ => hrest.mono fun _ hd => hd.1
  | none =>
    have hrest : Yields (functionRest n c none .expression) _ := yields_functionRest hn c nofun
    exact .skip fun opened =>
      .ite (fun _ => hrest.mono fun _ hd => hd.1) fun _ => .skip fun _ => .fail

theorem yields_functionDeclaration (hn : n.Sound) (c : Context) :
    Yields (functionDeclaration n c) fun d => d.Sound ∧ d.kind = .declaration := by
  unfold functionDeclaration
  refine .skip fun _ => .bind yields_currentName? fun name hname => ?_
  cases name with
  | some name => exact .skip fun _ => .skip fun _ => yields_functionRest hn c fun _ => hname
  | none => exact .fail

end Grammar

end ProtoScript
