import ProtoScript.Proofs.Grammar.Rules
import ProtoScript.Proofs.Syntax.Parts
/-!
# What stands where

The law that the pieces of accepted programs obey: no object literal that stands as a whole has an
initializer that only a pattern can have, and what binds names binds names only.  Parameters of
arrow functions may have been read as expressions first, so less is said of them.  Here are the law,
what the goals of the grammar are to yield, and what the rules for patterns and functions yield if
the rules for what is nested in them yield what they are to yield.
-/

namespace ProtoScript

/-- No member expression is a target in the pattern, at any depth. -/
inductive Pattern.BindsNames : Pattern → Prop
  | intro {p : Pattern} (own : p.isMember = false) (parts : ∀ q ∈ p.parts, BindsNames q) :
      BindsNames p

/-- The parameter of an arrow function is no member expression, and as a rest it binds names. -/
structure Pattern.SuitsArrow (p : Pattern) : Prop where
  own : p.isMember = false
  rest : ∀ target, p = .rest target → target.BindsNames

theorem Pattern.SuitsArrow.identifier (name : String) : (Pattern.identifier name).SuitsArrow :=
  ⟨rfl, fun _ h => by cases h⟩

def Piece.Law : Piece → Prop
  | .whole x => Grammar.hasCoverProperty x = false
  | .function d => ∀ p ∈ d.parameters,
    (d.kind ≠ .arrow → p.BindsNames) ∧ (d.kind = .arrow → p.SuitsArrow)
  | .declaration d => ∀ declarator ∈ d.declarators, declarator.target.BindsNames
  | .handler h => ∀ p ∈ h.parameter, p.BindsNames
  | _ => True

abbrev Piece.Placed (p : Piece) : Prop := p.Obeys Piece.Law

abbrev Expr.Placed (x : Expr) : Prop := (Piece.operand x).Placed

namespace Expr.Placed

variable {x : Expr}

theorem of_pieces (h : ∀ p ∈ x.pieces, p.Placed) : x.Placed := .intro trivial h

theorem whole (h : x.Placed) (hx : Grammar.hasCoverProperty x = false) :
    (Piece.whole x).Placed :=
  .intro hx fun _ hq => h.part hq

end Expr.Placed

theorem Piece.Placed.operand {x : Expr} (h : (Piece.whole x).Placed) : x.Placed :=
  .intro trivial fun _ hq => h.part hq

structure Pattern.Binds (p : Pattern) : Prop where
  names : p.BindsNames
  placed : (Piece.pattern p).Placed

namespace Pattern

theorem placed_of_parts {p : Pattern} (hparts : ∀ q ∈ p.parts, (Piece.pattern q).Placed)
    (hexpressions : ∀ x ∈ p.expressions, (Piece.whole x).Placed) : (Piece.pattern p).Placed :=
  .intro trivial (List.forall_mem_append.mpr
    ⟨List.forall_mem_map.mpr hparts, List.forall_mem_map.mpr hexpressions⟩)

theorem Binds.of_parts {p : Pattern} (hp : p.isMember = false) (hparts : ∀ q ∈ p.parts, q.Binds)
    (hexpressions : ∀ x ∈ p.expressions, (Piece.whole x).Placed) : p.Binds :=
  ⟨.intro hp fun q hq => (hparts q hq).names,
    placed_of_parts (fun q hq => (hparts q hq).placed) hexpressions⟩

theorem placed_identifier (name : String) : (Piece.pattern (.identifier name)).Placed :=
  placed_of_parts nofun nofun

theorem Binds.identifier (name : String) : (Pattern.identifier name).Binds :=
  .of_parts rfl nofun nofun

theorem Binds.withDefault {target : Pattern} {value : Expr} (ht : target.Binds)
    (hv : (Piece.whole value).Placed) : (Pattern.withDefault target value).Binds :=
  .of_parts rfl (List.forall_mem_singleton.mpr ht) (List.forall_mem_singleton.mpr hv)

theorem Binds.rest {target : Pattern} (h : target.Binds) : (Pattern.rest target).Binds :=
  .of_parts rfl (List.forall_mem_singleton.mpr h) nofun

theorem placed_withDefault {target : Pattern} {value : Expr} (ht : (Piece.pattern target).Placed)
    (hv : (Piece.whole value).Placed) : (Piece.pattern (.withDefault target value)).Placed :=
  placed_of_parts (List.forall_mem_singleton.mpr ht) (List.forall_mem_singleton.mpr hv)

end Pattern

/-! ### Expressions read again as patterns -/

/-- An expression whose pieces are in their places is a pattern of which that holds as well. -/
theorem Expr.placed_toPattern {strict : Bool} {x : Expr} {p : Pattern} (hx : x.Placed)
    (h : x.toPattern strict = .ok p) : (Piece.pattern p).Placed := by
  revert hx
  refine Expr.toPattern_induction (motive := fun x p => x.Placed → (Piece.pattern p).Placed)
    ?identifier ?member ?withDefault ?array ?object h
  case identifier => exact fun name _ => Pattern.placed_identifier name
  case member =>
    exact fun base key hx =>
      Pattern.placed_of_parts nofun (List.forall_mem_singleton.mpr (hx.whole rfl))
  case withDefault =>
    intro target value p htarget hx
    have hleft : (Piece.whole target).Placed := hx.part (List.mem_cons_self ..)
    have hvalue : (Piece.whole value).Placed :=
      hx.part (List.mem_cons_of_mem _ (List.mem_singleton_self _))
    exact Pattern.placed_withDefault (htarget hleft.operand) hvalue
  case array =>
    intro elements ps hps hx
    refine Pattern.placed_of_parts (fun p hp => ?_) nofun
    obtain ⟨y, hy, hplaced⟩ := hps p (List.reduceOption_mem_iff.mp hp)
    have hpiece : (Piece.whole y).Placed :=
      hx.part (List.mem_map.mpr ⟨y, List.reduceOption_mem_iff.mpr hy, rfl⟩)
    exact hplaced hpiece.operand
  case object =>
    intro properties ps hps hx
    have hall (p : PatternProperty) (hp : p ∈ ps) :
        (Piece.pattern p.target).Placed ∧ ∀ y ∈ p.expressions, (Piece.whole y).Placed := by
      obtain ⟨property, hproperty, hfrom⟩ := hps p hp
      have hpieces (q : Piece) (hq : q ∈ property.pieces) : q.Placed :=
        hx.part (List.mem_flatMap.mpr ⟨property, hproperty, hq⟩)
      cases hfrom with
      | name name => exact ⟨Pattern.placed_identifier name, nofun⟩
      | cover name cover =>
        have hcover : (Piece.whole cover).Placed := hpieces _ (List.mem_singleton_self _)
        exact ⟨Pattern.placed_withDefault (Pattern.placed_identifier name) hcover, nofun⟩
      | @keyed key value target htarget =>
        have hvalue : (Piece.whole value).Placed :=
          hpieces _ (List.mem_append_right _ (List.mem_singleton_self _))
        refine ⟨htarget hvalue.operand, fun y hy => ?_⟩
        exact hpieces _ (List.mem_append_left _ (List.mem_map_of_mem hy))
    refine Pattern.placed_of_parts (List.forall_mem_map.mpr fun p hp => (hall p hp).1) ?_
    exact List.forall_mem_flatMap.mpr fun p hp => (hall p hp).2

/-! ### Goals -/

namespace Grammar

/-- What a goal is to yield.  An expression that may be a parameter of an arrow function may as well
be an object literal with initializers, so it is not known to be a whole in its place. -/
def Goal.Placed : (g : Goal) → g.Result → Prop
  | .assignment false => fun x : Expr => (Piece.whole x).Placed
  | .assignment true => fun x : Expr => x.Placed
  | .binary _ => fun x : Expr => x.Placed
  | .power => fun x : Expr => x.Placed
  | .unary => fun x : Expr => x.Placed
  | .construct => fun x : Expr => x.Placed
  | .pattern => fun p : Pattern => p.Binds
  | .element => fun p : Pattern => p.Binds
  | .statement _ => fun s : Stmt => (Piece.statement s).Placed
  | .item => fun s : Stmt => (Piece.statement s).Placed

def Nesting.Placed (n : Nesting) : Prop := ∀ g c, Yields (n.parse g c) g.Placed

variable {n : Nesting}

namespace Nesting.Placed

variable (hn : n.Placed) (c : Context)

include hn

theorem assignment : Yields (n.parse (.assignment false) c) fun x => (Piece.whole x).Placed :=
  hn (.assignment false) c

theorem cover : Yields (n.parse (.assignment true) c) Expr.Placed := hn (.assignment true) c

theorem binary (strength : Nat) : Yields (n.parse (.binary strength) c) Expr.Placed :=
  hn (.binary strength) c

theorem power : Yields (n.parse .power c) Expr.Placed := hn .power c

theorem unary : Yields (n.parse .unary c) Expr.Placed := hn .unary c

theorem construct : Yields (n.parse .construct c) Expr.Placed := hn .construct c

theorem pattern : Yields (n.parse .pattern c) Pattern.Binds := hn .pattern c

theorem element : Yields (n.parse .element c) Pattern.Binds := hn .element c

theorem statement (chain : Option Nat) :
    Yields (n.parse (.statement chain) c) fun s => (Piece.statement s).Placed :=
  hn (.statement chain) c

theorem item : Yields (n.parse .item c) fun s => (Piece.statement s).Placed := hn .item c

end Nesting.Placed

/-! ### Patterns -/

theorem places_propertyKey (hn : n.Placed) (c : Context) :
    Yields (propertyKey n c) fun key => ∀ x ∈ key.parts, (Piece.whole x).Placed :=
  .all_propertyKey (hn.assignment _)

theorem places_bindingElement (hn : n.Placed) (c : Context) {target : Parser Pattern}
    (ht : Yields target Pattern.Binds) : Yields (bindingElement n c target) Pattern.Binds := by
  unfold bindingElement
  refine .bind ht fun p hp => .skip fun eaten => .ite (fun _ => ?_) fun _ => .pure hp
  exact .bind (hn.assignment _) fun value hvalue => .pure (hp.withDefault hvalue)

theorem places_arrayPatternElements (hn : n.Placed) (c : Context) (rounds : Nat) :
    Yields (arrayPatternElements n c rounds) fun elements =>
      ∀ p ∈ elements.reduceOption, p.Binds := by
  induction rounds with
  | zero => exact .fail
  | succ rounds ih =>
    unfold arrayPatternElements
    refine .skip fun closed => .ite (fun _ => .pure nofun) fun _ => ?_
    refine .skip fun hole => .ite (fun _ => ?_) fun _ => ?_
    · exact .bind ih fun elements helements => .pure helements
    refine .skip fun isRest => .ite (fun _ => ?_) fun _ => ?_
    · exact .bind (hn.pattern c) fun target htarget =>
        .pure (List.forall_mem_singleton.mpr htarget.rest)
    refine .bind (hn.element c) fun element helement => .skip fun _ => ?_
    exact .bind ih fun elements helements =>
      .pure (List.forall_mem_cons.mpr ⟨helement, helements⟩)

/-- The target of the property binds names, and the expressions in its key are in their places. -/
def PropertyBinds (q : PatternProperty) : Prop :=
  q.target.Binds ∧ ∀ x ∈ q.expressions, (Piece.whole x).Placed

theorem places_patternProperty (hn : n.Placed) (c : Context) :
    Yields (patternProperty n c) PropertyBinds := by
  unfold patternProperty
  refine .skip fun shorthand => .bind (places_propertyKey hn c) fun key hkey => ?_
  refine .skip fun keyed => .ite (fun _ => ?_) fun _ => ?_
  · exact .bind (hn.element c) fun target htarget => .pure ⟨htarget, hkey⟩
  cases shorthand with
  | none => exact .fail
  | some name =>
    have hname : (Pattern.identifier name).Binds := .identifier name
    refine .skip fun _ => .skip fun assigned => .ite (fun _ => ?_) fun _ => ?_
    · exact .bind (hn.assignment c) fun value hvalue => .pure ⟨hname.withDefault hvalue, hkey⟩
    · exact .pure ⟨hname, nofun⟩

theorem places_bindingPattern (hn : n.Placed) (c : Context) :
    Yields (bindingPattern n c) Pattern.Binds := by
  unfold bindingPattern
  refine .skip fun name => ?_
  cases name with
  | some name => exact .skip fun _ => .skip fun _ => .pure (.identifier name)
  | none =>
    refine .skip fun bracket => .ite (fun _ => ?_) fun _ => ?_
    · refine .bind (places_arrayPatternElements hn c _) fun elements helements => ?_
      exact .skip fun _ => .pure (.of_parts rfl helements nofun)
    refine .skip fun brace => .ite (fun _ => ?_) fun _ => .skip fun _ => .fail
    refine .bind (.commaList (places_patternProperty hn c) _) fun ps hps => .skip fun _ => ?_
    refine .pure (.of_parts rfl ?_ ?_)
    · exact List.forall_mem_map.mpr fun q hq => (hps q hq).1
    · exact List.forall_mem_flatMap.mpr fun q hq => (hps q hq).2

/-! ### Functions -/

theorem places_parameters (hn : n.Placed) (c : Context) :
    Yields (parameters n c) fun list => ∀ p ∈ list, p.Binds :=
  .all_parameters ((hn.pattern _).mono fun _ h => h.rest) (hn.element _)

theorem places_functionBody (hn : n.Placed) :
    Yields (functionBody n) fun body => ∀ s ∈ body.1, (Piece.statement s).Placed :=
  .all_functionBody (hn.item .functionBody)

theorem places_finishFunction {name : Option String} {kind : FunctionKind}
    {parameters : List Pattern} {body : List Stmt} (ownStrict : Bool)
    (hkind : ∀ p ∈ parameters, (kind ≠ .arrow → p.BindsNames) ∧ (kind = .arrow → p.SuitsArrow))
    (hparameters : ∀ p ∈ parameters, (Piece.pattern p).Placed)
    (hbody : ∀ s ∈ body, (Piece.statement s).Placed) :
    Yields (finishFunction name kind parameters body ownStrict)
      fun d => (Piece.function d).Placed := by
  refine (yields_finishFunction_eq name kind parameters body ownStrict).mono fun d hd => ?_
  obtain ⟨strict, rfl⟩ := hd
  refine .intro hkind (List.forall_mem_append.mpr ⟨?_, ?_⟩)
  · exact List.forall_mem_map.mpr hparameters
  · exact List.forall_mem_map.mpr hbody

theorem places_functionRest (hn : n.Placed) (c : Context) (name : Option String)
    {kind : FunctionKind} (hkind : kind ≠ .arrow) :
    Yields (functionRest n c name kind) fun d => (Piece.function d).Placed := by
  unfold functionRest
  refine .bind (places_parameters hn c) fun list hlist => ?_
  refine .bind (places_functionBody hn) fun body hbody => ?_
  refine places_finishFunction _ (fun p hp => ?_) (fun p hp => (hlist p hp).placed) hbody
  exact ⟨fun _ => (hlist p hp).names, fun h => absurd h hkind⟩

theorem places_functionExpression (hn : n.Placed) (c : Context) :
    Yields (functionExpression n c) fun d => (Piece.function d).Placed := by
  unfold functionExpression
  refine .skip fun _ => .skip fun name => ?_
  cases name with
  | some name => exact .skip fun _ => .skip fun _ => places_functionRest hn c _ nofun
  | none =>
    refine .skip fun opened => .ite (fun _ => ?_) fun _ => .skip fun _ => .fail
    exact places_functionRest hn c _ nofun

theorem places_functionDeclaration (hn : n.Placed) (c : Context) :
    Yields (functionDeclaration n c) fun d => (Piece.function d).Placed := by
  unfold functionDeclaration
  refine .skip fun _ => .skip fun name => ?_
  cases name with
  | some name => exact .skip fun _ => .skip fun _ => places_functionRest hn c _ nofun
  | none => exact .fail

end Grammar

end ProtoScript
