import ProtoScript.Proofs.Modes.Steps
import ProtoScript.Proofs.Syntax.Parts
/-!
# Functions and the mode around them

What accepted functions are like: each is strict as the code around it and its own directives say,
and its name and parameters are as its strictness asks for.  The rules for patterns and functions go
step by step, keep the mode and yield what fits it, if the rules for what is nested in them do.
-/

namespace ProtoScript

open Grammar (directive? isRestricted)

/-- Whether the string literals in front of the statements ask for strict mode. -/
def Grammar.asksStrict : List Stmt → Bool
  | [] => false
  | s :: rest =>
    match directive? s with
    | some text => text == "use strict" || asksStrict rest
    | none => false

/-- The function is what one can be in code that is strict or not: it is strict if that code is or
if its own body asks for it, only a simple parameter list goes with a body that asks for it, a
strict function binds neither `eval` nor `arguments`, and no parameter name comes twice in a strict
function, in an arrow function or in a list that is not simple. -/
structure FunctionDef.Regular (around : Bool) (d : FunctionDef) : Prop where
  strict : d.strict = (around || Grammar.asksStrict d.body)
  simple : Grammar.asksStrict d.body = true → d.hasSimpleParameters = true
  unrestricted : d.strict = true → ∀ name ∈ d.name.toList ++ d.parameterNames,
    isRestricted name = false
  distinct : d.strict = true ∨ d.isArrow = true ∨ d.hasSimpleParameters = false →
    d.parameterNames.Nodup

/-- The mode of the code in a piece, by the mode of the code around it. -/
def Piece.modeIn (around : Bool) : Piece → Bool
  | .function d => d.strict
  | _ => around

def Piece.Suits (around : Bool) : Piece → Prop
  | .function d => d.Regular around
  | _ => True

/-- The functions in the piece are regular where they stand, in code of the given mode. -/
inductive Piece.Fits : Bool → Piece → Prop
  | intro {m : Bool} {p : Piece} (own : p.Suits m) (inside : ∀ q ∈ p.parts, q.Fits (p.modeIn m)) :
      Fits m p

def Expr.Fits (m : Bool) (x : Expr) : Prop := ∀ q ∈ x.pieces, q.Fits m

def Pattern.Fits (m : Bool) (p : Pattern) : Prop := (Piece.pattern p).Fits m

def Stmt.Fits (m : Bool) (s : Stmt) : Prop := ∀ q ∈ s.pieces, q.Fits m

variable {m : Bool}

namespace Piece

theorem Fits.own {p : Piece} (h : p.Fits m) : p.Suits m := by
  cases h with
  | intro own _ => exact own

theorem Fits.part {p q : Piece} (h : p.Fits m) (hq : q ∈ p.parts) : q.Fits (p.modeIn m) := by
  cases h with
  | intro _ inside => exact inside q hq

@[simp] theorem fits_whole {x : Expr} : (Piece.whole x).Fits m ↔ x.Fits m :=
  ⟨fun h _ hq => h.part hq, fun h => .intro trivial h⟩

@[simp] theorem fits_operand {x : Expr} : (Piece.operand x).Fits m ↔ x.Fits m :=
  ⟨fun h _ hq => h.part hq, fun h => .intro trivial h⟩

@[simp] theorem fits_statement {s : Stmt} : (Piece.statement s).Fits m ↔ s.Fits m :=
  ⟨fun h _ hq => h.part hq, fun h => .intro trivial h⟩

@[simp] theorem fits_pattern {p : Pattern} : (Piece.pattern p).Fits m ↔ p.Fits m := .rfl

@[simp] theorem fits_function {d : FunctionDef} : (Piece.function d).Fits m ↔
    d.Regular m ∧ (∀ p ∈ d.parameters, p.Fits d.strict) ∧ ∀ s ∈ d.body, s.Fits d.strict := by
  have hparts : (∀ q ∈ (Piece.function d).parts, q.Fits d.strict) ↔
      (∀ p ∈ d.parameters, p.Fits d.strict) ∧ ∀ s ∈ d.body, s.Fits d.strict := by
    simp only [parts, List.forall_mem_append, List.forall_mem_map, fits_pattern, fits_statement]
  rw [← hparts]
  exact ⟨fun h => ⟨h.own, fun _ hq => h.part hq⟩, fun h => .intro h.1 h.2⟩

end Piece

abbrev Pattern.FitsAll (m : Bool) (ps : List (Option Pattern)) : Prop :=
  ∀ p, some p ∈ ps → p.Fits m

theorem Pattern.fits_iff {p : Pattern} :
    p.Fits m ↔ (∀ q ∈ p.parts, q.Fits m) ∧ ∀ x ∈ p.expressions, x.Fits m := by
  have hparts : (∀ q ∈ (Piece.pattern p).parts, q.Fits m) ↔
      (∀ q ∈ p.parts, q.Fits m) ∧ ∀ x ∈ p.expressions, x.Fits m := by
    simp only [Piece.parts, List.forall_mem_append, List.forall_mem_map, Piece.fits_pattern,
      Piece.fits_whole]
  rw [← hparts]
  exact ⟨fun h _ hq => h.part hq, fun h => .intro trivial h⟩

namespace Pattern

@[simp] theorem fits_identifier (name : String) : (Pattern.identifier name).Fits m :=
  fits_iff.mpr ⟨nofun, nofun⟩

@[simp] theorem fits_withDefault {target : Pattern} {value : Expr} :
    (Pattern.withDefault target value).Fits m ↔ target.Fits m ∧ value.Fits m := by
  simp [fits_iff (p := .withDefault target value), parts, expressions]

@[simp] theorem fits_rest {target : Pattern} :
    (Pattern.rest target).Fits m ↔ target.Fits m := by
  simp [fits_iff (p := .rest target), parts, expressions]

@[simp] theorem fits_array {elements : List (Option Pattern)} :
    (Pattern.array elements).Fits m ↔ FitsAll m elements := by
  simp [fits_iff (p := .array elements), parts, expressions, List.reduceOption_mem_iff]

theorem fits_of_isIdentifier {p : Pattern} (h : p.isIdentifier = true) : p.Fits m := by
  cases p with
  | identifier name => exact fits_identifier name
  | _ => cases h

end Pattern

def PatternProperty.Fits (m : Bool) (q : PatternProperty) : Prop :=
  q.target.Fits m ∧ ∀ x ∈ q.expressions, x.Fits m

theorem Pattern.fits_object {properties : List PatternProperty}
    (h : ∀ q ∈ properties, q.Fits m) : (Pattern.object properties).Fits m :=
  Pattern.fits_iff.mpr ⟨List.forall_mem_map.mpr fun q hq => (h q hq).1,
    List.forall_mem_flatMap.mpr fun q hq => (h q hq).2⟩

abbrev Expr.FitsAll (m : Bool) (xs : List (Option Expr)) : Prop := ∀ x, some x ∈ xs → x.Fits m

def Property.Fits (m : Bool) (p : Property) : Prop := ∀ q ∈ p.pieces, q.Fits m

@[simp] theorem Property.fits_keyed {key : PropertyKey} {value : Expr} :
    (Property.keyed key value).Fits m ↔ (∀ x ∈ key.parts, x.Fits m) ∧ value.Fits m := by
  simp [Property.Fits, Property.pieces, or_imp, forall_and]

@[simp] theorem Property.fits_shorthand {name : String} {cover : Option Expr} :
    (Property.shorthand name cover).Fits m ↔ ∀ x ∈ cover, x.Fits m := by
  simp [Property.Fits, Property.pieces]

namespace Expr

@[simp] theorem fits_array {elements : List (Option Expr)} :
    (Expr.array elements).Fits m ↔ FitsAll m elements := by
  have hpieces : (Expr.array elements).Fits m ↔ ∀ x ∈ elements.reduceOption, x.Fits m := by
    rw [Fits, pieces, List.forall_mem_map]
    simp only [Piece.fits_whole]
  simp only [hpieces, List.reduceOption_mem_iff]

@[simp] theorem fits_object {properties : List Property} :
    (Expr.object properties).Fits m ↔ ∀ p ∈ properties, p.Fits m := by
  simp only [Fits, pieces, List.forall_mem_flatMap, Property.Fits]

@[simp] theorem fits_assign {op : Option BinaryOp} {target value : Expr} :
    (Expr.assign op target value).Fits m ↔ target.Fits m ∧ value.Fits m := by
  simp [Fits, pieces]

@[simp] theorem fits_function {d : FunctionDef} :
    (Expr.function d).Fits m ↔ (Piece.function d).Fits m := by
  simp only [Fits, pieces, List.forall_mem_singleton]

end Expr

/-! ### Expressions read again as patterns -/

/-- The functions of an expression stay where they are when it is read again as a pattern. -/
theorem Expr.fits_toPattern {strict : Bool} {x : Expr} {p : Pattern} (hx : x.Fits m)
    (h : x.toPattern strict = .ok p) : p.Fits m := by
  revert hx
  refine Expr.toPattern_induction (motive := fun x p => x.Fits m → p.Fits m)
    ?identifier ?member ?withDefault ?array ?object h
  case identifier => exact fun name _ => Pattern.fits_identifier name
  case member =>
    exact fun base key hx => Pattern.fits_iff.mpr ⟨nofun, List.forall_mem_singleton.mpr hx⟩
  case withDefault =>
    intro target value p htarget hx
    rw [Expr.fits_assign] at hx
    exact Pattern.fits_withDefault.mpr ⟨htarget hx.1, hx.2⟩
  case array =>
    intro elements ps hps hx
    refine Pattern.fits_array.mpr fun p hp => ?_
    obtain ⟨y, hy, hfits⟩ := hps p hp
    exact hfits (Expr.fits_array.mp hx y hy)
  case object =>
    intro properties ps hps hx
    refine Pattern.fits_object fun p hp => ?_
    obtain ⟨property, hproperty, hfrom⟩ := hps p hp
    have hfits : property.Fits m := Expr.fits_object.mp hx property hproperty
    cases hfrom with
    | name name => exact ⟨Pattern.fits_identifier name, nofun⟩
    | cover name cover =>
      have hcover : cover.Fits m := Property.fits_shorthand.mp hfits cover rfl
      exact ⟨Pattern.fits_withDefault.mpr ⟨Pattern.fits_identifier name, hcover⟩, nofun⟩
    | keyed key htarget =>
      obtain ⟨hkey, hvalue⟩ := Property.fits_keyed.mp hfits
      exact ⟨htarget hvalue, hkey⟩

/-! ### Goals -/

namespace Grammar

def Goal.Fits (m : Bool) : (g : Goal) → g.Result → Prop
  | .assignment _ => fun x : Expr => x.Fits m
  | .binary _ => fun x : Expr => x.Fits m
  | .power => fun x : Expr => x.Fits m
  | .unary => fun x : Expr => x.Fits m
  | .construct => fun x : Expr => x.Fits m
  | .pattern => fun p : Pattern => p.Fits m
  | .element => fun p : Pattern => p.Fits m
  | .statement _ => fun s : Stmt => s.Fits m
  | .item => fun s : Stmt => s.Fits m

/-- The rules for what is nested go step by step, keep the mode and yield what fits it. -/
def Nesting.Keeps (n : Nesting) : Prop := ∀ g c m, Grammar.Keeps m (n.parse g c) (g.Fits m)

variable {n : Nesting}

namespace Nesting.Keeps

variable (hn : n.Keeps) (c : Context)

include hn

theorem assignment (cover : Bool) :
    Grammar.Keeps m (n.parse (.assignment cover) c) (Expr.Fits m) :=
  hn (.assignment cover) c m

theorem binary (strength : Nat) : Grammar.Keeps m (n.parse (.binary strength) c) (Expr.Fits m) :=
  hn (.binary strength) c m

theorem power : Grammar.Keeps m (n.parse .power c) (Expr.Fits m) := hn .power c m

theorem unary : Grammar.Keeps m (n.parse .unary c) (Expr.Fits m) := hn .unary c m

theorem construct : Grammar.Keeps m (n.parse .construct c) (Expr.Fits m) := hn .construct c m

theorem pattern : Grammar.Keeps m (n.parse .pattern c) (Pattern.Fits m) := hn .pattern c m

theorem element : Grammar.Keeps m (n.parse .element c) (Pattern.Fits m) := hn .element c m

theorem statement (chain : Option Nat) :
    Grammar.Keeps m (n.parse (.statement chain) c) (Stmt.Fits m) :=
  hn (.statement chain) c m

theorem item : Grammar.Keeps m (n.parse .item c) (Stmt.Fits m) := hn .item c m

end Nesting.Keeps

/-! ### Patterns -/

theorem keeps_propertyKey (hn : n.Keeps) (c : Context) :
    Keeps m (propertyKey n c) fun key => ∀ x ∈ key.parts, x.Fits m := by
  unfold propertyKey
  refine .current fun token => ?_
  split
  · refine .advance (.attempt (hn.assignment _ false) (fun key hkey => ?_) fun e s b t h => ?_)
    · exact .skip .expect fun _ => .pure (List.forall_mem_singleton.mpr hkey)
    · obtain ⟨_, u, -, h⟩ := bind_eq_ok h
      cases h
  · exact .advance (.pure nofun)
  · exact .advance (.pure nofun)
  · exact .advance (.pure nofun)
  · exact .advance (.pure nofun)
  · exact .advance (.pure nofun)
  · exact .advance (.pure nofun)
  · exact .skip .checkOctal fun _ => .advance (.pure nofun)
  · exact .fail

theorem keeps_bindingElement (hn : n.Keeps) (c : Context) {target : Parser Pattern}
    (ht : Keeps m target (Pattern.Fits m)) :
    Keeps m (bindingElement n c target) (Pattern.Fits m) := by
  unfold bindingElement
  refine .bind ht fun p hp => .skip .eat fun eaten => .ite (fun _ => ?_) fun _ => .pure hp
  exact .bind (hn.assignment _ false) fun value hvalue =>
    .pure (Pattern.fits_withDefault.mpr ⟨hp, hvalue⟩)

theorem keeps_arrayPatternElements (hn : n.Keeps) (c : Context) (rounds : Nat) :
    Keeps m (arrayPatternElements n c rounds) (Pattern.FitsAll m) := by
  induction rounds with
  | zero => exact .fail
  | succ rounds ih =>
    unfold arrayPatternElements
    refine .skip .atSign fun closed => .ite (fun _ => .pure nofun) fun _ => ?_
    refine .skip .eat fun hole => .ite (fun _ => ?_) fun _ => ?_
    · exact .bind ih fun elements helements => .pure fun p hp =>
        helements p ((List.mem_cons.mp hp).resolve_left (Option.some_ne_none p))
    refine .skip .eat fun isRest => .ite (fun _ => ?_) fun _ => ?_
    · refine .bind (hn.pattern c) fun target htarget => .pure fun p hp => ?_
      obtain rfl := Option.some.inj (List.mem_singleton.mp hp)
      exact Pattern.fits_rest.mpr htarget
    refine .bind (hn.element c) fun element helement => .skip .eat fun _ => ?_
    refine .bind ih fun elements helements => .pure fun p hp => ?_
    rcases List.mem_cons.mp hp with heq | hp
    · rwa [Option.some.inj heq]
    · exact helements p hp

theorem keeps_patternProperty (hn : n.Keeps) (c : Context) :
    Keeps m (patternProperty n c) (PatternProperty.Fits m) := by
  unfold patternProperty
  refine .skip .currentName fun shorthand => .bind (keeps_propertyKey hn c) fun key hkey => ?_
  refine .skip .eat fun keyed => .ite (fun _ => ?_) fun _ => ?_
  · exact .bind (hn.element c) fun target htarget => .pure ⟨htarget, hkey⟩
  cases shorthand with
  | none => exact .fail
  | some name =>
    have hname : (Pattern.identifier name).Fits m := Pattern.fits_identifier name
    refine .skip .checkBinding fun _ => .skip .eat fun assigned => .ite (fun _ => ?_) fun _ => ?_
    · exact .bind (hn.assignment c false) fun value hvalue =>
        .pure ⟨Pattern.fits_withDefault.mpr ⟨hname, hvalue⟩, hkey⟩
    · exact .pure ⟨hname, nofun⟩

theorem keeps_bindingPattern (hn : n.Keeps) (c : Context) :
    Keeps m (bindingPattern n c) (Pattern.Fits m) := by
  unfold bindingPattern
  refine .skip .currentName fun name => ?_
  cases name with
  | some name => exact .skip .checkBinding fun _ => .advance (.pure (Pattern.fits_identifier name))
  | none =>
    refine .skip .eat fun bracket => .ite (fun _ => ?_) fun _ => ?_
    · refine .bind (keeps_arrayPatternElements hn c _) fun elements helements => ?_
      exact .skip .expect fun _ => .pure (Pattern.fits_array.mpr helements)
    refine .skip .eat fun brace => .ite (fun _ => ?_) fun _ => .current fun _ => .fail
    refine .bind (.commaList (keeps_patternProperty hn c) _) fun ps hps => ?_
    exact .skip .expect fun _ => .pure (Pattern.fits_object hps)

/-! ### Parameters and bodies -/

theorem keeps_parameterList (hn : n.Keeps) (c : Context) (rounds : Nat) :
    Keeps m (parameterList n c rounds) fun list => ∀ p ∈ list, p.Fits m := by
  induction rounds with
  | zero => exact .fail
  | succ rounds ih =>
    unfold parameterList
    refine .skip .atSign fun closed => .ite (fun _ => .pure nofun) fun _ => ?_
    refine .skip .eat fun isRest => .ite (fun _ => ?_) fun _ => ?_
    · exact .bind (hn.pattern c) fun target htarget =>
        .pure (List.forall_mem_singleton.mpr (Pattern.fits_rest.mpr htarget))
    refine .bind (hn.element c) fun first hfirst => .skip .separate fun _ => ?_
    exact .bind ih fun others hothers => .pure (List.forall_mem_cons.mpr ⟨hfirst, hothers⟩)

theorem keeps_parameters (hn : n.Keeps) (c : Context) :
    Keeps m (parameters n c) fun list => ∀ p ∈ list, p.Fits m := by
  unfold parameters
  refine .skip .expect fun _ => .bind (keeps_parameterList hn _ _) fun list hlist => ?_
  exact .skip .expect fun _ => .pure hlist

/-- A directive is a string literal, so it fits in code of either mode. -/
theorem fits_of_directive {s : Stmt} {text : String} (h : directive? s = some text) :
    s.Fits m := by
  unfold directive? at h
  split at h
  · intro q hq
    obtain rfl := List.mem_singleton.mp hq
    exact Piece.fits_whole.mpr nofun
  · cases h

/-- What is left behind by the statements of a body that begins in mode `m`: the mode is strict if
it was or if they ask for it, and they fit that mode.  They are asked only in a prologue. -/
def BodyFits (m prologue : Bool) (body : List Stmt × Bool) (mode : Bool) : Prop :=
  mode = (m || body.2) ∧ body.2 = (prologue && asksStrict body.1) ∧ ∀ s ∈ body.1, s.Fits mode

theorem BodyFits.cons {prologue mode : Bool} {body : List Stmt × Bool} {s : Stmt}
    (h : BodyFits m false body mode) (hs : s.Fits m)
    (hplain : (if prologue = true then directive? s else none) = none) :
    BodyFits m prologue (s :: body.1, false || body.2) mode := by
  obtain ⟨hmode, hown, hbody⟩ := h
  rw [Bool.false_and] at hown
  rw [hown, Bool.or_false] at hmode
  subst hmode
  refine ⟨by simp [hown], ?_, List.forall_mem_cons.mpr ⟨hs, hbody⟩⟩
  cases prologue with
  | false => simp [hown]
  | true =>
    have hplain : directive? s = none := hplain
    simp [asksStrict, hplain, hown]

theorem BodyFits.cons_directive {mode : Bool} {body : List Stmt × Bool} {s : Stmt} {text : String}
    (hs : directive? s = some text)
    (h : BodyFits (m || text == "use strict") true body mode) :
    BodyFits m true (s :: body.1, text == "use strict" || body.2) mode := by
  obtain ⟨hmode, hown, hbody⟩ := h
  refine ⟨by rw [hmode, Bool.or_assoc], ?_, List.forall_mem_cons.mpr ⟨fits_of_directive hs, hbody⟩⟩
  rw [hown, Bool.true_and, Bool.true_and, asksStrict, hs]

/-- Statements in front of the directive that switches the mode are string literals. -/
theorem proceeds_directiveBody (hn : n.Keeps) (c : Context) (close : Option Punctuator)
    (prologue : Bool) (rounds : Nat) (K : Token → Prop) :
    Proceeds K m (directiveBody n c close prologue rounds) (BodyFits m prologue) := by
  induction rounds generalizing m prologue K with
  | zero => exact .fail fun _ _ _ h => by cases h
  | succ rounds ih =>
    have hempty : BodyFits m prologue ([], false) m := by simp [BodyFits, asksStrict]
    unfold directiveBody
    refine .current fun token _ => ?_
    by_cases hclosed : close.any (fun sign => token.sign? == some sign) = true
    · rw [if_pos hclosed]
      exact .pure hempty
    rw [if_neg hclosed]
    by_cases hend : token.isEnd = true
    · rw [if_pos hend]
      cases close with
      | some sign => exact .fail fun _ _ _ h => by cases h
      | none => exact .pure hempty
    rw [if_neg hend]
    refine .bind (hn.item c _) fun s mode hs => ?_
    obtain ⟨hmode, hs⟩ := hs
    obtain rfl := hmode.symm
    cases hdirective : if prologue = true then directive? s else none with
    | none =>
      dsimp only
      rw [if_neg (by decide)]
      exact .bind (ih false _) fun others mode hothers => .pure (hothers.cons hs hdirective)
    | some text =>
      obtain ⟨rfl, hs⟩ : prologue = true ∧ directive? s = some text := by
        split at hdirective
        · next hprologue => exact ⟨hprologue, hdirective⟩
        · cases hdirective
      have hasks : (some text == some "use strict") = (text == "use strict") := rfl
      dsimp only
      rw [hasks]
      cases hstrict : text == "use strict" with
      | true =>
        refine .setStrict (.bind (ih true _) fun others mode hothers => .pure ?_)
        have hbody := BodyFits.cons_directive (m := m) hs (by rwa [hstrict, Bool.or_true])
        rwa [hstrict] at hbody
      | false =>
        refine .bind (ih true _) fun others mode hothers => .pure ?_
        have hbody := BodyFits.cons_directive (m := m) hs (by rwa [hstrict, Bool.or_false])
        rwa [hstrict] at hbody

theorem keeps_functionBody (hn : n.Keeps) :
    Keeps m (functionBody n) fun body =>
      body.2 = asksStrict body.1 ∧ ∀ s ∈ body.1, s.Fits (m || body.2) := by
  unfold functionBody
  refine .skip .expect fun _ => .isStrict fun K => ?_
  refine .bind (proceeds_directiveBody hn .functionBody _ true _ K) fun body mode hbody => ?_
  obtain ⟨rfl, hown, hbody⟩ := hbody
  have hrest : Keeps m (Parser.expect .rightBrace >>= fun _ => pure body) fun body =>
      body.2 = asksStrict body.1 ∧ ∀ s ∈ body.1, s.Fits (m || body.2) :=
    .skip .expect fun _ => .pure ⟨hown, hbody⟩
  exact .setStrict (hrest _)

/-! ### Functions -/

theorem nodup_of_firstRepeated? {seen names : List String} (h : firstRepeated? seen names = none) :
    names.Nodup ∧ ∀ name ∈ names, name ∉ seen := by
  induction names generalizing seen with
  | nil => exact ⟨List.nodup_nil, nofun⟩
  | cons name rest ih =>
    rw [firstRepeated?] at h
    split at h
    · cases h
    next hseen =>
    obtain ⟨hrest, hfresh⟩ := ih h
    have hname : name ∉ rest := fun hmem => hfresh name hmem (List.mem_cons_self ..)
    refine ⟨List.nodup_cons.mpr ⟨hname, hrest⟩, List.forall_mem_cons.mpr ⟨?_, ?_⟩⟩
    · simpa using hseen
    · exact fun other hother hmem => hfresh other hother (List.mem_cons_of_mem _ hmem)

/-- What the checks on a function let through is regular in the code around it. -/
theorem keeps_finishFunction (name : Option String) (kind : FunctionKind)
    {parameters : List Pattern} {body : List Stmt} {ownStrict : Bool}
    (hown : ownStrict = asksStrict body) (hparameters : ∀ p ∈ parameters, p.Fits m)
    (hbody : ∀ s ∈ body, s.Fits (m || ownStrict)) :
    Keeps m (finishFunction name kind parameters body ownStrict)
      fun d => (Piece.function d).Fits m := by
  unfold finishFunction
  refine .isStrict ?_
  dsimp only
  refine .ite (fun _ => .failed) fun hsimple => ?_
  have hsimple : ownStrict = true → parameters.all Pattern.isIdentifier = true := by
    simpa using hsimple
  have hdone (hfree : (m || ownStrict) = true → ∀ x ∈ name.toList ++
        parameters.flatMap Pattern.boundNames, isRestricted x = false)
      (hdistinct : (m || ownStrict) = true ∨ kind = .arrow ∨
        parameters.all Pattern.isIdentifier = false →
          (parameters.flatMap Pattern.boundNames).Nodup) :
      Keeps m (pure ⟨name, kind, parameters, body, m || ownStrict⟩)
        fun d => (Piece.function d).Fits m := by
    refine .pure (Piece.fits_function.mpr ⟨⟨?_, ?_, hfree, ?_⟩, ?_, hbody⟩)
    · rw [hown]
    · rwa [← hown]
    · exact fun h => hdistinct (h.imp_right (.imp_left fun harrow => by
        simpa [FunctionDef.isArrow] using harrow))
    · intro p hp
      cases ownStrict with
      | true => exact Pattern.fits_of_isIdentifier (List.all_eq_true.mp (hsimple rfl) p hp)
      | false => simpa using hparameters p hp
  -- The last check is the same whether the names have been looked at or not.
  have hlast (hfree : (m || ownStrict) = true → ∀ x ∈ name.toList ++
        parameters.flatMap Pattern.boundNames, isRestricted x = false) :
      Keeps m (if (m || ownStrict || !parameters.all Pattern.isIdentifier || kind == .arrow) = true
        then
          match firstRepeated? [] (parameters.flatMap Pattern.boundNames) with
          | some x => throw (.duplicateParameter x) >>= fun _ : PUnit =>
            pure ⟨name, kind, parameters, body, m || ownStrict⟩
          | none => pure ⟨name, kind, parameters, body, m || ownStrict⟩
        else pure ⟨name, kind, parameters, body, m || ownStrict⟩)
        fun d => (Piece.function d).Fits m := by
    refine .ite (fun _ => ?_) fun hnone => hdone hfree fun h => absurd ?_ hnone
    · split
      · exact .failed
      · next hrepeated => exact hdone hfree fun _ => (nodup_of_firstRepeated? hrepeated).1
    · rcases h with h | rfl | h
      · simp [h]
      · simp
      · simp [h]
  refine .ite (fun _ => ?_) fun hsloppy => hlast fun h => absurd h hsloppy
  split
  · exact .failed
  · next hfind => exact hlast fun _ x hx => by simpa using List.find?_eq_none.mp hfind x hx

theorem keeps_functionRest (hn : n.Keeps) (c : Context) (name : Option String)
    (kind : FunctionKind) :
    Keeps m (functionRest n c name kind) fun d => (Piece.function d).Fits m := by
  unfold functionRest
  refine .bind (keeps_parameters hn c) fun list hlist => ?_
  refine .bind (keeps_functionBody hn) fun body hbody => ?_
  exact keeps_finishFunction name kind hbody.1 hlist hbody.2

theorem keeps_functionExpression (hn : n.Keeps) (c : Context) :
    Keeps m (functionExpression n c) fun d => (Piece.function d).Fits m := by
  unfold functionExpression
  refine .skip .expectWord fun _ => .skip .currentName fun name => ?_
  cases name with
  | some name => exact .skip .checkBinding fun _ => .advance (keeps_functionRest hn c _ _)
  | none =>
    refine .skip .atSign fun opened => .ite (fun _ => ?_) fun _ => .current fun _ => .fail
    exact keeps_functionRest hn c _ _

theorem keeps_functionDeclaration (hn : n.Keeps) (c : Context) :
    Keeps m (functionDeclaration n c) fun d => (Piece.function d).Fits m := by
  unfold functionDeclaration
  refine .skip .expectWord fun _ => .skip .currentName fun name => ?_
  cases name with
  | some name => exact .skip .checkBinding fun _ => .advance (keeps_functionRest hn c _ _)
  | none => exact .fail

end Grammar

end ProtoScript
