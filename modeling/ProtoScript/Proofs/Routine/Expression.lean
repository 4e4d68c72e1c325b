import ProtoScript.Proofs.Routine
import ProtoScript.Proofs.Syntax.Parts
/-!
# Expressions and patterns are routines

What an expression or a pattern does is a routine in any setting that allows the evaluation of its
parts.
-/

namespace ProtoScript

structure Setting.Evaluates (S : Setting) (good : Expr → Prop) (scope : ScopeId) : Prop
    extends S.Assigns scope where
  nameFunction : ∀ (s : Store) function name, S.step s (s.nameFunction function name)
  part : ∀ {x y : Expr}, good x → y ∈ x.parts → good y
  asks : ∀ {x : Expr}, good x → S.asks (.evaluate x scope)
  makes : ∀ {d : FunctionDef}, good (.function d) → S.makes d scope
  constructs : S.constructs
  directEval : ∀ text, S.asks (.directEval text scope)

/-- The setting allows what the patterns with a property `goodTarget` need to be bound in a
scope. -/
structure Setting.Binds (S : Setting) (good : Expr → Prop) (goodTarget : Pattern → Prop)
    (scope : ScopeId) (fresh : Bool) : Prop extends S.Evaluates good scope where
  target : ∀ {p q : Pattern}, goodTarget p → q ∈ p.parts → goodTarget q
  expression : ∀ {p : Pattern} {x : Expr}, goodTarget p → x ∈ p.expressions → good x
  binds : ∀ {p : Pattern} (value : Value), goodTarget p → S.asks (.bind p value scope fresh)
  bindFresh : fresh = true → ∀ (s : Store) name value, S.step s (s.bind scope name value)

namespace Routine

open Eval

variable {S : Setting} {good : Expr → Prop} {goodTarget : Pattern → Prop} {scope : ScopeId}

/-! ### Expressions -/

theorem evaluate (hS : S.Evaluates good scope) {x : Expr} (hx : good x) :
    Routine S fun e => e.evaluate x scope :=
  .task _ (hS.asks hx)

theorem evaluateNamed (hS : S.Evaluates good scope) {x : Expr} (hx : good x) (name : String) :
    Routine S fun e => e.evaluateNamed x name scope := by
  refine .bind (.evaluate hS hx) fun value => .ite (fun _ => ?_) fun _ => .pure value
  exact .bind (.update _ fun s => hS.nameFunction s value name) fun _ => .pure value

theorem memberReference (hS : S.Evaluates good scope) {object : Expr} {key : MemberKey}
    (hobject : good object) (hkey : ∀ x ∈ key.parts, good x) :
    Routine S fun e => e.memberReference object key scope := by
  refine .bind (.evaluate hS hobject) fun base => ?_
  cases key with
  | dot name => exact .pure _
  | computed x =>
    refine .bind (.evaluate hS (hkey x (List.mem_singleton.mpr rfl))) fun key => ?_
    refine .ite (fun _ => .fault hS.toOrdinary _) fun _ => ?_
    exact .bind (.toUnicode hS.toOrdinary key) fun _ => .pure _

theorem memberReference_of_good (hS : S.Evaluates good scope) {object : Expr} {key : MemberKey}
    (h : good (.member object key)) :
    Routine S fun e => e.memberReference object key scope :=
  .memberReference hS (hS.part h (List.mem_cons_self ..)) fun _ hx =>
    hS.part h (List.mem_cons_of_mem _ hx)

theorem reference (hS : S.Evaluates good scope) {target : Expr} (h : good target) :
    Routine S fun e => e.reference target scope := by
  cases target with
  | identifier name => exact .pure _
  | member object key => exact .bind (.memberReference_of_good hS h) fun _ => .pure _
  | _ => exact .fault hS.toOrdinary _

theorem propertyKey (hS : S.Evaluates good scope) {key : PropertyKey}
    (h : ∀ x ∈ key.parts, good x) : Routine S fun e => e.propertyKey key scope := by
  cases key with
  | computed x =>
    refine .bind (.evaluate hS (h x (List.mem_singleton.mpr rfl))) fun value => ?_
    exact .toUnicode hS.toOrdinary value
  | _ => exact .pure _

theorem arrayElements (hS : S.Evaluates good scope) {elements : List (Option Expr)}
    (h : ∀ x, some x ∈ elements → good x) :
    Routine S fun e => e.arrayElements scope elements := by
  induction elements with
  | nil => exact .pure _
  | cons element rest ih =>
    have hrest := ih fun x hx => h x (List.mem_cons_of_mem _ hx)
    cases element with
    | none => exact .bind hrest fun _ => .pure _
    | some x =>
      exact .bind (.evaluate hS (h x (List.mem_cons_self ..))) fun _ => .bind hrest fun _ => .pure _

theorem property (hS : S.Evaluates good scope) {p : Property} (h : ∀ x ∈ p.parts, good x) :
    Routine S fun e => e.property p scope := by
  have hvalue (key : String) : Routine S fun e => (do
      return (key, ← e.evaluateNamed p.value key scope) : Eval (String × Value)) := by
    have hgood : good p.value := h _ (List.mem_append_right _ (List.mem_singleton.mpr rfl))
    exact .bind (.evaluateNamed hS hgood key) fun _ => .pure _
  cases p with
  | keyed key value =>
    have hkey : ∀ x ∈ key.parts, good x := fun x hx => h x (List.mem_append_left _ hx)
    exact .bind (.propertyKey hS hkey) hvalue
  | shorthand name cover => exact .bind (.pure name) hvalue

theorem properties (hS : S.Evaluates good scope)
    (hinsert : ∀ (s : Store) id key p, S.step s (s.insert id key p)) (id : ObjectId)
    {ps : List Property} (h : ∀ p ∈ ps, ∀ x ∈ p.parts, good x) :
    Routine S fun e => e.properties id scope ps := by
  induction ps with
  | nil => exact .pure _
  | cons p rest ih =>
    refine .bind (.property hS (h p (List.mem_cons_self ..))) fun (key, value) => ?_
    refine .bind (.update _ fun s => hinsert s id key _) fun _ => ?_
    exact ih fun p hp => h p (List.mem_cons_of_mem _ hp)

theorem arguments (hS : S.Evaluates good scope) {xs : List Expr} (h : ∀ x ∈ xs, good x) :
    Routine S fun e => e.arguments scope xs := by
  induction xs with
  | nil => exact .pure _
  | cons x rest ih =>
    refine .bind (.evaluate hS (h x (List.mem_cons_self ..))) fun value => ?_
    exact .bind (ih fun x hx => h x (List.mem_cons_of_mem _ hx)) fun _ => .pure _

theorem sequence (hS : S.Evaluates good scope) {xs : List Expr} (h : ∀ x ∈ xs, good x)
    (last : Value) : Routine S fun e => e.sequence scope xs last := by
  induction xs generalizing last with
  | nil => exact .pure last
  | cons x rest ih =>
    refine .bind (.evaluate hS (h x (List.mem_cons_self ..))) fun value => ?_
    exact ih (fun x hx => h x (List.mem_cons_of_mem _ hx)) value

theorem typeOf (hS : S.Evaluates good scope) {operand : Expr} (h : good operand) :
    Routine S fun e => e.typeOf operand scope := by
  have hword (value : Value) : Routine S fun _ => (do
      return .ofString (← Eval.read fun s => s.typeOf value) : Eval Value) :=
    .bind (.read _) fun _ => .pure _
  cases operand with
  | identifier name =>
    refine .bind (.read _) fun found => ?_
    split
    · exact .bind (.pure _) hword
    · exact .bind (.lookupName hS.toOrdinary name scope) hword
  | _ => exact .bind (.evaluate hS h) hword

theorem delete (hS : S.Evaluates good scope) {operand : Expr} (h : good operand) :
    Routine S fun e => e.delete operand scope := by
  have hO : S.Ordinary := hS.toOrdinary
  cases operand with
  | member object key =>
    refine .bind (.memberReference_of_good hS h) fun (base, key) => ?_
    refine .ite (fun _ => .fault hO _) fun _ => .bind (.toObject hO base) fun o => ?_
    cases o with
    | object id =>
      refine .bind (.updateGet _ fun s => hO.delete s id key) fun deleted => ?_
      refine .bind (.read _) fun strict => ?_
      exact .ite (fun _ => .fault hO _) fun _ => .pure _
    | _ => exact .pure _
  | identifier name => exact .pure _
  | _ => exact .bind (.evaluate hS h) fun _ => .pure _

theorem applyUpdate (hS : S.Evaluates good scope) (op : UpdateOp) (inFront : Bool)
    {target : Expr} (h : good target) :
    Routine S fun e => e.applyUpdate op inFront target scope := by
  have hO : S.Ordinary := hS.toOrdinary
  refine .bind (.reference hS h) fun r => .bind (.getReference hO r scope) fun value => ?_
  refine .bind (.toNumber hO value) fun old => ?_
  exact .bind (.putReference hS.toAssigns r _) fun _ => .pure _

theorem assign (hS : S.Evaluates good scope) (op : Option BinaryOp) {target value : Expr}
    (htarget : good target) (hvalue : good value) :
    Routine S fun e => e.assign op target value scope := by
  have hO : S.Ordinary := hS.toOrdinary
  have hplain : Routine S fun e => (do
      let reference ← e.reference target scope
      let value ← e.evaluate value scope
      Eval.putReference reference value scope
      return value : Eval Value) := by
    refine .bind (.reference hS htarget) fun r => .bind (.evaluate hS hvalue) fun v => ?_
    exact .bind (.putReference hS.toAssigns r v) fun _ => .pure _
  cases op with
  | some op =>
    refine .bind (.reference hS htarget) fun r => .bind (.getReference hO r scope) fun old => ?_
    refine .bind (.evaluate hS hvalue) fun right => .bind (.binary hO op old right) fun v => ?_
    exact .bind (.putReference hS.toAssigns r v) fun _ => .pure _
  | none =>
    cases target with
    | identifier name =>
      refine .bind (.evaluateNamed hS hvalue name) fun v => ?_
      exact .bind (.assignName hS.toAssigns name v) fun _ => .pure _
    | _ => exact hplain

theorem callee (hS : S.Evaluates good scope) {x : Expr} (h : good x) :
    Routine S fun e => e.callee x scope := by
  cases x with
  | member object key =>
    refine .bind (.memberReference_of_good hS h) fun (base, key) => ?_
    exact .bind (.getMember hS.toOrdinary base key) fun _ => .pure _
  | _ => exact .bind (.evaluate hS h) fun _ => .pure _

theorem applyCall (hS : S.Evaluates good scope) {callee : Expr} {xs : List Expr}
    (hcallee : good callee) (hxs : ∀ x ∈ xs, good x) :
    Routine S fun e => e.applyCall callee xs scope := by
  have hO : S.Ordinary := hS.toOrdinary
  refine .bind (.callee hS hcallee) fun (function, receiver) => ?_
  refine .bind (.arguments hS hxs) fun values => ?_
  refine .ite (fun _ => .task _ (hS.directEval _)) fun _ => .bind (.read _) fun callable => ?_
  exact .ite (fun _ => .call hO function receiver values) fun _ => .fault hO _

theorem newInstance (hS : S.Ordinary) (constructor : Value) :
    Routine S fun _ => Engine.newInstance constructor :=
  .bind (.getMember hS constructor "prototype") fun _ => .allocate hS ⟨rfl, nofun, nofun⟩

theorem applyNew (hS : S.Evaluates good scope) {callee : Expr} {xs : List Expr}
    (hcallee : good callee) (hxs : ∀ x ∈ xs, good x) :
    Routine S fun e => e.applyNew callee xs scope := by
  refine .bind (.evaluate hS hcallee) fun function => .bind (.arguments hS hxs) fun values => ?_
  exact .construct function values _ hS.constructs

/-- What an expression does is a routine where the evaluation of its parts is allowed.  Object
literals put properties in their places as nothing else does. -/
theorem expression (hS : S.Evaluates good scope) {x : Expr} (hx : good x)
    (hinsert : ∀ ps, x = .object ps → ∀ (s : Store) id key p, S.step s (s.insert id key p)) :
    Routine S fun e => e.expression x scope := by
  have hO : S.Ordinary := hS.toOrdinary
  have hpart {y : Expr} (h : y ∈ x.parts) : good y := hS.part hx h
  cases x with
  | literal l => exact .pure _
  | identifier name => exact .lookupName hO name scope
  | this => exact .read fun s => (s.lookup? scope "this").getD .undefined
  | array elements =>
    have helements : ∀ y, some y ∈ elements → good y := fun y hy =>
      hpart (List.reduceOption_mem_iff.mpr hy)
    exact .bind (.arrayElements hS helements) fun _ => .newArray hO _
  | object ps =>
    have hps : ∀ p ∈ ps, ∀ y ∈ p.parts, good y := fun p hp y hy =>
      hpart (List.mem_flatMap.mpr ⟨p, hp, hy⟩)
    refine .bind (.updateGet _ fun s => hO.allocate s _ ⟨rfl, nofun, nofun⟩) fun id => ?_
    exact .bind (.properties hS (hinsert ps rfl) id hps) fun _ => .pure _
  | function d => exact .closure d scope (hS.makes hx)
  | unary op operand =>
    refine .bind (.evaluate hS (hpart ?_)) fun v => .unary hO op v
    simp [Expr.parts]
  | binary op left right =>
    refine .bind (.evaluate hS (hpart ?_)) fun l => .bind (.evaluate hS (hpart ?_)) fun r => ?_
    · simp [Expr.parts]
    · simp [Expr.parts]
    · exact .binary hO op l r
  | logical op left right =>
    refine .bind (.evaluate hS (hpart ?_)) fun l => .ite (fun _ => .pure l) fun _ => ?_
    · simp [Expr.parts]
    · exact .evaluate hS (hpart (by simp [Expr.parts]))
  | update op inFront target => exact .applyUpdate hS op inFront (hpart (by simp [Expr.parts]))
  | assign op target value =>
    exact .assign hS op (hpart (by simp [Expr.parts])) (hpart (by simp [Expr.parts]))
  | conditional test consequent alternate =>
    refine .bind (.evaluate hS (hpart ?_)) fun t => .ite (fun _ => ?_) fun _ => ?_
    · simp [Expr.parts]
    · exact .evaluate hS (hpart (by simp [Expr.parts]))
    · exact .evaluate hS (hpart (by simp [Expr.parts]))
  | call callee xs =>
    have hcallee : good callee := hpart (List.mem_cons_self ..)
    exact .applyCall hS hcallee fun y hy => hpart (List.mem_cons_of_mem _ hy)
  | construct callee xs =>
    have hcallee : good callee := hpart (List.mem_cons_self ..)
    exact .applyNew hS hcallee fun y hy => hpart (List.mem_cons_of_mem _ hy)
  | member object key =>
    refine .bind (.memberReference_of_good hS hx) fun reference => ?_
    exact .getMember hO reference.1 reference.2
  | typeOf operand => exact .typeOf hS (hpart (by simp [Expr.parts]))
  | void operand => exact .bind (.evaluate hS (hpart (by simp [Expr.parts]))) fun _ => .pure _
  | delete operand => exact .delete hS (hpart (by simp [Expr.parts]))
  | sequence xs => exact .sequence hS (fun y hy => hpart hy) _

theorem evaluateOption (hS : S.Evaluates good scope) {x : Option Expr} (h : ∀ y ∈ x, good y) :
    Routine S fun e => e.evaluateOption x scope := by
  cases x with
  | none => exact .pure _
  | some x => exact .bind (.evaluate hS (h x rfl)) fun _ => .pure _

/-! ### Patterns -/

variable {fresh : Bool}

theorem bindTarget (hS : S.Binds good goodTarget scope fresh) {p : Pattern} (hp : goodTarget p)
    (value : Value) : Routine S fun e => e.bind p value scope fresh :=
  .task _ (hS.binds value hp)

theorem bindElements (hS : S.Binds good goodTarget scope fresh) (source : Value) (size i : Nat)
    {elements : List (Option Pattern)} (h : ∀ p, some p ∈ elements → goodTarget p) :
    Routine S fun e => e.bindElements source size scope fresh i elements := by
  have hO : S.Ordinary := hS.toOrdinary
  induction elements generalizing i with
  | nil => exact .pure _
  | cons element rest ih =>
    have hrest := ih (i + 1) fun p hp => h p (List.mem_cons_of_mem _ hp)
    have hplain {target : Pattern} (htarget : goodTarget target) : Routine S fun e => (do
        let element ← Eval.getMember source (toString i)
        let _ ← e.bind target element scope fresh
        e.bindElements source size scope fresh (i + 1) rest : Eval Unit) :=
      .bind (.getMember hO source _) fun v => .bind (.bindTarget hS htarget v) fun _ => hrest
    cases element with
    | none => exact hrest
    | some p =>
      have hp : goodTarget p := h p (List.mem_cons_self ..)
      cases p with
      | rest target =>
        have htarget : goodTarget target := hS.target hp (List.mem_singleton.mpr rfl)
        refine .bind (.elementsFrom hO source i _) fun values => ?_
        refine .bind (.newFullArray hO values) fun array => ?_
        exact .bind (.bindTarget hS htarget array) fun _ => .pure _
      | _ => exact hplain hp

theorem bindProperties (hS : S.Binds good goodTarget scope fresh) (source : Value)
    {ps : List PatternProperty} (htarget : ∀ p ∈ ps, goodTarget p.target)
    (hkey : ∀ p ∈ ps, ∀ x ∈ p.expressions, good x) :
    Routine S fun e => e.bindProperties source scope fresh ps := by
  have hO : S.Ordinary := hS.toOrdinary
  induction ps with
  | nil => exact .pure _
  | cons p rest ih =>
    have hrest := ih (fun p hp => htarget p (List.mem_cons_of_mem _ hp))
      fun p hp => hkey p (List.mem_cons_of_mem _ hp)
    have hp := htarget p (List.mem_cons_self ..)
    cases p with
    | shorthand name =>
      refine .bind (.getMember hO source name) fun value => ?_
      exact .bind (.bindTarget hS hp value) fun _ => hrest
    | keyed key target =>
      have hx : ∀ x ∈ key.parts, good x := hkey (.keyed key target) (List.mem_cons_self ..)
      refine .bind (.propertyKey hS.toEvaluates hx) fun key => ?_
      refine .bind (.getMember hO source key) fun value => ?_
      exact .bind (.bindTarget hS hp value) fun _ => hrest

theorem valueFor (hS : S.Evaluates good scope) (target : Pattern) {x : Expr} (hx : good x) :
    Routine S fun e => e.valueFor target x scope := by
  cases target with
  | identifier name => exact .evaluateNamed hS hx name
  | _ => exact .evaluate hS hx

/-- Binding a pattern is a routine where the binding of its parts is allowed. -/
theorem bindPattern (hS : S.Binds good goodTarget scope fresh) {p : Pattern} (hp : goodTarget p)
    (value : Value) : Routine S fun e => e.bindPattern p value scope fresh := by
  have hO : S.Ordinary := hS.toOrdinary
  have hE : S.Evaluates good scope := hS.toEvaluates
  cases p with
  | identifier name =>
    refine .ite (fun hfresh => ?_) fun _ => .assignName hS.toAssigns name value
    exact .update _ fun s => hS.bindFresh hfresh s name value
  | member target =>
    have htarget : good target := hS.expression hp (List.mem_singleton.mpr rfl)
    exact .bind (.reference hE htarget) fun r => .putReference hS.toAssigns r value
  | withDefault target default =>
    have hdefault : good default := hS.expression hp (List.mem_singleton.mpr rfl)
    have hbind (value : Value) : Routine S fun e => (do
        let _ ← e.bind target value scope fresh : Eval Unit) :=
      .bind (.bindTarget hS (hS.target hp (List.mem_singleton.mpr rfl)) value) fun _ => .pure _
    exact .ite (fun _ => .bind (.valueFor hE target hdefault) hbind) fun _ =>
      .bind (.pure value) hbind
  | array elements =>
    refine .ite (fun _ => .fault hO _) fun _ => .bind (.toObject hO value) fun source => ?_
    refine .bind (.getMember hO source "length") fun size => .bindElements hS source _ 0 ?_
    exact fun p h => hS.target hp (List.reduceOption_mem_iff.mpr h)
  | object ps =>
    refine .ite (fun _ => .fault hO _) fun _ => .bindProperties hS value ?_ ?_
    · exact fun p h => hS.target hp (List.mem_map.mpr ⟨p, h, rfl⟩)
    · exact fun p h x hx => hS.expression hp (List.mem_flatMap.mpr ⟨p, h, hx⟩)
  | rest target =>
    have htarget : goodTarget target := hS.target hp (List.mem_singleton.mpr rfl)
    exact .bind (.bindTarget hS htarget value) fun _ => .pure _

theorem declarators {kind : DeclarationKind} (hS : S.Binds good goodTarget scope kind.isLexical)
    {ds : List Declarator} (htarget : ∀ d ∈ ds, goodTarget d.target)
    (hinit : ∀ d ∈ ds, ∀ x ∈ d.init, good x) :
    Routine S fun e => e.declarators kind scope ds := by
  induction ds with
  | nil => exact .pure _
  | cons d rest ih =>
    have hrest := ih (fun d hd => htarget d (List.mem_cons_of_mem _ hd))
      fun d hd => hinit d (List.mem_cons_of_mem _ hd)
    have hbind (value : Value) := Routine.bindTarget hS (htarget d (List.mem_cons_self ..)) value
    have hx := hinit d (List.mem_cons_self ..)
    obtain ⟨target, init⟩ := d
    cases init with
    | some x =>
      refine .bind (.valueFor hS.toEvaluates target (hx x rfl)) fun value => ?_
      exact .bind (hbind value) fun _ => hrest
    | none =>
      refine .ite (fun hkind => ?_) fun _ => hrest
      have hundefined := hbind .undefined
      rw [hkind] at hundefined
      exact .bind hundefined fun _ => hrest

theorem declaration {d : Declaration} (hS : S.Binds good goodTarget scope d.kind.isLexical)
    (htarget : ∀ declarator ∈ d.declarators, goodTarget declarator.target)
    (hinit : ∀ declarator ∈ d.declarators, ∀ x ∈ declarator.init, good x) :
    Routine S fun e => e.declaration d scope :=
  .declarators hS htarget hinit

end Routine

end ProtoScript
