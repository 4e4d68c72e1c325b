import ProtoScript.Evaluation.Loop
import ProtoScript.Grammar.Statement
import ProtoScript.Proofs.Syntax.Parts
/-!
# Sound syntax

A statement is sound in a place if every jump in it has somewhere to go: a loop, a `switch`
statement or a label around it within the same function, or the function itself.  A statement that
stands alone, not in a list, moreover declares no lexical names, no name in sound syntax is a
reserved word, and a rest ends the array pattern that it is in.  Soundness goes through functions,
so all that sound syntax ever evaluates to is sound as well.
-/

namespace ProtoScript

/-- Where the jumps in a statement can go. -/
structure Targets where
  /-- Whether there is a function to return from. -/
  returns : Bool
  /-- Whether there is a loop or a `switch` to break. -/
  breaks : Bool
  /-- Whether there is a loop to continue. -/
  continues : Bool
  /-- The labels that can be broken to. -/
  labels : List String
  /-- The labels of loops, which can be continued. -/
  loopLabels : List String

namespace Targets

def outside : Targets := ⟨false, false, false, [], []⟩

def function : Targets := ⟨true, false, false, [], []⟩

def loop (t : Targets) (chain : List String) : Targets :=
  { t with breaks := true, continues := true, loopLabels := t.loopLabels ++ chain }

def switch (t : Targets) : Targets := { t with breaks := true }

def labeled (t : Targets) (label : String) : Targets := { t with labels := t.labels ++ [label] }

/-- The completions that may leave a statement.  Exceptions always may. -/
def allows (t : Targets) : Abrupt → Prop
  | .thrown _ => True
  | .returned _ => t.returns = true
  | .broke none => t.breaks = true
  | .broke (some label) => label ∈ t.labels
  | .continued none => t.continues = true
  | .continued (some label) => label ∈ t.loopLabels

end Targets

/-- The name is none of the words that all code reserves, such as `this`. -/
def Usable (name : String) : Prop := Grammar.isReserved name false = false

theorem Usable.ne_this {name : String} (h : Usable name) : name ≠ "this" := by
  rintro rfl
  have hreserved : Grammar.isReserved "this" false = true := by decide
  exact Bool.false_ne_true (h.symm.trans hreserved)

def Expr.IsLeaf : Expr → Prop
  | .identifier _ => True
  | .function _ => True
  | _ => False

mutual

inductive Expr.Sound : Expr → Prop
  | intro {x : Expr} (parts : ∀ y ∈ x.parts, Expr.Sound y)
      (definition : ∀ d, x = .function d → FunctionDef.Sound d)
      (usable : ∀ name, x = .identifier name → Usable name) : Expr.Sound x

/-- All functions and names in the pattern are sound, and its rests come last. -/
inductive Pattern.Sound : Pattern → Prop
  | intro {p : Pattern} (parts : ∀ q ∈ p.parts, Pattern.Sound q)
      (expressions : ∀ x ∈ p.expressions, Expr.Sound x)
      (usable : ∀ name, p = .identifier name → Usable name)
      (last : ∀ before target after, p = .array (before ++ some (.rest target) :: after) →
        after = []) : Pattern.Sound p

/-- Every jump in the body has somewhere to go within the function.  A method may have any name. -/
inductive FunctionDef.Sound : FunctionDef → Prop
  | intro {d : FunctionDef} (parameters : ∀ p ∈ d.parameters, Pattern.Sound p)
      (body : ∀ s ∈ d.body, Stmt.Sound .function [] s)
      (usable : d.kind ≠ .method → ∀ name ∈ d.name, Usable name) : FunctionDef.Sound d

inductive Declaration.Sound : Declaration → Prop
  | intro {d : Declaration}
      (targets : ∀ declarator ∈ d.declarators, Pattern.Sound declarator.target)
      (inits : ∀ declarator ∈ d.declarators, ∀ x ∈ declarator.init, Expr.Sound x) :
      Declaration.Sound d

/-- Every jump in the statement has somewhere to go: inside it or to one of the targets.  The labels
are those directly in front of the statement. -/
inductive Stmt.Sound : Targets → List String → Stmt → Prop
  | empty {t chain} : Stmt.Sound t chain .empty
  | debugger {t chain} : Stmt.Sound t chain .debugger
  | expression {t chain x} (value : Expr.Sound x) : Stmt.Sound t chain (.expression x)
  | block {t chain body} (statements : ∀ s ∈ body, Stmt.Sound t [] s) :
      Stmt.Sound t chain (.block body)
  | declaration {t chain d} (declared : Declaration.Sound d) : Stmt.Sound t chain (.declaration d)
  | function {t chain d} (definition : FunctionDef.Sound d) (declared : d.kind ≠ .method) :
      Stmt.Sound t chain (.function d)
  | ifStmt {t chain test consequent alternate} (test_sound : Expr.Sound test)
      (consequent_sound : Stmt.Sound t [] consequent)
      (consequent_alone : Grammar.lexicalNames consequent = [])
      (alternate_sound : ∀ s ∈ alternate, Stmt.Sound t [] s)
      (alternate_alone : ∀ s ∈ alternate, Grammar.lexicalNames s = []) :
      Stmt.Sound t chain (.ifStmt test consequent alternate)
  | whileStmt {t chain test body} (test_sound : Expr.Sound test)
      (body_sound : Stmt.Sound (t.loop chain) [] body) (alone : Grammar.lexicalNames body = []) :
      Stmt.Sound t chain (.whileStmt test body)
  | doWhileStmt {t chain body test} (body_sound : Stmt.Sound (t.loop chain) [] body)
      (alone : Grammar.lexicalNames body = []) (test_sound : Expr.Sound test) :
      Stmt.Sound t chain (.doWhileStmt body test)
  | forStmt {t chain init test update body}
      (declared : ∀ d, init = some (.declaration d) → Declaration.Sound d)
      (evaluated : ∀ x, init = some (.expression x) → Expr.Sound x)
      (test_sound : ∀ x ∈ test, Expr.Sound x) (update_sound : ∀ x ∈ update, Expr.Sound x)
      (body_sound : Stmt.Sound (t.loop chain) [] body) (alone : Grammar.lexicalNames body = []) :
      Stmt.Sound t chain (.forStmt init test update body)
  | forInStmt {t chain target object body}
      (declared : ∀ d, target = .declaration d → Declaration.Sound d)
      (single : ∀ d, target = .declaration d → ∃ declarator, d.declarators = [declarator])
      (assigned : ∀ p, target = .pattern p → Pattern.Sound p) (object_sound : Expr.Sound object)
      (body_sound : Stmt.Sound (t.loop chain) [] body) (alone : Grammar.lexicalNames body = []) :
      Stmt.Sound t chain (.forInStmt target object body)
  | returnStmt {t chain value} (inside : t.returns = true)
      (value_sound : ∀ x ∈ value, Expr.Sound x) :
      Stmt.Sound t chain (.returnStmt value)
  | breakStmt {t chain label} (inside : t.allows (.broke label)) :
      Stmt.Sound t chain (.breakStmt label)
  | continueStmt {t chain label} (inside : t.allows (.continued label)) :
      Stmt.Sound t chain (.continueStmt label)
  | throwStmt {t chain value} (value_sound : Expr.Sound value) :
      Stmt.Sound t chain (.throwStmt value)
  | tryStmt {t chain body handler finalizer} (body_sound : ∀ s ∈ body, Stmt.Sound t [] s)
      (parameter_sound : ∀ h ∈ handler, ∀ p ∈ h.parameter, Pattern.Sound p)
      (handler_sound : ∀ h ∈ handler, ∀ s ∈ h.body, Stmt.Sound t [] s)
      (finalizer_sound : ∀ f ∈ finalizer, ∀ s ∈ f, Stmt.Sound t [] s) :
      Stmt.Sound t chain (.tryStmt body handler finalizer)
  | switchStmt {t chain subject cases} (subject_sound : Expr.Sound subject)
      (tests_sound : ∀ clause ∈ cases, ∀ x ∈ clause.test, Expr.Sound x)
      (bodies_sound : ∀ clause ∈ cases, ∀ s ∈ clause.body, Stmt.Sound t.switch [] s) :
      Stmt.Sound t chain (.switchStmt subject cases)
  | labeled {t chain label body}
      (body_sound : Stmt.Sound (t.labeled label) (chain ++ [label]) body)
      (alone : Grammar.lexicalNames body = []) : Stmt.Sound t chain (.labeled label body)

end

def Program.Sound (p : Program) : Prop := ∀ s ∈ p.body, Stmt.Sound .outside [] s

namespace Expr.Sound

theorem part {x y : Expr} (h : x.Sound) (hy : y ∈ x.parts) : y.Sound := by
  cases h with
  | intro parts _ _ => exact parts y hy

theorem definition {d : FunctionDef} (h : (Expr.function d).Sound) : d.Sound := by
  cases h with
  | intro _ definition _ => exact definition d rfl

theorem usable {name : String} (h : (Expr.identifier name).Sound) : Usable name := by
  cases h with
  | intro _ _ usable => exact usable name rfl

theorem function {d : FunctionDef} (h : d.Sound) : (Expr.function d).Sound := by
  refine .intro (fun _ hy => nomatch hy) (fun d' heq => ?_) nofun
  cases heq
  exact h

theorem identifier {name : String} (h : Usable name) : (Expr.identifier name).Sound := by
  refine .intro nofun nofun fun name' heq => ?_
  cases heq
  exact h

/-- An expression that is neither a name nor a function is sound if its parts are. -/
theorem of_parts {x : Expr} (hx : ¬ x.IsLeaf) (hparts : ∀ y ∈ x.parts, y.Sound) : x.Sound := by
  refine .intro hparts (fun d h => ?_) fun name h => ?_
  · exact absurd (h ▸ trivial) hx
  · exact absurd (h ▸ trivial) hx

end Expr.Sound

namespace Pattern.Sound

theorem part {p q : Pattern} (h : p.Sound) (hq : q ∈ p.parts) : q.Sound := by
  cases h with
  | intro parts _ _ _ => exact parts q hq

theorem expression {p : Pattern} {x : Expr} (h : p.Sound) (hx : x ∈ p.expressions) : x.Sound := by
  cases h with
  | intro _ expressions _ _ => exact expressions x hx

theorem usable {name : String} (h : (Pattern.identifier name).Sound) : Usable name := by
  cases h with
  | intro _ _ usable _ => exact usable name rfl

theorem identifier {name : String} (h : Usable name) : (Pattern.identifier name).Sound := by
  refine .intro nofun nofun (fun name' heq => ?_) nofun
  cases heq
  exact h

theorem restsLast {p : Pattern} : p.Sound → p.RestsLast
  | .intro parts _ _ last => .intro (fun q hq => (parts q hq).restsLast) last

end Pattern.Sound

structure Pattern.Single (p : Pattern) : Prop where
  sound : p.Sound
  no_rest : ∀ target, p ≠ .rest target

/-!
### Names that sound code binds

Whatever sound code binds has a name that is no reserved word.
-/

theorem Pattern.Sound.usable_boundNames {p : Pattern} :
    p.Sound → ∀ name ∈ p.boundNames, Usable name
  | .intro parts _ usable _, name, hname => by
    rcases Pattern.mem_boundNames.mp hname with heq | ⟨q, hq, hname⟩
    · exact usable name heq
    · exact (parts q hq).usable_boundNames name hname

theorem Declaration.Sound.usable_boundNames {d : Declaration} (h : d.Sound) :
    ∀ name ∈ d.boundNames, Usable name := by
  intro name hname
  obtain ⟨declarator, hmem, hname⟩ := List.mem_flatMap.mp hname
  cases h with
  | intro targets _ => exact (targets declarator hmem).usable_boundNames name hname

theorem FunctionDef.Sound.usable_parameterNames {d : FunctionDef} (h : d.Sound) :
    ∀ name ∈ d.parameterNames, Usable name := by
  intro name hname
  obtain ⟨p, hmem, hname⟩ := List.mem_flatMap.mp hname
  cases h with
  | intro parameters _ _ => exact (parameters p hmem).usable_boundNames name hname

namespace Stmt.Sound

variable {t : Targets} {chain : List String} {s : Stmt}

theorem declared {d : Declaration} (h : Stmt.Sound t chain s) (hd : s.declaration? = some d) :
    d.Sound := by
  cases h with
  | declaration declared =>
    cases hd
    exact declared
  | @forStmt _ _ init _ _ _ declared =>
    rcases init with _ | _ | _ <;> cases hd
    exact declared _ rfl
  | @forInStmt _ _ target _ _ declared =>
    cases target <;> cases hd
    exact declared _ rfl
  | _ => cases hd

/-- The statements directly inside a sound one are sound, each in the place that it stands in. -/
theorem inner {part : Stmt} (h : Stmt.Sound t chain s) (hpart : part ∈ s.inner) :
    ∃ t' chain', Stmt.Sound t' chain' part := by
  cases h with
  | block statements => exact ⟨_, _, statements part hpart⟩
  | ifStmt _ consequent _ alternate _ =>
    rcases List.mem_cons.mp hpart with rfl | hpart
    · exact ⟨_, _, consequent⟩
    · exact ⟨_, _, alternate part (Option.mem_toList.mp hpart)⟩
  | whileStmt _ body _ | doWhileStmt body _ _ | forStmt _ _ _ _ body _ | forInStmt _ _ _ _ body _
  | labeled body _ =>
    cases List.mem_singleton.mp hpart
    exact ⟨_, _, body⟩
  | @tryStmt _ _ _ handler finalizer tried _ handled last =>
    simp only [Stmt.inner, List.mem_append] at hpart
    rcases hpart with (hpart | hpart) | hpart
    · exact ⟨_, _, tried part hpart⟩
    · cases handler with
      | none => cases hpart
      | some handler => exact ⟨_, _, handled handler rfl part hpart⟩
    · cases finalizer with
      | none => cases hpart
      | some body => exact ⟨_, _, last body rfl part hpart⟩
  | switchStmt _ _ bodies =>
    obtain ⟨clause, hclause, hpart⟩ := List.mem_flatMap.mp hpart
    exact ⟨_, _, bodies clause hclause part hpart⟩
  | _ => cases hpart

/-- No reserved word is declared in sound statements, however deep. -/
theorem usable_of_declaresVar {name : String} (h : Stmt.Sound t chain s)
    (hdeclares : s.DeclaresVar name) : Usable name := by
  induction hdeclares generalizing t chain with
  | own hdeclaration _ hname => exact (h.declared hdeclaration).usable_boundNames name hname
  | inside hpart _ ih =>
    obtain ⟨t', chain', hpart⟩ := h.inner hpart
    exact ih hpart

end Stmt.Sound

theorem usable_varNamesOfList {t : Targets} {body : List Stmt}
    (h : ∀ s ∈ body, Stmt.Sound t [] s) : ∀ name ∈ Stmt.varNamesOfList body, Usable name := by
  intro name hname
  obtain ⟨s, hs, hdeclares⟩ := Stmt.mem_varNamesOfList_iff.mp hname
  exact (h s hs).usable_of_declaresVar hdeclares

theorem Stmt.Sound.usable_lexicalNames {t : Targets} {chain : List String} {s : Stmt}
    (h : Stmt.Sound t chain s) : ∀ name ∈ Grammar.lexicalNames s, Usable name := by
  cases h with
  | declaration declared =>
    rw [Grammar.lexicalNames]
    split
    · exact declared.usable_boundNames
    · exact nofun
  | _ => exact nofun

end ProtoScript
