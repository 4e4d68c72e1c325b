import Mathlib.Data.List.ReduceOption
import ProtoScript.Grammar.Expression
import ProtoScript.Syntax.Names
/-!
# What stands in a program

The parts of expressions and patterns, what statements declare, and all pieces of a program.
-/

namespace ProtoScript

/-!
### Parts of expressions and patterns

The expressions and patterns that stand directly in another one, as far as its evaluation can reach
them.
-/

def MemberKey.parts : MemberKey → List Expr
  | .dot _ => []
  | .computed key => [key]

def PropertyKey.parts : PropertyKey → List Expr
  | .computed key => [key]
  | _ => []

def Property.parts (p : Property) : List Expr :=
  (match p with
    | .keyed key _ => key.parts
    | .shorthand _ _ => []) ++ [p.value]

def Expr.parts : Expr → List Expr
  | .literal _ | .identifier _ | .this | .function _ => []
  | .array elements => elements.reduceOption
  | .object properties => properties.flatMap Property.parts
  | .unary _ operand => [operand]
  | .binary _ left right => [left, right]
  | .logical _ left right => [left, right]
  | .update _ _ target => [target]
  | .assign _ target value => [target, value]
  | .conditional test consequent alternate => [test, consequent, alternate]
  | .call callee arguments => callee :: arguments
  | .construct callee arguments => callee :: arguments
  | .member base key => base :: key.parts
  | .typeOf operand => [operand]
  | .void operand => [operand]
  | .delete operand => [operand]
  | .sequence expressions => expressions

def PatternProperty.target : PatternProperty → Pattern
  | .keyed _ target => target
  | .shorthand name => .identifier name

/-- The expressions in the key of a property of an object pattern. -/
def PatternProperty.expressions : PatternProperty → List Expr
  | .keyed key _ => key.parts
  | .shorthand _ => []

def Pattern.parts : Pattern → List Pattern
  | .identifier _ | .member _ => []
  | .array elements => elements.reduceOption
  | .object properties => properties.map PatternProperty.target
  | .withDefault target _ => [target]
  | .rest target => [target]

def Pattern.expressions : Pattern → List Expr
  | .member target => [target]
  | .withDefault _ value => [value]
  | .object properties => properties.flatMap PatternProperty.expressions
  | _ => []

/-- The only rests in an array pattern, here or anywhere inside, are last elements. -/
inductive Pattern.RestsLast : Pattern → Prop
  | intro {p : Pattern} (parts : ∀ q ∈ p.parts, RestsLast q)
      (last : ∀ before target after, p = .array (before ++ some (.rest target) :: after) →
        after = []) : RestsLast p

theorem Pattern.RestsLast.part {p q : Pattern} (h : p.RestsLast) (hq : q ∈ p.parts) :
    q.RestsLast := by
  cases h with
  | intro parts _ => exact parts q hq

theorem Pattern.RestsLast.last {before after : List (Option Pattern)} {target : Pattern}
    (h : (Pattern.array (before ++ some (.rest target) :: after)).RestsLast) : after = [] := by
  cases h with
  | intro _ last => exact last before target after rfl

namespace Pattern

variable {name : String}

theorem mem_boundNamesOfElements {elements : List (Option Pattern)} :
    name ∈ boundNamesOfElements elements ↔ ∃ q, some q ∈ elements ∧ name ∈ q.boundNames := by
  induction elements with
  | nil => simp [boundNamesOfElements]
  | cons element rest ih =>
    cases element <;> simp [boundNamesOfElements, ih, or_and_right, exists_or]

theorem mem_boundNamesOfProperties {properties : List PatternProperty} :
    name ∈ boundNamesOfProperties properties ↔
      ∃ p ∈ properties, name ∈ p.target.boundNames := by
  induction properties with
  | nil => simp [boundNamesOfProperties]
  | cons first rest ih =>
    cases first <;>
      simp [boundNamesOfProperties, PatternProperty.boundNames, PatternProperty.target,
        boundNames, ih]

theorem mem_boundNames {p : Pattern} :
    name ∈ p.boundNames ↔ p = .identifier name ∨ ∃ q ∈ p.parts, name ∈ q.boundNames := by
  cases p with
  | identifier other => simp [boundNames, parts, eq_comm]
  | array elements =>
    simp [boundNames, parts, mem_boundNamesOfElements, List.reduceOption_mem_iff]
  | object properties => simp [boundNames, parts, mem_boundNamesOfProperties]
  | _ => simp [boundNames, parts]

theorem boundNames_of_mem_parts {p q : Pattern} (h : q ∈ p.parts) :
    ∀ name ∈ q.boundNames, name ∈ p.boundNames :=
  fun _ hname => mem_boundNames.mpr (.inr ⟨q, h, hname⟩)

end Pattern

/-!
### Variables and functions of statements

A statement declares the variables of all statements inside it, however deep, but not those of
functions.  What is collected from a statement are the names that are declared so.  The functions
that a list of statements declares are those among the statements of the list.
-/

namespace Stmt

/-- The names of the functions that the statements of a list declare. -/
def functionNames (body : List Stmt) : List String :=
  body.filterMap fun
    | .function d => d.name
    | _ => none

theorem mem_functionNames {body : List Stmt} {d : FunctionDef} {name : String}
    (hd : .function d ∈ body) (hname : name ∈ d.name) : name ∈ functionNames body :=
  List.mem_filterMap.mpr ⟨_, hd, hname⟩

/-- The statements directly inside a statement.  Functions have bodies of their own. -/
def inner : Stmt → List Stmt
  | .block body => body
  | .ifStmt _ consequent alternate => consequent :: alternate.toList
  | .whileStmt _ body | .doWhileStmt body _ | .labeled _ body => [body]
  | .forStmt _ _ _ body | .forInStmt _ _ body => [body]
  | .tryStmt tried handler finalizer =>
    tried ++ (handler.map Handler.body).getD [] ++ finalizer.getD []
  | .switchStmt _ cases => cases.flatMap SwitchCase.body
  | _ => []

def declaration? : Stmt → Option Declaration
  | .declaration d => some d
  | .forStmt (some (.declaration d)) _ _ _ => some d
  | .forInStmt (.declaration d) _ _ => some d
  | _ => none

/-- The statement declares the name as a variable, or a statement inside it does. -/
inductive DeclaresVar (name : String) : Stmt → Prop
  | own {s : Stmt} {d : Declaration} (hdeclaration : s.declaration? = some d)
      (hkind : d.kind = .variable) (hname : name ∈ d.boundNames) : DeclaresVar name s
  | inside {s part : Stmt} (hpart : part ∈ s.inner) (h : DeclaresVar name part) :
      DeclaresVar name s

variable {name : String} {s : Stmt} {body : List Stmt}

theorem mem_varNames_declaration {d : Declaration} :
    name ∈ d.varNames ↔ d.kind = .variable ∧ name ∈ d.boundNames := by
  unfold Declaration.varNames DeclarationKind.isLexical
  cases d.kind <;> simp

theorem mem_varNamesOfList : name ∈ varNamesOfList body ↔ ∃ s ∈ body, name ∈ s.varNames := by
  induction body with
  | nil => simp [varNamesOfList]
  | cons first rest ih => simp [varNamesOfList, ih]

theorem mem_varNamesOfCases {cases : List SwitchCase} :
    name ∈ varNamesOfCases cases ↔ ∃ clause ∈ cases, name ∈ varNamesOfList clause.body := by
  induction cases with
  | nil => simp [varNamesOfCases]
  | cons first rest ih =>
    obtain ⟨test, body⟩ := first
    simp [varNamesOfCases, ih]

/-- The variables of a statement are those that it declares itself and those of the statements
inside. -/
theorem mem_varNames : name ∈ s.varNames ↔
    (∃ d, s.declaration? = some d ∧ d.kind = .variable ∧ name ∈ d.boundNames) ∨
      ∃ part ∈ s.inner, name ∈ part.varNames := by
  cases s with
  | declaration d => simp [varNames, declaration?, inner, mem_varNames_declaration]
  | block body => simp [varNames, declaration?, inner, mem_varNamesOfList]
  | ifStmt test consequent alternate =>
    cases alternate <;> simp [varNames, varNamesOfOption, declaration?, inner]
  | whileStmt test body => simp [varNames, declaration?, inner]
  | doWhileStmt body test => simp [varNames, declaration?, inner]
  | labeled label body => simp [varNames, declaration?, inner]
  | forStmt init test update body =>
    rcases init with _ | _ | d <;>
      simp [varNames, declaration?, inner, mem_varNames_declaration]
  | forInStmt target object body =>
    cases target <;> simp [varNames, declaration?, inner, mem_varNames_declaration]
  | tryStmt tried handler finalizer =>
    rcases handler with _ | ⟨parameter, handled⟩ <;> cases finalizer <;>
      simp [varNames, varNamesOfHandler, varNamesOfFinalizer, declaration?, inner,
        mem_varNamesOfList, or_and_right, exists_or]
  | switchStmt subject cases =>
    simp [varNames, declaration?, inner, mem_varNamesOfCases, mem_varNamesOfList]
    grind
  | _ => simp [varNames, declaration?, inner]

theorem sizeOf_lt_of_mem_inner {part : Stmt} (h : part ∈ s.inner) : sizeOf part < sizeOf s := by
  cases s with
  | block body =>
    have hpart : sizeOf part < sizeOf body := List.sizeOf_lt_of_mem h
    simp only [Stmt.block.sizeOf_spec]
    omega
  | ifStmt test consequent alternate =>
    simp only [Stmt.ifStmt.sizeOf_spec]
    rcases List.mem_cons.mp h with rfl | h
    · omega
    · obtain rfl := Option.mem_toList.mp h
      simp only [Option.some.sizeOf_spec]
      omega
  | whileStmt test body | doWhileStmt body test | labeled label body
  | forStmt init test update body | forInStmt target object body =>
    obtain rfl := List.mem_singleton.mp h
    simp only [Stmt.whileStmt.sizeOf_spec, Stmt.doWhileStmt.sizeOf_spec, Stmt.labeled.sizeOf_spec,
      Stmt.forStmt.sizeOf_spec, Stmt.forInStmt.sizeOf_spec]
    omega
  | tryStmt tried handler finalizer =>
    simp only [Stmt.tryStmt.sizeOf_spec]
    rcases List.mem_append.mp h with h | h
    · rcases List.mem_append.mp h with h | h
      · have hpart : sizeOf part < sizeOf tried := List.sizeOf_lt_of_mem h
        omega
      · rcases handler with _ | ⟨parameter, handled⟩
        · cases h
        · have hpart : sizeOf part < sizeOf handled := List.sizeOf_lt_of_mem h
          simp only [Option.some.sizeOf_spec, Handler.mk.sizeOf_spec]
          omega
    · cases finalizer with
      | none => cases h
      | some body =>
        have hpart : sizeOf part < sizeOf body := List.sizeOf_lt_of_mem h
        simp only [Option.some.sizeOf_spec]
        omega
  | switchStmt subject cases =>
    obtain ⟨⟨test, body⟩, hclause, h⟩ := List.mem_flatMap.mp h
    have hpart : sizeOf part < sizeOf body := List.sizeOf_lt_of_mem h
    have hcase := List.sizeOf_lt_of_mem hclause
    simp only [Stmt.switchStmt.sizeOf_spec, SwitchCase.mk.sizeOf_spec] at hcase ⊢
    omega
  | _ => cases h

/-- The collected variables of a statement are those that it declares at any depth. -/
theorem mem_varNames_iff : name ∈ s.varNames ↔ s.DeclaresVar name := by
  constructor
  · intro h
    induction hn : sizeOf s using Nat.strongRecOn generalizing s with
    | ind n ih =>
      rcases mem_varNames.mp h with ⟨d, hdeclaration, hkind, hname⟩ | ⟨part, hpart, hname⟩
      · exact .own hdeclaration hkind hname
      · exact .inside hpart (ih _ (hn ▸ sizeOf_lt_of_mem_inner hpart) hname rfl)
  · intro h
    induction h with
    | own hdeclaration hkind hname => exact mem_varNames.mpr (.inl ⟨_, hdeclaration, hkind, hname⟩)
    | inside hpart _ ih => exact mem_varNames.mpr (.inr ⟨_, hpart, ih⟩)

theorem mem_varNamesOfList_iff :
    name ∈ varNamesOfList body ↔ ∃ s ∈ body, s.DeclaresVar name := by
  simp only [mem_varNamesOfList, mem_varNames_iff]

end Stmt

/-- The statements that a `switch` runs, from a selected clause on or from the default one on, are
among those of all clauses. -/
theorem SwitchCase.mem_bodies_of_run {cases : List SwitchCase}
    {selected : Option (List SwitchCase)} (h : ∀ run ∈ selected, ∀ clause ∈ run, clause ∈ cases)
    {s : Stmt} (hs : s ∈ (selected.getD
      (cases.dropWhile fun clause => clause.test.isSome)).flatMap SwitchCase.body) :
    s ∈ cases.flatMap SwitchCase.body := by
  obtain ⟨clause, hclause, hs⟩ := List.mem_flatMap.mp hs
  refine List.mem_flatMap.mpr ⟨clause, ?_, hs⟩
  cases selected with
  | none => exact (List.dropWhile_sublist _).mem hclause
  | some run => exact h run rfl clause hclause

/-!
### The pieces of a program

Everything that a program is made of, each piece with the place that it stands in.  An expression is
an operand where an operator, a call or a member access in the same expression takes it up, and it
is a whole where it stands by itself: as a statement, an initial value, an argument, an element, the
value or the key of a property, a branch of a conditional, the value or the target of an assignment.
-/

inductive Piece where
  | whole (x : Expr)
  | operand (x : Expr)
  | pattern (p : Pattern)
  | function (d : FunctionDef)
  | declaration (d : Declaration)
  | handler (h : Handler)
  | statement (s : Stmt)

def Property.pieces : Property → List Piece
  | .keyed key value => key.parts.map .whole ++ [.whole value]
  | .shorthand _ cover => cover.toList.map .whole

def Expr.pieces : Expr → List Piece
  | .literal _ | .identifier _ | .this => []
  | .array elements => elements.reduceOption.map .whole
  | .object properties => properties.flatMap Property.pieces
  | .function d => [.function d]
  | .unary _ x => [.operand x]
  | .binary _ left right => [.operand left, .operand right]
  | .logical _ left right => [.operand left, .operand right]
  | .update _ _ target => [.whole target]
  | .assign _ target value => [.whole target, .whole value]
  | .conditional test consequent alternate => [.operand test, .whole consequent, .whole alternate]
  | .call callee arguments => .operand callee :: arguments.map .whole
  | .construct callee arguments => .operand callee :: arguments.map .whole
  | .member base key => .operand base :: key.parts.map .whole
  | .typeOf x => [.operand x]
  | .void x => [.operand x]
  | .delete x => [.operand x]
  | .sequence xs => xs.map .whole

def Stmt.pieces : Stmt → List Piece
  | .empty | .debugger | .breakStmt _ | .continueStmt _ => []
  | .expression x => [.whole x]
  | .block body => body.map .statement
  | .declaration d => [.declaration d]
  | .function d => [.function d]
  | .ifStmt test consequent alternate =>
    .whole test :: .statement consequent :: alternate.toList.map .statement
  | .whileStmt test body => [.whole test, .statement body]
  | .doWhileStmt body test => [.statement body, .whole test]
  | .forStmt init test update body =>
    (match init with
      | none => []
      | some (.declaration d) => [.declaration d]
      | some (.expression x) => [.whole x]) ++
      (test.toList.map .whole ++ (update.toList.map .whole ++ [.statement body]))
  | .forInStmt target object body =>
    [match target with
      | .declaration d => .declaration d
      | .pattern p => .pattern p, .whole object, .statement body]
  | .returnStmt value => value.toList.map .whole
  | .throwStmt value => [.whole value]
  | .tryStmt tried handler finalizer =>
    tried.map .statement ++
      (handler.toList.map .handler ++ (finalizer.toList.flatMap fun body => body.map .statement))
  | .switchStmt subject cases =>
    .whole subject :: cases.flatMap fun clause =>
      clause.test.toList.map .whole ++ clause.body.map .statement
  | .labeled _ body => [.statement body]

def Piece.parts : Piece → List Piece
  | .whole x => x.pieces
  | .operand x => x.pieces
  | .pattern p => p.parts.map .pattern ++ p.expressions.map .whole
  | .function d => d.parameters.map .pattern ++ d.body.map .statement
  | .declaration d => d.declarators.flatMap fun declarator =>
    .pattern declarator.target :: declarator.init.toList.map .whole
  | .handler h => h.parameter.toList.map .pattern ++ h.body.map .statement
  | .statement s => s.pieces

inductive Piece.Obeys (law : Piece → Prop) : Piece → Prop
  | intro {p : Piece} (own : law p) (inside : ∀ q ∈ p.parts, Obeys law q) : Obeys law p

inductive Piece.Within : Piece → Piece → Prop
  | refl (p : Piece) : Within p p
  | step {p q r : Piece} (hq : q ∈ r.parts) (h : Within p q) : Within p r

def Program.Contains (program : Program) (p : Piece) : Prop :=
  ∃ s ∈ program.body, p.Within (.statement s)

namespace Piece.Obeys

variable {law : Piece → Prop}

theorem own {p : Piece} (h : p.Obeys law) : law p := by
  cases h with
  | intro own _ => exact own

theorem part {p q : Piece} (h : p.Obeys law) (hq : q ∈ p.parts) : q.Obeys law := by
  cases h with
  | intro _ inside => exact inside q hq

/-- A law that holds of everything inside a piece holds of what stands in it. -/
theorem within {p r : Piece} (hr : r.Obeys law) (h : p.Within r) : law p := by
  induction h with
  | refl => exact hr.own
  | step hq _ ih => exact ih (hr.part hq)

end Piece.Obeys

end ProtoScript
