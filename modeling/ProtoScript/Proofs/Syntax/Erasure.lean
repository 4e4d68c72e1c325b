import ProtoScript.Syntax.Names
import ProtoScript.Grammar.Program
/-!
# Trees without their modes

A function carries the mode its code is in.  `erase` makes every mark of strict mode in a tree
sloppy and leaves all else as it is, so two trees differ in their modes alone if they are equal once
erased.
-/

namespace ProtoScript

mutual

def Expr.erase : Expr → Expr
  | .literal value => .literal value
  | .identifier name => .identifier name
  | .this => .this
  | .array elements => .array (Expr.eraseElements elements)
  | .object properties => .object (Property.eraseAll properties)
  | .function definition => .function definition.erase
  | .unary op operand => .unary op operand.erase
  | .binary op left right => .binary op left.erase right.erase
  | .logical op left right => .logical op left.erase right.erase
  | .update op inFront target => .update op inFront target.erase
  | .assign op target value => .assign op target.erase value.erase
  | .conditional test consequent alternate =>
    .conditional test.erase consequent.erase alternate.erase
  | .call callee arguments => .call callee.erase (Expr.eraseAll arguments)
  | .construct callee arguments => .construct callee.erase (Expr.eraseAll arguments)
  | .member object key => .member object.erase key.erase
  | .typeOf operand => .typeOf operand.erase
  | .void operand => .void operand.erase
  | .delete operand => .delete operand.erase
  | .sequence expressions => .sequence (Expr.eraseAll expressions)

def Expr.eraseAll : List Expr → List Expr
  | [] => []
  | x :: rest => x.erase :: Expr.eraseAll rest

def Expr.eraseElements : List (Option Expr) → List (Option Expr)
  | [] => []
  | none :: rest => none :: Expr.eraseElements rest
  | some x :: rest => some x.erase :: Expr.eraseElements rest

def Expr.eraseOption : Option Expr → Option Expr
  | none => none
  | some x => some x.erase

def MemberKey.erase : MemberKey → MemberKey
  | .dot name => .dot name
  | .computed key => .computed key.erase

def PropertyKey.erase : PropertyKey → PropertyKey
  | .identifier name => .identifier name
  | .string text => .string text
  | .number value => .number value
  | .computed key => .computed key.erase

def Property.erase : Property → Property
  | .keyed key value => .keyed key.erase value.erase
  | .shorthand name cover => .shorthand name (Expr.eraseOption cover)

def Property.eraseAll : List Property → List Property
  | [] => []
  | p :: rest => p.erase :: Property.eraseAll rest

def Pattern.erase : Pattern → Pattern
  | .identifier name => .identifier name
  | .array elements => .array (Pattern.eraseElements elements)
  | .object properties => .object (PatternProperty.eraseAll properties)
  | .withDefault target value => .withDefault target.erase value.erase
  | .rest target => .rest target.erase
  | .member target => .member target.erase

def Pattern.eraseAll : List Pattern → List Pattern
  | [] => []
  | p :: rest => p.erase :: Pattern.eraseAll rest

def Pattern.eraseElements : List (Option Pattern) → List (Option Pattern)
  | [] => []
  | none :: rest => none :: Pattern.eraseElements rest
  | some p :: rest => some p.erase :: Pattern.eraseElements rest

def Pattern.eraseOption : Option Pattern → Option Pattern
  | none => none
  | some p => some p.erase

def PatternProperty.erase : PatternProperty → PatternProperty
  | .keyed key target => .keyed key.erase target.erase
  | .shorthand name => .shorthand name

def PatternProperty.eraseAll : List PatternProperty → List PatternProperty
  | [] => []
  | p :: rest => p.erase :: PatternProperty.eraseAll rest

def FunctionDef.erase : FunctionDef → FunctionDef
  | ⟨name, kind, parameters, body, _⟩ =>
    ⟨name, kind, Pattern.eraseAll parameters, Stmt.eraseAll body, false⟩

def Declarator.erase : Declarator → Declarator
  | ⟨target, init⟩ => ⟨target.erase, Expr.eraseOption init⟩

def Declarator.eraseAll : List Declarator → List Declarator
  | [] => []
  | d :: rest => d.erase :: Declarator.eraseAll rest

def Declaration.erase : Declaration → Declaration
  | ⟨kind, declarators⟩ => ⟨kind, Declarator.eraseAll declarators⟩

def ForInit.erase : ForInit → ForInit
  | .declaration d => .declaration d.erase
  | .expression x => .expression x.erase

def ForInit.eraseOption : Option ForInit → Option ForInit
  | none => none
  | some init => some init.erase

def ForInTarget.erase : ForInTarget → ForInTarget
  | .declaration d => .declaration d.erase
  | .pattern p => .pattern p.erase

def Handler.erase : Handler → Handler
  | ⟨parameter, body⟩ => ⟨Pattern.eraseOption parameter, Stmt.eraseAll body⟩

def Handler.eraseOption : Option Handler → Option Handler
  | none => none
  | some handler => some handler.erase

def SwitchCase.erase : SwitchCase → SwitchCase
  | ⟨test, body⟩ => ⟨Expr.eraseOption test, Stmt.eraseAll body⟩

def SwitchCase.eraseAll : List SwitchCase → List SwitchCase
  | [] => []
  | clause :: rest => clause.erase :: SwitchCase.eraseAll rest

def Stmt.erase : Stmt → Stmt
  | .empty => .empty
  | .expression x => .expression x.erase
  | .block body => .block (Stmt.eraseAll body)
  | .declaration d => .declaration d.erase
  | .function definition => .function definition.erase
  | .ifStmt test consequent alternate =>
    .ifStmt test.erase consequent.erase (Stmt.eraseOption alternate)
  | .whileStmt test body => .whileStmt test.erase body.erase
  | .doWhileStmt body test => .doWhileStmt body.erase test.erase
  | .forStmt init test update body =>
    .forStmt (ForInit.eraseOption init) (Expr.eraseOption test) (Expr.eraseOption update) body.erase
  | .forInStmt target object body => .forInStmt target.erase object.erase body.erase
  | .returnStmt value => .returnStmt (Expr.eraseOption value)
  | .breakStmt label => .breakStmt label
  | .continueStmt label => .continueStmt label
  | .throwStmt value => .throwStmt value.erase
  | .tryStmt block handler finalizer =>
    .tryStmt (Stmt.eraseAll block) (Handler.eraseOption handler) (Stmt.eraseFinalizer finalizer)
  | .switchStmt subject cases => .switchStmt subject.erase (SwitchCase.eraseAll cases)
  | .labeled label body => .labeled label body.erase
  | .debugger => .debugger

def Stmt.eraseAll : List Stmt → List Stmt
  | [] => []
  | s :: rest => s.erase :: Stmt.eraseAll rest

def Stmt.eraseOption : Option Stmt → Option Stmt
  | none => none
  | some s => some s.erase

def Stmt.eraseFinalizer : Option (List Stmt) → Option (List Stmt)
  | none => none
  | some body => some (Stmt.eraseAll body)

end

def Program.erase (p : Program) : Program := ⟨Stmt.eraseAll p.body, false⟩

/-! ### What erasing leaves alone -/

mutual

theorem Pattern.boundNames_erase (p : Pattern) : p.erase.boundNames = p.boundNames := by
  match p with
  | .identifier _ => rfl
  | .array elements =>
    simp only [Pattern.erase, Pattern.boundNames, Pattern.boundNamesOfElements_erase elements]
  | .object properties =>
    simp only [Pattern.erase, Pattern.boundNames, Pattern.boundNamesOfProperties_erase properties]
  | .withDefault target _ =>
    simp only [Pattern.erase, Pattern.boundNames, Pattern.boundNames_erase target]
  | .rest target => simp only [Pattern.erase, Pattern.boundNames, Pattern.boundNames_erase target]
  | .member _ => rfl

theorem Pattern.boundNamesOfElements_erase (elements : List (Option Pattern)) :
    Pattern.boundNamesOfElements (Pattern.eraseElements elements) =
      Pattern.boundNamesOfElements elements := by
  match elements with
  | [] => rfl
  | none :: rest =>
    simp only [Pattern.eraseElements, Pattern.boundNamesOfElements,
      Pattern.boundNamesOfElements_erase rest]
  | some p :: rest =>
    simp only [Pattern.eraseElements, Pattern.boundNamesOfElements, Pattern.boundNames_erase p,
      Pattern.boundNamesOfElements_erase rest]

theorem Pattern.boundNamesOfProperties_erase (properties : List PatternProperty) :
    Pattern.boundNamesOfProperties (PatternProperty.eraseAll properties) =
      Pattern.boundNamesOfProperties properties := by
  match properties with
  | [] => rfl
  | p :: rest =>
    simp only [PatternProperty.eraseAll, Pattern.boundNamesOfProperties,
      PatternProperty.boundNames_erase p, Pattern.boundNamesOfProperties_erase rest]

theorem PatternProperty.boundNames_erase (p : PatternProperty) :
    p.erase.boundNames = p.boundNames := by
  match p with
  | .keyed _ target =>
    simp only [PatternProperty.erase, PatternProperty.boundNames, Pattern.boundNames_erase target]
  | .shorthand _ => rfl

end

theorem Pattern.isIdentifier_erase (p : Pattern) : p.erase.isIdentifier = p.isIdentifier := by
  cases p <;> simp [Pattern.erase, Pattern.isIdentifier]

theorem Pattern.isMember_erase (p : Pattern) : p.erase.isMember = p.isMember := by
  cases p <;> simp [Pattern.erase, Pattern.isMember]

/-!
### What the rules ask of a tree

The rules look at the trees they have made: whether a tree can be assigned to, which names it
declares, whether it is a directive.  The answers do not depend on the modes in the tree.
-/

namespace Grammar

/-! ### Expressions -/

theorem checkAssignable_erase (x : Expr) : checkAssignable x.erase = checkAssignable x := by
  cases x <;> rfl

theorem isCoverProperty_erase (p : Property) : isCoverProperty p.erase = isCoverProperty p := by
  match p with
  | .keyed key value => rfl
  | .shorthand name none => rfl
  | .shorthand name (some cover) => rfl

theorem any_isCoverProperty_eraseAll (properties : List Property) :
    (Property.eraseAll properties).any isCoverProperty = properties.any isCoverProperty := by
  induction properties with
  | nil => rfl
  | cons p rest ih => simp only [Property.eraseAll, List.any_cons, isCoverProperty_erase, ih]

theorem hasCoverProperty_erase (x : Expr) : hasCoverProperty x.erase = hasCoverProperty x := by
  cases x with
  | object properties => exact any_isCoverProperty_eraseAll properties
  | _ => rfl

theorem any_hasCoverProperty_eraseAll (elements : List Expr) :
    (Expr.eraseAll elements).any hasCoverProperty = elements.any hasCoverProperty := by
  induction elements with
  | nil => rfl
  | cons x rest ih => simp only [Expr.eraseAll, List.any_cons, hasCoverProperty_erase, ih]

theorem isLiteralPattern_erase (x : Expr) : isLiteralPattern x.erase = isLiteralPattern x := by
  cases x <;> rfl

theorem isEmpty_eraseAll (elements : List Expr) :
    (Expr.eraseAll elements).isEmpty = elements.isEmpty := by
  cases elements <;> rfl

theorem methodName?_erase (key : PropertyKey) : methodName? key.erase = methodName? key := by
  cases key <;> rfl

theorem eraseElements_cons (x : Option Expr) (rest : List (Option Expr)) :
    Expr.eraseElements (x :: rest) = Expr.eraseOption x :: Expr.eraseElements rest := by
  cases x <;> rfl

theorem erase_eq_identifier {x : Expr} {name : String} :
    x.erase = .identifier name ↔ x = .identifier name := by
  cases x <;> simp [Expr.erase]

/-! ### Patterns -/

theorem any_isMember_eraseAll (patterns : List Pattern) :
    (Pattern.eraseAll patterns).any Pattern.isMember = patterns.any Pattern.isMember := by
  induction patterns with
  | nil => rfl
  | cons p rest ih => simp only [Pattern.eraseAll, List.any_cons, Pattern.isMember_erase, ih]

theorem eraseAll_append (ps qs : List Pattern) :
    Pattern.eraseAll (ps ++ qs) = Pattern.eraseAll ps ++ Pattern.eraseAll qs := by
  induction ps with
  | nil => rfl
  | cons p rest ih => simp only [List.cons_append, Pattern.eraseAll, ih]

theorem all_isIdentifier_eraseAll (patterns : List Pattern) :
    (Pattern.eraseAll patterns).all Pattern.isIdentifier = patterns.all Pattern.isIdentifier := by
  induction patterns with
  | nil => rfl
  | cons p rest ih => simp only [Pattern.eraseAll, List.all_cons, Pattern.isIdentifier_erase, ih]

theorem boundNames_eraseAll (patterns : List Pattern) :
    (Pattern.eraseAll patterns).flatMap Pattern.boundNames =
      patterns.flatMap Pattern.boundNames := by
  induction patterns with
  | nil => rfl
  | cons p rest ih => simp only [Pattern.eraseAll, List.flatMap_cons, Pattern.boundNames_erase, ih]

/-! ### Statements -/

theorem directive?_erase (s : Stmt) : directive? s.erase = directive? s := by
  cases s with
  | expression x => cases x <;> rfl
  | _ => rfl

theorem flatMap_boundNames_eraseAll (list : List Declarator) :
    ((Declarator.eraseAll list).flatMap fun d => d.target.boundNames) =
      list.flatMap fun d => d.target.boundNames := by
  induction list with
  | nil => rfl
  | cons d rest ih =>
    obtain ⟨target, init⟩ := d
    simp only [Declarator.eraseAll, Declarator.erase, List.flatMap_cons, Pattern.boundNames_erase,
      ih]

theorem lexicalNames_erase (s : Stmt) : lexicalNames s.erase = lexicalNames s := by
  cases s with
  | declaration d =>
    obtain ⟨kind, list⟩ := d
    simp only [Stmt.erase, Declaration.erase, lexicalNames, Declaration.boundNames,
      flatMap_boundNames_eraseAll]
  | _ => rfl

theorem any_isNone_init_eraseAll (list : List Declarator) :
    ((Declarator.eraseAll list).any fun d => d.init.isNone) = list.any fun d => d.init.isNone := by
  induction list with
  | nil => rfl
  | cons d rest ih =>
    obtain ⟨target, init⟩ := d
    cases init <;> simp [Declarator.eraseAll, Declarator.erase, Expr.eraseOption, ih]

theorem isSome_init_erase (d : Declarator) : d.erase.init.isSome = d.init.isSome := by
  obtain ⟨target, init⟩ := d
  cases init <;> rfl

theorem isIdentifier_target_erase (d : Declarator) :
    d.erase.target.isIdentifier = d.target.isIdentifier := by
  obtain ⟨target, init⟩ := d
  exact target.isIdentifier_erase

theorem checkInitializers_erase (d : Declaration) :
    checkInitializers d.erase = checkInitializers d := by
  obtain ⟨kind, list⟩ := d
  unfold checkInitializers
  simp only [Declaration.erase, any_isNone_init_eraseAll]

theorem isSome_eraseOption (handler : Option Handler) :
    (Handler.eraseOption handler).isSome = handler.isSome := by
  cases handler <;> rfl

theorem isSome_eraseFinalizer (finalizer : Option (List Stmt)) :
    (Stmt.eraseFinalizer finalizer).isSome = finalizer.isSome := by
  cases finalizer <;> rfl

theorem isNone_eraseOption (x : Option Expr) : (Expr.eraseOption x).isNone = x.isNone := by
  cases x <;> rfl

end Grammar

end ProtoScript
