import ProtoScript.Syntax
/-!
# Names in patterns and functions

The names that a pattern binds, the names that `var` declares anywhere in a statement list, and what
a function's parameter list looks like from outside.
-/

namespace ProtoScript

mutual

def Pattern.boundNames : Pattern → List String
  | .identifier name => [name]
  | .array elements => Pattern.boundNamesOfElements elements
  | .object properties => Pattern.boundNamesOfProperties properties
  | .withDefault target _ => target.boundNames
  | .rest target => target.boundNames
  | .member _ => []

def Pattern.boundNamesOfElements : List (Option Pattern) → List String
  | [] => []
  | none :: rest => Pattern.boundNamesOfElements rest
  | some target :: rest => target.boundNames ++ Pattern.boundNamesOfElements rest

def Pattern.boundNamesOfProperties : List PatternProperty → List String
  | [] => []
  | property :: rest => property.boundNames ++ Pattern.boundNamesOfProperties rest

def PatternProperty.boundNames : PatternProperty → List String
  | .keyed _ target => target.boundNames
  | .shorthand name => [name]

end

def Pattern.isIdentifier : Pattern → Bool
  | .identifier _ => true
  | _ => false

def Pattern.isMember : Pattern → Bool
  | .member _ => true
  | _ => false

def Pattern.isOptional : Pattern → Bool
  | .withDefault _ _ => true
  | .rest _ => true
  | _ => false

def Declaration.boundNames (d : Declaration) : List String :=
  d.declarators.flatMap fun declarator => declarator.target.boundNames

def Declaration.varNames (d : Declaration) : List String :=
  if d.kind.isLexical then [] else d.boundNames

mutual

/-- The names that `var` declares in a statement, functions inside it left out. -/
def Stmt.varNames : Stmt → List String
  | .declaration d => d.varNames
  | .block body => Stmt.varNamesOfList body
  | .ifStmt _ consequent alternate => consequent.varNames ++ Stmt.varNamesOfOption alternate
  | .whileStmt _ body => body.varNames
  | .doWhileStmt body _ => body.varNames
  | .forStmt init _ _ body =>
    (match init with
      | some (.declaration d) => d.varNames
      | _ => []) ++ body.varNames
  | .forInStmt target _ body =>
    (match target with
      | .declaration d => d.varNames
      | .pattern _ => []) ++ body.varNames
  | .tryStmt tried handler finalizer =>
    Stmt.varNamesOfList tried ++ Stmt.varNamesOfHandler handler ++
      Stmt.varNamesOfFinalizer finalizer
  | .switchStmt _ cases => Stmt.varNamesOfCases cases
  | .labeled _ body => body.varNames
  | _ => []

def Stmt.varNamesOfList : List Stmt → List String
  | [] => []
  | statement :: rest => statement.varNames ++ Stmt.varNamesOfList rest

def Stmt.varNamesOfOption : Option Stmt → List String
  | none => []
  | some statement => statement.varNames

/-- The names that `var` declares in the handler of a `try` statement. -/
def Stmt.varNamesOfHandler : Option Handler → List String
  | none => []
  | some ⟨_, body⟩ => Stmt.varNamesOfList body

/-- The names that `var` declares in the finalizer of a `try` statement. -/
def Stmt.varNamesOfFinalizer : Option (List Stmt) → List String
  | none => []
  | some body => Stmt.varNamesOfList body

/-- The names that `var` declares in the clauses of a `switch` statement. -/
def Stmt.varNamesOfCases : List SwitchCase → List String
  | [] => []
  | ⟨_, body⟩ :: rest => Stmt.varNamesOfList body ++ Stmt.varNamesOfCases rest

end

namespace FunctionDef

def isArrow (f : FunctionDef) : Bool := f.kind == .arrow

def hasSimpleParameters (f : FunctionDef) : Bool := f.parameters.all Pattern.isIdentifier

def parameterNames (f : FunctionDef) : List String := f.parameters.flatMap Pattern.boundNames

def selfName? (f : FunctionDef) : Option String :=
  if f.kind = .expression then f.name.filter fun name => !name.isEmpty else none

/-- The `length` of the function: the parameters in front of the first default or rest. -/
def expectedArguments (f : FunctionDef) : Nat :=
  (f.parameters.takeWhile fun p => !p.isOptional).length

end FunctionDef

end ProtoScript
