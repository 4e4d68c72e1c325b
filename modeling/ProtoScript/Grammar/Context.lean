import ProtoScript.Syntax.Names
import ProtoScript.Grammar.TokenStream
/-!
# What grammar rules share

A rule runs in a context that says what encloses it.  The rules that contain one another are tied
together by `Goal` and `Nesting`: a rule reaches the others through `Nesting.parse`, always behind a
token of its own, so nesting is never deeper and a list never longer than the text has tokens.
-/

namespace ProtoScript.Grammar

structure Label where
  name : String
  /-- Whether the label is on a loop, perhaps with other labels between. -/
  isLoop : Bool
  deriving DecidableEq, Repr

/-- What encloses a piece of program text. -/
structure Context where
  /-- Whether `in` ends an expression, as in the head of a `for` loop. -/
  noIn : Bool
  inFunction : Bool
  inLoop : Bool
  /-- Whether the text is in a `switch` statement of the same function. -/
  inSwitch : Bool
  /-- The labels of the same function that enclose the text, the outermost first. -/
  labels : List Label

def Context.program : Context := ⟨false, false, false, false, []⟩

def Context.functionBody : Context := ⟨false, true, false, false, []⟩

def Context.bracketed (c : Context) : Context := { c with noIn := false }

def Context.forHead (c : Context) : Context := { c with noIn := true }

def Context.loopBody (c : Context) : Context := { c with inLoop := true }

/-- The rules that contain themselves by way of others. -/
inductive Goal where
  /-- An assignment expression.  With `cover` set it may be a parameter of an arrow function. -/
  | assignment (cover : Bool)
  /-- Binary operators that bind more tightly than the given strength. -/
  | binary (strength : Nat)
  | power
  | unary
  | construct
  | pattern
  | element
  /-- A statement, as part of a chain of labels that starts behind a number of outer labels. -/
  | statement (chain : Option Nat)
  | item

abbrev Goal.Result : Goal → Type
  | assignment _ => Expr
  | binary _ => Expr
  | power => Expr
  | unary => Expr
  | construct => Expr
  | pattern => Pattern
  | element => Pattern
  | statement _ => Stmt
  | item => Stmt

/-- What a rule may use: the rules for what is nested in it, and how many rounds its loops may
take. -/
structure Nesting where
  rounds : Nat
  parse : (g : Goal) → Context → Parser g.Result

def strictReservedWords : List String :=
  ["implements", "interface", "package", "private", "protected", "public", "static", "yield"]

def isReserved (word : String) (strict : Bool) : Bool :=
  (Keyword.ofString? word).any (fun k => k != .letWord || strict) ||
    ["true", "false", "null"].contains word || (strict && strictReservedWords.contains word)

def nameOfToken? (strict : Bool) : Token → Option String
  | .identifier name => if isReserved name strict then none else some name
  | .keyword .letWord => if strict then none else some "let"
  | _ => none

/-- The name that the current token stands for, if it can be used as a name. -/
def currentName? : Parser (Option String) := do
  return nameOfToken? (← Parser.isStrict) (← Parser.current)

def isRestricted (name : String) : Bool := name == "eval" || name == "arguments"

def checkBinding (name : String) : Parser Unit := do
  if (← Parser.isStrict) && isRestricted name then throw (.strictBinding name)

def checkOctal : Parser Unit := do
  if ← Parser.isStrict then throw .strictOctal

/-- The first of the names that stands in the list already, or earlier among the names. -/
def firstRepeated? : List String → List String → Option String
  | _, [] => none
  | seen, name :: names =>
    if seen.contains name then some name else firstRepeated? (name :: seen) names

end ProtoScript.Grammar
