import ProtoScript.Grammar.Context
/-!
# Functions

Parameter lists, function bodies with their directives, and the rules that can only be checked once
the body says whether the function is strict.
-/

namespace ProtoScript

/-!
### Patterns

Binding patterns, as in declarations and parameter lists, and the expressions that can be read again
as patterns once `=>` or `in` has been seen behind them.
-/

namespace Grammar

def propertyKey (n : Nesting) (c : Context) : Parser PropertyKey := do
  match ← Parser.current with
  | .punctuator .leftBracket =>
    Parser.advance
    let key ← Parser.attempt (n.parse (.assignment false) c.bracketed)
    Parser.expect .rightBracket
    match key with
    | .ok key => return .computed key
    | .error e => throw e
  | .identifier name => Parser.advance; return .identifier name
  | .keyword word => Parser.advance; return .identifier word.spelling
  | .boolean value => Parser.advance; return .identifier (if value then "true" else "false")
  | .null => Parser.advance; return .identifier "null"
  | .string text => Parser.advance; return .string text
  | .number value => Parser.advance; return .number value
  | .legacyOctal value => checkOctal; Parser.advance; return .number value
  | token => throw (.noPropertyName token)

def bindingElement (n : Nesting) (c : Context) (target : Parser Pattern) : Parser Pattern := do
  let target ← target
  if ← Parser.eat .assign then
    return .withDefault target (← n.parse (.assignment false) c.bracketed)
  else return target

/-- The elements of an array pattern up to its closing bracket.  A rest ends them. -/
def arrayPatternElements (n : Nesting) (c : Context) : Nat → Parser (List (Option Pattern))
  | 0 => throw .outOfFuel
  | rounds + 1 => do
    if ← Parser.atSign .rightBracket then return []
    else if ← Parser.eat .comma then
      return none :: (← arrayPatternElements n c rounds)
    else if ← Parser.eat .ellipsis then
      return [some (.rest (← n.parse .pattern c))]
    else
      let element ← n.parse .element c
      let _ ← Parser.eat .comma
      return some element :: (← arrayPatternElements n c rounds)

def patternProperty (n : Nesting) (c : Context) : Parser PatternProperty := do
  let shorthand ← currentName?
  let key ← propertyKey n c
  if ← Parser.eat .colon then
    return .keyed key (← n.parse .element c)
  else
    match shorthand with
    | none => throw .shorthandPattern
    | some name =>
      checkBinding name
      if ← Parser.eat .assign then
        return .keyed key (.withDefault (.identifier name) (← n.parse (.assignment false) c))
      else return .shorthand name

def bindingPattern (n : Nesting) (c : Context) : Parser Pattern := do
  match ← currentName? with
  | some name =>
    checkBinding name
    Parser.advance
    return .identifier name
  | none =>
    if ← Parser.eat .leftBracket then
      let elements ← arrayPatternElements n c n.rounds
      Parser.expect .rightBracket
      return .array elements
    else if ← Parser.eat .leftBrace then
      let properties ← Parser.commaList .rightBrace (patternProperty n c) n.rounds
      Parser.expect .rightBrace
      return .object properties
    else throw (.noPattern (← Parser.current))

end Grammar

mutual

/-- The expression read again as a target.  Strict code has no target `eval` or `arguments`. -/
def Expr.toPattern (strict : Bool) : Expr → Except SyntaxError Pattern
  | .identifier name =>
    if strict && Grammar.isRestricted name then .error (.strictTarget name)
    else .ok (.identifier name)
  | .member object key => .ok (.member (.member object key))
  | .assign none target value => do return .withDefault (← target.toPattern strict) value
  | .array elements => do return .array (← Expr.toPatternElements strict elements)
  | .object properties => do return .object (← Expr.toPatternProperties strict properties)
  | _ => .error .invalidPattern

def Expr.toPatternElements (strict : Bool) :
    List (Option Expr) → Except SyntaxError (List (Option Pattern))
  | [] => .ok []
  | none :: rest => do return none :: (← Expr.toPatternElements strict rest)
  | some element :: rest => do
    let target ← element.toPattern strict
    return some target :: (← Expr.toPatternElements strict rest)

def Expr.toPatternProperties (strict : Bool) :
    List Property → Except SyntaxError (List PatternProperty)
  | [] => .ok []
  | property :: rest => do
    let target ← property.toPattern strict
    return target :: (← Expr.toPatternProperties strict rest)

def Property.toPattern (strict : Bool) : Property → Except SyntaxError PatternProperty
  | .shorthand name none => .ok (.shorthand name)
  | .shorthand name (some cover) =>
    .ok (.keyed (.identifier name) (.withDefault (.identifier name) cover))
  | .keyed key value => do return .keyed key (← value.toPattern strict)

end

/-! ### Parameters and bodies -/

namespace Grammar

/-- The parameters up to the closing parenthesis.  A rest parameter ends them. -/
def parameterList (n : Nesting) (c : Context) : Nat → Parser (List Pattern)
  | 0 => throw .outOfFuel
  | rounds + 1 => do
    if ← Parser.atSign .rightParen then return []
    else if ← Parser.eat .ellipsis then
      return [.rest (← n.parse .pattern c)]
    else
      let parameter ← n.parse .element c
      Parser.separate .rightParen
      return parameter :: (← parameterList n c rounds)

def parameters (n : Nesting) (c : Context) : Parser (List Pattern) := do
  Parser.expect .leftParen
  let list ← parameterList n c.bracketed n.rounds
  Parser.expect .rightParen
  return list

def directive? : Stmt → Option String
  | .expression (.literal (.string text)) => some text
  | _ => none

/-- Statements up to the closing brace, or up to the end of the text where `close` is missing, and
whether the directives in front of them ask for strict mode.  `prologue` says that only directives
came so far. -/
def directiveBody (n : Nesting) (c : Context) (close : Option Punctuator) (prologue : Bool) :
    Nat → Parser (List Stmt × Bool)
  | 0 => throw .outOfFuel
  | rounds + 1 => do
    let token ← Parser.current
    if close.any (fun sign => token.sign? == some sign) then return ([], false)
    else if token.isEnd then
      match close with
      | some _ => throw .unexpectedEnd
      | none => return ([], false)
    else
      let statement ← n.parse .item c
      let directive := if prologue then directive? statement else none
      let asksStrict := directive == some "use strict"
      if asksStrict then Parser.setStrict true
      let (others, othersStrict) ← directiveBody n c close directive.isSome rounds
      return (statement :: others, asksStrict || othersStrict)

/-- A function body with its braces, and whether it asks for strict mode itself.  The mode of the
text around it is back in force from the closing brace on. -/
def functionBody (n : Nesting) : Parser (List Stmt × Bool) := do
  Parser.expect .leftBrace
  let strict ← Parser.isStrict
  let body ← directiveBody n .functionBody (some .rightBrace) true n.rounds
  Parser.setStrict strict
  Parser.expect .rightBrace
  return body

/-- Puts a function together.  `ownStrict` says that its body asks for strict mode. -/
def finishFunction (name : Option String) (kind : FunctionKind) (parameters : List Pattern)
    (body : List Stmt) (ownStrict : Bool) : Parser FunctionDef := do
  let strict := (← Parser.isStrict) || ownStrict
  let simple := parameters.all Pattern.isIdentifier
  let names := parameters.flatMap Pattern.boundNames
  if ownStrict && !simple then throw .strictDirective
  if strict then
    match (name.toList ++ names).find? isRestricted with
    | some name => throw (.strictBinding name)
    | none => pure ()
  if strict || !simple || kind == .arrow then
    match firstRepeated? [] names with
    | some name => throw (.duplicateParameter name)
    | none => pure ()
  return ⟨name, kind, parameters, body, strict⟩

def functionRest (n : Nesting) (c : Context) (name : Option String) (kind : FunctionKind) :
    Parser FunctionDef := do
  let list ← parameters n c
  let (body, ownStrict) ← functionBody n
  finishFunction name kind list body ownStrict

def functionExpression (n : Nesting) (c : Context) : Parser FunctionDef := do
  Parser.expectWord .functionWord
  match ← currentName? with
  | some name =>
    checkBinding name
    Parser.advance
    functionRest n c (some name) .expression
  | none =>
    if ← Parser.atSign .leftParen then functionRest n c none .expression
    else throw (.unexpectedToken (← Parser.current))

def functionDeclaration (n : Nesting) (c : Context) : Parser FunctionDef := do
  Parser.expectWord .functionWord
  match ← currentName? with
  | some name =>
    checkBinding name
    Parser.advance
    functionRest n c (some name) .declaration
  | none => throw .noFunctionName

end Grammar

end ProtoScript
