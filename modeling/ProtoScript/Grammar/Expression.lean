import ProtoScript.Grammar.Function
import ProtoScript.Grammar.Operator
/-!
# Expressions

Expressions by how strongly their operators bind: sequences, assignments and conditionals, `??`,
`||`, `&&`, the binary operators, powers, unary operators, updates behind their target, calls and
member access, and primary expressions.
-/

namespace ProtoScript.Grammar

def checkAssignable : Expr → Parser Unit
  | .identifier name => do
    if (← Parser.isStrict) && isRestricted name then throw .strictAssignment
  | .member _ _ => return ()
  | _ => throw .invalidAssignment

/-- Whether the property has an initializer that only a pattern can have. -/
def isCoverProperty : Property → Bool
  | .shorthand _ (some _) => true
  | _ => false

/-- Whether the expression is an object literal with a property that only a pattern can have. -/
def hasCoverProperty : Expr → Bool
  | .object properties => properties.any isCoverProperty
  | _ => false

def isLiteralPattern : Expr → Bool
  | .array _ => true
  | .object _ => true
  | _ => false

def arrowFunction (n : Nesting) (c : Context) (parameters : List Pattern) : Parser Expr := do
  Parser.expect .arrow
  if ← Parser.atSign .leftBrace then
    let (body, ownStrict) ← functionBody n
    return .function (← finishFunction none .arrow parameters body ownStrict)
  else
    let value ← n.parse (.assignment false) c
    return .function (← finishFunction none .arrow parameters [.returnStmt (some value)] false)

def atArrow : Parser Bool := do
  return (← Parser.atSign .arrow) && !(← Parser.afterBreak)

/-- The elements between parentheses up to the closing one, and a rest parameter if there is one. -/
def parenthesizedElements (n : Nesting) (c : Context) : Nat → Parser (List Expr × Option Pattern)
  | 0 => throw .outOfFuel
  | rounds + 1 => do
    if ← Parser.atSign .rightParen then return ([], none)
    else if ← Parser.eat .ellipsis then
      return ([], some (← n.parse .pattern c))
    else
      let element ← n.parse (.assignment true) c
      Parser.separate .rightParen
      let (elements, rest) ← parenthesizedElements n c rounds
      return (element :: elements, rest)

def toParameters (strict : Bool) (elements : List Expr) (rest : Option Pattern) :
    Except SyntaxError (List Pattern) := do
  let targets ← elements.mapM (Expr.toPattern strict)
  if targets.any Pattern.isMember then throw .invalidPattern
  return targets ++ rest.toList.map .rest

/-- Parentheses around an expression, or the parameters of an arrow function. -/
def parenthesized (n : Nesting) (c : Context) : Parser Expr := do
  Parser.advance
  let (elements, rest) ← parenthesizedElements n c.bracketed n.rounds
  Parser.expect .rightParen
  if ← atArrow then
    match toParameters (← Parser.isStrict) elements rest with
    | .ok list => arrowFunction n c list
    | .error e => throw e
  else if rest.isSome || elements.isEmpty then throw .strayParenthesis
  else if elements.any hasCoverProperty then throw .shorthandInitializer
  else
    match elements with
    | [element] => return element
    | elements => return .sequence elements

/-- An element of an array literal; in front of a comma it is a hole. -/
def arrayElement (n : Nesting) (c : Context) : Parser (Option Expr) := do
  if ← Parser.atSign .comma then return none
  else return some (← n.parse (.assignment false) c)

/-- The name that a method gets from its key; a computed key gives none. -/
def methodName? : PropertyKey → Option String
  | .identifier name => some name
  | .string text => some text
  | .number value => some (Number.display value)
  | .computed _ => none

def objectProperty (n : Nesting) (c : Context) : Parser Property := do
  let shorthand ← currentName?
  let key ← propertyKey n c
  if ← Parser.eat .colon then
    return .keyed key (← n.parse (.assignment false) c)
  else if ← Parser.atSign .leftParen then
    return .keyed key (.function (← functionRest n c (methodName? key) .method))
  else
    match shorthand with
    | none => throw (.unexpectedToken (← Parser.current))
    | some name =>
      if ← Parser.eat .assign then
        return .shorthand name (some (← n.parse (.assignment false) c))
      else return .shorthand name none

/-- A name, or an arrow function with the name as its only parameter. -/
def nameOrArrow (n : Nesting) (c : Context) : Parser Expr := do
  match ← currentName? with
  | none => throw (.reservedWord (← Parser.current))
  | some name =>
    Parser.advance
    if ← atArrow then
      checkBinding name
      arrowFunction n c [.identifier name]
    else return .identifier name

def primary (n : Nesting) (c : Context) : Parser Expr := do
  match ← Parser.current with
  | .keyword .thisWord => Parser.advance; return .this
  | .identifier _ => nameOrArrow n c
  | .keyword .letWord => nameOrArrow n c
  | .null => Parser.advance; return .literal .null
  | .boolean value => Parser.advance; return .literal (.boolean value)
  | .number value => Parser.advance; return .literal (.number value)
  | .legacyOctal value => checkOctal; Parser.advance; return .literal (.number value)
  | .string value => Parser.advance; return .literal (.string value)
  | .punctuator .leftParen => parenthesized n c
  | .punctuator .leftBracket =>
    Parser.advance
    let elements ← Parser.commaList .rightBracket (arrayElement n c.bracketed) n.rounds
    Parser.expect .rightBracket
    return .array elements
  | .punctuator .leftBrace =>
    Parser.advance
    let properties ← Parser.commaList .rightBrace (objectProperty n c.bracketed) n.rounds
    Parser.expect .rightBrace
    return .object properties
  | .keyword .functionWord => return .function (← functionExpression n c)
  | .endOfInput => throw .unexpectedEnd
  | token => throw (.noExpression token)

def callArguments (n : Nesting) (c : Context) : Parser (List Expr) := do
  Parser.expect .leftParen
  let list ← Parser.commaList .rightParen (n.parse (.assignment false) c.bracketed) n.rounds
  Parser.expect .rightParen
  return list

def memberName : Parser String := do
  match ← Parser.current with
  | .identifier name => Parser.advance; return name
  | .keyword word => Parser.advance; return word.spelling
  | .boolean value => Parser.advance; return (if value then "true" else "false")
  | .null => Parser.advance; return "null"
  | _ => throw .noMemberName

/-- A sequence of expressions, or a single one.  The first one is read by `first`. -/
def sequenceOf (n : Nesting) (c : Context) (first : Parser Expr) : Parser Expr := do
  let first ← first
  if ← Parser.atSign .comma then return .sequence (first :: (← others n.rounds))
  else return first
where
  others : Nat → Parser (List Expr)
    | 0 => throw .outOfFuel
    | rounds + 1 => do
      if ← Parser.eat .comma then
        let next ← n.parse (.assignment false) c
        return next :: (← others rounds)
      else return []

/-- Member access and calls behind an expression.  Behind `new` a call ends them. -/
def memberSuffixes (n : Nesting) (c : Context) (calls : Bool) : Nat → Expr → Parser Expr
  | 0, _ => throw .outOfFuel
  | rounds + 1, object => do
    if ← Parser.eat .dot then
      let name ← memberName
      memberSuffixes n c calls rounds (.member object (.dot name))
    else if ← Parser.eat .leftBracket then
      let key ← sequenceOf n c.bracketed (n.parse (.assignment false) c.bracketed)
      Parser.expect .rightBracket
      memberSuffixes n c calls rounds (.member object (.computed key))
    else if calls && (← Parser.atSign .leftParen) then
      let list ← callArguments n c
      memberSuffixes n c calls rounds (.call object list)
    else return object

def construct (n : Nesting) (c : Context) : Parser Expr := do
  Parser.advance
  let object ← if ← Parser.atWord .newWord then n.parse .construct c else primary n c
  let callee ← memberSuffixes n c false n.rounds object
  if ← Parser.atSign .leftParen then return .construct callee (← callArguments n c)
  else return .construct callee []

def leftHandSide (n : Nesting) (c : Context) : Parser Expr := do
  let object ← if ← Parser.atWord .newWord then construct n c else primary n c
  memberSuffixes n c true n.rounds object

/-- An expression with an update operator behind it, if one stands on the same line. -/
def postfixUpdate (n : Nesting) (c : Context) : Parser Expr := do
  let target ← leftHandSide n c
  let op := updateOperator? (← Parser.current)
  match if ← Parser.afterBreak then none else op with
  | some op =>
    checkAssignable target
    Parser.advance
    return .update op false target
  | none => return target

def unary (n : Nesting) (c : Context) : Parser Expr := do
  match frontOperator? (← Parser.current) with
  | none => postfixUpdate n c
  | some op =>
    Parser.advance
    let operand ← n.parse .unary c
    match op with
    | .convert op => return .unary op operand
    | .typeOf => return .typeOf operand
    | .void => return .void operand
    | .update op =>
      checkAssignable operand
      return .update op true operand
    | .delete =>
      match operand with
      | .identifier _ => if ← Parser.isStrict then throw .strictDelete
      | _ => pure ()
      return .delete operand

/-- A power; powers associate to the right, and their base has no unary operator in front. -/
def power (n : Nesting) (c : Context) : Parser Expr := do
  let barred := (frontOperator? (← Parser.current)).any FrontOperator.barsPower
  let base ← unary n c
  if ← Parser.atSign .exponent then
    if barred then throw .unaryBase
    Parser.advance
    return .binary .exp base (← n.parse .power c)
  else return base

/-- The operators behind `left` that bind more tightly than `strength`, associating to the left. -/
def binaryRest (n : Nesting) (c : Context) (strength : Nat) : Nat → Expr → Parser Expr
  | 0, _ => throw .outOfFuel
  | rounds + 1, left => do
    match binaryOperator? c (← Parser.current) with
    | none => return left
    | some (op, own) =>
      if own ≤ strength then return left
      else
        Parser.advance
        let right ← n.parse (.binary own) c
        binaryRest n c strength rounds (.binary op left right)

/-- An expression with binary operators that bind more tightly than `strength`. -/
def binary (n : Nesting) (c : Context) (strength : Nat) : Parser Expr := do
  binaryRest n c strength n.rounds (← power n c)

/-- The operands behind `left`, each behind the operator's sign, associating to the left. -/
def logicalRest (sign : Punctuator) (op : LogicalOp) (operand : Parser Expr) :
    Nat → Expr → Parser Expr
  | 0, _ => throw .outOfFuel
  | rounds + 1, left => do
    if ← Parser.eat sign then
      let right ← operand
      logicalRest sign op operand rounds (.logical op left right)
    else return left

def conjunction (n : Nesting) (c : Context) : Parser Expr := do
  logicalRest .logicalAnd .and (binary n c 0) n.rounds (← binary n c 0)

def disjunction (n : Nesting) (c : Context) : Parser Expr := do
  logicalRest .logicalOr .or (conjunction n c) n.rounds (← conjunction n c)

def coalescing (n : Nesting) (c : Context) : Parser Expr := do
  logicalRest .nullishCoalescing .coalesce (disjunction n c) n.rounds (← disjunction n c)

def conditional (n : Nesting) (c : Context) : Parser Expr := do
  let test ← coalescing n c
  if ← Parser.eat .question then
    let consequent ← n.parse (.assignment false) c.bracketed
    Parser.expect .colon
    return .conditional test consequent (← n.parse (.assignment false) c)
  else return test

/-- An assignment, or an expression without one.  With `cover` set, the expression may be a
parameter of an arrow function, so an object literal may have initializers. -/
def assignment (n : Nesting) (c : Context) (cover : Bool) : Parser Expr := do
  let left ← conditional n c
  match assignmentOperator? (← Parser.current) with
  | none =>
    if !cover && hasCoverProperty left then throw .shorthandInitializer
    return left
  | some op =>
    if op.isNone && isLiteralPattern left then throw .destructuringAssignment
    checkAssignable left
    Parser.advance
    return .assign op left (← n.parse (.assignment false) c)

def expression (n : Nesting) (c : Context) : Parser Expr :=
  sequenceOf n c (assignment n c false)

end ProtoScript.Grammar
