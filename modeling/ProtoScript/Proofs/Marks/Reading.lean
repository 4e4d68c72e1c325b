import ProtoScript.Grammar.Program
/-!
# Reading with marks

The grammar rules are told what surrounds them.  Here the same rules find it out from marks: numbers
of loops, switches and function bodies that are open, the open labels, and what holds for the next
expression or statement only.  A rule that goes inside something changes the marks, and behind it
the rule changes them back by hand, so that a mark that is left behind would show in what is read
next.  The reading notes where function bodies begin.
-/

namespace ProtoScript.Marked

structure Marks where
  inFunction : Nat
  inLoop : Nat
  inSwitch : Nat
  labels : List Grammar.Label
  /-- The place in the list of labels where the chain directly in front of the next statement
  starts. -/
  chain : Option Nat
  noIn : Bool
  /-- Whether the next assignment expression may be a parameter of an arrow function. -/
  cover : Bool

namespace Marks

def program : Marks := ⟨0, 0, 0, [], none, false, false⟩

/-- What surrounds a piece of text with these marks. -/
def context (m : Marks) : Grammar.Context :=
  ⟨m.noIn, m.inFunction != 0, m.inLoop != 0, m.inSwitch != 0, m.labels⟩

/-- Nothing is marked for the next expression or statement only. -/
structure Clear (m : Marks) : Prop where
  chain : m.chain = none
  cover : m.cover = false

def bracketed (m : Marks) : Marks := { m with noIn := false }

def forHead (m : Marks) : Marks := { m with noIn := true }

def loopBody (m : Marks) : Marks := { m with inLoop := m.inLoop + 1 }

def switchBody (m : Marks) : Marks := { m with inSwitch := m.inSwitch + 1 }

def functionBody (m : Marks) : Marks :=
  { m with inFunction := m.inFunction + 1, inLoop := 0, inSwitch := 0, labels := [], noIn := false }

def chained (m : Marks) (start : Nat) : Marks := { m with chain := some start }

def withLabel (m : Marks) (name : String) : Marks :=
  { m with labels := m.labels ++ [⟨name, false⟩] }

/-- The marks with all labels from a place on known to be on a loop. -/
def onLoop (m : Marks) (start : Nat) : Marks :=
  { m with labels :=
      m.labels.take start ++ (m.labels.drop start).map fun l => { l with isLoop := true } }

end Marks

structure Standing where
  stream : TokenStream
  marks : Marks

structure State where
  stream : TokenStream
  marks : Marks
  /-- Where function bodies were begun so far, the last one first. -/
  bodies : List Standing

abbrev Reading := EStateM SyntaxError State

instance : MonadLift Parser Reading where
  monadLift p := fun st =>
    match p st.stream with
    | .ok a s => .ok a { st with stream := s }
    | .error e s => .error e { st with stream := s }

section Combinators

variable {α : Type}

def marks : Reading Marks := return (← get).marks

def mark (change : Marks → Marks) : Reading Unit :=
  modify fun st => { st with marks := change st.marks }

def noteBody : Reading Unit :=
  modify fun st => { st with bodies := ⟨st.stream, st.marks⟩ :: st.bodies }

/-- Runs a rule between two changes of the marks, the second of which is made behind an error as
well.  It is told the marks that there were before the first one. -/
def around (enter : Marks → Marks) (leave : Marks → Marks → Marks) (p : Reading α) : Reading α :=
  fun st =>
    match p { st with marks := enter st.marks } with
    | .ok a st' => .ok a { st' with marks := leave st.marks st'.marks }
    | .error e st' => .error e { st' with marks := leave st.marks st'.marks }

/-- Runs a rule where `in` is an operator. -/
def withIn (p : Reading α) : Reading α :=
  around Marks.bracketed (fun before m => { m with noIn := before.noIn }) p

/-- Takes back the mark that the next assignment expression may be a parameter. -/
def takeCover : Reading Bool := do
  let m ← marks
  mark fun m => { m with cover := false }
  return m.cover

def takeChain : Reading (Option Nat) := do
  let m ← marks
  mark fun m => { m with chain := none }
  return m.chain

/-- Runs a rule and hands over its error, apart from the one that says the bound was too low. -/
def attempt (rule : Reading α) : Reading (Except SyntaxError α) := fun st =>
  match rule st with
  | .ok value st => .ok (.ok value) st
  | .error .outOfFuel st => .error .outOfFuel st
  | .error e st => .ok (.error e) st

def commaList (close : Punctuator) (element : Reading α) : Nat → Reading (List α)
  | 0 => throw .outOfFuel
  | rounds + 1 => do
    if ← Parser.atSign close then return []
    else
      let first ← element
      Parser.separate close
      let others ← commaList close element rounds
      return first :: others

end Combinators

/-- The rules that contain themselves by way of others. -/
inductive Goal where
  | assignment
  | binary (strength : Nat)
  | power
  | unary
  | construct
  | pattern
  | element
  | statement
  | item

abbrev Goal.Result : Goal → Type
  | assignment => Expr
  | binary _ => Expr
  | power => Expr
  | unary => Expr
  | construct => Expr
  | pattern => Pattern
  | element => Pattern
  | statement => Stmt
  | item => Stmt

structure Nesting where
  rounds : Nat
  parse : (g : Goal) → Reading g.Result

/-! ### Patterns -/

def propertyKey (n : Nesting) : Reading PropertyKey := do
  match ← Parser.current with
  | .punctuator .leftBracket =>
    Parser.advance
    let key ← attempt (withIn (n.parse .assignment))
    Parser.expect .rightBracket
    match key with
    | .ok key => return .computed key
    | .error e => throw e
  | .identifier name => Parser.advance; return .identifier name
  | .keyword word => Parser.advance; return .identifier word.spelling
  | .boolean value => Parser.advance; return .identifier (if value then "true" else "false")
  | .null => Parser.advance; return .identifier "null"
  | .string text => Parser.advance; return .string text
  | .number value => Parser.advance; return .number value
  | .legacyOctal value => Grammar.checkOctal; Parser.advance; return .number value
  | token => throw (.noPropertyName token)

def bindingElement (n : Nesting) (target : Reading Pattern) : Reading Pattern := do
  let target ← target
  if ← Parser.eat .assign then return .withDefault target (← withIn (n.parse .assignment))
  else return target

def arrayPatternElements (n : Nesting) : Nat → Reading (List (Option Pattern))
  | 0 => throw .outOfFuel
  | rounds + 1 => do
    if ← Parser.atSign .rightBracket then return []
    else if ← Parser.eat .comma then
      return none :: (← arrayPatternElements n rounds)
    else if ← Parser.eat .ellipsis then
      return [some (.rest (← n.parse .pattern))]
    else
      let element ← n.parse .element
      let _ ← Parser.eat .comma
      return some element :: (← arrayPatternElements n rounds)

def patternProperty (n : Nesting) : Reading PatternProperty := do
  let shorthand ← Grammar.currentName?
  let key ← propertyKey n
  if ← Parser.eat .colon then
    return .keyed key (← n.parse .element)
  else
    match shorthand with
    | none => throw .shorthandPattern
    | some name =>
      Grammar.checkBinding name
      if ← Parser.eat .assign then
        return .keyed key (.withDefault (.identifier name) (← n.parse .assignment))
      else return .shorthand name

def bindingPattern (n : Nesting) : Reading Pattern := do
  match ← Grammar.currentName? with
  | some name =>
    Grammar.checkBinding name
    Parser.advance
    return .identifier name
  | none =>
    if ← Parser.eat .leftBracket then
      let elements ← arrayPatternElements n n.rounds
      Parser.expect .rightBracket
      return .array elements
    else if ← Parser.eat .leftBrace then
      let properties ← commaList .rightBrace (patternProperty n) n.rounds
      Parser.expect .rightBrace
      return .object properties
    else throw (.noPattern (← Parser.current))

/-! ### Functions -/

/-- The parameters up to the closing parenthesis, or the error in one of them or behind it.  An
error in a rest parameter is not handed over. -/
def parameterList (n : Nesting) : Nat → Reading (Except SyntaxError (List Pattern))
  | 0 => throw .outOfFuel
  | rounds + 1 => do
    if ← Parser.atSign .rightParen then return .ok []
    else if ← Parser.eat .ellipsis then
      return .ok [.rest (← n.parse .pattern)]
    else
      match ← attempt (n.parse .element) with
      | .error e => return .error e
      | .ok parameter =>
        if ← Parser.atSign .comma then
          Parser.advance
          return (parameter :: ·) <$> (← parameterList n rounds)
        else if ← Parser.atSign .rightParen then
          return (parameter :: ·) <$> (← parameterList n rounds)
        else return .error (.unexpectedToken (← Parser.current))

def parameters (n : Nesting) : Reading (List Pattern) := do
  Parser.expect .leftParen
  let before ← marks
  mark Marks.bracketed
  let list ← parameterList n n.rounds
  mark fun m => { m with noIn := before.noIn }
  match list with
  | .error e => throw e
  | .ok list =>
    Parser.expect .rightParen
    return list

def directiveBody (n : Nesting) (close : Option Punctuator) (prologue : Bool) :
    Nat → Reading (List Stmt × Bool)
  | 0 => throw .outOfFuel
  | rounds + 1 => do
    let token ← Parser.current
    if close.any (fun sign => token.sign? == some sign) then return ([], false)
    else if token.isEnd then
      match close with
      | some _ => throw .unexpectedEnd
      | none => return ([], false)
    else
      let statement ← n.parse .item
      let directive := if prologue then Grammar.directive? statement else none
      let asksStrict := directive == some "use strict"
      if asksStrict then Parser.setStrict true
      let (others, othersStrict) ← directiveBody n close directive.isSome rounds
      return (statement :: others, asksStrict || othersStrict)

/-- A function body with its braces, and whether it asks for strict mode itself. -/
def functionBody (n : Nesting) : Reading (List Stmt × Bool) := do
  noteBody
  Parser.expect .leftBrace
  let strict ← Parser.isStrict
  let body ← around Marks.functionBody
    (fun before m => { m with inFunction := m.inFunction - 1, inLoop := before.inLoop,
                              inSwitch := before.inSwitch, labels := before.labels,
                              noIn := before.noIn })
    (directiveBody n (some .rightBrace) true n.rounds)
  Parser.setStrict strict
  Parser.expect .rightBrace
  return body

def functionRest (n : Nesting) (name : Option String) (kind : FunctionKind) :
    Reading FunctionDef := do
  let list ← parameters n
  let (body, ownStrict) ← functionBody n
  Grammar.finishFunction name kind list body ownStrict

def functionExpression (n : Nesting) : Reading FunctionDef := do
  Parser.expectWord .functionWord
  match ← Grammar.currentName? with
  | some name =>
    Grammar.checkBinding name
    Parser.advance
    functionRest n (some name) .expression
  | none =>
    if ← Parser.atSign .leftParen then functionRest n none .expression
    else throw (.unexpectedToken (← Parser.current))

def functionDeclaration (n : Nesting) : Reading FunctionDef := do
  Parser.expectWord .functionWord
  match ← Grammar.currentName? with
  | some name =>
    Grammar.checkBinding name
    Parser.advance
    functionRest n (some name) .declaration
  | none => throw .noFunctionName

/-! ### Expressions -/

def arrowFunction (n : Nesting) (parameters : List Pattern) : Reading Expr := do
  Parser.expect .arrow
  if ← Parser.atSign .leftBrace then
    let (body, ownStrict) ← functionBody n
    return .function (← Grammar.finishFunction none .arrow parameters body ownStrict)
  else
    let value ← n.parse .assignment
    return .function
      (← Grammar.finishFunction none .arrow parameters [.returnStmt (some value)] false)

def parenthesizedElements (n : Nesting) : Nat → Reading (List Expr × Option Pattern)
  | 0 => throw .outOfFuel
  | rounds + 1 => do
    if ← Parser.atSign .rightParen then return ([], none)
    else if ← Parser.eat .ellipsis then
      return ([], some (← n.parse .pattern))
    else
      mark fun m => { m with cover := true }
      let element ← n.parse .assignment
      Parser.separate .rightParen
      let (elements, rest) ← parenthesizedElements n rounds
      return (element :: elements, rest)

def parenthesized (n : Nesting) : Reading Expr := do
  Parser.advance
  let (elements, rest) ← withIn (parenthesizedElements n n.rounds)
  Parser.expect .rightParen
  if ← Grammar.atArrow then
    match Grammar.toParameters (← Parser.isStrict) elements rest with
    | .ok list => arrowFunction n list
    | .error e => throw e
  else if rest.isSome || elements.isEmpty then throw .strayParenthesis
  else if elements.any Grammar.hasCoverProperty then throw .shorthandInitializer
  else
    match elements with
    | [element] => return element
    | elements => return .sequence elements

def arrayElement (n : Nesting) : Reading (Option Expr) := do
  if ← Parser.atSign .comma then return none
  else return some (← n.parse .assignment)

def objectProperty (n : Nesting) : Reading Property := do
  let shorthand ← Grammar.currentName?
  let key ← propertyKey n
  if ← Parser.eat .colon then
    return .keyed key (← n.parse .assignment)
  else if ← Parser.atSign .leftParen then
    return .keyed key (.function (← functionRest n (Grammar.methodName? key) .method))
  else
    match shorthand with
    | none => throw (.unexpectedToken (← Parser.current))
    | some name =>
      if ← Parser.eat .assign then
        return .shorthand name (some (← n.parse .assignment))
      else return .shorthand name none

def nameOrArrow (n : Nesting) : Reading Expr := do
  match ← Grammar.currentName? with
  | none => throw (.reservedWord (← Parser.current))
  | some name =>
    Parser.advance
    if ← Grammar.atArrow then
      Grammar.checkBinding name
      arrowFunction n [.identifier name]
    else return .identifier name

def primary (n : Nesting) : Reading Expr := do
  match ← Parser.current with
  | .keyword .thisWord => Parser.advance; return .this
  | .identifier _ => nameOrArrow n
  | .keyword .letWord => nameOrArrow n
  | .null => Parser.advance; return .literal .null
  | .boolean value => Parser.advance; return .literal (.boolean value)
  | .number value => Parser.advance; return .literal (.number value)
  | .legacyOctal value => Grammar.checkOctal; Parser.advance; return .literal (.number value)
  | .string value => Parser.advance; return .literal (.string value)
  | .punctuator .leftParen => parenthesized n
  | .punctuator .leftBracket =>
    Parser.advance
    let elements ← withIn (commaList .rightBracket (arrayElement n) n.rounds)
    Parser.expect .rightBracket
    return .array elements
  | .punctuator .leftBrace =>
    Parser.advance
    let properties ← withIn (commaList .rightBrace (objectProperty n) n.rounds)
    Parser.expect .rightBrace
    return .object properties
  | .keyword .functionWord => return .function (← functionExpression n)
  | .endOfInput => throw .unexpectedEnd
  | token => throw (.noExpression token)

def callArguments (n : Nesting) : Reading (List Expr) := do
  Parser.expect .leftParen
  let list ← withIn (commaList .rightParen (n.parse .assignment) n.rounds)
  Parser.expect .rightParen
  return list

def sequenceOf (n : Nesting) (first : Reading Expr) : Reading Expr := do
  let first ← first
  if ← Parser.atSign .comma then return .sequence (first :: (← others n.rounds))
  else return first
where
  others : Nat → Reading (List Expr)
    | 0 => throw .outOfFuel
    | rounds + 1 => do
      if ← Parser.eat .comma then
        let next ← n.parse .assignment
        return next :: (← others rounds)
      else return []

def memberSuffixes (n : Nesting) (calls : Bool) : Nat → Expr → Reading Expr
  | 0, _ => throw .outOfFuel
  | rounds + 1, object => do
    if ← Parser.eat .dot then
      let name ← Grammar.memberName
      memberSuffixes n calls rounds (.member object (.dot name))
    else if ← Parser.eat .leftBracket then
      let key ← withIn (sequenceOf n (n.parse .assignment))
      Parser.expect .rightBracket
      memberSuffixes n calls rounds (.member object (.computed key))
    else if calls && (← Parser.atSign .leftParen) then
      let list ← callArguments n
      memberSuffixes n calls rounds (.call object list)
    else return object

def construct (n : Nesting) : Reading Expr := do
  Parser.advance
  let object ← if ← Parser.atWord .newWord then n.parse .construct else primary n
  let callee ← memberSuffixes n false n.rounds object
  if ← Parser.atSign .leftParen then return .construct callee (← callArguments n)
  else return .construct callee []

def leftHandSide (n : Nesting) : Reading Expr := do
  let object ← if ← Parser.atWord .newWord then construct n else primary n
  memberSuffixes n true n.rounds object

def postfixUpdate (n : Nesting) : Reading Expr := do
  let target ← leftHandSide n
  let op := Grammar.updateOperator? (← Parser.current)
  match if ← Parser.afterBreak then none else op with
  | some op =>
    Grammar.checkAssignable target
    Parser.advance
    return .update op false target
  | none => return target

def unary (n : Nesting) : Reading Expr := do
  match Grammar.frontOperator? (← Parser.current) with
  | none => postfixUpdate n
  | some op =>
    Parser.advance
    let operand ← n.parse .unary
    match op with
    | .convert op => return .unary op operand
    | .typeOf => return .typeOf operand
    | .void => return .void operand
    | .update op =>
      Grammar.checkAssignable operand
      return .update op true operand
    | .delete =>
      match operand with
      | .identifier _ => if ← Parser.isStrict then throw .strictDelete
      | _ => pure ()
      return .delete operand

def power (n : Nesting) : Reading Expr := do
  let barred := (Grammar.frontOperator? (← Parser.current)).any Grammar.FrontOperator.barsPower
  let base ← unary n
  if ← Parser.atSign .exponent then
    if barred then throw .unaryBase
    Parser.advance
    return .binary .exp base (← n.parse .power)
  else return base

def binaryRest (n : Nesting) (strength : Nat) : Nat → Expr → Reading Expr
  | 0, _ => throw .outOfFuel
  | rounds + 1, left => do
    let m ← marks
    match Grammar.binaryOperator? m.context (← Parser.current) with
    | none => return left
    | some (op, own) =>
      if own ≤ strength then return left
      else
        Parser.advance
        let right ← n.parse (.binary own)
        binaryRest n strength rounds (.binary op left right)

def binary (n : Nesting) (strength : Nat) : Reading Expr := do
  binaryRest n strength n.rounds (← power n)

def logicalRest (sign : Punctuator) (op : LogicalOp) (operand : Reading Expr) :
    Nat → Expr → Reading Expr
  | 0, _ => throw .outOfFuel
  | rounds + 1, left => do
    if ← Parser.eat sign then
      let right ← operand
      logicalRest sign op operand rounds (.logical op left right)
    else return left

def conjunction (n : Nesting) : Reading Expr := do
  logicalRest .logicalAnd .and (binary n 0) n.rounds (← binary n 0)

def disjunction (n : Nesting) : Reading Expr := do
  logicalRest .logicalOr .or (conjunction n) n.rounds (← conjunction n)

def coalescing (n : Nesting) : Reading Expr := do
  logicalRest .nullishCoalescing .coalesce (disjunction n) n.rounds (← disjunction n)

def conditional (n : Nesting) : Reading Expr := do
  let test ← coalescing n
  if ← Parser.eat .question then
    let consequent ← withIn (n.parse .assignment)
    Parser.expect .colon
    return .conditional test consequent (← n.parse .assignment)
  else return test

def assignment (n : Nesting) : Reading Expr := do
  let cover ← takeCover
  let left ← conditional n
  match Grammar.assignmentOperator? (← Parser.current) with
  | none =>
    if !cover && Grammar.hasCoverProperty left then throw .shorthandInitializer
    return left
  | some op =>
    if op.isNone && Grammar.isLiteralPattern left then throw .destructuringAssignment
    Grammar.checkAssignable left
    Parser.advance
    return .assign op left (← n.parse .assignment)

def expression (n : Nesting) : Reading Expr := sequenceOf n (assignment n)

/-! ### Statements -/

def declarators (n : Nesting) (kind : DeclarationKind) : Nat → Reading (List Declarator)
  | 0 => throw .outOfFuel
  | rounds + 1 => do
    let target ← bindingPattern n
    if kind.isLexical && target.boundNames.contains "let" then throw .letAsName
    let init ← if ← Parser.eat .assign then some <$> n.parse .assignment else pure none
    if ← Parser.eat .comma then
      return ⟨target, init⟩ :: (← declarators n kind rounds)
    else return [⟨target, init⟩]

def declarationStatement (n : Nesting) (kind : DeclarationKind) : Reading Stmt := do
  Parser.advance
  let declaration : Declaration := ⟨kind, ← declarators n kind n.rounds⟩
  Grammar.checkInitializers declaration
  Parser.endStatement
  return .declaration declaration

def condition (n : Nesting) : Reading Expr := do
  Parser.expect .leftParen
  let test ← expression n
  Parser.expect .rightParen
  return test

def blockItems (n : Nesting) (declared : List String) : Nat → Reading (List Stmt)
  | 0 => throw .outOfFuel
  | rounds + 1 => do
    if ← Parser.atSign .rightBrace then return []
    else if ← Parser.atEnd then throw .unexpectedEnd
    else
      let statement ← n.parse .item
      let declared ← Grammar.declareAll declared statement
      return statement :: (← blockItems n declared rounds)

def block (n : Nesting) : Reading (List Stmt) := do
  Parser.expect .leftBrace
  let body ← blockItems n [] n.rounds
  Parser.advance
  return body

def expressionStatement (n : Nesting) : Reading Stmt := do
  let value ← expression n
  Parser.endStatement
  return .expression value

def labeledStatement (n : Nesting) (chain : Option Nat) (name : String) : Reading Stmt := do
  Parser.advance
  Parser.advance
  let m ← marks
  if m.labels.any fun l => l.name == name then throw (.duplicateLabel name)
  let start := chain.getD m.labels.length
  mark fun m => m.withLabel name
  let word := (← Parser.current).word?
  if word.any Grammar.startsLoop then mark fun m => m.onLoop start
  if word == some .functionWord then throw .labeledFunction
  return .labeled name (← around (fun m => m.chained start)
    (fun _ m => { m with chain := none, labels := m.labels.dropLast }) (n.parse .statement))

def expressionOrLabeled (n : Nesting) (chain : Option Nat) : Reading Stmt := do
  match ← Grammar.currentName? with
  | none => expressionStatement n
  | some name =>
    if (← Parser.peek).1.sign? == some .colon then labeledStatement n chain name
    else expressionStatement n

def loopBody (n : Nesting) : Reading Stmt :=
  around Marks.loopBody (fun _ m => { m with inLoop := m.inLoop - 1 }) (n.parse .statement)

def ifStatement (n : Nesting) : Reading Stmt := do
  Parser.advance
  let test ← condition n
  let consequent ← n.parse .statement
  if ← Parser.eatWord .elseWord then
    return .ifStmt test consequent (some (← n.parse .statement))
  else return .ifStmt test consequent none

def whileStatement (n : Nesting) : Reading Stmt := do
  Parser.advance
  let test ← condition n
  return .whileStmt test (← loopBody n)

def doWhileStatement (n : Nesting) : Reading Stmt := do
  Parser.advance
  let body ← loopBody n
  Parser.expectWord .whileWord
  let test ← condition n
  let _ ← Parser.eat .semicolon
  return .doWhileStmt body test

def declarationHead (n : Nesting) (kind : DeclarationKind) : Reading Grammar.LoopHead := do
  Parser.advance
  let declaration : Declaration := ⟨kind, ← declarators n kind n.rounds⟩
  if ← Parser.atWord .inWord then
    match declaration.declarators with
    | [⟨target, init⟩] =>
      if init.isSome && ((← Parser.isStrict) || kind.isLexical || !target.isIdentifier) then
        throw .loopInitializer
      Parser.advance
      return .keys (.declaration declaration)
    | _ => throw .loopTargets
  else
    Grammar.checkInitializers declaration
    return .test (some (.declaration declaration))

def loopHead (n : Nesting) : Reading Grammar.LoopHead := do
  if ← Grammar.atLetDeclaration then declarationHead n .letBound
  else
    match ← Parser.current with
    | .punctuator .semicolon => return .test none
    | .keyword .varWord => declarationHead n .variable
    | .keyword .constWord => declarationHead n .constant
    | _ =>
      let value ← expression n
      if ← Parser.eatWord .inWord then
        match value.toPattern (← Parser.isStrict) with
        | .ok target => return .keys (.pattern target)
        | .error e => throw e
      else return .test (some (.expression value))

def optionalExpression (n : Nesting) (close : Punctuator) : Reading (Option Expr) := do
  if ← Parser.atSign close then return none
  else return some (← expression n)

def forStatement (n : Nesting) : Reading Stmt := do
  Parser.advance
  Parser.expect .leftParen
  match ← around Marks.forHead (fun before m => { m with noIn := before.noIn }) (loopHead n) with
  | .keys target =>
    let object ← expression n
    Parser.expect .rightParen
    return .forInStmt target object (← loopBody n)
  | .test init =>
    Parser.expect .semicolon
    let test ← optionalExpression n .semicolon
    Parser.expect .semicolon
    let update ← optionalExpression n .rightParen
    Parser.expect .rightParen
    return .forStmt init test update (← loopBody n)

def returnStatement (n : Nesting) : Reading Stmt := do
  let m ← marks
  if !m.context.inFunction then throw .strayReturn
  Parser.advance
  let ends := Grammar.endsReturn (← Parser.current)
  let value ← if (← Parser.afterBreak) || ends then pure none else some <$> expression n
  Parser.endStatement
  return .returnStmt value

def jumpStatement (continues : Bool) : Reading Stmt := do
  Parser.advance
  let label ← Grammar.jumpLabel
  let m ← marks
  Grammar.checkJump m.context continues label
  Parser.endStatement
  return if continues then .continueStmt label else .breakStmt label

def throwStatement (n : Nesting) : Reading Stmt := do
  Parser.advance
  if ← Parser.afterBreak then throw .breakAfterThrow
  let value ← expression n
  Parser.endStatement
  return .throwStmt value

def handler (n : Nesting) : Reading Handler := do
  if ← Parser.eat .leftParen then
    let parameter ← bindingPattern n
    Parser.expect .rightParen
    return ⟨some parameter, ← block n⟩
  else return ⟨none, ← block n⟩

def tryStatement (n : Nesting) : Reading Stmt := do
  Parser.advance
  let tried ← block n
  let handler ← if ← Parser.eatWord .catchWord then some <$> handler n else pure none
  let finalizer ← if ← Parser.eatWord .finallyWord then some <$> block n else pure none
  if handler.isNone && finalizer.isNone then throw .missingHandler
  return .tryStmt tried handler finalizer

def clauseItems (n : Nesting) (declared : List String) : Nat → Reading (List Stmt × List String)
  | 0 => throw .outOfFuel
  | rounds + 1 => do
    if Grammar.endsClause (← Parser.current) then return ([], declared)
    else
      let statement ← n.parse .item
      let declared ← Grammar.declareAll declared statement
      let (others, declared) ← clauseItems n declared rounds
      return (statement :: others, declared)

def switchClauses (n : Nesting) (declared : List String) (hasDefault : Bool) :
    Nat → Reading (List SwitchCase)
  | 0 => throw .outOfFuel
  | rounds + 1 => do
    if ← Parser.atSign .rightBrace then return []
    else
      let test ←
        if ← Parser.eatWord .caseWord then some <$> expression n
        else
          Parser.expectWord .defaultWord
          if hasDefault then throw .duplicateDefault
          pure none
      Parser.expect .colon
      let (body, declared) ← clauseItems n declared n.rounds
      let others ← switchClauses n declared (hasDefault || test.isNone) rounds
      return ⟨test, body⟩ :: others

def switchStatement (n : Nesting) : Reading Stmt := do
  Parser.advance
  let subject ← condition n
  Parser.expect .leftBrace
  let clauses ← around Marks.switchBody (fun _ m => { m with inSwitch := m.inSwitch - 1 })
    (switchClauses n [] false n.rounds)
  Parser.expect .rightBrace
  return .switchStmt subject clauses

def statementBehind (n : Nesting) (chain : Option Nat) : Reading Stmt := do
  match ← Parser.current with
  | .punctuator .leftBrace => return .block (← block n)
  | .punctuator .semicolon => Parser.advance; return .empty
  | .keyword .constWord => throw .lexicalDeclaration
  | .keyword .varWord => declarationStatement n .variable
  | .keyword .ifWord => ifStatement n
  | .keyword .whileWord => whileStatement n
  | .keyword .doWord => doWhileStatement n
  | .keyword .forWord => forStatement n
  | .keyword .returnWord => returnStatement n
  | .keyword .breakWord => jumpStatement false
  | .keyword .continueWord => jumpStatement true
  | .keyword .throwWord => throwStatement n
  | .keyword .tryWord => tryStatement n
  | .keyword .switchWord => switchStatement n
  | .keyword .withWord => if ← Parser.isStrict then throw .strictWith else throw .withStatement
  | .keyword .classWord => throw .classDeclaration
  | .keyword .debuggerWord =>
    Parser.advance
    Parser.endStatement
    return .debugger
  | _ => expressionOrLabeled n chain

def statement (n : Nesting) : Reading Stmt := do
  statementBehind n (← takeChain)

def item (n : Nesting) : Reading Stmt := do
  if ← Grammar.atLetDeclaration then declarationStatement n .letBound
  else
    match ← Parser.current with
    | .keyword .functionWord => return .function (← functionDeclaration n)
    | .keyword .constWord => declarationStatement n .constant
    | _ => statement n

/-! ### Texts -/

def rule (n : Nesting) : (g : Goal) → Reading g.Result
  | .assignment => assignment n
  | .binary strength => binary n strength
  | .power => power n
  | .unary => unary n
  | .construct => construct n
  | .pattern => bindingPattern n
  | .element => bindingElement n (bindingPattern n)
  | .statement => statement n
  | .item => item n

def parse : Nat → (g : Goal) → Reading g.Result
  | 0, _ => throw .outOfFuel
  | depth + 1, g => rule ⟨depth + 1, parse depth⟩ g

def nesting (depth : Nat) : Nesting := ⟨depth, parse depth⟩

/-- How a rule ends on a text, and where the function bodies begin that are read on the way. -/
def runOn {α : Type} (rule : Nesting → Reading α) (source : String) (strict : Bool) :
    Except SyntaxError (α × TokenStream) × List Standing :=
  match TokenStream.ofString source with
  | .error e => (.error e, [])
  | .ok stream =>
    match rule (nesting (Grammar.depthOf source))
      ⟨{ stream with strict := strict }, Marks.program, []⟩ with
    | .ok value st => (.ok (value, st.stream), st.bodies)
    | .error e st => (.error e, st.bodies)

def statements (n : Nesting) : Reading (List Stmt × Bool) := directiveBody n none true n.rounds

end ProtoScript.Marked
