import ProtoScript.Grammar.Expression
/-!
# Statements

Statements and declarations.  A name may be declared only once among the lexical declarations of a
block, and a jump must have a loop, a `switch` or a label to go to.
-/

namespace ProtoScript.Grammar

/-- The declarators behind the keyword of a declaration.  The initializers of constants are checked
elsewhere, because a `for`-`in` head has none. -/
def declarators (n : Nesting) (c : Context) (kind : DeclarationKind) :
    Nat → Parser (List Declarator)
  | 0 => throw .outOfFuel
  | rounds + 1 => do
    let target ← bindingPattern n c
    if kind.isLexical && target.boundNames.contains "let" then throw .letAsName
    let init ←
      if ← Parser.eat .assign then some <$> n.parse (.assignment false) c else pure none
    if ← Parser.eat .comma then
      return ⟨target, init⟩ :: (← declarators n c kind rounds)
    else return [⟨target, init⟩]

def checkInitializers (d : Declaration) : Parser Unit := do
  if d.kind == .constant && d.declarators.any fun declarator => declarator.init.isNone then
    throw .missingInitializer

def declarationStatement (n : Nesting) (c : Context) (kind : DeclarationKind) : Parser Stmt := do
  Parser.advance
  let declaration : Declaration := ⟨kind, ← declarators n c kind n.rounds⟩
  checkInitializers declaration
  Parser.endStatement
  return .declaration declaration

/-- Whether a `let` behind which the given token stands starts a declaration in sloppy code. -/
def startsBinding : Token → Bool
  | .identifier _ => true
  | .punctuator .leftBracket => true
  | .punctuator .leftBrace => true
  | .keyword .letWord => true
  | _ => false

/-- Whether the current token is a `let` that starts a declaration; in sloppy code it can be a
name. -/
def atLetDeclaration : Parser Bool := do
  if ← Parser.atWord .letWord then
    if ← Parser.isStrict then return true
    else return startsBinding (← Parser.peek).1
  else return false

/-- An expression in parentheses, as behind `if`, `while` and `switch`. -/
def condition (n : Nesting) (c : Context) : Parser Expr := do
  Parser.expect .leftParen
  let test ← expression n c
  Parser.expect .rightParen
  return test

/-- The names that a statement adds to the lexical declarations of its block. -/
def lexicalNames : Stmt → List String
  | .declaration declaration => if declaration.kind.isLexical then declaration.boundNames else []
  | _ => []

/-- The names declared so far together with those of a statement, none of which may be among
them. -/
def declareAll (declared : List String) (statement : Stmt) : Parser (List String) := do
  let names := lexicalNames statement
  match firstRepeated? declared names with
  | some name => throw (.redeclared name)
  | none => return declared ++ names

def blockItems (n : Nesting) (c : Context) (declared : List String) : Nat → Parser (List Stmt)
  | 0 => throw .outOfFuel
  | rounds + 1 => do
    if ← Parser.atSign .rightBrace then return []
    else if ← Parser.atEnd then throw .unexpectedEnd
    else
      let statement ← n.parse .item c
      let declared ← declareAll declared statement
      return statement :: (← blockItems n c declared rounds)

def block (n : Nesting) (c : Context) : Parser (List Stmt) := do
  Parser.expect .leftBrace
  let body ← blockItems n c [] n.rounds
  Parser.advance
  return body

def expressionStatement (n : Nesting) (c : Context) : Parser Stmt := do
  let value ← expression n c
  Parser.endStatement
  return .expression value

def startsLoop (word : Keyword) : Bool :=
  word == .forWord || word == .whileWord || word == .doWord

/-- The labels with a further one inside them.  If a loop follows, all labels of the chain are on
it. -/
def addLabel (labels : List Label) (chain : Nat) (name : String) (onLoop : Bool) : List Label :=
  let all := labels ++ [⟨name, false⟩]
  if onLoop then all.take chain ++ (all.drop chain).map fun l => { l with isLoop := true } else all

def labeledStatement (n : Nesting) (c : Context) (chain : Option Nat) (name : String) :
    Parser Stmt := do
  Parser.advance
  Parser.advance
  if c.labels.any fun l => l.name == name then throw (.duplicateLabel name)
  let start := chain.getD c.labels.length
  let word := (← Parser.current).word?
  let labels := addLabel c.labels start name (word.any startsLoop)
  if word == some .functionWord then throw .labeledFunction
  return .labeled name (← n.parse (.statement (some start)) { c with labels := labels })

def expressionOrLabeled (n : Nesting) (c : Context) (chain : Option Nat) : Parser Stmt := do
  match ← currentName? with
  | none => expressionStatement n c
  | some name =>
    if (← Parser.peek).1.sign? == some .colon then labeledStatement n c chain name
    else expressionStatement n c

def loopBody (n : Nesting) (c : Context) : Parser Stmt := n.parse (.statement none) c.loopBody

def ifStatement (n : Nesting) (c : Context) : Parser Stmt := do
  Parser.advance
  let test ← condition n c
  let consequent ← n.parse (.statement none) c
  if ← Parser.eatWord .elseWord then
    return .ifStmt test consequent (some (← n.parse (.statement none) c))
  else return .ifStmt test consequent none

def whileStatement (n : Nesting) (c : Context) : Parser Stmt := do
  Parser.advance
  let test ← condition n c
  return .whileStmt test (← loopBody n c)

/-- A `do` loop.  No separator is needed behind it. -/
def doWhileStatement (n : Nesting) (c : Context) : Parser Stmt := do
  Parser.advance
  let body ← loopBody n c
  Parser.expectWord .whileWord
  let test ← condition n c
  let _ ← Parser.eat .semicolon
  return .doWhileStmt body test

inductive LoopHead where
  /-- The keys of an object; the `in` has been read. -/
  | keys (target : ForInTarget)
  | test (init : Option ForInit)

/-- The head of a `for` loop that starts with a declaration, at its keyword. -/
def declarationHead (n : Nesting) (c : Context) (kind : DeclarationKind) : Parser LoopHead := do
  Parser.advance
  let declaration : Declaration := ⟨kind, ← declarators n c kind n.rounds⟩
  if ← Parser.atWord .inWord then
    match declaration.declarators with
    | [⟨target, init⟩] =>
      if init.isSome && ((← Parser.isStrict) || kind.isLexical || !target.isIdentifier) then
        throw .loopInitializer
      Parser.advance
      return .keys (.declaration declaration)
    | _ => throw .loopTargets
  else
    checkInitializers declaration
    return .test (some (.declaration declaration))

def loopHead (n : Nesting) (c : Context) : Parser LoopHead := do
  if ← atLetDeclaration then declarationHead n c .letBound
  else
    match ← Parser.current with
    | .punctuator .semicolon => return .test none
    | .keyword .varWord => declarationHead n c .variable
    | .keyword .constWord => declarationHead n c .constant
    | _ =>
      let value ← expression n c
      if ← Parser.eatWord .inWord then
        match value.toPattern (← Parser.isStrict) with
        | .ok target => return .keys (.pattern target)
        | .error e => throw e
      else return .test (some (.expression value))

def optionalExpression (n : Nesting) (c : Context) (close : Punctuator) : Parser (Option Expr) := do
  if ← Parser.atSign close then return none
  else return some (← expression n c)

def forStatement (n : Nesting) (c : Context) : Parser Stmt := do
  Parser.advance
  Parser.expect .leftParen
  match ← loopHead n c.forHead with
  | .keys target =>
    let object ← expression n c
    Parser.expect .rightParen
    return .forInStmt target object (← loopBody n c)
  | .test init =>
    Parser.expect .semicolon
    let test ← optionalExpression n c .semicolon
    Parser.expect .semicolon
    let update ← optionalExpression n c .rightParen
    Parser.expect .rightParen
    return .forStmt init test update (← loopBody n c)

def endsReturn (t : Token) : Bool :=
  t.sign? == some .semicolon || t.sign? == some .rightBrace || t.isEnd

def returnStatement (n : Nesting) (c : Context) : Parser Stmt := do
  if !c.inFunction then throw .strayReturn
  Parser.advance
  let ends := endsReturn (← Parser.current)
  let value ← if (← Parser.afterBreak) || ends then pure none else some <$> expression n c
  Parser.endStatement
  return .returnStmt value

def jumpLabel : Parser (Option String) := do
  if ← Parser.afterBreak then return none
  else
    let name ← currentName?
    if name.isSome then Parser.advance
    return name

def checkJump (c : Context) (continues : Bool) : Option String → Parser Unit
  | some name =>
    match c.labels.find? fun l => l.name == name with
    | none => throw (.undefinedLabel name)
    | some label => if continues && !label.isLoop then throw (.labelOfNoLoop name) else return ()
  | none =>
    if continues then if c.inLoop then return () else throw .strayContinue
    else if c.inLoop || c.inSwitch then return () else throw .strayBreak

def jumpStatement (c : Context) (continues : Bool) : Parser Stmt := do
  Parser.advance
  let label ← jumpLabel
  checkJump c continues label
  Parser.endStatement
  return if continues then .continueStmt label else .breakStmt label

def throwStatement (n : Nesting) (c : Context) : Parser Stmt := do
  Parser.advance
  if ← Parser.afterBreak then throw .breakAfterThrow
  let value ← expression n c
  Parser.endStatement
  return .throwStmt value

def handler (n : Nesting) (c : Context) : Parser Handler := do
  if ← Parser.eat .leftParen then
    let parameter ← bindingPattern n c
    Parser.expect .rightParen
    return ⟨some parameter, ← block n c⟩
  else return ⟨none, ← block n c⟩

def tryStatement (n : Nesting) (c : Context) : Parser Stmt := do
  Parser.advance
  let tried ← block n c
  let handler ← if ← Parser.eatWord .catchWord then some <$> handler n c else pure none
  let finalizer ← if ← Parser.eatWord .finallyWord then some <$> block n c else pure none
  if handler.isNone && finalizer.isNone then throw .missingHandler
  return .tryStmt tried handler finalizer

/-- Whether the statements of a `switch` clause end in front of the token. -/
def endsClause (t : Token) : Bool :=
  t.sign? == some .rightBrace || t.isEnd || t.word? == some .caseWord ||
    t.word? == some .defaultWord

/-- The statements of a `switch` clause, with the lexical names declared up to its end. -/
def clauseItems (n : Nesting) (c : Context) (declared : List String) :
    Nat → Parser (List Stmt × List String)
  | 0 => throw .outOfFuel
  | rounds + 1 => do
    if endsClause (← Parser.current) then return ([], declared)
    else
      let statement ← n.parse .item c
      let declared ← declareAll declared statement
      let (others, declared) ← clauseItems n c declared rounds
      return (statement :: others, declared)

/-- The clauses of a `switch` statement up to its closing brace.  They share one block, and only one
of them is the default clause. -/
def switchClauses (n : Nesting) (c : Context) (declared : List String) (hasDefault : Bool) :
    Nat → Parser (List SwitchCase)
  | 0 => throw .outOfFuel
  | rounds + 1 => do
    if ← Parser.atSign .rightBrace then return []
    else
      let test ←
        if ← Parser.eatWord .caseWord then some <$> expression n c
        else
          Parser.expectWord .defaultWord
          if hasDefault then throw .duplicateDefault
          pure none
      Parser.expect .colon
      let (body, declared) ← clauseItems n c declared n.rounds
      let others ← switchClauses n c declared (hasDefault || test.isNone) rounds
      return ⟨test, body⟩ :: others

def switchStatement (n : Nesting) (c : Context) : Parser Stmt := do
  Parser.advance
  let subject ← condition n c
  Parser.expect .leftBrace
  let clauses ← switchClauses n { c with inSwitch := true } [] false n.rounds
  Parser.expect .rightBrace
  return .switchStmt subject clauses

def statement (n : Nesting) (c : Context) (chain : Option Nat) : Parser Stmt := do
  match ← Parser.current with
  | .punctuator .leftBrace => return .block (← block n c)
  | .punctuator .semicolon => Parser.advance; return .empty
  | .keyword .constWord => throw .lexicalDeclaration
  | .keyword .varWord => declarationStatement n c .variable
  | .keyword .ifWord => ifStatement n c
  | .keyword .whileWord => whileStatement n c
  | .keyword .doWord => doWhileStatement n c
  | .keyword .forWord => forStatement n c
  | .keyword .returnWord => returnStatement n c
  | .keyword .breakWord => jumpStatement c false
  | .keyword .continueWord => jumpStatement c true
  | .keyword .throwWord => throwStatement n c
  | .keyword .tryWord => tryStatement n c
  | .keyword .switchWord => switchStatement n c
  | .keyword .withWord => if ← Parser.isStrict then throw .strictWith else throw .withStatement
  | .keyword .classWord => throw .classDeclaration
  | .keyword .debuggerWord =>
    Parser.advance
    Parser.endStatement
    return .debugger
  | _ => expressionOrLabeled n c chain

def item (n : Nesting) (c : Context) : Parser Stmt := do
  if ← atLetDeclaration then declarationStatement n c .letBound
  else
    match ← Parser.current with
    | .keyword .functionWord => return .function (← functionDeclaration n c)
    | .keyword .constWord => declarationStatement n c .constant
    | _ => statement n c none

end ProtoScript.Grammar
