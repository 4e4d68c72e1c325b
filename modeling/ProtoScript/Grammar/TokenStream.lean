import ProtoScript.Token.Scan
import ProtoScript.Grammar.Error
/-!
# Token streams

The tokens of a text without its line breaks, as the grammar sees them: a current token, whether a
line break stands in front of it, and at most one token that was looked at ahead of time.  Tokens
are read when they become current, so strictness takes effect from the next token on.
-/

namespace ProtoScript

structure TokenStream where
  current : Token
  afterBreak : Bool
  /-- The token behind the current one and whether a line break stands in front of it, if it was
  looked at. -/
  ahead : Option (Token × Bool)
  cursor : Cursor
  strict : Bool
  deriving Inhabited

/-- Grammar rules: they read a token stream and end with a result or a syntax error. -/
abbrev Parser := EStateM SyntaxError TokenStream

namespace TokenStream

/-- Reads the next token that is not a line break, and whether a line break came before it. -/
def readToken (strict : Bool) (c : Cursor) (afterBreak : Bool) :
    Except LexicalError (Token × Bool × Cursor) :=
  match _hn : Token.next strict c with
  | .error e => .error e
  | .ok l =>
    match _ht : l.token with
    | .lineBreak => readToken strict l.next true
    | token => .ok (token, afterBreak, l.next)
termination_by c.rest.length
decreasing_by
  rcases Token.length_rest_next _hn with ⟨hend, _⟩ | hlt
  · rw [hend] at _ht; cases _ht
  · exact hlt

def ofString (source : String) : Except SyntaxError TokenStream :=
  match readToken false (Cursor.ofString source) false with
  | .ok (token, afterBreak, cursor) => .ok ⟨token, afterBreak, none, cursor, false⟩
  | .error e => .error (.lexical e)

end TokenStream

namespace Parser

def current : Parser Token := return (← get).current

def afterBreak : Parser Bool := return (← get).afterBreak

def isStrict : Parser Bool := return (← get).strict

def setStrict (strict : Bool) : Parser Unit := modify fun s => { s with strict := strict }

/-- Makes the next token current.  Where no token can be read, the stream stands at its end. -/
def advance : Parser Unit := fun s =>
  match s.ahead with
  | some (token, afterBreak) =>
    .ok () { s with current := token, afterBreak := afterBreak, ahead := none }
  | none =>
    match TokenStream.readToken s.strict s.cursor false with
    | .ok (token, afterBreak, cursor) =>
      .ok () { s with current := token, afterBreak := afterBreak, cursor := cursor }
    | .error e => .error (.lexical e) { s with current := .endOfInput }

/-- The token behind the current one and whether a line break stands in front of it.  The current
token stays current. -/
def peek : Parser (Token × Bool) := do
  let before ← get
  advance
  let after ← get
  set { after with
    current := before.current
    afterBreak := before.afterBreak
    ahead := some (after.current, after.afterBreak) }
  return (after.current, after.afterBreak)

def atSign (sign : Punctuator) : Parser Bool := return (← current).sign? == some sign

def atWord (word : Keyword) : Parser Bool := return (← current).word? == some word

def atEnd : Parser Bool := return (← current).isEnd

def expect (sign : Punctuator) : Parser Unit := do
  if ← atSign sign then advance else throw (.expected (.punctuator sign) (← current))

def expectWord (word : Keyword) : Parser Unit := do
  if ← atWord word then advance else throw (.expected (.keyword word) (← current))

def eat (sign : Punctuator) : Parser Bool := do
  if ← atSign sign then
    advance
    return true
  else return false

def eatWord (word : Keyword) : Parser Bool := do
  if ← atWord word then
    advance
    return true
  else return false

/-- Ends a statement: by a semicolon, or without one in front of a closing brace, at the end of the
text or at a line break. -/
def endStatement : Parser Unit := do
  if ← atSign .semicolon then advance
  else
    let atBrace ← atSign .rightBrace
    if (← afterBreak) || atBrace || (← atEnd) then return ()
    else throw (.unexpectedToken (← current))

/-- Takes the comma behind an element of a list; none is needed in front of the closing sign. -/
def separate (close : Punctuator) : Parser Unit := do
  if ← atSign .comma then advance
  else if ← atSign close then return ()
  else throw (.unexpectedToken (← current))

/-- Elements up to the closing sign, which stays; a comma stands between any two of them, and one
may stand behind the last. -/
def commaList {α : Type} (close : Punctuator) (element : Parser α) : Nat → Parser (List α)
  | 0 => throw .outOfFuel
  | rounds + 1 => do
    if ← atSign close then return []
    else
      let first ← element
      separate close
      let others ← commaList close element rounds
      return first :: others

/-- Runs a rule and hands over its error, apart from the one that says the bound was too low.  The
stream stays where the rule left it. -/
def attempt {α : Type} (rule : Parser α) : Parser (Except SyntaxError α) := fun s =>
  match rule s with
  | .ok value s => .ok (.ok value) s
  | .error .outOfFuel s => .error .outOfFuel s
  | .error e s => .ok (.error e) s

end Parser

end ProtoScript
