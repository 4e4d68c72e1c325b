import ProtoScript.Number.Display
/-!
# Tokens

The words of a program.  `Token.quoted` is the text by which messages name a token.
-/

namespace ProtoScript

/-!
### Keywords

The words that a program cannot use as names, apart from `let`, which only strict code reserves.
-/

inductive Keyword where
  | breakWord | caseWord | catchWord | classWord | constWord | continueWord
  | debuggerWord | defaultWord | deleteWord | doWord | elseWord | enumWord
  | exportWord | extendsWord | finallyWord | forWord | functionWord | ifWord
  | importWord | inWord | instanceofWord | letWord | newWord | returnWord
  | superWord | switchWord | thisWord | throwWord | tryWord | typeofWord
  | varWord | voidWord | whileWord | withWord
  deriving DecidableEq, Inhabited, Repr

namespace Keyword

def all : List Keyword :=
  [.breakWord, .caseWord, .catchWord, .classWord, .constWord, .continueWord, .debuggerWord,
   .defaultWord, .deleteWord, .doWord, .elseWord, .enumWord, .exportWord, .extendsWord,
   .finallyWord, .forWord, .functionWord, .ifWord, .importWord, .inWord, .instanceofWord,
   .letWord, .newWord, .returnWord, .superWord, .switchWord, .thisWord, .throwWord, .tryWord,
   .typeofWord, .varWord, .voidWord, .whileWord, .withWord]

def spelling : Keyword → String
  | .breakWord => "break"
  | .caseWord => "case"
  | .catchWord => "catch"
  | .classWord => "class"
  | .constWord => "const"
  | .continueWord => "continue"
  | .debuggerWord => "debugger"
  | .defaultWord => "default"
  | .deleteWord => "delete"
  | .doWord => "do"
  | .elseWord => "else"
  | .enumWord => "enum"
  | .exportWord => "export"
  | .extendsWord => "extends"
  | .finallyWord => "finally"
  | .forWord => "for"
  | .functionWord => "function"
  | .ifWord => "if"
  | .importWord => "import"
  | .inWord => "in"
  | .instanceofWord => "instanceof"
  | .letWord => "let"
  | .newWord => "new"
  | .returnWord => "return"
  | .superWord => "super"
  | .switchWord => "switch"
  | .thisWord => "this"
  | .throwWord => "throw"
  | .tryWord => "try"
  | .typeofWord => "typeof"
  | .varWord => "var"
  | .voidWord => "void"
  | .whileWord => "while"
  | .withWord => "with"

def ofString? (word : String) : Option Keyword :=
  all.find? fun k => k.spelling == word

/-- The name of the keyword in messages: the word with a capital letter. -/
def name (k : Keyword) : String := k.spelling.capitalize

end Keyword

/-!
### Punctuators

The tokens made of signs.  Where one punctuator starts another, the longest is read.
-/

inductive Punctuator where
  | leftBrace | rightBrace | leftParen | rightParen | leftBracket | rightBracket | dot | ellipsis
  | semicolon | comma | lessThan | greaterThan | lessThanEqual | greaterThanEqual | equal
  | notEqual | strictEqual | strictNotEqual | plus | minus | star | slash | percent | exponent
  | increment | decrement | leftShift | rightShift | unsignedRightShift | ampersand | pipe
  | caret | bang | tilde | logicalAnd | logicalOr | nullishCoalescing | question | colon | assign
  | plusAssign | minusAssign | starAssign | slashAssign | percentAssign | exponentAssign
  | leftShiftAssign | rightShiftAssign | unsignedRightShiftAssign | ampersandAssign | pipeAssign
  | caretAssign | arrow
  deriving DecidableEq, Inhabited, Repr

namespace Punctuator

def all : List Punctuator :=
  [.leftBrace, .rightBrace, .leftParen, .rightParen, .leftBracket, .rightBracket, .dot,
   .ellipsis, .semicolon, .comma, .lessThan, .greaterThan, .lessThanEqual, .greaterThanEqual,
   .equal, .notEqual, .strictEqual, .strictNotEqual, .plus, .minus, .star, .slash, .percent,
   .exponent, .increment, .decrement, .leftShift, .rightShift, .unsignedRightShift, .ampersand,
   .pipe, .caret, .bang, .tilde, .logicalAnd, .logicalOr, .nullishCoalescing, .question, .colon,
   .assign, .plusAssign, .minusAssign, .starAssign, .slashAssign, .percentAssign,
   .exponentAssign, .leftShiftAssign, .rightShiftAssign, .unsignedRightShiftAssign,
   .ampersandAssign, .pipeAssign, .caretAssign, .arrow]

def spelling : Punctuator → List Char
  | .leftBrace => ['{']
  | .rightBrace => ['}']
  | .leftParen => ['(']
  | .rightParen => [')']
  | .leftBracket => ['[']
  | .rightBracket => [']']
  | .dot => ['.']
  | .ellipsis => ['.', '.', '.']
  | .semicolon => [';']
  | .comma => [',']
  | .lessThan => ['<']
  | .greaterThan => ['>']
  | .lessThanEqual => ['<', '=']
  | .greaterThanEqual => ['>', '=']
  | .equal => ['=', '=']
  | .notEqual => ['!', '=']
  | .strictEqual => ['=', '=', '=']
  | .strictNotEqual => ['!', '=', '=']
  | .plus => ['+']
  | .minus => ['-']
  | .star => ['*']
  | .slash => ['/']
  | .percent => ['%']
  | .exponent => ['*', '*']
  | .increment => ['+', '+']
  | .decrement => ['-', '-']
  | .leftShift => ['<', '<']
  | .rightShift => ['>', '>']
  | .unsignedRightShift => ['>', '>', '>']
  | .ampersand => ['&']
  | .pipe => ['|']
  | .caret => ['^']
  | .bang => ['!']
  | .tilde => ['~']
  | .logicalAnd => ['&', '&']
  | .logicalOr => ['|', '|']
  | .nullishCoalescing => ['?', '?']
  | .question => ['?']
  | .colon => [':']
  | .assign => ['=']
  | .plusAssign => ['+', '=']
  | .minusAssign => ['-', '=']
  | .starAssign => ['*', '=']
  | .slashAssign => ['/', '=']
  | .percentAssign => ['%', '=']
  | .exponentAssign => ['*', '*', '=']
  | .leftShiftAssign => ['<', '<', '=']
  | .rightShiftAssign => ['>', '>', '=']
  | .unsignedRightShiftAssign => ['>', '>', '>', '=']
  | .ampersandAssign => ['&', '=']
  | .pipeAssign => ['|', '=']
  | .caretAssign => ['^', '=']
  | .arrow => ['=', '>']

def name : Punctuator → String
  | .leftBrace => "LeftBrace"
  | .rightBrace => "RightBrace"
  | .leftParen => "LeftParen"
  | .rightParen => "RightParen"
  | .leftBracket => "LeftBracket"
  | .rightBracket => "RightBracket"
  | .dot => "Dot"
  | .ellipsis => "Ellipsis"
  | .semicolon => "Semicolon"
  | .comma => "Comma"
  | .lessThan => "LessThan"
  | .greaterThan => "GreaterThan"
  | .lessThanEqual => "LessThanEqual"
  | .greaterThanEqual => "GreaterThanEqual"
  | .equal => "Equal"
  | .notEqual => "NotEqual"
  | .strictEqual => "StrictEqual"
  | .strictNotEqual => "StrictNotEqual"
  | .plus => "Plus"
  | .minus => "Minus"
  | .star => "Star"
  | .slash => "Slash"
  | .percent => "Percent"
  | .exponent => "Exponent"
  | .increment => "Increment"
  | .decrement => "Decrement"
  | .leftShift => "LeftShift"
  | .rightShift => "RightShift"
  | .unsignedRightShift => "UnsignedRightShift"
  | .ampersand => "Ampersand"
  | .pipe => "Pipe"
  | .caret => "Caret"
  | .bang => "Bang"
  | .tilde => "Tilde"
  | .logicalAnd => "LogicalAnd"
  | .logicalOr => "LogicalOr"
  | .nullishCoalescing => "NullishCoalescing"
  | .question => "Question"
  | .colon => "Colon"
  | .assign => "Assign"
  | .plusAssign => "PlusAssign"
  | .minusAssign => "MinusAssign"
  | .starAssign => "StarAssign"
  | .slashAssign => "SlashAssign"
  | .percentAssign => "PercentAssign"
  | .exponentAssign => "ExponentAssign"
  | .leftShiftAssign => "LeftShiftAssign"
  | .rightShiftAssign => "RightShiftAssign"
  | .unsignedRightShiftAssign => "UnsignedRightShiftAssign"
  | .ampersandAssign => "AmpersandAssign"
  | .pipeAssign => "PipeAssign"
  | .caretAssign => "CaretAssign"
  | .arrow => "Arrow"

def ofLength? (cs : List Char) (length : Nat) : Option Punctuator :=
  all.find? fun p => p.spelling.length == length && p.spelling.isPrefixOf cs

def longest? (cs : List Char) : Option Punctuator :=
  [4, 3, 2, 1].findSome? (ofLength? cs)

theorem spelling_length_pos (p : Punctuator) : 0 < p.spelling.length := by
  cases p <;> decide

end Punctuator

/-! ### All tokens -/

/-- A token.  Line breaks are tokens because some statements end at them. -/
inductive Token where
  | identifier (name : String)
  | keyword (word : Keyword)
  | number (value : Float)
  /-- A numeric literal with a leading zero, which only sloppy code has. -/
  | legacyOctal (value : Float)
  | string (value : String)
  | boolean (value : Bool)
  | null
  | punctuator (sign : Punctuator)
  | lineBreak
  | endOfInput
  deriving BEq, Inhabited, Repr

namespace Token

def sign? : Token → Option Punctuator
  | punctuator sign => some sign
  | _ => none

def word? : Token → Option Keyword
  | keyword word => some word
  | _ => none

def isEnd : Token → Bool
  | endOfInput => true
  | _ => false

def quotedChar (c : Char) : List Char :=
  if c == '"' || c == '\\' then ['\\', c]
  else if c == '\n' then ['\\', 'n']
  else if c == '\r' then ['\\', 'r']
  else if c == '\t' then ['\\', 't']
  else if c == '\x00' then ['\\', '0']
  else if c.toNat < 0x20 || (0x7F ≤ c.toNat && c.toNat < 0xA0) then
    '\\' :: 'u' :: '\x7b' :: Nat.toDigits 16 c.toNat ++ ['\x7d']
  else [c]

def quotedText (s : String) : String :=
  String.ofList ('"' :: s.toList.flatMap quotedChar ++ ['"'])

def kindName : Token → String
  | identifier _ => "Identifier"
  | keyword _ => "Keyword"
  | number _ => "NumericLiteral"
  | legacyOctal _ => "LegacyOctalLiteral"
  | string _ => "StringLiteral"
  | boolean _ => "BooleanLiteral"
  | null => "NullLiteral"
  | punctuator sign => sign.name
  | lineBreak => "LineTerminator"
  | endOfInput => "Eof"

/-- The content of a token in messages; most tokens have none. -/
def quotedContent? : Token → Option String
  | identifier name => some (quotedText name)
  | keyword word => some word.name
  | number value => some (String.ofList (Number.Format.quoted.chars value))
  | legacyOctal value => some (String.ofList (Number.Format.quoted.chars value))
  | string value => some (quotedText value)
  | boolean value => some (if value then "true" else "false")
  | _ => none

/-- The token as messages name it: its kind, and its content in parentheses. -/
def quoted (t : Token) : String :=
  match t.quotedContent? with
  | some content => t.kindName ++ "(" ++ content ++ ")"
  | none => t.kindName

end Token

end ProtoScript
