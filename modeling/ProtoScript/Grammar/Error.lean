import ProtoScript.Token
import ProtoScript.Token.Error
/-!
# Syntax errors

Why a text is not a program.  `SyntaxError.message` is the text that users see.
-/

namespace ProtoScript

inductive SyntaxError where
  | lexical (error : LexicalError)
  | expected (wanted found : Token)
  | unexpectedToken (found : Token)
  | noExpression (found : Token)
  | reservedWord (found : Token)
  | unexpectedEnd
  /-- Parentheses are empty or hold a rest parameter, and no arrow follows. -/
  | strayParenthesis
  | letAsName
  | noPattern (found : Token)
  | shorthandPattern
  | noPropertyName (found : Token)
  | noFunctionName
  | noMemberName
  | strictBinding (name : String)
  /-- Strict code has `eval` or `arguments` as the target of a pattern. -/
  | strictTarget (name : String)
  | strictAssignment
  | strictDelete
  | strictOctal
  | strictWith
  | strictDirective
  | duplicateParameter (name : String)
  | invalidPattern
  | invalidAssignment
  | destructuringAssignment
  | shorthandInitializer
  | unaryBase
  | lexicalDeclaration
  | withStatement
  | classDeclaration
  | duplicateLabel (name : String)
  | labeledFunction
  | redeclared (name : String)
  | missingInitializer
  /-- A `for`-`in` head declares no or several targets. -/
  | loopTargets
  /-- The declaration in a `for`-`in` head has an initializer. -/
  | loopInitializer
  | strayReturn
  | undefinedLabel (name : String)
  /-- A `continue` to a label that is not on a loop. -/
  | labelOfNoLoop (name : String)
  | strayContinue
  /-- A `break` outside loops and `switch` statements. -/
  | strayBreak
  | breakAfterThrow
  | missingHandler
  | duplicateDefault
  /-- The grammar rules were applied too often; never the case for a bound above the text's
  length. -/
  | outOfFuel
  deriving Repr

def SyntaxError.message : SyntaxError → String
  | lexical error => error.display
  | expected wanted found => "Expected " ++ wanted.quoted ++ ", got " ++ found.quoted
  | unexpectedToken found => "Unexpected token " ++ found.quoted
  | noExpression found => "Unexpected token: " ++ found.quoted
  | reservedWord found => "Unexpected reserved word " ++ found.quoted
  | unexpectedEnd => "Unexpected end of input"
  | strayParenthesis => "Unexpected token )"
  | letAsName => "'let' is not allowed as a variable name in lexical bindings"
  | noPattern found => "Expected binding pattern, got " ++ found.quoted
  | shorthandPattern => "Expected identifier for shorthand pattern"
  | noPropertyName found => "Expected property name, got " ++ found.quoted
  | noFunctionName => "Expected function name"
  | noMemberName => "Expected identifier after '.'"
  | strictBinding name =>
    "'" ++ name ++ "' can't be used as a binding identifier in strict mode"
  | strictTarget name => "Unexpected eval or arguments in strict mode: '" ++ name ++ "'"
  | strictAssignment => "Assignment to 'eval' or 'arguments' in strict mode"
  | strictDelete => "Delete of an unqualified identifier in strict mode"
  | strictOctal => "Octal literals are not allowed in strict mode"
  | strictWith => "Strict mode code may not include a with statement"
  | strictDirective =>
    "Illegal 'use strict' directive in function with non-simple parameter list"
  | duplicateParameter name => "Duplicate parameter name '" ++ name ++ "'"
  | invalidPattern => "Invalid destructuring assignment target"
  | invalidAssignment => "Invalid left-hand side in assignment"
  | destructuringAssignment => "Destructuring assignment is not supported"
  | shorthandInitializer => "Invalid shorthand property initializer"
  | unaryBase => "Unary operator used immediately before exponentiation expression"
  | lexicalDeclaration => "Lexical declaration cannot appear in a single-statement context"
  | withStatement => "with statements are not supported"
  | classDeclaration => "class declarations are not supported"
  | duplicateLabel name => "Label '" ++ name ++ "' has already been declared"
  | labeledFunction => "Labeled function declarations are not allowed"
  | redeclared name => "Identifier '" ++ name ++ "' has already been declared"
  | missingInitializer => "Missing initializer in const declaration"
  | loopTargets => "Invalid left-hand side in for-in loop: must have a single binding"
  | loopInitializer => "for-in loop variable declaration may not have an initializer"
  | strayReturn => "Illegal return statement"
  | undefinedLabel name => "Undefined label '" ++ name ++ "'"
  | labelOfNoLoop name => "Label '" ++ name ++ "' is not an iteration statement"
  | strayContinue => "Illegal continue statement: no surrounding iteration statement"
  | strayBreak => "Illegal break statement"
  | breakAfterThrow => "Illegal newline after throw"
  | missingHandler => "Missing catch or finally after try"
  | duplicateDefault => "More than one default clause in switch statement"
  | outOfFuel => "Nesting too deep"

end ProtoScript
