import ProtoScript.Grammar.Context
/-!
# Operator tokens

Which tokens are operators, and how strongly the binary ones bind.
-/

namespace ProtoScript.Grammar

def binaryOfSign? : Punctuator → Option (BinaryOp × Nat)
  | .pipe => some (.bitOr, 1)
  | .caret => some (.bitXor, 2)
  | .ampersand => some (.bitAnd, 3)
  | .equal => some (.eq, 4)
  | .notEqual => some (.notEq, 4)
  | .strictEqual => some (.strictEq, 4)
  | .strictNotEqual => some (.strictNotEq, 4)
  | .lessThan => some (.lt, 5)
  | .greaterThan => some (.gt, 5)
  | .lessThanEqual => some (.ltEq, 5)
  | .greaterThanEqual => some (.gtEq, 5)
  | .leftShift => some (.leftShift, 6)
  | .rightShift => some (.rightShift, 6)
  | .unsignedRightShift => some (.unsignedRightShift, 6)
  | .plus => some (.add, 7)
  | .minus => some (.sub, 7)
  | .star => some (.mul, 8)
  | .slash => some (.div, 8)
  | .percent => some (.mod, 8)
  | _ => none

/-- The binary operator that a token is in a context, and its strength. -/
def binaryOperator? (c : Context) : Token → Option (BinaryOp × Nat)
  | .punctuator sign => binaryOfSign? sign
  | .keyword .instanceofWord => some (.instanceOf, 5)
  | .keyword .inWord => if c.noIn then none else some (.hasKey, 5)
  | _ => none

/-- The operator that an assignment sign combines with; the plain sign combines with none. -/
def assignmentOfSign? : Punctuator → Option (Option BinaryOp)
  | .assign => some none
  | .plusAssign => some (some .add)
  | .minusAssign => some (some .sub)
  | .starAssign => some (some .mul)
  | .slashAssign => some (some .div)
  | .percentAssign => some (some .mod)
  | .exponentAssign => some (some .exp)
  | .leftShiftAssign => some (some .leftShift)
  | .rightShiftAssign => some (some .rightShift)
  | .unsignedRightShiftAssign => some (some .unsignedRightShift)
  | .ampersandAssign => some (some .bitAnd)
  | .pipeAssign => some (some .bitOr)
  | .caretAssign => some (some .bitXor)
  | _ => none

def assignmentOperator? (t : Token) : Option (Option BinaryOp) := t.sign?.bind assignmentOfSign?

inductive FrontOperator where
  | convert (op : UnaryOp)
  | update (op : UpdateOp)
  | typeOf
  | void
  | delete
  deriving DecidableEq, Repr

def frontOperator? : Token → Option FrontOperator
  | .punctuator .plus => some (.convert .plus)
  | .punctuator .minus => some (.convert .minus)
  | .punctuator .tilde => some (.convert .bitNot)
  | .punctuator .bang => some (.convert .not)
  | .punctuator .increment => some (.update .increment)
  | .punctuator .decrement => some (.update .decrement)
  | .keyword .typeofWord => some .typeOf
  | .keyword .voidWord => some .void
  | .keyword .deleteWord => some .delete
  | _ => none

/-- Whether an operand with the operator in front cannot be the base of a power. -/
def FrontOperator.barsPower : FrontOperator → Bool
  | .update _ => false
  | _ => true

def updateOperator? : Token → Option UpdateOp
  | .punctuator .increment => some .increment
  | .punctuator .decrement => some .decrement
  | _ => none

end ProtoScript.Grammar
