/-!
# Syntax trees

Programs as trees of statements, expressions, patterns and functions.
-/

namespace ProtoScript

inductive UnaryOp where
  | minus | plus | not | bitNot
  deriving DecidableEq, Inhabited, Repr

inductive BinaryOp where
  | add | sub | mul | div | mod | exp
  | eq | notEq | strictEq | strictNotEq | lt | gt | ltEq | gtEq
  | leftShift | rightShift | unsignedRightShift | bitAnd | bitOr | bitXor
  | hasKey | instanceOf
  deriving DecidableEq, Inhabited, Repr

/-- A binary operator whose right operand may stay unevaluated. -/
inductive LogicalOp where
  | and | or | coalesce
  deriving DecidableEq, Inhabited, Repr

/-- An operator that adds or takes away one. -/
inductive UpdateOp where
  | increment | decrement
  deriving DecidableEq, Inhabited, Repr

inductive Literal where
  | null
  | boolean (value : Bool)
  | number (value : Float)
  | string (value : String)
  deriving BEq, Inhabited, Repr

inductive DeclarationKind where
  | variable
  /-- `let`: visible in its block, from its initialization on. -/
  | letBound
  | constant
  deriving DecidableEq, Inhabited, Repr

def DeclarationKind.isLexical (k : DeclarationKind) : Bool := k != .variable

inductive FunctionKind where
  | declaration | expression | arrow | method
  deriving DecidableEq, Inhabited, Repr

mutual

inductive Expr where
  | literal (value : Literal)
  | identifier (name : String)
  | this
  /-- An array literal; a missing element is a hole. -/
  | array (elements : List (Option Expr))
  | object (properties : List Property)
  | function (definition : FunctionDef)
  | unary (op : UnaryOp) (operand : Expr)
  | binary (op : BinaryOp) (left right : Expr)
  | logical (op : LogicalOp) (left right : Expr)
  /-- `++` or `--`, in front of its target or behind it. -/
  | update (op : UpdateOp) (inFront : Bool) (target : Expr)
  | assign (op : Option BinaryOp) (target value : Expr)
  | conditional (test consequent alternate : Expr)
  | call (callee : Expr) (arguments : List Expr)
  | construct (callee : Expr) (arguments : List Expr)
  | member (object : Expr) (key : MemberKey)
  | typeOf (operand : Expr)
  | void (operand : Expr)
  | delete (operand : Expr)
  | sequence (expressions : List Expr)

inductive MemberKey where
  | dot (name : String)
  | computed (key : Expr)

/-- The key of a property in an object literal or an object pattern. -/
inductive PropertyKey where
  | identifier (name : String)
  | string (text : String)
  | number (value : Float)
  | computed (key : Expr)

inductive Property where
  | keyed (key : PropertyKey) (value : Expr)
  /-- `name`, or `name = cover` where the literal may turn out to be a pattern. -/
  | shorthand (name : String) (cover : Option Expr)

/-- What a value is bound or assigned to. -/
inductive Pattern where
  | identifier (name : String)
  /-- An array pattern; a missing element is skipped. -/
  | array (elements : List (Option Pattern))
  | object (properties : List PatternProperty)
  /-- A target with the value it gets in place of `undefined`. -/
  | withDefault (target : Pattern) (value : Expr)
  | rest (target : Pattern)
  /-- A member expression, which only an assignment can have as its target. -/
  | member (target : Expr)

inductive PatternProperty where
  | keyed (key : PropertyKey) (target : Pattern)
  | shorthand (name : String)

structure FunctionDef where
  name : Option String
  kind : FunctionKind
  parameters : List Pattern
  body : List Stmt
  strict : Bool

structure Declarator where
  target : Pattern
  init : Option Expr

structure Declaration where
  kind : DeclarationKind
  declarators : List Declarator

inductive ForInit where
  | declaration (declaration : Declaration)
  | expression (expression : Expr)

inductive ForInTarget where
  | declaration (declaration : Declaration)
  | pattern (target : Pattern)

structure Handler where
  parameter : Option Pattern
  body : List Stmt

structure SwitchCase where
  /-- The value the clause is for; the default clause has none. -/
  test : Option Expr
  body : List Stmt

inductive Stmt where
  | empty
  | expression (expression : Expr)
  | block (body : List Stmt)
  | declaration (declaration : Declaration)
  | function (definition : FunctionDef)
  | ifStmt (test : Expr) (consequent : Stmt) (alternate : Option Stmt)
  | whileStmt (test : Expr) (body : Stmt)
  | doWhileStmt (body : Stmt) (test : Expr)
  | forStmt (init : Option ForInit) (test update : Option Expr) (body : Stmt)
  | forInStmt (target : ForInTarget) (object : Expr) (body : Stmt)
  | returnStmt (value : Option Expr)
  | breakStmt (label : Option String)
  | continueStmt (label : Option String)
  | throwStmt (value : Expr)
  | tryStmt (block : List Stmt) (handler : Option Handler) (finalizer : Option (List Stmt))
  | switchStmt (subject : Expr) (cases : List SwitchCase)
  | labeled (label : String) (body : Stmt)
  | debugger

end

instance : Inhabited Expr := ⟨.this⟩
instance : Inhabited Stmt := ⟨.empty⟩
instance : Inhabited Pattern := ⟨.array []⟩
instance : Inhabited FunctionDef := ⟨⟨none, .declaration, [], [], false⟩⟩

structure Program where
  body : List Stmt
  strict : Bool
  deriving Inhabited

def Property.value : Property → Expr
  | keyed _ value => value
  | shorthand name none => .identifier name
  | shorthand name (some cover) => .assign none (.identifier name) cover

/-- Whether the expression is a function without a name, which takes the name of what it is assigned
to. -/
def Expr.isAnonymousFunction : Expr → Bool
  | .function definition => definition.name.isNone
  | _ => false

end ProtoScript
