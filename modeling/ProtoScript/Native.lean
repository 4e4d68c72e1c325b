/-!
# Native functions

The functions that are there before any script runs, by the object they belong to.  Each has a name,
the number of arguments it expects, and either may or may not be applied with `new`.
-/

namespace ProtoScript

inductive ErrorKind where
  | error
  | typeError
  | referenceError
  | syntaxError
  | rangeError
  deriving DecidableEq, Inhabited, Repr

namespace ErrorKind

def name : ErrorKind → String
  | error => "Error"
  | typeError => "TypeError"
  | referenceError => "ReferenceError"
  | syntaxError => "SyntaxError"
  | rangeError => "RangeError"

def all : List ErrorKind := [error, typeError, referenceError, syntaxError, rangeError]

end ErrorKind

/-- Functions that belong to no object. -/
inductive GlobalNative where
  | eval
  | isNaN
  | parseInt
  | parseFloat
  deriving DecidableEq, Inhabited, Repr

inductive ObjectNative where
  | constructor
  | getPrototypeOf
  | setPrototypeOf
  | create
  | defineProperty
  | keys
  | hasOwnProperty
  | toString
  | valueOf
  deriving DecidableEq, Inhabited, Repr

inductive FunctionNative where
  /-- The function that all functions inherit from; it does nothing. -/
  | prototype
  | constructor
  | call
  | apply
  | toString
  deriving DecidableEq, Inhabited, Repr

inductive ArrayNative where
  | constructor
  | isArray
  | push
  | pop
  | join
  | toString
  | indexOf
  deriving DecidableEq, Inhabited, Repr

inductive StringNative where
  | constructor
  | charAt
  | charCodeAt
  | indexOf
  | slice
  | toString
  | valueOf
  deriving DecidableEq, Inhabited, Repr

inductive NumberNative where
  | constructor
  | toString
  | valueOf
  deriving DecidableEq, Inhabited, Repr

inductive BooleanNative where
  | constructor
  | valueOf
  | toString
  deriving DecidableEq, Inhabited, Repr

inductive ErrorNative where
  | constructor (kind : ErrorKind)
  | toString
  deriving DecidableEq, Inhabited, Repr

/-- Functions with which a script checks itself and reports. -/
inductive HarnessNative where
  | assert
  | assertThrows
  | println
  deriving DecidableEq, Inhabited, Repr

/-- A function that is not written in the script. -/
inductive Native where
  | global (f : GlobalNative)
  | object (f : ObjectNative)
  | function (f : FunctionNative)
  | array (f : ArrayNative)
  | string (f : StringNative)
  | number (f : NumberNative)
  | boolean (f : BooleanNative)
  | error (f : ErrorNative)
  | harness (f : HarnessNative)
  | host (name : String) (arity : Nat)
  deriving DecidableEq, Inhabited, Repr

namespace Native

def name : Native → String
  | global .eval => "eval"
  | global .isNaN => "isNaN"
  | global .parseInt => "parseInt"
  | global .parseFloat => "parseFloat"
  | object .constructor => "Object"
  | object .getPrototypeOf => "getPrototypeOf"
  | object .setPrototypeOf => "setPrototypeOf"
  | object .create => "create"
  | object .defineProperty => "defineProperty"
  | object .keys => "keys"
  | object .hasOwnProperty => "hasOwnProperty"
  | object .toString => "toString"
  | object .valueOf => "valueOf"
  | function .prototype => ""
  | function .constructor => "Function"
  | function .call => "call"
  | function .apply => "apply"
  | function .toString => "toString"
  | array .constructor => "Array"
  | array .isArray => "isArray"
  | array .push => "push"
  | array .pop => "pop"
  | array .join => "join"
  | array .toString => "toString"
  | array .indexOf => "indexOf"
  | string .constructor => "String"
  | string .charAt => "charAt"
  | string .charCodeAt => "charCodeAt"
  | string .indexOf => "indexOf"
  | string .slice => "slice"
  | string .toString => "toString"
  | string .valueOf => "valueOf"
  | number .constructor => "Number"
  | number .toString => "toString"
  | number .valueOf => "valueOf"
  | boolean .constructor => "Boolean"
  | boolean .valueOf => "valueOf"
  | boolean .toString => "toString"
  | error (.constructor kind) => kind.name
  | error .toString => "toString"
  | harness .assert => "assert"
  | harness .assertThrows => "assert_throws"
  | harness .println => "println"
  | host name _ => name

def arity : Native → Nat
  | global .parseInt => 2
  | global _ => 1
  | object .setPrototypeOf => 2
  | object .create => 2
  | object .defineProperty => 3
  | object .toString => 0
  | object .valueOf => 0
  | object _ => 1
  | function .prototype => 0
  | function .apply => 2
  | function .toString => 0
  | function _ => 1
  | array .pop => 0
  | array .toString => 0
  | array _ => 1
  | string .slice => 2
  | string .toString => 0
  | string .valueOf => 0
  | string _ => 1
  | number .valueOf => 0
  | number _ => 1
  | boolean .constructor => 1
  | boolean _ => 0
  | error (.constructor _) => 1
  | error .toString => 0
  | harness .assert => 3
  | harness .assertThrows => 2
  | harness .println => 0
  | host _ arity => arity

/-- Whether the function may be applied with `new`. -/
def isConstructor : Native → Bool
  | object .constructor => true
  | function .constructor => true
  | array .constructor => true
  | string .constructor => true
  | number .constructor => true
  | boolean .constructor => true
  | error (.constructor _) => true
  | _ => false

end Native

end ProtoScript
