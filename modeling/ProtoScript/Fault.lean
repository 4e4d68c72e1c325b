import ProtoScript.Native
import ProtoScript.Value
/-!
# Faults

The reasons for which the language itself, not the script, throws an error.  Each has the kind of
the error that is thrown and the message it carries.
-/

namespace ProtoScript

inductive Fault where
  | notDefined (name : String)
  | uninitialized (name : String)
  | readOnlyName (name : String)
  | constantName (name : String)
  | invalidTarget
  | syntaxFault (message : String)
  | argumentsInInitializer
  | invalidFunctionBody
  | notIterable (value : Value)
  | notDestructurable (value : Value)
  | noPrimitive
  | noObject (value : Value)
  | noObjectToDelete (value : Value) (key : String)
  | readOfNullish (value : Value) (key : String)
  | writeToNullish (value : Value) (key : String)
  | readOnlyProperty (key : String)
  /-- A new property on a primitive value, of which the word is what `typeof` gives. -/
  | propertyOnPrimitive (key word : String)
  | notDeletable (key : String)
  | notRedefinable (key : String)
  | searchInPrimitive (value : Value)
  | instanceOfUncallable
  | prototypeNotObject
  | notFunction (description : String)
  | notConstructor (description : String)
  | callDepth
  | prototypeOfNullish
  | invalidPrototype
  | cyclicPrototype
  | defineOnPrimitive
  | descriptorNotObject
  | receiverNotFunction (method : String)
  | textOfNonFunction
  | argumentsNotObject
  | receiverNotOf (constructorName method : String)
  /-- A method of strings that was called on `undefined` or `null`. -/
  | receiverNullish (method : String)
  | textOfNonError
  | arrayLength
  | radix
  | assertion (actual expected : String) (note : Option String)
  | wrongException (shown : String)
  | noException
  deriving Inhabited

namespace Fault

def kind : Fault → ErrorKind
  | notDefined _ | uninitialized _ => .referenceError
  | invalidTarget | syntaxFault _ | argumentsInInitializer | invalidFunctionBody => .syntaxError
  | callDepth | arrayLength | radix => .rangeError
  | assertion .. | wrongException _ | noException => .error
  | _ => .typeError

def message : Fault → String
  | notDefined name => name ++ " is not defined"
  | uninitialized name => "Cannot access '" ++ name ++ "' before initialization"
  | readOnlyName name => "Cannot assign to read only property '" ++ name ++ "'"
  | constantName name => "Assignment to constant variable '" ++ name ++ "'"
  | invalidTarget => "Invalid left-hand side in assignment"
  | syntaxFault message => message
  | argumentsInInitializer =>
    "'arguments' cannot be declared by eval in a parameter initializer"
  | invalidFunctionBody => "Invalid function body"
  | notIterable value => value.toString ++ " is not iterable"
  | notDestructurable value => "Cannot destructure '" ++ value.toString ++ "'"
  | noPrimitive => "Cannot convert object to primitive value"
  | noObject value => "Cannot convert " ++ value.toString ++ " to object"
  | noObjectToDelete value key =>
    "Cannot convert " ++ value.toString ++ " to object (deleting '" ++ key ++ "')"
  | readOfNullish value key =>
    "Cannot read properties of " ++ value.toString ++ " (reading '" ++ key ++ "')"
  | writeToNullish value key =>
    "Cannot set properties of " ++ value.toString ++ " (setting '" ++ key ++ "')"
  | readOnlyProperty key => "Cannot assign to read only property '" ++ key ++ "' of object"
  | propertyOnPrimitive key word => "Cannot create property '" ++ key ++ "' on " ++ word
  | notDeletable key => "Cannot delete property '" ++ key ++ "'"
  | notRedefinable key => "Cannot redefine property: " ++ key
  | searchInPrimitive value =>
    "Cannot use 'in' operator to search for a key in " ++ value.toString
  | instanceOfUncallable => "Right-hand side of 'instanceof' is not callable"
  | prototypeNotObject => "Function has non-object prototype in instanceof check"
  | notFunction description => description ++ " is not a function"
  | notConstructor description => description ++ " is not a constructor"
  | callDepth => "Maximum call stack size exceeded"
  | prototypeOfNullish => "Object.setPrototypeOf called on null or undefined"
  | invalidPrototype => "Object prototype may only be an Object or null"
  | cyclicPrototype => "Cyclic __proto__ value"
  | defineOnPrimitive => "Object.defineProperty called on non-object"
  | descriptorNotObject => "Property description must be an object"
  | receiverNotFunction method => "Function.prototype." ++ method ++ " called on non-function"
  | textOfNonFunction => "Function.prototype.toString requires that 'this' be a Function"
  | argumentsNotObject => "CreateListFromArrayLike called on non-object"
  | receiverNotOf constructorName method =>
    constructorName ++ ".prototype." ++ method ++ " requires a " ++ constructorName
  | receiverNullish method =>
    "String.prototype." ++ method ++ " called on null or undefined"
  | textOfNonError => "Error.prototype.toString requires that 'this' be an Object"
  | arrayLength => "Invalid array length"
  | radix => "toString() radix must be between 2 and 36"
  | assertion actual expected note =>
    "assertion failed: got |" ++ actual ++ "|, expected |" ++ expected ++ "|" ++
      ((note.map fun text => " (" ++ text ++ ")").getD "")
  | wrongException shown => "expected exception of the given type, got |" ++ shown ++ "|"
  | noException => "expected exception, none was thrown"

end Fault

end ProtoScript
