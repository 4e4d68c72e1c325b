import ProtoScript.Store.Allocation
import ProtoScript.Store.Property
import ProtoScript.Value
/-!
# The text and the ancestry of values

The text that reports show for a value, which runs no script code, and the test whether a value
inherits from an object.
-/

namespace ProtoScript.Store

def displayTo (s : Store) : Nat → Value → String
  | 0, v => v.toString
  | depth + 1, v =>
    match v.objectId?, s.objectOf? v with
    | some id, some r =>
      if r.objectClass = .error then
        let name :=
          match s.get id "name" with
          | .undefined => "Error"
          | v => s.displayTo depth v
        let message := s.displayTo depth (s.get id "message")
        if message.isEmpty then name else name ++ ": " ++ message
      else
        match r.elements, r.primitive with
        | some elements, _ =>
          ",".intercalate (elements.toList.map fun element =>
            match element with
            | some v => if v.isNullish then "" else s.displayTo depth v
            | none => "")
        | none, some v => v.toString
        | none, none =>
          if r.callable.isSome then
            "function " ++ s.displayTo depth (s.get id "name") ++ "() \x7b [native code] \x7d"
          else "[object " ++ r.objectClass.name ++ "]"
    | _, _ => v.toString

/-- The text of a value in reports: errors with their name and message, arrays with their elements,
wrappers as what they wrap.  Objects that contain one another are shown down to a depth that objects
without such cycles never reach. -/
def display (s : Store) (v : Value) : String := s.displayTo (s.objects.size + 1) v

def parentOf? (s : Store) (v : Value) : Option ObjectId :=
  match v with
  | .object id => s.prototype? id
  | v => v.primitivePrototype?

def inherits (s : Store) (v : Value) (ancestor : ObjectId) : Bool :=
  (s.chain (s.parentOf? v)).contains ancestor

/-- Whether a value is an instance of the constructor that a name has in the global scope. -/
def isInstanceOf (s : Store) (v : Value) (constructorName : String) : Bool :=
  match (s.lookup? .global constructorName).bind Value.objectId? with
  | none => false
  | some id =>
    match s.get id "prototype" with
    | .object ancestor => s.inherits v ancestor
    | _ => false

end ProtoScript.Store
