import ProtoScript.Builtin.Global
/-!
# Functions of objects

`Object`, its functions on prototypes, properties and keys, and the methods of every object.
-/

namespace ProtoScript

/-- The property that an attribute object describes, where `p` says what it leaves open. -/
def Store.describedProperty (s : Store) (attributes : ObjectId) (p : DataProperty) :
    DataProperty :=
  let flag (key : String) (fallback : Bool) : Bool :=
    match s.property? attributes key with
    | some entry => entry.value.toBoolean
    | none => fallback
  { value := ((s.property? attributes "value").map DataProperty.value).getD p.value
    writable := flag "writable" p.writable
    enumerable := flag "enumerable" p.enumerable
    configurable := flag "configurable" p.configurable }

namespace Engine

open Eval Value

def mayBePrototype : Value → Bool
  | .object _ | .null => true
  | _ => false

/-- Links an object to a prototype, unless that inherits from the object. -/
def setPrototypeOf (target prototype : Value) : Eval Value := do
  if target.isNullish then fault .prototypeOfNullish
  else if !mayBePrototype prototype then fault .invalidPrototype
  else
    match target with
    | .object id =>
      if ← read fun s => (s.chain prototype.objectId?).contains id then fault .cyclicPrototype
      else
        update fun s => s.setPrototype id prototype.objectId?
        return target
    | _ => return target

/-- Defines a property.  What the attributes leave open stays as it is, or is turned off in a new
property. -/
def defineProperty (e : Engine) (target key attributes : Value) : Eval Value := do
  match target with
  | .object id =>
    let key ← e.toUnicode key
    match attributes with
    | .object attributes =>
      let admitted ← updateGet fun s =>
        let current := (s.ownProperty? id key).getD (.fixed .undefined)
        s.define id key (s.describedProperty attributes current)
      if admitted then return target else fault (.notRedefinable key)
    | _ => fault .descriptorNotObject
  | _ => fault .defineOnPrimitive

def classWord (v : Value) : Eval String :=
  match v with
  | .undefined => pure "Undefined"
  | .null => pure "Null"
  | .object id =>
    read fun s => ((s.object? id).map fun r => r.objectClass.name).getD "Object"
  | _ => pure v.wrapperClass.name

end Engine

open Eval Value

def ObjectNative.run (f : ObjectNative) (e : Engine) (receiver : Value) (arguments : List Value) :
    Eval Value := do
  match f with
  | .constructor =>
    let _ ← takeNewTarget
    if (argument arguments 0).isNullish then allocate { prototype := some .objectPrototype }
    else toObject (argument arguments 0)
  | .getPrototypeOf =>
    match ← toObject (argument arguments 0) with
    | .object id => return ((← read fun s => s.prototype? id).map Value.object).getD .null
    | _ => return .null
  | .setPrototypeOf => Engine.setPrototypeOf (argument arguments 0) (argument arguments 1)
  | .create =>
    let prototype := argument arguments 0
    if Engine.mayBePrototype prototype then allocate { prototype := prototype.objectId? }
    else fault .invalidPrototype
  | .defineProperty =>
    e.defineProperty (argument arguments 0) (argument arguments 1) (argument arguments 2)
  | .keys =>
    match ← toObject (argument arguments 0) with
    | .object id =>
      let keys ← read fun s => s.ownKeys id false
      newFullArray (keys.map fun key => .ofString key.1)
    | _ => newFullArray []
  | .hasOwnProperty =>
    let key ← e.toUnicode (argument arguments 0)
    match ← toObject receiver with
    | .object id => return .boolean (← read fun s => s.hasOwnProperty id key)
    | _ => return .boolean false
  | .toString => return .ofString ("[object " ++ (← Engine.classWord receiver) ++ "]")
  | .valueOf => toObject receiver

end ProtoScript
