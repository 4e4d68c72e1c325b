import ProtoScript.Object
import ProtoScript.Store
/-!
# Properties in the store

Reading, assigning, defining and deleting properties of the objects in a store.  Reading goes along
the prototypes; the other operations change the object itself, and the parameters with which an
arguments object shares its properties.
-/

namespace ProtoScript.Store

/-! ### Reading -/

def sharedValue? (s : Store) (r : ObjectRecord) (key : String) : Option Value :=
  (r.sharedParameters.find? key).bind fun (scope, name) => s.lookup? scope name

def ownProperty? (s : Store) (id : ObjectId) (key : String) : Option DataProperty :=
  (s.object? id).bind fun r => r.ownProperty? (s.sharedValue? r key) key

def propertyAmong? (s : Store) (ids : List ObjectId) (key : String) : Option DataProperty :=
  ids.findSome? fun id => s.ownProperty? id key

def property? (s : Store) (id : ObjectId) (key : String) : Option DataProperty :=
  s.propertyAmong? (s.chain (some id)) key

/-- The value at a key, `undefined` if there is no property. -/
def get (s : Store) (id : ObjectId) (key : String) : Value :=
  ((s.property? id key).map DataProperty.value).getD .undefined

def hasProperty (s : Store) (id : ObjectId) (key : String) : Bool := (s.property? id key).isSome

def hasOwnProperty (s : Store) (id : ObjectId) (key : String) : Bool :=
  (s.ownProperty? id key).isSome

/-! ### Keys -/

/-- Of a list of keys the enumerable ones, of each key only the first occurrence.  A key that is in
`seen` counts as repeated. -/
def firstEnumerable : List String → List (String × Bool) → List String
  | _, [] => []
  | seen, (key, enumerable) :: rest =>
    if seen.contains key then firstEnumerable seen rest
    else if enumerable then key :: firstEnumerable (key :: seen) rest
    else firstEnumerable (key :: seen) rest

def ownKeys (s : Store) (id : ObjectId) (hidden : Bool) : List (String × Bool) :=
  ((s.object? id).map fun r => r.ownKeys hidden).getD []

/-- The keys that a loop over an object visits, those of the object first.  A key that is seen
anywhere earlier along the prototypes, enumerable or not, hides later ones. -/
def enumerableKeys (s : Store) (id : ObjectId) : List String :=
  firstEnumerable [] ((s.chain (some id)).flatMap fun holder => s.ownKeys holder true)

/-! ### Writing -/

/-- Writes the parameter that a property shares.  A parameter that refuses the value stays as it
is. -/
def assignShared (s : Store) (r : ObjectRecord) (key : String) (value : Value) : Store :=
  match r.sharedParameters.find? key with
  | some (scope, name) => (s.assign scope name value).2
  | none => s

def define (s : Store) (id : ObjectId) (key : String) (p : DataProperty) : Bool × Store :=
  match s.object? id with
  | none => (false, s)
  | some r =>
    if r.admits key p then
      (true, (s.assignShared r key p.value).modifyObject id fun r => r.define key p)
    else (false, s)

/-- Assigns to a property; says whether the assignment went through.  A shared parameter gets the
value first. -/
def set (s : Store) (id : ObjectId) (key : String) (value : Value) : Bool × Store :=
  match s.object? id with
  | none => (false, s)
  | some r =>
    let inherited := s.propertyAmong? (s.chain r.prototype) key
    let assignment := r.assignment inherited key value
    (assignment != .refused,
      (s.assignShared r key value).modifyObject id fun r => r.assign key value assignment)

def delete (s : Store) (id : ObjectId) (key : String) : Bool × Store :=
  match s.object? id with
  | none => (true, s)
  | some r =>
    if r.mayDelete key then (true, s.modifyObject id fun r => r.delete key) else (false, s)

def insert (s : Store) (id : ObjectId) (key : String) (p : DataProperty) : Store :=
  s.modifyObject id fun r => r.insert key p

def setPrototype (s : Store) (id : ObjectId) (prototype : Option ObjectId) : Store :=
  s.modifyObject id fun r => { r with prototype }

end ProtoScript.Store
