import ProtoScript.Native
import ProtoScript.Scope
import ProtoScript.Store.Property
/-!
# New objects

How the objects look that programs make: ordinary ones, arrays, functions, errors, wrappers of
primitive values and the arguments of a call.
-/

namespace ProtoScript

/-!
### Intrinsic objects

The places of the objects that are made before all others, and of the global scope.  They are the
same in every store that a program starts from.
-/

def ScopeId.global : ScopeId := ⟨0⟩

namespace ObjectId

def objectPrototype : ObjectId := ⟨0⟩

def functionPrototype : ObjectId := ⟨1⟩

def arrayPrototype : ObjectId := ⟨2⟩

def stringPrototype : ObjectId := ⟨3⟩

def numberPrototype : ObjectId := ⟨4⟩

def booleanPrototype : ObjectId := ⟨5⟩

def globalObject : ObjectId := ⟨6⟩

def evalFunction : ObjectId := ⟨7⟩

def errorPrototype : ErrorKind → ObjectId
  | .error => ⟨8⟩
  | .typeError => ⟨9⟩
  | .referenceError => ⟨10⟩
  | .syntaxError => ⟨11⟩
  | .rangeError => ⟨12⟩

end ObjectId

def Value.primitivePrototype? : Value → Option ObjectId
  | .string _ => some .stringPrototype
  | .number _ => some .numberPrototype
  | .boolean _ => some .booleanPrototype
  | _ => none

/-! ### Records of new objects -/

def ObjectRecord.error (kind : ErrorKind) (message : String) : ObjectRecord where
  prototype := some (.errorPrototype kind)
  objectClass := .error
  slots := .ofList [("message", .hidden (.ofString message))]

def ObjectRecord.array (elements : Array (Option Value)) : ObjectRecord where
  prototype := some .arrayPrototype
  objectClass := .array
  elements := some elements

def ObjectRecord.function (callable : Callable) : ObjectRecord where
  prototype := some .functionPrototype
  objectClass := .function
  callable := some callable
  slots := .ofList [("length", .hiddenReadOnly (.ofNat callable.arity)),
    ("name", .hiddenReadOnly (.ofString callable.name))]

def Value.wrapperClass : Value → ObjectClass
  | .string _ => .string
  | .number _ => .number
  | .boolean _ => .boolean
  | _ => .object

def ObjectRecord.wrapper (primitive : Value) : ObjectRecord where
  prototype := some (primitive.primitivePrototype?.getD .objectPrototype)
  objectClass := primitive.wrapperClass
  primitive := some primitive

/-- The slots of an arguments object: the number of arguments and then each of them. -/
def argumentSlots (arguments : List Value) : OrderedMap DataProperty :=
  .ofList (("length", .hidden (.ofNat arguments.length)) ::
    arguments.zipIdx.map fun (value, i) => (toString i, .plain value))

/-- The parameters that arguments share: each that has an argument.  A repeated name shares only at
its last place. -/
def sharedParameters (count : Nat) (scope : ScopeId) (names : List String) :
    NameMap (ScopeId × String) :=
  ⟨names.zipIdx.filterMap fun (name, i) =>
    if i < count ∧ !(names.drop (i + 1)).contains name then some (toString i, scope, name)
    else none⟩

/-- The arguments of a call of `callee`.  With `mapped`, they share the parameters of those names in
that scope, and the callee can be read off them. -/
def ObjectRecord.arguments (arguments : List Value) (callee : Value)
    (mapped : Option (ScopeId × List String)) : ObjectRecord :=
  let r : ObjectRecord :=
    { prototype := some .objectPrototype
      objectClass := .arguments
      slots := argumentSlots arguments }
  match mapped with
  | none => r
  | some (scope, names) =>
    { r with
      slots := r.slots.insert "callee" (.hidden callee)
      sharedParameters := ProtoScript.sharedParameters arguments.length scope names }

namespace Store

def newObject (s : Store) : ObjectId × Store :=
  s.allocate { prototype := some .objectPrototype }

/-- Makes a function.  One that may be applied with `new` gets an object for its instances to
inherit from. -/
def newFunction (s : Store) (callable : Callable) : ObjectId × Store :=
  let (id, s) := s.allocate (.function callable)
  if callable.isConstructor then
    let (prototype, s) := s.allocate
      { prototype := some .objectPrototype,
        slots := .ofList [("constructor", .hidden (.object id))] }
    (id, s.insert id "prototype" ⟨.object prototype, true, false, false⟩)
  else (id, s)

def nameFunction (s : Store) (function : Value) (name : String) : Store :=
  match function with
  | .object id => s.insert id "name" (.hiddenReadOnly (.ofString name))
  | _ => s

end Store

end ProtoScript
