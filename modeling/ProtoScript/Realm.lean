import ProtoScript.Machine
/-!
# The initial store

What is there before a program runs: the intrinsic objects, the native functions as properties of
them, and the global scope.
-/

namespace ProtoScript

def intrinsicObjects : List ObjectRecord :=
  let wrapper (objectClass : ObjectClass) (primitive : Value) : ObjectRecord :=
    { prototype := some .objectPrototype, objectClass, primitive := some primitive }
  let error (kind : ErrorKind) (prototype : ObjectId) : ObjectRecord :=
    { prototype := some prototype
      slots := .ofList
        [("name", .hidden (.ofString kind.name)), ("message", .hidden (.string .empty))] }
  [{},
    { prototype := some .objectPrototype
      objectClass := .function
      callable := some (.native (.function .prototype)) },
    { prototype := some .objectPrototype, objectClass := .array, elements := some #[] },
    wrapper .string (.string .empty),
    wrapper .number (.number 0),
    wrapper .boolean (.boolean false),
    { prototype := some .objectPrototype, objectClass := .global },
    .function (.native (.global .eval)),
    error .error .objectPrototype,
    error .typeError (.errorPrototype .error),
    error .referenceError (.errorPrototype .error),
    error .syntaxError (.errorPrototype .error),
    error .rangeError (.errorPrototype .error)]

def globalScope (strict : Bool) : Scope where
  bindings := ⟨[("undefined", ⟨.undefined, .readOnly, true⟩),
    ("NaN", ⟨.number Number.nan, .readOnly, true⟩),
    ("Infinity", ⟨.number Number.infinity, .readOnly, true⟩),
    ("this", ⟨.object .globalObject, .constant, true⟩),
    ("globalThis", ⟨.object .globalObject, .variable, true⟩),
    ("eval", ⟨.object .evalFunction, .variable, true⟩)]⟩
  parent := none
  strict := strict
  kind := .global

namespace Store

def defineGlobal (s : Store) (name : String) (value : Value) : Store :=
  (s.declare .global name .variable).bind .global name value

def installGlobal (s : Store) (f : Native) : Store :=
  let (id, s) := s.newFunction (.native f)
  s.defineGlobal f.name (.object id)

def installMethods (s : Store) (target : ObjectId) (methods : List Native) : Store :=
  methods.foldl (fun s f =>
    let (id, s) := s.newFunction (.native f)
    s.insert target f.name (.hidden (.object id))) s

/-- Makes a native constructor for objects that inherit from `prototype`, gives both their methods
and constants, and binds the constructor as a global variable. -/
def installConstructor (s : Store) (f : Native) (prototype : ObjectId)
    (functions methods : List Native) (constants : List (String × Float) := []) : Store :=
  let (id, s) := s.allocate (.function (.native f))
  let s := s.insert id "prototype" (.fixed (.object prototype))
  let s := s.insert prototype "constructor" (.hidden (.object id))
  let s := s.defineGlobal f.name (.object id)
  let s := constants.foldl (fun s (name, x) => s.insert id name (.fixed (.number x))) s
  (s.installMethods id functions).installMethods prototype methods

def numberConstants : List (String × Float) :=
  [("MAX_VALUE", 1.7976931348623157e308), ("MIN_VALUE", 5e-324), ("NaN", Number.nan),
    ("POSITIVE_INFINITY", Number.infinity), ("NEGATIVE_INFINITY", -Number.infinity),
    ("MAX_SAFE_INTEGER", 9007199254740991), ("MIN_SAFE_INTEGER", -9007199254740991)]

/-- Installs the constructors of errors.  The general one has a second name. -/
def installErrors (s : Store) : Store :=
  let s := s.installMethods (.errorPrototype .error) [.error .toString]
  let s := ErrorKind.all.foldl (fun s kind =>
    s.installConstructor (.error (.constructor kind)) (.errorPrototype kind) [] []) s
  match s.lookup? .global ErrorKind.error.name with
  | some value => s.defineGlobal "Exception" value
  | none => s

def initial (settings : Settings) : Store :=
  let s : Store := { scopes := #[globalScope settings.strict], objects := intrinsicObjects.toArray }
  let s := [.global .isNaN, .global .parseInt, .global .parseFloat].foldl installGlobal s
  let s := s.installConstructor (.object .constructor) .objectPrototype
    [.object .getPrototypeOf, .object .setPrototypeOf, .object .create, .object .defineProperty,
      .object .keys]
    [.object .hasOwnProperty, .object .toString, .object .valueOf]
  let s := s.installConstructor (.function .constructor) .functionPrototype []
    [.function .call, .function .apply, .function .toString]
  let s := s.installConstructor (.array .constructor) .arrayPrototype [.array .isArray]
    [.array .push, .array .pop, .array .join, .array .toString, .array .indexOf]
  let s := s.installConstructor (.string .constructor) .stringPrototype []
    [.string .charAt, .string .charCodeAt, .string .indexOf, .string .slice, .string .toString,
      .string .valueOf]
  let s := s.installConstructor (.number .constructor) .numberPrototype []
    [.number .toString, .number .valueOf] numberConstants
  let s := s.installConstructor (.boolean .constructor) .booleanPrototype []
    [.boolean .valueOf, .boolean .toString]
  let s := s.installErrors
  if settings.harness then
    [.harness .assert, .harness .assertThrows, .harness .println].foldl installGlobal s
  else s

end Store

def Machine.initial (settings : Settings) : Machine where
  store := .initial settings
  settings := settings
  newTarget := none
  callDepth := 0
  output := ""

/-- Binds functions of the host as global variables, each with its number of arguments. -/
def Machine.installHost (m : Machine) (functions : List (String × Nat)) : Machine :=
  { m with
    store := functions.foldl (fun s (name, arity) => s.installGlobal (.host name arity)) m.store }

end ProtoScript
