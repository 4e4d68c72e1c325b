import ProtoScript.Native
import ProtoScript.Number.Numeral
import ProtoScript.Number.Binary64
import ProtoScript.Scope
import ProtoScript.Syntax.Names
/-!
# Object records

An object is a record of properties with a link to its prototype.  Arrays keep their elements in
dense storage beside the named properties, wrappers of strings offer the units of their string as
properties, and an arguments object may share some of its properties with the parameters of a call.
-/

namespace ProtoScript

structure DataProperty where
  value : Value
  writable : Bool
  enumerable : Bool
  configurable : Bool
  deriving Inhabited

namespace DataProperty

def plain (value : Value) : DataProperty := ⟨value, true, true, true⟩

def hidden (value : Value) : DataProperty := ⟨value, true, false, true⟩

def hiddenReadOnly (value : Value) : DataProperty := ⟨value, false, false, true⟩

def fixed (value : Value) : DataProperty := ⟨value, false, false, false⟩

def isPlain (p : DataProperty) : Bool := p.writable && p.enumerable && p.configurable

end DataProperty

inductive Callable where
  /-- A function of the script, with the scope in which it stands. -/
  | closure (definition : FunctionDef) (scope : ScopeId)
  | native (f : Native)
  deriving Inhabited

namespace Callable

def isConstructor : Callable → Bool
  | closure definition _ => definition.kind == .declaration || definition.kind == .expression
  | native f => f.isConstructor

def name : Callable → String
  | closure definition _ => definition.name.getD ""
  | native f => f.name

def arity : Callable → Nat
  | closure definition _ => definition.expectedArguments
  | native f => f.arity

end Callable

inductive ObjectClass where
  | object
  | function
  | array
  | string
  | number
  | boolean
  | error
  | arguments
  | global
  deriving DecidableEq, Inhabited, Repr

def ObjectClass.name : ObjectClass → String
  | object => "Object"
  | function => "Function"
  | array => "Array"
  | string => "String"
  | number => "Number"
  | boolean => "Boolean"
  | error => "Error"
  | arguments => "Arguments"
  | global => "global"

structure ObjectRecord where
  slots : OrderedMap DataProperty := .empty
  prototype : Option ObjectId := none
  callable : Option Callable := none
  /-- The elements of an array; a missing one is a hole. -/
  elements : Option (Array (Option Value)) := none
  objectClass : ObjectClass := .object
  extensible : Bool := true
  primitive : Option Value := none
  sharedParameters : NameMap (ScopeId × String) := .empty
  deriving Inhabited

namespace ObjectRecord

def wrappedText? (r : ObjectRecord) : Option Text :=
  match r.primitive with
  | some (.string t) => some t
  | _ => none

def elementProperty? (r : ObjectRecord) (key : String) : Option DataProperty :=
  match r.elements with
  | none => none
  | some elements =>
    if key = "length" then some ⟨.ofNat elements.size, true, false, false⟩
    else
      match Number.arrayIndex? key with
      | some i => (elements[i]?.join).map .plain
      | none => none

def unitProperty? (r : ObjectRecord) (key : String) : Option DataProperty :=
  match r.wrappedText? with
  | none => none
  | some t =>
    if key = "length" then some (.fixed (.ofNat t.size))
    else
      match Number.arrayIndex? key with
      | some i => (t.unitAt? i).map fun unit => ⟨.string unit, false, true, false⟩
      | none => none

/-- The object's own property at a key, slots before elements and units.  `shared` is the value of a
parameter that the property shares. -/
def ownProperty? (r : ObjectRecord) (shared : Option Value) (key : String) : Option DataProperty :=
  match r.slots.find? key with
  | some p => some { p with value := shared.getD p.value }
  | none => (r.elementProperty? key).or (r.unitProperty? key)

/-- Whether the key is one of those that a wrapped string fills. -/
def isUnitKey (r : ObjectRecord) (key : String) : Bool :=
  match r.wrappedText? with
  | none => false
  | some t => key == "length" || (Number.arrayIndex? key).any (· < t.size)

def storeElement (elements : Array (Option Value)) (i : Nat) (value : Value) :
    Array (Option Value) :=
  if i < elements.size then elements.setIfInBounds i (some value)
  else (elements ++ Array.replicate (i - elements.size) none).push (some value)

def resize (elements : Array (Option Value)) (size : Nat) : Array (Option Value) :=
  if size ≤ elements.size then elements.extract 0 size
  else elements ++ Array.replicate (size - elements.size) none

def insert (r : ObjectRecord) (key : String) (p : DataProperty) : ObjectRecord :=
  { r with slots := r.slots.insert key p }

/-- Whether a property may be defined.  A slot that is not configurable admits only a definition
that loosens nothing; without a slot the object has to be extensible. -/
def admits (r : ObjectRecord) (key : String) (p : DataProperty) : Bool :=
  match r.slots.find? key with
  | some current =>
    current.configurable ||
      (!p.configurable && p.enumerable == current.enumerable && (current.writable || !p.writable))
  | none => r.extensible

/-- Defines a property that is admitted.  A plain property at an index of an array becomes an
element; any other one takes a slot, and an element in its place is dropped.  A property that is not
writable no longer shares its value. -/
def define (r : ObjectRecord) (key : String) (p : DataProperty) : ObjectRecord :=
  let r := if p.writable then r else { r with sharedParameters := r.sharedParameters.erase key }
  match r.elements, Number.arrayIndex? key with
  | some elements, some i =>
    if p.isPlain then { r with elements := some (storeElement elements i p.value) }
    else { r with elements := some (elements.setIfInBounds i none) }.insert key p
  | _, _ => r.insert key p

inductive Assignment where
  | refused
  | slot
  | element (i : Nat)
  | length (size : Nat)
  deriving DecidableEq, Inhabited, Repr

def arrayLength? : Value → Option Nat
  | .number x =>
    (Number.integer? x).bind fun n => if 0 ≤ n ∧ n ≤ 4294967295 then some n.toNat else none
  | _ => none

/-- What an assignment to a property comes to.  `inherited` is the property that the prototype has
at the key. -/
def assignment (r : ObjectRecord) (inherited : Option DataProperty) (key : String) (value : Value) :
    Assignment :=
  match r.slots.find? key with
  | some current => if current.writable then .slot else .refused
  | none =>
    match r.elements.isSome, key == "length", Number.arrayIndex? key with
    | true, true, _ =>
      match arrayLength? value with
      | some size => .length size
      | none => .refused
    | true, false, some i => if r.extensible then .element i else .refused
    | _, _, _ =>
      if r.isUnitKey key || inherited.any (fun p => !p.writable) || !r.extensible then .refused
      else .slot

def assign (r : ObjectRecord) (key : String) (value : Value) : Assignment → ObjectRecord
  | .refused => r
  | .slot =>
    match r.slots.find? key with
    | some current => r.insert key { current with value }
    | none => r.insert key (.plain value)
  | .element i => { r with elements := r.elements.map fun es => storeElement es i value }
  | .length size => { r with elements := r.elements.map fun es => resize es size }

def mayDelete (r : ObjectRecord) (key : String) : Bool :=
  match r.slots.find? key with
  | some current => current.configurable
  | none =>
    match r.elements with
    | some elements =>
      if key = "length" then false
      else if (Number.arrayIndex? key).any (· < elements.size) then true
      else !r.isUnitKey key
    | none => !r.isUnitKey key

/-- Deletes a property that may be deleted: its slot, or else its element. -/
def delete (r : ObjectRecord) (key : String) : ObjectRecord :=
  if r.slots.contains key then
    { r with slots := r.slots.erase key, sharedParameters := r.sharedParameters.erase key }
  else
    match r.elements, Number.arrayIndex? key with
    | some elements, some i => { r with elements := some (elements.setIfInBounds i none) }
    | _, _ => r

/-! ### Keys

An object lists its array indices in ascending order, then the other keys in the order in which they
came in.  Indices are counted in 32 bits.
-/

def elementIndices (r : ObjectRecord) : List Nat :=
  match r.elements with
  | none => []
  | some elements =>
    ((List.range elements.size).filter fun i => (elements[i]?.join).isSome).map fun i =>
      i.toUInt32.toNat

def unitIndices (r : ObjectRecord) : List Nat :=
  match r.wrappedText? with
  | none => []
  | some t => List.range t.size.toUInt32.toNat

/-- The slots that are listed, hidden ones only if `hidden` is set. -/
def listedSlots (r : ObjectRecord) (hidden : Bool) : List (String × DataProperty) :=
  r.slots.entries.filter fun entry => entry.2.enumerable || hidden

/-- The indices of elements, units and slots, in this order, each with whether it is enumerable. -/
def indexKeys (r : ObjectRecord) (hidden : Bool) : List (Nat × Bool) :=
  (r.elementIndices ++ r.unitIndices).map (fun i => (i, true)) ++
    (r.listedSlots hidden).filterMap fun entry =>
      (Number.arrayIndex? entry.1).map fun i => (i, entry.2.enumerable)

/-- The keys that are no indices, each with whether it is enumerable. -/
def namedKeys (r : ObjectRecord) (hidden : Bool) : List (String × Bool) :=
  ((r.listedSlots hidden).filter fun entry => (Number.arrayIndex? entry.1).isNone).map
    fun entry => (entry.1, entry.2.enumerable)

/-- Leaves out of a list in ascending order what repeats the index in front of it. -/
def dropRepeats : Option Nat → List (Nat × Bool) → List (Nat × Bool)
  | _, [] => []
  | last, (i, enumerable) :: rest =>
    if last = some i then dropRepeats last rest
    else (i, enumerable) :: dropRepeats (some i) rest

/-- The object's own keys, each with whether it is enumerable.  Keys that are not enumerable are
listed only if `hidden` is set. -/
def ownKeys (r : ObjectRecord) (hidden : Bool) : List (String × Bool) :=
  (dropRepeats none ((r.indexKeys hidden).mergeSort fun a b => a.1 ≤ b.1)).map
      (fun key => (toString key.1, key.2)) ++
    r.namedKeys hidden

end ObjectRecord

end ProtoScript
