import ProtoScript.Object
/-!
# The store

All scopes and all objects of a running program.  A scope lies behind the scope around it, so the
way outward ends; objects may link to any object.
-/

namespace ProtoScript

/-- The scopes and the objects that a program has made. -/
structure Store where
  scopes : Array Scope := #[]
  objects : Array ObjectRecord := #[]
  deriving Inhabited

namespace Store

/-! ### Scopes -/

def scope? (s : Store) (id : ScopeId) : Option Scope := s.scopes[id.index]?

def modifyScope (s : Store) (id : ScopeId) (f : Scope → Scope) : Store :=
  { s with scopes := s.scopes.modify id.index f }

def isStrict (s : Store) (id : ScopeId) : Bool := (s.scope? id).any Scope.strict

/-- Makes a scope inside another.  It is as strict as the scope around it. -/
def newScope (s : Store) (parent : Option ScopeId) (kind : ScopeKind) : ScopeId × Store :=
  let strict := parent.any s.isStrict
  (⟨s.scopes.size⟩, { s with scopes := s.scopes.push ⟨.empty, parent, strict, kind⟩ })

/-- The nearest binding of a name from a scope outward, with the scope that has it. -/
def resolve? (s : Store) (id : ScopeId) (name : String) : Option (ScopeId × Binding) :=
  match s.scope? id with
  | none => none
  | some scope =>
    match scope.bindings.find? name with
    | some binding => some (id, binding)
    | none =>
      match scope.parent with
      | some parent => if parent.index < id.index then s.resolve? parent name else none
      | none => none
termination_by id.index

def lookup (s : Store) (id : ScopeId) (name : String) : Except BindingError Value :=
  match s.resolve? id name with
  | some (_, binding) => binding.read
  | none => .error .unresolved

def lookup? (s : Store) (id : ScopeId) (name : String) : Option Value :=
  (s.lookup id name).toOption

def assign (s : Store) (id : ScopeId) (name : String) (value : Value) :
    Except BindingError Unit × Store :=
  match s.resolve? id name with
  | none => (.error .unresolved, s)
  | some (holder, binding) =>
    match binding.write value with
    | .error e => (.error e, s)
    | .ok written =>
      (.ok (), s.modifyScope holder fun scope =>
        { scope with bindings := scope.bindings.insert name written })

def declare (s : Store) (id : ScopeId) (name : String) (kind : BindingKind) : Store :=
  s.modifyScope id fun scope => scope.declare name kind

def declareAll (s : Store) (id : ScopeId) (names : List String) (kind : BindingKind) : Store :=
  s.modifyScope id fun scope => names.foldl (fun scope name => scope.declare name kind) scope

def bind (s : Store) (id : ScopeId) (name : String) (value : Value) : Store :=
  s.modifyScope id fun scope => scope.bind name value

def hasOwnBinding (s : Store) (id : ScopeId) (name : String) : Bool :=
  (s.scope? id).any fun scope => scope.hasOwn name

/-- Copies the bindings of some names from one scope into another. -/
def copyBindings (s : Store) (source target : ScopeId) (names : List String) : Store :=
  match s.scope? source with
  | none => s
  | some origin =>
    s.modifyScope target fun scope =>
      { scope with
        bindings := names.foldl (fun bindings name =>
          match origin.bindings.find? name with
          | some binding => bindings.insert name binding
          | none => bindings) scope.bindings }

/-- The nearest scope outward that holds `var` declarations, or else the outermost one. -/
def varScope (s : Store) (id : ScopeId) : ScopeId :=
  match s.scope? id with
  | none => id
  | some scope =>
    if scope.kind.holdsVars then id
    else
      match scope.parent with
      | some parent => if parent.index < id.index then s.varScope parent else id
      | none => id
termination_by id.index

/-! ### Objects -/

def object? (s : Store) (id : ObjectId) : Option ObjectRecord := s.objects[id.index]?

def objectOf? (s : Store) (value : Value) : Option ObjectRecord := value.objectId?.bind s.object?

def modifyObject (s : Store) (id : ObjectId) (f : ObjectRecord → ObjectRecord) : Store :=
  { s with objects := s.objects.modify id.index f }

def allocate (s : Store) (r : ObjectRecord) : ObjectId × Store :=
  (⟨s.objects.size⟩, { s with objects := s.objects.push r })

def callable? (s : Store) (value : Value) : Option Callable :=
  (s.objectOf? value).bind ObjectRecord.callable

def isCallable (s : Store) (value : Value) : Bool := (s.callable? value).isSome

def isConstructor (s : Store) (value : Value) : Bool :=
  (s.callable? value).any Callable.isConstructor

def typeOf (s : Store) (value : Value) : String :=
  match value with
  | .undefined => "undefined"
  | .null => "object"
  | .boolean _ => "boolean"
  | .number _ => "number"
  | .string _ => "string"
  | .object _ => if s.isCallable value then "function" else "object"

/-- An object and those it inherits from, nearest first, up to a length. -/
def chainFrom (s : Store) : Nat → Option ObjectId → List ObjectId
  | 0, _ => []
  | _ + 1, none => []
  | bound + 1, some id =>
    match s.object? id with
    | none => []
    | some r => id :: s.chainFrom bound r.prototype

/-- An object and those it inherits from, nearest first.  There are no more of them than objects. -/
def chain (s : Store) (start : Option ObjectId) : List ObjectId :=
  s.chainFrom s.objects.size start

def prototype? (s : Store) (id : ObjectId) : Option ObjectId :=
  (s.object? id).bind ObjectRecord.prototype

/-! ### What the operations change -/

@[grind =] theorem scope?_modifyScope (s : Store) (id other : ScopeId) (f : Scope → Scope) :
    (s.modifyScope id f).scope? other =
      if other = id then (s.scope? other).map f else s.scope? other := by
  by_cases h : other = id
  · subst h
    simp [scope?, modifyScope, Array.getElem?_modify]
  · have hne : id.index ≠ other.index := fun e => h (by cases id; cases other; simp_all)
    simp [scope?, modifyScope, Array.getElem?_modify, hne, h]

@[simp] theorem object?_modifyScope (s : Store) (id : ScopeId) (f : Scope → Scope)
    (object : ObjectId) : (s.modifyScope id f).object? object = s.object? object := rfl

@[grind =] theorem object?_modifyObject (s : Store) (id other : ObjectId)
    (f : ObjectRecord → ObjectRecord) :
    (s.modifyObject id f).object? other =
      if other = id then (s.object? other).map f else s.object? other := by
  by_cases h : other = id
  · subst h
    simp [object?, modifyObject, Array.getElem?_modify]
  · have hne : id.index ≠ other.index := fun e => h (by cases id; cases other; simp_all)
    simp [object?, modifyObject, Array.getElem?_modify, hne, h]

@[simp] theorem scope?_modifyObject (s : Store) (id : ObjectId)
    (f : ObjectRecord → ObjectRecord) (scope : ScopeId) :
    (s.modifyObject id f).scope? scope = s.scope? scope := rfl

/-- A new object stands at its place and leaves the others at theirs. -/
theorem object?_allocate (s : Store) (r : ObjectRecord) (id : ObjectId) :
    (s.allocate r).2.object? id = if id.index = s.objects.size then some r else s.object? id := by
  simp only [allocate, object?, Array.getElem?_push]

/-- A new scope stands at its place and leaves the others at theirs. -/
theorem scope?_newScope (s : Store) (parent : Option ScopeId) (kind : ScopeKind) (id : ScopeId) :
    (s.newScope parent kind).2.scope? id =
      if id.index = s.scopes.size then some ⟨.empty, parent, parent.any s.isStrict, kind⟩
      else s.scope? id := by
  simp only [newScope, scope?, Array.getElem?_push]

end Store

end ProtoScript
