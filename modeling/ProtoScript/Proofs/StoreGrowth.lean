import ProtoScript.Evaluation.Activation
import ProtoScript.Realm
/-!
# How stores grow

While a program runs, scopes come in but none goes away: a scope keeps its parent and its
strictness, and a name that it binds stays bound; nor does an object change what a call of it runs.
Operations on values do even less: they make no scopes and no closures.
-/

namespace ProtoScript

/-- Where one thing is changed, what is found was there before: it is the same, or that one. -/
theorem exists_of_ite_map {α : Type} {changed : Prop} [Decidable changed] {found : Option α}
    {f : α → α} {after : α} (h : (if changed then found.map f else found) = some after) :
    ∃ before, found = some before ∧ (after = before ∨ changed ∧ after = f before) := by
  split at h
  · next hchanged =>
    obtain ⟨before, hbefore, rfl⟩ := Option.map_eq_some_iff.mp h
    exact ⟨before, hbefore, .inr ⟨hchanged, rfl⟩⟩
  · exact ⟨after, h, .inl rfl⟩

structure Scope.Extends (a b : Scope) : Prop where
  parent : b.parent = a.parent
  strict : b.strict = a.strict
  names : ∀ name, a.hasOwn name = true → b.hasOwn name = true

namespace Scope.Extends

theorem refl (a : Scope) : a.Extends a := ⟨rfl, rfl, fun _ h => h⟩

theorem trans {a b c : Scope} (h : a.Extends b) (h' : b.Extends c) : a.Extends c :=
  ⟨h'.parent.trans h.parent, h'.strict.trans h.strict,
    fun name hname => h'.names name (h.names name hname)⟩

end Scope.Extends

namespace Scope

theorem hasOwn_insert (a : Scope) (name other : String) (b : Binding) :
    ({ a with bindings := a.bindings.insert name b }).hasOwn other =
      (decide (other = name) || a.hasOwn other) := by
  unfold hasOwn NameMap.contains
  rw [NameMap.find?_insert]
  by_cases h : other = name <;> simp [h]

theorem extends_insert (a : Scope) (name : String) (b : Binding) :
    a.Extends { a with bindings := a.bindings.insert name b } := by
  refine ⟨rfl, rfl, fun other h => ?_⟩
  rw [hasOwn_insert, h, Bool.or_true]

theorem extends_declare (a : Scope) (name : String) (kind : BindingKind) :
    a.Extends (a.declare name kind) := by
  unfold declare
  split
  · exact .refl a
  · exact a.extends_insert name _

theorem hasOwn_declare (a : Scope) (name : String) (kind : BindingKind) :
    (a.declare name kind).hasOwn name = true := by
  unfold declare
  split
  · rename_i h
    exact h.2
  · rw [hasOwn_insert]
    simp

theorem extends_declareAll (names : List String) (kind : BindingKind) (a : Scope) :
    a.Extends (names.foldl (fun scope name => scope.declare name kind) a) := by
  induction names generalizing a with
  | nil => exact .refl a
  | cons name names ih => exact (a.extends_declare name kind).trans (ih _)

theorem hasOwn_declareAll (names : List String) (kind : BindingKind) (a : Scope) {name : String}
    (h : name ∈ names) :
    (names.foldl (fun scope name => scope.declare name kind) a).hasOwn name = true := by
  induction names generalizing a with
  | nil => cases h
  | cons first names ih =>
    rcases List.mem_cons.mp h with rfl | hrest
    · exact (extends_declareAll names kind _).names _ (a.hasOwn_declare name kind)
    · exact ih _ hrest

theorem extends_bind (a : Scope) (name : String) (value : Value) : a.Extends (a.bind name value) :=
  a.extends_insert name _

end Scope

namespace ObjectRecord

@[simp] theorem callable_define (r : ObjectRecord) (key : String) (p : DataProperty) :
    (r.define key p).callable = r.callable := by
  unfold define
  by_cases hw : p.writable = true
  · simp only [hw, if_true]
    split
    · split <;> rfl
    · rfl
  · simp only [hw]
    split
    · split <;> rfl
    · rfl

@[simp] theorem callable_assign (r : ObjectRecord) (key : String) (value : Value)
    (a : Assignment) : (r.assign key value a).callable = r.callable := by
  cases a with
  | refused => rfl
  | slot => unfold assign; dsimp only; split <;> rfl
  | element i => rfl
  | length size => rfl

@[simp] theorem callable_delete (r : ObjectRecord) (key : String) :
    (r.delete key).callable = r.callable := by
  unfold delete
  split
  · rfl
  · split <;> rfl

end ObjectRecord

namespace Store

/-- The second store is the first one at a later time. -/
structure Extends (s s' : Store) : Prop where
  scope : ∀ id a, s.scope? id = some a → ∃ b, s'.scope? id = some b ∧ a.Extends b
  callable : ∀ v c, s.callable? v = some c → s'.callable? v = some c

def HasClosure (s : Store) (d : FunctionDef) (scope : ScopeId) : Prop :=
  ∃ id r, s.object? id = some r ∧ r.callable = some (.closure d scope)

/-- The second store is the first one after an operation on values: there are no new scopes and no
new closures. -/
structure Grows (s s' : Store) : Prop where
  later : s.Extends s'
  size : s'.scopes.size = s.scopes.size
  closures : ∀ d scope, s'.HasClosure d scope → s.HasClosure d scope

theorem Extends.refl (s : Store) : s.Extends s := ⟨fun _ a h => ⟨a, h, .refl a⟩, fun _ _ h => h⟩

theorem Extends.trans {s s' s'' : Store} (h : s.Extends s') (h' : s'.Extends s'') :
    s.Extends s'' := by
  refine ⟨fun id a ha => ?_, fun v c hc => h'.callable v c (h.callable v c hc)⟩
  obtain ⟨b, hb, hab⟩ := h.scope id a ha
  obtain ⟨c, hc, hbc⟩ := h'.scope id b hb
  exact ⟨c, hc, hab.trans hbc⟩

theorem Grows.refl (s : Store) : s.Grows s := ⟨.refl s, rfl, fun _ _ h => h⟩

theorem Grows.trans {s s' s'' : Store} (h : s.Grows s') (h' : s'.Grows s'') : s.Grows s'' :=
  ⟨h.later.trans h'.later, h'.size.trans h.size,
    fun d scope hc => h.closures d scope (h'.closures d scope hc)⟩

/-! ### Scopes that are there -/

theorem scope?_eq_some_iff {s : Store} {id : ScopeId} :
    (∃ a, s.scope? id = some a) ↔ id.index < s.scopes.size := by
  unfold scope?
  constructor
  · rintro ⟨a, ha⟩
    exact (Array.getElem?_eq_some_iff.mp ha).1
  · intro h
    exact ⟨_, Array.getElem?_eq_getElem h⟩

theorem Extends.size_le {s s' : Store} (h : s.Extends s') : s.scopes.size ≤ s'.scopes.size := by
  cases hn : s.scopes.size with
  | zero => exact Nat.zero_le _
  | succ n =>
    have hlast : ∃ a, s.scope? ⟨n⟩ = some a := scope?_eq_some_iff.mpr (by simp [hn])
    obtain ⟨a, ha⟩ := hlast
    obtain ⟨b, hb, _⟩ := h.scope _ a ha
    exact scope?_eq_some_iff.mp ⟨b, hb⟩

theorem Extends.isStrict_eq {s s' : Store} (h : s.Extends s') {id : ScopeId}
    (hid : id.index < s.scopes.size) : s'.isStrict id = s.isStrict id := by
  obtain ⟨a, ha⟩ := scope?_eq_some_iff.mpr hid
  obtain ⟨b, hb, hab⟩ := h.scope id a ha
  unfold isStrict
  rw [ha, hb]
  exact hab.strict

theorem Extends.hasOwnBinding {s s' : Store} (h : s.Extends s') {id : ScopeId} {name : String}
    (hn : s.hasOwnBinding id name = true) : s'.hasOwnBinding id name = true := by
  unfold Store.hasOwnBinding at hn ⊢
  obtain ⟨a, ha, hown⟩ := (Option.any_eq_true _ _).mp hn
  obtain ⟨b, hb, hab⟩ := h.scope id a ha
  rw [hb]
  exact hab.names name hown

/-! ### Operations on scopes -/

theorem grows_modifyScope (s : Store) (id : ScopeId) {f : Scope → Scope}
    (h : ∀ a : Scope, a.Extends (f a)) : s.Grows (s.modifyScope id f) := by
  refine ⟨⟨fun other a ha => ?_, fun _ _ hc => hc⟩, by simp [modifyScope], fun d scope hc => hc⟩
  rw [scope?_modifyScope]
  by_cases heq : other = id
  · rw [if_pos heq, ha]
    exact ⟨f a, rfl, h a⟩
  · rw [if_neg heq, ha]
    exact ⟨a, rfl, .refl a⟩

theorem grows_declare (s : Store) (id : ScopeId) (name : String) (kind : BindingKind) :
    s.Grows (s.declare id name kind) :=
  s.grows_modifyScope id fun a => a.extends_declare name kind

theorem grows_declareAll (s : Store) (id : ScopeId) (names : List String) (kind : BindingKind) :
    s.Grows (s.declareAll id names kind) :=
  s.grows_modifyScope id fun a => a.extends_declareAll names kind

theorem grows_bind (s : Store) (id : ScopeId) (name : String) (value : Value) :
    s.Grows (s.bind id name value) :=
  s.grows_modifyScope id fun a => a.extends_bind name value

theorem hasOwnBinding_modifyScope (s : Store) {id : ScopeId} (hid : id.index < s.scopes.size)
    {f : Scope → Scope} {name : String} (h : ∀ a, (f a).hasOwn name = true) :
    (s.modifyScope id f).hasOwnBinding id name = true := by
  obtain ⟨a, ha⟩ := scope?_eq_some_iff.mpr hid
  unfold hasOwnBinding
  rw [scope?_modifyScope, if_pos rfl, ha]
  exact h a

theorem hasOwnBinding_declareAll (s : Store) {id : ScopeId} (hid : id.index < s.scopes.size)
    (names : List String) (kind : BindingKind) {name : String} (h : name ∈ names) :
    (s.declareAll id names kind).hasOwnBinding id name = true :=
  s.hasOwnBinding_modifyScope hid fun a => a.hasOwn_declareAll names kind h

theorem grows_assign (s : Store) (id : ScopeId) (name : String) (value : Value) :
    s.Grows (s.assign id name value).2 := by
  unfold assign
  split
  · exact .refl s
  · split
    · exact .refl s
    · exact s.grows_modifyScope _ fun a => a.extends_insert name _

theorem extends_copied (names : List String) (origin target : Scope) :
    target.Extends { target with
      bindings := names.foldl (fun bindings name =>
        match origin.bindings.find? name with
        | some binding => bindings.insert name binding
        | none => bindings) target.bindings } := by
  induction names generalizing target with
  | nil => exact .refl target
  | cons name names ih =>
    rw [List.foldl_cons]
    split
    · exact (target.extends_insert name _).trans (ih _)
    · exact ih target

theorem grows_copyBindings (s : Store) (source target : ScopeId) (names : List String) :
    s.Grows (s.copyBindings source target names) := by
  unfold copyBindings
  split
  · exact .refl s
  · exact s.grows_modifyScope target fun a => extends_copied names _ a

theorem grows_seedVariable (s : Store) (d : FunctionDef) (scope inner : ScopeId) (name : String) :
    s.Grows (Engine.seedVariable d scope inner s name) := by
  unfold Engine.seedVariable
  dsimp only
  split
  · exact (s.grows_declare inner name _).trans (grows_bind _ _ _ _)
  · exact s.grows_declare inner name _

theorem grows_seedVariables (s : Store) (d : FunctionDef) (scope inner : ScopeId)
    (names : List String) : s.Grows (names.foldl (Engine.seedVariable d scope inner) s) := by
  induction names generalizing s with
  | nil => exact .refl s
  | cons name names ih => exact (s.grows_seedVariable d scope inner name).trans (ih _)

/-! ### Operations on objects -/

theorem callable?_modifyObject (s : Store) (id : ObjectId) {f : ObjectRecord → ObjectRecord}
    (h : ∀ r, (f r).callable = r.callable) (v : Value) :
    (s.modifyObject id f).callable? v = s.callable? v := by
  unfold callable? objectOf?
  cases v.objectId? with
  | none => rfl
  | some other =>
    simp only [Option.bind_some, object?_modifyObject]
    split
    · cases s.object? other with
      | none => rfl
      | some r => exact h r
    · rfl

theorem grows_modifyObject (s : Store) (id : ObjectId) {f : ObjectRecord → ObjectRecord}
    (h : ∀ r, (f r).callable = r.callable) : s.Grows (s.modifyObject id f) := by
  refine ⟨⟨fun other a ha => ⟨a, ha, .refl a⟩, fun v c hc => ?_⟩, rfl, ?_⟩
  · rw [callable?_modifyObject s id h]
    exact hc
  rintro d scope ⟨other, r, hr, hc⟩
  rw [object?_modifyObject] at hr
  obtain ⟨before, hbefore, rfl | ⟨-, rfl⟩⟩ := exists_of_ite_map hr
  · exact ⟨other, _, hbefore, hc⟩
  · rw [h] at hc
    exact ⟨other, before, hbefore, hc⟩

theorem grows_insert (s : Store) (id : ObjectId) (key : String) (p : DataProperty) :
    s.Grows (s.insert id key p) :=
  s.grows_modifyObject id fun _ => rfl

theorem grows_nameFunction (s : Store) (function : Value) (name : String) :
    s.Grows (s.nameFunction function name) := by
  cases function with
  | object id => exact s.grows_insert id _ _
  | _ => exact .refl s

theorem grows_setPrototype (s : Store) (id : ObjectId) (prototype : Option ObjectId) :
    s.Grows (s.setPrototype id prototype) :=
  s.grows_modifyObject id fun _ => rfl

theorem grows_assignShared (s : Store) (r : ObjectRecord) (key : String) (value : Value) :
    s.Grows (s.assignShared r key value) := by
  unfold assignShared
  split
  · exact s.grows_assign _ _ value
  · exact .refl s

theorem grows_define (s : Store) (id : ObjectId) (key : String) (p : DataProperty) :
    s.Grows (s.define id key p).2 := by
  unfold define
  split
  · exact .refl s
  · split
    · exact (s.grows_assignShared _ key p.value).trans
        (grows_modifyObject _ id fun r => r.callable_define key p)
    · exact .refl s

theorem grows_set (s : Store) (id : ObjectId) (key : String) (value : Value) :
    s.Grows (s.set id key value).2 := by
  unfold set
  split
  · exact .refl s
  · exact (s.grows_assignShared _ key value).trans
      (grows_modifyObject _ id fun r => r.callable_assign key value _)

theorem grows_delete (s : Store) (id : ObjectId) (key : String) :
    s.Grows (s.delete id key).2 := by
  unfold delete
  split
  · exact .refl s
  · split
    · exact s.grows_modifyObject id fun r => r.callable_delete key
    · exact .refl s

theorem extends_allocate (s : Store) (r : ObjectRecord) : s.Extends (s.allocate r).2 := by
  refine ⟨fun id a ha => ⟨a, ha, .refl a⟩, fun v c hc => ?_⟩
  obtain ⟨r', hr', hcallable⟩ := Option.bind_eq_some_iff.mp hc
  obtain ⟨id, hid, hobject⟩ := Option.bind_eq_some_iff.mp hr'
  have hlt : id.index < s.objects.size := (Array.getElem?_eq_some_iff.mp hobject).1
  unfold callable? objectOf?
  rw [hid, Option.bind_some, object?_allocate, if_neg (by omega), hobject]
  exact hcallable

theorem grows_allocate (s : Store) {r : ObjectRecord}
    (h : ∀ d scope, r.callable ≠ some (.closure d scope)) : s.Grows (s.allocate r).2 := by
  refine ⟨s.extends_allocate r, rfl, ?_⟩
  rintro d scope ⟨id, r', hr', hc⟩
  rw [object?_allocate] at hr'
  split at hr'
  · cases hr'
    exact absurd hc (h d scope)
  · exact ⟨id, r', hr', hc⟩

theorem hasClosure_newFunction (s : Store) (callable : Callable) (d : FunctionDef)
    (scope : ScopeId) (h : (s.newFunction callable).2.HasClosure d scope) :
    callable = .closure d scope ∨ s.HasClosure d scope := by
  have hallocate : (s.allocate (.function callable)).2.HasClosure d scope →
      callable = .closure d scope ∨ s.HasClosure d scope := by
    rintro ⟨id, r, hr, hc⟩
    rw [object?_allocate] at hr
    split at hr
    · cases hr
      exact .inl (Option.some.inj hc)
    · exact .inr ⟨id, r, hr, hc⟩
  unfold newFunction at h
  dsimp only at h
  split at h
  · refine hallocate ?_
    refine (grows_allocate _ ?_).closures d scope ((grows_insert _ _ _ _).closures d scope h)
    exact nofun
  · exact hallocate h

theorem size_newFunction (s : Store) (callable : Callable) :
    (s.newFunction callable).2.scopes.size = s.scopes.size := by
  unfold newFunction
  dsimp only
  split <;> rfl

theorem extends_newFunction (s : Store) (callable : Callable) :
    s.Extends (s.newFunction callable).2 := by
  unfold newFunction
  dsimp only
  split
  · have hprototype := extends_allocate (s.allocate (.function callable)).2
      { prototype := some .objectPrototype
        slots := .ofList [("constructor", .hidden (.object (s.allocate (.function callable)).1))] }
    exact ((s.extends_allocate _).trans hprototype).trans (grows_insert _ _ _ _).later
  · exact s.extends_allocate _

theorem grows_newFunction_native (s : Store) (f : Native) :
    s.Grows (s.newFunction (.native f)).2 := by
  refine ⟨s.extends_newFunction _, s.size_newFunction _, fun d scope hc => ?_⟩
  rcases s.hasClosure_newFunction _ d scope hc with h | h
  · cases h
  · exact h

theorem grows_defineGlobal (s : Store) (name : String) (value : Value) :
    s.Grows (s.defineGlobal name value) :=
  (s.grows_declare _ _ _).trans (grows_bind _ _ _ _)

theorem grows_installGlobal (s : Store) (f : Native) : s.Grows (s.installGlobal f) :=
  (s.grows_newFunction_native f).trans (grows_defineGlobal _ _ _)

/-! ### New scopes -/

theorem extends_newScope (s : Store) (parent : Option ScopeId) (kind : ScopeKind) :
    s.Extends (s.newScope parent kind).2 := by
  refine ⟨fun id a ha => ?_, fun _ _ hc => hc⟩
  rw [scope?_newScope, if_neg]
  · exact ⟨a, ha, .refl a⟩
  · have := scope?_eq_some_iff.mp ⟨a, ha⟩
    omega

/-- A change to a scope that is new leaves the scopes there were as they are. -/
theorem extends_modifyScope_new {s s' : Store} (h : s.Extends s') {id : ScopeId}
    (hnew : s.scopes.size ≤ id.index) (f : Scope → Scope) : s.Extends (s'.modifyScope id f) := by
  refine ⟨fun other a ha => ?_, h.callable⟩
  have hother : other ≠ id := by
    rintro rfl
    have := scope?_eq_some_iff.mp ⟨a, ha⟩
    omega
  rw [scope?_modifyScope, if_neg hother]
  exact h.scope other a ha

/-- Setting the strictness of a scope back restores it, whatever grew meanwhile. -/
theorem Extends.restoreStrict {s s' : Store} {id : ScopeId} {strict : Bool}
    (h : (s.modifyScope id fun a => { a with strict }).Extends s') :
    s.Extends (s'.modifyScope id fun a => { a with strict := s.isStrict id }) := by
  refine ⟨fun other a ha => ?_, h.callable⟩
  have hmodified := scope?_modifyScope s id other fun a => { a with strict }
  rw [ha] at hmodified
  rw [scope?_modifyScope]
  by_cases heq : other = id
  · subst heq
    rw [if_pos rfl] at hmodified ⊢
    obtain ⟨b, hb, hab⟩ := h.scope _ _ hmodified
    rw [hb]
    refine ⟨_, rfl, hab.parent, ?_, hab.names⟩
    unfold isStrict
    rw [ha]
    rfl
  · rw [if_neg heq] at hmodified ⊢
    exact h.scope _ _ hmodified

theorem scope?_newScope_self (s : Store) (parent : Option ScopeId) (kind : ScopeKind) :
    (s.newScope parent kind).2.scope? (s.newScope parent kind).1 =
      some ⟨.empty, parent, parent.any s.isStrict, kind⟩ := by
  rw [scope?_newScope]
  exact if_pos rfl

theorem index_newScope_lt (s : Store) (parent : Option ScopeId) (kind : ScopeKind) :
    (s.newScope parent kind).1.index < (s.newScope parent kind).2.scopes.size :=
  scope?_eq_some_iff.mp ⟨_, s.scope?_newScope_self parent kind⟩

theorem isStrict_newScope (s : Store) (scope : ScopeId) (kind : ScopeKind) :
    (s.newScope (some scope) kind).2.isStrict (s.newScope (some scope) kind).1 =
      s.isStrict scope := by
  unfold isStrict
  rw [scope?_newScope_self]
  rfl

theorem isStrict_modifyScope (s : Store) {id : ScopeId} (hid : id.index < s.scopes.size)
    (strict : Bool) : (s.modifyScope id fun a => { a with strict }).isStrict id = strict := by
  obtain ⟨a, ha⟩ := scope?_eq_some_iff.mpr hid
  unfold isStrict
  rw [scope?_modifyScope, if_pos rfl, ha]
  rfl

theorem size_modifyScope (s : Store) (id : ScopeId) (f : Scope → Scope) :
    (s.modifyScope id f).scopes.size = s.scopes.size :=
  Array.size_modify ..

end Store

/-!
### The initial store

Installing native functions makes neither scopes nor closures, so the initial store has the global
scope alone and no closure at all.
-/

namespace Store

theorem grows_foldl {α : Type} {f : Store → α → Store} (h : ∀ (s : Store) a, s.Grows (f s a))
    (items : List α) (s : Store) : s.Grows (items.foldl f s) := by
  induction items generalizing s with
  | nil => exact .refl s
  | cons a items ih => exact (h s a).trans (ih _)

theorem grows_installMethods (s : Store) (target : ObjectId) (methods : List Native) :
    s.Grows (s.installMethods target methods) :=
  grows_foldl (fun s f => (s.grows_newFunction_native f).trans (grows_insert _ _ _ _)) methods s

theorem grows_installConstructor (s : Store) (f : Native) (prototype : ObjectId)
    (functions methods : List Native) (constants : List (String × Float)) :
    s.Grows (s.installConstructor f prototype functions methods constants) := by
  have hallocate : s.Grows (s.allocate (.function (.native f))).2 :=
    s.grows_allocate nofun
  unfold installConstructor
  dsimp only
  refine .trans (.trans ?_ (grows_installMethods _ _ functions)) (grows_installMethods _ _ methods)
  refine .trans ?_ (grows_foldl (fun s constant => s.grows_insert _ _ _) constants _)
  refine .trans ?_ (grows_defineGlobal _ f.name _)
  refine .trans ?_ (grows_insert _ prototype "constructor" _)
  exact hallocate.trans (grows_insert _ _ "prototype" _)

theorem grows_installErrors (s : Store) : s.Grows s.installErrors := by
  have hmethods := s.grows_installMethods (.errorPrototype .error) [.error .toString]
  have hconstructors := hmethods.trans (grows_foldl (fun s kind =>
    s.grows_installConstructor (.error (.constructor kind)) (.errorPrototype kind) [] [] [])
    ErrorKind.all _)
  unfold installErrors
  dsimp only
  split
  · exact hconstructors.trans (grows_defineGlobal _ _ _)
  · exact hconstructors

/-- The global scope and the intrinsic objects, before anything is installed. -/
def bare (settings : Settings) : Store where
  scopes := #[globalScope settings.strict]
  objects := intrinsicObjects.toArray

theorem grows_initial (settings : Settings) : (bare settings).Grows (initial settings) := by
  have hglobals := grows_foldl grows_installGlobal
    [.global .isNaN, .global .parseInt, .global .parseFloat] (bare settings)
  have hobject := hglobals.trans (grows_installConstructor _ (.object .constructor) .objectPrototype
    [.object .getPrototypeOf, .object .setPrototypeOf, .object .create, .object .defineProperty,
      .object .keys] [.object .hasOwnProperty, .object .toString, .object .valueOf] [])
  have hfunction := hobject.trans (grows_installConstructor _ (.function .constructor)
    .functionPrototype [] [.function .call, .function .apply, .function .toString] [])
  have harray := hfunction.trans (grows_installConstructor _ (.array .constructor) .arrayPrototype
    [.array .isArray]
    [.array .push, .array .pop, .array .join, .array .toString, .array .indexOf] [])
  have hstring := harray.trans (grows_installConstructor _ (.string .constructor) .stringPrototype
    [] [.string .charAt, .string .charCodeAt, .string .indexOf, .string .slice, .string .toString,
      .string .valueOf] [])
  have hnumber := hstring.trans (grows_installConstructor _ (.number .constructor) .numberPrototype
    [] [.number .toString, .number .valueOf] numberConstants)
  have hboolean := hnumber.trans (grows_installConstructor _ (.boolean .constructor)
    .booleanPrototype [] [.boolean .valueOf, .boolean .toString] [])
  have herrors := hboolean.trans (grows_installErrors _)
  unfold initial
  dsimp only
  split
  · exact herrors.trans (grows_foldl grows_installGlobal _ _)
  · exact herrors

theorem size_initial (settings : Settings) : (initial settings).scopes.size = 1 :=
  (grows_initial settings).size

theorem isStrict_initial (settings : Settings) :
    (initial settings).isStrict .global = settings.strict := by
  have hglobal : ScopeId.global.index < (bare settings).scopes.size := Nat.one_pos
  exact (grows_initial settings).later.isStrict_eq hglobal

theorem callable_intrinsicObjects :
    ∀ r ∈ intrinsicObjects, ∀ d scope, r.callable ≠ some (.closure d scope) := by
  intro r hr d scope
  simp only [intrinsicObjects, List.mem_cons, List.not_mem_nil, or_false] at hr
  rcases hr with rfl | rfl | rfl | rfl | rfl | rfl | rfl | rfl | rfl | rfl | rfl | rfl | rfl
  all_goals exact nofun

theorem not_hasClosure_initial (settings : Settings) (d : FunctionDef) (scope : ScopeId) :
    ¬ (initial settings).HasClosure d scope := by
  intro h
  obtain ⟨id, r, hr, hc⟩ := (grows_initial settings).closures d scope h
  have hmem : r ∈ intrinsicObjects.toArray := Array.mem_of_getElem? hr
  exact callable_intrinsicObjects r (List.mem_toArray.mp hmem) d scope hc

theorem grows_installHost (s : Store) (functions : List (String × Nat)) :
    s.Grows (functions.foldl (fun s (name, arity) => s.installGlobal (.host name arity)) s) :=
  grows_foldl (fun s (name, arity) => s.grows_installGlobal (.host name arity)) functions s

end Store

end ProtoScript
