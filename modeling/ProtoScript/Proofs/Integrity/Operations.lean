import ProtoScript.Proofs.Integrity.Retained
/-!
# What running programs do to the store

Whatever a program does, it changes the store by operations of a few kinds only: operations on
properties, new objects and links between them, assignments to names, declarations, new scopes, and
the arguments of calls.  Sound operations begin sharing with the arguments of a call only, and in
the scopes that are watched they leave the parameters that are shared variables.  They work on the
names of no scope that a function expression finds its own name in.
-/

namespace ProtoScript

/-- What is watched: names of bindings that are to be kept once they are settled, scopes whose
parameters stay variables as long as arguments share them, and scopes in which no parameters come to
be shared any more. -/
structure Watch where
  settled : ScopeId → String → Prop
  joined : ScopeId → Prop
  old : ScopeId → Prop

inductive StoreOperation where
  | property (id : ObjectId) (op : PropertyOperation)
  /-- Puts a property in its place whatever is there. -/
  | insert (id : ObjectId) (key : String) (p : DataProperty)
  | link (id : ObjectId) (prototype : Option ObjectId)
  | allocate (r : ObjectRecord)
  /-- Makes the arguments object of a call, which shares the parameters. -/
  | arguments (id : ScopeId) (values : List Value) (callee : Value) (names : List String)
  | assign (id : ScopeId) (name : String) (value : Value)
  /-- Gives a name its value in a scope. -/
  | bind (id : ScopeId) (name : String) (value : Value)
  | declare (id : ScopeId) (names : List String) (kind : BindingKind)
  /-- Copies bindings from the first scope into the second. -/
  | copy (source target : ScopeId) (names : List String)
  | newScope (parent : ScopeId) (kind : ScopeKind)
  /-- Makes the scope in which a function expression finds its own name. -/
  | selfScope (parent : ScopeId) (name : String) (guarded : Bool) (value : Value)
  | setStrict (id : ScopeId) (strict : Bool)
  | setKind (id : ScopeId) (kind : ScopeKind)

/-- A parameter that an object may share after the operation, and did not share before. -/
def StoreOperation.BeginsToShare : StoreOperation → ScopeId → String → Prop
  | .arguments id _ _ names, scope, name => scope = id ∧ name ∈ names
  | _, _, _ => False

theorem ObjectRecord.callable_after (r : ObjectRecord) (inherited : Option DataProperty)
    (op : PropertyOperation) : (r.after inherited op).callable = r.callable :=
  after_of_assign (P := fun r' => r'.callable = r.callable) rfl r.callable_define
    (fun key value => r.callable_assign key value _) r.callable_delete op

namespace Store

/-- Makes an arguments object that shares the parameters of a call, and declares them all. -/
def shareArguments (s : Store) (id : ScopeId) (values : List Value) (callee : Value)
    (names : List String) : Store :=
  let made := s.allocate (.arguments values callee (some (id, names)))
  ((made.2.declare id "arguments" .variable).bind id "arguments" (.object made.1)).declareAll id
    names .variable

/-- Makes the scope in which a function expression finds its own name. -/
def selfScope (s : Store) (parent : ScopeId) (name : String) (guarded : Bool) (value : Value) :
    Store :=
  let made := s.newScope (some parent) .block
  (made.2.declare made.1 name (.selfName guarded)).bind made.1 name value

def perform (s : Store) : StoreOperation → Store
  | .property id op => (s.operate id op).2
  | .insert id key p => s.insert id key p
  | .link id prototype => s.setPrototype id prototype
  | .allocate r => (s.allocate r).2
  | .arguments id values callee names => s.shareArguments id values callee names
  | .assign id name value => (s.assign id name value).2
  | .bind id name value => s.bind id name value
  | .declare id names kind => s.declareAll id names kind
  | .copy source target names => s.copyBindings source target names
  | .newScope parent kind => (s.newScope (some parent) kind).2
  | .selfScope parent name guarded value => s.selfScope parent name guarded value
  | .setStrict id strict => s.modifyScope id fun scope => { scope with strict }
  | .setKind id kind => s.modifyScope id fun scope => { scope with kind }

/-- What programs heed: nothing is put in the place of a shared property, parameters come to be
shared in a scope that does not bind them yet and is not old, and in the watched scopes no parameter
that is shared is declared as anything but a variable.  Scopes for a function expression's own name
are left alone, and a scope goes on holding variables or passing them on. -/
def Heeds (kept : Watch) (s : Store) : StoreOperation → Prop
  | .insert id key _ => s.joined? id key = none
  | .allocate r => r.sharedParameters = .empty
  | .arguments id _ _ names => ¬ kept.old id ∧ s.Open id ∧
      ∃ a, s.scope? id = some a ∧ ∀ name ∈ names, a.bindings.find? name = none
  | .bind id _ _ => s.Open id
  | .declare id names kind => s.Open id ∧ kind.isSelfName = false ∧
      (kind = .variable ∨ ∀ name ∈ names, ¬ (kept.joined id ∧ s.Shares id name))
  | .copy source target names => s.Open source ∧ s.Open target ∧
      ∀ name ∈ names, ¬ (kept.joined target ∧ s.Shares target name)
  | .setKind id kind => ∀ a, s.scope? id = some a → kind.holdsVars = a.kind.holdsVars
  | _ => True

variable {kept kept' : Watch} {s s' s'' : Store} {op : StoreOperation} {scope : ScopeId}
  {name : String}

/-! ### One operation -/

theorem Heeds.mono (h : s.Heeds kept op) (hjoined : ∀ id, kept'.joined id → kept.joined id)
    (hold : ∀ id, kept'.old id → kept.old id) : s.Heeds kept' op := by
  cases op with
  | allocate r => exact h
  | arguments id values callee names => exact ⟨fun hid => h.1 (hold id hid), h.2⟩
  | declare id names kind =>
    obtain ⟨hopen, hkind, hfree⟩ := h
    refine ⟨hopen, hkind, hfree.imp_right fun hfree name hname hboth => ?_⟩
    exact hfree name hname ⟨hjoined id hboth.1, hboth.2⟩
  | copy source target names =>
    obtain ⟨hsource, htarget, hfree⟩ := h
    exact ⟨hsource, htarget, fun name hname hboth =>
      hfree name hname ⟨hjoined target hboth.1, hboth.2⟩⟩
  | insert id key p => exact h
  | bind id name value => exact h
  | setKind id kind => exact h
  | _ => trivial

theorem object?_shareArguments (s : Store) (id : ScopeId) (values : List Value) (callee : Value)
    (names : List String) (other : ObjectId) :
    (s.shareArguments id values callee names).object? other =
      if other.index = s.objects.size then some (.arguments values callee (some (id, names)))
      else s.object? other :=
  s.object?_allocate _ other

theorem scope?_shareArguments (s : Store) (place : ScopeId) (values : List Value) (callee : Value)
    (names : List String) (id : ScopeId) :
    (s.shareArguments place values callee names).scope? id =
      if id = place then (s.scope? id).map fun a =>
        names.foldl (fun a name => a.declare name .variable)
          ((a.declare "arguments" .variable).bind "arguments" (.object ⟨s.objects.size⟩))
      else s.scope? id := by
  rw [shareArguments]
  simp only [declareAll, Store.bind, declare, scope?_modifyScope]
  split
  · simp only [Option.map_map]
    rfl
  · rfl

theorem Shares.of_shareArguments {id : ScopeId} {values : List Value} {callee : Value}
    {names : List String} (h : (s.shareArguments id values callee names).Shares scope name) :
    s.Shares scope name ∨ scope = id ∧ name ∈ names := by
  have hmade : (s.allocate (.arguments values callee (some (id, names)))).2.Shares scope name :=
    h.of_objects rfl
  refine hmade.of_allocate.imp_right fun ⟨key, hkey⟩ => ?_
  obtain ⟨_, _, -, heq, -, hlast⟩ := of_find?_sharedParameters hkey
  cases heq
  exact ⟨rfl, hlast.mem⟩

/-- The parameters that come to be shared are variables from then on. -/
theorem hasVariable_shareArguments {id : ScopeId} {a : Scope} {names : List String}
    (ha : s.scope? id = some a) (hfree : ∀ name ∈ names, a.bindings.find? name = none)
    (values : List Value) (callee : Value) (hname : name ∈ names) :
    (s.shareArguments id values callee names).HasVariable id name := by
  have hdeclared : ((a.declare "arguments" .variable).bind "arguments"
      (.object ⟨s.objects.size⟩)).HasVariable name ∨ ((a.declare "arguments" .variable).bind
        "arguments" (.object ⟨s.objects.size⟩)).bindings.find? name = none := by
    by_cases hother : name = "arguments"
    · subst hother
      exact .inl ((Scope.hasVariable_declare (.inr (hfree _ hname))).bind _ _)
    · refine .inr ?_
      rw [Scope.find?_bind_of_ne _ hother, Scope.find?_declare_of_ne _ hother]
      exact hfree name hname
  refine ⟨_, ?_, Scope.hasVariable_declareAll hname hdeclared⟩
  rw [scope?_shareArguments, if_pos rfl, ha]
  rfl

theorem HasVariable.shareArguments (h : s.HasVariable scope name) (id : ScopeId)
    (values : List Value) (callee : Value) (names : List String) :
    (s.shareArguments id values callee names).HasVariable scope name := by
  have hmade (r : ObjectRecord) : (s.allocate r).2.HasVariable scope name := h.of_scopes rfl
  exact (((hmade _).modifyScope fun _ _ ha => ha.declare (.inl rfl)).modifyScope
    fun _ _ ha => ha.bind _ _).modifyScope fun _ _ ha => ha.declareAll (.inl rfl)

theorem objects_assign (s : Store) (id : ScopeId) (name : String) (value : Value) :
    (s.assign id name value).2.objects = s.objects := by
  unfold Store.assign
  split
  · rfl
  · split <;> rfl

theorem scope?_selfScope_of_lt (s : Store) (parent : ScopeId) (name : String) (guarded : Bool)
    (value : Value) {id : ScopeId} (hid : id.index < s.scopes.size) :
    (s.selfScope parent name guarded value).scope? id = s.scope? id := by
  have hne : id ≠ ⟨s.scopes.size⟩ := by
    rintro rfl
    exact Nat.lt_irrefl _ hid
  unfold selfScope
  simp only [Store.bind, declare, newScope, scope?_modifyScope, if_neg hne]
  exact (s.scope?_newScope (some parent) .block id).trans (if_neg (Nat.ne_of_lt hid))

/-- The scope for a function expression's own name binds nothing else. -/
theorem scope?_selfScope_self (s : Store) (parent : ScopeId) (name : String) (guarded : Bool)
    (value : Value) : (s.selfScope parent name guarded value).scope? ⟨s.scopes.size⟩ =
      some ⟨NameMap.empty.insert name ⟨value, .selfName guarded, true⟩, some parent,
        s.isStrict parent, .block⟩ := by
  unfold selfScope
  have hmade := s.scope?_newScope_self (some parent) .block
  simp only [Store.bind, declare, newScope, scope?_modifyScope, if_true] at hmade ⊢
  rw [hmade]
  simp [Scope.declare, Scope.bind, NameMap.insert, NameMap.insertEntry, NameMap.empty,
    NameMap.find?]

theorem eq_of_hasOwn_single {name other : String} {b : Binding} {parent : Option ScopeId}
    {strict : Bool} {kind : ScopeKind}
    (h : Scope.hasOwn ⟨NameMap.empty.insert name b, parent, strict, kind⟩ other = true) :
    other = name := by
  rw [Scope.hasOwn, NameMap.contains, NameMap.find?_insert] at h
  split at h
  · next heq => exact heq
  · cases h

theorem size_selfScope (s : Store) (parent : ScopeId) (name : String) (guarded : Bool)
    (value : Value) : (s.selfScope parent name guarded value).scopes.size = s.scopes.size + 1 := by
  unfold selfScope
  simp only [Store.bind, declare, size_modifyScope]
  exact Array.size_push ..

theorem size_assign (s : Store) (id : ScopeId) (name : String) (value : Value) :
    (s.assign id name value).2.scopes.size = s.scopes.size := by
  unfold Store.assign
  split
  · rfl
  · split
    · rfl
    · exact size_modifyScope ..

theorem size_assignShared (s : Store) (r : ObjectRecord) (key : String) (value : Value) :
    (s.assignShared r key value).scopes.size = s.scopes.size := by
  unfold Store.assignShared
  split
  · exact s.size_assign ..
  · rfl

theorem size_operate (s : Store) (id : ObjectId) (op : PropertyOperation) :
    (s.operate id op).2.scopes.size = s.scopes.size := by
  cases op with
  | define key p =>
    rw [Store.operate, Store.define]
    split
    · rfl
    · split
      · exact s.size_assignShared ..
      · rfl
  | set key value =>
    rw [Store.operate, Store.set]
    split
    · rfl
    · exact s.size_assignShared ..
  | delete key =>
    rw [Store.operate, Store.delete]
    split
    · rfl
    · split <;> rfl

theorem size_copyBindings (s : Store) (source target : ScopeId) (names : List String) :
    (s.copyBindings source target names).scopes.size = s.scopes.size := by
  unfold copyBindings
  split
  · rfl
  · exact size_modifyScope ..

theorem objects_copyBindings (s : Store) (source target : ScopeId) (names : List String) :
    (s.copyBindings source target names).objects = s.objects := by
  unfold copyBindings
  split <;> rfl

/-- What an operation leaves of an object that it changes: what a call of it runs, and no more that
is shared, provided that the operation heeds what is watched. -/
structure Changed (s : Store) (op : StoreOperation) (id : ObjectId) (r r' : ObjectRecord) :
    Prop where
  callable : r'.callable = r.callable
  less : r.SharesLess r'
  shared : ∀ kept, s.Heeds kept op → s.object? id = some r → r.WellShared → r'.WellShared

theorem exists_object?_perform (s : Store) (op : StoreOperation) :
    (∃ r, (op = .allocate r ∨ ∃ id values callee names,
        op = .arguments id values callee names ∧ r = .arguments values callee (some (id, names))) ∧
      ∀ other, (s.perform op).object? other =
        if other.index = s.objects.size then some r else s.object? other) ∨
    ∃ id f, (∀ r, s.Changed op id r (f r)) ∧
      ∀ other, (s.perform op).object? other =
        if other = id then (s.object? other).map f else s.object? other := by
  -- The objects are as they were.
  have hsame (hobjects : (s.perform op).objects = s.objects) : ∃ id f,
      (∀ r, s.Changed op id r (f r)) ∧
      ∀ other, (s.perform op).object? other =
        if other = id then (s.object? other).map f else s.object? other := by
    refine ⟨⟨0⟩, id, fun r => ⟨rfl, fun _ _ h => h, fun _ _ _ h => h⟩, fun other => ?_⟩
    rw [Option.map_id_fun, id, ite_self]
    unfold object?
    rw [hobjects]
  cases op with
  | property id op =>
    obtain ⟨inherited, hafter⟩ := s.exists_object?_operate id op
    exact .inr ⟨id, _, fun r => ⟨r.callable_after inherited op, r.sharesLess_after inherited op,
      fun _ _ _ h => h.after inherited op⟩, hafter⟩
  | insert id key p =>
    refine .inr ⟨id, fun r => r.insert key p, fun r => ⟨rfl, fun _ _ h => h, ?_⟩,
      fun other => object?_modifyObject ..⟩
    exact fun _ h hr hshared => hshared.insert ((joined?_of_object? hr key).symm.trans h) p
  | link id prototype =>
    exact .inr ⟨id, fun r => { r with prototype },
      fun r => ⟨rfl, fun _ _ h => h, fun _ _ _ h => ⟨h.linked, h.numeral, h.apart⟩⟩,
      fun other => object?_modifyObject ..⟩
  | allocate r => exact .inl ⟨r, .inl rfl, s.object?_allocate r⟩
  | arguments id values callee names =>
    exact .inl ⟨_, .inr ⟨id, values, callee, names, rfl, rfl⟩,
      s.object?_shareArguments id values callee names⟩
  | assign id name value => exact .inr (hsame (s.objects_assign id name value))
  | copy source target names => exact .inr (hsame (s.objects_copyBindings source target names))
  | _ => exact .inr (hsame rfl)

/-- What an operation that heeds what is watched makes or changes is well shared, and a new object
shares what begins to be shared. -/
theorem Heeds.exists_object?_perform (h : s.Heeds kept op) :
    (∃ r : ObjectRecord, r.WellShared ∧
      (∀ key scope name, r.sharedParameters.find? key = some (scope, name) →
        op.BeginsToShare scope name) ∧
      ∀ other, (s.perform op).object? other =
        if other.index = s.objects.size then some r else s.object? other) ∨
    ∃ id f,
      (∀ r, s.object? id = some r →
        r.SharesLess (f r) ∧ (r.WellShared → (f r).WellShared)) ∧
      ∀ other, (s.perform op).object? other =
        if other = id then (s.object? other).map f else s.object? other := by
  obtain ⟨made, hmade, hobjects⟩ | ⟨id, f, hf, hobjects⟩ := s.exists_object?_perform op
  · refine .inl ⟨made, ?_⟩
    rcases hmade with rfl | ⟨id, values, callee, names, rfl, rfl⟩
    · refine ⟨.of_unshared h, fun key _ _ hkey => ?_, hobjects⟩
      rw [show made.sharedParameters = .empty from h] at hkey
      cases hkey
    · refine ⟨(ObjectRecord.IsNew.arguments ..).wellShared, fun key scope name hkey => ?_, hobjects⟩
      obtain ⟨_, _, -, heq, -, hlast⟩ := of_find?_sharedParameters hkey
      cases heq
      exact ⟨rfl, hlast.mem⟩
  · exact .inr ⟨id, f, fun r hr => ⟨(hf r).less, (hf r).shared kept h hr⟩, hobjects⟩

/-- What is shared after an operation was shared before, or begins to be. -/
theorem Heeds.shares_or (h : s.Heeds kept op) (hshared : (s.perform op).Shares scope name) :
    s.Shares scope name ∨ op.BeginsToShare scope name := by
  obtain ⟨other, key, hkey⟩ := hshared
  obtain ⟨r, hr, hfound⟩ := Option.bind_eq_some_iff.mp hkey
  obtain ⟨made, -, hbegins, hobjects⟩ | ⟨id, f, hless, hobjects⟩ := h.exists_object?_perform
  · rw [hobjects] at hr
    split at hr
    · cases hr
      exact .inr (hbegins key scope name hfound)
    · exact .inl ⟨other, key, (joined?_of_object? hr key).trans hfound⟩
  · rw [hobjects] at hr
    obtain ⟨before, hbefore, rfl | ⟨rfl, rfl⟩⟩ := exists_of_ite_map hr
    · exact .inl ⟨other, key, (joined?_of_object? hbefore key).trans hfound⟩
    · refine .inl ⟨other, key, (joined?_of_object? hbefore key).trans ?_⟩
      exact (hless before hbefore).1 key _ hfound

theorem Heeds.shares (h : s.Heeds kept op) (hold : kept.old scope)
    (hshared : (s.perform op).Shares scope name) : s.Shares scope name := by
  refine (h.shares_or hshared).resolve_right fun hbegins => ?_
  cases op with
  | arguments id values callee names =>
    obtain ⟨rfl, -⟩ := hbegins
    exact h.1 hold
  | _ => exact hbegins

theorem WellShared.perform (hs : s.WellShared) (h : s.Heeds kept op) :
    (s.perform op).WellShared := by
  intro other r hr
  obtain ⟨made, hmade, -, hobjects⟩ | ⟨id, f, hless, hobjects⟩ := h.exists_object?_perform
  · rw [hobjects] at hr
    split at hr
    · cases hr
      exact hmade
    · exact hs other r hr
  · rw [hobjects] at hr
    obtain ⟨before, hbefore, rfl | ⟨rfl, rfl⟩⟩ := exists_of_ite_map hr
    · exact hs other _ hbefore
    · exact (hless before hbefore).2 (hs other before hbefore)

theorem HasVariable.operate (h : s.HasVariable scope name) (id : ObjectId)
    (op : PropertyOperation) : (s.operate id op).2.HasVariable scope name := by
  cases op with
  | define key p =>
    rw [Store.operate, Store.define]
    split
    · exact h
    · split
      · exact (h.assignShared ..).of_scopes rfl
      · exact h
  | set key value =>
    rw [Store.operate, Store.set]
    split
    · exact h
    · exact (h.assignShared ..).of_scopes rfl
  | delete key =>
    rw [Store.operate, Store.delete]
    split
    · exact h
    · split
      · exact h.of_scopes rfl
      · exact h

theorem HasVariable.perform (hvariable : s.HasVariable scope name) (h : s.Heeds kept op)
    (hscope : kept.joined scope) (hshared : s.Shares scope name) :
    (s.perform op).HasVariable scope name := by
  cases op with
  | property id op => exact hvariable.operate id op
  | insert id key p => exact hvariable.of_scopes rfl
  | link id prototype => exact hvariable.of_scopes rfl
  | allocate r => exact hvariable.of_scopes rfl
  | arguments id values callee names => exact hvariable.shareArguments id values callee names
  | assign id other value => exact hvariable.assign id other value
  | bind id other value => exact hvariable.modifyScope fun _ a ha => ha.bind other value
  | declare id names kind =>
    refine hvariable.modifyScope fun heq a ha => ha.declareAll ?_
    subst heq
    exact h.2.2.imp_right fun hfree hmem => hfree name hmem ⟨hscope, hshared⟩
  | copy source target names =>
    rw [Store.perform, copyBindings]
    split
    · exact hvariable
    · refine hvariable.modifyScope fun heq a ha => ha.copied fun hmem => ?_
      subst heq
      exact h.2.2 name hmem ⟨hscope, hshared⟩
  | newScope parent kind => exact hvariable.newScope (some parent) kind
  | selfScope parent own guarded value =>
    obtain ⟨a, ha, hvariable⟩ := hvariable
    refine ⟨a, ?_, hvariable⟩
    exact (s.scope?_selfScope_of_lt _ _ _ _ (scope?_eq_some_iff.mp ⟨a, ha⟩)).trans ha
  | setStrict id strict => exact hvariable.modifyScope fun _ _ ha => ha
  | setKind id kind => exact hvariable.modifyScope fun _ _ ha => ha

theorem Joins.perform (hs : s.Joins kept.joined) (h : s.Heeds kept op) :
    (s.perform op).Joins kept.joined := by
  intro scope name hscope hshared
  rcases h.shares_or hshared with hbefore | hbegins
  · exact (hs scope name hscope hbefore).perform h hscope hbefore
  · cases op with
    | arguments id values callee names =>
      obtain ⟨rfl, hname⟩ := hbegins
      obtain ⟨-, -, a, ha, hfree⟩ := h
      exact hasVariable_shareArguments ha hfree values callee hname
    | _ => exact hbegins.elim

/-- An operation leaves the scopes that are there as they are to be for good. -/
theorem Heeds.retains (h : s.Heeds kept op) : s.Retains (s.perform op) := by
  cases op with
  | property id op => exact .operate s id op
  | arguments id values callee names =>
    obtain ⟨-, hopen, a, ha, -⟩ := h
    have hmade (r : ObjectRecord) : s.Retains (s.allocate r).2 := .of_scopes rfl
    have hmadeOpen (r : ObjectRecord) : (s.allocate r).2.Open id := hopen
    have hbound (object : ObjectId) (r : ObjectRecord) :
        s.Retains (((s.allocate r).2.declare id "arguments" .variable).bind id "arguments"
          (.object object)) :=
      (hmade r).trans (.declareBound (hmadeOpen r) rfl _)
    have hid := scope?_eq_some_iff.mp ⟨a, ha⟩
    exact (hbound _ _).trans (.declareAll ((hbound _ _).isOpen hid hopen) rfl)
  | assign id name value => exact .assign s id name value
  | bind id name value => exact .bind h value
  | declare id names kind => exact .declareAll h.1 h.2.1
  | copy source target names =>
    rw [perform, copyBindings]
    split
    · exact .refl s
    · next origin horigin =>
      exact .modifyScope fun a ha =>
        (h.1.of_scope? horigin).retains_copied (h.2.1.of_scope? ha)
  | newScope parent kind => exact .newScope s (some parent) kind
  | selfScope parent name guarded value =>
    refine ⟨fun id a ha => ⟨a, ?_, .refl a⟩⟩
    exact (s.scope?_selfScope_of_lt _ _ _ _ (scope?_eq_some_iff.mp ⟨a, ha⟩)).trans ha
  | setStrict id strict => exact .modifyScope fun _ _ => .of_bindings rfl rfl rfl
  | setKind id kind => exact .modifyScope fun a ha => .of_bindings rfl (h a ha) rfl
  | _ => exact .of_scopes rfl

/-- New scopes bind no function expression's own name, or bind it for good. -/
theorem Named.perform (hs : s.Named) (h : s.Heeds kept op) : (s.perform op).Named := by
  refine h.retains.named hs fun id a name b hid ha hb => ?_
  have hlt := scope?_eq_some_iff.mp ⟨a, ha⟩
  -- Only two operations make scopes, one each.
  have hsame (hsize : (s.perform op).scopes.size = s.scopes.size) :
      a.Owns name b :=
    absurd (Nat.lt_of_lt_of_eq hlt hsize) (Nat.not_lt.mpr hid)
  cases op with
  | newScope parent kind =>
    rw [Store.perform, scope?_newScope] at ha
    split at ha
    · cases ha
      cases hb
    · exact absurd (scope?_eq_some_iff.mp ⟨a, ha⟩) (Nat.not_lt.mpr hid)
  | selfScope parent own guarded value =>
    rw [Store.perform, size_selfScope] at hlt
    obtain rfl : id = ⟨s.scopes.size⟩ :=
      congrArg ScopeId.mk (Nat.le_antisymm (Nat.le_of_lt_succ hlt) hid)
    rw [Store.perform, scope?_selfScope_self] at ha
    cases ha
    obtain ⟨hbinding, -⟩ := Scope.selfName?_eq_some_iff.mp hb
    rw [NameMap.find?_insert] at hbinding
    split at hbinding
    · next heq =>
      cases hbinding
      exact ⟨rfl, rfl, fun other hother => (eq_of_hasOwn_single hother).trans heq.symm⟩
    · cases hbinding
  | property object op => exact hsame (s.size_operate object op)
  | arguments place values callee names =>
    refine hsame ?_
    simp only [Store.perform, shareArguments, declareAll, Store.bind, declare, size_modifyScope]
    rfl
  | assign place name value => exact hsame (s.size_assign place name value)
  | copy source target names => exact hsame (s.size_copyBindings source target names)
  | bind => exact hsame (size_modifyScope ..)
  | declare => exact hsame (size_modifyScope ..)
  | setStrict => exact hsame (size_modifyScope ..)
  | setKind => exact hsame (size_modifyScope ..)
  | _ => exact hsame rfl

/-! ### One operation after the other -/

def HeedsAll (kept : Watch) (s : Store) : List StoreOperation → Prop
  | [] => True
  | op :: ops => s.Heeds kept op ∧ (s.perform op).HeedsAll kept ops

def performAll (s : Store) (ops : List StoreOperation) : Store := ops.foldl perform s

def ComesBy (kept : Watch) (s s' : Store) : Prop :=
  ∃ ops : List StoreOperation, s.HeedsAll kept ops ∧ s' = s.performAll ops

theorem heedsAll_append {before after : List StoreOperation} :
    s.HeedsAll kept (before ++ after) ↔
      s.HeedsAll kept before ∧ (s.performAll before).HeedsAll kept after := by
  induction before generalizing s with
  | nil => exact (and_iff_right trivial).symm
  | cons op ops ih => exact (and_congr_right fun _ => ih).trans and_assoc.symm

theorem HeedsAll.mono {ops : List StoreOperation} (h : s.HeedsAll kept ops)
    (hjoined : ∀ id, kept'.joined id → kept.joined id)
    (hold : ∀ id, kept'.old id → kept.old id) : s.HeedsAll kept' ops := by
  induction ops generalizing s with
  | nil => trivial
  | cons op ops ih => exact ⟨h.1.mono hjoined hold, ih h.2⟩

theorem HeedsAll.preserved {P : Store → Prop} {ops : List StoreOperation} (h : s.HeedsAll kept ops)
    (hs : P s) (hstep : ∀ s op, s.Heeds kept op → P s → P (s.perform op)) :
    P (s.performAll ops) := by
  induction ops generalizing s with
  | nil => exact hs
  | cons op ops ih => exact ih h.2 (hstep s op h.1 hs)

namespace ComesBy

theorem refl (s : Store) : s.ComesBy kept s := ⟨[], trivial, rfl⟩

theorem trans (h : s.ComesBy kept s') (h' : s'.ComesBy kept s'') : s.ComesBy kept s'' := by
  obtain ⟨ops, hops, rfl⟩ := h
  obtain ⟨ops', hops', rfl⟩ := h'
  exact ⟨ops ++ ops', heedsAll_append.mpr ⟨hops, hops'⟩, List.foldl_append.symm⟩

theorem of_operation (h : s.Heeds kept op) : s.ComesBy kept (s.perform op) :=
  ⟨[op], ⟨h, trivial⟩, rfl⟩

theorem mono (h : s.ComesBy kept s') (hjoined : ∀ id, kept'.joined id → kept.joined id)
    (hold : ∀ id, kept'.old id → kept.old id) : s.ComesBy kept' s' := by
  obtain ⟨ops, hops, heq⟩ := h
  exact ⟨ops, hops.mono hjoined hold, heq⟩

theorem shares (h : s.ComesBy kept s') (hold : kept.old scope) (hshared : s'.Shares scope name) :
    s.Shares scope name := by
  obtain ⟨ops, hops, rfl⟩ := h
  refine hops.preserved (P := fun t => t.Shares scope name → s.Shares scope name) id ?_ hshared
  exact fun _ _ hheeds ih hlater => ih (hheeds.shares hold hlater)

/-- Parameters that are shared in the watched scopes stay variables. -/
theorem joins (h : s.ComesBy kept s') (hs : s.Joins kept.joined) : s'.Joins kept.joined := by
  obtain ⟨ops, hops, rfl⟩ := h
  exact hops.preserved hs fun _ _ hheeds ht => ht.perform hheeds

theorem retains (h : s.ComesBy kept s') : s.Retains s' := by
  obtain ⟨ops, hops, rfl⟩ := h
  exact hops.preserved (.refl s) fun _ _ hheeds ht => ht.trans hheeds.retains

end ComesBy

end Store

end ProtoScript
