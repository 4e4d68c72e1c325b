import ProtoScript.Proofs.Integrity.Operations
import ProtoScript.Proofs.Regime
/-!
# What operations do to scopes

Every operation on the store leaves all scopes that are there as they are but one, and never changes
where a scope stands.  So what a regime keeps of the scopes is settled by looking at that one.  What
refers to scopes are closures and shared parameters, and few operations make any.
-/

namespace ProtoScript

variable {s : Store} {op : StoreOperation} {id place : ScopeId} {f : Scope → Scope}

/-- The second scope stands where the first one stands, and binds all the names that this binds. -/
structure Scope.Follows (a b : Scope) : Prop where
  parent : b.parent = a.parent
  names : ∀ name, a.hasOwn name = true → b.hasOwn name = true

theorem Scope.Follows.refl (a : Scope) : a.Follows a := ⟨rfl, fun _ h => h⟩

theorem Scope.Extends.follows {a b : Scope} (h : a.Extends b) : a.Follows b := ⟨h.parent, h.names⟩

inductive StoreOperation.Changes (s : Store) : StoreOperation → ScopeId → (Scope → Scope) → Prop
  /-- No name is bound anew. -/
  | none {op : StoreOperation} {place : ScopeId} {f : Scope → Scope}
    (bindings : ∀ a, (f a).bindings = a.bindings) : Changes s op place f
  /-- A parameter is written that a property of an object shares. -/
  | shared {object : ObjectId} {op : PropertyOperation} {scope holder : ScopeId} {name : String}
    {value : Value} {b written : Binding} (shares : s.Shares scope name)
    (resolved : s.resolve? scope name = some (holder, b)) (allowed : b.write value = .ok written) :
    Changes s (.property object op) holder
      fun a => { a with bindings := a.bindings.insert name written }
  | assigned {scope holder : ScopeId} {name : String} {value : Value} {b written : Binding}
    (resolved : s.resolve? scope name = some (holder, b)) (allowed : b.write value = .ok written) :
    Changes s (.assign scope name value) holder
      fun a => { a with bindings := a.bindings.insert name written }
  | bound {id : ScopeId} {name : String} {value : Value} :
    Changes s (.bind id name value) id fun a => a.bind name value
  | declared {id : ScopeId} {names : List String} {kind : BindingKind} :
    Changes s (.declare id names kind) id
      fun a => names.foldl (fun a name => a.declare name kind) a
  | copied {source target : ScopeId} {names : List String} {f : Scope → Scope} :
    Changes s (.copy source target names) target f
  | arguments {id : ScopeId} {values : List Value} {callee : Value} {names : List String}
    {f : Scope → Scope} : Changes s (.arguments id values callee names) id f

namespace Store

/-- An assignment changes nothing or writes the binding that the name resolves to. -/
theorem assign_cases (s : Store) (scope : ScopeId) (name : String) (value : Value) :
    (s.assign scope name value).2 = s ∨
    ∃ holder b written, s.resolve? scope name = some (holder, b) ∧
      b.write value = .ok written ∧
      (s.assign scope name value).2 = s.modifyScope holder
        fun a => { a with bindings := a.bindings.insert name written } := by
  unfold assign
  split
  · exact .inl rfl
  · next holder b hresolved =>
    cases hwrite : b.write value with
    | error e => exact .inl rfl
    | ok written => exact .inr ⟨holder, b, written, hresolved, hwrite, rfl⟩

/-- An operation on properties touches scopes only by writing a shared parameter. -/
theorem scopes_operate (s : Store) (id : ObjectId) (op : PropertyOperation) :
    (s.operate id op).2.scopes = s.scopes ∨
    ∃ scope name value, s.Shares scope name ∧
      (s.operate id op).2.scopes = (s.assign scope name value).2.scopes := by
  have hassign {r : ObjectRecord} (hr : s.object? id = some r) (key : String) (value : Value) :
      (s.assignShared r key value).scopes = s.scopes ∨
      ∃ scope name value', s.Shares scope name ∧
        (s.assignShared r key value).scopes = (s.assign scope name value').2.scopes := by
    unfold assignShared
    split
    · next scope name hshared =>
      exact .inr ⟨scope, name, value, ⟨id, key, (joined?_of_object? hr key).trans hshared⟩, rfl⟩
    · exact .inl rfl
  cases op with
  | define key p =>
    rw [operate, Store.define]
    split
    · exact .inl rfl
    · next r hr =>
      split
      · exact hassign hr key p.value
      · exact .inl rfl
  | set key value =>
    rw [operate, Store.set]
    split
    · exact .inl rfl
    · next r hr => exact hassign hr key value
  | delete key =>
    rw [operate, Store.delete]
    split
    · exact .inl rfl
    · split <;> exact .inl rfl

def ChangesOne (s : Store) (op : StoreOperation) : Prop :=
  ∃ place f, op.Changes s place f ∧ (∀ a : Scope, a.Follows (f a)) ∧
    ∀ id : ScopeId, id.index < s.scopes.size → (s.perform op).scope? id =
      if id = place then (s.scope? id).map f else s.scope? id

theorem changesOne_of_same
    (h : ∀ id : ScopeId, id.index < s.scopes.size → (s.perform op).scope? id = s.scope? id) :
    s.ChangesOne op :=
  ⟨.global, id, .none fun _ => rfl, .refl, fun place hplace => by
    rw [h place hplace, Option.map_id_fun, id, ite_self]⟩

theorem changesOne_of_scopes (h : (s.perform op).scopes = s.scopes) :
    s.ChangesOne op :=
  changesOne_of_same fun id _ => by rw [scope?, h, scope?]

/-- An assignment writes a binding of the scope that the name resolves to. -/
theorem changesOne_of_assign {scope : ScopeId} {name : String} {value : Value}
    (hscopes : (s.perform op).scopes = (s.assign scope name value).2.scopes)
    (hchanges : ∀ {holder : ScopeId} {b written : Binding},
      s.resolve? scope name = some (holder, b) → b.write value = .ok written →
        op.Changes s holder fun a => { a with bindings := a.bindings.insert name written }) :
    s.ChangesOne op := by
  obtain hnone | ⟨holder, b, written, hresolved, hwrite, heq⟩ := s.assign_cases scope name value
  · exact changesOne_of_scopes (hscopes.trans (congrArg Store.scopes hnone))
  · refine ⟨holder, _, hchanges hresolved hwrite,
      fun a => (a.extends_insert name written).follows, fun id _ => ?_⟩
    rw [scope?, hscopes, heq]
    exact scope?_modifyScope ..

theorem exists_copyBindings {source : ScopeId} {origin : Scope}
    (horigin : s.scope? source = some origin) (target : ScopeId) (names : List String) :
    ∃ f, s.copyBindings source target names = s.modifyScope target f ∧
      ∀ a : Scope, a.Follows (f a) := by
  rw [copyBindings, horigin]
  exact ⟨_, rfl, fun a => (Store.extends_copied names origin a).follows⟩

theorem exists_scope?_perform (s : Store) (op : StoreOperation) : s.ChangesOne op := by
  cases op with
  | property object op =>
    obtain hnone | ⟨scope, name, value, hshares, hassign⟩ := s.scopes_operate object op
    · exact changesOne_of_scopes hnone
    · exact changesOne_of_assign hassign (.shared hshares)
  | assign scope name value => exact changesOne_of_assign rfl .assigned
  | bind place name value =>
    exact ⟨place, _, .bound, fun a => (a.extends_bind name value).follows,
      fun id _ => scope?_modifyScope ..⟩
  | declare place names kind =>
    exact ⟨place, _, .declared, fun a => (a.extends_declareAll names kind).follows,
      fun id _ => scope?_modifyScope ..⟩
  | copy source target names =>
    cases horigin : s.scope? source with
    | none =>
      refine changesOne_of_scopes ?_
      rw [perform, copyBindings, horigin]
    | some origin =>
      obtain ⟨f, hf, hfollows⟩ := exists_copyBindings horigin target names
      refine ⟨target, f, .copied, hfollows, fun id _ => ?_⟩
      rw [perform, hf]
      exact scope?_modifyScope ..
  | arguments place values callee names =>
    refine ⟨place, _, .arguments, fun a => ?_,
      fun id _ => s.scope?_shareArguments place values callee names id⟩
    exact ((a.extends_declare ..).trans ((Scope.extends_bind ..).trans
      (Scope.extends_declareAll ..))).follows
  | newScope parent kind =>
    exact changesOne_of_same fun id hid => by
      rw [perform, scope?_newScope, if_neg (Nat.ne_of_lt hid)]
  | selfScope parent name guarded value =>
    exact changesOne_of_same fun id hid => s.scope?_selfScope_of_lt parent name guarded value hid
  | setStrict place strict =>
    exact ⟨place, fun a => { a with strict }, .none fun _ => rfl, fun _ => ⟨rfl, fun _ h => h⟩,
      fun id _ => scope?_modifyScope ..⟩
  | setKind place kind =>
    exact ⟨place, fun a => { a with kind }, .none fun _ => rfl, fun _ => ⟨rfl, fun _ h => h⟩,
      fun id _ => scope?_modifyScope ..⟩
  | insert => exact changesOne_of_scopes rfl
  | link => exact changesOne_of_scopes rfl
  | allocate => exact changesOne_of_scopes rfl

theorem exists_follows_perform (s : Store) (op : StoreOperation) {a : Scope}
    (ha : s.scope? id = some a) : ∃ b, (s.perform op).scope? id = some b ∧ a.Follows b := by
  obtain ⟨place, f, -, hfollows, hscopes⟩ := s.exists_scope?_perform op
  rw [hscopes id (scope?_eq_some_iff.mp ⟨a, ha⟩), ha]
  split
  · exact ⟨f a, rfl, hfollows a⟩
  · exact ⟨a, rfl, .refl a⟩

theorem size_le_perform (s : Store) (op : StoreOperation) :
    s.scopes.size ≤ (s.perform op).scopes.size := by
  rcases Nat.eq_zero_or_pos s.scopes.size with hzero | hpos
  · rw [hzero]
    exact Nat.zero_le _
  · -- The last scope is still there.
    have hlast : (⟨s.scopes.size - 1⟩ : ScopeId).index < s.scopes.size :=
      Nat.sub_lt hpos Nat.one_pos
    obtain ⟨a, ha⟩ := scope?_eq_some_iff.mpr hlast
    obtain ⟨b, hb, -⟩ := s.exists_follows_perform op ha
    have hlt := scope?_eq_some_iff.mp ⟨b, hb⟩
    dsimp only at hlt
    omega

theorem parent?_perform (s : Store) (op : StoreOperation) (hid : id.index < s.scopes.size) :
    (s.perform op).parent? id = s.parent? id := by
  obtain ⟨a, ha⟩ := scope?_eq_some_iff.mpr hid
  obtain ⟨b, hb, hfollows⟩ := s.exists_follows_perform op ha
  unfold parent?
  rw [ha, hb]
  exact hfollows.parent

theorem hasOwnBinding_perform (s : Store) (op : StoreOperation) {name : String}
    (h : s.hasOwnBinding id name = true) : (s.perform op).hasOwnBinding id name = true := by
  unfold hasOwnBinding at h ⊢
  obtain ⟨a, ha, hown⟩ := (Option.any_eq_true _ _).mp h
  obtain ⟨b, hb, hfollows⟩ := s.exists_follows_perform op ha
  rw [hb]
  exact hfollows.names name hown

/-! ### What refers to scopes -/

theorem hasClosure_perform {d : FunctionDef} {scope : ScopeId}
    (h : (s.perform op).HasClosure d scope) :
    s.HasClosure d scope ∨ ∃ r, op = .allocate r ∧ r.callable = some (.closure d scope) := by
  obtain ⟨other, r, hr, hcallable⟩ := h
  obtain ⟨made, hmade, hobjects⟩ | ⟨id, f, hf, hobjects⟩ := s.exists_object?_perform op
  · rw [hobjects] at hr
    split at hr
    · cases hr
      rcases hmade with rfl | ⟨id, values, callee, names, rfl, rfl⟩
      · exact .inr ⟨r, rfl, hcallable⟩
      · cases hcallable
    · exact .inl ⟨other, r, hr, hcallable⟩
  · rw [hobjects] at hr
    obtain ⟨before, hbefore, rfl | ⟨-, rfl⟩⟩ := exists_of_ite_map hr
    · exact .inl ⟨other, _, hbefore, hcallable⟩
    · exact .inl ⟨other, before, hbefore, (hf before).callable ▸ hcallable⟩

theorem shares_perform {scope : ScopeId} {name : String} (h : (s.perform op).Shares scope name) :
    s.Shares scope name ∨
    (∃ r key, op = .allocate r ∧ r.sharedParameters.find? key = some (scope, name)) ∨
    ∃ values callee names, op = .arguments scope values callee names ∧ name ∈ names := by
  obtain ⟨other, key, hkey⟩ := h
  obtain ⟨r, hr, hfound⟩ := Option.bind_eq_some_iff.mp hkey
  obtain ⟨made, hmade, hobjects⟩ | ⟨id, f, hf, hobjects⟩ := s.exists_object?_perform op
  · rw [hobjects] at hr
    split at hr
    · cases hr
      rcases hmade with rfl | ⟨id, values, callee, names, rfl, rfl⟩
      · exact .inr (.inl ⟨r, key, rfl, hfound⟩)
      · obtain ⟨_, _, -, heq, -, hlast⟩ := of_find?_sharedParameters hfound
        cases heq
        exact .inr (.inr ⟨values, callee, names, rfl, hlast.mem⟩)
    · exact .inl ⟨other, key, (joined?_of_object? hr key).trans hfound⟩
  · rw [hobjects] at hr
    obtain ⟨before, hbefore, rfl | ⟨-, rfl⟩⟩ := exists_of_ite_map hr
    · exact .inl ⟨other, key, (joined?_of_object? hbefore key).trans hfound⟩
    · exact .inl ⟨other, key, (joined?_of_object? hbefore key).trans
        ((hf before).less key _ hfound)⟩

end Store

end ProtoScript
