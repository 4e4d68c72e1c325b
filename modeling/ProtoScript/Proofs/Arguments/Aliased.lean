import ProtoScript.Builtin.Object
import ProtoScript.Proofs.Integrity.Intact
import ProtoScript.Proofs.Slots.Writes
/-!
# Properties that share a parameter

What the two have to do with each other, and for how long.
-/

namespace ProtoScript

/-!
### Properties and the parameters they share

A property that shares a parameter which is a variable reads as the parameter, and whatever is
written to one of them is read from the other.  A property that shares none has nothing to do with
scopes.
-/

namespace Store

variable {J : ScopeId → Prop} {s s' : Store} {id : ObjectId} {r : ObjectRecord} {key : String}
  {scope : ScopeId} {name : String} {value : Value} {p : DataProperty}

/-- The property and the parameter are one: each reads as the other, and takes what is written to
the other. -/
structure Aliased (s : Store) (id : ObjectId) (key : String) (scope : ScopeId) (name : String) :
    Prop where
  read : s.lookup? scope name = some (s.get id key)
  set : ∀ value, (s.set id key value).1 = true ∧
    (s.set id key value).2.lookup? scope name = some value ∧
    (s.set id key value).2.get id key = value
  define : ∀ p, (s.define id key p).1 = true →
    (s.define id key p).2.lookup? scope name = some p.value ∧
    (s.define id key p).2.get id key = p.value
  assign : ∀ place b value, s.resolve? place name = some (scope, b) →
    (s.assign place name value).1 = .ok () ∧ (s.assign place name value).2.get id key = value
  bind : ∀ value, (s.bind scope name value).get id key = value
  /-- What a definition leaves open is the value that the property has. -/
  described : ∀ attributes, s.property? attributes "value" = none →
    (s.describedProperty attributes ((s.ownProperty? id key).getD (.fixed .undefined))).value =
      s.get id key
  /-- A property that is made read-only is the one that is given. -/
  fixed : ∀ p, (s.define id key p).1 = true → p.writable = false →
    (s.define id key p).2.ownProperty? id key = some p

/-- The property shares nothing: what is done to it leaves the scopes as they are, and what is done
to the scopes leaves it as it is. -/
structure Apart (s : Store) (id : ObjectId) (key : String) : Prop where
  parameters : ∀ op : PropertyOperation, op.key = key → (s.operate id op).2.scopes = s.scopes
  property : ∀ s' : Store, s'.objects = s.objects → s'.ownProperty? id key = s.ownProperty? id key

/-- Where a parameter is shared in the scopes, it is a variable and one with the property. -/
structure Aliases (J : ScopeId → Prop) (s : Store) : Prop where
  joins : s.Joins J
  joined : ∀ id key scope name, J scope → s.joined? id key = some (scope, name) →
    s.Aliased id key scope name
  apart : ∀ id key, s.joined? id key = none → s.Apart id key

/-! ### Variables -/

theorem HasVariable.resolve? (h : s.HasVariable scope name) :
    ∃ b, s.resolve? scope name = some (scope, b) ∧ b.IsVariable := by
  obtain ⟨b, hb, hvariable⟩ := h.binding?
  exact ⟨b, resolve?_of_binding? hb, hvariable⟩

theorem HasVariable.lookup? (h : s.HasVariable scope name) :
    ∃ value, s.lookup? scope name = some value := by
  obtain ⟨b, hb, hvariable⟩ := h.resolve?
  refine ⟨b.value, ?_⟩
  rw [Store.lookup?, lookup, hb]
  simp only [Binding.read, hvariable.initialized, if_true]
  rfl

theorem HasVariable.takesValues (h : s.HasVariable scope name) : s.TakesValues scope name := by
  obtain ⟨b, hb, hvariable⟩ := h.resolve?
  exact ⟨scope, b, hb, hvariable.initialized, .inl hvariable.kind⟩

/-- Where an assignment goes depends on nothing but what the name resolves to. -/
theorem assign_congr {place : ScopeId} (h : s.resolve? place name = s.resolve? scope name)
    (value : Value) : s.assign place name value = s.assign scope name value := by
  unfold Store.assign
  rw [h]

theorem HasVariable.lookup?_bind (h : s.HasVariable scope name) (value : Value) :
    (s.bind scope name value).lookup? scope name = some value := by
  obtain ⟨a, ha, b, hb, -⟩ := h
  have hbinding : (s.bind scope name value).binding? scope name = some ⟨value, b.kind, true⟩ := by
    unfold Store.bind
    rw [binding?_modifyScope, if_pos rfl, ha, Option.bind_some, Scope.bind]
    dsimp only
    rw [NameMap.find?_insert, if_pos rfl, hb]
    rfl
  rw [Store.lookup?, lookup, resolve?_of_binding? hbinding]
  rfl

/-! ### A property that shares a parameter -/

theorem joined?_of_objects (h : s'.objects = s.objects) (id : ObjectId) (key : String) :
    s'.joined? id key = s.joined? id key := by
  unfold joined? object?
  rw [h]

theorem exists_of_joined? {shared : ScopeId × String} (h : s.joined? id key = some shared) :
    ∃ r, s.object? id = some r ∧ r.sharedParameters.find? key = some shared :=
  Option.bind_eq_some_iff.mp h

/-- What shares a parameter has a writable slot, and reads as the parameter. -/
theorem WellShared.ownProperty?_of_joined (hs : s.WellShared)
    (h : s.joined? id key = some (scope, name)) (hvalue : s.lookup? scope name = some value) :
    ∃ r p, s.object? id = some r ∧ r.slots.find? key = some p ∧ p.writable = true ∧
      s.ownProperty? id key = some { p with value } := by
  obtain ⟨r, hr, hkey⟩ := exists_of_joined? h
  obtain ⟨p, hslot, hwritable⟩ :=
    (hs id r hr).linked key (by rw [hkey]; exact Option.some_ne_none _)
  refine ⟨r, p, hr, hslot, hwritable, ?_⟩
  have hshared : s.sharedValue? r key = some value := by
    unfold sharedValue?
    rw [hkey]
    exact hvalue
  rw [ownProperty?_of_object? hr, ObjectRecord.ownProperty?_of_slot hslot, hshared]
  rfl

theorem WellShared.get_of_joined (hs : s.WellShared) (h : s.joined? id key = some (scope, name))
    (hvalue : s.lookup? scope name = some value) : s.get id key = value := by
  obtain ⟨r, p, -, -, -, hown⟩ := hs.ownProperty?_of_joined h hvalue
  exact get_of_ownProperty? hown

theorem HasVariable.lookup?_assignShared (h : s.HasVariable scope name)
    (hkey : r.sharedParameters.find? key = some (scope, name)) (value : Value)
    (f : ObjectRecord → ObjectRecord) :
    ((s.assignShared r key value).modifyObject id f).lookup? scope name = some value := by
  rw [lookup?_modifyObject, Store.assignShared, hkey]
  exact lookup?_assign h.takesValues value

/-- Assigning to a shared property always goes through, and the parameter takes the value. -/
theorem WellShared.set_joined (hs : s.WellShared) (h : s.joined? id key = some (scope, name))
    (hvariable : s.HasVariable scope name) (value : Value) :
    (s.set id key value).1 = true ∧ (s.set id key value).2.lookup? scope name = some value ∧
      (s.set id key value).2.get id key = value := by
  obtain ⟨before, hbefore⟩ := hvariable.lookup?
  obtain ⟨r, p, hr, hslot, hwritable, -⟩ := hs.ownProperty?_of_joined h hbefore
  have hkey : r.sharedParameters.find? key = some (scope, name) :=
    (joined?_of_object? hr key).symm.trans h
  obtain ⟨inherited, hfst, hsnd⟩ := set_eq hr key value
  have hslot' : r.assignment inherited key value = .slot := by
    unfold ObjectRecord.assignment
    rw [hslot]
    exact if_pos hwritable
  rw [hslot'] at hfst hsnd
  have hlookup : (s.set id key value).2.lookup? scope name = some value := by
    rw [hsnd]
    exact hvariable.lookup?_assignShared hkey value _
  have hafter : (s.set id key value).2.object? id = some (r.assign key value .slot) := by
    rw [hsnd]
    exact object?_modifyObject_self (by rw [object?_assignShared, hr]) _
  have hjoined : (s.set id key value).2.joined? id key = some (scope, name) := by
    rw [joined?_of_object? hafter, ObjectRecord.assign, hslot]
    exact hkey
  have hheeds : s.Heeds (.first 0) (.property id (.set key value)) := trivial
  have hshared : (s.set id key value).2.WellShared := hs.perform hheeds
  exact ⟨hfst, hlookup, hshared.get_of_joined hjoined hlookup⟩

theorem define_of_admitted (hr : s.object? id = some r) (h : (s.define id key p).1 = true) :
    (s.define id key p).2 =
      (s.assignShared r key p.value).modifyObject id fun r => r.define key p := by
  rw [define_fst hr] at h
  unfold Store.define
  rw [hr]
  exact congrArg Prod.snd (if_pos h)

/-- A property that is defined as read-only is the one that is given, and shares nothing. -/
theorem ownProperty?_define_readOnly (hr : s.object? id = some r)
    (h : (s.define id key p).1 = true) (hreadOnly : p.writable = false) :
    (s.define id key p).2.ownProperty? id key = some p := by
  have hafter : (s.define id key p).2.object? id = some (r.define key p) := by
    rw [define_of_admitted hr h]
    exact object?_modifyObject_self (by rw [object?_assignShared, hr]) _
  have hplain : r.makesElement key p = false := by
    simp [ObjectRecord.makesElement, DataProperty.isPlain, hreadOnly]
  have hslot : (r.define key p).slots.find? key = some p := by
    simp [ObjectRecord.define_eq, hplain, OrderedMap.find?_insert]
  have hunshared : (r.define key p).sharedParameters.find? key = none := by
    simp [ObjectRecord.define_eq, hreadOnly, NameMap.find?_erase]
  rw [ownProperty?_of_object? hafter, ObjectRecord.ownProperty?_of_slot hslot,
    sharedValue?_of_unshared hunshared]
  rfl

/-- Defining a shared property gives the parameter the value, even if they part with that. -/
theorem WellShared.define_joined (hs : s.WellShared) (h : s.joined? id key = some (scope, name))
    (hvariable : s.HasVariable scope name) (hadmitted : (s.define id key p).1 = true) :
    (s.define id key p).2.lookup? scope name = some p.value ∧
      (s.define id key p).2.get id key = p.value := by
  obtain ⟨r, hr, hkey⟩ := exists_of_joined? h
  have hlookup : (s.define id key p).2.lookup? scope name = some p.value := by
    rw [define_of_admitted hr hadmitted]
    exact hvariable.lookup?_assignShared hkey p.value _
  refine ⟨hlookup, ?_⟩
  cases hwritable : p.writable with
  | false => exact get_of_ownProperty? (ownProperty?_define_readOnly hr hadmitted hwritable)
  | true =>
    have hafter : (s.define id key p).2.object? id = some (r.define key p) := by
      rw [define_of_admitted hr hadmitted]
      exact object?_modifyObject_self (by rw [object?_assignShared, hr]) _
    have hjoined : (s.define id key p).2.joined? id key = some (scope, name) := by
      rw [joined?_of_object? hafter, ObjectRecord.define_eq]
      simp only [hwritable, if_true]
      exact hkey
    have hheeds : s.Heeds (.first 0) (.property id (.define key p)) := trivial
    have hshared : (s.define id key p).2.WellShared := hs.perform hheeds
    exact hshared.get_of_joined hjoined hlookup

theorem WellShared.aliased (hs : s.WellShared) (h : s.joined? id key = some (scope, name))
    (hvariable : s.HasVariable scope name) : s.Aliased id key scope name := by
  obtain ⟨before, hbefore⟩ := hvariable.lookup?
  have hget := hs.get_of_joined h hbefore
  -- Whatever is done to scopes, the property goes on reading as the parameter.
  have hreads (s' : Store) (hobjects : s'.objects = s.objects) (value : Value)
      (hvalue : s'.lookup? scope name = some value) : s'.get id key = value := by
    have hshared : s'.WellShared := hs.of_objects hobjects
    exact hshared.get_of_joined ((joined?_of_objects hobjects id key).trans h) hvalue
  refine ⟨hget ▸ hbefore, hs.set_joined h hvariable, fun p => hs.define_joined h hvariable,
    fun place b value hplace => ?_,
    fun value => hreads (s.bind scope name value) rfl value (hvariable.lookup?_bind value),
    fun attributes hopen => ?_, fun p hadmitted hreadOnly => ?_⟩
  · obtain ⟨c, hc, hkind⟩ := hvariable.resolve?
    have hsame : s.resolve? place name = s.resolve? scope name := by
      obtain ⟨d, hd, -⟩ := hvariable.binding?
      rw [hplace, resolve?_of_binding? (binding?_of_resolve? hplace)]
    rw [assign_congr hsame]
    refine ⟨?_, hreads _ (s.objects_assign ..) value (lookup?_assign hvariable.takesValues value)⟩
    unfold Store.assign
    simp only [hc, hkind.write_eq]
  · obtain ⟨r, p, -, -, -, hown⟩ := hs.ownProperty?_of_joined h hbefore
    unfold describedProperty
    rw [hopen, hown, hget]
    rfl
  · obtain ⟨r, hr, -⟩ := exists_of_joined? h
    exact ownProperty?_define_readOnly hr hadmitted hreadOnly

/-! ### A property that shares nothing -/

theorem apart_of_unjoined (h : s.joined? id key = none) : s.Apart id key := by
  have hunshared {r : ObjectRecord} (hr : s.object? id = some r) :
      r.sharedParameters.find? key = none := (joined?_of_object? hr key).symm.trans h
  refine ⟨?_, fun s' hobjects => ?_⟩
  · rintro op rfl
    cases hr : s.object? id with
    | none => cases op <;> simp only [operate, Store.define, Store.set, Store.delete, hr]
    | some r =>
      have hsame (value : Value) : (s.assignShared r op.key value).scopes = s.scopes := by
        rw [assignShared_of_unshared (hunshared hr)]
      cases op with
      | define key p =>
        simp only [operate, Store.define, hr]
        split
        · exact hsame p.value
        · rfl
      | set key value =>
        simp only [operate, Store.set, hr]
        exact hsame value
      | delete key =>
        simp only [operate, Store.delete, hr]
        split <;> rfl
  · have hobject : s'.object? id = s.object? id := by
      unfold object?
      rw [hobjects]
    cases hr : s.object? id with
    | none => simp only [ownProperty?, hobject, hr, Option.bind_none]
    | some r =>
      rw [ownProperty?_of_object? (hobject.trans hr), ownProperty?_of_object? hr,
        sharedValue?_of_unshared (hunshared hr), sharedValue?_of_unshared (hunshared hr)]

theorem Joins.aliases (hjoins : s.Joins J) (hs : s.WellShared) : s.Aliases J where
  joins := hjoins
  joined id key scope name hscope h := hs.aliased h (hjoins scope name hscope ⟨id, key, h⟩)
  apart _ _ := apart_of_unjoined

end Store

/-!
### How long a property shares its parameter

Programs change the store by one operation after the other.  A property shares its parameter until
an operation deletes the property or makes it read-only, and no operation makes it share one again;
meanwhile the two are one at every store on the way.
-/

/-- Whether an operation deletes the property or makes it read-only, if it goes through. -/
def PropertyOperation.severs : PropertyOperation → Bool
  | .define _ p => !p.writable
  | .set _ _ => false
  | .delete _ => true

namespace ObjectRecord

variable {r : ObjectRecord} {key other : String}

/-- A definition ends sharing just if it makes the property read-only. -/
theorem find?_sharedParameters_define (r : ObjectRecord) (other : String) (p : DataProperty)
    (key : String) : (r.define other p).sharedParameters.find? key =
      if other = key ∧ p.writable = false then none else r.sharedParameters.find? key := by
  rw [define_eq]
  cases p.writable with
  | true => simp
  | false => simp [NameMap.find?_erase, eq_comm]

/-- What is deleted shares nothing: what shares a parameter has a slot. -/
theorem Linked.find?_sharedParameters_delete (h : r.Linked) (other key : String) :
    (r.delete other).sharedParameters.find? key =
      if other = key then none else r.sharedParameters.find? key := by
  cases hslot : r.slots.find? other with
  | some p => simp [delete_of_slot hslot, NameMap.find?_erase, eq_comm]
  | none =>
    rw [delete_of_no_slot hslot]
    by_cases heq : other = key
    · subst heq
      rw [if_pos rfl]
      exact h.find?_eq_none fun p hp => by cases hslot.symm.trans hp
    · rw [if_neg heq]

end ObjectRecord

namespace Store

variable {kept : Watch} {s s' : Store} {op : StoreOperation} {id : ObjectId} {key : String}
  {scope : ScopeId} {name : String} {shared : ScopeId × String}

/-! ### One operation -/

/-- An operation on a property ends sharing if it goes through and severs the property. -/
theorem WellShared.joined?_operate (hs : s.WellShared) (hid : id.index < s.objects.size)
    (op : PropertyOperation) (key : String) : (s.operate id op).2.joined? id key =
      if op.key = key ∧ (s.operate id op).1 = true ∧ op.severs = true then none
      else s.joined? id key := by
  obtain ⟨r, hr⟩ := object?_eq_some_iff.mpr hid
  cases op with
  | define other p =>
    cases hadmitted : (s.define id other p).1 with
    | false => simp [operate, define_eq_of_refused hadmitted, hadmitted]
    | true =>
      have hafter : (s.define id other p).2.object? id = some (r.define other p) := by
        rw [define_of_admitted hr hadmitted]
        exact object?_modifyObject_self (by rw [object?_assignShared, hr]) _
      rw [operate, joined?_of_object? hafter, joined?_of_object? hr,
        r.find?_sharedParameters_define]
      simp [PropertyOperation.key, PropertyOperation.severs, hadmitted]
  | set other value =>
    obtain ⟨inherited, -, hsnd⟩ := set_eq hr other value
    have hafter : (s.set id other value).2.object? id =
        some (r.assign other value (r.assignment inherited other value)) := by
      rw [hsnd]
      exact object?_modifyObject_self (by rw [object?_assignShared, hr]) _
    rw [operate, joined?_of_object? hafter, joined?_of_object? hr,
      sharedParameters_assigned (r.assigned_assign inherited other value)]
    simp [PropertyOperation.severs]
  | delete other =>
    cases hadmitted : (s.delete id other).1 with
    | false => simp [operate, delete_eq_of_refused hadmitted, hadmitted]
    | true =>
      have hafter : (s.delete id other).2.object? id = some (r.delete other) := by
        have hmay := hadmitted
        rw [delete_fst hr] at hmay
        rw [Store.delete, hr]
        simp only [hmay, if_true]
        exact object?_modifyObject_self hr _
      rw [operate, joined?_of_object? hafter, joined?_of_object? hr,
        (hs id r hr).linked.find?_sharedParameters_delete]
      simp [PropertyOperation.key, PropertyOperation.severs, hadmitted]

theorem joined?_of_object?_eq (h : s'.object? id = s.object? id) (key : String) :
    s'.joined? id key = s.joined? id key := by
  unfold joined?
  rw [h]

theorem joined?_modifyObject (id target : ObjectId) (key : String) {f : ObjectRecord → ObjectRecord}
    (hf : ∀ r, (f r).sharedParameters = r.sharedParameters) :
    (s.modifyObject target f).joined? id key = s.joined? id key := by
  unfold joined?
  rw [object?_modifyObject]
  split
  · cases s.object? id with
    | none => rfl
    | some r => exact congrArg (fun m => NameMap.find? m key) (hf r)
  · rfl

/-- The operation goes through, and deletes the property or makes it read-only. -/
def Severs (s : Store) (id : ObjectId) (key : String) : StoreOperation → Prop
  | .property target op =>
    target = id ∧ op.key = key ∧ (s.operate id op).1 = true ∧ op.severs = true
  | _ => False

/-- A property shares what it did before the operation, unless that severs it. -/
theorem WellShared.joined?_perform (hs : s.WellShared) (hid : id.index < s.objects.size)
    (op : StoreOperation) :
    (s.perform op).joined? id key = some shared ↔
      s.joined? id key = some shared ∧ ¬ s.Severs id key op := by
  have hsame {s' : Store} (h : s'.joined? id key = s.joined? id key) :
      s'.joined? id key = some shared ↔ s.joined? id key = some shared ∧ ¬ False := by
    rw [h, and_iff_left not_false]
  cases op with
  | property target op =>
    rw [Store.perform]
    by_cases htarget : target = id
    · subst htarget
      rw [hs.joined?_operate hid, ite_eq_iff]
      simp [Severs]
      tauto
    · rw [joined?_of_object?_eq (object?_operate_of_ne (Ne.symm htarget) op)]
      simp [Severs, htarget]
  | insert target other p => exact hsame (joined?_modifyObject id target key fun _ => rfl)
  | link target prototype => exact hsame (joined?_modifyObject id target key fun _ => rfl)
  | allocate r =>
    have hbefore : (s.allocate r).2.object? id = s.object? id := by
      rw [object?_allocate, if_neg (Nat.ne_of_lt hid)]
    exact hsame (joined?_of_object?_eq hbefore key)
  | arguments scope values callee names =>
    have hbefore : (s.shareArguments scope values callee names).object? id = s.object? id := by
      rw [object?_shareArguments, if_neg (Nat.ne_of_lt hid)]
    exact hsame (joined?_of_object?_eq hbefore key)
  | assign scope name value => exact hsame (joined?_of_objects (s.objects_assign ..) id key)
  | copy source target names => exact hsame (joined?_of_objects (s.objects_copyBindings ..) id key)
  | _ => exact hsame (joined?_of_objects rfl id key)

theorem Heeds.lt_perform (h : s.Heeds kept op) (hid : id.index < s.objects.size) :
    id.index < (s.perform op).objects.size := by
  obtain ⟨r, hr⟩ := object?_eq_some_iff.mpr hid
  refine object?_eq_some_iff.mp ?_
  obtain ⟨made, -, -, hobjects⟩ | ⟨target, f, -, hobjects⟩ := h.exists_object?_perform
  · refine ⟨r, ?_⟩
    rw [hobjects, if_neg (Nat.ne_of_lt hid), hr]
  · rw [hobjects, hr]
    split
    · exact ⟨f r, rfl⟩
    · exact ⟨r, rfl⟩

/-! ### One operation after the other -/

def NeverSevered (s : Store) (id : ObjectId) (key : String) : List StoreOperation → Prop
  | [] => True
  | op :: ops => ¬ s.Severs id key op ∧ (s.perform op).NeverSevered id key ops

/-- A property shares what it did at the beginning, as long as it is not severed. -/
theorem WellShared.joined?_performAll (hs : s.WellShared) (hid : id.index < s.objects.size)
    {ops : List StoreOperation} (hops : s.HeedsAll kept ops) :
    (s.performAll ops).joined? id key = some shared ↔
      s.joined? id key = some shared ∧ s.NeverSevered id key ops := by
  induction ops generalizing s with
  | nil => exact (and_iff_left trivial).symm
  | cons op ops ih =>
    have hstep : (s.perform op).joined? id key = some shared ↔ _ := hs.joined?_perform hid op
    have hrest := ih (hs.perform hops.1) (hops.1.lt_perform hid) hops.2
    rw [performAll, List.foldl_cons, ← performAll, hrest, hstep, NeverSevered, and_assoc]

/-- The second store comes from the first by operations.  At every store on the way, the parameters
that are shared in the scopes are one with the properties that share them, and from then on a
property shares what it does just until it is severed. -/
def StaysAliased (J : ScopeId → Prop) (s s' : Store) : Prop :=
  ∃ ops : List StoreOperation, s' = s.performAll ops ∧
    ∀ before during after, ops = before ++ during ++ after →
      (s.performAll before).Aliases J ∧
      ∀ id key shared, id.index < (s.performAll before).objects.size →
        ((s.performAll (before ++ during)).joined? id key = some shared ↔
          (s.performAll before).joined? id key = some shared ∧
            (s.performAll before).NeverSevered id key during)

theorem ComesBy.staysAliased (h : s.ComesBy kept s') (hs : s.WellShared)
    (hjoins : s.Joins kept.joined) : s.StaysAliased kept.joined s' := by
  obtain ⟨ops, hops, rfl⟩ := h
  refine ⟨ops, rfl, ?_⟩
  rintro before during after rfl
  obtain ⟨hsofar, -⟩ := heedsAll_append.mp hops
  obtain ⟨hbefore, hduring⟩ := heedsAll_append.mp hsofar
  have hshared : (s.performAll before).WellShared :=
    hbefore.preserved hs fun _ _ hheeds ht => ht.perform hheeds
  have hjoined : (s.performAll before).Joins kept.joined :=
    hbefore.preserved hjoins fun _ _ hheeds ht => ht.perform hheeds
  refine ⟨hjoined.aliases hshared, fun id key shared hid => ?_⟩
  have happend : s.performAll (before ++ during) = (s.performAll before).performAll during :=
    List.foldl_append
  rw [happend]
  exact hshared.joined?_performAll hid hduring

end Store

end ProtoScript
