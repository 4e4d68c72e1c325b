import ProtoScript.Proofs.Slots
import ProtoScript.Proofs.Keys.Indices
/-!
# Sequences of operations on the properties of an object

Definitions, assignments and deletions of properties of one object, one after the other.  What each
of them keeps of a record holds of every record that they come by from a new one.
-/

namespace ProtoScript

inductive PropertyOperation where
  | define (key : String) (p : DataProperty)
  | set (key : String) (value : Value)
  | delete (key : String)

def PropertyOperation.key : PropertyOperation → String
  | define key _ => key
  | set key _ => key
  | delete key => key

/-! ### New records -/

inductive ObjectRecord.IsNew : ObjectRecord → Prop
  | bare (prototype : Option ObjectId) : IsNew { prototype }
  | array (elements : Array (Option Value)) : IsNew (.array elements)
  | wrapper (primitive : Value) : IsNew (.wrapper primitive)
  | arguments (values : List Value) (callee : Value) (mapped : Option (ScopeId × List String)) :
    IsNew (.arguments values callee mapped)
  | function (callable : Callable) : IsNew (.function callable)
  | error (kind : ErrorKind) (message : String) : IsNew (.error kind message)

theorem writable_of_find?_argumentSlots {values : List Value} {key : String} {p : DataProperty}
    (h : (argumentSlots values).find? key = some p) : p.writable = true := by
  rcases List.mem_cons.mp (OrderedMap.mem_of_find?_ofList h) with hlength | hmem
  · cases hlength
    rfl
  · obtain ⟨entry, -, hentry⟩ := List.mem_map.mp hmem
    cases hentry
    rfl

theorem exists_find?_argumentSlots {values : List Value} {i : Nat} (h : i < values.length) :
    ∃ p, (argumentSlots values).find? (toString i) = some p := by
  have hplace : (values[i], i) ∈ values.zipIdx :=
    List.mk_mem_zipIdx_iff_getElem?.mpr (List.getElem?_eq_getElem h)
  have hentry := List.mem_map_of_mem
    (f := fun entry => (toString entry.2, DataProperty.plain entry.1)) hplace
  exact Option.ne_none_iff_exists'.mp (OrderedMap.find?_ofList_ne_none
    (List.mem_map_of_mem (List.mem_cons_of_mem _ hentry)))

/-- The name stands at the place in the list and nowhere behind it. -/
def LastAt (names : List String) (i : Nat) (name : String) : Prop :=
  names[i]? = some name ∧ name ∉ names.drop (i + 1)

/-- Only the last places of names are shared, and only where there are arguments. -/
theorem of_find?_sharedParameters {count : Nat} {scope : ScopeId} {names : List String}
    {key : String} {shared : ScopeId × String}
    (h : (sharedParameters count scope names).find? key = some shared) :
    ∃ i name, key = toString i ∧ shared = (scope, name) ∧ i < count ∧ LastAt names i name := by
  obtain ⟨before, after, heq, -⟩ := List.lookup_eq_some_iff.mp h
  have hmem : (key, shared) ∈ (sharedParameters count scope names).entries := by
    rw [heq]
    exact List.mem_append_right _ List.mem_cons_self
  obtain ⟨⟨name, i⟩, hplace, hentry⟩ := List.mem_filterMap.mp hmem
  dsimp only at hentry
  split at hentry
  · next hi =>
    cases hentry
    have hat : names[i]? = some name := List.mk_mem_zipIdx_iff_getElem?.mp hplace
    have hlast : name ∉ names.drop (i + 1) := by simpa using hi.2
    exact ⟨i, name, rfl, rfl, hi.1, hat, hlast⟩
  · cases hentry

namespace ObjectRecord

theorem linked_arguments (values : List Value) (callee : Value)
    (mapped : Option (ScopeId × List String)) : (arguments values callee mapped).Linked := by
  cases mapped with
  | none => exact .of_unshared rfl
  | some shared =>
    intro key hkey
    obtain ⟨_, hshared⟩ := Option.ne_none_iff_exists'.mp hkey
    obtain ⟨i, _, rfl, -, hi, -⟩ := of_find?_sharedParameters hshared
    obtain ⟨p, hp⟩ := exists_find?_argumentSlots hi
    change ∃ q, ((argumentSlots values).insert "callee" (.hidden callee)).find? _ = some q ∧ _
    rw [OrderedMap.find?_insert]
    split
    · exact ⟨_, rfl, rfl⟩
    · exact ⟨p, hp, writable_of_find?_argumentSlots hp⟩

theorem elements_arguments (values : List Value) (callee : Value)
    (mapped : Option (ScopeId × List String)) :
    (arguments values callee mapped).elements = none := by
  cases mapped <;> rfl

theorem inStep_arguments (values : List Value) (callee : Value)
    (mapped : Option (ScopeId × List String)) : (arguments values callee mapped).slots.InStep := by
  have hslots : (argumentSlots values).InStep := .ofList _
  cases mapped with
  | none => exact hslots
  | some _ => exact hslots.insert "callee" _

theorem IsNew.tidy {r : ObjectRecord} (h : r.IsNew) : r.Tidy := by
  cases h with
  | array elements => exact ⟨.empty, fun _ => rfl, fun _ _ _ _ hp => nomatch hp⟩
  | arguments values callee mapped =>
    exact .of_no_elements (elements_arguments values callee mapped) (inStep_arguments ..)
  | bare | wrapper => exact .of_no_elements rfl .empty
  | function | error => exact .of_no_elements rfl (.ofList _)

theorem IsNew.linked {r : ObjectRecord} (h : r.IsNew) : r.Linked := by
  cases h with
  | arguments values callee mapped => exact linked_arguments values callee mapped
  | _ => exact .of_unshared rfl

/-! ### What an operation does to a record -/

/-- The record behind an operation.  `inherited` is the property that the prototype has at the
key. -/
def after (r : ObjectRecord) (inherited : Option DataProperty) : PropertyOperation → ObjectRecord
  | .define key p => if r.admits key p then r.define key p else r
  | .set key value => r.assign key value (r.assignment inherited key value)
  | .delete key => if r.mayDelete key then r.delete key else r

/-- An operation leaves the record as it is or defines, assigns or deletes. -/
theorem after_of_assign {P : ObjectRecord → Prop} {r : ObjectRecord}
    {inherited : Option DataProperty} (h : P r) (hdefine : ∀ key p, P (r.define key p))
    (hassign : ∀ key value, P (r.assign key value (r.assignment inherited key value)))
    (hdelete : ∀ key, P (r.delete key)) (op : PropertyOperation) : P (r.after inherited op) := by
  cases op with
  | define key p =>
    rw [after]
    split
    · exact hdefine key p
    · exact h
  | set key value => exact hassign key value
  | delete key =>
    rw [after]
    split
    · exact hdelete key
    · exact h

theorem after_of {P : ObjectRecord → Prop} {r : ObjectRecord} (h : P r)
    (hdefine : ∀ key p, P (r.define key p))
    (hassign : ∀ key value a r', Assigned r key value a r' → P r')
    (hdelete : ∀ key, P (r.delete key)) (inherited : Option DataProperty)
    (op : PropertyOperation) : P (r.after inherited op) :=
  after_of_assign h hdefine
    (fun key value => hassign key value _ _ (r.assigned_assign inherited key value)) hdelete op

theorem Tidy.after {r : ObjectRecord} (h : r.Tidy) (inherited : Option DataProperty)
    (op : PropertyOperation) : (r.after inherited op).Tidy :=
  after_of h h.define (fun _ _ _ _ => h.assign) h.delete inherited op

theorem Linked.after {r : ObjectRecord} (h : r.Linked) (inherited : Option DataProperty)
    (op : PropertyOperation) : (r.after inherited op).Linked :=
  after_of h h.define (fun _ _ _ _ => h.assign) h.delete inherited op

end ObjectRecord

/-! ### Operations in the store -/

namespace Store

variable {s : Store} {id : ObjectId} {r : ObjectRecord} {key : String} {p : DataProperty}

def operate (s : Store) (id : ObjectId) : PropertyOperation → Bool × Store
  | .define key p => s.define id key p
  | .set key value => s.set id key value
  | .delete key => s.delete id key

def operateAll (s : Store) (id : ObjectId) (ops : List PropertyOperation) : Store :=
  ops.foldl (fun s op => (s.operate id op).2) s

@[simp] theorem object?_assignShared (s : Store) (r : ObjectRecord) (key : String) (value : Value)
    (id : ObjectId) : (s.assignShared r key value).object? id = s.object? id := by
  unfold assignShared assign
  split
  · split
    · rfl
    · split <;> rfl
  · rfl

theorem object?_modifyObject_self (hr : s.object? id = some r)
    (f : ObjectRecord → ObjectRecord) : (s.modifyObject id f).object? id = some (f r) := by
  rw [object?_modifyObject, if_pos rfl, hr]
  rfl

theorem object?_allocate_self (s : Store) (r : ObjectRecord) :
    (s.allocate r).2.object? (s.allocate r).1 = some r :=
  (s.object?_allocate r _).trans (if_pos rfl)

theorem define_fst (hr : s.object? id = some r) : (s.define id key p).1 = r.admits key p := by
  unfold Store.define
  rw [hr]
  cases h : r.admits key p <;> simp [h]

theorem delete_fst (hr : s.object? id = some r) : (s.delete id key).1 = r.mayDelete key := by
  unfold Store.delete
  rw [hr]
  cases h : r.mayDelete key <;> simp [h]

theorem object?_operate (hr : s.object? id = some r) (op : PropertyOperation) :
    ∃ inherited, (s.operate id op).2.object? id = some (r.after inherited op) := by
  cases op with
  | define key p =>
    refine ⟨none, ?_⟩
    unfold operate Store.define ObjectRecord.after
    rw [hr]
    dsimp only
    split
    · exact object?_modifyObject_self (by rw [object?_assignShared, hr]) _
    · exact hr
  | set key value =>
    refine ⟨s.propertyAmong? (s.chain r.prototype) key, ?_⟩
    unfold operate Store.set
    rw [hr]
    exact object?_modifyObject_self (by rw [object?_assignShared, hr]) _
  | delete key =>
    refine ⟨none, ?_⟩
    unfold operate Store.delete ObjectRecord.after
    rw [hr]
    dsimp only
    split
    · exact object?_modifyObject_self hr _
    · exact hr

theorem object?_operate_of_ne {target : ObjectId} (h : id ≠ target) (op : PropertyOperation) :
    (s.operate target op).2.object? id = s.object? id := by
  have hmodified (s : Store) (f : ObjectRecord → ObjectRecord) :
      (s.modifyObject target f).object? id = s.object? id := by
    rw [object?_modifyObject, if_neg h]
  cases op with
  | define key p =>
    rw [operate, Store.define]
    split
    · rfl
    · split
      · rw [hmodified, object?_assignShared]
      · rfl
  | set key value =>
    rw [operate, Store.set]
    split
    · rfl
    · rw [hmodified, object?_assignShared]
  | delete key =>
    rw [operate, Store.delete]
    split
    · rfl
    · split
      · rw [hmodified]
      · rfl

theorem exists_object?_operate (s : Store) (id : ObjectId) (op : PropertyOperation) :
    ∃ inherited, ∀ other, (s.operate id op).2.object? other =
      if other = id then (s.object? other).map fun r => r.after inherited op
      else s.object? other := by
  cases hr : s.object? id with
  | none =>
    have hsame : (s.operate id op).2 = s := by
      cases op with
      | define key p => rw [operate, Store.define, hr]
      | set key value => rw [operate, Store.set, hr]
      | delete key => rw [operate, Store.delete, hr]
    refine ⟨none, fun other => ?_⟩
    rw [hsame]
    split
    · next heq =>
      rw [heq, hr]
      rfl
    · rfl
  | some r =>
    obtain ⟨inherited, hafter⟩ := object?_operate hr op
    refine ⟨inherited, fun other => ?_⟩
    split
    · next heq =>
      rw [heq, hafter, hr]
      rfl
    · next hne => exact object?_operate_of_ne hne op

theorem exists_object?_operateAll {P : ObjectRecord → Prop}
    (hP : ∀ r inherited op, P r → P (r.after inherited op)) (hr : s.object? id = some r) (h : P r)
    (ops : List PropertyOperation) : ∃ r', (s.operateAll id ops).object? id = some r' ∧ P r' := by
  induction ops generalizing s r with
  | nil => exact ⟨r, hr, h⟩
  | cons op ops ih =>
    obtain ⟨inherited, hnext⟩ := object?_operate hr op
    exact ih hnext (hP r inherited op h)

theorem exists_tidy_linked (hr : s.object? id = some r) (hnew : r.IsNew)
    (ops : List PropertyOperation) :
    ∃ r', (s.operateAll id ops).object? id = some r' ∧ r'.Tidy ∧ r'.Linked :=
  exists_object?_operateAll
    (fun _ inherited op h => ⟨h.1.after inherited op, h.2.after inherited op⟩) hr
    ⟨hnew.tidy, hnew.linked⟩ ops

theorem sharedValue?_of_unshared (h : r.sharedParameters.find? key = none) :
    s.sharedValue? r key = none := by
  rw [sharedValue?, h]
  rfl

theorem ownProperty?_of_object? (hr : s.object? id = some r) :
    s.ownProperty? id key = r.ownProperty? (s.sharedValue? r key) key := by
  rw [ownProperty?, hr]
  rfl

end Store

/-!
### Properties that share parameters

The arguments of a call share their properties with its parameters: each parameter, at the last
place of its name, with the argument at that place.  So what is shared is at numerals, in slots that
are writable, and no two properties share one parameter.  Everything that is done to records keeps
it so: sharing can only end.
-/

variable {names : List String} {name : String} {i j : Nat}

theorem LastAt.mem (h : LastAt names i name) : name ∈ names := List.mem_of_getElem? h.1

theorem LastAt.le (h : LastAt names i name) (hj : names[j]? = some name) : j ≤ i := by
  refine Nat.le_of_not_lt fun hlt => h.2 ?_
  have hbehind : (names.drop (i + 1))[j - (i + 1)]? = some name := by
    rw [List.getElem?_drop, Nat.add_sub_cancel' hlt]
    exact hj
  exact List.mem_of_getElem? hbehind

theorem LastAt.unique (h : LastAt names i name) (h' : LastAt names j name) : i = j :=
  Nat.le_antisymm (h'.le h.1) (h.le h'.1)

/-- A property shares a parameter just if there is an argument at the last place of the
parameter's name. -/
theorem find?_sharedParameters_iff {count : Nat} {scope : ScopeId} {shared : ScopeId × String} :
    (sharedParameters count scope names).find? (toString i) = some shared ↔
      ∃ name, shared = (scope, name) ∧ i < count ∧ LastAt names i name := by
  constructor
  · intro h
    obtain ⟨j, name, hkey, rfl, hj, hlast⟩ := of_find?_sharedParameters h
    cases Number.toString_injective hkey
    exact ⟨name, rfl, hj, hlast⟩
  · rintro ⟨name, rfl, hi, hlast⟩
    have hmem : (toString i, scope, name) ∈ (sharedParameters count scope names).entries := by
      refine List.mem_filterMap.mpr ⟨(name, i), List.mk_mem_zipIdx_iff_getElem?.mpr hlast.1, ?_⟩
      exact if_pos ⟨hi, by simpa using hlast.2⟩
    obtain ⟨found, hfound⟩ : ∃ found,
        (sharedParameters count scope names).find? (toString i) = some found := by
      rw [← Option.isSome_iff_exists]
      exact List.lookup_isSome_iff.mpr ⟨_, hmem, beq_self_eq_true _⟩
    -- Whatever is found stands at the same place.
    obtain ⟨j, other, hkey, rfl, -, hlast'⟩ := of_find?_sharedParameters hfound
    cases Number.toString_injective hkey
    rw [hfound, Option.some.inj (hlast.1.symm.trans hlast'.1)]

namespace ObjectRecord

variable {r r' : ObjectRecord} {key : String} {p : DataProperty}

def SharesLess (r r' : ObjectRecord) : Prop :=
  ∀ key shared, r'.sharedParameters.find? key = some shared →
    r.sharedParameters.find? key = some shared

theorem find?_of_erase {m : NameMap (ScopeId × String)} {other : String}
    {shared : ScopeId × String} (h : (m.erase key).find? other = some shared) :
    m.find? other = some shared := by
  rw [NameMap.find?_erase] at h
  split at h
  · cases h
  · exact h

theorem sharesLess_define (r : ObjectRecord) (key : String) (p : DataProperty) :
    r.SharesLess (r.define key p) := by
  intro other shared hother
  rw [define_eq] at hother
  dsimp only at hother
  split at hother
  · exact hother
  · exact find?_of_erase hother

theorem sharesLess_assign {value : Value} {a : Assignment} (hr' : Assigned r key value a r') :
    r.SharesLess r' := by
  intro other shared hother
  cases hr' <;> exact hother

theorem sharesLess_delete (r : ObjectRecord) (key : String) : r.SharesLess (r.delete key) := by
  intro other shared hother
  cases hslot : r.slots.find? key with
  | some p =>
    rw [delete_of_slot hslot] at hother
    exact find?_of_erase hother
  | none =>
    rw [delete_of_no_slot hslot] at hother
    exact hother

theorem sharesLess_after (r : ObjectRecord) (inherited : Option DataProperty)
    (op : PropertyOperation) : r.SharesLess (r.after inherited op) :=
  after_of (fun _ _ h => h) (sharesLess_define r) (fun _ _ _ _ => sharesLess_assign)
    (sharesLess_delete r) inherited op

/-- What sharing is like: it takes a writable slot at a numeral, and no two properties share one
parameter. -/
structure WellShared (r : ObjectRecord) : Prop where
  linked : r.Linked
  numeral : ∀ key, r.sharedParameters.find? key ≠ none → Number.IsNumeral key
  apart : ∀ key other scope scope' name, r.sharedParameters.find? key = some (scope, name) →
    r.sharedParameters.find? other = some (scope', name) → key = other

namespace WellShared

theorem of_unshared (h : r.sharedParameters = .empty) : r.WellShared where
  linked := .of_unshared h
  numeral key hkey := absurd (by rw [h]; rfl) hkey
  apart key _ _ _ _ hkey := by
    rw [h] at hkey
    cases hkey

theorem of_less (h : r.WellShared) (hlinked : r'.Linked) (hless : r.SharesLess r') :
    r'.WellShared where
  linked := hlinked
  numeral key hkey := by
    obtain ⟨shared, hshared⟩ := Option.ne_none_iff_exists'.mp hkey
    exact h.numeral key (by rw [hless key shared hshared]; exact Option.some_ne_none _)
  apart key other _ _ _ hkey hother := h.apart key other _ _ _ (hless _ _ hkey) (hless _ _ hother)

theorem insert (h : r.WellShared) (hkey : r.sharedParameters.find? key = none) (p : DataProperty) :
    (r.insert key p).WellShared :=
  h.of_less (h.linked.insert fun hshared => absurd hkey hshared) fun _ _ hother => hother

theorem define (h : r.WellShared) (key : String) (p : DataProperty) : (r.define key p).WellShared :=
  h.of_less (h.linked.define key p) (sharesLess_define r key p)

theorem assign (h : r.WellShared) {value : Value} {a : Assignment}
    (hr' : Assigned r key value a r') : r'.WellShared :=
  h.of_less (h.linked.assign hr') (sharesLess_assign hr')

theorem delete (h : r.WellShared) (key : String) : (r.delete key).WellShared :=
  h.of_less (h.linked.delete key) (sharesLess_delete r key)

theorem after (h : r.WellShared) (inherited : Option DataProperty) (op : PropertyOperation) :
    (r.after inherited op).WellShared :=
  h.of_less (h.linked.after inherited op) (sharesLess_after r inherited op)

end WellShared

theorem IsNew.wellShared (h : r.IsNew) : r.WellShared := by
  refine ⟨h.linked, ?_, ?_⟩
  · intro key hkey
    cases h with
    | arguments values callee mapped =>
      cases mapped with
      | none => exact absurd rfl hkey
      | some target =>
        obtain ⟨_, hshared⟩ := Option.ne_none_iff_exists'.mp hkey
        obtain ⟨i, _, rfl, -⟩ := of_find?_sharedParameters hshared
        exact ⟨i, rfl⟩
    | _ => exact absurd rfl hkey
  · intro key other scope scope' name hkey hother
    cases h with
    | arguments values callee mapped =>
      cases mapped with
      | none => cases hkey
      | some target =>
        obtain ⟨i, _, rfl, heq, -, hlast⟩ := of_find?_sharedParameters hkey
        obtain ⟨j, _, rfl, heq', -, hlast'⟩ := of_find?_sharedParameters hother
        cases heq
        cases heq'
        rw [hlast.unique hlast']
    | _ => cases hkey

end ObjectRecord

end ProtoScript
