import ProtoScript.Proofs.Slots.Lengths
/-!
# Writes to properties are honored

A write that is refused leaves the store as it is, although the parameter that a property shares is
written before anything is checked: only writable slots share one, and those refuse nothing.  A
write that goes through is what is read afterwards, from the property and from the parameter that it
shares, and changes no other property of the object.  Arrays are the exception: writing at an index
past the elements makes them longer, writing a smaller length drops elements, and the length that is
read is the number that was written, whatever the sign of its zero.
-/

namespace ProtoScript

def Value.SameInteger (v w : Value) : Prop :=
  ∃ x y n, v = .number x ∧ w = .number y ∧ Number.integer? x = some n ∧ Number.integer? y = some n

namespace ObjectRecord

variable {r r' : ObjectRecord} {key other : String} {value : Value} {a : Assignment}
  {shared : Option Value}

/-! ### The record behind an assignment -/

theorem sameInteger_length {size : Nat} (h : arrayLength? value = some size) :
    (Value.ofNat size).SameInteger value := by
  cases value with
  | number x =>
    obtain ⟨n, hx, hn⟩ := Option.bind_eq_some_iff.mp h
    split at hn
    · next hbounds =>
      cases hn
      have hsize : Number.integer? (Number.ofNat n.toNat) = some (n.toNat : Int) :=
        Number.integer?_ofNat (by omega)
      rw [Int.toNat_of_nonneg hbounds.1] at hsize
      exact ⟨_, x, n, rfl, rfl, hsize, hx⟩
    · cases hn
  | _ => cases h

theorem length?_ne_none {es : Array (Option Value)} (hslot : r.slots.find? "length" = none)
    (hes : r.elements = some es) : r.length? ≠ none := by
  rw [length?_eq_some_iff.mpr ⟨hslot, es, hes, rfl⟩]
  exact Option.some_ne_none _

theorem ownProperty?_index {es : Array (Option Value)} {i : Nat}
    (hunwrapped : r.wrappedText? = none) (hes : r.elements = some es)
    (hslot : r.slots.find? key = none) (hindex : Number.arrayIndex? key = some i) :
    r.ownProperty? shared key = (es[i]?.join).map .plain := by
  rw [ownProperty?_of_no_slot hslot, beneath?, elementProperty?_of_index hes hindex,
    unitProperty?_eq_none hunwrapped, Option.or_none]

/-- What is read behind an assignment, if a parameter that is shared has the value by then. -/
theorem ownProperty?_assigned (htidy : r.Tidy) (h : Assigned r key value a r') (ha : a ≠ .refused)
    (hshared : ∀ v ∈ shared, v = value) :
    ∃ p, r'.ownProperty? shared key = some p ∧
      (p.value = value ∨ key = "length" ∧ r.length? ≠ none ∧ p.value.SameInteger value) := by
  have hslot {p : DataProperty} (hp : p.value = value) :
      ∃ q, (r.insert key p).ownProperty? shared key = some q ∧ q.value = value := by
    have hfind : (r.insert key p).slots.find? key = some p :=
      (OrderedMap.find?_insert ..).trans (if_pos rfl)
    refine ⟨_, ownProperty?_of_slot hfind shared, ?_⟩
    cases shared with
    | none => exact hp
    | some v => exact hshared v rfl
  have htidy' := htidy.assign h
  cases h with
  | refused => exact absurd rfl ha
  | @written p _ _ =>
    obtain ⟨q, hq, hvalue⟩ := hslot (p := { p with value }) rfl
    exact ⟨q, hq, .inl hvalue⟩
  | created =>
    obtain ⟨q, hq, hvalue⟩ := hslot (p := .plain value) rfl
    exact ⟨q, hq, .inl hvalue⟩
  | element hfind _ hindex =>
    refine ⟨.plain value, ?_, .inl rfl⟩
    rw [ownProperty?_index (htidy'.unwrapped rfl) rfl hfind hindex, getElem?_storeElement]
    rfl
  | @resized es size hfind hes hkey hsize =>
    subst hkey
    have hread := ownProperty?_length (r := { r with elements := some (resize es size) }) rfl hfind
      shared
    refine ⟨_, hread, .inr ⟨rfl, length?_ne_none hfind hes, ?_⟩⟩
    rw [size_resize]
    exact sameInteger_length hsize

/-- The key is the length of an array, which becomes one more than the index that is written. -/
def Grows (r : ObjectRecord) (key other : String) (after : Option DataProperty) : Prop :=
  other = "length" ∧ ∃ n i, r.length? = some n ∧ Number.arrayIndex? key = some i ∧ n ≤ i ∧
    after = some ⟨.ofNat (i + 1), true, false, false⟩

/-- The key is that of an element at or past the length that is written, and it is dropped. -/
def CutsOff (r : ObjectRecord) (key : String) (value : Value) (other : String)
    (after : Option DataProperty) : Prop :=
  key = "length" ∧ r.length? ≠ none ∧ r.slots.find? other = none ∧
    ∃ i size, Number.arrayIndex? other = some i ∧ arrayLength? value = some size ∧ size ≤ i ∧
      after = none

theorem getElem?_storeElement_of_ne {es : Array (Option Value)} {i j : Nat} (h : j ≠ i) :
    (storeElement es i value)[j]?.join = es[j]?.join := by
  unfold storeElement
  split
  · rw [Array.getElem?_setIfInBounds, if_neg (Ne.symm h)]
  · have hsize : (es ++ Array.replicate (i - es.size) none).size = i := by
      rw [Array.size_append, Array.size_replicate]
      omega
    rw [Array.getElem?_push, if_neg (by omega), Array.getElem?_append]
    split
    · rfl
    · next hlt =>
      rw [Array.getElem?_eq_none (by omega : es.size ≤ j), Array.getElem?_replicate]
      split <;> rfl

theorem getElem?_resize_of_lt {es : Array (Option Value)} {size j : Nat} (h : j < size) :
    (resize es size)[j]?.join = es[j]?.join := by
  unfold resize
  split
  · rw [Array.getElem?_extract, if_pos (by omega), Nat.zero_add]
  · rw [Array.getElem?_append]
    split
    · rfl
    · next hlt =>
      rw [Array.getElem?_eq_none (by omega : es.size ≤ j), Array.getElem?_replicate]
      split <;> rfl

/-- Other elements that are the same where no slot is in front are read the same. -/
theorem ownProperty?_with_elements {es es' : Array (Option Value)} (hes : r.elements = some es)
    (hlength : r.slots.find? other = none → other = "length" → es'.size = es.size)
    (hindex : r.slots.find? other = none → ∀ j, Number.arrayIndex? other = some j →
      es'[j]?.join = es[j]?.join) :
    { r with elements := some es' }.ownProperty? shared other = r.ownProperty? shared other := by
  unfold ownProperty?
  cases hslot : r.slots.find? other with
  | some p => rfl
  | none =>
    have hproperty :
        { r with elements := some es' }.elementProperty? other = r.elementProperty? other := by
      unfold elementProperty?
      rw [hes]
      dsimp only
      split
      · next heq => rw [hlength hslot heq]
      · cases hi : Number.arrayIndex? other with
        | none => rfl
        | some j => exact congrArg (Option.map _) (hindex hslot j hi)
    rw [hproperty]
    rfl

theorem ownProperty?_assigned_of_ne (htidy : r.Tidy) (h : Assigned r key value a r')
    (hne : other ≠ key) :
    r'.ownProperty? shared other = r.ownProperty? shared other ∨
      r.Grows key other (r'.ownProperty? shared other) ∨
      r.CutsOff key value other (r'.ownProperty? shared other) := by
  have hinsert (p : DataProperty) :
      (r.insert key p).ownProperty? shared other = r.ownProperty? shared other := by
    have hfind : (r.insert key p).slots.find? other = r.slots.find? other :=
      (OrderedMap.find?_insert ..).trans (if_neg hne)
    unfold ownProperty?
    rw [hfind]
    rfl
  have htidy' := htidy.assign h
  cases h with
  | refused => exact .inl rfl
  | written => exact .inl (hinsert _)
  | created => exact .inl (hinsert _)
  | @element es i hfind hes hindex =>
    by_cases hgrows : other = "length" ∧ r.slots.find? "length" = none ∧ es.size ≤ i
    · obtain ⟨rfl, hslot, hle⟩ := hgrows
      refine .inr (.inl ⟨rfl, es.size, i, length?_eq_some_iff.mpr ⟨hslot, es, hes, rfl⟩, hindex,
        hle, ?_⟩)
      rw [ownProperty?_length (r := { r with elements := _ }) rfl hslot, size_storeElement,
        Nat.max_eq_right (by omega)]
    · refine .inl (ownProperty?_with_elements hes (fun hslot hother => ?_) fun _ j hj => ?_)
      · subst hother
        have hlt : i < es.size := Nat.lt_of_not_le fun hle => hgrows ⟨rfl, hslot, hle⟩
        rw [size_storeElement, Nat.max_eq_left hlt]
      · refine getElem?_storeElement_of_ne ?_
        rintro rfl
        have hkey := (Number.arrayIndex?_eq_some_iff.mp hindex).1
        exact hne ((Number.arrayIndex?_eq_some_iff.mp hj).1.trans hkey.symm)
  | @resized es size hfind hes hkey hsize =>
    subst hkey
    by_cases hcut : r.slots.find? other = none ∧ ∃ j, Number.arrayIndex? other = some j ∧ size ≤ j
    · obtain ⟨hslot, j, hj, hle⟩ := hcut
      refine .inr (.inr ⟨rfl, length?_ne_none hfind hes, hslot, j, size, hj, hsize, hle, ?_⟩)
      rw [ownProperty?_index (htidy'.unwrapped rfl) rfl hslot hj,
        Array.getElem?_eq_none (by rw [size_resize]; exact hle)]
      rfl
    · refine .inl (ownProperty?_with_elements hes (fun _ heq => absurd heq hne)
        fun hslot j hj => ?_)
      exact getElem?_resize_of_lt (Nat.lt_of_not_le fun hle => hcut ⟨hslot, j, hj, hle⟩)

end ObjectRecord

namespace Store

/-! ### Assigning to names -/

section Names

variable {s : Store} {id holder : ScopeId} {name other : String} {value : Value}

def TakesValues (s : Store) (id : ScopeId) (name : String) : Prop :=
  ∃ holder b, s.resolve? id name = some (holder, b) ∧ b.initialized = true ∧
    (b.kind = .variable ∨ b.kind = .letBound)

/-- An assignment to a name that takes new values is what the name has afterwards. -/
theorem lookup?_assign (h : s.TakesValues id name) (value : Value) :
    (s.assign id name value).2.lookup? id name = some value := by
  obtain ⟨holder, b, hresolve, hinitialized, hkind⟩ := h
  have hwrite : b.write value = .ok { b with value } := by
    unfold Binding.write
    rw [if_pos hinitialized]
    rcases hkind with hkind | hkind <;> rw [hkind]
  have hassign : (s.assign id name value).2 = s.rebind holder name { b with value } := by
    unfold Store.assign
    simp only [hresolve, hwrite]
    rfl
  rw [hassign, lookup?, lookup, resolve?_rebind_self hresolve]
  simp only [Binding.read, hinitialized, if_true]
  rfl

theorem lookup?_assign_of_ne (place : ScopeId) (h : other ≠ name) (value : Value) :
    (s.assign id name value).2.lookup? place other = s.lookup? place other := by
  unfold Store.assign
  split
  · rfl
  · next holder b _ =>
    split
    · rfl
    · next written _ => exact lookup?_congr (resolve?_rebind_of_ne holder written h)

end Names

/-! ### Writing to properties -/

variable {s s' : Store} {id : ObjectId} {r : ObjectRecord} {key : String} {value : Value}

/-- What an assignment to a property leads to if it goes through. -/
structure Written (s : Store) (id : ObjectId) (r : ObjectRecord) (key : String) (value : Value)
    (s' : Store) : Prop where
  read : s'.get id key = value ∨
    key = "length" ∧ r.length? ≠ none ∧ (s'.get id key).SameInteger value
  parameter : ∀ scope name, r.sharedParameters.find? key = some (scope, name) →
    s'.lookup? scope name = some value
  others : ∀ other, other ≠ key → s'.ownProperty? id other = s.ownProperty? id other ∨
    r.Grows key other (s'.ownProperty? id other) ∨
    r.CutsOff key value other (s'.ownProperty? id other)
  elsewhere : ∀ other, other ≠ id → s'.object? other = s.object? other
  bindings : ∀ place name, (∀ scope, r.sharedParameters.find? key ≠ some (scope, name)) →
    s'.lookup? place name = s.lookup? place name

/-- Writes to the properties of all objects are honored: one that is refused changes nothing, and an
assignment that goes through is what is read afterwards, as long as a parameter that is shared takes
new values. -/
structure HonorsWrites (s : Store) : Prop where
  set : ∀ id key value, (s.set id key value).1 = false → (s.set id key value).2 = s
  define : ∀ id key p, (s.define id key p).1 = false → (s.define id key p).2 = s
  delete : ∀ id key, (s.delete id key).1 = false → (s.delete id key).2 = s
  written : ∀ id r key value, s.object? id = some r → (s.set id key value).1 = true →
    (∀ scope name, r.sharedParameters.find? key = some (scope, name) → s.TakesValues scope name) →
    s.Written id r key value (s.set id key value).2

theorem modifyObject_same (s : Store) (id : ObjectId) : (s.modifyObject id fun r => r) = s := by
  have hsame : s.objects.modify id.index (fun r => r) = s.objects := by
    apply Array.ext
    · exact Array.size_modify ..
    · intro i _ _
      rw [Array.getElem_modify]
      split <;> rfl
  unfold modifyObject
  rw [hsame]

theorem lookup?_modifyObject (s : Store) (id : ObjectId) (f : ObjectRecord → ObjectRecord)
    (place : ScopeId) (name : String) :
    (s.modifyObject id f).lookup? place name = s.lookup? place name :=
  lookup?_congr (resolve?_congr fun _ _ => rfl)

theorem assignShared_of_unshared (h : r.sharedParameters.find? key = none) (value : Value) :
    s.assignShared r key value = s := by
  rw [assignShared, h]

theorem set_eq (hr : s.object? id = some r) (key : String) (value : Value) :
    ∃ inherited, (s.set id key value).1 = (r.assignment inherited key value != .refused) ∧
      (s.set id key value).2 = (s.assignShared r key value).modifyObject id fun r' =>
        r'.assign key value (r.assignment inherited key value) := by
  refine ⟨s.propertyAmong? (s.chain r.prototype) key, ?_⟩
  unfold Store.set
  rw [hr]
  exact ⟨rfl, rfl⟩

/-- What is refused has no writable slot, so it shares no parameter. -/
theorem set_eq_of_refused (hs : s.WellShared) (h : (s.set id key value).1 = false) :
    (s.set id key value).2 = s := by
  cases hr : s.object? id with
  | none =>
    unfold Store.set
    rw [hr]
  | some r =>
    obtain ⟨inherited, hfst, hsnd⟩ := set_eq hr key value
    rw [h, eq_comm, bne_eq_false_iff_eq] at hfst
    have hassigned := r.assigned_assign inherited key value
    rw [hfst] at hassigned hsnd
    have hunshared := (hs id r hr).linked.find?_eq_none hassigned.slot_of_refused
    rw [hsnd, assignShared_of_unshared hunshared]
    exact s.modifyObject_same id

theorem define_eq_of_refused {p : DataProperty} (h : (s.define id key p).1 = false) :
    (s.define id key p).2 = s := by
  unfold Store.define at h ⊢
  split at h
  · rfl
  · split at h
    · cases h
    · next hrefused => exact congrArg Prod.snd (if_neg hrefused)

theorem delete_eq_of_refused (h : (s.delete id key).1 = false) : (s.delete id key).2 = s := by
  unfold Store.delete at h ⊢
  split at h
  · rfl
  · split at h
    · cases h
    · next hrefused => exact congrArg Prod.snd (if_neg hrefused)

theorem get_of_ownProperty? {p : DataProperty} (h : s.ownProperty? id key = some p) :
    s.get id key = p.value := by
  obtain ⟨r, hr, -⟩ := Option.bind_eq_some_iff.mp h
  have hchain : s.chain (some id) = id :: s.chainFrom (s.objects.size - 1) r.prototype := by
    have hpos : s.objects.size = s.objects.size - 1 + 1 := by
      have hlt := object?_eq_some_iff.mp ⟨r, hr⟩
      omega
    rw [chain, hpos, chainFrom, hr]
    rfl
  rw [get, property?, propertyAmong?, hchain, List.findSome?_cons, h]
  rfl

/-- An assignment to a shared property leaves the variables of all other names. -/
theorem lookup?_assignShared_of_ne {name : String}
    (hname : ∀ scope, r.sharedParameters.find? key ≠ some (scope, name)) (value : Value)
    (place : ScopeId) : (s.assignShared r key value).lookup? place name = s.lookup? place name := by
  cases hkey : r.sharedParameters.find? key with
  | none => rw [assignShared_of_unshared hkey]
  | some target =>
    obtain ⟨scope, written⟩ := target
    rw [assignShared, hkey]
    refine lookup?_assign_of_ne place ?_ value
    rintro rfl
    exact hname scope hkey

/-- An assignment to a shared property leaves what other properties share. -/
theorem sharedValue?_assignShared_of_ne (h : r.WellShared) {other : String} (hne : other ≠ key)
    (value : Value) {r' : ObjectRecord} (hr' : r'.sharedParameters = r.sharedParameters) :
    (s.assignShared r key value).sharedValue? r' other = s.sharedValue? r other := by
  unfold sharedValue?
  rw [hr']
  cases hother : r.sharedParameters.find? other with
  | none => rfl
  | some shared =>
    obtain ⟨place, name⟩ := shared
    exact lookup?_assignShared_of_ne
      (fun _ hkey => hne (h.apart other key _ _ _ hother hkey)) value place

theorem sharedParameters_assigned {a : ObjectRecord.Assignment} {r' : ObjectRecord}
    (h : r.Assigned key value a r') : r'.sharedParameters = r.sharedParameters := by
  cases h <;> rfl

theorem written_of_set (hr : s.object? id = some r) (htidy : r.Tidy) (hshared : r.WellShared)
    (h : (s.set id key value).1 = true)
    (htakes : ∀ scope name, r.sharedParameters.find? key = some (scope, name) →
      s.TakesValues scope name) : s.Written id r key value (s.set id key value).2 := by
  obtain ⟨inherited, hfst, hsnd⟩ := set_eq hr key value
  rw [h, eq_comm, bne_iff_ne] at hfst
  have hassigned := r.assigned_assign inherited key value
  generalize r.assignment inherited key value = a at hassigned hfst hsnd
  have hafter : (s.set id key value).2.object? id = some (r.assign key value a) := by
    rw [hsnd]
    exact object?_modifyObject_self (by rw [object?_assignShared, hr]) _
  have hlookup (place : ScopeId) (name : String) :
      (s.set id key value).2.lookup? place name =
        (s.assignShared r key value).lookup? place name := by
    rw [hsnd, lookup?_modifyObject]
  have hparameter : ∀ scope name, r.sharedParameters.find? key = some (scope, name) →
      (s.set id key value).2.lookup? scope name = some value := by
    intro scope name hkey
    rw [hlookup, assignShared, hkey]
    exact lookup?_assign (htakes scope name hkey) value
  have hsame : (r.assign key value a).sharedParameters = r.sharedParameters :=
    sharedParameters_assigned hassigned
  refine ⟨?_, hparameter, fun other hne => ?_, fun other hne => ?_, fun place name hname => ?_⟩
  · have hvalue : ∀ v ∈ (s.set id key value).2.sharedValue? (r.assign key value a) key,
        v = value := by
      intro v hv
      obtain ⟨⟨scope, name⟩, hkey, hv⟩ := Option.bind_eq_some_iff.mp hv
      rw [hsame] at hkey
      exact Option.some.inj (hv.symm.trans (hparameter scope name hkey))
    obtain ⟨p, hp, hread⟩ := ObjectRecord.ownProperty?_assigned htidy hassigned hfst hvalue
    rw [← ownProperty?_of_object? hafter] at hp
    rw [get_of_ownProperty? hp]
    exact hread
  · have hvalue : (s.set id key value).2.sharedValue? (r.assign key value a) other =
        s.sharedValue? r other := by
      rw [← sharedValue?_assignShared_of_ne hshared hne value hsame]
      unfold sharedValue?
      simp only [hlookup]
    rw [ownProperty?_of_object? hafter, ownProperty?_of_object? hr, hvalue]
    exact ObjectRecord.ownProperty?_assigned_of_ne htidy hassigned hne
  · rw [hsnd, object?_modifyObject, if_neg hne, object?_assignShared]
  · rw [hlookup]
    exact lookup?_assignShared_of_ne hname value place

theorem Intact.honorsWrites (hs : s.Intact) : s.HonorsWrites where
  set _ _ _ := set_eq_of_refused hs.shared
  define _ _ _ := define_eq_of_refused
  delete _ _ := delete_eq_of_refused
  written id r _ _ hr := written_of_set hr (hs.tidy id r hr) (hs.shared id r hr)

end Store

namespace Writes

open Integrity

variable {host : Host} {m : Machine}

/-- Writes are honored when a task begins and when it ends. -/
def observer : Supervisor Unit where
  inside _ _ _ := ()
  admits _ _ m := m.store.HonorsWrites
  accepts _ _ _ _ m' := m'.store.HonorsWrites

/-- On every machine that sessions lead to, and at every task of whatever the embedding program asks
for there, writes to the properties of all objects are honored. -/
theorem every_write_honored (hhost : host.Courteous)
    (hm : Machine.Reachable host Program.Accepted m) :
    m.store.HonorsWrites ∧
    ∀ task, (Setting.embedding Program.Accepted fun _ => True).asks task →
      (∀ v ∈ task.values, m.Knows v) → ∀ bound,
        observer.run host bound () task m = runTask host bound task m := by
  have hintact := (intact_of_reachable hhost hm).1
  refine ⟨hintact.store.honorsWrites, fun task htask hvalues bound => ?_⟩
  exact (governs hhost).run_eq observer (fun _ => ()) (fun _ _ _ _ => rfl)
    (fun _ _ _ hbegin => hbegin.1.store.honorsWrites)
    (fun _ _ _ _ _ _ hend => hend.2.1.store.honorsWrites)
    bound .undefined task m (admits_of_asks hintact htask hvalues)

theorem every_write_honored_calling_back :
    observer.run .callBack 9 ()
        (.indirectEval (.string (.ofString "(function (a) { arguments[0] = 1; return a; })(0)")))
        (.initial {}) =
      runTask .callBack 9
        (.indirectEval (.string (.ofString "(function (a) { arguments[0] = 1; return a; })(0)")))
        (.initial {}) :=
  (every_write_honored Host.callBack_courteous (.initial {})).2
    (.indirectEval (.string (.ofString "(function (a) { arguments[0] = 1; return a; })(0)")))
    trivial
    (List.forall_mem_singleton.mpr trivial) 9

end Writes

end ProtoScript
