import ProtoScript.Builtin.Global
import ProtoScript.Realm
/-!
# Values that are known

A value is known among a number of objects if it is primitive or the handle of one of them.  Objects
are never taken away, so what is known stays known.  The operations on records put in no value but
those they are given and give out none but those that are there.
-/

namespace ProtoScript

def intrinsicCount : Nat := intrinsicObjects.length

theorem objectPrototype_lt : ObjectId.objectPrototype.index < intrinsicCount := by decide

def NameMap.All {β : Type} (P : β → Prop) (m : NameMap β) : Prop :=
  ∀ entry ∈ m.entries, P entry.2

namespace NameMap.All

variable {β : Type} {P Q : β → Prop} {m : NameMap β}

theorem empty : (NameMap.empty : NameMap β).All P := nofun

theorem mono (h : m.All P) (hPQ : ∀ b, P b → Q b) : m.All Q := fun entry he => hPQ _ (h entry he)

theorem find? (h : m.All P) {key : String} {b : β} (hb : m.find? key = some b) : P b := by
  unfold NameMap.find? at hb
  obtain ⟨before, after, heq, _⟩ := List.lookup_eq_some_iff.mp hb
  exact h (key, b) (by rw [heq]; exact List.mem_append_right _ (List.mem_cons_self ..))

theorem insert (h : m.All P) (key : String) {b : β} (hb : P b) : (m.insert key b).All P := by
  obtain ⟨entries⟩ := m
  unfold NameMap.insert All at *
  dsimp only at *
  induction entries with
  | nil => exact List.forall_mem_singleton.mpr hb
  | cons entry rest ih =>
    obtain ⟨hfirst, hrest⟩ := List.forall_mem_cons.mp h
    rw [NameMap.insertEntry]
    split
    · exact List.forall_mem_cons.mpr ⟨hb, hrest⟩
    · exact List.forall_mem_cons.mpr ⟨hfirst, ih hrest⟩

theorem erase (h : m.All P) (key : String) : (m.erase key).All P :=
  fun entry he => h entry (List.mem_filter.mp he).1

end NameMap.All

def OrderedMap.All {β : Type} (P : β → Prop) (m : OrderedMap β) : Prop := m.values.All P

namespace OrderedMap.All

variable {β : Type} {P Q : β → Prop} {m : OrderedMap β}

theorem empty : (OrderedMap.empty : OrderedMap β).All P := NameMap.All.empty

theorem mono (h : m.All P) (hPQ : ∀ b, P b → Q b) : m.All Q := NameMap.All.mono h hPQ

theorem find? (h : m.All P) {key : String} {b : β} (hb : m.find? key = some b) : P b :=
  NameMap.All.find? h hb

theorem insert (h : m.All P) (key : String) {b : β} (hb : P b) : (m.insert key b).All P :=
  NameMap.All.insert h key hb

theorem erase (h : m.All P) (key : String) : (m.erase key).All P := NameMap.All.erase h key

theorem ofList {entries : List (String × β)} (h : ∀ entry ∈ entries, P entry.2) :
    (OrderedMap.ofList entries).All P := by
  suffices hall : ∀ m : OrderedMap β, m.All P →
      (entries.foldl (fun m entry => m.insert entry.1 entry.2) m).All P from hall _ empty
  induction entries with
  | nil => exact fun m hm => hm
  | cons entry rest ih =>
    obtain ⟨hfirst, hrest⟩ := List.forall_mem_cons.mp h
    exact fun m hm => ih hrest _ (hm.insert entry.1 hfirst)

end OrderedMap.All

/-- The value is primitive or the handle of one of the first `n` objects. -/
def Value.Within (n : Nat) : Value → Prop
  | .object id => id.index < n
  | _ => True

namespace Value.Within

variable {n n' : Nat} {v : Value}

theorem mono (h : v.Within n) (hn : n ≤ n') : v.Within n' := by
  cases v with
  | object id => exact Nat.lt_of_lt_of_le h hn
  | _ => trivial

theorem lt (h : v.Within n) {id : ObjectId} (hid : id ∈ v.objectId?) : id.index < n := by
  cases v with
  | object other =>
    cases hid
    exact h
  | _ => cases hid

theorem of_not_isObject (h : ¬ v.isObject = true) : v.Within n := by
  cases v with
  | object id => exact absurd rfl h
  | _ => trivial

end Value.Within

theorem Value.argument_within {n : Nat} {arguments : List Value}
    (h : ∀ v ∈ arguments, v.Within n) (i : Nat) : (Value.argument arguments i).Within n := by
  unfold Value.argument
  rw [List.getD_eq_getElem?_getD]
  cases hv : arguments[i]? with
  | none => trivial
  | some v => exact h v (List.mem_of_getElem? hv)

theorem Value.primitivePrototype?_lt {v : Value} {p : ObjectId}
    (h : v.primitivePrototype? = some p) : p.index < intrinsicCount := by
  cases v <;> cases h <;> decide

def Abrupt.Within (n : Nat) : Abrupt → Prop
  | .thrown v => v.Within n
  | .returned v => v.Within n
  | _ => True

theorem Abrupt.Within.mono {n n' : Nat} {c : Abrupt} (h : c.Within n) (hn : n ≤ n') :
    c.Within n' := by
  cases c with
  | thrown v => exact Value.Within.mono h hn
  | returned v => exact Value.Within.mono h hn
  | _ => trivial

def Scope.Within (n : Nat) (a : Scope) : Prop := a.bindings.All fun b => b.value.Within n

theorem Scope.Within.mono {n n' : Nat} {a : Scope} (h : a.Within n) (hn : n ≤ n') : a.Within n' :=
  NameMap.All.mono h fun _ hb => hb.mono hn

structure ObjectRecord.Within (n : Nat) (r : ObjectRecord) : Prop where
  slots : r.slots.All fun p => p.value.Within n
  prototype : ∀ p ∈ r.prototype, p.index < n
  elements : ∀ es ∈ r.elements, ∀ v, some v ∈ es → v.Within n
  primitive : ∀ v ∈ r.primitive, v.Within n

namespace ObjectRecord

variable {n n' : Nat} {r : ObjectRecord}

theorem Within.mono (h : r.Within n) (hn : n ≤ n') : r.Within n' where
  slots := h.slots.mono fun _ hp => hp.mono hn
  prototype p hp := Nat.lt_of_lt_of_le (h.prototype p hp) hn
  elements es hes v hv := (h.elements es hes v hv).mono hn
  primitive v hv := (h.primitive v hv).mono hn

theorem mem_storeElement {es : Array (Option Value)} {i : Nat} {value v : Value}
    (h : some v ∈ storeElement es i value) : v = value ∨ some v ∈ es := by
  unfold storeElement at h
  split at h
  · rcases Array.mem_or_eq_of_mem_setIfInBounds h with hbefore | heq
    · exact .inr hbefore
    · cases heq
      exact .inl rfl
  · simp only [Array.mem_push, Array.mem_append, Array.mem_replicate, Option.some.injEq] at h
    rcases h with (hbefore | ⟨_, hhole⟩) | rfl
    · exact .inr hbefore
    · cases hhole
    · exact .inl rfl

theorem mem_resize {es : Array (Option Value)} {size : Nat} {v : Value}
    (h : some v ∈ resize es size) : some v ∈ es := by
  unfold resize at h
  split at h
  · obtain ⟨i, hi⟩ := Array.mem_iff_getElem?.mp h
    rw [Array.getElem?_extract] at hi
    split at hi
    · exact Array.mem_of_getElem? hi
    · cases hi
  · simp only [Array.mem_append, Array.mem_replicate] at h
    rcases h with hbefore | ⟨_, hhole⟩
    · exact hbefore
    · cases hhole

theorem mem_setIfInBounds_none {es : Array (Option Value)} {i : Nat} {v : Value}
    (h : some v ∈ es.setIfInBounds i none) : some v ∈ es := by
  rcases Array.mem_or_eq_of_mem_setIfInBounds h with hbefore | heq
  · exact hbefore
  · cases heq

theorem Within.insert (h : r.Within n) (key : String) {p : DataProperty} (hp : p.value.Within n) :
    (r.insert key p).Within n :=
  { h with slots := h.slots.insert key hp }

theorem Within.with_elements (h : r.Within n) {es : Array (Option Value)}
    (hes : ∀ v, some v ∈ es → v.Within n) : { r with elements := some es }.Within n :=
  { h with elements := fun _ heq => by cases heq; exact hes }

theorem Within.define (h : r.Within n) (key : String) {p : DataProperty}
    (hp : p.value.Within n) : (r.define key p).Within n := by
  obtain ⟨r', hr', heq⟩ : ∃ r' : ObjectRecord, r'.Within n ∧
      (if p.writable then r else { r with sharedParameters := r.sharedParameters.erase key }) =
        r' := by
    refine ⟨_, ?_, rfl⟩
    split
    · exact h
    · exact { h with }
  unfold ObjectRecord.define
  dsimp only
  rw [heq]
  split
  · rename_i elements i helements _
    split
    · refine hr'.with_elements fun v hv => ?_
      rcases mem_storeElement hv with rfl | hbefore
      · exact hp
      · exact hr'.elements _ helements v hbefore
    · refine (hr'.with_elements fun v hv => ?_).insert key hp
      exact hr'.elements _ helements v (mem_setIfInBounds_none hv)
  · exact hr'.insert key hp

theorem Within.assign (h : r.Within n) (key : String) {value : Value} (hvalue : value.Within n)
    (a : Assignment) : (r.assign key value a).Within n := by
  cases a with
  | refused => exact h
  | slot =>
    unfold ObjectRecord.assign
    dsimp only
    split
    · exact h.insert key hvalue
    · exact h.insert key hvalue
  | element i =>
    refine { h with elements := fun es hes v hv => ?_ }
    obtain ⟨before, hbefore, rfl⟩ := Option.map_eq_some_iff.mp hes
    rcases mem_storeElement hv with rfl | hv
    · exact hvalue
    · exact h.elements _ hbefore v hv
  | length size =>
    refine { h with elements := fun es hes v hv => ?_ }
    obtain ⟨before, hbefore, rfl⟩ := Option.map_eq_some_iff.mp hes
    exact h.elements _ hbefore v (mem_resize hv)

theorem Within.delete (h : r.Within n) (key : String) : (r.delete key).Within n := by
  unfold ObjectRecord.delete
  split
  · exact { h with slots := h.slots.erase key }
  · split
    · rename_i elements i helements _
      exact h.with_elements fun v hv => h.elements _ helements v (mem_setIfInBounds_none hv)
    · exact h

@[simp] theorem prototype_define (key : String) (p : DataProperty) :
    (r.define key p).prototype = r.prototype := by
  unfold define
  by_cases hw : p.writable = true
  · simp only [hw, if_true]
    split
    · split <;> rfl
    · rfl
  · simp only [hw]
    split
    · split <;> rfl
    · rfl

@[simp] theorem prototype_assign (key : String) (value : Value) (a : Assignment) :
    (r.assign key value a).prototype = r.prototype := by
  cases a with
  | refused => rfl
  | slot => unfold assign; dsimp only; split <;> rfl
  | element i => rfl
  | length size => rfl

@[simp] theorem prototype_delete (key : String) : (r.delete key).prototype = r.prototype := by
  unfold delete
  split
  · rfl
  · split <;> rfl

/-! ### Reading a record -/

theorem Within.elementProperty? (h : r.Within n) {key : String} {p : DataProperty}
    (hp : r.elementProperty? key = some p) : p.value.Within n := by
  unfold ObjectRecord.elementProperty? at hp
  split at hp
  · cases hp
  · rename_i elements helements
    split at hp
    · cases hp
      trivial
    · split at hp
      · rename_i i _
        obtain ⟨v, hv, rfl⟩ := Option.map_eq_some_iff.mp hp
        exact h.elements _ helements v (Array.mem_of_getElem? (Option.join_eq_some_iff.mp hv))
      · cases hp

theorem unitProperty?_within {key : String} {p : DataProperty}
    (hp : r.unitProperty? key = some p) : p.value.Within n := by
  unfold ObjectRecord.unitProperty? at hp
  split at hp
  · cases hp
  · split at hp
    · cases hp
      trivial
    · split at hp
      · obtain ⟨unit, _, rfl⟩ := Option.map_eq_some_iff.mp hp
        trivial
      · cases hp

theorem Within.ownProperty? (h : r.Within n) {shared : Option Value}
    (hshared : ∀ v ∈ shared, v.Within n) {key : String} {p : DataProperty}
    (hp : r.ownProperty? shared key = some p) : p.value.Within n := by
  unfold ObjectRecord.ownProperty? at hp
  split at hp
  · rename_i slot hslot
    cases hp
    cases shared with
    | none => exact h.slots.find? hslot
    | some v => exact hshared v rfl
  · rcases Option.or_eq_some_iff.mp hp with hp | ⟨_, hp⟩
    · exact h.elementProperty? hp
    · exact unitProperty?_within hp

/-! ### New records -/

theorem within_error (kind : ErrorKind) (message : String) (hn : intrinsicCount ≤ n) :
    (ObjectRecord.error kind message).Within n where
  slots := .ofList (List.forall_mem_singleton.mpr trivial)
  prototype p hp := by
    cases hp
    cases kind <;> exact Nat.lt_of_lt_of_le (by decide) hn
  elements := nofun
  primitive := nofun

theorem within_array {elements : Array (Option Value)} (hn : intrinsicCount ≤ n)
    (h : ∀ v, some v ∈ elements → v.Within n) : (ObjectRecord.array elements).Within n where
  slots := .empty
  prototype p hp := by
    cases hp
    exact Nat.lt_of_lt_of_le (by decide) hn
  elements es hes := by
    cases hes
    exact h
  primitive := nofun

theorem within_function (callable : Callable) (hn : intrinsicCount ≤ n) :
    (ObjectRecord.function callable).Within n where
  slots := .ofList (List.forall_mem_cons.mpr ⟨trivial, List.forall_mem_singleton.mpr trivial⟩)
  prototype p hp := by
    cases hp
    exact Nat.lt_of_lt_of_le (by decide) hn
  elements := nofun
  primitive := nofun

theorem within_wrapper {primitive : Value} (hn : intrinsicCount ≤ n) (h : primitive.Within n) :
    (ObjectRecord.wrapper primitive).Within n where
  slots := .empty
  prototype p hp := by
    cases hp
    refine Nat.lt_of_lt_of_le ?_ hn
    cases hprototype : primitive.primitivePrototype? with
    | none => decide
    | some p => exact Value.primitivePrototype?_lt hprototype
  elements := nofun
  primitive v hv := by
    cases hv
    exact h

/-- An object without properties that inherits from a known object or from none. -/
theorem within_bare {prototype : Option ObjectId} (h : ∀ p ∈ prototype, p.index < n) :
    ({ prototype } : ObjectRecord).Within n :=
  ⟨.empty, h, nofun, nofun⟩

theorem argumentSlots_all {arguments : List Value} (h : ∀ v ∈ arguments, v.Within n) :
    (argumentSlots arguments).All fun p => p.value.Within n := by
  refine .ofList (List.forall_mem_cons.mpr ⟨trivial, fun entry hentry => ?_⟩)
  obtain ⟨⟨value, i⟩, hmem, rfl⟩ := List.mem_map.mp hentry
  exact h value (List.fst_mem_of_mem_zipIdx hmem)

theorem within_arguments {arguments : List Value} {callee : Value}
    (mapped : Option (ScopeId × List String)) (hn : intrinsicCount ≤ n)
    (harguments : ∀ v ∈ arguments, v.Within n) (hcallee : callee.Within n) :
    (ObjectRecord.arguments arguments callee mapped).Within n := by
  have hobject : ObjectId.objectPrototype.index < n := Nat.lt_of_lt_of_le (by decide) hn
  have hslots := argumentSlots_all harguments
  unfold ObjectRecord.arguments
  cases mapped with
  | none => exact ⟨hslots, fun p hp => by cases hp; exact hobject, nofun, nofun⟩
  | some shared =>
    exact ⟨hslots.insert _ hcallee, fun p hp => by cases hp; exact hobject, nofun, nofun⟩

end ObjectRecord

end ProtoScript
