import ProtoScript.Store.Allocation
/-!
# Where an object keeps its properties

An own property stands in a slot or else beneath the slots: as an element, as a unit of a wrapped
string, or as the length of either.  One equation for each operation says what it changes, and two
invariants what all of them keep: the slots at indices of an array are never plain, since plain
properties there are elements, and a property that shares a parameter has a slot that is writable.
-/

namespace ProtoScript

namespace ObjectRecord

variable {r : ObjectRecord} {key other : String} {p q : DataProperty}

/-! ### Elements -/

theorem size_storeElement (es : Array (Option Value)) (i : Nat) (value : Value) :
    (storeElement es i value).size = max es.size (i + 1) := by
  unfold storeElement
  split
  · rw [Array.size_setIfInBounds]
    omega
  · rw [Array.size_push, Array.size_append, Array.size_replicate]
    omega

theorem size_le_size_storeElement (es : Array (Option Value)) (i : Nat) (value : Value) :
    es.size ≤ (storeElement es i value).size := by
  rw [size_storeElement]
  exact Nat.le_max_left ..

theorem size_resize (es : Array (Option Value)) (size : Nat) : (resize es size).size = size := by
  unfold resize
  split
  · rw [Array.size_extract]
    omega
  · rw [Array.size_append, Array.size_replicate]
    omega

/-! ### Reading -/

def beneath? (r : ObjectRecord) (key : String) : Option DataProperty :=
  (r.elementProperty? key).or (r.unitProperty? key)

theorem ownProperty?_of_slot (h : r.slots.find? key = some p) (shared : Option Value) :
    r.ownProperty? shared key = some { p with value := shared.getD p.value } := by
  rw [ownProperty?, h]

theorem ownProperty?_of_no_slot (h : r.slots.find? key = none) (shared : Option Value) :
    r.ownProperty? shared key = r.beneath? key := by
  rw [ownProperty?, h]
  rfl

theorem arrayIndex?_length : Number.arrayIndex? "length" = none := by decide

theorem unitProperty?_eq_none_iff : r.unitProperty? key = none ↔ r.isUnitKey key = false := by
  unfold unitProperty? isUnitKey
  split
  · simp
  · next t _ =>
    by_cases hlength : key = "length"
    · simp [hlength]
    · cases hindex : Number.arrayIndex? key with
      | none => simp [hlength]
      | some i => simp [hlength, Text.unitAt?]

/-! ### Defining -/

def makesElement (r : ObjectRecord) (key : String) (p : DataProperty) : Bool :=
  r.elements.isSome && (Number.arrayIndex? key).isSome && p.isPlain

/-- The elements with a property put among them or, if it is not plain, dropped from them. -/
def elementsWith (r : ObjectRecord) (key : String) (p : DataProperty) :
    Option (Array (Option Value)) :=
  r.elements.map fun elements =>
    match Number.arrayIndex? key with
    | none => elements
    | some i =>
      if p.isPlain then storeElement elements i p.value else elements.setIfInBounds i none

theorem writable_of_isPlain (h : p.isPlain = true) : p.writable = true := by
  simp only [DataProperty.isPlain, Bool.and_eq_true] at h
  exact h.1.1

theorem define_eq (r : ObjectRecord) (key : String) (p : DataProperty) : r.define key p =
    { r with
      slots := if r.makesElement key p then r.slots else r.slots.insert key p
      elements := r.elementsWith key p
      sharedParameters :=
        if p.writable then r.sharedParameters else r.sharedParameters.erase key } := by
  obtain ⟨slots, prototype, callable, elements, objectClass, extensible, primitive, shared⟩ := r
  unfold define makesElement elementsWith
  cases elements with
  | none => by_cases hw : p.writable = true <;> simp [hw, insert]
  | some es =>
    cases Number.arrayIndex? key with
    | none => by_cases hw : p.writable = true <;> simp [hw, insert]
    | some i =>
      by_cases hplain : p.isPlain = true
      · simp [hplain, writable_of_isPlain hplain]
      · by_cases hw : p.writable = true <;> simp [hw, hplain, insert]

/-! ### Assigning -/

inductive Assigned (r : ObjectRecord) (key : String) (value : Value) :
    Assignment → ObjectRecord → Prop
  | refused : (∀ p, r.slots.find? key = some p → p.writable = false) →
    Assigned r key value .refused r
  | written {p : DataProperty} : r.slots.find? key = some p → p.writable = true →
    Assigned r key value .slot (r.insert key { p with value })
  | created : r.slots.find? key = none → r.isUnitKey key = false →
    (r.elements.isSome = true → key ≠ "length" ∧ Number.arrayIndex? key = none) →
    Assigned r key value .slot (r.insert key (.plain value))
  | element {es : Array (Option Value)} {i : Nat} : r.slots.find? key = none →
    r.elements = some es → Number.arrayIndex? key = some i →
    Assigned r key value (.element i) { r with elements := some (storeElement es i value) }
  | resized {es : Array (Option Value)} {size : Nat} : r.slots.find? key = none →
    r.elements = some es → key = "length" → arrayLength? value = some size →
    Assigned r key value (.length size) { r with elements := some (resize es size) }

theorem Assigned.refused_of_no_slot {value : Value} (h : r.slots.find? key = none) :
    Assigned r key value .refused r :=
  .refused fun _ hp => nomatch h.symm.trans hp

theorem Assigned.slot_of_refused {value : Value} {r' : ObjectRecord}
    (h : Assigned r key value .refused r') :
    ∀ p, r.slots.find? key = some p → p.writable = false := by
  cases h with
  | refused hslot => exact hslot

theorem assigned_of_elsewhere {inherited : Option DataProperty} {value : Value}
    (hslot : r.slots.find? key = none)
    (hplace : r.elements.isSome = true → key ≠ "length" ∧ Number.arrayIndex? key = none)
    (h : r.assignment inherited key value =
      if r.isUnitKey key || inherited.any (fun p => !p.writable) || !r.extensible then .refused
      else .slot) :
    Assigned r key value (r.assignment inherited key value)
      (r.assign key value (r.assignment inherited key value)) := by
  by_cases hrefused : (r.isUnitKey key || inherited.any (fun p => !p.writable) ||
      !r.extensible) = true
  · rw [h, if_pos hrefused]
    exact .refused_of_no_slot hslot
  · rw [h, if_neg hrefused, assign, hslot]
    simp only [Bool.or_eq_true, not_or, Bool.not_eq_true] at hrefused
    exact .created hslot hrefused.1.1 hplace

theorem assigned_assign (r : ObjectRecord) (inherited : Option DataProperty) (key : String)
    (value : Value) :
    Assigned r key value (r.assignment inherited key value)
      (r.assign key value (r.assignment inherited key value)) := by
  cases hslot : r.slots.find? key with
  | some p =>
    by_cases hwritable : p.writable = true
    · have heq : r.assignment inherited key value = .slot := by simp [assignment, hslot, hwritable]
      rw [heq, assign, hslot]
      exact .written hslot hwritable
    · have heq : r.assignment inherited key value = .refused := by
        simp [assignment, hslot, hwritable]
      rw [heq]
      refine .refused fun q hq => ?_
      cases hslot.symm.trans hq
      exact Bool.not_eq_true _ ▸ hwritable
  | none =>
    cases helements : r.elements with
    | none =>
      apply assigned_of_elsewhere hslot (by simp [helements])
      simp [assignment, hslot, helements]
    | some es =>
      by_cases hlength : key = "length"
      · subst hlength
        cases hsize : arrayLength? value with
        | none =>
          have heq : r.assignment inherited "length" value = .refused := by
            simp [assignment, hslot, helements, hsize]
          rw [heq]
          exact .refused_of_no_slot hslot
        | some size =>
          have heq : r.assignment inherited "length" value = .length size := by
            simp [assignment, hslot, helements, hsize]
          rw [heq, assign, helements]
          exact .resized hslot helements rfl hsize
      · have hother : (key == "length") = false := by simpa using hlength
        cases hindex : Number.arrayIndex? key with
        | none =>
          apply assigned_of_elsewhere hslot fun _ => ⟨hlength, hindex⟩
          simp [assignment, hslot, helements, hother, hindex]
        | some i =>
          by_cases hextensible : r.extensible = true
          · have heq : r.assignment inherited key value = .element i := by
              simp [assignment, hslot, helements, hother, hindex, hextensible]
            rw [heq, assign, helements]
            exact .element hslot helements hindex
          · have heq : r.assignment inherited key value = .refused := by
              simp [assignment, hslot, helements, hother, hindex, hextensible]
            rw [heq]
            exact .refused_of_no_slot hslot

/-! ### Deleting -/

theorem find?_erase_eq_none {β : Type} {m : NameMap β} (h : m.find? key = none)
    (other : String) : (m.erase other).find? key = none := by
  rw [NameMap.find?_erase, h]
  split <;> rfl

theorem delete_of_slot (h : r.slots.find? key = some p) : r.delete key =
    { r with slots := r.slots.erase key, sharedParameters := r.sharedParameters.erase key } := by
  simp [delete, OrderedMap.contains, h]

theorem delete_of_no_slot (h : r.slots.find? key = none) : r.delete key =
    { r with
      elements := r.elements.map fun es =>
        match Number.arrayIndex? key with
        | some i => es.setIfInBounds i none
        | none => es } := by
  obtain ⟨slots, prototype, callable, elements, objectClass, extensible, primitive, shared⟩ := r
  dsimp only at h
  cases elements with
  | none => simp [delete, OrderedMap.contains, h]
  | some es =>
    cases hindex : Number.arrayIndex? key <;> simp [delete, OrderedMap.contains, h, hindex]

/-! ### What is no array -/

theorem elements_define_of_none (h : r.elements = none) : (r.define key p).elements = none := by
  rw [define_eq]
  dsimp only
  rw [elementsWith, h]
  rfl

theorem elements_assign_of_none (h : r.elements = none) (value : Value) (a : Assignment) :
    (r.assign key value a).elements = none := by
  cases a with
  | refused => exact h
  | slot =>
    unfold assign
    dsimp only
    split <;> exact h
  | element i => exact congrArg (Option.map _) h
  | length size => exact congrArg (Option.map _) h

theorem elements_delete_of_none (h : r.elements = none) : (r.delete key).elements = none := by
  cases hslot : r.slots.find? key with
  | some p =>
    rw [delete_of_slot hslot]
    exact h
  | none =>
    rw [delete_of_no_slot hslot]
    exact congrArg (Option.map _) h

/-! ### What stays true of a record -/

/-- The keys of the slots stand in their order, an array wraps no string, and its slots at indices
hold no plain properties. -/
structure Tidy (r : ObjectRecord) : Prop where
  inStep : r.slots.InStep
  unwrapped : r.elements.isSome = true → r.wrappedText? = none
  special : r.elements.isSome = true → ∀ key p, (Number.arrayIndex? key).isSome = true →
    r.slots.find? key = some p → p.isPlain = false

def Linked (r : ObjectRecord) : Prop :=
  ∀ key, r.sharedParameters.find? key ≠ none → ∃ p, r.slots.find? key = some p ∧ p.writable = true

namespace Tidy

theorem of_no_elements (h : r.elements = none) (hslots : r.slots.InStep) : r.Tidy where
  inStep := hslots
  unwrapped hsome := by rw [h] at hsome; cases hsome
  special hsome := by rw [h] at hsome; cases hsome

theorem insert (h : r.Tidy) (hp : r.elements.isSome = true →
    (Number.arrayIndex? key).isSome = true → p.isPlain = false) : (r.insert key p).Tidy where
  inStep := h.inStep.insert key p
  unwrapped := h.unwrapped
  special hsome other q hindex hq := by
    change (r.slots.insert key p).find? other = some q at hq
    rw [OrderedMap.find?_insert] at hq
    split at hq
    · next heq =>
      subst heq
      cases hq
      exact hp hsome hindex
    · exact h.special hsome other q hindex hq

/-- New elements where there are elements, and fewer shared parameters. -/
theorem with_elements (h : r.Tidy) {elements : Option (Array (Option Value))}
    (hsome : elements.isSome = true → r.elements.isSome = true)
    (shared : NameMap (ScopeId × String)) :
    { r with elements := elements, sharedParameters := shared }.Tidy where
  inStep := h.inStep
  unwrapped helements := h.unwrapped (hsome helements)
  special helements := h.special (hsome helements)

theorem define (h : r.Tidy) (key : String) (p : DataProperty) : (r.define key p).Tidy := by
  rw [define_eq]
  have helements : (r.elementsWith key p).isSome = true → r.elements.isSome = true := by
    rw [elementsWith, Option.isSome_map]
    exact id
  by_cases hmakes : r.makesElement key p = true
  · rw [if_pos hmakes]
    exact h.with_elements helements _
  · rw [if_neg hmakes]
    refine (h.insert fun hsome hindex => ?_).with_elements helements _
    rw [makesElement, hsome, hindex, Bool.true_and, Bool.true_and, Bool.not_eq_true] at hmakes
    exact hmakes

theorem assign (h : r.Tidy) {value : Value} {a : Assignment} {r' : ObjectRecord}
    (hr' : Assigned r key value a r') : r'.Tidy := by
  cases hr' with
  | refused => exact h
  | @written p hp _ => exact h.insert fun hsome hindex => h.special hsome key p hindex hp
  | created _ _ hplace =>
    refine h.insert fun hsome hindex => ?_
    rw [(hplace hsome).2] at hindex
    cases hindex
  | element _ hes _ => exact h.with_elements (fun _ => by rw [hes]; rfl) _
  | resized _ hes _ _ => exact h.with_elements (fun _ => by rw [hes]; rfl) _

theorem delete (h : r.Tidy) (key : String) : (r.delete key).Tidy := by
  cases hslot : r.slots.find? key with
  | some p =>
    rw [delete_of_slot hslot]
    refine ⟨h.inStep.erase key, h.unwrapped,
      fun hsome other q hindex hq => h.special hsome other q hindex ?_⟩
    dsimp only at hq
    rw [OrderedMap.find?_erase] at hq
    split at hq
    · cases hq
    · exact hq
  | none =>
    rw [delete_of_no_slot hslot]
    exact h.with_elements (by rw [Option.isSome_map]; exact id) _

end Tidy

namespace Linked

theorem find?_eq_none (h : r.Linked)
    (hslot : ∀ p, r.slots.find? key = some p → p.writable = false) :
    r.sharedParameters.find? key = none := by
  cases hshared : r.sharedParameters.find? key with
  | none => rfl
  | some shared =>
    obtain ⟨p, hp, hwritable⟩ := h key (by rw [hshared]; exact Option.some_ne_none _)
    cases hwritable.symm.trans (hslot p hp)

theorem of_unshared (h : r.sharedParameters = .empty) : r.Linked := by
  intro key hkey
  rw [h] at hkey
  exact absurd (NameMap.find?_empty key) hkey

theorem insert (h : r.Linked) (hp : r.sharedParameters.find? key ≠ none → p.writable = true) :
    (r.insert key p).Linked := by
  intro other hother
  change ∃ q, (r.slots.insert key p).find? other = some q ∧ q.writable = true
  rw [OrderedMap.find?_insert]
  by_cases heq : other = key
  · subst heq
    rw [if_pos rfl]
    exact ⟨p, rfl, hp hother⟩
  · rw [if_neg heq]
    exact h other hother

theorem unshare (h : r.Linked) (key : String) :
    { r with sharedParameters := r.sharedParameters.erase key }.Linked := by
  intro other hother
  apply h other
  dsimp only at hother
  rw [NameMap.find?_erase] at hother
  split at hother
  · exact absurd rfl hother
  · exact hother

theorem with_elements (h : r.Linked) (elements : Option (Array (Option Value))) :
    { r with elements := elements }.Linked := h

theorem define (h : r.Linked) (key : String) (p : DataProperty) : (r.define key p).Linked := by
  rw [define_eq]
  by_cases hmakes : r.makesElement key p = true
  · have hwritable : p.writable = true := by
      simp only [makesElement, Bool.and_eq_true] at hmakes
      exact writable_of_isPlain hmakes.2
    rw [if_pos hmakes, if_pos hwritable]
    exact h.with_elements _
  · rw [if_neg hmakes]
    by_cases hwritable : p.writable = true
    · rw [if_pos hwritable]
      exact (h.insert fun _ => hwritable).with_elements _
    · rw [if_neg hwritable]
      refine ((h.unshare key).insert fun hshared => absurd ?_ hshared).with_elements _
      dsimp only
      rw [NameMap.find?_erase, if_pos rfl]

theorem assign (h : r.Linked) {value : Value} {a : Assignment} {r' : ObjectRecord}
    (hr' : Assigned r key value a r') : r'.Linked := by
  cases hr' with
  | refused => exact h
  | written _ hwritable => exact h.insert fun _ => hwritable
  | created => exact h.insert fun _ => rfl
  | element => exact h.with_elements _
  | resized => exact h.with_elements _

theorem delete (h : r.Linked) (key : String) : (r.delete key).Linked := by
  cases hslot : r.slots.find? key with
  | some p =>
    rw [delete_of_slot hslot]
    intro other hother
    dsimp only at hother ⊢
    rw [NameMap.find?_erase] at hother
    rw [OrderedMap.find?_erase]
    by_cases heq : other = key
    · rw [if_pos heq] at hother
      exact absurd rfl hother
    · rw [if_neg heq] at hother ⊢
      exact h other hother
  | none =>
    rw [delete_of_no_slot hslot]
    exact h.with_elements _

end Linked

end ObjectRecord

end ProtoScript
