import ProtoScript.Proofs.Slots.Operations
/-!
# Definitions are seen and deletions take effect

A property that was just defined is what is read, and a property that was just deleted is not there,
with two exceptions.  A plain property at an index of an array becomes an element even if the index
has a slot, which stays in front of it.  And a slot that goes away uncovers what is beneath it: such
an element, or a unit or the length that a definition has put a slot in front of.
-/

namespace ProtoScript

namespace ObjectRecord

variable {r : ObjectRecord} {key : String} {p q : DataProperty}

theorem getElem?_storeElement (es : Array (Option Value)) (i : Nat) (value : Value) :
    (storeElement es i value)[i]? = some (some value) := by
  unfold storeElement
  split
  · next h => rw [Array.getElem?_setIfInBounds_self_of_lt h]
  · next h =>
    have hsize : (es ++ Array.replicate (i - es.size) none).size = i := by
      rw [Array.size_append, Array.size_replicate]
      omega
    rw [Array.getElem?_push, if_pos hsize.symm]

theorem elementProperty?_of_index {es : Array (Option Value)} {i : Nat} (hes : r.elements = some es)
    (hindex : Number.arrayIndex? key = some i) :
    r.elementProperty? key = (es[i]?.join).map .plain := by
  have hlength : key ≠ "length" := by
    rintro rfl
    cases arrayIndex?_length.symm.trans hindex
  unfold elementProperty?
  rw [hes]
  simp only [if_neg hlength, hindex]

/-- A definition that makes an element is read there unless a slot is in front. -/
theorem elementProperty?_define (h : r.makesElement key p = true) :
    (r.define key p).elementProperty? key = some p := by
  simp only [makesElement, Bool.and_eq_true, Option.isSome_iff_exists] at h
  obtain ⟨⟨⟨es, hes⟩, i, hindex⟩, hplain⟩ := h
  have helements : (r.define key p).elements = some (storeElement es i p.value) := by
    rw [define_eq]
    simp only [elementsWith, hes, hindex, hplain, Option.map_some, if_true]
  rw [elementProperty?_of_index helements hindex, getElem?_storeElement]
  obtain ⟨value, writable, enumerable, configurable⟩ := p
  simp only [DataProperty.isPlain, Bool.and_eq_true] at hplain
  obtain ⟨⟨rfl, rfl⟩, rfl⟩ := hplain
  rfl

theorem slots_define_of_makesElement (h : r.makesElement key p = true) :
    (r.define key p).slots = r.slots := by
  rw [define_eq, if_pos h]

theorem find?_slots_define_of_not (h : ¬ r.makesElement key p = true) :
    (r.define key p).slots.find? key = some p := by
  rw [define_eq, if_neg h]
  dsimp only
  rw [OrderedMap.find?_insert, if_pos rfl]

theorem ownProperty?_define_ne (htidy : r.Tidy) (h : r.makesElement key p = true)
    (hslot : r.slots.find? key = some q) (shared : Option Value) :
    (r.define key p).ownProperty? shared key ≠ some { p with value := shared.getD p.value } := by
  rw [ownProperty?_of_slot (by rw [slots_define_of_makesElement h, hslot])]
  simp only [makesElement, Bool.and_eq_true] at h
  have hspecial : q.isPlain = false := htidy.special h.1.1 key q h.1.2 hslot
  have hplain : p.isPlain = true := h.2
  intro heq
  have hflags := congrArg DataProperty.isPlain (Option.some.inj heq)
  change q.isPlain = p.isPlain at hflags
  rw [hspecial, hplain] at hflags
  cases hflags

/-- What is read behind a definition.  `shared` is the value of a parameter that is shared then. -/
theorem ownProperty?_define (htidy : r.Tidy) (hlinked : r.Linked) {shared : Option Value}
    (hshared : (r.define key p).sharedParameters.find? key = none → shared = none) :
    (r.define key p).ownProperty? shared key = some { p with value := shared.getD p.value } ↔
      ¬ (r.makesElement key p = true ∧ r.slots.find? key ≠ none) := by
  by_cases hmakes : r.makesElement key p = true
  · cases hslot : r.slots.find? key with
    | none =>
      have hslot' : (r.define key p).slots.find? key = none := by
        rw [slots_define_of_makesElement hmakes, hslot]
      have hnone : shared = none := by
        apply hshared
        apply (hlinked.define key p).find?_eq_none
        intro q hq
        cases hslot'.symm.trans hq
      rw [ownProperty?_of_no_slot hslot', beneath?, elementProperty?_define hmakes, hnone]
      simp
    | some q =>
      have hne := ownProperty?_define_ne htidy hmakes hslot shared
      simp [hne, hmakes]
  · rw [ownProperty?_of_slot (find?_slots_define_of_not hmakes)]
    simp [hmakes]

theorem unitProperty?_eq_none (h : r.wrappedText? = none) : r.unitProperty? key = none := by
  unfold unitProperty?
  rw [h]

theorem beneath?_delete_of_slot (hslot : r.slots.find? key = some q) :
    (r.delete key).beneath? key = r.beneath? key := by
  rw [delete_of_slot hslot]
  rfl

theorem beneath?_delete_of_no_slot (htidy : r.Tidy) (hslot : r.slots.find? key = none)
    (h : r.mayDelete key = true) : (r.delete key).beneath? key = none := by
  have htidy' := htidy.delete key
  rw [delete_of_no_slot hslot] at htidy' ⊢
  cases hes : r.elements with
  | none =>
    have hunit : r.isUnitKey key = false := by simpa [mayDelete, hslot, hes] using h
    rw [← unitProperty?_eq_none_iff] at hunit
    exact hunit
  | some es =>
    have hlength : key ≠ "length" := by
      rintro rfl
      simp [mayDelete, hslot, hes] at h
    rw [hes, Option.map_some] at htidy'
    rw [Option.map_some, beneath?, unitProperty?_eq_none (htidy'.unwrapped rfl), Option.or_none]
    cases hindex : Number.arrayIndex? key with
    | none =>
      simp only [elementProperty?, if_neg hlength, hindex]
    | some i =>
      rw [elementProperty?_of_index rfl hindex]
      dsimp only
      rw [Array.getElem?_setIfInBounds, if_pos rfl]
      split
      · rfl
      · rfl

theorem ownProperty?_delete (htidy : r.Tidy) (h : r.mayDelete key = true)
    (shared : Option Value) : (r.delete key).ownProperty? shared key = none ↔
      ¬ (r.slots.find? key ≠ none ∧ r.beneath? key ≠ none) := by
  cases hslot : r.slots.find? key with
  | none =>
    have hslot' : (r.delete key).slots.find? key = none := by
      rw [delete_of_no_slot hslot]
      exact hslot
    rw [ownProperty?_of_no_slot hslot', beneath?_delete_of_no_slot htidy hslot h]
    simp
  | some q =>
    have hslot' : (r.delete key).slots.find? key = none := by
      rw [delete_of_slot hslot]
      dsimp only
      rw [OrderedMap.find?_erase, if_pos rfl]
    rw [ownProperty?_of_no_slot hslot', beneath?_delete_of_slot hslot]
    simp

end ObjectRecord

namespace Store

variable {s : Store} {id : ObjectId} {r : ObjectRecord} {key : String} {p : DataProperty}

/-- The property as it is read once it is defined: a parameter that it shares has its value. -/
def asDefined (s : Store) (id : ObjectId) (key : String) (p : DataProperty) : DataProperty :=
  { p with value := ((s.object? id).bind fun r => s.sharedValue? r key).getD p.value }

/-- The property would become an element of an array behind a slot. -/
def HidesDefinition (s : Store) (id : ObjectId) (key : String) (p : DataProperty) : Prop :=
  ∃ r, s.object? id = some r ∧ r.makesElement key p = true ∧ r.slots.find? key ≠ none

/-- The object has a slot at the key and another property beneath it. -/
def CoversProperty (s : Store) (id : ObjectId) (key : String) : Prop :=
  ∃ r, s.object? id = some r ∧ r.slots.find? key ≠ none ∧ r.beneath? key ≠ none

theorem object?_define (hr : s.object? id = some r) (h : (s.define id key p).1 = true) :
    (s.define id key p).2.object? id = some (r.define key p) := by
  rw [define_fst hr] at h
  obtain ⟨inherited, hobject⟩ := object?_operate hr (.define key p)
  rw [ObjectRecord.after, if_pos h] at hobject
  exact hobject

theorem object?_delete (hr : s.object? id = some r) (h : (s.delete id key).1 = true) :
    (s.delete id key).2.object? id = some (r.delete key) := by
  rw [delete_fst hr] at h
  obtain ⟨inherited, hobject⟩ := object?_operate hr (.delete key)
  rw [ObjectRecord.after, if_pos h] at hobject
  exact hobject

theorem ownProperty?_define_iff (hr : s.object? id = some r) (htidy : r.Tidy) (hlinked : r.Linked)
    (h : (s.define id key p).1 = true) :
    (s.define id key p).2.ownProperty? id key = some ((s.define id key p).2.asDefined id key p) ↔
      ¬ s.HidesDefinition id key p := by
  have hobject := object?_define hr h
  rw [ownProperty?_of_object? hobject, asDefined, hobject, Option.bind_some,
    ObjectRecord.ownProperty?_define htidy hlinked sharedValue?_of_unshared, HidesDefinition, hr]
  simp

theorem ownProperty?_delete_iff (hr : s.object? id = some r) (htidy : r.Tidy)
    (h : (s.delete id key).1 = true) :
    (s.delete id key).2.ownProperty? id key = none ↔ ¬ s.CoversProperty id key := by
  have hobject := object?_delete hr h
  rw [delete_fst hr] at h
  rw [ownProperty?_of_object? hobject, ObjectRecord.ownProperty?_delete htidy h, CoversProperty, hr]
  simp

/-- Whatever has been done to the properties of an object since it was new, a definition that goes
through is what is read behind it, unless it makes an element behind a slot, and a deletion that
goes through leaves nothing, unless it uncovers a property beneath a slot. -/
theorem define_delete_coherent (hr : s.object? id = some r) (hnew : r.IsNew)
    (ops : List PropertyOperation) (key : String) :
    (∀ p, ((s.operateAll id ops).define id key p).1 = true →
      (((s.operateAll id ops).define id key p).2.ownProperty? id key =
          some (((s.operateAll id ops).define id key p).2.asDefined id key p) ↔
        ¬ (s.operateAll id ops).HidesDefinition id key p)) ∧
    (((s.operateAll id ops).delete id key).1 = true →
      (((s.operateAll id ops).delete id key).2.ownProperty? id key = none ↔
        ¬ (s.operateAll id ops).CoversProperty id key)) := by
  obtain ⟨r', hr', htidy, hlinked⟩ := exists_tidy_linked hr hnew ops
  exact ⟨fun p h => ownProperty?_define_iff hr' htidy hlinked h,
    fun h => ownProperty?_delete_iff hr' htidy h⟩

/-- A read-only property at an index of an array that is defined as a plain one stays what it is. -/
theorem define_delete_coherent_hidden :
    let s : Store := ⟨#[], #[.array #[]]⟩
    let s := s.operateAll ⟨0⟩ [.define "0" ⟨.undefined, false, true, true⟩]
    (s.define ⟨0⟩ "0" (.plain .null)).1 = true ∧
      (s.define ⟨0⟩ "0" (.plain .null)).2.ownProperty? ⟨0⟩ "0" ≠
        some ((s.define ⟨0⟩ "0" (.plain .null)).2.asDefined ⟨0⟩ "0" (.plain .null)) := by
  intro s₀ s
  have hnew : s₀.object? ⟨0⟩ = some (.array #[]) := rfl
  have hdefined : (s.define ⟨0⟩ "0" (.plain .null)).1 = true := by decide +kernel
  have hcoherent := (define_delete_coherent hnew (.array #[])
    [.define "0" ⟨.undefined, false, true, true⟩] "0").1 (.plain .null) hdefined
  refine ⟨hdefined, fun hread => hcoherent.mp hread ?_⟩
  refine ⟨_, rfl, ?_, ?_⟩
  · decide +kernel
  · exact Option.some_ne_none _

end Store

end ProtoScript
