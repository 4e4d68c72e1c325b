import Mathlib.Data.List.Basic
import ProtoScript.Proofs.Keys.Listing
import ProtoScript.Proofs.Slots.Writes
/-!
# Arrays that hold lists

A list with holes, and what the operations on a record do to the list that its elements are.  They
do it as long as nothing stands in front of the elements: no slot at an index or at the length.
-/

namespace ProtoScript

/-! ### Lists with holes -/

abbrev HoledList := List (Option Value)

namespace HoledList

variable {l : HoledList} {i j n : Nat} {value : Value}

/-- The list with holes behind it, up to a length. -/
def extend (l : HoledList) (n : Nat) : HoledList := l ++ List.replicate (n - l.length) none

/-- The list cut off, or with holes behind it, so that it has a length. -/
def resize (l : HoledList) (n : Nat) : HoledList := (l.extend n).take n

/-- The list with a value at an index, and holes up to there if it was shorter. -/
def write (l : HoledList) (i : Nat) (value : Value) : HoledList :=
  (l.extend (i + 1)).set i (some value)

def filledIndices (l : HoledList) : List Nat :=
  (List.range l.length).filter fun i => (l[i]?.join).isSome

theorem ascending_filledIndices (l : HoledList) : l.filledIndices.Pairwise (· < ·) :=
  List.pairwise_lt_range.filter _

theorem lt_of_mem_filledIndices (l : HoledList) (h : i ∈ l.filledIndices) : i < l.length :=
  List.mem_range.mp (List.mem_filter.mp h).1

theorem length_extend (l : HoledList) (n : Nat) : (l.extend n).length = max l.length n := by
  rw [extend, List.length_append, List.length_replicate]
  omega

theorem toArray_write (l : HoledList) (i : Nat) (value : Value) :
    ObjectRecord.storeElement l.toArray i value = (l.write i value).toArray := by
  unfold ObjectRecord.storeElement
  rw [List.size_toArray]
  split
  · next h =>
    have hsame : l.extend (i + 1) = l := by
      rw [extend, Nat.sub_eq_zero_of_le h]
      exact List.append_nil l
    rw [write, hsame, List.setIfInBounds_toArray]
  · next h =>
    have hlength : i = (l ++ List.replicate (i - l.length) none).length := by
      rw [List.length_append, List.length_replicate]
      omega
    have hextend : l.extend (i + 1) = l ++ List.replicate (i - l.length) none ++ [none] := by
      rw [extend, show i + 1 - l.length = (i - l.length) + 1 by omega, List.replicate_succ',
        List.append_assoc]
    rw [write, hextend, List.set_append_right _ _ (Nat.le_of_eq hlength.symm), ← hlength,
      Nat.sub_self]
    simp

theorem toArray_resize (l : HoledList) (n : Nat) :
    ObjectRecord.resize l.toArray n = (l.resize n).toArray := by
  unfold ObjectRecord.resize
  rw [List.size_toArray]
  split
  · next h =>
    rw [resize, extend, Nat.sub_eq_zero_of_le h]
    simp
  · next h =>
    have hall : (l.extend n).take n = l.extend n := by
      refine List.take_of_length_le ?_
      rw [length_extend]
      omega
    rw [resize, hall, extend]
    simp

end HoledList

namespace ObjectRecord

/-! ### Records -/

structure Uncovered (r : ObjectRecord) : Prop where
  slots : ∀ key, r.slots.find? key ≠ none → key ≠ "length" ∧ Number.arrayIndex? key = none
  unwrapped : r.wrappedText? = none
  unshared : ∀ key, r.sharedParameters.find? key = none
  extensible : r.extensible = true

/-- The elements are those of a list, with nothing in front of them. -/
structure Holds (r : ObjectRecord) (l : HoledList) : Prop extends r.Uncovered where
  elements : r.elements = some l.toArray

variable {r : ObjectRecord} {l : HoledList} {i : Nat} {value : Value} {key : String}

namespace Uncovered

theorem slot_length (h : r.Uncovered) : r.slots.find? "length" = none :=
  Classical.not_not.mp fun hslot => (h.slots "length" hslot).1 rfl

theorem slot_index (h : r.Uncovered) (hi : Number.arrayIndex? key = some i) :
    r.slots.find? key = none :=
  Classical.not_not.mp fun hslot => Option.some_ne_none i (hi.symm.trans (h.slots key hslot).2)

theorem with_elements (h : r.Uncovered) (elements : Option (Array (Option Value))) :
    { r with elements }.Uncovered :=
  ⟨h.slots, h.unwrapped, h.unshared, h.extensible⟩

end Uncovered

namespace Holds

theorem with_elements (h : r.Holds l) (l' : HoledList) :
    { r with elements := some l'.toArray }.Holds l' :=
  ⟨h.toUncovered.with_elements _, rfl⟩

/-! ### What is read -/

theorem ownProperty?_length (h : r.Holds l) :
    r.ownProperty? none "length" = some ⟨.ofNat l.length, true, false, false⟩ := by
  rw [ObjectRecord.ownProperty?_length h.elements h.slot_length, List.size_toArray]

theorem ownProperty?_index (h : r.Holds l) (hi : i < 4294967295) :
    r.ownProperty? none (toString i) = (l[i]?.join).map .plain := by
  have hindex := Number.arrayIndex?_toString hi
  rw [ObjectRecord.ownProperty?_index h.unwrapped h.elements (h.slot_index hindex) hindex,
    List.getElem?_toArray]

theorem elementIndices_eq (h : r.Holds l) (hlength : l.length ≤ 4294967295) :
    r.elementIndices = l.filledIndices := by
  have hcounted : ∀ i ∈ l.filledIndices, i.toUInt32.toNat = i := fun i hi =>
    Nat.mod_eq_of_lt (Nat.lt_of_lt_of_le (l.lt_of_mem_filledIndices hi) (by omega))
  calc r.elementIndices = l.filledIndices.map fun i => i.toUInt32.toNat := by
        simp only [elementIndices, HoledList.filledIndices, h.elements, List.size_toArray,
          List.getElem?_toArray]
    _ = l.filledIndices := (List.map_congr_left hcounted).trans (List.map_id' _)

theorem indexKeys_eq (h : r.Holds l) (hlength : l.length ≤ 4294967295) (hidden : Bool) :
    r.indexKeys hidden = l.filledIndices.map fun i => (i, true) := by
  have hunits : r.unitIndices = [] := by rw [unitIndices, h.unwrapped]
  have hslots : ((r.listedSlots hidden).filterMap fun entry =>
      (Number.arrayIndex? entry.1).map fun i => (i, entry.2.enumerable)) = [] := by
    refine List.filterMap_eq_nil_iff.mpr fun entry hentry => ?_
    have hslot := OrderedMap.find?_of_mem_entries (List.mem_filter.mp hentry).1
    rw [(h.slots entry.1 (by rw [hslot]; exact Option.some_ne_none _)).2]
    rfl
  rw [indexKeys, hunits, List.append_nil, hslots, List.append_nil, h.elementIndices_eq hlength]

theorem dropRepeats_eq_self {entries : List (Nat × Bool)} {last : Option Nat}
    (h : entries.Pairwise fun a b => a.1 < b.1) (hlast : ∀ entry ∈ entries, last ≠ some entry.1) :
    dropRepeats last entries = entries := by
  induction entries generalizing last with
  | nil => rfl
  | cons entry rest ih =>
    obtain ⟨i, enumerable⟩ := entry
    obtain ⟨hfirst, hrest⟩ := List.pairwise_cons.mp h
    rw [dropRepeats, if_neg (hlast _ List.mem_cons_self), ih hrest fun entry hentry heq => ?_]
    exact absurd (hfirst entry hentry) (by rw [Option.some.inj heq]; exact Nat.lt_irrefl _)

theorem listedIndices_eq (h : r.Holds l) (hlength : l.length ≤ 4294967295) (hidden : Bool) :
    r.listedIndices hidden = l.filledIndices.map fun i => (i, true) := by
  have hascending : (l.filledIndices.map fun i => (i, true)).Pairwise fun a b => a.1 < b.1 :=
    List.pairwise_map.mpr l.ascending_filledIndices
  have hsorted : (l.filledIndices.map fun i => (i, true)).mergeSort (fun a b => a.1 ≤ b.1) =
      l.filledIndices.map fun i => (i, true) :=
    List.mergeSort_of_pairwise (hascending.imp fun hlt => decide_eq_true (Nat.le_of_lt hlt))
  rw [listedIndices, h.indexKeys_eq hlength, hsorted]
  exact dropRepeats_eq_self hascending (by simp)

/-- Of the own keys those that are indices are the indices at which the list has values. -/
theorem indices_ownKeys (h : r.Holds l) (hlength : l.length ≤ 4294967295) (hidden : Bool) :
    ((r.ownKeys hidden).map Prod.fst).filter (fun key => (Number.arrayIndex? key).isSome) =
      l.filledIndices.map toString := by
  have hindices : ((r.listedIndices hidden).map fun entry => (toString entry.1, entry.2)).map
      Prod.fst = l.filledIndices.map toString := by
    rw [h.listedIndices_eq hlength, List.map_map, List.map_map]
    rfl
  have hfilled : (l.filledIndices.map toString).filter
      (fun key => (Number.arrayIndex? key).isSome) = l.filledIndices.map toString := by
    refine List.filter_eq_self.mpr fun key hkey => ?_
    obtain ⟨i, hi, rfl⟩ := List.mem_map.mp hkey
    rw [Number.arrayIndex?_toString (Nat.lt_of_lt_of_le (l.lt_of_mem_filledIndices hi) hlength)]
    rfl
  have hnamed : ((r.namedKeys hidden).map Prod.fst).filter
      (fun key => (Number.arrayIndex? key).isSome) = [] := by
    refine List.filter_eq_nil_iff.mpr fun key hkey => ?_
    obtain ⟨entry, hentry, rfl⟩ := List.mem_map.mp hkey
    obtain ⟨slot, hslot, rfl⟩ := List.mem_map.mp hentry
    rw [Option.isNone_iff_eq_none.mp (List.mem_filter.mp hslot).2]
    exact Bool.false_ne_true
  rw [ownKeys_eq, List.map_append, List.filter_append, hindices, hfilled, hnamed, List.append_nil]

/-! ### What is written -/

theorem assign_index (h : r.Holds l) (hi : i < 4294967295) (inherited : Option DataProperty)
    (value : Value) :
    r.assignment inherited (toString i) value = .element i ∧
      r.assign (toString i) value (.element i) =
        { r with elements := some (l.write i value).toArray } := by
  have hindex := Number.arrayIndex?_toString hi
  have hother : (toString i == "length") = false := beq_false_of_ne Number.toString_ne_length
  constructor
  · simp only [assignment, h.slot_index hindex, h.elements, Option.isSome_some, hother, hindex,
      h.extensible, if_true]
  · simp only [assign, h.elements, Option.map_some, HoledList.toArray_write]

theorem assign_length (h : r.Holds l) (inherited : Option DataProperty) (value : Value) :
    match arrayLength? value with
    | some n =>
      r.assignment inherited "length" value = .length n ∧
        r.assign "length" value (.length n) = { r with elements := some (l.resize n).toArray }
    | none => r.assignment inherited "length" value = .refused := by
  cases hn : arrayLength? value with
  | none =>
    simp only [assignment, h.slot_length, h.elements, Option.isSome_some, beq_self_eq_true, hn]
  | some n =>
    constructor
    · simp only [assignment, h.slot_length, h.elements, Option.isSome_some, beq_self_eq_true, hn]
    · simp only [assign, h.elements, Option.map_some, HoledList.toArray_resize]

theorem delete_index (h : r.Holds l) (hi : i < 4294967295) :
    r.mayDelete (toString i) = true ∧
      r.delete (toString i) = { r with elements := some (l.set i none).toArray } := by
  have hindex := Number.arrayIndex?_toString hi
  have hslot := h.slot_index hindex
  constructor
  · simp only [mayDelete, hslot, h.elements, if_neg Number.toString_ne_length, isUnitKey,
      h.unwrapped, Bool.not_false, ite_self]
  · rw [delete_of_no_slot hslot, h.elements]
    simp only [hindex, Option.map_some, List.setIfInBounds_toArray]

end Holds

end ObjectRecord

end ProtoScript
