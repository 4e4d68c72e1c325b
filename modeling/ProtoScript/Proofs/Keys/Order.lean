import Mathlib.Data.List.Induction
import Mathlib.Data.List.Nodup
import ProtoScript.Proofs.Keys.Listing
/-!
# The order of own keys

A record that begins without slots lists its own keys, whatever is done to its properties, in one
way: the array indices in ascending order, then the other keys in the order in which operations have
put slots there.  Overwriting keeps the place of a key, deleting it and adding it again moves it to
the end.  No key is listed twice, and no property is left out but the length that elements and units
have without a slot.
-/

namespace ProtoScript

namespace OrderedMap

variable {β : Type} {m m' : OrderedMap β} {keys keys' : List String}

inductive Change (m : OrderedMap β) : OrderedMap β → Prop
  | kept : Change m m
  | inserted (key : String) (value : β) : Change m (m.insert key value)
  | erased (key : String) : Change m (m.erase key)

inductive KeysChange (keys : List String) : List String → Prop
  | kept : KeysChange keys keys
  | erased (key : String) : KeysChange keys (keys.filter fun other => other != key)
  | appended {key : String} : key ∉ keys → KeysChange keys (keys ++ [key])

theorem Change.inStep (h : m.Change m') (hm : m.InStep) : m'.InStep := by
  cases h with
  | kept => exact hm
  | inserted key value => exact hm.insert key value
  | erased key => exact hm.erase key

theorem Change.keysChange (h : m.Change m') (hm : m.InStep) : KeysChange m.keys m'.keys := by
  cases h with
  | kept => exact .kept
  | erased key => exact .erased key
  | inserted key value =>
    change KeysChange m.keys (if m.contains key then m.keys else m.keys ++ [key])
    split
    · exact .kept
    · next habsent =>
      refine .appended fun hkey => habsent ?_
      exact Option.isSome_iff_ne_none.mpr ((hm.mem_keys_iff key).mp hkey)

theorem map_fst_entries (m : OrderedMap β) :
    m.entries.map Prod.fst = m.keys.filter fun key => m.contains key := by
  unfold entries contains
  induction m.keys with
  | nil => rfl
  | cons key rest ih => cases h : m.find? key <;> simp [h, ih]

theorem InStep.map_fst_entries (h : m.InStep) : m.entries.map Prod.fst = m.keys := by
  rw [OrderedMap.map_fst_entries, List.filter_eq_self]
  exact fun key hkey => Option.isSome_iff_ne_none.mpr ((h.mem_keys_iff key).mp hkey)

end OrderedMap

/-- An operation on the properties of a record.  An insertion is never refused; for the other ones
the prototype has a property at the key or none. -/
inductive RecordOperation where
  | insert (key : String) (p : DataProperty)
  | operate (inherited : Option DataProperty) (op : PropertyOperation)

namespace ObjectRecord

variable {r r' : ObjectRecord} {key : String} {ops : List RecordOperation} {n : Nat}

def does (r : ObjectRecord) : RecordOperation → ObjectRecord
  | .insert key p => r.insert key p
  | .operate inherited op => r.after inherited op

def doesAll (r : ObjectRecord) (ops : List RecordOperation) : ObjectRecord := ops.foldl does r

theorem doesAll_append_singleton (r : ObjectRecord) (ops : List RecordOperation)
    (op : RecordOperation) : r.doesAll (ops ++ [op]) = (r.doesAll ops).does op :=
  List.foldl_append

/-- Elements and units are no more than a length can count. -/
structure Sized (r : ObjectRecord) : Prop where
  elements : ∀ es, r.elements = some es → es.size ≤ 4294967295
  text : ∀ t, r.wrappedText? = some t → t.size ≤ 4294967295

/-- The record has no slots yet: it is empty, a new array or a new wrapper. -/
structure Blank (r : ObjectRecord) : Prop where
  slots : r.slots = .empty
  sized : r.Sized

/-! ### What an operation does to the keys of slots and to sizes -/

theorem slots_does (r : ObjectRecord) (op : RecordOperation) :
    r.slots.Change (r.does op).slots := by
  cases op with
  | insert key p => exact .inserted key p
  | operate inherited op =>
    refine after_of (P := fun r' => r.slots.Change r'.slots) .kept
      (fun key p => ?_) (fun key value _ r' hr' => ?_) (fun key => ?_) inherited op
    · rw [define_eq]
      dsimp only
      split
      · exact .kept
      · exact .inserted key p
    · cases hr' with
      | refused => exact .kept
      | written => exact .inserted key _
      | created => exact .inserted key _
      | element => exact .kept
      | resized => exact .kept
    · cases hslot : r.slots.find? key with
      | some p =>
        rw [delete_of_slot hslot]
        exact .erased key
      | none =>
        rw [delete_of_no_slot hslot]
        exact .kept

theorem inStep_doesAll (h : r.slots.InStep) (ops : List RecordOperation) :
    (r.doesAll ops).slots.InStep := by
  induction ops generalizing r with
  | nil => exact h
  | cons op ops ih => exact ih ((r.slots_does op).inStep h)

theorem lt_of_arrayIndex? {i : Nat} (h : Number.arrayIndex? key = some i) : i < 4294967295 :=
  (Number.arrayIndex?_eq_some_iff.mp h).2

theorem le_of_arrayLength? {value : Value} {size : Nat} (h : arrayLength? value = some size) :
    size ≤ 4294967295 := by
  unfold arrayLength? at h
  split at h
  · obtain ⟨n, -, hsize⟩ := Option.bind_eq_some_iff.mp h
    split at hsize
    · cases hsize
      omega
    · cases hsize
  · cases h

theorem Sized.with_elements (h : r.Sized)
    (helements : ∀ es, r'.elements = some es → es.size ≤ 4294967295)
    (hprimitive : r'.primitive = r.primitive) : r'.Sized where
  elements := helements
  text t ht := h.text t (by rwa [wrappedText?, ← hprimitive])

theorem Sized.does (h : r.Sized) (op : RecordOperation) : (r.does op).Sized := by
  cases op with
  | insert key p => exact ⟨h.elements, h.text⟩
  | operate inherited op =>
    refine after_of (P := Sized) h (fun key p => ?_) (fun key value _ r' hr' => ?_) (fun key => ?_)
      inherited op
    · rw [define_eq]
      refine h.with_elements (fun es hes => ?_) rfl
      obtain ⟨old, hold, rfl⟩ := Option.map_eq_some_iff.mp hes
      have hle := h.elements old hold
      split
      · exact hle
      · next i hindex =>
        have hlt := lt_of_arrayIndex? hindex
        split
        · rw [size_storeElement]
          omega
        · rwa [Array.size_setIfInBounds]
    · cases hr' with
      | refused => exact h
      | written => exact ⟨h.elements, h.text⟩
      | created => exact ⟨h.elements, h.text⟩
      | @element es i _ hes hindex =>
        refine h.with_elements (fun es' hes' => ?_) rfl
        cases hes'
        have hle := h.elements es hes
        have hlt := lt_of_arrayIndex? hindex
        rw [size_storeElement]
        omega
      | @resized es size _ hes _ hsize =>
        refine h.with_elements (fun es' hes' => ?_) rfl
        cases hes'
        rw [size_resize]
        exact le_of_arrayLength? hsize
    · cases hslot : r.slots.find? key with
      | some p =>
        rw [delete_of_slot hslot]
        exact ⟨h.elements, h.text⟩
      | none =>
        rw [delete_of_no_slot hslot]
        refine h.with_elements (fun es hes => ?_) rfl
        obtain ⟨old, hold, rfl⟩ := Option.map_eq_some_iff.mp hes
        have hle := h.elements old hold
        split
        · rwa [Array.size_setIfInBounds]
        · exact hle

theorem Sized.doesAll (h : r.Sized) (ops : List RecordOperation) : (r.doesAll ops).Sized := by
  induction ops generalizing r with
  | nil => exact h
  | cons op ops ih => exact ih (h.does op)

/-! ### The operation that has put a slot at a key -/

/-- The operation at place `n` has put a slot at the key, and there has been one ever since. -/
structure MadeLast (r : ObjectRecord) (ops : List RecordOperation) (key : String) (n : Nat) :
    Prop where
  lt : n < ops.length
  absent : (r.doesAll (ops.take n)).slots.find? key = none
  present : ∀ m, n < m → m ≤ ops.length → (r.doesAll (ops.take m)).slots.find? key ≠ none

theorem MadeLast.append (h : r.MadeLast ops key n) {op : RecordOperation}
    (hthere : (r.doesAll (ops ++ [op])).slots.find? key ≠ none) :
    r.MadeLast (ops ++ [op]) key n where
  lt := by
    rw [List.length_append]
    exact Nat.lt_add_right _ h.lt
  absent := by
    rw [List.take_append_of_le_length (Nat.le_of_lt h.lt)]
    exact h.absent
  present m hlt hle := by
    rcases Nat.lt_or_ge ops.length m with hpast | hwithin
    · rw [List.take_of_length_le (by rw [List.length_append]; exact hpast)]
      exact hthere
    · rw [List.take_append_of_le_length hwithin]
      exact h.present m hlt hwithin

theorem madeLast_append {op : RecordOperation}
    (habsent : (r.doesAll ops).slots.find? key = none)
    (hthere : (r.doesAll (ops ++ [op])).slots.find? key ≠ none) :
    r.MadeLast (ops ++ [op]) key ops.length where
  lt := by simp
  absent := by
    rw [List.take_left]
    exact habsent
  present m hlt hle := by
    rw [List.take_of_length_le (by rw [List.length_append]; exact hlt)]
    exact hthere

/-- The keys of slots stand in the order of the operations that have put the slots there. -/
theorem exists_places (h : r.slots = .empty) (ops : List RecordOperation) :
    ∃ place : String → Nat,
      (∀ key ∈ (r.doesAll ops).slots.keys, r.MadeLast ops key (place key)) ∧
      (r.doesAll ops).slots.keys.Pairwise fun a b => place a < place b := by
  induction ops using List.reverseRecOn with
  | nil =>
    have hkeys : (r.doesAll []).slots.keys = [] := by
      change r.slots.keys = []
      rw [h]
      rfl
    rw [hkeys]
    exact ⟨fun _ => 0, nofun, .nil⟩
  | append_singleton ops op ih =>
    obtain ⟨place, hplace, hordered⟩ := ih
    have hinStep (ops : List RecordOperation) : (r.doesAll ops).slots.InStep :=
      inStep_doesAll (h ▸ .empty) ops
    have hchange := (slots_does (r.doesAll ops) op).keysChange (hinStep ops)
    rw [← doesAll_append_singleton] at hchange
    -- A key that was there before keeps its place.
    have hkept : ∀ key ∈ (r.doesAll ops).slots.keys,
        key ∈ (r.doesAll (ops ++ [op])).slots.keys →
        r.MadeLast (ops ++ [op]) key (place key) := fun key hold hnew =>
      (hplace key hold).append (((hinStep _).mem_keys_iff key).mp hnew)
    generalize hkeys : (r.doesAll (ops ++ [op])).slots.keys = keys at hchange hkept
    cases hchange with
    | kept => exact ⟨place, fun key hkey => hkept key hkey hkey, hordered⟩
    | erased key =>
      exact ⟨place, fun other hother => hkept other (List.mem_filter.mp hother).1 hother,
        hordered.filter _⟩
    | @appended key hfresh =>
      -- The new key gets the place of this operation, behind all others.
      have hother (other : String) (hold : other ∈ (r.doesAll ops).slots.keys) :
          Function.update place key ops.length other = place other :=
        Function.update_of_ne (fun heq : other = key => hfresh (heq ▸ hold)) _ _
      have hmade : r.MadeLast (ops ++ [op]) key ops.length := by
        refine madeLast_append ?_ (((hinStep _).mem_keys_iff key).mp (by rw [hkeys]; simp))
        exact Classical.not_not.mp (mt ((hinStep ops).mem_keys_iff key).mpr hfresh)
      refine ⟨Function.update place key ops.length, fun other hmem => ?_, ?_⟩
      · rcases List.mem_append.mp hmem with hold | hnew
        · rw [hother other hold]
          exact hkept other hold hmem
        · rw [List.mem_singleton.mp hnew, Function.update_self]
          exact hmade
      · refine List.pairwise_append.mpr ⟨?_, List.pairwise_singleton _ _, fun a ha b hb => ?_⟩
        · refine hordered.imp_of_mem fun ha hb hlt => ?_
          rwa [hother _ ha, hother _ hb]
        · rw [List.mem_singleton.mp hb, hother a ha, Function.update_self]
          exact (hplace a ha).lt

/-! ### What is listed -/

section Listing

variable {α β : Type} [BEq α] [LawfulBEq α]

/-- In a list of pairs with distinct keys each pair is what is found at its key. -/
theorem mem_iff_lookup {l : List (α × β)} (h : (l.map Prod.fst).Nodup) {key : α} {value : β} :
    (key, value) ∈ l ↔ l.lookup key = some value := by
  induction l with
  | nil => simp
  | cons entry rest ih =>
    obtain ⟨other, old⟩ := entry
    obtain ⟨hfresh, hrest⟩ := List.nodup_cons.mp h
    rw [lookup_cons_pair, List.mem_cons, ih hrest]
    by_cases hkey : key = other
    · subst hkey
      have hnone : rest.lookup key = none :=
        lookup_eq_none_of_forall_ne fun entry hentry heq =>
          hfresh (List.mem_map.mpr ⟨entry, hentry, heq⟩)
      simp [hnone, eq_comm]
    · simp [hkey]

theorem lookup_filter_of_nodup {l : List (α × β)} (h : (l.map Prod.fst).Nodup) (p : β → Bool)
    (key : α) : (l.filter fun entry => p entry.2).lookup key = (l.lookup key).filter p := by
  have hfiltered : ((l.filter fun entry => p entry.2).map Prod.fst).Nodup :=
    h.sublist (List.filter_sublist.map _)
  refine Option.ext fun value => ?_
  rw [← mem_iff_lookup hfiltered, List.mem_filter, mem_iff_lookup h, Option.filter_eq_some_iff]

end Listing

theorem nodup_listedIndices (r : ObjectRecord) (hidden : Bool) :
    ((r.listedIndices hidden).map Prod.fst).Nodup :=
  List.pairwise_map.mpr ((r.ascending_listedIndices hidden).imp fun h => Nat.ne_of_lt h)

theorem namedKeys_false (r : ObjectRecord) :
    r.namedKeys false = (r.namedKeys true).filter Prod.snd := by
  simp only [namedKeys, listedSlots, List.filter_map, List.filter_filter, Bool.or_false,
    Bool.or_true, Bool.and_true]
  refine congrArg _ (List.filter_congr fun entry _ => ?_)
  simp [Bool.and_comm]

theorem lookup_listedSlots_false (h : r.slots.InStep) (key : String) :
    (r.listedSlots false).lookup key = (r.slots.find? key).filter DataProperty.enumerable := by
  have hnodup : (r.slots.entries.map Prod.fst).Nodup := by
    rw [h.map_fst_entries]
    exact h.nodup
  simp only [listedSlots, Bool.or_false]
  rw [lookup_filter_of_nodup hnodup DataProperty.enumerable key, h.lookup_entries]

theorem listedIndices_false (h : r.slots.InStep) :
    r.listedIndices false = (r.listedIndices true).filter Prod.snd := by
  -- Both lists ascend and have the same members.
  have hascending := (r.ascending_listedIndices true).filter Prod.snd
  have hnodup (hidden : Bool) : (r.listedIndices hidden).Nodup :=
    (r.nodup_listedIndices hidden).of_map _
  refine List.Perm.eq_of_pairwise (fun a b _ _ hab hba => by omega)
    (r.ascending_listedIndices false) hascending ?_
  refine (List.perm_ext_iff_of_nodup (hnodup false) ((hnodup true).filter _)).mpr ?_
  rintro ⟨i, enumerable⟩
  rw [List.mem_filter, mem_iff_lookup (r.nodup_listedIndices false),
    mem_iff_lookup (r.nodup_listedIndices true), lookup_listedIndices, lookup_listedIndices,
    lookup_indexKeys, lookup_indexKeys, lookup_listedSlots_false h, listedSlots_true,
    h.lookup_entries]
  by_cases hfills : r.Fills (toString i)
  · rw [if_pos hfills, if_pos hfills]
    simp [eq_comm]
  · rw [if_neg hfills, if_neg hfills]
    by_cases hlt : i < 4294967295
    · rw [if_pos hlt, if_pos hlt]
      cases r.slots.find? (toString i) with
      | none => simp
      | some p => cases hp : p.enumerable <;> simp [Option.filter, hp, eq_comm]
    · rw [if_neg hlt, if_neg hlt]
      simp

theorem ownKeys_false (h : r.slots.InStep) :
    r.ownKeys false = (r.ownKeys true).filter Prod.snd := by
  rw [ownKeys_eq, ownKeys_eq, listedIndices_false h, namedKeys_false, List.filter_append,
    List.filter_map]
  rfl

theorem map_fst_namedKeys (r : ObjectRecord) : (r.namedKeys true).map Prod.fst =
    (r.slots.entries.map Prod.fst).filter fun key => (Number.arrayIndex? key).isNone := by
  rw [namedKeys, listedSlots_true, List.map_map, List.filter_map]
  rfl

theorem sublist_namedKeys (r : ObjectRecord) :
    ((r.namedKeys true).map Prod.fst).Sublist r.slots.keys := by
  rw [map_fst_namedKeys, OrderedMap.map_fst_entries]
  exact List.filter_sublist.trans List.filter_sublist

theorem arrayIndex?_of_mem_namedKeys {entry : String × Bool} (h : entry ∈ r.namedKeys true) :
    Number.arrayIndex? entry.1 = none := by
  have hkey := List.mem_map_of_mem (f := Prod.fst) h
  rw [map_fst_namedKeys, List.mem_filter] at hkey
  exact Option.isNone_iff_eq_none.mp hkey.2

theorem arrayIndex?_of_carries (h : r.carries key = true) : Number.arrayIndex? key ≠ none := by
  obtain ⟨i, hindex, -⟩ := (Option.any_eq_true _ _).mp h
  rw [hindex]
  exact Option.some_ne_none i

/-- Where 32 bits count elements and units, they are listed just where they are properties. -/
theorem Sized.fills_iff_carries (h : r.Sized) : r.Fills key ↔ r.carries key = true := by
  constructor
  · intro hfills
    refine (carries_of_fills hfills).resolve_right ?_
    rintro ⟨es, j, hes, hsome, hpast, -⟩
    have hle := h.elements es hes
    rw [Array.getElem?_eq_none (Nat.le_trans hle hpast)] at hsome
    exact hsome rfl
  · intro hcarries
    refine (fills_of_carries hcarries).resolve_right ?_
    rintro ⟨t, i, ht, hge, hlt, -, -⟩
    have hle := h.text t ht
    omega

/-- The indices that a record of some size lists are array indices. -/
theorem lt_of_mem_listedIndices (h : r.Sized) {entry : Nat × Bool}
    (hentry : entry ∈ r.listedIndices true) : entry.1 < 4294967295 := by
  have hlookup := (mem_iff_lookup (r.nodup_listedIndices true)).mp hentry
  rw [lookup_listedIndices, lookup_indexKeys] at hlookup
  split at hlookup
  · next hfills =>
    obtain ⟨i, hindex⟩ := Option.ne_none_iff_exists'.mp
      (arrayIndex?_of_carries (h.fills_iff_carries.mp hfills))
    obtain ⟨heq, hlt⟩ := Number.arrayIndex?_eq_some_iff.mp hindex
    rwa [Number.toString_injective heq]
  · split at hlookup
    · next hlt => exact hlt
    · cases hlookup

theorem nodup_ownKeys (h : r.slots.InStep) (hsized : r.Sized) :
    ((r.ownKeys true).map Prod.fst).Nodup := by
  rw [ownKeys_eq, List.map_append, List.map_map]
  refine List.nodup_append.mpr ⟨?_, ?_, ?_⟩
  · change ((r.listedIndices true).map (toString ∘ Prod.fst)).Nodup
    rw [← List.map_map]
    exact (r.nodup_listedIndices true).map Number.toString_injective
  · exact h.nodup.sublist r.sublist_namedKeys
  · rintro key hindex _ hnamed rfl
    obtain ⟨entry, hentry, rfl⟩ := List.mem_map.mp hindex
    obtain ⟨other, hother, heq⟩ := List.mem_map.mp hnamed
    have hnone := arrayIndex?_of_mem_namedKeys hother
    rw [heq] at hnone
    exact Number.arrayIndex?_eq_none_iff.mp hnone _ (lt_of_mem_listedIndices hsized hentry) rfl

theorem mem_ownKeys_iff (h : r.slots.InStep) (key : String) :
    key ∈ (r.ownKeys true).map Prod.fst ↔ r.Fills key ∨ r.slots.find? key ≠ none := by
  rw [mem_map_fst_iff, lookup_ownKeys, listing?_true h]
  by_cases hfills : r.Fills key
  · simp [hfills]
  · simp [hfills]

/-- A key is listed just if there is a property, unless that is a length without a slot. -/
theorem mem_ownKeys_iff_ownProperty? (h : r.slots.InStep) (hsized : r.Sized)
    (shared : Option Value) (key : String) :
    key ∈ (r.ownKeys true).map Prod.fst ↔
      r.ownProperty? shared key ≠ none ∧ ¬ (key = "length" ∧ r.slots.find? key = none) := by
  rw [mem_ownKeys_iff h]
  cases hslot : r.slots.find? key with
  | some p => simp [ownProperty?_of_slot hslot]
  | none =>
    have hbeneath :
        r.beneath? key ≠ none ↔ (r.beneath? key).map DataProperty.enumerable ≠ none := by
      simp
    rw [ownProperty?_of_no_slot hslot, hbeneath, enumerable_beneath?]
    by_cases hlength : key = "length"
    · subst hlength
      simp [not_fills_length]
    · simp [hlength, hsized.fills_iff_carries]

structure ListsKeys (r : ObjectRecord) (ops : List RecordOperation) : Prop where
  /-- Each slot has its key in the order once, and no other key stands there. -/
  once : ∀ key, (r.doesAll ops).slots.keys.count key =
    if (r.doesAll ops).slots.contains key then 1 else 0
  distinct : (((r.doesAll ops).ownKeys true).map Prod.fst).Nodup
  /-- All properties are listed but a length without a slot. -/
  complete : ∀ shared key, key ∈ ((r.doesAll ops).ownKeys true).map Prod.fst ↔
    (r.doesAll ops).ownProperty? shared key ≠ none ∧
      ¬ (key = "length" ∧ (r.doesAll ops).slots.find? key = none)
  /-- The array indices ascend, and the other keys follow by the operations that made them. -/
  ordered : ∃ (indices : List (Nat × Bool)) (named : List (String × Bool)) (place : String → Nat),
    (r.doesAll ops).ownKeys true =
      indices.map (fun entry => (toString entry.1, entry.2)) ++ named ∧
    (∀ entry ∈ indices, Number.arrayIndex? (toString entry.1) = some entry.1) ∧
    indices.Pairwise (fun a b => a.1 < b.1) ∧
    (∀ entry ∈ named, Number.arrayIndex? entry.1 = none ∧
      r.MadeLast ops entry.1 (place entry.1)) ∧
    named.Pairwise fun a b => place a.1 < place b.1
  visible : (r.doesAll ops).ownKeys false = ((r.doesAll ops).ownKeys true).filter Prod.snd

/-- Whatever operations a record comes by that began without slots. -/
theorem Blank.listsKeys (h : r.Blank) (ops : List RecordOperation) : r.ListsKeys ops := by
  have hsized := h.sized.doesAll ops
  have hinStep : (r.doesAll ops).slots.InStep := inStep_doesAll (h.slots ▸ .empty) ops
  refine ⟨fun key => ?_, nodup_ownKeys hinStep hsized,
    fun shared key => mem_ownKeys_iff_ownProperty? hinStep hsized shared key, ?_,
    ownKeys_false hinStep⟩
  · rw [hinStep.nodup.count, OrderedMap.contains]
    simp only [hinStep.mem_keys_iff, Option.isSome_iff_ne_none]
  · obtain ⟨place, hplace, hordered⟩ := exists_places h.slots ops
    have hsublist := (r.doesAll ops).sublist_namedKeys
    refine ⟨(r.doesAll ops).listedIndices true, (r.doesAll ops).namedKeys true, place,
      ownKeys_eq _ true, fun entry hentry => ?_, ascending_listedIndices _ true,
      fun entry hentry => ⟨arrayIndex?_of_mem_namedKeys hentry, ?_⟩, ?_⟩
    · exact Number.arrayIndex?_toString (lt_of_mem_listedIndices hsized hentry)
    · exact hplace _ (hsublist.subset (List.mem_map_of_mem hentry))
    · have hnamed := hordered.sublist hsublist
      rwa [List.pairwise_map] at hnamed

/-- An array with an element, then a name that is deleted and comes back behind another one. -/
theorem Blank.listsKeys_again :
    let ops : List RecordOperation := [.operate none (.set "a" .null), .insert "b" (.hidden .null),
      .operate none (.delete "a"), .operate none (.set "a" .null),
      .operate none (.set "0" .null)]
    ((ObjectRecord.array #[]).doesAll ops).ownKeys true = [("0", true), ("b", false), ("a", true)] ∧
      (ObjectRecord.array #[]).ListsKeys ops := by
  intro ops
  have hblank : (ObjectRecord.array #[]).Blank :=
    ⟨rfl, fun es hes => by cases hes; decide, fun t ht => nomatch ht⟩
  exact ⟨by decide +kernel, hblank.listsKeys ops⟩

/-- 32 bits count no unit of a text of `2 ^ 32` units, so none of them is listed. -/
theorem not_listsKeys_wrapper {t : Text} (h : t.size = 4294967296) :
    ¬ (wrapper (.string t)).ListsKeys [] := by
  intro hlists
  have htext : (wrapper (.string t)).wrappedText? = some t := rfl
  have hcarries : (wrapper (.string t)).carries "0" = true :=
    (carries_toString_iff (i := 0) (by decide)).mpr (.inr ⟨t, htext, by omega⟩)
  have hproperty : (wrapper (.string t)).ownProperty? none "0" ≠ none := by
    have hflag := (wrapper (.string t)).enumerable_beneath? "0"
    rw [if_neg (by decide), if_pos hcarries] at hflag
    rw [ownProperty?_of_no_slot rfl]
    intro hnone
    rw [hnone] at hflag
    cases hflag
  have hlisted := (hlists.complete none "0").mpr ⟨hproperty, by simp⟩
  rcases (mem_ownKeys_iff .empty "0").mp hlisted with ⟨i, hi, -⟩ | hslot
  · rcases List.mem_append.mp hi with helement | hunit
    · obtain ⟨es, _, hes, -⟩ := mem_elementIndices_iff.mp helement
      cases hes
    · obtain ⟨_, ht, hlt⟩ := mem_unitIndices_iff.mp hunit
      cases ht
      omega
  · exact hslot rfl

theorem not_listsKeys_uncounted :
    (wrapper (.string ⟨Array.replicate 4294967296 48⟩)).slots = .empty ∧
      ¬ (wrapper (.string ⟨Array.replicate 4294967296 48⟩)).ListsKeys [] :=
  ⟨rfl, not_listsKeys_wrapper Array.size_replicate⟩

end ObjectRecord

end ProtoScript
