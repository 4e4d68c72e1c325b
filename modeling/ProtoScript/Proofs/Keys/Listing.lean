import ProtoScript.Object
import ProtoScript.Proofs.Keys.Indices
import ProtoScript.Proofs.Slots.Coherence
/-!
# What a listing of keys says about a key

The own keys of an object are put together from its elements, the units of its wrapped string and
its slots: the indices among them are sorted and repeated ones left out, the other keys follow.
Sorting is stable, so what is said first about an index is what remains, and an object lists a key
just if an element or a unit stands there, as enumerable, or else as its slot says.
-/

namespace ProtoScript

/-! ### Looking up in lists of pairs -/

section Lookup

variable {α β : Type} [BEq α]

theorem lookup_cons_pair (key other : α) (value : β) (rest : List (α × β)) :
    ((other, value) :: rest).lookup key = if key == other then some value else rest.lookup key := by
  rw [List.lookup_cons]
  cases key == other <;> rfl

variable [LawfulBEq α]

theorem lookup_filter_fst (l : List (α × β)) (key : α) :
    (l.filter fun entry => entry.1 == key).lookup key = l.lookup key := by
  induction l with
  | nil => rfl
  | cons entry rest ih =>
    obtain ⟨other, value⟩ := entry
    by_cases h : other = key
    · subst h
      simp
    · have hne : (key == other) = false := beq_false_of_ne (Ne.symm h)
      rw [List.filter_cons, if_neg (by simpa using h), ih, lookup_cons_pair, hne]
      rfl

theorem lookup_eq_none_of_forall_ne {l : List (α × β)} {key : α} (h : ∀ entry ∈ l, entry.1 ≠ key) :
    l.lookup key = none :=
  List.lookup_eq_none_iff.mpr fun entry hentry => bne_iff_ne.mpr (Ne.symm (h entry hentry))

theorem mem_map_fst_iff {l : List (α × β)} {key : α} :
    key ∈ l.map Prod.fst ↔ l.lookup key ≠ none := by
  rw [Ne, List.lookup_eq_none_iff]
  simp

theorem lookup_map_key {γ : Type} [BEq γ] [LawfulBEq γ] {f : α → γ} (hf : Function.Injective f)
    (l : List (α × β)) (key : α) :
    (l.map fun entry => (f entry.1, entry.2)).lookup (f key) = l.lookup key := by
  induction l with
  | nil => rfl
  | cons entry rest ih =>
    obtain ⟨other, value⟩ := entry
    have hsame : (f key == f other) = (key == other) := by
      rw [Bool.eq_iff_iff, beq_iff_eq, beq_iff_eq, hf.eq_iff]
    rw [List.map_cons, lookup_cons_pair, lookup_cons_pair, hsame, ih]

end Lookup

/-! ### Sorting and leaving out -/

namespace ObjectRecord

variable {l : List (Nat × Bool)} {i : Nat} {last : Option Nat} {r : ObjectRecord} {key : String}

def byIndex (a b : Nat × Bool) : Bool := a.1 ≤ b.1

theorem byIndex_trans (a b c : Nat × Bool) (hab : byIndex a b = true) (hbc : byIndex b c = true) :
    byIndex a c = true := by
  simp only [byIndex, decide_eq_true_eq] at *
  omega

theorem byIndex_total (a b : Nat × Bool) : (byIndex a b || byIndex b a) = true := by
  simp only [byIndex, Bool.or_eq_true, decide_eq_true_eq]
  omega

theorem pairwise_sorted (l : List (Nat × Bool)) :
    (l.mergeSort fun a b => a.1 ≤ b.1).Pairwise fun a b => a.1 ≤ b.1 :=
  (List.pairwise_mergeSort byIndex_trans byIndex_total l).imp fun h => of_decide_eq_true h

theorem filter_sorted (l : List (Nat × Bool)) (i : Nat) :
    (l.mergeSort fun a b => a.1 ≤ b.1).filter (fun entry => entry.1 == i) =
      l.filter fun entry => entry.1 == i := by
  have hpairwise : (l.filter fun entry => entry.1 == i).Pairwise fun a b => byIndex a b = true := by
    refine List.Pairwise.imp_of_mem ?_ (List.pairwise_of_forall fun _ _ => trivial)
    intro a b ha hb _
    have ha' := eq_of_beq (List.mem_filter.mp ha).2
    have hb' := eq_of_beq (List.mem_filter.mp hb).2
    simp only [byIndex, decide_eq_true_eq]
    omega
  have hsublist : (l.filter fun entry => entry.1 == i).Sublist
      ((l.mergeSort byIndex).filter fun entry => entry.1 == i) := by
    have hkept := (List.sublist_mergeSort byIndex_trans byIndex_total hpairwise
      List.filter_sublist).filter fun entry => entry.1 == i
    rwa [List.filter_filter, List.filter_congr fun entry _ => Bool.and_self _] at hkept
  exact (hsublist.eq_of_length ((List.mergeSort_perm l byIndex).filter _).length_eq.symm).symm

theorem lookup_sorted (l : List (Nat × Bool)) (i : Nat) :
    (l.mergeSort fun a b => a.1 ≤ b.1).lookup i = l.lookup i := by
  rw [← lookup_filter_fst, filter_sorted, lookup_filter_fst]

theorem lookup_dropRepeats (h : l.Pairwise fun a b => a.1 ≤ b.1)
    (hlast : ∀ j ∈ last, ∀ entry ∈ l, j ≤ entry.1) (i : Nat) :
    (dropRepeats last l).lookup i = if last = some i then none else l.lookup i := by
  induction l generalizing last with
  | nil => simp [dropRepeats]
  | cons entry rest ih =>
    obtain ⟨j, enumerable⟩ := entry
    obtain ⟨hfirst, hrest⟩ := List.pairwise_cons.mp h
    by_cases hsame : last = some j
    · rw [dropRepeats, if_pos hsame,
        ih hrest fun k hk entry hentry => hlast k hk entry (List.mem_cons_of_mem _ hentry),
        lookup_cons_pair, hsame]
      by_cases hij : i = j
      · simp [hij]
      · simp [hij]
    · rw [dropRepeats, if_neg hsame, lookup_cons_pair, lookup_cons_pair,
        ih hrest fun k hk entry hentry => by cases hk; exact hfirst entry hentry]
      by_cases hij : i = j
      · subst hij
        simp [hsame]
      · by_cases hlasti : last = some i
        -- The index in front is smaller than all that follows.
        · have hle : i ≤ j := hlast i hlasti _ List.mem_cons_self
          have hnone : rest.lookup i = none := lookup_eq_none_of_forall_ne fun entry hentry => by
            have hge := hfirst entry hentry
            dsimp only at hge
            omega
          simp [hij, hlasti, hnone]
        · simp [hij, hlasti, Ne.symm hij]

/-- What remains is in strictly ascending order, behind the index in front. -/
theorem ascending_dropRepeats (h : l.Pairwise fun a b => a.1 ≤ b.1)
    (hlast : ∀ j ∈ last, ∀ entry ∈ l, j ≤ entry.1) :
    (dropRepeats last l).Pairwise (fun a b => a.1 < b.1) ∧
      ∀ j ∈ last, ∀ entry ∈ dropRepeats last l, j < entry.1 := by
  induction l generalizing last with
  | nil => exact ⟨.nil, fun _ _ _ hentry => nomatch hentry⟩
  | cons entry rest ih =>
    obtain ⟨i, enumerable⟩ := entry
    obtain ⟨hfirst, hrest⟩ := List.pairwise_cons.mp h
    rw [dropRepeats]
    split
    · exact ih hrest fun k hk entry hentry => hlast k hk entry (List.mem_cons_of_mem _ hentry)
    · next hsame =>
      obtain ⟨hpairwise, habove⟩ : (dropRepeats (some i) rest).Pairwise (fun a b => a.1 < b.1) ∧
          ∀ j ∈ some i, ∀ entry ∈ dropRepeats (some i) rest, j < entry.1 :=
        ih hrest fun k hk entry hentry => by cases hk; exact hfirst entry hentry
      refine ⟨List.pairwise_cons.mpr ⟨habove i rfl, hpairwise⟩, fun j hj entry hentry => ?_⟩
      have hlt : j < i := by
        have hle : j ≤ i := hlast j hj _ List.mem_cons_self
        have hne : j ≠ i := fun heq => hsame (heq ▸ hj)
        omega
      rcases List.mem_cons.mp hentry with rfl | hbehind
      · exact hlt
      · exact Nat.lt_trans hlt (habove i rfl entry hbehind)

/-! ### The parts of a listing -/

def listedIndices (r : ObjectRecord) (hidden : Bool) : List (Nat × Bool) :=
  dropRepeats none ((r.indexKeys hidden).mergeSort fun a b => a.1 ≤ b.1)

theorem ownKeys_eq (r : ObjectRecord) (hidden : Bool) : r.ownKeys hidden =
    (r.listedIndices hidden).map (fun entry => (toString entry.1, entry.2)) ++
      r.namedKeys hidden := rfl

theorem ascending_listedIndices (r : ObjectRecord) (hidden : Bool) :
    (r.listedIndices hidden).Pairwise fun a b => a.1 < b.1 :=
  (ascending_dropRepeats (pairwise_sorted _) (by simp)).1

theorem lookup_listedIndices (r : ObjectRecord) (hidden : Bool) (i : Nat) :
    (r.listedIndices hidden).lookup i = (r.indexKeys hidden).lookup i := by
  rw [listedIndices, lookup_dropRepeats (pairwise_sorted _) (by simp), if_neg (by simp),
    lookup_sorted]

theorem listedSlots_true (r : ObjectRecord) : r.listedSlots true = r.slots.entries := by
  simp [listedSlots]

theorem lookup_map_true (is : List Nat) (i : Nat) :
    (is.map fun i => (i, true)).lookup i = if i ∈ is then some true else none := by
  induction is with
  | nil => rfl
  | cons j rest ih =>
    rw [List.map_cons, lookup_cons_pair, ih]
    by_cases h : i = j <;> simp [h]

theorem lookup_filterMap_arrayIndex? (entries : List (String × DataProperty)) (i : Nat) :
    (entries.filterMap fun entry => (Number.arrayIndex? entry.1).map fun i =>
        (i, entry.2.enumerable)).lookup i =
      if i < 4294967295 then (entries.lookup (toString i)).map DataProperty.enumerable
      else none := by
  induction entries with
  | nil => simp
  | cons entry rest ih =>
    obtain ⟨key, p⟩ := entry
    rw [lookup_cons_pair]
    cases hindex : Number.arrayIndex? key with
    | none =>
      rw [List.filterMap_cons_none (by rw [hindex]; rfl), ih]
      by_cases hlt : i < 4294967295
      · have hne : toString i ≠ key := fun heq =>
          Number.arrayIndex?_eq_none_iff.mp hindex i hlt heq.symm
        rw [beq_false_of_ne hne]
        rfl
      · rw [if_neg hlt, if_neg hlt]
    | some j =>
      obtain ⟨rfl, hlt⟩ := Number.arrayIndex?_eq_some_iff.mp hindex
      have hsame : (toString i == toString j) = (i == j) := by
        rw [Bool.eq_iff_iff, beq_iff_eq, beq_iff_eq, Number.toString_injective.eq_iff]
      rw [List.filterMap_cons_some (by rw [hindex]; rfl), lookup_cons_pair, ih, hsame]
      by_cases hij : i = j
      · simp [hij, hlt]
      · simp [hij]

theorem lookup_namedKeys (r : ObjectRecord) (hidden : Bool) (key : String) :
    (r.namedKeys hidden).lookup key =
      if Number.arrayIndex? key = none then
        ((r.listedSlots hidden).lookup key).map DataProperty.enumerable
      else none := by
  unfold namedKeys
  induction r.listedSlots hidden with
  | nil => simp
  | cons entry rest ih =>
    obtain ⟨other, p⟩ := entry
    rw [lookup_cons_pair]
    by_cases hkey : key = other
    · subst hkey
      cases hindex : Number.arrayIndex? key with
      | none => simp [hindex]
      | some i =>
        rw [List.filter_cons, if_neg (by simp [hindex]), ih]
        simp [hindex]
    · rw [List.filter_cons]
      cases hindex : Number.arrayIndex? other with
      | none =>
        rw [Option.isNone_none, if_pos rfl, List.map_cons, lookup_cons_pair, ih]
        simp [hkey]
      | some i =>
        rw [Option.isNone_some, if_neg Bool.false_ne_true, ih]
        simp [hkey]

/-! ### What is said about a key -/

/-- An element or a unit of a wrapped string stands at the key. -/
def Fills (r : ObjectRecord) (key : String) : Prop :=
  ∃ i ∈ r.elementIndices ++ r.unitIndices, key = toString i

instance (r : ObjectRecord) (key : String) : Decidable (r.Fills key) :=
  inferInstanceAs (Decidable (∃ i ∈ r.elementIndices ++ r.unitIndices, key = toString i))

theorem fills_toString_iff : r.Fills (toString i) ↔ i ∈ r.elementIndices ++ r.unitIndices := by
  constructor
  · rintro ⟨j, hj, heq⟩
    rwa [Number.toString_injective heq]
  · exact fun hi => ⟨i, hi, rfl⟩

def listing? (r : ObjectRecord) (hidden : Bool) (key : String) : Option Bool :=
  if r.Fills key then some true
  else ((r.listedSlots hidden).lookup key).map DataProperty.enumerable

theorem lookup_indexKeys (r : ObjectRecord) (hidden : Bool) (i : Nat) :
    (r.indexKeys hidden).lookup i =
      if r.Fills (toString i) then some true
      else if i < 4294967295 then
        ((r.listedSlots hidden).lookup (toString i)).map DataProperty.enumerable
      else none := by
  rw [indexKeys, List.lookup_append, lookup_map_true, lookup_filterMap_arrayIndex?]
  by_cases h : i ∈ r.elementIndices ++ r.unitIndices
  · rw [if_pos h, if_pos (fills_toString_iff.mpr h), Option.some_or]
  · rw [if_neg h, if_neg (mt fills_toString_iff.mp h), Option.none_or]

theorem lookup_ownKeys (r : ObjectRecord) (hidden : Bool) (key : String) :
    (r.ownKeys hidden).lookup key = r.listing? hidden key := by
  rw [ownKeys_eq, List.lookup_append, lookup_namedKeys, listing?]
  by_cases hnumeral : ∃ i : Nat, key = toString i
  · obtain ⟨i, rfl⟩ := hnumeral
    rw [lookup_map_key Number.toString_injective, lookup_listedIndices, lookup_indexKeys]
    by_cases hfills : r.Fills (toString i)
    · rw [if_pos hfills, if_pos hfills, Option.some_or]
    · rw [if_neg hfills, if_neg hfills]
      by_cases hlt : i < 4294967295
      · rw [if_pos hlt, Number.arrayIndex?_toString hlt, if_neg (by simp), Option.or_none]
      · have hnone : Number.arrayIndex? (toString i) = none :=
          Number.arrayIndex?_eq_none_iff.mpr fun j hj heq =>
            hlt (Number.toString_injective heq ▸ hj)
        rw [if_neg hlt, if_pos hnone, Option.none_or]
  · have hindex : Number.arrayIndex? key = none :=
      Number.arrayIndex?_eq_none_iff.mpr fun i _ heq => hnumeral ⟨i, heq⟩
    have hfills : ¬ r.Fills key := fun ⟨i, _, heq⟩ => hnumeral ⟨i, heq⟩
    rw [if_neg hfills, if_pos hindex, lookup_eq_none_of_forall_ne, Option.none_or]
    intro entry hentry
    obtain ⟨index, -, rfl⟩ := List.mem_map.mp hentry
    exact fun heq => hnumeral ⟨index.1, heq.symm⟩

theorem lookup_listedSlots_ne_none {hidden : Bool} {p : DataProperty}
    (h : (key, p) ∈ r.listedSlots hidden) :
    ((r.listedSlots hidden).lookup key).map DataProperty.enumerable ≠ none := by
  rw [Ne, Option.map_eq_none_iff]
  exact mem_map_fst_iff.mp (List.mem_map_of_mem h)

theorem mem_ownKeys_of_listedSlots {hidden : Bool} {p : DataProperty}
    (h : (key, p) ∈ r.listedSlots hidden) : key ∈ (r.ownKeys hidden).map Prod.fst := by
  rw [mem_map_fst_iff, lookup_ownKeys, listing?]
  split
  · exact Option.some_ne_none true
  · exact lookup_listedSlots_ne_none h

theorem mem_listedIndices_of_listedSlots {hidden : Bool} {p : DataProperty} (hi : i < 4294967295)
    (h : (toString i, p) ∈ r.listedSlots hidden) : i ∈ (r.listedIndices hidden).map Prod.fst := by
  rw [mem_map_fst_iff, lookup_listedIndices, lookup_indexKeys, if_pos hi]
  split
  · exact Option.some_ne_none true
  · exact lookup_listedSlots_ne_none h

theorem listing?_true (h : r.slots.InStep) (key : String) : r.listing? true key =
    if r.Fills key then some true
    else (r.slots.find? key).map DataProperty.enumerable := by
  rw [listing?, listedSlots_true, h.lookup_entries]

/-! ### Keys and properties -/

theorem mem_elementIndices_iff : i ∈ r.elementIndices ↔
    ∃ es j, r.elements = some es ∧ es[j]?.join ≠ none ∧ j % 4294967296 = i := by
  unfold elementIndices
  cases r.elements with
  | none => simp
  | some es =>
    have hlt {j : Nat} (h : es[j]?.join ≠ none) : j < es.size := by
      by_contra hge
      rw [Array.getElem?_eq_none (Nat.le_of_not_lt hge)] at h
      exact h rfl
    simp only [List.mem_map, List.mem_filter, List.mem_range, Option.isSome_iff_ne_none,
      Option.some.injEq, exists_and_left, exists_eq_left']
    constructor
    · rintro ⟨j, ⟨-, hsome⟩, rfl⟩
      exact ⟨j, hsome, rfl⟩
    · rintro ⟨j, hsome, rfl⟩
      exact ⟨j, ⟨hlt hsome, hsome⟩, rfl⟩

theorem mem_unitIndices_iff :
    i ∈ r.unitIndices ↔ ∃ t, r.wrappedText? = some t ∧ i < t.size % 4294967296 := by
  unfold unitIndices
  cases r.wrappedText? with
  | none => simp
  | some t => simp

theorem not_fills_length : ¬ r.Fills "length" :=
  fun ⟨_, _, heq⟩ => Number.toString_ne_length heq.symm

def hasLength (r : ObjectRecord) : Bool := r.elements.isSome || r.wrappedText?.isSome

/-- Whether an element or a unit is the property at the key. -/
def carries (r : ObjectRecord) (key : String) : Bool :=
  (Number.arrayIndex? key).any fun i =>
    r.elements.any (fun es => (es[i]?.join).isSome) || r.wrappedText?.any fun t => i < t.size

theorem carries_toString_iff (hi : i < 4294967295) : r.carries (toString i) = true ↔
    (∃ es, r.elements = some es ∧ es[i]?.join ≠ none) ∨
      ∃ t, r.wrappedText? = some t ∧ i < t.size := by
  unfold carries
  rw [Number.arrayIndex?_toString hi]
  simp [Option.any_eq_true, Option.isSome_iff_ne_none]

/-- Beneath the slots there are the elements and units, all of them enumerable, and the length,
which is not. -/
theorem enumerable_beneath? (r : ObjectRecord) (key : String) :
    (r.beneath? key).map DataProperty.enumerable =
      if key = "length" then if r.hasLength then some false else none
      else if r.carries key then some true else none := by
  rw [beneath?, Option.map_or]
  by_cases hlength : key = "length"
  · subst hlength
    cases hes : r.elements <;> cases ht : r.wrappedText? <;>
      simp [elementProperty?, unitProperty?, hasLength, hes, ht, DataProperty.fixed]
  · rw [if_neg hlength]
    unfold elementProperty? unitProperty? carries
    simp only [if_neg hlength]
    cases Number.arrayIndex? key with
    | none => cases r.elements <;> cases r.wrappedText? <;> rfl
    | some i =>
      have hunit (t : Text) : ((t.unitAt? i).map fun unit =>
          (⟨.string unit, false, true, false⟩ : DataProperty)).map DataProperty.enumerable =
          if i < t.size then some true else none := by
        by_cases hlt : i < t.size <;> simp [Text.unitAt?, hlt]
      have helement (es : Array (Option Value)) :
          ((es[i]?.join).map DataProperty.plain).map DataProperty.enumerable =
            if (es[i]?.join).isSome then some true else none := by
        cases es[i]?.join <;> rfl
      cases r.elements with
      | none => cases r.wrappedText? with
        | none => rfl
        | some t => simp only [hunit, Option.map_none, Option.none_or]; simp
      | some es => cases r.wrappedText? with
        | none => simp only [helement, Option.map_none, Option.or_none]; simp
        | some t =>
          simp only [helement, hunit, Option.any_some, Bool.or_eq_true, decide_eq_true_eq]
          by_cases h : (es[i]?.join).isSome <;> simp [h]

/-- What is listed is a property, unless it is an element past the last array index. -/
theorem carries_of_fills (h : r.Fills key) : r.carries key = true ∨
    ∃ es j, r.elements = some es ∧ es[j]?.join ≠ none ∧ 4294967295 ≤ j ∧
      key = toString (j % 4294967296) := by
  obtain ⟨i, hi, rfl⟩ := h
  rcases List.mem_append.mp hi with helement | hunit
  · obtain ⟨es, j, hes, hsome, rfl⟩ := mem_elementIndices_iff.mp helement
    rcases Nat.lt_or_ge j 4294967295 with hlt | hpast
    · have hmod : j % 4294967296 = j := Nat.mod_eq_of_lt (by omega)
      rw [hmod]
      exact .inl ((carries_toString_iff hlt).mpr (.inl ⟨es, hes, hsome⟩))
    · exact .inr ⟨es, j, hes, hsome, hpast, rfl⟩
  · obtain ⟨t, ht, hlt⟩ := mem_unitIndices_iff.mp hunit
    have hsize := Nat.mod_lt t.size (show 0 < 4294967296 by decide)
    have hle := Nat.mod_le t.size 4294967296
    exact .inl ((carries_toString_iff (by omega)).mpr (.inr ⟨t, ht, by omega⟩))

/-- A property is listed, unless it is a unit of a text that 32 bits cannot count. -/
theorem fills_of_carries (h : r.carries key = true) : r.Fills key ∨
    ∃ t i, r.wrappedText? = some t ∧ t.size % 4294967296 ≤ i ∧ i < t.size ∧ i < 4294967295 ∧
      key = toString i := by
  obtain ⟨i, hindex, -⟩ := (Option.any_eq_true _ _).mp h
  obtain ⟨rfl, hlt⟩ := Number.arrayIndex?_eq_some_iff.mp hindex
  rcases (carries_toString_iff hlt).mp h with ⟨es, hes, hsome⟩ | ⟨t, ht, hunit⟩
  · refine .inl ⟨i, List.mem_append_left _ (mem_elementIndices_iff.mpr ?_), rfl⟩
    exact ⟨es, i, hes, hsome, Nat.mod_eq_of_lt (by omega)⟩
  · rcases Nat.lt_or_ge i (t.size % 4294967296) with hcounted | hpast
    · exact .inl ⟨i, List.mem_append_right _ (mem_unitIndices_iff.mpr ⟨t, ht, hcounted⟩), rfl⟩
    · exact .inr ⟨t, i, ht, hpast, hunit, hlt, rfl⟩

/-! ### One key for each index -/

/-- A property key is an array index just if it is the decimal numeral of a number below
`2 ^ 32 - 1`.  So no two keys are the same index, and where a listing has sorted the indices of the
slots as numbers, the numerals that it writes for them are the keys that the slots have. -/
theorem array_indices_canonical :
    (∀ (key : String) (n : Nat),
      Number.arrayIndex? key = some n ↔ n < 4294967295 ∧ key = toString n) ∧
    (∀ (key other : String) (n : Nat), Number.arrayIndex? key = some n →
      Number.arrayIndex? other = some n → key = other) ∧
    ∀ (r : ObjectRecord) (hidden : Bool) (key : String) (p : DataProperty) (n : Nat),
      (key, p) ∈ r.listedSlots hidden → Number.arrayIndex? key = some n →
      toString n = key ∧ n ∈ (r.listedIndices hidden).map Prod.fst ∧
        key ∈ (r.ownKeys hidden).map Prod.fst := by
  refine ⟨fun key n => Number.arrayIndex?_eq_some_iff.trans and_comm,
    fun key other n hkey hother => ?_, fun r hidden key p n hslot hindex => ?_⟩
  · exact (Number.arrayIndex?_eq_some_iff.mp hkey).1.trans
      (Number.arrayIndex?_eq_some_iff.mp hother).1.symm
  · obtain ⟨rfl, hlt⟩ := Number.arrayIndex?_eq_some_iff.mp hindex
    exact ⟨rfl, mem_listedIndices_of_listedSlots hlt hslot, mem_ownKeys_of_listedSlots hslot⟩

/-- The slot of the largest index. -/
theorem array_indices_canonical_largest :
    let r : ObjectRecord := { slots := .ofList [("4294967294", .plain .null)] }
    ("4294967294", .plain .null) ∈ r.listedSlots false ∧
      Number.arrayIndex? "4294967294" = some 4294967294 ∧
      "4294967294" ∈ (r.ownKeys false).map Prod.fst := by
  intro r
  have hslot : ("4294967294", .plain .null) ∈ r.listedSlots false := .head _
  have hindex : Number.arrayIndex? "4294967294" = some 4294967294 := by decide +kernel
  exact ⟨hslot, hindex, (array_indices_canonical.2.2 r false _ _ _ hslot hindex).2.2⟩

/-- No larger number, no sign, no leading zero and no other digits. -/
example : ["4294967295", "+1", "-0", "01", "١", ""].map Number.arrayIndex? =
    [none, none, none, none, none, none] := by decide +kernel

end ObjectRecord

end ProtoScript
