import ProtoScript.Proofs.Integrity.Sessions
import ProtoScript.Proofs.Slots.Coherence
/-!
# The length of an array and its indices

The length of an array counts its elements, so it is above the index of each of them.  Properties at
indices that are not plain have slots, and the length takes no notice of slots: it bounds them until
such a property is defined past the elements, or the elements are cut off below one.  Defining the
length itself puts a slot in its place that the elements have no influence on.
-/

namespace ProtoScript

namespace ObjectRecord

variable {r r' : ObjectRecord} {es : Array (Option Value)} {key : String} {p : DataProperty}

def length? (r : ObjectRecord) : Option Nat :=
  if r.slots.contains "length" then none else r.elements.map Array.size

def SlotsBelow (r : ObjectRecord) (n : Nat) : Prop :=
  ∀ key i, Number.arrayIndex? key = some i → r.slots.find? key ≠ none → i < n

def Bounded (r : ObjectRecord) : Prop := ∃ n, r.length? = some n ∧ r.SlotsBelow n

/-- What puts a slot in the place of the length, or leaves one past the elements. -/
def Overreaches (r : ObjectRecord) : PropertyOperation → Prop
  | .define key p => r.admits key p = true ∧ (key = "length" ∨ p.isPlain = false ∧
      ∃ es i, r.elements = some es ∧ Number.arrayIndex? key = some i ∧ es.size ≤ i)
  | .set key value => key = "length" ∧ ∃ size, arrayLength? value = some size ∧ ¬ r.SlotsBelow size
  | .delete _ => False

theorem length?_eq_some_iff {n : Nat} : r.length? = some n ↔
    r.slots.find? "length" = none ∧ ∃ es, r.elements = some es ∧ es.size = n := by
  unfold length? OrderedMap.contains
  cases r.slots.find? "length" with
  | none => simp [Option.map_eq_some_iff]
  | some p => simp

/-- An array keeps the bound if it does not shrink and gets new slots below its length only. -/
theorem Bounded.later (h : r.Bounded) (hes : r.elements = some es)
    (es' : Array (Option Value)) (hes' : r'.elements = some es') (hsize : es.size ≤ es'.size)
    (hslots : ∀ key, r'.slots.find? key ≠ none → r.slots.find? key ≠ none ∨
      key ≠ "length" ∧ ∀ i, Number.arrayIndex? key = some i → i < es'.size) : r'.Bounded := by
  obtain ⟨n, hlength, hbelow⟩ := h
  obtain ⟨hnone, es₀, hes₀, rfl⟩ := length?_eq_some_iff.mp hlength
  cases hes.symm.trans hes₀
  refine ⟨es'.size, length?_eq_some_iff.mpr ⟨?_, es', hes', rfl⟩, fun key i hindex hslot => ?_⟩
  · refine Classical.not_not.mp fun hslot => ?_
    rcases hslots "length" hslot with hold | hnew
    · exact hold hnone
    · exact hnew.1 rfl
  · rcases hslots key hslot with hold | hnew
    · exact Nat.lt_of_lt_of_le (hbelow key i hindex hold) hsize
    · exact hnew.2 i hindex

theorem find?_insert_ne_none {slots : OrderedMap DataProperty} {other : String}
    (h : (slots.insert key p).find? other ≠ none) : slots.find? other ≠ none ∨ other = key := by
  rw [OrderedMap.find?_insert] at h
  split at h
  · next heq => exact .inr heq
  · exact .inl h

theorem Bounded.define (h : r.Bounded) (hadmits : r.admits key p = true)
    (hover : ¬ r.Overreaches (.define key p)) : (r.define key p).Bounded := by
  obtain ⟨n, hlength, hbelow⟩ := id h
  obtain ⟨-, es, hes, rfl⟩ := length?_eq_some_iff.mp hlength
  obtain ⟨hother, hplace⟩ : key ≠ "length" ∧ (p.isPlain = false → ∀ i,
      Number.arrayIndex? key = some i → i < es.size) := by
    refine ⟨fun heq => hover ⟨hadmits, .inl heq⟩, fun hplain i hindex => ?_⟩
    exact Nat.lt_of_not_le fun hle => hover ⟨hadmits, .inr ⟨hplain, es, i, hes, hindex, hle⟩⟩
  rw [define_eq]
  cases hindex : Number.arrayIndex? key with
  | none =>
    refine h.later hes es (by simp only [elementsWith, hes, hindex, Option.map_some])
      (Nat.le_refl _) fun other hslot => ?_
    simp only [makesElement, hindex, Option.isSome_none, Bool.and_false, Bool.false_and,
      Bool.false_eq_true, if_false] at hslot
    refine (find?_insert_ne_none hslot).imp_right ?_
    rintro rfl
    exact ⟨hother, fun i hi => absurd (hi.symm.trans hindex) (Option.some_ne_none i)⟩
  | some i =>
    cases hplain : p.isPlain with
    | true =>
      refine h.later hes (storeElement es i p.value)
        (by simp only [elementsWith, hes, hindex, hplain, Option.map_some, if_true])
        (size_le_size_storeElement es i p.value) fun other hslot => .inl ?_
      simpa only [makesElement, hes, hindex, hplain, Option.isSome_some, Bool.and_self,
        if_true] using hslot
    | false =>
      refine h.later hes (es.setIfInBounds i none)
        (by simp only [elementsWith, hes, hindex, hplain, Option.map_some, Bool.false_eq_true,
          if_false])
        (Nat.le_of_eq Array.size_setIfInBounds.symm) fun other hslot => ?_
      simp only [makesElement, hplain, Bool.and_false, Bool.false_eq_true, if_false] at hslot
      refine (find?_insert_ne_none hslot).imp_right ?_
      rintro rfl
      refine ⟨hother, fun j hj => ?_⟩
      rw [Array.size_setIfInBounds]
      exact hplace hplain j hj

theorem assign_length (hslot : r.slots.find? "length" = none) (hes : r.elements = some es)
    (inherited : Option DataProperty) (value : Value) :
    r.assign "length" value (r.assignment inherited "length" value) =
      match arrayLength? value with
      | some size => { r with elements := some (resize es size) }
      | none => r := by
  unfold assignment
  simp only [hslot, hes, Option.isSome_some, beq_self_eq_true]
  cases arrayLength? value with
  | none => rfl
  | some size => simp only [assign, hes, Option.map_some]

theorem Bounded.assign (h : r.Bounded) (inherited : Option DataProperty) (value : Value)
    (hover : ¬ r.Overreaches (.set key value)) :
    (r.assign key value (r.assignment inherited key value)).Bounded := by
  obtain ⟨n, hlength, hbelow⟩ := id h
  obtain ⟨hnone, es, hes, rfl⟩ := length?_eq_some_iff.mp hlength
  by_cases hkey : key = "length"
  · subst hkey
    rw [assign_length hnone hes]
    cases hsize : arrayLength? value with
    | none => exact h
    | some size =>
      have hbelow' : r.SlotsBelow size :=
        Classical.not_not.mp fun hnot => hover ⟨rfl, size, hsize, hnot⟩
      exact ⟨size, length?_eq_some_iff.mpr ⟨hnone, _, rfl, size_resize es size⟩, hbelow'⟩
  · have hassigned := r.assigned_assign inherited key value
    generalize r.assignment inherited key value = a at hassigned ⊢
    generalize r.assign key value a = r' at hassigned
    cases hassigned with
    | refused => exact h
    | written hslot _ =>
      refine h.later hes es hes (Nat.le_refl _) fun other hother => .inl ?_
      rcases find?_insert_ne_none hother with hold | rfl
      · exact hold
      · rw [hslot]
        exact Option.some_ne_none _
    | created _ _ hplace =>
      refine h.later hes es hes (Nat.le_refl _) fun other hother => ?_
      refine (find?_insert_ne_none hother).imp_right ?_
      rintro rfl
      obtain ⟨hne, hindex⟩ := hplace (by rw [hes]; rfl)
      exact ⟨hne, fun i hi => absurd (hi.symm.trans hindex) (Option.some_ne_none i)⟩
    | @element es' i _ hes' _ =>
      cases hes.symm.trans hes'
      exact h.later hes _ rfl (size_le_size_storeElement es i value) fun _ hother => .inl hother
    | resized _ _ heq _ => exact absurd heq hkey

theorem Bounded.delete (h : r.Bounded) (key : String) : (r.delete key).Bounded := by
  obtain ⟨n, hlength, -⟩ := id h
  obtain ⟨-, es, hes, rfl⟩ := length?_eq_some_iff.mp hlength
  cases hslot : r.slots.find? key with
  | some p =>
    rw [delete_of_slot hslot]
    exact h.later hes es hes (Nat.le_refl _) fun _ hother =>
      .inl fun hnone => hother (find?_erase_eq_none hnone key)
  | none =>
    rw [delete_of_no_slot hslot, hes, Option.map_some]
    refine h.later hes _ rfl ?_ fun _ hother => .inl hother
    split
    · exact Nat.le_of_eq Array.size_setIfInBounds.symm
    · exact Nat.le_refl _

theorem not_bounded_after (h : r.Bounded) (inherited : Option DataProperty)
    {op : PropertyOperation} (hover : r.Overreaches op) : ¬ (r.after inherited op).Bounded := by
  obtain ⟨n, hlength, -⟩ := h
  obtain ⟨hnone, es, hes, rfl⟩ := length?_eq_some_iff.mp hlength
  rintro ⟨n', hlength', hbelow'⟩
  obtain ⟨hnone', es', hes', rfl⟩ := length?_eq_some_iff.mp hlength'
  cases op with
  | define key p =>
    obtain ⟨hadmits, hplace⟩ := hover
    rw [after, if_pos hadmits] at hnone' hes' hbelow'
    rcases hplace with rfl | ⟨hplain, es₀, i, hes₀, hindex, hpast⟩
    · have hslot : (r.define "length" p).slots.find? "length" = some p :=
        find?_slots_define_of_not (by simp [makesElement, arrayIndex?_length])
      cases hnone'.symm.trans hslot
    · have hslot : (r.define key p).slots.find? key = some p :=
        find?_slots_define_of_not (by simp [makesElement, hplain])
      have hlt := hbelow' key i hindex (by rw [hslot]; exact Option.some_ne_none _)
      cases hes.symm.trans hes₀
      rw [define_eq] at hes'
      simp only [elementsWith, hes, hindex, hplain, Option.map_some, Bool.false_eq_true, if_false,
        Option.some.injEq] at hes'
      rw [← hes', Array.size_setIfInBounds] at hlt
      exact absurd hpast (Nat.not_le_of_lt hlt)
  | set key value =>
    obtain ⟨rfl, size, hsize, hbelow⟩ := hover
    rw [after, assign_length hnone hes, hsize] at hes' hbelow'
    cases hes'
    rw [size_resize] at hbelow'
    exact hbelow hbelow'
  | delete key => exact hover

theorem bounded_after_iff (h : r.Bounded) (inherited : Option DataProperty)
    (op : PropertyOperation) : (r.after inherited op).Bounded ↔ ¬ r.Overreaches op := by
  refine ⟨fun hafter hover => not_bounded_after h inherited hover hafter, fun hover => ?_⟩
  cases op with
  | define key p =>
    rw [after]
    split
    · next hadmits => exact h.define hadmits hover
    · exact h
  | set key value => exact h.assign inherited value hover
  | delete key =>
    rw [after]
    split
    · exact h.delete key
    · exact h

/-- A property at an index of an array is below the length, or it has a slot and is not plain. -/
theorem index_lt_or_special (htidy : r.Tidy) (hes : r.elements = some es) {i : Nat}
    (hindex : Number.arrayIndex? key = some i) {shared : Option Value}
    (hp : r.ownProperty? shared key = some p) :
    i < es.size ∨ p.isPlain = false ∧ r.slots.find? key ≠ none := by
  have hsome : r.elements.isSome = true := by rw [hes]; rfl
  cases hslot : r.slots.find? key with
  | some q =>
    rw [ownProperty?_of_slot hslot] at hp
    cases hp
    have hspecial : q.isPlain = false := htidy.special hsome key q (by rw [hindex]; rfl) hslot
    exact .inr ⟨hspecial, Option.some_ne_none _⟩
  | none =>
    rw [ownProperty?_of_no_slot hslot, beneath?, unitProperty?_eq_none (htidy.unwrapped hsome),
      Option.or_none,
      elementProperty?_of_index hes hindex] at hp
    refine .inl (Nat.lt_of_not_le fun hle => ?_)
    rw [Array.getElem?_eq_none hle] at hp
    cases hp

theorem ownProperty?_length (hes : r.elements = some es)
    (hslot : r.slots.find? "length" = none) (shared : Option Value) :
    r.ownProperty? shared "length" = some ⟨.ofNat es.size, true, false, false⟩ := by
  rw [ownProperty?_of_no_slot hslot, beneath?, elementProperty?, hes]
  rfl

end ObjectRecord

namespace Store

variable {s : Store} {id : ObjectId} {r : ObjectRecord}

/-- The length of an array is the number of its elements, and it is above every index at which the
array has a property. -/
def LengthBounds (s : Store) (id : ObjectId) : Prop :=
  ∃ r n, s.object? id = some r ∧ r.length? = some n ∧
    ∀ key i p, Number.arrayIndex? key = some i → s.ownProperty? id key = some p → i < n

def Overreaches (s : Store) (id : ObjectId) (op : PropertyOperation) : Prop :=
  ∃ r, s.object? id = some r ∧ r.Overreaches op

/-- Operations on the properties of any objects, one after the other. -/
def operateEach (s : Store) (ops : List (ObjectId × PropertyOperation)) : Store :=
  ops.foldl (fun s step => (s.operate step.1 step.2).2) s

def NeverOverreaches (s : Store) (id : ObjectId) : List (ObjectId × PropertyOperation) → Prop
  | [] => True
  | (target, op) :: ops =>
    (target = id → ¬ s.Overreaches id op) ∧ (s.operate target op).2.NeverOverreaches id ops

theorem exists_tidy_operate (hr : s.object? id = some r) (htidy : r.Tidy) (target : ObjectId)
    (op : PropertyOperation) :
    ∃ r', (s.operate target op).2.object? id = some r' ∧ r'.Tidy := by
  by_cases htarget : id = target
  · subst htarget
    obtain ⟨inherited, hafter⟩ := object?_operate hr op
    exact ⟨_, hafter, htidy.after inherited op⟩
  · exact ⟨r, (object?_operate_of_ne htarget op).trans hr, htidy⟩

theorem exists_tidy_operateEach (hr : s.object? id = some r) (htidy : r.Tidy)
    (ops : List (ObjectId × PropertyOperation)) :
    ∃ r', (s.operateEach ops).object? id = some r' ∧ r'.Tidy := by
  induction ops generalizing s r with
  | nil => exact ⟨r, hr, htidy⟩
  | cons op ops ih =>
    obtain ⟨r', hr', htidy'⟩ := exists_tidy_operate hr htidy op.1 op.2
    exact ih hr' htidy'

theorem lengthBounds_iff (hr : s.object? id = some r) (htidy : r.Tidy) :
    s.LengthBounds id ↔ r.Bounded := by
  constructor
  · rintro ⟨r', n, hr', hlength, hbelow⟩
    cases hr.symm.trans hr'
    refine ⟨n, hlength, fun key i hindex hslot => ?_⟩
    obtain ⟨q, hq⟩ := Option.ne_none_iff_exists'.mp hslot
    refine hbelow key i { q with value := (s.sharedValue? r key).getD q.value } hindex ?_
    rw [ownProperty?_of_object? hr, ObjectRecord.ownProperty?_of_slot hq]
  · rintro ⟨n, hlength, hbelow⟩
    refine ⟨r, n, hr, hlength, fun key i p hindex hp => ?_⟩
    obtain ⟨-, es, hes, rfl⟩ := ObjectRecord.length?_eq_some_iff.mp hlength
    rw [ownProperty?_of_object? hr] at hp
    rcases ObjectRecord.index_lt_or_special htidy hes hindex hp with hlt | ⟨-, hslot⟩
    · exact hlt
    · exact hbelow key i hindex hslot

theorem overreaches_iff (hr : s.object? id = some r) (op : PropertyOperation) :
    s.Overreaches id op ↔ r.Overreaches op := by
  rw [Overreaches, hr]
  simp

theorem lengthBounds_operate_iff (hr : s.object? id = some r) (htidy : r.Tidy)
    (h : s.LengthBounds id) (op : PropertyOperation) :
    (s.operate id op).2.LengthBounds id ↔ ¬ s.Overreaches id op := by
  obtain ⟨inherited, hafter⟩ := object?_operate hr op
  rw [lengthBounds_iff hafter (htidy.after inherited op), overreaches_iff hr]
  exact ObjectRecord.bounded_after_iff ((lengthBounds_iff hr htidy).mp h) inherited op

theorem LengthBounds.operateEach (hr : s.object? id = some r) (htidy : r.Tidy)
    (h : s.LengthBounds id) {ops : List (ObjectId × PropertyOperation)}
    (hops : s.NeverOverreaches id ops) : (s.operateEach ops).LengthBounds id := by
  induction ops generalizing s r with
  | nil => exact h
  | cons step ops ih =>
    obtain ⟨target, op⟩ := step
    obtain ⟨r', hr', htidy'⟩ := exists_tidy_operate hr htidy target op
    refine ih hr' htidy' ?_ hops.2
    by_cases htarget : target = id
    · subst htarget
      exact (lengthBounds_operate_iff hr htidy h op).mpr (hops.1 rfl)
    · rw [object?_operate_of_ne (Ne.symm htarget), hr] at hr'
      cases hr'
      have hsame := (object?_operate_of_ne (s := s) (Ne.symm htarget) op).trans hr
      exact (lengthBounds_iff hsame htidy).mpr ((lengthBounds_iff hr htidy).mp h)

end Store

namespace Lengths

open Integrity

variable {host : Host} {m : Machine}

/-- On every machine that sessions lead to, a property of an array is at an index below the number
of the elements, unless it is not plain and has a slot; and that number is the length, unless a slot
has taken its place.  Where the length bounds the indices, definitions, assignments and deletions on
any objects keep that as long as none on the array overreaches, and what overreaches always puts an
end to it.  A new array begins like that. -/
theorem indices_below_length (hhost : host.Courteous)
    (hm : Machine.Reachable host Program.Accepted m) :
    (∀ id r es, m.store.object? id = some r → r.elements = some es →
      (∀ key i p, Number.arrayIndex? key = some i → m.store.ownProperty? id key = some p →
        i < es.size ∨ p.isPlain = false ∧ r.slots.find? key ≠ none) ∧
      (r.slots.find? "length" = none →
        m.store.ownProperty? id "length" = some ⟨.ofNat es.size, true, false, false⟩) ∧
      (∀ ops, m.store.LengthBounds id → m.store.NeverOverreaches id ops →
        (m.store.operateEach ops).LengthBounds id) ∧
      (∀ ops op, (m.store.operateEach ops).LengthBounds id →
        (((m.store.operateEach ops).operate id op).2.LengthBounds id ↔
          ¬ (m.store.operateEach ops).Overreaches id op))) ∧
    (∀ es ops id s, m.store.allocate (.array es) = (id, s) → s.NeverOverreaches id ops →
      (s.operateEach ops).LengthBounds id) := by
  have htidy := (intact_of_reachable hhost hm).1.store.tidy
  refine ⟨fun id r es hr hes => ⟨fun key i p hindex hp => ?_, fun hslot => ?_, fun ops h => ?_,
    fun ops op h => ?_⟩, fun es ops id s hmade hops => ?_⟩
  · rw [Store.ownProperty?_of_object? hr] at hp
    exact ObjectRecord.index_lt_or_special (htidy id r hr) hes hindex hp
  · rw [Store.ownProperty?_of_object? hr]
    exact ObjectRecord.ownProperty?_length hes hslot _
  · exact h.operateEach hr (htidy id r hr)
  · obtain ⟨r', hr', htidy'⟩ := Store.exists_tidy_operateEach hr (htidy id r hr) ops
    exact Store.lengthBounds_operate_iff hr' htidy' h op
  · have hobject : s.object? id = some (.array es) := by
      have hnew := m.store.object?_allocate_self (.array es)
      rw [hmade] at hnew
      exact hnew
    have hnew : (ObjectRecord.array es).Tidy := (ObjectRecord.IsNew.array es).tidy
    have hbounded : (ObjectRecord.array es).Bounded :=
      ⟨es.size, rfl, fun _ _ _ hslot => absurd rfl hslot⟩
    exact ((Store.lengthBounds_iff hobject hnew).mpr hbounded).operateEach hobject hnew hops

/-- A new array that gets an element, which then becomes read-only, while another array gets one. -/
theorem indices_below_length_read_only :
    let made := (Machine.initial {}).store.allocate (.array #[])
    (made.2.operateEach [(made.1, .set "0" .null), (.arrayPrototype, .set "7" .null),
      (made.1, .define "0" (.fixed .null)), (made.1, .delete "0")]).LengthBounds made.1 := by
  intro made
  refine (indices_below_length Host.none_courteous (.initial {})).2 #[] _ made.1 made.2 rfl ?_
  refine ⟨fun _ ⟨_, _, hlength, _⟩ => absurd hlength (by decide),
    fun hsame => absurd hsame (by decide +kernel), fun _ => ?_, fun _ ⟨_, _, hnever⟩ => hnever,
    trivial⟩
  -- The element is below the length by now.
  have hsize : (((made.2.operate made.1 (.set "0" .null)).2.operate .arrayPrototype
      (.set "7" .null)).2.object? made.1).bind (fun r => r.elements.map Array.size) = some 1 := by
    decide +kernel
  rintro ⟨r, hr, -, hlength | ⟨-, es, i, hes, hindex, hle⟩⟩
  · exact absurd hlength (by decide)
  · rw [hr, Option.bind_some, hes, Option.map_some, Option.some.injEq] at hsize
    have hzero : i = 0 := Option.some.inj (hindex.symm.trans (by decide))
    omega

-- The exception is real: a property past the elements that is not plain.
example : let r := (ObjectRecord.array #[]).define "5" (.fixed .null)
    (r.ownProperty? none "5").isSome = true ∧ r.length? = some 0 := by
  decide

end Lengths

end ProtoScript
