import ProtoScript.Proofs.Slots.Operations
/-!
# Frozen properties

A property that is neither writable nor configurable stays as it is until it is defined anew, which
only its own key can do.  A slot admits that only with the same flags, so that its value may change;
over a unit or the length of a wrapped string any definition puts a slot.
-/

namespace ProtoScript

namespace DataProperty

/-- The property can neither be written nor be configured. -/
structure Frozen (p : DataProperty) : Prop where
  writable : p.writable = false
  configurable : p.configurable = false

theorem Frozen.isPlain {p : DataProperty} (h : p.Frozen) : p.isPlain = false := by
  rw [DataProperty.isPlain, h.writable, Bool.false_and, Bool.false_and]

end DataProperty

namespace ObjectRecord

variable {r r' : ObjectRecord} {key other : String} {p q : DataProperty} {value : Value}
  {a : Assignment}

def InSlot (r : ObjectRecord) (key : String) (q : DataProperty) : Prop :=
  r.slots.find? key = some q ∧ r.sharedParameters.find? key = none

/-- The property is a unit or the length of a wrapped string, without a slot in front of it. -/
structure IsUnit (r : ObjectRecord) (key : String) (q : DataProperty) : Prop where
  slot : r.slots.find? key = none
  elements : r.elements = none
  unshared : r.sharedParameters.find? key = none
  unit : r.unitProperty? key = some q

/-! ### Where a frozen property stands -/

theorem writable_of_elementProperty? (h : r.elementProperty? key = some p) : p.writable = true := by
  unfold elementProperty? at h
  split at h
  · cases h
  · split at h
    · cases h
      rfl
    · split at h
      · obtain ⟨value, -, rfl⟩ := Option.map_eq_some_iff.mp h
        rfl
      · cases h

theorem inSlot_or_isUnit (htidy : r.Tidy) (hlinked : r.Linked) {shared : Option Value}
    (hshared : r.sharedParameters.find? key = none → shared = none)
    (h : r.ownProperty? shared key = some q) (hq : q.Frozen) : r.InSlot key q ∨ r.IsUnit key q := by
  cases hslot : r.slots.find? key with
  | some p =>
    rw [ownProperty?_of_slot hslot] at h
    obtain rfl := Option.some.inj h
    have hunshared : r.sharedParameters.find? key = none := by
      apply hlinked.find?_eq_none
      intro p' hp'
      obtain rfl : p = p' := Option.some.inj (hslot.symm.trans hp')
      exact hq.writable
    refine .inl ⟨?_, hunshared⟩
    rw [hshared hunshared, hslot]
    rfl
  | none =>
    have hunshared : r.sharedParameters.find? key = none := by
      apply hlinked.find?_eq_none
      intro p hp
      cases hslot.symm.trans hp
    rw [ownProperty?_of_no_slot hslot, beneath?] at h
    rcases Option.or_eq_some_iff.mp h with helement | ⟨-, hunit⟩
    · cases (writable_of_elementProperty? helement).symm.trans hq.writable
    · refine .inr ⟨hslot, ?_, hunshared, hunit⟩
      cases helements : r.elements with
      | none => rfl
      | some es =>
        have htext := htidy.unwrapped (by rw [helements]; rfl)
        rw [unitProperty?, htext] at hunit
        cases hunit

theorem ownProperty?_of_inSlot_or_isUnit (h : r.InSlot key q ∨ r.IsUnit key q)
    {shared : Option Value} (hshared : r.sharedParameters.find? key = none → shared = none) :
    r.ownProperty? shared key = some q := by
  rcases h with ⟨hslot, hunshared⟩ | ⟨hslot, helements, hunshared, hunit⟩
  · rw [ownProperty?_of_slot hslot, hshared hunshared]
    rfl
  · have helement : r.elementProperty? key = none := by rw [elementProperty?, helements]
    rw [ownProperty?_of_no_slot hslot, beneath?, helement, hunit]
    rfl

/-! ### What operations do to it -/

structure SameAt (key : String) (r r' : ObjectRecord) : Prop where
  slot : r'.slots.find? key = r.slots.find? key
  unshared : r.sharedParameters.find? key = none → r'.sharedParameters.find? key = none
  elements : r.elements = none → r'.elements = none
  primitive : r'.primitive = r.primitive

theorem SameAt.refl (r : ObjectRecord) : SameAt key r r := ⟨rfl, id, id, rfl⟩

theorem sameAt_insert (hne : key ≠ other) : SameAt key r (r.insert other p) :=
  ⟨by rw [insert, OrderedMap.find?_insert, if_neg hne], id, id, rfl⟩

theorem sameAt_define (hne : key ≠ other) : SameAt key r (r.define other p) := by
  refine ⟨?_, fun h => ?_, elements_define_of_none, by rw [define_eq]⟩
  · rw [define_eq]
    dsimp only
    split
    · rfl
    · rw [OrderedMap.find?_insert, if_neg hne]
  · rw [define_eq]
    dsimp only
    split
    · exact h
    · exact find?_erase_eq_none h other

theorem sameAt_assign (hne : key ≠ other) (h : Assigned r other value a r') : SameAt key r r' := by
  cases h with
  | refused => exact .refl r
  | written => exact sameAt_insert hne
  | created => exact sameAt_insert hne
  | element _ hes => exact ⟨rfl, id, fun hnone => (nomatch hes.symm.trans hnone), rfl⟩
  | resized _ hes => exact ⟨rfl, id, fun hnone => (nomatch hes.symm.trans hnone), rfl⟩

theorem sameAt_delete (hne : key ≠ other) : SameAt key r (r.delete other) := by
  cases hslot : r.slots.find? other with
  | some p =>
    rw [delete_of_slot hslot]
    refine ⟨?_, fun h => find?_erase_eq_none h other, id, rfl⟩
    dsimp only
    rw [OrderedMap.find?_erase, if_neg hne]
  | none =>
    rw [delete_of_no_slot hslot]
    exact ⟨rfl, id, fun h => by rw [h]; rfl, rfl⟩

theorem sameAt_after {op : PropertyOperation} (hne : key ≠ op.key)
    (inherited : Option DataProperty) : SameAt key r (r.after inherited op) := by
  cases op with
  | define other p =>
    rw [after]
    split
    · exact sameAt_define hne
    · exact .refl r
  | set other value => exact sameAt_assign hne (r.assigned_assign inherited other value)
  | delete other =>
    rw [after]
    split
    · exact sameAt_delete hne
    · exact .refl r

theorem InSlot.sameAt (h : r.InSlot key q) (hsame : SameAt key r r') : r'.InSlot key q :=
  ⟨hsame.slot.trans h.1, hsame.unshared h.2⟩

theorem IsUnit.sameAt (h : r.IsUnit key q) (hsame : SameAt key r r') : r'.IsUnit key q where
  slot := hsame.slot.trans h.slot
  elements := hsame.elements h.elements
  unshared := hsame.unshared h.unshared
  unit := by
    rw [unitProperty?, wrappedText?, hsame.primitive]
    exact h.unit

theorem inSlot_define (hunshared : r.sharedParameters.find? key = none)
    (h : ¬ r.makesElement key p = true) : (r.define key p).InSlot key p := by
  rw [define_eq, if_neg h]
  refine ⟨?_, ?_⟩
  · dsimp only
    rw [OrderedMap.find?_insert, if_pos rfl]
  · dsimp only
    split
    · exact hunshared
    · exact find?_erase_eq_none hunshared key

theorem flags_of_admits (hslot : r.slots.find? key = some q) (hq : q.Frozen)
    (h : r.admits key p = true) : p.Frozen ∧ p.enumerable = q.enumerable := by
  simp only [admits, hslot, hq.writable, hq.configurable, Bool.false_or, Bool.and_eq_true,
    Bool.not_eq_true', beq_iff_eq] at h
  exact ⟨⟨h.2, h.1.1⟩, h.1.2⟩

theorem InSlot.define (h : r.InSlot key q) (hq : q.Frozen) (hadmits : r.admits key p = true) :
    (r.define key p).InSlot key p := by
  refine inSlot_define h.2 fun hmakes => ?_
  simp only [makesElement, Bool.and_eq_true] at hmakes
  cases hmakes.2.symm.trans (flags_of_admits h.1 hq hadmits).1.isPlain

theorem IsUnit.define (h : r.IsUnit key q) : (r.define key p).InSlot key p := by
  refine inSlot_define h.unshared ?_
  rw [makesElement, h.elements]
  exact Bool.false_ne_true

theorem InSlot.set (h : r.InSlot key q) (hq : q.Frozen) (hr' : Assigned r key value a r') :
    r' = r := by
  cases hr' with
  | refused => rfl
  | written hslot hwritable =>
    obtain rfl := Option.some.inj (h.1.symm.trans hslot)
    cases hq.writable.symm.trans hwritable
  | created hslot => cases h.1.symm.trans hslot
  | element hslot => cases h.1.symm.trans hslot
  | resized hslot => cases h.1.symm.trans hslot

theorem IsUnit.isUnitKey (h : r.IsUnit key q) : r.isUnitKey key = true := by
  cases hunit : r.isUnitKey key with
  | true => rfl
  | false => cases h.unit.symm.trans (unitProperty?_eq_none_iff.mpr hunit)

theorem IsUnit.set (h : r.IsUnit key q) (hr' : Assigned r key value a r') : r' = r := by
  cases hr' with
  | refused => rfl
  | written hslot => cases h.slot.symm.trans hslot
  | created _ hunit => cases h.isUnitKey.symm.trans hunit
  | element _ hes => cases h.elements.symm.trans hes
  | resized _ hes => cases h.elements.symm.trans hes

theorem InSlot.mayDelete (h : r.InSlot key q) (hq : q.Frozen) : r.mayDelete key = false := by
  simp only [ObjectRecord.mayDelete, h.1, hq.configurable]

theorem IsUnit.mayDelete (h : r.IsUnit key q) : r.mayDelete key = false := by
  simp only [ObjectRecord.mayDelete, h.slot, h.elements, h.isUnitKey, Bool.not_true]

theorem after_eq_of_not_defined {op : PropertyOperation} (hkey : op.key = key)
    (hdefined : ∀ p, op = .define key p → r.admits key p = false)
    (hset : ∀ value a r', Assigned r key value a r' → r' = r) (hdelete : r.mayDelete key = false)
    (inherited : Option DataProperty) : r.after inherited op = r := by
  cases op with
  | define other p =>
    obtain rfl : other = key := hkey
    rw [after, hdefined p rfl, if_neg Bool.false_ne_true]
  | set other value =>
    obtain rfl : other = key := hkey
    exact hset value _ _ (r.assigned_assign inherited other value)
  | delete other =>
    obtain rfl : other = key := hkey
    rw [after, hdelete, if_neg Bool.false_ne_true]

theorem InSlot.after (h : r.InSlot key q) (hq : q.Frozen) {op : PropertyOperation}
    (hdefined : ∀ p, op = .define key p → r.admits key p = false)
    (inherited : Option DataProperty) : (r.after inherited op).InSlot key q := by
  by_cases hkey : op.key = key
  · rwa [after_eq_of_not_defined hkey hdefined (fun _ _ _ => h.set hq) (h.mayDelete hq)]
  · exact h.sameAt (sameAt_after (Ne.symm hkey) inherited)

theorem IsUnit.after (h : r.IsUnit key q) {op : PropertyOperation}
    (hdefined : ∀ p, op = .define key p → r.admits key p = false)
    (inherited : Option DataProperty) : (r.after inherited op).IsUnit key q := by
  by_cases hkey : op.key = key
  · rwa [after_eq_of_not_defined hkey hdefined (fun _ _ _ => h.set) h.mayDelete]
  · exact h.sameAt (sameAt_after (Ne.symm hkey) inherited)

end ObjectRecord

namespace Store

open ObjectRecord

variable {s : Store} {id : ObjectId} {r : ObjectRecord} {key : String} {p q : DataProperty}
  {op : PropertyOperation}

/-- The operation puts another property in the place of one. -/
def Redefines (s : Store) (id : ObjectId) (key : String) (q : DataProperty) :
    PropertyOperation → Prop
  | .define other p => other = key ∧ p ≠ q ∧ (s.define id key p).1 = true
  | _ => False

/-- None of the operations puts another property in the place of one. -/
def LeavesDefined (s : Store) (id : ObjectId) (key : String) (q : DataProperty) :
    List PropertyOperation → Prop
  | [] => True
  | op :: ops => ¬ s.Redefines id key q op ∧ (s.operate id op).2.LeavesDefined id key q ops

/-- The object has a property in a slot, or a unit or length without a slot in front. -/
def Holds (s : Store) (id : ObjectId) (key : String) (q : DataProperty) : Prop :=
  ∃ r, s.object? id = some r ∧ (r.InSlot key q ∨ r.IsUnit key q)

theorem Holds.ownProperty? (h : s.Holds id key q) : s.ownProperty? id key = some q := by
  obtain ⟨r, hr, hholds⟩ := h
  rw [ownProperty?_of_object? hr]
  exact ownProperty?_of_inSlot_or_isUnit hholds sharedValue?_of_unshared

theorem holds_of_frozen (hr : s.object? id = some r) (htidy : r.Tidy) (hlinked : r.Linked)
    (h : s.ownProperty? id key = some q) (hq : q.Frozen) : s.Holds id key q := by
  rw [ownProperty?_of_object? hr] at h
  exact ⟨r, hr, inSlot_or_isUnit htidy hlinked sharedValue?_of_unshared h hq⟩

/-- A definition at its key puts the new property in the place of a frozen one. -/
theorem Holds.define (h : s.Holds id key q) (hq : q.Frozen)
    (hadmitted : (s.define id key p).1 = true) : (s.define id key p).2.Holds id key p := by
  obtain ⟨r, hr, hholds⟩ := h
  rw [define_fst hr] at hadmitted
  obtain ⟨inherited, hafter⟩ := object?_operate hr (.define key p)
  rw [ObjectRecord.after, if_pos hadmitted] at hafter
  refine ⟨_, hafter, .inl ?_⟩
  rcases hholds with hslot | hunit
  · exact hslot.define hq hadmitted
  · exact hunit.define

theorem Holds.operate (h : s.Holds id key q) (hq : q.Frozen)
    (hdefined : ∀ p, op = .define key p → (s.define id key p).1 = false) :
    (s.operate id op).2.Holds id key q := by
  obtain ⟨r, hr, hholds⟩ := h
  obtain ⟨inherited, hafter⟩ := object?_operate hr op
  have hrefused (p : DataProperty) (hp : op = .define key p) : r.admits key p = false := by
    rw [← define_fst hr]
    exact hdefined p hp
  refine ⟨_, hafter, ?_⟩
  rcases hholds with hslot | hunit
  · exact .inl (hslot.after hq hrefused inherited)
  · exact .inr (hunit.after hrefused inherited)

/-- One operation changes a frozen property just if it puts another one in its place. -/
theorem Holds.ownProperty?_operate (h : s.Holds id key q) (hq : q.Frozen)
    (op : PropertyOperation) :
    (s.operate id op).2.ownProperty? id key = some q ↔ ¬ s.Redefines id key q op := by
  by_cases hdefined : ∃ p, op = .define key p ∧ (s.define id key p).1 = true
  · obtain ⟨p, rfl, hadmitted⟩ := hdefined
    rw [show (s.operate id (.define key p)).2.ownProperty? id key = some p from
      (h.define hq hadmitted).ownProperty?]
    simp [Redefines, hadmitted]
  · have hholds : (s.operate id op).2.Holds id key q := h.operate hq fun p hp => by
      rw [← Bool.not_eq_true]
      exact fun hadmitted => hdefined ⟨p, hp, hadmitted⟩
    simp only [hholds.ownProperty?, true_iff]
    cases op with
    | define other p =>
      rintro ⟨rfl, -, hadmitted⟩
      exact hdefined ⟨p, rfl, hadmitted⟩
    | set => exact not_false
    | delete => exact not_false

theorem Holds.operateAll (h : s.Holds id key q) (hq : q.Frozen) {ops : List PropertyOperation}
    (hops : s.LeavesDefined id key q ops) : (s.operateAll id ops).Holds id key q := by
  induction ops generalizing s with
  | nil => exact h
  | cons op ops ih =>
    refine ih ?_ hops.2
    by_cases hdefined : ∃ p, op = .define key p ∧ (s.define id key p).1 = true
    · obtain ⟨p, rfl, hadmitted⟩ := hdefined
      have heq : p = q := Classical.not_not.mp fun hne => hops.1 ⟨rfl, hne, hadmitted⟩
      subst heq
      exact h.define hq hadmitted
    · refine h.operate hq fun p hp => ?_
      rw [← Bool.not_eq_true]
      exact fun hadmitted => hdefined ⟨p, hp, hadmitted⟩

def HoldsInSlot (s : Store) (id : ObjectId) (key : String) (q : DataProperty) : Prop :=
  ∃ r, s.object? id = some r ∧ r.InSlot key q

def HasSlot (s : Store) (id : ObjectId) (key : String) : Prop :=
  ∃ r, s.object? id = some r ∧ r.slots.find? key ≠ none

theorem Holds.inSlot (h : s.Holds id key q) (hslot : s.HasSlot id key) :
    s.HoldsInSlot id key q := by
  obtain ⟨r, hr, hholds⟩ := h
  obtain ⟨r', hr', hslot⟩ := hslot
  obtain rfl := Option.some.inj (hr.symm.trans hr')
  rcases hholds with hin | hunit
  · exact ⟨r, hr, hin⟩
  · exact absurd hunit.slot hslot

/-- Of a frozen property in a slot an operation changes the value at most. -/
theorem HoldsInSlot.operate (h : s.HoldsInSlot id key q) (hq : q.Frozen) (op : PropertyOperation) :
    ∃ value, (s.operate id op).2.HoldsInSlot id key { q with value } := by
  obtain ⟨r, hr, hslot⟩ := h
  obtain ⟨inherited, hafter⟩ := object?_operate hr op
  by_cases hdefined : ∃ p, op = .define key p ∧ r.admits key p = true
  · obtain ⟨p, rfl, hadmits⟩ := hdefined
    obtain ⟨hp, henumerable⟩ := flags_of_admits hslot.1 hq hadmits
    have heq : p = { q with value := p.value } := by
      obtain ⟨value, writable, enumerable, configurable⟩ := p
      obtain ⟨hwritable, hconfigurable⟩ := hp
      dsimp only at hwritable hconfigurable henumerable
      rw [hwritable, hconfigurable, henumerable, hq.writable, hq.configurable]
    rw [ObjectRecord.after, if_pos hadmits] at hafter
    refine ⟨p.value, _, hafter, ?_⟩
    rw [← heq]
    exact hslot.define hq hadmits
  · refine ⟨q.value, _, hafter, hslot.after hq (fun p hp => ?_) inherited⟩
    rw [← Bool.not_eq_true]
    exact fun hadmits => hdefined ⟨p, hp, hadmits⟩

theorem HoldsInSlot.operateAll (h : s.HoldsInSlot id key q) (hq : q.Frozen)
    (ops : List PropertyOperation) :
    ∃ value, (s.operateAll id ops).HoldsInSlot id key { q with value } := by
  induction ops generalizing s q with
  | nil => exact ⟨q.value, h⟩
  | cons op ops ih =>
    obtain ⟨value, hnext⟩ := h.operate hq op
    obtain ⟨value', hrun⟩ := ih hnext ⟨hq.writable, hq.configurable⟩
    exact ⟨value', hrun⟩

/-- Whatever has been done to the properties of an object since it was new, a property that is
neither writable nor configurable then stays as it is, except that a definition at its key may be
admitted that puts another one in its place.  In a slot that one has the same flags, so a slot keeps
them for good. -/
theorem frozen_unless_redefined (hr : s.object? id = some r) (hnew : r.IsNew)
    (ops : List PropertyOperation) (hread : (s.operateAll id ops).ownProperty? id key = some q)
    (hq : q.Frozen) :
    (∀ op, ((s.operateAll id ops).operate id op).2.ownProperty? id key = some q ↔
      ¬ (s.operateAll id ops).Redefines id key q op) ∧
    (∀ more, (s.operateAll id ops).LeavesDefined id key q more →
      ((s.operateAll id ops).operateAll id more).ownProperty? id key = some q) ∧
    ((s.operateAll id ops).HasSlot id key → ∀ more, ∃ value,
      ((s.operateAll id ops).operateAll id more).ownProperty? id key = some { q with value }) := by
  obtain ⟨r', hr', htidy, hlinked⟩ := exists_tidy_linked hr hnew ops
  have hholds := holds_of_frozen hr' htidy hlinked hread hq
  refine ⟨hholds.ownProperty?_operate hq, fun more hmore => ?_, fun hslot more => ?_⟩
  · exact (hholds.operateAll hq hmore).ownProperty?
  · obtain ⟨value, r'', hr'', hin⟩ := (hholds.inSlot hslot).operateAll hq more
    exact ⟨value, Holds.ownProperty? ⟨r'', hr'', .inl hin⟩⟩

/-- A frozen property of a plain object, and a definition that changes its value. -/
theorem frozen_unless_redefined_value :
    let s : Store := ⟨#[], #[{}]⟩
    let s := s.operateAll ⟨0⟩ [.define "a" (.fixed .null)]
    s.ownProperty? ⟨0⟩ "a" = some (.fixed .null) ∧
      (s.operate ⟨0⟩ (.define "a" (.fixed .undefined))).2.ownProperty? ⟨0⟩ "a" ≠
        some (.fixed .null) := by
  intro s₀ s
  have hnew : s₀.object? ⟨0⟩ = some {} := rfl
  have hread : s.ownProperty? ⟨0⟩ "a" = some (.fixed .null) := rfl
  have hstep := (frozen_unless_redefined hnew (.bare none) [.define "a" (.fixed .null)] hread
    ⟨rfl, rfl⟩).1 (.define "a" (.fixed .undefined))
  refine ⟨hread, fun hkept => hstep.mp hkept ⟨rfl, ?_, ?_⟩⟩
  · intro heq
    cases heq
  · decide +kernel

end Store

end ProtoScript
