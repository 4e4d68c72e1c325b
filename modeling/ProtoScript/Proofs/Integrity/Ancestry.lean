import Mathlib.Data.List.Nodup
import Mathlib.Data.List.Perm.Subperm
import ProtoScript.Store.Display
/-!
# Ancestries

The ancestry of an object is the list of the objects that its prototype links lead through, up to
the end of the links.  Where everything has an ancestry, no links lead in a circle, and the bound
that walks along the links are given never cuts one off.  A new object and a new link whose target
does not inherit from the object that is linked leave everything an ancestry.
-/

namespace ProtoScript.Store

/-- The prototype links lead from a start through some objects and then end. -/
inductive Ancestry (s : Store) : Option ObjectId → List ObjectId → Prop
  | nil : s.Ancestry none []
  | cons {id : ObjectId} {r : ObjectRecord} {ids : List ObjectId} (there : s.object? id = some r)
      (rest : s.Ancestry r.prototype ids) : s.Ancestry (some id) (id :: ids)

def Founded (s : Store) : Prop :=
  ∀ id : ObjectId, id.index < s.objects.size → ∃ ids, s.Ancestry (some id) ids

theorem object?_eq_some_iff {s : Store} {id : ObjectId} :
    (∃ r, s.object? id = some r) ↔ id.index < s.objects.size := by
  unfold object?
  constructor
  · rintro ⟨r, hr⟩
    exact (Array.getElem?_eq_some_iff.mp hr).1
  · intro h
    exact ⟨_, Array.getElem?_eq_getElem h⟩

namespace Ancestry

variable {s s' : Store} {start : Option ObjectId} {ids : List ObjectId}

theorem lt_size (h : s.Ancestry start ids) : ∀ id ∈ ids, id.index < s.objects.size := by
  induction h with
  | nil => exact nofun
  | cons there _ ih => exact List.forall_mem_cons.mpr ⟨object?_eq_some_iff.mp ⟨_, there⟩, ih⟩

theorem unique {others : List ObjectId} (h : s.Ancestry start ids) (h' : s.Ancestry start others) :
    ids = others := by
  induction h generalizing others with
  | nil =>
    cases h'
    rfl
  | cons there _ ih =>
    cases h' with
    | cons there' rest' =>
      rw [there] at there'
      cases there'
      rw [ih rest']

theorem of_mem (h : s.Ancestry start ids) {id : ObjectId} (hid : id ∈ ids) :
    ∃ others, s.Ancestry (some id) others ∧ others <:+ ids := by
  induction h with
  | nil => cases hid
  | cons there rest ih =>
    rcases List.mem_cons.mp hid with rfl | hrest
    · exact ⟨_, .cons there rest, List.suffix_refl _⟩
    · obtain ⟨others, hothers, hsuffix⟩ := ih hrest
      exact ⟨others, hothers, hsuffix.trans (List.suffix_cons _ _)⟩

/-- No object is met twice: what follows it would be as long as all that follows itself. -/
theorem nodup (h : s.Ancestry start ids) : ids.Nodup := by
  induction h with
  | nil => exact List.nodup_nil
  | @cons id r ids there rest ih =>
    refine List.nodup_cons.mpr ⟨fun hid => ?_, ih⟩
    obtain ⟨others, hothers, hsuffix⟩ := rest.of_mem hid
    have heq := hothers.unique (.cons there rest)
    have hlength := hsuffix.length_le
    rw [heq, List.length_cons] at hlength
    omega

theorem length_le (h : s.Ancestry start ids) : ids.length ≤ s.objects.size := by
  have hinjective : Function.Injective ObjectId.index := by
    rintro ⟨i⟩ ⟨j⟩ rfl
    rfl
  have hnodup : (ids.map ObjectId.index).Nodup := h.nodup.map hinjective
  have hsubset : ids.map ObjectId.index ⊆ List.range s.objects.size := by
    intro i hi
    obtain ⟨id, hid, rfl⟩ := List.mem_map.mp hi
    exact List.mem_range.mpr (h.lt_size id hid)
  have hlength := (List.subperm_of_subset hnodup hsubset).length_le
  rwa [List.length_map, List.length_range] at hlength

theorem chainFrom_eq (h : s.Ancestry start ids) {bound : Nat} (hbound : ids.length ≤ bound) :
    s.chainFrom bound start = ids := by
  induction h generalizing bound with
  | nil => cases bound <;> rfl
  | cons there _ ih =>
    cases bound with
    | zero => cases hbound
    | succ bound =>
      rw [chainFrom, there]
      exact congrArg _ (ih (Nat.le_of_succ_le_succ hbound))

theorem chain_eq (h : s.Ancestry start ids) : s.chain start = ids := h.chainFrom_eq h.length_le

theorem of_links (h : s.Ancestry start ids)
    (hlinks : ∀ id ∈ ids, ∀ r, s.object? id = some r →
      ∃ r', s'.object? id = some r' ∧ r'.prototype = r.prototype) : s'.Ancestry start ids := by
  induction h with
  | nil => exact .nil
  | @cons id r ids there rest ih =>
    obtain ⟨r', hr', hprototype⟩ := hlinks _ (List.mem_cons_self ..) _ there
    refine .cons hr' ?_
    rw [hprototype]
    exact ih fun other hother => hlinks other (List.mem_cons_of_mem _ hother)

theorem allocate (h : s.Ancestry start ids) (r : ObjectRecord) :
    (s.allocate r).2.Ancestry start ids := by
  refine h.of_links fun id hid record hrecord => ⟨record, ?_, rfl⟩
  rw [object?_allocate, if_neg (Nat.ne_of_lt (h.lt_size id hid))]
  exact hrecord

end Ancestry

namespace Founded

variable {s : Store}

theorem ancestry (hs : s.Founded) {start : Option ObjectId}
    (hstart : ∀ id ∈ start, id.index < s.objects.size) : ∃ ids, s.Ancestry start ids := by
  cases start with
  | none => exact ⟨[], .nil⟩
  | some id => exact hs id (hstart id rfl)

theorem of_objects {s' : Store} (hs : s.Founded) (h : s'.objects = s.objects) : s'.Founded := by
  intro id hid
  rw [h] at hid
  obtain ⟨ids, hids⟩ := hs id hid
  refine ⟨ids, hids.of_links fun other _ r hr => ⟨r, ?_, rfl⟩⟩
  unfold object? at hr ⊢
  rw [h]
  exact hr

theorem modifyObject (hs : s.Founded) (id : ObjectId) {f : ObjectRecord → ObjectRecord}
    (hf : ∀ r, (f r).prototype = r.prototype) : (s.modifyObject id f).Founded := by
  intro other hother
  have hsize : (s.modifyObject id f).objects.size = s.objects.size := Array.size_modify ..
  obtain ⟨ids, hids⟩ := hs other (by rw [← hsize]; exact hother)
  refine ⟨ids, hids.of_links fun place _ r hr => ?_⟩
  rw [object?_modifyObject, hr]
  by_cases heq : place = id
  · rw [if_pos heq]
    exact ⟨f r, rfl, hf r⟩
  · rw [if_neg heq]
    exact ⟨r, rfl, rfl⟩

theorem allocate (hs : s.Founded) {r : ObjectRecord}
    (hr : ∀ id ∈ r.prototype, id.index < s.objects.size) : (s.allocate r).2.Founded := by
  intro id hid
  have hsize : (s.allocate r).2.objects.size = s.objects.size + 1 := Array.size_push ..
  by_cases hnew : id.index = s.objects.size
  · obtain ⟨ids, hids⟩ := hs.ancestry hr
    refine ⟨id :: ids, .cons (r := r) ?_ (hids.allocate r)⟩
    rw [object?_allocate, if_pos hnew]
  · obtain ⟨ids, hids⟩ := hs id (by omega)
    exact ⟨ids, hids.allocate r⟩

/-- A link from an object to one that does not inherit from it closes no circle. -/
theorem setPrototype (hs : s.Founded) {id : ObjectId} {prototype : Option ObjectId}
    (hthere : ∀ p ∈ prototype, p.index < s.objects.size) (hfree : id ∉ s.chain prototype) :
    (s.setPrototype id prototype).Founded := by
  obtain ⟨above, habove⟩ := hs.ancestry hthere
  rw [habove.chain_eq] at hfree
  -- What does not lead through the object has kept its links.
  have hkept {start : Option ObjectId} {ids : List ObjectId} (h : s.Ancestry start ids)
      (hid : id ∉ ids) : (s.setPrototype id prototype).Ancestry start ids := by
    refine h.of_links fun other hother r hr => ⟨r, ?_, rfl⟩
    have hne : other ≠ id := fun heq => hid (heq ▸ hother)
    unfold Store.setPrototype
    rw [object?_modifyObject, if_neg hne]
    exact hr
  -- What leads through the object leads on to the new prototype.
  have hleads {start : Option ObjectId} {ids : List ObjectId} (h : s.Ancestry start ids) :
      ∃ others, (s.setPrototype id prototype).Ancestry start others := by
    induction h with
    | nil => exact ⟨[], .nil⟩
    | @cons other r rest there _ ih =>
      by_cases heq : other = id
      · refine ⟨other :: above, .cons (r := { r with prototype }) ?_ (hkept habove hfree)⟩
        unfold Store.setPrototype
        rw [object?_modifyObject, if_pos heq, there]
        rfl
      · obtain ⟨others, hothers⟩ := ih
        refine ⟨other :: others, .cons (r := r) ?_ hothers⟩
        unfold Store.setPrototype
        rw [object?_modifyObject, if_neg heq]
        exact there
  intro other hother
  have hsize : (s.setPrototype id prototype).objects.size = s.objects.size := Array.size_modify ..
  obtain ⟨ids, hids⟩ := hs other (by rw [← hsize]; exact hother)
  exact hleads hids

end Founded

end ProtoScript.Store
