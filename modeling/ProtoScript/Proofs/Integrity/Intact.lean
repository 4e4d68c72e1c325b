import ProtoScript.Proofs.Conduct
import ProtoScript.Proofs.Integrity.Known
import ProtoScript.Proofs.Integrity.Operations
/-!
# Intact stores

What holds of every store that a run comes by: everything that it refers to is there, the prototype
links lead in no circle, the records are tidy and share parameters as arguments do, scopes stand
inside earlier ones, closures are of sound functions, function expressions find their own names in
scopes that hold no variables, and a scope that has a `this` never lets it be written.  The second
half is what a store keeps when it evolves, which it does by operations that heed the parameters
which arguments share: what is no array and shares nothing, the scopes with their parents, the
`this` of each, and, where the name of a binding is watched, the binding itself once it has the
value that it is to keep.
-/

namespace ProtoScript

def BindingKind.isFixed : BindingKind → Bool
  | .variable | .letBound => false
  | .constant | .readOnly | .selfName _ => true

def Binding.Settled (b : Binding) : Prop := b.kind.isFixed = true ∧ b.initialized = true

def Binding.IsReceiver (b : Binding) : Prop := b.kind = .constant ∧ b.initialized = true

theorem Binding.IsReceiver.settled {b : Binding} (hb : b.IsReceiver) : b.Settled :=
  ⟨congrArg BindingKind.isFixed hb.1, hb.2⟩

theorem Binding.Settled.write_eq {b written : Binding} (hb : b.Settled) {value : Value}
    (h : b.write value = .ok written) : written = b := by
  obtain ⟨value', kind, initialized⟩ := b
  obtain ⟨hkind, hinitialized⟩ := hb
  cases hinitialized
  cases kind with
  | selfName guarded =>
    cases guarded with
    | false =>
      cases h
      rfl
    | true => cases h
  | constant => cases h
  | readOnly => cases h
  | _ => cases hkind

theorem Binding.within_write {b written : Binding} {n : Nat} {value : Value}
    (hb : b.value.Within n) (hvalue : value.Within n) (h : b.write value = .ok written) :
    written.value.Within n := by
  unfold Binding.write at h
  split at h
  · split at h
    · cases h
      exact hvalue
    · cases h
      exact hvalue
    · cases h
    · cases h
    · cases h
      exact hb
    · cases h
  · cases h

def Watch.first (n : Nat) : Watch where
  settled _ _ := False
  joined id := id.index < n
  old id := id.index < n

abbrev Watch.names (settled : ScopeId → String → Prop) : Watch :=
  ⟨settled, fun _ => False, fun _ => False⟩

def Watch.closed (kept : Watch) : Watch := { kept with old := fun _ => True }

namespace Store

/-- The binding that a scope itself has for a name is settled. -/
def Fixes (s : Store) (id : ScopeId) (name : String) : Prop :=
  ∃ b, s.binding? id name = some b ∧ b.Settled

variable {s s' s'' : Store} {id : ScopeId} {name : String}

theorem objectOf?_isSome {v : Value} (hv : v.Within s.objects.size)
    (hobject : v.isObject = true) : (s.objectOf? v).isSome = true := by
  cases v with
  | object id =>
    obtain ⟨r, hr⟩ := object?_eq_some_iff.mpr hv
    unfold objectOf?
    simp only [Value.objectId?, Option.bind_some, hr, Option.isSome_some]
  | _ => cases hobject

structure Intact (s : Store) : Prop where
  intrinsics : intrinsicCount ≤ s.objects.size
  records : ∀ id r, s.object? id = some r → r.Within s.objects.size
  bindings : ∀ id a, s.scope? id = some a → a.Within s.objects.size
  founded : s.Founded
  tidy : s.Tidy
  shared : s.WellShared
  shares : s.SharesInside
  nested : ∀ id a, s.scope? id = some a → id ≠ .global → ∃ p ∈ a.parent, p.index < id.index
  sound : s.Sound
  named : s.Named
  receivers : ∀ id b, s.binding? id "this" = some b → b.IsReceiver

/-- The settled bindings that are to be kept are as they were, and so is every `this`. -/
structure Preserves (kept : ScopeId → String → Prop) (s s' : Store) : Prop where
  objects : s.objects.size ≤ s'.objects.size
  ordinary : ∀ id, s.Ordinary id → s'.Ordinary id
  scopes : ∀ id a, s.scope? id = some a → ∃ b, s'.scope? id = some b ∧ b.parent = a.parent
  receivers : ∀ id : ScopeId, id.index < s.scopes.size →
    s'.binding? id "this" = s.binding? id "this"
  settled : ∀ id name b, kept id name → s.binding? id name = some b → b.Settled →
    s'.binding? id name = some b

structure Evolves (kept : Watch) (s s' : Store) : Prop extends Preserves kept.settled s s' where
  comesBy : s.ComesBy kept s'

namespace Preserves

variable {kept kept' : ScopeId → String → Prop}

theorem refl (s : Store) : s.Preserves kept s :=
  ⟨Nat.le_refl _, fun _ h => h, fun _ a h => ⟨a, h, rfl⟩, fun _ _ => rfl, fun _ _ _ _ h _ => h⟩

theorem size_le (h : s.Preserves kept s') : s.scopes.size ≤ s'.scopes.size := by
  cases hn : s.scopes.size with
  | zero => exact Nat.zero_le _
  | succ n =>
    obtain ⟨a, ha⟩ : ∃ a, s.scope? ⟨n⟩ = some a := scope?_eq_some_iff.mpr (by simp [hn])
    obtain ⟨b, hb, _⟩ := h.scopes _ a ha
    exact scope?_eq_some_iff.mp ⟨b, hb⟩

theorem trans (h : s.Preserves kept s') (h' : s'.Preserves kept s'') : s.Preserves kept s'' where
  objects := Nat.le_trans h.objects h'.objects
  ordinary id hid := h'.ordinary id (h.ordinary id hid)
  scopes id a ha := by
    obtain ⟨b, hb, hparent⟩ := h.scopes id a ha
    obtain ⟨c, hc, hparent'⟩ := h'.scopes id b hb
    exact ⟨c, hc, hparent'.trans hparent⟩
  receivers id hid :=
    (h'.receivers id (Nat.lt_of_lt_of_le hid h.size_le)).trans (h.receivers id hid)
  settled id name b hkept hb hsettled :=
    h'.settled id name b hkept (h.settled id name b hkept hb hsettled) hsettled

/-- Less may be asked to be kept, and nothing need be asked of names that are not settled. -/
theorem mono (h : s.Preserves kept s')
    (hkept : ∀ id name b, kept' id name → s.binding? id name = some b → b.Settled →
      kept id name) : s.Preserves kept' s' where
  objects := h.objects
  ordinary := h.ordinary
  scopes := h.scopes
  receivers := h.receivers
  settled id name b hname hb hsettled :=
    h.settled id name b (hkept id name b hname hb hsettled) hb hsettled

end Preserves

namespace Evolves

variable {kept kept' : Watch}

theorem refl (s : Store) : s.Evolves kept s := ⟨.refl s, .refl s⟩

theorem size_le (h : s.Evolves kept s') : s.scopes.size ≤ s'.scopes.size := h.toPreserves.size_le

theorem trans (h : s.Evolves kept s') (h' : s'.Evolves kept s'') : s.Evolves kept s'' :=
  ⟨h.toPreserves.trans h'.toPreserves, h.comesBy.trans h'.comesBy⟩

/-- Less may be watched, and nothing need be asked of names that are not settled. -/
theorem mono (h : s.Evolves kept s')
    (hsettled : ∀ id name b, kept'.settled id name → s.binding? id name = some b → b.Settled →
      kept.settled id name) (hjoined : ∀ id, kept'.joined id → kept.joined id)
    (hold : ∀ id, kept'.old id → kept.old id) : s.Evolves kept' s' :=
  ⟨h.toPreserves.mono hsettled, h.comesBy.mono hjoined hold⟩

theorem of_closed (h : s.Evolves kept.closed s') : s.Evolves kept s' :=
  h.mono (fun _ _ _ h _ _ => h) (fun _ h => h) fun _ _ => trivial

theorem retains (h : s.Evolves kept s') : s.Retains s' := h.comesBy.retains

theorem lt (h : s.Evolves kept s') (hid : id.index < s.scopes.size) :
    id.index < s'.scopes.size :=
  Nat.lt_of_lt_of_le hid h.size_le

theorem within (h : s.Evolves kept s') {v : Value} (hv : v.Within s.objects.size) :
    v.Within s'.objects.size :=
  hv.mono h.objects

theorem resolve?_this (h : s.Evolves kept s') (hid : id.index < s.scopes.size) :
    s'.resolve? id "this" = s.resolve? id "this" := by
  refine resolve?_congr fun place hplace => ?_
  have hthere := Nat.lt_of_le_of_lt hplace hid
  obtain ⟨a, ha⟩ := scope?_eq_some_iff.mpr hthere
  obtain ⟨b, hb, hparent⟩ := h.scopes place a ha
  have hown := h.receivers place hthere
  unfold binding? at hown
  rw [ha, hb, Option.bind_some, Option.bind_some] at hown
  rw [ha, hb, Option.map_some, Option.map_some, hown, hparent]

theorem lookup?_this (h : s.Evolves kept s') (hid : id.index < s.scopes.size) :
    s'.lookup? id "this" = s.lookup? id "this" :=
  lookup?_congr (h.resolve?_this hid)

end Evolves

structure Leads (kept : Watch) (s s' : Store) : Prop where
  evolves : s.Evolves kept s'
  intact : s'.Intact

theorem Intact.leads_self (hs : s.Intact) {kept : Watch} : s.Leads kept s :=
  ⟨.refl s, hs⟩

theorem Leads.of_operation {kept : Watch} (op : StoreOperation) (hop : s.Heeds kept op)
    (heq : s' = s.perform op) (h : s.Preserves kept.settled s' ∧ s'.Intact) : s.Leads kept s' :=
  ⟨⟨h.1, heq ▸ .of_operation hop⟩, h.2⟩

theorem Leads.trans {kept : Watch} (h : s.Leads kept s')
    (h' : s'.Leads kept s'') : s.Leads kept s'' :=
  ⟨h.evolves.trans h'.evolves, h'.intact⟩

theorem Leads.of_closed {kept : Watch} (h : s.Leads kept.closed s') : s.Leads kept s' :=
  ⟨h.evolves.of_closed, h.intact⟩

namespace Intact

variable {kept : Watch}

/-! ### Reading -/

theorem within_of_binding? (hs : s.Intact) {b : Binding} (h : s.binding? id name = some b) :
    b.value.Within s.objects.size := by
  obtain ⟨a, ha, hb⟩ := Option.bind_eq_some_iff.mp h
  exact NameMap.All.find? (hs.bindings id a ha) hb

theorem within_lookup (hs : s.Intact) {v : Value} (h : s.lookup id name = .ok v) :
    v.Within s.objects.size := by
  unfold lookup at h
  split at h
  · rename_i holder b hresolve
    unfold Binding.read at h
    split at h
    · cases h
      exact hs.within_of_binding? (binding?_of_resolve? hresolve)
    · cases h
  · cases h

theorem within_lookup? (hs : s.Intact) {v : Value} (h : s.lookup? id name = some v) :
    v.Within s.objects.size := by
  unfold lookup? at h
  cases hlookup : s.lookup id name with
  | ok w =>
    rw [hlookup] at h
    cases h
    exact hs.within_lookup hlookup
  | error e =>
    rw [hlookup] at h
    cases h

theorem within_ownProperty? (hs : s.Intact) {id : ObjectId} {key : String} {p : DataProperty}
    (h : s.ownProperty? id key = some p) : p.value.Within s.objects.size := by
  obtain ⟨r, hr, hp⟩ := Option.bind_eq_some_iff.mp h
  refine (hs.records id r hr).ownProperty? (fun v hv => ?_) hp
  obtain ⟨⟨scope, shared⟩, _, hlookup⟩ := Option.bind_eq_some_iff.mp hv
  exact hs.within_lookup? hlookup

theorem within_property? (hs : s.Intact) {id : ObjectId} {key : String} {p : DataProperty}
    (h : s.property? id key = some p) : p.value.Within s.objects.size := by
  obtain ⟨holder, _, hp⟩ := List.exists_of_findSome?_eq_some h
  exact hs.within_ownProperty? hp

theorem within_get (hs : s.Intact) (id : ObjectId) (key : String) :
    (s.get id key).Within s.objects.size := by
  unfold get
  cases hp : s.property? id key with
  | none => trivial
  | some p => exact hs.within_property? hp

theorem within_getOfPrimitive (hs : s.Intact) (v : Value) (key : String) :
    (s.getOfPrimitive v key).Within s.objects.size := by
  unfold getOfPrimitive
  dsimp only
  split
  · rename_i own value prototype hown
    split at hown
    · unfold Text.property? at hown
      split at hown
      · cases hown
        trivial
      · obtain ⟨unit, _, rfl⟩ := Option.map_eq_some_iff.mp hown
        trivial
    · cases hown
  · exact hs.within_get _ key
  · trivial

theorem within_prototype? (hs : s.Intact) {id p : ObjectId} (h : s.prototype? id = some p) :
    p.index < s.objects.size := by
  obtain ⟨r, hr, hp⟩ := Option.bind_eq_some_iff.mp h
  exact (hs.records id r hr).prototype p hp

/-- The way outward to the scope for variables ends at one that holds them. -/
theorem holdsVars_varScope (hs : s.Intact) (hid : id.index < s.scopes.size) :
    s.HoldsVars (s.varScope id) := by
  induction hn : id.index using Nat.strongRecOn generalizing id with
  | ind n ih =>
    obtain ⟨a, ha⟩ := scope?_eq_some_iff.mpr hid
    rw [varScope, ha]
    dsimp only
    by_cases hholds : a.kind.holdsVars = true
    · rw [if_pos hholds]
      exact ⟨a, ha, hholds⟩
    · have hinside : id ≠ .global := by
        rintro rfl
        obtain ⟨b, hb, hglobal⟩ := hs.named.outermost
        cases ha.symm.trans hb
        exact hholds hglobal
      obtain ⟨parent, hparent, hbehind⟩ := hs.nested id a ha hinside
      rw [if_neg hholds, Option.mem_def.mp hparent]
      dsimp only
      rw [if_pos hbehind]
      exact ih parent.index (hn ▸ hbehind) (Nat.lt_trans hbehind hid) rfl

theorem lt_intrinsic (hs : s.Intact) {id : ObjectId} (h : id.index < intrinsicCount) :
    id.index < s.objects.size :=
  Nat.lt_of_lt_of_le h hs.intrinsics

end Intact

end Store

end ProtoScript
