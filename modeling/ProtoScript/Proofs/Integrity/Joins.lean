import ProtoScript.Proofs.Integrity.Ancestry
import ProtoScript.Proofs.Slots.Operations
import ProtoScript.Proofs.Integrity.Bindings
/-!
# Parameters that arguments share

An arguments object names the scope and the name of each parameter that it shares.  A parameter that
is a variable with a value can be read and takes new values, and nothing makes anything else of it
but declaring its name as something else in the same scope, or copying another binding there.
-/

namespace ProtoScript

/-!
### Tidy stores

What an array has in its slots at indices is never plain, and what shares a parameter is writable
and shares it alone.  A change to one record keeps that of all as long as it keeps it of this one.
An object that is no array and shares nothing stays like that.
-/

namespace Store

def Every (P : ObjectRecord → Prop) (s : Store) : Prop := ∀ id r, s.object? id = some r → P r

def Tidy (s : Store) : Prop := s.Every ObjectRecord.Tidy

def WellShared (s : Store) : Prop := s.Every ObjectRecord.WellShared

/-- The parameter that a property shares. -/
def joined? (s : Store) (id : ObjectId) (key : String) : Option (ScopeId × String) :=
  (s.object? id).bind fun r => r.sharedParameters.find? key

def Ordinary (s : Store) (id : ObjectId) : Prop :=
  ∃ r, s.object? id = some r ∧ r.elements = none ∧ ∀ key, r.sharedParameters.find? key = none

variable {s s' : Store} {id : ObjectId}

namespace Every

variable {P : ObjectRecord → Prop}

theorem of_objects (hs : s.Every P) (h : s'.objects = s.objects) : s'.Every P := by
  intro id r hr
  unfold object? at hr
  rw [h] at hr
  exact hs id r hr

theorem modifyObject (hs : s.Every P) {f : ObjectRecord → ObjectRecord}
    (hf : ∀ r, s.object? id = some r → P r → P (f r)) : (s.modifyObject id f).Every P := by
  intro other r hr
  rw [object?_modifyObject] at hr
  obtain ⟨before, hbefore, rfl | ⟨rfl, rfl⟩⟩ := exists_of_ite_map hr
  · exact hs other _ hbefore
  · exact hf before hbefore (hs other before hbefore)

theorem allocate (hs : s.Every P) {r : ObjectRecord} (hr : P r) : (s.allocate r).2.Every P := by
  intro id record hrecord
  rw [object?_allocate] at hrecord
  split at hrecord
  · cases hrecord
    exact hr
  · exact hs id record hrecord

end Every

theorem joined?_of_object? {r : ObjectRecord} (hr : s.object? id = some r) (key : String) :
    s.joined? id key = r.sharedParameters.find? key := by
  unfold joined?
  rw [hr]
  rfl

theorem WellShared.joined?_eq_none (hs : s.WellShared) (id : ObjectId) {key : String}
    (hkey : ¬ Number.IsNumeral key) : s.joined? id key = none := by
  cases hr : s.object? id with
  | none =>
    unfold joined?
    rw [hr]
    rfl
  | some r =>
    rw [joined?_of_object? hr]
    exact Decidable.byContradiction fun hshared => hkey ((hs id r hr).numeral key hshared)

namespace Ordinary

theorem joined?_eq_none (h : s.Ordinary id) (key : String) : s.joined? id key = none := by
  obtain ⟨r, hr, -, hunshared⟩ := h
  exact (joined?_of_object? hr key).trans (hunshared key)

theorem modifyObject (h : s.Ordinary id) (other : ObjectId) {f : ObjectRecord → ObjectRecord}
    (hf : ∀ r, s.object? other = some r →
      (r.elements = none → (f r).elements = none) ∧ r.SharesLess (f r)) :
    (s.modifyObject other f).Ordinary id := by
  obtain ⟨r, hr, hnone, hunshared⟩ := h
  unfold Ordinary
  rw [object?_modifyObject, hr]
  split
  · next heq =>
    obtain ⟨helements, hless⟩ := hf r (heq ▸ hr)
    refine ⟨f r, rfl, helements hnone, fun key => ?_⟩
    cases hshared : (f r).sharedParameters.find? key with
    | none => rfl
    | some shared => exact absurd (hless key shared hshared) (by simp [hunshared key])
  · exact ⟨r, rfl, hnone, hunshared⟩

theorem allocate (h : s.Ordinary id) (r : ObjectRecord) : (s.allocate r).2.Ordinary id := by
  obtain ⟨before, hbefore, hordinary⟩ := h
  refine ⟨before, ?_, hordinary⟩
  have hlt := object?_eq_some_iff.mp ⟨before, hbefore⟩
  rw [object?_allocate, if_neg (Nat.ne_of_lt hlt)]
  exact hbefore

theorem of_allocate {r : ObjectRecord} (h : r.elements = none) (hr : r.sharedParameters = .empty) :
    (s.allocate r).2.Ordinary (s.allocate r).1 :=
  ⟨r, s.object?_allocate_self r, h, fun _ => by rw [hr]; rfl⟩

end Ordinary

end Store

/-! ### Shared parameters -/

structure Binding.IsVariable (b : Binding) : Prop where
  kind : b.kind = .variable
  initialized : b.initialized = true

theorem Binding.IsVariable.write_eq {b : Binding} (hb : b.IsVariable) (value : Value) :
    b.write value = .ok { b with value } := by
  unfold Binding.write
  rw [if_pos hb.initialized, hb.kind]

namespace Scope

def HasVariable (a : Scope) (name : String) : Prop :=
  ∃ b, a.bindings.find? name = some b ∧ b.IsVariable

variable {a origin : Scope} {name other : String} {names : List String}

namespace HasVariable

theorem insert (h : a.HasVariable name) {b : Binding} (hb : name = other → b.IsVariable) :
    { a with bindings := a.bindings.insert other b }.HasVariable name := by
  unfold HasVariable
  dsimp only
  rw [NameMap.find?_insert]
  split
  · next heq => exact ⟨b, rfl, hb heq⟩
  · exact h

theorem declare (h : a.HasVariable name) {kind : BindingKind}
    (hfree : kind = .variable ∨ name ≠ other) : (a.declare other kind).HasVariable name := by
  unfold Scope.declare
  split
  · exact h
  · next hnew =>
    refine h.insert fun heq => ?_
    subst heq
    -- The name is bound, so it is not declared anew.
    obtain ⟨b, hb, -⟩ := h
    have hcontains : a.bindings.contains name = true := by rw [NameMap.contains, hb]; rfl
    exact absurd ⟨hfree.resolve_right (fun hne => hne rfl), hcontains⟩ hnew

theorem declareAll (h : a.HasVariable name) {kind : BindingKind}
    (hfree : kind = .variable ∨ name ∉ names) :
    (names.foldl (fun a other => a.declare other kind) a).HasVariable name := by
  induction names generalizing a with
  | nil => exact h
  | cons first rest ih =>
    exact ih (h.declare (hfree.imp_right fun hnot => List.ne_of_not_mem_cons hnot))
      (hfree.imp_right List.not_mem_of_not_mem_cons)

theorem bind (h : a.HasVariable name) (other : String) (value : Value) :
    (a.bind other value).HasVariable name := by
  refine h.insert ?_
  rintro rfl
  obtain ⟨b, hb, hvariable⟩ := h
  rw [hb]
  exact ⟨hvariable.kind, rfl⟩

theorem copied (h : a.HasVariable name) (hfree : name ∉ names) :
    { a with
      bindings := names.foldl (fun bindings other =>
        match origin.bindings.find? other with
        | some binding => bindings.insert other binding
        | none => bindings) a.bindings }.HasVariable name := by
  induction names generalizing a with
  | nil => exact h
  | cons first rest ih =>
    rw [List.foldl_cons]
    split
    · next binding _ =>
      exact ih (h.insert fun heq => absurd heq (List.ne_of_not_mem_cons hfree))
        (List.not_mem_of_not_mem_cons hfree)
    · exact ih h (List.not_mem_of_not_mem_cons hfree)

end HasVariable

/-! ### Declaring and binding names -/

theorem find?_declare_of_ne (kind : BindingKind) (h : name ≠ other) :
    (a.declare other kind).bindings.find? name = a.bindings.find? name := by
  unfold declare
  split
  · rfl
  · dsimp only
    rw [NameMap.find?_insert, if_neg h]

theorem find?_bind_of_ne (value : Value) (h : name ≠ other) :
    (a.bind other value).bindings.find? name = a.bindings.find? name := by
  unfold bind
  dsimp only
  rw [NameMap.find?_insert, if_neg h]

theorem hasVariable_declare (h : a.HasVariable name ∨ a.bindings.find? name = none) :
    (a.declare name .variable).HasVariable name := by
  rcases h with hvariable | hfree
  · exact hvariable.declare (.inl rfl)
  · unfold declare NameMap.contains
    rw [hfree]
    refine ⟨⟨.undefined, .variable, true⟩, ?_, rfl, rfl⟩
    simp [NameMap.find?_insert]

theorem hasVariable_declareAll (hname : name ∈ names)
    (h : a.HasVariable name ∨ a.bindings.find? name = none) :
    (names.foldl (fun a other => a.declare other .variable) a).HasVariable name := by
  induction names generalizing a with
  | nil => cases hname
  | cons first rest ih =>
    rw [List.foldl_cons]
    by_cases hfirst : name = first
    · subst hfirst
      exact (hasVariable_declare h).declareAll (.inl rfl)
    · refine ih (List.mem_of_ne_of_mem hfirst hname) (h.imp ?_ fun hfree => ?_)
      · exact fun hvariable => hvariable.declare (.inl rfl)
      · rw [find?_declare_of_ne _ hfirst]
        exact hfree

end Scope

namespace Store

def Shares (s : Store) (scope : ScopeId) (name : String) : Prop :=
  ∃ id key, s.joined? id key = some (scope, name)

def SharesInside (s : Store) : Prop :=
  ∀ scope name, s.Shares scope name → scope ≠ .global ∧ scope.index < s.scopes.size

def HasVariable (s : Store) (scope : ScopeId) (name : String) : Prop :=
  ∃ a, s.scope? scope = some a ∧ a.HasVariable name

/-- The parameters that are shared in the scopes are variables with values. -/
def Joins (J : ScopeId → Prop) (s : Store) : Prop :=
  ∀ scope name, J scope → s.Shares scope name → s.HasVariable scope name

variable {s s' : Store} {scope : ScopeId} {name : String}

theorem Shares.of_objects (h : s'.Shares scope name) (hs : s'.objects = s.objects) :
    s.Shares scope name := by
  obtain ⟨id, key, hjoined⟩ := h
  unfold joined? object? at hjoined
  rw [hs] at hjoined
  exact ⟨id, key, hjoined⟩

theorem Shares.of_modifyObject {id : ObjectId} {f : ObjectRecord → ObjectRecord}
    (h : (s.modifyObject id f).Shares scope name)
    (hf : ∀ r, s.object? id = some r → r.SharesLess (f r)) : s.Shares scope name := by
  obtain ⟨other, key, hkey⟩ := h
  obtain ⟨r, hr, hfound⟩ := Option.bind_eq_some_iff.mp hkey
  rw [object?_modifyObject] at hr
  obtain ⟨before, hbefore, rfl | ⟨rfl, rfl⟩⟩ := exists_of_ite_map hr
  · exact ⟨other, key, (joined?_of_object? hbefore key).trans hfound⟩
  · exact ⟨other, key, (joined?_of_object? hbefore key).trans (hf before hbefore key _ hfound)⟩

theorem Shares.of_allocate {r : ObjectRecord} (h : (s.allocate r).2.Shares scope name) :
    s.Shares scope name ∨ ∃ key, r.sharedParameters.find? key = some (scope, name) := by
  obtain ⟨other, key, hkey⟩ := h
  obtain ⟨record, hrecord, hfound⟩ := Option.bind_eq_some_iff.mp hkey
  rw [object?_allocate] at hrecord
  split at hrecord
  · cases hrecord
    exact .inr ⟨key, hfound⟩
  · exact .inl ⟨other, key, (joined?_of_object? hrecord key).trans hfound⟩

namespace HasVariable

theorem binding? (h : s.HasVariable scope name) :
    ∃ b, s.binding? scope name = some b ∧ b.IsVariable := by
  obtain ⟨a, ha, b, hb, hvariable⟩ := h
  refine ⟨b, ?_, hvariable⟩
  unfold Store.binding?
  rw [ha]
  exact hb

theorem of_scopes (h : s.HasVariable scope name) (hs : s'.scopes = s.scopes) :
    s'.HasVariable scope name := by
  unfold HasVariable scope?
  rw [hs]
  exact h

theorem modifyScope (h : s.HasVariable scope name) {id : ScopeId} {f : Scope → Scope}
    (hf : scope = id → ∀ a, a.HasVariable name → (f a).HasVariable name) :
    (s.modifyScope id f).HasVariable scope name := by
  obtain ⟨a, ha, hvariable⟩ := h
  unfold HasVariable
  rw [scope?_modifyScope, ha]
  split
  · next heq => exact ⟨f a, rfl, hf heq a hvariable⟩
  · exact ⟨a, rfl, hvariable⟩

theorem newScope (h : s.HasVariable scope name) (parent : Option ScopeId) (kind : ScopeKind) :
    (s.newScope parent kind).2.HasVariable scope name := by
  obtain ⟨a, ha, hvariable⟩ := h
  refine ⟨a, ?_, hvariable⟩
  rw [scope?_newScope, if_neg (Nat.ne_of_lt (scope?_eq_some_iff.mp ⟨a, ha⟩))]
  exact ha

/-- An assignment writes to variables only what leaves them variables. -/
theorem assign (h : s.HasVariable scope name) (id : ScopeId) (other : String) (value : Value) :
    (s.assign id other value).2.HasVariable scope name := by
  unfold Store.assign
  split
  · exact h
  · next holder b hresolve =>
    split
    · exact h
    · next written hwritten =>
      refine h.modifyScope fun heq a ha => ha.insert ?_
      subst heq
      rintro rfl
      obtain ⟨c, hc, hvariable⟩ := h.binding?
      cases hc.symm.trans (binding?_of_resolve? hresolve)
      cases hwritten.symm.trans (hvariable.write_eq value)
      exact ⟨hvariable.kind, hvariable.initialized⟩

theorem assignShared (h : s.HasVariable scope name) (r : ObjectRecord) (key : String)
    (value : Value) : (s.assignShared r key value).HasVariable scope name := by
  unfold Store.assignShared
  split
  · exact h.assign ..
  · exact h

end HasVariable

end Store

end ProtoScript
