import ProtoScript.Proofs.Resolution
/-!
# Bindings of scopes

What a scope itself binds a name to, and what the name resolves to from scopes further inside.
-/

namespace ProtoScript.Store

def binding? (s : Store) (id : ScopeId) (name : String) : Option Binding :=
  (s.scope? id).bind fun a => a.bindings.find? name

def parent? (s : Store) (id : ScopeId) : Option ScopeId := (s.scope? id).bind Scope.parent

variable {s s' : Store} {id : ScopeId} {name : String}

theorem hasOwnBinding_iff :
    s.hasOwnBinding id name = true ↔ ∃ b, s.binding? id name = some b := by
  unfold hasOwnBinding binding? Scope.hasOwn NameMap.contains
  cases s.scope? id with
  | none => simp
  | some a => simp [Option.isSome_iff_exists]

theorem modifyScope_of_eq {f : Scope → Scope}
    (h : ∀ a, s.scope? id = some a → f a = a) : s.modifyScope id f = s := by
  have hscopes : s.scopes.modify id.index f = s.scopes := by
    refine Array.ext_getElem? fun i => ?_
    rw [Array.getElem?_modify]
    split
    · next hi =>
      subst hi
      cases ha : s.scopes[id.index]? with
      | none => rfl
      | some a => exact congrArg some (h a ha)
    · rfl
  unfold modifyScope
  rw [hscopes]

theorem parent?_modifyScope (s : Store) (id other : ScopeId) {f : Scope → Scope}
    (hf : ∀ a, (f a).parent = a.parent) :
    (s.modifyScope id f).parent? other = s.parent? other := by
  unfold parent?
  rw [scope?_modifyScope]
  split
  · cases s.scope? other with
    | none => rfl
    | some a => exact hf a
  · rfl

theorem parent?_newScope (s : Store) (parent : Option ScopeId) (kind : ScopeKind) (id : ScopeId) :
    (s.newScope parent kind).2.parent? id =
      if id.index = s.scopes.size then parent else s.parent? id := by
  unfold parent?
  rw [scope?_newScope]
  split <;> rfl

theorem lt_of_binding? {b : Binding} (h : s.binding? id name = some b) :
    id.index < s.scopes.size := by
  obtain ⟨a, ha, _⟩ := Option.bind_eq_some_iff.mp h
  exact scope?_eq_some_iff.mp ⟨a, ha⟩

/-- What a name resolves to is a binding of the scope that it resolves in. -/
theorem binding?_of_resolve? {holder : ScopeId} {b : Binding}
    (h : s.resolve? id name = some (holder, b)) : s.binding? holder name = some b := by
  fun_induction resolve? s id name with
  | case1 => cases h
  | case2 id a ha binding hbinding =>
    cases h
    unfold binding?
    rw [ha]
    exact hbinding
  | case3 _ _ _ _ _ _ _ ih => exact ih h
  | case4 => cases h
  | case5 => cases h

theorem resolve?_of_binding? {b : Binding} (h : s.binding? id name = some b) :
    s.resolve? id name = some (id, b) := by
  obtain ⟨a, ha, hb⟩ := Option.bind_eq_some_iff.mp h
  rw [resolve?, ha]
  simp only [hb]

/-- What a name resolves to depends on what the scopes on the way outward bind this name to, and on
where they stand. -/
theorem resolve?_congr (h : ∀ place : ScopeId, place.index ≤ id.index →
      (s'.scope? place).map (fun a => (a.bindings.find? name, a.parent)) =
        (s.scope? place).map fun a => (a.bindings.find? name, a.parent)) :
    s'.resolve? id name = s.resolve? id name := by
  -- The scope around a scope has a smaller place.
  induction hn : id.index using Nat.strongRecOn generalizing id with
  | ind n ih =>
    have hhere := h id (Nat.le_refl _)
    rw [resolve?.eq_def, resolve?.eq_def s]
    cases ha : s.scope? id with
    | none =>
      rw [ha, Option.map_none, Option.map_eq_none_iff] at hhere
      rw [hhere]
    | some a =>
      rw [ha, Option.map_some, Option.map_eq_some_iff] at hhere
      obtain ⟨b, hb, heq⟩ := hhere
      rw [Prod.mk.injEq] at heq
      rw [hb]
      dsimp only
      rw [heq.1, heq.2]
      split
      · rfl
      · split
        · next parent _ =>
          split
          · next hbehind =>
            exact ih parent.index (hn ▸ hbehind)
              (fun place hplace => h place (Nat.le_of_lt (Nat.lt_of_le_of_lt hplace hbehind))) rfl
          · rfl
        · rfl

theorem lookup?_congr (h : s'.resolve? id name = s.resolve? id name) :
    s'.lookup? id name = s.lookup? id name := by
  rw [lookup?, lookup?, lookup, lookup, h]

/-- A scope that binds no name of its own resolves it as the scope around it does. -/
theorem Inside.resolve?_eq {inner outer : ScopeId} (h : s.Inside inner outer)
    (hfree : s.binding? inner name = none) : s.resolve? inner name = s.resolve? outer name := by
  obtain ⟨hbehind, a, ha, hparent⟩ := h
  unfold binding? at hfree
  rw [ha, Option.bind_some] at hfree
  rw [resolve?, ha]
  simp only [hfree, hparent, if_pos hbehind]

theorem binding?_modifyScope (s : Store) (id other : ScopeId) (f : Scope → Scope)
    (name : String) :
    (s.modifyScope id f).binding? other name =
      if other = id then (s.scope? other).bind fun a => (f a).bindings.find? name
      else s.binding? other name := by
  unfold binding?
  rw [scope?_modifyScope]
  split
  · cases s.scope? other <;> rfl
  · rfl

/-- What keeps the binding of a scope for a name keeps all bindings for it. -/
theorem binding?_modifyScope_of_same {other : ScopeId} {f : Scope → Scope}
    (h : other = id → ∀ a, (f a).bindings.find? name = a.bindings.find? name) :
    (s.modifyScope id f).binding? other name = s.binding? other name := by
  rw [binding?_modifyScope]
  split
  · next heq => exact congrArg _ (funext (h heq))
  · rfl

theorem binding?_newScope (s : Store) (parent : Option ScopeId) (kind : ScopeKind) (id : ScopeId)
    (name : String) : (s.newScope parent kind).2.binding? id name = s.binding? id name := by
  unfold binding?
  rw [scope?_newScope]
  split
  · next hnew =>
    have hnone : s.scope? id = none := Array.getElem?_eq_none (Nat.le_of_eq hnew.symm)
    rw [hnone]
    rfl
  · rfl

theorem binding?_newScope_self (s : Store) (parent : Option ScopeId) (kind : ScopeKind)
    (name : String) :
    (s.newScope parent kind).2.binding? (s.newScope parent kind).1 name = none := by
  unfold binding?
  rw [scope?_newScope_self]
  rfl

/-! ### A name bound to something else -/

def rebind (s : Store) (holder : ScopeId) (name : String) (b : Binding) : Store :=
  s.modifyScope holder fun a => { a with bindings := a.bindings.insert name b }

theorem resolve?_rebind_of_ne {other : String} (holder : ScopeId) (b : Binding)
    (h : other ≠ name) :
    (s.rebind holder name b).resolve? id other = s.resolve? id other := by
  refine resolve?_congr fun place _ => ?_
  unfold rebind
  rw [scope?_modifyScope]
  split
  · rw [Option.map_map]
    congr 1
    funext a
    simp [NameMap.find?_insert, h]
  · rfl

theorem resolve?_rebind_self {holder : ScopeId} {b : Binding}
    (h : s.resolve? id name = some (holder, b)) (c : Binding) :
    (s.rebind holder name c).resolve? id name = some (holder, c) := by
  have hbound := binding?_of_resolve? h
  have hholder : (s.rebind holder name c).binding? holder name = some c := by
    obtain ⟨a, ha, -⟩ := Option.bind_eq_some_iff.mp hbound
    unfold rebind
    rw [binding?_modifyScope, if_pos rfl, ha, Option.bind_some, NameMap.find?_insert, if_pos rfl]
  fun_induction resolve? s id name with
  | case1 => cases h
  | case2 =>
    cases h
    exact resolve?_of_binding? hholder
  | case3 id a ha hfree parent hparent hbehind ih =>
    have hne : id ≠ holder := by
      rintro rfl
      unfold binding? at hbound
      rw [ha, Option.bind_some, hfree] at hbound
      cases hbound
    have hscope : (s.rebind holder name c).scope? id = some a := by
      unfold rebind
      rw [scope?_modifyScope, if_neg hne, ha]
    rw [resolve?, hscope]
    simp only [hfree, hparent, if_pos hbehind]
    exact ih h
  | case4 => cases h
  | case5 => cases h

theorem resolve?_rebind_of_elsewhere {holder : ScopeId} {b : Binding}
    (hbound : s.binding? holder name = some b)
    (h : ∀ found, s.resolve? id name ≠ some (holder, found)) (c : Binding) :
    (s.rebind holder name c).resolve? id name = s.resolve? id name := by
  have hscope (place : ScopeId) (hne : place ≠ holder) :
      (s.rebind holder name c).scope? place = s.scope? place := by
    unfold rebind
    rw [scope?_modifyScope, if_neg hne]
  have hne (place : ScopeId) (helse : ∀ found, s.resolve? place name ≠ some (holder, found)) :
      place ≠ holder := by
    rintro rfl
    exact helse b (resolve?_of_binding? hbound)
  induction hn : id.index using Nat.strongRecOn generalizing id with
  | ind n ih =>
    rw [resolve?, hscope id (hne id h), resolve?.eq_def s]
    cases ha : s.scope? id with
    | none => rfl
    | some a =>
      dsimp only
      cases hfind : a.bindings.find? name with
      | some found => rfl
      | none =>
        dsimp only
        cases hparent : a.parent with
        | none => rfl
        | some parent =>
          dsimp only
          split
          · next hbehind =>
            refine ih parent.index (hn ▸ hbehind) (fun found hfound => h found ?_) rfl
            rw [resolve?, ha]
            simp only [hfind, hparent, if_pos hbehind, hfound]
          · rfl

end ProtoScript.Store
