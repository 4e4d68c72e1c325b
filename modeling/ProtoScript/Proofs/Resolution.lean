import ProtoScript.Proofs.StoreGrowth
/-!
# Names that resolve

A name resolves in a scope if the scope or one around it binds the name.  It resolves from then on,
and in every scope inside as well; an assignment to it never ends up at the global scope for want of
a binding.
-/

namespace ProtoScript.Store

/-- The scope, or one around it, binds the name. -/
def Resolves (s : Store) (id : ScopeId) (name : String) : Prop :=
  (s.resolve? id name).isSome = true

variable {s s' : Store} {id : ScopeId} {name : String}

theorem resolves_of_hasOwnBinding (h : s.hasOwnBinding id name = true) : s.Resolves id name := by
  obtain ⟨a, ha, hown⟩ := (Option.any_eq_true _ _).mp h
  obtain ⟨binding, hbinding⟩ := Option.isSome_iff_exists.mp hown
  unfold Resolves
  rw [resolve?, ha]
  simp only [hbinding, Option.isSome_some]

structure Inside (s : Store) (inner outer : ScopeId) : Prop where
  behind : outer.index < inner.index
  parent : ∃ a, s.scope? inner = some a ∧ a.parent = some outer

theorem Extends.inside {inner outer : ScopeId} (h : s.Extends s') (hi : s.Inside inner outer) :
    s'.Inside inner outer := by
  obtain ⟨hbehind, a, ha, hparent⟩ := hi
  obtain ⟨b, hb, hab⟩ := h.scope inner a ha
  exact ⟨hbehind, b, hb, hab.parent.trans hparent⟩

theorem inside_newScope (kind : ScopeKind) (hid : id.index < s.scopes.size) :
    (s.newScope (some id) kind).2.Inside (s.newScope (some id) kind).1 id :=
  ⟨hid, _, s.scope?_newScope_self (some id) kind, rfl⟩

/-- What resolves in the scope around a scope resolves in the scope. -/
theorem Inside.resolves {inner outer : ScopeId} (h : s.Inside inner outer)
    (hr : s.Resolves outer name) : s.Resolves inner name := by
  obtain ⟨hbehind, a, ha, hparent⟩ := h
  unfold Resolves
  rw [resolve?, ha]
  dsimp only
  split
  · rfl
  · rw [hparent]
    dsimp only
    rw [if_pos hbehind]
    exact hr

/-- A scope in which a name resolves binds it, or stands inside one in which it resolves. -/
theorem Resolves.cases (h : s.Resolves id name) :
    s.hasOwnBinding id name = true ∨ ∃ outer, s.Inside id outer ∧ s.Resolves outer name := by
  unfold Resolves at h
  rw [resolve?] at h
  cases ha : s.scope? id with
  | none =>
    rw [ha] at h
    cases h
  | some a =>
    rw [ha] at h
    dsimp only at h
    cases hfound : a.bindings.find? name with
    | some binding =>
      refine .inl ?_
      unfold hasOwnBinding Scope.hasOwn NameMap.contains
      rw [ha, Option.any_some, hfound]
      rfl
    | none =>
      rw [hfound] at h
      dsimp only at h
      cases hparent : a.parent with
      | none =>
        rw [hparent] at h
        cases h
      | some outer =>
        rw [hparent] at h
        dsimp only at h
        by_cases hbehind : outer.index < id.index
        · rw [if_pos hbehind] at h
          exact .inr ⟨outer, ⟨hbehind, a, ha, hparent⟩, h⟩
        · rw [if_neg hbehind] at h
          cases h

theorem Extends.resolves (h : s.Extends s') (hr : s.Resolves id name) : s'.Resolves id name := by
  -- The scope around a scope has a smaller place.
  induction hn : id.index using Nat.strongRecOn generalizing id with
  | ind n ih =>
    rcases hr.cases with hown | ⟨outer, hinside, hrest⟩
    · exact resolves_of_hasOwnBinding (h.hasOwnBinding hown)
    · have hbehind := hinside.behind
      exact (h.inside hinside).resolves (ih outer.index (by omega) hrest rfl)

/-- What the scope for variables comes to bind resolves in the scope that it was found from. -/
theorem Extends.resolves_of_varScope (h : s.Extends s')
    (hown : s'.hasOwnBinding (s.varScope id) name = true) : s'.Resolves id name := by
  induction hn : id.index using Nat.strongRecOn generalizing id with
  | ind n ih =>
    rw [varScope] at hown
    split at hown
    · exact resolves_of_hasOwnBinding hown
    rename_i a ha
    split at hown
    · exact resolves_of_hasOwnBinding hown
    split at hown
    · rename_i parent hparent
      split at hown
      · rename_i hbehind
        have hinside : s.Inside id parent := ⟨hbehind, a, ha, hparent⟩
        exact (h.inside hinside).resolves (ih parent.index (by omega) hown rfl)
      · exact resolves_of_hasOwnBinding hown
    · exact resolves_of_hasOwnBinding hown

theorem index_varScope_le (s : Store) (id : ScopeId) : (s.varScope id).index ≤ id.index := by
  induction hn : id.index using Nat.strongRecOn generalizing id with
  | ind n ih =>
    rw [varScope]
    split
    · omega
    split
    · omega
    split
    · rename_i parent hparent
      split
      · have := ih parent.index (by omega) parent rfl
        omega
      · omega
    · omega

theorem hasOwnBinding_of_resolve? {holder : ScopeId} {binding : Binding}
    (h : s.resolve? id name = some (holder, binding)) : s.hasOwnBinding holder name = true := by
  induction hn : id.index using Nat.strongRecOn generalizing id with
  | ind n ih =>
    rw [resolve?] at h
    split at h
    · cases h
    rename_i a ha
    split at h
    · rename_i found hfound
      cases h
      unfold hasOwnBinding Scope.hasOwn NameMap.contains
      rw [ha, Option.any_some, hfound]
      rfl
    split at h
    · rename_i parent hparent
      split at h
      · rename_i hbehind
        exact ih parent.index (by omega) h rfl
      · cases h
    · cases h

/-- Writing to a name that a scope binds leaves the names that the scopes bind as they are. -/
theorem hasOwnBinding_insert (holder : ScopeId) (binding : Binding)
    (h : s.hasOwnBinding holder name = true) (other : ScopeId) (key : String) :
    (s.modifyScope holder fun a => { a with bindings := a.bindings.insert name binding
      }).hasOwnBinding other key = s.hasOwnBinding other key := by
  unfold hasOwnBinding at h ⊢
  rw [scope?_modifyScope]
  by_cases heq : other = holder
  · subst heq
    rw [if_pos rfl]
    cases ha : s.scope? other with
    | none => rfl
    | some a =>
      rw [ha] at h
      show Scope.hasOwn { a with bindings := a.bindings.insert name binding } key = a.hasOwn key
      rw [Scope.hasOwn_insert]
      by_cases hkey : key = name
      · subst hkey
        exact (Bool.or_eq_true_iff.mpr (.inr h)).trans h.symm
      · simp [hkey]
  · rw [if_neg heq]

theorem hasOwnBinding_assign (s : Store) (id : ScopeId) (name : String) (value : Value)
    (other : ScopeId) (key : String) :
    (s.assign id name value).2.hasOwnBinding other key = s.hasOwnBinding other key := by
  unfold assign
  split
  · rfl
  · rename_i holder binding hfound
    split
    · rfl
    · exact hasOwnBinding_insert holder _ (hasOwnBinding_of_resolve? hfound) other key

/-- An assignment to a name that resolves finds a binding, whether or not that may be written. -/
theorem Resolves.assign_ne_unresolved (h : s.Resolves id name) (value : Value) :
    (s.assign id name value).1 ≠ .error .unresolved := by
  unfold assign
  obtain ⟨⟨holder, binding⟩, hfound⟩ := Option.isSome_iff_exists.mp h
  rw [hfound]
  dsimp only
  cases hwrite : binding.write value with
  | ok written => exact nofun
  | error e =>
    intro heq
    cases heq
    unfold Binding.write at hwrite
    split at hwrite
    · split at hwrite <;> cases hwrite
    · cases hwrite

end ProtoScript.Store
