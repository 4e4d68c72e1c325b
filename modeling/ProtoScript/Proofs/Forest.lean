import ProtoScript.Proofs.Integrity.Bindings
/-!
# Forests of scopes

However scopes are made inside one another, and however their names are declared, given values and
assigned to, the scope around a scope is always an older one.  So the way outward from a scope ends,
and a name has at most one nearest binding on it.  An assignment fares as this binding says; it
changes what is looked up only where the same binding is the nearest one, and only if the binding
takes new values.
-/

namespace ProtoScript

inductive ScopeOperation where
  | newScope (parent : Option ScopeId) (kind : ScopeKind)
  | declare (id : ScopeId) (name : String) (kind : BindingKind)
  /-- Gives a name of the scope itself its value, whatever the kind of its binding. -/
  | bind (id : ScopeId) (name : String) (value : Value)
  | assign (id : ScopeId) (name : String) (value : Value)

namespace ScopeOperation

/-- The scopes that the operation is about are there. -/
def Fits (s : Store) : ScopeOperation → Prop
  | .newScope parent _ => ∀ outer ∈ parent, outer.index < s.scopes.size
  | .declare id .. => id.index < s.scopes.size
  | .bind id .. => id.index < s.scopes.size
  | .assign id .. => id.index < s.scopes.size

def perform (s : Store) : ScopeOperation → Store
  | .newScope parent kind => (s.newScope parent kind).2
  | .declare id name kind => s.declare id name kind
  | .bind id name value => s.bind id name value
  | .assign id name value => (s.assign id name value).2

def FitsAll (s : Store) : List ScopeOperation → Prop
  | [] => True
  | op :: ops => op.Fits s ∧ FitsAll (op.perform s) ops

def performAll (s : Store) (ops : List ScopeOperation) : Store :=
  ops.foldl (fun s op => op.perform s) s

end ScopeOperation

def Binding.outcome (b : Binding) : Except BindingError Unit :=
  if b.initialized then
    match b.kind with
    | .variable | .letBound | .selfName false => .ok ()
    | .constant => .error .constant
    | .readOnly => .error .readOnly
    | .selfName true => .error .selfName
  else .error .uninitialized

theorem Binding.write_of_outcome {b : Binding} {e : BindingError} (h : b.outcome = .error e)
    (value : Value) : b.write value = .error e := by
  obtain ⟨held, kind, _ | _⟩ := b
  · exact congrArg Except.error (Except.error.inj h)
  · cases kind with
    | selfName guarded =>
      cases guarded
      · cases h
      · exact congrArg Except.error (Except.error.inj h)
    | constant => exact congrArg Except.error (Except.error.inj h)
    | readOnly => exact congrArg Except.error (Except.error.inj h)
    | _ => cases h

/-- The binding takes a new value when its name is assigned to. -/
def Binding.Writable (b : Binding) : Prop :=
  b.initialized = true ∧ (b.kind = .variable ∨ b.kind = .letBound)

namespace Store

/-- The scopes are made, and their names declared, given values and assigned to, in any order,
beginning with no scopes. -/
inductive Forest : Store → Prop
  | empty (objects : Array ObjectRecord) : Forest { objects }
  | step {s : Store} {op : ScopeOperation} (hs : s.Forest) (hop : op.Fits s) :
      Forest (op.perform s)

/-- From the first scope outward, the second is the first to bind the name, and this is how. -/
inductive Nearest (s : Store) (name : String) : ScopeId → ScopeId → Binding → Prop
  | here {id : ScopeId} {b : Binding} (hbound : s.binding? id name = some b) :
      s.Nearest name id id b
  | outward {id outer holder : ScopeId} {b : Binding} (hfree : s.binding? id name = none)
      (hparent : s.parent? id = some outer) (hrest : s.Nearest name outer holder b) :
      s.Nearest name id holder b

def Nested (s : Store) : Prop :=
  ∀ id outer, s.parent? id = some outer → outer.index < id.index

variable {s : Store} {id holder : ScopeId} {name : String} {b : Binding}

/-! ### The shape of a forest -/

theorem parent?_assign (s : Store) (id other : ScopeId) (name : String) (value : Value) :
    (s.assign id name value).2.parent? other = s.parent? other := by
  unfold assign
  split
  · rfl
  · split
    · rfl
    · exact s.parent?_modifyScope _ other fun _ => rfl

theorem parent?_declare (s : Store) (id other : ScopeId) (name : String) (kind : BindingKind) :
    (s.declare id name kind).parent? other = s.parent? other :=
  s.parent?_modifyScope id other fun a => (Scope.extends_declare a name kind).parent

/-- An operation on scopes that are there keeps the scope around a scope an older one. -/
theorem Nested.perform {op : ScopeOperation} (hs : s.Nested) (hop : op.Fits s) :
    (op.perform s).Nested := by
  intro id outer hparent
  cases op with
  | newScope parent kind =>
    rw [ScopeOperation.perform, parent?_newScope] at hparent
    split at hparent
    · next hnew => exact hnew ▸ hop outer hparent
    · exact hs id outer hparent
  | declare _ _ _ => exact hs id outer ((s.parent?_declare ..).symm.trans hparent)
  | bind place name value =>
    refine hs id outer (Eq.trans (Eq.symm ?_) hparent)
    exact s.parent?_modifyScope place id fun _ => rfl
  | assign _ _ _ => exact hs id outer ((s.parent?_assign ..).symm.trans hparent)

theorem Forest.performAll {ops : List ScopeOperation} (hs : s.Forest)
    (hops : ScopeOperation.FitsAll s ops) : (ScopeOperation.performAll s ops).Forest := by
  induction ops generalizing s with
  | nil => exact hs
  | cons op ops ih => exact ih (hs.step hops.1) hops.2

theorem Forest.nested (h : s.Forest) : s.Nested := by
  induction h with
  | empty objects =>
    intro id outer hparent
    cases hparent
  | step _ hop ih => exact ih.perform hop

/-! ### What a name resolves to -/

/-- Where scopes are nested, names resolve to their nearest bindings. -/
theorem Nested.resolve?_eq_some_iff (hs : s.Nested) :
    s.resolve? id name = some (holder, b) ↔ s.Nearest name id holder b := by
  constructor
  · intro h
    fun_induction resolve? s id name with
    | case1 => cases h
    | case2 id a ha b hb =>
      cases h
      exact .here (Option.bind_eq_some_iff.mpr ⟨a, ha, hb⟩)
    | case3 id a ha hfree outer hparent _ ih =>
      refine .outward ?_ (Option.bind_eq_some_iff.mpr ⟨a, ha, hparent⟩) (ih h)
      rw [binding?, ha, Option.bind_some, hfree]
    | case4 => cases h
    | case5 => cases h
  · intro h
    induction h with
    | here hbound => exact resolve?_of_binding? hbound
    | outward hfree hparent _ ih =>
      have hbehind := hs _ _ hparent
      obtain ⟨a, ha, hparent⟩ := Option.bind_eq_some_iff.mp hparent
      exact (Inside.resolve?_eq ⟨hbehind, a, ha, hparent⟩ hfree).trans ih

theorem Nested.resolve?_eq_none_iff (hs : s.Nested) :
    s.resolve? id name = none ↔ ∀ holder b, ¬ s.Nearest name id holder b := by
  constructor
  · intro h holder b hnearest
    rw [hs.resolve?_eq_some_iff.mpr hnearest] at h
    cases h
  · intro h
    cases hfound : s.resolve? id name with
    | none => rfl
    | some found => exact absurd (hs.resolve?_eq_some_iff.mp hfound) (h found.1 found.2)

/-! ### What an assignment does -/

/-- An assignment with no nearest binding fails and changes nothing. -/
theorem assign_of_unresolved (h : s.resolve? id name = none) (value : Value) :
    s.assign id name value = (.error .unresolved, s) := by
  unfold assign
  rw [h]

theorem assign_of_resolve? (h : s.resolve? id name = some (holder, b)) (value : Value) :
    s.assign id name value = (b.outcome,
      match b.write value with
      | .ok written => s.rebind holder name written
      | .error _ => s) := by
  obtain ⟨held, kind, initialized⟩ := b
  unfold assign
  rw [h]
  cases initialized with
  | false => rfl
  | true =>
    cases kind with
    | selfName guarded => cases guarded <;> rfl
    | _ => rfl

/-- A name that is bound to what it is bound to already is looked up as before. -/
theorem lookup_rebind_same (h : s.binding? holder name = some b) (place : ScopeId) (key : String) :
    (s.rebind holder name b).lookup place key = s.lookup place key := by
  unfold lookup
  by_cases hkey : key = name
  · subst hkey
    by_cases hhere : ∃ found, s.resolve? place key = some (holder, found)
    · obtain ⟨found, hfound⟩ := hhere
      have hsame : found = b := Option.some.inj ((binding?_of_resolve? hfound).symm.trans h)
      rw [resolve?_rebind_self hfound, hfound, hsame]
    · rw [resolve?_rebind_of_elsewhere h (fun found hfound => hhere ⟨found, hfound⟩)]
  · rw [resolve?_rebind_of_ne holder b hkey]

/-- An assignment to a binding that does not take new values leaves every look-up as it is. -/
theorem lookup_assign_of_unwritable (h : s.resolve? id name = some (holder, b))
    (hb : ¬ b.Writable) (value : Value) (place : ScopeId) (key : String) :
    (s.assign id name value).2.lookup place key = s.lookup place key := by
  rw [assign_of_resolve? h]
  cases hwrite : b.write value with
  | error _ => rfl
  | ok written =>
    -- Only a self name that is not guarded lets the assignment pass and keeps its value.
    have hsame : written = b := by
      unfold Binding.write at hwrite
      split at hwrite
      · next hinitialized =>
        split at hwrite
        · next hkind => exact absurd ⟨hinitialized, .inl hkind⟩ hb
        · next hkind => exact absurd ⟨hinitialized, .inr hkind⟩ hb
        all_goals cases hwrite
        rfl
      · cases hwrite
    subst hsame
    exact lookup_rebind_same (binding?_of_resolve? h) place key

/-- An assignment to a binding that takes new values is seen wherever the binding is the nearest one
of its name, and nowhere else. -/
theorem lookup_assign_of_writable (h : s.resolve? id name = some (holder, b)) (hb : b.Writable)
    (value : Value) (place : ScopeId) (key : String) :
    ((key = name ∧ ∃ found, s.resolve? place name = some (holder, found)) →
      (s.assign id name value).2.lookup place key = .ok value) ∧
    (¬ (key = name ∧ ∃ found, s.resolve? place name = some (holder, found)) →
      (s.assign id name value).2.lookup place key = s.lookup place key) := by
  obtain ⟨hinitialized, hkind⟩ := hb
  have hwrite : b.write value = .ok { b with value } := by
    unfold Binding.write
    rw [if_pos hinitialized]
    rcases hkind with hkind | hkind <;> rw [hkind]
  rw [assign_of_resolve? h, hwrite]
  dsimp only
  unfold lookup
  constructor
  · rintro ⟨rfl, found, hfound⟩
    rw [resolve?_rebind_self hfound]
    simp only [Binding.read, hinitialized, if_true]
  · intro hother
    by_cases hkey : key = name
    · subst hkey
      rw [resolve?_rebind_of_elsewhere (binding?_of_resolve? h)
        (fun found hfound => hother ⟨rfl, found, hfound⟩)]
    · rw [resolve?_rebind_of_ne holder _ hkey]

/-- In every forest an assignment fares as the nearest binding says.  If there is none, or if it
takes no new values, every look-up from every scope stays as it is.  If it takes new values, the
value is what is looked up where the same binding is the nearest one of the name, whatever other
scopes lie between, and every other look-up stays as it is. -/
theorem Forest.assign_nearest (hs : s.Forest) (id : ScopeId) (name : String) (value : Value) :
    ((∀ holder b, ¬ s.Nearest name id holder b) →
      s.assign id name value = (.error .unresolved, s)) ∧
    ∀ holder b, s.Nearest name id holder b →
      (s.assign id name value).1 = b.outcome ∧
      (∀ e, b.outcome = .error e → (s.assign id name value).2 = s) ∧
      (¬ b.Writable → ∀ place key,
        (s.assign id name value).2.lookup place key = s.lookup place key) ∧
      (b.Writable → ∀ place key,
        ((key = name ∧ ∃ found, s.Nearest name place holder found) →
          (s.assign id name value).2.lookup place key = .ok value) ∧
        (¬ (key = name ∧ ∃ found, s.Nearest name place holder found) →
          (s.assign id name value).2.lookup place key = s.lookup place key)) := by
  have hnested := hs.nested
  refine ⟨fun hnone => assign_of_unresolved (hnested.resolve?_eq_none_iff.mpr hnone) value,
    fun holder b hnearest => ?_⟩
  have hresolve := hnested.resolve?_eq_some_iff.mpr hnearest
  refine ⟨by rw [assign_of_resolve? hresolve], fun e he => ?_,
    fun hb => lookup_assign_of_unwritable hresolve hb value, fun hb place key => ?_⟩
  · rw [assign_of_resolve? hresolve, Binding.write_of_outcome he]
  · simp only [← hnested.resolve?_eq_some_iff]
    exact lookup_assign_of_writable hresolve hb value place key

/-- A variable in an outermost scope, a scope inside, and in that a scope that binds the name
itself. -/
def shadowing : Store :=
  ScopeOperation.performAll {} [.newScope none .global, .declare ⟨0⟩ "x" .variable,
    .newScope (some ⟨0⟩) .block, .newScope (some ⟨1⟩) .block, .declare ⟨2⟩ "x" .letBound,
    .bind ⟨2⟩ "x" .null]

theorem forest_shadowing : shadowing.Forest := by
  refine (Forest.empty #[]).performAll ⟨nofun, Nat.zero_lt_one, ?_, ?_, ?_, ?_, trivial⟩
  · rintro _ ⟨⟩
    exact Nat.zero_lt_one
  · rintro _ ⟨⟩
    exact Nat.one_lt_two
  · exact Nat.lt_succ_self 2
  · exact Nat.lt_succ_self 2

theorem Forest.assign_nearest_shadowing :
    shadowing.Nearest "x" ⟨1⟩ ⟨0⟩ ⟨.undefined, .variable, true⟩ ∧
      (shadowing.assign ⟨1⟩ "x" (.boolean true)).1 = .ok () ∧
      (shadowing.assign ⟨1⟩ "x" (.boolean true)).2.lookup ⟨0⟩ "x" = .ok (.boolean true) ∧
      (shadowing.assign ⟨1⟩ "x" (.boolean true)).2.lookup ⟨2⟩ "x" = .ok .null := by
  have hnearest : shadowing.Nearest "x" ⟨1⟩ ⟨0⟩ ⟨.undefined, .variable, true⟩ :=
    .outward rfl rfl (.here rfl)
  have hinner : shadowing.Nearest "x" ⟨2⟩ ⟨2⟩ ⟨.null, .letBound, true⟩ := .here rfl
  have hs := forest_shadowing
  obtain ⟨-, hassign⟩ := hs.assign_nearest ⟨1⟩ "x" (.boolean true)
  obtain ⟨houtcome, -, -, hwritten⟩ := hassign _ _ hnearest
  obtain ⟨hseen, -⟩ := hwritten ⟨rfl, .inl rfl⟩ ⟨0⟩ "x"
  obtain ⟨-, hunseen⟩ := hwritten ⟨rfl, .inl rfl⟩ ⟨2⟩ "x"
  refine ⟨hnearest, houtcome, hseen ⟨rfl, _, .here rfl⟩, (hunseen fun hsame => ?_).trans ?_⟩
  · obtain ⟨-, found, hfound⟩ := hsame
    have hresolve := hs.nested.resolve?_eq_some_iff.mpr hfound
    rw [hs.nested.resolve?_eq_some_iff.mpr hinner] at hresolve
    cases hresolve
  · rw [lookup, hs.nested.resolve?_eq_some_iff.mpr hinner]
    rfl

end Store

end ProtoScript
