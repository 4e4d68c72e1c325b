import ProtoScript.Proofs.Integrity.Joins
/-!
# What scopes retain

Whatever is done to the names of a scope, the scope stays where it stands, it goes on holding the
variables that are declared inside or passing them on outward, and a name that it binds stays bound.
What a function expression's own name is bound to stays the same as long as nobody declares the name
there or gives it a value; and nobody does who works on scopes that hold no such name.
-/

namespace ProtoScript

def BindingKind.isSelfName : BindingKind → Bool
  | .selfName _ => true
  | _ => false

namespace Scope

/-- What the scope binds the name to, if that is a function expression's own name. -/
def selfName? (a : Scope) (name : String) : Option Binding :=
  (a.bindings.find? name).filter fun b => b.kind.isSelfName

def Open (a : Scope) : Prop := ∀ name, a.selfName? name = none

/-- What a scope is that binds a function expression's own name: the name has its value, the scope
passes on the declarations of variables, and it binds nothing else. -/
structure Owns (a : Scope) (name : String) (b : Binding) : Prop where
  initialized : b.initialized = true
  passesOn : a.kind.holdsVars = false
  alone : ∀ other, a.hasOwn other = true → other = name

structure Retains (a b : Scope) : Prop where
  parent : b.parent = a.parent
  holdsVars : b.kind.holdsVars = a.kind.holdsVars
  selves : ∀ name, b.selfName? name = a.selfName? name
  names : ∀ name, a.hasOwn name = true → b.hasOwn name = true
  closed : ¬ a.Open → ∀ name, b.hasOwn name = true → a.hasOwn name = true

variable {a b c origin : Scope} {name : String} {names : List String}

theorem selfName?_eq_some_iff {binding : Binding} : a.selfName? name = some binding ↔
    a.bindings.find? name = some binding ∧ binding.kind.isSelfName = true :=
  Option.filter_eq_some_iff

/-- A binding whose name no function expression has is of another kind. -/
theorem Open.isSelfName_eq_false {binding : Binding} (h : a.Open)
    (hbinding : a.bindings.find? name = some binding) : binding.kind.isSelfName = false := by
  refine Bool.eq_false_iff.mpr fun hkind => ?_
  cases (h name).symm.trans (selfName?_eq_some_iff.mpr ⟨hbinding, hkind⟩)

namespace Retains

theorem refl (a : Scope) : a.Retains a :=
  ⟨rfl, rfl, fun _ => rfl, fun _ h => h, fun _ _ h => h⟩

theorem isOpen (h : a.Retains b) : b.Open ↔ a.Open :=
  forall_congr' fun name => by rw [h.selves]

theorem trans (h : a.Retains b) (h' : b.Retains c) : a.Retains c where
  parent := h'.parent.trans h.parent
  holdsVars := h'.holdsVars.trans h.holdsVars
  selves name := (h'.selves name).trans (h.selves name)
  names name hname := h'.names name (h.names name hname)
  closed hclosed name hname :=
    h.closed hclosed name (h'.closed (fun hopen => hclosed (h.isOpen.mp hopen)) name hname)

/-- What is neither the place of a scope nor its names may be anything. -/
theorem of_bindings (hparent : b.parent = a.parent)
    (hholds : b.kind.holdsVars = a.kind.holdsVars) (h : b.bindings = a.bindings) :
    a.Retains b where
  parent := hparent
  holdsVars := hholds
  selves name := by rw [selfName?, selfName?, h]
  names name hname := by rwa [hasOwn, h]
  closed _ name hname := by rwa [hasOwn, h] at hname

end Retains

/-- A binding may take the place of one for the same own name, or neither is for an own name. -/
theorem retains_insert {binding : Binding}
    (h : (some binding).filter (fun b => b.kind.isSelfName) = a.selfName? name)
    (hbound : ¬ a.Open → a.hasOwn name = true) :
    a.Retains { a with bindings := a.bindings.insert name binding } where
  parent := rfl
  holdsVars := rfl
  selves other := by
    unfold selfName? at h ⊢
    dsimp only
    rw [NameMap.find?_insert]
    split
    · next heq =>
      subst heq
      exact h
    · rfl
  names := (a.extends_insert name binding).names
  closed hclosed other hother := by
    rw [hasOwn_insert, Bool.or_eq_true, decide_eq_true_iff] at hother
    rcases hother with rfl | hother
    · exact hbound hclosed
    · exact hother

theorem Open.retains_insert {binding : Binding} (h : a.Open)
    (hkind : binding.kind.isSelfName = false) :
    a.Retains { a with bindings := a.bindings.insert name binding } := by
  refine Scope.retains_insert ?_ fun hclosed => absurd h hclosed
  rw [h name, Option.filter_some, if_neg (Bool.eq_false_iff.mp hkind)]

theorem Open.retains_declare {kind : BindingKind} (h : a.Open) (hkind : kind.isSelfName = false) :
    a.Retains (a.declare name kind) := by
  unfold declare
  split
  · exact .refl a
  · exact h.retains_insert hkind

theorem Open.retains_declareAll {kind : BindingKind} (h : a.Open)
    (hkind : kind.isSelfName = false) :
    a.Retains (names.foldl (fun scope name => scope.declare name kind) a) := by
  induction names generalizing a with
  | nil => exact .refl a
  | cons name names ih =>
    have hfirst : a.Retains (a.declare name kind) := h.retains_declare hkind
    exact hfirst.trans (ih (hfirst.isOpen.mpr h))

theorem Open.retains_bind (h : a.Open) (value : Value) : a.Retains (a.bind name value) := by
  refine h.retains_insert ?_
  show (((a.bindings.find? name).map Binding.kind).getD .variable).isSelfName = false
  cases hbinding : a.bindings.find? name with
  | none => rfl
  | some binding => exact h.isSelfName_eq_false hbinding

theorem Open.retains_copied (horigin : origin.Open) (h : a.Open) :
    a.Retains { a with
      bindings := names.foldl (fun bindings name =>
        match origin.bindings.find? name with
        | some binding => bindings.insert name binding
        | none => bindings) a.bindings } := by
  induction names generalizing a with
  | nil => exact .refl a
  | cons name names ih =>
    rw [List.foldl_cons]
    split
    · next binding hbinding =>
      have hfirst : a.Retains { a with bindings := a.bindings.insert name binding } :=
        h.retains_insert (horigin.isSelfName_eq_false hbinding)
      exact hfirst.trans (ih (hfirst.isOpen.mpr h))
    · exact ih h

/-- Writing to a binding puts nothing else in the place of an own name. -/
theorem retains_written {binding written : Binding} {value : Value}
    (hbinding : a.bindings.find? name = some binding) (h : binding.write value = .ok written) :
    a.Retains { a with bindings := a.bindings.insert name written } := by
  refine retains_insert ?_ fun _ => by
    rw [hasOwn, NameMap.contains, hbinding]
    rfl
  unfold selfName?
  rw [hbinding]
  obtain ⟨held, kind, initialized⟩ := binding
  cases initialized with
  | false => cases h
  | true =>
    cases kind with
    | selfName guarded =>
      cases guarded with
      | false =>
        cases h
        rfl
      | true => cases h
    | constant => cases h
    | readOnly => cases h
    | _ =>
      cases h
      rfl

end Scope

namespace Store

/-- What the scope itself binds the name to, if that is a function expression's own name. -/
def selfName? (s : Store) (id : ScopeId) (name : String) : Option Binding :=
  (s.scope? id).bind fun a => a.selfName? name

def Open (s : Store) (id : ScopeId) : Prop := ∀ name, s.selfName? id name = none

structure Retains (s s' : Store) : Prop where
  scope : ∀ id a, s.scope? id = some a → ∃ b, s'.scope? id = some b ∧ a.Retains b

def HoldsVars (s : Store) (id : ScopeId) : Prop :=
  ∃ a, s.scope? id = some a ∧ a.kind.holdsVars = true

structure Named (s : Store) : Prop where
  selves : ∀ id a name b, s.scope? id = some a → a.selfName? name = some b → a.Owns name b
  outermost : s.HoldsVars .global

variable {s s' s'' : Store} {id : ScopeId} {name : String}

theorem selfName?_of_scope? {a : Scope} (h : s.scope? id = some a) (name : String) :
    s.selfName? id name = a.selfName? name := by
  unfold selfName?
  rw [h, Option.bind_some]

theorem selfName?_eq_some_iff {b : Binding} :
    s.selfName? id name = some b ↔ s.binding? id name = some b ∧ b.kind.isSelfName = true := by
  unfold selfName? binding?
  cases s.scope? id with
  | none => exact ⟨nofun, nofun⟩
  | some a => exact Scope.selfName?_eq_some_iff

theorem selfName?_of_binding?_eq_none (h : s.binding? id name = none) :
    s.selfName? id name = none := by
  refine Option.eq_none_iff_forall_ne_some.mpr fun b hb => ?_
  rw [(selfName?_eq_some_iff.mp hb).1] at h
  cases h

theorem Open.of_scope? {a : Scope} (h : s.Open id) (ha : s.scope? id = some a) : a.Open :=
  fun name => (selfName?_of_scope? ha name).symm.trans (h name)

/-- A scope that holds variables binds no function expression's own name. -/
theorem Named.open_of_holdsVars (hs : s.Named) (h : s.HoldsVars id) : s.Open id := by
  obtain ⟨a, ha, h⟩ := h
  intro name
  rw [selfName?_of_scope? ha]
  refine Option.eq_none_iff_forall_ne_some.mpr fun b hb => ?_
  rw [(hs.selves id a name b ha hb).passesOn] at h
  cases h

theorem Named.open_global (hs : s.Named) : s.Open .global := hs.open_of_holdsVars hs.outermost

theorem bind_declare (s : Store) (id : ScopeId) (name : String) (kind : BindingKind)
    (v : Value) : (s.declare id name kind).bind id name v =
      s.modifyScope id fun a => (a.declare name kind).bind name v := by
  unfold Store.bind Store.declare modifyScope
  congr 1
  refine Array.ext (by simp only [Array.size_modify]) fun i _ _ => ?_
  simp only [Array.getElem_modify]
  split <;> rfl

/-! ### Working on one scope or none -/

namespace Retains

theorem refl (s : Store) : s.Retains s := ⟨fun _ a h => ⟨a, h, .refl a⟩⟩

theorem trans (h : s.Retains s') (h' : s'.Retains s'') : s.Retains s'' := by
  refine ⟨fun id a ha => ?_⟩
  obtain ⟨b, hb, hab⟩ := h.scope id a ha
  obtain ⟨c, hc, hbc⟩ := h'.scope id b hb
  exact ⟨c, hc, hab.trans hbc⟩

theorem of_scopes (h : s'.scopes = s.scopes) : s.Retains s' := by
  refine ⟨fun id a ha => ⟨a, ?_, .refl a⟩⟩
  unfold scope?
  rw [h]
  exact ha

theorem modifyScope {f : Scope → Scope} (h : ∀ a, s.scope? id = some a → a.Retains (f a)) :
    s.Retains (s.modifyScope id f) := by
  refine ⟨fun other a ha => ?_⟩
  rw [scope?_modifyScope]
  split
  · next heq =>
    subst heq
    rw [ha]
    exact ⟨f a, rfl, h a ha⟩
  · exact ⟨a, ha, .refl a⟩

theorem declareAll {names : List String} {kind : BindingKind} (h : s.Open id)
    (hkind : kind.isSelfName = false) : s.Retains (s.declareAll id names kind) :=
  .modifyScope fun _ ha => (h.of_scope? ha).retains_declareAll hkind

theorem bind (h : s.Open id) (value : Value) : s.Retains (s.bind id name value) :=
  .modifyScope fun _ ha => (h.of_scope? ha).retains_bind value

theorem declareBound {kind : BindingKind} (h : s.Open id) (hkind : kind.isSelfName = false)
    (value : Value) : s.Retains ((s.declare id name kind).bind id name value) := by
  rw [bind_declare]
  refine .modifyScope fun a ha => ?_
  have hdeclared : a.Retains (a.declare name kind) := (h.of_scope? ha).retains_declare hkind
  exact hdeclared.trans ((hdeclared.isOpen.mpr (h.of_scope? ha)).retains_bind value)

theorem newScope (s : Store) (parent : Option ScopeId) (kind : ScopeKind) :
    s.Retains (s.newScope parent kind).2 := by
  refine ⟨fun id a ha => ⟨a, ?_, .refl a⟩⟩
  rw [scope?_newScope, if_neg (Nat.ne_of_lt (scope?_eq_some_iff.mp ⟨a, ha⟩))]
  exact ha

theorem assign (s : Store) (id : ScopeId) (name : String) (value : Value) :
    s.Retains (s.assign id name value).2 := by
  unfold Store.assign
  split
  · exact .refl s
  · next holder b hresolve =>
    split
    · exact .refl s
    · next written hwritten =>
      refine modifyScope fun a ha => Scope.retains_written ?_ hwritten
      have hb := binding?_of_resolve? hresolve
      unfold binding? at hb
      rwa [ha] at hb

theorem assignShared (s : Store) (r : ObjectRecord) (key : String) (value : Value) :
    s.Retains (s.assignShared r key value) := by
  unfold Store.assignShared
  split
  · exact assign ..
  · exact .refl s

theorem operate (s : Store) (id : ObjectId) (op : PropertyOperation) :
    s.Retains (s.operate id op).2 := by
  cases op with
  | define key p =>
    rw [Store.operate, Store.define]
    split
    · exact .refl s
    · split
      · exact (assignShared s ..).trans (.of_scopes rfl)
      · exact .refl s
  | set key value =>
    rw [Store.operate, Store.set]
    split
    · exact .refl s
    · exact (assignShared s ..).trans (.of_scopes rfl)
  | delete key =>
    rw [Store.operate, Store.delete]
    split
    · exact .refl s
    · split
      · exact .of_scopes rfl
      · exact .refl s

/-! ### What is retained -/

theorem size_le (h : s.Retains s') : s.scopes.size ≤ s'.scopes.size := by
  cases hn : s.scopes.size with
  | zero => exact Nat.zero_le _
  | succ n =>
    obtain ⟨a, ha⟩ : ∃ a, s.scope? ⟨n⟩ = some a := scope?_eq_some_iff.mpr (by simp [hn])
    obtain ⟨b, hb, _⟩ := h.scope _ a ha
    exact scope?_eq_some_iff.mp ⟨b, hb⟩

theorem selfName? (h : s.Retains s') (hid : id.index < s.scopes.size) (name : String) :
    s'.selfName? id name = s.selfName? id name := by
  obtain ⟨a, ha⟩ := scope?_eq_some_iff.mpr hid
  obtain ⟨b, hb, hab⟩ := h.scope id a ha
  rw [selfName?_of_scope? ha, selfName?_of_scope? hb, hab.selves]

/-- If there are no new scopes, the own names are the same everywhere. -/
theorem selfName?_of_size (h : s.Retains s') (hsize : s'.scopes.size = s.scopes.size)
    (id : ScopeId) (name : String) : s'.selfName? id name = s.selfName? id name := by
  by_cases hid : id.index < s.scopes.size
  · exact h.selfName? hid name
  · have hnone {t : Store} (ht : t.scopes.size = s.scopes.size) : t.scope? id = none :=
      Array.getElem?_eq_none (by omega)
    unfold Store.selfName?
    rw [hnone hsize, hnone rfl]

theorem isOpen (h : s.Retains s') (hid : id.index < s.scopes.size) (hopen : s.Open id) :
    s'.Open id :=
  fun name => (h.selfName? hid name).trans (hopen name)

theorem holdsVars (h : s.Retains s') (hid : s.HoldsVars id) : s'.HoldsVars id := by
  obtain ⟨a, ha, hholds⟩ := hid
  obtain ⟨b, hb, hab⟩ := h.scope id a ha
  exact ⟨b, hb, hab.holdsVars.trans hholds⟩

theorem parent? (h : s.Retains s') {outer : ScopeId} (hparent : s.parent? id = some outer) :
    s'.parent? id = some outer := by
  obtain ⟨a, ha, houter⟩ := Option.bind_eq_some_iff.mp hparent
  obtain ⟨b, hb, hab⟩ := h.scope id a ha
  exact Option.bind_eq_some_iff.mpr ⟨b, hb, hab.parent.trans houter⟩

theorem inside {inner outer : ScopeId} (h : s.Retains s') (hinside : s.Inside inner outer) :
    s'.Inside inner outer := by
  obtain ⟨hbehind, a, ha, hparent⟩ := hinside
  have hlater := h.parent? (Option.bind_eq_some_iff.mpr ⟨a, ha, hparent⟩)
  exact ⟨hbehind, Option.bind_eq_some_iff.mp hlater⟩

theorem hasOwnBinding (h : s.Retains s') (hown : s.hasOwnBinding id name = true) :
    s'.hasOwnBinding id name = true := by
  obtain ⟨a, ha, hname⟩ := (Option.any_eq_true _ _).mp hown
  obtain ⟨b, hb, hab⟩ := h.scope id a ha
  exact (Option.any_eq_true _ _).mpr ⟨b, hb, hab.names name hname⟩

theorem hasOwnBinding_of_closed (h : s.Retains s') (hid : id.index < s.scopes.size)
    (hclosed : ¬ s.Open id) (hown : s'.hasOwnBinding id name = true) :
    s.hasOwnBinding id name = true := by
  obtain ⟨a, ha⟩ := scope?_eq_some_iff.mpr hid
  obtain ⟨b, hb, hab⟩ := h.scope id a ha
  obtain ⟨c, hc, hname⟩ := (Option.any_eq_true _ _).mp hown
  cases hb.symm.trans hc
  refine (Option.any_eq_true _ _).mpr ⟨a, ha, hab.closed (fun hopen => hclosed ?_) name hname⟩
  exact fun other => (selfName?_of_scope? ha other).trans (hopen other)

theorem named (h : s.Retains s') (hs : s.Named)
    (hnew : ∀ id a name b, s.scopes.size ≤ id.index → s'.scope? id = some a →
      a.selfName? name = some b → a.Owns name b) : s'.Named where
  selves id b name binding hb hbinding := by
    by_cases hid : id.index < s.scopes.size
    · obtain ⟨a, ha⟩ := scope?_eq_some_iff.mpr hid
      obtain ⟨c, hc, hac⟩ := h.scope id a ha
      cases hb.symm.trans hc
      rw [hac.selves] at hbinding
      obtain ⟨hinitialized, hpasses, halone⟩ := hs.selves id a name binding ha hbinding
      refine ⟨hinitialized, hac.holdsVars.trans hpasses, fun other hother => ?_⟩
      refine halone other (hac.closed (fun hopen => ?_) other hother)
      cases (hopen name).symm.trans hbinding
    · exact hnew id b name binding (Nat.not_lt.mp hid) hb hbinding
  outermost := h.holdsVars hs.outermost

theorem named_of_size (h : s.Retains s') (hs : s.Named)
    (hsize : s'.scopes.size = s.scopes.size) : s'.Named := by
  refine h.named hs fun id a name b hid ha _ => ?_
  have hlt := scope?_eq_some_iff.mp ⟨a, ha⟩
  omega

end Retains

theorem Named.of_scopes (hs : s.Named) (h : s'.scopes = s.scopes) : s'.Named := by
  obtain ⟨hselves, houtermost⟩ := hs
  unfold HoldsVars at houtermost
  unfold scope? at hselves houtermost
  rw [← h] at hselves houtermost
  exact ⟨hselves, houtermost⟩

end Store

end ProtoScript
