import ProtoScript.Proofs.Integrity.Call
/-!
# What the scope of a body begins with

If the parameters of a function are more than mere names, its body has a scope of its own inside
theirs.  What the body declares with `var` starts out there with the value of the parameter of that
name, or with the arguments object, and else as `undefined`; then functions take the places of
variables, and what is declared lexically waits for its first value.  Nothing else is touched.
-/

namespace ProtoScript

open Store

/-! ### Bindings that hoisting leaves alone -/

theorem Scope.declareAll_of_own {a : Scope} {names : List String}
    (h : ∀ name ∈ names, a.hasOwn name = true) :
    names.foldl (fun a name => a.declare name .variable) a = a := by
  induction names with
  | nil => rfl
  | cons first rest ih =>
    obtain ⟨hfirst, hrest⟩ := List.forall_mem_cons.mp h
    rw [List.foldl_cons]
    have hsame : a.declare first .variable = a := if_pos ⟨rfl, hfirst⟩
    rw [hsame]
    exact ih hrest

theorem Scope.find?_declareAll_lexical {a : Scope} {names : List String} {kind : BindingKind}
    (hkind : kind ≠ .variable) (name : String) :
    (names.foldl (fun a name => a.declare name kind) a).bindings.find? name =
      if name ∈ names then some ⟨.undefined, kind, false⟩ else a.bindings.find? name := by
  induction names generalizing a with
  | nil => rfl
  | cons first rest ih =>
    have hdeclared : (a.declare first kind).bindings.find? name =
        if name = first then some ⟨.undefined, kind, false⟩ else a.bindings.find? name := by
      unfold declare
      rw [if_neg fun h => hkind h.1, NameMap.find?_insert, decide_eq_false hkind]
    rw [List.foldl_cons, ih, hdeclared]
    by_cases hrest : name ∈ rest <;> simp [hrest]

variable {d : FunctionDef} {s s' : Store} {parameters inner : ScopeId} {name : String}
  {body : List Stmt}

namespace Store

theorem binding?_newFunction (s : Store) (callable : Callable) (id : ScopeId) (name : String) :
    (s.newFunction callable).2.binding? id name = s.binding? id name := by
  unfold newFunction
  dsimp only
  split <;> rfl

theorem callable?_newFunction (s : Store) (callable : Callable) :
    (s.newFunction callable).2.callable? (.object (s.newFunction callable).1) = some callable := by
  have hallocated : (s.allocate (.function callable)).2.callable?
      (.object (s.allocate (.function callable)).1) = some callable := by
    unfold callable? objectOf?
    simp only [Value.objectId?, Option.bind_some, object?_allocate_self]
    rfl
  unfold newFunction
  dsimp only
  split
  · exact ((extends_allocate _ _).trans (grows_insert _ _ _ _).later).callable _ _ hallocated
  · exact hallocated

/-- What is declared and bound elsewhere, or under another name, changes no binding. -/
theorem binding?_declareBound_of_ne {id target : ScopeId} {declared : String} (kind : BindingKind)
    (value : Value) (h : id ≠ target ∨ name ≠ declared) :
    ((s.declare target declared kind).bind target declared value).binding? id name =
      s.binding? id name := by
  rw [bind_declare]
  refine binding?_modifyScope_of_same fun heq a => ?_
  have hname := h.resolve_left fun hne => hne heq
  rw [Scope.find?_bind_of_ne value hname, Scope.find?_declare_of_ne kind hname]

/-- A variable that is declared and bound is a variable with that value. -/
theorem binding?_declareBound_self (hinner : inner.index < s.scopes.size)
    (hkind : ∀ b, s.binding? inner name = some b → b.kind = .variable) (value : Value) :
    ((s.declare inner name .variable).bind inner name value).binding? inner name =
      some ⟨value, .variable, true⟩ := by
  obtain ⟨a, ha⟩ := scope?_eq_some_iff.mpr hinner
  have hdeclared : ((a.declare name .variable).bindings.find? name).map Binding.kind =
      some .variable := by
    unfold Scope.declare
    split
    · next hown =>
      obtain ⟨b, hb⟩ := Option.isSome_iff_exists.mp hown.2
      rw [hb, Option.map_some, hkind b]
      unfold binding?
      rw [ha]
      exact hb
    · rw [NameMap.find?_insert, if_pos rfl]
      rfl
  rw [bind_declare, binding?_modifyScope, if_pos rfl, ha, Option.bind_some]
  unfold Scope.bind
  dsimp only
  rw [NameMap.find?_insert, if_pos rfl, hdeclared]
  rfl

/-- The second store is the first one after the functions and the lexical names of a body were
hoisted into a scope. -/
structure HoistsInto (body : List Stmt) (inner : ScopeId) (s s' : Store) : Prop where
  later : s.Extends s'
  size : s'.scopes.size = s.scopes.size
  elsewhere : ∀ id name, (id = inner → name ∉ Stmt.functionNames body ∧
    name ∉ body.flatMap Grammar.lexicalNames) → s'.binding? id name = s.binding? id name
  functions : ∀ name ∈ Stmt.functionNames body, name ∉ body.flatMap Grammar.lexicalNames →
    (∀ b, s.binding? inner name = some b → b.kind = .variable) →
      ∃ f v, Stmt.function f ∈ body ∧ f.name = some name ∧
        s'.callable? v = some (.closure f inner) ∧
        s'.binding? inner name = some ⟨v, .variable, true⟩
  lexicals : ∀ name ∈ body.flatMap Grammar.lexicalNames, name ∉ Stmt.functionNames body →
    ∃ b, s'.binding? inner name = some b ∧ b.initialized = false

namespace HoistsInto

variable {s'' : Store} {rest : List Stmt} {statement : Stmt}

theorem silent (hlater : s.Extends s') (hsize : s'.scopes.size = s.scopes.size)
    (hsame : ∀ id name, s'.binding? id name = s.binding? id name)
    (hfunctions : Stmt.functionNames body = [])
    (hlexicals : body.flatMap Grammar.lexicalNames = []) :
    s.HoistsInto body inner s' where
  later := hlater
  size := hsize
  elsewhere id name _ := hsame id name
  functions name hname := by
    rw [hfunctions] at hname
    cases hname
  lexicals name hname := by
    rw [hlexicals] at hname
    cases hname

/-- A function, or a name that is declared lexically, takes the place of what was there. -/
theorem append (h : s.HoistsInto body inner s') (h' : s'.HoistsInto rest inner s'') :
    s.HoistsInto (body ++ rest) inner s'' := by
  have hfunctions : Stmt.functionNames (body ++ rest) =
      Stmt.functionNames body ++ Stmt.functionNames rest := List.filterMap_append
  refine ⟨h.later.trans h'.later, h'.size.trans h.size, fun id name hfree => ?_,
    fun name hname hfree hkind => ?_, fun name hname hfree => ?_⟩
  · rw [hfunctions, List.flatMap_append, List.mem_append, List.mem_append] at hfree
    rw [h'.elsewhere id name fun heq => ⟨fun hmem => (hfree heq).1 (.inr hmem),
      fun hmem => (hfree heq).2 (.inr hmem)⟩]
    exact h.elsewhere id name fun heq => ⟨fun hmem => (hfree heq).1 (.inl hmem),
      fun hmem => (hfree heq).2 (.inl hmem)⟩
  · rw [List.flatMap_append, List.mem_append, not_or] at hfree
    have hfirst := fun hmem => h.functions name hmem hfree.1 hkind
    by_cases hlast : name ∈ Stmt.functionNames rest
    · obtain ⟨f, v, hf, hfound⟩ := h'.functions name hlast hfree.2 fun b hb => by
        by_cases hmem : name ∈ Stmt.functionNames body
        · obtain ⟨_, v, _, _, _, hbound⟩ := hfirst hmem
          cases hbound.symm.trans hb
          rfl
        · exact hkind b ((h.elsewhere inner name fun _ => ⟨hmem, hfree.1⟩).symm.trans hb)
      exact ⟨f, v, List.mem_append_right _ hf, hfound⟩
    · rw [hfunctions] at hname
      obtain ⟨f, v, hf, hnamed, hcallable, hbound⟩ :=
        hfirst ((List.mem_append.mp hname).resolve_right hlast)
      exact ⟨f, v, List.mem_append_left _ hf, hnamed, h'.later.callable _ _ hcallable,
        (h'.elsewhere inner name fun _ => ⟨hlast, hfree.2⟩).trans hbound⟩
  · rw [hfunctions, List.mem_append, not_or] at hfree
    by_cases hlast : name ∈ rest.flatMap Grammar.lexicalNames
    · exact h'.lexicals name hlast hfree.2
    · rw [List.flatMap_append] at hname
      obtain ⟨b, hb, hfirst⟩ :=
        h.lexicals name ((List.mem_append.mp hname).resolve_right hlast) hfree.1
      exact ⟨b, (h'.elsewhere inner name fun _ => ⟨hfree.2, hlast⟩).trans hb, hfirst⟩

theorem function {f : FunctionDef} (hinner : inner.index < s.scopes.size)
    (hname : f.name = some name) : s.HoistsInto [.function f] inner
      (((s.newFunction (.closure f inner)).2.declare inner name .variable).bind inner name
        (.object (s.newFunction (.closure f inner)).1)) := by
  have hsize := s.size_newFunction (.closure f inner)
  have hnames : Stmt.functionNames [.function f] = [name] := by
    simp [Stmt.functionNames, hname]
  have hgrows := ((s.newFunction (.closure f inner)).2.grows_declare inner name .variable).trans
    (grows_bind _ inner name (.object (s.newFunction (.closure f inner)).1))
  refine ⟨(s.extends_newFunction _).trans hgrows.later, hgrows.size.trans hsize,
    fun id other hfree => ?_, fun other hmem _ hkind => ?_,
    fun _ hmem => absurd hmem List.not_mem_nil⟩
  · rw [binding?_declareBound_of_ne _ _ ?_, binding?_newFunction]
    rw [hnames, List.mem_singleton] at hfree
    by_cases heq : id = inner
    · exact .inr (hfree heq).1
    · exact .inl heq
  · rw [hnames] at hmem
    cases List.mem_singleton.mp hmem
    refine ⟨f, _, List.mem_singleton_self _, hname,
      hgrows.later.callable _ _ (s.callable?_newFunction _), ?_⟩
    refine binding?_declareBound_self (hsize.symm ▸ hinner) (fun b hb => hkind b ?_) _
    rwa [binding?_newFunction] at hb

theorem lexical {declaration : Declaration} (hinner : inner.index < s.scopes.size)
    (hkind : declaration.kind.isLexical = true) :
    s.HoistsInto [.declaration declaration] inner
      (s.declareAll inner declaration.boundNames declaration.kind.bindingKind) := by
  have hnames : [Stmt.declaration declaration].flatMap Grammar.lexicalNames =
      declaration.boundNames := by
    simp [Grammar.lexicalNames, hkind]
  have hbinding : declaration.kind.bindingKind ≠ .variable := by
    revert hkind
    cases declaration.kind <;> simp [DeclarationKind.isLexical, DeclarationKind.bindingKind]
  have hgrows := s.grows_declareAll inner declaration.boundNames declaration.kind.bindingKind
  refine ⟨hgrows.later, hgrows.size, fun id other hfree => ?_,
    fun _ hmem => absurd hmem List.not_mem_nil, fun other hmem _ => ?_⟩
  · refine binding?_modifyScope_of_same fun heq a => ?_
    have hother := (hfree heq).2
    rw [hnames] at hother
    rw [Scope.find?_declareAll_lexical hbinding, if_neg hother]
  · rw [hnames] at hmem
    obtain ⟨a, ha⟩ := scope?_eq_some_iff.mpr hinner
    unfold declareAll
    rw [binding?_modifyScope, if_pos rfl, ha, Option.bind_some,
      Scope.find?_declareAll_lexical hbinding, if_pos hmem]
    exact ⟨_, rfl, rfl⟩

end HoistsInto

end Store

theorem hoistsInto_hoist (body : List Stmt) {m : Machine}
    (hinner : inner.index < m.store.scopes.size) :
    ∃ s', Eval.hoist inner inner .variable body m = .ok () { m with store := s' } ∧
      m.store.HoistsInto body inner s' := by
  induction body generalizing m with
  | nil => exact ⟨m.store, rfl, .silent (.refl _) rfl (fun _ _ => rfl) rfl rfl⟩
  | cons statement rest ih =>
    have hrest {s : Store} (hfirst : m.store.HoistsInto [statement] inner s) :
        ∃ s', Eval.hoist inner inner .variable rest { m with store := s } =
            .ok () { m with store := s' } ∧ m.store.HoistsInto (statement :: rest) inner s' := by
      obtain ⟨s', heq, hlast⟩ := ih (m := { m with store := s }) (hfirst.size.symm ▸ hinner)
      exact ⟨s', heq, hfirst.append hlast⟩
    cases statement with
    | function f =>
      unfold Eval.hoist
      cases hname : f.name with
      | none =>
        refine hrest (s := (m.store.newFunction (.closure f inner)).2) (.silent
          (m.store.extends_newFunction _) (m.store.size_newFunction _)
          (m.store.binding?_newFunction _) ?_ rfl)
        simp [Stmt.functionNames, hname]
      | some name => exact hrest (.function hinner hname)
    | declaration declaration =>
      unfold Eval.hoist
      by_cases hkind : declaration.kind.isLexical = true
      · simp only [hkind, if_true]
        exact hrest (.lexical hinner hkind)
      · simp only [hkind]
        refine hrest (s := m.store) (.silent (.refl _) rfl (fun _ _ => rfl) rfl ?_)
        simp [Grammar.lexicalNames, hkind]
    | _ => exact hrest (s := m.store) (.silent (.refl _) rfl (fun _ _ => rfl) rfl rfl)

/-! ### Starting values -/

def FunctionDef.startingValue (d : FunctionDef) (s : Store) (parameters : ScopeId)
    (name : String) : Value :=
  if d.Inherits name then (s.lookup? parameters name).getD .undefined else .undefined

namespace Store

theorem lookup?_of_binding? {b : Binding} (h : s.binding? inner name = some b) :
    s.lookup? inner name = b.read.toOption := by
  unfold lookup? lookup
  rw [resolve?_of_binding? h]

theorem binding?_declare_of_ne {id : ScopeId} {declared : String} (kind : BindingKind)
    (h : id ≠ inner ∨ name ≠ declared) :
    (s.declare inner declared kind).binding? id name = s.binding? id name :=
  binding?_modifyScope_of_same fun heq _ =>
    Scope.find?_declare_of_ne kind (h.resolve_left fun hne => hne heq)

/-- A variable that is declared is `undefined`, unless it is there already. -/
theorem binding?_declare_variable (hinner : inner.index < s.scopes.size) :
    (s.declare inner name .variable).binding? inner name =
      some ((s.binding? inner name).getD ⟨.undefined, .variable, true⟩) := by
  obtain ⟨a, ha⟩ := scope?_eq_some_iff.mpr hinner
  have hbinding : s.binding? inner name = a.bindings.find? name := by
    unfold binding?
    rw [ha, Option.bind_some]
  unfold declare
  rw [binding?_modifyScope, if_pos rfl, ha, Option.bind_some, hbinding]
  unfold Scope.declare
  split
  · next hown =>
    obtain ⟨b, hb⟩ := Option.isSome_iff_exists.mp hown.2
    rw [hb]
    rfl
  · next hfree =>
    have hnone : a.bindings.find? name = none := by
      refine Option.not_isSome_iff_eq_none.mp fun hown => hfree ⟨rfl, hown⟩
    rw [NameMap.find?_insert, if_pos rfl, hnone]
    rfl

/-- Starting values are those of the scope of the parameters itself. -/
theorem startingValue_congr (hgiven : d.Given s parameters)
    (h : ∀ name, s'.binding? parameters name = s.binding? parameters name) (name : String) :
    d.startingValue s' parameters name = d.startingValue s parameters name := by
  unfold FunctionDef.startingValue
  split
  · next hinherits =>
    obtain ⟨b, hb⟩ := hasOwnBinding_iff.mp (hgiven name hinherits)
    rw [lookup?_of_binding? hb, lookup?_of_binding? ((h name).trans hb)]
  · rfl

theorem seedVariable_eq (hgiven : d.Given s parameters) (name : String) :
    Engine.seedVariable d parameters inner s name =
      match if d.Inherits name then s.lookup? parameters name else none with
      | some value => (s.declare inner name .variable).bind inner name value
      | none => s.declare inner name .variable := by
  have hseeded : (d.parameterNames.contains name ||
      (name == "arguments" && Engine.wantsArguments d)) = decide (d.Inherits name) := by
    rw [Bool.eq_iff_iff, decide_eq_true_iff]
    simp [FunctionDef.Inherits]
  unfold Engine.seedVariable
  rw [hseeded]
  by_cases hinherits : d.Inherits name
  · cases s.lookup? parameters name <;> simp [hinherits, hgiven name hinherits]
  · simp only [hinherits, decide_false, Bool.false_and, Bool.false_eq_true, if_false]

structure Seeded (d : FunctionDef) (parameters inner : ScopeId) (names : List String)
    (s s' : Store) : Prop where
  seeded : ∀ name ∈ names,
    s'.binding? inner name = some ⟨d.startingValue s parameters name, .variable, true⟩
  elsewhere : ∀ id name, id ≠ inner ∨ name ∉ names → s'.binding? id name = s.binding? id name

theorem getD_inherited (d : FunctionDef) (s : Store) (parameters : ScopeId) (name : String) :
    (if d.Inherits name then s.lookup? parameters name else none).getD .undefined =
      d.startingValue s parameters name := by
  unfold FunctionDef.startingValue
  split <;> rfl

/-- A variable that is seeded, once or again, has its starting value. -/
theorem binding?_seedVariable_self (hgiven : d.Given s parameters)
    (hinner : inner.index < s.scopes.size)
    (hstart : s.binding? inner name = none ∨
      s.binding? inner name = some ⟨d.startingValue s parameters name, .variable, true⟩) :
    (Engine.seedVariable d parameters inner s name).binding? inner name =
      some ⟨d.startingValue s parameters name, .variable, true⟩ := by
  have hkind : ∀ b, s.binding? inner name = some b → b.kind = .variable := by
    intro b hb
    rcases hstart with hnone | hsome
    · cases hnone.symm.trans hb
    · cases hsome.symm.trans hb
      rfl
  rw [seedVariable_eq hgiven]
  rw [← getD_inherited] at hstart ⊢
  cases hinherited : if d.Inherits name then s.lookup? parameters name else none with
  | some value => exact binding?_declareBound_self hinner hkind value
  | none =>
    rw [hinherited] at hstart
    rw [binding?_declare_variable hinner]
    rcases hstart with hnone | hsome
    · rw [hnone]
      rfl
    · rw [hsome]
      rfl

theorem binding?_seedVariable_of_ne {id : ScopeId} {other : String}
    (hgiven : d.Given s parameters) (h : id ≠ inner ∨ other ≠ name) :
    (Engine.seedVariable d parameters inner s name).binding? id other = s.binding? id other := by
  rw [seedVariable_eq hgiven]
  split
  · exact binding?_declareBound_of_ne _ _ h
  · exact binding?_declare_of_ne _ h

theorem seeded_seedVariable (hgiven : d.Given s parameters) (hinner : inner.index < s.scopes.size)
    (hstart : s.binding? inner name = none ∨
      s.binding? inner name = some ⟨d.startingValue s parameters name, .variable, true⟩) :
    s.Seeded d parameters inner [name] (Engine.seedVariable d parameters inner s name) where
  seeded other hother := by
    cases List.mem_singleton.mp hother
    exact binding?_seedVariable_self hgiven hinner hstart
  elsewhere id other hother :=
    binding?_seedVariable_of_ne hgiven (hother.imp_right fun h heq =>
      h (heq ▸ List.mem_singleton_self _))

/-- The variables of a body are seeded one by one, however often they are declared. -/
theorem seeded_seedVariables {names : List String} (hne : parameters ≠ inner)
    (hgiven : d.Given s parameters) (hinner : inner.index < s.scopes.size)
    (hstart : ∀ name, s.binding? inner name = none ∨
      s.binding? inner name = some ⟨d.startingValue s parameters name, .variable, true⟩) :
    s.Seeded d parameters inner names
      (names.foldl (Engine.seedVariable d parameters inner) s) := by
  induction names generalizing s with
  | nil => exact ⟨fun _ hmem => absurd hmem List.not_mem_nil, fun _ _ _ => rfl⟩
  | cons first rest ih =>
    have hfirst : s.Seeded d parameters inner [first]
        (Engine.seedVariable d parameters inner s first) :=
      seeded_seedVariable hgiven hinner (hstart first)
    have hkept (name : String) := hfirst.elsewhere parameters name (.inl hne)
    have hvalues := startingValue_congr hgiven hkept
    have hlast := ih (s := Engine.seedVariable d parameters inner s first)
      (fun name hname => hasOwnBinding_iff.mpr
        ((hasOwnBinding_iff.mp (hgiven name hname)).imp fun _ => (hkept name).trans))
      ((s.grows_seedVariable d parameters inner first).size.symm ▸ hinner) fun name => by
        rw [hvalues]
        by_cases hname : name = first
        · exact .inr (hname ▸ hfirst.seeded first (List.mem_singleton_self _))
        · rw [hfirst.elsewhere inner name (.inr fun hmem => hname (List.mem_singleton.mp hmem))]
          exact hstart name
    rw [List.foldl_cons]
    refine ⟨fun name hname => ?_, fun id name hother => ?_⟩
    · by_cases hrest : name ∈ rest
      · rw [hlast.seeded name hrest, hvalues]
      · rw [hlast.elsewhere inner name (.inr hrest)]
        cases (List.mem_cons.mp hname).resolve_right hrest
        exact hfirst.seeded _ (List.mem_singleton_self _)
    · rw [hlast.elsewhere id name (hother.imp_right fun h hmem => h (List.mem_cons_of_mem _ hmem))]
      exact hfirst.elsewhere id name (hother.imp_right fun h hmem =>
        h (List.mem_singleton.mp hmem ▸ List.mem_cons_self ..))

end Store

/-! ### Opening the scope of a body -/

/-- The second store is the first one after a scope was opened for the body, inside that of the
parameters.  A name that the body declares with `var` has its starting value, unless it declares the
name otherwise as well. -/
structure FunctionDef.Opens (d : FunctionDef) (parameters inner : ScopeId) (s s' : Store) :
    Prop where
  inside : s'.Inside inner parameters
  owns : ∀ name ∈ d.bodyNames, s'.hasOwnBinding inner name = true
  starts : ∀ name, (∃ statement ∈ d.body, statement.DeclaresVar name) →
    name ∉ Stmt.functionNames d.body → name ∉ d.body.flatMap Grammar.lexicalNames →
      s'.binding? inner name = some ⟨d.startingValue s parameters name, .variable, true⟩
  functions : ∀ name ∈ Stmt.functionNames d.body, name ∉ d.body.flatMap Grammar.lexicalNames →
    ∃ f v, Stmt.function f ∈ d.body ∧ f.name = some name ∧
      s'.callable? v = some (.closure f inner) ∧
      s'.binding? inner name = some ⟨v, .variable, true⟩
  lexicals : ∀ name ∈ d.body.flatMap Grammar.lexicalNames, name ∉ Stmt.functionNames d.body →
    ∃ b, s'.binding? inner name = some b ∧ b.initialized = false
  elsewhere : ∀ id name, id ≠ inner → s'.binding? id name = s.binding? id name

/-- The scope of a body begins with the variables of the body, which have their starting values. -/
theorem exists_seeded {m : Machine} (hthere : parameters.index < m.store.scopes.size)
    (hgiven : d.Given m.store parameters) :
    ∃ s, Engine.bodyScope d parameters m = .ok ⟨m.store.scopes.size⟩ { m with store := s } ∧
      s.Inside ⟨m.store.scopes.size⟩ parameters ∧
      m.store.Seeded d parameters ⟨m.store.scopes.size⟩ (Stmt.varNamesOfList d.body) s := by
  obtain ⟨made, hmade⟩ : ∃ made, made = (m.store.newScope (some parameters) .function).2 :=
    ⟨_, rfl⟩
  have hne : parameters ≠ ⟨m.store.scopes.size⟩ := by
    rintro rfl
    exact Nat.lt_irrefl _ hthere
  have hsame (id : ScopeId) (name : String) : made.binding? id name = m.store.binding? id name :=
    hmade ▸ m.store.binding?_newScope (some parameters) .function id name
  have hgivenMade : d.Given made parameters := fun name hname => by
    rw [hasOwnBinding_iff, hsame]
    exact hasOwnBinding_iff.mp (hgiven name hname)
  have hnew (name : String) : made.binding? ⟨m.store.scopes.size⟩ name = none := by
    rw [hmade]
    exact m.store.binding?_newScope_self (some parameters) .function name
  have hinner : (ScopeId.mk m.store.scopes.size).index < made.scopes.size :=
    hmade ▸ m.store.index_newScope_lt (some parameters) .function
  obtain ⟨seeded, hdef⟩ : ∃ seeded, seeded = (Stmt.varNamesOfList d.body).foldl
    (Engine.seedVariable d parameters ⟨m.store.scopes.size⟩) made := ⟨_, rfl⟩
  have hseeded : made.Seeded d parameters ⟨m.store.scopes.size⟩ (Stmt.varNamesOfList d.body)
      seeded := hdef ▸ seeded_seedVariables hne hgivenMade hinner fun name => .inl (hnew name)
  have hlater : made.Extends seeded := hdef ▸ (made.grows_seedVariables d parameters _ _).later
  have hinside : made.Inside ⟨m.store.scopes.size⟩ parameters :=
    hmade ▸ inside_newScope .function hthere
  refine ⟨seeded, ?_, hlater.inside hinside, fun name hname => ?_, fun id name hother => ?_⟩
  · rw [hdef, hmade]
    rfl
  · rw [← startingValue_congr hgiven (hsame parameters)]
    exact hseeded.seeded name hname
  · rw [← hsame]
    exact hseeded.elsewhere id name hother

/-- Where all variables of a body are there already, hoisting binds its functions and its lexical
names. -/
theorem hoistsInto_hoistBody {m : Machine} (hinner : inner.index < m.store.scopes.size)
    (hown : ∀ name ∈ Stmt.varNamesOfList body, m.store.hasOwnBinding inner name = true) :
    ∃ s, Eval.hoistBody body inner inner m = .ok () { m with store := s } ∧
      m.store.HoistsInto body inner s := by
  have hdeclared : m.store.declareAll inner (Stmt.varNamesOfList body) .variable = m.store := by
    refine modifyScope_of_eq fun a ha => Scope.declareAll_of_own fun name hname => ?_
    obtain ⟨b, hb, hown⟩ := (Option.any_eq_true _ _).mp (hown name hname)
    cases ha.symm.trans hb
    exact hown
  have hrun : Eval.hoistBody body inner inner m = Eval.hoist inner inner .variable body
      { m with store := m.store.declareAll inner (Stmt.varNamesOfList body) .variable } := rfl
  rw [hrun, hdeclared]
  exact hoistsInto_hoist body hinner

theorem FunctionDef.exists_opens {m : Machine} (hcomplex : d.hasSimpleParameters = false)
    (hthere : parameters.index < m.store.scopes.size) (hgiven : d.Given m.store parameters) :
    ∃ s, Engine.openBody d parameters m = .ok ⟨m.store.scopes.size⟩ { m with store := s } ∧
      d.Opens parameters ⟨m.store.scopes.size⟩ m.store s := by
  obtain ⟨seeded, henter, hinside, hseeded⟩ := exists_seeded hthere hgiven
  have hinner : (ScopeId.mk m.store.scopes.size).index < seeded.scopes.size := by
    obtain ⟨a, ha, _⟩ := hinside.parent
    exact scope?_eq_some_iff.mp ⟨a, ha⟩
  have hown (name : String) (hname : name ∈ Stmt.varNamesOfList d.body) :
      seeded.hasOwnBinding ⟨m.store.scopes.size⟩ name = true :=
    hasOwnBinding_iff.mpr ⟨_, hseeded.seeded name hname⟩
  obtain ⟨s, hhoist, hhoists⟩ :=
    hoistsInto_hoistBody (m := { m with store := seeded }) hinner hown
  obtain ⟨s', hhoist', hgains⟩ :=
    gainsNames_hoistBody d.body (m := { m with store := seeded }) hinner hinner
  cases hhoist.symm.trans hhoist'
  refine ⟨s, ?_, hhoists.later.inside hinside, fun name hname => ?_,
    fun name hname hfunction hlexical => ?_, fun name hname hlexical => ?_, hhoists.lexicals,
    fun id name hid => ?_⟩
  · have hscope : Engine.enterBody d parameters = Engine.bodyScope d parameters :=
      if_neg (Bool.eq_false_iff.mp hcomplex)
    simp only [Engine.openBody, hscope, Bind.bind, EStateM.bind, henter, hhoist]
    rfl
  · exact (hgains _ name).mpr (.inr (.inl ⟨rfl, mem_bodyNames.mp hname⟩))
  · rw [hhoists.elsewhere _ name fun _ => ⟨hfunction, hlexical⟩]
    exact hseeded.seeded name (Stmt.mem_varNamesOfList_iff.mpr hname)
  · refine hhoists.functions name hname hlexical fun b hb => ?_
    by_cases hvar : name ∈ Stmt.varNamesOfList d.body
    · cases (hseeded.seeded name hvar).symm.trans hb
      rfl
    · -- The scope is new, so it binds nothing but the variables.
      rw [hseeded.elsewhere _ name (.inr hvar)] at hb
      exact absurd (lt_of_binding? hb) (Nat.lt_irrefl _)
  · rw [hhoists.elsewhere id name fun heq => absurd heq hid]
    exact hseeded.elsewhere id name (.inl hid)

end ProtoScript
