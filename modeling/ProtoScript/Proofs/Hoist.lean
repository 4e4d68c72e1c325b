import ProtoScript.Grammar.Statement
import ProtoScript.Proofs.StoreGrowth
/-!
# What hoisting does to the store

Hoisting always succeeds.  It makes the functions of the statement list, and afterwards the lexical
names of the list are bound in the one scope and its variables in the other.
-/

namespace ProtoScript

open Eval Grammar

/-- The second store is the first one after the declarations of a statement list were hoisted. -/
structure Store.Hoisted (lexicals : ScopeId) (body : List Stmt) (s s' : Store) : Prop where
  later : s.Extends s'
  size : s'.scopes.size = s.scopes.size
  closures : ∀ d scope, s'.HasClosure d scope →
    s.HasClosure d scope ∨ scope = lexicals ∧ .function d ∈ body
  names : lexicals.index < s.scopes.size → ∀ name ∈ body.flatMap lexicalNames,
    s'.hasOwnBinding lexicals name = true

namespace Store.Hoisted

variable {lexicals : ScopeId} {body : List Stmt} {s s' s'' : Store}

theorem nil (s : Store) : s.Hoisted lexicals [] s :=
  ⟨.refl s, rfl, fun _ _ h => .inl h, nofun⟩

/-- A step that binds the lexical names of a statement and makes at most the function that it
declares. -/
theorem cons {statement : Stmt} (hlater : s.Extends s') (hsize : s'.scopes.size = s.scopes.size)
    (hclosures : ∀ d scope, s'.HasClosure d scope →
      s.HasClosure d scope ∨ scope = lexicals ∧ statement = .function d)
    (hnames : lexicals.index < s.scopes.size → ∀ name ∈ lexicalNames statement,
      s'.hasOwnBinding lexicals name = true)
    (hrest : s'.Hoisted lexicals body s'') : s.Hoisted lexicals (statement :: body) s'' := by
  refine ⟨hlater.trans hrest.later, hrest.size.trans hsize, fun d scope hc => ?_,
    fun hvalid name hname => ?_⟩
  · rcases hrest.closures d scope hc with hbefore | ⟨hscope, hmem⟩
    · rcases hclosures d scope hbefore with hbefore | ⟨hscope, rfl⟩
      · exact .inl hbefore
      · exact .inr ⟨hscope, List.mem_cons_self ..⟩
    · exact .inr ⟨hscope, List.mem_cons_of_mem _ hmem⟩
  · rw [List.flatMap_cons] at hname
    rcases List.mem_append.mp hname with hfirst | hlast
    · exact hrest.later.hasOwnBinding (hnames hvalid name hfirst)
    · exact hrest.names (by rw [hsize]; exact hvalid) name hlast

end Store.Hoisted

/-- The closure of a function declaration is that of a statement in the list. -/
theorem hasClosure_newClosure (s : Store) (d : FunctionDef) (lexicals : ScopeId) (d' : FunctionDef)
    (scope : ScopeId) (h : (s.newFunction (.closure d lexicals)).2.HasClosure d' scope) :
    s.HasClosure d' scope ∨ scope = lexicals ∧ Stmt.function d = .function d' := by
  rcases s.hasClosure_newFunction _ d' scope h with heq | hbefore
  · cases heq
    exact .inr ⟨rfl, rfl⟩
  · exact .inl hbefore

theorem hoist_eq_ok (functions lexicals : ScopeId) (kind : BindingKind) (body : List Stmt)
    (m : Machine) : ∃ s', hoist functions lexicals kind body m = .ok () { m with store := s' } ∧
      m.store.Hoisted lexicals body s' := by
  induction body generalizing m with
  | nil => exact ⟨m.store, rfl, .nil m.store⟩
  | cons statement rest ih =>
    -- Most statements declare nothing for the list.
    have hother (hskip : hoist functions lexicals kind (statement :: rest) =
        hoist functions lexicals kind rest) (hnames : lexicalNames statement = []) :
        ∃ s', hoist functions lexicals kind (statement :: rest) m = .ok () { m with store := s' } ∧
          m.store.Hoisted lexicals (statement :: rest) s' := by
      obtain ⟨s', heq, hhoisted⟩ := ih m
      rw [hskip]
      refine ⟨s', heq, .cons (.refl _) rfl (fun _ _ h => .inl h) (fun _ name h => ?_) hhoisted⟩
      rw [hnames] at h
      cases h
    cases statement with
    | function d =>
      let made := (m.store.newFunction (.closure d lexicals)).2
      have hclosures := hasClosure_newClosure m.store d lexicals
      unfold hoist
      cases d.name with
      | none =>
        obtain ⟨s', heq, hhoisted⟩ := ih { m with store := made }
        exact ⟨s', heq, .cons (m.store.extends_newFunction _) (m.store.size_newFunction _)
          hclosures nofun hhoisted⟩
      | some name =>
        have hbound := (made.grows_declare functions name kind).trans (Store.grows_bind _ functions
          name (.object (m.store.newFunction (.closure d lexicals)).1))
        obtain ⟨s', heq, hhoisted⟩ := ih { m with store := _ }
        refine ⟨s', heq, .cons ((m.store.extends_newFunction _).trans hbound.later)
          (hbound.size.trans (m.store.size_newFunction _)) (fun d' scope hc => ?_)
          nofun hhoisted⟩
        exact hclosures d' scope (hbound.closures d' scope hc)
    | declaration d =>
      unfold hoist
      by_cases hkind : d.kind.isLexical = true
      · have hbound := m.store.grows_declareAll lexicals d.boundNames d.kind.bindingKind
        obtain ⟨s', heq, hhoisted⟩ := ih { m with store := _ }
        simp only [hkind, if_true]
        refine ⟨s', heq, .cons hbound.later hbound.size
          (fun d' scope hc => .inl (hbound.closures d' scope hc)) (fun hvalid name hname => ?_)
          hhoisted⟩
        rw [lexicalNames, if_pos hkind] at hname
        exact m.store.hasOwnBinding_declareAll hvalid _ _ hname
      · obtain ⟨s', heq, hhoisted⟩ := ih m
        simp only [hkind]
        refine ⟨s', heq, .cons (.refl _) rfl (fun _ _ h => .inl h) (fun _ name hname => ?_)
          hhoisted⟩
        rw [lexicalNames, if_neg hkind] at hname
        cases hname
    | _ => exact hother rfl rfl

theorem hoistBlock_eq_ok (body : List Stmt) (scope : ScopeId) (m : Machine) :
    ∃ s', hoistBlock body scope m = .ok () { m with store := s' } ∧
      m.store.Hoisted scope body s' :=
  hoist_eq_ok scope scope .letBound body m

/-- After the declarations of a body were hoisted, its variables are bound as well. -/
theorem hoistBody_eq_ok (body : List Stmt) (vars lexicals : ScopeId) (m : Machine) :
    ∃ s', hoistBody body vars lexicals m = .ok () { m with store := s' } ∧
      m.store.Hoisted lexicals body s' ∧
      (vars.index < m.store.scopes.size → ∀ name ∈ Stmt.varNamesOfList body,
        s'.hasOwnBinding vars name = true) := by
  let declared := m.store.declareAll vars (Stmt.varNamesOfList body) .variable
  have hgrows : m.store.Grows declared := m.store.grows_declareAll vars _ _
  obtain ⟨s', heq, hhoisted⟩ :=
    hoist_eq_ok vars lexicals .variable body { m with store := declared }
  refine ⟨s', heq, ⟨hgrows.later.trans hhoisted.later, hhoisted.size.trans hgrows.size, ?_, ?_⟩, ?_⟩
  · intro d scope hc
    rcases hhoisted.closures d scope hc with hbefore | hnew
    · exact .inl (hgrows.closures d scope hbefore)
    · exact .inr hnew
  · intro hvalid
    exact hhoisted.names (by rw [hgrows.size]; exact hvalid)
  · intro hvalid name hname
    exact hhoisted.later.hasOwnBinding (m.store.hasOwnBinding_declareAll hvalid _ _ hname)

end ProtoScript
