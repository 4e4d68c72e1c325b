import ProtoScript.Proofs.Integrity.Hoist
import ProtoScript.Proofs.Integrity.Sessions
/-!
# Where evaluated texts declare

A text that is evaluated directly declares its names before its statements run.  Strict text adds no
name to a scope that is there already.  Sloppy text adds its variables, at whatever depth they are
declared, and the functions that it declares itself to the nearest scope outward that is no block,
and to no other; its `let` and `const` names go to a new scope in any case.  A text that cannot be
read, or that would declare an arguments object anew, leaves all scopes as they are.
-/

namespace ProtoScript

namespace Store

/-- From the first scope outward, the second is the first that is no block. -/
inductive FirstNonBlock (s : Store) : ScopeId → ScopeId → Prop
  | here {id : ScopeId} {a : Scope} (hthere : s.scope? id = some a) (hkind : a.kind ≠ .block) :
      s.FirstNonBlock id id
  | outward {id outer found : ScopeId} {a : Scope} (hthere : s.scope? id = some a)
      (hkind : a.kind = .block) (hparent : a.parent = some outer)
      (hrest : s.FirstNonBlock outer found) : s.FirstNonBlock id found

variable {s : Store} {id target other : ScopeId}

theorem Intact.ne_global_of_block {a : Scope} (hs : s.Intact) (ha : s.scope? id = some a)
    (hkind : a.kind = .block) : id ≠ .global := by
  rintro rfl
  obtain ⟨b, hb, hglobal⟩ := hs.named.outermost
  cases ha.symm.trans hb
  rw [hkind] at hglobal
  cases hglobal

theorem Intact.firstNonBlock_varScope (hs : s.Intact) (hid : id.index < s.scopes.size) :
    s.FirstNonBlock id (s.varScope id) := by
  induction hn : id.index using Nat.strongRecOn generalizing id with
  | ind n ih =>
    obtain ⟨a, ha⟩ := scope?_eq_some_iff.mpr hid
    rw [varScope, ha]
    dsimp only
    by_cases hkind : a.kind = .block
    · obtain ⟨parent, hparent, hbehind⟩ := hs.nested id a ha (hs.ne_global_of_block ha hkind)
      have hholds : ¬ a.kind.holdsVars = true := by
        rw [hkind]
        decide
      rw [if_neg hholds, Option.mem_def.mp hparent]
      dsimp only
      rw [if_pos hbehind]
      exact .outward ha hkind hparent
        (ih parent.index (hn ▸ hbehind) (Nat.lt_trans hbehind hid) rfl)
    · have hholds : a.kind.holdsVars = true := bne_iff_ne.mpr hkind
      rw [if_pos hholds]
      exact .here ha hkind

theorem FirstNonBlock.unique (h : s.FirstNonBlock id target) (h' : s.FirstNonBlock id other) :
    target = other := by
  induction h with
  | here ha hkind =>
    cases h' with
    | here => rfl
    | outward hb hblock =>
      cases ha.symm.trans hb
      exact absurd hblock hkind
  | outward ha hblock hparent _ ih =>
    cases h' with
    | here hb hkind =>
      cases ha.symm.trans hb
      exact absurd hblock hkind
    | outward hb _ hparent' hrest =>
      cases ha.symm.trans hb
      cases hparent.symm.trans hparent'
      exact ih hrest

end Store

open Store

/-! ### Declaring the names of a text -/

/-- Reads a text and declares its names.  Gives the program, and the scope that its statements run
in. -/
def Engine.declareText (source : Text) (scope : ScopeId) : Eval (Program × ScopeId) := do
  let strict ← Eval.isStrict scope
  match Program.ofString source.toString strict with
  | .error error => Eval.fault (.syntaxFault error.message)
  | .ok p =>
    let (vars, lexicals) ← textScopes p scope (strict || p.strict)
    Eval.hoistBody p.body vars lexicals
    return (p, lexicals)

/-- A text is evaluated by declaring its names, and then running its statements. -/
theorem Engine.directEval_eq (e : Engine) (source : Text) (scope : ScopeId) :
    e.directEval (.string source) scope = (do
      let (p, lexicals) ← declareText source scope
      e.statements lexicals p.body .undefined) := by
  unfold directEval evaluateText declareText
  simp only [bind_assoc]
  congr 1
  funext strict
  cases hread : Program.ofString source.toString strict with
  | error error => rfl
  | ok p => simp only [bind_assoc, pure_bind]

namespace TextScopes

open Engine Integrity

variable {host : Host} {m : Machine} {source : Text} {scope vars : ScopeId} {p : Program}

/-- The text is refused: a `SyntaxError` is thrown, and the scopes are as they were. -/
def Refuses (f : Fault) (m : Machine) (r : EStateM.Result Stop Machine (Program × ScopeId)) :
    Prop :=
  ∃ error m', r = .error (.abrupt (.thrown (.object error))) m' ∧
    m'.store.scopes = m.store.scopes ∧
    m'.store.object? error = some (.error .syntaxError f.message)

/-- The names of the program are declared, those of its variables and functions in a scope and what
it declares lexically in a new one, in which its statements are to run. -/
def Prepares (p : Program) (vars : ScopeId) (m : Machine)
    (r : EStateM.Result Stop Machine (Program × ScopeId)) : Prop :=
  ∃ m', r = .ok (p, ⟨m.store.scopes.size⟩) m' ∧
    m.store.GainsNames p.body vars ⟨m.store.scopes.size⟩ m'.store

/-- What declaring the names of a text comes to in a scope, from which the first scope outward that
is no block is `vars`. -/
structure DeclaresWhereDue (source : Text) (scope vars : ScopeId) (m : Machine) : Prop where
  unread : ∀ error, Program.ofString source.toString (m.store.isStrict scope) = .error error →
    Refuses (.syntaxFault error.message) m (declareText source scope m)
  strict : ∀ p, Program.ofString source.toString (m.store.isStrict scope) = .ok p →
    (m.store.isStrict scope || p.strict) = true →
      Prepares p ⟨m.store.scopes.size⟩ m (declareText source scope m)
  refused : ∀ p, Program.ofString source.toString (m.store.isStrict scope) = .ok p →
    (m.store.isStrict scope || p.strict) = false →
    (∃ a, m.store.scope? vars = some a ∧ a.kind = .parameters true) →
    (∃ statement ∈ p.body, statement.DeclaresVar "arguments") →
      Refuses .argumentsInInitializer m (declareText source scope m)
  sloppy : ∀ p, Program.ofString source.toString (m.store.isStrict scope) = .ok p →
    (m.store.isStrict scope || p.strict) = false →
    ¬ ((∃ a, m.store.scope? vars = some a ∧ a.kind = .parameters true) ∧
      ∃ statement ∈ p.body, statement.DeclaresVar "arguments") →
      Prepares p vars m (declareText source scope m)

theorem refuses_fault {f : Fault} (hkind : f.kind = .syntaxError) :
    Refuses f m (Eval.fault f m) := by
  refine ⟨(m.store.allocate (.error f.kind f.message)).1, _, rfl, rfl, ?_⟩
  rw [← hkind]
  exact m.store.object?_allocate_self (.error f.kind f.message)

/-- In a store with a new scope that binds nothing, the names of a body are declared as in the store
without it. -/
theorem prepares_hoistBody {s : Store} (hsize : s.scopes.size = m.store.scopes.size + 1)
    (hsame : ∀ id name, s.hasOwnBinding id name = m.store.hasOwnBinding id name)
    (hvars : vars.index < s.scopes.size) :
    Prepares p vars m ((do
      Eval.hoistBody p.body vars ⟨m.store.scopes.size⟩
      return (p, ⟨m.store.scopes.size⟩) : Eval (Program × ScopeId)) { m with store := s }) := by
  have hlexicals : (ScopeId.mk m.store.scopes.size).index < s.scopes.size :=
    hsize ▸ Nat.lt_succ_self _
  obtain ⟨s', heq, hnames⟩ :=
    gainsNames_hoistBody p.body (m := { m with store := s }) hvars hlexicals
  refine ⟨{ m with store := s' }, ?_, fun id name => ?_⟩
  · simp only [Bind.bind, EStateM.bind, heq]
    rfl
  · rw [← hsame]
    exact hnames id name

theorem hasOwnBinding_newScope (s : Store) (parent : Option ScopeId) (kind : ScopeKind)
    (id : ScopeId) (name : String) :
    (s.newScope parent kind).2.hasOwnBinding id name = s.hasOwnBinding id name := by
  rw [Bool.eq_iff_iff, hasOwnBinding_iff, hasOwnBinding_iff, binding?_newScope]

theorem declareText_of_malformed {error : SyntaxError}
    (h : Program.ofString source.toString (m.store.isStrict scope) = .error error) :
    declareText source scope m = Eval.fault (.syntaxFault error.message) m := by
  simp only [declareText, Eval.isStrict, Eval.read, Bind.bind, EStateM.bind, h]

theorem declareText_of_strict
    (hok : Program.ofString source.toString (m.store.isStrict scope) = .ok p)
    (hmode : (m.store.isStrict scope || p.strict) = true) :
    declareText source scope m = (do
      Eval.hoistBody p.body ⟨m.store.scopes.size⟩ ⟨m.store.scopes.size⟩
      return (p, ⟨m.store.scopes.size⟩) : Eval (Program × ScopeId))
        { m with
          store := (m.store.newScope (some scope) .eval).2.modifyScope ⟨m.store.scopes.size⟩
            fun a => { a with strict := true } } := by
  simp only [declareText, Eval.isStrict, Eval.read, Bind.bind, EStateM.bind, hok, hmode]
  rfl

theorem declareText_of_sloppy
    (hok : Program.ofString source.toString (m.store.isStrict scope) = .ok p)
    (hmode : (m.store.isStrict scope || p.strict) = false) :
    declareText source scope m =
      if (m.store.scope? (m.store.varScope scope)).map Scope.kind = some (.parameters true) ∧
          (Stmt.varNamesOfList p.body).contains "arguments" then
        Eval.fault .argumentsInInitializer m
      else (do
        Eval.hoistBody p.body (m.store.varScope scope) ⟨m.store.scopes.size⟩
        return (p, ⟨m.store.scopes.size⟩) : Eval (Program × ScopeId))
          { m with store := (m.store.newScope (some scope) .block).2 } := by
  simp only [declareText, Eval.isStrict, Eval.read, Bind.bind, EStateM.bind, hok, hmode]
  unfold textScopes
  simp only [Eval.read, Bind.bind, EStateM.bind, Bool.false_eq_true, if_false]
  by_cases hrefused : (m.store.scope? (m.store.varScope scope)).map Scope.kind =
      some (.parameters true) ∧ (Stmt.varNamesOfList p.body).contains "arguments"
  · rw [if_pos hrefused, if_pos hrefused]
    rfl
  · rw [if_neg hrefused, if_neg hrefused]
    rfl

theorem declaresWhereDue (hscope : scope.index < m.store.scopes.size) :
    DeclaresWhereDue source scope (m.store.varScope scope) m := by
  have hrefuses {p : Program} : ((∃ a, m.store.scope? (m.store.varScope scope) = some a ∧
      a.kind = .parameters true) ∧ ∃ statement ∈ p.body, statement.DeclaresVar "arguments") ↔
      (m.store.scope? (m.store.varScope scope)).map Scope.kind = some (.parameters true) ∧
        (Stmt.varNamesOfList p.body).contains "arguments" := by
    rw [Option.map_eq_some_iff, List.contains_iff_mem, Stmt.mem_varNamesOfList_iff]
  refine ⟨fun error herror => ?_, fun p hok hmode => ?_, fun p hok hmode hkind hnames => ?_,
    fun p hok hmode hfree => ?_⟩
  · rw [declareText_of_malformed herror]
    exact refuses_fault rfl
  · rw [declareText_of_strict hok hmode]
    have hsize : Array.size (((m.store.newScope (some scope) .eval).2.modifyScope
        ⟨m.store.scopes.size⟩ fun a => { a with strict := true }).scopes) =
          m.store.scopes.size + 1 := by
      rw [size_modifyScope]
      exact Array.size_push _
    refine prepares_hoistBody hsize (fun id name => ?_) (hsize ▸ Nat.lt_succ_self _)
    have hstrict : ((m.store.newScope (some scope) .eval).2.modifyScope ⟨m.store.scopes.size⟩
        fun a => { a with strict := true }).binding? id name =
          (m.store.newScope (some scope) .eval).2.binding? id name :=
      binding?_modifyScope_of_same fun _ _ => rfl
    rw [← hasOwnBinding_newScope m.store (some scope) .eval, Bool.eq_iff_iff, hasOwnBinding_iff,
      hasOwnBinding_iff, hstrict]
  · rw [declareText_of_sloppy hok hmode, if_pos (hrefuses.mp ⟨hkind, hnames⟩)]
    exact refuses_fault rfl
  · rw [declareText_of_sloppy hok hmode, if_neg fun h => hfree (hrefuses.mpr h)]
    have hsize : (m.store.newScope (some scope) .block).2.scopes.size = m.store.scopes.size + 1 :=
      Array.size_push _
    refine prepares_hoistBody hsize (hasOwnBinding_newScope m.store (some scope) .block) ?_
    have hle := m.store.index_varScope_le scope
    omega

/-! ### All runs -/

/-- A text is evaluated where there is a first scope outward that is no block, and declares its
names as is due there. -/
def observer : Supervisor Unit where
  inside _ _ _ := ()
  admits _ task m :=
    match task with
    | .directEval (.string source) scope =>
      (∃ vars, m.store.FirstNonBlock scope vars) ∧
        ∀ vars, m.store.FirstNonBlock scope vars → DeclaresWhereDue source scope vars m
    | _ => True
  accepts _ _ _ _ _ := True

/-- Evaluating a text is declaring its names and then running its statements.  Wherever a text is
evaluated directly, however deep inside what the embedding program asks for, its names are declared
like this: no scope that is there comes to bind another name, save that sloppy text adds its
variables, at any depth, and its functions to the first scope outward that is no block; and a text
that is refused leaves every scope as it is. -/
theorem every_text_declares (hhost : host.Courteous)
    (hm : Machine.Reachable host Program.Accepted m) :
    (∀ (e : Engine) (source : Text) (scope : ScopeId),
      e.directEval (.string source) scope = (do
        let (p, lexicals) ← declareText source scope
        e.statements lexicals p.body .undefined)) ∧
    ∀ task, (Setting.embedding Program.Accepted fun _ => True).asks task →
      (∀ v ∈ task.values, m.Knows v) → ∀ bound,
        observer.run host bound () task m = runTask host bound task m := by
  refine ⟨Engine.directEval_eq, fun task htask hvalues bound => ?_⟩
  have hintact := (intact_of_reachable hhost hm).1
  refine (governs hhost).run_eq observer (fun _ => ()) (fun _ _ _ _ => rfl) ?_
    (fun _ _ _ _ _ _ _ => trivial) bound .undefined task m (admits_of_asks hintact htask hvalues)
  rintro receiver task m ⟨hm, _, hready, _⟩
  cases task with
  | directEval text scope =>
    cases text with
    | string source =>
      have hvars := hm.store.firstNonBlock_varScope hready.there
      refine ⟨⟨_, hvars⟩, fun vars hfirst => ?_⟩
      rw [hfirst.unique hvars]
      exact declaresWhereDue hready.there
    | _ => trivial
  | _ => trivial

theorem every_text_declares_calling_back :
    observer.run .callBack 9 ()
        (.indirectEval (.string (.ofString "(function (a) \x7b eval('var b, a;'); \x7d)(0)")))
        (.initial {}) =
      runTask .callBack 9
        (.indirectEval (.string (.ofString "(function (a) \x7b eval('var b, a;'); \x7d)(0)")))
        (.initial {}) :=
  (every_text_declares Host.callBack_courteous (.initial {})).2
    (.indirectEval (.string (.ofString "(function (a) \x7b eval('var b, a;'); \x7d)(0)"))) trivial
    (List.forall_mem_singleton.mpr trivial) 9

end TextScopes

end ProtoScript
