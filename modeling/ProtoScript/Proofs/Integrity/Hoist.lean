import ProtoScript.Grammar.Statement
import ProtoScript.Proofs.Integrity.Retained
import ProtoScript.Proofs.Syntax.Parts
import ProtoScript.Evaluation.Reference
import ProtoScript.Proofs.Integrity.Supervisor
import ProtoScript.Proofs.Syntax.Sound
/-!
# New scopes and hoisting

A scope inside another has the same `this`.  Hoisting declares no name `this`; the one way in which
it changes a settled binding is that it gives the name of a function declaration a value again.
-/

namespace ProtoScript

/-!
### Names that hoisting declares

Hoisting never fails.  Afterwards the scopes bind what they did, one of them the variables and the
functions of the statements as well, and one what these declare lexically.
-/

theorem Scope.hasOwn_declare_iff {a : Scope} {declared name : String} {kind : BindingKind} :
    (a.declare declared kind).hasOwn name = true ↔ a.hasOwn name = true ∨ name = declared := by
  unfold declare
  split
  · next h =>
    refine ⟨.inl, ?_⟩
    rintro (hname | rfl)
    · exact hname
    · exact h.2
  · rw [hasOwn_insert, Bool.or_eq_true, decide_eq_true_iff, or_comm]

namespace Store

/-- The scopes bind the names that they did, one of them the variables and functions of the body as
well, and one what the body declares lexically. -/
def GainsNames (body : List Stmt) (vars lexicals : ScopeId) (s s' : Store) : Prop :=
  ∀ id name, s'.hasOwnBinding id name = true ↔
    s.hasOwnBinding id name = true ∨
    (id = vars ∧ ((∃ statement ∈ body, statement.DeclaresVar name) ∨
      name ∈ Stmt.functionNames body)) ∨
    (id = lexicals ∧ name ∈ body.flatMap Grammar.lexicalNames)

variable {s : Store} {id target : ScopeId} {name : String}

theorem hasOwnBinding_modifyScope_iff (htarget : target.index < s.scopes.size) {f : Scope → Scope}
    {P : String → Prop} (hf : ∀ a name, (f a).hasOwn name = true ↔ a.hasOwn name = true ∨ P name) :
    (s.modifyScope target f).hasOwnBinding id name = true ↔
      s.hasOwnBinding id name = true ∨ id = target ∧ P name := by
  unfold hasOwnBinding
  rw [scope?_modifyScope]
  split
  · next heq =>
    subst heq
    obtain ⟨a, ha⟩ := scope?_eq_some_iff.mpr htarget
    simp [ha, hf]
  · next hne => simp [hne]

theorem hasOwnBinding_declareAll_iff (htarget : target.index < s.scopes.size)
    (names : List String) (kind : BindingKind) :
    (s.declareAll target names kind).hasOwnBinding id name = true ↔
      s.hasOwnBinding id name = true ∨ id = target ∧ name ∈ names := by
  refine hasOwnBinding_modifyScope_iff htarget fun a name => ?_
  induction names generalizing a with
  | nil => simp
  | cons first rest ih =>
    rw [List.foldl_cons, ih, Scope.hasOwn_declare_iff, List.mem_cons, or_assoc]

theorem hasOwnBinding_declareBound_iff (htarget : target.index < s.scopes.size) (declared : String)
    (kind : BindingKind) (value : Value) :
    ((s.declare target declared kind).bind target declared value).hasOwnBinding id name = true ↔
      s.hasOwnBinding id name = true ∨ id = target ∧ name = declared := by
  rw [bind_declare]
  refine hasOwnBinding_modifyScope_iff (P := (· = declared)) htarget fun a name => ?_
  show Scope.hasOwn { a.declare declared kind with
    bindings := (a.declare declared kind).bindings.insert declared _ } name = true ↔ _
  rw [Scope.hasOwn_insert, Bool.or_eq_true, decide_eq_true_iff, Scope.hasOwn_declare_iff]
  tauto

theorem hasOwnBinding_newFunction (s : Store) (callable : Callable) (id : ScopeId)
    (name : String) :
    (s.newFunction callable).2.hasOwnBinding id name = s.hasOwnBinding id name := by
  unfold newFunction
  dsimp only
  split <;> rfl

end Store

open Store

/-- Hoisting declares the functions and the lexical names of a body. -/
theorem hasOwnBinding_hoist_iff {functions lexicals : ScopeId} (kind : BindingKind)
    (body : List Stmt) {m : Machine} (hfunctions : functions.index < m.store.scopes.size)
    (hlexicals : lexicals.index < m.store.scopes.size) :
    ∃ s', Eval.hoist functions lexicals kind body m = .ok () { m with store := s' } ∧
      ∀ id name, s'.hasOwnBinding id name = true ↔ m.store.hasOwnBinding id name = true ∨
        (id = functions ∧ name ∈ Stmt.functionNames body) ∨
        (id = lexicals ∧ name ∈ body.flatMap Grammar.lexicalNames) := by
  induction body generalizing m with
  | nil => exact ⟨m.store, rfl, by simp [Stmt.functionNames]⟩
  | cons statement rest ih =>
    -- What the first statement declares, and after it what the others declare.
    have hrest {s : Store} (hsize : s.scopes.size = m.store.scopes.size)
        (hfirst : ∀ id name, s.hasOwnBinding id name = true ↔
          m.store.hasOwnBinding id name = true ∨
            (id = functions ∧ name ∈ Stmt.functionNames [statement]) ∨
            (id = lexicals ∧ name ∈ Grammar.lexicalNames statement)) :
        ∃ s', Eval.hoist functions lexicals kind rest { m with store := s } =
            .ok () { m with store := s' } ∧
          ∀ id name, s'.hasOwnBinding id name = true ↔ m.store.hasOwnBinding id name = true ∨
            (id = functions ∧ name ∈ Stmt.functionNames (statement :: rest)) ∨
            (id = lexicals ∧ name ∈ (statement :: rest).flatMap Grammar.lexicalNames) := by
      obtain ⟨s', heq, hnames⟩ := ih (m := { m with store := s })
        (Nat.lt_of_lt_of_eq hfunctions hsize.symm) (Nat.lt_of_lt_of_eq hlexicals hsize.symm)
      refine ⟨s', heq, fun id name => ?_⟩
      have hsplit : Stmt.functionNames (statement :: rest) =
          Stmt.functionNames [statement] ++ Stmt.functionNames rest :=
        List.filterMap_append (l := [statement])
      rw [hnames, hfirst, hsplit, List.flatMap_cons, List.mem_append, List.mem_append]
      tauto
    cases statement with
    | function d =>
      have hmade := m.store.hasOwnBinding_newFunction (.closure d lexicals)
      have hsize := m.store.size_newFunction (.closure d lexicals)
      unfold Eval.hoist
      cases hname : d.name with
      | none =>
        refine hrest (s := (m.store.newFunction (.closure d lexicals)).2) hsize fun id name => ?_
        rw [hmade]
        simp [Stmt.functionNames, hname, Grammar.lexicalNames]
      | some declared =>
        refine hrest (s := ((m.store.newFunction (.closure d lexicals)).2.declare functions declared
          kind).bind functions declared _) ?_ fun id name => ?_
        · rw [bind_declare, size_modifyScope]
          exact hsize
        · rw [hasOwnBinding_declareBound_iff (Nat.lt_of_lt_of_eq hfunctions hsize.symm), hmade]
          simp [Stmt.functionNames, hname, Grammar.lexicalNames]
    | declaration d =>
      unfold Eval.hoist
      by_cases hkind : d.kind.isLexical = true
      · simp only [hkind, if_true]
        refine hrest (size_modifyScope ..) fun id name => ?_
        rw [hasOwnBinding_declareAll_iff hlexicals]
        simp [Stmt.functionNames, Grammar.lexicalNames, hkind]
      · simp only [hkind]
        exact hrest rfl fun id name => by simp [Stmt.functionNames, Grammar.lexicalNames, hkind]
    | _ => exact hrest rfl fun id name => by simp [Stmt.functionNames, Grammar.lexicalNames]

theorem gainsNames_hoistBody {vars lexicals : ScopeId} (body : List Stmt) {m : Machine}
    (hvars : vars.index < m.store.scopes.size) (hlexicals : lexicals.index < m.store.scopes.size) :
    ∃ s', Eval.hoistBody body vars lexicals m = .ok () { m with store := s' } ∧
      m.store.GainsNames body vars lexicals s' := by
  have hsize := m.store.size_modifyScope vars fun a =>
    (Stmt.varNamesOfList body).foldl (fun scope name => scope.declare name .variable) a
  obtain ⟨s', heq, hnames⟩ := hasOwnBinding_hoist_iff .variable body
    (m := { m with store := m.store.declareAll vars (Stmt.varNamesOfList body) .variable })
    (Nat.lt_of_lt_of_eq hvars hsize.symm) (Nat.lt_of_lt_of_eq hlexicals hsize.symm)
  refine ⟨s', heq, fun id name => ?_⟩
  rw [hnames, hasOwnBinding_declareAll_iff hvars, Stmt.mem_varNamesOfList_iff]
  simp only [and_or_left, or_assoc]

/-! ### New scopes and what hoisting keeps -/

theorem DeclarationKind.isSelfName_bindingKind (k : DeclarationKind) :
    k.bindingKind.isSelfName = false := by
  cases k <;> rfl

namespace Store

variable {kept : Watch} {s s' : Store} {scope : ScopeId}

theorem Evolves.this_eq (h : s.Evolves kept s') (hscope : scope.index < s.scopes.size) :
    s'.this scope = s.this scope := by
  unfold this
  rw [h.lookup?_this hscope]

/-- A scope without a `this` of its own has that of the scope around it. -/
theorem Inside.this_eq {inner outer : ScopeId} (h : s.Inside inner outer)
    (hfree : s.binding? inner "this" = none) : s.this inner = s.this outer := by
  unfold this lookup? lookup
  rw [h.resolve?_eq hfree]

theorem Intact.this_newScope (hs : s.Intact) (hscope : scope.index < s.scopes.size)
    (kind : ScopeKind) :
    (s.newScope (some scope) kind).2.this (s.newScope (some scope) kind).1 = s.this scope := by
  have hleads : s.Leads (.first 0) (s.newScope (some scope) kind).2 := hs.newScope hscope kind
  have hinside : (s.newScope (some scope) kind).2.Inside (s.newScope (some scope) kind).1 scope :=
    inside_newScope kind hscope
  rw [hinside.this_eq (s.binding?_newScope_self _ kind _)]
  exact hleads.evolves.this_eq hscope

/-- What the statements of a list declare themselves may be bound: the functions in one scope, where
they are variables or what else is meant to be, and the lexical names in another. -/
structure Hoistable (kept : Watch) (s : Store) (functions lexicals : ScopeId) (kind : BindingKind)
    (body : List Stmt) : Prop where
  definition : ∀ d, .function d ∈ body → d.Sound
  functionName : ∀ d, .function d ∈ body → ∀ name ∈ d.name, name ≠ "this" ∧
    ¬ kept.settled functions name ∧
    (kind = .variable ∨ ¬ (kept.joined functions ∧ s.Shares functions name))
  lexicalName : ∀ name ∈ body.flatMap Grammar.lexicalNames,
    name ≠ "this" ∧ s.Free kept lexicals name
  kind : kind.isSelfName = false
  there : functions.index < s.scopes.size ∧ lexicals.index < s.scopes.size
  isOpen : s.Open functions ∧ s.Open lexicals

theorem Hoistable.tail {functions lexicals : ScopeId} {kind : BindingKind} {statement : Stmt}
    {body : List Stmt} (h : Hoistable kept s functions lexicals kind (statement :: body)) :
    Hoistable kept s functions lexicals kind body where
  definition d hd := h.definition d (List.mem_cons_of_mem _ hd)
  functionName d hd := h.functionName d (List.mem_cons_of_mem _ hd)
  lexicalName name hname := by
    refine h.lexicalName name ?_
    rw [List.flatMap_cons]
    exact List.mem_append_right _ hname
  kind := h.kind
  there := h.there
  isOpen := h.isOpen

theorem Hoistable.later {functions lexicals : ScopeId} {kind : BindingKind} {body : List Stmt}
    (h : Hoistable kept s functions lexicals kind body) (hold : ∀ id, kept.old id)
    (hlater : s.Evolves kept s') : Hoistable kept s' functions lexicals kind body where
  definition := h.definition
  functionName d hd name hname := by
    obtain ⟨hthis, hkept, hjoined⟩ := h.functionName d hd name hname
    refine ⟨hthis, hkept, hjoined.imp_right fun hnot hboth => hnot ⟨hboth.1, ?_⟩⟩
    exact hlater.comesBy.shares (hold functions) hboth.2
  lexicalName name hname := (h.lexicalName name hname).imp_right fun hfree =>
    hfree.later hlater (hold lexicals)
  kind := h.kind
  there := h.there.imp hlater.lt hlater.lt
  isOpen := h.isOpen.imp (hlater.retains.isOpen h.there.1) (hlater.retains.isOpen h.there.2)

end Store

theorem hoist_leads {kept : Watch} (hold : ∀ id, kept.old id) {functions lexicals : ScopeId}
    {kind : BindingKind} {body : List Stmt} {m : Machine} (hs : m.store.Intact)
    (hbody : Hoistable kept m.store functions lexicals kind body) :
    ∃ s', Eval.hoist functions lexicals kind body m = .ok () { m with store := s' } ∧
      m.store.Leads kept s' := by
  induction body generalizing m with
  | nil => exact ⟨m.store, rfl, hs.leads_self⟩
  | cons statement rest ih =>
    -- The store after the first statement leads on to the store after the others.
    have hrest {s : Store} (hfirst : m.store.Leads kept s) :
        ∃ s', Eval.hoist functions lexicals kind rest { m with store := s } =
          .ok () { m with store := s' } ∧ m.store.Leads kept s' := by
      obtain ⟨s', heq, hleads⟩ := ih (m := { m with store := s }) hfirst.intact
        (hbody.tail.later hold hfirst.evolves)
      exact ⟨s', heq, hfirst.trans hleads⟩
    cases statement with
    | function d =>
      have hd := hbody.definition d (List.mem_cons_self ..)
      have hfunction : m.store.Leads kept (m.store.newFunction (.closure d lexicals)).2 := by
        refine hs.newFunction fun d' scope h => ?_
        cases h
        exact ⟨hd, hbody.there.2⟩
      unfold Eval.hoist
      cases hname : d.name with
      | none => exact hrest hfunction
      | some name =>
        have hlater := hbody.later hold hfunction.evolves
        obtain ⟨hthis, hkept, hjoined⟩ := hlater.functionName d (List.mem_cons_self ..) name hname
        exact hrest (hfunction.trans (hfunction.intact.declareBound hlater.isOpen.1 hthis
          (m.store.within_newFunction _) hbody.kind hkept hjoined))
    | declaration d =>
      unfold Eval.hoist
      by_cases hkind : d.kind.isLexical = true
      · have hnames : ∀ name ∈ d.boundNames, name ≠ "this" ∧ m.store.Free kept lexicals name := by
          intro name hname
          refine hbody.lexicalName name ?_
          rw [List.flatMap_cons, Grammar.lexicalNames, if_pos hkind]
          exact List.mem_append_left _ hname
        simp only [hkind, if_true]
        exact hrest (hs.declareAll hbody.isOpen.2 (fun name hname => (hnames name hname).1)
          d.kind.isSelfName_bindingKind (.inr fun name hname => (hnames name hname).2))
      · simp only [hkind]
        exact hrest hs.leads_self
    | _ => exact hrest hs.leads_self

theorem hoistBody_leads {kept : Watch} (hold : ∀ id, kept.old id) {vars lexicals : ScopeId}
    {body : List Stmt} {m : Machine} (hs : m.store.Intact)
    (hbody : Hoistable kept m.store vars lexicals .variable body)
    (hnames : ∀ name ∈ Stmt.varNamesOfList body, name ≠ "this") :
    ∃ s', Eval.hoistBody body vars lexicals m = .ok () { m with store := s' } ∧
      m.store.Leads kept s' := by
  have hdeclared : m.store.Leads kept
      (m.store.declareAll vars (Stmt.varNamesOfList body) .variable) :=
    hs.declareAll hbody.isOpen.1 hnames rfl (.inl rfl)
  obtain ⟨s', heq, hleads⟩ := hoist_leads hold
    (m := { m with store := m.store.declareAll vars (Stmt.varNamesOfList body) .variable })
    hdeclared.intact (hbody.later hold hdeclared.evolves)
  exact ⟨s', heq, hdeclared.trans hleads⟩

/-- The names and the functions of sound statements may be hoisted where nothing is to be kept. -/
theorem hoistable_of_sound {kept : Watch} {store : Store} {functions lexicals : ScopeId}
    {kind : BindingKind} {t : Targets} {body : List Stmt} (hbody : ∀ s ∈ body, s.Sound t [])
    (hkind : kind.isSelfName = false)
    (hthere : functions.index < store.scopes.size ∧ lexicals.index < store.scopes.size)
    (hopen : store.Open functions ∧ store.Open lexicals)
    (hfunctions : ∀ name ∈ Stmt.functionNames body, ¬ kept.settled functions name ∧
      (kind = .variable ∨ ¬ (kept.joined functions ∧ store.Shares functions name)))
    (hlexicals : ∀ name ∈ body.flatMap Grammar.lexicalNames, store.Free kept lexicals name) :
    Hoistable kept store functions lexicals kind body where
  definition d hd := by
    cases hbody _ hd with
    | function definition _ => exact definition
  functionName d hd name hname := by
    refine ⟨?_, hfunctions name (Stmt.mem_functionNames hd hname)⟩
    cases hbody _ hd with
    | function definition declared =>
      cases definition with
      | intro _ _ usable => exact (usable declared name hname).ne_this
  lexicalName name hname := by
    refine ⟨?_, hlexicals name hname⟩
    obtain ⟨s, hs, hname⟩ := List.mem_flatMap.mp hname
    exact ((hbody s hs).usable_lexicalNames name hname).ne_this
  kind := hkind
  there := hthere
  isOpen := hopen

namespace Integrity

variable {E : EngineFamily} {W : Focus} {seat : Seat} {n : Nat} {m : Machine}
  {scope : ScopeId}

/-- A scope for the code at a seat, on a machine that has all the scopes in which names are to be
kept. -/
structure Inner (seat : Seat) (n : Nat) (m : Machine) (scope : ScopeId) : Prop where
  stands : m.Seated seat scope
  new : n ≤ m.store.scopes.size

theorem Inner.later {m' : Machine} {kept : Watch}
    (hscope : Inner seat n m scope) (hlater : m.store.Evolves kept m'.store) :
    Inner seat n m' scope :=
  ⟨hscope.stands.later hlater, Nat.le_trans hscope.new hlater.size_le⟩

/-- In a scope inside another, `this` is the same; nothing in it is to be kept yet. -/
theorem upholds_newScope (hscope : Inner seat n m scope) (kind : ScopeKind) :
    Upholds E W n m (fun _ => Eval.newScope scope kind)
      fun inner m' => Inner seat n m' inner ∧ m'.store.Vacant n inner := by
  obtain ⟨hstands, hn⟩ := hscope
  have hlt := m.store.index_newScope_lt (some scope) kind
  refine .updateGet (fun hs => hs.newScope hstands.there kind) fun hs =>
    have hbare := hs.isBare_newScope scope kind
    ⟨⟨⟨⟨⟨hlt, ?_⟩, hstands.hangs.made (.newScope ..) hstands.since ?_,
      Nat.le_trans hstands.since (Nat.le_of_lt hlt)⟩, hbare.isOpen⟩,
      Nat.le_trans hn (Nat.le_of_lt hlt)⟩, hbare, hn⟩
  · exact (hs.this_newScope hstands.there kind).trans hstands.receiver
  · exact (Store.parent?_newScope ..).trans (if_pos rfl)

theorem upholds_openScope (hstands : m.Meets seat scope) (hn : n ≤ m.store.scopes.size)
    (kind : ScopeKind) (strict : Bool) :
    Upholds E W n m (fun _ => Eval.openScope scope kind strict)
      fun inner m' => Inner seat n m' inner ∧ m'.store.Vacant n inner := by
  have hlt := m.store.index_newScope_lt (some scope) kind
  have hopened : (m.store.newScope (some scope) kind).1.index <
      ((m.store.newScope (some scope) kind).2.modifyScope (m.store.newScope (some scope) kind).1
        fun a => { a with strict }).scopes.size :=
    Nat.lt_of_lt_of_eq hlt (Store.size_modifyScope ..).symm
  refine .updateGet (fun hs => hs.openScope hstands.there kind strict) fun hs =>
    have hbare := (hs.isBare_newScope scope kind).setStrict strict
    ⟨⟨⟨⟨⟨hopened, ?_⟩, hstands.hangs.made ?_ hstands.since ?_,
      Nat.le_trans hstands.since (Nat.le_of_lt hopened)⟩, hbare.isOpen⟩,
      Nat.le_trans hn (Nat.le_of_lt hopened)⟩, hbare, hn⟩
  · have hnew : m.store.Leads (.first 0) (m.store.newScope (some scope) kind).2 :=
      hs.newScope hstands.there kind
    have hstrict : Store.Leads (.first 0) _ _ :=
      hnew.intact.setStrict (m.store.newScope (some scope) kind).1 strict
    refine (hstrict.evolves.this_eq hlt).trans ?_
    exact (hs.this_newScope hstands.there kind).trans hstands.receiver
  · exact (Store.Retains.newScope ..).trans (.modifyScope fun _ _ => .of_bindings rfl rfl rfl)
  · rw [Store.parent?_modifyScope]
    · exact (Store.parent?_newScope ..).trans (if_pos rfl)
    · exact fun _ => rfl

theorem upholds_declareAll {names : List String} (hnames : ∀ name ∈ names, Usable name)
    (hvacant : m.store.Vacant n scope) {kind : BindingKind} (hkind : kind.isSelfName = false) :
    Upholds E W n m (fun _ => Eval.update fun s => s.declareAll scope names kind) Anything :=
  Upholds.anything (.update fun hs => hs.declareAll hvacant.isOpen
    (fun name hname => (hnames name hname).ne_this) hkind (.inr fun name _ => hvacant.free name))

theorem upholds_hoistBlock {t : Targets} {body : List Stmt} (hbody : ∀ s ∈ body, s.Sound t [])
    (hscope : scope.index < m.store.scopes.size) (hvacant : m.store.Vacant n scope) :
    Upholds E W n m (fun _ => Eval.hoistBlock body scope) Anything := by
  refine .intact fun hm => ?_
  have hfree (name : String) : m.store.Free (Watched W n).closed scope name :=
    ⟨(hvacant.free name).settled, (hvacant.free name).joined⟩
  have hoistable : Hoistable (Watched W n).closed m.store scope scope .letBound body :=
    hoistable_of_sound hbody rfl ⟨hscope, hscope⟩ ⟨hvacant.isOpen, hvacant.isOpen⟩
      (fun name _ => ⟨(hfree name).settled, .inr (hfree name).joined⟩) fun name _ => hfree name
  obtain ⟨s', heq, hleads⟩ := hoist_leads (fun _ => trivial) hm.store hoistable
  exact .step heq (fun _ => hleads.of_closed) fun _ => trivial

/-- What the body declares as functions or lexically is not watched, or not settled yet, in the
scopes that it is bound in, and what it declares lexically is no parameter that is shared. -/
structure Fresh (W : Focus) (n : Nat) (s : Store) (vars lexicals : ScopeId)
    (body : List Stmt) : Prop where
  functions : ∀ name ∈ Stmt.functionNames body, (Watched W n).settled vars name →
    ∀ b, s.binding? vars name = some b → ¬ b.Settled
  unshared : ∀ name ∈ body.flatMap Grammar.lexicalNames, (Watched W n).joined lexicals →
    ¬ s.Shares lexicals name
  lexicals : ∀ name ∈ body.flatMap Grammar.lexicalNames, (Watched W n).settled lexicals name →
    ∀ b, s.binding? lexicals name = some b → ¬ b.Settled

theorem Fresh.of_new {s : Store} {vars : ScopeId} {body : List Stmt} (hnew : n ≤ scope.index)
    (hunshared : ∀ name ∈ body.flatMap Grammar.lexicalNames, (Watched W n).joined scope →
      ¬ s.Shares scope name)
    (hfunctions : ∀ name ∈ Stmt.functionNames body, (Watched W n).settled vars name →
      ∀ b, s.binding? vars name = some b → ¬ b.Settled) : Fresh W n s vars scope body :=
  ⟨hfunctions, hunshared, fun name _ hwatched => absurd hwatched (not_watched hnew name)⟩

theorem upholds_hoistBody {t : Targets} {vars lexicals : ScopeId} {body : List Stmt}
    (hbody : ∀ s ∈ body, s.Sound t [])
    (hthere : vars.index < m.store.scopes.size ∧ lexicals.index < m.store.scopes.size)
    (hopen : m.store.Open vars ∧ m.store.Open lexicals)
    (hfresh : Fresh W n m.store vars lexicals body) :
    Upholds E W n m (fun _ => Eval.hoistBody body vars lexicals) Anything := by
  refine .intact fun hm => ?_
  -- Only what is settled now has to be kept, and nothing that is declared is.
  obtain ⟨kept, hkept⟩ : ∃ kept : Watch, kept = ⟨fun id name =>
      (Watched W n).settled id name ∧ ∃ b, m.store.binding? id name = some b ∧ b.Settled,
      (Watched W n).joined, fun _ => True⟩ := ⟨_, rfl⟩
  have hoistable : Hoistable kept m.store vars lexicals .variable body := by
    refine hoistable_of_sound hbody rfl hthere hopen (fun name hname => ⟨fun h => ?_, .inl rfl⟩)
      fun name hname => ⟨fun h => ?_, fun h => ?_⟩
    · rw [hkept] at h
      obtain ⟨hwatched, b, hb, hsettled⟩ := h
      exact hfresh.functions name hname hwatched b hb hsettled
    · rw [hkept] at h
      obtain ⟨hwatched, b, hb, hsettled⟩ := h
      exact hfresh.lexicals name hname hwatched b hb hsettled
    · rw [hkept] at h
      exact hfresh.unshared name hname h.1 h.2
  obtain ⟨s', heq, hleads⟩ := hoistBody_leads (fun _ => by rw [hkept]; trivial) hm.store
    hoistable fun name hname => (usable_varNamesOfList hbody name hname).ne_this
  refine .step heq (fun _ => ⟨hleads.evolves.mono (fun id name b hwatched hb hsettled => ?_)
    (fun id hjoined => ?_) fun _ _ => ?_, hleads.intact⟩) fun _ => trivial
  · rw [hkept]
    exact ⟨hwatched, b, hb, hsettled⟩
  · rw [hkept]
    exact hjoined
  · rw [hkept]
    trivial

end Integrity

end ProtoScript
