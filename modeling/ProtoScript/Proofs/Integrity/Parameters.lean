import ProtoScript.Evaluation.Activation
import ProtoScript.Proofs.Integrity.Hoist
/-!
# Receivers and parameters of calls

A call chooses its receiver before any of its code runs, and binds it in the scope that it makes for
its parameters.  If the function is sloppy and its parameters are mere names, its arguments object
shares them there; whatever else the scope comes to bind is not shared.
-/

namespace ProtoScript

open Store

/-! ### Functions that share their parameters -/

/-- A call of the function makes an arguments object that shares the parameters. -/
structure FunctionDef.SharesArguments (d : FunctionDef) : Prop where
  sloppy : d.strict = false
  simple : d.hasSimpleParameters = true
  wanted : Engine.wantsArguments d = true

/-- The body declares no parameter of the function as anything but a variable. -/
def FunctionDef.KeepsParameters (d : FunctionDef) : Prop :=
  ∀ name ∈ d.parameterNames, name ∉ d.body.flatMap Grammar.lexicalNames

/-! ### Names that a call gives a value -/

/-- A call gives the name a value in the scope of the parameters. -/
def FunctionDef.Inherits (d : FunctionDef) (name : String) : Prop :=
  name ∈ d.parameterNames ∨ name = "arguments" ∧ Engine.wantsArguments d = true

instance (d : FunctionDef) : DecidablePred d.Inherits := fun name =>
  inferInstanceAs (Decidable (name ∈ d.parameterNames ∨
    name = "arguments" ∧ Engine.wantsArguments d = true))

/-- The scope binds the parameters, and the arguments object if there is one. -/
def FunctionDef.Given (d : FunctionDef) (s : Store) (parameters : ScopeId) : Prop :=
  ∀ name, d.Inherits name → s.hasOwnBinding parameters name = true

theorem FunctionDef.Sound.selfName?_ne_this {d : FunctionDef} (hd : d.Sound) {name : String}
    (h : d.selfName? = some name) : name ≠ "this" := by
  unfold FunctionDef.selfName? at h
  split at h
  · rename_i hkind
    cases hd with
    | intro _ _ usable =>
      have hmethod : d.kind ≠ .method := by
        rw [hkind]
        exact nofun
      exact (usable hmethod name (Option.filter_eq_some_iff.mp h).1).ne_this
  · cases h

theorem FunctionDef.SharesArguments.not_mem_parameterNames {d : FunctionDef}
    (h : d.SharesArguments) : "arguments" ∉ d.parameterNames := by
  have hwanted := h.wanted
  unfold Engine.wantsArguments at hwanted
  simpa using (Bool.and_eq_true_iff.mp hwanted).2

/-! ### The receiver -/

theorem Scope.find?_receiver (a : Scope) (v : Value) :
    ((a.declare "this" .constant).bind "this" v).bindings.find? "this" =
      some ⟨v, .constant, true⟩ := by
  have hdeclared : (a.declare "this" .constant).bindings.find? "this" =
      some ⟨.undefined, .constant, false⟩ := by
    unfold Scope.declare
    rw [if_neg (fun h => nomatch h.1), NameMap.find?_insert, if_pos rfl]
    rfl
  unfold Scope.bind
  dsimp only
  rw [NameMap.find?_insert, if_pos rfl, hdeclared]
  rfl

theorem receiverFor_leads {kept : Watch} {m : Machine} (hs : m.store.Intact)
    (d : FunctionDef) {receiver : Value} (hreceiver : m.Knows receiver) :
    ∃ s, Engine.receiverFor d receiver m = .ok (m.receiverFor d receiver) { m with store := s } ∧
      m.store.Leads kept s ∧ (m.receiverFor d receiver).Within s.objects.size ∧
      s.scopes = m.store.scopes := by
  have hwrapper : m.store.Leads kept (m.store.allocate (.wrapper receiver)).2 :=
    hs.allocate (ObjectRecord.within_wrapper hs.intrinsics hreceiver) (.of_no_elements rfl .empty)
      rfl nofun
  have hnew := m.store.within_allocate (.wrapper receiver)
  unfold Machine.receiverFor Engine.receiverFor
  by_cases hstrict : d.strict = true
  · simp only [hstrict, if_true]
    exact ⟨m.store, rfl, hs.leads_self, hreceiver, rfl⟩
  · simp only [hstrict]
    cases receiver with
    | undefined => exact ⟨m.store, rfl, hs.leads_self, hs.lt_intrinsic (by decide), rfl⟩
    | null => exact ⟨m.store, rfl, hs.leads_self, hs.lt_intrinsic (by decide), rfl⟩
    | object id => exact ⟨m.store, rfl, hs.leads_self, hreceiver, rfl⟩
    | boolean b => exact ⟨_, rfl, hwrapper, hnew, rfl⟩
    | number x => exact ⟨_, rfl, hwrapper, hnew, rfl⟩
    | string t => exact ⟨_, rfl, hwrapper, hnew, rfl⟩

/-- Which receiver a call finds depends on nothing but the number of objects. -/
theorem Machine.receiverFor_congr {m : Machine} (m' : Machine)
    (h : m'.store.objects.size = m.store.objects.size) (d : FunctionDef) (receiver : Value) :
    m'.receiverFor d receiver = m.receiverFor d receiver := by
  unfold Machine.receiverFor Engine.receiverFor
  by_cases hstrict : d.strict = true
  · simp only [hstrict, if_true]
    rfl
  · simp only [hstrict]
    have hnew : (m'.store.allocate (.wrapper receiver)).1 =
        (m.store.allocate (.wrapper receiver)).1 :=
      congrArg ObjectId.mk h
    cases receiver with
    | undefined => rfl
    | null => rfl
    | object id => rfl
    | boolean b => exact congrArg Value.object hnew
    | number x => exact congrArg Value.object hnew
    | string t => exact congrArg Value.object hnew

theorem Store.Evolves.bindThis {kept : Watch} {s s' : Store} {id : ScopeId} {v : Value}
    (h : s.Evolves kept s') (hs' : s'.Intact) (hnew : s.scopes.size ≤ id.index)
    (hbare : s'.IsBare id) (hv : v.Within s'.objects.size) :
    s.Leads kept ((s'.declare id "this" .constant).bind id "this" v) := by
  have hdeclares : s'.Heeds kept (.declare id ["this"] .constant) :=
    ⟨hbare.isOpen, rfl, .inr fun name _ hboth => hbare.unshared name hboth.2⟩
  have hbinds : (s'.perform (.declare id ["this"] .constant)).Heeds kept (.bind id "this" v) :=
    hdeclares.retains.isOpen hbare.there hbare.isOpen
  have hnamed : ((s'.declare id "this" .constant).bind id "this" v).Named :=
    (hs'.named.perform hdeclares).perform hbinds
  refine ⟨⟨?_, h.comesBy.trans ⟨[.declare id ["this"] .constant, .bind id "this" v],
    ⟨hdeclares, hbinds, trivial⟩, rfl⟩⟩, ?_⟩
  · rw [bind_declare]
    exact h.toPreserves.modifyScope_new hnew _
  rw [bind_declare] at hnamed ⊢
  refine hs'.of_modifyScope hnamed (fun a => (a.extends_declare "this" .constant).parent)
    (fun a _ b hb => ?_) fun a ha => ?_
  · rw [Scope.find?_receiver] at hb
    cases hb
    exact ⟨rfl, rfl⟩
  · have hdeclared : (a.declare "this" .constant).Within s'.objects.size := by
      unfold Scope.declare
      rw [if_neg (fun h => nomatch h.1)]
      exact NameMap.All.insert (hs'.bindings id a ha) _ trivial
    exact NameMap.All.insert hdeclared _ hv

theorem Store.IsBare.bindThis {s : Store} {id : ScopeId} (h : s.IsBare id) (v : Value) :
    ((s.declare id "this" .constant).bind id "this" v).IsBare id where
  inside := h.inside
  there := by
    rw [bind_declare, size_modifyScope]
    exact h.there
  unbound name hname := by
    obtain ⟨a, ha, hfree⟩ := h.exists_scope?
    rw [bind_declare, binding?_modifyScope, if_pos rfl, ha, Option.bind_some,
      Scope.find?_bind_of_ne v hname, Scope.find?_declare_of_ne _ hname]
    exact hfree name hname
  unshared name hshared := h.unshared name (hshared.of_objects rfl)
  isOpen := (Retains.declareBound h.isOpen rfl v).isOpen h.there h.isOpen

theorem Store.IsBare.of_scopes {s s' : Store} {id : ScopeId} (h : s.IsBare id)
    (hscopes : s'.scopes = s.scopes) (hshares : ∀ name, s'.Shares id name → s.Shares id name) :
    s'.IsBare id where
  inside := h.inside
  there := by
    rw [hscopes]
    exact h.there
  unbound name hname := by
    have hfree := h.unbound name hname
    unfold binding? scope? at hfree ⊢
    rw [hscopes]
    exact hfree
  unshared name hshared := h.unshared name (hshares name hshared)
  isOpen := (Retains.of_scopes hscopes).isOpen h.there h.isOpen

theorem Store.this_bindThis {s : Store} {id : ScopeId} (hid : id.index < s.scopes.size)
    (v : Value) : ((s.declare id "this" .constant).bind id "this" v).this id = v := by
  have hbinding : ((s.declare id "this" .constant).bind id "this" v).binding? id "this" =
      some ⟨v, .constant, true⟩ := by
    obtain ⟨a, ha⟩ := scope?_eq_some_iff.mpr hid
    rw [bind_declare, binding?_modifyScope, if_pos rfl, ha]
    exact a.find?_receiver v
  unfold Store.this lookup? lookup
  rw [resolve?_of_binding? hbinding]
  rfl

/-- A call binds `this` in a new scope to the receiver that it chooses. -/
theorem bindThis_leads {kept : Watch} {s : Store} {m : Machine}
    (h : s.Leads kept m.store) {d : FunctionDef} (harrow : ¬ d.isArrow = true) {id : ScopeId}
    (hnew : s.scopes.size ≤ id.index) (hbare : m.store.IsBare id) {receiver : Value}
    (hreceiver : m.Knows receiver) :
    ∃ bound, Engine.bindThis d receiver id m = .ok () { m with store := bound } ∧
      s.Leads kept bound ∧ m.store.Retains bound ∧ bound.IsBare id ∧
      bound.this id = m.receiverFor d receiver := by
  obtain ⟨chosen, hchoose, hchosen, hknown, hscopes⟩ : ∃ chosen,
      Engine.receiverFor d receiver m =
          .ok (m.receiverFor d receiver) { m with store := chosen } ∧
        m.store.Leads kept.closed chosen ∧
          (m.receiverFor d receiver).Within chosen.objects.size ∧
          chosen.scopes = m.store.scopes :=
    receiverFor_leads h.intact d hreceiver
  have hchosenBare : chosen.IsBare id :=
    hbare.of_scopes hscopes fun name => hchosen.evolves.comesBy.shares trivial
  refine ⟨(chosen.declare id "this" .constant).bind id "this" (m.receiverFor d receiver),
    ?_, ?_, hchosen.evolves.retains.trans (.declareBound hchosenBare.isOpen rfl _),
    hchosenBare.bindThis _, Store.this_bindThis hchosenBare.there _⟩
  · simp only [Engine.bindThis, harrow, Bind.bind, EStateM.bind, hchoose, Bool.false_eq_true,
      if_false]
    rfl
  · have hlater := h.evolves.trans hchosen.evolves.of_closed
    exact hlater.bindThis hchosen.intact hnew hchosenBare hknown

theorem Entry.holds_selfScope (s : Store) (parent : ScopeId) (name : String) (guarded : Bool)
    (function : Value) : (Entry.self name function guarded).Holds
      (s.selfScope parent name guarded function) ⟨s.scopes.size⟩ := by
  have hmade := s.scope?_selfScope_self parent name guarded function
  constructor
  · unfold Store.binding?
    rw [hmade, Option.bind_some, NameMap.find?_insert, if_pos rfl]
  · intro other hother
    obtain ⟨a, ha, hown⟩ := (Option.any_eq_true _ _).mp hother
    cases hmade.symm.trans ha
    exact Store.eq_of_hasOwn_single hown

theorem Engine.selfScope_eq {d : FunctionDef} {name : String} (h : d.selfName? = some name)
    (scope : ScopeId) (function : Value) (m : Machine) :
    Engine.selfScope d scope function m = .ok ⟨m.store.scopes.size⟩
      { m with store := m.store.selfScope scope name d.strict function } := by
  unfold Engine.selfScope
  rw [h]
  rfl

theorem Engine.bindArguments_eq_ok (d : FunctionDef) (function : Value) (arguments : List Value)
    {scope : ScopeId} {m : Machine} (hscope : scope.index < m.store.scopes.size) :
    ∃ s, Engine.bindArguments d function arguments scope m = .ok () { m with store := s } ∧
      s.scopes.size = m.store.scopes.size ∧
      (Engine.wantsArguments d = true → s.hasOwnBinding scope "arguments" = true) := by
  unfold Engine.bindArguments
  by_cases hwanted : Engine.wantsArguments d = true
  · rw [if_pos hwanted]
    refine ⟨_, rfl, ?_, fun _ => ?_⟩
    · dsimp only
      rw [bind_declare, size_modifyScope]
    · exact (hasOwnBinding_declareBound_iff hscope ..).mpr (.inr ⟨rfl, rfl⟩)
  · rw [if_neg hwanted]
    exact ⟨m.store, rfl, rfl, fun h => absurd h hwanted⟩

/-- The scope of the parameters binds them, and the arguments object if there is one. -/
theorem Engine.given_of_declareParameters {d : FunctionDef} {function : Value}
    {arguments : List Value} {scope : ScopeId} {kind : BindingKind} {m m' : Machine}
    (hscope : scope.index < m.store.scopes.size)
    (h : (do
      Engine.bindArguments d function arguments scope
      Eval.update fun s => s.declareAll scope d.parameterNames kind : Eval Unit) m = .ok () m') :
    d.Given m'.store scope := by
  obtain ⟨s, hbind, hsize, hbound⟩ := Engine.bindArguments_eq_ok d function arguments hscope
  simp only [Bind.bind, EStateM.bind, hbind] at h
  cases h
  intro name hname
  refine (hasOwnBinding_declareAll_iff (hsize.symm ▸ hscope) ..).mpr ?_
  rcases hname with hparameter | ⟨rfl, hwanted⟩
  · exact .inr ⟨rfl, hparameter⟩
  · exact .inl (hbound hwanted)

/-- What is opened is a scope inside the other one, of its own kind. -/
theorem Store.scope?_opened (s : Store) (outer : ScopeId) (kind : ScopeKind) (strict : Bool) :
    ((s.newScope (some outer) kind).2.modifyScope ⟨s.scopes.size⟩ fun a => { a with strict }).scope?
      ⟨s.scopes.size⟩ = some ⟨.empty, some outer, strict, kind⟩ := by
  rw [scope?_modifyScope, if_pos rfl, scope?_newScope, if_pos rfl]
  rfl

namespace Integrity

variable {E : EngineFamily} {W : Focus} {seat : Seat} {n : Nat}
  {m : Machine} {scope : ScopeId} {function given : Value} {arguments : List Value}

/-- The scope for a function's own name makes no objects and binds no `this`. -/
theorem upholds_selfScope {d : FunctionDef} (hd : d.Sound) (hscope : m.Meets seat scope)
    (hfunction : m.Knows function) :
    Upholds E W n m (fun _ => Engine.selfScope d scope function) fun outer m' =>
      m'.Meets seat outer ∧ m'.store.objects.size = m.store.objects.size ∧
        m'.store.scopes.size = (d.parameterScope m.store).index := by
  unfold FunctionDef.parameterScope
  cases hname : d.selfName? with
  | none =>
    unfold Engine.selfScope
    rw [hname]
    exact .pure ⟨hscope, rfl, rfl⟩
  | some name =>
    have hthis := hd.selfName?_ne_this hname
    refine .step (Engine.selfScope_eq hname scope function m)
      (fun hs => hs.selfScope hscope.there hthis d.strict hfunction) fun hs => ?_
    have hlater : m.store.Leads (.first 0) (m.store.selfScope scope name d.strict function) :=
      hs.selfScope hscope.there hthis d.strict hfunction
    have hmade := m.store.scope?_selfScope_self scope name d.strict function
    have hinside : (m.store.selfScope scope name d.strict function).Inside
        ⟨m.store.scopes.size⟩ scope := ⟨hscope.there, _, hmade, rfl⟩
    have hfree : (m.store.selfScope scope name d.strict function).binding?
        ⟨m.store.scopes.size⟩ "this" = none := by
      unfold Store.binding?
      rw [hmade, Option.bind_some, NameMap.find?_insert, if_neg (Ne.symm hthis)]
      rfl
    have hparent : (m.store.selfScope scope name d.strict function).parent?
        ⟨m.store.scopes.size⟩ = some scope := Option.bind_eq_some_iff.mpr ⟨_, hmade, rfl⟩
    refine ⟨⟨⟨scope?_eq_some_iff.mp ⟨_, hmade⟩, ?_⟩,
      hscope.hangs.made hlater.evolves.retains hscope.since hparent,
      Nat.le_trans hscope.since hlater.evolves.size_le⟩, rfl, m.store.size_selfScope ..⟩
    have hbefore := (hlater.evolves.this_eq hscope.there).trans hscope.receiver
    exact (hinside.this_eq hfree).trans hbefore

/-- It is recorded what the scope for a function's own name is for. -/
theorem upheld_selfScope {d : FunctionDef} (hd : d.Sound) (hscope : m.Meets seat scope)
    (hfunction : m.Knows function) (hm : m.IntactSince W n) :
    ∃ θ, Upheld E W n m (fun _ => Engine.selfScope d scope function) (fun outer m' =>
      m'.Meets seat outer ∧ m'.store.objects.size = m.store.objects.size ∧
        m'.store.scopes.size = (d.parameterScope m.store).index) θ ∧
      ∀ name ∈ d.selfName?, Makes m (Engine.selfScope d scope function m) ⟨m.store.scopes.size⟩ ∧
        θ ⟨m.store.scopes.size⟩ = some (.self name function d.strict) := by
  obtain ⟨θ, hupheld⟩ := upholds_selfScope (E := E) hd hscope hfunction hm
  cases hname : d.selfName? with
  | none => exact ⟨θ, hupheld, nofun⟩
  | some name =>
    have hrun := Engine.selfScope_eq hname scope function m
    have hholds := Entry.holds_selfScope m.store scope name d.strict function
    refine ⟨fun id => if id = ⟨m.store.scopes.size⟩ then some (.self name function d.strict)
      else none, ⟨EngineFamily.records_of_const ?_, hupheld.ends⟩, ?_⟩
    · rw [hrun]
      rintro _ ⟨⟩ id entry _ hentry
      split at hentry
      · next heq =>
        cases hentry
        exact heq ▸ hholds
      · cases hentry
    · rintro _ ⟨⟩
      refine ⟨⟨Nat.le_refl _, ?_⟩, if_pos rfl⟩
      rw [hrun]
      rintro _ ⟨⟩
      exact hholds.lt

/-- The scope of the parameters of an arrow function, in which `this` is what it is around it. -/
theorem upholds_arrowScope {d : FunctionDef} (harrow : d.isArrow = true)
    (hscope : m.Meets seat scope) (hn : n ≤ m.store.scopes.size) (kind : ScopeKind) :
    Upholds E W n m (fun _ => do
      let parameters ← Eval.openScope scope kind d.strict
      Engine.bindThis d given parameters
      return parameters) fun parameters m' =>
        Inner seat n m' parameters ∧ m'.store.Vacant n parameters ∧
          parameters.index = m.store.scopes.size ∧
          (kind.holdsVars = true → m'.store.HoldsVars parameters) := by
  simp only [Engine.bindThis, harrow, if_true]
  have hopened : Upholds E W n m (fun _ => Eval.openScope scope kind d.strict) fun parameters m' =>
      (Inner seat n m' parameters ∧ m'.store.Vacant n parameters) ∧
        parameters.index = m.store.scopes.size ∧
        (kind.holdsVars = true → m'.store.HoldsVars parameters) := by
    refine (upholds_openScope hscope hn kind d.strict).also ?_
    rintro _ _ ⟨⟩
    exact ⟨rfl, fun hkind => ⟨_, m.store.scope?_opened scope kind d.strict, hkind⟩⟩
  exact .bind hopened fun _ _ _ hended => .pure ⟨hended.1.1, hended.1.2, hended.2⟩

/-- The scope of the parameters of a function that has a `this` of its own. -/
theorem upholds_receiverScope {d : FunctionDef} (harrow : ¬ d.isArrow = true)
    (hscope : m.Meets seat scope) (hn : n ≤ m.store.scopes.size) (kind : ScopeKind)
    (hgiven : m.Knows given) :
    Upholds E W n m (fun _ => do
      let parameters ← Eval.openScope scope kind d.strict
      Engine.bindThis d given parameters
      return parameters) fun parameters m' =>
        Inner { seat with receiver := m.receiverFor d given } n m' parameters ∧
          m'.store.Vacant n parameters ∧ parameters.index = m.store.scopes.size ∧
          (kind.holdsVars = true → m'.store.HoldsVars parameters) := by
  -- Between the new scope and its `this` the scope is there without one, so both are one step.
  refine .intact fun hm => ?_
  obtain ⟨opened, hopened⟩ : ∃ opened, opened = (m.store.newScope (some scope) kind).2.modifyScope
      ⟨m.store.scopes.size⟩ fun a => { a with strict := d.strict } := ⟨_, rfl⟩
  have hmade : opened.scope? ⟨m.store.scopes.size⟩ = some ⟨.empty, some scope, d.strict, kind⟩ :=
    hopened ▸ m.store.scope?_opened scope kind d.strict
  have hleads : m.store.Leads (Watched W n) opened :=
    hopened ▸ hm.store.openScope hscope.there kind d.strict
  have hbare : opened.IsBare ⟨m.store.scopes.size⟩ :=
    hopened ▸ (hm.store.isBare_newScope scope kind).setStrict d.strict
  have hsize : opened.objects.size = m.store.objects.size := by
    rw [hopened]
    rfl
  have hnew : m.store.scopes.size ≤ (ScopeId.mk m.store.scopes.size).index := Nat.le_refl _
  obtain ⟨bound, hbind, hbound, hretains, hboundBare, hthis⟩ :=
    bindThis_leads (m := { m with store := opened }) hleads harrow hnew hbare
      (hleads.evolves.within hgiven)
  rw [Machine.receiverFor_congr _ hsize] at hthis
  have hrun : (do
      let parameters ← Eval.openScope scope kind d.strict
      Engine.bindThis d given parameters
      return parameters : Eval ScopeId) m =
        .ok ⟨m.store.scopes.size⟩ { m with store := bound } := by
    have hopen : Eval.openScope scope kind d.strict m =
        .ok ⟨m.store.scopes.size⟩ { m with store := opened } := by
      rw [hopened]
      rfl
    simp only [Bind.bind, EStateM.bind, hopen, hbind]
    rfl
  have hparent : bound.parent? ⟨m.store.scopes.size⟩ = some scope :=
    hretains.parent? (Option.bind_eq_some_iff.mpr ⟨_, hmade, rfl⟩)
  have hlater : m.store.Evolves (Watched W n) bound := hbound.evolves
  exact .step hrun (fun _ => hbound) fun _ =>
    ⟨⟨⟨⟨⟨hboundBare.there, hthis⟩, hscope.hangs.made hlater.retains hscope.since hparent,
      Nat.le_trans hscope.since hlater.size_le⟩, hboundBare.isOpen⟩,
      Nat.le_trans hn (Nat.le_of_lt hboundBare.there)⟩,
      ⟨hboundBare, hn⟩, rfl, fun hkind => hretains.holdsVars ⟨_, hmade, hkind⟩⟩

/-- The scope of the parameters, in which `this` is the receiver that the call has chosen. -/
theorem upholds_parameterScope {d : FunctionDef} (hscope : m.Meets seat scope)
    (hn : n ≤ m.store.scopes.size) (kind : ScopeKind) (hgiven : m.Knows given) :
    Upholds E W n m (fun _ => do
      let parameters ← Eval.openScope scope kind d.strict
      Engine.bindThis d given parameters
      return parameters) fun parameters m' =>
        Inner { seat with
          receiver := if d.isArrow then seat.receiver else m.receiverFor d given } n m' parameters ∧
          m'.store.Vacant n parameters ∧ parameters.index = m.store.scopes.size ∧
          (kind.holdsVars = true → m'.store.HoldsVars parameters) := by
  by_cases harrow : d.isArrow = true
  · rw [if_pos harrow]
    exact upholds_arrowScope harrow hscope hn kind
  · rw [if_neg harrow]
    exact upholds_receiverScope harrow hscope hn kind hgiven

abbrev SharesParameters (d : FunctionDef) (scope : ScopeId) (s : Store) : Prop :=
  ∀ name, s.Shares scope name → d.SharesArguments ∧ name ∈ d.parameterNames

theorem bindArguments_leads {kept : Watch} {d : FunctionDef} (hd : ¬ d.SharesArguments)
    (hs : m.store.Intact) (hfunction : m.Knows function) (harguments : ∀ v ∈ arguments, m.Knows v)
    (hkept : ¬ kept.settled scope "arguments")
    (hopen : m.store.Open scope) :
    ∃ s, Engine.bindArguments d function arguments scope m = .ok () { m with store := s } ∧
      m.store.Leads kept s := by
  unfold Engine.bindArguments
  by_cases hwanted : Engine.wantsArguments d = true
  · have hunmapped : (!d.strict && d.hasSimpleParameters) = false := by
      refine Bool.eq_false_iff.mpr fun hmapped => hd ?_
      obtain ⟨hsloppy, hsimple⟩ := Bool.and_eq_true_iff.mp hmapped
      exact ⟨by simpa using hsloppy, hsimple, hwanted⟩
    simp only [hwanted, hunmapped, if_true, Bool.false_eq_true, if_false]
    have hmade : m.store.Leads kept (m.store.allocate (.arguments arguments function none)).2 :=
      hs.allocate (ObjectRecord.within_arguments _ hs.intrinsics harguments hfunction)
        (ObjectRecord.IsNew.arguments ..).tidy rfl nofun
    have hbound : Store.Leads kept _ _ := hmade.intact.declareBound hopen (by decide)
      (m.store.within_allocate (.arguments arguments function none)) rfl hkept (.inl rfl)
    exact ⟨_, rfl, hmade.trans hbound⟩
  · simp only [hwanted]
    exact ⟨m.store, rfl, hs.leads_self⟩

theorem bindArguments_eq {d : FunctionDef} (hd : d.SharesArguments) (function : Value)
    (arguments : List Value) (scope : ScopeId) (m : Machine) :
    (do
      Engine.bindArguments d function arguments scope
      Eval.update fun s => s.declareAll scope d.parameterNames .variable : Eval Unit) m =
      .ok () { m with
        store := m.store.shareArguments scope arguments function d.parameterNames } := by
  simp only [Engine.bindArguments, hd.wanted, hd.sloppy, hd.simple, if_true, Bool.not_false,
    Bool.true_and]
  rfl

theorem upholds_declareParameters {d : FunctionDef} (hd : d.Sound) (hfunction : m.Knows function)
    (harguments : ∀ v ∈ arguments, m.Knows v) (hvacant : m.store.Vacant n scope)
    {kind : BindingKind} (hkind : d.hasSimpleParameters = true → kind = .variable)
    (hself : kind.isSelfName = false) :
    Upholds E W n m (fun _ => do
      Engine.bindArguments d function arguments scope
      Eval.update fun s => s.declareAll scope d.parameterNames kind)
      fun _ m' => SharesParameters d scope m'.store := by
  have hnames : ∀ name ∈ d.parameterNames, name ≠ "this" :=
    fun name hname => (hd.usable_parameterNames name hname).ne_this
  have hfree (name : String) : m.store.Free (Watched W n).closed scope name :=
    ⟨(hvacant.free name).settled, (hvacant.free name).joined⟩
  refine .intact fun hm => ?_
  by_cases hshares : d.SharesArguments
  · obtain ⟨a, ha, hunbound⟩ := hvacant.exists_scope?
    rw [hkind hshares.simple]
    refine .step (bindArguments_eq hshares function arguments scope m)
      (fun hs => hs.shareArguments hvacant.inside ha (fun name hname => hunbound name
        (hnames name hname)) hnames harguments hfunction (hfree _).settled
        (Nat.not_lt.mpr hvacant.new) hvacant.isOpen) fun _ name hshared => ⟨hshares, ?_⟩
    exact (hshared.of_shareArguments.resolve_left (hvacant.unshared name)).2
  · obtain ⟨s, hbind, hleads⟩ := bindArguments_leads hshares hm.store hfunction harguments
      (hfree _).settled hvacant.isOpen
    have hdeclared : s.Leads (Watched W n).closed (s.declareAll scope d.parameterNames kind) :=
      hleads.intact.declareAll (hleads.evolves.retains.isOpen hvacant.there hvacant.isOpen) hnames
        hself (.inr fun name _ => (hfree name).later hleads.evolves trivial)
    have hall := hleads.trans hdeclared
    have hrun : (do
        Engine.bindArguments d function arguments scope
        Eval.update fun s => s.declareAll scope d.parameterNames kind : Eval Unit) m =
        .ok () { m with store := s.declareAll scope d.parameterNames kind } := by
      simp only [Bind.bind, EStateM.bind, hbind]
      rfl
    refine .step hrun (fun _ => hall.of_closed) fun _ name hshared => ?_
    exact absurd (hall.evolves.comesBy.shares trivial hshared) (hvacant.unshared name)

end Integrity

end ProtoScript
