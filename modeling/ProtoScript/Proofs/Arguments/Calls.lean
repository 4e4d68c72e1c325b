import ProtoScript.Proofs.Arguments.Aliased
import ProtoScript.Proofs.Integrity.Parameters
import ProtoScript.Proofs.Integrity.Rules
/-!
# Calls that share their parameters with their arguments

How the call of a function that shares its parameters begins, step by step, and what holds from then
on to its end.  Nothing on the way to the body fails, unless the engine is at the end of its depth.
-/

namespace ProtoScript

/-!
### The arguments of a call

A call of a sloppy function whose parameters are mere names makes a scope for the parameters and an
arguments object that shares them: at each index for which there is an argument, the parameter whose
name stands there for the last time.  The parameters begin with the arguments as their values.
-/

/-- How a call of the function has begun: in the scope, an arguments object shares the parameters,
at the indices of arguments and at the last place of each name, and the parameters have the
arguments as their values. -/
structure Store.Activated (s : Store) (d : FunctionDef) (arguments : List Value) (scope : ScopeId)
    (object : ObjectId) : Prop where
  bound : s.lookup? scope "arguments" = some (.object object)
  joined : ∀ i shared, s.joined? object (toString i) = some shared ↔
    ∃ name, shared = (scope, name) ∧ i < arguments.length ∧ LastAt d.parameterNames i name
  parameters : ∀ i name, LastAt d.parameterNames i name →
    s.lookup? scope name = some (arguments.getD i .undefined)

/-! ### Declaring and binding names -/

theorem Scope.find?_declareAll_of_not_mem {a : Scope} {name : String} {names : List String}
    (kind : BindingKind) (h : name ∉ names) :
    (names.foldl (fun a other => a.declare other kind) a).bindings.find? name =
      a.bindings.find? name := by
  induction names generalizing a with
  | nil => rfl
  | cons first rest ih =>
    rw [List.foldl_cons, ih (List.not_mem_of_not_mem_cons h),
      find?_declare_of_ne kind (List.ne_of_not_mem_cons h)]

namespace Store

variable {s : Store} {scope place : ScopeId} {name other : String} {names : List String}
  {values : List Value}

/-- Gives names their values in a scope, one after the other; a name for which there is no value
gets `undefined`. -/
def bindAll (s : Store) (scope : ScopeId) : List String → List Value → Store
  | [], _ => s
  | name :: names, values =>
    (s.bind scope name (values.headD .undefined)).bindAll scope names values.tail

/-- Changes to a scope that leave a name alone leave it alone wherever it is looked up. -/
theorem lookup?_modifyScope_of_same {f : Scope → Scope} (hparent : ∀ a, (f a).parent = a.parent)
    (hname : ∀ a, (f a).bindings.find? name = a.bindings.find? name) :
    (s.modifyScope scope f).lookup? place name = s.lookup? place name := by
  refine lookup?_congr (resolve?_congr fun other _ => ?_)
  rw [scope?_modifyScope]
  split
  · rw [Option.map_map]
    congr 1
    funext a
    exact Prod.ext (hname a) (hparent a)
  · rfl

theorem lookup?_setKind (s : Store) (kind : ScopeKind) :
    (s.modifyScope scope fun a => { a with kind }).lookup? place name = s.lookup? place name :=
  lookup?_modifyScope_of_same (fun _ => rfl) fun _ => rfl

theorem lookup?_bind_of_ne (h : name ≠ other) (value : Value) :
    (s.bind scope other value).lookup? place name = s.lookup? place name :=
  lookup?_modifyScope_of_same (fun _ => rfl) fun _ => Scope.find?_bind_of_ne value h

theorem lookup?_bindAll_of_not_mem (h : name ∉ names) :
    (s.bindAll scope names values).lookup? place name = s.lookup? place name := by
  induction names generalizing s values with
  | nil => rfl
  | cons first rest ih =>
    rw [bindAll, ih (List.not_mem_of_not_mem_cons h),
      lookup?_bind_of_ne (List.ne_of_not_mem_cons h)]

theorem lookup?_bindAll {i : Nat} (hvariables : ∀ name ∈ names, s.HasVariable scope name)
    (h : LastAt names i name) :
    (s.bindAll scope names values).lookup? scope name = some (values.getD i .undefined) := by
  induction names generalizing s values i with
  | nil => cases h.1
  | cons first rest ih =>
    have hrest : ∀ name ∈ rest, (s.bind scope first (values.headD .undefined)).HasVariable scope
        name := fun name hname =>
      (hvariables name (List.mem_cons_of_mem _ hname)).modifyScope fun _ a ha => ha.bind first _
    cases i with
    | zero =>
      obtain rfl : first = name := Option.some.inj h.1
      have hlast : first ∉ rest := h.2
      rw [bindAll, lookup?_bindAll_of_not_mem hlast,
        (hvariables first (List.mem_cons_self ..)).lookup?_bind]
      cases values <;> rfl
    | succ i =>
      rw [bindAll, ih hrest ⟨h.1, h.2⟩]
      cases values <;> rfl

/-! ### The parameters of a call -/

variable {d : FunctionDef} {function : Value} {arguments : List Value}

/-- The store of a call once the parameters have their values.  The scope stands ready for them. -/
def enter (s : Store) (d : FunctionDef) (function : Value) (arguments : List Value)
    (scope : ScopeId) : Store :=
  ((s.shareArguments scope arguments function d.parameterNames).bindAll scope d.parameterNames
    arguments).modifyScope scope fun a => { a with kind := .function }

theorem objects_bindAll (s : Store) (scope : ScopeId) (names : List String) (values : List Value) :
    (s.bindAll scope names values).objects = s.objects := by
  induction names generalizing s values with
  | nil => rfl
  | cons first rest ih => exact ih ..

/-- The name of the arguments object is bound to it, unless a parameter has that name. -/
theorem IsBare.lookup?_arguments (h : s.IsBare scope) (hnames : "arguments" ∉ names)
    (arguments : List Value) (function : Value) :
    (s.shareArguments scope arguments function names).lookup? scope "arguments" =
      some (.object ⟨s.objects.size⟩) := by
  obtain ⟨a, ha, hfree⟩ := h.exists_scope?
  have hvariable (r : ObjectRecord) :
      ((s.allocate r).2.declare scope "arguments" .variable).HasVariable scope "arguments" := by
    refine ⟨a.declare "arguments" .variable, ?_,
      Scope.hasVariable_declare (.inr (hfree _ (by decide)))⟩
    have hmade : (s.allocate r).2.scope? scope = some a := ha
    rw [declare, scope?_modifyScope, if_pos rfl, hmade]
    rfl
  refine (lookup?_modifyScope_of_same (fun a => (a.extends_declareAll _ _).parent)
    fun a => Scope.find?_declareAll_of_not_mem _ hnames).trans ?_
  exact (hvariable _).lookup?_bind _

theorem IsBare.activated (h : s.IsBare scope) (hd : d.SharesArguments)
    (hnames : ∀ name ∈ d.parameterNames, name ≠ "this") (function : Value)
    (arguments : List Value) :
    (s.enter d function arguments scope).Activated d arguments scope ⟨s.objects.size⟩ := by
  obtain ⟨a, ha, hfree⟩ := h.exists_scope?
  refine ⟨?_, fun i shared => ?_, fun i name hlast => ?_⟩
  · refine (lookup?_setKind _ .function).trans ?_
    rw [lookup?_bindAll_of_not_mem hd.not_mem_parameterNames]
    exact h.lookup?_arguments hd.not_mem_parameterNames arguments function
  · have hobjects : (s.enter d function arguments scope).objects =
        (s.shareArguments scope arguments function d.parameterNames).objects :=
      objects_bindAll ..
    rw [joined?_of_objects hobjects, joined?, object?_shareArguments, if_pos rfl]
    exact find?_sharedParameters_iff
  · refine (lookup?_setKind _ .function).trans (lookup?_bindAll (fun name hname => ?_) hlast)
    exact hasVariable_shareArguments ha (fun name hname => hfree name (hnames name hname)) arguments
      function hname

/-- Of two parameters with one name, the arguments share the last one. -/
example : (sharedParameters 3 ⟨7⟩ ["a", "b", "a"]).find? "0" = none ∧
    (sharedParameters 3 ⟨7⟩ ["a", "b", "a"]).find? "1" = some (⟨7⟩, "b") ∧
    (sharedParameters 3 ⟨7⟩ ["a", "b", "a"]).find? "2" = some (⟨7⟩, "a") := by
  decide

end Store

/-! ### How the call begins and goes on -/

open Store

/-! ### What always succeeds -/

def Eval.Succeeds {α : Type} (x : Eval α) : Prop := ∀ m, ∃ a m', x m = .ok a m'

namespace Eval.Succeeds

variable {α β : Type} {x : Eval α} {f : α → Eval β}

theorem pure (a : α) : (Pure.pure a : Eval α).Succeeds := fun m => ⟨a, m, rfl⟩

theorem updateGet (f : Store → α × Store) : (Eval.updateGet f).Succeeds := fun _ => ⟨_, _, rfl⟩

theorem update (f : Store → Store) : (Eval.update f).Succeeds := fun _ => ⟨_, _, rfl⟩

theorem bind (hx : x.Succeeds) (hf : ∀ a, (f a).Succeeds) : (x >>= f).Succeeds := by
  intro m
  obtain ⟨a, m', hx⟩ := hx m
  simp only [Bind.bind, EStateM.bind, hx]
  exact hf a m'

end Eval.Succeeds

theorem Engine.succeeds_selfScope (d : FunctionDef) (scope : ScopeId) (function : Value) :
    (Engine.selfScope d scope function).Succeeds := by
  unfold Engine.selfScope
  cases d.selfName? with
  | none => exact .pure scope
  | some name => exact .bind (.updateGet _) fun _ => .bind (.update _) fun _ => .pure _

theorem Engine.succeeds_receiverFor (d : FunctionDef) (receiver : Value) :
    (Engine.receiverFor d receiver).Succeeds := by
  unfold Engine.receiverFor
  cases d.strict with
  | true => exact .pure receiver
  | false => cases receiver <;> exact fun _ => ⟨_, _, rfl⟩

theorem Engine.succeeds_bindThis (d : FunctionDef) (receiver : Value) (scope : ScopeId) :
    (Engine.bindThis d receiver scope).Succeeds := by
  unfold Engine.bindThis
  cases d.isArrow with
  | true => exact .pure ()
  | false => exact .bind (succeeds_receiverFor d receiver) fun _ => .update _

/-! ### The values of the parameters -/

def Engine.BindsNames (e : Engine) : Prop :=
  ∀ name value scope m,
    e.bind (.identifier name) value scope true m =
        .ok .undefined { m with store := m.store.bind scope name value } ∨
      ∃ m', e.bind (.identifier name) value scope true m = .error .exhausted m'

variable {e e' : Engine} {d : FunctionDef} {scope : ScopeId} {function given : Value}
  {arguments : List Value} {m : Machine}

/-- Parameters that are mere names get their values, unless the engine is cut off. -/
theorem Engine.BindsNames.bindParameters (he : e.BindsNames) {parameters : List Pattern}
    (hsimple : parameters.all Pattern.isIdentifier = true) (m : Machine) :
    e.bindParameters scope parameters arguments m =
        .ok () { m with
          store := m.store.bindAll scope (parameters.flatMap Pattern.boundNames) arguments } ∨
      ∃ m', e.bindParameters scope parameters arguments m = .error .exhausted m' := by
  induction parameters generalizing arguments m with
  | nil => exact .inl rfl
  | cons p rest ih =>
    obtain ⟨hp, hrest⟩ := Bool.and_eq_true_iff.mp hsimple
    cases p with
    | identifier name =>
      simp only [Engine.bindParameters, Bind.bind, EStateM.bind]
      rcases he name (arguments.headD .undefined) scope m with hbound | ⟨m', hcut⟩
      · rw [hbound]
        exact ih hrest { m with store := m.store.bind scope name (arguments.headD .undefined) }
      · rw [hcut]
        exact .inr ⟨m', rfl⟩
    | _ => cases hp

/-! ### From the beginning of a call to its end -/

theorem Store.Evolves.staysAliased {W : Focus} {n : Nat} {s s' : Store}
    (h : s.Evolves (Watched W n) s') (hs : s.WellShared) (hjoins : s.Joins W.joined) :
    s.StaysAliased W.joined s' := by
  have hcomes : s.ComesBy ⟨fun _ _ => False, W.joined, fun _ => False⟩ s' :=
    h.comesBy.mono (fun _ => .inr) fun _ => False.elim
  exact hcomes.staysAliased hs hjoins

namespace Integrity

variable {W : Focus} {receiver : Value} {n : Nat}

section

variable (h : (supervisor W).Agrees receiver e e') (hd : d.Sound) (hshares : d.SharesArguments)
  (hscope : scope.index < m.store.scopes.size) (hfunction : m.Knows function)
  (hgiven : m.Knows given)

include h hd hshares hscope hfunction hgiven

/-- A call begins with the arguments joined to the parameters, or is cut off. -/
theorem activate_or_cut (hbinds : e'.BindsNames) (hm : m.IntactSince W n)
    (arguments : List Value) :
    (∃ m', e'.activate d scope function given arguments m = .error .exhausted m') ∨
      ∃ m' object,
        e'.activate d scope function given arguments m = .ok (d.parameterScope m.store) m' ∧
          m'.store.Activated d arguments (d.parameterScope m.store) object := by
  obtain ⟨outer, m₁, hself⟩ := Engine.succeeds_selfScope d scope function m
  obtain ⟨seat, hseat⟩ : ∃ seat : Seat, m.Meets seat scope :=
    ⟨⟨_, scope, m.store.scopes.size, none⟩, ⟨hscope, rfl⟩, .here, Nat.le_refl _⟩
  obtain ⟨hlater₁, hm₁, houter, -, hscopes⟩ :=
    (upholds_selfScope (E := .const e e' h.rounds) (W := W) hd hseat hfunction).of_ok hm hself
  have hplace := upholds_parameterScope (E := .const e e' h.rounds) (W := W) houter hm₁.old
    (.parameters (Engine.wantsArguments d)) (d := d) (hlater₁.within hgiven)
  obtain ⟨parameters, m₂, hopen⟩ : ∃ parameters m₂, (do
      let parameters ← Eval.openScope outer (.parameters (Engine.wantsArguments d)) d.strict
      Engine.bindThis d given parameters
      return parameters : Eval ScopeId) m₁ = .ok parameters m₂ :=
    Eval.Succeeds.bind (.updateGet _) (fun _ => .bind (Engine.succeeds_bindThis d given _) fun _ =>
      .pure _) m₁
  obtain ⟨hlater₂, hm₂, -, hvacant, hindex, -⟩ := hplace.of_ok hm₁ hopen
  rw [hscopes] at hindex
  obtain rfl : parameters = d.parameterScope m.store := congrArg ScopeId.mk hindex
  -- All that is left is to bind the parameters.
  have hbegin : e'.enterParameters d outer function given arguments m₁ = (do
      e'.bindParameters (d.parameterScope m.store) d.parameters arguments
      return d.parameterScope m.store : Eval ScopeId) { m₂ with
        store := m₂.store.shareArguments (d.parameterScope m.store) arguments function
          d.parameterNames } := by
    unfold Engine.enterParameters
    rw [Eval.bind_of_ok hopen]
    simp only [hshares.simple, if_true]
    rw [Eval.bind_of_ok (bindArguments_eq hshares function arguments _ m₂)]
  rw [Engine.activate_eq, Eval.bind_of_ok hself]
  have hsimple : d.parameters.all Pattern.isIdentifier = true := hshares.simple
  rcases hbinds.bindParameters hsimple _ with hbound | ⟨m', hcut⟩
  · rw [Eval.bind_of_ok hbound] at hbegin
    rw [Eval.bind_of_ok hbegin]
    simp only [Engine.enterBody, hshares.simple, if_true]
    exact .inr ⟨_, _, rfl, hvacant.activated hshares (fun name hname =>
      (hd.usable_parameterNames name hname).ne_this) function arguments⟩
  · refine .inl ⟨m', ?_⟩
    simp only [Bind.bind, EStateM.bind, hcut] at hbegin ⊢
    rw [hbegin]

/-- A call begins with the arguments joined to the parameters, and from then on to its end they stay
one until they are severed, if the function keeps its parameters. -/
theorem ends_callClosure {arguments : List Value} (hbinds : e'.BindsNames)
    (hm : m.IntactSince W m.store.scopes.size) (harguments : ∀ v ∈ arguments, m.Knows v)
    (hreceiver : receiver = if d.isArrow then m.store.this scope else m.receiverFor d given)
    (hkeeps : W.joined (d.parameterScope m.store) → d.SharesArguments → d.KeepsParameters) :
    Ends (fun _ m' => ∃ object s, m.store.StaysAliased W.joined s ∧
        s.Activated d arguments (d.parameterScope m.store) object ∧
        s.StaysAliased W.joined m'.store)
      (e'.callClosure d scope function given arguments m) := by
  rw [show e'.callClosure d scope function given arguments = (do
      let inner ← e'.activate d scope function given arguments
      Eval.hoistBody d.body inner inner
      e'.runBody d inner) from rfl]
  rcases activate_or_cut h hd hshares hscope hfunction hgiven hbinds hm arguments with
    ⟨m', hcut⟩ | ⟨m₁, object, hbegun, hactivated⟩
  · simp only [Bind.bind, EStateM.bind, hcut]
    trivial
  · have hback : Backs W ⟨receiver, scope, m.store.scopes.size, none⟩ (.const e e' h.rounds) :=
      backs_of_agrees h
    have hseat : m.Meets ⟨m.store.this scope, scope, m.store.scopes.size, none⟩ scope :=
      ⟨⟨hscope, rfl⟩, .here, Nat.le_refl _⟩
    obtain ⟨hlater₁, hm₁, hentered⟩ := (upholds_activate hback hd hseat (Nat.le_refl _) hreceiver
      hfunction hgiven harguments).of_ok hm hbegun
    have hbody : Upholds (.const e e' h.rounds) W m.store.scopes.size m₁ (fun e => do
        Eval.hoistBody d.body (d.parameterScope m.store) (d.parameterScope m.store)
        e.runBody d (d.parameterScope m.store)) Known :=
      .bind (upholds_hoisted hd hentered hkeeps) fun _ _ hlater _ =>
        upholds_runBody hback hd (hentered.stands.later hlater) (recordedAt_of_plain rfl)
    rw [Eval.bind_of_ok hbegun]
    obtain ⟨θ, hupheld⟩ := hbody hm₁
    refine hupheld.ends.mono ?_
    rintro o m' ⟨hlater, -⟩
    exact ⟨object, m₁.store, hlater₁.staysAliased hm.store.shared hm.joins, hactivated,
      hlater.staysAliased hm₁.store.shared hm₁.joins⟩

end

end Integrity

end ProtoScript
