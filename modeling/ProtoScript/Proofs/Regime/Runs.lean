import ProtoScript.Proofs.Integrity.Call
import ProtoScript.Proofs.Regime.Statement
/-!
# Runs under a regime

A run keeps to a regime as long as no task on the way is one that the regime does not admit.  Such
tasks are refused here, and the run is cut off at the first.  What is said about the whole run then
is said about every run in which nothing is refused.
-/

namespace ProtoScript

/-!
### Calls and texts under a regime

A call makes the scopes of the function inside that in which the function was made; a text gets its
lexical names in a scope of its own, and its variables outward.  A program binds its names in the
global scope.  With that every rule keeps to the regime.
-/

namespace Regime

variable {R : Regime} {E : Engines} {m : Machine} {scope : ScopeId}

section

variable (hR : R.Lawful)

include hR

/-! ### Activation -/

theorem abides_selfScope (d : FunctionDef) (function : Value) (hscope : R.stands m.store scope) :
    R.Abides E m (fun _ => Engine.selfScope d scope function)
      fun outer m' => R.stands m'.store outer := by
  unfold Engine.selfScope
  cases d.selfName? with
  | none => exact .pure hR hscope
  | some name =>
    refine .bind hR (abides_newScope hR hscope .block) fun inner m₁ _ hinner => ?_
    have hself : R.Leads m₁.store ((m₁.store.declare inner name (.selfName d.strict)).bind inner
        name function) :=
      leads_declareBound hR hinner.stands name (.inr (.inl hinner.new)) function
    exact .bind hR (.update hself) fun _ m₂ hkeeps₂ _ => .pure hR (hR.stays hkeeps₂ hinner.stands)

theorem leads_seedVariables (d : FunctionDef) {inner : ScopeId} {s : Store}
    (hinner : R.stands s inner) (names : List String) :
    R.Leads s (names.foldl (Engine.seedVariable d scope inner) s) := by
  induction names generalizing s with
  | nil => exact .refl hR s
  | cons name names ih =>
    have hdeclare : R.Leads s (s.declare inner name .variable) :=
      leads_declareAll hR hinner [name] (.inl rfl)
    have hfirst : R.Leads s (Engine.seedVariable d scope inner s name) := by
      unfold Engine.seedVariable
      dsimp only
      split
      · exact leads_declareBound hR hinner name (.inl rfl) _
      · exact hdeclare
    exact hfirst.trans hR fun _ hkeeps => ih (hR.stays hkeeps hinner)

theorem abides_declareParameters (d : FunctionDef) (function : Value) (arguments : List Value)
    (hmade : R.Made m scope) :
    R.Abides E m (fun _ => do
      Engine.bindArguments d function arguments scope
      Eval.update fun s => s.declareAll scope d.parameterNames
        (if d.hasSimpleParameters then .variable else .letBound)) Anything := by
  by_cases hshares : d.SharesArguments
  · rw [if_pos hshares.simple]
    refine .step (Integrity.bindArguments_eq hshares function arguments scope m) ?_ fun _ => trivial
    exact .of_operation hR (.arguments scope arguments function d.parameterNames)
      (fun _ => ⟨hmade.stands, hmade.new⟩) rfl
  · have hbind : R.Abides E m (fun _ => Engine.bindArguments d function arguments scope)
        Anything := by
      unfold Engine.bindArguments
      refine .ite (fun hwanted => ?_) fun _ => .pure hR trivial
      have hunmapped : (!d.strict && d.hasSimpleParameters) = false := by
        refine Bool.eq_false_iff.mpr fun hmapped => hshares ?_
        obtain ⟨hsloppy, hsimple⟩ := Bool.and_eq_true_iff.mp hmapped
        exact ⟨by simpa using hsloppy, hsimple, hwanted⟩
      simp only [hunmapped, Bool.false_eq_true, if_false]
      have hobject : R.Abides E m
          (fun _ => Eval.allocate (.arguments arguments function none)) Anything :=
        .step rfl (leads_allocate hR _ ⟨rfl, nofun, nofun⟩) fun _ => trivial
      refine .bind hR hobject fun object m₁ hkeeps₁ _ => ?_
      exact (Abides.update (leads_declareBound hR (hR.stays hkeeps₁ hmade.stands) "arguments"
        (.inl rfl) object)).anything
    refine .bind hR hbind fun _ m₁ hkeeps₁ _ => (Abides.update ?_).anything
    exact leads_declareAll hR (hR.stays hkeeps₁ hmade.stands) _ (.inr (.inl hmade.new))

theorem abides_enterBody (d : FunctionDef) (hmade : R.Made m scope) :
    R.Abides E m (fun _ => Engine.enterBody d scope) fun inner m' => R.Made m' inner := by
  refine .ite (fun _ => ?_) fun _ => ?_
  · exact .bind hR (.update (leads_setKind hR m.store scope .function)) fun _ m₁ hkeeps₁ _ =>
      .pure hR (hmade.later hR hkeeps₁)
  · refine .bind hR (abides_newScope hR hmade.stands .function) fun inner m₁ _ hinner => ?_
    exact .bind hR (.update (leads_seedVariables hR d hinner.stands _)) fun _ m₂ hkeeps₂ _ =>
      .pure hR (hinner.later hR hkeeps₂)

theorem abides_openBody (d : FunctionDef) (hmade : R.Made m scope) :
    R.Abides E m (fun _ => Engine.openBody d scope) fun inner m' => R.stands m'.store inner := by
  refine .bind hR (abides_enterBody hR d hmade) fun inner m₁ _ hinner => ?_
  exact .bind hR (abides_hoistBody hR d.body hinner.stands hinner.stands (.inl hinner.new))
    fun _ m₂ hkeeps₂ _ => .pure hR (hR.stays hkeeps₂ hinner.stands)

end

variable (hR : R.Lawful) (h : R.Serves E)

include hR h

theorem abides_bindThis (d : FunctionDef) (given : Value) (hmade : R.Made m scope) :
    R.Abides E m (fun _ => Engine.bindThis d given scope) Anything := by
  refine .ite (fun _ => .pure hR trivial) fun _ => ?_
  have hreceiver : R.Abides E m (fun _ => Engine.receiverFor d given) Anything :=
    .ite (fun _ => .pure hR trivial) fun _ => .ite (fun _ => .pure hR trivial) fun _ =>
      abides_toObject hR h given
  refine .bind hR hreceiver fun this m₁ hkeeps₁ _ => (Abides.update ?_).anything
  exact leads_declareBound hR (hR.stays hkeeps₁ hmade.stands) "this" (.inr (.inl hmade.new)) this

theorem abides_enterParameters (d : FunctionDef) (function given : Value) (arguments : List Value)
    (hscope : R.stands m.store scope) :
    R.Abides E m (fun e => e.enterParameters d scope function given arguments)
      fun parameters m' => R.Made m' parameters := by
  have hopen : R.Abides E m (fun _ => do
      let parameters ← Eval.openScope scope (.parameters (Engine.wantsArguments d)) d.strict
      Engine.bindThis d given parameters
      return parameters) fun parameters m' => R.Made m' parameters :=
    .bind hR (abides_openScope hR hscope _ d.strict) fun parameters m₁ _ hparameters =>
      .bind hR (abides_bindThis hR h d given hparameters) fun _ m₂ hkeeps₂ _ =>
        .pure hR (hparameters.later hR hkeeps₂)
  refine .bind hR hopen fun parameters m₁ _ hparameters => ?_
  refine .bind hR (abides_declareParameters hR d function arguments hparameters)
    fun _ m₂ hkeeps₂ _ => ?_
  have hparameters₂ := hparameters.later hR hkeeps₂
  exact .bind hR (abides_bindParameters hR h d.parameters arguments hparameters₂.stands)
    fun _ m₃ hkeeps₃ _ => .pure hR (hparameters₂.later hR hkeeps₃)

theorem abides_callClosure (d : FunctionDef) (function receiver : Value) (arguments : List Value)
    (hscope : R.stands m.store scope) :
    R.Abides E m (fun e => e.callClosure d scope function receiver arguments) Anything := by
  simp only [Engine.callClosure_eq]
  refine .bind hR (abides_selfScope hR d function hscope) fun outer m₁ _ houter => ?_
  refine .bind hR (abides_enterParameters hR h d function receiver arguments houter)
    fun parameters m₂ _ hparameters => ?_
  refine .bind hR (abides_openBody hR d hparameters) fun inner m₃ _ hinner => ?_
  refine .bind hR (abides_statements hR h d.body .undefined hinner).attempt fun outcome _ _ _ => ?_
  split
  · exact .pure hR trivial
  · exact .complete hR _
  · exact .pure hR trivial

/-! ### Texts and programs -/

/-- The scope for the lexical names of a text is new; that for its variables stands outward. -/
theorem abides_textScopes (p : Program) (strict : Bool) (hscope : R.stands m.store scope) :
    R.Abides E m (fun _ => Engine.textScopes p scope strict) fun scopes m' =>
      R.stands m'.store scopes.1 ∧ R.Made m' scopes.2 := by
  refine .ite (fun _ => ?_) fun _ => ?_
  · exact .bind hR (abides_openScope hR hscope .eval true) fun inner m₁ _ hinner =>
      .pure hR ⟨hinner.stands, hinner⟩
  · refine .bind hR (.read hR) fun vars m₁ _ hread => ?_
    obtain ⟨rfl, rfl⟩ := hread
    refine .bind hR (.read hR) fun kind m₁ _ hread => ?_
    obtain ⟨_, rfl⟩ := hread
    refine .ite (fun _ => abides_fault hR h _) fun _ => ?_
    exact .bind hR (abides_newScope hR hscope .block) fun inner m₁ hkeeps₁ hinner =>
      .pure hR ⟨hR.stays hkeeps₁ (stands_varScope hR hscope), hinner⟩

theorem abides_evaluateText (text : Value) (strict : Bool) (hscope : R.stands m.store scope) :
    R.Abides E m (fun e => e.evaluateText text scope strict) Anything := by
  cases text with
  | string source =>
    unfold Engine.evaluateText
    dsimp only
    split
    · exact abides_fault hR h _
    · rename_i p _
      refine .bind hR (abides_textScopes hR h p _ hscope) fun (vars, lexicals) m₁ _ hscopes => ?_
      obtain ⟨hvars, hlexicals⟩ := hscopes
      refine .bind hR (abides_hoistBody hR p.body hvars hlexicals.stands (.inl hlexicals.new))
        fun _ m₂ hkeeps₂ _ => ?_
      exact abides_statements hR h p.body .undefined (hR.stays hkeeps₂ hlexicals.stands)
  | _ => exact .pure hR trivial

theorem abides_program (p : Program) (hprograms : R.programs) :
    R.Abides E m (fun e => e.program p) Anything := by
  intro hm
  have hglobal := hR.global hm
  refine Abides.bind hR (.read hR) (fun strict m₁ hkeeps₁ _ => ?_) hm
  refine .bind hR (.update (leads_setStrict hR _ .global _)) fun _ m₂ hkeeps₂ _ => ?_
  have hglobal₂ := hR.stays hkeeps₂ (hR.stays hkeeps₁ hglobal)
  refine .bind hR (abides_hoistBody hR p.body hglobal₂ hglobal₂ (.inr ⟨hprograms, rfl⟩))
    fun _ m₃ hkeeps₃ _ => ?_
  refine .bind hR (abides_statements hR h p.body .undefined (hR.stays hkeeps₃ hglobal₂)).attempt
    fun outcome m₄ _ _ => ?_
  exact .bind hR (.update (leads_setStrict hR _ .global _)) fun _ m₅ _ _ =>
    .resume hR fun _ _ => trivial

/-! ### Calls -/

theorem abides_dispatch {callable : Callable} {function : Value} (receiver : Value)
    (arguments : List Value) (target : Option Value)
    (hcallable : m.store.callable? function = some callable) :
    R.Abides E m (fun e =>
      match callable with
      | .native f => e.callNative target f receiver arguments
      | .closure d scope => e.run (.closure d scope function receiver arguments)) Anything := by
  cases callable with
  | closure d scope =>
    exact h (.closure d scope function receiver arguments) m
      (Store.hasClosure_of_callable? hcallable)
  | native f =>
    refine .aside () { m with newTarget := target } rfl rfl ?_
    have hnative : R.Abides E { m with newTarget := target }
        (fun e => e.run (.native f receiver arguments)) Anything :=
      h (.native f receiver arguments) _ trivial
    refine .bind hR hnative.attempt fun outcome m₁ _ _ => ?_
    exact .aside () { m₁ with newTarget := none } rfl rfl (.resume hR fun _ _ => trivial)

theorem abides_callRule (function receiver : Value) (arguments : List Value) :
    R.Abides E m (fun e => e.callRule function receiver arguments) Anything := by
  refine .aside m.newTarget { m with newTarget := none } rfl rfl ?_
  refine .aside (m.store.callable? function) { m with newTarget := none } rfl rfl ?_
  cases hcallable : m.store.callable? function with
  | none => exact .bind hR (.read hR) fun word m₁ _ _ => abides_fault hR h _
  | some callable =>
    have henter := Eval.enterCall_eq { m with newTarget := none }
    by_cases hlimit : m.settings.maxCallDepth ≤ m.callDepth
    · have hfault : R.Abides E { m with newTarget := none } (fun _ => Eval.enterCall)
          fun _ _ => False :=
        .of_eq (henter.trans (if_pos hlimit)) (abides_fault hR h .callDepth)
      exact .bind hR hfault fun _ _ _ hnever => hnever.elim
    · rw [if_neg hlimit] at henter
      refine .aside () _ henter rfl ?_
      have hdispatch := abides_dispatch hR h
        (m := { m with newTarget := none, callDepth := m.callDepth + 1 }) receiver arguments
        m.newTarget hcallable
      refine .bind hR hdispatch.attempt fun outcome m₁ _ _ => ?_
      exact .aside () { m₁ with callDepth := m₁.callDepth - 1 } rfl rfl
        (.resume hR fun _ _ => trivial)

theorem abides_construct (constructor : Value) (arguments : List Value) :
    R.Abides E m (fun e => e.construct constructor arguments) Anything := by
  have hinstance : R.Abides E m (fun _ => Engine.newInstance constructor) Anything :=
    .ordinary hR h fun _ hS => .newInstance hS constructor
  refine .bind hR hinstance fun receiver m₁ _ _ => ?_
  refine .aside () { m₁ with newTarget := some constructor } rfl rfl ?_
  have hcall : R.Abides E { m₁ with newTarget := some constructor }
      (fun e => e.call constructor receiver arguments) Anything :=
    h (.call constructor receiver arguments) _ trivial
  refine .bind hR hcall.attempt fun outcome m₂ _ _ => ?_
  refine .aside () { m₂ with newTarget := none } rfl rfl ?_
  cases outcome with
  | ok result => exact .pure hR trivial
  | error c => exact .complete hR c

/-! ### All rules -/

/-- What an admitted task does keeps to the regime, whatever nested tasks are handed to. -/
theorem abides_rule {host : Host} (hhost : R.Suits E host) {task : Task}
    (hadmits : R.Admits m.store task) :
    R.Abides E m (fun e => Engine.rule host e task) Anything := by
  cases task with
  | evaluate x scope => exact abides_expression hR h x hadmits
  | execute s scope labels => exact abides_statement hR h s labels hadmits
  | bind p value scope fresh =>
    exact .bind hR (abides_bindPattern hR h p value fresh hadmits) fun _ _ _ _ => .pure hR trivial
  | call function receiver arguments => exact abides_callRule hR h function receiver arguments
  | closure d scope function receiver arguments =>
    exact abides_callClosure hR h d function receiver arguments hadmits
  | native f receiver arguments => exact abides_native hR h hhost f receiver arguments hadmits
  | construct constructor arguments => exact abides_construct hR h constructor arguments
  | directEval text scope =>
    refine .bind hR (.read hR) fun strict m₁ hkeeps₁ _ => ?_
    exact abides_evaluateText hR h text strict (hR.stays hkeeps₁ hadmits)
  | indirectEval text =>
    exact .intro fun hm => abides_evaluateText hR h text false (hR.global hm)
  | program p => exact abides_program hR h p hadmits

end Regime

/-! ### Runs -/

def Supervisor.refusing (refuses : Task → Machine → Prop) : Supervisor Unit where
  inside _ _ _ := ()
  admits _ task m := ¬ refuses task m
  accepts _ _ _ _ _ := True

/-- Nothing is refused in the run of a task. -/
def RunsFreely (refuses : Task → Machine → Prop) (host : Host) (bound : Nat) (task : Task)
    (m : Machine) : Prop :=
  (Supervisor.refusing refuses).run host bound () task m = runTask host bound task m

theorem Supervisor.run_refusing_eq {refuses : Task → Machine → Prop}
    (h : ∀ task m, ¬ refuses task m) (host : Host) (bound : Nat) :
    (Supervisor.refusing refuses).run host bound () = runTask host bound := by
  induction bound with
  | zero => rfl
  | succ depth ih =>
    funext task m
    have hrule : (Supervisor.refusing refuses).run host (depth + 1) () task m =
        Engine.rule host ⟨depth, (Supervisor.refusing refuses).run host depth ()⟩ task m :=
      Supervisor.run_eq_rule (h task m) (Ends.of_forall (fun _ _ => trivial) _)
    rw [hrule, ih]
    rfl

/-- A task that is not refused is carried out freely if its rule does the same with free runs. -/
theorem Supervisor.run_refusing_of_rule {refuses : Task → Machine → Prop} {host : Host}
    {depth : Nat} {task : Task} (htask : ∀ m, ¬ refuses task m)
    (hrule : Engine.rule host ⟨depth, (Supervisor.refusing refuses).run host depth ()⟩ task =
      Engine.rule host ⟨depth, runTask host depth⟩ task) :
    (Supervisor.refusing refuses).run host (depth + 1) () task =
      runTask host (depth + 1) task := by
  funext m
  have hfree : (Supervisor.refusing refuses).run host (depth + 1) () task m =
      Engine.rule host ⟨depth, (Supervisor.refusing refuses).run host depth ()⟩ task m :=
    Supervisor.run_eq_rule (htask m) (Ends.of_forall (fun _ _ => trivial) _)
  exact hfree.trans (congrFun hrule m)

namespace Regime

variable {R : Regime} {host : Host} {refuses : Task → Machine → Prop} {m : Machine}

structure Rules (R : Regime) (host : Host) (refuses : Task → Machine → Prop) : Prop where
  lawful : R.Lawful
  admits : ∀ task m, R.inv m.store → R.Asks m.store task → ¬ refuses task m →
    R.Admits m.store task
  suits : ∀ E, R.Serves E → R.Suits E host

/-- The supervisor refuses the same tasks and holds nothing against what the regime allows. -/
structure Contents (R : Regime) (refuses : Task → Machine → Prop) (T : Supervisor Unit) :
    Prop where
  admits : ∀ task m, R.inv m.store → R.Asks m.store task →
    (T.admits () task m ↔ ¬ refuses task m)
  accepts : ∀ task m o m', R.inv m.store → R.Asks m.store task → R.inv m'.store →
    R.keeps m.store m'.store → T.accepts () task m o m'

theorem Contents.refusing : R.Contents refuses (.refusing refuses) :=
  ⟨fun _ _ _ _ => .rfl, fun _ _ _ _ _ _ _ _ => trivial⟩

/-- Whatever a supervisor that is content with the regime cuts off has been refused, and what has
not been cut off has kept to the regime. -/
theorem Rules.run_eq (h : R.Rules host refuses) {T : Supervisor Unit} (hT : R.Contents refuses T)
    (bound : Nat) : ∀ task m, R.inv m.store → R.Asks m.store task →
      T.run host bound () task m = (Supervisor.refusing refuses).run host bound () task m ∧
        Ends (fun _ m' => R.inv m'.store ∧ R.keeps m.store m'.store)
          ((Supervisor.refusing refuses).run host bound () task m) := by
  induction bound with
  | zero => exact fun _ _ _ _ => ⟨rfl, trivial⟩
  | succ depth ih =>
    intro task m hm hasks
    by_cases hrefused : refuses task m
    · have hleft : T.run host (depth + 1) () task m = _ :=
        Supervisor.run_of_refused fun h => (hT.admits task m hm hasks).mp h hrefused
      have hright : (Supervisor.refusing refuses).run host (depth + 1) () task m = _ :=
        Supervisor.run_of_refused fun h => h hrefused
      rw [hleft, hright]
      exact ⟨rfl, trivial⟩
    · -- One level down the two runs are the same, which is all that the rule asks of its engines.
      let E : Engines := ⟨⟨depth, T.run host depth ()⟩,
        ⟨depth, (Supervisor.refusing refuses).run host depth ()⟩, rfl⟩
      have hserves : R.Serves E := fun task' m' hasks' hm' =>
        ⟨(ih task' m' hm' hasks').1,
          (ih task' m' hm' hasks').2.mono fun o _ hend => ⟨hend, by cases o <;> trivial⟩⟩
      obtain ⟨heq, hends⟩ := abides_rule h.lawful hserves (h.suits E hserves)
        (h.admits task m hm hasks hrefused) hm
      have hkept := hends.mono fun _ _ hend => hend.1
      have hright : (Supervisor.refusing refuses).run host (depth + 1) () task m =
          Engine.rule host E.right task m :=
        Supervisor.run_eq_rule hrefused (hends.mono fun _ _ _ => trivial)
      have hleft : T.run host (depth + 1) () task m = Engine.rule host E.left task m :=
        Supervisor.run_eq_rule ((hT.admits task m hm hasks).mpr hrefused)
          ((congrArg (Ends _) heq).mpr (hkept.mono fun o m' hend =>
            hT.accepts task m o m' hm hasks hend.1 hend.2))
      exact ⟨hleft.trans (heq.trans hright.symm), hright ▸ hkept⟩

theorem Rules.ends (h : R.Rules host refuses) {bound : Nat} {task : Task} (hm : R.inv m.store)
    (hasks : R.Asks m.store task) (hfree : RunsFreely refuses host bound task m) :
    Ends (fun _ m' => R.inv m'.store ∧ R.keeps m.store m'.store) (runTask host bound task m) := by
  rw [← hfree]
  exact (h.run_eq .refusing bound task m hm hasks).2

theorem Rules.serves (h : R.Rules host refuses) (depth : Nat) :
    R.Serves ⟨⟨depth, (Supervisor.refusing refuses).run host depth ()⟩,
      ⟨depth, (Supervisor.refusing refuses).run host depth ()⟩, rfl⟩ :=
  fun task m hasks hm => ⟨rfl, (h.run_eq .refusing depth task m hm hasks).2.mono fun o _ hend =>
    ⟨hend, by cases o <;> trivial⟩⟩

end Regime

end ProtoScript
