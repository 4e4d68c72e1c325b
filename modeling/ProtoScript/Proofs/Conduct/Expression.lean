import ProtoScript.Proofs.Conduct
/-!
# The conduct of expressions and patterns

Expressions, patterns and native functions make no scopes of their own, so they are routines in a
setting that allows the tasks that the supervisor admits from now on.
-/

namespace ProtoScript.Conduct

variable {may : Abrupt → Prop} {n : Note} {e e' : Engine} {m : Machine} {scope : ScopeId}

/-- What evaluation may do from a machine on, without scopes and statements of its own. -/
def setting (may : Abrupt → Prop) (n : Note) (m : Machine) : Setting where
  asks task := (∀ s scope labels, task ≠ .execute s scope labels) ∧
    ∀ m', m.store.Extends m'.store → m'.store.Sound → (supervisor may).admits n task m'
  constructs := True
  ends := may
  makes d scope := d.Sound ∧ scope.index < m.store.scopes.size
  step := Store.Grows

theorem Advances.task (h : (supervisor may).Agrees n e e') {task : Task}
    (hadmits : m.store.Sound → (supervisor may).admits n task m) :
    Advances h.engines (n.targets.Leaves may task) m (fun e => e.run task) fun _ _ => True :=
  fun hm => h.alike (hadmits hm)

theorem may_of_leaves {t : Targets} {task : Task}
    (htask : ∀ s scope labels, task ≠ .execute s scope labels) {c : Abrupt}
    (h : t.Leaves may task c) : may c := by
  cases task with
  | execute s scope labels => exact absurd rfl (htask s scope labels)
  | _ => exact h

structure Ground (n : Note) (m : Machine) : Prop where
  sound : m.store.Sound
  script : m.store.isStrict .global = n.strictness.script

theorem Ground.later {m' : Machine} (h : Ground n m) (hlater : m.store.Extends m'.store) :
    m'.store.isStrict .global = n.strictness.script :=
  (hlater.isStrict_eq h.sound.global).trans h.script

theorem keeps_constructWith (h : (supervisor may).Agrees n e e') (hm : Ground n m)
    (hthrown : ∀ v, may (.thrown v)) (function : Value) (arguments : List Value)
    (description : String) :
    h.engines.Keeps (fun m' => m.store.Extends m'.store ∧ m'.store.Sound) may
      fun e => e.constructWith function arguments description := by
  rintro m₁ ⟨hlater, hsound⟩
  refine .step (m₁.store.isConstructor function) m₁ rfl ?_
  by_cases hconstructor : m₁.store.isConstructor function = true
  · simp only [hconstructor, if_true]
    have hadmits : (supervisor may).admits n (.construct function arguments) m₁ :=
      ⟨hsound, hm.later hlater, trivial⟩
    have htask : ∀ s scope labels, Task.construct function arguments ≠ .execute s scope labels :=
      nofun
    refine (h.alike hadmits).mono ?_
    rintro o m₂ ⟨hlater', hsound', hc⟩
    have hmay : Completes may (fun _ _ => True) o m₂ :=
      hc.mono (fun _ => may_of_leaves htask) fun _ _ => trivial
    exact ⟨⟨hlater.trans hlater', hsound'⟩, hmay⟩
  · simp only [hconstructor]
    refine Engines.Keeps.fault ?_ hthrown _ m₁ ⟨hlater, hsound⟩
    rintro m₂ r hr ⟨hlater', hsound'⟩
    have hgrows : m₂.store.Grows (m₂.store.allocate r).2 :=
      m₂.store.grows_allocate fun d scope hc => by rw [hr] at hc; cases hc
    exact ⟨hlater'.trans hgrows.later, hsound'.grows hgrows⟩

theorem fits (h : (supervisor may).Agrees n e e') (hm : Ground n m)
    (hthrown : ∀ v, may (.thrown v)) :
    (setting may n m).Fits h.engines (fun m' => m.store.Extends m'.store ∧ m'.store.Sound) may := by
  refine ⟨?_, fun _ _ h => h, fun _ h => h, fun _ h => h, ?_, ?_, ?_⟩
  · rintro m₁ s ⟨hlater, hsound⟩ hgrows
    exact ⟨hlater.trans hgrows.later, hsound.grows hgrows⟩
  · rintro task ⟨htask, hadmits⟩
    refine h.gives (fun m₁ hm₁ => hadmits m₁ hm₁.1 hm₁.2) ?_
    rintro m₁ o m₂ ⟨hlater, _⟩ ⟨hlater', hsound', hc⟩
    have hmay : Completes may (fun _ _ => True) o m₂ :=
      hc.mono (fun _ => may_of_leaves htask) fun _ _ => trivial
    exact ⟨⟨hlater.trans hlater', hsound'⟩, hmay⟩
  · rintro d scope ⟨hd, hscope⟩
    unfold Eval.newClosure Eval.newFunction
    refine .updateGet ?_
    rintro m₁ ⟨hlater, hsound⟩
    have hlater' := m₁.store.extends_newFunction (.closure d scope)
    refine ⟨hlater.trans hlater', hsound.newClosure hd ?_⟩
    exact Nat.lt_of_lt_of_le hscope hlater.size_le
  · intro function arguments description _
    exact keeps_constructWith h hm hthrown function arguments description

theorem Advances.routine (h : (supervisor may).Agrees n e e')
    (hscript : m.store.isStrict .global = n.strictness.script) (hthrown : ∀ v, may (.thrown v))
    {α : Type} {F : Engine → Eval α} (hF : m.store.Sound → Routine (setting may n m) F) :
    Advances h.engines may m F fun _ _ => True := by
  intro hm
  have hkeeps := (hF hm).keeps (fits h ⟨hm, hscript⟩ hthrown)
  refine (hkeeps m ⟨.refl _, hm⟩).mono ?_
  rintro o m' ⟨⟨hlater, hsound⟩, hc⟩
  exact ⟨hlater, hsound, hc⟩

theorem growing (hm : Ground n m) (hthrown : ∀ v, may (.thrown v)) :
    (setting may n m).Growing where
  grows h := h
  throws := hthrown
  calls _ _ _ := ⟨nofun, fun _ hlater hsound => ⟨hsound, hm.later hlater, trivial⟩⟩

theorem evaluates (hm : Ground n m) (hthrown : ∀ v, may (.thrown v))
    (hosts : m.store.Hosts n.strictness scope) :
    (setting may n m).Evaluates Expr.Sound scope where
  toAssigns := (growing hm hthrown).assigns scope
  nameFunction s function name := s.grows_nameFunction function name
  part h := h.part
  asks hx := ⟨nofun, fun _ hlater hsound => ⟨hsound, hm.later hlater, hx, hosts.later hlater⟩⟩
  makes hd := ⟨hd.definition, hosts.there⟩
  constructs := trivial
  directEval _ := ⟨nofun, fun _ hlater hsound => ⟨hsound, hm.later hlater, hosts.later hlater⟩⟩

theorem Advances.growing (h : (supervisor may).Agrees n e e')
    (hscript : m.store.isStrict .global = n.strictness.script) (hthrown : ∀ v, may (.thrown v))
    {α : Type} {F : Engine → Eval α} (hF : ∀ S : Setting, S.Growing → Routine S F) :
    Advances h.engines may m F fun _ _ => True :=
  .routine h hscript hthrown fun hm => hF _ (Conduct.growing ⟨hm, hscript⟩ hthrown)

def Bindable (n : Note) (s : Store) (scope : ScopeId) (fresh : Bool) (p : Pattern) : Prop :=
  p.Sound ∧ Prepared s scope fresh n.declaring p.boundNames

theorem prepared_declareAll {s : Store} (hscope : scope.index < s.scopes.size)
    (names : List String) (kind : BindingKind) (declaring : Bool) :
    Prepared (s.declareAll scope names kind) scope true declaring names :=
  fun _ hname => s.hasOwnBinding_declareAll hscope names kind hname

/-- Each declarator of a declaration binds names of the declaration. -/
theorem Bindable.of_declarator {s : Store} {d : Declaration} {fresh : Bool}
    (hd : d.Sound) (hnames : Prepared s scope fresh n.declaring d.boundNames)
    {declarator : Declarator} (hmem : declarator ∈ d.declarators) :
    Bindable n s scope fresh declarator.target := by
  cases hd with
  | intro targets inits =>
    refine ⟨targets declarator hmem, fun name hname => hnames name ?_⟩
    exact List.mem_flatMap.mpr ⟨declarator, hmem, hname⟩

theorem binds (hm : Ground n m) (hthrown : ∀ v, may (.thrown v))
    (hosts : m.store.Hosts n.strictness scope) (fresh : Bool) :
    (setting may n m).Binds Expr.Sound (Bindable n m.store scope fresh) scope fresh where
  toEvaluates := evaluates hm hthrown hosts
  target h hq :=
    ⟨h.1.part hq, fun name hname => h.2 name (Pattern.boundNames_of_mem_parts hq name hname)⟩
  expression h hx := h.1.expression hx
  binds _ h := ⟨nofun, fun _ hlater hsound =>
    ⟨hsound, hm.later hlater, h.1, hosts.later hlater, h.2.later hlater⟩⟩
  bindFresh _ s name value := s.grows_bind scope name value

/-- A program that is a function expression alone makes a sound function. -/
theorem native (hm : Ground n m) (hthrown : ∀ v, may (.thrown v)) :
    (setting may n m).Native where
  toOrdinary := (growing hm hthrown).ordinary
  indirectEval _ := ⟨nofun, fun _ hlater hsound => ⟨hsound, hm.later hlater, trivial⟩⟩
  functionOfText hp hbody := ⟨FunctionDef.sound_ofString hp hbody, hm.sound.global⟩

/-! ### What statements use of expressions -/

variable (h : (supervisor may).Agrees n e e') (hthrown : ∀ v, may (.thrown v))

include h

theorem advances_evaluate {x : Expr} (hx : x.Sound) (hosts : m.store.Hosts n.strictness scope) :
    Advances h.engines may m (fun e => e.evaluate x scope) fun _ _ => True :=
  .task h fun hm => ⟨hm, hosts.script, hx, hosts⟩

theorem advances_evaluateOption {x : Option Expr} (hx : ∀ y ∈ x, y.Sound)
    (hosts : m.store.Hosts n.strictness scope) :
    Advances h.engines may m (fun e => e.evaluateOption x scope) fun _ _ => True := by
  cases x with
  | none => exact .pure trivial
  | some x => exact .bind (advances_evaluate h (hx x rfl) hosts) fun _ _ _ _ => .pure trivial

theorem advances_bind {p : Pattern} {fresh : Bool} (hp : Bindable n m.store scope fresh p)
    (hosts : m.store.Hosts n.strictness scope) (value : Value) :
    Advances h.engines may m (fun e => e.bind p value scope fresh) fun _ _ => True :=
  .task h fun hm => ⟨hm, hosts.script, hp.1, hosts, hp.2⟩

include hthrown

theorem advances_declaration {d : Declaration} (hd : d.Sound)
    (hosts : m.store.Hosts n.strictness scope)
    (hnames : Prepared m.store scope d.kind.isLexical n.declaring d.boundNames) :
    Advances h.engines may m (fun e => e.declaration d scope) fun _ _ => True := by
  refine .routine h hosts.script hthrown fun hm => ?_
  have hbinds := binds ⟨hm, hosts.script⟩ hthrown hosts d.kind.isLexical
  have htargets : ∀ declarator ∈ d.declarators,
      Bindable n m.store scope d.kind.isLexical declarator.target :=
    fun _ hmem => .of_declarator hd hnames hmem
  cases hd with
  | intro targets inits => exact .declaration hbinds htargets inits

theorem advances_fault (hscript : m.store.isStrict .global = n.strictness.script) {α : Type}
    {post : α → Machine → Prop} (f : Fault) :
    Advances h.engines may m (fun _ => (Eval.fault f : Eval α)) post := by
  have herror : Advances h.engines may m (fun _ => Eval.allocate (.error f.kind f.message))
      fun _ _ => True :=
    .growing h hscript hthrown fun _ hS => .allocate hS.ordinary ⟨rfl, nofun, nofun⟩
  exact .bind herror fun error _ _ _ => .complete (hthrown error)

theorem advances_toObject (hosts : m.store.Hosts n.strictness scope) (value : Value) :
    Advances h.engines may m (fun _ => Eval.toObject value) fun _ _ => True :=
  .growing h hosts.script hthrown fun _ hS => .toObject hS.ordinary value

end ProtoScript.Conduct
