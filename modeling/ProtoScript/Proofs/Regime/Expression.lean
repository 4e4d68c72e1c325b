import ProtoScript.Proofs.Integrity.Value
import ProtoScript.Proofs.Regime
/-!
# Expressions and native functions under a regime

Expressions, patterns and native functions make no scopes of their own.  So they are routines, and a
regime allows what these are put together from.  Object literals are apart: they put properties in
their places whatever is there, which a regime permits on new objects only.
-/

namespace ProtoScript

theorem Store.hasClosure_of_callable? {s : Store} {function : Value} {d : FunctionDef}
    {scope : ScopeId} (h : s.callable? function = some (.closure d scope)) :
    s.HasClosure d scope := by
  obtain ⟨r, hr, hcallable⟩ := Option.bind_eq_some_iff.mp h
  obtain ⟨id, _, hobject⟩ := Option.bind_eq_some_iff.mp hr
  exact ⟨id, r, hobject, hcallable⟩

namespace Regime

variable {R : Regime} {E : Engines} {m : Machine} {scope : ScopeId}

def setting (R : Regime) (scope : ScopeId) : Setting where
  asks task := ∀ s, R.inv s → R.stands s scope → R.Asks s task
  constructs := True
  ends _ := True
  makes _ place := place = scope ∨ place = .global
  step s s' := R.stands s scope → R.Leads s s'

structure OnWay (R : Regime) (scope : ScopeId) (m m' : Machine) : Prop where
  inv : R.inv m'.store
  keeps : R.keeps m.store m'.store
  stands : R.stands m'.store scope

theorem OnWay.later (hR : R.Lawful) {m' : Machine} (h : R.OnWay scope m m') (m'' : Machine)
    (hinv : R.inv m''.store) (hkeeps : R.keeps m'.store m''.store) : R.OnWay scope m m'' :=
  ⟨hinv, hR.trans h.keeps hkeeps, hR.stays hkeeps h.stands⟩

/-! ### What the setting allows -/

theorem keeps_constructWith (hR : R.Lawful) (h : R.Serves E) (function : Value)
    (arguments : List Value) (description : String) :
    E.Keeps (R.OnWay scope m) (fun _ => True)
      fun e => e.constructWith function arguments description := by
  intro m₁ hway
  refine .step (m₁.store.isConstructor function) m₁ rfl ?_
  by_cases hconstructor : m₁.store.isConstructor function = true
  · simp only [hconstructor, if_true]
    refine (h (.construct function arguments) m₁ trivial hway.inv).mono ?_
    rintro o m₂ ⟨⟨hinv, hkeeps⟩, hc⟩
    exact ⟨hway.later hR m₂ hinv hkeeps, hc⟩
  · simp only [hconstructor]
    obtain ⟨f, hf⟩ : ∃ f, f = Fault.notConstructor description := ⟨_, rfl⟩
    rw [← hf]
    have hrecord : R.Leads m₁.store (m₁.store.allocate (.error f.kind f.message)).2 :=
      leads_allocate hR _ ⟨rfl, nofun, nofun⟩
    obtain ⟨hinv, hkeeps⟩ := hrecord hway.inv
    exact ⟨rfl, hway.later hR { m₁ with store := (m₁.store.allocate _).2 } hinv hkeeps, trivial⟩

theorem fits (hR : R.Lawful) (h : R.Serves E) :
    (R.setting scope).Fits E (R.OnWay scope m) fun _ => True where
  step m₁ s hway hstep := by
    obtain ⟨hinv, hkeeps⟩ := hstep hway.stands hway.inv
    exact hway.later hR { m₁ with store := s } hinv hkeeps
  output _ _ hway := ⟨hway.inv, hway.keeps, hway.stands⟩
  newTarget _ hway := ⟨hway.inv, hway.keeps, hway.stands⟩
  ends _ _ := trivial
  task task hasks := by
    intro m₁ hway
    refine (h task m₁ (hasks m₁.store hway.inv hway.stands) hway.inv).mono ?_
    rintro o m₂ ⟨⟨hinv, hkeeps⟩, hc⟩
    exact ⟨hway.later hR m₂ hinv hkeeps, hc⟩
  closure d place hplace := by
    unfold Eval.newClosure Eval.newFunction
    refine .updateGet fun m₁ hway => ?_
    have hstands : R.stands m₁.store place := by
      rcases hplace with rfl | rfl
      · exact hway.stands
      · exact hR.global hway.inv
    have hleads : R.Leads m₁.store (m₁.store.newFunction (.closure d place)).2 :=
      leads_newFunction hR fun _ _ heq => by cases heq; exact hstands
    obtain ⟨hinv, hkeeps⟩ := hleads hway.inv
    exact ⟨hinv, hR.trans hway.keeps hkeeps, hR.stays hkeeps hway.stands⟩
  construct function arguments description _ :=
    keeps_constructWith hR h function arguments description

theorem Abides.routine (hR : R.Lawful) (h : R.Serves E) (hscope : R.stands m.store scope)
    {α : Type} {F : Engine → Eval α} (hF : Routine (R.setting scope) F) :
    R.Abides E m F Anything := by
  intro hm
  refine (hF.keeps (fits hR h) m ⟨hm, hR.refl _, hscope⟩).mono ?_
  rintro o m' ⟨hway, hc⟩
  exact ⟨⟨hway.inv, hway.keeps⟩, hc⟩

theorem ordinary (hR : R.Lawful) (scope : ScopeId) : (R.setting scope).Ordinary where
  allocate s _ h _ := leads_allocate hR s h
  set s id key value _ := leads_set hR s id key value
  delete s id key _ := leads_delete hR s id key
  link s id prototype _ := leads_link hR s id prototype
  throws _ := trivial
  calls _ _ _ _ _ _ := trivial

theorem evaluates (hR : R.Lawful) (scope : ScopeId) :
    (R.setting scope).Evaluates (fun _ => True) scope where
  toOrdinary := ordinary hR scope
  assign _ name value hscope := leads_assign hR hscope name value
  bindGlobal s name value _ := leads_bindGlobal hR s name value
  nameFunction s function name _ := leads_nameFunction hR s function name
  part _ _ := trivial
  asks _ _ _ hscope := hscope
  makes _ := .inl rfl
  constructs := trivial
  directEval _ _ _ hscope := hscope

theorem binds (hR : R.Lawful) (scope : ScopeId) (fresh : Bool) :
    (R.setting scope).Binds (fun _ => True) (fun _ => True) scope fresh where
  toEvaluates := evaluates hR scope
  target _ _ := trivial
  expression _ _ := trivial
  binds _ _ _ _ hscope := hscope
  bindFresh _ _ name value hscope := leads_bind hR hscope name value

theorem native (hR : R.Lawful) : (R.setting .global).Native where
  toOrdinary := ordinary hR .global
  indirectEval _ _ _ _ := trivial
  functionOfText _ _ := .inr rfl

/-- What every setting for operations on values allows keeps to the regime. -/
theorem Abides.ordinary (hR : R.Lawful) (h : R.Serves E) {α : Type} {F : Engine → Eval α}
    (hF : ∀ S : Setting, S.Ordinary → Routine S F) : R.Abides E m F Anything :=
  .intro fun hm => .routine hR h (hR.global hm) (hF _ (Regime.ordinary hR .global))

/-! ### Expressions and patterns -/

variable (hR : R.Lawful) (h : R.Serves E)

include h

theorem abides_evaluate (x : Expr) (hscope : R.stands m.store scope) :
    R.Abides E m (fun e => e.evaluate x scope) Anything :=
  h (.evaluate x scope) m hscope

theorem abides_bind (p : Pattern) (value : Value) (fresh : Bool)
    (hscope : R.stands m.store scope) :
    R.Abides E m (fun e => e.bind p value scope fresh) Anything :=
  h (.bind p value scope fresh) m hscope

include hR

theorem abides_evaluateOption (x : Option Expr) (hscope : R.stands m.store scope) :
    R.Abides E m (fun e => e.evaluateOption x scope) Anything := by
  cases x with
  | none => exact .pure hR trivial
  | some x => exact .bind hR (abides_evaluate h x hscope) fun _ _ _ _ => .pure hR trivial

/-- The properties of a literal are put in their places in the new object. -/
theorem abides_properties {id : ObjectId} (hid : R.takes m.store id) (ps : List Property)
    (hscope : R.stands m.store scope) :
    R.Abides E m (fun e => e.properties id scope ps) Anything := by
  induction ps generalizing m with
  | nil => exact .pure hR trivial
  | cons p rest ih =>
    have hproperty : R.Abides E m (fun e => e.property p scope) Anything :=
      .routine hR h hscope (.property (evaluates hR scope) fun _ _ => trivial)
    refine .bind hR hproperty fun entry m₁ hkeeps₁ _ => ?_
    have hid₁ := hR.stillTakes hkeeps₁ hid
    refine .bind hR (.update (leads_insert hR _ (.inl hid₁))) fun _ m₂ hkeeps₂ _ => ?_
    exact ih (hR.stillTakes hkeeps₂ hid₁) (hR.stays hkeeps₂ (hR.stays hkeeps₁ hscope))

theorem abides_objectLiteral (ps : List Property) (hscope : R.stands m.store scope) :
    R.Abides E m (fun e => e.expression (.object ps) scope) Anything := by
  intro hm
  have hobject : R.Abides E m (fun _ => Eval.updateGet fun s => s.newObject)
      fun id m₁ => id = m.store.newObject.1 ∧ m₁.store = m.store.newObject.2 :=
    .updateGet (leads_allocate hR _ ⟨rfl, nofun, nofun⟩)
  refine Abides.bind hR hobject (fun id m₁ hkeeps₁ hid => ?_) hm
  have hnew : R.takes m₁.store id := by
    rw [hid.1, hid.2]
    exact hR.makes hm rfl
  exact .bind hR (abides_properties hR h hnew ps (hR.stays hkeeps₁ hscope)) fun _ _ _ _ =>
    .pure hR trivial

theorem abides_expression (x : Expr) (hscope : R.stands m.store scope) :
    R.Abides E m (fun e => e.expression x scope) Anything := by
  by_cases hliteral : ∃ ps, x = .object ps
  · obtain ⟨ps, rfl⟩ := hliteral
    exact abides_objectLiteral hR h ps hscope
  · refine .routine hR h hscope (.expression (evaluates hR scope) trivial fun ps hps => ?_)
    exact absurd ⟨ps, hps⟩ hliteral

theorem abides_bindPattern (p : Pattern) (value : Value) (fresh : Bool)
    (hscope : R.stands m.store scope) :
    R.Abides E m (fun e => e.bindPattern p value scope fresh) Anything :=
  .routine hR h hscope (.bindPattern (binds hR scope fresh) trivial value)

theorem abides_declaration (d : Declaration) (hscope : R.stands m.store scope) :
    R.Abides E m (fun e => e.declaration d scope) Anything :=
  .routine hR h hscope
    (.declaration (binds hR scope _) (fun _ _ => trivial) fun _ _ _ _ => trivial)

theorem abides_bindParameters (parameters : List Pattern) (arguments : List Value)
    (hscope : R.stands m.store scope) :
    R.Abides E m (fun e => e.bindParameters scope parameters arguments) Anything :=
  .routine hR h hscope (.bindParameters (binds hR scope true) (fun _ _ => trivial) arguments)

theorem abides_fault {α : Type} {post : α → Machine → Prop} (f : Fault) :
    R.Abides E m (fun _ => (Eval.fault f : Eval α)) post := by
  have herror : R.Abides E m (fun _ => Eval.allocate (.error f.kind f.message)) Anything :=
    .ordinary hR h fun _ hS => .allocate hS ⟨rfl, nofun, nofun⟩
  exact .bind hR herror fun error _ _ _ => .complete hR _

theorem abides_toObject (value : Value) :
    R.Abides E m (fun _ => Eval.toObject value) Anything :=
  .ordinary hR h fun _ hS => .toObject hS value

/-! ### Native functions -/

theorem abides_native {host : Host} (hhost : R.Suits E host) (f : Native) (receiver : Value)
    (arguments : List Value) (hadmits : R.Admits m.store (.native f receiver arguments)) :
    R.Abides E m (fun e => f.run host e receiver arguments) Anything := by
  by_cases hforeign : ∃ name arity, f = .host name arity
  · obtain ⟨name, arity, rfl⟩ := hforeign
    exact hhost name receiver arguments m
  -- What is not the host's runs alike with any other host.
  have hsame (e : Engine) : f.run host e receiver arguments = f.run .none e receiver arguments := by
    cases f with
    | host name arity => exact absurd ⟨name, arity, rfl⟩ hforeign
    | _ => rfl
  simp only [hsame]
  refine .intro fun hm => .routine hR h (hR.global hm) ?_
  refine .native (native hR) (fun _ _ _ => .pure _) f receiver fun hdefine id hid s key p _ => ?_
  subst hdefine
  exact leads_define hR s (hadmits id hid) key p

/-- What a courteous host may do keeps to the regime, if the programs that it asks for do. -/
theorem abides_courteous
    (hprograms : ∀ p (m : Machine), R.Abides E m (fun e => e.run (.program p)) Anything)
    {hand : List Value} {F : Engine → Eval Value} (hF : Courteous hand F) :
    R.Abides E m F Anything := by
  induction hF generalizing m with
  | finish o held => exact .resume hR fun _ _ => trivial
  | fault f => exact abides_fault hR h f
  | ask task asks held =>
    cases task with
    | program p => exact hprograms p m
    | call function receiver arguments => exact h (.call function receiver arguments) m trivial
    | indirectEval text => exact h (.indirectEval text) m trivial
    | _ => exact asks.elim
  | getMember base key held => exact .ordinary hR h fun _ hS => .getMember hS base key
  | setMember base key value strict held =>
    have hset : R.Abides E m (fun _ => Eval.setMember base key value strict) Anything :=
      .ordinary hR h fun _ hS => .setMember hS base key value strict
    exact .bind hR hset fun _ _ _ _ => .pure hR trivial
  | newArray values held => exact .ordinary hR h fun _ hS => .newFullArray hS values
  | writeLine line => exact .aside () _ rfl rfl (.pure hR trivial)
  | consult f _ ih =>
    refine .bind hR (.read hR) fun a m₁ _ hread => ?_
    exact ih a
  | andThen _ _ ihF ihG => exact .bind hR ihF.attempt fun o m₁ _ _ => ihG o

theorem suits_of_courteous (hprograms : R.programs) {host : Host} (hhost : host.Courteous) :
    R.Suits E host :=
  fun name receiver arguments _ =>
    abides_courteous hR h (fun p m => h (.program p) m hprograms) (hhost name receiver arguments)

omit h in
theorem suits_of_detached {host : Host} (hhost : host.Courteous) (hdetached : host.Detached) :
    R.Suits E host := by
  intro name receiver arguments m hm
  -- The functions do the same as with an engine that carries nothing out.
  have hidle (task : Task) (m : Machine) :
      R.Abides ⟨.idle, .idle, rfl⟩ m (fun e => e.run task) Anything :=
    fun _ => ⟨rfl, trivial⟩
  have habides : R.Abides ⟨.idle, .idle, rfl⟩ m (fun e => host name e receiver arguments)
      Anything :=
    abides_courteous hR (fun task m _ => hidle task m) (fun p m => hidle (.program p) m)
      (hhost name receiver arguments)
  obtain ⟨-, hends⟩ := habides hm
  have hsame (e : Engine) : host name e receiver arguments = host name .idle receiver arguments :=
    hdetached name e .idle receiver arguments
  exact ⟨congrFun ((hsame E.left).trans (hsame E.right).symm) m,
    (congrArg (Ends _) (congrFun (hsame E.right) m)).mpr hends⟩

end Regime

end ProtoScript
