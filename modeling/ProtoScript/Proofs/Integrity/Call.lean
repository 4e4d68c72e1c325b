import ProtoScript.Proofs.Integrity.Hoist
import ProtoScript.Proofs.Integrity.Statement
import ProtoScript.Proofs.Integrity.Parameters
/-!
# The integrity of functions and texts

The body of a function runs in a scope with the receiver of the call, or for an arrow function that
of the code around it; it declares no parameter that is shared as anything but a variable, if that
is asked for.  Evaluated texts have the receiver of the code around them, and the variables and
functions of a sloppy one go to a scope that was there before.
-/

namespace ProtoScript

open Store

namespace Engine

/-- Makes the scope of the parameters of a call, and binds all that is bound in it. -/
def enterParameters (e : Engine) (d : FunctionDef) (outer : ScopeId) (function given : Value)
    (arguments : List Value) : Eval ScopeId := do
  let parameters ← (do
    let parameters ← Eval.openScope outer (.parameters (wantsArguments d)) d.strict
    bindThis d given parameters
    return parameters)
  (do
    bindArguments d function arguments parameters
    Eval.update fun s => s.declareAll parameters d.parameterNames
      (if d.hasSimpleParameters then .variable else .letBound))
  e.bindParameters parameters d.parameters arguments
  return parameters

/-- The scope of the body: that of the parameters, or a scope of its own if these are more than mere
names. -/
def enterBody (d : FunctionDef) (parameters : ScopeId) : Eval ScopeId :=
  if d.hasSimpleParameters then do
    Eval.update fun s => s.modifyScope parameters fun scope => { scope with kind := .function }
    return parameters
  else bodyScope d parameters

/-- Makes the scope of the body, with all that the body declares. -/
def openBody (d : FunctionDef) (parameters : ScopeId) : Eval ScopeId := do
  let inner ← enterBody d parameters
  Eval.hoistBody d.body inner inner
  return inner

def runBody (e : Engine) (d : FunctionDef) (inner : ScopeId) : Eval Value := do
  match ← Eval.attempt (e.statements inner d.body .undefined) with
  | .error (.returned value) => return value
  | .error (.thrown exception) => Eval.complete (.thrown exception)
  | _ => return .undefined

theorem activate_eq (e : Engine) (d : FunctionDef) (scope : ScopeId) (function given : Value)
    (arguments : List Value) :
    e.activate d scope function given arguments = (do
      let outer ← selfScope d scope function
      let parameters ← e.enterParameters d outer function given arguments
      enterBody d parameters) := by
  simp only [activate, enterParameters, enterBody, bind_assoc, pure_bind]

/-- A call makes the scopes for its own name, for its parameters and for its body, and executes the
body. -/
theorem callClosure_eq (e : Engine) (d : FunctionDef) (scope : ScopeId) (function given : Value)
    (arguments : List Value) :
    e.callClosure d scope function given arguments = (do
      let outer ← selfScope d scope function
      let parameters ← e.enterParameters d outer function given arguments
      let inner ← openBody d parameters
      e.runBody d inner) := by
  unfold callClosure
  rw [activate_eq]
  simp only [openBody, bind_assoc, pure_bind]
  rfl

end Engine

theorem FunctionDef.Sound.parameters {d : FunctionDef} (hd : d.Sound) :
    ∀ p ∈ d.parameters, p.Sound := by
  cases hd with
  | intro hparameters _ _ => exact hparameters

theorem FunctionDef.Sound.body {d : FunctionDef} (hd : d.Sound) :
    ∀ s ∈ d.body, s.Sound .function [] := by
  cases hd with
  | intro _ hbody _ => exact hbody

namespace Integrity

variable {E : EngineFamily} {W : Focus} {seat : Seat} {n : Nat}
  {m : Machine} {scope : ScopeId} {function given : Value} {arguments : List Value}
  {d : FunctionDef} {s : Store}

/-! ### The scope of the parameters -/

/-- The scope of the parameters with all parameters bound, after a call of the function has begun on
a store. -/
structure Prepared (seat : Seat) (n : Nat) (d : FunctionDef) (s : Store) (parameters : ScopeId)
    (m : Machine) : Prop where
  inner : Inner seat n m parameters
  new : n ≤ parameters.index
  place : parameters = d.parameterScope s
  shares : SharesParameters d parameters m.store
  given : d.Given m.store parameters
  holds : m.store.HoldsVars parameters

section

variable (h : Backs W seat E)

include h

theorem upholds_bindParameters {parameters : List Pattern} (hparameters : ∀ p ∈ parameters, p.Sound)
    (hstands : m.Seated seat scope) (harguments : ∀ v ∈ arguments, m.Knows v) :
    Upholds E W n m (fun e => e.bindParameters scope parameters arguments) Anything := by
  induction parameters generalizing m arguments with
  | nil => exact .pure trivial
  | cons p rest ih =>
    obtain ⟨hp, hrest⟩ := List.forall_mem_cons.mp hparameters
    have htail {m' : Machine} (hlater : m.store.Evolves (Watched W n) m'.store) :
        Upholds E W n m' (fun e => e.bindParameters scope rest arguments.tail) Anything :=
      ih hrest (hstands.later hlater) fun v hv =>
        hlater.within (harguments v (List.mem_of_mem_tail hv))
    have hfirst : m.Knows (arguments.headD .undefined) := by
      cases arguments with
      | nil => trivial
      | cons v _ => exact harguments v (List.mem_cons_self ..)
    have hplain : Upholds E W n m (fun e => (do
        let _ ← e.bind p (arguments.headD .undefined) scope true
        e.bindParameters scope rest arguments.tail : Eval Unit)) Anything :=
      .bind (upholds_bind h hp hstands hfirst true) fun _ _ hlater _ => htail hlater
    cases p with
    | rest target =>
      have htarget : target.Sound := hp.part (List.mem_singleton.mpr rfl)
      refine .bind (.newFullArray harguments) fun array m₁ hlater₁ harray => ?_
      exact .bind (upholds_bind h htarget (hstands.later hlater₁) harray true)
        fun _ _ hlater₂ _ => htail (hlater₁.trans hlater₂)
    | _ => exact hplain

/-- In the scope of the parameters, `this` is the receiver of the call, or for an arrow function
that of the code around it. -/
theorem upholds_enterParameters {outside : Value} (hd : d.Sound)
    (hscope : m.Meets { seat with receiver := outside } scope) (hn : n ≤ m.store.scopes.size)
    (hsize : m.store.scopes.size = (d.parameterScope s).index)
    (hreceiver : seat.receiver = if d.isArrow then outside else m.receiverFor d given)
    (hfunction : m.Knows function) (hgiven : m.Knows given)
    (harguments : ∀ v ∈ arguments, m.Knows v) :
    Upholds E W n m (fun e => e.enterParameters d scope function given arguments)
      (Prepared seat n d s) := by
  refine .bind (upholds_parameterScope hscope hn _ hgiven) fun parameters m₁ hlater₁ hopened => ?_
  simp only [← hreceiver] at hopened
  obtain ⟨hinner₁, hvacant, hindex, hholds⟩ := hopened
  have hkind : (if d.hasSimpleParameters then BindingKind.variable
      else .letBound).isSelfName = false := by
    split <;> rfl
  refine .bind ((upholds_declareParameters hd (hlater₁.within hfunction)
    (fun v hv => hlater₁.within (harguments v hv)) hvacant (fun hsimple => if_pos hsimple)
    hkind).also fun _ _ heq => Engine.given_of_declareParameters hvacant.there heq)
    fun _ m₂ hlater₂ hdeclared => ?_
  obtain ⟨hshares₂, hgiven₂⟩ := hdeclared
  have hinner₂ := hinner₁.later hlater₂
  have harguments₂ := fun v hv => hlater₂.within (hlater₁.within (harguments v hv))
  refine .bind (upholds_bindParameters h hd.parameters hinner₂.stands harguments₂).since
    fun _ m₃ hlater₃ hshares₃ => .pure ⟨hinner₂.later hlater₃, hvacant.new,
      congrArg ScopeId.mk (hindex.trans hsize), fun name hshared => ?_,
      fun name hname => hlater₃.retains.hasOwnBinding (hgiven₂ name hname), ?_⟩
  · exact hshares₂ name (hshares₃.2 parameters name hinner₂.stands.there hshared)
  · exact hlater₃.retains.holdsVars (hlater₂.retains.holdsVars (hholds rfl))

end

/-! ### The scope of the body -/

/-- The scope for the body of a function, after a call of it has begun on a store.  What is shared
in it are parameters of the function. -/
structure Entered (seat : Seat) (n : Nat) (d : FunctionDef) (s : Store) (inner : ScopeId)
    (m : Machine) : Prop where
  stands : m.Seated seat inner
  new : n ≤ inner.index
  shares : ∀ name, m.store.Shares inner name →
    d.SharesArguments ∧ name ∈ d.parameterNames ∧ inner = d.parameterScope s

/-- What the body of a function declares may be hoisted, if it keeps the parameters. -/
theorem Entered.fresh (h : Entered seat n d s scope m)
    (hkeeps : W.joined (d.parameterScope s) → d.SharesArguments → d.KeepsParameters) :
    Fresh W n m.store scope scope d.body := by
  refine .of_new h.new (fun name hname hjoined hshared => ?_) fun name _ hwatched =>
    absurd hwatched (not_watched h.new name)
  obtain ⟨hshares, hparameter, hplace⟩ := h.shares name hshared
  have hwatched := hjoined.resolve_left (Nat.not_lt.mpr h.new)
  exact hkeeps (hplace ▸ hwatched) hshares name hparameter hname

/-- The scope of a body of its own is a new one in that of the parameters. -/
abbrev Apart (d : FunctionDef) (parameters : ScopeId) (m : Machine) (inner : ScopeId)
    (m' : Machine) : Prop :=
  d.hasSimpleParameters = false →
    inner = ⟨m.store.scopes.size⟩ ∧ m'.store.Inside inner parameters

/-- The body of a function has a scope of its own if the parameters have one. -/
theorem upholds_bodyScope (hd : d.Sound) (hscope : Inner seat n m scope) :
    Upholds E W n m (fun _ => Engine.bodyScope d scope) fun inner m' =>
      Entered seat n d s inner m' ∧ Apart d scope m inner m' := by
  have hmade : Upholds E W n m (fun _ => Eval.newScope scope .function) fun inner m' =>
      (Inner seat n m' inner ∧ m'.store.Vacant n inner) ∧
        inner = ⟨m.store.scopes.size⟩ ∧ m'.store.Inside inner scope := by
    refine (upholds_newScope hscope .function).also ?_
    rintro _ _ ⟨⟩
    exact ⟨rfl, inside_newScope .function hscope.stands.there⟩
  refine .bind hmade fun inner m₁ _ hinner => ?_
  obtain ⟨⟨hinner, hvacant⟩, hplace, hinside⟩ := hinner
  have hnames : ∀ name ∈ Stmt.varNamesOfList d.body, name ≠ "this" :=
    fun name hname => (usable_varNamesOfList hd.body name hname).ne_this
  refine .intact fun hm => ?_
  have hseeded : m₁.store.Leads (Watched W n).closed
      ((Stmt.varNamesOfList d.body).foldl (Engine.seedVariable d scope inner) m₁.store) :=
    hm.store.seedVariables d scope hnames (fun name _ => not_watched hvacant.new name)
      hvacant.there hvacant.isOpen
  refine .bind (.update fun _ => hseeded.of_closed) fun _ m₂ hlater hstore =>
    .pure ⟨⟨hinner.stands.later hlater, hvacant.new, fun name hshared => ?_⟩,
      fun _ => ⟨hplace, hlater.retains.inside hinside⟩⟩
  rw [hstore] at hshared
  exact absurd (hseeded.evolves.comesBy.shares trivial hshared) (hvacant.unshared name)

theorem upholds_enterBody (hd : d.Sound) (hprepared : Prepared seat n d s scope m) :
    Upholds E W n m (fun _ => Engine.enterBody d scope) fun inner m' =>
      Entered seat n d s inner m' ∧ Apart d scope m inner m' := by
  refine .ite (fun hsimple => ?_) fun _ => upholds_bodyScope hd hprepared.inner
  have hkeeps : ∀ a, m.store.scope? scope = some a →
      ScopeKind.function.holdsVars = a.kind.holdsVars := by
    obtain ⟨a, ha, hholds⟩ := hprepared.holds
    intro b hb
    cases ha.symm.trans hb
    exact hholds.symm
  refine .bind (.update fun hs => hs.setKind scope hkeeps) fun _ m₁ hlater hstore =>
    .pure ⟨⟨hprepared.inner.stands.later hlater, hprepared.new, fun name hshared => ?_⟩,
      fun hcomplex => absurd hsimple (Bool.eq_false_iff.mp hcomplex)⟩
  rw [hstore] at hshared
  obtain ⟨hshares, hparameter⟩ := hprepared.shares name (hshared.of_objects rfl)
  exact ⟨hshares, hparameter, hprepared.place⟩

theorem upholds_hoisted (hd : d.Sound) (hentered : Entered seat n d s scope m)
    (hkeeps : W.joined (d.parameterScope s) → d.SharesArguments → d.KeepsParameters) :
    Upholds E W n m (fun _ => Eval.hoistBody d.body scope scope) Anything :=
  upholds_hoistBody hd.body ⟨hentered.stands.there, hentered.stands.there⟩
    ⟨hentered.stands.isOpen, hentered.stands.isOpen⟩ (hentered.fresh hkeeps)

/-- The scope of a body is opened with all that the body declares, and it is recorded what it is for
if the body has a scope of its own. -/
theorem upheld_openBody (hd : d.Sound) (hprepared : Prepared seat n d s scope m)
    (hkeeps : W.joined (d.parameterScope s) → d.SharesArguments → d.KeepsParameters)
    (hm : m.IntactSince W n) :
    ∃ θ, Upheld E W n m (fun _ => Engine.openBody d scope) (fun inner m' =>
      m'.Seated seat inner ∧ ∀ entry ∈ d.bodyEntry s, m.store.scopes.size ≤ inner.index ∧
        θ inner = some entry) θ := by
  obtain ⟨inner, m₁, henter⟩ : ∃ inner m₁, Engine.enterBody d scope m = .ok inner m₁ := by
    unfold Engine.enterBody
    split <;> exact ⟨_, _, rfl⟩
  obtain ⟨hlater₁, hm₁, hentered, hapart⟩ :=
    (upholds_enterBody (E := E) hd hprepared).of_ok hm henter
  have hthere := hentered.stands.there
  obtain ⟨s', hhoist, hgains⟩ := gainsNames_hoistBody d.body hthere hthere
  obtain ⟨hlater₂, hm₂, -⟩ := (upholds_hoisted (E := E) hd hentered hkeeps).of_ok hm₁ hhoist
  have hrun : Engine.openBody d scope m = .ok inner { m₁ with store := s' } := by
    simp only [Engine.openBody, Bind.bind, EStateM.bind, henter, hhoist]
    rfl
  have hbody : ∀ entry ∈ d.bodyEntry s, m.store.scopes.size ≤ inner.index ∧
      entry.Holds s' inner := by
    intro entry hentry
    unfold FunctionDef.bodyEntry at hentry
    split at hentry
    · cases hentry
    · next hcomplex =>
      cases hentry
      obtain ⟨hplace, hinside⟩ := hapart (Bool.eq_false_iff.mpr hcomplex)
      refine ⟨Nat.le_of_eq (congrArg ScopeId.index hplace).symm, ?_, fun name hname => ?_⟩
      · rw [← hprepared.place]
        exact hlater₂.retains.inside hinside
      · exact (hgains inner name).mpr (.inr (.inl ⟨rfl, FunctionDef.mem_bodyNames.mp hname⟩))
  refine ⟨fun id => if id = inner then d.bodyEntry s else none,
    EngineFamily.records_of_const ?_, ?_⟩
  · rw [hrun]
    rintro _ ⟨⟩ id entry _ hentry
    split at hentry
    · next heq => exact heq ▸ (hbody entry hentry).2
    · cases hentry
  · show Ends _ (Engine.openBody d scope m)
    rw [hrun]
    exact ⟨hlater₁.trans hlater₂, hm₂.toIntact, hentered.stands.later hlater₂,
      fun entry hentry => ⟨(hbody entry hentry).1, (if_pos rfl).trans hentry⟩⟩

/-! ### The call -/

section

variable (h : Backs W seat E)

include h

theorem upholds_runBody (hd : d.Sound) (hstands : m.Seated seat scope)
    (hrecorded : RecordedAt E seat scope) :
    Upholds E W n m (fun e => e.runBody d scope) Known := by
  refine .bind (upholds_statements h hrecorded hd.body hstands m.knows_undefined).attempt
    fun outcome m₁ _ houtcome => ?_
  split
  · exact .pure houtcome
  · exact .complete houtcome
  · exact .pure trivial

/-- A call is carried out with a ledger that says what the scope for the function's own name is for.
In the body, `this` is the receiver of the call, or for an arrow function that of the code around
it. -/
theorem upheld_callClosure (hd : d.Sound)
    (hscope : m.Meets { seat with receiver := m.store.this scope } scope)
    (hn : n ≤ m.store.scopes.size)
    (hreceiver : seat.receiver = if d.isArrow then m.store.this scope else m.receiverFor d given)
    (hbody : seat.body = d.bodyEntry m.store)
    (hfunction : m.Knows function) (hgiven : m.Knows given)
    (harguments : ∀ v ∈ arguments, m.Knows v)
    (hkeeps : W.joined (d.parameterScope m.store) → d.SharesArguments → d.KeepsParameters)
    (hm : m.IntactSince W n) :
    ∃ θ, Upheld E W n m (fun e => e.callClosure d scope function given arguments) Known θ ∧
      ∀ name ∈ d.selfName?,
        θ ⟨m.store.scopes.size⟩ = some (.self name function d.strict) := by
  rw [funext fun e : Engine => e.callClosure_eq d scope function given arguments]
  obtain ⟨θ, hself, hentry⟩ := upheld_selfScope (E := E) hd hscope hfunction hm
  refine (hself.bind hm fun outer m₁ hlater₁ houter => ?_).imp fun θ' hcall => ⟨hcall.1,
    fun name hname => (hcall.2 _ (hentry name hname).1).trans (hentry name hname).2⟩
  obtain ⟨houter, hsize, hscopes⟩ := houter
  have hback := h.restrict fun θ' => ∀ id, m.store.scopes.size ≤ id.index →
    id.index < m₁.store.scopes.size → θ' id = θ id
  rw [← Machine.receiverFor_congr _ hsize] at hreceiver
  have hprepare := upholds_enterParameters (s := m.store) hback hd houter
    (Nat.le_trans hn hlater₁.size_le) hscopes hreceiver (hlater₁.within hfunction)
    (hlater₁.within hgiven) fun v hv => hlater₁.within (harguments v hv)
  refine .bind hprepare fun parameters m₂ _ hprepared hm₂ => ?_
  obtain ⟨θ₂, hopened⟩ := upheld_openBody hd hprepared hkeeps hm₂
  -- The statements of the body rely on what has just been recorded.
  refine (hopened.bind hm₂ fun inner m₃ _ hinner => ?_).imp fun _ => And.left
  obtain ⟨hstands, hinner⟩ := hinner
  refine upholds_runBody (hback.restrict _) hd hstands fun θ₃ hheeds entry hentry => ?_
  obtain ⟨hnew, hfound⟩ := hinner entry (hbody ▸ hentry)
  exact (hheeds.2 inner hnew hstands.there).trans hfound

/-- Up to its body, a call is carried out in the scopes that it makes. -/
theorem upholds_activate (hd : d.Sound)
    (hscope : m.Meets { seat with receiver := m.store.this scope } scope)
    (hn : n ≤ m.store.scopes.size)
    (hreceiver : seat.receiver = if d.isArrow then m.store.this scope else m.receiverFor d given)
    (hfunction : m.Knows function) (hgiven : m.Knows given)
    (harguments : ∀ v ∈ arguments, m.Knows v) :
    Upholds E W n m (fun e => e.activate d scope function given arguments)
      (Entered seat n d m.store) := by
  rw [funext fun e : Engine => e.activate_eq d scope function given arguments]
  refine .bind (upholds_selfScope hd hscope hfunction) fun outer m₁ hlater₁ houter => ?_
  obtain ⟨houter, hsize, hscopes⟩ := houter
  rw [← Machine.receiverFor_congr _ hsize] at hreceiver
  refine .bind (upholds_enterParameters h hd houter (Nat.le_trans hn hlater₁.size_le) hscopes
    hreceiver (hlater₁.within hfunction) (hlater₁.within hgiven) fun v hv =>
      hlater₁.within (harguments v hv)) fun parameters m₂ _ hprepared => ?_
  exact (upholds_enterBody hd hprepared).mono fun _ _ _ => And.left

end

/-! ### Texts -/

/-- The scopes for a text: strict text has one scope for all its names, and the variables and
functions of other text go to a scope that was there before. -/
theorem upholds_textScopes (p : Program) (strict : Bool) (hscope : Inner seat n m scope) :
    Upholds E W n m (fun _ => Engine.textScopes p scope strict) fun scopes m' =>
      (Inner seat n m' scopes.2 ∧ m'.store.Vacant n scopes.2) ∧
        (scopes.1.index < m'.store.scopes.size ∧ m'.store.Open scopes.1) ∧
        (strict = false → scopes.1 = m.store.varScope scope ∧ ∀ name,
          m'.store.binding? scopes.1 name = m.store.binding? scopes.1 name) ∧
        (strict = true → n ≤ scopes.1.index) := by
  unfold Engine.textScopes
  cases strict with
  | true =>
    refine .bind (upholds_openScope hscope.stands.toMeets hscope.new .eval true)
      fun inner m₁ _ hinner => ?_
    exact .pure ⟨hinner, ⟨hinner.2.there, hinner.2.isOpen⟩, nofun, fun _ => hinner.2.new⟩
  | false =>
    refine .bind .read fun vars m₁ _ hvars => ?_
    obtain ⟨rfl, rfl⟩ := hvars
    refine .bind .read fun kind m₂ _ hkind => ?_
    obtain ⟨_, rfl⟩ := hkind
    refine .ite (fun _ => .fault _) fun _ => ?_
    have hinner : Upholds E W n m₂ (fun _ => Eval.newScope scope .block) fun inner m' =>
        (Inner seat n m' inner ∧ m'.store.Vacant n inner) ∧ ∀ name,
          m'.store.binding? (m₂.store.varScope scope) name =
            m₂.store.binding? (m₂.store.varScope scope) name := by
      refine (upholds_newScope hscope .block).also ?_
      rintro _ _ ⟨⟩ name
      exact m₂.store.binding?_newScope ..
    refine .intact fun hm => .bind hinner fun inner m₁ hlater hinner => ?_
    have hholds := hm.store.holdsVars_varScope hscope.stands.there
    have hthere := Nat.lt_of_le_of_lt (m₂.store.index_varScope_le scope) hscope.stands.there
    exact .pure ⟨hinner.1, ⟨hlater.lt hthere,
      hlater.retains.isOpen hthere (hm.store.named.open_of_holdsVars hholds)⟩,
      fun _ => ⟨rfl, hinner.2⟩, nofun⟩

/-- The text is sloppy and declares a function of that name, which goes to a scope that was there
before. -/
def HoistsFunction (text : Value) (strict : Bool) (name : String) : Prop :=
  ∃ source p, text = .string source ∧ Program.ofString source.toString strict = .ok p ∧
    (strict || p.strict) = false ∧ name ∈ Stmt.functionNames p.body

theorem upholds_evaluateText (h : Backs W seat E) (hplain : seat.body = none) {text : Value}
    {strict : Bool} (htext : m.Knows text)
    (hscope : Inner seat n m scope)
    (hcareful : ∀ name, W.settled (m.store.varScope scope) name →
      m.store.Fixes (m.store.varScope scope) name → ¬ HoistsFunction text strict name) :
    Upholds E W n m (fun e => e.evaluateText text scope strict) Known := by
  cases text with
  | string source =>
    unfold Engine.evaluateText
    dsimp only
    split
    · exact .fault _
    · rename_i p hp
      have hbody : ∀ s ∈ p.body, s.Sound .outside [] := Program.sound_ofString hp
      refine .bind (upholds_textScopes p (strict || p.strict) hscope) fun scopes m₁ _ hscopes => ?_
      obtain ⟨⟨hinner, hvacant⟩, ⟨hvars, hopen⟩, hsloppy, hstrict⟩ := hscopes
      have hfresh : Fresh W n m₁.store scopes.1 scopes.2 p.body := by
        refine .of_new hvacant.new (fun name _ _ => hvacant.unshared name)
          fun name hname hwatched b hb hsettled => ?_
        cases hmode : strict || p.strict with
        | true => exact not_watched (hstrict hmode) name hwatched
        | false =>
          obtain ⟨hplace, hkept⟩ := hsloppy hmode
          rw [hkept] at hb
          rw [hplace] at hb hwatched
          exact hcareful name hwatched.2 ⟨b, hb, hsettled⟩ ⟨source, p, rfl, hp, hmode, hname⟩
      refine .bind (upholds_hoistBody hbody ⟨hvars, hinner.stands.there⟩
        ⟨hopen, hinner.stands.isOpen⟩ hfresh) fun _ m₂ hlater₂ _ => ?_
      exact upholds_statements h (recordedAt_of_plain hplain) hbody (hinner.later hlater₂).stands
        m₂.knows_undefined
  | _ => exact .pure htext

end Integrity

end ProtoScript
