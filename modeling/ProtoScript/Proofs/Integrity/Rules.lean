import ProtoScript.Proofs.Integrity.Builtin
import ProtoScript.Proofs.Integrity.Call
import ProtoScript.Proofs.Integrity.Value
/-!
# The rules keep the machine intact

Each rule ends its task as the supervisor of integrity accepts it, provided that the task does not
redeclare a settled name whose bindings are to be kept, or a parameter that is to stay a variable.
If nothing is looked after, no task is ever refused.
-/

namespace ProtoScript

/-- The scope binds the name for good already, and the task gives the name its first value there or
hoists a declaration of it to there: a function of a sloppy text or of a program, or what a program
declares lexically. -/
def Task.Redeclares (id : ScopeId) (name : String) (task : Task) (m : Machine) : Prop :=
  m.store.Fixes id name ∧
    match task with
    | .bind (.identifier bound) _ scope true => scope = id ∧ bound = name
    | .directEval text scope =>
      m.store.varScope scope = id ∧ Integrity.HoistsFunction text (m.store.isStrict scope) name
    | .indirectEval text =>
      m.store.varScope .global = id ∧ Integrity.HoistsFunction text false name
    | .program p =>
      ScopeId.global = id ∧
        name ∈ Stmt.functionNames p.body ++ p.body.flatMap Grammar.lexicalNames
    | _ => False

/-- A call of a function that makes its parameters, and shares them, in one of the scopes calls a
function whose body declares none of them as anything but a variable. -/
def Task.KeepsParameters (task : Task) (J : ScopeId → Prop) (m : Machine) : Prop :=
  match task with
  | .closure d _ _ _ _ => J (d.parameterScope m.store) → d.SharesArguments → d.KeepsParameters
  | _ => True

theorem Task.keepsParameters_of_none (task : Task) (m : Machine) :
    task.KeepsParameters (fun _ => False) m := by
  cases task with
  | closure d scope function receiver arguments => exact nofun
  | _ => trivial

/-- Where the call of a function expression makes the scope for its name, it is recorded that the
function finds itself there. -/
def Task.NamesSelf (θ : Ledger) (task : Task) (m : Machine) : Prop :=
  match task with
  | .closure d _ function _ _ =>
    ∀ name ∈ d.selfName?, θ ⟨m.store.scopes.size⟩ = some (.self name function d.strict)
  | _ => True

namespace Integrity

variable {W : Focus} {E : EngineFamily} {seat : Seat} {note receiver : Value} {e e' : Engine}
  {n : Nat} {m : Machine} {host : Host} {function : Value} {arguments : List Value}

section

variable (h : Backs W seat E)

include h

theorem upholds_dispatch {callable : Callable} {target : Option Value}
    (htarget : ∀ v ∈ target, m.Knows v) (hfunction : m.Knows function)
    (hreceiver : m.Knows receiver) (harguments : ∀ v ∈ arguments, m.Knows v)
    (hcallable : ∀ d scope, callable = .closure d scope →
      m.store.callable? function = some (.closure d scope) ∧ d.Sound ∧
        scope.index < m.store.scopes.size) :
    Upholds E W n m (fun e =>
      match callable with
      | .native f => e.callNative target f receiver arguments
      | .closure d scope => e.run (.closure d scope function receiver arguments)) Known := by
  have hvalues := List.forall_mem_cons.mpr ⟨hreceiver, harguments⟩
  cases callable with
  | closure d scope =>
    exact .task h (List.forall_mem_cons.mpr ⟨hfunction, hvalues⟩) (hcallable d scope rfl)
      fun _ _ => trivial
  | native f =>
    refine .aside () { m with newTarget := target } rfl rfl (fun hm => ⟨hm.store, htarget⟩) ?_
    have hnative : Upholds E W n { m with newTarget := target }
        (fun e => e.run (.native f receiver arguments)) Known :=
      .task h hvalues trivial fun _ _ => trivial
    refine .bind hnative.attempt fun outcome m₁ _ houtcome => ?_
    refine .aside () { m₁ with newTarget := none } rfl rfl (fun hm => ⟨hm.store, nofun⟩) ?_
    refine .resume ?_
    cases outcome <;> exact houtcome

theorem upholds_callRule (hfunction : m.Knows function) (hreceiver : m.Knows receiver)
    (harguments : ∀ v ∈ arguments, m.Knows v) :
    Upholds E W n m (fun e => e.callRule function receiver arguments) Known := by
  refine .intact fun hm => ?_
  refine .aside m.newTarget { m with newTarget := none } rfl rfl (fun hm => ⟨hm.store, nofun⟩) ?_
  refine .aside (m.store.callable? function) { m with newTarget := none } rfl rfl id ?_
  cases hcallable : m.store.callable? function with
  | none => exact .bind .read fun _ _ _ _ => .fault _
  | some callable =>
    have henter := Eval.enterCall_eq { m with newTarget := none }
    by_cases hlimit : m.settings.maxCallDepth ≤ m.callDepth
    · have hfault : Upholds E W n { m with newTarget := none }
          (fun _ => Eval.enterCall) fun _ _ => False :=
        .of_eq (henter.trans (if_pos hlimit)) (.fault .callDepth)
      exact .bind hfault fun _ _ _ hnever => hnever.elim
    · rw [if_neg hlimit] at henter
      refine .aside () _ henter rfl (fun hm => ⟨hm.store, hm.newTarget⟩) ?_
      have hdispatch : Upholds E W n
          { m with newTarget := none, callDepth := m.callDepth + 1 } (fun e =>
            match callable with
            | .native f => e.callNative m.newTarget f receiver arguments
            | .closure d scope => e.run (.closure d scope function receiver arguments)) Known := by
        refine upholds_dispatch h hm.newTarget hfunction hreceiver harguments fun d scope heq => ?_
        rw [heq] at hcallable
        exact ⟨hcallable, hm.store.sound.of_callable? hcallable⟩
      refine .bind hdispatch.attempt fun outcome m₁ _ houtcome => ?_
      refine .aside () { m₁ with callDepth := m₁.callDepth - 1 } rfl rfl
        (fun hm => ⟨hm.store, hm.newTarget⟩) (.resume ?_)
      cases outcome <;> exact houtcome

theorem upholds_construct (hfunction : m.Knows function)
    (harguments : ∀ v ∈ arguments, m.Knows v) :
    Upholds E W n m (fun e => e.construct function arguments) Known := by
  refine .bind (upholds_newInstance hfunction) fun receiver m₁ hlater₁ hreceiver => ?_
  have hfunction₁ := hlater₁.within hfunction
  refine .aside () { m₁ with newTarget := some function } rfl rfl (fun hm => ⟨hm.store, ?_⟩) ?_
  · rintro v ⟨⟩
    exact hfunction₁
  have hcall : Upholds E W n { m₁ with newTarget := some function }
      (fun e => e.call function receiver arguments) Known :=
    .call h hfunction₁ hreceiver fun v hv => hlater₁.within (harguments v hv)
  refine .bind hcall.attempt fun outcome m₂ hlater₂ houtcome => ?_
  refine .aside () { m₂ with newTarget := none } rfl rfl (fun hm => ⟨hm.store, nofun⟩) ?_
  cases outcome with
  | ok result =>
    refine .pure ?_
    split
    · exact houtcome
    · exact hlater₂.within hreceiver
  | error c => exact .complete houtcome

/-- A program runs in the global scope, which is as strict as it is meant to be meanwhile. -/
theorem upholds_program (hplain : seat.body = none) {p : Program} (hp : p.Sound)
    (hscope : Inner seat n m .global)
    (hcareful : ∀ name, W.settled .global name → ¬ (Task.program p).Redeclares .global name m) :
    Upholds E W n m (fun e => e.program p) Known := by
  refine .bind .read fun strict m₁ _ hstrict => ?_
  obtain ⟨_, rfl⟩ := hstrict
  have hset : Upholds E W n m₁
      (fun _ => Eval.setStrict .global (strict || p.strict)) fun _ m' => ∀ name,
        m'.store.binding? .global name = m₁.store.binding? .global name := by
    refine (Upholds.update fun hs => hs.setStrict .global _).mono fun _ m' _ hstore name => ?_
    rw [hstore, Store.binding?_modifyScope, if_pos rfl]
    rfl
  refine .bind hset fun _ m₂ hlater₂ hkept => .intact fun hm₂ => ?_
  have hfresh : Fresh W n m₂.store .global .global p.body := by
    refine ⟨fun name hname hwatched b hb hsettled => ?_,
      fun name _ _ hshared => (hm₂.store.shares .global name hshared).1 rfl,
      fun name hname hwatched b hb hsettled => ?_⟩
    · rw [hkept] at hb
      exact hcareful name hwatched.2 ⟨⟨b, hb, hsettled⟩, rfl, List.mem_append_left _ hname⟩
    · rw [hkept] at hb
      exact hcareful name hwatched.2 ⟨⟨b, hb, hsettled⟩, rfl, List.mem_append_right _ hname⟩
  have hscope₂ := hscope.later hlater₂
  have hstands₂ := hscope₂.stands
  refine .bind (upholds_hoistBody hp ⟨hstands₂.there, hstands₂.there⟩
    ⟨hstands₂.isOpen, hstands₂.isOpen⟩ hfresh) fun _ m₃ hlater₃ _ => ?_
  have hstatements : Upholds E W n m₃ (fun e => e.statements .global p.body .undefined)
      Known :=
    upholds_statements h (recordedAt_of_plain hplain) hp (hscope₂.stands.later hlater₃)
      m₃.knows_undefined
  refine .bind hstatements.attempt fun outcome m₄ _ houtcome => ?_
  refine .bind (.update fun hs => hs.setStrict .global _) fun _ m₅ hlater₅ _ => ?_
  exact .resume (houtcome.later hlater₅)

end

theorem stands_global (hm : m.Intact) : m.Stands (m.store.this .global) .global :=
  ⟨⟨hm.store.sound.global, rfl⟩, hm.store.named.open_global⟩

/-- A task that may begin at its seat, and that redeclares no settled name whose bindings are to be
kept and no parameter that is to stay a variable, is carried out with a ledger as without any and
ends as it may end. -/
theorem upheld_rule (hhost : host.Courteous) {task : Task} (hm : m.Intact)
    (hvalues : ∀ v ∈ task.values, m.Knows v) (hready : task.ReadyAt seat m)
    (hjoins : m.store.Joins W.joined)
    (hcareful : ∀ id name, W.settled id name → ¬ task.Redeclares id name m)
    (hkeeps : task.KeepsParameters W.joined m) (h : Backs W (seat.inside task m) E) :
    (∃ θ, E.Records m (fun e => Engine.rule host e task) θ ∧ task.NamesSelf θ m) ∧
      Ends ((supervisor W).accepts seat.receiver task m) (Engine.rule host E.right task m) := by
  have hsince : m.IntactSince W m.store.scopes.size := ⟨hm, Nat.le_refl _, hjoins⟩
  have hends {θ : Ledger} {F : Engine → Eval Value} (hthis : ∀ scope, task ≠ .evaluate .this scope)
      (hF : Upheld E W m.store.scopes.size m F Known θ) :
      Ends ((supervisor W).accepts seat.receiver task m) (F E.right m) := by
    refine hF.ends.mono ?_
    rintro o m' ⟨hlater, hm', hended⟩
    exact ⟨hlater, hm', hended, fun scope heq => absurd heq (hthis scope)⟩
  have hplainly {F : Engine → Eval Value} (hthis : ∀ scope, task ≠ .evaluate .this scope)
      (hselfless : ∀ θ, task.NamesSelf θ m) (hF : Upholds E W m.store.scopes.size m F Known) :
      (∃ θ, E.Records m F θ ∧ task.NamesSelf θ m) ∧
        Ends ((supervisor W).accepts seat.receiver task m) (F E.right m) := by
    obtain ⟨θ, hupheld⟩ := hF hsince
    exact ⟨⟨θ, hupheld.records, hselfless θ⟩, hends hthis hupheld⟩
  cases task with
  | evaluate x scope =>
    obtain ⟨hx, hseated⟩ := hready
    have hstands := hseated.stands
    by_cases hthis : x = .this
    · subst hthis
      refine ⟨⟨_, EngineFamily.records_nothing _, trivial⟩, .refl m.store, hm,
        hm.store.within_this scope, fun _ _ => ?_⟩
      exact congrArg Except.ok hstands.receiver
    · refine hplainly (fun _ heq => hthis ?_) (fun _ => trivial)
        (upholds_expression h hx (hstands.seated none))
      cases heq
      rfl
  | execute s scope labels =>
    obtain ⟨⟨t, hs⟩, hseated⟩ := hready
    exact hplainly nofun (fun _ => trivial)
      (upholds_statement h rfl hs ⟨hseated.stands.seated none, Nat.le_refl _⟩)
  | bind p value scope fresh =>
    obtain ⟨hp, hseated⟩ := hready
    have hvalue := hvalues value (List.mem_singleton_self _)
    refine hplainly nofun (fun _ => trivial) (.bind
      (upholds_bindPattern h hp (hseated.stands.seated none) hvalue ?_)
        fun _ _ _ _ => .pure trivial)
    rintro name rfl rfl hwatched b hb hsettled
    exact hcareful scope name hwatched ⟨⟨b, hb, hsettled⟩, rfl, rfl⟩
  | call function receiver arguments =>
    obtain ⟨hfunction, hrest⟩ := List.forall_mem_cons.mp hvalues
    obtain ⟨hreceiver, harguments⟩ := List.forall_mem_cons.mp hrest
    exact hplainly nofun (fun _ => trivial) (upholds_callRule h hfunction hreceiver harguments)
  | closure d scope function receiver arguments =>
    obtain ⟨-, hd, hscope⟩ := hready
    obtain ⟨hfunction, hrest⟩ := List.forall_mem_cons.mp hvalues
    obtain ⟨hreceiver, harguments⟩ := List.forall_mem_cons.mp hrest
    obtain ⟨θ, hupheld, hself⟩ := upheld_callClosure h hd ⟨⟨hscope, rfl⟩, .here, Nat.le_refl _⟩
      (Nat.le_refl _) rfl rfl hfunction hreceiver harguments hkeeps hsince
    exact ⟨⟨θ, hupheld.records, hself⟩, hends nofun hupheld⟩
  | native f receiver arguments =>
    obtain ⟨hreceiver, harguments⟩ := List.forall_mem_cons.mp hvalues
    refine hplainly nofun (fun _ => trivial)
      (upholds_native h f (fun name arity _ => ?_) hreceiver harguments)
    exact .courteous h (hhost name receiver arguments) hvalues
  | construct constructor arguments =>
    obtain ⟨hconstructor, harguments⟩ := List.forall_mem_cons.mp hvalues
    exact hplainly nofun (fun _ => trivial) (upholds_construct h hconstructor harguments)
  | directEval text scope =>
    have htext := hvalues text (List.mem_singleton_self _)
    refine hplainly nofun (fun _ => trivial)
      (.aside (x := Eval.isStrict scope) (m.store.isStrict scope) m rfl rfl id ?_)
    exact upholds_evaluateText h rfl htext ⟨hready.stands.seated none, Nat.le_refl _⟩
      fun name hwatched hfixes hhoists => hcareful _ name hwatched ⟨hfixes, rfl, hhoists⟩
  | indirectEval text =>
    have htext := hvalues text (List.mem_singleton_self _)
    exact hplainly nofun (fun _ => trivial) (upholds_evaluateText h rfl htext
      ⟨(stands_global hm).seated none, Nat.le_refl _⟩
      fun name hwatched hfixes hhoists => hcareful _ name hwatched ⟨hfixes, rfl, hhoists⟩)
  | program p =>
    exact hplainly nofun (fun _ => trivial) (upholds_program h rfl hready
      ⟨(stands_global hm).seated none, Nat.le_refl _⟩ (hcareful .global))

theorem backs_of_agrees (h : (supervisor W).Agrees seat.receiver e e') :
    Backs W seat (.const e e' h.rounds) := by
  intro task m hm hvalues hready hjoins
  have hadmits : (supervisor W).admits seat.receiver task m := ⟨hm, hvalues, hready.ready, hjoins⟩
  exact ⟨⟨.empty, fun _ _ _ _ => h.run task m hadmits, fun _ _ _ _ _ => nofun⟩,
    h.ends task m hadmits⟩

/-- A task that may begin, and that redeclares no settled name whose bindings are to be kept and no
parameter that is to stay a variable, is carried out in lockstep and ends as it may end. -/
theorem alike_rule (hhost : host.Courteous) {task : Task}
    (hadmits : (supervisor W).admits note task m)
    (hcareful : ∀ id name, W.settled id name → ¬ task.Redeclares id name m)
    (hkeeps : task.KeepsParameters W.joined m)
    (h : (supervisor W).Agrees ((supervisor W).inside note task m) e e') :
    h.engines.Alike m (fun e => Engine.rule host e task) ((supervisor W).accepts note task m) := by
  obtain ⟨hm, hvalues, hready, hjoins⟩ := hadmits
  have hback : Backs W (Seat.inside ⟨note, task.place, m.store.scopes.size, none⟩ task m)
      (.const e e' h.rounds) := backs_of_agrees h
  obtain ⟨⟨θ, hrecords, -⟩, hends⟩ :=
    upheld_rule hhost hm hvalues hready.readyAt hjoins hcareful hkeeps hback
  exact ⟨hrecords.run_eq (Ledger.holdsIn_empty _) trivial, hends⟩

theorem governs (hhost : host.Courteous) : (supervisor .nothing).Governs host :=
  fun _ task m _ _ hadmits h =>
    alike_rule hhost hadmits (fun _ _ => False.elim) (task.keepsParameters_of_none m) h

end Integrity

/-!
### Runs that are recorded

For every run there is a ledger that says of each scope, also of those that are made on the way,
what it is for, and that is never wrong.  A supervisor may consult it wherever a task begins or
ends.
-/

/-- What holds in the end, unless the computation is cut off, holds of how it ends. -/
theorem Ends.and_ending {α : Type} {Q : Except Abrupt α → Machine → Prop} {P : Machine → Prop}
    {r : EStateM.Result Stop Machine α} (hQ : Ends Q r) (hP : ∀ m ∈ ending? r, P m) :
    Ends (fun o m => Q o m ∧ P m) r := by
  cases r with
  | ok value m => exact ⟨hQ, hP m rfl⟩
  | error stop m =>
    cases stop with
    | abrupt c => exact ⟨hQ, hP m rfl⟩
    | exhausted => trivial

/-- What is recorded for the scope of a function's own name is recorded by every ledger that agrees
on the scopes that the task makes. -/
theorem Task.NamesSelf.of_makes {θ θ' : Ledger} {task : Task} {m : Machine} {E : EngineFamily}
    {F : Engine → Eval Value} (h : task.NamesSelf θ m) (hrecords : E.Records m F θ)
    (hsame : ∀ id, Makes m (F E.right m) id → θ' id = θ id) : task.NamesSelf θ' m := by
  cases task with
  | closure d scope function receiver arguments =>
    intro name hname
    have hentry := h name hname
    refine (hsame _ ⟨Nat.le_refl _, fun m' hend => ?_⟩).trans hentry
    exact (hrecords.holds m' hend _ _ (Nat.le_refl _) hentry).lt
  | _ => trivial

namespace Integrity

/-- Supervisors that ask no more of a task than that the code is sound and at its seat, and that the
ledger is right where the task begins and where it ends. -/
structure Lenient {Other : Type} (T : Ledger → Supervisor Other) (coarsen : Seat → Other) :
    Prop where
  inside : ∀ θ seat task m,
    (T θ).inside (coarsen seat) task m = coarsen (seat.inside task m)
  admits : ∀ θ seat task m, m.Intact → (∀ v ∈ task.values, m.Knows v) → task.ReadyAt seat m →
    θ.HoldsIn m.store → task.Recorded θ seat → task.NamesSelf θ m →
      (T θ).admits (coarsen seat) task m
  accepts : ∀ θ seat task m o m', m'.Intact → θ.HoldsIn m'.store →
    (T θ).accepts (coarsen seat) task m o m'

variable {Other : Type} {T : Ledger → Supervisor Other} {coarsen : Seat → Other} {host : Host}

noncomputable def supervised (host : Host) (T : Ledger → Supervisor Other)
    (coarsen : Seat → Other) (depth : Nat) (seat : Seat) : EngineFamily where
  left θ := ⟨depth, (T θ).run host depth (coarsen seat)⟩
  right := ⟨depth, runTask host depth⟩
  rounds _ := rfl
  heeds _ := True

/-- With the right ledger, no supervisor that is lenient ever stops a run. -/
theorem Lenient.backs (hhost : host.Courteous) (h : Lenient T coarsen) (depth : Nat) :
    ∀ seat, Backs .nothing seat (supervised host T coarsen depth seat) := by
  induction depth with
  | zero =>
    intro seat task m _ _ _ _
    exact ⟨⟨.empty, fun _ _ _ _ => rfl, fun _ _ _ _ _ => nofun⟩, trivial⟩
  | succ depth ih =>
    intro seat task m hm hvalues hready hjoins
    obtain ⟨⟨θ, hrecords, hself⟩, hends⟩ := upheld_rule hhost hm hvalues hready hjoins
      (fun _ _ => False.elim) (task.keepsParameters_of_none m) (ih (seat.inside task m))
    refine ⟨⟨θ, fun θ' hheeds hholds hsame => ?_, hrecords.holds⟩, hends⟩
    have hrule : Engine.rule host
        ⟨depth, (T θ').run host depth ((T θ').inside (coarsen seat) task m)⟩ task m =
        runTask host (depth + 1) task m := by
      rw [h.inside]
      exact hrecords.same θ' trivial hholds hsame
    have hretains := hends.ending fun _ _ haccepted => haccepted.1.retains
    have hended := hends.and_ending fun m' hend =>
      hrecords.holdsIn hholds hsame hend (hretains m' hend)
    have hadmits := h.admits θ' seat task m hm hvalues hready hholds hheeds.2
      (hself.of_makes hrecords hsame)
    refine (Supervisor.run_eq_rule hadmits ?_).trans hrule
    rw [hrule]
    exact hended.mono fun o m' hkept => h.accepts θ' seat task m o m' hkept.1.2.1 hkept.2

theorem Lenient.exists_run_eq (hhost : host.Courteous) (h : Lenient T coarsen) {seat : Seat}
    {task : Task} {m : Machine} (hm : m.Intact) (hvalues : ∀ v ∈ task.values, m.Knows v)
    (hready : task.ReadyAt seat m) (hplain : seat.body = none) {θ₀ : Ledger}
    (h₀ : θ₀.HoldsIn m.store) (bound : Nat) :
    ∃ θ : Ledger, (∀ id, id.index < m.store.scopes.size → θ id = θ₀ id) ∧
      (T θ).run host bound (coarsen seat) task m = runTask host bound task m := by
  obtain ⟨⟨θ, hrecords⟩, -⟩ :=
    h.backs hhost bound seat task m hm hvalues hready fun _ _ => False.elim
  refine ⟨θ₀.continued m.store.scopes.size θ, fun _ hid => Ledger.continued_of_lt hid,
    hrecords.run_eq h₀ ⟨trivial, ?_⟩⟩
  cases task with
  | execute s scope labels =>
    intro entry hentry
    rw [hplain] at hentry
    cases hentry
  | _ => trivial

end Integrity

end ProtoScript
