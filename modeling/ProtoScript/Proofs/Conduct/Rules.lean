import ProtoScript.Proofs.Conduct.Call
/-!
# The supervisor never stops a run

The rule for every kind of task, and what follows for the machines that sessions lead to.
-/

namespace ProtoScript.Conduct

variable {may : Abrupt → Prop} {n : Note} {e e' : Engine} {m : Machine} {host : Host}

theorem routine_of_embedding (hm : Ground n m) {α : Type} {F : Engine → Eval α}
    (hF : Routine (.embedding Program.Accepted may) F) : Routine (setting may n m) F := by
  refine Routine.mono (S := .embedding Program.Accepted may) (T := setting may n m) ?_ False.elim
    (fun _ => id) (fun _ _ => False.elim) (fun _ _ => id) hF
  intro task htask
  cases task with
  | call function receiver arguments =>
    exact ⟨nofun, fun _ hlater hsound => ⟨hsound, hm.later hlater, trivial⟩⟩
  | indirectEval text =>
    exact ⟨nofun, fun _ hlater hsound => ⟨hsound, hm.later hlater, trivial⟩⟩
  | program p =>
    exact ⟨nofun, fun _ hlater hsound => ⟨hsound, hm.later hlater, htask.sound⟩⟩
  | _ => exact htask.elim

section

variable (h : (supervisor may).Agrees n e e') (hthrown : ∀ v, may (.thrown v))
  (hscript : m.store.isStrict .global = n.strictness.script)

include h hscript

/-- What is called is a native function, or a closure that is sound. -/
theorem advances_dispatch {callable : Callable} {function receiver : Value}
    {arguments : List Value} (target : Option Value)
    (hcallable : ∀ d scope, callable = .closure d scope →
      d.Sound ∧ scope.index < m.store.scopes.size) :
    Advances h.engines may m (fun e =>
      match callable with
      | .native f => e.callNative target f receiver arguments
      | .closure d scope => e.run (.closure d scope function receiver arguments))
      fun _ _ => True := by
  cases callable with
  | closure d scope => exact .task h fun hm => ⟨hm, hscript, hcallable d scope rfl⟩
  | native f =>
    refine .aside () { m with newTarget := target } rfl rfl ?_
    have hnative : Advances h.engines may { m with newTarget := target }
        (fun e => e.run (.native f receiver arguments)) fun _ _ => True :=
      .task h fun hm => ⟨hm, hscript, trivial⟩
    refine .bind hnative.attempt fun outcome m₁ _ houtcome => ?_
    refine .aside () { m₁ with newTarget := none } rfl rfl (.resume ?_)
    cases outcome <;> exact houtcome

include hthrown

theorem advances_native (hhost : host.Embeds Program.Accepted may) (f : Native) (receiver : Value)
    (arguments : List Value) :
    Advances h.engines may m (fun e => f.run host e receiver arguments) fun _ _ => True := by
  refine .routine h hscript hthrown fun hm => ?_
  have hground : Ground n m := ⟨hm, hscript⟩
  refine .native (native hground hthrown) (fun name receiver arguments => ?_) f receiver
    fun _ id _ s key p => s.grows_define id key p
  exact routine_of_embedding hground (hhost name receiver arguments)

theorem advances_callRule (function receiver : Value) (arguments : List Value) :
    Advances h.engines may m (fun e => e.callRule function receiver arguments) fun _ _ => True := by
  intro hm
  refine Advances.aside m.newTarget { m with newTarget := none } rfl rfl ?_ hm
  refine .aside (m.store.callable? function) { m with newTarget := none } rfl rfl ?_
  cases hcallable : m.store.callable? function with
  | none =>
    refine .bind .read fun word m₁ _ hword => ?_
    obtain ⟨_, rfl⟩ := hword
    exact advances_fault (m := { m with newTarget := none }) h hthrown hscript _
  | some callable =>
    have henter := Eval.enterCall_eq { m with newTarget := none }
    by_cases hlimit : m.settings.maxCallDepth ≤ m.callDepth
    · have hfault : Advances h.engines may { m with newTarget := none }
          (fun _ => Eval.enterCall) fun _ _ => False := fun hm =>
        .of_eq (henter.trans (if_pos hlimit))
          (advances_fault (m := { m with newTarget := none }) h hthrown hscript .callDepth hm)
      exact .bind hfault fun _ _ _ hnever => hnever.elim
    · rw [if_neg hlimit] at henter
      refine .aside () _ henter rfl ?_
      have hdispatch : Advances h.engines may
          { m with newTarget := none, callDepth := m.callDepth + 1 } (fun e =>
            match callable with
            | .native f => e.callNative m.newTarget f receiver arguments
            | .closure d scope => e.run (.closure d scope function receiver arguments))
          fun _ _ => True := by
        refine advances_dispatch (m := { m with newTarget := none, callDepth := m.callDepth + 1 })
          h hscript m.newTarget fun d scope heq => ?_
        rw [heq] at hcallable
        exact hm.of_callable? hcallable
      refine .bind hdispatch.attempt fun outcome m₁ _ houtcome => ?_
      refine .aside () { m₁ with callDepth := m₁.callDepth - 1 } rfl rfl (.resume ?_)
      cases outcome <;> exact houtcome

theorem advances_construct (constructor : Value) (arguments : List Value) :
    Advances h.engines may m (fun e => e.construct constructor arguments) fun _ _ => True := by
  intro hm
  have hinstance : Advances h.engines may m (fun _ => Engine.newInstance constructor)
      fun _ _ => True :=
    .growing h hscript hthrown fun _ hS => .newInstance hS.ordinary constructor
  refine Advances.bind hinstance (fun receiver m₁ hlater _ => ?_) hm
  refine .aside () { m₁ with newTarget := some constructor } rfl rfl ?_
  have hcall : Advances h.engines may { m₁ with newTarget := some constructor }
      (fun e => e.call constructor receiver arguments) fun _ _ => True :=
    .task h fun hm₁ => ⟨hm₁, (hlater.isStrict_eq hm.global).trans hscript, trivial⟩
  refine .bind hcall.attempt fun outcome m₂ _ houtcome => ?_
  refine .aside () { m₂ with newTarget := none } rfl rfl ?_
  cases outcome with
  | ok result => exact .pure trivial
  | error c => exact .complete houtcome

end

/-- A program makes the global scope as strict as it is meant to be and sets it back. -/
theorem alike_program {note : Note} {p : Program}
    (h : (supervisor may).Agrees (note.inside (.program p)) e e')
    (hthrown : ∀ v, may (.thrown v)) (hp : p.Sound) (hm : m.store.Sound)
    (hscript : m.store.isStrict .global = note.strictness.script) :
    h.engines.Alike m (fun e => e.program p) fun o m' =>
      m.store.Extends m'.store ∧ m'.store.Sound ∧ Completes may (fun _ _ => True) o m' := by
  -- While the program runs, the global scope may be stricter than before, so the store is an
  -- extension of the former one only after its strictness has been set back.
  obtain ⟨running, hrunning⟩ : ∃ running : Machine, running = { m with
      store := m.store.modifyScope .global fun a =>
        { a with strict := m.store.isStrict .global || p.strict } } := ⟨_, rfl⟩
  have hsound : running.store.Sound := by
    rw [hrunning]
    exact hm.modifyScope _ _
  have hstrict : running.store.isStrict .global = (note.strictness.script || p.strict) := by
    rw [hrunning, ← hscript]
    exact m.store.isStrict_modifyScope hm.global _
  have hosts : running.store.Hosts (note.inside (.program p)).strictness .global := by
    refine ⟨hsound.global, hstrict.trans ?_, hstrict⟩
    show _ = (p.strict || (!p.strict && (note.strictness.script || p.strict)))
    cases p.strict <;> simp
  obtain ⟨s₁, hhoist, hhoisted, hbound⟩ := hoistBody_eq_ok p.body .global .global running
  have hsound₁ : s₁.Sound :=
    hsound.hoisted hhoisted hosts.there fun d hd => (hp _ hd).definition
  have hdeclares : ∀ s ∈ p.body, s₁.Declares .global s := fun s hs =>
    declares_of_mem
      (fun name hname => Store.resolves_of_hasOwnBinding (hbound hosts.there name hname))
      (hhoisted.names hosts.there) hs
  have hstatements : Advances h.engines (fun _ => False) { running with store := s₁ }
      (fun e => Eval.attempt (e.statements .global p.body .undefined))
      (Completes (Targets.outside.Passes may) fun _ _ => True) :=
    (advances_statements h hp (hosts.later hhoisted.later) hdeclares .undefined).attempt
  refine .step (m.store.isStrict .global) m rfl ?_
  refine .step () running (by rw [hrunning]; rfl) ?_
  refine .step _ _ hhoist ?_
  refine (hstatements hsound₁).bind (fun c m₂ hnever => hnever.2.2.elim) ?_
  rintro outcome m₂ ⟨hlater₂, hsound₂, houtcome⟩
  have hlater : (m.store.modifyScope .global fun a =>
      { a with strict := m.store.isStrict .global || p.strict }).Extends m₂.store := by
    have := hhoisted.later.trans hlater₂
    rw [hrunning] at this
    exact this
  refine .step _ _ rfl (.resume ⟨hlater.restoreStrict, hsound₂.modifyScope _ _, ?_⟩)
  cases outcome with
  | ok value => trivial
  | error c => exact may_of_outside hthrown houtcome

theorem governs (hthrown : ∀ v, may (.thrown v)) (hhost : host.Embeds Program.Accepted may) :
    (supervisor may).Governs host := by
  intro note task m e e' hadmits h
  obtain ⟨hm, hscript, htask⟩ := hadmits
  cases task with
  | evaluate x scope =>
    obtain ⟨hx, hosts⟩ := htask
    exact Advances.routine h hscript hthrown
      (fun hm => .expression (evaluates ⟨hm, hscript⟩ hthrown hosts) hx
        fun _ _ s id key p => s.grows_insert id key p) hm
  | execute s scope labels =>
    obtain ⟨hs, hosts, hdeclares⟩ := htask
    exact advances_statement h hthrown hs hosts hdeclares hm
  | bind p value scope fresh =>
    obtain ⟨hp, hosts, hnames⟩ := htask
    have hbind : Advances h.engines may m (fun e => e.bindPattern p value scope fresh)
        fun _ _ => True :=
      .routine h hscript hthrown fun hm =>
        .bindPattern (binds ⟨hm, hscript⟩ hthrown hosts fresh) ⟨hp, hnames⟩ value
    exact Advances.bind hbind (fun _ _ _ _ => .pure trivial) hm
  | call function receiver arguments =>
    exact advances_callRule h hthrown hscript function receiver arguments hm
  | closure d scope function receiver arguments =>
    obtain ⟨hd, hscope⟩ := htask
    exact advances_callClosure h hthrown hd rfl (Bool.or_false _) hscript hscope function receiver
      arguments hm
  | native f receiver arguments =>
    exact advances_native h hthrown hscript hhost f receiver arguments hm
  | construct constructor arguments =>
    exact advances_construct h hthrown hscript constructor arguments hm
  | directEval text scope =>
    have hn : (note.inside (.directEval text scope)).strictness.isStrict =
        (Strictness.ofText text (m.store.isStrict scope) || m.store.isStrict scope ||
          m.store.isStrict scope) := by
      rw [htask.strict, Bool.or_assoc, Bool.or_self]
      exact Bool.or_false _
    have heval : Advances h.engines may m (fun e => e.directEval text scope) fun _ _ => True :=
      .aside (x := Eval.isStrict scope) (m.store.isStrict scope) m rfl rfl
        (advances_evaluateText h hthrown rfl hn hscript htask.there)
    exact heval hm
  | indirectEval text =>
    have hn : (note.inside (.indirectEval text)).strictness.isStrict =
        (Strictness.ofText text false || false || m.store.isStrict .global) := by
      rw [hscript, Bool.or_false]
      show (Strictness.ofText text false ||
        (!Strictness.ofText text false && note.strictness.script)) = _
      cases Strictness.ofText text false <;> simp
    exact advances_evaluateText h hthrown rfl hn hscript hm.global hm
  | program p => exact alike_program h hthrown htask hm hscript

/-! ### Sessions -/

def outermost (s : Store) : Note where
  targets := .outside
  declaring := true
  strictness := .outside (s.isStrict .global)

/-- What is open to the embedding program may begin on every machine with a sound store. -/
theorem admits_of_asks (hm : m.store.Sound) {task : Task}
    (h : (Setting.embedding Program.Accepted may).asks task) :
    (supervisor may).admits (outermost m.store) task m := by
  refine ⟨hm, rfl, ?_⟩
  cases task with
  | call function receiver arguments => trivial
  | indirectEval text => trivial
  | program p => exact h.sound
  | _ => exact h.elim

variable (hthrown : ∀ v, may (.thrown v)) (hhost : host.Embeds Program.Accepted may)

include hthrown hhost

theorem agrees_engine (note : Note) (depth : Nat) :
    (supervisor may).Agrees note (engine host depth) (engine host depth) :=
  ⟨rfl, fun _ _ _ => rfl, (governs hthrown hhost).ends depth note⟩

/-- What the embedding program does with the engine leads from a sound store to a sound store. -/
theorem sound_of_run (hm : m.store.Sound) {α : Type} {F : Engine → Eval α}
    (hF : Routine (.embedding Program.Accepted may) F) {depth : Nat} {result : α} {m' : Machine}
    (hrun : m.run (F (engine host depth)) = (.done result, m')) : m'.store.Sound := by
  have hagrees := agrees_engine hthrown hhost (outermost m.store) depth
  have hroutine : Routine (setting may (outermost m.store) m) F :=
    routine_of_embedding ⟨hm, rfl⟩ hF
  have hadvances := Advances.routine hagrees rfl hthrown (fun _ => hroutine) hm
  have hends : Ends _ (F (engine host depth) m) := hadvances.2
  rw [Machine.eq_ok_of_run hrun] at hends
  exact hends.2.1

theorem sound_of_reachable (hm : Machine.Reachable host Program.Accepted m) : m.store.Sound := by
  induction hm with
  | initial settings =>
    refine ⟨?_, fun d scope hc => absurd hc (Store.not_hasClosure_initial settings d scope)⟩
    exact Nat.lt_of_lt_of_eq Nat.one_pos (Store.size_initial settings).symm
  | installHost functions _ ih => exact ih.grows (Store.grows_installHost _ functions)
  | takeOutput _ ih => exact ih
  | evaluate _ evaluated ih =>
    refine sound_of_run hthrown hhost ih (.evaluateSource fun p strict hp => ?_) evaluated
    exact ⟨_, strict, hp⟩
  | runProgram _ allowed ran ih =>
    exact sound_of_run hthrown hhost ih (.attempt (.task (.program _) allowed)) ran

end ProtoScript.Conduct
