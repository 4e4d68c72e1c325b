import ProtoScript.Proofs.Embedding
import ProtoScript.Proofs.Hoist
import ProtoScript.Proofs.StoreGrowth
import ProtoScript.Proofs.Routine.Statement
/-!
# Hygiene of the machine

Three things about a machine are set for a while and set back by hand: the number of calls under
way, the note that `new` leaves for the call it makes, and whether the global code is strict.  Every
task puts them back however it ends, whatever the functions of the host do; the number of calls
never passes its bound; and a native function finds a note exactly if `new` itself called it.
-/

namespace ProtoScript

/-- The machine between two tasks: nobody is about to be called by `new`, and no more calls are
under way than may be. -/
structure Machine.Calm (m : Machine) : Prop where
  newTarget : m.newTarget = none
  callDepth : m.callDepth ≤ m.settings.maxCallDepth
  global : 0 < m.store.scopes.size

structure Machine.Kept (m m' : Machine) : Prop where
  settings : m'.settings = m.settings
  callDepth : m'.callDepth = m.callDepth
  newTarget : m'.newTarget = none
  store : m.store.Extends m'.store

namespace Machine.Kept

variable {m m' m'' : Machine}

theorem refl (h : m.newTarget = none) : m.Kept m := ⟨rfl, rfl, h, .refl m.store⟩

theorem trans (h : m.Kept m') (h' : m'.Kept m'') : m.Kept m'' :=
  ⟨h'.settings.trans h.settings, h'.callDepth.trans h.callDepth, h'.newTarget,
    h.store.trans h'.store⟩

theorem step (h : m.Kept m') {s : Store} (hs : m'.store.Extends s) :
    m.Kept { m' with store := s } :=
  ⟨h.settings, h.callDepth, h.newTarget, h.store.trans hs⟩

theorem size_pos (h : m.Kept m') (hm : 0 < m.store.scopes.size) : 0 < m'.store.scopes.size :=
  Nat.lt_of_lt_of_le hm h.store.size_le

theorem bounded (h : m.Kept m') (hm : m.callDepth ≤ m.settings.maxCallDepth) :
    m'.callDepth ≤ m'.settings.maxCallDepth := by
  rw [h.callDepth, h.settings]
  exact hm

theorem calm (h : m.Kept m') (hdepth : m.callDepth ≤ m.settings.maxCallDepth)
    (hglobal : 0 < m.store.scopes.size) : m'.Calm :=
  ⟨h.newTarget, h.bounded hdepth, h.size_pos hglobal⟩

theorem isStrict (h : m.Kept m') (hglobal : 0 < m.store.scopes.size)
    (hm : m.store.isStrict .global = m.settings.strict) :
    m'.store.isStrict .global = m'.settings.strict := by
  have hstrict : m'.store.isStrict .global = m.store.isStrict .global :=
    h.store.isStrict_eq hglobal
  rw [hstrict, h.settings]
  exact hm

theorem isConstructor (h : m.Kept m') {v : Value} (hv : m.store.isConstructor v = true) :
    m'.store.isConstructor v = true := by
  unfold Store.isConstructor at hv ⊢
  obtain ⟨c, hc, hconstructor⟩ := (Option.any_eq_true _ _).mp hv
  rw [h.store.callable v c hc]
  exact hconstructor

end Machine.Kept

namespace Hygiene

open Engines

def supervisor : Supervisor (Option Value) where
  inside note task _ :=
    match task with
    | .construct constructor _ => some constructor
    | .call _ _ _ => note
    | _ => none
  admits note task m :=
    m.callDepth ≤ m.settings.maxCallDepth ∧ 0 < m.store.scopes.size ∧
      match task with
      | .construct constructor _ => m.newTarget = none ∧ m.store.isConstructor constructor = true
      | .call function _ _ =>
        m.newTarget = note ∧ (note.isSome = true → m.store.isConstructor function = true)
      | .native f _ _ => m.newTarget = note ∧ (note.isSome = true → f.isConstructor = true)
      | _ => m.newTarget = none
  accepts _ _ m _ m' := m.Kept m'

def setting : Setting where
  asks
    | .construct _ _ | .native _ _ _ | .closure _ _ _ _ _ => False
    | _ => True
  constructs := True
  ends _ := True
  makes _ _ := True
  step := Store.Extends

theorem setting_lax : setting.Lax where
  later h := h
  ends _ := trivial
  makes _ _ := trivial
  constructs := trivial
  evaluate _ _ := trivial
  execute _ _ _ := trivial
  bind _ _ _ _ := trivial
  call _ _ _ := trivial
  directEval _ _ := trivial
  indirectEval _ := trivial

variable {e e' : Engine} {m : Machine}

theorem admits_none {task : Task} (htask : setting.asks task) (hcalm : m.Calm) :
    supervisor.admits none task m := by
  refine ⟨hcalm.callDepth, hcalm.global, ?_⟩
  cases task with
  | call function receiver arguments => exact ⟨hcalm.newTarget, nofun⟩
  | construct constructor arguments => exact htask.elim
  | native f receiver arguments => exact htask.elim
  | closure d scope function receiver arguments => exact htask.elim
  | _ => exact hcalm.newTarget

theorem keeps_constructWith (h : supervisor.Agrees none e e')
    (hdepth : m.callDepth ≤ m.settings.maxCallDepth) (hglobal : 0 < m.store.scopes.size)
    (function : Value) (arguments : List Value) (description : String) :
    h.engines.Keeps m.Kept (fun _ => True)
      fun e => e.constructWith function arguments description := by
  intro m₁ hm₁
  refine .step (m₁.store.isConstructor function) m₁ rfl ?_
  by_cases hconstructor : m₁.store.isConstructor function = true
  · simp only [hconstructor, if_true]
    have hcalm := hm₁.calm hdepth hglobal
    have hadmits : supervisor.admits none (.construct function arguments) m₁ :=
      ⟨hcalm.callDepth, hcalm.global, hcalm.newTarget, hconstructor⟩
    refine (h.alike hadmits).mono fun o m' hkept => ⟨hm₁.trans hkept, ?_⟩
    cases o <;> trivial
  · simp only [hconstructor]
    refine Keeps.fault (fun m₂ r _ hm₂ => ?_) (fun _ => trivial) _ m₁ hm₁
    exact hm₂.step (m₂.store.extends_allocate r)

theorem fits (h : supervisor.Agrees none e e') (hdepth : m.callDepth ≤ m.settings.maxCallDepth)
    (hglobal : 0 < m.store.scopes.size) :
    setting.Fits h.engines m.Kept fun _ => True := by
  refine ⟨fun m₁ s hm₁ hs => hm₁.step hs, ?_, ?_, fun _ _ => trivial, ?_, ?_, ?_⟩
  · exact fun m₁ _ hm₁ => ⟨hm₁.settings, hm₁.callDepth, hm₁.newTarget, hm₁.store⟩
  · exact fun m₁ hm₁ => ⟨hm₁.settings, hm₁.callDepth, rfl, hm₁.store⟩
  · intro task htask
    refine h.gives (fun m₁ hm₁ => admits_none htask (hm₁.calm hdepth hglobal)) ?_
    intro m₁ o m' hm₁ hkept
    refine ⟨hm₁.trans hkept, ?_⟩
    cases o <;> trivial
  · intro d scope _
    unfold Eval.newClosure Eval.newFunction
    exact .updateGet fun m₁ hm₁ => hm₁.step (m₁.store.extends_newFunction _)
  · intro function arguments description _
    exact keeps_constructWith h hdepth hglobal function arguments description

theorem alike_routine (h : supervisor.Agrees none e e') (hcalm : m.Calm)
    {F : Engine → Eval Value} (hF : Routine setting F) :
    h.engines.Alike m F fun _ m' => m.Kept m' := by
  have hkeeps := hF.keeps (fits h hcalm.callDepth hcalm.global)
  exact (hkeeps m (.refl hcalm.newTarget)).mono fun _ _ hkept => hkept.1

/-- Running a function of the host is one of the computations of the setting. -/
theorem routine_host {host : Host} (hhost : host.Embeds (fun _ => True) fun _ => True)
    (name : String) (receiver : Value) (arguments : List Value) :
    Routine setting fun e => host name e receiver arguments := by
  refine Routine.mono ?_ False.elim ?_ ?_ ?_ (hhost name receiver arguments)
  · intro task htask
    cases task with
    | call function receiver arguments => trivial
    | indirectEval text => trivial
    | program p => trivial
    | _ => exact htask.elim
  · exact fun _ _ => trivial
  · exact fun _ _ _ => trivial
  · exact fun _ _ hgrows => hgrows.later

/-- A native function that `new` calls takes the note; any other finds none. -/
theorem alike_native (h : supervisor.Agrees none e e') {host : Host}
    (hhost : host.Embeds (fun _ => True) fun _ => True) {note : Option Value} {f : Native}
    {receiver : Value} {arguments : List Value}
    (hadmits : supervisor.admits note (.native f receiver arguments) m) :
    h.engines.Alike m (fun e => f.run host e receiver arguments) fun _ m' => m.Kept m' := by
  obtain ⟨hdepth, hglobal, htarget, hconstructor⟩ := hadmits
  cases note with
  | none =>
    refine alike_routine h ⟨htarget, hdepth, hglobal⟩ ?_
    exact .native setting_lax.native (routine_host hhost) f receiver
      fun _ id _ s key p => setting_lax.growing.grows (s.grows_define id key p)
  | some constructor =>
    -- Every native constructor begins by taking the note, so what it calls finds none.
    obtain ⟨G, hG, hroutine⟩ := Routine.takes_of_isConstructor setting_lax.native host
      (hconstructor rfl) receiver arguments
    rw [funext hG]
    have hcalm : Machine.Calm { m with newTarget := none } := ⟨rfl, hdepth, hglobal⟩
    refine .step m.newTarget { m with newTarget := none } rfl ?_
    refine (alike_routine h hcalm (hroutine _)).mono fun o m' hkept => ?_
    exact ⟨hkept.settings, hkept.callDepth, hkept.newTarget, hkept.store⟩

theorem alike_dispatch {note : Option Value} (h : supervisor.Agrees note e e') (hcalm : m.Calm)
    {function receiver : Value} {arguments : List Value} {callable : Callable}
    (hconstructor : note.isSome = true → callable.isConstructor = true) :
    h.engines.Alike m (fun e =>
      match callable with
      | .native f => e.callNative note f receiver arguments
      | .closure d scope => e.run (.closure d scope function receiver arguments))
      fun _ m' => m.Kept m' := by
  cases callable with
  | closure d scope => exact h.alike ⟨hcalm.callDepth, hcalm.global, hcalm.newTarget⟩
  | native f =>
    refine .step () { m with newTarget := note } rfl ?_
    have hnative : supervisor.admits note (.native f receiver arguments)
        { m with newTarget := note } :=
      ⟨hcalm.callDepth, hcalm.global, rfl, hconstructor⟩
    refine (h.alike hnative).attempt.bind (fun c m' h => nomatch h) fun outcome m' hended => ?_
    obtain ⟨_, _, hkept⟩ := hended
    refine .step () { m' with newTarget := none } rfl (.resume ?_)
    exact ⟨hkept.settings, hkept.callDepth, rfl, hkept.store⟩

theorem alike_fault (E : Engines) {m₁ : Machine} (hkept : m.Kept m₁) (f : Fault) {α : Type} :
    E.Alike m₁ (fun _ => (Eval.fault f : Eval α)) fun o m' => m.Kept m' ∧ ∃ c, o = .error c := by
  refine ⟨rfl, ?_, _, rfl⟩
  exact hkept.step (m₁.store.extends_allocate _)

/-- A call takes the note of `new`, counts itself while it runs, and hands the note on to a native
function. -/
theorem alike_call {note : Option Value} (h : supervisor.Agrees note e e')
    {function receiver : Value} {arguments : List Value}
    (hadmits : supervisor.admits note (.call function receiver arguments) m) :
    h.engines.Alike m (fun e => e.callRule function receiver arguments)
      fun _ m' => m.Kept m' := by
  obtain ⟨hdepth, hglobal, htarget, hconstructor⟩ := hadmits
  have htaken : m.Kept { m with newTarget := none } := ⟨rfl, rfl, rfl, .refl m.store⟩
  refine .step m.newTarget { m with newTarget := none } rfl ?_
  refine .step (m.store.callable? function) { m with newTarget := none } rfl ?_
  cases hcallable : m.store.callable? function with
  | none =>
    refine .step _ { m with newTarget := none } rfl ?_
    exact (alike_fault h.engines htaken _).mono fun _ _ hended => hended.1
  | some callable =>
    by_cases hlimit : m.settings.maxCallDepth ≤ m.callDepth
    · have hrefused := (Eval.enterCall_eq { m with newTarget := none }).trans (if_pos hlimit)
      have henter : h.engines.Alike { m with newTarget := none } (fun _ => Eval.enterCall)
          fun o m' => m.Kept m' ∧ ∃ c, o = .error c :=
        .of_eq hrefused (alike_fault h.engines htaken .callDepth)
      refine henter.bind (fun c m' hended => hended.1) ?_
      rintro a m' ⟨_, c, hc⟩
      cases hc
    · have henter := (Eval.enterCall_eq { m with newTarget := none }).trans (if_neg hlimit)
      have hcalm : Machine.Calm { m with newTarget := none, callDepth := m.callDepth + 1 } :=
        ⟨rfl, Nat.lt_of_not_le hlimit, hglobal⟩
      have hinner : note.isSome = true → callable.isConstructor = true := by
        intro hnote
        have hvalue := hconstructor hnote
        rw [Store.isConstructor, hcallable] at hvalue
        exact hvalue
      refine .step _ _ henter ?_
      rw [htarget]
      refine (alike_dispatch h hcalm hinner).attempt.bind (fun c m' h => nomatch h) ?_
      rintro outcome m' ⟨_, _, hkept⟩
      refine .step () { m' with callDepth := m'.callDepth - 1 } rfl (.resume ?_)
      refine ⟨hkept.settings, ?_, hkept.newTarget, hkept.store⟩
      exact congrArg (· - 1) hkept.callDepth

/-- The note that `new` leaves is taken by its own call, or else withdrawn. -/
theorem alike_construct {constructor : Value} (h : supervisor.Agrees (some constructor) e e')
    {arguments : List Value}
    (hadmits : supervisor.admits none (.construct constructor arguments) m) :
    h.engines.Alike m (fun e => e.construct constructor arguments) fun _ m' => m.Kept m' := by
  obtain ⟨hdepth, hglobal, htarget, hconstructor⟩ := hadmits
  have hinstance : h.engines.Keeps m.Kept (fun _ => True) fun _ =>
      Engine.newInstance constructor :=
    ((Routine.newInstance setting_lax.ordinary constructor).keeps
      (fits (.idle supervisor none) hdepth hglobal)).of_const
  refine (hinstance m (.refl htarget)).bind (fun c m' hended => hended.1) ?_
  rintro receiver m₁ ⟨hkept, _⟩
  refine .step () { m₁ with newTarget := some constructor } rfl ?_
  have hcall : supervisor.admits (some constructor) (.call constructor receiver arguments)
      { m₁ with newTarget := some constructor } :=
    ⟨hkept.bounded hdepth, hkept.size_pos hglobal, rfl, fun _ => hkept.isConstructor hconstructor⟩
  refine (h.alike hcall).attempt.bind (fun c m' h => nomatch h) ?_
  rintro outcome m₂ ⟨_, _, hcalled⟩
  have hdone : m.Kept { m₂ with newTarget := none } :=
    hkept.trans ⟨hcalled.settings, hcalled.callDepth, rfl, hcalled.store⟩
  refine .step () { m₂ with newTarget := none } rfl ?_
  cases outcome with
  | ok result => exact ⟨rfl, hdone⟩
  | error c => exact ⟨rfl, hdone⟩

theorem alike_program (h : supervisor.Agrees none e e') (hcalm : m.Calm) (p : Program) :
    h.engines.Alike m (fun e => e.program p) fun _ m' => m.Kept m' := by
  obtain ⟨htarget, hdepth, hglobal⟩ := hcalm
  obtain ⟨running, hrunning⟩ : ∃ running : Machine, running = { m with
      store := m.store.modifyScope .global fun a =>
        { a with strict := m.store.isStrict .global || p.strict } } := ⟨_, rfl⟩
  have hbounded : running.callDepth ≤ running.settings.maxCallDepth := by
    rw [hrunning]
    exact hdepth
  have hsize : 0 < running.store.scopes.size := by
    rw [hrunning]
    show 0 < (m.store.scopes.modify _ _).size
    rw [Array.size_modify]
    exact hglobal
  have hrestored {m' : Machine} (hkept : running.Kept m') : m.Kept { m' with
      store := m'.store.modifyScope .global fun a =>
        { a with strict := m.store.isStrict .global } } := by
    rw [hrunning] at hkept
    exact ⟨hkept.settings, hkept.callDepth, hkept.newTarget, hkept.store.restoreStrict⟩
  obtain ⟨hoisted, hhoist, hspec, _⟩ := hoistBody_eq_ok p.body .global .global running
  have hbegin : running.Kept { running with store := hoisted } :=
    ⟨rfl, rfl, by rw [hrunning]; exact htarget, hspec.later⟩
  have hexecuted := (Routine.statements setting_lax .global p.body .undefined).keeps
    (fits h hbounded hsize)
  refine .step (m.store.isStrict .global) m rfl ?_
  refine .step () running (by rw [hrunning]; rfl) ?_
  refine .step _ _ hhoist ?_
  refine (hexecuted _ hbegin).attempt.bind (fun c m' hended => nomatch hended) ?_
  rintro outcome m' ⟨_, _, hkept, _⟩
  exact .step _ _ rfl (.resume (hrestored hkept))

theorem governs {host : Host} (hhost : host.Embeds (fun _ => True) fun _ => True) :
    supervisor.Governs host := by
  intro note task m e e' hadmits h
  obtain ⟨hdepth, hglobal, htask⟩ := hadmits
  cases task with
  | evaluate x scope =>
    exact alike_routine h ⟨htask, hdepth, hglobal⟩
      (.expression (setting_lax.evaluates scope) trivial fun _ _ s id key p =>
        setting_lax.growing.grows (s.grows_insert id key p))
  | execute s scope labels =>
    exact alike_routine h ⟨htask, hdepth, hglobal⟩ (.statement setting_lax s scope labels)
  | bind p value scope fresh =>
    have hbind : Routine setting fun e => (do
        e.bindPattern p value scope fresh
        return .undefined : Eval Value) :=
      .bind (.bindPattern (setting_lax.binds scope fresh) trivial value) fun _ => .pure _
    exact alike_routine h ⟨htask, hdepth, hglobal⟩ hbind
  | call function receiver arguments => exact alike_call h ⟨hdepth, hglobal, htask⟩
  | closure d scope function receiver arguments =>
    exact alike_routine h ⟨htask, hdepth, hglobal⟩
      (.callClosure setting_lax d scope function receiver arguments)
  | native f receiver arguments => exact alike_native h hhost ⟨hdepth, hglobal, htask⟩
  | construct constructor arguments => exact alike_construct h ⟨hdepth, hglobal, htask⟩
  | directEval text scope =>
    exact alike_routine h ⟨htask, hdepth, hglobal⟩ (.directEval setting_lax text scope)
  | indirectEval text =>
    exact alike_routine h ⟨htask, hdepth, hglobal⟩ (.indirectEval setting_lax text)
  | program p => exact alike_program h ⟨htask, hdepth, hglobal⟩ p

variable {host : Host}

theorem agrees_engine (hhost : host.Embeds (fun _ => True) fun _ => True) (depth : Nat) :
    supervisor.Agrees none (engine host depth) (engine host depth) :=
  ⟨rfl, fun _ _ _ => rfl, (governs hhost).ends depth none⟩

theorem kept_of_run (hhost : host.Embeds (fun _ => True) fun _ => True) (hcalm : m.Calm)
    {α : Type} {F : Engine → Eval α} (hF : Routine setting F) {depth : Nat} {result : α}
    {m' : Machine} (h : m.run (F (engine host depth)) = (.done result, m')) : m.Kept m' :=
  (hF.keeps (fits (agrees_engine hhost depth) hcalm.callDepth hcalm.global)).run_done
    (.refl hcalm.newTarget) h

theorem kept_of_evaluate (hhost : host.Embeds (fun _ => True) fun _ => True) (hcalm : m.Calm)
    {source : String} {bound : Nat} {result : Except ScriptError Value} {m' : Machine}
    (h : m.evaluate source host bound = (.done result, m')) : m.Kept m' :=
  kept_of_run hhost hcalm (.evaluateSource fun _ _ _ => trivial) h

theorem calm_of_reachable (hhost : host.Embeds (fun _ => True) fun _ => True)
    (h : Machine.Reachable host (fun _ => True) m) : m.Calm := by
  induction h with
  | initial settings =>
    refine ⟨rfl, Nat.zero_le _, ?_⟩
    show 0 < (Store.initial settings).scopes.size
    rw [Store.size_initial]
    exact Nat.one_pos
  | installHost functions _ ih =>
    refine ⟨ih.newTarget, ih.callDepth, ?_⟩
    exact Nat.lt_of_lt_of_eq ih.global (Store.grows_installHost _ functions).size.symm
  | takeOutput _ ih => exact ⟨ih.newTarget, ih.callDepth, ih.global⟩
  | evaluate _ evaluated ih =>
    exact (kept_of_evaluate hhost ih evaluated).calm ih.callDepth ih.global
  | runProgram _ _ ran ih =>
    exact (kept_of_run hhost ih (.attempt (.task (.program _) trivial)) ran).calm
      ih.callDepth ih.global

/-- Between two tasks the global code is as strict as all code is set to be. -/
theorem isStrict_of_reachable (hhost : host.Embeds (fun _ => True) fun _ => True)
    (h : Machine.Reachable host (fun _ => True) m) :
    m.store.isStrict .global = m.settings.strict := by
  induction h with
  | initial settings => exact Store.isStrict_initial settings
  | @installHost m functions before ih =>
    have hglobal := (calm_of_reachable hhost before).global
    exact ((m.store.grows_installHost functions).later.isStrict_eq hglobal).trans ih
  | takeOutput _ ih => exact ih
  | evaluate before evaluated ih =>
    have hcalm := calm_of_reachable hhost before
    exact (kept_of_evaluate hhost hcalm evaluated).isStrict hcalm.global ih
  | runProgram before _ ran ih =>
    have hcalm := calm_of_reachable hhost before
    exact (kept_of_run hhost hcalm (.attempt (.task (.program _) trivial)) ran).isStrict
      hcalm.global ih

/-- The machine is as hygienic at its end as at its beginning. -/
structure Clean (m m' : Machine) : Prop where
  callDepth : m'.callDepth = m.callDepth
  newTarget : m'.newTarget = none
  isStrict : m'.store.isStrict .global = m.store.isStrict .global

theorem clean_of_kept {m m' : Machine} (hglobal : 0 < m.store.scopes.size) (h : m.Kept m') :
    Clean m m' :=
  ⟨h.callDepth, h.newTarget, h.store.isStrict_eq hglobal⟩

/-- The note says whether a call is the one that `new` makes.  No task begins with too many calls
under way, a native function finds a note of `new` exactly if `new` made the call, and every task
leaves the machine clean. -/
def observer : Supervisor Bool where
  inside note task _ :=
    match task with
    | .construct _ _ => true
    | .call _ _ _ => note
    | _ => false
  admits note task m :=
    m.callDepth ≤ m.settings.maxCallDepth ∧
      match task with
      | .native _ _ _ => m.newTarget.isSome = note
      | _ => True
  accepts _ _ m _ m' := Clean m m'

/-- On every machine that sessions lead to, and on every other one between two tasks, the number of
calls stays within its bound, natives find the note of `new` exactly when `new` called them, and
each task, however it ends, leaves the machine clean; so does the evaluation of a text. -/
theorem every_task_hygienic (hhost : host.Embeds (fun _ => True) fun _ => True) :
    (∀ m, Machine.Reachable host (fun _ => True) m → m.Calm) ∧
    (∀ m, m.Calm → ∀ task depth,
      (∀ constructor arguments, task = .construct constructor arguments →
        m.store.isConstructor constructor = true) →
      observer.run host depth false task m = runTask host depth task m ∧
        Ends (fun _ m' => Clean m m') (runTask host depth task m)) ∧
    (∀ m, m.Calm → ∀ source bound result m',
      m.evaluate source host bound = (.done result, m') → Clean m m') := by
  refine ⟨fun m => calm_of_reachable hhost, fun m hcalm task depth htask => ?_, ?_⟩
  · have hadmits : supervisor.admits none task m := by
      refine ⟨hcalm.callDepth, hcalm.global, ?_⟩
      cases task with
      | construct constructor arguments => exact ⟨hcalm.newTarget, htask _ _ rfl⟩
      | call function receiver arguments => exact ⟨hcalm.newTarget, nofun⟩
      | native f receiver arguments => exact ⟨hcalm.newTarget, nofun⟩
      | _ => exact hcalm.newTarget
    refine ⟨?_, ((governs hhost).ends depth none task m hadmits).mono fun _ _ hkept =>
      clean_of_kept hcalm.global hkept⟩
    refine (governs hhost).run_eq observer Option.isSome ?_ ?_ ?_ depth none task m hadmits
    · intro note task m _
      cases task <;> rfl
    · rintro note task m ⟨hdepth, _, hnote⟩
      refine ⟨hdepth, ?_⟩
      cases task with
      | native f receiver arguments => exact congrArg Option.isSome hnote.1
      | _ => trivial
    · exact fun note task m o m' hbegin hkept => clean_of_kept hbegin.2.1 hkept
  · intro m hcalm source bound result m' h
    exact clean_of_kept hcalm.global (kept_of_evaluate hhost hcalm h)

theorem every_task_hygienic_calling_back :
    observer.run .callBack 9 false (.indirectEval (.string (.ofString "new Number(2)")))
        (.initial {}) =
      runTask .callBack 9 (.indirectEval (.string (.ofString "new Number(2)"))) (.initial {}) :=
  ((every_task_hygienic (Host.callBack_embeds _ _)).2.1 (.initial {})
    ((every_task_hygienic (Host.callBack_embeds _ _)).1 _ (.initial {}))
    (.indirectEval (.string (.ofString "new Number(2)"))) 9 nofun).1

end Hygiene

end ProtoScript
