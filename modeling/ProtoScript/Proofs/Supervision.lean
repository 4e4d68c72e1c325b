import ProtoScript.Evaluation.Rules
/-!
# Supervised runs

A supervisor watches every task that a run carries out, however deep inside the run it begins.  It
carries a note along, says which tasks may begin on which machine, and says how they may end.  The
supervised run of a task stops short where a task begins or ends in a way that the supervisor
refuses, and leaves a mark on the machine that no rule makes.  So a run that the supervised run
agrees with has kept to the supervisor at every task on the way, whether or not it ends.
-/

namespace ProtoScript

/-- What holds of how a computation ended, unless it was cut off. -/
def Ends {α : Type} (Q : Except Abrupt α → Machine → Prop) :
    EStateM.Result Stop Machine α → Prop
  | .ok value m => Q (.ok value) m
  | .error (.abrupt c) m => Q (.error c) m
  | .error .exhausted _ => True

theorem Ends.mono {α : Type} {Q R : Except Abrupt α → Machine → Prop}
    (h : ∀ o m, Q o m → R o m) {r : EStateM.Result Stop Machine α} (hr : Ends Q r) : Ends R r := by
  cases r with
  | ok value m => exact h _ _ hr
  | error stop m =>
    cases stop with
    | abrupt c => exact h _ _ hr
    | exhausted => trivial

theorem Ends.and {α : Type} {Q R : Except Abrupt α → Machine → Prop}
    {r : EStateM.Result Stop Machine α} (hQ : Ends Q r) (hR : Ends R r) :
    Ends (fun o m => Q o m ∧ R o m) r := by
  cases r with
  | ok value m => exact ⟨hQ, hR⟩
  | error stop m =>
    cases stop with
    | abrupt c => exact ⟨hQ, hR⟩
    | exhausted => trivial

theorem Ends.of_forall {α : Type} {Q : Except Abrupt α → Machine → Prop} (h : ∀ o m, Q o m)
    (r : EStateM.Result Stop Machine α) : Ends Q r := by
  cases r with
  | ok value m => exact h _ _
  | error stop m =>
    cases stop with
    | abrupt c => exact h _ _
    | exhausted => trivial

structure Supervisor (Note : Type) where
  /-- The note for the tasks directly inside a task that begins on a machine. -/
  inside : Note → Task → Machine → Note
  /-- Whether a task may begin on a machine. -/
  admits : Note → Task → Machine → Prop
  /-- Whether a task that began on the first machine may end like this on the second. -/
  accepts : Note → Task → Machine → Except Abrupt Value → Machine → Prop

namespace Supervisor

variable {Note Other : Type}

/-- The machine with a limit for calls other than its own.  No rule changes the limit. -/
def mark (m : Machine) : Machine :=
  { m with settings := { m.settings with maxCallDepth := m.settings.maxCallDepth + 1 } }

open Classical in
/-- Hands an outcome on if the task was admitted and its end is accepted. -/
noncomputable def guard (S : Supervisor Note) (note : Note) (task : Task) (m : Machine)
    (outcome : EStateM.Result Stop Machine Value) : EStateM.Result Stop Machine Value :=
  if S.admits note task m ∧ Ends (S.accepts note task m) outcome then outcome
  else .error .exhausted (mark m)

/-- Carries out a task like `runTask`, but is cut off where the supervisor refuses how the task or a
task inside it begins or ends. -/
noncomputable def run (S : Supervisor Note) (host : Host) : Nat → Note → Task → Eval Value
  | 0, _, _ => Eval.exhausted
  | depth + 1, note, task => fun m =>
    S.guard note task m (Engine.rule host ⟨depth, S.run host depth (S.inside note task m)⟩ task m)

theorem guard_eq {S : Supervisor Note} {note : Note} {task : Task} {m : Machine}
    {outcome : EStateM.Result Stop Machine Value} (hadmits : S.admits note task m)
    (hends : Ends (S.accepts note task m) outcome) : S.guard note task m outcome = outcome := by
  unfold guard
  rw [if_pos ⟨hadmits, hends⟩]

/-- A task that is admitted and ends as accepted is carried out by its rule. -/
theorem run_eq_rule {S : Supervisor Note} {host : Host} {depth : Nat} {note : Note} {task : Task}
    {m : Machine} (hadmits : S.admits note task m)
    (hends : Ends (S.accepts note task m)
      (Engine.rule host ⟨depth, S.run host depth (S.inside note task m)⟩ task m)) :
    S.run host (depth + 1) note task m =
      Engine.rule host ⟨depth, S.run host depth (S.inside note task m)⟩ task m :=
  guard_eq hadmits hends

theorem run_of_refused {S : Supervisor Note} {host : Host} {depth : Nat} {note : Note}
    {task : Task} {m : Machine} (h : ¬ S.admits note task m) :
    S.run host (depth + 1) note task m = .error .exhausted (mark m) :=
  if_neg fun hkept => h hkept.1

/-- Two engines do the same with every task that may begin, and both end it as it may end. -/
structure Agrees (S : Supervisor Note) (note : Note) (e e' : Engine) : Prop where
  rounds : e.rounds = e'.rounds
  run : ∀ task m, S.admits note task m → e.run task m = e'.run task m
  ends : ∀ task m, S.admits note task m → Ends (S.accepts note task m) (e'.run task m)

def Governs (S : Supervisor Note) (host : Host) : Prop :=
  ∀ note task m e e', S.admits note task m → S.Agrees (S.inside note task m) e e' →
    Engine.rule host e task m = Engine.rule host e' task m ∧
      Ends (S.accepts note task m) (Engine.rule host e' task m)

theorem Governs.ends {S : Supervisor Note} {host : Host} (h : S.Governs host) (depth : Nat) :
    ∀ note task m, S.admits note task m →
      Ends (S.accepts note task m) (runTask host depth task m) := by
  induction depth with
  | zero =>
    intro note task m _
    trivial
  | succ depth ih =>
    intro note task m hadmits
    refine (h note task m ⟨depth, runTask host depth⟩ ⟨depth, runTask host depth⟩ hadmits ?_).2
    exact ⟨rfl, fun _ _ _ => rfl, fun task' m' => ih _ task' m'⟩

/-- A supervisor that governs the rules also keeps every coarser supervisor from stopping a run. -/
theorem Governs.run_eq {S : Supervisor Note} {host : Host} (h : S.Governs host)
    (T : Supervisor Other) (coarsen : Note → Other)
    (hinside : ∀ note task m, S.admits note task m →
      T.inside (coarsen note) task m = coarsen (S.inside note task m))
    (hadmits : ∀ note task m, S.admits note task m → T.admits (coarsen note) task m)
    (haccepts : ∀ note task m o m', S.admits note task m → S.accepts note task m o m' →
      T.accepts (coarsen note) task m o m')
    (depth : Nat) : ∀ note task m, S.admits note task m →
      T.run host depth (coarsen note) task m = runTask host depth task m := by
  induction depth with
  | zero =>
    intro note task m _
    rfl
  | succ depth ih =>
    intro note task m hbegin
    -- One level down both engines do the same, which is all that the rule asks of them.
    have hagrees : S.Agrees (S.inside note task m)
        ⟨depth, T.run host depth (T.inside (coarsen note) task m)⟩
        ⟨depth, runTask host depth⟩ := by
      refine ⟨rfl, fun task' m' hadmitted => ?_, fun task' m' => h.ends depth _ task' m'⟩
      rw [hinside note task m hbegin]
      exact ih _ task' m' hadmitted
    obtain ⟨heq, hends⟩ := h note task m _ _ hbegin hagrees
    have haccepted := hends.mono (haccepts note task m · · hbegin)
    rw [← heq] at haccepted
    exact (guard_eq (hadmits note task m hbegin) haccepted).trans heq

end Supervisor

/-!
### Two engines in lockstep

Rules for computations that do the same with either of two engines and keep an invariant of the
machine meanwhile.  A computation is given as a function of the engine, so that one judgement speaks
of both runs.
-/

structure Engines where
  left : Engine
  right : Engine
  rounds : left.rounds = right.rounds

def Completes {α : Type} (may : Abrupt → Prop) (post : α → Machine → Prop) :
    Except Abrupt α → Machine → Prop
  | .ok value, m => post value m
  | .error c, _ => may c

theorem Completes.mono {α : Type} {may may' : Abrupt → Prop} {post post' : α → Machine → Prop}
    (hmay : ∀ c, may c → may' c) {m : Machine} (hpost : ∀ a, post a m → post' a m)
    {o : Except Abrupt α} (h : Completes may post o m) : Completes may' post' o m := by
  cases o with
  | ok value => exact hpost value h
  | error c => exact hmay c h

namespace Engines

variable {E : Engines} {I : Machine → Prop} {may : Abrupt → Prop} {α β : Type}

/-- From a machine the computation does the same with both engines, and ends as in `Q`. -/
def Alike (E : Engines) (m : Machine) (F : Engine → Eval α)
    (Q : Except Abrupt α → Machine → Prop) : Prop :=
  F E.left m = F E.right m ∧ Ends Q (F E.right m)

theorem Alike.mono {m : Machine} {F : Engine → Eval α} {Q R : Except Abrupt α → Machine → Prop}
    (h : E.Alike m F Q) (hQ : ∀ o m', Q o m' → R o m') : E.Alike m F R :=
  ⟨h.1, h.2.mono hQ⟩

theorem Alike.bind {m : Machine} {F : Engine → Eval α} {G : α → Engine → Eval β}
    {Q : Except Abrupt α → Machine → Prop} {R : Except Abrupt β → Machine → Prop}
    (hF : E.Alike m F Q) (herror : ∀ c m', Q (.error c) m' → R (.error c) m')
    (hG : ∀ a m', Q (.ok a) m' → E.Alike m' (G a) R) :
    E.Alike m (fun e => F e >>= fun a => G a e) R := by
  obtain ⟨heq, hends⟩ := hF
  unfold Alike
  simp only [Bind.bind, EStateM.bind, heq]
  cases hr : F E.right m with
  | error stop m' =>
    rw [hr] at hends
    refine ⟨rfl, ?_⟩
    cases stop with
    | abrupt c => exact herror c m' hends
    | exhausted => trivial
  | ok a m' =>
    rw [hr] at hends
    exact hG a m' hends

theorem Alike.of_eq {m : Machine} {x y : Eval α} {Q : Except Abrupt α → Machine → Prop}
    (h : x m = y m) (hy : E.Alike m (fun _ => y) Q) : E.Alike m (fun _ => x) Q := by
  refine ⟨rfl, ?_⟩
  show Ends Q (x m)
  rw [h]
  exact hy.2

theorem Alike.step {m : Machine} {x : Eval α} {G : α → Engine → Eval β}
    {R : Except Abrupt β → Machine → Prop} (a : α) (m' : Machine) (hx : x m = .ok a m')
    (hG : E.Alike m' (G a) R) :
    E.Alike m (fun e => x >>= fun a => G a e) R := by
  unfold Alike
  simp only [Bind.bind, EStateM.bind, hx]
  exact hG

theorem Alike.attempt {m : Machine} {F : Engine → Eval α} {Q : Except Abrupt α → Machine → Prop}
    (h : E.Alike m F Q) :
    E.Alike m (fun e => Eval.attempt (F e)) fun o m' => ∃ tried, o = .ok tried ∧ Q tried m' := by
  obtain ⟨heq, hends⟩ := h
  refine ⟨by simp only [Eval.attempt, heq], ?_⟩
  simp only [Eval.attempt]
  cases hr : F E.right m with
  | ok value m' =>
    rw [hr] at hends
    exact ⟨_, rfl, hends⟩
  | error stop m' =>
    rw [hr] at hends
    cases stop with
    | abrupt c => exact ⟨_, rfl, hends⟩
    | exhausted => trivial

theorem Alike.resume {m : Machine} {o : Except Abrupt α} {Q : Except Abrupt α → Machine → Prop}
    (h : Q o m) : E.Alike m (fun _ => Eval.resume o) Q := by
  cases o with
  | ok value => exact ⟨rfl, h⟩
  | error c => exact ⟨rfl, h⟩

/-- From every machine with `I`, the computation does the same with both engines, keeps `I`, and
completes with a result as in `post` or abruptly as in `may`. -/
def Gives (E : Engines) (I : Machine → Prop) (may : Abrupt → Prop) (F : Engine → Eval α)
    (post : α → Machine → Prop) : Prop :=
  ∀ m, I m → E.Alike m F fun o m' => I m' ∧ Completes may post o m'

/-- The computation does the same with both engines, keeps `I`, and completes abruptly only as in
`may`. -/
def Keeps (E : Engines) (I : Machine → Prop) (may : Abrupt → Prop) (F : Engine → Eval α) : Prop :=
  E.Gives I may F fun _ _ => True

theorem Gives.mono {may' : Abrupt → Prop} {F : Engine → Eval α} {post post' : α → Machine → Prop}
    (h : E.Gives I may F post) (hmay : ∀ c, may c → may' c)
    (hpost : ∀ a m, I m → post a m → post' a m) : E.Gives I may' F post' := by
  intro m hm
  refine (h m hm).mono ?_
  rintro o m' ⟨hI, hc⟩
  exact ⟨hI, hc.mono hmay fun a => hpost a m' hI⟩

theorem Gives.keeps {F : Engine → Eval α} {post : α → Machine → Prop} (h : E.Gives I may F post) :
    E.Keeps I may F :=
  h.mono (fun _ hc => hc) fun _ _ _ _ => trivial

theorem Gives.pure {a : α} {post : α → Machine → Prop} (h : ∀ m, I m → post a m) :
    E.Gives I may (fun _ => pure a) post :=
  fun m hm => ⟨rfl, hm, h m hm⟩

theorem Keeps.pure {a : α} : E.Keeps I may fun _ => pure a := Gives.pure fun _ _ => trivial

theorem Gives.bind {F : Engine → Eval α} {G : α → Engine → Eval β} {mid : α → Machine → Prop}
    {post : β → Machine → Prop} (hF : E.Gives I may F mid)
    (hG : ∀ a m, I m → mid a m → E.Gives I may (G a) post) :
    E.Gives I may (fun e => F e >>= fun a => G a e) post := by
  intro m hm
  refine (hF m hm).bind (fun c m' h => h) ?_
  rintro a m' ⟨hm', hmid⟩
  exact hG a m' hm' hmid m' hm'

theorem Keeps.bind {F : Engine → Eval α} {G : α → Engine → Eval β} {post : β → Machine → Prop}
    (hF : E.Keeps I may F) (hG : ∀ a, E.Gives I may (G a) post) :
    E.Gives I may (fun e => F e >>= fun a => G a e) post :=
  Gives.bind hF fun a _ _ _ => hG a

theorem Gives.complete {c : Abrupt} {post : α → Machine → Prop} (h : may c) :
    E.Gives I may (fun _ => Eval.complete c) post :=
  fun _ hm => ⟨rfl, hm, h⟩

theorem Gives.exhausted {post : α → Machine → Prop} :
    E.Gives I may (fun _ => Eval.exhausted) post :=
  fun _ _ => ⟨rfl, trivial⟩

theorem Gives.attempt {may' : Abrupt → Prop} {F : Engine → Eval α} {post : α → Machine → Prop}
    (h : E.Gives I may F post) :
    E.Gives I may' (fun e => Eval.attempt (F e)) (Completes may post) := by
  intro m hm
  refine (h m hm).attempt.mono ?_
  rintro o m' ⟨tried, rfl, hI, hc⟩
  exact ⟨hI, hc⟩

theorem Gives.read {f : Store → α} :
    E.Gives I may (fun _ => Eval.read f) fun a m => a = f m.store :=
  fun _ hm => ⟨rfl, hm, rfl⟩

theorem Gives.get : E.Gives I may (fun _ => MonadState.get) fun a m => a = m :=
  fun _ hm => ⟨rfl, hm, rfl⟩

theorem Gives.updateGet {f : Store → α × Store} {post : α → Machine → Prop}
    (h : ∀ m, I m → I { m with store := (f m.store).2 } ∧
      post (f m.store).1 { m with store := (f m.store).2 }) :
    E.Gives I may (fun _ => Eval.updateGet f) post :=
  fun m hm => ⟨rfl, h m hm⟩

theorem Keeps.updateGet {f : Store → α × Store}
    (h : ∀ m, I m → I { m with store := (f m.store).2 }) :
    E.Keeps I may fun _ => Eval.updateGet f :=
  Gives.updateGet fun m hm => ⟨h m hm, trivial⟩

theorem Keeps.update {f : Store → Store} (h : ∀ m, I m → I { m with store := f m.store }) :
    E.Keeps I may fun _ => Eval.update f :=
  fun m hm => ⟨rfl, h m hm, trivial⟩

theorem Keeps.fault
    (hI : ∀ m r, r.callable = none → I m → I { m with store := (m.store.allocate r).2 })
    (hmay : ∀ v, may (.thrown v)) (f : Fault) :
    E.Keeps I may fun _ => (Eval.fault f : Eval α) :=
  .bind (.updateGet fun m hm => hI m _ rfl hm) fun error => fun _ hm => ⟨rfl, hm, hmay error⟩

/-- A loop begins with the same number of rounds under both engines. -/
theorem Gives.rounds {F : Nat → Engine → Eval α} {post : α → Machine → Prop}
    (h : ∀ n, E.Gives I may (F n) post) : E.Gives I may (fun e => F e.rounds e) post := by
  intro m hm
  show F E.left.rounds E.left m = _ ∧ _
  rw [E.rounds]
  exact h E.right.rounds m hm

end Engines

theorem Eval.enterCall_eq (m : Machine) :
    enterCall m =
      if m.settings.maxCallDepth ≤ m.callDepth then fault .callDepth m
      else .ok () { m with callDepth := m.callDepth + 1 } := by
  show (if m.settings.maxCallDepth ≤ m.callDepth then fault .callDepth
    else set { m with callDepth := m.callDepth + 1 } : Eval Unit) m = _
  by_cases h : m.settings.maxCallDepth ≤ m.callDepth
  · rw [if_pos h, if_pos h]
  · rw [if_neg h, if_neg h]
    rfl

def Engine.idle : Engine := ⟨0, fun _ => Eval.exhausted⟩

namespace Supervisor.Agrees

variable {Note : Type} {S : Supervisor Note} {note : Note} {e e' : Engine}

def engines (h : S.Agrees note e e') : Engines := ⟨e, e', h.rounds⟩

theorem alike (h : S.Agrees note e e') {task : Task} {m : Machine}
    (hadmits : S.admits note task m) :
    h.engines.Alike m (fun e => e.run task) (S.accepts note task m) :=
  ⟨h.run task m hadmits, h.ends task m hadmits⟩

/-- A task that may begin is carried out in lockstep and ends as it may end. -/
theorem gives (h : S.Agrees note e e') {task : Task} {I : Machine → Prop} {may : Abrupt → Prop}
    {post : Value → Machine → Prop} (hadmits : ∀ m, I m → S.admits note task m)
    (haccepts : ∀ m o m', I m → S.accepts note task m o m' → I m' ∧ Completes may post o m') :
    h.engines.Gives I may (fun e => e.run task) post := by
  intro m hm
  exact (h.alike (hadmits m hm)).mono fun o m' => haccepts m o m' hm

theorem idle (S : Supervisor Note) (note : Note) : S.Agrees note Engine.idle Engine.idle :=
  ⟨rfl, fun _ _ _ => rfl, fun _ _ _ => trivial⟩

end Supervisor.Agrees

end ProtoScript
