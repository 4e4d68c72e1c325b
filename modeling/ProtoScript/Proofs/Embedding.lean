import ProtoScript.Proofs.Routine
import ProtoScript.Session
/-!
# The embedding program

What the functions of the embedding program may do, and the machines that it can get at: those that
sessions lead to.
-/

namespace ProtoScript

/-- What is open to the embedding program: it may call values, evaluate texts and run some programs,
work on the store as the operations on values do, and complete in some ways. -/
def Setting.embedding (runs : Program → Prop) (may : Abrupt → Prop) : Setting where
  asks
    | .call _ _ _ | .indirectEval _ => True
    | .program p => runs p
    | _ => False
  constructs := False
  ends := may
  makes _ _ := False
  step := Store.Grows

/-- The functions of the host use nothing but what is open to the embedding program. -/
def Host.Embeds (host : Host) (runs : Program → Prop) (may : Abrupt → Prop) : Prop :=
  ∀ name receiver arguments,
    Routine (.embedding runs may) fun e => host name e receiver arguments

theorem Host.Embeds.mono {host : Host} {runs runs' : Program → Prop} {may may' : Abrupt → Prop}
    (h : host.Embeds runs may) (hruns : ∀ p, runs p → runs' p) (hmay : ∀ c, may c → may' c) :
    host.Embeds runs' may' := by
  intro name receiver arguments
  refine Routine.mono (S := .embedding runs may) (T := .embedding runs' may') ?_ id hmay
    (fun _ _ => id) (fun _ _ => id) (h name receiver arguments)
  intro task htask
  cases task with
  | program p => exact hruns p htask
  | _ => exact htask

/-- A host whose functions all call their first argument with the others. -/
def Host.callBack : Host := fun _ e _ arguments =>
  e.call (arguments.headD .undefined) .undefined arguments.tail

theorem Host.callBack_embeds (runs : Program → Prop) (may : Abrupt → Prop) :
    Host.callBack.Embeds runs may :=
  fun _ _ _ => .task _ trivial

theorem Routine.evaluateSource {S : Setting} {source : String}
    (h : ∀ p strict, Program.ofString source strict = .ok p → S.asks (.program p)) :
    Routine S fun e => e.evaluateSource source := by
  refine .bind .get fun m => ?_
  dsimp only
  split
  · exact .pure _
  · rename_i p hp
    refine .bind (.attempt (.task _ (h p _ hp))) fun outcome => ?_
    split
    · exact .pure _
    · exact .bind (.read _) fun _ => .pure _
    · exact .pure _
    · exact .pure _

theorem Machine.eq_ok_of_run {α : Type} {m m' : Machine} {x : Eval α} {result : α}
    (h : m.run x = (.done result, m')) : x m = .ok result m' := by
  unfold Machine.run at h
  split at h
  · rename_i heq
    cases h
    exact heq
  · cases h

/-- What holds of how a computation ended holds of how it ended in an attempt. -/
theorem Ends.of_run_attempt {α : Type} {Q : Except Abrupt α → Machine → Prop} {m m' : Machine}
    {x : Eval α} {o : Except Abrupt α} (h : Ends Q (x m))
    (hrun : m.run (Eval.attempt x) = (.done o, m')) : Q o m' := by
  have heq := Machine.eq_ok_of_run hrun
  unfold Eval.attempt at heq
  cases hx : x m with
  | ok value m₁ =>
    rw [hx] at h heq
    cases heq
    exact h
  | error stop m₁ =>
    rw [hx] at h heq
    cases stop with
    | abrupt c =>
      cases heq
      exact h
    | exhausted => cases heq

theorem Engines.Keeps.run_done {E : Engines} {I : Machine → Prop} {may : Abrupt → Prop} {α : Type}
    {F : Engine → Eval α} (h : E.Keeps I may F) {m m' : Machine} {result : α} (hm : I m)
    (hrun : m.run (F E.right) = (.done result, m')) : I m' := by
  have hends := (h m hm).2
  rw [Machine.eq_ok_of_run hrun] at hends
  exact hends.1

/-- The machines that the embedding program can get at, by evaluating texts and by running some
programs. -/
inductive Machine.Reachable (host : Host) (runs : Program → Prop) : Machine → Prop
  | initial (settings : Settings) : Reachable host runs (.initial settings)
  | installHost {m : Machine} (functions : List (String × Nat)) (before : Reachable host runs m) :
      Reachable host runs (m.installHost functions)
  | takeOutput {m : Machine} (before : Reachable host runs m) : Reachable host runs m.takeOutput.2
  | evaluate {m m' : Machine} {source : String} {bound : Nat} {result : Except ScriptError Value}
      (before : Reachable host runs m)
      (evaluated : m.evaluate source host bound = (.done result, m')) : Reachable host runs m'
  | runProgram {m m' : Machine} {p : Program} {bound : Nat} {result : Except Abrupt Value}
      (before : Reachable host runs m) (allowed : runs p)
      (ran : m.runProgram p host bound = (.done result, m')) : Reachable host runs m'

theorem Machine.Reachable.mono {host : Host} {runs runs' : Program → Prop} {m : Machine}
    (h : Machine.Reachable host runs m) (hruns : ∀ p, runs p → runs' p) :
    Machine.Reachable host runs' m := by
  induction h with
  | initial settings => exact .initial settings
  | installHost functions _ ih => exact ih.installHost functions
  | takeOutput _ ih => exact ih.takeOutput
  | evaluate _ evaluated ih => exact ih.evaluate evaluated
  | runProgram _ allowed ran ih => exact ih.runProgram (hruns _ allowed) ran

end ProtoScript
