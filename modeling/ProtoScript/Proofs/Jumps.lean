import ProtoScript.Proofs.Conduct.Rules
/-!
# Every jump finds its target

In programs that the grammar accepts, a `break` or a `continue` ends at the loop, the `switch` or
the label that it is meant for, and a `return` at its function.  So a statement completes normally,
with an exception, or with a jump that goes somewhere around it and that is not meant for the
statement itself; everything else completes normally or with an exception.  That holds whatever
labels, loops, finalizers, functions and evaluated texts are nested in one another.
-/

namespace ProtoScript

def Abrupt.IsThrown : Abrupt → Prop
  | .thrown _ => True
  | _ => False

namespace Jumps

/-- The note says where jumps can go.  No other jump leaves a statement, none leaves the statement
that it is meant for, and none leaves anything that is no statement. -/
def observer : Supervisor Targets where
  inside t task _ := t.inside task
  admits _ _ _ := True
  accepts t task _ o _ := ∀ c, o = .error c → t.Leaves Abrupt.IsThrown task c

variable {host : Host} {m : Machine}

theorem run_observer (hhost : host.Embeds Program.Accepted Abrupt.IsThrown) {note : Conduct.Note}
    {task : Task} (hadmits : (Conduct.supervisor Abrupt.IsThrown).admits note task m)
    (bound : Nat) : observer.run host bound note.targets task m = runTask host bound task m := by
  have hgoverns := Conduct.governs (fun _ => trivial) hhost
  refine hgoverns.run_eq observer Conduct.Note.targets (fun _ _ _ _ => rfl) (fun _ _ _ _ => trivial)
    ?_ bound note task m hadmits
  rintro note task m o m' _ ⟨_, _, hcompletes⟩ c rfl
  exact hcompletes

/-- Whatever the embedding program asks for on a machine that sessions lead to, each task on the way
completes as the statements around it allow; a program as a whole completes normally or with an
exception. -/
theorem every_jump_lands (hhost : host.Embeds Program.Accepted Abrupt.IsThrown)
    (hm : Machine.Reachable host Program.Accepted m) :
    (∀ task, (Setting.embedding Program.Accepted Abrupt.IsThrown).asks task → ∀ bound,
      observer.run host bound .outside task m = runTask host bound task m ∧
        Ends (fun o _ => ∀ c, o = .error c → c.IsThrown) (runTask host bound task m)) ∧
    (∀ p, p.Accepted → ∀ bound c m',
      m.runProgram p host bound = (.done (.error c), m') → c.IsThrown) := by
  have hsound := Conduct.sound_of_reachable (fun _ => trivial) hhost hm
  have hends : ∀ task, (Setting.embedding Program.Accepted Abrupt.IsThrown).asks task → ∀ bound,
      Ends (fun o _ => ∀ c, o = .error c → c.IsThrown) (runTask host bound task m) := by
    intro task htask bound
    have hadmits := Conduct.admits_of_asks hsound htask
    refine ((Conduct.governs (fun _ => trivial) hhost).ends bound _ task m hadmits).mono ?_
    rintro o m' ⟨_, _, hcompletes⟩ c rfl
    exact Conduct.may_of_leaves (fun s scope labels heq => by rw [heq] at htask; exact htask)
      hcompletes
  refine ⟨fun task htask bound => ⟨?_, hends task htask bound⟩, ?_⟩
  · exact run_observer hhost (Conduct.admits_of_asks hsound htask) bound
  · intro p hp bound c m' hrun
    exact (hends (.program p) hp bound).of_run_attempt hrun c rfl

theorem every_jump_lands_calling_back :
    observer.run .callBack 9 .outside (.indirectEval (.string (.ofString "a: for (;;) break a")))
        (.initial {}) =
      runTask .callBack 9 (.indirectEval (.string (.ofString "a: for (;;) break a")))
        (.initial {}) :=
  ((every_jump_lands (Host.callBack_embeds _ _) (.initial {})).1
    (.indirectEval (.string (.ofString "a: for (;;) break a"))) trivial 9).1

end Jumps

end ProtoScript
