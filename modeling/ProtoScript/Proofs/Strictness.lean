import ProtoScript.Proofs.Conduct.Rules
import ProtoScript.Proofs.Hygiene
/-!
# How strict code is in fact

Code is as strict as it is meant to be: a program as it says itself, a function as its definition, a
text that is evaluated by its name as it says itself or as the code around it is.  There is one
exception.  While a strict program runs, the global scope itself is strict, and scopes take their
strictness from the scope around them.  So a text that is evaluated in the global scope meanwhile,
and a program that is run meanwhile, are strict even if they do not ask for it; nothing else ever
is.
-/

namespace ProtoScript.Strictness

/-- The note says how strict the code at hand is meant to be.  What is evaluated in a scope finds
the scope as strict as that exactly if the code has not slipped. -/
def observer : Supervisor Strictness where
  inside n task _ := n.inside task
  admits n task m :=
    match task with
    | .evaluate _ scope => m.store.isStrict scope = n.assigned ↔ n.slipped = false
    | .execute _ scope _ => m.store.isStrict scope = n.assigned ↔ n.slipped = false
    | .bind _ _ scope _ => m.store.isStrict scope = n.assigned ↔ n.slipped = false
    | _ => True
  accepts _ _ _ _ _ := True

variable {host : Host} {m : Machine}

theorem agrees_of_hosts {n : Strictness} {scope : ScopeId} (h : m.store.Hosts n scope) :
    m.store.isStrict scope = n.assigned ↔ n.slipped = false := by
  rw [h.strict]
  exact n.isStrict_eq_assigned_iff

/-- Whatever the embedding program asks for on a machine that sessions lead to, the code on the way
is strict exactly as it is meant to be, unless it came in by an indirect `eval` or as a further
program while a strict program was running, and does not ask for strict mode: then it is strict all
the same. -/
theorem strict_as_assigned_unless_slipped (hhost : host.Embeds Program.Accepted fun _ => True)
    (hm : Machine.Reachable host Program.Accepted m) (task : Task)
    (htask : (Setting.embedding Program.Accepted fun _ => True).asks task) (bound : Nat) :
    observer.run host bound (.outside m.settings.strict) task m = runTask host bound task m := by
  have hsound := Conduct.sound_of_reachable (fun _ => trivial) hhost hm
  have hgoverns := Conduct.governs (fun _ => trivial) hhost
  have hglobal : m.store.isStrict .global = m.settings.strict :=
    Hygiene.isStrict_of_reachable (hhost.mono (fun _ _ => trivial) fun _ _ => trivial)
      (hm.mono fun _ _ => trivial)
  rw [← hglobal]
  refine hgoverns.run_eq observer Conduct.Note.strictness (fun _ _ _ _ => rfl) ?_
    (fun _ _ _ _ _ _ _ => trivial) bound _ task m (Conduct.admits_of_asks hsound htask)
  rintro note task m ⟨_, _, htask⟩
  cases task with
  | evaluate x scope => exact agrees_of_hosts htask.2
  | execute s scope labels => exact agrees_of_hosts htask.2.1
  | bind p value scope fresh => exact agrees_of_hosts htask.2.1
  | _ => trivial

theorem strict_as_assigned_unless_slipped_calling_back :
    observer.run .callBack 9 (.outside false)
        (.indirectEval (.string (.ofString "'use strict'; a"))) (.initial {}) =
      runTask .callBack 9 (.indirectEval (.string (.ofString "'use strict'; a"))) (.initial {}) :=
  strict_as_assigned_unless_slipped (Host.callBack_embeds _ _) (.initial {})
    (.indirectEval (.string (.ofString "'use strict'; a"))) trivial 9

end ProtoScript.Strictness
