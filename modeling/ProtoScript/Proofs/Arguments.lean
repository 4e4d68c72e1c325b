import ProtoScript.Proofs.Arguments.Calls
import ProtoScript.Proofs.Integrity.Sessions
/-!
# Arguments and parameters

The arguments object of a sloppy function whose parameters are mere names is joined to them: at each
index for which there is an argument, to the parameter whose name stands there for the last time.
What is joined is one: it reads the same and takes what is written to either side, whoever writes it
and whenever, until the property is deleted or made read-only, and it never comes to be joined
again.  The one thing that can part a parameter from its property without that is a body that
declares the parameter anew with `let` or `const`.
-/

namespace ProtoScript

/-- If the task is a call of a function that shares its parameters in one of the scopes, then the
arguments are joined to them when they all have their values, and from then on to its end they stay
one with them. -/
def Task.JoinsArguments (task : Task) (J : ScopeId → Prop) (m m' : Machine) : Prop :=
  match task with
  | .closure d _ _ _ arguments =>
    J (d.parameterScope m.store) → d.SharesArguments →
      ∃ object s, m.store.StaysAliased J s ∧
        s.Activated d arguments (d.parameterScope m.store) object ∧ s.StaysAliased J m'.store
  | _ => True

namespace Arguments

open Integrity

variable {host : Host} {m m' : Machine} {J : ScopeId → Prop}

/-- Admits every task but calls, in the scopes, of functions that share their parameters and declare
one of them anew. -/
def careful (J : ScopeId → Prop) : Supervisor Unit where
  inside _ _ _ := ()
  admits _ task m := task.KeepsParameters J m
  accepts _ _ _ _ _ := True

/-- Admits the same tasks, and lets none begin where a parameter that is shared in the scopes is not
one with the property that shares it, nor end where that was not so all the time. -/
def observer (J : ScopeId → Prop) : Supervisor Unit where
  inside _ _ _ := ()
  admits _ task m := task.KeepsParameters J m ∧ m.store.Aliases J
  accepts _ task m _ m' := m.store.StaysAliased J m'.store ∧ task.JoinsArguments J m m'

/-- The supervisor of integrity, with parameters that are to stay variables. -/
abbrev keeper (J : ScopeId → Prop) : Supervisor Value := supervisor ⟨fun _ _ => False, J⟩

/-! ### One task -/

theorem bindsNames_careful (host : Host) (J : ScopeId → Prop) (depth : Nat) :
    Engine.BindsNames ⟨depth, (careful J).run host depth ()⟩ := by
  intro name value scope m
  cases depth with
  | zero => exact .inr ⟨m, rfl⟩
  | succ depth =>
    have hrun : (careful J).run host (depth + 1) () (.bind (.identifier name) value scope true) m =
        _ := Supervisor.run_eq_rule trivial trivial
    exact .inl hrun

theorem ends_joinsArguments (host : Host) {e e' : Engine} {receiver : Value} {task : Task}
    (hadmits : (keeper J).admits receiver task m) (hkeeps : task.KeepsParameters J m)
    (h : (keeper J).Agrees ((keeper J).inside receiver task m) e e') (hbinds : e'.BindsNames) :
    Ends (fun _ m' => task.JoinsArguments J m m') (Engine.rule host e' task m) := by
  obtain ⟨hm, hvalues, hready, hjoins⟩ := hadmits
  cases task with
  | closure d scope function given arguments =>
    obtain ⟨-, hd, hscope⟩ := hready
    obtain ⟨hfunction, hrest⟩ := List.forall_mem_cons.mp hvalues
    obtain ⟨hgiven, harguments⟩ := List.forall_mem_cons.mp hrest
    by_cases hshares : d.SharesArguments
    · refine (ends_callClosure h hd hshares hscope hfunction hgiven hbinds
        ⟨hm, Nat.le_refl _, hjoins⟩ harguments rfl hkeeps).mono ?_
      exact fun _ _ hended _ _ => hended
    · exact .of_forall (fun _ _ _ h => absurd h hshares) _
  | _ => exact .of_forall (fun _ _ => trivial) _

theorem run_observer_eq (hhost : host.Courteous) (bound : Nat) : ∀ receiver task m,
    (keeper J).admits receiver task m →
      (observer J).run host bound () task m = (careful J).run host bound () task m ∧
        Ends ((keeper J).accepts receiver task m) ((careful J).run host bound () task m) := by
  induction bound with
  | zero => exact fun _ _ _ _ => ⟨rfl, trivial⟩
  | succ depth ih =>
    intro receiver task m hadmits
    by_cases hkeeps : task.KeepsParameters J m
    · -- One level down the two runs are the same, which is all that the rule asks of its engines.
      have hagrees : (keeper J).Agrees ((keeper J).inside receiver task m)
          ⟨depth, (observer J).run host depth ()⟩ ⟨depth, (careful J).run host depth ()⟩ :=
        ⟨rfl, fun task' m' h => (ih _ task' m' h).1, fun task' m' h => (ih _ task' m' h).2⟩
      obtain ⟨heq, hends⟩ :=
        alike_rule hhost hadmits (fun _ _ => False.elim) hkeeps hagrees
      have hjoined := ends_joinsArguments host hadmits hkeeps hagrees
        (bindsNames_careful host J depth)
      obtain ⟨hm, -, -, hjoins⟩ := hadmits
      have hcareful : (careful J).run host (depth + 1) () task m =
          Engine.rule host ⟨depth, (careful J).run host depth ()⟩ task m :=
        Supervisor.run_eq_rule hkeeps (hends.mono fun _ _ _ => trivial)
      have hobserver : (observer J).run host (depth + 1) () task m =
          Engine.rule host ⟨depth, (observer J).run host depth ()⟩ task m := by
        refine Supervisor.run_eq_rule ⟨hkeeps, hjoins.aliases hm.store.shared⟩
          ((congrArg (Ends _) heq).mpr ((Ends.and hends hjoined).mono ?_))
        rintro o m' ⟨⟨hlater, -⟩, hended⟩
        exact ⟨hlater.staysAliased hm.store.shared hjoins, hended⟩
      exact ⟨hobserver.trans (heq.trans hcareful.symm), hcareful ▸ hends⟩
    · have hobserver : (observer J).run host (depth + 1) () task m = _ :=
        Supervisor.run_of_refused fun h => hkeeps h.1
      have hcareful : (careful J).run host (depth + 1) () task m = _ :=
        Supervisor.run_of_refused hkeeps
      rw [hobserver, hcareful]
      exact ⟨rfl, trivial⟩

/-! ### Whole sessions -/

theorem joins_of_new (hs : m.store.Intact) (hJ : ∀ id, J id → m.store.scopes.size ≤ id.index) :
    m.store.Joins J :=
  fun scope name hscope hshared =>
    absurd (hs.shares scope name hshared).2 (Nat.not_lt.mpr (hJ scope hscope))

/-- Take any scopes, among them such as are yet to be made by calls, in which no parameter that is
shared has come to be anything but a variable.  At every task of whatever the embedding program asks
for, the parameters that are shared there are one with the properties that share them, and so they
are at every store on the way through the task, on which a property ceases to share its parameter
just when it is deleted or made read-only and never begins to again; and a call that makes one of
the scopes begins with each of its parameters joined to the argument at the last place of its name.
All that can end this is a call, in one of the scopes, of a function that declares a parameter of
its own with `let` or `const`.  In scopes that are there already nothing can. -/
theorem arguments_alias_parameters (hhost : host.Courteous)
    (hm : Machine.Reachable host Program.Accepted m) (hjoins : m.store.Joins J) :
    (∀ task, (Setting.embedding Program.Accepted fun _ => True).asks task →
      (∀ v ∈ task.values, m.Knows v) → ∀ bound,
        (observer J).run host bound () task m = (careful J).run host bound () task m) ∧
    ((∀ id, J id → id.index < m.store.scopes.size) →
      ∀ m', Machine.Continues host m m' → m.store.StaysAliased J m'.store) := by
  have hintact := (intact_of_reachable hhost hm).1
  refine ⟨fun task htask hvalues bound => ?_, fun hold m' hcontinues => ?_⟩
  · have hadmits : (keeper J).admits .undefined task m :=
      admits_of_joins hintact hjoins htask hvalues
    exact (run_observer_eq hhost bound .undefined task m hadmits).1
  · have hcomes : m.store.ComesBy ⟨fun _ _ => False, J, fun _ => False⟩ m'.store :=
      (follows_of_continues hhost hintact hcontinues).evolves.comesBy.mono hold
        fun _ => False.elim
    exact hcomes.staysAliased hintact.store.shared hjoins

theorem arguments_alias_parameters_calling_back :
    (observer fun id => 1 ≤ id.index).run .callBack 9 ()
        (.indirectEval (.string (.ofString "(function (a) { arguments[0] = 1; return a; })(0)")))
        (.initial {}) =
      (careful fun id => 1 ≤ id.index).run .callBack 9 ()
        (.indirectEval (.string (.ofString "(function (a) { arguments[0] = 1; return a; })(0)")))
        (.initial {}) :=
  (arguments_alias_parameters Host.callBack_courteous (.initial {})
    (joins_of_new (intact_initial {}).store fun _ hid => Nat.le_trans (by decide +kernel) hid)).1
    (.indirectEval (.string (.ofString "(function (a) { arguments[0] = 1; return a; })(0)")))
    trivial (List.forall_mem_singleton.mpr trivial) 9

end Arguments

end ProtoScript
