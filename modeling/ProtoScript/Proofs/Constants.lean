import ProtoScript.Proofs.Integrity.Sessions
/-!
# Constants

A constant, a read-only name and the own name of a function expression keep their value once they
have it.  Assignments of every form respect that, and so do declarations with `var`.  What does not
is giving a name its first value, which pays no heed to what the scope binds the name to already: a
function declaration that is hoisted into the scope, and a second lexical declaration in the scope.
So a binding that is settled stays as it is exactly as long as its name is not redeclared like that.
-/

namespace ProtoScript.Constants

open Integrity

variable {host : Host} {m m' : Machine} {id : ScopeId} {name : String}

/-- What the scope has bound the name to for good before is there as it was, with its value and its
kind. -/
def KeepsSettled (id : ScopeId) (name : String) (m m' : Machine) : Prop :=
  ∀ b, m.store.binding? id name = some b → b.Settled → m'.store.binding? id name = some b

theorem KeepsSettled.trans {m'' : Machine} (h : KeepsSettled id name m m')
    (h' : KeepsSettled id name m' m'') : KeepsSettled id name m m'' :=
  fun b hb hsettled => h' b (h b hb hsettled) hsettled

/-- Admits every task but those that redeclare the name in the scope when it is settled there. -/
def careful (id : ScopeId) (name : String) : Supervisor Unit where
  inside _ _ _ := ()
  admits _ task m := ¬ task.Redeclares id name m
  accepts _ _ _ _ _ := True

/-- Admits the same tasks, and lets no task end that has changed the binding once it is settled. -/
def keeper (id : ScopeId) (name : String) : Supervisor Unit where
  inside _ _ _ := ()
  admits _ task m := ¬ task.Redeclares id name m
  accepts _ _ m _ m' := KeepsSettled id name m m'

/-- No task in the run of a task redeclares the name in the scope when it is settled there. -/
def Careful (host : Host) (id : ScopeId) (name : String) (bound : Nat) (task : Task) (m : Machine) :
    Prop :=
  (careful id name).run host bound () task m = runTask host bound task m

/-- The second machine comes from the first by evaluating texts and running programs that redeclare
the name nowhere in the scope when it is settled there. -/
inductive CarefulSession (host : Host) (id : ScopeId) (name : String) (m : Machine) :
    Machine → Prop
  | refl : CarefulSession host id name m m
  | takeOutput {m' : Machine} (before : CarefulSession host id name m m') :
      CarefulSession host id name m m'.takeOutput.2
  | evaluate {m' m'' : Machine} {source : String} {bound : Nat}
      {result : Except ScriptError Value} (before : CarefulSession host id name m m')
      (careful : ∀ p, Program.ofString source m'.settings.strict = .ok p →
        Careful host id name bound (.program p) m')
      (evaluated : m'.evaluate source host bound = (.done result, m'')) :
      CarefulSession host id name m m''
  | runProgram {m' m'' : Machine} {p : Program} {bound : Nat} {o : Except Abrupt Value}
      (before : CarefulSession host id name m m') (allowed : p.Accepted)
      (careful : Careful host id name bound (.program p) m')
      (ran : m'.runProgram p host bound = (.done o, m'')) : CarefulSession host id name m m''

/-! ### One run -/

abbrev one (id : ScopeId) (name : String) : Supervisor Value :=
  supervisor ⟨fun other key => other = id ∧ key = name, fun _ => False⟩

theorem keepsSettled_of_accepts {receiver : Value} {task : Task} {o : Except Abrupt Value}
    (h : (one id name).accepts receiver task m o m') : KeepsSettled id name m m' :=
  fun b hb hsettled => h.1.settled id name b ⟨Store.lt_of_binding? hb, rfl, rfl⟩ hb hsettled

/-- The keeper never finds fault where nothing is redeclared: whatever a task is cut off for, it is
cut off for in the careful run as well. -/
theorem run_keeper_eq (hhost : host.Courteous) (bound : Nat) : ∀ receiver task m,
    (one id name).admits receiver task m →
      (keeper id name).run host bound () task m = (careful id name).run host bound () task m ∧
        Ends ((one id name).accepts receiver task m)
          ((careful id name).run host bound () task m) := by
  induction bound with
  | zero => exact fun _ _ _ _ => ⟨rfl, trivial⟩
  | succ depth ih =>
    intro receiver task m hadmits
    by_cases hredeclares : task.Redeclares id name m
    · have hkeeper : (keeper id name).run host (depth + 1) () task m = _ :=
        Supervisor.run_of_refused fun h => h hredeclares
      have hcareful : (careful id name).run host (depth + 1) () task m = _ :=
        Supervisor.run_of_refused fun h => h hredeclares
      rw [hkeeper, hcareful]
      exact ⟨rfl, trivial⟩
    · -- One level down the two runs are the same, which is all that the rule asks of its engines.
      have hagrees : (one id name).Agrees ((one id name).inside receiver task m)
          ⟨depth, (keeper id name).run host depth ()⟩
          ⟨depth, (careful id name).run host depth ()⟩ :=
        ⟨rfl, fun task' m' h => (ih _ task' m' h).1, fun task' m' h => (ih _ task' m' h).2⟩
      have hwatched : ∀ other key, other = id ∧ key = name → ¬ task.Redeclares other key m := by
        rintro _ _ ⟨rfl, rfl⟩
        exact hredeclares
      obtain ⟨heq, hends⟩ :=
        alike_rule hhost hadmits hwatched (task.keepsParameters_of_none m) hagrees
      have hcareful : (careful id name).run host (depth + 1) () task m =
          Engine.rule host ⟨depth, (careful id name).run host depth ()⟩ task m :=
        Supervisor.run_eq_rule hredeclares (hends.mono fun _ _ _ => trivial)
      have hkeeper : (keeper id name).run host (depth + 1) () task m =
          Engine.rule host ⟨depth, (keeper id name).run host depth ()⟩ task m :=
        Supervisor.run_eq_rule hredeclares ((congrArg (Ends _) heq).mpr
          (hends.mono fun _ _ => keepsSettled_of_accepts))
      exact ⟨hkeeper.trans (heq.trans hcareful.symm), hcareful ▸ hends⟩

theorem keepsSettled_of_careful (hhost : host.Courteous) {receiver : Value} {task : Task}
    (hadmits : (one id name).admits receiver task m) {bound : Nat}
    (hcareful : Careful host id name bound task m) :
    (keeper id name).run host bound () task m = runTask host bound task m ∧
      Ends (fun _ m' => KeepsSettled id name m m') (runTask host bound task m) := by
  obtain ⟨hkeeper, hends⟩ := run_keeper_eq hhost bound receiver task m hadmits
  refine ⟨hkeeper.trans hcareful, ?_⟩
  rw [← hcareful]
  exact hends.mono fun _ _ => keepsSettled_of_accepts

/-! ### Sessions -/

theorem keepsSettled_of_runProgram (hhost : host.Courteous) (hm : m.Intact) {p : Program}
    (hp : p.Accepted) {bound : Nat} {o : Except Abrupt Value}
    (hcareful : Careful host id name bound (.program p) m)
    (h : m.runProgram p host bound = (.done o, m')) : KeepsSettled id name m m' := by
  have hadmits : (one id name).admits .undefined (.program p) m := admits_of_asks hm hp nofun
  exact (keepsSettled_of_careful hhost hadmits hcareful).2.of_run_attempt h

theorem CarefulSession.continues (h : CarefulSession host id name m m') :
    Machine.Continues host m m' := by
  induction h with
  | refl => exact .refl
  | takeOutput _ ih => exact ih.takeOutput
  | evaluate _ _ evaluated ih => exact ih.evaluate evaluated
  | runProgram _ allowed _ ran ih => exact ih.runProgram allowed ran

theorem keepsSettled_of_session (hhost : host.Courteous) (hm : m.Intact)
    (h : CarefulSession host id name m m') : KeepsSettled id name m m' := by
  induction h with
  | refl => exact fun _ hb _ => hb
  | takeOutput _ ih => exact ih
  | evaluate before careful evaluated ih =>
    have hbefore := (follows_of_continues hhost hm before.continues).intact
    obtain ⟨rfl, _⟩ | ⟨p, o, hp, hran, _⟩ := Machine.ran_of_evaluate evaluated
    · exact ih
    · exact ih.trans (keepsSettled_of_runProgram hhost hbefore ⟨_, _, hp⟩ (careful p hp) hran)
  | runProgram before allowed careful ran ih =>
    have hbefore := (follows_of_continues hhost hm before.continues).intact
    exact ih.trans (keepsSettled_of_runProgram hhost hbefore allowed careful ran)

def readOnlyGlobals : List (String × Value) :=
  [("undefined", .undefined), ("NaN", .number Number.nan), ("Infinity", .number Number.infinity)]

/-- The read-only names are settled at the beginning, whatever else the host installs. -/
theorem binding?_readOnlyGlobal {settings : Settings} {functions : List (String × Nat)}
    {value : Value} (hname : (name, value) ∈ readOnlyGlobals)
    (hfunctions : ∀ f ∈ functions, f.1 ≠ "this" ∧ f.1 ≠ name) :
    ((Machine.initial settings).installHost functions).store.binding? .global name =
      some ⟨value, .readOnly, true⟩ := by
  have hinitial : (Machine.initial settings).store.binding? .global name =
      some ⟨value, .readOnly, true⟩ := by
    simp only [readOnlyGlobals, List.mem_cons, Prod.mk.injEq, List.not_mem_nil, or_false] at hname
    rcases hname with ⟨rfl, rfl⟩ | ⟨rfl, rfl⟩ | ⟨rfl, rfl⟩
    all_goals exact Store.binding?_initial settings (by decide) rfl ⟨rfl, rfl⟩
  have hinstalled : (Machine.initial settings).store.Leads (.names fun _ other => other = name)
      ((Machine.initial settings).installHost functions).store :=
    (intact_initial settings).store.installHost (fun f hf => (hfunctions f hf).1)
      fun f hf => (hfunctions f hf).2
  exact hinstalled.evolves.settled .global name _ rfl hinitial ⟨rfl, rfl⟩

/-! ### Programs that assign to a name -/

def assigning (name : String) : Program :=
  ⟨[.expression (.assign none (.identifier name) (.literal .null))], false⟩

def isAssigning (name : String) : Except SyntaxError Program → Bool
  | .ok ⟨[.expression (.assign none (.identifier target) (.literal .null))], false⟩ =>
    target == name
  | _ => false

theorem eq_assigning {r : Except SyntaxError Program} (h : isAssigning name r = true) :
    r = .ok (assigning name) := by
  unfold isAssigning at h
  split at h
  · rw [beq_iff_eq.mp h]
    rfl
  · cases h

theorem accepted_assigning : (assigning "NaN").Accepted :=
  ⟨"NaN = null", false, eq_assigning (by decide +kernel)⟩

/-- A task is carried out carefully if it redeclares nothing itself and its rule does the same with
the careful run as with the run. -/
theorem careful_of_rule {depth : Nat} {task : Task} (htask : ∀ m, ¬ task.Redeclares id name m)
    (hrule : Engine.rule host ⟨depth, (careful id name).run host depth ()⟩ task =
      Engine.rule host ⟨depth, runTask host depth⟩ task) :
    (careful id name).run host (depth + 1) () task = runTask host (depth + 1) task := by
  funext m
  have hcareful : (careful id name).run host (depth + 1) () task m =
      Engine.rule host ⟨depth, (careful id name).run host depth ()⟩ task m :=
    Supervisor.run_eq_rule (htask m) (Ends.of_forall (fun _ _ => trivial) _)
  exact hcareful.trans (congrFun hrule m)

theorem careful_assigning (target : String) (depth : Nat) (m : Machine) :
    Careful host id name (depth + 4) (.program (assigning target)) m := by
  -- From the inside out: no task of the run redeclares anything.
  have hvalue (scope : ScopeId) :
      (careful id name).run host (depth + 1) () (.evaluate (.literal .null) scope) =
        runTask host (depth + 1) (.evaluate (.literal .null) scope) :=
    careful_of_rule (fun _ h => h.2) rfl
  obtain ⟨x, hx⟩ : ∃ x : Expr, x = .assign none (.identifier target) (.literal .null) := ⟨_, rfl⟩
  have hassign (scope : ScopeId) : (careful id name).run host (depth + 2) () (.evaluate x scope) =
      runTask host (depth + 2) (.evaluate x scope) := by
    rw [hx]
    refine careful_of_rule (fun _ h => h.2) ?_
    unfold Engine.rule Engine.expression Engine.assign Engine.evaluateNamed Engine.evaluate
    dsimp only
    rw [hvalue]
  have hstatement (scope : ScopeId) :
      (careful id name).run host (depth + 3) () (.execute (.expression x) scope []) =
        runTask host (depth + 3) (.execute (.expression x) scope []) :=
    careful_of_rule (fun _ h => h.2) (hassign scope)
  refine congrFun (careful_of_rule (fun _ h => ?_) ?_) m
  · exact absurd h.2.2 List.not_mem_nil
  · unfold Engine.rule Engine.program assigning Engine.statements Engine.execute
    dsimp only
    rw [← hx, hstatement]
    rfl

/-- Whatever the embedding program asks for on a machine that sessions lead to, each task on the way
leaves a binding as it is once it is settled, unless a task on the way redeclares the name in the
same scope.  So does every session, and the read-only names keep the values that they have at the
beginning. -/
theorem settled_unless_redeclared (hhost : host.Courteous)
    (hm : Machine.Reachable host Program.Accepted m) :
    (∀ id name task, (Setting.embedding Program.Accepted fun _ => True).asks task →
      (∀ v ∈ task.values, m.Knows v) → ∀ bound, Careful host id name bound task m →
        (keeper id name).run host bound () task m = runTask host bound task m ∧
          Ends (fun _ m' => KeepsSettled id name m m') (runTask host bound task m)) ∧
    (∀ id name m', CarefulSession host id name m m' → KeepsSettled id name m m') ∧
    (∀ settings functions name value, (name, value) ∈ readOnlyGlobals →
      (∀ f ∈ functions, f.1 ≠ "this" ∧ f.1 ≠ name) → ∀ m',
        CarefulSession host .global name ((Machine.initial settings).installHost functions) m' →
          m'.store.binding? .global name = some ⟨value, .readOnly, true⟩) := by
  have hintact := (intact_of_reachable hhost hm).1
  refine ⟨fun id name task htask hvalues bound hcareful => ?_,
    fun id name m' hsession => keepsSettled_of_session hhost hintact hsession,
    fun settings functions name value hname hfunctions m' hsession => ?_⟩
  · have hadmits : (one id name).admits .undefined task m := admits_of_asks hintact htask hvalues
    exact keepsSettled_of_careful hhost hadmits hcareful
  · have hinstalled : Machine.Reachable host Program.Accepted _ :=
      .installHost functions (.initial settings)
    have hkeeps := keepsSettled_of_session hhost (intact_of_reachable hhost hinstalled).1 hsession
    exact hkeeps _ (binding?_readOnlyGlobal hname hfunctions) ⟨rfl, rfl⟩

theorem settled_unless_redeclared_assigning :
    Ends (fun _ m' => KeepsSettled .global "NaN" (.initial {}) m')
      (runTask .callBack 9 (.program (assigning "NaN")) (.initial {})) :=
  ((settled_unless_redeclared Host.callBack_courteous (.initial {})).1 .global "NaN"
    (.program (assigning "NaN")) accepted_assigning nofun 9 (careful_assigning "NaN" 5 _)).2

-- The exception is real: a function takes the place of a read-only value.
example : ((Machine.evaluate (.initial {}) "function NaN() {}" .none 50).2.store.binding? .global
    "NaN").any (fun b => b.value.isObject && b.kind.isFixed) = true := by
  decide +kernel

end ProtoScript.Constants
