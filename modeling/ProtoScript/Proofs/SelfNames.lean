import ProtoScript.Proofs.Declarations
import ProtoScript.Proofs.Integrity.Rules
import ProtoScript.Proofs.Integrity.Sessions
/-!
# Function expressions find themselves

A call of a named function expression makes a scope for that name alone.  There the name is bound to
the function, and it stays so: nothing in the call or after it declares, binds or assigns anything
in that scope.  Assigning to the name is without effect if the function is sloppy, and throws a
`TypeError` if it is strict.
-/

namespace ProtoScript

theorem NameMap.insert_of_find? {β : Type} {a : NameMap β} {key : String} {value : β}
    (h : a.find? key = some value) : a.insert key value = a := by
  have hentries : ∀ entries : List (String × β), entries.lookup key = some value →
      insertEntry key value entries = entries := by
    intro entries
    induction entries with
    | nil => exact nofun
    | cons entry rest ih =>
      obtain ⟨k, v⟩ := entry
      intro hfound
      by_cases hk : key = k
      · subst hk
        rw [List.lookup_cons_self] at hfound
        cases hfound
        simp only [insertEntry, beq_self_eq_true, if_true]
      · rw [List.lookup_cons, beq_false_of_ne hk] at hfound
        simp only [insertEntry, beq_false_of_ne hk, Bool.false_eq_true, if_false, ih hfound]
  exact congrArg NameMap.mk (hentries a.entries h)

variable {s : Store} {scope holder : ScopeId} {name : String} {function : Value}

/-- An assignment finds the name of a function expression, and leaves the store as it is. -/
theorem Store.assign_of_selfName {guarded : Bool}
    (h : s.resolve? scope name = some (holder, ⟨function, .selfName guarded, true⟩))
    (value : Value) :
    s.assign scope name value = (if guarded then .error .selfName else .ok (), s) := by
  unfold Store.assign
  rw [h]
  cases guarded with
  | true => rfl
  | false =>
    refine congrArg (Prod.mk _) (modifyScope_of_eq fun a ha => ?_)
    obtain ⟨b, hb, hfound⟩ := Option.bind_eq_some_iff.mp (binding?_of_resolve? h)
    cases ha.symm.trans hb
    show { a with bindings := _ } = a
    rw [NameMap.insert_of_find? hfound]

namespace SelfNames

open Engine Integrity

variable {host : Host} {m m' : Machine} {guarded : Bool}

/-- The write has no effect; or it is refused, if the name is guarded: a `TypeError` is thrown, and
the scopes are as they were. -/
def Spares (guarded : Bool) (name : String) (m : Machine) (write : Eval Unit) : Prop :=
  if guarded then
    ∃ error m', write m = .error (.abrupt (.thrown (.object error))) m' ∧
      m'.store.scopes = m.store.scopes ∧
      m'.store.object? error = some (.error .typeError (Fault.constantName name).message)
  else write m = .ok () m

theorem spares_assignName
    (h : m.store.resolve? scope name = some (holder, ⟨function, .selfName guarded, true⟩))
    (value : Value) : Spares guarded name m (Eval.assignName name value scope) := by
  unfold Spares
  rw [Eval.assignName_eq, Store.assign_of_selfName h value]
  cases guarded with
  | true => exact ⟨_, _, rfl, rfl, m.store.object?_allocate_self _⟩
  | false => rfl

/-- Any call begins by making the scope for the function's own name, where the name is bound to the
function from then on. -/
theorem callClosure_selfScope (e : Engine) {d : FunctionDef} (hname : d.selfName? = some name)
    (scope : ScopeId) (function given : Value) (arguments : List Value) (m : Machine) :
    e.callClosure d scope function given arguments m =
        (do
          let parameters ←
            e.enterParameters d ⟨m.store.scopes.size⟩ function given arguments
          let inner ← openBody d parameters
          e.runBody d inner : Eval Value)
          { m with store := m.store.selfScope scope name d.strict function } ∧
      (Entry.self name function d.strict).Holds (m.store.selfScope scope name d.strict function)
        ⟨m.store.scopes.size⟩ := by
  refine ⟨?_, Entry.holds_selfScope ..⟩
  rw [callClosure_eq]
  simp only [Bind.bind, EStateM.bind, selfScope_eq hname]

/-! ### All runs -/

/-- Whatever is recorded is true where a task begins and where it ends, and it is recorded where a
call of a function expression makes the scope in which the function finds itself. -/
def observer (θ : Ledger) : Supervisor Unit where
  inside _ _ _ := ()
  admits _ task m :=
    θ.HoldsIn m.store ∧
      match task with
      | .closure d scope function _ _ =>
        m.store.callable? function = some (.closure d scope) ∧
          ∀ name ∈ d.selfName?, θ ⟨m.store.scopes.size⟩ = some (.self name function d.strict)
      | _ => True
  accepts _ _ _ _ m' := θ.HoldsIn m'.store

theorem lenient_observer : Lenient observer fun _ => () where
  inside _ _ _ _ := rfl
  admits θ seat task m _ _ hready hholds _ hself := by
    refine ⟨hholds, ?_⟩
    cases task with
    | closure d scope function receiver arguments => exact ⟨hready.1, hself⟩
    | _ => trivial
  accepts _ _ _ _ _ _ _ hholds := hholds

/-- On a machine that sessions lead to, let some scopes be recorded as those in which function
expressions find themselves.  Whatever the embedding program then asks for, and however deep inside
that a named function expression is called, the name is bound to the function in a scope of its own
from the beginning of the call on, and at the beginning and at the end of every task from then on;
so are the names recorded before, and they stay so during every session.  Wherever such a name is
found, writing to it has no effect, or throws a `TypeError` if the function is strict. -/
theorem self_name_lasts (hhost : host.Courteous)
    (hm : Machine.Reachable host Program.Accepted m) :
    (∀ (e : Engine) d name scope function given arguments (m : Machine), d.selfName? = some name →
      e.callClosure d scope function given arguments m =
          (do
            let parameters ←
              e.enterParameters d ⟨m.store.scopes.size⟩ function given arguments
            let inner ← openBody d parameters
            e.runBody d inner : Eval Value)
            { m with store := m.store.selfScope scope name d.strict function } ∧
        (Entry.self name function d.strict).Holds
          (m.store.selfScope scope name d.strict function) ⟨m.store.scopes.size⟩) ∧
    (∀ θ₀ : Ledger, θ₀.HoldsIn m.store →
      (∀ task, (Setting.embedding Program.Accepted fun _ => True).asks task →
        (∀ v ∈ task.values, m.Knows v) → ∀ bound,
          ∃ θ : Ledger, (∀ id, id.index < m.store.scopes.size → θ id = θ₀ id) ∧
            (observer θ).run host bound () task m = runTask host bound task m) ∧
      ∀ m', Machine.Continues host m m' → ∀ id entry, id.index < m.store.scopes.size →
        θ₀ id = some entry → entry.Holds m'.store id) ∧
    (∀ (e : Engine) (m : Machine) scope name holder function guarded,
      m.store.resolve? scope name = some (holder, ⟨function, .selfName guarded, true⟩) →
        ∀ value, Spares guarded name m (Eval.assignName name value scope) ∧
          Spares guarded name m (Eval.putReference (.name name) value scope) ∧
          Spares guarded name m (e.bindPattern (.identifier name) value scope false)) := by
  have hintact := (intact_of_reachable hhost hm).1
  refine ⟨fun e d name scope function given arguments m hname =>
    callClosure_selfScope e hname scope function given arguments m,
    fun θ₀ h₀ => ⟨fun task htask hvalues bound => ?_, fun m' hsession id entry hid hentry => ?_⟩,
    fun e m scope name holder function guarded h value => ?_⟩
  · exact lenient_observer.exists_run_eq hhost hintact hvalues
      (readyAt_of_asks htask .outermost m) rfl h₀ bound
  · have hlater := (follows_of_continues hhost hintact hsession).evolves
    exact (h₀ id entry hid hentry).later hlater.retains
  · exact ⟨spares_assignName h value, spares_assignName h value, spares_assignName h value⟩

theorem self_name_lasts_calling_back :
    ∃ θ : Ledger, (∀ id, id.index < (Machine.initial {}).store.scopes.size →
        θ id = Ledger.empty id) ∧
      (observer θ).run .callBack 11 () (.indirectEval (.string (.ofString
          "(function f() \x7b eval('var f; f = 2;'); f = 1; return f; \x7d)()"))) (.initial {}) =
        runTask .callBack 11 (.indirectEval (.string (.ofString
          "(function f() \x7b eval('var f; f = 2;'); f = 1; return f; \x7d)()"))) (.initial {}) :=
  ((self_name_lasts Host.callBack_courteous (.initial {})).2.1 .empty
    (Ledger.holdsIn_empty _)).1 (.indirectEval (.string (.ofString
      "(function f() \x7b eval('var f; f = 2;'); f = 1; return f; \x7d)()"))) trivial
    (List.forall_mem_singleton.mpr trivial) 11

end SelfNames

end ProtoScript
