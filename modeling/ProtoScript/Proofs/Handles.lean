import ProtoScript.Proofs.Integrity.Sessions
/-!
# Every handle has its object

An object is referred to by its place among all objects.  No place that is found anywhere — in a
binding, in a property, among the elements of an array, in a wrapper, in what arguments share with
parameters, as a prototype, as the result of anything — lies behind the last object, and objects are
never taken away.  So looking up an object never fails, however a program got hold of it.
-/

namespace ProtoScript

structure Machine.Whole (m : Machine) : Prop where
  slots : ∀ id r key p, m.store.object? id = some r → (key, p) ∈ r.slots.values.entries →
    m.Knows p.value
  elements : ∀ id r es v, m.store.object? id = some r → r.elements = some es → some v ∈ es →
    m.Knows v
  primitives : ∀ id r v, m.store.object? id = some r → r.primitive = some v → m.Knows v
  shared : ∀ id r key scope name, m.store.object? id = some r →
    (key, scope, name) ∈ r.sharedParameters.entries → ∀ v ∈ m.store.lookup? scope name, m.Knows v
  prototypes : ∀ id r p, m.store.object? id = some r → r.prototype = some p →
    (m.store.object? p).isSome = true
  bindings : ∀ id a name b, m.store.scope? id = some a → (name, b) ∈ a.bindings.entries →
    m.Knows b.value
  newTarget : ∀ v ∈ m.newTarget, m.Knows v
  evalFunction : m.Knows (.object .evalFunction)
  globalObject : m.Knows (.object .globalObject)

namespace Handles

open Integrity

variable {host : Host} {m m' : Machine}

theorem whole_of_intact (hm : m.Intact) : m.Whole where
  slots id r key p hr hp := (hm.store.records id r hr).slots (key, p) hp
  elements id r es v hr hes hv := (hm.store.records id r hr).elements es hes v hv
  primitives id r v hr hv := (hm.store.records id r hr).primitive v hv
  shared _ _ _ _ _ _ _ _ hv := hm.store.within_lookup? hv
  prototypes id r p hr hp :=
    Option.isSome_iff_exists.mpr
      (Store.object?_eq_some_iff.mpr ((hm.store.records id r hr).prototype p hp))
  bindings id a name b ha hb := hm.store.bindings id a ha (name, b) hb
  newTarget := hm.newTarget
  evalFunction := hm.store.lt_intrinsic (by decide)
  globalObject := hm.store.lt_intrinsic (by decide)

/-- Something that began on the first machine has ended on the second with some values. -/
structure Ended (m m' : Machine) (values : List Value) : Prop where
  /-- No object has been taken away. -/
  size_le : m.store.objects.size ≤ m'.store.objects.size
  whole : m'.Whole
  known : ∀ v ∈ values, m'.Knows v

theorem ended_of_follows {values : List Value} (h : Follows m m')
    (hvalues : ∀ v ∈ values, m'.Knows v) : Ended m m' values :=
  ⟨h.evolves.objects, whole_of_intact h.intact, hvalues⟩

/-- Nothing that a task is about is missing when it begins, nor what it ends with when it ends. -/
def observer : Supervisor Unit where
  inside _ _ _ := ()
  admits _ task m := m.Whole ∧ ∀ v ∈ task.values, m.Knows v
  accepts _ _ m o m' := Ended m m' (Abrupt.outcomeValues o)

theorem run_observer (hhost : host.Courteous) {note : Value} {task : Task}
    (hadmits : (supervisor .nothing).admits note task m) (bound : Nat) :
    observer.run host bound () task m = runTask host bound task m := by
  refine (governs hhost).run_eq observer (fun _ => ()) (fun _ _ _ _ => rfl) ?_ ?_ bound note task m
    hadmits
  · rintro _ _ m ⟨hm, hvalues, _⟩
    exact ⟨whole_of_intact hm, hvalues⟩
  · rintro _ _ m o m' _ ⟨hlater, hm', hended, _⟩
    exact ⟨hlater.objects, whole_of_intact hm', knows_outcomeValues hended⟩

/-- On every machine that sessions lead to, nothing that is referred to is missing; so it stays at
every task of whatever the embedding program asks for, for the values that it gets out of it and for
what it evaluates.  A value that refers to an object then has a record, and the handle of a new
object is its place. -/
theorem every_handle_resolves (hhost : host.Courteous)
    (hm : Machine.Reachable host Program.Accepted m) :
    m.Whole ∧
    (∀ task, (Setting.embedding Program.Accepted fun _ => True).asks task →
      (∀ v ∈ task.values, m.Knows v) → ∀ bound,
        observer.run host bound () task m = runTask host bound task m) ∧
    (∀ p, p.Accepted → ∀ bound o m', m.runProgram p host bound = (.done o, m') →
      Ended m m' (Abrupt.outcomeValues o)) ∧
    (∀ source bound result m', m.evaluate source host bound = (.done result, m') →
      Ended m m' (ScriptError.resultValues result)) ∧
    (∀ v, m.Knows v → v.isObject = true → (m.store.objectOf? v).isSome = true) ∧
    (∀ r, (m.store.allocate r).1.index = m.store.objects.size ∧
      (m.store.allocate r).2.object? (m.store.allocate r).1 = some r) := by
  have hintact := (intact_of_reachable hhost hm).1
  refine ⟨whole_of_intact hintact, fun task htask hvalues bound => ?_,
    fun p hp bound o m' hran => ?_, fun source bound result m' hevaluated => ?_,
    fun v hv hobject => Store.objectOf?_isSome hv hobject, fun r => ⟨rfl, ?_⟩⟩
  · have hadmits : (supervisor .nothing).admits .undefined task m :=
      admits_of_asks hintact htask hvalues
    exact run_observer hhost hadmits bound
  · obtain ⟨hfollows, hended⟩ := follows_of_runProgram hhost hintact hp hran
    exact ended_of_follows hfollows (knows_outcomeValues hended)
  · obtain ⟨hfollows, hvalues⟩ := follows_of_evaluate hhost hintact hevaluated
    exact ended_of_follows hfollows hvalues
  · rw [Store.object?_allocate]
    exact if_pos rfl

theorem every_handle_resolves_calling_back :
    observer.run .callBack 9 () (.indirectEval (.string (.ofString "[{}].pop().f = eval")))
        (.initial {}) =
      runTask .callBack 9 (.indirectEval (.string (.ofString "[{}].pop().f = eval")))
        (.initial {}) :=
  (every_handle_resolves Host.callBack_courteous (.initial {})).2.1
    (.indirectEval (.string (.ofString "[{}].pop().f = eval"))) trivial
    (List.forall_mem_singleton.mpr trivial) 9

end Handles

end ProtoScript
