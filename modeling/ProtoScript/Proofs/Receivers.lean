import ProtoScript.Proofs.Integrity.Sessions
/-!
# Receivers

What `this` is cannot be touched by program text.  The call of a function that is no arrow function
chooses a receiver and binds it in a scope of its own; in all code inside, however deep in blocks,
parameter lists, arrow functions and evaluated texts, `this` is that receiver and stays it.  Outside
of functions it is the global object.
-/

namespace ProtoScript.Receivers

open Integrity

variable {host : Host} {m : Machine}

/-- Whatever binds `this` in the machine is a constant that has its value. -/
def OnlyReceivers (m : Machine) : Prop :=
  ∀ id b, m.store.binding? id "this" = some b → b.IsReceiver

/-- No scope of the first machine has got another `this`, or has lost its own, or has got one of its
own, and in none of them does `this` mean anything else. -/
def KeepsReceivers (m m' : Machine) : Prop :=
  ∀ id, id.index < m.store.scopes.size →
    m'.store.binding? id "this" = m.store.binding? id "this" ∧ m'.store.this id = m.store.this id

/-- The note is the receiver for the code at hand.  Code is carried out in scopes where `this` is
the receiver, and evaluating `this` gives the receiver. -/
def observer : Supervisor Value where
  inside := Task.receiverInside
  admits receiver task m :=
    OnlyReceivers m ∧
      match task with
      | .evaluate _ scope | .execute _ scope _ | .bind _ _ scope _ | .directEval _ scope =>
        m.store.this scope = receiver
      | _ => True
  accepts receiver task m o m' :=
    OnlyReceivers m' ∧ KeepsReceivers m m' ∧
      ∀ scope, task = .evaluate .this scope → o = .ok receiver

theorem keepsReceivers_of_evolves {kept : Watch} {m m' : Machine}
    (h : m.store.Evolves kept m'.store) : KeepsReceivers m m' :=
  fun id hid => ⟨h.receivers id hid, h.this_eq hid⟩

/-- Functions of the host under other names leave every `this` alone. -/
theorem follows_installHost (hm : m.Intact) {functions : List (String × Nat)}
    (hnames : ∀ f ∈ functions, f.1 ≠ "this") : Follows m (m.installHost functions) := by
  have hleads : m.store.Leads (.first m.store.scopes.size) (m.installHost functions).store :=
    hm.store.installHost hnames fun _ _ => id
  exact ⟨hleads.evolves, hleads.intact, fun v hv => hleads.evolves.within (hm.newTarget v hv)⟩

/-- On every machine that sessions lead to, at every task of whatever the embedding program asks
for, `this` is the receiver that the nearest function around has chosen, and nothing binds it but
the choice of a receiver.  At the top of a session it is the global object, whatever is evaluated in
the session. -/
theorem this_is_receiver (hhost : host.Courteous)
    (hm : Machine.Reachable host Program.Accepted m) :
    (∀ task, (Setting.embedding Program.Accepted fun _ => True).asks task →
      (∀ v ∈ task.values, m.Knows v) → ∀ receiver bound,
        observer.run host bound receiver task m = runTask host bound task m) ∧
    (∀ m', Machine.Continues host m m' → KeepsReceivers m m') ∧
    (∀ settings functions, (∀ f ∈ functions, f.1 ≠ "this") → ∀ m',
      Machine.Continues host ((Machine.initial settings).installHost functions) m' →
        m'.store.this .global = .object .globalObject) := by
  have hintact := (intact_of_reachable hhost hm).1
  refine ⟨fun task htask hvalues receiver bound => ?_, fun m' hcontinues => ?_,
    fun settings functions hnames m' hcontinues => ?_⟩
  · refine (governs hhost).run_eq observer id (fun _ _ _ _ => rfl) ?_ ?_ bound receiver task m
      (admits_of_asks hintact htask hvalues)
    · rintro receiver task m ⟨hm, _, hready, _⟩
      refine ⟨hm.store.receivers, ?_⟩
      cases task with
      | evaluate x scope => exact hready.2.receiver
      | execute s scope labels => exact hready.2.receiver
      | bind p value scope fresh => exact hready.2.receiver
      | directEval text scope => exact hready.receiver
      | _ => trivial
    · rintro receiver task m o m' _ ⟨hlater, hm', _, hthis⟩
      exact ⟨hm'.store.receivers, keepsReceivers_of_evolves hlater, hthis⟩
  · exact keepsReceivers_of_evolves (follows_of_continues hhost hintact hcontinues).evolves
  · have hinitial := intact_initial settings
    have hinstalled := follows_installHost hinitial hnames
    have hfollows := hinstalled.trans (follows_of_continues hhost hinstalled.intact hcontinues)
    exact (hfollows.evolves.this_eq hinitial.store.sound.global).trans (this_initial settings)

theorem this_is_receiver_calling_back :
    observer.run .callBack 9 .undefined
        (.indirectEval (.string (.ofString "(function () { return () => this })()()")))
        (.initial {}) =
      runTask .callBack 9
        (.indirectEval (.string (.ofString "(function () { return () => this })()()")))
        (.initial {}) :=
  (this_is_receiver Host.callBack_courteous (.initial {})).1
    (.indirectEval (.string (.ofString "(function () { return () => this })()()"))) trivial
    (List.forall_mem_singleton.mpr trivial) .undefined 9

end ProtoScript.Receivers
