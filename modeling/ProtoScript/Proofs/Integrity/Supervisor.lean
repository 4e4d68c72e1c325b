import ProtoScript.Evaluation.Rules
import ProtoScript.Proofs.Integrity.Upholds
import ProtoScript.Proofs.Syntax.Parts
/-!
# Supervising integrity

The note of this supervisor is the receiver: what `this` is for the code at hand.  A task may begin
on an intact machine that knows all values of the task, with sound code in a scope where `this` is
the receiver; it ends on a later intact machine, with a value or an exception that is known there.
-/

namespace ProtoScript

def Store.this (s : Store) (scope : ScopeId) : Value := (s.lookup? scope "this").getD .undefined

theorem Store.Intact.within_this {s : Store} (hs : s.Intact) (scope : ScopeId) :
    (s.this scope).Within s.objects.size := by
  unfold Store.this
  cases h : s.lookup? scope "this" with
  | none => trivial
  | some v => exact hs.within_lookup? h

structure Machine.Finds (m : Machine) (receiver : Value) (scope : ScopeId) : Prop where
  there : scope.index < m.store.scopes.size
  receiver : m.store.this scope = receiver

theorem Machine.Finds.later {m m' : Machine} {receiver : Value} {scope : ScopeId}
    {kept : Watch} (h : m.Finds receiver scope)
    (hlater : m.store.Evolves kept m'.store) : m'.Finds receiver scope := by
  refine ⟨hlater.lt h.there, ?_⟩
  have hreceiver := h.receiver
  unfold Store.this at hreceiver ⊢
  rw [hlater.lookup?_this h.there]
  exact hreceiver

/-- A scope for code: it is no scope in which a function expression finds its own name. -/
structure Machine.Stands (m : Machine) (receiver : Value) (scope : ScopeId) : Prop extends
    m.Finds receiver scope where
  isOpen : m.store.Open scope

/-- From the scope outward, through scopes that were made since a time, one comes to the origin. -/
inductive Store.Hangs (s : Store) (origin : ScopeId) (since : Nat) : ScopeId → Prop
  | here : s.Hangs origin since origin
  | inside {id outer : ScopeId} (hnew : since ≤ id.index) (hparent : s.parent? id = some outer)
      (houter : s.Hangs origin since outer) : s.Hangs origin since id

theorem Store.Hangs.later {s s' : Store} {origin : ScopeId} {since : Nat} {id : ScopeId}
    (h : s.Hangs origin since id) (hretains : s.Retains s') : s'.Hangs origin since id := by
  induction h with
  | here => exact .here
  | inside hnew hparent _ ih => exact .inside hnew (hretains.parent? hparent) ih

theorem Store.Hangs.made {s s' : Store} {origin id outer : ScopeId} {since : Nat}
    (h : s.Hangs origin since outer) (hretains : s.Retains s') (hnew : since ≤ id.index)
    (hparent : s'.parent? id = some outer) : s'.Hangs origin since id :=
  .inside hnew hparent (h.later hretains)

/-- Where the code directly inside a task stands: what `this` is there, from which scope it hangs
and since when, and what is recorded of the scopes in which statements are executed. -/
structure Seat where
  receiver : Value
  origin : ScopeId
  since : Nat
  body : Option Entry

structure Machine.Meets (m : Machine) (seat : Seat) (scope : ScopeId) : Prop extends
    m.Finds seat.receiver scope where
  hangs : m.store.Hangs seat.origin seat.since scope
  since : seat.since ≤ m.store.scopes.size

theorem Machine.Meets.later {m m' : Machine} {seat : Seat} {scope : ScopeId} {kept : Watch}
    (h : m.Meets seat scope) (hlater : m.store.Evolves kept m'.store) : m'.Meets seat scope :=
  ⟨h.toFinds.later hlater, h.hangs.later hlater.retains, Nat.le_trans h.since hlater.size_le⟩

structure Machine.Seated (m : Machine) (seat : Seat) (scope : ScopeId) : Prop extends
    m.Meets seat scope where
  isOpen : m.store.Open scope

theorem Machine.Seated.later {m m' : Machine} {seat : Seat} {scope : ScopeId} {kept : Watch}
    (h : m.Seated seat scope) (hlater : m.store.Evolves kept m'.store) : m'.Seated seat scope :=
  ⟨h.toMeets.later hlater, hlater.retains.isOpen h.there h.isOpen⟩

theorem Machine.Seated.stands {m : Machine} {seat : Seat} {scope : ScopeId}
    (h : m.Seated seat scope) : m.Stands seat.receiver scope :=
  ⟨h.toFinds, h.isOpen⟩

theorem Machine.Stands.seated {m : Machine} {receiver : Value} {scope : ScopeId}
    (h : m.Stands receiver scope) (body : Option Entry) :
    m.Seated ⟨receiver, scope, m.store.scopes.size, body⟩ scope :=
  ⟨⟨h.toFinds, .here, Nat.le_refl _⟩, h.isOpen⟩

def Machine.Refers (m : Machine) : Reference → Prop
  | .name name => Usable name
  | .property base _ => m.Knows base

theorem Machine.Refers.later {m m' : Machine} {kept : Watch} {r : Reference}
    (h : m.Refers r) (hlater : m.store.Evolves kept m'.store) : m'.Refers r := by
  cases r with
  | name name => exact h
  | property base key => exact hlater.within h

def Machine.receiverFor (m : Machine) (d : FunctionDef) (receiver : Value) : Value :=
  match Engine.receiverFor d receiver m with
  | .ok v _ => v
  | .error _ _ => .undefined

/-- The scope that a call of the function is going to make for the parameters. -/
def FunctionDef.parameterScope (d : FunctionDef) (s : Store) : ScopeId :=
  ⟨s.scopes.size + if d.selfName?.isSome then 1 else 0⟩

/-- The names that the body of a function declares as variables and functions. -/
def FunctionDef.bodyNames (d : FunctionDef) : List String :=
  Stmt.varNamesOfList d.body ++ Stmt.functionNames d.body

theorem FunctionDef.mem_bodyNames {d : FunctionDef} {name : String} : name ∈ d.bodyNames ↔
    (∃ statement ∈ d.body, statement.DeclaresVar name) ∨ name ∈ Stmt.functionNames d.body := by
  unfold bodyNames
  rw [List.mem_append, Stmt.mem_varNamesOfList_iff]

/-- What the scope is for in which a call of the function is going to execute its body, if it is not
that of the parameters. -/
def FunctionDef.bodyEntry (d : FunctionDef) (s : Store) : Option Entry :=
  if d.hasSimpleParameters then none else some (.body (d.parameterScope s) d.bodyNames)

namespace Task

def values : Task → List Value
  | .evaluate _ _ | .execute _ _ _ | .program _ => []
  | .bind _ value _ _ => [value]
  | .call function receiver arguments => function :: receiver :: arguments
  | .closure _ _ function receiver arguments => function :: receiver :: arguments
  | .native _ receiver arguments => receiver :: arguments
  | .construct constructor arguments => constructor :: arguments
  | .directEval text _ => [text]
  | .indirectEval text => [text]

/-- The scope that the code of a task stands in, or was made in. -/
def place : Task → ScopeId
  | .evaluate _ scope | .execute _ scope _ | .bind _ _ scope _ | .directEval _ scope
  | .closure _ scope _ _ _ => scope
  | _ => .global

/-- What `this` is for the code directly inside a task: the receiver of the nearest function around
it that is no arrow function, or what it is in the global scope. -/
def receiverInside (receiver : Value) (task : Task) (m : Machine) : Value :=
  match task with
  | .closure d scope _ given _ =>
    if d.isArrow then m.store.this scope else m.receiverFor d given
  | .indirectEval _ => m.store.this .global
  | .program _ => m.store.this .global
  | _ => receiver

def Ready (receiver : Value) (task : Task) (m : Machine) : Prop :=
  match task with
  | .evaluate x scope => x.Sound ∧ m.Stands receiver scope
  | .execute s scope labels => (∃ t, s.Sound t labels) ∧ m.Stands receiver scope
  | .bind p _ scope _ => p.Sound ∧ m.Stands receiver scope
  | .closure d scope function _ _ =>
    m.store.callable? function = some (.closure d scope) ∧ d.Sound ∧
      scope.index < m.store.scopes.size
  | .directEval _ scope => m.Stands receiver scope
  | .program p => p.Sound
  | _ => True

def ReadyAt (seat : Seat) (task : Task) (m : Machine) : Prop :=
  match task with
  | .evaluate x scope => x.Sound ∧ m.Seated seat scope
  | .execute s scope labels => (∃ t, s.Sound t labels) ∧ m.Seated seat scope
  | .bind p _ scope _ => p.Sound ∧ m.Seated seat scope
  | .closure d scope function _ _ =>
    m.store.callable? function = some (.closure d scope) ∧ d.Sound ∧
      scope.index < m.store.scopes.size
  | .directEval _ scope => m.Seated seat scope
  | .program p => p.Sound
  | _ => True

theorem ReadyAt.ready {seat : Seat} {task : Task} {m : Machine} (h : task.ReadyAt seat m) :
    task.Ready seat.receiver m := by
  cases task with
  | evaluate x scope => exact h.imp_right (·.stands)
  | execute s scope labels => exact h.imp_right (·.stands)
  | bind p value scope fresh => exact h.imp_right (·.stands)
  | closure d scope function receiver arguments => exact h
  | directEval text scope => exact h.stands
  | program p => exact h
  | _ => trivial

theorem Ready.readyAt {receiver : Value} {task : Task} {m : Machine} (h : task.Ready receiver m) :
    task.ReadyAt ⟨receiver, task.place, m.store.scopes.size, none⟩ m := by
  cases task with
  | evaluate x scope => exact h.imp_right fun hstands => hstands.seated none
  | execute s scope labels => exact h.imp_right fun hstands => hstands.seated none
  | bind p value scope fresh => exact h.imp_right fun hstands => hstands.seated none
  | closure d scope function receiver arguments => exact h
  | directEval text scope => exact h.seated none
  | program p => exact h
  | _ => trivial

/-- A statement is executed in a scope that is recorded as it should be at the seat. -/
def Recorded (θ : Ledger) (seat : Seat) (task : Task) : Prop :=
  match task with
  | .execute _ scope _ => ∀ entry ∈ seat.body, θ scope = some entry
  | _ => True

end Task

def Seat.inside (seat : Seat) (task : Task) (m : Machine) : Seat where
  receiver := task.receiverInside seat.receiver m
  origin := task.place
  since := m.store.scopes.size
  body :=
    match task with
    | .closure d _ _ _ _ => d.bodyEntry m.store
    | _ => none

def Seat.outermost : Seat := ⟨.undefined, .global, 0, none⟩

namespace Integrity

/-- Watches the integrity of the machine.  The settled bindings of some names are kept, and in some
scopes the parameters that are shared are variables. -/
def supervisor (W : Focus) : Supervisor Value where
  inside := Task.receiverInside
  admits receiver task m :=
    m.Intact ∧ (∀ v ∈ task.values, m.Knows v) ∧ task.Ready receiver m ∧ m.store.Joins W.joined
  accepts receiver task m o m' :=
    m.store.Evolves (Watched W m.store.scopes.size) m'.store ∧ m'.Intact ∧ Ended Known o m' ∧
      ∀ scope, task = .evaluate .this scope → o = .ok receiver

/-- The engines carry out every task that is ready at the seat, with a ledger that has the right
entries as without any, and end it as the supervisor accepts. -/
def Backs (W : Focus) (seat : Seat) (E : EngineFamily) : Prop :=
  ∀ task m, m.Intact → (∀ v ∈ task.values, m.Knows v) → task.ReadyAt seat m →
    m.store.Joins W.joined →
      (∃ θ, (E.restrict fun θ' => task.Recorded θ' seat).Records m (fun e => e.run task) θ) ∧
        Ends ((supervisor W).accepts seat.receiver task m) (E.right.run task m)

variable {W : Focus} {seat : Seat} {E : EngineFamily} {n : Nat} {m : Machine}

theorem Backs.restrict (h : Backs W seat E) (p : Ledger → Prop) : Backs W seat (E.restrict p) := by
  intro task m hm hvalues hready hjoins
  obtain ⟨⟨θ, hrecords⟩, hends⟩ := h task m hm hvalues hready hjoins
  exact ⟨⟨θ, fun θ' hheeds => hrecords.same θ' ⟨hheeds.1.1, hheeds.2⟩, hrecords.holds⟩, hends⟩

theorem Upholds.task (h : Backs W seat E) {task : Task} (hvalues : ∀ v ∈ task.values, m.Knows v)
    (hready : task.ReadyAt seat m) (hrecorded : ∀ θ, E.heeds θ → task.Recorded θ seat) :
    Upholds E W n m (fun e => e.run task) Known := by
  intro hm
  obtain ⟨⟨θ, hrecords⟩, hends⟩ := h task m hm.toIntact hvalues hready hm.joins
  refine ⟨θ, ⟨fun θ' hheeds => hrecords.same θ' ⟨hheeds, hrecorded θ' hheeds⟩, hrecords.holds⟩,
    hends.mono ?_⟩
  rintro o m' ⟨hlater, hm', hended, _⟩
  exact ⟨hlater.watched hm.old, hm', hended⟩

theorem Upholds.call (h : Backs W seat E) {function this : Value} {arguments : List Value}
    (hfunction : m.Knows function) (hthis : m.Knows this)
    (harguments : ∀ v ∈ arguments, m.Knows v) :
    Upholds E W n m (fun e => e.call function this arguments) Known :=
  .task h (List.forall_mem_cons.mpr ⟨hfunction, List.forall_mem_cons.mpr ⟨hthis, harguments⟩⟩)
    trivial fun _ _ => trivial

end Integrity

end ProtoScript
