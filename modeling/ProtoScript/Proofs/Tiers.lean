import ProtoScript.Proofs.Integrity.Rules
import ProtoScript.Proofs.Integrity.Sessions
import ProtoScript.Proofs.Tiers.Seeding
/-!
# Parameters and bodies in two tiers

If the parameters of a function are more than mere names, its body has a scope of its own inside
that of the parameters.  What the body declares is bound there.  So code inside the body never finds
what the parameters' scope binds to the same name, and code that stands elsewhere, such as functions
in the parameter list, never finds what the body binds.
-/

namespace ProtoScript

namespace Store

/-- The scope is the outer one, or stands inside it at any depth. -/
inductive Within (s : Store) (outer : ScopeId) : ScopeId → Prop
  | here : s.Within outer outer
  | inside {id around : ScopeId} (hinside : s.Inside id around) (hrest : s.Within outer around) :
      s.Within outer id

variable {s : Store} {id outer inner parameters holder : ScopeId} {name : String} {b : Binding}
  {names : List String}

theorem Within.le (h : s.Within outer id) : outer.index ≤ id.index := by
  induction h with
  | here => exact Nat.le_refl _
  | inside hinside _ ih => exact Nat.le_trans ih (Nat.le_of_lt hinside.behind)

theorem Inside.parent?_eq (h : s.Inside inner outer) : s.parent? inner = some outer :=
  Option.bind_eq_some_iff.mpr h.parent

/-- A name that a scope binds is found in it, or in a scope inside it, from all scopes inside. -/
theorem Within.exists_resolve? (h : s.Within inner id) (hown : s.hasOwnBinding inner name = true) :
    ∃ holder b, s.resolve? id name = some (holder, b) ∧ s.Within inner holder := by
  induction h with
  | here =>
    obtain ⟨b, hb⟩ := hasOwnBinding_iff.mp hown
    exact ⟨inner, b, resolve?_of_binding? hb, .here⟩
  | @inside id around hinside hrest ih =>
    cases hb : s.binding? id name with
    | some b => exact ⟨id, b, resolve?_of_binding? hb, .inside hinside hrest⟩
    | none =>
      rw [hinside.resolve?_eq hb]
      exact ih

theorem within_of_resolve? (h : s.resolve? id name = some (holder, b)) : s.Within holder id := by
  fun_induction resolve? s id name with
  | case1 => cases h
  | case2 id a ha binding hbinding =>
    cases h
    exact .here
  | case3 id a ha _ outer hparent hbehind ih => exact .inside ⟨hbehind, a, ha, hparent⟩ (ih h)
  | case4 => cases h
  | case5 => cases h

/-- A scope that hangs from an origin is inside the same older scopes as this. -/
theorem Hangs.within_iff {origin : ScopeId} {since : Nat} (hs : s.Intact)
    (h : s.Hangs origin since id) (hinner : inner.index < since) :
    s.Within inner id ↔ s.Within inner origin := by
  induction h with
  | here => exact Iff.rfl
  | @inside id outer hnew hparent _ ih =>
    rw [← ih]
    have hlt := Nat.lt_of_lt_of_le hinner hnew
    constructor
    · intro h
      cases h with
      | here => exact absurd hlt (Nat.lt_irrefl _)
      | inside hinside hrest =>
        cases hparent.symm.trans hinside.parent?_eq
        exact hrest
    · intro h
      obtain ⟨a, ha, hparent⟩ := Option.bind_eq_some_iff.mp hparent
      have hglobal : id ≠ .global := by
        rintro rfl
        exact Nat.not_lt_zero _ hlt
      obtain ⟨p, hp, hbehind⟩ := hs.nested id a ha hglobal
      cases hparent.symm.trans hp
      exact .inside ⟨hbehind, a, ha, hparent⟩ h

/-- The names are bound in the inner scope, inside that of the parameters, and the two are kept
apart: from inside the inner scope the names are found in it or further inside, and from elsewhere,
such as from any older scope, nothing is found in it. -/
structure KeepsApart (s : Store) (parameters inner : ScopeId) (names : List String) : Prop where
  inside : s.Inside inner parameters
  owns : ∀ name ∈ names, s.hasOwnBinding inner name = true
  found : ∀ id, s.Within inner id → ∀ name ∈ names, ∃ holder b,
    s.resolve? id name = some (holder, b) ∧ s.Within inner holder ∧ holder ≠ parameters
  hidden : ∀ id, ¬ s.Within inner id → ∀ name holder b,
    s.resolve? id name = some (holder, b) → holder ≠ inner
  older : ∀ id, id.index < inner.index → ¬ s.Within inner id

theorem keepsApart_of_holds (h : (Entry.body parameters names).Holds s inner) :
    s.KeepsApart parameters inner names where
  inside := h.1
  owns := h.2
  found id hid name hname := by
    obtain ⟨holder, b, hfound, hholder⟩ := hid.exists_resolve? (h.2 name hname)
    refine ⟨holder, b, hfound, hholder, ?_⟩
    rintro rfl
    exact Nat.not_lt.mpr hholder.le h.1.behind
  hidden id hid name holder b hfound := by
    rintro rfl
    exact hid (within_of_resolve? hfound)
  older id hid hwithin := Nat.not_lt.mpr hwithin.le hid

end Store

/-- What is recorded of the bodies that have a scope of their own: their names are kept apart. -/
def Ledger.KeepsApart (θ : Ledger) (s : Store) : Prop :=
  ∀ inner parameters names, inner.index < s.scopes.size →
    θ inner = some (.body parameters names) → s.KeepsApart parameters inner names

theorem Ledger.HoldsIn.keepsApart {θ : Ledger} {s : Store} (h : θ.HoldsIn s) : θ.KeepsApart s :=
  fun inner _ _ hinner hentry => Store.keepsApart_of_holds (h inner _ hinner hentry)

namespace Task

/-- The code of the task stands inside the same scopes as the origin of its seat, of those that were
there when the task around it began. -/
def StandsAsOrigin (seat : Seat) (task : Task) (m : Machine) : Prop :=
  match task with
  | .evaluate _ scope | .execute _ scope _ | .bind _ _ scope _ | .directEval _ scope =>
    ∀ inner : ScopeId, inner.index < seat.since →
      (m.store.Within inner scope ↔ m.store.Within inner seat.origin)
  | _ => True

/-- Once a call has bound parameters that are more than mere names, it opens a scope for the body.
-/
def OpensBody (host : Host) (task : Task) (m : Machine) : Prop :=
  match task with
  | .closure d scope function given arguments =>
    d.hasSimpleParameters = false → ∀ depth outer m₁ parameters m₂,
      Engine.selfScope d scope function m = .ok outer m₁ →
      (engine host depth).enterParameters d outer function given arguments m₁ =
        .ok parameters m₂ →
      parameters = d.parameterScope m.store ∧ d.Given m₂.store parameters ∧
        ∃ s, Engine.openBody d parameters m₂ =
            .ok ⟨m₂.store.scopes.size⟩ { m₂ with store := s } ∧
          d.Opens parameters ⟨m₂.store.scopes.size⟩ m₂.store s
  | _ => True

theorem ReadyAt.standsAsOrigin {seat : Seat} {task : Task} {m : Machine}
    (h : task.ReadyAt seat m) (hm : m.Intact) : task.StandsAsOrigin seat m := by
  have hwithin {scope : ScopeId} (hseated : m.Seated seat scope) (inner : ScopeId)
      (hinner : inner.index < seat.since) :
      m.store.Within inner scope ↔ m.store.Within inner seat.origin :=
    hseated.hangs.within_iff hm.store hinner
  cases task with
  | evaluate x scope => exact hwithin h.2
  | execute s scope labels => exact hwithin h.2
  | bind p value scope fresh => exact hwithin h.2
  | directEval text scope => exact hwithin h
  | _ => trivial

end Task

namespace Tiers

open Engine Integrity

variable {host : Host} {m : Machine}

/-- The engines that are used agree with themselves, and end all tasks as they may end. -/
theorem agrees_engine (hhost : host.Courteous) (depth : Nat) (receiver : Value) :
    (supervisor .nothing).Agrees receiver (engine host depth) (engine host depth) :=
  ⟨rfl, fun _ _ _ => rfl, (governs hhost).ends depth receiver⟩

theorem opensBody_of_readyAt (hhost : host.Courteous) (hm : m.Intact) {seat : Seat} {task : Task}
    (hvalues : ∀ v ∈ task.values, m.Knows v) (hready : task.ReadyAt seat m) :
    task.OpensBody host m := by
  cases task with
  | closure d scope function given arguments =>
    intro hcomplex depth outer m₁ parameters m₂ hself henter
    obtain ⟨-, hd, hscope⟩ := hready
    obtain ⟨hfunction, hrest⟩ := List.forall_mem_cons.mp hvalues
    obtain ⟨hgiven, harguments⟩ := List.forall_mem_cons.mp hrest
    obtain ⟨inside, hinside⟩ : ∃ inside : Seat,
        inside = seat.inside (.closure d scope function given arguments) m := ⟨_, rfl⟩
    have hback : Backs .nothing inside (.const (engine host depth) (engine host depth) rfl) :=
      backs_of_agrees (agrees_engine hhost depth inside.receiver)
    have hsince : m.IntactSince .nothing m.store.scopes.size :=
      ⟨hm, Nat.le_refl _, fun _ _ => False.elim⟩
    have hmeets : m.Meets { inside with receiver := m.store.this scope } scope := by
      rw [hinside]
      exact ⟨⟨hscope, rfl⟩, .here, Nat.le_refl _⟩
    obtain ⟨hlater₁, hm₁, houter, hsize, hscopes⟩ := (upholds_selfScope
      (E := .const (engine host depth) (engine host depth) rfl) hd hmeets hfunction).of_ok hsince
      hself
    have hreceiver : inside.receiver =
        if d.isArrow then m.store.this scope else m₁.receiverFor d given := by
      rw [Machine.receiverFor_congr _ hsize, hinside]
      rfl
    obtain ⟨-, -, hprepared⟩ := (upholds_enterParameters hback hd houter
      hlater₁.size_le hscopes hreceiver (hlater₁.within hfunction) (hlater₁.within hgiven)
      fun v hv => hlater₁.within (harguments v hv)).of_ok hm₁ henter
    exact ⟨hprepared.place, hprepared.given,
      d.exists_opens hcomplex hprepared.inner.stands.there hprepared.given⟩
  | _ => trivial

/-! ### All runs -/

/-- Wherever a task begins or ends, the bodies that are recorded keep their names apart.  It is
recorded in which scope a body is executed; code stands inside the same of these scopes as the code
around it; and each is opened as it should be. -/
def observer (host : Host) (θ : Ledger) : Supervisor Seat where
  inside := Seat.inside
  admits seat task m :=
    θ.KeepsApart m.store ∧ task.Recorded θ seat ∧ task.StandsAsOrigin seat m ∧
      task.OpensBody host m
  accepts _ _ _ _ m' := θ.KeepsApart m'.store

theorem lenient_observer (hhost : host.Courteous) : Lenient (observer host) id where
  inside _ _ _ _ := rfl
  admits _ _ _ _ hm hvalues hready hholds hrecorded _ :=
    ⟨hholds.keepsApart, hrecorded, hready.standsAsOrigin hm,
      opensBody_of_readyAt hhost hm hvalues hready⟩
  accepts _ _ _ _ _ _ _ hholds := hholds.keepsApart

/-- On a machine that sessions lead to, let some bodies be recorded that have a scope of their own.
Whatever the embedding program then asks for, each body of a function whose parameters are more than
mere names is executed in a scope of its own, which begins as it should, and is recorded.  From the
beginning of its execution on, wherever a task begins or ends, and during every session, what it
declares with `var` or as functions is found inside it and nowhere else, and never in the scope of
the parameters. -/
theorem two_tiers (hhost : host.Courteous) (hm : Machine.Reachable host Program.Accepted m) :
    (∀ (e : Engine) d scope function given arguments,
      e.callClosure d scope function given arguments = (do
        let outer ← selfScope d scope function
        let parameters ← e.enterParameters d outer function given arguments
        let inner ← openBody d parameters
        e.runBody d inner)) ∧
    ∀ θ₀ : Ledger, θ₀.HoldsIn m.store →
      (∀ task, (Setting.embedding Program.Accepted fun _ => True).asks task →
        (∀ v ∈ task.values, m.Knows v) → ∀ bound,
          ∃ θ : Ledger, (∀ id, id.index < m.store.scopes.size → θ id = θ₀ id) ∧
            (observer host θ).run host bound .outermost task m = runTask host bound task m) ∧
      ∀ m', Machine.Continues host m m' → ∀ inner parameters names,
        inner.index < m.store.scopes.size → θ₀ inner = some (.body parameters names) →
          m'.store.KeepsApart parameters inner names := by
  have hintact := (intact_of_reachable hhost hm).1
  refine ⟨callClosure_eq, fun θ₀ h₀ => ⟨fun task htask hvalues bound => ?_,
    fun m' hsession inner parameters names hinner hentry => ?_⟩⟩
  · exact (lenient_observer hhost).exists_run_eq hhost hintact hvalues
      (readyAt_of_asks htask .outermost m) rfl h₀ bound
  · have hlater := (follows_of_continues hhost hintact hsession).evolves
    exact Store.keepsApart_of_holds ((h₀ inner _ hinner hentry).later hlater.retains)

theorem two_tiers_calling_back :
    ∃ θ : Ledger, (∀ id, id.index < (Machine.initial {}).store.scopes.size →
        θ id = Ledger.empty id) ∧
      (observer .callBack θ).run .callBack 11 .outermost (.indirectEval (.string (.ofString
          "(function (a = 1, f = () => a) { var a; a = 2; return f(); })()")))
          (.initial {}) =
        runTask .callBack 11 (.indirectEval (.string (.ofString
          "(function (a = 1, f = () => a) { var a; a = 2; return f(); })()")))
          (.initial {}) :=
  ((two_tiers Host.callBack_courteous (.initial {})).2 .empty (Ledger.holdsIn_empty _)).1
    (.indirectEval (.string (.ofString
      "(function (a = 1, f = () => a) { var a; a = 2; return f(); })()"))) trivial
    (List.forall_mem_singleton.mpr trivial) 11

end Tiers

end ProtoScript
