import ProtoScript.Proofs.Integrity.Retained
import ProtoScript.Proofs.Supervision
/-!
# Ledgers

A ledger is kept beside the store: it says of some scopes, also of such as are not there yet, what
they are for.  What it says of a scope has to be true as long as the scope is there.  A computation
is carried out as it always is by engines that hold on to a ledger, if this says of the scopes that
the computation makes what they turn out to be for.
-/

namespace ProtoScript

inductive Entry where
  /-- A function expression finds its own name in the scope. -/
  | self (name : String) (function : Value) (guarded : Bool)
  /-- The scope is for a body that declares the names, inside that of its parameters. -/
  | body (parameters : ScopeId) (names : List String)

/-- The scope is as it has to be for what it is for. -/
def Entry.Holds (s : Store) (id : ScopeId) : Entry → Prop
  | .self name function guarded =>
    s.binding? id name = some ⟨function, .selfName guarded, true⟩ ∧
      ∀ other, s.hasOwnBinding id other = true → other = name
  | .body parameters names =>
    s.Inside id parameters ∧ ∀ name ∈ names, s.hasOwnBinding id name = true

abbrev Ledger := ScopeId → Option Entry

/-- What is recorded of the scopes that are there is true. -/
def Ledger.HoldsIn (θ : Ledger) (s : Store) : Prop :=
  ∀ id entry, id.index < s.scopes.size → θ id = some entry → entry.Holds s id

/-- What was recorded of the first scopes, and what is recorded of all that come later. -/
def Ledger.continued (θ₀ : Ledger) (n : Nat) (θ : Ledger) : Ledger :=
  fun id => if id.index < n then θ₀ id else θ id

theorem Ledger.continued_of_lt {θ₀ θ : Ledger} {n : Nat} {id : ScopeId} (h : id.index < n) :
    θ₀.continued n θ id = θ₀ id :=
  if_pos h

theorem Ledger.continued_of_le {θ₀ θ : Ledger} {n : Nat} {id : ScopeId} (h : n ≤ id.index) :
    θ₀.continued n θ id = θ id :=
  if_neg (Nat.not_lt.mpr h)

theorem Ledger.HoldsIn.continued {θ₀ : Ledger} {s : Store} (h : θ₀.HoldsIn s) (θ : Ledger) :
    (θ₀.continued s.scopes.size θ).HoldsIn s := by
  intro id entry hid hentry
  rw [continued_of_lt hid] at hentry
  exact h id entry hid hentry

def Ledger.empty : Ledger := fun _ => none

theorem Ledger.holdsIn_empty (s : Store) : Ledger.empty.HoldsIn s := fun _ _ _ => nofun

variable {s s' : Store} {id : ScopeId} {entry : Entry}

theorem Entry.Holds.lt (h : entry.Holds s id) : id.index < s.scopes.size := by
  cases entry with
  | self name function guarded => exact Store.lt_of_binding? h.1
  | body parameters names =>
    obtain ⟨a, ha, _⟩ := h.1.parent
    exact Store.scope?_eq_some_iff.mp ⟨a, ha⟩

theorem Entry.Holds.later (h : entry.Holds s id) (hretains : s.Retains s') :
    entry.Holds s' id := by
  have hid := h.lt
  cases entry with
  | self name function guarded =>
    obtain ⟨hbinding, halone⟩ := h
    have hself := Store.selfName?_eq_some_iff.mpr ⟨hbinding, rfl⟩
    have hlater := (hretains.selfName? hid name).trans hself
    refine ⟨(Store.selfName?_eq_some_iff.mp hlater).1, fun other hother => halone other ?_⟩
    refine hretains.hasOwnBinding_of_closed hid (fun hopen => ?_) hother
    cases (hopen name).symm.trans hself
  | body parameters names =>
    exact ⟨hretains.inside h.1, fun name hname => hretains.hasOwnBinding (h.2 name hname)⟩

/-! ### Engines that hold on to a ledger -/

def ending? {α : Type} : EStateM.Result Stop Machine α → Option Machine
  | .ok _ m | .error (.abrupt _) m => some m
  | .error .exhausted _ => none

theorem Ends.ending {α : Type} {Q : Except Abrupt α → Machine → Prop} {P : Machine → Prop}
    {r : EStateM.Result Stop Machine α} (h : Ends Q r) (hQ : ∀ o m, Q o m → P m) :
    ∀ m ∈ ending? r, P m := by
  cases r with
  | ok a m' =>
    rintro m ⟨⟩
    exact hQ _ _ h
  | error stop m' =>
    cases stop with
    | abrupt c =>
      rintro m ⟨⟩
      exact hQ _ _ h
    | exhausted => exact nofun

theorem ending?_attempt {α : Type} (x : Eval α) (m : Machine) :
    ending? (Eval.attempt x m) = ending? (x m) := by
  unfold Eval.attempt
  cases x m with
  | ok a m' => rfl
  | error stop m' => cases stop <;> rfl

/-- An engine for every ledger, beside one that knows of none.  Only some ledgers are taken into
account. -/
structure EngineFamily where
  left : Ledger → Engine
  right : Engine
  rounds : ∀ θ, (left θ).rounds = right.rounds
  heeds : Ledger → Prop

/-- The scope is new, and it is there at the end of the computation, unless this was cut off. -/
structure Makes {α : Type} (m : Machine) (r : EStateM.Result Stop Machine α) (id : ScopeId) :
    Prop where
  new : m.store.scopes.size ≤ id.index
  there : ∀ m' ∈ ending? r, id.index < m'.store.scopes.size

namespace EngineFamily

variable {E : EngineFamily} {m : Machine} {α β : Type} {θ : Ledger}

def restrict (E : EngineFamily) (p : Ledger → Prop) : EngineFamily :=
  { E with heeds := fun θ => E.heeds θ ∧ p θ }

/-- With a ledger that is true so far, and that records of new scopes what is recorded here, the
computation does the same as without any; and what is recorded here is true in the end. -/
structure Records (E : EngineFamily) (m : Machine) (F : Engine → Eval α) (θ : Ledger) : Prop where
  same : ∀ θ', E.heeds θ' → θ'.HoldsIn m.store →
    (∀ id, Makes m (F E.right m) id → θ' id = θ id) → F (E.left θ') m = F E.right m
  holds : ∀ m' ∈ ending? (F E.right m), ∀ id entry, m.store.scopes.size ≤ id.index →
    θ id = some entry → entry.Holds m'.store id

theorem Records.holdsIn {F : Engine → Eval α} (h : E.Records m F θ) {θ' : Ledger}
    (hholds : θ'.HoldsIn m.store) (hsame : ∀ id, Makes m (F E.right m) id → θ' id = θ id)
    {m' : Machine} (hend : ending? (F E.right m) = some m') (hretains : m.store.Retains m'.store) :
    θ'.HoldsIn m'.store := by
  intro id entry hid hentry
  by_cases hold : id.index < m.store.scopes.size
  · exact (hholds id entry hold hentry).later hretains
  · have hmakes : Makes m (F E.right m) id := by
      refine ⟨Nat.not_lt.mp hold, fun m'' hend' => ?_⟩
      cases hend.symm.trans hend'
      exact hid
    exact h.holds m' hend id entry hmakes.new ((hsame id hmakes).symm.trans hentry)

theorem Records.run_eq {F : Engine → Eval α} (h : E.Records m F θ) {θ₀ : Ledger}
    (h₀ : θ₀.HoldsIn m.store) (hheeds : E.heeds (θ₀.continued m.store.scopes.size θ)) :
    F (E.left (θ₀.continued m.store.scopes.size θ)) m = F E.right m :=
  h.same _ hheeds (h₀.continued θ) fun _ hid => Ledger.continued_of_le hid.new

theorem Records.restrict {F : Engine → Eval α} (h : E.Records m F θ) (p : Ledger → Prop) :
    (E.restrict p).Records m F θ :=
  ⟨fun θ' hheeds => h.same θ' hheeds.1, h.holds⟩

theorem records_of_const {x : Eval α}
    (h : ∀ m' ∈ ending? (x m), ∀ id entry, m.store.scopes.size ≤ id.index → θ id = some entry →
      entry.Holds m'.store id) : E.Records m (fun _ => x) θ :=
  ⟨fun _ _ _ _ => rfl, h⟩

theorem records_nothing (x : Eval α) : E.Records m (fun _ => x) .empty :=
  records_of_const fun _ _ _ _ _ => nofun

def const (e e' : Engine) (h : e.rounds = e'.rounds) : EngineFamily where
  left _ := e
  right := e'
  rounds _ := h
  heeds _ := True

/-- The second computation may rely on what was recorded during the first. -/
theorem Records.bind {F : Engine → Eval α} {G : α → Engine → Eval β} (hF : E.Records m F θ)
    (hretains : ∀ m' ∈ ending? (F E.right m), m.store.Retains m'.store)
    (hG : ∀ a m', F E.right m = .ok a m' →
      (∃ θ', (E.restrict fun θ'' => ∀ id, m.store.scopes.size ≤ id.index →
        id.index < m'.store.scopes.size → θ'' id = θ id).Records m' (G a) θ') ∧
      ∀ m'' ∈ ending? (G a E.right m'), m'.store.Retains m''.store) :
    ∃ θ', E.Records m (fun e => F e >>= fun a => G a e) θ' ∧
      ∀ id, Makes m (F E.right m) id → θ' id = θ id := by
  cases hr : F E.right m with
  | error stop m' =>
    have hbind : (F E.right >>= fun a => G a E.right) m = .error stop m' := by
      simp only [Bind.bind, EStateM.bind, hr]
    have hend : ending? ((F E.right >>= fun a => G a E.right) m) = ending? (F E.right m) := by
      rw [hbind, hr]
      cases stop <;> rfl
    refine ⟨θ, ⟨fun θ' hheeds hholds hsame => ?_, ?_⟩, fun _ _ => rfl⟩
    · have heq := hF.same θ' hheeds hholds fun id hid => hsame id ⟨hid.new, hend ▸ hid.there⟩
      rw [hbind]
      simp only [Bind.bind, EStateM.bind, heq, hr]
    · show ∀ m' ∈ ending? ((F E.right >>= fun a => G a E.right) m), _
      rw [hend]
      exact hF.holds
  | ok a m' =>
    obtain ⟨⟨θ₂, hsecond⟩, hretains₂⟩ := hG a m' hr
    have hend : ending? (F E.right m) = some m' := by
      rw [hr]
      rfl
    have hlater := hretains m' hend
    have hbind : (F E.right >>= fun a => G a E.right) m = G a E.right m' := by
      simp only [Bind.bind, EStateM.bind, hr]
    -- What the first part made is recorded by the first ledger, what is newer by the second.
    refine ⟨θ.continued m'.store.scopes.size θ₂, ⟨fun θ' hheeds hholds hsame => ?_, ?_⟩,
      fun id hid => Ledger.continued_of_lt (hid.there m' rfl)⟩
    · rw [hbind] at hsame ⊢
      have hfirst : ∀ id, m.store.scopes.size ≤ id.index → id.index < m'.store.scopes.size →
          θ' id = θ id := fun id hnew hid =>
        (hsame id ⟨hnew, fun m'' hm'' =>
          Nat.lt_of_lt_of_le hid (hretains₂ m'' hm'').size_le⟩).trans (Ledger.continued_of_lt hid)
      have hagree : ∀ id, Makes m (F E.right m) id → θ' id = θ id :=
        fun id hid => hfirst id hid.new (hid.there m' hend)
      have heq : F (E.left θ') m = .ok a m' := (hF.same θ' hheeds hholds hagree).trans hr
      simp only [Bind.bind, EStateM.bind, heq]
      refine hsecond.same θ' ⟨hheeds, hfirst⟩ (hF.holdsIn hholds hagree hend hlater)
        fun id hid => ?_
      exact (hsame id ⟨Nat.le_trans hlater.size_le hid.new, hid.there⟩).trans
        (Ledger.continued_of_le hid.new)
    · show ∀ m'' ∈ ending? ((F E.right >>= fun a => G a E.right) m), _
      rw [hbind]
      intro m'' hm'' id entry hnew hentry
      by_cases hid : id.index < m'.store.scopes.size
      · rw [Ledger.continued_of_lt hid] at hentry
        exact (hF.holds m' hend id entry hnew hentry).later (hretains₂ m'' hm'')
      · rw [Ledger.continued_of_le (Nat.not_lt.mp hid)] at hentry
        exact hsecond.holds m'' hm'' id entry (Nat.not_lt.mp hid) hentry

theorem Records.attempt {F : Engine → Eval α} (h : E.Records m F θ) :
    E.Records m (fun e => Eval.attempt (F e)) θ := by
  refine ⟨fun θ' hheeds hholds hsame => ?_, fun m' hm' => h.holds m' ?_⟩
  · have heq := h.same θ' hheeds hholds fun id hid => hsame id ⟨hid.new, ?_⟩
    · simp only [Eval.attempt, heq]
    · rw [ending?_attempt]
      exact hid.there
  · rwa [ending?_attempt] at hm'

end EngineFamily

end ProtoScript
