import ProtoScript.Proofs.Integrity.Ledger
import ProtoScript.Proofs.Integrity.Objects
/-!
# Computations that keep the machine intact

A judgement on computations in lockstep: from an intact machine they lead to a later intact one, and
whatever objects they end with are known there.  With a ledger for the scopes that they make they do
the same as without any.
-/

namespace ProtoScript

/-- The objects that the value refers to are there. -/
abbrev Machine.Knows (m : Machine) (v : Value) : Prop := v.Within m.store.objects.size

theorem Machine.knows_undefined (m : Machine) : m.Knows .undefined := trivial

theorem Machine.knows_ofNat (m : Machine) (i : Nat) : m.Knows (.ofNat i) := trivial

structure Machine.Intact (m : Machine) : Prop where
  store : m.store.Intact
  newTarget : ∀ v ∈ m.newTarget, m.Knows v

/-- What a supervisor looks after: names of bindings that are to be kept once they are settled, and
scopes, also such as are not there yet, whose parameters are to stay variables. -/
structure Focus where
  settled : ScopeId → String → Prop
  joined : ScopeId → Prop

def Focus.nothing : Focus := ⟨fun _ _ => False, fun _ => False⟩

/-- The names in the scopes that are there at the beginning, and the parameters that are shared in
these and the other scopes. -/
def Watched (W : Focus) (n : Nat) : Watch where
  settled id name := id.index < n ∧ W.settled id name
  joined id := id.index < n ∨ W.joined id
  old id := id.index < n

variable {W : Focus} {n : Nat} {id : ScopeId}

theorem not_watched (h : n ≤ id.index) (name : String) : ¬ (Watched W n).settled id name :=
  fun hwatched => absurd hwatched.1 (Nat.not_lt.mpr h)

structure Store.Vacant (n : Nat) (s : Store) (id : ScopeId) : Prop extends s.IsBare id where
  new : n ≤ id.index

theorem Store.Vacant.free {s : Store} (h : s.Vacant n id) (name : String) :
    s.Free (Watched W n) id name :=
  ⟨not_watched h.new name, fun hboth => h.unshared name hboth.2⟩

theorem Store.Evolves.watched {s s' : Store} (h : s.Evolves (Watched W s.scopes.size) s')
    (hn : n ≤ s.scopes.size) : s.Evolves (Watched W n) s' :=
  h.mono (fun _ _ _ hwatched hb _ => ⟨Store.lt_of_binding? hb, hwatched.2⟩)
    (fun _ hjoined => hjoined.imp_left fun hlt => Nat.lt_of_lt_of_le hlt hn)
    fun _ hlt => Nat.lt_of_lt_of_le hlt hn

theorem Store.Evolves.joins {s s' : Store} (h : s.Evolves (Watched W n) s')
    (hs : s.Joins W.joined) : s'.Joins W.joined := by
  have hcomes : s.ComesBy ⟨fun _ _ => False, W.joined, fun _ => False⟩ s' :=
    h.comesBy.mono (fun _ => .inr) fun _ => False.elim
  exact hcomes.joins hs

/-- The machine is intact and has the first scopes, and the parameters that are looked after are
variables. -/
structure Machine.IntactSince (W : Focus) (n : Nat) (m : Machine) : Prop extends m.Intact where
  old : n ≤ m.store.scopes.size
  joins : m.store.Joins W.joined

theorem Machine.IntactSince.later {m m' : Machine} (hm : m.IntactSince W n)
    (hlater : m.store.Evolves (Watched W n) m'.store) (hm' : m'.Intact) : m'.IntactSince W n :=
  ⟨hm', Nat.le_trans hm.old hlater.size_le, hlater.joins hm.joins⟩

namespace Integrity

/-- The computation ended with a result as in `post`, or abruptly with known objects. -/
def Ended {α : Type} (post : α → Machine → Prop) : Except Abrupt α → Machine → Prop
  | .ok value, m => post value m
  | .error c, m => c.Within m.store.objects.size

theorem Ended.mono {α : Type} {post post' : α → Machine → Prop} {o : Except Abrupt α} {m : Machine}
    (h : Ended post o m) (hpost : ∀ a, post a m → post' a m) : Ended post' o m := by
  cases o with
  | ok a => exact hpost a h
  | error c => exact h

/-- With the ledger the computation does the same as without any; it keeps what is watched in the
first scopes, leaves the machine intact, and ends with a result as in `post` or abruptly with known
objects. -/
structure Upheld {α : Type} (E : EngineFamily) (W : Focus) (n : Nat) (m : Machine)
    (F : Engine → Eval α) (post : α → Machine → Prop) (θ : Ledger) : Prop where
  records : E.Records m F θ
  ends : Ends (fun o m' =>
    m.store.Evolves (Watched W n) m'.store ∧ m'.Intact ∧ Ended post o m') (F E.right m)

def Upholds {α : Type} (E : EngineFamily) (W : Focus) (n : Nat) (m : Machine)
    (F : Engine → Eval α) (post : α → Machine → Prop) : Prop :=
  m.IntactSince W n → ∃ θ, Upheld E W n m F post θ

abbrev Known (v : Value) (m : Machine) : Prop := m.Knows v

theorem Ended.later {kept : Watch} {m m' : Machine} {o : Except Abrupt Value}
    (h : Ended Known o m) (hlater : m.store.Evolves kept m'.store) : Ended Known o m' := by
  cases o with
  | ok value => exact hlater.within h
  | error c => exact Abrupt.Within.mono h hlater.objects

abbrev Anything {α : Type} (_ : α) (_ : Machine) : Prop := True

section

variable {E : EngineFamily} {W : Focus} {n : Nat} {m : Machine} {α β : Type}

namespace Upheld

variable {F : Engine → Eval α} {post mid : α → Machine → Prop} {θ : Ledger}

theorem mono {post' : α → Machine → Prop} (h : Upheld E W n m F post θ)
    (hpost : ∀ a m', m.store.Evolves (Watched W n) m'.store → post a m' → post' a m') :
    Upheld E W n m F post' θ := by
  refine ⟨h.records, h.ends.mono ?_⟩
  rintro o m' ⟨hlater, hm', hended⟩
  exact ⟨hlater, hm', hended.mono fun a => hpost a m' hlater⟩

theorem of_ok (h : Upheld E W n m F post θ) (hm : m.IntactSince W n) {a : α} {m' : Machine}
    (heq : F E.right m = .ok a m') :
    m.store.Evolves (Watched W n) m'.store ∧ m'.IntactSince W n ∧ post a m' := by
  have hends := h.ends
  rw [heq] at hends
  obtain ⟨hlater, hm', hpost⟩ := hends
  exact ⟨hlater, hm.later hlater hm', hpost⟩

theorem retains (h : Upheld E W n m F post θ) :
    ∀ m' ∈ ending? (F E.right m), m.store.Retains m'.store :=
  h.ends.ending fun _ _ hended => hended.1.retains

/-- What was recorded during the first computation is recorded in the end, and the second may rely
on it. -/
theorem bind {G : α → Engine → Eval β} {post : β → Machine → Prop}
    (hF : Upheld E W n m F mid θ) (hm : m.IntactSince W n)
    (hG : ∀ a m', m.store.Evolves (Watched W n) m'.store → mid a m' →
      Upholds (E.restrict fun θ' => ∀ id, m.store.scopes.size ≤ id.index →
        id.index < m'.store.scopes.size → θ' id = θ id) W n m' (G a) post) :
    ∃ θ', Upheld E W n m (fun e => F e >>= fun a => G a e) post θ' ∧
      ∀ id, Makes m (F E.right m) id → θ' id = θ id := by
  have hsecond (a : α) (m' : Machine) (hr : F E.right m = .ok a m') := by
    obtain ⟨hlater, hm', hmid⟩ := hF.of_ok hm hr
    exact hG a m' hlater hmid hm'
  obtain ⟨θ', hrecords, hsame⟩ := hF.records.bind hF.retains fun a m' hr => by
    obtain ⟨θ₂, hupheld⟩ := hsecond a m' hr
    exact ⟨⟨θ₂, hupheld.records⟩, hupheld.retains⟩
  refine ⟨θ', ⟨hrecords, ?_⟩, hsame⟩
  simp only [Bind.bind, EStateM.bind]
  cases hr : F E.right m with
  | error stop m' =>
    have hends := hF.ends
    rw [hr] at hends
    cases stop with
    | abrupt c => exact hends
    | exhausted => trivial
  | ok a m' =>
    obtain ⟨hlater, -, -⟩ := hF.of_ok hm hr
    obtain ⟨θ₂, hupheld⟩ := hsecond a m' hr
    refine hupheld.ends.mono ?_
    rintro o m'' ⟨hlater', hm'', hended⟩
    exact ⟨hlater.trans hlater', hm'', hended⟩

end Upheld

namespace Upholds

theorem mono {F : Engine → Eval α} {post post' : α → Machine → Prop} (h : Upholds E W n m F post)
    (hpost : ∀ a m', m.store.Evolves (Watched W n) m'.store → post a m' → post' a m') :
    Upholds E W n m F post' :=
  fun hm => (h hm).imp fun _ hupheld => hupheld.mono hpost

theorem anything {F : Engine → Eval α} {post : α → Machine → Prop} (h : Upholds E W n m F post) :
    Upholds E W n m F Anything :=
  h.mono fun _ _ _ _ => trivial

theorem restrict {F : Engine → Eval α} {post : α → Machine → Prop} (h : Upholds E W n m F post)
    (p : Ledger → Prop) : Upholds (E.restrict p) W n m F post :=
  fun hm => (h hm).imp fun _ hupheld => ⟨hupheld.records.restrict p, hupheld.ends⟩

theorem of_ok {F : Engine → Eval α} {post : α → Machine → Prop} (h : Upholds E W n m F post)
    (hm : m.IntactSince W n) {a : α} {m' : Machine} (heq : F E.right m = .ok a m') :
    m.store.Evolves (Watched W n) m'.store ∧ m'.IntactSince W n ∧ post a m' :=
  (h hm).elim fun _ hupheld => hupheld.of_ok hm heq

theorem also {F : Engine → Eval α} {post post' : α → Machine → Prop} (h : Upholds E W n m F post)
    (hF : ∀ a m', F E.right m = .ok a m' → post' a m') :
    Upholds E W n m F fun a m' => post a m' ∧ post' a m' := by
  intro hm
  obtain ⟨θ, hrecords, hends⟩ := h hm
  refine ⟨θ, hrecords, ?_⟩
  cases hr : F E.right m with
  | ok a m' =>
    rw [hr] at hends
    exact hends.imp_right (And.imp_right fun hpost => ⟨hpost, hF a m' hr⟩)
  | error stop m' =>
    rw [hr] at hends
    cases stop with
    | abrupt c => exact hends
    | exhausted => trivial

/-- What a computation does from here on begins no sharing in the scopes that are there. -/
theorem since {F : Engine → Eval α} {post : α → Machine → Prop}
    (h : Upholds E W m.store.scopes.size m F post) : Upholds E W n m F fun a m' =>
      post a m' ∧ ∀ scope name, scope.index < m.store.scopes.size →
        m'.store.Shares scope name → m.store.Shares scope name := by
  intro hm
  obtain ⟨θ, hrecords, hends⟩ := h ⟨hm.toIntact, Nat.le_refl _, hm.joins⟩
  refine ⟨θ, hrecords, hends.mono ?_⟩
  rintro o m' ⟨hlater, hm', hended⟩
  exact ⟨hlater.watched hm.old, hm', hended.mono fun _ hpost =>
    ⟨hpost, fun _ _ hthere => hlater.comesBy.shares hthere⟩⟩

theorem intact {F : Engine → Eval α} {post : α → Machine → Prop}
    (h : m.Intact → Upholds E W n m F post) : Upholds E W n m F post :=
  fun hm => h hm.toIntact hm

/-- A computation that asks nothing of an engine makes no scopes that have to be recorded. -/
theorem const {x : Eval α} {post : α → Machine → Prop}
    (h : m.IntactSince W n → Ends (fun o m' =>
      m.store.Evolves (Watched W n) m'.store ∧ m'.Intact ∧ Ended post o m') (x m)) :
    Upholds E W n m (fun _ => x) post :=
  fun hm => ⟨_, EngineFamily.records_nothing x, h hm⟩

theorem of_eq {x y : Eval α} {post : α → Machine → Prop} (heq : x m = y m)
    (h : Upholds E W n m (fun _ => y) post) : Upholds E W n m (fun _ => x) post :=
  .const fun hm => heq ▸ (h hm).elim fun _ hupheld => hupheld.ends

theorem pure {a : α} {post : α → Machine → Prop} (h : post a m) :
    Upholds E W n m (fun _ => pure a) post :=
  .const fun hm => ⟨.refl _, hm.toIntact, h⟩

theorem bind {F : Engine → Eval α} {G : α → Engine → Eval β} {mid : α → Machine → Prop}
    {post : β → Machine → Prop} (hF : Upholds E W n m F mid)
    (hG : ∀ a m', m.store.Evolves (Watched W n) m'.store → mid a m' →
      Upholds E W n m' (G a) post) :
    Upholds E W n m (fun e => F e >>= fun a => G a e) post := by
  intro hm
  obtain ⟨θ, hupheld⟩ := hF hm
  obtain ⟨θ', hbound, -⟩ := hupheld.bind hm fun a m' hlater hmid => (hG a m' hlater hmid).restrict _
  exact ⟨θ', hbound⟩

theorem step {x : Eval α} {a : α} {s : Store} {post : α → Machine → Prop}
    (hx : x m = .ok a { m with store := s })
    (hs : m.store.Intact → m.store.Leads (Watched W n) s)
    (hpost : m.store.Intact → post a { m with store := s }) :
    Upholds E W n m (fun _ => x) post := by
  refine .const fun hm => ?_
  obtain ⟨hlater, hintact⟩ := hs hm.store
  rw [hx]
  exact ⟨hlater, ⟨hintact, fun v hv => hlater.within (hm.newTarget v hv)⟩, hpost hm.store⟩

theorem aside {x : Eval α} {G : α → Engine → Eval β} {post : β → Machine → Prop} (a : α)
    (m' : Machine) (hx : x m = .ok a m') (hstore : m'.store = m.store)
    (hm' : m.Intact → m'.Intact) (hG : Upholds E W n m' (G a) post) :
    Upholds E W n m (fun e => x >>= fun a => G a e) post := by
  have hfirst : Upholds E W n m (fun _ => x) fun b m₁ => b = a ∧ m₁ = m' := by
    refine .const fun hm => ?_
    rw [hx]
    exact ⟨hstore ▸ .refl _, hm' hm.toIntact, rfl, rfl⟩
  refine .bind hfirst fun b m₁ _ hb => ?_
  obtain ⟨rfl, rfl⟩ := hb
  exact hG

theorem read {f : Store → α} : Upholds E W n m (fun _ => Eval.read f) fun a m' =>
    a = f m.store ∧ m' = m :=
  .step rfl (·.leads_self) fun _ => ⟨rfl, rfl⟩

theorem update {f : Store → Store}
    (h : m.store.Intact → m.store.Leads (Watched W n) (f m.store)) :
    Upholds E W n m (fun _ => Eval.update f) fun _ m' => m'.store = f m.store :=
  .step rfl h fun _ => rfl

theorem updateGet {f : Store → α × Store} {post : α → Machine → Prop}
    (h : m.store.Intact → m.store.Leads (Watched W n) (f m.store).2)
    (hpost : m.store.Intact → post (f m.store).1 { m with store := (f m.store).2 }) :
    Upholds E W n m (fun _ => Eval.updateGet f) post :=
  .step rfl h hpost

theorem complete {c : Abrupt} {post : α → Machine → Prop}
    (h : c.Within m.store.objects.size) : Upholds E W n m (fun _ => Eval.complete c) post :=
  .const fun hm => ⟨.refl _, hm.toIntact, h⟩

theorem exhausted {post : α → Machine → Prop} :
    Upholds E W n m (fun _ => Eval.exhausted) post :=
  .const fun _ => trivial

theorem resume {o : Except Abrupt α} {post : α → Machine → Prop} (h : Ended post o m) :
    Upholds E W n m (fun _ => Eval.resume o) post :=
  .const fun hm => by
    cases o with
    | ok value => exact ⟨.refl _, hm.toIntact, h⟩
    | error c => exact ⟨.refl _, hm.toIntact, h⟩

theorem attempt {F : Engine → Eval α} {post : α → Machine → Prop} (h : Upholds E W n m F post) :
    Upholds E W n m (fun e => Eval.attempt (F e)) (Ended post) := by
  intro hm
  obtain ⟨θ, hrecords, hends⟩ := h hm
  refine ⟨θ, hrecords.attempt, ?_⟩
  simp only [Eval.attempt]
  cases hr : F E.right m with
  | ok value m' =>
    rw [hr] at hends
    exact hends
  | error stop m' =>
    rw [hr] at hends
    cases stop with
    | abrupt c => exact hends
    | exhausted => trivial

theorem ite {c : Prop} [Decidable c] {F G : Engine → Eval α} {post : α → Machine → Prop}
    (hF : c → Upholds E W n m F post) (hG : ¬ c → Upholds E W n m G post) :
    Upholds E W n m (fun e => if c then F e else G e) post := by
  by_cases h : c
  · simpa only [h, if_true] using hF h
  · simpa only [h, if_false] using hG h

/-- A loop begins with the same number of rounds under both engines. -/
theorem rounds {F : Nat → Engine → Eval α} {post : α → Machine → Prop}
    (h : ∀ rounds, Upholds E W n m (F rounds) post) :
    Upholds E W n m (fun e => F e.rounds e) post := by
  intro hm
  obtain ⟨θ, hrecords, hends⟩ := h E.right.rounds hm
  refine ⟨θ, ⟨fun θ' hheeds hholds hsame => ?_, hrecords.holds⟩, hends⟩
  rw [E.rounds]
  exact hrecords.same θ' hheeds hholds hsame

/-! ### New objects -/

theorem allocate {r : ObjectRecord} (hr : m.store.Intact → r.Within m.store.objects.size)
    (htidy : r.Tidy) (hunshared : r.sharedParameters = .empty)
    (hcallable : ∀ d scope, r.callable ≠ some (.closure d scope)) :
    Upholds E W n m (fun _ => Eval.allocate r) Known :=
  .updateGet (fun hs => hs.allocate (hr hs) htidy hunshared fun d scope h =>
      absurd h (hcallable d scope))
    fun _ => m.store.within_allocate r

theorem fault (f : Fault) {post : α → Machine → Prop} :
    Upholds E W n m (fun _ => (Eval.fault f : Eval α)) post := by
  have herror : Upholds E W n m (fun _ => Eval.allocate (.error f.kind f.message)) Known :=
    .allocate (fun hs => ObjectRecord.within_error f.kind f.message hs.intrinsics)
      (.of_no_elements rfl (.ofList _)) rfl nofun
  exact .bind herror fun error m' _ hknown => .complete hknown

theorem newArray {elements : Array (Option Value)} (h : ∀ v, some v ∈ elements → m.Knows v) :
    Upholds E W n m (fun _ => Eval.newArray elements) Known :=
  .allocate (fun hs => ObjectRecord.within_array hs.intrinsics h)
    (ObjectRecord.IsNew.array elements).tidy rfl nofun

theorem newFullArray {values : List Value} (h : ∀ v ∈ values, m.Knows v) :
    Upholds E W n m (fun _ => Eval.newFullArray values) Known := by
  refine .newArray fun v hv => h v ?_
  obtain ⟨w, hw, heq⟩ := List.mem_map.mp (List.mem_toArray.mp hv)
  cases heq
  exact hw

theorem newClosure {d : FunctionDef} {scope : ScopeId} (hd : d.Sound)
    (hscope : scope.index < m.store.scopes.size) :
    Upholds E W n m (fun _ => Eval.newClosure d scope) Known := by
  unfold Eval.newClosure Eval.newFunction
  refine .updateGet (fun hs => hs.newFunction fun d' place h => ?_) fun _ => ?_
  · cases h
    exact ⟨hd, hscope⟩
  · exact m.store.within_newFunction _

end Upholds

end

end Integrity

end ProtoScript
