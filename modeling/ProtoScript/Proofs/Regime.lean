import ProtoScript.Proofs.Integrity.Operations
import ProtoScript.Proofs.Routine.Statement
/-!
# Regimes

What a whole run leaves alone.  A regime says in which scopes code may run meanwhile, which scopes
and objects are new to it, and what every operation keeps that a run under it may carry out: it is
enough to look at one operation of each kind.  Everything else about evaluation is here, once for
all regimes.
-/

namespace ProtoScript

structure Regime where
  /-- What holds of all stores on the way. -/
  inv : Store → Prop
  /-- What any stretch of the way keeps. -/
  keeps : Store → Store → Prop
  /-- The scopes in which code may run. -/
  stands : Store → ScopeId → Prop
  /-- The objects in which properties may be put whatever is there. -/
  takes : Store → ObjectId → Prop
  /-- The objects that are not to be passed to `Object.defineProperty`. -/
  guards : ObjectId → Prop
  /-- Whether programs may begin. -/
  programs : Prop
  /-- The scopes from this one on are made on the way. -/
  scopes : Nat

namespace Regime

/-- Names may be bound anew in the scope: it is made on the way, or it is the global scope for a
program. -/
def Renews (R : Regime) (id : ScopeId) : Prop := R.scopes ≤ id.index ∨ R.programs ∧ id = .global

def Permits (R : Regime) (s : Store) : StoreOperation → Prop
  | .property id (.define _ _) => ¬ R.guards id
  | .insert id key _ => R.takes s id ∨ key = "name"
  | .allocate r => r.sharedParameters = .empty ∧
      (∀ d scope, r.callable = some (.closure d scope) → R.stands s scope) ∧
      ∀ elements, r.elements = some elements → r = .array elements
  | .arguments id _ _ _ => R.stands s id ∧ R.scopes ≤ id.index
  | .assign id _ _ | .bind id _ _ => R.stands s id
  | .declare id _ kind => R.stands s id ∧ (kind = .variable ∨ R.Renews id)
  | .copy _ target _ => R.scopes ≤ target.index
  | .newScope parent _ => R.stands s parent
  | .selfScope _ _ _ _ => False
  | _ => True

structure Lawful (R : Regime) : Prop where
  refl : ∀ s, R.keeps s s
  trans : ∀ {s s' s''}, R.keeps s s' → R.keeps s' s'' → R.keeps s s''
  perform : ∀ {s op}, R.inv s → R.Permits s op →
    R.inv (s.perform op) ∧ R.keeps s (s.perform op)
  stays : ∀ {s s' id}, R.keeps s s' → R.stands s id → R.stands s' id
  global : ∀ {s}, R.inv s → R.stands s .global
  outward : ∀ {s id around}, R.stands s id → s.Inside id around → R.stands s around
  opens : ∀ {s parent}, R.inv s → R.stands s parent → ∀ kind,
    R.stands (s.newScope (some parent) kind).2 ⟨s.scopes.size⟩
  scopes_le : ∀ {s}, R.inv s → R.scopes ≤ s.scopes.size
  stillTakes : ∀ {s s' id}, R.keeps s s' → R.takes s id → R.takes s' id
  makes : ∀ {s r}, R.inv s → r.elements = none → R.takes (s.allocate r).2 (s.allocate r).1

def Asks (R : Regime) (s : Store) : Task → Prop
  | .evaluate _ scope | .execute _ scope _ | .bind _ _ scope _ | .directEval _ scope =>
    R.stands s scope
  | .closure d scope _ _ _ => s.HasClosure d scope
  | .program _ => R.programs
  | _ => True

def Admits (R : Regime) (s : Store) : Task → Prop
  | .closure _ scope _ _ _ => R.stands s scope
  | .native (.object .defineProperty) _ arguments =>
    ∀ id, Value.argument arguments 0 = .object id → ¬ R.guards id
  | task => R.Asks s task

def Leads (R : Regime) (s s' : Store) : Prop := R.inv s → R.inv s' ∧ R.keeps s s'

/-- From a store as it should be, the computation does the same with both engines, keeps to the
regime, and has a result as in `post` if it has one. -/
def Abides (R : Regime) (E : Engines) {α : Type} (m : Machine) (F : Engine → Eval α)
    (post : α → Machine → Prop) : Prop :=
  R.inv m.store → E.Alike m F fun o m' =>
    (R.inv m'.store ∧ R.keeps m.store m'.store) ∧ Completes (fun _ => True) post o m'

abbrev Anything {α : Type} (_ : α) (_ : Machine) : Prop := True

def Serves (R : Regime) (E : Engines) : Prop :=
  ∀ task m, R.Asks m.store task → R.Abides E m (fun e => e.run task) Anything

def Suits (R : Regime) (E : Engines) (host : Host) : Prop :=
  ∀ name receiver arguments m,
    R.Abides E m (fun e => host name e receiver arguments) Anything

variable {R : Regime} {E : Engines} {m : Machine} {s s' : Store} {scope : ScopeId} {α β : Type}

/-! ### Steps on the store -/

namespace Leads

theorem refl (hR : R.Lawful) (s : Store) : R.Leads s s := fun hs => ⟨hs, hR.refl s⟩

theorem trans {s'' : Store} (hR : R.Lawful) (h : R.Leads s s')
    (h' : R.inv s' → R.keeps s s' → R.Leads s' s'') : R.Leads s s'' := by
  intro hs
  obtain ⟨hs', hkeeps⟩ := h hs
  obtain ⟨hs'', hkeeps'⟩ := h' hs' hkeeps hs'
  exact ⟨hs'', hR.trans hkeeps hkeeps'⟩

theorem of_operation (hR : R.Lawful) (op : StoreOperation) (h : R.inv s → R.Permits s op)
    (heq : s.perform op = s') : R.Leads s s' :=
  fun hs => heq ▸ hR.perform hs (h hs)

end Leads

theorem leads_allocate (hR : R.Lawful) (s : Store) {r : ObjectRecord} (h : r.IsSimple) :
    R.Leads s (s.allocate r).2 :=
  .of_operation hR (.allocate r)
    (fun _ => ⟨h.unshared, fun d place hclosure => absurd hclosure (h.inert d place), h.array⟩) rfl

theorem leads_set (hR : R.Lawful) (s : Store) (id : ObjectId) (key : String) (value : Value) :
    R.Leads s (s.set id key value).2 :=
  .of_operation hR (.property id (.set key value)) (fun _ => trivial) rfl

theorem leads_delete (hR : R.Lawful) (s : Store) (id : ObjectId) (key : String) :
    R.Leads s (s.delete id key).2 :=
  .of_operation hR (.property id (.delete key)) (fun _ => trivial) rfl

theorem leads_define (hR : R.Lawful) (s : Store) {id : ObjectId} (h : ¬ R.guards id) (key : String)
    (p : DataProperty) : R.Leads s (s.define id key p).2 :=
  .of_operation hR (.property id (.define key p)) (fun _ => h) rfl

theorem leads_link (hR : R.Lawful) (s : Store) (id : ObjectId) (prototype : Option ObjectId) :
    R.Leads s (s.setPrototype id prototype) :=
  .of_operation hR (.link id prototype) (fun _ => trivial) rfl

theorem leads_insert (hR : R.Lawful) (s : Store) {id : ObjectId} {key : String} {p : DataProperty}
    (h : R.takes s id ∨ key = "name") : R.Leads s (s.insert id key p) :=
  .of_operation hR (.insert id key p) (fun _ => h) rfl

theorem leads_nameFunction (hR : R.Lawful) (s : Store) (function : Value) (name : String) :
    R.Leads s (s.nameFunction function name) := by
  cases function with
  | object id => exact leads_insert hR s (.inr rfl)
  | _ => exact .refl hR s

theorem leads_newFunction (hR : R.Lawful) {callable : Callable}
    (hclosure : ∀ d place, callable = .closure d place → R.stands s place) :
    R.Leads s (s.newFunction callable).2 := by
  have hfunction : R.Leads s (s.allocate (.function callable)).2 :=
    .of_operation hR (.allocate (.function callable))
      (fun _ => ⟨rfl, fun d place h => hclosure d place (Option.some.inj h), nofun⟩) rfl
  have hmakes : R.inv s → R.takes (s.allocate (.function callable)).2
      (s.allocate (.function callable)).1 := fun hs => hR.makes hs rfl
  unfold Store.newFunction
  generalize s.allocate (.function callable) = made at hfunction hmakes ⊢
  dsimp only
  split
  · intro hs
    have hprototype : R.Leads made.2 (made.2.allocate
        { prototype := some .objectPrototype
          slots := .ofList [("constructor", .hidden (.object made.1))] }).2 :=
      leads_allocate hR _ ⟨rfl, nofun, nofun⟩
    exact (hfunction.trans hR fun _ _ => hprototype.trans hR fun _ hkeeps =>
      leads_insert hR _ (.inl (hR.stillTakes hkeeps (hmakes hs)))) hs
  · exact hfunction

theorem leads_assign (hR : R.Lawful) (hscope : R.stands s scope) (name : String) (value : Value) :
    R.Leads s (s.assign scope name value).2 :=
  .of_operation hR (.assign scope name value) (fun _ => hscope) rfl

theorem leads_bind (hR : R.Lawful) (hscope : R.stands s scope) (name : String) (value : Value) :
    R.Leads s (s.bind scope name value) :=
  .of_operation hR (.bind scope name value) (fun _ => hscope) rfl

theorem leads_bindGlobal (hR : R.Lawful) (s : Store) (name : String) (value : Value) :
    R.Leads s (s.bind .global name value) :=
  .of_operation hR (.bind .global name value) hR.global rfl

theorem leads_declareAll (hR : R.Lawful) (hscope : R.stands s scope) (names : List String)
    {kind : BindingKind} (hkind : kind = .variable ∨ R.Renews scope) :
    R.Leads s (s.declareAll scope names kind) :=
  .of_operation hR (.declare scope names kind) (fun _ => ⟨hscope, hkind⟩) rfl

theorem leads_declareBound (hR : R.Lawful) (hscope : R.stands s scope) (name : String)
    {kind : BindingKind} (hkind : kind = .variable ∨ R.Renews scope) (value : Value) :
    R.Leads s ((s.declare scope name kind).bind scope name value) :=
  (leads_declareAll hR hscope [name] hkind).trans hR fun _ hkeeps =>
    leads_bind hR (hR.stays hkeeps hscope) name value

theorem leads_copyBindings (hR : R.Lawful) (s : Store) (source : ScopeId) {target : ScopeId}
    (htarget : R.scopes ≤ target.index) (names : List String) :
    R.Leads s (s.copyBindings source target names) :=
  .of_operation hR (.copy source target names) (fun _ => htarget) rfl

theorem leads_newScope (hR : R.Lawful) (hscope : R.stands s scope) (kind : ScopeKind) :
    R.Leads s (s.newScope (some scope) kind).2 :=
  .of_operation hR (.newScope scope kind) (fun _ => hscope) rfl

theorem leads_setStrict (hR : R.Lawful) (s : Store) (id : ScopeId) (strict : Bool) :
    R.Leads s (s.modifyScope id fun a => { a with strict }) :=
  .of_operation hR (.setStrict id strict) (fun _ => trivial) rfl

theorem leads_setKind (hR : R.Lawful) (s : Store) (id : ScopeId) (kind : ScopeKind) :
    R.Leads s (s.modifyScope id fun a => { a with kind }) :=
  .of_operation hR (.setKind id kind) (fun _ => trivial) rfl

/-- The scope that holds the variables of code stands where the code stands. -/
theorem stands_varScope (hR : R.Lawful) (h : R.stands s scope) : R.stands s (s.varScope scope) := by
  fun_induction Store.varScope s scope with
  | case3 id a ha _ around hparent hbehind ih => exact ih (hR.outward h ⟨hbehind, a, ha, hparent⟩)
  | _ => exact h

/-! ### Computations -/

namespace Abides

variable {F : Engine → Eval α} {post mid : α → Machine → Prop}

theorem mono {post' : α → Machine → Prop} (h : R.Abides E m F post)
    (hpost : ∀ a m', post a m' → post' a m') : R.Abides E m F post' :=
  fun hm => (h hm).mono fun _ m' hend =>
    ⟨hend.1, hend.2.mono (fun _ => id) fun a => hpost a m'⟩

theorem intro (h : R.inv m.store → R.Abides E m F post) : R.Abides E m F post := fun hm => h hm hm

theorem anything (h : R.Abides E m F post) : R.Abides E m F Anything := h.mono fun _ _ _ => trivial

theorem pure (hR : R.Lawful) {a : α} (h : post a m) : R.Abides E m (fun _ => pure a) post :=
  fun hm => ⟨rfl, ⟨hm, hR.refl _⟩, h⟩

theorem bind {G : α → Engine → Eval β} {post : β → Machine → Prop} (hR : R.Lawful)
    (hF : R.Abides E m F mid)
    (hG : ∀ a m', R.keeps m.store m'.store → mid a m' → R.Abides E m' (G a) post) :
    R.Abides E m (fun e => F e >>= fun a => G a e) post := by
  intro hm
  refine (hF hm).bind (fun c m' h => h) ?_
  rintro a m' ⟨⟨hm', hkeeps⟩, hmid⟩
  refine (hG a m' hkeeps hmid hm').mono ?_
  rintro o m'' ⟨⟨hm'', hkeeps'⟩, hc⟩
  exact ⟨⟨hm'', hR.trans hkeeps hkeeps'⟩, hc⟩

theorem step {x : Eval α} {a : α} {s : Store} (hx : x m = .ok a { m with store := s })
    (hs : R.Leads m.store s) (hpost : R.inv m.store → post a { m with store := s }) :
    R.Abides E m (fun _ => x) post := by
  intro hm
  refine ⟨rfl, ?_⟩
  show Ends _ (x m)
  rw [hx]
  exact ⟨hs hm, hpost hm⟩

theorem aside {x : Eval α} {G : α → Engine → Eval β} {post : β → Machine → Prop} (a : α)
    (m' : Machine) (hx : x m = .ok a m') (hstore : m'.store = m.store)
    (hG : R.Abides E m' (G a) post) : R.Abides E m (fun e => x >>= fun a => G a e) post := by
  intro hm
  rw [← hstore] at hm ⊢
  exact .step a m' hx (hG hm)

theorem of_eq {x y : Eval α} (heq : x m = y m) (h : R.Abides E m (fun _ => y) post) :
    R.Abides E m (fun _ => x) post :=
  fun hm => .of_eq heq (h hm)

theorem read (hR : R.Lawful) {f : Store → α} : R.Abides E m (fun _ => Eval.read f) fun a m' =>
    a = f m.store ∧ m' = m :=
  .step rfl (.refl hR _) fun _ => ⟨rfl, rfl⟩

theorem update {f : Store → Store} (h : R.Leads m.store (f m.store)) :
    R.Abides E m (fun _ => Eval.update f) fun _ m' => m'.store = f m.store :=
  .step rfl h fun _ => rfl

theorem updateGet {f : Store → α × Store} (h : R.Leads m.store (f m.store).2) :
    R.Abides E m (fun _ => Eval.updateGet f) fun a m' =>
      a = (f m.store).1 ∧ m'.store = (f m.store).2 :=
  .step rfl h fun _ => ⟨rfl, rfl⟩

theorem complete (hR : R.Lawful) (c : Abrupt) : R.Abides E m (fun _ => Eval.complete c) post :=
  fun hm => ⟨rfl, ⟨hm, hR.refl _⟩, trivial⟩

theorem exhausted : R.Abides E m (fun _ => Eval.exhausted) post := fun _ => ⟨rfl, trivial⟩

theorem resume (hR : R.Lawful) {o : Except Abrupt α} (h : ∀ a, o = .ok a → post a m) :
    R.Abides E m (fun _ => Eval.resume o) post := by
  cases o with
  | ok value => exact .pure hR (h value rfl)
  | error c => exact .complete hR c

theorem kept (h : R.Abides E m F post) :
    R.Abides E m F fun a m' => R.keeps m.store m'.store ∧ post a m' := by
  intro hm
  refine (h hm).mono fun o m' hend => ⟨hend.1, ?_⟩
  cases o with
  | ok a => exact ⟨hend.1.2, hend.2⟩
  | error c => exact hend.2

theorem attempt (h : R.Abides E m F post) :
    R.Abides E m (fun e => Eval.attempt (F e)) (Completes (fun _ => True) post) := by
  intro hm
  refine (h hm).attempt.mono ?_
  rintro o m' ⟨tried, rfl, hend, hc⟩
  exact ⟨hend, hc⟩

theorem ite {c : Prop} [Decidable c] {F G : Engine → Eval α} (hF : c → R.Abides E m F post)
    (hG : ¬ c → R.Abides E m G post) : R.Abides E m (fun e => if c then F e else G e) post := by
  by_cases h : c
  · simpa only [h, if_true] using hF h
  · simpa only [h, if_false] using hG h

/-- A loop begins with the same number of rounds under both engines. -/
theorem rounds {F : Nat → Engine → Eval α} (h : ∀ rounds, R.Abides E m (F rounds) post) :
    R.Abides E m (fun e => F e.rounds e) post := by
  intro hm
  show F E.left.rounds E.left m = _ ∧ _
  rw [E.rounds]
  exact h E.right.rounds hm

theorem of_ok (h : R.Abides E m F post) (hm : R.inv m.store) {a : α} {m' : Machine}
    (heq : F E.right m = .ok a m') : R.inv m'.store ∧ R.keeps m.store m'.store ∧ post a m' := by
  have hend := (h hm).2
  rw [heq] at hend
  exact ⟨hend.1.1, hend.1.2, hend.2⟩

end Abides

end Regime

end ProtoScript
