import ProtoScript.Proofs.Initialization.Binding
import ProtoScript.Proofs.Integrity.Sessions
import ProtoScript.Proofs.Rounds.Run
/-!
# Declarations leave no name uninitialized

When a pattern has been bound, all the names that it binds are initialized in the scope, and the
binding itself has initialized no others.  So once a declaration, the head of a loop, the parameter
of a handler or a list of parameters is through, every name that it declares can be read.  The host
must not come back to the interpreter meanwhile: a program that it starts may declare the names of
the global scope once more.
-/

namespace ProtoScript

/-- The names are initialized in the scope itself, so that reading them there finds a value. -/
def Store.AllReadable (s : Store) (scope : ScopeId) (names : List String) : Prop :=
  ∀ name ∈ names, s.Initialized scope name ∧ s.lookup scope name ≠ .error .uninitialized

theorem Store.AllInitialized.readable {s : Store} {scope : ScopeId} {names : List String}
    (h : s.AllInitialized scope names) : s.AllReadable scope names :=
  fun name hname => ⟨h name hname, (h name hname).lookup_ne⟩

/-! ### What is to be shown of the parts of programs -/

section

open Engine

/-- Binding the pattern to the value initializes its names, and no others. -/
def Pattern.BindsReadable (host : Host) (p : Pattern) (value : Value) (scope : ScopeId)
    (m : Machine) : Prop :=
  ∀ depth result m', runTask host depth (.bind p value scope true) m = .ok result m' →
    recordBinding host scope depth p value m = .ok p.boundNames m' ∧
      m'.store.AllReadable scope p.boundNames

def Declaration.LeavesReadable (host : Host) (d : Declaration) (scope : ScopeId) (m : Machine) :
    Prop :=
  ∀ depth m', (engine host depth).declaration d scope m = .ok () m' →
    m'.store.AllReadable scope d.boundNames

/-- The names that the head of a `for` loop declares can be read when it is through, and also in the
scope of the first round. -/
def Declaration.HeadReadable (host : Host) (d : Declaration) (scope : ScopeId) (m : Machine) :
    Prop :=
  ∀ depth head m₁ m₂ m₃, Eval.newScope scope .block m = .ok head m₁ →
    Eval.declareLexical d head m₁ = .ok () m₂ →
    (engine host depth).declaration d head m₂ = .ok () m₃ →
      m₃.store.AllReadable head d.boundNames ∧
      ∀ first m₄, roundScope (if d.kind = .letBound then d.boundNames else []) scope head m₃ =
        .ok first m₄ → m₄.store.AllReadable first d.boundNames

/-- The name that the head of a loop over keys declares can be read in each round. -/
def Declaration.KeyReadable (host : Host) (d : Declaration) (scope : ScopeId) : Prop :=
  ∀ depth key m round m', (engine host depth).bindKey (.declaration d) key scope m =
    .ok round m' → m'.store.AllReadable round d.boundNames

/-- The names of the parameter of a handler can be read when it is bound, and when the handler is
through. -/
def Handler.LeavesReadable (host : Host) (handler : Handler) (p : Pattern) (scope : ScopeId) :
    Prop :=
  (∀ inner exception m, inner.index < m.store.scopes.size →
    p.BindsReadable host exception inner m) ∧
  ∀ depth exception m value m', (engine host depth).handle handler exception scope m =
    .ok value m' → m'.store.AllReadable ⟨m.store.scopes.size⟩ p.boundNames

/-- The names of all parameters can be read when they are bound. -/
def FunctionDef.LeavesReadable (host : Host) (d : FunctionDef) : Prop :=
  ∀ depth inner arguments m m', inner.index < m.store.scopes.size →
    (engine host depth).bindParameters inner d.parameters arguments m = .ok () m' →
      m'.store.AllReadable inner d.parameterNames

/-- Whatever names the task declares itself, apart from variables, can be read once that is
through. -/
def Task.LeavesReadable (host : Host) (task : Task) (m : Machine) : Prop :=
  match task with
  | .bind p value scope true => p.BindsReadable host value scope m
  | .execute (.declaration d) scope _ => d.kind.isLexical = true → d.LeavesReadable host scope m
  | .execute (.forStmt (some (.declaration d)) _ _ _) scope _ =>
    d.kind.isLexical = true → d.HeadReadable host scope m
  | .execute (.forInStmt (.declaration d) _ _) scope _ =>
    d.kind.isLexical = true → d.KeyReadable host scope
  | .execute (.tryStmt _ (some handler) _) scope _ =>
    ∀ p, handler.parameter = some p → handler.LeavesReadable host p scope
  | .closure d _ _ _ _ => d.LeavesReadable host
  | _ => True

end

namespace Initialization

open Engine Integrity Regime

variable {host : Host} {scope : ScopeId} {size depth : Nat} {names others : List String}
  {m m' : Machine} {α β : Type}

/-- Names that are initialized one after the other are all initialized in the end. -/
theorem allInitialized_append {s s' : Store} (h : s.AllInitialized scope names)
    (hkeeps : (regime scope size).keeps s s') (h' : s'.AllInitialized scope others) :
    s'.AllInitialized scope (names ++ others) := by
  intro name hname
  rcases List.mem_append.mp hname with hfirst | hrest
  · exact hkeeps name (h name hfirst)
  · exact h' name hrest

/-- When the computation is through, the names are initialized in the scope.  What was initialized
in it before still is. -/
def Leaves (host : Host) (depth : Nat) (scope : ScopeId) (size : Nat) (names : List String)
    (m : Machine) (F : Engine → Eval α) : Prop :=
  (regime scope size).Abides ⟨engine host depth, engine host depth, rfl⟩ m F fun _ m' =>
    m'.store.AllInitialized scope names

theorem Leaves.of_ok {F : Engine → Eval α} {a : α} (h : Leaves host depth scope size names m F)
    (hm : size ≤ m.store.scopes.size) (hok : F (engine host depth) m = .ok a m') :
    m'.store.AllReadable scope names :=
  (Abides.of_ok h hm hok).2.2.readable

section

variable (hscope : scope.index < size)

include hscope

theorem leaves_nil {a : α} : Leaves host depth scope size [] m fun _ => pure a :=
  .pure (lawful_regime hscope) fun _ h => absurd h List.not_mem_nil

theorem Leaves.append {F : Engine → Eval α} {G : α → Engine → Eval β}
    (hF : Leaves host depth scope size names m F)
    (hG : ∀ a m, Leaves host depth scope size others m (G a)) :
    Leaves host depth scope size (names ++ others) m fun e => F e >>= fun a => G a e :=
  .bind (lawful_regime hscope) hF fun a m₁ _ hnames =>
    (hG a m₁).kept.mono fun _ _ hend => allInitialized_append hnames hend.1 hend.2

end

section

variable (hhost : host.Courteous) (hdetached : host.Detached) (hscope : scope.index < size)

include hhost hdetached hscope

/-! ### What binds patterns -/

theorem leaves_bind {p : Pattern} (hp : p.RestsLast) (value : Value) :
    Leaves host depth scope size p.boundNames m fun e => e.bind p value scope true := by
  have hbound : Leaves host depth scope size p.boundNames m (fun _ => do
      let _ ← recordBinding host scope depth p value
      return Value.undefined) :=
    .bind (lawful_regime hscope)
      (abides_recordBinding hhost hdetached hscope depth p value m hp)
      fun _ _ _ hnames => .pure (lawful_regime hscope) hnames.2
  rw [forget_recordBinding] at hbound
  exact hbound

theorem leaves_declarators {kind : DeclarationKind} (hkind : kind.isLexical = true)
    {list : List Declarator} (hlist : ∀ d ∈ list, d.target.RestsLast) :
    Leaves host depth scope size (list.flatMap fun d => d.target.boundNames) m
      fun e => e.declarators kind scope list := by
  have hR := lawful_regime hscope
  induction list generalizing m with
  | nil => exact leaves_nil hscope
  | cons d rest ih =>
    have hbind (value : Value) (m : Machine) :
        Leaves host depth scope size
          (d.target.boundNames ++ rest.flatMap fun d => d.target.boundNames) m
          (fun e => do
            let _ ← e.bind d.target value scope true
            e.declarators kind scope rest) :=
      .append hscope (leaves_bind hhost hdetached hscope (hlist d List.mem_cons_self) value)
        fun _ m => ih fun d hd => hlist d (List.mem_cons_of_mem _ hd)
    unfold declarators
    rw [List.flatMap_cons, hkind]
    cases d.init with
    | some init =>
      exact .bind hR (.routine hR (serves_engine hhost hdetached hscope depth) trivial
        (.valueFor (evaluates hR scope) d.target trivial)) fun value m₁ _ _ => hbind value m₁
    | none => exact hbind .undefined m

theorem leaves_declaration {d : Declaration} (hlexical : d.kind.isLexical = true)
    (hd : d.Sound) :
    Leaves host depth scope size d.boundNames m fun e => e.declaration d scope := by
  cases hd with
  | intro targets _ =>
    exact leaves_declarators hhost hdetached hscope hlexical fun declarator hmem =>
      (targets declarator hmem).restsLast

theorem leaves_bindParameters {parameters : List Pattern} (arguments : List Value)
    (hparameters : ∀ p ∈ parameters, p.RestsLast) :
    Leaves host depth scope size (parameters.flatMap Pattern.boundNames) m
      fun e => e.bindParameters scope parameters arguments := by
  have hR := lawful_regime hscope
  have hserves := serves_engine hhost hdetached hscope depth
  induction parameters generalizing m arguments with
  | nil => exact leaves_nil hscope
  | cons p rest ih =>
    have hbind {target : Pattern} (htarget : target.RestsLast) (value : Value) (m : Machine) :
        Leaves host depth scope size (target.boundNames ++ rest.flatMap Pattern.boundNames) m
          (fun e => do
            let _ ← e.bind target value scope true
            e.bindParameters scope rest arguments.tail) :=
      .append hscope (leaves_bind hhost hdetached hscope htarget value)
        fun _ m => ih arguments.tail fun q hq => hparameters q (List.mem_cons_of_mem _ hq)
    have hp := hparameters p List.mem_cons_self
    rw [List.flatMap_cons]
    cases p with
    | rest target =>
      rw [Pattern.boundNames]
      have hvalues : (regime scope size).Abides ⟨engine host depth, engine host depth, rfl⟩ m
          (fun _ => Eval.newFullArray arguments) Regime.Anything :=
        .ordinary hR hserves fun _ hS => .newFullArray hS arguments
      exact .bind hR hvalues fun array m₁ _ _ =>
        hbind (hp.part (List.mem_singleton.mpr rfl)) array m₁
    | _ => exact hbind hp _ m

end

/-! ### What declares names -/

theorem lt_of_declared {place inner : ScopeId} {kind : ScopeKind} {bindings : BindingKind}
    {m₁ m₂ : Machine} (hmade : Eval.newScope place kind m = .ok inner m₁)
    (hdeclared : Eval.update (fun s => s.declareAll inner names bindings) m₁ = .ok () m₂) :
    inner = ⟨m.store.scopes.size⟩ ∧ inner.index < m₂.store.scopes.size := by
  cases hmade
  cases hdeclared
  have hsize := Store.size_le_perform (m.store.newScope (some place) kind).2
    (.declare ⟨m.store.scopes.size⟩ names bindings)
  refine ⟨rfl, Nat.lt_of_lt_of_le (Nat.lt_succ_self _) (Nat.le_trans ?_ hsize)⟩
  exact Nat.le_of_eq (Array.size_push ..).symm

theorem readable_of_handsOver {s s' : Store} {outer head first : ScopeId}
    (h : s.HandsOver names outer head first s') (hnames : s.AllReadable head names) :
    s'.AllReadable first names := by
  refine Store.AllInitialized.readable fun name hname => ?_
  obtain ⟨b, hb, hinitialized⟩ := Store.initialized_iff.mp (hnames name hname).1
  exact Store.initialized_iff.mpr ⟨b, (h.bindings name hname).trans hb, hinitialized⟩

section

variable (hhost : host.Courteous) (hdetached : host.Detached)

include hhost hdetached

theorem bindsReadable {p : Pattern} (hp : p.RestsLast) (value : Value)
    (hm : scope.index < m.store.scopes.size) : p.BindsReadable host value scope m := by
  intro depth result m' hbound
  have hrecords := abides_recordBinding (E := ⟨engine host depth, engine host depth, rfl⟩) hhost
    hdetached hm depth p value m hp
  rw [← forget_recordBinding] at hbound
  obtain ⟨names, m₁, hrecord, hpure⟩ := Eval.ok_of_bind hbound
  cases hpure
  obtain ⟨-, -, rfl, hnames⟩ := Abides.of_ok hrecords (Nat.le_refl _) hrecord
  exact ⟨hrecord, hnames.readable⟩

theorem declaration_leavesReadable {d : Declaration} (hd : d.Sound)
    (hlexical : d.kind.isLexical = true) (hm : scope.index < m.store.scopes.size) :
    d.LeavesReadable host scope m :=
  fun _ _ hdeclared =>
    (leaves_declaration hhost hdetached hm hlexical hd).of_ok (Nat.le_refl _) hdeclared

theorem headReadable {d : Declaration} (hd : d.Sound) (hlexical : d.kind.isLexical = true)
    (scope : ScopeId) (m : Machine) : d.HeadReadable host scope m := by
  intro depth head m₁ m₂ m₃ hmade hdeclared hbound
  obtain ⟨-, hhead⟩ := lt_of_declared hmade hdeclared
  have hnames := declaration_leavesReadable hhost hdetached hd hlexical hhead depth m₃ hbound
  refine ⟨hnames, fun first m₄ hround => ?_⟩
  split at hround
  · by_cases hnone : d.boundNames = []
    · rw [hnone]
      exact fun _ h => absurd h List.not_mem_nil
    · obtain ⟨name, rest, heq⟩ := List.exists_cons_of_ne_nil hnone
      obtain ⟨b, hb, -⟩ := Store.initialized_iff.mp
        (hnames name (heq ▸ List.mem_cons_self)).1
      exact readable_of_handsOver
        (handsOver_of_roundScope hnone (Store.lt_of_binding? hb) hround) hnames
  · -- All rounds have the scope of the head.
    cases hround
    exact hnames

/-- The declaration in the head of a loop over keys declares what its only declarator binds. -/
theorem keyReadable {d : Declaration} (hd : d.Sound) (hlexical : d.kind.isLexical = true)
    (hsingle : ∃ declarator, d.declarators = [declarator]) (scope : ScopeId) :
    d.KeyReadable host scope := by
  intro depth key m round m' hbound
  obtain ⟨declarator, hdeclarators⟩ := hsingle
  have htarget : declarator.target.RestsLast := by
    cases hd with
    | intro targets _ =>
      exact (targets declarator (hdeclarators ▸ List.mem_singleton_self _)).restsLast
  have hnames : d.boundNames = declarator.target.boundNames := by
    rw [Declaration.boundNames, hdeclarators, List.flatMap_singleton]
  unfold bindKey at hbound
  dsimp only at hbound
  rw [if_pos hlexical] at hbound
  obtain ⟨inner, m₁, hmade, hbound⟩ := Eval.ok_of_bind hbound
  obtain ⟨_, m₂, hdeclared, hbound⟩ := Eval.ok_of_bind hbound
  obtain ⟨-, hinner⟩ := lt_of_declared hmade hdeclared
  rw [hdeclarators] at hbound
  obtain ⟨value, m₃, hfirst, hbound⟩ := Eval.ok_of_bind hbound
  cases hbound
  rw [hnames]
  exact (bindsReadable hhost hdetached htarget key hinner depth value _ hfirst).2

theorem handler_leavesReadable {handler : Handler} {p : Pattern} (hp : p.RestsLast)
    (hparameter : handler.parameter = some p) (scope : ScopeId) :
    handler.LeavesReadable host p scope := by
  refine ⟨fun inner exception m hinner => bindsReadable hhost hdetached hp exception hinner,
    fun depth exception m value m' hhandled => ?_⟩
  unfold handle at hhandled
  rw [hparameter] at hhandled
  obtain ⟨inner, m₁, hmade, hhandled⟩ := Eval.ok_of_bind hhandled
  obtain ⟨_, m₂, hdeclared, hhandled⟩ := Eval.ok_of_bind hhandled
  obtain ⟨rfl, hinner⟩ := lt_of_declared hmade hdeclared
  have hblock (m₃ : Machine) :
      Leaves host depth ⟨m.store.scopes.size⟩ m₂.store.scopes.size [] m₃
        fun e => e.block handler.body ⟨m.store.scopes.size⟩ :=
    (abides_block (lawful_regime hinner) (serves_engine hhost hdetached hinner depth)
      handler.body trivial).mono fun _ _ _ _ h => absurd h List.not_mem_nil
  have hboth := Leaves.append (m := m₂) hinner
    (leaves_bind hhost hdetached hinner hp exception) fun _ => hblock
  rw [List.append_nil] at hboth
  exact hboth.of_ok (Nat.le_refl _) hhandled

theorem function_leavesReadable {d : FunctionDef} (hd : d.Sound) : d.LeavesReadable host := by
  intro depth inner arguments m m' hinner hbound
  cases hd with
  | intro parameters _ _ =>
    exact (leaves_bindParameters hhost hdetached hinner arguments fun p hp =>
      (parameters p hp).restsLast).of_ok (Nat.le_refl _) hbound

theorem leavesReadable_of_ready {task : Task} {receiver : Value} (h : task.Ready receiver m) :
    task.LeavesReadable host m := by
  unfold Task.LeavesReadable
  split
  · next p value place =>
    exact bindsReadable hhost hdetached h.1.restsLast value h.2.there
  · next d place labels =>
    obtain ⟨⟨t, hsound⟩, hstands⟩ := h
    cases hsound with
    | declaration hd =>
      exact fun hlexical =>
        declaration_leavesReadable hhost hdetached hd hlexical hstands.there
  · next d test update body place labels =>
    obtain ⟨⟨t, hsound⟩, -⟩ := h
    cases hsound with
    | forStmt declared =>
      exact fun hlexical => headReadable hhost hdetached (declared d rfl) hlexical place m
  · next d object body place labels =>
    obtain ⟨⟨t, hsound⟩, -⟩ := h
    cases hsound with
    | forInStmt declared single =>
      exact fun hlexical =>
        keyReadable hhost hdetached (declared d rfl) hlexical (single d rfl) place
  · next body handler finalizer place labels =>
    obtain ⟨⟨t, hsound⟩, -⟩ := h
    cases hsound with
    | tryStmt _ parameter_sound =>
      exact fun p hparameter => handler_leavesReadable hhost hdetached
        (parameter_sound handler rfl p hparameter).restsLast hparameter place
  · exact function_leavesReadable hhost hdetached h.2.1
  · trivial

end

/-! ### All runs -/

/-- What each task declares can be read once it is through. -/
def observer (host : Host) : Supervisor Unit where
  inside _ _ _ := ()
  admits _ task m := task.LeavesReadable host m
  accepts _ _ _ _ _ := True

/-- Binding a pattern whose rests come last initializes exactly the names that it binds.  So on
every machine that sessions lead to, at every task of whatever the embedding program asks for,
lexical declarations, heads of loops, parameters of handlers and parameters of functions leave all
their names readable when they are through.  Binding with the record of the names is binding. -/
theorem declarations_leave_readable (hhost : host.Courteous) (hdetached : host.Detached) :
    (∀ p : Pattern, p.RestsLast → ∀ value scope m, scope.index < m.store.scopes.size →
      p.BindsReadable host value scope m) ∧
    (∀ depth p value scope,
      (do let _ ← recordBinding host scope depth p value; return Value.undefined) =
        runTask host depth (.bind p value scope true)) ∧
    ∀ m, Machine.Reachable host Program.Accepted m →
      ∀ task, (Setting.embedding Program.Accepted fun _ => True).asks task →
        (∀ v ∈ task.values, m.Knows v) → ∀ bound,
          (observer host).run host bound () task m = runTask host bound task m := by
  refine ⟨fun p hp value scope m hm => bindsReadable hhost hdetached hp value hm,
    fun depth p value scope => forget_recordBinding host scope depth p value,
    fun m hm task htask hvalues bound => ?_⟩
  have hintact := (intact_of_reachable hhost hm).1
  exact (governs hhost).run_eq (observer host) (fun _ => ()) (fun _ _ _ _ => rfl)
    (fun _ _ _ hbegin => leavesReadable_of_ready hhost hdetached hbegin.2.2.1)
    (fun _ _ _ _ _ _ _ => trivial) bound .undefined task m (admits_of_asks hintact htask hvalues)

theorem restsLast_headAndRest (first rest : String) :
    (Pattern.array [some (.identifier first), some (.rest (.identifier rest))]).RestsLast := by
  have hname (name : String) : (Pattern.identifier name).RestsLast :=
    .intro (fun _ h => nomatch h) nofun
  have hrest : (Pattern.rest (.identifier rest)).RestsLast :=
    .intro (List.forall_mem_singleton.mpr (hname rest)) nofun
  refine .intro (List.forall_mem_cons.mpr ⟨hname first, List.forall_mem_singleton.mpr hrest⟩)
    fun before target after heq => ?_
  cases before with
  | nil => cases heq
  | cons _ before =>
    cases before with
    | nil => cases heq; rfl
    | cons _ before => cases before <;> cases heq

theorem declarations_leave_readable_destructuring :
    (Pattern.array [some (.identifier "a"), some (.rest (.identifier "b"))]).BindsReadable .none
      (.string (.ofString "xyz")) .global (.initial {}) ∧
    (observer .none).run .none 9 ()
        (.indirectEval (.string (.ofString "let [a, [b = a], ...c] = [1, [], 2]; c")))
        (.initial {}) =
      runTask .none 9
        (.indirectEval (.string (.ofString "let [a, [b = a], ...c] = [1, [], 2]; c")))
        (.initial {}) := by
  have h := declarations_leave_readable Host.none_courteous Host.none_detached
  refine ⟨h.1 _ (restsLast_headAndRest "a" "b") _ .global (.initial {}) ?_,
    h.2.2 (.initial {}) (.initial {})
      (.indirectEval (.string (.ofString "let [a, [b = a], ...c] = [1, [], 2]; c"))) trivial
      (List.forall_mem_singleton.mpr trivial) 9⟩
  rw [show (Machine.initial {}).store = Store.initial {} from rfl, Store.size_initial]
  exact Nat.one_pos

end Initialization

end ProtoScript
