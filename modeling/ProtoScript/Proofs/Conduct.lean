import ProtoScript.Proofs.Embedding
import ProtoScript.Proofs.Grammar.Statement
import ProtoScript.Proofs.Hoist
import ProtoScript.Proofs.StoreGrowth
import ProtoScript.Proofs.Resolution
import ProtoScript.Proofs.Routine.Statement
/-!
# What a run of sound code conducts itself by

A run of programs that the grammar accepts keeps three accounts.  One says where the jumps in the
code at hand can go; one says whether names are being declared or assigned to; one says how strict
the code at hand is meant to be.  The supervisor of this file checks all three at every task.  The
files below it show that it never stops a run.
-/

namespace ProtoScript

def Program.Accepted (p : Program) : Prop :=
  ∃ source strict, Program.ofString source strict = .ok p

theorem Program.Accepted.sound {p : Program} (h : p.Accepted) : p.Sound := by
  obtain ⟨source, strict, hp⟩ := h
  exact Program.sound_ofString hp

structure Store.Sound (s : Store) : Prop where
  global : 0 < s.scopes.size
  closures : ∀ d scope, s.HasClosure d scope → d.Sound ∧ scope.index < s.scopes.size

theorem Store.Sound.grows {s s' : Store} (hs : s.Sound) (h : s.Grows s') : s'.Sound := by
  refine ⟨Nat.lt_of_lt_of_eq hs.global h.size.symm, fun d scope hc => ?_⟩
  obtain ⟨hd, hscope⟩ := hs.closures d scope (h.closures d scope hc)
  exact ⟨hd, Nat.lt_of_lt_of_eq hscope h.size.symm⟩

theorem Store.Sound.of_objects {s s' : Store} (hs : s.Sound)
    (hsize : s.scopes.size ≤ s'.scopes.size) (hobjects : s'.objects = s.objects) : s'.Sound := by
  refine ⟨Nat.lt_of_lt_of_le hs.global hsize, fun d scope hc => ?_⟩
  unfold Store.HasClosure Store.object? at hc
  rw [hobjects] at hc
  obtain ⟨hd, hscope⟩ := hs.closures d scope hc
  exact ⟨hd, Nat.lt_of_lt_of_le hscope hsize⟩

theorem Store.Sound.modifyScope {s : Store} (hs : s.Sound) (id : ScopeId) (f : Scope → Scope) :
    (s.modifyScope id f).Sound :=
  hs.of_objects (Nat.le_of_eq (s.size_modifyScope id f).symm) rfl

theorem Store.Sound.of_callable? {s : Store} (hs : s.Sound) {function : Value} {d : FunctionDef}
    {scope : ScopeId} (h : s.callable? function = some (.closure d scope)) :
    d.Sound ∧ scope.index < s.scopes.size := by
  obtain ⟨r, hr, hcallable⟩ := Option.bind_eq_some_iff.mp h
  obtain ⟨id, _, hobject⟩ := Option.bind_eq_some_iff.mp hr
  exact hs.closures d scope ⟨id, r, hobject, hcallable⟩

theorem Store.Sound.newClosure {s : Store} (hs : s.Sound) {d : FunctionDef} {scope : ScopeId}
    (hd : d.Sound) (hscope : scope.index < s.scopes.size) :
    (s.newFunction (.closure d scope)).2.Sound := by
  have hsize := s.size_newFunction (.closure d scope)
  refine ⟨Nat.lt_of_lt_of_eq hs.global hsize.symm, fun d' place hc => ?_⟩
  rcases s.hasClosure_newFunction _ d' place hc with heq | hbefore
  · cases heq
    exact ⟨hd, Nat.lt_of_lt_of_eq hscope hsize.symm⟩
  · obtain ⟨hd', hplace⟩ := hs.closures d' place hbefore
    exact ⟨hd', Nat.lt_of_lt_of_eq hplace hsize.symm⟩

theorem Store.Sound.hoisted {s s' : Store} {scope : ScopeId} {body : List Stmt} (hs : s.Sound)
    (h : s.Hoisted scope body s') (hscope : scope.index < s.scopes.size)
    (hbody : ∀ d, .function d ∈ body → d.Sound) : s'.Sound := by
  refine ⟨Nat.lt_of_lt_of_le hs.global h.later.size_le, fun d place hc => ?_⟩
  rcases h.closures d place hc with hbefore | ⟨rfl, hd⟩
  · obtain ⟨hd, hplace⟩ := hs.closures d place hbefore
    exact ⟨hd, Nat.lt_of_lt_of_le hplace h.later.size_le⟩
  · exact ⟨hbody d hd, Nat.lt_of_lt_of_le hscope h.later.size_le⟩

/-! ### Where jumps can go -/

/-- Where the jumps directly inside a statement can go that stands behind labels. -/
def Targets.insideStatement (t : Targets) (s : Stmt) (labels : List String) : Targets :=
  match s with
  | .whileStmt _ _ => t.loop labels
  | .doWhileStmt _ _ => t.loop labels
  | .forStmt _ _ _ _ => t.loop labels
  | .forInStmt _ _ _ => t.loop labels
  | .switchStmt _ _ => t.switch
  | .labeled label _ => t.labeled label
  | _ => t

/-- Where the jumps directly inside a task can go.  No jump leaves a function or a text. -/
def Targets.inside (t : Targets) : Task → Targets
  | .execute s _ labels => t.insideStatement s labels
  | .closure _ _ _ _ _ => .function
  | .directEval _ _ => .outside
  | .indirectEval _ => .outside
  | .program _ => .outside
  | _ => t

/-- The completions that may leave a statement: beside those that always may, the jumps that go
somewhere around it. -/
def Targets.Passes (may : Abrupt → Prop) (t : Targets) (c : Abrupt) : Prop := may c ∨ t.allows c

/-- The completions that may leave a statement that ends some jumps itself. -/
def Targets.PassesBut (may : Abrupt → Prop) (t : Targets) (ended : Abrupt → Prop) (c : Abrupt) :
    Prop :=
  may c ∨ t.allows c ∧ ¬ ended c

/-- A loop behind labels ends the jumps that name none and those that name one of the labels. -/
def Abrupt.EndsAtLoop (labels : List String) : Abrupt → Prop
  | .broke none | .continued none => True
  | .broke (some label) | .continued (some label) => label ∈ labels
  | _ => False

/-- The jumps that a statement behind labels is the target of. -/
def Stmt.ends (s : Stmt) (labels : List String) (c : Abrupt) : Prop :=
  match s with
  | .whileStmt _ _ => c.EndsAtLoop labels
  | .doWhileStmt _ _ => c.EndsAtLoop labels
  | .forStmt _ _ _ _ => c.EndsAtLoop labels
  | .forInStmt _ _ _ => c.EndsAtLoop labels
  | .switchStmt _ _ => c = .broke none
  | .labeled label _ => c = .broke (some label)
  | _ => False

/-- The completions that may leave a task.  No jump leaves a statement that it is meant for, and
none leaves a task that is no statement. -/
def Targets.Leaves (may : Abrupt → Prop) (t : Targets) (task : Task) (c : Abrupt) : Prop :=
  match task with
  | .execute s _ labels => t.PassesBut may (s.ends labels) c
  | _ => may c

/-! ### How strict code is -/

structure Strictness where
  /-- Whether the program that is running makes the global scope strict. -/
  script : Bool
  /-- How strict the code is meant to be. -/
  assigned : Bool
  /-- Whether the code came in by an indirect `eval` or as a program, so that its scopes stand
  directly inside the global one. -/
  imported : Bool
  deriving DecidableEq, Repr

namespace Strictness

/-- The code came in without asking for strict mode and is strict all the same, because the program
that is running made the global scope strict. -/
def slipped (n : Strictness) : Bool := n.imported && !n.assigned && n.script

def isStrict (n : Strictness) : Bool := n.assigned || n.slipped

theorem isStrict_eq_assigned_iff (n : Strictness) :
    n.isStrict = n.assigned ↔ n.slipped = false := by
  unfold isStrict slipped
  cases n.assigned <;> simp

/-- Whether a text is a program that asks for strict mode or is read in it. -/
def ofText (text : Value) (strict : Bool) : Bool :=
  match text with
  | .string source =>
    match Program.ofString source.toString strict with
    | .ok p => p.strict
    | .error _ => false
  | _ => false

/-- Outside of all code, where the global scope is strict or not. -/
def outside (strict : Bool) : Strictness := ⟨strict, strict, false⟩

def inside (n : Strictness) : Task → Strictness
  | .closure d _ _ _ _ => ⟨n.script, d.strict, false⟩
  | .directEval text _ => ⟨n.script, ofText text n.isStrict || n.isStrict, false⟩
  | .indirectEval text => ⟨n.script, ofText text false, true⟩
  | .program p => ⟨n.script || p.strict, p.strict, true⟩
  | _ => n

end Strictness

/-! ### Whether names are declared -/

/-- Whether names that are bound directly inside a task are being declared.  The head of a loop over
keys may be a mere assignment. -/
def Task.declares (before : Bool) : Task → Bool
  | .execute (.forInStmt (.pattern _) _ _) _ _ => false
  | .execute _ _ _ => true
  | _ => before

/-- What a statement declares for itself is there: its variables in the scope or around it, its
lexical names in the scope itself. -/
structure Store.Declares (s : Store) (scope : ScopeId) (statement : Stmt) : Prop where
  vars : ∀ name ∈ statement.varNames, s.Resolves scope name
  lexicals : ∀ name ∈ Grammar.lexicalNames statement, s.hasOwnBinding scope name = true

theorem Store.Declares.later {s s' : Store} {scope : ScopeId} {statement : Stmt}
    (h : s.Declares scope statement) (hs : s.Extends s') : s'.Declares scope statement :=
  ⟨fun name hname => hs.resolves (h.vars name hname),
    fun name hname => hs.hasOwnBinding (h.lexicals name hname)⟩

structure Store.Hosts (s : Store) (n : Strictness) (scope : ScopeId) : Prop where
  there : scope.index < s.scopes.size
  strict : s.isStrict scope = n.isStrict
  script : s.isStrict .global = n.script

theorem Store.Hosts.later {s s' : Store} {n : Strictness} {scope : ScopeId} (h : s.Hosts n scope)
    (hs : s.Extends s') : s'.Hosts n scope := by
  have hglobal : 0 < s.scopes.size := Nat.zero_lt_of_lt h.there
  refine ⟨Nat.lt_of_lt_of_le h.there hs.size_le, ?_, ?_⟩
  · rw [hs.isStrict_eq h.there]
    exact h.strict
  · exact (hs.isStrict_eq hglobal).trans h.script

namespace Conduct

structure Note where
  targets : Targets
  declaring : Bool
  strictness : Strictness

def Note.inside (n : Note) (task : Task) : Note where
  targets := n.targets.inside task
  declaring := task.declares n.declaring
  strictness := n.strictness.inside task

/-- The names are bound by the scope that they are to be given their first value in; a variable that
is declared is at least found from the scope. -/
def Prepared (s : Store) (scope : ScopeId) (fresh declaring : Bool) (names : List String) : Prop :=
  ∀ name ∈ names, if fresh then s.hasOwnBinding scope name = true
    else declaring = true → s.Resolves scope name

theorem Prepared.later {s s' : Store} {scope : ScopeId} {fresh declaring : Bool}
    {names : List String} (h : Prepared s scope fresh declaring names) (hs : s.Extends s') :
    Prepared s' scope fresh declaring names := by
  intro name hname
  have hbefore := h name hname
  cases fresh with
  | true => exact hs.hasOwnBinding hbefore
  | false => exact fun hdeclaring => hs.resolves (hbefore hdeclaring)

def supervisor (may : Abrupt → Prop) : Supervisor Note where
  inside n task _ := n.inside task
  admits n task m :=
    m.store.Sound ∧ m.store.isStrict .global = n.strictness.script ∧
      match task with
      | .evaluate x scope => x.Sound ∧ m.store.Hosts n.strictness scope
      | .execute s scope labels =>
        s.Sound n.targets labels ∧ m.store.Hosts n.strictness scope ∧ m.store.Declares scope s
      | .bind p _ scope fresh =>
        p.Sound ∧ m.store.Hosts n.strictness scope ∧
          Prepared m.store scope fresh n.declaring p.boundNames
      | .closure d scope _ _ _ => d.Sound ∧ scope.index < m.store.scopes.size
      | .directEval _ scope => m.store.Hosts n.strictness scope
      | .program p => p.Sound
      | _ => True
  accepts n task m o m' :=
    m.store.Extends m'.store ∧ m'.store.Sound ∧
      Completes (n.targets.Leaves may task) (fun _ _ => True) o m'

/-! ### Computations that keep the store sound -/

/-- From a machine with a sound store, the computation does the same with both engines, only adds to
the store, keeps it sound, and completes with a result as in `post` or abruptly as in `may`. -/
def Advances {α : Type} (E : Engines) (may : Abrupt → Prop) (m : Machine) (F : Engine → Eval α)
    (post : α → Machine → Prop) : Prop :=
  m.store.Sound → E.Alike m F fun o m' =>
    m.store.Extends m'.store ∧ m'.store.Sound ∧ Completes may post o m'

namespace Advances

variable {E : Engines} {may may' : Abrupt → Prop} {m : Machine} {α β : Type}

theorem mono {F : Engine → Eval α} {post post' : α → Machine → Prop} (h : Advances E may m F post)
    (hmay : ∀ c, may c → may' c)
    (hpost : ∀ a m', m.store.Extends m'.store → post a m' → post' a m') :
    Advances E may' m F post' := by
  intro hm
  refine (h hm).mono ?_
  rintro o m' ⟨hlater, hsound, hc⟩
  exact ⟨hlater, hsound, hc.mono hmay fun a => hpost a m' hlater⟩

theorem passes {F : Engine → Eval α} {post : α → Machine → Prop} (h : Advances E may m F post)
    {t : Targets} : Advances E (t.Passes may) m F post :=
  h.mono (fun _ => .inl) fun _ _ _ h => h

/-- A statement that is no target of jumps lets out whatever goes somewhere around it. -/
theorem unended {F : Engine → Eval α} {post : α → Machine → Prop} {t : Targets}
    {ended : Abrupt → Prop} (h : Advances E (t.Passes may) m F post) (hended : ∀ c, ¬ ended c) :
    Advances E (t.PassesBut may ended) m F post :=
  h.mono (fun c hpasses => hpasses.imp_right fun hallows => ⟨hallows, hended c⟩) fun _ _ _ h => h

theorem passesBut {F : Engine → Eval α} {post : α → Machine → Prop}
    (h : Advances E may m F post) {t : Targets} {ended : Abrupt → Prop} :
    Advances E (t.PassesBut may ended) m F post :=
  h.mono (fun _ => .inl) fun _ _ _ h => h

theorem pure {a : α} {post : α → Machine → Prop} (h : post a m) :
    Advances E may m (fun _ => pure a) post :=
  fun hm => ⟨rfl, .refl _, hm, h⟩

theorem bind {F : Engine → Eval α} {G : α → Engine → Eval β} {mid : α → Machine → Prop}
    {post : β → Machine → Prop} (hF : Advances E may m F mid)
    (hG : ∀ a m', m.store.Extends m'.store → mid a m' → Advances E may m' (G a) post) :
    Advances E may m (fun e => F e >>= fun a => G a e) post := by
  intro hm
  refine (hF hm).bind (fun c m' h => h) ?_
  rintro a m' ⟨hlater, hsound, hmid⟩
  refine (hG a m' hlater hmid hsound).mono ?_
  rintro o m'' ⟨hlater', hsound', hc⟩
  exact ⟨hlater.trans hlater', hsound', hc⟩

theorem step {x : Eval α} {a : α} {s : Store} {post : α → Machine → Prop}
    (hx : x m = .ok a { m with store := s }) (hlater : m.store.Extends s)
    (hsound : m.store.Sound → s.Sound) (hpost : post a { m with store := s }) :
    Advances E may m (fun _ => x) post := by
  intro hm
  refine ⟨rfl, ?_⟩
  show Ends _ (x m)
  rw [hx]
  exact ⟨hlater, hsound hm, hpost⟩

theorem aside {x : Eval α} {G : α → Engine → Eval β} {post : β → Machine → Prop} (a : α)
    (m' : Machine) (hx : x m = .ok a m') (hstore : m'.store = m.store)
    (hG : Advances E may m' (G a) post) :
    Advances E may m (fun e => x >>= fun a => G a e) post := by
  intro hm
  rw [← hstore] at hm ⊢
  exact .step a m' hx (hG hm)

theorem read {f : Store → α} : Advances E may m (fun _ => Eval.read f) fun a m' =>
    a = f m.store ∧ m' = m :=
  .step rfl (.refl _) id ⟨rfl, rfl⟩

theorem update {f : Store → Store} (h : m.store.Grows (f m.store)) :
    Advances E may m (fun _ => Eval.update f) fun _ m' => m'.store = f m.store :=
  .step rfl h.later (·.grows h) rfl

theorem complete {c : Abrupt} {post : α → Machine → Prop} (h : may c) :
    Advances E may m (fun _ => Eval.complete c) post :=
  fun hm => ⟨rfl, .refl _, hm, h⟩

theorem exhausted {post : α → Machine → Prop} :
    Advances E may m (fun _ => Eval.exhausted) post :=
  fun _ => ⟨rfl, trivial⟩

theorem resume {o : Except Abrupt α} {post : α → Machine → Prop} (h : Completes may post o m) :
    Advances E may m (fun _ => Eval.resume o) post :=
  fun hm => .resume ⟨.refl _, hm, h⟩

theorem attempt {F : Engine → Eval α} {post : α → Machine → Prop} (h : Advances E may m F post) :
    Advances E may' m (fun e => Eval.attempt (F e)) (Completes may post) := by
  intro hm
  refine (h hm).attempt.mono ?_
  rintro o m' ⟨tried, rfl, hlater, hsound, hc⟩
  exact ⟨hlater, hsound, hc⟩

theorem ite {c : Prop} [Decidable c] {F G : Engine → Eval α} {post : α → Machine → Prop}
    (hF : c → Advances E may m F post) (hG : ¬ c → Advances E may m G post) :
    Advances E may m (fun e => if c then F e else G e) post := by
  by_cases h : c
  · simpa only [h, if_true] using hF h
  · simpa only [h, if_false] using hG h

/-- A loop begins with the same number of rounds under both engines. -/
theorem rounds {F : Nat → Engine → Eval α} {post : α → Machine → Prop}
    (h : ∀ rounds, Advances E may m (F rounds) post) :
    Advances E may m (fun e => F e.rounds e) post := by
  intro hm
  show F E.left.rounds E.left m = _ ∧ _
  rw [E.rounds]
  exact h E.right.rounds hm

/-! ### New scopes and declarations -/

variable {n : Strictness} {scope : ScopeId}

theorem newScope (h : m.store.Hosts n scope) (kind : ScopeKind) :
    Advances E may m (fun _ => Eval.newScope scope kind) fun inner m' =>
      m'.store.Hosts n inner ∧ m'.store.Inside inner scope := by
  have hlater := m.store.extends_newScope (some scope) kind
  refine .step rfl hlater (fun hm => hm.of_objects hlater.size_le rfl) ⟨⟨?_, ?_, ?_⟩, ?_⟩
  · exact m.store.index_newScope_lt (some scope) kind
  · exact (m.store.isStrict_newScope scope kind).trans h.strict
  · exact (h.later hlater).script
  · exact Store.inside_newScope kind h.there

theorem openScope {parent : ScopeId} (hparent : parent.index < m.store.scopes.size)
    (hscript : m.store.isStrict .global = n.script) (kind : ScopeKind) :
    Advances E may m (fun _ => Eval.openScope parent kind n.isStrict) fun inner m' =>
      m'.store.Hosts n inner := by
  obtain ⟨opened, hopened⟩ : ∃ opened, opened = m.store.newScope (some parent) kind := ⟨_, rfl⟩
  have hnew : m.store.Extends opened.2 := by
    rw [hopened]
    exact m.store.extends_newScope (some parent) kind
  have hthere : opened.1.index < opened.2.scopes.size := by
    rw [hopened]
    exact m.store.index_newScope_lt (some parent) kind
  have hplace : m.store.scopes.size ≤ opened.1.index := by
    rw [hopened]
    exact Nat.le_refl _
  have hlater := Store.extends_modifyScope_new hnew hplace
    fun scope => { scope with strict := n.isStrict }
  have hglobal : 0 < m.store.scopes.size := Nat.zero_lt_of_lt hparent
  have hrun : Eval.openScope parent kind n.isStrict m = .ok opened.1
      { m with
        store := opened.2.modifyScope opened.1 fun a => { a with strict := n.isStrict } } := by
    rw [hopened]
    rfl
  refine .step hrun hlater (fun hm => hm.of_objects hlater.size_le ?_) ⟨?_, ?_, ?_⟩
  · rw [hopened]
    rfl
  · exact Nat.lt_of_lt_of_eq hthere (Store.size_modifyScope ..).symm
  · exact opened.2.isStrict_modifyScope hthere n.isStrict
  · exact (hlater.isStrict_eq hglobal).trans hscript

/-- The statements of a list find what they declare once it has been hoisted into their scope. -/
theorem hoistBlock {body : List Stmt} (hscope : scope.index < m.store.scopes.size)
    (hbody : ∀ d, .function d ∈ body → d.Sound) :
    Advances E may m (fun _ => Eval.hoistBlock body scope) fun _ m' =>
      ∀ name ∈ body.flatMap Grammar.lexicalNames, m'.store.hasOwnBinding scope name = true := by
  obtain ⟨s, heq, hhoisted⟩ := hoistBlock_eq_ok body scope m
  exact .step heq hhoisted.later (fun hm => hm.hoisted hhoisted hscope hbody)
    (hhoisted.names hscope)

theorem hoistBody {body : List Stmt} {vars : ScopeId} (hvars : vars.index < m.store.scopes.size)
    (hscope : scope.index < m.store.scopes.size) (hbody : ∀ d, .function d ∈ body → d.Sound) :
    Advances E may m (fun _ => Eval.hoistBody body vars scope) fun _ m' =>
      (∀ name ∈ body.flatMap Grammar.lexicalNames, m'.store.hasOwnBinding scope name = true) ∧
        ∀ name ∈ Stmt.varNamesOfList body, m'.store.hasOwnBinding vars name = true := by
  obtain ⟨s, heq, hhoisted, hbound⟩ := hoistBody_eq_ok body vars scope m
  exact .step heq hhoisted.later (fun hm => hm.hoisted hhoisted hscope hbody)
    ⟨hhoisted.names hscope, hbound hvars⟩

end Advances

end Conduct

end ProtoScript
