import ProtoScript.Proofs.Conduct.Statement
/-!
# The conduct of loops

The body of a loop may jump to the loop itself or to a label in front of it; whatever else leaves
the body leaves the loop.  Each round finds the names that the head declares.
-/

namespace ProtoScript.Conduct

variable {may : Abrupt → Prop} {n : Note} {e e' : Engine} {m : Machine} {scope : ScopeId}
  {t : Targets} {labels : List String}

structure Looping (n : Note) (body : Stmt) (s : Store) (scope : ScopeId) : Prop where
  sound : body.Sound n.targets []
  alone : Grammar.lexicalNames body = []
  hosts : s.Hosts n.strictness scope
  vars : ∀ name ∈ body.varNames, s.Resolves scope name

theorem Looping.later {body : Stmt} {s s' : Store} (hb : Looping n body s scope)
    (hs : s.Extends s') : Looping n body s' scope :=
  ⟨hb.sound, hb.alone, hb.hosts.later hs, fun name hname => hs.resolves (hb.vars name hname)⟩

theorem Looping.inside {body : Stmt} {s s' : Store} {inner : ScopeId}
    (hb : Looping n body s scope) (hs : s.Extends s') (hosts : s'.Hosts n.strictness inner)
    (hinside : s'.Inside inner scope) : Looping n body s' inner := by
  refine ⟨hb.sound, hb.alone, hosts, fun name hname => ?_⟩
  exact hinside.resolves (hs.resolves (hb.vars name hname))

theorem advances_innerScope (E : Engines) {body : Stmt} (hb : Looping n body m.store scope) :
    Advances E may m (fun _ => Eval.newScope scope .block)
      fun inner m' => Looping n body m'.store inner := by
  have hinner : Advances E may m (fun _ => Eval.newScope scope .block) _ :=
    .newScope hb.hosts .block
  refine hinner.mono (fun _ => id) fun inner m' hlater hhosted => ?_
  exact hb.inside hlater hhosted.1 hhosted.2

def HeadReady (n : Note) (s : Store) (scope : ScopeId) : ForInTarget → Prop
  | .pattern p => p.Sound ∧ n.declaring = false
  | .declaration d =>
    d.Sound ∧ (d.kind.isLexical = false → ∀ name ∈ d.boundNames, s.Resolves scope name)

theorem HeadReady.later {s s' : Store} {target : ForInTarget} (hr : HeadReady n s scope target)
    (hs : s.Extends s') : HeadReady n s' scope target := by
  cases target with
  | pattern p => exact hr
  | declaration d => exact ⟨hr.1, fun hkind name hname => hs.resolves (hr.2 hkind name hname)⟩

variable (h : (supervisor may).Agrees n e e') (hn : n.targets = t.loop labels)

include h hn

theorem advances_loopBody {body : Stmt} (hb : Looping n body m.store scope) (last : Value) :
    Advances h.engines (t.PassesBut may (·.EndsAtLoop labels)) m
      (fun e => e.loopBody body scope labels last)
      fun after _ => ∀ c, after = .pass c → t.PassesBut may (·.EndsAtLoop labels) c := by
  refine .bind (advances_execute h hb.sound hb.hosts (declares_alone hb.vars hb.alone)).attempt
    fun outcome m' _ houtcome => .pure fun c hc => ?_
  cases outcome with
  | ok value => cases hc
  | error c' =>
    rw [hn] at houtcome
    exact Targets.passes_of_loop houtcome hc

theorem advances_whileLoop {test : Expr} (htest : test.Sound) {body : Stmt}
    (hb : Looping n body m.store scope) (rounds : Nat) (last : Value) :
    Advances h.engines (t.PassesBut may (·.EndsAtLoop labels)) m
      (fun e => e.whileLoop test body scope labels rounds last) fun _ _ => True := by
  induction rounds generalizing m last with
  | zero => exact .exhausted
  | succ rounds ih =>
    refine .bind (advances_evaluate h htest hb.hosts).passesBut
      fun go m₁ hlater₁ _ => .ite (fun _ => ?_) fun _ => .pure trivial
    have hb₁ := hb.later hlater₁
    refine .bind (advances_loopBody h hn hb₁ last) fun after m₂ hlater₂ hafter => ?_
    cases after with
    | next last => exact ih (hb₁.later hlater₂) last
    | leave value => exact .pure trivial
    | pass c => exact .complete (hafter c rfl)

theorem advances_doWhileLoop {test : Expr} (htest : test.Sound) {body : Stmt}
    (hb : Looping n body m.store scope) (rounds : Nat) (last : Value) :
    Advances h.engines (t.PassesBut may (·.EndsAtLoop labels)) m
      (fun e => e.doWhileLoop body test scope labels rounds last) fun _ _ => True := by
  induction rounds generalizing m last with
  | zero => exact .exhausted
  | succ rounds ih =>
    refine .bind (advances_loopBody h hn hb last) fun after m₁ hlater₁ hafter => ?_
    have hb₁ := hb.later hlater₁
    cases after with
    | next last =>
      refine .bind (advances_evaluate h htest hb₁.hosts).passesBut
        fun go m₂ hlater₂ _ => ?_
      exact .ite (fun _ => ih (hb₁.later hlater₂) last) fun _ => .pure trivial
    | leave value => exact .pure trivial
    | pass c => exact .complete (hafter c rfl)

omit h hn in
theorem advances_roundScope (E : Engines) {body : Stmt} {current : ScopeId}
    (houter : Looping n body m.store scope) (hcurrent : Looping n body m.store current)
    (names : List String) :
    Advances E may m (fun _ => Engine.roundScope names scope current)
      fun next m' => Looping n body m'.store next := by
  refine .ite (fun _ => .pure hcurrent) fun _ => ?_
  refine .bind (advances_innerScope E houter) fun next m₁ _ hnext => ?_
  refine .bind (.update (Store.grows_copyBindings _ _ _ _)) fun _ m₂ hlater _ => .pure ?_
  exact hnext.later hlater

theorem advances_forLoop {test update : Option Expr} (htest : ∀ x ∈ test, x.Sound)
    (hupdate : ∀ x ∈ update, x.Sound) {body : Stmt} {outer : ScopeId}
    (houter : Looping n body m.store outer) (hb : Looping n body m.store scope)
    (names : List String) (rounds : Nat) (last : Value) :
    Advances h.engines (t.PassesBut may (·.EndsAtLoop labels)) m
      (fun e => e.forLoop test update body names outer labels rounds scope last)
      fun _ _ => True := by
  induction rounds generalizing m scope last with
  | zero => exact .exhausted
  | succ rounds ih =>
    refine .bind (advances_evaluateOption h htest hb.hosts).passesBut
      fun go m₁ hlater₁ _ => .ite (fun _ => ?_) fun _ => .pure trivial
    have hb₁ := hb.later hlater₁
    have houter₁ := houter.later hlater₁
    refine .bind (advances_loopBody h hn hb₁ last) fun after m₂ hlater₂ hafter => ?_
    cases after with
    | next last =>
      have houter₂ := houter₁.later hlater₂
      refine .bind (advances_roundScope h.engines houter₂ (hb₁.later hlater₂) names)
        fun next m₃ hlater₃ hnext => ?_
      refine .bind (advances_evaluateOption h hupdate hnext.hosts).passesBut
        fun _ m₄ hlater₄ _ => ?_
      exact ih ((houter₂.later hlater₃).later hlater₄) (hnext.later hlater₄) last
    | leave value => exact .pure trivial
    | pass c => exact .complete (hafter c rfl)

theorem advances_loop {test update : Option Expr} (htest : ∀ x ∈ test, x.Sound)
    (hupdate : ∀ x ∈ update, x.Sound) {body : Stmt} {outer : ScopeId}
    (houter : Looping n body m.store outer) (hb : Looping n body m.store scope)
    (names : List String) :
    Advances h.engines (t.PassesBut may (·.EndsAtLoop labels)) m
      (fun e => e.forLoop test update body names outer labels e.rounds scope .undefined)
      fun _ _ => True :=
  .rounds fun rounds => advances_forLoop h hn htest hupdate houter hb names rounds .undefined

/-! ### Loops over keys -/

omit hn in
/-- The declaration in a head is bound to the key by its first declarator. -/
theorem advances_bindFirst {d : Declaration} (hd : d.Sound) {fresh : Bool} {body : Stmt}
    (hnames : Prepared m.store scope fresh n.declaring d.boundNames)
    (hb : Looping n body m.store scope) (key : Value) :
    Advances h.engines may m (fun e =>
      match d.declarators with
      | first :: _ => e.bind first.target key scope fresh >>= fun _ => pure scope
      | [] => pure scope) fun round m' => Looping n body m'.store round := by
  cases hdeclarators : d.declarators with
  | nil => exact .pure hb
  | cons first rest =>
    have hfirst : first ∈ d.declarators := by
      rw [hdeclarators]
      exact List.mem_cons_self ..
    have hbind := advances_bind h (.of_declarator hd hnames hfirst) hb.hosts key
    exact .bind hbind fun _ m₁ hlater _ => .pure (hb.later hlater)

omit hn in
/-- Binding the target of a round leaves the body ready in the scope of the round. -/
theorem advances_bindKey {target : ForInTarget} {body : Stmt}
    (hr : HeadReady n m.store scope target) (hb : Looping n body m.store scope) (key : Value) :
    Advances h.engines may m (fun e => e.bindKey target key scope)
      fun round m' => Looping n body m'.store round := by
  cases target with
  | pattern p =>
    have hbindable : Bindable n m.store scope false p := by
      refine ⟨hr.1, fun name _ => ?_⟩
      rw [hr.2]
      exact nofun
    have hbind := advances_bind h hbindable hb.hosts key
    exact .bind hbind fun _ m₁ hlater _ => .pure (hb.later hlater)
  | declaration d =>
    obtain ⟨hd, hresolves⟩ := hr
    refine .ite (fun _ => ?_) fun hkind => ?_
    · refine .bind (advances_innerScope h.engines hb) fun round m₁ _ hround => ?_
      refine .bind (.update (Store.grows_declareAll _ _ _ _)) fun _ m₂ hlater hstore => ?_
      have hnames : Prepared m₂.store round true n.declaring d.boundNames := by
        rw [hstore]
        exact prepared_declareAll hround.hosts.there _ _ _
      exact advances_bindFirst h hd hnames (hround.later hlater) key
    · have hvariable : d.kind.isLexical = false := Bool.eq_false_iff.mpr hkind
      have hnames : Prepared m.store scope false n.declaring d.boundNames :=
        fun name hname _ => hresolves hvariable name hname
      exact advances_bindFirst h hd hnames hb key

theorem advances_keyLoop {target : ForInTarget} {body : Stmt}
    (hr : HeadReady n m.store scope target) (hb : Looping n body m.store scope) (id : ObjectId)
    (keys : List String) (last : Value) :
    Advances h.engines (t.PassesBut may (·.EndsAtLoop labels)) m
      (fun e => e.keyLoop target id body scope labels keys last) fun _ _ => True := by
  induction keys generalizing m last with
  | nil => exact .pure trivial
  | cons key keys ih =>
    refine .bind .read fun present m₁ hlater₁ _ => ?_
    have hr₁ := hr.later hlater₁
    have hb₁ := hb.later hlater₁
    refine .ite (fun _ => ?_) fun _ => ih hr₁ hb₁ last
    refine .bind (advances_bindKey h hr₁ hb₁ _).passesBut fun round m₂ hlater₂ hround => ?_
    refine .bind (advances_loopBody h hn hround last) fun after m₃ hlater₃ hafter => ?_
    cases after with
    | next last =>
      have hr₃ := (hr₁.later hlater₂).later hlater₃
      have hb₃ := (hb₁.later hlater₂).later hlater₃
      exact ih hr₃ hb₃ last
    | leave value => exact .pure trivial
    | pass c => exact .complete (hafter c rfl)

/-! ### Whole loops -/

variable (hthrown : ∀ v, may (.thrown v))

include hthrown

theorem advances_forLexical {d : Declaration} (hd : d.Sound) (hkind : d.kind.isLexical = true)
    {test update : Option Expr} (htest : ∀ x ∈ test, x.Sound) (hupdate : ∀ x ∈ update, x.Sound)
    {body : Stmt} (hb : Looping n body m.store scope) (names : List String) :
    Advances h.engines (t.PassesBut may (·.EndsAtLoop labels)) m (fun e => do
      let head ← Eval.newScope scope .block
      Eval.declareLexical d head
      e.declaration d head
      let first ← Engine.roundScope names scope head
      e.forLoop test update body names scope labels e.rounds first .undefined)
      fun _ _ => True := by
  refine .bind (advances_innerScope h.engines hb) fun head m₁ hlater₁ hhead => ?_
  refine .bind (.update (Store.grows_declareAll _ _ _ _)) fun _ m₂ hlater₂ hstore => ?_
  have hhead₂ := hhead.later hlater₂
  have hnames : Prepared m₂.store head d.kind.isLexical n.declaring d.boundNames := by
    rw [hkind, hstore]
    exact prepared_declareAll hhead.hosts.there _ _ _
  refine .bind (advances_declaration h hthrown hd hhead₂.hosts hnames).passesBut
    fun _ m₃ hlater₃ _ => ?_
  have houter₃ := ((hb.later hlater₁).later hlater₂).later hlater₃
  refine .bind (advances_roundScope h.engines houter₃ (hhead₂.later hlater₃) names)
    fun first m₄ hlater₄ hfirst => ?_
  exact advances_loop h hn htest hupdate (houter₃.later hlater₄) hfirst names

theorem advances_forStatement {init : Option ForInit} {test update : Option Expr} {body : Stmt}
    (hs : (Stmt.forStmt init test update body).Sound t labels)
    (hosts : m.store.Hosts n.strictness scope)
    (hvars : ∀ name ∈ (Stmt.forStmt init test update body).varNames,
      m.store.Resolves scope name) :
    Advances h.engines (t.PassesBut may (·.EndsAtLoop labels)) m
      (fun e => e.forStatement init test update body scope labels) fun _ _ => True := by
  have hbodyVars : ∀ name ∈ body.varNames, m.store.Resolves scope name := by
    intro name hname
    refine hvars name ?_
    unfold Stmt.varNames
    exact List.mem_append_right _ hname
  cases hs with
  | forStmt hdeclared hevaluated htest hupdate hbody halone =>
    rw [← hn] at hbody
    have hb : Looping n body m.store scope := ⟨hbody, halone, hosts, hbodyVars⟩
    cases init with
    | none => exact advances_loop h hn htest hupdate hb hb []
    | some first =>
      cases first with
      | expression x =>
        refine .bind (advances_evaluate h (hevaluated x rfl) hosts).passesBut
          fun _ m₁ hlater _ => ?_
        exact advances_loop h hn htest hupdate (hb.later hlater) (hb.later hlater) []
      | declaration d =>
        have hd := hdeclared d rfl
        refine .ite (fun hkind => ?_) fun hkind => ?_
        · exact advances_forLexical h hn hthrown hd hkind htest hupdate hb _
        have hnames : Prepared m.store scope d.kind.isLexical n.declaring d.boundNames := by
          intro name hname
          rw [if_neg hkind]
          refine fun _ => hvars name ?_
          rw [Stmt.varNames]
          refine List.mem_append_left _ ?_
          rw [Declaration.varNames, if_neg hkind]
          exact hname
        refine .bind (advances_declaration h hthrown hd hosts hnames).passesBut
          fun _ m₁ hlater _ => ?_
        exact advances_loop h hn htest hupdate (hb.later hlater) (hb.later hlater) []

/-! ### Loops over keys -/

omit hn in
theorem advances_headInitializer {target : ForInTarget} (hr : HeadReady n m.store scope target)
    (hosts : m.store.Hosts n.strictness scope) :
    Advances h.engines may m (fun e => e.headInitializer target scope) fun _ _ => True := by
  cases target with
  | pattern p => exact .pure trivial
  | declaration d =>
    refine .ite (fun hinit => ?_) fun _ => .pure trivial
    have hkind : d.kind.isLexical = false := by
      rw [Bool.and_eq_true, Bool.not_eq_true'] at hinit
      exact hinit.1
    refine advances_declaration h hthrown hr.1 hosts fun name hname => ?_
    rw [hkind, if_neg Bool.false_ne_true]
    exact fun _ => hr.2 hkind name hname

theorem advances_forInStatement {target : ForInTarget} {object : Expr} {body : Stmt}
    (hobject : object.Sound) (hr : HeadReady n m.store scope target)
    (hb : Looping n body m.store scope) :
    Advances h.engines (t.PassesBut may (·.EndsAtLoop labels)) m
      (fun e => e.forInStatement target object body scope labels) fun _ _ => True := by
  refine .bind (advances_headInitializer h hthrown hr hb.hosts).passesBut
    fun _ m₁ hlater₁ _ => ?_
  have hb₁ := hb.later hlater₁
  refine .bind (advances_evaluate h hobject hb₁.hosts).passesBut
    fun subject m₂ hlater₂ _ => ?_
  have hb₂ := hb₁.later hlater₂
  refine .ite (fun _ => .pure trivial) fun _ => ?_
  refine .bind (advances_toObject h hthrown hb₂.hosts subject).passesBut
    fun o m₃ hlater₃ _ => ?_
  cases o with
  | object id =>
    refine .bind .read fun keys m₄ hlater₄ _ => ?_
    refine advances_keyLoop h hn ?_ ((hb₂.later hlater₃).later hlater₄) id keys _
    exact (((hr.later hlater₁).later hlater₂).later hlater₃).later hlater₄
  | _ => exact .pure trivial

end ProtoScript.Conduct
