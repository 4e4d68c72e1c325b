import ProtoScript.Proofs.Regime.Expression
/-!
# Statements under a regime

Statements make scopes inside those in which they stand, and bind their lexical names only there.
-/

namespace ProtoScript.Regime

variable {R : Regime} {E : Engines} {m : Machine} {scope : ScopeId}

structure Made (R : Regime) (m : Machine) (inner : ScopeId) : Prop where
  stands : R.stands m.store inner
  new : R.scopes ≤ inner.index

theorem Made.later (hR : R.Lawful) {m' : Machine} {inner : ScopeId} (h : R.Made m inner)
    (hkeeps : R.keeps m.store m'.store) : R.Made m' inner :=
  ⟨hR.stays hkeeps h.stands, h.new⟩

section

variable (hR : R.Lawful)

include hR

/-! ### Scopes and declarations -/

theorem abides_newScope (hscope : R.stands m.store scope) (kind : ScopeKind) :
    R.Abides E m (fun _ => Eval.newScope scope kind) fun inner m' => R.Made m' inner :=
  .step rfl (leads_newScope hR hscope kind) fun hm =>
    ⟨hR.opens hm hscope kind, hR.scopes_le hm⟩

theorem abides_openScope (hscope : R.stands m.store scope) (kind : ScopeKind) (strict : Bool) :
    R.Abides E m (fun _ => Eval.openScope scope kind strict) fun inner m' => R.Made m' inner := by
  intro hm
  have hopened := leads_newScope hR hscope kind
  have hset := leads_setStrict hR (m.store.newScope (some scope) kind).2 ⟨m.store.scopes.size⟩
    strict
  have hboth : R.Leads m.store _ := hopened.trans hR fun _ _ => hset
  have hkeeps := (hset (hopened hm).1).2
  exact Abides.step rfl hboth (fun hm =>
    ⟨hR.stays hkeeps (hR.opens hm hscope kind), hR.scopes_le hm⟩) hm

theorem abides_declareLexical (d : Declaration) (hscope : R.stands m.store scope)
    (hnew : R.Renews scope) : R.Abides E m (fun _ => Eval.declareLexical d scope) Anything :=
  (Abides.update (leads_declareAll hR hscope _ (.inr hnew))).anything

theorem abides_newClosure (d : FunctionDef) (hscope : R.stands m.store scope) :
    R.Abides E m (fun _ => Eval.newClosure d scope) Anything := by
  have hclosure : R.Leads m.store (m.store.newFunction (.closure d scope)).2 :=
    leads_newFunction hR fun _ _ heq => by cases heq; exact hscope
  exact .step rfl hclosure fun _ => trivial

theorem abides_hoist {functions lexicals : ScopeId} {kind : BindingKind} (body : List Stmt)
    (hfunctions : R.stands m.store functions) (hkind : kind = .variable ∨ R.Renews functions)
    (hlexicals : R.stands m.store lexicals) (hnew : R.Renews lexicals) :
    R.Abides E m (fun _ => Eval.hoist functions lexicals kind body) Anything := by
  induction body generalizing m with
  | nil => exact .pure hR trivial
  | cons statement rest ih =>
    have hrest := ih hfunctions hlexicals
    cases statement with
    | function d =>
      refine .bind hR (abides_newClosure hR d hlexicals) fun function m₁ hkeeps₁ _ => ?_
      have hfunctions₁ := hR.stays hkeeps₁ hfunctions
      have hlexicals₁ := hR.stays hkeeps₁ hlexicals
      cases d.name with
      | none => exact ih hfunctions₁ hlexicals₁
      | some name =>
        have hbind := leads_declareBound hR hfunctions₁ name hkind function
        exact .bind hR (.update hbind) fun _ m₂ hkeeps₂ _ =>
          ih (hR.stays hkeeps₂ hfunctions₁) (hR.stays hkeeps₂ hlexicals₁)
    | declaration d =>
      refine .ite (fun _ => ?_) fun _ => hrest
      exact .bind hR (abides_declareLexical hR d hlexicals hnew) fun _ m₁ hkeeps₁ _ =>
        ih (hR.stays hkeeps₁ hfunctions) (hR.stays hkeeps₁ hlexicals)
    | _ => exact hrest

theorem abides_hoistBody {vars lexicals : ScopeId} (body : List Stmt)
    (hvars : R.stands m.store vars) (hlexicals : R.stands m.store lexicals)
    (hnew : R.Renews lexicals) :
    R.Abides E m (fun _ => Eval.hoistBody body vars lexicals) Anything := by
  have hdeclare := leads_declareAll hR hvars (Stmt.varNamesOfList body) (.inl rfl)
  exact .bind hR (.update hdeclare) fun _ m₁ hkeeps₁ _ => abides_hoist hR body
    (hR.stays hkeeps₁ hvars) (.inl rfl) (hR.stays hkeeps₁ hlexicals) hnew

theorem abides_hoistBlock (body : List Stmt) (hmade : R.Made m scope) :
    R.Abides E m (fun _ => Eval.hoistBlock body scope) Anything :=
  abides_hoist hR body hmade.stands (.inr (.inl hmade.new)) hmade.stands (.inl hmade.new)

end

variable (hR : R.Lawful) (h : R.Serves E)

include h

theorem abides_execute (s : Stmt) (labels : List String) (hscope : R.stands m.store scope) :
    R.Abides E m (fun e => e.run (.execute s scope labels)) Anything :=
  h (.execute s scope labels) m hscope

include hR

/-! ### Statement lists -/

theorem abides_statements (body : List Stmt) (last : Value) (hscope : R.stands m.store scope) :
    R.Abides E m (fun e => e.statements scope body last) Anything := by
  induction body generalizing m last with
  | nil => exact .pure hR trivial
  | cons statement rest ih =>
    exact .bind hR (abides_execute h statement [] hscope) fun value m₁ hkeeps₁ _ =>
      ih _ (hR.stays hkeeps₁ hscope)

theorem abides_block (body : List Stmt) (hscope : R.stands m.store scope) :
    R.Abides E m (fun e => e.block body scope) Anything := by
  refine .bind hR (abides_newScope hR hscope .block) fun inner m₁ _ hinner => ?_
  exact .bind hR (abides_hoistBlock hR body hinner) fun _ m₂ hkeeps₂ _ =>
    abides_statements hR h body .undefined (hR.stays hkeeps₂ hinner.stands)

theorem abides_handle (handler : Handler) (exception : Value) (hscope : R.stands m.store scope) :
    R.Abides E m (fun e => e.handle handler exception scope) Anything := by
  refine .bind hR (abides_newScope hR hscope .block) fun inner m₁ _ hinner => ?_
  cases handler.parameter with
  | none => exact abides_block hR h handler.body hinner.stands
  | some parameter =>
    have hdeclare : R.Leads m₁.store (m₁.store.declareAll inner parameter.boundNames .letBound) :=
      leads_declareAll hR hinner.stands _ (.inr (.inl hinner.new))
    refine .bind hR (.update hdeclare) fun _ m₂ hkeeps₂ _ => ?_
    have hinner₂ := hR.stays hkeeps₂ hinner.stands
    exact .bind hR (abides_bind h parameter exception true hinner₂) fun _ m₃ hkeeps₃ _ =>
      abides_block hR h handler.body (hR.stays hkeeps₃ hinner₂)

theorem abides_afterTrying (tried : Except Abrupt Value) (handler : Option Handler)
    (hscope : R.stands m.store scope) :
    R.Abides E m (fun e => e.afterTrying tried handler scope) Anything := by
  unfold Engine.afterTrying
  split
  · exact (abides_handle hR h _ _ hscope).attempt.anything
  · exact .pure hR trivial

theorem abides_finish (finalizer : Option (List Stmt)) (outcome : Except Abrupt Value)
    (hscope : R.stands m.store scope) :
    R.Abides E m (fun e => e.finish finalizer outcome scope) Anything := by
  cases finalizer with
  | none => exact .resume hR fun _ _ => trivial
  | some body =>
    exact .bind hR (abides_block hR h body hscope) fun _ m₁ _ _ => .resume hR fun _ _ => trivial

theorem abides_tryStatement (body : List Stmt) (handler : Option Handler)
    (finalizer : Option (List Stmt)) (hscope : R.stands m.store scope) :
    R.Abides E m (fun e => e.tryStatement body handler finalizer scope) Anything := by
  refine .bind hR (abides_block hR h body hscope).attempt fun tried m₁ hkeeps₁ _ => ?_
  have hscope₁ := hR.stays hkeeps₁ hscope
  exact .bind hR (abides_afterTrying hR h tried handler hscope₁) fun outcome m₂ hkeeps₂ _ =>
    abides_finish hR h finalizer outcome (hR.stays hkeeps₂ hscope₁)

/-! ### Switches -/

theorem abides_selectCases (subject : Value) (cases : List SwitchCase)
    (hscope : R.stands m.store scope) :
    R.Abides E m (fun e => e.selectCases subject scope cases) Anything := by
  induction cases generalizing m with
  | nil => exact .pure hR trivial
  | cons clause rest ih =>
    unfold Engine.selectCases
    cases clause.test with
    | none => exact ih hscope
    | some test =>
      refine .bind hR (abides_evaluate h test hscope) fun value m₁ hkeeps₁ _ => ?_
      exact .ite (fun _ => .pure hR trivial) fun _ => ih (hR.stays hkeeps₁ hscope)

theorem abides_caseStatements (body : List Stmt) (last : Value)
    (hscope : R.stands m.store scope) :
    R.Abides E m (fun e => e.caseStatements scope body last) Anything := by
  induction body generalizing m last with
  | nil => exact .pure hR trivial
  | cons statement rest ih =>
    refine .bind hR (abides_execute h statement [] hscope).attempt fun outcome m₁ hkeeps₁ _ => ?_
    split
    · exact ih _ (hR.stays hkeeps₁ hscope)
    · exact .pure hR trivial
    · exact .complete hR _

theorem abides_switchStatement (subject : Expr) (cases : List SwitchCase)
    (hscope : R.stands m.store scope) :
    R.Abides E m (fun e => e.switchStatement subject cases scope) Anything := by
  refine .bind hR (abides_evaluate h subject hscope) fun subject m₁ hkeeps₁ _ => ?_
  refine .bind hR (abides_newScope hR (hR.stays hkeeps₁ hscope) .block) fun inner m₂ _ hinner => ?_
  refine .bind hR (abides_hoistBlock hR _ hinner) fun _ m₃ hkeeps₃ _ => ?_
  have hinner₃ := hR.stays hkeeps₃ hinner.stands
  exact .bind hR (abides_selectCases hR h subject cases hinner₃) fun selected m₄ hkeeps₄ _ =>
    abides_caseStatements hR h _ _ (hR.stays hkeeps₄ hinner₃)

/-! ### Loops -/

theorem abides_loopBody (body : Stmt) (labels : List String) (last : Value)
    (hscope : R.stands m.store scope) :
    R.Abides E m (fun e => e.loopBody body scope labels last) Anything :=
  .bind hR (abides_execute h body [] hscope).attempt fun _ _ _ _ => .pure hR trivial

theorem abides_whileLoop (test : Expr) (body : Stmt) (labels : List String) (rounds : Nat)
    (last : Value) (hscope : R.stands m.store scope) :
    R.Abides E m (fun e => e.whileLoop test body scope labels rounds last) Anything := by
  induction rounds generalizing m last with
  | zero => exact .exhausted
  | succ rounds ih =>
    refine .bind hR (abides_evaluate h test hscope) fun go m₁ hkeeps₁ _ => ?_
    refine .ite (fun _ => ?_) fun _ => .pure hR trivial
    have hscope₁ := hR.stays hkeeps₁ hscope
    refine .bind hR (abides_loopBody hR h body labels last hscope₁) fun after m₂ hkeeps₂ _ => ?_
    cases after with
    | next last => exact ih last (hR.stays hkeeps₂ hscope₁)
    | leave value => exact .pure hR trivial
    | pass c => exact .complete hR c

theorem abides_doWhileLoop (body : Stmt) (test : Expr) (labels : List String) (rounds : Nat)
    (last : Value) (hscope : R.stands m.store scope) :
    R.Abides E m (fun e => e.doWhileLoop body test scope labels rounds last) Anything := by
  induction rounds generalizing m last with
  | zero => exact .exhausted
  | succ rounds ih =>
    refine .bind hR (abides_loopBody hR h body labels last hscope) fun after m₁ hkeeps₁ _ => ?_
    have hscope₁ := hR.stays hkeeps₁ hscope
    cases after with
    | next last =>
      refine .bind hR (abides_evaluate h test hscope₁) fun go m₂ hkeeps₂ _ => ?_
      exact .ite (fun _ => ih last (hR.stays hkeeps₂ hscope₁)) fun _ => .pure hR trivial
    | leave value => exact .pure hR trivial
    | pass c => exact .complete hR c

omit h in
theorem abides_roundScope (names : List String) {outer current : ScopeId}
    (houter : R.stands m.store outer) (hcurrent : R.stands m.store current) :
    R.Abides E m (fun _ => Engine.roundScope names outer current)
      fun next m' => R.stands m'.store next := by
  refine .ite (fun _ => .pure hR hcurrent) fun _ => ?_
  refine .bind hR (abides_newScope hR houter .block) fun next m₁ _ hnext => ?_
  have hcopy := leads_copyBindings hR m₁.store current hnext.new names
  exact .bind hR (.update hcopy) fun _ m₂ hkeeps₂ _ => .pure hR (hR.stays hkeeps₂ hnext.stands)

theorem abides_forLoop (test update : Option Expr) (body : Stmt) (names : List String)
    {outer : ScopeId} (labels : List String) (rounds : Nat) (last : Value)
    (houter : R.stands m.store outer) (hscope : R.stands m.store scope) :
    R.Abides E m (fun e => e.forLoop test update body names outer labels rounds scope last)
      Anything := by
  induction rounds generalizing m scope last with
  | zero => exact .exhausted
  | succ rounds ih =>
    refine .bind hR (abides_evaluateOption hR h test hscope) fun go m₁ hkeeps₁ _ => ?_
    refine .ite (fun _ => ?_) fun _ => .pure hR trivial
    have hscope₁ := hR.stays hkeeps₁ hscope
    have houter₁ := hR.stays hkeeps₁ houter
    refine .bind hR (abides_loopBody hR h body labels last hscope₁) fun after m₂ hkeeps₂ _ => ?_
    cases after with
    | next last =>
      have houter₂ := hR.stays hkeeps₂ houter₁
      have hround := abides_roundScope (E := E) hR names houter₂ (hR.stays hkeeps₂ hscope₁)
      refine .bind hR hround fun next m₃ hkeeps₃ hnext => ?_
      refine .bind hR (abides_evaluateOption hR h update hnext) fun _ m₄ hkeeps₄ _ => ?_
      exact ih last (hR.stays hkeeps₄ (hR.stays hkeeps₃ houter₂)) (hR.stays hkeeps₄ hnext)
    | leave value => exact .pure hR trivial
    | pass c => exact .complete hR c

theorem abides_forStatement (init : Option ForInit) (test update : Option Expr) (body : Stmt)
    (labels : List String) (hscope : R.stands m.store scope) :
    R.Abides E m (fun e => e.forStatement init test update body scope labels) Anything := by
  have hloop {m' : Machine} {first : ScopeId} (names : List String)
      (houter : R.stands m'.store scope) (hfirst : R.stands m'.store first) :
      R.Abides E m' (fun e =>
        e.forLoop test update body names scope labels e.rounds first .undefined) Anything :=
    .rounds fun rounds => abides_forLoop hR h test update body names labels rounds .undefined
      houter hfirst
  match init with
  | none => exact hloop [] hscope hscope
  | some (.expression x) =>
    refine .bind hR (abides_evaluate h x hscope) fun _ m₁ hkeeps₁ _ => ?_
    exact hloop [] (hR.stays hkeeps₁ hscope) (hR.stays hkeeps₁ hscope)
  | some (.declaration d) =>
    refine .ite (fun _ => ?_) fun _ => ?_
    · refine .bind hR (abides_newScope hR hscope .block) fun head m₁ hkeeps₁ hhead => ?_
      have hlexical := abides_declareLexical (E := E) hR d hhead.stands (.inl hhead.new)
      refine .bind hR hlexical fun _ m₂ hkeeps₂ _ => ?_
      have hhead₂ := hR.stays hkeeps₂ hhead.stands
      refine .bind hR (abides_declaration hR h d hhead₂) fun _ m₃ hkeeps₃ _ => ?_
      have houter₃ := hR.stays hkeeps₃ (hR.stays hkeeps₂ (hR.stays hkeeps₁ hscope))
      refine .bind hR (abides_roundScope hR _ houter₃ (hR.stays hkeeps₃ hhead₂))
        fun first m₄ hkeeps₄ hfirst => ?_
      exact hloop _ (hR.stays hkeeps₄ houter₃) hfirst
    · refine .bind hR (abides_declaration hR h d hscope) fun _ m₁ hkeeps₁ _ => ?_
      exact hloop [] (hR.stays hkeeps₁ hscope) (hR.stays hkeeps₁ hscope)

/-- The declaration in a head is bound to the key by its first declarator. -/
theorem abides_bindFirst (d : Declaration) (fresh : Bool) (key : Value)
    (hscope : R.stands m.store scope) :
    R.Abides E m (fun e =>
      match d.declarators with
      | first :: _ => e.bind first.target key scope fresh >>= fun _ => pure scope
      | [] => pure scope) fun round m' => R.stands m'.store round := by
  cases d.declarators with
  | nil => exact .pure hR hscope
  | cons first rest =>
    exact .bind hR (abides_bind h first.target key fresh hscope) fun _ m₁ hkeeps₁ _ =>
      .pure hR (hR.stays hkeeps₁ hscope)

theorem abides_bindKey (target : ForInTarget) (key : Value) (hscope : R.stands m.store scope) :
    R.Abides E m (fun e => e.bindKey target key scope) fun round m' => R.stands m'.store round := by
  cases target with
  | pattern p =>
    exact .bind hR (abides_bind h p key false hscope) fun _ m₁ hkeeps₁ _ =>
      .pure hR (hR.stays hkeeps₁ hscope)
  | declaration d =>
    refine .ite (fun _ => ?_) fun _ => abides_bindFirst hR h d false key hscope
    refine .bind hR (abides_newScope hR hscope .block) fun round m₁ _ hround => ?_
    have hlexical := abides_declareLexical (E := E) hR d hround.stands (.inl hround.new)
    exact .bind hR hlexical fun _ m₂ hkeeps₂ _ =>
      abides_bindFirst hR h d true key (hR.stays hkeeps₂ hround.stands)

theorem abides_keyLoop (target : ForInTarget) (id : ObjectId) (body : Stmt)
    (labels keys : List String) (last : Value) (hscope : R.stands m.store scope) :
    R.Abides E m (fun e => e.keyLoop target id body scope labels keys last) Anything := by
  induction keys generalizing m last with
  | nil => exact .pure hR trivial
  | cons key keys ih =>
    refine .bind hR (.read hR) fun present m₁ _ hread => ?_
    obtain ⟨_, rfl⟩ := hread
    refine .ite (fun _ => ?_) fun _ => ih last hscope
    refine .bind hR (abides_bindKey hR h target _ hscope) fun round m₁ hkeeps₁ hround => ?_
    refine .bind hR (abides_loopBody hR h body labels last hround) fun after m₂ hkeeps₂ _ => ?_
    cases after with
    | next last => exact ih last (hR.stays hkeeps₂ (hR.stays hkeeps₁ hscope))
    | leave value => exact .pure hR trivial
    | pass c => exact .complete hR c

theorem abides_headInitializer (target : ForInTarget) (hscope : R.stands m.store scope) :
    R.Abides E m (fun e => e.headInitializer target scope) Anything := by
  cases target with
  | pattern p => exact .pure hR trivial
  | declaration d =>
    exact .ite (fun _ => abides_declaration hR h d hscope) fun _ => .pure hR trivial

theorem abides_forInStatement (target : ForInTarget) (object : Expr) (body : Stmt)
    (labels : List String) (hscope : R.stands m.store scope) :
    R.Abides E m (fun e => e.forInStatement target object body scope labels) Anything := by
  refine .bind hR (abides_headInitializer hR h target hscope) fun _ m₁ hkeeps₁ _ => ?_
  have hscope₁ := hR.stays hkeeps₁ hscope
  refine .bind hR (abides_evaluate h object hscope₁) fun subject m₂ hkeeps₂ _ => ?_
  refine .ite (fun _ => .pure hR trivial) fun _ => ?_
  refine .bind hR (abides_toObject hR h subject) fun o m₃ hkeeps₃ _ => ?_
  cases o with
  | object id =>
    refine .bind hR (.read hR) fun keys m₄ hkeeps₄ _ => ?_
    exact abides_keyLoop hR h target id body labels keys _
      (hR.stays hkeeps₄ (hR.stays hkeeps₃ (hR.stays hkeeps₂ hscope₁)))
  | _ => exact .pure hR trivial

theorem abides_statement (s : Stmt) (labels : List String) (hscope : R.stands m.store scope) :
    R.Abides E m (fun e => e.statement s scope labels) Anything := by
  cases s with
  | empty => exact .pure hR trivial
  | debugger => exact .pure hR trivial
  | function d => exact .pure hR trivial
  | expression x => exact abides_evaluate h x hscope
  | block body => exact abides_block hR h body hscope
  | declaration d =>
    exact .bind hR (abides_declaration hR h d hscope) fun _ _ _ _ => .pure hR trivial
  | ifStmt test consequent alternate =>
    refine .bind hR (abides_evaluate h test hscope) fun test m₁ hkeeps₁ _ => ?_
    have hscope₁ := hR.stays hkeeps₁ hscope
    refine .ite (fun _ => abides_execute h consequent [] hscope₁) fun _ => ?_
    cases alternate with
    | none => exact .pure hR trivial
    | some alternate => exact abides_execute h alternate [] hscope₁
  | returnStmt value =>
    exact .bind hR (abides_evaluateOption hR h value hscope) fun _ _ _ _ => .complete hR _
  | breakStmt label => exact .complete hR _
  | continueStmt label => exact .complete hR _
  | throwStmt value =>
    exact .bind hR (abides_evaluate h value hscope) fun _ _ _ _ => .complete hR _
  | tryStmt body handler finalizer => exact abides_tryStatement hR h body handler finalizer hscope
  | switchStmt subject cases => exact abides_switchStatement hR h subject cases hscope
  | labeled label body =>
    refine .bind hR (abides_execute h body _ hscope).attempt fun outcome m₁ _ _ => ?_
    split
    · exact .ite (fun _ => .pure hR trivial) fun _ => .complete hR _
    · exact .resume hR fun _ _ => trivial
  | whileStmt test body =>
    exact .rounds fun rounds => abides_whileLoop hR h test body labels rounds _ hscope
  | doWhileStmt body test =>
    exact .rounds fun rounds => abides_doWhileLoop hR h body test labels rounds _ hscope
  | forStmt init test update body =>
    exact abides_forStatement hR h init test update body labels hscope
  | forInStmt target object body =>
    exact abides_forInStatement hR h target object body labels hscope

end ProtoScript.Regime
