import ProtoScript.Evaluation.Statement
import ProtoScript.Proofs.Integrity.Hoist
import ProtoScript.Proofs.Integrity.Expression
/-!
# The integrity of statements

Statements run their parts in scopes with the same `this`.  The scopes that they make are new, so
nothing in them is to be kept yet.
-/

namespace ProtoScript.Integrity

variable {E : EngineFamily} {W : Focus} {seat : Seat} {n : Nat} {m : Machine}
  {scope : ScopeId} {t : Targets} {labels : List String}

section

variable (h : Backs W seat E)

/-- What is recorded of the scope is what has to be recorded where statements are executed. -/
def RecordedAt (E : EngineFamily) (seat : Seat) (scope : ScopeId) : Prop :=
  ∀ θ, E.heeds θ → ∀ entry ∈ seat.body, θ scope = some entry

theorem recordedAt_of_plain (hplain : seat.body = none) : RecordedAt E seat scope := by
  intro θ _ entry hentry
  rw [hplain] at hentry
  cases hentry

section

include h

theorem upholds_execute {s : Stmt} (hs : s.Sound t labels) (hstands : m.Seated seat scope)
    (hrecorded : RecordedAt E seat scope) :
    Upholds E W n m (fun e => e.run (.execute s scope labels)) Known :=
  .task h (List.forall_mem_nil _) ⟨⟨t, hs⟩, hstands⟩ hrecorded

theorem upholds_statements (hrecorded : RecordedAt E seat scope) {body : List Stmt}
    (hbody : ∀ s ∈ body, s.Sound t []) (hstands : m.Seated seat scope) {last : Value}
    (hlast : m.Knows last) :
    Upholds E W n m (fun e => e.statements scope body last) Known := by
  induction body generalizing m last with
  | nil => exact .pure hlast
  | cons statement rest ih =>
    obtain ⟨hstatement, hrest⟩ := List.forall_mem_cons.mp hbody
    refine .bind (upholds_execute h hstatement hstands hrecorded) fun value m₁ hlater hvalue => ?_
    refine ih hrest (hstands.later hlater) ?_
    split
    · exact hvalue
    · exact hlater.within hlast

end

variable (hplain : seat.body = none)

include h hplain

theorem upholds_part {s : Stmt} (hs : s.Sound t labels) (hstands : m.Seated seat scope) :
    Upholds E W n m (fun e => e.run (.execute s scope labels)) Known :=
  upholds_execute h hs hstands (recordedAt_of_plain hplain)

theorem upholds_block {body : List Stmt} (hbody : ∀ s ∈ body, s.Sound t [])
    (hscope : Inner seat n m scope) :
    Upholds E W n m (fun e => e.block body scope) Known := by
  refine .bind (upholds_newScope hscope .block) fun inner m₁ _ hinner => ?_
  obtain ⟨hinner, hvacant⟩ := hinner
  refine .bind (upholds_hoistBlock hbody hinner.stands.there hvacant) fun _ m₂ hlater _ => ?_
  exact upholds_statements h (recordedAt_of_plain hplain) hbody (hinner.later hlater).stands
    m₂.knows_undefined

/-! ### Exceptions -/

theorem upholds_handle {handler : Handler} (hparameter : ∀ p ∈ handler.parameter, p.Sound)
    (hbody : ∀ s ∈ handler.body, s.Sound t []) (hscope : Inner seat n m scope)
    {exception : Value} (hexception : m.Knows exception) :
    Upholds E W n m (fun e => e.handle handler exception scope) Known := by
  refine .bind (upholds_newScope hscope .block) fun inner m₁ hlater₁ hinner => ?_
  obtain ⟨hinner, hvacant⟩ := hinner
  cases hfound : handler.parameter with
  | none => exact upholds_block h hplain hbody hinner
  | some parameter =>
    have hsound := hparameter parameter hfound
    refine .bind (upholds_declareAll (hsound.usable_boundNames) hvacant rfl)
      fun _ m₂ hlater₂ _ => ?_
    have hinner₂ := hinner.later hlater₂
    have hexception₂ := hlater₂.within (hlater₁.within hexception)
    exact .bind (upholds_bind h hsound hinner₂.stands hexception₂ true) fun _ m₃ hlater₃ _ =>
      upholds_block h hplain hbody (hinner₂.later hlater₃)

theorem upholds_afterTrying {tried : Except Abrupt Value} (htried : Ended Known tried m)
    {handler : Option Handler} (hparameter : ∀ h ∈ handler, ∀ p ∈ h.parameter, p.Sound)
    (hbody : ∀ h ∈ handler, ∀ s ∈ h.body, s.Sound t []) (hscope : Inner seat n m scope) :
    Upholds E W n m (fun e => e.afterTrying tried handler scope) (Ended Known) := by
  unfold Engine.afterTrying
  split
  · exact (upholds_handle h hplain (hparameter _ rfl) (hbody _ rfl) hscope htried).attempt
  · exact .pure htried

theorem upholds_finish {finalizer : Option (List Stmt)} {outcome : Except Abrupt Value}
    (houtcome : Ended Known outcome m) (hbody : ∀ f ∈ finalizer, ∀ s ∈ f, s.Sound t [])
    (hscope : Inner seat n m scope) :
    Upholds E W n m (fun e => e.finish finalizer outcome scope) Known := by
  cases finalizer with
  | none => exact .resume houtcome
  | some body =>
    exact .bind (upholds_block h hplain (hbody body rfl) hscope) fun _ _ hlater _ =>
      .resume (houtcome.later hlater)

theorem upholds_tryStatement {body : List Stmt} {handler : Option Handler}
    {finalizer : Option (List Stmt)} (hs : (Stmt.tryStmt body handler finalizer).Sound t labels)
    (hscope : Inner seat n m scope) :
    Upholds E W n m (fun e => e.tryStatement body handler finalizer scope) Known := by
  cases hs with
  | tryStmt hbody hparameter hhandler hfinalizer =>
    refine .bind (upholds_block h hplain hbody hscope).attempt fun tried m₁ hlater₁ htried => ?_
    have hscope₁ := hscope.later hlater₁
    refine .bind (upholds_afterTrying h hplain htried hparameter hhandler hscope₁)
      fun outcome m₂ hlater₂ houtcome => ?_
    exact upholds_finish h hplain houtcome hfinalizer (hscope₁.later hlater₂)

/-! ### Switches -/

omit hplain in
theorem upholds_selectCases (subject : Value) {cases : List SwitchCase}
    (hcases : ∀ clause ∈ cases, ∀ x ∈ clause.test, x.Sound) (hstands : m.Seated seat scope) :
    Upholds E W n m (fun e => e.selectCases subject scope cases)
      fun selected _ => ∀ run ∈ selected, ∀ clause ∈ run, clause ∈ cases := by
  induction cases generalizing m with
  | nil => exact .pure nofun
  | cons clause rest ih =>
    have htests : ∀ clause ∈ rest, ∀ x ∈ clause.test, x.Sound :=
      fun clause hclause => hcases clause (List.mem_cons_of_mem _ hclause)
    have hrest {m' : Machine} (hstands : m'.Seated seat scope) :
        Upholds E W n m' (fun e => e.selectCases subject scope rest)
          fun selected _ => ∀ run ∈ selected, ∀ found ∈ run, found ∈ clause :: rest := by
      refine (ih htests hstands).mono fun selected _ _ hselected run hrun found hfound => ?_
      exact List.mem_cons_of_mem _ (hselected run hrun found hfound)
    unfold Engine.selectCases
    cases htest : clause.test with
    | none => exact hrest hstands
    | some test =>
      have hsound := hcases clause (List.mem_cons_self ..) test htest
      refine .bind (upholds_evaluate h hsound hstands) fun value m₁ hlater _ => ?_
      refine .ite (fun _ => .pure fun run hrun => ?_) fun _ => hrest (hstands.later hlater)
      cases hrun
      exact fun _ hfound => hfound

theorem upholds_caseStatements {body : List Stmt} (hbody : ∀ s ∈ body, s.Sound t [])
    (hstands : m.Seated seat scope) {last : Value} (hlast : m.Knows last) :
    Upholds E W n m (fun e => e.caseStatements scope body last) Known := by
  induction body generalizing m last with
  | nil => exact .pure hlast
  | cons statement rest ih =>
    obtain ⟨hstatement, hrest⟩ := List.forall_mem_cons.mp hbody
    refine .bind (upholds_part h hplain hstatement hstands).attempt
      fun outcome m₁ hlater houtcome => ?_
    split
    · refine ih hrest (hstands.later hlater) ?_
      split
      · exact houtcome
      · exact hlater.within hlast
    · exact .pure (hlater.within hlast)
    · exact .complete houtcome

theorem upholds_switchStatement {subject : Expr} {cases : List SwitchCase}
    (hs : (Stmt.switchStmt subject cases).Sound t labels) (hscope : Inner seat n m scope) :
    Upholds E W n m (fun e => e.switchStatement subject cases scope) Known := by
  cases hs with
  | switchStmt hsubject htests hbodies =>
    have hbody : ∀ s ∈ cases.flatMap SwitchCase.body, s.Sound t.switch [] :=
      List.forall_mem_flatMap.mpr hbodies
    refine .bind (upholds_evaluate h hsubject hscope.stands) fun value m₁ hlater₁ _ => ?_
    refine .bind (upholds_newScope (hscope.later hlater₁) .block) fun inner m₂ _ hinner => ?_
    obtain ⟨hinner, hvacant⟩ := hinner
    refine .bind (upholds_hoistBlock hbody hinner.stands.there hvacant) fun _ m₃ hlater₃ _ => ?_
    have hstands₃ := (hinner.later hlater₃).stands
    refine .bind (upholds_selectCases h value htests hstands₃)
      fun selected m₄ hlater₄ hselected => ?_
    exact upholds_caseStatements h hplain
      (fun s hs => hbody s (SwitchCase.mem_bodies_of_run hselected hs)) (hstands₃.later hlater₄)
      m₄.knows_undefined

end

/-!
### The integrity of loops

Each round runs in a scope with the `this` of the loop, and gives on a value that is known.
-/

def AfterKnown : AfterBody → Machine → Prop
  | .next last, m => m.Knows last
  | .leave value, m => m.Knows value
  | .pass c, m => c.Within m.store.objects.size

theorem afterKnown_of {last : Value} (hlast : m.Knows last) {o : Except Abrupt Value}
    (ho : Ended Known o m) : AfterKnown (.of labels last o) m := by
  cases o with
  | ok value => exact ho
  | error c =>
    cases c with
    | thrown value => exact ho
    | returned value => exact ho
    | broke label =>
      cases label with
      | none => exact hlast
      | some label =>
        simp only [AfterBody.of]
        split
        · exact hlast
        · trivial
    | continued label =>
      cases label with
      | none => exact hlast
      | some label =>
        simp only [AfterBody.of]
        split
        · exact hlast
        · trivial

variable (h : Backs W seat E) (hplain : seat.body = none)

include h hplain

theorem upholds_loopBody {body : Stmt} (hbody : body.Sound t []) (hscope : Inner seat n m scope)
    {last : Value} (hlast : m.Knows last) :
    Upholds E W n m (fun e => e.loopBody body scope labels last) AfterKnown :=
  .bind (upholds_part h hplain hbody hscope.stands).attempt fun _ _ hlater houtcome =>
    .pure (afterKnown_of (hlater.within hlast) houtcome)

theorem upholds_whileLoop {test : Expr} (htest : test.Sound) {body : Stmt}
    (hbody : body.Sound t []) (hscope : Inner seat n m scope) (rounds : Nat) {last : Value}
    (hlast : m.Knows last) :
    Upholds E W n m (fun e => e.whileLoop test body scope labels rounds last) Known := by
  induction rounds generalizing m last with
  | zero => exact .exhausted
  | succ rounds ih =>
    refine .bind (upholds_evaluate h htest hscope.stands) fun go m₁ hlater₁ _ => ?_
    have hscope₁ := hscope.later hlater₁
    have hlast₁ := hlater₁.within hlast
    refine .ite (fun _ => ?_) fun _ => .pure hlast₁
    refine .bind (upholds_loopBody h hplain hbody hscope₁ hlast₁) fun after m₂ hlater₂ hafter => ?_
    cases after with
    | next last => exact ih (hscope₁.later hlater₂) hafter
    | leave value => exact .pure hafter
    | pass c => exact .complete hafter

theorem upholds_doWhileLoop {test : Expr} (htest : test.Sound) {body : Stmt}
    (hbody : body.Sound t []) (hscope : Inner seat n m scope) (rounds : Nat) {last : Value}
    (hlast : m.Knows last) :
    Upholds E W n m (fun e => e.doWhileLoop body test scope labels rounds last) Known := by
  induction rounds generalizing m last with
  | zero => exact .exhausted
  | succ rounds ih =>
    refine .bind (upholds_loopBody h hplain hbody hscope hlast) fun after m₁ hlater₁ hafter => ?_
    have hscope₁ := hscope.later hlater₁
    cases after with
    | next last =>
      refine .bind (upholds_evaluate h htest hscope₁.stands) fun go m₂ hlater₂ _ => ?_
      exact .ite (fun _ => ih (hscope₁.later hlater₂) (hlater₂.within hafter)) fun _ =>
        .pure (hlater₂.within hafter)
    | leave value => exact .pure hafter
    | pass c => exact .complete hafter

/-! ### Loops with a head -/

omit h hplain in
theorem upholds_roundScope {outer current : ScopeId} (houter : Inner seat n m outer)
    (hcurrent : Inner seat n m current) {names : List String}
    (hnames : ∀ name ∈ names, Usable name) :
    Upholds E W n m (fun _ => Engine.roundScope names outer current)
      fun next m' => Inner seat n m' next := by
  refine .ite (fun _ => .pure hcurrent) fun _ => ?_
  refine .bind (upholds_newScope houter .block) fun next m₁ hlater hnext => ?_
  obtain ⟨hnext, hvacant⟩ := hnext
  have hcopy : Upholds E W n m₁
      (fun _ => Eval.update fun s => s.copyBindings current next names) Anything :=
    Upholds.anything (.update fun hs => hs.copyBindings
      (hcurrent.later hlater).stands.isOpen hvacant.isOpen
      (fun name hname => (hnames name hname).ne_this) fun name _ => hvacant.free name)
  exact .bind hcopy fun _ m₂ hlater₂ _ => .pure (hnext.later hlater₂)

theorem upholds_forLoop {test update : Option Expr} (htest : ∀ x ∈ test, x.Sound)
    (hupdate : ∀ x ∈ update, x.Sound) {body : Stmt} (hbody : body.Sound t [])
    {names : List String} (hnames : ∀ name ∈ names, Usable name) {outer : ScopeId}
    (houter : Inner seat n m outer) (hscope : Inner seat n m scope) (rounds : Nat)
    {last : Value} (hlast : m.Knows last) :
    Upholds E W n m
      (fun e => e.forLoop test update body names outer labels rounds scope last) Known := by
  induction rounds generalizing m scope last with
  | zero => exact .exhausted
  | succ rounds ih =>
    refine .bind (upholds_evaluateOption h htest hscope.stands) fun go m₁ hlater₁ _ => ?_
    have hscope₁ := hscope.later hlater₁
    have hlast₁ := hlater₁.within hlast
    refine .ite (fun _ => ?_) fun _ => .pure hlast₁
    refine .bind (upholds_loopBody h hplain hbody hscope₁ hlast₁) fun after m₂ hlater₂ hafter => ?_
    cases after with
    | next last =>
      have houter₂ := (houter.later hlater₁).later hlater₂
      refine .bind (upholds_roundScope houter₂ (hscope₁.later hlater₂) hnames)
        fun next m₃ hlater₃ hnext => ?_
      refine .bind (upholds_evaluateOption h hupdate hnext.stands) fun _ m₄ hlater₄ _ => ?_
      exact ih ((houter₂.later hlater₃).later hlater₄) (hnext.later hlater₄)
        (hlater₄.within (hlater₃.within hafter))
    | leave value => exact .pure hafter
    | pass c => exact .complete hafter

theorem upholds_loop {test update : Option Expr} (htest : ∀ x ∈ test, x.Sound)
    (hupdate : ∀ x ∈ update, x.Sound) {body : Stmt} (hbody : body.Sound t [])
    {names : List String} (hnames : ∀ name ∈ names, Usable name) {outer : ScopeId}
    (houter : Inner seat n m outer) (hscope : Inner seat n m scope) :
    Upholds E W n m (fun e =>
      e.forLoop test update body names outer labels e.rounds scope .undefined) Known :=
  .rounds fun rounds =>
    upholds_forLoop h hplain htest hupdate hbody hnames houter hscope rounds m.knows_undefined

omit h hplain in
/-- The lexical names of a declaration are bound in a scope for them. -/
theorem upholds_declareLexical {d : Declaration} (hd : d.Sound) {inner : ScopeId}
    (hvacant : m.store.Vacant n inner) :
    Upholds E W n m (fun _ => Eval.declareLexical d inner) Anything :=
  upholds_declareAll hd.usable_boundNames hvacant d.kind.isSelfName_bindingKind

theorem upholds_forStatement {init : Option ForInit} {test update : Option Expr} {body : Stmt}
    (hs : (Stmt.forStmt init test update body).Sound t labels)
    (hscope : Inner seat n m scope) :
    Upholds E W n m (fun e => e.forStatement init test update body scope labels)
      Known := by
  cases hs with
  | forStmt hdeclared hevaluated htest hupdate hbody _ =>
    have hloop {m' : Machine} (hscope : Inner seat n m' scope) :
        Upholds E W n m' (fun e =>
          e.forLoop test update body [] scope labels e.rounds scope .undefined) Known :=
      upholds_loop h hplain htest hupdate hbody (List.forall_mem_nil _) hscope hscope
    cases init with
    | none => exact hloop hscope
    | some first =>
      cases first with
      | expression x =>
        exact .bind (upholds_evaluate h (hevaluated x rfl) hscope.stands) fun _ _ hlater _ =>
          hloop (hscope.later hlater)
      | declaration d =>
        have hd := hdeclared d rfl
        refine .ite (fun _ => ?_) fun _ => ?_
        · refine .bind (upholds_newScope hscope .block) fun head m₁ hlater₁ hhead => ?_
          obtain ⟨hhead, hvacant⟩ := hhead
          refine .bind (upholds_declareLexical hd hvacant) fun _ m₂ hlater₂ _ => ?_
          have hhead₂ := hhead.later hlater₂
          refine .bind (upholds_declaration h hd hhead₂.stands) fun _ m₃ hlater₃ _ => ?_
          have hscope₃ := ((hscope.later hlater₁).later hlater₂).later hlater₃
          have hnames : ∀ name ∈ (if d.kind = .letBound then d.boundNames else []),
              Usable name := by
            split
            · exact hd.usable_boundNames
            · exact List.forall_mem_nil _
          refine .bind (upholds_roundScope hscope₃ (hhead₂.later hlater₃) hnames)
            fun first m₄ hlater₄ hfirst => ?_
          exact upholds_loop h hplain htest hupdate hbody hnames (hscope₃.later hlater₄) hfirst
        · exact .bind (upholds_declaration h hd hscope.stands) fun _ _ hlater _ =>
            hloop (hscope.later hlater)

/-! ### Loops over keys -/

omit hplain in
/-- The declaration in a head is bound to the key by its first declarator. -/
theorem upholds_bindFirst {d : Declaration} (hd : d.Sound) (fresh : Bool)
    (hscope : Inner seat n m scope) {key : Value} (hkey : m.Knows key) :
    Upholds E W n m (fun e =>
      match d.declarators with
      | first :: _ => e.bind first.target key scope fresh >>= fun _ => pure scope
      | [] => pure scope) fun round m' => Inner seat n m' round := by
  cases hdeclarators : d.declarators with
  | nil => exact .pure hscope
  | cons first rest =>
    have hfirst : first ∈ d.declarators := by
      rw [hdeclarators]
      exact List.mem_cons_self ..
    cases hd with
    | intro targets _ =>
      exact .bind (upholds_bind h (targets first hfirst) hscope.stands hkey fresh)
        fun _ _ hlater _ => .pure (hscope.later hlater)

omit hplain in
theorem upholds_bindKey {target : ForInTarget}
    (hdeclared : ∀ d, target = .declaration d → d.Sound)
    (hassigned : ∀ p, target = .pattern p → p.Sound) (hscope : Inner seat n m scope)
    {key : Value} (hkey : m.Knows key) :
    Upholds E W n m (fun e => e.bindKey target key scope)
      fun round m' => Inner seat n m' round := by
  cases target with
  | pattern p =>
    exact .bind (upholds_bind h (hassigned p rfl) hscope.stands hkey false) fun _ _ hlater _ =>
      .pure (hscope.later hlater)
  | declaration d =>
    have hd := hdeclared d rfl
    refine .ite (fun _ => ?_) fun _ => upholds_bindFirst h hd false hscope hkey
    refine .bind (upholds_newScope hscope .block) fun round m₁ hlater₁ hround => ?_
    obtain ⟨hround, hvacant⟩ := hround
    refine .bind (upholds_declareLexical hd hvacant) fun _ m₂ hlater₂ _ => ?_
    exact upholds_bindFirst h hd true (hround.later hlater₂) (hlater₂.within (hlater₁.within hkey))

theorem upholds_keyLoop {target : ForInTarget}
    (hdeclared : ∀ d, target = .declaration d → d.Sound)
    (hassigned : ∀ p, target = .pattern p → p.Sound) {body : Stmt} (hbody : body.Sound t [])
    (hscope : Inner seat n m scope) (id : ObjectId) (keys : List String) {last : Value}
    (hlast : m.Knows last) :
    Upholds E W n m (fun e => e.keyLoop target id body scope labels keys last) Known := by
  induction keys generalizing m last with
  | nil => exact .pure hlast
  | cons key keys ih =>
    refine .bind .read fun present m₁ hlater₁ _ => ?_
    have hscope₁ := hscope.later hlater₁
    have hlast₁ := hlater₁.within hlast
    refine .ite (fun _ => ?_) fun _ => ih hscope₁ hlast₁
    refine .bind (upholds_bindKey h hdeclared hassigned hscope₁ trivial)
      fun round m₂ hlater₂ hround => ?_
    refine .bind (upholds_loopBody h hplain hbody hround (hlater₂.within hlast₁))
      fun after m₃ hlater₃ hafter => ?_
    cases after with
    | next last => exact ih ((hscope₁.later hlater₂).later hlater₃) hafter
    | leave value => exact .pure hafter
    | pass c => exact .complete hafter

omit hplain in
theorem upholds_headInitializer {target : ForInTarget}
    (hdeclared : ∀ d, target = .declaration d → d.Sound) (hscope : Inner seat n m scope) :
    Upholds E W n m (fun e => e.headInitializer target scope) Anything := by
  cases target with
  | pattern p => exact .pure trivial
  | declaration d =>
    exact .ite (fun _ => upholds_declaration h (hdeclared d rfl) hscope.stands) fun _ =>
      .pure trivial

theorem upholds_forInStatement {target : ForInTarget} {object : Expr} {body : Stmt}
    (hs : (Stmt.forInStmt target object body).Sound t labels)
    (hscope : Inner seat n m scope) :
    Upholds E W n m (fun e => e.forInStatement target object body scope labels)
      Known := by
  cases hs with
  | forInStmt hdeclared _ hassigned hobject hbody _ =>
    refine .bind (upholds_headInitializer h hdeclared hscope) fun _ m₁ hlater₁ _ => ?_
    have hscope₁ := hscope.later hlater₁
    refine .bind (upholds_evaluate h hobject hscope₁.stands) fun subject m₂ hlater₂ hsubject => ?_
    have hscope₂ := hscope₁.later hlater₂
    refine .ite (fun _ => .pure trivial) fun _ => ?_
    refine .bind (upholds_toObject hsubject) fun o m₃ hlater₃ _ => ?_
    split
    · rename_i id _
      refine .bind .read fun keys m₄ hlater₄ _ => ?_
      exact upholds_keyLoop h hplain hdeclared hassigned hbody
        ((hscope₂.later hlater₃).later hlater₄) id keys m₄.knows_undefined
    · exact .pure trivial

/-! ### Every statement -/

theorem upholds_ifStatement {test : Expr} {consequent : Stmt} {alternate : Option Stmt}
    (hs : (Stmt.ifStmt test consequent alternate).Sound t labels)
    (hscope : Inner seat n m scope) :
    Upholds E W n m
      (fun e => e.statement (.ifStmt test consequent alternate) scope labels) Known := by
  cases hs with
  | ifStmt htest hconsequent _ halternate _ =>
    refine .bind (upholds_evaluate h htest hscope.stands) fun test m₁ hlater _ => ?_
    have hscope₁ := hscope.later hlater
    refine .ite (fun _ => upholds_part h hplain hconsequent hscope₁.stands) fun _ => ?_
    cases alternate with
    | none => exact .pure trivial
    | some alternate => exact upholds_part h hplain (halternate alternate rfl) hscope₁.stands

theorem upholds_statement {s : Stmt} (hs : s.Sound t labels) (hscope : Inner seat n m scope) :
    Upholds E W n m (fun e => e.statement s scope labels) Known := by
  cases s with
  | empty => exact .pure trivial
  | debugger => exact .pure trivial
  | function d => exact .pure trivial
  | expression x =>
    cases hs with
    | expression value => exact upholds_evaluate h value hscope.stands
  | block body =>
    cases hs with
    | block hbody => exact upholds_block h hplain hbody hscope
  | declaration d =>
    cases hs with
    | declaration hd =>
      exact .bind (upholds_declaration h hd hscope.stands) fun _ _ _ _ => .pure trivial
  | ifStmt test consequent alternate => exact upholds_ifStatement h hplain hs hscope
  | returnStmt value =>
    cases hs with
    | returnStmt _ hvalue =>
      refine .bind (upholds_evaluateOption h hvalue hscope.stands) fun value m₁ _ hknown => ?_
      refine .complete ?_
      cases value with
      | none => trivial
      | some v => exact hknown v rfl
  | breakStmt label => exact .complete trivial
  | continueStmt label => exact .complete trivial
  | throwStmt value =>
    cases hs with
    | throwStmt hvalue =>
      exact .bind (upholds_evaluate h hvalue hscope.stands) fun _ _ _ hknown => .complete hknown
  | tryStmt body handler finalizer => exact upholds_tryStatement h hplain hs hscope
  | switchStmt subject cases => exact upholds_switchStatement h hplain hs hscope
  | labeled label body =>
    cases hs with
    | labeled hbody _ =>
      refine .bind (upholds_part h hplain hbody hscope.stands).attempt
        fun outcome m₁ _ houtcome => ?_
      split
      · exact .ite (fun _ => .pure trivial) fun _ => .complete trivial
      · exact .resume houtcome
  | whileStmt test body =>
    cases hs with
    | whileStmt htest hbody _ =>
      exact .rounds fun rounds =>
        upholds_whileLoop h hplain htest hbody hscope rounds m.knows_undefined
  | doWhileStmt body test =>
    cases hs with
    | doWhileStmt hbody _ htest =>
      exact .rounds fun rounds =>
        upholds_doWhileLoop h hplain htest hbody hscope rounds m.knows_undefined
  | forStmt init test update body => exact upholds_forStatement h hplain hs hscope
  | forInStmt target object body => exact upholds_forInStatement h hplain hs hscope

end ProtoScript.Integrity
