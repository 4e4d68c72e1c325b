import ProtoScript.Proofs.Routine.Builtin
import ProtoScript.Proofs.Routine.Expression
/-!
# Statements, calls and evaluated texts are routines

In a setting that lets the store grow by scopes and closures as well, and that admits every jump,
statements, the activation of functions and the evaluation of texts are routines too.
-/

namespace ProtoScript

structure Setting.Lax (S : Setting) : Prop where
  later : ∀ {s s' : Store}, s.Extends s' → S.step s s'
  ends : ∀ c, S.ends c
  makes : ∀ d scope, S.makes d scope
  constructs : S.constructs
  evaluate : ∀ x scope, S.asks (.evaluate x scope)
  execute : ∀ s scope labels, S.asks (.execute s scope labels)
  bind : ∀ p value scope fresh, S.asks (.bind p value scope fresh)
  call : ∀ function receiver arguments, S.asks (.call function receiver arguments)
  directEval : ∀ text scope, S.asks (.directEval text scope)
  indirectEval : ∀ text, S.asks (.indirectEval text)

namespace Setting.Lax

variable {S : Setting}

theorem growing (hS : S.Lax) : S.Growing :=
  ⟨fun h => hS.later h.later, fun _ => hS.ends _, hS.call⟩

theorem ordinary (hS : S.Lax) : S.Ordinary := hS.growing.ordinary

theorem evaluates (hS : S.Lax) (scope : ScopeId) : S.Evaluates (fun _ => True) scope where
  toAssigns := hS.growing.assigns scope
  nameFunction s function name := hS.growing.grows (s.grows_nameFunction function name)
  part _ _ := trivial
  asks _ := hS.evaluate _ scope
  makes _ := hS.makes _ scope
  constructs := hS.constructs
  directEval text := hS.directEval text scope

theorem binds (hS : S.Lax) (scope : ScopeId) (fresh : Bool) :
    S.Binds (fun _ => True) (fun _ => True) scope fresh where
  toEvaluates := hS.evaluates scope
  target _ _ := trivial
  expression _ _ := trivial
  binds value _ := hS.bind _ value scope fresh
  bindFresh _ s name value := hS.growing.grows (s.grows_bind scope name value)

theorem native (hS : S.Lax) : S.Native :=
  ⟨hS.ordinary, hS.indirectEval, fun _ _ => hS.makes _ _⟩

end Setting.Lax

namespace Routine

open Eval

variable {S : Setting}

/-! ### What needs no new scopes -/

theorem grow (hS : S.Growing) {f : Store → Store} (h : ∀ s : Store, s.Grows (f s)) :
    Routine S fun _ => Eval.update f :=
  .update _ fun s => hS.grows (h s)

theorem declareLexical (hS : S.Growing) (d : Declaration) (scope : ScopeId) :
    Routine S fun _ => Eval.declareLexical d scope :=
  .grow hS fun s => s.grows_declareAll scope _ _

theorem bindThis (hS : S.Growing) (d : FunctionDef) (receiver : Value) (scope : ScopeId) :
    Routine S fun _ => Engine.bindThis d receiver scope := by
  have hreceiver : Routine S fun _ => Engine.receiverFor d receiver :=
    .ite (fun _ => .pure _) fun _ => .ite (fun _ => .pure _) fun _ => .toObject hS.ordinary receiver
  refine .ite (fun _ => .pure ()) fun _ => .bind hreceiver fun this => .grow hS fun s => ?_
  exact (s.grows_declare scope _ _).trans (Store.grows_bind _ _ _ _)

theorem bindArguments (hS : S.Growing) (d : FunctionDef) (function : Value)
    (arguments : List Value) (scope : ScopeId) :
    Routine S fun _ => Engine.bindArguments d function arguments scope := by
  refine .ite (fun _ => ?_) fun _ => .pure ()
  have hallocate : Routine S fun _ => Eval.allocate (.arguments arguments function
      (if !d.strict && d.hasSimpleParameters then some (scope, d.parameterNames) else none)) := by
    refine .updateGet _ fun s => hS.grows (s.grows_allocate fun _ _ h => ?_)
    unfold ObjectRecord.arguments at h
    split at h <;> cases h
  refine .bind hallocate fun object => .grow hS fun s => ?_
  exact (s.grows_declare scope _ _).trans (Store.grows_bind _ _ _ _)

theorem bindParameters {good : Expr → Prop} {goodTarget : Pattern → Prop} {scope : ScopeId}
    (hS : S.Binds good goodTarget scope true) {parameters : List Pattern}
    (h : ∀ p ∈ parameters, goodTarget p) (arguments : List Value) :
    Routine S fun e => e.bindParameters scope parameters arguments := by
  induction parameters generalizing arguments with
  | nil => exact .pure ()
  | cons parameter parameters ih =>
    have hrest := ih fun p hp => h p (List.mem_cons_of_mem _ hp)
    have hfirst := h parameter (List.mem_cons_self ..)
    cases parameter with
    | rest target =>
      have htarget : goodTarget target := hS.target hfirst (List.mem_singleton.mpr rfl)
      refine .bind (.newFullArray hS.toOrdinary arguments) fun rest => ?_
      exact .bind (.bindTarget hS htarget rest) fun _ => hrest _
    | _ => exact .bind (.bindTarget hS hfirst _) fun _ => hrest _

/-! ### Where everything is allowed -/

variable (hS : S.Lax)

include hS

theorem newScope (parent : ScopeId) (kind : ScopeKind) :
    Routine S fun _ => Eval.newScope parent kind :=
  .updateGet _ fun s => hS.later (s.extends_newScope _ kind)

theorem openScope (parent : ScopeId) (kind : ScopeKind) (strict : Bool) :
    Routine S fun _ => Eval.openScope parent kind strict := by
  refine .updateGet _ fun s => hS.later ?_
  exact Store.extends_modifyScope_new (s.extends_newScope (some parent) kind) (Nat.le_refl _) _

theorem evaluateAny (x : Expr) (scope : ScopeId) : Routine S fun e => e.evaluate x scope :=
  .task _ (hS.evaluate x scope)

theorem executeAny (s : Stmt) (scope : ScopeId) : Routine S fun e => e.execute s scope :=
  .task _ (hS.execute s scope [])

theorem bindAny (p : Pattern) (value : Value) (scope : ScopeId) (fresh : Bool) :
    Routine S fun e => e.bind p value scope fresh :=
  .task _ (hS.bind p value scope fresh)

theorem completeAny {α : Type} (c : Abrupt) : Routine S fun _ => (Eval.complete c : Eval α) :=
  .complete c (hS.ends c)

theorem resumeAny {α : Type} (o : Except Abrupt α) : Routine S fun _ => Eval.resume o :=
  .resume fun c _ => hS.ends c

theorem evaluateOptionAny (x : Option Expr) (scope : ScopeId) :
    Routine S fun e => e.evaluateOption x scope :=
  .evaluateOption (hS.evaluates scope) fun _ _ => trivial

theorem declarationAny (d : Declaration) (scope : ScopeId) :
    Routine S fun e => e.declaration d scope :=
  .declaration (hS.binds scope _) (fun _ _ => trivial) fun _ _ _ _ => trivial

/-! ### Declarations -/

theorem hoist (functions lexicals : ScopeId) (kind : BindingKind) (body : List Stmt) :
    Routine S fun _ => Eval.hoist functions lexicals kind body := by
  induction body with
  | nil => exact .pure ()
  | cons statement rest ih =>
    cases statement with
    | function d =>
      refine .bind (.closure d lexicals (hS.makes d lexicals)) fun function => ?_
      cases d.name with
      | none => exact ih
      | some name =>
        refine .bind (.grow hS.growing fun s => ?_) fun _ => ih
        exact (s.grows_declare functions name kind).trans (Store.grows_bind _ _ _ _)
    | declaration d =>
      exact .ite (fun _ => .bind (.declareLexical hS.growing d lexicals) fun _ => ih) fun _ => ih
    | _ => exact ih

theorem hoistBody (body : List Stmt) (vars lexicals : ScopeId) :
    Routine S fun _ => Eval.hoistBody body vars lexicals :=
  .bind (.grow hS.growing fun s => s.grows_declareAll vars _ _) fun _ =>
    .hoist hS vars lexicals .variable body

theorem hoistBlock (body : List Stmt) (scope : ScopeId) :
    Routine S fun _ => Eval.hoistBlock body scope :=
  .hoist hS scope scope .letBound body

/-! ### Statement lists -/

theorem statements (scope : ScopeId) (body : List Stmt) (last : Value) :
    Routine S fun e => e.statements scope body last := by
  induction body generalizing last with
  | nil => exact .pure last
  | cons statement rest ih => exact .bind (.executeAny hS statement scope) fun value => ih _

theorem block (body : List Stmt) (scope : ScopeId) : Routine S fun e => e.block body scope :=
  .bind (.newScope hS scope .block) fun inner => .bind (.hoistBlock hS body inner) fun _ =>
    .statements hS inner body .undefined

theorem handle (handler : Handler) (exception : Value) (scope : ScopeId) :
    Routine S fun e => e.handle handler exception scope := by
  refine .bind (.newScope hS scope .block) fun inner => ?_
  have hblock := block hS handler.body inner
  cases handler.parameter with
  | none => exact hblock
  | some parameter =>
    refine .bind (.grow hS.growing fun s => s.grows_declareAll inner _ _) fun _ => ?_
    exact .bind (.bindAny hS parameter exception inner true) fun _ => hblock

theorem afterTrying (tried : Except Abrupt Value) (handler : Option Handler) (scope : ScopeId) :
    Routine S fun e => e.afterTrying tried handler scope := by
  unfold Engine.afterTrying
  split
  · exact .attempt (.handle hS _ _ scope)
  · exact .pure _

theorem finish (finalizer : Option (List Stmt)) (outcome : Except Abrupt Value)
    (scope : ScopeId) : Routine S fun e => e.finish finalizer outcome scope := by
  cases finalizer with
  | none => exact .resumeAny hS outcome
  | some finalizer => exact .bind (.block hS finalizer scope) fun _ => .resumeAny hS outcome

theorem tryStatement (body : List Stmt) (handler : Option Handler)
    (finalizer : Option (List Stmt)) (scope : ScopeId) :
    Routine S fun e => e.tryStatement body handler finalizer scope := by
  refine .bind (.attempt (.block hS body scope)) fun tried => ?_
  refine .bind (.afterTrying hS tried handler scope) fun outcome => ?_
  exact .finish hS finalizer outcome scope

theorem selectCases (subject : Value) (scope : ScopeId) (cases : List SwitchCase) :
    Routine S fun e => e.selectCases subject scope cases := by
  induction cases with
  | nil => exact .pure _
  | cons clause rest ih =>
    unfold Engine.selectCases
    cases clause.test with
    | none => exact ih
    | some test =>
      refine .bind (.evaluateAny hS test scope) fun value => ?_
      exact .ite (fun _ => .pure _) fun _ => ih

theorem caseStatements (scope : ScopeId) (body : List Stmt) (last : Value) :
    Routine S fun e => e.caseStatements scope body last := by
  induction body generalizing last with
  | nil => exact .pure last
  | cons statement rest ih =>
    refine .bind (.attempt (.executeAny hS statement scope)) fun outcome => ?_
    split
    · exact ih _
    · exact .pure last
    · exact .completeAny hS _

theorem switchStatement (subject : Expr) (cases : List SwitchCase) (scope : ScopeId) :
    Routine S fun e => e.switchStatement subject cases scope := by
  refine .bind (.evaluateAny hS subject scope) fun subject => ?_
  refine .bind (.newScope hS scope .block) fun inner => .bind (.hoistBlock hS _ inner) fun _ => ?_
  exact .bind (.selectCases hS subject inner cases) fun selected => .caseStatements hS inner _ _

/-! ### Loops -/

theorem loopBody (body : Stmt) (scope : ScopeId) (labels : List String) (last : Value) :
    Routine S fun e => e.loopBody body scope labels last :=
  .bind (.attempt (.executeAny hS body scope)) fun _ => .pure _

theorem whileLoop (test : Expr) (body : Stmt) (scope : ScopeId) (labels : List String)
    (rounds : Nat) (last : Value) :
    Routine S fun e => e.whileLoop test body scope labels rounds last := by
  induction rounds generalizing last with
  | zero => exact .exhausted
  | succ rounds ih =>
    refine .bind (.evaluateAny hS test scope) fun go => .ite (fun _ => ?_) fun _ => .pure last
    refine .bind (.loopBody hS body scope labels last) fun after => ?_
    cases after with
    | next last => exact ih last
    | leave value => exact .pure value
    | pass c => exact .completeAny hS c

theorem doWhileLoop (body : Stmt) (test : Expr) (scope : ScopeId) (labels : List String)
    (rounds : Nat) (last : Value) :
    Routine S fun e => e.doWhileLoop body test scope labels rounds last := by
  induction rounds generalizing last with
  | zero => exact .exhausted
  | succ rounds ih =>
    refine .bind (.loopBody hS body scope labels last) fun after => ?_
    cases after with
    | next last =>
      exact .bind (.evaluateAny hS test scope) fun go => .ite (fun _ => ih last) fun _ => .pure last
    | leave value => exact .pure value
    | pass c => exact .completeAny hS c

theorem roundScope (names : List String) (outer current : ScopeId) :
    Routine S fun _ => Engine.roundScope names outer current := by
  refine .ite (fun _ => .pure current) fun _ => .bind (.newScope hS outer .block) fun next => ?_
  refine .bind (.grow hS.growing fun s => ?_) fun _ => .pure next
  exact s.grows_copyBindings current next names

theorem forLoop (test update : Option Expr) (body : Stmt) (names : List String)
    (outer : ScopeId) (labels : List String) (rounds : Nat) (scope : ScopeId) (last : Value) :
    Routine S fun e => e.forLoop test update body names outer labels rounds scope last := by
  induction rounds generalizing scope last with
  | zero => exact .exhausted
  | succ rounds ih =>
    refine .bind (.evaluateOptionAny hS test scope) fun go => ?_
    refine .ite (fun _ => ?_) fun _ => .pure last
    refine .bind (.loopBody hS body scope labels last) fun after => ?_
    cases after with
    | next last =>
      refine .bind (.roundScope hS names outer scope) fun scope => ?_
      exact .bind (.evaluateOptionAny hS update scope) fun _ => ih scope last
    | leave value => exact .pure value
    | pass c => exact .completeAny hS c

theorem forStatement (init : Option ForInit) (test update : Option Expr) (body : Stmt)
    (scope : ScopeId) (labels : List String) :
    Routine S fun e => e.forStatement init test update body scope labels := by
  have hloop (names : List String) (first : ScopeId) : Routine S fun e =>
      e.forLoop test update body names scope labels e.rounds first .undefined :=
    .rounds fun n => .forLoop hS test update body names scope labels n first .undefined
  match init with
  | none => exact hloop [] scope
  | some (.expression x) => exact .bind (.evaluateAny hS x scope) fun _ => hloop [] scope
  | some (.declaration d) =>
    refine .ite (fun _ => ?_) fun _ => .bind (.declarationAny hS d scope) fun _ => hloop [] scope
    refine .bind (.newScope hS scope .block) fun head => ?_
    refine .bind (.declareLexical hS.growing d head) fun _ => ?_
    refine .bind (.declarationAny hS d head) fun _ => ?_
    exact .bind (.roundScope hS _ scope head) fun first => hloop _ first

theorem bindKey (target : ForInTarget) (key : Value) (scope : ScopeId) :
    Routine S fun e => e.bindKey target key scope := by
  cases target with
  | pattern target => exact .bind (.bindAny hS target key scope false) fun _ => .pure _
  | declaration d =>
    refine .ite (fun _ => ?_) fun _ => ?_
    · refine .bind (.newScope hS scope .block) fun round => ?_
      refine .bind (.declareLexical hS.growing d round) fun _ => ?_
      cases d.declarators with
      | nil => exact .pure _
      | cons first rest => exact .bind (.bindAny hS first.target key round true) fun _ => .pure _
    · cases d.declarators with
      | nil => exact .pure _
      | cons first rest => exact .bind (.bindAny hS first.target key scope false) fun _ => .pure _

theorem keyLoop (target : ForInTarget) (id : ObjectId) (body : Stmt) (scope : ScopeId)
    (labels keys : List String) (last : Value) :
    Routine S fun e => e.keyLoop target id body scope labels keys last := by
  induction keys generalizing last with
  | nil => exact .pure last
  | cons key keys ih =>
    refine .bind (.read _) fun present => .ite (fun _ => ?_) fun _ => ih last
    refine .bind (.bindKey hS target _ scope) fun round => ?_
    refine .bind (.loopBody hS body round labels last) fun after => ?_
    cases after with
    | next last => exact ih last
    | leave value => exact .pure value
    | pass c => exact .completeAny hS c

theorem headInitializer (target : ForInTarget) (scope : ScopeId) :
    Routine S fun e => e.headInitializer target scope := by
  cases target with
  | pattern target => exact .pure ()
  | declaration d => exact .ite (fun _ => .declarationAny hS d scope) fun _ => .pure ()

theorem forInStatement (target : ForInTarget) (object : Expr) (body : Stmt) (scope : ScopeId)
    (labels : List String) :
    Routine S fun e => e.forInStatement target object body scope labels := by
  refine .bind (.headInitializer hS target scope) fun _ => ?_
  refine .bind (.evaluateAny hS object scope) fun subject => .ite (fun _ => .pure _) fun _ => ?_
  refine .bind (.toObject hS.ordinary subject) fun o => ?_
  cases o with
  | object id =>
    exact .bind (.read _) fun keys => .keyLoop hS target id body scope labels keys _
  | _ => exact .pure _

theorem statement (s : Stmt) (scope : ScopeId) (labels : List String) :
    Routine S fun e => e.statement s scope labels := by
  cases s with
  | empty => exact .pure _
  | debugger => exact .pure _
  | function d => exact .pure _
  | expression x => exact .evaluateAny hS x scope
  | block body => exact .block hS body scope
  | declaration d => exact .bind (.declarationAny hS d scope) fun _ => .pure _
  | ifStmt test consequent alternate =>
    refine .bind (.evaluateAny hS test scope) fun test => ?_
    refine .ite (fun _ => .executeAny hS consequent scope) fun _ => ?_
    cases alternate with
    | none => exact .pure _
    | some alternate => exact .executeAny hS alternate scope
  | returnStmt value =>
    exact .bind (.evaluateOptionAny hS value scope) fun _ => .completeAny hS _
  | breakStmt label => exact .completeAny hS _
  | continueStmt label => exact .completeAny hS _
  | throwStmt value => exact .bind (.evaluateAny hS value scope) fun _ => .completeAny hS _
  | tryStmt body handler finalizer => exact .tryStatement hS body handler finalizer scope
  | switchStmt subject cases => exact .switchStatement hS subject cases scope
  | labeled label body =>
    refine .bind (.attempt (.task _ (hS.execute body scope _))) fun outcome => ?_
    split
    · exact .ite (fun _ => .pure _) fun _ => .completeAny hS _
    · exact .resumeAny hS outcome
  | whileStmt test body =>
    exact .rounds fun n => .whileLoop hS test body scope labels n _
  | doWhileStmt body test =>
    exact .rounds fun n => .doWhileLoop hS body test scope labels n _
  | forStmt init test update body => exact .forStatement hS init test update body scope labels
  | forInStmt target object body => exact .forInStatement hS target object body scope labels

/-! ### Activation -/

theorem selfScope (d : FunctionDef) (scope : ScopeId) (function : Value) :
    Routine S fun _ => Engine.selfScope d scope function := by
  unfold Engine.selfScope
  cases d.selfName? with
  | none => exact .pure scope
  | some name =>
    refine .bind (.newScope hS scope .block) fun inner => ?_
    refine .bind (.grow hS.growing fun s => ?_) fun _ => .pure _
    exact (s.grows_declare inner name _).trans (Store.grows_bind _ _ _ _)

theorem bodyScope (d : FunctionDef) (scope : ScopeId) :
    Routine S fun _ => Engine.bodyScope d scope := by
  refine .bind (.newScope hS scope .function) fun inner => ?_
  refine .bind (.grow hS.growing fun s => ?_) fun _ => .pure _
  exact s.grows_seedVariables d scope inner _

theorem activate (d : FunctionDef) (scope : ScopeId) (function receiver : Value)
    (arguments : List Value) :
    Routine S fun e => e.activate d scope function receiver arguments := by
  refine .bind (.selfScope hS d scope function) fun outer => ?_
  refine .bind (.openScope hS outer _ d.strict) fun parameters => ?_
  refine .bind (.bindThis hS.growing d receiver parameters) fun _ => ?_
  refine .bind (.bindArguments hS.growing d function arguments parameters) fun _ => ?_
  refine .bind (.grow hS.growing fun s => s.grows_declareAll parameters _ _) fun _ => ?_
  refine .bind (.bindParameters (hS.binds parameters true) (fun _ _ => trivial) arguments)
    fun _ => ?_
  refine .ite (fun _ => .bind (.grow hS.growing fun s => ?_) fun _ => .pure _) fun _ => ?_
  · exact s.grows_modifyScope parameters fun a => ⟨rfl, rfl, fun _ h => h⟩
  · exact .bodyScope hS d parameters

theorem callClosure (d : FunctionDef) (scope : ScopeId) (function receiver : Value)
    (arguments : List Value) :
    Routine S fun e => e.callClosure d scope function receiver arguments := by
  refine .bind (.activate hS d scope function receiver arguments) fun inner => ?_
  refine .bind (.hoistBody hS d.body inner inner) fun _ => ?_
  refine .bind (.attempt (.statements hS inner d.body .undefined)) fun outcome => ?_
  split
  · exact .pure _
  · exact .completeAny hS _
  · exact .pure _

/-! ### Evaluated texts -/

theorem textScopes (p : Program) (scope : ScopeId) (strict : Bool) :
    Routine S fun _ => Engine.textScopes p scope strict := by
  refine .ite (fun _ => .bind (.openScope hS scope .eval true) fun inner => .pure _) fun _ => ?_
  refine .bind (.read _) fun vars => .bind (.read _) fun kind => ?_
  refine .ite (fun _ => .fault hS.ordinary _) fun _ => ?_
  exact .bind (.newScope hS scope .block) fun inner => .pure _

theorem evaluateText (text : Value) (scope : ScopeId) (strict : Bool) :
    Routine S fun e => e.evaluateText text scope strict := by
  cases text with
  | string source =>
    unfold Engine.evaluateText
    dsimp only
    split
    · exact .fault hS.ordinary _
    · rename_i p _
      refine .bind (.textScopes hS p scope _) fun (vars, lexicals) => ?_
      exact .bind (.hoistBody hS p.body vars lexicals) fun _ =>
        .statements hS lexicals p.body .undefined
  | _ => exact .pure _

theorem directEval (text : Value) (scope : ScopeId) :
    Routine S fun e => e.directEval text scope :=
  .bind (.read _) fun strict => .evaluateText hS text scope strict

theorem indirectEval (text : Value) : Routine S fun e => e.indirectEval text :=
  .evaluateText hS text .global false

end Routine

end ProtoScript
