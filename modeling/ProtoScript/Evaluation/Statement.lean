import ProtoScript.Evaluation.Loop
/-!
# Statements

What statements do.  Every statement that completes normally has a value; a list has the value of
its last statement that is more than a declaration.
-/

namespace ProtoScript

/-- Whether the value of a statement counts as that of a list in which it stands. -/
def Stmt.producesValue : Stmt → Bool
  | .empty | .declaration _ | .function _ | .debugger => false
  | _ => true

namespace Engine

open Eval

/-- Executes the statements of a list, where `last` is the value so far. -/
def statements (e : Engine) (scope : ScopeId) : List Stmt → Value → Eval Value
  | [], last => pure last
  | statement :: rest, last => do
    let value ← e.execute statement scope
    e.statements scope rest (if statement.producesValue then value else last)

def block (e : Engine) (body : List Stmt) (scope : ScopeId) : Eval Value := do
  let inner ← newScope scope .block
  hoistBlock body inner
  e.statements inner body .undefined

def handle (e : Engine) (handler : Handler) (exception : Value) (scope : ScopeId) :
    Eval Value := do
  let inner ← newScope scope .block
  match handler.parameter with
  | some parameter =>
    update fun s => s.declareAll inner parameter.boundNames .letBound
    let _ ← e.bind parameter exception inner true
  | none => pure ()
  e.block handler.body inner

/-- Hands an exception to the handler, if there is one; gives how the block or the handler
completed. -/
def afterTrying (e : Engine) (tried : Except Abrupt Value) (handler : Option Handler)
    (scope : ScopeId) : Eval (Except Abrupt Value) :=
  match tried, handler with
  | .error (.thrown exception), some handler => attempt (e.handle handler exception scope)
  | outcome, _ => pure outcome

/-- Runs a finalizer, if there is one, and ends as the rest completed.  A finalizer that completes
abruptly replaces that. -/
def finish (e : Engine) (finalizer : Option (List Stmt)) (outcome : Except Abrupt Value)
    (scope : ScopeId) : Eval Value :=
  match finalizer with
  | some finalizer => do
    let _ ← e.block finalizer scope
    resume outcome
  | none => resume outcome

/-- A block with a handler for its exceptions and a finalizer that runs in any case. -/
def tryStatement (e : Engine) (body : List Stmt) (handler : Option Handler)
    (finalizer : Option (List Stmt)) (scope : ScopeId) : Eval Value := do
  let tried ← attempt (e.block body scope)
  let outcome ← e.afterTrying tried handler scope
  e.finish finalizer outcome scope

/-- The clauses of a `switch` from the first one on whose value equals the subject. -/
def selectCases (e : Engine) (subject : Value) (scope : ScopeId) :
    List SwitchCase → Eval (Option (List SwitchCase))
  | [] => return none
  | clause :: rest => do
    match clause.test with
    | none => e.selectCases subject scope rest
    | some test =>
      let value ← e.evaluate test scope
      if subject.strictlyEquals value then return some (clause :: rest)
      else e.selectCases subject scope rest

/-- Executes the statements of the clauses of a `switch` up to a `break`. -/
def caseStatements (e : Engine) (scope : ScopeId) : List Stmt → Value → Eval Value
  | [], last => pure last
  | statement :: rest, last => do
    match ← attempt (e.execute statement scope) with
    | .ok value =>
      e.caseStatements scope rest (if statement.producesValue then value else last)
    | .error (.broke none) => pure last
    | .error c => complete c

/-- A `switch`: from the clause for the subject on, or else from the default clause on. -/
def switchStatement (e : Engine) (subject : Expr) (cases : List SwitchCase) (scope : ScopeId) :
    Eval Value := do
  let subject ← e.evaluate subject scope
  let inner ← newScope scope .block
  hoistBlock (cases.flatMap SwitchCase.body) inner
  let selected ← e.selectCases subject inner cases
  let run := selected.getD (cases.dropWhile fun clause => clause.test.isSome)
  e.caseStatements inner (run.flatMap SwitchCase.body) .undefined

def statement (e : Engine) (s : Stmt) (scope : ScopeId) (labels : List String) : Eval Value := do
  match s with
  | .empty | .debugger | .function _ => return .undefined
  | .expression expression => e.evaluate expression scope
  | .block body => e.block body scope
  | .declaration d =>
    e.declaration d scope
    return .undefined
  | .ifStmt test consequent alternate =>
    let test ← e.evaluate test scope
    if test.toBoolean then e.execute consequent scope
    else
      match alternate with
      | some alternate => e.execute alternate scope
      | none => return .undefined
  | .returnStmt value =>
    let value ← e.evaluateOption value scope
    complete (.returned (value.getD .undefined))
  | .breakStmt label => complete (.broke label)
  | .continueStmt label => complete (.continued label)
  | .throwStmt value => complete (.thrown (← e.evaluate value scope))
  | .tryStmt body handler finalizer => e.tryStatement body handler finalizer scope
  | .switchStmt subject cases => e.switchStatement subject cases scope
  | .labeled label body =>
    match ← attempt (e.run (.execute body scope (labels ++ [label]))) with
    | .error (.broke (some target)) =>
      if target = label then return .undefined else complete (.broke (some target))
    | outcome => resume outcome
  | .whileStmt test body => e.whileLoop test body scope labels e.rounds .undefined
  | .doWhileStmt body test => e.doWhileLoop body test scope labels e.rounds .undefined
  | .forStmt init test update body => e.forStatement init test update body scope labels
  | .forInStmt target object body => e.forInStatement target object body scope labels

end Engine

end ProtoScript
