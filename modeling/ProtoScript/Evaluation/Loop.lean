import ProtoScript.Evaluation.Pattern
/-!
# Loops

The four loops.  A loop has the labels that stand directly in front of it; a jump that names one of
them, or none, is for the loop itself.
-/

namespace ProtoScript

inductive AfterBody where
  /-- Goes on; the value is that of the last body that ended normally. -/
  | next (last : Value)
  | leave (value : Value)
  | pass (completion : Abrupt)

def AfterBody.of (labels : List String) (last : Value) : Except Abrupt Value → AfterBody
  | .ok value => .next value
  | .error (.continued none) => .next last
  | .error (.broke none) => .leave last
  | .error (.continued (some label)) =>
    if labels.contains label then .next last else .pass (.continued (some label))
  | .error (.broke (some label)) =>
    if labels.contains label then .leave last else .pass (.broke (some label))
  | .error c => .pass c

namespace Engine

open Eval

@[inline] def loopBody (e : Engine) (body : Stmt) (scope : ScopeId) (labels : List String)
    (last : Value) : Eval AfterBody :=
  return AfterBody.of labels last (← attempt (e.execute body scope))

def whileLoop (e : Engine) (test : Expr) (body : Stmt) (scope : ScopeId) (labels : List String) :
    Nat → Value → Eval Value
  | 0, _ => exhausted
  | rounds + 1, last => do
    let go ← e.evaluate test scope
    if go.toBoolean then
      match ← e.loopBody body scope labels last with
      | .next last => e.whileLoop test body scope labels rounds last
      | .leave value => pure value
      | .pass c => complete c
    else pure last

def doWhileLoop (e : Engine) (body : Stmt) (test : Expr) (scope : ScopeId)
    (labels : List String) : Nat → Value → Eval Value
  | 0, _ => exhausted
  | rounds + 1, last => do
    match ← e.loopBody body scope labels last with
    | .next last =>
      let go ← e.evaluate test scope
      if go.toBoolean then e.doWhileLoop body test scope labels rounds last else pure last
    | .leave value => pure value
    | .pass c => complete c

/-- The scope for the next round of a loop.  If the loop has names of its own they are copied into a
scope that no earlier round has seen. -/
def roundScope (names : List String) (outer current : ScopeId) : Eval ScopeId :=
  if names.isEmpty then pure current
  else do
    let next ← newScope outer .block
    update fun s => s.copyBindings current next names
    return next

def evaluateOption (e : Engine) (expression : Option Expr) (scope : ScopeId) :
    Eval (Option Value) :=
  match expression with
  | some expression => return some (← e.evaluate expression scope)
  | none => return none

/-- Tests, runs the body and updates, while the test holds.  Each round has a scope of its own for
`names`. -/
def forLoop (e : Engine) (test update : Option Expr) (body : Stmt) (names : List String)
    (outer : ScopeId) (labels : List String) : Nat → ScopeId → Value → Eval Value
  | 0, _, _ => exhausted
  | rounds + 1, scope, last => do
    let go ← e.evaluateOption test scope
    if go.all Value.toBoolean then
      match ← e.loopBody body scope labels last with
      | .next last =>
        let scope ← roundScope names outer scope
        let _ ← e.evaluateOption update scope
        e.forLoop test update body names outer labels rounds scope last
      | .leave value => pure value
      | .pass c => complete c
    else pure last

/-- A `for` loop.  Names that its head declares with `let` are new in each round. -/
def forStatement (e : Engine) (init : Option ForInit) (test update : Option Expr) (body : Stmt)
    (scope : ScopeId) (labels : List String) : Eval Value := do
  match init with
  | some (.declaration d) =>
    if d.kind.isLexical then
      let head ← newScope scope .block
      declareLexical d head
      e.declaration d head
      let names := if d.kind = .letBound then d.boundNames else []
      let first ← roundScope names scope head
      e.forLoop test update body names scope labels e.rounds first .undefined
    else
      e.declaration d scope
      e.forLoop test update body [] scope labels e.rounds scope .undefined
  | some (.expression expression) =>
    let _ ← e.evaluate expression scope
    e.forLoop test update body [] scope labels e.rounds scope .undefined
  | none => e.forLoop test update body [] scope labels e.rounds scope .undefined

/-- Binds the target of a loop over keys, and gives the scope for the body. -/
def bindKey (e : Engine) (target : ForInTarget) (key : Value) (scope : ScopeId) :
    Eval ScopeId := do
  match target with
  | .declaration d =>
    if d.kind.isLexical then
      let round ← newScope scope .block
      declareLexical d round
      match d.declarators with
      | first :: _ => let _ ← e.bind first.target key round true
      | [] => pure ()
      return round
    else
      match d.declarators with
      | first :: _ => let _ ← e.bind first.target key scope false
      | [] => pure ()
      return scope
  | .pattern target =>
    let _ ← e.bind target key scope false
    return scope

/-- Runs the body for each of the keys that the object still has. -/
def keyLoop (e : Engine) (target : ForInTarget) (id : ObjectId) (body : Stmt) (scope : ScopeId)
    (labels : List String) : List String → Value → Eval Value
  | [], last => pure last
  | key :: keys, last => do
    if ← read fun s => s.hasProperty id key then
      let round ← e.bindKey target (.ofString key) scope
      match ← e.loopBody body round labels last with
      | .next last => e.keyLoop target id body scope labels keys last
      | .leave value => pure value
      | .pass c => complete c
    else e.keyLoop target id body scope labels keys last

/-- Runs the initializer that a `var` declaration in the head of a loop over keys may have. -/
def headInitializer (e : Engine) (target : ForInTarget) (scope : ScopeId) : Eval Unit :=
  match target with
  | .declaration d =>
    if !d.kind.isLexical && (d.declarators.head?.bind Declarator.init).isSome then
      e.declaration d scope
    else pure ()
  | .pattern _ => pure ()

/-- A loop over the keys that an object has when the loop begins. -/
def forInStatement (e : Engine) (target : ForInTarget) (object : Expr) (body : Stmt)
    (scope : ScopeId) (labels : List String) : Eval Value := do
  e.headInitializer target scope
  let subject ← e.evaluate object scope
  if subject.isNullish then return .undefined
  else
    match ← toObject subject with
    | .object id =>
      let keys ← read fun s => s.enumerableKeys id
      e.keyLoop target id body scope labels keys .undefined
    | _ => return .undefined

end Engine

end ProtoScript
