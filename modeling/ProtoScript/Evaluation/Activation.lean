import ProtoScript.Evaluation.Statement
import ProtoScript.Grammar.Program
/-!
# Calls of script functions

A call makes scopes for the function's own name, for its parameters and, if the parameters are more
than mere names, for its body; then the body runs.
-/

namespace ProtoScript.Engine

open Eval

def selfScope (d : FunctionDef) (scope : ScopeId) (function : Value) : Eval ScopeId :=
  match d.selfName? with
  | none => pure scope
  | some name => do
    let inner ← newScope scope .block
    update fun s => (s.declare inner name (.selfName d.strict)).bind inner name function
    return inner

/-- What a function finds as its receiver.  Sloppy functions find the global object in place of a
nullish receiver, and a wrapper in place of any other primitive value. -/
def receiverFor (d : FunctionDef) (receiver : Value) : Eval Value :=
  if d.strict then pure receiver
  else if receiver.isNullish then pure (.object .globalObject)
  else toObject receiver

def bindThis (d : FunctionDef) (receiver : Value) (scope : ScopeId) : Eval Unit :=
  if d.isArrow then pure ()
  else do
    let this ← receiverFor d receiver
    update fun s => (s.declare scope "this" .constant).bind scope "this" this

def wantsArguments (d : FunctionDef) : Bool :=
  !d.isArrow && !d.parameterNames.contains "arguments"

/-- Binds the arguments object, if there is one.  It shares the parameters of a sloppy function
whose parameters are mere names. -/
def bindArguments (d : FunctionDef) (function : Value) (arguments : List Value)
    (scope : ScopeId) : Eval Unit :=
  if wantsArguments d then do
    let mapped :=
      if !d.strict && d.hasSimpleParameters then some (scope, d.parameterNames) else none
    let object ← allocate (.arguments arguments function mapped)
    update fun s => (s.declare scope "arguments" .variable).bind scope "arguments" object
  else pure ()

def bindParameters (e : Engine) (scope : ScopeId) : List Pattern → List Value → Eval Unit
  | [], _ => pure ()
  | .rest target :: parameters, arguments => do
    let rest ← newFullArray arguments
    let _ ← e.bind target rest scope true
    e.bindParameters scope parameters arguments.tail
  | parameter :: parameters, arguments => do
    let _ ← e.bind parameter (arguments.headD .undefined) scope true
    e.bindParameters scope parameters arguments.tail

/-- Declares a variable of a body.  One that is named like a parameter starts out with its value,
and so does one that is named like the arguments object. -/
def seedVariable (d : FunctionDef) (scope inner : ScopeId) (s : Store) (name : String) : Store :=
  let seeded := d.parameterNames.contains name || (name == "arguments" && wantsArguments d)
  let inherited := if seeded && s.hasOwnBinding scope name then s.lookup? scope name else none
  let s := s.declare inner name .variable
  match inherited with
  | some value => s.bind inner name value
  | none => s

/-- The scope of a body whose parameters have a scope of their own. -/
def bodyScope (d : FunctionDef) (scope : ScopeId) : Eval ScopeId := do
  let inner ← newScope scope .function
  update fun s => (Stmt.varNamesOfList d.body).foldl (seedVariable d scope inner) s
  return inner

/-- Makes the scopes of a call and binds the parameters; gives the scope for the body. -/
def activate (e : Engine) (d : FunctionDef) (scope : ScopeId) (function receiver : Value)
    (arguments : List Value) : Eval ScopeId := do
  let outer ← selfScope d scope function
  let parameters ← openScope outer (.parameters (wantsArguments d)) d.strict
  bindThis d receiver parameters
  bindArguments d function arguments parameters
  let kind := if d.hasSimpleParameters then .variable else .letBound
  update fun s => s.declareAll parameters d.parameterNames kind
  e.bindParameters parameters d.parameters arguments
  if d.hasSimpleParameters then
    update fun s => s.modifyScope parameters fun scope => { scope with kind := .function }
    return parameters
  else bodyScope d parameters

/-- Calls a script function.  A `return` ends here; so does a jump that found no target. -/
def callClosure (e : Engine) (d : FunctionDef) (scope : ScopeId) (function receiver : Value)
    (arguments : List Value) : Eval Value := do
  let inner ← e.activate d scope function receiver arguments
  hoistBody d.body inner inner
  match ← attempt (e.statements inner d.body .undefined) with
  | .error (.returned value) => return value
  | .error (.thrown exception) => complete (.thrown exception)
  | _ => return .undefined

/-!
### Source texts

Running a program in the global scope, and evaluating a text that a running program came up with.
-/

/-- Runs a program in the global scope, which is strict meanwhile if the program is. -/
def program (e : Engine) (p : Program) : Eval Value := do
  let strict ← isStrict .global
  setStrict .global (strict || p.strict)
  hoistBody p.body .global .global
  let outcome ← attempt (e.statements .global p.body .undefined)
  setStrict .global strict
  resume outcome

/-- The scopes for the variables and for the lexical names of an evaluated text.  Strict text keeps
all its names to itself; what sloppy text declares with `var` goes to the scope that holds the
variables of the code around it.  There, in a parameter list with an arguments object, that object
must not be declared anew. -/
def textScopes (p : Program) (scope : ScopeId) (strict : Bool) : Eval (ScopeId × ScopeId) := do
  if strict then
    let inner ← openScope scope .eval true
    return (inner, inner)
  else
    let vars ← read fun s => s.varScope scope
    let kind ← read fun s => (s.scope? vars).map Scope.kind
    if kind = some (.parameters true) ∧ (Stmt.varNamesOfList p.body).contains "arguments" then
      fault .argumentsInInitializer
    else
      return (vars, ← newScope scope .block)

/-- Evaluates a string as a program in a scope.  Any other value is its own result. -/
def evaluateText (e : Engine) (text : Value) (scope : ScopeId) (strict : Bool) : Eval Value := do
  match text with
  | .string source =>
    match Program.ofString source.toString strict with
    | .error error => fault (.syntaxFault error.message)
    | .ok p =>
      let (vars, lexicals) ← textScopes p scope (strict || p.strict)
      hoistBody p.body vars lexicals
      e.statements lexicals p.body .undefined
  | value => return value

/-- `eval` called by that name: the text sees the names of the caller and is strict if the caller
is. -/
def directEval (e : Engine) (text : Value) (scope : ScopeId) : Eval Value := do
  e.evaluateText text scope (← isStrict scope)

/-- `eval` called in any other way: the text sees the global names only. -/
def indirectEval (e : Engine) (text : Value) : Eval Value :=
  e.evaluateText text .global false

end ProtoScript.Engine
