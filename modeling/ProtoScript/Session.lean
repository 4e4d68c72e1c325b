import ProtoScript.Evaluation.Rules
import ProtoScript.Realm
/-!
# Sessions

Evaluating source texts, one after the other, on one machine.  A text that is no program and an
exception that nothing handles are reported; neither spoils the machine for the next text.
-/

namespace ProtoScript

inductive ScriptError where
  | malformed (error : SyntaxError)
  | uncaught (value : Value) (shown : String)
  deriving Inhabited

namespace ScriptError

def message : ScriptError → String
  | malformed error => error.message
  | uncaught _ shown => shown

def display : ScriptError → String
  | malformed error => "SyntaxError: " ++ error.message
  | uncaught _ shown => "Uncaught " ++ shown

def exitCode : ScriptError → Nat
  | malformed _ => 2
  | uncaught _ _ => 1

end ScriptError

/-- Evaluates a text for its value.  A `return` that reaches the top gives the value; a jump that
does gives `undefined`. -/
def Engine.evaluateSource (e : Engine) (source : String) : Eval (Except ScriptError Value) := do
  let strict := (← get).settings.strict
  match Program.ofString source strict with
  | .error error => return .error (.malformed error)
  | .ok p =>
    match ← Eval.attempt (e.run (.program p)) with
    | .ok value => return .ok value
    | .error (.thrown value) =>
      return .error (.uncaught value (← Eval.read fun s => s.display value))
    | .error (.returned value) => return .ok value
    | .error _ => return .ok .undefined

inductive Outcome (α : Type) where
  | done (result : α)
  | exhausted
  deriving Inhabited

namespace Machine

/-- A bound on nesting and on the rounds of loops that no run reaches in practice, `2 ^ 60`. -/
def ampleBound : Nat := 1152921504606846976

def run {α : Type} (m : Machine) (x : Eval α) : Outcome α × Machine :=
  match x m with
  | .ok result m => (.done result, m)
  | .error _ m => (.exhausted, m)

def evaluate (m : Machine) (source : String) (host : Host := Host.none)
    (bound : Nat := ampleBound) : Outcome (Except ScriptError Value) × Machine :=
  m.run ((engine host bound).evaluateSource source)

def runProgram (m : Machine) (p : Program) (host : Host := Host.none)
    (bound : Nat := ampleBound) : Outcome (Except Abrupt Value) × Machine :=
  m.run (Eval.attempt ((engine host bound).run (.program p)))

/-- What has been written since the last time, and the machine with nothing written. -/
def takeOutput (m : Machine) : String × Machine := (m.output, { m with output := "" })

end Machine

end ProtoScript
