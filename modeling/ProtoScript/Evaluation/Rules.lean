import ProtoScript.Builtin.Global
import ProtoScript.Builtin.Function
import ProtoScript.Builtin.Object
import ProtoScript.Builtin.Wrapper
import ProtoScript.Evaluation.Activation
import ProtoScript.Evaluation.Expression
/-!
# The rules tied together

What a call does, the rule for each kind of task, and the engines in which the rules carry out their
own tasks.
-/

namespace ProtoScript

namespace Eval

def enterCall : Eval Unit := do
  let m ← get
  if m.settings.maxCallDepth ≤ m.callDepth then fault .callDepth
  else set { m with callDepth := m.callDepth + 1 }

def leaveCall : Eval Unit := modify fun m => { m with callDepth := m.callDepth - 1 }

end Eval

def Native.run (f : Native) (host : Host) (e : Engine) (receiver : Value)
    (arguments : List Value) : Eval Value :=
  match f with
  | .global f => f.run e arguments
  | .object f => f.run e receiver arguments
  | .function f => f.run e receiver arguments
  | .array f => f.run e receiver arguments
  | .string f => f.run e receiver arguments
  | .number f => f.run e receiver arguments
  | .boolean f => f.run receiver arguments
  | .error f => f.run e receiver arguments
  | .harness f => f.run e arguments
  | .host name _ => host name e receiver arguments

namespace Engine

open Eval

def callNative (e : Engine) (target : Option Value) (f : Native) (receiver : Value)
    (arguments : List Value) : Eval Value := do
  setNewTarget target
  let outcome ← attempt (e.run (.native f receiver arguments))
  setNewTarget none
  resume outcome

/-- Calls a value.  The note that `new` left is for this call alone. -/
def callRule (e : Engine) (function receiver : Value) (arguments : List Value) :
    Eval Value := do
  let target ← takeNewTarget
  match ← read fun s => s.callable? function with
  | none => fault (.notFunction (← read fun s => s.typeOf function))
  | some callable =>
    enterCall
    let outcome ← attempt
      (match callable with
      | .native f => e.callNative target f receiver arguments
      | .closure definition scope =>
        e.run (.closure definition scope function receiver arguments))
    leaveCall
    resume outcome

/-- The rule for a task, given an engine for what is nested in it. -/
def rule (host : Host) (e : Engine) : Task → Eval Value
  | .evaluate x scope => e.expression x scope
  | .execute s scope labels => e.statement s scope labels
  | .bind pattern value scope fresh => do
    e.bindPattern pattern value scope fresh
    return .undefined
  | .call function receiver arguments => e.callRule function receiver arguments
  | .closure definition scope function receiver arguments =>
    e.callClosure definition scope function receiver arguments
  | .native f receiver arguments => f.run host e receiver arguments
  | .construct constructor arguments => e.construct constructor arguments
  | .directEval text scope => e.directEval text scope
  | .indirectEval text => e.indirectEval text
  | .program p => e.program p

end Engine

/-- Carries out a task down to a depth of nesting, with at most that many rounds in each loop. -/
def runTask (host : Host) : Nat → Task → Eval Value
  | 0, _ => Eval.exhausted
  | depth + 1, task => Engine.rule host ⟨depth, runTask host depth⟩ task

def engine (host : Host) (depth : Nat) : Engine := ⟨depth, runTask host depth⟩

end ProtoScript
