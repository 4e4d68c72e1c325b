import ProtoScript.Evaluation.Engine
import ProtoScript.Number.Radix
import ProtoScript.Evaluation.Operator
/-!
# Global functions, errors and the harness

What native functions find among their arguments, and those of them that are no methods of objects
or wrappers.
-/

namespace ProtoScript

open Eval Value

/-!
### Arguments of native functions

What a native function finds at a place among its arguments.
-/

/-- The argument at a place; `undefined` if there are not that many. -/
def Value.argument (arguments : List Value) (i : Nat) : Value := arguments.getD i .undefined

/-- The integer that an argument stands for; zero if it is missing. -/
def Engine.position (e : Engine) (v : Value) : Eval Float := do
  if v.isUndefined then return 0
  else return Number.toIntegerOrInfinity (← e.toNumber v)

/-!
### Functions of errors

The constructors of errors and the text of an error.
-/

namespace Engine

/-- A text property of an error, with what stands for it if it is `undefined`. -/
def errorPart (e : Engine) (error : Value) (key fallback : String) : Eval String := do
  let part ← getMember error key
  if part.isUndefined then return fallback else e.toUnicode part

/-- The text of an error: its name and its message, with a colon between them if there are both. -/
def errorText (name message : String) : String :=
  if message.isEmpty then name
  else if name.isEmpty then message
  else name ++ ": " ++ message

end Engine

/-- Runs a function of errors.  An error that is made without a message has no property for one. -/
def ErrorNative.run (f : ErrorNative) (e : Engine) (receiver : Value) (arguments : List Value) :
    Eval Value := do
  match f with
  | .constructor kind =>
    let _ ← takeNewTarget
    let message := argument arguments 0
    if message.isUndefined then allocate { ObjectRecord.error kind "" with slots := .empty }
    else
      let message ← e.toUnicode message
      allocate (.error kind message)
  | .toString =>
    if !receiver.isObject then fault .textOfNonError
    else
      let name ← e.errorPart receiver "name" "Error"
      let message ← e.errorPart receiver "message" ""
      return .ofString (Engine.errorText name message)

/-!
### Global functions

`eval` and the functions that read numbers.
-/

def GlobalNative.run (f : GlobalNative) (e : Engine) (arguments : List Value) : Eval Value := do
  match f with
  | .eval => e.run (.indirectEval (argument arguments 0))
  | .isNaN => return .boolean (← e.toNumber (argument arguments 0)).isNaN
  | .parseInt =>
    let text ← e.toUnicode (argument arguments 0)
    let radix ← e.toNumber (argument arguments 1)
    return .number (Number.parseInt text.toList radix)
  | .parseFloat =>
    let text ← e.toUnicode (argument arguments 0)
    return .number (Number.parseFloat text.toList)

/-!
### Functions of the harness

Assertions, which throw an error unless they hold, and the writing of lines.
-/

namespace Engine

/-- What an assertion compares: the actual and the expected value, whether they agree, and a note.
A boolean with a text, or a value alone, is expected to be true; a boolean is then expected
outright. -/
structure Assertion where
  actual : Value
  expected : Value
  holds : Bool
  note : Option Value

def Assertion.of : List Value → Assertion
  | [] => ⟨.undefined, .boolean true, false, none⟩
  | [actual] => ⟨actual, .boolean true, actual.toBoolean, none⟩
  | [actual, second] =>
    if actual.isBoolean && second.isString then
      ⟨actual, .boolean true, actual.toBoolean, some second⟩
    else ⟨actual, second, actual.same second, none⟩
  | actual :: expected :: note :: _ => ⟨actual, expected, actual.same expected, some note⟩

def assert (a : Assertion) : Eval Value := do
  if a.holds then return .undefined
  else
    let actual ← read fun s => s.display a.actual
    let expected ← read fun s => s.display a.expected
    let note ← read fun s => a.note.map s.display
    fault (.assertion actual expected note)

/-- Throws an error unless a call throws an instance of a constructor. -/
def assertThrows (e : Engine) (constructor function : Value) (arguments : List Value) :
    Eval Value := do
  match ← attempt (e.call function .undefined arguments) with
  | .error (.thrown exception) =>
    if ← instanceOf exception constructor then return .undefined
    else fault (.wrongException (← read fun s => s.display exception))
  | _ => fault .noException

end Engine

def HarnessNative.run (f : HarnessNative) (e : Engine) (arguments : List Value) : Eval Value := do
  match f with
  | .assert => Engine.assert (.of arguments)
  | .assertThrows =>
    e.assertThrows (argument arguments 0) (argument arguments 1) (arguments.drop 2)
  | .println =>
    let texts ← read fun s => arguments.map s.display
    writeLine (" ".intercalate texts)
    return .undefined

end ProtoScript
