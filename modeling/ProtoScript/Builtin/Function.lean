import ProtoScript.Builtin.Array
import ProtoScript.Evaluation.Reference
import ProtoScript.Grammar.Program
/-!
# Functions of functions

Calling functions with a given receiver, making them from texts, and the text of a function.
-/

namespace ProtoScript

namespace Engine

open Eval Value

def unicodeTexts (e : Engine) : List Value → Eval (List String)
  | [] => return []
  | v :: rest => do
    let text ← e.toUnicode v
    return text :: (← e.unicodeTexts rest)

def functionSource (parameters : List String) (body : String) : String :=
  "(function anonymous(" ++ ",".intercalate parameters ++ "\n) \x7b\n" ++ body ++ "\n\x7d)"

/-- Makes a function in the global scope from the texts of its parameters and its body. -/
def functionOfText (parameters : List String) (body : String) : Eval Value :=
  match Program.ofString (functionSource parameters body) false with
  | .error error => fault (.syntaxFault error.message)
  | .ok p =>
    match p.body with
    | .expression (.function definition) :: _ => newClosure definition .global
    | _ => fault .invalidFunctionBody

end Engine

open Eval Value

def FunctionNative.run (f : FunctionNative) (e : Engine) (receiver : Value)
    (arguments : List Value) : Eval Value := do
  match f with
  | .prototype => return .undefined
  | .constructor =>
    let _ ← takeNewTarget
    let texts ← e.unicodeTexts arguments
    Engine.functionOfText texts.dropLast (texts.getLast?.getD "")
  | .call =>
    if ← read fun s => s.isCallable receiver then
      e.call receiver (argument arguments 0) arguments.tail
    else fault (.receiverNotFunction "call")
  | .apply =>
    if ← read fun s => s.isCallable receiver then
      let list := argument arguments 1
      if list.isNullish then e.call receiver (argument arguments 0) []
      else if list.isObject then
        let values ← e.elementsOf list
        e.call receiver (argument arguments 0) values
      else fault .argumentsNotObject
    else fault (.receiverNotFunction "apply")
  | .toString =>
    if ← read fun s => s.isCallable receiver then
      let name ← getMember receiver "name"
      return .ofString ("function " ++ name.toString ++ "() \x7b [native code] \x7d")
    else fault .textOfNonFunction

end ProtoScript
