import ProtoScript.Grammar.Statement
/-!
# Programs

The rules tied together, and the reading of whole texts.
-/

namespace ProtoScript

namespace Grammar

def rule (n : Nesting) (c : Context) : (g : Goal) → Parser g.Result
  | .assignment cover => assignment n c cover
  | .binary strength => binary n c strength
  | .power => power n c
  | .unary => unary n c
  | .construct => construct n c
  | .pattern => bindingPattern n c
  | .element => bindingElement n c (bindingPattern n c)
  | .statement chain => statement n c chain
  | .item => item n c

def parse : Nat → (g : Goal) → Context → Parser g.Result
  | 0, _, _ => throw .outOfFuel
  | depth + 1, g, c => rule ⟨depth + 1, parse depth⟩ c g

def nesting (depth : Nat) : Nesting := ⟨depth, parse depth⟩

/-- A bound on nesting and on the length of lists: a text has fewer tokens than this. -/
def depthOf (source : String) : Nat := source.toList.length + 1

end Grammar

/-- Runs a rule on a text.  Without `strict` the text is read in sloppy mode; with it the mode is
set once the first token has been read. -/
def Parser.runOn {α : Type} (rule : Grammar.Nesting → Parser α) (source : String) (strict : Bool) :
    Except SyntaxError (α × TokenStream) :=
  match TokenStream.ofString source with
  | .error e => .error e
  | .ok stream =>
    match rule (Grammar.nesting (Grammar.depthOf source)) { stream with strict := strict } with
    | .ok value stream => .ok (value, stream)
    | .error e _ => .error e

/-- The program that a text is.  With `strict` set it is strict code whatever its directives say. -/
def Program.ofString (source : String) (strict : Bool) : Except SyntaxError Program := do
  let (body, stream) ← Parser.runOn
    (fun n => Grammar.directiveBody n .program none true n.rounds) source strict
  return ⟨body.1, stream.strict⟩

def Expr.ofString (source : String) (strict : Bool) : Except SyntaxError Expr := do
  let (value, _) ← Parser.runOn (fun n => Grammar.expression n .program) source strict
  return value

end ProtoScript
