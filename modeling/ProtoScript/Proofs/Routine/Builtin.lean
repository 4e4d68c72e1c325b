import ProtoScript.Proofs.Routine
import ProtoScript.Evaluation.Rules
/-!
# Native functions are routines

Every native function that is not the host's is a routine.  A native function that can be applied
with `new` begins by taking the note that `new` left, whatever else it does.
-/

namespace ProtoScript

structure Setting.Native (S : Setting) : Prop extends S.Ordinary where
  indirectEval : ∀ text, S.asks (.indirectEval text)
  functionOfText : ∀ {source strict p d rest}, Program.ofString source strict = .ok p →
    p.body = .expression (.function d) :: rest → S.makes d .global

namespace Routine

open Eval

variable {S : Setting}

def Takes (S : Setting) (F : Engine → Eval Value) : Prop :=
  ∃ G : Option Value → Engine → Eval Value,
    (∀ e, F e = Eval.takeNewTarget >>= fun target => G target e) ∧ ∀ target, Routine S (G target)

theorem Takes.routine {F : Engine → Eval Value} (h : Takes S F) : Routine S F := by
  obtain ⟨G, hF, hG⟩ := h
  rw [funext hF]
  exact .bind .takeNewTarget hG

/-! ### Arrays -/

theorem pushAll (hS : S.Ordinary) (o : Value) (i : Nat) (values : List Value) :
    Routine S fun _ => Engine.pushAll o i values := by
  induction values generalizing i with
  | nil => exact .pure i
  | cons value rest ih => exact .bind (.setMember hS o _ value true) fun _ => ih (i + 1)

theorem push (hS : S.Ordinary) (receiver : Value) (values : List Value) :
    Routine S fun e => e.push receiver values := by
  refine .bind (.toObject hS receiver) fun o => .bind (.lengthOf hS o) fun length => ?_
  refine .bind (.pushAll hS o length values) fun length => ?_
  exact .bind (.setMember hS o "length" _ true) fun _ => .pure _

theorem pop (hS : S.Ordinary) (receiver : Value) : Routine S fun e => e.pop receiver := by
  refine .bind (.toObject hS receiver) fun o => .bind (.lengthOf hS o) fun length => ?_
  refine .ite (fun _ => .bind (.setMember hS o "length" _ true) fun _ => .pure _) fun _ => ?_
  refine .bind (.getMember hS o _) fun element => ?_
  have hrest : Routine S fun _ => (do
      Eval.setMember o "length" (.ofNat (length - 1)) true
      return element : Eval Value) :=
    .bind (.setMember hS o "length" _ true) fun _ => .pure element
  cases o with
  | object id => exact .bind (.updateGet _ fun s => hS.delete s id _) fun _ => hrest
  | _ => exact hrest

theorem joinFrom (hS : S.Ordinary) (o : Value) (separator : Text) (i count : Nat) (text : Text) :
    Routine S fun e => e.joinFrom o separator i count text := by
  induction count generalizing i text with
  | zero => exact .pure text
  | succ count ih =>
    refine .bind (.getMember hS o _) fun element => ?_
    refine .ite (fun _ => .bind (.pure _) fun part => ih (i + 1) _) fun _ => ?_
    exact .bind (.toText hS element) fun part => ih (i + 1) _

theorem join (hS : S.Ordinary) (receiver separator : Value) :
    Routine S fun e => e.join receiver separator := by
  refine .bind (.toObject hS receiver) fun o => .bind (.lengthOf hS o) fun length => ?_
  have hrest (separator : Text) : Routine S fun e => (do
      return .string (← e.joinFrom o separator 0 length .empty) : Eval Value) :=
    .bind (.joinFrom hS o separator 0 length .empty) fun _ => .pure _
  refine .ite (fun _ => .bind (.pure _) hrest) fun _ => ?_
  exact .bind (.toText hS separator) hrest

theorem searchFrom (hS : S.Ordinary) (o target : Value) (count : Nat) (position : Float) :
    Routine S fun _ => Engine.searchFrom o target count position := by
  induction count generalizing position with
  | zero => exact .pure _
  | succ count ih =>
    refine .bind (.read _) fun present => .bind (.getMember hS o _) fun element => ?_
    exact .ite (fun _ => .pure _) fun _ => ih _

theorem indexOf (hS : S.Ordinary) (receiver target start : Value) :
    Routine S fun e => e.indexOf receiver target start := by
  refine .bind (.toObject hS receiver) fun o => .bind (.lengthOf hS o) fun length => ?_
  exact .bind (.position hS start) fun start => .searchFrom hS o target _ _

theorem takes_arrayConstructor (hS : S.Ordinary) (receiver : Value) (arguments : List Value) :
    Takes S fun e => ArrayNative.run .constructor e receiver arguments := by
  refine ⟨_, fun e => rfl, fun target => ?_⟩
  split
  · split
    · exact .newArray hS _
    · exact .fault hS _
  · exact .newFullArray hS arguments

theorem arrayNative (hS : S.Ordinary) (f : ArrayNative) (receiver : Value)
    (arguments : List Value) : Routine S fun e => f.run e receiver arguments := by
  cases f with
  | constructor => exact (takes_arrayConstructor hS receiver arguments).routine
  | isArray => exact .bind (.read _) fun _ => .pure _
  | push => exact .push hS receiver arguments
  | pop => exact .pop hS receiver
  | join => exact .join hS receiver _
  | toString => exact .join hS receiver _
  | indexOf => exact .indexOf hS receiver _ _

/-! ### Errors -/

theorem errorPart (hS : S.Ordinary) (error : Value) (key fallback : String) :
    Routine S fun e => e.errorPart error key fallback := by
  refine .bind (.getMember hS error key) fun part => ?_
  exact .ite (fun _ => .pure _) fun _ => .toUnicode hS part

theorem takes_errorConstructor (hS : S.Ordinary) (kind : ErrorKind) (receiver : Value)
    (arguments : List Value) :
    Takes S fun e => ErrorNative.run (.constructor kind) e receiver arguments := by
  refine ⟨_, fun e => rfl, fun target => ?_⟩
  refine .ite (fun _ => .allocate hS ⟨rfl, nofun, nofun⟩) fun _ => ?_
  exact .bind (.toUnicode hS _) fun message => .allocate hS ⟨rfl, nofun, nofun⟩

theorem errorNative (hS : S.Ordinary) (f : ErrorNative) (receiver : Value)
    (arguments : List Value) : Routine S fun e => f.run e receiver arguments := by
  cases f with
  | constructor kind => exact (takes_errorConstructor hS kind receiver arguments).routine
  | toString =>
    refine .ite (fun _ => .fault hS _) fun _ => .bind (.errorPart hS receiver _ _) fun name => ?_
    exact .bind (.errorPart hS receiver _ _) fun message => .pure _

/-! ### Functions -/

theorem unicodeTexts (hS : S.Ordinary) (values : List Value) :
    Routine S fun e => e.unicodeTexts values := by
  induction values with
  | nil => exact .pure _
  | cons v rest ih => exact .bind (.toUnicode hS v) fun _ => .bind ih fun _ => .pure _

theorem functionOfText (hS : S.Native) (parameters : List String) (body : String) :
    Routine S fun _ => Engine.functionOfText parameters body := by
  unfold Engine.functionOfText
  split
  · exact .fault hS.toOrdinary _
  · rename_i p hp
    split
    · rename_i d rest hbody
      exact .closure d .global (hS.functionOfText hp hbody)
    · exact .fault hS.toOrdinary _

theorem takes_functionConstructor (hS : S.Native) (receiver : Value) (arguments : List Value) :
    Takes S fun e => FunctionNative.run .constructor e receiver arguments := by
  refine ⟨_, fun e => rfl, fun target => ?_⟩
  exact .bind (.unicodeTexts hS.toOrdinary arguments) fun texts => .functionOfText hS _ _

theorem functionNative (hS : S.Native) (f : FunctionNative) (receiver : Value)
    (arguments : List Value) : Routine S fun e => f.run e receiver arguments := by
  have hO : S.Ordinary := hS.toOrdinary
  cases f with
  | prototype => exact .pure _
  | constructor => exact (takes_functionConstructor hS receiver arguments).routine
  | call =>
    refine .bind (.read _) fun callable => ?_
    exact .ite (fun _ => .call hO receiver _ _) fun _ => .fault hO _
  | apply =>
    refine .bind (.read _) fun callable => .ite (fun _ => ?_) fun _ => .fault hO _
    refine .ite (fun _ => .call hO receiver _ _) fun _ => .ite (fun _ => ?_) fun _ => .fault hO _
    exact .bind (.elementsOf hO _) fun values => .call hO receiver _ values
  | toString =>
    refine .bind (.read _) fun callable => .ite (fun _ => ?_) fun _ => .fault hO _
    exact .bind (.getMember hO receiver "name") fun name => .pure _

/-! ### Global functions and the harness -/

theorem globalNative (hS : S.Native) (f : GlobalNative) (arguments : List Value) :
    Routine S fun e => f.run e arguments := by
  have hO : S.Ordinary := hS.toOrdinary
  cases f with
  | eval => exact .task _ (hS.indirectEval _)
  | isNaN => exact .bind (.toNumber hO _) fun _ => .pure _
  | parseInt => exact .bind (.toUnicode hO _) fun _ => .bind (.toNumber hO _) fun _ => .pure _
  | parseFloat => exact .bind (.toUnicode hO _) fun _ => .pure _

theorem assert (hS : S.Ordinary) (a : Engine.Assertion) :
    Routine S fun _ => Engine.assert a := by
  refine .ite (fun _ => .pure _) fun _ => .bind (.read _) fun actual => ?_
  exact .bind (.read _) fun expected => .bind (.read _) fun note => .fault hS _

theorem assertThrows (hS : S.Ordinary) (constructor function : Value) (arguments : List Value) :
    Routine S fun e => e.assertThrows constructor function arguments := by
  refine .bind (.attempt (.call hS function _ arguments)) fun outcome => ?_
  match outcome with
  | .error (.thrown exception) =>
    refine .bind (.instanceOf hS exception constructor) fun isInstance => ?_
    exact .ite (fun _ => .pure _) fun _ => .bind (.read _) fun _ => .fault hS _
  | .ok value => exact .fault hS _
  | .error (.returned value) => exact .fault hS _
  | .error (.broke label) => exact .fault hS _
  | .error (.continued label) => exact .fault hS _

theorem harnessNative (hS : S.Ordinary) (f : HarnessNative) (arguments : List Value) :
    Routine S fun e => f.run e arguments := by
  cases f with
  | assert => exact .assert hS _
  | assertThrows => exact .assertThrows hS _ _ _
  | println => exact .bind (.read _) fun texts => .bind (.writeLine _) fun _ => .pure _

/-! ### Objects -/

theorem setPrototypeOf (hS : S.Ordinary) (target prototype : Value) :
    Routine S fun _ => Engine.setPrototypeOf target prototype := by
  refine .ite (fun _ => .fault hS _) fun _ => .ite (fun _ => .fault hS _) fun _ => ?_
  cases target with
  | object id =>
    refine .bind (.read _) fun cyclic => .ite (fun _ => .fault hS _) fun _ => ?_
    refine .bind (.update _ fun s => ?_) fun _ => .pure _
    exact hS.link s id prototype.objectId?
  | _ => exact .pure _

theorem defineProperty (hS : S.Ordinary) {target : Value}
    (hdefine : ∀ id, target = .object id → ∀ (s : Store) key p, S.step s (s.define id key p).2)
    (key attributes : Value) : Routine S fun e => e.defineProperty target key attributes := by
  cases target with
  | object id =>
    refine .bind (.toUnicode hS key) fun key => ?_
    cases attributes with
    | object attributes =>
      refine .bind (.updateGet _ fun s => hdefine id rfl s key _) fun admitted => ?_
      exact .ite (fun _ => .pure _) fun _ => .fault hS _
    | _ => exact .fault hS _
  | _ => exact .fault hS _

theorem classWord (v : Value) : Routine S fun _ => Engine.classWord v := by
  cases v with
  | object id =>
    exact .read fun s => ((s.object? id).map fun r => r.objectClass.name).getD "Object"
  | _ => exact .pure _

theorem takes_objectConstructor (hS : S.Ordinary) (receiver : Value) (arguments : List Value) :
    Takes S fun e => ObjectNative.run .constructor e receiver arguments := by
  refine ⟨_, fun e => rfl, fun target => ?_⟩
  exact .ite (fun _ => .allocate hS ⟨rfl, nofun, nofun⟩) fun _ => .toObject hS _

theorem objectNative (hS : S.Ordinary) (f : ObjectNative) (receiver : Value)
    {arguments : List Value} (hdefine : f = .defineProperty → ∀ id,
      Value.argument arguments 0 = .object id →
        ∀ (s : Store) key p, S.step s (s.define id key p).2) :
    Routine S fun e => f.run e receiver arguments := by
  cases f with
  | constructor => exact (takes_objectConstructor hS receiver arguments).routine
  | getPrototypeOf =>
    refine .bind (.toObject hS _) fun o => ?_
    cases o with
    | object id => exact .bind (.read _) fun _ => .pure _
    | _ => exact .pure _
  | setPrototypeOf => exact .setPrototypeOf hS _ _
  | create =>
    refine .ite (fun _ => .allocate hS ⟨rfl, nofun, nofun⟩) fun _ => .fault hS _
  | defineProperty => exact .defineProperty hS (hdefine rfl) _ _
  | keys =>
    refine .bind (.toObject hS _) fun o => ?_
    cases o with
    | object id => exact .bind (.read _) fun keys => .newFullArray hS _
    | _ => exact .newFullArray hS _
  | hasOwnProperty =>
    refine .bind (.toUnicode hS _) fun key => .bind (.toObject hS receiver) fun o => ?_
    cases o with
    | object id => exact .bind (.read _) fun _ => .pure _
    | _ => exact .pure _
  | toString => exact .bind (.classWord receiver) fun _ => .pure _
  | valueOf => exact .toObject hS receiver

/-! ### Strings, numbers and booleans -/

theorem primitiveOf (hS : S.Ordinary) (receiver : Value) (wanted : ObjectClass)
    (method : String) : Routine S fun _ => Engine.primitiveOf receiver wanted method := by
  refine .bind (.read _) fun found => ?_
  cases found with
  | some v => exact .pure v
  | none => exact .fault hS _

theorem wrapIf (hS : S.Ordinary) (constructing : Bool) (v : Value) :
    Routine S fun _ => Engine.wrapIf constructing v :=
  .ite (fun _ => .allocate hS ⟨rfl, nofun, nofun⟩) fun _ => .pure v

theorem receiverText (hS : S.Ordinary) (receiver : Value) (method : String) :
    Routine S fun e => e.receiverText receiver method :=
  .ite (fun _ => .fault hS _) fun _ => .toText hS receiver

theorem numberText (hS : S.Ordinary) (x : Float) (radix : Value) :
    Routine S fun e => e.numberText x radix := by
  have hrest (radix : Float) : Routine S fun _ => (
      if radix < 2 || 36 < radix then Eval.fault .radix
      else if radix == 10 || !x.isFinite || x == 0 then return .ofString (Number.display x)
      else return .ofString (String.ofList (Number.inRadix x (Number.toIndex radix))) :
      Eval Value) :=
    .ite (fun _ => .fault hS _) fun _ => .ite (fun _ => .pure _) fun _ => .pure _
  exact .ite (fun _ => .bind (.pure _) hrest) fun _ => .bind (.position hS radix) hrest

theorem takes_stringConstructor (hS : S.Ordinary) (receiver : Value) (arguments : List Value) :
    Takes S fun e => StringNative.run .constructor e receiver arguments := by
  refine ⟨_, fun e => rfl, fun target => ?_⟩
  cases arguments with
  | nil => exact .wrapIf hS _ _
  | cons v rest => exact .bind (.toText hS v) fun text => .wrapIf hS _ _

theorem stringNative (hS : S.Ordinary) (f : StringNative) (receiver : Value)
    (arguments : List Value) : Routine S fun e => f.run e receiver arguments := by
  cases f with
  | constructor => exact (takes_stringConstructor hS receiver arguments).routine
  | charAt =>
    refine .bind (.receiverText hS receiver _) fun text => .bind (.position hS _) fun i => ?_
    exact .ite (fun _ => .pure _) fun _ => .pure _
  | charCodeAt =>
    refine .bind (.receiverText hS receiver _) fun text => .bind (.position hS _) fun i => ?_
    split <;> exact .pure _
  | indexOf =>
    refine .bind (.receiverText hS receiver _) fun text => .bind (.toText hS _) fun sought => ?_
    refine .bind (.position hS _) fun i => ?_
    dsimp only
    split <;> exact .pure _
  | slice =>
    refine .bind (.receiverText hS receiver _) fun text => .bind (.position hS _) fun start => ?_
    refine .ite (fun _ => .pure _) fun _ => ?_
    exact .bind (.position hS _) fun stop => .pure _
  | toString => exact .primitiveOf hS receiver _ _
  | valueOf => exact .primitiveOf hS receiver _ _

theorem takes_numberConstructor (hS : S.Ordinary) (receiver : Value) (arguments : List Value) :
    Takes S fun e => NumberNative.run .constructor e receiver arguments := by
  refine ⟨_, fun e => rfl, fun target => ?_⟩
  cases arguments with
  | nil => exact .wrapIf hS _ _
  | cons v rest => exact .bind (.toNumber hS v) fun x => .wrapIf hS _ _

theorem numberNative (hS : S.Ordinary) (f : NumberNative) (receiver : Value)
    (arguments : List Value) : Routine S fun e => f.run e receiver arguments := by
  cases f with
  | constructor => exact (takes_numberConstructor hS receiver arguments).routine
  | toString => exact .bind (.primitiveOf hS receiver _ _) fun v => .numberText hS _ _
  | valueOf => exact .primitiveOf hS receiver _ _

theorem takes_booleanConstructor (hS : S.Ordinary) (receiver : Value) (arguments : List Value) :
    Takes S fun _ => BooleanNative.run .constructor receiver arguments :=
  ⟨_, fun _ => rfl, fun _ => .wrapIf hS _ _⟩

theorem booleanNative (hS : S.Ordinary) (f : BooleanNative) (receiver : Value)
    (arguments : List Value) : Routine S fun _ => f.run receiver arguments := by
  cases f with
  | constructor => exact (takes_booleanConstructor hS receiver arguments).routine
  | valueOf => exact .primitiveOf hS receiver _ _
  | toString => exact .bind (.primitiveOf hS receiver _ _) fun v => .pure _

/-! ### All of them -/

theorem native (hS : S.Native) {host : Host}
    (hhost : ∀ name receiver arguments, Routine S fun e => host name e receiver arguments)
    (f : Native) (receiver : Value) {arguments : List Value}
    (hdefine : f = .object .defineProperty → ∀ id, Value.argument arguments 0 = .object id →
      ∀ (s : Store) key p, S.step s (s.define id key p).2) :
    Routine S fun e => f.run host e receiver arguments := by
  have hO : S.Ordinary := hS.toOrdinary
  cases f with
  | global f => exact .globalNative hS f arguments
  | object f => exact .objectNative hO f receiver fun heq => hdefine (congrArg Native.object heq)
  | function f => exact .functionNative hS f receiver arguments
  | array f => exact .arrayNative hO f receiver arguments
  | string f => exact .stringNative hO f receiver arguments
  | number f => exact .numberNative hO f receiver arguments
  | boolean f => exact .booleanNative hO f receiver arguments
  | error f => exact .errorNative hO f receiver arguments
  | harness f => exact .harnessNative hO f arguments
  | host name arity => exact hhost name receiver arguments

/-- A native function that can be applied with `new` begins by taking the note of `new`. -/
theorem takes_of_isConstructor (hS : S.Native) (host : Host) {f : Native}
    (h : f.isConstructor = true) (receiver : Value) (arguments : List Value) :
    Takes S fun e => f.run host e receiver arguments := by
  have hO : S.Ordinary := hS.toOrdinary
  unfold Native.isConstructor at h
  split at h
  · exact takes_objectConstructor hO receiver arguments
  · exact takes_functionConstructor hS receiver arguments
  · exact takes_arrayConstructor hO receiver arguments
  · exact takes_stringConstructor hO receiver arguments
  · exact takes_numberConstructor hO receiver arguments
  · exact takes_booleanConstructor hO receiver arguments
  · exact takes_errorConstructor hO _ receiver arguments
  · cases h

end Routine

end ProtoScript
