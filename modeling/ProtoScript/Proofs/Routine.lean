import ProtoScript.Builtin.Array
import ProtoScript.Evaluation.Expression
import ProtoScript.Proofs.StoreGrowth
import ProtoScript.Proofs.Supervision
/-!
# Evaluation as routines

What a routine is, and the operations on values as routines.
-/

namespace ProtoScript

/-!
### Routines

Most of evaluation is put together from a few operations: it looks at the machine, takes small steps
on the store, hands tasks to the engine, and completes abruptly.  A routine is a computation that
does nothing else.  A setting says which tasks, steps and completions it may use; whatever the
setting's operations keep, all its routines keep.
-/

structure Setting where
  /-- The tasks that they may hand to the engine. -/
  asks : Task → Prop
  /-- Whether they may apply constructors. -/
  constructs : Prop
  /-- How they may complete abruptly. -/
  ends : Abrupt → Prop
  /-- The closures that they may make. -/
  makes : FunctionDef → ScopeId → Prop
  /-- The steps that they may take on the store. -/
  step : Store → Store → Prop

/-- Computations that only use what a setting allows. -/
inductive Routine (S : Setting) : {α : Type} → (Engine → Eval α) → Prop
  | pure {α : Type} (a : α) : Routine S fun _ => pure a
  | bind {α β : Type} {F : Engine → Eval α} {G : α → Engine → Eval β} (first : Routine S F)
      (rest : ∀ a, Routine S (G a)) : Routine S fun e => F e >>= fun a => G a e
  | get : Routine S fun _ => (MonadState.get : Eval Machine)
  | read {α : Type} (f : Store → α) : Routine S fun _ => Eval.read f
  | updateGet {α : Type} (f : Store → α × Store) (step : ∀ s, S.step s (f s).2) :
      Routine S fun _ => Eval.updateGet f
  | update (f : Store → Store) (step : ∀ s, S.step s (f s)) : Routine S fun _ => Eval.update f
  | writeLine (line : String) : Routine S fun _ => Eval.writeLine line
  | takeNewTarget : Routine S fun _ => Eval.takeNewTarget
  | complete {α : Type} (c : Abrupt) (ends : S.ends c) :
      Routine S fun _ => (Eval.complete c : Eval α)
  | exhausted {α : Type} : Routine S fun _ => (Eval.exhausted : Eval α)
  | attempt {α : Type} {F : Engine → Eval α} (tried : Routine S F) :
      Routine S fun e => Eval.attempt (F e)
  | rounds {α : Type} {F : Nat → Engine → Eval α} (loop : ∀ n, Routine S (F n)) :
      Routine S fun e => F e.rounds e
  | task (task : Task) (asks : S.asks task) : Routine S fun e => e.run task
  | closure (d : FunctionDef) (scope : ScopeId) (makes : S.makes d scope) :
      Routine S fun _ => Eval.newClosure d scope
  | construct (function : Value) (arguments : List Value) (description : String)
      (constructs : S.constructs) :
      Routine S fun e => e.constructWith function arguments description

structure Setting.Fits (S : Setting) (E : Engines) (I : Machine → Prop) (may : Abrupt → Prop) :
    Prop where
  step : ∀ m s, I m → S.step m.store s → I { m with store := s }
  output : ∀ m output, I m → I { m with output }
  newTarget : ∀ m, I m → I { m with newTarget := none }
  ends : ∀ c, S.ends c → may c
  task : ∀ task, S.asks task → E.Keeps I may fun e => e.run task
  closure : ∀ d scope, S.makes d scope → E.Keeps I may fun _ => Eval.newClosure d scope
  construct : ∀ function arguments description, S.constructs →
    E.Keeps I may fun e => e.constructWith function arguments description

open Engines

/-- A routine does the same with both engines and keeps what its setting's operations keep. -/
theorem Routine.keeps {S : Setting} {E : Engines} {I : Machine → Prop} {may : Abrupt → Prop}
    (hfits : S.Fits E I may) {α : Type} {F : Engine → Eval α} (h : Routine S F) :
    E.Keeps I may F := by
  induction h with
  | pure a => exact .pure
  | bind _ _ ihF ihG => exact .bind ihF ihG
  | get => exact Gives.get.keeps
  | read f => exact Gives.read.keeps
  | updateGet f step => exact .updateGet fun m hm => hfits.step m _ hm (step m.store)
  | update f step => exact .update fun m hm => hfits.step m _ hm (step m.store)
  | writeLine line => exact fun m hm => ⟨rfl, hfits.output m _ hm, trivial⟩
  | takeNewTarget => exact fun m hm => ⟨rfl, hfits.newTarget m hm, trivial⟩
  | complete c ends => exact .complete (hfits.ends c ends)
  | exhausted => exact .exhausted
  | attempt _ ih => exact (Gives.attempt ih).keeps
  | rounds _ ih => exact .rounds ih
  | task task asks => exact hfits.task task asks
  | closure d scope makes => exact hfits.closure d scope makes
  | construct function arguments description constructs =>
    exact hfits.construct function arguments description constructs

/-- A computation that uses no engine keeps what it keeps with any other engines. -/
theorem Engines.Keeps.of_const {E E' : Engines} {I : Machine → Prop} {may : Abrupt → Prop}
    {α : Type} {x : Eval α} (h : E.Keeps I may fun _ => x) : E'.Keeps I may fun _ => x :=
  fun m hm => ⟨rfl, (h m hm).2⟩

theorem Routine.mono {S T : Setting} (hasks : ∀ task, S.asks task → T.asks task)
    (hconstructs : S.constructs → T.constructs) (hends : ∀ c, S.ends c → T.ends c)
    (hmakes : ∀ d scope, S.makes d scope → T.makes d scope)
    (hstep : ∀ s s', S.step s s' → T.step s s') {α : Type} {F : Engine → Eval α}
    (h : Routine S F) : Routine T F := by
  induction h with
  | pure a => exact .pure a
  | bind _ _ ihF ihG => exact .bind ihF ihG
  | get => exact .get
  | read f => exact .read f
  | updateGet f step => exact .updateGet f fun s => hstep _ _ (step s)
  | update f step => exact .update f fun s => hstep _ _ (step s)
  | writeLine line => exact .writeLine line
  | takeNewTarget => exact .takeNewTarget
  | complete c ends => exact .complete c (hends c ends)
  | exhausted => exact .exhausted
  | attempt _ ih => exact .attempt ih
  | rounds _ ih => exact .rounds ih
  | task task asks => exact .task task (hasks task asks)
  | closure d scope makes => exact .closure d scope (hmakes d scope makes)
  | construct function arguments description constructs =>
    exact .construct function arguments description (hconstructs constructs)

/-- A record of the kind that operations on values make: it shares nothing and runs no closure, and
it has elements only as a new array. -/
structure ObjectRecord.IsSimple (r : ObjectRecord) : Prop where
  unshared : r.sharedParameters = .empty
  inert : ∀ d scope, r.callable ≠ some (.closure d scope)
  array : ∀ elements, r.elements = some elements → r = .array elements

theorem ObjectRecord.IsSimple.array_new (elements : Array (Option Value)) :
    (ObjectRecord.array elements).IsSimple :=
  ⟨rfl, nofun, fun _ h => by cases h; rfl⟩

structure Setting.Ordinary (S : Setting) : Prop where
  allocate : ∀ (s : Store) (r : ObjectRecord), r.IsSimple → S.step s (s.allocate r).2
  set : ∀ (s : Store) id key value, S.step s (s.set id key value).2
  delete : ∀ (s : Store) id key, S.step s (s.delete id key).2
  link : ∀ (s : Store) id prototype, S.step s (s.setPrototype id prototype)
  throws : ∀ exception, S.ends (.thrown exception)
  calls : ∀ function receiver arguments, S.asks (.call function receiver arguments)

structure Setting.Assigns (S : Setting) (scope : ScopeId) : Prop extends S.Ordinary where
  assign : ∀ (s : Store) name value, S.step s (s.assign scope name value).2
  bindGlobal : ∀ (s : Store) name value, S.step s (s.bind .global name value)

structure Setting.Growing (S : Setting) : Prop where
  grows : ∀ {s s' : Store}, s.Grows s' → S.step s s'
  throws : ∀ exception, S.ends (.thrown exception)
  calls : ∀ function receiver arguments, S.asks (.call function receiver arguments)

theorem Setting.Growing.ordinary {S : Setting} (hS : S.Growing) : S.Ordinary where
  allocate s _ h := hS.grows (s.grows_allocate h.inert)
  set s id key value := hS.grows (s.grows_set id key value)
  delete s id key := hS.grows (s.grows_delete id key)
  link s id prototype := hS.grows (s.grows_setPrototype id prototype)
  throws := hS.throws
  calls := hS.calls

theorem Setting.Growing.assigns {S : Setting} (hS : S.Growing) (scope : ScopeId) :
    S.Assigns scope where
  toOrdinary := hS.ordinary
  assign s name value := hS.grows (s.grows_assign scope name value)
  bindGlobal s name value := hS.grows (s.grows_bind .global name value)

namespace Routine

variable {S : Setting} {α : Type}

theorem ite {c : Prop} [Decidable c] {F G : Engine → Eval α} (hF : c → Routine S F)
    (hG : ¬ c → Routine S G) : Routine S fun e => if c then F e else G e := by
  by_cases h : c
  · simpa only [h, if_true] using hF h
  · simpa only [h, if_false] using hG h

theorem resume {o : Except Abrupt α} (h : ∀ c, o = .error c → S.ends c) :
    Routine S fun _ => Eval.resume o := by
  cases o with
  | ok value => exact .pure value
  | error c => exact .complete c (h c rfl)

theorem allocate (hS : S.Ordinary) {r : ObjectRecord} (h : r.IsSimple) :
    Routine S fun _ => Eval.allocate r :=
  .updateGet _ fun s => hS.allocate s r h

theorem fault (hS : S.Ordinary) (f : Fault) : Routine S fun _ => (Eval.fault f : Eval α) := by
  refine .bind (.allocate hS ⟨rfl, nofun, nofun⟩) fun error => ?_
  exact .complete _ (hS.throws error)

theorem newArray (hS : S.Ordinary) (elements : Array (Option Value)) :
    Routine S fun _ => Eval.newArray elements :=
  .allocate hS (.array_new elements)

theorem newFullArray (hS : S.Ordinary) (values : List Value) :
    Routine S fun _ => Eval.newFullArray values :=
  .newArray hS _

end Routine

/-!
### Operations on values are routines

Conversions, references, operators and the reading of properties, in any setting that allows growing
the store, throwing and calling.
-/

namespace Routine

open Eval

variable {S : Setting}

/-! ### Conversion -/

theorem getMember (hS : S.Ordinary) (base : Value) (key : String) :
    Routine S fun _ => Eval.getMember base key := by
  cases base with
  | undefined => exact .fault hS _
  | null => exact .fault hS _
  | object id => exact .read fun s => s.get id key
  | boolean b => exact .read fun s => s.getOfPrimitive (.boolean b) key
  | number x => exact .read fun s => s.getOfPrimitive (.number x) key
  | string t => exact .read fun s => s.getOfPrimitive (.string t) key

theorem setMember (hS : S.Ordinary) (base : Value) (key : String) (value : Value)
    (strict : Bool) : Routine S fun _ => Eval.setMember base key value strict := by
  have hprimitive : Routine S fun _ => (do
      if strict then Eval.fault (.propertyOnPrimitive key (← Eval.read fun s => s.typeOf base)) :
      Eval Unit) :=
    .ite (fun _ => .bind (.read _) fun _ => .fault hS _) fun _ => .pure ()
  cases base with
  | undefined => exact .fault hS _
  | null => exact .fault hS _
  | object id =>
    refine .bind (.updateGet _ fun s => hS.set s id key value) fun stored => ?_
    exact .ite (fun _ => .fault hS _) fun _ => .pure ()
  | boolean b => exact hprimitive
  | number x => exact hprimitive
  | string t => exact hprimitive

theorem toObject (hS : S.Ordinary) (v : Value) : Routine S fun _ => Eval.toObject v := by
  have hwrapper : Routine S fun _ => Eval.allocate (.wrapper v) :=
    .allocate hS ⟨rfl, nofun, nofun⟩
  cases v with
  | undefined => exact .fault hS _
  | null => exact .fault hS _
  | object id => exact .pure _
  | boolean b => exact hwrapper
  | number x => exact hwrapper
  | string t => exact hwrapper

theorem call (hS : S.Ordinary) (function receiver : Value) (arguments : List Value) :
    Routine S fun e => e.call function receiver arguments :=
  .task _ (hS.calls function receiver arguments)

theorem tryMethods (hS : S.Ordinary) (v : Value) (names : List String) :
    Routine S fun e => e.tryMethods v names := by
  induction names with
  | nil => exact .fault hS _
  | cons name rest ih =>
    refine .bind (.getMember hS v name) fun method => .bind (.read _) fun callable => ?_
    refine .ite (fun _ => .bind (.attempt (.call hS method v [])) fun outcome => ?_) fun _ => ih
    match outcome with
    | .ok result => exact .ite (fun _ => ih) fun _ => .pure _
    | .error (.thrown error) => exact .complete _ (hS.throws error)
    | .error (.returned value) => exact ih
    | .error (.broke label) => exact ih
    | .error (.continued label) => exact ih

theorem toPrimitive (hS : S.Ordinary) (v : Value) (hint : Hint) :
    Routine S fun e => e.toPrimitive v hint :=
  .ite (fun _ => .tryMethods hS v hint.methods) fun _ => .pure _

theorem toNumber (hS : S.Ordinary) (v : Value) : Routine S fun e => e.toNumber v :=
  .bind (.toPrimitive hS v .number) fun _ => .pure _

theorem toText (hS : S.Ordinary) (v : Value) : Routine S fun e => e.toText v :=
  .bind (.toPrimitive hS v .string) fun _ => .pure _

theorem toUnicode (hS : S.Ordinary) (v : Value) : Routine S fun e => e.toUnicode v :=
  .bind (.toPrimitive hS v .string) fun _ => .pure _

/-! ### Names and references -/

theorem lookupName (hS : S.Ordinary) (name : String) (scope : ScopeId) :
    Routine S fun _ => Eval.lookupName name scope := by
  refine .bind (.read _) fun found => ?_
  match found with
  | .ok value => exact .pure value
  | .error .uninitialized => exact .fault hS _
  | .error .unresolved => exact .fault hS _
  | .error .constant => exact .fault hS _
  | .error .readOnly => exact .fault hS _
  | .error .selfName => exact .fault hS _

theorem assignName {scope : ScopeId} (hS : S.Assigns scope) (name : String) (value : Value) :
    Routine S fun _ => Eval.assignName name value scope := by
  have hO : S.Ordinary := hS.toOrdinary
  refine .bind (.read _) fun strict => ?_
  refine .bind (.updateGet _ fun s => hS.assign s name value) fun outcome => ?_
  match outcome with
  | .ok () => exact .pure ()
  | .error .unresolved =>
    refine .ite (fun _ => .fault hO _) fun _ => ?_
    exact .update _ fun s => hS.bindGlobal s name value
  | .error .readOnly => exact .ite (fun _ => .fault hO _) fun _ => .pure ()
  | .error .constant => exact .fault hO _
  | .error .selfName => exact .fault hO _
  | .error .uninitialized => exact .fault hO _

theorem getReference (hS : S.Ordinary) (r : Reference) (scope : ScopeId) :
    Routine S fun _ => Eval.getReference r scope := by
  cases r with
  | name name => exact .lookupName hS name scope
  | property base key => exact .getMember hS base key

theorem putReference {scope : ScopeId} (hS : S.Assigns scope) (r : Reference) (value : Value) :
    Routine S fun _ => Eval.putReference r value scope := by
  cases r with
  | name name => exact .assignName hS name value
  | property base key =>
    exact .bind (.read _) fun strict => .setMember hS.toOrdinary base key value strict

/-! ### Operators -/

theorem instanceOf (hS : S.Ordinary) (left right : Value) :
    Routine S fun _ => Eval.instanceOf left right := by
  refine .bind (.read _) fun callable => .ite (fun _ => .fault hS _) fun _ => ?_
  refine .bind (.getMember hS right "prototype") fun prototype => ?_
  cases prototype with
  | object ancestor => exact .read _
  | _ => exact .fault hS _

theorem unary (hS : S.Ordinary) (op : UnaryOp) (v : Value) : Routine S fun e => e.unary op v := by
  cases op with
  | not => exact .pure _
  | minus => exact .bind (.toNumber hS v) fun _ => .pure _
  | plus => exact .bind (.toNumber hS v) fun _ => .pure _
  | bitNot => exact .bind (.toNumber hS v) fun _ => .pure _

theorem add (hS : S.Ordinary) (left right : Value) : Routine S fun e => e.add left right := by
  refine .bind (.toPrimitive hS left .default) fun left => ?_
  refine .bind (.toPrimitive hS right .default) fun right => ?_
  exact .ite (fun _ => .pure _) fun _ => .pure _

theorem looselyEquals (hS : S.Ordinary) (left right : Value) :
    Routine S fun e => e.looselyEquals left right := by
  refine .ite (fun _ => .bind (.toPrimitive hS left .default) fun _ => .pure _) fun _ => ?_
  exact .ite (fun _ => .bind (.toPrimitive hS right .default) fun _ => .pure _) fun _ => .pure _

theorem hasKey (hS : S.Ordinary) (key target : Value) :
    Routine S fun e => e.hasKey key target := by
  cases target with
  | object id => exact .bind (.toUnicode hS key) fun _ => .read _
  | _ => exact .fault hS _

theorem compare (hS : S.Ordinary) (left right : Value) (test : Value → Value → Bool) :
    Routine S fun e => e.compare left right test := by
  refine .bind (.toPrimitive hS left .number) fun left => ?_
  exact .bind (.toPrimitive hS right .number) fun right => .pure _

theorem binary (hS : S.Ordinary) (op : BinaryOp) (left right : Value) :
    Routine S fun e => e.binary op left right := by
  have hnumeric (f : Float → Float → Float) : Routine S fun e => (do
      return .number (f (← e.toNumber left) (← e.toNumber right)) : Eval Value) :=
    .bind (.toNumber hS left) fun _ => .bind (.toNumber hS right) fun _ => .pure _
  cases op with
  | add => exact .add hS left right
  | eq => exact .bind (.looselyEquals hS left right) fun _ => .pure _
  | notEq => exact .bind (.looselyEquals hS left right) fun _ => .pure _
  | strictEq => exact .pure _
  | strictNotEq => exact .pure _
  | lt => exact .compare hS left right _
  | gt => exact .compare hS left right _
  | ltEq => exact .compare hS left right _
  | gtEq => exact .compare hS left right _
  | hasKey => exact .bind (.hasKey hS left right) fun _ => .pure _
  | instanceOf => exact .bind (.instanceOf hS left right) fun _ => .pure _
  | _ => exact hnumeric _

/-! ### Sequences -/

theorem position (hS : S.Ordinary) (v : Value) : Routine S fun e => e.position v :=
  .ite (fun _ => .pure _) fun _ => .bind (.toNumber hS v) fun _ => .pure _

theorem elementsFrom (hS : S.Ordinary) (source : Value) (i count : Nat) :
    Routine S fun _ => Engine.elementsFrom source i count := by
  induction count generalizing i with
  | zero => exact .pure _
  | succ count ih =>
    exact .bind (.getMember hS source _) fun _ => .bind (ih (i + 1)) fun _ => .pure _

theorem lengthOf (hS : S.Ordinary) (v : Value) : Routine S fun e => e.lengthOf v := by
  refine .bind (.getMember hS v "length") fun length => .bind (.toNumber hS length) fun _ => ?_
  exact .ite (fun _ => .pure _) fun _ => .ite (fun _ => .pure _) fun _ => .pure _

theorem elementsOf (hS : S.Ordinary) (v : Value) : Routine S fun e => e.elementsOf v :=
  .bind (.lengthOf hS v) fun length => .elementsFrom hS v 0 length

end Routine

end ProtoScript
