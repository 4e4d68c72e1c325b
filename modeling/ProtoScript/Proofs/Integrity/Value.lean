import ProtoScript.Proofs.Integrity.Supervisor
import ProtoScript.Proofs.Embedding
/-!
# The integrity of operations on values

Conversions, references and operators give out nothing but what they are given and what the store
holds.
-/

namespace ProtoScript

namespace Integrity

variable {E : EngineFamily} {W : Focus} {seat : Seat} {n : Nat}
  {m : Machine} {scope : ScopeId}

/-! ### Members -/

theorem upholds_getMember {base : Value} (hbase : m.Knows base) (key : String) :
    Upholds E W n m (fun _ => Eval.getMember base key) Known := by
  have hread {f : Store → Value} (hf : m.store.Intact → (f m.store).Within m.store.objects.size) :
      Upholds E W n m (fun _ => Eval.read f) Known :=
    .step rfl (·.leads_self) hf
  cases base with
  | undefined => exact .fault _
  | null => exact .fault _
  | object id => exact hread (f := fun s => s.get id key) fun hs => hs.within_get id key
  | _ => exact hread (f := fun s => s.getOfPrimitive _ key) fun hs => hs.within_getOfPrimitive _ key

theorem upholds_setMember {value : Value} (base : Value) (key : String) (hvalue : m.Knows value)
    (strict : Bool) :
    Upholds E W n m (fun _ => Eval.setMember base key value strict) Anything := by
  have hprimitive : Upholds E W n m (fun _ => (do
      if strict then
        Eval.fault (.propertyOnPrimitive key (← Eval.read fun s => s.typeOf base)) : Eval Unit))
      Anything :=
    .ite (fun _ => .bind .read fun _ _ _ _ => .fault _) fun _ => .pure trivial
  cases base with
  | undefined => exact .fault _
  | null => exact .fault _
  | object id =>
    have hset : Upholds E W n m (fun _ => Eval.updateGet fun s => s.set id key value) Anything :=
      .updateGet (fun hs => hs.set id key hvalue) fun _ => trivial
    exact .bind hset fun _ _ _ _ => .ite (fun _ => .fault _) fun _ => .pure trivial
  | _ => exact hprimitive

theorem upholds_toObject {v : Value} (hv : m.Knows v) :
    Upholds E W n m (fun _ => Eval.toObject v) Known := by
  have hwrapper : Upholds E W n m (fun _ => Eval.allocate (.wrapper v)) Known :=
    .allocate (fun hs => ObjectRecord.within_wrapper hs.intrinsics hv) (.of_no_elements rfl .empty)
      rfl nofun
  cases v with
  | undefined => exact .fault _
  | null => exact .fault _
  | object id => exact .pure hv
  | _ => exact hwrapper

theorem upholds_elementsFrom {source : Value} (hsource : m.Knows source) (i count : Nat) :
    Upholds E W n m (fun _ => Engine.elementsFrom source i count)
      fun values m' => ∀ v ∈ values, m'.Knows v := by
  induction count generalizing m i with
  | zero => exact .pure nofun
  | succ count ih =>
    refine .bind (upholds_getMember hsource _) fun element m₁ hlater₁ helement => ?_
    refine .bind (ih (hlater₁.within hsource) (i + 1)) fun rest m₂ hlater₂ hrest => .pure ?_
    exact List.forall_mem_cons.mpr ⟨hlater₂.within helement, hrest⟩

/-! ### Names -/

theorem upholds_lookupName (name : String) :
    Upholds E W n m (fun _ => Eval.lookupName name scope) Known := by
  refine .intact fun hm => .bind .read fun found m₁ _ hfound => ?_
  obtain ⟨rfl, rfl⟩ := hfound
  split
  · rename_i value hvalue
    exact .pure (hm.store.within_lookup hvalue)
  · exact .fault _
  · exact .fault _

theorem upholds_assignName {name : String} (hname : name ≠ "this")
    (hscope : scope.index < m.store.scopes.size) {value : Value} (hvalue : m.Knows value) :
    Upholds E W n m (fun _ => Eval.assignName name value scope) Anything := by
  refine .bind .read fun strict m₁ _ hstrict => ?_
  obtain ⟨_, rfl⟩ := hstrict
  have hassign : Upholds E W n m₁
      (fun _ => Eval.updateGet fun s => s.assign scope name value) fun outcome m' =>
        m'.Knows value ∧ (outcome = .error .unresolved →
          scope.index < m'.store.scopes.size ∧ m'.store.resolve? scope name = none) := by
    refine .updateGet (fun hs => hs.assign scope name hvalue) fun hs => ?_
    have hassigned : m₁.store.Leads (Watched W n) _ := hs.assign scope name hvalue
    refine ⟨hassigned.evolves.within hvalue, fun houtcome => ?_⟩
    unfold Store.assign at houtcome ⊢
    split at houtcome
    · rename_i hresolve
      simp only [hresolve]
      exact ⟨hscope, trivial⟩
    · rename_i holder b hresolve
      split at houtcome
      · rename_i error hwrite
        cases houtcome
        unfold Binding.write at hwrite
        split at hwrite
        · split at hwrite <;> cases hwrite
        · cases hwrite
      · cases houtcome
  refine .bind hassign fun outcome m₂ _ houtcome => ?_
  obtain ⟨hvalue, hunresolved⟩ := houtcome
  split
  · exact .pure trivial
  · obtain ⟨hscope, hresolve⟩ := hunresolved rfl
    refine .ite (fun _ => .fault _) fun _ => ?_
    exact (Upholds.update fun hs => hs.bind_unresolved hname hvalue hscope hresolve).anything
  · exact .ite (fun _ => .fault _) fun _ => .pure trivial
  · exact .fault _
  · exact .fault _
  · exact .fault _

theorem upholds_lookupThis (hstands : m.Seated seat scope) :
    Upholds E W n m (fun _ => Eval.lookupThis scope)
      fun v m' => v = seat.receiver ∧ m'.Knows v := by
  refine .step rfl (·.leads_self) fun hs => ⟨hstands.receiver, ?_⟩
  exact hs.within_this scope

theorem upholds_getReference {r : Reference} (hr : m.Refers r) :
    Upholds E W n m (fun _ => Eval.getReference r scope) Known := by
  cases r with
  | name name => exact upholds_lookupName name
  | property base key => exact upholds_getMember hr key

theorem upholds_putReference {r : Reference} (hr : m.Refers r)
    (hscope : scope.index < m.store.scopes.size) {value : Value} (hvalue : m.Knows value) :
    Upholds E W n m (fun _ => Eval.putReference r value scope) Anything := by
  cases r with
  | name name => exact upholds_assignName hr.ne_this hscope hvalue
  | property base key =>
    refine .bind .read fun strict m₁ _ hstrict => ?_
    obtain ⟨_, rfl⟩ := hstrict
    exact upholds_setMember base key hvalue strict

/-! ### Conversions -/

section

variable (h : Backs W seat E)

include h

theorem upholds_tryMethods {v : Value} (hv : m.Knows v) (methods : List String) :
    Upholds E W n m (fun e => e.tryMethods v methods) Known := by
  induction methods generalizing m with
  | nil => exact .fault _
  | cons name rest ih =>
    refine .bind (upholds_getMember hv name) fun method m₁ hlater₁ hmethod => ?_
    have hv₁ := hlater₁.within hv
    refine .bind .read fun callable m₂ _ hcallable => ?_
    obtain ⟨_, rfl⟩ := hcallable
    refine .ite (fun _ => ?_) fun _ => ih hv₁
    refine .bind (Upholds.call h hmethod hv₁ (List.forall_mem_nil _)).attempt
      fun outcome m₃ hlater₃ houtcome => ?_
    have hv₃ := hlater₃.within hv₁
    match outcome with
    | .ok result => exact .ite (fun _ => ih hv₃) fun _ => .pure houtcome
    | .error (.thrown error) => exact .complete houtcome
    | .error (.returned _) => exact ih hv₃
    | .error (.broke _) => exact ih hv₃
    | .error (.continued _) => exact ih hv₃

theorem upholds_toPrimitive {v : Value} (hv : m.Knows v) (hint : Hint) :
    Upholds E W n m (fun e => e.toPrimitive v hint) Known :=
  .ite (fun _ => upholds_tryMethods h hv _) fun _ => .pure hv

theorem upholds_toNumber {v : Value} (hv : m.Knows v) :
    Upholds E W n m (fun e => e.toNumber v) Anything :=
  .bind (upholds_toPrimitive h hv _) fun _ _ _ _ => .pure trivial

theorem upholds_toText {v : Value} (hv : m.Knows v) :
    Upholds E W n m (fun e => e.toText v) Anything :=
  .bind (upholds_toPrimitive h hv _) fun _ _ _ _ => .pure trivial

theorem upholds_toUnicode {v : Value} (hv : m.Knows v) :
    Upholds E W n m (fun e => e.toUnicode v) Anything :=
  .bind (upholds_toPrimitive h hv _) fun _ _ _ _ => .pure trivial

end

/-! ### Operators -/

theorem upholds_instanceOf {right : Value} (left : Value) (hright : m.Knows right) :
    Upholds E W n m (fun _ => Eval.instanceOf left right) Anything := by
  refine .bind .read fun callable m₁ _ hcallable => ?_
  obtain ⟨_, rfl⟩ := hcallable
  refine .ite (fun _ => .fault _) fun _ => ?_
  refine .bind (upholds_getMember hright _) fun prototype m₂ _ _ => ?_
  split
  · exact Upholds.read.anything
  · exact .fault _

section

variable (h : Backs W seat E) {left right : Value}

include h

theorem upholds_unary (op : UnaryOp) {v : Value} (hv : m.Knows v) :
    Upholds E W n m (fun e => e.unary op v) Known := by
  cases op with
  | not => exact .pure trivial
  | _ => exact .bind (upholds_toNumber h hv) fun _ _ _ _ => .pure trivial

theorem upholds_add (hleft : m.Knows left) (hright : m.Knows right) :
    Upholds E W n m (fun e => e.add left right) Known := by
  refine .bind (upholds_toPrimitive h hleft _) fun l m₁ hlater₁ _ => ?_
  refine .bind (upholds_toPrimitive h (hlater₁.within hright) _) fun r m₂ _ _ => ?_
  exact .ite (fun _ => .pure trivial) fun _ => .pure trivial

theorem upholds_looselyEquals (hleft : m.Knows left) (hright : m.Knows right) :
    Upholds E W n m (fun e => e.looselyEquals left right) Anything := by
  refine .ite (fun _ => ?_) fun _ => .ite (fun _ => ?_) fun _ => .pure trivial
  · exact .bind (upholds_toPrimitive h hleft _) fun _ _ _ _ => .pure trivial
  · exact .bind (upholds_toPrimitive h hright _) fun _ _ _ _ => .pure trivial

theorem upholds_hasKey {key : Value} (target : Value) (hkey : m.Knows key) :
    Upholds E W n m (fun e => e.hasKey key target) Anything := by
  cases target with
  | object id => exact .bind (upholds_toUnicode h hkey) fun _ _ _ _ => Upholds.read.anything
  | _ => exact .fault _

theorem upholds_compare (hleft : m.Knows left) (hright : m.Knows right)
    (test : Value → Value → Bool) :
    Upholds E W n m (fun e => e.compare left right test) Known := by
  refine .bind (upholds_toPrimitive h hleft _) fun l m₁ hlater₁ _ => ?_
  exact .bind (upholds_toPrimitive h (hlater₁.within hright) _) fun _ _ _ _ => .pure trivial

theorem upholds_binary (op : BinaryOp) (hleft : m.Knows left) (hright : m.Knows right) :
    Upholds E W n m (fun e => e.binary op left right) Known := by
  have hnumeric {f : Float → Float → Float} : Upholds E W n m (fun e => (do
      return .number (f (← e.toNumber left) (← e.toNumber right)) : Eval Value)) Known := by
    refine .bind (upholds_toNumber h hleft) fun l m₁ hlater₁ _ => ?_
    exact .bind (upholds_toNumber h (hlater₁.within hright)) fun _ _ _ _ => .pure trivial
  cases op with
  | add => exact upholds_add h hleft hright
  | eq => exact .bind (upholds_looselyEquals h hleft hright) fun _ _ _ _ => .pure trivial
  | notEq => exact .bind (upholds_looselyEquals h hleft hright) fun _ _ _ _ => .pure trivial
  | strictEq => exact .pure trivial
  | strictNotEq => exact .pure trivial
  | lt => exact upholds_compare h hleft hright _
  | gt => exact upholds_compare h hleft hright _
  | ltEq => exact upholds_compare h hleft hright _
  | gtEq => exact upholds_compare h hleft hright _
  | hasKey => exact .bind (upholds_hasKey h right hleft) fun _ _ _ _ => .pure trivial
  | instanceOf => exact .bind (upholds_instanceOf left hright) fun _ _ _ _ => .pure trivial
  | _ => exact hnumeric

end

end Integrity

/-!
### Courteous hosts

A function of the embedding program is courteous if it makes up no object: whatever it hands over or
gives back is a primitive value, a value that it was given, or one that it got by working with such
values through the machine.
-/

def Value.HeldIn (hand : List Value) (v : Value) : Prop := v.isObject = true → v ∈ hand

def Abrupt.outcomeValues : Except Abrupt Value → List Value
  | .ok value | .error (.thrown value) | .error (.returned value) => [value]
  | .error (.broke _) | .error (.continued _) => []

/-- What can be done with some values at hand and nothing made up. -/
inductive Courteous : List Value → (Engine → Eval Value) → Prop
  | finish {hand : List Value} (o : Except Abrupt Value)
      (held : ∀ v ∈ Abrupt.outcomeValues o, v.HeldIn hand) : Courteous hand fun _ => Eval.resume o
  | fault {hand : List Value} (f : Fault) : Courteous hand fun _ => Eval.fault f
  | ask {hand : List Value} (task : Task)
      (asks : (Setting.embedding Program.Accepted fun _ => True).asks task)
      (held : ∀ v ∈ task.values, v.HeldIn hand) : Courteous hand fun e => e.run task
  | getMember {hand : List Value} (base : Value) (key : String) (held : base.HeldIn hand) :
      Courteous hand fun _ => Eval.getMember base key
  | setMember {hand : List Value} (base : Value) (key : String) (value : Value) (strict : Bool)
      (held : value.HeldIn hand) :
      Courteous hand fun _ => Eval.setMember base key value strict >>= fun _ => pure .undefined
  | newArray {hand : List Value} (values : List Value) (held : ∀ v ∈ values, v.HeldIn hand) :
      Courteous hand fun _ => Eval.newFullArray values
  | writeLine {hand : List Value} (line : String) :
      Courteous hand fun _ => Eval.writeLine line >>= fun _ => pure .undefined
  | consult {hand : List Value} {α : Type} (f : Store → α) {G : α → Engine → Eval Value}
      (rest : ∀ a, Courteous hand (G a)) : Courteous hand fun e => Eval.read f >>= fun a => G a e
  | andThen {hand : List Value} {F : Engine → Eval Value}
      {G : Except Abrupt Value → Engine → Eval Value} (first : Courteous hand F)
      (rest : ∀ o, Courteous (Abrupt.outcomeValues o ++ hand) (G o)) :
      Courteous hand fun e => Eval.attempt (F e) >>= fun o => G o e

def Host.Courteous (host : Host) : Prop :=
  ∀ name receiver arguments,
    ProtoScript.Courteous (receiver :: arguments) fun e => host name e receiver arguments

/-- The functions of the host never come back to the interpreter. -/
def Host.Detached (host : Host) : Prop :=
  ∀ name e e' receiver arguments, host name e receiver arguments = host name e' receiver arguments

theorem Host.none_detached : Host.none.Detached := fun _ _ _ _ _ => rfl

theorem Host.none_courteous : Host.none.Courteous := fun _ _ _ =>
  .finish (.ok .undefined) (List.forall_mem_singleton.mpr nofun)

theorem Host.callBack_courteous : Host.callBack.Courteous := by
  intro name receiver arguments
  refine .ask _ trivial (List.forall_mem_cons.mpr ⟨?_, List.forall_mem_cons.mpr ⟨nofun, ?_⟩⟩)
  · cases arguments with
    | nil => exact nofun
    | cons v rest => exact fun _ => List.mem_cons_of_mem _ (List.mem_cons_self ..)
  · exact fun v hv _ => List.mem_cons_of_mem _ (List.mem_of_mem_tail hv)

namespace Integrity

variable {E : EngineFamily} {W : Focus} {seat : Seat} {n : Nat} {m : Machine}
  {hand : List Value}

theorem knows_of_held (hhand : ∀ v ∈ hand, m.Knows v) {v : Value} (h : v.HeldIn hand) :
    m.Knows v := by
  by_cases hobject : v.isObject = true
  · exact hhand v (h hobject)
  · exact .of_not_isObject hobject

theorem knows_outcomeValues {o : Except Abrupt Value} (h : Ended Known o m) :
    ∀ v ∈ Abrupt.outcomeValues o, m.Knows v := by
  cases o with
  | ok value => exact List.forall_mem_singleton.mpr h
  | error c =>
    cases c with
    | thrown value => exact List.forall_mem_singleton.mpr h
    | returned value => exact List.forall_mem_singleton.mpr h
    | broke label => exact nofun
    | continued label => exact nofun

theorem ended_of_held (hhand : ∀ v ∈ hand, m.Knows v) {o : Except Abrupt Value}
    (h : ∀ v ∈ Abrupt.outcomeValues o, v.HeldIn hand) : Ended Known o m := by
  have hknown := fun v hv => knows_of_held hhand (h v hv)
  cases o with
  | ok value => exact hknown value (List.mem_singleton_self _)
  | error c =>
    cases c with
    | thrown value => exact hknown value (List.mem_singleton_self _)
    | returned value => exact hknown value (List.mem_singleton_self _)
    | broke label => trivial
    | continued label => trivial

theorem Upholds.courteous (h : Backs W seat E) {F : Engine → Eval Value}
    (hF : Courteous hand F) (hhand : ∀ v ∈ hand, m.Knows v) :
    Upholds E W n m F Known := by
  induction hF generalizing m with
  | finish o held => exact .resume (ended_of_held hhand held)
  | fault f => exact .fault f
  | ask task asks held =>
    have hvalues := fun v hv => knows_of_held hhand (held v hv)
    cases task with
    | program p => exact .task h hvalues asks.sound fun _ _ => trivial
    | call function receiver arguments => exact .task h hvalues trivial fun _ _ => trivial
    | indirectEval text => exact .task h hvalues trivial fun _ _ => trivial
    | _ => exact asks.elim
  | getMember base key held => exact upholds_getMember (knows_of_held hhand held) key
  | setMember base key value strict held =>
    refine .bind (upholds_setMember base key (knows_of_held hhand held) strict) ?_
    exact fun _ _ _ _ => .pure trivial
  | newArray values held => exact .newFullArray fun v hv => knows_of_held hhand (held v hv)
  | writeLine line =>
    refine .aside () { m with output := m.output ++ line ++ "\n" } rfl rfl ?_ (.pure trivial)
    exact fun hm => ⟨hm.store, hm.newTarget⟩
  | consult f _ ih =>
    refine .bind .read fun a m₁ _ hread => ?_
    obtain ⟨_, rfl⟩ := hread
    exact ih a hhand
  | andThen _ _ ihF ihG =>
    refine .bind (ihF hhand).attempt fun o m₁ hlater ho => ihG o fun v hv => ?_
    rcases List.mem_append.mp hv with hv | hv
    · exact knows_outcomeValues ho v hv
    · exact hlater.within (hhand v hv)

end Integrity

end ProtoScript
