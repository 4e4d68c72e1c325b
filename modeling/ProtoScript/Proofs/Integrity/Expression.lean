import ProtoScript.Proofs.Integrity.Value
import ProtoScript.Proofs.Syntax.Sound
/-!
# The integrity of expressions

Sound expressions give known values, and no name that they assign to is `this`.
-/

namespace ProtoScript.Integrity

variable {E : EngineFamily} {W : Focus} {seat : Seat} {n : Nat}
  {m : Machine} {scope : ScopeId} (h : Backs W seat E)

include h

theorem upholds_evaluate {x : Expr} (hx : x.Sound) (hstands : m.Seated seat scope) :
    Upholds E W n m (fun e => e.evaluate x scope) Known :=
  .task h (List.forall_mem_nil _) ⟨hx, hstands⟩ fun _ _ => trivial

theorem upholds_evaluateNamed {x : Expr} (hx : x.Sound) (hstands : m.Seated seat scope)
    (name : String) :
    Upholds E W n m (fun e => e.evaluateNamed x name scope) Known := by
  refine .bind (upholds_evaluate h hx hstands) fun value m₁ _ hvalue => ?_
  refine .ite (fun _ => ?_) fun _ => .pure hvalue
  have hnamed : Upholds E W n m₁
      (fun _ => Eval.update fun s => s.nameFunction value name) Anything :=
    Upholds.anything (.update fun hs => hs.nameFunction value name)
  exact .bind hnamed fun _ m₂ hlater _ => .pure (hlater.within hvalue)

/-! ### Members and keys -/

theorem upholds_memberReference {object : Expr} {key : MemberKey} (hobject : object.Sound)
    (hkey : ∀ x ∈ key.parts, x.Sound) (hstands : m.Seated seat scope) :
    Upholds E W n m (fun e => e.memberReference object key scope)
      fun found m' => m'.Knows found.1 := by
  refine .bind (upholds_evaluate h hobject hstands) fun base m₁ hlater₁ hbase => ?_
  cases key with
  | dot name => exact .pure hbase
  | computed x =>
    have hx := hkey x (List.mem_singleton.mpr rfl)
    refine .bind (upholds_evaluate h hx (hstands.later hlater₁)) fun key m₂ hlater₂ hkey => ?_
    have hbase₂ := hlater₂.within hbase
    refine .ite (fun _ => .fault _) fun _ => ?_
    exact .bind (upholds_toUnicode h hkey) fun _ _ hlater₃ _ => .pure (hlater₃.within hbase₂)

/-- Like `upholds_memberReference`, for the parts of a member expression. -/
theorem upholds_memberReference_of_sound {object : Expr} {key : MemberKey}
    (hx : (Expr.member object key).Sound) (hstands : m.Seated seat scope) :
    Upholds E W n m (fun e => e.memberReference object key scope)
      fun found m' => m'.Knows found.1 :=
  upholds_memberReference h (hx.part (List.mem_cons_self ..))
    (fun _ hy => hx.part (List.mem_cons_of_mem _ hy)) hstands

theorem upholds_reference {target : Expr} (htarget : target.Sound)
    (hstands : m.Seated seat scope) :
    Upholds E W n m (fun e => e.reference target scope) fun r m' => m'.Refers r := by
  cases target with
  | identifier name => exact .pure htarget.usable
  | member object key =>
    exact .bind (upholds_memberReference_of_sound h htarget hstands) fun _ _ _ hbase => .pure hbase
  | _ => exact .fault _

theorem upholds_propertyKey {key : PropertyKey} (hkey : ∀ x ∈ key.parts, x.Sound)
    (hstands : m.Seated seat scope) :
    Upholds E W n m (fun e => e.propertyKey key scope) Anything := by
  cases key with
  | computed x =>
    have hx := hkey x (List.mem_singleton.mpr rfl)
    exact .bind (upholds_evaluate h hx hstands) fun _ _ _ hvalue => upholds_toUnicode h hvalue
  | _ => exact .pure trivial

/-! ### Literals and lists -/

theorem upholds_arrayElements {elements : List (Option Expr)}
    (helements : ∀ x, some x ∈ elements → x.Sound) (hstands : m.Seated seat scope) :
    Upholds E W n m (fun e => e.arrayElements scope elements)
      fun values m' => ∀ v, some v ∈ values → m'.Knows v := by
  induction elements generalizing m with
  | nil => exact .pure nofun
  | cons element rest ih =>
    have hrest := fun x hx => helements x (List.mem_cons_of_mem _ hx)
    cases element with
    | none =>
      refine .bind (ih hrest hstands) fun values m₁ _ hvalues => .pure fun v hv => ?_
      rcases List.mem_cons.mp hv with hhole | hv
      · cases hhole
      · exact hvalues v hv
    | some x =>
      refine .bind (upholds_evaluate h (helements x (List.mem_cons_self ..)) hstands)
        fun value m₁ hlater₁ hvalue => ?_
      refine .bind (ih hrest (hstands.later hlater₁)) fun values m₂ hlater₂ hvalues => ?_
      refine .pure fun v hv => ?_
      rcases List.mem_cons.mp hv with heq | hv
      · cases heq
        exact hlater₂.within hvalue
      · exact hvalues v hv

theorem upholds_property {p : Property} (hp : ∀ x ∈ p.parts, x.Sound)
    (hstands : m.Seated seat scope) :
    Upholds E W n m (fun e => e.property p scope)
      fun found m' => m'.Knows found.2 := by
  have hvalue (key : String) (m₁ : Machine) (hlater : m.store.Evolves (Watched W n) m₁.store)
      (_ : True) : Upholds E W n m₁ (fun e => (do
        return (key, ← e.evaluateNamed p.value key scope) : Eval (String × Value)))
        fun found m' => m'.Knows found.2 := by
    have hsound : p.value.Sound := hp _ (List.mem_append_right _ (List.mem_singleton.mpr rfl))
    exact .bind (upholds_evaluateNamed h hsound (hstands.later hlater) key)
      fun _ _ _ hknown => .pure hknown
  cases p with
  | keyed key value =>
    have hkey : ∀ x ∈ key.parts, x.Sound := fun x hx => hp x (List.mem_append_left _ hx)
    exact .bind (upholds_propertyKey h hkey hstands) hvalue
  | shorthand name cover => exact .bind (.pure trivial) hvalue

theorem upholds_properties {id : ObjectId} {ps : List Property}
    (hps : ∀ p ∈ ps, ∀ x ∈ p.parts, x.Sound) (hstands : m.Seated seat scope)
    (hid : m.store.Ordinary id) :
    Upholds E W n m (fun e => e.properties id scope ps) Anything := by
  induction ps generalizing m with
  | nil => exact .pure trivial
  | cons p rest ih =>
    refine .bind (upholds_property h (hps p (List.mem_cons_self ..)) hstands)
      fun (key, value) m₁ hlater₁ hvalue => ?_
    have hinsert : Upholds E W n m₁
        (fun _ => Eval.update fun s => s.insert id key (.plain value)) Anything :=
      Upholds.anything (.update fun hs =>
        hs.insert id key hvalue (.inr (hlater₁.ordinary id hid))
          ((hlater₁.ordinary id hid).joined?_eq_none key))
    refine .bind hinsert fun _ m₂ hlater₂ _ => ?_
    exact ih (fun p hp => hps p (List.mem_cons_of_mem _ hp))
      ((hstands.later hlater₁).later hlater₂)
      (hlater₂.ordinary id (hlater₁.ordinary id hid))

theorem upholds_arguments {xs : List Expr} (hxs : ∀ x ∈ xs, x.Sound)
    (hstands : m.Seated seat scope) :
    Upholds E W n m (fun e => e.arguments scope xs)
      fun values m' => ∀ v ∈ values, m'.Knows v := by
  induction xs generalizing m with
  | nil => exact .pure nofun
  | cons x rest ih =>
    obtain ⟨hx, hrest⟩ := List.forall_mem_cons.mp hxs
    refine .bind (upholds_evaluate h hx hstands) fun value m₁ hlater₁ hvalue => ?_
    refine .bind (ih hrest (hstands.later hlater₁)) fun values m₂ hlater₂ hvalues => .pure ?_
    exact List.forall_mem_cons.mpr ⟨hlater₂.within hvalue, hvalues⟩

theorem upholds_sequence {xs : List Expr} (hxs : ∀ x ∈ xs, x.Sound)
    (hstands : m.Seated seat scope) {last : Value} (hlast : m.Knows last) :
    Upholds E W n m (fun e => e.sequence scope xs last) Known := by
  induction xs generalizing m last with
  | nil => exact .pure hlast
  | cons x rest ih =>
    obtain ⟨hx, hrest⟩ := List.forall_mem_cons.mp hxs
    exact .bind (upholds_evaluate h hx hstands) fun value m₁ hlater hvalue =>
      ih hrest (hstands.later hlater) hvalue

/-! ### Operators on places -/

theorem upholds_typeOf {operand : Expr} (hoperand : operand.Sound)
    (hstands : m.Seated seat scope) :
    Upholds E W n m (fun e => e.typeOf operand scope) Known := by
  have hword (value : Value) (m₁ : Machine) (_ : m.store.Evolves (Watched W n) m₁.store)
      (_ : m₁.Knows value) : Upholds E W n m₁ (fun _ => (do
        return .ofString (← Eval.read fun s => s.typeOf value) : Eval Value)) Known :=
    .bind .read fun _ _ _ _ => .pure trivial
  cases operand with
  | identifier name =>
    refine .bind .read fun found m₁ _ hfound => ?_
    obtain ⟨_, rfl⟩ := hfound
    split
    · exact .bind (.pure m₁.knows_undefined) hword
    · exact .bind (upholds_lookupName name) hword
  | _ => exact .bind (upholds_evaluate h hoperand hstands) hword

theorem upholds_delete {operand : Expr} (hoperand : operand.Sound)
    (hstands : m.Seated seat scope) :
    Upholds E W n m (fun e => e.delete operand scope) Known := by
  cases operand with
  | member object key =>
    refine .bind (upholds_memberReference_of_sound h hoperand hstands)
      fun (base, key) m₁ _ hbase => .ite (fun _ => .fault _) fun _ => ?_
    refine .bind (upholds_toObject hbase) fun o m₂ _ _ => ?_
    split
    · rename_i id _
      have hdelete : Upholds E W n m₂ (fun _ => Eval.updateGet fun s => s.delete id key)
          Anything :=
        .updateGet (fun hs => hs.delete id key) fun _ => trivial
      refine .bind hdelete fun deleted m₃ _ _ => .bind .read fun strict _ _ _ => ?_
      exact .ite (fun _ => .fault _) fun _ => .pure trivial
    · exact .pure trivial
  | identifier name => exact .pure trivial
  | _ => exact .bind (upholds_evaluate h hoperand hstands) fun _ _ _ _ => .pure trivial

theorem upholds_applyUpdate (op : UpdateOp) (inFront : Bool) {target : Expr}
    (htarget : target.Sound) (hstands : m.Seated seat scope) :
    Upholds E W n m (fun e => e.applyUpdate op inFront target scope) Known := by
  refine .bind (upholds_reference h htarget hstands) fun r m₁ hlater₁ hr => ?_
  refine .bind (upholds_getReference hr) fun value m₂ hlater₂ hvalue => ?_
  refine .bind (upholds_toNumber h hvalue) fun old m₃ hlater₃ _ => ?_
  have hstands₃ := ((hstands.later hlater₁).later hlater₂).later hlater₃
  have hr₃ := (hr.later hlater₂).later hlater₃
  have hput : Upholds E W n m₃
      (fun _ => Eval.putReference r (.number (op.apply old)) scope) Anything :=
    upholds_putReference hr₃ hstands₃.there trivial
  exact .bind hput fun _ _ _ _ => .pure trivial

theorem upholds_assign (op : Option BinaryOp) {target value : Expr} (htarget : target.Sound)
    (hvalue : value.Sound) (hstands : m.Seated seat scope) :
    Upholds E W n m (fun e => e.assign op target value scope) Known := by
  have hput {m' : Machine} {r : Reference} {v : Value} (hr : m'.Refers r)
      (hstands : m'.Seated seat scope) (hv : m'.Knows v) :
      Upholds E W n m' (fun _ => (do
        Eval.putReference r v scope
        return v : Eval Value)) Known :=
    .bind (upholds_putReference hr hstands.there hv) fun _ _ hlater _ => .pure (hlater.within hv)
  have hplain : Upholds E W n m (fun e => (do
      let reference ← e.reference target scope
      let value ← e.evaluate value scope
      Eval.putReference reference value scope
      return value : Eval Value)) Known := by
    refine .bind (upholds_reference h htarget hstands) fun r m₁ hlater₁ hr => ?_
    have hstands₁ := hstands.later hlater₁
    refine .bind (upholds_evaluate h hvalue hstands₁) fun v m₂ hlater₂ hv => ?_
    exact hput (hr.later hlater₂) (hstands₁.later hlater₂) hv
  cases op with
  | some op =>
    refine .bind (upholds_reference h htarget hstands) fun r m₁ hlater₁ hr => ?_
    refine .bind (upholds_getReference hr) fun old m₂ hlater₂ hold => ?_
    have hstands₂ := (hstands.later hlater₁).later hlater₂
    refine .bind (upholds_evaluate h hvalue hstands₂) fun right m₃ hlater₃ hright => ?_
    refine .bind (upholds_binary h op (hlater₃.within hold) hright) fun v m₄ hlater₄ hv => ?_
    exact hput (((hr.later hlater₂).later hlater₃).later hlater₄)
      ((hstands₂.later hlater₃).later hlater₄) hv
  | none =>
    cases target with
    | identifier name =>
      refine .bind (upholds_evaluateNamed h hvalue hstands name) fun v m₁ hlater₁ hv => ?_
      have hassign := upholds_assignName (E := E) (W := W) (n := n) htarget.usable.ne_this
        (hstands.later hlater₁).there hv
      exact .bind hassign fun _ _ hlater₂ _ => .pure (hlater₂.within hv)
    | _ => exact hplain

/-! ### Calls -/

theorem upholds_callee {x : Expr} (hx : x.Sound) (hstands : m.Seated seat scope) :
    Upholds E W n m (fun e => e.callee x scope)
      fun found m' => m'.Knows found.1 ∧ m'.Knows found.2 := by
  cases x with
  | member object key =>
    refine .bind (upholds_memberReference_of_sound h hx hstands)
      fun (base, key) m₁ _ hbase => ?_
    exact .bind (upholds_getMember hbase key) fun function m₂ hlater hfunction =>
      .pure ⟨hfunction, hlater.within hbase⟩
  | _ => exact .bind (upholds_evaluate h hx hstands) fun _ _ _ hfunction =>
      .pure ⟨hfunction, trivial⟩

theorem upholds_applyCall {callee : Expr} {xs : List Expr} (hcallee : callee.Sound)
    (hxs : ∀ x ∈ xs, x.Sound) (hstands : m.Seated seat scope) :
    Upholds E W n m (fun e => e.applyCall callee xs scope) Known := by
  refine .bind (upholds_callee h hcallee hstands) fun (function, this) m₁ hlater₁ hfound => ?_
  obtain ⟨hfunction, hthis⟩ := hfound
  have hstands₁ := hstands.later hlater₁
  refine .bind (upholds_arguments h hxs hstands₁) fun values m₂ hlater₂ hvalues => ?_
  refine .ite (fun _ => ?_) fun _ => .bind .read fun callable m₃ _ hcallable => ?_
  · refine .task h (List.forall_mem_singleton.mpr ?_) (hstands₁.later hlater₂) fun _ _ => trivial
    cases values with
    | nil => trivial
    | cons v rest => exact hvalues v (List.mem_cons_self ..)
  · obtain ⟨_, rfl⟩ := hcallable
    refine .ite (fun _ => ?_) fun _ => .fault _
    exact .call h (hlater₂.within hfunction) (hlater₂.within hthis) hvalues

omit h in
theorem upholds_newInstance {constructor : Value} (hconstructor : m.Knows constructor) :
    Upholds E W n m (fun _ => Engine.newInstance constructor) Known := by
  refine .bind (upholds_getMember hconstructor _) fun prototype m₁ _ hprototype => ?_
  refine .allocate (fun hs => ObjectRecord.within_bare fun p hp => ?_) (.of_no_elements rfl .empty)
    rfl nofun
  cases hp
  cases prototype with
  | object id => exact hprototype
  | _ => exact hs.lt_intrinsic objectPrototype_lt

theorem upholds_constructWith {function : Value} {arguments : List Value}
    (hfunction : m.Knows function) (harguments : ∀ v ∈ arguments, m.Knows v)
    (description : String) :
    Upholds E W n m (fun e => e.constructWith function arguments description) Known := by
  refine .bind .read fun constructs m₁ _ hconstructs => ?_
  obtain ⟨_, rfl⟩ := hconstructs
  refine .ite (fun _ => ?_) fun _ => .fault _
  exact .task h (List.forall_mem_cons.mpr ⟨hfunction, harguments⟩) trivial fun _ _ => trivial

theorem upholds_applyNew {callee : Expr} {xs : List Expr} (hcallee : callee.Sound)
    (hxs : ∀ x ∈ xs, x.Sound) (hstands : m.Seated seat scope) :
    Upholds E W n m (fun e => e.applyNew callee xs scope) Known := by
  refine .bind (upholds_evaluate h hcallee hstands) fun function m₁ hlater₁ hfunction => ?_
  refine .bind (upholds_arguments h hxs (hstands.later hlater₁)) fun values m₂ hlater₂ hvalues => ?_
  exact upholds_constructWith h (hlater₂.within hfunction) hvalues _

/-- Evaluating two operands and applying an operator to their values. -/
theorem upholds_operands {left right : Expr} (op : BinaryOp) (hleft : left.Sound)
    (hright : right.Sound) (hstands : m.Seated seat scope) :
    Upholds E W n m (fun e => (do
      let left ← e.evaluate left scope
      e.binary op left (← e.evaluate right scope) : Eval Value)) Known := by
  refine .bind (upholds_evaluate h hleft hstands) fun l m₁ hlater₁ hl => ?_
  refine .bind (upholds_evaluate h hright (hstands.later hlater₁)) fun r m₂ hlater₂ hr => ?_
  exact upholds_binary h op (hlater₂.within hl) hr

theorem upholds_expression {x : Expr} (hx : x.Sound) (hstands : m.Seated seat scope) :
    Upholds E W n m (fun e => e.expression x scope) Known := by
  have hpart {y : Expr} (hy : y ∈ x.parts) : y.Sound := hx.part hy
  have hevaluate {m' : Machine} {y : Expr} (hy : y ∈ x.parts) (hstands : m'.Seated seat scope) :
      Upholds E W n m' (fun e => e.evaluate y scope) Known :=
    upholds_evaluate h (hpart hy) hstands
  cases x with
  | literal l => cases l <;> exact .pure trivial
  | identifier name => exact upholds_lookupName name
  | this => exact (upholds_lookupThis hstands).mono fun _ _ _ hknown => hknown.2
  | array elements =>
    have helements : ∀ y, some y ∈ elements → y.Sound := fun y hy =>
      hpart (List.reduceOption_mem_iff.mpr hy)
    refine .bind (upholds_arrayElements h helements hstands) fun values m₁ _ hvalues => ?_
    exact .newArray fun v hv => hvalues v (List.mem_toArray.mp hv)
  | object ps =>
    have hps : ∀ p ∈ ps, ∀ y ∈ p.parts, y.Sound := fun p hp y hy =>
      hpart (List.mem_flatMap.mpr ⟨p, hp, hy⟩)
    have hobject : Upholds E W n m (fun _ => Eval.updateGet fun s => s.newObject)
        fun id m' => m'.Knows (.object id) ∧ m'.store.Ordinary id := by
      refine .updateGet (fun hs => ?_) fun _ =>
        ⟨m.store.within_allocate _, Store.Ordinary.of_allocate rfl rfl⟩
      refine hs.allocate (ObjectRecord.within_bare fun p hp => ?_) (.of_no_elements rfl .empty)
        rfl nofun
      cases hp
      exact hs.lt_intrinsic objectPrototype_lt
    refine .bind hobject fun id m₁ hlater₁ ⟨hid, hplain⟩ => ?_
    exact .bind (upholds_properties h hps (hstands.later hlater₁) hplain) fun _ _ hlater₂ _ =>
      .pure (hlater₂.within hid)
  | function d => exact .newClosure hx.definition hstands.there
  | unary op operand =>
    refine .bind (hevaluate (List.mem_singleton.mpr rfl) hstands) fun v m₁ _ hv => ?_
    exact upholds_unary h op hv
  | binary op left right =>
    exact upholds_operands h op (hpart (by simp [Expr.parts])) (hpart (by simp [Expr.parts]))
      hstands
  | logical op left right =>
    refine .bind (hevaluate (by simp [Expr.parts]) hstands) fun l m₁ hlater hl => ?_
    refine .ite (fun _ => .pure hl) fun _ => ?_
    exact hevaluate (by simp [Expr.parts]) (hstands.later hlater)
  | update op inFront target =>
    exact upholds_applyUpdate h op inFront (hpart (List.mem_singleton.mpr rfl)) hstands
  | assign op target value =>
    exact upholds_assign h op (hpart (by simp [Expr.parts])) (hpart (by simp [Expr.parts])) hstands
  | conditional test consequent alternate =>
    refine .bind (hevaluate (by simp [Expr.parts]) hstands) fun t m₁ hlater _ => ?_
    have hstands₁ := hstands.later hlater
    refine .ite (fun _ => hevaluate ?_ hstands₁) fun _ => hevaluate ?_ hstands₁
    · simp [Expr.parts]
    · simp [Expr.parts]
  | call callee xs =>
    have hcallee : callee.Sound := hpart (List.mem_cons_self ..)
    exact upholds_applyCall h hcallee (fun y hy => hpart (List.mem_cons_of_mem _ hy)) hstands
  | construct callee xs =>
    have hcallee : callee.Sound := hpart (List.mem_cons_self ..)
    exact upholds_applyNew h hcallee (fun y hy => hpart (List.mem_cons_of_mem _ hy)) hstands
  | member object key =>
    exact .bind (upholds_memberReference_of_sound h hx hstands) fun found _ _ hbase =>
      upholds_getMember hbase found.2
  | typeOf operand => exact upholds_typeOf h (hpart (List.mem_singleton.mpr rfl)) hstands
  | void operand =>
    exact .bind (hevaluate (List.mem_singleton.mpr rfl) hstands) fun _ _ _ _ => .pure trivial
  | delete operand => exact upholds_delete h (hpart (List.mem_singleton.mpr rfl)) hstands
  | sequence xs => exact upholds_sequence h (fun y hy => hpart hy) hstands m.knows_undefined

theorem upholds_evaluateOption {x : Option Expr} (hx : ∀ y ∈ x, y.Sound)
    (hstands : m.Seated seat scope) :
    Upholds E W n m (fun e => e.evaluateOption x scope)
      fun found m' => ∀ v ∈ found, m'.Knows v := by
  cases x with
  | none => exact .pure nofun
  | some x =>
    refine .bind (upholds_evaluate h (hx x rfl) hstands) fun value m₁ _ hvalue => .pure ?_
    intro v hv
    cases hv
    exact hvalue

/-!
### The integrity of patterns and declarations

Binding a sound pattern writes to no name `this`.  It gives a name its first value only if the name
is not watched or not settled yet.
-/

variable {fresh : Bool}

theorem upholds_bind {p : Pattern} (hp : p.Sound) (hstands : m.Seated seat scope)
    {value : Value} (hvalue : m.Knows value) (fresh : Bool) :
    Upholds E W n m (fun e => e.bind p value scope fresh) Known :=
  .task h (List.forall_mem_singleton.mpr hvalue) ⟨hp, hstands⟩ fun _ _ => trivial

theorem upholds_bindElements {source : Value} (hsource : m.Knows source) (size i : Nat)
    {elements : List (Option Pattern)} (helements : ∀ p, some p ∈ elements → p.Sound)
    (hstands : m.Seated seat scope) :
    Upholds E W n m (fun e => e.bindElements source size scope fresh i elements)
      Anything := by
  induction elements generalizing m i with
  | nil => exact .pure trivial
  | cons element rest ih =>
    have hrest := fun p hp => helements p (List.mem_cons_of_mem _ hp)
    have hplain {target : Pattern} (htarget : target.Sound) :
        Upholds E W n m (fun e => (do
          let element ← Eval.getMember source (toString i)
          let _ ← e.bind target element scope fresh
          e.bindElements source size scope fresh (i + 1) rest : Eval Unit)) Anything := by
      refine .bind (upholds_getMember hsource _) fun v m₁ hlater₁ hv => ?_
      have hstands₁ := hstands.later hlater₁
      refine .bind (upholds_bind h htarget hstands₁ hv fresh) fun _ m₂ hlater₂ _ => ?_
      exact ih (hlater₂.within (hlater₁.within hsource)) (i + 1) hrest (hstands₁.later hlater₂)
    cases element with
    | none => exact ih hsource (i + 1) hrest hstands
    | some p =>
      have hp : p.Sound := helements p (List.mem_cons_self ..)
      cases p with
      | rest target =>
        have htarget : target.Sound := hp.part (List.mem_singleton.mpr rfl)
        refine .bind (upholds_elementsFrom hsource i _) fun values m₁ hlater₁ hvalues => ?_
        refine .bind (.newFullArray hvalues) fun array m₂ hlater₂ harray => ?_
        have hstands₂ := (hstands.later hlater₁).later hlater₂
        exact .bind (upholds_bind h htarget hstands₂ harray fresh) fun _ _ _ _ => .pure trivial
      | _ => exact hplain hp

theorem upholds_bindProperties {source : Value} (hsource : m.Knows source)
    {ps : List PatternProperty} (htarget : ∀ p ∈ ps, p.target.Sound)
    (hkey : ∀ p ∈ ps, ∀ x ∈ p.expressions, x.Sound) (hstands : m.Seated seat scope) :
    Upholds E W n m (fun e => e.bindProperties source scope fresh ps) Anything := by
  induction ps generalizing m with
  | nil => exact .pure trivial
  | cons p rest ih =>
    have htargets := fun p hp => htarget p (List.mem_cons_of_mem _ hp)
    have hkeys := fun p hp => hkey p (List.mem_cons_of_mem _ hp)
    have hp := htarget p (List.mem_cons_self ..)
    have hrest {m₁ m₂ : Machine} (hlater : m.store.Evolves (Watched W n) m₁.store)
        (hbound : m₁.store.Evolves (Watched W n) m₂.store) :
        Upholds E W n m₂ (fun e => e.bindProperties source scope fresh rest) Anything :=
      ih (hbound.within (hlater.within hsource)) htargets hkeys
        ((hstands.later hlater).later hbound)
    cases p with
    | shorthand name =>
      refine .bind (upholds_getMember hsource name) fun value m₁ hlater₁ hvalue => ?_
      refine .bind (upholds_bind h hp (hstands.later hlater₁) hvalue fresh) fun _ m₂ hlater₂ _ => ?_
      exact hrest hlater₁ hlater₂
    | keyed key target =>
      have hx : ∀ x ∈ key.parts, x.Sound := hkey (.keyed key target) (List.mem_cons_self ..)
      refine .bind (upholds_propertyKey h hx hstands) fun key m₁ hlater₁ _ => ?_
      refine .bind (upholds_getMember (hlater₁.within hsource) key)
        fun value m₂ hlater₂ hvalue => ?_
      have hlater := hlater₁.trans hlater₂
      refine .bind (upholds_bind h hp (hstands.later hlater) hvalue fresh) fun _ m₃ hlater₃ _ => ?_
      exact hrest hlater hlater₃

theorem upholds_valueFor (target : Pattern) {x : Expr} (hx : x.Sound)
    (hstands : m.Seated seat scope) :
    Upholds E W n m (fun e => e.valueFor target x scope) Known := by
  cases target with
  | identifier name => exact upholds_evaluateNamed h hx hstands name
  | _ => exact upholds_evaluate h hx hstands

/-- A name that gets its first value now is not settled if it is watched. -/
theorem upholds_bindPattern {p : Pattern} (hp : p.Sound) (hstands : m.Seated seat scope)
    {value : Value} (hvalue : m.Knows value)
    (hfresh : ∀ name, p = .identifier name → fresh = true → W.settled scope name →
      ∀ b, m.store.binding? scope name = some b → ¬ b.Settled) :
    Upholds E W n m (fun e => e.bindPattern p value scope fresh) Anything := by
  cases p with
  | identifier name =>
    have hname := hp.usable.ne_this
    refine .ite (fun hbind => ?_) fun _ => upholds_assignName hname hstands.there hvalue
    exact Upholds.anything (.update fun hs => hs.bind hstands.isOpen hname hvalue
      fun hwatched => hfresh name rfl hbind hwatched.2)
  | member target =>
    have htarget : target.Sound := hp.expression (List.mem_singleton.mpr rfl)
    refine .bind (upholds_reference h htarget hstands) fun r m₁ hlater hr => ?_
    exact upholds_putReference hr (hlater.lt hstands.there) (hlater.within hvalue)
  | withDefault target default =>
    have hdefault : default.Sound := hp.expression (List.mem_singleton.mpr rfl)
    have htarget : target.Sound := hp.part (List.mem_singleton.mpr rfl)
    have hbind (value : Value) (m₁ : Machine) (hlater : m.store.Evolves (Watched W n) m₁.store)
        (hvalue : m₁.Knows value) : Upholds E W n m₁ (fun e => (do
          let _ ← e.bind target value scope fresh : Eval Unit)) Anything :=
      .bind (upholds_bind h htarget (hstands.later hlater) hvalue fresh)
        fun _ _ _ _ => .pure trivial
    exact .ite (fun _ => .bind (upholds_valueFor h target hdefault hstands) hbind) fun _ =>
      .bind (.pure hvalue) hbind
  | array elements =>
    refine .ite (fun _ => .fault _) fun _ => ?_
    refine .bind (upholds_toObject hvalue) fun source m₁ hlater₁ hsource => ?_
    refine .bind (upholds_getMember hsource "length") fun size m₂ hlater₂ _ => ?_
    refine upholds_bindElements h (hlater₂.within hsource) _ 0 (fun p hmem => ?_)
      ((hstands.later hlater₁).later hlater₂)
    exact hp.part (List.reduceOption_mem_iff.mpr hmem)
  | object ps =>
    refine .ite (fun _ => .fault _) fun _ => upholds_bindProperties h hvalue ?_ ?_ hstands
    · exact fun p hmem => hp.part (List.mem_map.mpr ⟨p, hmem, rfl⟩)
    · exact fun p hmem x hx => hp.expression (List.mem_flatMap.mpr ⟨p, hmem, hx⟩)
  | rest target =>
    have htarget : target.Sound := hp.part (List.mem_singleton.mpr rfl)
    exact .bind (upholds_bind h htarget hstands hvalue fresh) fun _ _ _ _ => .pure trivial

theorem upholds_declarators (kind : DeclarationKind) {ds : List Declarator}
    (htarget : ∀ d ∈ ds, d.target.Sound) (hinit : ∀ d ∈ ds, ∀ x ∈ d.init, x.Sound)
    (hstands : m.Seated seat scope) :
    Upholds E W n m (fun e => e.declarators kind scope ds) Anything := by
  induction ds generalizing m with
  | nil => exact .pure trivial
  | cons d rest ih =>
    have hrest {m₁ : Machine} (hlater : m.store.Evolves (Watched W n) m₁.store) :
        Upholds E W n m₁ (fun e => e.declarators kind scope rest) Anything :=
      ih (fun d hd => htarget d (List.mem_cons_of_mem _ hd))
        (fun d hd => hinit d (List.mem_cons_of_mem _ hd)) (hstands.later hlater)
    have hd := htarget d (List.mem_cons_self ..)
    have hx := hinit d (List.mem_cons_self ..)
    obtain ⟨target, init⟩ := d
    cases init with
    | some x =>
      refine .bind (upholds_valueFor h target (hx x rfl) hstands) fun value m₁ hlater₁ hvalue => ?_
      refine .bind (upholds_bind h hd (hstands.later hlater₁) hvalue kind.isLexical)
        fun _ m₂ hlater₂ _ => hrest (hlater₁.trans hlater₂)
    | none =>
      refine .ite (fun _ => ?_) fun _ => hrest (.refl _)
      exact .bind (upholds_bind h hd hstands m.knows_undefined true) fun _ _ hlater _ =>
        hrest hlater

theorem upholds_declaration {d : Declaration} (hd : d.Sound) (hstands : m.Seated seat scope) :
    Upholds E W n m (fun e => e.declaration d scope) Anything := by
  cases hd with
  | intro targets inits => exact upholds_declarators h d.kind targets inits hstands

end ProtoScript.Integrity
