import ProtoScript.Proofs.Integrity.Value
/-!
# The integrity of native functions

Every native function that is not the host's gives a known value from known ones.  The one that
links objects to prototypes looks first whether the new prototype inherits from the object.
-/

namespace ProtoScript.Integrity

variable {E : EngineFamily} {W : Focus} {seat : Seat} {n : Nat}
  {m : Machine} {receiver : Value} {arguments : List Value}

theorem Upholds.takeNewTarget {α : Type} {G : Option Value → Engine → Eval α}
    {post : α → Machine → Prop}
    (hG : ∀ target, Upholds E W n { m with newTarget := none } (G target) post) :
    Upholds E W n m (fun e => Eval.takeNewTarget >>= fun target => G target e) post :=
  .aside m.newTarget { m with newTarget := none } rfl rfl (fun hm => ⟨hm.store, nofun⟩) (hG _)

theorem Upholds.look {α : Type} {f : Store → α} {post : α → Machine → Prop}
    (h : m.store.Intact → post (f m.store) m) : Upholds E W n m (fun _ => Eval.read f) post :=
  .step rfl (·.leads_self) h

theorem knows_argument (h : ∀ v ∈ arguments, m.Knows v) (i : Nat) :
    m.Knows (Value.argument arguments i) :=
  Value.argument_within h i

theorem upholds_allocate_intrinsic {p : ObjectId} (hp : p.index < intrinsicCount) :
    Upholds E W n m (fun _ => Eval.allocate { prototype := some p }) Known := by
  refine .allocate (fun hs => ObjectRecord.within_bare fun q hq => ?_) (.of_no_elements rfl .empty)
    rfl nofun
  cases hq
  exact hs.lt_intrinsic hp

theorem upholds_wrapIf (constructing : Bool) {v : Value} (hv : m.Knows v) :
    Upholds E W n m (fun _ => Engine.wrapIf constructing v) Known :=
  .ite (fun _ => .allocate (fun hs => ObjectRecord.within_wrapper hs.intrinsics hv)
    (.of_no_elements rfl .empty) rfl nofun) fun _ => .pure hv

theorem upholds_primitiveOf (hreceiver : m.Knows receiver) (wanted : ObjectClass)
    (method : String) :
    Upholds E W n m (fun _ => Engine.primitiveOf receiver wanted method) Known := by
  refine .intact fun hm => .bind .read fun found m₁ _ hfound => ?_
  obtain ⟨rfl, rfl⟩ := hfound
  split
  · rename_i v hv
    refine .pure ?_
    unfold Store.primitiveOf? at hv
    split at hv
    · rename_i r hr
      obtain ⟨id, _, hobject⟩ := Option.bind_eq_some_iff.mp hr
      split at hv
      · exact (hm.store.records id r hobject).primitive v (Option.filter_eq_some_iff.mp hv).1
      · cases hv
    · split at hv
      · cases hv
        exact hreceiver
      · cases hv
  · exact .fault _

/-! ### Objects -/

theorem upholds_setPrototypeOf {target prototype : Value} (htarget : m.Knows target)
    (hprototype : m.Knows prototype) :
    Upholds E W n m (fun _ => Engine.setPrototypeOf target prototype) Known := by
  refine .ite (fun _ => .fault _) fun _ => .ite (fun _ => .fault _) fun _ => ?_
  cases target with
  | object id =>
    refine .bind .read fun cyclic m₁ _ hcyclic => ?_
    obtain ⟨rfl, rfl⟩ := hcyclic
    refine .ite (fun _ => .fault _) fun hfree => ?_
    have hlink : Upholds E W n m₁
        (fun _ => Eval.update fun s => s.setPrototype id prototype.objectId?) Anything := by
      refine Upholds.anything (.update fun hs =>
        hs.setPrototype (fun p hp => hprototype.lt hp) fun hmem => hfree ?_)
      exact List.contains_iff_mem.mpr hmem
    refine .bind hlink fun _ m₂ hlater _ => .pure ?_
    exact hlater.within htarget
  | _ => exact .pure trivial

theorem within_describedProperty {s : Store} (hs : s.Intact) (attributes : ObjectId)
    {p : DataProperty} (hp : p.value.Within s.objects.size) :
    (s.describedProperty attributes p).value.Within s.objects.size := by
  unfold Store.describedProperty
  dsimp only
  cases hfound : s.property? attributes "value" with
  | none => exact hp
  | some found => exact hs.within_property? hfound

section

variable (h : Backs W seat E)

include h

theorem upholds_defineProperty {target key : Value} (attributes : Value) (htarget : m.Knows target)
    (hkey : m.Knows key) :
    Upholds E W n m (fun e => e.defineProperty target key attributes) Known := by
  cases target with
  | object id =>
    refine .bind (upholds_toUnicode h hkey) fun key m₁ hlater₁ _ => ?_
    have htarget₁ := hlater₁.within htarget
    cases attributes with
    | object attributes =>
      have hdefine : Upholds E W n m₁ (fun _ => Eval.updateGet fun s =>
          s.define id key
            (s.describedProperty attributes ((s.ownProperty? id key).getD (.fixed .undefined))))
          fun _ m' => m'.Knows (.object id) := by
        have hdescribed (hs : m₁.store.Intact) : (m₁.store.describedProperty attributes
            ((m₁.store.ownProperty? id key).getD (.fixed .undefined))).value.Within
              m₁.store.objects.size := by
          refine within_describedProperty hs attributes ?_
          cases hcurrent : m₁.store.ownProperty? id key with
          | none => trivial
          | some current => exact hs.within_ownProperty? hcurrent
        refine .updateGet (fun hs => hs.define id key (hdescribed hs)) fun hs => ?_
        have hleads : m₁.store.Leads (Watched W n) _ := hs.define id key (hdescribed hs)
        exact hleads.evolves.within htarget₁
      exact .bind hdefine fun admitted m₂ _ hknown =>
        .ite (fun _ => .pure hknown) fun _ => .fault _
    | _ => exact .fault _
  | _ => exact .fault _

omit h in
theorem upholds_classWord (v : Value) :
    Upholds E W n m (fun _ => Engine.classWord v) Anything := by
  unfold Engine.classWord
  split
  · exact .pure trivial
  · exact .pure trivial
  · exact Upholds.read.anything
  · exact .pure trivial

theorem upholds_objectNative (f : ObjectNative) (hreceiver : m.Knows receiver)
    (harguments : ∀ v ∈ arguments, m.Knows v) :
    Upholds E W n m (fun e => f.run e receiver arguments) Known := by
  have hargument := knows_argument harguments
  cases f with
  | constructor =>
    refine .takeNewTarget fun _ => .ite (fun _ => ?_) fun _ => upholds_toObject (hargument 0)
    exact upholds_allocate_intrinsic objectPrototype_lt
  | getPrototypeOf =>
    refine .bind (upholds_toObject (hargument 0)) fun o m₁ _ _ => ?_
    split
    · rename_i id _
      have hlink : Upholds E W n m₁ (fun _ => Eval.read fun s => s.prototype? id)
          fun link m' => m'.Knows ((link.map Value.object).getD .null) := by
        refine .look fun hs => ?_
        cases hfound : m₁.store.prototype? id with
        | none => trivial
        | some p => exact hs.within_prototype? hfound
      exact .bind hlink fun link m₂ _ hknown => .pure hknown
    · exact .pure trivial
  | setPrototypeOf => exact upholds_setPrototypeOf (hargument 0) (hargument 1)
  | create =>
    refine .ite (fun _ => ?_) fun _ => .fault _
    exact .allocate (fun _ => ObjectRecord.within_bare fun p hp => (hargument 0).lt hp)
      (.of_no_elements rfl .empty) rfl nofun
  | defineProperty => exact upholds_defineProperty h _ (hargument 0) (hargument 1)
  | keys =>
    have hkeys (m' : Machine) (keys : List String) :
        Upholds E W n m' (fun _ => Eval.newFullArray (keys.map .ofString)) Known := by
      refine .newFullArray fun v hv => ?_
      obtain ⟨key, _, rfl⟩ := List.mem_map.mp hv
      trivial
    refine .bind (upholds_toObject (hargument 0)) fun o m₁ _ _ => ?_
    split
    · refine .bind (.look fun _ => trivial) fun keys m₂ _ (_ : True) => ?_
      have hlisted := hkeys m₂ (keys.map Prod.fst)
      rw [List.map_map] at hlisted
      exact hlisted
    · exact hkeys _ []
  | hasOwnProperty =>
    refine .bind (upholds_toUnicode h (hargument 0)) fun key m₁ hlater _ => ?_
    refine .bind (upholds_toObject (hlater.within hreceiver)) fun o m₂ _ _ => ?_
    split
    · exact .bind .read fun _ _ _ _ => .pure trivial
    · exact .pure trivial
  | toString => exact .bind (upholds_classWord receiver) fun _ _ _ _ => .pure trivial
  | valueOf => exact upholds_toObject hreceiver

/-! ### Arrays -/

theorem upholds_position {v : Value} (hv : m.Knows v) :
    Upholds E W n m (fun e => e.position v) Anything :=
  .ite (fun _ => .pure trivial) fun _ => .bind (upholds_toNumber h hv) fun _ _ _ _ => .pure trivial

theorem upholds_lengthOf {v : Value} (hv : m.Knows v) :
    Upholds E W n m (fun e => e.lengthOf v) Anything := by
  refine .bind (upholds_getMember hv _) fun length m₁ _ hlength => ?_
  refine .bind (upholds_toNumber h hlength) fun x m₂ _ _ => ?_
  refine .ite (fun _ => .pure trivial) fun _ => ?_
  exact .ite (fun _ => .pure trivial) fun _ => .pure trivial

theorem upholds_elementsOf {v : Value} (hv : m.Knows v) :
    Upholds E W n m (fun e => e.elementsOf v)
      fun values m' => ∀ v ∈ values, m'.Knows v :=
  .bind (upholds_lengthOf h hv) fun _ _ hlater _ => upholds_elementsFrom (hlater.within hv) _ _

omit h in
theorem upholds_pushAll (o : Value) (i : Nat) {values : List Value}
    (hvalues : ∀ v ∈ values, m.Knows v) :
    Upholds E W n m (fun _ => Engine.pushAll o i values) Anything := by
  induction values generalizing m i with
  | nil => exact .pure trivial
  | cons value rest ih =>
    obtain ⟨hvalue, hrest⟩ := List.forall_mem_cons.mp hvalues
    refine .bind (upholds_setMember o _ hvalue true) fun _ m₁ hlater _ => ?_
    exact ih (i + 1) fun v hv => hlater.within (hrest v hv)

theorem upholds_push (hreceiver : m.Knows receiver) (harguments : ∀ v ∈ arguments, m.Knows v) :
    Upholds E W n m (fun e => e.push receiver arguments) Known := by
  refine .bind (upholds_toObject hreceiver) fun o m₁ hlater₁ ho => ?_
  refine .bind (upholds_lengthOf h ho) fun length m₂ hlater₂ _ => ?_
  have hvalues := fun v hv => hlater₂.within (hlater₁.within (harguments v hv))
  refine .bind (upholds_pushAll o length hvalues) fun length m₃ _ _ => ?_
  exact .bind (upholds_setMember o "length" (m₃.knows_ofNat _) true) fun _ _ _ _ => .pure trivial

theorem upholds_pop (hreceiver : m.Knows receiver) :
    Upholds E W n m (fun e => e.pop receiver) Known := by
  have hlength {m' : Machine} (o element : Value) (size : Nat) (helement : m'.Knows element) :
      Upholds E W n m' (fun _ => (do
        Eval.setMember o "length" (.ofNat size) true
        return element : Eval Value)) Known :=
    .bind (upholds_setMember o "length" (m'.knows_ofNat _) true) fun _ _ hlater _ =>
      .pure (hlater.within helement)
  refine .bind (upholds_toObject hreceiver) fun o m₁ _ ho => ?_
  refine .bind (upholds_lengthOf h ho) fun length m₂ hlater₂ _ => ?_
  refine .ite (fun _ => hlength o .undefined 0 trivial) fun _ => ?_
  refine .bind (upholds_getMember (hlater₂.within ho) _) fun element m₃ _ helement => ?_
  dsimp only
  split
  · rename_i id
    have hdelete : Upholds E W n m₃
        (fun _ => Eval.updateGet fun s => s.delete id (toString (length - 1)))
        fun _ m' => m'.Knows element := by
      refine .updateGet (fun hs => hs.delete id _) fun hs => ?_
      have hleads : m₃.store.Leads (Watched W n) _ := hs.delete id (toString (length - 1))
      exact hleads.evolves.within helement
    exact .bind hdelete fun _ m₄ _ helement => hlength _ element _ helement
  · exact hlength o element _ helement

theorem upholds_joinFrom {o : Value} (ho : m.Knows o) (separator : Text) (i count : Nat)
    (text : Text) :
    Upholds E W n m (fun e => e.joinFrom o separator i count text) Anything := by
  induction count generalizing m i text with
  | zero => exact .pure trivial
  | succ count ih =>
    refine .bind (upholds_getMember ho _) fun element m₁ hlater₁ helement => ?_
    have hrest (part : Text) (m₂ : Machine) (hlater₂ : m₁.store.Evolves (Watched W n) m₂.store)
        (_ : True) : Upholds E W n m₂ (fun e => e.joinFrom o separator (i + 1) count
          ((if i = 0 then text else text ++ separator) ++ part)) Anything :=
      ih (hlater₂.within (hlater₁.within ho)) _ _
    exact .ite (fun _ => .bind (.pure trivial) hrest) fun _ =>
      .bind (upholds_toText h helement) hrest

theorem upholds_join {separator : Value} (hreceiver : m.Knows receiver)
    (hseparator : m.Knows separator) :
    Upholds E W n m (fun e => e.join receiver separator) Known := by
  refine .bind (upholds_toObject hreceiver) fun o m₁ hlater₁ ho => ?_
  refine .bind (upholds_lengthOf h ho) fun length m₂ hlater₂ _ => ?_
  have hrest (text : Text) (m₃ : Machine) (hlater₃ : m₂.store.Evolves (Watched W n) m₃.store)
      (_ : True) : Upholds E W n m₃ (fun e => (do
        return .string (← e.joinFrom o text 0 length .empty) : Eval Value)) Known :=
    .bind (upholds_joinFrom h (hlater₃.within (hlater₂.within ho)) text 0 length .empty)
      fun _ _ _ _ => .pure trivial
  have hseparator₂ := hlater₂.within (hlater₁.within hseparator)
  exact .ite (fun _ => .bind (.pure trivial) hrest) fun _ =>
    .bind (upholds_toText h hseparator₂) hrest

omit h in
theorem upholds_searchFrom {o : Value} (target : Value) (ho : m.Knows o) (count : Nat)
    (position : Float) :
    Upholds E W n m (fun _ => Engine.searchFrom o target count position) Known := by
  induction count generalizing m position with
  | zero => exact .pure trivial
  | succ count ih =>
    refine .bind .read fun present m₁ hlater₁ _ => ?_
    have ho₁ := hlater₁.within ho
    refine .bind (upholds_getMember ho₁ _) fun element m₂ hlater₂ _ => ?_
    exact .ite (fun _ => .pure trivial) fun _ => ih (hlater₂.within ho₁) _

theorem upholds_indexOf {start : Value} (target : Value) (hreceiver : m.Knows receiver)
    (hstart : m.Knows start) :
    Upholds E W n m (fun e => e.indexOf receiver target start) Known := by
  refine .bind (upholds_toObject hreceiver) fun o m₁ hlater₁ ho => ?_
  refine .bind (upholds_lengthOf h ho) fun length m₂ hlater₂ _ => ?_
  have hstart₂ := hlater₂.within (hlater₁.within hstart)
  refine .bind (upholds_position h hstart₂) fun start m₃ hlater₃ _ => ?_
  exact upholds_searchFrom target (hlater₃.within (hlater₂.within ho)) _ _

theorem upholds_arrayNative (f : ArrayNative) (hreceiver : m.Knows receiver)
    (harguments : ∀ v ∈ arguments, m.Knows v) :
    Upholds E W n m (fun e => f.run e receiver arguments) Known := by
  have hargument := knows_argument harguments
  cases f with
  | constructor =>
    refine .takeNewTarget fun _ => ?_
    split
    · split
      · refine .newArray fun v hv => ?_
        cases (Array.mem_replicate.mp hv).2
      · exact .fault _
    · exact .newFullArray harguments
  | isArray => exact .bind .read fun _ _ _ _ => .pure trivial
  | push => exact upholds_push h hreceiver harguments
  | pop => exact upholds_pop h hreceiver
  | join => exact upholds_join h hreceiver (hargument 0)
  | toString => exact upholds_join h hreceiver trivial
  | indexOf => exact upholds_indexOf h _ hreceiver (hargument 1)

/-! ### Errors -/

theorem upholds_errorPart {error : Value} (herror : m.Knows error) (key fallback : String) :
    Upholds E W n m (fun e => e.errorPart error key fallback) Anything :=
  .bind (upholds_getMember herror key) fun _ _ _ hpart =>
    .ite (fun _ => .pure trivial) fun _ => upholds_toUnicode h hpart

theorem upholds_errorNative (f : ErrorNative) (hreceiver : m.Knows receiver)
    (harguments : ∀ v ∈ arguments, m.Knows v) :
    Upholds E W n m (fun e => f.run e receiver arguments) Known := by
  cases f with
  | constructor kind =>
    refine .takeNewTarget fun _ => .ite (fun _ => ?_) fun _ => ?_
    · refine .allocate (fun hs => ?_) (.of_no_elements rfl .empty) rfl nofun
      exact { ObjectRecord.within_error kind "" hs.intrinsics with slots := .empty }
    · refine .bind (upholds_toUnicode h (knows_argument harguments 0)) fun message m₁ _ _ => ?_
      exact .allocate (fun hs => ObjectRecord.within_error kind message hs.intrinsics)
        (.of_no_elements rfl (.ofList _)) rfl nofun
  | toString =>
    refine .ite (fun _ => .fault _) fun _ => ?_
    refine .bind (upholds_errorPart h hreceiver _ _) fun name m₁ hlater _ => ?_
    exact .bind (upholds_errorPart h (hlater.within hreceiver) _ _) fun _ _ _ _ => .pure trivial

/-! ### Functions -/

theorem upholds_unicodeTexts {values : List Value} (hvalues : ∀ v ∈ values, m.Knows v) :
    Upholds E W n m (fun e => e.unicodeTexts values) Anything := by
  induction values generalizing m with
  | nil => exact .pure trivial
  | cons v rest ih =>
    obtain ⟨hv, hrest⟩ := List.forall_mem_cons.mp hvalues
    refine .bind (upholds_toUnicode h hv) fun text m₁ hlater _ => ?_
    refine .bind (ih fun w hw => hlater.within (hrest w hw)) fun _ _ _ _ => .pure trivial

omit h in
theorem upholds_functionOfText (parameters : List String) (body : String) :
    Upholds E W n m (fun _ => Engine.functionOfText parameters body) Known := by
  refine .intact fun hm => ?_
  unfold Engine.functionOfText
  split
  · exact .fault _
  · rename_i p hp
    split
    · rename_i d rest hbody
      exact .newClosure (FunctionDef.sound_ofString hp hbody) hm.store.sound.global
    · exact .fault _

theorem upholds_functionNative (f : FunctionNative) (hreceiver : m.Knows receiver)
    (harguments : ∀ v ∈ arguments, m.Knows v) :
    Upholds E W n m (fun e => f.run e receiver arguments) Known := by
  have hargument := knows_argument harguments
  cases f with
  | prototype => exact .pure trivial
  | constructor =>
    refine .takeNewTarget fun _ => ?_
    exact .bind (upholds_unicodeTexts h harguments) fun _ _ _ _ => upholds_functionOfText _ _
  | call =>
    refine .bind .read fun callable m₁ _ hcallable => ?_
    obtain ⟨_, rfl⟩ := hcallable
    refine .ite (fun _ => ?_) fun _ => .fault _
    exact .call h hreceiver (hargument 0) fun v hv => harguments v (List.mem_of_mem_tail hv)
  | apply =>
    refine .bind .read fun callable m₁ _ hcallable => ?_
    obtain ⟨_, rfl⟩ := hcallable
    refine .ite (fun _ => ?_) fun _ => .fault _
    refine .ite (fun _ => ?_) fun _ => .ite (fun _ => ?_) fun _ => .fault _
    · exact .call h hreceiver (hargument 0) nofun
    · refine .bind (upholds_elementsOf h (hargument 1)) fun values m₂ hlater hvalues => ?_
      exact .call h (hlater.within hreceiver) (hlater.within (hargument 0)) hvalues
  | toString =>
    refine .bind .read fun callable m₁ _ hcallable => ?_
    obtain ⟨_, rfl⟩ := hcallable
    refine .ite (fun _ => ?_) fun _ => .fault _
    exact .bind (upholds_getMember hreceiver "name") fun _ _ _ _ => .pure trivial

/-! ### Global functions and the harness -/

theorem upholds_globalNative (f : GlobalNative) (harguments : ∀ v ∈ arguments, m.Knows v) :
    Upholds E W n m (fun e => f.run e arguments) Known := by
  have hargument := knows_argument harguments
  cases f with
  | eval => exact .task h (List.forall_mem_singleton.mpr (hargument 0)) trivial fun _ _ => trivial
  | isNaN => exact .bind (upholds_toNumber h (hargument 0)) fun _ _ _ _ => .pure trivial
  | parseInt =>
    refine .bind (upholds_toUnicode h (hargument 0)) fun text m₁ hlater _ => ?_
    exact .bind (upholds_toNumber h (hlater.within (hargument 1))) fun _ _ _ _ => .pure trivial
  | parseFloat => exact .bind (upholds_toUnicode h (hargument 0)) fun _ _ _ _ => .pure trivial

omit h in
theorem upholds_assert (a : Engine.Assertion) :
    Upholds E W n m (fun _ => Engine.assert a) Known := by
  refine .ite (fun _ => .pure trivial) fun _ => .bind .read fun _ _ _ _ => ?_
  exact .bind .read fun _ _ _ _ => .bind .read fun _ _ _ _ => .fault _

theorem upholds_assertThrows {constructor function : Value} (hconstructor : m.Knows constructor)
    (hfunction : m.Knows function) (harguments : ∀ v ∈ arguments, m.Knows v) :
    Upholds E W n m (fun e => e.assertThrows constructor function arguments) Known := by
  refine .bind (Upholds.call h hfunction m.knows_undefined harguments).attempt
    fun outcome m₁ hlater houtcome => ?_
  match outcome with
  | .error (.thrown exception) =>
    refine .bind (upholds_instanceOf exception (hlater.within hconstructor))
      fun isInstance m₂ _ _ => ?_
    exact .ite (fun _ => .pure trivial) fun _ => .bind .read fun _ _ _ _ => .fault _
  | .ok _ => exact .fault _
  | .error (.returned _) => exact .fault _
  | .error (.broke _) => exact .fault _
  | .error (.continued _) => exact .fault _

theorem upholds_harnessNative (f : HarnessNative) (harguments : ∀ v ∈ arguments, m.Knows v) :
    Upholds E W n m (fun e => f.run e arguments) Known := by
  have hargument := knows_argument harguments
  cases f with
  | assert => exact upholds_assert _
  | assertThrows =>
    refine upholds_assertThrows h (hargument 0) (hargument 1) fun v hv => harguments v ?_
    exact List.mem_of_mem_drop hv
  | println =>
    refine .bind .read fun texts m₁ _ _ => ?_
    exact .aside () { m₁ with output := _ } rfl rfl (fun hm => ⟨hm.store, hm.newTarget⟩)
      (.pure trivial)

/-! ### Strings, numbers and booleans -/

theorem upholds_receiverText (hreceiver : m.Knows receiver) (method : String) :
    Upholds E W n m (fun e => e.receiverText receiver method) Anything :=
  .ite (fun _ => .fault _) fun _ => upholds_toText h hreceiver

theorem upholds_numberText (x : Float) {radix : Value} (hradix : m.Knows radix) :
    Upholds E W n m (fun e => e.numberText x radix) Known := by
  have hrest (radix : Float) (m₁ : Machine) (_ : m.store.Evolves (Watched W n) m₁.store)
      (_ : True) : Upholds E W n m₁ (fun _ => (
        if radix < 2 || 36 < radix then Eval.fault .radix
        else if radix == 10 || !x.isFinite || x == 0 then return .ofString (Number.display x)
        else return .ofString (String.ofList (Number.inRadix x (Number.toIndex radix))) :
        Eval Value)) Known :=
    .ite (fun _ => .fault _) fun _ => .ite (fun _ => .pure trivial) fun _ => .pure trivial
  exact .ite (fun _ => .bind (.pure trivial) hrest) fun _ => .bind (upholds_position h hradix) hrest

theorem upholds_stringNative (f : StringNative) (hreceiver : m.Knows receiver)
    (harguments : ∀ v ∈ arguments, m.Knows v) :
    Upholds E W n m (fun e => f.run e receiver arguments) Known := by
  have hargument := knows_argument harguments
  cases f with
  | constructor =>
    refine .takeNewTarget fun target => ?_
    cases arguments with
    | nil => exact upholds_wrapIf _ trivial
    | cons v rest =>
      refine .bind (upholds_toText h (harguments v (List.mem_cons_self ..))) fun text m₁ _ _ => ?_
      exact upholds_wrapIf _ trivial
  | charAt =>
    refine .bind (upholds_receiverText h hreceiver _) fun text m₁ hlater _ => ?_
    refine .bind (upholds_position h (hlater.within (hargument 0))) fun i m₂ _ _ => ?_
    exact .ite (fun _ => .pure trivial) fun _ => .pure trivial
  | charCodeAt =>
    refine .bind (upholds_receiverText h hreceiver _) fun text m₁ hlater _ => ?_
    refine .bind (upholds_position h (hlater.within (hargument 0))) fun i m₂ _ _ => ?_
    split <;> exact .pure trivial
  | indexOf =>
    refine .bind (upholds_receiverText h hreceiver _) fun text m₁ hlater₁ _ => ?_
    refine .bind (upholds_toText h (hlater₁.within (hargument 0))) fun sought m₂ hlater₂ _ => ?_
    have hplace := hlater₂.within (hlater₁.within (hargument 1))
    refine .bind (upholds_position h hplace) fun i m₃ _ _ => ?_
    dsimp only
    split <;> exact .pure trivial
  | slice =>
    refine .bind (upholds_receiverText h hreceiver _) fun text m₁ hlater₁ _ => ?_
    refine .bind (upholds_position h (hlater₁.within (hargument 0))) fun start m₂ hlater₂ _ => ?_
    refine .ite (fun _ => .pure trivial) fun _ => ?_
    have hstop := hlater₂.within (hlater₁.within (hargument 1))
    exact .bind (upholds_position h hstop) fun stop m₃ _ _ => .pure trivial
  | toString => exact upholds_primitiveOf hreceiver _ _
  | valueOf => exact upholds_primitiveOf hreceiver _ _

theorem upholds_numberNative (f : NumberNative) (hreceiver : m.Knows receiver)
    (harguments : ∀ v ∈ arguments, m.Knows v) :
    Upholds E W n m (fun e => f.run e receiver arguments) Known := by
  cases f with
  | constructor =>
    refine .takeNewTarget fun target => ?_
    cases arguments with
    | nil => exact upholds_wrapIf _ trivial
    | cons v rest =>
      refine .bind (upholds_toNumber h (harguments v (List.mem_cons_self ..))) fun x m₁ _ _ => ?_
      exact upholds_wrapIf _ trivial
  | toString =>
    refine .bind (upholds_primitiveOf hreceiver _ _) fun v m₁ hlater _ => ?_
    exact upholds_numberText h _ (hlater.within (knows_argument harguments 0))
  | valueOf => exact upholds_primitiveOf hreceiver _ _

omit h in
theorem upholds_booleanNative (f : BooleanNative) (hreceiver : m.Knows receiver) :
    Upholds E W n m (fun _ => f.run receiver arguments) Known := by
  cases f with
  | constructor => exact .takeNewTarget fun target => upholds_wrapIf _ trivial
  | valueOf => exact upholds_primitiveOf hreceiver _ _
  | toString => exact .bind (upholds_primitiveOf hreceiver _ _) fun _ _ _ _ => .pure trivial

/-! ### All of them -/

theorem upholds_native {host : Host} (f : Native)
    (hhost : ∀ name arity, f = .host name arity →
      Upholds E W n m (fun e => host name e receiver arguments) Known)
    (hreceiver : m.Knows receiver) (harguments : ∀ v ∈ arguments, m.Knows v) :
    Upholds E W n m (fun e => f.run host e receiver arguments) Known := by
  cases f with
  | global f => exact upholds_globalNative h f harguments
  | object f => exact upholds_objectNative h f hreceiver harguments
  | function f => exact upholds_functionNative h f hreceiver harguments
  | array f => exact upholds_arrayNative h f hreceiver harguments
  | string f => exact upholds_stringNative h f hreceiver harguments
  | number f => exact upholds_numberNative h f hreceiver harguments
  | boolean f => exact upholds_booleanNative f hreceiver
  | error f => exact upholds_errorNative h f hreceiver harguments
  | harness f => exact upholds_harnessNative h f harguments
  | host name arity => exact hhost name arity rfl

end

end ProtoScript.Integrity
