import ProtoScript.Proofs.Integrity.Scopes
/-!
# Objects of intact stores

Each operation on objects leads from an intact store to an intact one, as long as what it puts in is
known, it puts no plain property past the elements into an array and none in the place of one that
is shared, and a new prototype does not inherit from the object that is linked to it.
-/

namespace ProtoScript

/-- The second record is the first one after an operation: it has no elements and shares nothing if
the first is like that, shares what it shares as arguments do, and refers to known objects. -/
structure ObjectRecord.Becomes (n : Nat) (r r' : ObjectRecord) : Prop where
  elements : r.elements = none → r'.elements = none
  less : r.SharesLess r'
  tidy : r.Tidy → r'.Tidy
  shared : r.WellShared → r'.WellShared
  within : r.Within n → r'.Within n

namespace Store

variable {kept : Watch} {s : Store}

/-- A change to a record that keeps its prototype and what a call of it runs. -/
theorem Intact.modifyObject (hs : s.Intact) (id : ObjectId) {f : ObjectRecord → ObjectRecord}
    (hprototype : ∀ r, (f r).prototype = r.prototype)
    (hcallable : ∀ r, (f r).callable = r.callable)
    (h : ∀ r, s.object? id = some r → r.Becomes s.objects.size (f r)) :
    s.Preserves kept.settled (s.modifyObject id f) ∧ (s.modifyObject id f).Intact := by
  have hsize : (s.modifyObject id f).objects.size = s.objects.size := Array.size_modify ..
  refine ⟨⟨Nat.le_of_eq hsize.symm,
    fun _ hid => hid.modifyObject id fun r hr => ⟨(h r hr).elements, (h r hr).less⟩,
    fun _ a ha => ⟨a, ha, rfl⟩, fun _ _ => rfl, fun _ _ _ _ hb _ => hb⟩, ?_⟩
  refine ⟨?_, fun other r hr => ?_, ?_, hs.founded.modifyObject id hprototype,
    hs.tidy.modifyObject fun r hr => (h r hr).tidy,
    hs.shared.modifyObject fun r hr => (h r hr).shared,
    fun scope name hshared => hs.shares scope name (hshared.of_modifyObject fun r hr =>
      (h r hr).less),
    hs.nested, hs.sound.grows (s.grows_modifyObject id hcallable), hs.named.of_scopes rfl,
    hs.receivers⟩
  · rw [hsize]
    exact hs.intrinsics
  · rw [hsize]
    rw [object?_modifyObject] at hr
    obtain ⟨before, hbefore, rfl | ⟨rfl, rfl⟩⟩ := exists_of_ite_map hr
    · exact hs.records other _ hbefore
    · exact (h before hbefore).within (hs.records other before hbefore)
  · rw [hsize]
    exact hs.bindings

/-- A slot for a property that is not shared, and not plain or in an object that is no array. -/
theorem Intact.insert (hs : s.Intact) (id : ObjectId) (key : String) {p : DataProperty}
    (hp : p.value.Within s.objects.size) (hplace : p.isPlain = false ∨ s.Ordinary id)
    (hkey : s.joined? id key = none) : s.Leads kept (s.insert id key p) := by
  refine .of_operation (.insert id key p) hkey rfl
    (hs.modifyObject id (fun _ => rfl) (fun _ => rfl) fun r hr => ?_)
  refine ⟨fun h => h, fun _ _ h => h,
    fun htidy => htidy.insert fun hsome _ => hplace.resolve_right ?_,
    fun h => h.insert ((joined?_of_object? hr key).symm.trans hkey) p, fun h => h.insert key hp⟩
  rintro ⟨r', hr', hnone, -⟩
  cases hr.symm.trans hr'
  rw [hnone] at hsome
  cases hsome

theorem Intact.nameFunction (hs : s.Intact) (function : Value) (name : String) :
    s.Leads kept (s.nameFunction function name) := by
  cases function with
  | object id =>
    exact hs.insert id _ trivial (.inl rfl)
      (hs.shared.joined?_eq_none id (Number.not_isNumeral (by decide)))
  | _ => exact hs.leads_self

theorem Intact.assignShared (hs : s.Intact) (r : ObjectRecord) (key : String) {value : Value}
    (hvalue : value.Within s.objects.size) : s.Leads kept (s.assignShared r key value) := by
  unfold Store.assignShared
  split
  · exact hs.assign _ _ hvalue
  · exact hs.leads_self

/-- The parameter that a property shares is written first, and then the record changes. -/
theorem Intact.writeShared (hs : s.Intact) (id : ObjectId) (r : ObjectRecord) (key : String)
    {value : Value} (hvalue : value.Within s.objects.size) {f : ObjectRecord → ObjectRecord}
    (hprototype : ∀ r, (f r).prototype = r.prototype)
    (hcallable : ∀ r, (f r).callable = r.callable)
    (h : ∀ r' n, value.Within n → s.object? id = some r' → r'.Becomes n (f r')) :
    s.Preserves kept.settled ((s.assignShared r key value).modifyObject id f) ∧
      ((s.assignShared r key value).modifyObject id f).Intact := by
  have hshared : s.Leads kept (s.assignShared r key value) := hs.assignShared r key hvalue
  have hmodified : (s.assignShared r key value).Preserves kept.settled _ ∧ Store.Intact _ :=
    hshared.intact.modifyObject id hprototype hcallable fun r' hr' =>
      h r' _ (hshared.evolves.within hvalue) (by rwa [object?_assignShared] at hr')
  exact ⟨hshared.evolves.toPreserves.trans hmodified.1, hmodified.2⟩

theorem Intact.define (hs : s.Intact) (id : ObjectId) (key : String) {p : DataProperty}
    (hp : p.value.Within s.objects.size) : s.Leads kept (s.define id key p).2 := by
  refine .of_operation (.property id (.define key p)) trivial rfl ?_
  unfold Store.define
  split
  · exact ⟨.refl s, hs⟩
  · rename_i r _
    split
    · refine hs.writeShared id r key hp (fun r => r.prototype_define key p)
        (fun r => r.callable_define key p) fun r n hvalue _ => ?_
      exact ⟨ObjectRecord.elements_define_of_none, ObjectRecord.sharesLess_define r key p,
        fun h => h.define key p, fun h => h.define key p, fun h => h.define key hvalue⟩
    · exact ⟨.refl s, hs⟩

theorem Intact.set (hs : s.Intact) (id : ObjectId) (key : String) {value : Value}
    (hvalue : value.Within s.objects.size) : s.Leads kept (s.set id key value).2 := by
  refine .of_operation (.property id (.set key value)) trivial rfl ?_
  unfold Store.set
  split
  · exact ⟨.refl s, hs⟩
  · rename_i r hr
    refine hs.writeShared id r key hvalue (fun r => r.prototype_assign key value _)
      (fun r => r.callable_assign key value _) fun r' n hvalue hr' => ?_
    cases hr.symm.trans hr'
    have hassigned := r.assigned_assign (s.propertyAmong? (s.chain r.prototype) key) key value
    exact ⟨fun h => ObjectRecord.elements_assign_of_none h value _,
      ObjectRecord.sharesLess_assign hassigned, fun h => h.assign hassigned,
      fun h => h.assign hassigned, fun h => h.assign key hvalue _⟩

theorem Intact.delete (hs : s.Intact) (id : ObjectId) (key : String) :
    s.Leads kept (s.delete id key).2 := by
  refine .of_operation (.property id (.delete key)) trivial rfl ?_
  unfold Store.delete
  split
  · exact ⟨.refl s, hs⟩
  · split
    · refine hs.modifyObject id (fun r => r.prototype_delete key) (fun r => r.callable_delete key)
        fun r _ => ?_
      exact ⟨ObjectRecord.elements_delete_of_none, ObjectRecord.sharesLess_delete r key,
        fun h => h.delete key, fun h => h.delete key, fun h => h.delete key⟩
    · exact ⟨.refl s, hs⟩

theorem size_allocate (s : Store) (r : ObjectRecord) :
    (s.allocate r).2.objects.size = s.objects.size + 1 :=
  Array.size_push ..

/-- A new object may share parameters in scopes inside the global one that are there. -/
theorem Intact.allocateSharing (hs : s.Intact) {r : ObjectRecord} (hr : r.Within s.objects.size)
    (htidy : r.Tidy) (hshared : r.WellShared)
    (hscopes : ∀ key scope name, r.sharedParameters.find? key = some (scope, name) →
      scope ≠ .global ∧ scope.index < s.scopes.size)
    (hclosure : ∀ d scope, r.callable = some (.closure d scope) →
      d.Sound ∧ scope.index < s.scopes.size) :
    s.Preserves kept.settled (s.allocate r).2 ∧ (s.allocate r).2.Intact := by
  have hle : s.objects.size ≤ (s.allocate r).2.objects.size := by
    rw [size_allocate]
    exact Nat.le_succ _
  refine ⟨⟨hle, fun _ h => h.allocate r, fun _ a ha => ⟨a, ha, rfl⟩, fun _ _ => rfl,
    fun _ _ _ _ hb _ => hb⟩, ?_⟩
  refine ⟨Nat.le_trans hs.intrinsics hle, fun id record hrecord => ?_, fun id a ha => ?_,
    hs.founded.allocate hr.prototype, hs.tidy.allocate htidy, hs.shared.allocate hshared,
    fun scope name hshares => ?_, hs.nested, ⟨hs.sound.global, ?_⟩, hs.named.of_scopes rfl,
    hs.receivers⟩
  · rw [object?_allocate] at hrecord
    split at hrecord
    · cases hrecord
      exact hr.mono hle
    · exact (hs.records id record hrecord).mono hle
  · exact (hs.bindings id a ha).mono hle
  · rcases hshares.of_allocate with hbefore | ⟨key, hkey⟩
    · exact hs.shares scope name hbefore
    · exact hscopes key scope name hkey
  · rintro d scope ⟨id, record, hrecord, hcallable⟩
    rw [object?_allocate] at hrecord
    split at hrecord
    · cases hrecord
      exact hclosure d scope hcallable
    · exact hs.sound.closures d scope ⟨id, record, hrecord, hcallable⟩

theorem Intact.allocate (hs : s.Intact) {r : ObjectRecord} (hr : r.Within s.objects.size)
    (htidy : r.Tidy) (hunshared : r.sharedParameters = .empty)
    (hclosure : ∀ d scope, r.callable = some (.closure d scope) →
      d.Sound ∧ scope.index < s.scopes.size) : s.Leads kept (s.allocate r).2 :=
  .of_operation (.allocate r) hunshared rfl (hs.allocateSharing hr htidy (.of_unshared hunshared)
    (fun key _ _ hkey => by rw [hunshared] at hkey; cases hkey) hclosure)

theorem within_allocate (s : Store) (r : ObjectRecord) :
    (Value.object (s.allocate r).1).Within (s.allocate r).2.objects.size := by
  rw [size_allocate]
  exact Nat.lt_succ_self _

/-- The arguments of a call may share the parameters of a new scope that does not bind them yet. -/
theorem Intact.shareArguments (hs : s.Intact) {id : ScopeId} {a : Scope} {names : List String}
    (hid : id ≠ .global) (ha : s.scope? id = some a)
    (hfree : ∀ name ∈ names, a.bindings.find? name = none) (hnames : ∀ name ∈ names, name ≠ "this")
    {values : List Value} (hvalues : ∀ v ∈ values, v.Within s.objects.size) {callee : Value}
    (hcallee : callee.Within s.objects.size) (hkept : ¬ kept.settled id "arguments")
    (hold : ¬ kept.old id) (hopen : s.Open id) :
    s.Leads kept (s.shareArguments id values callee names) := by
  have hnew : (ObjectRecord.arguments values callee (some (id, names))).IsNew := .arguments ..
  have hmade : s.Preserves kept.settled _ ∧ Store.Intact _ := hs.allocateSharing
    (ObjectRecord.within_arguments _ hs.intrinsics hvalues hcallee) hnew.tidy hnew.wellShared
    (fun key scope name hkey => ?_) nofun
  · have hbound : Store.Leads kept _ _ := hmade.2.declareBound hopen (by decide)
      (s.within_allocate _) rfl hkept (.inl rfl)
    have hid := scope?_eq_some_iff.mp ⟨a, ha⟩
    have hdeclared : Store.Leads kept _ _ := hbound.intact.declareAll
      (hbound.evolves.retains.isOpen hid hopen) hnames rfl (.inl rfl)
    have hlater := hbound.trans hdeclared
    exact .of_operation (.arguments id values callee names) ⟨hold, hopen, a, ha, hfree⟩ rfl
      ⟨hmade.1.trans hlater.evolves.toPreserves, hlater.intact⟩
  · obtain ⟨_, _, _, heq, _, _⟩ := of_find?_sharedParameters hkey
    cases heq
    exact ⟨hid, scope?_eq_some_iff.mp ⟨a, ha⟩⟩

/-- A link to an object that does not inherit from the one that is linked. -/
theorem Intact.setPrototype (hs : s.Intact) {id : ObjectId} {prototype : Option ObjectId}
    (hthere : ∀ p ∈ prototype, p.index < s.objects.size) (hfree : id ∉ s.chain prototype) :
    s.Leads kept (s.setPrototype id prototype) := by
  have hsize : (s.setPrototype id prototype).objects.size = s.objects.size := Array.size_modify ..
  refine .of_operation (.link id prototype) trivial rfl
    ⟨⟨Nat.le_of_eq hsize.symm, fun _ h => h.modifyObject id fun _ _ => ⟨fun h => h, fun _ _ h => h⟩,
      fun _ a ha => ⟨a, ha, rfl⟩, fun _ _ => rfl, fun _ _ _ _ hb _ => hb⟩, ?_⟩
  refine ⟨?_, fun other r hr => ?_, ?_, hs.founded.setPrototype hthere hfree,
    hs.tidy.modifyObject fun _ _ h => ⟨h.inStep, h.unwrapped, h.special⟩,
    hs.shared.modifyObject fun _ _ h => ⟨h.linked, h.numeral, h.apart⟩,
    fun scope name hshared => hs.shares scope name (hshared.of_modifyObject fun _ _ _ _ h => h),
    hs.nested,
    hs.sound.grows (s.grows_setPrototype id prototype), hs.named.of_scopes rfl,
    hs.receivers⟩
  · rw [hsize]
    exact hs.intrinsics
  · rw [hsize]
    unfold Store.setPrototype at hr
    rw [object?_modifyObject] at hr
    obtain ⟨before, hbefore, rfl | ⟨-, rfl⟩⟩ := exists_of_ite_map hr
    · exact hs.records other _ hbefore
    · exact { hs.records other before hbefore with prototype := hthere }
  · rw [hsize]
    exact hs.bindings

theorem within_newFunction (s : Store) (callable : Callable) :
    (Value.object (s.newFunction callable).1).Within (s.newFunction callable).2.objects.size := by
  have hfunction := s.within_allocate (.function callable)
  unfold Store.newFunction
  dsimp only
  split
  · have hsize {s : Store} (id : ObjectId) (key : String) (p : DataProperty) :
        (s.insert id key p).objects.size = s.objects.size := Array.size_modify ..
    rw [hsize, size_allocate]
    exact hfunction.mono (Nat.le_succ _)
  · exact hfunction

theorem Intact.newFunction (hs : s.Intact) {callable : Callable}
    (hclosure : ∀ d scope, callable = .closure d scope → d.Sound ∧ scope.index < s.scopes.size) :
    s.Leads kept (s.newFunction callable).2 := by
  have hfunction : s.Leads kept (s.allocate (.function callable)).2 :=
    hs.allocate (ObjectRecord.within_function callable hs.intrinsics)
      (.of_no_elements rfl (.ofList _)) rfl fun d scope h => hclosure d scope (Option.some.inj h)
  have hknown := s.within_allocate (.function callable)
  unfold Store.newFunction
  dsimp only
  generalize s.allocate (.function callable) = made at hfunction hknown ⊢
  split
  · have hrecord : ({ prototype := some .objectPrototype
                      slots := .ofList [("constructor", .hidden (.object made.1))] } :
        ObjectRecord).Within made.2.objects.size := by
      refine ⟨.ofList (List.forall_mem_singleton.mpr hknown), fun p hp => ?_, nofun, nofun⟩
      cases hp
      exact hfunction.intact.lt_intrinsic objectPrototype_lt
    have hprototype : made.2.Leads kept _ :=
      hfunction.intact.allocate hrecord (.of_no_elements rfl (.ofList _)) rfl nofun
    refine hfunction.trans (hprototype.trans (hprototype.intact.insert _ _ ?_ (.inl rfl)
      (hprototype.intact.shared.joined?_eq_none _ (Number.not_isNumeral (by decide)))))
    exact made.2.within_allocate _
  · exact hfunction

end Store

end ProtoScript
