import ProtoScript.Proofs.StoreGrowth
import ProtoScript.Proofs.Integrity.Objects
/-!
# The initial store is intact

The intrinsic objects refer to one another only, and every prototype link among them leads to an
object made before.  Installing native functions keeps that, and binds none of the names that the
global scope has settled.
-/

namespace ProtoScript

def settledGlobals : List String := ["undefined", "NaN", "Infinity", "this"]

theorem Value.Within.of_objectId? {n : Nat} {v : Value} (h : ∀ id ∈ v.objectId?, id.index < n) :
    v.Within n := by
  cases v with
  | object id => exact h id rfl
  | _ => trivial

namespace Store

abbrev Installs (s s' : Store) : Prop :=
  s.Leads (.names fun _ name => name ∈ settledGlobals) s'

variable {kept : Watch} {s : Store}

theorem ne_this_of_not_settledGlobal {name : String} (h : name ∉ settledGlobals) :
    name ≠ "this" := by
  rintro rfl
  exact h (by decide)

theorem Intact.foldl {α : Type} {f : Store → α → Store} (hs : s.Intact) (items : List α)
    (h : ∀ a ∈ items, ∀ s : Store, s.Intact → s.Leads kept (f s a)) :
    s.Leads kept (items.foldl f s) := by
  induction items generalizing s with
  | nil => exact hs.leads_self
  | cons a items ih =>
    have hfirst := h a (List.mem_cons_self ..) s hs
    exact hfirst.trans (ih hfirst.intact fun b hb => h b (List.mem_cons_of_mem _ hb))

theorem Intact.defineGlobal (hs : s.Intact) {name : String} (hname : name ≠ "this")
    (hfree : ¬ kept.settled .global name) {value : Value}
    (hvalue : value.Within s.objects.size) : s.Leads kept (s.defineGlobal name value) :=
  hs.declareBound hs.named.open_global hname hvalue rfl hfree (.inl rfl)

theorem Intact.newNative (hs : s.Intact) (f : Native) :
    s.Leads kept (s.newFunction (.native f)).2 :=
  hs.newFunction nofun

theorem Intact.installGlobal (hs : s.Intact) {f : Native} (hname : f.name ≠ "this")
    (hfree : ¬ kept.settled .global f.name) : s.Leads kept (s.installGlobal f) := by
  have hmade : s.Leads kept (s.newFunction (.native f)).2 := hs.newNative f
  exact hmade.trans (hmade.intact.defineGlobal hname hfree (s.within_newFunction _))

theorem Intact.installMethods (hs : s.Intact) (target : ObjectId) (methods : List Native)
    (hmethods : ∀ f ∈ methods, f.name.toList.all Char.isDigit = false) :
    s.Installs (s.installMethods target methods) :=
  hs.foldl _ fun f hf s hs => by
    have hmade : s.Installs (s.newFunction (.native f)).2 := hs.newNative f
    exact hmade.trans (hmade.intact.insert target _ (s.within_newFunction _) (.inl rfl)
      (hmade.intact.shared.joined?_eq_none target (Number.not_isNumeral (hmethods f hf))))

theorem Intact.installConstructor (hs : s.Intact) {f : Native} (hname : f.name ∉ settledGlobals)
    (prototype : ObjectId) (hprototype : prototype.index < intrinsicCount)
    (functions methods : List Native) (constants : List (String × Float))
    (hfunctions : ∀ f ∈ functions, f.name.toList.all Char.isDigit = false)
    (hmethods : ∀ f ∈ methods, f.name.toList.all Char.isDigit = false)
    (hconstants : ∀ constant ∈ constants, constant.1.toList.all Char.isDigit = false) :
    s.Installs (s.installConstructor f prototype functions methods constants) := by
  have hmade : s.Installs (s.allocate (.function (.native f))).2 :=
    hs.allocate (ObjectRecord.within_function _ hs.intrinsics) (.of_no_elements rfl (.ofList _))
      rfl nofun
  have hknown := s.within_allocate (.function (.native f))
  unfold Store.installConstructor
  generalize s.allocate (.function (.native f)) = made at hmade hknown ⊢
  obtain ⟨id, s₁⟩ := made
  have hlinked : s.Installs (s₁.insert id "prototype" (.fixed (.object prototype))) :=
    hmade.trans (hmade.intact.insert id _ (hmade.intact.lt_intrinsic hprototype) (.inl rfl)
      (hmade.intact.shared.joined?_eq_none id (Number.not_isNumeral (by decide))))
  have hsize {s : Store} (id : ObjectId) (key : String) (p : DataProperty) :
      (s.insert id key p).objects.size = s.objects.size := Array.size_modify ..
  have hknown₁ : (Value.object id).Within
      (s₁.insert id "prototype" (.fixed (.object prototype))).objects.size := by
    rw [hsize]
    exact hknown
  have hback := hlinked.trans (hlinked.intact.insert prototype "constructor" (p :=
    .hidden (.object id)) hknown₁ (.inl rfl)
    (hlinked.intact.shared.joined?_eq_none prototype (Number.not_isNumeral (by decide))))
  have hbound := hback.trans (hback.intact.defineGlobal
    (ne_this_of_not_settledGlobal hname) hname (by rw [hsize]; exact hknown₁))
  have hconstants := hbound.trans (hbound.intact.foldl constants
    (f := fun s constant => s.insert id constant.1 (.fixed (.number constant.2)))
    fun constant hconstant s hs =>
      hs.insert id constant.1 (p := .fixed (.number constant.2)) trivial (.inl rfl)
        (hs.shared.joined?_eq_none id (Number.not_isNumeral (hconstants constant hconstant))))
  have hinstalled := hconstants.trans (hconstants.intact.installMethods id functions hfunctions)
  exact hinstalled.trans (hinstalled.intact.installMethods prototype methods hmethods)

theorem Intact.installErrors (hs : s.Intact) : s.Installs s.installErrors := by
  have hmethods := hs.installMethods (.errorPrototype .error) [.error .toString] (by decide)
  have hkinds := hmethods.trans (hmethods.intact.foldl ErrorKind.all
    (f := fun s kind =>
      s.installConstructor (.error (.constructor kind)) (.errorPrototype kind) [] [])
    fun kind _ s hs => hs.installConstructor (by cases kind <;> decide)
      (.errorPrototype kind) (by cases kind <;> decide) [] [] [] nofun nofun nofun)
  unfold Store.installErrors
  dsimp only
  split
  · rename_i value hvalue
    exact hkinds.trans (hkinds.intact.defineGlobal (by decide) (by decide)
      (hkinds.intact.within_lookup? hvalue))
  · exact hkinds

/-! ### Before anything is installed -/

/-- If every link leads to an object made before, all of them come to an end. -/
theorem founded_of_descending
    (h : ∀ id r, s.object? id = some r → ∀ p ∈ r.prototype, p.index < id.index) : s.Founded := by
  intro id hid
  induction hn : id.index using Nat.strongRecOn generalizing id with
  | ind n ih =>
    obtain ⟨r, hr⟩ := object?_eq_some_iff.mpr hid
    cases hprototype : r.prototype with
    | none => exact ⟨[id], .cons hr (hprototype ▸ .nil)⟩
    | some p =>
      have hlt := h id r hr p hprototype
      obtain ⟨ids, hids⟩ := ih p.index (by omega) p (by omega) rfl
      exact ⟨id :: ids, .cons hr (hprototype ▸ hids)⟩

theorem within_intrinsicObjects : ∀ r ∈ intrinsicObjects, r.Within intrinsicCount := by
  have hslots : ∀ r ∈ intrinsicObjects, ∀ entry ∈ r.slots.values.entries,
      ∀ id ∈ entry.2.value.objectId?, id.index < intrinsicCount := by decide
  have hprototypes : ∀ r ∈ intrinsicObjects, ∀ p ∈ r.prototype, p.index < intrinsicCount := by
    decide
  have helements : ∀ r ∈ intrinsicObjects, ∀ es ∈ r.elements, es.size = 0 := by decide
  have hprimitives : ∀ r ∈ intrinsicObjects, ∀ v ∈ r.primitive,
      ∀ id ∈ v.objectId?, id.index < intrinsicCount := by decide
  intro r hr
  refine ⟨fun entry he => .of_objectId? (hslots r hr entry he), hprototypes r hr,
    fun es hes v hv => ?_, fun v hv => .of_objectId? (hprimitives r hr v hv)⟩
  have hempty := Array.eq_empty_of_size_eq_zero (helements r hr es hes)
  rw [hempty] at hv
  exact absurd hv (Array.not_mem_empty _)

theorem inStep_intrinsicObjects : ∀ r ∈ intrinsicObjects, r.slots.InStep := by
  simp [intrinsicObjects, ObjectRecord.function, OrderedMap.InStep.empty, OrderedMap.InStep.ofList]

/-- The intrinsic objects that are arrays have nothing in their slots. -/
theorem tidy_intrinsicObjects : ∀ r ∈ intrinsicObjects, r.Tidy := by
  have hbare : ∀ r ∈ intrinsicObjects, r.elements.isSome = true →
      r.primitive.isNone = true ∧ r.slots.values.entries.isEmpty = true := by decide
  intro r hr
  refine ⟨inStep_intrinsicObjects r hr, fun hsome => ?_, fun hsome key p _ hp => ?_⟩
  · unfold ObjectRecord.wrappedText?
    rw [Option.isNone_iff_eq_none.mp (hbare r hr hsome).1]
  · unfold OrderedMap.find? NameMap.find? at hp
    rw [List.isEmpty_iff.mp (hbare r hr hsome).2] at hp
    cases hp

theorem unshared_intrinsicObjects : ∀ r ∈ intrinsicObjects, r.sharedParameters = .empty := by
  have hnone : ∀ r ∈ intrinsicObjects, r.sharedParameters.entries = [] := by decide
  exact fun r hr => congrArg NameMap.mk (hnone r hr)

theorem unshared_bare {settings : Settings} {id : ObjectId} {r : ObjectRecord}
    (hr : (bare settings).object? id = some r) : r.sharedParameters = .empty :=
  unshared_intrinsicObjects r (List.mem_toArray.mp (Array.mem_of_getElem? hr))

theorem prototype_intrinsicObjects :
    ∀ entry ∈ (intrinsicObjects.map ObjectRecord.prototype).zipIdx, ∀ p ∈ entry.1,
      p.index < entry.2 := by
  decide

theorem scope?_bare {settings : Settings} {id : ScopeId} {a : Scope}
    (h : (bare settings).scope? id = some a) : id = .global ∧ a = globalScope settings.strict := by
  obtain ⟨_ | index⟩ := id
  · exact ⟨rfl, (Option.some.inj h).symm⟩
  · cases h

theorem named_bare (settings : Settings) : (bare settings).Named where
  selves id a name b ha hb := by
    obtain ⟨_, rfl⟩ := scope?_bare ha
    obtain ⟨hfound, hself⟩ := Scope.selfName?_eq_some_iff.mp hb
    have hkinds : ∀ strict, (globalScope strict).bindings.All (·.kind.isSelfName = false) := by
      unfold NameMap.All
      decide
    rw [(hkinds settings.strict).find? hfound] at hself
    cases hself
  outermost := ⟨globalScope settings.strict, rfl, rfl⟩

theorem intact_bare (settings : Settings) : (bare settings).Intact where
  intrinsics := Nat.le_refl _
  records id r hr := within_intrinsicObjects r (List.mem_toArray.mp (Array.mem_of_getElem? hr))
  bindings id a ha := by
    obtain ⟨_, rfl⟩ := scope?_bare ha
    have hvalues : ∀ strict, ∀ entry ∈ (globalScope strict).bindings.entries,
        ∀ id ∈ entry.2.value.objectId?, id.index < intrinsicCount := by decide
    exact fun entry he => .of_objectId? (hvalues settings.strict entry he)
  founded := founded_of_descending fun id r hr p hp => by
    refine prototype_intrinsicObjects (r.prototype, id.index) ?_ p hp
    have hintrinsic : intrinsicObjects[id.index]? = some r := by
      rw [← List.getElem?_toArray]
      exact hr
    rw [List.mem_zipIdx_iff_getElem?, List.getElem?_map, hintrinsic]
    rfl
  tidy id r hr := tidy_intrinsicObjects r (List.mem_toArray.mp (Array.mem_of_getElem? hr))
  shared id r hr := .of_unshared (unshared_bare hr)
  shares scope name hshared := by
    obtain ⟨id, key, hkey⟩ := hshared
    obtain ⟨r, hr, hfound⟩ := Option.bind_eq_some_iff.mp hkey
    rw [unshared_bare hr] at hfound
    cases hfound
  nested id a ha hid := absurd (scope?_bare ha).1 hid
  sound := by
    refine ⟨Nat.one_pos, ?_⟩
    rintro d scope ⟨id, r, hr, hc⟩
    have hmem : r ∈ intrinsicObjects.toArray := Array.mem_of_getElem? hr
    exact absurd hc (callable_intrinsicObjects r (List.mem_toArray.mp hmem) d scope)
  named := named_bare settings
  receivers id b hb := by
    obtain ⟨a, ha, hb⟩ := Option.bind_eq_some_iff.mp hb
    obtain ⟨_, rfl⟩ := scope?_bare ha
    cases hb
    exact ⟨rfl, rfl⟩

/-! ### After everything is installed -/

theorem installs_initial (settings : Settings) : (bare settings).Installs (initial settings) := by
  have hs := intact_bare settings
  have hglobals : (bare settings).Installs
      ([Native.global .isNaN, .global .parseInt, .global .parseFloat].foldl Store.installGlobal
        (bare settings)) :=
    hs.foldl _ fun f hf s hs => hs.installGlobal (by revert f; decide) (by revert f; decide)
  have hobject := hglobals.trans (hglobals.intact.installConstructor (f := .object .constructor)
    (by decide) .objectPrototype (by decide)
    [.object .getPrototypeOf, .object .setPrototypeOf, .object .create, .object .defineProperty,
      .object .keys] [.object .hasOwnProperty, .object .toString, .object .valueOf] []
    (by decide) (by decide) nofun)
  have hfunction := hobject.trans (hobject.intact.installConstructor (f := .function .constructor)
    (by decide) .functionPrototype (by decide) []
    [.function .call, .function .apply, .function .toString] [] (by decide) (by decide) nofun)
  have harray := hfunction.trans (hfunction.intact.installConstructor (f := .array .constructor)
    (by decide) .arrayPrototype (by decide) [.array .isArray]
    [.array .push, .array .pop, .array .join, .array .toString, .array .indexOf] []
    (by decide) (by decide) nofun)
  have hstring := harray.trans (harray.intact.installConstructor (f := .string .constructor)
    (by decide) .stringPrototype (by decide) []
    [.string .charAt, .string .charCodeAt, .string .indexOf, .string .slice, .string .toString,
      .string .valueOf] [] (by decide) (by decide) nofun)
  have hnumber := hstring.trans (hstring.intact.installConstructor (f := .number .constructor)
    (by decide) .numberPrototype (by decide) []
    [.number .toString, .number .valueOf] numberConstants (by decide)
    (by decide) (by decide))
  have hboolean := hnumber.trans (hnumber.intact.installConstructor (f := .boolean .constructor)
    (by decide) .booleanPrototype (by decide) []
    [.boolean .valueOf, .boolean .toString] [] (by decide) (by decide) nofun)
  have herrors := hboolean.trans hboolean.intact.installErrors
  unfold initial
  dsimp only
  split
  · exact herrors.trans (herrors.intact.foldl _ fun f hf s hs =>
      hs.installGlobal (by revert f; decide) (by revert f; decide))
  · exact herrors

/-- What the global scope settles at the beginning is settled in the initial store. -/
theorem binding?_initial (settings : Settings) {name : String} (hname : name ∈ settledGlobals)
    {b : Binding} (hb : (globalScope settings.strict).bindings.find? name = some b)
    (hsettled : b.Settled) : (initial settings).binding? .global name = some b :=
  (installs_initial settings).evolves.settled .global name b hname hb hsettled

end Store

end ProtoScript
