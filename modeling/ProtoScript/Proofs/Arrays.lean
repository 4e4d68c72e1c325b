import ProtoScript.Proofs.Arrays.Operations
import ProtoScript.Proofs.Integrity.Sessions
import ProtoScript.Proofs.Regime.Runs
import ProtoScript.Proofs.Slots.Lengths
/-!
# Arrays refine lists

Nothing but `Object.defineProperty` puts a property in front of the elements of an array: what is
assigned at an index or to the length goes into the elements, and all other properties stand
elsewhere.  So an array that is never passed to `Object.defineProperty` goes on behaving as the list
of its elements, whatever else programs do to it.
-/

namespace ProtoScript

/-! ### Records -/

namespace ObjectRecord

variable {r : ObjectRecord} {key : String}

/-- If the object is an array, nothing stands in front of its elements. -/
def Clear (r : ObjectRecord) : Prop := r.elements ≠ none → r.Uncovered

namespace Uncovered

theorem insert (h : r.Uncovered) (hlength : key ≠ "length")
    (hindex : Number.arrayIndex? key = none) (p : DataProperty) : (r.insert key p).Uncovered where
  slots other hother := by
    rcases find?_insert_ne_none hother with hbefore | rfl
    · exact h.slots other hbefore
    · exact ⟨hlength, hindex⟩
  unwrapped := h.unwrapped
  unshared := h.unshared
  extensible := h.extensible

theorem assigned (h : r.Uncovered) {value : Value} {a : Assignment} {r' : ObjectRecord}
    (ha : Assigned r key value a r') (harray : r.elements.isSome = true) : r'.Uncovered := by
  cases ha with
  | refused => exact h
  | written hslot =>
    obtain ⟨hlength, hindex⟩ := h.slots key (by rw [hslot]; exact nofun)
    exact h.insert hlength hindex _
  | created _ _ hplace =>
    obtain ⟨hlength, hindex⟩ := hplace harray
    exact h.insert hlength hindex _
  | element => exact h.with_elements _
  | resized => exact h.with_elements _

theorem delete (h : r.Uncovered) (key : String) : (r.delete key).Uncovered := by
  cases hslot : r.slots.find? key with
  | some p =>
    rw [delete_of_slot hslot]
    refine ⟨fun other hother => h.slots other fun hnone => ?_, h.unwrapped,
      fun other => find?_erase_eq_none (h.unshared other) key, h.extensible⟩
    exact hother (find?_erase_eq_none hnone key)
  | none =>
    rw [delete_of_no_slot hslot]
    exact h.with_elements _

end Uncovered

theorem uncovered_array (elements : Array (Option Value)) : (array elements).Uncovered where
  slots _ h := absurd rfl h
  unwrapped := rfl
  unshared _ := rfl
  extensible := rfl

theorem elements_after_of_none (h : r.elements = none) (inherited : Option DataProperty)
    (op : PropertyOperation) : (r.after inherited op).elements = none :=
  after_of_assign (P := fun r' => r'.elements = none) h (fun _ _ => elements_define_of_none h)
    (fun _ value => elements_assign_of_none h value _) (fun _ => elements_delete_of_none h) op

theorem Clear.after (h : r.Clear) (inherited : Option DataProperty) {op : PropertyOperation}
    (hop : ∀ key p, op ≠ .define key p) : (r.after inherited op).Clear := by
  intro harray
  have hbefore : r.elements ≠ none := fun hnone =>
    harray (elements_after_of_none hnone inherited op)
  have hclear := h hbefore
  cases op with
  | define key p => exact absurd rfl (hop key p)
  | set key value =>
    exact hclear.assigned (r.assigned_assign inherited key value)
      (Option.isSome_iff_ne_none.mpr hbefore)
  | delete key =>
    rw [ObjectRecord.after]
    split
    · exact hclear.delete key
    · exact hclear

end ObjectRecord

namespace Store

variable {s : Store} {id other : ObjectId}

def ClearAt (s : Store) (id : ObjectId) : Prop := ∀ r, s.object? id = some r → r.Clear

def Elementless (s : Store) (id : ObjectId) : Prop :=
  ∃ r, s.object? id = some r ∧ r.elements = none

/-- An object stays clear and arrays are not made of other objects by what puts nothing in front of
its elements and leaves the others without. -/
theorem clearAt_of_modified {s' : Store} {f : ObjectRecord → ObjectRecord}
    (hobjects : ∀ place, s'.object? place =
      if place = other then (s.object? place).map f else s.object? place)
    (hclear : s.ClearAt id) (hf : other = id → ∀ r, s.object? id = some r → (f r).Clear)
    (hnone : ∀ r, r.elements = none → (f r).elements = none) :
    s'.ClearAt id ∧ ∀ place, s.Elementless place → s'.Elementless place := by
  refine ⟨fun r hr => ?_, fun place ⟨r, hr, helements⟩ => ?_⟩
  · rw [hobjects] at hr
    obtain ⟨before, hbefore, rfl | ⟨heq, rfl⟩⟩ := exists_of_ite_map hr
    · exact hclear _ hbefore
    · exact hf heq.symm before hbefore
  · by_cases heq : place = other
    · exact ⟨f r, by rw [hobjects, if_pos heq, hr]; rfl, hnone r helements⟩
    · exact ⟨r, by rw [hobjects, if_neg heq, hr], helements⟩

theorem clearAt_of_made {s' : Store} {made : ObjectRecord}
    (hobjects : ∀ place, s'.object? place =
      if place.index = s.objects.size then some made else s.object? place)
    (hclear : s.ClearAt id) (hmade : made.Clear) :
    s'.ClearAt id ∧ ∀ place, s.Elementless place → s'.Elementless place := by
  refine ⟨fun r hr => ?_, fun place ⟨r, hr, helements⟩ => ⟨r, ?_, helements⟩⟩
  · rw [hobjects] at hr
    split at hr
    · cases hr
      exact hmade
    · exact hclear r hr
  · have hlt := object?_eq_some_iff.mp ⟨r, hr⟩
    rw [hobjects, if_neg (Nat.ne_of_lt hlt), hr]

end Store

namespace Arrays

open Integrity Store

variable {host : Host} {m m' : Machine} {id : ObjectId} {s : Store}

/-! ### The regime -/

def regime (id : ObjectId) : Regime where
  inv s := s.ClearAt id
  keeps s s' := ∀ other, s.Elementless other → s'.Elementless other
  stands _ _ := True
  takes s other := s.Elementless other
  guards other := other = id
  programs := True
  scopes := 0

theorem clear_perform {op : StoreOperation} (hs : s.ClearAt id)
    (hop : (regime id).Permits s op) :
    (s.perform op).ClearAt id ∧
      ∀ other, s.Elementless other → (s.perform op).Elementless other := by
  -- Most operations leave all objects as they are.
  have hsame (hobjects : (s.perform op).objects = s.objects) : (s.perform op).ClearAt id ∧
      ∀ other, s.Elementless other → (s.perform op).Elementless other := by
    unfold ClearAt Elementless object?
    rw [hobjects]
    exact ⟨hs, fun _ h => h⟩
  cases op with
  | property other op =>
    obtain ⟨inherited, hobjects⟩ := s.exists_object?_operate other op
    refine clearAt_of_modified hobjects hs (fun heq r hr => (hs r hr).after inherited ?_)
      fun r hr => r.elements_after_of_none hr inherited op
    rintro key p rfl
    exact hop heq
  | insert other key p =>
    refine clearAt_of_modified (fun place => object?_modifyObject s other place _) hs
      (fun heq r hr harray => ?_) fun r hr => hr
    rcases hop with ⟨r', hr', hnone⟩ | rfl
    · rw [heq, hr] at hr'
      cases hr'
      exact absurd hnone harray
    · exact (hs r hr harray).insert (by decide) (by decide) p
  | link other prototype =>
    refine clearAt_of_modified (fun place => object?_modifyObject s other place _) hs
      (fun heq r hr harray => ?_) fun r hr => hr
    have hclear := hs r hr harray
    exact ⟨hclear.slots, hclear.unwrapped, hclear.unshared, hclear.extensible⟩
  | allocate r =>
    refine clearAt_of_made (fun place => s.object?_allocate r place) hs fun harray => ?_
    obtain ⟨elements, helements⟩ := Option.ne_none_iff_exists'.mp harray
    rw [hop.2.2 elements helements]
    exact ObjectRecord.uncovered_array elements
  | arguments scope values callee names =>
    exact clearAt_of_made (s.object?_shareArguments scope values callee names) hs
      fun harray => absurd (ObjectRecord.elements_arguments ..) harray
  | assign scope name value => exact hsame (s.objects_assign scope name value)
  | copy source target names => exact hsame (s.objects_copyBindings source target names)
  | _ => exact hsame rfl

theorem lawful_regime (id : ObjectId) : (regime id).Lawful where
  refl _ _ h := h
  trans h h' other hother := h' other (h other hother)
  perform hs hop := clear_perform hs hop
  stays _ _ := trivial
  global _ := trivial
  outward _ _ := trivial
  opens _ _ _ := trivial
  scopes_le _ := Nat.zero_le _
  stillTakes hkeeps htakes := hkeeps _ htakes
  makes {s r} _ hr := ⟨r, by rw [object?_allocate]; exact if_pos rfl, hr⟩

def Defines (id : ObjectId) (task : Task) (_ : Machine) : Prop :=
  ∃ receiver arguments, task = .native (.object .defineProperty) receiver arguments ∧
    Value.argument arguments 0 = .object id

theorem rules_regime (hhost : host.Courteous) (id : ObjectId) :
    (regime id).Rules host (Defines id) where
  lawful := lawful_regime id
  admits task m _ hasks hfree := by
    cases task with
    | native f receiver arguments =>
      unfold Regime.Admits
      split
      · trivial
      · next heq =>
        cases heq
        intro other hother heq
        exact hfree ⟨_, _, rfl, heq ▸ hother⟩
      · trivial
    | closure => trivial
    | _ => exact hasks
  suits E hserves := Regime.suits_of_courteous (lawful_regime id) hserves trivial hhost

/-! ### Sessions -/

/-- Sessions lead to the machine, and the object has never been passed to
`Object.defineProperty`. -/
inductive Spared (host : Host) (id : ObjectId) : Machine → Prop
  | initial (settings : Settings) : Spared host id (.initial settings)
  | installHost {m : Machine} (functions : List (String × Nat)) (before : Spared host id m) :
    Spared host id (m.installHost functions)
  | takeOutput {m : Machine} (before : Spared host id m) : Spared host id m.takeOutput.2
  | evaluate {m m' : Machine} {source : String} {bound : Nat}
      {result : Except ScriptError Value} (before : Spared host id m)
      (free : ∀ p, Program.ofString source m.settings.strict = .ok p →
        RunsFreely (Defines id) host bound (.program p) m)
      (evaluated : m.evaluate source host bound = (.done result, m')) : Spared host id m'
  | runProgram {m m' : Machine} {p : Program} {bound : Nat} {o : Except Abrupt Value}
      (before : Spared host id m) (allowed : p.Accepted)
      (free : RunsFreely (Defines id) host bound (.program p) m)
      (ran : m.runProgram p host bound = (.done o, m')) : Spared host id m'

theorem Spared.reachable (h : Spared host id m) : Machine.Reachable host Program.Accepted m := by
  induction h with
  | initial settings => exact .initial settings
  | installHost functions _ ih => exact ih.installHost functions
  | takeOutput _ ih => exact ih.takeOutput
  | evaluate _ _ evaluated ih => exact ih.evaluate evaluated
  | runProgram _ allowed _ ran ih => exact ih.runProgram allowed ran

/-- The intrinsic prototype of arrays has its methods, and nothing in front of its elements. -/
theorem clearAt_initial (settings : Settings) (id : ObjectId) :
    (Store.initial settings).ClearAt id := by
  have hall : ∀ strict harness : Bool,
      ∀ r ∈ (Store.initial { strict, harness }).objects.toList, r.elements.isSome = true →
        (∀ entry ∈ r.slots.values.entries, entry.1 ≠ "length" ∧ Number.arrayIndex? entry.1 = none) ∧
        r.primitive.isNone = true ∧ r.sharedParameters.entries.isEmpty = true ∧
        r.extensible = true := by
    decide +kernel
  intro r hr harray
  obtain ⟨hslots, hprimitive, hshared, hextensible⟩ :=
    hall settings.strict settings.harness r (Array.mem_toList_iff.mpr (Array.mem_of_getElem? hr))
      (Option.isSome_iff_ne_none.mpr harray)
  refine ⟨fun key hkey => ?_, ?_, fun key => ?_, hextensible⟩
  · obtain ⟨entry, hentry, rfl⟩ := List.mem_map.mp (mem_map_fst_iff.mpr hkey)
    exact hslots entry hentry
  · unfold ObjectRecord.wrappedText?
    rw [Option.isNone_iff_eq_none.mp hprimitive]
  · unfold NameMap.find?
    rw [List.isEmpty_iff.mp hshared]
    rfl

theorem clearAt_installHost (hs : s.ClearAt id) (functions : List (String × Nat)) :
    Store.ClearAt
      (functions.foldl (fun s (name, arity) => s.installGlobal (.host name arity)) s) id := by
  induction functions generalizing s with
  | nil => exact hs
  | cons f rest ih =>
    have hR := lawful_regime id
    have hmade : (regime id).Leads s (s.newFunction (.native (.host f.1 f.2))).2 :=
      Regime.leads_newFunction hR nofun
    have hinstalled : (regime id).Leads s (s.installGlobal (.host f.1 f.2)) :=
      hmade.trans hR fun _ _ => Regime.leads_declareBound hR trivial f.1 (.inl rfl) _
    exact ih (hinstalled hs).1

theorem Spared.clearAt (hhost : host.Courteous) (h : Spared host id m) : m.store.ClearAt id := by
  have hran {m m' : Machine} {p : Program} {bound : Nat} {o : Except Abrupt Value}
      (hm : m.store.ClearAt id) (hfree : RunsFreely (Defines id) host bound (.program p) m)
      (hran : m.runProgram p host bound = (.done o, m')) : m'.store.ClearAt id := by
    have hasks : (regime id).Asks m.store (.program p) := trivial
    exact (((rules_regime hhost id).ends hm hasks hfree).of_run_attempt hran).1
  induction h with
  | initial settings => exact clearAt_initial settings id
  | installHost functions _ ih => exact clearAt_installHost ih functions
  | takeOutput _ ih => exact ih
  | evaluate _ free evaluated ih =>
    obtain ⟨rfl, _⟩ | ⟨p, o, hp, hrun, _⟩ := Machine.ran_of_evaluate evaluated
    · exact ih
    · exact hran ih (free p hp) hrun
  | runProgram _ _ free ran ih => exact hran ih free ran

/-! ### Arrays as lists -/

/-- If the object is an array, and the objects on its prototype chain, `ids`, have no properties at
indices, the array behaves as the list of its elements under all operations. -/
def RefinesList (id : ObjectId) (s : Store) : Prop :=
  ∀ r elements ids, s.object? id = some r → r.elements = some elements →
    s.Ancestry (some id) (id :: ids) →
    (∀ holder ∈ ids, ∀ i < 4294967295, s.ownProperty? holder (toString i) = none) →
    elements.size < 4294967295 →
    ∀ e ops m, m.store = s → ArrayOperation.AllFit ops elements.toList →
      ArrayOperation.Refine e id ops elements.toList m

theorem refinesList_of_clearAt (hs : s.ClearAt id) : RefinesList id s := by
  intro r elements ids hr helements hids hbarren hsize e ops m hm hops
  have huncovered := hs r hr (helements ▸ Option.some_ne_none elements)
  subst hm
  exact ArrayOperation.refine_of_holdsList e ⟨⟨r, hr, huncovered, helements⟩, ids, hids, hbarren⟩
    hsize hops

/-- At the beginning and at the end of every task the array behaves as a list, up to the first task
that passes it to `Object.defineProperty`. -/
def observer (id : ObjectId) : Supervisor Unit where
  inside _ _ _ := ()
  admits _ task m := ¬ Defines id task m ∧ RefinesList id m.store
  accepts _ _ _ _ m' := RefinesList id m'.store

/-- Every object has a prototype chain, which ends, at the beginning and at the end of every
task. -/
def chains : Supervisor Unit where
  inside _ _ _ := ()
  admits _ _ m := m.store.Founded
  accepts _ _ _ _ m' := m'.store.Founded

/-- An array that was never passed to `Object.defineProperty` behaves as a list, unless it inherits
from an object with a property at an index.  It does so after a session and at each task of whatever
the embedding program asks for then. -/
theorem array_refines_list (hhost : host.Courteous) (hm : Spared host id m) :
    RefinesList id m.store ∧
    ∀ task, (Setting.embedding Program.Accepted fun _ => True).asks task →
      (∀ v ∈ task.values, m.Knows v) → ∀ bound,
        chains.run host bound () task m = runTask host bound task m ∧
        (RunsFreely (Defines id) host bound task m →
          (observer id).run host bound () task m = runTask host bound task m) := by
  have hintact := (intact_of_reachable hhost hm.reachable).1
  have hclear := hm.clearAt hhost
  refine ⟨refinesList_of_clearAt hclear, fun task htask hvalues bound => ⟨?_, fun hfree => ?_⟩⟩
  · exact (governs hhost).run_eq chains (fun _ => ()) (fun _ _ _ _ => rfl)
      (fun _ _ _ hbegin => hbegin.1.store.founded)
      (fun _ _ _ _ _ _ hend => hend.2.1.store.founded)
      bound .undefined task m (admits_of_asks hintact htask hvalues)
  · have hasks : (regime id).Asks m.store task := by
      cases task with
      | call => trivial
      | indirectEval => trivial
      | program => trivial
      | _ => exact htask.elim
    have hcontent : (regime id).Contents (Defines id) (observer id) :=
      ⟨fun _ _ hm _ => ⟨And.left, fun hfree => ⟨hfree, refinesList_of_clearAt hm⟩⟩,
        fun _ _ _ _ _ _ hm' _ => refinesList_of_clearAt hm'⟩
    exact ((rules_regime hhost id).run_eq hcontent bound task m hclear hasks).1.trans hfree

/-- The program that makes an array of one element. -/
def making : Program := ⟨[.expression (.array [some (.literal .null)])], false⟩

def isMaking : Except SyntaxError Program → Bool
  | .ok ⟨[.expression (.array [some (.literal .null)])], false⟩ => true
  | _ => false

theorem accepted_making : making.Accepted := by
  have hread : isMaking (Program.ofString "[null]" false) = true := by decide +kernel
  refine ⟨"[null]", false, ?_⟩
  unfold isMaking at hread
  split at hread
  · assumption
  · cases hread

theorem runsFreely_making (host : Host) (id : ObjectId) (depth : Nat) (m : Machine) :
    RunsFreely (Defines id) host (depth + 4) (.program making) m := by
  have hvalue (scope : ScopeId) :
      (Supervisor.refusing (Defines id)).run host (depth + 1) ()
          (.evaluate (.literal .null) scope) =
        runTask host (depth + 1) (.evaluate (.literal .null) scope) :=
    Supervisor.run_refusing_of_rule (fun _ ⟨_, _, h, _⟩ => nomatch h) rfl
  obtain ⟨x, hx⟩ : ∃ x : Expr, x = .array [some (.literal .null)] := ⟨_, rfl⟩
  have harray (scope : ScopeId) :
      (Supervisor.refusing (Defines id)).run host (depth + 2) () (.evaluate x scope) =
        runTask host (depth + 2) (.evaluate x scope) := by
    refine Supervisor.run_refusing_of_rule (fun _ ⟨_, _, h, _⟩ => nomatch h) ?_
    rw [hx]
    unfold Engine.rule Engine.expression Engine.arrayElements Engine.evaluate
    dsimp only
    rw [hvalue]
    rfl
  have hstatement (scope : ScopeId) :
      (Supervisor.refusing (Defines id)).run host (depth + 3) ()
          (.execute (.expression x) scope []) =
        runTask host (depth + 3) (.execute (.expression x) scope []) :=
    Supervisor.run_refusing_of_rule (fun _ ⟨_, _, h, _⟩ => nomatch h) (harray scope)
  refine congrFun (Supervisor.run_refusing_of_rule (fun _ ⟨_, _, h, _⟩ => nomatch h) ?_) m
  unfold Engine.rule Engine.program making Engine.statements Engine.execute
  dsimp only
  rw [← hx, hstatement]
  rfl

theorem array_refines_list_made :
    (observer ⟨(Machine.initial {}).store.objects.size⟩).run .callBack 9 () (.program making)
        (.initial {}) =
      runTask .callBack 9 (.program making) (.initial {}) :=
  ((array_refines_list Host.callBack_courteous (.initial {})).2 (.program making) accepted_making
    nofun 9).2 (runsFreely_making .callBack _ 5 _)

end Arrays

end ProtoScript
