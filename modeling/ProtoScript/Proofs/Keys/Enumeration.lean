import ProtoScript.Proofs.Integrity.Sessions
import ProtoScript.Proofs.Keys.Listing
/-!
# What a loop over an object visits

A loop visits a key, once, just if the first object along the prototypes that lists it says that it
is enumerable.  That is the first object with such a property, and its property is enumerable, as
long as no object up to it misreports the key: an array or a wrapped string does not list its length
unless a slot holds it, what stands beneath a hidden slot is listed as enumerable, and where 32 bits
do not count the elements or the units, elements are listed under other indices and units are not
listed.
-/

namespace ProtoScript

namespace ObjectRecord

variable {r : ObjectRecord} {key : String} {p : DataProperty}

/-- The listing of own keys does not say of a key what the property there says. -/
inductive Misreports (r : ObjectRecord) : String → Prop
  /-- There is a length that is not listed. -/
  | length : r.slots.find? "length" = none → r.hasLength = true → Misreports r "length"
  /-- There is a hidden slot in front of what is listed. -/
  | hidden {key : String} {p : DataProperty} : r.Fills key → r.slots.find? key = some p →
    p.enumerable = false → Misreports r key
  /-- There is an element past the last array index, listed under what 32 bits make of its place. -/
  | past {es : Array (Option Value)} {i : Nat} : r.slots.find? (toString (i % 4294967296)) = none →
    r.carries (toString (i % 4294967296)) = false → r.elements = some es → es[i]?.join ≠ none →
    4294967295 ≤ i → Misreports r (toString (i % 4294967296))
  /-- There is a unit that is not listed, of a text whose size takes more than 32 bits. -/
  | uncounted {t : Text} {i : Nat} : r.slots.find? (toString i) = none → ¬ r.Fills (toString i) →
    r.wrappedText? = some t → t.size % 4294967296 ≤ i → i < t.size → i < 4294967295 →
    Misreports r (toString i)

/-- A slot is misreported just if it is hidden and something beneath it is listed. -/
theorem misreports_iff_of_slot (hslot : r.slots.find? key = some p) :
    r.Misreports key ↔ r.Fills key ∧ p.enumerable = false := by
  constructor
  · rintro (⟨hnone, -⟩ | ⟨hfills, hslot', hhidden⟩ | ⟨hnone, -⟩ | ⟨hnone, -⟩)
    · cases hslot.symm.trans hnone
    · cases hslot.symm.trans hslot'
      exact ⟨hfills, hhidden⟩
    · cases hslot.symm.trans hnone
    · cases hslot.symm.trans hnone
  · exact fun ⟨hfills, hhidden⟩ => .hidden hfills hslot hhidden

/-- Without a slot a length is misreported, and what is listed without being a property or the other
way round. -/
theorem misreports_iff_of_no_slot (hslot : r.slots.find? key = none) :
    r.Misreports key ↔
      if key = "length" then r.hasLength = true else ¬ (r.Fills key ↔ r.carries key = true) := by
  constructor
  · rintro (⟨-, hhas⟩ | ⟨-, hslot', -⟩ | ⟨-, hcarries, hes, hsome, hpast⟩ |
      ⟨-, hfills, ht, hge, hlt, hindex⟩)
    · exact hhas
    · cases hslot.symm.trans hslot'
    · rw [if_neg Number.toString_ne_length, hcarries, fills_toString_iff, List.mem_append]
      have hlisted := mem_elementIndices_iff.mpr ⟨_, _, hes, hsome, rfl⟩
      simp [hlisted]
    · rw [if_neg Number.toString_ne_length, (carries_toString_iff hindex).mpr (.inr ⟨_, ht, hlt⟩)]
      simpa using hfills
  · split
    · next heq =>
      subst heq
      exact .length hslot
    · intro hdiffer
      by_cases hfills : r.Fills key
      · have hcarries : r.carries key = false := by simpa [hfills] using hdiffer
        rcases carries_of_fills hfills with hcarries' | ⟨es, i, hes, hsome, hpast, rfl⟩
        · cases hcarries.symm.trans hcarries'
        · exact .past hslot hcarries hes hsome hpast
      · have hcarries : r.carries key = true := by simpa [hfills] using hdiffer
        rcases fills_of_carries hcarries with hfills' | ⟨t, i, ht, hge, hlt, hindex, rfl⟩
        · exact absurd hfills' hfills
        · exact .uncounted hslot hfills ht hge hlt hindex

/-- The listing says what the property says, unless it misreports the key. -/
theorem listing?_eq_iff (h : r.slots.InStep) (shared : Option Value) (key : String) :
    r.listing? true key = (r.ownProperty? shared key).map DataProperty.enumerable ↔
      ¬ r.Misreports key := by
  rw [listing?_true h]
  cases hslot : r.slots.find? key with
  | some p =>
    rw [misreports_iff_of_slot hslot, ownProperty?_of_slot hslot]
    by_cases hfills : r.Fills key <;> cases hp : p.enumerable <;> simp [hfills, hp]
  | none =>
    rw [misreports_iff_of_no_slot hslot, ownProperty?_of_no_slot hslot, enumerable_beneath?]
    by_cases hlength : key = "length"
    · subst hlength
      simp [not_fills_length]
    · by_cases hfills : r.Fills key <;> cases hcarries : r.carries key <;>
        simp [hlength, hfills]

end ObjectRecord

namespace Store

variable {s : Store} {id : ObjectId} {ids : List ObjectId} {key : String}

/-! ### First occurrences -/

theorem mem_firstEnumerable_iff (seen : List String) (l : List (String × Bool)) (key : String) :
    key ∈ firstEnumerable seen l ↔ key ∉ seen ∧ l.lookup key = some true := by
  induction l generalizing seen with
  | nil => simp [firstEnumerable]
  | cons entry rest ih =>
    obtain ⟨other, enumerable⟩ := entry
    rw [firstEnumerable, lookup_cons_pair]
    by_cases hkey : key = other
    · subst hkey
      by_cases hseen : key ∈ seen
      · simp [hseen, ih]
      · cases enumerable <;> simp [hseen, ih]
    · by_cases hseen : other ∈ seen
      · simp [hseen, ih, hkey]
      · cases enumerable <;> simp [hseen, ih, hkey]

theorem nodup_firstEnumerable (seen : List String) (l : List (String × Bool)) :
    (firstEnumerable seen l).Nodup := by
  induction l generalizing seen with
  | nil => exact .nil
  | cons entry rest ih =>
    obtain ⟨key, enumerable⟩ := entry
    rw [firstEnumerable]
    split
    · exact ih seen
    · split
      · refine List.nodup_cons.mpr ⟨fun hmem => ?_, ih _⟩
        exact ((mem_firstEnumerable_iff _ rest key).mp hmem).1 List.mem_cons_self
      · exact ih _

theorem lookup_flatMap (f : ObjectId → List (String × Bool)) (ids : List ObjectId)
    (key : String) : (ids.flatMap f).lookup key = ids.findSome? fun id => (f id).lookup key := by
  induction ids with
  | nil => rfl
  | cons id rest ih =>
    rw [List.flatMap_cons, List.lookup_append, ih, List.findSome?_cons]
    cases (f id).lookup key <;> rfl

/-! ### Along the prototypes -/

def listing? (s : Store) (id : ObjectId) (key : String) : Option Bool :=
  (s.ownKeys id true).lookup key

def Misreports (s : Store) (id : ObjectId) (key : String) : Prop :=
  ∃ r, s.object? id = some r ∧ r.Misreports key

/-- No object up to the first that has a property at the key misreports it. -/
def Reports (s : Store) : List ObjectId → String → Prop
  | [], _ => True
  | id :: ids, key =>
    ¬ s.Misreports id key ∧ (s.ownProperty? id key = none → s.Reports ids key)

/-- What a loop visits over an object that has the prototypes `ids`, itself in front. -/
structure Visits (s : Store) (id : ObjectId) (ids : List ObjectId) : Prop where
  once : (s.enumerableKeys id).Nodup
  /-- The first object that lists a key says whether it is visited. -/
  listed : ∀ key, key ∈ s.enumerableKeys id ↔ ids.findSome? (s.listing? · key) = some true
  /-- That is the first object with such a property, unless one up to it misreports the key. -/
  reported : ∀ key, s.Reports ids key → (key ∈ s.enumerableKeys id ↔
    ∃ p, ids.findSome? (s.ownProperty? · key) = some p ∧ p.enumerable = true)
  /-- A hidden slot with nothing beneath it hides whatever comes behind it. -/
  hidden : ∀ before holder after key r p, ids = before ++ holder :: after →
    s.object? holder = some r → r.slots.find? key = some p → p.enumerable = false →
    ¬ r.Fills key →
    (key ∈ s.enumerableKeys id ↔ before.findSome? (s.listing? · key) = some true)

/-- Loops visit keys by the law, whatever objects they go over, and the keys that objects misreport
are those whose listing does not say what their property says. -/
structure VisitsKeys (s : Store) : Prop where
  visits : ∀ id ids, s.Ancestry (some id) ids → s.Visits id ids
  misreports_iff : ∀ id key, s.Misreports id key ↔
    s.listing? id key ≠ (s.ownProperty? id key).map DataProperty.enumerable

theorem listing?_of_object? {r : ObjectRecord} (hr : s.object? id = some r) (key : String) :
    s.listing? id key = r.listing? true key := by
  rw [listing?, ownKeys, hr]
  exact r.lookup_ownKeys true key

theorem Tidy.listing?_eq_iff (hs : s.Tidy) (id : ObjectId) (key : String) :
    s.listing? id key = (s.ownProperty? id key).map DataProperty.enumerable ↔
      ¬ s.Misreports id key := by
  cases hr : s.object? id with
  | none =>
    have hunlisted : s.listing? id key = none := by rw [listing?, ownKeys, hr]; rfl
    have habsent : s.ownProperty? id key = none := by rw [ownProperty?, hr]; rfl
    simp [hunlisted, habsent, Misreports, hr]
  | some r =>
    rw [listing?_of_object? hr, ownProperty?_of_object? hr,
      r.listing?_eq_iff (hs id r hr).inStep]
    simp [Misreports, hr]

/-- A loop visits a key just if the first object that lists it says that it is enumerable. -/
theorem mem_enumerableKeys_iff (h : s.Ancestry (some id) ids) (key : String) :
    key ∈ s.enumerableKeys id ↔ ids.findSome? (s.listing? · key) = some true := by
  unfold enumerableKeys
  rw [h.chain_eq, mem_firstEnumerable_iff, lookup_flatMap]
  simp only [listing?, List.not_mem_nil, not_false_eq_true, true_and]

theorem Tidy.findSome?_listing? (hs : s.Tidy) (h : s.Reports ids key) :
    ids.findSome? (s.listing? · key) =
      (ids.findSome? (s.ownProperty? · key)).map DataProperty.enumerable := by
  induction ids with
  | nil => rfl
  | cons id ids ih =>
    obtain ⟨hreports, hrest⟩ := h
    rw [List.findSome?_cons, List.findSome?_cons, (hs.listing?_eq_iff id key).mpr hreports]
    cases hown : s.ownProperty? id key with
    | some p => rfl
    | none => exact ih (hrest hown)

theorem findSome?_listing?_of_hidden {before after : List ObjectId} {holder : ObjectId}
    (h : s.listing? holder key = some false) :
    (before ++ holder :: after).findSome? (s.listing? · key) = some true ↔
      before.findSome? (s.listing? · key) = some true := by
  rw [List.findSome?_append, List.findSome?_cons, h]
  cases before.findSome? (s.listing? · key) with
  | none => simp
  | some b => rfl

theorem Tidy.visits (hs : s.Tidy) (h : s.Ancestry (some id) ids) : s.Visits id ids where
  once := nodup_firstEnumerable _ _
  listed := mem_enumerableKeys_iff h
  reported key hreports := by
    rw [mem_enumerableKeys_iff h, hs.findSome?_listing? hreports, Option.map_eq_some_iff]
  hidden before holder after key r p hids hr hslot hhidden hfills := by
    have hlisting : s.listing? holder key = some false := by
      rw [listing?_of_object? hr, ObjectRecord.listing?_true (hs holder r hr).inStep,
        if_neg hfills, hslot, Option.map_some, hhidden]
    rw [mem_enumerableKeys_iff h, hids, findSome?_listing?_of_hidden hlisting]

theorem Tidy.visitsKeys (hs : s.Tidy) : s.VisitsKeys where
  visits _ _ := hs.visits
  misreports_iff id key := by rw [Ne, hs.listing?_eq_iff, not_not]

-- An array does not list its length, so that of its prototype shows.
example : let s : Store := ⟨#[], #[{ slots := .ofList [("length", .plain .null)] },
      { elements := some #[], prototype := some ⟨0⟩ }]⟩
    s.enumerableKeys ⟨1⟩ = ["length"] ∧
      (s.property? ⟨1⟩ "length").map DataProperty.enumerable = some false := by
  decide +kernel

end Store

/-! ### Runs -/

namespace Loops

open Integrity

variable {host : Host} {m : Machine}

/-- Loops visit keys by the law when a task begins and when it ends. -/
def observer : Supervisor Unit where
  inside _ _ _ := ()
  admits _ _ m := m.store.VisitsKeys
  accepts _ _ _ _ m' := m'.store.VisitsKeys

/-- On every machine that sessions lead to, and at every task of whatever the embedding program asks
for there, loops over objects visit keys by the law. -/
theorem every_loop_visits_by_law (hhost : host.Courteous)
    (hm : Machine.Reachable host Program.Accepted m) :
    m.store.VisitsKeys ∧
    ∀ task, (Setting.embedding Program.Accepted fun _ => True).asks task →
      (∀ v ∈ task.values, m.Knows v) → ∀ bound,
        observer.run host bound () task m = runTask host bound task m := by
  have hintact := (intact_of_reachable hhost hm).1
  refine ⟨hintact.store.tidy.visitsKeys, fun task htask hvalues bound => ?_⟩
  exact (governs hhost).run_eq observer (fun _ => ()) (fun _ _ _ _ => rfl)
    (fun _ _ _ hbegin => hbegin.1.store.tidy.visitsKeys)
    (fun _ _ _ _ _ _ hend => hend.2.1.store.tidy.visitsKeys)
    bound .undefined task m (admits_of_asks hintact htask hvalues)

/-- An array whose prototype has a length. -/
theorem every_loop_visits_by_law_of_array :
    observer.run .callBack 9 ()
        (.indirectEval (.string (.ofString "Object.setPrototypeOf([], \x7blength: 5\x7d)")))
        (.initial {}) =
      runTask .callBack 9
        (.indirectEval (.string (.ofString "Object.setPrototypeOf([], \x7blength: 5\x7d)")))
        (.initial {}) :=
  (every_loop_visits_by_law Host.callBack_courteous (.initial {})).2
    (.indirectEval (.string (.ofString "Object.setPrototypeOf([], \x7blength: 5\x7d)"))) trivial
    (List.forall_mem_singleton.mpr trivial) 9

end Loops

end ProtoScript
