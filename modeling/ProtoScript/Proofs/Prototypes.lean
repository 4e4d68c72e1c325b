import ProtoScript.Proofs.Integrity.Ancestry
import ProtoScript.Proofs.Integrity.Sessions
/-!
# Every chain of prototypes ends

Whatever objects programs make and however they link them, the prototype links of an object lead
through finitely many objects, none of them twice, and then end: the only operation that changes a
link looks first whether it would close a circle.  So everything that goes along the links comes to
an end, and the bound that the operations on properties put on their walks never shows.
-/

namespace ProtoScript

/-!
### Walks along prototypes

Looking for a property, collecting keys and looking for an ancestor all go from object to object
along the prototype links, and stop where an object decides the matter or where the links end.  No
bound comes into such a walk; that it ends at all is because everything has an ancestry.
-/

namespace Store

variable {s : Store} {σ ρ : Type}

/-- A walk with a state, from object to object.  A visit decides the matter or hands a new state on
to the visit of the prototype. -/
inductive Walks (s : Store) (visit : ObjectId → σ → Except ρ σ) (finish : σ → ρ) :
    Option ObjectId → σ → ρ → Prop
  | ended (state : σ) : s.Walks visit finish none state (finish state)
  | decided {id : ObjectId} {state : σ} {result : ρ} (visited : visit id state = .error result) :
      s.Walks visit finish (some id) state result
  | next {id : ObjectId} {r : ObjectRecord} {state state' : σ} {result : ρ}
      (there : s.object? id = some r) (visited : visit id state = .ok state')
      (rest : s.Walks visit finish r.prototype state' result) :
      s.Walks visit finish (some id) state result

def walkAlong (visit : ObjectId → σ → Except ρ σ) (finish : σ → ρ) : List ObjectId → σ → ρ
  | [], state => finish state
  | id :: ids, state =>
    match visit id state with
    | .error result => result
    | .ok state => walkAlong visit finish ids state

/-- A walk along an ancestry visits its objects in their order, and ends. -/
theorem Ancestry.walks {start : Option ObjectId} {ids : List ObjectId}
    (h : s.Ancestry start ids) (visit : ObjectId → σ → Except ρ σ) (finish : σ → ρ) (state : σ) :
    s.Walks visit finish start state (walkAlong visit finish ids state) := by
  induction h generalizing state with
  | nil => exact .ended state
  | cons there _ ih =>
    unfold walkAlong
    split
    · rename_i result hvisited
      exact .decided hvisited
    · rename_i state' hvisited
      exact .next there hvisited (ih state')

/-! ### The walks of the operations on properties -/

/-- Looks for something at an object: what is found decides the matter. -/
def lookFor (find : ObjectId → Option ρ) (id : ObjectId) (_ : Unit) : Except (Option ρ) Unit :=
  match find id with
  | some found => .error (some found)
  | none => .ok ()

theorem walkAlong_lookFor (find : ObjectId → Option ρ) (ids : List ObjectId) :
    walkAlong (lookFor find) (fun _ => none) ids () = ids.findSome? find := by
  induction ids with
  | nil => rfl
  | cons id ids ih =>
    unfold walkAlong lookFor
    rw [List.findSome?_cons]
    cases find id with
    | some found => rfl
    | none => exact ih

/-- Looks whether something holds of an object: if so, the matter is decided. -/
def lookWhether (holds : ObjectId → Bool) (id : ObjectId) (_ : Unit) : Except Bool Unit :=
  if holds id then .error true else .ok ()

theorem walkAlong_lookWhether (holds : ObjectId → Bool) (ids : List ObjectId) :
    walkAlong (lookWhether holds) (fun _ => false) ids () = ids.any holds := by
  induction ids with
  | nil => rfl
  | cons id ids ih =>
    unfold walkAlong lookWhether
    rw [List.any_cons]
    cases holds id with
    | true => rfl
    | false => exact ih

/-- Takes a key down as seen, and as a key to visit if it is enumerable and not seen before. -/
def noteKey (state : List String × List String) (entry : String × Bool) :
    List String × List String :=
  if state.1.contains entry.1 then state
  else (entry.1 :: state.1, if entry.2 then state.2 ++ [entry.1] else state.2)

def collectKeys (s : Store) (id : ObjectId) (state : List String × List String) :
    Except (List String) (List String × List String) :=
  .ok ((s.ownKeys id true).foldl noteKey state)

theorem foldl_noteKey (entries : List (String × Bool)) (seen keys : List String) :
    (entries.foldl noteKey (seen, keys)).2 = keys ++ firstEnumerable seen entries := by
  induction entries generalizing seen keys with
  | nil => exact (List.append_nil keys).symm
  | cons entry rest ih =>
    obtain ⟨key, enumerable⟩ := entry
    rw [List.foldl_cons]
    unfold firstEnumerable noteKey
    by_cases hseen : seen.contains key = true
    · simp only [hseen, if_true]
      exact ih seen keys
    · cases enumerable with
      | true =>
        simp only [hseen, if_true]
        refine (ih (key :: seen) (keys ++ [key])).trans ?_
        rw [List.append_assoc, List.singleton_append]
        rfl
      | false =>
        simp only [hseen]
        exact ih (key :: seen) keys

theorem walkAlong_collectKeys (ids : List ObjectId) (state : List String × List String) :
    walkAlong s.collectKeys Prod.snd ids state =
      ((ids.flatMap fun id => s.ownKeys id true).foldl noteKey state).2 := by
  induction ids generalizing state with
  | nil => rfl
  | cons id ids ih =>
    rw [List.flatMap_cons, List.foldl_append]
    exact ih _

end Store

/-! ### Chains -/

namespace Store

/-- The prototypes of every object come to an end without meeting one twice, so every walk along
them ends, and the operations on properties are such walks. -/
structure Walkable (s : Store) : Prop where
  ancestry : ∀ id, id.index < s.objects.size → ∃ ids, s.Ancestry (some id) ids ∧ ids.Nodup
  walks : ∀ {σ ρ : Type} (visit : ObjectId → σ → Except ρ σ) (finish : σ → ρ) id state,
    id.index < s.objects.size → ∃ result, s.Walks visit finish (some id) state result
  property : ∀ id key, id.index < s.objects.size →
    s.Walks (lookFor (s.ownProperty? · key)) (fun _ => none) (some id) () (s.property? id key)
  hasProperty : ∀ id key, id.index < s.objects.size →
    s.Walks (lookWhether (s.hasOwnProperty · key)) (fun _ => false) (some id) ()
      (s.hasProperty id key)
  enumerableKeys : ∀ id, id.index < s.objects.size →
    s.Walks s.collectKeys Prod.snd (some id) ([], []) (s.enumerableKeys id)
  inherits : ∀ v ancestor, v.Within s.objects.size →
    s.Walks (lookWhether (ancestor == ·)) (fun _ => false) (s.parentOf? v) ()
      (s.inherits v ancestor)
  closesCircle : ∀ (prototype : Value) id, prototype.Within s.objects.size →
    s.Walks (lookWhether (id == ·)) (fun _ => false) prototype.objectId? ()
      ((s.chain prototype.objectId?).contains id)

theorem Ancestry.walks_contains {s : Store} {start : Option ObjectId} {ids : List ObjectId}
    (h : s.Ancestry start ids) (id : ObjectId) :
    s.Walks (lookWhether (id == ·)) (fun _ => false) start () ((s.chain start).contains id) := by
  have hwalk := h.walks (lookWhether (id == ·)) (fun _ => false) ()
  rw [walkAlong_lookWhether] at hwalk
  rw [h.chain_eq, List.contains_eq_any_beq]
  exact hwalk

theorem findSome?_isSome {ids : List ObjectId} {β : Type} (find : ObjectId → Option β) :
    (ids.findSome? find).isSome = ids.any fun id => (find id).isSome := by
  induction ids with
  | nil => rfl
  | cons id ids ih =>
    rw [List.findSome?_cons, List.any_cons]
    cases find id with
    | some found => rfl
    | none => exact ih

theorem Intact.walkable {s : Store} (hs : s.Intact) : s.Walkable where
  ancestry id hid := by
    obtain ⟨ids, hids⟩ := hs.founded id hid
    exact ⟨ids, hids, hids.nodup⟩
  walks visit finish id state hid := by
    obtain ⟨ids, hids⟩ := hs.founded id hid
    exact ⟨_, hids.walks visit finish state⟩
  property id key hid := by
    obtain ⟨ids, hids⟩ := hs.founded id hid
    have hwalk := hids.walks (lookFor (s.ownProperty? · key)) (fun _ => none) ()
    rw [walkAlong_lookFor] at hwalk
    unfold Store.property? propertyAmong?
    rw [hids.chain_eq]
    exact hwalk
  hasProperty id key hid := by
    obtain ⟨ids, hids⟩ := hs.founded id hid
    have hwalk := hids.walks (lookWhether (s.hasOwnProperty · key)) (fun _ => false) ()
    rw [walkAlong_lookWhether] at hwalk
    unfold Store.hasProperty Store.property? propertyAmong?
    rw [hids.chain_eq, findSome?_isSome]
    exact hwalk
  enumerableKeys id hid := by
    obtain ⟨ids, hids⟩ := hs.founded id hid
    have hwalk := hids.walks s.collectKeys Prod.snd ([], [])
    rw [walkAlong_collectKeys, foldl_noteKey] at hwalk
    unfold Store.enumerableKeys
    rw [hids.chain_eq]
    exact hwalk
  inherits v ancestor hv := by
    have hparent : ∀ p ∈ s.parentOf? v, p.index < s.objects.size := by
      intro p hp
      cases v with
      | object id => exact hs.within_prototype? hp
      | undefined => cases hp
      | null => cases hp
      | boolean b => exact hs.lt_intrinsic (Value.primitivePrototype?_lt (v := .boolean b) hp)
      | number x => exact hs.lt_intrinsic (Value.primitivePrototype?_lt (v := .number x) hp)
      | string t => exact hs.lt_intrinsic (Value.primitivePrototype?_lt (v := .string t) hp)
    obtain ⟨ids, hids⟩ := hs.founded.ancestry hparent
    exact hids.walks_contains ancestor
  closesCircle prototype id hprototype := by
    obtain ⟨ids, hids⟩ := hs.founded.ancestry fun p hp => hprototype.lt hp
    exact hids.walks_contains id

end Store

theorem Eval.object?_of_fault {α : Type} {f : Fault} {m m' : Machine} {stop : Stop}
    (h : (Eval.fault f : Eval α) m = .error stop m') {id : ObjectId}
    (hid : id.index < m.store.objects.size) : m'.store.object? id = m.store.object? id := by
  cases h
  exact (m.store.object?_allocate _ id).trans (if_neg (Nat.ne_of_lt hid))

theorem Engine.object?_of_setPrototypeOf_refused {target prototype : Value} {m m' : Machine}
    {stop : Stop} (h : Engine.setPrototypeOf target prototype m = .error stop m') {id : ObjectId}
    (hid : id.index < m.store.objects.size) : m'.store.object? id = m.store.object? id := by
  unfold Engine.setPrototypeOf at h
  split at h
  · exact Eval.object?_of_fault h hid
  · split at h
    · exact Eval.object?_of_fault h hid
    · cases target with
      | object target =>
        have hread : (do
            if (m.store.chain prototype.objectId?).contains target then Eval.fault .cyclicPrototype
            else
              Eval.update fun s => s.setPrototype target prototype.objectId?
              return .object target : Eval Value) m = .error stop m' := h
        split at hread
        · exact Eval.object?_of_fault hread hid
        · cases hread
      | _ => cases h

namespace Prototypes

open Integrity

variable {host : Host} {m : Machine}

/-- The prototypes of all objects come to an end when a task begins and when it ends. -/
def observer : Supervisor Unit where
  inside _ _ _ := ()
  admits _ _ m := m.store.Walkable
  accepts _ _ _ _ m' := m'.store.Walkable

/-- On every machine that sessions lead to, and at every task of whatever the embedding program asks
for there, all chains of prototypes end and so does all that goes along them.  A link that is
refused leaves all links as they are. -/
theorem every_chain_ends (hhost : host.Courteous)
    (hm : Machine.Reachable host Program.Accepted m) :
    m.store.Walkable ∧
    (∀ task, (Setting.embedding Program.Accepted fun _ => True).asks task →
      (∀ v ∈ task.values, m.Knows v) → ∀ bound,
        observer.run host bound () task m = runTask host bound task m) ∧
    (∀ target prototype stop (m₁ m₂ : Machine),
      Engine.setPrototypeOf target prototype m₁ = .error stop m₂ →
      ∀ id, id.index < m₁.store.objects.size →
        m₂.store.prototype? id = m₁.store.prototype? id) := by
  have hintact := (intact_of_reachable hhost hm).1
  refine ⟨hintact.store.walkable, fun task htask hvalues bound => ?_,
    fun target prototype stop m₁ m₂ hrefused id hid => ?_⟩
  · exact (governs hhost).run_eq observer (fun _ => ()) (fun _ _ _ _ => rfl)
      (fun _ _ _ hbegin => hbegin.1.store.walkable)
      (fun _ _ _ _ _ _ hend => hend.2.1.store.walkable)
      bound .undefined task m (admits_of_asks hintact htask hvalues)
  · unfold Store.prototype?
    rw [Engine.object?_of_setPrototypeOf_refused hrefused hid]

theorem every_chain_ends_calling_back :
    observer.run .callBack 9 ()
        (.indirectEval (.string (.ofString "Object.setPrototypeOf(Object.prototype, {})")))
        (.initial {}) =
      runTask .callBack 9
        (.indirectEval (.string (.ofString "Object.setPrototypeOf(Object.prototype, {})")))
        (.initial {}) :=
  (every_chain_ends Host.callBack_courteous (.initial {})).2.1
    (.indirectEval (.string (.ofString "Object.setPrototypeOf(Object.prototype, {})"))) trivial
    (List.forall_mem_singleton.mpr trivial) 9

end Prototypes

end ProtoScript
