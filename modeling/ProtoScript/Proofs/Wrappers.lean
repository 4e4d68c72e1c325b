import ProtoScript.Proofs.Arrays.Operations
import ProtoScript.Proofs.Integrity.Sessions
/-!
# Primitive values read like their wrappers

A property of a primitive value is looked up without an object: the length and the units of a string
first, and then what the prototype for values of its kind has.  A wrapper is an object with a record
of its own that offers the same.  Whatever programs have made of those prototypes, no read and no
test for an instance tells a string, a number or a boolean from the wrapper that is made for it.
-/

namespace ProtoScript

/-!
### What a new object leaves as it is

Nothing refers to a new object yet, so what can be read from the objects that there were stays the
same.
-/

namespace Store

variable {s : Store} {r : ObjectRecord} {id : ObjectId} {start : Option ObjectId}
  {ids : List ObjectId}

theorem object?_allocate_of_lt (hid : id.index < s.objects.size) (r : ObjectRecord) :
    (s.allocate r).2.object? id = s.object? id :=
  (s.object?_allocate r id).trans (if_neg (Nat.ne_of_lt hid))

theorem propertyAmong?_allocate (hids : ∀ id ∈ ids, id.index < s.objects.size) (r : ObjectRecord)
    (key : String) : (s.allocate r).2.propertyAmong? ids key = s.propertyAmong? ids key := by
  induction ids with
  | nil => rfl
  | cons id ids ih =>
    obtain ⟨hid, hrest⟩ := List.forall_mem_cons.mp hids
    have hown : (s.allocate r).2.ownProperty? id key = s.ownProperty? id key :=
      ownProperty?_congr (object?_allocate_of_lt hid r) rfl key
    unfold propertyAmong? at ih ⊢
    rw [List.findSome?_cons, List.findSome?_cons, hown, ih hrest]

theorem Ancestry.propertyAmong?_chain_allocate (h : s.Ancestry start ids) (r : ObjectRecord)
    (key : String) :
    (s.allocate r).2.propertyAmong? ((s.allocate r).2.chain start) key =
      s.propertyAmong? (s.chain start) key := by
  rw [(h.allocate r).chain_eq, h.chain_eq]
  exact propertyAmong?_allocate h.lt_size r key

theorem Founded.get_allocate (hs : s.Founded) (hid : id.index < s.objects.size) (r : ObjectRecord)
    (key : String) : (s.allocate r).2.get id key = s.get id key := by
  obtain ⟨ids, hids⟩ := hs id hid
  unfold Store.get property?
  rw [hids.propertyAmong?_chain_allocate r key]

/-- A new object that cannot be called is like no object where a function is asked for. -/
theorem callable?_allocate (hr : r.callable = none) (v : Value) :
    (s.allocate r).2.callable? v = s.callable? v := by
  unfold callable? objectOf?
  cases v.objectId? with
  | none => rfl
  | some id =>
    rw [Option.bind_some, Option.bind_some, object?_allocate]
    split
    · rename_i hnew
      have hnone : s.object? id = none := Array.getElem?_eq_none (Nat.le_of_eq hnew.symm)
      rw [hnone]
      exact hr
    · rfl

end Store

/-! ### What there is to read from a primitive value -/

def Value.IsWrappable : Value → Prop
  | .string _ | .number _ | .boolean _ => True
  | _ => False

def Value.ownValue? (key : String) : Value → Option Value
  | .string t => t.property? key
  | _ => none

theorem Value.IsWrappable.prototype {p : Value} (hp : p.IsWrappable) :
    ∃ prototype, p.primitivePrototype? = some prototype := by
  cases p with
  | string t => exact ⟨_, rfl⟩
  | number x => exact ⟨_, rfl⟩
  | boolean b => exact ⟨_, rfl⟩
  | _ => exact hp.elim

namespace ObjectRecord

theorem prototype_wrapper {p : Value} {prototype : ObjectId}
    (hprototype : p.primitivePrototype? = some prototype) :
    (wrapper p).prototype = some prototype := by
  unfold wrapper
  rw [hprototype]
  rfl

theorem unitProperty?_wrapper (p : Value) (key : String) :
    ((wrapper p).unitProperty? key).map DataProperty.value = p.ownValue? key := by
  cases p with
  | string t =>
    unfold unitProperty? Value.ownValue? Text.property?
    change Option.map _ (if key = "length" then _ else _) = _
    split
    · rfl
    · cases Number.arrayIndex? key with
      | none => rfl
      | some i => exact Option.map_map ..
  | _ => rfl

/-- A wrapper has at a key what the primitive value has there of its own. -/
theorem ownProperty?_wrapper (p : Value) (shared : Option Value) (key : String) :
    ((wrapper p).ownProperty? shared key).map DataProperty.value = p.ownValue? key :=
  unitProperty?_wrapper p key

end ObjectRecord

namespace Store

variable {s : Store} {p : Value} {prototype : ObjectId}

theorem getOfPrimitive_eq (hprototype : p.primitivePrototype? = some prototype) (key : String) :
    s.getOfPrimitive p key = (p.ownValue? key).getD (s.get prototype key) := by
  unfold getOfPrimitive
  rw [hprototype]
  cases p with
  | string t =>
    unfold Value.ownValue?
    dsimp only
    cases t.property? key <;> rfl
  | _ => rfl

theorem parentOf?_eq (hprototype : p.primitivePrototype? = some prototype) :
    s.parentOf? p = some prototype := by
  cases p <;> first | exact hprototype | cases hprototype

theorem parentOf?_wrapper (hprototype : p.primitivePrototype? = some prototype) :
    (s.allocate (.wrapper p)).2.parentOf? (.object (s.allocate (.wrapper p)).1) =
      some prototype := by
  unfold parentOf? prototype?
  dsimp only
  rw [object?_allocate_self]
  exact ObjectRecord.prototype_wrapper hprototype

theorem Ancestry.wrapper {ids : List ObjectId} (h : s.Ancestry (some prototype) ids)
    (hprototype : p.primitivePrototype? = some prototype) :
    (s.allocate (.wrapper p)).2.Ancestry (some (s.allocate (.wrapper p)).1)
      ((s.allocate (.wrapper p)).1 :: ids) := by
  refine .cons (object?_allocate_self s _) ?_
  rw [ObjectRecord.prototype_wrapper hprototype]
  exact h.allocate _

namespace Intact

variable (hs : s.Intact) (hprototype : p.primitivePrototype? = some prototype)
include hs hprototype

theorem lt_primitivePrototype : prototype.index < s.objects.size :=
  hs.lt_intrinsic (Value.primitivePrototype?_lt hprototype)

theorem getOfPrimitive_allocate (r : ObjectRecord) (key : String) :
    (s.allocate r).2.getOfPrimitive p key = s.getOfPrimitive p key := by
  rw [getOfPrimitive_eq hprototype, getOfPrimitive_eq hprototype,
    hs.founded.get_allocate (hs.lt_primitivePrototype hprototype) r key]

theorem inherits_allocate (r : ObjectRecord) (ancestor : ObjectId) :
    (s.allocate r).2.inherits p ancestor = s.inherits p ancestor := by
  obtain ⟨ids, hids⟩ := hs.founded prototype (hs.lt_primitivePrototype hprototype)
  unfold inherits
  rw [parentOf?_eq hprototype, parentOf?_eq hprototype, (hids.allocate r).chain_eq, hids.chain_eq]

theorem get_wrapper (key : String) :
    (s.allocate (.wrapper p)).2.get (s.allocate (.wrapper p)).1 key = s.getOfPrimitive p key := by
  obtain ⟨ids, hids⟩ := hs.founded prototype (hs.lt_primitivePrototype hprototype)
  have hown := ObjectRecord.ownProperty?_wrapper p
    ((s.allocate (.wrapper p)).2.sharedValue? (.wrapper p) key) key
  rw [getOfPrimitive_eq hprototype, ← hown]
  unfold Store.get property?
  rw [(hids.wrapper hprototype).chain_eq, hids.chain_eq]
  unfold propertyAmong?
  rw [List.findSome?_cons, ownProperty?_of_object? (object?_allocate_self s _)]
  cases (ObjectRecord.wrapper p).ownProperty? _ key with
  | some property => rfl
  | none =>
    rw [← propertyAmong?, propertyAmong?_allocate hids.lt_size]
    rfl

/-- A wrapper inherits from what the primitive value inherits from. -/
theorem inherits_wrapper (ancestor : ObjectId) :
    (s.allocate (.wrapper p)).2.inherits (.object (s.allocate (.wrapper p)).1) ancestor =
      s.inherits p ancestor := by
  rw [← hs.inherits_allocate hprototype (.wrapper p)]
  unfold inherits
  rw [parentOf?_wrapper hprototype, parentOf?_eq hprototype]

end Intact

end Store

/-! ### Instances -/

/-- How a computation ends that changes nothing and gives a value or a fault. -/
def Eval.conclude {α : Type} : Except Fault α → Eval α
  | .ok a => pure a
  | .error f => fault f

namespace Store

/-- The object that the instances of a function inherit from, or what is wrong with the function. -/
def instancePrototype (s : Store) (function : Value) : Except Fault ObjectId :=
  match function with
  | .object id =>
    if s.isCallable function then
      match s.get id "prototype" with
      | .object prototype => .ok prototype
      | _ => .error .prototypeNotObject
    else .error .instanceOfUncallable
  | _ => .error .instanceOfUncallable

/-- Whether a value is an instance of a function, or what is wrong with the function. -/
def instanceVerdict (s : Store) (v function : Value) : Except Fault Bool :=
  (s.instancePrototype function).map (s.inherits v)

variable {s : Store} {r : ObjectRecord}

theorem Founded.instancePrototype_allocate (hs : s.Founded) (hr : r.callable = none)
    (function : Value) :
    (s.allocate r).2.instancePrototype function = s.instancePrototype function := by
  have hcallable : (s.allocate r).2.isCallable function = s.isCallable function :=
    congrArg Option.isSome (callable?_allocate hr function)
  cases function with
  | object id =>
    unfold instancePrototype
    dsimp only
    rw [hcallable]
    split
    · rename_i hfunction
      obtain ⟨c, hc⟩ := Option.isSome_iff_exists.mp hfunction
      obtain ⟨record, hrecord, _⟩ := Option.bind_eq_some_iff.mp hc
      rw [hs.get_allocate (object?_eq_some_iff.mp ⟨record, hrecord⟩) r "prototype"]
    · rfl
  | _ => rfl

/-- A value that inherits from what another one inherited from, before there was the new object, is
an instance of the same functions. -/
theorem Founded.instanceVerdict_allocate (hs : s.Founded) (hr : r.callable = none) {v w : Value}
    (hinherits : ∀ ancestor, (s.allocate r).2.inherits w ancestor = s.inherits v ancestor)
    (function : Value) :
    (s.allocate r).2.instanceVerdict w function = s.instanceVerdict v function := by
  unfold instanceVerdict
  rw [hs.instancePrototype_allocate hr, funext hinherits]

end Store

namespace Eval

theorem read_bind {α β : Type} (f : Store → α) (g : α → Eval β) (m : Machine) :
    (read f >>= g) m = g (f m.store) m :=
  rfl

theorem instanceOf_eq (v function : Value) (m : Machine) :
    instanceOf v function m = conclude (m.store.instanceVerdict v function) m := by
  unfold instanceOf Store.instanceVerdict Store.instancePrototype
  cases function with
  | object id =>
    rw [read_bind]
    cases m.store.isCallable (.object id) with
    | false => rfl
    | true =>
      change (getMember (.object id) "prototype" >>= _) m = _
      unfold getMember
      rw [read_bind]
      dsimp only [if_true]
      cases m.store.get id "prototype" <;> rfl
  | _ => rfl

end Eval

/-! ### Reading -/

/-- What reading from the value gives on the machine: the values at all keys, and for all functions
whether it is an instance. -/
structure Machine.ReadsAs (m : Machine) (v : Value) (member : String → Value)
    (verdict : Value → Except Fault Bool) : Prop where
  getMember : ∀ key, Eval.getMember v key m = .ok (member key) m
  instanceOf : ∀ function, Eval.instanceOf v function m = Eval.conclude (verdict function) m

/-- A new wrapper for the primitive value is made on the way from the first machine to the second,
and reading from the wrapper gives what reading from the value gives, before and after. -/
structure Machine.Wraps (m : Machine) (p wrapper : Value) (m' : Machine) : Prop where
  made : Eval.toObject p m = .ok wrapper m'
  fresh : ¬ m.Knows wrapper
  record : m'.store.objectOf? wrapper = some (.wrapper p)
  alike : ∃ member verdict, m.ReadsAs p member verdict ∧ m'.ReadsAs p member verdict ∧
    m'.ReadsAs wrapper member verdict

/-- Every string, number and boolean reads like the wrapper that is made for it. -/
def Machine.WrapsFaithfully (m : Machine) : Prop :=
  ∀ p : Value, p.IsWrappable → ∃ wrapper m', m.Wraps p wrapper m'

namespace Wrappers

open Integrity

variable {host : Host} {m : Machine} {p : Value}

theorem getMember_eq (hp : p.IsWrappable) (key : String) (m : Machine) :
    Eval.getMember p key m = .ok (m.store.getOfPrimitive p key) m := by
  cases p with
  | string t => rfl
  | number x => rfl
  | boolean b => rfl
  | _ => exact hp.elim

theorem toObject_eq (hp : p.IsWrappable) (m : Machine) :
    Eval.toObject p m = Eval.allocate (.wrapper p) m := by
  cases p with
  | string t => rfl
  | number x => rfl
  | boolean b => rfl
  | _ => exact hp.elim

theorem wrapsFaithfully_of_intact (hm : m.Intact) : m.WrapsFaithfully := by
  intro p hp
  obtain ⟨prototype, hprototype⟩ := hp.prototype
  have hs := hm.store
  let made := m.store.allocate (.wrapper p)
  refine ⟨.object made.1, { m with store := made.2 }, toObject_eq hp m, Nat.lt_irrefl _,
    Store.object?_allocate_self m.store _, m.store.getOfPrimitive p, m.store.instanceVerdict p,
    ⟨fun key => getMember_eq hp key m, fun function => Eval.instanceOf_eq p function m⟩,
    ⟨fun key => ?_, fun function => ?_⟩, ⟨fun key => ?_, fun function => ?_⟩⟩
  · rw [getMember_eq hp, hs.getOfPrimitive_allocate hprototype]
  · rw [Eval.instanceOf_eq,
      hs.founded.instanceVerdict_allocate rfl (hs.inherits_allocate hprototype _)]
  · exact congrArg (EStateM.Result.ok · _) (hs.get_wrapper hprototype key)
  · rw [Eval.instanceOf_eq,
      hs.founded.instanceVerdict_allocate rfl (hs.inherits_wrapper hprototype)]

/-- Primitive values read like their wrappers when a task begins and when it ends. -/
def observer : Supervisor Unit where
  inside _ _ _ := ()
  admits _ _ m := m.WrapsFaithfully
  accepts _ _ _ _ m' := m'.WrapsFaithfully

/-- On every machine that sessions lead to, and at every task of whatever the embedding program asks
for there, strings, numbers and booleans read like the wrappers that are made for them. -/
theorem primitives_read_like_wrappers (hhost : host.Courteous)
    (hm : Machine.Reachable host Program.Accepted m) :
    m.WrapsFaithfully ∧
    ∀ task, (Setting.embedding Program.Accepted fun _ => True).asks task →
      (∀ v ∈ task.values, m.Knows v) → ∀ bound,
        observer.run host bound () task m = runTask host bound task m := by
  have hintact := (intact_of_reachable hhost hm).1
  refine ⟨wrapsFaithfully_of_intact hintact, fun task htask hvalues bound => ?_⟩
  exact (governs hhost).run_eq observer (fun _ => ()) (fun _ _ _ _ => rfl)
    (fun _ _ _ hbegin => wrapsFaithfully_of_intact hbegin.1)
    (fun _ _ _ _ _ _ hend => wrapsFaithfully_of_intact hend.2.1)
    bound .undefined task m (admits_of_asks hintact htask hvalues)

theorem primitives_read_like_wrappers_relinked :
    observer.run .callBack 9 ()
        (.indirectEval (.string (.ofString "Object.setPrototypeOf(String.prototype, eval)")))
        (.initial {}) =
      runTask .callBack 9
        (.indirectEval (.string (.ofString "Object.setPrototypeOf(String.prototype, eval)")))
        (.initial {}) :=
  (primitives_read_like_wrappers Host.callBack_courteous (.initial {})).2
    (.indirectEval (.string (.ofString "Object.setPrototypeOf(String.prototype, eval)"))) trivial
    (List.forall_mem_singleton.mpr trivial) 9

end Wrappers

end ProtoScript
