import ProtoScript.Builtin.Array
import ProtoScript.Proofs.Arrays.Elements
import ProtoScript.Proofs.Integrity.Ancestry
import ProtoScript.Proofs.Values.Integers
/-!
# Operations on arrays and on lists

What scripts do to an array, and the same on a list with holes.  An array in front of whose elements
nothing stands, and that inherits from nothing with a property at an index, is changed as the list
is, and looks like the list before and after.
-/

namespace ProtoScript

/-! ### The operations -/

inductive ArrayOperation where
  | push (values : List Value)
  | pop
  | write (i : Nat) (value : Value)
  | delete (i : Nat)
  | setLength (value : Value)

namespace ArrayOperation

def onList : ArrayOperation → HoledList → HoledList
  | push values, l => l ++ values.map some
  | pop, l => l.dropLast
  | write i value, l => l.write i value
  | delete i, l => l.set i none
  | setLength value, l =>
    match ObjectRecord.arrayLength? value with
    | some n => l.resize n
    | none => l

def result : ArrayOperation → HoledList → Value
  | push values, l => .ofNat (l.length + values.length)
  | pop, l => l.getLast?.join.getD .undefined
  | write _ value, _ => value
  | delete _, _ => .boolean true
  | setLength value, _ => value

open Eval in
/-- Carries out an operation on an array, in strict code or in sloppy code. -/
def perform (e : Engine) (id : ObjectId) (strict : Bool) : ArrayOperation → Eval Value
  | push values => ArrayNative.push.run e (.object id) values
  | pop => ArrayNative.pop.run e (.object id) []
  | write i value => do
    setMember (.object id) (toString i) value strict
    return value
  | delete i => do
    let deleted ← updateGet fun s => s.delete id (toString i)
    if !deleted && strict then fault (.notDeletable (toString i)) else return .boolean deleted
  | setLength value => do
    setMember (.object id) "length" value strict
    return value

/-- The operation is at an array index, and the list stays shorter than the longest array. -/
def Fits (op : ArrayOperation) (l : HoledList) : Prop :=
  (op.onList l).length < 4294967295 ∧
    match op with
    | write i _ | delete i => i < 4294967295
    | _ => True

/-- The operation assigns a length that is none. -/
def Refused (op : ArrayOperation) : Prop :=
  ∃ value, op = .setLength value ∧ ObjectRecord.arrayLength? value = none

/-- How an operation completes on an array that holds a list: with its result, unless it is refused
in strict code. -/
inductive Answers (l : HoledList) (op : ArrayOperation) (strict : Bool) :
    Except Abrupt Value → Prop
  | done (goes : strict = true → ¬ op.Refused) : Answers l op strict (.ok (op.result l))
  | refused (error : Value) (code : strict = true) (refused : op.Refused) :
    Answers l op strict (.error (.thrown error))

end ArrayOperation

namespace Store

/-! ### Arrays in the store -/

/-- The object is an array that holds a list, and nothing it inherits from has a property at an
index. -/
structure HoldsList (s : Store) (id : ObjectId) (l : HoledList) : Prop where
  record : ∃ r, s.object? id = some r ∧ r.Holds l
  barren : ∃ ids, s.Ancestry (some id) (id :: ids) ∧
    ∀ holder ∈ ids, ∀ i < 4294967295, s.ownProperty? holder (toString i) = none

/-- What is seen of an array is a list: its length, what it has at each index, whether it has
something there, and the indices among its own keys. -/
structure ShowsList (s : Store) (id : ObjectId) (l : HoledList) : Prop where
  length : s.get id "length" = .ofNat l.length
  get : ∀ i < 4294967295, s.get id (toString i) = (l[i]?.join).getD .undefined
  hasOwn : ∀ i < 4294967295, s.hasOwnProperty id (toString i) = (l[i]?.join).isSome
  keys : ∀ hidden, ((s.ownKeys id hidden).map Prod.fst).filter
    (fun key => (Number.arrayIndex? key).isSome) = l.filledIndices.map toString

variable {s : Store} {id : ObjectId} {l : HoledList} {i : Nat} {value : Value}

theorem ownProperty?_of_uncovered {r : ObjectRecord} (hr : s.object? id = some r)
    (h : r.Uncovered) (key : String) : s.ownProperty? id key = r.ownProperty? none key := by
  rw [ownProperty?_of_object? hr, sharedValue?, h.unshared, Option.bind_none]

/-- What an object has of its own depends on its record, and on the scopes in which its properties
may be shared. -/
theorem ownProperty?_congr {s' : Store} {holder : ObjectId}
    (hobject : s'.object? holder = s.object? holder) (hscopes : s'.scopes = s.scopes)
    (key : String) :
    s'.ownProperty? holder key = s.ownProperty? holder key := by
  have hlookup (scope : ScopeId) (name : String) :
      s'.lookup? scope name = s.lookup? scope name :=
    lookup?_congr (resolve?_congr fun place _ => by rw [scope?, scope?, hscopes])
  unfold ownProperty?
  rw [hobject]
  simp only [sharedValue?, hlookup]

namespace HoldsList

theorem ownProperty?_length (h : s.HoldsList id l) :
    s.ownProperty? id "length" = some ⟨.ofNat l.length, true, false, false⟩ := by
  obtain ⟨r, hr, hholds⟩ := h.record
  rw [ownProperty?_of_uncovered hr hholds.toUncovered, hholds.ownProperty?_length]

theorem ownProperty?_index (h : s.HoldsList id l) (hi : i < 4294967295) :
    s.ownProperty? id (toString i) = (l[i]?.join).map .plain := by
  obtain ⟨r, hr, hholds⟩ := h.record
  rw [ownProperty?_of_uncovered hr hholds.toUncovered, hholds.ownProperty?_index hi]

theorem get_index (h : s.HoldsList id l) (hi : i < 4294967295) :
    s.get id (toString i) = (l[i]?.join).getD .undefined := by
  obtain ⟨ids, hids, hbarren⟩ := h.barren
  have hrest : ids.findSome? (s.ownProperty? · (toString i)) = none :=
    List.findSome?_eq_none_iff.mpr fun holder hholder => hbarren holder hholder i hi
  rw [get, property?, propertyAmong?, hids.chain_eq, List.findSome?_cons, h.ownProperty?_index hi]
  cases l[i]?.join with
  | none => rw [Option.map_none, hrest]; rfl
  | some v => rfl

theorem showsList (h : s.HoldsList id l) (hlength : l.length ≤ 4294967295) :
    s.ShowsList id l where
  length := get_of_ownProperty? h.ownProperty?_length
  get i hi := h.get_index hi
  hasOwn i hi := by rw [hasOwnProperty, h.ownProperty?_index hi, Option.isSome_map]
  keys hidden := by
    obtain ⟨r, hr, hholds⟩ := h.record
    have hkeys : s.ownKeys id hidden = r.ownKeys hidden := by
      rw [ownKeys, hr]
      rfl
    rw [hkeys, hholds.indices_ownKeys hlength]

/-! ### What changes it -/

theorem with_elements (h : s.HoldsList id l) (l' : HoledList) {f : ObjectRecord → ObjectRecord}
    (hf : ∀ r, s.object? id = some r → r.Holds l → f r = { r with elements := some l'.toArray }) :
    (s.modifyObject id f).HoldsList id l' := by
  obtain ⟨r, hr, hholds⟩ := h.record
  obtain ⟨ids, hids, hbarren⟩ := h.barren
  refine ⟨⟨f r, ?_, ?_⟩, ids, ?_, fun holder hholder i hi => ?_⟩
  · rw [object?_modifyObject, if_pos rfl, hr]
    rfl
  · rw [hf r hr hholds]
    exact hholds.with_elements l'
  · refine hids.of_links fun other _ record hrecord => ?_
    rw [object?_modifyObject]
    split
    · next heq =>
      subst heq
      cases hr.symm.trans hrecord
      exact ⟨f r, by rw [hr]; rfl, by rw [hf r hr hholds]⟩
    · exact ⟨record, hrecord, rfl⟩
  · have hne : holder ≠ id := fun heq => (List.nodup_cons.mp hids.nodup).1 (heq ▸ hholder)
    have hobject : (s.modifyObject id f).object? holder = s.object? holder := by
      rw [object?_modifyObject, if_neg hne]
    exact (ownProperty?_congr hobject rfl _).trans (hbarren holder hholder i hi)

theorem allocate (h : s.HoldsList id l) (record : ObjectRecord) :
    (s.allocate record).2.HoldsList id l := by
  obtain ⟨r, hr, hholds⟩ := h.record
  obtain ⟨ids, hids, hbarren⟩ := h.barren
  have hkept (other : ObjectId) (hother : other ∈ id :: ids) :
      (s.allocate record).2.object? other = s.object? other := by
    rw [object?_allocate, if_neg (Nat.ne_of_lt (hids.lt_size other hother))]
  refine ⟨⟨r, (hkept id List.mem_cons_self).trans hr, hholds⟩, ids, ?_,
    fun holder hholder i hi => ?_⟩
  · exact hids.of_links fun other hother record hrecord =>
      ⟨record, (hkept other hother).trans hrecord, rfl⟩
  · have hobject := hkept holder (List.mem_cons_of_mem _ hholder)
    exact (ownProperty?_congr hobject rfl _).trans (hbarren holder hholder i hi)

theorem set_index (h : s.HoldsList id l) (hi : i < 4294967295) (value : Value) :
    (s.set id (toString i) value).1 = true ∧
      (s.set id (toString i) value).2.HoldsList id (l.write i value) := by
  obtain ⟨r, hr, hholds⟩ := h.record
  obtain ⟨inherited, hfst, hsnd⟩ := set_eq hr (toString i) value
  obtain ⟨hassignment, hassign⟩ := hholds.assign_index hi inherited value
  rw [hassignment, assignShared_of_unshared (hholds.unshared _)] at hsnd
  rw [hfst, hassignment, hsnd]
  refine ⟨rfl, h.with_elements _ fun r' hr' _ => ?_⟩
  cases hr.symm.trans hr'
  exact hassign

theorem set_length (h : s.HoldsList id l) {n : Nat}
    (hn : ObjectRecord.arrayLength? value = some n) :
    (s.set id "length" value).1 = true ∧
      (s.set id "length" value).2.HoldsList id (l.resize n) := by
  obtain ⟨r, hr, hholds⟩ := h.record
  obtain ⟨inherited, hfst, hsnd⟩ := set_eq hr "length" value
  have hassign := hholds.assign_length inherited value
  rw [hn] at hassign
  rw [hassign.1, assignShared_of_unshared (hholds.unshared _)] at hsnd
  rw [hfst, hassign.1, hsnd]
  refine ⟨rfl, h.with_elements _ fun r' hr' _ => ?_⟩
  cases hr.symm.trans hr'
  exact hassign.2

theorem set_length_of_none (h : s.HoldsList id l)
    (hn : ObjectRecord.arrayLength? value = none) : s.set id "length" value = (false, s) := by
  obtain ⟨r, hr, hholds⟩ := h.record
  obtain ⟨inherited, hfst, hsnd⟩ := set_eq hr "length" value
  have hassign := hholds.assign_length inherited value
  rw [hn] at hassign
  rw [hassign] at hfst hsnd
  rw [assignShared_of_unshared (hholds.unshared _)] at hsnd
  exact Prod.ext hfst (hsnd.trans (s.modifyObject_same id))

theorem delete_index (h : s.HoldsList id l) (hi : i < 4294967295) :
    (s.delete id (toString i)).1 = true ∧
      (s.delete id (toString i)).2.HoldsList id (l.set i none) := by
  obtain ⟨r, hr, hholds⟩ := h.record
  obtain ⟨hmay, hdelete⟩ := hholds.delete_index hi
  have heq : s.delete id (toString i) =
      (true, s.modifyObject id fun r => r.delete (toString i)) := by
    unfold Store.delete
    rw [hr]
    exact if_pos hmay
  rw [heq]
  refine ⟨rfl, h.with_elements _ fun r' hr' _ => ?_⟩
  cases hr.symm.trans hr'
  exact hdelete

end HoldsList

end Store

namespace HoledList

variable {l : HoledList}

theorem write_length (l : HoledList) (value : Value) :
    l.write l.length value = l ++ [some value] := by
  rw [write, extend, Nat.add_sub_cancel_left, List.replicate_one,
    List.set_append_right _ _ (Nat.le_refl _), Nat.sub_self]
  rfl

theorem resize_length (l : HoledList) : l.resize l.length = l := by
  rw [resize, extend, Nat.sub_self]
  simp

theorem resize_set_last (l : HoledList) :
    HoledList.resize (l.set (l.length - 1) none) (l.length - 1) = l.dropLast := by
  have hsame : HoledList.extend (l.set (l.length - 1) none) (l.length - 1) =
      l.set (l.length - 1) none := by
    rw [extend, List.length_set, Nat.sub_eq_zero_of_le (Nat.sub_le ..)]
    exact List.append_nil _
  rw [resize, hsame, List.take_set_of_le (Nat.le_refl _), List.dropLast_eq_take]

end HoledList

namespace ArrayOperation

open Eval Engine

variable {m : Machine} {id : ObjectId} {l : HoledList} {i n : Nat} {value : Value}

/-! ### Carrying the operations out -/

/-- The values that are lengths are the numbers of the integers from zero to the greatest length. -/
theorem arrayLength?_eq_some_iff : ObjectRecord.arrayLength? value = some n ↔
    ∃ x, value = .number x ∧ Number.integer? x = some (n : Int) ∧ n ≤ 4294967295 := by
  cases value with
  | number x =>
    change (Number.integer? x).bind _ = _ ↔ _
    simp only [Option.bind_eq_some_iff, Value.number.injEq, exists_eq_left']
    constructor
    · rintro ⟨k, hk, hn⟩
      split at hn
      · cases hn
        exact ⟨hk.trans (congrArg some (by omega)), by omega⟩
      · cases hn
    · rintro ⟨hk, hn⟩
      exact ⟨n, hk, by rw [if_pos (by omega), Int.toNat_natCast]⟩
  | _ => simp [ObjectRecord.arrayLength?]

theorem arrayLength?_ofNat (h : n ≤ 4294967295) :
    ObjectRecord.arrayLength? (.ofNat n) = some n :=
  arrayLength?_eq_some_iff.mpr ⟨_, rfl, Number.integer?_ofNat (by omega), h⟩

theorem setMember_of_stored {key : String} (h : (m.store.set id key value).1 = true)
    (strict : Bool) : setMember (.object id) key value strict m =
      .ok () { m with store := (m.store.set id key value).2 } := by
  have hset : updateGet (fun s => s.set id key value) m =
      .ok true { m with store := (m.store.set id key value).2 } := by
    rw [← h]
    rfl
  exact bind_of_ok hset _

theorem setMember_index (h : m.store.HoldsList id l) (hi : i < 4294967295) (value : Value)
    (strict : Bool) : ∃ m', setMember (.object id) (toString i) value strict m = .ok () m' ∧
      m'.store.HoldsList id (l.write i value) :=
  ⟨_, setMember_of_stored (h.set_index hi value).1 strict, (h.set_index hi value).2⟩

theorem setMember_length (h : m.store.HoldsList id l)
    (hn : ObjectRecord.arrayLength? value = some n) (strict : Bool) :
    ∃ m', setMember (.object id) "length" value strict m = .ok () m' ∧
      m'.store.HoldsList id (l.resize n) :=
  ⟨_, setMember_of_stored (h.set_length hn).1 strict, (h.set_length hn).2⟩

/-- An assignment of a length that is none does nothing, or throws in strict code. -/
theorem setMember_length_of_none (h : m.store.HoldsList id l)
    (hn : ObjectRecord.arrayLength? value = none) :
    setMember (.object id) "length" value false m = .ok () m ∧
    ∃ error m', setMember (.object id) "length" value true m =
      .error (.abrupt (.thrown error)) m' ∧ m'.store.HoldsList id l := by
  have hset : updateGet (fun s => s.set id "length" value) m = .ok false m := by
    have hrun : updateGet (fun s => s.set id "length" value) m =
        .ok (m.store.set id "length" value).1
          { m with store := (m.store.set id "length" value).2 } := rfl
    rw [hrun, h.set_length_of_none hn]
  refine ⟨bind_of_ok hset _, _, _, bind_of_ok hset _, h.allocate _⟩

theorem getMember_index (h : m.store.HoldsList id l) (hi : i < 4294967295) :
    getMember (.object id) (toString i) m = .ok ((l[i]?.join).getD .undefined) m := by
  rw [← h.get_index hi]
  rfl

/-- A length that is no more than an array can have is read back from its number. -/
theorem toIntegerOrInfinity_ofNat {n : Nat} (hpos : 0 < n) (hlt : n < 4294967296) :
    Number.toIntegerOrInfinity (Number.ofNat n) = Number.ofNat n ∧ ¬ Number.ofNat n ≤ 0 ∧
      Number.ofNat n < maxLength ∧ Number.toIndex (Number.ofNat n) = n := by
  have hn : Number.value? (Number.ofNat n) = some (n : ℚ) := Number.value?_ofNat (by omega)
  have hzero : Number.value? 0 = some 0 := Number.value?_zero
  have hmax : Number.value? maxLength = some 9007199254740991 := by
    have hread : Number.Binary64.ofFloat maxLength = .finite false 9007199254740991 0 := by
      decide +kernel
    rw [Number.value?, hread, Number.Binary64.value?]
    norm_num
  have hne : (n : ℚ) ≠ 0 := by exact_mod_cast hpos.ne'
  refine ⟨?_, ?_, ?_, ?_⟩
  · have hbeq : (Number.ofNat n == 0) = false :=
      Bool.eq_false_iff.mpr (mt (Number.beq_iff_value hn hzero).mp hne)
    have htruncate := Number.value?_truncate hn
    rw [show (n : ℚ) = (n : ℤ) by rfl, Number.wholePart_intCast] at htruncate
    rw [Number.toIntegerOrInfinity, Number.isNaN_of_value? hn, hbeq]
    exact Number.eq_of_value? htruncate hn hne
  · rw [Number.le_iff_value hn hzero, not_le]
    exact_mod_cast hpos
  · rw [Number.lt_iff_value hn hmax]
    exact_mod_cast hlt.trans (by decide)
  · rw [Number.toIndex_eq hn, Nat.floor_natCast, Number.maxIndex]
    omega

theorem lengthOf_eq (e : Engine) (h : m.store.HoldsList id l) (hlength : l.length < 4294967296) :
    e.lengthOf (.object id) m = .ok l.length m := by
  have hread : m.store.get id "length" = .ofNat l.length :=
    Store.get_of_ownProperty? h.ownProperty?_length
  have hget : getMember (.object id) "length" m = .ok (.ofNat l.length) m := by
    rw [← hread]
    rfl
  have hnumber : e.toNumber (.ofNat l.length) m = .ok (Number.ofNat l.length) m := rfl
  unfold lengthOf
  rw [bind_of_ok hget, bind_of_ok hnumber]
  rcases Nat.eq_zero_or_pos l.length with hzero | hpos
  · have hinteger : Number.toIntegerOrInfinity (Number.ofNat 0) = 0 := by with_unfolding_all rfl
    rw [hzero, hinteger]
    rfl
  · obtain ⟨heq, hle, hlt, hindex⟩ := toIntegerOrInfinity_ofNat hpos hlength
    rw [heq, if_neg hle, if_pos hlt, hindex]
    rfl

theorem pushAll_eq (h : m.store.HoldsList id l) (values : List Value)
    (hlength : l.length + values.length < 4294967295) :
    ∃ m', pushAll (.object id) l.length values m = .ok (l.length + values.length) m' ∧
      m'.store.HoldsList id (l ++ values.map some) := by
  induction values generalizing l m with
  | nil =>
    refine ⟨m, rfl, ?_⟩
    rwa [List.map_nil, List.append_nil]
  | cons value rest ih =>
    rw [List.length_cons] at hlength ⊢
    have hlast : l.length < 4294967295 := by omega
    obtain ⟨m₁, hset, hholds⟩ := setMember_index h hlast value true
    rw [HoledList.write_length] at hholds
    obtain ⟨m₂, hrest, hholds'⟩ := ih hholds (by rw [List.length_append]; simp; omega)
    refine ⟨m₂, ?_, ?_⟩
    · rw [pushAll, bind_of_ok hset]
      rw [List.length_append, List.length_singleton] at hrest
      rw [hrest]
      congr 1
      omega
    · rwa [List.append_assoc] at hholds'

theorem push_eq (e : Engine) (h : m.store.HoldsList id l) (values : List Value)
    (hlength : l.length + values.length < 4294967295) :
    ∃ m', e.push (.object id) values m = .ok (.ofNat (l.length + values.length)) m' ∧
      m'.store.HoldsList id (l ++ values.map some) := by
  have hobject : toObject (.object id) m = .ok (.object id) m := rfl
  obtain ⟨m₁, hpush, hholds⟩ := pushAll_eq h values hlength
  have hnumber : ObjectRecord.arrayLength? (.ofNat (l.length + values.length)) =
      some (l ++ values.map some).length := by
    rw [arrayLength?_ofNat (by omega), List.length_append, List.length_map]
  obtain ⟨m₂, hset, hholds'⟩ := setMember_length hholds hnumber true
  rw [HoledList.resize_length] at hholds'
  refine ⟨m₂, ?_, hholds'⟩
  rw [Engine.push, bind_of_ok hobject, bind_of_ok (lengthOf_eq e h (by omega)), bind_of_ok hpush,
    bind_of_ok hset]
  rfl

theorem pop_eq (e : Engine) (h : m.store.HoldsList id l) (hlength : l.length < 4294967295) :
    ∃ m', e.pop (.object id) m = .ok (l.getLast?.join.getD .undefined) m' ∧
      m'.store.HoldsList id l.dropLast := by
  have hobject : toObject (.object id) m = .ok (.object id) m := rfl
  have hlengthOf := lengthOf_eq e h (by omega)
  by_cases hempty : l.length = 0
  · obtain rfl : l = [] := List.length_eq_zero_iff.mp hempty
    obtain ⟨m₁, hset, hholds⟩ := setMember_length h (arrayLength?_ofNat (Nat.zero_le _)) true
    refine ⟨m₁, ?_, hholds⟩
    rw [Engine.pop, bind_of_ok hobject, bind_of_ok hlengthOf, if_pos hempty, bind_of_ok hset]
    rfl
  · have hlast : l.length - 1 < 4294967295 := by omega
    have hget := getMember_index h hlast
    obtain ⟨hdeleted, hholds⟩ := h.delete_index hlast
    obtain ⟨m₂, hset, hholds'⟩ := setMember_length
      (m := { m with store := (m.store.delete id (toString (l.length - 1))).2 }) hholds
      (arrayLength?_ofNat (Nat.le_of_lt hlast)) true
    rw [HoledList.resize_set_last] at hholds'
    refine ⟨m₂, ?_, hholds'⟩
    have hdelete : updateGet (fun s => s.delete id (toString (l.length - 1))) m =
        .ok true { m with store := (m.store.delete id (toString (l.length - 1))).2 } := by
      rw [← hdeleted]
      rfl
    rw [Engine.pop, bind_of_ok hobject, bind_of_ok hlengthOf, if_neg hempty]
    dsimp only
    rw [bind_of_ok hget, bind_of_ok hdelete, bind_of_ok hset, List.getLast?_eq_getElem?]
    rfl

/-- A length that no array can have is refused, in strict code with an error. -/
theorem attempt_setLength (e : Engine) (strict : Bool) (value : Value)
    (h : m.store.HoldsList id l) :
    ∃ outcome m', attempt ((setLength value).perform e id strict) m = .ok outcome m' ∧
      (setLength value).Answers l strict outcome ∧
        m'.store.HoldsList id ((setLength value).onList l) := by
  cases hn : ObjectRecord.arrayLength? value with
  | some n =>
    obtain ⟨m', hset, hholds⟩ := setMember_length h hn strict
    have hlist : (setLength value).onList l = l.resize n := by rw [onList, hn]
    refine ⟨_, m', attempt_of_ok (bind_of_ok hset _), .done fun _ ⟨other, heq, hnone⟩ => ?_, ?_⟩
    · cases heq
      cases hn.symm.trans hnone
    · rwa [hlist]
  | none =>
    obtain ⟨hsloppy, error, m', hstrict, hholds⟩ := setMember_length_of_none h hn
    have hlist : (setLength value).onList l = l := by rw [onList, hn]
    rw [hlist]
    cases strict with
    | false => exact ⟨_, m, attempt_of_ok (bind_of_ok hsloppy _), .done nofun, h⟩
    | true => exact ⟨_, m', attempt_of_abrupt (bind_of_error hstrict _),
        .refused error rfl ⟨value, rfl, hn⟩, hholds⟩

theorem attempt_perform (e : Engine) (strict : Bool) {op : ArrayOperation}
    (h : m.store.HoldsList id l) (hlength : l.length < 4294967295) (hfits : op.Fits l) :
    ∃ outcome m', attempt (op.perform e id strict) m = .ok outcome m' ∧
      op.Answers l strict outcome ∧ m'.store.HoldsList id (op.onList l) := by
  obtain ⟨hnext, hplace⟩ := hfits
  -- Only a length can be refused.
  have hdone (m' : Machine) (hop : ∀ value, op ≠ .setLength value)
      (hrun : op.perform e id strict m = .ok (op.result l) m')
      (hholds : m'.store.HoldsList id (op.onList l)) :
      ∃ outcome m', attempt (op.perform e id strict) m = .ok outcome m' ∧
        op.Answers l strict outcome ∧ m'.store.HoldsList id (op.onList l) :=
    ⟨_, m', attempt_of_ok hrun, .done fun _ ⟨value, heq, _⟩ => hop value heq, hholds⟩
  cases op with
  | push values =>
    rw [onList, List.length_append, List.length_map] at hnext
    obtain ⟨m', hrun, hholds⟩ := push_eq e h values hnext
    exact hdone _ nofun hrun hholds
  | pop =>
    obtain ⟨m', hrun, hholds⟩ := pop_eq e h hlength
    exact hdone _ nofun hrun hholds
  | write i value =>
    obtain ⟨m', hset, hholds⟩ := setMember_index h hplace value strict
    exact hdone _ nofun (bind_of_ok hset _) hholds
  | delete i =>
    obtain ⟨hdeleted, hholds⟩ := h.delete_index hplace
    have hdelete : updateGet (fun s => s.delete id (toString i)) m =
        .ok true { m with store := (m.store.delete id (toString i)).2 } := by
      rw [← hdeleted]
      rfl
    exact hdone { m with store := (m.store.delete id (toString i)).2 } nofun
      (bind_of_ok hdelete _) hholds
  | setLength value => exact attempt_setLength e strict value h

/-! ### One operation after the other -/

/-- All operations fit, each the list behind the ones in front of it. -/
def AllFit : List (ArrayOperation × Bool) → HoledList → Prop
  | [], _ => True
  | (op, _) :: ops, l => op.Fits l ∧ AllFit ops (op.onList l)

/-- Operations, in strict code or in sloppy code, answer on the array as on the list, and before and
after each the array looks like the list. -/
def Refine (e : Engine) (id : ObjectId) :
    List (ArrayOperation × Bool) → HoledList → Machine → Prop
  | [], l, m => m.store.ShowsList id l
  | (op, strict) :: ops, l, m => m.store.ShowsList id l ∧
    ∃ outcome m', attempt (op.perform e id strict) m = .ok outcome m' ∧
      op.Answers l strict outcome ∧ Refine e id ops (op.onList l) m'

theorem refine_of_holdsList (e : Engine) (h : m.store.HoldsList id l)
    (hlength : l.length < 4294967295) {ops : List (ArrayOperation × Bool)}
    (hops : AllFit ops l) : Refine e id ops l m := by
  induction ops generalizing l m with
  | nil => exact h.showsList (Nat.le_of_lt hlength)
  | cons step ops ih =>
    obtain ⟨op, strict⟩ := step
    obtain ⟨hfits, hrest⟩ := hops
    obtain ⟨outcome, m', hrun, hanswers, hholds⟩ := attempt_perform e strict h hlength hfits
    exact ⟨h.showsList (Nat.le_of_lt hlength), outcome, m', hrun, hanswers,
      ih hholds hfits.1 hrest⟩

end ArrayOperation

end ProtoScript
