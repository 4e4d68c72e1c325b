import ProtoScript.Evaluation.Rules
import ProtoScript.Proofs.Keys.Enumeration
import ProtoScript.Proofs.Keys.Order
/-!
# Loops over keys go through a snapshot

A loop over an object takes the list of its keys before the first round and gives each key of the
list a turn.  The turn comes to nothing if the object has lost the key by then; otherwise the key is
bound and the body runs, and how the body completes decides whether there are more turns, as it
does in the other loops.  Whatever the rounds do to the object, no other key is ever bound and no
key twice.
-/

namespace ProtoScript

/-! ### The snapshot -/

def ObjectRecord.indexedKeys (r : ObjectRecord) : List (String × Bool) :=
  (r.listedIndices true).map fun entry => (toString entry.1, entry.2)

namespace Store

variable {s : Store} {id : ObjectId}

theorem firstEnumerable_congr {seen seen' : List String} (h : ∀ key, key ∈ seen ↔ key ∈ seen')
    (l : List (String × Bool)) : firstEnumerable seen l = firstEnumerable seen' l := by
  induction l generalizing seen seen' with
  | nil => rfl
  | cons entry rest ih =>
    obtain ⟨key, enumerable⟩ := entry
    have hnext : ∀ other, other ∈ key :: seen ↔ other ∈ key :: seen' := fun other => by
      rw [List.mem_cons, List.mem_cons, h]
    have hcontains : seen.contains key = seen'.contains key := by
      rw [Bool.eq_iff_iff, List.contains_iff_mem, List.contains_iff_mem, h]
    rw [firstEnumerable, firstEnumerable, hcontains, ih h, ih hnext]

theorem firstEnumerable_append (seen : List String) (l l' : List (String × Bool)) :
    firstEnumerable seen (l ++ l') =
      firstEnumerable seen l ++ firstEnumerable (l.map Prod.fst ++ seen) l' := by
  induction l generalizing seen with
  | nil => rfl
  | cons entry rest ih =>
    obtain ⟨key, enumerable⟩ := entry
    rw [List.cons_append, firstEnumerable, firstEnumerable]
    by_cases hseen : seen.contains key = true
    · rw [if_pos hseen, if_pos hseen, ih]
      refine congrArg _ (firstEnumerable_congr (fun other => ?_) l')
      have hmem := List.contains_iff_mem.mp hseen
      simp only [List.mem_append, List.map_cons, List.mem_cons]
      grind
    · have hshift : firstEnumerable (rest.map Prod.fst ++ key :: seen) l' =
          firstEnumerable (((key, enumerable) :: rest).map Prod.fst ++ seen) l' :=
        firstEnumerable_congr (fun other => by simp; grind) l'
      rw [if_neg hseen, if_neg hseen, ih, hshift]
      cases enumerable <;> rfl

theorem firstEnumerable_sublist (seen : List String) (l : List (String × Bool)) :
    (firstEnumerable seen l).Sublist (l.map Prod.fst) := by
  induction l generalizing seen with
  | nil => exact .slnil
  | cons entry rest ih =>
    obtain ⟨key, enumerable⟩ := entry
    rw [firstEnumerable]
    split
    · exact (ih seen).cons key
    · cases enumerable with
      | true => exact (ih (key :: seen)).cons_cons key
      | false => exact (ih (key :: seen)).cons key

/-- The keys that a loop over an object goes through: the indices that are its own, its other own
keys and the keys that it inherits. -/
structure LoopKeys (s : Store) (id : ObjectId) (indices : List Nat)
    (named inherited : List String) : Prop where
  eq : s.enumerableKeys id = indices.map toString ++ named ++ inherited
  nodup : (s.enumerableKeys id).Nodup
  ascending : indices.Pairwise (· < ·)
  names : ∀ key ∈ named, Number.arrayIndex? key = none
  /-- The other own keys stand in the order of the slots. -/
  in_order : ∀ r, s.object? id = some r → named.Sublist r.slots.keys
  own : ∀ key, key ∈ indices.map toString ++ named ↔ s.listing? id key = some true
  beyond : ∀ key ∈ inherited, s.listing? id key = none ∧
    ∃ holder ∈ (s.chain (some id)).tail, s.listing? holder key = some true

theorem chain_of_object? {r : ObjectRecord} (h : s.object? id = some r) :
    s.chain (some id) = id :: (s.chain (some id)).tail := by
  have hsize : 0 < s.objects.size := by
    have hlt := (Array.getElem?_eq_some_iff.mp h).1
    omega
  obtain ⟨bound, hbound⟩ := Nat.exists_eq_succ_of_ne_zero (Nat.ne_of_gt hsize)
  rw [chain, hbound, chainFrom, h]
  rfl

theorem chain_of_no_object (h : s.object? id = none) : s.chain (some id) = [] := by
  unfold chain
  cases s.objects.size with
  | zero => rfl
  | succ bound => rw [chainFrom, h]

theorem listing?_of_no_object (h : s.object? id = none) (key : String) :
    s.listing? id key = none := by
  rw [listing?, ownKeys, h]
  rfl

def keysBeyond (s : Store) (id : ObjectId) : List (String × Bool) :=
  (s.chain (some id)).tail.flatMap fun holder => s.ownKeys holder true

section

variable {r : ObjectRecord}

theorem ownKeys_of_object? (hr : s.object? id = some r) :
    s.ownKeys id true = r.indexedKeys ++ r.namedKeys true := by
  rw [ownKeys, hr]
  rfl

/-- The own keys are listed as indices and names, and behind them what the prototypes have. -/
theorem enumerableKeys_of_object? (hr : s.object? id = some r) :
    s.enumerableKeys id = firstEnumerable [] r.indexedKeys ++
      firstEnumerable (r.indexedKeys.map Prod.fst) (r.namedKeys true) ++
      firstEnumerable ((s.ownKeys id true).map Prod.fst) (s.keysBeyond id) := by
  rw [enumerableKeys, chain_of_object? hr, List.flatMap_cons, firstEnumerable_append,
    ownKeys_of_object? hr, firstEnumerable_append, List.append_nil, List.append_nil]
  rfl

theorem exists_indices (r : ObjectRecord) : ∃ indices : List Nat,
    firstEnumerable [] r.indexedKeys = indices.map toString ∧ indices.Pairwise (· < ·) := by
  have hindices := firstEnumerable_sublist [] r.indexedKeys
  rw [ObjectRecord.indexedKeys, List.map_map] at hindices
  obtain ⟨entries, hentries, heq⟩ := List.sublist_map_iff.mp hindices
  refine ⟨entries.map Prod.fst, ?_,
    List.pairwise_map.mpr ((r.ascending_listedIndices true).sublist hentries)⟩
  rw [ObjectRecord.indexedKeys, heq, List.map_map]
  rfl

theorem mem_ownEnumerable_iff (hr : s.object? id = some r) (key : String) :
    key ∈ firstEnumerable [] r.indexedKeys ++
        firstEnumerable (r.indexedKeys.map Prod.fst) (r.namedKeys true) ↔
      s.listing? id key = some true := by
  have hall := mem_firstEnumerable_iff [] (s.ownKeys id true) key
  rw [← listing?, ownKeys_of_object? hr, firstEnumerable_append, List.append_nil] at hall
  simpa only [List.not_mem_nil, not_false_eq_true, true_and] using hall

/-- An inherited key is none of the object itself, and the first prototype that has it lists it. -/
theorem beyond_of_mem {key : String}
    (hkey : key ∈ firstEnumerable ((s.ownKeys id true).map Prod.fst) (s.keysBeyond id)) :
    s.listing? id key = none ∧
      ∃ holder ∈ (s.chain (some id)).tail, s.listing? holder key = some true := by
  obtain ⟨hnew, hlisted⟩ := (mem_firstEnumerable_iff _ _ key).mp hkey
  rw [keysBeyond, lookup_flatMap] at hlisted
  obtain ⟨before, holder, after, hholders, hfound, -⟩ := List.findSome?_eq_some_iff.mp hlisted
  refine ⟨Classical.not_not.mp (mt mem_map_fst_iff.mpr hnew), holder, ?_, hfound⟩
  rw [hholders]
  exact List.mem_append_right _ List.mem_cons_self

theorem loopKeys_of_no_object (hr : s.object? id = none) : s.LoopKeys id [] [] [] := by
  have hkeys : s.enumerableKeys id = [] := by
    rw [enumerableKeys, chain_of_no_object hr]
    rfl
  exact {
    eq := hkeys
    nodup := hkeys ▸ .nil
    ascending := .nil
    names := fun _ h => absurd h List.not_mem_nil
    in_order := fun r h => absurd (hr.symm.trans h) (Option.some_ne_none r).symm
    own := fun key => by simp [listing?_of_no_object hr]
    beyond := fun _ h => absurd h List.not_mem_nil }

end

theorem exists_loopKeys (s : Store) (id : ObjectId) :
    ∃ indices named inherited, s.LoopKeys id indices named inherited := by
  cases hr : s.object? id with
  | none => exact ⟨[], [], [], loopKeys_of_no_object hr⟩
  | some r =>
    obtain ⟨indices, hindices, hascending⟩ := exists_indices r
    have hkeys := enumerableKeys_of_object? hr
    have hown := mem_ownEnumerable_iff hr
    rw [hindices] at hkeys hown
    refine ⟨indices, _, _, hkeys, nodup_firstEnumerable _ _, hascending, fun key hkey => ?_,
      fun r' hr' => ?_, hown, fun key => beyond_of_mem⟩
    · obtain ⟨entry, hentry, rfl⟩ :=
        List.mem_map.mp ((firstEnumerable_sublist _ _).subset hkey)
      exact ObjectRecord.arrayIndex?_of_mem_namedKeys hentry
    · cases hr.symm.trans hr'
      exact (firstEnumerable_sublist _ _).trans r.sublist_namedKeys

end Store

/-! ### How a loop takes the completion of its body -/

/-- A jump with this label, or without one, is for the loop that has these labels. -/
def OwnJump (labels : List String) : Option String → Prop
  | none => True
  | some label => label ∈ labels

namespace AfterBody

/-- What a loop does after its body: the jumps that are its own let it go on or end it, all other
abrupt completions pass through it. -/
inductive Decides (labels : List String) (last : Value) : Except Abrupt Value → AfterBody → Prop
  | normal (value : Value) : Decides labels last (.ok value) (.next value)
  | continued {target : Option String} : OwnJump labels target →
    Decides labels last (.error (.continued target)) (.next last)
  | broke {target : Option String} : OwnJump labels target →
    Decides labels last (.error (.broke target)) (.leave last)
  | continuedOutside {target : Option String} : ¬ OwnJump labels target →
    Decides labels last (.error (.continued target)) (.pass (.continued target))
  | brokeOutside {target : Option String} : ¬ OwnJump labels target →
    Decides labels last (.error (.broke target)) (.pass (.broke target))
  | returned (value : Value) :
    Decides labels last (.error (.returned value)) (.pass (.returned value))
  | thrown (value : Value) : Decides labels last (.error (.thrown value)) (.pass (.thrown value))

variable {labels : List String} {last : Value} {outcome : Except Abrupt Value} {after : AfterBody}

theorem decides_of (labels : List String) (last : Value) (outcome : Except Abrupt Value) :
    Decides labels last outcome (AfterBody.of labels last outcome) := by
  match outcome with
  | .ok value => exact .normal value
  | .error (.continued none) => exact .continued trivial
  | .error (.broke none) => exact .broke trivial
  | .error (.returned value) => exact .returned value
  | .error (.thrown value) => exact .thrown value
  | .error (.continued (some label)) =>
    rw [AfterBody.of]
    split
    · next h => exact .continued (List.contains_iff_mem.mp h)
    · next h => exact .continuedOutside fun hmem => h (List.contains_iff_mem.mpr hmem)
  | .error (.broke (some label)) =>
    rw [AfterBody.of]
    split
    · next h => exact .broke (List.contains_iff_mem.mp h)
    · next h => exact .brokeOutside fun hmem => h (List.contains_iff_mem.mpr hmem)

end AfterBody

namespace Engine

open Eval

/-- The part of a round from the body on: the body runs, and how it completes decides what becomes
of the loop.  `again` is what the loop goes on with. -/
def turn (e : Engine) (body : Stmt) (scope : ScopeId) (labels : List String) (last : Value)
    (again : Value → Eval Value) : Eval Value := do
  match ← e.loopBody body scope labels last with
  | .next last => again last
  | .leave value => pure value
  | .pass c => complete c

/-- All loops take the completion of their bodies in one way. -/
structure LoopsAlike (e : Engine) (body : Stmt) (labels : List String) : Prop where
  whileLoop : ∀ test scope rounds last,
    e.whileLoop test body scope labels (rounds + 1) last = do
      let go ← e.evaluate test scope
      if go.toBoolean then
        e.turn body scope labels last fun last => e.whileLoop test body scope labels rounds last
      else pure last
  doWhileLoop : ∀ test scope rounds last,
    e.doWhileLoop body test scope labels (rounds + 1) last =
      e.turn body scope labels last fun last => do
        let go ← e.evaluate test scope
        if go.toBoolean then e.doWhileLoop body test scope labels rounds last else pure last
  forLoop : ∀ test update names outer rounds scope last,
    e.forLoop test update body names outer labels (rounds + 1) scope last = do
      let go ← e.evaluateOption test scope
      if go.all Value.toBoolean then
        e.turn body scope labels last fun last => do
          let scope ← roundScope names outer scope
          let _ ← e.evaluateOption update scope
          e.forLoop test update body names outer labels rounds scope last
      else pure last
  keyLoop : ∀ target id scope key keys last,
    e.keyLoop target id body scope labels (key :: keys) last = do
      if ← read fun s => s.hasProperty id key then
        let round ← e.bindKey target (.ofString key) scope
        e.turn body round labels last fun last => e.keyLoop target id body scope labels keys last
      else e.keyLoop target id body scope labels keys last
  /-- What a loop goes on with, unless the body is cut off. -/
  turn : ∀ scope last again m,
    (∃ m', e.execute body scope m = .error .exhausted m' ∧
      e.turn body scope labels last again m = .error .exhausted m') ∨
    ∃ outcome after m', attempt (e.execute body scope) m = .ok outcome m' ∧
      AfterBody.Decides labels last outcome after ∧
      e.turn body scope labels last again m =
        match after with
        | .next last => again last m'
        | .leave value => .ok value m'
        | .pass c => .error (.abrupt c) m'

theorem loopsAlike (e : Engine) (body : Stmt) (labels : List String) :
    e.LoopsAlike body labels where
  whileLoop _ _ _ _ := rfl
  doWhileLoop _ _ _ _ := rfl
  forLoop _ _ _ _ _ _ _ := rfl
  keyLoop _ _ _ _ _ _ := rfl
  turn scope last again m := by
    rcases attempt_cases (e.execute body scope) m with ⟨m', hcut⟩ | ⟨outcome, m', hends⟩
    · refine .inl ⟨m', hcut, bind_of_error (bind_of_error (attempt_of_exhausted hcut) _) _⟩
    · refine .inr ⟨outcome, AfterBody.of labels last outcome, m', hends,
        AfterBody.decides_of labels last outcome, ?_⟩
      have hbody : e.loopBody body scope labels last m =
          .ok (AfterBody.of labels last outcome) m' := bind_of_ok hends _
      rw [turn, bind_of_ok hbody]
      cases AfterBody.of labels last outcome <;> rfl

/-! ### The turns of the keys -/

structure KeyTurn where
  key : String
  /-- The store when the turn comes. -/
  store : Store
  /-- Whether the key is handed to the target, and is not passed over. -/
  visited : Bool

/-- How a loop over keys gives the keys that are left their turns, and how it ends.  The target is
bound in `scope`, and `last` is the value of the last body that ended normally. -/
inductive KeyRun (e : Engine) (target : ForInTarget) (id : ObjectId) (body : Stmt)
    (scope : ScopeId) (labels : List String) :
    List String → Value → Machine → List KeyTurn → EStateM.Result Stop Machine Value → Prop
  | done (last : Value) (m : Machine) :
    KeyRun e target id body scope labels [] last m [] (.ok last m)
  | passed {key : String} {keys : List String} {last : Value} {m : Machine}
      {turns : List KeyTurn} {result : EStateM.Result Stop Machine Value} :
    m.store.hasProperty id key = false →
    KeyRun e target id body scope labels keys last m turns result →
    KeyRun e target id body scope labels (key :: keys) last m (⟨key, m.store, false⟩ :: turns)
      result
  /-- The target cannot be bound to the key. -/
  | unbound {key : String} {last : Value} {m m' : Machine} {stop : Stop} (keys : List String) :
    m.store.hasProperty id key = true →
    e.bindKey target (.ofString key) scope m = .error stop m' →
    KeyRun e target id body scope labels (key :: keys) last m [⟨key, m.store, true⟩]
      (.error stop m')
  | cutOff {key : String} {last : Value} {round : ScopeId} {m m₁ m₂ : Machine}
      (keys : List String) :
    m.store.hasProperty id key = true →
    e.bindKey target (.ofString key) scope m = .ok round m₁ →
    e.execute body round m₁ = .error .exhausted m₂ →
    KeyRun e target id body scope labels (key :: keys) last m [⟨key, m.store, true⟩]
      (.error .exhausted m₂)
  | next {key : String} {keys : List String} {last last' : Value} {round : ScopeId}
      {m m₁ m₂ : Machine} {outcome : Except Abrupt Value} {turns : List KeyTurn}
      {result : EStateM.Result Stop Machine Value} :
    m.store.hasProperty id key = true →
    e.bindKey target (.ofString key) scope m = .ok round m₁ →
    attempt (e.execute body round) m₁ = .ok outcome m₂ →
    AfterBody.Decides labels last outcome (.next last') →
    KeyRun e target id body scope labels keys last' m₂ turns result →
    KeyRun e target id body scope labels (key :: keys) last m (⟨key, m.store, true⟩ :: turns)
      result
  | left {key : String} {last value : Value} {round : ScopeId} {m m₁ m₂ : Machine}
      {outcome : Except Abrupt Value} (keys : List String) :
    m.store.hasProperty id key = true →
    e.bindKey target (.ofString key) scope m = .ok round m₁ →
    attempt (e.execute body round) m₁ = .ok outcome m₂ →
    AfterBody.Decides labels last outcome (.leave value) →
    KeyRun e target id body scope labels (key :: keys) last m [⟨key, m.store, true⟩] (.ok value m₂)
  | through {key : String} {last : Value} {c : Abrupt} {round : ScopeId} {m m₁ m₂ : Machine}
      {outcome : Except Abrupt Value} (keys : List String) :
    m.store.hasProperty id key = true →
    e.bindKey target (.ofString key) scope m = .ok round m₁ →
    attempt (e.execute body round) m₁ = .ok outcome m₂ →
    AfterBody.Decides labels last outcome (.pass c) →
    KeyRun e target id body scope labels (key :: keys) last m [⟨key, m.store, true⟩]
      (.error (.abrupt c) m₂)

def visitedKeys (turns : List KeyTurn) : List String :=
  (turns.filter KeyTurn.visited).map KeyTurn.key

section

variable {e : Engine} {target : ForInTarget} {id : ObjectId} {body : Stmt} {scope : ScopeId}
  {labels : List String} {keys : List String} {last : Value} {m : Machine}
  {turns : List KeyTurn} {result : EStateM.Result Stop Machine Value}

theorem exists_keyRun (e : Engine) (target : ForInTarget) (id : ObjectId) (body : Stmt)
    (scope : ScopeId) (labels : List String) (keys : List String) (last : Value) (m : Machine) :
    ∃ turns, KeyRun e target id body scope labels keys last m turns
      (e.keyLoop target id body scope labels keys last m) := by
  induction keys generalizing last m with
  | nil => exact ⟨[], .done last m⟩
  | cons key keys ih =>
    rw [(e.loopsAlike body labels).keyLoop, bind_of_ok (rfl : Eval.read _ m = _)]
    cases hkey : m.store.hasProperty id key with
    | false =>
      obtain ⟨turns, hturns⟩ := ih last m
      exact ⟨_, .passed hkey hturns⟩
    | true =>
      rw [if_pos rfl]
      cases hbind : e.bindKey target (.ofString key) scope m with
      | error stop m₁ =>
        rw [bind_of_error hbind]
        exact ⟨_, .unbound keys hkey hbind⟩
      | ok round m₁ =>
        rw [bind_of_ok hbind]
        rcases (e.loopsAlike body labels).turn round last
            (e.keyLoop target id body scope labels keys) m₁ with
          ⟨m₂, hcut, hturn⟩ | ⟨outcome, after, m₂, hends, hdecides, hturn⟩
        · rw [hturn]
          exact ⟨_, .cutOff keys hkey hbind hcut⟩
        · rw [hturn]
          cases after with
          | next last' =>
            obtain ⟨turns, hturns⟩ := ih last' m₂
            exact ⟨_, .next hkey hbind hends hdecides hturns⟩
          | leave value => exact ⟨_, .left keys hkey hbind hends hdecides⟩
          | pass c => exact ⟨_, .through keys hkey hbind hends hdecides⟩

/-- Turns are taken in the order of the keys, and left out only at the end. -/
theorem KeyRun.prefix (h : KeyRun e target id body scope labels keys last m turns result) :
    turns.map KeyTurn.key <+: keys := by
  induction h with
  | done => exact List.nil_prefix
  | passed _ _ ih => exact List.prefix_cons_inj _ |>.mpr ih
  | next _ _ _ _ _ ih => exact List.prefix_cons_inj _ |>.mpr ih
  | unbound => exact List.prefix_cons_inj _ |>.mpr List.nil_prefix
  | cutOff => exact List.prefix_cons_inj _ |>.mpr List.nil_prefix
  | left => exact List.prefix_cons_inj _ |>.mpr List.nil_prefix
  | through => exact List.prefix_cons_inj _ |>.mpr List.nil_prefix

/-- A key is passed over just if the object does not have it at its turn. -/
theorem KeyRun.visited_eq (h : KeyRun e target id body scope labels keys last m turns result) :
    ∀ turn ∈ turns, turn.visited = turn.store.hasProperty id turn.key := by
  induction h with
  | done => exact nofun
  | passed hkey _ ih => exact List.forall_mem_cons.mpr ⟨hkey.symm, ih⟩
  | next hkey _ _ _ _ ih => exact List.forall_mem_cons.mpr ⟨hkey.symm, ih⟩
  | unbound _ hkey => exact List.forall_mem_singleton.mpr hkey.symm
  | cutOff _ hkey => exact List.forall_mem_singleton.mpr hkey.symm
  | left _ hkey => exact List.forall_mem_singleton.mpr hkey.symm
  | through _ hkey => exact List.forall_mem_singleton.mpr hkey.symm

theorem KeyRun.sublist (h : KeyRun e target id body scope labels keys last m turns result) :
    (visitedKeys turns).Sublist keys :=
  (List.filter_sublist.map KeyTurn.key).trans h.prefix.sublist

end

/-- What a loop over the keys of an object does from a store on: it takes its snapshot of the keys,
and gives them their turns in order. -/
structure GoesThrough (e : Engine) (target : ForInTarget) (id : ObjectId) (body : Stmt)
    (scope : ScopeId) (labels : List String) (m : Machine) (turns : List KeyTurn)
    (result : EStateM.Result Stop Machine Value) : Prop where
  run : KeyRun e target id body scope labels (m.store.enumerableKeys id) .undefined m turns result
  snapshot : ∃ indices named inherited, m.store.LoopKeys id indices named inherited
  in_order : turns.map KeyTurn.key <+: m.store.enumerableKeys id
  /-- A key is visited just if the object has it at its turn. -/
  visited : ∀ turn ∈ turns, turn.visited = turn.store.hasProperty id turn.key
  sublist : (visitedKeys turns).Sublist (m.store.enumerableKeys id)
  once : (visitedKeys turns).Nodup
  rounds : (visitedKeys turns).length ≤ (m.store.enumerableKeys id).length

theorem exists_goesThrough (e : Engine) (target : ForInTarget) (id : ObjectId) (body : Stmt)
    (scope : ScopeId) (labels : List String) (m : Machine) :
    ∃ turns, e.GoesThrough target id body scope labels m turns
      (e.keyLoop target id body scope labels (m.store.enumerableKeys id) .undefined m) := by
  obtain ⟨turns, hrun⟩ := exists_keyRun e target id body scope labels (m.store.enumerableKeys id)
    .undefined m
  exact ⟨turns,
    { run := hrun
      snapshot := m.store.exists_loopKeys id
      in_order := hrun.prefix
      visited := hrun.visited_eq
      sublist := hrun.sublist
      once := (Store.nodup_firstEnumerable _ _).sublist hrun.sublist
      rounds := hrun.sublist.length_le }⟩

theorem exists_toObject {subject : Value} (h : subject.isNullish = false) (m : Machine) :
    ∃ id m', toObject subject m = .ok (.object id) m' := by
  cases subject with
  | undefined => cases h
  | null => cases h
  | _ => exact ⟨_, _, rfl⟩

/-- A loop over the keys of a subject that is neither `undefined` nor `null`. -/
theorem forIn_goes_through (host : Host) (e : Engine) (target : ForInTarget) (object : Expr)
    (body : Stmt) (scope : ScopeId) (labels : List String) {m m₁ m₂ : Machine} {subject : Value}
    (hhead : e.headInitializer target scope m = .ok () m₁)
    (hsubject : e.evaluate object scope m₁ = .ok subject m₂)
    (hpresent : subject.isNullish = false) :
    (∃ id m₃ turns, toObject subject m₂ = .ok (.object id) m₃ ∧
      e.GoesThrough target id body scope labels m₃ turns
        (Engine.rule host e (.execute (.forInStmt target object body) scope labels) m)) ∧
    e.LoopsAlike body labels := by
  obtain ⟨id, m₃, hobject⟩ := exists_toObject hpresent m₂
  obtain ⟨turns, hturns⟩ := exists_goesThrough e target id body scope labels m₃
  refine ⟨⟨id, m₃, turns, hobject, ?_⟩, e.loopsAlike body labels⟩
  have hrun : Engine.rule host e (.execute (.forInStmt target object body) scope labels) m =
      e.keyLoop target id body scope labels (m₃.store.enumerableKeys id) .undefined m₃ := by
    change e.forInStatement target object body scope labels m = _
    rw [forInStatement, bind_of_ok hhead, bind_of_ok hsubject, hpresent]
    exact bind_of_ok hobject _
  rwa [hrun]

/-- A loop that deletes a key of its snapshot before the turn of that key comes. -/
theorem forIn_goes_through_deleting :
    let o : ObjectRecord := { slots := .ofList [("b", .plain .null), ("a", .plain .null),
      ("1", .plain .null)] }
    let names : NameMap Binding := ⟨[("o", ⟨.object ⟨0⟩, .variable, true⟩)]⟩
    let m : Machine := ⟨⟨#[⟨names, none, false, .global⟩], #[o]⟩, {}, none, 0, ""⟩
    let body : Stmt := .expression (.delete (.member (.identifier "o") (.dot "a")))
    m.store.enumerableKeys ⟨0⟩ = ["1", "b", "a"] ∧
      (∃ id m₃ turns, toObject (.object ⟨0⟩) m = .ok (.object id) m₃ ∧
        (engine .none 4).GoesThrough (.pattern (.identifier "k")) id body .global [] m₃ turns
          (Engine.rule .none (engine .none 4)
            (.execute (.forInStmt (.pattern (.identifier "k")) (.identifier "o") body) .global [])
            m)) ∧
      (engine .none 4).LoopsAlike body [] := by
  intro o names m body
  have hsubject : (engine .none 4).evaluate (.identifier "o") .global m =
      .ok (.object ⟨0⟩) m := by
    with_unfolding_all rfl
  exact ⟨by decide +kernel,
    forIn_goes_through .none (engine .none 4) (.pattern (.identifier "k")) (.identifier "o") body
      .global [] rfl hsubject rfl⟩

end Engine

end ProtoScript
