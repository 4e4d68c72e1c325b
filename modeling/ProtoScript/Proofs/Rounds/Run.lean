import ProtoScript.Proofs.Integrity.Operations
import ProtoScript.Proofs.Keys.Snapshot
import ProtoScript.Proofs.Regime.Runs
import ProtoScript.Proofs.Regime.Scopes
import ProtoScript.Proofs.Tiers
/-!
# Loops round by round

A `for` loop goes through rounds.  In the scope of a round it carries out the update, unless it is
the first round, the test and the body; a body that lets the loop go on hands the names of the loop
over to the scope for the next round.
-/

namespace ProtoScript

/-!
### From one round of a loop to the next

The scope for the next round of a loop is new, stands where the loop stands, and takes over the
bindings that the loop's names have in the scope of the round before.
-/

section

variable {names : List String} {name : String} {m m' : Machine} {outer current next : ScopeId}

/-- Steps that each take over one name, if the origin has it, take over all of them. -/
theorem NameMap.find?_foldl_takeOver {origin target : NameMap Binding}
    {step : NameMap Binding → String → NameMap Binding}
    (hstep : ∀ m first, (step m first).find? name =
      if name = first then (origin.find? name).or (m.find? name) else m.find? name)
    (hname : name ∈ names) :
    (names.foldl step target).find? name = (origin.find? name).or (target.find? name) := by
  -- Taking over once more changes nothing.
  have hagain (rest : List String) (m : NameMap Binding)
      (hm : m.find? name = (origin.find? name).or (target.find? name)) :
      (rest.foldl step m).find? name = (origin.find? name).or (target.find? name) := by
    induction rest generalizing m with
    | nil => exact hm
    | cons first rest ih =>
      refine ih _ ?_
      rw [hstep, hm]
      cases origin.find? name <;> simp only [Option.none_or, Option.some_or, ite_self]
  induction names generalizing target with
  | nil => cases hname
  | cons first rest ih =>
    by_cases hfirst : name = first
    · exact hagain rest _ (by rw [hstep, if_pos hfirst])
    · have hsame : (step target first).find? name = target.find? name := by
        rw [hstep, if_neg hfirst]
      rw [← hsame] at hagain
      rw [List.foldl_cons, ih (List.mem_of_ne_of_mem hfirst hname) hagain, hsame]

namespace Store

/-! ### Copied bindings -/

theorem binding?_copyBindings {s : Store} {source target : ScopeId} {origin a : Scope}
    (horigin : s.scope? source = some origin) (ha : s.scope? target = some a)
    (hname : name ∈ names) : (s.copyBindings source target names).binding? target name =
      (origin.bindings.find? name).or (a.bindings.find? name) := by
  unfold copyBindings
  rw [horigin]
  dsimp only
  rw [binding?_modifyScope, if_pos rfl, ha]
  refine NameMap.find?_foldl_takeOver (fun m first => ?_) hname
  split
  · next b hb =>
    rw [NameMap.find?_insert]
    split
    · next heq => rw [heq, hb, Option.some_or]
    · rfl
  · next hb =>
    split
    · next heq => rw [heq, hb, Option.none_or]
    · rfl

theorem scope?_copyBindings_of_ne (s : Store) (source : ScopeId) {id target : ScopeId}
    (h : id ≠ target) (names : List String) :
    (s.copyBindings source target names).scope? id = s.scope? id := by
  unfold copyBindings
  split
  · rfl
  · rw [scope?_modifyScope, if_neg h]

theorem parent?_copyBindings (s : Store) (source target id : ScopeId) (names : List String) :
    (s.copyBindings source target names).parent? id = s.parent? id := by
  unfold copyBindings
  split
  · rfl
  · exact parent?_modifyScope s target id fun _ => rfl

/-! ### Handing over -/

/-- Between the stores, a scope has been made inside the outer one that has taken over the bindings
of the names from the current scope.  Nothing else has been done. -/
structure HandsOver (s : Store) (names : List String) (outer current next : ScopeId)
    (s' : Store) : Prop where
  place : next = ⟨s.scopes.size⟩
  size : s'.scopes.size = s.scopes.size + 1
  parent : s'.parent? next = some outer
  bindings : ∀ name ∈ names, s'.binding? next name = s.binding? current name
  others : ∀ id : ScopeId, id.index < s.scopes.size → s'.scope? id = s.scope? id
  objects : s'.objects = s.objects

theorem handsOver (s : Store) (names : List String) (outer : ScopeId)
    (hcurrent : current.index < s.scopes.size) :
    s.HandsOver names outer current ⟨s.scopes.size⟩
      ((s.newScope (some outer) .block).2.copyBindings current ⟨s.scopes.size⟩ names) := by
  obtain ⟨origin, horigin⟩ := scope?_eq_some_iff.mpr hcurrent
  have hbehind {id : ScopeId} (hid : id.index < s.scopes.size) :
      (s.newScope (some outer) .block).2.scope? id = s.scope? id := by
    rw [scope?_newScope, if_neg (Nat.ne_of_lt hid)]
  refine ⟨rfl, (size_copyBindings ..).trans (Array.size_push ..), ?_, fun name hname => ?_,
    fun id hid => ?_, objects_copyBindings ..⟩
  · rw [parent?_copyBindings, parent?_newScope, if_pos rfl]
  · have hlast : s.binding? current name = origin.bindings.find? name := by
      rw [binding?, horigin]
      rfl
    rw [hlast]
    exact (binding?_copyBindings ((hbehind hcurrent).trans horigin)
      (s.scope?_newScope_self _ _) hname).trans Option.or_none
  · rw [scope?_copyBindings_of_ne _ _ (fun heq => ?_), hbehind hid]
    rw [heq] at hid
    exact Nat.lt_irrefl _ hid

end Store

namespace Engine

/-- A loop that has names makes a new scope for each round, and hands them over. -/
theorem exists_roundScope (outer : ScopeId) (hnames : names ≠ [])
    (hcurrent : current.index < m.store.scopes.size) :
    ∃ next m', roundScope names outer current m = .ok next m' ∧
      m.store.HandsOver names outer current next m'.store := by
  have hsome : names.isEmpty = false := by
    cases names with
    | nil => exact absurd rfl hnames
    | cons first rest => rfl
  refine ⟨_, { m with store := _ }, ?_, m.store.handsOver names outer hcurrent⟩
  rw [roundScope, hsome]
  rfl

theorem handsOver_of_roundScope (hnames : names ≠ [])
    (hcurrent : current.index < m.store.scopes.size)
    (h : roundScope names outer current m = .ok next m') :
    m.store.HandsOver names outer current next m'.store := by
  obtain ⟨made, m₁, hround, hhands⟩ := exists_roundScope outer hnames hcurrent
  cases h.symm.trans hround
  exact hhands

end Engine

end

/-! ### Rounds -/

namespace Engine

open Eval

/-- An update, a test or a body that is carried out from a machine on. -/
structure Part where
  task : Task
  start : Machine

structure Round where
  /-- The scope of the round. -/
  scope : ScopeId
  /-- The machine when the body of the round before has ended, or the head is through. -/
  before : Machine
  /-- The machine when the scope has been made. -/
  made : Machine
  /-- What is carried out in the round, in order. -/
  parts : List Part

def Round.followed (round : Round) (parts : List Part) : Round :=
  { round with parts := round.parts ++ parts }

/-- The test or the update of a loop, if it has one. -/
def optionParts (x : Option Expr) (scope : ScopeId) (m : Machine) : List Part :=
  x.toList.map fun x => ⟨.evaluate x scope, m⟩

def bodyPart (body : Stmt) (scope : ScopeId) (m : Machine) : Part := ⟨.execute body scope [], m⟩

/-- The round that follows, when its update is about to be carried out. -/
def Round.next (update : Option Expr) (scope : ScopeId) (before made : Machine) : Round :=
  ⟨scope, before, made, optionParts update scope made⟩

/-- How a loop goes on from a machine in a round that has begun, with no more than a number of
further rounds, and how it ends.  The names are handed over from round to round, and `last` is the
value of the last body that ended normally. -/
inductive ForRun (e : Engine) (test update : Option Expr) (body : Stmt) (names : List String)
    (outer : ScopeId) (labels : List String) :
    Nat → Round → Value → Machine → List Round → EStateM.Result Stop Machine Value → Prop
  | stopped (round : Round) (last : Value) (m : Machine) :
    ForRun e test update body names outer labels 0 round last m [round] (.error .exhausted m)
  /-- The test cannot be evaluated. -/
  | untested {count : Nat} {round : Round} {last : Value} {m m₁ : Machine} {stop : Stop} :
    e.evaluateOption test round.scope m = .error stop m₁ →
    ForRun e test update body names outer labels (count + 1) round last m
      [round.followed (optionParts test round.scope m)] (.error stop m₁)
  | done {count : Nat} {round : Round} {last : Value} {go : Option Value} {m m₁ : Machine} :
    e.evaluateOption test round.scope m = .ok go m₁ → go.all Value.toBoolean = false →
    ForRun e test update body names outer labels (count + 1) round last m
      [round.followed (optionParts test round.scope m)] (.ok last m₁)
  | cutOff {count : Nat} {round : Round} {last : Value} {go : Option Value} {m m₁ m₂ : Machine} :
    e.evaluateOption test round.scope m = .ok go m₁ → go.all Value.toBoolean = true →
    e.execute body round.scope m₁ = .error .exhausted m₂ →
    ForRun e test update body names outer labels (count + 1) round last m
      [round.followed (optionParts test round.scope m ++ [bodyPart body round.scope m₁])]
      (.error .exhausted m₂)
  | left {count : Nat} {round : Round} {last value : Value} {go : Option Value}
      {m m₁ m₂ : Machine} {outcome : Except Abrupt Value} :
    e.evaluateOption test round.scope m = .ok go m₁ → go.all Value.toBoolean = true →
    attempt (e.execute body round.scope) m₁ = .ok outcome m₂ →
    AfterBody.Decides labels last outcome (.leave value) →
    ForRun e test update body names outer labels (count + 1) round last m
      [round.followed (optionParts test round.scope m ++ [bodyPart body round.scope m₁])]
      (.ok value m₂)
  | through {count : Nat} {round : Round} {last : Value} {c : Abrupt} {go : Option Value}
      {m m₁ m₂ : Machine} {outcome : Except Abrupt Value} :
    e.evaluateOption test round.scope m = .ok go m₁ → go.all Value.toBoolean = true →
    attempt (e.execute body round.scope) m₁ = .ok outcome m₂ →
    AfterBody.Decides labels last outcome (.pass c) →
    ForRun e test update body names outer labels (count + 1) round last m
      [round.followed (optionParts test round.scope m ++ [bodyPart body round.scope m₁])]
      (.error (.abrupt c) m₂)
  /-- The update cannot be evaluated. -/
  | stuck {count : Nat} {round : Round} {last last' : Value} {go : Option Value}
      {m m₁ m₂ m₃ m₄ : Machine} {outcome : Except Abrupt Value} {scope : ScopeId} {stop : Stop} :
    e.evaluateOption test round.scope m = .ok go m₁ → go.all Value.toBoolean = true →
    attempt (e.execute body round.scope) m₁ = .ok outcome m₂ →
    AfterBody.Decides labels last outcome (.next last') →
    roundScope names outer round.scope m₂ = .ok scope m₃ →
    e.evaluateOption update scope m₃ = .error stop m₄ →
    ForRun e test update body names outer labels (count + 1) round last m
      [round.followed (optionParts test round.scope m ++ [bodyPart body round.scope m₁]),
        .next update scope m₂ m₃] (.error stop m₄)
  | next {count : Nat} {round : Round} {last last' : Value} {go updated : Option Value}
      {m m₁ m₂ m₃ m₄ : Machine} {outcome : Except Abrupt Value} {scope : ScopeId}
      {rounds : List Round} {result : EStateM.Result Stop Machine Value} :
    e.evaluateOption test round.scope m = .ok go m₁ → go.all Value.toBoolean = true →
    attempt (e.execute body round.scope) m₁ = .ok outcome m₂ →
    AfterBody.Decides labels last outcome (.next last') →
    roundScope names outer round.scope m₂ = .ok scope m₃ →
    e.evaluateOption update scope m₃ = .ok updated m₄ →
    ForRun e test update body names outer labels count (.next update scope m₂ m₃) last' m₄ rounds
      result →
    ForRun e test update body names outer labels (count + 1) round last m
      (round.followed (optionParts test round.scope m ++ [bodyPart body round.scope m₁]) :: rounds)
      result

theorem roundScope_ok (names : List String) (outer current : ScopeId) (m : Machine) :
    ∃ scope m', roundScope names outer current m = .ok scope m' := by
  unfold roundScope
  split
  · exact ⟨_, _, rfl⟩
  · exact ⟨_, _, rfl⟩

theorem exists_forRun (e : Engine) (test update : Option Expr) (body : Stmt) (names : List String)
    (outer : ScopeId) (labels : List String) (count : Nat) (round : Round) (last : Value)
    (m : Machine) :
    ∃ rounds, ForRun e test update body names outer labels count round last m rounds
      (e.forLoop test update body names outer labels count round.scope last m) := by
  induction count generalizing round last m with
  | zero => exact ⟨_, .stopped round last m⟩
  | succ count ih =>
    rw [(e.loopsAlike body labels).forLoop]
    cases htest : e.evaluateOption test round.scope m with
    | error stop m₁ =>
      rw [bind_of_error htest]
      exact ⟨_, .untested htest⟩
    | ok go m₁ =>
      rw [bind_of_ok htest]
      cases hgo : go.all Value.toBoolean with
      | false => exact ⟨_, .done htest hgo⟩
      | true =>
        rw [if_pos rfl]
        rcases (e.loopsAlike body labels).turn round.scope last (fun last => do
            let scope ← roundScope names outer round.scope
            let _ ← e.evaluateOption update scope
            e.forLoop test update body names outer labels count scope last) m₁ with
          ⟨m₂, hcut, hturn⟩ | ⟨outcome, after, m₂, hends, hdecides, hturn⟩
        · rw [hturn]
          exact ⟨_, .cutOff htest hgo hcut⟩
        · rw [hturn]
          cases after with
          | leave value => exact ⟨_, .left htest hgo hends hdecides⟩
          | pass c => exact ⟨_, .through htest hgo hends hdecides⟩
          | next last' =>
            obtain ⟨scope, m₃, hround⟩ := roundScope_ok names outer round.scope m₂
            dsimp only
            rw [bind_of_ok hround]
            cases hupdate : e.evaluateOption update scope m₃ with
            | error stop m₄ =>
              rw [bind_of_error hupdate]
              exact ⟨_, .stuck htest hgo hends hdecides hround hupdate⟩
            | ok updated m₄ =>
              rw [bind_of_ok hupdate]
              obtain ⟨rounds, hrounds⟩ := ih (.next update scope m₂ m₃) last' m₄
              exact ⟨_, .next htest hgo hends hdecides hround hupdate hrounds⟩

theorem ForRun.exists_first {e : Engine} {test update : Option Expr} {body : Stmt}
    {names : List String} {outer : ScopeId} {labels : List String} {count : Nat} {round : Round}
    {last : Value} {m : Machine} {rounds : List Round} {result : EStateM.Result Stop Machine Value}
    (h : ForRun e test update body names outer labels count round last m rounds result) :
    ∃ parts rest, rounds = round.followed parts :: rest := by
  cases h with
  | stopped =>
    refine ⟨[], [], ?_⟩
    unfold Round.followed
    rw [List.append_nil]
  | _ => exact ⟨_, _, rfl⟩

end Engine

/-!
### Code that stands apart from a scope

Bindings of a scope change only through code inside the scope, or through parameters that are shared
there.  So as long as no function is called that was made inside a scope, code that stands elsewhere
leaves its bindings alone.
-/

namespace Store

variable {s s' s'' : Store} {place id : ScopeId}

structure Anchored (s : Store) : Prop where
  closures : ∀ d scope, s.HasClosure d scope → scope.index < s.scopes.size
  shared : ∀ scope name, s.Shares scope name → scope.index < s.scopes.size

/-- The scope is there, and only code inside it gets at its bindings: none of its parameters is
shared, and those that are shared in later scopes are bound there. -/
structure StandsApart (s : Store) (place : ScopeId) : Prop extends s.Anchored where
  there : place.index < s.scopes.size
  inner : place ≠ .global
  unshared : ∀ name, ¬ s.Shares place name
  bound : ∀ scope name, s.Shares scope name → place.index < scope.index →
    s.hasOwnBinding scope name = true

theorem Anchored.standsApart (h : s.Anchored) (hglobal : 0 < s.scopes.size)
    (hobjects : s'.objects = s.objects) (hsize : s.scopes.size < s'.scopes.size) :
    s'.StandsApart ⟨s.scopes.size⟩ := by
  have hshared {scope : ScopeId} {name : String} (hshares : s'.Shares scope name) :
      scope.index < s.scopes.size := h.shared scope name (hshares.of_objects hobjects)
  refine ⟨⟨fun d scope hclosure => ?_, fun scope name hshares =>
    Nat.lt_trans (hshared hshares) hsize⟩, hsize, ?_, fun name hshares =>
    Nat.lt_irrefl _ (hshared hshares), fun scope name hshares hlater =>
    absurd (hshared hshares) (Nat.lt_asymm hlater)⟩
  · unfold HasClosure object? at hclosure
    rw [hobjects] at hclosure
    exact Nat.lt_trans (h.closures d scope hclosure) hsize
  · intro heq
    exact Nat.ne_of_gt hglobal (congrArg ScopeId.index heq)

structure Onward (s s' : Store) : Prop where
  size : s.scopes.size ≤ s'.scopes.size
  parent : ∀ id : ScopeId, id.index < s.scopes.size → s'.parent? id = s.parent? id

theorem Onward.refl (s : Store) : s.Onward s := ⟨Nat.le_refl _, fun _ _ => rfl⟩

theorem Onward.trans (h : s.Onward s') (h' : s'.Onward s'') : s.Onward s'' :=
  ⟨Nat.le_trans h.size h'.size, fun id hid =>
    (h'.parent id (Nat.lt_of_lt_of_le hid h.size)).trans (h.parent id hid)⟩

theorem inside_iff {around : ScopeId} :
    s.Inside id around ↔ around.index < id.index ∧ s.parent? id = some around :=
  ⟨fun h => ⟨h.behind, h.parent?_eq⟩, fun h => ⟨h.1, Option.bind_eq_some_iff.mp h.2⟩⟩

theorem Onward.within (h : s.Onward s') (hid : id.index < s.scopes.size)
    (hwithin : s'.Within place id) : s.Within place id := by
  induction hwithin with
  | here => exact .here
  | inside hinside _ ih =>
    obtain ⟨hbehind, hparent⟩ := inside_iff.mp hinside
    rw [h.parent _ hid] at hparent
    exact .inside (inside_iff.mpr ⟨hbehind, hparent⟩) (ih (Nat.lt_trans hbehind hid))

theorem onward_perform (s : Store) (op : StoreOperation) : s.Onward (s.perform op) :=
  ⟨s.size_le_perform op, fun _ hid => s.parent?_perform op hid⟩

theorem hasOwnBinding_shareArguments (hid : id.index < s.scopes.size) {values : List Value}
    {callee : Value} {names : List String} {name : String} (hname : name ∈ names) :
    (s.shareArguments id values callee names).hasOwnBinding id name = true := by
  refine hasOwnBinding_declareAll _ ?_ names .variable hname
  exact Nat.lt_of_lt_of_eq hid
    ((size_modifyScope ..).trans (size_modifyScope ..)).symm

end Store

namespace Rounds

open Store

variable {host : Host} {m : Machine} {s : Store} {place : ScopeId} {closed : Prop}

/-- If the scope is closed, code stands apart from it and leaves its bindings as they are. -/
def regime (place : ScopeId) (closed : Prop) : Regime where
  inv s := s.StandsApart place
  keeps s s' := s.Onward s' ∧ (closed → ∀ name, s'.binding? place name = s.binding? place name)
  stands s id := id.index < s.scopes.size ∧ (closed → ¬ s.Within place id)
  takes _ _ := True
  guards _ := False
  programs := True
  scopes := place.index + 1

theorem standsApart_perform {op : StoreOperation} (hs : s.StandsApart place)
    (hop : (regime place closed).Permits s op) : (s.perform op).StandsApart place := by
  have hsize := s.size_le_perform op
  -- What comes to be shared is bound where it is shared.
  have hshared (scope : ScopeId) (name : String) (h : (s.perform op).Shares scope name) :
      s.Shares scope name ∨ scope.index < s.scopes.size ∧ place.index < scope.index ∧
        (s.perform op).hasOwnBinding scope name = true := by
    obtain hbefore | ⟨r, key, rfl, hkey⟩ | ⟨values, callee, names, rfl, hname⟩ := shares_perform h
    · exact .inl hbefore
    · rw [hop.1] at hkey
      cases hkey
    · exact .inr ⟨hop.1.1, hop.2, hasOwnBinding_shareArguments hop.1.1 hname⟩
  refine ⟨⟨fun d scope hclosure => ?_, fun scope name h => ?_⟩,
    Nat.lt_of_lt_of_le hs.there hsize, hs.inner, fun name h => ?_, fun scope name h hlater => ?_⟩
  · refine Nat.lt_of_lt_of_le ?_ hsize
    obtain hbefore | ⟨r, rfl, hr⟩ := hasClosure_perform hclosure
    · exact hs.closures d scope hbefore
    · exact (hop.2.1 d scope hr).1
  · exact Nat.lt_of_lt_of_le ((hshared scope name h).elim (hs.shared scope name) And.left) hsize
  · exact (hshared place name h).elim (hs.unshared name) fun hnew => Nat.lt_irrefl _ hnew.2.1
  · exact (hshared scope name h).elim
      (fun hbefore => s.hasOwnBinding_perform op (hs.bound scope name hbefore hlater))
      fun hnew => hnew.2.2

/-- Nothing that is permitted while the scope is closed changes its bindings. -/
theorem binding?_perform {op : StoreOperation} (hs : s.StandsApart place) (hclosed : closed)
    (hop : (regime place closed).Permits s op) (name : String) :
    (s.perform op).binding? place name = s.binding? place name := by
  obtain ⟨other, f, hchanges, -, hscopes⟩ := s.exists_scope?_perform op
  -- Code that may run does not find anything in the scope.
  have hout {scope : ScopeId} (hscope : (regime place closed).stands s scope)
      (hwithin : s.Within place scope) : False := hscope.2 hclosed hwithin
  have hafter := hscopes place hs.there
  unfold binding?
  by_cases hplace : place = other
  · subst hplace
    rw [if_pos rfl] at hafter
    rw [hafter]
    cases hchanges with
    | none hbindings =>
      cases s.scope? place with
      | none => rfl
      | some a => exact congrArg (NameMap.find? · name) (hbindings a)
    | @shared _ _ scope _ shared _ _ _ hshares hresolved =>
      -- The parameter is shared further out, or bound further in.
      rcases Nat.lt_or_ge place.index scope.index with hlater | hbefore
      · obtain ⟨b, hb⟩ := hasOwnBinding_iff.mp (hs.bound scope shared hshares hlater)
        cases (resolve?_of_binding? hb).symm.trans hresolved
        exact absurd hlater (Nat.lt_irrefl _)
      · have heq : place = scope :=
          congrArg ScopeId.mk (Nat.le_antisymm (within_of_resolve? hresolved).le hbefore)
        exact absurd (heq ▸ hshares) (hs.unshared shared)
    | assigned hresolved => exact (hout hop (within_of_resolve? hresolved)).elim
    | bound => exact (hout hop .here).elim
    | declared => exact (hout hop.1 .here).elim
    | copied => exact absurd hop (Nat.lt_irrefl _)
    | arguments => exact (hout hop.1 .here).elim
  · rw [if_neg hplace] at hafter
    rw [hafter]

theorem lawful_regime (place : ScopeId) (closed : Prop) : (regime place closed).Lawful where
  refl s := ⟨.refl s, fun _ _ => rfl⟩
  trans h h' := ⟨h.1.trans h'.1, fun hclosed name =>
    (h'.2 hclosed name).trans (h.2 hclosed name)⟩
  perform {s op} hs hop := ⟨standsApart_perform hs hop, s.onward_perform op,
    fun hclosed => binding?_perform hs hclosed hop⟩
  stays hkeeps hstands := ⟨Nat.lt_of_lt_of_le hstands.1 hkeeps.1.size,
    fun hclosed hwithin => hstands.2 hclosed (hkeeps.1.within hstands.1 hwithin)⟩
  global hs := by
    refine ⟨Nat.lt_of_le_of_lt (Nat.zero_le _) hs.there, fun _ hwithin => hs.inner ?_⟩
    exact congrArg ScopeId.mk (Nat.le_zero.mp hwithin.le)
  outward hstands hinside := ⟨Nat.lt_trans hinside.behind hstands.1,
    fun hclosed hwithin => hstands.2 hclosed (.inside hinside hwithin)⟩
  opens {s parent} hs hstands kind := by
    have honward := s.onward_perform (.newScope parent kind)
    refine ⟨Nat.lt_of_lt_of_eq (Nat.lt_succ_self _) (Array.size_push ..).symm,
      fun hclosed hwithin => ?_⟩
    cases hwithin with
    | here => exact Nat.lt_irrefl _ hs.there
    | inside hinside hrest =>
      obtain ⟨-, hparent⟩ := inside_iff.mp hinside
      rw [parent?_newScope, if_pos rfl] at hparent
      cases hparent
      exact hstands.2 hclosed (honward.within hstands.1 hrest)
  scopes_le hs := hs.there
  stillTakes _ _ := trivial
  makes _ _ := trivial

/-- The task calls a function that was made inside the scope. -/
def CallsInto (place : ScopeId) (task : Task) (m : Machine) : Prop :=
  ∃ d scope function receiver arguments,
    task = .closure d scope function receiver arguments ∧ m.store.Within place scope

/-- Where no function is called that was made inside the scope, code stands apart from it. -/
theorem rules_regime (hhost : host.Courteous) {refuses : Task → Machine → Prop}
    (hrefuses : closed → ∀ task m, CallsInto place task m → refuses task m) :
    (regime place closed).Rules host refuses where
  lawful := lawful_regime place closed
  admits task m hm hasks hfree := by
    cases task with
    | native f receiver arguments =>
      unfold Regime.Admits
      split
      · trivial
      · exact fun _ _ => not_false
      · trivial
    | closure d scope function receiver arguments =>
      exact ⟨hm.closures d scope hasks, fun hclosed hwithin =>
        hfree (hrefuses hclosed _ m ⟨_, _, _, _, _, rfl, hwithin⟩)⟩
    | _ => exact hasks
  suits E hserves :=
    Regime.suits_of_courteous (lawful_regime place closed) hserves trivial hhost

theorem serves_open (hhost : host.Courteous) (place : ScopeId) (depth : Nat) :
    (regime place False).Serves ⟨engine host depth, engine host depth, rfl⟩ := by
  have hrules : (regime place False).Rules host fun _ _ => False :=
    rules_regime hhost fun hnever => hnever.elim
  have hserves := hrules.serves depth
  rw [Supervisor.run_refusing_eq (fun _ _ => not_false) host depth] at hserves
  exact hserves

/-- Code that stands apart from the scope, and calls no function that was made inside it, leaves its
bindings as they are. -/
theorem ends_apart (hhost : host.Courteous) {task : Task} {bound : Nat}
    (hm : m.store.StandsApart place) (hasks : (regime place True).Asks m.store task)
    (hfree : RunsFreely (CallsInto place) host bound task m) :
    Ends (fun _ m' => ∀ name, m'.store.binding? place name = m.store.binding? place name)
      (runTask host bound task m) := by
  have hrules : (regime place True).Rules host (CallsInto place) :=
    rules_regime hhost fun _ _ _ hcalls => hcalls
  exact (hrules.ends hm hasks hfree).mono fun _ _ hend => hend.2.2 trivial

end Rounds

end ProtoScript
