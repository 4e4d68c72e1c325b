import ProtoScript.Proofs.Rounds.Run
/-!
# Rounds keep apart

A `for` loop whose head declares names with `let` has a scope for each round.  The scope of a round
is not that of any other; it begins with the values that the names have when the body of the round
before has ended, and the update works on it.  After that no update, test or body of a later round
changes what the scope binds, unless it calls a function that was made inside the scope.
-/

namespace ProtoScript

open Engine

/-! ### What is to be shown of loops -/

/-- The part leaves the bindings of the scope alone, unless it calls a function that was made inside
the scope. -/
def Engine.Part.Spares (host : Host) (depth : Nat) (place : ScopeId) (part : Part) : Prop :=
  RunsFreely (Rounds.CallsInto place) host depth part.task part.start →
    Ends (fun _ m' => ∀ name,
        m'.store.binding? place name = part.start.store.binding? place name)
      (runTask host depth part.task part.start)

/-- The next round begins when the body has ended: its scope takes over the bindings of the names,
and then the update is carried out in it. -/
structure Engine.Round.Precedes (host : Host) (depth : Nat) (update : Option Expr) (body : Stmt)
    (names : List String) (outer : ScopeId) (a b : Round) : Prop where
  body_ended : ∃ start outcome, bodyPart body a.scope start ∈ a.parts.getLast? ∧
    Eval.attempt (runTask host depth (.execute body a.scope [])) start = .ok outcome b.before
  handover : b.before.store.HandsOver names outer a.scope b.scope b.made.store
  updated : optionParts update b.scope b.made <+: b.parts

structure Engine.RoundsApart (host : Host) (depth : Nat) (update : Option Expr) (body : Stmt)
    (names : List String) (outer : ScopeId) (rounds : List Round) : Prop where
  places : ∀ round ∈ rounds, ∀ part ∈ round.parts, part.task.place = round.scope
  distinct : rounds.Pairwise fun a b => a.scope.index < b.scope.index
  handovers : rounds.IsChain (Round.Precedes host depth update body names outer)
  spared : rounds.Pairwise fun a b => ∀ part ∈ b.parts, part.Spares host depth a.scope

/-- If the task is a loop whose head declares names with `let`, then once the head is through the
loop goes through rounds that keep apart.  The first round takes the names over from the head. -/
def Task.KeepsRoundsApart (host : Host) (task : Task) (m : Machine) : Prop :=
  match task with
  | .execute (.forStmt (some (.declaration d)) test update body) scope labels =>
    d.kind = .letBound → d.boundNames ≠ [] → ∀ depth head m₁ m₂ m₃,
      Eval.newScope scope .block m = .ok head m₁ → Eval.declareLexical d head m₁ = .ok () m₂ →
      (engine host depth).declaration d head m₂ = .ok () m₃ →
        ∃ first m₄ rounds, m₃.store.HandsOver d.boundNames scope head first m₄.store ∧
          ForRun (engine host depth) test update body d.boundNames scope labels depth
            ⟨first, m₃, m₄, []⟩ .undefined m₄ rounds
            (runTask host (depth + 1) (.execute (.forStmt (some (.declaration d)) test update body)
              scope labels) m) ∧
          RoundsApart host depth update body d.boundNames scope rounds
  | _ => True

namespace Rounds

open Integrity Store

variable {host : Host} {depth : Nat} {test update : Option Expr} {body : Stmt}
  {names labels : List String} {place scope next outer : ScopeId} {m m' : Machine} {s s' : Store}

/-! ### The scopes on the way -/

/-- A round is going on in a scope inside the outer one, while the scope of this or an earlier round
stands apart. -/
structure Going (s : Store) (place scope outer : ScopeId) : Prop where
  apart : s.StandsApart place
  there : scope.index < s.scopes.size
  parent : s.parent? scope = some outer
  behind : outer.index < place.index
  since : place.index ≤ scope.index

namespace Going

theorem stands (h : Going s place scope outer) : (regime place False).stands s scope :=
  ⟨h.there, fun hnever => hnever.elim⟩

theorem outer_stands (h : Going s place scope outer) : (regime place False).stands s outer :=
  ⟨Nat.lt_trans h.behind h.apart.there, fun hnever => hnever.elim⟩

theorem closed (h : Going s place scope outer) (hlater : place.index < scope.index) :
    (regime place True).stands s scope := by
  refine ⟨h.there, fun _ hwithin => ?_⟩
  cases hwithin with
  | here => exact Nat.lt_irrefl _ hlater
  | inside hinside hrest =>
    cases h.parent.symm.trans hinside.parent?_eq
    exact Nat.not_lt.mpr hrest.le h.behind

theorem of_ok {E : Engines} {F : Engine → Eval α} {post : α → Machine → Prop} {a : α}
    (h : Going m.store place scope outer) (hF : (regime place False).Abides E m F post)
    (hok : F E.right m = .ok a m') : Going m'.store place scope outer := by
  obtain ⟨hapart, ⟨honward, -⟩, -⟩ := hF.of_ok h.apart hok
  exact ⟨hapart, Nat.lt_of_lt_of_le h.there honward.size, (honward.parent _ h.there).trans h.parent,
    h.behind, h.since⟩

section

variable (hhost : host.Courteous) (h : Going m.store place scope outer)

include hhost h

theorem tested {go : Option Value}
    (htest : (engine host depth).evaluateOption test scope m = .ok go m') :
    Going m'.store place scope outer :=
  h.of_ok (Regime.abides_evaluateOption (lawful_regime place False) (serves_open hhost place depth)
    test h.stands) htest

theorem ran {outcome : Except Abrupt Value}
    (hbody : Eval.attempt ((engine host depth).execute body scope) m = .ok outcome m') :
    Going m'.store place scope outer :=
  h.of_ok (F := fun e => Eval.attempt (e.execute body scope)) (Regime.abides_execute
    (serves_open hhost place depth) body [] h.stands).attempt hbody

theorem spares (hlater : place.index < scope.index) (task : Task)
    (hasks : (regime place True).stands m.store scope → (regime place True).Asks m.store task) :
    Part.Spares host depth place ⟨task, m⟩ :=
  ends_apart hhost h.apart (hasks (h.closed hlater))

theorem spares_option (hlater : place.index < scope.index) (x : Option Expr) :
    ∀ part ∈ optionParts x scope m, part.Spares host depth place := by
  intro part hpart
  obtain ⟨x, -, rfl⟩ := List.mem_map.mp hpart
  exact h.spares hhost hlater (.evaluate x scope) id

theorem spares_turn (hlater : place.index < scope.index) {go : Option Value}
    (htest : (engine host depth).evaluateOption test scope m = .ok go m') :
    ∀ part ∈ optionParts test scope m ++ [bodyPart body scope m'],
      part.Spares host depth place :=
  List.forall_mem_append.mpr ⟨h.spares_option hhost hlater test, List.forall_mem_singleton.mpr
    ((h.tested hhost htest).spares hhost hlater (.execute body scope []) id)⟩

end

/-- Handing over begins the next round, for the scopes of earlier rounds and for its own. -/
theorem handOver (h : Going m.store place scope outer) (hnames : names ≠ [])
    (hround : roundScope names outer scope m = .ok next m') :
    m.store.HandsOver names outer scope next m'.store ∧ place.index < next.index ∧
      Going m'.store place next outer ∧ Going m'.store next next outer := by
  have hhands := handsOver_of_roundScope hnames h.there hround
  have hbetween : Going m'.store place scope outer :=
    h.of_ok (E := ⟨engine .none 0, engine .none 0, rfl⟩)
      (F := fun _ => roundScope names outer scope)
      (Regime.abides_roundScope (lawful_regime place False) names h.outer_stands h.stands) hround
  have hthere : next.index < m'.store.scopes.size := by
    rw [hhands.size, hhands.place]
    exact Nat.lt_succ_self _
  have hlater : place.index < next.index := by
    rw [hhands.place]
    exact h.apart.there
  have hnew : m'.store.StandsApart next := by
    rw [hhands.place]
    refine h.apart.toAnchored.standsApart (Nat.lt_of_le_of_lt (Nat.zero_le _) h.there)
      hhands.objects ?_
    rw [hhands.size]
    exact Nat.lt_succ_self _
  exact ⟨hhands, hlater, ⟨hbetween.apart, hthere, hhands.parent, h.behind, Nat.le_of_lt hlater⟩,
    ⟨hnew, hthere, hhands.parent, Nat.lt_trans h.behind hlater, Nat.le_refl _⟩⟩

end Going

/-! ### Runs -/

section

variable {count : Nat} {round : Round} {last : Value} {rounds : List Round}
  {result : EStateM.Result Stop Machine Value}

/-- All rounds from one on are later than a scope and spare it, if this one does so far. -/
theorem spared_of_forRun (hhost : host.Courteous) (hnames : names ≠ [])
    (hrun : ForRun (engine host depth) test update body names outer labels count round last m rounds
      result)
    (hgoing : Going m.store place round.scope outer) (hlater : place.index < round.scope.index)
    (hparts : ∀ part ∈ round.parts, part.Spares host depth place) :
    ∀ r ∈ rounds, place.index < r.scope.index ∧ ∀ part ∈ r.parts, part.Spares host depth place := by
  -- The round that has begun.
  have hfirst {round : Round} (hlater : place.index < round.scope.index)
      (hparts : ∀ part ∈ round.parts, part.Spares host depth place) {parts : List Part}
      (h : ∀ part ∈ parts, part.Spares host depth place) :
      place.index < (round.followed parts).scope.index ∧
        ∀ part ∈ (round.followed parts).parts, part.Spares host depth place :=
    ⟨hlater, List.forall_mem_append.mpr ⟨hparts, h⟩⟩
  induction hrun with
  | stopped => exact List.forall_mem_singleton.mpr ⟨hlater, hparts⟩
  | untested =>
    exact List.forall_mem_singleton.mpr
      (hfirst hlater hparts (hgoing.spares_option hhost hlater test))
  | done =>
    exact List.forall_mem_singleton.mpr
      (hfirst hlater hparts (hgoing.spares_option hhost hlater test))
  | cutOff htest =>
    exact List.forall_mem_singleton.mpr
      (hfirst hlater hparts (hgoing.spares_turn hhost hlater htest))
  | left htest =>
    exact List.forall_mem_singleton.mpr
      (hfirst hlater hparts (hgoing.spares_turn hhost hlater htest))
  | through htest =>
    exact List.forall_mem_singleton.mpr
      (hfirst hlater hparts (hgoing.spares_turn hhost hlater htest))
  | stuck htest _ hends _ hround =>
    obtain ⟨-, hnext, hover, -⟩ :=
      ((hgoing.tested hhost htest).ran hhost hends).handOver hnames hround
    exact List.forall_mem_cons.mpr ⟨hfirst hlater hparts (hgoing.spares_turn hhost hlater htest),
      List.forall_mem_singleton.mpr ⟨hnext, hover.spares_option hhost hnext update⟩⟩
  | next htest _ hends _ hround hupdate _ ih =>
    obtain ⟨-, hnext, hover, -⟩ :=
      ((hgoing.tested hhost htest).ran hhost hends).handOver hnames hround
    exact List.forall_mem_cons.mpr ⟨hfirst hlater hparts (hgoing.spares_turn hhost hlater htest),
      ih (hover.tested hhost hupdate) hnext (hover.spares_option hhost hnext update)⟩

theorem roundsApart_cons {a : Round} (hplaces : ∀ part ∈ a.parts, part.task.place = a.scope)
    (hrest : RoundsApart host depth update body names outer rounds)
    (hprecedes : ∀ b ∈ rounds.head?, a.Precedes host depth update body names outer b)
    (hspared : ∀ b ∈ rounds, a.scope.index < b.scope.index ∧
      ∀ part ∈ b.parts, part.Spares host depth a.scope) :
    RoundsApart host depth update body names outer (a :: rounds) where
  places := List.forall_mem_cons.mpr ⟨hplaces, hrest.places⟩
  distinct := List.pairwise_cons.mpr ⟨fun b hb => (hspared b hb).1, hrest.distinct⟩
  handovers := by
    cases rounds with
    | nil => exact .singleton a
    | cons b rounds =>
      exact List.isChain_cons_cons.mpr ⟨hprecedes b rfl, hrest.handovers⟩
  spared := List.pairwise_cons.mpr ⟨fun b hb => (hspared b hb).2, hrest.spared⟩

theorem roundsApart_singleton {a : Round}
    (hplaces : ∀ part ∈ a.parts, part.task.place = a.scope) :
    RoundsApart host depth update body names outer [a] :=
  roundsApart_cons hplaces ⟨fun _ h => absurd h List.not_mem_nil, .nil, .nil, .nil⟩
    (fun _ h => absurd h (Option.not_mem_none _)) fun _ h => absurd h List.not_mem_nil

theorem place_of_mem_optionParts {x : Option Expr} {part : Part}
    (h : part ∈ optionParts x scope m) : part.task.place = scope := by
  obtain ⟨x, -, rfl⟩ := List.mem_map.mp h
  rfl

theorem places_followed (hplaces : ∀ part ∈ round.parts, part.task.place = round.scope)
    {parts : List Part} (h : ∀ part ∈ parts, part.task.place = round.scope) :
    ∀ part ∈ (round.followed parts).parts, part.task.place = (round.followed parts).scope :=
  List.forall_mem_append.mpr ⟨hplaces, h⟩

theorem places_turn (test : Option Expr) (body : Stmt) (scope : ScopeId) (m m' : Machine) :
    ∀ part ∈ optionParts test scope m ++ [bodyPart body scope m'], part.task.place = scope :=
  List.forall_mem_append.mpr
    ⟨fun _ => place_of_mem_optionParts, List.forall_mem_singleton.mpr rfl⟩

theorem precedes_of_handsOver {parts : List Part} {outcome : Except Abrupt Value}
    {m m₁ m₂ m₃ : Machine}
    (hends : Eval.attempt ((engine host depth).execute body round.scope) m₁ = .ok outcome m₂)
    (hhands : m₂.store.HandsOver names outer round.scope next m₃.store)
    (hupdate : optionParts update next m₃ <+: parts) :
    (round.followed (optionParts test round.scope m ++
      [bodyPart body round.scope m₁])).Precedes host depth update body names outer
      ⟨next, m₂, m₃, parts⟩ where
  body_ended := by
    refine ⟨m₁, outcome, ?_, hends⟩
    rw [Round.followed, ← List.append_assoc]
    exact List.getLast?_concat ..
  handover := hhands
  updated := hupdate

theorem roundsApart_of_forRun (hhost : host.Courteous) (hnames : names ≠ [])
    (hrun : ForRun (engine host depth) test update body names outer labels count round last m rounds
      result)
    (hgoing : Going m.store round.scope round.scope outer)
    (hplaces : ∀ part ∈ round.parts, part.task.place = round.scope) :
    RoundsApart host depth update body names outer rounds := by
  induction hrun with
  | stopped => exact roundsApart_singleton hplaces
  | untested =>
    exact roundsApart_singleton (places_followed hplaces fun _ => place_of_mem_optionParts)
  | done =>
    exact roundsApart_singleton (places_followed hplaces fun _ => place_of_mem_optionParts)
  | cutOff => exact roundsApart_singleton (places_followed hplaces (places_turn _ _ _ _ _))
  | left => exact roundsApart_singleton (places_followed hplaces (places_turn _ _ _ _ _))
  | through => exact roundsApart_singleton (places_followed hplaces (places_turn _ _ _ _ _))
  | stuck htest _ hends _ hround =>
    obtain ⟨hhands, hnext, hover, -⟩ :=
      ((hgoing.tested hhost htest).ran hhost hends).handOver hnames hround
    refine roundsApart_cons (places_followed hplaces (places_turn _ _ _ _ _))
      (roundsApart_singleton fun _ => place_of_mem_optionParts) ?_
      (List.forall_mem_singleton.mpr ⟨hnext, hover.spares_option hhost hnext update⟩)
    rintro b ⟨⟩
    exact precedes_of_handsOver hends hhands (List.prefix_refl _)
  | next htest _ hends _ hround hupdate hrest ih =>
    obtain ⟨hhands, hnext, hover, hnew⟩ :=
      ((hgoing.tested hhost htest).ran hhost hends).handOver hnames hround
    refine roundsApart_cons (places_followed hplaces (places_turn _ _ _ _ _))
      (ih (hnew.tested hhost hupdate) fun _ => place_of_mem_optionParts) ?_
      (spared_of_forRun hhost hnames hrest (hover.tested hhost hupdate) hnext
        (hover.spares_option hhost hnext update))
    obtain ⟨parts, rest, rfl⟩ := hrest.exists_first
    rintro b ⟨⟩
    exact precedes_of_handsOver hends hhands (List.prefix_append _ _)

end

/-! ### Loops in runs -/

/-- On an intact machine, parameters are shared and closures stand in scopes that are there. -/
theorem anchored_of_intact (hs : s.Intact) : s.Anchored :=
  ⟨fun d scope hclosure => (hs.sound.closures d scope hclosure).2,
    fun scope name hshares => (hs.shares scope name hshares).2⟩

/-- The scope for the head of a loop, when its names have been declared. -/
theorem going_of_declared (hm : m.store.Intact) (hscope : scope.index < m.store.scopes.size)
    {head : ScopeId} {kind : BindingKind} {m₁ m₂ : Machine}
    (hmade : Eval.newScope scope .block m = .ok head m₁)
    (hdeclared : Eval.update (fun s => s.declareAll head names kind) m₁ = .ok () m₂) :
    Going m₂.store head head scope := by
  cases hmade
  cases hdeclared
  have hsize : ((m.store.newScope (some scope) .block).2.declareAll ⟨m.store.scopes.size⟩ names
      kind).scopes.size = m.store.scopes.size + 1 :=
    (size_modifyScope ..).trans (Array.size_push ..)
  have hlater := Nat.lt_of_lt_of_eq (Nat.lt_succ_self _) hsize.symm
  refine ⟨(anchored_of_intact hm).standsApart (Nat.lt_of_le_of_lt (Nat.zero_le _) hscope) rfl
    hlater, hlater, ?_, hscope, Nat.le_refl _⟩
  have hparent := (m.store.newScope (some scope) .block).2.parent?_modifyScope
    ⟨m.store.scopes.size⟩ ⟨m.store.scopes.size⟩
    fun a => (a.extends_declareAll names kind).parent
  refine hparent.trans ?_
  rw [parent?_newScope, if_pos rfl]

theorem keepsRoundsApart_of_ready (hhost : host.Courteous) (hm : m.Intact) {task : Task}
    {receiver : Value} (hready : task.Ready receiver m) : task.KeepsRoundsApart host m := by
  unfold Task.KeepsRoundsApart
  split
  · next d test update body scope labels =>
    intro hkind hnames depth head m₁ m₂ m₃ hmade hdeclared hhead
    have hgoing : Going m₃.store head head scope :=
      (going_of_declared hm.store hready.2.there hmade hdeclared).of_ok
        (Regime.abides_declaration (lawful_regime head False) (serves_open hhost head depth) d
          (going_of_declared hm.store hready.2.there hmade hdeclared).stands) hhead
    obtain ⟨first, m₄, hround, hhands⟩ := exists_roundScope scope hnames hgoing.there
    obtain ⟨-, -, -, hfirst⟩ := hgoing.handOver hnames hround
    obtain ⟨rounds, hrun⟩ := exists_forRun (engine host depth) test update body d.boundNames scope
      labels depth ⟨first, m₃, m₄, []⟩ .undefined m₄
    refine ⟨first, m₄, rounds, hhands, ?_, roundsApart_of_forRun hhost hnames hrun hfirst
      fun _ h => absurd h List.not_mem_nil⟩
    have hloop : runTask host (depth + 1)
        (.execute (.forStmt (some (.declaration d)) test update body) scope labels) m =
        (engine host depth).forLoop test update body d.boundNames scope labels depth first
          .undefined m₄ := by
      change (engine host depth).forStatement (some (.declaration d)) test update body scope labels
        m = _
      have hlexical : d.kind.isLexical = true := by rw [hkind]; rfl
      unfold forStatement
      dsimp only
      rw [if_pos hlexical, Eval.bind_of_ok hmade, Eval.bind_of_ok hdeclared,
        Eval.bind_of_ok hhead, if_pos hkind, Eval.bind_of_ok hround]
      rfl
    rwa [hloop]
  · trivial

def observer (host : Host) : Supervisor Unit where
  inside _ _ _ := ()
  admits _ task m := task.KeepsRoundsApart host m
  accepts _ _ _ _ _ := True

/-- On every machine that sessions lead to, at every task of whatever the embedding program asks
for, a loop whose head declares names with `let` goes through rounds that keep apart: each has a
scope of its own, which takes the values of the names over from the round before when the body of
that has ended, and is left alone by the later rounds except through functions that were made inside
it. -/
theorem rounds_keep_apart (hhost : host.Courteous)
    (hm : Machine.Reachable host Program.Accepted m) :
    ∀ task, (Setting.embedding Program.Accepted fun _ => True).asks task →
      (∀ v ∈ task.values, m.Knows v) → ∀ bound,
        (observer host).run host bound () task m = runTask host bound task m := by
  intro task htask hvalues bound
  have hintact := (intact_of_reachable hhost hm).1
  exact (governs hhost).run_eq (observer host) (fun _ => ()) (fun _ _ _ _ => rfl)
    (fun _ _ _ hbegin => keepsRoundsApart_of_ready hhost hbegin.1 hbegin.2.2.1)
    (fun _ _ _ _ _ _ _ => trivial) bound .undefined task m (admits_of_asks hintact htask hvalues)

theorem rounds_keep_apart_calling_back :
    (observer .callBack).run .callBack 12 () (.indirectEval (.string (.ofString
        "var f = []; for (let i = 0; i < 3; i++) f.push(() => i++); f[0]() + f[2]()")))
        (.initial {}) =
      runTask .callBack 12 (.indirectEval (.string (.ofString
        "var f = []; for (let i = 0; i < 3; i++) f.push(() => i++); f[0]() + f[2]()")))
        (.initial {}) :=
  rounds_keep_apart Host.callBack_courteous (.initial {}) (.indirectEval (.string (.ofString
    "var f = []; for (let i = 0; i < 3; i++) f.push(() => i++); f[0]() + f[2]()"))) trivial
    (List.forall_mem_singleton.mpr trivial) 12

end Rounds

end ProtoScript
