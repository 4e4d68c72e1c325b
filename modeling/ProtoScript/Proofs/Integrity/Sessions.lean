import ProtoScript.Proofs.Integrity.Initial
import ProtoScript.Proofs.Integrity.Rules
/-!
# Sessions keep the machine intact

Every machine that sessions lead to is intact, and what is evaluated on it leads to a later one.
-/

namespace ProtoScript

open Store

/-! ### Functions of the host -/

/-- Functions of the host under other names than `this` lead to a later store. -/
theorem Store.Intact.installHost {kept : Watch} {s : Store} (hs : s.Intact)
    {functions : List (String × Nat)} (hnames : ∀ f ∈ functions, f.1 ≠ "this")
    (hfree : ∀ f ∈ functions, ¬ kept.settled .global f.1) :
    s.Leads kept (functions.foldl (fun s (name, arity) => s.installGlobal (.host name arity)) s) :=
  hs.foldl _ fun f hf _ hs =>
    hs.installGlobal (f := .host f.1 f.2) (hnames f hf) (hfree f hf)

/-- Giving a name a global value leaves the receiver a receiver, even if the name is `this`. -/
theorem Scope.find?_this_of_defined {a : Scope} {b : Binding} {name : String} {value : Value}
    (hthis : a.bindings.find? "this" = some b) :
    ((a.declare name .variable).bind name value).bindings.find? "this" =
      some (if name = "this" then { b with value, initialized := true } else b) := by
  unfold Scope.bind
  dsimp only
  rw [NameMap.find?_insert]
  by_cases hname : name = "this"
  · subst hname
    have hdeclared : a.declare "this" .variable = a := by
      unfold Scope.declare NameMap.contains
      rw [hthis]
      rfl
    rw [if_pos rfl, if_pos rfl, hdeclared, hthis]
    rfl
  · rw [if_neg (Ne.symm hname), if_neg hname]
    unfold Scope.declare
    split
    · exact hthis
    · rw [NameMap.find?_insert, if_neg (Ne.symm hname)]
      exact hthis

structure Store.Rooted (s : Store) : Prop where
  intact : s.Intact
  receiver : ∃ b, s.binding? .global "this" = some b

theorem Store.Rooted.leads {kept : Watch} {s s' : Store} (hs : s.Rooted)
    (h : s.Leads kept s') : s'.Rooted := by
  refine ⟨h.intact, ?_⟩
  rw [h.evolves.receivers .global hs.intact.sound.global]
  exact hs.receiver

theorem Store.Rooted.defineGlobal {s : Store} (hs : s.Rooted) (name : String) {value : Value}
    (hvalue : value.Within s.objects.size) : (s.defineGlobal name value).Rooted := by
  obtain ⟨b, hb⟩ := hs.receiver
  have hscope : ∀ a, s.scope? .global = some a → a.bindings.find? "this" = some b := by
    intro a ha
    unfold binding? at hb
    rw [ha] at hb
    exact hb
  have hretains : s.Retains (s.defineGlobal name value) :=
    .declareBound hs.intact.named.open_global rfl value
  have hnamed : (s.defineGlobal name value).Named := hretains.named_of_size hs.intact.named (by
    unfold Store.defineGlobal
    rw [bind_declare, size_modifyScope])
  unfold Store.defineGlobal at hnamed ⊢
  rw [bind_declare] at hnamed ⊢
  refine ⟨hs.intact.of_modifyScope hnamed (fun a => (a.extends_declare name .variable).parent)
    (fun a ha b' hb' => ?_) fun a ha => ?_, ?_⟩
  · rw [Scope.find?_this_of_defined (hscope a ha)] at hb'
    cases hb'
    have hreceiver := hs.intact.receivers .global b hb
    split
    · exact ⟨hreceiver.1, rfl⟩
    · exact hreceiver
  · have hwithin := hs.intact.bindings .global a ha
    have hdeclared : (a.declare name .variable).Within s.objects.size := by
      unfold Scope.declare
      split
      · exact hwithin
      · exact NameMap.All.insert hwithin name trivial
    exact NameMap.All.insert hdeclared name hvalue
  · have hglobal : ScopeId.global.index < s.scopes.size := hs.intact.sound.global
    obtain ⟨a, ha⟩ := scope?_eq_some_iff.mpr hglobal
    rw [binding?_modifyScope, if_pos rfl, ha]
    exact ⟨_, Scope.find?_this_of_defined (hscope a ha)⟩

theorem Store.Rooted.installHost {s : Store} (hs : s.Rooted) (functions : List (String × Nat)) :
    Store.Rooted (functions.foldl (fun s (name, arity) => s.installGlobal (.host name arity)) s) ∧
      s.objects.size ≤ Array.size (functions.foldl (fun s (name, arity) =>
        s.installGlobal (.host name arity)) s).objects := by
  induction functions generalizing s with
  | nil => exact ⟨hs, Nat.le_refl _⟩
  | cons f rest ih =>
    have hmade : s.Leads (.first 0) (s.newFunction (.native (.host f.1 f.2))).2 :=
      hs.intact.newNative _
    obtain ⟨hrooted, hle⟩ :=
      ih ((hs.leads hmade).defineGlobal f.1 (s.within_newFunction (.native (.host f.1 f.2))))
    exact ⟨hrooted, Nat.le_trans hmade.evolves.objects hle⟩

/-! ### Evaluating a text is running its program -/

def ScriptError.resultValues : Except ScriptError Value → List Value
  | .ok value | .error (.uncaught value _) => [value]
  | .error (.malformed _) => []

theorem Engine.evaluateSource_eq (e : Engine) (source : String) (m : Machine) :
    e.evaluateSource source m =
      (match Program.ofString source m.settings.strict with
      | .error error => pure (.error (.malformed error))
      | .ok p => do
        match ← Eval.attempt (e.run (.program p)) with
        | .ok value => return .ok value
        | .error (.thrown value) =>
          return .error (.uncaught value (← Eval.read fun s => s.display value))
        | .error (.returned value) => return .ok value
        | .error _ => return .ok .undefined : Eval (Except ScriptError Value)) m :=
  rfl

/-- Evaluating a text that is no program leaves the machine as it is; evaluating any other runs its
program, and the value in the result is one that the program ended with. -/
theorem Machine.ran_of_evaluate {host : Host} {m m' : Machine} {source : String} {bound : Nat}
    {result : Except ScriptError Value}
    (h : m.evaluate source host bound = (.done result, m')) :
    (m' = m ∧ ∃ error, result = .error (.malformed error)) ∨
    ∃ p o, Program.ofString source m.settings.strict = .ok p ∧
      m.runProgram p host bound = (.done o, m') ∧
      ∀ v ∈ ScriptError.resultValues result, v ∈ Abrupt.outcomeValues o ∨ v = .undefined := by
  have heq : (engine host bound).evaluateSource source m = .ok result m' := eq_ok_of_run h
  rw [Engine.evaluateSource_eq] at heq
  cases hp : Program.ofString source m.settings.strict with
  | error error =>
    rw [hp] at heq
    cases heq
    exact .inl ⟨rfl, error, rfl⟩
  | ok p =>
    rw [hp] at heq
    simp only [Bind.bind, EStateM.bind] at heq
    cases htried : Eval.attempt ((engine host bound).run (.program p)) m with
    | error stop m₁ =>
      rw [htried] at heq
      cases heq
    | ok o m₁ =>
      rw [htried] at heq
      have hran : m.runProgram p host bound = (.done o, m₁) := by
        unfold runProgram Machine.run
        rw [htried]
      cases o with
      | ok value =>
        cases heq
        exact .inr ⟨p, _, rfl, hran, fun v hv => .inl hv⟩
      | error c =>
        cases c <;> cases heq
        · exact .inr ⟨p, _, rfl, hran, fun v hv => .inl hv⟩
        · exact .inr ⟨p, _, rfl, hran, fun v hv => .inl hv⟩
        · exact .inr ⟨p, _, rfl, hran, fun v hv => .inr (List.mem_singleton.mp hv)⟩
        · exact .inr ⟨p, _, rfl, hran, fun v hv => .inr (List.mem_singleton.mp hv)⟩

/-- The second machine comes from the first by evaluating texts, running programs and taking the
output, in any order. -/
inductive Machine.Continues (host : Host) (m : Machine) : Machine → Prop
  | refl : Continues host m m
  | takeOutput {m' : Machine} (before : Continues host m m') :
      Continues host m m'.takeOutput.2
  | evaluate {m' m'' : Machine} {source : String} {bound : Nat}
      {result : Except ScriptError Value} (before : Continues host m m')
      (evaluated : m'.evaluate source host bound = (.done result, m'')) : Continues host m m''
  | runProgram {m' m'' : Machine} {p : Program} {bound : Nat} {o : Except Abrupt Value}
      (before : Continues host m m') (allowed : p.Accepted)
      (ran : m'.runProgram p host bound = (.done o, m'')) : Continues host m m''

namespace Integrity

variable {W : Focus} {note : Value} {m m' : Machine} {host : Host}

/-! ### What the embedding program asks for -/

theorem readyAt_of_asks {task : Task}
    (h : (Setting.embedding Program.Accepted fun _ => True).asks task) (seat : Seat) (m : Machine) :
    task.ReadyAt seat m := by
  cases task with
  | call function receiver arguments => trivial
  | indirectEval text => trivial
  | program p => exact h.sound
  | _ => exact h.elim

/-- What is open to the embedding program may begin on every intact machine that knows the values
of the task. -/
theorem admits_of_joins (hm : m.Intact) (hjoins : m.store.Joins W.joined) {task : Task}
    (h : (Setting.embedding Program.Accepted fun _ => True).asks task)
    (hvalues : ∀ v ∈ task.values, m.Knows v) : (supervisor W).admits note task m :=
  ⟨hm, hvalues, (readyAt_of_asks h ⟨note, .global, 0, none⟩ m).ready, hjoins⟩

theorem admits_of_asks {settled : ScopeId → String → Prop} (hm : m.Intact) {task : Task}
    (h : (Setting.embedding Program.Accepted fun _ => True).asks task)
    (hvalues : ∀ v ∈ task.values, m.Knows v) :
    (supervisor ⟨settled, fun _ => False⟩).admits note task m :=
  admits_of_joins hm (fun _ _ => False.elim) h hvalues

structure Follows (m m' : Machine) : Prop where
  evolves : m.store.Evolves (.first m.store.scopes.size) m'.store
  intact : m'.Intact

theorem Follows.trans {m'' : Machine} (h : Follows m m') (h' : Follows m' m'') : Follows m m'' :=
  have hle (id : ScopeId) (hlt : id.index < m.store.scopes.size) :
      id.index < m'.store.scopes.size := Nat.lt_of_lt_of_le hlt h.evolves.size_le
  ⟨h.evolves.trans (h'.evolves.mono (fun _ _ _ hnever => hnever.elim) hle hle), h'.intact⟩

theorem ends_of_admits (hhost : host.Courteous) {task : Task}
    (hadmits : (supervisor .nothing).admits note task m) (bound : Nat) :
    Ends (fun o m' => Follows m m' ∧ Ended Known o m') (runTask host bound task m) := by
  refine ((governs hhost).ends bound note task m hadmits).mono ?_
  rintro o m' ⟨hlater, hm', hended, _⟩
  exact ⟨⟨hlater.mono (fun _ _ _ hnever => hnever.elim) (fun _ hlt => .inl hlt) fun _ hlt => hlt,
    hm'⟩, hended⟩

theorem follows_of_runProgram (hhost : host.Courteous) (hm : m.Intact) {p : Program}
    (hp : p.Accepted) {bound : Nat} {o : Except Abrupt Value}
    (h : m.runProgram p host bound = (.done o, m')) : Follows m m' ∧ Ended Known o m' := by
  have hadmits : (supervisor .nothing).admits .undefined (.program p) m :=
    admits_of_asks hm hp nofun
  exact (ends_of_admits hhost hadmits bound).of_run_attempt h

theorem follows_of_evaluate (hhost : host.Courteous) (hm : m.Intact) {source : String}
    {bound : Nat} {result : Except ScriptError Value}
    (h : m.evaluate source host bound = (.done result, m')) :
    Follows m m' ∧ ∀ v ∈ ScriptError.resultValues result, m'.Knows v := by
  obtain ⟨rfl, error, rfl⟩ | ⟨p, o, hp, hran, hvalues⟩ := Machine.ran_of_evaluate h
  · exact ⟨⟨.refl _, hm⟩, nofun⟩
  · obtain ⟨hfollows, hended⟩ := follows_of_runProgram hhost hm ⟨source, _, hp⟩ hran
    refine ⟨hfollows, fun v hv => ?_⟩
    rcases hvalues v hv with hmem | rfl
    · exact knows_outcomeValues hended v hmem
    · exact m'.knows_undefined

theorem follows_of_continues (hhost : host.Courteous) (hm : m.Intact)
    (h : Machine.Continues host m m') : Follows m m' := by
  induction h with
  | refl => exact ⟨.refl _, hm⟩
  | takeOutput _ ih => exact ⟨ih.evolves, ⟨ih.intact.store, ih.intact.newTarget⟩⟩
  | evaluate _ evaluated ih =>
    exact ih.trans (follows_of_evaluate hhost ih.intact evaluated).1
  | runProgram _ allowed ran ih =>
    exact ih.trans (follows_of_runProgram hhost ih.intact allowed ran).1

/-! ### The machines that sessions lead to -/

theorem intact_initial (settings : Settings) : (Machine.initial settings).Intact :=
  ⟨(installs_initial settings).intact, nofun⟩

/-- The global scope begins with the global object as its receiver. -/
theorem receiver_initial (settings : Settings) :
    (Machine.initial settings).store.binding? .global "this" =
      some ⟨.object .globalObject, .constant, true⟩ :=
  binding?_initial settings (by decide) rfl ⟨rfl, rfl⟩

theorem this_initial (settings : Settings) :
    (Machine.initial settings).store.this .global = .object .globalObject := by
  unfold Store.this lookup? lookup
  rw [resolve?_of_binding? (receiver_initial settings)]
  rfl

theorem intact_of_reachable (hhost : host.Courteous)
    (hm : Machine.Reachable host Program.Accepted m) : m.Intact ∧ m.store.Rooted := by
  induction hm with
  | initial settings =>
    have hm := intact_initial settings
    exact ⟨hm, hm.store, _, receiver_initial settings⟩
  | @installHost m functions _ ih =>
    obtain ⟨hrooted, hle⟩ := ih.2.installHost functions
    exact ⟨⟨hrooted.intact, fun v hv => (ih.1.newTarget v hv).mono hle⟩, hrooted⟩
  | takeOutput _ ih => exact ⟨⟨ih.1.store, ih.1.newTarget⟩, ih.2⟩
  | evaluate _ evaluated ih =>
    have hfollows := (follows_of_evaluate hhost ih.1 evaluated).1
    exact ⟨hfollows.intact, ih.2.leads ⟨hfollows.evolves, hfollows.intact.store⟩⟩
  | runProgram _ allowed ran ih =>
    have hfollows := (follows_of_runProgram hhost ih.1 allowed ran).1
    exact ⟨hfollows.intact, ih.2.leads ⟨hfollows.evolves, hfollows.intact.store⟩⟩

end Integrity

end ProtoScript
