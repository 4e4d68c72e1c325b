import ProtoScript.Proofs.Conduct.Expression
import ProtoScript.Proofs.Syntax.Parts
/-!
# The conduct of statements

Statements make scopes and hoist declarations into them, so that the statements inside find what
they declare, and they catch the jumps that are meant for them.
-/

namespace ProtoScript

theorem Stmt.Sound.definition {t : Targets} {chain : List String} {d : FunctionDef}
    (h : Stmt.Sound t chain (.function d)) : d.Sound := by
  cases h with
  | function definition _ => exact definition

theorem Stmt.varNamesOfList_append (body body' : List Stmt) :
    Stmt.varNamesOfList (body ++ body') =
      Stmt.varNamesOfList body ++ Stmt.varNamesOfList body' := by
  induction body with
  | nil => rfl
  | cons first rest ih =>
    rw [List.cons_append, Stmt.varNamesOfList, Stmt.varNamesOfList, ih, List.append_assoc]

theorem Stmt.varNamesOfCases_eq (cases : List SwitchCase) :
    Stmt.varNamesOfCases cases = Stmt.varNamesOfList (cases.flatMap SwitchCase.body) := by
  induction cases with
  | nil => rfl
  | cons clause rest ih =>
    obtain ⟨test, body⟩ := clause
    rw [Stmt.varNamesOfCases, List.flatMap_cons, Stmt.varNamesOfList_append, ih]

namespace Targets

theorem PassesBut.passes {may : Abrupt → Prop} {t : Targets} {ended : Abrupt → Prop} {c : Abrupt}
    (h : t.PassesBut may ended c) : t.Passes may c :=
  h.imp_right And.left

/-- What may leave the statements of a `switch` other than a mere `break` may leave the `switch`. -/
theorem passes_of_switch {may : Abrupt → Prop} {t : Targets} {c : Abrupt}
    (h : t.switch.Passes may c) (hc : c ≠ .broke none) :
    t.PassesBut may (· = .broke none) c := by
  refine h.imp_right fun hallows => ⟨?_, hc⟩
  cases c with
  | broke label =>
    cases label with
    | none => exact absurd rfl hc
    | some label => exact hallows
  | continued label => cases label <;> exact hallows
  | _ => exact hallows

/-- What may leave a statement behind a label other than a `break` to the label may leave the
labeled statement. -/
theorem passes_of_labeled {may : Abrupt → Prop} {t : Targets} {label : String} {c : Abrupt}
    (h : (t.labeled label).Passes may c) (hc : c ≠ .broke (some label)) :
    t.PassesBut may (· = .broke (some label)) c := by
  refine h.imp_right fun hallows => ⟨?_, hc⟩
  cases c with
  | broke target =>
    cases target with
    | none => exact hallows
    | some target =>
      rcases List.mem_append.mp hallows with hbefore | hnew
      · exact hbefore
      · exact absurd (congrArg (Abrupt.broke ∘ some) (List.mem_singleton.mp hnew)) hc
  | continued target => cases target <;> exact hallows
  | _ => exact hallows

theorem passes_of_loop {may : Abrupt → Prop} {t : Targets} {labels : List String} {c c' : Abrupt}
    {last : Value} (h : (t.loop labels).Passes may c)
    (hafter : AfterBody.of labels last (.error c) = .pass c') :
    t.PassesBut may (·.EndsAtLoop labels) c' := by
  cases c with
  | thrown value =>
    cases hafter
    exact h.imp_right fun hallows => ⟨hallows, id⟩
  | returned value =>
    cases hafter
    exact h.imp_right fun hallows => ⟨hallows, id⟩
  | broke label =>
    cases label with
    | none => cases hafter
    | some label =>
      simp only [AfterBody.of] at hafter
      split at hafter
      · cases hafter
      · rename_i hlabel
        cases hafter
        exact h.imp_right fun hallows =>
          ⟨hallows, fun hown => hlabel (List.contains_iff_mem.mpr hown)⟩
  | continued label =>
    cases label with
    | none => cases hafter
    | some label =>
      simp only [AfterBody.of] at hafter
      split at hafter
      · cases hafter
      · rename_i hlabel
        cases hafter
        have hother : label ∉ labels := fun hown => hlabel (List.contains_iff_mem.mpr hown)
        refine h.imp_right fun hallows => ⟨?_, hother⟩
        rcases List.mem_append.mp hallows with hbefore | hown
        · exact hbefore
        · exact absurd hown hother

end Targets

namespace Conduct

variable {may : Abrupt → Prop} {n : Note} {e e' : Engine} {m : Machine} {scope : ScopeId}

theorem declares_of_mem {s : Store} {body : List Stmt}
    (hvars : ∀ name ∈ Stmt.varNamesOfList body, s.Resolves scope name)
    (hlexicals : ∀ name ∈ body.flatMap Grammar.lexicalNames, s.hasOwnBinding scope name = true)
    {statement : Stmt} (h : statement ∈ body) : s.Declares scope statement :=
  ⟨fun name hname => hvars name (Stmt.mem_varNamesOfList.mpr ⟨statement, h, hname⟩),
    fun name hname => hlexicals name (List.mem_flatMap.mpr ⟨statement, h, hname⟩)⟩

theorem declares_alone {s : Store} {statement : Stmt}
    (hvars : ∀ name ∈ statement.varNames, s.Resolves scope name)
    (halone : Grammar.lexicalNames statement = []) : s.Declares scope statement := by
  refine ⟨hvars, fun name hname => ?_⟩
  rw [halone] at hname
  cases hname

variable (h : (supervisor may).Agrees n e e') (hthrown : ∀ v, may (.thrown v))

include h

theorem advances_execute {s : Stmt} {labels : List String} (hs : s.Sound n.targets labels)
    (hosts : m.store.Hosts n.strictness scope) (hdeclares : m.store.Declares scope s) :
    Advances h.engines (n.targets.Passes may) m (fun e => e.run (.execute s scope labels))
      fun _ _ => True := by
  have hexecute : Advances h.engines (n.targets.PassesBut may (s.ends labels)) m
      (fun e => e.run (.execute s scope labels)) fun _ _ => True :=
    .task h fun hm => ⟨hm, hosts.script, hs, hosts, hdeclares⟩
  exact hexecute.mono (fun _ => Targets.PassesBut.passes) fun _ _ _ hpost => hpost

/-! ### Statement lists -/

theorem advances_statements {body : List Stmt} (hbody : ∀ s ∈ body, s.Sound n.targets [])
    (hosts : m.store.Hosts n.strictness scope) (hdeclares : ∀ s ∈ body, m.store.Declares scope s)
    (last : Value) :
    Advances h.engines (n.targets.Passes may) m (fun e => e.statements scope body last)
      fun _ _ => True := by
  induction body generalizing m last with
  | nil => exact .pure trivial
  | cons statement rest ih =>
    refine .bind (advances_execute h (hbody _ (List.mem_cons_self ..)) hosts
      (hdeclares _ (List.mem_cons_self ..))) fun value m' hlater _ => ?_
    refine ih (fun s hs => hbody s (List.mem_cons_of_mem _ hs)) (hosts.later hlater) ?_ _
    exact fun s hs => (hdeclares s (List.mem_cons_of_mem _ hs)).later hlater

theorem advances_block {body : List Stmt} (hbody : ∀ s ∈ body, s.Sound n.targets [])
    (hosts : m.store.Hosts n.strictness scope)
    (hvars : ∀ name ∈ Stmt.varNamesOfList body, m.store.Resolves scope name) :
    Advances h.engines (n.targets.Passes may) m (fun e => e.block body scope) fun _ _ => True := by
  refine .bind (.newScope hosts .block) fun inner m₁ hlater₁ hinner => ?_
  obtain ⟨hosts₁, hinside⟩ := hinner
  refine .bind (.hoistBlock hosts₁.there fun d hd => (hbody _ hd).definition)
    fun _ m₂ hlater hlexicals => ?_
  refine advances_statements h hbody (hosts₁.later hlater) (fun s hs => ?_) .undefined
  have hvars₁ : ∀ name ∈ Stmt.varNamesOfList body, m₁.store.Resolves inner name :=
    fun name hname => hinside.resolves (hlater₁.resolves (hvars name hname))
  exact declares_of_mem (fun name hname => hlater.resolves (hvars₁ name hname)) hlexicals hs

/-! ### Exceptions -/

theorem advances_handle {handler : Handler} (hparameter : ∀ p ∈ handler.parameter, p.Sound)
    (hbody : ∀ s ∈ handler.body, s.Sound n.targets [])
    (hosts : m.store.Hosts n.strictness scope)
    (hvars : ∀ name ∈ Stmt.varNamesOfList handler.body, m.store.Resolves scope name)
    (exception : Value) :
    Advances h.engines (n.targets.Passes may) m (fun e => e.handle handler exception scope)
      fun _ _ => True := by
  refine .bind (.newScope hosts .block) fun inner m₁ hlater₁ hinner => ?_
  obtain ⟨hosts₁, hinside⟩ := hinner
  have hvars₁ : ∀ name ∈ Stmt.varNamesOfList handler.body, m₁.store.Resolves inner name :=
    fun name hname => hinside.resolves (hlater₁.resolves (hvars name hname))
  cases hfound : handler.parameter with
  | none => exact advances_block h hbody hosts₁ hvars₁
  | some parameter =>
    refine .bind (.update (Store.grows_declareAll _ _ _ _)) fun _ m₂ hlater hdeclared => ?_
    have hbindable : Bindable n m₂.store inner true parameter := by
      refine ⟨hparameter parameter hfound, fun name hname => ?_⟩
      rw [if_pos rfl, hdeclared]
      exact m₁.store.hasOwnBinding_declareAll hosts₁.there _ _ hname
    have hbind := advances_bind h hbindable (hosts₁.later hlater) exception
    refine .bind hbind.passes fun _ m₃ hlater' _ => ?_
    refine advances_block h hbody ((hosts₁.later hlater).later hlater') fun name hname => ?_
    exact hlater'.resolves (hlater.resolves (hvars₁ name hname))

theorem advances_afterTrying {tried : Except Abrupt Value} {handler : Option Handler}
    (htried : Completes (n.targets.Passes may) (fun _ _ => True) tried m)
    (hparameter : ∀ h ∈ handler, ∀ p ∈ h.parameter, p.Sound)
    (hbody : ∀ h ∈ handler, ∀ s ∈ h.body, s.Sound n.targets [])
    (hosts : m.store.Hosts n.strictness scope)
    (hvars : ∀ name ∈ Stmt.varNamesOfHandler handler, m.store.Resolves scope name) :
    Advances h.engines may m (fun e => e.afterTrying tried handler scope)
      (Completes (n.targets.Passes may) fun _ _ => True) := by
  unfold Engine.afterTrying
  split
  · rename_i exception handler
    obtain ⟨parameter, body⟩ := handler
    refine (advances_handle h (hparameter _ rfl) (hbody _ rfl) hosts (fun name hname => ?_)
      exception).attempt
    refine hvars name ?_
    rw [Stmt.varNamesOfHandler]
    exact hname
  · exact .pure htried

theorem advances_finish {finalizer : Option (List Stmt)} {outcome : Except Abrupt Value}
    (houtcome : ∀ m', Completes (n.targets.Passes may) (fun _ _ => True) outcome m')
    (hbody : ∀ f ∈ finalizer, ∀ s ∈ f, s.Sound n.targets [])
    (hosts : m.store.Hosts n.strictness scope)
    (hvars : ∀ name ∈ Stmt.varNamesOfFinalizer finalizer, m.store.Resolves scope name) :
    Advances h.engines (n.targets.Passes may) m (fun e => e.finish finalizer outcome scope)
      fun _ _ => True := by
  cases finalizer with
  | none => exact .resume (houtcome m)
  | some body =>
    rw [Stmt.varNamesOfFinalizer] at hvars
    exact .bind (advances_block h (hbody body rfl) hosts hvars) fun _ m' _ _ =>
      .resume (houtcome m')

theorem advances_tryStatement {body : List Stmt} {handler : Option Handler}
    {finalizer : Option (List Stmt)} {chain : List String}
    (hs : (Stmt.tryStmt body handler finalizer).Sound n.targets chain)
    (hosts : m.store.Hosts n.strictness scope)
    (hvars : ∀ name ∈ (Stmt.tryStmt body handler finalizer).varNames,
      m.store.Resolves scope name) :
    Advances h.engines (n.targets.Passes may) m
      (fun e => e.tryStatement body handler finalizer scope) fun _ _ => True := by
  rw [Stmt.varNames] at hvars
  cases hs with
  | tryStmt hbody hparameter hhandler hfinalizer =>
    refine .bind (advances_block h hbody hosts fun name hname => ?_).attempt
      fun tried m₁ hlater htried => ?_
    · exact hvars name (List.mem_append_left _ (List.mem_append_left _ hname))
    have hosts₁ := hosts.later hlater
    have hafter : Advances h.engines (n.targets.Passes may) m₁
        (fun e => e.afterTrying tried handler scope)
        (Completes (n.targets.Passes may) fun _ _ => True) := by
      refine (advances_afterTrying h htried hparameter hhandler hosts₁ fun name hname => ?_).passes
      refine hlater.resolves (hvars name (List.mem_append_left _ (List.mem_append_right _ ?_)))
      exact hname
    refine .bind hafter fun outcome m₂ hlater' houtcome => ?_
    refine advances_finish h (fun m' => ?_) hfinalizer (hosts₁.later hlater') fun name hname => ?_
    · cases outcome <;> exact houtcome
    · exact hlater'.resolves (hlater.resolves (hvars name (List.mem_append_right _ hname)))

/-! ### Switches -/

theorem advances_caseStatements {t : Targets} (hn : n.targets = t.switch) {body : List Stmt}
    (hbody : ∀ s ∈ body, s.Sound n.targets []) (hosts : m.store.Hosts n.strictness scope)
    (hdeclares : ∀ s ∈ body, m.store.Declares scope s) (last : Value) :
    Advances h.engines (t.PassesBut may (· = .broke none)) m
      (fun e => e.caseStatements scope body last) fun _ _ => True := by
  induction body generalizing m last with
  | nil => exact .pure trivial
  | cons statement rest ih =>
    refine .bind (advances_execute h (hbody _ (List.mem_cons_self ..)) hosts
      (hdeclares _ (List.mem_cons_self ..))).attempt fun outcome m' hlater houtcome => ?_
    rw [hn] at houtcome
    split
    · refine ih (fun s hs => hbody s (List.mem_cons_of_mem _ hs)) (hosts.later hlater) ?_ _
      exact fun s hs => (hdeclares s (List.mem_cons_of_mem _ hs)).later hlater
    · exact .pure trivial
    · rename_i c hc
      exact .complete (Targets.passes_of_switch houtcome hc)

theorem advances_selectCases {subject : Value} {cases : List SwitchCase}
    (hcases : ∀ clause ∈ cases, ∀ x ∈ clause.test, x.Sound)
    (hosts : m.store.Hosts n.strictness scope) :
    Advances h.engines may m (fun e => e.selectCases subject scope cases)
      fun selected _ => ∀ run ∈ selected, ∀ clause ∈ run, clause ∈ cases := by
  induction cases generalizing m with
  | nil => exact .pure nofun
  | cons clause rest ih =>
    have htests : ∀ clause ∈ rest, ∀ x ∈ clause.test, x.Sound :=
      fun clause hclause => hcases clause (List.mem_cons_of_mem _ hclause)
    have hrest {m' : Machine} (hosts : m'.store.Hosts n.strictness scope) :
        Advances h.engines may m' (fun e => e.selectCases subject scope rest)
          fun selected _ => ∀ run ∈ selected, ∀ found ∈ run, found ∈ clause :: rest := by
      refine (ih htests hosts).mono (fun _ => id) fun selected _ _ hselected => ?_
      intro run hrun found hfound
      exact List.mem_cons_of_mem _ (hselected run hrun found hfound)
    unfold Engine.selectCases
    cases htest : clause.test with
    | none => exact hrest hosts
    | some test =>
      refine .bind (advances_evaluate h (hcases clause (List.mem_cons_self ..) test htest) hosts)
        fun value m' hlater _ => ?_
      refine .ite (fun _ => .pure fun run hrun => ?_) fun _ => hrest (hosts.later hlater)
      cases hrun
      exact fun _ hfound => hfound

theorem advances_switchStatement {t : Targets} (hn : n.targets = t.switch) {subject : Expr}
    {cases : List SwitchCase} {chain : List String}
    (hs : (Stmt.switchStmt subject cases).Sound t chain) (hosts : m.store.Hosts n.strictness scope)
    (hvars : ∀ name ∈ (Stmt.switchStmt subject cases).varNames, m.store.Resolves scope name) :
    Advances h.engines (t.PassesBut may (· = .broke none)) m
      (fun e => e.switchStatement subject cases scope) fun _ _ => True := by
  rw [Stmt.varNames, Stmt.varNamesOfCases_eq] at hvars
  cases hs with
  | switchStmt hsubject htests hbodies =>
    have hbody : ∀ s ∈ cases.flatMap SwitchCase.body, s.Sound n.targets [] :=
      List.forall_mem_flatMap.mpr (hn ▸ hbodies)
    refine .bind (advances_evaluate h hsubject hosts).passesBut
      fun value m₁ hlater₁ _ => ?_
    refine .bind (.newScope (hosts.later hlater₁) .block) fun inner m₂ hlater₂ hinner => ?_
    obtain ⟨hosts₂, hinside⟩ := hinner
    refine .bind (.hoistBlock hosts₂.there fun d hd => (hbody _ hd).definition)
      fun _ m₃ hlater₃ hlexicals => ?_
    have hosts₃ := hosts₂.later hlater₃
    have hdeclares : ∀ s ∈ cases.flatMap SwitchCase.body, m₃.store.Declares inner s := by
      refine fun s hs => declares_of_mem (fun name hname => ?_) hlexicals hs
      have hbefore := hlater₂.resolves (hlater₁.resolves (hvars name hname))
      exact hlater₃.resolves (hinside.resolves hbefore)
    refine .bind (advances_selectCases h htests hosts₃).passesBut
      fun selected m₄ hlater₄ hselected => ?_
    have hrun := fun s => SwitchCase.mem_bodies_of_run (s := s) hselected
    exact advances_caseStatements h hn (fun s hs => hbody s (hrun s hs)) (hosts₃.later hlater₄)
      (fun s hs => (hdeclares s (hrun s hs)).later hlater₄) .undefined

end Conduct

end ProtoScript
