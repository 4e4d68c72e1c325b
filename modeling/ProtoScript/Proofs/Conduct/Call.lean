import ProtoScript.Proofs.Conduct.Loop
/-!
# The conduct of functions and texts

A call makes the scopes of the function, each as strict as the function, and binds its parameters in
a scope that declares them; evaluating a text does the same for the text.  No jump gets out of
either.
-/

namespace ProtoScript.Conduct

/-!
### The conduct of every statement

One case per kind of statement.
-/

variable {may : Abrupt → Prop} {n : Note} {e e' : Engine} {m : Machine} {scope : ScopeId}
  {labels : List String}

theorem advances_afterLabeled (E : Engines) {t : Targets} {label : String}
    {outcome : Except Abrupt Value}
    (houtcome : Completes ((t.labeled label).Passes may) (fun _ _ => True) outcome m) :
    Advances E (t.PassesBut may (· = .broke (some label))) m (fun _ =>
      match outcome with
      | .error (.broke (some target)) =>
        if target = label then pure .undefined else Eval.complete (.broke (some target))
      | outcome => Eval.resume outcome) fun _ _ => True := by
  split
  · rename_i target
    refine .ite (fun _ => .pure trivial) fun htarget => .complete ?_
    refine Targets.passes_of_labeled houtcome fun heq => htarget ?_
    cases heq
    rfl
  · rename_i hother
    cases outcome with
    | ok value => exact .pure trivial
    | error c =>
      refine .complete (Targets.passes_of_labeled houtcome fun heq => ?_)
      exact hother label (congrArg Except.error heq)

theorem prepared_of_declares {s : Store} {d : Declaration} (declaring : Bool)
    (h : s.Declares scope (.declaration d)) :
    Prepared s scope d.kind.isLexical declaring d.boundNames := by
  intro name hname
  by_cases hkind : d.kind.isLexical = true
  · rw [if_pos hkind]
    refine h.lexicals name ?_
    rw [Grammar.lexicalNames, if_pos hkind]
    exact hname
  · rw [if_neg hkind]
    refine fun _ => h.vars name ?_
    rw [Stmt.varNames, Declaration.varNames, if_neg hkind]
    exact hname

theorem advances_ifStatement (h : (supervisor may).Agrees n e e') {test : Expr} {consequent : Stmt}
    {alternate : Option Stmt} (hs : (Stmt.ifStmt test consequent alternate).Sound n.targets labels)
    (hosts : m.store.Hosts n.strictness scope)
    (hvars : ∀ name ∈ (Stmt.ifStmt test consequent alternate).varNames,
      m.store.Resolves scope name) :
    Advances h.engines (n.targets.Passes may) m
      (fun e => e.statement (.ifStmt test consequent alternate) scope labels) fun _ _ => True := by
  rw [Stmt.varNames] at hvars
  cases hs with
  | ifStmt htest hconsequent hconsequentAlone halternate halternateAlone =>
    refine .bind (advances_evaluate h htest hosts).passes fun test m₁ hlater _ => ?_
    have hosts₁ := hosts.later hlater
    refine .ite (fun _ => ?_) fun _ => ?_
    · have hconsequentVars : ∀ name ∈ consequent.varNames, m₁.store.Resolves scope name :=
        fun name hname => hlater.resolves (hvars name (List.mem_append_left _ hname))
      exact advances_execute h hconsequent hosts₁
        (declares_alone hconsequentVars hconsequentAlone)
    cases alternate with
    | none => exact .pure trivial
    | some alternate =>
      have halternateVars : ∀ name ∈ alternate.varNames, m₁.store.Resolves scope name := by
        intro name hname
        have hmem : name ∈ Stmt.varNamesOfOption (some alternate) := by
          rw [Stmt.varNamesOfOption]
          exact hname
        exact hlater.resolves (hvars name (List.mem_append_right _ hmem))
      exact advances_execute h (halternate alternate rfl) hosts₁
        (declares_alone halternateVars (halternateAlone alternate rfl))

/-- The head of a loop over keys finds the variable that it declares. -/
theorem headReady_of_declares {s : Store} {d : Declaration} {object : Expr} {body : Stmt}
    (hd : d.Sound)
    (hvars : ∀ name ∈ (Stmt.forInStmt (.declaration d) object body).varNames,
      s.Resolves scope name) : HeadReady n s scope (.declaration d) := by
  refine ⟨hd, fun hkind name hname => hvars name ?_⟩
  rw [Stmt.varNames]
  refine List.mem_append_left _ ?_
  rw [Declaration.varNames, hkind, if_neg Bool.false_ne_true]
  exact hname

theorem advances_forInTarget {note : Note} {target : ForInTarget} {object : Expr} {body : Stmt}
    (h : (supervisor may).Agrees
      (note.inside (.execute (.forInStmt target object body) scope labels)) e e')
    (hthrown : ∀ v, may (.thrown v))
    (hs : (Stmt.forInStmt target object body).Sound note.targets labels)
    (hosts : m.store.Hosts note.strictness scope)
    (hvars : ∀ name ∈ (Stmt.forInStmt target object body).varNames, m.store.Resolves scope name) :
    Advances h.engines (note.targets.PassesBut may (·.EndsAtLoop labels)) m
      (fun e => e.forInStatement target object body scope labels) fun _ _ => True := by
  cases hs with
  | forInStmt hdeclared _ hassigned hobject hbody halone =>
    have hb (hbodyVars : ∀ name ∈ body.varNames, m.store.Resolves scope name) :
        Looping (note.inside (.execute (.forInStmt target object body) scope labels)) body m.store
          scope :=
      ⟨hbody, halone, hosts, hbodyVars⟩
    cases target with
    | pattern p =>
      rw [Stmt.varNames] at hvars
      exact advances_forInStatement h rfl hthrown hobject ⟨hassigned p rfl, rfl⟩ (hb hvars)
    | declaration d =>
      have hready := headReady_of_declares (n := note.inside
        (.execute (.forInStmt (.declaration d) object body) scope labels)) (hdeclared d rfl) hvars
      rw [Stmt.varNames] at hvars
      have hbodyVars : ∀ name ∈ body.varNames, m.store.Resolves scope name :=
        fun name hname => hvars name (List.mem_append_right _ hname)
      exact advances_forInStatement h rfl hthrown hobject hready (hb hbodyVars)

/-- A sound statement that finds what it declares completes normally, or as it may; no jump gets out
of the statement that it is meant for. -/
theorem advances_statement {note : Note} {s : Stmt}
    (h : (supervisor may).Agrees (note.inside (.execute s scope labels)) e e')
    (hthrown : ∀ v, may (.thrown v)) (hs : s.Sound note.targets labels)
    (hosts : m.store.Hosts note.strictness scope) (hdeclares : m.store.Declares scope s) :
    Advances h.engines (note.targets.PassesBut may (s.ends labels)) m
      (fun e => e.statement s scope labels) fun _ _ => True := by
  have hvars := hdeclares.vars
  cases s with
  | empty => exact .pure trivial
  | debugger => exact .pure trivial
  | function d => exact .pure trivial
  | expression x =>
    cases hs with
    | expression hx => exact (advances_evaluate h hx hosts).passesBut
  | block body =>
    rw [Stmt.varNames] at hvars
    cases hs with
    | block hbody => exact (advances_block h hbody hosts hvars).unended fun _ => id
  | declaration d =>
    cases hs with
    | declaration hd =>
      have hnames := prepared_of_declares true hdeclares
      exact .bind (advances_declaration h hthrown hd hosts hnames).passesBut
        fun _ _ _ _ => .pure trivial
  | ifStmt test consequent alternate =>
    exact (advances_ifStatement h hs hosts hvars).unended fun _ => id
  | returnStmt value =>
    cases hs with
    | returnStmt inside hvalue =>
      refine .bind (advances_evaluateOption h hvalue hosts).passesBut fun value m₁ _ _ => ?_
      exact .complete (.inr ⟨inside, id⟩)
  | breakStmt label =>
    cases hs with
    | breakStmt inside => exact .complete (.inr ⟨inside, id⟩)
  | continueStmt label =>
    cases hs with
    | continueStmt inside => exact .complete (.inr ⟨inside, id⟩)
  | throwStmt value =>
    cases hs with
    | throwStmt hvalue =>
      refine .bind (advances_evaluate h hvalue hosts).passesBut fun value m₁ _ _ => ?_
      exact .complete (.inr ⟨trivial, id⟩)
  | tryStmt body handler finalizer =>
    exact (advances_tryStatement h hs hosts hvars).unended fun _ => id
  | switchStmt subject cases => exact advances_switchStatement h rfl hs hosts hvars
  | labeled label body =>
    rw [Stmt.varNames] at hvars
    cases hs with
    | labeled hbody halone =>
      have hexecute := advances_execute h hbody hosts (declares_alone hvars halone)
      refine .bind hexecute.attempt fun outcome m₁ _ houtcome => ?_
      exact advances_afterLabeled h.engines houtcome
  | whileStmt test body =>
    rw [Stmt.varNames] at hvars
    cases hs with
    | whileStmt htest hbody halone =>
      exact .rounds fun rounds =>
        advances_whileLoop h rfl htest ⟨hbody, halone, hosts, hvars⟩ rounds _
  | doWhileStmt body test =>
    rw [Stmt.varNames] at hvars
    cases hs with
    | doWhileStmt hbody halone htest =>
      exact .rounds fun rounds =>
        advances_doWhileLoop h rfl htest ⟨hbody, halone, hosts, hvars⟩ rounds _
  | forStmt init test update body => exact advances_forStatement h rfl hthrown hs hosts hvars
  | forInStmt target object body => exact advances_forInTarget h hthrown hs hosts hvars

/-! ### Functions and texts -/

theorem may_of_outside (hthrown : ∀ v, may (.thrown v)) {c : Abrupt}
    (hc : Targets.outside.Passes may c) : may c := by
  rcases hc with hc | hc
  · exact hc
  · cases c with
    | thrown value => exact hthrown value
    | returned value => cases hc
    | broke label => cases label <;> cases hc
    | continued label => cases label <;> cases hc

theorem advances_selfScope (E : Engines) (d : FunctionDef)
    (hscope : scope.index < m.store.scopes.size) (function : Value) :
    Advances E may m (fun _ => Engine.selfScope d scope function)
      fun outer m' => outer.index < m'.store.scopes.size := by
  unfold Engine.selfScope
  cases d.selfName? with
  | none => exact .pure hscope
  | some name =>
    have hosts : m.store.Hosts ⟨m.store.isStrict .global, m.store.isStrict scope, false⟩ scope :=
      ⟨hscope, (Bool.or_false _).symm, rfl⟩
    refine .bind (.newScope hosts .block) fun inner m₁ _ hinner => ?_
    refine .bind (.update ?_) fun _ m₂ hlater _ => .pure ?_
    · exact (Store.grows_declare _ _ _ _).trans (Store.grows_bind _ _ _ _)
    · exact Nat.lt_of_lt_of_le hinner.1.there hlater.size_le

theorem Bindable.of_parameter {s : Store} {d : FunctionDef} {fresh : Bool} (hd : d.Sound)
    (hnames : Prepared s scope fresh n.declaring d.parameterNames) {p : Pattern}
    (hp : p ∈ d.parameters) : Bindable n s scope fresh p := by
  cases hd with
  | intro hparameters hbody =>
    refine ⟨hparameters p hp, fun name hname => hnames name ?_⟩
    exact List.mem_flatMap.mpr ⟨p, hp, hname⟩

/-- The body of a function has a scope of its own if the parameters have one. -/
theorem advances_bodyScope (E : Engines) (d : FunctionDef)
    (hosts : m.store.Hosts n.strictness scope) :
    Advances E may m (fun _ => Engine.bodyScope d scope)
      fun inner m' => m'.store.Hosts n.strictness inner := by
  refine .bind (.newScope hosts .function) fun inner m₁ _ hinner => ?_
  refine .bind (.update (Store.grows_seedVariables _ _ _ _ _)) fun _ m₂ hlater _ => .pure ?_
  exact hinner.1.later hlater

variable (h : (supervisor may).Agrees n e e') (hthrown : ∀ v, may (.thrown v))

include h hthrown

/-- The scope for the body of a function is as strict as the function. -/
theorem advances_activate {d : FunctionDef} (hd : d.Sound) (hn : n.strictness.isStrict = d.strict)
    (hscript : m.store.isStrict .global = n.strictness.script)
    (hscope : scope.index < m.store.scopes.size) (function receiver : Value)
    (arguments : List Value) :
    Advances h.engines may m (fun e => e.activate d scope function receiver arguments)
      fun inner m' => m'.store.Hosts n.strictness inner := by
  have hglobal : 0 < m.store.scopes.size := Nat.zero_lt_of_lt hscope
  refine .bind (advances_selfScope _ d hscope function) fun outer m₁ hlater₁ houter => ?_
  have hscript₁ := (hlater₁.isStrict_eq hglobal).trans hscript
  rw [← hn]
  refine .bind (.openScope houter hscript₁ _) fun parameters m₂ _ hosts₂ => ?_
  have hthis : Advances h.engines may m₂ (fun _ => Engine.bindThis d receiver parameters)
      fun _ _ => True :=
    .growing h hosts₂.script hthrown fun _ hS => .bindThis hS d receiver parameters
  refine .bind hthis fun _ m₃ hlater₃ _ => ?_
  have hosts₃ := hosts₂.later hlater₃
  have hobject : Advances h.engines may m₃
      (fun _ => Engine.bindArguments d function arguments parameters) fun _ _ => True :=
    .growing h hosts₃.script hthrown fun _ hS =>
      .bindArguments hS d function arguments parameters
  refine .bind hobject fun _ m₄ hlater₄ _ => ?_
  have hosts₄ := hosts₃.later hlater₄
  refine .bind (.update (Store.grows_declareAll _ _ _ _)) fun _ m₅ hlater₅ hstore => ?_
  have hosts₅ := hosts₄.later hlater₅
  have hnames : Prepared m₅.store parameters true n.declaring d.parameterNames := by
    rw [hstore]
    exact prepared_declareAll hosts₄.there _ _ _
  have hparameters : Advances h.engines may m₅
      (fun e => e.bindParameters parameters d.parameters arguments) fun _ _ => True :=
    .routine h hosts₅.script hthrown fun hm =>
      .bindParameters (binds ⟨hm, hosts₅.script⟩ hthrown hosts₅ true)
        (fun _ hp => .of_parameter hd hnames hp) arguments
  refine .bind hparameters fun _ m₆ hlater₆ _ => ?_
  have hosts₆ := hosts₅.later hlater₆
  refine .ite (fun _ => ?_) fun _ => advances_bodyScope _ d hosts₆
  refine .bind (.update (Store.grows_modifyScope _ _ fun a => ⟨rfl, rfl, fun _ h => h⟩))
    fun _ m₇ hlater₇ _ => .pure ?_
  exact hosts₆.later hlater₇

theorem advances_callClosure {d : FunctionDef} (hd : d.Sound)
    (htargets : n.targets = .function) (hn : n.strictness.isStrict = d.strict)
    (hscript : m.store.isStrict .global = n.strictness.script)
    (hscope : scope.index < m.store.scopes.size) (function receiver : Value)
    (arguments : List Value) :
    Advances h.engines may m (fun e => e.callClosure d scope function receiver arguments)
      fun _ _ => True := by
  refine .bind (advances_activate h hthrown hd hn hscript hscope function receiver arguments)
    fun inner m₁ _ hosts₁ => ?_
  have hbody : ∀ s ∈ d.body, s.Sound n.targets [] := by
    rw [htargets]
    cases hd with
    | intro _ hbody => exact hbody
  refine .bind (.hoistBody hosts₁.there hosts₁.there fun d hd => (hbody _ hd).definition)
    fun _ m₂ hlater₂ hhoisted => ?_
  have hdeclares : ∀ s ∈ d.body, m₂.store.Declares inner s := fun s hs =>
    declares_of_mem (fun name hname => Store.resolves_of_hasOwnBinding (hhoisted.2 name hname))
      hhoisted.1 hs
  refine .bind (advances_statements h hbody (hosts₁.later hlater₂) hdeclares .undefined).attempt
    fun outcome m₃ _ _ => ?_
  split
  · exact .pure trivial
  · exact .complete (hthrown _)
  · exact .pure trivial

/-! ### Texts -/

/-- The scopes for a text: its code is as strict as noted, and what it declares with `var` is found
from where its statements stand. -/
theorem advances_textScopes {p : Program} {strict : Bool}
    (hn : n.strictness.isStrict = (strict || m.store.isStrict scope))
    (hscript : m.store.isStrict .global = n.strictness.script)
    (hscope : scope.index < m.store.scopes.size) :
    Advances h.engines may m (fun _ => Engine.textScopes p scope strict)
      fun scopes m' => scopes.1.index < m'.store.scopes.size ∧
        m'.store.Hosts n.strictness scopes.2 ∧
        ∀ s, m'.store.Extends s → ∀ name, s.hasOwnBinding scopes.1 name = true →
          s.Resolves scopes.2 name := by
  unfold Engine.textScopes
  cases strict with
  | true =>
    have hopen : Advances h.engines may m
        (fun _ => Eval.openScope scope .eval n.strictness.isStrict)
        fun inner m' => m'.store.Hosts n.strictness inner := .openScope hscope hscript .eval
    rw [hn, Bool.true_or] at hopen
    refine .bind hopen fun inner m₁ _ hosts₁ => .pure ⟨hosts₁.there, hosts₁, ?_⟩
    exact fun s _ name => Store.resolves_of_hasOwnBinding
  | false =>
    -- The variables go to a scope further out, which need not be the one around the statements.
    rw [Bool.false_or] at hn
    have hosts : m.store.Hosts n.strictness scope := ⟨hscope, hn.symm, hscript⟩
    refine .bind .read fun vars m₁ hlater₁ hvars => ?_
    obtain ⟨rfl, rfl⟩ := hvars
    refine .bind .read fun kind m₂ hlater₂ hkind => ?_
    obtain ⟨_, rfl⟩ := hkind
    refine .ite (fun _ => ?_) fun _ => ?_
    · exact advances_fault h hthrown hscript _
    · refine .bind (.newScope hosts .block) fun inner m₁ hlater₁ hinner => .pure ⟨?_, hinner.1, ?_⟩
      · exact Nat.lt_of_le_of_lt (m₂.store.index_varScope_le scope)
          (Nat.lt_of_lt_of_le hscope hlater₁.size_le)
      · intro s hs name hname
        exact (hs.inside hinner.2).resolves ((hlater₁.trans hs).resolves_of_varScope hname)

theorem advances_evaluateText {text : Value} {strict : Bool} (htargets : n.targets = .outside)
    (hn : n.strictness.isStrict =
      (Strictness.ofText text strict || strict || m.store.isStrict scope))
    (hscript : m.store.isStrict .global = n.strictness.script)
    (hscope : scope.index < m.store.scopes.size) :
    Advances h.engines may m (fun e => e.evaluateText text scope strict) fun _ _ => True := by
  cases text with
  | string source =>
    unfold Engine.evaluateText
    dsimp only
    unfold Strictness.ofText at hn
    dsimp only at hn
    split
    · exact advances_fault h hthrown hscript _
    · rename_i p hp
      rw [hp] at hn
      have hbody : ∀ s ∈ p.body, s.Sound n.targets [] := by
        rw [htargets]
        exact Program.sound_ofString hp
      have hstrict : n.strictness.isStrict = (strict || p.strict || m.store.isStrict scope) := by
        rw [hn, Bool.or_comm p.strict strict]
      refine .bind (advances_textScopes h hthrown hstrict hscript hscope)
        fun scopes m₁ _ hscopes => ?_
      obtain ⟨hvars, hosts₁, hresolves⟩ := hscopes
      refine .bind (.hoistBody hvars hosts₁.there fun d hd => (hbody _ hd).definition)
        fun _ m₂ hlater₂ hhoisted => ?_
      have hdeclares : ∀ s ∈ p.body, m₂.store.Declares scopes.2 s := fun s hs =>
        declares_of_mem (fun name hname => hresolves _ hlater₂ name (hhoisted.2 name hname))
          hhoisted.1 hs
      have hstatements :=
        advances_statements h hbody (hosts₁.later hlater₂) hdeclares .undefined
      rw [htargets] at hstatements
      exact hstatements.mono (fun _ => may_of_outside hthrown) fun _ _ _ h => h
  | _ => exact .pure trivial

end ProtoScript.Conduct
