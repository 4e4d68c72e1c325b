import ProtoScript.Proofs.Regime.Runs
import ProtoScript.Proofs.Regime.Scopes
/-!
# Names that a pattern initializes

What the binding of a pattern initializes, and how long that lasts.
-/

namespace ProtoScript

/-!
### Initialized names stay initialized

A name that is initialized in a scope stays so while code runs that begins no program: names are
declared afresh only in scopes that are new, and all else that is done to a binding gives it a value
or leaves it initialized.
-/

namespace Scope

variable {a : Scope} {name other : String}

/-- The name is bound and has had its first value. -/
def Initializes (a : Scope) (name : String) : Prop :=
  ∃ b, a.bindings.find? name = some b ∧ b.initialized = true

theorem Initializes.insert (h : a.Initializes name) {b : Binding} (hb : b.initialized = true)
    (other : String) :
    Scope.Initializes { a with bindings := a.bindings.insert other b } name := by
  unfold Initializes
  dsimp only
  rw [NameMap.find?_insert]
  split
  · exact ⟨b, rfl, hb⟩
  · exact h

theorem initializes_bind (a : Scope) (name : String) (value : Value) :
    (a.bind name value).Initializes name := by
  unfold Initializes Scope.bind
  dsimp only
  rw [NameMap.find?_insert, if_pos rfl]
  exact ⟨_, rfl, rfl⟩

/-- Variables are initialized when they are declared, and stay as they are after that. -/
theorem Initializes.declare (h : a.Initializes name) (other : String) :
    (a.declare other .variable).Initializes name := by
  unfold Scope.declare
  split
  · exact h
  · exact h.insert rfl other

theorem Initializes.declareAll (h : a.Initializes name) (names : List String) :
    (names.foldl (fun a other => a.declare other .variable) a).Initializes name := by
  induction names generalizing a with
  | nil => exact h
  | cons first rest ih => exact ih (h.declare first)

end Scope

theorem Binding.initialized_of_write {b written : Binding} {value : Value}
    (h : b.write value = .ok written) : written.initialized = true := by
  unfold Binding.write at h
  split at h
  · next hinitialized => split at h <;> cases h <;> exact hinitialized
  · cases h

namespace Store

variable {s : Store} {id : ScopeId} {name : String}

/-- The scope binds the name itself, and the name has had its first value. -/
def Initialized (s : Store) (id : ScopeId) (name : String) : Prop :=
  ∃ a, s.scope? id = some a ∧ a.Initializes name

theorem initialized_iff :
    s.Initialized id name ↔ ∃ b, s.binding? id name = some b ∧ b.initialized = true := by
  unfold Initialized Scope.Initializes binding?
  cases s.scope? id with
  | none => exact ⟨fun ⟨_, h, _⟩ => (Option.some_ne_none _ h.symm).elim,
      fun ⟨_, h, _⟩ => (Option.some_ne_none _ h.symm).elim⟩
  | some a => exact ⟨fun ⟨_, heq, h⟩ => Option.some.inj heq ▸ h, fun h => ⟨a, rfl, h⟩⟩

theorem Initialized.lookup_ne (h : s.Initialized id name) :
    s.lookup id name ≠ .error .uninitialized := by
  obtain ⟨b, hbinding, hinitialized⟩ := initialized_iff.mp h
  rw [lookup, resolve?_of_binding? hbinding]
  simp only [Binding.read, hinitialized, if_true]
  intro heq
  cases heq

theorem initialized_bind (hid : id.index < s.scopes.size) (name : String) (value : Value) :
    (s.bind id name value).Initialized id name := by
  obtain ⟨a, ha⟩ := scope?_eq_some_iff.mpr hid
  refine ⟨a.bind name value, ?_, a.initializes_bind name value⟩
  rw [Store.bind, scope?_modifyScope, if_pos rfl, ha]
  rfl

end Store

namespace Initialization

variable {s : Store} {id : ScopeId} {size : Nat} {host : Host}

def regime (id : ScopeId) (size : Nat) : Regime where
  inv s := size ≤ s.scopes.size
  keeps s s' := ∀ name, s.Initialized id name → s'.Initialized id name
  stands _ _ := True
  takes _ _ := True
  guards _ := False
  programs := False
  scopes := size

theorem initialized_perform (hid : id.index < size) {op : StoreOperation}
    (hs : size ≤ s.scopes.size) (hop : (regime id size).Permits s op) {name : String}
    (h : s.Initialized id name) : (s.perform op).Initialized id name := by
  obtain ⟨place, f, hchanges, -, hscopes⟩ := s.exists_scope?_perform op
  obtain ⟨a, ha, hinitializes⟩ := h
  have hafter := hscopes id (Nat.lt_of_lt_of_le hid hs)
  rw [ha] at hafter
  by_cases hplace : id = place
  · rw [if_pos hplace] at hafter
    refine ⟨f a, hafter, ?_⟩
    subst hplace
    cases hchanges with
    | none hbindings =>
      unfold Scope.Initializes
      rw [hbindings]
      exact hinitializes
    | shared _ _ hwrite => exact hinitializes.insert (Binding.initialized_of_write hwrite) _
    | assigned _ hwrite => exact hinitializes.insert (Binding.initialized_of_write hwrite) _
    | bound => exact hinitializes.insert rfl _
    | declared =>
      rcases hop.2 with rfl | hnew | ⟨hprograms, -⟩
      · exact hinitializes.declareAll _
      · exact absurd hid (Nat.not_lt.mpr hnew)
      · exact hprograms.elim
    | copied => exact absurd hid (Nat.not_lt.mpr hop)
    | arguments => exact absurd hid (Nat.not_lt.mpr hop.2)
  · rw [if_neg hplace] at hafter
    exact ⟨a, hafter, hinitializes⟩

theorem lawful_regime (hid : id.index < size) : (regime id size).Lawful where
  refl _ _ h := h
  trans h h' name hname := h' name (h name hname)
  perform hs hop :=
    ⟨Nat.le_trans hs (Store.size_le_perform _ _), fun _ => initialized_perform hid hs hop⟩
  stays _ _ := trivial
  global _ := trivial
  outward _ _ := trivial
  opens _ _ _ := trivial
  scopes_le hs := hs
  stillTakes _ _ := trivial
  makes _ _ := trivial

/-- Nothing that may be asked for breaks the regime where the host never comes back to the
interpreter. -/
theorem rules_regime (hhost : host.Courteous) (hdetached : host.Detached) (hid : id.index < size) :
    (regime id size).Rules host fun _ _ => False where
  lawful := lawful_regime hid
  admits task m _ hasks _ := by
    cases task with
    | native f receiver arguments =>
      unfold Regime.Admits
      split
      · trivial
      · exact fun _ _ => not_false
      · trivial
    | closure => trivial
    | _ => exact hasks
  suits _ _ := Regime.suits_of_detached (lawful_regime hid) hhost hdetached

theorem serves_engine (hhost : host.Courteous) (hdetached : host.Detached)
    (hid : id.index < size) (depth : Nat) :
    (regime id size).Serves ⟨engine host depth, engine host depth, rfl⟩ := by
  have hserves := (rules_regime hhost hdetached hid).serves depth
  rw [Supervisor.run_refusing_eq (fun _ _ => not_false) host depth] at hserves
  exact hserves

end Initialization

/-!
### What the binding of a pattern initializes

Binding a pattern, with the names that are given their first value on the way.  It is the same
binding; and the names are those that the pattern binds, if rests come last in its array patterns.
A rest elsewhere would end the pattern and leave the names behind it as they are.
-/

namespace Engine

open Eval

/-! ### Binding with a record -/

/-- Binds the elements of an array pattern, and gives the names that are initialized. -/
def recordElements (record : Pattern → Value → Eval (List String)) (source : Value) (size : Nat)
    (i : Nat) : List (Option Pattern) → Eval (List String)
  | [] => return []
  | none :: elements => recordElements record source size (i + 1) elements
  | some (.rest target) :: _ => do
    let rest ← newFullArray (← elementsFrom source i (size - i))
    record target rest
  | some target :: elements => do
    let element ← getMember source (toString i)
    let names ← record target element
    return names ++ (← recordElements record source size (i + 1) elements)

/-- Binds the properties of an object pattern, and gives the names that are initialized. -/
def recordProperties (e : Engine) (record : Pattern → Value → Eval (List String)) (source : Value)
    (scope : ScopeId) : List PatternProperty → Eval (List String)
  | [] => return []
  | .shorthand name :: rest => do
    let value ← getMember source name
    let names ← record (.identifier name) value
    return names ++ (← e.recordProperties record source scope rest)
  | .keyed key target :: rest => do
    let key ← e.propertyKey key scope
    let value ← getMember source key
    let names ← record target value
    return names ++ (← e.recordProperties record source scope rest)

/-- Binds a pattern to a value in a scope, and gives the names that are initialized.  `record` does
that for the parts of the pattern. -/
def recordPattern (e : Engine) (record : Pattern → Value → Eval (List String)) (pattern : Pattern)
    (value : Value) (scope : ScopeId) : Eval (List String) := do
  match pattern with
  | .identifier name =>
    update fun s => s.bind scope name value
    return [name]
  | .member target =>
    let reference ← e.reference target scope
    putReference reference value scope
    return []
  | .withDefault target default =>
    let value ← if value.isUndefined then e.valueFor target default scope else pure value
    record target value
  | .array elements =>
    if value.isNullish then fault (.notIterable value)
    else
      let source ← toObject value
      let size ← getMember source "length"
      recordElements record source (Number.toIndex size.toNumber) 0 elements
  | .object properties =>
    if value.isNullish then fault (.notDestructurable value)
    else e.recordProperties record value scope properties
  | .rest target => record target value

/-- Initializes the names of a pattern in a scope, and gives those that have been initialized. -/
def recordBinding (host : Host) (scope : ScopeId) : Nat → Pattern → Value → Eval (List String)
  | 0, _, _ => exhausted
  | depth + 1, pattern, value =>
    (engine host depth).recordPattern (recordBinding host scope depth) pattern value scope

/-! ### It is the same binding -/

section

variable {e : Engine} {record : Pattern → Value → Eval (List String)} {scope : ScopeId}
  (hrecord : ∀ p v, (do let _ ← record p v; return .undefined) = e.bind p v scope true)

include hrecord

theorem forget_recordElements (source : Value) (size i : Nat) (elements : List (Option Pattern)) :
    (do let _ ← recordElements record source size i elements; return ()) =
      e.bindElements source size scope true i elements := by
  induction elements generalizing i with
  | nil => rfl
  | cons element rest ih =>
    cases element with
    | none => exact ih (i + 1)
    | some target =>
      have hplain : (do
          let element ← getMember source (toString i)
          let names ← record target element
          let others ← recordElements record source size (i + 1) rest
          let _ ← (pure (names ++ others) : Eval (List String))
          return ()) = (do
          let element ← getMember source (toString i)
          let _ ← e.bind target element scope true
          e.bindElements source size scope true (i + 1) rest : Eval Unit) := by
        simp only [← hrecord, ← ih, bind_assoc, pure_bind]
      cases target with
      | rest target =>
        simp only [recordElements, bindElements, ← hrecord, bind_assoc, pure_bind]
      | _ => simpa only [recordElements, bindElements, bind_assoc, pure_bind] using hplain

theorem forget_recordProperties (source : Value) (ps : List PatternProperty) :
    (do let _ ← e.recordProperties record source scope ps; return ()) =
      e.bindProperties source scope true ps := by
  induction ps with
  | nil => rfl
  | cons p rest ih =>
    cases p with
    | shorthand name =>
      simp only [recordProperties, bindProperties, ← hrecord, ← ih, bind_assoc, pure_bind]
    | keyed key target =>
      simp only [recordProperties, bindProperties, ← hrecord, ← ih, bind_assoc, pure_bind]

theorem forget_recordPattern (p : Pattern) (value : Value) :
    (do let _ ← e.recordPattern record p value scope; return ()) =
      e.bindPattern p value scope true := by
  cases p with
  | identifier name => rfl
  | member target => simp only [recordPattern, bindPattern, bind_assoc, pure_bind, bind_pure_unit]
  | withDefault target default =>
    simp only [recordPattern, bindPattern, ← hrecord, bind_assoc, pure_bind]
    split <;> simp only [bind_assoc]
  | array elements =>
    unfold recordPattern bindPattern
    dsimp only
    split
    · rfl
    · simp only [bind_assoc, forget_recordElements hrecord]
  | object properties =>
    unfold recordPattern bindPattern
    dsimp only
    split
    · rfl
    · exact forget_recordProperties hrecord value properties
  | rest target => simp only [recordPattern, bindPattern, ← hrecord, bind_assoc, pure_bind]

end

/-- Binding a pattern is binding it with the record, which is dropped. -/
theorem forget_recordBinding (host : Host) (scope : ScopeId) (depth : Nat) (p : Pattern)
    (value : Value) :
    (do let _ ← recordBinding host scope depth p value; return Value.undefined) =
      runTask host depth (.bind p value scope true) := by
  induction depth generalizing p value with
  | zero => rfl
  | succ depth ih =>
    have hpattern := forget_recordPattern (e := engine host depth) ih p value
    change _ = (do (engine host depth).bindPattern p value scope true; return Value.undefined)
    rw [← hpattern]
    simp only [recordBinding, bind_assoc, pure_bind]

end Engine

/-! ### The names -/

def Store.AllInitialized (s : Store) (scope : ScopeId) (names : List String) : Prop :=
  ∀ name ∈ names, s.Initialized scope name

namespace Initialization

open Engine Regime

variable {scope : ScopeId} {size : Nat} {E : Engines} {m : Machine}
  {record : Pattern → Value → Eval (List String)} {value : Value}

def Records (scope : ScopeId) (expected names : List String) (m : Machine) : Prop :=
  names = expected ∧ m.store.AllInitialized scope expected

theorem Records.append {expected expected' names names' : List String} {m m' : Machine}
    (h : Records scope expected names m) (hkeeps : (regime scope size).keeps m.store m'.store)
    (h' : Records scope expected' names' m') :
    Records scope (expected ++ expected') (names ++ names') m' := by
  refine ⟨by rw [h.1, h'.1], fun name hname => ?_⟩
  rcases List.mem_append.mp hname with hfirst | hrest
  · exact hkeeps name (h.2 name hfirst)
  · exact h'.2 name hrest

theorem records_nil : Records scope [] [] m := ⟨rfl, fun _ h => absurd h List.not_mem_nil⟩

section

variable (hscope : scope.index < size) (h : (regime scope size).Serves E)
  (hrecord : ∀ p v m, p.RestsLast → (regime scope size).Abides E m (fun _ => record p v)
    (Records scope p.boundNames))

include hscope h hrecord

theorem abides_recordElements (source : Value) (count i : Nat) {elements : List (Option Pattern)}
    (hparts : ∀ q, some q ∈ elements → q.RestsLast)
    (hlast : ∀ before target after, elements = before ++ some (.rest target) :: after →
      after = []) :
    (regime scope size).Abides E m (fun _ => recordElements record source count i elements)
      (Records scope (Pattern.boundNamesOfElements elements)) := by
  have hR := lawful_regime hscope
  induction elements generalizing m i with
  | nil => exact .pure hR records_nil
  | cons element rest ih =>
    have hrest {m : Machine} (i : Nat) := ih (m := m) i
      (fun q hq => hparts q (List.mem_cons_of_mem _ hq))
      fun before target after heq => hlast (element :: before) target after (by rw [heq]; rfl)
    cases element with
    | none => exact hrest (i + 1)
    | some target =>
      have htarget := hparts target List.mem_cons_self
      have hplain : (regime scope size).Abides E m (fun _ => do
          let element ← Eval.getMember source (toString i)
          let names ← record target element
          return names ++ (← recordElements record source count (i + 1) rest))
          (Records scope (target.boundNames ++ Pattern.boundNamesOfElements rest)) := by
        have hget : (regime scope size).Abides E m
            (fun _ => Eval.getMember source (toString i)) Anything :=
          .ordinary hR h fun _ hS => .getMember hS source _
        refine .bind hR hget fun element m₁ _ _ => ?_
        refine .bind hR (hrecord target element m₁ htarget) fun names m₂ _ hnames => ?_
        exact .bind hR (hrest (i + 1)) fun others m₃ hkeeps hothers =>
          .pure hR (hnames.append hkeeps hothers)
      cases target with
      | rest target =>
        obtain rfl := hlast [] target rest rfl
        have hvalues : (regime scope size).Abides E m (fun _ => do
            Eval.newFullArray (← elementsFrom source i (count - i))) Anything :=
          .ordinary hR h fun _ hS =>
            .bind (.elementsFrom hS source i _) fun values => .newFullArray hS values
        have hnames : Pattern.boundNamesOfElements [some (.rest target)] = target.boundNames := by
          simp only [Pattern.boundNamesOfElements, Pattern.boundNames, List.append_nil]
        rw [hnames]
        have hbound : (regime scope size).Abides E m (fun _ => (do
            Eval.newFullArray (← elementsFrom source i (count - i))) >>= record target)
            (Records scope target.boundNames) :=
          .bind hR hvalues fun array m₁ _ _ =>
            hrecord target array m₁ (htarget.part (List.mem_singleton.mpr rfl))
        simpa only [recordElements, bind_assoc] using hbound
      | _ => exact hplain

theorem abides_recordProperties (source : Value) {ps : List PatternProperty}
    (hparts : ∀ p ∈ ps, p.target.RestsLast) :
    (regime scope size).Abides E m (fun e => e.recordProperties record source scope ps)
      (Records scope (Pattern.boundNamesOfProperties ps)) := by
  have hR := lawful_regime hscope
  induction ps generalizing m with
  | nil => exact .pure hR records_nil
  | cons p rest ih =>
    have hrest {m : Machine} := ih (m := m) fun q hq => hparts q (List.mem_cons_of_mem _ hq)
    have hp := hparts p List.mem_cons_self
    have hget (key : String) {m : Machine} :
        (regime scope size).Abides E m (fun _ => Eval.getMember source key) Anything :=
      .ordinary hR h fun _ hS => .getMember hS source key
    have hboth (target : Pattern) (htarget : target.RestsLast) (value : Value) {m : Machine} :
        (regime scope size).Abides E m (fun e => do
          let names ← record target value
          return names ++ (← e.recordProperties record source scope rest))
          (Records scope (target.boundNames ++ Pattern.boundNamesOfProperties rest)) := by
      refine .bind hR (hrecord target value m htarget) fun names m₁ _ hnames => ?_
      exact .bind hR hrest fun others m₂ hkeeps hothers =>
        .pure hR (hnames.append hkeeps hothers)
    cases p with
    | shorthand name =>
      have hnames : PatternProperty.boundNames (.shorthand name) =
          Pattern.boundNames (.identifier name) := by
        rw [PatternProperty.boundNames, Pattern.boundNames]
      rw [Pattern.boundNamesOfProperties, hnames]
      exact .bind hR (hget name) fun value m₁ _ _ => hboth (.identifier name) hp value
    | keyed key target =>
      rw [Pattern.boundNamesOfProperties, PatternProperty.boundNames]
      have hkey : (regime scope size).Abides E m (fun e => e.propertyKey key scope) Anything :=
        .routine hR h trivial (.propertyKey (evaluates hR scope) fun _ _ => trivial)
      refine .bind hR hkey fun key m₁ _ _ => .bind hR (hget key) fun value m₂ _ _ => ?_
      exact hboth target hp value

theorem abides_recordPattern {p : Pattern} (hp : p.RestsLast) (value : Value) :
    (regime scope size).Abides E m (fun e => e.recordPattern record p value scope)
      (Records scope p.boundNames) := by
  have hR := lawful_regime hscope
  have hE := evaluates hR scope
  cases p with
  | identifier name =>
    rw [Pattern.boundNames]
    refine .intro fun hm => .bind hR (.update (leads_bind hR trivial name value))
      fun _ m₁ _ hstore => .pure hR ⟨rfl, fun other hother => ?_⟩
    cases List.mem_singleton.mp hother
    rw [hstore]
    exact Store.initialized_bind (Nat.lt_of_lt_of_le hscope hm) name value
  | member target =>
    rw [Pattern.boundNames]
    have hput : (regime scope size).Abides E m (fun e => do
        let reference ← e.reference target scope
        Eval.putReference reference value scope) Anything :=
      .routine hR h trivial (.bind (.reference hE trivial)
        fun reference => .putReference hE.toAssigns reference value)
    have hrecorded : (regime scope size).Abides E m (fun e => (do
        let reference ← e.reference target scope
        Eval.putReference reference value scope) >>= fun _ => pure []) (Records scope []) :=
      .bind hR hput fun _ _ _ _ => .pure hR records_nil
    simpa only [recordPattern, bind_assoc] using hrecorded
  | withDefault target default =>
    rw [Pattern.boundNames]
    have htarget := hp.part (List.mem_singleton.mpr rfl)
    have hvalue : (regime scope size).Abides E m (fun e => e.valueFor target default scope)
        Anything :=
      .routine hR h trivial (.valueFor hE target trivial)
    exact .ite (fun _ => .bind hR hvalue fun value m₁ _ _ => hrecord target value m₁ htarget)
      fun _ => hrecord target value m htarget
  | array elements =>
    rw [Pattern.boundNames]
    refine .ite (fun _ => abides_fault hR h _) fun _ => ?_
    refine .bind hR (abides_toObject hR h value) fun source m₁ _ _ => ?_
    have hget : (regime scope size).Abides E m₁ (fun _ => Eval.getMember source "length")
        Anything :=
      .ordinary hR h fun _ hS => .getMember hS source _
    refine .bind hR hget fun count m₂ _ _ => ?_
    refine abides_recordElements hscope h hrecord source _ 0 (fun q hq => ?_)
      fun before target after heq => ?_
    · exact hp.part (List.reduceOption_mem_iff.mpr hq)
    · subst heq
      exact hp.last
  | object properties =>
    rw [Pattern.boundNames]
    refine .ite (fun _ => abides_fault hR h _) fun _ => ?_
    exact abides_recordProperties hscope h hrecord value fun p hmem =>
      hp.part (List.mem_map_of_mem hmem)
  | rest target =>
    rw [Pattern.boundNames]
    exact hrecord target value m (hp.part (List.mem_singleton.mpr rfl))

end

/-- Binding a pattern initializes exactly the names that the pattern binds. -/
theorem abides_recordBinding {host : Host} (hhost : host.Courteous) (hdetached : host.Detached)
    (hscope : scope.index < size) (depth : Nat) (p : Pattern) (value : Value) (m : Machine)
    (hp : p.RestsLast) :
    (regime scope size).Abides E m (fun _ => recordBinding host scope depth p value)
      (Records scope p.boundNames) := by
  induction depth generalizing p value m with
  | zero => exact .exhausted
  | succ depth ih =>
    intro hm
    obtain ⟨-, hends⟩ := abides_recordPattern hscope (serves_engine hhost hdetached hscope depth)
      (fun p v m hp => ih p v m hp) hp value hm
    exact ⟨rfl, hends⟩

end Initialization

end ProtoScript
