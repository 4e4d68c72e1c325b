import ProtoScript.Grammar.Program
import ProtoScript.Proofs.Syntax.Sound
/-!
# What grammar rules yield

A rule yields trees with a property if every tree that it ends with has the property.  The trees
that the grammar's goals are to yield are sound in the place that the context describes.
-/

namespace ProtoScript

/-!
### The steps of grammar rules

What the elementary rules do at a stream.
-/

theorem bind_except_eq_ok {ε α β : Type} {x : Except ε α} {f : α → Except ε β} {b : β}
    (h : x >>= f = .ok b) : ∃ a, x = .ok a ∧ f a = .ok b := by
  cases x with
  | error e => cases h
  | ok a => exact ⟨a, rfl, h⟩

theorem exists_of_mem_mapM {ε α β : Type} {f : α → Except ε β} {xs : List α} {ys : List β}
    (h : xs.mapM f = .ok ys) {y : β} (hy : y ∈ ys) : ∃ x ∈ xs, f x = .ok y := by
  induction xs generalizing ys with
  | nil =>
    cases h
    cases hy
  | cons x xs ih =>
    rw [List.mapM_cons] at h
    obtain ⟨first, hfirst, h⟩ := bind_except_eq_ok h
    obtain ⟨others, hothers, h⟩ := bind_except_eq_ok h
    cases h
    rcases List.mem_cons.mp hy with rfl | hy
    · exact ⟨x, List.mem_cons_self, hfirst⟩
    · obtain ⟨x', hx', hread⟩ := ih hothers hy
      exact ⟨x', List.mem_cons_of_mem x hx', hread⟩

namespace Grammar

variable {α β : Type}

theorem bind_eq_ok {p : Parser α} {f : α → Parser β} {s u : TokenStream} {b : β}
    (h : (p >>= f) s = .ok b u) : ∃ a t, p s = .ok a t ∧ f a t = .ok b u := by
  simp only [Bind.bind, EStateM.bind] at h
  cases hp : p s with
  | ok a t =>
    rw [hp] at h
    exact ⟨a, t, rfl, h⟩
  | error e t =>
    rw [hp] at h
    cases h

theorem bind_of_ok {p : Parser α} {f : α → Parser β} {s t : TokenStream} {a : α}
    (h : p s = .ok a t) : (p >>= f) s = f a t := by
  simp only [Bind.bind, EStateM.bind, h]

theorem bind_of_error {p : Parser α} {f : α → Parser β} {s t : TokenStream} {e : SyntaxError}
    (h : p s = .error e t) : (p >>= f) s = .error e t := by
  simp only [Bind.bind, EStateM.bind, h]

theorem advance_ne_outOfFuel {s t : TokenStream} {e : SyntaxError}
    (h : Parser.advance s = .error e t) : e ≠ .outOfFuel := by
  unfold Parser.advance at h
  split at h
  · cases h
  · split at h
    · cases h
    · cases h
      exact nofun

theorem ahead_advance {s t : TokenStream} (h : Parser.advance s = .ok () t) : t.ahead = none := by
  unfold Parser.advance at h
  split at h
  · cases h
    rfl
  · next hahead =>
    split at h
    · cases h
      exact hahead
    · cases h

/-- Looking at the token behind the current one reads it and makes the old one current again. -/
theorem peek_eq (s : TokenStream) : Parser.peek s =
    match Parser.advance s with
    | .ok _ t => .ok (t.current, t.afterBreak)
        { t with current := s.current, afterBreak := s.afterBreak,
                 ahead := some (t.current, t.afterBreak) }
    | .error e t => .error e t := by
  have hpeek : Parser.peek s = (Parser.advance >>= fun _ t => .ok (t.current, t.afterBreak)
      { t with current := s.current, afterBreak := s.afterBreak,
               ahead := some (t.current, t.afterBreak) }) s := rfl
  rw [hpeek]
  simp only [Bind.bind, EStateM.bind]
  cases Parser.advance s <;> rfl

theorem current_bind (f : Token → Parser β) (s : TokenStream) :
    (Parser.current >>= f) s = f s.current s := rfl

theorem afterBreak_bind (f : Bool → Parser β) (s : TokenStream) :
    (Parser.afterBreak >>= f) s = f s.afterBreak s := rfl

theorem atSign_bind (sign : Punctuator) (f : Bool → Parser β) (s : TokenStream) :
    (Parser.atSign sign >>= f) s = f (s.current.sign? == some sign) s := rfl

theorem atWord_bind (word : Keyword) (f : Bool → Parser β) (s : TokenStream) :
    (Parser.atWord word >>= f) s = f (s.current.word? == some word) s := rfl

theorem setStrict_bind (strict : Bool) (f : Unit → Parser β) (s : TokenStream) :
    (Parser.setStrict strict >>= f) s = f () { s with strict := strict } := rfl

theorem currentName?_bind (f : Option String → Parser β) (s : TokenStream) :
    (currentName? >>= f) s = f (nameOfToken? s.strict s.current) s := rfl

theorem eat_bind (sign : Punctuator) (f : Bool → Parser β) : (Parser.eat sign >>= f) =
    (Parser.atSign sign >>= fun found =>
      if found = true then Parser.advance >>= fun _ => f true else f false) := by
  unfold Parser.eat
  rw [bind_assoc]
  refine congrArg _ (funext fun found => ?_)
  cases found
  · exact pure_bind _ _
  · exact bind_assoc ..

theorem eatWord_bind (word : Keyword) (f : Bool → Parser β) : (Parser.eatWord word >>= f) =
    (Parser.atWord word >>= fun found =>
      if found = true then Parser.advance >>= fun _ => f true else f false) := by
  unfold Parser.eatWord
  rw [bind_assoc]
  refine congrArg _ (funext fun found => ?_)
  cases found
  · exact pure_bind _ _
  · exact bind_assoc ..

theorem advance_of_peek {s t : TokenStream} {found : Token × Bool}
    (h : Parser.peek s = .ok found t) : ∃ u, Parser.advance s = .ok () u ∧
      t = { u with current := s.current, afterBreak := s.afterBreak,
                   ahead := some (u.current, u.afterBreak) } := by
  rw [peek_eq] at h
  cases ha : Parser.advance s with
  | error e u =>
    rw [ha] at h
    cases h
  | ok a u =>
    rw [ha] at h
    cases h
    exact ⟨u, rfl, rfl⟩

theorem strict_advance {s t : TokenStream} (h : Parser.advance s = .ok () t) :
    t.strict = s.strict := by
  unfold Parser.advance at h
  split at h
  · cases h
    rfl
  · split at h
    · cases h
      rfl
    · cases h

theorem current_peek {s t : TokenStream} {found : Token × Bool}
    (h : Parser.peek s = .ok found t) : t.current = s.current := by
  obtain ⟨u, -, rfl⟩ := advance_of_peek h
  rfl

end Grammar

/-! ### Expressions read again as patterns -/

/-- Where a property of an object pattern comes from when its literal is read again: from a name, a
name with the default that covers it, or a value that the relation takes to the target. -/
inductive PatternProperty.ComesFrom (r : Expr → Pattern → Prop) : Property → PatternProperty → Prop
  | name (name : String) : ComesFrom r (.shorthand name none) (.shorthand name)
  | cover (name : String) (cover : Expr) : ComesFrom r (.shorthand name (some cover))
    (.keyed (.identifier name) (.withDefault (.identifier name) cover))
  | keyed (key : PropertyKey) {value : Expr} {target : Pattern} : r value target →
    ComesFrom r (.keyed key value) (.keyed key target)

theorem Expr.toPattern_eq_ok {strict : Bool} {x : Expr} {q : Pattern}
    (h : x.toPattern strict = .ok q) :
    (∃ name, x = .identifier name ∧ q = .identifier name) ∨
    (∃ object key, x = .member object key ∧ q = .member x) ∨
    (∃ target value p, x = .assign none target value ∧ target.toPattern strict = .ok p ∧
      q = .withDefault p value) ∨
    (∃ elements ps, x = .array elements ∧ Expr.toPatternElements strict elements = .ok ps ∧
      q = .array ps) ∨
    ∃ properties ps, x = .object properties ∧
      Expr.toPatternProperties strict properties = .ok ps ∧ q = .object ps := by
  unfold Expr.toPattern at h
  split at h
  · split at h
    · cases h
    · cases h
      exact .inl ⟨_, rfl, rfl⟩
  · cases h
    exact .inr (.inl ⟨_, _, rfl, rfl⟩)
  · obtain ⟨p, hp, h⟩ := bind_except_eq_ok h
    cases h
    exact .inr (.inr (.inl ⟨_, _, p, rfl, hp, rfl⟩))
  · obtain ⟨ps, hps, h⟩ := bind_except_eq_ok h
    cases h
    exact .inr (.inr (.inr (.inl ⟨_, ps, rfl, hps, rfl⟩)))
  · obtain ⟨ps, hps, h⟩ := bind_except_eq_ok h
    cases h
    exact .inr (.inr (.inr (.inr ⟨_, ps, rfl, hps, rfl⟩)))
  · cases h

theorem Expr.toPattern_ne_rest {strict : Bool} {x : Expr} {target : Pattern} :
    x.toPattern strict ≠ .ok (.rest target) := by
  intro h
  rcases Expr.toPattern_eq_ok h with ⟨_, -, h⟩ | ⟨_, _, -, h⟩ | ⟨_, _, _, -, -, h⟩ |
    ⟨_, _, -, -, h⟩ | ⟨_, _, -, -, h⟩ <;> cases h

theorem Expr.exists_of_mem_toPatternElements {strict : Bool} {elements : List (Option Expr)}
    {ps : List (Option Pattern)} (h : Expr.toPatternElements strict elements = .ok ps) {p : Pattern}
    (hp : some p ∈ ps) : ∃ x, some x ∈ elements ∧ x.toPattern strict = .ok p := by
  induction elements generalizing ps with
  | nil =>
    unfold Expr.toPatternElements at h
    cases h
    cases hp
  | cons element rest ih =>
    cases element with
    | none =>
      unfold Expr.toPatternElements at h
      obtain ⟨others, hothers, h⟩ := bind_except_eq_ok h
      cases h
      obtain ⟨x, hx, hread⟩ := ih hothers ((List.mem_cons.mp hp).resolve_left nofun)
      exact ⟨x, List.mem_cons_of_mem _ hx, hread⟩
    | some first =>
      unfold Expr.toPatternElements at h
      obtain ⟨target, htarget, h⟩ := bind_except_eq_ok h
      obtain ⟨others, hothers, h⟩ := bind_except_eq_ok h
      cases h
      rcases List.mem_cons.mp hp with heq | hp
      · cases heq
        exact ⟨first, List.mem_cons_self, htarget⟩
      · obtain ⟨x, hx, hread⟩ := ih hothers hp
        exact ⟨x, List.mem_cons_of_mem _ hx, hread⟩

theorem Expr.exists_of_mem_toPatternProperties {strict : Bool} {properties : List Property}
    {ps : List PatternProperty} (h : Expr.toPatternProperties strict properties = .ok ps)
    {p : PatternProperty} (hp : p ∈ ps) :
    ∃ property ∈ properties, property.toPattern strict = .ok p := by
  induction properties generalizing ps with
  | nil =>
    unfold Expr.toPatternProperties at h
    cases h
    cases hp
  | cons first rest ih =>
    unfold Expr.toPatternProperties at h
    obtain ⟨target, htarget, h⟩ := bind_except_eq_ok h
    obtain ⟨others, hothers, h⟩ := bind_except_eq_ok h
    cases h
    rcases List.mem_cons.mp hp with rfl | hp
    · exact ⟨first, List.mem_cons_self, htarget⟩
    · obtain ⟨property, hproperty, hread⟩ := ih hothers hp
      exact ⟨property, List.mem_cons_of_mem _ hproperty, hread⟩

theorem Property.comesFrom_of_toPattern {strict : Bool} {property : Property} {p : PatternProperty}
    {r : Expr → Pattern → Prop} (h : property.toPattern strict = .ok p)
    (hr : ∀ key value target, property = .keyed key value → value.toPattern strict = .ok target →
      r value target) : p.ComesFrom r property := by
  unfold Property.toPattern at h
  split at h
  · cases h
    exact .name _
  · cases h
    exact .cover _ _
  · obtain ⟨target, htarget, h⟩ := bind_except_eq_ok h
    cases h
    exact .keyed _ (hr _ _ target rfl htarget)

/-- Induction on an expression that can be read again, along with its pattern. -/
theorem Expr.toPattern_induction {strict : Bool} {motive : Expr → Pattern → Prop}
    (identifier : ∀ name, motive (.identifier name) (.identifier name))
    (member : ∀ object key, motive (.member object key) (.member (.member object key)))
    (withDefault : ∀ target value p, motive target p →
      motive (.assign none target value) (.withDefault p value))
    (array : ∀ elements ps, (∀ p, some p ∈ ps → ∃ x, some x ∈ elements ∧ motive x p) →
      motive (.array elements) (.array ps))
    (object : ∀ properties ps, (∀ p ∈ ps, ∃ property ∈ properties, p.ComesFrom motive property) →
      motive (.object properties) (.object ps))
    {x : Expr} {p : Pattern} (h : x.toPattern strict = .ok p) : motive x p := by
  induction hsize : sizeOf x using Nat.strongRecOn generalizing x p with
  | ind size ih =>
  subst hsize
  rcases Expr.toPattern_eq_ok h with ⟨name, rfl, rfl⟩ | ⟨base, key, rfl, rfl⟩ |
    ⟨target, value, q, rfl, hq, rfl⟩ | ⟨elements, ps, rfl, hps, rfl⟩ |
    ⟨properties, ps, rfl, hps, rfl⟩
  · exact identifier name
  · exact member base key
  · have hlt : sizeOf target < sizeOf (Expr.assign none target value) := by
      simp only [Expr.assign.sizeOf_spec]
      omega
    exact withDefault target value q (ih _ hlt hq rfl)
  · refine array elements ps fun q hq => ?_
    obtain ⟨x, hx, hread⟩ := Expr.exists_of_mem_toPatternElements hps hq
    have hlt : sizeOf x < sizeOf (Expr.array elements) := by
      have hmem := List.sizeOf_lt_of_mem hx
      simp only [Option.some.sizeOf_spec] at hmem
      simp only [Expr.array.sizeOf_spec]
      omega
    exact ⟨x, hx, ih _ hlt hread rfl⟩
  · refine object properties ps fun q hq => ?_
    obtain ⟨property, hproperty, hread⟩ := Expr.exists_of_mem_toPatternProperties hps hq
    refine ⟨property, hproperty, Property.comesFrom_of_toPattern hread ?_⟩
    rintro key value target rfl htarget
    have hlt : sizeOf value < sizeOf (Expr.object properties) := by
      have hmem := List.sizeOf_lt_of_mem hproperty
      simp only [Property.keyed.sizeOf_spec] at hmem
      simp only [Expr.object.sizeOf_spec]
      omega
    exact ih _ hlt htarget rfl

theorem Grammar.toParameters_eq_ok {strict : Bool} {elements : List Expr} {rest : Option Pattern}
    {list : List Pattern} (h : toParameters strict elements rest = .ok list) :
    ∃ targets, elements.mapM (Expr.toPattern strict) = .ok targets ∧
      targets.any Pattern.isMember = false ∧ list = targets ++ rest.toList.map .rest := by
  unfold toParameters at h
  obtain ⟨targets, htargets, h⟩ := bind_except_eq_ok h
  split at h
  · cases h
  · next hmember =>
    cases h
    exact ⟨targets, htargets, Bool.eq_false_iff.mpr hmember, rfl⟩

/-- The parameters of an arrow function are its elements read again, none of them a member
expression, and the rest behind them. -/
theorem Grammar.exists_of_mem_toParameters {strict : Bool} {elements : List Expr}
    {rest : Option Pattern} {list : List Pattern} (h : toParameters strict elements rest = .ok list)
    {p : Pattern} (hp : p ∈ list) :
    (∃ x ∈ elements, x.toPattern strict = .ok p ∧ p.isMember = false) ∨
      ∃ q ∈ rest, p = .rest q := by
  obtain ⟨targets, htargets, hmember, rfl⟩ := toParameters_eq_ok h
  rcases List.mem_append.mp hp with hp | hp
  · obtain ⟨x, hx, hread⟩ := exists_of_mem_mapM htargets hp
    exact .inl ⟨x, hx, hread, Bool.eq_false_iff.mpr (List.any_eq_false.mp hmember p hp)⟩
  · obtain ⟨q, hq, rfl⟩ := List.mem_map.mp hp
    exact .inr ⟨q, Option.mem_toList.mp hq, rfl⟩

/-! ### Yields and goals -/

namespace Grammar

variable {α β : Type}

def Yields (p : Parser α) (Q : α → Prop) : Prop := ∀ s v s', p s = .ok v s' → Q v

namespace Yields

theorem any (p : Parser α) : Yields p fun _ => True := fun _ _ _ _ => trivial

theorem mono {p : Parser α} {Q R : α → Prop} (h : Yields p Q) (hQ : ∀ a, Q a → R a) :
    Yields p R :=
  fun s v s' hv => hQ v (h s v s' hv)

theorem pure {a : α} {Q : α → Prop} (h : Q a) : Yields (pure a) Q := by
  intro s v s' hv
  cases hv
  exact h

theorem fail {e : SyntaxError} {Q : α → Prop} : Yields (throw e) Q := by
  intro s v s' hv
  cases hv

theorem bind {p : Parser α} {f : α → Parser β} {Q : α → Prop} {R : β → Prop} (hp : Yields p Q)
    (hf : ∀ a, Q a → Yields (f a) R) : Yields (p >>= f) R := by
  intro s v s' hv
  simp only [Bind.bind, EStateM.bind] at hv
  cases hr : p s with
  | ok a s₁ =>
    rw [hr] at hv
    exact hf _ (hp _ _ _ hr) _ _ _ hv
  | error e s₁ =>
    rw [hr] at hv
    cases hv

theorem skip {p : Parser α} {f : α → Parser β} {R : β → Prop} (hf : ∀ a, Yields (f a) R) :
    Yields (p >>= f) R :=
  .bind (.any p) fun a _ => hf a

theorem failed {e : SyntaxError} {f : α → Parser β} {R : β → Prop} :
    Yields (throw e >>= f) R := by
  intro s v s' hv
  cases hv

theorem current {f : Token → Parser β} {R : β → Prop}
    (h : ∀ s v s', f s.current s = .ok v s' → R v) : Yields (Parser.current >>= f) R := by
  intro s v s' hv
  rw [current_bind] at hv
  exact h s v s' hv

theorem map {p : Parser α} {f : α → β} {Q : α → Prop} {R : β → Prop} (hp : Yields p Q)
    (hf : ∀ a, Q a → R (f a)) : Yields (f <$> p) R := by
  intro s v s' hv
  simp only [Functor.map, EStateM.map] at hv
  cases hr : p s with
  | ok a s₁ =>
    rw [hr] at hv
    cases hv
    exact hf _ (hp _ _ _ hr)
  | error e s₁ =>
    rw [hr] at hv
    cases hv

theorem ite {c : Prop} [Decidable c] {p q : Parser α} {Q : α → Prop} (hp : c → Yields p Q)
    (hq : ¬ c → Yields q Q) : Yields (if c then p else q) Q := by
  by_cases h : c
  · rw [if_pos h]
    exact hp h
  · rw [if_neg h]
    exact hq h

theorem attempt {p : Parser α} {Q : α → Prop} (h : Yields p Q) :
    Yields (Parser.attempt p) fun r => ∀ v, r = .ok v → Q v := by
  intro s v s' hv a ha
  unfold Parser.attempt at hv
  cases hr : p s with
  | ok b s₁ =>
    rw [hr] at hv
    cases hv
    cases ha
    exact h _ _ _ hr
  | error e s₁ =>
    rw [hr] at hv
    cases e <;> cases hv <;> cases ha

theorem commaList {close : Punctuator} {element : Parser α} {Q : α → Prop}
    (h : Yields element Q) (rounds : Nat) :
    Yields (Parser.commaList close element rounds) fun list => ∀ v ∈ list, Q v := by
  induction rounds with
  | zero => exact .fail
  | succ rounds ih =>
    refine .skip fun closed => .ite (fun _ => .pure nofun) fun _ => ?_
    refine .bind h fun first hfirst => .skip fun _ => .bind ih fun others hothers => .pure ?_
    intro v hv
    rcases List.mem_cons.mp hv with rfl | hv
    · exact hfirst
    · exact hothers v hv

end Yields

theorem usable_of_not_reserved {name : String} {strict : Bool}
    (h : ¬ isReserved name strict = true) : Usable name := by
  cases strict with
  | false => exact Bool.eq_false_iff.mpr h
  | true =>
    simp only [isReserved, Bool.or_eq_true, not_or, Bool.or_true, Bool.not_eq_true] at h
    simp only [Usable, isReserved, Bool.or_eq_false_iff, Bool.false_and, and_true]
    refine ⟨?_, h.1.2⟩
    cases hkeyword : Keyword.ofString? name with
    | none => simp
    | some k => simp [hkeyword] at h

/-- The name that a token stands for is no reserved word, however the token was written. -/
theorem usable_of_nameOfToken? {strict : Bool} {token : Token} {name : String}
    (h : nameOfToken? strict token = some name) : Usable name := by
  unfold nameOfToken? at h
  split at h
  · split at h
    · cases h
    · rename_i hword
      cases h
      exact usable_of_not_reserved hword
  · split at h
    · cases h
    · cases h
      have hfree : isReserved "let" false = false := by decide
      exact hfree
  · cases h

theorem yields_currentName? : Yields currentName? fun name? => ∀ name ∈ name?, Usable name := by
  intro s v s' hv
  cases hv
  exact fun name hname => usable_of_nameOfToken? hname

theorem yields_finishFunction_eq (name : Option String) (kind : FunctionKind)
    (parameters : List Pattern) (body : List Stmt) (ownStrict : Bool) :
    Yields (finishFunction name kind parameters body ownStrict)
      fun d => ∃ strict, d = ⟨name, kind, parameters, body, strict⟩ := by
  unfold finishFunction
  refine .skip fun strict => ?_
  have hdone (strict : Bool) : Yields (pure ⟨name, kind, parameters, body, strict⟩)
      fun d : FunctionDef => ∃ strict, d = ⟨name, kind, parameters, body, strict⟩ :=
    .pure ⟨strict, rfl⟩
  dsimp only
  refine .ite (fun _ => .failed) fun _ => .ite (fun _ => ?_) fun _ => ?_
  · split
    · exact .failed
    · refine .ite (fun _ => ?_) fun _ => hdone _
      split
      · exact .failed
      · exact hdone _
  · refine .ite (fun _ => ?_) fun _ => hdone _
    split
    · exact .failed
    · exact hdone _

/-- Where the jumps in a statement can go that begins its chain of labels at a place in the list of
labels around it. -/
def Context.targetsFrom (c : Context) (start : Nat) : Targets where
  returns := c.inFunction
  breaks := c.inLoop || c.inSwitch
  continues := c.inLoop
  labels := c.labels.map Label.name
  loopLabels := ((c.labels.take start).filter Label.isLoop).map Label.name

def Context.chainFrom (c : Context) (start : Nat) : List String :=
  (c.labels.drop start).map Label.name

def Context.targets (c : Context) : Targets := c.targetsFrom c.labels.length

/-- The labels of the chain in front of a statement are marked as loops if the current token begins
a loop, and only then. -/
def Context.Marked (c : Context) (start : Nat) (s : TokenStream) : Prop :=
  start ≤ c.labels.length ∧
    ∀ l ∈ c.labels.drop start, l.isLoop = s.current.word?.any startsLoop

def Alone (t : Targets) (chain : List String) (s : Stmt) : Prop :=
  s.Sound t chain ∧ lexicalNames s = []

def Goal.Ready : Goal → Context → TokenStream → Prop
  | .statement (some start), c, s => c.Marked start s
  | _, _, _ => True

def Goal.Sound : (g : Goal) → Context → g.Result → Prop
  | .assignment _, _ => fun x : Expr => x.Sound
  | .binary _, _ => fun x : Expr => x.Sound
  | .power, _ => fun x : Expr => x.Sound
  | .unary, _ => fun x : Expr => x.Sound
  | .construct, _ => fun x : Expr => x.Sound
  | .pattern, _ => fun p : Pattern => p.Single
  | .element, _ => fun p : Pattern => p.Single
  | .statement chain, c =>
    Alone (c.targetsFrom (chain.getD c.labels.length)) (c.chainFrom (chain.getD c.labels.length))
  | .item, c => fun s : Stmt => s.Sound c.targets []

def Nesting.Sound (n : Nesting) : Prop :=
  ∀ g c s v s', g.Ready c s → n.parse g c s = .ok v s' → g.Sound c v

namespace Nesting.Sound

variable {n : Nesting} (hn : n.Sound) (c : Context)

include hn

theorem assignment (cover : Bool) : Yields (n.parse (.assignment cover) c) Expr.Sound :=
  fun s v s' h => hn (.assignment cover) c s v s' trivial h

theorem binary (strength : Nat) : Yields (n.parse (.binary strength) c) Expr.Sound :=
  fun s v s' h => hn (.binary strength) c s v s' trivial h

theorem power : Yields (n.parse .power c) Expr.Sound :=
  fun s v s' h => hn .power c s v s' trivial h

theorem unary : Yields (n.parse .unary c) Expr.Sound :=
  fun s v s' h => hn .unary c s v s' trivial h

theorem construct : Yields (n.parse .construct c) Expr.Sound :=
  fun s v s' h => hn .construct c s v s' trivial h

theorem pattern : Yields (n.parse .pattern c) Pattern.Single :=
  fun s v s' h => hn .pattern c s v s' trivial h

theorem element : Yields (n.parse .element c) Pattern.Single :=
  fun s v s' h => hn .element c s v s' trivial h

theorem item : Yields (n.parse .item c) (Stmt.Sound c.targets []) :=
  fun s v s' h => hn .item c s v s' trivial h

theorem chained {start : Nat} {s s' : TokenStream} {v : Stmt} (hmarked : c.Marked start s)
    (h : n.parse (.statement (some start)) c s = .ok v s') :
    Alone (c.targetsFrom start) (c.chainFrom start) v :=
  hn (.statement (some start)) c s v s' hmarked h

theorem statement : Yields (n.parse (.statement none) c) (Alone c.targets []) := by
  intro s v s' h
  obtain ⟨hsound, halone⟩ := hn (.statement none) c s v s' trivial h
  have hchain : c.chainFrom c.labels.length = [] := by
    unfold Context.chainFrom
    rw [List.drop_length]
    rfl
  refine ⟨?_, halone⟩
  rw [Option.getD_none, hchain] at hsound
  exact hsound

end Nesting.Sound

end Grammar

end ProtoScript
