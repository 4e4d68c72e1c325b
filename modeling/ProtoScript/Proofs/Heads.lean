import ProtoScript.Proofs.Heads.Expression
/-!
# Binding patterns in the head of a loop

A binding pattern has brackets, so `in` should be an operator in it wherever it stands.  That is so
for computed keys, for the defaults of elements and of properties with a key, and in all nested
patterns; only the default of a property `name = value` is read as the surroundings have it.  So a
pattern is read in the head of a loop as it is read elsewhere, unless such a default has the
operator `in`; then the head is refused at the word.
-/

namespace ProtoScript

/-- A property `name = value` of the pattern, or of one inside it, has the operator `in` in its
default. -/
inductive Pattern.HasInDefault : Pattern → Prop
  | here {properties : List PatternProperty} {key : PropertyKey} {name : String} {value : Expr}
      (hmem : .keyed key (.withDefault (.identifier name) value) ∈ properties)
      (h : value.HasIn) : HasInDefault (.object properties)
  | part {p q : Pattern} (hq : q ∈ p.parts) (h : HasInDefault q) : HasInDefault p

inductive PatternProperty.HasInDefault : PatternProperty → Prop
  | here {key : PropertyKey} {name : String} {value : Expr} (h : value.HasIn) :
      HasInDefault (.keyed key (.withDefault (.identifier name) value))
  | inside {p : PatternProperty} (h : p.target.HasInDefault) : HasInDefault p

theorem Pattern.HasInDefault.object {properties : List PatternProperty} {p : PatternProperty}
    (hp : p ∈ properties) (h : p.HasInDefault) : (Pattern.object properties).HasInDefault := by
  cases h with
  | here h => exact .here hp h
  | inside h => exact .part (List.mem_map.mpr ⟨p, hp, rfl⟩) h

theorem Pattern.not_hasInDefault_identifier (name : String) :
    ¬ (Pattern.identifier name).HasInDefault
  | .part hq _ => nomatch hq

/-- A default in an array pattern is none behind the name of a property. -/
theorem Pattern.not_hasInDefault_element (name : String) (value : Expr) :
    ¬ (Pattern.array [some (.withDefault (.identifier name) value)]).HasInDefault := by
  rintro (_ | ⟨hq, h⟩)
  obtain rfl := List.mem_singleton.mp hq
  rcases h with _ | ⟨hq, h⟩
  obtain rfl := List.mem_singleton.mp hq
  exact Pattern.not_hasInDefault_identifier name h

/-- The declarator binds by a pattern with such a default, or has such an initial value. -/
def Declarator.HasIn (d : Declarator) : Prop := d.target.HasInDefault ∨ ∃ x ∈ d.init, x.HasIn

namespace Grammar

variable {α β : Type}

/-- The reading ends with an error at the word `in`. -/
def Refused (r : EStateM.Result SyntaxError TokenStream α) : Prop :=
  ∃ e s, r = .error e s ∧ s.current = .keyword .inWord

/-- The first rule goes the way of the second, or it is refused at an `in` and the second, where it
succeeds, has a result with a property. -/
def Refuses (V : α → Prop) (p q : Parser α) : Prop :=
  ∀ s, p s = q s ∨ Refused (p s) ∧ ∀ a t, q s = .ok a t → V a

theorem separate_in (close : Punctuator) {s : TokenStream} (h : s.current = .keyword .inWord) :
    Parser.separate close s = .error (.unexpectedToken (.keyword .inWord)) s := by
  unfold Parser.separate
  rw [atSign_bind, h]
  change (Parser.atSign close >>= fun closed => if closed = true then _ else _) s = _
  rw [atSign_bind, h]
  change (Parser.current >>= fun token => (throw (.unexpectedToken token) : Parser Unit)) s = _
  rw [current_bind, h]
  rfl

namespace Refuses

variable {U V : α → Prop} {W : β → Prop} {p q : Parser α} {f g : α → Parser β}

theorem refl (p : Parser α) : Refuses V p p := fun _ => .inl rfl

theorem alike (h : Refuses V p q) : Alike V p q := by
  refine fun s => (h s).imp_right fun hs => ⟨?_, hs.2⟩
  obtain ⟨e, t, heq, ht⟩ := hs.1
  rw [heq]
  exact ht

theorem bind (hp : Refuses U p q) (hf : ∀ a, Refuses W (f a) (g a))
    (hg : ∀ a, U a → Yields (g a) W) : Refuses W (p >>= f) (q >>= g) := by
  intro s
  rcases hp s with heq | ⟨⟨e, t, heq, ht⟩, hU⟩
  · simp only [Bind.bind, EStateM.bind, heq]
    cases q s with
    | ok a t => exact hf a t
    | error e t => exact .inl rfl
  · refine .inr ⟨⟨e, t, bind_of_error heq, ht⟩, fun b u hu => ?_⟩
    obtain ⟨a, v, ha, hb⟩ := bind_eq_ok hu
    exact hg a (hU a v ha) v b u hb

theorem bindAlike (hp : Refuses U p q) (hf : ∀ a, Alike W (f a) (g a))
    (hg : ∀ a, U a → Yields (g a) W) : Alike W (p >>= f) (q >>= g) := by
  intro s
  rcases hp s with heq | ⟨⟨e, t, heq, ht⟩, hU⟩
  · simp only [Bind.bind, EStateM.bind, heq]
    cases q s with
    | ok a t => exact hf a t
    | error e t => exact .inl rfl
  · rw [bind_of_error heq]
    refine .inr ⟨ht, fun b u hu => ?_⟩
    obtain ⟨a, v, ha, hb⟩ := bind_eq_ok hu
    exact hg a (hU a v ha) v b u hb

theorem after (hf : ∀ a, Refuses W (f a) (g a)) : Refuses W (p >>= f) (p >>= g) := by
  intro s
  simp only [Bind.bind, EStateM.bind]
  cases p s with
  | ok a t => exact hf a t
  | error e t => exact .inl rfl

theorem ite {c : Prop} [Decidable c] {p q p' q' : Parser α} (hp : Refuses V p q)
    (hq : Refuses V p' q') : Refuses V (if c then p else p') (if c then q else q') := by
  split
  · exact hp
  · exact hq

theorem map {h : α → β} (hp : Refuses U p q) (hU : ∀ a, U a → W (h a)) :
    Refuses W (p >>= fun a => Pure.pure (h a)) (q >>= fun a => Pure.pure (h a)) :=
  hp.bind (fun _ => .refl _) fun a ha => .pure (hU a ha)

/-- Between two elements of a list a comma stands, and never the word `in`. -/
theorem commaList (close : Punctuator) (hp : Alike U p q) (rounds : Nat) :
    Refuses (fun list => ∃ a ∈ list, U a) (Parser.commaList close p rounds)
      (Parser.commaList close q rounds) := by
  induction rounds with
  | zero => exact .refl _
  | succ rounds ih =>
    unfold Parser.commaList
    refine .after fun closed => .ite (.refl _) fun s => ?_
    rcases hp s with heq | ⟨hstops, hU⟩
    · simp only [Bind.bind, EStateM.bind, heq]
      cases q s with
      | error e t => exact .inl rfl
      | ok first t =>
        refine Refuses.after (fun _ => ih.map fun others hothers => ?_) t
        obtain ⟨a, ha, hU⟩ := hothers
        exact ⟨a, List.mem_cons_of_mem _ ha, hU⟩
    · have hrefused : Refused ((p >>= fun first => Parser.separate close >>= fun _ =>
          Parser.commaList close p rounds >>= fun others => Pure.pure (first :: others)) s) := by
        cases hr : p s with
        | error e t =>
          rw [hr] at hstops
          exact ⟨e, t, bind_of_error hr, hstops⟩
        | ok first t =>
          rw [hr] at hstops
          exact ⟨_, t, (bind_of_ok hr).trans (bind_of_error (separate_in close hstops)), hstops⟩
      refine .inr ⟨hrefused, fun list u hu => ?_⟩
      obtain ⟨first, t, hfirst, hrest⟩ := bind_eq_ok hu
      have hyields : Yields (Parser.separate close >>= fun _ =>
          Parser.commaList close q rounds >>= fun others => Pure.pure (first :: others))
          fun list => ∃ a ∈ list, U a :=
        .skip fun _ => .skip fun others => .pure ⟨first, List.mem_cons_self .., hU first t hfirst⟩
      exact hyields t list u hrest

end Refuses

/-- The patterns that are nested are read in the head of a loop as elsewhere, or refused there. -/
structure Nesting.Refuses (n : Nesting) : Prop where
  pattern (c : Context) : Grammar.Refuses Pattern.HasInDefault (n.parse .pattern c.forHead)
    (n.parse .pattern c.bracketed)
  element (c : Context) : Grammar.Refuses Pattern.HasInDefault (n.parse .element c.forHead)
    (n.parse .element c.bracketed)

variable {n : Nesting}

theorem refuses_bindingElement (c : Context) {p q : Parser Pattern}
    (hp : Refuses Pattern.HasInDefault p q) : Refuses Pattern.HasInDefault
      (bindingElement n c.forHead p) (bindingElement n c.bracketed q) := by
  unfold bindingElement
  refine hp.bind (fun target => .refl _) fun target htarget => ?_
  refine .skip fun assigned => .ite (fun _ => .skip fun value => .pure ?_) fun _ => .pure htarget
  exact .part (List.mem_singleton_self _) htarget

theorem refuses_arrayPatternElements (hn : n.Refuses) (c : Context) (rounds : Nat) :
    Refuses (fun elements => ∃ p, some p ∈ elements ∧ p.HasInDefault)
      (arrayPatternElements n c.forHead rounds) (arrayPatternElements n c.bracketed rounds) := by
  induction rounds with
  | zero => exact .refl _
  | succ rounds ih =>
    have hrest (first : Option Pattern) : Refuses
        (fun elements => ∃ p, some p ∈ elements ∧ p.HasInDefault)
        (arrayPatternElements n c.forHead rounds >>= fun others => pure (first :: others))
        (arrayPatternElements n c.bracketed rounds >>= fun others => pure (first :: others)) := by
      refine ih.map fun others hothers => ?_
      obtain ⟨p, hmem, hp⟩ := hothers
      exact ⟨p, List.mem_cons_of_mem _ hmem, hp⟩
    unfold arrayPatternElements
    refine .after fun closed => .ite (.refl _) (.after fun hole => .ite (hrest none) ?_)
    refine .after fun isRest => .ite ?_ ?_
    · refine (hn.pattern c).map fun target htarget => ?_
      exact ⟨_, List.mem_singleton_self _, .part (List.mem_singleton_self _) htarget⟩
    · refine (hn.element c).bind (fun element => .after fun _ => hrest _) fun element helement => ?_
      exact .skip fun _ => .skip fun others => .pure ⟨_, List.mem_cons_self .., helement⟩

theorem alike_patternProperty (halike : n.Alike) (hn : n.Refuses) (c : Context) :
    Alike PatternProperty.HasInDefault (patternProperty n c.forHead)
      (patternProperty n c.bracketed) := by
  unfold patternProperty
  refine .after fun shorthand => .after fun key => .after fun keyed => .ite ?_ ?_
  · exact (hn.element c).alike.map fun target htarget => .inside htarget
  cases shorthand with
  | none => exact .refl _
  | some name =>
    refine .after fun _ => .after fun assigned => .ite ?_ (.refl _)
    exact (halike.assignment false c).map fun value hvalue => .here hvalue

theorem refuses_bindingPattern (halike : n.Alike) (hn : n.Refuses) (c : Context) :
    Refuses Pattern.HasInDefault (bindingPattern n c.forHead) (bindingPattern n c.bracketed) := by
  unfold bindingPattern
  refine .after fun name => ?_
  cases name with
  | some name => exact .refl _
  | none =>
    refine .after fun bracket => .ite ?_ (.after fun brace => .ite ?_ (.refl _))
    · refine (refuses_arrayPatternElements hn c _).bind (fun elements => .refl _)
        fun elements helements => .skip fun _ => .pure ?_
      obtain ⟨p, hmem, hp⟩ := helements
      exact .part (List.reduceOption_mem_iff.mpr hmem) hp
    · refine (Refuses.commaList _ (alike_patternProperty halike hn c) _).bind
        (fun properties => .refl _) fun properties hproperties => .skip fun _ => .pure ?_
      obtain ⟨p, hmem, hp⟩ := hproperties
      exact .object hmem hp

/-- The patterns of any depth are read in the head of a loop as elsewhere, or refused there. -/
theorem refuses_parse (depth rounds : Nat) : Nesting.Refuses ⟨rounds, parse depth⟩ := by
  induction depth generalizing rounds with
  | zero => exact ⟨fun _ => .refl _, fun _ => .refl _⟩
  | succ depth ih =>
    have hpattern := refuses_bindingPattern (alike_parse depth (depth + 1)) (ih (depth + 1))
    exact ⟨hpattern, fun c => refuses_bindingElement c (hpattern c)⟩

/-- The declarators at the start of a loop, and those of a declaration. -/
theorem alike_declarators (halike : n.Alike) (hn : n.Refuses) (c : Context)
    (kind : DeclarationKind) (rounds : Nat) : Alike (fun list => ∃ d ∈ list, d.HasIn)
      (declarators n c.forHead kind rounds) (declarators n c.bracketed kind rounds) := by
  induction rounds with
  | zero => exact .refl _
  | succ rounds ih =>
    have hrest (target : Pattern) (init : Option Expr) : Alike (fun list => ∃ d ∈ list, d.HasIn)
        (do
          if ← Parser.eat .comma then
            return Declarator.mk target init :: (← declarators n c.forHead kind rounds)
          else return [⟨target, init⟩])
        (do
          if ← Parser.eat .comma then
            return Declarator.mk target init :: (← declarators n c.bracketed kind rounds)
          else return [⟨target, init⟩]) := by
      refine .after fun more => .ite (ih.map fun others hothers => ?_) (.refl _)
      obtain ⟨d, hmem, hd⟩ := hothers
      exact ⟨d, List.mem_cons_of_mem _ hmem, hd⟩
    have hyields {target : Pattern} {init : Option Expr} (h : (Declarator.mk target init).HasIn) :
        Yields
        (do
          if ← Parser.eat .comma then
            return Declarator.mk target init :: (← declarators n c.bracketed kind rounds)
          else return [⟨target, init⟩])
        fun list => ∃ d ∈ list, d.HasIn := by
      refine .skip fun more => .ite (fun _ => .skip fun others => ?_) fun _ => ?_
      · exact .pure ⟨_, List.mem_cons_self .., h⟩
      · exact .pure ⟨_, List.mem_singleton_self _, h⟩
    unfold declarators
    have htargets := refuses_bindingPattern halike hn c
    refine htargets.bindAlike (fun target => ?_) fun target htarget => ?_
    · refine .ite (.refl _) (.after fun assigned => .ite ?_ (hrest _ _))
      rw [bind_map_left, bind_map_left]
      refine (halike.assignment false c).bind (fun value => .eat (.pure _)) (fun value => hrest _ _)
        fun value hvalue => hyields (.inr ⟨value, rfl, hvalue⟩)
    · refine .ite (fun _ => .failed) fun _ => .skip fun assigned => ?_
      exact .ite (fun _ => .skip fun init => hyields (.inl htarget)) fun _ => hyields (.inl htarget)

/-- A pattern is read in the head of a loop as it is read elsewhere, with the same tree or the same
error and the same text left; only where the default of a property `name = value` has the operator
`in` is it refused there, at that word.  So declarators are accepted at the start of a loop as they
are in a declaration, with the same trees, if neither such a default nor an initial value has the
operator. -/
theorem patterns_read_alike (bound : Nat) (c : Context) (s : TokenStream) :
    (bindingPattern (nesting bound) c.forHead s = bindingPattern (nesting bound) c.bracketed s ∨
      (∃ e t, bindingPattern (nesting bound) c.forHead s = .error e t ∧
        t.current = .keyword .inWord) ∧
      ∀ p t, bindingPattern (nesting bound) c.bracketed s = .ok p t → p.HasInDefault) ∧
    ∀ kind rounds list t, declarators (nesting bound) c.bracketed kind rounds s = .ok list t →
      (∀ d ∈ list, ¬ d.HasIn) →
      declarators (nesting bound) c.forHead kind rounds s = .ok list t := by
  refine ⟨refuses_bindingPattern (alike_nesting bound) (refuses_parse bound bound) c s, ?_⟩
  intro kind rounds list t hlist hfree
  have halike := alike_declarators (alike_nesting bound) (refuses_parse bound bound) c kind rounds s
  rcases halike with heq | ⟨-, hhas⟩
  · exact heq.trans hlist
  · obtain ⟨d, hmem, hd⟩ := hhas list t hlist
    exact absurd hd (hfree d hmem)

/-- Whether declarators have been read as an array pattern whose element has a test for a key as its
default. -/
def isKeyedElement : EStateM.Result SyntaxError TokenStream (List Declarator) → Bool
  | .ok [⟨.array [some (.withDefault (.identifier _) (.binary .hasKey _ _))],
      some (.identifier _)⟩] _ => true
  | _ => false

/-- The default of an element, which is read in brackets in the head of a loop as well. -/
theorem patterns_read_alike_element : ∃ s list t,
    TokenStream.ofString "[a = b in c] = x;" = .ok s ∧
      declarators (nesting 20) Context.program.bracketed .variable 20 s = .ok list t ∧
      (∀ d ∈ list, ¬ d.HasIn) ∧
      declarators (nesting 20) Context.program.forHead .variable 20 s = .ok list t := by
  have hread : (TokenStream.ofString "[a = b in c] = x;").toOption.any (fun s => isKeyedElement
      (declarators (nesting 20) Context.program.bracketed .variable 20 s)) = true := by
    decide +kernel
  cases hs : TokenStream.ofString "[a = b in c] = x;" with
  | error e =>
    rw [hs] at hread
    cases hread
  | ok s =>
    rw [hs] at hread
    simp only [Except.toOption, Option.any_some] at hread
    unfold isKeyedElement at hread
    split at hread
    · next target left right name t hlist =>
      have hfree : ∀ d ∈ [Declarator.mk (.array [some (.withDefault (.identifier target)
          (.binary .hasKey left right))]) (some (.identifier name))], ¬ d.HasIn := by
        intro d hd
        rw [List.mem_singleton.mp hd]
        rintro (hdefault | ⟨x, hx, hin⟩)
        · exact Pattern.not_hasInDefault_element target _ hdefault
        · cases hx
          exact Expr.not_hasIn_identifier name hin
      exact ⟨s, _, t, rfl, hlist, hfree, (patterns_read_alike 20 _ s).2 _ _ _ _ hlist hfree⟩
    · cases hread

end Grammar

end ProtoScript
