import ProtoScript.Proofs.Readings.Primary
import ProtoScript.Proofs.Places.Pattern
/-!
# Two readings of a parameter

A parameter is read as a pattern, or as an expression that is read again as a pattern once an arrow
has been seen.  Where both readings go through from the same place, and the second one finds no
member expression as a target, they take the same tokens and end with the same pattern.
-/

namespace ProtoScript

namespace Pattern.BindsNames

theorem part {p q : Pattern} (h : p.BindsNames) (hq : q ∈ p.parts) : q.BindsNames := by
  cases h with
  | intro _ parts => exact parts q hq

theorem target {p : Pattern} {value : Expr} (h : (Pattern.withDefault p value).BindsNames) :
    p.BindsNames :=
  h.part (List.mem_singleton_self _)

theorem element {elements : List (Option Pattern)} {q : Pattern}
    (h : (Pattern.array elements).BindsNames) (hq : some q ∈ elements) : q.BindsNames :=
  h.part (List.reduceOption_mem_iff.mpr hq)

theorem property {properties : List PatternProperty} {q : PatternProperty}
    (h : (Pattern.object properties).BindsNames) (hq : q ∈ properties) : q.target.BindsNames :=
  h.part (List.mem_map_of_mem hq)

theorem not_member {x : Expr} : ¬ (Pattern.member x).BindsNames := by
  intro h
  cases h with
  | intro own _ => cases own

end Pattern.BindsNames

namespace Grammar

variable {n : Nesting} {c : Context} {s t u : TokenStream} {x : Expr} {p q : Pattern}
  {strict : Bool} {rounds : Nat}

def Target (strict : Bool) (x : Expr) (q : Pattern) : Prop :=
  x.toPattern strict = .ok q ∧ q.BindsNames

theorem Target.isPrimary (h : Target strict x q) : isPrimary x = true := by
  rcases Expr.toPattern_eq_ok h.1 with ⟨name, rfl, -⟩ | ⟨object, key, rfl, rfl⟩ |
    ⟨target, value, p, rfl, -⟩ | ⟨elements, ps, rfl, -⟩ | ⟨properties, ps, rfl, -⟩
  · rfl
  · exact absurd h.2 Pattern.BindsNames.not_member
  · rfl
  · rfl
  · rfl

theorem eq_assign_of_assignmentOfSign? {sign : Punctuator}
    (h : assignmentOfSign? sign = some none) : sign = .assign := by
  cases sign <;> first | rfl | cases h

/-- An expression that is a target is a primary one, or a name with a default. -/
theorem target_of_assignment {cover : Bool} (h : assignment n c cover s = .ok x t)
    (hx : Target strict x q) :
    primary n c s = .ok x t ∧ t.current.sign? ≠ some .assign ∨
      ∃ name value u v, x = .assign none (.identifier name) value ∧
        q = .withDefault (.identifier name) value ∧ primary n c s = .ok (.identifier name) u ∧
        Sign .assign u v ∧ n.parse (.assignment false) c v = .ok value t := by
  rcases assignment_eq_ok h with ⟨hconditional, hop⟩ |
    ⟨op, left, value, u, v, rfl, hleft, hop, -, hcheck, hadvance, hvalue⟩
  · refine .inl ⟨rests_conditional n c s x t hconditional hx.isPrimary, fun hsign => ?_⟩
    rw [assignmentOperator?, hsign] at hop
    cases hop
  obtain ⟨hpattern, hnames⟩ := hx
  cases op with
  | some op => cases hpattern
  | none =>
  obtain ⟨p, hp, hpattern⟩ := bind_except_eq_ok hpattern
  cases hpattern
  have hleft' : Target strict left p := ⟨hp, hnames.target⟩
  rcases checkAssignable_eq_ok hcheck with ⟨name, rfl⟩ | ⟨object, key, rfl⟩
  · have hname : p = .identifier name := by
      rcases Expr.toPattern_eq_ok hp with ⟨_, heq, rfl⟩ | ⟨_, _, heq, -⟩ | ⟨_, _, _, heq, -⟩ |
        ⟨_, _, heq, -⟩ | ⟨_, _, heq, -⟩ <;> cases heq
      rfl
    subst hname
    have hsign : u.current.sign? = some .assign := by
      obtain ⟨sign, hsign, hplain⟩ := Option.bind_eq_some_iff.mp hop
      rw [hsign, eq_assign_of_assignmentOfSign? hplain]
    exact .inr ⟨name, value, u, v, rfl, rfl, rests_conditional n c s _ u hleft hleft'.isPrimary,
      ⟨hsign, hadvance⟩, hvalue⟩
  · exact absurd hleft'.isPrimary nofun

end Grammar

structure Grammar.Nesting.ReadsAlike (n : Grammar.Nesting) : Prop where
  /-- If the expression is a target, the pattern is that target, and both end at one place. -/
  target : ∀ {cover c s t u p x strict q}, c.noIn = false → n.parse .element c s = .ok p t →
    n.parse (.assignment cover) c s = .ok x u → Target strict x q → p = q ∧ t = u
  /-- If the expression is a function, the pattern is the name in front of its arrow. -/
  arrow : ∀ {cover c s t u p f}, n.parse .element c s = .ok p t →
    n.parse (.assignment cover) c s = .ok (.function f) u → t.current.sign? = some .arrow
  /-- No expression begins with an ellipsis. -/
  noRest : ∀ {cover c s t x strict q}, n.parse (.assignment cover) c s = .ok x t →
    Target strict x q → s.current.sign? ≠ some .ellipsis

namespace Grammar

variable {n : Nesting} {c : Context} {s t u : TokenStream} {x : Expr} {p q : Pattern}
  {strict : Bool} {rounds : Nat}

theorem bracketed_of_noIn (h : c.noIn = false) : c.bracketed = c := by
  cases c
  cases h
  rfl

theorem elements_alike (hn : n.ReadsAlike) (hc : c.noIn = false)
    {ps qs : List (Option Pattern)} {xs : List (Option Expr)}
    (hp : arrayPatternElements n c rounds s = .ok ps t)
    (hx : Parser.commaList .rightBracket (arrayElement n c) rounds s = .ok xs u)
    (hpattern : Expr.toPatternElements strict xs = .ok qs)
    (hnames : ∀ q, some q ∈ qs → q.BindsNames) : ps = qs ∧ t = u := by
  induction rounds generalizing s ps xs qs with
  | zero => cases hp
  | succ rounds ih =>
    unfold arrayPatternElements at hp
    rw [atSign_bind] at hp
    rcases commaList_eq_ok hx with ⟨hclose, rfl, rfl⟩ |
      ⟨first, others, v, w, hclose, rfl, hfirst, hsep, hothers⟩
    · rw [if_pos (by simpa using hclose)] at hp
      cases hp
      cases hpattern
      exact ⟨rfl, rfl⟩
    rw [if_neg (by simpa using hclose)] at hp
    unfold arrayElement at hfirst
    rw [atSign_bind] at hfirst
    obtain ⟨hole, s', heat, hfound⟩ := bind_eq_ok hp
    rcases eat_eq_ok heat with ⟨rfl, hcomma⟩ | ⟨rfl, hcomma, rfl⟩
    · -- a hole
      rw [if_pos (by simpa using hcomma.1)] at hfirst
      cases hfirst
      obtain ⟨-, rfl⟩ := ok_unique (separate_of_comma hcomma) hsep
      obtain ⟨rest, v, hrest, hdone⟩ := bind_eq_ok hfound
      cases hdone
      obtain ⟨qs, hqs, hpattern⟩ := bind_except_eq_ok hpattern
      cases hpattern
      obtain ⟨rfl, rfl⟩ := ih hrest hothers hqs fun q hq => hnames q (List.mem_cons_of_mem _ hq)
      exact ⟨rfl, rfl⟩
    rw [if_neg (by simpa using hcomma)] at hfirst
    obtain ⟨x, v, hx, hfirst⟩ := bind_eq_ok hfirst
    cases hfirst
    obtain ⟨q, hq, hpattern⟩ := bind_except_eq_ok hpattern
    obtain ⟨qs, hqs, hpattern⟩ := bind_except_eq_ok hpattern
    cases hpattern
    have htarget : Target strict x q := ⟨hq, hnames q (List.mem_cons_self ..)⟩
    obtain ⟨isRest, s'', heat', hnext⟩ := bind_eq_ok hfound
    rcases eat_eq_ok heat' with ⟨rfl, hellipsis⟩ | ⟨rfl, -, rfl⟩
    · exact absurd hellipsis.1 (hn.noRest hx htarget)
    obtain ⟨p, t', hp, hnext⟩ := bind_eq_ok hnext
    obtain ⟨rfl, rfl⟩ := hn.target hc hp hx htarget
    obtain ⟨comma, w', hgap, hnext⟩ := bind_eq_ok hnext
    obtain ⟨rest, v, hrest, hdone⟩ := bind_eq_ok hnext
    cases hdone
    have hbehind : w' = w := by
      rcases eat_eq_ok hgap with ⟨-, hcomma⟩ | ⟨-, hcomma, rfl⟩
      · exact (ok_unique (separate_of_comma hcomma) hsep).2
      · exact ((separate_eq_ok hsep).resolve_left fun h => hcomma h.1).2.symm
    subst hbehind
    obtain ⟨rfl, rfl⟩ := ih hrest hothers hqs fun q hq => hnames q (List.mem_cons_of_mem _ hq)
    exact ⟨rfl, rfl⟩

theorem propertyKey_of_name {name : String} {key : PropertyKey}
    (hname : nameOfToken? s.strict s.current = some name) (h : propertyKey n c s = .ok key t) :
    key = .identifier name := by
  unfold propertyKey at h
  rw [current_bind] at h
  unfold nameOfToken? at hname
  split at hname
  · next heq =>
    rw [heq] at h
    obtain ⟨_, v, -, h⟩ := bind_eq_ok h
    cases h
    split at hname <;> cases hname
    rfl
  · next heq =>
    rw [heq] at h
    obtain ⟨_, v, -, h⟩ := bind_eq_ok h
    cases h
    split at hname <;> cases hname
    rfl
  · cases hname

theorem property_alike (hn : n.ReadsAlike) (hc : c.noIn = false) {p q : PatternProperty}
    {x : Property} (hp : patternProperty n c s = .ok p t) (hx : objectProperty n c s = .ok x u)
    (hpattern : x.toPattern strict = .ok q) (hnames : q.target.BindsNames) : p = q ∧ t = u := by
  unfold patternProperty at hp
  unfold objectProperty at hx
  rw [currentName?_bind] at hp hx
  obtain ⟨key, v, hkey, hp⟩ := bind_eq_ok hp
  obtain ⟨key', v', hkey', hx⟩ := bind_eq_ok hx
  obtain ⟨rfl, rfl⟩ := ok_unique hkey hkey'
  obtain ⟨keyed, w, hcolon, hp⟩ := bind_eq_ok hp
  obtain ⟨keyed', w', hcolon', hx⟩ := bind_eq_ok hx
  obtain ⟨rfl, rfl⟩ := ok_unique hcolon hcolon'
  cases keyed with
  | true =>
    obtain ⟨p', w', hp', hp⟩ := bind_eq_ok hp
    cases hp
    obtain ⟨x', v', hx', hx⟩ := bind_eq_ok hx
    cases hx
    obtain ⟨q', hq', hpattern⟩ := bind_except_eq_ok hpattern
    cases hpattern
    obtain ⟨rfl, rfl⟩ := hn.target hc hp' hx' ⟨hq', hnames⟩
    exact ⟨rfl, rfl⟩
  | false =>
    rw [if_neg nofun] at hp hx
    rw [atSign_bind] at hx
    split at hx
    · -- a method is no target
      obtain ⟨f, w', -, hx⟩ := bind_eq_ok hx
      cases hx
      cases hpattern
    cases hname : nameOfToken? s.strict s.current with
    | none =>
      rw [hname] at hp
      cases hp
    | some name =>
      rw [hname] at hp hx
      dsimp only at hp hx
      obtain rfl := propertyKey_of_name hname hkey
      obtain ⟨_, w', hcheck, hdefault⟩ := bind_eq_ok hp
      obtain rfl := checkBinding_eq_ok hcheck
      obtain ⟨assigned, w, hassign, hdefault⟩ := bind_eq_ok hdefault
      obtain ⟨assigned', w', hassign', hcover⟩ := bind_eq_ok hx
      obtain ⟨rfl, rfl⟩ := ok_unique hassign hassign'
      cases assigned with
      | true =>
        obtain ⟨value, u', hvalue, hdone⟩ := bind_eq_ok hdefault
        cases hdone
        obtain ⟨value', u', hvalue', hdone⟩ := bind_eq_ok hcover
        cases hdone
        obtain ⟨rfl, rfl⟩ := ok_unique hvalue hvalue'
        cases hpattern
        exact ⟨rfl, rfl⟩
      | false =>
        cases hdefault
        cases hcover
        cases hpattern
        exact ⟨rfl, rfl⟩

theorem properties_alike (hn : n.ReadsAlike) (hc : c.noIn = false) {ps qs : List PatternProperty}
    {xs : List Property}
    (hp : Parser.commaList .rightBrace (patternProperty n c) rounds s = .ok ps t)
    (hx : Parser.commaList .rightBrace (objectProperty n c) rounds s = .ok xs u)
    (hpattern : Expr.toPatternProperties strict xs = .ok qs)
    (hnames : ∀ q ∈ qs, q.target.BindsNames) : ps = qs ∧ t = u := by
  induction rounds generalizing s ps xs qs with
  | zero => cases hp
  | succ rounds ih =>
    rcases commaList_eq_ok hx with ⟨hclose, rfl, rfl⟩ |
      ⟨x, xs, v, w, hclose, rfl, hx, hsep, hxs⟩
    · obtain ⟨-, rfl, rfl⟩ := (commaList_eq_ok hp).resolve_right
        fun ⟨_, _, _, _, hopen, _⟩ => hopen hclose
      cases hpattern
      exact ⟨rfl, rfl⟩
    obtain ⟨p, ps, v', w', -, rfl, hp, hsep', hps⟩ := (commaList_eq_ok hp).resolve_left
      fun h => hclose h.1
    obtain ⟨q, hq, hpattern⟩ := bind_except_eq_ok hpattern
    obtain ⟨qs, hqs, hpattern⟩ := bind_except_eq_ok hpattern
    cases hpattern
    obtain ⟨rfl, rfl⟩ := property_alike hn hc hp hx hq (hnames q (List.mem_cons_self ..))
    obtain ⟨-, rfl⟩ := ok_unique hsep hsep'
    obtain ⟨rfl, rfl⟩ := ih hps hxs hqs fun q hq => hnames q (List.mem_cons_of_mem _ hq)
    exact ⟨rfl, rfl⟩

/-! ### Names and brackets -/

theorem bindingPattern_eq_ok (h : bindingPattern n c s = .ok p t) :
    (∃ name, nameOfToken? s.strict s.current = some name ∧ p = .identifier name ∧
      Parser.advance s = .ok () t) ∨
    s.current.sign? = some .leftBracket ∨ s.current.sign? = some .leftBrace := by
  unfold bindingPattern at h
  rw [currentName?_bind] at h
  cases hname : nameOfToken? s.strict s.current with
  | some name =>
    rw [hname] at h
    dsimp only at h
    obtain ⟨_, u, hcheck, hread⟩ := bind_eq_ok h
    obtain rfl := checkBinding_eq_ok hcheck
    obtain ⟨_, v, hadvance, hdone⟩ := bind_eq_ok hread
    cases hdone
    exact .inl ⟨name, rfl, rfl, hadvance⟩
  | none =>
    rw [hname] at h
    dsimp only at h
    obtain ⟨bracket, u, heat, hfound⟩ := bind_eq_ok h
    rcases eat_eq_ok heat with ⟨-, hbracket⟩ | ⟨rfl, -, rfl⟩
    · exact .inr (.inl hbracket.1)
    obtain ⟨brace, v, heat', hnext⟩ := bind_eq_ok hfound
    rcases eat_eq_ok heat' with ⟨-, hbrace⟩ | ⟨rfl, -, rfl⟩
    · exact .inr (.inr hbrace.1)
    cases hnext

/-- Where a name stands an expression is the name, or a function if an arrow follows. -/
theorem primary_of_name {name : String} (hname : nameOfToken? s.strict s.current = some name)
    (h : primary n c s = .ok x t) :
    x = .identifier name ∧ Parser.advance s = .ok () t ∨
      (∃ f, x = .function f) ∧ ∃ u, Parser.advance s = .ok () u ∧
        u.current.sign? = some .arrow := by
  have hread : nameOrArrow n c s = .ok x t := by
    unfold primary at h
    rw [current_bind] at h
    unfold nameOfToken? at hname
    split at hname
    · next heq => rwa [heq] at h
    · next heq => rwa [heq] at h
    · cases hname
  unfold nameOrArrow at hread
  rw [currentName?_bind, hname] at hread
  dsimp only at hread
  obtain ⟨_, u, hadvance, hread⟩ := bind_eq_ok hread
  rw [atArrow_bind] at hread
  split at hread
  · next harrow =>
    obtain ⟨_, v, -, hread⟩ := bind_eq_ok hread
    obtain ⟨f, rfl, -⟩ := parameters_arrowFunction _ _ _ _ _ _ hread
    exact .inr ⟨⟨f, rfl⟩, u, hadvance, by simp_all⟩
  · cases hread
    exact .inl ⟨rfl, hadvance⟩

/-- A bracket of an array literal is not one of a name, a function or an object literal. -/
theorem primary_leftBracket_eq_ok (hsign : s.current.sign? = some .leftBracket)
    (h : primary n c s = .ok x t) :
    ∃ elements u v, x = .array elements ∧ Parser.advance s = .ok () u ∧
      Parser.commaList .rightBracket (arrayElement n c.bracketed) n.rounds u = .ok elements v ∧
      Parser.expect .rightBracket v = .ok () t := by
  rw [primary_at_leftBracket hsign] at h
  exact bracketed_eq_ok h

theorem primary_leftBrace_eq_ok (hsign : s.current.sign? = some .leftBrace)
    (h : primary n c s = .ok x t) :
    ∃ properties u v, x = .object properties ∧ Parser.advance s = .ok () u ∧
      Parser.commaList .rightBrace (objectProperty n c.bracketed) n.rounds u = .ok properties v ∧
      Parser.expect .rightBrace v = .ok () t := by
  rw [primary_at_leftBrace hsign] at h
  exact bracketed_eq_ok h

/-! ### One depth more -/

theorem pattern_alike (hn : n.ReadsAlike) (hc : c.noIn = false)
    (hp : bindingPattern n c s = .ok p t)
    (hx : primary n c s = .ok x u) (htarget : Target strict x q) : p = q ∧ t = u := by
  obtain ⟨hpattern, hnames⟩ := htarget
  rcases bindingPattern_eq_ok hp with ⟨name, hname, rfl, hadvance⟩ | hsign | hsign
  · rcases primary_of_name hname hx with ⟨rfl, hadvance'⟩ | ⟨⟨f, rfl⟩, -⟩
    · unfold Expr.toPattern at hpattern
      split at hpattern
      · cases hpattern
      · cases hpattern
        exact ⟨rfl, (ok_unique hadvance hadvance').2⟩
    · cases hpattern
  · obtain ⟨xs, v, w, rfl, hopen, hxs, hclose⟩ := primary_leftBracket_eq_ok hsign hx
    rw [bracketed_of_noIn hc] at hxs
    rw [bindingPattern_at_leftBracket hsign, bind_of_ok hopen] at hp
    obtain ⟨ps, w', hps, hp⟩ := bind_eq_ok hp
    obtain ⟨qs, hqs, hpattern⟩ := bind_except_eq_ok hpattern
    cases hpattern
    obtain ⟨rfl, rfl⟩ := elements_alike hn hc hps hxs hqs fun q hq => hnames.element hq
    rw [bind_of_ok hclose] at hp
    cases hp
    exact ⟨rfl, rfl⟩
  · obtain ⟨xs, v, w, rfl, hopen, hxs, hclose⟩ := primary_leftBrace_eq_ok hsign hx
    rw [bracketed_of_noIn hc] at hxs
    rw [bindingPattern_at_leftBrace hsign, bind_of_ok hopen] at hp
    obtain ⟨ps, w', hps, hp⟩ := bind_eq_ok hp
    obtain ⟨qs, hqs, hpattern⟩ := bind_except_eq_ok hpattern
    cases hpattern
    obtain ⟨rfl, rfl⟩ := properties_alike hn hc hps hxs hqs fun q hq => hnames.property hq
    rw [bind_of_ok hclose] at hp
    cases hp
    exact ⟨rfl, rfl⟩

/-- The patterns that expressions can be read as have no more than a default behind them. -/
theorem element_alike (hn : n.ReadsAlike) (hc : c.noIn = false) {cover : Bool}
    (hp : bindingElement n c (bindingPattern n c) s = .ok p t)
    (hx : assignment n c cover s = .ok x u) (htarget : Target strict x q) : p = q ∧ t = u := by
  unfold bindingElement at hp
  rw [bracketed_of_noIn hc] at hp
  obtain ⟨p', v, hp', hp⟩ := bind_eq_ok hp
  rcases target_of_assignment hx htarget with ⟨hprimary, hsign⟩ |
    ⟨name, value, w, w', rfl, rfl, hprimary, hsign, hvalue⟩
  · obtain ⟨rfl, rfl⟩ := pattern_alike hn hc hp' hprimary htarget
    rw [eat_bind, atSign_bind, if_neg (by simpa using hsign), if_neg nofun] at hp
    cases hp
    exact ⟨rfl, rfl⟩
  · obtain ⟨p'', hname, -⟩ := bind_except_eq_ok htarget.1
    have hp'' : p'' = .identifier name := by
      unfold Expr.toPattern at hname
      split at hname <;> cases hname
      rfl
    subst hp''
    obtain ⟨rfl, rfl⟩ := pattern_alike hn hc hp' hprimary ⟨hname, htarget.2.target⟩
    rw [eat_bind, atSign_bind, if_pos (by simpa using hsign.1), bind_of_ok hsign.2, if_pos rfl,
      bind_of_ok hvalue] at hp
    cases hp
    exact ⟨rfl, rfl⟩

theorem element_arrow {cover : Bool} {f : FunctionDef}
    (hp : bindingElement n c (bindingPattern n c) s = .ok p t)
    (hx : assignment n c cover s = .ok (.function f) u) : t.current.sign? = some .arrow := by
  have hprimary : primary n c s = .ok (.function f) u := by
    rcases assignment_eq_ok hx with ⟨hconditional, -⟩ | ⟨_, _, _, _, _, hassign, -⟩
    · exact rests_conditional n c s _ u hconditional rfl
    · cases hassign
  unfold bindingElement at hp
  obtain ⟨p', v, hp', hp⟩ := bind_eq_ok hp
  rcases bindingPattern_eq_ok hp' with ⟨name, hname, rfl, hadvance⟩ | hsign | hsign
  · obtain ⟨-, w, hadvance', harrow⟩ := (primary_of_name hname hprimary).resolve_left
      fun h => by cases h.1
    obtain ⟨-, rfl⟩ := ok_unique hadvance hadvance'
    rw [eat_bind, atSign_bind, if_neg (by simp [harrow]), if_neg nofun] at hp
    cases hp
    exact harrow
  · obtain ⟨_, _, _, harray, -⟩ := primary_leftBracket_eq_ok hsign hprimary
    cases harray
  · obtain ⟨_, _, _, hobject, -⟩ := primary_leftBrace_eq_ok hsign hprimary
    cases hobject

theorem target_noRest {cover : Bool} (hx : assignment n c cover s = .ok x t)
    (htarget : Target strict x q) : s.current.sign? ≠ some .ellipsis := by
  intro hsign
  have hprimary {y : Expr} {v : TokenStream} : primary n c s ≠ .ok y v := by
    unfold primary
    rw [current_bind, eq_punctuator hsign]
    nofun
  rcases target_of_assignment hx htarget with ⟨h, -⟩ | ⟨_, _, _, _, _, _, h, -⟩
  · exact hprimary h
  · exact hprimary h

theorem readsAlike_parse (depth rounds : Nat) : Nesting.ReadsAlike ⟨rounds, parse depth⟩ := by
  induction depth generalizing rounds with
  | zero => exact ⟨nofun, nofun, nofun⟩
  | succ depth ih => exact ⟨fun hc => element_alike (ih _) hc, element_arrow, target_noRest⟩

/-! ### Parameter lists -/

/-- A list of expressions in parentheses that can be read again as parameters that bind names, and
the list of parameters that is read from the same place. -/
theorem parameters_alike (hn : n.ReadsAlike) (hc : c.noIn = false)
    {xs : List Expr} {ps qs : List Pattern} {last last' : Option Pattern}
    (hx : commaListRest .rightParen (n.parse (.assignment true) c) (n.parse .pattern c) rounds s =
      .ok (xs, last) t)
    (hp : commaListRest .rightParen (n.parse .element c) (n.parse .pattern c) rounds s =
      .ok (ps, last') u)
    (hpatterns : xs.mapM (Expr.toPattern strict) = .ok qs) (hnames : ∀ q ∈ qs, q.BindsNames) :
    ps = qs ∧ last' = last := by
  induction rounds generalizing s xs ps qs with
  | zero => cases hx
  | succ rounds ih =>
    rcases commaListRest_eq_ok hx with ⟨hclose, hfound, rfl⟩ | ⟨p, v, hellipsis, hrest, hfound⟩ |
      ⟨x, ⟨xs, last⟩, v, w, hitem, hsep, hxs, hfound⟩
    · cases hfound
      cases hpatterns
      unfold commaListRest at hp
      rw [atSign_bind, if_pos (by simpa using hclose)] at hp
      cases hp
      exact ⟨rfl, rfl⟩
    · cases hfound
      cases hpatterns
      unfold commaListRest at hp
      rw [atSign_bind, if_neg (by simp [hellipsis.1]), eat_bind, atSign_bind,
        if_pos (by simpa using hellipsis.1), bind_of_ok hellipsis.2, if_pos rfl,
        bind_of_ok hrest] at hp
      cases hp
      exact ⟨rfl, rfl⟩
    · cases hfound
      rw [List.mapM_cons] at hpatterns
      obtain ⟨q, hq, hpatterns⟩ := bind_except_eq_ok hpatterns
      obtain ⟨qs, hqs, hpatterns⟩ := bind_except_eq_ok hpatterns
      cases hpatterns
      rcases commaListRest_eq_ok hp with ⟨hclose, -⟩ | ⟨_, _, hellipsis, -⟩ |
        ⟨p, ⟨ps, last'⟩, v', w', hitem', hsep', hps, hfound⟩
      · exact absurd hclose (hitem.1 _ (by simp [restEnds]))
      · exact absurd hellipsis.1 (hitem.1 _ (by simp [restEnds]))
      · cases hfound
        have htarget : Target strict x q := ⟨hq, hnames q (List.mem_cons_self ..)⟩
        obtain ⟨rfl, rfl⟩ := hn.target hc hitem'.2 hitem.2 htarget
        obtain ⟨-, rfl⟩ := ok_unique hsep hsep'
        obtain ⟨rfl, rfl⟩ := ih hxs hps hqs fun q hq => hnames q (List.mem_cons_of_mem _ hq)
        exact ⟨rfl, rfl⟩

theorem parameters_not_function (hn : n.ReadsAlike) {f : FunctionDef}
    {found : List Pattern × Option Pattern} {last : Option Pattern}
    (hx : commaListRest .rightParen (n.parse (.assignment true) c) (n.parse .pattern c) rounds s =
      .ok ([.function f], last) t) :
    commaListRest .rightParen (n.parse .element c) (n.parse .pattern c) rounds s ≠ .ok found u := by
  intro hp
  cases rounds with
  | zero => cases hx
  | succ rounds =>
    rcases commaListRest_eq_ok hx with ⟨-, hfound, -⟩ | ⟨_, _, -, -, hfound⟩ |
      ⟨x, ⟨xs, last⟩, v, w, hitem, -, -, hfound⟩
    · cases hfound
    · cases hfound
    · cases hfound
      rcases commaListRest_eq_ok hp with ⟨hclose, -⟩ | ⟨_, _, hellipsis, -⟩ |
        ⟨p, others, v', w', hitem', hsep, -⟩
      · exact absurd hclose (hitem.1 _ (by simp [restEnds]))
      · exact absurd hellipsis.1 (hitem.1 _ (by simp [restEnds]))
      · have harrow := hn.arrow hitem'.2 hitem.2
        rw [separate_eq_error (by simp [harrow]) (by simp [harrow])] at hsep
        cases hsep

end Grammar

end ProtoScript
