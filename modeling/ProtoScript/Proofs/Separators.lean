import ProtoScript.Proofs.Grammar.Yields
/-!
# What stands between the elements of a list

The grammar has eight lists: arguments, the elements of array literals and of array patterns, the
properties of object literals and of object patterns, parameters, what stands between parentheses,
and declarators.  Each is read by a loop of its own shape.  What such a loop has read is described
here without the loop: elements, a gap behind each of them that has a further one behind it, and
perhaps a rest at the end.  The gap is a comma in all lists but one: in an array pattern the comma
behind a target may be missing.
-/

namespace ProtoScript.Grammar

variable {α β : Type}

def Sign (sign : Punctuator) (s t : TokenStream) : Prop :=
  s.current.sign? = some sign ∧ Parser.advance s = .ok () t

/-- The rule reads an element at the stream, where none of the signs stands that end the
elements. -/
def Entry (ends : List Punctuator) (rule : Parser α) (s : TokenStream) (a : α) (t : TokenStream) :
    Prop :=
  (∀ sign ∈ ends, s.current.sign? ≠ some sign) ∧ rule s = .ok a t

/-- Elements one behind the other, each with a gap behind it. -/
inductive Led (Gap : TokenStream → TokenStream → Prop)
    (Item : TokenStream → α → TokenStream → Prop) : TokenStream → List α → TokenStream → Prop
  | nil (s : TokenStream) : Led Gap Item s [] s
  | cons {s t u v : TokenStream} {a : α} {list : List α} (item : Item s a t) (gap : Gap t u)
      (others : Led Gap Item u list v) : Led Gap Item s (a :: list) v

/-- Elements one behind the other, at least one, with a gap between any two of them and none behind
the last one. -/
def Joined (Gap : TokenStream → TokenStream → Prop) (Item : TokenStream → α → TokenStream → Prop)
    (s : TokenStream) (list : List α) (t : TokenStream) : Prop :=
  ∃ others last u, list = others ++ [last] ∧ Led Gap Item s others u ∧ Item u last t

/-- Elements one behind the other with a gap between any two of them; behind the last one there may
be a gap or not. -/
def Separated (Gap : TokenStream → TokenStream → Prop)
    (Item : TokenStream → α → TokenStream → Prop) (s : TokenStream) (list : List α)
    (t : TokenStream) : Prop :=
  Led Gap Item s list t ∨ Joined Gap Item s list t

/-- Elements one behind the other with a gap between any two of them, and behind the last gap the
rest if there is one. -/
def SeparatedRest (Gap : TokenStream → TokenStream → Prop)
    (Item : TokenStream → α → TokenStream → Prop) (Rest : TokenStream → β → TokenStream → Prop)
    (s : TokenStream) (list : List α) : Option β → TokenStream → Prop
  | none, t => Separated Gap Item s list t
  | some rest, t => ∃ u, Led Gap Item s list u ∧ Rest u rest t

def Enclosed (opening closing : Punctuator) (Inside : TokenStream → TokenStream → Prop)
    (s t : TokenStream) : Prop :=
  ∃ u v, Sign opening s u ∧ Inside u v ∧ Sign closing v t

/-- The elements of a list from its opening sign on, the last of which has neither a comma nor the
closing sign behind it. -/
def Unseparated (opening closing : Punctuator) (Item : TokenStream → α → TokenStream → Prop)
    (rounds : Nat) (s t : TokenStream) : Prop :=
  ∃ list a u v, list.length < rounds ∧ Sign opening s u ∧ Led (Sign .comma) Item u list v ∧
    Item v a t ∧ t.current.sign? ≠ some .comma ∧ t.current.sign? ≠ some closing

def restEnds (close : Punctuator) : List Punctuator := [close, .ellipsis]

/-- The comma that may be missing: where none stands, the next element begins at once. -/
def PerhapsComma (s t : TokenStream) : Prop :=
  Sign .comma s t ∨ s.current.sign? ≠ some .comma ∧ t = s

def RestPattern (n : Nesting) (c : Context) (s : TokenStream) (p : Pattern) (t : TokenStream) :
    Prop :=
  ∃ u, Sign .ellipsis s u ∧ n.parse .pattern c u = .ok p t

/-- An element of an array pattern that is no rest; in front of a comma it is a hole. -/
def patternElement (n : Nesting) (c : Context) : Parser (Option Pattern) := do
  if ← Parser.atSign .comma then return none else return some (← n.parse .element c)

def declarator (n : Nesting) (c : Context) (kind : DeclarationKind) : Parser Declarator := do
  let target ← bindingPattern n c
  if kind.isLexical && target.boundNames.contains "let" then throw .letAsName
  let init ← if ← Parser.eat .assign then some <$> n.parse (.assignment false) c else pure none
  return ⟨target, init⟩

def withRest (list : List (Option Pattern)) (rest : Option Pattern) : List (Option Pattern) :=
  list ++ rest.toList.map fun p => some (.rest p)

/-! ### Signs -/

theorem sign_of_atSign {sign : Punctuator} {s : TokenStream}
    (h : (s.current.sign? == some sign) = true) : s.current.sign? = some sign := by
  simpa using h

theorem eat_eq_ok {sign : Punctuator} {s t : TokenStream} {found : Bool}
    (h : Parser.eat sign s = .ok found t) :
    found = true ∧ Sign sign s t ∨ found = false ∧ s.current.sign? ≠ some sign ∧ t = s := by
  unfold Parser.eat at h
  rw [atSign_bind] at h
  split at h
  · next hsign =>
    obtain ⟨_, u, hu, h⟩ := bind_eq_ok h
    cases h
    exact .inl ⟨rfl, sign_of_atSign hsign, hu⟩
  · next hsign =>
    cases h
    exact .inr ⟨rfl, by simpa using hsign, rfl⟩

theorem expect_eq_ok {sign : Punctuator} {s t : TokenStream}
    (h : Parser.expect sign s = .ok () t) : Sign sign s t := by
  unfold Parser.expect at h
  rw [atSign_bind] at h
  split at h
  · next hsign => exact ⟨sign_of_atSign hsign, h⟩
  · cases h

/-- Behind an element a comma is taken, or the closing sign stands there. -/
theorem separate_eq_ok {close : Punctuator} {s t : TokenStream}
    (h : Parser.separate close s = .ok () t) :
    Sign .comma s t ∨ s.current.sign? = some close ∧ t = s := by
  unfold Parser.separate at h
  rw [atSign_bind] at h
  split at h
  · next hsign => exact .inl ⟨sign_of_atSign hsign, h⟩
  · rw [atSign_bind] at h
    split at h
    · next hsign =>
      cases h
      exact .inr ⟨sign_of_atSign hsign, rfl⟩
    · cases h

theorem separate_eq_error {close : Punctuator} {s : TokenStream}
    (hcomma : s.current.sign? ≠ some .comma) (hclose : s.current.sign? ≠ some close) :
    Parser.separate close s = .error (.unexpectedToken s.current) s := by
  unfold Parser.separate
  rw [atSign_bind, if_neg (by simpa using hcomma), atSign_bind, if_neg (by simpa using hclose)]
  rfl

theorem separate_of_comma {close : Punctuator} {s t : TokenStream} (h : Sign .comma s t) :
    Parser.separate close s = .ok () t := by
  unfold Parser.separate
  rw [atSign_bind, if_pos (by simpa using h.1)]
  exact h.2

/-! ### Elements and gaps -/

section Chains

variable {Gap : TokenStream → TokenStream → Prop} {Item : TokenStream → α → TokenStream → Prop}
  {Rest : TokenStream → β → TokenStream → Prop} {s t u v : TokenStream} {a : α} {list : List α}

theorem Joined.single (hitem : Item s a t) : Joined Gap Item s [a] t :=
  ⟨[], a, s, rfl, .nil s, hitem⟩

theorem Joined.cons (hitem : Item s a t) (hgap : Gap t u) (h : Joined Gap Item u list v) :
    Joined Gap Item s (a :: list) v := by
  obtain ⟨others, last, w, rfl, h, hlast⟩ := h
  exact ⟨a :: others, last, w, rfl, .cons hitem hgap h, hlast⟩

theorem Separated.cons (hitem : Item s a t) (hgap : Gap t u) (h : Separated Gap Item u list v) :
    Separated Gap Item s (a :: list) v :=
  h.imp (.cons hitem hgap) (.cons hitem hgap)

theorem SeparatedRest.cons {rest : Option β} (hitem : Item s a t) (hgap : Gap t u)
    (h : SeparatedRest Gap Item Rest u list rest v) :
    SeparatedRest Gap Item Rest s (a :: list) rest v := by
  cases rest with
  | none => exact Separated.cons hitem hgap h
  | some rest =>
    obtain ⟨w, h, hrest⟩ := h
    exact ⟨w, .cons hitem hgap h, hrest⟩

variable {ends : List Punctuator} {rule : Parser α} {sign : Punctuator}

theorem Led.eq_nil (h : Led Gap (Entry ends rule) s list t) (hmem : sign ∈ ends)
    (hsign : s.current.sign? = some sign) : list = [] ∧ t = s := by
  cases h with
  | nil => exact ⟨rfl, rfl⟩
  | cons item gap others => exact absurd hsign (item.1 sign hmem)

theorem Separated.eq_nil (h : Separated Gap (Entry ends rule) s list t) (hmem : sign ∈ ends)
    (hsign : s.current.sign? = some sign) : list = [] ∧ t = s := by
  rcases h with h | ⟨others, last, u, rfl, h, hlast⟩
  · exact h.eq_nil hmem hsign
  · obtain ⟨rfl, rfl⟩ := h.eq_nil hmem hsign
    exact absurd hsign (hlast.1 sign hmem)

theorem SeparatedRest.eq_nil {n : Nesting} {c : Context} {rest : Option Pattern}
    (h : SeparatedRest Gap (Entry ends rule) (RestPattern n c) s list rest t) (hmem : sign ∈ ends)
    (hsign : s.current.sign? = some sign) (hne : sign ≠ .ellipsis) :
    list = [] ∧ rest = none ∧ t = s := by
  cases rest with
  | none =>
    obtain ⟨rfl, rfl⟩ := Separated.eq_nil h hmem hsign
    exact ⟨rfl, rfl, rfl⟩
  | some rest =>
    obtain ⟨u, h, v, hrest, -⟩ := h
    obtain ⟨rfl, rfl⟩ := h.eq_nil hmem hsign
    rw [hrest.1] at hsign
    exact absurd (Option.some.inj hsign).symm hne

end Chains

/-! ### Loops with a comma in every gap -/

/-- Elements with commas between them up to the closing sign, which stays, and a rest pattern if
there is one. -/
def commaListRest (close : Punctuator) (element : Parser α) (rest : Parser β) :
    Nat → Parser (List α × Option β)
  | 0 => throw .outOfFuel
  | rounds + 1 => do
    if ← Parser.atSign close then return ([], none)
    else if ← Parser.eat .ellipsis then return ([], some (← rest))
    else
      let first ← element
      Parser.separate close
      let (others, rest) ← commaListRest close element rest rounds
      return (first :: others, rest)

theorem parenthesizedElements_eq (n : Nesting) (c : Context) (rounds : Nat) :
    parenthesizedElements n c rounds =
      commaListRest .rightParen (n.parse (.assignment true) c) (n.parse .pattern c) rounds := by
  induction rounds with
  | zero => rfl
  | succ rounds ih =>
    unfold parenthesizedElements commaListRest
    rw [ih]

theorem parameterList_eq (n : Nesting) (c : Context) (rounds : Nat) :
    parameterList n c rounds =
      commaListRest .rightParen (n.parse .element c) (n.parse .pattern c) rounds >>= fun found =>
        pure (found.1 ++ found.2.toList.map .rest) := by
  induction rounds with
  | zero => rfl
  | succ rounds ih =>
    unfold parameterList commaListRest
    rw [ih, bind_assoc]
    refine congrArg _ (funext fun closed => ?_)
    cases closed
    · simp only [Bool.false_eq_true, if_false, bind_assoc]
      refine congrArg _ (funext fun found => ?_)
      cases found
      · simp
      · simp
    · simp

section Strict

variable {close : Punctuator} {element : Parser α} {rest : Parser β} {rounds : Nat}

theorem commaList_of_element {s t : TokenStream} {a : α} (h : Entry [close] element s a t) :
    Parser.commaList close element (rounds + 1) s = (Parser.separate close >>= fun _ =>
      Parser.commaList close element rounds >>= fun others => pure (a :: others)) t := by
  conv => lhs; unfold Parser.commaList
  rw [atSign_bind, if_neg (by simpa using h.1), bind_of_ok h.2]

theorem commaListRest_of_element {s t : TokenStream} {a : α}
    (h : Entry (restEnds close) element s a t) :
    commaListRest close element rest (rounds + 1) s = (Parser.separate close >>= fun _ =>
      commaListRest close element rest rounds >>= fun others =>
        pure (a :: others.1, others.2)) t := by
  have hclose : s.current.sign? ≠ some close := h.1 close (by simp [restEnds])
  have hrest : s.current.sign? ≠ some .ellipsis := h.1 .ellipsis (by simp [restEnds])
  conv => lhs; unfold commaListRest
  rw [atSign_bind, if_neg (by simpa using hclose), eat_bind, atSign_bind,
    if_neg (by simpa using hrest), if_neg nofun, bind_of_ok h.2]

theorem separated_of_commaList {s t : TokenStream} {list : List α}
    (h : Parser.commaList close element rounds s = .ok list t) :
    Separated (Sign .comma) (Entry [close] element) s list t ∧ t.current.sign? = some close := by
  induction rounds generalizing s list with
  | zero => cases h
  | succ rounds ih =>
    by_cases hclose : s.current.sign? = some close
    · unfold Parser.commaList at h
      rw [atSign_bind, if_pos (by simpa using hclose)] at h
      cases h
      exact ⟨.inl (.nil _), hclose⟩
    cases hfirst : element s with
    | error e u =>
      unfold Parser.commaList at h
      rw [atSign_bind, if_neg (by simpa using hclose), bind_of_error hfirst] at h
      cases h
    | ok first u =>
      have hitem : Entry [close] element s first u := ⟨by simpa using hclose, hfirst⟩
      rw [commaList_of_element hitem] at h
      obtain ⟨_, v, hsep, h⟩ := bind_eq_ok h
      obtain ⟨others, w, hothers, h⟩ := bind_eq_ok h
      cases h
      obtain ⟨hlist, hend⟩ := ih hothers
      rcases separate_eq_ok hsep with hcomma | ⟨hsign, rfl⟩
      · exact ⟨hlist.cons hitem hcomma, hend⟩
      · obtain ⟨rfl, rfl⟩ := hlist.eq_nil (List.mem_singleton_self _) hsign
        exact ⟨.inr (.single hitem), hend⟩

/-- A list with an element that has neither a comma nor the closing sign behind it is refused,
whichever rule reads it, if the rule takes an element and what separates it in each round. -/
theorem eq_error_of_led {γ : Type} {list : Nat → Parser γ} {add : α → γ → γ}
    {ends : List Punctuator} (hround : ∀ {rounds s t a}, Entry ends element s a t →
      list (rounds + 1) s = (Parser.separate close >>= fun _ =>
        list rounds >>= fun others => pure (add a others)) t)
    {s u t : TokenStream} {found : List α} {a : α}
    (h : Led (Sign .comma) (Entry ends element) s found u) (hitem : Entry ends element u a t)
    (hcomma : t.current.sign? ≠ some .comma) (hclose : t.current.sign? ≠ some close)
    (hrounds : found.length < rounds) :
    list rounds s = .error (.unexpectedToken t.current) t := by
  induction h generalizing rounds with
  | nil s =>
    obtain ⟨rounds, rfl⟩ := Nat.exists_eq_add_one_of_ne_zero (Nat.ne_of_gt hrounds)
    rw [hround hitem, bind_of_error (separate_eq_error hcomma hclose)]
  | cons item gap others ih =>
    obtain ⟨rounds, rfl⟩ := Nat.exists_eq_add_one_of_ne_zero (Nat.ne_zero_of_lt hrounds)
    rw [hround item, bind_of_ok (separate_of_comma gap),
      bind_of_error (ih hitem (Nat.lt_of_succ_lt_succ hrounds))]

theorem commaList_eq_error {s u t : TokenStream} {list : List α} {a : α}
    (h : Led (Sign .comma) (Entry [close] element) s list u) (hitem : Entry [close] element u a t)
    (hcomma : t.current.sign? ≠ some .comma) (hclose : t.current.sign? ≠ some close)
    (hrounds : list.length < rounds) :
    Parser.commaList close element rounds s = .error (.unexpectedToken t.current) t :=
  eq_error_of_led commaList_of_element h hitem hcomma hclose hrounds

/-- A list with a rest ends in front of its closing sign, or behind the rest. -/
theorem separated_of_commaListRest {n : Nesting} {c : Context} {s t : TokenStream} {list : List α}
    {found : Option Pattern} (hne : close ≠ .ellipsis)
    (h : commaListRest close element (n.parse .pattern c) rounds s = .ok (list, found) t) :
    SeparatedRest (Sign .comma) (Entry (restEnds close) element) (RestPattern n c) s list found
      t := by
  induction rounds generalizing s list with
  | zero => cases h
  | succ rounds ih =>
    by_cases hclose : s.current.sign? = some close
    · unfold commaListRest at h
      rw [atSign_bind, if_pos (by simpa using hclose)] at h
      cases h
      exact .inl (.nil _)
    by_cases hrest : s.current.sign? = some .ellipsis
    · unfold commaListRest at h
      rw [atSign_bind, if_neg (by simpa using hclose), eat_bind, atSign_bind,
        if_pos (by simpa using hrest)] at h
      obtain ⟨_, u, hu, h⟩ := bind_eq_ok h
      obtain ⟨p, v, hp, h⟩ := bind_eq_ok h
      cases h
      exact ⟨s, .nil s, u, ⟨hrest, hu⟩, hp⟩
    have hends : ∀ sign ∈ restEnds close, s.current.sign? ≠ some sign := by
      simp [restEnds, hclose, hrest]
    cases hfirst : element s with
    | error e u =>
      unfold commaListRest at h
      rw [atSign_bind, if_neg (by simpa using hclose), eat_bind, atSign_bind,
        if_neg (by simpa using hrest), if_neg nofun, bind_of_error hfirst] at h
      cases h
    | ok first u =>
      have hitem : Entry (restEnds close) element s first u := ⟨hends, hfirst⟩
      rw [commaListRest_of_element hitem] at h
      obtain ⟨_, v, hsep, h⟩ := bind_eq_ok h
      obtain ⟨⟨others, found'⟩, w, hothers, h⟩ := bind_eq_ok h
      cases h
      rcases separate_eq_ok hsep with hcomma | ⟨hsign, rfl⟩
      · exact (ih hothers).cons hitem hcomma
      · obtain ⟨rfl, rfl, rfl⟩ := (ih hothers).eq_nil (List.mem_cons_self ..) hsign hne
        exact Or.inr (Joined.single hitem)

theorem commaListRest_eq_error {s u t : TokenStream} {list : List α} {a : α}
    (h : Led (Sign .comma) (Entry (restEnds close) element) s list u)
    (hitem : Entry (restEnds close) element u a t) (hcomma : t.current.sign? ≠ some .comma)
    (hclose : t.current.sign? ≠ some close) (hrounds : list.length < rounds) :
    commaListRest close element rest rounds s = .error (.unexpectedToken t.current) t :=
  eq_error_of_led commaListRest_of_element h hitem hcomma hclose hrounds

end Strict

/-! ### Array patterns and declarators -/

theorem separated_of_arrayPatternElements {n : Nesting} {c : Context} {rounds : Nat}
    {s t : TokenStream} {found : List (Option Pattern)}
    (h : arrayPatternElements n c rounds s = .ok found t) :
    ∃ list rest, found = withRest list rest ∧
      SeparatedRest PerhapsComma (Entry (restEnds .rightBracket) (patternElement n c))
        (RestPattern n c) s list rest t := by
  induction rounds generalizing s found with
  | zero => cases h
  | succ rounds ih =>
    unfold arrayPatternElements at h
    rw [atSign_bind] at h
    split at h
    · cases h
      exact ⟨[], none, rfl, .inl (.nil _)⟩
    next hclose =>
    obtain ⟨comma, u, heat, hfound⟩ := bind_eq_ok h
    rcases eat_eq_ok heat with ⟨rfl, hcomma⟩ | ⟨rfl, hcomma, rfl⟩
    · obtain ⟨others, v, hothers, hdone⟩ := bind_eq_ok hfound
      cases hdone
      obtain ⟨list, rest, rfl, hlist⟩ := ih hothers
      have hhole : patternElement n c s = .ok none s := by
        unfold patternElement
        rw [atSign_bind, if_pos (by simpa using hcomma.1)]
        rfl
      have hitem : Entry (restEnds .rightBracket) (patternElement n c) s none s :=
        ⟨by simp [restEnds, hcomma.1], hhole⟩
      exact ⟨none :: list, rest, rfl, hlist.cons hitem (.inl hcomma)⟩
    obtain ⟨ellipsis, v, heat', hnext⟩ := bind_eq_ok hfound
    rcases eat_eq_ok heat' with ⟨rfl, hellipsis⟩ | ⟨rfl, hellipsis, rfl⟩
    · obtain ⟨p, w, hp, hdone⟩ := bind_eq_ok hnext
      cases hdone
      exact ⟨[], some p, rfl, u, .nil u, v, hellipsis, hp⟩
    obtain ⟨element, w, helement, hnext⟩ := bind_eq_ok hnext
    obtain ⟨comma, x, hgap, hnext⟩ := bind_eq_ok hnext
    obtain ⟨others, y, hothers, hdone⟩ := bind_eq_ok hnext
    cases hdone
    obtain ⟨list, rest, rfl, hlist⟩ := ih hothers
    have hread : patternElement n c v = .ok (some element) w := by
      unfold patternElement
      rw [atSign_bind, if_neg (by simpa using hcomma), bind_of_ok helement]
      rfl
    have hitem : Entry (restEnds .rightBracket) (patternElement n c) v (some element) w :=
      ⟨by simpa [restEnds, hellipsis] using hclose, hread⟩
    have hperhaps : PerhapsComma w x := (eat_eq_ok hgap).imp And.right And.right
    exact ⟨some element :: list, rest, rfl, hlist.cons hitem hperhaps⟩

section Declarators

variable {n : Nesting} {c : Context} {kind : DeclarationKind} {rounds : Nat}

theorem declarators_succ (n : Nesting) (c : Context) (kind : DeclarationKind) (rounds : Nat) :
    declarators n c kind (rounds + 1) = declarator n c kind >>= fun d =>
      Parser.eat .comma >>= fun comma =>
        if comma = true then declarators n c kind rounds >>= fun others => pure (d :: others)
        else pure [d] := by
  conv => lhs; unfold declarators
  unfold declarator
  rw [bind_assoc]
  refine congrArg _ (funext fun target => ?_)
  dsimp only
  split
  · rfl
  · rw [bind_assoc]
    refine congrArg _ (funext fun assigned => ?_)
    cases assigned
    · simp
    · simp

theorem joined_of_declarators {s t : TokenStream} {list : List Declarator}
    (h : declarators n c kind rounds s = .ok list t) :
    Joined (Sign .comma) (Entry [] (declarator n c kind)) s list t ∧
      t.current.sign? ≠ some .comma := by
  induction rounds generalizing s list with
  | zero => cases h
  | succ rounds ih =>
    rw [declarators_succ] at h
    obtain ⟨d, u, hd, h⟩ := bind_eq_ok h
    obtain ⟨comma, v, heat, hfound⟩ := bind_eq_ok h
    have hitem : Entry [] (declarator n c kind) s d u := ⟨nofun, hd⟩
    rcases eat_eq_ok heat with ⟨rfl, hcomma⟩ | ⟨rfl, hcomma, rfl⟩
    · obtain ⟨others, w, hothers, hdone⟩ := bind_eq_ok hfound
      cases hdone
      obtain ⟨hlist, hend⟩ := ih hothers
      exact ⟨hlist.cons hitem hcomma, hend⟩
    · cases hfound
      exact ⟨.single hitem, hcomma⟩

theorem declarators_eq_ok {s u t : TokenStream} {list : List Declarator} {d : Declarator}
    (h : Led (Sign .comma) (Entry [] (declarator n c kind)) s list u)
    (hitem : declarator n c kind u = .ok d t) (hcomma : t.current.sign? ≠ some .comma)
    (hrounds : list.length < rounds) :
    declarators n c kind rounds s = .ok (list ++ [d]) t := by
  induction h generalizing rounds with
  | nil s =>
    obtain ⟨rounds, rfl⟩ := Nat.exists_eq_add_one_of_ne_zero (Nat.ne_of_gt hrounds)
    rw [declarators_succ, bind_of_ok hitem, eat_bind, atSign_bind, if_neg (by simpa using hcomma)]
    rfl
  | cons item gap others ih =>
    obtain ⟨rounds, rfl⟩ := Nat.exists_eq_add_one_of_ne_zero (Nat.ne_zero_of_lt hrounds)
    rw [declarators_succ, bind_of_ok item.2, eat_bind, atSign_bind,
      if_pos (by simpa using gap.1), bind_of_ok gap.2, if_pos rfl,
      bind_of_ok (ih hitem (Nat.lt_of_succ_lt_succ hrounds))]
    rfl

end Declarators

/-! ### The eight lists -/

theorem eq_punctuator {token : Token} {sign : Punctuator} (h : token.sign? = some sign) :
    token = .punctuator sign := by
  cases token <;> simp_all [Token.sign?]

theorem expect_of_sign {sign : Punctuator} {s t : TokenStream} (h : Sign sign s t) :
    Parser.expect sign s = .ok () t := by
  unfold Parser.expect
  rw [atSign_bind, if_pos (by simpa using h.1)]
  exact h.2

theorem atArrow_bind (f : Bool → Parser β) (s : TokenStream) :
    (atArrow >>= f) s = f (s.current.sign? == some .arrow && !s.afterBreak) s := rfl

theorem isStrict_bind (f : Bool → Parser β) (s : TokenStream) :
    (Parser.isStrict >>= f) s = f s.strict s := rfl

section Brackets

variable {n : Nesting} {c : Context} {s : TokenStream}

theorem bracketed_eq_ok {α β : Type} {opening : Parser Unit} {list : Parser α} {f : α → β}
    {close : Punctuator} {x : β} (h : (opening >>= fun _ => list >>= fun found =>
      Parser.expect close >>= fun _ => pure (f found)) s = .ok x t) :
    ∃ found u v, x = f found ∧ opening s = .ok () u ∧ list u = .ok found v ∧
      Parser.expect close v = .ok () t := by
  obtain ⟨_, u, hopen, h⟩ := bind_eq_ok h
  obtain ⟨found, v, hlist, h⟩ := bind_eq_ok h
  obtain ⟨_, w, hclose, h⟩ := bind_eq_ok h
  cases h
  exact ⟨found, u, v, rfl, hopen, hlist, hclose⟩

theorem bindingPattern_at_leftBracket (h : s.current.sign? = some .leftBracket) :
    bindingPattern n c s = (Parser.advance >>= fun _ =>
      arrayPatternElements n c n.rounds >>= fun elements =>
        Parser.expect .rightBracket >>= fun _ => pure (.array elements)) s := by
  unfold bindingPattern
  rw [currentName?_bind, eq_punctuator h]
  dsimp only [nameOfToken?]
  rw [eat_bind, atSign_bind, if_pos (by simpa using h)]
  rfl

theorem bindingPattern_at_leftBrace (h : s.current.sign? = some .leftBrace) :
    bindingPattern n c s = (Parser.advance >>= fun _ =>
      Parser.commaList .rightBrace (patternProperty n c) n.rounds >>= fun properties =>
        Parser.expect .rightBrace >>= fun _ => pure (.object properties)) s := by
  unfold bindingPattern
  rw [currentName?_bind, eq_punctuator h]
  dsimp only [nameOfToken?]
  rw [eat_bind, atSign_bind, if_neg (by simp [h]), if_neg nofun, eat_bind, atSign_bind,
    if_pos (by simpa using h)]
  rfl

theorem primary_at_leftBracket (h : s.current.sign? = some .leftBracket) :
    primary n c s = (Parser.advance >>= fun _ =>
      Parser.commaList .rightBracket (arrayElement n c.bracketed) n.rounds >>= fun elements =>
        Parser.expect .rightBracket >>= fun _ => pure (.array elements)) s := by
  unfold primary
  rw [current_bind, eq_punctuator h]

theorem primary_at_leftBrace (h : s.current.sign? = some .leftBrace) :
    primary n c s = (Parser.advance >>= fun _ =>
      Parser.commaList .rightBrace (objectProperty n c.bracketed) n.rounds >>= fun properties =>
        Parser.expect .rightBrace >>= fun _ => pure (.object properties)) s := by
  unfold primary
  rw [current_bind, eq_punctuator h]

theorem primary_at_leftParen (h : s.current.sign? = some .leftParen) :
    primary n c s = parenthesized n c s := by
  unfold primary
  rw [current_bind, eq_punctuator h]

/-- What is read from an opening parenthesis on: the list, its closing sign, and an arrow function
if an arrow follows. -/
theorem parenthesized_eq_ok {t : TokenStream} {x : Expr} (h : parenthesized n c s = .ok x t) :
    ∃ list rest u v w, Parser.advance s = .ok () u ∧
      commaListRest .rightParen (n.parse (.assignment true) c.bracketed)
        (n.parse .pattern c.bracketed) n.rounds u = .ok (list, rest) v ∧
      Sign .rightParen v w ∧
      (t = w ∧ rest = none ∧ (list = [x] ∨ x = .sequence list) ∨
        ∃ parameters, toParameters w.strict list rest = .ok parameters ∧
          arrowFunction n c parameters w = .ok x t) := by
  unfold parenthesized at h
  rw [parenthesizedElements_eq] at h
  obtain ⟨_, u, hopen, h⟩ := bind_eq_ok h
  obtain ⟨⟨list, rest⟩, v, hlist, h⟩ := bind_eq_ok h
  obtain ⟨_, w, hclose, h⟩ := bind_eq_ok h
  refine ⟨list, rest, u, v, w, hopen, hlist, expect_eq_ok hclose, ?_⟩
  rw [atArrow_bind] at h
  split at h
  · rw [isStrict_bind] at h
    cases heq : toParameters w.strict list rest with
    | ok parameters =>
      rw [heq] at h
      exact .inr ⟨parameters, rfl, h⟩
    | error e =>
      rw [heq] at h
      cases h
  split at h
  · cases h
  next hrest =>
  split at h
  · cases h
  have hnone : rest = none := by
    cases rest with
    | none => rfl
    | some p => simp at hrest
  split at h
  · cases h
    exact .inl ⟨rfl, hnone, .inl rfl⟩
  · cases h
    exact .inl ⟨rfl, hnone, .inr rfl⟩

end Brackets

/-- How the eight lists are separated, for a stream where one of them begins and a stream where it
ends or is refused. -/
structure ListsSeparated (n : Nesting) (c : Context) (s t : TokenStream) : Prop where
  arguments : ∀ list, callArguments n c s = .ok list t →
    Enclosed .leftParen .rightParen (Separated (Sign .comma)
      (Entry [.rightParen] (n.parse (.assignment false) c.bracketed)) · list ·) s t
  arguments_refused : Unseparated .leftParen .rightParen
      (Entry [.rightParen] (n.parse (.assignment false) c.bracketed)) n.rounds s t →
    callArguments n c s = .error (.unexpectedToken t.current) t
  /-- A hole of an array literal stands in front of its comma. -/
  arrayLiteral : ∀ x, s.current.sign? = some .leftBracket → primary n c s = .ok x t →
    ∃ elements, x = .array elements ∧
      Enclosed .leftBracket .rightBracket (Separated (Sign .comma)
        (Entry [.rightBracket] (arrayElement n c.bracketed)) · elements ·) s t
  arrayLiteral_refused : Unseparated .leftBracket .rightBracket
      (Entry [.rightBracket] (arrayElement n c.bracketed)) n.rounds s t →
    primary n c s = .error (.unexpectedToken t.current) t
  objectLiteral : ∀ x, s.current.sign? = some .leftBrace → primary n c s = .ok x t →
    ∃ properties, x = .object properties ∧
      Enclosed .leftBrace .rightBrace (Separated (Sign .comma)
        (Entry [.rightBrace] (objectProperty n c.bracketed)) · properties ·) s t
  objectLiteral_refused : Unseparated .leftBrace .rightBrace
      (Entry [.rightBrace] (objectProperty n c.bracketed)) n.rounds s t →
    primary n c s = .error (.unexpectedToken t.current) t
  objectPattern : ∀ p, s.current.sign? = some .leftBrace → bindingPattern n c s = .ok p t →
    ∃ properties, p = .object properties ∧
      Enclosed .leftBrace .rightBrace (Separated (Sign .comma)
        (Entry [.rightBrace] (patternProperty n c)) · properties ·) s t
  objectPattern_refused : Unseparated .leftBrace .rightBrace
      (Entry [.rightBrace] (patternProperty n c)) n.rounds s t →
    bindingPattern n c s = .error (.unexpectedToken t.current) t
  /-- In an array pattern the comma may be missing. -/
  arrayPattern : ∀ p, s.current.sign? = some .leftBracket → bindingPattern n c s = .ok p t →
    ∃ list rest, p = .array (withRest list rest) ∧
      Enclosed .leftBracket .rightBracket (SeparatedRest PerhapsComma
        (Entry (restEnds .rightBracket) (patternElement n c)) (RestPattern n c) · list rest ·) s t
  parameters : ∀ found, Grammar.parameters n c s = .ok found t →
    ∃ list rest, found = list ++ rest.toList.map .rest ∧
      Enclosed .leftParen .rightParen (SeparatedRest (Sign .comma)
        (Entry (restEnds .rightParen) (n.parse .element c.bracketed))
        (RestPattern n c.bracketed) · list rest ·) s t
  parameters_refused : Unseparated .leftParen .rightParen
      (Entry (restEnds .rightParen) (n.parse .element c.bracketed)) n.rounds s t →
    Grammar.parameters n c s = .error (.unexpectedToken t.current) t
  /-- Behind its closing sign the list in parentheses is an expression, or an arrow function
  follows. -/
  parenthesized : ∀ x, s.current.sign? = some .leftParen → primary n c s = .ok x t →
    ∃ list rest u, Enclosed .leftParen .rightParen (SeparatedRest (Sign .comma)
        (Entry (restEnds .rightParen) (n.parse (.assignment true) c.bracketed))
        (RestPattern n c.bracketed) · list rest ·) s u ∧
      (t = u ∧ rest = none ∧ (list = [x] ∨ x = .sequence list) ∨
        ∃ parameters, toParameters u.strict list rest = .ok parameters ∧
          arrowFunction n c parameters u = .ok x t)
  parenthesized_refused : Unseparated .leftParen .rightParen
      (Entry (restEnds .rightParen) (n.parse (.assignment true) c.bracketed)) n.rounds s t →
    primary n c s = .error (.unexpectedToken t.current) t
  declarators : ∀ kind rounds list, Grammar.declarators n c kind rounds s = .ok list t →
    Joined (Sign .comma) (Entry [] (declarator n c kind)) s list t
  /-- Behind a declarator without a comma the declaration has to end. -/
  declarators_refused : ∀ kind list d u v, list.length < n.rounds →
    Parser.advance s = .ok () u → Led (Sign .comma) (Entry [] (declarator n c kind)) u list v →
    declarator n c kind v = .ok d t → t.current.sign? ≠ some .comma →
    Parser.endStatement t = .error (.unexpectedToken t.current) t →
    ∃ e, declarationStatement n c kind s = .error e t ∧
      (e = .missingInitializer ∨ e = .unexpectedToken t.current)

/-- The elements of every list are separated by commas, apart from those of array patterns: there
the comma may be missing.  In all other lists an element with neither a comma nor the closing sign
behind it is a syntax error at the token behind it. -/
theorem lists_separated (n : Nesting) (c : Context) (s t : TokenStream) :
    ListsSeparated n c s t where
  arguments list h := by
    unfold callArguments at h
    obtain ⟨_, u, v, rfl, hopen, hlist, hclose⟩ := bracketed_eq_ok h
    exact ⟨u, v, expect_eq_ok hopen, (separated_of_commaList hlist).1, expect_eq_ok hclose⟩
  arguments_refused := by
    rintro ⟨list, a, u, v, hrounds, hopen, hled, hitem, hcomma, hclose⟩
    unfold callArguments
    rw [bind_of_ok (expect_of_sign hopen),
      bind_of_error (commaList_eq_error hled hitem hcomma hclose hrounds)]
  arrayLiteral x hsign h := by
    rw [primary_at_leftBracket hsign] at h
    obtain ⟨elements, u, v, rfl, hopen, hlist, hclose⟩ := bracketed_eq_ok h
    exact ⟨elements, rfl, u, v, ⟨hsign, hopen⟩, (separated_of_commaList hlist).1,
      expect_eq_ok hclose⟩
  arrayLiteral_refused := by
    rintro ⟨list, a, u, v, hrounds, hopen, hled, hitem, hcomma, hclose⟩
    rw [primary_at_leftBracket hopen.1, bind_of_ok hopen.2,
      bind_of_error (commaList_eq_error hled hitem hcomma hclose hrounds)]
  objectLiteral x hsign h := by
    rw [primary_at_leftBrace hsign] at h
    obtain ⟨properties, u, v, rfl, hopen, hlist, hclose⟩ := bracketed_eq_ok h
    exact ⟨properties, rfl, u, v, ⟨hsign, hopen⟩, (separated_of_commaList hlist).1,
      expect_eq_ok hclose⟩
  objectLiteral_refused := by
    rintro ⟨list, a, u, v, hrounds, hopen, hled, hitem, hcomma, hclose⟩
    rw [primary_at_leftBrace hopen.1, bind_of_ok hopen.2,
      bind_of_error (commaList_eq_error hled hitem hcomma hclose hrounds)]
  objectPattern p hsign h := by
    rw [bindingPattern_at_leftBrace hsign] at h
    obtain ⟨properties, u, v, rfl, hopen, hlist, hclose⟩ := bracketed_eq_ok h
    exact ⟨properties, rfl, u, v, ⟨hsign, hopen⟩, (separated_of_commaList hlist).1,
      expect_eq_ok hclose⟩
  objectPattern_refused := by
    rintro ⟨list, a, u, v, hrounds, hopen, hled, hitem, hcomma, hclose⟩
    rw [bindingPattern_at_leftBrace hopen.1, bind_of_ok hopen.2,
      bind_of_error (commaList_eq_error hled hitem hcomma hclose hrounds)]
  arrayPattern p hsign h := by
    rw [bindingPattern_at_leftBracket hsign] at h
    obtain ⟨elements, u, v, rfl, hopen, hread, hclose⟩ := bracketed_eq_ok h
    obtain ⟨list, rest, rfl, hlist⟩ := separated_of_arrayPatternElements hread
    exact ⟨list, rest, rfl, u, v, ⟨hsign, hopen⟩, hlist, expect_eq_ok hclose⟩
  parameters found h := by
    unfold Grammar.parameters at h
    rw [parameterList_eq] at h
    obtain ⟨_, u, v, rfl, hopen, hread, hclose⟩ := bracketed_eq_ok h
    obtain ⟨⟨list, rest⟩, v, hlist, hfound⟩ := bind_eq_ok hread
    cases hfound
    exact ⟨list, rest, rfl, u, v, expect_eq_ok hopen, separated_of_commaListRest nofun hlist,
      expect_eq_ok hclose⟩
  parameters_refused := by
    rintro ⟨list, a, u, v, hrounds, hopen, hled, hitem, hcomma, hclose⟩
    unfold Grammar.parameters
    rw [parameterList_eq, bind_of_ok (expect_of_sign hopen), bind_assoc,
      bind_of_error (commaListRest_eq_error hled hitem hcomma hclose hrounds)]
  parenthesized x hsign h := by
    rw [primary_at_leftParen hsign] at h
    obtain ⟨list, rest, u, v, w, hopen, hlist, hclose, hbehind⟩ := parenthesized_eq_ok h
    exact ⟨list, rest, w, ⟨u, v, ⟨hsign, hopen⟩, separated_of_commaListRest nofun hlist, hclose⟩,
      hbehind⟩
  parenthesized_refused := by
    rintro ⟨list, a, u, v, hrounds, hopen, hled, hitem, hcomma, hclose⟩
    rw [primary_at_leftParen hopen.1]
    unfold Grammar.parenthesized
    rw [parenthesizedElements_eq, bind_of_ok hopen.2,
      bind_of_error (commaListRest_eq_error hled hitem hcomma hclose hrounds)]
  declarators kind rounds list h := (joined_of_declarators h).1
  declarators_refused := by
    intro kind list d u v hrounds hadvance hled hitem hcomma hend
    unfold declarationStatement
    rw [bind_of_ok hadvance, bind_of_ok (declarators_eq_ok hled hitem hcomma hrounds)]
    unfold checkInitializers
    dsimp only
    split
    · exact ⟨_, rfl, .inl rfl⟩
    · refine ⟨_, (bind_of_ok rfl).trans (bind_of_error hend), .inr rfl⟩

def bindsNames (names : List String) : EStateM.Result SyntaxError TokenStream Pattern → Bool
  | .ok p _ => p.boundNames == names
  | .error _ _ => false

/-- An array pattern without a comma between its two names is accepted. -/
theorem lists_separated_missing : ∃ s t p, TokenStream.ofString "[a b]" = .ok s ∧
    bindingPattern (nesting 6) .program s = .ok p t ∧ p.boundNames = ["a", "b"] ∧
    ∃ list rest, p = .array (withRest list rest) ∧
      Enclosed .leftBracket .rightBracket (SeparatedRest PerhapsComma
        (Entry (restEnds .rightBracket) (patternElement (nesting 6) .program))
        (RestPattern (nesting 6) .program) · list rest ·) s t := by
  have hread : (TokenStream.ofString "[a b]").toOption.any (fun s =>
      s.current.sign? == some .leftBracket &&
        bindsNames ["a", "b"] (bindingPattern (nesting 6) .program s)) = true := by
    decide +kernel
  cases hs : TokenStream.ofString "[a b]" with
  | error e => simp [hs, Except.toOption] at hread
  | ok s =>
    rw [hs] at hread
    simp only [Except.toOption, Option.any_some, Bool.and_eq_true, beq_iff_eq] at hread
    obtain ⟨hsign, hread⟩ := hread
    cases hp : bindingPattern (nesting 6) .program s with
    | error e t => simp [hp, bindsNames] at hread
    | ok p t =>
      rw [hp] at hread
      exact ⟨s, t, p, rfl, hp, by simpa [bindsNames] using hread,
        (lists_separated (nesting 6) .program s t).arrayPattern p hsign hp⟩

end ProtoScript.Grammar
