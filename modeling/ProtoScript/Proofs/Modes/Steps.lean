import ProtoScript.Proofs.Grammar.Yields
/-!
# Rules step by step

A grammar rule is a tree of elementary steps: looks at the stream, moves to the next token, and
switches of the mode.  `Proceeds` says so of a rule, and says in what mode each step is taken and
what the rule leaves behind where it succeeds.  What is proved of the steps then holds of all rules,
by induction on the tree.
-/

namespace ProtoScript.Grammar

variable {α β : Type} {K : Token → Prop} {m : Bool}

/-- The rule, begun in mode `m` at a token of which `K` is known, goes step by step; where it
succeeds, its result and the mode behind it are as `Q` says.  A look ahead is taken only where the
current token is no sign. -/
inductive Proceeds : (Token → Prop) → Bool → {α : Type} → Parser α → (α → Bool → Prop) → Prop
  | pure {K : Token → Prop} {m : Bool} {α : Type} {a : α} {Q : α → Bool → Prop} (h : Q a m) :
      Proceeds K m (pure a) Q
  | fail {K : Token → Prop} {m : Bool} {α : Type} {p : Parser α} {Q : α → Bool → Prop}
      (h : ∀ s a t, p s ≠ .ok a t) : Proceeds K m p Q
  | current {K : Token → Prop} {m : Bool} {α : Type} {f : Token → Parser α} {Q : α → Bool → Prop}
      (h : ∀ token, K token → Proceeds (· = token) m (f token) Q) :
      Proceeds K m (Parser.current >>= f) Q
  | afterBreak {K : Token → Prop} {m : Bool} {α : Type} {f : Bool → Parser α}
      {Q : α → Bool → Prop} (h : ∀ broken, Proceeds K m (f broken) Q) :
      Proceeds K m (Parser.afterBreak >>= f) Q
  | isStrict {K : Token → Prop} {m : Bool} {α : Type} {f : Bool → Parser α} {Q : α → Bool → Prop}
      (h : Proceeds K m (f m) Q) : Proceeds K m (Parser.isStrict >>= f) Q
  | setStrict {K : Token → Prop} {m : Bool} {α : Type} {mode : Bool} {f : Unit → Parser α}
      {Q : α → Bool → Prop} (h : Proceeds K mode (f ()) Q) :
      Proceeds K m (Parser.setStrict mode >>= f) Q
  | advance {K : Token → Prop} {m : Bool} {α : Type} {f : Unit → Parser α} {Q : α → Bool → Prop}
      (h : Proceeds (fun _ => True) m (f ()) Q) : Proceeds K m (Parser.advance >>= f) Q
  | peek {K : Token → Prop} {m : Bool} {α : Type} {f : Token × Bool → Parser α}
      {Q : α → Bool → Prop} (hK : ∀ token, K token → token.sign? = none)
      (h : ∀ found, Proceeds K m (f found) Q) : Proceeds K m (Parser.peek >>= f) Q
  | attempt {K : Token → Prop} {m : Bool} {α β : Type} {p : Parser α}
      {f : Except SyntaxError α → Parser β} {U : α → Bool → Prop} {Q : β → Bool → Prop}
      (hp : Proceeds K m p U)
      (hf : ∀ a mode, U a mode → Proceeds (fun _ => True) mode (f (.ok a)) Q)
      (hfail : ∀ e s b t, f (.error e) s ≠ .ok b t) : Proceeds K m (Parser.attempt p >>= f) Q
  | bind {K : Token → Prop} {m : Bool} {α β : Type} {p : Parser α} {f : α → Parser β}
      {U : α → Bool → Prop} {Q : β → Bool → Prop} (hp : Proceeds K m p U)
      (hf : ∀ a mode, U a mode → Proceeds (fun _ => True) mode (f a) Q) : Proceeds K m (p >>= f) Q

theorem Proceeds.sound {p : Parser α} {Q : α → Bool → Prop} (h : Proceeds K m p Q)
    {s t : TokenStream} {a : α} (hs : s.strict = m) (hK : K s.current) (hp : p s = .ok a t) :
    Q a t.strict := by
  induction h generalizing s t with
  | pure h =>
    cases hp
    rw [hs]
    exact h
  | fail h => exact absurd hp (h s a t)
  | current _ ih => exact ih s.current hK hs rfl hp
  | afterBreak _ ih => exact ih s.afterBreak hs hK hp
  | isStrict _ ih =>
    obtain rfl := hs
    exact ih rfl hK hp
  | setStrict _ ih =>
    rw [setStrict_bind] at hp
    refine ih ?_ ?_ hp
    · rfl
    · exact hK
  | advance _ ih =>
    obtain ⟨_, u, hu, hp⟩ := bind_eq_ok hp
    exact ih ((strict_advance hu).trans hs) trivial hp
  | peek hK' _ ih =>
    obtain ⟨found, u, hu, hp⟩ := bind_eq_ok hp
    obtain ⟨v, hv, rfl⟩ := advance_of_peek hu
    refine ih found ?_ ?_ hp
    · exact (strict_advance hv).trans hs
    · exact hK
  | attempt _ _ hfail ihp ihf =>
    obtain ⟨r, u, hu, hp⟩ := bind_eq_ok hp
    unfold Parser.attempt at hu
    split at hu
    · next hrule =>
      cases hu
      exact ihf _ _ (ihp hs hK hrule) rfl trivial hp
    · cases hu
    · cases hu
      exact absurd hp (hfail _ _ _ _)
  | bind _ _ ihp ihf =>
    obtain ⟨b, u, hu, hp⟩ := bind_eq_ok hp
    exact ihf b _ (ihp hs hK hu) rfl trivial hp

theorem Proceeds.mono {p : Parser α} {Q R : α → Bool → Prop} (h : Proceeds K m p Q)
    (hQ : ∀ a mode, Q a mode → R a mode) : Proceeds K m p R := by
  rw [← bind_pure p]
  exact .bind h fun a mode ha => .pure (hQ a mode ha)

/-! ### Rules that keep the mode -/

/-- The rule goes step by step, leaves the mode as it was, and ends with a result that has a
property. -/
def Keeps (m : Bool) (p : Parser α) (Q : α → Prop) : Prop :=
  ∀ K, Proceeds K m p fun a mode => mode = m ∧ Q a

abbrev Steady (p : Parser α) : Prop := ∀ m, Keeps m p fun _ => True

namespace Keeps

variable {p : Parser α} {f : α → Parser β} {Q R : α → Prop} {W : β → Prop}

theorem sound (h : Keeps m p Q) {s t : TokenStream} {a : α} (hs : s.strict = m)
    (hp : p s = .ok a t) : t.strict = m ∧ Q a :=
  (h fun _ => True).sound hs trivial hp

theorem pure {a : α} (h : Q a) : Keeps m (pure a) Q := fun _ => .pure ⟨rfl, h⟩

theorem fail {e : SyntaxError} : Keeps m (throw e) Q :=
  fun _ => .fail fun _ _ _ h => by cases h

theorem failed {e : SyntaxError} : Keeps m (throw e >>= f) W :=
  fun _ => .fail fun _ _ _ h => by cases h

theorem bind (hp : Keeps m p Q) (hf : ∀ a, Q a → Keeps m (f a) W) : Keeps m (p >>= f) W := by
  refine fun K => .bind (hp K) fun a mode ha => ?_
  obtain ⟨rfl, ha⟩ := ha
  exact hf a ha _

theorem skip (hp : Steady p) (hf : ∀ a, Keeps m (f a) W) : Keeps m (p >>= f) W :=
  .bind (hp m) fun a _ => hf a

theorem map {g : α → β} (hp : Keeps m p Q) (hg : ∀ a, Q a → W (g a)) : Keeps m (g <$> p) W := by
  rw [map_eq_pure_bind]
  exact .bind hp fun a ha => .pure (hg a ha)

theorem ite {c : Prop} [Decidable c] {p q : Parser α} (hp : c → Keeps m p Q)
    (hq : ¬ c → Keeps m q Q) : Keeps m (if c then p else q) Q := by
  by_cases h : c
  · rw [if_pos h]
    exact hp h
  · rw [if_neg h]
    exact hq h

theorem advance {f : Unit → Parser β} (h : Keeps m (f ()) W) :
    Keeps m (Parser.advance >>= f) W :=
  fun _ => .advance (h _)

theorem current {f : Token → Parser β} (h : ∀ token, Keeps m (f token) W) :
    Keeps m (Parser.current >>= f) W :=
  fun _ => .current fun token _ => h token _

theorem afterBreak {f : Bool → Parser β} (h : ∀ broken, Keeps m (f broken) W) :
    Keeps m (Parser.afterBreak >>= f) W :=
  fun K => .afterBreak fun broken => h broken K

theorem isStrict {f : Bool → Parser β} (h : Keeps m (f m) W) :
    Keeps m (Parser.isStrict >>= f) W :=
  fun K => .isStrict (h K)

theorem attempt {f : Except SyntaxError α → Parser β} (hp : Keeps m p Q)
    (hf : ∀ a, Q a → Keeps m (f (.ok a)) W) (hfail : ∀ e s b t, f (.error e) s ≠ .ok b t) :
    Keeps m (Parser.attempt p >>= f) W := by
  refine fun K => .attempt (hp K) (fun a mode ha => ?_) hfail
  obtain ⟨rfl, ha⟩ := ha
  exact hf a ha _

end Keeps

namespace Steady

variable {p : Parser α} {f : α → Parser β}

theorem pure {a : α} : Steady (pure a) := fun _ => .pure trivial

theorem fail {e : SyntaxError} : Steady (throw e : Parser α) := fun _ => .fail

theorem bind (hp : Steady p) (hf : ∀ a, Steady (f a)) : Steady (p >>= f) :=
  fun m => .skip hp fun a => hf a m

theorem ite {c : Prop} [Decidable c] {p q : Parser α} (hp : Steady p) (hq : Steady q) :
    Steady (if c then p else q) :=
  fun m => .ite (fun _ => hp m) fun _ => hq m

theorem advance : Steady Parser.advance := by
  intro m
  rw [← bind_pure Parser.advance]
  exact .advance (.pure trivial)

theorem current : Steady Parser.current := by
  intro m
  rw [← bind_pure Parser.current]
  exact .current fun _ => .pure trivial

theorem afterBreak : Steady Parser.afterBreak := by
  intro m
  rw [← bind_pure Parser.afterBreak]
  exact .afterBreak fun _ => .pure trivial

theorem isStrict : Steady Parser.isStrict := by
  intro m
  rw [← bind_pure Parser.isStrict]
  exact .isStrict (.pure trivial)

theorem atSign {sign : Punctuator} : Steady (Parser.atSign sign) := .bind .current fun _ => .pure

theorem atWord {word : Keyword} : Steady (Parser.atWord word) := .bind .current fun _ => .pure

theorem atEnd : Steady Parser.atEnd := .bind .current fun _ => .pure

theorem expect {sign : Punctuator} : Steady (Parser.expect sign) :=
  .bind .atSign fun _ => .ite .advance (.bind .current fun _ => .fail)

theorem expectWord {word : Keyword} : Steady (Parser.expectWord word) :=
  .bind .atWord fun _ => .ite .advance (.bind .current fun _ => .fail)

theorem eat {sign : Punctuator} : Steady (Parser.eat sign) :=
  .bind .atSign fun _ => .ite (.bind .advance fun _ => .pure) .pure

theorem eatWord {word : Keyword} : Steady (Parser.eatWord word) :=
  .bind .atWord fun _ => .ite (.bind .advance fun _ => .pure) .pure

theorem endStatement : Steady Parser.endStatement :=
  .bind .atSign fun _ => .ite .advance <| .bind .atSign fun _ => .bind .afterBreak fun _ =>
    .bind .atEnd fun _ => .ite .pure (.bind .current fun _ => .fail)

theorem separate {close : Punctuator} : Steady (Parser.separate close) :=
  .bind .atSign fun _ => .ite .advance <| .bind .atSign fun _ =>
    .ite .pure (.bind .current fun _ => .fail)

theorem currentName : Steady currentName? :=
  .bind .isStrict fun _ => .bind .current fun _ => .pure

theorem checkBinding {name : String} : Steady (checkBinding name) :=
  .bind .isStrict fun _ => .ite .fail .pure

theorem checkOctal : Steady checkOctal := .bind .isStrict fun _ => .ite .fail .pure

end Steady

theorem Keeps.commaList {close : Punctuator} {element : Parser α} {Q : α → Prop}
    (h : Keeps m element Q) (rounds : Nat) :
    Keeps m (Parser.commaList close element rounds) fun list => ∀ a ∈ list, Q a := by
  induction rounds with
  | zero => exact .fail
  | succ rounds ih =>
    refine .skip .atSign fun closed => .ite (fun _ => .pure nofun) fun _ => ?_
    refine .bind h fun first hfirst => .skip .separate fun _ => ?_
    exact .bind ih fun others hothers => .pure (List.forall_mem_cons.mpr ⟨hfirst, hothers⟩)

end ProtoScript.Grammar
