import ProtoScript.Proofs.Grammar.Yields
import ProtoScript.Proofs.Marks.Reading
/-!
# Following the rules of the grammar

A rule with marks follows a rule of the grammar from some marks if it ends as that rule does at
every stream, with the same result or the same error and with the same stream, and if after a
success the marks are such as they should be.  On the way function bodies begin only where nothing
is marked for the next expression or statement only.
-/

namespace ProtoScript.Marked

variable {α β : Type}

/-- Nothing is marked for the next expression or statement only, and no token was looked at ahead of
time. -/
structure Standing.Clear (a : Standing) : Prop where
  marks : a.marks.Clear
  ahead : a.stream.ahead = none

abbrev AllClear (bodies : List Standing) : Prop := ∀ a ∈ bodies, a.Clear

/-- How a rule with marks ends if a rule of the grammar ends in the given way.  After a success the
marks have a property. -/
def EndsAs (R : Marks → Prop) (ended : EStateM.Result SyntaxError State α) :
    EStateM.Result SyntaxError TokenStream α → Prop
  | .ok a t => ∃ m bodies, ended = .ok a ⟨t, m, bodies⟩ ∧ R m ∧ AllClear bodies
  | .error e t => ∃ m bodies, ended = .error e ⟨t, m, bodies⟩ ∧ AllClear bodies

def FollowsAt (s : TokenStream) (m : Marks) (R : Marks → Prop) (p : Reading α) (q : Parser α) :
    Prop :=
  ∀ bodies, AllClear bodies → EndsAs R (p ⟨s, m, bodies⟩) (q s)

def Follows (m : Marks) (R : Marks → Prop) (p : Reading α) (q : Parser α) : Prop :=
  ∀ s, FollowsAt s m R p q

/-- From the marks the first rule ends as the second one does, and it leaves the marks as they
were. -/
abbrev Keeps (m : Marks) (p : Reading α) (q : Parser α) : Prop := Follows m (· = m) p q

variable {m : Marks} {R : Marks → Prop}

/-- A sequence of two rules, the second of which begins where the first one ends. -/
theorem FollowsAt.bind {s : TokenStream} {S : Marks → Prop} {p : Reading α} {q : Parser α}
    {f : α → Reading β} {g : α → Parser β} (hp : FollowsAt s m S p q)
    (hf : ∀ a m' t, S m' → q s = .ok a t → FollowsAt t m' R (f a) (g a)) :
    FollowsAt s m R (p >>= f) (q >>= g) := by
  intro bodies hbodies
  have hends := hp bodies hbodies
  simp only [Bind.bind, EStateM.bind]
  cases hq : q s with
  | ok a t =>
    rw [hq] at hends
    obtain ⟨m', bodies', hp', hm', hclear⟩ := hends
    rw [hp']
    exact hf a m' t hm' hq bodies' hclear
  | error e t =>
    rw [hq] at hends
    obtain ⟨m', bodies', hp', hclear⟩ := hends
    rw [hp']
    exact ⟨m', bodies', rfl, hclear⟩

namespace Follows

theorem mono {S : Marks → Prop} {p : Reading α} {q : Parser α} (h : Follows m S p q)
    (hS : ∀ m', S m' → R m') : Follows m R p q := by
  intro s bodies hbodies
  have hends := h s bodies hbodies
  unfold EndsAs at hends ⊢
  split
  · next heq =>
    rw [heq] at hends
    obtain ⟨m', bodies', hp, hm', hclear⟩ := hends
    exact ⟨m', bodies', hp, hS m' hm', hclear⟩
  · next heq =>
    rw [heq] at hends
    exact hends

theorem of_eq {p : Reading α} {q q' : Parser α} (heq : q = q') (h : Follows m R p q') :
    Follows m R p q :=
  heq ▸ h

theorem pure {a : α} (h : R m) : Follows m R (pure a) (pure a) :=
  fun _ bodies hbodies => ⟨m, bodies, rfl, h, hbodies⟩

theorem done {a : α} : Keeps m (Pure.pure a) (Pure.pure a) :=
  pure rfl

theorem fail {e : SyntaxError} : Follows m R (throw e : Reading α) (throw e) :=
  fun _ bodies hbodies => ⟨m, bodies, rfl, hbodies⟩

theorem failed {e : SyntaxError} {f : α → Reading β} {g : α → Parser β} :
    Follows m R (throw e >>= f) (throw e >>= g) :=
  fun _ bodies hbodies => ⟨m, bodies, rfl, hbodies⟩

theorem ite {c : Prop} [Decidable c] {p p' : Reading α} {q q' : Parser α} (h : Follows m R p q)
    (h' : Follows m R p' q') : Follows m R (if c then p else p') (if c then q else q') := by
  by_cases hc : c
  · rw [if_pos hc, if_pos hc]
    exact h
  · rw [if_neg hc, if_neg hc]
    exact h'

theorem andThen {S : Marks → Prop} {p : Reading α} {q : Parser α} {f : α → Reading β}
    {g : α → Parser β} (hp : Follows m S p q) (hf : ∀ a m', S m' → Follows m' R (f a) (g a)) :
    Follows m R (p >>= f) (q >>= g) :=
  fun s => (hp s).bind fun a m' t hm' _ => hf a m' hm' t

/-- A sequence the first rule of which leaves the marks as they were. -/
theorem bind {p : Reading α} {q : Parser α} {f : α → Reading β} {g : α → Parser β}
    (hp : Keeps m p q) (hf : ∀ a, Follows m R (f a) (g a)) : Follows m R (p >>= f) (q >>= g) := by
  refine hp.andThen fun a m' hm' => ?_
  rw [hm']
  exact hf a

theorem lift (q : Parser α) : Keeps m (liftM q) q := by
  intro s bodies hbodies
  have hlift : (liftM q : Reading α) ⟨s, m, bodies⟩ = match q s with
      | .ok a t => .ok a ⟨t, m, bodies⟩
      | .error e t => .error e ⟨t, m, bodies⟩ := rfl
  rw [hlift]
  cases q s with
  | ok a t => exact ⟨m, bodies, rfl, rfl, hbodies⟩
  | error e t => exact ⟨m, bodies, rfl, hbodies⟩

theorem step {q : Parser α} {f : α → Reading β} {g : α → Parser β}
    (hf : ∀ a, Follows m R (f a) (g a)) : Follows m R (liftM q >>= f) (q >>= g) :=
  (lift q).bind hf

theorem map {p : Reading α} {q : Parser α} (h : Follows m R p q) (f : α → β) :
    Follows m R (f <$> p) (f <$> q) := by
  rw [map_eq_pure_bind, map_eq_pure_bind]
  exact h.andThen fun a m' hm' => pure hm'

theorem marks {f : Marks → Reading α} {q : Parser α} (h : Follows m R (f m) q) :
    Follows m R (Marked.marks >>= f) q :=
  h

theorem mark {change : Marks → Marks} {p : Reading α} {q : Parser α}
    (h : Follows (change m) R p q) : Follows m R (Marked.mark change >>= fun _ => p) q :=
  h

theorem takeCover {f : Bool → Reading α} {q : Parser α}
    (h : Follows { m with cover := false } R (f m.cover) q) :
    Follows m R (Marked.takeCover >>= f) q :=
  h

theorem takeChain {f : Option Nat → Reading α} {q : Parser α}
    (h : Follows { m with chain := none } R (f m.chain) q) :
    Follows m R (Marked.takeChain >>= f) q :=
  h

theorem around {enter : Marks → Marks} {leave : Marks → Marks → Marks} {S : Marks → Prop}
    {p : Reading α} {q : Parser α} (h : Follows (enter m) S p q)
    (hleave : ∀ m', S m' → R (leave m m')) : Follows m R (Marked.around enter leave p) q := by
  intro s bodies hbodies
  have hends := h s bodies hbodies
  unfold Marked.around
  dsimp only
  cases hq : q s with
  | ok a t =>
    rw [hq] at hends
    obtain ⟨m', bodies', hp, hm', hclear⟩ := hends
    rw [hp]
    exact ⟨leave m m', bodies', rfl, hleave m' hm', hclear⟩
  | error e t =>
    rw [hq] at hends
    obtain ⟨m', bodies', hp, hclear⟩ := hends
    rw [hp]
    exact ⟨leave m m', bodies', rfl, hclear⟩

theorem withIn {p : Reading α} {q : Parser α} (h : Keeps m.bracketed p q) :
    Keeps m (Marked.withIn p) q :=
  around h fun _ hm' => by rw [hm']; rfl

/-- A rule whose error is handed over.  Nothing is known of the marks behind an error. -/
theorem attempt {S : Marks → Prop} {p : Reading α} {q : Parser α}
    {f : Except SyntaxError α → Reading β} {g : Except SyntaxError α → Parser β}
    (hp : Follows m S p q) (hok : ∀ a m', S m' → Follows m' R (f (.ok a)) (g (.ok a)))
    (herror : ∀ e m', Follows m' R (f (.error e)) (g (.error e))) :
    Follows m R (Marked.attempt p >>= f) (Parser.attempt q >>= g) := by
  intro s bodies hbodies
  have hends := hp s bodies hbodies
  simp only [Bind.bind, EStateM.bind, Marked.attempt, Parser.attempt]
  cases hq : q s with
  | ok a t =>
    rw [hq] at hends
    obtain ⟨m', bodies', hp', hm', hclear⟩ := hends
    rw [hp']
    exact hok a m' hm' t bodies' hclear
  | error e t =>
    rw [hq] at hends
    obtain ⟨m', bodies', hp', hclear⟩ := hends
    rw [hp']
    cases e with
    | outOfFuel => exact ⟨m', bodies', rfl, hclear⟩
    | _ => exact herror _ m' t bodies' hclear

theorem commaList {close : Punctuator} {element : Reading α} {element' : Parser α}
    (h : Keeps m element element') (rounds : Nat) :
    Keeps m (Marked.commaList close element rounds) (Parser.commaList close element' rounds) := by
  induction rounds with
  | zero => exact fail
  | succ rounds ih =>
    unfold Marked.commaList Parser.commaList
    refine step fun closed => ite done ?_
    exact h.bind fun first => step fun _ => ih.bind fun others => done

end Follows

/-! ### Errors that are handed over -/

/-- From the marks the first rule ends as the second one does, but it may hand over the error that
the second one ends with.  Nothing is known of the marks behind an error. -/
def HandsOver (m : Marks) (p : Reading (Except SyntaxError α)) (q : Parser α) : Prop :=
  ∀ s bodies, AllClear bodies →
    match q s with
    | .ok a t => ∃ bodies', p ⟨s, m, bodies⟩ = .ok (.ok a) ⟨t, m, bodies'⟩ ∧ AllClear bodies'
    | .error e t => ∃ m' bodies', (p ⟨s, m, bodies⟩ = .ok (.error e) ⟨t, m', bodies'⟩ ∨
        p ⟨s, m, bodies⟩ = .error e ⟨t, m', bodies'⟩) ∧ AllClear bodies'

namespace HandsOver

theorem pure {a : α} : HandsOver m (pure (.ok a)) (pure a) :=
  fun _ bodies hbodies => ⟨bodies, rfl, hbodies⟩

theorem fail {e : SyntaxError} :
    HandsOver m (Pure.pure (.error e) : Reading (Except _ α)) (throw e) :=
  fun _ bodies hbodies => ⟨m, bodies, .inl rfl, hbodies⟩

theorem escape {e : SyntaxError} : HandsOver m (throw e : Reading (Except _ α)) (throw e) :=
  fun _ bodies hbodies => ⟨m, bodies, .inr rfl, hbodies⟩

theorem ite {c : Prop} [Decidable c] {p p' : Reading (Except SyntaxError α)} {q q' : Parser α}
    (h : HandsOver m p q) (h' : HandsOver m p' q') :
    HandsOver m (if c then p else p') (if c then q else q') := by
  by_cases hc : c
  · rw [if_pos hc, if_pos hc]
    exact h
  · rw [if_neg hc, if_neg hc]
    exact h'

theorem bind {p : Reading α} {q : Parser α} {f : α → Reading (Except SyntaxError β)}
    {g : α → Parser β} (hp : Keeps m p q) (hf : ∀ a, HandsOver m (f a) (g a)) :
    HandsOver m (p >>= f) (q >>= g) := by
  intro s bodies hbodies
  have hends := hp s bodies hbodies
  simp only [Bind.bind, EStateM.bind]
  cases hq : q s with
  | ok a t =>
    rw [hq] at hends
    obtain ⟨m', bodies', hp', hm', hclear⟩ := hends
    rw [hp', hm']
    exact hf a t bodies' hclear
  | error e t =>
    rw [hq] at hends
    obtain ⟨m', bodies', hp', hclear⟩ := hends
    rw [hp']
    exact ⟨m', bodies', .inr rfl, hclear⟩

theorem step {q : Parser α} {f : α → Reading (Except SyntaxError β)} {g : α → Parser β}
    (hf : ∀ a, HandsOver m (f a) (g a)) : HandsOver m (liftM q >>= f) (q >>= g) :=
  .bind (.lift q) hf

theorem attempt {p : Reading α} {q : Parser α} {f : Except SyntaxError α → Reading (Except _ β)}
    {g : α → Parser β} (hp : Keeps m p q) (hok : ∀ a, HandsOver m (f (.ok a)) (g a))
    (herror : ∀ e, f (.error e) = Pure.pure (.error e)) :
    HandsOver m (Marked.attempt p >>= f) (q >>= g) := by
  intro s bodies hbodies
  have hends := hp s bodies hbodies
  simp only [Bind.bind, EStateM.bind, Marked.attempt]
  cases hq : q s with
  | ok a t =>
    rw [hq] at hends
    obtain ⟨m', bodies', hp', hm', hclear⟩ := hends
    rw [hp', hm']
    exact hok a t bodies' hclear
  | error e t =>
    rw [hq] at hends
    obtain ⟨m', bodies', hp', hclear⟩ := hends
    rw [hp']
    cases e with
    | outOfFuel => exact ⟨m', bodies', .inr rfl, hclear⟩
    | _ =>
      dsimp only
      rw [herror]
      exact ⟨m', bodies', .inl rfl, hclear⟩

theorem map {p : Reading (Except SyntaxError α)} {q : Parser α} (hp : HandsOver m p q)
    (f : α → β) :
    HandsOver m (p >>= fun r => Pure.pure (f <$> r)) (q >>= fun a => Pure.pure (f a)) := by
  intro s bodies hbodies
  have hends := hp s bodies hbodies
  simp only [Bind.bind, EStateM.bind]
  cases hq : q s with
  | ok a t =>
    rw [hq] at hends
    obtain ⟨bodies', hp', hclear⟩ := hends
    rw [hp']
    exact ⟨bodies', rfl, hclear⟩
  | error e t =>
    rw [hq] at hends
    obtain ⟨m', bodies', hp' | hp', hclear⟩ := hends
    · rw [hp']
      exact ⟨m', bodies', .inl rfl, hclear⟩
    · rw [hp']
      exact ⟨m', bodies', .inr rfl, hclear⟩

/-- Behind a rule that hands over its errors, the error is thrown after all. -/
theorem follows {p : Reading (Except SyntaxError α)} {q : Parser α}
    {f : Except SyntaxError α → Reading β} {g : α → Parser β} (hp : HandsOver m p q)
    (hok : ∀ a, Follows m R (f (.ok a)) (g a))
    (herror : ∀ e st, ∃ m', f (.error e) st = .error e { st with marks := m' }) :
    Follows m R (p >>= f) (q >>= g) := by
  intro s bodies hbodies
  have hends := hp s bodies hbodies
  simp only [Bind.bind, EStateM.bind]
  cases hq : q s with
  | ok a t =>
    rw [hq] at hends
    obtain ⟨bodies', hp', hclear⟩ := hends
    rw [hp']
    exact hok a t bodies' hclear
  | error e t =>
    rw [hq] at hends
    obtain ⟨m', bodies', hp' | hp', hclear⟩ := hends
    · obtain ⟨m'', hthrown⟩ := herror e ⟨t, m', bodies'⟩
      rw [hp']
      exact ⟨m'', bodies', hthrown, hclear⟩
    · rw [hp']
      exact ⟨m', bodies', rfl, hclear⟩

end HandsOver

end ProtoScript.Marked
