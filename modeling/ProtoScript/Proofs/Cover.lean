import ProtoScript.Proofs.Progress.Statement
import ProtoScript.Proofs.Syntax.Erasure
/-!
# One reading covers another

Two readings of one text go side by side.  Either they differ only in their bounds, and then the one
with the higher bound ends as the other does unless that one runs into its bound; or the first one
is strict throughout, and then the second one succeeds wherever the first one does, with the same
tree but for the modes in it.  Both kinds go through every grammar rule in the same way, so they are
treated together; `lax` tells them apart.
-/

namespace ProtoScript

def Same {α β : Type} (lax : Bool) (view : α → β) (a b : α) : Prop :=
  match lax with
  | true => view a = view b
  | false => a = b

namespace Same

variable {α α' α'' α''' β β' β'' β''' γ δ : Type} {lax : Bool}

theorem refl (view : α → β) (a : α) : Same lax view a a := by
  cases lax <;> rfl

theorem read {view : α → β} {a b : α} (h : Same lax view a b) {f : α → γ}
    (hf : ∀ a b, view a = view b → f a = f b) : f a = f b := by
  cases lax with
  | true => exact hf a b h
  | false => exact congrArg f h

theorem congr {view : α → β} {view' : γ → δ} {f : α → γ} {a b : α} (h : Same lax view a b)
    (hf : ∀ a b, view a = view b → view' (f a) = view' (f b)) : Same lax view' (f a) (f b) := by
  cases lax with
  | true => exact hf a b h
  | false => exact congrArg f h

theorem congr₂ {view : α → β} {view' : α' → β'} {result : γ → δ} {f : α → α' → γ} {a b : α}
    {a' b' : α'} (h : Same lax view a b) (h' : Same lax view' a' b')
    (hf : ∀ a b a' b', view a = view b → view' a' = view' b' →
      result (f a a') = result (f b b')) : Same lax result (f a a') (f b b') := by
  cases lax with
  | true => exact hf a b a' b' h h'
  | false =>
    obtain rfl : a = b := h
    obtain rfl : a' = b' := h'
    rfl

theorem congr₃ {view : α → β} {view' : α' → β'} {view'' : α'' → β''} {result : γ → δ}
    {f : α → α' → α'' → γ} {a b : α} {a' b' : α'} {a'' b'' : α''} (h : Same lax view a b)
    (h' : Same lax view' a' b') (h'' : Same lax view'' a'' b'')
    (hf : ∀ a b a' b' a'' b'', view a = view b → view' a' = view' b' → view'' a'' = view'' b'' →
      result (f a a' a'') = result (f b b' b'')) : Same lax result (f a a' a'') (f b b' b'') := by
  cases lax with
  | true => exact hf a b a' b' a'' b'' h h' h''
  | false =>
    obtain rfl : a = b := h
    obtain rfl : a' = b' := h'
    obtain rfl : a'' = b'' := h''
    rfl

end Same

namespace Token

def IsName (t : Token) : Prop := (∃ name, t = .identifier name) ∨ t = .keyword .letWord

theorem IsName.sign? {t : Token} (h : t.IsName) : t.sign? = none := by
  rcases h with ⟨name, rfl⟩ | rfl <;> rfl

theorem IsName.isEnd {t : Token} (h : t.IsName) : t.isEnd = false := by
  rcases h with ⟨name, rfl⟩ | rfl <;> rfl

end Token

/-- Two streams at the same place of a text, the first one in strict mode.  The second one may have
looked at the next token, which the first one has yet to read. -/
structure TokenStream.Narrows (s t : TokenStream) : Prop where
  strict : s.strict = true
  current : s.current = t.current
  afterBreak : s.afterBreak = t.afterBreak
  rest : s.ahead = t.ahead ∧ s.cursor = t.cursor ∨
    s.ahead = none ∧ ∃ found, t.ahead = some found ∧
      TokenStream.readToken true s.cursor false = .ok (found.1, found.2, t.cursor)

namespace TokenStream.Narrows

variable {s s' t : TokenStream}

theorem advance (h : s.Narrows t) (hs : Parser.advance s = .ok () s') :
    ∃ t', Parser.advance t = .ok () t' ∧ s'.Narrows t' := by
  unfold Parser.advance at hs ⊢
  rcases h.rest with ⟨hahead, hcursor⟩ | ⟨hnone, found, hsome, hread⟩
  · rw [← hahead]
    cases ha : s.ahead with
    | some found =>
      rw [ha] at hs
      cases hs
      exact ⟨_, rfl, h.strict, rfl, rfl, .inl ⟨rfl, hcursor⟩⟩
    | none =>
      rw [ha, h.strict] at hs
      dsimp only at hs ⊢
      split at hs
      · next hread =>
        cases hs
        rw [← hcursor, readToken_of_strict t.strict hread]
        exact ⟨_, rfl, rfl, rfl, rfl, .inl ⟨rfl, rfl⟩⟩
      · cases hs
  · rw [hnone, h.strict, hread] at hs
    cases hs
    rw [hsome]
    exact ⟨_, rfl, rfl, rfl, rfl, .inl ⟨rfl, rfl⟩⟩

/-- What the strict reading finds behind the current token, the other one finds by looking at it. -/
theorem peek (h : s.Narrows t) (hs : Parser.advance s = .ok () s') :
    ∃ t', Parser.peek t = .ok (s'.current, s'.afterBreak) t' ∧ s.Narrows t' ∧
      Narrows { s' with current := s.current, afterBreak := s.afterBreak,
                        ahead := some (s'.current, s'.afterBreak) } t' := by
  obtain ⟨t', ht, hst⟩ := h.advance hs
  rw [Grammar.peek_eq, ht, hst.current, hst.afterBreak]
  have hnone : s'.ahead = none ∧ t'.ahead = none :=
    ⟨Grammar.ahead_advance hs, Grammar.ahead_advance ht⟩
  have hcursor : s'.cursor = t'.cursor := by
    rcases hst.rest with ⟨-, hcursor⟩ | ⟨-, found, hsome, -⟩
    · exact hcursor
    · rw [hnone.2] at hsome
      cases hsome
  refine ⟨_, rfl, ⟨h.strict, h.current, h.afterBreak, ?_⟩,
    ⟨hst.strict, h.current, h.afterBreak, .inl ⟨rfl, hcursor⟩⟩⟩
  rw [← hst.current, ← hst.afterBreak, ← hcursor]
  unfold Parser.advance at hs
  split at hs
  · next hahead =>
    cases hs
    exact .inl ⟨hahead, rfl⟩
  · next hahead =>
    rw [h.strict] at hs
    split at hs
    · next hread =>
      cases hs
      exact .inr ⟨hahead, _, rfl, hread⟩
    · cases hs

end TokenStream.Narrows

namespace Grammar

variable {α β γ δ : Type} {lax : Bool}

def Modes (lax a b : Bool) : Prop :=
  match lax with
  | true => a = true
  | false => a = b

theorem Modes.cases {a b : Bool} (h : Modes lax a b) :
    a = b ∨ lax = true ∧ a = true ∧ b = false := by
  cases lax with
  | false => exact .inl h
  | true =>
    obtain rfl : a = true := h
    cases b with
    | true => exact .inl rfl
    | false => exact .inr ⟨rfl, rfl, rfl⟩

def Paired (lax : Bool) (s t : TokenStream) : Prop :=
  match lax with
  | true => s.Narrows t
  | false => s = t

namespace Paired

variable {s t : TokenStream}

theorem current (h : Paired lax s t) : s.current = t.current := by
  cases lax with
  | true => exact TokenStream.Narrows.current h
  | false => exact congrArg _ h

theorem afterBreak (h : Paired lax s t) : s.afterBreak = t.afterBreak := by
  cases lax with
  | true => exact TokenStream.Narrows.afterBreak h
  | false => exact congrArg _ h

theorem strict (h : Paired lax s t) : Modes lax s.strict t.strict := by
  cases lax with
  | true => exact TokenStream.Narrows.strict h
  | false => exact congrArg TokenStream.strict h

theorem setStrict (h : Paired lax s t) {a b : Bool} (hab : Modes lax a b) :
    Paired lax { s with strict := a } { t with strict := b } := by
  cases lax with
  | true =>
    have hst : s.Narrows t := h
    exact ⟨hab, hst.current, hst.afterBreak, hst.rest⟩
  | false =>
    obtain rfl : s = t := h
    obtain rfl : a = b := hab
    rfl

end Paired

/-- How the ends of two readings correspond.  Of an error of the first reading nothing is said where
the readings are lax, or where it is about the bound. -/
def Meets (lax : Bool) (V : α → β → Prop) (first : EStateM.Result SyntaxError TokenStream α)
    (second : EStateM.Result SyntaxError TokenStream β) : Prop :=
  match first with
  | .ok a s => ∃ b t, second = .ok b t ∧ V a b ∧ Paired lax s t
  | .error e s => lax = true ∨ e = .outOfFuel ∨ ∃ t, second = .error e t ∧ Paired lax s t

def Covers (lax : Bool) (p : Parser α) (q : Parser β) (V : α → β → Prop) : Prop :=
  ∀ s t, Paired lax s t → Meets lax V (p s) (q t)

def Fails (p : Parser α) (s : TokenStream) : Prop := ∀ a t, p s ≠ .ok a t

namespace Fails

theorem of_error {p : Parser α} {s t : TokenStream} {e : SyntaxError} (h : p s = .error e t) :
    Fails p s := by
  intro a u hu
  rw [h] at hu
  cases hu

theorem throw (e : SyntaxError) (s : TokenStream) : Fails (throw e : Parser α) s :=
  of_error rfl

theorem bind {p : Parser α} {s : TokenStream} (h : Fails p s) (f : α → Parser β) :
    Fails (p >>= f) s := by
  intro b u hu
  simp only [Bind.bind, EStateM.bind] at hu
  cases hr : p s with
  | ok a t => exact h a t hr
  | error e t =>
    rw [hr] at hu
    cases hu

theorem after {p : Parser α} {f : α → Parser β} {s : TokenStream}
    (h : ∀ a t, p s = .ok a t → Fails (f a) t) : Fails (p >>= f) s := by
  intro b u hu
  simp only [Bind.bind, EStateM.bind] at hu
  cases hr : p s with
  | ok a t =>
    rw [hr] at hu
    exact h a t hr b u hu
  | error e t =>
    rw [hr] at hu
    cases hu

end Fails

/-- Where the readings are lax, nothing is said if the first one fails. -/
theorem Meets.lost {V : α → β → Prop} {p : Parser α} {s : TokenStream} (h : Fails p s)
    (r : EStateM.Result SyntaxError TokenStream β) : Meets true V (p s) r := by
  cases hr : p s with
  | ok a t => exact absurd hr (h a t)
  | error e t => exact .inl rfl

theorem Meets.weaken {V W : α → β → Prop} {first : EStateM.Result SyntaxError TokenStream α}
    {second : EStateM.Result SyntaxError TokenStream β} (h : Meets lax V first second)
    (hV : ∀ a b, V a b → W a b) : Meets lax W first second := by
  cases first with
  | ok a s =>
    obtain ⟨b, t, heq, hab, hst⟩ := h
    exact ⟨b, t, heq, hV a b hab, hst⟩
  | error e s => exact h

namespace Covers

variable {p : Parser α} {q : Parser β} {U : α → β → Prop} {V : γ → δ → Prop}

theorem pure {a : γ} {b : δ} (h : V a b) : Covers lax (pure a) (pure b) V :=
  fun _ t hst => ⟨b, t, rfl, h, hst⟩

theorem fail {e : SyntaxError} : Covers lax (throw e : Parser γ) (throw e : Parser δ) V :=
  fun _ t hst => .inr (.inr ⟨t, rfl, hst⟩)

theorem failed {e : SyntaxError} {f : α → Parser γ} {g : β → Parser δ} :
    Covers lax ((throw e : Parser α) >>= f) ((throw e : Parser β) >>= g) V :=
  fun _ t hst => .inr (.inr ⟨t, rfl, hst⟩)

theorem exhausted {q : Parser δ} : Covers lax (throw .outOfFuel : Parser γ) q V :=
  fun _ _ _ => .inr (.inl rfl)

/-- Where the readings are lax, a rule that always fails is covered by any. -/
theorem lost {p : Parser γ} {q : Parser δ} (h : ∀ s, Fails p s) : Covers true p q V :=
  fun s t _ => .lost (h s) (q t)

theorem same (p : Parser γ) : Covers false p p Eq := by
  intro s t hst
  obtain rfl : s = t := hst
  unfold Meets
  cases p s with
  | ok a u => exact ⟨a, u, rfl, rfl, rfl⟩
  | error e u => exact .inr (.inr ⟨u, rfl, rfl⟩)

theorem bind {f : α → Parser γ} {g : β → Parser δ} (hp : Covers lax p q U)
    (hf : ∀ a b, U a b → Covers lax (f a) (g b) V) : Covers lax (p >>= f) (q >>= g) V := by
  intro s t hst
  have h := hp s t hst
  simp only [Bind.bind, EStateM.bind]
  cases hr : p s with
  | error e s' =>
    rw [hr] at h
    rcases h with h | h | ⟨t', ht, hst'⟩
    · exact .inl h
    · exact .inr (.inl h)
    · rw [ht]
      exact .inr (.inr ⟨t', rfl, hst'⟩)
  | ok a s' =>
    rw [hr] at h
    obtain ⟨b, t', hq, hab, hst'⟩ := h
    rw [hq]
    exact hf a b hab s' t' hst'

theorem andThen {p q : Parser α} {f : α → Parser γ} {g : α → Parser δ}
    (hp : Covers lax p q Eq) (hf : ∀ a, Covers lax (f a) (g a) V) :
    Covers lax (p >>= f) (q >>= g) V :=
  .bind hp fun a b h => by
    obtain rfl : a = b := h
    exact hf a

theorem map {f : α → γ} {g : β → δ} (hp : Covers lax p q U) (hf : ∀ a b, U a b → V (f a) (g b)) :
    Covers lax (f <$> p) (g <$> q) V := by
  rw [map_eq_pure_bind, map_eq_pure_bind]
  exact .bind hp fun a b h => .pure (hf a b h)

theorem ite {c : Prop} [Decidable c] {p p' : Parser γ} {q q' : Parser δ} (hp : Covers lax p q V)
    (hq : Covers lax p' q' V) : Covers lax (if c then p else p') (if c then q else q') V := by
  split
  · exact hp
  · exact hq

theorem of_narrows {p : Parser γ}
    (h : ∀ s t : TokenStream, s.Narrows t → Meets true Eq (p s) (p t)) : Covers lax p p Eq := by
  cases lax with
  | true => exact h
  | false => exact same p

theorem current : Covers lax Parser.current Parser.current Eq :=
  fun _ t hst => ⟨t.current, t, rfl, hst.current, hst⟩

theorem afterBreak : Covers lax Parser.afterBreak Parser.afterBreak Eq :=
  fun _ t hst => ⟨t.afterBreak, t, rfl, hst.afterBreak, hst⟩

theorem isStrict : Covers lax Parser.isStrict Parser.isStrict (Modes lax) :=
  fun _ t hst => ⟨t.strict, t, rfl, hst.strict, hst⟩

theorem setStrict {a b : Bool} (hab : Modes lax a b) :
    Covers lax (Parser.setStrict a) (Parser.setStrict b) Eq :=
  fun _ _ hst => ⟨(), _, rfl, rfl, hst.setStrict hab⟩

theorem advance : Covers lax Parser.advance Parser.advance Eq := by
  refine .of_narrows fun s t hst => ?_
  cases hs : Parser.advance s with
  | error e s' => exact .inl rfl
  | ok a s' =>
    obtain ⟨t', ht, hst'⟩ := hst.advance hs
    exact ⟨(), t', ht, rfl, hst'⟩

theorem peek : Covers lax Parser.peek Parser.peek Eq := by
  refine .of_narrows fun s t hst => ?_
  rw [peek_eq]
  cases hs : Parser.advance s with
  | error e s' => exact .inl rfl
  | ok a s' =>
    obtain ⟨t', ht, -, hst'⟩ := hst.peek hs
    exact ⟨_, t', ht, rfl, hst'⟩

theorem atSign (sign : Punctuator) :
    Covers lax (Parser.atSign sign) (Parser.atSign sign) Eq := by
  unfold Parser.atSign
  exact .andThen .current fun _ => .pure rfl

theorem atWord (word : Keyword) : Covers lax (Parser.atWord word) (Parser.atWord word) Eq := by
  unfold Parser.atWord
  exact .andThen .current fun _ => .pure rfl

theorem atEnd : Covers lax Parser.atEnd Parser.atEnd Eq := by
  unfold Parser.atEnd
  exact .andThen .current fun _ => .pure rfl

theorem expect (sign : Punctuator) :
    Covers lax (Parser.expect sign) (Parser.expect sign) Eq := by
  unfold Parser.expect
  exact .andThen (.atSign sign) fun _ => .ite .advance (.andThen .current fun _ => .fail)

theorem expectWord (word : Keyword) :
    Covers lax (Parser.expectWord word) (Parser.expectWord word) Eq := by
  unfold Parser.expectWord
  exact .andThen (.atWord word) fun _ => .ite .advance (.andThen .current fun _ => .fail)

theorem eat (sign : Punctuator) : Covers lax (Parser.eat sign) (Parser.eat sign) Eq := by
  unfold Parser.eat
  exact .andThen (.atSign sign) fun _ => .ite (.andThen .advance fun _ => .pure rfl) (.pure rfl)

theorem eatWord (word : Keyword) : Covers lax (Parser.eatWord word) (Parser.eatWord word) Eq := by
  unfold Parser.eatWord
  exact .andThen (.atWord word) fun _ => .ite (.andThen .advance fun _ => .pure rfl) (.pure rfl)

theorem endStatement : Covers lax Parser.endStatement Parser.endStatement Eq := by
  unfold Parser.endStatement
  refine .andThen (.atSign _) fun _ => .ite .advance (.andThen (.atSign _) fun _ => ?_)
  refine .andThen .afterBreak fun _ => .andThen .atEnd fun _ => .ite (.pure rfl) ?_
  exact .andThen .current fun _ => .fail

theorem separate (close : Punctuator) :
    Covers lax (Parser.separate close) (Parser.separate close) Eq := by
  unfold Parser.separate
  refine .andThen (.atSign _) fun _ => .ite .advance (.andThen (.atSign _) fun _ => ?_)
  exact .ite (.pure rfl) (.andThen .current fun _ => .fail)

theorem commaList {W : List α → List β → Prop} (close : Punctuator) (he : Covers lax p q U)
    (hnil : W [] []) (hcons : ∀ a b as bs, U a b → W as bs → W (a :: as) (b :: bs))
    {rounds rounds' : Nat} (hrounds : rounds ≤ rounds') :
    Covers lax (Parser.commaList close p rounds) (Parser.commaList close q rounds') W := by
  induction rounds generalizing rounds' with
  | zero => exact .exhausted
  | succ rounds ih =>
    cases rounds' with
    | zero => cases hrounds
    | succ rounds' =>
      unfold Parser.commaList
      refine .andThen (.atSign _) fun _ => .ite (.pure hnil) (.bind he fun a b hab => ?_)
      refine .andThen (.separate _) fun _ => .bind (ih (Nat.le_of_succ_le_succ hrounds)) ?_
      exact fun as bs h => .pure (hcons a b as bs hab h)

/-- A rule whose error is kept for later.  What follows may rely on its success, or fails. -/
theorem attempt {f : Except SyntaxError α → Parser γ} {g : Except SyntaxError β → Parser δ}
    (hp : Covers lax p q U) (hok : ∀ a b, U a b → Covers lax (f (.ok a)) (g (.ok b)) V)
    (herror : ∀ e, Covers lax (f (.error e)) (g (.error e)) V)
    (hfails : ∀ e s, Fails (f (.error e)) s) :
    Covers lax (Parser.attempt p >>= f) (Parser.attempt q >>= g) V := by
  intro s t hst
  have h := hp s t hst
  simp only [Bind.bind, EStateM.bind, Parser.attempt]
  cases hr : p s with
  | ok a s' =>
    rw [hr] at h
    obtain ⟨b, t', hq, hab, hst'⟩ := h
    rw [hq]
    exact hok a b hab s' t' hst'
  | error e s' =>
    rw [hr] at h
    rcases h with rfl | rfl | ⟨t', ht, hst'⟩
    · cases e with
      | outOfFuel => exact .inl rfl
      | _ => exact .lost (hfails _ s') _
    · exact .inr (.inl rfl)
    · rw [ht]
      cases e with
      | outOfFuel => exact .inr (.inl rfl)
      | _ => exact herror _ s' t' hst'

theorem check {bad a b : Bool} {e : SyntaxError} {p : Parser γ} {q : Parser δ}
    (hab : Modes lax a b) (h : Covers lax p q V) :
    Covers lax (if (a && bad) = true then throw e else p)
      (if (b && bad) = true then throw e else q) V := by
  rcases hab.cases with rfl | ⟨rfl, rfl, rfl⟩
  · exact .ite .fail h
  · cases bad with
    | true => exact .lost fun s => .throw e s
    | false => exact h

theorem ok {p : Parser γ} {q : Parser δ} (h : Covers false p q V) {s t : TokenStream} {a : γ}
    (hp : p s = .ok a t) : ∃ b, q s = .ok b t ∧ V a b := by
  have hmeets := h s s rfl
  rw [hp] at hmeets
  obtain ⟨b, u, hq, hab, rfl⟩ := hmeets
  exact ⟨b, hq, hab⟩

end Covers

/-- The rules for what is nested are covered one by one, and loops are allowed no more rounds in the
first reading. -/
structure Nesting.Covers (lax : Bool) (n m : Nesting) : Prop where
  rounds : n.rounds ≤ m.rounds
  assignment : ∀ cover c, Grammar.Covers lax (n.parse (.assignment cover) c)
    (m.parse (.assignment cover) c) (Same lax Expr.erase)
  binary : ∀ strength c, Grammar.Covers lax (n.parse (.binary strength) c)
    (m.parse (.binary strength) c) (Same lax Expr.erase)
  power : ∀ c, Grammar.Covers lax (n.parse .power c) (m.parse .power c) (Same lax Expr.erase)
  unary : ∀ c, Grammar.Covers lax (n.parse .unary c) (m.parse .unary c) (Same lax Expr.erase)
  construct : ∀ c,
    Grammar.Covers lax (n.parse .construct c) (m.parse .construct c) (Same lax Expr.erase)
  pattern : ∀ c,
    Grammar.Covers lax (n.parse .pattern c) (m.parse .pattern c) (Same lax Pattern.erase)
  element : ∀ c,
    Grammar.Covers lax (n.parse .element c) (m.parse .element c) (Same lax Pattern.erase)
  statement : ∀ chain c, Grammar.Covers lax (n.parse (.statement chain) c)
    (m.parse (.statement chain) c) (Same lax Stmt.erase)
  item : ∀ c, Grammar.Covers lax (n.parse .item c) (m.parse .item c) (Same lax Stmt.erase)

end Grammar

end ProtoScript
