import ProtoScript.Grammar.Program
import ProtoScript.Proofs.Grammar.Yields
import ProtoScript.Proofs.TokenReading
/-!
# Grammar rules move forward

What is left to read of a token stream has a size, and no rule makes it grow.  `Takes` says of a
rule that it takes a number of tokens before it succeeds and that it does not run into its bound
while fewer tokens than a limit are left, so that the rules behind it may rely on a lower limit.  On
the way a rule keeps any relation between streams that its elementary steps keep; such a relation is
a `Course`.
-/

namespace ProtoScript

/-- How much is left to read: the characters behind the cursor, and the tokens that have been read
but not used. -/
def TokenStream.size (s : TokenStream) : Nat :=
  s.cursor.rest.length + s.current.weight + s.ahead.elim 0 fun found => found.1.weight

namespace Grammar

variable {α β : Type}

/-- A relation between the stream where a reading starts and a stream where it gets to, which the
elementary steps keep.  Text may be read in strict mode on the way, if the mode is then set back. -/
structure Course where
  Leads : TokenStream → TokenStream → Prop
  refl : ∀ s, Leads s s
  trans : ∀ {s t u}, Leads s t → Leads t u → Leads s u
  strict_eq : ∀ {s t}, Leads s t → t.strict = s.strict
  advance : ∀ {s t}, Parser.advance s = .ok () t → Leads s t
  peek : ∀ {s t found}, Parser.peek s = .ok found t → Leads s t
  restore : ∀ {s t : TokenStream}, Leads { s with strict := true } { t with strict := true } →
    Leads s { t with strict := s.strict }

variable {r : Course}

/-- How a rule ends at a stream: with a result and at least `count` tokens less to read, or with an
error that is not about its bound. -/
def Goes (r : Course) (count : Nat) (p : Parser α) (s : TokenStream) : Prop :=
  match p s with
  | .ok _ t => t.size + count ≤ s.size ∧ r.Leads s t
  | .error e _ => e ≠ .outOfFuel

/-- Where less than `limit` is left to read, the rule takes at least `count` tokens before it
succeeds, and it does not run into its bound.  With `more` set this is said of streams that are not
at the end of the text. -/
def Takes (r : Course) (more : Bool) (count limit : Nat) (p : Parser α) : Prop :=
  ∀ s : TokenStream, (more = true → s.current.isEnd = false) → s.size < limit → Goes r count p s

section Steps

theorem Goes.bind {j k : Nat} {p : Parser α} {f : α → Parser β} {s : TokenStream}
    (hp : Goes r j p s) (hf : ∀ a t, t.size + j ≤ s.size → Goes r k (f a) t) :
    Goes r (j + k) (p >>= f) s := by
  unfold Goes at hp ⊢
  simp only [Bind.bind, EStateM.bind]
  cases hr : p s with
  | error e t =>
    rw [hr] at hp
    exact hp
  | ok a t =>
    rw [hr] at hp
    have hnext := hf a t hp.1
    unfold Goes at hnext
    dsimp only
    cases hu : f a t with
    | error e u =>
      rw [hu] at hnext
      exact hnext
    | ok b u =>
      rw [hu] at hnext
      refine ⟨?_, r.trans hp.2 hnext.2⟩
      have := hp.1
      have := hnext.1
      omega

theorem Goes.weaken {j k : Nat} {p : Parser α} {s : TokenStream} (h : Goes r j p s) (hk : k ≤ j) :
    Goes r k p s := by
  unfold Goes at h ⊢
  cases hr : p s with
  | error e t =>
    rw [hr] at h
    exact h
  | ok a t =>
    rw [hr] at h
    exact ⟨Nat.le_trans (Nat.add_le_add_left hk _) h.1, h.2⟩

/-- A token that is not the end of the text is used up when the next one becomes current. -/
theorem size_advance {s t : TokenStream} (h : Parser.advance s = .ok () t) :
    t.size + s.current.weight ≤ s.size := by
  unfold Parser.advance at h
  split at h
  · next token afterBreak hahead =>
    cases h
    simp only [TokenStream.size, hahead, Option.elim_some, Option.elim_none]
    omega
  · next hahead =>
    split at h
    · next token afterBreak cursor hread =>
      cases h
      have := TokenStream.length_rest_readToken hread
      simp only [TokenStream.size, hahead, Option.elim_none]
      dsimp only at this
      omega
    · cases h

theorem Goes.advance (s : TokenStream) : Goes r s.current.weight Parser.advance s := by
  unfold Goes
  cases h : Parser.advance s with
  | error e t => exact advance_ne_outOfFuel h
  | ok a t => exact ⟨size_advance h, r.advance h⟩

theorem Goes.peek (s : TokenStream) : Goes r 0 Parser.peek s := by
  unfold Goes
  cases h : Parser.peek s with
  | error e t =>
    rw [peek_eq] at h
    cases ha : Parser.advance s with
    | error e u =>
      rw [ha] at h
      cases h
      exact advance_ne_outOfFuel ha
    | ok a u =>
      rw [ha] at h
      cases h
  | ok found t =>
    refine ⟨?_, r.peek h⟩
    obtain ⟨u, hu, rfl⟩ := advance_of_peek h
    have hsize := size_advance hu
    simp only [TokenStream.size, ahead_advance hu, Option.elim_some, Option.elim_none] at hsize ⊢
    omega

end Steps

/-- A rule that only looks: it leaves the stream as it is, and its errors are about the text. -/
def Looks (p : Parser α) : Prop :=
  ∀ s, match p s with
    | .ok _ t => t = s
    | .error e _ => e ≠ .outOfFuel

namespace Looks

theorem pure {a : α} : Looks (pure a) := fun _ => rfl

theorem fail {e : SyntaxError} (h : e ≠ .outOfFuel) : Looks (throw e : Parser α) := fun _ => h

theorem failed {e : SyntaxError} {f : α → Parser β} (h : e ≠ .outOfFuel) :
    Looks ((throw e : Parser α) >>= f) :=
  fun _ => h

theorem current : Looks Parser.current := fun _ => rfl

theorem isStrict : Looks Parser.isStrict := fun _ => rfl

theorem afterBreak : Looks Parser.afterBreak := fun _ => rfl

theorem atSign {sign : Punctuator} : Looks (Parser.atSign sign) := fun _ => rfl

theorem atWord {word : Keyword} : Looks (Parser.atWord word) := fun _ => rfl

theorem atEnd : Looks Parser.atEnd := fun _ => rfl

theorem bind {p : Parser α} {f : α → Parser β} (hp : Looks p) (hf : ∀ a, Looks (f a)) :
    Looks (p >>= f) := by
  intro s
  have h := hp s
  simp only [Bind.bind, EStateM.bind]
  cases hr : p s with
  | ok a t =>
    rw [hr] at h
    obtain rfl : t = s := h
    exact hf a t
  | error e t =>
    rw [hr] at h
    exact h

theorem ite {c : Prop} [Decidable c] {p q : Parser α} (hp : Looks p) (hq : Looks q) :
    Looks (if c then p else q) := by
  split
  · exact hp
  · exact hq

end Looks

namespace Takes

variable {more : Bool} {count limit : Nat}

theorem weaken {j k limit' : Nat} {p : Parser α} (h : Takes r false j limit p) (hk : k ≤ j)
    (hlimit : limit' ≤ limit) : Takes r more k limit' p :=
  fun s _ hs => (h s nofun (Nat.lt_of_lt_of_le hs hlimit)).weaken hk

theorem here {p : Parser α} (h : Takes r false count limit p) : Takes r more count limit p :=
  h.weaken (Nat.le_refl _) (Nat.le_refl _)

theorem any {p : Parser α} (h : Takes r false count limit p) : Takes r more 0 limit p :=
  h.weaken (Nat.zero_le _) (Nat.le_refl _)

theorem drop {p : Parser α} (h : Takes r more count limit p) : Takes r more 0 limit p :=
  fun s hmore hs => (h s hmore hs).weaken (Nat.zero_le _)

theorem later {p : Parser α} (h : Takes r more count (limit + 1) p) : Takes r more 0 limit p :=
  fun s hmore hs => (h s hmore (Nat.lt_succ_of_lt hs)).weaken (Nat.zero_le _)

theorem zero {p : Parser α} : Takes r more count 0 p := fun _ _ hs => absurd hs (Nat.not_lt_zero _)

theorem pure {a : α} : Takes r more 0 limit (pure a) := fun s _ _ => ⟨Nat.le_refl _, r.refl s⟩

theorem fail {e : SyntaxError} (h : e ≠ .outOfFuel) :
    Takes r more count limit (throw e : Parser α) :=
  fun _ _ _ => h

theorem failed {e : SyntaxError} {f : α → Parser β} (h : e ≠ .outOfFuel) :
    Takes r more count limit ((throw e : Parser α) >>= f) :=
  fun _ _ _ => h

/-- A step that need not take anything; what follows takes as much as the whole. -/
theorem keep {p : Parser α} {f : α → Parser β} (hp : Takes r more 0 limit p)
    (hf : ∀ a, Takes r false count limit (f a)) : Takes r more count limit (p >>= f) := by
  intro s hmore hs
  have h := (hp s hmore hs).bind fun a t ht => hf a t nofun (by omega)
  rwa [Nat.zero_add] at h

/-- A step that takes a token; what follows may rely on the lower limit. -/
theorem take {p : Parser α} {f : α → Parser β} (hp : Takes r more 1 (limit + 1) p)
    (hf : ∀ a, Takes r false (count - 1) limit (f a)) :
    Takes r more count (limit + 1) (p >>= f) := by
  intro s hmore hs
  exact ((hp s hmore hs).bind fun a t ht => hf a t nofun (by omega)).weaken (by omega)

theorem look {p : Parser α} {f : α → Parser β} (hp : Looks p)
    (hf : ∀ a, Takes r more count limit (f a)) : Takes r more count limit (p >>= f) := by
  intro s hmore hs
  have h := hp s
  unfold Goes
  simp only [Bind.bind, EStateM.bind]
  cases hr : p s with
  | ok a t =>
    rw [hr] at h
    obtain rfl : t = s := h
    exact hf a t hmore hs
  | error e t =>
    rw [hr] at h
    exact h

theorem of_looks {p : Parser α} (hp : Looks p) : Takes r more 0 limit p := by
  intro s _ _
  have h := hp s
  unfold Goes
  cases hr : p s with
  | ok a t =>
    rw [hr] at h
    obtain rfl : t = s := h
    exact ⟨Nat.le_refl _, r.refl t⟩
  | error e t =>
    rw [hr] at h
    exact h

theorem map {p : Parser α} {f : α → β} (hp : Takes r more count limit p) :
    Takes r more count limit (f <$> p) := by
  intro s hmore hs
  have h := hp s hmore hs
  unfold Goes at h ⊢
  simp only [Functor.map, EStateM.map]
  cases hr : p s with
  | ok a t =>
    rw [hr] at h
    exact h
  | error e t =>
    rw [hr] at h
    exact h

theorem ite {c : Prop} [Decidable c] {p q : Parser α} (hp : c → Takes r more count limit p)
    (hq : ¬ c → Takes r more count limit q) : Takes r more count limit (if c then p else q) := by
  by_cases h : c
  · rw [if_pos h]
    exact hp h
  · rw [if_neg h]
    exact hq h

theorem current {f : Token → Parser β}
    (h : ∀ token, Takes r (more || !token.isEnd) count limit (f token)) :
    Takes r more count limit (Parser.current >>= f) := by
  intro s hmore hs
  refine h s.current s (fun hor => ?_) hs
  rcases Bool.or_eq_true_iff.mp hor with hm | hm
  · exact hmore hm
  · simpa using hm

/-- What is asked of the current token may only hold of one that is not the end of the text. -/
theorem test {asked : Token → Bool} (hasked : ∀ token, asked token = true → token.isEnd = false)
    {p q : Parser β} (hp : Takes r true count limit p) (hq : Takes r more count limit q) :
    Takes r more count limit
      (Parser.current >>= fun token => if asked token = true then p else q) := by
  intro s hmore hs
  change Goes r count (if asked s.current = true then p else q) s
  by_cases h : asked s.current = true
  · rw [if_pos h]
    exact hp s (fun _ => hasked _ h) hs
  · rw [if_neg h]
    exact hq s hmore hs

theorem atSign {sign : Punctuator} {p q : Parser β} (hp : Takes r true count limit p)
    (hq : Takes r more count limit q) : Takes r more count limit
      (Parser.atSign sign >>= fun found => if found = true then p else q) := by
  have hasked : ∀ token : Token, (token.sign? == some sign) = true → token.isEnd = false := by
    intro token h
    cases token with
    | punctuator => rfl
    | _ => cases h
  exact test hasked hp hq

theorem atWord {word : Keyword} {p q : Parser β} (hp : Takes r true count limit p)
    (hq : Takes r more count limit q) : Takes r more count limit
      (Parser.atWord word >>= fun found => if found = true then p else q) := by
  have hasked : ∀ token : Token, (token.word? == some word) = true → token.isEnd = false := by
    intro token h
    cases token with
    | keyword => rfl
    | _ => cases h
  exact test hasked hp hq

theorem atEnd {p q : Parser β} (hp : Takes r false count limit p)
    (hq : Takes r true count limit q) : Takes r more count limit
      (Parser.atEnd >>= fun found => if found = true then p else q) := by
  intro s _ hs
  change Goes r count (if s.current.isEnd = true then p else q) s
  by_cases h : s.current.isEnd = true
  · rw [if_pos h]
    exact hp s nofun hs
  · rw [if_neg h]
    exact hq s (fun _ => Bool.eq_false_iff.mpr h) hs

theorem advance : Takes r true 1 limit Parser.advance := by
  intro s hmore _
  have h := Goes.advance (r := r) s
  rwa [Token.weight, hmore rfl] at h

theorem advance_any : Takes r more 0 limit Parser.advance :=
  fun s _ _ => (Goes.advance s).weaken (Nat.zero_le _)

/-- Looking at the token behind the current one leaves the current one as it is. -/
theorem peek {f : Token × Bool → Parser β} (hf : ∀ found, Takes r more count limit (f found)) :
    Takes r more count limit (Parser.peek >>= f) := by
  intro s hmore hs
  have h := Goes.peek (r := r) s
  unfold Goes at h ⊢
  simp only [Bind.bind, EStateM.bind]
  cases hr : Parser.peek s with
  | error e t =>
    rw [hr] at h
    exact h
  | ok found t =>
    rw [hr] at h
    have hcurrent := current_peek hr
    have hnext := hf found t (fun hm => by rw [hcurrent]; exact hmore hm) (by omega)
    unfold Goes at hnext
    dsimp only
    cases hu : f found t with
    | error e u =>
      rw [hu] at hnext
      exact hnext
    | ok a u =>
      rw [hu] at hnext
      exact ⟨by have := h.1; have := hnext.1; omega, r.trans h.2 hnext.2⟩

theorem expect {sign : Punctuator} : Takes r more 1 limit (Parser.expect sign) := by
  unfold Parser.expect
  exact .atSign .advance (.current fun _ => .fail nofun)

theorem expectWord {word : Keyword} : Takes r more 1 limit (Parser.expectWord word) := by
  unfold Parser.expectWord
  exact .atWord .advance (.current fun _ => .fail nofun)

theorem eat {sign : Punctuator} {f : Bool → Parser β}
    (hp : Takes r false (count - 1) limit (f true))
    (hq : Takes r more count (limit + 1) (f false)) :
    Takes r more count (limit + 1) (Parser.eat sign >>= f) := by
  rw [eat_bind]
  exact .atSign (.take .advance fun _ => hp) hq

theorem eatWord {word : Keyword} {f : Bool → Parser β}
    (hp : Takes r false (count - 1) limit (f true))
    (hq : Takes r more count (limit + 1) (f false)) :
    Takes r more count (limit + 1) (Parser.eatWord word >>= f) := by
  rw [eatWord_bind]
  exact .atWord (.take .advance fun _ => hp) hq

theorem eat_any {sign : Punctuator} : Takes r more 0 limit (Parser.eat sign) := by
  unfold Parser.eat
  exact .atSign (.keep .advance_any fun _ => .pure) .pure

theorem eatWord_any {word : Keyword} : Takes r more 0 limit (Parser.eatWord word) := by
  unfold Parser.eatWord
  exact .atWord (.keep .advance_any fun _ => .pure) .pure

theorem endStatement : Takes r more 0 limit Parser.endStatement := by
  unfold Parser.endStatement
  refine .atSign .advance_any (.look .atSign fun atBrace => .look .afterBreak fun broken => ?_)
  exact .look .atEnd fun ended => .ite (fun _ => .pure) fun _ => .current fun _ => .fail nofun

theorem separate {close : Punctuator} : Takes r more 0 limit (Parser.separate close) := by
  unfold Parser.separate
  exact .atSign .advance_any (.atSign .pure (.current fun _ => .fail nofun))

/-- The elements of a list.  An element takes a token, or it leaves one to be taken as the
separator. -/
theorem commaList {close : Punctuator} {element : Parser α} {rounds : Nat}
    (hrounds : limit ≤ rounds)
    (h : ∀ limit' < limit, ∀ {γ : Type} {f : α → Parser γ}, (∀ a, Takes r false 0 limit' (f a)) →
      Takes r false 1 (limit' + 1) (element >>= fun a => Parser.separate close >>= fun _ => f a)) :
    Takes r more 0 limit (Parser.commaList close element rounds) := by
  induction rounds generalizing limit more with
  | zero =>
    obtain rfl := Nat.le_zero.mp hrounds
    exact .zero
  | succ rounds ih =>
    cases limit with
    | zero => exact .zero
    | succ limit =>
      unfold Parser.commaList
      refine .atSign .pure (.any (h limit (Nat.lt_succ_self _) fun first => ?_))
      refine .keep (ih (Nat.le_of_succ_le_succ hrounds) fun limit' hlimit => ?_) fun _ => .pure
      exact h limit' (Nat.lt_succ_of_lt hlimit)

theorem name {f : Option String → Parser β}
    (hsome : ∀ name, Takes r true count limit (f (some name)))
    (hnone : Takes r more count limit (f none)) :
    Takes r more count limit (currentName? >>= f) := by
  intro s hmore hs
  change Goes r count (f (nameOfToken? s.strict s.current)) s
  cases hname : nameOfToken? s.strict s.current with
  | none => exact hnone s hmore hs
  | some name =>
    refine hsome name s (fun _ => ?_) hs
    cases hc : s.current with
    | endOfInput =>
      rw [hc] at hname
      cases hname
    | _ => rfl

/-- A rule whose error is kept for later.  What follows may rely on its success, or fails. -/
theorem attempt {p : Parser α} {f : Except SyntaxError α → Parser β}
    (hp : Takes r more 0 limit p) (hok : ∀ a, Takes r false 0 limit (f (.ok a)))
    (herror : ∀ e, e ≠ .outOfFuel → ∀ s, ∃ e' t, f (.error e) s = .error e' t ∧ e' ≠ .outOfFuel) :
    Takes r more 0 limit (Parser.attempt p >>= f) := by
  intro s hmore hs
  have h := hp s hmore hs
  unfold Goes at h ⊢
  simp only [Bind.bind, EStateM.bind, Parser.attempt]
  cases hr : p s with
  | ok a t =>
    rw [hr] at h
    have hnext := hok a t nofun (by omega)
    unfold Goes at hnext
    dsimp only
    cases hu : f (.ok a) t with
    | ok b u =>
      rw [hu] at hnext
      exact ⟨by have := h.1; have := hnext.1; omega, r.trans h.2 hnext.2⟩
    | error e u =>
      rw [hu] at hnext
      exact hnext
  | error e t =>
    rw [hr] at h
    obtain ⟨e', u, hu, he'⟩ := herror e h t
    cases e with
    | outOfFuel => exact absurd rfl h
    | _ =>
      dsimp only
      rw [hu]
      exact he'

end Takes

/-- Whether a rule is used at a keyword only, which it takes without looking at it. -/
def Goal.isAnnounced : Goal → Bool
  | .construct => true
  | _ => false

/-- The rules for what is nested take a token each, and loops are allowed as many rounds as there
may be tokens left. -/
structure Nesting.Takes (r : Course) (n : Nesting) (limit : Nat) : Prop where
  rounds : limit ≤ n.rounds
  parse : ∀ (g : Goal) (c : Context), g.isAnnounced = false →
    Grammar.Takes r false 1 limit (n.parse g c)
  announced : ∀ g c, Grammar.Takes r true 1 limit (n.parse g c)

theorem Nesting.Takes.le {n : Nesting} {limit limit' : Nat} (h : n.Takes r limit)
    (hle : limit' ≤ limit) : n.Takes r limit' where
  rounds := Nat.le_trans hle h.rounds
  parse g c hg := (h.parse g c hg).weaken (Nat.le_refl _) hle
  announced g c := fun s hmore hs => h.announced g c s hmore (Nat.lt_of_lt_of_le hs hle)

end Grammar

end ProtoScript
