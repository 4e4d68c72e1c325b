import ProtoScript.Proofs.Progress.Statement
/-!
# Which tokens of strict code are read in strict mode

A token is read when it is needed, which is before the mode is known that the text in front of it
asks for.  So strict mode holds from the token behind the current one on: all further tokens of the
text are read in strict mode, whatever the grammar does with them.
-/

namespace ProtoScript

open Grammar

inductive Token.Strictly : Cursor → Cursor → Prop where
  | refl {c : Cursor} : Strictly c c
  | step {c d : Cursor} {l : Lexeme} : Token.next true c = .ok l → Strictly l.next d → Strictly c d

namespace Token.Strictly

variable {c d e : Cursor}

theorem trans (h : Strictly c d) (h' : Strictly d e) : Strictly c e := by
  induction h with
  | refl => exact h'
  | step hn _ ih => exact .step hn (ih h')

theorem of_readToken {afterBreak : Bool} {found : Token × Bool × Cursor}
    (h : TokenStream.readToken true c afterBreak = .ok found) : Strictly c found.2.2 := by
  fun_induction TokenStream.readToken true c afterBreak with
  | case1 => cases h
  | case2 c afterBreak l hn ht ih => exact .step hn (ih h)
  | case3 c afterBreak l hn ht =>
    cases h
    exact .step hn .refl

end Token.Strictly

/-! ### The course of a strict reading -/

def TokenStream.EndsAtEnd (s : TokenStream) : Prop :=
  (s.current.isEnd = true → s.cursor.rest = []) ∧
    ∀ found, s.ahead = some found → found.1.isEnd = true → s.cursor.rest = []

theorem TokenStream.EndsAtEnd.advance {s t : TokenStream} (h : s.EndsAtEnd)
    (hs : Parser.advance s = .ok () t) : t.EndsAtEnd := by
  unfold Parser.advance at hs
  split at hs
  · next hahead =>
    cases hs
    exact ⟨h.2 _ hahead, nofun⟩
  · next hahead =>
    split at hs
    · next hread =>
      cases hs
      refine ⟨TokenStream.rest_of_endOfInput hread, fun found hfound => ?_⟩
      rw [hahead] at hfound
      cases hfound
    · cases hs

namespace Grammar

theorem strictly_advance {s t : TokenStream} (h : Parser.advance s = .ok () t)
    (hs : s.strict = true) : Token.Strictly s.cursor t.cursor := by
  unfold Parser.advance at h
  split at h
  · cases h
    exact .refl
  · rw [hs] at h
    split at h
    · next hread =>
      cases h
      exact .of_readToken hread
    · cases h

theorem length_rest_advance {s t : TokenStream} (h : Parser.advance s = .ok () t) :
    t.cursor.rest.length ≤ s.cursor.rest.length := by
  unfold Parser.advance at h
  split at h
  · cases h
    exact Nat.le_refl _
  · split at h
    · next hread =>
      cases h
      exact Nat.le_trans (Nat.le_add_right _ _) (TokenStream.length_rest_readToken hread)
    · cases h

def Course.strictly : Course where
  Leads s t := t.strict = s.strict ∧ (s.strict = true → Token.Strictly s.cursor t.cursor) ∧
    (s.EndsAtEnd → t.EndsAtEnd)
  refl s := ⟨rfl, fun _ => .refl, id⟩
  trans h h' := ⟨h'.1.trans h.1, fun hs => (h.2.1 hs).trans (h'.2.1 (h.1.trans hs)),
    fun hs => h'.2.2 (h.2.2 hs)⟩
  strict_eq h := h.1
  advance h := ⟨strict_advance h, strictly_advance h, fun hs => hs.advance h⟩
  peek h := by
    obtain ⟨u, hu, rfl⟩ := advance_of_peek h
    refine ⟨(strict_advance hu :), (strictly_advance hu :), fun hs => ⟨fun hend => ?_, ?_⟩⟩
    · have hle := length_rest_advance hu
      rw [hs.1 hend] at hle
      exact List.length_eq_zero_iff.mp (Nat.le_zero.mp hle)
    · intro found hfound hend
      cases hfound
      exact (hs.advance hu).1 hend
  restore h := ⟨rfl, fun _ => h.2.1 rfl, h.2.2⟩

/-- What a round of reading a program does: the text ends, or a directive asks for strict mode, or a
statement does not. -/
theorem directiveBody_cases {n : Nesting} {c : Context} {prologue : Bool} {rounds : Nat}
    {s t : TokenStream} {r : List Stmt × Bool}
    (h : directiveBody n c none prologue (rounds + 1) s = .ok r t) :
    (s.current.isEnd = true ∧ r = ([], false) ∧ t = s) ∨
    ∃ statement u others, n.parse .item c s = .ok statement u ∧ r.1 = statement :: others.1 ∧
      ((prologue = true ∧ directive? statement = some "use strict" ∧
          directiveBody n c none true rounds { u with strict := true } = .ok others t) ∨
        ((if prologue then directive? statement else none) ≠ some "use strict" ∧
          directiveBody n c none (if prologue then directive? statement else none).isSome rounds u =
            .ok others t)) := by
  unfold directiveBody at h
  rw [current_bind] at h
  simp only [Option.any_none, Bool.false_eq_true, if_false] at h
  split at h
  · next hend =>
    cases h
    exact .inl ⟨hend, rfl, rfl⟩
  refine .inr ?_
  obtain ⟨statement, u, hitem, h⟩ := bind_eq_ok h
  refine ⟨statement, u, ?_⟩
  cases prologue with
  | false =>
    obtain ⟨others, t', hrest, h⟩ := bind_eq_ok h
    cases h
    exact ⟨others, hitem, rfl, .inr ⟨by simp, hrest⟩⟩
  | true =>
    simp only [if_true] at h ⊢
    split at h
    · next hasks =>
      obtain ⟨_, _, hset, h⟩ := bind_eq_ok h
      cases hset
      obtain ⟨others, t', hrest, h⟩ := bind_eq_ok h
      cases h
      have hdirective : directive? statement = some "use strict" := by simpa using hasks
      rw [hdirective] at hrest
      exact ⟨others, hitem, rfl, .inl ⟨trivial, hdirective, hrest⟩⟩
    · next hasks =>
      obtain ⟨others, t', hrest, h⟩ := bind_eq_ok h
      cases h
      exact ⟨others, hitem, rfl, .inr ⟨by simpa using hasks, hrest⟩⟩

/-- The statements of a program are followed by the end of the text. -/
theorem isEnd_directiveBody {n : Nesting} {c : Context} {prologue : Bool} {rounds : Nat}
    {s t : TokenStream} {r : List Stmt × Bool}
    (h : directiveBody n c none prologue rounds s = .ok r t) : t.current.isEnd = true := by
  induction rounds generalizing prologue s r with
  | zero => cases h
  | succ rounds ih =>
    rcases directiveBody_cases h with ⟨hend, -, rfl⟩ | ⟨_, _, _, -, -, ⟨-, -, hrest⟩ | ⟨-, hrest⟩⟩
    · exact hend
    · exact ih hrest
    · exact ih hrest

/-- Directives that are read one after the other, the last of which asks for strict mode.  The other
ones do not. -/
inductive AsksStrict (n : Nesting) : TokenStream → List Stmt → TokenStream → Prop
  | last {s t : TokenStream} {directive : Stmt} : n.parse .item .program s = .ok directive t →
    directive? directive = some "use strict" → AsksStrict n s [directive] t
  | later {s t u : TokenStream} {directive : Stmt} {others : List Stmt} {text : String} :
    n.parse .item .program s = .ok directive t → directive? directive = some text →
    text ≠ "use strict" → AsksStrict n t others u → AsksStrict n s (directive :: others) u

/-- Where a program that starts in sloppy mode ends in strict mode, one of its directives asked for
it, and behind the token that follows this directive all tokens are read strictly. -/
theorem strictly_directiveBody {n : Nesting} {limit : Nat} (hn : n.Takes .strictly limit)
    {prologue : Bool} {rounds : Nat} (hrounds : limit ≤ rounds) {s t : TokenStream}
    {r : List Stmt × Bool} (hs : s.size < limit) (hsloppy : s.strict = false)
    (h : directiveBody n .program none prologue rounds s = .ok r t) (hstrict : t.strict = true) :
    prologue = true ∧ ∃ front u rest, AsksStrict n s front u ∧ r.1 = front ++ rest ∧
      Token.Strictly u.cursor t.cursor := by
  induction rounds generalizing limit prologue s r with
  | zero => cases h
  | succ rounds ih =>
    cases limit with
    | zero => exact absurd hs (Nat.not_lt_zero _)
    | succ limit =>
      have hrounds' := Nat.le_of_succ_le_succ hrounds
      have hn' := hn.le (Nat.le_succ limit)
      rcases directiveBody_cases h with ⟨-, -, rfl⟩ | ⟨statement, u, others, hitem, hr, hcases⟩
      · rw [hsloppy] at hstrict
        cases hstrict
      have hgoes := hn.parse .item .program rfl s nofun hs
      unfold Goes at hgoes
      rw [hitem] at hgoes
      have hu : u.size < limit := by
        have := hgoes.1
        omega
      rcases hcases with ⟨hprologue, hdirective, hrest⟩ | ⟨hasks, hrest⟩
      · have hreturns := returns_directiveBody hn' .program none true hrounds'
          { u with strict := true } hu
        rw [hrest] at hreturns
        refine ⟨hprologue, [statement], u, others.1, .last hitem hdirective, hr, ?_⟩
        exact hreturns.2.2.1 rfl
      · obtain ⟨hprologue', front, v, rest, hfront, hothers, hread⟩ :=
          ih hn' hrounds' hu (hgoes.2.1.trans hsloppy) hrest
        cases prologue with
        | false => cases hprologue'
        | true =>
          simp only [if_true] at hasks hprologue'
          obtain ⟨text, htext⟩ := Option.isSome_iff_exists.mp hprologue'
          refine ⟨rfl, statement :: front, v, rest, ?_, ?_, hread⟩
          · refine .later hitem htext (fun heq => hasks ?_) hfront
            rw [htext, heq]
          · rw [hr, hothers, List.cons_append]

end Grammar

/-! ### Reading a text twice -/

namespace Token

/-- Where strict mode gets to the end of the text, it finds no error on the way. -/
theorem scanFrom_of_strictly {c d : Cursor} (h : Strictly c d) (hd : d.rest = []) (count : Nat) :
    (scanFrom true count c).2 = none := by
  induction h generalizing count with
  | refl =>
    cases count with
    | zero => rfl
    | succ count =>
      obtain ⟨l, hl, hend⟩ : ∃ l, next true _ = .ok l ∧ l.token = .endOfInput :=
        next_of_rest_nil hd
      rw [scanFrom, hl]
      dsimp only
      rw [hend]
  | step hn _ ih =>
    cases count with
    | zero => rfl
    | succ count =>
      rw [scanFrom, hn]
      dsimp only
      split
      · rfl
      · exact ih hd count

/-- A text that strict mode reads without an error has a first token in strict mode. -/
theorem readToken_of_scanFrom {c : Cursor} {afterBreak : Bool} {count : Nat}
    (hcount : c.rest.length < count) (h : (scanFrom true count c).2 = none) :
    ∃ found, TokenStream.readToken true c afterBreak = .ok found := by
  fun_induction TokenStream.readToken true c afterBreak generalizing count with
  | case1 c afterBreak e hn =>
    cases count with
    | zero => omega
    | succ count =>
      rw [scanFrom, hn] at h
      cases h
  | case2 c afterBreak l hn ht ih =>
    cases count with
    | zero => omega
    | succ count =>
      rw [scanFrom, hn] at h
      dsimp only at h
      rw [ht] at h
      have hlt : l.next.rest.length < c.rest.length := by
        rcases length_rest_next hn with ⟨hend, -⟩ | hlt
        · rw [hend] at ht
          cases ht
        · exact hlt
      exact ih (by omega) h
  | case3 c afterBreak l hn ht => exact ⟨_, rfl⟩

end Token

theorem TokenStream.endsAtEnd_ofString {source : String} {first : TokenStream}
    (h : TokenStream.ofString source = .ok first) (strict : Bool) :
    EndsAtEnd { first with strict := strict } := by
  unfold TokenStream.ofString at h
  split at h
  · next hread =>
    cases h
    exact ⟨TokenStream.rest_of_endOfInput hread, nofun⟩
  · cases h

theorem TokenStream.strict_ofString {source : String} {first : TokenStream}
    (h : TokenStream.ofString source = .ok first) : { first with strict := false } = first := by
  unfold TokenStream.ofString at h
  split at h <;> cases h
  rfl

/-- Strict code is read strictly behind the token at which strict mode sets in.  Text that is strict
from the outside has its first token read before that, and program text that asks for strict mode
has read its directives and one token more; behind these no octal escape and no leading zero is
accepted, whatever token it is in.  So text that is strict from the outside can be split into tokens
in strict mode as a whole if and only if its first token can be read so. -/
theorem Program.strictly_read {source : String} {strict : Bool} {p : Program}
    (h : Program.ofString source strict = .ok p) (hstrict : p.strict = true) :
    ∃ first front rest s, TokenStream.ofString source = .ok first ∧ p.body = front ++ rest ∧
      (strict = true ∧ front = [] ∧ s = first ∨
        strict = false ∧ AsksStrict (nesting (depthOf source)) first front s) ∧
      (∀ count, (Token.scanFrom true count s.cursor).2 = none) ∧
      (strict = true → ((Token.scan true source).2 = none ↔
        ∃ found, TokenStream.readToken true (Cursor.ofString source) false = .ok found)) := by
  unfold Program.ofString Parser.runOn at h
  cases hfirst : TokenStream.ofString source with
  | error e =>
    rw [hfirst] at h
    cases h
  | ok first =>
    rw [hfirst] at h
    dsimp only at h
    cases hrun : directiveBody (nesting (depthOf source)) .program none true (depthOf source)
        { first with strict := strict } with
    | error e t =>
      rw [show (nesting (depthOf source)).rounds = depthOf source from rfl, hrun] at h
      cases h
    | ok body t =>
      rw [show (nesting (depthOf source)).rounds = depthOf source from rfl, hrun] at h
      cases h
      have hsize := TokenStream.size_ofString hfirst
      have hreturns := returns_directiveBody (takes_nesting (r := .strictly) _) .program none true
        (Nat.le_refl _) { first with strict := strict } hsize
      rw [hrun] at hreturns
      have hend : t.cursor.rest = [] :=
        (hreturns.2.2.2 (TokenStream.endsAtEnd_ofString hfirst strict)).1
        (isEnd_directiveBody hrun :)
      cases strict with
      | true =>
        have hread : Token.Strictly first.cursor t.cursor := hreturns.2.2.1 rfl
        refine ⟨first, [], body.1, first, rfl, rfl, .inl ⟨rfl, rfl, rfl⟩,
          Token.scanFrom_of_strictly hread hend, fun _ =>
            ⟨fun hscan => ?_, fun ⟨found, hfound⟩ => ?_⟩⟩
        · exact Token.readToken_of_scanFrom (Nat.lt_succ_self _) hscan
        · refine Token.scanFrom_of_strictly ((Token.Strictly.of_readToken hfound).trans ?_) hend _
          unfold TokenStream.ofString at hfirst
          rw [TokenStream.readToken_of_strict false hfound] at hfirst
          cases hfirst
          exact hread
      | false =>
        rw [TokenStream.strict_ofString hfirst] at hrun
        have hsloppy : first.strict = false := by rw [← TokenStream.strict_ofString hfirst]
        obtain ⟨-, front, s, rest, hfront, hbody, hread⟩ := strictly_directiveBody
          (takes_nesting _) (Nat.le_refl _) hsize hsloppy hrun hstrict
        exact ⟨first, front, rest, s, rfl, hbody, .inr ⟨rfl, hfront⟩,
          Token.scanFrom_of_strictly hread hend, nofun⟩

/-- A leading zero slips through in the first token. -/
example : (Program.ofString "08" true).toBool = true ∧ (Token.scan true "08").2.isSome = true := by
  decide +kernel

/-- A program with a directive and a name behind it. -/
theorem Program.strictly_read_name : ∃ p, Program.ofString "'use strict'; a" false = .ok p ∧
    p.strict = true ∧ ∃ first front rest s, TokenStream.ofString "'use strict'; a" = .ok first ∧
      p.body = front ++ rest ∧
      (false = true ∧ front = [] ∧ s = first ∨
        false = false ∧ AsksStrict (nesting (depthOf "'use strict'; a")) first front s) ∧
      (∀ count, (Token.scanFrom true count s.cursor).2 = none) ∧
      (false = true → ((Token.scan true "'use strict'; a").2 = none ↔ ∃ found,
        TokenStream.readToken true (Cursor.ofString "'use strict'; a") false = .ok found)) := by
  have hreads : (match Program.ofString "'use strict'; a" false with
      | .ok p => p.strict
      | .error _ => false) = true := by decide +kernel
  cases h : Program.ofString "'use strict'; a" false with
  | error e =>
    rw [h] at hreads
    cases hreads
  | ok p =>
    rw [h] at hreads
    exact ⟨p, rfl, hreads, Program.strictly_read h hreads⟩

end ProtoScript
