import ProtoScript.Proofs.Marks.Statement
import ProtoScript.Proofs.Termination
/-!
# Function bodies are read alike wherever they stand

A function body changes all marks where it begins and changes them back where it ends.  So how it is
read depends on the tokens and on strictness only: two bodies at the same place of a text end with
the same statements and the same tokens left, or with the same error, whatever loops, switches,
labels and functions are around them and whether they are in the head of a loop.
-/

namespace ProtoScript

/-! ### What function bodies depend on -/

namespace Grammar

variable {s t : TokenStream} {k l : Nat}

/-- Where fewer tokens are left than the bound says, a function body takes a token and leaves the
mode as it was, or it ends with an error that is not about the bound. -/
theorem goes_functionBody (hs : s.size < k) : Goes .mode 1 (functionBody (nesting k)) s := by
  have htakes : Takes .mode false 1 (k + 1) (functionBody (nesting k)) :=
    takes_functionBody (takes_nesting k)
  exact htakes s nofun (Nat.lt_succ_of_lt hs)

/-- A higher bound changes nothing where fewer tokens are left than the bound says. -/
theorem functionBody_of_le (hs : s.size < k) (h : k ≤ l) :
    functionBody (nesting l) s = functionBody (nesting k) s := by
  have hcovers : Covers false (functionBody (nesting k)) (functionBody (nesting l)) _ :=
    covers_functionBody (covers_nesting h)
  have hmeets := hcovers s s rfl
  have hgoes := goes_functionBody hs
  unfold Goes at hgoes
  cases hr : functionBody (nesting k) s with
  | ok body u =>
    rw [hr] at hmeets
    obtain ⟨body', u', hl, hbody, hstream⟩ := hmeets
    rw [hl, SameBody.eq hbody]
    exact congrArg _ hstream.symm
  | error e u =>
    rw [hr] at hmeets hgoes
    rcases hmeets with h | h | ⟨u', hl, hstream⟩
    · cases h
    · exact absurd h hgoes
    · rw [hl]
      exact congrArg _ hstream.symm

theorem functionBody_of_size (hk : s.size < k) (hl : s.size < l) :
    functionBody (nesting k) s = functionBody (nesting l) s := by
  rcases Nat.le_total k l with h | h
  · exact (functionBody_of_le hk h).symm
  · exact functionBody_of_le hl h

/-- Two streams without a token looked at ahead of time go the same way behind the current token, if
the cursor and the mode are the same. -/
theorem advance_alike (hs : s.ahead = none) (ht : t.ahead = none) (hcursor : s.cursor = t.cursor)
    (hstrict : s.strict = t.strict) :
    (∃ u, Parser.advance s = .ok () u ∧ Parser.advance t = .ok () u) ∨
      ∃ e u v, Parser.advance s = .error e u ∧ Parser.advance t = .error e v := by
  unfold Parser.advance
  rw [hs, ht, hcursor, hstrict]
  dsimp only
  cases TokenStream.readToken t.strict t.cursor false with
  | ok found => exact .inl ⟨_, rfl, rfl⟩
  | error e => exact .inr ⟨_, _, _, rfl, rfl⟩

end Grammar

namespace Marked

open Grammar (functionBody_of_size)

variable {α β : Type}

/-- What is seen of the end of a rule: its result with the tokens that are left, or its error. -/
def outcome {σ : Type} (tokens : σ → TokenStream) :
    EStateM.Result SyntaxError σ α → Except SyntaxError (α × TokenStream)
  | .ok a s => .ok (a, tokens s)
  | .error e _ => .error e

theorem outcome_of_endsAs {R : Marks → Prop} {ended : EStateM.Result SyntaxError State α}
    {ended' : EStateM.Result SyntaxError TokenStream α} (h : EndsAs R ended ended') :
    outcome State.stream ended = outcome id ended' := by
  cases ended' with
  | ok a t =>
    obtain ⟨m, bodies, rfl, -⟩ := h
    rfl
  | error e t =>
    obtain ⟨m, bodies, rfl, -⟩ := h
    rfl

/-- How the function body is read that begins at a place, with its marks. -/
def readBody (bound : Nat) (a : Standing) : EStateM.Result SyntaxError State (List Stmt × Bool) :=
  functionBody (nesting bound) ⟨a.stream, a.marks, []⟩

theorem endsAs_readBody {a : Standing} (ha : a.Clear) (bound : Nat) :
    EndsAs (· = a.marks) (readBody bound a)
      (Grammar.functionBody (Grammar.nesting bound) a.stream) := by
  have hfollows : FollowsAt a.stream a.marks (· = a.marks) (functionBody (nesting bound))
      (Grammar.functionBody (Grammar.nesting bound)) :=
    keeps_functionBody (matches_nesting bound) ha.marks ha.ahead
  exact hfollows [] (List.forall_mem_nil _)

/-- Function bodies of the grammar that begin at the same place are read alike. -/
theorem outcome_functionBody {s t : TokenStream} (n : Grammar.Nesting)
    (hs : s.current = .punctuator .leftBrace) (ht : t.current = .punctuator .leftBrace)
    (hahead : s.ahead = none ∧ t.ahead = none) (hcursor : s.cursor = t.cursor)
    (hstrict : s.strict = t.strict) :
    outcome id (Grammar.functionBody n s) = outcome id (Grammar.functionBody n t) := by
  have hopen {u : TokenStream} (hu : u.current = .punctuator .leftBrace) :
      Parser.expect .leftBrace u = Parser.advance u := by
    unfold Parser.expect
    rw [Grammar.atSign_bind, hu]
    exact congrFun (if_pos rfl) u
  unfold Grammar.functionBody
  simp only [Bind.bind, EStateM.bind, hopen hs, hopen ht]
  rcases Grammar.advance_alike hahead.1 hahead.2 hcursor hstrict with
    ⟨u, hu, hu'⟩ | ⟨e, u, v, hu, hv⟩
  · rw [hu, hu']
  · rw [hu, hv]
    rfl

/-! ### Whole texts -/

/-- On a text a rule with marks ends as a rule of the grammar does that it follows, and function
bodies begin in good order. -/
theorem runOn_follows {rule : Nesting → Reading α} {rule' : Grammar.Nesting → Parser α}
    (h : ∀ N n, N.Matches n → Keeps Marks.program (rule N) (rule' n)) (source : String)
    (strict : Bool) : (runOn rule source strict).1 = Parser.runOn rule' source strict ∧
      AllClear (runOn rule source strict).2 := by
  unfold runOn Parser.runOn
  cases TokenStream.ofString source with
  | error e => exact ⟨rfl, List.forall_mem_nil _⟩
  | ok stream =>
    generalize Grammar.depthOf source = depth
    have hends := h _ _ (matches_nesting depth) { stream with strict := strict } []
      (List.forall_mem_nil _)
    dsimp only
    cases hr : rule' (Grammar.nesting depth) { stream with strict := strict } with
    | ok a t =>
      rw [hr] at hends
      obtain ⟨m, bodies, hread, -, hclear⟩ := hends
      rw [hread]
      exact ⟨rfl, hclear⟩
    | error e t =>
      rw [hr] at hends
      obtain ⟨m, bodies, hread, hclear⟩ := hends
      rw [hread]
      exact ⟨rfl, hclear⟩

/-- The program that a text is, read with marks, and where the function bodies begin that are read
on the way. -/
def readProgram (source : String) (strict : Bool) : Except SyntaxError Program × List Standing :=
  let (ended, bodies) := runOn statements source strict
  (ended.map fun found => ⟨found.1.1, found.2.strict⟩, bodies)

theorem readProgram_follows (source : String) (strict : Bool) :
    (readProgram source strict).1 = Program.ofString source strict ∧
      AllClear (readProgram source strict).2 := by
  have hstatements (N : Nesting) (n : Grammar.Nesting) (hn : N.Matches n) : Keeps Marks.program
      (statements N) (Grammar.directiveBody n .program none true n.rounds) := by
    unfold statements
    rw [hn.rounds]
    exact keeps_directiveBody hn Marks.clear_program none true n.rounds
  obtain ⟨hends, hclear⟩ := runOn_follows hstatements source strict
  refine ⟨?_, hclear⟩
  unfold readProgram Program.ofString
  dsimp only
  rw [hends]
  cases Parser.runOn (fun n => Grammar.directiveBody n .program none true n.rounds) source strict
  · rfl
  · rfl

/-- A function body begins there when some text is read as a program or as an expression. -/
def Reached (a : Standing) : Prop :=
  ∃ source strict, a ∈ (readProgram source strict).2 ∨ a ∈ (runOn expression source strict).2

theorem Reached.clear {a : Standing} (h : Reached a) : a.Clear := by
  obtain ⟨source, strict, hprogram | hexpression⟩ := h
  · exact (readProgram_follows source strict).2 a hprogram
  · exact (runOn_follows (fun N n hn => keeps_expression hn Marks.clear_program) source strict).2 a
      hexpression

/-! ### Function bodies -/

/-- Programs are read with marks as they are read without.  Wherever function bodies begin on the
way, nothing is marked for the next expression or statement only, and two bodies that begin at the
same place of a text in the same mode end alike: with the same statements, the same directives and
the same tokens left, or with the same error, whatever the marks are and as bodies are read without
marks.  Behind a body all marks and the mode are what they were in front of it, and every jump in it
goes to a loop, a switch or a label in the body. -/
theorem bodies_read_alike :
    (∀ source strict, (readProgram source strict).1 = Program.ofString source strict) ∧
    ∀ a b : Standing, Reached a → Reached b → a.stream.current = .punctuator .leftBrace →
      b.stream.current = .punctuator .leftBrace → a.stream.cursor = b.stream.cursor →
      a.stream.strict = b.stream.strict → ∀ k l, a.stream.size < k → b.stream.size < l →
      a.Clear ∧ b.Clear ∧
      outcome State.stream (readBody k a) = outcome State.stream (readBody l b) ∧
      outcome State.stream (readBody k a) =
        outcome id (Grammar.functionBody (Grammar.nesting k) a.stream) ∧
      ∀ body st, readBody k a = .ok body st → st.marks = a.marks ∧
        st.stream.strict = a.stream.strict ∧ ∀ s ∈ body.1, s.Sound .function [] := by
  refine ⟨fun source strict => (readProgram_follows source strict).1, ?_⟩
  intro a b ha hb hopen hopen' hcursor hstrict k l hk hl
  have hsize : a.stream.size = b.stream.size := by
    unfold TokenStream.size
    rw [hcursor, hopen, hopen', ha.clear.ahead, hb.clear.ahead]
  have hends := outcome_of_endsAs (endsAs_readBody ha.clear k)
  have hends' := outcome_of_endsAs (endsAs_readBody hb.clear l)
  have hsame := outcome_functionBody (Grammar.nesting k) hopen hopen'
    ⟨ha.clear.ahead, hb.clear.ahead⟩ hcursor hstrict
  refine ⟨ha.clear, hb.clear, ?_, hends, fun body st hbody => ?_⟩
  · calc outcome State.stream (readBody k a)
        = outcome id (Grammar.functionBody (Grammar.nesting k) a.stream) := hends
      _ = outcome id (Grammar.functionBody (Grammar.nesting k) b.stream) := hsame
      _ = outcome id (Grammar.functionBody (Grammar.nesting l) b.stream) :=
        congrArg _ (functionBody_of_size (hsize ▸ hk) hl)
      _ = outcome State.stream (readBody l b) := hends'.symm
  · have hread := endsAs_readBody ha.clear k
    have hgoes := Grammar.goes_functionBody hk
    unfold Grammar.Goes at hgoes
    rw [hbody] at hread
    cases hr : Grammar.functionBody (Grammar.nesting k) a.stream with
    | error e t =>
      rw [hr] at hread
      obtain ⟨m, bodies, hfalse, -⟩ := hread
      cases hfalse
    | ok body' t =>
      rw [hr] at hread hgoes
      obtain ⟨m, bodies, heq, hm, -⟩ := hread
      cases heq
      exact ⟨hm, hgoes.2, Grammar.yields_functionBody (Grammar.sound_nesting k) _ _ _ hr⟩

/-- Whether two readings have each reached one body, the same bytes under the same strictness, the
first in a loop with a label and the second outside of all loops. -/
def isSameBody : List Standing → List Standing → Bool
  | [⟨⟨.punctuator .leftBrace, afterBreak, ahead, cursor, strict⟩, m⟩],
    [⟨⟨.punctuator .leftBrace, afterBreak', ahead', cursor', strict'⟩, m'⟩] =>
    m.inLoop == 1 && m.labels.length == 1 && m'.inLoop == 0 && m'.labels.isEmpty &&
    cursor == cursor' && strict == strict' &&
    decide (TokenStream.size ⟨.punctuator .leftBrace, afterBreak, ahead, cursor, strict⟩ < 40 ∧
      TokenStream.size ⟨.punctuator .leftBrace, afterBreak', ahead', cursor', strict'⟩ < 40)
  | _, _ => false

/-- The body of a function in a loop with a label, and the same body outside of all loops. -/
theorem bodies_read_alike_loop : ∃ a b, Reached a ∧ Reached b ∧ a.marks.inLoop = 1 ∧
    a.marks.labels.length = 1 ∧ b.marks.inLoop = 0 ∧ b.marks.labels = [] ∧
    a.stream.current = .punctuator .leftBrace ∧ b.stream.current = .punctuator .leftBrace ∧
    a.stream.cursor = b.stream.cursor ∧ a.stream.strict = b.stream.strict ∧
    a.stream.size < 40 ∧ b.stream.size < 40 ∧
    outcome State.stream (readBody 40 a) = outcome State.stream (readBody 40 b) := by
  have hread : isSameBody (readProgram "x: for (;;) (function () \x7b return 1 \x7d)" false).2
      (readProgram "y = 1 + 2 + (function () \x7b return 1 \x7d)" false).2 = true := by
    decide +kernel
  unfold isSameBody at hread
  split at hread
  · next ha hb =>
    simp only [Bool.and_eq_true, beq_iff_eq, decide_eq_true_eq, List.isEmpty_iff] at hread
    obtain ⟨⟨⟨⟨⟨⟨hloop, hlabels⟩, hloop'⟩, hlabels'⟩, hcursor⟩, hstrict⟩, hk, hl⟩ := hread
    have hreached : Reached _ := ⟨_, _, .inl (ha ▸ List.mem_singleton_self _)⟩
    have hreached' : Reached _ := ⟨_, _, .inl (hb ▸ List.mem_singleton_self _)⟩
    have halike := bodies_read_alike.2 _ _ hreached hreached' rfl rfl hcursor hstrict 40 40 hk hl
    exact ⟨_, _, hreached, hreached', hloop, hlabels, hloop', hlabels', rfl, rfl, hcursor, hstrict,
      hk, hl, halike.2.2.1⟩
  · cases hread

end Marked

end ProtoScript
