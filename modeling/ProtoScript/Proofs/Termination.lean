import ProtoScript.Proofs.StrictPrograms
import ProtoScript.Proofs.Progress.Statement
/-!
# Reading a text ends

The grammar rules are bounded so that they are total functions.  The bound is never felt: a text has
fewer tokens than the bound says, every rule that succeeds has taken a token, and every round of a
loop takes one or ends the loop.  So a text is a program or has a syntax error, and any higher bound
gives the same answer.
-/

namespace ProtoScript

open Grammar

section Bounded

variable {α : Type} {source : String} {strict : Bool} {bound : Nat}

/-- Runs a rule on a text where rules may be nested as deep as a bound, and loops may take as many
rounds. -/
def Parser.runWithin (bound : Nat) (rule : Nesting → Parser α) (source : String) (strict : Bool) :
    Except SyntaxError (α × TokenStream) :=
  match TokenStream.ofString source with
  | .error e => .error e
  | .ok stream =>
    match rule (nesting bound) { stream with strict := strict } with
    | .ok value stream => .ok (value, stream)
    | .error e _ => .error e

def Program.ofStringWithin (bound : Nat) (source : String) (strict : Bool) :
    Except SyntaxError Program := do
  let (body, stream) ← Parser.runWithin bound
    (fun n => directiveBody n .program none true n.rounds) source strict
  return ⟨body.1, stream.strict⟩

/-- A rule does not run into the bound of a text if it does not where fewer tokens are left than the
bound. -/
theorem Parser.runOn_ne_outOfFuel {rule : Nesting → Parser α}
    (hrule : ∀ s e t, s.size < depthOf source → rule (nesting (depthOf source)) s = .error e t →
      e ≠ .outOfFuel) {e : SyntaxError} (h : Parser.runOn rule source strict = .error e) :
    e ≠ .outOfFuel := by
  unfold Parser.runOn at h
  split at h
  · next e' hstream =>
    cases h
    unfold TokenStream.ofString at hstream
    split at hstream
    · cases hstream
    · cases hstream
      exact nofun
  · next s hstream =>
    have hsize := TokenStream.size_ofString hstream
    split at h
    · cases h
    · next hrun =>
      cases h
      exact hrule { s with strict := strict } _ _ hsize hrun

theorem Parser.runWithin_eq_runOn {rule : Nesting → Parser α}
    (hcovers : ∀ n m, n.Covers false m → Covers false (rule n) (rule m) Eq)
    (hrule : ∀ s e t, s.size < depthOf source → rule (nesting (depthOf source)) s = .error e t →
      e ≠ .outOfFuel) (hbound : depthOf source ≤ bound) :
    Parser.runWithin bound rule source strict = Parser.runOn rule source strict := by
  unfold Parser.runWithin Parser.runOn
  cases hstream : TokenStream.ofString source with
  | error e => rfl
  | ok s =>
  dsimp only
  have hsize := TokenStream.size_ofString hstream
  have h := hcovers _ _ (covers_nesting hbound) { s with strict := strict }
    { s with strict := strict } rfl
  cases hrun : rule (nesting (depthOf source)) { s with strict := strict } with
  | ok a t =>
    rw [hrun] at h
    obtain ⟨b, u, hu, rfl, rfl⟩ := h
    rw [hu]
  | error e t =>
    rw [hrun] at h
    rcases h with h | h | ⟨u, hu, -⟩
    · cases h
    · exact absurd h (hrule { s with strict := strict } _ _ hsize hrun)
    · rw [hu]

end Bounded

theorem SameBody.eq {a b : List Stmt × Bool} (h : SameBody false a b) : a = b :=
  Prod.ext h.1 h.2

theorem directiveBody_ne_outOfFuel {depth : Nat} {s t : TokenStream} {e : SyntaxError}
    (hs : s.size < depth)
    (h : directiveBody (nesting depth) .program none true depth s = .error e t) :
    e ≠ .outOfFuel := by
  have hreturns := returns_directiveBody (takes_nesting (r := .mode) depth) .program none true
    (Nat.le_refl depth) s hs
  rw [h] at hreturns
  exact hreturns

/-- Every text is a program or has a syntax error that is not about the bound, in either mode, and
it stays the same under any higher bound.  The rules take a token each: where fewer tokens are left
than the bound says, a rule leaves fewer tokens than it found, or ends with a syntax error that is
not about the bound. -/
theorem Program.ofString_terminates (source : String) (strict : Bool) (bound : Nat)
    (hbound : depthOf source ≤ bound) :
    ((∃ p, Program.ofString source strict = .ok p) ∨
      ∃ e, Program.ofString source strict = .error e ∧ e ≠ .outOfFuel) ∧
    Program.ofStringWithin bound source strict = Program.ofString source strict ∧
    ∀ (g : Goal) (c : Context) (s : TokenStream), s.size < bound →
      (g.isAnnounced = true → s.current.isEnd = false) →
      match parse bound g c s with
      | .ok _ t => t.size < s.size
      | .error e _ => e ≠ .outOfFuel := by
  refine ⟨?_, ?_, fun g c s hs hannounced => ?_⟩
  · cases h : Program.ofString source strict with
    | ok p => exact .inl ⟨p, rfl⟩
    | error e =>
      refine .inr ⟨e, rfl, ?_⟩
      unfold Program.ofString at h
      cases hrun : Parser.runOn
          (fun n => directiveBody n .program none true n.rounds) source strict with
      | ok found =>
        rw [hrun] at h
        cases h
      | error e' =>
        rw [hrun] at h
        cases h
        exact Parser.runOn_ne_outOfFuel (fun s e t hs h => directiveBody_ne_outOfFuel hs h) hrun
  · unfold Program.ofStringWithin Program.ofString
    rw [Parser.runWithin_eq_runOn (fun n m h => ?_)
      (fun s e t hs h => directiveBody_ne_outOfFuel hs h) hbound]
    exact fun s t hst => (covers_directiveBody h .program none true h.rounds s t hst).weaken
      fun _ _ => SameBody.eq
  · have htakes := takes_parse (r := .mode) bound g c
    have hgoes : Goes .mode 1 (parse bound g c) s := by
      cases hg : g.isAnnounced with
      | true => exact htakes.1 s (fun _ => hannounced hg) hs
      | false => exact htakes.2 hg s nofun hs
    unfold Goes at hgoes
    split
    · next heq =>
      rw [heq] at hgoes
      exact hgoes.1
    · next heq =>
      rw [heq] at hgoes
      exact hgoes

/-- A text that breaks off, within its bound and within a higher one. -/
theorem Program.ofString_terminates_call :
    depthOf "f(" ≤ 9 ∧
    ((∃ p, Program.ofString "f(" false = .ok p) ∨
      ∃ e, Program.ofString "f(" false = .error e ∧ e ≠ .outOfFuel) ∧
    Program.ofStringWithin 9 "f(" false = Program.ofString "f(" false ∧
    ∀ (g : Goal) (c : Context) (s : TokenStream), s.size < 9 →
      (g.isAnnounced = true → s.current.isEnd = false) →
      match parse 9 g c s with
      | .ok _ t => t.size < s.size
      | .error e _ => e ≠ .outOfFuel :=
  ⟨by decide, Program.ofString_terminates "f(" false 9 (by decide)⟩

end ProtoScript
