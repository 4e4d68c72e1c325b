import ProtoScript.Proofs.Cover.Statement
import ProtoScript.Grammar.Program
/-!
# Strict mode takes programs away

A text that is a program in strict mode is a program in sloppy mode as well, and but for the marks
of strict mode it is the same one.
-/

namespace ProtoScript

/-!
### Programs in two readings

The rules of a depth are covered by those of any greater depth, and in strict mode they are covered
by those of sloppy mode.
-/

namespace Grammar

variable {lax : Bool}

theorem covers_rule {n m : Nesting} (h : n.Covers lax m) {rounds rounds' : Nat}
    (hrounds : rounds ≤ rounds') : Nesting.Covers lax ⟨rounds, fun g c => rule n c g⟩
      ⟨rounds', fun g c => rule m c g⟩ where
  rounds := hrounds
  assignment cover c := covers_assignment h c cover
  binary strength c := covers_binary h c strength
  power c := covers_power h c
  unary c := covers_unary h c
  construct c := covers_construct h c
  pattern c := covers_bindingPattern h c
  element c := covers_bindingElement h c (covers_bindingPattern h c)
  statement chain c := covers_statement h c chain
  item c := covers_item h c

theorem covers_parse {depth depth' : Nat} (h : depth ≤ depth') {rounds rounds' : Nat}
    (hrounds : rounds ≤ rounds') :
    Nesting.Covers lax ⟨rounds, parse depth⟩ ⟨rounds', parse depth'⟩ := by
  induction depth generalizing depth' rounds rounds' with
  | zero => exact ⟨hrounds, fun _ _ => .exhausted, fun _ _ => .exhausted, fun _ => .exhausted,
      fun _ => .exhausted, fun _ => .exhausted, fun _ => .exhausted, fun _ => .exhausted,
      fun _ _ => .exhausted, fun _ => .exhausted⟩
  | succ depth ih =>
    cases depth' with
    | zero => cases h
    | succ depth' => exact covers_rule (ih (Nat.le_of_succ_le_succ h) h) hrounds

theorem covers_nesting {depth depth' : Nat} (h : depth ≤ depth') :
    (nesting depth).Covers lax (nesting depth') :=
  covers_parse h h

end Grammar

/-! ### Strict programs -/

open Grammar

/-- Where a rule succeeds on a text in strict mode, it succeeds in sloppy mode with a result that
corresponds. -/
theorem Parser.runOn_of_strict {α : Type} {rule : Nesting → Parser α} {V : α → α → Prop}
    (hcovers : ∀ n m, n.Covers true m → Covers true (rule n) (rule m) V) {source : String} {a : α}
    {s : TokenStream} (h : Parser.runOn rule source true = .ok (a, s)) :
    ∃ b t, Parser.runOn rule source false = .ok (b, t) ∧ V a b := by
  unfold Parser.runOn at h ⊢
  cases hstream : TokenStream.ofString source with
  | error e =>
    rw [hstream] at h
    cases h
  | ok stream =>
    rw [hstream] at h
    dsimp only at h ⊢
    have hpaired : Paired true { stream with strict := true } { stream with strict := false } :=
      ⟨rfl, rfl, rfl, .inl ⟨rfl, rfl⟩⟩
    have hmeets := hcovers _ _ (covers_nesting (Nat.le_refl (depthOf source))) _ _ hpaired
    cases hrun : rule (nesting (depthOf source)) { stream with strict := true } with
    | error e t =>
      rw [hrun] at h
      cases h
    | ok a' s' =>
      rw [hrun] at h hmeets
      cases h
      obtain ⟨b, t, hsloppy, hab, -⟩ := hmeets
      rw [hsloppy]
      exact ⟨b, t, rfl, hab⟩

/-- Strict mode only takes programs away: a program of strict code is a program of sloppy code,
equal to it without the marks of strict mode. -/
theorem Program.ofString_of_strict {source : String} {p : Program}
    (h : Program.ofString source true = .ok p) :
    ∃ q, Program.ofString source false = .ok q ∧ q.erase = p.erase := by
  unfold Program.ofString at h ⊢
  cases hrun : Parser.runOn
      (fun n => directiveBody n .program none true n.rounds) source true with
  | error e =>
    rw [hrun] at h
    cases h
  | ok found =>
    obtain ⟨body, s⟩ := found
    rw [hrun] at h
    cases h
    obtain ⟨body', t, hsloppy, hbody⟩ := Parser.runOn_of_strict
      (fun n m h => covers_directiveBody h .program none true h.rounds) hrun
    rw [hsloppy]
    refine ⟨_, rfl, ?_⟩
    have hbody : Stmt.eraseAll body.1 = Stmt.eraseAll body'.1 := hbody.1
    simp only [Program.erase, hbody]

/-- An arrow function, which is marked as strict in strict code alone. -/
theorem Program.ofString_of_strict_arrow : ∃ p q, Program.ofString "a => a" true = .ok p ∧
    Program.ofString "a => a" false = .ok q ∧ q.erase = p.erase := by
  have hreads : (Program.ofString "a => a" true).toBool = true := by decide +kernel
  cases h : Program.ofString "a => a" true with
  | error e =>
    rw [h] at hreads
    cases hreads
  | ok p =>
    obtain ⟨q, hq, heq⟩ := Program.ofString_of_strict h
    exact ⟨p, q, rfl, hq, heq⟩

end ProtoScript
