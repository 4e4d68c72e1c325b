import ProtoScript.Proofs.Conduct.Rules
/-!
# Every declaration finds its names

In programs that the grammar accepts, the names that a declaration binds are there before it is
executed.  What `let`, `const`, parameters and handlers bind is bound by the very scope in which it
is given its first value, so no such name comes in as a variable by mistake; what `var` declares is
found from where it is assigned to, so no global variable is made for it and it is never undefined.
-/

namespace ProtoScript

theorem Store.assign_of_error {s : Store} {id : ScopeId} {name : String} {value : Value}
    {error : BindingError} (h : (s.assign id name value).1 = .error error) :
    s.assign id name value = (.error error, s) := by
  unfold assign at h ⊢
  split
  · rename_i hfound
    rw [hfound] at h
    cases h
    rfl
  · rename_i holder binding hfound
    rw [hfound] at h
    dsimp only at h ⊢
    split
    · rename_i e hwrite
      rw [hwrite] at h
      cases h
      rfl
    · rename_i written hwrite
      rw [hwrite] at h
      cases h

theorem Eval.assignName_eq (m : Machine) (name : String) (value : Value) (scope : ScopeId) :
    Eval.assignName name value scope m =
      (match (m.store.assign scope name value).1 with
      | .ok () => pure ()
      | .error .unresolved =>
        if m.store.isStrict scope then fault (.notDefined name)
        else update fun s => s.bind .global name value
      | .error .readOnly => if m.store.isStrict scope then fault (.readOnlyName name) else pure ()
      | .error .constant | .error .selfName => fault (.constantName name)
      | .error .uninitialized => fault (.uninitialized name) : Eval Unit)
        { m with store := (m.store.assign scope name value).2 } := rfl

/-- Assigning to the name writes to a binding that is there, or is refused because of the binding
that is there. -/
structure Machine.Assigns (m : Machine) (scope : ScopeId) (name : String) (value : Value) :
    Prop where
  resolved : (m.store.assign scope name value).1 ≠ .error .unresolved
  ended :
    (∃ s, Eval.assignName name value scope m = .ok () { m with store := s } ∧
      ∀ id key, s.hasOwnBinding id key = m.store.hasOwnBinding id key) ∨
    ∃ f, (∀ key, f ≠ .notDefined key) ∧ Eval.assignName name value scope m = Eval.fault f m

theorem Machine.assigns_of_resolves {m : Machine} {scope : ScopeId} {name : String}
    (h : m.store.Resolves scope name) (value : Value) : m.Assigns scope name value := by
  refine ⟨h.assign_ne_unresolved value, ?_⟩
  rw [Eval.assignName_eq]
  cases houtcome : (m.store.assign scope name value).1 with
  | ok _ => exact .inl ⟨_, rfl, m.store.hasOwnBinding_assign scope name value⟩
  | error e =>
    have hstore := congrArg Prod.snd (Store.assign_of_error houtcome)
    rw [hstore]
    cases e with
    | unresolved => exact absurd houtcome (h.assign_ne_unresolved value)
    | uninitialized => exact .inr ⟨.uninitialized name, nofun, rfl⟩
    | constant => exact .inr ⟨.constantName name, nofun, rfl⟩
    | selfName => exact .inr ⟨.constantName name, nofun, rfl⟩
    | readOnly =>
      by_cases hstrict : m.store.isStrict scope = true
      · simp only [hstrict, if_true]
        exact .inr ⟨.readOnlyName name, nofun, rfl⟩
      · simp only [hstrict]
        exact .inl ⟨m.store, rfl, fun _ _ => rfl⟩

namespace Declarations

/-- The note says whether names that are bound are being declared.  A statement finds what it
declares itself; a name that is given its first value is bound by the scope at hand, and one that is
declared with `var` can be assigned to. -/
def observer : Supervisor Bool where
  inside declaring task _ := task.declares declaring
  admits declaring task m :=
    match task with
    | .execute s scope _ => m.store.Declares scope s
    | .bind p _ scope fresh =>
      ∀ name ∈ p.boundNames,
        if fresh then m.store.hasOwnBinding scope name = true
        else declaring = true → ∀ value, m.Assigns scope name value
    | _ => True
  accepts _ _ _ _ _ := True

variable {host : Host} {m : Machine}

/-- Whatever the embedding program asks for on a machine that sessions lead to, all declarations on
the way find the names that they bind. -/
theorem every_declaration_prepared (hhost : host.Embeds Program.Accepted fun _ => True)
    (hm : Machine.Reachable host Program.Accepted m) (task : Task)
    (htask : (Setting.embedding Program.Accepted fun _ => True).asks task) (bound : Nat) :
    observer.run host bound true task m = runTask host bound task m := by
  have hsound := Conduct.sound_of_reachable (fun _ => trivial) hhost hm
  have hgoverns := Conduct.governs (fun _ => trivial) hhost
  refine hgoverns.run_eq observer Conduct.Note.declaring (fun _ _ _ _ => rfl) ?_
    (fun _ _ _ _ _ _ _ => trivial) bound _ task m (Conduct.admits_of_asks hsound htask)
  rintro note task m ⟨_, _, htask⟩
  cases task with
  | execute s scope labels => exact htask.2.2
  | bind p value scope fresh =>
    intro name hname
    have hprepared := htask.2.2 name hname
    cases fresh with
    | true => exact hprepared
    | false =>
      intro hdeclaring value
      exact Machine.assigns_of_resolves (hprepared hdeclaring) value
  | _ => trivial

theorem every_declaration_prepared_calling_back :
    observer.run .callBack 9 true
        (.indirectEval (.string (.ofString "for (let a = 1; a; a = 0) var b = a"))) (.initial {}) =
      runTask .callBack 9
        (.indirectEval (.string (.ofString "for (let a = 1; a; a = 0) var b = a")))
        (.initial {}) :=
  every_declaration_prepared (Host.callBack_embeds _ _) (.initial {})
    (.indirectEval (.string (.ofString "for (let a = 1; a; a = 0) var b = a"))) trivial 9

end Declarations

end ProtoScript
