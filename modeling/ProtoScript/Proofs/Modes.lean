import ProtoScript.Proofs.Modes.Statement
/-!
# Strict functions and their parameters

A function is parsed before it is known whether it is strict: its name and its parameters are read
in the mode of the code around it, and only then its body may ask for strict mode.  Whichever way
it is read, in an accepted program its strictness is what the code around it and its own directives
make it, and its name and its parameters suit it.
-/

namespace ProtoScript

open Grammar

/-- The piece stands in the program, in code that is strict or not. -/
inductive Program.Surrounds (program : Program) : Bool → Piece → Prop
  | statement {s : Stmt} (h : s ∈ program.body) : Surrounds program program.strict (.statement s)
  | part {around : Bool} {p q : Piece} (h : Surrounds program around p) (hq : q ∈ p.parts) :
      Surrounds program (p.modeIn around) q

namespace Program

variable {program : Program} {around : Bool} {p : Piece}

/-- What stands in a piece of the program stands in code that is strict or not. -/
theorem Surrounds.within {q : Piece} (h : program.Surrounds around p) (hq : q.Within p) :
    ∃ inner, program.Surrounds inner q := by
  induction hq generalizing around with
  | refl => exact ⟨around, h⟩
  | step hpart _ ih => exact ih (.part h hpart)

/-- All that stands in the program stands in code that is strict or not. -/
theorem surrounds_of_contains (h : program.Contains p) : ∃ around, program.Surrounds around p := by
  obtain ⟨s, hs, hwithin⟩ := h
  exact Surrounds.within (.statement hs) hwithin

/-- If the statements of a program fit its mode, all that stands in it fits the code around it. -/
theorem Surrounds.fits (hbody : ∀ s ∈ program.body, s.Fits program.strict)
    (h : program.Surrounds around p) : p.Fits around := by
  induction h with
  | statement hs => exact Piece.fits_statement.mpr (hbody _ hs)
  | part _ hq ih => exact ih.part hq

/-- A text is read in strict mode if that is asked for from outside or by its own directives, and
its statements fit the mode. -/
theorem fits_of_ofString {source : String} {strict : Bool}
    (h : Program.ofString source strict = .ok program) :
    program.strict = (strict || asksStrict program.body) ∧
      ∀ s ∈ program.body, s.Fits program.strict := by
  unfold Program.ofString Parser.runOn at h
  obtain ⟨⟨body, t⟩, hrun, h⟩ := bind_except_eq_ok h
  cases h
  split at hrun
  · cases hrun
  next s hs =>
  split at hrun
  · next hbody =>
    cases hrun
    have hfits := (proceeds_directiveBody (keeps_nesting (depthOf source)) .program none true _
      fun _ => True).sound rfl trivial hbody
    obtain ⟨hmode, hown, hfits⟩ := hfits
    rw [Bool.true_and] at hown
    exact ⟨by rw [← hown, ← hmode], hfits⟩
  · cases hrun

/-- Every function in an accepted program, wherever it stands, is strict if and only if the code
around it is strict or its own body asks for it.  A body that asks for it goes with a list of plain
names only; a strict function neither is called nor binds `eval` or `arguments`; and the parameter
names of a strict function, of an arrow function and of a list that is not simple are all
different. -/
theorem functions_suit {source : String} {strict : Bool}
    (h : Program.ofString source strict = .ok program) :
    (∀ d, program.Contains (.function d) → ∃ around, program.Surrounds around (.function d)) ∧
    ∀ around d, program.Surrounds around (.function d) →
      (d.strict = true ↔ around = true ∨ asksStrict d.body = true) ∧
      (asksStrict d.body = true → ∀ p ∈ d.parameters, ∃ name, p = .identifier name) ∧
      (d.strict = true → ∀ name, d.name = some name ∨ name ∈ d.parameterNames →
        name ≠ "eval" ∧ name ≠ "arguments") ∧
      (d.strict = true ∨ d.kind = .arrow ∨ (∃ p ∈ d.parameters, p.isIdentifier = false) →
        d.parameterNames.Nodup) := by
  refine ⟨fun d hd => surrounds_of_contains hd, fun around d hd => ?_⟩
  obtain ⟨hregular, -⟩ := Piece.fits_function.mp (hd.fits (fits_of_ofString h).2)
  refine ⟨?_, fun hasks p hp => ?_, fun hstrict name hname => ?_, fun hcase => ?_⟩
  · rw [hregular.strict, Bool.or_eq_true]
  · have hsimple := List.all_eq_true.mp (hregular.simple hasks) p hp
    cases p with
    | identifier name => exact ⟨name, rfl⟩
    | _ => cases hsimple
  · have hmem : name ∈ d.name.toList ++ d.parameterNames :=
      List.mem_append.mpr (hname.imp_left fun heq => by simp [heq])
    simpa [isRestricted] using hregular.unrestricted hstrict name hmem
  · refine hregular.distinct (hcase.imp_right (.imp (fun harrow => ?_) fun hmixed => ?_))
    · simpa [FunctionDef.isArrow] using harrow
    · simpa [FunctionDef.hasSimpleParameters] using hmixed

/-- Whether a text has been read as one function whose body asks for strict mode in front of a
function without statements. -/
def isAskingFunction : Except SyntaxError Program → Bool
  | .ok ⟨[.function ⟨_, _, _, [.expression (.literal (.string text)), .function ⟨_, _, _, [], _⟩],
    _⟩],
      false⟩ => text == "use strict"
  | _ => false

/-- The body of a function asks for strict mode, and a function inside it does not. -/
theorem functions_suit_inside : ∃ program outer inner,
    Program.ofString "function f(a) \x7b 'use strict'; function g(b) \x7b\x7d \x7d" false =
      .ok program ∧
    program.Surrounds false (.function outer) ∧ program.Surrounds true (.function inner) ∧
    outer.strict = true ∧ inner.strict = true ∧ asksStrict inner.body = false ∧
    (∀ p ∈ outer.parameters, ∃ name, p = .identifier name) ∧ inner.parameterNames.Nodup := by
  have hread : isAskingFunction (Program.ofString
      "function f(a) \x7b 'use strict'; function g(b) \x7b\x7d \x7d" false) = true := by
    decide +kernel
  obtain ⟨program, outer, inner, hprogram, hmode, houter, hasks, hinner, hnone⟩ :
      ∃ program outer inner, Program.ofString
          "function f(a) \x7b 'use strict'; function g(b) \x7b\x7d \x7d" false = .ok program ∧
        program.strict = false ∧ Stmt.function outer ∈ program.body ∧
        asksStrict outer.body = true ∧ Stmt.function inner ∈ outer.body ∧
        asksStrict inner.body = false := by
    unfold isAskingFunction at hread
    split at hread
    · next hprogram =>
      refine ⟨_, _, _, hprogram, rfl, List.mem_singleton_self _, ?_,
        List.mem_cons_of_mem _ (List.mem_singleton_self _), rfl⟩
      simp only [asksStrict, directive?, hread, Bool.true_or]
    · cases hread
  have hsuits := (functions_suit hprogram).2
  have hsurrounds : program.Surrounds program.strict (.function outer) :=
    .part (.statement houter) (List.mem_singleton_self _)
  rw [hmode] at hsurrounds
  have hstrict : outer.strict = true := (hsuits false outer hsurrounds).1.mpr (.inr hasks)
  have hwithin : program.Surrounds outer.strict (.function inner) :=
    .part (.part hsurrounds (List.mem_append_right _ (List.mem_map_of_mem hinner)))
      (List.mem_singleton_self _)
  rw [hstrict] at hwithin
  have hinnerStrict : inner.strict = true := (hsuits true inner hwithin).1.mpr (.inl rfl)
  exact ⟨program, outer, inner, hprogram, hsurrounds, hwithin, hstrict, hinnerStrict, hnone,
    (hsuits false outer hsurrounds).2.1 hasks,
    (hsuits true inner hwithin).2.2.2 (.inl hinnerStrict)⟩

end Program

end ProtoScript
