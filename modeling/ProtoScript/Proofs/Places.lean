import ProtoScript.Proofs.Places.Statement
import ProtoScript.Proofs.Grammar.Statement
/-!
# The places of initializers and member expressions

Object literals are read before it is known whether they are patterns, and so are the parameters of
arrow functions.  A check where an expression is a whole turns away the literals that only patterns
can be, and a check on the parameters turns away member expressions.  Neither looks inside: behind a
literal that is an operand, and deeper in a parameter, nothing is checked.
-/

namespace ProtoScript

namespace Grammar

theorem placed_rule {n : Nesting} (hn : n.Placed) (g : Goal) (c : Context) :
    Yields (rule n c g) g.Placed := by
  cases g with
  | assignment cover => exact places_assignment hn c cover
  | binary strength => exact places_binary hn c strength
  | power => exact places_power hn c
  | unary => exact places_unary hn c
  | construct => exact places_construct hn c
  | pattern => exact places_bindingPattern hn c
  | element => exact places_bindingElement hn c (places_bindingPattern hn c)
  | statement chain => exact places_statement hn c chain
  | item => exact places_item hn c

theorem placed_nesting (depth : Nat) : (nesting depth).Placed := by
  have hparse : ∀ depth g c, Yields (parse depth g c) g.Placed := by
    intro depth
    induction depth with
    | zero => exact fun g c => .fail
    | succ depth ih =>
      intro g c
      have hn : Nesting.Placed ⟨depth + 1, parse depth⟩ := ih
      exact placed_rule hn g c
  exact hparse depth

end Grammar

namespace Program

open Grammar

theorem law_of_contains {source : String} {strict : Bool} {program : Program} {p : Piece}
    (h : Program.ofString source strict = .ok program) (hp : program.Contains p) : p.Law := by
  unfold Program.ofString at h
  obtain ⟨found, hrun, h⟩ := bind_except_eq_ok h
  cases h
  obtain ⟨s, hs, hwithin⟩ := hp
  have hbody : ∀ s ∈ found.1.1, (Piece.statement s).Placed := Parser.yields_runOn
    (fun depth => .all_directiveBody ((placed_nesting depth).item .program) none true _) hrun
  exact (hbody s hs).within hwithin

/-- In an accepted program an object literal with an initializer that only a pattern can have is
the operand of an operator, a call or a member access: nowhere is it a statement, an initial value,
an argument, an element, the value or the key of a property, a branch or what is assigned. -/
theorem initializers_in_operands {source : String} {strict : Bool} {program : Program}
    (h : Program.ofString source strict = .ok program) {properties : List Property}
    {name : String} {cover : Expr} (hcover : .shorthand name (some cover) ∈ properties) :
    ¬ program.Contains (.whole (.object properties)) := by
  intro hp
  have hlaw : properties.any isCoverProperty = false := law_of_contains h hp
  exact absurd rfl (List.any_eq_false.mp hlaw _ hcover)

/-- Whether a text has been read as one array literal around a member of a literal with an
initializer. -/
def isCoverBase : Except SyntaxError Program → Bool
  | .ok ⟨[.expression (.array [some (.member (.object [.shorthand _ (some _)]) _)])], _⟩ => true
  | _ => false

/-- A literal with an initializer is accepted as the base of a member expression. -/
theorem initializers_in_operands_base : ∃ program name cover,
    Program.ofString "[\x7ba = 1\x7d.b]" false = .ok program ∧
      program.Contains (.operand (.object [.shorthand name (some cover)])) ∧
      ¬ program.Contains (.whole (.object [.shorthand name (some cover)])) := by
  have hread : isCoverBase (Program.ofString "[\x7ba = 1\x7d.b]" false) = true := by
    decide +kernel
  unfold isCoverBase at hread
  split at hread
  · next name cover key strict hprogram =>
    refine ⟨_, name, cover, hprogram, ⟨_, List.mem_singleton_self _, ?_⟩,
      initializers_in_operands hprogram (List.mem_singleton_self _)⟩
    refine .step (List.mem_singleton_self _) (.step (List.mem_singleton_self _) ?_)
    exact .step (List.mem_cons_self ..) (.refl _)
  · cases hread

/-- In an accepted program declarations, handlers and the parameters of functions that are no arrow
functions bind names only, and so do the rests of arrow functions; of the other parameters of an
arrow function none is a member expression itself. -/
theorem bindings_name {source : String} {strict : Bool} {program : Program}
    (h : Program.ofString source strict = .ok program) :
    (∀ d, program.Contains (.declaration d) → ∀ declarator ∈ d.declarators,
      declarator.target.BindsNames) ∧
    (∀ handler, program.Contains (.handler handler) → ∀ p ∈ handler.parameter, p.BindsNames) ∧
    ∀ d, program.Contains (.function d) → ∀ p ∈ d.parameters,
      (d.kind ≠ .arrow → p.BindsNames) ∧ (d.kind = .arrow → p.SuitsArrow) :=
  ⟨fun _ hd => law_of_contains h hd, fun _ hh => law_of_contains h hh,
    fun _ hd => law_of_contains h hd⟩

/-- Whether a text has been read as one arrow function whose parameters are an array with a member
expression in it and a rest. -/
def isMemberArrow : Except SyntaxError Program → Bool
  | .ok ⟨[.expression (.function ⟨_, .arrow, [.array [some (.member _)], .rest _], _, _⟩)], _⟩ =>
    true
  | _ => false

/-- A member expression is accepted inside a parameter of an arrow function. -/
theorem bindings_name_arrow : ∃ program d,
    Program.ofString "([a.b], ...c) => 0" false = .ok program ∧
      program.Contains (.function d) ∧ (∃ p ∈ d.parameters, ¬ p.BindsNames) ∧
      ∀ p ∈ d.parameters, p.SuitsArrow := by
  have hread : isMemberArrow (Program.ofString "([a.b], ...c) => 0" false) = true := by
    decide +kernel
  unfold isMemberArrow at hread
  split at hread
  · next name target rest body ownStrict strict hprogram =>
    have hcontains : Program.Contains ⟨[.expression (.function ⟨name, .arrow,
        [.array [some (.member target)], .rest rest], body, ownStrict⟩)], strict⟩ (.function ⟨name,
        .arrow, [.array [some (.member target)], .rest rest], body, ownStrict⟩) :=
      ⟨_, List.mem_singleton_self _,
        .step (List.mem_singleton_self _) (.step (List.mem_singleton_self _) (.refl _))⟩
    refine ⟨_, _, hprogram, hcontains, ⟨_, List.mem_cons_self .., fun hbinds => ?_⟩, fun p hp => ?_⟩
    · cases hbinds with
      | intro _ parts => cases parts _ (List.mem_singleton_self _) with
        | intro own _ => cases own
    · exact ((bindings_name hprogram).2.2 _ hcontains p hp).2 rfl
  · cases hread

end Program

end ProtoScript
