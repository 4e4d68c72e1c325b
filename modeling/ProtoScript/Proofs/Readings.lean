import ProtoScript.Proofs.Readings.Patterns
import ProtoScript.Proofs.Readings.Programs
import ProtoScript.Proofs.Modes.Statement
import ProtoScript.Proofs.StrictPrograms
import ProtoScript.Proofs.Places
/-!
# Two ways to read parameters

The parameters of an arrow function are read as expressions, those of other functions as patterns.
The same parameters in front of an arrow and in front of a body are read alike, but for the targets
that are member expressions: a pattern with a missing comma is one of those.
-/

namespace ProtoScript

namespace Grammar

variable {n : Nesting} {c : Context} {s t : TokenStream}

theorem parenthesizedElements_of_le {depth depth' rounds rounds' : Nat}
    {found : List Expr × Option Pattern} (hdepth : depth ≤ depth') (hrounds : rounds ≤ rounds')
    (h : parenthesizedElements ⟨rounds, parse depth⟩ c rounds s = .ok found t) :
    parenthesizedElements ⟨rounds', parse depth'⟩ c rounds' s = .ok found t := by
  have hcovers : Covers false (parenthesizedElements ⟨rounds, parse depth⟩ c rounds)
      (parenthesizedElements ⟨rounds', parse depth'⟩ c rounds') _ :=
    covers_parenthesizedElements (covers_parse hdepth hrounds) c hrounds
  obtain ⟨found', h', hsame⟩ := hcovers.ok h
  obtain rfl : found = found' := hsame
  exact h'

/-- The elements in parentheses in front of a bracket are the same whatever stands behind it. -/
theorem parenthesizedElements_abreast {k : Parting} (hk : k.At .rightParen) {depth rounds : Nat}
    {found : List Expr × Option Pattern} {u v : TokenStream} (hst : k.Abreast .rightParen s t)
    (hopen : Parser.advance s = .ok () u)
    (h : parenthesizedElements ⟨rounds, parse depth⟩ c rounds u = .ok found v)
    (hend : v.current.sign? = some .rightParen) :
    ∃ u' v', Parser.advance t = .ok () u' ∧
      parenthesizedElements ⟨rounds, parse depth⟩ c rounds u' = .ok found v' := by
  have hn : Nesting.Keeps ⟨rounds, parse depth⟩ := keeps_nesting depth
  have hsteps : Proceeds (fun _ => True) s.strict (Parser.advance >>= fun _ =>
      parenthesizedElements ⟨rounds, parse depth⟩ c rounds) _ :=
    .advance (keeps_parenthesizedElements hn c rounds _)
  have hs : (Parser.advance >>= fun _ =>
      parenthesizedElements ⟨rounds, parse depth⟩ c rounds) s = .ok found v := by
    rw [bind_of_ok hopen]
    exact h
  rcases hsteps.abreast hk hst rfl trivial hs with ⟨v', ht, -⟩ | hlost
  · obtain ⟨_, u', hopen', h'⟩ := bind_eq_ok ht
    exact ⟨u', v', hopen', h'⟩
  · exact absurd (eq_punctuator hend) hlost.current

end Grammar

namespace Program

open Grammar

def arrowText (parameters : String) : String := "(" ++ parameters ++ ") => 0;"

def functionText (parameters : String) : String :=
  "(function (" ++ parameters ++ ") \x7b return 0; \x7d);"

def parametersEnd (parameters : String) : Parting :=
  ⟨parameters.toList, ')', " => 0;".toList, " \x7b return 0; \x7d);".toList⟩

theorem parametersEnd_at (parameters : String) : (parametersEnd parameters).At .rightParen :=
  ⟨by simp, rfl, by simp [parametersEnd]⟩

theorem toList_arrowText (parameters : String) : (arrowText parameters).toList =
    '(' :: (parameters.toList ++ ')' :: (parametersEnd parameters).behind) := by
  simp [arrowText, parametersEnd]

theorem toList_functionText (parameters : String) : (functionText parameters).toList =
    '(' :: ("function".toList ++ ' ' ::
      '(' :: (parameters.toList ++ ')' :: (parametersEnd parameters).behind')) := by
  simp [functionText, parametersEnd]

/-- In a function expression without a name the parameters begin behind a parenthesis. -/
theorem parameters_of_functionExpression {n : Nesting} {c : Context} {cursor : Cursor}
    {text : List Char} {strict : Bool} {t : TokenStream} {d : FunctionDef}
    (hcursor : cursor.rest = ' ' :: '(' :: text)
    (h : functionExpression n c ⟨.keyword .functionWord, false, none, cursor, strict⟩ = .ok d t) :
    ∃ p u, p.offset ≠ 0 ∧
      parameters n c (.opening .leftParen text p strict) = .ok d.parameters u := by
  obtain ⟨p, hread, hp⟩ :=
    TokenStream.readToken_bracket Punctuator.leftParen_mem_brackets (.inr hcursor) strict
  unfold functionExpression at h
  obtain ⟨_, u, hword, h⟩ := bind_eq_ok h
  obtain ⟨-, rfl⟩ := ok_unique (Parser.advance_of_readToken rfl hread) (advance_of_expectWord hword)
  rw [currentName?_bind] at h
  dsimp only [nameOfToken?] at h
  rw [atSign_bind, if_pos (by simp [Token.sign?])] at h
  obtain ⟨v, _, _, hparameters, -⟩ := functionRest_eq_ok h
  exact ⟨p, v, hp, hparameters⟩

/-- Where a text is accepted as the parameters of an arrow function and as those of a function
expression, the two lists are the same if and only if that of the arrow function binds names only,
and has no member expression as a target. -/
theorem parameters_agree {parameters : String} {strict : Bool} {p q : Program} {f g : FunctionDef}
    {rest rest' : List Stmt}
    (hp : Program.ofString (arrowText parameters) strict = .ok p)
    (hf : p.body = .expression (.function f) :: rest)
    (hq : Program.ofString (functionText parameters) strict = .ok q)
    (hg : q.body = .expression (.function g) :: rest') (hkind : g.kind ≠ .arrow) :
    f.parameters = g.parameters ↔ ∀ target ∈ f.parameters, target.BindsNames := by
  have hnames : ∀ target ∈ g.parameters, target.BindsNames := by
    have hcontains : q.Contains (.function g) := ⟨_, hg ▸ List.mem_cons_self ..,
      .step (List.mem_singleton_self _) (.step (List.mem_singleton_self _) (.refl _))⟩
    exact fun target htarget => (law_of_contains hq hcontains target htarget).1 hkind
  -- the elements in the parentheses of the first text
  obtain ⟨p₁, t₁, -, -, -, hp₁, hparen, -⟩ :=
    opening_of_ofString (toList_arrowText parameters) hp hf
  obtain ⟨xs, last, u₁, v₁, w₁, hopen₁, hlist₁, hclose₁, hbehind⟩ := parenthesized_eq_ok hparen
  rw [← parenthesizedElements_eq] at hlist₁
  -- the parameters in those of the second text
  obtain ⟨depth, cursor, s, -, -, -, -, -, hdepth, hcursor, hfunction, -⟩ :=
    function_of_ofString (toList_functionText parameters) hq hg hkind
  obtain ⟨p₂, u₂, hp₂, hparameters⟩ := parameters_of_functionExpression hcursor hfunction
  obtain ⟨u₂, ⟨ps, last'⟩, v₂, hopen₂, hlist₂, -, hfound⟩ := parameters_eq_ok hparameters
  obtain ⟨u, v, hopen, hlist⟩ := parenthesizedElements_abreast (parametersEnd_at parameters)
    (Parting.abreast_opening _ _ _ hp₁ hp₂ strict) hopen₁ hlist₁ hclose₁.1
  obtain ⟨-, rfl⟩ := ok_unique hopen hopen₂.2
  have hlength : (arrowText parameters).toList.length + 20 =
      (functionText parameters).toList.length := by
    rw [toList_arrowText, toList_functionText]
    simp [parametersEnd]
  have hlist' : parenthesizedElements ⟨(functionText parameters).toList.length, parse depth⟩ _ _ _ =
      .ok (xs, last) v := parenthesizedElements_of_le (by omega) (by omega) hlist
  rw [parenthesizedElements_eq] at hlist'
  have halike : Nesting.ReadsAlike ⟨(functionText parameters).toList.length, parse depth⟩ :=
    readsAlike_parse depth _
  rcases hbehind with ⟨-, rfl, rfl | hsequence⟩ | ⟨list, hlist, harrow⟩
  · exact absurd hlist₂ (parameters_not_function halike hlist')
  · cases hsequence
  obtain ⟨f', hf', -, rfl⟩ := parameters_arrowFunction _ _ _ _ _ _ harrow
  cases hf'
  obtain ⟨qs, hqs, -, hqlist⟩ := toParameters_eq_ok hlist
  refine ⟨fun heq => heq ▸ hnames, fun hnames => ?_⟩
  obtain ⟨rfl, rfl⟩ := parameters_alike halike rfl hlist' hlist₂ hqs fun q hq =>
    hnames q (hqlist ▸ List.mem_append_left _ hq)
  rw [hqlist, hfound]

/-- Whether a text has been read as one arrow function with a member expression in an array as its
parameter. -/
def isMemberInArray : Except SyntaxError Program → Bool
  | .ok ⟨[.expression (.function ⟨_, _, [.array [some (.member _)]], _, _⟩)], _⟩ => true
  | _ => false

/-- Whether a text has been read as one function expression with two targets in an array as its
parameter. -/
def isPairInArray : Except SyntaxError Program → Bool
  | .ok ⟨[.expression (.function ⟨_, .expression, [.array [some _, some _]], _, _⟩)], _⟩ => true
  | _ => false

/-- With a missing comma the parameters of the arrow function are a member expression, and those of
the function expression are two targets. -/
theorem parameters_agree_unless_member : ∃ p q f g,
    Program.ofString (arrowText "[a [b]]") false = .ok p ∧ p.body = [.expression (.function f)] ∧
      Program.ofString (functionText "[a [b]]") false = .ok q ∧
      q.body = [.expression (.function g)] ∧ f.parameters ≠ g.parameters := by
  have harrow : isMemberInArray (Program.ofString (arrowText "[a [b]]") false) = true := by
    decide +kernel
  have hfunction : isPairInArray (Program.ofString (functionText "[a [b]]") false) = true := by
    decide +kernel
  unfold isMemberInArray at harrow
  unfold isPairInArray at hfunction
  split at harrow
  · next name kind target body strict hp =>
    split at hfunction
    · next hq =>
      refine ⟨_, _, _, _, hp, rfl, hq, rfl, fun heq => ?_⟩
      have hbinds := (parameters_agree hp rfl hq rfl nofun).mp heq _ (List.mem_singleton_self _)
      exact Pattern.BindsNames.not_member (hbinds.element (List.mem_singleton_self _))
    · cases hfunction
  · cases harrow

end Program

end ProtoScript
