import ProtoScript.Proofs.Formula.Operators
import ProtoScript.Proofs.Termination
/-!
# A formula is read as it is written
-/

namespace ProtoScript

open Grammar

namespace Expr

variable {x : Expr} {xs : List Expr} {level : Nat}

/-! ### Reading -/

theorem Formula.readable (h : x.Formula) : Readable x := by
  induction h with
  | identifier hname => exact (Legible.identifier hname).readable rfl rfl (by decide)
  | null => exact Legible.null.readable rfl rfl (by decide)
  | boolean value => exact (Legible.boolean value).readable rfl rfl (by decide)
  | string value => exact (Legible.string value).readable rfl rfl (by decide)
  | this => exact Legible.this.readable rfl rfl (by decide)
  | unary op _ ih =>
    have hop : frontOperator? (.punctuator op.sign) = some (.convert op) := by cases op <;> rfl
    exact (Legible.front hop (ih 14 (by decide)) nofun).readable rfl rfl (by decide)
  | typeOf _ ih =>
    have hop : frontOperator? (.keyword .typeofWord) = some .typeOf := rfl
    exact (Legible.front hop (ih 14 (by decide)) nofun).readable rfl rfl (by decide)
  | void _ ih =>
    have hop : frontOperator? (.keyword .voidWord) = some .void := rfl
    exact (Legible.front hop (ih 14 (by decide)) nofun).readable rfl rfl (by decide)
  | delete _ ih =>
    have hop : frontOperator? (.keyword .deleteWord) = some .delete := rfl
    exact (Legible.front hop (ih 14 (by decide)) nofun).readable rfl rfl (by decide)
  | update op inFront _ href ih =>
    cases inFront with
    | true =>
      have hop : frontOperator? (.punctuator op.sign) = some (.update op) := by cases op <;> rfl
      exact (Legible.front hop (ih 14 (by decide)) fun _ _ => href).readable rfl rfl (by decide)
    | false => exact ((ih 16 (by decide)).updateBehind op href).readable rfl rfl (by decide)
  | assign op hop _ href _ ihTarget ihValue =>
    exact (Legible.assignOp hop (ihTarget 16 (by decide)) href (ihValue 1 (by decide))).readable
      rfl rfl (by decide)
  | binary op _ _ ihLeft ihRight =>
    by_cases hop : op = .exp
    · subst hop
      exact ((ihLeft 15 (by decide)).exponent (ihRight 13 (by decide))).readable rfl rfl (by decide)
    · obtain ⟨h5, h12⟩ := level_bounds hop
      refine (Legible.binaryOp hop (ihLeft op.level (by omega))
        (ihRight (op.level + 1) (by omega))).readable ?_ rfl (by omega)
      rw [Expr.bare, BinaryOp.leftLevel, BinaryOp.rightLevel, if_neg hop, if_neg hop]
      rfl
  | logical op _ _ ihLeft ihRight =>
    have hlevel : 2 ≤ op.level ∧ op.level ≤ 4 := by cases op <;> decide
    exact (Legible.logicalOp op (ihLeft op.level (by omega))
      (ihRight (op.level + 1) (by omega))).readable rfl rfl (by omega)
  | conditional _ _ _ ihTest ihConsequent ihAlternate =>
    exact (Legible.conditionalOp (ihTest 2 (by decide)) (ihConsequent 1 (by decide))
      (ihAlternate 1 (by decide))).readable rfl rfl (by decide)
  | dot _ hname ih => exact ((ih 16 (by decide)).dot hname).readable rfl rfl (by decide)
  | computed _ _ ih ihKey =>
    exact ((ih 16 (by decide)).computed (ihKey 0 (by decide))).readable rfl rfl (by decide)
  | call _ _ ih ihArguments =>
    exact ((ih 16 (by decide)).callOp fun y hy => ihArguments y hy 1 (by decide)).readable rfl rfl
      (by decide)
  | @sequence expressions hlength _ ih =>
    match expressions, hlength, ih with
    | x :: y :: xs, _, ih =>
      apply readable_sequence ih
      exact (ih x List.mem_cons_self 1 (by decide)).sequenceOp fun z hz =>
        ih z (List.mem_cons_of_mem _ hz) 1 (by decide)

/-! ### Writing -/

theorem exists_spelled_enclosed (x : Expr) (level : Nat) {ts : List Token}
    (h : ∀ t ∈ ts, ∃ written, t.Spelled written) :
    ∀ t ∈ x.enclosed level ts, ∃ written, t.Spelled written := by
  unfold enclosed
  split
  · simp only [List.forall_mem_cons, List.forall_mem_append]
    exact ⟨⟨_, .sign _⟩, h, ⟨_, .sign _⟩, nofun⟩
  · exact h

theorem exists_spelled_listedBehind
    (h : ∀ x ∈ xs, ∀ t ∈ x.bare, ∃ written, t.Spelled written) :
    ∀ t ∈ listedBehind xs, ∃ written, t.Spelled written := by
  induction xs with
  | nil => exact nofun
  | cons x xs ih =>
    rw [List.forall_mem_cons] at h
    rw [listedBehind, List.forall_mem_cons, List.forall_mem_append]
    exact ⟨⟨_, .sign _⟩, exists_spelled_enclosed x 1 h.1, ih h.2⟩

theorem exists_spelled_listed (h : ∀ x ∈ xs, ∀ t ∈ x.bare, ∃ written, t.Spelled written) :
    ∀ t ∈ listed xs, ∃ written, t.Spelled written := by
  cases xs with
  | nil => exact nofun
  | cons x xs =>
    rw [List.forall_mem_cons] at h
    rw [listed, List.forall_mem_append]
    exact ⟨exists_spelled_enclosed x 1 h.1, exists_spelled_listedBehind h.2⟩

theorem Formula.exists_spelled (h : x.Formula) :
    ∀ t ∈ x.bare, ∃ written, t.Spelled written := by
  induction h with
  | identifier hname => simpa [bare] using ⟨_, .identifier hname⟩
  | null => simpa [bare, Literal.token] using ⟨_, .null⟩
  | boolean value => simpa [bare, Literal.token] using ⟨_, .boolean value⟩
  | string value => simpa [bare, Literal.token] using Token.exists_spelled_string value
  | this => simpa [bare] using ⟨_, .keyword _⟩
  | unary op _ ih =>
    rw [bare, List.forall_mem_cons]
    exact ⟨⟨_, .sign _⟩, exists_spelled_enclosed _ _ ih⟩
  | typeOf _ ih =>
    rw [bare, List.forall_mem_cons]
    exact ⟨⟨_, .keyword _⟩, exists_spelled_enclosed _ _ ih⟩
  | void _ ih =>
    rw [bare, List.forall_mem_cons]
    exact ⟨⟨_, .keyword _⟩, exists_spelled_enclosed _ _ ih⟩
  | delete _ ih =>
    rw [bare, List.forall_mem_cons]
    exact ⟨⟨_, .keyword _⟩, exists_spelled_enclosed _ _ ih⟩
  | update op inFront _ _ ih =>
    cases inFront with
    | true =>
      rw [bare, List.forall_mem_cons]
      exact ⟨⟨_, .sign _⟩, exists_spelled_enclosed _ _ ih⟩
    | false =>
      rw [bare, List.forall_mem_append, List.forall_mem_singleton]
      exact ⟨exists_spelled_enclosed _ _ ih, ⟨_, .sign _⟩⟩
  | assign op _ _ _ _ ihTarget ihValue =>
    rw [bare, List.forall_mem_append, List.forall_mem_cons]
    exact ⟨exists_spelled_enclosed _ _ ihTarget, ⟨_, .sign _⟩, exists_spelled_enclosed _ _ ihValue⟩
  | binary op _ _ ihLeft ihRight =>
    have hop : ∃ written, op.token.Spelled written := by
      cases op with
      | hasKey => exact ⟨_, .keyword .inWord⟩
      | instanceOf => exact ⟨_, .keyword .instanceofWord⟩
      | _ => exact ⟨_, .sign _⟩
    rw [bare, List.forall_mem_append, List.forall_mem_cons]
    exact ⟨exists_spelled_enclosed _ _ ihLeft, hop, exists_spelled_enclosed _ _ ihRight⟩
  | logical op _ _ ihLeft ihRight =>
    rw [bare, List.forall_mem_append, List.forall_mem_cons]
    exact ⟨exists_spelled_enclosed _ _ ihLeft, ⟨_, .sign _⟩, exists_spelled_enclosed _ _ ihRight⟩
  | conditional _ _ _ ihTest ihConsequent ihAlternate =>
    rw [bare, List.forall_mem_append, List.forall_mem_cons, List.forall_mem_append,
      List.forall_mem_cons]
    exact ⟨exists_spelled_enclosed _ _ ihTest, ⟨_, .sign _⟩,
      exists_spelled_enclosed _ _ ihConsequent, ⟨_, .sign _⟩,
      exists_spelled_enclosed _ _ ihAlternate⟩
  | dot _ hname ih =>
    rw [bare, MemberKey.tokens, List.forall_mem_append, List.forall_mem_cons,
      List.forall_mem_singleton]
    exact ⟨exists_spelled_enclosed _ _ ih, ⟨_, .sign _⟩, _, Token.spelled_ofWord hname⟩
  | computed _ _ ih ihKey =>
    rw [bare, MemberKey.tokens, List.forall_mem_append, List.forall_mem_cons,
      List.forall_mem_append, List.forall_mem_singleton]
    exact ⟨exists_spelled_enclosed _ _ ih, ⟨_, .sign _⟩, exists_spelled_enclosed _ _ ihKey,
      ⟨_, .sign _⟩⟩
  | call _ _ ih ihArguments =>
    rw [bare, List.forall_mem_append, List.forall_mem_cons, List.forall_mem_append,
      List.forall_mem_singleton]
    exact ⟨exists_spelled_enclosed _ _ ih, ⟨_, .sign _⟩, exists_spelled_listed ihArguments,
      ⟨_, .sign _⟩⟩
  | sequence _ _ ih =>
    rw [bare]
    exact exists_spelled_listed ih

theorem Formula.exists_spells (h : x.Formula) :
    ∃ source : String, Token.Spells (x.tokens 0) source.toList := by
  obtain ⟨written, hwritten⟩ := Token.exists_spells (exists_spelled_enclosed x 0 h.exists_spelled)
  refine ⟨String.ofList written, ?_⟩
  rw [String.toList_ofList]
  exact hwritten

/-! ### The round trip -/

/-- A formula can be written, with parentheses exactly around the operands whose level is too low
for their place, and every text that spells its tokens is read as the formula, to its end. -/
theorem ofString_formula {x : Expr} (hx : x.Formula) :
    (∃ source : String, Token.Spells (x.tokens 0) source.toList) ∧
    ∀ source : String, Token.Spells (x.tokens 0) source.toList →
      Expr.ofString source false = .ok x ∧
      ∃ stream, Parser.runOn (fun n => expression n .program) source false = .ok (x, stream) ∧
        stream.current = .endOfInput := by
  refine ⟨hx.exists_spells, fun source hsource => ?_⟩
  suffices hrun : ∃ stream,
      Parser.runOn (fun n => expression n .program) source false = .ok (x, stream) ∧
        stream.current = .endOfInput by
    refine ⟨?_, hrun⟩
    obtain ⟨stream, hrun, -⟩ := hrun
    unfold Expr.ofString
    rw [hrun]
    rfl
  have hreads : Reads (expression (nesting (depthOf source)) .program) (x.tokens 0) x [] := by
    have h := (hx.readable 0 (Nat.zero_le 17)).readsAt (nesting (depthOf source)) .program
      ⟨depthOf source, rfl⟩ rfl _ (.inl rfl) [] .nil
    rwa [List.append_nil] at h
  obtain ⟨s, hs, hshows⟩ := TokenStream.shows_ofString hsource
  have hsloppy : { s with strict := false } = s := by
    rw [← hshows.strict]
  have hresult := hreads s hshows
  unfold Parser.runOn
  rw [hs]
  dsimp only
  rw [hsloppy]
  cases hr : expression (nesting (depthOf source)) .program s with
  | ok y stream =>
    rw [hr] at hresult
    obtain ⟨rfl, hend⟩ := hresult
    exact ⟨stream, rfl, hend.current⟩
  | error e t =>
    rw [hr] at hresult
    have htakes : Takes .mode false 1 (depthOf source + 1)
        (expression (nesting (depthOf source)) .program) :=
      takes_expression (takes_nesting (depthOf source)) .program
    have hgoes := htakes s nofun (Nat.lt_succ_of_lt (TokenStream.size_ofString hs))
    unfold Goes at hgoes
    rw [hr] at hgoes
    exact absurd hresult hgoes

theorem isFreeName_letter {name : String} (h : name ∈ ["a", "b", "c", "f", "o"]) :
    Token.IsFreeName name := by
  simp only [List.mem_cons, List.not_mem_nil, or_false] at h
  refine ⟨?_, ?_, ?_, ?_⟩
  · rcases h with rfl | rfl | rfl | rfl | rfl <;> decide
  · intro word
    rcases h with rfl | rfl | rfl | rfl | rfl <;> cases word <;> decide
  · rcases h with rfl | rfl | rfl | rfl | rfl <;> decide
  · rcases h with rfl | rfl | rfl | rfl | rfl <;> decide

/-- Powers to the right, with a base that needs parentheses, behind a member named by a keyword. -/
theorem ofString_formula_powers :
    Expr.ofString "o . in = ( - a ) ** b ** c ?? f ( 'a' , this )" false =
      .ok (.assign none (.member (.identifier "o") (.dot "in"))
        (.logical .coalesce
          (.binary .exp (.unary .minus (.identifier "a"))
            (.binary .exp (.identifier "b") (.identifier "c")))
          (.call (.identifier "f") [.literal (.string "a"), .this]))) := by
  have hname (name : String) (h : name ∈ ["a", "b", "c", "f", "o"]) :
      Formula (.identifier name) := .identifier (isFreeName_letter h)
  have hx : Formula (.assign none (.member (.identifier "o") (.dot "in"))
      (.logical .coalesce
        (.binary .exp (.unary .minus (.identifier "a"))
          (.binary .exp (.identifier "b") (.identifier "c")))
        (.call (.identifier "f") [.literal (.string "a"), .this]))) := by
    have harguments : ∀ x ∈ [Expr.literal (.string "a"), .this], Formula x := by
      simp [Formula.string, Formula.this]
    exact .assign none rfl (.dot (hname "o" (by decide)) (by decide)) rfl
      (.logical _
        (.binary _ (.unary _ (hname "a" (by decide)))
          (.binary _ (hname "b" (by decide)) (hname "c" (by decide))))
        (.call (hname "f" (by decide)) harguments))
  refine ((ofString_formula hx).2 _ ?_).1
  have hword (name : String) (h : name ∈ ["a", "b", "c", "f", "o"]) :=
    Token.Spelled.identifier (isFreeName_letter h)
  have hstring : (Token.string "a").Spelled ('\'' :: (['a'] ++ ['\''])) :=
    .string (.inr rfl) (.cons (.raw (by decide) (by decide) (by decide) (by decide)) .nil)
  have hspells := Token.Spells.cons (hword "o" (by decide)) <| .cons (.sign .dot) <|
    .cons (.keyword .inWord) <| .cons (.sign .assign) <| .cons (.sign .leftParen) <|
    .cons (.sign .minus) <| .cons (hword "a" (by decide)) <| .cons (.sign .rightParen) <|
    .cons (.sign .exponent) <| .cons (hword "b" (by decide)) <| .cons (.sign .exponent) <|
    .cons (hword "c" (by decide)) <| .cons (.sign .nullishCoalescing) <|
    .cons (hword "f" (by decide)) <| .cons (.sign .leftParen) <| .cons hstring <|
    .cons (.sign .comma) <| .cons (.keyword .thisWord) <| .cons (.sign .rightParen) .nil
  exact hspells

end Expr

end ProtoScript
