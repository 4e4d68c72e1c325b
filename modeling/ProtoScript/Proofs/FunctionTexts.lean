import ProtoScript.Builtin.Function
import ProtoScript.Proofs.Readings.Enclosed
/-!
# Functions made from texts

The texts of the parameters and of the body are put into a function expression in parentheses, and
the function is the first statement of the program that the whole is.  Where each text is what it is
meant to be on its own, so is the function.  Where the text of the parameters is, the function is
the one that is meant if and only if it is the only statement.
-/

namespace ProtoScript

open Grammar

namespace Engine

def bodyText (body : String) : List Char := '\n' :: body.toList ++ ['\n', '\x7d', ')']

def restText (list : String) (body : String) : List Char :=
  list.toList ++ '\n' :: ')' :: ' ' :: '\x7b' :: bodyText body

theorem toList_functionSource (parameters : List String) (body : String) :
    (functionSource parameters body).toList = '(' :: ("function".toList ++ ' ' ::
      ("anonymous".toList ++ '(' :: restText (",".intercalate parameters) body)) := by
  have hwrapped (list : String) :
      ("(function anonymous(" ++ list ++ "\n) \x7b\n" ++ body ++ "\n\x7d)").toList =
        '(' :: ("function".toList ++ ' ' :: ("anonymous".toList ++ '(' :: restText list body)) := by
    simp [restText, bodyText]
  exact hwrapped _

end Engine

namespace Grammar

variable {n : Nesting} {c : Context} {cursor : Cursor} {text : List Char}

/-- The name of a function made from texts, and the parenthesis behind it. -/
theorem functionExpression_anonymous
    (hcursor : cursor.rest = ' ' :: ("anonymous".toList ++ '(' :: text)) :
    ∃ p, p.offset ≠ 0 ∧
      functionExpression n c ⟨.keyword .functionWord, false, none, cursor, false⟩ =
      functionRest n c (some "anonymous") .expression (.opening .leftParen text p false) := by
  have hends : Token.EndsName ('(' :: text) := by
    rintro ch hch
    obtain rfl : '(' = ch := Option.some.inj hch
    decide
  obtain ⟨l, hl, hname, hbehind⟩ : ∃ l, Token.next false cursor = .ok l ∧
      l.token = Token.ofWord "anonymous" ∧ l.next.rest = '(' :: text :=
    Token.next_of_beginsWith (fun p => Token.beginsWith_word hends (by decide)) (.inr hcursor)
  have hword := Parser.advance_of_readToken
    (s := ⟨.keyword .functionWord, false, none, cursor, false⟩) rfl
    (TokenStream.readToken_of_next hl (by rw [hname]; nofun))
  rw [hname] at hword
  have hcurrent : nameOfToken? false (Token.ofWord "anonymous") = some "anonymous" := by
    decide +kernel
  obtain ⟨p, hread, hp⟩ :=
    TokenStream.readToken_bracket Punctuator.leftParen_mem_brackets (.inl hbehind) false
  refine ⟨p, hp, ?_⟩
  unfold functionExpression
  rw [bind_of_ok (expectWord_of_advance rfl hword), currentName?_bind, hcurrent]
  dsimp only
  unfold checkBinding
  rw [bind_assoc, isStrict_bind, if_neg nofun]
  exact bind_of_ok (Parser.advance_of_readToken rfl hread)

/-! ### Texts that are read on their own -/

/-- The rule reads nothing: wherever the mode is the given one it yields the value, or wherever it
is that one it ends with the same error. -/
def Settles {α : Type} (strict : Bool) (p : Parser α) (a : α) : Prop :=
  (∀ s : TokenStream, s.strict = strict → p s = .ok a s) ∨
    ∃ e, ∀ s : TokenStream, s.strict = strict → p s = .error e s

namespace Settles

variable {α β : Type} {strict : Bool} {a : α}

theorem pure : Settles strict (pure a : Parser α) a := .inl fun _ _ => rfl

theorem fail {e : SyntaxError} {f : β → Parser α} :
    Settles strict ((throw e : Parser β) >>= f) a := .inr ⟨e, fun _ _ => rfl⟩

theorem ite {c : Prop} [Decidable c] {p q : Parser α} (hp : Settles strict p a)
    (hq : Settles strict q a) : Settles strict (if c then p else q) a := by
  split
  · exact hp
  · exact hq

theorem isStrict {f : Bool → Parser α} (h : Settles strict (f strict) a) :
    Settles strict (Parser.isStrict >>= f) a := by
  refine h.imp (fun h s hs => ?_) fun ⟨e, h⟩ => ⟨e, fun s hs => ?_⟩
  · rw [isStrict_bind, hs, h s hs]
  · rw [isStrict_bind, hs, h s hs]

end Settles

theorem settles_finishFunction (name : Option String) (kind : FunctionKind)
    (parameters : List Pattern) (body : List Stmt) (ownStrict strict : Bool) :
    Settles strict (finishFunction name kind parameters body ownStrict)
      ⟨name, kind, parameters, body, strict || ownStrict⟩ := by
  unfold finishFunction
  refine .isStrict ?_
  dsimp only
  refine .ite .fail (.ite ?_ (.ite ?_ .pure))
  · split
    · exact .fail
    refine .ite ?_ .pure
    split
    · exact .fail
    · exact .pure
  · split
    · exact .fail
    · exact .pure

section Texts

variable {first second : String} {list : List Pattern} {statements : List Stmt} {ownStrict : Bool}
  (hfirst : ReadsParameters first list) (hsecond : ReadsBody second statements ownStrict)

include hfirst hsecond

/-- Where the two texts are read on their own, the function ends at the last parenthesis. -/
theorem functionExpression_of_texts {depth rounds : Nat}
    (hdepth : first.toList.length + second.toList.length + 5 ≤ depth)
    (hrounds : first.toList.length + second.toList.length + 5 ≤ rounds)
    (hcursor : cursor.rest = ' ' :: ("anonymous".toList ++ '(' :: Engine.restText first second)) :
    ∃ q, functionExpression ⟨rounds, parse depth⟩ .program
      ⟨.keyword .functionWord, false, none, cursor, false⟩ =
        finishFunction (some "anonymous") .expression list statements ownStrict
          (.opening .rightParen [] q false) := by
  obtain ⟨p, hp, hfunction⟩ := functionExpression_anonymous (n := ⟨rounds, parse depth⟩)
    (c := .program) hcursor
  obtain ⟨q, hq, hlist⟩ := parameters_of_readsParameters hfirst (show _ ≤ depth by omega)
    (show _ ≤ rounds by omega) (Engine.bodyText second) hp
  obtain ⟨r, hbody⟩ := functionBody_of_readsBody hsecond (show _ ≤ depth by omega)
    (show _ ≤ rounds by omega) hq
  refine ⟨r, ?_⟩
  rw [hfunction]
  unfold functionRest
  exact (bind_of_ok hlist).trans (bind_of_ok hbody)

end Texts

end Grammar

namespace Program

variable {parameters : List String} {body : String} {list : List Pattern} {statements : List Stmt}
  {ownStrict : Bool}

/-- Where the two texts are read on their own, the program is the function that they make, or it is
not accepted because the function is not. -/
theorem ofString_of_texts (hfirst : ReadsParameters (",".intercalate parameters) list)
    (hsecond : ReadsBody body statements ownStrict) :
    Program.ofString (Engine.functionSource parameters body) false =
        .ok ⟨[.expression (.function ⟨some "anonymous", .expression, list, statements, ownStrict⟩)],
          false⟩ ∨
      ∃ e, Program.ofString (Engine.functionSource parameters body) false = .error e ∧
        ∀ s : TokenStream, s.strict = false →
          finishFunction (some "anonymous") .expression list statements ownStrict s =
            .error e s := by
  have hsource := Engine.toList_functionSource parameters body
  generalize ",".intercalate parameters = first at hfirst hsource
  have hlength := congrArg List.length hsource
  simp only [List.length_cons, List.length_append, Engine.restText, Engine.bodyText] at hlength
  obtain ⟨inner, hinner⟩ := Nat.exists_eq_add_one_of_ne_zero
    (show (Engine.functionSource parameters body).toList.length ≠ 0 by omega)
  have hread (p : Position) : ∃ cursor q, Parser.advance (.opening .leftParen ("function".toList ++
      ' ' :: ("anonymous".toList ++ '(' :: Engine.restText first body)) p false) =
        .ok () ⟨.keyword .functionWord, false, none, cursor, false⟩ ∧
      functionExpression ⟨inner + 1, parse inner⟩ .program
        ⟨.keyword .functionWord, false, none, cursor, false⟩ =
          finishFunction (some "anonymous") .expression list statements ownStrict
            (.opening .rightParen [] q false) := by
    obtain ⟨cursor, hword, hcursor⟩ := TokenStream.readToken_spelled false
      (c := ⟨"function".toList ++
        ' ' :: ("anonymous".toList ++ '(' :: Engine.restText first body), p⟩)
      (.keyword .functionWord) (.inr ⟨_, rfl⟩) (.inl rfl)
    obtain ⟨q, hfunction⟩ := functionExpression_of_texts hfirst hsecond (show _ ≤ inner by omega)
      (show _ ≤ inner + 1 by omega) hcursor
    exact ⟨cursor, q, Parser.advance_of_readToken rfl hword, hfunction⟩
  rcases settles_finishFunction (some "anonymous") .expression list statements ownStrict false with
    hok | ⟨e, herror⟩
  · refine .inl (ofString_of_parenthesized hsource fun p _ => ?_)
    obtain ⟨cursor, q, hopen, hfunction⟩ := hread p
    rw [hok _ rfl, Bool.false_or] at hfunction
    obtain ⟨t, hclose, hend, hstrict⟩ :=
      TokenStream.advance_end (s := .opening .rightParen [] q false) rfl rfl
    rw [hinner]
    exact ⟨t, hend, hstrict, parenthesized_of_function (Nat.succ_lt_succ (Nat.succ_pos _)) hopen rfl
      (assignment_of_functionExpression (Nat.succ_ne_zero _) rfl hfunction rfl) ⟨rfl, hclose⟩ hend⟩
  · refine .inr ⟨e, ofString_eq_error hsource fun p _ => ?_, herror⟩
    obtain ⟨cursor, q, hopen, hfunction⟩ := hread p
    rw [herror _ rfl] at hfunction
    rw [hinner]
    exact ⟨_, parenthesized_eq_error (Nat.succ_ne_zero _) hopen rfl
      (assignment_eq_error_of_functionExpression (Nat.succ_ne_zero _) rfl hfunction)⟩

/-- A function that is the first statement of the program and no arrow function has the parameters
that the first text is on its own.  Where it is the only statement it has the body that the second
text is. -/
theorem texts_of_ofString {program : Program} {d : FunctionDef} {rest : List Stmt}
    (hfirst : ReadsParameters (",".intercalate parameters) list)
    (h : Program.ofString (Engine.functionSource parameters body) false = .ok program)
    (hbody : program.body = .expression (.function d) :: rest) (hkind : d.kind ≠ .arrow) :
    d.name = some "anonymous" ∧ d.kind = .expression ∧ d.parameters = list ∧
      (rest = [] → ReadsBody body d.body d.strict) := by
  have hsource := Engine.toList_functionSource parameters body
  obtain ⟨inner, cursor, s, t, u, v, w, own, hinner, hcursor, hfunction, hsep, hclose, hstop,
    hrest⟩ :=
    function_of_ofString hsource h hbody hkind
  have hlength := congrArg List.length hsource
  simp only [List.length_cons, List.length_append, Engine.restText, Engine.bodyText] at hlength
  obtain ⟨p, hp, hrun⟩ := functionExpression_anonymous
    (n := ⟨(Engine.functionSource parameters body).toList.length, parse inner⟩)
    (c := .program) hcursor
  rw [hrun] at hfunction
  obtain ⟨x, ownStrict, y, hlist, hstatements, hfinish⟩ := functionRest_eq_ok hfunction
  obtain ⟨q, hq, hlist'⟩ := parameters_of_readsParameters hfirst (show _ ≤ inner by omega)
    (show _ ≤ (Engine.functionSource parameters body).toList.length by omega)
    (Engine.bodyText body) hp
  obtain ⟨hparameters, rfl⟩ := ok_unique hlist hlist'
  have hn : Nesting.Keeps ⟨(Engine.functionSource parameters body).toList.length, parse inner⟩ :=
    keeps_nesting inner
  have hmode : y.strict = false := ((keeps_functionBody hn).sound rfl hstatements).1
  rcases
    settles_finishFunction (some "anonymous") .expression d.parameters d.body ownStrict false with
    hok | ⟨e, herror⟩
  swap
  · cases hfinish.symm.trans (herror y hmode)
  obtain ⟨hd, rfl⟩ := ok_unique hfinish (hok y hmode)
  refine ⟨congrArg FunctionDef.name hd, congrArg FunctionDef.kind hd, hparameters, ?_⟩
  rintro rfl
  rw [show d.strict = ownStrict from (congrArg FunctionDef.strict hd).trans (Bool.false_or _)]
  rw [hinner] at hrest
  rcases directiveBody_cases hrest with ⟨hend, -⟩ | ⟨_, _, _, -, hothers, -⟩
  · exact readsBody_of_functionBody hq hstatements hsep hclose hstop hend
  · cases hothers

end Program

/-- The function is what the texts of its parameters and of its body are on their own. -/
structure FunctionDef.MadeOf (d : FunctionDef) (parameters body : String) : Prop where
  name : d.name = some "anonymous"
  kind : d.kind = .expression
  parameters : ReadsParameters parameters d.parameters
  body : ReadsBody body d.body d.strict

namespace Engine

open Eval

variable {parameters : List String} {body : String}

theorem functionOfText_of_error {e : SyntaxError}
    (h : Program.ofString (functionSource parameters body) false = .error e) :
    functionOfText parameters body = fault (.syntaxFault e.message) := by
  unfold functionOfText
  rw [h]

/-- Where the program begins with a function, the function is made of the two texts if and only if
the first one is read on its own, the function is no arrow function and nothing is behind it. -/
theorem madeOf_iff {program : Program} {d : FunctionDef} {rest : List Stmt}
    (h : Program.ofString (functionSource parameters body) false = .ok program)
    (hbody : program.body = .expression (.function d) :: rest) :
    d.MadeOf (",".intercalate parameters) body ↔
      (∃ list, ReadsParameters (",".intercalate parameters) list) ∧ d.kind ≠ .arrow ∧
        rest = [] := by
  constructor
  · intro hmade
    refine ⟨⟨_, hmade.parameters⟩, by rw [hmade.kind]; nofun, ?_⟩
    rcases Program.ofString_of_texts hmade.parameters hmade.body with hok | ⟨e, herror, -⟩
    · rw [Except.ok.inj (h.symm.trans hok)] at hbody
      exact (List.cons.inj hbody).2.symm
    · cases h.symm.trans herror
  · rintro ⟨⟨list, hfirst⟩, hkind, hrest⟩
    obtain ⟨hname, hexpression, rfl, hsecond⟩ := Program.texts_of_ofString hfirst h hbody hkind
    exact ⟨hname, hexpression, hfirst, hsecond hrest⟩

/-- From the texts of parameters and of a body a function is made, or a syntax error is thrown.  The
function is the one that begins the program that the texts are put into.  Where the first text is a
list of parameters on its own, its parameters are that list, unless it is an arrow function, and it
is made of the two texts if and only if it is no arrow function and nothing is behind it.  Where
both texts are read on their own, no function is made only if the very function is not accepted. -/
theorem function_made_of_texts (parameters : List String) (body : String) :
    (∃ d rest mode,
      Program.ofString (functionSource parameters body) false =
        .ok ⟨.expression (.function d) :: rest, mode⟩ ∧
      functionOfText parameters body = newClosure d .global ∧
      (d.kind ≠ .arrow → ∀ list, ReadsParameters (",".intercalate parameters) list →
        d.parameters = list) ∧
      (d.MadeOf (",".intercalate parameters) body ↔
        (∃ list, ReadsParameters (",".intercalate parameters) list) ∧
          d.kind ≠ .arrow ∧ rest = [])) ∨
    ∃ f, functionOfText parameters body = fault f ∧ f.kind = .syntaxError ∧
      ∀ list statements ownStrict, ReadsParameters (",".intercalate parameters) list →
        ReadsBody body statements ownStrict → ∃ e, f = .syntaxFault e.message ∧
          ∀ s : TokenStream, s.strict = false →
            finishFunction (some "anonymous") .expression list statements ownStrict s =
              .error e s := by
  cases h : Program.ofString (functionSource parameters body) false with
  | error e =>
    refine .inr ⟨.syntaxFault e.message, functionOfText_of_error h, rfl, ?_⟩
    intro list statements ownStrict hfirst hsecond
    rcases Program.ofString_of_texts hfirst hsecond with hok | ⟨e', herror, hfinish⟩
    · cases h.symm.trans hok
    · cases h.symm.trans herror
      exact ⟨e, rfl, hfinish⟩
  | ok program =>
    by_cases hfunction : ∃ d rest, program.body = .expression (.function d) :: rest
    · obtain ⟨d, rest, hbody⟩ := hfunction
      refine .inl ⟨d, rest, program.strict, ?_, ?_, fun hkind list hfirst => ?_, madeOf_iff h hbody⟩
      · rw [← hbody]
      · unfold functionOfText
        rw [h]
        dsimp only
        rw [hbody]
      · exact (Program.texts_of_ofString hfirst h hbody hkind).2.2.1
    · refine .inr ⟨.invalidFunctionBody, ?_, rfl, ?_⟩
      · unfold functionOfText
        rw [h]
        dsimp only
        split
        · next hbody => exact absurd ⟨_, _, hbody⟩ hfunction
        · rfl
      · intro list statements ownStrict hfirst hsecond
        rcases Program.ofString_of_texts hfirst hsecond with hok | ⟨e, herror, -⟩
        · cases h.symm.trans hok
          exact absurd ⟨_, _, rfl⟩ hfunction
        · cases h.symm.trans herror

def isTwoFunctions : Except SyntaxError Program → Bool
  | .ok ⟨[.expression (.function ⟨_, .expression, _, _, _⟩), .expression (.function _)], _⟩ => true
  | _ => false

/-- Whether a list of parameters has been read that is empty, up to the end of the text. -/
def isEmptyList : Except SyntaxError (List Pattern × TokenStream) → Bool
  | .ok ([], t) => t.current.isEnd
  | _ => false

/-- A body that closes its own function and opens another one is not refused: the function that is
made is the first of the two, and not made of the texts. -/
theorem function_not_made_of_texts : ∃ d rest mode,
    Program.ofString (functionSource [] "\x7d); (function () \x7b") false =
      .ok ⟨.expression (.function d) :: rest, mode⟩ ∧ rest ≠ [] ∧
    functionOfText [] "\x7d); (function () \x7b" = newClosure d .global ∧
    ReadsParameters "" d.parameters ∧ ¬ d.MadeOf "" "\x7d); (function () \x7b" := by
  have htwo : isTwoFunctions
      (Program.ofString (functionSource [] "\x7d); (function () \x7b") false) = true := by
    decide +kernel
  have hempty : isEmptyList (Parser.runOn (fun n => Grammar.parameters n .program)
      ("(" ++ "" ++ "\n)") false) = true := by
    decide +kernel
  have hlist : ReadsParameters "" [] := by
    unfold isEmptyList at hempty
    split at hempty
    · next t hrun => exact ⟨t, hrun, hempty⟩
    · cases hempty
  unfold isTwoFunctions at htwo
  split at htwo
  · next hprogram =>
    rcases function_made_of_texts [] "\x7d); (function () \x7b" with
      ⟨d, rest, mode, h, hmade, hparameters, hiff⟩ | ⟨f, hfault, -⟩
    · cases hprogram.symm.trans h
      refine ⟨_, _, _, h, nofun, hmade, ?_, fun hd => nomatch (hiff.mp hd).2.2⟩
      rw [hparameters nofun [] hlist]
      exact hlist
    · unfold functionOfText at hfault
      rw [hprogram] at hfault
      cases congrFun hfault default
  · cases htwo

end Engine

end ProtoScript
