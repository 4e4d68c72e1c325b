import Mathlib.Data.List.TakeWhile
import Mathlib.Data.String.Basic
import ProtoScript.Proofs.Grammar.Yields
import ProtoScript.Proofs.Partings.Tokens
import ProtoScript.Proofs.Spelling.Tokens
/-!
# What readers take of a text

A reader moves over characters of its text in two ways: over a character within a line, and over a
whole line break.  A walk records the characters that were passed, and how many line and paragraph
separators among them were passed as characters, which only string literals do.  The rest of the
text, the offset and the line at its end follow from these, whatever was read.

Each reader walks to where it ends, or fails at a place behind some of the characters in front of
it.
-/

namespace ProtoScript

open String (utf8Len)

theorem map_except_eq_ok {ε α β : Type} {x : Except ε α} {f : α → β} {b : β}
    (h : x.map f = .ok b) : ∃ a, x = .ok a ∧ f a = b := by
  cases x with
  | error e => cases h
  | ok a => exact ⟨a, rfl, Except.ok.inj h⟩

theorem map_except_eq_error {ε α β : Type} {x : Except ε α} {f : α → β} {e : ε}
    (h : x.map f = .error e) : x = .error e := by
  cases x with
  | error e' => exact congrArg Except.error (Except.error.inj h)
  | ok a => cases h

/-! ## Classes of characters -/

namespace Text

/-- A line or paragraph separator: a line break that a string literal can hold as it is. -/
def isSeparator (c : Char) : Bool := c == '\u2028' || c == '\u2029'

/-- How many line breaks a text has; a carriage return takes a line feed along. -/
def lineBreaks : List Char → Nat
  | [] => 0
  | '\r' :: '\n' :: rest => lineBreaks rest + 1
  | ch :: rest => lineBreaks rest + if isLineBreak ch then 1 else 0

/-- How many separators stand in the text of a string as they are.  A backslash takes the character
behind it along. -/
def rawSeparators : List Char → Nat
  | [] => 0
  | '\\' :: _ :: rest => rawSeparators rest
  | ch :: rest => rawSeparators rest + if isSeparator ch then 1 else 0

theorem isLineBreak_cases {c : Char} (h : isLineBreak c = true) :
    c = '\n' ∨ c = '\r' ∨ isSeparator c = true := by
  simp only [isLineBreak, isSeparator, Bool.or_eq_true, beq_iff_eq] at h ⊢
  tauto

theorem isLineBreak_of_isSeparator {c : Char} (h : isSeparator c = true) :
    isLineBreak c = true := by
  simp only [isLineBreak, isSeparator, Bool.or_eq_true, beq_iff_eq] at h ⊢
  tauto

theorem lineBreaks_cons {ch : Char} {rest : List Char}
    (h : ch = '\r' → rest.head? ≠ some '\n') :
    lineBreaks (ch :: rest) = lineBreaks rest + if isLineBreak ch then 1 else 0 := by
  rw [lineBreaks]
  rintro rest rfl rfl
  exact h rfl rfl

theorem lineBreaks_le_cons (ch : Char) (rest : List Char) :
    lineBreaks rest ≤ lineBreaks (ch :: rest) := by
  by_cases h : ch = '\r' → rest.head? ≠ some '\n'
  · rw [lineBreaks_cons h]
    exact Nat.le_add_right _ _
  · -- the line feed counts alone as it does behind the carriage return
    obtain ⟨rfl, hhead⟩ := Classical.not_imp.mp h
    obtain ⟨rest, rfl⟩ := List.head?_eq_some_iff.mp (Classical.not_not.mp hhead)
    rw [lineBreaks_cons fun hfeed => absurd hfeed (by decide)]
    exact Nat.le_refl _

def IsInner (c : Char) : Prop := isLineBreak c = false ∧ c ≠ '\\'

theorem isInner_of_test (test : Char → Bool)
    (htest : ['\n', '\r', '\u2028', '\u2029', '\\'].any test = false) {c : Char}
    (h : test c = true) : IsInner c := by
  have hne (d : Char) (hd : d ∈ ['\n', '\r', '\u2028', '\u2029', '\\']) : c ≠ d := by
    rintro rfl
    exact List.any_eq_false.mp htest c hd h
  refine ⟨?_, hne '\\' (by simp)⟩
  simp [isLineBreak, hne '\n' (by simp), hne '\r' (by simp), hne '\u2028' (by simp),
    hne '\u2029' (by simp)]

theorem isInner_of_digitValue? {radix d : Nat} {c : Char}
    (h : Number.digitValue? radix c = some d) : IsInner c := by
  have hletter : (Number.digitOrLetter? c).isSome = true := by
    rw [Option.isSome_iff_exists]
    exact ⟨d, Option.eq_some_of_filter_eq_some h⟩
  exact isInner_of_test (fun c => (Number.digitOrLetter? c).isSome) (by decide) hletter

theorem isInner_of_isDigit {c : Char} (h : c.isDigit = true) : IsInner c :=
  isInner_of_test Char.isDigit (by decide) h

theorem isInner_of_isIdentifierContinue {c : Char} (h : isIdentifierContinue c = true) :
    IsInner c := by
  refine isInner_of_test isIdentifierContinue (List.any_eq_false.mpr fun d hd => ?_) h
  simp only [List.mem_cons, List.not_mem_nil, or_false] at hd
  rw [Bool.not_eq_true]
  rcases hd with rfl | rfl | rfl | rfl | rfl
  · decide
  · decide
  · rw [isIdentifierContinue, LawfulIdentifierClasses.xidContinue_of_separator _ (by decide)]
    decide
  · rw [isIdentifierContinue, LawfulIdentifierClasses.xidContinue_of_separator _ (by decide)]
    decide
  · decide

theorem isLineBreak_of_isIdentifierStart {c : Char} (h : isIdentifierStart c = true) :
    isLineBreak c = false := by
  rw [← Bool.not_eq_true]
  intro hbreak
  cases (isBlank_of_isIdentifierStart h).symm.trans (isBlank_of_isLineBreak hbreak)

theorem isSeparator_of_isInner {c : Char} (h : IsInner c) : isSeparator c = false := by
  rw [← Bool.not_eq_true]
  intro hc
  cases (isLineBreak_of_isSeparator hc).symm.trans h.1

theorem rawSeparators_cons {ch : Char} {rest : List Char} (h : ch ≠ '\\') :
    rawSeparators (ch :: rest) = rawSeparators rest + if isSeparator ch then 1 else 0 := by
  rw [rawSeparators]
  rintro _ _ rfl _
  exact h rfl

theorem rawSeparators_append {front : List Char} (h : ∀ c ∈ front, IsInner c) (rest : List Char) :
    rawSeparators (front ++ rest) = rawSeparators rest := by
  induction front with
  | nil => rfl
  | cons c front ih =>
    have hc := h c List.mem_cons_self
    have hfront := ih fun d hd => h d (List.mem_cons_of_mem _ hd)
    rw [List.cons_append, rawSeparators_cons hc.2, isSeparator_of_isInner hc, hfront]
    rfl

theorem rawSeparators_eq_zero {w : List Char} (h : ∀ c ∈ w, isLineBreak c = false) :
    rawSeparators w = 0 := by
  have hnone (c : Char) (hc : c ∈ w) : isSeparator c = false := by
    rw [← Bool.not_eq_true]
    intro hseparator
    cases (h c hc).symm.trans (isLineBreak_of_isSeparator hseparator)
  clear h
  fun_induction rawSeparators w with
  | case1 => rfl
  | case2 _ rest ih => exact ih fun c hc => hnone c (by simp [hc])
  | case3 ch rest _ ih =>
    rw [hnone ch List.mem_cons_self, ih fun c hc => hnone c (List.mem_cons_of_mem _ hc)]
    rfl

end Text

/-! ## Walks -/

/-- A cursor walks over characters of its text to another one: over characters within a line, over
separators as they are, which are counted, and over line breaks. -/
inductive Cursor.Walk : Cursor → List Char → Nat → Cursor → Prop
  | done {c : Cursor} : Walk c [] 0 c
  | char {ch : Char} {rest w : List Char} {p : Position} {n : Nat} {d : Cursor} :
    Text.isLineBreak ch = false → Walk ⟨rest, p.step ch⟩ w n d →
    Walk ⟨ch :: rest, p⟩ (ch :: w) n d
  | separator {ch : Char} {rest w : List Char} {p : Position} {n : Nat} {d : Cursor} :
    Text.isSeparator ch = true → Walk ⟨rest, p.step ch⟩ w n d →
    Walk ⟨ch :: rest, p⟩ (ch :: w) (n + 1) d
  | pair {rest w : List Char} {p : Position} {n : Nat} {d : Cursor} :
    Walk ⟨rest, p.breakLine ['\r', '\n']⟩ w n d →
    Walk ⟨'\r' :: '\n' :: rest, p⟩ ('\r' :: '\n' :: w) n d
  | single {ch : Char} {rest w : List Char} {p : Position} {n : Nat} {d : Cursor} :
    Text.isLineBreak ch = true → (ch = '\r' → rest.head? ≠ some '\n') →
    Walk ⟨rest, p.breakLine [ch]⟩ w n d → Walk ⟨ch :: rest, p⟩ (ch :: w) n d

namespace Position

theorem offset_steps (p : Position) (cs : List Char) :
    (p.steps cs).offset = p.offset + utf8Len cs := by
  induction cs generalizing p with
  | nil => rfl
  | cons ch cs ih =>
    calc (p.steps (ch :: cs)).offset = (p.step ch).offset + utf8Len cs := ih (p.step ch)
      _ = p.offset + utf8Len (ch :: cs) := by
        simp only [String.utf8Len_cons, step]
        omega

end Position

namespace Cursor.Walk

variable {c d e : Cursor} {w v : List Char} {n m : Nat} {ch : Char}

theorem trans (h : Walk c w n d) (h' : Walk d v m e) : Walk c (w ++ v) (n + m) e := by
  induction h with
  | done => rwa [List.nil_append, Nat.zero_add]
  | char hch _ ih => exact .char hch (ih h')
  | @separator _ _ _ _ n _ hch _ ih =>
    rw [Nat.add_right_comm]
    exact .separator hch (ih h')
  | pair _ ih => exact .pair (ih h')
  | single hch hne _ ih => exact .single hch hne (ih h')

theorem rest_eq (h : Walk c w n d) : c.rest = w ++ d.rest := by
  induction h with
  | done => rfl
  | char _ _ ih => simpa using ih
  | separator _ _ ih => simpa using ih
  | pair _ ih => simpa using ih
  | single _ _ _ ih => simpa using ih

theorem offset_eq (h : Walk c w n d) : d.position.offset = c.position.offset + utf8Len w := by
  induction h with
  | done => rfl
  | char _ _ ih => simp [ih, Position.step]; omega
  | separator _ _ ih => simp [ih, Position.step]; omega
  | pair _ ih => simp [ih, Position.breakLine, Position.offset_steps]; omega
  | single _ _ _ ih => simp [ih, Position.breakLine, Position.offset_steps]; omega

/-- The line at the end of a walk: the breaks on the way count, and the separators that were passed
as they are do not. -/
theorem line_eq (h : Walk c w n d) :
    (d.position.line + n) % 4294967296 =
      (c.position.line + Text.lineBreaks w) % 4294967296 := by
  have hbreak (p : Position) (cs : List Char) : (p.breakLine cs).line = (p.line + 1) % 4294967296 :=
    UInt32.toNat_add ..
  induction h with
  | done => rfl
  | @char ch rest w p n d hch _ ih =>
    have hne : ch = '\r' → w.head? ≠ some '\n' := by
      rintro rfl
      cases hch
    rw [Text.lineBreaks_cons hne, hch]
    exact ih
  | @separator ch rest w p n d hch _ ih =>
    have hseparator := Text.isLineBreak_of_isSeparator hch
    have hne : ch = '\r' → w.head? ≠ some '\n' := by
      rintro rfl
      cases hch
    rw [Text.lineBreaks_cons hne, hseparator]
    change (d.position.line + n) % 4294967296 = (p.line + Text.lineBreaks w) % 4294967296 at ih
    simp only [if_true]
    omega
  | @pair rest w p n d _ ih =>
    simp only [Text.lineBreaks, hbreak] at ih ⊢
    omega
  | @single ch rest w p n d hch hne hwalk ih =>
    have hne' : ch = '\r' → w.head? ≠ some '\n' := by
      rintro hreturn hhead
      obtain ⟨w, rfl⟩ := List.head?_eq_some_iff.mp hhead
      have hrest : rest = '\n' :: w ++ d.rest := hwalk.rest_eq
      exact hne hreturn (by rw [hrest]; rfl)
    rw [Text.lineBreaks_cons hne', hch]
    simp only [hbreak, if_true] at ih ⊢
    omega

/-- The separators that were passed as they are are line breaks of the text. -/
theorem le_lineBreaks (h : Walk c w n d) : n ≤ Text.lineBreaks w := by
  induction h with
  | done => exact Nat.zero_le _
  | char _ _ ih => exact Nat.le_trans ih (Text.lineBreaks_le_cons _ _)
  | @separator ch rest w p n d hch _ ih =>
    rw [Text.lineBreaks_cons (by rintro rfl; cases hch), Text.isLineBreak_of_isSeparator hch]
    exact Nat.succ_le_succ ih
  | pair _ ih => exact Nat.le_succ_of_le ih
  | single _ _ _ ih => exact Nat.le_trans ih (Text.lineBreaks_le_cons _ _)

theorem step (hc : c.peek? = some ch) (hch : Text.isLineBreak ch = false) :
    Walk c [ch] 0 c.step := by
  obtain ⟨cs, p⟩ := c
  obtain ⟨rest, rfl⟩ := List.head?_eq_some_iff.mp hc
  exact .char hch .done

theorem step_separator (hc : c.peek? = some ch) (hch : Text.isSeparator ch = true) :
    Walk c [ch] 1 c.step := by
  obtain ⟨cs, p⟩ := c
  obtain ⟨rest, rfl⟩ := List.head?_eq_some_iff.mp hc
  exact .separator hch .done

theorem skipLineBreak (hc : c.peek? = some ch) (hch : Text.isLineBreak ch = true) :
    ∃ along, (along = [] ∨ along = ['\n']) ∧ Walk c (ch :: along) 0 c.skipLineBreak := by
  obtain ⟨cs, p⟩ := c
  obtain ⟨rest, rfl⟩ := List.head?_eq_some_iff.mp hc
  by_cases hpair : ch = '\r' ∧ rest.head? = some '\n'
  · obtain ⟨rfl, hhead⟩ := hpair
    obtain ⟨rest, rfl⟩ := List.head?_eq_some_iff.mp hhead
    exact ⟨['\n'], .inr rfl, .pair .done⟩
  · have hne : ch = '\r' → rest.head? ≠ some '\n' := fun hreturn hhead => hpair ⟨hreturn, hhead⟩
    rw [Cursor.skipLineBreak_single hne]
    exact ⟨[], .inl rfl, .single hch hne .done⟩

theorem steps (p : Position) (h : ∀ ch ∈ w, Text.isLineBreak ch = false) (rest : List Char) :
    Walk ⟨w ++ rest, p⟩ w 0 ⟨rest, p.steps w⟩ := by
  induction w generalizing p with
  | nil => exact .done
  | cons ch w ih =>
    have hw := fun d hd => h d (List.mem_cons_of_mem ch hd)
    exact .char (h ch List.mem_cons_self) (ih (p.step ch) hw)

theorem skip {rest : List Char} (hc : c.rest = w ++ rest)
    (h : ∀ ch ∈ w, Text.isLineBreak ch = false) : Walk c w 0 (c.skip w.length) := by
  obtain ⟨cs, p⟩ := c
  dsimp only at hc
  subst hc
  rw [Cursor.skip, List.drop_left, List.take_left]
  exact steps p h rest

theorem skipWhile {test : Char → Bool} (h : ∀ ch, test ch = true → Text.isLineBreak ch = false)
    (c : Cursor) : Walk c (c.rest.takeWhile test) 0 (c.skipWhile test) := by
  obtain ⟨cs, p⟩ := c
  have hwalk := steps (w := cs.takeWhile test) p (fun ch hch => h ch (List.mem_takeWhile_imp hch))
    (cs.dropWhile test)
  rwa [List.takeWhile_append_dropWhile] at hwalk

end Cursor.Walk

/-! ## What a reader takes -/

namespace Cursor

variable {α β : Type} {P Q : Char → Prop} {c d : Cursor} {w : List Char} {n : Nat}

/-- A place behind some of the characters in front of the cursor. -/
def Sees (c : Cursor) (p : Position) : Prop :=
  ∃ w, w <+: c.rest ∧ p.offset = c.position.offset + utf8Len w

theorem sees_self (c : Cursor) : c.Sees c.position := ⟨[], List.nil_prefix, rfl⟩

theorem Sees.of_step {p : Position} (h : c.step.Sees p) : c.Sees p := by
  obtain ⟨cs, q⟩ := c
  cases cs with
  | nil => exact h
  | cons ch cs =>
    obtain ⟨w, hw, hoffset⟩ := h
    refine ⟨ch :: w, by simpa [step] using hw, ?_⟩
    simp only [hoffset, step, Position.step, String.utf8Len_cons]
    omega

theorem sees_step (c : Cursor) : c.Sees c.step.position := (sees_self c.step).of_step

theorem Walk.sees {p : Position} (h : Walk c w n d) (hp : d.Sees p) : c.Sees p := by
  obtain ⟨v, hv, hoffset⟩ := hp
  refine ⟨w ++ v, ?_, ?_⟩
  · rw [h.rest_eq]
    exact (List.prefix_append_right_inj w).mpr hv
  · rw [hoffset, h.offset_eq, String.utf8Len_append]
    omega

/-- A reader takes characters of a class: it ends behind a walk over such characters, or fails at a
place that the cursor sees. -/
def Takes (P : Char → Prop) (c : Cursor) (last : α → Cursor) : Except LexicalError α → Prop
  | .ok found => ∃ w, Walk c w 0 (last found) ∧ ∀ ch ∈ w, P ch
  | .error e => c.Sees e.position

namespace Takes

variable {last : α → Cursor} {last' : β → Cursor} {r : Except LexicalError α}

theorem here {found : α} (h : last found = c) : Takes P c last (.ok found) :=
  ⟨[], h ▸ .done, by simp⟩

theorem imp (h : Takes P c last r) (hPQ : ∀ ch, P ch → Q ch) : Takes Q c last r := by
  cases r with
  | error e => exact h
  | ok found =>
    obtain ⟨w, hwalk, hw⟩ := h
    exact ⟨w, hwalk, fun ch hch => hPQ ch (hw ch hch)⟩

theorem behind (hwalk : Walk c w 0 d) (hw : ∀ ch ∈ w, P ch) (h : Takes P d last r) :
    Takes P c last r := by
  cases r with
  | error e => exact hwalk.sees h
  | ok found =>
    obtain ⟨v, hv, hP⟩ := h
    refine ⟨w ++ v, hwalk.trans hv, fun ch hch => ?_⟩
    rcases List.mem_append.mp hch with hch | hch
    · exact hw ch hch
    · exact hP ch hch

theorem bind {f : α → Except LexicalError β} (hr : Takes P c last r)
    (hf : ∀ found, r = .ok found → Takes P (last found) last' (f found)) :
    Takes P c last' (r >>= f) := by
  cases r with
  | error e => exact hr
  | ok found =>
    obtain ⟨w, hwalk, hw⟩ := hr
    exact behind hwalk hw (hf found rfl)

theorem map {f : α → β} (hr : Takes P c last r) (hf : ∀ found, last' (f found) = last found) :
    Takes P c last' (r.map f) := by
  cases r with
  | error e => exact hr
  | ok found =>
    obtain ⟨w, hwalk, hw⟩ := hr
    exact ⟨w, (hf found).symm ▸ hwalk, hw⟩

theorem step {ch : Char} (hc : c.peek? = some ch) (hbreak : Text.isLineBreak ch = false) (hP : P ch)
    (h : Takes P c.step last r) : Takes P c last r :=
  behind (.step hc hbreak) (by simpa using hP) h

end Takes

end Cursor

namespace Token

open Cursor (Takes Walk)
open Text (IsInner)

variable {c d : Cursor} {ch : Char} {strict : Bool}

/-! ### Escapes -/

theorem takes_readHexDigits (count value : Nat) (c : Cursor) :
    Takes IsInner c Prod.snd (readHexDigits count value c) := by
  induction count generalizing value c with
  | zero => exact .here rfl
  | succ count ih =>
    rw [readHexDigits]
    split
    · next digit hdigit =>
      obtain ⟨ch, hc, hch⟩ := Option.bind_eq_some_iff.mp hdigit
      have hinner := Text.isInner_of_digitValue? hch
      exact .step hc hinner.1 hinner (ih _ c.step)
    · exact c.sees_step

theorem takes_readBracedDigits (value : Nat) (count : Int32) (c : Cursor) :
    Takes IsInner c Prod.snd (readBracedDigits c.rest c.position value count) := by
  obtain ⟨cs, p⟩ := c
  induction cs generalizing p value count with
  | nil => exact Cursor.sees_self _
  | cons ch cs ih =>
    rw [readBracedDigits]
    split
    · next hclosed =>
      obtain rfl : ch = '\x7d' := by simp_all
      exact .step rfl (by decide) (by constructor <;> decide) (.here rfl)
    · split
      · next digit hdigit =>
        split
        · exact Cursor.sees_step ⟨ch :: cs, p⟩
        · have hinner := Text.isInner_of_digitValue? hdigit
          exact .step rfl hinner.1 hinner (ih _ _ (p.step ch))
      · exact Cursor.sees_step ⟨ch :: cs, p⟩

theorem takes_readUnicodeEscape (c : Cursor) :
    Takes IsInner c Prod.snd (readUnicodeEscape c) := by
  unfold readUnicodeEscape
  dsimp only
  split
  · next hbrace =>
    have hc : c.peek? = some '\x7b' := by simpa using hbrace
    have hdigits := takes_readBracedDigits 0 0 c.step
    exact .step hc (by decide) (by constructor <;> decide) (hdigits.bind fun _ _ => .here rfl)
  · exact (takes_readHexDigits 4 0 c).bind fun _ _ => .here rfl

theorem takes_readOctalDigits (count value : Nat) (c : Cursor) :
    Takes IsInner c Prod.snd (.ok (readOctalDigits count value c)) := by
  induction count generalizing value c with
  | zero => exact .here rfl
  | succ count ih =>
    rw [readOctalDigits]
    split
    · next digit hdigit =>
      obtain ⟨ch, hc, hch⟩ := Option.bind_eq_some_iff.mp hdigit
      have hinner := Text.isInner_of_digitValue? hch
      exact .step hc hinner.1 hinner (ih _ c.step)
    · exact .here rfl

/-- An escape is a line break that is left out, or a character with some inner ones behind it. -/
theorem readEscape_cases (strict : Bool) (c : Cursor) :
    (c.peek? = none ∧ readEscape strict c = .error ⟨.unterminatedEscape, c.position⟩) ∨
    ∃ ch, c.peek? = some ch ∧
      ((Text.isLineBreak ch = true ∧ readEscape strict c = .ok ([], c.skipLineBreak)) ∨
        (Text.isLineBreak ch = false ∧ Takes IsInner c.step Prod.snd (readEscape strict c))) := by
  cases hc : c.peek? with
  | none =>
    refine .inl ⟨rfl, ?_⟩
    rw [readEscape, hc]
  | some ch =>
    refine .inr ⟨ch, rfl, ?_⟩
    by_cases hbreak : Text.isLineBreak ch = true
    · refine .inl ⟨hbreak, ?_⟩
      rw [readEscape, hc]
      -- none of the four line breaks passes a test that comes before their own
      simp only [Text.isLineBreak, Bool.or_eq_true, beq_iff_eq] at hbreak
      rcases hbreak with ((rfl | rfl) | rfl) | rfl <;> rfl
    · refine .inr ⟨by simpa using hbreak, ?_⟩
      rw [readEscape, hc]
      dsimp only
      split
      · exact .here rfl
      split
      · exact .here rfl
      split
      · next digit _ =>
        split
        · exact Cursor.sees_self _
        · exact takes_readOctalDigits (if digit ≤ 3 then 2 else 1) digit c.step
      split
      · exact .map (takes_readHexDigits 2 0 c.step) fun _ => rfl
      split
      · exact .map (takes_readUnicodeEscape c.step) fun _ => rfl
      · exact .here rfl

theorem sees_readEscape {e : LexicalError} (h : readEscape strict c = .error e) :
    c.Sees e.position := by
  rcases readEscape_cases strict c with ⟨-, hnone⟩ | ⟨ch, hc, ⟨-, hbreak⟩ | ⟨hbreak, htakes⟩⟩
  · rw [hnone] at h
    cases h
    exact c.sees_self
  · rw [hbreak] at h
    cases h
  · rw [h] at htakes
    exact (Walk.step hc hbreak).sees htakes

/-- Behind a backslash, an escape has nothing to say about separators. -/
theorem walk_readEscape {r : List Char × Cursor} (h : readEscape strict c = .ok r) :
    ∃ w, Walk c w 0 r.2 ∧
      ∀ rest, Text.rawSeparators ('\\' :: (w ++ rest)) = Text.rawSeparators rest := by
  rcases readEscape_cases strict c with ⟨-, hnone⟩ | ⟨ch, hc, ⟨hch, hbreak⟩ | ⟨hch, htakes⟩⟩
  · rw [hnone] at h
    cases h
  · rw [hbreak] at h
    cases h
    obtain ⟨along, halong, hwalk⟩ := Walk.skipLineBreak hc hch
    refine ⟨_, hwalk, fun rest => ?_⟩
    rcases halong with rfl | rfl
    · rfl
    · exact Text.rawSeparators_cons (show '\n' ≠ '\\' by decide)
  · rw [h] at htakes
    obtain ⟨w, hwalk, hw⟩ := htakes
    exact ⟨[ch] ++ w, (Walk.step hc hch).trans hwalk, fun rest => Text.rawSeparators_append hw rest⟩

/-! ### Strings -/

theorem isInner_quote {quote : Char} (h : quote = '\'' ∨ quote = '"') : IsInner quote := by
  rcases h with rfl | rfl <;> exact ⟨by decide, by decide⟩

/-- The separators that a string passes as characters are those that stand raw in it. -/
theorem walk_readString {quote : Char} (hquote : quote = '\'' ∨ quote = '"') {content : List Char}
    {r : String × Cursor} (h : readString strict quote c content = .ok r) :
    ∃ w, Walk c w (Text.rawSeparators w) r.2 := by
  fun_induction readString strict quote c content with
  | case1 => cases h
  | case2 c content ch hc heq =>
    cases h
    obtain rfl : ch = quote := by simpa using heq
    have hinner := isInner_quote hquote
    have hnone : Text.rawSeparators [ch] = 0 := Text.rawSeparators_eq_zero (by simpa using hinner.1)
    refine ⟨[ch], ?_⟩
    rw [hnone]
    exact .step hc hinner.1
  | case3 c content ch hc _ hslash chars next he ih =>
    obtain rfl : ch = '\\' := by simpa using hslash
    obtain ⟨v, hescape, hraw⟩ := walk_readEscape he
    obtain ⟨w, hrest⟩ := ih h
    refine ⟨'\\' :: (v ++ w), ?_⟩
    rw [hraw w, ← Nat.zero_add (Text.rawSeparators w), ← Nat.zero_add (0 + _)]
    exact (Walk.step hc (by decide)).trans (hescape.trans hrest)
  | case4 => cases h
  | case5 => cases h
  | case6 c content ch hc _ hslash hbreak ih =>
    obtain ⟨w, hrest⟩ := ih h
    refine ⟨[ch] ++ w, ?_⟩
    rw [List.singleton_append, Text.rawSeparators_cons (by simpa using hslash), Nat.add_comm]
    -- a separator is taken as a character; any other line break has ended the string
    by_cases hseparator : Text.isSeparator ch = true
    · rw [hseparator]
      exact (Walk.step_separator hc hseparator).trans hrest
    · rw [if_neg hseparator]
      refine (Walk.step hc ?_).trans hrest
      rw [← Bool.not_eq_true]
      intro hline
      rcases Text.isLineBreak_cases hline with rfl | rfl | hline
      · exact hbreak rfl
      · exact hbreak rfl
      · exact hseparator hline

theorem sees_readString {quote : Char} {content : List Char} {e : LexicalError}
    (h : readString strict quote c content = .error e) : c.Sees e.position := by
  fun_induction readString strict quote c content with
  | case1 =>
    cases h
    exact Cursor.sees_self _
  | case2 => cases h
  | case3 c content ch hc _ _ chars next he ih =>
    obtain ⟨w, hwalk, -⟩ := walk_readEscape he
    exact (hwalk.sees (ih h)).of_step
  | case4 c content ch hc _ _ e' he =>
    cases h
    exact (sees_readEscape he).of_step
  | case5 c content ch hc _ _ _ =>
    cases h
    exact c.sees_step
  | case6 c content ch hc _ _ _ ih => exact (ih h).of_step

/-! ### Numbers -/

theorem takes_digitsAt (radix : Nat) (c : Cursor) :
    Takes IsInner c Prod.snd (.ok (digitsAt radix c)) := by
  obtain ⟨cs, p⟩ := c
  induction cs generalizing p with
  | nil => exact .here rfl
  | cons ch cs ih =>
    have hc : Cursor.peek? ⟨ch :: cs, p⟩ = some ch := rfl
    rw [digitsAt_step, hc]
    dsimp only
    split
    · next hdigit =>
      obtain ⟨d, hd⟩ := Option.isSome_iff_exists.mp hdigit
      have hinner := Text.isInner_of_digitValue? hd
      exact .step rfl hinner.1 hinner (ih (p.step ch))
    split
    · next hunder =>
      obtain rfl : ch = '_' := by simp_all
      exact .step rfl (by decide) (by constructor <;> decide) (ih (p.step '_'))
    · exact .here rfl

theorem takes_endNumber (token : Token) (c : Cursor) :
    Takes IsInner c Prod.snd (endNumber token c) := by
  unfold endNumber
  split
  · exact c.sees_self
  · exact .here rfl

theorem takes_readRadixNumber (radix : Nat) (c : Cursor) :
    Takes IsInner c Prod.snd (readRadixNumber radix c) := by
  unfold readRadixNumber
  obtain ⟨w, hwalk, hw⟩ := takes_digitsAt radix c
  dsimp only
  split
  · exact hwalk.sees (Cursor.sees_self _)
  · exact .behind hwalk hw (takes_endNumber _ _)

theorem takes_readLeadingZero (strict : Bool) (c : Cursor) :
    Takes IsInner c Prod.snd (readLeadingZero strict c) := by
  have hdigits : Walk c (c.rest.takeWhile Char.isDigit) 0 (c.skipWhile Char.isDigit) :=
    .skipWhile (fun ch hch => (Text.isInner_of_isDigit hch).1) c
  have hinner : ∀ ch ∈ c.rest.takeWhile Char.isDigit, IsInner ch :=
    fun ch hch => Text.isInner_of_isDigit (List.mem_takeWhile_imp hch)
  unfold readLeadingZero
  dsimp only
  split
  · exact c.sees_self
  split
  · exact .behind hdigits hinner (takes_endNumber _ _)
  · exact .behind hdigits hinner (takes_endNumber _ _)

theorem takes_sign (c : Cursor) :
    Takes IsInner c id
      (.ok (c.skip (c.peek?.toList.filter fun ch => ch == '+' || ch == '-').length)) := by
  cases hc : c.peek? with
  | none => exact .here rfl
  | some ch =>
    obtain ⟨cs, p⟩ := c
    obtain ⟨rest, rfl⟩ := List.head?_eq_some_iff.mp hc
    by_cases hsign : (ch == '+' || ch == '-') = true
    · have hinner : IsInner ch :=
        Text.isInner_of_test (fun ch => ch == '+' || ch == '-') (by decide) hsign
      rw [Option.toList_some, List.filter_singleton, hsign]
      exact .step hc hinner.1 hinner (.here rfl)
    · rw [Bool.not_eq_true] at hsign
      rw [Option.toList_some, List.filter_singleton, hsign]
      exact .here rfl

theorem takes_readExponent (c : Cursor) : Takes IsInner c Prod.snd (readExponent c) := by
  unfold readExponent
  split
  · next hletter =>
    obtain ⟨ch, hc, hch⟩ := (Option.any_eq_true _ _).mp hletter
    have hinner : IsInner ch :=
      Text.isInner_of_test (fun ch => ch == 'e' || ch == 'E') (by decide) hch
    refine .step hc hinner.1 hinner ?_
    have hdigits : Takes IsInner c.step Prod.snd (.ok (digitsAt 10 _)) :=
      (takes_sign c.step).bind fun found _ => takes_digitsAt 10 found
    dsimp only
    split
    · obtain ⟨w, hwalk, -⟩ := hdigits
      exact hwalk.sees (Cursor.sees_self _)
    · exact hdigits
  · exact .here rfl

theorem takes_readMantissa (first : Char) (c : Cursor) :
    Takes IsInner c Prod.snd (.ok (readMantissa first c)) := by
  unfold readMantissa
  split
  · exact takes_digitsAt 10 c
  · have hwhole := takes_digitsAt 10 c
    dsimp only
    split
    · next hpoint =>
      have hc : (digitsAt 10 c).2.peek? = some '.' := by simpa using hpoint
      obtain ⟨w, hwalk, hw⟩ := hwhole
      have hfraction := takes_digitsAt 10 (digitsAt 10 c).2.step
      exact .behind hwalk hw (.step hc (by decide) (by constructor <;> decide) hfraction)
    · exact hwhole

theorem takes_readDecimal (first : Char) (c : Cursor) :
    Takes IsInner c Prod.snd (readDecimal first c) := by
  obtain ⟨w, hwalk, hw⟩ := takes_readMantissa first c
  unfold readDecimal
  exact .behind hwalk hw ((takes_readExponent _).bind fun _ _ => takes_endNumber _ _)

theorem takes_readNumber (strict : Bool) (first : Char) (c : Cursor) :
    Takes IsInner c Prod.snd (readNumber strict first c) := by
  unfold readNumber
  split
  · next radix hradix =>
    obtain ⟨ch, hc, hch⟩ : ∃ ch, c.peek? = some ch ∧ radixOfLetter? ch = some radix := by
      split at hradix
      · exact Option.bind_eq_some_iff.mp hradix
      · cases hradix
    have hinner : IsInner ch :=
      Text.isInner_of_test (fun ch => (radixOfLetter? ch).isSome) (by decide)
        (by simp [hch])
    exact .step hc hinner.1 hinner (takes_readRadixNumber radix c.step)
  · split
    · exact takes_readLeadingZero strict c
    · exact takes_readDecimal first c

/-! ### Names -/

def InLine (ch : Char) : Prop := Text.isLineBreak ch = false

theorem takes_readName (c : Cursor) (name : List Char) (escaped : Bool) :
    Takes InLine c (fun found => found.2.2) (readName c name escaped) := by
  fun_induction readName c name escaped with
  | case1 => exact .here rfl
  | case2 c name escaped ch hc hslash hu char next he ih =>
    have hslash' : c.peek? = some '\\' := by simp_all
    have hu' : c.step.peek? = some 'u' := by simpa using hu
    obtain ⟨w, hescape, hw⟩ : Takes IsInner c.step.step Prod.snd (.ok (char, next)) :=
      he ▸ takes_readUnicodeEscape c.step.step
    have hrest := Takes.behind hescape (fun ch hch => (hw ch hch).1) ih
    exact .step hslash' rfl rfl (.step hu' rfl rfl hrest)
  | case3 c name escaped ch hc hslash hu e he =>
    have hslash' : c.peek? = some '\\' := by simp_all
    have hu' : c.step.peek? = some 'u' := by simpa using hu
    have hescape : Takes IsInner c.step.step Prod.snd (.error e) :=
      he ▸ takes_readUnicodeEscape c.step.step
    exact (Walk.step hslash' (by decide)).sees ((Walk.step hu' (by decide)).sees hescape)
  | case4 c name escaped ch hc hslash hu =>
    have hslash' : c.peek? = some '\\' := by simp_all
    exact (Walk.step hslash' (by decide)).sees (Cursor.sees_step _)
  | case5 c name escaped ch hc hslash hcontinue ih =>
    have hinner := Text.isInner_of_isIdentifierContinue hcontinue
    exact .step hc hinner.1 hinner.1 ih
  | case6 => exact .here rfl

theorem takes_readWord (hc : c.peek? = some ch) (hch : Text.isIdentifierStart ch || ch == '\\') :
    Takes InLine c Prod.snd (readWord ch c) := by
  unfold readWord
  dsimp only
  split
  · exact (takes_readName c [] false).bind fun _ _ => .here rfl
  · next hslash =>
    have hbreak : Text.isLineBreak ch = false := by
      apply Text.isLineBreak_of_isIdentifierStart
      simpa [hslash] using hch
    exact .step hc hbreak hbreak ((takes_readName c.step [ch] false).bind fun _ _ => .here rfl)

/-! ### Tokens -/

/-- How many separators a token has raw in its text; only strings can have them. -/
def rawSeparators : Token → List Char → Nat
  | string _, w => Text.rawSeparators w
  | _, _ => 0

theorem rawSeparators_eq_zero (t : Token) {w : List Char} (h : ∀ ch ∈ w, InLine ch) :
    t.rawSeparators w = 0 := by
  cases t with
  | string content => exact Text.rawSeparators_eq_zero h
  | _ => rfl

theorem inLine_spelling (sign : Punctuator) :
    ∀ ch ∈ sign.spelling, Text.isLineBreak ch = false := by
  have hnone : sign.spelling.any Text.isLineBreak = false := by
    cases sign <;> decide
  simpa using hnone

theorem takes_sign_spelled {sign : Punctuator} (h : Punctuator.longest? c.rest = some sign) :
    Takes InLine c Prod.snd (.ok (punctuator sign, c.skip sign.spelling.length)) := by
  obtain ⟨rest, hrest⟩ := spelling_prefix_of_longest? h
  exact ⟨sign.spelling, Walk.skip hrest.symm (inLine_spelling sign), inLine_spelling sign⟩

theorem takes_readToken (strict : Bool) (hc : c.peek? = some ch)
    (hquote : ¬ (ch == '\'' || ch == '"') = true) :
    Takes InLine c Prod.snd (readToken strict ch c) := by
  rw [readToken, if_neg hquote]
  split
  · next hdigit =>
    have hinner : IsInner ch :=
      Text.isInner_of_test (fun ch => ch.isDigit || ch == '.') (by decide) (by
        simp only [Bool.or_eq_true, Bool.and_eq_true] at hdigit ⊢
        exact hdigit.imp_right And.left)
    exact .step hc hinner.1 hinner.1 ((takes_readNumber strict ch c.step).imp fun _ h => h.1)
  split
  · next hname => exact takes_readWord hc hname
  split
  · next sign hsign => exact takes_sign_spelled hsign
  · exact c.sees_self

/-- A token is read by a walk, and only the separators that stand raw in a string are passed as
characters. -/
theorem walk_readToken {r : Token × Cursor} (hc : c.peek? = some ch)
    (h : readToken strict ch c = .ok r) : ∃ w, Walk c w (r.1.rawSeparators w) r.2 := by
  by_cases hquote : (ch == '\'' || ch == '"') = true
  · have hquote' : ch = '\'' ∨ ch = '"' := by simpa using hquote
    have hinner := isInner_quote hquote'
    rw [readToken, if_pos hquote] at h
    obtain ⟨found, hs, rfl⟩ := map_except_eq_ok h
    obtain ⟨w, hwalk⟩ := walk_readString hquote' hs
    refine ⟨[ch] ++ w, ?_⟩
    rw [rawSeparators, Text.rawSeparators_append (by simpa using hinner),
      ← Nat.zero_add (Text.rawSeparators w)]
    exact (Walk.step hc hinner.1).trans hwalk
  · have htakes := takes_readToken strict hc hquote
    rw [h] at htakes
    obtain ⟨w, hwalk, hw⟩ := htakes
    exact ⟨w, (rawSeparators_eq_zero r.1 hw).symm ▸ hwalk⟩

theorem sees_readToken {e : LexicalError} (hc : c.peek? = some ch)
    (h : readToken strict ch c = .error e) : c.Sees e.position := by
  by_cases hquote : (ch == '\'' || ch == '"') = true
  · have hquote' : ch = '\'' ∨ ch = '"' := by simpa using hquote
    rw [readToken, if_pos hquote] at h
    exact (Walk.step hc (isInner_quote hquote').1).sees (sees_readString (map_except_eq_error h))
  · have htakes := takes_readToken strict hc hquote
    rwa [h] at htakes

theorem walk_readLexeme {l : Lexeme} (h : readLexeme strict c = .ok l) :
    ∃ w, Walk c w (l.token.rawSeparators w) l.next ∧ (w = [] → l.token = endOfInput) := by
  unfold readLexeme at h
  split at h
  · cases h
    exact ⟨[], .done, fun _ => rfl⟩
  next ch hc =>
  split at h
  · next hbreak =>
    cases h
    obtain ⟨along, -, hwalk⟩ := Walk.skipLineBreak hc hbreak
    exact ⟨_, hwalk, nofun⟩
  · obtain ⟨found, ht, rfl⟩ := map_except_eq_ok h
    obtain ⟨w, hwalk⟩ := walk_readToken hc ht
    refine ⟨w, hwalk, ?_⟩
    rintro rfl
    have hlength := length_rest_readToken hc ht
    rw [hwalk.rest_eq] at hlength
    exact absurd hlength (Nat.lt_irrefl _)

theorem sees_readLexeme {e : LexicalError} (h : readLexeme strict c = .error e) :
    c.Sees e.position := by
  unfold readLexeme at h
  split at h
  · cases h
  next ch hc =>
  split at h
  · cases h
  · exact sees_readToken hc (map_except_eq_error h)

end Token

end ProtoScript
