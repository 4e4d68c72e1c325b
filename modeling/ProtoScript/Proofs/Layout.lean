import ProtoScript.Proofs.Layout.Walks
/-!
# The layout of a text

Splitting a text into tokens loses nothing: the characters of the text are those of the tokens in
their order, with blanks and comments between them.  Each token starts where no blank and no comment
does, each takes a character at least, and all offsets are boundaries of characters.
-/

namespace ProtoScript

open String (utf8Len)

namespace Token

open Cursor (Walk)

variable {c d : Cursor} {ch : Char} {strict : Bool}

/-! ### Block comments -/

/-- The text of a block comment up to where it closes: the closing sign does not come earlier. -/
def IsOpen (body : List Char) : Prop := ¬ ['*', '/'] <:+: body ++ ['*']

theorem isOpen_nil : IsOpen [] := by
  intro h
  have := h.length_le
  simp at this

theorem isOpen_cons {body : List Char} :
    IsOpen (ch :: body) ↔ IsOpen body ∧ ¬ (ch = '*' ∧ body.head? = some '/') := by
  rw [IsOpen, IsOpen, List.cons_append, List.infix_cons_iff, List.cons_prefix_cons, not_or,
    and_comm]
  refine and_congr_right fun _ => not_congr (and_congr eq_comm ?_)
  cases body with
  | nil => simp
  | cons d body => simp [List.cons_prefix_cons, eq_comm]

/-- Where a comment is still open, its closing sign is not the next two characters. -/
theorem closes_iff {body rest : List Char} {p : Position} :
    (ch == '*' &&
        (⟨ch :: (body ++ '*' :: '/' :: rest), p⟩ : Cursor).step.peek? == some '/') = true ↔
      ch = '*' ∧ body.head? = some '/' := by
  cases body <;> simp [Cursor.step, Cursor.peek?]

/-- A block comment ends behind the first closing sign, and its flag says whether a line break is in
it. -/
theorem walk_readBlockComment {crossed : Bool} {r : Bool × Cursor}
    (h : readBlockComment c.rest c.position crossed = .ok r) :
    ∃ body, Walk c (body ++ ['*', '/']) 0 r.2 ∧ IsOpen body ∧
      r.1 = (crossed || body.any Text.isLineBreak) := by
  -- on the length of what is left, because a line break takes one character or two
  induction hsize : c.rest.length using Nat.strongRecOn generalizing c crossed with
  | ind size ih =>
  subst hsize
  rw [readBlockComment_step] at h
  split at h
  · cases h
  next ch hc =>
  split at h
  · next hclosed =>
    cases h
    obtain ⟨cs, p⟩ := c
    obtain ⟨rest, rfl⟩ := List.head?_eq_some_iff.mp hc
    simp only [Cursor.step, Cursor.peek?, Bool.and_eq_true, beq_iff_eq] at hclosed
    obtain ⟨rfl, hslash⟩ := hclosed
    obtain ⟨rest, rfl⟩ := List.head?_eq_some_iff.mp hslash
    exact ⟨[], .char (by decide) (.char (by decide) .done), isOpen_nil, by simp⟩
  next hopen =>
  split at h
  · next hbreak =>
    obtain ⟨body, hwalk, hbody, hflag⟩ := ih _ (length_rest_skipLineBreak_lt hc) h rfl
    have hfirst (body : List Char) : ¬ (ch = '*' ∧ body.head? = some '/') := by
      rintro ⟨rfl, -⟩
      cases hbreak
    obtain ⟨along, halong, hline⟩ := Walk.skipLineBreak hc hbreak
    refine ⟨ch :: (along ++ body), ?_, isOpen_cons.mpr ⟨?_, hfirst _⟩, ?_⟩
    · simpa using hline.trans hwalk
    · rcases halong with rfl | rfl
      · exact hbody
      · exact isOpen_cons.mpr ⟨hbody, by simp⟩
    · simp [hflag, hbreak]
  · next hbreak =>
    rw [Bool.not_eq_true] at hbreak
    obtain ⟨body, hwalk, hbody, hflag⟩ := ih _ (length_rest_step_lt hc) h rfl
    refine ⟨ch :: body, (Walk.step hc hbreak).trans hwalk, isOpen_cons.mpr ⟨hbody, ?_⟩, ?_⟩
    · obtain ⟨cs, p⟩ := c
      obtain ⟨rest, rfl⟩ := List.head?_eq_some_iff.mp hc
      have hrest : rest = body ++ '*' :: '/' :: r.2.rest := by
        simpa [Cursor.step] using hwalk.rest_eq
      rw [hrest] at hopen
      exact fun hcloses => hopen (closes_iff.mpr hcloses)
    · simp [hflag, hbreak]

theorem readBlockComment_inLine {body : List Char} (hbody : IsOpen body)
    (hline : ∀ ch ∈ body, Text.isLineBreak ch = false) (rest : List Char) (p : Position)
    (crossed : Bool) :
    ∃ q, readBlockComment (body ++ '*' :: '/' :: rest) p crossed = .ok (crossed, ⟨rest, q⟩) := by
  induction body generalizing p with
  | nil => exact ⟨_, rfl⟩
  | cons ch body ih =>
    rw [isOpen_cons] at hbody
    obtain ⟨q, hq⟩ := ih hbody.1 (fun d hd => hline d (List.mem_cons_of_mem _ hd)) (p.step ch)
    refine ⟨q, ?_⟩
    have hc : Cursor.peek? ⟨ch :: (body ++ '*' :: '/' :: rest), p⟩ = some ch := rfl
    have hstep := readBlockComment_step ⟨ch :: (body ++ '*' :: '/' :: rest), p⟩ crossed
    rw [hc] at hstep
    dsimp only at hstep
    rw [List.cons_append, hstep, if_neg (mt closes_iff.mp hbody.2), hline ch List.mem_cons_self]
    exact hq

theorem sees_readBlockComment {crossed : Bool} {e : LexicalError}
    (h : readBlockComment c.rest c.position crossed = .error e) : c.Sees e.position := by
  induction hsize : c.rest.length using Nat.strongRecOn generalizing c crossed with
  | ind size ih =>
  subst hsize
  rw [readBlockComment_step] at h
  split at h
  · cases h
    exact c.sees_self
  next ch hc =>
  split at h
  · cases h
  split at h
  · next hbreak =>
    have hsees := ih _ (length_rest_skipLineBreak_lt hc) h rfl
    obtain ⟨along, -, hline⟩ := Walk.skipLineBreak hc hbreak
    exact hline.sees hsees
  · next hbreak =>
    rw [Bool.not_eq_true] at hbreak
    exact (Walk.step hc hbreak).sees (ih _ (length_rest_step_lt hc) h rfl)

/-! ### Trivia -/

def EndsLine (rest : List Char) : Prop := ∀ ch ∈ rest.head?, Text.isLineBreak ch = true

/-- Text that stands between tokens, at an offset and in front of the rest of the text: a blank, a
comment up to the end of its line, a first line that starts with `#!`, or a comment between signs
that has no line break in it. -/
inductive Trivia (offset : Nat) (rest : List Char) : List Char → Prop
  | blank {ch : Char} : Text.isInlineBlank ch = true → Trivia offset rest [ch]
  | lineComment {body : List Char} : (∀ ch ∈ body, Text.isLineBreak ch = false) → EndsLine rest →
    Trivia offset rest ('/' :: '/' :: body)
  | firstLine {body : List Char} : offset = 0 → (∀ ch ∈ body, Text.isLineBreak ch = false) →
    EndsLine rest → Trivia offset rest ('#' :: '!' :: body)
  | blockComment {body : List Char} : IsOpen body → (∀ ch ∈ body, Text.isLineBreak ch = false) →
    Trivia offset rest ('/' :: '*' :: (body ++ ['*', '/']))

/-- Blanks or a comment stand in front of the cursor. -/
def StartsTrivia (c : Cursor) : Prop :=
  ∃ piece rest, c.rest = piece ++ rest ∧ Trivia c.position.offset rest piece

inductive Skips : Cursor → Cursor → Prop
  | done {c : Cursor} : Skips c c
  | piece {c d e : Cursor} {piece : List Char} : Trivia c.position.offset d.rest piece →
    Walk c piece 0 d → Skips d e → Skips c e

theorem Skips.trans {c d e : Cursor} (h : Skips c d) (h' : Skips d e) : Skips c e := by
  induction h with
  | done => exact h'
  | piece htrivia hwalk _ ih => exact .piece htrivia hwalk (ih h')

theorem Skips.walk (h : Skips c d) : ∃ w, Walk c w 0 d := by
  induction h with
  | done => exact ⟨[], .done⟩
  | piece _ hwalk _ ih =>
    obtain ⟨w, hrest⟩ := ih
    exact ⟨_, hwalk.trans hrest⟩

theorem isLineBreak_of_isInlineBlank (h : Text.isInlineBlank ch = true) :
    Text.isLineBreak ch = false := by
  simp only [Text.isInlineBlank, Bool.and_eq_true, Bool.not_eq_true'] at h
  exact h.2

theorem skips_blanks (c : Cursor) : Skips c (c.skipWhile Text.isInlineBlank) := by
  obtain ⟨cs, p⟩ := c
  induction cs generalizing p with
  | nil => exact .done
  | cons ch cs ih =>
    cases hch : Text.isInlineBlank ch with
    | false =>
      rw [Cursor.skipWhile, List.dropWhile_cons_of_neg (by simp [hch]),
        List.takeWhile_cons_of_neg (by simp [hch])]
      exact .done
    | true =>
      rw [Cursor.skipWhile, List.dropWhile_cons_of_pos hch, List.takeWhile_cons_of_pos hch]
      exact .piece (.blank hch) (.char (isLineBreak_of_isInlineBlank hch) .done) (ih (p.step ch))

theorem test_head?_dropWhile {test : Char → Bool} {cs : List Char}
    (h : (cs.dropWhile test).head? = some ch) : test ch = false := by
  simpa [h] using List.head?_dropWhile_not test cs

theorem endsLine_skipLine (c : Cursor) : EndsLine c.skipLine.rest := by
  intro ch hch
  simpa using test_head?_dropWhile hch

theorem skips_line (h : gapAt c = .line) : Skips c c.skipLine := by
  have hline : Walk c (c.rest.takeWhile fun ch => !Text.isLineBreak ch) 0 c.skipLine :=
    .skipWhile (fun ch hch => by simpa using hch) c
  have hbody (cs : List Char) : ∀ ch ∈ cs.takeWhile fun ch => !Text.isLineBreak ch,
      Text.isLineBreak ch = false := fun ch hch => by simpa using List.mem_takeWhile_imp hch
  refine .piece ?_ hline .done
  unfold gapAt at h
  split at h
  · next hrest =>
    rw [hrest]
    exact .lineComment (hbody _) (endsLine_skipLine c)
  · cases h
  · next hrest =>
    split at h
    · next hoffset =>
      rw [hrest]
      exact .firstLine hoffset (hbody _) (endsLine_skipLine c)
    · cases h
  · cases h

theorem rest_of_block (h : gapAt c = .block) : ∃ rest, c.rest = '/' :: '*' :: rest := by
  unfold gapAt at h
  split at h
  · cases h
  · next rest hrest => exact ⟨rest, hrest⟩
  · split at h <;> cases h
  · cases h

theorem walk_opening (h : gapAt c = .block) : Walk c ['/', '*'] 0 (c.skip 2) := by
  obtain ⟨rest, hrest⟩ := rest_of_block h
  exact .skip hrest (by simp [Text.isLineBreak])

theorem skips_block (h : gapAt c = .block) {behind : Cursor}
    (hb : readBlockComment (c.skip 2).rest (c.skip 2).position false = .ok (false, behind)) :
    Skips c behind := by
  obtain ⟨body, hwalk, hopen, hflag⟩ := walk_readBlockComment hb
  have hline : ∀ ch ∈ body, Text.isLineBreak ch = false := by simpa using hflag.symm
  exact .piece (.blockComment hopen hline) ((walk_opening h).trans hwalk) .done

/-! ### Where a token begins -/

/-- The token at a place where no blank and no comment begins: a comment with a line break in it
counts as one. -/
def readHere (strict : Bool) (c : Cursor) : Except LexicalError Lexeme :=
  match gapAt c with
  | .block =>
    (readBlockComment (c.skip 2).rest (c.skip 2).position false).map fun found =>
      ⟨lineBreak, c.position.offset, found.2⟩
  | _ => readLexeme strict c

theorem not_startsTrivia (hblank : ∀ ch ∈ c.rest.head?, Text.isInlineBlank ch = false)
    (hline : gapAt c ≠ .line) (hblock : gapAt c = .block → ∀ behind,
      readBlockComment (c.skip 2).rest (c.skip 2).position false ≠ .ok (false, behind)) :
    ¬ StartsTrivia c := by
  obtain ⟨cs, p⟩ := c
  rintro ⟨piece, rest, hrest, htrivia⟩
  dsimp only at hrest htrivia
  subst hrest
  cases htrivia with
  | blank hch => cases hch.symm.trans (hblank _ rfl)
  | lineComment => exact hline rfl
  | firstLine hoffset =>
    apply hline
    unfold gapAt
    exact if_pos hoffset
  | @blockComment body hopen hbody =>
    obtain ⟨q, hq⟩ := readBlockComment_inLine hopen hbody rest (p.steps ['/', '*']) false
    apply hblock rfl ⟨rest, q⟩
    rw [← hq]
    simp [Cursor.skip]

theorem next_skips (strict : Bool) (c : Cursor) :
    ∃ d, Skips c d ∧ ¬ StartsTrivia d ∧ next strict c = readHere strict d := by
  have hblank (c : Cursor) :
      ∀ ch ∈ (c.skipWhile Text.isInlineBlank).rest.head?, Text.isInlineBlank ch = false :=
    fun ch hch => test_head?_dropWhile hch
  fun_induction next strict c with
  | case1 c hg ih =>
    obtain ⟨d, hskips, hd⟩ := ih
    exact ⟨d, (skips_blanks c).trans ((skips_line hg).trans hskips), hd⟩
  | case2 c hg behind hb =>
    refine ⟨_, skips_blanks c, not_startsTrivia (hblank c) (by simp [hg]) ?_, ?_⟩
    · intro _ other hother
      cases hb.symm.trans hother
    · rw [readHere, hg]
      simp only [hb, Except.map]
  | case3 c hg behind hb ih =>
    obtain ⟨d, hskips, hd⟩ := ih
    exact ⟨d, (skips_blanks c).trans ((skips_block hg hb).trans hskips), hd⟩
  | case4 c hg e hb =>
    refine ⟨_, skips_blanks c, not_startsTrivia (hblank c) (by simp [hg]) ?_, ?_⟩
    · intro _ other hother
      cases hb.symm.trans hother
    · rw [readHere, hg]
      simp only [hb, Except.map]
  | case5 c hg =>
    refine ⟨_, skips_blanks c, not_startsTrivia (hblank c) (by simp [hg]) (by simp [hg]), ?_⟩
    rw [readHere, hg]

theorem next_eq_readHere (strict : Bool) (h : ¬ StartsTrivia c) :
    next strict c = readHere strict c := by
  obtain ⟨d, hskips, -, hnext⟩ := next_skips strict c
  -- reading starts where the cursor stands, because nothing can be skipped there
  cases hskips with
  | done => exact hnext
  | piece htrivia hwalk _ => exact absurd ⟨_, _, hwalk.rest_eq, htrivia⟩ h

/-- A token starts where it is read, and takes a character at least unless it is the end of the
text. -/
theorem walk_readHere {l : Lexeme} (h : readHere strict c = .ok l) :
    l.start = c.position.offset ∧
      ∃ w, Walk c w (l.token.rawSeparators w) l.next ∧ (w = [] → l.token = endOfInput) := by
  unfold readHere at h
  split at h
  · next hg =>
    obtain ⟨found, hb, rfl⟩ := map_except_eq_ok h
    obtain ⟨body, hwalk, -⟩ := walk_readBlockComment hb
    exact ⟨rfl, _, (walk_opening hg).trans hwalk, nofun⟩
  · refine ⟨?_, walk_readLexeme h⟩
    unfold readLexeme at h
    split at h
    · cases h
      rfl
    split at h
    · cases h
      rfl
    · obtain ⟨found, -, rfl⟩ := map_except_eq_ok h
      rfl

theorem sees_readHere {e : LexicalError} (h : readHere strict c = .error e) :
    c.rest ≠ [] ∧ c.Sees e.position := by
  unfold readHere at h
  split at h
  · next hg =>
    obtain ⟨rest, hrest⟩ := rest_of_block hg
    exact ⟨by simp [hrest], (walk_opening hg).sees (sees_readBlockComment (map_except_eq_error h))⟩
  · refine ⟨?_, sees_readLexeme h⟩
    intro hnil
    rw [readLexeme, Cursor.peek?, hnil] at h
    cases h

/-! ## Reading token after token -/

/-- The tokens from a cursor on, read one after the other up to the end of the text or an error. -/
inductive Scans (strict : Bool) : Cursor → List Lexeme → Option LexicalError → Prop
  | fails {c : Cursor} {e : LexicalError} : next strict c = .error e → Scans strict c [] (some e)
  | ends {c : Cursor} {l : Lexeme} : next strict c = .ok l → l.token = endOfInput →
    Scans strict c [l] none
  | token {c : Cursor} {l : Lexeme} {ls : List Lexeme} {e : Option LexicalError} :
    next strict c = .ok l → l.token ≠ endOfInput → Scans strict l.next ls e →
    Scans strict c (l :: ls) e

theorem length_rest_of_token {l : Lexeme} (hl : next strict c = .ok l) (ht : l.token ≠ endOfInput) :
    l.next.rest.length < c.rest.length :=
  (length_rest_next hl).resolve_left fun h => ht h.1

theorem exists_scans (strict : Bool) (c : Cursor) : ∃ ls e, Scans strict c ls e := by
  induction hsize : c.rest.length using Nat.strongRecOn generalizing c with
  | ind size ih =>
  subst hsize
  cases hl : next strict c with
  | error e => exact ⟨_, _, .fails hl⟩
  | ok l =>
    by_cases ht : l.token = endOfInput
    · exact ⟨_, _, .ends hl ht⟩
    · obtain ⟨ls, e, h⟩ := ih _ (length_rest_of_token hl ht) l.next rfl
      exact ⟨_, _, .token hl ht h⟩

namespace Scans

variable {ls : List Lexeme} {e : Option LexicalError}

/-- Enough calls read all tokens, and more calls do not change what is read. -/
theorem scanFrom_eq (h : Scans strict c ls e) {count : Nat} (hcount : c.rest.length < count) :
    scanFrom strict count c = (ls, e) := by
  induction h generalizing count with
  | fails he =>
    obtain ⟨count, rfl⟩ := Nat.exists_eq_add_one_of_ne_zero (Nat.ne_zero_of_lt hcount)
    rw [scanFrom, he]
  | ends hl ht =>
    obtain ⟨count, rfl⟩ := Nat.exists_eq_add_one_of_ne_zero (Nat.ne_zero_of_lt hcount)
    rw [scanFrom, hl]
    simp only [ht]
  | @token c l ls e hl ht _ ih =>
    obtain ⟨count, rfl⟩ := Nat.exists_eq_add_one_of_ne_zero (Nat.ne_zero_of_lt hcount)
    have hlt := length_rest_of_token hl ht
    rw [scanFrom, hl]
    dsimp only
    split
    · next heq => exact absurd heq ht
    · rw [ih (by omega)]

theorem calls_le (h : Scans strict c ls e) : ls.length + e.toList.length ≤ c.rest.length + 1 := by
  induction h with
  | fails => simp
  | ends => simp
  | token hl ht _ ih =>
    have hlt := length_rest_of_token hl ht
    simp only [List.length_cons]
    omega

end Scans

theorem scans_scan (strict : Bool) (source : String) :
    Scans strict (.ofString source) (scan strict source).1 (scan strict source).2 := by
  obtain ⟨ls, e, h⟩ := exists_scans strict (.ofString source)
  have hscan : scan strict source = (ls, e) := h.scanFrom_eq (Nat.lt_succ_self _)
  rwa [hscan]

/-! ## The layout of the tokens -/

/-- A text from an offset on, with lexemes in it: each stands where no trivia begins, over the
characters from its start up to its end, and trivia stands between them.  The rest of the text is
what is left behind the last one. -/
inductive Laid (rest : List Char) : Nat → List Char → List Lexeme → Prop
  | done {offset : Nat} : Laid rest offset rest []
  | trivia {offset : Nat} {piece text : List Char} {ls : List Lexeme} : Trivia offset text piece →
    Laid rest (offset + utf8Len piece) text ls → Laid rest offset (piece ++ text) ls
  | token {offset : Nat} {piece text : List Char} {l : Lexeme} {ls : List Lexeme} :
    (¬ ∃ front behind, piece ++ text = front ++ behind ∧ Trivia offset behind front) →
    l.start = offset → l.next.position.offset = offset + utf8Len piece →
    (piece = [] → l.token = endOfInput) → Laid rest (offset + utf8Len piece) text ls →
    Laid rest offset (piece ++ text) (l :: ls)

theorem Laid.of_skips {rest : List Char} {ls : List Lexeme} (h : Skips c d)
    (hlaid : Laid rest d.position.offset d.rest ls) : Laid rest c.position.offset c.rest ls := by
  induction h with
  | done => exact hlaid
  | piece htrivia hwalk _ ih =>
    have hrest := ih hlaid
    rw [hwalk.offset_eq] at hrest
    rw [hwalk.rest_eq]
    exact .trivia htrivia hrest

theorem Trivia.ne_nil {offset : Nat} {rest piece : List Char} (h : Trivia offset rest piece) :
    piece ≠ [] := by
  cases h <;> simp

theorem not_startsTrivia_of_rest_nil (h : c.rest = []) : ¬ StartsTrivia c := by
  rintro ⟨piece, rest, hrest, htrivia⟩
  rw [h] at hrest
  exact htrivia.ne_nil (List.append_eq_nil_iff.mp hrest.symm).1

/-- A token stands behind trivia, and takes a character at least unless it is the end of the
text. -/
theorem walk_next {l : Lexeme} (h : next strict c = .ok l) :
    ∃ d w, Skips c d ∧ ¬ StartsTrivia d ∧ l.start = d.position.offset ∧
      Walk d w (l.token.rawSeparators w) l.next ∧ (w = [] → l.token = endOfInput) := by
  obtain ⟨d, hskips, hbare, hnext⟩ := next_skips strict c
  rw [h] at hnext
  obtain ⟨hstart, w, hwalk, hempty⟩ := walk_readHere hnext.symm
  exact ⟨d, w, hskips, hbare, hstart, hwalk, hempty⟩

theorem exists_walk_next {l : Lexeme} (h : next strict c = .ok l) : ∃ w n, Walk c w n l.next := by
  obtain ⟨d, w, hskips, -, -, hwalk, -⟩ := walk_next h
  obtain ⟨v, hblank⟩ := hskips.walk
  exact ⟨_, _, hblank.trans hwalk⟩

theorem Laid.cons {rest : List Char} {l : Lexeme} {ls : List Lexeme} (hl : next strict c = .ok l)
    (h : Laid rest l.next.position.offset l.next.rest ls) :
    Laid rest c.position.offset c.rest (l :: ls) := by
  obtain ⟨d, w, hskips, hbare, hstart, hwalk, hempty⟩ := walk_next hl
  rw [hwalk.offset_eq] at h
  rw [StartsTrivia, hwalk.rest_eq] at hbare
  apply Laid.of_skips hskips
  rw [hwalk.rest_eq]
  exact .token hbare hstart hwalk.offset_eq hempty h

namespace Scans

variable {ls : List Lexeme} {e : Option LexicalError}

/-- Where reading stops: at the end of the text behind the last token, or where a token fails. -/
theorem laid (h : Scans strict c ls e) :
    ∃ d, Laid d.rest c.position.offset c.rest ls ∧ (∃ w n, Walk c w n d) ∧ ¬ StartsTrivia d ∧
      (e = none → d.rest = [] ∧ ls.getLast?.map Lexeme.token = some endOfInput) ∧
      ∀ error ∈ e, next strict d = .error error := by
  induction h with
  | @fails c error he =>
    obtain ⟨d, hskips, hbare, hnext⟩ := next_skips strict c
    obtain ⟨w, hwalk⟩ := hskips.walk
    refine ⟨d, .of_skips hskips .done, ⟨w, 0, hwalk⟩, hbare, nofun, ?_⟩
    rintro _ ⟨⟩
    rw [next_eq_readHere strict hbare, ← hnext, he]
  | @ends c l hl ht =>
    have hrest : l.next.rest = [] := rest_of_endOfInput hl ht
    refine ⟨l.next, .cons hl .done, exists_walk_next hl, not_startsTrivia_of_rest_nil hrest,
      fun _ => ⟨hrest, ?_⟩, nofun⟩
    rw [List.getLast?_singleton, Option.map_some, ht]
  | @token c l ls e hl ht hscans ih =>
    obtain ⟨f, hlaid, ⟨u, n, hfurther⟩, hbare, hend, herror⟩ := ih
    obtain ⟨w, m, hwalk⟩ := exists_walk_next hl
    refine ⟨f, .cons hl hlaid, ⟨_, _, hwalk.trans hfurther⟩, hbare, fun he => ?_, herror⟩
    obtain ⟨hrest, hlast⟩ := hend he
    refine ⟨hrest, ?_⟩
    cases ls with
    | nil => cases hlast
    | cons l' ls => rwa [List.getLast?_cons_cons]

theorem increasing (h : Scans strict c ls e) :
    (∀ l ∈ ls, c.position.offset ≤ l.start) ∧ (ls.map Lexeme.start).Pairwise (· < ·) := by
  have hstart {c : Cursor} {l : Lexeme} (hl : next strict c = .ok l) :
      c.position.offset ≤ l.start ∧ (l.token ≠ endOfInput → l.start < l.next.position.offset) := by
    obtain ⟨d, w, hskips, -, hstart, hwalk, hempty⟩ := walk_next hl
    obtain ⟨v, hblank⟩ := hskips.walk
    refine ⟨by rw [hstart, hblank.offset_eq]; omega, fun ht => ?_⟩
    have hpos : utf8Len w ≠ 0 := fun hzero => ht (hempty (String.utf8Len_eq_zero.mp hzero))
    rw [hstart, hwalk.offset_eq]
    omega
  induction h with
  | fails => exact ⟨nofun, .nil⟩
  | ends hl =>
    exact ⟨by simpa using (hstart hl).1, List.pairwise_singleton _ _⟩
  | @token c l ls e hl ht _ ih =>
    obtain ⟨hfirst, hlt⟩ := hstart hl
    have hbehind (l' : Lexeme) (hl' : l' ∈ ls) : l.start < l'.start :=
      (hlt ht).trans_le (ih.1 l' hl')
    refine ⟨fun l' hl' => ?_, List.pairwise_cons.mpr ⟨by simpa using hbehind, ih.2⟩⟩
    rcases List.mem_cons.mp hl' with rfl | hl'
    · exact hfirst
    · exact hfirst.trans (hbehind l' hl').le

/-- Each token is read by a call at a place that the calls before it lead to. -/
theorem exists_next (h : Scans strict c ls e) {l : Lexeme} (hl : l ∈ ls) :
    ∃ d w n, Walk c w n d ∧ next strict d = .ok l := by
  induction h with
  | fails => cases hl
  | @ends c l' hnext =>
    obtain rfl := List.mem_singleton.mp hl
    exact ⟨c, [], 0, .done, hnext⟩
  | @token c l' ls e hnext _ _ ih =>
    rcases List.mem_cons.mp hl with rfl | hl
    · exact ⟨c, [], 0, .done, hnext⟩
    · obtain ⟨w, m, hwalk⟩ := exists_walk_next hnext
      obtain ⟨f, u, n, hfurther, hlater⟩ := ih hl
      exact ⟨f, _, _, hwalk.trans hfurther, hlater⟩

end Scans

/-! ### Offsets in a text -/

/-- An offset is a boundary of characters of a text, and this is what stands behind it. -/
def IsBoundary (source : String) (offset : Nat) (rest : List Char) : Prop :=
  ∃ p : source.Pos, p.offset.byteIdx = offset ∧ (source.sliceFrom p).copy = String.ofList rest

theorem isBoundary_append {source : String} {w rest : List Char} (h : source.toList = w ++ rest) :
    IsBoundary source (utf8Len w) rest := by
  have hsource : source = String.ofList w ++ String.ofList rest := by
    rw [← String.ofList_append, ← h, String.ofList_toList]
  have hsplits := String.Pos.splits_ofEqAppend hsource
  refine ⟨_, ?_, hsplits.copy_sliceFrom_eq⟩
  rw [hsplits.offset_eq_rawEndPos, String.rawEndPos_ofList]

theorem isBoundary_of_walk {source : String} {w : List Char} {n : Nat}
    (h : Walk (.ofString source) w n d) : IsBoundary source d.position.offset d.rest := by
  have hoffset := h.offset_eq
  rw [show (Cursor.ofString source).position.offset = 0 from rfl, Nat.zero_add] at hoffset
  rw [hoffset]
  exact isBoundary_append h.rest_eq

theorem isBoundary_of_sees {source : String} {p : Position}
    (h : (Cursor.ofString source).Sees p) : ∃ rest, IsBoundary source p.offset rest := by
  obtain ⟨w, ⟨rest, hrest⟩, hoffset⟩ := h
  rw [show (Cursor.ofString source).position.offset = 0 from rfl, Nat.zero_add] at hoffset
  rw [hoffset]
  exact ⟨rest, isBoundary_append hrest.symm⟩

/-! ### Nothing is lost -/

/-- How a text is split into lexemes up to its end or an error. -/
structure Lossless (strict : Bool) (source : String) (ls : List Lexeme) (e : Option LexicalError) :
    Prop where
  /-- The lexemes are those of the calls one after the other. -/
  scans : Scans strict (.ofString source) ls e
  /-- All calls, with the one that fails, are at most one more than the characters. -/
  calls : ls.length + e.toList.length ≤ source.length + 1
  increasing : (ls.map Lexeme.start).Pairwise (· < ·)
  boundaries : ∀ l ∈ ls, (∃ rest, IsBoundary source l.start rest) ∧
    IsBoundary source l.next.position.offset l.next.rest
  boundary_error : ∀ error ∈ e, ∃ rest, IsBoundary source error.position.offset rest
  /-- The text is laid out up to its end, or up to where the failing token begins. -/
  laid : ∃ d : Cursor, Laid d.rest 0 source.toList ls ∧
    IsBoundary source d.position.offset d.rest ∧ ¬ StartsTrivia d ∧
    (e = none → d.rest = [] ∧ ls.getLast?.map Lexeme.token = some endOfInput) ∧
    ∀ error ∈ e, next strict d = .error error

/-- Splitting a text into tokens comes to its end or to an error, and each character up to there is
part of one token or of the trivia between two. -/
theorem scan_lossless (strict : Bool) (source : String) :
    Lossless strict source (scan strict source).1 (scan strict source).2 := by
  have h := scans_scan strict source
  obtain ⟨d, hlaid, ⟨w, n, hwalk⟩, hbare, hend, herror⟩ := h.laid
  refine
    { scans := h
      calls := h.calls_le
      increasing := h.increasing.2
      boundaries := fun l hl => ?_
      boundary_error := fun error he => ?_
      laid := ⟨d, hlaid, isBoundary_of_walk hwalk, hbare, hend, herror⟩ }
  · obtain ⟨f, v, m, hto, hnext⟩ := h.exists_next hl
    obtain ⟨g, u, hskips, -, hstart, htoken, -⟩ := walk_next hnext
    obtain ⟨v', hblank⟩ := hskips.walk
    have hbefore := hto.trans hblank
    rw [hstart]
    exact ⟨⟨_, isBoundary_of_walk hbefore⟩, isBoundary_of_walk (hbefore.trans htoken)⟩
  · have hnext := herror error he
    rw [next_eq_readHere strict hbare] at hnext
    exact isBoundary_of_sees (hwalk.sees (sees_readHere hnext).2)

end Token

end ProtoScript
