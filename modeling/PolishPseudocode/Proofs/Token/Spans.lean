import Mathlib.Data.List.Forall2
import PolishPseudocode.Proofs.Token.Places
import PolishPseudocode.Proofs.Token.Recognition

/-! Where the tokens of a text are written. Each has its piece of a line, which starts at the place of the token and
spells it; the pieces follow each other, and every character outside them is blank or belongs to a comment. So
nothing of a text is lost. -/

namespace PolishPseudocode

/-- How a token of this kind is written. -/
inductive Token.Kind.IsWritten : Token.Kind → List Char → Prop
  | newLine : IsWritten .newLine []
  | indentation : IsWritten .indentation indentUnit
  | text {content : List Char} (closed : '"' ∉ content) :
      IsWritten (.text (String.ofList content)) ('"' :: (content ++ ['"']))
  | lexeme {kind : Token.Kind} {word : List Char} (matched : Lexeme.Matches (.token kind) word) : IsWritten kind word

/-- Places in the order of the text. -/
instance : Preorder Position where
  le p q := p.line < q.line ∨ p.line = q.line ∧ p.column ≤ q.column
  le_refl _ := .inr ⟨rfl, Nat.le_refl _⟩
  le_trans p q r h h' := by omega

namespace Position

theorem le_iff {p q : Position} : p ≤ q ↔ p.line < q.line ∨ p.line = q.line ∧ p.column ≤ q.column :=
  Iff.rfl

theorem lt_iff {p q : Position} : p < q ↔ p.line < q.line ∨ p.line = q.line ∧ p.column < q.column := by
  rw [lt_iff_le_not_ge, le_iff, le_iff]
  omega

theorem line_le {p q : Position} (h : p ≤ q) : p.line ≤ q.line := by
  rw [le_iff] at h
  omega

/-- Places of one line. -/
theorem mk_le_mk {line column column' : Nat} (h : column ≤ column') : (⟨line, column⟩ : Position) ≤ ⟨line, column'⟩ :=
  .inr ⟨rfl, h⟩

end Position

structure Span where
  line : Nat
  start : Nat
  stop : Nat

namespace Span

def position (s : Span) : Position :=
  ⟨s.line, s.start⟩

def behind (s : Span) : Position :=
  ⟨s.line, s.stop⟩

def text (source : Source) (s : Span) : List Char :=
  ((source.line s.line).take s.stop).drop s.start

def Covers (s : Span) (p : Position) : Prop :=
  s.line = p.line ∧ s.start ≤ p.column ∧ p.column < s.stop

/-- The second piece is behind the first one. On the same line it is not empty. -/
def Before (s s' : Span) : Prop :=
  s.line < s'.line ∨ s.line = s'.line ∧ s.stop ≤ s'.start ∧ s'.start < s'.stop

/-- The token is written in this piece of the source. A line break is the empty piece at the start of its line. -/
structure Holds (source : Source) (t : Token) (s : Span) : Prop where
  position : t.position = s.position
  start_le : s.start ≤ s.stop
  stop_le : s.stop ≤ source.lineLength s.line
  line_lt : s.line < source.lines.length
  written : t.kind.IsWritten (s.text source)
  newLine : t.kind = .newLine → s.start = 0 ∧ s.stop = 0

/-- A place between the start of the piece and the place behind it. -/
theorem covers_of_le {s : Span} {p : Position} (h : s.position ≤ p) (hbehind : ¬ s.behind ≤ p) : s.Covers p := by
  rw [Position.le_iff] at h hbehind
  simp only [position, behind] at h hbehind
  rw [Covers]
  omega

theorem before_of_le {s s' : Span} (h : s.behind ≤ s'.position) (hpos : s'.start < s'.stop ∨ s.line < s'.line) :
    s.Before s' := by
  rw [Position.le_iff] at h
  simp only [position, behind] at h
  rw [Before]
  omega

end Span

namespace Source

/-- The character at the place is blank. -/
def BlankAt (source : Source) (p : Position) : Prop :=
  ∃ c, (source.line p.line)[p.column]? = some c ∧ isBlank c = true

/-- The place belongs to the comment that starts in this column of its line and runs to the end of the line. -/
structure InComment (source : Source) (spans : List Span) (start : Nat) (p : Position) : Prop where
  le : start ≤ p.column
  hash : (source.line p.line)[start]? = some '#'
  last : ∀ s ∈ spans, s.line = p.line → s.stop ≤ start

end Source

/-! ### Moves -/

namespace Cursor

/-- A cursor that only moved forward: on a line it has just come to, it is at the start. -/
structure Forward (source : Source) (c : Cursor) : Prop extends c.Within source where
  entered : c.crossed = true → c.column = 0

/-- The cursor came to this place of a line, or to the start of the next line if the line does not go on there. -/
structure CameTo (source : Source) (p : Position) (c : Cursor) : Prop where
  le : p ≤ c.position
  reach : ∀ q, source.Has q → p ≤ q → c.position ≤ q
  entered : c.crossed = true → p.line < c.line

variable {source : Source} {c : Cursor}

theorem start_forward (source : Source) : Cursor.start.Forward source :=
  ⟨start_within source, fun h => by cases h⟩

theorem Forward.inLine (h : c.Forward source) : c.inLine.Forward source :=
  ⟨⟨h.line, h.column⟩, h.entered⟩

theorem Forward.advance (h : c.Forward source) (hline : c.line < source.lines.length) (count : Nat) :
    (c.advance source count).Forward source := by
  refine ⟨h.toWithin.advance count, ?_⟩
  rw [Cursor.advance, setColumn, if_neg (Nat.not_le.2 hline)]
  split
  · exact fun _ => rfl
  · exact fun hcrossed => Bool.noConfusion hcrossed

theorem cameTo_advance (hline : c.line < source.lines.length) (count : Nat) :
    CameTo source ⟨c.line, c.column + count⟩ (c.advance source count) := by
  rw [Cursor.advance, setColumn, if_neg (Nat.not_le.2 hline)]
  split
  · rename_i hlength
    refine ⟨.inl (Nat.lt_succ_self _), fun q hq hle => ?_, fun _ => Nat.lt_succ_self _⟩
    -- There is no character behind the end of the line, so the place is on a later one.
    rcases hle with hlt | ⟨heq, hle⟩
    · rcases Nat.eq_or_lt_of_le hlt with heq | hlt
      · exact .inr ⟨heq, Nat.zero_le _⟩
      · exact .inl hlt
    · rw [Source.Has, ← heq] at hq
      exact absurd (Nat.lt_of_lt_of_le hq hlength) (Nat.not_lt.2 hle)
  · exact ⟨Preorder.le_refl _, fun q _ hle => hle, fun hcrossed => Bool.noConfusion hcrossed⟩

end Cursor

/-! ### Tokens from a cursor on -/

/-- From a cursor on, the source is these tokens, each in its piece, and otherwise blanks and comments. A piece
without a character, that of a line break, is ahead only where the cursor has just come to the line, or on a later
line. -/
structure Tiled (source : Source) (c : Cursor) (tokens : List Token) (spans : List Span) : Prop where
  holds : List.Forall₂ (Span.Holds source) tokens spans
  ordered : spans.Pairwise Span.Before
  ahead : ∀ s ∈ spans, c.position ≤ s.position ∧ (s.start < s.stop ∨ c.crossed = true ∨ c.line < s.line)
  whole : ∀ p, source.Has p → c.position ≤ p → (∃ s ∈ spans, s.Covers p) ∨ source.BlankAt p
    ∨ ∃ start, c.position ≤ ⟨p.line, start⟩ ∧ source.InComment spans start p

namespace Tiled

variable {source : Source} {c after : Cursor} {tokens : List Token} {spans : List Span} {place : Position}

/-- At the end of the source there is nothing. -/
theorem nil (h : ¬ c.hasMore source = true) : Tiled source c [] [] where
  holds := .nil
  ordered := .nil
  ahead := List.forall_mem_nil _
  whole := fun p hp hle => by
    have hline := hp.line_lt
    rw [Cursor.hasMore, Bool.and_eq_true, decide_eq_true_eq, Bool.not_eq_true', not_and_or, Bool.not_eq_false] at h
    rcases h with hend | hempty
    · exact absurd (Nat.lt_of_le_of_lt (Position.line_le hle) hline) hend
    · -- An empty text has no character.
      have hlines : source.lines = [[]] := eq_of_beq hempty
      rw [hlines] at hline
      have hfirst : p.line = 0 := Nat.lt_one_iff.1 hline
      rw [Source.Has, Source.lineLength, Source.line, hlines, hfirst] at hp
      exact absurd hp (Nat.not_lt_zero _)

/-- The pieces behind a cursor are behind the place that it came to. -/
theorem behind (h : Tiled source after tokens spans) (hcame : after.CameTo source place) {s : Span} (hs : s ∈ spans) :
    place ≤ s.position ∧ (s.start < s.stop ∨ place.line < s.line) := by
  obtain ⟨hle, hahead⟩ := h.ahead s hs
  have hplace := hcame.le
  refine ⟨hplace.trans hle, ?_⟩
  rcases hahead with hpos | hcrossed | hlt
  · exact .inl hpos
  · exact .inr (Nat.lt_of_lt_of_le (hcame.entered hcrossed) (Position.line_le hle))
  · exact .inr (Nat.lt_of_le_of_lt (Position.line_le hplace) hlt)

/-- The same, seen from a cursor in front of the place on its line. -/
theorem ahead_of_cameTo (h : Tiled source after tokens spans) (hcame : after.CameTo source place)
    (hplace : c.position ≤ place) (hline : c.line = place.line) :
    ∀ s ∈ spans, c.position ≤ s.position ∧ (s.start < s.stop ∨ c.crossed = true ∨ c.line < s.line) := by
  intro s hs
  obtain ⟨hle, hahead⟩ := h.behind hcame hs
  rw [← hline] at hahead
  exact ⟨hplace.trans hle, hahead.imp_right .inr⟩

/-- Something is passed over that is no token. -/
theorem skip (h : Tiled source after tokens spans) (hcame : after.CameTo source place) (hplace : c.position ≤ place)
    (hline : c.line = place.line) (hskip : ∀ p, source.Has p → c.position ≤ p → ¬ place ≤ p → source.BlankAt p
      ∨ ∃ start, c.position ≤ ⟨p.line, start⟩ ∧ source.InComment spans start p) : Tiled source c tokens spans := by
  refine ⟨h.holds, h.ordered, h.ahead_of_cameTo hcame hplace hline, fun p hp hcp => ?_⟩
  by_cases hbehind : place ≤ p
  · rcases h.whole p hp (hcame.reach p hp hbehind) with hcovered | hblank | ⟨start, hstart, hcomment⟩
    · exact .inl hcovered
    · exact .inr (.inl hblank)
    · exact .inr (.inr ⟨start, (hplace.trans hcame.le).trans hstart, hcomment⟩)
  · exact .inr (hskip p hp hcp hbehind)

theorem skip_blanks (h : Tiled source after tokens spans) {stop : Nat} (hcame : after.CameTo source ⟨c.line, stop⟩)
    (hstop : c.column ≤ stop) (hblank : ∀ column, c.column ≤ column → column < stop → source.BlankAt ⟨c.line, column⟩) :
    Tiled source c tokens spans := by
  refine h.skip hcame (Position.mk_le_mk hstop) rfl fun p hp hcp hbehind => ?_
  obtain ⟨hline, hle, hlt⟩ := Span.covers_of_le (s := ⟨c.line, c.column, stop⟩) hcp hbehind
  have hat := hblank p.column hle hlt
  rw [show c.line = p.line from hline] at hat
  exact .inl hat

/-- A comment, behind which the cursor came to a later line. -/
theorem skip_comment (h : Tiled source after tokens spans) {stop : Nat} (hcame : after.CameTo source ⟨c.line, stop⟩)
    (hstop : c.column ≤ stop) (hhash : (source.line c.line)[c.column]? = some '#') (hnext : c.line < after.line) :
    Tiled source c tokens spans := by
  refine h.skip hcame (Position.mk_le_mk hstop) rfl fun p hp hcp hbehind => ?_
  obtain ⟨hline, hle, -⟩ := Span.covers_of_le (s := ⟨c.line, c.column, stop⟩) hcp hbehind
  replace hline : c.line = p.line := hline
  refine .inr ⟨c.column, ?_, hle, hline ▸ hhash, fun s hs hsame => ?_⟩
  · rw [← hline]
    exact Preorder.le_refl c.position
  · -- All pieces that follow are on later lines.
    have hlater : after.line ≤ s.line := Position.line_le (h.ahead s hs).1
    omega

/-- A token in front. Only a line break takes no character. -/
theorem cons (h : Tiled source after tokens spans) {t : Token} {s : Span} (hcame : after.CameTo source s.behind)
    (hs : s.Holds source t) (hposition : s.position = c.position) (hne : s.start < s.stop ∨ c.crossed = true) :
    Tiled source c (t :: tokens) (s :: spans) := by
  have hplace : c.position ≤ s.behind := hposition ▸ Position.mk_le_mk hs.start_le
  have hline : c.line = s.behind.line := (congrArg Position.line hposition).symm
  refine ⟨.cons hs h.holds, List.pairwise_cons.2 ⟨fun s' hs' => ?_, h.ordered⟩, ?_, fun p hp hcp => ?_⟩
  · obtain ⟨hle, hahead⟩ := h.behind hcame hs'
    exact Span.before_of_le hle hahead
  · refine List.forall_mem_cons.2 ⟨⟨?_, hne.imp_right .inl⟩, h.ahead_of_cameTo hcame hplace hline⟩
    rw [hposition]
  · by_cases hbehind : s.behind ≤ p
    · rcases h.whole p hp (hcame.reach p hp hbehind) with ⟨s', hs', hcovers⟩ | hblank | ⟨start, hafter, hcomment⟩
      · exact .inl ⟨s', List.mem_cons_of_mem s hs', hcovers⟩
      · exact .inr (.inl hblank)
      · refine .inr (.inr ⟨start, (hplace.trans hcame.le).trans hafter, hcomment.le, hcomment.hash, ?_⟩)
        refine List.forall_mem_cons.2 ⟨fun hsame => ?_, hcomment.last⟩
        have hfirst : s.behind ≤ ⟨p.line, start⟩ := hcame.le.trans hafter
        rw [Position.le_iff] at hfirst
        simp only [Span.behind] at hfirst
        omega
    · refine .inl ⟨s, List.mem_cons_self, Span.covers_of_le ?_ hbehind⟩
      rwa [hposition]

end Tiled

/-! ### Pulls -/

namespace Lexeme

theorem Matches.ne_newLine {kind : Token.Kind} {word : List Char} (h : Matches (.token kind) word) :
    kind ≠ .newLine := by
  rintro rfl
  cases h with
  | fixed spelling => cases spelling

theorem head_of_comment {rest : List Char} {found : Found} (h : recognise rest = some found)
    (hcomment : found.lexeme = .comment) : rest.head? = some '#' := by
  have hmem := mem_candidates_of_recognise h
  rw [hcomment] at hmem
  rcases List.mem_append.1 hmem with hmem | hmem
  · obtain ⟨word, -, hword⟩ := List.mem_map.1 hmem
    cases (Prod.ext_iff.1 hword).2
  · obtain ⟨hmem, hpos⟩ := List.mem_filter.1 hmem
    by_contra hhead
    have hzero : found.length = 0 := by
      simpa [blankMatch, commentMatch, numeralMatch, identifierMatch, hhead] using hmem
    rw [hzero] at hpos
    cases hpos

end Lexeme

theorem quote_notMem_takeWhile {body : List Char} : '"' ∉ body.takeWhile (· != '"') := fun h =>
  absurd (List.mem_takeWhile_imp h) (by decide)

/-- Where the characters up to a quote are not all, there is a quote. -/
theorem exists_quote {body : List Char} (h : (body.takeWhile (· != '"')).length < body.length) :
    ∃ behind, body = body.takeWhile (· != '"') ++ '"' :: behind := by
  induction body with
  | nil => cases h
  | cons c body ih =>
      by_cases hc : c = '"'
      · subst hc
        exact ⟨body, rfl⟩
      · rw [List.takeWhile_cons_of_pos (by simpa using hc)] at h ⊢
        obtain ⟨behind, hbody⟩ := ih (Nat.lt_of_succ_lt_succ h)
        exact ⟨behind, congrArg (List.cons c) hbody⟩

namespace Cursor

variable {source : Source} {c after : Cursor}

/-- The piece of the next `count` characters of the line. -/
def span (c : Cursor) (count : Nat) : Span :=
  ⟨c.line, c.column, c.column + count⟩

theorem text_span (count : Nat) : (c.span count).text source = (c.rest source).take count := by
  rw [Span.text, List.drop_take, span, Nat.add_sub_cancel_left]
  rfl

theorem length_rest : (c.rest source).length = source.lineLength c.line - c.column :=
  List.length_drop

/-- A token that the next characters spell. -/
theorem holds_span (hhas : source.Has c.position) {kind : Token.Kind} {count : Nat}
    (hcount : count ≤ (c.rest source).length) (hwritten : kind.IsWritten ((c.rest source).take count))
    (hkind : kind ≠ .newLine) : (c.span count).Holds source ⟨kind, c.position⟩ where
  position := rfl
  start_le := Nat.le_add_right _ _
  stop_le := by
    have hcolumn : c.column < source.lineLength c.line := hhas
    rw [length_rest] at hcount
    change c.column + count ≤ source.lineLength c.line
    omega
  line_lt := hhas.line_lt
  written := by
    rw [text_span]
    exact hwritten
  newLine := fun h => absurd h hkind

/-- Blanks at the cursor. -/
theorem blankAt_of_all {count : Nat} (hcount : count ≤ (c.rest source).length)
    (hall : ((c.rest source).take count).all isBlank = true) :
    ∀ column, c.column ≤ column → column < c.column + count → source.BlankAt ⟨c.line, column⟩ := by
  intro column hle hlt
  have hindex : column - c.column < ((c.rest source).take count).length := by
    rw [List.length_take]
    omega
  refine ⟨((c.rest source).take count)[column - c.column], ?_, List.all_eq_true.1 hall _ (List.getElem_mem hindex)⟩
  rw [← List.getElem?_eq_getElem hindex, List.getElem?_take_of_lt (by omega), rest, List.getElem?_drop,
    Nat.add_sub_of_le hle]

/-- What a pull leaves to the cursor behind it: a token is put in front of what the source is made of from there on,
and at the end nothing is left. -/
def Tiles (source : Source) (c : Cursor) : Pull × Cursor → Prop
  | (.token t, after) => after.Forward source
      ∧ ∀ tokens spans, Tiled source after tokens spans → ∃ s, Tiled source c (t :: tokens) (s :: spans)
  | (.finished, _) => Tiled source c [] []
  | (.failed _, _) => True

/-- Something is passed over before the pull. -/
theorem Tiles.of_skip {pull : Pull × Cursor} (h : after.Tiles source pull)
    (hskip : ∀ tokens spans, Tiled source after tokens spans → Tiled source c tokens spans) : c.Tiles source pull := by
  obtain ⟨pull, after'⟩ := pull
  cases pull with
  | token t =>
      refine ⟨h.1, fun tokens spans htiled => ?_⟩
      obtain ⟨s, hs⟩ := h.2 tokens spans htiled
      exact ⟨s, hskip _ _ hs⟩
  | finished => exact hskip _ _ h
  | failed e => trivial

/-- A token that the next characters spell is put in front. -/
theorem tiles_token (hhas : source.Has c.position) {kind : Token.Kind} {count : Nat} (hpos : 0 < count)
    (hcount : count ≤ (c.rest source).length) (hwritten : kind.IsWritten ((c.rest source).take count))
    (hkind : kind ≠ .newLine) (hafter : after.Forward source)
    (hcame : after.CameTo source ⟨c.line, c.column + count⟩) :
    c.Tiles source (.token ⟨kind, c.position⟩, after) := by
  refine ⟨hafter, fun tokens spans htiled => ⟨c.span count, ?_⟩⟩
  exact htiled.cons hcame (holds_span hhas hcount hwritten hkind) rfl (.inl (Nat.lt_add_of_pos_right hpos))

theorem tiles_newLine (h : c.Forward source) (hhas : source.Has c.position) (hcrossed : c.crossed = true) :
    c.Tiles source (.token ⟨.newLine, c.position⟩, { c with crossed := false, afterNewLine := true }) := by
  have hcolumn := h.entered hcrossed
  refine ⟨⟨⟨h.line, h.column⟩, fun hfalse => by cases hfalse⟩, fun tokens spans htiled => ⟨c.span 0, ?_⟩⟩
  have hcame : CameTo source (c.span 0).behind { c with crossed := false, afterNewLine := true } :=
    ⟨Preorder.le_refl c.position, fun q _ hle => hle, fun hfalse => by cases hfalse⟩
  refine htiled.cons hcame ⟨rfl, Nat.le_refl _, Nat.le_of_lt hhas, hhas.line_lt, ?_, fun _ => ⟨hcolumn, hcolumn⟩⟩ rfl
    (.inr hcrossed)
  rw [text_span]
  exact .newLine

theorem tiles_readText (h : c.Forward source) (hhas : source.Has c.position)
    (hquote : (c.rest source).head? = some '"') : c.Tiles source (c.readText source ((c.rest source).drop 1)) := by
  obtain ⟨body, hrest⟩ := List.head?_eq_some_iff.1 hquote
  rw [readText, hrest, List.drop_one, List.tail_cons]
  dsimp only
  split
  · rename_i hclosed
    obtain ⟨behind, hbody⟩ := exists_quote hclosed
    have htake : (c.rest source).take ((body.takeWhile (· != '"')).length + 2)
        = '"' :: (body.takeWhile (· != '"') ++ ['"']) := by
      rw [hrest, List.take_succ_cons]
      nth_rewrite 2 [hbody]
      rw [List.take_length_add_append]
      rfl
    have hcount : (body.takeWhile (· != '"')).length + 2 ≤ (c.rest source).length := by
      rw [hrest, List.length_cons]
      omega
    refine tiles_token hhas (Nat.succ_pos _) hcount ?_ (by simp) (h.advance hhas.line_lt _)
      (cameTo_advance hhas.line_lt _)
    rw [htake]
    exact .text quote_notMem_takeWhile
  · trivial

/-- What a pull gives from a cursor that only moved forward. -/
theorem Forward.tiles_next (h : c.Forward source) : c.Tiles source (c.next source) := by
  fun_induction Cursor.next source c with
  | case1 c hmore line hbreak =>
      obtain ⟨hcrossed, hsignificant⟩ := Bool.and_eq_true_iff.1 hbreak
      exact tiles_newLine h (h.toWithin.has (isEmpty_eq_false_of_isSignificant hsignificant)) hcrossed
  | case2 c hmore line hbreak hempty ih =>
      have hline := line_lt_of_hasMore hmore
      refine (ih (h.advance hline 1)).of_skip fun tokens spans htiled => ?_
      have hplace : c.position ≤ ⟨c.line, c.column + 1⟩ := Position.mk_le_mk (Nat.le_add_right _ _)
      refine htiled.skip (cameTo_advance hline 1) hplace rfl fun p hp hcp hbehind => ?_
      -- An empty line has no character.
      obtain ⟨hsame, -⟩ := Span.covers_of_le (s := ⟨c.line, c.column, c.column + 1⟩) hcp hbehind
      have hnil : source.line c.line = [] := List.isEmpty_iff.1 hempty
      rw [Source.Has, Source.lineLength, ← show c.line = p.line from hsame, hnil] at hp
      exact absurd hp (Nat.not_lt_zero _)
  | case3 c hmore line hbreak hempty hindent =>
      have hhas := h.toWithin.has (by simpa using hempty)
      have hafter := h.advance hhas.line_lt indentUnit.length
      have hcame := cameTo_advance (c := c) hhas.line_lt indentUnit.length
      have hstarts := List.isPrefixOf_iff_prefix.1 (Bool.and_eq_true_iff.1 hindent).2
      refine tiles_token hhas (by decide) hstarts.length_le ?_ (by simp) ⟨⟨hafter.line, hafter.column⟩, hafter.entered⟩
        ⟨hcame.le, hcame.reach, hcame.entered⟩
      rw [← List.prefix_iff_eq_take.1 hstarts]
      exact .indentation
  | case4 c hmore line hbreak hempty hindent hquote =>
      refine (tiles_readText h.inLine (h.toWithin.has (by simpa using hempty)) hquote).of_skip fun _ _ htiled => ?_
      exact ⟨htiled.holds, htiled.ordered, htiled.ahead, htiled.whole⟩
  | case5 => trivial
  | case6 c hmore line hbreak hempty hindent hquote found hfound kind hkind =>
      have hhas := h.toWithin.has (by simpa using hempty)
      have hmem := Lexeme.mem_candidates_of_recognise hfound
      rw [hkind] at hmem
      obtain ⟨hcount, hmatch⟩ := Lexeme.matches_of_mem_candidates (fun hcomment => by cases hcomment) hmem
      exact tiles_token hhas found.length_pos hcount (.lexeme hmatch) hmatch.ne_newLine
        (h.inLine.advance hhas.line_lt _) (cameTo_advance (c := c.inLine) hhas.line_lt _)
  | case7 c hmore line hbreak hempty hindent hquote found hfound hkind ih =>
      have hhas := h.toWithin.has (by simpa using hempty)
      have hline := hhas.line_lt
      have hcame := cameTo_advance (c := c.inLine) hline found.length
      refine (ih (h.inLine.advance hline _)).of_skip fun tokens spans htiled => ?_
      rcases Lexeme.recognise_cases hfound with ⟨hblank, hall⟩ | ⟨hcomment, hlength⟩ | ⟨kind, htoken, -⟩
      · have hmem := Lexeme.mem_candidates_of_recognise hfound
        rw [hblank] at hmem
        have hcount := (Lexeme.matches_of_mem_candidates (fun hcomment => by cases hcomment) hmem).1
        exact htiled.skip_blanks hcame (Nat.le_add_right _ _) (blankAt_of_all hcount hall)
      · refine htiled.skip_comment hcame (Nat.le_add_right _ _) ?_ ?_
        · rw [← Nat.add_zero c.column, ← List.getElem?_drop, ← List.head?_eq_getElem?]
          exact Lexeme.head_of_comment hfound hcomment
        · -- A comment leaves nothing of its line.
          have hcolumn : c.column < source.lineLength c.line := hhas
          have hwhole : source.lineLength c.line ≤ c.column + (source.lineLength c.line - c.column) := by omega
          rw [hlength, length_rest, advance_of_le (c := c.inLine) hline hwhole]
          exact Nat.lt_succ_self _
      · exact absurd htoken (hkind kind)
  | case8 c hmore => exact .nil hmore

end Cursor

/-! ### The whole text -/

/-- All tokens from a cursor on, where no error ends them. -/
theorem Stream.exists_tiled {source : Source} {c c' : Cursor} (h : c.Forward source)
    (hending : (ofCursor source c).ending = .finished c') :
    ∃ spans, Tiled source c ((ofCursor source c).tokens.map Lexed.token) spans := by
  have hnext := h.tiles_next
  fun_induction Stream.ofCursor source c with
  | case1 c token after hpull rest ih =>
      rw [hpull] at hnext
      obtain ⟨spans, htiled⟩ := ih hnext.1 hending hnext.1.tiles_next
      obtain ⟨s, hs⟩ := hnext.2 _ _ htiled
      exact ⟨_, hs⟩
  | case2 c after hpull =>
      rw [hpull] at hnext
      exact ⟨[], hnext⟩
  | case3 c error after hpull => cases hending

/-- Where a text consists of tokens to its end, every token has its piece of a line, in the order of the text, which
starts at its place and spells it. A character of no piece is blank, or it belongs to a comment up to the end of its
line. -/
theorem written_of_finished {source : Source} {c : Cursor} (h : (Stream.ofSource source).ending = .finished c) :
    ∃ spans, List.Forall₂ (Span.Holds source) ((Stream.ofSource source).tokens.map Lexed.token) spans
      ∧ spans.Pairwise Span.Before
      ∧ ∀ p, source.Has p → (∃ s ∈ spans, s.Covers p) ∨ source.BlankAt p ∨ ∃ start, source.InComment spans start p := by
  obtain ⟨spans, htiled⟩ := Stream.exists_tiled (Cursor.start_forward source) h
  refine ⟨spans, htiled.holds, htiled.ordered, fun p hp => ?_⟩
  have hstart : Cursor.start.position ≤ p := by
    rcases Nat.eq_zero_or_pos p.line with hzero | hpos
    · exact .inr ⟨hzero.symm, Nat.zero_le _⟩
    · exact .inl hpos
  exact (htiled.whole p hp hstart).imp_right (.imp_right fun ⟨start, _, hcomment⟩ => ⟨start, hcomment⟩)

/-- A hash in quotes, a comment behind a tab, an empty line and an indented one. -/
theorem written_of_finished_hash :
    let source := Source.ofText "wypisz \"ż # ż\"\t# 1.5\n\n    x <- 1.50"
    let stream := Stream.ofSource source
    stream.ending = .finished ⟨3, 0, true, false, false⟩ ∧ stream.tokens.length = 7
      ∧ ∃ spans, List.Forall₂ (Span.Holds source) (stream.tokens.map Lexed.token) spans ∧ spans.Pairwise Span.Before
        ∧ ∀ p, source.Has p →
          (∃ s ∈ spans, s.Covers p) ∨ source.BlankAt p ∨ ∃ start, source.InComment spans start p := by
  intro source stream
  have hending : stream.ending = .finished ⟨3, 0, true, false, false⟩ := by decide +kernel
  exact ⟨hending, by decide +kernel, written_of_finished hending⟩

end PolishPseudocode
