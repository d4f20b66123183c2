import Mathlib.Data.List.Induction
import PolishPseudocode.Proofs.Program.Insertion

/-! A comment in a line of its own. At the start of its line it has no tokens. Behind blanks, it is a line of its own
for the layout: an indented one belongs to a block, if one is open, and one that is not indented ends all blocks. -/

namespace PolishPseudocode

namespace Reading

variable {r : Reading}

/-! ### The last line -/

/-- The tokens behind the last line break. -/
def lastLine : List Lexed → List Lexed
  | [] => []
  | t :: tokens =>
      if t.token.kind == .newLine || tokens.any (·.token.kind == .newLine) then lastLine tokens else t :: tokens

theorem lastLine_append (before : List Lexed) {nl : Lexed} (h : nl.token.kind = .newLine) (behind : List Lexed) :
    lastLine (before ++ nl :: behind) = lastLine behind := by
  induction before with
  | nil =>
      rw [List.nil_append, lastLine, h]
      rfl
  | cons t before ih =>
      have hany : (before ++ nl :: behind).any (·.token.kind == .newLine) = true := by
        simp [h]
      rw [List.cons_append, lastLine, hany, Bool.or_true]
      exact ih

theorem lastLine_of_suffix {nl : Lexed} {behind tokens : List Lexed} (hnl : nl.token.kind = .newLine)
    (h : nl :: behind <:+ tokens) : lastLine behind = lastLine tokens := by
  obtain ⟨before, rfl⟩ := h
  exact (lastLine_append before hnl behind).symm

theorem lastLine_of_forall {tokens : List Lexed} (h : ∀ t ∈ tokens, t.token.kind ≠ .newLine) :
    lastLine tokens = tokens := by
  cases tokens with
  | nil => rfl
  | cons t tokens =>
      have hany : ¬ (t :: tokens).any (·.token.kind == .newLine) = true := by
        rw [List.any_eq_true]
        rintro ⟨t', ht', hkind⟩
        exact h t' ht' (eq_of_beq hkind)
      rw [List.any_cons] at hany
      rw [lastLine, if_neg hany]

/-- There is no line break in the last line, and one before it unless there is none at all. -/
theorem eq_lastLine_or (tokens : List Lexed) :
    (∀ t ∈ lastLine tokens, t.token.kind ≠ .newLine)
      ∧ (tokens = lastLine tokens
        ∨ ∃ before nl, nl.token.kind = .newLine ∧ tokens = before ++ nl :: lastLine tokens) := by
  induction tokens with
  | nil =>
      refine ⟨fun t ht => ?_, .inl rfl⟩
      cases ht
  | cons t tokens ih =>
      obtain ⟨hline, htokens⟩ := ih
      by_cases hany : (t.token.kind == .newLine || tokens.any (·.token.kind == .newLine)) = true
      · rw [lastLine, if_pos hany]
        refine ⟨hline, .inr ?_⟩
        rcases htokens with htokens | ⟨before, nl, hnl, htokens⟩
        · have hnone : tokens.any (·.token.kind == .newLine) = false := by
            rw [List.any_eq_false]
            intro t' ht' hkind
            rw [htokens] at ht'
            exact hline t' ht' (eq_of_beq hkind)
          rw [hnone, Bool.or_false] at hany
          exact ⟨[], t, eq_of_beq hany, congrArg (t :: ·) htokens⟩
        · exact ⟨t :: before, nl, hnl, congrArg (t :: ·) htokens⟩
      · rw [← List.any_cons (f := fun t : Lexed => t.token.kind == .newLine), List.any_eq_true] at hany
        have hnone : ∀ t' ∈ t :: tokens, t'.token.kind ≠ .newLine :=
          fun t' ht' hkind => hany ⟨t', ht', beq_iff_eq.2 hkind⟩
        rw [lastLine_of_forall hnone]
        exact ⟨hnone, .inl rfl⟩

theorem flush_iff {tokens : List Lexed} (h : AtBreak tokens) :
    Flush tokens ↔ tokens.tail.head?.all (fun t => t.token.kind.staysOutside) = true := by
  have houtside (t : Lexed) : t.token.kind.staysOutside = true ↔ t.isIndentation = false ∧ t.isElse = false := by
    rw [Token.Kind.staysOutside, Bool.and_eq_true, bne_iff_ne, bne_iff_ne, Lexed.isIndentation, Lexed.isElse,
      beq_eq_false_iff_ne, beq_eq_false_iff_ne]
  constructor
  · intro hflush
    cases tokens with
    | nil => rfl
    | cons nl tokens =>
        cases tokens with
        | nil => rfl
        | cons next rest => exact (houtside next).2 (hflush.outside nl next rest rfl)
  · intro hall
    refine ⟨h, ?_⟩
    rintro nl next rest rfl
    exact (houtside next).1 hall

/-! ### An indented line with nothing in it -/

section

variable {behind indents : List Lexed} {nl : Lexed}

/-- The lines of a block pass over it. -/
theorem body_indents (hr : r.Settles) (hbehind : AtBreak behind) (hindents : ∀ t ∈ indents, t.isIndentation = true)
    (hsome : indents ≠ []) (level : Nat) (inFunction : Bool) :
    r.body level inFunction nl (indents ++ behind) = r.onward level inFunction behind := by
  cases indents with
  | nil => exact absurd rfl hsome
  | cons first indents =>
      have hdrop : (indents ++ behind).dropWhile Lexed.isIndentation = behind := by
        have hall : ∀ t ∈ indents, t.isIndentation = true := fun t ht => hindents t (List.mem_cons_of_mem first ht)
        rw [(indentations_append hbehind indents).2, List.dropWhile_eq_nil_iff.2 hall, List.nil_append]
      rw [List.cons_append, body_of_isIndentation r level inFunction nl (hindents first List.mem_cons_self), hdrop,
        hr behind]
      exact line_of_atBreak r level inFunction nl _ _ hbehind

theorem onward_indents (hr : r.Settles) (hbehind : AtBreak behind) (hnl : nl.token.kind = .newLine)
    (hindents : ∀ t ∈ indents, t.isIndentation = true) (hsome : indents ≠ []) (level : Nat) (inFunction : Bool) :
    r.onward level inFunction (nl :: (indents ++ behind)) = r.onward level inFunction behind := by
  rw [onward_newLine r level inFunction hnl, hr (indents ++ behind)]
  exact body_indents hr hbehind hindents hsome level inFunction

theorem persists_passed_refl {α : Type} (outcome : Except SyntaxError (α × List Lexed)) :
    Persists (Passed (· = ·)) outcome outcome := by
  cases outcome with
  | error e => trivial
  | ok p => exact ⟨rfl, rfl⟩

/-- Where a block is open, it makes no difference. -/
theorem indents_seam (hr : r.Settles) (hbehind : AtBreak behind) (hnl : nl.token.kind = .newLine)
    (hindents : ∀ t ∈ indents, t.isIndentation = true) (hsome : indents ≠ []) :
    Seam r r behind (nl :: (indents ++ behind)) (· = ·) where
  settles := hr
  atFront := hbehind
  atMore := beq_iff_eq.2 hnl
  onward := by
    intro _ level inFunction
    rw [onward_indents hr hbehind hnl hindents hsome]
    exact persists_passed_refl _
  block := by
    intro level inFunction
    rw [nextBlock_newLine r level inFunction hnl, body_indents hr hbehind hindents hsome, hr (indents ++ behind)]
    cases behind with
    | nil =>
        rw [nextBlock_nil]
        trivial
    | cons first after =>
        rw [nextBlock_newLine r level inFunction hbehind.kind, onward_newLine r level inFunction hbehind.kind,
          hr after]
        exact persists_passed_refl _
  pastOnward := by
    rintro rest _ rfl level inFunction
    exact persists_passed_refl _
  pastOtherwise := by
    rintro rest _ rfl level inFunction
    exact persists_passed_refl _

/-- A token at the start of the last line of which a block is open. -/
def leavesOpen (kind : Token.Kind) : Bool :=
  kind == .indentation || kind.opensBlock

/-- A program with such a line is the same program, if a block is open where the line stands. -/
theorem statements_indents (hr : r.Settles) (hbehind : AtBreak behind) (hnl : nl.token.kind = .newLine)
    (hindents : ∀ t ∈ indents, t.isIndentation = true) (hsome : indents ≠ []) (tokens : List Lexed)
    (hopen : (lastLine tokens).head?.any (fun t => leavesOpen t.token.kind) = true) :
    Persists (· = ·) (r.statements (tokens ++ behind)) (r.statements (tokens ++ nl :: (indents ++ behind))) := by
  have hseam := indents_seam hr hbehind hnl hindents hsome
  cases tokens with
  | nil => cases hopen
  | cons next tokens =>
      by_cases hnext : next.token.kind = .newLine
      · have hlast : lastLine (next :: tokens) = lastLine tokens := lastLine_append [] hnext tokens
        rw [hlast] at hopen
        rw [List.cons_append, List.cons_append, statements_newLine r hnext, statements_newLine r hnext, hr _, hr _]
        exact statements_indents hr hbehind hnl hindents hsome tokens hopen
      · have hstop : EndsInBreak tokens → StopsAlike r r behind (nl :: (indents ++ behind)) (· = ·) := by
          rintro ⟨last, hlast, hsuffix⟩
          have hnone := lastLine_of_suffix hlast (hsuffix.trans (List.suffix_cons next tokens))
          rw [← hnone] at hopen
          cases hopen
        rw [List.cons_append, List.cons_append, statements_cons r hnext, statements_cons r hnext]
        have hstatement := statement_splits hseam 0 false next tokens hstop
        cases hp : r.nextStatement 0 false next (tokens ++ behind) with
        | error e => trivial
        | ok p =>
            rw [hp] at hstatement
            obtain ⟨⟨s, rest'⟩, hp', hvalue, hleft⟩ := hstatement.exists_of_ok
            rw [hp']
            obtain ⟨_, rest⟩ := p
            dsimp only at hvalue hleft
            subst hvalue
            have hfurther : Persists (· = ·) (r.further rest) (r.further rest') := by
              rcases hleft with hleft | ⟨-, -, -, hplain, hline⟩
              · cases hleft with
                | past hpast =>
                    subst hpast
                    cases r.further rest with
                    | error e => trivial
                    | ok others => rfl
                | @ahead first left hleft =>
                    have hle := hleft.length_le
                    rw [List.length_cons] at hle
                    cases hf : r.further (first :: left ++ behind) with
                    | error e => trivial
                    | ok others =>
                        have hfirst : first.token.kind = .newLine := newLine_of_consume r hf
                        have hlast := lastLine_of_suffix hfirst (hleft.trans (List.suffix_cons next tokens))
                        rw [← hlast] at hopen
                        rw [← hf, List.cons_append, List.cons_append, further_newLine r hfirst,
                          further_newLine r hfirst, statements_newLine r hfirst, statements_newLine r hfirst, hr _,
                          hr _]
                        exact statements_indents hr hbehind hnl hindents hsome left hopen
              · -- The last line is a statement without a block, so it leaves none open.
                have hall : ∀ t ∈ next :: tokens, t.token.kind ≠ .newLine := List.forall_mem_cons.2 ⟨hnext, hline⟩
                rw [lastLine_of_forall hall, List.head?_cons, Option.any_some, leavesOpen, hplain,
                  Bool.or_false] at hopen
                rw [nextStatement_eq, eq_of_beq hopen] at hp
                cases hp
            exact hfurther.bind fun others others' hothers => congrArg (s :: ·) hothers
termination_by tokens.length
decreasing_by
  all_goals subst_vars
  all_goals simp only [List.length_cons] at *
  all_goals omega

/-- The last line of what is before is read alone, if it is neither of a block nor another branch. -/
theorem exists_statements_lastLine (hr : r.Settles) {tokens more : List Lexed} (hmore : AtBreak more)
    (hhead : (lastLine tokens).head?.all (fun t => t.token.kind.staysOutside) = true) {program : Program}
    (h : r.statements (tokens ++ more) = .ok program) :
    ∃ program', r.statements (lastLine tokens ++ more) = .ok program' := by
  obtain ⟨-, htokens | ⟨before, nl, hnl, htokens⟩⟩ := eq_lastLine_or tokens
  · rw [← htokens]
    exact ⟨program, h⟩
  · have hbreak (tokens : List Lexed) : AtBreak (nl :: tokens) := beq_iff_eq.2 hnl
    have hflush : Flush (nl :: (lastLine tokens ++ more)) := by
      rw [flush_iff (hbreak _), List.tail_cons]
      cases hline : lastLine tokens with
      | nil => exact (flush_iff (hbreak more)).1 (Flush.cons hnl hmore)
      | cons first rest =>
          rw [hline] at hhead
          exact hhead
    rw [htokens, List.append_assoc, List.cons_append] at h
    have hcut := (statements_cut hr hflush .nil before (hr _)).of_eq_ok h
    obtain ⟨-, program', -, hbehind, -, -⟩ := hcut
    rw [statements_newLine r hnl, hr _] at hbehind
    exact ⟨program', hbehind⟩

/-- Where no block is open, an indented line with nothing in it is refused. -/
theorem not_statements_indents (hr : r.Settles) (hnl : nl.token.kind = .newLine)
    (hindents : ∀ t ∈ indents, t.isIndentation = true) (hsome : indents ≠ []) {tokens : List Lexed}
    (hclosed : (lastLine tokens).head?.any (fun t => leavesOpen t.token.kind) = false) (program : Program) :
    r.statements (tokens ++ nl :: (indents ++ behind)) ≠ .ok program := by
  intro h
  have hbreak : AtBreak (nl :: (indents ++ behind)) := beq_iff_eq.2 hnl
  have hindent (program : Program) : r.statements (indents ++ behind) ≠ .ok program := by
    intro h
    cases indents with
    | nil => exact hsome rfl
    | cons first indents =>
        exact head_of_statements r h first rfl (eq_of_beq (hindents first List.mem_cons_self))
  obtain ⟨hline, -⟩ := eq_lastLine_or tokens
  have hhead : (lastLine tokens).head?.all (fun t => t.token.kind.staysOutside) = true := by
    cases hfirst : (lastLine tokens).head? with
    | none => rfl
    | some first =>
        rw [hfirst, Option.any_some, leavesOpen, Bool.or_eq_false_iff] at hclosed
        have helse : first.token.kind ≠ .keyword .else_ := by
          intro helse
          rw [helse] at hclosed
          cases hclosed.2
        rw [Option.all_some, Token.Kind.staysOutside, Bool.and_eq_true]
        exact ⟨bne_iff_ne.2 (ne_of_beq_false hclosed.1), bne_iff_ne.2 helse⟩
  obtain ⟨program', h⟩ := exists_statements_lastLine hr hbreak hhead h
  cases hlast : lastLine tokens with
  | nil =>
      rw [hlast, List.nil_append, statements_newLine r hnl, hr _] at h
      exact hindent program' h
  | cons next rest =>
      rw [hlast] at h hclosed hline
      have hnext : next.token.kind ≠ .newLine := hline next List.mem_cons_self
      have hplain : next.token.kind.opensBlock = false := by
        rw [List.head?_cons, Option.any_some, leavesOpen, Bool.or_eq_false_iff] at hclosed
        exact hclosed.2
      rw [List.cons_append, statements_cons r hnext, bind_eq_ok] at h
      obtain ⟨⟨s, left⟩, hs, h⟩ := h
      obtain ⟨others, hothers, -⟩ := bind_eq_ok.1 h
      -- The statement ends with its line, so the indentation is next.
      have hextends := nextStatement_extends (r := r) hr hbreak hbreak 0 false hplain rest
      rw [hs] at hextends
      obtain ⟨_, -, -, -, taken, htaken, hleft, -⟩ := hextends.exists_of_ok
      dsimp only at hleft
      rw [hleft] at hothers
      cases taken with
      | nil =>
          rw [List.nil_append, further_newLine r hnl, statements_newLine r hnl, hr _] at hothers
          exact hindent others hothers
      | cons first taken =>
          have hfirst : first.token.kind = .newLine := newLine_of_consume r hothers
          exact hline first (List.mem_cons_of_mem next (htaken.subset List.mem_cons_self)) hfirst

/-- A line break more, where every block ends. -/
theorem statements_break (hr : r.Settles) (hbehind : Flush behind) (hnl : nl.token.kind = .newLine)
    {tokens : List Lexed} {program : Program} (h : r.statements (tokens ++ behind) = .ok program) :
    r.statements (tokens ++ nl :: behind) = .ok program := by
  have hmore : Flush (nl :: behind) := .cons hnl hbehind.atBreak
  obtain ⟨before, after, rfl, hafter, hall, -⟩ := (statements_cut hr hbehind hmore tokens (hr _)).of_eq_ok h
  rw [hall, statements_newLine r hnl, hr _]
  change Except.map _ (r.statements behind) = _
  rw [hafter]
  rfl

/-- A line break more ends every block. -/
theorem flush_of_statements_break (hr : r.Settles) (hbehind : AtBreak behind) (hnl : nl.token.kind = .newLine)
    {tokens : List Lexed} {program : Program} (h : r.statements (tokens ++ nl :: behind) = .ok program) :
    Flush behind := by
  have hfront : Flush (nl :: behind) := .cons hnl hbehind
  obtain ⟨-, after, -, hafter, -, -⟩ := (statements_cut hr hfront .nil tokens (hr _)).of_eq_ok h
  rw [statements_newLine r hnl, hr _] at hafter
  exact Resumes.flush ⟨hbehind, hafter⟩

end

/-! ### Lines and tokens -/

/-- The tokens of a line without its line break. -/
theorem head_lastLine_content {source : Source} {i : Nat} {tokens : List Lexed}
    (h : tokens.map Lexed.token = (scanContent source i).tokens) :
    (lastLine tokens).head?.map (·.token.kind) = headKind? (source.line i) := by
  have hline : ∀ t ∈ tokens, t.token.kind ≠ .newLine := by
    intro t ht
    have hmem : t.token ∈ (scanContent source i).tokens := h ▸ List.mem_map_of_mem ht
    exact (of_mem_scanContent hmem).1
  rw [lastLine_of_forall hline, headKind?_eq, ← h, List.head?_map, Option.map_map]
  rfl

/-- The first token of the last line that says something. -/
theorem head_lastLine {source : Source} {before after : List (List Char)} (hlines : source.lines = before ++ after)
    (herror : (scanLines source before.length 0).error = none) {front : List Lexed}
    (hfront : front.map Lexed.token = (scanLines source before.length 0).tokens) :
    (lastLine front).head?.map (·.token.kind) = (before.filter isSignificant).getLast?.bind headKind? := by
  induction before using List.reverseRecOn generalizing after front with
  | nil =>
      rw [List.map_eq_nil_iff.1 hfront]
      rfl
  | append_singleton before line ih =>
      have hline : source.line before.length = line := by
        rw [Source.line, hlines, List.append_assoc, List.getD_append_right _ _ _ _ (Nat.le_refl _), Nat.sub_self]
        rfl
      have hone : scanLines source 1 before.length = scanLine source before.length := by
        rw [scanLines, scanLines, Scan.append_nil]
      rw [List.append_assoc] at hlines
      rw [List.length_append, List.length_singleton, scanLines_add, Nat.zero_add, hone] at herror hfront
      obtain ⟨hbefore, hlast⟩ := Scan.error_append herror
      rw [Scan.tokens_append hbefore] at hfront
      obtain ⟨first, last, rfl, hfirst, hlast⟩ := List.map_eq_append_iff.1 hfront
      rw [List.filter_append, List.filter_singleton]
      cases hsignificant : isSignificant line with
      | false =>
          rw [scanLine, hline, hsignificant] at hlast
          rw [List.map_eq_nil_iff.1 hlast, List.append_nil, cond_false, List.append_nil]
          exact ih hlines hbefore hfirst
      | true =>
          rw [cond_true, List.getLast?_concat, Option.bind_some, ← hline]
          rw [scanLine, hline, hsignificant, if_pos rfl] at hlast
          by_cases hempty : before = []
          · subst hempty
            rw [List.length_nil, if_pos rfl] at hlast
            rw [List.map_eq_nil_iff.1 hfirst, List.nil_append]
            exact head_lastLine_content hlast
          · rw [if_neg (List.length_eq_zero_iff.not.2 hempty)] at hlast
            obtain ⟨nl, last, rfl, hnl, hlast⟩ := List.map_eq_cons_iff.1 hlast
            have hkind : nl.token.kind = .newLine := congrArg Token.kind hnl
            rw [lastLine_append first hkind]
            exact head_lastLine_content hlast

end Reading

/-! ### Comments -/

/-- Whether a line is a comment behind any blanks. -/
def isComment (line : List Char) : Bool :=
  (line.dropWhile isBlank).head? == some '#'

/-- Whether a block is open behind these lines: the last one that says something is indented, or starts with a word
that has a block below it. -/
def blockOpen (before : List (List Char)) : Bool :=
  ((before.filter isSignificant).getLast?.bind headKind?).any Reading.leavesOpen

/-- Whether these lines go on outside of all blocks: the first one that says something is neither indented nor starts
with the word for the other branch. -/
def goesOnOutside (after : List (List Char)) : Bool :=
  ((after.find? isSignificant).bind headKind?).all Token.Kind.staysOutside

/-- Where a comment may stand in a line of its own: at the start of the line, or indented where a block is open, or
behind too few blanks for an indentation where none goes on. -/
def commentFits (before : List (List Char)) (line : List Char) (after : List (List Char)) : Bool :=
  if line.head? = some '#' then true
  else if 0 < indentDepth line then blockOpen before
  else goesOnOutside after

/-- Blanks in front do not matter. -/
theorem isComment_append {blanks rest : List Char} (h : blanks.all isBlank = true) :
    isComment (blanks ++ rest) = isComment rest := by
  rw [isComment, List.dropWhile_append_of_pos (List.all_eq_true.1 h), isComment]

theorem isComment_expandTab {line : List Char} (h : isComment line = true) : isComment (expandTab line) = true := by
  induction line with
  | nil => exact h
  | cons c rest ih =>
      rw [expandTab]
      split
      · rename_i htab
        have hrest : isComment rest = true := by
          rw [htab] at h
          exact (isComment_append (show ['\t'].all isBlank = true by decide)).symm.trans h
        exact (isComment_append (show indentUnit.all isBlank = true by decide)).trans hrest
      · cases hblank : isBlank c with
        | true =>
            have hone : [c].all isBlank = true := by rw [List.all_cons, hblank]; rfl
            have hrest : isComment rest = true := (isComment_append hone).symm.trans h
            exact (isComment_append hone).trans (ih hrest)
        | false =>
            rw [isComment, List.dropWhile_cons_of_neg (by rw [hblank]; exact Bool.false_ne_true)] at h ⊢
            exact h

/-- A comment has no tokens. -/
theorem scanRest_comment {last : Bool} {line column : Nat} {rest : List Char} (h : isComment rest = true) :
    scanRest last line column rest = .nil := by
  have hblanks : (rest.takeWhile isBlank).all isBlank = true := List.all_takeWhile
  obtain ⟨comment, hcomment⟩ := List.head?_eq_some_iff.1 (eq_of_beq h)
  rw [← List.takeWhile_append_dropWhile (p := isBlank) (l := rest), scanRest_blanks hblanks, hcomment, scanRest_hash]

/-- A comment behind blanks has no tokens but its indentation. -/
theorem scanContent_comment {source : Source} {i : Nat} (h : isComment (source.line i) = true) :
    scanContent source i = scanIndents i 0 (indentDepth (source.line i)) := by
  have hbody : isComment ((source.line i).drop (indentUnit.length * indentDepth (source.line i))) = true := by
    rw [← isComment_append (all_isBlank_indentation (source.line i)), List.take_append_drop]
    exact h
  rw [scanContent_eq, scanBody, scanRest_comment hbody, Scan.append_nil]

/-- A comment counts for the layout unless it is at the start of its line. -/
theorem isSignificant_of_isComment {line : List Char} (h : isComment line = true) :
    isSignificant line = (line.head? != some '#') := by
  have hnot : line.all isBlank = false := by
    rw [Bool.eq_false_iff]
    intro hall
    rw [isComment, List.dropWhile_eq_nil_iff.2 (List.all_eq_true.1 hall)] at h
    cases h
  rw [isSignificant, hnot]
  rfl

theorem startsClean_insert_comment {before after : List (List Char)} {line : List Char} (h : isComment line = true)
    (hclean : startsClean (before ++ after) = true) : startsClean (before ++ line :: after) = true := by
  by_cases hempty : ∀ l ∈ before, l = []
  · rw [startsClean_append_of_all hempty, startsClean, isSignificant_of_isComment h]
    cases line with
    | nil => cases h
    | cons c rest =>
        rw [List.isEmpty_cons, if_neg Bool.false_ne_true, List.head?_cons]
        by_cases hc : c = '#'
        · rw [hc]
          rfl
        · have hne : (some c != some '#') = true := by simpa using hc
          rw [hne]
          rfl
  · push Not at hempty
    rw [startsClean_append_of_any hempty, hclean]

section

variable {source source' : Source} {before after : List (List Char)} {line : List Char} {program : Program}
  {front inner behind : List Lexed}

/-- Behind the new line every block ends if the lines there go on outside. -/
theorem Insertion.flush_iff (h : Insertion source source' before program front inner behind)
    (hinserts : Source.Inserts before line after source source')
    (herror : (scanLines source after.length before.length).error = none) :
    Reading.Flush behind ↔ goesOnOutside after = true := by
  have hlines : source'.lines = (before ++ [line]) ++ after := by
    rw [hinserts.lines', List.append_assoc]
    rfl
  have hlength : (before ++ [line]).length = before.length + 1 := List.length_append
  have hbehind := hinserts.scanLines_behind herror
  have hnone : (scanLines source' after.length (before ++ [line]).length).error = none := by
    rw [hlength, hbehind, Source.Inserts.behind, Scan.append_of_error_none rfl]
    have hcount : source.lines.length - before.length = after.length := by
      rw [hinserts.lines, List.length_append, Nat.add_sub_cancel_left]
    rw [hcount]
    exact herror
  have houtside := staysOutside_scanLines hlines (by simp) hnone
  rw [hlength, hbehind, ← h.behind_eq, ← List.map_tail, List.head?_map, Option.all_map] at houtside
  rw [Reading.flush_iff h.atBreak, goesOnOutside, ← houtside]

theorem exists_error_of_forall_ne {α : Type} {outcome : Except SyntaxError α} (h : ∀ a, outcome ≠ .ok a) :
    ∃ e, outcome = .error e := by
  cases outcome with
  | error e => exact ⟨e, rfl⟩
  | ok a => exact absurd rfl (h a)

/-- A comment behind blanks that are no indentation. -/
theorem Insertion.comment_outside (h : Insertion source source' before program front inner behind)
    (hinserts : Source.Inserts before line after source source')
    (herror : (scanLines source after.length before.length).error = none)
    (hinner : inner.map Lexed.token = if before = [] then [] else [⟨.newLine, ⟨before.length, 0⟩⟩]) :
    if goesOnOutside after then
      Program.ofSource source' = .ok (Statement.relocateAll (Position.below before.length) program)
    else ∃ e, Program.ofSource source' = .error e := by
  obtain ⟨c, hending⟩ := h.finished
  have hr := Reading.settle_of_finished (r := ⟨source', (Stream.ofSource source').ending⟩) hending
  have hflush := h.flush_iff hinserts herror
  by_cases hempty : before = []
  · -- Nothing is before, and the line is not even a line break.
    subst hempty
    rw [if_pos rfl] at hinner
    obtain rfl := List.map_eq_nil_iff.1 hinner
    have hfront : front = [] := List.map_eq_nil_iff.1 h.front_eq
    have hstatements := h.statements
    rw [hfront, List.nil_append] at hstatements
    rw [if_pos (hflush.1 (Reading.Resumes.flush ⟨h.atBreak, hstatements⟩))]
    exact h.ofSource_eq
  · rw [if_neg hempty] at hinner
    obtain ⟨nl, none, rfl, hnl, hnone⟩ := List.map_eq_cons_iff.1 hinner
    obtain rfl := List.map_eq_nil_iff.1 hnone
    have hkind : nl.token.kind = .newLine := congrArg Token.kind hnl
    rw [Program.ofSource_of_finished hending, h.tokens]
    split
    · rename_i houtside
      exact Reading.statements_break hr (hflush.2 houtside) hkind h.statements
    · rename_i hinside
      refine exists_error_of_forall_ne fun program' hprogram => hinside ?_
      exact hflush.1 (Reading.flush_of_statements_break hr h.atBreak hkind hprogram)

/-- A comment behind an indentation. -/
theorem Insertion.comment_indented (h : Insertion source source' before program front inner behind)
    (hinserts : Source.Inserts before line after source source')
    (herror : (scanLines source before.length 0).error = none) {indents : List Token}
    (hindents : ∀ t ∈ indents, t.kind = .indentation) (hsome : indents ≠ [])
    (hinner : inner.map Lexed.token
      = if before = [] then indents else ⟨.newLine, ⟨before.length, 0⟩⟩ :: indents) :
    if blockOpen before then
      Program.ofSource source' = .ok (Statement.relocateAll (Position.below before.length) program)
    else ∃ e, Program.ofSource source' = .error e := by
  obtain ⟨c, hending⟩ := h.finished
  have hr := Reading.settle_of_finished (r := ⟨source', (Stream.ofSource source').ending⟩) hending
  have hall {inner : List Lexed} (hinner : inner.map Lexed.token = indents) :
      ∀ t ∈ inner, t.isIndentation = true := by
    intro t ht
    exact beq_iff_eq.2 (hindents t.token (hinner ▸ List.mem_map_of_mem ht))
  have hlast := Reading.head_lastLine hinserts.lines herror h.front_eq
  rw [Program.ofSource_of_finished hending, h.tokens]
  by_cases hempty : before = []
  · subst hempty
    rw [if_pos rfl] at hinner
    have hfront : front = [] := List.map_eq_nil_iff.1 h.front_eq
    rw [if_neg (by decide), hfront, List.nil_append]
    refine exists_error_of_forall_ne fun program' hprogram => ?_
    cases inner with
    | nil => exact hsome hinner.symm
    | cons first inner =>
        exact Reading.head_of_statements _ hprogram first rfl (eq_of_beq (hall hinner first List.mem_cons_self))
  · rw [if_neg hempty] at hinner
    obtain ⟨nl, inner, rfl, hnl, hinner⟩ := List.map_eq_cons_iff.1 hinner
    have hkind : nl.token.kind = .newLine := congrArg Token.kind hnl
    have hinner' : inner ≠ [] := by
      rintro rfl
      exact hsome hinner.symm
    have hopen : (Reading.lastLine front).head?.any (fun t => Reading.leavesOpen t.token.kind) = blockOpen before := by
      rw [blockOpen, ← hlast, Option.any_map]
    split
    · rename_i hblock
      have hpersists := Reading.statements_indents hr h.atBreak hkind (hall hinner) hinner' front (hopen.trans hblock)
      rw [h.statements] at hpersists
      obtain ⟨_, hprogram, rfl⟩ := hpersists.exists_of_ok
      exact hprogram
    · rename_i hblock
      refine exists_error_of_forall_ne ?_
      exact Reading.not_statements_indents hr hkind (hall hinner) hinner' (hopen.trans (Bool.eq_false_iff.2 hblock))

theorem ReadFrom.insert_comment (h : ReadFrom source program)
    (hinserts : Source.Inserts before line after source source') (hcomment : isComment line = true) :
    if commentFits before line after then
      Program.ofSource source' = .ok (Statement.relocateAll (Position.below before.length) program)
    else ∃ e, Program.ofSource source' = .error e := by
  have hclean : startsClean source'.lines = true := by
    rw [hinserts.lines']
    exact startsClean_insert_comment hcomment (hinserts.lines ▸ h.clean)
  have herror := congrArg Scan.error h.scan_eq
  rw [hinserts.lines, List.length_append, scanLines_add, Nat.zero_add] at herror
  obtain ⟨hbefore, hafter⟩ := Scan.error_append herror
  have hcontent : scanContent source' before.length = scanIndents before.length 0 (indentDepth line) := by
    rw [← hinserts.line_eq] at hcomment ⊢
    exact scanContent_comment hcomment
  have hscan : scanLine source' before.length = if line.head? = some '#' then .nil
      else if before = [] then scanIndents before.length 0 (indentDepth line)
      else (scanIndents before.length 0 (indentDepth line)).cons ⟨.newLine, ⟨before.length, 0⟩⟩ := by
    rw [scanLine, hinserts.line_eq, isSignificant_of_isComment hcomment, hcontent]
    by_cases hhash : line.head? = some '#'
    · rw [if_pos hhash, if_neg (by rw [hhash]; decide)]
    · rw [if_neg hhash, if_pos (bne_iff_ne.2 hhash)]
      simp only [List.length_eq_zero_iff]
  have hnone : (scanLine source' before.length).error = none := by
    rw [hscan]
    split
    · rfl
    · split
      · exact scanIndents_error ..
      · exact scanIndents_error ..
  obtain ⟨front, inner, behind, hinsertion⟩ := h.insertion hinserts hclean hnone
  have hinner := hinsertion.inner_eq
  rw [hscan] at hinner
  rw [commentFits]
  by_cases hhash : line.head? = some '#'
  · rw [if_pos hhash] at hinner
    obtain rfl := List.map_eq_nil_iff.1 hinner
    rw [if_pos hhash, if_pos rfl]
    exact hinsertion.ofSource_eq
  · rw [if_neg hhash] at hinner
    rw [if_neg hhash]
    by_cases hdepth : 0 < indentDepth line
    · rw [if_pos hdepth]
      refine hinsertion.comment_indented hinserts hbefore (fun t ht => (of_mem_scanIndents ht).1) ?_
        (hinner.trans (apply_ite Scan.tokens _ _ _))
      intro hnil
      have hlength := congrArg List.length hnil
      rw [length_scanIndents] at hlength
      exact absurd hlength (Nat.ne_of_gt hdepth)
    · have hzero : indentDepth line = 0 := Nat.eq_zero_of_not_pos hdepth
      rw [hzero] at hinner
      rw [if_neg hdepth]
      exact hinsertion.comment_outside hinserts hafter (hinner.trans (apply_ite Scan.tokens _ _ _))

end

/-- A program with a comment put in, in a line of its own, is the same program with the later lines moved down if the
comment fits there, and is refused otherwise. -/
theorem ofText_insert_comment {text text' : String} {before after : List (List Char)} {line : List Char}
    {program : Program} (h : Program.ofText text = .ok program) (hinserts : InsertsLine before line after text text')
    (hcomment : isComment line = true) :
    if commentFits (before.map expandTab) (expandTab line) (after.map expandTab) then
      Program.ofText text' = .ok (Statement.relocateAll (Position.below before.length) program)
    else ∃ e, Program.ofText text' = .error e := by
  have hinsert := (ReadFrom.of_ofSource h).insert_comment hinserts.inserts (isComment_expandTab hcomment)
  rw [List.length_map] at hinsert
  exact hinsert

/-- An indented comment below the head of a loop. -/
theorem ofText_insert_comment_below :
    let text := "dopóki FAŁSZ wykonuj\n    wypisz 1\nwypisz 2"
    let text' := "dopóki FAŁSZ wykonuj\n          # dalej\n    wypisz 1\nwypisz 2"
    let before := ["dopóki FAŁSZ wykonuj".toList]
    let line := "          # dalej".toList
    let after := ["    wypisz 1".toList, "wypisz 2".toList]
    ∃ program, Program.ofText text = .ok program ∧ InsertsLine before line after text text' ∧ isComment line = true
      ∧ (Statement.listing 0 program).map (fun entry => (entry.1, entry.2.start))
        = [(0, ⟨0, 0⟩), (1, ⟨1, 4⟩), (0, ⟨2, 0⟩)]
      ∧ Program.ofText text' = .ok (Statement.relocateAll (Position.below 1) program) := by
  intro text text' before line after
  have hplaces : (Program.ofText text).map (fun program =>
      (Statement.listing 0 program).map fun entry => (entry.1, entry.2.start))
        = .ok [(0, ⟨0, 0⟩), (1, ⟨1, 4⟩), (0, ⟨2, 0⟩)] := by
    decide +kernel
  obtain ⟨program, h, hplaces⟩ := map_eq_ok.1 hplaces
  have hinserts : InsertsLine before line after text text' := ⟨by decide +kernel, by decide +kernel⟩
  have hcomment : isComment line = true := by decide +kernel
  have hfits : commentFits (before.map expandTab) (expandTab line) (after.map expandTab) = true := by decide +kernel
  have hinsert := ofText_insert_comment h hinserts hcomment
  rw [if_pos hfits] at hinsert
  exact ⟨program, h, hinserts, hcomment, hplaces, hinsert⟩

/-- An indented comment between two statements that are not indented, where the text is refused. -/
theorem not_ofText_insert_comment_between :
    let text := "x <- 1\nwypisz x"
    let text' := "x <- 1\n    # c\nwypisz x"
    let line := "    # c".toList
    (∃ program, Program.ofText text = .ok program)
      ∧ InsertsLine ["x <- 1".toList] line ["wypisz x".toList] text text' ∧ isComment line = true
      ∧ Program.ofText text' = .error ⟨.strayIndentation, ⟨1, 0⟩⟩ := by
  intro text text' line
  have hsome : (Program.ofText text).map (fun program => (Statement.listing 0 program).length) = .ok 2 := by
    decide +kernel
  obtain ⟨program, h, -⟩ := map_eq_ok.1 hsome
  have hrefused : (Program.ofText text').map (fun program => (Statement.listing 0 program).length)
      = .error ⟨.strayIndentation, ⟨1, 0⟩⟩ := by
    decide +kernel
  refine ⟨⟨program, h⟩, ⟨by decide +kernel, by decide +kernel⟩, by decide +kernel, ?_⟩
  cases houtcome : Program.ofText text' with
  | error e =>
      rw [houtcome] at hrefused
      cases hrefused
      rfl
  | ok program' =>
      rw [houtcome] at hrefused
      cases hrefused

end PolishPseudocode
