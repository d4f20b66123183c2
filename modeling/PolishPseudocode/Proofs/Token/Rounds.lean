import Mathlib.Logic.Relation
import PolishPseudocode.Proofs.Token.Pulls

/-! A pull round by round. Each round of a pull passes over one lexeme without meaning, over an empty line or over one
character of a text literal, or it is the last one. So a pull is done within as many rounds as there are characters
and line ends ahead, and one more. -/

namespace PolishPseudocode

/-- What a round reads: the next lexeme, or one character more of the text literal that starts at a place and of which
some content is read. -/
inductive Phase where
  | lexeme
  | text (start : Position) (content : List Char)

namespace Cursor

/-- The end of a pull inside a text literal that is not closed. The cursor has left the line or stands behind its last
character, and goes one character back. -/
def unterminated (source : Source) (c : Cursor) : Pull × Cursor :=
  (.failed ⟨.unterminatedText (!c.hasMore source), (c.stepBack source).position⟩, c.stepBack source)

/-- One round of a pull: the outcome of the pull, or what the next round reads and from where. -/
def round (source : Source) : Phase → Cursor → (Pull × Cursor) ⊕ (Phase × Cursor)
  | .lexeme, c =>
      if c.hasMore source = true then
        if (c.crossed && isSignificant (source.line c.line)) = true then
          .inl (.token ⟨.newLine, c.position⟩, { c with crossed := false, afterNewLine := true })
        else if (source.line c.line).isEmpty = true then
          .inr (.lexeme, c.advance source 1)
        else if ((c.afterNewLine || c.afterIndentation) && indentUnit.isPrefixOf (c.rest source)) = true then
          .inl (.token ⟨.indentation, c.position⟩,
            { c.advance source indentUnit.length with afterNewLine := false, afterIndentation := true })
        else if (c.rest source).head? = some '"' then
          .inr (.text c.position [], c.inLine.advance source 1)
        else
          match Lexeme.recognise (c.rest source) with
          | none => .inl (.failed ⟨.unknownToken (String.ofList (c.rest source)), c.position⟩, c.inLine)
          | some found =>
              match found.lexeme with
              | .token kind => .inl (.token ⟨kind, c.position⟩, c.inLine.advance source found.length)
              | _ => .inr (.lexeme, c.inLine.advance source found.length)
      else .inl (.finished, c)
  | .text start content, c =>
      if c.crossed = true then .inl (c.unterminated source)
      else
        match (c.rest source).head? with
        | none => .inl (c.unterminated source)
        | some letter =>
            if letter = '"' then .inl (.token ⟨.text (String.ofList content), start⟩, c.advance source 1)
            else .inr (.text start (content ++ [letter]), c.advance source 1)

/-- The outcome of a pull, if so many rounds are enough for it. -/
def rounds (source : Source) : Nat → Phase → Cursor → Option (Pull × Cursor)
  | 0, _, _ => none
  | n + 1, phase, c =>
      match round source phase c with
      | .inl outcome => some outcome
      | .inr (phase, c) => rounds source n phase c

variable {source : Source} {c c' : Cursor} {phase phase' : Phase} {n : Nat}

theorem rounds_of_inl {outcome : Pull × Cursor} (h : round source phase c = .inl outcome) (hn : 0 < n) :
    rounds source n phase c = some outcome := by
  obtain ⟨n, rfl⟩ := Nat.exists_eq_succ_of_ne_zero (Nat.ne_of_gt hn)
  rw [rounds, h]

theorem rounds_of_inr (h : round source phase c = .inr (phase', c')) :
    rounds source (n + 1) phase c = rounds source n phase' c' := by
  rw [rounds, h]

/-! ### Text literals -/

/-- A text literal is open, and the line before has ended. -/
theorem unterminated_of_crossed (hmore : c.hasMore source = true) :
    unterminated source { c with line := c.line + 1, column := 0, crossed := true }
      = (.failed ⟨.unterminatedText (source.isLast c.line), (c.lineEnd source).position⟩, c.lineEnd source) := by
  have hback : stepBack source { c with line := c.line + 1, column := 0, crossed := true } = c.lineEnd source := by
    rw [stepBack, if_neg (Nat.lt_irrefl 0), if_pos (Nat.succ_pos c.line)]
    rfl
  have hlast : (!hasMore source { c with line := c.line + 1, column := 0, crossed := true })
      = source.isLast c.line := by
    rw [hasMore, (Bool.and_eq_true_iff.1 hmore).2, Bool.and_true, Source.isLast, ← decide_not]
    simp only [Nat.not_lt]
  rw [unterminated, hback, hlast]

theorem lineLength_of_rest {letter : Char} {body : List Char} (hrest : c.rest source = letter :: body) :
    source.lineLength c.line = c.column + (body.length + 1) := by
  have hlength := congrArg List.length hrest
  rw [rest, List.length_drop, List.length_cons] at hlength
  rw [Source.lineLength]
  omega

theorem hasMore_of_rest {letter : Char} {body : List Char} (hrest : c.rest source = letter :: body) :
    c.hasMore source = true :=
  hasMore_of_column_lt (by rw [lineLength_of_rest hrest]; omega)

theorem advance_last {letter : Char} (hrest : c.rest source = [letter]) :
    c.advance source 1 = { c with line := c.line + 1, column := 0, crossed := true } :=
  advance_of_le (line_lt_of_hasMore (hasMore_of_rest hrest)) (by rw [lineLength_of_rest hrest]; rfl)

section

variable {letter next : Char} {body : List Char}

theorem advance_inside (hrest : c.rest source = letter :: next :: body) :
    c.advance source 1 = { c with column := c.column + 1, crossed := false } :=
  advance_of_lt (by rw [lineLength_of_rest hrest, List.length_cons]; omega)

theorem rest_advance_inside (hrest : c.rest source = letter :: next :: body) :
    (c.advance source 1).rest source = next :: body := by
  rw [advance_inside hrest, rest, ← List.drop_drop, show (source.line c.line).drop c.column = _ from hrest]
  rfl

theorem advance_advance_inside (hrest : c.rest source = letter :: next :: body) (count : Nat) :
    (c.advance source 1).advance source count = c.advance source (count + 1) := by
  have hline := Nat.not_le.2 (line_lt_of_hasMore (hasMore_of_rest hrest))
  rw [advance_inside hrest, advance, advance, Nat.add_comm count 1, ← Nat.add_assoc, setColumn, setColumn,
    if_neg hline, if_neg hline]

end

/-- The characters of a text literal are read one by one, up to the next quote or to the end of the line. The cursor is
at the character in front of them. -/
theorem rounds_text {letter : Char} {body content : List Char} {start : Position}
    (hrest : c.rest source = letter :: body) (hn : (c.advance source 1).remaining source < n) :
    rounds source n (.text start content) (c.advance source 1)
      = some (if (body.takeWhile (· != '"')).length < body.length then
          (.token ⟨.text (String.ofList (content ++ body.takeWhile (· != '"'))), start⟩,
            c.advance source ((body.takeWhile (· != '"')).length + 2))
        else (.failed ⟨.unterminatedText (source.isLast c.line), (c.lineEnd source).position⟩,
          c.lineEnd source)) := by
  have hpos := Nat.zero_lt_of_lt hn
  induction body generalizing c letter content n with
  | nil =>
      refine rounds_of_inl ?_ hpos
      rw [advance_last hrest, round, if_pos rfl, unterminated_of_crossed (hasMore_of_rest hrest)]
      rfl
  | cons next body ih =>
      -- What the round reads is the character behind the cursor.
      have hstays := advance_inside hrest
      have hbehind := rest_advance_inside hrest
      have hopen : ¬ (c.advance source 1).crossed = true := by
        rw [hstays]
        exact Bool.false_ne_true
      by_cases hquote : next = '"'
      · subst hquote
        refine rounds_of_inl ?_ hpos
        rw [round, if_neg hopen, hbehind, advance_advance_inside hrest]
        simp
      · obtain ⟨n, rfl⟩ := Nat.exists_eq_succ_of_ne_zero (Nat.ne_of_gt hpos)
        have hround : round source (.text start content) (c.advance source 1)
            = .inr (.text start (content ++ [next]), (c.advance source 1).advance source 1) := by
          rw [round, if_neg hopen, hbehind]
          exact if_neg hquote
        have hless : ((c.advance source 1).advance source 1).remaining source < n :=
          Nat.lt_of_lt_of_le (remaining_advance_lt (line_lt_of_hasMore (hasMore_of_rest hbehind)) Nat.one_pos)
            (Nat.le_of_lt_succ hn)
        have hend : (c.advance source 1).lineEnd source = c.lineEnd source := by
          rw [hstays]
          rfl
        have hline : (c.advance source 1).line = c.line := by rw [hstays]
        have htake : (next :: body).takeWhile (· != '"') = next :: body.takeWhile (· != '"') :=
          List.takeWhile_cons_of_pos (bne_iff_ne.2 hquote)
        rw [rounds_of_inr hround, ih hbehind hless (Nat.zero_lt_of_lt hless), hend, hline,
          advance_advance_inside hrest, htake, List.append_assoc]
        simp only [List.length_cons, Nat.add_lt_add_iff_right, List.cons_append, List.nil_append]

/-! ### Pulls -/

/-- A round that is not the last one leaves less ahead, so one round less is enough behind it. -/
theorem rounds_of_less {outcome : Pull × Cursor} (h : round source phase c = .inr (phase', c'))
    (hn : c.remaining source < n) (hless : c'.remaining source < c.remaining source)
    (hbehind : ∀ m, c'.remaining source < m → rounds source m phase' c' = some outcome) :
    rounds source n phase c = some outcome := by
  obtain ⟨n, rfl⟩ := Nat.exists_eq_succ_of_ne_zero (Nat.ne_of_gt (Nat.zero_lt_of_lt hn))
  rw [rounds_of_inr h, hbehind n (Nat.lt_of_lt_of_le hless (Nat.le_of_lt_succ hn))]

/-- A pull is done within as many rounds as there are characters and line ends ahead, and one more. -/
theorem rounds_eq_next : ∀ n, c.remaining source < n → rounds source n .lexeme c = some (c.next source) := by
  fun_induction next source c with
  | case1 c hmore line hbreak =>
      intro n hn
      exact rounds_of_inl (by rw [round, if_pos hmore, if_pos hbreak]) (Nat.zero_lt_of_lt hn)
  | case2 c hmore line hbreak hempty ih =>
      intro n hn
      have hless := remaining_advance_lt (line_lt_of_hasMore hmore) Nat.one_pos
      exact rounds_of_less (by rw [round, if_pos hmore, if_neg hbreak, if_pos hempty]) hn hless ih
  | case3 c hmore line hbreak hempty hindent =>
      intro n hn
      exact rounds_of_inl (by rw [round, if_pos hmore, if_neg hbreak, if_neg hempty, if_pos hindent])
        (Nat.zero_lt_of_lt hn)
  | case4 c hmore line hbreak hempty hindent hquote =>
      intro n hn
      obtain ⟨body, hrest⟩ := List.head?_eq_some_iff.1 hquote
      have hless := remaining_advance_lt (c := c.inLine) (line_lt_of_hasMore hmore) Nat.one_pos
      refine rounds_of_less
        (by rw [round, if_pos hmore, if_neg hbreak, if_neg hempty, if_neg hindent, if_pos hquote]) hn hless ?_
      intro m hm
      rw [rounds_text (c := c.inLine) hrest hm, hrest]
      rfl
  | case5 c hmore line hbreak hempty hindent hquote hnone =>
      intro n hn
      refine rounds_of_inl ?_ (Nat.zero_lt_of_lt hn)
      rw [round, if_pos hmore, if_neg hbreak, if_neg hempty, if_neg hindent, if_neg hquote, hnone]
  | case6 c hmore line hbreak hempty hindent hquote found hfound kind hkind =>
      intro n hn
      refine rounds_of_inl ?_ (Nat.zero_lt_of_lt hn)
      rw [round, if_pos hmore, if_neg hbreak, if_neg hempty, if_neg hindent, if_neg hquote, hfound]
      dsimp only
      rw [hkind]
  | case7 c hmore line hbreak hempty hindent hquote found hfound hkind ih =>
      intro n hn
      have hless := remaining_advance_lt (c := c.inLine) (line_lt_of_hasMore hmore) found.length_pos
      refine rounds_of_less ?_ hn hless ih
      rw [round, if_pos hmore, if_neg hbreak, if_neg hempty, if_neg hindent, if_neg hquote, hfound]
      dsimp only
      split
      · exact absurd ‹_› (hkind _)
      · rfl
  | case8 c hmore =>
      intro n hn
      exact rounds_of_inl (by rw [round, if_neg hmore]) (Nat.zero_lt_of_lt hn)

/-! ### Rounds on the way -/

/-- A round that is not the last one, with what it leaves to the next. -/
def Leads (source : Source) (now next : Phase × Cursor) : Prop :=
  round source now.1 now.2 = .inr next

/-- Inside a text literal the line has been left, or it goes on. -/
def TextGoesOn (source : Source) : Phase × Cursor → Prop
  | (.lexeme, _) => True
  | (.text _ _, c) => c.crossed = true ∨ c.rest source ≠ []

/-- Behind a character the line has been left, or it goes on. -/
theorem advance_goes_on {letter : Char} {body : List Char} (hrest : c.rest source = letter :: body) :
    (c.advance source 1).crossed = true ∨ (c.advance source 1).rest source ≠ [] := by
  cases body with
  | nil =>
      rw [advance_last hrest]
      exact .inl rfl
  | cons next body =>
      rw [rest_advance_inside hrest]
      exact .inr (List.cons_ne_nil next body)

/-- A text literal starts behind its quote, and goes on behind each of its characters. -/
theorem Leads.text_goes_on {now next : Phase × Cursor} (h : Leads source now next) : TextGoesOn source next := by
  obtain ⟨phase, c⟩ := now
  cases phase with
  | lexeme =>
      simp only [Leads, round] at h
      split at h
      case isFalse => cases h
      split at h
      case isTrue => cases h
      split at h
      case isTrue =>
        obtain rfl := Sum.inr.inj h
        trivial
      split at h
      case isTrue => cases h
      split at h
      case isTrue hquote =>
        obtain rfl := Sum.inr.inj h
        obtain ⟨body, hrest⟩ := List.head?_eq_some_iff.1 hquote
        exact advance_goes_on (c := c.inLine) hrest
      split at h
      · cases h
      · split at h
        · cases h
        · obtain rfl := Sum.inr.inj h
          trivial
  | text start content =>
      simp only [Leads, round] at h
      split at h
      case isTrue => cases h
      split at h
      case h_1 => cases h
      case h_2 letter hletter =>
        split at h
        · cases h
        · obtain rfl := Sum.inr.inj h
          obtain ⟨body, hrest⟩ := List.head?_eq_some_iff.1 hletter
          exact advance_goes_on hrest

/-- No pull comes to the end of a line inside a text literal without leaving the line. -/
theorem text_goes_on {next : Phase × Cursor} (h : Relation.ReflTransGen (Leads source) (.lexeme, c) next) :
    TextGoesOn source next := by
  cases h with
  | refl => trivial
  | tail _ hlast => exact hlast.text_goes_on

end Cursor

end PolishPseudocode
