import PolishPseudocode.Proofs.Token.Lines

/-! Where the tokens of a text stand. Line breaks and indentations are the layout; every other token of a
line is behind them, the first one behind blanks only, and a line break is always the first token of its
line. So the layout in front of a token says how far its line is indented. -/

namespace PolishPseudocode

/-- Whether a token only says how the text is laid out. -/
def Token.Kind.isLayout : Token.Kind → Bool
  | .indentation | .newLine => true
  | _ => false

/-! ### The tokens behind the indentation -/

namespace Lexeme

theorem longest_of_recognise {rest : List Char} {found : Found} (h : recognise rest = some found) :
    longest (candidates rest) = some (found.length, found.lexeme) := by
  rw [recognise] at h
  split at h
  · cases h
  · rename_i length lexeme hlongest
    split at h
    · cases h
      exact hlongest
    · cases h

/-- What is recognised is one of the candidates. -/
theorem mem_candidates_of_recognise {rest : List Char} {found : Found} (h : recognise rest = some found) :
    (found.length, found.lexeme) ∈ candidates rest :=
  mem_of_longest (longest_of_recognise h)

theorem isLayout_fixed : ∀ x ∈ fixed, x.2.isLayout = false := by
  decide

/-- Blanks are blank, a comment takes the whole rest of the line, and no token is one of the layout. -/
theorem recognise_cases {rest : List Char} {found : Found} (h : recognise rest = some found) :
    (found.lexeme = .blank ∧ (rest.take found.length).all isBlank = true)
      ∨ (found.lexeme = .comment ∧ found.length = rest.length)
      ∨ ∃ kind, found.lexeme = .token kind ∧ kind.isLayout = false := by
  have hmem := mem_candidates_of_recognise h
  obtain ⟨length, lexeme, hpos⟩ := found
  simp only [candidates, List.mem_append, List.mem_map, List.mem_filter, List.mem_cons, List.not_mem_nil,
    or_false] at hmem
  rcases hmem with ⟨word, ⟨hword, -⟩, hx⟩ | ⟨hx | hx | hx | hx, -⟩
  · cases hx
    exact .inr (.inr ⟨_, rfl, isLayout_fixed word hword⟩)
  · cases hx
    have hrun := List.prefix_iff_eq_take.1 (List.takeWhile_prefix (l := rest) isBlank)
    refine .inl ⟨rfl, ?_⟩
    rw [← hrun]
    exact List.all_takeWhile
  · rw [commentMatch, Prod.mk.injEq] at hx
    obtain ⟨hlength, rfl⟩ := hx
    split at hlength
    · exact .inr (.inl ⟨rfl, hlength⟩)
    · omega
  · cases hx
    exact .inr (.inr ⟨_, rfl, rfl⟩)
  · cases hx
    exact .inr (.inr ⟨_, rfl, rfl⟩)

theorem isLayout_of_recognise {rest : List Char} {found : Found} {kind : Token.Kind}
    (h : recognise rest = some found) (hkind : found.lexeme = .token kind) : kind.isLayout = false := by
  rcases recognise_cases h with ⟨hblank, -⟩ | ⟨hcomment, -⟩ | ⟨kind', hkind', hlayout⟩
  · cases hkind.symm.trans hblank
  · cases hkind.symm.trans hcomment
  · cases hkind.symm.trans hkind'
    exact hlayout

end Lexeme

/-- A token behind the indentation is no layout, and stands in the rest of its line. -/
theorem position_of_mem_scanRest {last : Bool} {line column : Nat} {rest : List Char} {t : Token}
    (h : t ∈ (scanRest last line column rest).tokens) :
    t.kind.isLayout = false ∧ t.position.line = line ∧ column ≤ t.position.column
      ∧ t.position.column < column + rest.length := by
  fun_induction scanRest last line column rest with
  | case1 => cases h
  | case2 column rest hne hquote content hclosed ih =>
      have hlength : (rest.drop 1).length = rest.length - 1 := List.length_drop
      rcases List.mem_cons.1 h with rfl | h
      · exact ⟨rfl, rfl, Nat.le_refl _, by simp only; omega⟩
      · obtain ⟨hlayout, hline, hle, hlt⟩ := ih h
        rw [List.length_drop] at hlt
        exact ⟨hlayout, hline, by omega, by omega⟩
  | case3 => cases h
  | case4 => cases h
  | case5 column rest hne hquote found hfound kind hkind ih =>
      have hpos : 0 < rest.length := List.length_pos_iff.2 (by simpa using hne)
      rcases List.mem_cons.1 h with rfl | h
      · exact ⟨Lexeme.isLayout_of_recognise hfound hkind, rfl, Nat.le_refl _, by simp only; omega⟩
      · obtain ⟨hlayout, hline, hle, hlt⟩ := ih h
        have := found.length_pos
        rw [List.length_drop] at hlt
        exact ⟨hlayout, hline, by omega, by omega⟩
  | case6 column rest hne hquote found hfound hkind ih =>
      obtain ⟨hlayout, hline, hle, hlt⟩ := ih h
      rw [List.length_drop] at hlt
      exact ⟨hlayout, hline, by omega, by omega⟩

/-- The first token behind the indentation stands behind blanks only. -/
theorem all_isBlank_before_scanRest {last : Bool} {line column : Nat} {rest : List Char} {first : Token}
    {after : List Token} (h : (scanRest last line column rest).tokens = first :: after) :
    (rest.take (first.position.column - column)).all isBlank = true := by
  fun_induction scanRest last line column rest with
  | case1 => cases h
  | case2 column rest hne hquote content hclosed ih =>
      cases h
      simp
  | case3 => cases h
  | case4 => cases h
  | case5 column rest hne hquote found hfound kind hkind ih =>
      cases h
      simp
  | case6 column rest hne hquote found hfound hkind ih =>
      rcases Lexeme.recognise_cases hfound with ⟨-, hblank⟩ | ⟨-, hlength⟩ | ⟨kind, hkind', -⟩
      · have hle := (position_of_mem_scanRest (h ▸ List.mem_cons_self)).2.2.1
        have hsplit : first.position.column - column
            = found.length + (first.position.column - (column + found.length)) := by omega
        rw [hsplit, List.take_add, List.all_append, hblank, ih h]
        rfl
      · rw [hlength, List.drop_length, scanRest_nil] at h
        cases h
      · exact absurd hkind' (hkind kind)

/-! ### The layout of a line -/

theorem scanIndents_error (line column count : Nat) : (scanIndents line column count).error = none := by
  induction count generalizing column with
  | zero => rfl
  | succ count ih => exact ih _

theorem length_scanIndents (line column count : Nat) :
    (scanIndents line column count).tokens.length = count := by
  induction count generalizing column with
  | zero => rfl
  | succ count ih => exact congrArg Nat.succ (ih _)

theorem kinds_scanIndents (line column count : Nat) :
    (scanIndents line column count).tokens.map Token.kind = List.replicate count .indentation := by
  induction count generalizing column with
  | zero => rfl
  | succ count ih => exact congrArg (List.cons _) (ih _)

theorem of_mem_scanIndents {line column count : Nat} {t : Token}
    (h : t ∈ (scanIndents line column count).tokens) : t.kind = .indentation ∧ t.position.line = line := by
  induction count generalizing column with
  | zero => cases h
  | succ count ih =>
      rcases List.mem_cons.1 h with rfl | h
      · exact ⟨rfl, rfl⟩
      · exact ih h

theorem Scan.mem_append {s s' : Scan} {t : Token} (h : t ∈ (s ++ s').tokens) :
    t ∈ s.tokens ∨ t ∈ s'.tokens := by
  cases herror : s.error with
  | none =>
      rw [Scan.tokens_append herror] at h
      exact List.mem_append.1 h
  | some e =>
      rw [Scan.append_of_error herror] at h
      exact .inl h

/-- A token behind a line break stands on the line, and is none itself. -/
theorem of_mem_scanContent {source : Source} {i : Nat} {t : Token} (h : t ∈ (scanContent source i).tokens) :
    t.kind ≠ .newLine ∧ t.position.line = i := by
  rcases Scan.mem_append h with h | h
  · obtain ⟨hkind, hline⟩ := of_mem_scanIndents h
    exact ⟨by rw [hkind]; exact Token.Kind.noConfusion, hline⟩
  · obtain ⟨hlayout, hline, -⟩ := position_of_mem_scanRest h
    refine ⟨?_, hline⟩
    intro hkind
    rw [hkind] at hlayout
    cases hlayout

theorem position_of_mem_scanLine {source : Source} {i : Nat} {t : Token}
    (h : t ∈ (scanLine source i).tokens) : t.position.line = i := by
  rw [scanLine] at h
  split at h
  · split at h
    · exact (of_mem_scanContent h).2
    · rcases List.mem_cons.1 h with rfl | h
      · rfl
      · exact (of_mem_scanContent h).2
  · cases h

theorem line_of_mem_scanLines {source : Source} {count i : Nat} {t : Token}
    (h : t ∈ (scanLines source count i).tokens) : i ≤ t.position.line ∧ t.position.line < i + count := by
  induction count generalizing i with
  | zero => cases h
  | succ count ih =>
      rw [scanLines] at h
      rcases Scan.mem_append h with h | h
      · have hline := position_of_mem_scanLine h
        omega
      · have hlines := ih h
        omega

/-- Later lines start with a line break. -/
theorem head_scanLines {source : Source} {count i : Nat} (hi : 0 < i) {first : Token} {after : List Token}
    (h : (scanLines source count i).tokens = first :: after) : first.kind = .newLine := by
  induction count generalizing i with
  | zero => cases h
  | succ count ih =>
      rw [scanLines, scanLine] at h
      split at h
      · rw [if_neg (by omega), Scan.cons_append] at h
        cases h
        rfl
      · exact ih (Nat.succ_pos i) h

/-- A line break in a line is its first token. -/
theorem scanLine_of_newLine {source : Source} {i : Nat} {before after : List Token} {nl : Token}
    (hnl : nl.kind = .newLine) (h : (scanLine source i).tokens = before ++ nl :: after) :
    before = [] ∧ 0 < i ∧ isSignificant (source.line i) = true ∧ nl = ⟨.newLine, ⟨i, 0⟩⟩ := by
  have hmem : nl ∈ before ++ nl :: after := by simp
  rw [scanLine] at h
  split at h
  · rename_i hsignificant
    split at h
    · rw [← h] at hmem
      exact absurd hnl (of_mem_scanContent hmem).1
    · cases before with
      | nil =>
          cases h
          exact ⟨rfl, by omega, hsignificant, rfl⟩
      | cons t before =>
          have htail : (scanContent source i).tokens = before ++ nl :: after := (List.cons.inj h).2
          have hmem : nl ∈ (scanContent source i).tokens := by
            rw [htail]
            simp
          exact absurd hnl (of_mem_scanContent hmem).1
  · exact absurd h (by simp [Scan.nil])

/-- The tokens of some lines, from one on, have the line break in front of line `j` behind `before`. -/
structure BreaksAt (source : Source) (count i : Nat) (before : List Token) (nl : Token) (j : Nat) : Prop where
  le : i ≤ j
  lt : j < i + count
  pos : 0 < j
  significant : isSignificant (source.line j) = true
  token : nl = ⟨.newLine, ⟨j, 0⟩⟩
  earlier : ∀ t ∈ before, t.position.line < j
  scan : scanLines source count i = ⟨before, none⟩ ++ scanLines source (i + count - j) j

theorem BreaksAt.of_scanLine {source : Source} {count i : Nat} {before after : List Token} {nl : Token}
    (hnl : nl.kind = .newLine) (h : (scanLine source i).tokens = before ++ nl :: after) :
    BreaksAt source (count + 1) i before nl i := by
  obtain ⟨rfl, hpos, hsignificant, rfl⟩ := scanLine_of_newLine hnl h
  refine ⟨Nat.le_refl i, by omega, hpos, hsignificant, rfl, by simp, ?_⟩
  rw [Nat.add_sub_cancel_left]
  rfl

theorem BreaksAt.behind {source : Source} {count i j : Nat} {before : List Token} {nl : Token}
    (h : BreaksAt source count (i + 1) before nl j) (herror : (scanLine source i).error = none) :
    BreaksAt source (count + 1) i ((scanLine source i).tokens ++ before) nl j := by
  obtain ⟨hle, hlt, hpos, hsignificant, htoken, hbefore, hscan⟩ := h
  refine ⟨by omega, by omega, hpos, hsignificant, htoken, ?_, ?_⟩
  · intro t ht
    rcases List.mem_append.1 ht with ht | ht
    · rw [position_of_mem_scanLine ht]
      omega
    · exact hbefore t ht
  · rw [scanLines, hscan, ← Scan.append_assoc, Scan.append_of_error_none herror]
    congr 2
    omega

/-- A line break starts a line, and all lines before it are read when it comes. -/
theorem exists_breaksAt {source : Source} {count i : Nat} {before after : List Token} {nl : Token}
    (hnl : nl.kind = .newLine) (h : (scanLines source count i).tokens = before ++ nl :: after) :
    ∃ j, BreaksAt source count i before nl j := by
  induction count generalizing i before with
  | zero => exact absurd h (by simp [scanLines, Scan.nil])
  | succ count ih =>
      -- Either the line break is one of this line, or this line is read without an error before it.
      rw [scanLines] at h
      cases herror : (scanLine source i).error with
      | some e =>
          rw [Scan.append_of_error herror] at h
          exact ⟨i, .of_scanLine hnl h⟩
      | none =>
          rw [Scan.tokens_append herror] at h
          rcases List.append_eq_append_iff.1 h with ⟨before', rfl, hrest⟩ | ⟨line, hline, hrest⟩
          · obtain ⟨j, hj⟩ := ih hrest
            exact ⟨j, hj.behind herror⟩
          · cases line with
            | nil =>
                have hbreak : (scanLines source count (i + 1)).tokens = [] ++ nl :: after := hrest.symm
                obtain ⟨j, hj⟩ := ih hbreak
                refine ⟨j, ?_⟩
                rw [List.append_nil] at hline
                rw [← hline, ← List.append_nil (scanLine source i).tokens]
                exact hj.behind herror
            | cons t line =>
                cases (List.cons.inj hrest).1
                exact ⟨i, .of_scanLine hnl hline⟩

/-! ### The first token of a line -/

/-- A token is the first of its line behind so many indentations: in front of it are only blanks. -/
structure LineHead (source : Source) (i depth : Nat) (first : Token) : Prop where
  line : first.position.line = i
  column : first.position.column < source.lineLength i
  blank : ((source.line i).take first.position.column).all isBlank = true
  depth : indentDepth (source.line i) = depth

/-- A list is cut in one way only into things of a class and a rest that starts with none. -/
theorem append_inj_of_class {α : Type} {p : α → Prop} {xs xs' ys ys' : List α} (hxs : ∀ x ∈ xs, p x)
    (hxs' : ∀ x ∈ xs', p x) (hys : ∀ y ∈ ys.head?, ¬ p y) (hys' : ∀ y ∈ ys'.head?, ¬ p y)
    (h : xs ++ ys = xs' ++ ys') : xs = xs' ∧ ys = ys' := by
  induction xs generalizing xs' with
  | nil =>
      cases xs' with
      | nil => exact ⟨rfl, h⟩
      | cons x xs' =>
          rw [List.nil_append] at h
          exact absurd (hxs' x (by simp)) (hys x (by rw [h]; rfl))
  | cons x xs ih =>
      cases xs' with
      | nil =>
          rw [List.nil_append] at h
          exact absurd (hxs x (by simp)) (hys' x (by rw [← h]; rfl))
      | cons x' xs' =>
          rw [List.cons_append, List.cons_append, List.cons.injEq] at h
          obtain ⟨rfl, h⟩ := h
          obtain ⟨rfl, rfl⟩ := ih (fun y hy => hxs y (by simp [hy])) (fun y hy => hxs' y (by simp [hy])) h
          exact ⟨rfl, rfl⟩

theorem Scan.mem_head_append {s s' : Scan} {t : Token} (h : t ∈ (s ++ s').tokens.head?) :
    t ∈ s.tokens.head? ∨ t ∈ s'.tokens.head? := by
  cases herror : s.error with
  | none =>
      rw [Scan.tokens_append herror] at h
      cases htokens : s.tokens with
      | nil =>
          rw [htokens] at h
          exact .inr h
      | cons t' tokens =>
          rw [htokens] at h
          exact .inl h
  | some e =>
      rw [Scan.append_of_error herror] at h
      exact .inl h

theorem position_of_mem_scanBody {source : Source} {i : Nat} {t : Token}
    (h : t ∈ (scanBody source i).tokens) :
    t.kind.isLayout = false ∧ t.position.line = i
      ∧ indentUnit.length * indentDepth (source.line i) ≤ t.position.column
      ∧ t.position.column < source.lineLength i := by
  obtain ⟨hlayout, hline, hle, hlt⟩ := position_of_mem_scanRest h
  rw [List.length_drop] at hlt
  refine ⟨hlayout, hline, hle, ?_⟩
  change _ < (source.line i).length
  omega

theorem all_isBlank_indentation (line : List Char) :
    (line.take (indentUnit.length * indentDepth line)).all isBlank = true := by
  have hle : indentUnit.length * indentDepth line ≤ (line.takeWhile (· == ' ')).length :=
    Nat.mul_div_le _ _
  obtain ⟨behind, hbehind⟩ := List.takeWhile_prefix (l := line) (· == ' ')
  have htake := congrArg (List.take (indentUnit.length * indentDepth line)) hbehind
  rw [List.take_append_of_le_length hle] at htake
  rw [← htake, List.all_eq_true]
  intro c hc
  have hspace := List.mem_takeWhile_imp (p := fun c => c == ' ') (List.mem_of_mem_take hc)
  rw [eq_of_beq hspace]
  decide

/-- In front of the first token of a line that is no indentation stand all indentations of the line. -/
theorem scanContent_eq_append {source : Source} {i : Nat} {s : Scan} {indents after : List Token}
    {first : Token} (hs : ∀ t ∈ s.tokens.head?, t.kind = .newLine)
    (hindents : ∀ t ∈ indents, t.kind = .indentation) (hfirst : first.kind ≠ .indentation)
    (h : (scanContent source i ++ s).tokens = indents ++ first :: after) :
    indents = (scanIndents i 0 (indentDepth (source.line i))).tokens
      ∧ (scanBody source i ++ s).tokens = first :: after := by
  rw [scanContent_eq, Scan.append_assoc, Scan.tokens_append (scanIndents_error _ _ _)] at h
  have hbody : ∀ t ∈ (scanBody source i ++ s).tokens.head?, ¬ t.kind = .indentation := by
    intro t ht hkind
    rcases Scan.mem_head_append ht with ht | ht
    · have hlayout := (position_of_mem_scanBody (List.mem_of_mem_head? ht)).1
      rw [hkind] at hlayout
      cases hlayout
    · cases hkind.symm.trans (hs t ht)
  obtain ⟨hleft, hright⟩ := append_inj_of_class (p := fun t => t.kind = .indentation)
    (fun t ht => (of_mem_scanIndents ht).1) hindents hbody (fun t ht => by cases ht; exact hfirst) h
  exact ⟨hleft.symm, hright⟩

/-- Behind all indentations of a line, the first token is the head of the line unless it is a line break. -/
theorem lineHead_of_scanContent {source : Source} {i : Nat} {s : Scan} {indents after : List Token}
    {first : Token} (hs : ∀ t ∈ s.tokens.head?, t.kind = .newLine)
    (hindents : ∀ t ∈ indents, t.kind = .indentation) (hfirst : first.kind.isLayout = false)
    (h : (scanContent source i ++ s).tokens = indents ++ first :: after) :
    LineHead source i indents.length first := by
  have hkind : first.kind ≠ .indentation := by
    intro hkind
    rw [hkind] at hfirst
    cases hfirst
  obtain ⟨hleft, hright⟩ := scanContent_eq_append hs hindents hkind h
  have hbody : first ∈ (scanBody source i).tokens.head? := by
    rcases Scan.mem_head_append (t := first) (by rw [hright]; rfl) with ht | ht
    · exact ht
    · rw [hs first ht] at hfirst
      cases hfirst
  obtain ⟨behind, hbehind⟩ : ∃ behind, (scanBody source i).tokens = first :: behind :=
    List.head?_eq_some_iff.1 hbody
  obtain ⟨-, hline, hle, hlt⟩ := position_of_mem_scanBody (List.mem_of_mem_head? hbody)
  have hblank := all_isBlank_before_scanRest hbehind
  refine ⟨hline, hlt, ?_, by rw [hleft, length_scanIndents]⟩
  -- The blanks of the indentation, and then those between it and the token.
  have hsplit : first.position.column = indentUnit.length * indentDepth (source.line i)
      + (first.position.column - indentUnit.length * indentDepth (source.line i)) := by omega
  rw [hsplit, List.take_add, List.all_append, all_isBlank_indentation, hblank]
  rfl

/-! ### Heads of lines in a text -/

/-- Behind the line break in front of a line come its tokens, and then the lines that follow. -/
theorem BreaksAt.content {source : Source} {count i j : Nat} {before after : List Token} {nl : Token}
    (hbreak : BreaksAt source count i before nl j)
    (h : (scanLines source count i).tokens = before ++ nl :: after) :
    scanContent source j ++ scanLines source (i + count - (j + 1)) (j + 1)
      = ⟨after, (scanLines source count i).error⟩ := by
  have hlt := hbreak.lt
  have hcount : i + count - j = (i + count - (j + 1)) + 1 := by omega
  have hpos : ¬ j = 0 := Nat.pos_iff_ne_zero.1 hbreak.pos
  have hscan := hbreak.scan
  rw [hcount, scanLines, scanLine, if_pos hbreak.significant, if_neg hpos, Scan.cons_append,
    Scan.append_of_error_none rfl] at hscan
  rw [hscan]
  rw [hscan] at h
  have htail := (List.cons.inj (List.append_cancel_left h)).2
  rw [← htail]
  rfl

theorem newLine_of_mem_head_scanLines {source : Source} {count i : Nat} (hi : 0 < i) :
    ∀ t ∈ (scanLines source count i).tokens.head?, t.kind = .newLine := by
  intro t ht
  obtain ⟨after, hafter⟩ := List.head?_eq_some_iff.1 ht
  exact head_scanLines hi hafter

/-- Behind a line break and indentations stands the head of a line, and what comes before the line break
is of earlier lines. -/
theorem exists_lineHead_of_newLine {source : Source} {count i : Nat} {before indents after : List Token}
    {nl first : Token} (hnl : nl.kind = .newLine) (hindents : ∀ t ∈ indents, t.kind = .indentation)
    (hfirst : first.kind.isLayout = false)
    (h : (scanLines source count i).tokens = before ++ nl :: (indents ++ first :: after)) :
    ∃ j, LineHead source j indents.length first ∧ ∀ t ∈ before, t.position.line < j := by
  obtain ⟨j, hbreak⟩ := exists_breaksAt hnl h
  have hcontent := congrArg Scan.tokens (hbreak.content h)
  exact ⟨j, lineHead_of_scanContent (newLine_of_mem_head_scanLines (Nat.succ_pos j)) hindents hfirst hcontent,
    hbreak.earlier⟩

/-- At the start of a text, behind indentations only, stands the head of the first line. -/
theorem lineHead_zero {source : Source} {count : Nat} {indents after : List Token} {first : Token}
    (hindents : ∀ t ∈ indents, t.kind = .indentation) (hfirst : first.kind.isLayout = false)
    (h : (scanLines source count 0).tokens = indents ++ first :: after) :
    LineHead source 0 indents.length first := by
  cases count with
  | zero => exact absurd h (by simp [scanLines, Scan.nil])
  | succ count =>
      have hlater : ∀ t ∈ (scanLines source count 1).tokens.head?, t.kind = .newLine :=
        newLine_of_mem_head_scanLines (Nat.succ_pos 0)
      rw [scanLines, scanLine] at h
      split at h
      · rw [if_pos rfl] at h
        exact lineHead_of_scanContent hlater hindents hfirst h
      · -- A line that says nothing has no tokens, and the next one starts with a line break.
        rw [Scan.nil_append] at h
        rw [h] at hlater
        cases indents with
        | nil =>
            rw [hlater first rfl] at hfirst
            cases hfirst
        | cons t indents => cases (hindents t (by simp)).symm.trans (hlater t rfl)

/-! ### Neighbours -/

/-- Of two tokens that follow each other, the second one is on the line of the first or starts a line. -/
theorem line_eq_of_neighbours {source : Source} {count i : Nat} {before after : List Token} {t t' : Token}
    (ht' : t'.kind ≠ .newLine) (h : (scanLines source count i).tokens = before ++ t :: t' :: after) :
    t.position.line = t'.position.line := by
  induction count generalizing i before with
  | zero => exact absurd h (by simp [scanLines, Scan.nil])
  | succ count ih =>
      have hline {ts : List Token} (h : (scanLine source i).tokens = before ++ t :: t' :: ts) :
          t.position.line = t'.position.line := by
        have hfirst : t ∈ (scanLine source i).tokens := by simp [h]
        have hsecond : t' ∈ (scanLine source i).tokens := by simp [h]
        rw [position_of_mem_scanLine hfirst, position_of_mem_scanLine hsecond]
      rw [scanLines] at h
      cases herror : (scanLine source i).error with
      | some e =>
          rw [Scan.append_of_error herror] at h
          exact hline h
      | none =>
          rw [Scan.tokens_append herror] at h
          rcases List.append_eq_append_iff.1 h with ⟨before', -, hrest⟩ | ⟨line, hfront, hrest⟩
          · exact ih hrest
          · -- The first token is the last of this line, or the second one is on it too.
            cases line with
            | nil =>
                have hrest : (scanLines source count (i + 1)).tokens = [] ++ t :: t' :: after := hrest.symm
                exact ih hrest
            | cons u line =>
                obtain ⟨rfl, htail⟩ := List.cons.inj hrest
                cases line with
                | nil => exact absurd (head_scanLines (Nat.succ_pos i) htail.symm) ht'
                | cons u' line =>
                    obtain ⟨rfl, -⟩ := List.cons.inj htail
                    exact hline hfront

/-! ### All tokens of one line -/

/-- The indentations of a line follow each other without a gap. -/
theorem tokens_scanIndents (line column count : Nat) :
    (scanIndents line column count).tokens
      = (List.range count).map fun level => ⟨.indentation, ⟨line, column + indentUnit.length * level⟩⟩ := by
  induction count generalizing column with
  | zero => rfl
  | succ count ih =>
      have hnext (level : Nat) : column + indentUnit.length * (level + 1)
          = column + indentUnit.length + indentUnit.length * level := by
        rw [Nat.mul_succ]
        omega
      rw [List.range_succ_eq_map, List.map_cons, List.map_map]
      simp only [Function.comp_def, Nat.succ_eq_add_one, hnext]
      exact congrArg (List.cons _) (ih _)

/-- A line with something to say has the line break in front of it, all its indentations, and then tokens that are
no layout. -/
theorem exists_tokens_scanLine {source : Source} {i : Nat} (h : isSignificant (source.line i) = true) :
    ∃ words : List Token, (∀ t ∈ words, t.kind.isLayout = false) ∧ (scanLine source i).tokens
      = (if i = 0 then [] else [⟨.newLine, ⟨i, 0⟩⟩])
        ++ (scanIndents i 0 (indentDepth (source.line i))).tokens ++ words := by
  refine ⟨(scanBody source i).tokens, fun t ht => (position_of_mem_scanBody ht).1, ?_⟩
  have hcontent : (scanContent source i).tokens = _ :=
    (congrArg Scan.tokens (scanContent_eq source i)).trans (Scan.tokens_append (scanIndents_error _ _ _))
  rw [scanLine, if_pos h]
  split
  · exact hcontent
  · exact congrArg (List.cons _) hcontent

/-- Where no error comes up among some lines, the tokens on one of them are those that the line has by itself. -/
theorem filter_scanLines {source : Source} {count first i : Nat}
    (herror : (scanLines source count first).error = none) (hle : first ≤ i) (hlt : i < first + count) :
    (scanLines source count first).tokens.filter (·.position.line = i) = (scanLine source i).tokens := by
  induction count generalizing first with
  | zero => omega
  | succ count ih =>
      rw [scanLines] at herror ⊢
      obtain ⟨hfirst, hlater⟩ := Scan.error_append herror
      rw [Scan.tokens_append hfirst, List.filter_append]
      by_cases heq : first = i
      · subst heq
        have hline : (scanLine source first).tokens.filter (·.position.line = first)
            = (scanLine source first).tokens :=
          List.filter_eq_self.2 fun t ht => decide_eq_true (position_of_mem_scanLine ht)
        have hbehind : (scanLines source count (first + 1)).tokens.filter (·.position.line = first) = [] := by
          refine List.filter_eq_nil_iff.2 fun t ht => ?_
          have := (line_of_mem_scanLines ht).1
          rw [decide_eq_true_eq]
          omega
        rw [hline, hbehind, List.append_nil]
      · have hfront : (scanLine source first).tokens.filter (·.position.line = i) = [] := by
          refine List.filter_eq_nil_iff.2 fun t ht => ?_
          rw [position_of_mem_scanLine ht, decide_eq_true_eq]
          exact heq
        rw [hfront, List.nil_append, ih hlater (by omega) (by omega)]

/-- The tokens of a text on a line with something to say are those that the line has by itself: the indentations
that a text can have in front of its first such line are on lines without anything to say. -/
theorem Stream.filter_ofSource {source : Source} {i : Nat} (hfinished : (ofSource source).scan.error = none)
    (h : isSignificant (source.line i) = true) :
    (ofSource source).scan.tokens.filter (·.position.line = i) = (scanLine source i).tokens := by
  obtain ⟨strays, hstrays, hscan⟩ := exists_scan_ofSource source
  rw [hscan] at hfinished ⊢
  have hlines := (Scan.error_append hfinished).2
  have hline := Cursor.line_lt_of_hasMore (Cursor.hasMore_of_isSignificant (c := ⟨i, 0, false, false, false⟩) h)
  have hfront : strays.filter (·.position.line = i) = [] := by
    refine List.filter_eq_nil_iff.2 fun t ht => ?_
    rw [decide_eq_true_eq]
    rintro rfl
    cases h.symm.trans (hstrays t ht).line
  rw [Scan.tokens_append rfl, List.filter_append, hfront, List.nil_append,
    filter_scanLines hlines (Nat.zero_le i) (by rw [Nat.zero_add]; exact hline)]

/-- On a line that is neither blank nor a comment from its first character on, a text that consists of tokens to its
end has, in this order, one line break at the start unless the line is the first one, one indentation at every
fourth column for each four of the spaces the line starts with, and then no more layout. -/
theorem layout_of_finished {source : Source} {c : Cursor} {i : Nat}
    (hfinished : (Stream.ofSource source).ending = .finished c) (hblank : (source.line i).all isBlank = false)
    (hcomment : (source.line i).head? ≠ some '#') :
    let spaces := ((source.line i).takeWhile (· == ' ')).length
    ∃ words : List Token, (∀ t ∈ words, t.kind ≠ .newLine ∧ t.kind ≠ .indentation)
      ∧ ((Stream.ofSource source).tokens.map Lexed.token).filter (·.position.line = i)
        = (if i = 0 then [] else [⟨.newLine, ⟨i, 0⟩⟩])
          ++ (List.range (spaces / 4)).map (fun level => ⟨.indentation, ⟨i, 4 * level⟩⟩) ++ words := by
  intro spaces
  have herror : (Stream.ofSource source).scan.error = none := by rw [Stream.scan, hfinished]
  have hsignificant : isSignificant (source.line i) = true := by
    rw [isSignificant, hblank, Bool.not_false, Bool.true_and, bne_iff_ne]
    exact hcomment
  obtain ⟨words, hwords, hline⟩ := exists_tokens_scanLine hsignificant
  refine ⟨words, fun t ht => ?_, ?_⟩
  · have hlayout := hwords t ht
    constructor <;> intro hkind <;> rw [hkind] at hlayout <;> cases hlayout
  · have htokens := (Stream.filter_ofSource herror hsignificant).trans hline
    rw [tokens_scanIndents] at htokens
    simp only [Nat.zero_add] at htokens
    exact htokens

/-- A first line with a tab only, a comment, and a line that starts with six blanks, where the runs of blanks further
on count for nothing. -/
theorem layout_of_finished_tab :
    let source := Source.ofText "\t\n# x\n      wypisz    1    \n\nwypisz 2"
    let stream := Stream.ofSource source
    stream.ending = .finished ⟨5, 0, true, false, false⟩
      ∧ stream.tokens.head?.map Lexed.token = some ⟨.indentation, ⟨0, 0⟩⟩
      ∧ (source.line 2).all isBlank = false ∧ (source.line 2).head? ≠ some '#'
      ∧ ∃ words : List Token, (∀ t ∈ words, t.kind ≠ .newLine ∧ t.kind ≠ .indentation)
        ∧ (stream.tokens.map Lexed.token).filter (·.position.line = 2)
          = [⟨.newLine, ⟨2, 0⟩⟩] ++ [⟨.indentation, ⟨2, 0⟩⟩] ++ words := by
  intro source stream
  have hfinished : stream.ending = .finished ⟨5, 0, true, false, false⟩ := by decide +kernel
  have hblank : (source.line 2).all isBlank = false := by decide +kernel
  have hcomment : (source.line 2).head? ≠ some '#' := by decide +kernel
  have hspaces : ((source.line 2).takeWhile (· == ' ')).length = 6 := by decide +kernel
  obtain ⟨words, hwords, htokens⟩ := layout_of_finished hfinished hblank hcomment
  rw [hspaces] at htokens
  exact ⟨hfinished, by decide +kernel, hblank, hcomment, words, hwords, htokens⟩

end PolishPseudocode
