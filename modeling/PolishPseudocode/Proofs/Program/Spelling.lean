import PolishPseudocode.Proofs.Program.Printer
import PolishPseudocode.Proofs.Token.Layout

/-! The tokens of a printed program. Its text is read back, word by word and line by line, as the tokens that
the program is made of. -/

namespace PolishPseudocode

variable {numeral : Float → Numeral} {rest : List Char} {kinds : List Token.Kind}

/-! ### Expressions -/

theorem Literal.lexes (v : Literal) (h : v.wellFormed numeral = true) (hrest : delimits rest = true)
    (hlex : Lexes rest kinds) : Lexes (v.printed numeral ++ rest) (v.kinds numeral ++ kinds) := by
  cases v with
  | number x =>
      rw [Literal.printed, Literal.kinds]
      split
      · simp only [List.cons_append, List.append_assoc, List.nil_append]
        exact (Lexes.numeral _ rfl hlex.closing).minus.opening
      · exact Lexes.numeral _ hrest hlex
  | text content =>
      rw [Literal.printed, Literal.kinds]
      simp only [List.cons_append, List.append_assoc, List.nil_append]
      have hcontent : ∀ c ∈ content.toList, c ≠ '"' ∧ c ≠ '\n' ∧ c ≠ '\t' := by
        intro c hc
        have hchar := List.all_eq_true.1 h c hc
        simp only [Bool.and_eq_true, bne_iff_ne] at hchar
        exact ⟨hchar.1.1, hchar.1.2, hchar.2⟩
      have htext := hlex.text hcontent
      rw [String.ofList_toList] at htext
      exact htext
  | bool b =>
      have hmem : ((boolText b).toList, .bool b) ∈ Lexeme.fixed := by cases b <;> decide
      refine Lexes.fixed hmem ?_ hlex
      intro c hc
      exact ⟨isBreak_of_delimits hrest c hc, by rintro ⟨⟩⟩

/-- The operators as they are written between operands. -/
theorem mem_fixed_binary (op : BinaryOp) : (op.spelling.toList, .operator (.binary op)) ∈ Lexeme.fixed := by
  cases op <;> decide

theorem delimits_binary (op : BinaryOp) (rest : List Char) :
    delimits (' ' :: (op.spelling.toList ++ rest)) = true := by
  cases op <;> rfl

theorem Expr.lexesAll {es : List Expr}
    (h : ∀ e ∈ es, ∀ (rest : List Char) (kinds : List Token.Kind), delimits rest = true → Lexes rest kinds →
      Lexes (e.printed numeral ++ rest) (e.kinds numeral ++ kinds))
    (hrest : delimits rest = true) (hlex : Lexes rest kinds) :
    Lexes (Expr.printedAll numeral es ++ rest) (Expr.kindsAll numeral es ++ kinds) := by
  induction es with
  | nil => exact hlex
  | cons e es ih =>
      obtain ⟨he, hes⟩ := List.forall_mem_cons.1 h
      cases es with
      | nil => exact he rest kinds hrest hlex
      | cons e' es =>
          rw [Expr.printedAll, Expr.kindsAll]
          · simp only [List.append_assoc, List.cons_append]
            exact he _ _ rfl (ih hes).comma
          · simp
          · simp

theorem Expr.lexes (e : Expr) (h : e.wellFormed numeral = true) (hrest : delimits rest = true)
    (hlex : Lexes rest kinds) : Lexes (e.printed numeral ++ rest) (e.kinds numeral ++ kinds) := by
  induction e using Expr.inductionOn generalizing rest kinds with
  | literal v p => exact v.lexes h hrest hlex
  | var name => exact Lexes.name h hrest hlex
  | unary op e p ih =>
      cases op with
      | not =>
          rw [Expr.printed, Expr.kinds]
          simp only [List.cons_append, List.append_assoc, List.nil_append]
          exact (Lexes.spaced (by decide) (ih h rfl hlex.closing)).opening
      | negate =>
          rw [Expr.wellFormed, Bool.and_eq_true] at h
          rw [Expr.printed, Expr.kinds]
          simp only [List.cons_append, List.append_assoc, List.nil_append]
          exact (ih h.2 rfl hlex.closing).minus.opening
  | binary left op right p ihleft ihright =>
      rw [Expr.wellFormed, Bool.and_eq_true] at h
      rw [Expr.printed, Expr.kinds]
      simp only [List.cons_append, List.append_assoc, List.nil_append]
      have hright := Lexes.spaced (mem_fixed_binary op) (ihright h.2 rfl hlex.closing)
      exact (ihleft h.1 (delimits_binary op _) hright.blank).opening
  | index target i p ihtarget ihindex =>
      rw [Expr.wellFormed, Bool.and_eq_true] at h
      rw [Expr.printed, Expr.kinds]
      simp only [List.cons_append, List.append_assoc, List.nil_append]
      exact ihtarget h.1 rfl (ihindex h.2 rfl hlex.closingBracket).openingBracket
  | call callee arguments p ih =>
      rw [Expr.wellFormed, Bool.and_eq_true] at h
      rw [Expr.printed, Expr.kinds]
      simp only [List.cons_append, List.append_assoc, List.nil_append]
      have hclosed : delimits (')' :: rest) = true := rfl
      have harguments := Expr.lexesAll
        (fun e he _ _ => ih e he (Expr.wellFormed_of_mem h.2 e he)) hclosed hlex.closing
      exact Lexes.name h.1 rfl harguments.opening

/-! ### Lines -/

/-- Whether a text can stand first on a line. -/
def startsLine (text : List Char) : Bool :=
  text.head?.any fun c => !isBlank c && c != '#'

/-- Lines that follow each other have tokens of these kinds, with a line break before each line. -/
inductive RowsLex : List Row → List Token.Kind → Prop where
  | nil : RowsLex [] []
  | cons (depth : Nat) {text : List Char} {kinds kinds' : List Token.Kind} {rows : List Row}
      (hstart : startsLine text = true) (hlex : Lexes text kinds) (hrows : RowsLex rows kinds') :
      RowsLex ((depth, text) :: rows) (lineKinds depth (kinds ++ kinds'))

namespace RowsLex

variable {rows rows' : List Row} {kinds' : List Token.Kind}

theorem append (h : RowsLex rows kinds) (h' : RowsLex rows' kinds') :
    RowsLex (rows ++ rows') (kinds ++ kinds') := by
  induction h with
  | nil => exact h'
  | cons depth hstart hlex hrows ih =>
      have hcons := cons depth hstart hlex ih
      simp only [lineKinds, List.cons_append, List.append_assoc] at hcons ⊢
      exact hcons

/-- One line alone. -/
theorem single (depth : Nat) {text : List Char} (hstart : startsLine text = true) (hlex : Lexes text kinds) :
    RowsLex [(depth, text)] (lineKinds depth kinds) := by
  have hcons := cons depth hstart hlex .nil
  rw [List.append_nil] at hcons
  exact hcons

end RowsLex

theorem startsLine_name {name : String} (h : isFreeName name = true) (rest : List Char) :
    startsLine (name.toList ++ rest) = true := by
  obtain ⟨c, cs, hchars, hstart, -⟩ := Lexeme.exists_of_isFreeName h
  have hhash : c ≠ '#' := by
    rintro rfl
    exact absurd hstart (by decide)
  rw [hchars]
  simp [startsLine, isBlank_eq_false_of_isNameStart hstart, hhash]

theorem startsLine_keyword (word : Keyword) (rest : List Char) :
    startsLine (word.spelling.toList ++ rest) = true := by
  cases word <;> rfl

theorem mem_fixed_keyword (word : Keyword) : (word.spelling.toList, .keyword word) ∈ Lexeme.fixed := by
  cases word <;> decide

theorem delimits_keyword (word : Keyword) (rest : List Char) :
    delimits (' ' :: (word.spelling.toList ++ rest)) = true := by
  cases word <;> rfl

theorem lexes_names {names : List Name} (h : names.all (isFreeName ·.name) = true)
    (hrest : delimits rest = true) (hlex : Lexes rest kinds) :
    Lexes (namesPrinted names ++ rest) (namesKinds names ++ kinds) := by
  induction names with
  | nil => exact hlex
  | cons name names ih =>
      rw [List.all_cons, Bool.and_eq_true] at h
      cases names with
      | nil => exact Lexes.name h.1 hrest hlex
      | cons name' names =>
          rw [namesPrinted, namesKinds]
          · simp only [List.append_assoc, List.cons_append]
            exact Lexes.name h.1 rfl (ih h.2).comma
          · simp
          · simp

theorem Target.lexes (t : Target) (h : t.wellFormed numeral = true) (hrest : delimits rest = true)
    (hlex : Lexes rest kinds) : Lexes (t.printed numeral ++ rest) (t.kinds numeral ++ kinds) := by
  cases t with
  | var name => exact Lexes.name h hrest hlex
  | element name i =>
      rw [Target.wellFormed, Bool.and_eq_true] at h
      rw [Target.printed, Target.kinds]
      simp only [List.append_assoc, List.cons_append, List.nil_append]
      exact Lexes.name h.1 rfl (i.lexes h.2 rfl hlex.closingBracket).openingBracket

theorem Target.startsLine (t : Target) (h : t.wellFormed numeral = true) (rest : List Char) :
    startsLine (t.printed numeral ++ rest) = true := by
  cases t with
  | var name => exact startsLine_name h rest
  | element name i =>
      rw [Target.wellFormed, Bool.and_eq_true] at h
      rw [Target.printed, List.append_assoc]
      exact startsLine_name h.1 _

/-- An expression at the end of a line. -/
theorem Expr.lexes_last (e : Expr) (h : e.wellFormed numeral = true) :
    Lexes (e.printed numeral) (e.kinds numeral) := by
  have hlast : Lexes (e.printed numeral ++ []) (e.kinds numeral ++ []) := e.lexes h rfl .nil
  rw [List.append_nil, List.append_nil] at hlast
  exact hlast

/-- An expression and the keyword at the end of a line. -/
theorem Expr.lexes_keyword (e : Expr) (h : e.wellFormed numeral = true) (word : Keyword) :
    Lexes (e.printed numeral ++ ' ' :: word.spelling.toList) (e.kinds numeral ++ [.keyword word]) := by
  have hdelimits := delimits_keyword word []
  rw [List.append_nil] at hdelimits
  exact e.lexes h hdelimits (Lexes.last (mem_fixed_keyword word)).blank

/-- A call and the arguments between its parentheses. -/
theorem lexes_call {callee : String} {arguments : List Expr} (hcallee : isFreeName callee = true)
    (harguments : Expr.wellFormedAll numeral arguments = true) :
    Lexes (callee.toList ++ '(' :: (Expr.printedAll numeral arguments ++ [')']))
      (.identifier callee :: .delimiter .parenthesis .opening
        :: (Expr.kindsAll numeral arguments ++ [.delimiter .parenthesis .closing])) := by
  have hclosed : delimits [')'] = true := rfl
  have hlex := Expr.lexesAll (fun e he _ _ => e.lexes (Expr.wellFormed_of_mem harguments e he)) hclosed
    Lexes.nil.closing
  exact Lexes.name hcallee rfl hlex.opening

theorem Statement.rowsLexAll {depth : Nat} {ss : List Statement}
    (h : ∀ s ∈ ss, RowsLex (s.rows numeral depth) (lineKinds depth (s.kinds numeral depth))) :
    RowsLex (Statement.rowsAll numeral depth ss) (Statement.kindsAll numeral depth ss) := by
  induction ss with
  | nil =>
      rw [Statement.rowsAll, Statement.kindsAll]
      exact .nil
  | cons s ss ih =>
      obtain ⟨hs, hss⟩ := List.forall_mem_cons.1 h
      rw [Statement.rowsAll, Statement.kindsAll]
      exact hs.append (ih hss)

theorem Statement.rowsLex (s : Statement) (depth : Nat) (inFunction : Bool)
    (h : s.wellFormed numeral inFunction = true) :
    RowsLex (s.rows numeral depth) (lineKinds depth (s.kinds numeral depth)) := by
  -- The lines of a block are those of its statements, one level deeper.
  have block {body : List Statement} {inFunction : Bool}
      (ih : ∀ s ∈ body, ∀ (depth : Nat) (inFunction : Bool), s.wellFormed numeral inFunction = true →
        RowsLex (s.rows numeral depth) (lineKinds depth (s.kinds numeral depth)))
      (hbody : Statement.wellFormedAll numeral inFunction body = true) (depth : Nat) :
      RowsLex (Statement.rowsAll numeral depth body) (Statement.kindsAll numeral depth body) :=
    Statement.rowsLexAll fun s hs => ih s hs depth inFunction (Statement.wellFormed_of_mem hbody s hs)
  induction s using Statement.inductionOn generalizing depth inFunction with
  | assign target value =>
      rw [Statement.wellFormed, Bool.and_eq_true] at h
      rw [Statement.rows, Statement.kinds]
      refine .single depth (target.startsLine h.1 _) ?_
      exact target.lexes h.1 rfl (Lexes.spaced (mem_fixed_keyword .assign) (value.lexes_last h.2)).blank
  | call callee arguments p =>
      rw [Statement.wellFormed, Bool.and_eq_true] at h
      rw [Statement.rows, Statement.kinds]
      exact .single depth (startsLine_name h.1 _) (lexes_call h.1 h.2)
  | whileLoop condition body p ih =>
      simp only [Statement.wellFormed, Bool.and_eq_true] at h
      obtain ⟨⟨hcondition, -⟩, hbody⟩ := h
      rw [Statement.rows, Statement.kinds]
      have hhead := Lexes.spaced (mem_fixed_keyword .while_) (condition.lexes_keyword hcondition .do_)
      have hrows := RowsLex.cons depth (startsLine_keyword .while_ _) hhead (block ih hbody (depth + 1))
      rw [List.cons_append, List.append_assoc] at hrows
      exact hrows
  | forLoop counter start second last body p ih =>
      simp only [Statement.wellFormed, Bool.and_eq_true] at h
      obtain ⟨⟨⟨⟨⟨hcounter, hstart⟩, hsecond⟩, hlast⟩, -⟩, hbody⟩ := h
      rw [Statement.rows, Statement.kinds]
      have hellipsis : ("...".toList, .ellipsis) ∈ Lexeme.fixed := by decide
      have hbound := Lexes.fixed hellipsis (by simp [isBreak]) (last.lexes_keyword hlast .do_).comma
      have hrange := start.lexes hstart rfl (second.lexes hsecond rfl hbound.comma).comma
      have hcounting := Lexes.name hcounter rfl (Lexes.spaced (mem_fixed_keyword .equals) hrange).blank
      have hhead := Lexes.spaced (mem_fixed_keyword .for_) hcounting
      have hrows := RowsLex.cons depth (startsLine_keyword .for_ _) hhead (block ih hbody (depth + 1))
      simp only [List.cons_append, List.append_assoc, List.nil_append] at hrows
      exact hrows
  | branch condition body otherwise p ih ihotherwise =>
      cases otherwise with
      | none =>
          simp only [Statement.wellFormed, Bool.and_eq_true] at h
          obtain ⟨⟨hcondition, -⟩, hbody⟩ := h
          rw [Statement.rows, Statement.kinds]
          have hhead := Lexes.spaced (mem_fixed_keyword .if_) (condition.lexes_keyword hcondition .then_)
          have hrows := RowsLex.cons depth (startsLine_keyword .if_ _) hhead (block ih hbody (depth + 1))
          rw [List.cons_append, List.append_assoc] at hrows
          exact hrows
      | some otherwise =>
          simp only [Statement.wellFormed, Bool.and_eq_true] at h
          obtain ⟨⟨⟨⟨hcondition, -⟩, hbody⟩, -⟩, hotherwise⟩ := h
          rw [Statement.rows, Statement.kinds]
          have hhead := Lexes.spaced (mem_fixed_keyword .if_) (condition.lexes_keyword hcondition .then_)
          have helse := RowsLex.cons depth (startsLine_keyword .else_ [])
            (Lexes.last (mem_fixed_keyword .else_)) (block (ihotherwise otherwise rfl) hotherwise (depth + 1))
          have hrows := RowsLex.cons depth (startsLine_keyword .if_ _) hhead
            ((block ih hbody (depth + 1)).append helse)
          rw [List.cons_append, List.append_assoc] at hrows
          exact hrows
  | function name parameters body p ih =>
      simp only [Statement.wellFormed, Bool.and_eq_true] at h
      obtain ⟨⟨⟨hname, hparameters⟩, -⟩, hbody⟩ := h
      rw [Statement.rows, Statement.kinds]
      have hnames := lexes_names hparameters rfl Lexes.nil.closing
      have hhead := Lexes.spaced (mem_fixed_keyword .function) (Lexes.name hname rfl hnames.opening)
      have hrows := RowsLex.cons depth (startsLine_keyword .function _) hhead (block ih hbody (depth + 1))
      simp only [List.cons_append, List.append_assoc, List.nil_append] at hrows
      exact hrows
  | giveBack value p =>
      cases value with
      | none => exact .single depth (startsLine_keyword .return_ []) (Lexes.last (mem_fixed_keyword .return_))
      | some value =>
          rw [Statement.wellFormed, Bool.and_eq_true] at h
          exact .single depth (startsLine_keyword .return_ _)
            (Lexes.spaced (mem_fixed_keyword .return_) (value.lexes_last h.2))
  | print value p =>
      exact .single depth (startsLine_keyword .print _)
        (Lexes.spaced (mem_fixed_keyword .print) (value.lexes_last h))

/-! ### The tokens of lines -/

theorem exists_of_startsLine {text : List Char} (h : startsLine text = true) :
    ∃ c cs, text = c :: cs ∧ isBlank c = false ∧ c ≠ '#' := by
  cases text with
  | nil => cases h
  | cons c cs =>
      have hfirst : (!isBlank c && c != '#') = true := h
      rw [Bool.and_eq_true, Bool.not_eq_true', bne_iff_ne] at hfirst
      exact ⟨c, cs, rfl, hfirst⟩

theorem indentDepth_row {text : List Char} (depth : Nat) (h : startsLine text = true) :
    indentDepth (Row.text (depth, text)) = depth := by
  obtain ⟨c, cs, rfl, hblank, -⟩ := exists_of_startsLine h
  have hrun : (Row.text (depth, c :: cs)).takeWhile (· == ' ')
      = List.replicate (indentUnit.length * depth) ' ' := by
    apply takeWhile_append_of_head
    · simp
    · rintro _ ⟨⟩
      rw [beq_eq_false_iff_ne]
      rintro rfl
      exact absurd hblank (by decide)
  rw [indentDepth, hrun, List.length_replicate, Nat.mul_div_cancel_left _ (by decide)]

theorem isSignificant_row {text : List Char} (depth : Nat) (h : startsLine text = true) :
    isSignificant (Row.text (depth, text)) = true := by
  obtain ⟨c, cs, rfl, hblank, hhash⟩ := exists_of_startsLine h
  have hfirst : (Row.text (depth, c :: cs)).head? ≠ some '#' := by
    cases depth with
    | zero =>
        rintro ⟨⟩
        exact hhash rfl
    | succ depth =>
        have hwidth : indentUnit.length * (depth + 1) = indentUnit.length * depth + 3 + 1 := rfl
        rw [Row.text, hwidth, List.replicate_succ]
        rintro ⟨⟩
  rw [isSignificant, Bool.and_eq_true, Bool.not_eq_true', bne_iff_ne]
  refine ⟨?_, hfirst⟩
  rw [Row.text, List.all_append, List.all_cons, hblank, Bool.false_and, Bool.and_false]

/-- The tokens of one line: its indentation and the words of its text. -/
theorem scanContent_row {source : Source} {i depth : Nat} {text : List Char}
    (hline : source.line i = Row.text (depth, text)) (hstart : startsLine text = true)
    (hlex : Lexes text kinds) :
    (scanContent source i).error = none
      ∧ (scanContent source i).tokens.map Token.kind = List.replicate depth .indentation ++ kinds := by
  have hbody : scanBody source i
      = scanRest (source.isLast i) i (indentUnit.length * depth) text := by
    have hdrop : (Row.text (depth, text)).drop (indentUnit.length * depth) = text := by
      rw [Row.text]
      exact List.drop_left' List.length_replicate
    rw [scanBody, hline, indentDepth_row depth hstart, hdrop]
  obtain ⟨herror, htokens⟩ := hlex.scan (source.isLast i) i (indentUnit.length * depth)
  rw [scanContent_eq, hline, indentDepth_row depth hstart, hbody,
    Scan.append_of_error_none (scanIndents_error i 0 depth)]
  refine ⟨herror, ?_⟩
  rw [List.map_append, kinds_scanIndents, htokens]

/-- The tokens of lines that follow each other in a source. Only the first line of all has no line break
before it. -/
theorem RowsLex.scanLines {source : Source} {rows : List Row} (h : RowsLex rows kinds) (i : Nat)
    (hlines : source.lines.drop i = rows.map Row.text) :
    (scanLines source rows.length i).error = none
      ∧ (scanLines source rows.length i).tokens.map Token.kind = if i = 0 then kinds.tail else kinds := by
  induction h generalizing i with
  | nil =>
      refine ⟨rfl, ?_⟩
      split <;> rfl
  | @cons depth text kinds kinds' rows hstart hlex hrows ih =>
      have hline : source.line i = Row.text (depth, text) := by
        have hhead := congrArg List.head? hlines
        rw [List.head?_drop] at hhead
        rw [Source.line, List.getD_eq_getElem?_getD, hhead]
        rfl
      have hbehind : source.lines.drop (i + 1) = rows.map Row.text := by
        rw [← List.tail_drop, hlines]
        rfl
      obtain ⟨herror, htokens⟩ := scanContent_row hline hstart hlex
      obtain ⟨herror', htokens'⟩ := ih (i + 1) hbehind
      rw [if_neg (Nat.succ_ne_zero i)] at htokens'
      rw [List.length_cons, PolishPseudocode.scanLines, scanLine, hline,
        if_pos (isSignificant_row depth hstart)]
      by_cases hi : i = 0
      · rw [if_pos hi, if_pos hi, Scan.append_of_error_none herror, List.map_append, htokens, htokens',
          List.append_assoc]
        exact ⟨herror', rfl⟩
      · rw [if_neg hi, if_neg hi, Scan.cons_append, Scan.append_of_error_none herror]
        refine ⟨herror', ?_⟩
        rw [Scan.cons, List.map_cons, List.map_append, htokens, htokens', List.append_assoc]
        rfl

/-! ### Lines and the text they make up -/

theorem splitLines_of_not_mem {line : List Char} (h : '\n' ∉ line) : splitLines line = [line] := by
  induction line with
  | nil => rfl
  | cons c line ih =>
      rw [List.mem_cons, not_or] at h
      rw [splitLines, if_neg (Ne.symm h.1), ih h.2]

theorem splitLines_intercalate {lines : List (List Char)} (h : ∀ line ∈ lines, '\n' ∉ line)
    (hne : lines ≠ []) :
    splitLines (['\n'].intercalate lines) = lines := by
  induction lines with
  | nil => exact absurd rfl hne
  | cons line lines ih =>
      obtain ⟨hline, hlines⟩ := List.forall_mem_cons.1 h
      cases lines with
      | nil => rw [List.intercalate_singleton, splitLines_of_not_mem hline]
      | cons line' lines =>
          rw [List.intercalate_cons_cons, List.append_assoc, List.singleton_append,
            splitLines_append, splitLines_of_not_mem hline, ih hlines (List.cons_ne_nil _ _)]
          rfl

theorem expandTab_of_not_mem {line : List Char} (h : '\t' ∉ line) : expandTab line = line := by
  induction line with
  | nil => rfl
  | cons c line ih =>
      rw [List.mem_cons, not_or] at h
      rw [expandTab, if_neg (Ne.symm h.1), ih h.2]

theorem RowsLex.inline {rows : List Row} (h : RowsLex rows kinds) :
    ∀ row ∈ rows, ∀ c ∈ Row.text row, c ≠ '\n' ∧ c ≠ '\t' := by
  induction h with
  | nil => simp
  | cons depth hstart hlex hrows ih =>
      refine List.forall_mem_cons.2 ⟨List.forall_mem_append.2 ⟨?_, hlex.inline⟩, ih⟩
      intro c hc
      obtain rfl := List.eq_of_mem_replicate hc
      decide

/-- A text made up of lines falls into these lines. -/
theorem RowsLex.lines_ofText {rows : List Row} (h : RowsLex rows kinds) (hne : rows ≠ []) :
    (Source.ofText (String.ofList (['\n'].intercalate (rows.map Row.text)))).lines = rows.map Row.text := by
  have hnewLine : ∀ line ∈ rows.map Row.text, '\n' ∉ line := by
    intro line hline hc
    obtain ⟨row, hrow, rfl⟩ := List.mem_map.1 hline
    exact (h.inline row hrow _ hc).1 rfl
  have htab : ∀ line ∈ rows.map Row.text, expandTab line = line := by
    intro line hline
    obtain ⟨row, hrow, rfl⟩ := List.mem_map.1 hline
    exact expandTab_of_not_mem fun hc => (h.inline row hrow _ hc).2 rfl
  rw [Source.ofText, String.toList_ofList, splitLines_intercalate hnewLine (by simpa using hne)]
  exact (List.map_congr_left htab).trans (List.map_id' _)

/-- The text of some lines is read as the tokens of these lines. -/
theorem RowsLex.scan_ofText {rows : List Row} (h : RowsLex rows kinds) :
    let stream := Stream.ofSource (Source.ofText (String.ofList (['\n'].intercalate (rows.map Row.text))))
    stream.scan.error = none ∧ stream.scan.tokens.map Token.kind = kinds.tail := by
  cases h with
  | nil => decide +kernel
  | @cons depth text _ _ rows hstart hlex hrows =>
      have hall : RowsLex ((depth, text) :: rows) _ := .cons depth hstart hlex hrows
      have hlines := hall.lines_ofText (List.cons_ne_nil _ _)
      intro stream
      have hline : (Source.ofText (String.ofList (['\n'].intercalate
          (((depth, text) :: rows).map Row.text)))).line 0 = Row.text (depth, text) := by
        rw [Source.line, hlines]
        rfl
      have hscan := Stream.scan_ofSource_of_isSignificant (hline ▸ isSignificant_row depth hstart)
      rw [hscan, hlines, List.length_map]
      exact hall.scanLines 0 (by rw [hlines, List.drop_zero])

/-- A printed program is read as the tokens it is made of. -/
theorem scan_printed {program : Program} (h : program.wellFormed numeral = true) :
    let stream := Stream.ofSource (Source.ofText (program.printed numeral))
    stream.scan.error = none
      ∧ stream.scan.tokens.map Token.kind = (Statement.kindsAll numeral 0 program).tail :=
  RowsLex.scan_ofText
    (Statement.rowsLexAll fun s hs => s.rowsLex 0 false (Statement.wellFormed_of_mem h s hs))

end PolishPseudocode
