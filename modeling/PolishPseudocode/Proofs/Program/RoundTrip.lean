import PolishPseudocode.Proofs.Program.Kinds
import PolishPseudocode.Proofs.Program.PrintedExpr
import PolishPseudocode.Proofs.Program.Spelling

/-! Printing a program and reading the text gives the program back. The text is read as the tokens of the
program, and these tokens as the program: a block ends at the first line that is indented less, and whether the
word for "otherwise" in that line stays ahead is decided by the blocks it ends. -/

namespace PolishPseudocode

/-- What is assigned to starts with its name. -/
theorem Target.exists_kinds_eq_cons (numeral : Float → Numeral) (t : Target) :
    ∃ name kinds, t.kinds numeral = .identifier name :: kinds := by
  cases t with
  | var name => exact ⟨_, _, rfl⟩
  | element name i => exact ⟨_, _, rfl⟩

namespace Reading

variable {numeral : Float → Numeral} {r : Reading} {rest : List Token.Kind}

/-! ### Heads of statements -/

theorem condition_reads (hr : r.Settles) {e : Expr} (he : e.wellFormed numeral = true) (word : Keyword) :
    Reads (r.condition word (bareTokens (e.kinds numeral ++ .keyword word :: rest))) (e.relocate nowhere)
      rest := by
  apply (readsBack hr e he (by rintro _ ⟨⟩; rfl)).bind
  intro hlt
  exact (keyword_reads hr word).bind fun hlt' => ⟨rfl, rfl⟩

theorem target_reads (hr : r.Settles) {t : Target} (ht : t.wellFormed numeral = true) {name : String}
    {kinds : List Token.Kind} (hkinds : t.kinds numeral = .identifier name :: kinds) :
    Reads (r.target ⟨name, noPlace⟩ (bareTokens (kinds ++ .keyword .assign :: rest))) (t.relocate nowhere)
      (.keyword .assign :: rest) := by
  cases t with
  | var name =>
      cases hkinds
      rw [target, if_neg]
      · exact ⟨rfl, rfl⟩
      · simp [bareTokens, Token.Kind.class]
  | element name i =>
      rw [Target.wellFormed, Bool.and_eq_true] at ht
      cases hkinds
      rw [target, if_pos (by rfl)]
      apply (delimiter_reads hr .bracket .opening).bind
      intro hlt
      exact (indexInside_reads hr (readsBack hr i ht.2)).bind fun hlt' => ⟨rfl, rfl⟩

theorem assignment_reads (hr : r.Settles) {t : Target} {value : Expr} (ht : t.wellFormed numeral = true)
    (hvalue : value.wellFormed numeral = true)
    (hends : ∀ kind ∈ rest.head?, endsExpression false 0 kind = true) {name : String}
    {kinds : List Token.Kind} (hkinds : t.kinds numeral = .identifier name :: kinds) :
    Reads (r.assignment ⟨name, noPlace⟩
      (bareTokens (kinds ++ .keyword .assign :: (value.kinds numeral ++ rest))))
      (.assign (t.relocate nowhere) (value.relocate nowhere)) rest := by
  rw [assignment, if_neg (by simp [bareTokens])]
  apply (target_reads hr ht hkinds).bind
  intro hlt
  apply (consume_reads hr (.keyword .assign) rfl).bind
  intro hlt'
  dsimp only
  rw [if_pos rfl]
  exact (readsBack hr value hvalue hends).bind fun hlt'' => ⟨rfl, rfl⟩

/-- An assignment behind its name. -/
theorem assignmentOrCall_assign (hr : r.Settles) {t : Target} {value : Expr}
    (ht : t.wellFormed numeral = true) (hvalue : value.wellFormed numeral = true)
    (hends : ∀ kind ∈ rest.head?, endsExpression false 0 kind = true) {name : String}
    {kinds : List Token.Kind} (hkinds : t.kinds numeral = .identifier name :: kinds) :
    Reads (r.assignmentOrCall ⟨name, noPlace⟩
      (bareTokens (kinds ++ .keyword .assign :: (value.kinds numeral ++ rest))))
      (.assign (t.relocate nowhere) (value.relocate nowhere)) rest := by
  have hassignment := assignment_reads hr ht hvalue hends hkinds
  cases t with
  | var name =>
      cases hkinds
      exact hassignment
  | element name i =>
      cases hkinds
      exact hassignment

/-- A call behind its name. -/
theorem assignmentOrCall_call (hr : r.Settles) (callee : Name) {arguments : List Expr}
    (harguments : Expr.wellFormedAll numeral arguments = true) :
    Reads (r.assignmentOrCall ⟨callee.name, noPlace⟩ (bareTokens (.delimiter .parenthesis .opening
      :: (Expr.kindsAll numeral arguments ++ [.delimiter .parenthesis .closing] ++ rest))))
      (.call (callee.relocate nowhere) (Expr.relocateAll nowhere arguments) noPlace) rest := by
  have hback : ∀ e ∈ arguments, ReadsBack r numeral e :=
    fun e he => readsBack hr e (Expr.wellFormed_of_mem harguments e he)
  change Reads (r.assignmentOrCall _
    (⟨⟨.delimiter .parenthesis .opening, noPlace⟩, .start⟩ :: bareTokens _)) _ _
  rw [assignmentOrCall, if_pos (by rfl)]
  apply Yields.step (hr _)
  exact (arguments_reads hr hback).bind fun hlt => ⟨rfl, rfl⟩

theorem counting_reads (hr : r.Settles) {counter : Name} {start second last : Expr}
    (hstart : start.wellFormed numeral = true) (hsecond : second.wellFormed numeral = true)
    (hlast : last.wellFormed numeral = true) :
    Reads (r.counting (bareTokens (.identifier counter.name :: .keyword .equals :: (start.kinds numeral
      ++ .comma :: (second.kinds numeral ++ .comma :: .ellipsis :: .comma :: (last.kinds numeral
      ++ .keyword .do_ :: rest))))))
      ⟨counter.relocate nowhere, start.relocate nowhere, second.relocate nowhere, last.relocate nowhere⟩
      rest := by
  apply (name_reads hr counter.name).bind
  intro _
  apply (keyword_reads hr .equals).bind
  intro _
  apply (readsBack hr start hstart (by rintro _ ⟨⟩; rfl)).bind
  intro _
  apply (consume_reads hr (.token .comma) rfl).bind
  intro _
  apply (readsBack hr second hsecond (by rintro _ ⟨⟩; rfl)).bind
  intro _
  apply (consume_reads hr (.token .comma) rfl).bind
  intro _
  apply (consume_reads hr (.token .ellipsis) rfl).bind
  intro _
  apply (consume_reads hr (.token .comma) rfl).bind
  intro _
  exact (condition_reads hr hlast .do_).bind fun _ => ⟨rfl, rfl⟩

theorem atParenthesis_bareTokens (kind : Token.Kind) (kinds : List Token.Kind) :
    atParenthesis (bareTokens (kind :: kinds)) = (kind.class == .delimiter .parenthesis) :=
  rfl

theorem namesKinds_cons_cons (name name' : Name) (names : List Name) :
    namesKinds (name :: name' :: names) = .identifier name.name :: .comma :: namesKinds (name' :: names) := by
  rw [namesKinds]
  simp

theorem parameters_reads (hr : r.Settles) (names : List Name) :
    Reads (r.parameters (bareTokens (namesKinds names ++ .delimiter .parenthesis .closing :: rest)))
      (names.map (Name.relocate nowhere)) (.delimiter .parenthesis .closing :: rest) := by
  induction names with
  | nil =>
      rw [parameters, if_pos (by rfl)]
      exact ⟨rfl, rfl⟩
  | cons name names ih =>
      cases names with
      | nil =>
          rw [namesKinds, List.singleton_append, parameters,
            if_neg (by simp [atParenthesis_bareTokens, Token.Kind.class])]
          apply (name_reads hr name.name).bind
          intro hlt
          dsimp only
          rw [if_pos (by rfl)]
          exact ⟨rfl, rfl⟩
      | cons name' names =>
          rw [namesKinds_cons_cons, List.cons_append, List.cons_append, parameters,
            if_neg (by simp [atParenthesis_bareTokens, Token.Kind.class])]
          apply (name_reads hr name.name).bind
          intro hlt
          dsimp only
          rw [if_neg (by simp [atParenthesis_bareTokens, Token.Kind.class])]
          apply (consume_reads hr (.token .comma) rfl).bind
          intro hlt'
          exact ih.bind fun hlt'' => ⟨rfl, rfl⟩

theorem signature_reads (hr : r.Settles) (name : Name) (names : List Name) :
    Reads (r.signature (bareTokens (.identifier name.name :: .delimiter .parenthesis .opening
      :: (namesKinds names ++ .delimiter .parenthesis .closing :: rest))))
      (name.relocate nowhere, names.map (Name.relocate nowhere)) rest := by
  apply (name_reads hr name.name).bind
  intro _
  apply (delimiter_reads hr .parenthesis .opening).bind
  intro _
  apply (parameters_reads hr names).bind
  intro _
  exact (delimiter_reads hr .parenthesis .closing).bind fun _ => ⟨rfl, rfl⟩

/-! ### What stands behind a statement and behind a block -/

/-- Behind a statement inside so many blocks stands nothing, or a line that is not indented deeper. If that line
starts the other branch of a condition, it is indented less, since the condition is around the statement. -/
inductive Follows (depth : Nat) : List Token.Kind → Prop where
  | nothing : Follows depth []
  | line (indents : Nat) {kind : Token.Kind} (kinds : List Token.Kind) (hle : indents ≤ depth)
      (hkind : kind.isLayout = false) (helse : kind = .keyword .else_ → indents < depth) :
      Follows depth (lineKinds indents (kind :: kinds))

/-- What stands behind a block of a statement inside so many blocks, and where reading goes on: before the line
break, or at the other branch if it belongs to the statement. -/
inductive Closes (depth : Nat) : List Token.Kind → List Token.Kind → Prop where
  | behind {kinds : List Token.Kind} (h : Follows depth kinds) : Closes depth kinds kinds
  | otherwise (kinds : List Token.Kind) :
      Closes depth (lineKinds depth (.keyword .else_ :: kinds)) (.keyword .else_ :: kinds)

theorem Follows.ends {depth : Nat} {kinds : List Token.Kind} (h : Follows depth kinds) :
    ∀ kind ∈ kinds.head?, endsExpression false 0 kind = true := by
  cases h with
  | nothing => simp
  | line indents kinds hle hkind helse =>
      rintro _ ⟨⟩
      rfl

/-- What stands behind a block stands behind its last statement. -/
theorem Closes.follows {depth : Nat} {kinds left : List Token.Kind} (h : Closes depth kinds left) :
    Follows (depth + 1) kinds := by
  cases h with
  | behind h =>
      cases h with
      | nothing => exact .nothing
      | line indents kinds hle hkind helse =>
          exact .line indents kinds (Nat.le_succ_of_le hle) hkind fun h => Nat.lt_succ_of_lt (helse h)
  | otherwise kinds => exact .line depth kinds (Nat.le_succ depth) rfl fun _ => Nat.lt_succ_self depth

/-- A statement starts with a token that neither is layout nor starts another branch. -/
theorem exists_statement_kinds_eq_cons (numeral : Float → Numeral) (depth : Nat) (s : Statement) :
    ∃ kind kinds, s.kinds numeral depth = kind :: kinds ∧ kind.isLayout = false ∧ kind ≠ .keyword .else_ := by
  cases s with
  | assign target value =>
      cases target with
      | var name => exact ⟨_, _, rfl, rfl, by simp⟩
      | element name i => exact ⟨_, _, rfl, rfl, by simp⟩
  | branch condition body otherwise p =>
      cases otherwise with
      | none => exact ⟨_, _, rfl, rfl, by simp⟩
      | some otherwise => exact ⟨_, _, rfl, rfl, by simp⟩
  | giveBack value p =>
      cases value with
      | none => exact ⟨_, _, rfl, rfl, by simp⟩
      | some value => exact ⟨_, _, rfl, rfl, by simp⟩
  | _ => exact ⟨_, _, rfl, rfl, by simp⟩

theorem kindsAll_cons_append (depth : Nat) (s : Statement) (ss : List Statement) :
    Statement.kindsAll numeral depth (s :: ss) ++ rest
      = .newLine :: (List.replicate depth .indentation
        ++ (s.kinds numeral depth ++ (Statement.kindsAll numeral depth ss ++ rest))) := by
  rw [Statement.kindsAll, lineKinds]
  simp only [List.cons_append, List.append_assoc]

/-- Behind a statement of a block stand the other statements, and behind the last one what is behind the
block. -/
theorem Follows.kindsAll {depth : Nat} (h : Follows depth rest) (ss : List Statement) :
    Follows depth (Statement.kindsAll numeral depth ss ++ rest) := by
  cases ss with
  | nil => exact h
  | cons s ss =>
      obtain ⟨kind, kinds, hkinds, hkind, helse⟩ := exists_statement_kinds_eq_cons numeral depth s
      rw [kindsAll_cons_append, hkinds]
      exact .line depth _ (Nat.le_refl depth) hkind fun h => absurd h helse

/-! ### Lines -/

theorem bareTokens_append (kinds kinds' : List Token.Kind) :
    bareTokens (kinds ++ kinds') = bareTokens kinds ++ bareTokens kinds' :=
  List.map_append

/-- The indentation of a line, up to its first token. -/
theorem margin_reads (hr : r.Settles) (count : Nat) {kind : Token.Kind} (kinds : List Token.Kind)
    (hkind : kind.isLayout = false) :
    Reads (r.margin ⟨⟨.indentation, noPlace⟩, .start⟩
      (bareTokens (List.replicate count .indentation ++ kind :: kinds)))
      (bareTokens (List.replicate (count + 1) .indentation)) (kind :: kinds) := by
  have hindents : ∀ t ∈ bareTokens (List.replicate count .indentation), Lexed.isIndentation t = true := by
    intro t ht
    obtain ⟨kind', hkind', rfl⟩ := List.mem_map.1 ht
    rw [List.eq_of_mem_replicate hkind']
    rfl
  have hfirst : Lexed.isIndentation ⟨⟨kind, noPlace⟩, .start⟩ = false := by
    rw [Lexed.isIndentation, beq_eq_false_iff_ne]
    rintro rfl
    cases hkind
  have htake : (bareTokens (List.replicate count .indentation ++ kind :: kinds)).takeWhile Lexed.isIndentation
      = bareTokens (List.replicate count .indentation) := by
    rw [bareTokens_append, List.takeWhile_append_of_pos hindents]
    change _ ++ List.takeWhile _ (⟨⟨kind, noPlace⟩, .start⟩ :: bareTokens kinds) = _
    rw [List.takeWhile_cons, hfirst, if_neg Bool.false_ne_true, List.append_nil]
  have hdrop : (bareTokens (List.replicate count .indentation ++ kind :: kinds)).dropWhile Lexed.isIndentation
      = bareTokens (kind :: kinds) := by
    rw [bareTokens_append, List.dropWhile_append_of_pos hindents]
    change List.dropWhile _ (⟨⟨kind, noPlace⟩, .start⟩ :: bareTokens kinds) = _
    rw [List.dropWhile_cons, hfirst, if_neg Bool.false_ne_true]
    rfl
  refine .step (hr _) ⟨?_, hdrop⟩
  dsimp only
  rw [htake]
  rfl

/-- A line that is indented less than a block is none of its lines. -/
theorem lines_leave (hr : r.Settles) {level indents : Nat} (inFunction : Bool) {kind : Token.Kind}
    (kinds : List Token.Kind) (hlt : indents < level) (hkind : kind.isLayout = false) :
    Yields (fun l => l.statements = [] ∧ l.depth = indents ∧ l.back = none
        ∧ l.rest = bareTokens (kind :: kinds))
      (r.lines level inFunction (bareTokens (List.replicate indents .indentation ++ kind :: kinds))) := by
  cases indents with
  | zero =>
      have hfirst : ¬ Lexed.isIndentation ⟨⟨kind, noPlace⟩, .start⟩ = true := by
        rw [Lexed.isIndentation, beq_iff_eq]
        rintro rfl
        cases hkind
      change Yields _ (r.lines level inFunction (⟨⟨kind, noPlace⟩, .start⟩ :: bareTokens kinds))
      rw [lines, if_neg hfirst]
      exact ⟨rfl, rfl, rfl, rfl⟩
  | succ count =>
      have hnewLine : kind ≠ .newLine := by
        rintro rfl
        cases hkind
      have hlength : (bareTokens (List.replicate (count + 1) .indentation)).length = count + 1 := by
        rw [bareTokens, List.length_map, List.length_replicate]
      change Yields _ (r.lines level inFunction (⟨⟨.indentation, noPlace⟩, .start⟩
        :: bareTokens (List.replicate count .indentation ++ kind :: kinds)))
      rw [lines, if_pos (by rfl)]
      apply (margin_reads hr count kinds hkind).bind_cons
      intro hlt'
      dsimp only
      rw [if_neg hnewLine, if_pos (by omega)]
      exact ⟨rfl, by dsimp only; omega, rfl, rfl⟩

/-- The line behind a block ends it, and reading goes on where it should. -/
theorem lines_closes (hr : r.Settles) {depth : Nat} (inFunction : Bool) {ahead left : List Token.Kind}
    (h : Closes depth (.newLine :: ahead) left) :
    Yields (fun l => l.statements = []
        ∧ l.resume (depth + 1) (bareTokens (.newLine :: ahead)) = bareTokens left)
      (r.lines (depth + 1) inFunction (bareTokens ahead)) := by
  generalize hkinds : .newLine :: ahead = kinds at h
  cases h with
  | behind h =>
      cases h with
      | nothing => cases hkinds
      | @line indents kind kinds hle hkind helse =>
          obtain ⟨-, rfl⟩ := List.cons.inj hkinds
          refine (lines_leave hr inFunction kinds (Nat.lt_succ_of_le hle) hkind).imp ?_
          rintro l ⟨hstatements, hdepth, hback, hrest⟩
          have hstays : l.staysAhead (depth + 1) = false := by
            rw [Lines.staysAhead, hrest, hdepth]
            change (kind == .keyword .else_ && decide (depth + 1 ≤ indents + 1)) = false
            rw [Bool.and_eq_false_iff, beq_eq_false_iff_ne, decide_eq_false_iff_not]
            by_cases hother : kind = .keyword .else_
            · have := helse hother
              exact .inr (by omega)
            · exact .inl hother
          rw [Lines.resume, hstays, hback]
          exact ⟨hstatements, rfl⟩
  | otherwise kinds =>
      obtain ⟨-, rfl⟩ := List.cons.inj hkinds
      refine (lines_leave hr inFunction kinds (Nat.lt_succ_self depth) rfl).imp ?_
      rintro l ⟨hstatements, hdepth, hback, hrest⟩
      have hstays : l.staysAhead (depth + 1) = true := by
        rw [Lines.staysAhead, hrest, hdepth]
        exact decide_eq_true (Nat.le_refl _)
      rw [Lines.resume, if_pos hstays]
      exact ⟨hstatements, hrest⟩

/-- A statement that is read as it was printed, whatever stands behind it. -/
def ReadsStatement (r : Reading) (numeral : Float → Numeral) (depth : Nat) (inFunction : Bool)
    (s : Statement) : Prop :=
  ∀ ⦃kind : Token.Kind⦄ ⦃kinds rest : List Token.Kind⦄, s.kinds numeral depth ++ rest = kind :: kinds →
    Follows depth rest →
    Reads (r.statement depth inFunction ⟨⟨kind, noPlace⟩, .start⟩ (bareTokens kinds)) (s.relocate nowhere)
      rest

/-- The lines of a block behind the line break before the first one. -/
theorem lines_reads (hr : r.Settles) {depth : Nat} {inFunction : Bool} {ss : List Statement}
    {ahead left : List Token.Kind} (h : ∀ s ∈ ss, ReadsStatement r numeral (depth + 1) inFunction s)
    (hrest : Closes depth rest left)
    (hahead : Statement.kindsAll numeral (depth + 1) ss ++ rest = .newLine :: ahead) :
    Yields (fun l => l.statements = Statement.relocateAll nowhere ss
        ∧ l.resume (depth + 1) (bareTokens (.newLine :: ahead)) = bareTokens left)
      (r.lines (depth + 1) inFunction (bareTokens ahead)) := by
  induction ss generalizing ahead with
  | nil =>
      obtain rfl : rest = .newLine :: ahead := hahead
      exact lines_closes hr inFunction hrest
  | cons s ss ih =>
      obtain ⟨hs, hss⟩ := List.forall_mem_cons.1 h
      obtain ⟨kind, kinds, hkinds, hkind, -⟩ := exists_statement_kinds_eq_cons numeral (depth + 1) s
      have hnewLine : kind ≠ .newLine := by
        rintro rfl
        cases hkind
      have hlength : (bareTokens (List.replicate (depth + 1) .indentation)).length = depth + 1 := by
        rw [bareTokens, List.length_map, List.length_replicate]
      have hextra : (bareTokens (List.replicate (depth + 1) .indentation))[depth + 1]? = none :=
        List.getElem?_eq_none (Nat.le_of_eq hlength)
      have hfollows : Follows (depth + 1) (Statement.kindsAll numeral (depth + 1) ss ++ rest) :=
        hrest.follows.kindsAll ss
      rw [kindsAll_cons_append, hkinds] at hahead
      obtain ⟨-, rfl⟩ := List.cons.inj hahead
      generalize hafter : Statement.kindsAll numeral (depth + 1) ss ++ rest = after at hfollows
      have hread := hs (congrArg (· ++ after) hkinds) hfollows
      change Yields _ (r.lines (depth + 1) inFunction (⟨⟨.indentation, noPlace⟩, .start⟩
        :: bareTokens (List.replicate depth .indentation ++ kind :: (kinds ++ after))))
      rw [lines, if_pos (by rfl)]
      apply (margin_reads hr depth _ hkind).bind_cons
      intro hlt
      dsimp only
      rw [if_neg hnewLine, if_neg (by omega), hextra]
      -- Behind the statement the text ends, or the next line starts.
      cases hfollows with
      | nothing =>
          have hlast : ss = [] ∧ left = [] := by
            obtain ⟨hnil, rfl⟩ := List.append_eq_nil_iff.1 hafter
            cases ss with
            | nil =>
                cases hrest
                exact ⟨rfl, rfl⟩
            | cons s' ss =>
                rw [Statement.kindsAll] at hnil
                cases hnil
          obtain ⟨rfl, rfl⟩ := hlast
          apply hread.bind
          intro hlt'
          dsimp only
          rw [if_pos (by rfl)]
          exact ⟨rfl, rfl⟩
      | line indents kinds' hle hkind' helse =>
          apply hread.bind_cons
          intro hlt'
          dsimp only
          rw [if_neg (by simp [Lexed.isElse])]
          apply (consume_reads hr (.token .newLine) rfl).bind
          intro hlt''
          refine (ih hss hafter).bind ?_
          rintro found ⟨hstatements, hresume⟩
          -- Seen from before its line break, the next line goes back to that line break.
          exact ⟨congrArg (List.cons _) hstatements, hresume⟩

/-- A block with its line breaks. -/
theorem block_reads (hr : r.Settles) {depth : Nat} {inFunction : Bool} {body : List Statement}
    {left : List Token.Kind}
    (ih : ∀ s ∈ body, ∀ (depth : Nat) (inFunction : Bool), s.wellFormed numeral inFunction = true →
      ReadsStatement r numeral depth inFunction s)
    (hsome : body.isEmpty = false) (hbody : Statement.wellFormedAll numeral inFunction body = true)
    (hrest : Closes depth rest left) :
    Reads (r.block (depth + 1) inFunction (bareTokens (Statement.kindsAll numeral (depth + 1) body ++ rest)))
      (Statement.relocateAll nowhere body) left := by
  cases body with
  | nil => cases hsome
  | cons s ss =>
      have hstatements : ∀ s' ∈ s :: ss, ReadsStatement r numeral (depth + 1) inFunction s' :=
        fun s' hs' => ih s' hs' (depth + 1) inFunction (Statement.wellFormed_of_mem hbody s' hs')
      have hlines := lines_reads hr hstatements hrest (kindsAll_cons_append (depth + 1) s ss)
      rw [kindsAll_cons_append]
      change Reads (r.block (depth + 1) inFunction (⟨⟨.newLine, noPlace⟩, .start⟩ :: bareTokens _)) _ _
      rw [block]
      apply (consume_reads hr (.token .newLine) rfl).bind
      intro hlt
      refine hlines.bind ?_
      rintro found ⟨hfound, hresume⟩
      dsimp only
      split
      · rename_i hempty
        have hnil : found.statements = [] := List.isEmpty_iff.1 hempty
        cases hfound.symm.trans hnil
      · exact ⟨hfound, hresume⟩

/-! ### Statements -/

/-- Every statement is read as it was printed, up to its places. -/
theorem statement_reads (hr : r.Settles) (s : Statement) (depth : Nat) (inFunction : Bool)
    (h : s.wellFormed numeral inFunction = true) : ReadsStatement r numeral depth inFunction s := by
  induction s using Statement.inductionOn generalizing depth inFunction with
  | assign target value =>
      intro kind kinds rest hkinds hrest
      rw [Statement.wellFormed, Bool.and_eq_true] at h
      obtain ⟨name, tail, htarget⟩ := target.exists_kinds_eq_cons numeral
      rw [Statement.kinds, htarget, List.cons_append, List.cons_append, List.append_assoc, List.cons_append]
        at hkinds
      obtain ⟨rfl, rfl⟩ := List.cons.inj hkinds
      rw [statement]
      apply Yields.step (hr _)
      exact (assignmentOrCall_assign hr h.1 h.2 hrest.ends htarget).bind fun hlt => ⟨rfl, rfl⟩
  | call callee arguments p =>
      intro kind kinds rest hkinds hrest
      rw [Statement.wellFormed, Bool.and_eq_true] at h
      rw [Statement.kinds, List.cons_append, List.cons_append] at hkinds
      obtain ⟨rfl, rfl⟩ := List.cons.inj hkinds
      rw [statement]
      apply Yields.step (hr _)
      exact (assignmentOrCall_call hr callee h.2).bind fun hlt => ⟨rfl, rfl⟩
  | whileLoop condition body p ih =>
      intro kind kinds rest hkinds hrest
      simp only [Statement.wellFormed, Bool.and_eq_true, Bool.not_eq_true'] at h
      obtain ⟨⟨hcondition, hsome⟩, hbody⟩ := h
      simp only [Statement.kinds, List.cons_append, List.append_assoc] at hkinds
      obtain ⟨rfl, rfl⟩ := List.cons.inj hkinds
      rw [statement]
      apply Yields.step (hr _)
      apply (condition_reads hr hcondition .do_).bind
      intro hlt
      exact (block_reads hr ih hsome hbody (.behind hrest)).bind fun hlt' => ⟨rfl, rfl⟩
  | forLoop counter start second last body p ih =>
      intro kind kinds rest hkinds hrest
      simp only [Statement.wellFormed, Bool.and_eq_true, Bool.not_eq_true'] at h
      obtain ⟨⟨⟨⟨⟨-, hstart⟩, hsecond⟩, hlast⟩, hsome⟩, hbody⟩ := h
      simp only [Statement.kinds, List.cons_append, List.append_assoc] at hkinds
      obtain ⟨rfl, rfl⟩ := List.cons.inj hkinds
      rw [statement]
      apply Yields.step (hr _)
      apply (counting_reads hr hstart hsecond hlast).bind
      intro hlt
      exact (block_reads hr ih hsome hbody (.behind hrest)).bind fun hlt' => ⟨rfl, rfl⟩
  | branch condition body otherwise p ih ihotherwise =>
      intro kind kinds rest hkinds hrest
      cases otherwise with
      | none =>
          simp only [Statement.wellFormed, Bool.and_eq_true, Bool.not_eq_true'] at h
          obtain ⟨⟨hcondition, hsome⟩, hbody⟩ := h
          simp only [Statement.kinds, List.cons_append, List.append_assoc] at hkinds
          obtain ⟨rfl, rfl⟩ := List.cons.inj hkinds
          rw [statement]
          apply Yields.step (hr _)
          apply (condition_reads hr hcondition .then_).bind
          intro hlt
          have hblock := block_reads hr ih hsome hbody (.behind hrest)
          -- The text ends, or the line behind the block is left with its line break.
          cases hrest with
          | nothing => exact hblock.bind fun hlt' => ⟨rfl, rfl⟩
          | line indents kinds hle hkind helse =>
              apply hblock.bind_cons
              intro hlt'
              dsimp only
              rw [if_neg (by simp [Lexed.isElse])]
              exact ⟨rfl, rfl⟩
      | some otherwise =>
          simp only [Statement.wellFormed, Bool.and_eq_true, Bool.not_eq_true'] at h
          obtain ⟨⟨⟨⟨hcondition, hsome⟩, hbody⟩, hsome'⟩, hotherwise⟩ := h
          simp only [Statement.kinds, lineKinds, List.cons_append, List.append_assoc] at hkinds
          obtain ⟨rfl, rfl⟩ := List.cons.inj hkinds
          rw [statement]
          apply Yields.step (hr _)
          apply (condition_reads hr hcondition .then_).bind
          intro hlt
          apply (block_reads hr ih hsome hbody (.otherwise _)).bind_cons
          intro hlt'
          dsimp only
          rw [if_pos (by rfl)]
          apply Yields.step (hr _)
          have hblock := block_reads hr (ihotherwise otherwise rfl) hsome' hotherwise (.behind hrest)
          exact hblock.bind fun hlt'' => ⟨rfl, rfl⟩
  | function name parameters body p ih =>
      intro kind kinds rest hkinds hrest
      simp only [Statement.wellFormed, Bool.and_eq_true, Bool.not_eq_true'] at h
      obtain ⟨⟨-, hsome⟩, hbody⟩ := h
      simp only [Statement.kinds, List.cons_append, List.append_assoc] at hkinds
      obtain ⟨rfl, rfl⟩ := List.cons.inj hkinds
      rw [statement]
      apply Yields.step (hr _)
      apply (signature_reads hr name parameters).bind
      intro hlt
      exact (block_reads hr ih hsome hbody (.behind hrest)).bind fun hlt' => ⟨rfl, rfl⟩
  | giveBack value p =>
      intro kind kinds rest hkinds hrest
      cases value with
      | none =>
          have hinside : inFunction = true := h
          rw [Statement.kinds, List.singleton_append] at hkinds
          obtain ⟨rfl, rfl⟩ := List.cons.inj hkinds
          rw [statement]
          apply Yields.step (hr _)
          rw [if_pos hinside, if_pos]
          · exact ⟨rfl, rfl⟩
          · cases hrest <;> rfl
      | some value =>
          rw [Statement.wellFormed, Bool.and_eq_true] at h
          obtain ⟨first, others, hvalue, hgoes⟩ := value.exists_kinds_eq_cons numeral
          rw [Statement.kinds, List.cons_append] at hkinds
          obtain ⟨rfl, rfl⟩ := List.cons.inj hkinds
          have hnewLine : first ≠ .newLine := by
            rintro rfl
            exact absurd (hgoes false 0) (by decide)
          rw [statement]
          apply Yields.step (hr _)
          rw [if_pos h.1, if_neg]
          · exact (readsBack hr value h.2 hrest.ends).bind fun hlt => ⟨rfl, rfl⟩
          · rw [hvalue]
            simpa [bareTokens] using hnewLine
  | print value p =>
      intro kind kinds rest hkinds hrest
      rw [Statement.kinds, List.cons_append] at hkinds
      obtain ⟨rfl, rfl⟩ := List.cons.inj hkinds
      rw [statement]
      apply Yields.step (hr _)
      exact (readsBack hr value h hrest.ends).bind fun hlt => ⟨rfl, rfl⟩

/-- The statements of a whole program, the first of which follows no line break. -/
theorem statements_reads (hr : r.Settles) {program : Program} (h : program.wellFormed numeral = true) :
    Yields (fun parsed => parsed = program.unplaced)
      (r.statements (bareTokens (Statement.kindsAll numeral 0 program).tail)) := by
  induction program with
  | nil =>
      rw [Statement.kindsAll]
      change Yields _ (r.statements [])
      rw [statements]
      exact rfl
  | cons s ss ih =>
      rw [Program.wellFormed, Statement.wellFormedAll, Bool.and_eq_true] at h
      obtain ⟨kind, kinds, hkinds, hkind, -⟩ := exists_statement_kinds_eq_cons numeral 0 s
      have hnewLine : kind ≠ .newLine := by
        rintro rfl
        cases hkind
      have hfollows : Follows 0 (Statement.kindsAll numeral 0 ss ++ []) := Follows.nothing.kindsAll ss
      have hothers := ih h.2
      have htail : (Statement.kindsAll numeral 0 (s :: ss)).tail
          = kind :: (kinds ++ Statement.kindsAll numeral 0 ss) := by
        rw [Statement.kindsAll, lineKinds, hkinds]
        rfl
      rw [List.append_nil] at hfollows
      rw [htail]
      generalize hafter : Statement.kindsAll numeral 0 ss = after at hfollows hothers
      have hread := statement_reads hr s 0 false h.1 (congrArg (· ++ after) hkinds) hfollows
      change Yields _ (r.statements (⟨⟨kind, noPlace⟩, .start⟩ :: bareTokens (kinds ++ after)))
      rw [statements, if_neg hnewLine]
      cases hfollows with
      | nothing =>
          obtain rfl : ss = [] := by
            cases ss with
            | nil => rfl
            | cons s' ss =>
                rw [Statement.kindsAll] at hafter
                cases hafter
          exact hread.bind fun hlt => rfl
      | line indents kinds' hle hkind' helse =>
          apply hread.bind_cons
          intro hlt
          dsimp only
          rw [if_neg (by simp)]
          apply (consume_reads hr (.token .newLine) rfl).bind
          intro hlt'
          refine hothers.bind ?_
          rintro parsed rfl
          exact rfl

end Reading

/-- A printed program consists of its tokens. -/
theorem kinds?_printed {numeral : Float → Numeral} {program : Program}
    (h : program.wellFormed numeral = true) :
    (Stream.ofSource (Source.ofText (program.printed numeral))).kinds?
      = some (Statement.kindsAll numeral 0 program).tail := by
  obtain ⟨herror, htokens⟩ := scan_printed h
  rw [Stream.scan] at herror htokens
  dsimp only at herror htokens
  rw [List.map_map] at htokens
  rw [Stream.kinds?]
  split
  · exact congrArg some htokens
  · rename_i e hending
    rw [hending] at herror
    cases herror

theorem unplacedTokens_bareTokens (kinds : List Token.Kind) :
    unplacedTokens (bareTokens kinds) = bareTokens kinds := by
  rw [unplacedTokens, bareTokens, List.map_map]
  rfl

/-- Printing a program and reading the text gives the program back, up to its places. -/
theorem ofText_printed {numeral : Float → Numeral} {program : Program}
    (h : program.wellFormed numeral = true) :
    ∃ parsed, Program.ofText (program.printed numeral) = .ok parsed
      ∧ parsed.unplaced = program.unplaced := by
  let r : Reading := ⟨Source.ofText (program.printed numeral), .finished .start⟩
  have hr : r.Settles := Reading.settle_of_finished rfl
  have hbare : (bareTokens (Statement.kindsAll numeral 0 program).tail).map (·.token.kind)
      = (Statement.kindsAll numeral 0 program).tail := by
    rw [bareTokens, List.map_map]
    exact List.map_id _
  -- The text and its tokens without places are read alike, and the latter as the program.
  have hagree := agree_unplaced (r := r) (kinds?_printed h) rfl hbare
  obtain ⟨_, hparsed, rfl⟩ := (Reading.statements_reads hr h).exists_eq_ok
  rw [unplacedTokens_bareTokens, hparsed] at hagree
  obtain ⟨parsed, hok, hunplaced⟩ := hagree.exists_of_ok_right
  exact ⟨parsed, hok, hunplaced.symm⟩

/-- A function with nested branches, of which the outer one has another branch, and a negative number. -/
theorem ofText_printed_function :
    let place : Position := ⟨3, 5⟩
    let a : Expr := .var ⟨"a", place⟩
    let numeral : Float → Numeral := fun x =>
      if x = 7 then ⟨['7'], [], by decide, by decide, by decide⟩
      else ⟨['2'], ['5'], by decide, by decide, by decide⟩
    let program : Program :=
      [.function ⟨"f", place⟩ [⟨"a", place⟩]
        [.branch (.binary a .less (.literal (.number (-2.5)) place) place)
          [.branch (.unary .not (.literal (.bool true) place) place) [.giveBack none place] none place]
          (some [.giveBack
            (some (.index (.unary .negate a place) (.call ⟨"f", place⟩ [a] place) place)) place])
          place] place,
        .print (.literal (.text "w # f") place) place, .call ⟨"f", place⟩ [.literal (.number 7) place] place]
    let text := "funkcja f(a)\n    jeżeli (a < (-2.5)) to\n        jeżeli (nie PRAWDA) to\n"
      ++ "            zwróć\n    w przeciwnym razie\n        zwróć (-a)[f(a)]\nwypisz \"w # f\"\nf(7)"
    program.printed numeral = text
      ∧ ∃ parsed, Program.ofText text = .ok parsed ∧ parsed.unplaced = program.unplaced := by
  intro place a numeral program text
  have h : program.wellFormed numeral = true := by decide +kernel
  have htext : program.printed numeral = text := by decide +kernel
  refine ⟨htext, ?_⟩
  rw [← htext]
  exact ofText_printed h

end PolishPseudocode
