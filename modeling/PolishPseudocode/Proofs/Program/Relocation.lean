import PolishPseudocode.Proofs.Expr.Relocation

/-! Reading a program from moved tokens. Blocks count indentations and go back to line breaks, and neither
looks at a place: from moved tokens the moved program is read, and a text that is refused is refused for
the same cause. -/

namespace PolishPseudocode

namespace Reading

variable {f : Position → Position} {r r' : Reading} {tokens tokens' : List Lexed}

/-- A question about the next token's kind has the same answer. -/
theorem head?_any_moved (h : Moved f tokens tokens') (test : Token.Kind → Bool) :
    (tokens'.head?.any fun t => test t.token.kind) = tokens.head?.any fun t => test t.token.kind := by
  cases tokens with
  | nil => rw [h.eq_nil]
  | cons next tokens =>
      obtain ⟨next', rest', rfl, hnext, -⟩ := h.exists_of_cons
      simp [kind_eq_of_relocate hnext]

theorem head?_all_moved (h : Moved f tokens tokens') (test : Token.Kind → Bool) :
    (tokens'.head?.all fun t => test t.token.kind) = tokens.head?.all fun t => test t.token.kind := by
  cases tokens with
  | nil => rw [h.eq_nil]
  | cons next tokens =>
      obtain ⟨next', rest', rfl, hnext, -⟩ := h.exists_of_cons
      simp [kind_eq_of_relocate hnext]

/-! ### Simple statements and heads -/

theorem target_moved (hends : r.EndsAlike r') (name : Name) (h : Moved f tokens tokens') :
    Agree (Parsed.Moves f (Target.relocate f)) (r.target name tokens)
      (r'.target (name.relocate f) tokens') := by
  rw [target, target, head?_any_moved h fun kind => kind.class == .delimiter .bracket]
  split
  · apply (delimiter_moved hends .bracket .opening h).read
    intro p rest rest' hlt hlt' hrest
    apply (indexInside_moved hends false hrest).read
    intro index rest rest' hlt hlt' hrest
    exact ⟨rfl, hrest⟩
  · exact ⟨rfl, h⟩

theorem assignment_moved (hends : r.EndsAlike r') (name : Name) (h : Moved f tokens tokens') :
    Agree (Parsed.Moves f (Statement.relocate f)) (r.assignment name tokens)
      (r'.assignment (name.relocate f) tokens') := by
  have hempty : tokens'.isEmpty = tokens.isEmpty := by
    cases tokens with
    | nil => rw [h.eq_nil]
    | cons next tokens =>
        obtain ⟨next', rest', rfl, -, -⟩ := h.exists_of_cons
        rfl
  rw [assignment, assignment, hempty]
  split
  · rfl
  · apply (target_moved hends name h).read
    intro target rest rest' hlt hlt' hrest
    apply (consume_moved hends .keyword (.keyword .assign) hrest).read
    intro arrow rest rest' hlt hlt' hrest
    have harrow : (arrow.relocate f).kind = arrow.kind := kind_eq_of_relocate rfl
    simp only [harrow]
    split
    · apply (expression_moved hends false hrest).read
      intro value rest rest' hlt hlt' hrest
      exact ⟨rfl, hrest⟩
    · rfl

theorem assignmentOrCall_moved (hends : r.EndsAlike r') (name : Name) (h : Moved f tokens tokens') :
    Agree (Parsed.Moves f (Statement.relocate f)) (r.assignmentOrCall name tokens)
      (r'.assignmentOrCall (name.relocate f) tokens') := by
  cases tokens with
  | nil =>
      obtain rfl := h.eq_nil
      exact assignment_moved hends name h
  | cons next rest =>
      have hall := h
      obtain ⟨next', rest', rfl, hnext, hrest⟩ := h.exists_of_cons
      rw [assignmentOrCall, assignmentOrCall, kind_eq_of_relocate hnext, hnext]
      split
      · refine Agree.bind (settle_moved hends hrest) fun _ _ _ => ?_
        apply (arguments_moved hends hrest).read
        intro arguments rest rest' hlt hlt' hrest
        exact ⟨rfl, hrest⟩
      · exact assignment_moved hends name hall

theorem condition_moved (hends : r.EndsAlike r') (word : Keyword) (h : Moved f tokens tokens') :
    Agree (Parsed.Moves f (Expr.relocate f)) (r.condition word tokens) (r'.condition word tokens') := by
  apply (expression_moved hends false h).read
  intro e rest rest' hlt hlt' hrest
  apply (keyword_moved hends word hrest).read
  intro p rest rest' hlt hlt' hrest
  exact ⟨rfl, hrest⟩

def Counting.relocate (f : Position → Position) (head : Counting) : Counting :=
  ⟨head.counter.relocate f, head.start.relocate f, head.second.relocate f, head.last.relocate f⟩

theorem counting_moved (hends : r.EndsAlike r') (h : Moved f tokens tokens') :
    Agree (Parsed.Moves f (Counting.relocate f)) (r.counting tokens) (r'.counting tokens') := by
  apply (name_moved hends h).read
  intro counter rest rest' hlt hlt' hrest
  apply (keyword_moved hends .equals hrest).read
  intro _ rest rest' hlt hlt' hrest
  apply (expression_moved hends false hrest).read
  intro start rest rest' hlt hlt' hrest
  apply (consume_moved hends .comma (.token .comma) hrest).read
  intro _ rest rest' hlt hlt' hrest
  apply (expression_moved hends false hrest).read
  intro second rest rest' hlt hlt' hrest
  apply (consume_moved hends .comma (.token .comma) hrest).read
  intro _ rest rest' hlt hlt' hrest
  apply (consume_moved hends .ellipsis (.token .ellipsis) hrest).read
  intro _ rest rest' hlt hlt' hrest
  apply (consume_moved hends .comma (.token .comma) hrest).read
  intro _ rest rest' hlt hlt' hrest
  apply (condition_moved hends .do_ hrest).read
  intro last rest rest' hlt hlt' hrest
  exact ⟨rfl, hrest⟩

theorem atParenthesis_moved (h : Moved f tokens tokens') : atParenthesis tokens' = atParenthesis tokens :=
  head?_any_moved h fun kind => kind.class == .delimiter .parenthesis

theorem parameters_moved (hends : r.EndsAlike r') {tokens tokens' : List Lexed}
    (h : Moved f tokens tokens') :
    Agree (Parsed.Moves f (List.map (Name.relocate f))) (r.parameters tokens)
      (r'.parameters tokens') := by
  rw [parameters, parameters, atParenthesis_moved h]
  split
  · exact ⟨rfl, h⟩
  · apply (name_moved hends h).read
    intro first rest rest' hlt hlt' hrest
    simp only [atParenthesis_moved hrest]
    split
    · exact ⟨rfl, hrest⟩
    · apply (consume_moved hends .comma (.token .comma) hrest).read
      intro _ rest rest' hlt hlt' hrest
      apply (parameters_moved hends hrest).read
      intro others rest rest' hlt hlt' hrest
      exact ⟨rfl, hrest⟩
termination_by tokens.length

theorem signature_moved (hends : r.EndsAlike r') (h : Moved f tokens tokens') :
    Agree (Parsed.Moves f fun (name, parameters) => (name.relocate f, parameters.map (Name.relocate f)))
      (r.signature tokens) (r'.signature tokens') := by
  apply (name_moved hends h).read
  intro name rest rest' hlt hlt' hrest
  apply (delimiter_moved hends .parenthesis .opening hrest).read
  intro _ rest rest' hlt hlt' hrest
  apply (parameters_moved hends hrest).read
  intro parameters rest rest' hlt hlt' hrest
  apply (delimiter_moved hends .parenthesis .closing hrest).read
  intro _ rest rest' hlt hlt' hrest
  exact ⟨rfl, hrest⟩

/-! ### Lines and blocks -/

theorem isElse_moved {t t' : Lexed} (h : t'.token = t.token.relocate f) : t'.isElse = t.isElse := by
  rw [Lexed.isElse, Lexed.isElse, kind_eq_of_relocate h]

theorem isIndentation_moved {t t' : Lexed} (h : t'.token = t.token.relocate f) :
    t'.isIndentation = t.isIndentation := by
  rw [Lexed.isIndentation, Lexed.isIndentation, kind_eq_of_relocate h]

/-- The indentations at the start of moved tokens, and what is behind them. -/
theorem indentations_moved (h : Moved f tokens tokens') :
    Moved f (tokens.takeWhile Lexed.isIndentation) (tokens'.takeWhile Lexed.isIndentation)
      ∧ Moved f (tokens.dropWhile Lexed.isIndentation) (tokens'.dropWhile Lexed.isIndentation) := by
  induction tokens generalizing tokens' with
  | nil =>
      rw [h.eq_nil]
      exact ⟨.nil, .nil⟩
  | cons next tokens ih =>
      have hall := h
      obtain ⟨next', rest', rfl, hnext, hrest⟩ := h.exists_of_cons
      rw [List.takeWhile_cons, List.takeWhile_cons, List.dropWhile_cons, List.dropWhile_cons,
        isIndentation_moved hnext]
      split
      · exact ⟨(ih hrest).1.cons hnext, (ih hrest).2⟩
      · exact ⟨.nil, hall⟩

theorem margin_moved (hends : r.EndsAlike r') {next next' : Lexed}
    (hnext : next'.token = next.token.relocate f) (h : Moved f tokens tokens') :
    Agree (fun p p' => Moved f p.value p'.value ∧ Moved f p.rest p'.rest) (r.margin next tokens)
      (r'.margin next' tokens') := by
  obtain ⟨htake, hdrop⟩ := indentations_moved h
  exact Agree.bind (settle_moved hends hdrop) fun _ _ _ => ⟨htake.cons hnext, hdrop⟩

structure Lines.Moves {limit limit' : Nat} (f : Position → Position) (l : Lines limit)
    (l' : Lines limit') : Prop where
  statements : l'.statements = Statement.relocateAll f l.statements
  depth : l'.depth = l.depth
  back : Option.Rel (Moved f) l.back l'.back
  rest : Moved f l.rest l'.rest

namespace Lines.Moves

variable {limit limit' : Nat} {l : Lines limit} {l' : Lines limit'}

theorem mono (h : l.Moves f l') {bound bound' : Nat} (hle : limit ≤ bound) (hle' : limit' ≤ bound') :
    (l.mono hle).Moves f (l'.mono hle') :=
  ⟨h.statements, h.depth, h.back, h.rest⟩

theorem getD_back (h : l.Moves f l') (htokens : Moved f tokens tokens') :
    Moved f (l.back.getD tokens) (l'.back.getD tokens') := by
  have hback := h.back
  cases hl : l.back with
  | none =>
      rw [hl] at hback
      cases hl' : l'.back with
      | none => exact htokens
      | some inner =>
          rw [hl'] at hback
          cases hback
  | some inner =>
      rw [hl] at hback
      cases hl' : l'.back with
      | none =>
          rw [hl'] at hback
          cases hback
      | some inner' =>
          rw [hl'] at hback
          cases hback with
          | some hinner => exact hinner

theorem behind (h : l.Moves f l') (htokens : Moved f tokens tokens') (hlt : tokens.length < limit)
    (hlt' : tokens'.length < limit') : (l.behind tokens hlt).Moves f (l'.behind tokens' hlt') :=
  ⟨h.statements, h.depth, .some (h.getD_back htokens), h.rest⟩

theorem resume (h : l.Moves f l') (level : Nat) (htokens : Moved f tokens tokens') :
    Moved f (l.resume level tokens) (l'.resume level tokens') := by
  have hahead : l'.staysAhead level = l.staysAhead level := by
    unfold Lines.staysAhead
    rw [h.depth]
    exact head?_all_moved h.rest fun kind => kind == .keyword .else_ && decide (level ≤ l.depth + 1)
  unfold Lines.resume
  rw [hahead]
  split
  · exact h.rest
  · exact h.getD_back htokens

end Lines.Moves

mutual

theorem statement_moved (hends : r.EndsAlike r') (level : Nat) (inFunction : Bool) {next next' : Lexed}
    {tokens tokens' : List Lexed} (hnext : next'.token = next.token.relocate f)
    (h : Moved f tokens tokens') :
    Agree (Parsed.Moves f (Statement.relocate f)) (r.statement level inFunction next tokens)
      (r'.statement level inFunction next' tokens') := by
  obtain ⟨⟨kind, p⟩, after⟩ := next
  obtain ⟨_, after'⟩ := next'
  obtain rfl := hnext
  have hsettle := settle_moved hends h
  rw [statement, statement]
  cases kind with
  | identifier name =>
      apply hsettle.bind
      intro _ _ _
      apply (assignmentOrCall_moved hends ⟨name, p⟩ h).read
      intro s rest rest' hlt hlt' hrest
      exact ⟨rfl, hrest⟩
  | keyword word =>
      cases word with
      | for_ =>
          apply hsettle.bind
          intro _ _ _
          apply (counting_moved hends h).read
          intro head rest rest' hlt hlt' hrest
          apply (block_moved hends (level + 1) inFunction hrest).read
          intro body rest rest' hlt hlt' hrest
          exact ⟨rfl, hrest⟩
      | while_ =>
          apply hsettle.bind
          intro _ _ _
          apply (condition_moved hends .do_ h).read
          intro condition rest rest' hlt hlt' hrest
          apply (block_moved hends (level + 1) inFunction hrest).read
          intro body rest rest' hlt hlt' hrest
          exact ⟨rfl, hrest⟩
      | if_ =>
          apply hsettle.bind
          intro _ _ _
          apply (condition_moved hends .then_ h).read
          intro condition rest rest' hlt hlt' hrest
          apply (block_moved hends (level + 1) inFunction hrest).read
          intro body rest rest' hlt hlt' hrest
          cases rest with
          | nil =>
              obtain rfl := hrest.eq_nil
              exact ⟨rfl, hrest⟩
          | cons next rest =>
              have hall := hrest
              obtain ⟨next', rest', rfl, hnext, hrest⟩ := hrest.exists_of_cons
              simp only [isElse_moved hnext]
              split
              · refine Agree.bind (settle_moved hends hrest) fun _ _ _ => ?_
                apply (block_moved hends (level + 1) inFunction hrest).read
                intro otherwise rest rest' hlt hlt' hrest
                exact ⟨rfl, hrest⟩
              · exact ⟨rfl, hall⟩
      | function =>
          apply hsettle.bind
          intro _ _ _
          apply (signature_moved hends h).read
          intro ⟨name, parameters⟩ rest rest' hlt hlt' hrest
          apply (block_moved hends (level + 1) true hrest).read
          intro body rest rest' hlt hlt' hrest
          exact ⟨rfl, hrest⟩
      | return_ =>
          apply hsettle.bind
          intro _ _ _
          simp only [head?_all_moved h (· == .newLine)]
          split
          · split
            · exact ⟨rfl, h⟩
            · apply (expression_moved hends false h).read
              intro value rest rest' hlt hlt' hrest
              exact ⟨rfl, hrest⟩
          · rfl
      | print =>
          apply hsettle.bind
          intro _ _ _
          apply (expression_moved hends false h).read
          intro value rest rest' hlt hlt' hrest
          exact ⟨rfl, hrest⟩
      | _ => rfl
  | _ => rfl
termination_by tokens.length + 1
decreasing_by
  all_goals subst_vars
  all_goals simp only [List.length_cons] at *
  all_goals omega

theorem block_moved (hends : r.EndsAlike r') (level : Nat) (inFunction : Bool)
    {tokens tokens' : List Lexed} (h : Moved f tokens tokens') :
    Agree (Parsed.Moves f (Statement.relocateAll f)) (r.block level inFunction tokens)
      (r'.block level inFunction tokens') := by
  cases tokens with
  | nil =>
      obtain rfl := h.eq_nil
      rw [block, block]
      rfl
  | cons next tokens =>
      have hall := h
      obtain ⟨next', tokens', rfl, hnext, htokens⟩ := h.exists_of_cons
      rw [block, block]
      apply (consume_moved hends .newLine (.token .newLine) hall).read
      intro _ rest rest' hlt hlt' hrest
      refine Agree.bind (lines_moved hends level inFunction hrest) ?_
      intro found found' hfound
      have hempty : found'.statements.isEmpty = found.statements.isEmpty := by
        rw [hfound.statements]
        cases found.statements <;> rfl
      dsimp only
      split
      · rename_i hnone
        split
        · rfl
        · rename_i hsome
          exact absurd (hempty.trans hnone) hsome
      · rename_i hsome
        split
        · rename_i hnone
          exact absurd (hempty.symm.trans hnone) hsome
        · exact ⟨hfound.statements, (hfound.mono _ _).resume level hall⟩
termination_by tokens.length

theorem lines_moved (hends : r.EndsAlike r') (level : Nat) (inFunction : Bool)
    {tokens tokens' : List Lexed} (h : Moved f tokens tokens') :
    Agree (Lines.Moves f) (r.lines level inFunction tokens) (r'.lines level inFunction tokens') := by
  cases tokens with
  | nil =>
      obtain rfl := h.eq_nil
      rw [lines, lines]
      exact ⟨rfl, rfl, .none, .nil⟩
  | cons next following =>
      have hall := h
      obtain ⟨next', following', rfl, hnext, hfollowing⟩ := h.exists_of_cons
      rw [lines, lines, isIndentation_moved hnext]
      split
      · refine Agree.bind (margin_moved hends hnext hfollowing) ?_
        rintro ⟨indents, rest, hlt⟩ ⟨indents', rest', hlt'⟩ ⟨hindents, hrest⟩
        have hlength : indents'.length = indents.length := hindents.length_eq
        cases rest with
        | nil =>
            obtain rfl := hrest.eq_nil
            refine ⟨rfl, ?_, .none, .nil⟩
            simp only [hlength]
        | cons first after =>
            have hshort : after.length + 1 < following.length + 1 := hlt
            have hafter := hrest
            obtain ⟨first', after', rfl, hfirst, hafter⟩ := hafter.exists_of_cons
            simp only [kind_eq_of_relocate hfirst, hlength]
            split
            · refine Agree.bind (settle_moved hends hafter) fun _ _ _ => ?_
              refine Agree.bind (lines_moved hends level inFunction hafter) ?_
              intro found found' hfound
              exact (hfound.mono _ _).behind hrest _ _
            split
            · exact ⟨rfl, rfl, .none, hrest⟩
            by_cases hextra : level < indents.length
            · rw [List.getElem?_eq_getElem hextra, List.getElem?_eq_getElem (by omega)]
              rfl
            · rw [List.getElem?_eq_none (by omega), List.getElem?_eq_none (by omega)]
              apply (statement_moved hends level inFunction hfirst hafter).read
              intro s rest rest' hlt hlt' hrest
              have helse : rest'.head?.all Lexed.isElse = rest.head?.all Lexed.isElse :=
                head?_all_moved hrest (· == .keyword .else_)
              simp only [helse]
              split
              · exact ⟨rfl, rfl, .none, hrest⟩
              · apply (consume_moved hends .newLine (.token .newLine) hrest).read
                intro _ behind behind' hlt hlt' hbehind
                refine Agree.bind (lines_moved hends level inFunction hbehind) ?_
                intro found found' hfound
                refine ⟨?_, hfound.depth, .some (hfound.getD_back hrest), hfound.rest⟩
                simp only [Lines.behind, Lines.mono, hfound.statements]
                rfl
      · exact ⟨rfl, rfl, .none, hall⟩
termination_by tokens.length
decreasing_by
  all_goals subst_vars
  all_goals simp only [List.length_cons] at *
  all_goals omega

end

theorem statements_moved (hends : r.EndsAlike r') {tokens tokens' : List Lexed}
    (h : Moved f tokens tokens') :
    Agree (fun program program' => program' = Statement.relocateAll f program) (r.statements tokens)
      (r'.statements tokens') := by
  cases tokens with
  | nil =>
      obtain rfl := h.eq_nil
      rw [statements, statements]
      rfl
  | cons next rest =>
      obtain ⟨next', rest', rfl, hnext, hrest⟩ := h.exists_of_cons
      rw [statements, statements, kind_eq_of_relocate hnext]
      split
      · exact Agree.bind (settle_moved hends hrest) fun _ _ _ => statements_moved hends hrest
      · apply (statement_moved hends 0 false hnext hrest).read
        intro s rest rest' hlt hlt' hrest
        cases rest with
        | nil =>
            obtain rfl := hrest.eq_nil
            rfl
        | cons next rest =>
            have hall := hrest
            obtain ⟨next', rest', rfl, -, -⟩ := hrest.exists_of_cons
            apply (consume_moved hends .newLine (.token .newLine) hall).read
            intro _ rest rest' hlt hlt' hrest
            refine Agree.bind (statements_moved hends hrest) ?_
            rintro program _ rfl
            rfl
termination_by tokens.length
decreasing_by
  all_goals subst_vars
  all_goals simp only [List.length_cons] at *
  all_goals omega

end Reading

end PolishPseudocode
