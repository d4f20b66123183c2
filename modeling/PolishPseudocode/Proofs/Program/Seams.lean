import PolishPseudocode.Proofs.Program.Continuation

/-! Reading a program with one or another end of its tokens. The statements before the end are read alike if the
readers of a block go on alike there; they may go back to a line break before the end, so what is left need not be
the end itself. Where no line of a block and no other branch starts, every block ends, and a program is the
statements before and the statements behind. -/

namespace PolishPseudocode

namespace Reading

variable {r r' : Reading} {front more : List Lexed} {Past : List Lexed → List Lexed → Prop}

/-! ### What is left -/

/-- Two readings give the same and have passed the seam. -/
def Passed {α : Type} (Past : List Lexed → List Lexed → Prop) (p p' : α × List Lexed) : Prop :=
  p'.1 = p.1 ∧ Past p.2 p'.2

/-- What two readings leave of `tokens` with `front` and with `more` behind: some of the tokens and what is behind
them, or both have passed the seam. -/
inductive Left (front more : List Lexed) (Past : List Lexed → List Lexed → Prop) (tokens : List Lexed) :
    List Lexed → List Lexed → Prop where
  | ahead {first : Lexed} {left : List Lexed} (h : first :: left <:+ tokens) :
      Left front more Past tokens (first :: left ++ front) (first :: left ++ more)
  | past {rest rest' : List Lexed} (h : Past rest rest') : Left front more Past tokens rest rest'

/-- Two readings of `tokens` give the same and leave the same of them. -/
def Splits {α : Type} (front more : List Lexed) (Past : List Lexed → List Lexed → Prop) (tokens : List Lexed)
    (p p' : α × List Lexed) : Prop :=
  p'.1 = p.1 ∧ Left front more Past tokens p.2 p'.2

theorem Left.mono {tokens tokens' rest rest' : List Lexed} (h : Left front more Past tokens rest rest')
    (htokens : tokens <:+ tokens') : Left front more Past tokens' rest rest' := by
  cases h with
  | ahead h => exact .ahead (h.trans htokens)
  | past h => exact .past h

/-- Two ends of the tokens at which the readers of a block go on alike: behind a statement of the block, where the
block is to begin, and where they have passed the seam, also before another branch. -/
structure Seam (r r' : Reading) (front more : List Lexed) (Past : List Lexed → List Lexed → Prop) : Prop where
  settles : r'.Settles
  atFront : AtBreak front
  atMore : AtBreak more
  onward : r.settle front = .ok () → ∀ level inFunction,
    Persists (Passed Past) (r.onward level inFunction front) (r'.onward level inFunction more)
  block : ∀ level inFunction,
    Persists (Passed Past) (r.nextBlock level inFunction front) (r'.nextBlock level inFunction more)
  pastOnward : ∀ {rest rest'}, Past rest rest' → ∀ level inFunction,
    Persists (Passed Past) (r.onward level inFunction rest) (r'.onward level inFunction rest')
  pastOtherwise : ∀ {rest rest'}, Past rest rest' → ∀ level inFunction,
    Persists (Passed Past) (r.otherwise level inFunction rest) (r'.otherwise level inFunction rest')

/-- The lines of a block end alike at the seam if there is a line break before it. -/
def StopsAlike (r r' : Reading) (front more : List Lexed) (Past : List Lexed → List Lexed → Prop) : Prop :=
  r.settle front = .ok () → ∀ level inFunction nl, nl.token.kind = .newLine →
    Persists (Passed Past) (r.body level inFunction nl front) (r'.body level inFunction nl more)

/-- A statement without a block ends at the seam, in the line where it started. -/
structure EndsLine (r : Reading) (front more : List Lexed) (next : Lexed) (tokens rest rest' : List Lexed) :
    Prop where
  rest : rest = front
  rest' : rest' = more
  settled : r.settle front = .ok ()
  plain : next.token.kind.opensBlock = false
  line : ∀ t ∈ tokens, t.token.kind ≠ .newLine

/-- A line break ends the indentation in front of it. -/
theorem indentations_append (hmore : AtBreak more) (tokens : List Lexed) :
    (tokens ++ more).takeWhile Lexed.isIndentation = tokens.takeWhile Lexed.isIndentation
      ∧ (tokens ++ more).dropWhile Lexed.isIndentation = tokens.dropWhile Lexed.isIndentation ++ more := by
  induction tokens with
  | nil =>
      cases more with
      | nil => exact ⟨rfl, rfl⟩
      | cons first more =>
          rw [List.nil_append, List.takeWhile_cons, List.dropWhile_cons, isIndentation_of_newLine hmore.kind]
          exact ⟨rfl, rfl⟩
  | cons next tokens ih =>
      rw [List.cons_append, List.takeWhile_cons, List.takeWhile_cons, List.dropWhile_cons, List.dropWhile_cons]
      split
      · exact ⟨congrArg (next :: ·) ih.1, ih.2⟩
      · exact ⟨rfl, rfl⟩

/-- A line with nothing behind its indentation. -/
theorem line_of_atBreak (r : Reading) (level : Nat) (inFunction : Bool) (nl : Lexed) (tokens indents : List Lexed)
    (h : AtBreak front) : r.line level inFunction nl tokens indents front = r.onward level inFunction front := by
  cases front with
  | nil => rfl
  | cons first after => exact line_newLine r level inFunction nl tokens indents h.kind after

theorem stop_splits {α : Type} {level depth : Nat} {value : α} {back tokens all : List Lexed} {nl next : Lexed}
    (hback : nl :: back <:+ all) (htokens : next :: tokens <:+ all) :
    Splits front more Past all (value, stop level depth (nl :: back ++ front) next (tokens ++ front))
      (value, stop level depth (nl :: back ++ more) next (tokens ++ more)) := by
  refine ⟨rfl, ?_⟩
  dsimp only [stop]
  split
  · exact .ahead htokens
  · exact .ahead hback

/-! ### Statements and blocks -/

theorem nextStatement_plain (h : Seam r r' front more Past) (level : Nat) (inFunction : Bool) {next : Lexed}
    (hnext : next.token.kind.opensBlock = false) (tokens : List Lexed) :
    Persists (fun p p' => p'.1 = p.1 ∧ (Left front more Past tokens p.2 p'.2
        ∨ EndsLine r front more next tokens p.2 p'.2))
      (r.nextStatement level inFunction next (tokens ++ front))
      (r'.nextStatement level inFunction next (tokens ++ more)) := by
  by_cases hline : ∀ t ∈ tokens, t.token.kind ≠ .newLine
  · refine (nextStatement_extends h.settles h.atFront h.atMore level inFunction hnext tokens).imp ?_
    rintro ⟨s, rest⟩ ⟨s', rest'⟩ ⟨hs, hsettled, left, hleft, hrest, hrest'⟩
    dsimp only at hs hsettled hrest hrest'
    subst hs hrest hrest'
    cases left with
    | nil => exact ⟨rfl, .inr ⟨rfl, rfl, hsettled, hnext, hline⟩⟩
    | cons first left => exact ⟨rfl, .inl (.ahead hleft)⟩
  · -- The statement ends before the first line break, which is before the seam.
    push Not at hline
    obtain ⟨nl, hmem, hnl⟩ := hline
    obtain ⟨before, behind, rfl⟩ := List.append_of_mem hmem
    have hfront : AtBreak (nl :: behind ++ front) := beq_iff_eq.2 hnl
    have hmore : AtBreak (nl :: behind ++ more) := beq_iff_eq.2 hnl
    rw [List.append_assoc, List.append_assoc]
    refine (nextStatement_extends h.settles hfront hmore level inFunction hnext before).imp ?_
    rintro ⟨s, rest⟩ ⟨s', rest'⟩ ⟨hs, hsettled, left, hleft, hrest, hrest'⟩
    dsimp only at hs hsettled hrest hrest'
    subst hs hrest hrest'
    refine ⟨rfl, .inl ?_⟩
    rw [← List.append_assoc, ← List.append_assoc]
    have hsuffix : left ++ nl :: behind <:+ before ++ nl :: behind := by
      obtain ⟨taken, rfl⟩ := hleft
      exact ⟨taken, (List.append_assoc _ _ _).symm⟩
    cases hall : left ++ nl :: behind with
    | nil => exact absurd hall (by simp)
    | cons first rest =>
        rw [hall] at hsuffix
        exact .ahead hsuffix

/-- The last token is a line break. -/
def EndsInBreak (tokens : List Lexed) : Prop :=
  ∃ nl : Lexed, nl.token.kind = .newLine ∧ [nl] <:+ tokens

theorem EndsInBreak.mono {tokens tokens' : List Lexed} (h : EndsInBreak tokens) (htokens : tokens <:+ tokens') :
    EndsInBreak tokens' := by
  obtain ⟨nl, hnl, hlast⟩ := h
  exact ⟨nl, hnl, hlast.trans htokens⟩

theorem splits_of_passed {α : Type} {tokens : List Lexed} {outcome outcome' : Except SyntaxError (α × List Lexed)}
    (h : Persists (Passed Past) outcome outcome') : Persists (Splits front more Past tokens) outcome outcome' :=
  h.imp fun _ _ hpassed => ⟨hpassed.1, .past hpassed.2⟩

mutual

theorem statement_splits (h : Seam r r' front more Past) (level : Nat) (inFunction : Bool) (next : Lexed)
    (tokens : List Lexed) (hstop : EndsInBreak tokens → StopsAlike r r' front more Past) :
    Persists (fun p p' => p'.1 = p.1 ∧ (Left front more Past tokens p.2 p'.2
        ∨ EndsLine r front more next tokens p.2 p'.2))
      (r.nextStatement level inFunction next (tokens ++ front))
      (r'.nextStatement level inFunction next (tokens ++ more)) := by
  by_cases hopens : next.token.kind.opensBlock = true
  · obtain ⟨⟨kind, p⟩, after⟩ := next
    rw [nextStatement_eq, nextStatement_eq]
    cases kind with
    | keyword word =>
        cases word with
        | for_ =>
            refine settle_extends h.settles fun _ => ?_
            apply read_left (counting_extends h.settles h.atFront h.atMore tokens) (counting_leaves r _)
            intro head left hlt hlt' hleft _
            have hbody := block_splits h (level + 1) inFunction left fun hbreak => hstop (hbreak.mono hleft)
            refine hbody.bind ?_
            rintro ⟨body, rest⟩ ⟨_, rest'⟩ ⟨rfl, hrest⟩
            exact ⟨rfl, .inl (hrest.mono hleft)⟩
        | while_ =>
            refine settle_extends h.settles fun _ => ?_
            apply read_left (condition_extends h.settles h.atFront h.atMore .do_ tokens) (condition_leaves r _ _)
            intro condition left hlt hlt' hleft _
            have hbody := block_splits h (level + 1) inFunction left fun hbreak => hstop (hbreak.mono hleft)
            refine hbody.bind ?_
            rintro ⟨body, rest⟩ ⟨_, rest'⟩ ⟨rfl, hrest⟩
            exact ⟨rfl, .inl (hrest.mono hleft)⟩
        | if_ =>
            refine settle_extends h.settles fun _ => ?_
            apply read_left (condition_extends h.settles h.atFront h.atMore .then_ tokens) (condition_leaves r _ _)
            intro condition left hlt hlt' hleft _
            have hbody := block_splits h (level + 1) inFunction left fun hbreak => hstop (hbreak.mono hleft)
            refine hbody.bind ?_
            rintro ⟨body, rest⟩ ⟨_, rest'⟩ ⟨rfl, hrest⟩
            have hother := otherwise_splits h (level + 1) inFunction hrest fun hbreak => hstop (hbreak.mono hleft)
            refine hother.bind ?_
            rintro ⟨other, rest⟩ ⟨_, rest'⟩ ⟨rfl, hrest⟩
            exact ⟨rfl, .inl (hrest.mono hleft)⟩
        | function =>
            refine settle_extends h.settles fun _ => ?_
            apply read_left (signature_extends h.settles h.atFront h.atMore tokens) (signature_leaves r _)
            rintro ⟨name, parameters⟩ left hlt hlt' hleft -
            have hbody := block_splits h (level + 1) true left fun hbreak => hstop (hbreak.mono hleft)
            refine hbody.bind ?_
            rintro ⟨body, rest⟩ ⟨_, rest'⟩ ⟨rfl, hrest⟩
            exact ⟨rfl, .inl (hrest.mono hleft)⟩
        | else_ => trivial
        | _ => cases hopens
    | _ => cases hopens
  · exact nextStatement_plain h level inFunction (Bool.eq_false_iff.2 hopens) tokens
termination_by 2 * tokens.length + 2
decreasing_by
  all_goals have hle := hleft.length_le
  all_goals omega

theorem otherwise_splits (h : Seam r r' front more Past) (level : Nat) (inFunction : Bool)
    {tokens rest rest' : List Lexed} (hrest : Left front more Past tokens rest rest')
    (hstop : EndsInBreak tokens → StopsAlike r r' front more Past) :
    Persists (Splits front more Past tokens) (r.otherwise level inFunction rest)
      (r'.otherwise level inFunction rest') := by
  cases hrest with
  | past hpast => exact splits_of_passed (h.pastOtherwise hpast level inFunction)
  | @ahead first left hleft =>
      have hbehind : left <:+ tokens := (List.suffix_cons first left).trans hleft
      rw [List.cons_append, List.cons_append, otherwise, otherwise]
      split
      · refine settle_extends h.settles fun _ => ?_
        have hblock := block_splits h level inFunction left fun hbreak => hstop (hbreak.mono hbehind)
        refine hblock.bind ?_
        rintro ⟨other, rest⟩ ⟨_, rest'⟩ ⟨rfl, hrest⟩
        exact ⟨rfl, hrest.mono hbehind⟩
      · exact ⟨rfl, .ahead hleft⟩
termination_by 2 * tokens.length + 1
decreasing_by
  have hle := hleft.length_le
  rw [List.length_cons] at hle
  omega

theorem block_splits (h : Seam r r' front more Past) (level : Nat) (inFunction : Bool) (tokens : List Lexed)
    (hstop : EndsInBreak tokens → StopsAlike r r' front more Past) :
    Persists (Splits front more Past tokens) (r.nextBlock level inFunction (tokens ++ front))
      (r'.nextBlock level inFunction (tokens ++ more)) := by
  cases tokens with
  | nil => exact splits_of_passed (h.block level inFunction)
  | cons nl behind =>
      by_cases hnl : nl.token.kind = .newLine
      · rw [List.cons_append, List.cons_append, nextBlock_newLine r level inFunction hnl,
          nextBlock_newLine r' level inFunction hnl]
        refine settle_extends h.settles fun hsettled => ?_
        refine (body_splits h level inFunction hnl hsettled hstop).bind ?_
        rintro ⟨body, rest⟩ ⟨_, rest'⟩ ⟨rfl, hrest⟩
        dsimp only
        split
        · trivial
        · exact ⟨rfl, hrest⟩
      · cases hp : r.nextBlock level inFunction (nl :: behind ++ front) with
        | error e => trivial
        | ok p =>
            rw [List.cons_append, nextBlock_cons] at hp
            exact absurd (newLine_of_consume r hp) hnl
termination_by 2 * tokens.length

theorem body_splits (h : Seam r r' front more Past) (level : Nat) (inFunction : Bool) {nl : Lexed}
    (hnl : nl.token.kind = .newLine) {tokens : List Lexed} (hsettled : r.settle (tokens ++ front) = .ok ())
    (hstop : EndsInBreak (nl :: tokens) → StopsAlike r r' front more Past) :
    Persists (Splits front more Past (nl :: tokens)) (r.body level inFunction nl (tokens ++ front))
      (r'.body level inFunction nl (tokens ++ more)) := by
  cases tokens with
  | nil => exact splits_of_passed (hstop ⟨nl, hnl, List.suffix_refl [nl]⟩ hsettled level inFunction nl hnl)
  | cons next following =>
      have hall : nl :: next :: following <:+ nl :: next :: following := List.suffix_refl _
      have hbehind : next :: following <:+ nl :: next :: following := List.suffix_cons nl _
      by_cases hnext : next.isIndentation = true
      · obtain ⟨htake, hdrop⟩ := indentations_append h.atFront following
        obtain ⟨htake', hdrop'⟩ := indentations_append h.atMore following
        rw [List.cons_append, List.cons_append, body_of_isIndentation r level inFunction nl hnext,
          body_of_isIndentation r' level inFunction nl hnext, htake, hdrop, htake', hdrop']
        refine settle_extends h.settles fun hsettled => ?_
        have hdropped : following.dropWhile Lexed.isIndentation <:+ nl :: next :: following :=
          ((List.dropWhile_suffix _).trans (List.suffix_cons next following)).trans hbehind
        have hlength := (List.dropWhile_suffix Lexed.isIndentation (l := following)).length_le
        revert hdropped hlength hsettled
        generalize following.dropWhile Lexed.isIndentation = rest
        generalize next :: following.takeWhile Lexed.isIndentation = indents
        intro hsettled hrest hlength
        cases rest with
        | nil =>
            rw [List.nil_append, List.nil_append, line_of_atBreak r _ _ _ _ _ h.atFront,
              line_of_atBreak r' _ _ _ _ _ h.atMore]
            exact splits_of_passed (h.onward hsettled level inFunction)
        | cons first after =>
            rw [List.cons_append, List.cons_append, line, line]
            split
            · rename_i hfirst
              refine settle_extends h.settles fun hsettled => ?_
              have hbody := body_splits h level inFunction hfirst hsettled fun hbreak => hstop (hbreak.mono hrest)
              exact hbody.imp fun p p' hp => ⟨hp.1, hp.2.mono hrest⟩
            · split
              · exact stop_splits hall hrest
              · split
                · trivial
                · have hafter : after <:+ nl :: next :: following := (List.suffix_cons first after).trans hrest
                  have hstatement := statement_splits h level inFunction first after
                    fun hbreak => hstop (hbreak.mono hafter)
                  refine hstatement.bind ?_
                  rintro ⟨s, rest⟩ ⟨_, rest'⟩ ⟨rfl, hleft⟩
                  have honward : Persists (Splits front more Past after) (r.onward level inFunction rest)
                      (r'.onward level inFunction rest') := by
                    rcases hleft with hleft | ⟨rfl, rfl, hsettled, -, -⟩
                    · exact onward_splits h level inFunction hleft fun hbreak => hstop (hbreak.mono hafter)
                    · exact splits_of_passed (h.onward hsettled level inFunction)
                  refine honward.bind ?_
                  rintro ⟨others, rest⟩ ⟨_, rest'⟩ ⟨rfl, hleft⟩
                  exact ⟨rfl, hleft.mono hafter⟩
      · rw [List.cons_append, List.cons_append,
          body_of_not_isIndentation r level inFunction nl (Bool.eq_false_iff.2 hnext),
          body_of_not_isIndentation r' level inFunction nl (Bool.eq_false_iff.2 hnext)]
        exact stop_splits hall hbehind
termination_by 2 * tokens.length + 1
decreasing_by
  all_goals subst_vars
  all_goals simp only [List.length_cons] at *
  all_goals omega

theorem onward_splits (h : Seam r r' front more Past) (level : Nat) (inFunction : Bool)
    {tokens rest rest' : List Lexed} (hrest : Left front more Past tokens rest rest')
    (hstop : EndsInBreak tokens → StopsAlike r r' front more Past) :
    Persists (Splits front more Past tokens) (r.onward level inFunction rest) (r'.onward level inFunction rest') := by
  cases hrest with
  | past hpast => exact splits_of_passed (h.pastOnward hpast level inFunction)
  | @ahead first left hleft =>
      by_cases hfirst : first.token.kind = .newLine
      · rw [List.cons_append, List.cons_append, onward_newLine r level inFunction hfirst,
          onward_newLine r' level inFunction hfirst]
        refine settle_extends h.settles fun hsettled => ?_
        have hbody := body_splits h level inFunction hfirst hsettled fun hbreak => hstop (hbreak.mono hleft)
        exact hbody.imp fun p p' hp => ⟨hp.1, hp.2.mono hleft⟩
      · rw [List.cons_append, List.cons_append, onward, onward]
        split
        · exact ⟨rfl, .ahead hleft⟩
        · cases hp : (r.consume .newLine (.token .newLine) (first :: (left ++ front)) >>= fun _ =>
            r.body level inFunction first (left ++ front)) with
          | error e => trivial
          | ok p => exact absurd (newLine_of_consume r hp) hfirst
termination_by 2 * tokens.length
decreasing_by
  have hle := hleft.length_le
  rw [List.length_cons] at hle
  omega

end

/-! ### Where every block ends -/

/-- Behind the line break at which tokens start, there is neither a line of a block nor another branch. -/
structure Flush (tokens : List Lexed) : Prop where
  atBreak : AtBreak tokens
  outside : ∀ nl next rest, tokens = nl :: next :: rest → next.isIndentation = false ∧ next.isElse = false

theorem Flush.nil : Flush [] where
  atBreak := rfl
  outside := by
    intro nl next rest h
    cases h

/-- A second line break in front. -/
theorem Flush.cons {nl : Lexed} {tokens : List Lexed} (hnl : nl.token.kind = .newLine) (h : AtBreak tokens) :
    Flush (nl :: tokens) where
  atBreak := beq_iff_eq.2 hnl
  outside := by
    intro _ next rest htokens
    obtain ⟨rfl, rfl⟩ := List.cons.inj htokens
    exact ⟨isIndentation_of_newLine h.kind, isElse_of_newLine h.kind⟩

/-- Reading goes on with `rest` as it does with `tokens`: every block ends there, and the statements are the same. -/
structure GoesOn (r : Reading) (tokens rest : List Lexed) : Prop where
  flush : Flush rest
  statements : r.statements rest = r.statements tokens

/-- Behind the line break, a block has no line. -/
theorem body_of_flush {tokens : List Lexed} {nl : Lexed} {behind : List Lexed} (h : GoesOn r tokens (nl :: behind))
    (hsettled : r.settle behind = .ok ()) (level : Nat) (inFunction : Bool) :
    ∃ rest, GoesOn r tokens rest ∧ r.body level inFunction nl behind = .ok ([], rest) := by
  cases behind with
  | nil =>
      refine ⟨[], ⟨.nil, ?_⟩, body_nil r level inFunction nl⟩
      rw [← h.statements, statements_newLine r h.flush.atBreak.kind, hsettled]
      rfl
  | cons next rest =>
      obtain ⟨hindentation, helse⟩ := h.flush.outside nl next rest rfl
      refine ⟨nl :: next :: rest, h, ?_⟩
      rw [body_of_not_isIndentation r level inFunction nl hindentation, stop, helse]
      rfl

theorem onward_of_flush {tokens rest : List Lexed} (h : GoesOn r tokens rest) (level : Nat) (inFunction : Bool) :
    Ensures (fun p => p.1 = [] ∧ GoesOn r tokens p.2) (r.onward level inFunction rest)
      ∧ (r.Settles → ∃ p, r.onward level inFunction rest = .ok p) := by
  cases rest with
  | nil => exact ⟨⟨rfl, h⟩, fun _ => ⟨_, rfl⟩⟩
  | cons nl behind =>
      rw [onward_newLine r level inFunction h.flush.atBreak.kind]
      cases hsettled : r.settle behind with
      | error e =>
          refine ⟨trivial, fun hr => ?_⟩
          rw [hr behind] at hsettled
          cases hsettled
      | ok _ =>
          obtain ⟨rest, hrest, hbody⟩ := body_of_flush h hsettled level inFunction
          rw [hbody]
          exact ⟨⟨rfl, hrest⟩, fun _ => ⟨_, rfl⟩⟩

theorem otherwise_of_flush {rest : List Lexed} (h : Flush rest) (level : Nat) (inFunction : Bool) :
    r.otherwise level inFunction rest = .ok (none, rest) := by
  cases rest with
  | nil => rfl
  | cons nl behind => rw [otherwise, isElse_of_newLine h.atBreak.kind, if_neg Bool.false_ne_true]

/-- No block begins there. -/
theorem nextBlock_of_flush {tokens : List Lexed} (h : Flush tokens) (level : Nat) (inFunction : Bool) :
    ∃ e, r.nextBlock level inFunction tokens = .error e := by
  cases tokens with
  | nil => exact ⟨_, nextBlock_nil r level inFunction⟩
  | cons nl behind =>
      rw [nextBlock_newLine r level inFunction h.atBreak.kind]
      cases hsettled : r.settle behind with
      | error e => exact ⟨e, rfl⟩
      | ok _ =>
          obtain ⟨rest, -, hbody⟩ := body_of_flush (r := r) ⟨h, rfl⟩ hsettled level inFunction
          rw [hbody]
          exact ⟨_, rfl⟩

/-- The statements behind one of them. -/
theorem further_of_atBreak {tokens : List Lexed} (h : AtBreak tokens) : r.further tokens = r.statements tokens := by
  cases tokens with
  | nil =>
      rw [statements]
      rfl
  | cons nl behind => exact further_newLine r h.kind behind

/-- Both readings go on as at their ends of the tokens. If nothing is behind the first, its text ends there. -/
structure GoOn (r r' : Reading) (front more rest rest' : List Lexed) : Prop where
  left : GoesOn r front rest
  right : GoesOn r' more rest'
  ends : front = [] → r.settle [] = .ok ()

theorem onward_goOn (hr' : r'.Settles) {rest rest' : List Lexed} (h : GoOn r r' front more rest rest') (level : Nat)
    (inFunction : Bool) :
    Persists (Passed (GoOn r r' front more)) (r.onward level inFunction rest) (r'.onward level inFunction rest') := by
  obtain ⟨hleft, -⟩ := onward_of_flush h.left level inFunction
  obtain ⟨hright, hsome⟩ := onward_of_flush h.right level inFunction
  obtain ⟨p', hp'⟩ := hsome hr'
  rw [hp'] at hright ⊢
  cases hp : r.onward level inFunction rest with
  | error e => trivial
  | ok p =>
      rw [hp] at hleft
      exact ⟨hright.1.trans hleft.1.symm, hleft.2, hright.2, h.ends⟩

theorem goOn_seam (hr' : r'.Settles) (hfront : Flush front) (hmore : Flush more) :
    Seam r r' front more (GoOn r r' front more) where
  settles := hr'
  atFront := hfront.atBreak
  atMore := hmore.atBreak
  onward := by
    intro hsettled
    have hends : front = [] → r.settle [] = .ok () := by
      rintro rfl
      exact hsettled
    exact onward_goOn hr' ⟨⟨hfront, rfl⟩, ⟨hmore, rfl⟩, hends⟩
  block := by
    intro level inFunction
    obtain ⟨e, he⟩ := nextBlock_of_flush (r := r) hfront level inFunction
    rw [he]
    trivial
  pastOnward := onward_goOn hr'
  pastOtherwise := by
    intro rest rest' h level inFunction
    rw [otherwise_of_flush h.left.flush, otherwise_of_flush h.right.flush]
    exact ⟨rfl, h⟩

theorem goOn_stops (hr' : r'.Settles) (hfront : Flush front) (hmore : Flush more) :
    StopsAlike r r' front more (GoOn r r' front more) := by
  intro hsettled level inFunction nl hnl
  have hleft : GoesOn r front (nl :: front) := by
    refine ⟨.cons hnl hfront.atBreak, ?_⟩
    rw [statements_newLine r hnl, hsettled]
    rfl
  have hright : GoesOn r' more (nl :: more) := by
    refine ⟨.cons hnl hmore.atBreak, ?_⟩
    rw [statements_newLine r' hnl, hr' more]
    rfl
  obtain ⟨rest, hrest, hbody⟩ := body_of_flush hleft hsettled level inFunction
  obtain ⟨rest', hrest', hbody'⟩ := body_of_flush hright (hr' more) level inFunction
  rw [hbody, hbody']
  refine ⟨rfl, hrest, hrest', ?_⟩
  rintro rfl
  exact hsettled

/-- A program is the statements before a seam and those behind it, and the statements before it are those of
another outcome too. If nothing is behind the seam, the text ends there. -/
def CutsInto (r r' : Reading) (front more : List Lexed) (outcome : Except SyntaxError Program)
    (program : Program) : Prop :=
  ∃ before behind, program = before ++ behind ∧ r.statements front = .ok behind
    ∧ outcome = (r'.statements more).map (before ++ ·) ∧ (front = [] → r.settle [] = .ok ())

theorem cutsInto_of_goOn {rest rest' : List Lexed} (h : GoOn r r' front more rest rest') :
    Ensures (CutsInto r r' front more (r'.statements rest')) (r.statements rest) := by
  rw [h.left.statements, h.right.statements]
  cases hp : r.statements front with
  | error e => trivial
  | ok behind =>
      refine ⟨[], behind, rfl, hp, ?_, h.ends⟩
      cases r'.statements more with
      | error e => rfl
      | ok after => rfl

theorem CutsInto.cons {outcome : Except SyntaxError Program} {program : Program}
    (h : CutsInto r r' front more outcome program) (s : Statement) :
    CutsInto r r' front more (outcome >>= fun others => return s :: others) (s :: program) := by
  obtain ⟨before, behind, rfl, hbehind, rfl, hends⟩ := h
  refine ⟨s :: before, behind, rfl, hbehind, ?_, hends⟩
  cases r'.statements more with
  | error e => rfl
  | ok after => rfl

/-- A program of which every block ends at the seam is the statements before it and those behind; they are the
statements before another end of the tokens as well, where every block ends too. -/
theorem statements_cut (hr' : r'.Settles) (hfront : Flush front) (hmore : Flush more) (tokens : List Lexed)
    (hsettled : r.settle (tokens ++ front) = .ok ()) :
    Ensures (CutsInto r r' front more (r'.statements (tokens ++ more))) (r.statements (tokens ++ front)) := by
  cases tokens with
  | nil =>
      refine cutsInto_of_goOn ⟨⟨hfront, rfl⟩, ⟨hmore, rfl⟩, ?_⟩
      rintro rfl
      exact hsettled
  | cons next tokens =>
      by_cases hnext : next.token.kind = .newLine
      · rw [List.cons_append, List.cons_append, statements_newLine r hnext, statements_newLine r' hnext,
          hr' (tokens ++ more)]
        cases hsettled : r.settle (tokens ++ front) with
        | error e => trivial
        | ok _ => exact statements_cut hr' hfront hmore tokens hsettled
      · rw [List.cons_append, List.cons_append, statements_cons r hnext, statements_cons r' hnext]
        have hstatement := statement_splits (goOn_seam (r := r) hr' hfront hmore) 0 false next tokens
          fun _ => goOn_stops hr' hfront hmore
        cases hp : r.nextStatement 0 false next (tokens ++ front) with
        | error e => trivial
        | ok p =>
            rw [hp] at hstatement
            obtain ⟨⟨s', rest'⟩, hp', hvalue, hleft⟩ := hstatement.exists_of_ok
            rw [hp']
            obtain ⟨s, rest⟩ := p
            dsimp only at hvalue hleft
            subst hvalue
            have hfurther : Ensures (CutsInto r r' front more (r'.further rest')) (r.further rest) := by
              rcases hleft with hleft | ⟨rfl, rfl, hsettled, -, -⟩
              · cases hleft with
                | past hpast =>
                    rw [further_of_atBreak hpast.left.flush.atBreak, further_of_atBreak hpast.right.flush.atBreak]
                    exact cutsInto_of_goOn hpast
                | @ahead first left hleft =>
                    have hle := hleft.length_le
                    rw [List.length_cons] at hle
                    cases hf : r.further (first :: left ++ front) with
                    | error e => trivial
                    | ok others =>
                        have hfirst : first.token.kind = .newLine := newLine_of_consume r hf
                        rw [List.cons_append, further_newLine r hfirst, statements_newLine r hfirst,
                          bind_eq_ok] at hf
                        obtain ⟨_, hsettled, hothers⟩ := hf
                        rw [List.cons_append, further_newLine r' hfirst, statements_newLine r' hfirst,
                          hr' (left ++ more)]
                        exact (statements_cut hr' hfront hmore left hsettled).of_eq_ok hothers
              · rw [further_of_atBreak hfront.atBreak, further_of_atBreak hmore.atBreak]
                refine cutsInto_of_goOn ⟨⟨hfront, rfl⟩, ⟨hmore, rfl⟩, ?_⟩
                rintro rfl
                exact hsettled
            exact hfurther.bind fun others hothers => hothers.cons _
termination_by tokens.length
decreasing_by
  all_goals subst_vars
  all_goals simp only [List.length_cons] at *
  all_goals omega

/-! ### Statements behind a program -/

/-- The statements of a program are read from these tokens, which start with a line break if there are any. -/
structure Resumes (r : Reading) (program : Program) (tokens : List Lexed) : Prop where
  atBreak : AtBreak tokens
  statements : r.statements tokens = .ok program

variable {program : Program}

theorem Resumes.cons (hr' : r'.Settles) {first : Lexed} {behind : List Lexed} (hfirst : first.token.kind = .newLine)
    (h : r'.statements behind = .ok program) : r'.Resumes program (first :: behind) where
  atBreak := beq_iff_eq.2 hfirst
  statements := by
    rw [statements_newLine r' hfirst, hr' behind]
    exact h

/-- No program starts with the word for the other branch. -/
theorem isElse_of_statements {first : Lexed} {behind : List Lexed}
    (h : r'.statements (first :: behind) = .ok program) : first.isElse = false := by
  rw [Bool.eq_false_iff]
  intro helse
  have hkind : first.token.kind = .keyword .else_ := eq_of_beq helse
  rw [statements_cons r' (by rw [hkind]; exact Token.Kind.noConfusion), nextStatement_eq, hkind] at h
  cases h

/-- Where a program is read, every block ends. -/
theorem flush_of_statements {nl : Lexed} (hnl : nl.token.kind = .newLine) {behind : List Lexed}
    (h : r'.statements behind = .ok program) : Flush (nl :: behind) where
  atBreak := beq_iff_eq.2 hnl
  outside := by
    intro _ next rest htokens
    obtain ⟨rfl, rfl⟩ := List.cons.inj htokens
    exact ⟨beq_eq_false_iff_ne.2 (head_of_statements r' h next rfl), isElse_of_statements h⟩

theorem Resumes.flush (h : r'.Resumes program more) : Flush more := by
  cases more with
  | nil => exact .nil
  | cons nl behind =>
      have hstatements := h.statements
      rw [statements_newLine r' h.atBreak.kind, bind_eq_ok] at hstatements
      obtain ⟨_, -, hbehind⟩ := hstatements
      exact flush_of_statements h.atBreak.kind hbehind

/-- The statements behind are read behind the statements before, and the text of the first reading goes on to be
tokens to its end. -/
theorem statements_trail (hr' : r'.Settles) (hmore : r'.Resumes program more) {tokens : List Lexed}
    (hsettled : r.settle tokens = .ok ()) :
    Persists (fun before all => all = before ++ program ∧ r.settle [] = .ok ()) (r.statements tokens)
      (r'.statements (tokens ++ more)) := by
  have hcut := statements_cut (r := r) hr' .nil hmore.flush tokens (by rwa [List.append_nil])
  rw [List.append_nil] at hcut
  cases hp : r.statements tokens with
  | error e => trivial
  | ok all =>
      obtain ⟨before, behind, hall, hbehind, houtcome, hends⟩ := hcut.of_eq_ok hp
      rw [houtcome, hmore.statements]
      rw [statements] at hbehind
      cases hbehind
      rw [hall, List.append_nil]
      exact ⟨rfl, hends rfl⟩

end Reading

end PolishPseudocode
