import PolishPseudocode.Proofs.Expr.Continuation
import PolishPseudocode.Proofs.Program.Bodies
import PolishPseudocode.Proofs.Program.Nesting

/-! Reading a statement with one or another end of the tokens. The head of a statement, and a statement without a
block, is in one line: it ends before the line break at the end of the tokens, whatever is behind. -/

namespace PolishPseudocode

/-- Whether a token of this kind, at the start of a line, has a block below the line. -/
def Token.Kind.opensBlock : Token.Kind → Bool
  | .keyword .for_ | .keyword .while_ | .keyword .if_ | .keyword .else_ | .keyword .function => true
  | _ => false

namespace Reading

variable {r r' : Reading} {front more : List Lexed}

/-! ### Simple statements and heads -/

theorem head?_any_append (hmore : AtBreak more) (test : Token.Kind → Bool) (htest : test .newLine = false)
    (tokens : List Lexed) :
    ((tokens ++ more).head?.any fun t => test t.token.kind) = tokens.head?.any fun t => test t.token.kind := by
  cases tokens with
  | cons next tokens => rfl
  | nil =>
      cases more with
      | nil => rfl
      | cons first more =>
          simp only [List.nil_append, List.head?_cons, List.head?_nil, Option.any_some, Option.any_none, hmore.kind,
            htest]

theorem target_extends (hr' : r'.Settles) (hfront : AtBreak front) (hmore : AtBreak more) (name : Name)
    (tokens : List Lexed) (hsettled : r.settle (tokens ++ front) = .ok ()) :
    Persists (Parsed.Extends r front more) (r.target name (tokens ++ front)) (r'.target name (tokens ++ more)) := by
  have hhead := head?_any_append hfront (fun kind => kind.class == .delimiter .bracket) rfl tokens
  have hhead' := head?_any_append hmore (fun kind => kind.class == .delimiter .bracket) rfl tokens
  rw [target, target]
  simp only [hhead, hhead']
  split
  · apply (delimiter_extends hr' hfront .bracket .opening tokens).read
    intro _ left hlt hlt' _
    apply (indexInside_extends hr' hfront hmore false left).read
    intro index left hlt hlt' hsettled
    exact .left hsettled
  · exact .left hsettled

theorem assignment_extends (hr' : r'.Settles) (hfront : AtBreak front) (hmore : AtBreak more) (name : Name)
    (next : Lexed) (tokens : List Lexed) :
    Persists (Parsed.Extends r front more) (r.assignment name (next :: tokens ++ front))
      (r'.assignment name (next :: tokens ++ more)) := by
  apply (target_extends hr' hfront hmore name (next :: tokens) rfl).read
  intro target left hlt hlt' _
  apply (consume_extends hr' hfront (by simp) (.keyword .assign) left).read
  intro arrow left hlt hlt' _
  dsimp only
  split
  · apply (expression_extends hr' hfront hmore false left).read
    intro value left hlt hlt' hsettled
    exact .left hsettled
  · trivial

/-- No statement that starts with a name ends behind it. -/
theorem exists_error_assignmentOrCall (hfront : AtBreak front) (name : Name) :
    ∃ e, r.assignmentOrCall name front = .error e := by
  cases front with
  | nil => exact ⟨_, rfl⟩
  | cons first behind =>
      have hcall : ¬ first.token.kind = .delimiter .parenthesis .opening := by
        rw [hfront.kind]
        exact Token.Kind.noConfusion
      have hbracket : ¬ ((first :: behind).head?.any fun t => t.token.kind.class == .delimiter .bracket) = true := by
        rw [List.head?_cons, Option.any_some, hfront.kind]
        exact Bool.false_ne_true
      have harrow : ¬ first.token.kind.class = .keyword := by
        rw [hfront.kind]
        exact Token.Class.noConfusion
      have htarget : r.target name (first :: behind) = .ok ⟨.var name, _, _⟩ := if_neg hbracket
      have hconsume : r.consume .keyword (.keyword .assign) (first :: behind) = .error _ := if_neg harrow
      rw [assignmentOrCall, if_neg hcall, assignment, htarget]
      refine ⟨⟨.unexpectedToken first.token.kind.class (.keyword .assign), first.token.position⟩, ?_⟩
      dsimp only [List.isEmpty_cons]
      rw [if_neg Bool.false_ne_true]
      change (r.consume .keyword (.keyword .assign) (first :: behind) >>= _) = _
      rw [hconsume]
      rfl

theorem assignmentOrCall_extends (hr' : r'.Settles) (hfront : AtBreak front) (hmore : AtBreak more) (name : Name)
    (tokens : List Lexed) :
    Persists (Parsed.Extends r front more) (r.assignmentOrCall name (tokens ++ front))
      (r'.assignmentOrCall name (tokens ++ more)) := by
  cases tokens with
  | nil =>
      obtain ⟨e, he⟩ := exists_error_assignmentOrCall (r := r) hfront name
      rw [List.nil_append, he]
      trivial
  | cons next rest =>
      rw [List.cons_append, List.cons_append, assignmentOrCall, assignmentOrCall]
      split
      · refine settle_extends hr' fun _ => ?_
        apply (arguments_extends hr' hfront hmore rest).read
        intro arguments left hlt hlt' hsettled
        exact .left hsettled
      · exact assignment_extends hr' hfront hmore name next rest

theorem condition_extends (hr' : r'.Settles) (hfront : AtBreak front) (hmore : AtBreak more) (word : Keyword)
    (tokens : List Lexed) :
    Persists (Parsed.Extends r front more) (r.condition word (tokens ++ front))
      (r'.condition word (tokens ++ more)) := by
  apply (expression_extends hr' hfront hmore false tokens).read
  intro e left hlt hlt' _
  apply (keyword_extends hr' hfront word left).read
  intro _ left hlt hlt' hsettled
  exact .left hsettled

theorem counting_extends (hr' : r'.Settles) (hfront : AtBreak front) (hmore : AtBreak more) (tokens : List Lexed) :
    Persists (Parsed.Extends r front more) (r.counting (tokens ++ front)) (r'.counting (tokens ++ more)) := by
  apply (name_extends hr' hfront tokens).read
  intro counter left hlt hlt' _
  apply (keyword_extends hr' hfront .equals left).read
  intro _ left hlt hlt' _
  apply (expression_extends hr' hfront hmore false left).read
  intro start left hlt hlt' _
  apply (consume_extends hr' hfront (by simp) (.token .comma) left).read
  intro _ left hlt hlt' _
  apply (expression_extends hr' hfront hmore false left).read
  intro second left hlt hlt' _
  apply (consume_extends hr' hfront (by simp) (.token .comma) left).read
  intro _ left hlt hlt' _
  apply (consume_extends hr' hfront (by simp) (.token .ellipsis) left).read
  intro _ left hlt hlt' _
  apply (consume_extends hr' hfront (by simp) (.token .comma) left).read
  intro _ left hlt hlt' _
  apply (condition_extends hr' hfront hmore .do_ left).read
  intro last left hlt hlt' hsettled
  exact .left hsettled

theorem atParenthesis_append (hmore : AtBreak more) (tokens : List Lexed) :
    atParenthesis (tokens ++ more) = atParenthesis tokens :=
  head?_any_append hmore (fun kind => kind.class == .delimiter .parenthesis) rfl tokens

theorem parameters_extends (hr' : r'.Settles) (hfront : AtBreak front) (hmore : AtBreak more) {tokens : List Lexed}
    (hsettled : r.settle (tokens ++ front) = .ok ()) :
    Persists (Parsed.Extends r front more) (r.parameters (tokens ++ front)) (r'.parameters (tokens ++ more)) := by
  rw [parameters, parameters, atParenthesis_append hfront, atParenthesis_append hmore]
  split
  · exact .left hsettled
  · apply (name_extends hr' hfront tokens).read
    intro first left hlt hlt' hsettled
    simp only [atParenthesis_append hfront, atParenthesis_append hmore]
    split
    · exact .left hsettled
    · apply (consume_extends hr' hfront (by simp) (.token .comma) left).read
      intro _ left hlt hlt' hsettled
      apply (parameters_extends hr' hfront hmore hsettled).read
      intro others left hlt hlt' hsettled
      exact .left hsettled
termination_by tokens.length
decreasing_by
  simp only [List.length_append] at *
  omega

theorem signature_extends (hr' : r'.Settles) (hfront : AtBreak front) (hmore : AtBreak more) (tokens : List Lexed) :
    Persists (Parsed.Extends r front more) (r.signature (tokens ++ front)) (r'.signature (tokens ++ more)) := by
  apply (name_extends hr' hfront tokens).read
  intro name left hlt hlt' _
  apply (delimiter_extends hr' hfront .parenthesis .opening left).read
  intro _ left hlt hlt' hsettled
  apply (parameters_extends hr' hfront hmore hsettled).read
  intro parameters left hlt hlt' _
  apply (delimiter_extends hr' hfront .parenthesis .closing left).read
  intro _ left hlt hlt' hsettled
  exact .left hsettled

/-! ### Statements without a block -/

theorem statement_extends (hr' : r'.Settles) (hfront : AtBreak front) (hmore : AtBreak more) (level : Nat)
    (inFunction : Bool) {next : Lexed} (hnext : next.token.kind.opensBlock = false) (tokens : List Lexed) :
    Persists (Parsed.Extends r front more) (r.statement level inFunction next (tokens ++ front))
      (r'.statement level inFunction next (tokens ++ more)) := by
  obtain ⟨⟨kind, p⟩, after⟩ := next
  rw [statement, statement]
  cases kind with
  | identifier name =>
      refine settle_extends hr' fun _ => ?_
      apply (assignmentOrCall_extends hr' hfront hmore ⟨name, p⟩ tokens).read
      intro s left hlt hlt' hsettled
      exact .left hsettled
  | keyword word =>
      cases word with
      | for_ | while_ | if_ | else_ | function => cases hnext
      | return_ =>
          refine settle_extends hr' fun hsettled => ?_
          have hhead : ((tokens ++ more).head?.all (·.token.kind == .newLine))
              = (tokens ++ front).head?.all (·.token.kind == .newLine) := by
            cases tokens with
            | nil => exact Eq.trans hmore (Eq.symm hfront)
            | cons first tokens => rfl
          dsimp only
          rw [hhead]
          split
          · split
            · exact .left hsettled
            · apply (expression_extends hr' hfront hmore false tokens).read
              intro value left hlt hlt' hsettled
              exact .left hsettled
          · trivial
      | print =>
          refine settle_extends hr' fun _ => ?_
          apply (expression_extends hr' hfront hmore false tokens).read
          intro value left hlt hlt' hsettled
          exact .left hsettled
      | _ => trivial
  | _ => trivial

theorem suffix_of_append {left tokens : List Lexed} (h : left ++ front <:+ tokens ++ front) : left <:+ tokens := by
  obtain ⟨taken, h⟩ := h
  rw [← List.append_assoc] at h
  exact ⟨taken, List.append_cancel_right h⟩

/-- As `Persists.read`, for a reader that leaves the end of its tokens. -/
theorem read_left {α γ δ : Type} {related : γ → δ → Prop} {limit limit' : Nat} {tokens : List Lexed}
    {first : Except SyntaxError (Parsed α limit)} {first' : Except SyntaxError (Parsed α limit')}
    {next : Parsed α limit → Except SyntaxError γ} {next' : Parsed α limit' → Except SyntaxError δ}
    (h : Persists (Parsed.Extends r front more) first first')
    (hleaves : Ensures (Parsed.Leaves (tokens ++ front)) first)
    (hnext : ∀ value left (hlt : (left ++ front).length < limit) (hlt' : (left ++ more).length < limit'),
      left <:+ tokens → r.settle (left ++ front) = .ok () →
        Persists related (next ⟨value, left ++ front, hlt⟩) (next' ⟨value, left ++ more, hlt'⟩)) :
    Persists related (first >>= next) (first' >>= next') := by
  cases first with
  | error e => trivial
  | ok p =>
      obtain ⟨value, rest, hlt⟩ := p
      obtain ⟨⟨value', rest', hlt'⟩, rfl, hvalue, ⟨left, hrest, hrest'⟩, hsettled⟩ := h.exists_of_ok
      dsimp only at hvalue hrest hrest' hsettled
      subst hvalue hrest hrest'
      exact hnext _ left hlt hlt' (suffix_of_append hleaves) hsettled

/-- A statement without a block leaves the same tokens of its line before one end and before the other. -/
theorem nextStatement_extends (hr' : r'.Settles) (hfront : AtBreak front) (hmore : AtBreak more) (level : Nat)
    (inFunction : Bool) {next : Lexed} (hnext : next.token.kind.opensBlock = false) (tokens : List Lexed) :
    Persists (fun p p' => p'.1 = p.1 ∧ r.settle p.2 = .ok ()
        ∧ ∃ left, left <:+ tokens ∧ p.2 = left ++ front ∧ p'.2 = left ++ more)
      (r.nextStatement level inFunction next (tokens ++ front))
      (r'.nextStatement level inFunction next (tokens ++ more)) := by
  have hleaves : Ensures (Parsed.Leaves (tokens ++ front)) (r.statement level inFunction next (tokens ++ front)) :=
    (statement_laid r level inFunction next (tokens ++ front)).imp fun p hp => hp.2.suffix
  have hextends := statement_extends (r := r) hr' hfront hmore level inFunction hnext tokens
  rw [nextStatement, nextStatement]
  cases hp : r.statement level inFunction next (tokens ++ front) with
  | error e => trivial
  | ok p =>
      rw [hp] at hextends hleaves
      obtain ⟨p', hp', hvalue, ⟨left, hrest, hrest'⟩, hsettled⟩ := hextends.exists_of_ok
      rw [hp']
      refine ⟨hvalue, hsettled, left, ?_, hrest, hrest'⟩
      have hsuffix : p.rest <:+ tokens ++ front := hleaves
      rw [hrest] at hsuffix
      exact suffix_of_append hsuffix

end Reading

end PolishPseudocode
