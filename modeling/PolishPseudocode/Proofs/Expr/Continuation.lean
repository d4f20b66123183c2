import PolishPseudocode.Proofs.Expr.Relocation

/-! Reading an expression with one or another end of the tokens. An end starts with a line break, if there is
anything, and a line break ends every expression: a reader that succeeds before one end reads the same before the
other, and leaves the same tokens before it. -/

namespace PolishPseudocode

/-- Two readings of the same tokens, the first one with `front` behind them and the second one with `more`: they
give the same and leave the same, and the text goes on to be tokens behind the first. -/
structure Parsed.Extends {α : Type} {limit limit' : Nat} (r : Reading) (front more : List Lexed) (p : Parsed α limit)
    (p' : Parsed α limit') : Prop where
  value : p'.value = p.value
  rest : ∃ left, p.rest = left ++ front ∧ p'.rest = left ++ more
  settled : r.settle p.rest = .ok ()

/-- Readings that leave the tokens `left`. -/
theorem Parsed.Extends.left {α : Type} {limit limit' : Nat} {r : Reading} {front more left : List Lexed} {value : α}
    {hlt : (left ++ front).length < limit} {hlt' : (left ++ more).length < limit'}
    (h : r.settle (left ++ front) = .ok ()) :
    Parsed.Extends r front more ⟨value, left ++ front, hlt⟩ ⟨value, left ++ more, hlt'⟩ :=
  ⟨rfl, ⟨left, rfl, rfl⟩, h⟩

/-- Reading on before one end of the tokens and before the other. -/
theorem Persists.read {α γ δ : Type} {r : Reading} {front more : List Lexed} {related : γ → δ → Prop}
    {limit limit' : Nat} {first : Except SyntaxError (Parsed α limit)} {first' : Except SyntaxError (Parsed α limit')}
    {next : Parsed α limit → Except SyntaxError γ} {next' : Parsed α limit' → Except SyntaxError δ}
    (h : Persists (Parsed.Extends r front more) first first')
    (hnext : ∀ value left (hlt : (left ++ front).length < limit) (hlt' : (left ++ more).length < limit'),
      r.settle (left ++ front) = .ok () →
        Persists related (next ⟨value, left ++ front, hlt⟩) (next' ⟨value, left ++ more, hlt'⟩)) :
    Persists related (first >>= next) (first' >>= next') := by
  refine h.bind ?_
  rintro ⟨value, rest, hlt⟩ ⟨value', rest', hlt'⟩ ⟨hvalue, ⟨left, hrest, hrest'⟩, hsettled⟩
  dsimp only at hvalue hrest hrest' hsettled
  subst hvalue hrest hrest'
  exact hnext _ _ hlt hlt' hsettled

namespace Reading

variable {r r' : Reading} {front more : List Lexed}

/-- Tokens start with a line break, if there are any. -/
def AtBreak (tokens : List Lexed) : Prop :=
  tokens.head?.all (·.token.kind == .newLine) = true

theorem AtBreak.kind {first : Lexed} {behind : List Lexed} (h : AtBreak (first :: behind)) :
    first.token.kind = .newLine :=
  eq_of_beq h

/-- Where the first reading looks at the next token, the second may do so too. -/
theorem settle_extends {γ δ : Type} {related : γ → δ → Prop} (hr' : r'.Settles) {tokens tokens' : List Lexed}
    {next : Unit → Except SyntaxError γ} {next' : Unit → Except SyntaxError δ}
    (hnext : r.settle tokens = .ok () → Persists related (next ()) (next' ())) :
    Persists related (r.settle tokens >>= next) (r'.settle tokens' >>= next') := by
  rw [hr' tokens']
  cases hsettle : r.settle tokens with
  | error e => trivial
  | ok _ => exact hnext hsettle

/-- A token of any other class than a line break is taken before the end of the tokens or not at all. -/
theorem consume_extends (hr' : r'.Settles) (hfront : AtBreak front) {kind : Token.Class} (hkind : kind ≠ .newLine)
    (expected : Expected) (tokens : List Lexed) :
    Persists (Parsed.Extends r front more) (r.consume kind expected (tokens ++ front))
      (r'.consume kind expected (tokens ++ more)) := by
  cases tokens with
  | nil =>
      cases front with
      | nil => trivial
      | cons first behind =>
          have hclass : ¬ first.token.kind.class = kind := by
            rw [hfront.kind]
            exact hkind.symm
          rw [List.nil_append, consume, if_neg hclass]
          trivial
  | cons next rest =>
      rw [List.cons_append, List.cons_append, consume, consume]
      split
      · exact settle_extends hr' fun hsettled => .left hsettled
      · trivial

theorem delimiter_extends (hr' : r'.Settles) (hfront : AtBreak front) (pair : Delimiter) (side : Side)
    (tokens : List Lexed) :
    Persists (Parsed.Extends r front more) (r.delimiter pair side (tokens ++ front))
      (r'.delimiter pair side (tokens ++ more)) := by
  apply (consume_extends hr' hfront (by simp) _ tokens).read
  intro token left hlt hlt' hsettled
  obtain ⟨kind, p⟩ := token
  cases kind with
  | delimiter pair' found =>
      dsimp only
      split
      · exact .left hsettled
      · trivial
  | _ => trivial

theorem keyword_extends (hr' : r'.Settles) (hfront : AtBreak front) (word : Keyword) (tokens : List Lexed) :
    Persists (Parsed.Extends r front more) (r.keyword word (tokens ++ front)) (r'.keyword word (tokens ++ more)) := by
  apply (consume_extends hr' hfront (by simp) _ tokens).read
  intro token left hlt hlt' hsettled
  obtain ⟨kind, p⟩ := token
  cases kind with
  | keyword found =>
      dsimp only
      split
      · exact .left hsettled
      · trivial
  | _ => trivial

theorem name_extends (hr' : r'.Settles) (hfront : AtBreak front) (tokens : List Lexed) :
    Persists (Parsed.Extends r front more) (r.name (tokens ++ front)) (r'.name (tokens ++ more)) := by
  apply (consume_extends hr' hfront (by simp) _ tokens).read
  intro token left hlt hlt' hsettled
  obtain ⟨kind, p⟩ := token
  cases kind with
  | identifier name => exact .left hsettled
  | _ => trivial

/-- A line break is no item. -/
theorem not_ok_item_of_newLine (inCall : Bool) (sofar : Gathered) {next : Lexed} (h : next.token.kind = .newLine)
    (tokens : List Lexed) :
    r.item inCall sofar next tokens = .error ⟨.strayToken .newLine, next.token.position⟩ := by
  obtain ⟨⟨kind, p⟩, after⟩ := next
  cases h
  rw [item]
  rfl

/-- No expression starts at the end of the tokens. -/
theorem exists_error_expression (hfront : AtBreak front) (inCall : Bool) :
    ∃ e, r.expression inCall front = .error e := by
  cases front with
  | nil =>
      rw [expression]
      exact ⟨_, rfl⟩
  | cons first behind =>
      rw [expression, gather, not_ok_item_of_newLine inCall _ hfront.kind]
      exact ⟨_, rfl⟩

theorem exists_error_someArguments (hfront : AtBreak front) : ∃ e, r.someArguments front = .error e := by
  obtain ⟨e, he⟩ := exists_error_expression (r := r) hfront true
  rw [someArguments, he]
  exact ⟨e, rfl⟩

mutual

theorem item_extends (hr' : r'.Settles) (hfront : AtBreak front) (hmore : AtBreak more) (inCall : Bool)
    (sofar : Gathered) (next : Lexed) (tokens : List Lexed) :
    Persists (Parsed.Extends r front more) (r.item inCall sofar next (tokens ++ front))
      (r'.item inCall sofar next (tokens ++ more)) := by
  obtain ⟨⟨kind, p⟩, after⟩ := next
  rw [item, item]
  cases kind with
  | number x => exact settle_extends hr' fun hsettled => .left hsettled
  | text content => exact settle_extends hr' fun hsettled => .left hsettled
  | bool b => exact settle_extends hr' fun hsettled => .left hsettled
  | identifier name => exact settle_extends hr' fun hsettled => .left hsettled
  | operator op => exact settle_extends hr' fun hsettled => .left hsettled
  | delimiter pair side =>
      cases pair with
      | parenthesis =>
          cases side with
          | opening =>
              refine settle_extends hr' fun hsettled => ?_
              obtain ⟨items, depth⟩ := sofar
              cases items with
              | nil => exact .left hsettled
              | cons last items =>
                  cases last with
                  | operand e =>
                      cases e with
                      | var callee =>
                          apply (arguments_extends hr' hfront hmore tokens).read
                          intro arguments left hlt hlt' hsettled
                          exact .left hsettled
                      | _ => exact .left hsettled
                  | _ => exact .left hsettled
          | closing => exact settle_extends hr' fun hsettled => .left hsettled
      | bracket =>
          cases side with
          | opening =>
              refine settle_extends hr' fun _ => ?_
              apply (indexInside_extends hr' hfront hmore inCall tokens).read
              intro index left hlt hlt' hsettled
              exact .left hsettled
          | closing => trivial
  | _ => trivial
termination_by 6 * tokens.length + 6

theorem gather_extends (hr' : r'.Settles) (hfront : AtBreak front) (hmore : AtBreak more) (inCall : Bool)
    (sofar : Gathered) (next : Lexed) (tokens : List Lexed) :
    Persists (Parsed.Extends r front more) (r.gather inCall sofar next (tokens ++ front))
      (r'.gather inCall sofar next (tokens ++ more)) := by
  rw [gather, gather]
  apply (item_extends hr' hfront hmore inCall sofar next tokens).read
  intro sofar left hlt hlt' hsettled
  cases left with
  | nil =>
      -- The line break at the end of the tokens ends the expression, in both readings.
      cases front with
      | nil =>
          cases more with
          | nil => exact ⟨rfl, ⟨[], rfl, rfl⟩, hsettled⟩
          | cons first' more =>
              dsimp only [List.nil_append]
              rw [hmore.kind]
              exact ⟨rfl, ⟨[], rfl, rfl⟩, hsettled⟩
      | cons first front =>
          dsimp only [List.nil_append]
          rw [hfront.kind]
          cases more with
          | nil => exact ⟨rfl, ⟨[], rfl, rfl⟩, hsettled⟩
          | cons first' more =>
              dsimp only
              rw [hmore.kind]
              exact ⟨rfl, ⟨[], rfl, rfl⟩, hsettled⟩
  | cons next left =>
      dsimp only [List.cons_append]
      split
      · exact ⟨rfl, ⟨next :: left, rfl, rfl⟩, hsettled⟩
      · apply (gather_extends hr' hfront hmore inCall sofar next left).read
        intro all left hlt hlt' hsettled
        exact .left hsettled
termination_by 6 * tokens.length + 7
decreasing_by
  · omega
  · simp only [List.length_append, List.length_cons] at hlt
    omega

theorem expression_extends (hr' : r'.Settles) (hfront : AtBreak front) (hmore : AtBreak more) (inCall : Bool)
    (tokens : List Lexed) :
    Persists (Parsed.Extends r front more) (r.expression inCall (tokens ++ front))
      (r'.expression inCall (tokens ++ more)) := by
  cases tokens with
  | nil =>
      obtain ⟨e, he⟩ := exists_error_expression (r := r) hfront inCall
      rw [List.nil_append, he]
      trivial
  | cons next tokens =>
      rw [List.cons_append, List.cons_append, expression, expression]
      apply (gather_extends hr' hfront hmore inCall ⟨[], 0⟩ next tokens).read
      intro all left hlt hlt' hsettled
      dsimp only
      split
      · cases left ++ front <;> trivial
      · exact Persists.step fun e => .left hsettled
termination_by 6 * tokens.length + 2

theorem indexInside_extends (hr' : r'.Settles) (hfront : AtBreak front) (hmore : AtBreak more) (inCall : Bool)
    (tokens : List Lexed) :
    Persists (Parsed.Extends r front more) (r.indexInside inCall (tokens ++ front))
      (r'.indexInside inCall (tokens ++ more)) := by
  rw [indexInside, indexInside]
  apply (expression_extends hr' hfront hmore inCall tokens).read
  intro index left hlt hlt' _
  apply (delimiter_extends hr' hfront .bracket .closing left).read
  intro _ left hlt hlt' hsettled
  exact .left hsettled
termination_by 6 * tokens.length + 3

theorem someArguments_extends (hr' : r'.Settles) (hfront : AtBreak front) (hmore : AtBreak more)
    (tokens : List Lexed) :
    Persists (Parsed.Extends r front more) (r.someArguments (tokens ++ front))
      (r'.someArguments (tokens ++ more)) := by
  rw [someArguments, someArguments]
  apply (expression_extends hr' hfront hmore true tokens).read
  intro first left hlt hlt' _
  cases left with
  | nil =>
      -- Neither a parenthesis nor a comma stands at the end of the tokens.
      cases front with
      | nil => trivial
      | cons nl behind =>
          have hclass : ¬ nl.token.kind.class = .comma := by
            rw [hfront.kind]
            exact Token.Class.noConfusion
          have hclosing : ¬ nl.token.kind = .delimiter .parenthesis .closing := by
            rw [hfront.kind]
            exact Token.Kind.noConfusion
          dsimp only [List.nil_append]
          rw [if_neg hclosing, consume, if_neg hclass]
          trivial
  | cons next left =>
      dsimp only [List.cons_append]
      split
      · exact settle_extends hr' fun hsettled => .left hsettled
      · apply (consume_extends hr' hfront (by simp) (.token .comma) (next :: left)).read
        intro comma left hlt hlt' _
        have hothers := someArguments_extends hr' hfront hmore left
        cases left with
        | nil =>
            -- A comma at the end of the tokens is refused.
            obtain ⟨e, he⟩ := exists_error_someArguments (r := r) hfront
            cases front with
            | nil =>
                dsimp only [List.nil_append, List.head?_nil]
                rw [he]
                trivial
            | cons nl behind =>
                have hclosing : ¬ nl.token.kind = .delimiter .parenthesis .closing := by
                  rw [hfront.kind]
                  exact Token.Kind.noConfusion
                dsimp only [List.nil_append, List.head?_cons]
                rw [if_neg hclosing, he]
                trivial
        | cons after left =>
            dsimp only [List.cons_append, List.head?_cons]
            split
            · trivial
            · apply hothers.read
              intro others left hlt hlt' hsettled
              exact .left hsettled
termination_by 6 * tokens.length + 3
decreasing_by
  · omega
  · simp only [List.length_append, List.length_cons] at *
    omega

theorem arguments_extends (hr' : r'.Settles) (hfront : AtBreak front) (hmore : AtBreak more) (tokens : List Lexed) :
    Persists (Parsed.Extends r front more) (r.arguments (tokens ++ front)) (r'.arguments (tokens ++ more)) := by
  cases tokens with
  | nil =>
      obtain ⟨e, he⟩ := exists_error_someArguments (r := r) hfront
      cases front with
      | nil =>
          rw [List.nil_append, arguments, he]
          trivial
      | cons nl behind =>
          have hclosing : ¬ nl.token.kind = .delimiter .parenthesis .closing := by
            rw [hfront.kind]
            exact Token.Kind.noConfusion
          rw [List.nil_append, arguments, if_neg hclosing, he]
          trivial
  | cons next rest =>
      rw [List.cons_append, List.cons_append, arguments, arguments]
      split
      · exact settle_extends hr' fun hsettled => .left hsettled
      · exact someArguments_extends hr' hfront hmore (next :: rest)
termination_by 6 * tokens.length + 4

end

end Reading

end PolishPseudocode
