import PolishPseudocode.Proofs.Program.Rewinding
import PolishPseudocode.Proofs.Token.Rewinding

/-! Reading with a cursor that goes back comes to an end. At a line break, and at the indentation of a line, the
cursor finds the tokens that it left there. So the reading has the outcome of the one that keeps the tokens, one step
for each token is enough for it, and it takes up the statements one after the other, each one on a later line. -/

namespace PolishPseudocode

/-! ### The log among the tokens -/

/-- Of the tokens of a log, those that start a statement; the others are line breaks. -/
def heads (log : List Token) : List Token :=
  log.filter (·.kind != .newLine)

theorem heads_append (log log' : List Token) : heads (log ++ log') = heads log ++ heads log' :=
  List.filter_append log log'

theorem heads_cons {t : Token} (h : t.kind ≠ .newLine) (log : List Token) : heads (t :: log) = t :: heads log :=
  List.filter_cons_of_pos (bne_iff_ne.2 h)

theorem heads_newLine {t : Token} (h : t.kind = .newLine) (log : List Token) : heads (t :: log) = heads log :=
  List.filter_cons_of_neg (by rw [h]; exact Bool.false_ne_true)

/-- A log stands among tokens, in their order: each token of it follows a line break, with no token of the log in
between, and behind the last one the rest is left. At the line break that ends an empty line, no statement is
found. -/
inductive Started : List Lexed → List Token → List Lexed → Prop where
  | nil {tokens rest : List Lexed} (h : rest <:+ tokens) : Started tokens [] rest
  | statement {tokens line after rest : List Lexed} {nl first : Lexed} {log : List Token}
      (h : nl :: line <:+ tokens) (hnl : nl.token.kind = .newLine) (hline : first :: after <:+ line)
      (hfirst : first.token.kind ≠ .newLine) (hafter : Started after log rest) :
      Started tokens (first.token :: log) rest
  | empty {tokens after rest : List Lexed} {nl first : Lexed} {log : List Token}
      (h : nl :: first :: after <:+ tokens) (hfirst : first.token.kind = .newLine)
      (hafter : Started (first :: after) log rest) : Started tokens (first.token :: log) rest

namespace Started

variable {tokens tokens' middle rest : List Lexed} {log log' : List Token}

theorem mono (h : Started tokens log rest) (htokens : tokens <:+ tokens') : Started tokens' log rest := by
  cases h with
  | nil h => exact .nil (h.trans htokens)
  | statement h hnl hline hfirst hafter => exact .statement (h.trans htokens) hnl hline hfirst hafter
  | empty h hfirst hafter => exact .empty (h.trans htokens) hfirst hafter

theorem append (h : Started tokens log middle) (h' : Started middle log' rest) :
    Started tokens (log ++ log') rest := by
  induction h with
  | nil h => exact h'.mono h
  | statement h hnl hline hfirst hafter ih => exact .statement h hnl hline hfirst (ih h')
  | empty h hfirst hafter ih => exact .empty h hfirst (ih h')

theorem suffix (h : Started tokens log rest) : rest <:+ tokens := by
  induction h with
  | nil h => exact h
  | @statement tokens line after rest nl first log h hnl hline hfirst hafter ih =>
      have hafter : after <:+ tokens :=
        (((List.suffix_cons first after).trans hline).trans (List.suffix_cons nl line)).trans h
      exact ih.trans hafter
  | @empty tokens after rest nl first log h hfirst hafter ih => exact (ih.trans (List.suffix_cons nl _)).trans h

/-- The tokens of a log are some of the tokens behind the first one. -/
theorem sublist (h : Started tokens log rest) : log.Sublist (tokens.tail.map Lexed.token) := by
  induction h with
  | nil h => exact List.nil_sublist _
  | @statement tokens line after rest nl first log h hnl hline hfirst hafter ih =>
      have hsuffix : first :: after <:+ tokens.tail := hline.trans (suffix_tail h)
      exact ((ih.trans ((List.tail_sublist after).map Lexed.token)).cons_cons first.token).trans
        (hsuffix.sublist.map Lexed.token)
  | @empty tokens after rest nl first log h hfirst hafter ih =>
      exact (ih.cons_cons first.token).trans ((suffix_tail h).sublist.map Lexed.token)
where
  suffix_tail {nl : Lexed} {line tokens : List Lexed} (h : nl :: line <:+ tokens) : line <:+ tokens.tail := by
    obtain ⟨before, rfl⟩ := h
    cases before with
    | nil => exact List.suffix_refl line
    | cons t before => exact (List.suffix_cons nl line).trans (List.suffix_append before _)

/-- Nothing before a line break is on the line that it starts, nor on a later one. The text is taken to follow a line
break. -/
theorem line_lt_of_split {source : Source} (hclean : startsClean source.lines = true) {nl nl' : Lexed}
    {before line : List Lexed} (hnl : nl'.token.kind = .newLine)
    (hsplit : nl :: (Stream.ofSource source).tokens = before ++ nl' :: line) :
    ∀ t ∈ before.tail, ∀ t' ∈ nl' :: line, t.token.position.line < t'.token.position.line := by
  cases before with
  | nil => exact fun t ht => absurd ht List.not_mem_nil
  | cons first before =>
      obtain ⟨hbefore, hline⟩ := Stream.line_of_newLine hclean (List.cons.inj hsplit).2 hnl
      intro t ht t' ht'
      rcases List.mem_cons.1 ht' with rfl | ht'
      · exact hbefore t ht
      · exact Nat.lt_of_lt_of_le (hbefore t ht) (hline t' ht')

/-- In a text that starts clean, the statements of a log are on lines that follow each other. -/
theorem pairwise {source : Source} (hclean : startsClean source.lines = true) {nl : Lexed} {before : List Lexed}
    (h : Started tokens log rest) (hsplit : nl :: (Stream.ofSource source).tokens = before ++ tokens) :
    (∀ t ∈ before.tail, ∀ t' ∈ log, t.token.position.line < t'.position.line)
      ∧ (heads log).Pairwise fun t t' => t.position.line < t'.position.line := by
  induction h generalizing before with
  | nil h => exact ⟨fun t ht t' ht' => absurd ht' List.not_mem_nil, .nil⟩
  | @statement tokens line after rest nl' first log h hnl hline hfirst hafter ih =>
      obtain ⟨middle, rfl⟩ := h
      obtain ⟨indents, rfl⟩ := hline
      have hhere : nl :: (Stream.ofSource source).tokens
          = (before ++ middle) ++ nl' :: (indents ++ first :: after) := by
        rw [hsplit, List.append_assoc]
      have hthere : nl :: (Stream.ofSource source).tokens
          = ((before ++ middle) ++ nl' :: (indents ++ [first])) ++ after := by
        rw [hhere]
        simp
      have hbefore := line_lt_of_split hclean hnl hhere
      obtain ⟨hlater, hpairwise⟩ := ih hthere
      constructor
      · intro t ht t' ht'
        rcases List.mem_cons.1 ht' with rfl | ht'
        · exact hbefore t (mem_tail_append ht) first (by simp)
        · exact hlater t (mem_tail_append (mem_tail_append ht)) t' ht'
      · have hfront : first ∈ ((before ++ middle) ++ nl' :: (indents ++ [first])).tail := by
          cases before ++ middle <;> simp
        rw [heads_cons hfirst]
        exact .cons (fun t ht => hlater first hfront t (List.mem_filter.1 ht).1) hpairwise
  | @empty tokens after rest nl' first log h hfirst hafter ih =>
      obtain ⟨middle, rfl⟩ := h
      have hthere : nl :: (Stream.ofSource source).tokens = (before ++ (middle ++ [nl'])) ++ first :: after := by
        rw [hsplit]
        simp
      have hbefore := line_lt_of_split hclean hfirst hthere
      obtain ⟨hlater, hpairwise⟩ := ih hthere
      constructor
      · intro t ht t' ht'
        rcases List.mem_cons.1 ht' with rfl | ht'
        · exact hbefore t (mem_tail_append ht) first List.mem_cons_self
        · exact hlater t (mem_tail_append ht) t' ht'
      · rw [heads_newLine hfirst]
        exact hpairwise

end Started

/-! ### The same outcome -/

/-- A reading that goes back follows one that does not: it has enough steps and the same outcome, its log stands among
the tokens, and with the statements `taken` before it, the log tells what `starts` says of the value. -/
inductive Traced.Follows {α : Type} (ending : Ending) (tokens : List Lexed) (taken : List Token)
    (starts : α → List Token) : Traced (α × Stream) → Except SyntaxError (α × List Lexed) → Prop where
  | ok {log : List Token} {a : α} {rest : List Lexed} (hstarted : Started tokens log rest)
      (hlog : taken ++ heads log = starts a) :
      Follows ending tokens taken starts ⟨log, some (.ok (a, ⟨rest, ending⟩))⟩ (.ok (a, rest))
  | error {log : List Token} {e : SyntaxError} {rest : List Lexed} (hstarted : Started tokens log rest) :
      Follows ending tokens taken starts ⟨log, some (.error e)⟩ (.error e)

namespace Traced.Follows

variable {α β : Type} {ending : Ending} {tokens tokens' rest : List Lexed} {taken : List Token}
  {starts : α → List Token} {starts' : β → List Token}

theorem bind {run : Traced (α × Stream)} {outcome : Except SyntaxError (α × List Lexed)}
    {next : α × Stream → Traced (β × Stream)} {next' : α × List Lexed → Except SyntaxError (β × List Lexed)}
    (h : Follows ending tokens taken starts run outcome)
    (hnext : ∀ a rest, outcome = .ok (a, rest) → rest <:+ tokens →
      Follows ending rest (starts a) starts' (next (a, ⟨rest, ending⟩)) (next' (a, rest))) :
    Follows ending tokens taken starts' (run >>= next) (outcome >>= next') := by
  cases h with
  | error hstarted => exact .error hstarted
  | @ok log a rest hstarted hlog =>
      have hfollows := hnext a rest rfl hstarted.suffix
      change Follows ending tokens taken starts'
        ⟨log ++ (next (a, ⟨rest, ending⟩)).log, (next (a, ⟨rest, ending⟩)).outcome⟩ (next' (a, rest))
      generalize next (a, ⟨rest, ending⟩) = run' at hfollows
      generalize next' (a, rest) = outcome' at hfollows
      cases hfollows with
      | error hstarted' => exact .error (hstarted.append hstarted')
      | ok hstarted' hlog' =>
          refine .ok (hstarted.append hstarted') ?_
          rw [heads_append, ← List.append_assoc, hlog, hlog']

/-- A step that takes up no statement. -/
theorem lift {outcome : Except SyntaxError α} {next : α → Traced (β × Stream)}
    {next' : α → Except SyntaxError (β × List Lexed)}
    (hnext : ∀ a, outcome = .ok a → Follows ending tokens taken starts' (next a) (next' a)) :
    Follows ending tokens taken starts' (Traced.lift outcome >>= next) (outcome >>= next') := by
  cases outcome with
  | error e => exact .error (.nil (List.suffix_refl tokens))
  | ok a => exact hnext a rfl

theorem pure {b : β} (hrest : rest <:+ tokens) (h : taken = starts' b) :
    Follows ending tokens taken starts' (Pure.pure (b, ⟨rest, ending⟩)) (.ok (b, rest)) :=
  .ok (.nil hrest) ((List.append_nil taken).trans h)

theorem fail {e : SyntaxError} :
    Follows ending tokens taken starts' (Traced.lift (.error e)) (.error e) :=
  .error (.nil (List.suffix_refl tokens))

theorem mono {run : Traced (α × Stream)} {outcome : Except SyntaxError (α × List Lexed)}
    (h : Follows ending tokens taken starts run outcome) (htokens : tokens <:+ tokens') :
    Follows ending tokens' taken starts run outcome := by
  cases h with
  | error hstarted => exact .error (hstarted.mono htokens)
  | ok hstarted hlog => exact .ok (hstarted.mono htokens) hlog

/-- A statement is taken up behind a line break. -/
theorem mark {line after : List Lexed} {nl first : Lexed} (hnl : nl.token.kind = .newLine)
    (hline : first :: after <:+ line) (hfirst : first.token.kind ≠ .newLine) {next : Traced (α × Stream)}
    {outcome : Except SyntaxError (α × List Lexed)}
    (h : Follows ending after (taken ++ [first.token]) starts next outcome) :
    Follows ending (nl :: line) taken starts (Traced.mark first.token >>= fun _ => next) outcome := by
  cases h with
  | error hstarted => exact .error (.statement (List.suffix_refl _) hnl hline hfirst hstarted)
  | ok hstarted hlog =>
      refine .ok (.statement (List.suffix_refl _) hnl hline hfirst hstarted) ?_
      change taken ++ heads (first.token :: _) = _
      rw [heads_cons hfirst, ← hlog, List.append_assoc]
      rfl

/-- In an empty line there is no statement. -/
theorem pass {after : List Lexed} {nl first : Lexed} (hfirst : first.token.kind = .newLine)
    {next : Traced (α × Stream)} {outcome : Except SyntaxError (α × List Lexed)}
    (h : Follows ending (first :: after) taken starts next outcome) :
    Follows ending (nl :: first :: after) taken starts (Traced.mark first.token >>= fun _ => next) outcome := by
  cases h with
  | error hstarted => exact .error (.empty (List.suffix_refl _) hfirst hstarted)
  | ok hstarted hlog =>
      refine .ok (.empty (List.suffix_refl _) hfirst hstarted) ?_
      change taken ++ heads (first.token :: _) = _
      rw [heads_newLine hfirst, ← hlog]
      rfl

/-- The log and the outcome, without the tokens that are left. -/
theorem exists_log {run : Traced (α × Stream)} {outcome : Except SyntaxError α}
    (h : Follows ending tokens taken starts run (outcome.map fun a => (a, rest))) :
    ∃ log left, Started tokens log left ∧ (run >>= fun p => Pure.pure p.1) = ⟨log, some outcome⟩
      ∧ ∀ a, outcome = .ok a → taken ++ heads log = starts a := by
  cases outcome with
  | error e =>
      cases h with
      | @error log e left hstarted => exact ⟨log, left, hstarted, rfl, fun a ha => by cases ha⟩
  | ok a =>
      cases h with
      | @ok log a rest hstarted hlog =>
          refine ⟨log, rest, hstarted, ?_, fun a ha => Except.ok.inj ha ▸ hlog⟩
          exact congrArg (fun log => (⟨log, some (.ok a)⟩ : Traced α)) (List.append_nil log)

end Traced.Follows

namespace Rewinding

variable {source : Source}

/-- How the tokens of a source are read on. -/
def reading (source : Source) : Reading :=
  (Stream.ofSource source).reading source

/-- At a line break of the text the cursor finds again what was there. -/
theorem back_newLine (hclean : startsClean source.lines = true) {before after : List Lexed} {nl next : Lexed}
    (h : (Stream.ofSource source).tokens = before ++ nl :: after) (hnl : nl.token.kind = .newLine)
    (hnext : next.after.afterIndentation = false) :
    back source next nl.token.position true = .ok ⟨nl :: after, (Stream.ofSource source).ending⟩ := by
  rw [back, Stream.ofCursor_moveTo_newLine hclean h hnl hnext]
  rfl

/-- At the indentation of a line the cursor finds again what is behind it. -/
theorem back_indentation {nl indent first : Lexed} {indents after : List Lexed}
    (h : nl :: indent :: (indents ++ first :: after) <:+ (Stream.ofSource source).tokens)
    (hnl : nl.token.kind = .newLine) (hindents : ∀ t ∈ indent :: indents, t.token.kind = .indentation)
    (hbreak : first.token.kind ≠ .newLine) (hfirst : first.token.kind ≠ .indentation) :
    back source first indent.token.position false = .ok ⟨first :: after, (Stream.ofSource source).ending⟩ := by
  obtain ⟨before, hbefore⟩ := h
  have hlayout : first.token.kind.isLayout = false := by
    cases hkind : first.token.kind with
    | newLine => exact absurd hkind hbreak
    | indentation => exact absurd hkind hfirst
    | _ => rfl
  rw [back, Stream.ofCursor_moveTo_indentation hbefore.symm hnl hindents hlayout]
  rfl

/-- A block is left where it ends when the tokens are kept. -/
theorem leave_eq (hclean : startsClean source.lines = true) {nl next : Lexed} {tokens rest : List Lexed}
    (htokens : nl :: tokens <:+ (Stream.ofSource source).tokens) (hnl : nl.token.kind = .newLine)
    (hrest : next :: rest <:+ (Stream.ofSource source).tokens) (hnext : next.token.kind ≠ .indentation)
    (level depth : Nat) :
    leave source level depth nl.token.position ⟨next :: rest, (Stream.ofSource source).ending⟩
      = .ok ⟨Reading.stop level depth (nl :: tokens) next rest, (Stream.ofSource source).ending⟩ := by
  obtain ⟨before, hbefore⟩ := htokens
  obtain ⟨before', hbefore'⟩ := hrest
  rw [leave, Reading.stop]
  dsimp only
  split
  · rfl
  · exact back_newLine hclean hbefore.symm hnl (Stream.afterIndentation_of_kind hclean hbefore'.symm hnext)

theorem stop_suffix (level depth : Nat) {nl next : Lexed} {tokens rest : List Lexed}
    (h : next :: rest <:+ nl :: tokens) : Reading.stop level depth (nl :: tokens) next rest <:+ nl :: tokens := by
  rw [Reading.stop]
  split
  · exact h
  · exact List.suffix_refl _

/-- So many steps are enough for a statement before so many tokens. -/
def StatementFollows (source : Source) (steps : Nat) : Prop :=
  ∀ {nl next : Lexed} (indents : List Lexed) {behind : List Lexed} (taken : List Token) (level : Nat)
      (inFunction : Bool),
    nl.token.kind = .newLine → next.token.kind ≠ .newLine → behind <:+ (Stream.ofSource source).tokens →
    behind.length < steps →
      Traced.Follows (Stream.ofSource source).ending (nl :: (indents ++ next :: behind)) taken
        (fun s => taken ++ Statement.starts level [s])
        (statement source steps level inFunction next ⟨behind, (Stream.ofSource source).ending⟩)
        ((reading source).nextStatement level inFunction next behind)

def BlockFollows (source : Source) (steps : Nat) : Prop :=
  ∀ {tokens : List Lexed} (taken : List Token) (level : Nat) (inFunction : Bool),
    tokens <:+ (Stream.ofSource source).tokens → tokens.length < steps →
      Traced.Follows (Stream.ofSource source).ending tokens taken (fun b => taken ++ Statement.starts level b)
        (block source steps level inFunction ⟨tokens, (Stream.ofSource source).ending⟩)
        ((reading source).nextBlock level inFunction tokens)

def BodyFollows (source : Source) (steps : Nat) : Prop :=
  ∀ {nl : Lexed} {tokens : List Lexed} (taken : List Token) (level : Nat) (inFunction : Bool),
    nl.token.kind = .newLine → nl :: tokens <:+ (Stream.ofSource source).tokens → tokens.length < steps →
      Traced.Follows (Stream.ofSource source).ending (nl :: tokens) taken (fun b => taken ++ Statement.starts level b)
        (body source steps level inFunction nl.token.position ⟨tokens, (Stream.ofSource source).ending⟩)
        ((reading source).body level inFunction nl tokens)

/-- So many steps are enough for the other lines of a block, behind one of them, in so many tokens. -/
def OnwardFollows (source : Source) (steps : Nat) : Prop :=
  ∀ {tokens : List Lexed} (taken : List Token) (level : Nat) (inFunction : Bool) (place : Position),
    tokens <:+ (Stream.ofSource source).tokens → tokens.length < steps →
      Traced.Follows (Stream.ofSource source).ending tokens taken (fun b => taken ++ Statement.starts level b)
        (onward source steps level inFunction place ⟨tokens, (Stream.ofSource source).ending⟩)
        ((reading source).onward level inFunction tokens)

theorem starts_branch (depth : Nat) (condition : Expr) (body : Block) (other : Option Block) (place : Position) :
    Statement.starts depth [.branch condition body other place]
      = ⟨.keyword .if_, place⟩
        :: (Statement.starts (depth + 1) body ++ (other.map (Statement.starts (depth + 1))).getD []) := by
  rw [Statement.starts_singleton]
  cases other with
  | none =>
      rw [Statement.nested]
      exact congrArg (List.cons _) (List.append_nil _).symm
  | some other =>
      rw [Statement.nested, List.map_append]
      rfl

variable {steps : Nat}

/-- The blocks of a statement follow its first line. -/
theorem statementFollows_succ (hblock : BlockFollows source steps) : StatementFollows source (steps + 1) := by
  intro nl next indents behind taken level inFunction hnl hnext hbehind hsteps
  rw [Reading.nextStatement_eq_closing, statement]
  refine .mark hnl (List.suffix_append indents _) hnext ?_
  refine .lift fun p hp => ?_
  have hopened := (Reading.opening_opened (reading source) inFunction level next behind).of_eq_ok hp
  obtain ⟨head, rest⟩ := p
  cases head with
  | whole s =>
      obtain ⟨hstarts, hrest⟩ := hopened
      refine .pure hrest ?_
      rw [hstarts]
  | above inFunction' close =>
      obtain ⟨hstarts, hrest, hlt⟩ := hopened
      refine ((hblock _ (level + 1) inFunction' (hrest.trans hbehind) (by omega)).mono hrest).bind ?_
      intro body rest' _ hrest'
      refine .pure (List.suffix_refl rest') ?_
      rw [hstarts, List.append_assoc]
      rfl
  | branch condition place =>
      obtain ⟨hstarts, hrest, hlt⟩ := hopened
      refine ((hblock _ (level + 1) inFunction (hrest.trans hbehind) (by omega)).mono hrest).bind ?_
      intro body rest' _ hrest'
      cases rest' with
      | nil =>
          refine .pure (List.suffix_refl []) ?_
          rw [starts_branch, hstarts, List.append_assoc]
          exact congrArg (fun log => taken ++ (_ :: log)) (List.append_nil _).symm
      | cons word rest' =>
          have hshorter : rest'.length < steps := by
            have := hrest'.length_le
            rw [List.length_cons] at this
            omega
          have hsuffix : rest' <:+ behind := (List.suffix_cons word rest').trans hrest'
          dsimp only
          rw [Reading.otherwise]
          by_cases helse : word.isElse = true
          · rw [if_pos helse, if_pos helse, bind_assoc]
            refine .lift fun _ _ => ?_
            rw [bind_assoc]
            refine ((hblock _ (level + 1) inFunction (hsuffix.trans hbehind) hshorter).mono
              (List.suffix_cons word rest')).bind ?_
            intro other rest'' _ _
            refine .pure (List.suffix_refl rest'') ?_
            rw [starts_branch, hstarts, List.append_assoc, List.append_assoc]
            rfl
          · rw [if_neg helse, if_neg helse]
            refine .pure (List.suffix_refl _) ?_
            rw [starts_branch, hstarts, List.append_assoc]
            exact congrArg (fun log => taken ++ (_ :: log)) (List.append_nil _).symm

theorem of_consume_newLine {r : Reading} {nl : Lexed} {behind : List Lexed}
    {p : Parsed Token (nl :: behind).length} (h : r.consume .newLine (.token .newLine) (nl :: behind) = .ok p) :
    nl.token.kind = .newLine ∧ p.rest = behind := by
  obtain ⟨nl', hsplit, -, hclass⟩ := (Reading.consume_takes .newLine (.token .newLine)).of_eq_ok h
  obtain ⟨rfl, hrest⟩ := List.cons.inj hsplit
  exact ⟨Reading.kind_of_class_newLine hclass, hrest.symm⟩

theorem blockFollows_succ (hbody : BodyFollows source steps) : BlockFollows source (steps + 1) := by
  intro tokens taken level inFunction htokens hsteps
  rw [block]
  cases tokens with
  | nil =>
      rw [Reading.nextBlock_nil]
      exact .fail
  | cons first following =>
      have hshorter : following.length < steps := Nat.lt_of_succ_lt_succ hsteps
      rw [Reading.nextBlock_cons]
      refine .lift fun p hp => ?_
      obtain ⟨hkind, hrest⟩ := of_consume_newLine hp
      obtain ⟨token, rest, hlt⟩ := p
      dsimp only at hrest
      subst hrest
      refine (hbody taken level inFunction hkind htokens hshorter).bind ?_
      intro found rest _ _
      dsimp only
      split
      · exact .fail
      · exact .pure (List.suffix_refl rest) rfl

theorem onwardFollows_succ (hbody : BodyFollows source steps) : OnwardFollows source (steps + 1) := by
  intro tokens taken level inFunction place htokens hsteps
  have hnil : taken = taken ++ Statement.starts level [] := (List.append_nil taken).symm
  rw [onward]
  cases tokens with
  | nil => exact .pure (List.suffix_refl []) hnil
  | cons nl behind =>
      have hshorter : behind.length < steps := Nat.lt_of_succ_lt_succ hsteps
      rw [Reading.onward]
      dsimp only
      by_cases helse : nl.isElse = true
      · have hleave : leave source level level place ⟨nl :: behind, (Stream.ofSource source).ending⟩
            = .ok ⟨nl :: behind, (Stream.ofSource source).ending⟩ := by
          rw [leave]
          dsimp only
          rw [helse, decide_eq_true (Nat.le_succ level)]
          rfl
        rw [if_pos helse, if_pos helse, hleave]
        exact .pure (List.suffix_refl _) hnil
      · rw [if_neg helse, if_neg helse]
        refine .lift fun p hp => ?_
        obtain ⟨hkind, hrest⟩ := of_consume_newLine hp
        rw [hrest]
        exact hbody taken level inFunction hkind htokens hshorter

/-- The lines of a block are left where they end when the tokens are kept. -/
theorem bodyFollows_succ (hclean : startsClean source.lines = true) (hstatement : StatementFollows source steps)
    (honward : OnwardFollows source steps) (hbody : BodyFollows source steps) : BodyFollows source (steps + 1) := by
  intro nl tokens taken level inFunction hnl htokens hsteps
  have hnil : taken = taken ++ Statement.starts level [] := (List.append_nil taken).symm
  rw [body]
  cases tokens with
  | nil =>
      rw [Reading.body_nil]
      exact .pure List.nil_suffix hnil
  | cons next following =>
      dsimp only
      by_cases hindent : next.isIndentation = true
      · rw [Reading.body_of_isIndentation _ _ _ _ hindent, if_pos hindent]
        refine .lift fun _ _ => ?_
        have hsplit := List.takeWhile_append_dropWhile (p := Lexed.isIndentation) (l := following)
        have hindents : ∀ t ∈ next :: following.takeWhile Lexed.isIndentation, t.token.kind = .indentation := by
          intro t ht
          rcases List.mem_cons.1 ht with rfl | ht
          · exact eq_of_beq hindent
          · have hindentation : t.isIndentation = true := List.mem_takeWhile_imp ht
            exact eq_of_beq hindentation
        generalize following.takeWhile Lexed.isIndentation = indents at hsplit hindents
        cases hrest : following.dropWhile Lexed.isIndentation with
        | nil => exact .pure List.nil_suffix hnil
        | cons first after =>
            have hfirst : first.token.kind ≠ .indentation := by
              have hhead := List.head?_dropWhile_not Lexed.isIndentation following
              rw [hrest] at hhead
              exact fun hkind => absurd (beq_iff_eq.2 hkind) (Bool.eq_false_iff.1 hhead)
            rw [hrest] at hsplit
            subst hsplit
            have hafter : first :: after <:+ nl :: next :: (indents ++ first :: after) :=
              (List.suffix_append (nl :: next :: indents) (first :: after))
            rw [Reading.line]
            dsimp only
            by_cases hbreak : first.token.kind = .newLine
            · rw [if_pos hbreak, if_pos hbreak]
              refine .lift fun _ _ => ?_
              exact (hbody taken level inFunction hbreak (hafter.trans htokens) (by simp at hsteps; omega)).mono hafter
            · rw [if_neg hbreak, if_neg hbreak]
              by_cases hdepth : (next :: indents).length < level
              · rw [if_pos hdepth, if_pos hdepth, back_indentation htokens hnl hindents hbreak hfirst]
                change Traced.Follows _ _ _ _ (Traced.lift (leave source level _ _ _) >>= _) _
                rw [leave_eq hclean htokens hnl (hafter.trans htokens) hfirst]
                exact .pure (stop_suffix level _ hafter) hnil
              · rw [if_neg hdepth, if_neg hdepth]
                cases (next :: indents)[level]? with
                | some extra => exact .fail
                | none =>
                    have hlength : after.length < steps := by simp at hsteps; omega
                    refine (hstatement (next :: indents) taken level inFunction hnl hbreak
                      (((List.suffix_cons first after).trans hafter).trans htokens) hlength).bind ?_
                    intro s rest hs hrest
                    have hleft : rest.length ≤ after.length := (Reading.suffix_of_nextStatement hs).length_le
                    refine (honward _ level inFunction nl.token.position (hrest.trans htokens) (by omega)).bind ?_
                    intro others rest' _ _
                    refine .pure (List.suffix_refl rest') ?_
                    exact (List.append_assoc _ _ _).trans
                      (congrArg (taken ++ ·) (Statement.starts_cons level s others).symm)
      · rw [Reading.body_of_not_isIndentation _ _ _ _ (Bool.eq_false_iff.2 hindent), if_neg hindent,
          leave_eq hclean htokens hnl ((List.suffix_cons nl _).trans htokens)
            (fun hkind => hindent (beq_iff_eq.2 hkind))]
        exact .pure (stop_suffix level 0 (List.suffix_cons nl _)) hnil

/-- As many steps as there are tokens, and one more, are enough for every part of a program. -/
theorem follows (hclean : startsClean source.lines = true) (steps : Nat) :
    StatementFollows source steps ∧ BlockFollows source steps ∧ BodyFollows source steps
      ∧ OnwardFollows source steps := by
  induction steps with
  | zero =>
      refine ⟨?_, ?_, ?_, ?_⟩
      · intro nl next indents behind taken level inFunction _ _ _ hsteps
        exact absurd hsteps (Nat.not_lt_zero _)
      · intro tokens taken level inFunction _ hsteps
        exact absurd hsteps (Nat.not_lt_zero _)
      · intro nl tokens taken level inFunction _ _ hsteps
        exact absurd hsteps (Nat.not_lt_zero _)
      · intro tokens taken level inFunction place _ hsteps
        exact absurd hsteps (Nat.not_lt_zero _)
  | succ steps ih =>
      obtain ⟨hstatement, hblock, hbody, honward⟩ := ih
      exact ⟨statementFollows_succ hblock, blockFollows_succ hbody, bodyFollows_succ hclean hstatement honward hbody,
        onwardFollows_succ hbody⟩

/-- The statements of a text, which is taken to follow a line break. -/
theorem statements_follows (hclean : startsClean source.lines = true) {nl : Lexed} (hnl : nl.token.kind = .newLine)
    {tokens : List Lexed} (taken : List Token) (htokens : tokens <:+ (Stream.ofSource source).tokens)
    (hsteps : tokens.length < steps) :
    Traced.Follows (Stream.ofSource source).ending (nl :: tokens) taken (fun b => taken ++ Statement.starts 0 b)
      (statements source steps ⟨tokens, (Stream.ofSource source).ending⟩)
      (((reading source).statements tokens).map fun program => (program, [])) := by
  induction steps generalizing nl tokens taken with
  | zero => exact absurd hsteps (Nat.not_lt_zero _)
  | succ steps ih =>
      obtain ⟨hstatement, -⟩ := follows hclean steps
      rw [statements]
      cases tokens with
      | nil =>
          rw [Reading.statements]
          exact .pure List.nil_suffix (List.append_nil taken).symm
      | cons next rest =>
          have hrest : rest <:+ (Stream.ofSource source).tokens := (List.suffix_cons next rest).trans htokens
          have hshorter : rest.length < steps := Nat.lt_of_succ_lt_succ hsteps
          dsimp only
          by_cases hbreak : next.token.kind = .newLine
          · rw [if_pos hbreak, Reading.statements_newLine _ hbreak, Reading.map_bind]
            refine .pass hbreak ?_
            exact .lift fun _ _ => ih hbreak taken hrest hshorter
          · rw [if_neg hbreak, Reading.statements_cons _ hbreak, Reading.map_bind]
            refine (hstatement [] taken 0 false hnl hbreak hrest hshorter).bind ?_
            intro s rest' hs hrest'
            have hleft : rest' <:+ rest := Reading.suffix_of_nextStatement hs
            have hlength := hleft.length_le
            cases rest' with
            | nil => exact .pure List.nil_suffix rfl
            | cons nl' behind =>
                dsimp only
                rw [Reading.further, Reading.map_bind, bind_assoc]
                refine .lift fun p hp => ?_
                obtain ⟨hkind, hbehind⟩ := of_consume_newLine hp
                obtain ⟨token, behind', hlt⟩ := p
                dsimp only at hbehind
                subst hbehind
                have hshort : behind'.length < steps := by
                  rw [List.length_cons] at hlength
                  omega
                have hfollows := ih hkind (taken ++ Statement.starts 0 [s])
                  (((List.suffix_cons nl' _).trans hleft).trans hrest) hshort
                have hothers : Traced.Follows (Stream.ofSource source).ending (nl' :: behind')
                    (taken ++ Statement.starts 0 [s]) (fun b => taken ++ Statement.starts 0 b)
                    (statements source steps ⟨behind', (Stream.ofSource source).ending⟩
                      >>= fun p => Pure.pure (s :: p.1, p.2))
                    (((reading source).statements behind').map (fun program => (program, []))
                      >>= fun p => .ok (s :: p.1, p.2)) := by
                  refine hfollows.bind fun others rest'' _ _ => .pure (List.suffix_refl rest'') ?_
                  exact (List.append_assoc _ _ _).trans
                    (congrArg (taken ++ ·) (Statement.starts_cons 0 s others).symm)
                rw [Reading.bind_map] at hothers
                exact hothers

/-- A text that starts clean is read to the end, and the log stands among its tokens. -/
theorem program_of_startsClean (hclean : startsClean source.lines = true) (nl : Lexed) (hnl : nl.token.kind = .newLine)
    (hsteps : (Stream.ofSource source).tokens.length < steps) :
    ∃ log rest, Started (nl :: (Stream.ofSource source).tokens) log rest
      ∧ program source steps = ⟨log, some (Program.ofSource source)⟩
      ∧ ∀ p, Program.ofSource source = .ok p → heads log = Statement.starts 0 p := by
  have hfollows := statements_follows hclean hnl [] (List.suffix_refl _) hsteps
  have hprogram : Program.ofSource source
      = (reading source).settle (Stream.ofSource source).tokens
        >>= fun _ => (reading source).statements (Stream.ofSource source).tokens := rfl
  have hrun : program source steps
      = Traced.lift ((reading source).settle (Stream.ofSource source).tokens)
        >>= fun _ => statements source steps (Stream.ofSource source) >>= fun p => Pure.pure p.1 := rfl
  rw [hprogram, hrun]
  cases (reading source).settle (Stream.ofSource source).tokens with
  | error e => exact ⟨[], _, .nil (List.suffix_refl _), rfl, fun p hp => by cases hp⟩
  | ok _ =>
      exact hfollows.exists_log

/-- A text that starts with an indentation is refused there. -/
theorem program_of_indentation {t : Lexed} {rest : List Lexed} (h : (Stream.ofSource source).tokens = t :: rest)
    (ht : t.token.kind = .indentation) (steps : Nat) :
    program source (steps + 2) = ⟨[t.token], some (.error ⟨.strayIndentation, t.token.position⟩)⟩
      ∧ Program.ofSource source = .error ⟨.strayIndentation, t.token.position⟩ := by
  have hbreak : ¬ t.token.kind = .newLine := by
    rw [ht]
    exact Token.Kind.noConfusion
  constructor
  · rw [program, statements, h]
    dsimp only
    rw [if_neg hbreak, statement, Reading.opening, ht]
    rfl
  · rw [Program.ofSource, h, Reading.statements_cons _ hbreak, Reading.nextStatement_eq, ht]
    rfl

end Rewinding

/-- Reading with a cursor that goes back ends on every text, with the outcome of the reading that keeps the tokens.
The tokens at which it looks for a statement follow each other in the text. Those at which there is one are on lines
further and further down, whether the text is a program or not, and of a program they are the first tokens of its
statements, in all blocks. -/
theorem ofText_eq_rewinding (text : String) (more : Nat) :
    let tokens := (Stream.ofSource (Source.ofText text)).tokens
    let run := Rewinding.program (Source.ofText text) (tokens.length + 1 + more)
    run.outcome = some (Program.ofText text)
      ∧ run.log.Sublist (tokens.map Lexed.token)
      ∧ (heads run.log).Pairwise (fun t t' => t.position.line < t'.position.line)
      ∧ ∀ program, Program.ofText text = .ok program →
        heads run.log = (Statement.listing 0 program).map fun entry => entry.2.firstToken := by
  intro tokens run
  by_cases hhead : ∀ t ∈ tokens.head?, t.token.kind ≠ .indentation
  · have hclean := Stream.startsClean_of_head hhead
    have hsteps : tokens.length < tokens.length + 1 + more := by omega
    obtain ⟨log, rest, hstarted, hrun, hstarts⟩ :=
      Rewinding.program_of_startsClean hclean ⟨⟨.newLine, ⟨0, 0⟩⟩, .start⟩ rfl hsteps
    rw [show run = _ from hrun]
    exact ⟨rfl, hstarted.sublist, (hstarted.pairwise hclean (List.nil_append _).symm).2, hstarts⟩
  · simp only [not_forall, not_not] at hhead
    obtain ⟨t, ht, hkind⟩ := hhead
    obtain ⟨rest, htokens⟩ := List.head?_eq_some_iff.1 ht
    have hsteps : tokens.length + 1 + more = rest.length + more + 2 := by
      rw [htokens, List.length_cons]
      omega
    obtain ⟨hrun, hprogram⟩ := Rewinding.program_of_indentation htokens hkind (rest.length + more)
    rw [← hsteps] at hrun
    rw [show run = _ from hrun, Program.ofText, hprogram, htokens]
    exact ⟨rfl, List.singleton_sublist.2 List.mem_cons_self, (List.pairwise_singleton _ _).sublist List.filter_sublist,
      fun program h => by cases h⟩

/-- Two blocks that end in one line: the cursor goes back twice. Behind the comment there is an empty line, and no
statement is found at the line break that ends it. -/
theorem ofText_eq_rewinding_nested :
    let text := "jeżeli a to\n    dopóki b wykonuj\n        wypisz 1\n\n  # c\nwypisz 2"
    let run := Rewinding.program (Source.ofText text) ((Stream.ofSource (Source.ofText text)).tokens.length + 1 + 0)
    ∃ program, Program.ofText text = .ok program
      ∧ run.log.map Token.position = [⟨0, 0⟩, ⟨1, 4⟩, ⟨2, 8⟩, ⟨5, 0⟩, ⟨5, 0⟩]
      ∧ heads run.log = (Statement.listing 0 program).map fun entry => entry.2.firstToken := by
  intro text run
  have hlog : run.log.map Token.position = [⟨0, 0⟩, ⟨1, 4⟩, ⟨2, 8⟩, ⟨5, 0⟩, ⟨5, 0⟩] := by
    decide +kernel
  have hok : (Program.ofText text).isOk = true := by
    decide +kernel
  cases h : Program.ofText text with
  | error e =>
      rw [h] at hok
      cases hok
  | ok program => exact ⟨program, rfl, hlog, (ofText_eq_rewinding text 0).2.2.2 program h⟩

end PolishPseudocode
