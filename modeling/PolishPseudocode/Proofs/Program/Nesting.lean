import PolishPseudocode.Proofs.Expr.Remainder
import PolishPseudocode.Proofs.Token.Layout

/-! The nesting of statements and the indentation of their lines. The statements of a program are listed in
the order of the text, each with the number of blocks around it. Every one of them is the head of a line of
its own, which is indented as deep as the statement is nested, and later statements are on later lines. -/

namespace PolishPseudocode

/-! ### Statements in the order of the text -/

def Target.name : Target → Name
  | var name => name
  | element name _ => name

namespace Statement

/-- The first token of a statement: the name that it assigns to or calls, or its keyword. -/
def firstToken : Statement → Token
  | assign target _ => ⟨.identifier target.name.name, target.name.position⟩
  | call callee _ _ => ⟨.identifier callee.name, callee.position⟩
  | whileLoop _ _ p => ⟨.keyword .while_, p⟩
  | forLoop _ _ _ _ _ p => ⟨.keyword .for_, p⟩
  | branch _ _ _ p => ⟨.keyword .if_, p⟩
  | function _ _ _ p => ⟨.keyword .function, p⟩
  | giveBack _ p => ⟨.keyword .return_, p⟩
  | print _ p => ⟨.keyword .print, p⟩

def start (s : Statement) : Position :=
  s.firstToken.position

theorem isLayout_firstToken (s : Statement) : s.firstToken.kind.isLayout = false := by
  cases s <;> rfl

mutual

/-- The statements inside a statement, which is itself inside so many blocks. -/
def nested (depth : Nat) : Statement → List (Nat × Statement)
  | whileLoop _ body _ => listing (depth + 1) body
  | forLoop _ _ _ _ body _ => listing (depth + 1) body
  | branch _ body none _ => listing (depth + 1) body
  | branch _ body (some otherwise) _ => listing (depth + 1) body ++ listing (depth + 1) otherwise
  | function _ _ body _ => listing (depth + 1) body
  | assign _ _ | call _ _ _ | giveBack _ _ | print _ _ => []

/-- The statements of a block and all statements inside them, each with the number of blocks around it. -/
def listing (depth : Nat) : List Statement → List (Nat × Statement)
  | [] => []
  | s :: ss => (depth, s) :: (s.nested depth ++ listing depth ss)

end

end Statement

/-! ### Statements among the tokens -/

/-- Statements stand among tokens, in their order: each one starts behind a line break and as many
indentations as it is deep, and behind the start of the last one the rest is left. -/
inductive Laid : List Lexed → List (Nat × Statement) → List Lexed → Prop where
  | nil {tokens rest : List Lexed} (h : rest <:+ tokens) : Laid tokens [] rest
  | cons {tokens indents after rest : List Lexed} {nl first : Lexed} {s : Statement}
      {entries : List (Nat × Statement)} (h : nl :: (indents ++ first :: after) <:+ tokens)
      (hnl : nl.token.kind = .newLine) (hindents : ∀ t ∈ indents, t.token.kind = .indentation)
      (hfirst : first.token = s.firstToken) (hafter : Laid after entries rest) :
      Laid tokens ((indents.length, s) :: entries) rest

namespace Laid

variable {tokens tokens' middle rest : List Lexed} {entries entries' : List (Nat × Statement)}

/-- More tokens in front change nothing. -/
theorem mono (h : Laid tokens entries rest) (htokens : tokens <:+ tokens') : Laid tokens' entries rest := by
  cases h with
  | nil h => exact .nil (h.trans htokens)
  | cons h hnl hindents hfirst hafter => exact .cons (h.trans htokens) hnl hindents hfirst hafter

theorem append (h : Laid tokens entries middle) (h' : Laid middle entries' rest) :
    Laid tokens (entries ++ entries') rest := by
  induction h with
  | nil h => exact h'.mono h
  | cons h hnl hindents hfirst hafter ih => exact .cons h hnl hindents hfirst (ih h')

/-- What is left behind statements is the end of the tokens. -/
theorem suffix (h : Laid tokens entries rest) : rest <:+ tokens := by
  induction h with
  | nil h => exact h
  | @cons tokens indents after rest nl first s entries h hnl hindents hfirst hafter ih =>
      have hbehind : after <:+ nl :: (indents ++ first :: after) :=
        ((List.suffix_cons first after).trans (List.suffix_append indents _)).trans (List.suffix_cons nl _)
      exact (ih.trans hbehind).trans h

end Laid

namespace Reading

/-- What the lines of a block of a level say of the tokens, and where reading can go on behind them. -/
structure LinesLaid {limit : Nat} (tokens : List Lexed) (level : Nat) (l : Lines limit) : Prop where
  rest : Laid tokens (Statement.listing level l.statements) l.rest
  back : l.staysAhead level = false →
    (∃ back, l.back = some back ∧ Laid tokens (Statement.listing level l.statements) back)
      ∨ (l.back = none ∧ l.statements = [])

/-- A statement read from its first token on, and the statements inside it. -/
def StatementLaid {limit : Nat} (level : Nat) (next : Lexed) (tokens : List Lexed)
    (p : Parsed Statement limit) : Prop :=
  next.token = p.value.firstToken ∧ Laid tokens (p.value.nested level) p.rest

theorem target_name (r : Reading) (name : Name) (tokens : List Lexed) :
    Ensures (fun p => p.value.name = name ∧ p.rest <:+ tokens) (r.target name tokens) := by
  rw [target]
  split
  · apply (delimiter_leaves .bracket .opening).read
    intro _ rest hlt hrest
    exact (indexInside_leaves r false rest).read fun index rest' hlt' hrest' => ⟨rfl, hrest'.trans hrest⟩
  · exact ⟨rfl, List.suffix_refl tokens⟩

theorem assignment_laid (r : Reading) (level : Nat) (name : Name) (tokens : List Lexed) :
    Ensures (fun p => p.value.firstToken = ⟨.identifier name.name, name.position⟩
      ∧ Laid tokens (p.value.nested level) p.rest) (r.assignment name tokens) := by
  rw [assignment]
  split
  · trivial
  · refine (target_name r name tokens).bind ?_
    rintro ⟨target, rest₁, hlt₁⟩ ⟨hname, h₁⟩
    apply (consume_leaves .keyword (.keyword .assign)).read
    intro arrow rest₂ _ h₂
    dsimp only
    split
    · refine (expression_leaves r false rest₂).read fun value rest₃ _ h₃ => ⟨?_, ?_⟩
      · rw [← hname]
        rfl
      · rw [Statement.nested]
        exact .nil ((h₃.trans h₂).trans h₁)
    · trivial

theorem assignmentOrCall_laid (r : Reading) (level : Nat) (name : Name) (tokens : List Lexed) :
    Ensures (fun p => p.value.firstToken = ⟨.identifier name.name, name.position⟩
      ∧ Laid tokens (p.value.nested level) p.rest) (r.assignmentOrCall name tokens) := by
  cases tokens with
  | nil => exact assignment_laid r level name []
  | cons next rest =>
      rw [assignmentOrCall]
      split
      · refine .skip fun _ => ?_
        refine (arguments_leaves r rest).read fun arguments rest' _ hrest' => ⟨rfl, ?_⟩
        rw [Statement.nested]
        exact .nil (hrest'.trans (List.suffix_cons next rest))
      · exact assignment_laid r level name (next :: rest)

theorem kind_of_class_newLine {kind : Token.Kind} (h : kind.class = .newLine) : kind = .newLine := by
  cases kind with
  | newLine => rfl
  | _ => cases h

/-- Behind its lines, a block with statements goes on where they end. -/
theorem LinesLaid.resume {limit level : Nat} {l : Lines limit} {tokens first : List Lexed}
    (h : LinesLaid tokens level l) (hsome : l.statements ≠ []) :
    Laid tokens (Statement.listing level l.statements) (l.resume level first) := by
  rw [Lines.resume]
  split
  · exact h.rest
  · rename_i hahead
    rcases h.back (by simpa using hahead) with ⟨back, hback, hlaid⟩ | ⟨-, hnone⟩
    · rw [hback]
      exact hlaid
    · exact absurd hnone hsome

theorem LinesLaid.mono {limit limit' level : Nat} {l : Lines limit} {tokens : List Lexed}
    (h : LinesLaid tokens level l) (hle : limit ≤ limit') : LinesLaid tokens level (l.mono hle) :=
  ⟨h.rest, h.back⟩

/-- No statements, and a rest of the tokens. -/
theorem linesLaid_nil {limit level depth : Nat} {tokens rest : List Lexed} (hrest : rest <:+ tokens)
    (hlt : rest.length < limit) (hback : ∀ back ∈ (none : Option (List Lexed)), back.length < limit) :
    LinesLaid tokens level (⟨[], depth, none, rest, hlt, hback⟩ : Lines limit) where
  rest := by
    rw [Statement.listing]
    exact .nil hrest
  back := fun _ => .inr ⟨rfl, rfl⟩

/-- The lines behind a line break, seen from further in front. -/
theorem LinesLaid.behind {limit level : Nat} {l : Lines limit} {tokens tokens' : List Lexed}
    (h : LinesLaid tokens level l) (htokens : tokens <:+ tokens') (hlt : tokens.length < limit) :
    LinesLaid tokens' level (l.behind tokens hlt) where
  rest := h.rest.mono htokens
  back := by
    intro hahead
    refine .inl ⟨l.back.getD tokens, rfl, ?_⟩
    rcases h.back hahead with ⟨back, hback, hlaid⟩ | ⟨hback, hnone⟩
    · rw [hback]
      exact hlaid.mono htokens
    · change Laid tokens' (Statement.listing level l.statements) _
      rw [hback, hnone, Statement.listing]
      exact .nil htokens

/-- The last statement before the other branch, or before the end of the text. -/
theorem linesLaid_last {limit level : Nat} {s : Statement} {tokens rest : List Lexed}
    (h : Laid tokens ((level, s) :: s.nested level) rest) (hahead : rest.head?.all Lexed.isElse = true)
    (hlt : rest.length < limit) (hback : ∀ back ∈ (none : Option (List Lexed)), back.length < limit) :
    LinesLaid tokens level (⟨[s], level, none, rest, hlt, hback⟩ : Lines limit) where
  rest := by
    rw [Statement.listing, Statement.listing, List.append_nil]
    exact h
  back := by
    intro hstays
    refine absurd hstays ?_
    rw [Lines.staysAhead]
    simp only [Nat.le_add_right, decide_true, Bool.and_true]
    simpa using hahead

/-- One statement more in front. -/
theorem LinesLaid.cons {limit level : Nat} {s : Statement} {l : Lines limit} {tokens middle : List Lexed}
    (hs : Laid tokens ((level, s) :: s.nested level) middle) (h : LinesLaid middle level l)
    (hback : l.back ≠ none) : LinesLaid tokens level { l with statements := s :: l.statements } where
  rest := by
    rw [Statement.listing]
    exact hs.append h.rest
  back := by
    intro hahead
    rcases h.back hahead with ⟨back, hsome, hlaid⟩ | ⟨hnone, -⟩
    · refine .inl ⟨back, hsome, ?_⟩
      rw [Statement.listing]
      exact hs.append hlaid
    · exact absurd hnone hback

theorem margin_takes (r : Reading) {next : Lexed} (hnext : next.isIndentation = true) (tokens : List Lexed) :
    Ensures (fun p => next :: tokens = p.value ++ p.rest ∧ ∀ t ∈ p.value, t.token.kind = .indentation)
      (r.margin next tokens) := by
  rw [margin]
  refine .skip fun _ => ⟨?_, ?_⟩
  · exact congrArg (List.cons next) (List.takeWhile_append_dropWhile).symm
  · intro t ht
    rcases List.mem_cons.1 ht with rfl | ht
    · exact eq_of_beq hnext
    · have hindentation : t.isIndentation = true := List.mem_takeWhile_imp ht
      exact eq_of_beq hindentation

mutual

/-- A statement starts at its first token, and the statements inside it follow. -/
theorem statement_laid (r : Reading) (level : Nat) (inFunction : Bool) (next : Lexed) (tokens : List Lexed) :
    Ensures (StatementLaid level next tokens) (r.statement level inFunction next tokens) := by
  obtain ⟨⟨kind, place⟩, cursor⟩ := next
  rw [statement]
  dsimp only
  split
  · trivial
  · rename_i name
    refine .skip fun _ => ?_
    apply (assignmentOrCall_laid r level ⟨name, place⟩ tokens).bind
    intro p ⟨hfirst, hnested⟩
    exact ⟨hfirst.symm, hnested⟩
  · refine .skip fun _ => ?_
    apply (counting_leaves r tokens).read
    intro head rest hlt hrest
    refine (block_laid r (level + 1) inFunction rest).bind fun p hbody => ⟨rfl, ?_⟩
    dsimp only
    rw [Statement.nested]
    exact hbody.mono hrest
  · refine .skip fun _ => ?_
    apply (condition_leaves r .do_ tokens).read
    intro condition rest hlt hrest
    refine (block_laid r (level + 1) inFunction rest).bind fun p hbody => ⟨rfl, ?_⟩
    dsimp only
    rw [Statement.nested]
    exact hbody.mono hrest
  · refine .skip fun _ => ?_
    apply (condition_leaves r .then_ tokens).read
    intro condition rest hlt hrest
    refine (block_laid r (level + 1) inFunction rest).bind ?_
    rintro ⟨body, rest', hlt'⟩ hbody
    cases rest' with
    | nil =>
        refine ⟨rfl, ?_⟩
        rw [Statement.nested]
        exact hbody.mono hrest
    | cons next rest' =>
        dsimp only
        split
        · refine .skip fun _ => ?_
          refine (block_laid r (level + 1) inFunction rest').bind fun p hotherwise => ⟨rfl, ?_⟩
          dsimp only
          rw [Statement.nested]
          exact (hbody.mono hrest).append (hotherwise.mono (List.suffix_cons next rest'))
        · refine ⟨rfl, ?_⟩
          rw [Statement.nested]
          exact hbody.mono hrest
  · refine .skip fun _ => ?_
    apply (signature_leaves r tokens).read
    intro signature rest hlt hrest
    refine (block_laid r (level + 1) true rest).bind fun p hbody => ⟨rfl, ?_⟩
    dsimp only
    rw [Statement.nested]
    exact hbody.mono hrest
  · refine .skip fun _ => ?_
    split
    · split
      · refine ⟨rfl, ?_⟩
        rw [Statement.nested]
        exact .nil (List.suffix_refl tokens)
      · refine (expression_leaves r false tokens).read fun value rest hlt hrest => ⟨rfl, ?_⟩
        rw [Statement.nested]
        exact .nil hrest
    · trivial
  · refine .skip fun _ => ?_
    refine (expression_leaves r false tokens).read fun value rest hlt hrest => ⟨rfl, ?_⟩
    rw [Statement.nested]
    exact .nil hrest
  · trivial
  · trivial
termination_by tokens.length + 1
decreasing_by
  · omega
  · omega
  · omega
  · simp only [List.length_cons] at hlt'
    omega
  · omega

/-- The statements of a block stand behind line breaks, one deeper than the block around. -/
theorem block_laid (r : Reading) (level : Nat) (inFunction : Bool) (tokens : List Lexed) :
    Ensures (fun p => Laid tokens (Statement.listing level p.value) p.rest)
      (r.block level inFunction tokens) := by
  cases tokens with
  | nil =>
      rw [block]
      trivial
  | cons next following =>
      rw [block]
      refine (consume_takes .newLine (.token .newLine)).bind ?_
      rintro ⟨token, rest, hlt⟩ ⟨nl, htokens, -, hnl⟩
      obtain ⟨rfl, rfl⟩ := List.cons.inj htokens
      refine (lines_laid r level inFunction next (kind_of_class_newLine hnl) following).bind ?_
      intro found hfound
      dsimp only
      split
      · trivial
      · rename_i hsome
        exact (hfound.mono _).resume (by simpa using hsome)
termination_by tokens.length
decreasing_by simp only [List.length_cons]; omega

theorem lines_laid (r : Reading) (level : Nat) (inFunction : Bool) (nl : Lexed)
    (hnl : nl.token.kind = .newLine) (tokens : List Lexed) :
    Ensures (LinesLaid (nl :: tokens) level) (r.lines level inFunction tokens) := by
  cases tokens with
  | nil =>
      rw [lines]
      exact linesLaid_nil (List.nil_suffix) _ _
  | cons next following =>
      rw [lines]
      split
      · rename_i hnext
        refine (margin_takes r hnext following).bind ?_
        rintro ⟨indents, rest, hrest⟩ ⟨hsplit, hindents⟩
        have htokens : nl :: next :: following = nl :: (indents ++ rest) := congrArg _ hsplit
        have hsuffix : rest <:+ nl :: next :: following := by
          rw [htokens]
          exact (List.suffix_append indents rest).trans (List.suffix_cons nl _)
        cases rest with
        | nil => exact linesLaid_nil List.nil_suffix _ _
        | cons first after =>
            have hafter : after.length < following.length := Nat.lt_of_succ_lt_succ hrest
            dsimp only
            split
            · rename_i hkind
              refine .skip fun _ => ?_
              apply (lines_laid r level inFunction first hkind after).bind
              intro found hfound
              exact (hfound.mono _).behind hsuffix _
            · split
              · exact linesLaid_nil hsuffix _ _
              · split
                · trivial
                · rename_i hdeep hextra
                  -- Neither more nor fewer indentations than the level of the block.
                  have hlevel : indents.length = level := by
                    have := List.getElem?_eq_none_iff.1 hextra
                    omega
                  refine (statement_laid r level inFunction first after).bind ?_
                  rintro ⟨s, rest, hlt⟩ ⟨hfirst, hnested⟩
                  have hs : Laid (nl :: next :: following) ((level, s) :: s.nested level) rest := by
                    rw [htokens, ← hlevel]
                    rw [← hlevel] at hnested
                    exact .cons (List.suffix_refl _) hnl hindents hfirst hnested
                  dsimp only
                  split
                  · rename_i helse
                    exact linesLaid_last hs helse _ _
                  · refine (consume_takes .newLine (.token .newLine)).bind ?_
                    rintro ⟨token, behind, hlt'⟩ ⟨nl', hrest', -, hnl'⟩
                    have hkind := kind_of_class_newLine hnl'
                    apply (lines_laid r level inFunction nl' hkind behind).bind
                    intro found hfound
                    dsimp only at hrest'
                    rw [← hrest'] at hfound
                    exact .cons hs ((hfound.mono _).behind (List.suffix_refl rest) _) (Option.some_ne_none _)
      · exact linesLaid_nil (List.suffix_cons nl _) _ _
termination_by tokens.length
decreasing_by
  all_goals simp only [List.length_cons]
  all_goals omega

end

/-- The statements of a whole text. The start of the text is taken for a line break. -/
theorem statements_laid (r : Reading) (nl : Lexed) (hnl : nl.token.kind = .newLine) (tokens : List Lexed) :
    Ensures (fun program => Laid (nl :: tokens) (Statement.listing 0 program) []) (r.statements tokens) := by
  cases tokens with
  | nil =>
      rw [statements]
      change Laid _ (Statement.listing 0 []) _
      rw [Statement.listing]
      exact .nil List.nil_suffix
  | cons next rest =>
      rw [statements]
      split
      · rename_i hkind
        exact .skip fun _ => (statements_laid r next hkind rest).imp fun program h =>
          h.mono (List.suffix_cons nl _)
      · refine (statement_laid r 0 false next rest).bind ?_
        rintro ⟨s, rest', hlt⟩ ⟨hfirst, hnested⟩
        have hsuffix : nl :: ([] ++ next :: rest) <:+ nl :: next :: rest := List.suffix_refl _
        have hs : Laid (nl :: next :: rest) ((0, s) :: s.nested 0) rest' :=
          .cons hsuffix hnl (by simp) hfirst hnested
        dsimp only
        split
        · rename_i hempty
          change Laid _ (Statement.listing 0 [s]) _
          rw [Statement.listing, Statement.listing, List.append_nil, ← List.isEmpty_iff.1 hempty]
          exact hs
        · refine (consume_takes .newLine (.token .newLine)).bind ?_
          rintro ⟨token, behind, hlt'⟩ ⟨nl', hrest', -, hnl'⟩
          dsimp only at hrest'
          apply (statements_laid r nl' (kind_of_class_newLine hnl') behind).bind
          intro program hprogram
          rw [← hrest'] at hprogram
          change Laid _ (Statement.listing 0 (s :: program)) _
          rw [Statement.listing]
          exact hs.append hprogram
termination_by tokens.length
decreasing_by
  all_goals simp only [List.length_cons]
  all_goals omega

/-- No program starts with an indentation. -/
theorem head_of_statements (r : Reading) {tokens : List Lexed} {program : Program}
    (h : r.statements tokens = .ok program) : ∀ t ∈ tokens.head?, t.token.kind ≠ .indentation := by
  intro t ht hkind
  obtain ⟨rest, rfl⟩ := List.head?_eq_some_iff.1 ht
  rw [statements, if_neg (by rw [hkind]; exact Token.Kind.noConfusion), bind_eq_ok] at h
  obtain ⟨p, hp, -⟩ := h
  rw [statement] at hp
  simp only [hkind] at hp
  cases hp

end Reading

/-! ### Statements among the lines -/

/-- A statement is the first token of its line that is no layout, in front of it on the line are only blanks,
and the line is indented as deep as the statement is nested. -/
structure HeadsLine (source : Source) (depth : Nat) (s : Statement) : Prop where
  token : ∃ before after, (Stream.ofSource source).tokens.map Lexed.token = before ++ s.firstToken :: after
    ∧ ∀ t ∈ before, t.position.line = s.start.line → t.kind.isLayout = true
  line : LineHead source s.start.line depth s.firstToken

/-- The tokens of a text that starts with no indentation are those of its lines. -/
theorem tokens_eq_scanLines {source : Source}
    (h : ∀ t ∈ (Stream.ofSource source).tokens.head?, t.token.kind ≠ .indentation) :
    (Stream.ofSource source).tokens.map Lexed.token = (scanLines source source.lines.length 0).tokens := by
  obtain ⟨strays, hstrays, hscan⟩ := Stream.exists_scan_ofSource source
  have htokens := congrArg Scan.tokens hscan
  rw [Scan.tokens_append rfl] at htokens
  change (Stream.ofSource source).tokens.map Lexed.token = strays ++ _ at htokens
  cases strays with
  | nil => exact htokens
  | cons t strays =>
      -- The first of such indentations would be the first token.
      cases htext : (Stream.ofSource source).tokens with
      | nil =>
          rw [htext] at htokens
          cases htokens
      | cons t' tokens =>
          rw [htext, List.map_cons, List.cons_append, List.cons.injEq] at htokens
          rw [htext] at h
          exact absurd (htokens.1 ▸ (hstrays t (by simp)).kind) (h t' rfl)

section

variable {source : Source} {tokens : List Lexed} {nl : Lexed}

/-- Behind a line break, or behind the start of the text, and as many indentations as it is deep, a statement
heads its line. Of the tokens before the line break, none is on that line. -/
theorem headsLine_of_split (htext : tokens.map Lexed.token = (scanLines source source.lines.length 0).tokens)
    {before indents after : List Lexed} {nl' first : Lexed} {s : Statement}
    (hnl : nl'.token.kind = .newLine) (hindents : ∀ t ∈ indents, t.token.kind = .indentation)
    (hfirst : first.token = s.firstToken)
    (h : nl :: tokens = before ++ nl' :: (indents ++ first :: after)) :
    LineHead source s.start.line indents.length s.firstToken
      ∧ (∀ t ∈ before.tail, t.token.position.line < s.start.line)
      ∧ ∃ before' after', tokens.map Lexed.token = before' ++ s.firstToken :: after'
        ∧ ∀ t ∈ before', t.position.line = s.start.line → t.kind.isLayout = true := by
  have hindents' : ∀ t ∈ indents.map Lexed.token, t.kind = .indentation := by
    intro t ht
    obtain ⟨t', ht', rfl⟩ := List.mem_map.1 ht
    exact hindents t' ht'
  have hlayout : ∀ t ∈ indents.map Lexed.token, t.kind.isLayout = true := by
    intro t ht
    rw [hindents' t ht]
    rfl
  have hfirst' : s.firstToken.kind.isLayout = false := s.isLayout_firstToken
  cases before with
  | nil =>
      obtain ⟨-, htokens⟩ := List.cons.inj h
      have hsplit := congrArg (List.map Lexed.token) htokens
      rw [List.map_append, List.map_cons, hfirst] at hsplit
      have hhead := lineHead_zero hindents' hfirst' (htext.symm.trans hsplit)
      rw [List.length_map] at hhead
      have hline : s.start.line = 0 := hhead.line
      exact ⟨hline ▸ hhead, by simp, _, _, hsplit, fun t ht _ => hlayout t ht⟩
  | cons t before =>
      obtain ⟨-, htokens⟩ := List.cons.inj h
      have hsplit := congrArg (List.map Lexed.token) htokens
      rw [List.append_eq, List.map_append, List.map_cons, List.map_append, List.map_cons, hfirst] at hsplit
      obtain ⟨j, hhead, hbefore⟩ := exists_lineHead_of_newLine hnl hindents' hfirst' (htext.symm.trans hsplit)
      rw [List.length_map] at hhead
      have hline : s.start.line = j := hhead.line
      refine ⟨hline ▸ hhead, ?_, before.map Lexed.token ++ nl'.token :: indents.map Lexed.token,
        after.map Lexed.token, ?_, ?_⟩
      · intro t ht
        rw [hline]
        exact hbefore t.token (List.mem_map_of_mem ht)
      · rw [hsplit, List.append_assoc]
        rfl
      · intro t ht hsame
        rcases List.mem_append.1 ht with ht | ht
        · have := hbefore t ht
          omega
        · rcases List.mem_cons.1 ht with rfl | ht
          · rw [hnl]
            rfl
          · exact hlayout t ht

theorem mem_tail_append {α : Type} {x : α} {xs ys : List α} (h : x ∈ xs.tail) : x ∈ (xs ++ ys).tail := by
  cases xs with
  | nil => cases h
  | cons y xs => exact List.mem_append_left _ h

/-- Statements that stand among the tokens of a text head their lines, and these follow each other. -/
theorem headsLine_of_laid (htext : tokens.map Lexed.token = (scanLines source source.lines.length 0).tokens)
    {tail rest before : List Lexed} {entries : List (Nat × Statement)} (h : Laid tail entries rest)
    (hsplit : nl :: tokens = before ++ tail) :
    (∀ entry ∈ entries, LineHead source entry.2.start.line entry.1 entry.2.firstToken
      ∧ (∀ t ∈ before.tail, t.token.position.line < entry.2.start.line)
      ∧ ∃ before' after', tokens.map Lexed.token = before' ++ entry.2.firstToken :: after'
        ∧ ∀ t ∈ before', t.position.line = entry.2.start.line → t.kind.isLayout = true)
      ∧ entries.Pairwise fun entry entry' => entry.2.start.line < entry'.2.start.line := by
  induction h generalizing before with
  | nil h => exact ⟨by simp, .nil⟩
  | @cons tail indents after rest nl' first s entries h hnl hindents hfirst hafter ih =>
      obtain ⟨middle, rfl⟩ := h
      have hhere : nl :: tokens = (before ++ middle) ++ nl' :: (indents ++ first :: after) := by
        rw [hsplit, List.append_assoc]
      have hthere : nl :: tokens = ((before ++ middle) ++ nl' :: (indents ++ [first])) ++ after := by
        rw [hhere]
        simp
      obtain ⟨hhead, hbefore, htoken⟩ := headsLine_of_split htext hnl hindents hfirst hhere
      obtain ⟨hentries, hpairwise⟩ := ih hthere
      refine ⟨?_, .cons ?_ hpairwise⟩
      · -- What is in front of these tokens is in front of this statement and of all later ones.
        intro entry hentry
        rcases List.mem_cons.1 hentry with rfl | hentry
        · exact ⟨hhead, fun t ht => hbefore t (mem_tail_append ht), htoken⟩
        · obtain ⟨hhead', hbefore', htoken'⟩ := hentries entry hentry
          exact ⟨hhead', fun t ht => hbefore' t (mem_tail_append (mem_tail_append ht)), htoken'⟩
      · -- This statement is in front of the later ones.
        intro entry hentry
        have hfront : first ∈ ((before ++ middle) ++ nl' :: (indents ++ [first])).tail := by
          cases before ++ middle <;> simp
        have hlt := (hentries entry hentry).2.1 first hfront
        rw [hfirst] at hlt
        exact hlt

end

/-- In a text that is a program, every statement heads a line of its own that is indented as deep as the
statement is nested, and the lines follow each other as the statements do. -/
theorem headsLine_of_ofText {text : String} {program : Program} (h : Program.ofText text = .ok program) :
    (∀ entry ∈ Statement.listing 0 program, HeadsLine (Source.ofText text) entry.1 entry.2)
      ∧ (Statement.listing 0 program).Pairwise fun entry entry' =>
        entry.2.start.line < entry'.2.start.line := by
  rw [Program.ofText, Program.ofSource, bind_eq_ok] at h
  obtain ⟨-, -, h⟩ := h
  have htext := tokens_eq_scanLines (Reading.head_of_statements _ h)
  have hlaid := (Reading.statements_laid _ ⟨⟨.newLine, ⟨0, 0⟩⟩, .start⟩ rfl _).of_eq_ok h
  obtain ⟨hentries, hpairwise⟩ := headsLine_of_laid htext hlaid (List.nil_append _).symm
  refine ⟨fun entry hentry => ?_, hpairwise⟩
  obtain ⟨hhead, -, htoken⟩ := hentries entry hentry
  exact ⟨htoken, hhead⟩

/-- A branch with a comment and empty lines in it, indented by blanks and by a tab. -/
theorem headsLine_of_ofText_branch :
    let text := "jeżeli a to\n    # nic\n     f(1)\n\nw przeciwnym razie\n\twypisz 2\nx <- 3"
    ∃ program, Program.ofText text = .ok program
      ∧ (Statement.listing 0 program).map (fun entry => (entry.1, entry.2.start))
        = [(0, ⟨0, 0⟩), (1, ⟨2, 5⟩), (1, ⟨5, 4⟩), (0, ⟨6, 0⟩)]
      ∧ ∀ entry ∈ Statement.listing 0 program, HeadsLine (Source.ofText text) entry.1 entry.2 := by
  intro text
  have hstarts : (Program.ofText text).map
      (fun program => (Statement.listing 0 program).map fun entry => (entry.1, entry.2.start))
        = .ok [(0, ⟨0, 0⟩), (1, ⟨2, 5⟩), (1, ⟨5, 4⟩), (0, ⟨6, 0⟩)] := by
    decide +kernel
  cases h : Program.ofText text with
  | error e =>
      rw [h] at hstarts
      cases hstarts
  | ok program =>
      rw [h] at hstarts
      exact ⟨program, rfl, Except.ok.inj hstarts, (headsLine_of_ofText h).1⟩

end PolishPseudocode
