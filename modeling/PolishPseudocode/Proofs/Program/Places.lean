import PolishPseudocode.Program.Reader
import PolishPseudocode.Proofs.Expr.Places

/-! The places of programs. Every place in a program that is read from a text has a character at it, and a text
that is no program is refused at a place that it has. -/

namespace PolishPseudocode

def Target.Within (source : Source) : Target → Prop
  | var name => source.Has name.position
  | element name index => source.Has name.position ∧ index.Within source

namespace Statement

mutual

/-- There is a character at every place in a statement. -/
def Within (source : Source) : Statement → Prop
  | assign target value => target.Within source ∧ value.Within source
  | call callee arguments p => source.Has callee.position ∧ Expr.AllWithin source arguments ∧ source.Has p
  | whileLoop condition body p => condition.Within source ∧ AllWithin source body ∧ source.Has p
  | forLoop counter start second last body p =>
      source.Has counter.position ∧ (start.Within source ∧ second.Within source ∧ last.Within source)
        ∧ AllWithin source body ∧ source.Has p
  | branch condition body none p => condition.Within source ∧ AllWithin source body ∧ source.Has p
  | branch condition body (some otherwise) p =>
      condition.Within source ∧ AllWithin source body ∧ AllWithin source otherwise ∧ source.Has p
  | function name parameters body p =>
      source.Has name.position ∧ (∀ parameter ∈ parameters, source.Has parameter.position)
        ∧ AllWithin source body ∧ source.Has p
  | giveBack none p => source.Has p
  | giveBack (some value) p => value.Within source ∧ source.Has p
  | print value p => value.Within source ∧ source.Has p

def AllWithin (source : Source) : List Statement → Prop
  | [] => True
  | s :: ss => s.Within source ∧ AllWithin source ss

end

end Statement

namespace Reading

variable {r : Reading} (hr : r.Within) {tokens : List Lexed}

/-! ### Heads of statements -/

def Counting.Within (source : Source) (head : Counting) : Prop :=
  source.Has head.counter.position
    ∧ (head.start.Within source ∧ head.second.Within source ∧ head.last.Within source)

section

include hr

theorem target_placed {name : Name} (hname : r.source.Has name.position) (h : TokensWithin r.source tokens) :
    Placed r.source (Parsed.Within r.source (Target.Within r.source)) (r.target name tokens) := by
  rw [target]
  split
  · apply (delimiter_placed hr .bracket .opening h).read
    intro _ rest hlt _ hrest
    exact (indexInside_placed hr false hrest).read fun index rest hlt hindex hrest => ⟨⟨hname, hindex⟩, hrest⟩
  · exact ⟨hname, h⟩

theorem assignment_placed {name : Name} (hname : r.source.Has name.position) (h : TokensWithin r.source tokens) :
    Placed r.source (Parsed.Within r.source (Statement.Within r.source)) (r.assignment name tokens) := by
  rw [assignment]
  split
  · exact shows_lastPlace hr (List.forall_mem_nil _)
  · apply (target_placed hr hname h).read
    intro target rest hlt htarget hrest
    apply (consume_placed hr .keyword (.keyword .assign) hrest).read
    intro arrow rest hlt harrow hrest
    dsimp only
    split
    · exact (expression_placed hr false hrest).read fun value rest hlt hvalue hrest =>
        ⟨⟨htarget, hvalue⟩, hrest⟩
    · exact harrow.shows

theorem assignmentOrCall_placed {name : Name} (hname : r.source.Has name.position)
    (h : TokensWithin r.source tokens) :
    Placed r.source (Parsed.Within r.source (Statement.Within r.source)) (r.assignmentOrCall name tokens) := by
  cases tokens with
  | nil => exact assignment_placed hr hname h
  | cons next rest =>
      obtain ⟨hnext, hrest⟩ := List.forall_mem_cons.1 h
      rw [assignmentOrCall]
      split
      · refine (settle_placed hr rest).bind fun _ _ => ?_
        apply (arguments_placed hr hrest).read
        intro arguments rest' hlt harguments hrest'
        exact ⟨⟨hname, harguments, hnext.position⟩, hrest'⟩
      · exact assignment_placed hr hname h

theorem condition_placed (word : Keyword) (h : TokensWithin r.source tokens) :
    Placed r.source (Parsed.Within r.source (Expr.Within r.source)) (r.condition word tokens) := by
  apply (expression_placed hr false h).read
  intro e rest hlt he hrest
  exact (keyword_placed hr word hrest).read fun _ rest hlt _ hrest => ⟨he, hrest⟩

theorem counting_placed (h : TokensWithin r.source tokens) :
    Placed r.source (Parsed.Within r.source (Counting.Within r.source)) (r.counting tokens) := by
  apply (name_placed hr h).read
  intro counter _ _ hcounter h
  apply (keyword_placed hr .equals h).read
  intro _ _ _ _ h
  apply (expression_placed hr false h).read
  intro start _ _ hstart h
  apply (consume_placed hr .comma (.token .comma) h).read
  intro _ _ _ _ h
  apply (expression_placed hr false h).read
  intro second _ _ hsecond h
  apply (consume_placed hr .comma (.token .comma) h).read
  intro _ _ _ _ h
  apply (consume_placed hr .ellipsis (.token .ellipsis) h).read
  intro _ _ _ _ h
  apply (consume_placed hr .comma (.token .comma) h).read
  intro _ _ _ _ h
  apply (condition_placed hr .do_ h).read
  intro last _ _ hlast h
  exact ⟨⟨hcounter, hstart, hsecond, hlast⟩, h⟩

end

theorem parameters_placed {r : Reading} (hr : r.Within) {tokens : List Lexed} (h : TokensWithin r.source tokens) :
    Placed r.source (Parsed.Within r.source fun names => ∀ name ∈ names, r.source.Has name.position)
      (r.parameters tokens) := by
  rw [parameters]
  split
  · exact ⟨List.forall_mem_nil _, h⟩
  · apply (name_placed hr h).read
    intro first rest hlt hfirst hrest
    dsimp only
    split
    · exact ⟨List.forall_mem_singleton.2 hfirst, hrest⟩
    · apply (consume_placed hr .comma (.token .comma) hrest).read
      intro _ rest' hlt' _ hrest'
      apply (parameters_placed hr hrest').read
      intro others rest'' hlt'' hothers hrest''
      exact ⟨List.forall_mem_cons.2 ⟨hfirst, hothers⟩, hrest''⟩
termination_by tokens.length
decreasing_by omega

theorem signature_placed (hr : r.Within) (h : TokensWithin r.source tokens) :
    Placed r.source (Parsed.Within r.source fun signature => r.source.Has signature.1.position
      ∧ ∀ parameter ∈ signature.2, r.source.Has parameter.position) (r.signature tokens) := by
  apply (name_placed hr h).read
  intro name _ _ hname h
  apply (delimiter_placed hr .parenthesis .opening h).read
  intro _ _ _ _ h
  apply (parameters_placed hr h).read
  intro parameters _ _ hparameters h
  apply (delimiter_placed hr .parenthesis .closing h).read
  intro _ _ _ _ h
  exact ⟨⟨hname, hparameters⟩, h⟩

/-! ### Lines -/

/-- There is a character at every place in the lines of a block, and what is left of the tokens, from where they
ended or from a line break on, is of the source. -/
structure Lines.Within {limit : Nat} (source : Source) (l : Lines limit) : Prop where
  statements : Statement.AllWithin source l.statements
  rest : TokensWithin source l.rest
  back : ∀ tokens ∈ l.back, TokensWithin source tokens

namespace Lines.Within

variable {limit : Nat} {source : Source} {l : Lines limit}

/-- Lines without a line break between two of them. -/
theorem of_back_none {statements : Block} {depth : Nat} {rest : List Lexed}
    (hstatements : Statement.AllWithin source statements) (hrest : TokensWithin source rest)
    (hlt : rest.length < limit) (hback : ∀ back ∈ (none : Option (List Lexed)), back.length < limit) :
    (⟨statements, depth, none, rest, hlt, hback⟩ : Lines limit).Within source := by
  refine ⟨hstatements, hrest, ?_⟩
  intro tokens htokens
  cases htokens

theorem mono {limit' : Nat} (h : l.Within source) (hle : limit ≤ limit') : (l.mono hle).Within source :=
  ⟨h.statements, h.rest, h.back⟩

theorem getD_back (h : l.Within source) {tokens : List Lexed} (htokens : TokensWithin source tokens) :
    TokensWithin source (l.back.getD tokens) := by
  cases hback : l.back with
  | none => exact htokens
  | some back => exact h.back back hback

theorem behind (h : l.Within source) {tokens : List Lexed} (htokens : TokensWithin source tokens)
    (hlt : tokens.length < limit) : (l.behind tokens hlt).Within source :=
  ⟨h.statements, h.rest, by rintro _ ⟨⟩; exact h.getD_back htokens⟩

theorem cons (h : l.Within source) {s : Statement} (hs : s.Within source) :
    Lines.Within source { l with statements := s :: l.statements } :=
  ⟨⟨hs, h.statements⟩, h.rest, h.back⟩

theorem resume (h : l.Within source) (level : Nat) {first : List Lexed} (hfirst : TokensWithin source first) :
    TokensWithin source (l.resume level first) := by
  rw [Lines.resume]
  split
  · exact h.rest
  · exact h.getD_back hfirst

end Lines.Within

theorem margin_placed (hr : r.Within) {next : Lexed} (hnext : next.Within r.source)
    (h : TokensWithin r.source tokens) :
    Placed r.source (Parsed.Within r.source (TokensWithin r.source)) (r.margin next tokens) := by
  refine (settle_placed hr _).bind fun _ _ => ⟨List.forall_mem_cons.2 ⟨hnext, ?_⟩, ?_⟩
  · exact fun t ht => h t ((List.takeWhile_sublist _).subset ht)
  · exact fun t ht => h t ((List.dropWhile_sublist _).subset ht)

/-! ### Statements -/

mutual

theorem statement_placed {r : Reading} (hr : r.Within) (level : Nat) (inFunction : Bool) {next : Lexed}
    {tokens : List Lexed} (hnext : next.Within r.source) (h : TokensWithin r.source tokens) :
    Placed r.source (Parsed.Within r.source (Statement.Within r.source))
      (r.statement level inFunction next tokens) := by
  have hplace := hnext.position
  have hsettle := settle_placed hr tokens
  rw [statement]
  dsimp only
  split
  · exact hplace.shows
  · refine hsettle.bind fun _ _ => ?_
    exact (assignmentOrCall_placed hr hplace h).read fun s rest hlt hs hrest => ⟨hs, hrest⟩
  · refine hsettle.bind fun _ _ => ?_
    apply (counting_placed hr h).read
    intro head rest hlt ⟨hcounter, hbounds⟩ hrest
    apply (block_placed hr (level + 1) inFunction hrest).read
    intro body rest' hlt' hbody hrest'
    exact ⟨⟨hcounter, hbounds, hbody, hplace⟩, hrest'⟩
  · refine hsettle.bind fun _ _ => ?_
    apply (condition_placed hr .do_ h).read
    intro condition rest hlt hcondition hrest
    apply (block_placed hr (level + 1) inFunction hrest).read
    intro body rest' hlt' hbody hrest'
    exact ⟨⟨hcondition, hbody, hplace⟩, hrest'⟩
  · refine hsettle.bind fun _ _ => ?_
    apply (condition_placed hr .then_ h).read
    intro condition rest hlt hcondition hrest
    apply (block_placed hr (level + 1) inFunction hrest).read
    intro body rest' hlt' hbody hrest'
    cases rest' with
    | nil => exact ⟨⟨hcondition, hbody, hplace⟩, hrest'⟩
    | cons next rest' =>
        obtain ⟨-, hbehind⟩ := List.forall_mem_cons.1 hrest'
        dsimp only
        split
        · refine (settle_placed hr rest').bind fun _ _ => ?_
          apply (block_placed hr (level + 1) inFunction hbehind).read
          intro otherwise rest'' hlt'' hotherwise hrest''
          exact ⟨⟨hcondition, hbody, hotherwise, hplace⟩, hrest''⟩
        · exact ⟨⟨hcondition, hbody, hplace⟩, hrest'⟩
  · refine hsettle.bind fun _ _ => ?_
    apply (signature_placed hr h).read
    intro signature rest hlt ⟨hname, hparameters⟩ hrest
    apply (block_placed hr (level + 1) true hrest).read
    intro body rest' hlt' hbody hrest'
    exact ⟨⟨hname, hparameters, hbody, hplace⟩, hrest'⟩
  · refine hsettle.bind fun _ _ => ?_
    split
    · split
      · exact ⟨hplace, h⟩
      · exact (expression_placed hr false h).read fun value rest hlt hvalue hrest => ⟨⟨hvalue, hplace⟩, hrest⟩
    · exact hplace.shows
  · refine hsettle.bind fun _ _ => ?_
    exact (expression_placed hr false h).read fun value rest hlt hvalue hrest => ⟨⟨hvalue, hplace⟩, hrest⟩
  · exact hplace.shows
  · exact hplace.shows
termination_by tokens.length + 1
decreasing_by
  · omega
  · omega
  · omega
  · simp only [List.length_cons] at hlt'
    omega
  · omega

theorem block_placed {r : Reading} (hr : r.Within) (level : Nat) (inFunction : Bool) {tokens : List Lexed}
    (h : TokensWithin r.source tokens) :
    Placed r.source (Parsed.Within r.source (Statement.AllWithin r.source)) (r.block level inFunction tokens) := by
  cases tokens with
  | nil =>
      rw [block]
      exact shows_lastPlace hr h
  | cons next following =>
      rw [block]
      apply (consume_placed hr .newLine (.token .newLine) h).read
      intro _ rest hlt _ hrest
      refine (lines_placed hr level inFunction hrest).bind fun found hfound => ?_
      have hresume := (hfound.mono (Nat.succ_le_succ (Nat.le_of_lt hlt))).resume level h
      dsimp only
      split
      · exact shows_lastPlace hr hresume
      · exact ⟨hfound.statements, hresume⟩
termination_by tokens.length
decreasing_by subst_vars; omega

theorem lines_placed {r : Reading} (hr : r.Within) (level : Nat) (inFunction : Bool) {tokens : List Lexed}
    (h : TokensWithin r.source tokens) :
    Placed r.source (Lines.Within r.source) (r.lines level inFunction tokens) := by
  cases tokens with
  | nil =>
      rw [lines]
      refine .of_back_none ?_ h _ _
      trivial
  | cons next following =>
      rw [lines]
      split
      · obtain ⟨hnext, hfollowing⟩ := List.forall_mem_cons.1 h
        apply (margin_placed hr hnext hfollowing).read
        intro indents rest hrest hindents hwithin
        cases rest with
        | nil =>
            refine .of_back_none ?_ hwithin _ _
            trivial
        | cons first after =>
            have hafter : after.length < following.length := Nat.lt_of_succ_lt_succ hrest
            obtain ⟨hfirst, hbehind⟩ := List.forall_mem_cons.1 hwithin
            dsimp only
            split
            · refine (settle_placed hr after).bind fun _ _ => ?_
              refine (lines_placed hr level inFunction hbehind).bind fun found hfound => ?_
              exact (hfound.mono _).behind hwithin _
            · split
              · refine .of_back_none ?_ hwithin _ _
                trivial
              · split
                · rename_i extra hextra
                  exact (hindents extra (List.mem_of_getElem? hextra)).position.shows
                · apply (statement_placed hr level inFunction hfirst hbehind).read
                  intro s rest hlt hs hrest
                  dsimp only
                  split
                  · refine .of_back_none ?_ hrest _ _
                    exact ⟨hs, trivial⟩
                  · apply (consume_placed hr .newLine (.token .newLine) hrest).read
                    intro _ behind hlt' _ hbehind
                    refine (lines_placed hr level inFunction hbehind).bind fun found hfound => ?_
                    exact ((hfound.mono _).behind hrest _).cons hs
      · refine .of_back_none ?_ h _ _
        trivial
termination_by tokens.length
decreasing_by
  all_goals subst_vars
  all_goals simp only [List.length_cons] at *
  all_goals omega

end

theorem statements_placed {r : Reading} (hr : r.Within) {tokens : List Lexed} (h : TokensWithin r.source tokens) :
    Placed r.source (Statement.AllWithin r.source) (r.statements tokens) := by
  cases tokens with
  | nil =>
      rw [statements]
      trivial
  | cons next rest =>
      obtain ⟨hnext, hrest⟩ := List.forall_mem_cons.1 h
      rw [statements]
      split
      · exact (settle_placed hr rest).bind fun _ _ => statements_placed hr hrest
      · apply (statement_placed hr 0 false hnext hrest).read
        intro s rest' hlt hs hrest'
        dsimp only
        split
        · exact ⟨hs, trivial⟩
        · apply (consume_placed hr .newLine (.token .newLine) hrest').read
          intro _ behind hlt' _ hbehind
          exact (statements_placed hr hbehind).bind fun program hprogram => ⟨hs, hprogram⟩
termination_by tokens.length
decreasing_by
  all_goals subst_vars
  all_goals simp only [List.length_cons] at *
  all_goals omega

end Reading

/-- There is a character at every place in a program that is read from a text, and a text that is none is refused
at a place that it has. -/
theorem Program.ofText_placed (text : String) :
    Placed (Source.ofText text) (Statement.AllWithin (Source.ofText text)) (Program.ofText text) := by
  have hlines : 0 < (Source.ofText text).lines.length := by
    rw [Source.ofText, List.length_map]
    exact List.length_pos_iff.2 (splitLines_ne_nil text.toList)
  have hstream := Stream.ofCursor_within (Cursor.start_within (Source.ofText text))
  have hr : Reading.Within ⟨Source.ofText text, (Stream.ofSource (Source.ofText text)).ending⟩ :=
    ⟨hlines, hstream.ending⟩
  exact (Reading.settle_placed hr _).bind fun _ _ => Reading.statements_placed hr hstream.tokens

end PolishPseudocode
