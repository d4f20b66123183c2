import PolishPseudocode.Proofs.Expr.Derivation
import PolishPseudocode.Proofs.Relocation

/-! Reading an expression from moved tokens. Reduction and the readers of expressions look at the kinds of
tokens only: from moved tokens they read the moved expression, and refuse for the same cause. -/

namespace PolishPseudocode

open Reduction

variable {f : Position → Position}

def Item.relocate (f : Position → Position) : Item → Item
  | operand e => operand (e.relocate f)
  | operator op p => operator op (f p)
  | opening p => opening (f p)
  | closing p => closing (f p)
  | index i p => index (i.relocate f) (f p)

def Node.relocate (f : Position → Position) : Node → Node
  | operand e => operand (e.relocate f)
  | operator op p => operator op (f p)
  | index i p => index (i.relocate f) (f p)

def Term.relocate (f : Position → Position) : Term → Term
  | operand e => operand (e.relocate f)
  | operator op p => operator op (f p)

/-! ### Reduction -/

/-- Outcomes that are lists of terms, the second one moved. -/
abbrev TermsMoved (f : Position → Position) (x y : Except SyntaxError (List Term)) : Prop :=
  Agree (fun terms terms' => terms' = terms.map (Term.relocate f)) x y

theorem attachIndices_moved (done : List Term) (nodes : List Node) :
    TermsMoved f (attachIndices done nodes)
      (attachIndices (done.map (Term.relocate f)) (nodes.map (Node.relocate f))) := by
  fun_induction attachIndices done nodes with
  | case1 done =>
      simp only [List.map_nil, attachIndices]
      exact List.map_reverse.symm
  | case2 done e rest ih => exact ih
  | case3 done op p rest ih => exact ih
  | case4 target done i p rest ih => exact ih
  | case5 done i p rest hdone =>
      cases done with
      | nil => rfl
      | cons term done =>
          cases term with
          | operand e => exact absurd rfl (hdone e done)
          | operator op q => rfl

theorem negate_relocate (e : Expr) (p : Position) :
    negate (e.relocate f) (f p) = (negate e p).relocate f := by
  cases e with
  | literal value q => cases value <;> rfl
  | _ => rfl

theorem isLeading_relocate (before : Option Term) :
    isLeading (before.map (Term.relocate f)) = isLeading before := by
  cases before with
  | none => rfl
  | some term => cases term <;> rfl

theorem applyPrefix_moved {op : Operator} {applies : Option Term → Bool}
    {build : Expr → Position → Expr}
    (happlies : ∀ before, applies (before.map (Term.relocate f)) = applies before)
    (hbuild : ∀ e p, build (e.relocate f) (f p) = (build e p).relocate f)
    (before : Option Term) (terms : List Term) :
    TermsMoved f (applyPrefix op applies build before terms)
      (applyPrefix op applies build (before.map (Term.relocate f)) (terms.map (Term.relocate f))) := by
  induction terms generalizing before with
  | nil => rfl
  | cons term rest ih =>
      have hrest := ih (some term)
      rw [List.map_cons, applyPrefix, applyPrefix]
      rw [Option.map_some] at hrest
      generalize applyPrefix op applies build (some term) rest = first at hrest ⊢
      generalize applyPrefix op applies build (some (term.relocate f)) _ = second at hrest ⊢
      cases first with
      | error e =>
          cases second with
          | error e' => exact hrest
          | ok _ => exact hrest.elim
      | ok rest =>
          obtain ⟨_, rfl, rfl⟩ := hrest.exists_of_ok
          cases term with
          | operand e => rfl
          | operator found p =>
              simp only [Term.relocate, happlies]
              split
              · cases rest with
                | nil => rfl
                | cons next rest =>
                    cases next with
                    | operand e =>
                        simp only [List.map_cons, Term.relocate, hbuild]
                        rfl
                    | operator op' q => rfl
              · rfl

theorem joinTier_moved (tier : BinaryOp → Bool) (done terms : List Term) :
    TermsMoved f (joinTier tier done terms)
      (joinTier tier (done.map (Term.relocate f)) (terms.map (Term.relocate f))) := by
  fun_induction joinTier tier done terms with
  | case1 done =>
      simp only [List.map_nil, joinTier]
      exact List.map_reverse.symm
  | case2 done e rest ih => exact ih
  | case3 done p rest ih => exact ih
  | case4 op p hop left done right rest ih =>
      simp only [List.map_cons, Term.relocate, joinTier, hop, if_true]
      exact ih
  | case5 done op p rest hop hmissing =>
      simp only [List.map_cons, Term.relocate]
      rw [joinTier.eq_def]
      simp only [hop, if_true]
      split
      · rename_i left done' right rest' hdone hrest
        cases done with
        | nil => cases hdone
        | cons term done =>
            cases rest with
            | nil => cases hrest
            | cons next rest =>
                cases term with
                | operator op' q => cases hdone
                | operand e =>
                    cases next with
                    | operator op' q => cases hrest
                    | operand e' => exact absurd rfl (hmissing e done e' rest rfl)
      · rfl
  | case6 done op p rest hop ih =>
      have hstep (done rest : List Term) (p : Position) :
          joinTier tier done (.operator (.binary op) p :: rest)
            = joinTier tier (.operator (.binary op) p :: done) rest := by
        rw [joinTier.eq_def]
        simp only [if_neg hop]
      simp only [List.map_cons, Term.relocate, hstep]
      exact ih

theorem misplacedVariable?_relocate (terms : List Term) :
    (misplacedVariable? (terms.map (Term.relocate f))).map Name.name
      = (misplacedVariable? terms).map Name.name := by
  fun_induction misplacedVariable? terms with
  | case1 first name rest => rfl
  | case2 first second rest hsecond ih =>
      cases second with
      | operator op p => exact ih
      | operand e =>
          cases e with
          | var name => exact absurd rfl (hsecond name)
          | _ => exact ih
  | case3 terms hvariable hterms =>
      cases terms with
      | nil => rfl
      | cons first terms =>
          cases terms with
          | nil => rfl
          | cons second terms => exact absurd rfl (hterms first second terms)

theorem single_moved (terms : List Term) :
    Agree (fun e e' => e' = e.relocate f) (single terms) (single (terms.map (Term.relocate f))) := by
  fun_cases single terms with
  | case1 e => rfl
  | case2 op p => rfl
  | case3 => rfl
  | case4 first second rest name hname =>
      have hmap := misplacedVariable?_relocate (f := f) (first :: second :: rest)
      rw [hname] at hmap
      obtain ⟨name', hname', heq⟩ := Option.map_eq_some_iff.1 hmap
      simp only [List.map_cons] at hname' ⊢
      simp only [single, hname']
      exact congrArg SyntaxError.Cause.strayVariable heq.symm
  | case5 first second rest hname =>
      have hmap := misplacedVariable?_relocate (f := f) (first :: second :: rest)
      rw [hname] at hmap
      have hname' := Option.map_eq_none_iff.1 hmap
      simp only [List.map_cons] at hname' ⊢
      simp only [single, hname']
      rfl

theorem level_moved (nodes : List Node) (place place' : Position) :
    Agree (fun e e' => e' = e.relocate f) (level nodes place)
      (level (nodes.map (Node.relocate f)) place') := by
  cases nodes with
  | nil => rfl
  | cons node nodes =>
      refine Agree.bind (attachIndices_moved [] (node :: nodes)) ?_
      rintro terms _ rfl
      refine Agree.bind (applyPrefix_moved isLeading_relocate negate_relocate none terms) ?_
      rintro terms _ rfl
      refine Agree.bind (joinTier_moved _ [] terms) ?_
      rintro terms _ rfl
      refine Agree.bind (joinTier_moved _ [] terms) ?_
      rintro terms _ rfl
      refine Agree.bind (joinTier_moved _ [] terms) ?_
      rintro terms _ rfl
      refine Agree.bind (applyPrefix_moved (fun _ => rfl) (fun _ _ => rfl) none terms) ?_
      rintro terms _ rfl
      refine Agree.bind (joinTier_moved _ [] terms) ?_
      rintro terms _ rfl
      refine Agree.bind (joinTier_moved _ [] terms) ?_
      rintro terms _ rfl
      exact single_moved terms

/-- The level that an opening parenthesis suspends, moved. -/
def relocateLevel (f : Position → Position) (level : Position × List Node) : Position × List Node :=
  (f level.1, level.2.map (Node.relocate f))

theorem levels_moved {place place' : Position} (suspended : List (Position × List Node))
    (current : List Node) (items : List Item) :
    Agree (fun e e' => e' = e.relocate f) (levels place suspended current items)
      (levels place' (suspended.map (relocateLevel f)) (current.map (Node.relocate f))
        (items.map (Item.relocate f))) := by
  fun_induction levels place suspended current items with
  | case1 current =>
      simp only [List.map_nil, levels, ← List.map_reverse]
      exact level_moved current.reverse place place'
  | case2 current opening outer suspended => rfl
  | case3 suspended current e rest ih => exact ih
  | case4 suspended current op p rest ih => exact ih
  | case5 suspended current i p rest ih => exact ih
  | case6 suspended current p rest ih => exact ih
  | case7 current p rest => rfl
  | case8 current p rest opening outer suspended e hlevel =>
      have hmoved := level_moved (f := f) current.reverse opening (f opening)
      rw [hlevel] at hmoved
      simp only [List.map_cons, Item.relocate, relocateLevel, levels, ← List.map_reverse]
      cases hlevel' : level (current.reverse.map (Node.relocate f)) (f opening) with
      | error e' =>
          rw [hlevel'] at hmoved
          exact hmoved
      | ok e' =>
          rw [hlevel'] at hmoved
          exact hmoved.elim
  | case9 current p rest opening outer suspended e hlevel ih =>
      have hmoved := level_moved (f := f) current.reverse opening (f opening)
      rw [hlevel] at hmoved
      obtain ⟨_, hlevel', rfl⟩ := hmoved.exists_of_ok
      simp only [List.map_cons, Item.relocate, relocateLevel, levels, ← List.map_reverse, hlevel']
      exact ih

/-- From moved items the moved tree is reduced. -/
theorem ofItems_moved (items : List Item) (place place' : Position) :
    Agree (fun e e' => e' = e.relocate f) (Expr.ofItems items place)
      (Expr.ofItems (items.map (Item.relocate f)) place') :=
  levels_moved [] [] items

/-! ### Readers of expressions

Both runs are followed side by side, the second one on moved tokens. They may belong to different
sources, as long as the tokens end alike. -/

/-- The tokens of two readings end alike: both with the text, or both at something refused for the same
cause. -/
def Reading.EndsAlike (r r' : Reading) : Prop :=
  match r.ending, r'.ending with
  | .finished _, .finished _ => True
  | .failed e, .failed e' => e.cause = e'.cause
  | _, _ => False

/-- The second of two readings is the first one moved: what is read by `g`, the tokens left by `f`. -/
def Parsed.Moves {α : Type} {limit limit' : Nat} (f : Position → Position) (g : α → α)
    (p : Parsed α limit) (p' : Parsed α limit') : Prop :=
  p'.value = g p.value ∧ Moved f p.rest p'.rest

/-- Reading on from a reading and from the moved one. -/
theorem Agree.read {α γ δ : Type} {related : γ → δ → Prop} {limit limit' : Nat} {g : α → α}
    {first : Except SyntaxError (Parsed α limit)} {first' : Except SyntaxError (Parsed α limit')}
    {next : Parsed α limit → Except SyntaxError γ} {next' : Parsed α limit' → Except SyntaxError δ}
    (h : Agree (Parsed.Moves f g) first first')
    (hnext : ∀ value rest rest' (hlt : rest.length < limit) (hlt' : rest'.length < limit'),
      Moved f rest rest' → Agree related (next ⟨value, rest, hlt⟩) (next' ⟨g value, rest', hlt'⟩)) :
    Agree related (first >>= next) (first' >>= next') := by
  refine h.bind ?_
  rintro ⟨value, rest, hlt⟩ ⟨_, rest', hlt'⟩ ⟨rfl, hrest⟩
  exact hnext value rest rest' hlt hlt' hrest

def Reading.Gathered.relocate (f : Position → Position) (g : Reading.Gathered) : Reading.Gathered :=
  { g with items := g.items.map (Item.relocate f) }

namespace Reading

variable {r r' : Reading} {tokens tokens' : List Lexed}

/-- The text consists of tokens to its end, so nothing is refused for what follows. -/
def Settles (r : Reading) : Prop :=
  ∀ tokens, r.settle tokens = .ok ()

/-- Tokens that go on to the end of the text are never refused for what follows. -/
theorem settle_of_finished {c : Cursor} (h : r.ending = .finished c) : r.Settles := by
  intro tokens
  unfold settle
  split
  · rename_i hfailed
    cases h.symm.trans hfailed
  · rfl

theorem settle_moved (hends : r.EndsAlike r') (h : Moved f tokens tokens') :
    Agree (fun _ _ => True) (r.settle tokens) (r'.settle tokens') := by
  cases tokens with
  | nil =>
      rw [h.eq_nil]
      unfold EndsAlike at hends
      unfold settle
      cases hr : r.ending <;> cases hr' : r'.ending <;> simp_all [Agree]
  | cons next tokens =>
      obtain ⟨next', rest', rfl, -, -⟩ := h.exists_of_cons
      simp [settle, Agree]

theorem consume_moved (hends : r.EndsAlike r') (kind : Token.Class) (expected : Expected)
    (h : Moved f tokens tokens') :
    Agree (Parsed.Moves f (Token.relocate f)) (r.consume kind expected tokens)
      (r'.consume kind expected tokens') := by
  cases tokens with
  | nil =>
      rw [h.eq_nil]
      rfl
  | cons next tokens =>
      obtain ⟨next', rest', rfl, hnext, hrest⟩ := h.exists_of_cons
      rw [consume, consume, kind_eq_of_relocate hnext]
      split
      · exact Agree.bind (settle_moved hends hrest) fun _ _ _ => ⟨hnext, hrest⟩
      · rfl

theorem delimiter_moved (hends : r.EndsAlike r') (pair : Delimiter) (side : Side)
    (h : Moved f tokens tokens') :
    Agree (Parsed.Moves f f) (r.delimiter pair side tokens) (r'.delimiter pair side tokens') := by
  refine Agree.bind (consume_moved hends _ _ h) ?_
  rintro ⟨⟨kind, p⟩, rest, hlt⟩ ⟨_, rest', hlt'⟩ ⟨rfl, hrest⟩
  cases kind with
  | delimiter pair' found =>
      simp only [Token.relocate]
      split
      · exact ⟨rfl, hrest⟩
      · rfl
  | _ => rfl

theorem keyword_moved (hends : r.EndsAlike r') (word : Keyword) (h : Moved f tokens tokens') :
    Agree (Parsed.Moves f f) (r.keyword word tokens) (r'.keyword word tokens') := by
  refine Agree.bind (consume_moved hends _ _ h) ?_
  rintro ⟨⟨kind, p⟩, rest, hlt⟩ ⟨_, rest', hlt'⟩ ⟨rfl, hrest⟩
  cases kind with
  | keyword found =>
      simp only [Token.relocate]
      split
      · exact ⟨rfl, hrest⟩
      · rfl
  | _ => rfl

theorem name_moved (hends : r.EndsAlike r') (h : Moved f tokens tokens') :
    Agree (Parsed.Moves f (Name.relocate f)) (r.name tokens) (r'.name tokens') := by
  refine Agree.bind (consume_moved hends _ _ h) ?_
  rintro ⟨⟨kind, p⟩, rest, hlt⟩ ⟨_, rest', hlt'⟩ ⟨rfl, hrest⟩
  cases kind with
  | identifier name => exact ⟨rfl, hrest⟩
  | _ => rfl

mutual

theorem item_moved (hends : r.EndsAlike r') (inCall : Bool) (sofar : Gathered) {next next' : Lexed}
    {tokens tokens' : List Lexed} (hnext : next'.token = next.token.relocate f)
    (h : Moved f tokens tokens') :
    Agree (Parsed.Moves f (Gathered.relocate f)) (r.item inCall sofar next tokens)
      (r'.item inCall (sofar.relocate f) next' tokens') := by
  obtain ⟨⟨kind, p⟩, after⟩ := next
  obtain ⟨_, after'⟩ := next'
  obtain rfl := hnext
  have hsettle := settle_moved hends h
  rw [item, item]
  cases kind with
  | number x => exact hsettle.bind fun _ _ _ => ⟨rfl, h⟩
  | text content => exact hsettle.bind fun _ _ _ => ⟨rfl, h⟩
  | bool b => exact hsettle.bind fun _ _ _ => ⟨rfl, h⟩
  | identifier name => exact hsettle.bind fun _ _ _ => ⟨rfl, h⟩
  | operator op => exact hsettle.bind fun _ _ _ => ⟨rfl, h⟩
  | delimiter pair side =>
      cases pair with
      | parenthesis =>
          cases side with
          | opening =>
              apply hsettle.bind
              intro _ _ _
              obtain ⟨items, depth⟩ := sofar
              -- Only a variable in front makes the parenthesis open a call.
              cases items with
              | nil => exact ⟨rfl, h⟩
              | cons last items =>
                  cases last with
                  | operand e =>
                      cases e with
                      | var callee =>
                          apply (arguments_moved hends h).read
                          intro arguments rest rest' hlt hlt' hrest
                          exact ⟨rfl, hrest⟩
                      | _ => exact ⟨rfl, h⟩
                  | _ => exact ⟨rfl, h⟩
          | closing => exact hsettle.bind fun _ _ _ => ⟨rfl, h⟩
      | bracket =>
          cases side with
          | opening =>
              apply hsettle.bind
              intro _ _ _
              apply (indexInside_moved hends inCall h).read
              intro index rest rest' hlt hlt' hrest
              exact ⟨rfl, hrest⟩
          | closing => rfl
  | _ => rfl
termination_by 6 * tokens.length + 6

theorem gather_moved (hends : r.EndsAlike r') (inCall : Bool) (sofar : Gathered) {next next' : Lexed}
    {tokens tokens' : List Lexed} (hnext : next'.token = next.token.relocate f)
    (h : Moved f tokens tokens') :
    Agree (Parsed.Moves f (Gathered.relocate f)) (r.gather inCall sofar next tokens)
      (r'.gather inCall (sofar.relocate f) next' tokens') := by
  rw [gather, gather]
  apply (item_moved hends inCall sofar hnext h).read
  intro sofar rest rest' hlt hlt' hrest
  cases rest with
  | nil =>
      obtain rfl := hrest.eq_nil
      exact ⟨rfl, hrest⟩
  | cons next rest =>
      obtain ⟨next', rest', rfl, hnext, hrest⟩ := hrest.exists_of_cons
      simp only [kind_eq_of_relocate hnext, Gathered.relocate]
      split
      · exact ⟨rfl, hrest.cons hnext⟩
      · apply (gather_moved hends inCall sofar hnext hrest).read
        intro all rest rest' hlt hlt' hrest
        exact ⟨rfl, hrest⟩
termination_by 6 * tokens.length + 7
decreasing_by
  · omega
  · simp only [List.length_cons] at hlt
    omega

theorem expression_moved (hends : r.EndsAlike r') (inCall : Bool) {tokens tokens' : List Lexed}
    (h : Moved f tokens tokens') :
    Agree (Parsed.Moves f (Expr.relocate f)) (r.expression inCall tokens)
      (r'.expression inCall tokens') := by
  cases tokens with
  | nil =>
      rw [h.eq_nil, expression, expression]
      rfl
  | cons next tokens =>
      obtain ⟨next', rest', rfl, hnext, hrest⟩ := h.exists_of_cons
      rw [expression, expression]
      apply (gather_moved hends inCall ⟨[], 0⟩ hnext hrest).read
      intro all rest rest' hlt hlt' hrest
      simp only [Gathered.relocate, ← List.map_reverse]
      split
      · cases rest with
        | nil =>
            obtain rfl := hrest.eq_nil
            rfl
        | cons found rest =>
            obtain ⟨found', rest', rfl, hfound, hrest⟩ := hrest.exists_of_cons
            simp only [kind_eq_of_relocate hfound]
            rfl
      · refine Agree.bind (ofItems_moved all.items.reverse _ _) ?_
        rintro e _ rfl
        exact ⟨rfl, hrest⟩
termination_by 6 * tokens.length + 2

theorem indexInside_moved (hends : r.EndsAlike r') (inCall : Bool) {tokens tokens' : List Lexed}
    (h : Moved f tokens tokens') :
    Agree (Parsed.Moves f (Expr.relocate f)) (r.indexInside inCall tokens)
      (r'.indexInside inCall tokens') := by
  rw [indexInside, indexInside]
  apply (expression_moved hends inCall h).read
  intro index rest rest' hlt hlt' hrest
  apply (delimiter_moved hends .bracket .closing hrest).read
  intro p rest rest' hlt hlt' hrest
  exact ⟨rfl, hrest⟩
termination_by 6 * tokens.length + 3

theorem someArguments_moved (hends : r.EndsAlike r') {tokens tokens' : List Lexed}
    (h : Moved f tokens tokens') :
    Agree (Parsed.Moves f (Expr.relocateAll f)) (r.someArguments tokens)
      (r'.someArguments tokens') := by
  rw [someArguments, someArguments]
  apply (expression_moved hends true h).read
  intro first rest rest' hlt hlt' hrest
  cases rest with
  | nil =>
      obtain rfl := hrest.eq_nil
      rfl
  | cons next rest =>
      have hall := hrest
      obtain ⟨next', rest', rfl, hnext, hrest⟩ := hrest.exists_of_cons
      simp only [kind_eq_of_relocate hnext]
      split
      · exact Agree.bind (settle_moved hends hrest) fun _ _ _ => ⟨rfl, hrest⟩
      · apply (consume_moved hends .comma (.token .comma) hall).read
        intro comma rest rest' hlt hlt' hrest
        have hothers := someArguments_moved hends hrest
        cases rest with
        | nil =>
            obtain rfl := hrest.eq_nil
            refine Agree.bind hothers ?_
            rintro ⟨others, rest, hlt⟩ ⟨_, rest', hlt'⟩ ⟨rfl, hrest⟩
            exact ⟨rfl, hrest⟩
        | cons after rest =>
            obtain ⟨after', rest', rfl, hafter, hrest⟩ := hrest.exists_of_cons
            simp only [List.head?_cons, kind_eq_of_relocate hafter]
            split
            · rfl
            · refine Agree.bind hothers ?_
              rintro ⟨others, rest, hlt⟩ ⟨_, rest', hlt'⟩ ⟨rfl, hrest⟩
              exact ⟨rfl, hrest⟩
termination_by 6 * tokens.length + 3

theorem arguments_moved (hends : r.EndsAlike r') {tokens tokens' : List Lexed}
    (h : Moved f tokens tokens') :
    Agree (Parsed.Moves f (Expr.relocateAll f)) (r.arguments tokens) (r'.arguments tokens') := by
  cases tokens with
  | nil =>
      obtain rfl := h.eq_nil
      rw [arguments, arguments]
      exact someArguments_moved hends h
  | cons next rest =>
      have hall := h
      obtain ⟨next', rest', rfl, hnext, hrest⟩ := h.exists_of_cons
      rw [arguments, arguments, kind_eq_of_relocate hnext]
      split
      · exact Agree.bind (settle_moved hends hrest) fun _ _ _ => ⟨rfl, hrest⟩
      · exact someArguments_moved hends hall
termination_by 6 * tokens.length + 4

end

end Reading

end PolishPseudocode
