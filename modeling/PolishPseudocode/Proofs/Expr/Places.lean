import PolishPseudocode.Proofs.Expr.Relocation
import PolishPseudocode.Proofs.Token.Places

/-! The places of expressions. Every place in an expression that is read from tokens is one of a token, so there
is a character at it, and what is refused on the way is refused at a place of the source: at a token, one step
before the end of what was read, or where the text stops being tokens. -/

namespace PolishPseudocode

/-! ### Outcomes -/

/-- The value of an outcome has a property, or it is a refusal at a place of the source. -/
def Placed {α : Type} (source : Source) (property : α → Prop) : Except SyntaxError α → Prop
  | .ok a => property a
  | .error e => source.Shows e.position

namespace Placed

variable {α β : Type} {source : Source} {property : α → Prop} {property' : β → Prop}

theorem bind {first : Except SyntaxError α} {next : α → Except SyntaxError β} (h : Placed source property first)
    (hnext : ∀ a, property a → Placed source property' (next a)) : Placed source property' (first >>= next) := by
  cases first with
  | error e => exact h
  | ok a => exact hnext a h

theorem of_eq_error {outcome : Except SyntaxError α} {e : SyntaxError} (h : Placed source property outcome)
    (herror : outcome = .error e) : source.Shows e.position := by
  rw [herror] at h
  exact h

theorem of_eq_ok {outcome : Except SyntaxError α} {a : α} (h : Placed source property outcome)
    (hok : outcome = .ok a) : property a := by
  rw [hok] at h
  exact h

end Placed

/-! ### Expressions -/

namespace Expr

mutual

/-- There is a character at every place in an expression. -/
def Within (source : Source) : Expr → Prop
  | literal _ p => source.Has p
  | var name => source.Has name.position
  | unary _ operand p => operand.Within source ∧ source.Has p
  | binary left _ right p => left.Within source ∧ right.Within source ∧ source.Has p
  | index target i p => target.Within source ∧ i.Within source ∧ source.Has p
  | call callee arguments p => source.Has callee.position ∧ AllWithin source arguments ∧ source.Has p

def AllWithin (source : Source) : List Expr → Prop
  | [] => True
  | e :: es => e.Within source ∧ AllWithin source es

end

variable {source : Source}

theorem Within.position {e : Expr} (h : e.Within source) : source.Has e.position := by
  cases e with
  | literal value p => exact h
  | var name => exact h
  | unary op operand p => exact h.2
  | binary left op right p => exact h.2.2
  | index target index p => exact h.2.2
  | call callee arguments p => exact h.2.2

end Expr

def Term.Within (source : Source) : Term → Prop
  | operand e => e.Within source
  | operator _ p => source.Has p

def Node.Within (source : Source) : Node → Prop
  | operand e => e.Within source
  | operator _ p => source.Has p
  | index i p => i.Within source ∧ source.Has p

def Item.Within (source : Source) : Item → Prop
  | operand e => e.Within source
  | operator _ p => source.Has p
  | opening p => source.Has p
  | closing p => source.Has p
  | index i p => i.Within source ∧ source.Has p

theorem Term.Within.position {source : Source} {term : Term} (h : term.Within source) :
    source.Has term.position := by
  cases term with
  | operand e => exact Expr.Within.position h
  | operator op p => exact h

/-! ### Reduction -/

namespace Reduction

variable {source : Source}

theorem attachIndices_placed {done : List Term} {nodes : List Node} (hdone : ∀ term ∈ done, term.Within source)
    (hnodes : ∀ node ∈ nodes, node.Within source) :
    Placed source (fun terms => ∀ term ∈ terms, term.Within source) (attachIndices done nodes) := by
  fun_induction attachIndices done nodes with
  | case1 done => exact fun term hterm => hdone term (List.mem_reverse.1 hterm)
  | case2 done e rest ih =>
      obtain ⟨he, hrest⟩ := List.forall_mem_cons.1 hnodes
      exact ih (List.forall_mem_cons.2 ⟨he, hdone⟩) hrest
  | case3 done op p rest ih =>
      obtain ⟨hp, hrest⟩ := List.forall_mem_cons.1 hnodes
      exact ih (List.forall_mem_cons.2 ⟨hp, hdone⟩) hrest
  | case4 target done i p rest ih =>
      obtain ⟨⟨hi, hp⟩, hrest⟩ := List.forall_mem_cons.1 hnodes
      obtain ⟨htarget, hdone⟩ := List.forall_mem_cons.1 hdone
      exact ih (List.forall_mem_cons.2 ⟨⟨htarget, hi, hp⟩, hdone⟩) hrest
  | case5 done i p rest hnone =>
      obtain ⟨⟨-, hp⟩, -⟩ := List.forall_mem_cons.1 hnodes
      exact hp.shows

theorem negate_within {e : Expr} {p : Position} (he : e.Within source) (hp : source.Has p) :
    (negate e p).Within source := by
  rw [negate.eq_def]
  split
  · exact hp
  · exact ⟨he, hp⟩

theorem applyPrefix_placed {op : Operator} {applies : Option Term → Bool} {build : Expr → Position → Expr}
    (hbuild : ∀ e p, e.Within source → source.Has p → (build e p).Within source) (before : Option Term)
    {terms : List Term} (h : ∀ term ∈ terms, term.Within source) :
    Placed source (fun terms => ∀ term ∈ terms, term.Within source)
      (applyPrefix op applies build before terms) := by
  induction terms generalizing before with
  | nil => exact List.forall_mem_nil _
  | cons term rest ih =>
      obtain ⟨hterm, hrest⟩ := List.forall_mem_cons.1 h
      have hplaced := ih (some term) hrest
      rw [applyPrefix]
      cases hrest' : applyPrefix op applies build (some term) rest with
      | error e => exact hplaced.of_eq_error hrest'
      | ok rest' =>
          have hall := hplaced.of_eq_ok hrest'
          have hboth := List.forall_mem_cons.2 ⟨hterm, hall⟩
          cases term with
          | operand e => exact hboth
          | operator found p =>
              dsimp only
              split
              · split
                · rename_i e others
                  obtain ⟨he, hothers⟩ := List.forall_mem_cons.1 hall
                  exact List.forall_mem_cons.2 ⟨hbuild e p he hterm, hothers⟩
                · exact Source.Has.shows hterm
              · exact hboth

theorem joinTier_placed {tier : BinaryOp → Bool} {done terms : List Term}
    (hdone : ∀ term ∈ done, term.Within source) (hterms : ∀ term ∈ terms, term.Within source) :
    Placed source (fun terms => ∀ term ∈ terms, term.Within source) (joinTier tier done terms) := by
  fun_induction joinTier tier done terms with
  | case1 done => exact fun term hterm => hdone term (List.mem_reverse.1 hterm)
  | case2 done e rest ih =>
      obtain ⟨he, hrest⟩ := List.forall_mem_cons.1 hterms
      exact ih (List.forall_mem_cons.2 ⟨he, hdone⟩) hrest
  | case3 done p rest ih =>
      obtain ⟨hp, hrest⟩ := List.forall_mem_cons.1 hterms
      exact ih (List.forall_mem_cons.2 ⟨hp, hdone⟩) hrest
  | case4 op p hop left done right rest ih =>
      obtain ⟨hp, hterms⟩ := List.forall_mem_cons.1 hterms
      obtain ⟨hright, hrest⟩ := List.forall_mem_cons.1 hterms
      obtain ⟨hleft, hdone⟩ := List.forall_mem_cons.1 hdone
      exact ih (List.forall_mem_cons.2 ⟨⟨hleft, hright, hp⟩, hdone⟩) hrest
  | case5 done op p rest hop hmissing =>
      have hp := (List.forall_mem_cons.1 hterms).1
      exact Source.Has.shows hp
  | case6 done op p rest hop ih =>
      obtain ⟨hp, hrest⟩ := List.forall_mem_cons.1 hterms
      exact ih (List.forall_mem_cons.2 ⟨hp, hdone⟩) hrest

theorem misplacedVariable?_within {terms : List Term} (h : ∀ term ∈ terms, term.Within source) :
    ∀ name ∈ misplacedVariable? terms, source.Has name.position := by
  fun_induction misplacedVariable? terms with
  | case1 first name rest =>
      rintro name' ⟨⟩
      exact h (.operand (.var name)) (by simp)
  | case2 first second rest hsecond ih =>
      exact ih fun term hterm => h term (by simp [hterm])
  | case3 terms hvariable hterms =>
      intro name hname
      cases hname

theorem single_placed (hlines : 0 < source.lines.length) {terms : List Term}
    (h : ∀ term ∈ terms, term.Within source) :
    Placed source (Expr.Within source) (single terms) := by
  have hmisplaced := misplacedVariable?_within h
  fun_cases single terms with
  | case1 e => exact h _ (List.mem_singleton_self _)
  | case2 op p => exact Source.Has.shows (h _ (List.mem_singleton_self _))
  | case3 => exact ⟨hlines, Nat.zero_le _⟩
  | case4 first second rest name hname => exact (hmisplaced name hname).shows
  | case5 first second rest hname => exact (h second (by simp)).position.shows

theorem level_placed (hlines : 0 < source.lines.length) {nodes : List Node} {place : Position}
    (h : ∀ node ∈ nodes, node.Within source) (hplace : source.Has place) :
    Placed source (Expr.Within source) (level nodes place) := by
  rw [level]
  split
  · exact hplace.shows
  · have hnot (e : Expr) (p : Position) (he : e.Within source) (hp : source.Has p) :
        (Expr.unary .not e p).Within source := ⟨he, hp⟩
    refine (attachIndices_placed (List.forall_mem_nil _) h).bind fun terms h => ?_
    refine (applyPrefix_placed (fun _ _ => negate_within) none h).bind fun terms h => ?_
    refine (joinTier_placed (List.forall_mem_nil _) h).bind fun terms h => ?_
    refine (joinTier_placed (List.forall_mem_nil _) h).bind fun terms h => ?_
    refine (joinTier_placed (List.forall_mem_nil _) h).bind fun terms h => ?_
    refine (applyPrefix_placed hnot none h).bind fun terms h => ?_
    refine (joinTier_placed (List.forall_mem_nil _) h).bind fun terms h => ?_
    refine (joinTier_placed (List.forall_mem_nil _) h).bind fun terms h => ?_
    exact single_placed hlines h

theorem levels_placed (hlines : 0 < source.lines.length) {place : Position} (hplace : source.Has place)
    {suspended : List (Position × List Node)} {current : List Node} {items : List Item}
    (hsuspended : ∀ level ∈ suspended, source.Has level.1 ∧ ∀ node ∈ level.2, node.Within source)
    (hcurrent : ∀ node ∈ current, node.Within source) (hitems : ∀ item ∈ items, item.Within source) :
    Placed source (Expr.Within source) (levels place suspended current items) := by
  have hreverse {nodes : List Node} (h : ∀ node ∈ nodes, node.Within source) :
      ∀ node ∈ nodes.reverse, node.Within source := fun node hnode => h node (List.mem_reverse.1 hnode)
  fun_induction levels place suspended current items with
  | case1 current => exact level_placed hlines (hreverse hcurrent) hplace
  | case2 current opening outer suspended => exact (List.forall_mem_cons.1 hsuspended).1.1.shows
  | case3 suspended current e rest ih =>
      obtain ⟨he, hrest⟩ := List.forall_mem_cons.1 hitems
      exact ih hsuspended (List.forall_mem_cons.2 ⟨he, hcurrent⟩) hrest
  | case4 suspended current op p rest ih =>
      obtain ⟨hp, hrest⟩ := List.forall_mem_cons.1 hitems
      exact ih hsuspended (List.forall_mem_cons.2 ⟨hp, hcurrent⟩) hrest
  | case5 suspended current i p rest ih =>
      obtain ⟨hindex, hrest⟩ := List.forall_mem_cons.1 hitems
      exact ih hsuspended (List.forall_mem_cons.2 ⟨hindex, hcurrent⟩) hrest
  | case6 suspended current p rest ih =>
      obtain ⟨hp, hrest⟩ := List.forall_mem_cons.1 hitems
      exact ih (List.forall_mem_cons.2 ⟨⟨hp, hcurrent⟩, hsuspended⟩) (List.forall_mem_nil _) hrest
  | case7 current p rest =>
      have hp := (List.forall_mem_cons.1 hitems).1
      exact Source.Has.shows hp
  | case8 current p rest opening outer suspended e hlevel =>
      obtain ⟨⟨hopening, -⟩, -⟩ := List.forall_mem_cons.1 hsuspended
      exact (level_placed hlines (hreverse hcurrent) hopening).of_eq_error hlevel
  | case9 current p rest opening outer suspended e hlevel ih =>
      obtain ⟨⟨hopening, houter⟩, hsuspended⟩ := List.forall_mem_cons.1 hsuspended
      have he := (level_placed hlines (hreverse hcurrent) hopening).of_eq_ok hlevel
      exact ih hsuspended (List.forall_mem_cons.2 ⟨he, houter⟩) (List.forall_mem_cons.1 hitems).2

end Reduction

/-! ### Readers of expressions -/

def TokensWithin (source : Source) (tokens : List Lexed) : Prop :=
  ∀ t ∈ tokens, t.Within source

/-- What was read has a property, and what is left are tokens of the source. -/
def Parsed.Within {α : Type} {limit : Nat} (source : Source) (property : α → Prop) (p : Parsed α limit) : Prop :=
  property p.value ∧ TokensWithin source p.rest

/-- The next step goes on with what a reader has read and left. -/
theorem Placed.read {α β : Type} {limit : Nat} {source : Source} {property : α → Prop} {property' : β → Prop}
    {first : Except SyntaxError (Parsed α limit)} {next : Parsed α limit → Except SyntaxError β}
    (h : Placed source (Parsed.Within source property) first)
    (hnext : ∀ value rest hlt, property value → TokensWithin source rest →
      Placed source property' (next ⟨value, rest, hlt⟩)) :
    Placed source property' (first >>= next) :=
  h.bind fun p hp => hnext p.value p.rest p.rest_lt hp.1 hp.2

/-- A reading of a source: it has a line, and the tokens end in it. -/
structure Reading.Within (r : Reading) : Prop where
  lines : 0 < r.source.lines.length
  ending : r.ending.Within r.source

def Reading.Gathered.Within (source : Source) (sofar : Reading.Gathered) : Prop :=
  ∀ item ∈ sofar.items, item.Within source

namespace Reading

variable {r : Reading} (hr : r.Within) {tokens : List Lexed}

section

include hr

theorem shows_lastPlace (h : TokensWithin r.source tokens) : r.source.Shows (r.lastPlace tokens) := by
  refine Cursor.Within.shows_stepBack ?_ hr.lines
  have hending := hr.ending
  split
  · exact (List.forall_mem_cons.1 h).1.after
  · rename_i hcursor
    rw [hcursor] at hending
    exact hending
  · exact Cursor.start_within r.source

theorem settle_placed (tokens : List Lexed) : Placed r.source (fun _ => True) (r.settle tokens) := by
  have hending := hr.ending
  rw [settle.eq_def]
  split
  · rename_i hfailed
    rw [hfailed] at hending
    exact hending
  · trivial

theorem consume_placed (kind : Token.Class) (expected : Expected) (h : TokensWithin r.source tokens) :
    Placed r.source (Parsed.Within r.source fun token => r.source.Has token.position)
      (r.consume kind expected tokens) := by
  cases tokens with
  | nil => exact shows_lastPlace hr (List.forall_mem_nil _)
  | cons next rest =>
      obtain ⟨hnext, hrest⟩ := List.forall_mem_cons.1 h
      rw [consume]
      split
      · exact (settle_placed hr rest).bind fun _ _ => ⟨hnext.position, hrest⟩
      · exact hnext.position.shows

theorem delimiter_placed (pair : Delimiter) (side : Side) (h : TokensWithin r.source tokens) :
    Placed r.source (Parsed.Within r.source r.source.Has) (r.delimiter pair side tokens) := by
  apply (consume_placed hr _ _ h).read
  intro token rest hlt htoken hrest
  dsimp only
  split
  · split
    · exact ⟨htoken, hrest⟩
    · exact htoken.shows
  · exact htoken.shows

theorem keyword_placed (word : Keyword) (h : TokensWithin r.source tokens) :
    Placed r.source (Parsed.Within r.source r.source.Has) (r.keyword word tokens) := by
  apply (consume_placed hr _ _ h).read
  intro token rest hlt htoken hrest
  dsimp only
  split
  · split
    · exact ⟨htoken, hrest⟩
    · exact htoken.shows
  · exact htoken.shows

theorem name_placed (h : TokensWithin r.source tokens) :
    Placed r.source (Parsed.Within r.source fun name => r.source.Has name.position) (r.name tokens) := by
  apply (consume_placed hr _ _ h).read
  intro token rest hlt htoken hrest
  dsimp only
  split
  · exact ⟨htoken, hrest⟩
  · exact htoken.shows

end

mutual

theorem item_placed {r : Reading} (hr : r.Within) (inCall : Bool) {sofar : Gathered} {next : Lexed}
    {tokens : List Lexed} (hsofar : sofar.Within r.source) (hnext : next.Within r.source)
    (h : TokensWithin r.source tokens) :
    Placed r.source (Parsed.Within r.source (Gathered.Within r.source)) (r.item inCall sofar next tokens) := by
  have hplace := hnext.position
  have hsettle := settle_placed hr tokens
  have hadded (item : Item) (hitem : item.Within r.source) :
      ∀ other ∈ item :: sofar.items, other.Within r.source := List.forall_mem_cons.2 ⟨hitem, hsofar⟩
  rw [item]
  split
  · exact hsettle.bind fun _ _ => ⟨hadded (.operand (.literal _ _)) hplace, h⟩
  · exact hsettle.bind fun _ _ => ⟨hadded (.operand (.literal _ _)) hplace, h⟩
  · exact hsettle.bind fun _ _ => ⟨hadded (.operand (.literal _ _)) hplace, h⟩
  · exact hsettle.bind fun _ _ => ⟨hadded (.operand (.var _)) hplace, h⟩
  · exact hsettle.bind fun _ _ => ⟨hadded (.operator _ _) hplace, h⟩
  · refine hsettle.bind fun _ _ => ?_
    split
    · -- The variable that is called was gathered before its arguments.
      rename_i callee before hitems
      rw [Gathered.Within, hitems] at hsofar
      obtain ⟨hcallee, hbefore⟩ := List.forall_mem_cons.1 hsofar
      apply (arguments_placed hr h).read
      intro arguments rest hlt harguments hrest
      exact ⟨List.forall_mem_cons.2 ⟨⟨hcallee, harguments, hplace⟩, hbefore⟩, hrest⟩
    · exact ⟨hadded (.opening _) hplace, h⟩
  · exact hsettle.bind fun _ _ => ⟨hadded (.closing _) hplace, h⟩
  · refine hsettle.bind fun _ _ => ?_
    apply (indexInside_placed hr inCall h).read
    intro index rest hlt hindex hrest
    exact ⟨hadded (.index _ _) ⟨hindex, hplace⟩, hrest⟩
  · exact hplace.shows
  · exact hplace.shows
termination_by 6 * tokens.length + 6

theorem gather_placed {r : Reading} (hr : r.Within) (inCall : Bool) {sofar : Gathered} {next : Lexed}
    {tokens : List Lexed} (hsofar : sofar.Within r.source) (hnext : next.Within r.source)
    (h : TokensWithin r.source tokens) :
    Placed r.source (Parsed.Within r.source (Gathered.Within r.source)) (r.gather inCall sofar next tokens) := by
  rw [gather]
  apply (item_placed hr inCall hsofar hnext h).read
  intro sofar rest hlt hsofar hrest
  cases rest with
  | nil => exact ⟨hsofar, hrest⟩
  | cons next rest =>
      obtain ⟨hnext, hbehind⟩ := List.forall_mem_cons.1 hrest
      dsimp only
      split
      · exact ⟨hsofar, hrest⟩
      · exact (gather_placed hr inCall hsofar hnext hbehind).read fun all rest hlt hall hrest => ⟨hall, hrest⟩
termination_by 6 * tokens.length + 7
decreasing_by
  · omega
  · simp only [List.length_cons] at hlt
    omega

theorem expression_placed {r : Reading} (hr : r.Within) (inCall : Bool) {tokens : List Lexed}
    (h : TokensWithin r.source tokens) :
    Placed r.source (Parsed.Within r.source (Expr.Within r.source)) (r.expression inCall tokens) := by
  cases tokens with
  | nil =>
      rw [expression]
      exact shows_lastPlace hr h
  | cons next tokens =>
      obtain ⟨hnext, htokens⟩ := List.forall_mem_cons.1 h
      rw [expression]
      have hempty : Gathered.Within r.source ⟨[], 0⟩ := List.forall_mem_nil _
      apply (gather_placed hr inCall hempty hnext htokens).read
      intro all rest hlt hall hrest
      dsimp only
      split
      · split
        · exact shows_lastPlace hr (List.forall_mem_nil _)
        · exact (List.forall_mem_cons.1 hrest).1.position.shows
      · have hitems : ∀ item ∈ all.items.reverse, item.Within r.source :=
          fun item hitem => hall item (List.mem_reverse.1 hitem)
        have hreduced := Reduction.levels_placed hr.lines hnext.position (List.forall_mem_nil _)
          (List.forall_mem_nil _) hitems
        exact hreduced.bind fun e he => ⟨he, hrest⟩
termination_by 6 * tokens.length + 2

theorem indexInside_placed {r : Reading} (hr : r.Within) (inCall : Bool) {tokens : List Lexed}
    (h : TokensWithin r.source tokens) :
    Placed r.source (Parsed.Within r.source (Expr.Within r.source)) (r.indexInside inCall tokens) := by
  rw [indexInside]
  apply (expression_placed hr inCall h).read
  intro index rest hlt hindex hrest
  exact (delimiter_placed hr .bracket .closing hrest).read fun _ rest hlt _ hrest => ⟨hindex, hrest⟩
termination_by 6 * tokens.length + 3

theorem someArguments_placed {r : Reading} (hr : r.Within) {tokens : List Lexed}
    (h : TokensWithin r.source tokens) :
    Placed r.source (Parsed.Within r.source (Expr.AllWithin r.source)) (r.someArguments tokens) := by
  rw [someArguments]
  apply (expression_placed hr true h).read
  intro first rest hlt hfirst hrest
  cases rest with
  | nil => exact shows_lastPlace hr (List.forall_mem_nil _)
  | cons next rest =>
      obtain ⟨hnext, hbehind⟩ := List.forall_mem_cons.1 hrest
      dsimp only
      split
      · exact (settle_placed hr rest).bind fun _ _ => ⟨⟨hfirst, trivial⟩, hbehind⟩
      · apply (consume_placed hr .comma (.token .comma) hrest).read
        intro _ rest' hlt' _ hrest'
        have hothers := someArguments_placed hr hrest'
        cases rest' with
        | nil => exact hothers.read fun others rest hlt hothers hrest => ⟨⟨hfirst, hothers⟩, hrest⟩
        | cons after rest' =>
            dsimp only [List.head?_cons]
            split
            · exact (List.forall_mem_cons.1 hrest').1.position.shows
            · exact hothers.read fun others rest hlt hothers hrest => ⟨⟨hfirst, hothers⟩, hrest⟩
termination_by 6 * tokens.length + 3

theorem arguments_placed {r : Reading} (hr : r.Within) {tokens : List Lexed} (h : TokensWithin r.source tokens) :
    Placed r.source (Parsed.Within r.source (Expr.AllWithin r.source)) (r.arguments tokens) := by
  cases tokens with
  | nil =>
      rw [arguments]
      exact someArguments_placed hr h
  | cons next rest =>
      rw [arguments]
      split
      · exact (settle_placed hr rest).bind fun _ _ => ⟨trivial, (List.forall_mem_cons.1 h).2⟩
      · exact someArguments_placed hr h
termination_by 6 * tokens.length + 4

end

end Reading

end PolishPseudocode
