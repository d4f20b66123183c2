import PolishPseudocode.Proofs.Expr.Acceptance
import PolishPseudocode.Proofs.Expr.Relocation
import PolishPseudocode.Proofs.Program.Printer

/-! Reading a printed expression back. Its items, with every operation in parentheses of its own, derive the
expression itself, and the reader gathers just these items: a parenthesis is the start of arguments only
behind the name of a call, and an expression ends where its text does. -/

namespace PolishPseudocode

variable {numeral : Float → Numeral}

/-! ### Looser nonterminals -/

/-- The nonterminals from the tightest to the loosest. -/
def Tier.ofRank : Nat → Tier
  | 0 => .primary
  | 1 => .indexed
  | 2 => .signed
  | 3 => .binary .product
  | 4 => .binary .sum
  | 5 => .binary .comparison
  | 6 => .negated
  | 7 => .binary .conjunction
  | _ => .binary .disjunction

theorem Tier.ofRank_rank (t : Tier) : Tier.ofRank t.rank = t := by
  cases t with
  | binary t => cases t <;> rfl
  | _ => rfl

namespace Derives

variable {items : List Item} {e : Expr}

theorem next {rank : Nat} (h : Derives (.ofRank rank) items e) : Derives (.ofRank (rank + 1)) items e := by
  match rank with
  | 0 => exact indexed h
  | 1 => exact unsigned h
  | 2 => exact chain (t := .product) h
  | 3 => exact chain (t := .sum) h
  | 4 => exact chain (t := .comparison) h
  | 5 => exact compared h
  | 6 => exact chain (t := .conjunction) h
  | 7 => exact chain (t := .disjunction) h
  | _ + 8 => exact h

/-- A phrase is a phrase of every looser nonterminal. -/
theorem loosen {t t' : Tier} (h : Derives t items e) (hle : t.rank ≤ t'.rank) : Derives t' items e := by
  rw [← t.ofRank_rank] at h
  rw [← t'.ofRank_rank]
  generalize t'.rank = rank at hle
  induction hle with
  | refl => exact h
  | step hle ih => exact ih.next

theorem loosest {t : Tier} (h : Derives t items e) : Derives (.binary .disjunction) items e := by
  apply h.loosen
  cases t with
  | binary t => cases t <;> decide
  | _ => decide

end Derives

/-! ### The items of a printed expression -/

def noPlace : Position :=
  ⟨0, 0⟩

def Item.grouped (items : List Item) : List Item :=
  .opening noPlace :: (items ++ [.closing noPlace])

def Literal.items (numeral : Float → Numeral) : Literal → List Item
  | number x =>
      let magnitude := Item.operand (.literal (.number (numeral x).value) noPlace)
      if isNegative x then Item.grouped [.operator (.binary .sub) noPlace, magnitude] else [magnitude]
  | v => [.operand (.literal v noPlace)]

def Expr.items (numeral : Float → Numeral) : Expr → List Item
  | .literal v _ => v.items numeral
  | .var name => [.operand (.var (name.relocate nowhere))]
  | .unary .not e _ => Item.grouped (.operator .not noPlace :: e.items numeral)
  | .unary .negate e _ => Item.grouped (.operator (.binary .sub) noPlace :: e.items numeral)
  | .binary left op right _ =>
      Item.grouped (left.items numeral ++ .operator (.binary op) noPlace :: right.items numeral)
  | .index target i _ => target.items numeral ++ [.index (i.relocate nowhere) noPlace]
  | .call callee arguments p => [.operand ((Expr.call callee arguments p).relocate nowhere)]

theorem Derives.operand (e : Expr) : Derives .indexed [.operand e] e :=
  Derives.indexed ⟨.operand e, rfl, rfl⟩

theorem Literal.derives (v : Literal) (h : v.wellFormed numeral = true) :
    Derives .indexed (v.items numeral) (.literal v noPlace) := by
  cases v with
  | number x =>
      rw [Literal.wellFormed, Bool.and_eq_true, decide_eq_true_eq, readBack] at h
      obtain ⟨-, hback⟩ := h
      rw [Literal.items]
      split at hback
      · rename_i hnegative
        have hminus := (Derives.operand (.literal (.number (numeral x).value) noPlace)).unsigned.minus noPlace
        rw [Reduction.negate, hback] at hminus
        rw [if_pos hnegative]
        exact (hminus.loosest.group noPlace noPlace).indexed
      · rename_i hpositive
        rw [if_neg hpositive, hback]
        exact Derives.operand _
  | text content => exact Derives.operand _
  | bool b => exact Derives.operand _

theorem Reduction.negate_of_not_isNumber {e : Expr} (h : e.isNumber = false) (p : Position) :
    Reduction.negate (e.relocate nowhere) p = .unary .negate (e.relocate nowhere) p := by
  unfold Expr.isNumber at h
  split at h
  · cases h
  · rename_i hnumber
    cases e with
    | literal v q =>
        cases v with
        | number x => exact absurd rfl (hnumber x q)
        | text content => rfl
        | bool b => rfl
    | _ => rfl

/-- The items of an expression derive it. -/
theorem Expr.derives (e : Expr) (h : e.wellFormed numeral = true) :
    Derives .indexed (e.items numeral) (e.relocate nowhere) := by
  induction e using Expr.inductionOn with
  | literal v p => exact v.derives h
  | var name => exact Derives.operand _
  | unary op e p ih =>
      cases op with
      | not =>
          have hnot := ((ih h).loosen (by decide)).not noPlace
          exact (hnot.loosest.group noPlace noPlace).indexed
      | negate =>
          rw [Expr.wellFormed, Bool.and_eq_true, Bool.not_eq_true'] at h
          have hminus := (ih h.2).unsigned.minus noPlace
          rw [Reduction.negate_of_not_isNumber h.1] at hminus
          exact (hminus.loosest.group noPlace noPlace).indexed
  | binary left op right p ihleft ihright =>
      rw [Expr.wellFormed, Bool.and_eq_true] at h
      have hrank : Tier.indexed.rank ≤ op.tier.operand.rank := by cases op <;> decide
      have hleft : Derives (.binary op.tier) _ _ := ((ihleft h.1).loosen hrank).chain
      have hjoin := hleft.join rfl ((ihright h.2).loosen hrank) noPlace
      exact (hjoin.loosest.group noPlace noPlace).indexed
  | index target i p ihtarget ihindex =>
      rw [Expr.wellFormed, Bool.and_eq_true] at h
      exact (ihtarget h.1).index (i.relocate nowhere) noPlace
  | call callee arguments p ih => exact Derives.operand _

theorem Expr.ofItems_items (e : Expr) (h : e.wellFormed numeral = true) (place : Position) :
    Expr.ofItems (e.items numeral) place = .ok (e.relocate nowhere) := by
  obtain ⟨phrase, hitems, hexpr⟩ := (e.derives h).loosest
  rw [← hitems, ← hexpr]
  exact phrase.ofItems_items place

/-! ### Gathering the items -/

/-- Tokens of these kinds that are nowhere. -/
def bareTokens (kinds : List Token.Kind) : List Lexed :=
  kinds.map fun kind => ⟨⟨kind, noPlace⟩, .start⟩

/-- A reader succeeds with a value and leaves tokens of these kinds. -/
def Reads {α : Type} {limit : Nat} (outcome : Except SyntaxError (Parsed α limit)) (value : α)
    (kinds : List Token.Kind) : Prop :=
  Yields (fun p => p.value = value ∧ p.rest = bareTokens kinds) outcome

/-- The next step goes on with what a reader has left. -/
theorem Reads.bind {α β : Type} {limit : Nat} {value : α} {kinds : List Token.Kind} {property : β → Prop}
    {first : Except SyntaxError (Parsed α limit)} {next : Parsed α limit → Except SyntaxError β}
    (h : Reads first value kinds)
    (hnext : ∀ hlt, Yields property (next ⟨value, bareTokens kinds, hlt⟩)) :
    Yields property (first >>= next) := by
  refine Yields.bind h ?_
  rintro ⟨_, _, hlt⟩ ⟨rfl, rfl⟩
  exact hnext hlt

theorem Reads.bind_cons {α β : Type} {limit : Nat} {value : α} {kind : Token.Kind} {kinds : List Token.Kind}
    {property : β → Prop} {first : Except SyntaxError (Parsed α limit)}
    {next : Parsed α limit → Except SyntaxError β} (h : Reads first value (kind :: kinds))
    (hnext : ∀ hlt, Yields property (next ⟨value, ⟨⟨kind, noPlace⟩, .start⟩ :: bareTokens kinds, hlt⟩)) :
    Yields property (first >>= next) :=
  h.bind hnext

namespace Reading

/-- The loop that gathers items goes on from what it has, through tokens of these kinds, to all the items of
the expression and the tokens behind it. -/
inductive Gathering (r : Reading) (inCall : Bool) :
    Gathered → List Token.Kind → Gathered → List Token.Kind → Prop where
  | done {sofar : Gathered} {kinds : List Token.Kind}
      (hends : ∀ kind ∈ kinds.head?, endsExpression inCall sofar.depth kind = true) :
      Gathering r inCall sofar kinds sofar kinds
  | item {sofar sofar' all : Gathered} {kind : Token.Kind} {kinds kinds' left : List Token.Kind}
      (hgoes : endsExpression inCall sofar.depth kind = false)
      (hitem : Reads (r.item inCall sofar ⟨⟨kind, noPlace⟩, .start⟩ (bareTokens kinds)) sofar' kinds')
      (hrest : Gathering r inCall sofar' kinds' all left) : Gathering r inCall sofar (kind :: kinds) all left

/-- What is gathered from the first token on. -/
theorem Gathering.gather {r : Reading} {inCall : Bool} {sofar all : Gathered} {kind : Token.Kind}
    {kinds left : List Token.Kind} (h : Gathering r inCall sofar (kind :: kinds) all left)
    (hgoes : endsExpression inCall sofar.depth kind = false) :
    Reads (r.gather inCall sofar ⟨⟨kind, noPlace⟩, .start⟩ (bareTokens kinds)) all left := by
  generalize hkinds : kind :: kinds = ahead at h
  induction h generalizing kind kinds with
  | done hends =>
      subst hkinds
      rw [hends kind rfl] at hgoes
      cases hgoes
  | @item sofar sofar' all kind' kinds₁ kinds' left hgoes' hitem hrest ih =>
      obtain ⟨rfl, rfl⟩ := List.cons.inj hkinds
      rw [Reading.gather]
      cases kinds' with
      | nil =>
          cases hrest
          exact hitem.bind fun hlt => ⟨rfl, rfl⟩
      | cons next kinds' =>
          apply hitem.bind_cons
          intro hlt
          dsimp only
          split
          · rename_i hends
            cases hrest with
            | done => exact ⟨rfl, rfl⟩
            | item hgoes'' =>
                rw [hends] at hgoes''
                cases hgoes''
          · rename_i hnext
            have hnext := Bool.eq_false_iff.2 hnext
            exact (ih hnext rfl).bind fun hlt' => ⟨rfl, rfl⟩

/-- An operand can follow: no parenthesis was closed too many, and a parenthesis would not start the arguments
of a call. -/
def Gathered.AwaitsOperand (sofar : Gathered) : Prop :=
  0 ≤ sofar.depth ∧ ∀ name, sofar.items.head? ≠ some (.operand (.var name))

/-- Where an operand can follow, tokens of these kinds are gathered as these items. -/
def Gathers (r : Reading) (inCall : Bool) (kinds : List Token.Kind) (items : List Item) : Prop :=
  ∀ ⦃sofar all : Gathered⦄ ⦃rest left : List Token.Kind⦄, sofar.AwaitsOperand →
    Gathering r inCall ⟨items.reverse ++ sofar.items, sofar.depth⟩ rest all left →
    Gathering r inCall sofar (kinds ++ rest) all left

/-- The item of a token that is an item in itself. -/
def leaf? : Token.Kind → Option Item
  | .number x => some (.operand (.literal (.number x) noPlace))
  | .text content => some (.operand (.literal (.text content) noPlace))
  | .bool b => some (.operand (.literal (.bool b) noPlace))
  | .identifier name => some (.operand (.var ⟨name, noPlace⟩))
  | .operator op => some (.operator op noPlace)
  | _ => none

section Gathering

variable {r : Reading} {inCall : Bool} {sofar all : Gathered} {rest left kinds kinds' : List Token.Kind}
  {items items' : List Item}

theorem Gathering.leaf (hr : r.Settles) {kind : Token.Kind} {item : Item} (hkind : leaf? kind = some item)
    (h : Gathering r inCall ⟨item :: sofar.items, sofar.depth⟩ rest all left) :
    Gathering r inCall sofar (kind :: rest) all left := by
  unfold leaf? at hkind
  split at hkind
  case h_6 => cases hkind
  all_goals
    obtain rfl := Option.some.inj hkind
    refine .item rfl ?_ h
    rw [Reading.item]
    exact .step (hr _) ⟨rfl, rfl⟩

theorem Gathering.opening (hr : r.Settles) (hsofar : sofar.AwaitsOperand)
    (h : Gathering r inCall ⟨.opening noPlace :: sofar.items, sofar.depth + 1⟩ rest all left) :
    Gathering r inCall sofar (.delimiter .parenthesis .opening :: rest) all left := by
  refine .item rfl ?_ h
  rw [Reading.item]
  apply Yields.step (hr _)
  dsimp only
  split
  · rename_i callee before hitems
    exact absurd (congrArg List.head? hitems) (hsofar.2 callee)
  · exact ⟨rfl, rfl⟩

theorem Gathering.closing (hr : r.Settles) (hdepth : 0 < sofar.depth)
    (h : Gathering r inCall ⟨.closing noPlace :: sofar.items, sofar.depth - 1⟩ rest all left) :
    Gathering r inCall sofar (.delimiter .parenthesis .closing :: rest) all left := by
  have hopen : (sofar.depth == 0) = false := by
    rw [beq_eq_false_iff_ne]
    omega
  refine .item ?_ ?_ h
  · rw [endsExpression, hopen, Bool.and_false]
  · rw [Reading.item]
    exact .step (hr _) ⟨rfl, rfl⟩

theorem Gathering.index (hr : r.Settles) {i : Expr}
    (hindex : Reads (r.indexInside inCall (bareTokens kinds)) i rest)
    (h : Gathering r inCall ⟨.index i noPlace :: sofar.items, sofar.depth⟩ rest all left) :
    Gathering r inCall sofar (.delimiter .bracket .opening :: kinds) all left := by
  refine .item rfl ?_ h
  rw [Reading.item]
  apply Yields.step (hr _)
  exact hindex.bind fun hlt => ⟨rfl, rfl⟩

/-- A parenthesis behind a name. -/
theorem Gathering.call (hr : r.Settles) {callee : Name} {arguments : List Expr} {before : List Item}
    {depth : Int}
    (harguments : Reads (r.arguments (bareTokens kinds)) arguments rest)
    (h : Gathering r inCall ⟨.operand (.call callee arguments noPlace) :: before, depth⟩ rest all left) :
    Gathering r inCall ⟨.operand (.var callee) :: before, depth⟩ (.delimiter .parenthesis .opening :: kinds)
      all left := by
  refine .item rfl ?_ h
  rw [Reading.item]
  apply Yields.step (hr _)
  exact harguments.bind fun hlt => ⟨rfl, rfl⟩

theorem Gathers.leaf (hr : r.Settles) {kind : Token.Kind} {item : Item} (hkind : leaf? kind = some item) :
    Gathers r inCall [kind] [item] := by
  intro sofar all rest left _ h
  exact .leaf hr hkind h

/-- An operator in front of its operand. -/
theorem Gathers.operator (hr : r.Settles) (op : Operator) (h : Gathers r inCall kinds items) :
    Gathers r inCall (.operator op :: kinds) (.operator op noPlace :: items) := by
  intro sofar all rest left hsofar hrest
  refine .leaf hr rfl (h ⟨hsofar.1, by simp⟩ ?_)
  rw [List.reverse_cons, List.append_assoc] at hrest
  exact hrest

/-- What follows an operand does not depend on what stood before it. -/
theorem Gathers.join (hr : r.Settles) (op : Operator) (h : Gathers r inCall kinds items)
    (h' : Gathers r inCall kinds' items') :
    Gathers r inCall (kinds ++ .operator op :: kinds') (items ++ .operator op noPlace :: items') := by
  intro sofar all rest left hsofar hrest
  rw [List.append_assoc]
  refine h hsofar (.leaf hr rfl (h' ⟨hsofar.1, by simp⟩ ?_))
  rw [List.reverse_append, List.reverse_cons, List.append_assoc, List.append_assoc] at hrest
  exact hrest

theorem Gathers.group (hr : r.Settles) (h : Gathers r inCall kinds items) :
    Gathers r inCall (.delimiter .parenthesis .opening :: (kinds ++ [.delimiter .parenthesis .closing]))
      (Item.grouped items) := by
  intro sofar all rest left hsofar hrest
  have hdepth := hsofar.1
  rw [List.cons_append, List.append_assoc]
  refine .opening hr hsofar (h ⟨by dsimp only; omega, by simp⟩ (.closing hr (by dsimp only; omega) ?_))
  rw [Item.grouped, List.reverse_cons, List.reverse_append, List.append_assoc, List.append_assoc] at hrest
  dsimp only
  rw [Int.add_sub_cancel]
  exact hrest

theorem Gathers.index (hr : r.Settles) {i : Expr} (h : Gathers r inCall kinds items)
    (hindex : ∀ rest, Reads (r.indexInside inCall (bareTokens (kinds' ++ rest))) i rest) :
    Gathers r inCall (kinds ++ .delimiter .bracket .opening :: kinds') (items ++ [.index i noPlace]) := by
  intro sofar all rest left hsofar hrest
  rw [List.append_assoc]
  refine h hsofar (.index hr (hindex rest) ?_)
  rw [List.reverse_append] at hrest
  exact hrest

theorem Gathers.call (hr : r.Settles) {name : String} {arguments : List Expr}
    (harguments : ∀ rest, Reads (r.arguments (bareTokens (kinds ++ rest))) arguments rest) :
    Gathers r inCall (.identifier name :: .delimiter .parenthesis .opening :: kinds)
      [.operand (.call ⟨name, noPlace⟩ arguments noPlace)] := by
  intro sofar all rest left hsofar hrest
  exact .leaf hr rfl (.call hr (harguments rest) hrest)

end Gathering

/-! ### Single tokens -/

section Tokens

variable {r : Reading} {kinds : List Token.Kind}

theorem consume_reads (hr : r.Settles) {kind : Token.Kind} {kindClass : Token.Class} (expected : Expected)
    (hkind : kind.class = kindClass) :
    Reads (r.consume kindClass expected (bareTokens (kind :: kinds))) ⟨kind, noPlace⟩ kinds := by
  have hnext : kind.class = kindClass := hkind
  change Reads (r.consume _ _ (⟨⟨kind, noPlace⟩, .start⟩ :: bareTokens kinds)) _ _
  rw [consume, if_pos hnext]
  exact .step (hr _) ⟨rfl, rfl⟩

theorem delimiter_reads (hr : r.Settles) (pair : Delimiter) (side : Side) :
    Reads (r.delimiter pair side (bareTokens (.delimiter pair side :: kinds))) noPlace kinds := by
  apply (consume_reads hr (.delimiter pair side) rfl).bind
  intro hlt
  dsimp only
  rw [if_pos rfl]
  exact ⟨rfl, rfl⟩

theorem keyword_reads (hr : r.Settles) (word : Keyword) :
    Reads (r.keyword word (bareTokens (.keyword word :: kinds))) noPlace kinds := by
  apply (consume_reads hr (.keyword word) rfl).bind
  intro hlt
  dsimp only
  rw [if_pos rfl]
  exact ⟨rfl, rfl⟩

theorem name_reads (hr : r.Settles) (name : String) :
    Reads (r.name (bareTokens (.identifier name :: kinds))) ⟨name, noPlace⟩ kinds :=
  (consume_reads hr (.token .identifier) rfl).bind fun _ => ⟨rfl, rfl⟩

end Tokens

end Reading

/-! ### Whole expressions -/

/-- The first token of an expression ends none. -/
theorem Expr.exists_kinds_eq_cons (numeral : Float → Numeral) (e : Expr) :
    ∃ kind kinds, e.kinds numeral = kind :: kinds
      ∧ ∀ inCall depth, Reading.endsExpression inCall depth kind = false := by
  induction e using Expr.inductionOn with
  | literal v p =>
      cases v with
      | number x =>
          rw [Expr.kinds, Literal.kinds]
          split <;> exact ⟨_, _, rfl, fun _ _ => rfl⟩
      | text content => exact ⟨_, _, rfl, fun _ _ => rfl⟩
      | bool b => exact ⟨_, _, rfl, fun _ _ => rfl⟩
  | var name => exact ⟨_, _, rfl, fun _ _ => rfl⟩
  | unary op e p ih =>
      cases op with
      | not => exact ⟨_, _, rfl, fun _ _ => rfl⟩
      | negate => exact ⟨_, _, rfl, fun _ _ => rfl⟩
  | binary left op right p ihleft ihright => exact ⟨_, _, rfl, fun _ _ => rfl⟩
  | index target i p ihtarget ihindex =>
      obtain ⟨kind, kinds, hkinds, hgoes⟩ := ihtarget
      rw [Expr.kinds, hkinds]
      exact ⟨_, _, rfl, hgoes⟩
  | call callee arguments p ih => exact ⟨_, _, rfl, fun _ _ => rfl⟩

theorem Expr.kindsAll_cons_cons (numeral : Float → Numeral) (e e' : Expr) (es : List Expr) :
    Expr.kindsAll numeral (e :: e' :: es)
      = e.kinds numeral ++ .comma :: Expr.kindsAll numeral (e' :: es) := by
  rw [Expr.kindsAll]
  simp

theorem Expr.exists_kindsAll_eq_cons (numeral : Float → Numeral) (e : Expr) (es : List Expr) :
    ∃ kind kinds, Expr.kindsAll numeral (e :: es) = kind :: kinds
      ∧ ∀ inCall depth, Reading.endsExpression inCall depth kind = false := by
  obtain ⟨kind, kinds, hkinds, hgoes⟩ := e.exists_kinds_eq_cons numeral
  cases es with
  | nil => exact ⟨kind, kinds, hkinds, hgoes⟩
  | cons e' es =>
      rw [kindsAll_cons_cons, hkinds]
      exact ⟨kind, _, rfl, hgoes⟩

namespace Reading

variable {r : Reading} {inCall : Bool} {rest : List Token.Kind}

/-- An expression whose items are gathered is read up to a token that ends it. -/
theorem Gathers.expression {e : Expr} (h : Gathers r inCall (e.kinds numeral) (e.items numeral))
    (hwell : e.wellFormed numeral = true)
    (hends : ∀ kind ∈ rest.head?, endsExpression inCall 0 kind = true) :
    Reads (r.expression inCall (bareTokens (e.kinds numeral ++ rest))) (e.relocate nowhere) rest := by
  obtain ⟨kind, kinds, hkinds, hgoes⟩ := e.exists_kinds_eq_cons numeral
  have hall : Gathering r inCall ⟨[], 0⟩ (e.kinds numeral ++ rest) ⟨(e.items numeral).reverse, 0⟩ rest := by
    refine h ⟨Int.le_refl 0, by simp⟩ ?_
    rw [List.append_nil]
    exact .done hends
  rw [hkinds, List.cons_append] at hall ⊢
  change Reads (r.expression inCall (⟨⟨kind, noPlace⟩, .start⟩ :: bareTokens (kinds ++ rest))) _ _
  rw [Reading.expression]
  apply (hall.gather (hgoes inCall 0)).bind
  intro hlt
  dsimp only
  rw [if_neg (Int.lt_irrefl 0), List.reverse_reverse, e.ofItems_items hwell]
  exact ⟨rfl, rfl⟩

/-- An expression that is read as it was printed, wherever its first token may stand and whatever ends it. -/
def ReadsBack (r : Reading) (numeral : Float → Numeral) (e : Expr) : Prop :=
  ∀ ⦃inCall : Bool⦄ ⦃rest : List Token.Kind⦄, (∀ kind ∈ rest.head?, endsExpression inCall 0 kind = true) →
    Reads (r.expression inCall (bareTokens (e.kinds numeral ++ rest))) (e.relocate nowhere) rest

theorem indexInside_reads (hr : r.Settles) {i : Expr} (h : ReadsBack r numeral i) :
    Reads (r.indexInside inCall (bareTokens (i.kinds numeral ++ [.delimiter .bracket .closing] ++ rest)))
      (i.relocate nowhere) rest := by
  rw [List.append_assoc, indexInside]
  apply (h (by rintro _ ⟨⟩; rfl)).bind
  intro hlt
  exact (delimiter_reads hr .bracket .closing).bind fun hlt' => ⟨rfl, rfl⟩

theorem someArguments_reads (hr : r.Settles) {e : Expr} {es : List Expr}
    (h : ∀ e' ∈ e :: es, ReadsBack r numeral e') :
    Reads (r.someArguments
      (bareTokens (Expr.kindsAll numeral (e :: es) ++ [.delimiter .parenthesis .closing] ++ rest)))
      (Expr.relocateAll nowhere (e :: es)) rest := by
  rw [List.append_assoc]
  induction es generalizing e with
  | nil =>
      have he := h e (List.mem_singleton_self e)
      rw [someArguments]
      apply (he (by rintro _ ⟨⟩; rfl)).bind_cons
      intro hlt
      dsimp only
      rw [if_pos rfl]
      exact .step (hr _) ⟨rfl, rfl⟩
  | cons e' es ih =>
      obtain ⟨he, hes⟩ := List.forall_mem_cons.1 h
      obtain ⟨kind, kinds, hkinds, hgoes⟩ := Expr.exists_kindsAll_eq_cons numeral e' es
      have hothers := ih hes
      rw [hkinds, List.cons_append] at hothers
      rw [Expr.kindsAll_cons_cons, hkinds, List.append_assoc, List.cons_append, List.cons_append,
        someArguments]
      apply (he (by rintro _ ⟨⟩; rfl)).bind_cons
      intro hlt
      dsimp only
      rw [if_neg (by simp)]
      apply (consume_reads hr (.token .comma) rfl).bind_cons
      intro hlt'
      -- No parenthesis follows the comma, or there would be no argument.
      have hargument : kind ≠ .delimiter .parenthesis .closing := by
        rintro rfl
        exact absurd (hgoes true 0) (by decide)
      dsimp only [List.head?_cons]
      rw [if_neg hargument]
      exact hothers.bind fun hlt'' => ⟨rfl, rfl⟩

theorem arguments_reads (hr : r.Settles) {es : List Expr} (h : ∀ e ∈ es, ReadsBack r numeral e) :
    Reads (r.arguments (bareTokens (Expr.kindsAll numeral es ++ [.delimiter .parenthesis .closing] ++ rest)))
      (Expr.relocateAll nowhere es) rest := by
  cases es with
  | nil =>
      change Reads (r.arguments (⟨⟨.delimiter .parenthesis .closing, noPlace⟩, .start⟩ :: bareTokens rest))
        _ _
      rw [arguments, if_pos rfl]
      exact .step (hr _) ⟨rfl, rfl⟩
  | cons e es =>
      have hsome : Reads (r.someArguments (bareTokens (_ ++ rest))) _ _ := someArguments_reads hr h
      obtain ⟨kind, kinds, hkinds, hgoes⟩ := Expr.exists_kindsAll_eq_cons numeral e es
      have hargument : kind ≠ .delimiter .parenthesis .closing := by
        rintro rfl
        exact absurd (hgoes true 0) (by decide)
      rw [hkinds] at hsome ⊢
      change Reads (r.arguments (⟨⟨kind, noPlace⟩, .start⟩ :: _)) _ _
      rw [arguments, if_neg hargument]
      exact hsome

theorem Gathers.literal (hr : r.Settles) (v : Literal) :
    Gathers r inCall (v.kinds numeral) (v.items numeral) := by
  cases v with
  | number x =>
      rw [Literal.kinds, Literal.items]
      split
      · exact Gathers.group hr (Gathers.operator hr (.binary .sub) (Gathers.leaf hr rfl))
      · exact Gathers.leaf hr rfl
  | text content => exact Gathers.leaf hr rfl
  | bool b => exact Gathers.leaf hr rfl

/-- The text of an expression is gathered as its items. -/
theorem gathers_kinds (hr : r.Settles) (e : Expr) (h : e.wellFormed numeral = true) :
    Gathers r inCall (e.kinds numeral) (e.items numeral) := by
  induction e using Expr.inductionOn generalizing inCall with
  | literal v p => exact Gathers.literal hr v
  | var name => exact Gathers.leaf hr rfl
  | unary op e p ih =>
      cases op with
      | not => exact Gathers.group hr (Gathers.operator hr .not (ih h))
      | negate =>
          rw [Expr.wellFormed, Bool.and_eq_true] at h
          exact Gathers.group hr (Gathers.operator hr (.binary .sub) (ih h.2))
  | binary left op right p ihleft ihright =>
      rw [Expr.wellFormed, Bool.and_eq_true] at h
      have hjoin : Gathers r inCall _ _ := Gathers.join hr (.binary op) (ihleft h.1) (ihright h.2)
      have hgroup := Gathers.group hr hjoin
      rw [List.append_assoc, List.cons_append] at hgroup
      exact hgroup
  | index target i p ihtarget ihindex =>
      rw [Expr.wellFormed, Bool.and_eq_true] at h
      have hback : ReadsBack r numeral i := fun _ _ hends => (ihindex h.2).expression h.2 hends
      exact Gathers.index hr (ihtarget h.1) fun rest => indexInside_reads hr hback
  | call callee arguments p ih =>
      rw [Expr.wellFormed, Bool.and_eq_true] at h
      have hback : ∀ e ∈ arguments, ReadsBack r numeral e := by
        intro e he _ _ hends
        have hwell := Expr.wellFormed_of_mem h.2 e he
        exact (ih e he hwell).expression hwell hends
      exact Gathers.call hr fun rest => arguments_reads hr hback

/-- A printed expression is read as it was, up to its places. -/
theorem readsBack (hr : r.Settles) (e : Expr) (h : e.wellFormed numeral = true) : ReadsBack r numeral e :=
  fun _ _ hends => (gathers_kinds hr e h).expression h hends

end Reading

end PolishPseudocode
