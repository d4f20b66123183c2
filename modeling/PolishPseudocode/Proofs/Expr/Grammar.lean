import PolishPseudocode.Expr.Reduction

/-! The grammar of flat expressions. Nine nonterminals, one for each tier of operators, one for indexed
operands and one for operands in themselves, are stacked from the loosest to the tightest. A phrase is
a derivation from one of them: it spells a list of items and denotes a tree, and no two phrases of one
nonterminal spell the same items. -/

namespace PolishPseudocode

/-- The tiers of operators that stand between two operands, loosest first. -/
inductive BinaryTier where
  | disjunction
  | conjunction
  | comparison
  | sum
  | product
deriving DecidableEq, Repr

/-- The nonterminals. `negated` is the tier of `nie`, `signed` that of a minus before its operand. -/
inductive Tier where
  | binary (tier : BinaryTier)
  | negated
  | signed
  | indexed
  | primary
deriving DecidableEq, Repr

def BinaryOp.tier : BinaryOp → BinaryTier
  | .or => .disjunction
  | .and => .conjunction
  | .greater | .less | .greaterEqual | .lessEqual | .equal | .notEqual => .comparison
  | .add | .sub => .sum
  | .mul | .div | .intDiv | .mod => .product

def BinaryTier.operand : BinaryTier → Tier
  | .disjunction => .binary .conjunction
  | .conjunction => .negated
  | .comparison => .binary .sum
  | .sum => .binary .product
  | .product => .signed

/-- How loose a nonterminal is: those it is built from, parentheses apart, have a smaller rank. -/
def Tier.rank : Tier → Nat
  | .primary => 0
  | .indexed => 1
  | .signed => 2
  | .binary .product => 3
  | .binary .sum => 4
  | .binary .comparison => 5
  | .negated => 6
  | .binary .conjunction => 7
  | .binary .disjunction => 8

/-- The operands of a binary tier are the next tighter nonterminal. -/
theorem BinaryTier.rank_operand (t : BinaryTier) : t.operand.rank + 1 = (Tier.binary t).rank := by
  cases t <;> rfl

mutual

/-- A derivation from a nonterminal. -/
inductive Phrase : Tier → Type where
  /-- `operand (op operand)*` with operators of one binary tier. -/
  | chain {t : BinaryTier} (first : Phrase t.operand) (rest : Chain t) : Phrase (.binary t)
  /-- `nie negated`. -/
  | not (position : Position) (operand : Phrase .negated) : Phrase .negated
  | compared (inner : Phrase (.binary .comparison)) : Phrase .negated
  /-- `- signed`. -/
  | minus (position : Position) (operand : Phrase .signed) : Phrase .signed
  | unsigned (inner : Phrase .indexed) : Phrase .signed
  /-- `primary index*`. -/
  | indexed (target : Phrase .primary) (indices : List (Expr × Position)) : Phrase .indexed
  | operand (e : Expr) : Phrase .primary
  /-- `( disjunction )`. -/
  | group (opening : Position) (inner : Phrase (.binary .disjunction)) (closing : Position) :
      Phrase .primary

/-- The operators of a binary tier with their right operands. -/
inductive Chain : BinaryTier → Type where
  | nil {t : BinaryTier} : Chain t
  | cons {t : BinaryTier} (op : BinaryOp) (hop : op.tier = t) (position : Position)
      (operand : Phrase t.operand) (rest : Chain t) : Chain t

end

/-- The items of index brackets that follow each other. -/
def indexItems (indices : List (Expr × Position)) : List Item :=
  indices.map fun (i, p) => .index i p

/-- The tree of an operand with index brackets behind it, the first bracket innermost. -/
def indexExpr (target : Expr) (indices : List (Expr × Position)) : Expr :=
  indices.foldl (fun target (i, p) => .index target i p) target

mutual

def Phrase.items : {t : Tier} → Phrase t → List Item
  | _, .chain first rest => first.items ++ rest.items
  | _, .not p operand => .operator .not p :: operand.items
  | _, .compared inner => inner.items
  | _, .minus p operand => .operator (.binary .sub) p :: operand.items
  | _, .unsigned inner => inner.items
  | _, .indexed target indices => target.items ++ indexItems indices
  | _, .operand e => [.operand e]
  | _, .group opening inner closing => .opening opening :: (inner.items ++ [.closing closing])

def Chain.items : {t : BinaryTier} → Chain t → List Item
  | _, .nil => []
  | _, .cons op _ p operand rest => .operator (.binary op) p :: (operand.items ++ rest.items)

end

mutual

/-- The tree that a phrase denotes. Every binary tier associates to the left, and a minus before a
numeral is taken into the numeral. -/
def Phrase.expr : {t : Tier} → Phrase t → Expr
  | _, .chain first rest => rest.expr first.expr
  | _, .not p operand => .unary .not operand.expr p
  | _, .compared inner => inner.expr
  | _, .minus p operand =>
      match operand.expr with
      | .literal (.number x) _ => .literal (.number (-x)) p
      | e => .unary .negate e p
  | _, .unsigned inner => inner.expr
  | _, .indexed target indices => indexExpr target.expr indices
  | _, .operand e => e
  | _, .group _ inner _ => inner.expr

/-- The tree of a chain behind a left operand. -/
def Chain.expr : {t : BinaryTier} → Chain t → Expr → Expr
  | _, .nil, left => left
  | _, .cons op _ p operand rest, left => rest.expr (.binary left op operand.expr p)

end

/-- A nonterminal derives a tree from a list of items. -/
def Derives (t : Tier) (items : List Item) (e : Expr) : Prop :=
  ∃ phrase : Phrase t, phrase.items = items ∧ phrase.expr = e

/-- The sign of a phrase is taken the way a reduction takes it. -/
theorem Phrase.expr_minus (p : Position) (operand : Phrase .signed) :
    (Phrase.minus p operand).expr = Reduction.negate operand.expr p := by
  rw [Phrase.expr]
  unfold Reduction.negate
  split <;> simp_all

/-! ### Every item list has one derivation at most

A phrase ends where its first item that cannot continue it stands, so two phrases that start the same
list are the same and leave the same rest. -/

def Item.opens (rank : Nat) : Item → Bool
  | .operand _ | .opening _ => true
  | .operator .not _ => decide (6 ≤ rank)
  | .operator (.binary .sub) _ => decide (2 ≤ rank)
  | _ => false

/-- Whether an item behind a phrase of a rank belongs to a longer phrase of that rank. -/
def Item.continues (rank : Nat) : Item → Bool
  | .index _ _ => decide (1 ≤ rank)
  | .operator (.binary op) _ => decide ((Tier.binary op.tier).rank ≤ rank)
  | _ => false

/-- Nothing continues a phrase of this rank. -/
def Stops (rank : Nat) (rest : List Item) : Prop :=
  ∀ item ∈ rest.head?, item.continues rank = false

theorem Item.opens_mono {item : Item} {rank rank' : Nat} (hle : rank ≤ rank')
    (h : item.opens rank = true) : item.opens rank' = true := by
  unfold Item.opens at h ⊢
  cases item with
  | operand e => rfl
  | opening p => rfl
  | operator op p =>
      cases op with
      | not => exact decide_eq_true (Nat.le_trans (of_decide_eq_true h) hle)
      | binary op =>
          cases op with
          | sub => exact decide_eq_true (Nat.le_trans (of_decide_eq_true h) hle)
          | _ => cases h
  | _ => cases h

theorem Item.continues_mono {item : Item} {rank rank' : Nat} (hle : rank ≤ rank')
    (h : item.continues rank' = false) : item.continues rank = false := by
  unfold Item.continues at h ⊢
  cases item with
  | index i p => exact decide_eq_false fun hrank => of_decide_eq_false h (Nat.le_trans hrank hle)
  | operator op p =>
      cases op with
      | binary op => exact decide_eq_false fun hrank => of_decide_eq_false h (Nat.le_trans hrank hle)
      | not => rfl
  | _ => rfl

theorem Stops.mono {rest : List Item} {rank rank' : Nat} (hle : rank ≤ rank') (h : Stops rank' rest) :
    Stops rank rest :=
  fun item hitem => Item.continues_mono hle (h item hitem)

theorem Stops.nil (rank : Nat) : Stops rank [] := by
  simp [Stops]

theorem Stops.closing (rank : Nat) (p : Position) {rest : List Item} :
    Stops rank (.closing p :: rest) := by
  simp [Stops, Item.continues]

/-- Nothing continues a phrase in itself. -/
theorem Stops.zero (rest : List Item) : Stops 0 rest := by
  intro item _
  cases item with
  | operator op p => cases op with
      | binary op => cases op <;> rfl
      | not => rfl
  | _ => rfl

/-- The operands of a chain stop where the chain goes on, and where what follows it does. -/
theorem Chain.stops_append {t : BinaryTier} (c : Chain t) {rest : List Item}
    (h : Stops (Tier.binary t).rank rest) : Stops t.operand.rank (c.items ++ rest) := by
  have hrank := t.rank_operand
  cases c with
  | nil => exact h.mono (by omega)
  | cons op hop p operand c =>
      intro item hitem
      obtain rfl : Item.operator (.binary op) p = item := by simpa [Chain.items] using hitem
      simp only [Item.continues, hop, decide_eq_false_iff_not]
      omega

/-- A phrase is not empty, and its first item can start it. -/
theorem Phrase.exists_items_eq_cons : {t : Tier} → (phrase : Phrase t) →
    ∃ first rest, phrase.items = first :: rest ∧ first.opens t.rank = true
  | _, .chain (t := t) left rest => by
      obtain ⟨first, others, heq, hopens⟩ := exists_items_eq_cons left
      have hrank := t.rank_operand
      exact ⟨first, others ++ rest.items, by simp [Phrase.items, heq],
        Item.opens_mono (by omega) hopens⟩
  | _, .not p inner => ⟨_, _, rfl, rfl⟩
  | _, .compared inner => by
      obtain ⟨first, others, heq, hopens⟩ := exists_items_eq_cons inner
      exact ⟨first, others, by rw [Phrase.items, heq], Item.opens_mono (by decide) hopens⟩
  | _, .minus p inner => ⟨_, _, rfl, rfl⟩
  | _, .unsigned inner => by
      obtain ⟨first, others, heq, hopens⟩ := exists_items_eq_cons inner
      exact ⟨first, others, by rw [Phrase.items, heq], Item.opens_mono (by decide) hopens⟩
  | _, .indexed target indices => by
      obtain ⟨first, others, heq, hopens⟩ := exists_items_eq_cons target
      exact ⟨first, others ++ indexItems indices, by simp [Phrase.items, heq],
        Item.opens_mono (by decide) hopens⟩
  | _, .operand e => ⟨_, _, rfl, rfl⟩
  | _, .group opening inner closing => ⟨_, _, rfl, rfl⟩

/-- A phrase does not start with an item that cannot start it. -/
theorem Phrase.items_append_ne_cons {t : Tier} (phrase : Phrase t) {item : Item} {rest rest' : List Item}
    (hitem : item.opens t.rank = false) : phrase.items ++ rest ≠ item :: rest' := by
  obtain ⟨first, others, heq, hopens⟩ := phrase.exists_items_eq_cons
  intro h
  rw [heq, List.cons_append, List.cons.injEq] at h
  rw [h.1, hitem] at hopens
  exact Bool.false_ne_true hopens

theorem indexItems_append_cancel {indices indices' : List (Expr × Position)} {rest rest' : List Item}
    (hstop : Stops 1 rest) (hstop' : Stops 1 rest')
    (h : indexItems indices ++ rest = indexItems indices' ++ rest') :
    indices = indices' ∧ rest = rest' := by
  induction indices generalizing indices' with
  | nil =>
      cases indices' with
      | nil => exact ⟨rfl, h⟩
      | cons i indices' =>
          obtain rfl : rest = .index i.1 i.2 :: (indexItems indices' ++ rest') := h
          exact absurd (hstop _ rfl) (by simp [Item.continues])
  | cons i indices ih =>
      cases indices' with
      | nil =>
          obtain rfl : .index i.1 i.2 :: (indexItems indices ++ rest) = rest' := h
          exact absurd (hstop' _ rfl) (by simp [Item.continues])
      | cons i' indices' =>
          simp only [indexItems, List.map_cons, List.cons_append, List.cons.injEq,
            Item.index.injEq] at h
          obtain ⟨rfl, hrest⟩ := ih h.2
          exact ⟨by rw [Prod.ext h.1.1 h.1.2], hrest⟩

mutual

/-- Two phrases of one nonterminal that start the same items, and stop where nothing continues them,
are the same phrase. -/
theorem Phrase.items_append_cancel : {t : Tier} → (phrase phrase' : Phrase t) → {rest rest' : List Item} →
    Stops t.rank rest → Stops t.rank rest' → phrase.items ++ rest = phrase'.items ++ rest' →
    phrase = phrase' ∧ rest = rest'
  | _, .chain first others, phrase', rest, rest', hstop, hstop', h => by
      cases phrase' with
      | chain first' others' =>
          simp only [Phrase.items, List.append_assoc] at h
          obtain ⟨rfl, hothers⟩ := Phrase.items_append_cancel first first'
            (others.stops_append hstop) (others'.stops_append hstop') h
          obtain ⟨rfl, hrest⟩ := Chain.items_append_cancel others others' hstop hstop' hothers
          exact ⟨rfl, hrest⟩
  | _, .not p inner, phrase', rest, rest', hstop, hstop', h => by
      cases phrase' with
      | not p' inner' =>
          simp only [Phrase.items, List.cons_append, List.cons.injEq, Item.operator.injEq,
            true_and] at h
          obtain ⟨rfl, hinner⟩ := h
          obtain ⟨rfl, hrest⟩ := Phrase.items_append_cancel inner inner' hstop hstop' hinner
          exact ⟨rfl, hrest⟩
      | compared inner' => exact absurd h.symm (inner'.items_append_ne_cons rfl)
  | _, .compared inner, phrase', rest, rest', hstop, hstop', h => by
      cases phrase' with
      | not p' inner' => exact absurd h (inner.items_append_ne_cons rfl)
      | compared inner' =>
          obtain ⟨rfl, hrest⟩ := Phrase.items_append_cancel inner inner' (hstop.mono (by decide))
            (hstop'.mono (by decide)) h
          exact ⟨rfl, hrest⟩
  | _, .minus p inner, phrase', rest, rest', hstop, hstop', h => by
      cases phrase' with
      | minus p' inner' =>
          simp only [Phrase.items, List.cons_append, List.cons.injEq, Item.operator.injEq,
            true_and] at h
          obtain ⟨rfl, hinner⟩ := h
          obtain ⟨rfl, hrest⟩ := Phrase.items_append_cancel inner inner' hstop hstop' hinner
          exact ⟨rfl, hrest⟩
      | unsigned inner' => exact absurd h.symm (inner'.items_append_ne_cons rfl)
  | _, .unsigned inner, phrase', rest, rest', hstop, hstop', h => by
      cases phrase' with
      | minus p' inner' => exact absurd h (inner.items_append_ne_cons rfl)
      | unsigned inner' =>
          obtain ⟨rfl, hrest⟩ := Phrase.items_append_cancel inner inner' (hstop.mono (by decide))
            (hstop'.mono (by decide)) h
          exact ⟨rfl, hrest⟩
  | _, .indexed target indices, phrase', rest, rest', hstop, hstop', h => by
      cases phrase' with
      | indexed target' indices' =>
          simp only [Phrase.items, List.append_assoc] at h
          obtain ⟨rfl, hindices⟩ := Phrase.items_append_cancel target target' (Stops.zero _)
            (Stops.zero _) h
          obtain ⟨rfl, hrest⟩ := indexItems_append_cancel hstop hstop' hindices
          exact ⟨rfl, hrest⟩
  | _, .operand e, phrase', rest, rest', hstop, hstop', h => by
      cases phrase' with
      | operand e' =>
          obtain ⟨he, hrest⟩ := List.cons.inj h
          cases he
          exact ⟨rfl, hrest⟩
      | group opening inner closing => cases h
  | _, .group opening inner closing, phrase', rest, rest', hstop, hstop', h => by
      cases phrase' with
      | operand e => cases h
      | group opening' inner' closing' =>
          simp only [Phrase.items, List.cons_append, List.append_assoc, List.cons.injEq,
            Item.opening.injEq, List.nil_append] at h
          obtain ⟨rfl, hinner⟩ := h
          -- Behind the inner phrase stands its closing parenthesis, which continues nothing.
          obtain ⟨rfl, hclosing⟩ := Phrase.items_append_cancel inner inner' (Stops.closing _ _)
            (Stops.closing _ _) hinner
          obtain ⟨hclosing, hrest⟩ := List.cons.inj hclosing
          cases hclosing
          exact ⟨rfl, hrest⟩

/-- The same for chains. -/
theorem Chain.items_append_cancel : {t : BinaryTier} → (chain chain' : Chain t) →
    {rest rest' : List Item} → Stops (Tier.binary t).rank rest → Stops (Tier.binary t).rank rest' →
    chain.items ++ rest = chain'.items ++ rest' → chain = chain' ∧ rest = rest'
  | _, .nil, chain', rest, rest', hstop, hstop', h => by
      cases chain' with
      | nil => exact ⟨rfl, h⟩
      | cons op hop p operand others =>
          obtain rfl : rest = _ := h
          exact absurd (hstop _ rfl) (by simp [Item.continues, hop])
  | _, .cons op hop p operand others, chain', rest, rest', hstop, hstop', h => by
      cases chain' with
      | nil =>
          obtain rfl : _ = rest' := h
          exact absurd (hstop' _ rfl) (by simp [Item.continues, hop])
      | cons op' hop' p' operand' others' =>
          simp only [Chain.items, List.cons_append, List.append_assoc, List.cons.injEq,
            Item.operator.injEq, Operator.binary.injEq] at h
          obtain ⟨⟨rfl, rfl⟩, hoperand⟩ := h
          obtain ⟨rfl, hothers⟩ := Phrase.items_append_cancel operand operand'
            (others.stops_append hstop) (others'.stops_append hstop') hoperand
          obtain ⟨rfl, hrest⟩ := Chain.items_append_cancel others others' hstop hstop' hothers
          exact ⟨rfl, hrest⟩

end

/-- The items determine the phrase. -/
theorem Phrase.items_injective (t : Tier) : Function.Injective (Phrase.items (t := t)) := by
  intro phrase phrase' h
  have happend : phrase.items ++ [] = phrase'.items ++ [] := by rw [h]
  exact (Phrase.items_append_cancel phrase phrase' (Stops.nil _) (Stops.nil _) happend).1

end PolishPseudocode
