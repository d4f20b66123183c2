import PolishPseudocode.Proofs.Expr.Derivation

/-! What is derivable is accepted, with the tree of its derivation. A phrase knows the terms that every
pass of a reduction finds and leaves: once a nonterminal is closed, its phrases and all tighter ones are
single operands. With the converse, a reduction accepts exactly the language of the grammar. -/

namespace PolishPseudocode

open Reduction

mutual

/-- The nodes of a phrase: its items with every group reduced. -/
def Phrase.nodes : {t : Tier} → Phrase t → List Node
  | _, .chain first rest => first.nodes ++ rest.nodes
  | _, .not p inner => .operator .not p :: inner.nodes
  | _, .compared inner => inner.nodes
  | _, .minus p inner => .operator (.binary .sub) p :: inner.nodes
  | _, .unsigned inner => inner.nodes
  | _, .indexed target indices => target.nodes ++ indices.map fun (i, p) => .index i p
  | _, .operand e => [.operand e]
  | _, .group _ inner _ => [.operand inner.expr]

def Chain.nodes : {t : BinaryTier} → Chain t → List Node
  | _, .nil => []
  | _, .cons op _ p right rest => .operator (.binary op) p :: (right.nodes ++ rest.nodes)

end

mutual

/-- The terms of a phrase once the nonterminals up to `closed` are closed. -/
def Phrase.terms (closed : Tier) : {t : Tier} → Phrase t → List Term
  | _, .chain (t := t) first rest =>
      if (Tier.binary t).rank ≤ closed.rank then [.operand (rest.expr first.expr)]
      else first.terms closed ++ rest.terms closed
  | _, .not p inner =>
      if Tier.negated.rank ≤ closed.rank then [.operand (.unary .not inner.expr p)]
      else .operator .not p :: inner.terms closed
  | _, .compared inner => inner.terms closed
  | _, .minus p inner =>
      if Tier.signed.rank ≤ closed.rank then [.operand (negate inner.expr p)]
      else .operator (.binary .sub) p :: inner.terms closed
  | _, .unsigned inner => inner.terms closed
  | _, .indexed target indices => [.operand (indexExpr target.expr indices)]
  | _, .operand e => [.operand e]
  | _, .group _ inner _ => [.operand inner.expr]

def Chain.terms (closed : Tier) : {t : BinaryTier} → Chain t → List Term
  | _, .nil => []
  | _, .cons op _ p right rest => .operator (.binary op) p :: (right.terms closed ++ rest.terms closed)

end

/-- A closed phrase is one operand. -/
theorem Phrase.terms_of_rank_le {closed : Tier} : {t : Tier} → (phrase : Phrase t) →
    t.rank ≤ closed.rank → phrase.terms closed = [.operand phrase.expr]
  | _, .chain first rest, h => by rw [Phrase.terms, if_pos h, Phrase.expr]
  | _, .not p inner, h => by rw [Phrase.terms, if_pos h, Phrase.expr]
  | _, .compared inner, h => by
      rw [Phrase.terms, Phrase.expr]
      exact terms_of_rank_le inner (Nat.le_trans (by decide) h)
  | _, .minus p inner, h => by rw [Phrase.terms, if_pos h, Phrase.expr_minus]
  | _, .unsigned inner, h => by
      rw [Phrase.terms, Phrase.expr]
      exact terms_of_rank_le inner (Nat.le_trans (by decide) h)
  | _, .indexed target indices, _ => by rw [Phrase.terms, Phrase.expr]
  | _, .operand e, _ => by rw [Phrase.terms, Phrase.expr]
  | _, .group opening inner closing, _ => by rw [Phrase.terms, Phrase.expr]

theorem Phrase.nodes_primary (phrase : Phrase .primary) : phrase.nodes = [.operand phrase.expr] := by
  cases phrase <;> rfl

theorem attachIndices_indices (done : List Term) (target : Expr) (indices : List (Expr × Position))
    (rest : List Node) :
    attachIndices (.operand target :: done) (indices.map (fun (i, p) => Node.index i p) ++ rest)
      = attachIndices (.operand (indexExpr target indices) :: done) rest := by
  induction indices generalizing target with
  | nil => rfl
  | cons index indices ih =>
      rw [List.map_cons, List.cons_append, attachIndices, ih]
      rfl

theorem BinaryTier.not_rank_le_indexed (t : BinaryTier) :
    ¬ (Tier.binary t).rank ≤ Tier.indexed.rank := by
  cases t <;> decide

mutual

/-- Hanging indices on operands takes the nodes of a phrase to its terms with indices closed. -/
theorem Phrase.attachIndices_nodes : {t : Tier} → (phrase : Phrase t) → (done : List Term) →
    (rest : List Node) → attachIndices done (phrase.nodes ++ rest)
      = attachIndices ((phrase.terms .indexed).reverse ++ done) rest
  | _, .chain (t := t) first others, done, rest => by
      rw [Phrase.nodes, Phrase.terms, if_neg t.not_rank_le_indexed, List.append_assoc,
        Phrase.attachIndices_nodes first, Chain.attachIndices_nodes others, List.reverse_append,
        List.append_assoc]
  | _, .not p inner, done, rest => by
      rw [Phrase.nodes, Phrase.terms, if_neg (by decide), List.cons_append, attachIndices,
        Phrase.attachIndices_nodes inner, List.reverse_cons, List.append_assoc]
      rfl
  | _, .compared inner, done, rest => Phrase.attachIndices_nodes inner done rest
  | _, .minus p inner, done, rest => by
      rw [Phrase.nodes, Phrase.terms, if_neg (by decide), List.cons_append, attachIndices,
        Phrase.attachIndices_nodes inner, List.reverse_cons, List.append_assoc]
      rfl
  | _, .unsigned inner, done, rest => Phrase.attachIndices_nodes inner done rest
  | _, .indexed target indices, done, rest => by
      rw [Phrase.nodes, Phrase.terms, target.nodes_primary, List.append_assoc, List.cons_append,
        attachIndices, List.nil_append, attachIndices_indices]
      rfl
  | _, .operand e, done, rest => rfl
  | _, .group opening inner closing, done, rest => rfl

theorem Chain.attachIndices_nodes : {t : BinaryTier} → (chain : Chain t) → (done : List Term) →
    (rest : List Node) → attachIndices done (chain.nodes ++ rest)
      = attachIndices ((chain.terms .indexed).reverse ++ done) rest
  | _, .nil, done, rest => rfl
  | _, .cons op hop p right others, done, rest => by
      rw [Chain.nodes, Chain.terms, List.cons_append, attachIndices, List.append_assoc,
        Phrase.attachIndices_nodes right, Chain.attachIndices_nodes others]
      simp

end

/-! ### Prefix operators -/

def UnaryOp.operator : UnaryOp → Operator
  | .not => .not
  | .negate => .binary .sub

def UnaryOp.operand : UnaryOp → Tier
  | .not => .binary .comparison
  | .negate => .indexed

def UnaryOp.tier : UnaryOp → Tier
  | .not => .negated
  | .negate => .signed

/-- Where a pass takes an operator token for the prefix operator. -/
def UnaryOp.applies : UnaryOp → Option Term → Bool
  | .not => fun _ => true
  | .negate => isLeading

def UnaryOp.build : UnaryOp → Expr → Position → Expr
  | .not => .unary .not
  | .negate => Reduction.negate

def UnaryOp.pass (u : UnaryOp) : Option Term → List Term → Except SyntaxError (List Term) :=
  applyPrefix u.operator u.applies u.build

theorem UnaryOp.applies_of_isLeading (u : UnaryOp) {before : Option Term} (h : isLeading before = true) :
    u.applies before = true := by
  cases u with
  | not => rfl
  | negate => exact h

theorem UnaryOp.pass_operand (u : UnaryOp) {before : Option Term} {e : Expr} {rest rest' : List Term}
    (h : u.pass (some (.operand e)) rest = .ok rest') :
    u.pass before (.operand e :: rest) = .ok (.operand e :: rest') := by
  unfold UnaryOp.pass at h ⊢
  rw [applyPrefix, h]

/-- An operator that is not the one of the pass, or has an operand before it, stays. -/
theorem UnaryOp.pass_operator (u : UnaryOp) {before : Option Term} {op : Operator} {p : Position}
    {rest rest' : List Term} (hother : op = u.operator → u.applies before = false)
    (h : u.pass (some (.operator op p)) rest = .ok rest') :
    u.pass before (.operator op p :: rest) = .ok (.operator op p :: rest') := by
  unfold UnaryOp.pass at h ⊢
  rw [applyPrefix, h]
  dsimp only
  rw [if_neg]
  rintro ⟨rfl, happlies⟩
  rw [hother rfl] at happlies
  exact Bool.false_ne_true happlies

/-- The operator of the pass takes the operand behind it where nothing before it could be its left
operand. -/
theorem UnaryOp.pass_prefix (u : UnaryOp) {before : Option Term} {p : Position} {e : Expr}
    {rest rest' : List Term} (hbefore : isLeading before = true)
    (h : u.pass (some (.operator u.operator p)) rest = .ok (.operand e :: rest')) :
    u.pass before (.operator u.operator p :: rest) = .ok (.operand (u.build e p) :: rest') := by
  unfold UnaryOp.pass at h ⊢
  rw [applyPrefix, h]
  dsimp only
  rw [if_pos ⟨rfl, u.applies_of_isLeading hbefore⟩]

/-- A binary operator behind an operand is not taken for a prefix operator. -/
theorem UnaryOp.applies_binary (u : UnaryOp) (e : Expr) {op : BinaryOp}
    (h : .binary op = u.operator) : u.applies (some (.operand e)) = false := by
  cases u with
  | not => cases h
  | negate => rfl

/-- No binary tier lies between the two nonterminals of a prefix operator. -/
theorem UnaryOp.rank_le_operand (u : UnaryOp) {t : BinaryTier}
    (h : (Tier.binary t).rank ≤ u.tier.rank) : (Tier.binary t).rank ≤ u.operand.rank := by
  cases u <;> cases t <;> simp_all [UnaryOp.tier, UnaryOp.operand, Tier.rank]

mutual

/-- A pass for a prefix operator closes its nonterminal in a phrase that nothing stands before which
could be a left operand. -/
theorem Phrase.pass_terms (u : UnaryOp) : {t : Tier} → (phrase : Phrase t) → {before : Option Term} →
    {rest rest' : List Term} → isLeading before = true →
    (∀ e, u.pass (some (.operand e)) rest = .ok rest') →
    u.pass before (phrase.terms u.operand ++ rest) = .ok (phrase.terms u.tier ++ rest')
  | _, .chain (t := t) first others, before, rest, rest', hbefore, hrest => by
      by_cases hclosed : (Tier.binary t).rank ≤ u.operand.rank
      · have hclosed' : (Tier.binary t).rank ≤ u.tier.rank := by
          cases u <;> exact Nat.le_trans hclosed (by decide)
        rw [Phrase.terms_of_rank_le _ hclosed, Phrase.terms_of_rank_le _ hclosed']
        exact u.pass_operand (hrest _)
      · have hopen : ¬ (Tier.binary t).rank ≤ u.tier.rank := fun h => hclosed (u.rank_le_operand h)
        rw [Phrase.terms, Phrase.terms, if_neg hclosed, if_neg hopen, List.append_assoc,
          List.append_assoc]
        exact Phrase.pass_terms u first hbefore (Chain.pass_terms u others hrest)
  | _, .not p inner, before, rest, rest', hbefore, hrest => by
      have hnot : isLeading (some (.operator .not p)) = true := rfl
      have hinner := Phrase.pass_terms u inner hnot hrest
      cases u with
      | not =>
          have hclosed : inner.terms UnaryOp.not.tier = [.operand inner.expr] :=
            inner.terms_of_rank_le (Nat.le_refl _)
          rw [hclosed] at hinner
          exact UnaryOp.not.pass_prefix hbefore hinner
      | negate => exact UnaryOp.negate.pass_operator (fun h => by cases h) hinner
  | _, .compared inner, before, rest, rest', hbefore, hrest =>
      Phrase.pass_terms u inner hbefore hrest
  | _, .minus p inner, before, rest, rest', hbefore, hrest => by
      cases u with
      | not => exact UnaryOp.not.pass_operand (hrest _)
      | negate =>
          have hminus : isLeading (some (.operator (.binary .sub) p)) = true := rfl
          have hinner := Phrase.pass_terms .negate inner hminus hrest
          have hclosed : inner.terms UnaryOp.negate.tier = [.operand inner.expr] :=
            inner.terms_of_rank_le (Nat.le_refl _)
          rw [hclosed] at hinner
          exact UnaryOp.negate.pass_prefix hbefore hinner
  | _, .unsigned inner, before, rest, rest', hbefore, hrest =>
      Phrase.pass_terms u inner hbefore hrest
  | _, .indexed target indices, before, rest, rest', hbefore, hrest => u.pass_operand (hrest _)
  | _, .operand e, before, rest, rest', hbefore, hrest => u.pass_operand (hrest _)
  | _, .group opening inner closing, before, rest, rest', hbefore, hrest => u.pass_operand (hrest _)

theorem Chain.pass_terms (u : UnaryOp) : {t : BinaryTier} → (chain : Chain t) →
    {rest rest' : List Term} → (∀ e, u.pass (some (.operand e)) rest = .ok rest') → (e : Expr) →
    u.pass (some (.operand e)) (chain.terms u.operand ++ rest) = .ok (chain.terms u.tier ++ rest')
  | _, .nil, rest, rest', hrest, e => hrest e
  | _, .cons op hop p right others, rest, rest', hrest, e => by
      have hop : isLeading (some (.operator (.binary op) p)) = true := rfl
      have hright := Phrase.pass_terms u right hop (Chain.pass_terms u others hrest)
      have hcons := u.pass_operator (u.applies_binary e) hright
      rw [Chain.terms, Chain.terms]
      simpa using hcons

end

/-! ### Binary operators -/

def BinaryTier.pass (t : BinaryTier) : List Term → List Term → Except SyntaxError (List Term) :=
  joinTier (·.tier == t)

theorem BinaryTier.pass_operand (t : BinaryTier) (done : List Term) (e : Expr) (rest : List Term) :
    t.pass done (.operand e :: rest) = t.pass (.operand e :: done) rest := by
  rw [BinaryTier.pass, joinTier]

theorem BinaryTier.pass_not (t : BinaryTier) (done : List Term) (p : Position) (rest : List Term) :
    t.pass done (.operator .not p :: rest) = t.pass (.operator .not p :: done) rest := by
  rw [BinaryTier.pass, joinTier]

theorem BinaryTier.pass_other {t : BinaryTier} {op : BinaryOp} (h : op.tier ≠ t) (done : List Term)
    (p : Position) (rest : List Term) : t.pass done (.operator (.binary op) p :: rest)
      = t.pass (.operator (.binary op) p :: done) rest := by
  have hop : ¬ (op.tier == t) = true := by simpa using h
  rw [BinaryTier.pass, joinTier.eq_def]
  simp only [if_neg hop]

theorem BinaryTier.pass_join {t : BinaryTier} {op : BinaryOp} (h : op.tier = t) (done : List Term)
    (left right : Expr) (p : Position) (rest : List Term) :
    t.pass (.operand left :: done) (.operator (.binary op) p :: .operand right :: rest)
      = t.pass (.operand (.binary left op right p) :: done) rest := by
  rw [BinaryTier.pass, joinTier, if_pos (by simpa using h)]

theorem BinaryTier.rank_injective {t t' : BinaryTier} (h : (Tier.binary t).rank = (Tier.binary t').rank) :
    t = t' := by
  cases t <;> cases t' <;> simp_all [Tier.rank]

/-- A chain of the tier is joined from left to right. -/
theorem Chain.pass_closing : {t : BinaryTier} → (chain : Chain t) → (done : List Term) → (left : Expr) →
    (rest : List Term) → t.pass (.operand left :: done) (chain.terms t.operand ++ rest)
      = t.pass (.operand (chain.expr left) :: done) rest
  | _, .nil, done, left, rest => rfl
  | t, .cons op hop p right others, done, left, rest => by
      rw [Chain.terms, right.terms_of_rank_le (Nat.le_refl _), List.cons_append, List.append_assoc,
        List.cons_append, List.nil_append, t.pass_join hop, Chain.pass_closing others, Chain.expr]

mutual

/-- The pass for a binary tier closes its nonterminal in a phrase. -/
theorem Phrase.binary_pass_terms (s : BinaryTier) : {t : Tier} → (phrase : Phrase t) →
    (done rest : List Term) → s.pass done (phrase.terms s.operand ++ rest)
      = s.pass ((phrase.terms (.binary s)).reverse ++ done) rest
  | _, .chain (t := t) first others, done, rest => by
      have hrank := s.rank_operand
      by_cases hclosed : (Tier.binary t).rank ≤ s.operand.rank
      · rw [Phrase.terms_of_rank_le _ hclosed, Phrase.terms_of_rank_le _ (by omega)]
        exact s.pass_operand done _ rest
      by_cases hsame : (Tier.binary t).rank = (Tier.binary s).rank
      · obtain rfl := BinaryTier.rank_injective hsame
        rw [Phrase.terms, Phrase.terms, if_neg hclosed, if_pos (Nat.le_refl _),
          first.terms_of_rank_le (Nat.le_refl _), List.append_assoc]
        exact (t.pass_operand done _ _).trans (Chain.pass_closing others done _ rest)
      · rw [Phrase.terms, Phrase.terms, if_neg hclosed, if_neg (by omega), List.append_assoc,
          Phrase.binary_pass_terms s first, Chain.binary_pass_terms s others (by omega),
          List.reverse_append, List.append_assoc]
  | _, .not p inner, done, rest => by
      by_cases hclosed : Tier.negated.rank ≤ s.operand.rank
      · have hrank := s.rank_operand
        rw [Phrase.terms_of_rank_le _ hclosed, Phrase.terms_of_rank_le _ (by omega)]
        exact s.pass_operand done _ rest
      · have hopen : ¬ Tier.negated.rank ≤ (Tier.binary s).rank := by
          cases s <;> simp_all [Tier.rank, BinaryTier.operand]
        rw [Phrase.terms, Phrase.terms, if_neg hclosed, if_neg hopen, List.cons_append, s.pass_not,
          Phrase.binary_pass_terms s inner, List.reverse_cons, List.append_assoc]
        rfl
  | _, .compared inner, done, rest => Phrase.binary_pass_terms s inner done rest
  | _, .minus p inner, done, rest => by
      have hclosed : Tier.signed.rank ≤ s.operand.rank := by cases s <;> decide
      have hrank := s.rank_operand
      rw [Phrase.terms_of_rank_le _ hclosed, Phrase.terms_of_rank_le _ (by omega)]
      exact s.pass_operand done _ rest
  | _, .unsigned inner, done, rest => Phrase.binary_pass_terms s inner done rest
  | _, .indexed target indices, done, rest => s.pass_operand done _ rest
  | _, .operand e, done, rest => s.pass_operand done _ rest
  | _, .group opening inner closing, done, rest => s.pass_operand done _ rest

theorem Chain.binary_pass_terms (s : BinaryTier) : {t : BinaryTier} → (chain : Chain t) →
    (Tier.binary t).rank ≠ (Tier.binary s).rank → (done rest : List Term) →
    s.pass done (chain.terms s.operand ++ rest)
      = s.pass ((chain.terms (.binary s)).reverse ++ done) rest
  | _, .nil, _, done, rest => rfl
  | t, .cons op hop p right others, hne, done, rest => by
      have hother : op.tier ≠ s := by
        rintro rfl
        exact hne (by rw [hop])
      rw [Chain.terms, Chain.terms, List.cons_append, s.pass_other hother, List.append_assoc,
        Phrase.binary_pass_terms s right, Chain.binary_pass_terms s others hne]
      simp

end

/-! ### Levels and groups -/

theorem Phrase.nodes_ne_nil {t : Tier} : (phrase : Phrase t) → phrase.nodes ≠ []
  | .chain first rest => by
      rw [Phrase.nodes]
      exact fun h => first.nodes_ne_nil (List.append_eq_nil_iff.1 h).1
  | .not p inner => List.cons_ne_nil _ _
  | .compared inner => inner.nodes_ne_nil
  | .minus p inner => List.cons_ne_nil _ _
  | .unsigned inner => inner.nodes_ne_nil
  | .indexed target indices => by
      rw [Phrase.nodes, target.nodes_primary]
      exact List.cons_ne_nil _ _
  | .operand e => List.cons_ne_nil _ _
  | .group opening inner closing => List.cons_ne_nil _ _

/-- A level is reduced to the tree of the phrase that its nodes are of. -/
theorem Phrase.level_nodes (phrase : Phrase (.binary .disjunction)) (place : Position) :
    level phrase.nodes place = .ok phrase.expr := by
  have hindexed : attachIndices [] phrase.nodes = .ok (phrase.terms .indexed) := by
    simpa [attachIndices] using phrase.attachIndices_nodes [] []
  have hstarts (u : UnaryOp) : u.pass none (phrase.terms u.operand) = .ok (phrase.terms u.tier) := by
    have hnone : isLeading none = true := rfl
    have hnil (e : Expr) : u.pass (some (.operand e)) [] = .ok [] := rfl
    simpa using phrase.pass_terms u hnone hnil
  have hbinary (t : BinaryTier) :
      t.pass [] (phrase.terms t.operand) = .ok (phrase.terms (.binary t)) := by
    simpa [BinaryTier.pass, joinTier] using phrase.binary_pass_terms t [] []
  have hsingle : single (phrase.terms (.binary .disjunction)) = .ok phrase.expr := by
    rw [phrase.terms_of_rank_le (Nat.le_refl _), single]
  rw [level_eq place phrase.nodes_ne_nil]
  refine bind_eq_ok.2 ⟨_, hindexed, ?_⟩
  refine bind_eq_ok.2 ⟨_, hstarts .negate, ?_⟩
  refine bind_eq_ok.2 ⟨_, hbinary .product, ?_⟩
  refine bind_eq_ok.2 ⟨_, hbinary .sum, ?_⟩
  refine bind_eq_ok.2 ⟨_, hbinary .comparison, ?_⟩
  refine bind_eq_ok.2 ⟨_, hstarts .not, ?_⟩
  refine bind_eq_ok.2 ⟨_, hbinary .conjunction, ?_⟩
  exact bind_eq_ok.2 ⟨_, hbinary .disjunction, hsingle⟩

theorem levels_indexItems (place : Position) (suspended : List (Position × List Node))
    (current : List Node) (indices : List (Expr × Position)) (rest : List Item) :
    levels place suspended current (indexItems indices ++ rest)
      = levels place suspended ((indices.map fun (i, p) => Node.index i p).reverse ++ current) rest := by
  induction indices generalizing current with
  | nil => rfl
  | cons index indices ih =>
      have hstep : levels place suspended current (indexItems (index :: indices) ++ rest)
          = levels place suspended (.index index.1 index.2 :: current) (indexItems indices ++ rest) := by
        rw [indexItems, List.map_cons, List.cons_append, levels]
        rfl
      rw [hstep, ih]
      simp

mutual

/-- Collecting the items of a phrase appends its nodes to the level. -/
theorem Phrase.levels_items (place : Position) : {t : Tier} → (phrase : Phrase t) →
    (suspended : List (Position × List Node)) → (current : List Node) → (rest : List Item) →
    levels place suspended current (phrase.items ++ rest)
      = levels place suspended (phrase.nodes.reverse ++ current) rest
  | _, .chain first others, suspended, current, rest => by
      rw [Phrase.items, Phrase.nodes, List.append_assoc, Phrase.levels_items place first,
        Chain.levels_items place others, List.reverse_append, List.append_assoc]
  | _, .not p inner, suspended, current, rest => by
      rw [Phrase.items, Phrase.nodes, List.cons_append, levels, Phrase.levels_items place inner,
        List.reverse_cons, List.append_assoc]
      rfl
  | _, .compared inner, suspended, current, rest =>
      Phrase.levels_items place inner suspended current rest
  | _, .minus p inner, suspended, current, rest => by
      rw [Phrase.items, Phrase.nodes, List.cons_append, levels, Phrase.levels_items place inner,
        List.reverse_cons, List.append_assoc]
      rfl
  | _, .unsigned inner, suspended, current, rest =>
      Phrase.levels_items place inner suspended current rest
  | _, .indexed target indices, suspended, current, rest => by
      rw [Phrase.items, Phrase.nodes, List.append_assoc, Phrase.levels_items place target,
        levels_indexItems, List.reverse_append, List.append_assoc]
  | _, .operand e, suspended, current, rest => by
      rw [Phrase.items, Phrase.nodes, List.cons_append, levels]
      rfl
  | _, .group opening inner closing, suspended, current, rest => by
      -- The inner level is collected on its own and reduced at the closing parenthesis.
      rw [Phrase.items, Phrase.nodes, List.cons_append, levels, List.append_assoc,
        Phrase.levels_items place inner, List.cons_append, List.nil_append, levels,
        List.append_nil, List.reverse_reverse, inner.level_nodes]
      rfl

theorem Chain.levels_items (place : Position) : {t : BinaryTier} → (chain : Chain t) →
    (suspended : List (Position × List Node)) → (current : List Node) → (rest : List Item) →
    levels place suspended current (chain.items ++ rest)
      = levels place suspended (chain.nodes.reverse ++ current) rest
  | _, .nil, suspended, current, rest => rfl
  | _, .cons op hop p right others, suspended, current, rest => by
      rw [Chain.items, Chain.nodes, List.cons_append, levels, List.append_assoc,
        Phrase.levels_items place right, Chain.levels_items place others]
      simp

end

/-- A flat expression is reduced to the tree of its derivation. -/
theorem Phrase.ofItems_items (phrase : Phrase (.binary .disjunction)) (place : Position) :
    Expr.ofItems phrase.items place = .ok phrase.expr := by
  have hlevels := phrase.levels_items place [] [] []
  rw [List.append_nil, List.append_nil] at hlevels
  rw [Expr.ofItems, hlevels, levels, List.reverse_reverse, phrase.level_nodes]

/-- A reduction accepts exactly the derivable lists of items, with the tree of their derivation, and
a list has one derivation at most. -/
theorem ofItems_eq_ok_iff_derives (items : List Item) (place : Position) (e : Expr) :
    (Expr.ofItems items place = .ok e ↔
        ∃ phrase : Phrase (.binary .disjunction), phrase.items = items ∧ phrase.expr = e)
      ∧ ∀ phrase phrase' : Phrase (.binary .disjunction),
        phrase.items = items → phrase'.items = items → phrase = phrase' := by
  refine ⟨⟨fun h => ?_, ?_⟩, fun phrase phrase' h h' => Phrase.items_injective _ (h.trans h'.symm)⟩
  · exact derives_of_levels .nil .nil h
  · rintro ⟨phrase, rfl, rfl⟩
    exact phrase.ofItems_items place

end PolishPseudocode
