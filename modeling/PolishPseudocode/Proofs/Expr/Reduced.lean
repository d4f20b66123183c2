import PolishPseudocode.Proofs.Expr.Acceptance

/-! What a reduction ends with. Every pass leaves only operators of looser tiers, or stops for lack of an operand, so
only operands are left behind the last one, and some are, as a pass never takes the last term away. -/

namespace PolishPseudocode

/-- The nonterminal whose phrases an operator builds behind an operand, or before the first one. -/
def Operator.tier : Operator → Tier
  | .not => .negated
  | .binary op => .binary op.tier

theorem Operator.rank_tier_le (op : Operator) : op.tier.rank ≤ 8 := by
  cases op with
  | not => decide
  | binary op => cases op <;> decide

theorem Operator.lt_rank_tier (op : Operator) : 2 < op.tier.rank := by
  cases op with
  | not => decide
  | binary op => cases op <;> decide

/-- Between the comparisons and the connectives stands `nie` alone. -/
theorem Operator.looser_than_not {op : Operator} (h : 5 < op.tier.rank) (hop : ¬ (op = .not ∧ true = true)) :
    6 < op.tier.rank := by
  cases op with
  | not => exact absurd ⟨rfl, rfl⟩ hop
  | binary op =>
      revert h
      cases op <;> decide

namespace Reduction

/-- The operators among some terms are all looser than a rank. -/
def Looser (rank : Nat) (terms : List Term) : Prop :=
  ∀ op p, Term.operator op p ∈ terms → rank < op.tier.rank

namespace Looser

variable {rank : Nat} {terms : List Term}

theorem nil : Looser rank [] :=
  fun _ _ h => absurd h List.not_mem_nil

theorem operand (h : Looser rank terms) (e : Expr) : Looser rank (.operand e :: terms) := by
  intro op p hmem
  cases hmem with
  | tail _ hmem => exact h op p hmem

theorem operator (h : Looser rank terms) (op : Operator) (hop : rank < op.tier.rank) (p : Position) :
    Looser rank (.operator op p :: terms) := by
  intro op' p' hmem
  cases hmem with
  | head => exact hop
  | tail _ hmem => exact h op' p' hmem

theorem head {op : Operator} {p : Position} (h : Looser rank (.operator op p :: terms)) : rank < op.tier.rank :=
  h op p List.mem_cons_self

theorem tail {term : Term} (h : Looser rank (term :: terms)) : Looser rank terms :=
  fun op p hmem => h op p (List.mem_cons_of_mem term hmem)

theorem reverse (h : Looser rank terms) : Looser rank terms.reverse :=
  fun op p hmem => h op p (List.mem_reverse.1 hmem)

end Looser

/-- How a pass ends: with terms whose operators are looser than a rank, or for lack of an operand. -/
def Passes (rank : Nat) : Except SyntaxError (List Term) → Prop
  | .ok terms => Looser rank terms
  | .error e => ∃ op, e.cause = .missingOperand op

theorem Passes.bind {rank rank' : Nat} {first : Except SyntaxError (List Term)}
    {next : List Term → Except SyntaxError (List Term)} (h : Passes rank first)
    (hnext : ∀ terms, Looser rank terms → Passes rank' (next terms)) : Passes rank' (first >>= next) := by
  cases first with
  | error e => exact h
  | ok terms => exact hnext terms h

/-! ### Operators that are left -/

/-- Indices are hung on operands before any operator is looked at. -/
theorem attachIndices_passes {done : List Term} {nodes : List Node} (hdone : Looser 2 done) :
    Passes 2 (attachIndices done nodes) := by
  fun_induction attachIndices done nodes with
  | case1 done => exact hdone.reverse
  | case2 done e rest ih => exact ih (hdone.operand e)
  | case3 done op p rest ih => exact ih (hdone.operator op op.lt_rank_tier p)
  | case4 target done i p rest ih => exact ih (hdone.tail.operand _)
  | case5 => exact ⟨_, rfl⟩

/-- A prefix pass leaves the operators that it does not apply. -/
theorem applyPrefix_passes {op : Operator} {applies : Option Term → Bool} {build : Expr → Position → Expr}
    {rank rank' : Nat} {before : Option Term} {terms : List Term}
    (hleft : ∀ {found before}, rank < found.tier.rank → ¬ (found = op ∧ applies before = true) →
      rank' < found.tier.rank)
    (h : Looser rank terms) : Passes rank' (applyPrefix op applies build before terms) := by
  induction terms generalizing before with
  | nil => exact .nil
  | cons term rest ih =>
      have hrest : Passes rank' (applyPrefix op applies build (some term) rest) := ih h.tail
      rw [applyPrefix]
      cases happly : applyPrefix op applies build (some term) rest with
      | error e =>
          rw [happly] at hrest
          exact hrest
      | ok rest' =>
          rw [happly] at hrest
          have hrest : Looser rank' rest' := hrest
          cases term with
          | operand e => exact hrest.operand e
          | operator found p =>
              dsimp only
              split
              · split
                · exact hrest.tail.operand _
                · exact ⟨_, rfl⟩
              · rename_i hnot
                exact hrest.operator found (hleft h.head hnot) p

/-- A binary pass takes the operators of its tier away. -/
theorem joinTier_passes {t : BinaryTier} {tier : BinaryOp → Bool} {rank : Nat} (htier : ∀ op, tier op = (op.tier == t))
    (hrank : (Tier.binary t).rank = rank + 1) {done rest : List Term} (hdone : Looser (rank + 1) done)
    (hrest : Looser rank rest) : Passes (rank + 1) (joinTier tier done rest) := by
  fun_induction joinTier tier done rest with
  | case1 done => exact hdone.reverse
  | case2 done e rest ih => exact ih (hdone.operand e) hrest.tail
  | case3 done p rest ih =>
      have hne : Tier.negated.rank ≠ rank + 1 := by
        rw [← hrank]
        cases t <;> decide
      have hle : rank < Tier.negated.rank := hrest.head
      have hlt : rank + 1 < Tier.negated.rank := Nat.lt_of_le_of_ne hle hne.symm
      exact ih (hdone.operator .not hlt p) hrest.tail
  | case4 op p hop left done right rest ih => exact ih (hdone.tail.operand _) hrest.tail.tail
  | case5 => exact ⟨_, rfl⟩
  | case6 done op p rest hop ih =>
      have hne : (Tier.binary op.tier).rank ≠ rank + 1 := by
        intro heq
        rw [htier, BinaryTier.rank_injective (heq.trans hrank.symm)] at hop
        simp at hop
      have hle : rank < (Tier.binary op.tier).rank := hrest.head
      have hlt : rank + 1 < (Tier.binary op.tier).rank := Nat.lt_of_le_of_ne hle hne.symm
      exact ih (hdone.operator (.binary op) hlt p) hrest.tail

/-! ### Terms that are left -/

/-- A term stays, alone or in the tree of another one. -/
theorem attachIndices_ne_nil {done : List Term} {nodes : List Node} (h : done ≠ [] ∨ nodes ≠ []) :
    Ensures (· ≠ []) (attachIndices done nodes) := by
  fun_induction attachIndices done nodes with
  | case1 done => exact List.reverse_ne_nil_iff.2 (h.resolve_right (by simp))
  | case2 done e rest ih => exact ih (.inl (List.cons_ne_nil _ _))
  | case3 done op p rest ih => exact ih (.inl (List.cons_ne_nil _ _))
  | case4 target done i p rest ih => exact ih (.inl (List.cons_ne_nil _ _))
  | case5 => trivial

theorem applyPrefix_ne_nil {op : Operator} {applies : Option Term → Bool} {build : Expr → Position → Expr}
    {before : Option Term} {terms : List Term} (h : terms ≠ []) :
    Ensures (· ≠ []) (applyPrefix op applies build before terms) := by
  obtain ⟨term, rest, rfl⟩ := List.exists_cons_of_ne_nil h
  rw [applyPrefix]
  cases applyPrefix op applies build (some term) rest with
  | error e => trivial
  | ok rest =>
      cases term with
      | operand e => exact List.cons_ne_nil _ _
      | operator found p =>
          dsimp only
          split
          · split
            · exact List.cons_ne_nil _ _
            · trivial
          · exact List.cons_ne_nil _ _

theorem joinTier_ne_nil {tier : BinaryOp → Bool} {done rest : List Term} (h : done ≠ [] ∨ rest ≠ []) :
    Ensures (· ≠ []) (joinTier tier done rest) := by
  fun_induction joinTier tier done rest with
  | case1 done => exact List.reverse_ne_nil_iff.2 (h.resolve_right (by simp))
  | case5 => trivial
  | case2 done e rest ih => exact ih (.inl (List.cons_ne_nil _ _))
  | case3 done p rest ih => exact ih (.inl (List.cons_ne_nil _ _))
  | case4 op p hop left done right rest ih => exact ih (.inl (List.cons_ne_nil _ _))
  | case6 done op p rest hop ih => exact ih (.inl (List.cons_ne_nil _ _))

/-! ### A level -/

def reduced (nodes : List Node) : Except SyntaxError (List Term) := do
  let terms ← attachIndices [] nodes
  let terms ← applyPrefix (.binary .sub) isLeading negate none terms
  let terms ← joinTier isMultiplicative [] terms
  let terms ← joinTier isAdditive [] terms
  let terms ← joinTier isComparison [] terms
  let terms ← applyPrefix .not (fun _ => true) (.unary .not) none terms
  let terms ← joinTier (· == .and) [] terms
  joinTier (· == .or) [] terms

theorem level_eq_reduced {nodes : List Node} (place : Position) (h : nodes ≠ []) :
    level nodes place = reduced nodes >>= single := by
  have hempty : ¬ nodes.isEmpty = true := by simpa using h
  rw [level, if_neg hempty]
  simp only [reduced, bind_assoc]

theorem reduced_passes (nodes : List Node) : Passes 8 (reduced nodes) := by
  refine (attachIndices_passes .nil).bind fun terms h => ?_
  refine (applyPrefix_passes (fun hfound _ => hfound) h).bind fun terms h => ?_
  refine (joinTier_passes isMultiplicative_eq rfl .nil h).bind fun terms h => ?_
  refine (joinTier_passes isAdditive_eq rfl .nil h).bind fun terms h => ?_
  refine (joinTier_passes isComparison_eq rfl .nil h).bind fun terms h => ?_
  refine (applyPrefix_passes Operator.looser_than_not h).bind fun terms h => ?_
  refine (joinTier_passes beq_and_eq rfl .nil h).bind fun terms h => ?_
  exact joinTier_passes beq_or_eq rfl .nil h

theorem reduced_ne_nil {nodes : List Node} (h : nodes ≠ []) : Ensures (· ≠ []) (reduced nodes) := by
  refine (attachIndices_ne_nil (.inr h)).bind fun terms h => ?_
  refine (applyPrefix_ne_nil h).bind fun terms h => ?_
  refine (joinTier_ne_nil (.inr h)).bind fun terms h => ?_
  refine (joinTier_ne_nil (.inr h)).bind fun terms h => ?_
  refine (joinTier_ne_nil (.inr h)).bind fun terms h => ?_
  refine (applyPrefix_ne_nil h).bind fun terms h => ?_
  refine (joinTier_ne_nil (.inr h)).bind fun terms h => ?_
  exact joinTier_ne_nil (.inr h)

/-- Only operands are left, and some are. -/
theorem operands_of_reduced {nodes : List Node} {terms : List Term} (h : nodes ≠ []) (hok : reduced nodes = .ok terms) :
    terms ≠ [] ∧ ∀ term ∈ terms, term.isOperator = false := by
  refine ⟨(reduced_ne_nil h).of_eq_ok hok, fun term hterm => ?_⟩
  have hpasses := reduced_passes nodes
  rw [hok] at hpasses
  cases term with
  | operand e => rfl
  | operator op p => exact absurd (hpasses op p hterm) (Nat.not_lt.2 op.rank_tier_le)

end Reduction

end PolishPseudocode
