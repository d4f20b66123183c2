import PolishPseudocode.Proofs.Expr.Grammar
import PolishPseudocode.Proofs.Outcome
import Mathlib.Data.List.Forall2

/-! What a reduction accepts is derivable. Every pass of a reduction closes one nonterminal: before it, the
terms of a level are the phrases of the next tighter one with operators between them, and behind it
those of its own. -/

namespace PolishPseudocode

open Reduction

/-! ### Tests of a tier -/

theorem isMultiplicative_eq (op : BinaryOp) : isMultiplicative op = (op.tier == .product) := by
  cases op <;> rfl

theorem isAdditive_eq (op : BinaryOp) : isAdditive op = (op.tier == .sum) := by
  cases op <;> rfl

theorem isComparison_eq (op : BinaryOp) : isComparison op = (op.tier == .comparison) := by
  cases op <;> rfl

theorem beq_and_eq (op : BinaryOp) : (op == .and) = (op.tier == .conjunction) := by
  cases op <;> rfl

theorem beq_or_eq (op : BinaryOp) : (op == .or) = (op.tier == .disjunction) := by
  cases op <;> rfl

/-- A level in the words of the grammar: eight passes, each for one nonterminal. -/
theorem level_eq {nodes : List Node} (place : Position) (h : nodes ≠ []) :
    level nodes place = (do
      let terms ← attachIndices [] nodes
      let terms ← applyPrefix (.binary .sub) isLeading negate none terms
      let terms ← joinTier (·.tier == .product) [] terms
      let terms ← joinTier (·.tier == .sum) [] terms
      let terms ← joinTier (·.tier == .comparison) [] terms
      let terms ← applyPrefix .not (fun _ => true) (.unary .not) none terms
      let terms ← joinTier (·.tier == .conjunction) [] terms
      let terms ← joinTier (·.tier == .disjunction) [] terms
      single terms) := by
  have hempty : ¬ nodes.isEmpty = true := by simpa using h
  rw [level, if_neg hempty]
  simp only [← isMultiplicative_eq, ← isAdditive_eq, ← isComparison_eq, ← beq_and_eq, ← beq_or_eq]

/-! ### Pieces of an item list

A list of nodes or terms is spelled by items if it can be cut into pieces, one for each of its
elements, such that every piece derives its element. -/

/-- The items fall into pieces, one behind the other, that are related to the elements. -/
def Spells {ι α : Type} (derived : List ι → α → Prop) (items : List ι) (elements : List α) : Prop :=
  ∃ pieces : List (List ι), pieces.flatten = items ∧ List.Forall₂ derived pieces elements

namespace Spells

variable {ι α : Type} {derived : List ι → α → Prop} {items items' : List ι} {elements elements' : List α}

theorem nil : Spells derived [] [] :=
  ⟨[], rfl, .nil⟩

theorem append (h : Spells derived items elements) (h' : Spells derived items' elements') :
    Spells derived (items ++ items') (elements ++ elements') := by
  obtain ⟨pieces, rfl, hpieces⟩ := h
  obtain ⟨pieces', rfl, hpieces'⟩ := h'
  exact ⟨pieces ++ pieces', by simp, List.rel_append hpieces hpieces'⟩

theorem single {element : α} (h : derived items element) : Spells derived items [element] :=
  ⟨[items], by simp, .cons h .nil⟩

theorem cons {element : α} (h : derived items element) (hrest : Spells derived items' elements) :
    Spells derived (items ++ items') (element :: elements) :=
  (single h).append hrest

theorem eq_nil (h : Spells derived items []) : items = [] := by
  obtain ⟨pieces, rfl, hpieces⟩ := h
  cases hpieces
  rfl

theorem exists_of_cons {element : α} (h : Spells derived items (element :: elements)) :
    ∃ piece rest, items = piece ++ rest ∧ derived piece element ∧ Spells derived rest elements := by
  obtain ⟨pieces, rfl, hpieces⟩ := h
  cases hpieces with
  | cons hpiece hrest => exact ⟨_, _, rfl, hpiece, _, rfl, hrest⟩

theorem of_singleton {element : α} (h : Spells derived items [element]) : derived items element := by
  obtain ⟨piece, rest, rfl, hpiece, hrest⟩ := h.exists_of_cons
  rw [hrest.eq_nil, List.append_nil]
  exact hpiece

theorem exists_of_append (h : Spells derived items (elements ++ elements')) :
    ∃ front back, items = front ++ back ∧ Spells derived front elements
      ∧ Spells derived back elements' := by
  induction elements generalizing items with
  | nil => exact ⟨[], items, rfl, nil, h⟩
  | cons element elements ih =>
      obtain ⟨piece, rest, rfl, hpiece, hrest⟩ := h.exists_of_cons
      obtain ⟨front, back, rfl, hfront, hback⟩ := ih hrest
      exact ⟨piece ++ front, back, by simp, cons hpiece hfront, hback⟩

end Spells

/-- How items derive a node: an operand is a phrase in itself. -/
def Node.Derived (items : List Item) : Node → Prop
  | .operand e => Derives .primary items e
  | .operator op p => items = [.operator op p]
  | .index i p => items = [.index i p]

/-- How items derive a term once the phrases of a nonterminal are closed. -/
def Term.Derived (t : Tier) (items : List Item) : Term → Prop
  | .operand e => Derives t items e
  | .operator op p => items = [.operator op p]

/-- A chain with one more operator and operand at its end. -/
def Chain.snoc {t : BinaryTier} (op : BinaryOp) (hop : op.tier = t) (p : Position)
    (right : Phrase t.operand) : Chain t → Chain t
  | .nil => .cons op hop p right .nil
  | .cons op' hop' p' operand rest => .cons op' hop' p' operand (rest.snoc op hop p right)

theorem Chain.items_snoc {t : BinaryTier} {op : BinaryOp} {hop : op.tier = t} {p : Position}
    {right : Phrase t.operand} : (chain : Chain t) →
    (chain.snoc op hop p right).items = chain.items ++ .operator (.binary op) p :: right.items
  | .nil => by simp [Chain.snoc, Chain.items]
  | .cons op' hop' p' operand rest => by simp [Chain.snoc, Chain.items, items_snoc rest]

theorem Chain.expr_snoc {t : BinaryTier} {op : BinaryOp} {hop : op.tier = t} {p : Position}
    {right : Phrase t.operand} : (chain : Chain t) → (left : Expr) →
    (chain.snoc op hop p right).expr left = .binary (chain.expr left) op right.expr p
  | .nil, _ => rfl
  | .cons _ _ _ _ rest, _ => expr_snoc rest _

namespace Derives

variable {items items' : List Item} {e e' : Expr}

theorem indexed (h : Derives .primary items e) : Derives .indexed items e := by
  obtain ⟨phrase, rfl, rfl⟩ := h
  exact ⟨.indexed phrase [], by simp [Phrase.items, indexItems], rfl⟩

theorem index (h : Derives .indexed items e) (i : Expr) (p : Position) :
    Derives .indexed (items ++ [.index i p]) (.index e i p) := by
  obtain ⟨phrase, rfl, rfl⟩ := h
  cases phrase with
  | indexed target indices =>
      exact ⟨.indexed target (indices ++ [(i, p)]), by simp [Phrase.items, indexItems],
        by simp [Phrase.expr, indexExpr]⟩

theorem unsigned (h : Derives .indexed items e) : Derives .signed items e := by
  obtain ⟨phrase, rfl, rfl⟩ := h
  exact ⟨.unsigned phrase, rfl, rfl⟩

theorem minus (h : Derives .signed items e) (p : Position) :
    Derives .signed (.operator (.binary .sub) p :: items) (negate e p) := by
  obtain ⟨phrase, rfl, rfl⟩ := h
  exact ⟨.minus p phrase, rfl, phrase.expr_minus p⟩

theorem compared (h : Derives (.binary .comparison) items e) : Derives .negated items e := by
  obtain ⟨phrase, rfl, rfl⟩ := h
  exact ⟨.compared phrase, rfl, rfl⟩

theorem not (h : Derives .negated items e) (p : Position) :
    Derives .negated (.operator .not p :: items) (.unary .not e p) := by
  obtain ⟨phrase, rfl, rfl⟩ := h
  exact ⟨.not p phrase, rfl, rfl⟩

theorem chain {t : BinaryTier} (h : Derives t.operand items e) : Derives (.binary t) items e := by
  obtain ⟨phrase, rfl, rfl⟩ := h
  exact ⟨.chain phrase .nil, by simp [Phrase.items, Chain.items], rfl⟩

/-- A chain may be made longer at its end, which is where a binary tier associates. -/
theorem join {t : BinaryTier} {op : BinaryOp} (hop : op.tier = t) (h : Derives (.binary t) items e)
    (h' : Derives t.operand items' e') (p : Position) :
    Derives (.binary t) (items ++ .operator (.binary op) p :: items') (.binary e op e' p) := by
  obtain ⟨phrase, rfl, rfl⟩ := h
  obtain ⟨right, rfl, rfl⟩ := h'
  cases phrase with
  | chain first rest =>
      exact ⟨.chain first (rest.snoc op hop p right), by simp [Phrase.items, Chain.items_snoc],
        by simp [Phrase.expr, Chain.expr_snoc]⟩

theorem group (h : Derives (.binary .disjunction) items e) (opening closing : Position) :
    Derives .primary (.opening opening :: (items ++ [.closing closing])) e := by
  obtain ⟨phrase, rfl, rfl⟩ := h
  exact ⟨.group opening phrase closing, rfl, rfl⟩

end Derives

/-- The terms done so far, in reverse order, and the one that is done next. -/
theorem Spells.done {t : Tier} {items items' : List Item} {done : List Term} {term : Term}
    (h : Spells (Term.Derived t) items done.reverse) (hterm : Term.Derived t items' term) :
    Spells (Term.Derived t) (items ++ items') (term :: done).reverse := by
  rw [List.reverse_cons]
  exact h.append (.single hterm)

/-- The last term that is done, if it is an operand, and those before it. -/
theorem Spells.exists_of_done {t : Tier} {items : List Item} {done : List Term} {e : Expr}
    (h : Spells (Term.Derived t) items (.operand e :: done).reverse) :
    ∃ front back, items = front ++ back ∧ Spells (Term.Derived t) front done.reverse
      ∧ Derives t back e := by
  rw [List.reverse_cons] at h
  obtain ⟨front, back, heq, hfront, hback⟩ := h.exists_of_append
  exact ⟨front, back, heq, hfront, hback.of_singleton⟩

/-- Hanging indices on operands closes the indexed phrases. -/
theorem attachIndices_spells {items items' : List Item} {done : List Term} {nodes : List Node}
    {terms : List Term} (hdone : Spells (Term.Derived .indexed) items done.reverse)
    (hnodes : Spells Node.Derived items' nodes) (h : attachIndices done nodes = .ok terms) :
    Spells (Term.Derived .indexed) (items ++ items') terms := by
  fun_induction attachIndices done nodes generalizing items items' with
  | case1 done =>
      obtain rfl := Except.ok.inj h
      rw [hnodes.eq_nil, List.append_nil]
      exact hdone
  | case2 done e rest ih =>
      obtain ⟨piece, others, rfl, hpiece, hothers⟩ := hnodes.exists_of_cons
      have hpiece' : Term.Derived .indexed piece (.operand e) := Derives.indexed hpiece
      rw [← List.append_assoc]
      exact ih (hdone.done hpiece') hothers h
  | case3 done op p rest ih =>
      obtain ⟨piece, others, rfl, hpiece, hothers⟩ := hnodes.exists_of_cons
      have hpiece' : Term.Derived .indexed piece (.operator op p) := hpiece
      rw [← List.append_assoc]
      exact ih (hdone.done hpiece') hothers h
  | case4 target done i p rest ih =>
      obtain ⟨piece, others, rfl, rfl, hothers⟩ := hnodes.exists_of_cons
      obtain ⟨front, back, rfl, hfront, hback⟩ := hdone.exists_of_done
      have hindex : Term.Derived .indexed (back ++ [.index i p]) (.operand (.index target i p)) :=
        hback.index i p
      have := ih (hfront.done hindex) hothers h
      simpa using this
  | case5 => cases h

/-- Applying a prefix operator closes the phrases of its nonterminal. -/
theorem applyPrefix_spells {op : Operator} {applies : Option Term → Bool}
    {build : Expr → Position → Expr} {inner outer : Tier} {items : List Item} {before : Option Term}
    {terms terms' : List Term}
    (hinner : ∀ {items e}, Derives inner items e → Derives outer items e)
    (hbuild : ∀ {items e} (p : Position), Derives outer items e →
      Derives outer (.operator op p :: items) (build e p))
    (hterms : Spells (Term.Derived inner) items terms)
    (h : applyPrefix op applies build before terms = .ok terms') :
    Spells (Term.Derived outer) items terms' := by
  induction terms generalizing items before terms' with
  | nil =>
      obtain rfl := Except.ok.inj h
      rw [hterms.eq_nil]
      exact .nil
  | cons term rest ih =>
      obtain ⟨piece, others, rfl, hpiece, hothers⟩ := hterms.exists_of_cons
      rw [applyPrefix] at h
      split at h
      · cases h
      · rename_i rest' hrest
        have hrest' := ih hothers hrest
        cases term with
        | operand e =>
            obtain rfl := Except.ok.inj h
            exact .cons (hinner hpiece) hrest'
        | operator found p =>
            obtain rfl : piece = [.operator found p] := hpiece
            dsimp only at h
            split at h
            · rename_i happlies
              obtain ⟨rfl, -⟩ := happlies
              split at h
              · obtain rfl := Except.ok.inj h
                obtain ⟨operand, behind, rfl, hoperand, hbehind⟩ := hrest'.exists_of_cons
                have hbuilt : Term.Derived outer (.operator found p :: operand)
                    (.operand (build _ p)) := hbuild p hoperand
                simpa using Spells.cons hbuilt hbehind
              · cases h
            · obtain rfl := Except.ok.inj h
              exact .cons rfl hrest'

/-- Joining the operators of a tier closes its chains. -/
theorem joinTier_spells (t : BinaryTier) {items items' : List Item} {done rest terms : List Term}
    (hdone : Spells (Term.Derived (.binary t)) items done.reverse)
    (hrest : Spells (Term.Derived t.operand) items' rest)
    (h : joinTier (·.tier == t) done rest = .ok terms) :
    Spells (Term.Derived (.binary t)) (items ++ items') terms := by
  fun_induction joinTier (·.tier == t) done rest generalizing items items' with
  | case1 done =>
      obtain rfl := Except.ok.inj h
      rw [hrest.eq_nil, List.append_nil]
      exact hdone
  | case2 done e rest ih =>
      obtain ⟨piece, others, rfl, hpiece, hothers⟩ := hrest.exists_of_cons
      have hpiece' : Term.Derived (.binary t) piece (.operand e) := Derives.chain hpiece
      rw [← List.append_assoc]
      exact ih (hdone.done hpiece') hothers h
  | case3 done p rest ih =>
      obtain ⟨piece, others, rfl, hpiece, hothers⟩ := hrest.exists_of_cons
      have hpiece' : Term.Derived (.binary t) piece (.operator .not p) := hpiece
      rw [← List.append_assoc]
      exact ih (hdone.done hpiece') hothers h
  | case4 op p hop left done right rest ih =>
      obtain ⟨piece, others, rfl, rfl, hothers⟩ := hrest.exists_of_cons
      obtain ⟨operand, behind, rfl, hoperand, hbehind⟩ := hothers.exists_of_cons
      obtain ⟨front, back, rfl, hfront, hback⟩ := hdone.exists_of_done
      have hjoin : Term.Derived (.binary t) (back ++ .operator (.binary op) p :: operand)
          (.operand (.binary left op right p)) := hback.join (eq_of_beq hop) hoperand p
      have := ih (hfront.done hjoin) hbehind h
      simpa using this
  | case5 => cases h
  | case6 done op p rest hop ih =>
      obtain ⟨piece, others, rfl, hpiece, hothers⟩ := hrest.exists_of_cons
      have hpiece' : Term.Derived (.binary t) piece (.operator (.binary op) p) := hpiece
      rw [← List.append_assoc]
      exact ih (hdone.done hpiece') hothers h

/-- One operand is left if anything is. -/
theorem eq_of_single_eq_ok {terms : List Term} {e : Expr} (h : single terms = .ok e) :
    terms = [.operand e] := by
  unfold single at h
  split at h
  · rw [Except.ok.inj h]
  · cases h
  · cases h
  · split at h <;> cases h

/-- A level that is accepted is derivable. -/
theorem derives_of_level {items : List Item} {nodes : List Node} {place : Position} {e : Expr}
    (hnodes : Spells Node.Derived items nodes) (h : level nodes place = .ok e) :
    Derives (.binary .disjunction) items e := by
  have hne : nodes ≠ [] := by
    rintro rfl
    cases h
  rw [level_eq place hne] at h
  obtain ⟨terms₁, h₁, h⟩ := bind_eq_ok.1 h
  obtain ⟨terms₂, h₂, h⟩ := bind_eq_ok.1 h
  obtain ⟨terms₃, h₃, h⟩ := bind_eq_ok.1 h
  obtain ⟨terms₄, h₄, h⟩ := bind_eq_ok.1 h
  obtain ⟨terms₅, h₅, h⟩ := bind_eq_ok.1 h
  obtain ⟨terms₆, h₆, h⟩ := bind_eq_ok.1 h
  obtain ⟨terms₇, h₇, h⟩ := bind_eq_ok.1 h
  obtain ⟨terms₈, h₈, h⟩ := bind_eq_ok.1 h
  have hindexed := attachIndices_spells .nil hnodes h₁
  have hsigned := applyPrefix_spells Derives.unsigned (fun p h => h.minus p) hindexed h₂
  have hproduct := joinTier_spells .product .nil hsigned h₃
  have hsum := joinTier_spells .sum .nil hproduct h₄
  have hcomparison := joinTier_spells .comparison .nil hsum h₅
  have hnegated := applyPrefix_spells Derives.compared (fun p h => h.not p) hcomparison h₆
  have hconjunction := joinTier_spells .conjunction .nil hnegated h₇
  have hdisjunction := joinTier_spells .disjunction .nil hconjunction h₈
  rw [eq_of_single_eq_ok h] at hdisjunction
  exact hdisjunction.of_singleton

/-- The levels that are suspended, outermost last, are spelled by the items up to the last opening
parenthesis. -/
inductive Suspends : List (Position × List Node) → List Item → Prop where
  | nil : Suspends [] []
  | cons {suspended : List (Position × List Node)} {items items' : List Item} {outer : List Node}
      (opening : Position) (h : Suspends suspended items)
      (houter : Spells Node.Derived items' outer.reverse) :
      Suspends ((opening, outer) :: suspended) (items ++ items' ++ [.opening opening])

/-- One more node of the level that is collected. -/
theorem Spells.collect {items items' : List Item} {current : List Node} {node : Node}
    (h : Spells Node.Derived items current.reverse) (hnode : Node.Derived items' node) :
    Spells Node.Derived (items ++ items') (node :: current).reverse := by
  rw [List.reverse_cons]
  exact h.append (.single hnode)

/-- What is accepted from a state of the collection is derivable together with what was collected. -/
theorem derives_of_levels {place : Position} {suspended : List (Position × List Node)}
    {current : List Node} {before level rest : List Item} {e : Expr}
    (hsuspended : Suspends suspended before) (hcurrent : Spells Node.Derived level current.reverse)
    (h : levels place suspended current rest = .ok e) :
    Derives (.binary .disjunction) (before ++ level ++ rest) e := by
  fun_induction levels place suspended current rest generalizing before level with
  | case1 current =>
      cases hsuspended
      rw [List.nil_append, List.append_nil]
      exact derives_of_level hcurrent h
  | case2 => cases h
  | case3 suspended current e' rest ih =>
      have hnode : Node.Derived [.operand e'] (.operand e') := ⟨.operand e', rfl, rfl⟩
      simpa using ih hsuspended (hcurrent.collect hnode) h
  | case4 suspended current op p rest ih =>
      have hnode : Node.Derived [.operator op p] (.operator op p) := rfl
      simpa using ih hsuspended (hcurrent.collect hnode) h
  | case5 suspended current i p rest ih =>
      have hnode : Node.Derived [.index i p] (.index i p) := rfl
      simpa using ih hsuspended (hcurrent.collect hnode) h
  | case6 suspended current p rest ih =>
      simpa using ih (.cons p hsuspended hcurrent) .nil h
  | case7 => cases h
  | case8 => cases h
  | case9 current p rest opening outer suspended e' hlevel ih =>
      cases hsuspended with
      | cons _ hsuspended houter =>
          -- The closing parenthesis makes the level one operand of the level around it.
          have hnode : Node.Derived (.opening opening :: (level ++ [.closing p])) (.operand e') :=
            (derives_of_level hcurrent hlevel).group opening p
          simpa using ih hsuspended (houter.collect hnode) h

end PolishPseudocode
