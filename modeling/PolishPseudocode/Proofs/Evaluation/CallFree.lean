import PolishPseudocode.Proofs.Evaluation.Cells
import PolishPseudocode.Proofs.Evaluation.Law

/-! Expressions without calls. They leave the state as it is, and what they give depends on the variables that they
read and on the elements of arrays alone. -/

namespace PolishPseudocode

def Expr.CallFree : Expr → Prop
  | .literal _ _ | .var _ => True
  | .unary _ operand _ => operand.CallFree
  | .binary left _ right _ => left.CallFree ∧ right.CallFree
  | .index target i _ => target.CallFree ∧ i.CallFree
  | .call _ _ _ => False

/-- A state with all variables of another one, and maybe more, and with the same elements in every array. -/
structure Machine.Extends (m m' : Machine) : Prop where
  lookup : ∀ name value, m.lookup name = some value → m'.lookup name = some value
  items : ∀ id, m'.items id = m.items id

/-- What is read of an element depends on the elements alone. -/
theorem Machine.element_of_items {m m' : Machine} (h : ∀ id, m'.items id = m.items id) {o : Origins}
    {target index value : Value} {subject : String} {place : Position}
    (hok : m.element o target index subject place = .ok value) :
    m'.element o target index subject place = .ok value := by
  cases target with
  | array id =>
      rw [Machine.element] at hok ⊢
      rw [h]
      split at hok
      · exact hok
      · cases hok
  | text s =>
      rw [Machine.element] at hok ⊢
      split at hok
      · exact hok
      · cases hok
  | _ => cases hok

section

variable {o : Origins}

/-- An expression without calls leaves the state as it is. -/
theorem eval_leaves (fuel : Nat) {e : Expr} (he : e.CallFree) (m : Machine) : (eval o fuel e m).Leaves (· = m) := by
  induction fuel generalizing e with
  | zero =>
      rw [eval]
      trivial
  | succ fuel ih =>
      rw [eval.eq_def]
      cases e with
      | literal value place => rfl
      | var name =>
          dsimp only
          split <;> rfl
      | unary op operand place =>
          have hoperand : operand.CallFree := he
          exact (ih hoperand).andThen (fun _ h => h) fun value m' h => .ofExcept h
      | binary left op right place =>
          refine (ih he.1).andThen (fun _ h => h) fun value m' h => ?_
          subst h
          split
          · rfl
          · exact (ih he.2).andThen (fun _ h => h) fun value m' h => .ofExcept h
      | index target index place =>
          refine (ih he.2).andThen (fun _ h => h) fun i m' h => ?_
          subst h
          refine (ih he.1).andThen (fun _ h => h) fun value m' h => ?_
          subst h
          split <;> rfl
      | call callee arguments place => exact he.elim

theorem eq_of_eval_done {fuel : Nat} {e : Expr} (he : e.CallFree) {m m' : Machine} {value : Value}
    (h : eval o fuel e m = .done value m') : m' = m := by
  have hleaves := eval_leaves (o := o) fuel he m
  rw [h] at hleaves
  exact hleaves

/-! ### What the parts give -/

section

variable {fuel : Nat} {m : Machine} {value : Value}

theorem Outcome.andThen_eq_done_iff {α β : Type} {first : Outcome α} {next : α → Machine → Outcome β} {b : β}
    {after : Machine} :
    first.andThen next = .done b after ↔ ∃ a middle, first = .done a middle ∧ next a middle = .done b after := by
  cases first <;> simp [Outcome.andThen]

/-- The rest of an evaluation whose first part has no calls goes on in the same state. -/
theorem eval_andThen_eq_done_iff {β : Type} {e : Expr} (he : e.CallFree) {next : Value → Machine → Outcome β} {b : β}
    {after : Machine} :
    (eval o fuel e m).andThen next = .done b after
      ↔ ∃ first, eval o fuel e m = .done first m ∧ next first m = .done b after := by
  rw [Outcome.andThen_eq_done_iff]
  constructor
  · rintro ⟨first, middle, hfirst, hnext⟩
    obtain rfl := eq_of_eval_done he hfirst
    exact ⟨first, hfirst, hnext⟩
  · rintro ⟨first, hfirst, hnext⟩
    exact ⟨first, m, hfirst, hnext⟩

theorem Outcome.ofExcept_eq_done_iff {place : Position} {result : Except Fault Value} :
    Outcome.ofExcept m place result = .done value m ↔ result = .ok value := by
  cases result <;> simp [Outcome.ofExcept]

theorem eval_var_iff {name : Name} :
    eval o (fuel + 1) (.var name) m = .done value m ↔ m.lookup name.name = some value := by
  rw [eval]
  cases m.lookup name.name <;> simp

theorem eval_unary_iff {op : UnaryOp} {operand : Expr} {place : Position} (he : operand.CallFree) :
    eval o (fuel + 1) (.unary op operand place) m = .done value m
      ↔ ∃ v, eval o fuel operand m = .done v m ∧ op.apply v = .ok value := by
  rw [eval, eval_andThen_eq_done_iff he]
  simp only [Outcome.ofExcept_eq_done_iff]

theorem eval_binary_iff {op : BinaryOp} {left right : Expr} {place : Position} (hl : left.CallFree)
    (hr : right.CallFree) :
    eval o (fuel + 1) (.binary left op right place) m = .done value m
      ↔ ∃ v, eval o fuel left m = .done v m
        ∧ ((op.isDecidedBy v = true ∧ v = value)
          ∨ (op.isDecidedBy v = false ∧ ∃ w, eval o fuel right m = .done w m ∧ op.apply v w = .ok value)) := by
  rw [eval, eval_andThen_eq_done_iff hl]
  refine exists_congr fun v => and_congr_right fun _ => ?_
  cases hdecided : op.isDecidedBy v with
  | true => simp
  | false =>
      simp only [Bool.false_eq_true, if_false, false_and, true_and, false_or]
      rw [eval_andThen_eq_done_iff hr]
      simp only [Outcome.ofExcept_eq_done_iff]

theorem eval_index_iff {target i : Expr} {place : Position} (ht : target.CallFree) (hi : i.CallFree) :
    eval o (fuel + 1) (.index target i place) m = .done value m
      ↔ ∃ v w, eval o fuel i m = .done v m ∧ eval o fuel target m = .done w m
        ∧ m.element o w v target.subject place = .ok value := by
  rw [eval, eval_andThen_eq_done_iff hi]
  refine exists_congr fun v => ?_
  rw [eval_andThen_eq_done_iff ht, exists_and_left]
  refine and_congr_right fun _ => exists_congr fun w => and_congr_right fun _ => ?_
  cases m.element o w v target.subject place <;> simp

end

/-- What an expression without calls gives in a state it also gives in one with more variables. -/
theorem Machine.Extends.eval {m m' : Machine} (h : m.Extends m') {fuel : Nat} {e : Expr} (he : e.CallFree)
    {value : Value} (hvalue : PolishPseudocode.eval o fuel e m = .done value m) :
    PolishPseudocode.eval o fuel e m' = .done value m' := by
  induction fuel generalizing e value with
  | zero =>
      rw [PolishPseudocode.eval] at hvalue
      cases hvalue
  | succ fuel ih =>
      cases e with
      | literal literal place =>
          rw [PolishPseudocode.eval] at hvalue ⊢
          cases hvalue
          rfl
      | var name => exact eval_var_iff.2 (h.lookup _ _ (eval_var_iff.1 hvalue))
      | unary op operand place =>
          have hoperand : operand.CallFree := he
          obtain ⟨v, hv, happly⟩ := (eval_unary_iff hoperand).1 hvalue
          exact (eval_unary_iff hoperand).2 ⟨v, ih hoperand hv, happly⟩
      | binary left op right place =>
          obtain ⟨v, hv, hrest⟩ := (eval_binary_iff he.1 he.2).1 hvalue
          refine (eval_binary_iff he.1 he.2).2 ⟨v, ih he.1 hv, hrest.imp_right ?_⟩
          rintro ⟨hdecided, w, hw, happly⟩
          exact ⟨hdecided, w, ih he.2 hw, happly⟩
      | index target i place =>
          obtain ⟨v, w, hv, hw, helement⟩ := (eval_index_iff he.1 he.2).1 hvalue
          exact (eval_index_iff he.1 he.2).2 ⟨v, w, ih he.2 hv, ih he.1 hw, Machine.element_of_items h.items helement⟩
      | call callee arguments place => exact he.elim

/-! ### A new empty array -/

/-- A value that no number is made of: a text, a truth value, or an array without elements. -/
def Value.Barren (id : Nat) : Value → Prop
  | text _ | bool _ => True
  | array id' => id' = id
  | _ => False

theorem UnaryOp.barren_of_apply {op : UnaryOp} {v value : Value} {id : Nat} (h : op.apply v = .ok value)
    (hbarren : v.Barren id) : value.Barren id := by
  cases op with
  | not =>
      cases h
      trivial
  | negate =>
      cases v with
      | number x => exact hbarren.elim
      | _ => cases h

theorem BinaryOp.barren_of_apply {op : BinaryOp} {v w value : Value} {id : Nat} (h : op.apply v w = .ok value)
    (hbarren : v.Barren id ∨ w.Barren id) : value.Barren id := by
  have hnumbers (x y : Float) : ¬ ((Value.number x).Barren id ∨ (Value.number y).Barren id) := by
    rintro (h | h) <;> exact h
  have horder (op : BinaryOp) (h : op.applyOrder v w = .ok value) : value.Barren id := by
    rw [applyOrder.eq_def] at h
    split at h <;> cases h <;> trivial
  have hequality (negated : Bool) (h : applyEquality negated v w = .ok value) : value.Barren id := by
    rw [applyEquality] at h
    split at h <;> cases h
    trivial
  have hlogic (connective : Bool → Bool → Bool) (h : applyLogic connective v w = .ok value) : value.Barren id := by
    rw [applyLogic.eq_def] at h
    split at h <;> cases h
    trivial
  have harithmetic (operation : Float → Float → Float) (h : applyArithmetic operation v w = .ok value) :
      value.Barren id := by
    rw [applyArithmetic.eq_def] at h
    split at h
    · exact absurd hbarren (hnumbers _ _)
    · cases h
  cases op with
  | greater | less | greaterEqual | lessEqual => exact horder _ h
  | equal | notEqual => exact hequality _ h
  | and | or => exact hlogic _ h
  | add =>
      rw [apply, applyAddition.eq_def] at h
      split at h
      · exact absurd hbarren (hnumbers _ _)
      · cases h
        trivial
      · cases h
  | sub | mul | div | intDiv | mod => exact harithmetic _ h

theorem Machine.barren_of_element {m : Machine} {target i value : Value} {subject : String} {place : Position}
    (h : m.element o target i subject place = .ok value) {id : Nat} (hid : m.items id = #[])
    (hbarren : i.Barren id ∨ target.Barren id) : value.Barren id := by
  have hindex {origin : Int} {slot : Nat} (hslot : i.slot? origin = some slot) : ¬ i.Barren id := by
    cases i with
    | number x => exact fun h => h
    | _ => cases hslot
  rw [element.eq_def] at h
  split at h
  · split at h
    · rename_i id' _ found hfound
      obtain ⟨slot, hslot, hget⟩ := Option.bind_eq_some_iff.1 hfound
      have hsame : id' = id := hbarren.resolve_left (hindex hslot)
      rw [hsame, hid] at hget
      cases hget
    · cases h
  · split at h <;> cases h
    trivial
  · cases h

/-- The state in which a name that was not there is an empty array. -/
theorem Machine.extends_elementOwner {m : Machine} {name : String} (hname : m.lookup name = none) :
    m.Extends (m.elementOwner name).2 := by
  rw [elementOwner_of_none hname]
  refine ⟨fun other value hvalue => ?_, m.items_newArray_empty⟩
  have hne : other ≠ name := by
    rintro rfl
    rw [hname] at hvalue
    cases hvalue
  rw [lookup_define, if_neg hne]
  exact hvalue

/-- A name that is not there becomes an empty array before the index is evaluated. No number comes out of that array,
so an index without calls that is a number then was the same number before. -/
theorem eval_elementOwner {fuel : Nat} {e : Expr} (he : e.CallFree) {m : Machine} {name : String}
    (hname : m.lookup name = none) {value : Value}
    (hvalue : eval o fuel e (m.elementOwner name).2 = .done value (m.elementOwner name).2) :
    eval o fuel e m = .done value m ∨ value.Barren m.arrays.size := by
  have hextends := Machine.extends_elementOwner hname
  have hempty : (m.elementOwner name).2.items m.arrays.size = #[] := by
    rw [hextends.items, Machine.items_of_le (le_refl _)]
  induction fuel generalizing e value with
  | zero =>
      rw [eval] at hvalue
      cases hvalue
  | succ fuel ih =>
      cases e with
      | literal literal place =>
          rw [eval] at hvalue ⊢
          cases hvalue
          exact .inl rfl
      | var other =>
          rw [eval_var_iff, Machine.elementOwner_of_none hname, Machine.lookup_define] at hvalue
          split at hvalue
          · cases hvalue
            exact .inr rfl
          · exact .inl (eval_var_iff.2 hvalue)
      | unary op operand place =>
          have hoperand : operand.CallFree := he
          obtain ⟨v, hv, happly⟩ := (eval_unary_iff hoperand).1 hvalue
          rcases ih hoperand hv with hv | hv
          · exact .inl ((eval_unary_iff hoperand).2 ⟨v, hv, happly⟩)
          · exact .inr (UnaryOp.barren_of_apply happly hv)
      | binary left op right place =>
          obtain ⟨v, hv, hrest⟩ := (eval_binary_iff he.1 he.2).1 hvalue
          rcases hrest with ⟨hdecided, rfl⟩ | ⟨hdecided, w, hw, happly⟩
          · refine (ih he.1 hv).imp_left fun hv => ?_
            exact (eval_binary_iff he.1 he.2).2 ⟨v, hv, .inl ⟨hdecided, rfl⟩⟩
          · rcases ih he.1 hv with hv | hv
            · rcases ih he.2 hw with hw | hw
              · exact .inl ((eval_binary_iff he.1 he.2).2 ⟨v, hv, .inr ⟨hdecided, w, hw, happly⟩⟩)
              · exact .inr (BinaryOp.barren_of_apply happly (.inr hw))
            · exact .inr (BinaryOp.barren_of_apply happly (.inl hv))
      | index target i place =>
          obtain ⟨v, w, hv, hw, helement⟩ := (eval_index_iff he.1 he.2).1 hvalue
          rcases ih he.2 hv with hv | hv
          · rcases ih he.1 hw with hw | hw
            · refine .inl ((eval_index_iff he.1 he.2).2 ⟨v, w, hv, hw, ?_⟩)
              exact Machine.element_of_items (fun id => (hextends.items id).symm) helement
            · exact .inr (Machine.barren_of_element helement hempty (.inr hw))
          · exact .inr (Machine.barren_of_element helement hempty (.inl hv))
      | call callee arguments place => exact he.elim

end

end PolishPseudocode
