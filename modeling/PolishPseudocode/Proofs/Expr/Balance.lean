import PolishPseudocode.Expr.Reader
import PolishPseudocode.Proofs.Expr.Reduced

/-! Parentheses are counted twice: while items are gathered, as a number that may fall below zero, and while they are
reduced, as a stack of levels. The number is that of the items, and the stack is as high as what is left of it unless
a closing parenthesis came too early and was refused. So where no parenthesis is open by the first count, none is by
the second. -/

namespace PolishPseudocode

/-- How far an item opens a parenthesis. -/
def Item.depth : Item → Int
  | .opening _ => 1
  | .closing _ => -1
  | _ => 0

/-- How many more parentheses are opened among some items than closed. -/
def depthOf : List Item → Int
  | [] => 0
  | item :: items => item.depth + depthOf items

theorem depthOf_append (items items' : List Item) : depthOf (items ++ items') = depthOf items + depthOf items' := by
  induction items with
  | nil => exact (Int.zero_add _).symm
  | cons item items ih => rw [List.cons_append, depthOf, ih, depthOf, Int.add_assoc]

theorem depthOf_reverse (items : List Item) : depthOf items.reverse = depthOf items := by
  induction items with
  | nil => rfl
  | cons item items ih =>
      calc depthOf (item :: items).reverse
          = depthOf items.reverse + depthOf [item] := by rw [List.reverse_cons, depthOf_append]
        _ = depthOf items + item.depth := by rw [ih, depthOf, depthOf, Int.add_zero]
        _ = depthOf (item :: items) := by rw [depthOf, Int.add_comm]

namespace Reading

/-! ### Gathering -/

/-- The depth of what was gathered so far is that of its items. -/
def Gathered.Counted (sofar : Gathered) : Prop :=
  sofar.depth = depthOf sofar.items

theorem Gathered.Counted.cons {sofar : Gathered} (h : sofar.Counted) (item : Item) {depth : Int}
    (hdepth : depth = sofar.depth + item.depth) : Gathered.Counted ⟨item :: sofar.items, depth⟩ := by
  show depth = depthOf (item :: sofar.items)
  rw [depthOf, hdepth, h, Int.add_comm]

theorem item_counted (r : Reading) (inCall : Bool) {sofar : Gathered} (next : Lexed) (tokens : List Lexed)
    (h : sofar.Counted) : Ensures (fun p => p.value.Counted) (r.item inCall sofar next tokens) := by
  have hoperand (e : Expr) : Gathered.Counted { sofar with items := .operand e :: sofar.items } :=
    h.cons _ (Int.add_zero _).symm
  rw [item]
  dsimp only
  split
  · exact .skip fun _ => hoperand _
  · exact .skip fun _ => hoperand _
  · exact .skip fun _ => hoperand _
  · exact .skip fun _ => hoperand _
  · exact .skip fun _ => h.cons (.operator _ _) (Int.add_zero _).symm
  · refine .skip fun _ => ?_
    split
    · rename_i callee before hitems
      refine .skip fun p => ?_
      -- The callee counts as much as the call that takes its place.
      have hcallee : sofar.depth = depthOf (.operand (.var callee) :: before) := hitems ▸ h
      exact hcallee
    · exact h.cons (.opening _) rfl
  · exact .skip fun _ => h.cons (.closing _) rfl
  · refine .skip fun _ => ?_
    exact .skip fun p => h.cons (.index _ _) (Int.add_zero _).symm
  · trivial
  · trivial

/-- The depth that is gathered is that of the items. -/
theorem gather_counted (r : Reading) (inCall : Bool) {sofar : Gathered} (next : Lexed) (tokens : List Lexed)
    (h : sofar.Counted) : Ensures (fun p => p.value.Counted) (r.gather inCall sofar next tokens) := by
  rw [gather]
  refine (item_counted r inCall next tokens h).bind ?_
  rintro ⟨sofar', rest, hlt⟩ hsofar
  cases rest with
  | nil => exact hsofar
  | cons next' rest =>
      dsimp only
      split
      · exact hsofar
      · exact (gather_counted r inCall next' rest hsofar).bind fun p hp => hp
termination_by tokens.length
decreasing_by
  simp only [List.length_cons] at hlt
  omega

end Reading

/-! ### Reducing -/

namespace Reduction

/-- Of what a level without parentheses is refused for, an open one is no cause. -/
theorem level_ne_unclosed (nodes : List Node) (place p : Position) :
    level nodes place ≠ .error ⟨.unclosedParenthesis none, p⟩ := by
  intro h
  by_cases hne : nodes = []
  · subst hne
    cases h
  · rw [level_eq_reduced place hne] at h
    have hpasses := reduced_passes nodes
    cases hreduced : reduced nodes with
    | error e =>
        rw [hreduced] at h hpasses
        obtain rfl := Except.error.inj h
        obtain ⟨op, hop⟩ := hpasses
        cases hop
    | ok terms =>
        rw [hreduced] at h
        have hsingle : single terms = .error ⟨.unclosedParenthesis none, p⟩ := h
        unfold single at hsingle
        split at hsingle
        · cases hsingle
        · cases hsingle
        · cases hsingle
        · split at hsingle <;> cases hsingle

/-- A level can only be left open if more parentheses are opened, those of suspended levels included, than closed. -/
theorem depth_pos_of_unclosed {place p : Position} {suspended : List (Position × List Node)} {current : List Node}
    {items : List Item} (h : levels place suspended current items = .error ⟨.unclosedParenthesis none, p⟩) :
    0 < suspended.length + depthOf items := by
  fun_induction levels place suspended current items with
  | case1 current => exact absurd h (level_ne_unclosed _ _ _)
  | case2 current opening nodes suspended =>
      simp only [List.length_cons, depthOf]
      omega
  | case3 suspended current e rest ih => simpa [depthOf, Item.depth] using ih h
  | case4 suspended current op q rest ih => simpa [depthOf, Item.depth] using ih h
  | case5 suspended current i q rest ih => simpa [depthOf, Item.depth] using ih h
  | case6 suspended current q rest ih =>
      have := ih h
      simp only [List.length_cons, depthOf, Item.depth] at this ⊢
      omega
  | case7 => cases h
  | case8 current q rest opening outer suspended e hlevel =>
      rw [Except.error.inj h] at hlevel
      exact absurd hlevel (level_ne_unclosed _ _ _)
  | case9 current q rest opening outer suspended e hlevel ih =>
      have := ih h
      simp only [List.length_cons, depthOf, Item.depth] at this ⊢
      omega

end Reduction

/-- What is gathered without an open parenthesis is not refused for one. -/
theorem Reading.gathered_ne_unclosed {r : Reading} {inCall : Bool} {next : Lexed} {tokens : List Lexed}
    {all : Parsed Reading.Gathered (tokens.length + 1)} (hall : r.gather inCall ⟨[], 0⟩ next tokens = .ok all)
    (hdepth : ¬ 0 < all.value.depth) (place p : Position) :
    Expr.ofItems all.value.items.reverse place ≠ .error ⟨.unclosedParenthesis none, p⟩ := by
  intro h
  have hnone : Reading.Gathered.Counted ⟨[], 0⟩ := rfl
  have hcounted : all.value.depth = depthOf all.value.items :=
    (Reading.gather_counted r inCall next tokens hnone).of_eq_ok hall
  have hpos := Reduction.depth_pos_of_unclosed h
  rw [List.length_nil, depthOf_reverse, ← hcounted] at hpos
  omega

end PolishPseudocode
