import PolishPseudocode.Evaluation
import PolishPseudocode.Proofs.Program.Tokens

/-! Where results are given back. Only a statement outside the bodies of the functions that it defines can end the
execution around it: where none of these gives back a result, the next statement follows, whatever is called. -/

namespace PolishPseudocode

namespace Statement

mutual

/-- A statement and the statements in its blocks, but none of those in the body of a function. -/
def unenclosed : Statement → List Statement
  | whileLoop condition body p => whileLoop condition body p :: unenclosedAll body
  | forLoop counter start second last body p =>
      forLoop counter start second last body p :: unenclosedAll body
  | branch condition body none p => branch condition body none p :: unenclosedAll body
  | branch condition body (some otherwise) p =>
      branch condition body (some otherwise) p :: (unenclosedAll body ++ unenclosedAll otherwise)
  | assign target value => [assign target value]
  | call callee arguments p => [call callee arguments p]
  | function name parameters body p => [function name parameters body p]
  | giveBack value p => [giveBack value p]
  | print value p => [print value p]

/-- Some statements and the statements in their blocks, but none of those in the body of a function. -/
def unenclosedAll : List Statement → List Statement
  | [] => []
  | s :: ss => s.unenclosed ++ unenclosedAll ss

end

theorem mem_unenclosedAll {s : Statement} {ss : List Statement} :
    s ∈ unenclosedAll ss ↔ ∃ s' ∈ ss, s ∈ s'.unenclosed := by
  induction ss with
  | nil => simp [unenclosedAll]
  | cons first ss ih => rw [unenclosedAll, List.mem_append, ih, List.exists_mem_cons_iff]

/-- None of the statements gives back a result. -/
def Retains (statements : List Statement) : Prop :=
  ∀ s ∈ statements, s.isGiveBack = false

end Statement

/-- If there is a value, it says that the next statement follows. -/
def Outcome.GoesOn : Outcome Flow → Prop
  | done flow _ => flow = .next
  | failed _ _ | outOfFuel => True

namespace Outcome.GoesOn

variable {α : Type}

theorem of_andThen (first : Outcome α) {next : α → Machine → Outcome Flow}
    (h : ∀ value m, (next value m).GoesOn) : (first.andThen next).GoesOn := by
  cases first with
  | done value after => exact h value after
  | failed error after => trivial
  | outOfFuel => trivial

/-- After a statement that the next one follows. -/
theorem andThen {first : Outcome Flow} {next : Flow → Machine → Outcome Flow} (h : first.GoesOn)
    (hnext : ∀ m, (next .next m).GoesOn) : (first.andThen next).GoesOn := by
  cases first with
  | done flow after =>
      obtain rfl : flow = .next := h
      exact hnext after
  | failed error after => trivial
  | outOfFuel => trivial

end Outcome.GoesOn

open Outcome (GoesOn)

/-! ### Statements, blocks and loops -/

mutual

theorem exec_goesOn (o : Origins) (fuel : Nat) {s : Statement} (h : Statement.Retains s.unenclosed) (m : Machine) :
    (exec o fuel s m).GoesOn := by
  cases fuel with
  | zero =>
      rw [exec]
      trivial
  | succ fuel =>
      rw [exec.eq_def]
      dsimp only
      cases s with
      | assign target value =>
          cases target with
          | var name => exact .of_andThen _ fun value m => rfl
          | element name index =>
              refine .of_andThen _ fun value m => ?_
              split
              · refine .of_andThen _ fun i m => ?_
                split
                · rfl
                · trivial
              · trivial
      | call callee arguments p => exact .of_andThen _ fun result m => rfl
      | whileLoop condition body p => exact loop_goesOn o fuel (List.forall_mem_cons.1 h).2 condition p m
      | forLoop counter start second last body p =>
          refine .of_andThen _ fun start m => .of_andThen _ fun second m => .of_andThen _ fun last m => ?_
          exact count_goesOn o fuel (List.forall_mem_cons.1 h).2 counter.name _ last start m
      | branch condition body otherwise p =>
          refine .of_andThen _ fun value m => ?_
          cases otherwise with
          | none =>
              have hbody := (List.forall_mem_cons.1 h).2
              split
              · exact execBlock_goesOn o fuel hbody m
              · contradiction
              · rfl
              · trivial
          | some otherwise =>
              obtain ⟨hbody, hotherwise⟩ := List.forall_mem_append.1 (List.forall_mem_cons.1 h).2
              split
              · exact execBlock_goesOn o fuel hbody m
              · rename_i heq
                cases heq
                exact execBlock_goesOn o fuel hotherwise m
              · rfl
              · trivial
      | function name parameters body p => rfl
      | giveBack value p => cases h _ List.mem_cons_self
      | print value p => exact .of_andThen _ fun value m => rfl
termination_by fuel

theorem execBlock_goesOn (o : Origins) (fuel : Nat) {b : Block} (h : Statement.Retains (Statement.unenclosedAll b))
    (m : Machine) : (execBlock o fuel b m).GoesOn := by
  cases fuel with
  | zero =>
      rw [execBlock]
      trivial
  | succ fuel =>
      cases b with
      | nil =>
          rw [execBlock]
          rfl
      | cons s rest =>
          obtain ⟨hs, hrest⟩ := List.forall_mem_append.1 h
          rw [execBlock]
          exact (exec_goesOn o fuel hs m).andThen fun m => execBlock_goesOn o fuel hrest m
termination_by fuel

theorem loop_goesOn (o : Origins) (fuel : Nat) {body : Block}
    (h : Statement.Retains (Statement.unenclosedAll body)) (condition : Expr) (place : Position) (m : Machine) :
    (loop o fuel condition body place m).GoesOn := by
  cases fuel with
  | zero =>
      rw [loop]
      trivial
  | succ fuel =>
      rw [loop]
      refine .of_andThen _ fun value m => ?_
      split
      · exact (execBlock_goesOn o fuel h m).andThen fun m => loop_goesOn o fuel h condition place m
      · rfl
      · trivial
termination_by fuel

theorem count_goesOn (o : Origins) (fuel : Nat) {body : Block}
    (h : Statement.Retains (Statement.unenclosedAll body)) (counter : String) (step last x : Float) (m : Machine) :
    (count o fuel counter step last body x m).GoesOn := by
  cases fuel with
  | zero =>
      rw [count]
      trivial
  | succ fuel =>
      rw [count]
      split
      · refine (execBlock_goesOn o fuel h _).andThen fun m => ?_
        exact count_goesOn o fuel h counter step last (x + step) m
      · rfl
termination_by fuel

end

end PolishPseudocode
