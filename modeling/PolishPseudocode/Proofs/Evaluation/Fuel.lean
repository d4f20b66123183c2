import PolishPseudocode.Proofs.Evaluation.Task
import PolishPseudocode.Run

/-! Fuel. More of it changes nothing in an evaluation that ended with less, so what a program ends with does not
depend on it: all fuel that suffices gives the same result. -/

namespace PolishPseudocode

/-- The second outcome is the first one, unless the first ran out of fuel. -/
def Outcome.Settled {α : Type} (outcome outcome' : Outcome α) : Prop :=
  outcome = .outOfFuel ∨ outcome' = outcome

namespace Outcome.Settled

variable {α β : Type} {outcome outcome' : Outcome α}

theorem refl (outcome : Outcome α) : outcome.Settled outcome :=
  .inr rfl

theorem trans {outcome'' : Outcome α} (h : outcome.Settled outcome') (h' : outcome'.Settled outcome'') :
    outcome.Settled outcome'' := by
  rcases h with h | rfl
  · exact .inl h
  · exact h'

theorem andThen {next next' : α → Machine → Outcome β} (h : outcome.Settled outcome')
    (hnext : ∀ value m, (next value m).Settled (next' value m)) :
    (outcome.andThen next).Settled (outcome'.andThen next') := by
  rcases h with rfl | rfl
  · exact .inl rfl
  · cases outcome' with
    | done value after => exact hnext value after
    | failed error after => exact .inr rfl
    | outOfFuel => exact .inl rfl

/-- What is done with the value needs no fuel. -/
theorem last {next : α → Machine → Outcome β} (h : outcome.Settled outcome') :
    (outcome.andThen next).Settled (outcome'.andThen next) :=
  h.andThen fun value m => refl (next value m)

theorem mapAfter {change : Machine → Machine} (h : outcome.Settled outcome') :
    (outcome.mapAfter change).Settled (outcome'.mapAfter change) := by
  rcases h with rfl | rfl
  · exact .inl rfl
  · exact .inr rfl

end Outcome.Settled

/-- One unit more than some fuel changes no outcome. -/
def StableAt (o : Origins) (fuel : Nat) : Prop :=
  ∀ (task : Task) (m : Machine), (task.run o fuel m).Settled (task.run o (fuel + 1) m)

namespace StableAt

variable {o : Origins} {fuel : Nat} (h : StableAt o fuel)

include h

theorem eval (e : Expr) (m : Machine) :
    (PolishPseudocode.eval o (fuel + 1) e m).Settled (PolishPseudocode.eval o (fuel + 2) e m) := by
  rw [PolishPseudocode.eval.eq_def o (fuel + 1), PolishPseudocode.eval.eq_def o (fuel + 2)]
  cases e with
  | literal value place => exact .refl _
  | var name => exact .refl _
  | unary op operand place => exact (h (.eval operand) m).last
  | binary left op right place =>
      refine (h (.eval left) m).andThen fun value m => ?_
      split
      · exact .refl _
      · exact (h (.eval right) m).last
  | index target index place =>
      exact (h (.eval index) m).andThen fun i m => (h (.eval target) m).last
  | call callee arguments place => exact (h (.call callee arguments place) m).last

theorem evalAll (es : List Expr) (m : Machine) :
    (PolishPseudocode.evalAll o (fuel + 1) es m).Settled (PolishPseudocode.evalAll o (fuel + 2) es m) := by
  cases es with
  | nil => exact .refl _
  | cons e rest =>
      rw [PolishPseudocode.evalAll, PolishPseudocode.evalAll]
      exact (h (.eval e) m).andThen fun value m => (h (.evalAll rest) m).last

theorem call (callee : Name) (arguments : List Expr) (place : Position) (m : Machine) :
    (PolishPseudocode.call o (fuel + 1) callee arguments place m).Settled
      (PolishPseudocode.call o (fuel + 2) callee arguments place m) := by
  rw [PolishPseudocode.call, PolishPseudocode.call]
  split
  · exact .refl _
  · split
    · exact (h (.evalAll arguments) m).last
    · exact .refl _
  · split
    · refine (h (.evalAll arguments) m).andThen fun values m => ?_
      split
      · exact (h (.block _) _).mapAfter.last
      · exact .refl _
    · exact .refl _
  · exact .refl _

theorem exec (s : Statement) (m : Machine) :
    (PolishPseudocode.exec o (fuel + 1) s m).Settled (PolishPseudocode.exec o (fuel + 2) s m) := by
  cases s with
  | assign target value =>
      cases target with
      | var name =>
          rw [PolishPseudocode.exec, PolishPseudocode.exec]
          exact (h (.eval value) m).last
      | element name index =>
          rw [PolishPseudocode.exec, PolishPseudocode.exec]
          refine (h (.eval value) m).andThen fun value m => ?_
          dsimp only
          split
          · exact (h (.eval index) _).last
          · exact .refl _
  | call callee arguments place =>
      rw [PolishPseudocode.exec, PolishPseudocode.exec]
      exact (h (.call callee arguments place) m).last
  | whileLoop condition body place =>
      rw [PolishPseudocode.exec, PolishPseudocode.exec]
      exact h (.loop condition body place) m
  | forLoop counter start second last body place =>
      rw [PolishPseudocode.exec, PolishPseudocode.exec]
      refine (h (.eval start) m).last.andThen fun start m => ?_
      refine (h (.eval second) m).last.andThen fun second m => ?_
      refine (h (.eval last) m).last.andThen fun last m => ?_
      exact h (.count counter.name (second - start) last body start) m
  | branch condition body otherwise place =>
      rw [PolishPseudocode.exec, PolishPseudocode.exec]
      refine (h (.eval condition) m).andThen fun (value : Value) m => ?_
      split
      · exact h (.block body) m
      · exact h (.block _) m
      · exact .refl _
      · exact .refl _
  | function name parameters body place => exact .refl _
  | giveBack value place =>
      cases value with
      | none => exact .refl _
      | some e =>
          cases e with
          | call callee arguments place =>
              rw [PolishPseudocode.exec, PolishPseudocode.exec]
              exact (h (.call callee arguments place) m).last
          | _ =>
              rw [PolishPseudocode.exec, PolishPseudocode.exec]
              · exact (h (.eval _) m).last
              · intro callee arguments place hcall
                cases hcall
              · intro callee arguments place hcall
                cases hcall
  | print e place =>
      rw [PolishPseudocode.exec, PolishPseudocode.exec]
      exact (h (.eval e) m).last

theorem block (b : Block) (m : Machine) : (execBlock o (fuel + 1) b m).Settled (execBlock o (fuel + 2) b m) := by
  cases b with
  | nil => exact .refl _
  | cons s rest =>
      rw [execBlock, execBlock]
      refine (h (.exec s) m).andThen fun flow m => ?_
      cases flow with
      | next => exact h (.block rest) m
      | giveBack value => exact .refl _

theorem loop (condition : Expr) (body : Block) (place : Position) (m : Machine) :
    (PolishPseudocode.loop o (fuel + 1) condition body place m).Settled
      (PolishPseudocode.loop o (fuel + 2) condition body place m) := by
  rw [PolishPseudocode.loop, PolishPseudocode.loop]
  refine (h (.eval condition) m).andThen fun (value : Value) m => ?_
  split
  · refine (h (.block body) m).andThen fun flow m => ?_
    cases flow with
    | next => exact h (.loop condition body place) m
    | giveBack value => exact .refl _
  · exact .refl _
  · exact .refl _

theorem count (counter : String) (step last : Float) (body : Block) (x : Float) (m : Machine) :
    (PolishPseudocode.count o (fuel + 1) counter step last body x m).Settled
      (PolishPseudocode.count o (fuel + 2) counter step last body x m) := by
  rw [PolishPseudocode.count, PolishPseudocode.count]
  split
  · refine (h (.block body) _).andThen fun flow m => ?_
    cases flow with
    | next => exact h (.count counter step last body (x + step)) m
    | giveBack value => exact .refl _
  · exact .refl _

theorem succ : StableAt o (fuel + 1) := by
  intro task m
  cases task with
  | eval e => exact h.eval e m
  | evalAll es => exact h.evalAll es m
  | call callee arguments place => exact h.call callee arguments place m
  | exec s => exact h.exec s m
  | block b => exact h.block b m
  | loop condition body place => exact h.loop condition body place m
  | count counter step last body x => exact h.count counter step last body x m

end StableAt

theorem stableAt (o : Origins) (fuel : Nat) : StableAt o fuel := by
  induction fuel with
  | zero =>
      intro task m
      exact .inl (Task.run_zero o task m)
  | succ fuel ih => exact ih.succ

/-- More fuel changes nothing once there is enough. -/
theorem Task.run_settled (o : Origins) {fuel fuel' : Nat} (hle : fuel ≤ fuel') (task : Task) (m : Machine) :
    (task.run o fuel m).Settled (task.run o fuel' m) := by
  induction hle with
  | refl => exact .refl _
  | step _ ih => exact ih.trans (stableAt o _ task m)

/-! ### Whole programs -/

theorem execProgram_settled (o : Origins) {fuel fuel' : Nat} (hle : fuel ≤ fuel') (p : Program) (m : Machine) :
    (execProgram o fuel p m).Settled (execProgram o fuel' p m) := by
  induction p generalizing m with
  | nil => exact .refl _
  | cons s rest ih => exact (Task.run_settled o hle (.exec s) m).andThen fun flow m => ih m

/-- A program ends with a result, if it has enough fuel. -/
def Program.Ends (o : Origins) (bindings : List (String × Datum)) (p : Program)
    (result : Except Failure (List Printed)) : Prop :=
  ∃ fuel, p.run? o fuel bindings = some result

theorem Program.run?_of_le {o : Origins} {bindings : List (String × Datum)} {p : Program} {fuel fuel' : Nat}
    {result : Except Failure (List Printed)} (h : p.run? o fuel bindings = some result) (hle : fuel ≤ fuel') :
    p.run? o fuel' bindings = some result := by
  rw [run?] at h ⊢
  rcases execProgram_settled o hle p (.initial bindings) with hout | hsame
  · rw [hout] at h
    cases h
  · rw [hsame]
    exact h

/-- A program ends with one result at most. -/
theorem Program.Ends.unique {o : Origins} {bindings : List (String × Datum)} {p : Program}
    {result result' : Except Failure (List Printed)} (h : p.Ends o bindings result)
    (h' : p.Ends o bindings result') : result = result' := by
  obtain ⟨fuel, h⟩ := h
  obtain ⟨fuel', h'⟩ := h'
  have hmax := Program.run?_of_le h (Nat.le_max_left fuel fuel')
  rw [Program.run?_of_le h' (Nat.le_max_right fuel fuel')] at hmax
  exact (Option.some.inj hmax).symm

end PolishPseudocode
