import PolishPseudocode.Proofs.Evaluation.Task

/-! Laws of evaluation. A law relates the state before to the state after, in one way for expressions and in
another for statements, whether or not the evaluation fails. It holds of every task once it holds of the few
changes that a statement can make to the state and of the way into a call and out of it. -/

namespace PolishPseudocode

namespace Outcome

variable {α β : Type}

/-- The state in which an evaluation ends, with a value or an error, has a property. -/
def Leaves (property : Machine → Prop) : Outcome α → Prop
  | done _ after => property after
  | failed _ after => property after
  | outOfFuel => True

namespace Leaves

variable {property property' : Machine → Prop}

theorem imp {outcome : Outcome α} (h : outcome.Leaves property) (himp : ∀ m, property m → property' m) :
    outcome.Leaves property' := by
  cases outcome with
  | done value after => exact himp after h
  | failed error after => exact himp after h
  | outOfFuel => trivial

theorem andThen {first : Outcome α} {next : α → Machine → Outcome β} (h : first.Leaves property)
    (hfailed : ∀ m, property m → property' m)
    (hnext : ∀ value m, property m → (next value m).Leaves property') :
    (first.andThen next).Leaves property' := by
  cases first with
  | done value after => exact hnext value after h
  | failed error after => exact hfailed after h
  | outOfFuel => trivial

theorem mapAfter {outcome : Outcome α} {change : Machine → Machine} (h : outcome.Leaves property)
    (hchange : ∀ m, property m → property' (change m)) : (outcome.mapAfter change).Leaves property' := by
  cases outcome with
  | done value after => exact hchange after h
  | failed error after => exact hchange after h
  | outOfFuel => trivial

theorem ofExcept {m : Machine} {place : Position} {result : Except Fault α} (h : property m) :
    (Outcome.ofExcept m place result).Leaves property := by
  cases result with
  | error fault => exact h
  | ok value => exact h

/-- What follows an evaluation starts in the state that it leaves. -/
theorem followed {first : Outcome α} {rest : α → Machine → List β} {property' : β → Prop}
    (h : first.Leaves property) (hrest : ∀ value m, property m → ∀ x ∈ rest value m, property' x) :
    ∀ x ∈ first.followed rest, property' x := by
  cases first with
  | done value after => exact hrest value after h
  | failed error after => exact List.forall_mem_nil _
  | outOfFuel => exact List.forall_mem_nil _

theorem bound {place : Position} {outcome : Outcome Value} (h : outcome.Leaves property) :
    (outcome.bound place).Leaves property :=
  h.andThen (fun _ hm => hm) fun value m hm => by cases value <;> exact hm

end Leaves

end Outcome

/-- A relation between the state before and the state after, `inner` for expressions and `outer` for
statements, that every single change of the state keeps. -/
structure Law where
  inner : Machine → Machine → Prop
  outer : Machine → Machine → Prop
  inner_refl : ∀ m, inner m m
  inner_trans : ∀ {m m' m''}, inner m m' → inner m' m'' → inner m m''
  outer_trans : ∀ {m m' m''}, outer m m' → outer m' m'' → outer m m''
  outer_of_inner : ∀ {m m'}, inner m m' → outer m m'
  define : ∀ m name value, outer m (m.define name value)
  assign : ∀ m name value, outer m (m.assign name value)
  newArray : ∀ m items, outer m (m.newArray items).2
  setItem : ∀ m id slot value, outer m (m.setItem id slot value)
  newFunction : ∀ m parameters body, outer m (m.newFunction parameters body).2
  print : ∀ m value, outer m (m.print value)
  /-- A call leaves what the frame of its own is gone from. -/
  call : ∀ {m m'} frame, outer (m.push frame) m' → inner m m'.pop

namespace Law

variable (law : Law)

theorem outer_refl (m : Machine) : law.outer m m :=
  law.outer_of_inner (law.inner_refl m)

theorem elementOwner (m : Machine) (name : String) : law.outer m (m.elementOwner name).2 := by
  rw [Machine.elementOwner]
  split
  · exact law.outer_refl m
  · exact law.outer_trans (law.newArray m #[]) (law.define _ name _)

theorem perform (m : Machine) (write : Write) : law.outer m (m.perform write) := by
  cases write with
  | item id slot value => exact law.setItem m id slot value
  | var name value => exact law.assign m name value

def relation : Task → Machine → Machine → Prop
  | .eval _ | .evalAll _ | .call _ _ _ => law.inner
  | .exec _ | .block _ | .loop _ _ _ | .count _ _ _ _ _ => law.outer

/-- All tasks keep the law, within some fuel. -/
def HoldsWithin (o : Origins) (fuel : Nat) : Prop :=
  ∀ (task : Task) (m : Machine), (task.run o fuel m).Leaves (law.relation task m)

section

variable {α β : Type} {m : Machine} {first : Outcome α} {next : α → Machine → Outcome β}

/-- One evaluation after the other. -/
theorem then_inner (h : first.Leaves (law.inner m)) (hnext : ∀ value m', (next value m').Leaves (law.inner m')) :
    (first.andThen next).Leaves (law.inner m) :=
  h.andThen (fun _ hm => hm) fun value m' hm => (hnext value m').imp fun _ => law.inner_trans hm

/-- One execution after the other. -/
theorem then_outer (h : first.Leaves (law.outer m)) (hnext : ∀ value m', (next value m').Leaves (law.outer m')) :
    (first.andThen next).Leaves (law.outer m) :=
  h.andThen (fun _ hm => hm) fun value m' hm => (hnext value m').imp fun _ => law.outer_trans hm

/-- An evaluation, and then what a statement does with its value. -/
theorem inner_then_outer (h : first.Leaves (law.inner m))
    (hnext : ∀ value m', (next value m').Leaves (law.outer m')) :
    (first.andThen next).Leaves (law.outer m) :=
  law.then_outer (h.imp fun _ => law.outer_of_inner) hnext

end

/-! ### One unit of fuel more -/

namespace HoldsWithin

variable {law} {o : Origins} {fuel : Nat} (h : law.HoldsWithin o fuel)

include h

theorem eval (e : Expr) (m : Machine) : (PolishPseudocode.eval o (fuel + 1) e m).Leaves (law.inner m) := by
  rw [PolishPseudocode.eval.eq_def]
  cases e with
  | literal value place => exact law.inner_refl m
  | var name =>
      dsimp only
      split <;> exact law.inner_refl m
  | unary op operand place =>
      exact law.then_inner (h (.eval operand) m) fun value m => .ofExcept (law.inner_refl m)
  | binary left op right place =>
      refine law.then_inner (h (.eval left) m) fun value m => ?_
      split
      · exact law.inner_refl m
      · exact law.then_inner (h (.eval right) m) fun value m => .ofExcept (law.inner_refl m)
  | index target index place =>
      refine law.then_inner (h (.eval index) m) fun i m => ?_
      refine law.then_inner (h (.eval target) m) fun value m => ?_
      split <;> exact law.inner_refl m
  | call callee arguments place =>
      refine law.then_inner (h (.call callee arguments place) m) fun result m => ?_
      split <;> exact law.inner_refl m

theorem evalAll (es : List Expr) (m : Machine) :
    (PolishPseudocode.evalAll o (fuel + 1) es m).Leaves (law.inner m) := by
  cases es with
  | nil => exact law.inner_refl m
  | cons e rest =>
      rw [PolishPseudocode.evalAll]
      refine law.then_inner (h (.eval e) m) fun value m => ?_
      exact law.then_inner (h (.evalAll rest) m) fun values m => law.inner_refl m

theorem call (callee : Name) (arguments : List Expr) (place : Position) (m : Machine) :
    (PolishPseudocode.call o (fuel + 1) callee arguments place m).Leaves (law.inner m) := by
  rw [PolishPseudocode.call]
  split
  · exact law.inner_refl m
  · split
    · exact law.then_inner (h (.evalAll arguments) m) fun values m => .ofExcept (law.inner_refl m)
    · exact law.inner_refl m
  · rename_i f hf
    split
    · refine law.then_inner (h (.evalAll arguments) m) fun values m => ?_
      split
      · -- The frame that is pushed for the body is popped however the body ends.
        have hbody := h (.block f.body) (m.push (.ofArguments f.parameters values))
        have hcall := hbody.mapAfter fun m' => law.call (m := m) _
        exact law.then_inner hcall fun flow m => law.inner_refl m
      · exact law.inner_refl m
    · exact law.inner_refl m
  · exact law.inner_refl m

theorem exec (s : Statement) (m : Machine) :
    (PolishPseudocode.exec o (fuel + 1) s m).Leaves (law.outer m) := by
  cases s with
  | assign target value =>
      cases target with
      | var name =>
          rw [PolishPseudocode.exec]
          exact law.inner_then_outer (h (.eval value) m) fun value m => law.assign m name.name value
      | element name index =>
          rw [PolishPseudocode.exec]
          refine law.inner_then_outer (h (.eval value) m) fun value m => ?_
          have howner := law.elementOwner m name.name
          dsimp only
          split
          · refine Outcome.Leaves.imp ?_ fun m' => law.outer_trans howner
            refine law.inner_then_outer (h (.eval index) _) fun i m => ?_
            split
            · exact law.perform m _
            · exact law.outer_refl m
          · exact howner
  | call callee arguments place =>
      rw [PolishPseudocode.exec]
      exact law.inner_then_outer (h (.call callee arguments place) m) fun result m => law.outer_refl m
  | whileLoop condition body place =>
      rw [PolishPseudocode.exec]
      exact h (.loop condition body place) m
  | forLoop counter start second last body place =>
      rw [PolishPseudocode.exec]
      refine law.inner_then_outer (h (.eval start) m).bound fun start m => ?_
      refine law.inner_then_outer (h (.eval second) m).bound fun second m => ?_
      refine law.inner_then_outer (h (.eval last) m).bound fun last m => ?_
      exact h (.count counter.name (second - start) last body start) m
  | branch condition body otherwise place =>
      rw [PolishPseudocode.exec]
      refine law.inner_then_outer (h (.eval condition) m) fun value m => ?_
      split
      · exact h (.block body) m
      · exact h (.block _) m
      · exact law.outer_refl m
      · exact law.outer_refl m
  | function name parameters body place =>
      rw [PolishPseudocode.exec]
      exact law.outer_trans (law.newFunction m (parameters.map Name.name) body) (law.define _ name.name _)
  | giveBack value place =>
      cases value with
      | none => exact law.outer_refl m
      | some e =>
          cases e with
          | call callee arguments place =>
              rw [PolishPseudocode.exec]
              exact law.inner_then_outer (h (.call callee arguments place) m) fun result m =>
                law.outer_refl m
          | _ =>
              rw [PolishPseudocode.exec]
              · exact law.inner_then_outer (h (.eval _) m) fun value m => law.outer_refl m
              · intro callee arguments place hcall
                cases hcall
  | print e place =>
      rw [PolishPseudocode.exec]
      exact law.inner_then_outer (h (.eval e) m) fun value m => law.print m value

theorem block (b : Block) (m : Machine) : (execBlock o (fuel + 1) b m).Leaves (law.outer m) := by
  cases b with
  | nil => exact law.outer_refl m
  | cons s rest =>
      rw [execBlock]
      refine law.then_outer (h (.exec s) m) fun flow m => ?_
      cases flow with
      | next => exact h (.block rest) m
      | giveBack value => exact law.outer_refl m

theorem loop (condition : Expr) (body : Block) (place : Position) (m : Machine) :
    (PolishPseudocode.loop o (fuel + 1) condition body place m).Leaves (law.outer m) := by
  rw [PolishPseudocode.loop]
  refine law.inner_then_outer (h (.eval condition) m) fun value m => ?_
  split
  · refine law.then_outer (h (.block body) m) fun flow m => ?_
    cases flow with
    | next => exact h (.loop condition body place) m
    | giveBack value => exact law.outer_refl m
  · exact law.outer_refl m
  · exact law.outer_refl m

theorem count (counter : String) (step last : Float) (body : Block) (x : Float) (m : Machine) :
    (PolishPseudocode.count o (fuel + 1) counter step last body x m).Leaves (law.outer m) := by
  rw [PolishPseudocode.count]
  split
  · refine Outcome.Leaves.imp ?_ fun m' => law.outer_trans (law.define m counter (.number x))
    refine law.then_outer (h (.block body) _) fun flow m => ?_
    cases flow with
    | next => exact h (.count counter step last body (x + step)) m
    | giveBack value => exact law.outer_refl m
  · exact law.outer_refl m

theorem succ : law.HoldsWithin o (fuel + 1) := by
  intro task m
  cases task with
  | eval e => exact h.eval e m
  | evalAll es => exact h.evalAll es m
  | call callee arguments place => exact h.call callee arguments place m
  | exec s => exact h.exec s m
  | block b => exact h.block b m
  | loop condition body place => exact h.loop condition body place m
  | count counter step last body x => exact h.count counter step last body x m

end HoldsWithin

/-- Every task keeps every law. -/
theorem holdsWithin (o : Origins) (fuel : Nat) : law.HoldsWithin o fuel := by
  induction fuel with
  | zero =>
      intro task m
      rw [Task.run_zero]
      trivial
  | succ fuel ih => exact ih.succ

/-! ### Where the parts of a task start -/

/-- A state in which a part of a task may start, if the task starts in `m`: one that the law relates to `m`, or
such a state with one frame more if there was room for it. -/
def Starts (m start : Machine) : Prop :=
  law.outer m start
    ∨ ∃ m' frame, law.inner m m' ∧ m'.depth < Machine.maxDepth ∧ start = m'.push frame

section

variable {law} {m m' : Machine}

theorem starts_of_outer (h : law.outer m m') : law.Starts m m' :=
  .inl h

theorem starts_of_inner (h : law.inner m m') : law.Starts m m' :=
  .inl (law.outer_of_inner h)

theorem Starts.single {task : Task} (h : law.Starts m m') : ∀ part ∈ [(task, m')], law.Starts m part.2 :=
  List.forall_mem_singleton.2 h

/-- A first part, and those that follow it. -/
theorem Starts.cons {task : Task} {parts : List (Task × Machine)} (h : law.Starts m m')
    (hparts : ∀ part ∈ parts, law.Starts m part.2) :
    ∀ part ∈ (task, m') :: parts, law.Starts m part.2 :=
  List.forall_mem_cons.2 ⟨h, hparts⟩

end

variable (o : Origins) (fuel : Nat) (m : Machine)

theorem starts_refl : law.Starts m m :=
  starts_of_outer (law.outer_refl m)

theorem starts_parts_eval (e : Expr) : ∀ part ∈ (Task.eval e).parts o fuel m, law.Starts m part.2 := by
  have h := law.holdsWithin o fuel
  have hm := law.starts_refl m
  cases e with
  | literal value place => exact List.forall_mem_nil _
  | var name => exact List.forall_mem_nil _
  | unary op operand place => exact hm.single
  | binary left op right place =>
      refine hm.cons ((h (.eval left) m).followed fun value m' hm => ?_)
      split
      · exact List.forall_mem_nil _
      · exact (starts_of_inner hm).single
  | index target index place =>
      exact hm.cons ((h (.eval index) m).followed fun value m' hm => (starts_of_inner hm).single)
  | call callee arguments place => exact hm.single

theorem starts_parts_call (callee : Name) (arguments : List Expr) (place : Position) :
    ∀ part ∈ (Task.call callee arguments place).parts o fuel m, law.Starts m part.2 := by
  have h := law.holdsWithin o fuel
  have hm := law.starts_refl m
  rw [Task.parts]
  split
  · split
    · exact hm.single
    · exact List.forall_mem_nil _
  · split
    · refine hm.cons ((h (.evalAll arguments) m).followed fun values m' hm => ?_)
      split
      · rename_i hroom
        exact List.forall_mem_singleton.2 (.inr ⟨m', _, hm, hroom, rfl⟩)
      · exact List.forall_mem_nil _
    · exact List.forall_mem_nil _
  · exact List.forall_mem_nil _

theorem starts_parts_exec (s : Statement) : ∀ part ∈ (Task.exec s).parts o fuel m, law.Starts m part.2 := by
  have h := law.holdsWithin o fuel
  have hm := law.starts_refl m
  cases s with
  | assign target value =>
      cases target with
      | var name => exact hm.single
      | element name index =>
          refine hm.cons ((h (.eval value) m).followed fun value m' hm => ?_)
          split
          · have howner := law.elementOwner m' name.name
            exact (starts_of_outer (law.outer_trans (law.outer_of_inner hm) howner)).single
          · exact List.forall_mem_nil _
  | call callee arguments place => exact hm.single
  | whileLoop condition body place => exact hm.single
  | forLoop counter start second last body place =>
      refine hm.cons ((h (.eval start) m).bound.followed fun start m₁ h₁ => ?_)
      refine (starts_of_inner h₁).cons ((h (.eval second) m₁).bound.followed fun second m₂ h₂ => ?_)
      have h₂ := law.inner_trans h₁ h₂
      refine (starts_of_inner h₂).cons ((h (.eval last) m₂).bound.followed fun last m₃ h₃ => ?_)
      exact (starts_of_inner (law.inner_trans h₂ h₃)).single
  | branch condition body otherwise place =>
      refine hm.cons ((h (.eval condition) m).followed fun (value : Value) m' hm => ?_)
      split
      · exact (starts_of_inner hm).single
      · exact (starts_of_inner hm).single
      · exact List.forall_mem_nil _
  | function name parameters body place => exact List.forall_mem_nil _
  | giveBack value place =>
      cases value with
      | none => exact List.forall_mem_nil _
      | some e => cases e <;> exact hm.single
  | print e place => exact hm.single

theorem starts_parts_loop (condition : Expr) (body : Block) (place : Position) :
    ∀ part ∈ (Task.loop condition body place).parts o fuel m, law.Starts m part.2 := by
  have h := law.holdsWithin o fuel
  refine (law.starts_refl m).cons ((h (.eval condition) m).followed fun (value : Value) m' hm => ?_)
  split
  · refine (starts_of_inner hm).cons ((h (.block body) m').followed fun flow m'' hm' => ?_)
    cases flow with
    | next => exact (starts_of_outer (law.outer_trans (law.outer_of_inner hm) hm')).single
    | giveBack value => exact List.forall_mem_nil _
  · exact List.forall_mem_nil _

theorem starts_parts_count (counter : String) (step last : Float) (body : Block) (x : Float) :
    ∀ part ∈ (Task.count counter step last body x).parts o fuel m, law.Starts m part.2 := by
  have h := law.holdsWithin o fuel
  have hdefine := law.define m counter (.number x)
  rw [Task.parts]
  split
  · refine (starts_of_outer hdefine).cons ((h (.block body) _).followed fun flow m' hm => ?_)
    cases flow with
    | next => exact (starts_of_outer (law.outer_trans hdefine hm)).single
    | giveBack value => exact List.forall_mem_nil _
  · exact List.forall_mem_nil _

/-- Every part of a task starts where it may. -/
theorem starts_parts (task : Task) : ∀ part ∈ task.parts o fuel m, law.Starts m part.2 := by
  have h := law.holdsWithin o fuel
  cases task with
  | eval e => exact law.starts_parts_eval o fuel m e
  | evalAll es =>
      cases es with
      | nil => exact List.forall_mem_nil _
      | cons e rest =>
          exact (law.starts_refl m).cons
            ((h (.eval e) m).followed fun value m' hm => (starts_of_inner hm).single)
  | call callee arguments place => exact law.starts_parts_call o fuel m callee arguments place
  | exec s => exact law.starts_parts_exec o fuel m s
  | block b =>
      cases b with
      | nil => exact List.forall_mem_nil _
      | cons s rest =>
          refine (law.starts_refl m).cons ((h (.exec s) m).followed fun flow m' hm => ?_)
          cases flow with
          | next => exact (starts_of_outer hm).single
          | giveBack value => exact List.forall_mem_nil _
  | loop condition body place => exact law.starts_parts_loop o fuel m condition body place
  | count counter step last body x => exact law.starts_parts_count o fuel m counter step last body x

end Law

end PolishPseudocode
