import PolishPseudocode.Evaluation

/-! The parts of an evaluation. An expression, a call, a statement, a block and a loop are all tasks, which
are carried out from a state. Each task is made of others, and runs out of fuel exactly if one of these does;
the states in which they start are all the states that an evaluation comes through. -/

namespace PolishPseudocode

/-- Something to evaluate or to execute. -/
inductive Task where
  | eval (e : Expr)
  | evalAll (es : List Expr)
  | call (callee : Name) (arguments : List Expr) (place : Position)
  | exec (s : Statement)
  | block (b : Block)
  | loop (condition : Expr) (body : Block) (place : Position)
  | count (counter : String) (step last : Float) (body : Block) (x : Float)

def Task.Result : Task → Type
  | .eval _ => Value
  | .evalAll _ => List Value
  | .call _ _ _ => Option Value
  | .exec _ | .block _ | .loop _ _ _ | .count _ _ _ _ _ => Flow

def Task.run (o : Origins) (fuel : Nat) : (task : Task) → Machine → Outcome task.Result
  | .eval e, m => PolishPseudocode.eval o fuel e m
  | .evalAll es, m => PolishPseudocode.evalAll o fuel es m
  | .call callee arguments place, m => PolishPseudocode.call o fuel callee arguments place m
  | .exec s, m => PolishPseudocode.exec o fuel s m
  | .block b, m => execBlock o fuel b m
  | .loop condition body place, m => PolishPseudocode.loop o fuel condition body place m
  | .count counter step last body x, m => PolishPseudocode.count o fuel counter step last body x m

/-- Without fuel nothing ends. -/
theorem Task.run_zero (o : Origins) (task : Task) (m : Machine) : task.run o 0 m = .outOfFuel := by
  cases task with
  | eval e => exact PolishPseudocode.eval.eq_1 o e m
  | evalAll es => exact PolishPseudocode.evalAll.eq_1 o es m
  | call callee arguments place => exact PolishPseudocode.call.eq_1 o callee arguments place m
  | exec s => exact PolishPseudocode.exec.eq_1 o s m
  | block b => exact execBlock.eq_1 o b m
  | loop condition body place => exact PolishPseudocode.loop.eq_1 o condition body place m
  | count counter step last body x => exact PolishPseudocode.count.eq_1 o counter step last body x m

/-! ### The parts of a task -/

/-- What follows a value and the state it was reached in; nothing follows anything else. -/
def Outcome.followed {α β : Type} (outcome : Outcome α) (next : α → Machine → List β) : List β :=
  match outcome with
  | done value after => next value after
  | failed _ _ | outOfFuel => []

/-- The tasks that a task is made of and the states that they start in, in order. -/
def Task.parts (o : Origins) (fuel : Nat) : Task → Machine → List (Task × Machine)
  | .eval e, m =>
      match e with
      | .literal _ _ | .var _ => []
      | .unary _ operand _ => [(.eval operand, m)]
      | .binary left op right _ =>
          (.eval left, m) :: (PolishPseudocode.eval o fuel left m).followed fun value m =>
            if op.isDecidedBy value then [] else [(.eval right, m)]
      | .index target index _ =>
          (.eval index, m) :: (PolishPseudocode.eval o fuel index m).followed fun _ m =>
            [(.eval target, m)]
      | .call callee arguments place => [(.call callee arguments place, m)]
  | .evalAll [], _ => []
  | .evalAll (e :: rest), m =>
      (.eval e, m) :: (PolishPseudocode.eval o fuel e m).followed fun _ m => [(.evalAll rest, m)]
  | .call callee arguments _, m =>
      match m.lookup callee.name with
      | some (.builtin f) => if f.arity = arguments.length then [(.evalAll arguments, m)] else []
      | some (.function f) =>
          if f.arity = arguments.length then
            (.evalAll arguments, m) ::
              (PolishPseudocode.evalAll o fuel arguments m).followed fun values m =>
                if m.depth < Machine.maxDepth then
                  [(.block f.body, m.push (.ofArguments f.parameters values))]
                else []
          else []
      | _ => []
  | .exec s, m =>
      match s with
      | .assign (.var _) value => [(.eval value, m)]
      | .assign (.element name index) value =>
          (.eval value, m) :: (PolishPseudocode.eval o fuel value m).followed fun _ m =>
            if (m.elementOwner name.name).1.isIndexable then
              [(.eval index, (m.elementOwner name.name).2)]
            else []
      | .call callee arguments place => [(.call callee arguments place, m)]
      | .whileLoop condition body place => [(.loop condition body place, m)]
      | .forLoop counter start second last body place =>
          (.eval start, m) ::
            ((PolishPseudocode.eval o fuel start m).bound place).followed fun start m =>
              (.eval second, m) ::
                ((PolishPseudocode.eval o fuel second m).bound place).followed fun second m =>
                  (.eval last, m) ::
                    ((PolishPseudocode.eval o fuel last m).bound place).followed fun last m =>
                      [(.count counter.name (second - start) last body start, m)]
      | .branch condition body otherwise _ =>
          (.eval condition, m) :: (PolishPseudocode.eval o fuel condition m).followed fun value m =>
            match value, otherwise with
            | .bool true, _ => [(.block body, m)]
            | .bool false, some otherwise => [(.block otherwise, m)]
            | _, _ => []
      | .function _ _ _ _ | .giveBack none _ => []
      | .giveBack (some (.call callee arguments place)) _ => [(.call callee arguments place, m)]
      | .giveBack (some e) _ => [(.eval e, m)]
      | .print e _ => [(.eval e, m)]
  | .block [], _ => []
  | .block (s :: rest), m =>
      (.exec s, m) :: (PolishPseudocode.exec o fuel s m).followed fun flow m =>
        match flow with
        | .next => [(.block rest, m)]
        | .giveBack _ => []
  | .loop condition body place, m =>
      (.eval condition, m) :: (PolishPseudocode.eval o fuel condition m).followed fun value m =>
        match value with
        | .bool true =>
            (.block body, m) :: (execBlock o fuel body m).followed fun flow m =>
              match flow with
              | .next => [(.loop condition body place, m)]
              | .giveBack _ => []
        | _ => []
  | .count counter step last body x, m =>
      if countsOn step last x then
        (.block body, m.define counter (.number x)) ::
          (execBlock o fuel body (m.define counter (.number x))).followed fun flow m =>
            match flow with
            | .next => [(.count counter step last body (x + step), m)]
            | .giveBack _ => []
      else []

/-! ### Running out of fuel -/

namespace Outcome

variable {α β : Type}

theorem done_ne_outOfFuel {value : α} {m : Machine} : done value m ≠ .outOfFuel := by
  intro h
  cases h

theorem failed_ne_outOfFuel {error : RuntimeError} {m : Machine} :
    (failed error m : Outcome α) ≠ .outOfFuel := by
  intro h
  cases h

theorem ofExcept_ne_outOfFuel {m : Machine} {place : Position} {result : Except Fault α} :
    ofExcept m place result ≠ .outOfFuel := by
  cases result with
  | error fault => exact failed_ne_outOfFuel
  | ok value => exact done_ne_outOfFuel

theorem bound_eq_outOfFuel_iff {place : Position} {outcome : Outcome Value} :
    outcome.bound place = .outOfFuel ↔ outcome = .outOfFuel := by
  cases outcome with
  | done value after => cases value <;> simp [bound, andThen]
  | failed error after => simp [bound, andThen]
  | outOfFuel => simp [bound, andThen]

theorem mapAfter_eq_outOfFuel_iff {outcome : Outcome α} {change : Machine → Machine} :
    outcome.mapAfter change = .outOfFuel ↔ outcome = .outOfFuel := by
  cases outcome <;> simp [mapAfter]

end Outcome

/-- One of some tasks runs out of fuel. -/
def Starves (o : Origins) (fuel : Nat) (parts : List (Task × Machine)) : Prop :=
  ∃ part ∈ parts, part.1.run o fuel part.2 = .outOfFuel

namespace Starves

variable {o : Origins} {fuel : Nat} {α β : Type}

theorem not_nil : ¬ Starves o fuel [] := by
  rintro ⟨part, hpart, -⟩
  cases hpart

theorem single (task : Task) (m : Machine) :
    Starves o fuel [(task, m)] ↔ task.run o fuel m = .outOfFuel := by
  simp [Starves]

/-- What finishes with the value of a task runs out of fuel if the task does. -/
theorem last (task : Task) (m : Machine) {first : Outcome α} {next : α → Machine → Outcome β}
    (hfirst : first = .outOfFuel ↔ task.run o fuel m = .outOfFuel)
    (hnext : ∀ value m, next value m ≠ .outOfFuel) :
    first.andThen next = .outOfFuel ↔ Starves o fuel [(task, m)] := by
  rw [single, ← hfirst]
  cases first with
  | done value after => simp [Outcome.andThen, hnext]
  | failed error after => simp [Outcome.andThen]
  | outOfFuel => simp [Outcome.andThen]

/-- What goes on with the value of a first task runs out of fuel if that task does, or what follows it. -/
theorem cons_followed {task : Task} {m : Machine} {first : Outcome α}
    {rest : α → Machine → List (Task × Machine)} {next : α → Machine → Outcome β}
    (hfirst : first = .outOfFuel ↔ task.run o fuel m = .outOfFuel)
    (hnext : ∀ value m, next value m = .outOfFuel ↔ Starves o fuel (rest value m)) :
    first.andThen next = .outOfFuel ↔ Starves o fuel ((task, m) :: first.followed rest) := by
  have hcons : Starves o fuel ((task, m) :: first.followed rest)
      ↔ first = .outOfFuel ∨ Starves o fuel (first.followed rest) := by
    simp [Starves, hfirst]
  rw [hcons]
  cases first with
  | done value after =>
      change next value after = .outOfFuel ↔ _ ∨ Starves o fuel (rest value after)
      rw [hnext]
      simp
  | failed error after =>
      change Outcome.failed error after = .outOfFuel ↔ _ ∨ Starves o fuel []
      simp [not_nil]
  | outOfFuel => exact ⟨fun _ => .inl rfl, fun _ => rfl⟩

end Starves

namespace Task

variable {o : Origins} {fuel : Nat}

theorem eval_outOfFuel_iff (e : Expr) (m : Machine) :
    PolishPseudocode.eval o (fuel + 1) e m = .outOfFuel ↔ Starves o fuel ((Task.eval e).parts o fuel m) := by
  rw [PolishPseudocode.eval.eq_def]
  cases e with
  | literal value place => simp [parts, Starves]
  | var name =>
      dsimp only
      split <;> simp [parts, Starves]
  | unary op operand place =>
      exact Starves.last (.eval operand) m Iff.rfl fun value m => Outcome.ofExcept_ne_outOfFuel
  | binary left op right place =>
      refine Starves.cons_followed Iff.rfl fun value m => ?_
      split
      · simp [Starves.not_nil]
      · exact Starves.last (.eval right) m Iff.rfl fun value m => Outcome.ofExcept_ne_outOfFuel
  | index target index place =>
      refine Starves.cons_followed Iff.rfl fun value m => ?_
      refine Starves.last (.eval target) m Iff.rfl fun value m => ?_
      split
      · exact Outcome.done_ne_outOfFuel
      · exact Outcome.failed_ne_outOfFuel
  | call callee arguments place =>
      refine Starves.last (.call callee arguments place) m Iff.rfl fun result m => ?_
      split
      · exact Outcome.done_ne_outOfFuel
      · exact Outcome.failed_ne_outOfFuel

theorem evalAll_outOfFuel_iff (es : List Expr) (m : Machine) :
    PolishPseudocode.evalAll o (fuel + 1) es m = .outOfFuel
      ↔ Starves o fuel ((Task.evalAll es).parts o fuel m) := by
  cases es with
  | nil => simp [PolishPseudocode.evalAll, parts, Starves]
  | cons e rest =>
      rw [PolishPseudocode.evalAll]
      refine Starves.cons_followed Iff.rfl fun value m => ?_
      refine Starves.last (.evalAll rest) m Iff.rfl fun values m => ?_
      exact Outcome.done_ne_outOfFuel

theorem call_outOfFuel_iff (callee : Name) (arguments : List Expr) (place : Position) (m : Machine) :
    PolishPseudocode.call o (fuel + 1) callee arguments place m = .outOfFuel
      ↔ Starves o fuel ((Task.call callee arguments place).parts o fuel m) := by
  rw [PolishPseudocode.call, parts]
  cases m.lookup callee.name with
  | none => simp [Starves.not_nil]
  | some value =>
      cases value with
      | builtin f =>
          dsimp only
          split
          · exact Starves.last (.evalAll arguments) m Iff.rfl fun values m => Outcome.ofExcept_ne_outOfFuel
          · simp [Starves.not_nil]
      | function f =>
          dsimp only
          split
          · refine Starves.cons_followed Iff.rfl fun values m => ?_
            split
            · refine Starves.last (.block f.body) _ Outcome.mapAfter_eq_outOfFuel_iff fun flow m => ?_
              exact Outcome.done_ne_outOfFuel
            · simp [Starves.not_nil]
          · simp [Starves.not_nil]
      | _ => simp [Starves.not_nil]

theorem exec_outOfFuel_iff (s : Statement) (m : Machine) :
    PolishPseudocode.exec o (fuel + 1) s m = .outOfFuel
      ↔ Starves o fuel ((Task.exec s).parts o fuel m) := by
  cases s with
  | assign target value =>
      cases target with
      | var name =>
          rw [PolishPseudocode.exec]
          refine Starves.last (.eval value) m Iff.rfl fun value m => ?_
          exact Outcome.done_ne_outOfFuel
      | element name index =>
          rw [PolishPseudocode.exec]
          refine Starves.cons_followed Iff.rfl fun value m => ?_
          dsimp only
          split
          · refine Starves.last (.eval index) _ Iff.rfl fun i m => ?_
            split
            · exact Outcome.done_ne_outOfFuel
            · exact Outcome.failed_ne_outOfFuel
          · simp [Starves.not_nil]
  | call callee arguments place =>
      rw [PolishPseudocode.exec]
      refine Starves.last (.call callee arguments place) m Iff.rfl fun result m => ?_
      exact Outcome.done_ne_outOfFuel
  | whileLoop condition body place =>
      rw [PolishPseudocode.exec]
      exact (Starves.single (.loop condition body place) m).symm
  | forLoop counter start second last body place =>
      rw [PolishPseudocode.exec]
      refine Starves.cons_followed Outcome.bound_eq_outOfFuel_iff fun start m => ?_
      refine Starves.cons_followed Outcome.bound_eq_outOfFuel_iff fun second m => ?_
      refine Starves.cons_followed Outcome.bound_eq_outOfFuel_iff fun last m => ?_
      exact (Starves.single (.count counter.name (second - start) last body start) m).symm
  | branch condition body otherwise place =>
      rw [PolishPseudocode.exec]
      refine Starves.cons_followed Iff.rfl fun value m => ?_
      split
      · exact (Starves.single (.block body) m).symm
      · exact (Starves.single (.block _) m).symm
      · simp [Starves.not_nil]
      · simp [Starves.not_nil, *]
  | function name parameters body place => simp [PolishPseudocode.exec, parts, Starves]
  | giveBack value place =>
      cases value with
      | none => simp [PolishPseudocode.exec, parts, Starves]
      | some e =>
          cases e with
          | call callee arguments place =>
              rw [PolishPseudocode.exec]
              refine Starves.last (.call callee arguments place) m Iff.rfl fun result m => ?_
              exact Outcome.done_ne_outOfFuel
          | _ =>
              rw [PolishPseudocode.exec]
              · refine Starves.last (.eval _) m Iff.rfl fun value m => ?_
                exact Outcome.done_ne_outOfFuel
              · intro callee arguments place hcall
                cases hcall
  | print e place =>
      rw [PolishPseudocode.exec]
      refine Starves.last (.eval e) m Iff.rfl fun value m => ?_
      exact Outcome.done_ne_outOfFuel

theorem block_outOfFuel_iff (b : Block) (m : Machine) :
    execBlock o (fuel + 1) b m = .outOfFuel ↔ Starves o fuel ((Task.block b).parts o fuel m) := by
  cases b with
  | nil => simp [execBlock, parts, Starves]
  | cons s rest =>
      rw [execBlock]
      refine Starves.cons_followed Iff.rfl fun flow m => ?_
      cases flow with
      | next => exact (Starves.single (.block rest) m).symm
      | giveBack value => simp [Starves.not_nil]

theorem loop_outOfFuel_iff (condition : Expr) (body : Block) (place : Position) (m : Machine) :
    PolishPseudocode.loop o (fuel + 1) condition body place m = .outOfFuel
      ↔ Starves o fuel ((Task.loop condition body place).parts o fuel m) := by
  rw [PolishPseudocode.loop]
  refine Starves.cons_followed Iff.rfl fun value m => ?_
  split
  · refine Starves.cons_followed Iff.rfl fun flow m => ?_
    cases flow with
    | next => exact (Starves.single (.loop condition body place) m).symm
    | giveBack value => simp [Starves.not_nil]
  · simp [Starves.not_nil]
  · simp [Starves.not_nil, *]

theorem count_outOfFuel_iff (counter : String) (step last : Float) (body : Block) (x : Float) (m : Machine) :
    PolishPseudocode.count o (fuel + 1) counter step last body x m = .outOfFuel
      ↔ Starves o fuel ((Task.count counter step last body x).parts o fuel m) := by
  rw [PolishPseudocode.count, parts]
  split
  · refine Starves.cons_followed Iff.rfl fun flow m => ?_
    cases flow with
    | next => exact (Starves.single (.count counter step last body (x + step)) m).symm
    | giveBack value => simp [Starves.not_nil]
  · simp [Starves.not_nil]

/-- A task runs out of fuel exactly if one of its parts does, with one unit less. -/
theorem run_eq_outOfFuel_iff (task : Task) (m : Machine) :
    task.run o (fuel + 1) m = .outOfFuel ↔ Starves o fuel (task.parts o fuel m) := by
  cases task with
  | eval e => exact eval_outOfFuel_iff e m
  | evalAll es => exact evalAll_outOfFuel_iff es m
  | call callee arguments place => exact call_outOfFuel_iff callee arguments place m
  | exec s => exact exec_outOfFuel_iff s m
  | block b => exact block_outOfFuel_iff b m
  | loop condition body place => exact loop_outOfFuel_iff condition body place m
  | count counter step last body x => exact count_outOfFuel_iff counter step last body x m

end Task

/-- All the tasks that carrying out a task comes to, itself included, with the states they start in. -/
def Task.visits (o : Origins) : Nat → Task → Machine → List (Task × Machine)
  | 0, task, m => [(task, m)]
  | fuel + 1, task, m =>
      (task, m) :: (task.parts o fuel m).flatMap fun part => visits o fuel part.1 part.2

end PolishPseudocode
