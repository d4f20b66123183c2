import PolishPseudocode.Machine.Element
import PolishPseudocode.Value.Operation

/-! Evaluation of expressions and execution of statements. Every step spends one unit of fuel, so a
program that never ends runs out of it; running out is an outcome of its own. A failure keeps the
state it happened in, with all that was printed. -/

namespace PolishPseudocode

/-- How an evaluation ends: with a value, with an error, or not within the fuel. -/
inductive Outcome (α : Type) where
  | done (value : α) (after : Machine)
  | failed (error : RuntimeError) (after : Machine)
  | outOfFuel

namespace Outcome

/-- Goes on with the value and the state, if there is a value. -/
@[inline] def andThen {α β : Type} (outcome : Outcome α) (next : α → Machine → Outcome β) :
    Outcome β :=
  match outcome with
  | done value after => next value after
  | failed error after => failed error after
  | outOfFuel => outOfFuel

@[inline] def mapAfter {α : Type} (outcome : Outcome α) (change : Machine → Machine) : Outcome α :=
  match outcome with
  | done value after => done value (change after)
  | failed error after => failed error (change after)
  | outOfFuel => outOfFuel

/-- The outcome of an operation that leaves the state alone. -/
@[inline] def ofExcept {α : Type} (m : Machine) (place : Position) : Except Fault α → Outcome α
  | .ok value => done value m
  | .error fault => failed ⟨fault, place⟩ m

end Outcome

/-- How a statement ends: the next one follows, or the function that is running gives back its
result, which may be none. -/
inductive Flow where
  | next
  | giveBack (value : Option Value)

/-- The result of a call whose body ended in this way. -/
def Flow.result : Flow → Option Value
  | .next => none
  | .giveBack value => value

/-- Whether a counting loop with this step goes on at `x`; with a step of zero it never starts. -/
def countsOn (step last x : Float) : Bool :=
  if 0 < step then decide (x ≤ last)
  else if step < 0 then decide (last ≤ x)
  else false

/-- A bound of a counting loop, which stands at `place`, must be a number. -/
@[inline] def Outcome.bound (place : Position) (outcome : Outcome Value) : Outcome Float :=
  outcome.andThen fun value m =>
    match value with
    | .number x => .done x m
    | _ => .failed ⟨.notNumbers, place⟩ m

mutual

def eval (o : Origins) : Nat → Expr → Machine → Outcome Value
  | 0, _, _ => .outOfFuel
  | fuel + 1, e, m =>
      match e with
      | .literal value _ => .done (.ofLiteral value) m
      | .var name =>
          match m.lookup name.name with
          | some value => .done value m
          | none => .failed ⟨.unknownVariable name.name, name.position⟩ m
      | .unary op operand place =>
          (eval o fuel operand m).andThen fun value m => .ofExcept m place (op.apply value)
      | .binary left op right place =>
          (eval o fuel left m).andThen fun left m =>
            if op.isDecidedBy left then .done left m
            else
              (eval o fuel right m).andThen fun right m =>
                .ofExcept m place (op.apply left right)
      | .index target index place =>
          (eval o fuel index m).andThen fun index m =>
            (eval o fuel target m).andThen fun value m =>
              match m.element o value index target.subject place with
              | .ok value => .done value m
              | .error error => .failed error m
      | .call callee arguments place =>
          (call o fuel callee arguments place m).andThen fun result m =>
            match result with
            | some value => .done value m
            | none => .failed ⟨.nothingReturned callee.name, place⟩ m

/-- Evaluates expressions from left to right. -/
def evalAll (o : Origins) : Nat → List Expr → Machine → Outcome (List Value)
  | 0, _, _ => .outOfFuel
  | _ + 1, [], m => .done [] m
  | fuel + 1, e :: rest, m =>
      (eval o fuel e m).andThen fun value m =>
        (evalAll o fuel rest m).andThen fun values m => .done (value :: values) m

/-- Calls a function. Its result may be none. -/
def call (o : Origins) : Nat → Name → List Expr → Position → Machine → Outcome (Option Value)
  | 0, _, _, _, _ => .outOfFuel
  | fuel + 1, callee, arguments, place, m =>
      match m.lookup callee.name with
      | none => .failed ⟨.unknownVariable callee.name, callee.position⟩ m
      | some (.builtin f) =>
          if f.arity = arguments.length then
            (evalAll o fuel arguments m).andThen fun values m =>
              .ofExcept m callee.position ((f.apply m.arrays values).map some)
          else .failed ⟨.wrongArity callee.name f.arity arguments.length, place⟩ m
      | some (.function f) =>
          if f.arity = arguments.length then
            (evalAll o fuel arguments m).andThen fun values m =>
              if m.depth < Machine.maxDepth then
                let entered := m.push (.ofArguments f.parameters values)
                ((execBlock o fuel f.body entered).mapAfter Machine.pop).andThen fun flow m =>
                  .done flow.result m
              else .failed ⟨.stackOverflow, place⟩ m
          else .failed ⟨.wrongArity callee.name f.arity arguments.length, place⟩ m
      | some _ => .failed ⟨.notAFunction callee.name, place⟩ m

def exec (o : Origins) : Nat → Statement → Machine → Outcome Flow
  | 0, _, _ => .outOfFuel
  | fuel + 1, statement, m =>
      match statement with
      | .assign (.var name) value =>
          (eval o fuel value m).andThen fun value m => .done .next (m.assign name.name value)
      | .assign (.element name index) value =>
          (eval o fuel value m).andThen fun value m =>
            let (owner, m) := m.elementOwner name.name
            if owner.isIndexable then
              (eval o fuel index m).andThen fun i m =>
                match m.elementWrite o name owner i value index.position with
                | .ok write => .done .next (m.perform write)
                | .error error => .failed error m
            else .failed ⟨.notIndexable name.name, name.position⟩ m
      | .call callee arguments place =>
          (call o fuel callee arguments place m).andThen fun _ m => .done .next m
      | .whileLoop condition body place => loop o fuel condition body place m
      | .forLoop counter start second last body place =>
          ((eval o fuel start m).bound place).andThen fun start m =>
            ((eval o fuel second m).bound place).andThen fun second m =>
              ((eval o fuel last m).bound place).andThen fun last m =>
                count o fuel counter.name (second - start) last body start m
      | .branch condition body otherwise _ =>
          (eval o fuel condition m).andThen fun value m =>
            match value, otherwise with
            | .bool true, _ => execBlock o fuel body m
            | .bool false, some otherwise => execBlock o fuel otherwise m
            | .bool false, none => .done .next m
            | _, _ => .failed ⟨.branchNotBool, condition.position⟩ m
      | .function name parameters body _ =>
          let (f, m) := m.newFunction (parameters.map Name.name) body
          .done .next (m.define name.name f)
      | .giveBack none _ => .done (.giveBack none) m
      | .giveBack (some (.call callee arguments place)) _ =>
          (call o fuel callee arguments place m).andThen fun result m => .done (.giveBack result) m
      | .giveBack (some e) _ =>
          (eval o fuel e m).andThen fun value m => .done (.giveBack (some value)) m
      | .print e _ => (eval o fuel e m).andThen fun value m => .done .next (m.print value)

/-- Executes the statements of a block until one of them gives back a result. -/
def execBlock (o : Origins) : Nat → Block → Machine → Outcome Flow
  | 0, _, _ => .outOfFuel
  | _ + 1, [], m => .done .next m
  | fuel + 1, statement :: rest, m =>
      (exec o fuel statement m).andThen fun flow m =>
        match flow with
        | .next => execBlock o fuel rest m
        | .giveBack value => .done (.giveBack value) m

/-- Executes a block as long as a condition holds, which is checked before each time. -/
def loop (o : Origins) : Nat → Expr → Block → Position → Machine → Outcome Flow
  | 0, _, _, _, _ => .outOfFuel
  | fuel + 1, condition, body, place, m =>
      (eval o fuel condition m).andThen fun value m =>
        match value with
        | .bool true =>
            (execBlock o fuel body m).andThen fun flow m =>
              match flow with
              | .next => loop o fuel condition body place m
              | .giveBack value => .done (.giveBack value) m
        | .bool false => .done .next m
        | _ => .failed ⟨.loopNotBool, place⟩ m

/-- Executes a block for `x`, `x + step` and so on up to `last`. The counter is written to the
innermost frame each time; what the block does to it has no effect on the loop. -/
def count (o : Origins) : Nat → String → Float → Float → Block → Float → Machine → Outcome Flow
  | 0, _, _, _, _, _, _ => .outOfFuel
  | fuel + 1, counter, step, last, body, x, m =>
      if countsOn step last x then
        (execBlock o fuel body (m.define counter (.number x))).andThen fun flow m =>
          match flow with
          | .next => count o fuel counter step last body (x + step) m
          | .giveBack value => .done (.giveBack value) m
      else .done .next m

end

/-- Executes the statements of a program one after the other. -/
def execProgram (o : Origins) (fuel : Nat) : Program → Machine → Outcome Unit
  | [], m => .done () m
  | statement :: rest, m => (exec o fuel statement m).andThen fun _ m => execProgram o fuel rest m

end PolishPseudocode
