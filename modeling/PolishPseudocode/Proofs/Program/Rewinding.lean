import PolishPseudocode.Proofs.Program.Bodies
import PolishPseudocode.Proofs.Program.Nesting

/-! Reading a program with a cursor that goes back. Where a block ends, the cursor returns to the line break before
the line that is not of the block, and the tokens are pulled again from there, so that nothing but a number of steps
bounds the reading. A statement is read in two parts: its first line, in which the cursor only goes on, and its
blocks. -/

namespace PolishPseudocode

/-- A reading that is bounded by its steps: the tokens at which it looked for a statement, in this order, and what
came of it if the steps were enough. -/
structure Traced (α : Type) where
  log : List Token
  outcome : Option (Except SyntaxError α)

namespace Traced

variable {α β : Type}

def bind (first : Traced α) (next : α → Traced β) : Traced β :=
  match first.outcome with
  | none => ⟨first.log, none⟩
  | some (.error e) => ⟨first.log, some (.error e)⟩
  | some (.ok a) => ⟨first.log ++ (next a).log, (next a).outcome⟩

instance : Monad Traced where
  pure a := ⟨[], some (.ok a)⟩
  bind := bind

/-- A step that takes up no statement. -/
def lift (outcome : Except SyntaxError α) : Traced α :=
  ⟨[], some outcome⟩

/-- The look for a statement at a token. -/
def mark (t : Token) : Traced Unit :=
  ⟨[t], some (.ok ())⟩

def exhausted : Traced α :=
  ⟨[], none⟩

end Traced

/-! ### The first line of a statement -/

/-- What the first line of a statement says: the whole statement, a statement but for its block, or the condition of
a branch, which may have two blocks. -/
inductive Opening where
  | whole (s : Statement)
  | above (inFunction : Bool) (close : Block → Statement)
  | branch (condition : Expr) (place : Position)

namespace Statement

/-- The first tokens of the statements of a block and of all statements inside them. -/
def starts (depth : Nat) (block : Block) : List Token :=
  (listing depth block).map fun entry => entry.2.firstToken

theorem starts_singleton (depth : Nat) (s : Statement) :
    starts depth [s] = s.firstToken :: (s.nested depth).map fun entry => entry.2.firstToken := by
  rw [starts, listing, listing, List.append_nil]
  rfl

theorem starts_cons (depth : Nat) (s : Statement) (block : Block) :
    starts depth (s :: block) = starts depth [s] ++ starts depth block := by
  rw [starts_singleton, starts, listing, List.map_cons, List.map_append]
  rfl

/-- There is no block in a statement that starts with a name. -/
theorem nested_of_identifier {depth : Nat} {s : Statement} {name : String} {p : Position}
    (h : s.firstToken = ⟨.identifier name, p⟩) : s.nested depth = [] := by
  cases s with
  | assign | call => rw [nested]
  | _ => cases h

end Statement

namespace Reading

variable (r : Reading) (level : Nat) (inFunction : Bool)

/-- Reads the first line of a statement, of which `next` is the first token. -/
def opening (next : Lexed) (tokens : List Lexed) : Except SyntaxError (Opening × List Lexed) :=
  let place := next.token.position
  match next.token.kind with
  | .indentation => .error ⟨.strayIndentation, place⟩
  | .identifier name => do
      r.settle tokens
      let ⟨s, rest, _⟩ ← r.assignmentOrCall ⟨name, place⟩ tokens
      return (.whole s, rest)
  | .keyword .for_ => do
      r.settle tokens
      let ⟨head, rest, _⟩ ← r.counting tokens
      return (.above inFunction fun body => .forLoop head.counter head.start head.second head.last body place, rest)
  | .keyword .while_ => do
      r.settle tokens
      let ⟨condition, rest, _⟩ ← r.condition .do_ tokens
      return (.above inFunction fun body => .whileLoop condition body place, rest)
  | .keyword .if_ => do
      r.settle tokens
      let ⟨condition, rest, _⟩ ← r.condition .then_ tokens
      return (.branch condition place, rest)
  | .keyword .function => do
      r.settle tokens
      let ⟨(name, parameters), rest, _⟩ ← r.signature tokens
      return (.above true fun body => .function name parameters body place, rest)
  | .keyword .return_ => do
      r.settle tokens
      if inFunction then
        if tokens.head?.all (·.token.kind == .newLine) then
          return (.whole (.giveBack none place), tokens)
        else
          let ⟨value, rest, _⟩ ← r.expression false tokens
          return (.whole (.giveBack (some value) place), rest)
      else .error ⟨.returnOutsideFunction, place⟩
  | .keyword .print => do
      r.settle tokens
      let ⟨value, rest, _⟩ ← r.expression false tokens
      return (.whole (.print value place), rest)
  | .keyword word => .error ⟨.strayKeyword word, place⟩
  | other => .error ⟨.strayToken other.class, place⟩

/-- Reads the blocks of a statement whose first line is read. -/
def closing : Opening → List Lexed → Except SyntaxError (Statement × List Lexed)
  | .whole s, tokens => .ok (s, tokens)
  | .above inFunction close, tokens => do
      let (body, rest) ← r.nextBlock (level + 1) inFunction tokens
      return (close body, rest)
  | .branch condition place, tokens => do
      let (body, rest) ← r.nextBlock (level + 1) inFunction tokens
      let (other, rest) ← r.otherwise (level + 1) inFunction rest
      return (.branch condition body other place, rest)

theorem nextStatement_eq_closing (next : Lexed) (tokens : List Lexed) :
    r.nextStatement level inFunction next tokens
      = r.opening inFunction next tokens >>= fun p => r.closing level inFunction p.1 p.2 := by
  obtain ⟨⟨kind, p⟩, after⟩ := next
  rw [nextStatement_eq, opening]
  cases kind with
  | keyword word =>
      cases word with
      | return_ =>
          dsimp only
          rw [bind_assoc]
          congr 1
          funext _
          split
          · split
            · rfl
            · rw [bind_assoc]
              rfl
          · rfl
      | for_ | while_ | if_ | function | print =>
          simp only [bind_assoc]
          rfl
      | _ => rfl
  | identifier name =>
      dsimp only
      rw [bind_assoc]
      congr 1
      funext _
      cases r.assignmentOrCall ⟨name, p⟩ tokens with
      | error e => rfl
      | ok p => rfl
  | _ => rfl

theorem suffix_of_nextStatement {r : Reading} {level : Nat} {inFunction : Bool} {next : Lexed}
    {tokens rest : List Lexed} {s : Statement}
    (h : r.nextStatement level inFunction next tokens = .ok (s, rest)) : rest <:+ tokens := by
  obtain ⟨p, hp, hpair⟩ := map_eq_ok.1 h
  cases hpair
  exact ((statement_laid r level inFunction next tokens).of_eq_ok hp).2.suffix

/-- A first line that starts with the token `next`, and so does what it opens. If there are blocks below it, it takes
some of the tokens. -/
def Opened (depth : Nat) (next : Lexed) (tokens : List Lexed) : Opening × List Lexed → Prop
  | (.whole s, rest) => Statement.starts depth [s] = [next.token] ∧ rest <:+ tokens
  | (.above _ close, rest) =>
      (∀ body, Statement.starts depth [close body] = next.token :: Statement.starts (depth + 1) body)
        ∧ rest <:+ tokens ∧ rest.length < tokens.length
  | (.branch _ place, rest) =>
      next.token = ⟨.keyword .if_, place⟩ ∧ rest <:+ tokens ∧ rest.length < tokens.length

theorem opening_opened (depth : Nat) (next : Lexed) (tokens : List Lexed) :
    Ensures (Opened depth next tokens) (r.opening inFunction next tokens) := by
  obtain ⟨⟨kind, place⟩, after⟩ := next
  rw [opening]
  dsimp only
  split
  · trivial
  · rename_i name
    refine .skip fun _ => ?_
    apply (assignmentOrCall_laid r depth ⟨name, place⟩ tokens).bind
    rintro p ⟨hfirst, hlaid⟩
    refine ⟨?_, hlaid.suffix⟩
    rw [Statement.starts_singleton, Statement.nested_of_identifier hfirst, hfirst]
    rfl
  · refine .skip fun _ => ?_
    apply (counting_leaves r tokens).read
    intro head rest hlt hrest
    refine ⟨fun body => ?_, hrest, hlt⟩
    rw [Statement.starts_singleton, Statement.nested]
    rfl
  · refine .skip fun _ => ?_
    apply (condition_leaves r .do_ tokens).read
    intro condition rest hlt hrest
    refine ⟨fun body => ?_, hrest, hlt⟩
    rw [Statement.starts_singleton, Statement.nested]
    rfl
  · refine .skip fun _ => ?_
    apply (condition_leaves r .then_ tokens).read
    intro condition rest hlt hrest
    exact ⟨rfl, hrest, hlt⟩
  · refine .skip fun _ => ?_
    apply (signature_leaves r tokens).read
    intro signature rest hlt hrest
    refine ⟨fun body => ?_, hrest, hlt⟩
    rw [Statement.starts_singleton, Statement.nested]
    rfl
  · refine .skip fun _ => ?_
    split
    · split
      · exact ⟨rfl, List.suffix_refl tokens⟩
      · exact (expression_leaves r false tokens).read fun value rest hlt hrest => ⟨rfl, hrest⟩
    · trivial
  · refine .skip fun _ => ?_
    exact (expression_leaves r false tokens).read fun value rest hlt hrest => ⟨rfl, hrest⟩
  · trivial
  · trivial

end Reading

/-! ### Going back -/

/-- What is known of the tokens ahead. -/
def Stream.reading (source : Source) (ahead : Stream) : Reading :=
  ⟨source, ahead.ending⟩

namespace Rewinding

variable (source : Source)

/-- Moves the cursor from behind the next token to a place and pulls the tokens from there on. -/
def back (next : Lexed) (place : Position) (newLine : Bool) : Except SyntaxError Stream := do
  let ahead := Stream.ofCursor source (next.after.moveTo source place newLine)
  (ahead.reading source).settle ahead.tokens
  return ahead

/-- Ends a block of a level in a line indented by `depth`, behind the line break at `place`. The tokens ahead stay
there if there are none, or if they start with the word for the other branch; otherwise the cursor goes back to the
line break. -/
def leave (level depth : Nat) (place : Position) (ahead : Stream) : Except SyntaxError Stream :=
  match ahead.tokens with
  | [] => .ok ahead
  | next :: _ =>
      if next.isElse && decide (level ≤ depth + 1) then .ok ahead else back source next place true

open Traced in
mutual

def statement (steps level : Nat) (inFunction : Bool) (next : Lexed) (ahead : Stream) :
    Traced (Statement × Stream) :=
  match steps with
  | 0 => exhausted
  | steps + 1 => do
      mark next.token
      let (head, rest) ← lift ((ahead.reading source).opening inFunction next ahead.tokens)
      let ahead : Stream := ⟨rest, ahead.ending⟩
      match head with
      | .whole s => return (s, ahead)
      | .above inFunction close => do
          let (body, ahead) ← block steps (level + 1) inFunction ahead
          return (close body, ahead)
      | .branch condition place => do
          let (body, ahead) ← block steps (level + 1) inFunction ahead
          match ahead.tokens with
          | [] => return (.branch condition body none place, ahead)
          | next :: rest =>
              if next.isElse then do
                lift ((ahead.reading source).settle rest)
                let (other, ahead) ← block steps (level + 1) inFunction ⟨rest, ahead.ending⟩
                return (.branch condition body (some other) place, ahead)
              else return (.branch condition body none place, ahead)

def block (steps level : Nat) (inFunction : Bool) (ahead : Stream) : Traced (Block × Stream) :=
  match steps with
  | 0 => exhausted
  | steps + 1 =>
      match ahead.tokens with
      | [] => lift (.error ⟨.missingBlock, (ahead.reading source).lastPlace []⟩)
      | first :: following => do
          let ⟨_, rest, _⟩ ← lift ((ahead.reading source).consume .newLine (.token .newLine) (first :: following))
          let (found, ahead) ← body steps level inFunction first.token.position ⟨rest, ahead.ending⟩
          if found.isEmpty then lift (.error ⟨.missingBlock, (ahead.reading source).lastPlace ahead.tokens⟩)
          else return (found, ahead)

/-- Reads the lines of a block behind the line break at `place`, and leaves the block. -/
def body (steps level : Nat) (inFunction : Bool) (place : Position) (ahead : Stream) : Traced (Block × Stream) :=
  match steps with
  | 0 => exhausted
  | steps + 1 =>
      match ahead.tokens with
      | [] => return ([], ahead)
      | next :: following =>
          if next.isIndentation then do
            let indents := next :: following.takeWhile Lexed.isIndentation
            lift ((ahead.reading source).settle (following.dropWhile Lexed.isIndentation))
            match following.dropWhile Lexed.isIndentation with
            | [] => return ([], ⟨[], ahead.ending⟩)
            | first :: after =>
                if first.token.kind = .newLine then do
                  lift ((ahead.reading source).settle after)
                  body steps level inFunction first.token.position ⟨after, ahead.ending⟩
                else if indents.length < level then do
                  let ahead ← lift (back source first next.token.position false)
                  let ahead ← lift (leave source level indents.length place ahead)
                  return ([], ahead)
                else
                  match indents[level]? with
                  | some extra => lift (.error ⟨.strayIndentation, extra.token.position⟩)
                  | none => do
                      let (s, ahead) ← statement steps level inFunction first ⟨after, ahead.ending⟩
                      let (others, ahead) ← onward steps level inFunction place ahead
                      return (s :: others, ahead)
          else do
            let ahead ← lift (leave source level 0 place ahead)
            return ([], ahead)

/-- Reads the other lines of a block behind a statement of it, the line of which follows the line break at `place`. -/
def onward (steps level : Nat) (inFunction : Bool) (place : Position) (ahead : Stream) : Traced (Block × Stream) :=
  match steps with
  | 0 => exhausted
  | steps + 1 =>
      match ahead.tokens with
      | [] => return ([], ahead)
      | nl :: behind =>
          if nl.isElse then do
            let ahead ← lift (leave source level level place ahead)
            return ([], ahead)
          else do
            let ⟨_, rest, _⟩ ← lift ((ahead.reading source).consume .newLine (.token .newLine) (nl :: behind))
            body steps level inFunction nl.token.position ⟨rest, ahead.ending⟩

end

open Traced in
/-- Reads statements, one a line, until the tokens end. At a line with nothing in it there is no statement. -/
def statements (steps : Nat) (ahead : Stream) : Traced (Program × Stream) :=
  match steps with
  | 0 => exhausted
  | steps + 1 =>
      match ahead.tokens with
      | [] => return ([], ahead)
      | next :: rest =>
          if next.token.kind = .newLine then do
            mark next.token
            lift ((ahead.reading source).settle rest)
            statements steps ⟨rest, ahead.ending⟩
          else do
            let (s, ahead) ← statement source steps 0 false next ⟨rest, ahead.ending⟩
            match ahead.tokens with
            | [] => return ([s], ahead)
            | nl :: behind => do
                let ⟨_, rest, _⟩ ← lift ((ahead.reading source).consume .newLine (.token .newLine) (nl :: behind))
                let (others, ahead) ← statements steps ⟨rest, ahead.ending⟩
                return (s :: others, ahead)

def program (steps : Nat) : Traced Program := do
  let ahead := Stream.ofSource source
  Traced.lift ((ahead.reading source).settle ahead.tokens)
  let (program, _) ← statements source steps ahead
  return program

end Rewinding

end PolishPseudocode
