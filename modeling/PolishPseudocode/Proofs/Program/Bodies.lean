import PolishPseudocode.Program.Reader
import PolishPseudocode.Proofs.Outcome

/-! The readers of statements and blocks without the bounds by which they end: a statement, a block or the lines of
a block, and the tokens left behind it. The readers are equations between these. -/

namespace PolishPseudocode

def Parsed.pair {α : Type} {limit : Nat} (p : Parsed α limit) : α × List Lexed :=
  (p.value, p.rest)

namespace Reading

variable (r : Reading) (level : Nat) (inFunction : Bool)

def nextStatement (next : Lexed) (tokens : List Lexed) : Except SyntaxError (Statement × List Lexed) :=
  (r.statement level inFunction next tokens).map Parsed.pair

def nextBlock (tokens : List Lexed) : Except SyntaxError (Block × List Lexed) :=
  (r.block level inFunction tokens).map Parsed.pair

/-- The statements in the lines of a block behind the line break `nl`, and the tokens where reading goes on. -/
def body (nl : Lexed) (tokens : List Lexed) : Except SyntaxError (Block × List Lexed) :=
  (r.lines level inFunction tokens).map fun l => (l.statements, l.resume level (nl :: tokens))

/-- The other statements of a block, behind one of them. -/
def onward : List Lexed → Except SyntaxError (Block × List Lexed)
  | [] => .ok ([], [])
  | nl :: behind =>
      if nl.isElse then .ok ([], nl :: behind)
      else do
        let _ ← r.consume .newLine (.token .newLine) (nl :: behind)
        r.body level inFunction nl behind

/-- The other branch of a condition, if there is one. -/
def otherwise : List Lexed → Except SyntaxError (Option Block × List Lexed)
  | [] => .ok (none, [])
  | next :: rest =>
      if next.isElse then do
        r.settle rest
        let (block, rest) ← r.nextBlock level inFunction rest
        return (some block, rest)
      else .ok (none, next :: rest)

/-- The other statements of a program, behind one of them. -/
def further : List Lexed → Except SyntaxError Program
  | [] => .ok []
  | nl :: behind => do
      let _ ← r.consume .newLine (.token .newLine) (nl :: behind)
      r.statements behind

/-- The tokens where a block ends before the line `next :: rest`, indented by `depth`, behind the tokens `back`. -/
def stop (depth : Nat) (back : List Lexed) (next : Lexed) (rest : List Lexed) : List Lexed :=
  if next.isElse && decide (level ≤ depth + 1) then next :: rest else back

/-- A line of a block, from the first token behind its indentation on, and the lines after it. -/
def line (nl : Lexed) (tokens : List Lexed) (indents : List Lexed) :
    List Lexed → Except SyntaxError (Block × List Lexed)
  | [] => .ok ([], [])
  | first :: after =>
      if first.token.kind = .newLine then do
        r.settle after
        r.body level inFunction first after
      else if indents.length < level then
        .ok ([], stop level indents.length (nl :: tokens) first after)
      else
        match indents[level]? with
        | some extra => .error ⟨.strayIndentation, extra.token.position⟩
        | none => do
            let (s, rest) ← r.nextStatement level inFunction first after
            let (others, rest) ← r.onward level inFunction rest
            return (s :: others, rest)

theorem body_nil (nl : Lexed) : r.body level inFunction nl [] = .ok ([], []) := by
  rw [body, lines]
  rfl

/-- A line that is not indented is of no block. -/
theorem body_of_not_isIndentation (nl : Lexed) {next : Lexed} (h : next.isIndentation = false)
    (following : List Lexed) :
    r.body level inFunction nl (next :: following)
      = .ok ([], stop level 0 (nl :: next :: following) next following) := by
  rw [body, lines, if_neg (by rw [h]; exact Bool.false_ne_true)]
  rfl

theorem map_bind {ε α β γ : Type} (first : Except ε α) (next : α → Except ε β) (f : β → γ) :
    (first >>= next).map f = first >>= fun a => (next a).map f := by
  cases first <;> rfl

theorem bind_map {ε α β γ : Type} (first : Except ε α) (f : α → β) (next : β → Except ε γ) :
    first.map f >>= next = first >>= fun a => next (f a) := by
  cases first <;> rfl

theorem body_of_isIndentation (nl : Lexed) {next : Lexed} (h : next.isIndentation = true) (following : List Lexed) :
    r.body level inFunction nl (next :: following) = (do
      r.settle (following.dropWhile Lexed.isIndentation)
      r.line level inFunction nl (next :: following) (next :: following.takeWhile Lexed.isIndentation)
        (following.dropWhile Lexed.isIndentation)) := by
  rw [body, lines, if_pos h, margin]
  simp only [map_bind, bind_assoc, pure_bind]
  congr 1
  funext _
  generalize next :: following.takeWhile Lexed.isIndentation = indents
  split
  · rename_i hrest _
    rw [hrest]
    rfl
  · rename_i first after _ hrest _
    rw [hrest, line]
    split
    · rw [map_bind]
      congr 1
      funext _
      rw [map_bind, body]
      cases r.lines level inFunction after with
      | error e => rfl
      | ok l => rfl
    · have hdepth : min indents.length level < level ↔ indents.length < level := by omega
      simp only [hdepth]
      split
      · rename_i hlt
        have hmin : min indents.length level = indents.length := by omega
        rw [hmin]
        rfl
      · cases indents[level]? with
        | some extra => rfl
        | none =>
            rw [map_bind, nextStatement]
            dsimp only
            rw [bind_map]
            congr 1
            funext p
            obtain ⟨s, rest, hlt⟩ := p
            dsimp only [Parsed.pair]
            cases rest with
            | nil => rfl
            | cons nl behind =>
                rw [onward, List.head?_cons, Option.all_some]
                split
                · rename_i helse
                  have hahead : (nl.isElse && decide (level ≤ level + 1)) = true := by
                    rw [helse, decide_eq_true (Nat.le_succ level)]
                    rfl
                  refine congrArg (fun left => Except.ok ([s], left)) (if_pos ?_)
                  exact hahead
                · rw [map_bind, bind_assoc, consume]
                  split
                  · cases r.settle behind with
                    | error e => rfl
                    | ok _ =>
                        dsimp only [bind, Except.bind, pure, Except.pure]
                        rw [body]
                        cases r.lines level inFunction behind with
                        | error e => rfl
                        | ok l => rfl
                  · rfl

theorem nextBlock_nil : r.nextBlock level inFunction [] = .error ⟨.missingBlock, r.lastPlace []⟩ := by
  rw [nextBlock, block]
  rfl

theorem nextBlock_cons (nl : Lexed) (behind : List Lexed) :
    r.nextBlock level inFunction (nl :: behind) = (do
      let _ ← r.consume .newLine (.token .newLine) (nl :: behind)
      let (found, rest) ← r.body level inFunction nl behind
      if found.isEmpty then .error ⟨.missingBlock, r.lastPlace rest⟩ else return (found, rest)) := by
  rw [nextBlock, block, map_bind, consume]
  split
  · cases r.settle behind with
    | error e => rfl
    | ok _ =>
        dsimp only [bind, Except.bind, pure, Except.pure]
        rw [body]
        cases r.lines level inFunction behind with
        | error e => rfl
        | ok l =>
            dsimp only
            rw [apply_ite (Except.map Parsed.pair)]
            rfl
  · rfl

theorem nextStatement_eq (next : Lexed) (tokens : List Lexed) :
    r.nextStatement level inFunction next tokens =
      match next.token.kind with
      | .indentation => .error ⟨.strayIndentation, next.token.position⟩
      | .identifier name => do
          r.settle tokens
          (r.assignmentOrCall ⟨name, next.token.position⟩ tokens).map Parsed.pair
      | .keyword .for_ => do
          r.settle tokens
          let ⟨head, rest, _⟩ ← r.counting tokens
          let (body, rest) ← r.nextBlock (level + 1) inFunction rest
          return (.forLoop head.counter head.start head.second head.last body next.token.position, rest)
      | .keyword .while_ => do
          r.settle tokens
          let ⟨condition, rest, _⟩ ← r.condition .do_ tokens
          let (body, rest) ← r.nextBlock (level + 1) inFunction rest
          return (.whileLoop condition body next.token.position, rest)
      | .keyword .if_ => do
          r.settle tokens
          let ⟨condition, rest, _⟩ ← r.condition .then_ tokens
          let (body, rest) ← r.nextBlock (level + 1) inFunction rest
          let (other, rest) ← r.otherwise (level + 1) inFunction rest
          return (.branch condition body other next.token.position, rest)
      | .keyword .function => do
          r.settle tokens
          let ⟨(name, parameters), rest, _⟩ ← r.signature tokens
          let (body, rest) ← r.nextBlock (level + 1) true rest
          return (.function name parameters body next.token.position, rest)
      | .keyword .return_ => do
          r.settle tokens
          if inFunction then
            if tokens.head?.all (·.token.kind == .newLine) then
              return (.giveBack none next.token.position, tokens)
            else
              let ⟨value, rest, _⟩ ← r.expression false tokens
              return (.giveBack (some value) next.token.position, rest)
          else .error ⟨.returnOutsideFunction, next.token.position⟩
      | .keyword .print => do
          r.settle tokens
          let ⟨value, rest, _⟩ ← r.expression false tokens
          return (.print value next.token.position, rest)
      | .keyword word => .error ⟨.strayKeyword word, next.token.position⟩
      | other => .error ⟨.strayToken other.class, next.token.position⟩ := by
  obtain ⟨⟨kind, p⟩, after⟩ := next
  rw [nextStatement, statement]
  cases kind with
  | keyword word =>
      cases word with
      | if_ =>
          simp only [map_bind, nextBlock, bind_map]
          congr 1
          funext _
          congr 1
          funext p
          obtain ⟨condition, rest, -⟩ := p
          congr 1
          funext p
          obtain ⟨body, rest, -⟩ := p
          cases rest with
          | nil => rfl
          | cons next rest =>
              dsimp only [Parsed.pair]
              rw [otherwise, nextBlock]
              split
              · simp only [map_bind, bind_map, bind_assoc]
                rfl
              · rfl
      | return_ =>
          simp only [map_bind]
          congr 1
          funext _
          split
          · split
            · rfl
            · simp only [map_bind]
              rfl
          · rfl
      | for_ | while_ | function | print =>
          simp only [map_bind, nextBlock, bind_map]
          rfl
      | _ => rfl
  | identifier name =>
      simp only [map_bind]
      rfl
  | _ => rfl

theorem statements_newLine {nl : Lexed} (h : nl.token.kind = .newLine) (behind : List Lexed) :
    r.statements (nl :: behind) = (do r.settle behind; r.statements behind) := by
  rw [statements, if_pos h]

theorem statements_cons {next : Lexed} (h : next.token.kind ≠ .newLine) (tokens : List Lexed) :
    r.statements (next :: tokens) = (do
      let (s, rest) ← r.nextStatement 0 false next tokens
      let others ← r.further rest
      return s :: others) := by
  rw [statements, if_neg h, nextStatement, bind_map]
  congr 1
  funext p
  obtain ⟨s, rest, hlt⟩ := p
  cases rest with
  | nil => rfl
  | cons nl behind =>
      dsimp only [Parsed.pair, List.isEmpty_cons]
      rw [if_neg Bool.false_ne_true, further, bind_assoc, consume]
      split
      · cases r.settle behind with
        | error e => rfl
        | ok _ => rfl
      · rfl

/-! ### At a line break -/

/-- Taking the line break before the tokens `behind`. -/
theorem consume_newLine {α : Type} {nl : Lexed} (h : nl.token.kind = .newLine) (expected : Expected)
    (behind : List Lexed) (next : Except SyntaxError α) :
    (r.consume .newLine expected (nl :: behind) >>= fun _ => next) = (do r.settle behind; next) := by
  have hclass : nl.token.kind.class = .newLine := congrArg Token.Kind.class h
  rw [consume, if_pos hclass]
  cases r.settle behind with
  | error e => rfl
  | ok _ => rfl

/-- Nothing but a line break is taken for one. -/
theorem newLine_of_consume {α : Type} {nl : Lexed} {expected : Expected} {behind : List Lexed}
    {next : Except SyntaxError α} {a : α}
    (h : (r.consume .newLine expected (nl :: behind) >>= fun _ => next) = .ok a) : nl.token.kind = .newLine := by
  obtain ⟨p, hp, -⟩ := bind_eq_ok.1 h
  rw [consume] at hp
  split at hp
  · rename_i hclass
    cases hkind : nl.token.kind with
    | newLine => rfl
    | _ =>
        rw [hkind] at hclass
        cases hclass
  · cases hp

theorem isElse_of_newLine {nl : Lexed} (h : nl.token.kind = .newLine) : nl.isElse = false := by
  rw [Lexed.isElse, h]
  rfl

theorem isIndentation_of_newLine {nl : Lexed} (h : nl.token.kind = .newLine) : nl.isIndentation = false := by
  rw [Lexed.isIndentation, h]
  rfl

theorem onward_newLine {nl : Lexed} (h : nl.token.kind = .newLine) (behind : List Lexed) :
    r.onward level inFunction (nl :: behind) = (do r.settle behind; r.body level inFunction nl behind) := by
  rw [onward, isElse_of_newLine h, if_neg Bool.false_ne_true, consume_newLine r h]

theorem nextBlock_newLine {nl : Lexed} (h : nl.token.kind = .newLine) (behind : List Lexed) :
    r.nextBlock level inFunction (nl :: behind) = (do
      r.settle behind
      let (found, rest) ← r.body level inFunction nl behind
      if found.isEmpty then .error ⟨.missingBlock, r.lastPlace rest⟩ else return (found, rest)) := by
  rw [nextBlock_cons, consume_newLine r h]

theorem further_newLine {nl : Lexed} (h : nl.token.kind = .newLine) (behind : List Lexed) :
    r.further (nl :: behind) = r.statements (nl :: behind) := by
  rw [further, consume_newLine r h, statements_newLine r h]

/-- A line with nothing behind its indentation is passed over. -/
theorem line_newLine (nl : Lexed) (tokens indents : List Lexed) {first : Lexed} (h : first.token.kind = .newLine)
    (after : List Lexed) :
    r.line level inFunction nl tokens indents (first :: after) = r.onward level inFunction (first :: after) := by
  rw [line, if_pos h, onward_newLine r level inFunction h]

end Reading

end PolishPseudocode
