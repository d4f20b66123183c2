import PolishPseudocode.Expr.Reader
import PolishPseudocode.Program

/-! Reading programs from tokens. A block is the lines indented at least as deep as its level; the
first line that is not ends it and is left, with the line break before it, to the block around. A
line that starts with the word for "otherwise" is left at that word if its condition could be the
one just read. -/

namespace PolishPseudocode

/-- Whether a token is the word that starts the other branch of a condition. -/
def Lexed.isElse (t : Lexed) : Bool :=
  t.token.kind == .keyword .else_

def Lexed.isIndentation (t : Lexed) : Bool :=
  t.token.kind == .indentation

namespace Reading

/-- Reads the index behind a name that is assigned to, if there is one. -/
def target (r : Reading) (name : Name) (tokens : List Lexed) :
    Except SyntaxError (Parsed Target (tokens.length + 1)) :=
  if tokens.head?.any fun next => next.token.kind.class == .delimiter .bracket then do
    let ⟨_, rest, h⟩ ← r.delimiter .bracket .opening tokens
    let ⟨index, rest, h'⟩ ← r.indexInside false rest
    return ⟨.element name index, rest, Nat.lt_succ_of_lt (length_lt_of_lt h h')⟩
  else .ok ⟨.var name, tokens, length_lt_succ tokens⟩

def assignment (r : Reading) (name : Name) (tokens : List Lexed) :
    Except SyntaxError (Parsed Statement tokens.length) := do
  if tokens.isEmpty then .error ⟨.endOfInput (.keyword .assign), r.lastPlace []⟩
  else
    let ⟨target, rest, h⟩ ← r.target name tokens
    let ⟨arrow, rest, h'⟩ ← r.consume .keyword (.keyword .assign) rest
    if arrow.kind = .keyword .assign then
      let ⟨value, rest, h''⟩ ← r.expression false rest
      return ⟨.assign target value, rest, by omega⟩
    else .error ⟨.missingArrow, arrow.position⟩

/-- Reads what follows a name at the start of a statement: the arguments of a call or an assignment.
-/
def assignmentOrCall (r : Reading) (name : Name) (tokens : List Lexed) :
    Except SyntaxError (Parsed Statement tokens.length) :=
  match tokens with
  | [] => r.assignment name []
  | next :: rest =>
      if next.token.kind = .delimiter .parenthesis .opening then do
        r.settle rest
        let ⟨arguments, rest', h⟩ ← r.arguments rest
        return ⟨.call name arguments next.token.position, rest',
          by simp only [List.length_cons]; omega⟩
      else r.assignment name (next :: rest)

def condition (r : Reading) (word : Keyword) (tokens : List Lexed) :
    Except SyntaxError (Parsed Expr tokens.length) := do
  let ⟨e, rest, h⟩ ← r.expression false tokens
  let ⟨_, rest, h'⟩ ← r.keyword word rest
  return ⟨e, rest, length_lt_of_lt h h'⟩

/-- The head of a counting loop. -/
structure Counting where
  counter : Name
  start : Expr
  second : Expr
  last : Expr

/-- Reads the head of a counting loop behind its first word: `i = start, second, ..., last wykonuj`.
-/
def counting (r : Reading) (tokens : List Lexed) :
    Except SyntaxError (Parsed Counting tokens.length) := do
  let ⟨counter, rest, h₁⟩ ← r.name tokens
  let ⟨_, rest, h₂⟩ ← r.keyword .equals rest
  let ⟨start, rest, h₃⟩ ← r.expression false rest
  let ⟨_, rest, h₄⟩ ← r.consume .comma (.token .comma) rest
  let ⟨second, rest, h₅⟩ ← r.expression false rest
  let ⟨_, rest, h₆⟩ ← r.consume .comma (.token .comma) rest
  let ⟨_, rest, h₇⟩ ← r.consume .ellipsis (.token .ellipsis) rest
  let ⟨_, rest, h₈⟩ ← r.consume .comma (.token .comma) rest
  let ⟨last, rest, h₉⟩ ← r.condition .do_ rest
  return ⟨⟨counter, start, second, last⟩, rest, by omega⟩

/-- Whether the next token is a parenthesis of either side. -/
def atParenthesis (tokens : List Lexed) : Bool :=
  tokens.head?.any fun next => next.token.kind.class == .delimiter .parenthesis

/-- Reads the names between the parentheses of a function; a comma may follow the last one. -/
def parameters (r : Reading) (tokens : List Lexed) :
    Except SyntaxError (Parsed (List Name) (tokens.length + 1)) := do
  if atParenthesis tokens then return ⟨[], tokens, by simp⟩
  else
    let ⟨first, rest, h⟩ ← r.name tokens
    if atParenthesis rest then return ⟨[first], rest, by omega⟩
    else
      let ⟨_, rest, h'⟩ ← r.consume .comma (.token .comma) rest
      let ⟨others, rest, h''⟩ ← r.parameters rest
      return ⟨first :: others, rest, by omega⟩
termination_by tokens.length
decreasing_by omega

def signature (r : Reading) (tokens : List Lexed) :
    Except SyntaxError (Parsed (Name × List Name) tokens.length) := do
  let ⟨name, rest, h₁⟩ ← r.name tokens
  let ⟨_, rest, h₂⟩ ← r.delimiter .parenthesis .opening rest
  let ⟨parameters, rest, h₃⟩ ← r.parameters rest
  let ⟨_, rest, h₄⟩ ← r.delimiter .parenthesis .closing rest
  return ⟨(name, parameters), rest, by omega⟩

/-- The lines of a block, up to the first one that is not of it. `depth` is how deep that one is
indented, as far as it was read, and `back` are the tokens from the last line break on that was read
between two lines. -/
structure Lines (limit : Nat) where
  statements : Block
  depth : Nat
  back : Option (List Lexed)
  rest : List Lexed
  rest_lt : rest.length < limit
  back_lt : ∀ tokens ∈ back, tokens.length < limit

/-- The same lines under a weaker limit. -/
def Lines.mono {limit limit' : Nat} (l : Lines limit) (h : limit ≤ limit') : Lines limit' :=
  { l with
    rest_lt := Nat.lt_of_lt_of_le l.rest_lt h
    back_lt := fun tokens ht => Nat.lt_of_lt_of_le (l.back_lt tokens ht) h }

/-- The lines behind a line break, seen from before it: without a later line break, this is the one
to return to. -/
def Lines.behind {limit : Nat} (l : Lines limit) (tokens : List Lexed) (h : tokens.length < limit) :
    Lines limit :=
  { l with
    back := some (l.back.getD tokens)
    back_lt := by
      intro back hback
      cases Option.some.inj hback
      cases hinner : l.back with
      | none => exact h
      | some inner => exact l.back_lt inner hinner }

/-- Whether the tokens behind the lines of a block of a level can stay ahead: there are none, or
they start with the word for the other branch, in a line indented at most one level less than the
block. -/
def Lines.staysAhead {limit : Nat} (l : Lines limit) (level : Nat) : Bool :=
  l.rest.head?.all fun next => next.isElse && decide (level ≤ l.depth + 1)

/-- Where reading goes on behind a block of a level that started with the line break `first`: where
its lines ended, or back at the last line break. -/
def Lines.resume {limit : Nat} (l : Lines limit) (level : Nat) (first : List Lexed) : List Lexed :=
  if l.staysAhead level then l.rest else l.back.getD first

/-- Going back to a line break leaves fewer tokens than there were before the block. -/
theorem Lines.resume_length_lt {limit level : Nat} (l : Lines limit) {first : List Lexed}
    (h : first.length < limit) : (l.resume level first).length < limit := by
  unfold Lines.resume
  split
  · exact l.rest_lt
  · cases hback : l.back with
    | none => exact h
    | some inner => exact l.back_lt inner hback

/-- Reads the indentation of a line, of which `next` is the first. -/
def margin (r : Reading) (next : Lexed) (tokens : List Lexed) :
    Except SyntaxError (Parsed (List Lexed) (tokens.length + 1)) := do
  let rest := tokens.dropWhile Lexed.isIndentation
  r.settle rest
  return ⟨next :: tokens.takeWhile Lexed.isIndentation, rest,
    Nat.lt_succ_of_le (List.dropWhile_sublist Lexed.isIndentation).length_le⟩

mutual

/-- Reads a statement of a level, of which `next` is the first token. -/
def statement (r : Reading) (level : Nat) (inFunction : Bool) (next : Lexed) (tokens : List Lexed) :
    Except SyntaxError (Parsed Statement (tokens.length + 1)) := do
  let place := next.token.position
  match next.token.kind with
  | .indentation => .error ⟨.strayIndentation, place⟩
  | .identifier name =>
      r.settle tokens
      let ⟨s, rest, h⟩ ← r.assignmentOrCall ⟨name, place⟩ tokens
      return ⟨s, rest, by omega⟩
  | .keyword .for_ =>
      r.settle tokens
      let ⟨head, rest, h⟩ ← r.counting tokens
      let ⟨body, rest, h'⟩ ← r.block (level + 1) inFunction rest
      return ⟨.forLoop head.counter head.start head.second head.last body place, rest, by omega⟩
  | .keyword .while_ =>
      r.settle tokens
      let ⟨condition, rest, h⟩ ← r.condition .do_ tokens
      let ⟨body, rest, h'⟩ ← r.block (level + 1) inFunction rest
      return ⟨.whileLoop condition body place, rest, by omega⟩
  | .keyword .if_ =>
      r.settle tokens
      let ⟨condition, rest, h⟩ ← r.condition .then_ tokens
      let ⟨body, rest, h'⟩ ← r.block (level + 1) inFunction rest
      match rest, h' with
      | [], _ => return ⟨.branch condition body none place, [], by simp⟩
      | next :: rest, h' =>
          if next.isElse then
            r.settle rest
            let ⟨otherwise, rest', h''⟩ ← r.block (level + 1) inFunction rest
            return ⟨.branch condition body (some otherwise) place, rest',
              by simp only [List.length_cons] at h'; omega⟩
          else return ⟨.branch condition body none place, next :: rest, by omega⟩
  | .keyword .function =>
      r.settle tokens
      let ⟨(name, parameters), rest, h⟩ ← r.signature tokens
      let ⟨body, rest, h'⟩ ← r.block (level + 1) true rest
      return ⟨.function name parameters body place, rest, by omega⟩
  | .keyword .return_ =>
      r.settle tokens
      if inFunction then
        if tokens.head?.all (·.token.kind == .newLine) then
          return ⟨.giveBack none place, tokens, by simp⟩
        else
          let ⟨value, rest, h⟩ ← r.expression false tokens
          return ⟨.giveBack (some value) place, rest, by omega⟩
      else .error ⟨.returnOutsideFunction, place⟩
  | .keyword .print =>
      r.settle tokens
      let ⟨value, rest, h⟩ ← r.expression false tokens
      return ⟨.print value place, rest, by omega⟩
  | .keyword word => .error ⟨.strayKeyword word, place⟩
  | other => .error ⟨.strayToken other.class, place⟩
termination_by tokens.length + 1
decreasing_by
  · omega
  · omega
  · omega
  · simp only [List.length_cons] at h'
    omega
  · omega

/-- Reads a block of a level, with the line break before it. -/
def block (r : Reading) (level : Nat) (inFunction : Bool) (tokens : List Lexed) :
    Except SyntaxError (Parsed Block (tokens.length + 1)) :=
  match tokens with
  | [] => .error ⟨.missingBlock, r.lastPlace []⟩
  | next :: following => do
      let ⟨_, rest, h⟩ ← r.consume .newLine (.token .newLine) (next :: following)
      let found ← r.lines level inFunction rest
      let found : Lines ((next :: following).length + 1) :=
        found.mono (Nat.succ_le_succ (Nat.le_of_lt h))
      let rest := found.resume level (next :: following)
      if found.statements.isEmpty then .error ⟨.missingBlock, r.lastPlace rest⟩
      else return ⟨found.statements, rest, found.resume_length_lt (length_lt_succ _)⟩
termination_by tokens.length
decreasing_by omega

/-- Reads the lines of a block. A line with nothing but indentation and a comment is passed over. -/
def lines (r : Reading) (level : Nat) (inFunction : Bool) (tokens : List Lexed) :
    Except SyntaxError (Lines (tokens.length + 1)) :=
  match tokens with
  | [] => .ok ⟨[], 0, none, [], by simp, by simp⟩
  | next :: following =>
      if next.isIndentation then do
        let ⟨indents, rest, hrest⟩ ← r.margin next following
        let depth := min indents.length level
        match rest, hrest with
        | [], _ => return ⟨[], depth, none, [], by simp, by simp⟩
        | first :: after, hrest =>
            have hafter : after.length + 1 < following.length + 1 := hrest
            if first.token.kind = .newLine then
              r.settle after
              let found ← r.lines level inFunction after
              let found := found.mono (Nat.le_succ_of_le (Nat.le_of_lt hafter))
              return found.behind (first :: after) (Nat.lt_succ_of_lt hafter)
            else if depth < level then
              return ⟨[], depth, none, first :: after, Nat.lt_succ_of_lt hafter, by simp⟩
            else
              match indents[level]? with
              | some extra => .error ⟨.strayIndentation, extra.token.position⟩
              | none =>
                  let ⟨s, rest, h⟩ ← r.statement level inFunction first after
                  have hrest : rest.length < (next :: following).length := Nat.lt_trans h hafter
                  if rest.head?.all Lexed.isElse then
                    return ⟨[s], level, none, rest, Nat.lt_succ_of_lt hrest, by simp⟩
                  else
                    let ⟨_, behind, h'⟩ ← r.consume .newLine (.token .newLine) rest
                    let found ← r.lines level inFunction behind
                    let found := found.mono (Nat.succ_le_succ (Nat.le_of_lt (Nat.lt_trans h' hrest)))
                    let found := found.behind rest (Nat.lt_succ_of_lt hrest)
                    return { found with statements := s :: found.statements }
      else .ok ⟨[], 0, none, next :: following, by simp, by simp⟩
termination_by tokens.length
decreasing_by
  · simp only [List.length_cons]
    omega
  · simp only [List.length_cons]
    omega
  · omega

end

/-- Reads statements, one a line, until the tokens end. -/
def statements (r : Reading) (tokens : List Lexed) : Except SyntaxError Program :=
  match tokens with
  | [] => .ok []
  | next :: rest =>
      if next.token.kind = .newLine then do
        r.settle rest
        r.statements rest
      else do
        let ⟨s, rest, _⟩ ← r.statement 0 false next rest
        if rest.isEmpty then return [s]
        else
          let ⟨_, rest, _⟩ ← r.consume .newLine (.token .newLine) rest
          return s :: (← r.statements rest)
termination_by tokens.length
decreasing_by
  all_goals simp only [List.length_cons]; omega

end Reading

def Program.ofSource (source : Source) : Except SyntaxError Program := do
  let stream := Stream.ofSource source
  let r : Reading := ⟨source, stream.ending⟩
  r.settle stream.tokens
  r.statements stream.tokens

def Program.ofText (text : String) : Except SyntaxError Program :=
  Program.ofSource (Source.ofText text)

end PolishPseudocode
