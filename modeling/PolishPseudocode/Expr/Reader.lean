import PolishPseudocode.Expr.Reduction
import PolishPseudocode.Token.Stream

/-! Reading expressions from tokens. An expression is gathered as a flat list up to the first token
that cannot continue it; calls and index brackets inside are read recursively, and the list is
reduced to a tree. Every reader returns the tokens that are left, and that they are fewer. -/

namespace PolishPseudocode

/-- What a reader knows besides the tokens ahead: the source, for places in it, and how the tokens
end. -/
structure Reading where
  source : Source
  ending : Ending

/-- Something read, and the tokens left, fewer than `limit`. -/
structure Parsed (α : Type) (limit : Nat) where
  value : α
  rest : List Lexed
  rest_lt : rest.length < limit

/-- What is left behind two readers, one after the other, is shorter than what was there. -/
theorem length_lt_of_lt {tokens rest rest' : List Lexed} (h : rest.length < tokens.length)
    (h' : rest'.length < rest.length) : rest'.length < tokens.length :=
  Nat.lt_trans h' h

/-- A reader may take nothing. -/
theorem length_lt_succ (tokens : List Lexed) : tokens.length < tokens.length + 1 :=
  Nat.lt_succ_self _

namespace Reading

/-- The last place before the tokens that follow the next one: one step back from the cursor behind
that token, or from the end of the text. -/
def lastPlace (r : Reading) (tokens : List Lexed) : Position :=
  let cursor :=
    match tokens, r.ending with
    | next :: _, _ => next.after
    | [], .finished cursor => cursor
    | [], .failed _ => .start
  (cursor.stepBack r.source).position

/-- Looks at the next token before anything else is done: if the text stops being tokens here,
reading fails. -/
def settle (r : Reading) (tokens : List Lexed) : Except SyntaxError Unit :=
  match tokens, r.ending with
  | [], .failed e => .error e
  | _, _ => .ok ()

/-- Takes the next token, which must be of the given class. -/
def consume (r : Reading) (kind : Token.Class) (expected : Expected) (tokens : List Lexed) :
    Except SyntaxError (Parsed Token tokens.length) :=
  match tokens with
  | [] => .error ⟨.endOfInput expected, r.lastPlace []⟩
  | next :: rest =>
      if next.token.kind.class = kind then do
        r.settle rest
        return ⟨next.token, rest, by simp⟩
      else .error ⟨.unexpectedToken next.token.kind.class expected, next.token.position⟩

def delimiter (r : Reading) (pair : Delimiter) (side : Side) (tokens : List Lexed) :
    Except SyntaxError (Parsed Position tokens.length) := do
  let ⟨token, rest, h⟩ ← r.consume (.delimiter pair) (.delimiter pair side) tokens
  match token.kind with
  | .delimiter _ found =>
      if found = side then return ⟨token.position, rest, h⟩
      else .error ⟨.wrongSide pair found side, token.position⟩
  | other => .error ⟨.unexpectedToken other.class (.delimiter pair side), token.position⟩

def keyword (r : Reading) (word : Keyword) (tokens : List Lexed) :
    Except SyntaxError (Parsed Position tokens.length) := do
  let ⟨token, rest, h⟩ ← r.consume .keyword (.keyword word) tokens
  match token.kind with
  | .keyword found =>
      if found = word then return ⟨token.position, rest, h⟩
      else .error ⟨.wrongKeyword found word, token.position⟩
  | other => .error ⟨.unexpectedToken other.class (.keyword word), token.position⟩

def name (r : Reading) (tokens : List Lexed) : Except SyntaxError (Parsed Name tokens.length) := do
  let ⟨token, rest, h⟩ ← r.consume .identifier (.token .identifier) tokens
  match token.kind with
  | .identifier name => return ⟨⟨name, token.position⟩, rest, h⟩
  | other => .error ⟨.unexpectedToken other.class (.token .identifier), token.position⟩

/-- Whether a token ends an expression. A closing parenthesis does so only inside the arguments of a
call and when the expression itself has none open. -/
def endsExpression (inCall : Bool) (depth : Int) (kind : Token.Kind) : Bool :=
  match kind with
  | .keyword _ | .comma | .newLine | .delimiter .bracket .closing => true
  | .delimiter .parenthesis .closing => inCall && depth == 0
  | _ => false

/-- The items gathered so far, in reverse order, and how many parentheses among them are open. -/
structure Gathered where
  items : List Item
  depth : Int

mutual

/-- Reads one item, of which `next` is the first token. A parenthesis right behind a variable makes
it a call. -/
def item (r : Reading) (inCall : Bool) (sofar : Gathered) (next : Lexed) (tokens : List Lexed) :
    Except SyntaxError (Parsed Gathered (tokens.length + 1)) := do
  let place := next.token.position
  let leaf (e : Expr) : Except SyntaxError (Parsed Gathered (tokens.length + 1)) := do
    r.settle tokens
    return ⟨{ sofar with items := .operand e :: sofar.items }, tokens, by simp⟩
  match next.token.kind with
  | .number x => leaf (.literal (.number x) place)
  | .text s => leaf (.literal (.text s) place)
  | .bool b => leaf (.literal (.bool b) place)
  | .identifier name => leaf (.var ⟨name, place⟩)
  | .operator op =>
      r.settle tokens
      return ⟨{ sofar with items := .operator op place :: sofar.items }, tokens, by simp⟩
  | .delimiter .parenthesis .opening =>
      r.settle tokens
      match sofar.items with
      | .operand (.var callee) :: before =>
          let ⟨arguments, rest, h⟩ ← r.arguments tokens
          let called := Item.operand (.call callee arguments place)
          return ⟨{ sofar with items := called :: before }, rest, by omega⟩
      | items => return ⟨⟨.opening place :: items, sofar.depth + 1⟩, tokens, by simp⟩
  | .delimiter .parenthesis .closing =>
      r.settle tokens
      return ⟨⟨.closing place :: sofar.items, sofar.depth - 1⟩, tokens, by simp⟩
  | .delimiter .bracket .opening =>
      r.settle tokens
      let ⟨index, rest, h⟩ ← r.indexInside inCall tokens
      return ⟨{ sofar with items := .index index place :: sofar.items }, rest, by omega⟩
  | .delimiter .bracket .closing => .error ⟨.missingExpression .bracket, place⟩
  | other => .error ⟨.strayToken other.class, place⟩
termination_by 6 * tokens.length + 6

/-- Reads items, the first of which starts with `next`, until a token ends the expression. -/
def gather (r : Reading) (inCall : Bool) (sofar : Gathered) (next : Lexed) (tokens : List Lexed) :
    Except SyntaxError (Parsed Gathered (tokens.length + 1)) := do
  let ⟨sofar, rest, h⟩ ← r.item inCall sofar next tokens
  match rest, h with
  | [], h => return ⟨sofar, [], h⟩
  | next :: rest, h =>
      if endsExpression inCall sofar.depth next.token.kind then return ⟨sofar, next :: rest, h⟩
      else
        let ⟨all, rest, h'⟩ ← r.gather inCall sofar next rest
        return ⟨all, rest, by simp only [List.length_cons] at h; omega⟩
termination_by 6 * tokens.length + 7
decreasing_by
  · omega
  · simp only [List.length_cons] at h; omega

def expression (r : Reading) (inCall : Bool) (tokens : List Lexed) :
    Except SyntaxError (Parsed Expr tokens.length) :=
  match tokens with
  | [] => .error ⟨.endOfInput .expression, r.lastPlace []⟩
  | next :: tokens => do
      let ⟨all, rest, h⟩ ← r.gather inCall ⟨[], 0⟩ next tokens
      if 0 < all.depth then
        match rest with
        | [] => .error ⟨.unclosedParenthesis none, r.lastPlace []⟩
        | found :: _ =>
            .error ⟨.unclosedParenthesis (some found.token.kind.class), found.token.position⟩
      else
        let e ← Expr.ofItems all.items.reverse next.token.position
        return ⟨e, rest, by simpa using h⟩
termination_by 6 * tokens.length + 2

/-- Reads the expression between index brackets, and the closing one; the opening one is taken. -/
def indexInside (r : Reading) (inCall : Bool) (tokens : List Lexed) :
    Except SyntaxError (Parsed Expr tokens.length) := do
  let ⟨index, rest, h⟩ ← r.expression inCall tokens
  let ⟨_, rest, h'⟩ ← r.delimiter .bracket .closing rest
  return ⟨index, rest, length_lt_of_lt h h'⟩
termination_by 6 * tokens.length + 3

/-- Reads at least one argument, and the closing parenthesis. -/
def someArguments (r : Reading) (tokens : List Lexed) :
    Except SyntaxError (Parsed (List Expr) tokens.length) := do
  let ⟨first, rest, h⟩ ← r.expression true tokens
  match rest, h with
  | [], _ => .error ⟨.endOfInput (.token (.delimiter .parenthesis)), r.lastPlace []⟩
  | next :: rest, h =>
      if next.token.kind = .delimiter .parenthesis .closing then
        r.settle rest
        return ⟨[first], rest, by simp only [List.length_cons] at h; omega⟩
      else
        let ⟨_, rest, h'⟩ ← r.consume .comma (.token .comma) (next :: rest)
        match rest.head? with
        | some after =>
            if after.token.kind = .delimiter .parenthesis .closing then
              .error ⟨.missingExpression .parenthesis, after.token.position⟩
        | none => pure ()
        let ⟨others, rest, h''⟩ ← r.someArguments rest
        return ⟨first :: others, rest, by omega⟩
termination_by 6 * tokens.length + 3
decreasing_by
  · omega
  · omega

/-- Reads the arguments of a call, and the closing parenthesis; the opening one is taken. -/
def arguments (r : Reading) (tokens : List Lexed) :
    Except SyntaxError (Parsed (List Expr) tokens.length) :=
  match tokens with
  | [] => r.someArguments []
  | next :: rest =>
      if next.token.kind = .delimiter .parenthesis .closing then do
        r.settle rest
        return ⟨[], rest, by simp⟩
      else r.someArguments (next :: rest)
termination_by 6 * tokens.length + 4

end

end Reading

end PolishPseudocode
