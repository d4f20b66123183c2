import PolishPseudocode.Proofs.Expr.Leaves
import PolishPseudocode.Proofs.Program.Nesting

/-! The tokens of a program. A statement is made of pieces: names, expressions and the statements of its blocks.
The tokens that it is read from are those of its pieces, in order and none twice, and between them only tokens
that stand for nothing by themselves, however often a block went back to a line break. -/

namespace PolishPseudocode

inductive Piece where
  | name (n : Name)
  | expr (e : Expr)
  | statement (s : Statement)

namespace Statement

/-- The parts of a statement, in order. A call is an expression like any other. -/
def pieces : Statement → List Piece
  | assign (.var name) value => [.name name, .expr value]
  | assign (.element name index) value => [.name name, .expr index, .expr value]
  | call callee arguments p => [.expr (.call callee arguments p)]
  | whileLoop condition body _ => .expr condition :: body.map .statement
  | forLoop counter start second last body _ =>
      .name counter :: .expr start :: .expr second :: .expr last :: body.map .statement
  | branch condition body none _ => .expr condition :: body.map .statement
  | branch condition body (some otherwise) _ =>
      .expr condition :: (body.map .statement ++ otherwise.map .statement)
  | function name parameters body _ => .name name :: (parameters.map .name ++ body.map .statement)
  | giveBack none _ => []
  | giveBack (some value) _ => [.expr value]
  | print value _ => [.expr value]

def blocks : Statement → List Block
  | whileLoop _ body _ => [body]
  | forLoop _ _ _ _ body _ => [body]
  | branch _ body none _ => [body]
  | branch _ body (some otherwise) _ => [body, otherwise]
  | function _ _ body _ => [body]
  | assign _ _ | call _ _ _ | giveBack _ _ | print _ _ => []

def isGiveBack : Statement → Bool
  | giveBack _ _ => true
  | _ => false

def isFunction : Statement → Bool
  | function _ _ _ _ => true
  | _ => false

end Statement

/-- Lists of tokens one behind the other, with any silent tokens around them. -/
inductive Woven : List (List Token) → List Token → Prop where
  | nil : Woven [] []
  | silent {t : Token} {segments : List (List Token)} {tokens : List Token} (h : t.kind.isSilent = true)
      (hrest : Woven segments tokens) : Woven segments (t :: tokens)
  | segment {segments : List (List Token)} {tokens : List Token} (segment : List Token)
      (hrest : Woven segments tokens) : Woven (segment :: segments) (segment ++ tokens)

theorem Woven.append {segments segments' : List (List Token)} {tokens tokens' : List Token}
    (h : Woven segments tokens) (h' : Woven segments' tokens') :
    Woven (segments ++ segments') (tokens ++ tokens') := by
  induction h with
  | nil => exact h'
  | silent hsilent hrest ih => exact .silent hsilent ih
  | segment segment hrest ih =>
      rw [List.append_assoc]
      exact .segment segment ih

/-- Tokens spell a statement, which is inside the body of a function or not: they spell its parts. No block of it
is empty, and only inside a function it may give back a result. -/
inductive Statement.Spelled : Bool → Statement → List Token → Prop where
  | intro {inFunction : Bool} {s : Statement} {tokens : List Token} (parts : List (Piece × List Token))
      (hpieces : parts.map Prod.fst = s.pieces) (htokens : Woven (parts.map Prod.snd) tokens)
      (hnames : ∀ n segment, (Piece.name n, segment) ∈ parts → segment = [n.token])
      (hexprs : ∀ e segment, (Piece.expr e, segment) ∈ parts → e.Spelled segment)
      (hstatements : ∀ s' segment, (Piece.statement s', segment) ∈ parts →
        Spelled (inFunction || s.isFunction) s' segment)
      (hblocks : ∀ block ∈ s.blocks, block ≠ []) (hgiveBack : s.isGiveBack = true → inFunction = true) :
      Spelled inFunction s tokens

def Piece.Spelled (inFunction : Bool) : Piece → List Token → Prop
  | name n, tokens => tokens = [n.token]
  | expr e, tokens => e.Spelled tokens
  | statement s, tokens => s.Spelled inFunction tokens

/-- Tokens spell some parts, in order, with any silent tokens around them. -/
def Piece.AllSpelled (inFunction : Bool) (pieces : List Piece) (tokens : List Token) : Prop :=
  ∃ parts : List (Piece × List Token), parts.map Prod.fst = pieces
    ∧ (∀ part ∈ parts, part.1.Spelled inFunction part.2) ∧ Woven (parts.map Prod.snd) tokens

theorem Statement.spelled_of_pieces {inFunction : Bool} {s : Statement} {tokens : List Token}
    (h : Piece.AllSpelled (inFunction || s.isFunction) s.pieces tokens) (hblocks : ∀ block ∈ s.blocks, block ≠ [])
    (hgiveBack : s.isGiveBack = true → inFunction = true) : s.Spelled inFunction tokens := by
  obtain ⟨parts, hpieces, hparts, htokens⟩ := h
  exact .intro parts hpieces htokens (fun n segment hmem => hparts _ hmem) (fun e segment hmem => hparts _ hmem)
    (fun s' segment hmem => hparts _ hmem) hblocks hgiveBack

/-! ### What a reader takes -/

/-- The tokens up to the rest spell some parts. -/
def Weaves (inFunction : Bool) (tokens : List Lexed) (pieces : List Piece) (rest : List Lexed) : Prop :=
  ∃ taken, tokens = taken ++ rest ∧ Piece.AllSpelled inFunction pieces (taken.map Lexed.token)

namespace Weaves

variable {inFunction : Bool} {tokens middle rest : List Lexed} {pieces pieces' : List Piece}

theorem refl (inFunction : Bool) (tokens : List Lexed) : Weaves inFunction tokens [] tokens :=
  ⟨[], rfl, [], rfl, List.forall_mem_nil _, .nil⟩

theorem append (h : Weaves inFunction tokens pieces middle) (h' : Weaves inFunction middle pieces' rest) :
    Weaves inFunction tokens (pieces ++ pieces') rest := by
  obtain ⟨taken, rfl, parts, rfl, hparts, hwoven⟩ := h
  obtain ⟨taken', rfl, parts', rfl, hparts', hwoven'⟩ := h'
  refine ⟨taken ++ taken', by simp, parts ++ parts', by simp, List.forall_mem_append.2 ⟨hparts, hparts'⟩, ?_⟩
  rw [List.map_append, List.map_append]
  exact hwoven.append hwoven'

/-- Only silent tokens. -/
theorem silent (inFunction : Bool) {taken : List Lexed} (htokens : tokens = taken ++ rest)
    (h : ∀ t ∈ taken, t.token.kind.isSilent = true) : Weaves inFunction tokens [] rest := by
  refine ⟨taken, htokens, [], rfl, List.forall_mem_nil _, ?_⟩
  clear htokens
  induction taken with
  | nil => exact .nil
  | cons t taken ih =>
      obtain ⟨ht, htaken⟩ := List.forall_mem_cons.1 h
      exact .silent ht (ih htaken)

theorem silent_cons (inFunction : Bool) {next : Lexed} (htokens : tokens = next :: rest)
    (h : next.token.kind.isSilent = true) : Weaves inFunction tokens [] rest := by
  have htaken : tokens = [next] ++ rest := htokens
  exact silent inFunction htaken (List.forall_mem_singleton.2 h)

/-- The tokens of one part. -/
theorem piece {piece : Piece} {taken : List Lexed} (htokens : tokens = taken ++ rest)
    (h : piece.Spelled inFunction (taken.map Lexed.token)) : Weaves inFunction tokens [piece] rest := by
  refine ⟨taken, htokens, [(piece, taken.map Lexed.token)], rfl, List.forall_mem_singleton.2 h, ?_⟩
  simpa using Woven.segment (taken.map Lexed.token) .nil

/-- A part that is one token. -/
theorem single {piece : Piece} {next : Lexed} (htokens : tokens = next :: rest)
    (h : piece.Spelled inFunction [next.token]) : Weaves inFunction tokens [piece] rest := by
  have htaken : tokens = [next] ++ rest := htokens
  exact Weaves.piece htaken h

/-- The parts of a statement make a statement. -/
theorem statement {inner : Bool} {s : Statement} (h : Weaves inner tokens s.pieces rest)
    (hinner : inner = (inFunction || s.isFunction)) (hblocks : ∀ block ∈ s.blocks, block ≠ [])
    (hgiveBack : s.isGiveBack = true → inFunction = true) :
    Weaves inFunction tokens [.statement s] rest := by
  obtain ⟨taken, htokens, hpieces⟩ := h
  subst hinner
  exact piece htokens (Statement.spelled_of_pieces hpieces hblocks hgiveBack)

/-- The parts of a statement without blocks that gives back nothing. -/
theorem simple {s : Statement} (h : Weaves inFunction tokens s.pieces rest) (hblocks : s.blocks = [])
    (hfunction : s.isFunction = false) (hgiveBack : s.isGiveBack = false) :
    Weaves inFunction tokens [.statement s] rest := by
  refine h.statement (by rw [hfunction, Bool.or_false]) ?_ ?_
  · rw [hblocks]
    exact List.forall_mem_nil _
  · rw [hgiveBack]
    exact fun h => Bool.noConfusion h

end Weaves

namespace Reading

variable {r : Reading} {inFunction : Bool} {tokens : List Lexed}

theorem isSilent_of_class {kind : Token.Kind}
    (h : kind.class = .comma ∨ kind.class = .keyword ∨ kind.class = .ellipsis ∨ kind.class = .newLine) :
    kind.isSilent = true := by
  cases kind with
  | comma | keyword | ellipsis | newLine => rfl
  | _ => simp [Token.Kind.class] at h

theorem consume_weaves (r : Reading) (inFunction : Bool) (expected : Expected) {kind : Token.Class}
    (h : kind = .comma ∨ kind = .keyword ∨ kind = .ellipsis ∨ kind = .newLine) (tokens : List Lexed) :
    Ensures (fun p => Weaves inFunction tokens [] p.rest) (r.consume kind expected tokens) := by
  refine (consume_takes kind expected).imp ?_
  rintro p ⟨next, htokens, -, rfl⟩
  exact .silent_cons inFunction htokens (isSilent_of_class h)

theorem delimiter_weaves (inFunction : Bool) (pair : Delimiter) (side : Side) (tokens : List Lexed) :
    Ensures (fun p => Weaves inFunction tokens [] p.rest) (r.delimiter pair side tokens) := by
  refine (delimiter_takes pair side tokens).imp ?_
  rintro p ⟨next, htokens, hnext⟩
  exact .silent_cons inFunction htokens (by rw [hnext]; rfl)

theorem keyword_weaves (inFunction : Bool) (word : Keyword) (tokens : List Lexed) :
    Ensures (fun p => Weaves inFunction tokens [] p.rest) (r.keyword word tokens) := by
  refine (keyword_takes word tokens).imp ?_
  rintro p ⟨next, htokens, hnext⟩
  exact .silent_cons inFunction htokens (by rw [hnext]; rfl)

theorem name_weaves (inFunction : Bool) (tokens : List Lexed) :
    Ensures (fun p => Weaves inFunction tokens [.name p.value] p.rest) (r.name tokens) := by
  refine (name_takes tokens).imp ?_
  rintro p ⟨next, htokens, hnext⟩
  exact .single htokens (congrArg (fun t => [t]) hnext)

theorem expression_weaves (inFunction inCall : Bool) (tokens : List Lexed) :
    Ensures (fun p => Weaves inFunction tokens [.expr p.value] p.rest) (r.expression inCall tokens) := by
  refine (expression_takes r inCall tokens).imp ?_
  rintro p ⟨taken, htokens, h⟩
  exact .piece htokens h

theorem indexInside_weaves (inFunction inCall : Bool) (tokens : List Lexed) :
    Ensures (fun p => Weaves inFunction tokens [.expr p.value] p.rest) (r.indexInside inCall tokens) := by
  rw [indexInside]
  refine (expression_weaves inFunction inCall tokens).bind ?_
  rintro ⟨index, rest, _⟩ hindex
  exact (delimiter_weaves inFunction .bracket .closing rest).bind fun p hclosing => hindex.append hclosing

/-! ### Simple statements and heads -/

def indexPieces : Target → List Piece
  | .var _ => []
  | .element _ index => [.expr index]

theorem target_weaves (inFunction : Bool) (name : Name) (tokens : List Lexed) :
    Ensures (fun p => p.value.name = name ∧ Weaves inFunction tokens (indexPieces p.value) p.rest)
      (r.target name tokens) := by
  rw [target]
  split
  · refine (delimiter_weaves inFunction .bracket .opening tokens).bind ?_
    rintro ⟨_, rest, _⟩ hopening
    refine (indexInside_weaves inFunction false rest).bind fun p hindex => ⟨rfl, ?_⟩
    exact hopening.append hindex
  · exact ⟨rfl, .refl inFunction tokens⟩

theorem pieces_assign (target : Target) (value : Expr) :
    (Statement.assign target value).pieces = .name target.name :: (indexPieces target ++ [.expr value]) := by
  cases target <;> rfl

theorem assignment_weaves (r : Reading) (inFunction : Bool) {name : Name} {next : Lexed}
    (hnext : next.token = name.token) (tokens : List Lexed) :
    Ensures (fun p => Weaves inFunction (next :: tokens) [.statement p.value] p.rest)
      (r.assignment name tokens) := by
  have hname : Weaves inFunction (next :: tokens) [.name name] tokens :=
    .single rfl (congrArg (fun t => [t]) hnext)
  rw [assignment]
  split
  · trivial
  · refine (target_weaves inFunction name tokens).bind ?_
    rintro ⟨target, rest₁, _⟩ ⟨rfl, h₁⟩
    refine (consume_weaves r inFunction _ (.inr (.inl rfl)) rest₁).bind ?_
    rintro ⟨arrow, rest₂, _⟩ h₂
    dsimp only
    split
    · refine (expression_weaves inFunction false rest₂).bind fun p h₃ => .simple ?_ rfl rfl rfl
      rw [pieces_assign]
      exact hname.append (h₁.append (h₂.append h₃))
    · trivial

theorem assignmentOrCall_weaves (r : Reading) (inFunction : Bool) {name : Name} {next : Lexed}
    (hnext : next.token = name.token) (tokens : List Lexed) :
    Ensures (fun p => Weaves inFunction (next :: tokens) [.statement p.value] p.rest)
      (r.assignmentOrCall name tokens) := by
  cases tokens with
  | nil => exact assignment_weaves r inFunction hnext []
  | cons next' rest =>
      rw [assignmentOrCall]
      split
      · rename_i hopening
        refine .skip fun _ => (arguments_takes r rest).bind ?_
        rintro ⟨arguments, rest', _⟩ ⟨taken, hrest, inner, q, hinner, htaken⟩
        have htokens : next :: next' :: rest = (next :: next' :: taken) ++ rest' :=
          congrArg (next :: next' :: ·) hrest
        have hparenthesis : next'.token = ⟨.delimiter .parenthesis .opening, next'.token.position⟩ :=
          congrArg (Token.mk · _) hopening
        refine Weaves.simple (.piece htokens ?_) rfl rfl rfl
        rw [List.map_cons, List.map_cons, htaken, hnext, hparenthesis]
        exact hinner.call name next'.token.position q
      · exact assignment_weaves r inFunction hnext (next' :: rest)

theorem condition_weaves (inFunction : Bool) (word : Keyword) (tokens : List Lexed) :
    Ensures (fun p => Weaves inFunction tokens [.expr p.value] p.rest) (r.condition word tokens) := by
  refine (expression_weaves inFunction false tokens).bind ?_
  rintro ⟨e, rest, _⟩ he
  exact (keyword_weaves inFunction word rest).bind fun p hword => he.append hword

theorem counting_weaves (inFunction : Bool) (tokens : List Lexed) :
    Ensures (fun p => Weaves inFunction tokens
      [.name p.value.counter, .expr p.value.start, .expr p.value.second, .expr p.value.last] p.rest)
      (r.counting tokens) := by
  have hcomma (tokens : List Lexed) := consume_weaves r inFunction (.token .comma) (.inl rfl) tokens
  refine (name_weaves inFunction tokens).bind ?_
  rintro ⟨counter, rest₁, _⟩ h₁
  refine (keyword_weaves inFunction .equals rest₁).bind ?_
  rintro ⟨_, rest₂, _⟩ h₂
  refine (expression_weaves inFunction false rest₂).bind ?_
  rintro ⟨start, rest₃, _⟩ h₃
  refine (hcomma rest₃).bind ?_
  rintro ⟨_, rest₄, _⟩ h₄
  refine (expression_weaves inFunction false rest₄).bind ?_
  rintro ⟨second, rest₅, _⟩ h₅
  refine (hcomma rest₅).bind ?_
  rintro ⟨_, rest₆, _⟩ h₆
  refine (consume_weaves r inFunction _ (.inr (.inr (.inl rfl))) rest₆).bind ?_
  rintro ⟨_, rest₇, _⟩ h₇
  refine (hcomma rest₇).bind ?_
  rintro ⟨_, rest₈, _⟩ h₈
  refine (condition_weaves inFunction .do_ rest₈).bind fun p h₉ => ?_
  exact h₁.append (h₂.append (h₃.append (h₄.append (h₅.append (h₆.append (h₇.append (h₈.append h₉)))))))

theorem parameters_weaves (r : Reading) (inFunction : Bool) (tokens : List Lexed) :
    Ensures (fun p => Weaves inFunction tokens (p.value.map .name) p.rest) (r.parameters tokens) := by
  rw [parameters]
  split
  · exact .refl inFunction tokens
  · refine (name_weaves inFunction tokens).bind ?_
    rintro ⟨first, rest₁, hlt₁⟩ h₁
    dsimp only
    split
    · exact h₁
    · refine (consume_weaves r inFunction _ (.inl rfl) rest₁).bind ?_
      rintro ⟨_, rest₂, hlt₂⟩ h₂
      exact (parameters_weaves r inFunction rest₂).bind fun p h₃ => h₁.append (h₂.append h₃)
termination_by tokens.length
decreasing_by omega

theorem signature_weaves (r : Reading) (inFunction : Bool) (tokens : List Lexed) :
    Ensures (fun p => Weaves inFunction tokens (.name p.value.1 :: p.value.2.map .name) p.rest)
      (r.signature tokens) := by
  refine (name_weaves inFunction tokens).bind ?_
  rintro ⟨name, rest₁, _⟩ h₁
  refine (delimiter_weaves inFunction .parenthesis .opening rest₁).bind ?_
  rintro ⟨_, rest₂, _⟩ h₂
  refine (parameters_weaves r inFunction rest₂).bind ?_
  rintro ⟨parameters, rest₃, _⟩ h₃
  refine (delimiter_weaves inFunction .parenthesis .closing rest₃).bind fun p h₄ => ?_
  have hall := h₁.append (h₂.append (h₃.append h₄))
  rwa [List.append_nil] at hall

/-! ### Lines and blocks -/

/-- The tokens of the lines of a block of a level, up to where reading can go on behind them. -/
structure LinesWoven {limit : Nat} (inFunction : Bool) (tokens : List Lexed) (level : Nat)
    (l : Lines limit) : Prop where
  rest : Weaves inFunction tokens (l.statements.map .statement) l.rest
  back : l.staysAhead level = false →
    (∃ back, l.back = some back ∧ Weaves inFunction tokens (l.statements.map .statement) back)
      ∨ (l.back = none ∧ l.statements = [])

namespace LinesWoven

variable {limit level : Nat} {l : Lines limit} {tokens' : List Lexed}

theorem mono {limit' : Nat} (h : LinesWoven inFunction tokens level l) (hle : limit ≤ limit') :
    LinesWoven inFunction tokens level (l.mono hle) :=
  ⟨h.rest, h.back⟩

/-- No statements. -/
theorem nil {depth : Nat} {rest : List Lexed} (h : Weaves inFunction tokens [] rest) (hlt : rest.length < limit)
    (hback : ∀ back ∈ (none : Option (List Lexed)), back.length < limit) :
    LinesWoven inFunction tokens level (⟨[], depth, none, rest, hlt, hback⟩ : Lines limit) :=
  ⟨h, fun _ => .inr ⟨rfl, rfl⟩⟩

/-- The lines behind a line break, seen from further in front. -/
theorem behind {middle : List Lexed} (h : LinesWoven inFunction middle level l)
    (htokens : Weaves inFunction tokens [] tokens') (hmiddle : Weaves inFunction tokens' [] middle)
    (hlt : tokens'.length < limit) : LinesWoven inFunction tokens level (l.behind tokens' hlt) where
  rest := htokens.append (hmiddle.append h.rest)
  back := by
    intro hahead
    refine .inl ⟨l.back.getD tokens', rfl, ?_⟩
    rcases h.back hahead with ⟨back, hback, hwoven⟩ | ⟨hback, hnone⟩
    · rw [hback]
      exact htokens.append (hmiddle.append hwoven)
    · change Weaves inFunction tokens (l.statements.map .statement) _
      rw [hback, hnone]
      exact htokens

/-- The last statement before the other branch, or before the end of the text. -/
theorem last {s : Statement} {rest : List Lexed} (h : Weaves inFunction tokens [.statement s] rest)
    (hahead : rest.head?.all Lexed.isElse = true) (hlt : rest.length < limit)
    (hback : ∀ back ∈ (none : Option (List Lexed)), back.length < limit) :
    LinesWoven inFunction tokens level (⟨[s], level, none, rest, hlt, hback⟩ : Lines limit) where
  rest := h
  back := by
    intro hstays
    refine absurd hstays ?_
    rw [Lines.staysAhead]
    simp only [Nat.le_add_right, decide_true, Bool.and_true]
    simpa using hahead

/-- One statement more in front. -/
theorem cons {s : Statement} {middle : List Lexed} (hs : Weaves inFunction tokens [.statement s] middle)
    (h : LinesWoven inFunction middle level l) (hback : l.back ≠ none) :
    LinesWoven inFunction tokens level { l with statements := s :: l.statements } where
  rest := hs.append h.rest
  back := by
    intro hahead
    rcases h.back hahead with ⟨back, hsome, hwoven⟩ | ⟨hnone, -⟩
    · exact .inl ⟨back, hsome, hs.append hwoven⟩
    · exact absurd hnone hback

/-- Behind its lines, a block with statements goes on where they end. -/
theorem resume {first : List Lexed} (h : LinesWoven inFunction tokens level l) (hsome : l.statements ≠ []) :
    Weaves inFunction tokens (l.statements.map .statement) (l.resume level first) := by
  rw [Lines.resume]
  split
  · exact h.rest
  · rename_i hahead
    rcases h.back (by simpa using hahead) with ⟨back, hback, hwoven⟩ | ⟨-, hnone⟩
    · rw [hback]
      exact hwoven
    · exact absurd hnone hsome

end LinesWoven

mutual

theorem statement_weaves (r : Reading) (level : Nat) (inFunction : Bool) (next : Lexed) (tokens : List Lexed) :
    Ensures (fun p => Weaves inFunction (next :: tokens) [.statement p.value] p.rest)
      (r.statement level inFunction next tokens) := by
  obtain ⟨⟨kind, place⟩, cursor⟩ := next
  have hword (word : Keyword) (f : Bool) :
      Weaves f (⟨⟨.keyword word, place⟩, cursor⟩ :: tokens) [] tokens := .silent_cons f rfl rfl
  have hor : inFunction = (inFunction || false) := (Bool.or_false inFunction).symm
  rw [statement]
  dsimp only
  split
  · trivial
  · rename_i name
    refine .skip fun _ => ?_
    exact (assignmentOrCall_weaves r inFunction rfl tokens).bind fun p h => h
  · refine .skip fun _ => ?_
    refine (counting_weaves inFunction tokens).bind ?_
    rintro ⟨head, rest, hlt⟩ hhead
    refine (block_weaves r (level + 1) inFunction rest).bind fun p ⟨hsome, hbody⟩ => ?_
    refine Weaves.statement ((hword _ inFunction).append (hhead.append hbody)) hor ?_ Bool.noConfusion
    exact List.forall_mem_singleton.2 hsome
  · refine .skip fun _ => ?_
    refine (condition_weaves inFunction .do_ tokens).bind ?_
    rintro ⟨condition, rest, hlt⟩ hcondition
    refine (block_weaves r (level + 1) inFunction rest).bind fun p ⟨hsome, hbody⟩ => ?_
    refine Weaves.statement ((hword _ inFunction).append (hcondition.append hbody)) hor ?_ Bool.noConfusion
    exact List.forall_mem_singleton.2 hsome
  · refine .skip fun _ => ?_
    refine (condition_weaves inFunction .then_ tokens).bind ?_
    rintro ⟨condition, rest, hlt⟩ hcondition
    refine (block_weaves r (level + 1) inFunction rest).bind ?_
    rintro ⟨body, rest', hlt'⟩ ⟨hsome, hbody⟩
    have hhead := (hword .if_ inFunction).append (hcondition.append hbody)
    cases rest' with
    | nil => exact .statement hhead hor (List.forall_mem_singleton.2 hsome) Bool.noConfusion
    | cons next rest' =>
        dsimp only
        split
        · rename_i helse
          refine .skip fun _ => ?_
          refine (block_weaves r (level + 1) inFunction rest').bind fun p ⟨hsome', hotherwise⟩ => ?_
          have hsilent : next.token.kind.isSilent = true := by
            rw [eq_of_beq helse]
            rfl
          have hall := hhead.append ((Weaves.silent_cons inFunction rfl hsilent).append hotherwise)
          refine .statement hall hor ?_ Bool.noConfusion
          exact List.forall_mem_cons.2 ⟨hsome, List.forall_mem_singleton.2 hsome'⟩
        · exact .statement hhead hor (List.forall_mem_singleton.2 hsome) Bool.noConfusion
  · refine .skip fun _ => ?_
    refine (signature_weaves r true tokens).bind ?_
    rintro ⟨⟨name, parameters⟩, rest, hlt⟩ hsignature
    refine (block_weaves r (level + 1) true rest).bind fun p ⟨hsome, hbody⟩ => ?_
    refine Weaves.statement ((hword _ true).append (hsignature.append hbody)) (Bool.or_true _).symm ?_
      Bool.noConfusion
    exact List.forall_mem_singleton.2 hsome
  · refine .skip fun _ => ?_
    split
    · rename_i hinside
      split
      · exact .statement (hword _ inFunction) hor (List.forall_mem_nil _) fun _ => hinside
      · refine (expression_weaves inFunction false tokens).bind fun p hvalue => ?_
        exact .statement ((hword _ inFunction).append hvalue) hor (List.forall_mem_nil _) fun _ => hinside
    · trivial
  · refine .skip fun _ => ?_
    refine (expression_weaves inFunction false tokens).bind fun p hvalue => ?_
    exact .simple ((hword _ inFunction).append hvalue) rfl rfl rfl
  · trivial
  · trivial
termination_by tokens.length + 1
decreasing_by
  · omega
  · omega
  · omega
  · simp only [List.length_cons] at hlt'
    omega
  · omega

theorem block_weaves (r : Reading) (level : Nat) (inFunction : Bool) (tokens : List Lexed) :
    Ensures (fun p => p.value ≠ [] ∧ Weaves inFunction tokens (p.value.map .statement) p.rest)
      (r.block level inFunction tokens) := by
  cases tokens with
  | nil =>
      rw [block]
      trivial
  | cons next following =>
      rw [block]
      refine (consume_weaves r inFunction _ (.inr (.inr (.inr rfl))) _).bind ?_
      rintro ⟨_, rest, hlt⟩ hbreak
      refine (lines_weaves r level inFunction rest).bind fun found hfound => ?_
      dsimp only
      split
      · trivial
      · rename_i hsome
        have hsome : found.statements ≠ [] := fun hnone => hsome (List.isEmpty_iff.2 hnone)
        exact ⟨hsome, hbreak.append ((hfound.mono _).resume hsome)⟩
termination_by tokens.length
decreasing_by omega

theorem lines_weaves (r : Reading) (level : Nat) (inFunction : Bool) (tokens : List Lexed) :
    Ensures (LinesWoven inFunction tokens level) (r.lines level inFunction tokens) := by
  cases tokens with
  | nil =>
      rw [lines]
      exact LinesWoven.nil (.refl inFunction []) _ _
  | cons next following =>
      rw [lines]
      split
      · rename_i hnext
        refine (margin_takes r hnext following).bind ?_
        rintro ⟨indents, rest, hrest⟩ ⟨hsplit, hindents⟩
        have hmargin : Weaves inFunction (next :: following) [] rest := by
          refine .silent inFunction hsplit fun t ht => ?_
          rw [hindents t ht]
          rfl
        cases rest with
        | nil => exact LinesWoven.nil hmargin _ _
        | cons first after =>
            have hafter : after.length < following.length := Nat.lt_of_succ_lt_succ hrest
            dsimp only
            split
            · rename_i hkind
              have hbreak : Weaves inFunction (first :: after) [] after :=
                .silent_cons inFunction rfl (by rw [hkind]; rfl)
              refine .skip fun _ => (lines_weaves r level inFunction after).bind fun found hfound => ?_
              exact (hfound.mono _).behind hmargin hbreak _
            · split
              · exact LinesWoven.nil hmargin _ _
              · split
                · trivial
                · refine (statement_weaves r level inFunction first after).bind ?_
                  rintro ⟨s, rest, hlt⟩ hstatement
                  have hs := hmargin.append hstatement
                  dsimp only
                  split
                  · rename_i helse
                    exact LinesWoven.last hs helse _ _
                  · refine (consume_weaves r inFunction _ (.inr (.inr (.inr rfl))) rest).bind ?_
                    rintro ⟨_, behind, hlt'⟩ hbreak
                    refine (lines_weaves r level inFunction behind).bind fun found hfound => ?_
                    exact .cons hs ((hfound.mono _).behind (.refl inFunction rest) hbreak _)
                      (Option.some_ne_none _)
      · exact LinesWoven.nil (.refl inFunction _) _ _
termination_by tokens.length
decreasing_by
  all_goals simp only [List.length_cons]
  all_goals omega

end

/-- All the tokens of a text that is a program are those of its statements. -/
theorem statements_weaves (r : Reading) (tokens : List Lexed) :
    Ensures (fun program => Weaves false tokens (program.map .statement) []) (r.statements tokens) := by
  cases tokens with
  | nil =>
      rw [statements]
      exact .refl false []
  | cons next rest =>
      rw [statements]
      split
      · rename_i hkind
        refine .skip fun _ => (statements_weaves r rest).imp fun program h => ?_
        exact (Weaves.silent_cons false rfl (by rw [hkind]; rfl)).append h
      · refine (statement_weaves r 0 false next rest).bind ?_
        rintro ⟨s, rest', hlt⟩ hs
        dsimp only
        split
        · rename_i hempty
          obtain rfl := List.isEmpty_iff.1 hempty
          exact hs
        · refine (consume_weaves r false _ (.inr (.inr (.inr rfl))) rest').bind ?_
          rintro ⟨_, behind, hlt'⟩ hbreak
          refine (statements_weaves r behind).bind fun program h => ?_
          exact hs.append (hbreak.append h)
termination_by tokens.length
decreasing_by
  all_goals simp only [List.length_cons]
  all_goals omega

end Reading

end PolishPseudocode
