import PolishPseudocode.Proofs.Relocation
import PolishPseudocode.Proofs.Token.Spelling

/-! The canonical text of a program: one statement a line, four blanks for every block around it, every
operator with its operands in parentheses and every negative number too. How the magnitude of a number is
written in decimal digits is left open. Beside the text stand the kinds of its tokens, and the conditions
under which a program can be printed at all. -/

namespace PolishPseudocode

/-! ### Induction on expressions and statements -/

@[elab_as_elim]
theorem Expr.inductionOn {motive : Expr → Prop} (e : Expr) (literal : ∀ v p, motive (.literal v p))
    (var : ∀ name, motive (.var name)) (unary : ∀ op e p, motive e → motive (.unary op e p))
    (binary : ∀ left op right p, motive left → motive right → motive (.binary left op right p))
    (index : ∀ target i p, motive target → motive i → motive (.index target i p))
    (call : ∀ callee arguments p, (∀ e ∈ arguments, motive e) → motive (.call callee arguments p)) :
    motive e := by
  have ih (e' : Expr) (_ : sizeOf e' < sizeOf e) : motive e' :=
    inductionOn e' literal var unary binary index call
  cases e with
  | literal v p => exact literal v p
  | var name => exact var name
  | unary op e p => exact unary op e p (ih e (by simp; omega))
  | binary left op right p =>
      exact binary left op right p (ih left (by simp; omega)) (ih right (by simp; omega))
  | index target i p => exact index target i p (ih target (by simp; omega)) (ih i (by simp; omega))
  | call callee arguments p =>
      refine call callee arguments p fun e he => ih e ?_
      have := List.sizeOf_lt_of_mem he
      simp
      omega
termination_by sizeOf e

@[elab_as_elim]
theorem Statement.inductionOn {motive : Statement → Prop} (s : Statement)
    (assign : ∀ target value, motive (.assign target value))
    (call : ∀ callee arguments p, motive (.call callee arguments p))
    (whileLoop : ∀ condition body p, (∀ s ∈ body, motive s) → motive (.whileLoop condition body p))
    (forLoop : ∀ counter start second last body p, (∀ s ∈ body, motive s) →
      motive (.forLoop counter start second last body p))
    (branch : ∀ condition body otherwise p, (∀ s ∈ body, motive s) →
      (∀ block ∈ otherwise, ∀ s ∈ block, motive s) → motive (.branch condition body otherwise p))
    (function : ∀ name parameters body p, (∀ s ∈ body, motive s) →
      motive (.function name parameters body p))
    (giveBack : ∀ value p, motive (.giveBack value p)) (print : ∀ value p, motive (.print value p)) :
    motive s := by
  have ih (body : List Statement) (hbody : sizeOf body < sizeOf s) : ∀ s' ∈ body, motive s' := by
    intro s' hs'
    have := List.sizeOf_lt_of_mem hs'
    exact inductionOn s' assign call whileLoop forLoop branch function giveBack print
  cases s with
  | assign target value => exact assign target value
  | call callee arguments p => exact call callee arguments p
  | whileLoop condition body p => exact whileLoop condition body p (ih body (by simp; omega))
  | forLoop counter start second last body p =>
      exact forLoop counter start second last body p (ih body (by simp; omega))
  | branch condition body otherwise p =>
      refine branch condition body otherwise p (ih body (by simp; omega)) ?_
      rintro block hblock
      refine ih block ?_
      rw [Option.mem_def.1 hblock]
      simp
      omega
  | function name parameters body p => exact function name parameters body p (ih body (by simp; omega))
  | giveBack value p => exact giveBack value p
  | print value p => exact print value p
termination_by sizeOf s

/-! ### Numbers -/

/-- Whether a number has the sign, which a zero can have too. -/
def isNegative (x : Float) : Bool :=
  match Shape.ofFloat x with
  | .notANumber => false
  | .infinite negative => negative
  | .finite d => d.negative

def isFinite (x : Float) : Bool :=
  match Shape.ofFloat x with
  | .finite _ => true
  | _ => false

/-- The number that is read where a number was written with the digits of a numeral, and a minus in front if
it is negative. -/
def readBack (numeral : Float → Numeral) (x : Float) : Float :=
  if isNegative x then -(numeral x).value else (numeral x).value

/-! ### Texts -/

def Literal.printed (numeral : Float → Numeral) : Literal → List Char
  | number x =>
      if isNegative x then '(' :: '-' :: ((numeral x).text ++ [')']) else (numeral x).text
  | text content => '"' :: (content.toList ++ ['"'])
  | bool b => (boolText b).toList

mutual

/-- The text of an expression. An index binds tighter than any operator and needs no parentheses. -/
def Expr.printed (numeral : Float → Numeral) : Expr → List Char
  | .literal v _ => v.printed numeral
  | .var name => name.name.toList
  | .unary .not e _ => '(' :: (Operator.not.spelling.toList ++ ' ' :: (e.printed numeral ++ [')']))
  | .unary .negate e _ => '(' :: '-' :: (e.printed numeral ++ [')'])
  | .binary left op right _ =>
      '(' :: (left.printed numeral ++ ' ' :: (op.spelling.toList ++ ' ' :: (right.printed numeral ++ [')'])))
  | .index target i _ => target.printed numeral ++ '[' :: (i.printed numeral ++ [']'])
  | .call callee arguments _ => callee.name.toList ++ '(' :: (Expr.printedAll numeral arguments ++ [')'])

/-- The texts of expressions with commas between them. -/
def Expr.printedAll (numeral : Float → Numeral) : List Expr → List Char
  | [] => []
  | [e] => e.printed numeral
  | e :: es => e.printed numeral ++ ',' :: ' ' :: Expr.printedAll numeral es

end

def Target.printed (numeral : Float → Numeral) : Target → List Char
  | var name => name.name.toList
  | element name i => name.name.toList ++ '[' :: (i.printed numeral ++ [']'])

def namesPrinted : List Name → List Char
  | [] => []
  | [name] => name.name.toList
  | name :: names => name.name.toList ++ ',' :: ' ' :: namesPrinted names

/-- A line: how deep it is indented, and its text behind the indentation. -/
abbrev Row :=
  Nat × List Char

def Row.text (row : Row) : List Char :=
  List.replicate (indentUnit.length * row.1) ' ' ++ row.2

mutual

/-- The lines of a statement inside so many blocks. -/
def Statement.rows (numeral : Float → Numeral) (depth : Nat) : Statement → List Row
  | .assign target value =>
      [(depth, target.printed numeral ++ ' '
        :: (Keyword.assign.spelling.toList ++ ' ' :: value.printed numeral))]
  | .call callee arguments _ =>
      [(depth, callee.name.toList ++ '(' :: (Expr.printedAll numeral arguments ++ [')']))]
  | .whileLoop condition body _ =>
      (depth, Keyword.while_.spelling.toList ++ ' '
        :: (condition.printed numeral ++ ' ' :: Keyword.do_.spelling.toList))
        :: Statement.rowsAll numeral (depth + 1) body
  | .forLoop counter start second last body _ =>
      (depth, Keyword.for_.spelling.toList ++ ' ' :: (counter.name.toList ++ ' '
        :: (Keyword.equals.spelling.toList ++ ' ' :: (start.printed numeral ++ ',' :: ' '
        :: (second.printed numeral ++ ',' :: ' ' :: ("...".toList ++ ',' :: ' '
        :: (last.printed numeral ++ ' ' :: Keyword.do_.spelling.toList)))))))
        :: Statement.rowsAll numeral (depth + 1) body
  | .branch condition body none _ =>
      (depth, Keyword.if_.spelling.toList ++ ' '
        :: (condition.printed numeral ++ ' ' :: Keyword.then_.spelling.toList))
        :: Statement.rowsAll numeral (depth + 1) body
  | .branch condition body (some otherwise) _ =>
      (depth, Keyword.if_.spelling.toList ++ ' '
        :: (condition.printed numeral ++ ' ' :: Keyword.then_.spelling.toList))
        :: (Statement.rowsAll numeral (depth + 1) body ++ (depth, Keyword.else_.spelling.toList)
        :: Statement.rowsAll numeral (depth + 1) otherwise)
  | .function name parameters body _ =>
      (depth, Keyword.function.spelling.toList ++ ' '
        :: (name.name.toList ++ '(' :: (namesPrinted parameters ++ [')'])))
        :: Statement.rowsAll numeral (depth + 1) body
  | .giveBack none _ => [(depth, Keyword.return_.spelling.toList)]
  | .giveBack (some value) _ => [(depth, Keyword.return_.spelling.toList ++ ' ' :: value.printed numeral)]
  | .print value _ => [(depth, Keyword.print.spelling.toList ++ ' ' :: value.printed numeral)]

def Statement.rowsAll (numeral : Float → Numeral) (depth : Nat) : List Statement → List Row
  | [] => []
  | s :: ss => s.rows numeral depth ++ Statement.rowsAll numeral depth ss

end

def Program.printed (numeral : Float → Numeral) (program : Program) : String :=
  String.ofList (['\n'].intercalate ((Statement.rowsAll numeral 0 program).map Row.text))

/-! ### Kinds of tokens -/

def Literal.kinds (numeral : Float → Numeral) : Literal → List Token.Kind
  | number x =>
      if isNegative x then
        [.delimiter .parenthesis .opening, .operator (.binary .sub), .number (numeral x).value,
          .delimiter .parenthesis .closing]
      else [.number (numeral x).value]
  | text content => [.text content]
  | bool b => [.bool b]

mutual

def Expr.kinds (numeral : Float → Numeral) : Expr → List Token.Kind
  | .literal v _ => v.kinds numeral
  | .var name => [.identifier name.name]
  | .unary .not e _ =>
      .delimiter .parenthesis .opening :: .operator .not
        :: (e.kinds numeral ++ [.delimiter .parenthesis .closing])
  | .unary .negate e _ =>
      .delimiter .parenthesis .opening :: .operator (.binary .sub)
        :: (e.kinds numeral ++ [.delimiter .parenthesis .closing])
  | .binary left op right _ =>
      .delimiter .parenthesis .opening :: (left.kinds numeral ++ .operator (.binary op)
        :: (right.kinds numeral ++ [.delimiter .parenthesis .closing]))
  | .index target i _ =>
      target.kinds numeral ++ .delimiter .bracket .opening
        :: (i.kinds numeral ++ [.delimiter .bracket .closing])
  | .call callee arguments _ =>
      .identifier callee.name :: .delimiter .parenthesis .opening
        :: (Expr.kindsAll numeral arguments ++ [.delimiter .parenthesis .closing])

def Expr.kindsAll (numeral : Float → Numeral) : List Expr → List Token.Kind
  | [] => []
  | [e] => e.kinds numeral
  | e :: es => e.kinds numeral ++ .comma :: Expr.kindsAll numeral es

end

def Target.kinds (numeral : Float → Numeral) : Target → List Token.Kind
  | var name => [.identifier name.name]
  | element name i =>
      .identifier name.name :: .delimiter .bracket .opening
        :: (i.kinds numeral ++ [.delimiter .bracket .closing])

def namesKinds : List Name → List Token.Kind
  | [] => []
  | [name] => [.identifier name.name]
  | name :: names => .identifier name.name :: .comma :: namesKinds names

/-- A line break, the indentation of a line and what follows. -/
def lineKinds (depth : Nat) (kinds : List Token.Kind) : List Token.Kind :=
  .newLine :: (List.replicate depth .indentation ++ kinds)

mutual

/-- The kinds of the tokens of a statement from its first one on. -/
def Statement.kinds (numeral : Float → Numeral) (depth : Nat) : Statement → List Token.Kind
  | .assign target value => target.kinds numeral ++ .keyword .assign :: value.kinds numeral
  | .call callee arguments _ =>
      .identifier callee.name :: .delimiter .parenthesis .opening
        :: (Expr.kindsAll numeral arguments ++ [.delimiter .parenthesis .closing])
  | .whileLoop condition body _ =>
      .keyword .while_ :: (condition.kinds numeral ++ .keyword .do_
        :: Statement.kindsAll numeral (depth + 1) body)
  | .forLoop counter start second last body _ =>
      .keyword .for_ :: .identifier counter.name :: .keyword .equals :: (start.kinds numeral ++ .comma
        :: (second.kinds numeral ++ .comma :: .ellipsis :: .comma :: (last.kinds numeral ++ .keyword .do_
        :: Statement.kindsAll numeral (depth + 1) body)))
  | .branch condition body none _ =>
      .keyword .if_ :: (condition.kinds numeral ++ .keyword .then_
        :: Statement.kindsAll numeral (depth + 1) body)
  | .branch condition body (some otherwise) _ =>
      .keyword .if_ :: (condition.kinds numeral ++ .keyword .then_
        :: (Statement.kindsAll numeral (depth + 1) body
        ++ lineKinds depth (.keyword .else_ :: Statement.kindsAll numeral (depth + 1) otherwise)))
  | .function name parameters body _ =>
      .keyword .function :: .identifier name.name :: .delimiter .parenthesis .opening
        :: (namesKinds parameters ++ .delimiter .parenthesis .closing
        :: Statement.kindsAll numeral (depth + 1) body)
  | .giveBack none _ => [.keyword .return_]
  | .giveBack (some value) _ => .keyword .return_ :: value.kinds numeral
  | .print value _ => .keyword .print :: value.kinds numeral

/-- The kinds of the tokens of a block, which starts with a line break. -/
def Statement.kindsAll (numeral : Float → Numeral) (depth : Nat) : List Statement → List Token.Kind
  | [] => []
  | s :: ss => lineKinds depth (s.kinds numeral depth) ++ Statement.kindsAll numeral depth ss

end

/-! ### What can be printed -/

/-- A number is finite and read back as it is; a text fits between quotes on a line. -/
def Literal.wellFormed (numeral : Float → Numeral) : Literal → Bool
  | number x => isFinite x && decide (readBack numeral x = x)
  | text content => content.toList.all fun c => c != '"' && c != '\n' && c != '\t'
  | bool _ => true

def Expr.isNumber : Expr → Bool
  | .literal (.number _) _ => true
  | _ => false

mutual

/-- The names of an expression are names, its literals can be printed, and no number is negated: a minus in
front of a number is a part of it. -/
def Expr.wellFormed (numeral : Float → Numeral) : Expr → Bool
  | .literal v _ => v.wellFormed numeral
  | .var name => isFreeName name.name
  | .unary .not e _ => e.wellFormed numeral
  | .unary .negate e _ => !e.isNumber && e.wellFormed numeral
  | .binary left _ right _ => left.wellFormed numeral && right.wellFormed numeral
  | .index target i _ => target.wellFormed numeral && i.wellFormed numeral
  | .call callee arguments _ => isFreeName callee.name && Expr.wellFormedAll numeral arguments

def Expr.wellFormedAll (numeral : Float → Numeral) : List Expr → Bool
  | [] => true
  | e :: es => e.wellFormed numeral && Expr.wellFormedAll numeral es

end

def Target.wellFormed (numeral : Float → Numeral) : Target → Bool
  | var name => isFreeName name.name
  | element name i => isFreeName name.name && i.wellFormed numeral

mutual

/-- The expressions and names of a statement can be printed, its blocks are not empty, and it gives back
something inside a function only. -/
def Statement.wellFormed (numeral : Float → Numeral) (inFunction : Bool) : Statement → Bool
  | .assign target value => target.wellFormed numeral && value.wellFormed numeral
  | .call callee arguments _ => isFreeName callee.name && Expr.wellFormedAll numeral arguments
  | .whileLoop condition body _ =>
      condition.wellFormed numeral && !body.isEmpty && Statement.wellFormedAll numeral inFunction body
  | .forLoop counter start second last body _ =>
      isFreeName counter.name && start.wellFormed numeral && second.wellFormed numeral
        && last.wellFormed numeral && !body.isEmpty && Statement.wellFormedAll numeral inFunction body
  | .branch condition body none _ =>
      condition.wellFormed numeral && !body.isEmpty && Statement.wellFormedAll numeral inFunction body
  | .branch condition body (some otherwise) _ =>
      condition.wellFormed numeral && !body.isEmpty && Statement.wellFormedAll numeral inFunction body
        && !otherwise.isEmpty && Statement.wellFormedAll numeral inFunction otherwise
  | .function name parameters body _ =>
      isFreeName name.name && parameters.all (isFreeName ·.name) && !body.isEmpty
        && Statement.wellFormedAll numeral true body
  | .giveBack none _ => inFunction
  | .giveBack (some value) _ => inFunction && value.wellFormed numeral
  | .print value _ => value.wellFormed numeral

def Statement.wellFormedAll (numeral : Float → Numeral) (inFunction : Bool) : List Statement → Bool
  | [] => true
  | s :: ss => s.wellFormed numeral inFunction && Statement.wellFormedAll numeral inFunction ss

end

/-- Whether a program can be printed. -/
def Program.wellFormed (numeral : Float → Numeral) (program : Program) : Bool :=
  Statement.wellFormedAll numeral false program

theorem Expr.wellFormed_of_mem {numeral : Float → Numeral} {es : List Expr}
    (h : Expr.wellFormedAll numeral es = true) : ∀ e ∈ es, e.wellFormed numeral = true := by
  induction es with
  | nil => simp
  | cons e es ih =>
      rw [Expr.wellFormedAll, Bool.and_eq_true] at h
      exact List.forall_mem_cons.2 ⟨h.1, ih h.2⟩

theorem Statement.wellFormed_of_mem {numeral : Float → Numeral} {inFunction : Bool} {ss : List Statement}
    (h : Statement.wellFormedAll numeral inFunction ss = true) :
    ∀ s ∈ ss, s.wellFormed numeral inFunction = true := by
  induction ss with
  | nil => simp
  | cons s ss ih =>
      rw [Statement.wellFormedAll, Bool.and_eq_true] at h
      exact List.forall_mem_cons.2 ⟨h.1, ih h.2⟩

end PolishPseudocode
