import PolishPseudocode.Proofs.Outcome
import PolishPseudocode.Program.Reader

/-! Moving tokens and trees to other places. A relocation is any function on places, applied to every
place that a token or a tree keeps. Forgetting the places is the relocation to one and the same place,
so two trees are equal up to their places if that relocation makes them equal. -/

namespace PolishPseudocode

def Token.relocate (f : Position → Position) (t : Token) : Token :=
  { t with position := f t.position }

def Name.relocate (f : Position → Position) (n : Name) : Name :=
  { n with position := f n.position }

namespace Expr

mutual

/-- The expression with every place moved. -/
def relocate (f : Position → Position) : Expr → Expr
  | literal value p => literal value (f p)
  | var name => var (name.relocate f)
  | unary op operand p => unary op (operand.relocate f) (f p)
  | binary left op right p => binary (left.relocate f) op (right.relocate f) (f p)
  | index target i p => index (target.relocate f) (i.relocate f) (f p)
  | call callee arguments p => call (callee.relocate f) (relocateAll f arguments) (f p)

def relocateAll (f : Position → Position) : List Expr → List Expr
  | [] => []
  | e :: es => e.relocate f :: relocateAll f es

end

end Expr

def Target.relocate (f : Position → Position) : Target → Target
  | var name => var (name.relocate f)
  | element name i => element (name.relocate f) (i.relocate f)

namespace Statement

mutual

def relocate (f : Position → Position) : Statement → Statement
  | assign target value => assign (target.relocate f) (value.relocate f)
  | call callee arguments p => call (callee.relocate f) (Expr.relocateAll f arguments) (f p)
  | whileLoop condition body p => whileLoop (condition.relocate f) (relocateAll f body) (f p)
  | forLoop counter start second last body p =>
      forLoop (counter.relocate f) (start.relocate f) (second.relocate f) (last.relocate f)
        (relocateAll f body) (f p)
  | branch condition body none p => branch (condition.relocate f) (relocateAll f body) none (f p)
  | branch condition body (some otherwise) p =>
      branch (condition.relocate f) (relocateAll f body) (some (relocateAll f otherwise)) (f p)
  | function name parameters body p =>
      function (name.relocate f) (parameters.map (Name.relocate f)) (relocateAll f body) (f p)
  | giveBack value p => giveBack (value.map (Expr.relocate f)) (f p)
  | print value p => print (value.relocate f) (f p)

def relocateAll (f : Position → Position) : List Statement → List Statement
  | [] => []
  | s :: ss => s.relocate f :: relocateAll f ss

end

end Statement

/-! ### Nothing moved -/

mutual

theorem Expr.relocate_id : (e : Expr) → e.relocate id = e
  | .literal _ _ => rfl
  | .var _ => rfl
  | .unary op operand p => by
      rw [Expr.relocate, operand.relocate_id]
      rfl
  | .binary left op right p => by
      rw [Expr.relocate, left.relocate_id, right.relocate_id]
      rfl
  | .index target i p => by
      rw [Expr.relocate, target.relocate_id, i.relocate_id]
      rfl
  | .call callee arguments p => by
      rw [Expr.relocate, Expr.relocateAll_id arguments]
      rfl

theorem Expr.relocateAll_id : (es : List Expr) → Expr.relocateAll id es = es
  | [] => rfl
  | e :: es => by rw [Expr.relocateAll, e.relocate_id, Expr.relocateAll_id es]

end

theorem Target.relocate_id (target : Target) : target.relocate id = target := by
  cases target with
  | var name => rfl
  | element name i => exact congrArg (Target.element name) i.relocate_id

mutual

theorem Statement.relocate_id : (s : Statement) → s.relocate id = s
  | .assign target value => by rw [Statement.relocate, target.relocate_id, value.relocate_id]
  | .call callee arguments p => by
      rw [Statement.relocate, Expr.relocateAll_id arguments]
      rfl
  | .whileLoop condition body p => by
      rw [Statement.relocate, condition.relocate_id, Statement.relocateAll_id body]
      rfl
  | .forLoop counter start second last body p => by
      rw [Statement.relocate, start.relocate_id, second.relocate_id, last.relocate_id,
        Statement.relocateAll_id body]
      rfl
  | .branch condition body none p => by
      rw [Statement.relocate, condition.relocate_id, Statement.relocateAll_id body]
      rfl
  | .branch condition body (some otherwise) p => by
      rw [Statement.relocate, condition.relocate_id, Statement.relocateAll_id body,
        Statement.relocateAll_id otherwise]
      rfl
  | .function name parameters body p => by
      have hparameters : parameters.map (Name.relocate id) = parameters := List.map_id parameters
      rw [Statement.relocate, hparameters, Statement.relocateAll_id body]
      rfl
  | .giveBack none p => rfl
  | .giveBack (some value) p => by
      rw [Statement.relocate, Option.map_some, value.relocate_id]
      rfl
  | .print value p => by
      rw [Statement.relocate, value.relocate_id]
      rfl

theorem Statement.relocateAll_id : (ss : List Statement) → Statement.relocateAll id ss = ss
  | [] => rfl
  | s :: ss => by rw [Statement.relocateAll, s.relocate_id, Statement.relocateAll_id ss]

end

/-- The relocation that forgets every place. -/
def nowhere : Position → Position :=
  fun _ => ⟨0, 0⟩

def Program.unplaced (program : Program) : Program :=
  Statement.relocateAll nowhere program

/-- The second list of tokens is the first one moved; the cursors behind the tokens do not count. -/
def Moved (f : Position → Position) (tokens tokens' : List Lexed) : Prop :=
  tokens'.map Lexed.token = tokens.map fun t => t.token.relocate f

namespace Moved

variable {f : Position → Position} {tokens tokens' : List Lexed}

theorem nil : Moved f [] [] :=
  rfl

theorem eq_nil (h : Moved f [] tokens') : tokens' = [] := by
  simpa [Moved] using h

theorem exists_of_cons {t : Lexed} (h : Moved f (t :: tokens) tokens') :
    ∃ t' rest', tokens' = t' :: rest' ∧ t'.token = t.token.relocate f ∧ Moved f tokens rest' := by
  cases tokens' with
  | nil => simp [Moved] at h
  | cons t' rest' =>
      simp only [Moved, List.map_cons, List.cons.injEq] at h
      exact ⟨t', rest', rfl, h.1, h.2⟩

theorem cons {t t' : Lexed} (ht : t'.token = t.token.relocate f) (h : Moved f tokens tokens') :
    Moved f (t :: tokens) (t' :: tokens') := by
  simp only [Moved, List.map_cons, List.cons.injEq]
  exact ⟨ht, h⟩

theorem length_eq (h : Moved f tokens tokens') : tokens'.length = tokens.length := by
  simpa using congrArg List.length h

end Moved

/-- The moved token is of the same kind. -/
theorem kind_eq_of_relocate {f : Position → Position} {t t' : Token} (h : t' = t.relocate f) :
    t'.kind = t.kind := by
  rw [h]
  rfl

end PolishPseudocode
