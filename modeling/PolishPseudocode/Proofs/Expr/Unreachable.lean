import PolishPseudocode.Proofs.Expr.Balance
import PolishPseudocode.Proofs.Expr.InPlace
import PolishPseudocode.Proofs.Expr.Tokens
import PolishPseudocode.Proofs.Token.Rounds

/-! Branches of a reader that are there for safety alone. Whatever the tokens are, a reader finds what it has just
looked at, and a reduction finds the operands that its passes leave. -/

namespace PolishPseudocode

namespace Reading

variable {r : Reading} {expected : Expected} {tokens : List Lexed}

/-- What is taken is of the class that was asked for. -/
theorem class_of_consume {kind : Token.Class} {p : Parsed Token tokens.length}
    (h : r.consume kind expected tokens = .ok p) : p.value.kind.class = kind := by
  obtain ⟨next, -, htoken, hclass⟩ := (consume_takes kind expected).of_eq_ok h
  rw [← htoken]
  exact hclass

theorem keyword_of_consume {p : Parsed Token tokens.length} (h : r.consume .keyword expected tokens = .ok p) :
    ∃ word, p.value.kind = .keyword word := by
  have hclass := class_of_consume h
  cases hkind : p.value.kind with
  | keyword word => exact ⟨word, rfl⟩
  | _ =>
      rw [hkind] at hclass
      cases hclass

theorem identifier_of_consume {p : Parsed Token tokens.length} (h : r.consume .identifier expected tokens = .ok p) :
    ∃ name, p.value.kind = .identifier name := by
  have hclass := class_of_consume h
  cases hkind : p.value.kind with
  | identifier name => exact ⟨name, rfl⟩
  | _ =>
      rw [hkind] at hclass
      cases hclass

end Reading

/-- No level is left open once gathering has found as many closing parentheses as opening ones, or more; the terms
that a level is reduced to are some, and operands only; passes in place find every place and operand that they ask
for; inside a text literal the line has been left or has a character more; and what is taken as a keyword or as a name
is one. -/
theorem unreachable_branches :
    (∀ (r : Reading) (inCall : Bool) (next : Lexed) (tokens : List Lexed)
        (all : Parsed Reading.Gathered (tokens.length + 1)), r.gather inCall ⟨[], 0⟩ next tokens = .ok all →
      ¬ 0 < all.value.depth →
        ∀ place p, Expr.ofItems all.value.items.reverse place ≠ .error ⟨.unclosedParenthesis none, p⟩)
    ∧ (∀ (nodes : List Node) (place : Position), nodes ≠ [] →
      Reduction.level nodes place = Reduction.reduced nodes >>= Reduction.single
      ∧ ∀ terms, Reduction.reduced nodes = .ok terms → terms ≠ [] ∧ ∀ term ∈ terms, term.isOperator = false)
    ∧ (∀ nodes : List Node, Reduction.InPlace.reduced nodes
      = (Reduction.reduced nodes).mapError Reduction.InPlace.Halt.refused)
    ∧ (∀ (source : Source) (c : Cursor),
      (∀ n, c.remaining source < n → Cursor.rounds source n .lexeme c = some (c.next source))
      ∧ ∀ start content c', Relation.ReflTransGen (Cursor.Leads source) (.lexeme, c) (.text start content, c') →
        c'.crossed = true ∨ c'.rest source ≠ [])
    ∧ (∀ (r : Reading) (expected : Expected) (tokens : List Lexed) (p : Parsed Token tokens.length),
      (r.consume .keyword expected tokens = .ok p → ∃ word, p.value.kind = .keyword word)
      ∧ (r.consume .identifier expected tokens = .ok p → ∃ name, p.value.kind = .identifier name)) := by
  refine ⟨?unclosed, ?operands, Reduction.InPlace.reduced_eq, ?text, ?kinds⟩
  case unclosed =>
    intro r inCall next tokens all hall hdepth
    exact Reading.gathered_ne_unclosed hall hdepth
  case operands =>
    intro nodes place hne
    exact ⟨Reduction.level_eq_reduced place hne, fun terms hok => Reduction.operands_of_reduced hne hok⟩
  case text =>
    intro source c
    exact ⟨Cursor.rounds_eq_next, fun start content c' h => Cursor.text_goes_on h⟩
  case kinds =>
    intro r expected tokens p
    exact ⟨Reading.keyword_of_consume, Reading.identifier_of_consume⟩

/-- A closing parenthesis before an opening one, a sum, a text literal that is not closed, a keyword and a name. -/
theorem unreachable_branches_closing_first :
    (∃ all, Reading.gather ⟨⟨[[')', '(']]⟩, .finished .start⟩ false ⟨[], 0⟩
        ⟨⟨.delimiter .parenthesis .closing, ⟨0, 0⟩⟩, .start⟩ [⟨⟨.delimiter .parenthesis .opening, ⟨0, 1⟩⟩, .start⟩]
          = .ok all
      ∧ Expr.ofItems all.value.items.reverse ⟨0, 0⟩ ≠ .error ⟨.unclosedParenthesis none, ⟨0, 1⟩⟩)
    ∧ (∃ terms, Reduction.reduced [.operand (.var ⟨"x", ⟨0, 0⟩⟩), .operator (.binary .add) ⟨0, 1⟩,
        .operand (.var ⟨"y", ⟨0, 2⟩⟩)] = .ok terms ∧ terms ≠ [] ∧ ∀ term ∈ terms, term.isOperator = false)
    ∧ Cursor.rounds ⟨[['"', 'a']]⟩ 4 .lexeme .start = some (Cursor.next ⟨[['"', 'a']]⟩ .start)
    ∧ (Cursor.crossed ⟨1, 0, true, false, false⟩ = true ∨ Cursor.rest ⟨[['"', 'a']]⟩ ⟨1, 0, true, false, false⟩ ≠ [])
    ∧ (∃ word, Token.Kind.keyword .if_ = .keyword word) ∧ ∃ name, Token.Kind.identifier "x" = .identifier name := by
  obtain ⟨hunclosed, hoperands, -, htext, hkinds⟩ := unreachable_branches
  have hgather : Reading.gather ⟨⟨[[')', '(']]⟩, .finished .start⟩ false ⟨[], 0⟩
      ⟨⟨.delimiter .parenthesis .closing, ⟨0, 0⟩⟩, .start⟩ [⟨⟨.delimiter .parenthesis .opening, ⟨0, 1⟩⟩, .start⟩]
        = .ok ⟨⟨[.opening ⟨0, 1⟩, .closing ⟨0, 0⟩], 0⟩, [], by decide⟩ := by
    cbv
  have hquote : Cursor.Leads ⟨[['"', 'a']]⟩ (.lexeme, .start) (.text ⟨0, 0⟩ [], ⟨0, 1, false, false, false⟩) := rfl
  have hletter : Cursor.Leads ⟨[['"', 'a']]⟩ (.text ⟨0, 0⟩ [], ⟨0, 1, false, false, false⟩)
      (.text ⟨0, 0⟩ ['a'], ⟨1, 0, true, false, false⟩) := rfl
  obtain ⟨hrounds, hopen⟩ := htext ⟨[['"', 'a']]⟩ .start
  have hterms := (hoperands [.operand (.var ⟨"x", ⟨0, 0⟩⟩), .operator (.binary .add) ⟨0, 1⟩,
    .operand (.var ⟨"y", ⟨0, 2⟩⟩)] ⟨0, 0⟩ (by simp)).2
  have hword := (hkinds ⟨⟨[]⟩, .finished .start⟩ (.token .keyword) [⟨⟨.keyword .if_, ⟨0, 0⟩⟩, .start⟩]
    ⟨⟨.keyword .if_, ⟨0, 0⟩⟩, [], by decide⟩).1
  have hname := (hkinds ⟨⟨[]⟩, .finished .start⟩ (.token .identifier) [⟨⟨.identifier "x", ⟨0, 0⟩⟩, .start⟩]
    ⟨⟨.identifier "x", ⟨0, 0⟩⟩, [], by decide⟩).2
  exact ⟨⟨_, hgather, hunclosed _ _ _ _ _ hgather (by decide) _ _⟩, ⟨_, rfl, hterms _ rfl⟩, hrounds 4 (by decide),
    hopen _ _ _ (.tail (.single hquote) hletter), hword rfl, hname rfl⟩

end PolishPseudocode
