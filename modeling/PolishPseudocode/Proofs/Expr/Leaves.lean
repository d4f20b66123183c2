import PolishPseudocode.Proofs.Expr.Acceptance
import PolishPseudocode.Proofs.Expr.Tokens
import Mathlib.Logic.Function.Iterate

/-! The leaves and operators of an expression among its tokens. They stand there in the order of the tree, none is
lost and none is there twice. Only a numeral may differ from its token: it takes in the minus signs that belong to
it, and the place of the first of them. -/

namespace PolishPseudocode

def Token.isLeaf (t : Token) : Bool :=
  match t.kind with
  | .identifier _ | .number _ | .text _ | .bool _ => true
  | .indentation | .delimiter _ _ | .comma | .keyword _ | .operator _ | .ellipsis | .newLine => false

/-- Whether a token is neither a name, a constant nor an operator. -/
def Token.Kind.isSilent : Token.Kind → Bool
  | .identifier _ | .number _ | .text _ | .bool _ | .operator _ => false
  | .indentation | .delimiter _ _ | .comma | .keyword _ | .ellipsis | .newLine => true

def Token.isMinus (t : Token) : Bool :=
  t.kind == .operator (.binary .sub)

namespace Expr

mutual

/-- The leaves and operators of a tree, in order, as the tokens that they are. -/
def marks : Expr → List Token
  | literal value p => [⟨value.kind, p⟩]
  | var name => [name.token]
  | unary op operand p => ⟨.operator op.operator, p⟩ :: operand.marks
  | binary left op right p => left.marks ++ ⟨.operator (.binary op), p⟩ :: right.marks
  | index target i _ => target.marks ++ i.marks
  | call callee arguments _ => callee.token :: marksAll arguments

def marksAll : List Expr → List Token
  | [] => []
  | e :: es => e.marks ++ marksAll es

end

mutual

/-- A tree and all the trees in it. -/
def subs : Expr → List Expr
  | literal value p => [literal value p]
  | var name => [var name]
  | unary op operand p => unary op operand p :: operand.subs
  | binary left op right p => binary left op right p :: (left.subs ++ right.subs)
  | index target i p => index target i p :: (target.subs ++ i.subs)
  | call callee arguments p => call callee arguments p :: subsAll arguments

def subsAll : List Expr → List Expr
  | [] => []
  | e :: es => e.subs ++ subsAll es

end

theorem exists_of_mem_subsAll {e : Expr} {es : List Expr} (h : e ∈ subsAll es) : ∃ e' ∈ es, e ∈ e'.subs := by
  induction es with
  | nil => cases h
  | cons first es ih =>
      rw [subsAll] at h
      rcases List.mem_append.1 h with h | h
      · exact ⟨first, List.mem_cons_self, h⟩
      · obtain ⟨e', he', h⟩ := ih h
        exact ⟨e', List.mem_cons_of_mem first he', h⟩

end Expr

/-! ### Leaves and operators among tokens -/

/-- A numeral that took in the minus signs among some tokens: each of them turns its sign, and the first one is
its place. -/
def absorbed (signs : List Token) (x : Float) (p : Position) : Token :=
  let minuses := signs.filter Token.isMinus
  ⟨.number (Neg.neg^[minuses.length] x), (minuses.head?.map Token.position).getD p⟩

/-- One minus more in front. -/
theorem absorbed_minus {minus : Token} (h : minus.isMinus = true) {signs : List Token} {x y : Float}
    {p q : Position} (habsorbed : absorbed signs y q = ⟨.number x, p⟩) :
    absorbed (minus :: signs) y q = ⟨.number (-x), minus.position⟩ := by
  rw [absorbed] at habsorbed ⊢
  injection habsorbed with hkind _
  injection hkind with hx
  rw [List.filter_cons_of_pos h, List.length_cons, Function.iterate_succ_apply', hx]
  rfl

theorem absorbed_other {t : Token} (h : t.isMinus = false) (signs : List Token) (x : Float) (p : Position) :
    absorbed (t :: signs) x p = absorbed signs x p := by
  rw [absorbed, List.filter_cons_of_neg (by simp [h]), absorbed]

/-- Leaves and operators stand among tokens, in order and each once. Between them are silent tokens only, apart
from the minus signs that a numeral took in, which have only opening parentheses between them. -/
inductive Written : List Token → List Token → Prop where
  | nil : Written [] []
  | silent {t : Token} {tokens marks : List Token} (h : t.kind.isSilent = true) (hrest : Written tokens marks) :
      Written (t :: tokens) marks
  | mark {t : Token} {tokens marks : List Token} (h : t.kind.isSilent = false) (hrest : Written tokens marks) :
      Written (t :: tokens) (t :: marks)
  | number {signs tokens marks : List Token} (x : Float) (p : Position)
      (hsigns : ∀ t ∈ signs, t.isMinus = true ∨ t.kind = .delimiter .parenthesis .opening)
      (hrest : Written tokens marks) :
      Written (signs ++ ⟨.number x, p⟩ :: tokens) (absorbed signs x p :: marks)

namespace Written

variable {tokens tokens' marks marks' : List Token}

theorem append (h : Written tokens marks) (h' : Written tokens' marks') :
    Written (tokens ++ tokens') (marks ++ marks') := by
  induction h with
  | nil => exact h'
  | silent hsilent hrest ih => exact .silent hsilent ih
  | mark hmark hrest ih => exact .mark hmark ih
  | number x p hsigns hrest ih =>
      rw [List.append_assoc]
      exact .number x p hsigns ih

theorem single {t : Token} (h : t.kind.isSilent = false) : Written [t] [t] :=
  .mark h .nil

theorem silents (h : ∀ t ∈ tokens, t.kind.isSilent = true) : Written tokens [] := by
  induction tokens with
  | nil => exact .nil
  | cons t tokens ih =>
      obtain ⟨ht, htokens⟩ := List.forall_mem_cons.1 h
      exact .silent ht (ih htokens)

/-- The same tokens with one silent token behind them. -/
theorem snoc {t : Token} (h : Written tokens marks) (ht : t.kind.isSilent = true) :
    Written (tokens ++ [t]) marks := by
  have hall := h.append (silents (List.forall_mem_singleton.2 ht))
  rwa [List.append_nil] at hall

/-- What stands between the lists of tokens is not seen. -/
theorem listed {parts : List (Expr × List Token)} (h : Listed (parts.map Prod.snd) tokens)
    (hparts : ∀ part ∈ parts, Written part.2 part.1.marks) :
    Written tokens (Expr.marksAll (parts.map Prod.fst)) := by
  induction parts generalizing tokens with
  | nil =>
      cases h
      exact .nil
  | cons part parts ih =>
      obtain ⟨hpart, hparts⟩ := List.forall_mem_cons.1 hparts
      rw [List.map_cons, Expr.marksAll]
      cases parts with
      | nil =>
          cases h
          rw [List.map_nil, Expr.marksAll, List.append_nil]
          exact hpart
      | cons part' parts =>
          cases h with
          | cons comma h => exact hpart.append (.silent rfl (ih h hparts))

end Written

/-- What spells a numeral: the signs and parentheses in front of its token, and parentheses behind it. -/
theorem Expr.Spelled.number {x : Float} {p : Position} {tokens : List Token}
    (h : (Expr.literal (.number x) p).Spelled tokens) :
    ∃ signs y q closings, tokens = signs ++ ⟨.number y, q⟩ :: closings
      ∧ (∀ t ∈ signs, t.isMinus = true ∨ t.kind = .delimiter .parenthesis .opening)
      ∧ (∀ t ∈ closings, t.kind.isSilent = true) ∧ absorbed signs y q = ⟨.number x, p⟩ := by
  generalize he : Expr.literal (.number x) p = e at h
  induction h generalizing x p with
  | literal value q =>
      cases he
      exact ⟨[], x, q, [], rfl, List.forall_mem_nil _, List.forall_mem_nil _, rfl⟩
  | group q q' hinner ih =>
      obtain ⟨signs, y, r, closings, rfl, hsigns, hclosings, habsorbed⟩ := ih he
      refine ⟨⟨.delimiter .parenthesis .opening, q⟩ :: signs, y, r,
        closings ++ [⟨.delimiter .parenthesis .closing, q'⟩], by simp, ?_, ?_, ?_⟩
      · exact List.forall_mem_cons.2 ⟨.inr rfl, hsigns⟩
      · exact List.forall_mem_append.2 ⟨hclosings, List.forall_mem_singleton.2 rfl⟩
      · rw [absorbed_other rfl]
        exact habsorbed
  | @minus e tokens q hinner ih =>
      -- Only another numeral becomes one.
      unfold Reduction.negate at he
      split at he
      · rename_i y r
        cases he
        obtain ⟨signs, z, s, closings, rfl, hsigns, hclosings, habsorbed⟩ := ih rfl
        refine ⟨⟨.operator (.binary .sub), q⟩ :: signs, z, s, closings, rfl, ?_, hclosings, ?_⟩
        · exact List.forall_mem_cons.2 ⟨.inl rfl, hsigns⟩
        · exact absorbed_minus rfl habsorbed
      · cases he
  | _ => cases he

/-- The tokens that spell a tree are those of its leaves and operators. -/
theorem Expr.Spelled.written {e : Expr} {tokens : List Token} (h : e.Spelled tokens) : Written tokens e.marks := by
  induction h with
  | literal value p => cases value <;> exact .single rfl
  | var name => exact .single rfl
  | group p q hinner ih => exact .silent rfl (ih.snoc rfl)
  | not p hinner ih => exact .mark rfl ih
  | @minus e tokens p hinner ih =>
      unfold Reduction.negate
      split
      · obtain ⟨signs, y, r, closings, rfl, hsigns, hclosings, habsorbed⟩ := hinner.number
        have hsigns' : ∀ t ∈ ⟨.operator (.binary .sub), p⟩ :: signs,
            t.isMinus = true ∨ t.kind = .delimiter .parenthesis .opening :=
          List.forall_mem_cons.2 ⟨.inl rfl, hsigns⟩
        have hnumber := Written.number y r hsigns' (.silents hclosings)
        rw [absorbed_minus rfl habsorbed] at hnumber
        exact hnumber
      · exact .mark rfl ih
  | binary op p hleft hright ihleft ihright => exact ihleft.append (.mark rfl ihright)
  | index p q htarget hi ihtarget ihi => exact ihtarget.append (.silent rfl (ihi.snoc rfl))
  | call callee p q parts harguments hparts hinner ih =>
      subst harguments
      exact .mark rfl (.silent rfl ((Written.listed hinner ih).snoc rfl))

/-! ### The tokens of operators, brackets and calls -/

/-- The token of a tree is where the tree says: an operator in front of the tokens of its operand or between those
of its two, an opening bracket between the tokens of the operand and those of the index, and the opening
parenthesis of a call right behind its name. -/
def Expr.Located (tokens : List Token) : Expr → Prop
  | literal _ _ | var _ => True
  | unary op operand p => ∃ inner, ⟨.operator op.operator, p⟩ :: inner <:+: tokens ∧ Written inner operand.marks
  | binary left op right p => ∃ l r, l ++ ⟨.operator (.binary op), p⟩ :: r <:+: tokens
      ∧ Written l left.marks ∧ Written r right.marks
  | index target i p => ∃ t inner q,
      t ++ ⟨.delimiter .bracket .opening, p⟩ :: (inner ++ [⟨.delimiter .bracket .closing, q⟩]) <:+: tokens
      ∧ Written t target.marks ∧ Written inner i.marks
  | call callee arguments p => ∃ inner q,
      callee.token :: ⟨.delimiter .parenthesis .opening, p⟩
        :: (inner ++ [⟨.delimiter .parenthesis .closing, q⟩]) <:+: tokens
      ∧ Written inner (marksAll arguments)

theorem Expr.Located.mono {e : Expr} {segment tokens : List Token} (h : e.Located segment)
    (hin : segment <:+: tokens) : e.Located tokens := by
  cases e with
  | literal value p => trivial
  | var name => trivial
  | unary op operand p =>
      obtain ⟨inner, hinner, hoperand⟩ := h
      exact ⟨inner, hinner.trans hin, hoperand⟩
  | binary left op right p =>
      obtain ⟨l, r, hlr, hleft, hright⟩ := h
      exact ⟨l, r, hlr.trans hin, hleft, hright⟩
  | index target i p =>
      obtain ⟨t, inner, q, hinner, htarget, hi⟩ := h
      exact ⟨t, inner, q, hinner.trans hin, htarget, hi⟩
  | call callee arguments p =>
      obtain ⟨inner, q, hinner, harguments⟩ := h
      exact ⟨inner, q, hinner.trans hin, harguments⟩

theorem isInfix_between (t : Token) (segment : List Token) (t' : Token) : segment <:+: t :: (segment ++ [t']) :=
  ⟨[t], [t'], by simp⟩

theorem Listed.isInfix {segments : List (List Token)} {tokens : List Token} (h : Listed segments tokens) :
    ∀ segment ∈ segments, segment <:+: tokens := by
  induction h with
  | nil => exact List.forall_mem_nil _
  | single tokens => exact List.forall_mem_singleton.2 (List.infix_refl tokens)
  | @cons first next rest others comma h ih =>
      refine List.forall_mem_cons.2 ⟨(List.prefix_append first _).isInfix, fun segment hsegment => ?_⟩
      have hrest : rest <:+: first ++ ⟨.comma, comma⟩ :: rest :=
        ((List.suffix_cons _ rest).trans (List.suffix_append first _)).isInfix
      exact (ih segment hsegment).trans hrest

/-- Every tree in a tree has its token there. -/
theorem Expr.Spelled.located {e : Expr} {tokens : List Token} (h : e.Spelled tokens) :
    ∀ e' ∈ e.subs, e'.Located tokens := by
  induction h with
  | literal value p => exact List.forall_mem_singleton.2 trivial
  | var name => exact List.forall_mem_singleton.2 trivial
  | @group e tokens p q hinner ih =>
      intro e' he'
      exact (ih e' he').mono (isInfix_between _ tokens _)
  | @not e tokens p hinner ih =>
      refine List.forall_mem_cons.2 ⟨⟨tokens, List.infix_refl _, hinner.written⟩, fun e' he' => ?_⟩
      exact (ih e' he').mono (List.suffix_cons _ tokens).isInfix
  | @minus e tokens p hinner ih =>
      unfold Reduction.negate
      split
      · exact List.forall_mem_singleton.2 trivial
      · refine List.forall_mem_cons.2 ⟨⟨tokens, List.infix_refl _, hinner.written⟩, fun e' he' => ?_⟩
        exact (ih e' he').mono (List.suffix_cons _ tokens).isInfix
  | @binary left right tokens tokens' op p hleft hright ihleft ihright =>
      refine List.forall_mem_cons.2 ⟨⟨tokens, tokens', List.infix_refl _, hleft.written, hright.written⟩, ?_⟩
      refine List.forall_mem_append.2 ⟨fun e' he' => ?_, fun e' he' => ?_⟩
      · exact (ihleft e' he').mono (List.prefix_append tokens _).isInfix
      · have hin : tokens' <:+: tokens ++ ⟨.operator (.binary op), p⟩ :: tokens' :=
          ((List.suffix_cons _ tokens').trans (List.suffix_append tokens _)).isInfix
        exact (ihright e' he').mono hin
  | @index target i tokens inner p q htarget hi ihtarget ihi =>
      refine List.forall_mem_cons.2 ⟨⟨tokens, inner, q, List.infix_refl _, htarget.written, hi.written⟩, ?_⟩
      refine List.forall_mem_append.2 ⟨fun e' he' => ?_, fun e' he' => ?_⟩
      · exact (ihtarget e' he').mono (List.prefix_append tokens _).isInfix
      · exact (ihi e' he').mono ((isInfix_between _ inner _).trans (List.suffix_append tokens _).isInfix)
  | @call arguments inner callee p q parts harguments hparts hinner ih =>
      have hall : Written inner (marksAll arguments) :=
        harguments ▸ Written.listed hinner fun part hpart => (hparts part hpart).written
      refine List.forall_mem_cons.2 ⟨⟨inner, q, List.infix_refl _, hall⟩, fun e' he' => ?_⟩
      obtain ⟨argument, hargument, he'⟩ := exists_of_mem_subsAll he'
      rw [← harguments] at hargument
      obtain ⟨part, hpart, rfl⟩ := List.mem_map.1 hargument
      have hsegment := hinner.isInfix part.2 (List.mem_map_of_mem hpart)
      refine (ih part hpart e' he').mono (hsegment.trans (.trans ?_ (List.suffix_cons _ _).isInfix))
      exact isInfix_between _ inner _

end PolishPseudocode
