import PolishPseudocode.Proofs.Expr.Derivation
import PolishPseudocode.Proofs.Expr.Remainder

/-! The tokens of an expression. A tree is spelled by tokens if they are those of its parts, in order, with the
token of each operator, bracket and parenthesis where the tree says it is. Every reader of an expression takes
tokens that spell what it reads. -/

namespace PolishPseudocode

def Literal.kind : Literal → Token.Kind
  | number x => .number x
  | text s => .text s
  | bool b => .bool b

def Name.token (n : Name) : Token :=
  ⟨.identifier n.name, n.position⟩

/-- Lists of tokens one behind the other, with a comma between any two. -/
inductive Listed : List (List Token) → List Token → Prop where
  | nil : Listed [] []
  | single (tokens : List Token) : Listed [tokens] tokens
  | cons {first next rest : List Token} {others : List (List Token)} (comma : Position)
      (h : Listed (next :: others) rest) : Listed (first :: next :: others) (first ++ ⟨.comma, comma⟩ :: rest)

/-- Tokens spell a tree. The arguments of a call are given each with its own tokens. -/
inductive Expr.Spelled : Expr → List Token → Prop where
  | literal (value : Literal) (p : Position) : Spelled (.literal value p) [⟨value.kind, p⟩]
  | var (name : Name) : Spelled (.var name) [name.token]
  | group {e : Expr} {tokens : List Token} (p q : Position) (h : Spelled e tokens) :
      Spelled e (⟨.delimiter .parenthesis .opening, p⟩ :: (tokens ++ [⟨.delimiter .parenthesis .closing, q⟩]))
  | not {e : Expr} {tokens : List Token} (p : Position) (h : Spelled e tokens) :
      Spelled (.unary .not e p) (⟨.operator .not, p⟩ :: tokens)
  | minus {e : Expr} {tokens : List Token} (p : Position) (h : Spelled e tokens) :
      Spelled (Reduction.negate e p) (⟨.operator (.binary .sub), p⟩ :: tokens)
  | binary {left right : Expr} {tokens tokens' : List Token} (op : BinaryOp) (p : Position)
      (hleft : Spelled left tokens) (hright : Spelled right tokens') :
      Spelled (.binary left op right p) (tokens ++ ⟨.operator (.binary op), p⟩ :: tokens')
  | index {target i : Expr} {tokens inner : List Token} (p q : Position) (htarget : Spelled target tokens)
      (hi : Spelled i inner) :
      Spelled (.index target i p)
        (tokens ++ ⟨.delimiter .bracket .opening, p⟩ :: (inner ++ [⟨.delimiter .bracket .closing, q⟩]))
  | call {arguments : List Expr} {inner : List Token} (callee : Name) (p q : Position)
      (parts : List (Expr × List Token)) (harguments : parts.map Prod.fst = arguments)
      (hparts : ∀ part ∈ parts, Spelled part.1 part.2) (hinner : Listed (parts.map Prod.snd) inner) :
      Spelled (.call callee arguments p)
        (callee.token :: ⟨.delimiter .parenthesis .opening, p⟩
          :: (inner ++ [⟨.delimiter .parenthesis .closing, q⟩]))

def Expr.AllSpelled (es : List Expr) (tokens : List Token) : Prop :=
  ∃ parts : List (Expr × List Token), parts.map Prod.fst = es ∧ (∀ part ∈ parts, part.1.Spelled part.2)
    ∧ Listed (parts.map Prod.snd) tokens

namespace Expr.AllSpelled

variable {e : Expr} {es : List Expr} {tokens tokens' : List Token}

theorem nil : AllSpelled [] [] :=
  ⟨[], rfl, List.forall_mem_nil _, .nil⟩

theorem single (h : e.Spelled tokens) : AllSpelled [e] tokens :=
  ⟨[(e, tokens)], rfl, List.forall_mem_singleton.2 h, .single tokens⟩

theorem cons (h : e.Spelled tokens) (comma : Position) (hes : es ≠ []) (hrest : AllSpelled es tokens') :
    AllSpelled (e :: es) (tokens ++ ⟨.comma, comma⟩ :: tokens') := by
  obtain ⟨parts, rfl, hparts, hlisted⟩ := hrest
  refine ⟨(e, tokens) :: parts, rfl, List.forall_mem_cons.2 ⟨h, hparts⟩, ?_⟩
  cases parts with
  | nil => exact absurd rfl hes
  | cons part parts => exact .cons comma hlisted

theorem call (h : AllSpelled es tokens) (callee : Name) (p q : Position) :
    (Expr.call callee es p).Spelled (callee.token :: ⟨.delimiter .parenthesis .opening, p⟩
      :: (tokens ++ [⟨.delimiter .parenthesis .closing, q⟩])) := by
  obtain ⟨parts, hfst, hparts, hlisted⟩ := h
  exact .call callee p q parts hfst hparts hlisted

end Expr.AllSpelled

/-! ### Items and phrases -/

/-- Tokens spell an item. A variable among the items is not in parentheses. -/
def Item.Spelled (tokens : List Token) : Item → Prop
  | operand e => e.Spelled tokens ∧ ∀ name, e = .var name → tokens = [name.token]
  | operator op p => tokens = [⟨.operator op, p⟩]
  | opening p => tokens = [⟨.delimiter .parenthesis .opening, p⟩]
  | closing p => tokens = [⟨.delimiter .parenthesis .closing, p⟩]
  | index i p => ∃ inner q, i.Spelled inner
      ∧ tokens = ⟨.delimiter .bracket .opening, p⟩ :: (inner ++ [⟨.delimiter .bracket .closing, q⟩])

theorem spelled_indexExpr {target : Expr} {indices : List (Expr × Position)} {tokens tokens' : List Token}
    (htarget : target.Spelled tokens) (h : Spells Item.Spelled tokens' (indexItems indices)) :
    (indexExpr target indices).Spelled (tokens ++ tokens') := by
  induction indices generalizing target tokens tokens' with
  | nil =>
      rw [h.eq_nil, List.append_nil]
      exact htarget
  | cons first indices ih =>
      obtain ⟨piece, rest, rfl, ⟨inner, q, hinner, rfl⟩, hrest⟩ := h.exists_of_cons
      rw [← List.append_assoc]
      exact ih (.index first.2 q htarget hinner) hrest

mutual

/-- What spells the items of a phrase spells its tree. -/
theorem Phrase.spelled : {t : Tier} → (phrase : Phrase t) → {tokens : List Token} →
    Spells Item.Spelled tokens phrase.items → phrase.expr.Spelled tokens
  | _, .chain first rest, _, h => by
      obtain ⟨front, back, rfl, hfront, hback⟩ := h.exists_of_append
      exact rest.spelled (first.spelled hfront) hback
  | _, .not p operand, _, h => by
      obtain ⟨piece, rest, rfl, rfl, hrest⟩ := h.exists_of_cons
      exact .not p (operand.spelled hrest)
  | _, .compared inner, _, h => inner.spelled h
  | _, .minus p operand, _, h => by
      obtain ⟨piece, rest, rfl, rfl, hrest⟩ := h.exists_of_cons
      rw [Phrase.expr_minus]
      exact .minus p (operand.spelled hrest)
  | _, .unsigned inner, _, h => inner.spelled h
  | _, .indexed target indices, _, h => by
      obtain ⟨front, back, rfl, hfront, hback⟩ := h.exists_of_append
      exact spelled_indexExpr (target.spelled hfront) hback
  | _, .operand e, _, h => h.of_singleton.1
  | _, .group p inner q, _, h => by
      obtain ⟨piece, rest, rfl, rfl, hrest⟩ := h.exists_of_cons
      obtain ⟨front, back, rfl, hfront, hback⟩ := hrest.exists_of_append
      have hclosing : back = _ := hback.of_singleton
      rw [hclosing]
      exact .group p q (inner.spelled hfront)

theorem Chain.spelled : {t : BinaryTier} → (chain : Chain t) → {left : Expr} → {tokens tokens' : List Token} →
    left.Spelled tokens → Spells Item.Spelled tokens' chain.items →
    (chain.expr left).Spelled (tokens ++ tokens')
  | _, .nil, _, _, _, hleft, h => by
      rw [h.eq_nil, List.append_nil]
      exact hleft
  | _, .cons op hop p operand rest, _, _, _, hleft, h => by
      obtain ⟨piece, others, rfl, rfl, hothers⟩ := h.exists_of_cons
      obtain ⟨front, back, rfl, hfront, hback⟩ := hothers.exists_of_append
      have hjoined := Expr.Spelled.binary op p hleft (operand.spelled hfront)
      have hall := rest.spelled hjoined hback
      rw [Chain.expr]
      simpa using hall

end

theorem Expr.spelled_of_ofItems {items : List Item} {place : Position} {e : Expr} {tokens : List Token}
    (h : Expr.ofItems items place = .ok e) (hitems : Spells Item.Spelled tokens items) : e.Spelled tokens := by
  obtain ⟨phrase, rfl, rfl⟩ := derives_of_levels .nil .nil h
  exact phrase.spelled hitems

/-! ### Readers -/

/-- What was taken from the front of the tokens spells what was read. -/
def Parsed.Takes {α : Type} {limit : Nat} (spelled : α → List Token → Prop) (tokens : List Lexed)
    (p : Parsed α limit) : Prop :=
  ∃ taken, tokens = taken ++ p.rest ∧ spelled p.value (taken.map Lexed.token)

namespace Reading

variable {r : Reading}

theorem delimiter_takes (pair : Delimiter) (side : Side) (tokens : List Lexed) :
    Ensures (fun p => ∃ next, tokens = next :: p.rest ∧ next.token = ⟨.delimiter pair side, p.value⟩)
      (r.delimiter pair side tokens) := by
  refine (consume_takes _ _).bind ?_
  rintro ⟨⟨kind, p⟩, rest, hlt⟩ ⟨next, htokens, htoken, hclass⟩
  rw [htoken] at hclass
  cases kind with
  | delimiter pair' found =>
      cases hclass
      dsimp only
      split
      · rename_i hside
        exact ⟨next, htokens, hside ▸ htoken⟩
      · trivial
  | _ => trivial

theorem keyword_takes (word : Keyword) (tokens : List Lexed) :
    Ensures (fun p => ∃ next, tokens = next :: p.rest ∧ next.token = ⟨.keyword word, p.value⟩)
      (r.keyword word tokens) := by
  refine (consume_takes _ _).bind ?_
  rintro ⟨⟨kind, p⟩, rest, hlt⟩ ⟨next, htokens, htoken, -⟩
  cases kind with
  | keyword found =>
      dsimp only
      split
      · rename_i hword
        exact ⟨next, htokens, hword ▸ htoken⟩
      · trivial
  | _ => trivial

theorem name_takes (tokens : List Lexed) :
    Ensures (fun p => ∃ next, tokens = next :: p.rest ∧ next.token = p.value.token) (r.name tokens) := by
  refine (consume_takes _ _).bind ?_
  rintro ⟨⟨kind, p⟩, rest, hlt⟩ ⟨next, htokens, htoken, -⟩
  cases kind with
  | identifier name => exact ⟨next, htokens, htoken⟩
  | _ => trivial

theorem kind_of_class_comma {kind : Token.Kind} (h : kind.class = .comma) : kind = .comma := by
  cases kind with
  | comma => rfl
  | _ => cases h

/-- Tokens spell an index, up to the closing bracket. -/
def IndexSpelled (i : Expr) (tokens : List Token) : Prop :=
  ∃ inner q, i.Spelled inner ∧ tokens = inner ++ [⟨.delimiter .bracket .closing, q⟩]

/-- Tokens spell the arguments of a call, up to the closing parenthesis. -/
def ArgumentsSpelled (es : List Expr) (tokens : List Token) : Prop :=
  ∃ inner q, Expr.AllSpelled es inner ∧ tokens = inner ++ [⟨.delimiter .parenthesis .closing, q⟩]

/-- Items were gathered from the tokens that were taken. -/
def Collects {limit : Nat} (sofar : Gathered) (tokens : List Lexed) (p : Parsed Gathered limit) : Prop :=
  ∃ taken, tokens = taken ++ p.rest ∧ ∀ before, Spells Item.Spelled before sofar.items.reverse →
    Spells Item.Spelled (before ++ taken.map Lexed.token) p.value.items.reverse

/-- One token that spells one item. -/
theorem collects_single {limit : Nat} {sofar : Gathered} {next : Lexed} {tokens : List Lexed} (item : Item)
    (h : item.Spelled [next.token]) (depth : Int) (hlt : tokens.length < limit) :
    Collects sofar (next :: tokens) (⟨⟨item :: sofar.items, depth⟩, tokens, hlt⟩ : Parsed Gathered limit) := by
  refine ⟨[next], rfl, fun before hbefore => ?_⟩
  rw [List.reverse_cons]
  exact hbefore.append (.single h)

mutual

theorem item_collects (r : Reading) (inCall : Bool) (sofar : Gathered) (next : Lexed) (tokens : List Lexed) :
    Ensures (Collects sofar (next :: tokens)) (r.item inCall sofar next tokens) := by
  obtain ⟨⟨kind, place⟩, cursor⟩ := next
  rw [item]
  dsimp only
  split
  · exact .skip fun _ => collects_single (.operand _) ⟨.literal (.number _) place, by simp⟩ _ _
  · exact .skip fun _ => collects_single (.operand _) ⟨.literal (.text _) place, by simp⟩ _ _
  · exact .skip fun _ => collects_single (.operand _) ⟨.literal (.bool _) place, by simp⟩ _ _
  · rename_i name
    refine .skip fun _ => collects_single (.operand _) ⟨.var ⟨name, place⟩, ?_⟩ _ _
    rintro _ ⟨⟩
    rfl
  · refine .skip fun _ => collects_single (.operator _ place) ?_ _ _
    rfl
  · refine .skip fun _ => ?_
    split
    · rename_i callee before hitems
      refine (arguments_takes r tokens).bind ?_
      rintro ⟨arguments, rest, hlt⟩ ⟨taken, htokens, inner, q, hinner, htaken⟩
      refine ⟨⟨⟨.delimiter .parenthesis .opening, place⟩, cursor⟩ :: taken,
        congrArg (List.cons _) htokens, fun tokens' hbefore => ?_⟩
      -- The variable in front becomes the callee.
      rw [hitems, List.reverse_cons] at hbefore
      obtain ⟨front, back, rfl, hfront, hback⟩ := hbefore.exists_of_append
      obtain rfl := hback.of_singleton.2 callee rfl
      rw [List.reverse_cons, List.append_assoc]
      refine hfront.append (.single ⟨?_, by simp⟩)
      rw [List.map_cons, htaken]
      exact hinner.call callee place q
    · refine collects_single (.opening place) ?_ _ _
      rfl
  · refine .skip fun _ => collects_single (.closing place) ?_ _ _
    rfl
  · refine .skip fun _ => ?_
    refine (indexInside_takes r inCall tokens).bind ?_
    rintro ⟨i, rest, hlt⟩ ⟨taken, htokens, inner, q, hinner, htaken⟩
    refine ⟨⟨⟨.delimiter .bracket .opening, place⟩, cursor⟩ :: taken,
      congrArg (List.cons _) htokens, fun tokens' hbefore => ?_⟩
    rw [List.reverse_cons]
    refine hbefore.append (.single ⟨inner, q, hinner, ?_⟩)
    rw [List.map_cons, htaken]
  · trivial
  · trivial
termination_by 6 * tokens.length + 6

theorem gather_collects (r : Reading) (inCall : Bool) (sofar : Gathered) (next : Lexed) (tokens : List Lexed) :
    Ensures (Collects sofar (next :: tokens)) (r.gather inCall sofar next tokens) := by
  rw [gather]
  refine (item_collects r inCall sofar next tokens).bind ?_
  rintro ⟨sofar', rest, hlt⟩ ⟨taken, htokens, hitem⟩
  cases rest with
  | nil => exact ⟨taken, htokens, hitem⟩
  | cons next' rest =>
      dsimp only
      split
      · exact ⟨taken, htokens, hitem⟩
      · refine (gather_collects r inCall sofar' next' rest).bind ?_
        rintro ⟨all, rest', hlt'⟩ ⟨taken', hrest, hall⟩
        refine ⟨taken ++ taken', ?_, fun before hbefore => ?_⟩
        · exact htokens.trans (by simp [hrest])
        · rw [List.map_append, ← List.append_assoc]
          exact hall _ (hitem before hbefore)
termination_by 6 * tokens.length + 7
decreasing_by
  · omega
  · simp only [List.length_cons] at hlt
    omega

theorem expression_takes (r : Reading) (inCall : Bool) (tokens : List Lexed) :
    Ensures (Parsed.Takes Expr.Spelled tokens) (r.expression inCall tokens) := by
  cases tokens with
  | nil =>
      rw [expression]
      trivial
  | cons next tokens =>
      rw [expression]
      refine (gather_collects r inCall ⟨[], 0⟩ next tokens).bind ?_
      rintro ⟨all, rest, hlt⟩ ⟨taken, htokens, hall⟩
      dsimp only
      split
      · split <;> trivial
      · cases he : Expr.ofItems all.items.reverse next.token.position with
        | error e => trivial
        | ok e => exact ⟨taken, htokens, Expr.spelled_of_ofItems he (hall [] .nil)⟩
termination_by 6 * tokens.length + 2

theorem indexInside_takes (r : Reading) (inCall : Bool) (tokens : List Lexed) :
    Ensures (Parsed.Takes IndexSpelled tokens) (r.indexInside inCall tokens) := by
  rw [indexInside]
  refine (expression_takes r inCall tokens).bind ?_
  rintro ⟨i, rest, hlt⟩ ⟨taken, htokens, hi⟩
  refine (delimiter_takes .bracket .closing rest).bind ?_
  rintro ⟨q, rest', hlt'⟩ ⟨closing, hrest, hclosing⟩
  refine ⟨taken ++ [closing], htokens.trans (by simp [hrest]), taken.map Lexed.token, q, hi, ?_⟩
  rw [List.map_append, List.map_singleton, hclosing]
termination_by 6 * tokens.length + 3

theorem someArguments_takes (r : Reading) (tokens : List Lexed) :
    Ensures (Parsed.Takes (fun es taken => es ≠ [] ∧ ArgumentsSpelled es taken) tokens)
      (r.someArguments tokens) := by
  rw [someArguments]
  refine (expression_takes r true tokens).bind ?_
  rintro ⟨first, rest, hlt⟩ ⟨taken, htokens, hfirst⟩
  cases rest with
  | nil => trivial
  | cons next rest =>
      dsimp only
      split
      · rename_i hnext
        refine .skip fun _ => ⟨taken ++ [next], htokens.trans (by simp), by simp, ?_⟩
        refine ⟨_, next.token.position, .single hfirst, ?_⟩
        rw [List.map_append, List.map_singleton, ← hnext]
      · refine (consume_takes .comma (.token .comma)).bind ?_
        rintro ⟨token, rest', hlt'⟩ ⟨comma, hcons, -, hcomma⟩
        have htaken := htokens.trans (congrArg (taken ++ ·) hcons)
        have hcomma : comma.token = ⟨.comma, comma.token.position⟩ :=
          congrArg (Token.mk · _) (kind_of_class_comma hcomma)
        have hlast (p : Parsed (List Expr) rest'.length)
            (hp : p.Takes (fun es taken => es ≠ [] ∧ ArgumentsSpelled es taken) rest') :
            ∃ all, tokens = all ++ p.rest ∧ ArgumentsSpelled (first :: p.value) (all.map Lexed.token) := by
          obtain ⟨taken', hrest', hsome, inner, q, hinner, htaken'⟩ := hp
          refine ⟨taken ++ comma :: taken', htaken.trans (by simp [hrest']), _, q,
            .cons hfirst comma.token.position hsome hinner, ?_⟩
          rw [List.map_append, List.map_cons, htaken', ← hcomma]
          simp
        have hothers := someArguments_takes r rest'
        cases rest' with
        | nil =>
            refine hothers.bind fun p hp => ?_
            obtain ⟨all, hall, hspelled⟩ := hlast p hp
            exact ⟨all, hall, by simp, hspelled⟩
        | cons after rest' =>
            dsimp only [List.head?_cons]
            split
            · trivial
            · refine hothers.bind fun p hp => ?_
              obtain ⟨all, hall, hspelled⟩ := hlast p hp
              exact ⟨all, hall, by simp, hspelled⟩
termination_by 6 * tokens.length + 3

theorem arguments_takes (r : Reading) (tokens : List Lexed) :
    Ensures (Parsed.Takes ArgumentsSpelled tokens) (r.arguments tokens) := by
  have hsome := someArguments_takes r tokens
  cases tokens with
  | nil =>
      rw [arguments]
      exact hsome.imp fun p ⟨taken, htokens, _, h⟩ => ⟨taken, htokens, h⟩
  | cons next rest =>
      rw [arguments]
      split
      · rename_i hnext
        refine .skip fun _ => ⟨[next], rfl, [], next.token.position, .nil, ?_⟩
        rw [List.map_singleton, ← hnext]
        rfl
      · exact hsome.imp fun p ⟨taken, htokens, _, h⟩ => ⟨taken, htokens, h⟩
termination_by 6 * tokens.length + 4

end

end Reading

end PolishPseudocode
