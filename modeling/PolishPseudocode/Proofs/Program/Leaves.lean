import PolishPseudocode.Proofs.Program.Tokens

/-! The leaves and operators of a program among its tokens. Reading loses nothing, doubles nothing and keeps the
order: the names and constants of a program are those of its text, and every operator, index and call is where its
token is. -/

namespace PolishPseudocode

namespace Statement

mutual

/-- The leaves and operators of a statement, in order, as the tokens that they are. -/
def marks : Statement → List Token
  | assign (.var name) value => name.token :: value.marks
  | assign (.element name index) value => name.token :: (index.marks ++ value.marks)
  | call callee arguments _ => callee.token :: Expr.marksAll arguments
  | whileLoop condition body _ => condition.marks ++ marksAll body
  | forLoop counter start second last body _ =>
      counter.token :: (start.marks ++ (second.marks ++ (last.marks ++ marksAll body)))
  | branch condition body none _ => condition.marks ++ marksAll body
  | branch condition body (some otherwise) _ => condition.marks ++ (marksAll body ++ marksAll otherwise)
  | function name parameters body _ => name.token :: (parameters.map Name.token ++ marksAll body)
  | giveBack none _ => []
  | giveBack (some value) _ => value.marks
  | print value _ => value.marks

def marksAll : List Statement → List Token
  | [] => []
  | s :: ss => s.marks ++ marksAll ss

end

/-- The expressions of a statement, apart from those of its blocks. -/
def exprs (s : Statement) : List Expr :=
  s.pieces.filterMap fun piece =>
    match piece with
    | .expr e => some e
    | .name _ | .statement _ => none

end Statement

/-- The names and constants of a program, in order. -/
def Program.leaves (p : Program) : List Token :=
  (Statement.marksAll p).filter Token.isLeaf

def Program.exprs (p : Program) : List Expr :=
  (Statement.listing 0 p).flatMap fun entry => entry.2.exprs.flatMap Expr.subs

/-! ### Statements and their parts -/

def Piece.marks : Piece → List Token
  | name n => [n.token]
  | expr e => e.marks
  | statement s => s.marks

theorem Statement.marksAll_eq (ss : List Statement) :
    Statement.marksAll ss = (ss.map Piece.statement).flatMap Piece.marks := by
  induction ss with
  | nil => rfl
  | cons s ss ih =>
      rw [Statement.marksAll, ih]
      rfl

theorem Statement.marks_eq (s : Statement) : s.marks = s.pieces.flatMap Piece.marks := by
  have hexpr (e : Expr) (pieces : List Piece) :
      (Piece.expr e :: pieces).flatMap Piece.marks = e.marks ++ pieces.flatMap Piece.marks := rfl
  have hname (n : Name) (pieces : List Piece) :
      (Piece.name n :: pieces).flatMap Piece.marks = n.token :: pieces.flatMap Piece.marks := rfl
  have hnames (ns : List Name) : (ns.map Piece.name).flatMap Piece.marks = ns.map Name.token := by
    induction ns with
    | nil => rfl
    | cons n ns ih => exact congrArg (n.token :: ·) ih
  have hnil : ([] : List Piece).flatMap Piece.marks = [] := rfl
  cases s with
  | assign target value =>
      cases target <;> simp only [marks, pieces, hexpr, hname, hnil, List.append_nil]
  | call callee arguments p => simp only [marks, pieces, hexpr, hnil, List.append_nil, Expr.marks]
  | whileLoop condition body p => simp only [marks, pieces, hexpr, marksAll_eq]
  | forLoop counter start second last body p => simp only [marks, pieces, hexpr, hname, marksAll_eq]
  | branch condition body otherwise p =>
      cases otherwise <;> simp only [marks, pieces, hexpr, marksAll_eq, List.flatMap_append]
  | function name parameters body p =>
      simp only [marks, pieces, hname, hnames, marksAll_eq, List.flatMap_append]
  | giveBack value p => cases value <;> simp only [marks, pieces, hexpr, hnil, List.append_nil]
  | print value p => simp only [marks, pieces, hexpr, hnil, List.append_nil]

theorem Woven.isInfix {segments : List (List Token)} {tokens : List Token} (h : Woven segments tokens) :
    ∀ segment ∈ segments, segment <:+: tokens := by
  induction h with
  | nil => exact List.forall_mem_nil _
  | @silent t segments tokens hsilent hrest ih =>
      exact fun segment hsegment => (ih segment hsegment).trans (List.suffix_cons t tokens).isInfix
  | @segment segments tokens first hrest ih =>
      refine List.forall_mem_cons.2 ⟨(List.prefix_append first tokens).isInfix, fun segment hsegment => ?_⟩
      exact (ih segment hsegment).trans (List.suffix_append first tokens).isInfix

/-- What is woven between the parts is not seen. -/
theorem Woven.written {parts : List (Piece × List Token)} {tokens : List Token}
    (h : Woven (parts.map Prod.snd) tokens) (hparts : ∀ part ∈ parts, Written part.2 part.1.marks) :
    Written tokens ((parts.map Prod.fst).flatMap Piece.marks) := by
  generalize hsegments : parts.map Prod.snd = segments at h
  induction h generalizing parts with
  | nil =>
      rw [List.map_eq_nil_iff.1 hsegments]
      exact .nil
  | silent hsilent hrest ih => exact .silent hsilent (ih hparts hsegments)
  | segment segment hrest ih =>
      obtain ⟨part, parts, rfl, rfl, hrest'⟩ := List.map_eq_cons_iff.1 hsegments
      obtain ⟨hpart, hparts⟩ := List.forall_mem_cons.1 hparts
      exact hpart.append (ih hparts hrest')

theorem Statement.Spelled.written {inFunction : Bool} {s : Statement} {tokens : List Token}
    (h : s.Spelled inFunction tokens) : Written tokens s.marks := by
  induction h with
  | @intro inFunction s tokens parts hpieces htokens hnames hexprs hstatements hblocks hgiveBack ih =>
      rw [Statement.marks_eq, ← hpieces]
      refine htokens.written ?_
      rintro ⟨piece, segment⟩ hpart
      cases piece with
      | name n =>
          rw [hnames n segment hpart]
          exact .single rfl
      | expr e => exact (hexprs e segment hpart).written
      | statement s' => exact ih s' segment hpart

/-! ### Statements inside statements -/

theorem Statement.exists_of_mem_listing {depth : Nat} {ss : List Statement} {entry : Nat × Statement}
    (h : entry ∈ Statement.listing depth ss) : ∃ s ∈ ss, entry ∈ (depth, s) :: s.nested depth := by
  induction ss with
  | nil => cases h
  | cons s ss ih =>
      rw [Statement.listing, ← List.cons_append] at h
      rcases List.mem_append.1 h with h | h
      · exact ⟨s, List.mem_cons_self, h⟩
      · obtain ⟨s', hs', h⟩ := ih h
        exact ⟨s', List.mem_cons_of_mem s hs', h⟩

/-- What is inside a statement is one of its parts, or inside one. -/
theorem Statement.exists_of_mem_nested {depth : Nat} {s : Statement} {entry : Nat × Statement}
    (h : entry ∈ s.nested depth) :
    ∃ s', Piece.statement s' ∈ s.pieces ∧ entry ∈ (depth + 1, s') :: s'.nested (depth + 1) := by
  have hbody (body : Block) (hbody : entry ∈ Statement.listing (depth + 1) body) :
      ∃ s', Piece.statement s' ∈ body.map .statement ∧ entry ∈ (depth + 1, s') :: s'.nested (depth + 1) := by
    obtain ⟨s', hs', h⟩ := exists_of_mem_listing hbody
    exact ⟨s', List.mem_map_of_mem hs', h⟩
  cases s with
  | whileLoop condition body p =>
      obtain ⟨s', hs', h⟩ := hbody body (by rwa [nested] at h)
      exact ⟨s', List.mem_cons_of_mem _ hs', h⟩
  | forLoop counter start second last body p =>
      obtain ⟨s', hs', h⟩ := hbody body (by rwa [nested] at h)
      exact ⟨s', by simp only [pieces, List.mem_cons, hs', or_true], h⟩
  | branch condition body otherwise p =>
      cases otherwise with
      | none =>
          obtain ⟨s', hs', h⟩ := hbody body (by rwa [nested] at h)
          exact ⟨s', List.mem_cons_of_mem _ hs', h⟩
      | some otherwise =>
          rw [nested] at h
          rcases List.mem_append.1 h with h | h
          · obtain ⟨s', hs', h⟩ := hbody body h
            exact ⟨s', List.mem_cons_of_mem _ (List.mem_append_left _ hs'), h⟩
          · obtain ⟨s', hs', h⟩ := hbody otherwise h
            exact ⟨s', List.mem_cons_of_mem _ (List.mem_append_right _ hs'), h⟩
  | function name parameters body p =>
      obtain ⟨s', hs', h⟩ := hbody body (by rwa [nested] at h)
      exact ⟨s', List.mem_cons_of_mem _ (List.mem_append_right _ hs'), h⟩
  | _ =>
      rw [nested] at h
      cases h

/-- Every statement inside a statement has its own tokens there. -/
theorem Statement.Spelled.nested {inFunction : Bool} {s : Statement} {tokens : List Token}
    (h : s.Spelled inFunction tokens) (depth : Nat) :
    ∀ entry ∈ (depth, s) :: s.nested depth, ∃ inside segment,
      segment <:+: tokens ∧ entry.2.Spelled inside segment := by
  induction h generalizing depth with
  | @intro inFunction s tokens parts hpieces htokens hnames hexprs hstatements hblocks hgiveBack ih =>
      refine List.forall_mem_cons.2 ⟨⟨inFunction, tokens, List.infix_refl tokens, ?_⟩, fun entry hentry => ?_⟩
      · exact .intro parts hpieces htokens hnames hexprs hstatements hblocks hgiveBack
      · obtain ⟨s', hs', hentry⟩ := Statement.exists_of_mem_nested hentry
        rw [← hpieces] at hs'
        obtain ⟨⟨piece, segment⟩, hpart, rfl⟩ := List.mem_map.1 hs'
        obtain ⟨inside, inner, hinner, hspelled⟩ := ih s' segment hpart (depth + 1) entry hentry
        have hsegment := htokens.isInfix segment (List.mem_map_of_mem hpart)
        exact ⟨inside, inner, hinner.trans hsegment, hspelled⟩

theorem Piece.AllSpelled.nested {program : Program} {tokens : List Token}
    (h : Piece.AllSpelled false (program.map .statement) tokens) :
    ∀ entry ∈ Statement.listing 0 program, ∃ inside segment,
      segment <:+: tokens ∧ entry.2.Spelled inside segment := by
  obtain ⟨parts, hparts, hspelled, hwoven⟩ := h
  intro entry hentry
  obtain ⟨s, hs, hentry⟩ := Statement.exists_of_mem_listing hentry
  have hpiece : Piece.statement s ∈ parts.map Prod.fst := hparts ▸ List.mem_map_of_mem hs
  obtain ⟨⟨piece, segment⟩, hpart, rfl⟩ := List.mem_map.1 hpiece
  obtain ⟨inside, inner, hinner, hentry⟩ := (hspelled _ hpart).nested 0 entry hentry
  exact ⟨inside, inner, hinner.trans (hwoven.isInfix segment (List.mem_map_of_mem hpart)), hentry⟩

theorem Piece.AllSpelled.written {program : Program} {tokens : List Token}
    (h : Piece.AllSpelled false (program.map .statement) tokens) : Written tokens (Statement.marksAll program) := by
  obtain ⟨parts, hparts, hspelled, hwoven⟩ := h
  rw [Statement.marksAll_eq, ← hparts]
  refine hwoven.written ?_
  rintro ⟨piece, segment⟩ hpart
  have hmem : piece ∈ program.map Piece.statement := hparts ▸ List.mem_map_of_mem hpart
  obtain ⟨s, -, rfl⟩ := List.mem_map.1 hmem
  exact Statement.Spelled.written (hspelled _ hpart)

/-- Every expression of a statement has its own tokens among those of the statement. -/
theorem Statement.Spelled.exprs {inFunction : Bool} {s : Statement} {tokens : List Token}
    (h : s.Spelled inFunction tokens) : ∀ e ∈ s.exprs, ∃ segment, segment <:+: tokens ∧ e.Spelled segment := by
  obtain ⟨parts, hpieces, htokens, -, hexprs, -, -, -⟩ := h
  intro e he
  obtain ⟨piece, hpiece, hexpr⟩ := List.mem_filterMap.1 he
  cases piece with
  | expr e' =>
      cases hexpr
      rw [← hpieces] at hpiece
      obtain ⟨⟨piece, segment⟩, hpart, rfl⟩ := List.mem_map.1 hpiece
      exact ⟨segment, htokens.isInfix segment (List.mem_map_of_mem hpart), hexprs e segment hpart⟩
  | _ => cases hexpr

/-! ### Leaves and their tokens -/

/-- A leaf is a token, or a number that is one up to its sign. -/
def SameLeaf (leaf token : Token) : Prop :=
  leaf = token ∨ ∃ x n, token.kind = .number x ∧ leaf.kind = .number (Neg.neg^[n] x)

/-- One leaf for each token that is one, in the same order. -/
theorem Written.leaves {tokens marks : List Token} (h : Written tokens marks) :
    List.Forall₂ SameLeaf (marks.filter Token.isLeaf) (tokens.filter Token.isLeaf) := by
  have hsilent {t : Token} (h : t.kind.isSilent = true) : ¬ t.isLeaf = true := by
    cases hkind : t.kind <;> simp_all [Token.Kind.isSilent, Token.isLeaf]
  induction h with
  | nil => exact .nil
  | silent h hrest ih =>
      rw [List.filter_cons_of_neg (hsilent h)]
      exact ih
  | @mark t tokens marks h hrest ih =>
      by_cases hleaf : t.isLeaf = true
      · rw [List.filter_cons_of_pos hleaf, List.filter_cons_of_pos hleaf]
        exact .cons (.inl rfl) ih
      · rw [List.filter_cons_of_neg hleaf, List.filter_cons_of_neg hleaf]
        exact ih
  | @number signs tokens marks x p hsigns hrest ih =>
      have hnone : signs.filter Token.isLeaf = [] := by
        refine List.filter_eq_nil_iff.2 fun t ht => ?_
        rw [Token.isLeaf]
        rcases hsigns t ht with hminus | hopening
        · rw [eq_of_beq hminus]
          exact Bool.noConfusion
        · rw [hopening]
          exact Bool.noConfusion
      rw [List.filter_append, hnone, List.nil_append, List.filter_cons_of_pos rfl, List.filter_cons_of_pos rfl]
      exact .cons (.inr ⟨x, _, rfl, rfl⟩) ih

theorem Program.allSpelled_of_ofText {text : String} {program : Program} (h : Program.ofText text = .ok program) :
    Piece.AllSpelled false (program.map .statement)
      ((Stream.ofSource (Source.ofText text)).tokens.map Lexed.token) := by
  rw [Program.ofText, Program.ofSource, bind_eq_ok] at h
  obtain ⟨-, -, h⟩ := h
  obtain ⟨taken, htokens, hspelled⟩ := (Reading.statements_weaves _ _).of_eq_ok h
  rw [List.append_nil] at htokens
  rw [htokens]
  exact hspelled

/-- The names and constants of a program are the names and constants of its text, in order and each once, numbers
up to their sign. With the operators among them, every one is the token that it was read from, with its place;
only a numeral that took in minus signs has their sign, and the place of the first one. The operator of an
operation stands between the tokens of its operands, that of an index is an opening bracket behind the tokens of
the operand, and that of a call is the parenthesis right behind the name. -/
theorem leaves_of_ofText {text : String} {program : Program} (h : Program.ofText text = .ok program) :
    let tokens := (Stream.ofSource (Source.ofText text)).tokens.map Lexed.token
    List.Forall₂ SameLeaf program.leaves (tokens.filter Token.isLeaf)
      ∧ Written tokens (Statement.marksAll program) ∧ ∀ e ∈ program.exprs, e.Located tokens := by
  have hspelled := Program.allSpelled_of_ofText h
  refine ⟨hspelled.written.leaves, hspelled.written, fun e he => ?_⟩
  obtain ⟨entry, hentry, he⟩ := List.mem_flatMap.1 he
  obtain ⟨e', he', he⟩ := List.mem_flatMap.1 he
  obtain ⟨inside, segment, hsegment, hs⟩ := hspelled.nested entry hentry
  obtain ⟨inner, hinner, hexpr⟩ := hs.exprs e' he'
  exact (hexpr.located e he).mono (hinner.trans hsegment)

/-- A minus before an index, one between two operands and one that a numeral in parentheses takes in. -/
theorem leaves_of_ofText_signs :
    let text := "funkcja f(a)\n    zwróć -a[1] - -(2)\nwypisz f(3)"
    let tokens := (Stream.ofSource (Source.ofText text)).tokens.map Lexed.token
    ∃ program, Program.ofText text = .ok program
      ∧ program.leaves.map Token.position = [⟨0, 8⟩, ⟨0, 10⟩, ⟨1, 11⟩, ⟨1, 13⟩, ⟨1, 18⟩, ⟨2, 7⟩, ⟨2, 9⟩]
      ∧ program.exprs.map Expr.position
        = [⟨1, 16⟩, ⟨1, 10⟩, ⟨1, 12⟩, ⟨1, 11⟩, ⟨1, 13⟩, ⟨1, 18⟩, ⟨2, 8⟩, ⟨2, 9⟩]
      ∧ List.Forall₂ SameLeaf program.leaves (tokens.filter Token.isLeaf)
      ∧ ∀ e ∈ program.exprs, e.Located tokens := by
  intro text tokens
  have hplaces : (Program.ofText text).map (fun program =>
      (Program.leaves program |>.map Token.position, Program.exprs program |>.map Expr.position))
        = .ok ([⟨0, 8⟩, ⟨0, 10⟩, ⟨1, 11⟩, ⟨1, 13⟩, ⟨1, 18⟩, ⟨2, 7⟩, ⟨2, 9⟩],
          [⟨1, 16⟩, ⟨1, 10⟩, ⟨1, 12⟩, ⟨1, 11⟩, ⟨1, 13⟩, ⟨1, 18⟩, ⟨2, 8⟩, ⟨2, 9⟩]) := by
    decide +kernel
  obtain ⟨program, h, hplaces⟩ := map_eq_ok.1 hplaces
  obtain ⟨hleaves, hexprs⟩ := Prod.mk.inj hplaces
  obtain ⟨hsame, -, hlocated⟩ := leaves_of_ofText h
  exact ⟨program, h, hleaves, hexprs, hsame, hlocated⟩

end PolishPseudocode
