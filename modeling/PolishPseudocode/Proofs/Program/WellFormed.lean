import PolishPseudocode.Proofs.Evaluation.Flow
import PolishPseudocode.Proofs.Program.Leaves
import PolishPseudocode.Proofs.Program.Printer
import PolishPseudocode.Proofs.Token.Names

/-! The form of the programs that are read. Their blocks are not empty, their names are free, no number is negated
and results are given back inside functions only. So no statement of such a program ends its execution early. -/

namespace PolishPseudocode

/-- What holds of every program that is read from a text. -/
structure Program.Proper (program : Program) : Prop where
  blocks : ∀ entry ∈ Statement.listing 0 program, ∀ block ∈ entry.2.blocks, block ≠ []
  giveBacks : Statement.Retains (Statement.unenclosedAll program)
  names : ∀ leaf ∈ program.leaves, ∀ name, leaf.kind = .identifier name → isFreeName name = true
  negations : ∀ operand p, Expr.unary .negate operand p ∈ program.exprs → operand.isNumber = false

/-! ### Negations -/

theorem Expr.Spelled.negations {e : Expr} {tokens : List Token} (h : e.Spelled tokens) :
    ∀ operand p, Expr.unary .negate operand p ∈ e.subs → operand.isNumber = false := by
  induction h with
  | literal value q =>
      intro operand p hmem
      cases List.mem_singleton.1 hmem
  | var name =>
      intro operand p hmem
      cases List.mem_singleton.1 hmem
  | group q q' hinner ih => exact ih
  | not q hinner ih =>
      intro operand p hmem
      rcases List.mem_cons.1 hmem with heq | hmem
      · cases heq
      · exact ih operand p hmem
  | @minus e tokens q hinner ih =>
      intro operand p hmem
      unfold Reduction.negate at hmem
      split at hmem
      · cases List.mem_singleton.1 hmem
      · rename_i hnumber
        rcases List.mem_cons.1 hmem with heq | hmem
        · cases heq
          unfold isNumber
          split
          · rename_i x r
            exact absurd rfl (hnumber x r)
          · rfl
        · exact ih operand p hmem
  | binary op q hleft hright ihleft ihright =>
      intro operand p hmem
      rcases List.mem_cons.1 hmem with heq | hmem
      · cases heq
      · rcases List.mem_append.1 hmem with hmem | hmem
        · exact ihleft operand p hmem
        · exact ihright operand p hmem
  | index q q' htarget hi ihtarget ihi =>
      intro operand p hmem
      rcases List.mem_cons.1 hmem with heq | hmem
      · cases heq
      · rcases List.mem_append.1 hmem with hmem | hmem
        · exact ihtarget operand p hmem
        · exact ihi operand p hmem
  | call callee q q' parts harguments hparts hinner ih =>
      intro operand p hmem
      rcases List.mem_cons.1 hmem with heq | hmem
      · cases heq
      · obtain ⟨argument, hargument, hmem⟩ := Expr.exists_of_mem_subsAll hmem
        rw [← harguments] at hargument
        obtain ⟨part, hpart, rfl⟩ := List.mem_map.1 hargument
        exact ih part hpart operand p hmem

/-! ### Names -/

/-- The names among the leaves are tokens. -/
theorem Written.mem_of_identifier {tokens marks : List Token} (h : Written tokens marks) {t : Token} {name : String}
    (ht : t.kind = .identifier name) (hmem : t ∈ marks) : t ∈ tokens := by
  induction h with
  | nil => exact hmem
  | silent hsilent hrest ih => exact List.mem_cons_of_mem _ (ih hmem)
  | mark hmark hrest ih =>
      rcases List.mem_cons.1 hmem with rfl | hmem
      · exact List.mem_cons_self
      · exact List.mem_cons_of_mem _ (ih hmem)
  | number x p hsigns hrest ih =>
      rcases List.mem_cons.1 hmem with rfl | hmem
      · cases ht
      · exact List.mem_append_right _ (List.mem_cons_of_mem _ (ih hmem))

/-! ### Results that are given back -/

/-- What is inside a statement and in the body of no function is inside one of its parts. -/
theorem Statement.exists_of_mem_unenclosed {s s' : Statement} (h : s' ∈ s.unenclosed) :
    s' = s ∨ (s.isFunction = false ∧ ∃ part, Piece.statement part ∈ s.pieces ∧ s' ∈ part.unenclosed) := by
  have hbody {body : Block} (h : s' ∈ Statement.unenclosedAll body) :
      ∃ part, Piece.statement part ∈ body.map .statement ∧ s' ∈ part.unenclosed := by
    obtain ⟨part, hpart, h⟩ := mem_unenclosedAll.1 h
    exact ⟨part, List.mem_map_of_mem hpart, h⟩
  cases s with
  | whileLoop condition body p =>
      rcases List.mem_cons.1 h with h | h
      · exact .inl h
      · obtain ⟨part, hpart, h⟩ := hbody h
        exact .inr ⟨rfl, part, List.mem_cons_of_mem _ hpart, h⟩
  | forLoop counter start second last body p =>
      rcases List.mem_cons.1 h with h | h
      · exact .inl h
      · obtain ⟨part, hpart, h⟩ := hbody h
        exact .inr ⟨rfl, part, by simp only [pieces, List.mem_cons, hpart, or_true], h⟩
  | branch condition body otherwise p =>
      cases otherwise with
      | none =>
          rcases List.mem_cons.1 h with h | h
          · exact .inl h
          · obtain ⟨part, hpart, h⟩ := hbody h
            exact .inr ⟨rfl, part, List.mem_cons_of_mem _ hpart, h⟩
      | some otherwise =>
          rcases List.mem_cons.1 h with h | h
          · exact .inl h
          · rcases List.mem_append.1 h with h | h
            · obtain ⟨part, hpart, h⟩ := hbody h
              exact .inr ⟨rfl, part, List.mem_cons_of_mem _ (List.mem_append_left _ hpart), h⟩
            · obtain ⟨part, hpart, h⟩ := hbody h
              exact .inr ⟨rfl, part, List.mem_cons_of_mem _ (List.mem_append_right _ hpart), h⟩
  | _ => exact .inl (List.mem_singleton.1 h)

/-- Outside functions, a statement gives back nothing, nor does anything inside it that is outside functions. -/
theorem Statement.Spelled.retains {inFunction : Bool} {s : Statement} {tokens : List Token}
    (h : s.Spelled inFunction tokens) (houtside : inFunction = false) : Statement.Retains s.unenclosed := by
  induction h with
  | @intro inFunction s tokens parts hpieces htokens hnames hexprs hstatements hblocks hgiveBack ih =>
      intro s' hs'
      rcases exists_of_mem_unenclosed hs' with rfl | ⟨hfunction, part, hpart, hs'⟩
      · rw [Bool.eq_false_iff]
        intro hback
        exact Bool.noConfusion (houtside.symm.trans (hgiveBack hback))
      · rw [← hpieces] at hpart
        obtain ⟨⟨piece, segment⟩, hpart, rfl⟩ := List.mem_map.1 hpart
        exact ih part segment hpart (by rw [houtside, hfunction]; rfl) s' hs'

theorem Piece.AllSpelled.retains {program : Program} {tokens : List Token}
    (h : Piece.AllSpelled false (program.map .statement) tokens) :
    Statement.Retains (Statement.unenclosedAll program) := by
  obtain ⟨parts, hparts, hspelled, -⟩ := h
  intro s' hs'
  obtain ⟨s, hs, hs'⟩ := Statement.mem_unenclosedAll.1 hs'
  have hpiece : Piece.statement s ∈ parts.map Prod.fst := hparts ▸ List.mem_map_of_mem hs
  obtain ⟨⟨piece, segment⟩, hpart, rfl⟩ := List.mem_map.1 hpiece
  exact Statement.Spelled.retains (hspelled _ hpart) rfl s' hs'

/-! ### Programs -/

theorem Program.Proper.of_ofText {text : String} {program : Program} (h : Program.ofText text = .ok program) :
    program.Proper := by
  have hspelled := Program.allSpelled_of_ofText h
  constructor
  · intro entry hentry
    obtain ⟨inside, segment, -, hs⟩ := hspelled.nested entry hentry
    obtain ⟨-, -, -, -, -, -, hblocks, -⟩ := hs
    exact hblocks
  · exact hspelled.retains
  · intro leaf hleaf name hname
    have hmem := hspelled.written.mem_of_identifier hname (List.mem_filter.1 hleaf).1
    obtain ⟨t, ht, rfl⟩ := List.mem_map.1 hmem
    exact Stream.isFreeName_of_mem ht hname
  · intro operand p hmem
    obtain ⟨entry, hentry, hmem⟩ := List.mem_flatMap.1 hmem
    obtain ⟨e, he, hmem⟩ := List.mem_flatMap.1 hmem
    obtain ⟨inside, segment, -, hs⟩ := hspelled.nested entry hentry
    obtain ⟨inner, -, hexpr⟩ := hs.exprs e he
    exact hexpr.negations operand p hmem

/-- A program that is read from a text has non-empty blocks and free names only, negates no number, and gives back
results inside functions only; so from whatever state its statements are executed, none of them gives back a result
to the program. -/
theorem proper_of_ofText {text : String} {program : Program} (h : Program.ofText text = .ok program) :
    program.Proper ∧ ∀ (o : Origins) (fuel : Nat) (m : Machine), ∀ s ∈ program, ∀ flow after,
      exec o fuel s m = .done flow after → flow = .next := by
  have hproper := Program.Proper.of_ofText h
  refine ⟨hproper, fun o fuel m s hs flow after hdone => ?_⟩
  have hretains : Statement.Retains s.unenclosed := fun s' hs' =>
    hproper.giveBacks s' (Statement.mem_unenclosedAll.2 ⟨s, hs, hs'⟩)
  have hgoesOn := exec_goesOn o fuel hretains m
  rw [hdone] at hgoesOn
  exact hgoesOn

/-- A result is given back from a loop in a function, which a branch calls; the second minus belongs to a number,
the first one does not. -/
theorem proper_of_ofText_loop :
    let text := "funkcja f(x)\n    dopóki PRAWDA wykonuj\n        zwróć -x - -1\njeżeli PRAWDA to\n    wypisz f(2)"
    ∃ program, Program.ofText text = .ok program ∧ program.length = 2
      ∧ (Statement.listing 0 program).map (fun entry => (entry.1, entry.2.isGiveBack))
        = [(0, false), (1, false), (2, true), (0, false), (1, false)]
      ∧ program.Proper ∧ ∀ (o : Origins) (fuel : Nat) (m : Machine), ∀ s ∈ program, ∀ flow after,
        exec o fuel s m = .done flow after → flow = .next := by
  intro text
  have hshape : (Program.ofText text).map (fun program => (List.length program,
      (Statement.listing 0 program).map (fun entry => (entry.1, entry.2.isGiveBack))))
        = .ok (2, [(0, false), (1, false), (2, true), (0, false), (1, false)]) := by
    decide +kernel
  obtain ⟨program, h, hshape⟩ := map_eq_ok.1 hshape
  obtain ⟨hlength, hlisting⟩ := Prod.mk.inj hshape
  obtain ⟨hproper, hflow⟩ := proper_of_ofText h
  exact ⟨program, h, hlength, hlisting, hproper, hflow⟩

end PolishPseudocode
