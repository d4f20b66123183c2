import PolishPseudocode.Proofs.Token.Replay
import PolishPseudocode.Proofs.Token.Spelling

/-! The names of a text. A name is as long as it can be, and a fixed word of the same length comes before it, so
what is read as a name is none of the fixed words. -/

namespace PolishPseudocode

namespace Lexeme

/-- What is longer than everything before it. -/
theorem lt_of_longest {before after : List (Nat × Lexeme)} {found : Nat × Lexeme}
    (h : longest (before ++ after) = some found) (hnew : found ∉ before) : ∀ y ∈ before, y.1 < found.1 := by
  induction before with
  | nil => exact List.forall_mem_nil _
  | cons y before ih =>
      obtain ⟨hne, hnew⟩ := List.ne_and_not_mem_of_not_mem_cons hnew
      rw [List.cons_append, longest] at h
      split at h
      · cases h
        exact absurd rfl hne
      · rename_i best hbest
        by_cases hlt : y.1 < best.1
        · rw [if_pos hlt] at h
          cases h
          exact List.forall_mem_cons.2 ⟨hlt, ih hbest hnew⟩
        · rw [if_neg hlt] at h
          cases h
          exact absurd rfl hne

theorem class_fixed : ∀ x ∈ fixed, x.2.class ≠ .identifier := by
  decide

/-- A run of name characters is a free name if it is longer than every fixed word at the same place. -/
theorem isFreeName_takeWhile {rest : List Char} (hstart : rest.head?.any isNameStart = true)
    (hlonger : ∀ x ∈ fixed, x.1 <+: rest → x.1.length < (rest.takeWhile isNameChar).length) :
    isFreeName (String.ofList (rest.takeWhile isNameChar)) = true := by
  cases rest with
  | nil => cases hstart
  | cons c rest =>
      have hc : isNameStart c = true := hstart
      have hrun : (c :: rest).takeWhile isNameChar = c :: rest.takeWhile isNameChar :=
        List.takeWhile_cons_of_pos (isNameChar_of_isNameStart hc)
      have hfree : fixed.any (·.1 == c :: rest.takeWhile isNameChar) = false := by
        rw [List.any_eq_false]
        intro x hx heq
        have hword : x.1 = (c :: rest).takeWhile isNameChar := (eq_of_beq heq).trans hrun.symm
        have hlt := hlonger x hx (hword ▸ List.takeWhile_prefix isNameChar)
        rw [hword] at hlt
        exact Nat.lt_irrefl _ hlt
      unfold isFreeName
      rw [String.toList_ofList, hrun]
      simp only [hc, hfree, List.all_takeWhile, Bool.not_false, Bool.and_self]

/-- A name that is recognised is free: a fixed word of the same length would have been taken. -/
theorem isFreeName_of_recognise {rest : List Char} {found : Found} {name : String} (h : recognise rest = some found)
    (hname : found.lexeme = .token (.identifier name)) : isFreeName name = true := by
  have hlongest := longest_of_recognise h
  obtain ⟨length, lexeme, hpos⟩ := found
  subst hname
  have hnew : (length, token (.identifier name)) ∉
      (fixed.filter (·.1.isPrefixOf rest)).map (fun entry => (entry.1.length, token entry.2)) := by
    intro hmem
    obtain ⟨⟨word, kind⟩, hword, heq⟩ := List.mem_map.1 hmem
    cases heq
    exact class_fixed _ (List.mem_filter.1 hword).1 rfl
  have hlonger := lt_of_longest hlongest hnew
  rcases List.mem_append.1 (mem_of_longest hlongest) with hmem | hmem
  · exact absurd hmem hnew
  · have hmatch := (List.mem_filter.1 hmem).1
    simp only [List.mem_cons, List.not_mem_nil, or_false] at hmatch
    rcases hmatch with hmatch | hmatch | hmatch | hmatch
    · cases hmatch
    · cases hmatch
    · cases hmatch
    · by_cases hstart : rest.head?.any isNameStart = true
      · rw [identifierMatch, if_pos hstart] at hmatch
        cases hmatch
        refine isFreeName_takeWhile hstart fun x hx hstarts => ?_
        have hword : x ∈ fixed.filter (·.1.isPrefixOf rest) :=
          List.mem_filter.2 ⟨hx, List.isPrefixOf_iff_prefix.2 hstarts⟩
        exact hlonger _ (List.mem_map_of_mem hword)
      · rw [identifierMatch, if_neg hstart] at hmatch
        cases hmatch
        cases hpos

end Lexeme

/-- A name that a cursor gives is free. -/
theorem Cursor.isFreeName_of_next {source : Source} {c after : Cursor} {name : String} {p : Position}
    (h : c.next source = (.token ⟨.identifier name, p⟩, after)) : isFreeName name = true := by
  obtain ⟨c', -, -, hout⟩ := exists_handsOut h
  cases hout with
  | lexeme hquote hfound hkind => exact Lexeme.isFreeName_of_recognise hfound hkind

/-- The names of a text are free. -/
theorem Stream.isFreeName_of_mem {source : Source} {t : Lexed} {name : String} (h : t ∈ (ofSource source).tokens)
    (hname : t.token.kind = .identifier name) : isFreeName name = true := by
  obtain ⟨before, after, htokens⟩ := List.append_of_mem h
  obtain ⟨⟨c, hnext⟩, -⟩ := exists_next_of_tokens_eq htokens
  have htoken : t.token = ⟨.identifier name, t.token.position⟩ := congrArg (Token.mk · _) hname
  rw [htoken] at hnext
  exact Cursor.isFreeName_of_next hnext

end PolishPseudocode
