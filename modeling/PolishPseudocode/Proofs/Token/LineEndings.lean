import PolishPseudocode.Proofs.Token.Concatenation
import PolishPseudocode.Proofs.Token.Recognition
import PolishPseudocode.Proofs.Token.Spans

/-! Lines that end in a carriage return. It is one blank more at the end of a line, where it changes no token: no
token holds one but a text, and a text ends before it. Only the word that returns from a function is refused when it
is the end of such a line, since no other blank than a space may be behind it. -/

namespace PolishPseudocode

/-- The characters with a carriage return in front of every line feed. -/
def withReturns (text : List Char) : List Char :=
  text.flatMap fun c => if c = '\n' then ['\r', '\n'] else [c]

/-- The lines with a carriage return at the end of each but the last one. -/
def returnLines : List (List Char) → List (List Char)
  | [] => []
  | [last] => [last]
  | line :: next :: lines => (line ++ ['\r']) :: returnLines (next :: lines)

def Source.withReturns (source : Source) : Source :=
  ⟨returnLines source.lines⟩

/-! ### Lines -/

theorem returnLines_cons {line : List Char} {lines : List (List Char)} (h : lines ≠ []) :
    returnLines (line :: lines) = (line ++ ['\r']) :: returnLines lines := by
  cases lines with
  | nil => exact absurd rfl h
  | cons next lines => rfl

theorem length_returnLines (lines : List (List Char)) : (returnLines lines).length = lines.length := by
  fun_induction returnLines lines with
  | case1 => rfl
  | case2 => rfl
  | case3 line next lines ih => exact congrArg Nat.succ ih

/-- A carriage return in front of every line feed ends every line but the last one. -/
theorem splitLines_withReturns (text : List Char) : splitLines (withReturns text) = returnLines (splitLines text) := by
  induction text with
  | nil => rfl
  | cons c text ih =>
      by_cases hc : c = '\n'
      · subst hc
        have hsplit : splitLines ('\n' :: text) = [] :: splitLines text := by rw [splitLines, if_pos rfl]
        rw [hsplit, returnLines_cons (splitLines_ne_nil text), ← ih]
        change splitLines ('\r' :: '\n' :: withReturns text) = _
        rw [splitLines, splitLines, if_neg (by decide), if_pos rfl]
        rfl
      · have hcons : withReturns (c :: text) = c :: withReturns text := by
          rw [withReturns, List.flatMap_cons, if_neg hc]
          rfl
        rw [hcons, splitLines, splitLines, if_neg hc, if_neg hc, ih]
        cases hlines : splitLines text with
        | nil => exact absurd hlines (splitLines_ne_nil text)
        | cons line lines => cases lines <;> rfl

theorem lineFeed_notMem_of_mem_splitLines {text line : List Char} (h : line ∈ splitLines text) : '\n' ∉ line := by
  induction text generalizing line with
  | nil =>
      rw [List.mem_singleton.1 h]
      exact List.not_mem_nil
  | cons c text ih =>
      rw [splitLines] at h
      split at h
      · rcases List.mem_cons.1 h with rfl | h
        · exact List.not_mem_nil
        · exact ih h
      · rename_i hc
        cases hlines : splitLines text with
        | nil => exact absurd hlines (splitLines_ne_nil text)
        | cons first lines =>
            rw [hlines] at h ih
            rcases List.mem_cons.1 h with rfl | h
            · exact List.not_mem_cons_of_ne_of_not_mem (Ne.symm hc) (ih List.mem_cons_self)
            · exact ih (List.mem_cons_of_mem first h)

/-- Widening a tab adds nothing but spaces. -/
theorem mem_of_mem_expandTab {c : Char} {line : List Char} (hc : c ≠ ' ') (h : c ∈ expandTab line) : c ∈ line := by
  induction line with
  | nil => exact h
  | cons d line ih =>
      rw [expandTab] at h
      split at h
      · simp only [List.mem_cons, hc, false_or] at h
        exact List.mem_cons_of_mem d h
      · rcases List.mem_cons.1 h with rfl | h
        · exact List.mem_cons_self
        · exact List.mem_cons_of_mem d (ih h)

theorem expandTab_append_return (line : List Char) : expandTab (line ++ ['\r']) = expandTab line ++ ['\r'] := by
  induction line with
  | nil => rfl
  | cons c line ih =>
      rw [List.cons_append, expandTab, expandTab]
      split
      · rfl
      · exact congrArg (List.cons c) ih

theorem map_expandTab_returnLines (lines : List (List Char)) :
    (returnLines lines).map expandTab = returnLines (lines.map expandTab) := by
  fun_induction returnLines lines with
  | case1 => rfl
  | case2 => rfl
  | case3 line next lines ih =>
      rw [List.map_cons, expandTab_append_return, ih]
      rfl

/-- The lines of a text with a carriage return in front of every line feed. -/
theorem Source.ofText_ofList_withReturns (text : String) :
    ofText (String.ofList (PolishPseudocode.withReturns text.toList)) = (ofText text).withReturns := by
  rw [ofText, String.toList_ofList, splitLines_withReturns, map_expandTab_returnLines]
  rfl

theorem isSignificant_append_return (line : List Char) : isSignificant (line ++ ['\r']) = isSignificant line := by
  cases line with
  | nil => decide
  | cons c line =>
      have hreturn : isBlank '\r' = true := by decide
      simp [isSignificant, hreturn]

theorem takeWhile_append_return (line : List Char) :
    (line ++ ['\r']).takeWhile (· == ' ') = line.takeWhile (· == ' ') := by
  induction line with
  | nil => rfl
  | cons c line ih =>
      rw [List.cons_append, List.takeWhile_cons, List.takeWhile_cons, ih]

theorem indentDepth_append_return (line : List Char) : indentDepth (line ++ ['\r']) = indentDepth line := by
  rw [indentDepth, takeWhile_append_return, indentDepth]

/-- What starts a line with a carriage return at its end starts the line, unless it holds the carriage return. -/
theorem starts_of_append_return {word line : List Char} (h : word <+: line ++ ['\r']) (hword : '\r' ∉ word) :
    word <+: line := by
  refine (List.prefix_concat_iff.1 h).resolve_left ?_
  rintro rfl
  exact hword List.mem_concat_self

theorem isPrefixOf_append_return {word : List Char} (hword : '\r' ∉ word) (line : List Char) :
    word.isPrefixOf (line ++ ['\r']) = word.isPrefixOf line := by
  rw [Bool.eq_iff_iff, List.isPrefixOf_iff_prefix, List.isPrefixOf_iff_prefix]
  exact ⟨fun h => starts_of_append_return h hword, fun h => h.trans (List.prefix_append _ _)⟩

theorem startsClean_returnLines {lines : List (List Char)} (h : startsClean lines = true) :
    startsClean (returnLines lines) = true := by
  fun_induction returnLines lines with
  | case1 => rfl
  | case2 last => exact h
  | case3 line next lines ih =>
      cases line with
      | nil => rfl
      | cons c line =>
          rw [startsClean, if_neg (by simp), isSignificant_append_return, isPrefixOf_append_return (by decide)]
          rwa [startsClean, if_neg (by simp)] at h

/-! ### Lexemes -/

namespace Lexeme

variable {rest : List Char} {length : Nat} {lexeme : Lexeme} {kind : Token.Kind}

theorem return_notMem_fixed : ∀ x ∈ fixed, '\r' ∉ x.1 := by
  decide

theorem return_notMem_of_all_isDigit {digits : List Char} (h : digits.all Char.isDigit = true) : '\r' ∉ digits :=
  fun hmem => absurd (List.all_eq_true.1 h _ hmem) (by decide)

/-- No token that a pattern reads holds a carriage return. -/
theorem Matches.return_notMem {word : List Char} (h : Matches (.token kind) word) : '\r' ∉ word := by
  cases h with
  | fixed spelling => exact return_notMem_fixed _ (mem_fixed_of_spelling? spelling)
  | numeral n =>
      have hwhole := return_notMem_of_all_isDigit n.all_whole
      rw [Numeral.text]
      split
      · exact hwhole
      · intro hmem
        rcases List.mem_append.1 hmem with hmem | hmem
        · exact hwhole hmem
        · exact return_notMem_of_all_isDigit n.all_fraction (List.mem_of_ne_of_mem (by decide) hmem)
  | name start all =>
      intro hmem
      rcases List.mem_cons.1 hmem with rfl | hmem
      · exact absurd start (by decide)
      · exact absurd (List.all_eq_true.1 all _ hmem) (by decide)

/-- A fixed word is only written as itself. -/
theorem Matches.eq_of_spelling? {text word : List Char} (h : Matches (.token kind) text)
    (hword : kind.spelling? = some word) : text = word := by
  cases h with
  | fixed spelling => exact Option.some.inj (spelling.symm.trans hword)
  | numeral => cases hword
  | name => cases hword

/-- Where a token is matched, nothing is matched up to a carriage return at the end of the line. -/
theorem Matches.not_append_return (h : Matches (.token kind) (rest.take length)) :
    ¬ Matches lexeme (rest ++ ['\r']) := by
  obtain ⟨c, cs, htake⟩ := List.exists_cons_of_ne_nil h.ne_nil
  obtain ⟨rest, rfl⟩ : ∃ rest', rest = c :: rest' := by
    cases rest with
    | nil => simp at htake
    | cons d rest =>
        cases length with
        | zero => cases htake
        | succ length =>
            cases htake
            exact ⟨rest, rfl⟩
  intro hmatch
  cases lexeme with
  | blank =>
      cases hmatch with
      | blank nonempty all =>
          rw [List.cons_append, List.all_cons, Bool.and_eq_true] at all
          cases h.eq_blank htake all.1
  | comment =>
      generalize hword : c :: rest ++ ['\r'] = word at hmatch
      cases hmatch with
      | comment =>
          cases hword
          cases h.eq_comment htake
  | token kind' => exact hmatch.return_notMem List.mem_concat_self

/-- A token is the longest match also where a carriage return ends the line. -/
theorem LongestMatch.append_return (h : LongestMatch rest length (.token kind)) :
    LongestMatch (rest ++ ['\r']) length (.token kind) := by
  have htake : (rest ++ ['\r']).take length = rest.take length := List.take_append_of_le_length h.length_le
  refine ⟨Nat.le_trans h.length_le (by simp), htake ▸ h.matched, fun lexeme' word hword hmatch => ?_, ?_⟩
  · rcases List.prefix_concat_iff.1 hword with rfl | hword
    · exact absurd hmatch h.matched.not_append_return
    · exact h.maximal lexeme' word hword hmatch
  · rw [htake]
    exact h.first

/-- A token that does not run into the text behind it runs into a carriage return only if it is the word that returns
from a function, at the end of the line. -/
theorem runsInto_append_return_iff (h : ¬ RunsInto (.token kind) rest) :
    RunsInto (.token kind) (rest ++ ['\r']) ↔ kind = .keyword .return_ ∧ rest = [] := by
  cases rest with
  | nil =>
      constructor
      · intro hruns
        cases hruns with
        | word isWord next => exact absurd next (by decide)
        | giveBack next => exact ⟨rfl, rfl⟩
      · rintro ⟨rfl, -⟩
        exact .giveBack (by decide)
  | cons c rest =>
      refine ⟨fun hruns => absurd ?_ h, fun hnil => absurd hnil.2 (List.cons_ne_nil c rest)⟩
      cases hruns with
      | word isWord next => exact .word isWord next
      | giveBack next => exact .giveBack next

/-- A token is recognised also where a carriage return ends the line. -/
theorem recognise_append_return {found : Found} (hinline : '\n' ∉ rest) (h : recognise rest = some found)
    (hkind : found.lexeme = .token kind) :
    if kind = .keyword .return_ ∧ rest.drop found.length = [] then recognise (rest ++ ['\r']) = none
    else recognise (rest ++ ['\r']) = some found := by
  have hinline' : '\n' ∉ rest ++ ['\r'] := by simpa using hinline
  obtain ⟨hlongest, hnext⟩ := (recognise_eq_some_iff hinline found).1 h
  have hdrop : (rest ++ ['\r']).drop found.length = rest.drop found.length ++ ['\r'] :=
    List.drop_append_of_le_length hlongest.length_le
  rw [hkind] at hlongest hnext
  have hruns := runsInto_append_return_iff hnext
  rw [← hdrop] at hruns
  split
  · rename_i hend
    exact (recognise_eq_none_iff hinline').2 (.inr ⟨_, _, hlongest.append_return, hruns.2 hend⟩)
  · rename_i hgoes
    rw [recognise_eq_some_iff hinline', hkind]
    exact ⟨hlongest.append_return, fun h => hgoes (hruns.1 h)⟩

end Lexeme

/-! ### Tokens -/

/-- The word that returns from a function, at the end of a line that is not the last one. -/
def Token.ReturnsBare (source : Source) (t : Token) : Prop :=
  t.kind = .keyword .return_ ∧ t.position.line + 1 < source.lines.length
    ∧ t.position.column + Keyword.return_.spelling.length = source.lineLength t.position.line

instance (source : Source) (t : Token) : Decidable (t.ReturnsBare source) :=
  inferInstanceAs (Decidable (_ ∧ _ ∧ _))

/-- The second piece is the first one; but if the first one has such a token, an error ends the second one. -/
structure Scan.RefusedAt (p : Token → Prop) (s s' : Scan) : Prop where
  same : (∀ t ∈ s.tokens, ¬ p t) → s' = s
  refused : ∀ t ∈ s.tokens, p t → ∃ e, s'.error = some e

namespace Scan.RefusedAt

variable {p : Token → Prop} {s s' s₁ s₁' : Scan} {t : Token}

theorem rfl_of_not (h : ∀ t ∈ s.tokens, ¬ p t) : s.RefusedAt p s :=
  ⟨fun _ => rfl, fun t ht hp => absurd hp (h t ht)⟩

theorem cons (h : s.RefusedAt p s') (ht : ¬ p t) : (s.cons t).RefusedAt p (s'.cons t) where
  same := fun hnone => congrArg (Scan.cons t) (h.same fun u hu => hnone u (List.mem_cons_of_mem t hu))
  refused := fun u hu hp => by
    rcases List.mem_cons.1 hu with rfl | hu
    · exact absurd hp ht
    · exact h.refused u hu hp

theorem append (h : s.RefusedAt p s') (h₁ : s₁.RefusedAt p s₁') (herror : s.error = none) :
    (s ++ s₁).RefusedAt p (s' ++ s₁') := by
  have htokens : (s ++ s₁).tokens = s.tokens ++ s₁.tokens := tokens_append herror
  constructor
  · intro hnone
    rw [htokens, List.forall_mem_append] at hnone
    rw [h.same hnone.1, h₁.same hnone.2]
  · intro u hu hp
    rw [htokens, List.mem_append] at hu
    by_cases hbefore : ∃ v ∈ s.tokens, p v
    · obtain ⟨v, hv, hpv⟩ := hbefore
      obtain ⟨e, he⟩ := h.refused v hv hpv
      exact ⟨e, by rw [append_of_error he, he]⟩
    · have hnone : ∀ v ∈ s.tokens, ¬ p v := fun v hv hpv => hbefore ⟨v, hv, hpv⟩
      obtain ⟨e, he⟩ := h₁.refused u (hu.resolve_left fun hu => hnone u hu hp) hp
      exact ⟨e, by rw [h.same hnone, append_of_error_none herror, he]⟩

end Scan.RefusedAt

section Rest

variable {source : Source} {last : Bool} {line column : Nat} {rest : List Char}

/-- A token that is recognised in a line is the word that returns from a function, with nothing behind it. -/
theorem returnsBare_iff (hline : line + 1 < source.lines.length)
    (hcolumn : column + rest.length = source.lineLength line) {length : Nat} {kind : Token.Kind}
    (h : Lexeme.LongestMatch rest length (.token kind)) :
    (⟨kind, ⟨line, column⟩⟩ : Token).ReturnsBare source ↔ kind = .keyword .return_ ∧ rest.drop length = [] := by
  have hle := h.length_le
  have hlength : kind = .keyword .return_ → length = Keyword.return_.spelling.length := by
    rintro rfl
    have hword := congrArg List.length (h.matched.eq_of_spelling? rfl)
    rwa [List.length_take, Nat.min_eq_left hle, String.length_toList] at hword
  rw [List.drop_eq_nil_iff]
  constructor
  · rintro ⟨hkind, -, hend⟩
    have := hlength hkind
    dsimp only at hend
    exact ⟨hkind, by omega⟩
  · rintro ⟨hkind, hend⟩
    have := hlength hkind
    exact ⟨hkind, hline, by dsimp only; omega⟩

/-- The rest of a line, with a carriage return behind it. -/
theorem scanRest_append_return (hline : line + 1 < source.lines.length)
    (hcolumn : column + rest.length = source.lineLength line) (hinline : '\n' ∉ rest)
    (herror : (scanRest last line column rest).error = none) :
    (scanRest last line column rest).RefusedAt (Token.ReturnsBare source)
      (scanRest last line column (rest ++ ['\r'])) := by
  have hreturn : ['\r'].all isBlank = true := by decide
  fun_induction scanRest last line column rest with
  | case1 column rest hempty =>
      rw [List.isEmpty_iff.1 hempty, List.nil_append, scanRest_of_all_isBlank hreturn]
      exact .rfl_of_not (List.forall_mem_nil _)
  | case2 column rest hempty hquote content hclosed ih =>
      obtain ⟨body, rfl⟩ := List.head?_eq_some_iff.1 hquote
      rw [List.drop_one, List.tail_cons] at hclosed
      have hle : content.length + 2 ≤ ('"' :: body).length := by
        rw [List.length_cons]
        omega
      -- The text ends before the carriage return.
      have hcontent : (('"' :: body ++ ['\r']).drop 1).takeWhile (· != '"') = content := by
        rw [List.cons_append, List.drop_one, List.tail_cons, List.takeWhile_append]
        exact if_neg (Nat.ne_of_lt hclosed)
      have hscan : scanRest last line column ('"' :: body ++ ['\r'])
          = (scanRest last line (column + (content.length + 2))
              (('"' :: body).drop (content.length + 2) ++ ['\r'])).cons
            ⟨.text (String.ofList content), ⟨line, column⟩⟩ := by
        rw [scanRest, if_neg (by simp), if_pos (by simp)]
        dsimp only
        rw [hcontent, if_pos (by simp; omega), List.drop_append_of_le_length hle]
      rw [hscan]
      refine (ih ?_ (fun h => hinline (List.mem_of_mem_drop h)) herror).cons fun hbare => by cases hbare.1
      rw [List.length_drop]
      omega
  | case3 => cases herror
  | case4 => cases herror
  | case5 column rest hempty hquote found hfound kind hkind ih =>
      have hlongest := ((Lexeme.recognise_eq_some_iff hinline found).1 hfound).1
      rw [hkind] at hlongest
      have hbare := returnsBare_iff hline hcolumn hlongest
      have hnext := Lexeme.recognise_append_return hinline hfound hkind
      have hquote' : ¬ (rest ++ ['\r']).head? = some '"' := by
        rwa [List.head?_append_of_ne_nil _ fun hnil => hempty (List.isEmpty_iff.2 hnil)]
      split at hnext
      · rename_i hend
        have hscan : scanRest last line column (rest ++ ['\r'])
            = ⟨[], some ⟨.unknownToken (String.ofList (rest ++ ['\r'])), ⟨line, column⟩⟩⟩ := by
          rw [scanRest, if_neg (by simp), if_neg hquote', hnext]
        rw [hscan]
        exact ⟨fun hnone => absurd (hbare.2 hend) (hnone _ List.mem_cons_self), fun _ _ _ => ⟨_, rfl⟩⟩
      · rename_i hgoes
        have hscan : scanRest last line column (rest ++ ['\r'])
            = (scanRest last line (column + found.length) (rest.drop found.length ++ ['\r'])).cons
              ⟨kind, ⟨line, column⟩⟩ := by
          rw [scanRest, if_neg (by simp), if_neg hquote', hnext]
          dsimp only
          rw [hkind, List.drop_append_of_le_length hlongest.length_le]
        rw [hscan]
        refine (ih ?_ (fun h => hinline (List.mem_of_mem_drop h)) herror).cons fun h => hgoes (hbare.1 h)
        have hle := hlongest.length_le
        rw [List.length_drop]
        omega
  | case6 column rest hempty hquote found hfound hkind ih =>
      have hle := ((Lexeme.recognise_eq_some_iff hinline found).1 hfound).1.length_le
      rcases Lexeme.recognise_cases hfound with ⟨-, hblank⟩ | ⟨hcomment, hlength⟩ | ⟨kind, htoken, -⟩
      · have hscan : scanRest last line column (rest ++ ['\r'])
            = scanRest last line (column + found.length) (rest.drop found.length ++ ['\r']) := by
          have hsplit : rest ++ ['\r'] = rest.take found.length ++ (rest.drop found.length ++ ['\r']) := by
            rw [← List.append_assoc, List.take_append_drop]
          rw [hsplit, scanRest_blanks hblank, List.length_take, Nat.min_eq_left hle]
        rw [hscan]
        refine ih ?_ (fun h => hinline (List.mem_of_mem_drop h)) herror
        rw [List.length_drop]
        omega
      · obtain ⟨comment, rfl⟩ := List.head?_eq_some_iff.1 (Lexeme.head_of_comment hfound hcomment)
        rw [hlength, List.drop_length, scanRest_nil, List.cons_append, scanRest_hash]
        exact .rfl_of_not (List.forall_mem_nil _)
      · exact absurd htoken (hkind kind)

end Rest

/-! ### Lines of tokens -/

namespace Source

theorem line_withReturns (source : Source) (i : Nat) :
    source.withReturns.line i
      = if i + 1 < source.lines.length then source.line i ++ ['\r'] else source.line i := by
  obtain ⟨lines⟩ := source
  simp only [line, Source.withReturns]
  fun_induction returnLines lines generalizing i with
  | case1 => rfl
  | case2 last => simp
  | case3 line next lines ih =>
      cases i with
      | zero => simp
      | succ i => simpa using ih i

theorem isLast_withReturns (source : Source) (i : Nat) : source.withReturns.isLast i = source.isLast i := by
  rw [isLast, isLast, Source.withReturns, length_returnLines]

/-- The lines of a text hold no line feed. -/
theorem lineFeed_notMem_line_ofText (text : String) (i : Nat) : '\n' ∉ (ofText text).line i := by
  rw [line, List.getD_eq_getElem?_getD]
  cases hline : (ofText text).lines[i]? with
  | none => exact List.not_mem_nil
  | some line =>
      obtain ⟨line', hline', rfl⟩ := List.mem_map.1 (List.mem_of_getElem? hline)
      exact fun hmem => lineFeed_notMem_of_mem_splitLines hline' (mem_of_mem_expandTab (by decide) hmem)

variable {source : Source} {i : Nat}

/-- The tokens of a line behind its line break, with a carriage return at its end. -/
theorem scanContent_withReturns (hi : i + 1 < source.lines.length) (hinline : '\n' ∉ source.line i)
    (herror : (scanContent source i).error = none) :
    (scanContent source i).RefusedAt (Token.ReturnsBare source) (scanContent source.withReturns i) := by
  have hline : source.withReturns.line i = source.line i ++ ['\r'] := by
    rw [line_withReturns, if_pos hi]
  have hwidth : indentUnit.length * indentDepth (source.line i) ≤ (source.line i).length :=
    Nat.le_trans (Nat.mul_div_le _ _) (List.takeWhile_prefix _).length_le
  have hbody : scanBody source.withReturns i = scanRest (source.isLast i) i
      (indentUnit.length * indentDepth (source.line i))
      ((source.line i).drop (indentUnit.length * indentDepth (source.line i)) ++ ['\r']) := by
    rw [scanBody, isLast_withReturns, hline, indentDepth_append_return, List.drop_append_of_le_length hwidth]
  rw [scanContent_eq] at herror
  rw [scanContent_eq, scanContent_eq, hbody, hline, indentDepth_append_return]
  have hindents : ∀ t ∈ (scanIndents i 0 (indentDepth (source.line i))).tokens, ¬ t.ReturnsBare source := by
    intro t ht hbare
    cases (of_mem_scanIndents ht).1.symm.trans hbare.1
  refine (Scan.RefusedAt.rfl_of_not hindents).append ?_ (scanIndents_error _ _ _)
  refine scanRest_append_return hi ?_ (fun h => hinline (List.mem_of_mem_drop h)) (Scan.error_append herror).2
  rw [List.length_drop, lineLength]
  omega

theorem scanLine_withReturns (hinline : '\n' ∉ source.line i) (herror : (scanLine source i).error = none) :
    (scanLine source i).RefusedAt (Token.ReturnsBare source) (scanLine source.withReturns i) := by
  by_cases hi : i + 1 < source.lines.length
  · have hsignificant : isSignificant (source.withReturns.line i) = isSignificant (source.line i) := by
      rw [line_withReturns, if_pos hi, isSignificant_append_return]
    rw [scanLine] at herror
    rw [scanLine, scanLine, hsignificant]
    split
    · rename_i hsays
      rw [if_pos hsays] at herror
      split
      · rename_i hfirst
        rw [if_pos hfirst] at herror
        exact scanContent_withReturns hi hinline herror
      · rename_i hlater
        rw [if_neg hlater] at herror
        exact (scanContent_withReturns hi hinline herror).cons fun hbare => by cases hbare.1
    · exact .rfl_of_not (List.forall_mem_nil _)
  · -- The last line stays as it is.
    have hline : source.withReturns.line i = source.line i := by
      rw [line_withReturns, if_neg hi]
    have hsame : scanLine source.withReturns i = scanLine source i := by
      simp only [scanLine, scanContent, isLast_withReturns, hline]
    rw [hsame]
    refine .rfl_of_not fun t ht hbare => hi ?_
    rw [← position_of_mem_scanLine ht]
    exact hbare.2.1

/-- With a carriage return at the end of each line but the last one, lines give the same tokens, unless one of them
ends in the word that returns from a function. -/
theorem scanLines_withReturns (hinline : ∀ i, '\n' ∉ source.line i) {count : Nat}
    (herror : (scanLines source count i).error = none) :
    (scanLines source count i).RefusedAt (Token.ReturnsBare source) (scanLines source.withReturns count i) := by
  induction count generalizing i with
  | zero => exact .rfl_of_not (List.forall_mem_nil _)
  | succ count ih =>
      rw [scanLines] at herror
      obtain ⟨hfirst, hlater⟩ := Scan.error_append herror
      exact (scanLine_withReturns (hinline i) hfirst).append (ih hlater) hfirst

end Source

end PolishPseudocode
