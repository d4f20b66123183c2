import Mathlib.Logic.Function.Iterate
import PolishPseudocode.Proofs.Token.Layout

/-! Pulls of a cursor. One pull passes over what means nothing and then hands out a token, in one of four ways. Of
several pulls in a row, those that give a token use up the text, so they come to an end. Where a pull fails, the cursor
stays, or it stands behind the end of the line, and every later pull fails at the same place. -/

namespace PolishPseudocode

namespace Cursor

variable {source : Source} {c after : Cursor} {t : Token}

/-! ### One pull -/

/-- The way from one cursor to another leads over empty lines, blanks and comments. -/
inductive Passes (source : Source) : Cursor → Cursor → Prop where
  | refl (c : Cursor) : Passes source c c
  | emptyLine {c c' : Cursor} (hmore : c.hasMore source = true) (hempty : source.line c.line = [])
      (h : Passes source (c.advance source 1) c') : Passes source c c'
  | lexeme {c c' : Cursor} {found : Lexeme.Found} (hmore : c.hasMore source = true)
      (hfound : Lexeme.recognise (c.rest source) = some found) (hkind : ∀ kind, found.lexeme ≠ .token kind)
      (h : Passes source (c.inLine.advance source found.length) c') : Passes source c c'

/-- The token that a cursor hands out at its place, and the cursor behind it. -/
inductive HandsOut (source : Source) (c : Cursor) : Token → Cursor → Prop where
  | newLine (hcrossed : c.crossed = true) (hsignificant : isSignificant (source.line c.line) = true) :
      HandsOut source c ⟨.newLine, c.position⟩ { c with crossed := false, afterNewLine := true }
  | indentation (hstarts : indentUnit.isPrefixOf (c.rest source) = true) :
      HandsOut source c ⟨.indentation, c.position⟩
        { c.advance source indentUnit.length with afterNewLine := false, afterIndentation := true }
  | text {body : List Char} (hrest : c.rest source = '"' :: body)
      (hclosed : (body.takeWhile (· != '"')).length < body.length) :
      HandsOut source c ⟨.text (String.ofList (body.takeWhile (· != '"'))), c.position⟩
        (c.inLine.advance source ((body.takeWhile (· != '"')).length + 2))
  | lexeme {found : Lexeme.Found} {kind : Token.Kind} (hquote : ¬ (c.rest source).head? = some '"')
      (hfound : Lexeme.recognise (c.rest source) = some found) (hkind : found.lexeme = .token kind) :
      HandsOut source c ⟨kind, c.position⟩ (c.inLine.advance source found.length)

/-- A pull that gives a token passes over what means nothing, and hands the token out where that ends. -/
theorem exists_handsOut (h : c.next source = (.token t, after)) :
    ∃ c', Passes source c c' ∧ c'.hasMore source = true ∧ HandsOut source c' t after := by
  fun_induction next source c with
  | case1 c hmore line hbreak =>
      cases h
      obtain ⟨hcrossed, hsignificant⟩ := Bool.and_eq_true_iff.1 hbreak
      exact ⟨c, .refl c, hmore, .newLine hcrossed hsignificant⟩
  | case2 c hmore line hbreak hempty ih =>
      obtain ⟨c', hpasses, hout⟩ := ih h
      exact ⟨c', .emptyLine hmore (List.isEmpty_iff.1 hempty) hpasses, hout⟩
  | case3 c hmore line hbreak hempty hindent =>
      cases h
      exact ⟨c, .refl c, hmore, .indentation (Bool.and_eq_true_iff.1 hindent).2⟩
  | case4 c hmore line hbreak hempty hindent hquote =>
      obtain ⟨body, hrest⟩ := List.head?_eq_some_iff.1 hquote
      rw [hrest, List.drop_one, List.tail_cons, readText] at h
      dsimp only at h
      split at h
      · rename_i hclosed
        cases h
        exact ⟨c, .refl c, hmore, .text hrest hclosed⟩
      · cases h
  | case5 => cases h
  | case6 c hmore line hbreak hempty hindent hquote found hfound kind hkind =>
      cases h
      exact ⟨c, .refl c, hmore, .lexeme hquote hfound hkind⟩
  | case7 c hmore line hbreak hempty hindent hquote found hfound hkind ih =>
      obtain ⟨c', hpasses, hout⟩ := ih h
      exact ⟨c', .lexeme hmore hfound hkind hpasses, hout⟩
  | case8 => cases h

/-- Behind a token that is no layout, the cursor has moved over the characters of the token. -/
theorem HandsOut.exists_advance (h : c.HandsOut source t after) (ht : t.kind.isLayout = false) :
    t.position = c.position ∧ ∃ count, 0 < count ∧ after = c.inLine.advance source count := by
  cases h with
  | newLine => cases ht
  | indentation => cases ht
  | text => exact ⟨rfl, _, Nat.succ_pos _, rfl⟩
  | @lexeme found => exact ⟨rfl, _, found.length_pos, rfl⟩

/-! ### Pulls in a row -/

/-- The cursor behind so many pulls. -/
def afterPulls (source : Source) (count : Nat) (c : Cursor) : Cursor :=
  (fun c => (c.next source).2)^[count] c

/-- What the pull with this number gives, counted from zero. -/
def pull (source : Source) (c : Cursor) (n : Nat) : Pull :=
  ((c.afterPulls source n).next source).1

theorem afterPulls_add (m n : Nat) : c.afterPulls source (m + n) = (c.afterPulls source m).afterPulls source n := by
  rw [afterPulls, Nat.add_comm, Function.iterate_add_apply]
  rfl

theorem pull_add (m n : Nat) : c.pull source (m + n) = (c.afterPulls source m).pull source n := by
  rw [pull, afterPulls_add]
  rfl

/-- Behind the first pull, the others follow. -/
theorem pull_succ {pull : Pull} (h : c.next source = (pull, after)) (n : Nat) :
    c.pull source (n + 1) = after.pull source n := by
  have hafter : c.afterPulls source 1 = after := congrArg Prod.snd h
  rw [Nat.add_comm, pull_add, hafter]

theorem next_of_pull {n : Nat} {pull : Pull} (h : c.pull source n = pull) :
    (c.afterPulls source n).next source = (pull, c.afterPulls source (n + 1)) := by
  rw [afterPulls_add, ← h]
  rfl

/-- Where a pull leaves the cursor as it is, all later ones give the same. -/
theorem pull_of_stays {pull : Pull} (h : c.next source = (pull, c)) (n : Nat) : c.pull source n = pull := by
  induction n with
  | zero => exact congrArg Prod.fst h
  | succ n ih => rw [pull_succ h, ih]

/-- Pulls in a row that give tokens are no more than the text has work for. -/
theorem le_work_of_tokens {n : Nat} (h : ∀ m < n, ∃ t, c.pull source m = .token t) : n ≤ c.work source := by
  induction n generalizing c with
  | zero => exact Nat.zero_le _
  | succ n ih =>
      obtain ⟨t, ht⟩ := h 0 (Nat.succ_pos n)
      have hnext := next_of_pull ht
      have hbehind : ∀ m < n, ∃ t, (c.afterPulls source 1).pull source m = .token t := by
        intro m hm
        obtain ⟨t', ht'⟩ := h (m + 1) (Nat.succ_lt_succ hm)
        exact ⟨t', (pull_succ hnext m).symm.trans ht'⟩
      exact Nat.lt_of_le_of_lt (ih hbehind) (work_next_lt hnext)

end Cursor

/-! ### Errors -/

/-- The error that the next pull meets behind an error. Behind the end of a line there is nothing to recognise. -/
def SyntaxError.again (e : SyntaxError) : SyntaxError :=
  match e.cause with
  | .unterminatedText _ => ⟨.unknownToken "", e.position⟩
  | _ => e

namespace SyntaxError

@[simp] theorem again_position (e : SyntaxError) : e.again.position = e.position := by
  obtain ⟨cause, p⟩ := e
  cases cause <;> rfl

theorem again_eq_self {e : SyntaxError} (h : ∃ rest, e.cause = .unknownToken rest) : e.again = e := by
  obtain ⟨rest, hcause⟩ := h
  rw [again, hcause]

end SyntaxError

namespace Cursor

variable {source : Source} {c after : Cursor} {e : SyntaxError}

/-- Where only a lexeme can follow and there is none, the pull fails and the cursor stays. -/
theorem next_of_recognise_eq_none (hmore : c.hasMore source = true)
    (hbreak : ¬ (c.crossed && isSignificant (source.line c.line)) = true)
    (hempty : ¬ (source.line c.line).isEmpty = true) (hquote : ¬ (c.rest source).head? = some '"')
    (hnone : Lexeme.recognise (c.rest source) = none) :
    c.inLine.next source
      = (.failed ⟨.unknownToken (String.ofList (c.rest source)), c.position⟩, c.inLine) := by
  have hindent : ¬ ((c.inLine.afterNewLine || c.inLine.afterIndentation)
      && indentUnit.isPrefixOf (c.inLine.rest source)) = true := Bool.false_ne_true
  have hnone : Lexeme.recognise (c.inLine.rest source) = none := hnone
  rw [next, dif_pos (show c.inLine.hasMore source = true from hmore)]
  refine (if_neg hbreak).trans ((if_neg hempty).trans ((if_neg hindent).trans ((if_neg hquote).trans ?_)))
  rw [hnone]
  rfl

def lineEnd (source : Source) (c : Cursor) : Cursor :=
  { c with column := source.lineLength c.line, crossed := false }

theorem rest_lineEnd : (c.lineEnd source).rest source = [] :=
  List.drop_length

/-- Behind the last character of a line that has characters, with the flags off, no pull gives anything. -/
theorem next_lineEnd (hflags : c.inLine = c) (hmore : c.hasMore source = true)
    (hempty : ¬ (source.line c.line).isEmpty = true) :
    (c.lineEnd source).next source
      = (.failed ⟨.unknownToken "", (c.lineEnd source).position⟩, c.lineEnd source) := by
  have hquote : ¬ ((c.lineEnd source).rest source).head? = some '"' := by
    rw [rest_lineEnd]
    exact Option.some_ne_none '"' ∘ Eq.symm
  have hnone : Lexeme.recognise ((c.lineEnd source).rest source) = none := by
    rw [rest_lineEnd]
    rfl
  have hnext := next_of_recognise_eq_none (c := c.lineEnd source) hmore Bool.false_ne_true hempty hquote hnone
  have hstays : (c.lineEnd source).inLine = c.lineEnd source := congrArg (lineEnd source) hflags
  rw [hstays, rest_lineEnd] at hnext
  exact hnext

/-- Behind a pull that fails, the next one fails too and leaves the cursor where it is. -/
theorem next_of_failed (h : c.next source = (.failed e, after)) : after.next source = (.failed e.again, after) := by
  fun_induction next source c with
  | case1 => cases h
  | case2 c hmore line hbreak hempty ih => exact ih h
  | case3 => cases h
  | case4 c hmore line hbreak hempty hindent hquote =>
      rw [readText] at h
      dsimp only at h
      split at h
      · cases h
      · cases h
        exact next_lineEnd (c := c.inLine) rfl hmore hempty
  | case5 c hmore line hbreak hempty hindent hquote hnone =>
      cases h
      exact next_of_recognise_eq_none hmore hbreak hempty hquote hnone
  | case6 => cases h
  | case7 c hmore line hbreak hempty hindent hquote found hfound hkind ih => exact ih h
  | case8 => cases h

/-- Behind a pull that fails, all pulls fail alike. -/
theorem pull_of_failed {n m : Nat} (h : c.pull source n = .failed e) (hlt : n < m) :
    c.pull source m = .failed e.again := by
  obtain ⟨more, rfl⟩ := Nat.exists_eq_add_of_lt hlt
  rw [Nat.add_assoc, pull_add]
  have hnext := next_of_pull h
  rw [pull_succ hnext, pull_of_stays (next_of_failed hnext)]

/-- Once a pull has failed, every pull behind it fails at the same place, and where no token was recognised, with the
same error. -/
theorem pull_failed_of_le {n m : Nat} (h : c.pull source n = .failed e) (hle : n ≤ m) :
    ∃ e', c.pull source m = .failed e' ∧ e'.position = e.position
      ∧ ((∃ rest, e.cause = .unknownToken rest) → e' = e) := by
  rcases Nat.eq_or_lt_of_le hle with rfl | hlt
  · exact ⟨e, h, rfl, fun _ => rfl⟩
  · exact ⟨e.again, pull_of_failed h hlt, e.again_position, SyntaxError.again_eq_self⟩

/-- A letter that no name may have, on the first of two lines: the pulls do not go on to the second one. -/
theorem pull_failed_of_le_letter :
    let source := Source.ofText "    wypisz żaba\nwypisz 1"
    let e : SyntaxError := ⟨.unknownToken "żaba", ⟨0, 11⟩⟩
    Cursor.start.pull source 2 = .failed e ∧ 2 ≤ 6
      ∧ ∃ e', Cursor.start.pull source 6 = .failed e' ∧ e'.position = e.position
        ∧ ((∃ rest, e.cause = .unknownToken rest) → e' = e) := by
  intro source e
  have h : Cursor.start.pull source 2 = .failed e := by decide +kernel
  exact ⟨h, by decide, pull_failed_of_le h (by decide)⟩

end Cursor

end PolishPseudocode
