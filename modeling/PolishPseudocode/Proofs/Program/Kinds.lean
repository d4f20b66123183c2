import PolishPseudocode.Proofs.Program.Relocation
import PolishPseudocode.Proofs.Token.Replay

/-! A program is what the kinds of its tokens say. Two texts with the same kinds of tokens are both programs,
equal up to places, or both refused with the same message: blanks, comments and columns make no difference.
The reader can look back at a line that was left, and go back in the text, without learning more. -/

namespace PolishPseudocode

/-- The kinds of the tokens of a text that consists of tokens to its end. -/
def Stream.kinds? (stream : Stream) : Option (List Token.Kind) :=
  match stream.ending with
  | .finished _ => some (stream.tokens.map (·.token.kind))
  | .failed _ => none

/-- Looking and going back tell nothing that the tokens ahead do not tell. -/
structure Rereads (source : Source) : Prop where
  /-- Behind a token that ends its line, an expression ends at the next token whether or not one asks for
  the line that was left. -/
  crossed : ∀ before t next after, (Stream.ofSource source).tokens = before ++ t :: next :: after →
    t.token.kind.isLayout = false → t.after.crossed = true →
    ∀ inCall depth, Reading.endsExpression inCall depth next.token.kind = true
  /-- From any cursor, the way back to a line break leads to the same tokens, and to the same end. -/
  newLine : ∀ before nl after, (Stream.ofSource source).tokens = before ++ nl :: after →
    nl.token.kind = .newLine → ∀ c : Cursor,
    (Stream.ofCursor source (c.moveTo source nl.token.position true)).scan
      = ⟨(nl :: after).map Lexed.token, (Stream.ofSource source).scan.error⟩
  /-- From the first token of a line, the way back to the indentation of the line leads to that token. -/
  indentation : ∀ before nl indent indents first after,
    (Stream.ofSource source).tokens = before ++ nl :: indent :: (indents ++ first :: after) →
    nl.token.kind = .newLine → (∀ t ∈ indent :: indents, t.token.kind = .indentation) →
    first.token.kind.isLayout = false →
    (Stream.ofCursor source (first.after.moveTo source indent.token.position false)).scan
      = ⟨(first :: after).map Lexed.token, (Stream.ofSource source).scan.error⟩

theorem rereads (source : Source) : Rereads source where
  crossed := by
    intro before t next after h ht hcrossed inCall depth
    rw [Stream.newLine_of_crossed h ht hcrossed]
    rfl
  newLine := by
    intro before nl after h hnl c
    have hscan : (Stream.ofSource source).scan.tokens
        = before.map Lexed.token ++ nl.token :: after.map Lexed.token := by
      rw [Stream.scan, h, List.map_append]
      rfl
    exact Stream.scan_moveTo_newLine c hnl hscan
  indentation := by
    intro before nl indent indents first after h hnl hindents hfirst
    have hscan : (Stream.ofSource source).scan.tokens
        = before.map Lexed.token ++ nl.token
          :: (indent.token :: indents.map Lexed.token ++ first.token :: after.map Lexed.token) := by
      rw [Stream.scan, h, List.map_append, List.map_cons, List.map_cons, List.map_append]
      rfl
    -- The cursor behind the first token has its flags off, so it takes the indentation for blanks.
    have hsplit : (Stream.ofSource source).tokens
        = (before ++ nl :: indent :: indents) ++ first :: after := by
      rw [h]
      simp
    obtain ⟨⟨c, hnext⟩, -⟩ := Stream.exists_next_of_tokens_eq hsplit
    obtain ⟨hnewLine, hindentation⟩ := Cursor.flags_of_next hnext hfirst
    refine Stream.scan_moveTo_indentation first.after hnewLine hindentation hnl ?_ ?_ hscan
    · intro t ht
      rw [← List.map_cons (f := Lexed.token)] at ht
      obtain ⟨t', ht', rfl⟩ := List.mem_map.1 ht
      exact hindents t' ht'
    · intro hkind
      rw [hkind] at hfirst
      cases hfirst

/-! ### Two texts with the same kinds -/

/-- The tokens without their places. -/
def unplacedTokens (tokens : List Lexed) : List Lexed :=
  tokens.map fun t => { t with token := t.token.relocate nowhere }

theorem moved_unplacedTokens {tokens tokens' : List Lexed}
    (h : tokens.map (·.token.kind) = tokens'.map (·.token.kind)) :
    Moved nowhere tokens (unplacedTokens tokens') := by
  have hplaced := congrArg (List.map fun kind => (⟨kind, ⟨0, 0⟩⟩ : Token)) h
  rw [List.map_map, List.map_map] at hplaced
  rw [Moved, unplacedTokens, List.map_map]
  exact hplaced.symm

theorem Stream.tokens_of_kinds? {stream : Stream} {kinds : List Token.Kind} (h : stream.kinds? = some kinds) :
    stream.tokens.map (·.token.kind) = kinds ∧ ∃ c, stream.ending = .finished c := by
  unfold kinds? at h
  split at h
  · rename_i c hending
    exact ⟨Option.some.inj h, c, hending⟩
  · cases h

/-- Without its places, a text that consists of tokens reads as what its kinds say. -/
theorem agree_unplaced {source : Source} {kinds : List Token.Kind} {r : Reading} {c : Cursor}
    {tokens : List Lexed} (h : (Stream.ofSource source).kinds? = some kinds)
    (hr : r.ending = .finished c) (htokens : tokens.map (·.token.kind) = kinds) :
    Agree (fun program program' => program' = program.unplaced) (Program.ofSource source)
      (r.statements (unplacedTokens tokens)) := by
  obtain ⟨hkinds, c', hending⟩ := Stream.tokens_of_kinds? h
  have hends : Reading.EndsAlike ⟨source, (Stream.ofSource source).ending⟩ r := by
    simp only [Reading.EndsAlike, hending, hr]
  have hsettle : Reading.settle ⟨source, (Stream.ofSource source).ending⟩ (Stream.ofSource source).tokens
      = .ok () :=
    Reading.settle_of_finished hending _
  have hmoved := Reading.statements_moved hends (moved_unplacedTokens (hkinds.trans htokens.symm))
  rw [Program.ofSource]
  simp only [hsettle]
  exact hmoved

/-- Texts with the same kinds of tokens are both programs, equal up to places, or both refused with the same
message; and the tokens ahead tell all that looking and going back could tell. -/
theorem ofText_agree_of_kinds_eq {text text' : String} {kinds : List Token.Kind}
    (h : (Stream.ofSource (Source.ofText text)).kinds? = some kinds)
    (h' : (Stream.ofSource (Source.ofText text')).kinds? = some kinds) :
    ((∃ program program', Program.ofText text = .ok program ∧ Program.ofText text' = .ok program'
        ∧ program.unplaced = program'.unplaced)
      ∨ ∃ e e', Program.ofText text = .error e ∧ Program.ofText text' = .error e' ∧ e.message = e'.message)
      ∧ Rereads (Source.ofText text) ∧ Rereads (Source.ofText text') := by
  refine ⟨?_, rereads _, rereads _⟩
  obtain ⟨hkinds, c, hending⟩ := Stream.tokens_of_kinds? h
  -- Both are compared with one and the same run over the tokens without places.
  have hagree := agree_unplaced (r := ⟨Source.ofText text, .finished c⟩) h rfl hkinds
  have hagree' := agree_unplaced (r := ⟨Source.ofText text, .finished c⟩) h' rfl hkinds
  rcases hagree.through hagree' with ⟨program, program', _, hok, hok', rfl, hsame⟩ | ⟨e, e', he, he', hcause⟩
  · exact .inl ⟨program, program', hok, hok', hsame⟩
  · exact .inr ⟨e, e', he, he', congrArg SyntaxError.Cause.message hcause⟩

/-- Other blanks, comments, empty lines and a tab for four blanks leave the kinds as they are. -/
theorem ofText_agree_of_kinds_eq_branch :
    let text := "jeżeli a to\n    wypisz 1\nw przeciwnym razie\n    f(2)\n"
    let text' := "jeżeli  a to # tak\n\n     wypisz   1\n# nie\nw przeciwnym razie\n\tf( 2 ) # koniec"
    let kinds : List Token.Kind := [.keyword .if_, .identifier "a", .keyword .then_, .newLine, .indentation,
      .keyword .print, .number 1, .newLine, .keyword .else_, .newLine, .indentation, .identifier "f",
      .delimiter .parenthesis .opening, .number 2, .delimiter .parenthesis .closing]
    (Stream.ofSource (Source.ofText text)).kinds? = some kinds
      ∧ (Stream.ofSource (Source.ofText text')).kinds? = some kinds
      ∧ ∃ program program', Program.ofText text = .ok program ∧ Program.ofText text' = .ok program'
        ∧ program.unplaced = program'.unplaced := by
  intro text text' kinds
  have h : (Stream.ofSource (Source.ofText text)).kinds? = some kinds := by decide +kernel
  have h' : (Stream.ofSource (Source.ofText text')).kinds? = some kinds := by decide +kernel
  have hok : (Program.ofText text).isOk = true := by decide +kernel
  refine ⟨h, h', ?_⟩
  rcases (ofText_agree_of_kinds_eq h h').1 with hprograms | ⟨e, e', he, -⟩
  · exact hprograms
  · rw [he] at hok
    cases hok

end PolishPseudocode
