import PolishPseudocode.Proofs.Program.Nesting

/-! The other branches of conditions. A block leaves the word that introduces one to the condition around it. If
the word heads a line, this line is one level less deep than the block; but a block that ends in a loop, in a
function or in a condition with both branches also leaves what the last block in there leaves, and a block that
ends in any other statement leaves a word on the line of that statement. -/

namespace PolishPseudocode

/-! ### The last token of what is read -/

/-- The last token that was taken is no layout. -/
def Parsed.EndsInWord {α : Type} {limit : Nat} (tokens : List Lexed) (p : Parsed α limit) : Prop :=
  ∃ t : Lexed, t.token.kind.isLayout = false ∧ t :: p.rest <:+ tokens

/-- What leaves the same tokens ends in the same word, also seen from further in front. -/
theorem Parsed.EndsInWord.of_rest_eq {α β : Type} {limit limit' : Nat} {tokens tokens' : List Lexed}
    {p : Parsed α limit} {q : Parsed β limit'} (h : p.EndsInWord tokens) (hrest : q.rest = p.rest)
    (htokens : tokens <:+ tokens') : q.EndsInWord tokens' := by
  obtain ⟨t, ht, hsuffix⟩ := h
  refine ⟨t, ht, ?_⟩
  rw [hrest]
  exact hsuffix.trans htokens

theorem isLayout_of_class {kind : Token.Kind} {pair : Delimiter} (h : kind.class = .delimiter pair) :
    kind.isLayout = false := by
  cases kind with
  | newLine => cases h
  | indentation => cases h
  | _ => rfl

namespace Reading

variable {r : Reading} {tokens : List Lexed}

theorem delimiter_word (pair : Delimiter) (side : Side) :
    Ensures (Parsed.EndsInWord tokens) (r.delimiter pair side tokens) := by
  refine (consume_takes _ _).bind ?_
  rintro ⟨token, rest, hlt⟩ ⟨next, htokens, -, hclass⟩
  dsimp only
  split
  · split
    · exact ⟨next, isLayout_of_class hclass, [], htokens.symm⟩
    · trivial
  · trivial

theorem indexInside_word (r : Reading) (inCall : Bool) (tokens : List Lexed) :
    Ensures (Parsed.EndsInWord tokens) (r.indexInside inCall tokens) := by
  rw [indexInside]
  apply (expression_leaves r inCall tokens).read
  intro index rest hlt hrest
  exact (delimiter_word .bracket .closing).bind fun p hp => hp.of_rest_eq rfl hrest

theorem someArguments_word (r : Reading) (tokens : List Lexed) :
    Ensures (Parsed.EndsInWord tokens) (r.someArguments tokens) := by
  rw [someArguments]
  apply (expression_leaves r true tokens).read
  intro first rest hlt hrest
  cases rest with
  | nil => trivial
  | cons next rest =>
      dsimp only
      split
      · rename_i hclosing
        exact .skip fun _ => ⟨next, by rw [hclosing]; rfl, hrest⟩
      · apply (consume_leaves .comma (.token .comma)).read
        intro _ rest' hlt' hrest'
        have hothers : Ensures (Parsed.EndsInWord tokens) (r.someArguments rest') :=
          (someArguments_word r rest').imp fun p hp => hp.of_rest_eq rfl (hrest'.trans hrest)
        cases rest' with
        | nil => exact hothers.bind fun p hp => hp
        | cons after rest' =>
            dsimp only [List.head?_cons]
            split
            · trivial
            · exact hothers.bind fun p hp => hp
termination_by tokens.length
decreasing_by omega

theorem arguments_word (r : Reading) (tokens : List Lexed) :
    Ensures (Parsed.EndsInWord tokens) (r.arguments tokens) := by
  cases tokens with
  | nil =>
      rw [arguments]
      exact someArguments_word r []
  | cons next rest =>
      rw [arguments]
      split
      · rename_i hclosing
        exact .skip fun _ => ⟨next, by rw [hclosing]; rfl, List.suffix_refl _⟩
      · exact someArguments_word r (next :: rest)

theorem item_word (r : Reading) (inCall : Bool) (sofar : Gathered) (next : Lexed) (tokens : List Lexed) :
    Ensures (Parsed.EndsInWord (next :: tokens)) (r.item inCall sofar next tokens) := by
  have hnext (h : next.token.kind.isLayout = false) :
      ∃ t : Lexed, t.token.kind.isLayout = false ∧ t :: tokens <:+ next :: tokens :=
    ⟨next, h, List.suffix_refl _⟩
  have hbehind : tokens <:+ next :: tokens := List.suffix_cons next tokens
  rw [item]
  split
  case h_6 hkind =>
      refine .skip fun _ => ?_
      split
      · exact (arguments_word r tokens).bind fun p hp => hp.of_rest_eq rfl hbehind
      · exact hnext (by rw [hkind]; rfl)
  case h_8 hkind =>
      exact .skip fun _ => (indexInside_word r inCall tokens).bind fun p hp => hp.of_rest_eq rfl hbehind
  case h_9 => trivial
  case h_10 => trivial
  all_goals
    rename_i hkind
    exact .skip fun _ => hnext (by rw [hkind]; rfl)

theorem gather_word (r : Reading) (inCall : Bool) (sofar : Gathered) (next : Lexed) (tokens : List Lexed) :
    Ensures (Parsed.EndsInWord (next :: tokens)) (r.gather inCall sofar next tokens) := by
  rw [gather]
  refine (item_word r inCall sofar next tokens).bind ?_
  rintro ⟨sofar, rest, hlt⟩ ⟨t, ht, hsuffix⟩
  cases rest with
  | nil => exact ⟨t, ht, hsuffix⟩
  | cons next' rest =>
      dsimp only
      split
      · exact ⟨t, ht, hsuffix⟩
      · have hbehind : next' :: rest <:+ next :: tokens := (List.suffix_cons t _).trans hsuffix
        exact (gather_word r inCall sofar next' rest).bind fun p hp => hp.of_rest_eq rfl hbehind
termination_by tokens.length
decreasing_by
  simp only [List.length_cons] at hlt
  omega

theorem expression_word (r : Reading) (inCall : Bool) (tokens : List Lexed) :
    Ensures (Parsed.EndsInWord tokens) (r.expression inCall tokens) := by
  cases tokens with
  | nil =>
      rw [expression]
      trivial
  | cons next tokens =>
      rw [expression]
      refine (gather_word r inCall _ next tokens).bind fun p hp => ?_
      dsimp only
      split
      · split <;> trivial
      · exact .skip fun _ => hp

end Reading

/-! ### How a block can end -/

namespace Statement

/-- Whether a statement has no block in it. -/
def isPlain : Statement → Bool
  | assign _ _ | call _ _ _ | giveBack _ _ | print _ _ => true
  | _ => false

/-- The block that a statement ends with; a condition that lacks the other branch would take its word itself. -/
def lastBlock? : Statement → Option Block
  | whileLoop _ body _ => some body
  | forLoop _ _ _ _ body _ => some body
  | function _ _ body _ => some body
  | branch _ _ otherwise _ => otherwise
  | assign _ _ | call _ _ _ | giveBack _ _ | print _ _ => none

end Statement

/-- A block of a level ends with another one: this is the same, or the last statement ends with a block that ends
with it. -/
inductive EndsWith : Nat → Block → Nat → Block → Prop where
  | refl (level : Nat) (b : Block) : EndsWith level b level b
  | last {level level' : Nat} {b b' inner : Block} {s : Statement} (hs : b.getLast? = some s)
      (hb : s.lastBlock? = some b') (h : EndsWith (level + 1) b' level' inner) : EndsWith level b level' inner

theorem EndsWith.le {level level' : Nat} {b inner : Block} (h : EndsWith level b level' inner) :
    level ≤ level' := by
  induction h with
  | refl level b => exact Nat.le_refl level
  | last hs hb h ih => exact Nat.le_of_succ_le ih

/-- A token heads a line that is one level less deep than a block. -/
def HeadsBelow (tokens : List Lexed) (word : Lexed) (after : List Lexed) (level : Nat) : Prop :=
  ∃ nl indents, nl.token.kind = .newLine ∧ (∀ t ∈ indents, t.token.kind = .indentation)
    ∧ indents.length + 1 = level ∧ nl :: (indents ++ word :: after) <:+ tokens

/-- A token is right behind the last statement of a block, which is a plain one. -/
def FollowsPlain (tokens : List Lexed) (word : Lexed) (after : List Lexed) (b : Block) : Prop :=
  ∃ s t, b.getLast? = some s ∧ s.isPlain = true ∧ t.token.kind.isLayout = false ∧ t :: word :: after <:+ tokens

/-- A block leaves a word behind it. -/
def LeavesWord (tokens : List Lexed) (word : Lexed) (after : List Lexed) (level : Nat) (b : Block) : Prop :=
  ∃ level' inner, EndsWith level b level' inner
    ∧ (HeadsBelow tokens word after level' ∨ FollowsPlain tokens word after inner)

namespace LeavesWord

variable {tokens tokens' after : List Lexed} {word : Lexed} {level : Nat} {b : Block}

/-- More tokens in front change nothing. -/
theorem mono (h : LeavesWord tokens word after level b) (htokens : tokens <:+ tokens') :
    LeavesWord tokens' word after level b := by
  obtain ⟨level', inner, hends, ⟨nl, indents, hnl, hindents, hlevel, h⟩ | ⟨s, t, hs, hplain, ht, h⟩⟩ := h
  · exact ⟨level', inner, hends, .inl ⟨nl, indents, hnl, hindents, hlevel, h.trans htokens⟩⟩
  · exact ⟨level', inner, hends, .inr ⟨s, t, hs, hplain, ht, h.trans htokens⟩⟩

/-- What the last block in the last statement leaves is left. -/
theorem last {s : Statement} {b' : Block} (hs : b.getLast? = some s) (hb : s.lastBlock? = some b')
    (h : LeavesWord tokens word after (level + 1) b') : LeavesWord tokens word after level b := by
  obtain ⟨level', inner, hends, hword⟩ := h
  exact ⟨level', inner, .last hs hb hends, hword⟩

/-- Statements in front change nothing. -/
theorem cons (h : LeavesWord tokens word after level b) (s : Statement) :
    LeavesWord tokens word after level (s :: b) := by
  have hlast {s' : Statement} (hs' : b.getLast? = some s') : (s :: b).getLast? = some s' := by
    rw [List.getLast?_cons, hs']
    rfl
  obtain ⟨level', inner, hends, hword⟩ := h
  cases hends with
  | refl =>
      refine ⟨level, s :: b, .refl _ _, hword.imp_right ?_⟩
      rintro ⟨s', t, hs', hplain, ht, h⟩
      exact ⟨s', t, hlast hs', hplain, ht, h⟩
  | last hs hb hends => exact ⟨level', inner, .last (hlast hs) hb hends, hword⟩

end LeavesWord

/-- The other branch of a condition inside so many blocks is behind its word, with only layout between the word
and the first statement, and the first branch leaves the word. -/
def Introduced (tokens : List Lexed) (entry : Nat × Statement) : Prop :=
  ∀ condition body otherwise place, entry.2 = .branch condition body (some otherwise) place →
    ∃ word layout first after s, word.token.kind = .keyword .else_
      ∧ (∀ t ∈ layout, t.token.kind.isLayout = true) ∧ otherwise.head? = some s ∧ first.token = s.firstToken
      ∧ word :: (layout ++ first :: after) <:+ tokens
      ∧ LeavesWord tokens word (layout ++ first :: after) (entry.1 + 1) body

theorem Introduced.mono {tokens tokens' : List Lexed} {entry : Nat × Statement} (h : Introduced tokens entry)
    (htokens : tokens <:+ tokens') : Introduced tokens' entry := by
  intro condition body otherwise place hbranch
  obtain ⟨word, layout, first, after, s, hword, hlayout, hs, hfirst, hsuffix, hleaves⟩ :=
    h condition body otherwise place hbranch
  exact ⟨word, layout, first, after, s, hword, hlayout, hs, hfirst, hsuffix.trans htokens, hleaves.mono htokens⟩

namespace Reading

/-! ### Readers of statements -/

/-- What a statement of a level, which starts with `next`, says of the words for other branches: those inside it,
and the one that it leaves. -/
structure StatementWords {limit : Nat} (level : Nat) (next : Lexed) (tokens : List Lexed)
    (p : Parsed Statement limit) : Prop where
  introduced : ∀ entry ∈ (level, p.value) :: p.value.nested level, Introduced (next :: tokens) entry
  rest : ∀ word after, p.rest = word :: after → word.isElse = true →
    (p.value.isPlain = true ∧ ∃ t : Lexed, t.token.kind.isLayout = false ∧ t :: word :: after <:+ next :: tokens)
      ∨ ∃ b, p.value.lastBlock? = some b ∧ LeavesWord (next :: tokens) word after (level + 1) b

/-- What a block of a level says of the words for other branches, and where its first statement is. -/
structure BlockWords {limit : Nat} (level : Nat) (tokens : List Lexed) (p : Parsed Block limit) : Prop where
  first : ∃ layout first after s, (∀ t ∈ layout, t.token.kind.isLayout = true) ∧ p.value.head? = some s
    ∧ first.token = s.firstToken ∧ tokens = layout ++ first :: after
  introduced : ∀ entry ∈ Statement.listing level p.value, Introduced tokens entry
  rest : ∀ word after, p.rest = word :: after → word.isElse = true → LeavesWord tokens word after level p.value

/-- What the lines of a block of a level say of the words for other branches. -/
structure LinesWords {limit : Nat} (level : Nat) (tokens : List Lexed) (l : Lines limit) : Prop where
  first : ∀ s ∈ l.statements.head?, ∃ layout first after, (∀ t ∈ layout, t.token.kind.isLayout = true)
    ∧ first.token = s.firstToken ∧ tokens = layout ++ first :: after
  introduced : ∀ entry ∈ Statement.listing level l.statements, Introduced tokens entry
  rest : ∀ word after, l.rest = word :: after → word.isElse = true → l.staysAhead level = true →
    LeavesWord tokens word after level l.statements
  back : ∀ back ∈ l.back, ∀ t ∈ back.head?, t.token.kind = .newLine

theorem isElse_iff {t : Lexed} : t.isElse = true ↔ t.token.kind = .keyword .else_ :=
  beq_iff_eq

/-- A plain statement, which leaves a word only right behind another one. -/
theorem StatementWords.plain {limit level : Nat} {next : Lexed} {tokens : List Lexed} {p : Parsed Statement limit}
    (hplain : p.value.isPlain = true)
    (hword : ∀ word after, p.rest = word :: after → word.isElse = true →
      ∃ t : Lexed, t.token.kind.isLayout = false ∧ t :: word :: after <:+ next :: tokens) :
    StatementWords level next tokens p := by
  refine ⟨?_, fun word after hrest helse => .inl ⟨hplain, hword word after hrest helse⟩⟩
  have hnested : p.value.nested level = [] := by
    cases hs : p.value with
    | assign | call | giveBack | print => rw [Statement.nested]
    | _ =>
        rw [hs] at hplain
        cases hplain
  rw [hnested]
  refine List.forall_mem_singleton.2 fun condition body otherwise place hbranch => ?_
  change p.value = _ at hbranch
  rw [hbranch] at hplain
  cases hplain

/-- A plain statement that ends in a word. -/
theorem StatementWords.of_endsInWord {limit level : Nat} {next : Lexed} {tokens : List Lexed}
    {p : Parsed Statement limit} (hplain : p.value.isPlain = true) (hword : p.EndsInWord tokens) :
    StatementWords level next tokens p := by
  obtain ⟨t, ht, hsuffix⟩ := hword
  refine .plain hplain fun word after hrest _ => ⟨t, ht, ?_⟩
  rw [← hrest]
  exact hsuffix.trans (List.suffix_cons next tokens)

/-- A loop or a function, whose body is all that it leaves words behind. -/
theorem StatementWords.compound {limit limit' level : Nat} {next : Lexed} {tokens rest : List Lexed}
    {p : Parsed Statement limit} {body : Parsed Block limit'} (hbody : BlockWords (level + 1) rest body)
    (hrest : rest <:+ next :: tokens) (hnested : p.value.nested level = Statement.listing (level + 1) body.value)
    (hlast : p.value.lastBlock? = some body.value)
    (hkind : p.value.firstToken.kind ≠ .keyword .if_) (hsame : p.rest = body.rest) :
    StatementWords level next tokens p where
  introduced := by
    rw [hnested]
    refine List.forall_mem_cons.2 ⟨?_, fun entry hentry => (hbody.introduced entry hentry).mono hrest⟩
    intro condition b otherwise place hbranch
    change p.value = _ at hbranch
    rw [hbranch] at hkind
    exact absurd rfl hkind
  rest := fun word after hword helse =>
    .inr ⟨body.value, hlast, (hbody.rest word after (hsame ▸ hword) helse).mono hrest⟩

/-- A condition without the other branch, behind which no word is left. -/
theorem StatementWords.lacking {limit limit' level : Nat} {next : Lexed} {tokens rest : List Lexed}
    {condition : Expr} {place : Position} {body : Parsed Block limit'} (hbody : BlockWords (level + 1) rest body)
    (hrest : rest <:+ next :: tokens) (hlt : body.rest.length < limit)
    (hword : ∀ word after, body.rest = word :: after → word.isElse = false) :
    StatementWords level next tokens
      (⟨.branch condition body.value none place, body.rest, hlt⟩ : Parsed Statement limit) where
  introduced := by
    rw [Statement.nested]
    refine List.forall_mem_cons.2 ⟨?_, fun entry hentry => (hbody.introduced entry hentry).mono hrest⟩
    intro condition b otherwise place h
    cases h
  rest := by
    intro word after h helse
    cases (hword word after h).symm.trans helse

/-- A condition with both branches: the first one leaves the word of the other, which follows it. -/
theorem StatementWords.both {limit limit' limit'' level : Nat} {next word : Lexed} {tokens rest rest' : List Lexed}
    {condition : Expr} {place : Position} {body : Parsed Block limit'} {otherwise : Parsed Block limit''}
    (hbody : BlockWords (level + 1) rest body) (hrest : rest <:+ next :: tokens)
    (hword : body.rest = word :: rest') (helse : word.isElse = true) (hsuffix : word :: rest' <:+ next :: tokens)
    (hotherwise : BlockWords (level + 1) rest' otherwise) (hlt : otherwise.rest.length < limit) :
    StatementWords level next tokens
      (⟨.branch condition body.value (some otherwise.value) place, otherwise.rest, hlt⟩
        : Parsed Statement limit) where
  introduced := by
    have hbehind : rest' <:+ next :: tokens := (List.suffix_cons word rest').trans hsuffix
    rw [Statement.nested]
    refine List.forall_mem_cons.2 ⟨?_, fun entry hentry => ?_⟩
    · intro condition b otherwise' place h
      cases h
      obtain ⟨layout, first, after, s, hlayout, hs, hfirst, rfl⟩ := hotherwise.first
      have hleaves := (hbody.rest word _ hword helse).mono hrest
      exact ⟨word, layout, first, after, s, isElse_iff.1 helse, hlayout, hs, hfirst, hsuffix, hleaves⟩
    · rcases List.mem_append.1 hentry with hentry | hentry
      · exact (hbody.introduced entry hentry).mono hrest
      · exact (hotherwise.introduced entry hentry).mono hbehind
  rest := by
    have hbehind : rest' <:+ next :: tokens := (List.suffix_cons word rest').trans hsuffix
    intro word' after h helse'
    exact .inr ⟨otherwise.value, rfl, (hotherwise.rest word' after h helse').mono hbehind⟩

theorem assignment_word (r : Reading) (name : Name) (tokens : List Lexed) :
    Ensures (fun p => p.value.isPlain = true ∧ p.EndsInWord tokens) (r.assignment name tokens) := by
  rw [assignment]
  split
  · trivial
  · refine (target_name r name tokens).bind ?_
    rintro ⟨target, rest₁, hlt₁⟩ ⟨-, h₁⟩
    apply (consume_leaves .keyword (.keyword .assign)).read
    intro arrow rest₂ _ h₂
    dsimp only
    split
    · exact (expression_word r false rest₂).bind fun p hp => ⟨rfl, hp.of_rest_eq rfl (h₂.trans h₁)⟩
    · trivial

theorem assignmentOrCall_word (r : Reading) (name : Name) (tokens : List Lexed) :
    Ensures (fun p => p.value.isPlain = true ∧ p.EndsInWord tokens) (r.assignmentOrCall name tokens) := by
  cases tokens with
  | nil => exact assignment_word r name []
  | cons next rest =>
      rw [assignmentOrCall]
      split
      · refine .skip fun _ => (arguments_word r rest).bind fun p hp => ?_
        exact ⟨rfl, hp.of_rest_eq rfl (List.suffix_cons next rest)⟩
      · exact assignment_word r name (next :: rest)

namespace LinesWords

variable {limit level : Nat} {l : Lines limit} {tokens : List Lexed}

theorem mono {limit' : Nat} (h : LinesWords level tokens l) (hle : limit ≤ limit') :
    LinesWords level tokens (l.mono hle) :=
  ⟨h.first, h.introduced, h.rest, h.back⟩

/-- No statements; what is left may start with a word that heads its line. -/
theorem nil {depth : Nat} {rest : List Lexed} (hlt : rest.length < limit)
    (hback : ∀ back ∈ (none : Option (List Lexed)), back.length < limit)
    (hword : ∀ word after, rest = word :: after → level ≤ depth + 1 → HeadsBelow tokens word after level) :
    LinesWords level tokens (⟨[], depth, none, rest, hlt, hback⟩ : Lines limit) where
  first := by
    intro s hs
    cases hs
  introduced := by
    rw [Statement.listing]
    exact List.forall_mem_nil _
  rest := by
    rintro word after rfl - hahead
    have hlevel : level ≤ depth + 1 := by
      simpa [Lines.staysAhead] using (Bool.and_eq_true_iff.1 hahead).2
    exact ⟨level, [], .refl _ _, .inl (hword word after rfl hlevel)⟩
  back := by
    intro back hback
    cases hback

/-- The lines behind a line break, seen from further in front. -/
theorem behind {tokens' layout : List Lexed} {nl : Lexed} (h : LinesWords level (nl :: tokens) l)
    (hnl : nl.token.kind = .newLine) (hlayout : ∀ t ∈ layout, t.token.kind.isLayout = true)
    (htokens : tokens' = layout ++ nl :: tokens) (hlt : (nl :: tokens).length < limit) :
    LinesWords level tokens' (l.behind (nl :: tokens) hlt) := by
  subst htokens
  have hsuffix : nl :: tokens <:+ layout ++ nl :: tokens := List.suffix_append layout _
  refine ⟨fun s hs => ?_, fun entry hentry => (h.introduced entry hentry).mono hsuffix,
    fun word after hrest helse hahead => (h.rest word after hrest helse hahead).mono hsuffix, ?_⟩
  · obtain ⟨layout', first, after, hlayout', hfirst, htokens⟩ := h.first s hs
    refine ⟨layout ++ layout', first, after, fun t ht => ?_, hfirst, by rw [htokens, List.append_assoc]⟩
    exact (List.mem_append.1 ht).elim (hlayout t) (hlayout' t)
  · rintro _ ⟨⟩
    cases hback : l.back with
    | none =>
        rintro t ⟨⟩
        exact hnl
    | some back => exact h.back back hback

section

variable {limit' : Nat} {s : Statement} {layout after rest : List Lexed} {first : Lexed} {hs : rest.length < limit'}
  (h : StatementWords level first after (⟨s, rest, hs⟩ : Parsed Statement limit'))
  (hfirst : first.token = s.firstToken) (hlayout : ∀ t ∈ layout, t.token.kind.isLayout = true)
  (htokens : tokens = layout ++ first :: after)

include h hfirst hlayout htokens

/-- The last statement, before the word for another branch or before the end of the text. -/
theorem last (hlt : rest.length < limit) (hback : ∀ back ∈ (none : Option (List Lexed)), back.length < limit) :
    LinesWords level tokens (⟨[s], level, none, rest, hlt, hback⟩ : Lines limit) := by
  have hsuffix : first :: after <:+ tokens := ⟨layout, htokens.symm⟩
  refine ⟨?_, ?_, fun word after' hrest helse _ => ?_, ?_⟩
  · rintro _ ⟨⟩
    exact ⟨layout, first, after, hlayout, hfirst, htokens⟩
  · rw [Statement.listing, Statement.listing, List.append_nil]
    exact fun entry hentry => (h.introduced entry hentry).mono hsuffix
  · rcases h.rest word after' hrest helse with ⟨hplain, t, ht, hword⟩ | ⟨b, hb, hleaves⟩
    · exact ⟨level, [s], .refl _ _, .inr ⟨s, t, rfl, hplain, ht, hword.trans hsuffix⟩⟩
    · exact .last rfl hb (hleaves.mono hsuffix)
  · intro back hback
    cases hback

/-- One statement more in front. -/
theorem cons (hrest : rest <:+ tokens) (hl : LinesWords level rest l) :
    LinesWords level tokens { l with statements := s :: l.statements } := by
  have hsuffix : first :: after <:+ tokens := ⟨layout, htokens.symm⟩
  refine ⟨?_, ?_, fun word after' hword helse hahead => ?_, hl.back⟩
  · rintro _ ⟨⟩
    exact ⟨layout, first, after, hlayout, hfirst, htokens⟩
  · rw [Statement.listing, ← List.cons_append]
    intro entry hentry
    rcases List.mem_append.1 hentry with hentry | hentry
    · exact (h.introduced entry hentry).mono hsuffix
    · exact (hl.introduced entry hentry).mono hrest
  · exact ((hl.rest word after' hword helse hahead).mono hrest).cons s

end

end LinesWords

/-- What a block leaves is no word if it is left from a line break on. -/
theorem LinesWords.resume {limit level : Nat} {l : Lines limit} {tokens : List Lexed}
    (h : LinesWords level tokens l) (hnl : ∀ t ∈ tokens.head?, t.token.kind = .newLine) {word : Lexed}
    {after : List Lexed} (hword : l.resume level tokens = word :: after) (helse : word.isElse = true) :
    LeavesWord tokens word after level l.statements := by
  rw [Lines.resume] at hword
  split at hword
  · rename_i hahead
    exact h.rest word after hword helse hahead
  · have hback : ∀ t ∈ (l.back.getD tokens).head?, t.token.kind = .newLine := by
      cases hback : l.back with
      | none => exact hnl
      | some back => exact h.back back hback
    rw [hword] at hback
    cases (hback word rfl).symm.trans (isElse_iff.1 helse)

mutual

theorem statement_words (r : Reading) (level : Nat) (inFunction : Bool) (next : Lexed) (tokens : List Lexed) :
    Ensures (StatementWords level next tokens) (r.statement level inFunction next tokens) := by
  have hsuffix {rest : List Lexed} (h : rest <:+ tokens) : rest <:+ next :: tokens :=
    h.trans (List.suffix_cons next tokens)
  rw [statement]
  dsimp only
  split
  · trivial
  · rename_i name hkind
    refine .skip fun _ => (assignmentOrCall_word r ⟨name, next.token.position⟩ tokens).bind ?_
    rintro p ⟨hplain, hword⟩
    exact .of_endsInWord hplain hword
  · refine .skip fun _ => ?_
    apply (counting_leaves r tokens).read
    intro head rest hlt hrest
    refine (block_words r (Nat.succ_pos level) inFunction rest).bind fun body hbody => ?_
    exact .compound hbody (hsuffix hrest) (by rw [Statement.nested]) rfl (by simp [Statement.firstToken]) rfl
  · refine .skip fun _ => ?_
    apply (condition_leaves r .do_ tokens).read
    intro condition rest hlt hrest
    refine (block_words r (Nat.succ_pos level) inFunction rest).bind fun body hbody => ?_
    exact .compound hbody (hsuffix hrest) (by rw [Statement.nested]) rfl (by simp [Statement.firstToken]) rfl
  · refine .skip fun _ => ?_
    apply (condition_leaves r .then_ tokens).read
    intro condition rest hlt hrest
    have hblock := (block_laid r (level + 1) inFunction rest).and (block_words r (Nat.succ_pos level) inFunction rest)
    refine hblock.bind ?_
    rintro ⟨body, rest', hlt'⟩ ⟨hlaid, hbody⟩
    cases rest' with
    | nil =>
        refine .lacking hbody (hsuffix hrest) _ ?_
        intro word after hword
        cases hword
    | cons word rest' =>
        dsimp only
        split
        · rename_i helse
          have hblock := block_words r (Nat.succ_pos level) inFunction rest'
          refine .skip fun _ => hblock.bind fun otherwise hotherwise => ?_
          exact .both hbody (hsuffix hrest) rfl helse (hsuffix (hlaid.suffix.trans hrest)) hotherwise _
        · rename_i helse
          refine .lacking hbody (hsuffix hrest) _ ?_
          rintro _ _ ⟨⟩
          exact Bool.eq_false_iff.2 helse
  · refine .skip fun _ => ?_
    apply (signature_leaves r tokens).read
    intro signature rest hlt hrest
    refine (block_words r (Nat.succ_pos level) true rest).bind fun body hbody => ?_
    exact .compound hbody (hsuffix hrest) (by rw [Statement.nested]) rfl (by simp [Statement.firstToken]) rfl
  · refine .skip fun _ => ?_
    split
    · split
      · rename_i hbreak
        refine .plain rfl fun word after hrest helse => ?_
        -- Without a value only a line break or the end of the text can follow.
        change tokens = word :: after at hrest
        rw [hrest] at hbreak
        cases (isElse_iff.1 helse).symm.trans (eq_of_beq hbreak)
      · exact (expression_word r false tokens).bind fun p hword => .of_endsInWord rfl hword
    · trivial
  · exact .skip fun _ => (expression_word r false tokens).bind fun p hword => .of_endsInWord rfl hword
  · trivial
  · trivial
termination_by tokens.length + 1
decreasing_by
  · omega
  · omega
  · omega
  · simp only [List.length_cons] at hlt'
    omega
  · omega

theorem block_words (r : Reading) {level : Nat} (hlevel : 0 < level) (inFunction : Bool) (tokens : List Lexed) :
    Ensures (BlockWords level tokens) (r.block level inFunction tokens) := by
  cases tokens with
  | nil =>
      rw [block]
      trivial
  | cons next following =>
      rw [block]
      refine (consume_takes .newLine (.token .newLine)).bind ?_
      rintro ⟨token, rest, hlt⟩ ⟨nl, htokens, -, hclass⟩
      obtain ⟨rfl, rfl⟩ := List.cons.inj htokens
      have hnl := kind_of_class_newLine hclass
      refine (lines_words r hlevel inFunction next hnl following).bind fun found hfound => ?_
      dsimp only
      split
      · trivial
      · rename_i hsome
        refine ⟨?_, hfound.introduced, fun word after hword helse => ?_⟩
        · cases hstatements : found.statements with
          | nil => simp [hstatements, Lines.mono] at hsome
          | cons s others =>
              obtain ⟨layout, first, after, hlayout, hfirst, hsplit⟩ := hfound.first s (by rw [hstatements]; rfl)
              exact ⟨layout, first, after, s, hlayout, by simp [Lines.mono, hstatements], hfirst, hsplit⟩
        · exact (hfound.mono _).resume (by rintro t ⟨⟩; exact hnl) hword helse
termination_by tokens.length
decreasing_by simp only [List.length_cons]; omega

theorem lines_words (r : Reading) {level : Nat} (hlevel : 0 < level) (inFunction : Bool) (nl : Lexed)
    (hnl : nl.token.kind = .newLine) (tokens : List Lexed) :
    Ensures (LinesWords level (nl :: tokens)) (r.lines level inFunction tokens) := by
  cases tokens with
  | nil =>
      rw [lines]
      refine .nil _ _ ?_
      intro word after hword
      cases hword
  | cons next following =>
      rw [lines]
      split
      · rename_i hnext
        refine (margin_takes r hnext following).bind ?_
        rintro ⟨indents, rest, hrest⟩ ⟨hsplit, hindents⟩
        have hlayout : ∀ t ∈ nl :: indents, t.token.kind.isLayout = true := by
          refine List.forall_mem_cons.2 ⟨by rw [hnl]; rfl, fun t ht => ?_⟩
          rw [hindents t ht]
          rfl
        have htokens : nl :: next :: following = nl :: indents ++ rest := congrArg (List.cons nl) hsplit
        cases rest with
        | nil =>
            refine .nil _ _ ?_
            intro word after hword
            cases hword
        | cons first after =>
            have hafter : after.length < following.length := Nat.lt_of_succ_lt_succ hrest
            dsimp only
            split
            · rename_i hkind
              refine .skip fun _ => (lines_words r hlevel inFunction first hkind after).bind fun found hfound => ?_
              exact (hfound.mono _).behind hkind hlayout htokens _
            · split
              · rename_i hdeep
                refine .nil _ _ ?_
                rintro _ _ ⟨⟩ hlevel
                exact ⟨nl, indents, hnl, hindents, by omega, [], htokens.symm⟩
              · split
                · trivial
                · have hstatement := (statement_laid r level inFunction first after).and
                    (statement_words r level inFunction first after)
                  refine hstatement.bind ?_
                  rintro ⟨s, rest, hlt⟩ ⟨⟨hfirst, hlaid⟩, hs⟩
                  have hbehind : rest <:+ nl :: next :: following := by
                    rw [htokens]
                    exact (hlaid.suffix.trans (List.suffix_cons first after)).trans (List.suffix_append _ _)
                  dsimp only
                  split
                  · exact .last hs hfirst hlayout htokens _ _
                  · refine (consume_takes .newLine (.token .newLine)).bind ?_
                    rintro ⟨token, behind, hlt'⟩ ⟨nl', hrest', -, hclass⟩
                    have hkind := kind_of_class_newLine hclass
                    dsimp only at hrest'
                    refine (lines_words r hlevel inFunction nl' hkind behind).bind fun found hfound => ?_
                    subst hrest'
                    refine .cons hs hfirst hlayout htokens hbehind ?_
                    exact (hfound.mono _).behind hkind (List.forall_mem_nil _) (List.nil_append _).symm _
      · refine .nil _ _ ?_
        rintro _ _ ⟨⟩ hlevel'
        exact ⟨nl, [], hnl, List.forall_mem_nil _, by simp only [List.length_nil]; omega, List.suffix_refl _⟩
termination_by tokens.length
decreasing_by
  all_goals simp only [List.length_cons]
  all_goals omega

end

/-- The statements of a whole text. -/
theorem statements_words (r : Reading) (tokens : List Lexed) :
    Ensures (fun program => ∀ entry ∈ Statement.listing 0 program, Introduced tokens entry)
      (r.statements tokens) := by
  cases tokens with
  | nil =>
      rw [statements]
      change ∀ entry ∈ Statement.listing 0 [], _
      rw [Statement.listing]
      exact List.forall_mem_nil _
  | cons next rest =>
      rw [statements]
      split
      · refine .skip fun _ => (statements_words r rest).imp fun program h entry hentry => ?_
        exact (h entry hentry).mono (List.suffix_cons next rest)
      · refine ((statement_laid r 0 false next rest).and (statement_words r 0 false next rest)).bind ?_
        rintro ⟨s, rest', hlt⟩ ⟨⟨-, hlaid⟩, hs⟩
        dsimp only
        split
        · change ∀ entry ∈ Statement.listing 0 [s], _
          rw [Statement.listing, Statement.listing, List.append_nil]
          exact hs.introduced
        · refine (consume_takes .newLine (.token .newLine)).bind ?_
          rintro ⟨token, behind, hlt'⟩ ⟨nl, hrest, -, -⟩
          refine (statements_words r behind).bind fun program hprogram => ?_
          have hbehind : behind <:+ next :: rest :=
            (List.suffix_cons nl behind).trans (hrest ▸ hlaid.suffix.trans (List.suffix_cons next rest))
          change ∀ entry ∈ Statement.listing 0 (s :: program), _
          rw [Statement.listing, ← List.cons_append]
          intro entry hentry
          rcases List.mem_append.1 hentry with hentry | hentry
          · exact hs.introduced entry hentry
          · exact (hprogram entry hentry).mono hbehind
termination_by tokens.length
decreasing_by
  all_goals simp only [List.length_cons]
  all_goals omega

end Reading

/-! ### Words among the lines -/

/-- The word for the other branch of a condition among the tokens of a source: behind it, only layout is in front
of the first statement of the branch. -/
structure Introduction (source : Source) (otherwise : Block) where
  before : List Token
  word : Token
  layout : List Token
  first : Statement
  after : List Token
  kind_word : word.kind = .keyword .else_
  isLayout_layout : ∀ t ∈ layout, t.kind.isLayout = true
  head_otherwise : otherwise.head? = some first
  tokens_eq : (Stream.ofSource source).tokens.map Lexed.token
    = before ++ word :: (layout ++ first.firstToken :: after)

namespace Introduction

variable {source : Source} {otherwise : Block}

/-- The word is the first token of its line that is no layout, and the line is indented so deep. -/
structure Heads (i : Introduction source otherwise) (depth : Nat) : Prop where
  first : ∀ t ∈ i.before, t.position.line = i.word.position.line → t.kind.isLayout = true
  line : LineHead source i.word.position.line depth i.word

/-- The word follows another one on its line, and the last statement of a block is a plain one. -/
structure Follows (i : Introduction source otherwise) (b : Block) : Prop where
  token : ∃ t ∈ i.before.getLast?, t.kind.isLayout = false ∧ t.position.line = i.word.position.line
  statement : ∃ s ∈ b.getLast?, s.isPlain = true

theorem Follows.not_heads {i : Introduction source otherwise} {b : Block} (h : i.Follows b) (depth : Nat) :
    ¬ i.Heads depth := by
  intro hheads
  obtain ⟨t, ht, hlayout, hline⟩ := h.token
  cases hlayout.symm.trans (hheads.first t (List.mem_of_getLast? ht) hline)

end Introduction

section

variable {source : Source} {otherwise inner : Block} {i : Introduction source otherwise}
  {tokens front after : List Lexed} {word : Lexed}
  (htext : tokens.map Lexed.token = (scanLines source source.lines.length 0).tokens)
  (htokens : tokens = front ++ word :: after) (hbefore : i.before = front.map Lexed.token)
  (hword : i.word = word.token)

include htext htokens hbefore hword

theorem heads_of_headsBelow {level : Nat} (h : HeadsBelow tokens word after (level + 1)) : i.Heads level := by
  obtain ⟨nl, indents, hnl, hindents, hlevel, front', hfront'⟩ := h
  have hfront : front = front' ++ nl :: indents := by
    have hsame : front ++ word :: after = (front' ++ nl :: indents) ++ word :: after := by
      rw [← htokens, ← hfront']
      simp
    exact List.append_cancel_right hsame
  have hindents' : ∀ t ∈ indents.map Lexed.token, t.kind = .indentation := by
    intro t ht
    obtain ⟨t', ht', rfl⟩ := List.mem_map.1 ht
    exact hindents t' ht'
  have hsplit : (scanLines source source.lines.length 0).tokens = front'.map Lexed.token
      ++ nl.token :: (indents.map Lexed.token ++ i.word :: after.map Lexed.token) := by
    rw [← htext, ← hfront', hword]
    simp
  have hlayout : i.word.kind.isLayout = false := by
    rw [i.kind_word]
    rfl
  obtain ⟨j, hhead, hearlier⟩ := exists_lineHead_of_newLine hnl hindents' hlayout hsplit
  rw [List.length_map, Nat.succ.inj hlevel] at hhead
  have hline := hhead.line
  refine ⟨fun t ht hsame => ?_, hline ▸ hhead⟩
  rw [hbefore, hfront, List.map_append, List.map_cons] at ht
  rcases List.mem_append.1 ht with ht | ht
  · have := hearlier t ht
    omega
  · rcases List.mem_cons.1 ht with rfl | ht
    · rw [hnl]
      rfl
    · rw [hindents' t ht]
      rfl

theorem follows_of_followsPlain (h : FollowsPlain tokens word after inner) : i.Follows inner := by
  obtain ⟨s, t, hs, hplain, ht, front', hfront'⟩ := h
  have hfront : front = front' ++ [t] := by
    have hsame : front ++ word :: after = (front' ++ [t]) ++ word :: after := by
      rw [← htokens, ← hfront']
      simp
    exact List.append_cancel_right hsame
  have hsplit : (scanLines source source.lines.length 0).tokens
      = front'.map Lexed.token ++ t.token :: i.word :: after.map Lexed.token := by
    rw [← htext, ← hfront', hword]
    simp
  have hkind : i.word.kind ≠ .newLine := by
    rw [i.kind_word]
    exact Token.Kind.noConfusion
  refine ⟨⟨t.token, ?_, ht, line_eq_of_neighbours hkind hsplit⟩, s, hs, hplain⟩
  rw [hbefore, hfront]
  simp

end

/-- In a text that is a program, a condition heads a line that is indented as deep as the condition is nested.
The word for its other branch heads a line that is indented as deep as a block that ends the first branch is
nested less one, or it follows the plain statement that such a block ends with on its line. So the word heads a
line that is indented as the line of its condition exactly if this block is the first branch itself and the word
does not follow its last statement. -/
theorem otherwise_introduced {text : String} {program : Program} (h : Program.ofText text = .ok program)
    {depth : Nat} {condition : Expr} {body otherwise : Block} {place : Position}
    (hbranch : (depth, Statement.branch condition body (some otherwise) place) ∈ Statement.listing 0 program) :
    LineHead (Source.ofText text) place.line depth ⟨.keyword .if_, place⟩
      ∧ ∃ (i : Introduction (Source.ofText text) otherwise) (level : Nat) (inner : Block),
        EndsWith (depth + 1) body (level + 1) inner ∧ (i.Heads level ∨ i.Follows inner)
          ∧ (i.Heads depth ↔ level = depth ∧ ¬ i.Follows inner) := by
  rw [Program.ofText, Program.ofSource, bind_eq_ok] at h
  obtain ⟨-, -, h⟩ := h
  have htext := tokens_eq_scanLines (Reading.head_of_statements _ h)
  have hlaid := (Reading.statements_laid _ ⟨⟨.newLine, ⟨0, 0⟩⟩, .start⟩ rfl _).of_eq_ok h
  refine ⟨((headsLine_of_laid htext hlaid (List.nil_append _).symm).1 _ hbranch).1, ?_⟩
  have hintroduced := (Reading.statements_words _ _).of_eq_ok h _ hbranch
  obtain ⟨word, layout, first, after, s, hword, hlayout, hs, hfirst, ⟨front, hfront⟩, hleaves⟩ :=
    hintroduced condition body otherwise place rfl
  obtain ⟨level', inner, hends, hwhere⟩ := hleaves
  let i : Introduction (Source.ofText text) otherwise :=
    { before := front.map Lexed.token
      word := word.token
      layout := layout.map Lexed.token
      first := s
      after := after.map Lexed.token
      kind_word := hword
      isLayout_layout := List.forall_mem_map.2 hlayout
      head_otherwise := hs
      tokens_eq := by
        rw [← hfront, ← hfirst]
        simp }
  cases level' with
  | zero => exact absurd hends.le (Nat.not_succ_le_zero depth)
  | succ level =>
      refine ⟨i, level, inner, hends, ?_⟩
      rcases hwhere with hbelow | hplain
      · have hheads : i.Heads level := heads_of_headsBelow htext hfront.symm rfl rfl hbelow
        refine ⟨.inl hheads, fun hdepth => ⟨?_, fun hfollows => hfollows.not_heads level hheads⟩, ?_⟩
        · exact hheads.line.depth.symm.trans hdepth.line.depth
        · rintro ⟨rfl, -⟩
          exact hheads
      · have hfollows : i.Follows inner := follows_of_followsPlain htext hfront.symm rfl rfl hplain
        exact ⟨.inr hfollows, fun hdepth => absurd hdepth (hfollows.not_heads depth), fun h => absurd hfollows h.2⟩

/-- The place of a condition with both branches that is a whole program. -/
def onlyCondition? : Program → Option Position
  | [.branch _ _ (some _) place] => some place
  | _ => none

theorem exists_branch_of_onlyCondition? {text : String} {place : Position}
    (h : (Program.ofText text).map onlyCondition? = .ok (some place)) :
    ∃ program condition body otherwise, Program.ofText text = .ok program
      ∧ (0, Statement.branch condition body (some otherwise) place) ∈ Statement.listing 0 program := by
  cases hprogram : Program.ofText text with
  | error e =>
      rw [hprogram] at h
      cases h
  | ok program =>
      rw [hprogram] at h
      replace h : onlyCondition? program = some place := Except.ok.inj h
      rw [onlyCondition?.eq_def] at h
      split at h
      · rename_i condition body otherwise place
        cases h
        refine ⟨_, condition, body, otherwise, rfl, ?_⟩
        rw [Statement.listing]
        exact List.mem_cons_self
      · cases h

/-- The other branch of a condition whose first branch ends in a plain statement on an earlier line. -/
theorem otherwise_introduced_below :
    let text := "jeżeli PRAWDA to\n    wypisz \"a\"\nw przeciwnym razie\n    wypisz \"b\""
    ∃ program condition body otherwise, Program.ofText text = .ok program
      ∧ (0, Statement.branch condition body (some otherwise) ⟨0, 0⟩) ∈ Statement.listing 0 program
      ∧ LineHead (Source.ofText text) 0 0 ⟨.keyword .if_, ⟨0, 0⟩⟩
      ∧ ∃ (i : Introduction (Source.ofText text) otherwise) (level : Nat) (inner : Block),
        EndsWith 1 body (level + 1) inner ∧ (i.Heads level ∨ i.Follows inner)
          ∧ (i.Heads 0 ↔ level = 0 ∧ ¬ i.Follows inner) := by
  intro text
  have hshape : (Program.ofText text).map onlyCondition? = .ok (some ⟨0, 0⟩) := by
    decide +kernel
  obtain ⟨program, condition, body, otherwise, h, hbranch⟩ := exists_branch_of_onlyCondition? hshape
  exact ⟨program, condition, body, otherwise, h, hbranch, otherwise_introduced h hbranch⟩

/-- Behind a loop that ends the first branch, the word for the other branch may stand on a line that is indented
deeper than the line of the condition. -/
theorem not_heads_behind_loop :
    let text := "jeżeli PRAWDA to\n    dopóki FAŁSZ wykonuj\n        wypisz 1\n    w przeciwnym razie\n    wypisz 2"
    ∃ program condition body otherwise, Program.ofText text = .ok program
      ∧ (0, Statement.branch condition body (some otherwise) ⟨0, 0⟩) ∈ Statement.listing 0 program
      ∧ ∀ (i : Introduction (Source.ofText text) otherwise) (depth : Nat),
        LineHead (Source.ofText text) 0 depth ⟨.keyword .if_, ⟨0, 0⟩⟩ → ¬ i.Heads depth := by
  intro text
  have hshape : (Program.ofText text).map onlyCondition? = .ok (some ⟨0, 0⟩) := by
    decide +kernel
  have hwords : ∀ t ∈ (Stream.ofSource (Source.ofText text)).tokens.map Lexed.token,
      t.kind = .keyword .else_ → t.position.line = 3 := by
    decide +kernel
  have hdepths : indentDepth ((Source.ofText text).line 0) ≠ indentDepth ((Source.ofText text).line 3) := by
    decide +kernel
  obtain ⟨program, condition, body, otherwise, h, hbranch⟩ := exists_branch_of_onlyCondition? hshape
  refine ⟨program, condition, body, otherwise, h, hbranch, fun i depth hcondition hheads => ?_⟩
  have hmem : i.word ∈ (Stream.ofSource (Source.ofText text)).tokens.map Lexed.token := by
    rw [i.tokens_eq]
    simp
  have hline := hheads.line.depth
  rw [hwords i.word hmem i.kind_word] at hline
  exact hdepths (hcondition.depth.trans hline.symm)

end PolishPseudocode
