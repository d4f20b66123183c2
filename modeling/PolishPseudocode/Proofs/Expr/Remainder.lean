import PolishPseudocode.Proofs.Outcome
import PolishPseudocode.Program.Reader

/-! What reading leaves. Every reader of an expression, and of the parts of a statement up to its block, takes
tokens from the front and leaves the others as they are. -/

namespace PolishPseudocode

/-- What is left is the end of what there was. -/
def Parsed.Leaves {α : Type} {limit : Nat} (tokens : List Lexed) (p : Parsed α limit) : Prop :=
  p.rest <:+ tokens

/-- The next step goes on with what a reader has left. -/
theorem Ensures.read {α β : Type} {limit : Nat} {tokens : List Lexed} {property : β → Prop}
    {first : Except SyntaxError (Parsed α limit)} {next : Parsed α limit → Except SyntaxError β}
    (h : Ensures (Parsed.Leaves tokens) first)
    (hnext : ∀ value rest hlt, rest <:+ tokens → Ensures property (next ⟨value, rest, hlt⟩)) :
    Ensures property (first >>= next) :=
  h.bind fun p hp => hnext p.value p.rest p.rest_lt hp

namespace Reading

variable {r : Reading} {tokens : List Lexed}

/-- What is taken is the next token, of the class asked for. -/
theorem consume_takes (kind : Token.Class) (expected : Expected) :
    Ensures (fun p => ∃ next, tokens = next :: p.rest ∧ next.token = p.value ∧ next.token.kind.class = kind)
      (r.consume kind expected tokens) := by
  cases tokens with
  | nil => trivial
  | cons next rest =>
      rw [consume]
      split
      · rename_i hkind
        exact .skip fun _ => ⟨next, rfl, rfl, hkind⟩
      · trivial

theorem consume_leaves (kind : Token.Class) (expected : Expected) :
    Ensures (Parsed.Leaves tokens) (r.consume kind expected tokens) := by
  exact (consume_takes kind expected).imp fun p ⟨next, htokens, _⟩ => ⟨[next], htokens.symm⟩

theorem delimiter_leaves (pair : Delimiter) (side : Side) :
    Ensures (Parsed.Leaves tokens) (r.delimiter pair side tokens) := by
  apply (consume_leaves _ _).read
  intro token rest hlt hrest
  dsimp only
  split
  · split
    · exact hrest
    · trivial
  · trivial

theorem keyword_leaves (word : Keyword) : Ensures (Parsed.Leaves tokens) (r.keyword word tokens) := by
  apply (consume_leaves _ _).read
  intro token rest hlt hrest
  dsimp only
  split
  · split
    · exact hrest
    · trivial
  · trivial

theorem name_leaves : Ensures (Parsed.Leaves tokens) (r.name tokens) := by
  apply (consume_leaves _ _).read
  intro token rest hlt hrest
  dsimp only
  split
  · exact hrest
  · trivial

/-! ### Expressions -/

mutual

theorem item_leaves (r : Reading) (inCall : Bool) (sofar : Gathered) (next : Lexed) (tokens : List Lexed) :
    Ensures (Parsed.Leaves tokens) (r.item inCall sofar next tokens) := by
  have hall : tokens <:+ tokens := List.suffix_refl tokens
  rw [item]
  split
  · exact .skip fun _ => hall
  · exact .skip fun _ => hall
  · exact .skip fun _ => hall
  · exact .skip fun _ => hall
  · exact .skip fun _ => hall
  · refine .skip fun _ => ?_
    split
    · exact (arguments_leaves r tokens).read fun arguments rest hlt hrest => hrest
    · exact hall
  · exact .skip fun _ => hall
  · refine .skip fun _ => ?_
    exact (indexInside_leaves r inCall tokens).read fun index rest hlt hrest => hrest
  · trivial
  · trivial
termination_by 6 * tokens.length + 6

theorem gather_leaves (r : Reading) (inCall : Bool) (sofar : Gathered) (next : Lexed) (tokens : List Lexed) :
    Ensures (Parsed.Leaves tokens) (r.gather inCall sofar next tokens) := by
  rw [gather]
  apply (item_leaves r inCall sofar next tokens).read
  intro sofar rest hlt hrest
  cases rest with
  | nil => exact hrest
  | cons next rest =>
      dsimp only
      split
      · exact hrest
      · have hbehind : rest <:+ tokens := (List.suffix_cons next rest).trans hrest
        apply (gather_leaves r inCall sofar next rest).read
        intro all rest' hlt' hrest'
        exact hrest'.trans hbehind
termination_by 6 * tokens.length + 7
decreasing_by
  · omega
  · have := hrest.length_le
    simp only [List.length_cons] at this
    omega

theorem expression_leaves (r : Reading) (inCall : Bool) (tokens : List Lexed) :
    Ensures (Parsed.Leaves tokens) (r.expression inCall tokens) := by
  cases tokens with
  | nil =>
      rw [expression]
      trivial
  | cons next tokens =>
      rw [expression]
      apply (gather_leaves r inCall _ next tokens).read
      intro all rest hlt hrest
      dsimp only
      split
      · split <;> trivial
      · exact .skip fun _ => hrest.trans (List.suffix_cons next tokens)
termination_by 6 * tokens.length + 2

theorem indexInside_leaves (r : Reading) (inCall : Bool) (tokens : List Lexed) :
    Ensures (Parsed.Leaves tokens) (r.indexInside inCall tokens) := by
  rw [indexInside]
  apply (expression_leaves r inCall tokens).read
  intro index rest hlt hrest
  apply (delimiter_leaves .bracket .closing).read
  intro _ rest' hlt' hrest'
  exact hrest'.trans hrest
termination_by 6 * tokens.length + 3

theorem someArguments_leaves (r : Reading) (tokens : List Lexed) :
    Ensures (Parsed.Leaves tokens) (r.someArguments tokens) := by
  rw [someArguments]
  apply (expression_leaves r true tokens).read
  intro first rest hlt hrest
  cases rest with
  | nil => trivial
  | cons next rest =>
      dsimp only
      split
      · exact .skip fun _ => (List.suffix_cons next rest).trans hrest
      · apply (consume_leaves .comma (.token .comma)).read
        intro _ rest' hlt' hrest'
        have hbehind : rest' <:+ tokens := hrest'.trans hrest
        have hothers := someArguments_leaves r rest'
        cases rest' with
        | nil => exact hothers.read fun others rest hlt hrest => hrest.trans hbehind
        | cons after rest' =>
            dsimp only [List.head?_cons]
            split
            · trivial
            · exact hothers.read fun others rest hlt hrest => hrest.trans hbehind
termination_by 6 * tokens.length + 3

theorem arguments_leaves (r : Reading) (tokens : List Lexed) :
    Ensures (Parsed.Leaves tokens) (r.arguments tokens) := by
  cases tokens with
  | nil =>
      rw [arguments]
      exact someArguments_leaves r []
  | cons next rest =>
      rw [arguments]
      split
      · exact .skip fun _ => List.suffix_cons next rest
      · exact someArguments_leaves r (next :: rest)
termination_by 6 * tokens.length + 4

end

/-! ### Heads of statements -/

theorem condition_leaves (r : Reading) (word : Keyword) (tokens : List Lexed) :
    Ensures (Parsed.Leaves tokens) (r.condition word tokens) := by
  apply (expression_leaves r false tokens).read
  intro e rest hlt hrest
  exact (keyword_leaves word).read fun _ rest' hlt' hrest' => hrest'.trans hrest

theorem counting_leaves (r : Reading) (tokens : List Lexed) :
    Ensures (Parsed.Leaves tokens) (r.counting tokens) := by
  apply name_leaves.read
  intro counter rest₁ _ h₁
  apply (keyword_leaves .equals).read
  intro _ rest₂ _ h₂
  apply (expression_leaves r false rest₂).read
  intro start rest₃ _ h₃
  apply (consume_leaves .comma (.token .comma)).read
  intro _ rest₄ _ h₄
  apply (expression_leaves r false rest₄).read
  intro second rest₅ _ h₅
  apply (consume_leaves .comma (.token .comma)).read
  intro _ rest₆ _ h₆
  apply (consume_leaves .ellipsis (.token .ellipsis)).read
  intro _ rest₇ _ h₇
  apply (consume_leaves .comma (.token .comma)).read
  intro _ rest₈ _ h₈
  apply (condition_leaves r .do_ rest₈).read
  intro last rest₉ _ h₉
  exact (((((((h₉.trans h₈).trans h₇).trans h₆).trans h₅).trans h₄).trans h₃).trans h₂).trans h₁

theorem parameters_leaves (r : Reading) (tokens : List Lexed) :
    Ensures (Parsed.Leaves tokens) (r.parameters tokens) := by
  rw [parameters]
  split
  · exact List.suffix_refl tokens
  · apply name_leaves.read
    intro first rest₁ hlt₁ h₁
    dsimp only
    split
    · exact h₁
    · apply (consume_leaves .comma (.token .comma)).read
      intro _ rest₂ hlt₂ h₂
      exact (parameters_leaves r rest₂).read fun others rest₃ _ h₃ => (h₃.trans h₂).trans h₁
termination_by tokens.length
decreasing_by omega

theorem signature_leaves (r : Reading) (tokens : List Lexed) :
    Ensures (Parsed.Leaves tokens) (r.signature tokens) := by
  apply name_leaves.read
  intro name rest₁ _ h₁
  apply (delimiter_leaves .parenthesis .opening).read
  intro _ rest₂ _ h₂
  apply (parameters_leaves r rest₂).read
  intro parameters rest₃ _ h₃
  apply (delimiter_leaves .parenthesis .closing).read
  intro _ rest₄ _ h₄
  exact ((h₄.trans h₃).trans h₂).trans h₁

end Reading

end PolishPseudocode
