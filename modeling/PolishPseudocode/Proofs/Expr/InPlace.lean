import PolishPseudocode.Proofs.Expr.Reduced

/-! The passes of a reduction in place, on one list with an index into it. A pass that joins terms writes the tree over
the operator and removes the operands, so what is behind them moves up. Every place that a pass asks for is one of the
list, and the passes are those that build a new list: it is the terms up to the index that a binary pass has done, in
order, and the terms from the index on that a prefix pass has. -/

namespace PolishPseudocode

namespace Reduction.InPlace

/-- Why a pass stops: the expression is refused, or the pass went astray, to a place that the list does not have or to
another term than the one it looked at. -/
inductive Halt where
  | refused (e : SyntaxError)
  | astray

def get (terms : List Term) (i : Nat) : Except Halt Term :=
  match terms[i]? with
  | some term => .ok term
  | none => .error .astray

def put (terms : List Term) (i : Nat) (term : Term) : Except Halt (List Term) :=
  if i < terms.length then .ok (terms.set i term) else .error .astray

def remove (terms : List Term) (i : Nat) : Except Halt (Term × List Term) :=
  match terms[i]? with
  | some term => .ok (term, terms.eraseIdx i)
  | none => .error .astray

/-- Removes the operand at a place. Anything else that may stand there, or nothing, is left alone. -/
def takeOperand (terms : List Term) (i : Nat) : Except Halt (Option Expr × List Term) :=
  match terms[i]? with
  | some (.operand _) => do
      match ← remove terms i with
      | (.operand e, rest) => return (some e, rest)
      | (.operator _ _, _) => .error .astray
  | _ => .ok (none, terms)

/-- Whether nothing before the minus at a place could be its left operand. -/
def isLeading (terms : List Term) (i : Nat) : Except Halt Bool :=
  if i = 0 then .ok true
  else do
    let before ← get terms (i - 1)
    return before.isOperator

/-- What a prefix pass does at one place. -/
def prefixRound (op : Operator) (applies : List Term → Nat → Except Halt Bool) (build : Expr → Position → Expr)
    (terms : List Term) (i : Nat) : Except Halt (List Term) := do
  match ← get terms i with
  | .operand _ => return terms
  | .operator found p =>
      if found = op then
        if ← applies terms i then
          match ← takeOperand terms (i + 1) with
          | (some e, terms) => put terms i (.operand (build e p))
          | (none, _) => .error (.refused ⟨.missingOperand (some found), p⟩)
        else return terms
      else return terms

/-- A prefix pass over the first places, from the last of them on. -/
def applyPrefix (op : Operator) (applies : List Term → Nat → Except Halt Bool) (build : Expr → Position → Expr) :
    Nat → List Term → Except Halt (List Term)
  | 0, terms => .ok terms
  | i + 1, terms => do
      let terms ← prefixRound op applies build terms i
      applyPrefix op applies build i terms

/-- Joins the operands around a binary operator, over the place of the left one; behind it stands what was behind the
right one, which is the place that the pass looks at next. -/
def join (op : BinaryOp) (p : Position) (i : Nat) (terms : List Term) : Except Halt (Nat × List Term) := do
  if i = 0 then .error (.refused ⟨.missingOperand (some (.binary op)), p⟩)
  else
    match ← takeOperand terms (i + 1) with
    | (none, _) => .error (.refused ⟨.missingOperand (some (.binary op)), p⟩)
    | (some right, terms) =>
        match ← takeOperand terms (i - 1) with
        | (none, _) => .error (.refused ⟨.missingOperand (some (.binary op)), p⟩)
        | (some left, terms) => do
            let terms ← put terms (i - 1) (.operand (.binary left op right p))
            return (i, terms)

/-- What a binary pass does at one place, and the place it looks at next. -/
def tierRound (tier : BinaryOp → Bool) (i : Nat) (terms : List Term) : Except Halt (Nat × List Term) := do
  match ← get terms i with
  | .operator (.binary op) p => if tier op then join op p i terms else return (i + 1, terms)
  | _ => return (i + 1, terms)

/-! ### Places of the list

A list is cut at the index: the terms before it, the one at it and those behind it. -/

theorem get_append (pre : List Term) (term : Term) (post : List Term) :
    get (pre ++ term :: post) pre.length = .ok term := by
  unfold get
  rw [List.getElem?_append_right (Nat.le_refl _), Nat.sub_self]
  rfl

theorem put_append (pre : List Term) (term term' : Term) (post : List Term) :
    put (pre ++ term :: post) pre.length term' = .ok (pre ++ term' :: post) := by
  have hlt : pre.length < (pre ++ term :: post).length := by simp
  unfold put
  rw [if_pos hlt, List.set_append_right _ _ (Nat.le_refl _), Nat.sub_self]
  rfl

/-- Taking an operand never goes astray. -/
theorem takeOperand_eq (terms : List Term) (i : Nat) :
    takeOperand terms i = .ok (match terms[i]? with
      | some (.operand e) => (some e, terms.eraseIdx i)
      | _ => (none, terms)) := by
  unfold takeOperand remove
  cases terms[i]? with
  | none => rfl
  | some term => cases term <;> rfl

/-- What is taken from the place behind one. -/
theorem takeOperand_next (pre : List Term) (term : Term) (post : List Term) :
    takeOperand (pre ++ term :: post) (pre.length + 1) = .ok (match post with
      | .operand e :: post => (some e, pre ++ term :: post)
      | _ => (none, pre ++ term :: post)) := by
  have hget : (pre ++ term :: post)[pre.length + 1]? = post.head? := by
    rw [List.getElem?_append_right (Nat.le_add_right _ 1), Nat.add_sub_cancel_left]
    cases post <;> rfl
  have herase : (pre ++ term :: post).eraseIdx (pre.length + 1) = pre ++ term :: post.tail := by
    rw [List.eraseIdx_append_of_length_le (Nat.le_add_right _ 1), Nat.add_sub_cancel_left]
    cases post <;> rfl
  rw [takeOperand_eq, hget, herase]
  cases post with
  | nil => rfl
  | cons next post => cases next <;> rfl

/-- What is taken from the place of a term itself. -/
theorem takeOperand_append (pre : List Term) (term : Term) (post : List Term) :
    takeOperand (pre ++ term :: post) pre.length = .ok (match term with
      | .operand e => (some e, pre ++ post)
      | .operator _ _ => (none, pre ++ term :: post)) := by
  have hget : (pre ++ term :: post)[pre.length]? = some term := by
    rw [List.getElem?_append_right (Nat.le_refl _), Nat.sub_self]
    rfl
  have herase : (pre ++ term :: post).eraseIdx pre.length = pre ++ post := by
    rw [List.eraseIdx_append_of_length_le (Nat.le_refl _), Nat.sub_self]
    rfl
  rw [takeOperand_eq, hget, herase]
  cases term <;> rfl

/-- Looking before a minus stays in the list. -/
theorem isLeading_append (pre : List Term) (term : Term) (post : List Term) :
    isLeading (pre ++ term :: post) pre.length = .ok (Reduction.isLeading pre.getLast?) := by
  unfold isLeading
  obtain rfl | ⟨pre, before, rfl⟩ := List.eq_nil_or_concat pre
  · rfl
  · rw [List.concat_eq_append]
    have hne : ¬ (pre ++ [before]).length = 0 := by simp
    rw [if_neg hne, List.length_append, List.length_singleton, Nat.add_sub_cancel, List.append_assoc,
      List.singleton_append, get_append, List.getLast?_concat]
    rfl

/-- A step behind another one, with the refusals of both told apart from going astray. -/
theorem mapError_bind {α β : Type} (first : Except SyntaxError α) (next : α → Except SyntaxError β) :
    (first >>= next).mapError Halt.refused
      = first.mapError Halt.refused >>= fun a => (next a).mapError Halt.refused := by
  cases first <;> rfl

/-! ### Prefix passes -/

section Prefix

variable {op : Operator} {applies : List Term → Nat → Except Halt Bool} {applies' : Option Term → Bool}
  {build : Expr → Position → Expr}

/-- The test of a pass looks at a list the way the test of the other one looks at the term before. -/
def Tests (applies : List Term → Nat → Except Halt Bool) (applies' : Option Term → Bool) : Prop :=
  ∀ pre term post, applies (pre ++ term :: post) pre.length = .ok (applies' pre.getLast?)

/-- What a prefix operator makes of the terms behind it. -/
def applyTo (op : Operator) (build : Expr → Position → Expr) (p : Position) :
    List Term → Except SyntaxError (List Term)
  | .operand e :: rest => .ok (.operand (build e p) :: rest)
  | _ => .error ⟨.missingOperand (some op), p⟩

/-- What a prefix pass makes of a term once those behind it are done. -/
def applyAt (op : Operator) (applies' : Option Term → Bool) (build : Expr → Position → Expr) (before : Option Term) :
    Term → List Term → Except SyntaxError (List Term)
  | .operand e, rest => .ok (.operand e :: rest)
  | .operator found p, rest =>
      if found = op ∧ applies' before then applyTo op build p rest else .ok (.operator found p :: rest)

theorem applyPrefix_cons (before : Option Term) (term : Term) (rest : List Term) :
    Reduction.applyPrefix op applies' build before (term :: rest)
      = Reduction.applyPrefix op applies' build (some term) rest >>= applyAt op applies' build before term := by
  rw [Reduction.applyPrefix]
  cases Reduction.applyPrefix op applies' build (some term) rest with
  | error e => rfl
  | ok rest =>
      cases term with
      | operand e => rfl
      | operator found p => cases rest <;> rfl

/-- A round at the last of the terms that are not done yet. -/
theorem prefixRound_append (h : Tests applies applies') (pre : List Term) (term : Term) (post : List Term) :
    prefixRound op applies build (pre ++ term :: post) pre.length
      = (applyAt op applies' build pre.getLast? term post).mapError Halt.refused
          >>= fun post => .ok (pre ++ post) := by
  unfold prefixRound
  rw [get_append]
  cases term with
  | operand e => rfl
  | operator found p =>
      show (if found = op then applies (pre ++ .operator found p :: post) pre.length >>= _ else _) = _
      rw [applyAt]
      by_cases hfound : found = op
      · rw [if_pos hfound, h]
        by_cases happlies : applies' pre.getLast? = true
        · rw [happlies, if_pos ⟨hfound, rfl⟩]
          show (takeOperand (pre ++ .operator found p :: post) (pre.length + 1) >>= _) = _
          rw [takeOperand_next, hfound]
          cases post with
          | nil => rfl
          | cons next post =>
              cases next with
              | operand e => exact put_append pre _ _ post
              | operator op' p' => rfl
        · rw [eq_false_of_ne_true happlies, if_neg (by simp)]
          rfl
      · rw [if_neg hfound, if_neg fun hand => hfound hand.1]
        rfl

/-- The passes agree from any place on: the terms before it are not looked at yet. -/
theorem applyPrefix_append (h : Tests applies applies') (pre rest : List Term) :
    applyPrefix op applies build (pre.length + rest.length) (pre ++ rest)
      = (Reduction.applyPrefix op applies' build pre.getLast? rest).mapError Halt.refused
          >>= fun rest => applyPrefix op applies build pre.length (pre ++ rest) := by
  induction rest generalizing pre with
  | nil => rfl
  | cons term rest ih =>
      have hcut : pre ++ term :: rest = (pre ++ [term]) ++ rest := by simp
      have hlength : pre.length + (term :: rest).length = (pre ++ [term]).length + rest.length := by
        simp only [List.length_cons, List.length_append, List.length_nil]
        omega
      rw [hcut, hlength, ih, List.getLast?_concat, applyPrefix_cons, mapError_bind]
      cases Reduction.applyPrefix op applies' build (some term) rest with
      | error e => rfl
      | ok rest =>
          show applyPrefix op applies build (pre ++ [term]).length ((pre ++ [term]) ++ rest) = _
          rw [List.length_append, List.length_singleton, applyPrefix, List.append_assoc, List.singleton_append,
            prefixRound_append h]
          show _ = (applyAt op applies' build pre.getLast? term rest).mapError Halt.refused >>= _
          cases applyAt op applies' build pre.getLast? term rest <;> rfl

theorem applyPrefix_eq (h : Tests applies applies') (terms : List Term) :
    applyPrefix op applies build terms.length terms
      = (Reduction.applyPrefix op applies' build none terms).mapError Halt.refused := by
  calc applyPrefix op applies build terms.length terms
      = applyPrefix op applies build (([] : List Term).length + terms.length) ([] ++ terms) := by
        rw [List.length_nil, Nat.zero_add, List.nil_append]
    _ = (Reduction.applyPrefix op applies' build none terms).mapError Halt.refused
          >>= fun rest => applyPrefix op applies build 0 rest := applyPrefix_append h [] terms
    _ = (Reduction.applyPrefix op applies' build none terms).mapError Halt.refused := by
        cases Reduction.applyPrefix op applies' build none terms <;> rfl

end Prefix

/-! ### Binary passes -/

section Tier

variable {tier : BinaryOp → Bool}

/-- What a binary operator makes of the terms before it, in reverse order, and of those behind it. -/
def joinTo (op : BinaryOp) (p : Position) : List Term → List Term → Except SyntaxError (List Term × List Term)
  | .operand left :: done, .operand right :: rest => .ok (.operand (.binary left op right p) :: done, rest)
  | _, _ => .error ⟨.missingOperand (some (.binary op)), p⟩

/-- What a binary pass makes of a term, of those that are done, in reverse order, and of those behind it. -/
def joinAt (tier : BinaryOp → Bool) (done : List Term) :
    Term → List Term → Except SyntaxError (List Term × List Term)
  | .operand e, rest => .ok (.operand e :: done, rest)
  | .operator .not p, rest => .ok (.operator .not p :: done, rest)
  | .operator (.binary op) p, rest =>
      if tier op then joinTo op p done rest else .ok (.operator (.binary op) p :: done, rest)

theorem joinTier_cons (done : List Term) (term : Term) (rest : List Term) :
    Reduction.joinTier tier done (term :: rest)
      = joinAt tier done term rest >>= fun next => Reduction.joinTier tier next.1 next.2 := by
  cases term with
  | operand e => rfl
  | operator found p =>
      cases found with
      | not => rfl
      | binary op =>
          rw [Reduction.joinTier.eq_def, joinAt]
          dsimp only
          by_cases hop : tier op = true
          · rw [if_pos hop, if_pos hop]
            cases done with
            | nil => rfl
            | cons before done =>
                cases before with
                | operator op' p' => rfl
                | operand left => cases rest with
                  | nil => rfl
                  | cons next rest => cases next <;> rfl
          · rw [if_neg hop, if_neg hop]
            rfl

/-- Terms are joined to fewer ones. -/
theorem length_le_of_joinAt {done rest : List Term} {term : Term} {next : List Term × List Term}
    (h : joinAt tier done term rest = .ok next) : next.2.length ≤ rest.length := by
  unfold joinAt at h
  split at h
  · obtain rfl := Except.ok.inj h
    exact Nat.le_refl _
  · obtain rfl := Except.ok.inj h
    exact Nat.le_refl _
  · split at h
    · unfold joinTo at h
      split at h
      · obtain rfl := Except.ok.inj h
        exact Nat.le_succ _
      · cases h
    · obtain rfl := Except.ok.inj h
      exact Nat.le_refl _

/-- Joining at the first of the terms that are not done yet. -/
theorem join_append (op : BinaryOp) (p : Position) (done rest : List Term) :
    join op p done.length (done.reverse ++ .operator (.binary op) p :: rest)
      = (joinTo op p done rest).mapError Halt.refused
          >>= fun next => .ok (next.1.length, next.1.reverse ++ next.2) := by
  unfold join
  cases done with
  | nil => rfl
  | cons before done =>
      have hlength : (before :: done).length - 1 = done.reverse.length := by simp
      have hcut (term : Term) (rest : List Term) :
          (before :: done).reverse ++ term :: rest = done.reverse ++ before :: term :: rest := by simp
      have hright := takeOperand_next (before :: done).reverse (.operator (.binary op) p) rest
      rw [List.length_reverse] at hright
      rw [if_neg (by simp), hright, hlength]
      cases rest with
      | nil => cases before <;> rfl
      | cons next rest =>
          cases next with
          | operator op' p' => cases before <;> rfl
          | operand right =>
              show (takeOperand ((before :: done).reverse ++ .operator (.binary op) p :: rest) _ >>= _) = _
              rw [hcut, takeOperand_append]
              cases before with
              | operator op' p' => rfl
              | operand left =>
                  show (put (done.reverse ++ .operator (.binary op) p :: rest) _ _ >>= _) = _
                  rw [put_append]
                  show Except.ok _ = Except.ok _
                  rw [List.reverse_cons, List.append_assoc, List.singleton_append]
                  rfl

/-- A round at the first of the terms that are not done yet. -/
theorem tierRound_append (done : List Term) (term : Term) (rest : List Term) :
    tierRound tier done.length (done.reverse ++ term :: rest)
      = (joinAt tier done term rest).mapError Halt.refused
          >>= fun next => .ok (next.1.length, next.1.reverse ++ next.2) := by
  have hget : get (done.reverse ++ term :: rest) done.length = .ok term := by
    rw [← List.length_reverse]
    exact get_append _ _ _
  have hdone (term : Term) : done.reverse ++ term :: rest = (term :: done).reverse ++ rest := by simp
  unfold tierRound
  rw [hget]
  cases term with
  | operand e => rw [hdone]; rfl
  | operator found p =>
      cases found with
      | not => rw [hdone]; rfl
      | binary op =>
          show (if tier op then _ else _) = _
          rw [joinAt]
          by_cases hop : tier op = true
          · rw [if_pos hop, if_pos hop]
            exact join_append op p done rest
          · rw [if_neg hop, if_neg hop, hdone]
            rfl

/-- A round leaves fewer terms to look at. -/
theorem tierRound_lt {i : Nat} {terms : List Term} {next : Nat × List Term} (hi : i < terms.length)
    (h : tierRound tier i terms = .ok next) : next.2.length - next.1 < terms.length - i := by
  obtain ⟨done, term, rest, rfl, rfl⟩ : ∃ done term rest, i = List.length done ∧ terms = done.reverse ++ term :: rest :=
    ⟨(terms.take i).reverse, terms[i], terms.drop (i + 1), by simp; omega, by simp⟩
  rw [tierRound_append] at h
  cases hjoin : joinAt tier done term rest with
  | error e =>
      rw [hjoin] at h
      cases h
  | ok joined =>
      rw [hjoin] at h
      obtain rfl := Except.ok.inj h
      have hle := length_le_of_joinAt hjoin
      simp only [List.length_append, List.length_reverse, List.length_cons]
      omega

end Tier

/-- A binary pass, from a place on. -/
def joinTier (tier : BinaryOp → Bool) (i : Nat) (terms : List Term) : Except Halt (List Term) :=
  if _ : i < terms.length then
    match _h : tierRound tier i terms with
    | .error e => .error e
    | .ok next => joinTier tier next.1 next.2
  else .ok terms
termination_by terms.length - i
decreasing_by exact tierRound_lt ‹_› ‹_›

/-- The passes agree once some terms are done. -/
theorem joinTier_append (tier : BinaryOp → Bool) (done rest : List Term) :
    joinTier tier done.length (done.reverse ++ rest) = (Reduction.joinTier tier done rest).mapError Halt.refused := by
  cases rest with
  | nil =>
      have hend : ¬ done.length < (done.reverse ++ []).length := by simp
      rw [joinTier, dif_neg hend, List.append_nil]
      rfl
  | cons term rest =>
      have hlt : done.length < (done.reverse ++ term :: rest).length := by simp
      rw [joinTier, dif_pos hlt, joinTier_cons, mapError_bind]
      cases hjoin : joinAt tier done term rest with
      | error e =>
          have hround : tierRound tier done.length (done.reverse ++ term :: rest) = .error (.refused e) := by
            rw [tierRound_append, hjoin]
            rfl
          rw [hround]
          rfl
      | ok next =>
          have hround : tierRound tier done.length (done.reverse ++ term :: rest)
              = .ok (next.1.length, next.1.reverse ++ next.2) := by
            rw [tierRound_append, hjoin]
            rfl
          rw [hround]
          have := length_le_of_joinAt hjoin
          exact joinTier_append tier next.1 next.2
termination_by rest.length

theorem joinTier_eq (tier : BinaryOp → Bool) (terms : List Term) :
    joinTier tier 0 terms = (Reduction.joinTier tier [] terms).mapError Halt.refused :=
  joinTier_append tier [] terms

/-! ### All passes -/

/-- What the passes leave of a level, if each works in place. -/
def reduced (nodes : List Node) : Except Halt (List Term) := do
  let terms ← (attachIndices [] nodes).mapError Halt.refused
  let terms ← applyPrefix (.binary .sub) isLeading negate terms.length terms
  let terms ← joinTier isMultiplicative 0 terms
  let terms ← joinTier isAdditive 0 terms
  let terms ← joinTier isComparison 0 terms
  let terms ← applyPrefix .not (fun _ _ => .ok true) (.unary .not) terms.length terms
  let terms ← joinTier (· == .and) 0 terms
  joinTier (· == .or) 0 terms

/-- In place, no pass ever goes astray. -/
theorem reduced_eq (nodes : List Node) : reduced nodes = (Reduction.reduced nodes).mapError Halt.refused := by
  have hminus (terms : List Term) : applyPrefix (.binary .sub) isLeading negate terms.length terms
      = (Reduction.applyPrefix (.binary .sub) Reduction.isLeading negate none terms).mapError Halt.refused :=
    applyPrefix_eq isLeading_append terms
  have hnot (terms : List Term) : applyPrefix .not (fun _ _ => .ok true) (.unary .not) terms.length terms
      = (Reduction.applyPrefix .not (fun _ => true) (.unary .not) none terms).mapError Halt.refused :=
    applyPrefix_eq (fun _ _ _ => rfl) terms
  unfold reduced Reduction.reduced
  simp only [mapError_bind, hminus, hnot, joinTier_eq]

end Reduction.InPlace

end PolishPseudocode
