import Mathlib.Logic.Function.Iterate
import PolishPseudocode.Proofs.Evaluation.Cells
import PolishPseudocode.Proofs.Evaluation.Invariance
import PolishPseudocode.Proofs.Evaluation.Task
import PolishPseudocode.Proofs.Number.Arithmetic

/-! Counting loops. The values that a counting loop gives to its variable are fixed by its bounds before its first
round: each is the one before plus the step, they go on as long as they stay within the last one in the direction of
the step, and they are only cut short where the body of a round does not come to its end. Bounds that are integers of
at most fifty-two binary digits give exactly the integers of their progression. -/

namespace PolishPseudocode

/-- A counter that has not passed the last value in the direction of the step. -/
def Within (step last x : Float) : Prop :=
  (0 < step ∧ x ≤ last) ∨ (step < 0 ∧ last ≤ x)

theorem not_neg_of_pos {step : Float} (h : 0 < step) : ¬ step < 0 := by
  have hzero : (0 : Float).toModel.unpack = .zero .positive := rfl
  change decide ((0 : Float).toModel.unpack.lt step.toModel.unpack = true) = true at h
  change ¬ decide (step.toModel.unpack.lt (0 : Float).toModel.unpack = true) = true
  rw [decide_eq_true_iff] at h ⊢
  rw [hzero] at h ⊢
  cases hstep : step.toModel.unpack with
  | notANumber => decide
  | infinity s => cases s <;> simp_all [Float.Model.UnpackedFloat.lt, Float.Model.UnpackedFloat.compare]
  | zero s =>
      intro hlt
      cases hlt
  | finite s mantissa e hm =>
      cases s <;> simp_all [Float.Model.UnpackedFloat.lt, Float.Model.UnpackedFloat.compare]

/-- The test of the bound. -/
theorem countsOn_iff {step last x : Float} : countsOn step last x = true ↔ Within step last x := by
  rw [countsOn, Within]
  by_cases hpos : 0 < step
  · have hneg := not_neg_of_pos hpos
    simp [hpos, hneg]
  · by_cases hneg : step < 0 <;> simp [hpos, hneg]

/-! ### Rounds -/

/-- The states that the body of a counting loop starts in, round by round. -/
def Task.rounds (o : Origins) : Nat → Task → Machine → List Machine
  | 0, _, _ => []
  | fuel + 1, task, m =>
      (task.parts o fuel m).flatMap fun part =>
        match part.1 with
        | .block _ => [part.2]
        | .count counter step last body x => rounds o fuel (.count counter step last body x) part.2
        | _ => []

/-- What a counting loop comes to after some rounds: what the body of the last one comes to, or nothing new if there
was none. -/
def closing (o : Origins) (fuel : Nat) (body : Block) (m : Machine) (rounds : List Machine) : Outcome Flow :=
  match rounds.getLast? with
  | none => .done .next m
  | some start => execBlock o fuel body start

theorem closing_cons {o : Origins} {fuel : Nat} {body : Block} {m after first : Machine} {rest : List Machine}
    (h : rest = [] → execBlock o fuel body first = .done .next after) :
    closing o fuel body m (first :: rest) = closing o fuel body after rest := by
  cases rest with
  | nil => exact h rfl
  | cons second rest =>
      rw [closing, closing, List.getLast?_cons_cons]
      cases hlast : (second :: rest).getLast? with
      | none => cases List.getLast?_eq_none_iff.1 hlast
      | some start => rfl

section

variable (o : Origins) (counter : String) (step last : Float) (body : Block)

theorem rounds_count (fuel : Nat) (x : Float) (m : Machine) :
    (Task.count counter step last body x).rounds o (fuel + 1) m
      = if countsOn step last x then
          m.define counter (.number x) ::
            (execBlock o fuel body (m.define counter (.number x))).followed fun flow m =>
              match flow with
              | .next => (Task.count counter step last body (x + step)).rounds o fuel m
              | .giveBack _ => []
        else [] := by
  rw [Task.rounds, Task.parts]
  split
  · rw [List.flatMap_cons]
    cases execBlock o fuel body (m.define counter (.number x)) with
    | done flow after => cases flow <;> simp [Outcome.followed]
    | failed error after => rfl
    | outOfFuel => rfl
  · rfl

/-- In every round the variable has been given the next value, which is within the bound. -/
theorem value_of_round {fuel : Nat} {x : Float} {m : Machine} {k : Nat} {start : Machine}
    (h : ((Task.count counter step last body x).rounds o fuel m)[k]? = some start) :
    start.lookup counter = some (.number ((· + step)^[k] x)) ∧ Within step last ((· + step)^[k] x) := by
  induction fuel generalizing x m k with
  | zero => cases h
  | succ fuel ih =>
      rw [rounds_count] at h
      by_cases hon : countsOn step last x = true
      · rw [if_pos hon] at h
        cases k with
        | zero =>
            obtain rfl := Option.some.inj h
            exact ⟨by rw [Machine.lookup_define, if_pos rfl]; rfl, countsOn_iff.1 hon⟩
        | succ k =>
            rw [List.getElem?_cons_succ] at h
            rw [Function.iterate_succ_apply]
            cases hbody : execBlock o fuel body (m.define counter (.number x)) with
            | done flow after =>
                rw [hbody] at h
                cases flow with
                | next => exact ih h
                | giveBack value => cases h
            | failed error after =>
                rw [hbody] at h
                cases h
            | outOfFuel =>
                rw [hbody] at h
                cases h
      · rw [if_neg hon] at h
        cases h

/-- A counting loop comes to an end as the body of its last round does, and where that goes on, the next value is
out of the bound; or all its fuel has gone into rounds. -/
theorem count_closing (fuel : Nat) (x : Float) (m : Machine) :
    let rounds := (Task.count counter step last body x).rounds o fuel m
    let outcome := count o fuel counter step last body x m
    (rounds.length = fuel ∧ outcome = .outOfFuel)
    ∨ (outcome = closing o (fuel - rounds.length) body m rounds
      ∧ (Within step last ((· + step)^[rounds.length] x) → ∀ after, outcome ≠ .done .next after)) := by
  induction fuel generalizing x m with
  | zero => exact .inl ⟨rfl, count.eq_1 o counter step last body x m⟩
  | succ fuel ih =>
      dsimp only
      rw [rounds_count, count]
      by_cases hon : countsOn step last x = true
      · rw [if_pos hon, if_pos hon]
        cases hbody : execBlock o fuel body (m.define counter (.number x)) with
        | done flow after =>
            cases flow with
            | next =>
                -- the rounds of the rest, behind this one
                rcases ih (x + step) after with ⟨hlength, hout⟩ | ⟨hclosing, hbound⟩
                · exact .inl ⟨congrArg (· + 1) hlength, hout⟩
                · refine .inr ⟨?_, hbound⟩
                  show count o fuel counter step last body (x + step) after = closing o (fuel + 1 - (_ + 1)) body m _
                  rw [Nat.add_sub_add_right, hclosing]
                  refine (closing_cons fun hrest => ?_).symm
                  rw [hrest]
                  exact hbody
            | giveBack value => exact .inr ⟨hbody.symm, fun _ after => nofun⟩
        | failed error after => exact .inr ⟨hbody.symm, fun _ after => nofun⟩
        | outOfFuel => exact .inr ⟨hbody.symm, fun _ after => nofun⟩
      · rw [if_neg hon, if_neg hon]
        exact .inr ⟨rfl, fun hwithin => absurd (countsOn_iff.2 hwithin) hon⟩

end

/-! ### Integers -/

/-- How many terms the progression from `a` over `b` has that do not pass `c`. -/
def termCount (a b c : Int) : Nat :=
  if b = a then 0 else (⌊((c - a : Int) : ℚ) / ((b - a : Int) : ℚ)⌋ + 1).toNat

theorem lt_termCount_iff {a b c : Int} {k : Nat} :
    k < termCount a b c
      ↔ (0 < b - a ∧ a + k * (b - a) ≤ c) ∨ (b - a < 0 ∧ c ≤ a + k * (b - a)) := by
  rw [termCount]
  rcases lt_trichotomy (b - a) 0 with hneg | hzero | hpos
  · have hneg' : ((b - a : Int) : ℚ) < 0 := by exact_mod_cast hneg
    have hfloor : (k : Int) ≤ ⌊((c - a : Int) : ℚ) / ((b - a : Int) : ℚ)⌋ ↔ c - a ≤ k * (b - a) := by
      rw [Int.le_floor, le_div_iff_of_neg hneg']
      exact_mod_cast Iff.rfl
    rw [if_neg (by omega)]
    omega
  · rw [if_pos (by omega)]
    omega
  · have hpos' : (0 : ℚ) < ((b - a : Int) : ℚ) := by exact_mod_cast hpos
    have hfloor : (k : Int) ≤ ⌊((c - a : Int) : ℚ) / ((b - a : Int) : ℚ)⌋ ↔ k * (b - a) ≤ c - a := by
      rw [Int.le_floor, le_div_iff₀ hpos']
      exact_mod_cast Iff.rfl
    rw [if_neg (by omega)]
    omega

open Number (value?)

theorem within_iff {step last x : Float} {d c q : ℚ} (hstep : value? step = some d) (hlast : value? last = some c)
    (hx : value? x = some q) : Within step last x ↔ (0 < d ∧ q ≤ c) ∨ (d < 0 ∧ c ≤ q) := by
  rw [Within, Number.lt_iff Number.value?_zero hstep, Number.le_iff hx hlast, Number.lt_iff hstep Number.value?_zero,
    Number.le_iff hlast hx]

/-- The terms that do not pass the last one lie between the first and the last one. -/
theorem abs_term_le {a b c : Int} {k : Nat} (ha : |a| ≤ 2 ^ 52) (hc : |c| ≤ 2 ^ 52) (hk : k < termCount a b c) :
    |a + k * (b - a)| ≤ 2 ^ 52 := by
  rw [abs_le] at ha hc ⊢
  rcases lt_termCount_iff.1 hk with ⟨hpos, hle⟩ | ⟨hneg, hle⟩
  · have hnonneg : 0 ≤ (k : Int) * (b - a) := mul_nonneg (Int.natCast_nonneg k) hpos.le
    omega
  · have hnonpos : (k : Int) * (b - a) ≤ 0 := mul_nonpos_of_nonneg_of_nonpos (Int.natCast_nonneg k) hneg.le
    omega

section

variable {x y z : Float} {a b c : Int} (hx : value? x = some (a : ℚ)) (hy : value? y = some (b : ℚ))
  (hz : value? z = some (c : ℚ)) (ha : |a| ≤ 2 ^ 52) (hb : |b| ≤ 2 ^ 52) (hc : |c| ≤ 2 ^ 52)

include hx hy ha hb in
theorem value?_step : value? (y - x) = some ((b - a : Int) : ℚ) := by
  apply Number.value?_sub_intCast hy hx
  rw [abs_le] at ha hb ⊢
  omega

include hx hy ha hb hc in
/-- The terms that do not pass the last one are computed without rounding. -/
theorem value?_term {k : Nat} (hk : k < termCount a b c) :
    value? ((· + (y - x))^[k] x) = some ((a + k * (b - a) : Int) : ℚ) := by
  induction k with
  | zero => simpa using hx
  | succ k ih =>
      have hsucc : a + ((k + 1 : Nat) : Int) * (b - a) = a + k * (b - a) + (b - a) := by
        push_cast
        ring
      have hle := abs_term_le ha hc hk
      rw [hsucc] at hle ⊢
      rw [Function.iterate_succ_apply']
      exact Number.value?_add_intCast (ih (Nat.lt_of_succ_lt hk)) (value?_step hx hy ha hb) (hle.trans (by norm_num))

include hx hy hz ha hb hc

theorem within_term {k : Nat} (hk : k < termCount a b c) : Within (y - x) z ((· + (y - x))^[k] x) := by
  rw [within_iff (value?_step hx hy ha hb) hz (value?_term hx hy ha hb hc hk)]
  exact_mod_cast lt_termCount_iff.1 hk

/-- The first number that is too far is still too far once it is rounded: rounding keeps the order, and does not move
the integer behind the last one. -/
theorem not_within_termCount : ¬ Within (y - x) z ((· + (y - x))^[termCount a b c] x) := by
  have hstep := value?_step hx hy ha hb
  have hbound : ¬ termCount a b c < termCount a b c := lt_irrefl _
  rw [lt_termCount_iff] at hbound
  generalize hn : termCount a b c = n at hbound ⊢
  cases n with
  | zero =>
      rw [Nat.cast_zero, zero_mul, add_zero] at hbound
      rw [Function.iterate_zero_apply, within_iff hstep hz hx]
      exact_mod_cast hbound
  | succ n =>
      have hlast : n < termCount a b c := by omega
      have hle := abs_term_le ha hc hlast
      have hterm := value?_term hx hy ha hb hc hlast
      have hsucc : a + ((n + 1 : Nat) : Int) * (b - a) = a + n * (b - a) + (b - a) := by
        push_cast
        ring
      rw [hsucc] at hbound
      generalize a + (n : Int) * (b - a) = t at hle hterm hbound
      have hsum : |t + (b - a)| ≤ 2 ^ 54 := by
        rw [abs_le] at hle ha hb ⊢
        omega
      have hc' : |c| < 2 ^ 53 := lt_of_le_of_lt hc (by norm_num)
      have hlt := Number.abs_rounded_lt (Number.abs_intCast_le hsum)
      rw [Int.cast_add] at hlt
      rw [Function.iterate_succ_apply', within_iff hstep hz (Number.value?_add hterm hstep hlt), ← Int.cast_add]
      rintro (⟨hpos, hwithin⟩ | ⟨hneg, hwithin⟩)
      · have hpast : c < t + (b - a) := not_le.1 fun hle => hbound (.inl ⟨by exact_mod_cast hpos, hle⟩)
        exact absurd (Number.lt_rounded_intCast hc' hpast) (not_lt.2 hwithin)
      · have hpast : t + (b - a) < c := not_le.1 fun hle => hbound (.inr ⟨by exact_mod_cast hneg, hle⟩)
        exact absurd (Number.rounded_intCast_lt hc' hpast) (not_lt.2 hwithin)

end

theorem termCount_eq_zero {a b c : Int} (h : b = a ∨ (a < b ∧ c < a) ∨ (b < a ∧ a < c)) : termCount a b c = 0 := by
  by_contra hne
  have hfirst := lt_termCount_iff.1 (Nat.pos_of_ne_zero hne)
  rw [Nat.cast_zero, zero_mul, add_zero] at hfirst
  omega

/-! ### Loops -/

section

variable {o : Origins} {fuel : Nat} {counter : Name} {start second last : Expr} {body : Block} {place : Position}
  {m m₁ m₂ m₃ : Machine} {x y z : Float}
  (hstart : (eval o fuel start m).bound place = .done x m₁)
  (hsecond : (eval o fuel second m₁).bound place = .done y m₂)
  (hlast : (eval o fuel last m₂).bound place = .done z m₃)

include hstart hsecond hlast

theorem rounds_forLoop :
    (Task.exec (.forLoop counter start second last body place)).rounds o (fuel + 1) m
      = (Task.count counter.name (y - x) z body x).rounds o fuel m₃ := by
  rw [Task.rounds, Task.parts]
  simp only [hstart, hsecond, hlast, Outcome.followed, List.flatMap_cons, List.flatMap_nil, List.nil_append,
    List.append_nil]

theorem exec_forLoop :
    exec o (fuel + 1) (.forLoop counter start second last body place) m
      = count o fuel counter.name (y - x) z body x m₃ := by
  rw [exec]
  simp only [hstart, hsecond, hlast, Outcome.andThen]

end

/-- The rounds of a counting loop, whose bounds are the numbers `x`, `y` and `z`, in that order. Whatever its body
does, the body of round `k` starts with the value `x + step + … + step` for the variable, with `k` steps of `y - x`,
and this is within the bound `z`. The loop ends as the body of its last round does, and does so before the next value
is out of the bound only where that body fails or gives back a result, or is not done with its fuel. Bounds that are
integers of a magnitude of at most `2 ^ 52` give exactly the integers `a + k * (b - a)` that do not pass the last
one, of which there are none if the step is zero or the last one is on the wrong side. -/
theorem forLoop_rounds {o : Origins} {fuel : Nat} {counter : Name} {start second last : Expr} {body : Block}
    {place : Position} {m m₁ m₂ m₃ : Machine} {x y z : Float}
    (hstart : (eval o fuel start m).bound place = .done x m₁)
    (hsecond : (eval o fuel second m₁).bound place = .done y m₂)
    (hlast : (eval o fuel last m₂).bound place = .done z m₃) :
    let loop : Statement := .forLoop counter start second last body place
    let rounds := (Task.exec loop).rounds o (fuel + 1) m
    let outcome := exec o (fuel + 1) loop m
    let value (k : Nat) := (· + (y - x))^[k] x
    (∀ k start, rounds[k]? = some start →
      start.lookup counter.name = some (.number (value k)) ∧ Within (y - x) z (value k))
    ∧ ((rounds.length = fuel ∧ outcome = .outOfFuel)
      ∨ (outcome = closing o (fuel - rounds.length) body m₃ rounds
        ∧ (Within (y - x) z (value rounds.length) → ∀ after, outcome ≠ .done .next after)))
    ∧ ∀ a b c : Int, |a| ≤ 2 ^ 52 → |b| ≤ 2 ^ 52 → |c| ≤ 2 ^ 52 →
      value? x = some (a : ℚ) → value? y = some (b : ℚ) → value? z = some (c : ℚ) →
      (∀ k < termCount a b c,
        value? (value k) = some ((a + k * (b - a) : Int) : ℚ) ∧ Within (y - x) z (value k))
      ∧ rounds.length ≤ termCount a b c
      ∧ ((∃ after, outcome = .done .next after) → rounds.length = termCount a b c)
      ∧ (b = a ∨ (a < b ∧ c < a) ∨ (b < a ∧ a < c) → rounds = []) := by
  intro loop rounds outcome value
  have hvalue : ∀ k start, rounds[k]? = some start →
      start.lookup counter.name = some (.number (value k)) ∧ Within (y - x) z (value k) := by
    intro k start hround
    rw [show rounds = _ from rounds_forLoop hstart hsecond hlast] at hround
    exact value_of_round o counter.name (y - x) z body hround
  have hclosing := count_closing o counter.name (y - x) z body fuel x m₃
  dsimp only at hclosing
  rw [← rounds_forLoop hstart hsecond hlast, ← exec_forLoop hstart hsecond hlast] at hclosing
  refine ⟨hvalue, hclosing, fun a b c ha hb hc hx hy hz => ?_⟩
  have hmore {k : Nat} (hk : k < termCount a b c) := within_term hx hy hz ha hb hc hk
  have hpast := not_within_termCount hx hy hz ha hb hc
  have hlength : rounds.length ≤ termCount a b c := by
    by_contra hgt
    obtain ⟨_, hwithin⟩ := hvalue (termCount a b c) _ (List.getElem?_eq_getElem (by omega))
    exact hpast hwithin
  refine ⟨fun k hk => ⟨value?_term hx hy ha hb hc hk, hmore hk⟩, hlength, ?_, fun hempty => ?_⟩
  · rintro ⟨after, hafter⟩
    rcases hclosing with ⟨-, hout⟩ | ⟨-, hstops⟩
    · cases hout.symm.trans hafter
    · have hnot : ¬ Within (y - x) z (value rounds.length) := fun hwithin => hstops hwithin after hafter
      exact le_antisymm hlength (not_lt.1 fun hlt => hnot (hmore hlt))
  · rw [termCount_eq_zero hempty] at hlength
    exact List.eq_nil_of_length_eq_zero (Nat.le_zero.1 hlength)

/-- A loop from `1` over `2` to `n`, whose body sets both the variable of the loop and `n`. -/
theorem forLoop_rounds_overwritten :
    let i : Name := ⟨"i", ⟨0, 4⟩⟩
    let n : Name := ⟨"n", ⟨0, 13⟩⟩
    let body : Block :=
      [.assign (.var i) (.literal (.number 10) ⟨1, 9⟩), .assign (.var n) (.literal (.number 0) ⟨2, 9⟩)]
    let loop : Statement :=
      .forLoop i (.literal (.number 1) ⟨0, 8⟩) (.literal (.number 2) ⟨0, 10⟩) (.var n) body ⟨0, 0⟩
    let m : Machine := ⟨[("n", .number 3)], [], #[], 0, #[]⟩
    let rounds := (Task.exec loop).rounds .one 20 m
    (rounds.map fun start => match start.lookup "i" with | some (.number v) => v | _ => 0) = [1, 2, 3]
    ∧ rounds.length ≤ termCount 1 2 3
    ∧ ∀ start, rounds[2]? = some start → start.lookup "i" = some (.number (1 + (2 - 1) + (2 - 1))) := by
  intro i n body loop m rounds
  have h := @forLoop_rounds .one 19 i (.literal (.number 1) ⟨0, 8⟩) (.literal (.number 2) ⟨0, 10⟩) (.var n) body
    ⟨0, 0⟩ m m m m 1 2 3 rfl rfl rfl
  have hvalue {v : Float} {a : Int} {d : Dyadic} (hshape : Shape.ofFloat v = .finite d) (hd : d.value = a) :
      value? v = some (a : ℚ) := by
    rw [value?, hshape, ← hd]
  have hone := hvalue (v := 1) (a := 1) (d := ⟨false, 2 ^ 52, -52⟩) (by decide +kernel) (by norm_num [Dyadic.value])
  have htwo := hvalue (v := 2) (a := 2) (d := ⟨false, 2 ^ 52, -51⟩) (by decide +kernel) (by norm_num [Dyadic.value])
  have hthree := hvalue (v := 3) (a := 3) (d := ⟨false, 3 * 2 ^ 51, -51⟩) (by decide +kernel)
    (by norm_num [Dyadic.value])
  refine ⟨by decide +kernel, ?_, fun start hround => (h.1 2 start hround).1⟩
  exact (h.2.2 1 2 3 (by norm_num) (by norm_num) (by norm_num) hone htwo hthree).2.1

end PolishPseudocode
