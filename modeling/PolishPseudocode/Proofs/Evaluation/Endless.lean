import PolishPseudocode.Proofs.Evaluation.Counting
import PolishPseudocode.Proofs.Evaluation.Fuel
import PolishPseudocode.Proofs.Number.Overflow
import PolishPseudocode.Proofs.Number.Standstill

/-! Counting loops that end and those that never do. The counter is a running sum of doubles: it gets past the last
value unless it comes to stand before it. Where it does, the loop goes on without end, though neither its step is zero
nor any of its bounds infinite. -/

namespace PolishPseudocode

open Number (value? rounded standstill runningSum)

/-! ### Counters -/

/-- A number that has not passed the last one in the direction of the step. -/
def Inside (d r q : ℚ) : Prop :=
  (0 < d ∧ q ≤ r) ∨ (d < 0 ∧ r ≤ q)

/-- A running sum with this step comes to stand before it has passed the last number. -/
def Stalls (d r : ℚ) : Prop :=
  (0 < d ∧ standstill d ≤ r) ∨ (d < 0 ∧ r ≤ -standstill d)

theorem inside_neg {d r q : ℚ} : Inside (-d) (-r) (-q) ↔ Inside d r q := by
  rw [Inside, Inside, neg_le_neg_iff, neg_le_neg_iff, neg_pos, neg_lt_zero]
  exact or_comm

theorem stalls_neg {d r : ℚ} : Stalls (-d) (-r) ↔ Stalls d r := by
  rw [Stalls, Stalls, Number.standstill_neg, neg_le_neg_iff, le_neg, neg_pos, neg_lt_zero]
  exact or_comm

/-- A running sum that starts short of its standstill stays inside only if it stalls. -/
theorem forall_inside_iff {d r p : ℚ} (hplace : d ≠ 0 → -1074 ≤ Int.clog 2 |d|) (hp : d ≠ 0 → |p| ≤ standstill d) :
    (∀ k, Inside d r (runningSum d p k)) ↔ Stalls d r := by
  -- counting down is counting up with all signs changed
  have hup {d r p : ℚ} (hd : 0 < d) (hplace : -1074 ≤ Int.clog 2 |d|) (hp : |p| ≤ standstill d) :
      (∀ k, Inside d r (runningSum d p k)) ↔ Stalls d r := by
    have hnot : ¬ d < 0 := not_lt.2 hd.le
    simp only [Inside, Stalls, hd, hnot, true_and, false_and, or_false]
    exact Number.forall_runningSum_le_iff hplace hd hp
  rcases lt_trichotomy d 0 with hd | rfl | hd
  · have hneg := hup (r := -r) (p := -p) (neg_pos.2 hd) (by rw [abs_neg]; exact hplace hd.ne)
      (by rw [abs_neg, Number.standstill_neg]; exact hp hd.ne)
    simp only [Number.runningSum_neg, inside_neg, stalls_neg] at hneg
    exact hneg
  · simp [Inside, Stalls]
  · exact hup hd (hplace hd.ne') (hp hd.ne')

/-- A running sum that stalls comes to stand. -/
theorem exists_runningSum_eq {d r p : ℚ} (hplace : d ≠ 0 → -1074 ≤ Int.clog 2 |d|)
    (hp : d ≠ 0 → |p| ≤ standstill d) (h : Stalls d r) :
    ∃ v, |v| = standstill d ∧ ∃ n, ∀ k ≥ n, runningSum d p k = v := by
  have hpos : 0 < standstill d := Number.two_zpow_pos _
  rcases h with ⟨hd, -⟩ | ⟨hd, -⟩
  · exact ⟨_, abs_of_pos hpos, Number.exists_runningSum_eq (hplace hd.ne') hd (hp hd.ne')⟩
  · have hneg := Number.exists_runningSum_eq (p := -p) (by rw [abs_neg]; exact hplace hd.ne) (neg_pos.2 hd)
      (by rw [abs_neg, Number.standstill_neg]; exact hp hd.ne)
    obtain ⟨n, hn⟩ := hneg
    refine ⟨-standstill d, by rw [abs_neg, abs_of_pos hpos], n, fun k hk => ?_⟩
    rw [← neg_neg (runningSum d p k), ← Number.runningSum_neg, hn k hk, Number.standstill_neg]

section

variable {x z step : Float} {p r d : ℚ} (hx : value? x = some p) (hz : value? z = some r) (hstep : value? step = some d)

include hx hz hstep

/-- The sum may be too large to be a double: then it has passed the last value. -/
theorem within_add_iff : Within step z (x + step) ↔ Inside d r (rounded (p + d)) := by
  rw [Within, Inside, Number.lt_iff Number.value?_zero hstep, Number.lt_iff hstep Number.value?_zero,
    Number.add_le_iff hx hstep hz, Number.le_add_iff hx hstep hz]

/-- A sum that has not passed the last value lies between two doubles, and is one. -/
theorem value?_add_of_inside (h : Inside d r (rounded (p + d))) : value? (x + step) = some (rounded (p + d)) := by
  have hp := abs_lt.1 (Number.abs_lt_of_value? hx)
  have hr := abs_lt.1 (Number.abs_lt_of_value? hz)
  have hsame := Number.rounded_value? hx
  refine Number.value?_add hx hstep (abs_lt.2 ?_)
  rcases h with ⟨hd, hle⟩ | ⟨hd, hle⟩
  · have hge : p ≤ rounded (p + d) := hsame.symm.le.trans (Number.rounded_mono (le_add_of_nonneg_right hd.le))
    exact ⟨hp.1.trans_le hge, hle.trans_lt hr.2⟩
  · have hge : rounded (p + d) ≤ p := (Number.rounded_mono (add_le_of_nonpos_right hd.le)).trans hsame.le
    exact ⟨hr.1.trans_le hle, hge.trans_lt hp.2⟩

/-- A counter that never passes the last value is the running sum. -/
theorem value?_iterate (h : ∀ k, Within step z ((· + step)^[k] x) ∨ Inside d r (runningSum d p k)) (k : Nat) :
    value? ((· + step)^[k] x) = some (runningSum d p k) := by
  induction k with
  | zero => exact hx
  | succ k ih =>
      have hinside := h (k + 1)
      rw [Function.iterate_succ_apply', Number.runningSum_succ, within_add_iff ih hz hstep, or_self] at hinside
      rw [Function.iterate_succ_apply', Number.runningSum_succ]
      exact value?_add_of_inside ih hz hstep hinside

theorem forall_within_iff :
    (∀ k, Within step z ((· + step)^[k] x)) ↔ ∀ k, Inside d r (runningSum d p k) := by
  constructor
  · intro h k
    have hvalue := value?_iterate hx hz hstep (fun k => .inl (h k)) k
    exact (within_iff hstep hz hvalue).1 (h k)
  · intro h k
    have hvalue := value?_iterate hx hz hstep (fun k => .inr (h k)) k
    exact (within_iff hstep hz hvalue).2 (h k)

end

section

variable {x y z : Float} {p q r : ℚ} (hx : value? x = some p) (hy : value? y = some q) (hz : value? z = some r)

include hx hy

/-- The bounds of a step that is not zero: it is no finer than the least place, and the first one of the two doubles is
short of the standstill. -/
theorem abs_le_of_step_ne_zero (hd : rounded (q - p) ≠ 0) :
    -1074 ≤ Int.clog 2 |rounded (q - p)| ∧ |p| ≤ standstill (rounded (q - p)) :=
  ⟨Number.le_clog_rounded hd, Number.abs_le_standstill (Number.rounded_value? hx) (Number.rounded_value? hy) hd⟩

include hz

/-- A step that is too large to be a double is an infinity, and so is the counter after it. -/
theorem not_within_of_large (h : 2 ^ (1024 : Int) ≤ |rounded (q - p)|) :
    ¬ Within (y - x) z (x + (y - x)) ∧ ¬ Stalls (rounded (q - p)) r := by
  obtain ⟨s, hstep⟩ := Number.unpack_sub_of_le hy hx h
  have hsum := Number.unpack_add_infinity hx hstep
  constructor
  · rw [Within, Number.zero_lt_infinity_iff hstep, Number.infinity_lt_zero_iff hstep, Number.infinity_le_iff hz hsum,
      Number.le_infinity_iff hz hsum]
    cases s <;> simp
  · have hr := abs_lt.1 (Number.abs_lt_of_value? hz)
    have hfar : (2 : ℚ) ^ (1024 : Int) ≤ standstill (rounded (q - p)) := by
      have hclog := Int.self_le_zpow_clog (b := 2) (by norm_num) |rounded (q - p)|
      calc (2 : ℚ) ^ (1024 : Int) ≤ |rounded (q - p)| := h
        _ ≤ 2 ^ Int.clog 2 |rounded (q - p)| := by exact_mod_cast hclog
        _ ≤ standstill (rounded (q - p)) := zpow_le_zpow_right₀ (by norm_num) (by omega)
    rintro (⟨-, hle⟩ | ⟨-, hle⟩) <;> linarith

/-- A counter with finite bounds gets past the last one unless it stalls. -/
theorem exists_not_within_iff :
    (∃ k, ¬ Within (y - x) z ((· + (y - x))^[k] x)) ↔ ¬ Stalls (rounded (q - p)) r := by
  rcases lt_or_ge |rounded (q - p)| (2 ^ (1024 : Int)) with hsmall | hlarge
  · have hstep := Number.value?_sub hy hx hsmall
    rw [← not_forall, forall_within_iff hx hz hstep, forall_inside_iff fun hd => (abs_le_of_step_ne_zero hx hy hd).1]
    exact fun hd => (abs_le_of_step_ne_zero hx hy hd).2
  · obtain ⟨hpast, hnot⟩ := not_within_of_large hx hy hz hlarge
    exact iff_of_true ⟨1, hpast⟩ hnot

/-- A counter that stalls comes to stand. -/
theorem exists_value?_eq (h : Stalls (rounded (q - p)) r) :
    ∃ v, |v| = standstill (rounded (q - p)) ∧ ∃ n, ∀ k ≥ n, value? ((· + (y - x))^[k] x) = some v := by
  rcases lt_or_ge |rounded (q - p)| (2 ^ (1024 : Int)) with hsmall | hlarge
  · have hstep := Number.value?_sub hy hx hsmall
    have hplace (hd : rounded (q - p) ≠ 0) := (abs_le_of_step_ne_zero hx hy hd).1
    have hp (hd : rounded (q - p) ≠ 0) := (abs_le_of_step_ne_zero hx hy hd).2
    have hinside := (forall_inside_iff hplace hp).2 h
    obtain ⟨v, hv, n, hn⟩ := exists_runningSum_eq hplace hp h
    refine ⟨v, hv, n, fun k hk => ?_⟩
    rw [value?_iterate hx hz hstep (fun k => .inr (hinside k)), hn k hk]
  · exact absurd h (not_within_of_large hx hy hz hlarge).2

end

/-! ### Loops -/

/-- Carried out from this state, a task comes to an end: some fuel is enough for it. -/
def Task.Halts (o : Origins) (task : Task) (m : Machine) : Prop :=
  ∃ fuel, task.run o fuel m ≠ .outOfFuel

theorem Task.run_eq_of_le {o : Origins} (task : Task) {fuel fuel' : Nat} {m : Machine}
    (h : task.run o fuel m ≠ .outOfFuel) (hle : fuel ≤ fuel') : task.run o fuel' m = task.run o fuel m :=
  (Task.run_settled o hle task m).resolve_left h

section

variable {o : Origins} {counter : String} {step last : Float} {body : Block}

/-- More fuel takes away no round. -/
theorem mem_rounds_of_le {fuel fuel' : Nat} (hle : fuel ≤ fuel') {x : Float} {m start : Machine}
    (h : start ∈ (Task.count counter step last body x).rounds o fuel m) :
    start ∈ (Task.count counter step last body x).rounds o fuel' m := by
  induction fuel generalizing fuel' x m with
  | zero => cases h
  | succ fuel ih =>
      obtain ⟨fuel', rfl⟩ : ∃ n, fuel' = n + 1 := ⟨fuel' - 1, by omega⟩
      have hle := Nat.le_of_succ_le_succ hle
      rw [rounds_count] at h ⊢
      by_cases hon : countsOn step last x = true
      · rw [if_pos hon] at h ⊢
        rcases List.mem_cons.1 h with rfl | h
        · exact List.mem_cons_self
        · refine List.mem_cons_of_mem _ ?_
          have hbody := Task.run_settled o hle (.block body) (m.define counter (.number x))
          rw [Task.run, Task.run] at hbody
          rcases hbody with hout | hsame
          · rw [hout] at h
            cases h
          · rw [hsame]
            cases hrun : execBlock o fuel body (m.define counter (.number x)) with
            | done flow after =>
                rw [hrun] at h
                cases flow with
                | next => exact ih hle h
                | giveBack value => cases h
            | failed error after =>
                rw [hrun] at h
                cases h
            | outOfFuel =>
                rw [hrun] at h
                cases h
      · rw [if_neg hon] at h
        cases h

theorem count_halts_of_not_countsOn {x : Float} {m : Machine} (h : ¬ countsOn step last x = true) :
    (Task.count counter step last body x).Halts o m := by
  refine ⟨1, ?_⟩
  change count o 1 counter step last body x m ≠ .outOfFuel
  rw [count, if_neg h]
  exact Outcome.done_ne_outOfFuel

/-- A loop whose body comes to an end comes to an end if it does so after this round. -/
theorem count_halts_of_round {x : Float} {m : Machine} (hon : countsOn step last x = true) {fuel : Nat}
    (hbody : execBlock o fuel body (m.define counter (.number x)) ≠ .outOfFuel)
    (hrest : ∀ after, execBlock o fuel body (m.define counter (.number x)) = .done .next after →
      (Task.count counter step last body (x + step)).Halts o after) :
    (Task.count counter step last body x).Halts o m := by
  cases hrun : execBlock o fuel body (m.define counter (.number x)) with
  | done flow after =>
      cases flow with
      | next =>
          obtain ⟨fuel', hfuel'⟩ := hrest after hrun
          have hsame : execBlock o (max fuel fuel') body (m.define counter (.number x)) = .done .next after :=
            (Task.run_eq_of_le (.block body) hbody (le_max_left fuel fuel')).trans hrun
          refine ⟨max fuel fuel' + 1, ?_⟩
          change count o (max fuel fuel' + 1) counter step last body x m ≠ .outOfFuel
          rw [count, if_pos hon, hsame]
          exact (Task.run_eq_of_le _ hfuel' (le_max_right fuel fuel')).trans_ne hfuel'
      | giveBack value =>
          refine ⟨fuel + 1, ?_⟩
          change count o (fuel + 1) counter step last body x m ≠ .outOfFuel
          rw [count, if_pos hon, hrun]
          exact Outcome.done_ne_outOfFuel
  | failed error after =>
      refine ⟨fuel + 1, ?_⟩
      change count o (fuel + 1) counter step last body x m ≠ .outOfFuel
      rw [count, if_pos hon, hrun]
      exact Outcome.failed_ne_outOfFuel
  | outOfFuel => exact absurd hrun hbody

/-- The rounds behind the first one are rounds of the loop. -/
theorem mem_rounds_of_round {x : Float} {m after start : Machine} (hon : countsOn step last x = true)
    {fuel fuel' : Nat} (hbody : execBlock o fuel body (m.define counter (.number x)) = .done .next after)
    (h : start ∈ (Task.count counter step last body (x + step)).rounds o fuel' after) :
    start ∈ (Task.count counter step last body x).rounds o (max fuel fuel' + 1) m := by
  have hsame : execBlock o (max fuel fuel') body (m.define counter (.number x)) = .done .next after :=
    (Task.run_eq_of_le (.block body) (hbody.trans_ne Outcome.done_ne_outOfFuel) (le_max_left fuel fuel')).trans hbody
  rw [rounds_count, if_pos hon, hsame]
  exact List.mem_cons_of_mem _ (mem_rounds_of_le (le_max_right fuel fuel') h)

/-- A counting loop comes to an end if its counter gets past the last value and the body of every round comes to an
end. The induction is on the rounds that are left. -/
theorem count_halts {k : Nat} {x : Float} {m : Machine} (hpast : ¬ Within step last ((· + step)^[k] x))
    (hbody : ∀ fuel, ∀ start ∈ (Task.count counter step last body x).rounds o fuel m, (Task.block body).Halts o start) :
    (Task.count counter step last body x).Halts o m := by
  by_cases hon : countsOn step last x = true
  · have hfirst : m.define counter (.number x) ∈ (Task.count counter step last body x).rounds o 1 m := by
      rw [rounds_count, if_pos hon]
      exact List.mem_cons_self
    obtain ⟨fuel, hfuel⟩ := hbody 1 _ hfirst
    refine count_halts_of_round hon hfuel fun after hafter => ?_
    cases k with
    | zero => exact absurd (countsOn_iff.1 hon) hpast
    | succ k =>
        exact count_halts (k := k) hpast fun fuel' start hstart =>
          hbody (max fuel fuel' + 1) start (mem_rounds_of_round hon hafter hstart)
  · exact count_halts_of_not_countsOn hon
termination_by k

/-- A counting loop whose counter never passes the last value ends only as the body of one of its rounds breaks off. -/
theorem count_not_halts {x : Float} {m : Machine} (hwithin : ∀ k, Within step last ((· + step)^[k] x))
    (hbody : ∀ fuel, ∀ start ∈ (Task.count counter step last body x).rounds o fuel m, ∀ fuel',
      execBlock o fuel' body start = .outOfFuel ∨ ∃ after, execBlock o fuel' body start = .done .next after) :
    ¬ (Task.count counter step last body x).Halts o m := by
  rintro ⟨fuel, hfuel⟩
  apply hfuel
  rcases count_closing o counter step last body fuel x m with ⟨-, hout⟩ | ⟨hclosing, hstops⟩
  · exact hout
  · have hgoesOn := hstops (hwithin _)
    rw [Task.run, hclosing] at *
    generalize hrounds : (Task.count counter step last body x).rounds o fuel m = rounds at hgoesOn ⊢
    rw [closing] at hgoesOn ⊢
    cases hlast : rounds.getLast? with
    | none =>
        rw [hlast] at hgoesOn
        exact absurd rfl (hgoesOn m)
    | some start =>
        rw [hlast] at hgoesOn
        have hmem : start ∈ (Task.count counter step last body x).rounds o fuel m := by
          rw [hrounds]
          exact List.mem_of_getLast? hlast
        rcases hbody fuel start hmem (fuel - rounds.length) with hout | ⟨after, hafter⟩
        · exact hout
        · exact absurd hafter (hgoesOn after)

end

section

variable {o : Origins} {fuel : Nat} {counter : Name} {start second last : Expr} {body : Block} {place : Position}
  {m m₁ m₂ m₃ : Machine} {x y z : Float}

theorem bound_of_le {e : Expr} {m' : Machine} {fuel' : Nat} (h : (eval o fuel e m).bound place = .done x m')
    (hle : fuel ≤ fuel') : (eval o fuel' e m).bound place = .done x m' := by
  have hrun : eval o fuel e m ≠ .outOfFuel := by
    intro hout
    rw [Outcome.bound_eq_outOfFuel_iff.2 hout] at h
    cases h
  have hsame : eval o fuel' e m = eval o fuel e m := Task.run_eq_of_le (.eval e) hrun hle
  rw [hsame]
  exact h

variable (hstart : (eval o fuel start m).bound place = .done x m₁)
  (hsecond : (eval o fuel second m₁).bound place = .done y m₂)
  (hlast : (eval o fuel last m₂).bound place = .done z m₃)

include hstart hsecond hlast

theorem forLoop_halts_iff :
    (Task.exec (.forLoop counter start second last body place)).Halts o m
      ↔ (Task.count counter.name (y - x) z body x).Halts o m₃ := by
  have hsame {fuel' : Nat} (hle : fuel ≤ fuel') :
      (Task.exec (.forLoop counter start second last body place)).run o (fuel' + 1) m
        = (Task.count counter.name (y - x) z body x).run o fuel' m₃ :=
    exec_forLoop (bound_of_le hstart hle) (bound_of_le hsecond hle) (bound_of_le hlast hle)
  constructor
  · rintro ⟨fuel', hfuel'⟩
    refine ⟨max fuel fuel', ?_⟩
    rw [← hsame (le_max_left fuel fuel')]
    exact (Task.run_eq_of_le _ hfuel' (Nat.le_succ_of_le (le_max_right fuel fuel'))).trans_ne hfuel'
  · rintro ⟨fuel', hfuel'⟩
    refine ⟨max fuel fuel' + 1, ?_⟩
    rw [hsame (le_max_left fuel fuel')]
    exact (Task.run_eq_of_le _ hfuel' (le_max_right fuel fuel')).trans_ne hfuel'

theorem mem_rounds_forLoop {fuel' : Nat} {round : Machine}
    (h : round ∈ (Task.count counter.name (y - x) z body x).rounds o fuel' m₃) :
    round ∈ (Task.exec (.forLoop counter start second last body place)).rounds o (max fuel fuel' + 1) m := by
  have hle := le_max_left fuel fuel'
  rw [rounds_forLoop (bound_of_le hstart hle) (bound_of_le hsecond hle) (bound_of_le hlast hle)]
  exact mem_rounds_of_le (le_max_right fuel fuel') h

end

theorem rounded_limit_step : rounded (2 ^ 53 - (2 ^ 53 - 1)) = 1 := by
  rw [sub_sub_cancel]
  simpa using Number.rounded_intCast (n := 1) (by norm_num)

/-- Behind `2 ^ 53` the places of the doubles are greater than one: there a counter with the step one stands still. -/
theorem standstill_one : standstill 1 = 2 ^ 53 := by
  rw [standstill, abs_one, Int.clog_one_right, add_zero]
  norm_num

theorem stalls_one_iff {r : ℚ} : Stalls 1 r ↔ 2 ^ 53 ≤ r := by
  rw [Stalls, standstill_one]
  norm_num

theorem value?_ofBits_limit :
    value? (Float.ofBits 0x433FFFFFFFFFFFFF) = some (2 ^ 53 - 1)
      ∧ value? (Float.ofBits 0x4340000000000000) = some (2 ^ 53) := by
  have hfirst : Shape.ofFloat (Float.ofBits 0x433FFFFFFFFFFFFF) = .finite ⟨false, 2 ^ 53 - 1, 0⟩ := by decide +kernel
  have hlimit : Shape.ofFloat (Float.ofBits 0x4340000000000000) = .finite ⟨false, 2 ^ 52, 1⟩ := by decide +kernel
  rw [Number.value?_of_shape hfirst, Number.value?_of_shape hlimit]
  norm_num [Dyadic.value]

/-- A block that prints a literal is done once it has the fuel. -/
theorem execBlock_print_literal (o : Origins) (fuel : Nat) (value : Literal) (p p' : Position) (m : Machine) :
    execBlock o fuel [.print (.literal value p) p'] m = .outOfFuel
      ∨ execBlock o fuel [.print (.literal value p) p'] m = .done .next (m.print (.ofLiteral value)) := by
  match fuel with
  | 0 => exact .inl (execBlock.eq_1 _ _ _)
  | 1 => exact .inl (by rw [execBlock, exec]; rfl)
  | 2 => exact .inl (by rw [execBlock, exec, eval]; rfl)
  | fuel + 3 => exact .inr (by rw [execBlock, exec, eval]; rfl)

theorem halts_print_literal (o : Origins) (value : Literal) (p p' : Position) (m : Machine) :
    (Task.block [.print (.literal value p) p']).Halts o m := by
  refine ⟨3, ?_⟩
  change execBlock o 3 [.print (.literal value p) p'] m ≠ .outOfFuel
  rw [execBlock, exec, eval]
  exact Outcome.done_ne_outOfFuel

/-- A counting loop with finite bounds `x`, `y` and `z`, whose step is the double `d` nearest to the difference of the
first two. Its counter gets past the last value exactly if it does not stall, that is unless the last value is at or
behind `2 ^ 53` times the least power of two that is not below the step. Then the loop ends if the body of each of its
rounds does. Otherwise the counter comes to stand at this number, and the loop goes on without end unless the body of
a round fails or gives back a result. -/
theorem forLoop_halts_unless_stalls (counter : Name) (body : Block) {o : Origins} {fuel : Nat}
    {start second last : Expr} {place : Position} {m m₁ m₂ m₃ : Machine} {x y z : Float} {p q r : ℚ}
    (hstart : (eval o fuel start m).bound place = .done x m₁)
    (hsecond : (eval o fuel second m₁).bound place = .done y m₂)
    (hlast : (eval o fuel last m₂).bound place = .done z m₃)
    (hx : value? x = some p) (hy : value? y = some q) (hz : value? z = some r) :
    let loop : Task := .exec (.forLoop counter start second last body place)
    let value (k : Nat) := (· + (y - x))^[k] x
    let d := rounded (q - p)
    ((∃ k, ¬ Within (y - x) z (value k)) ↔ ¬ Stalls d r)
    ∧ (¬ Stalls d r → (∀ fuel, ∀ round ∈ loop.rounds o fuel m, (Task.block body).Halts o round) → loop.Halts o m)
    ∧ (Stalls d r →
      (∃ v, |v| = standstill d ∧ ∃ n, ∀ k ≥ n, value? (value k) = some v)
      ∧ ((∀ fuel, ∀ round ∈ loop.rounds o fuel m, ∀ fuel',
            execBlock o fuel' body round = .outOfFuel ∨ ∃ after, execBlock o fuel' body round = .done .next after) →
          ¬ loop.Halts o m)) := by
  intro loop value d
  have hpast := exists_not_within_iff hx hy hz
  have hhalts : loop.Halts o m ↔ _ := forLoop_halts_iff hstart hsecond hlast
  rw [hhalts]
  refine ⟨hpast, fun hmoves hbody => ?_, fun hstalls => ⟨exists_value?_eq hx hy hz hstalls, fun hbody => ?_⟩⟩
  · obtain ⟨k, hk⟩ := hpast.2 hmoves
    refine count_halts hk fun fuel' round hround => hbody (max fuel fuel' + 1) round ?_
    exact mem_rounds_forLoop hstart hsecond hlast hround
  · have hwithin : ∀ k, Within (y - x) z (value k) := fun k => not_not.1 fun hnot => hpast.1 ⟨k, hnot⟩ hstalls
    refine count_not_halts hwithin fun fuel' round hround => hbody (max fuel fuel' + 1) round ?_
    exact mem_rounds_forLoop hstart hsecond hlast hround

/-- From `2 ^ 53 - 1` over `2 ^ 53`: up to the first of the two there is one round, up to the second there are rounds
without end, all but the first with `2 ^ 53` for the counter. -/
theorem forLoop_halts_unless_stalls_limit :
    let first := Float.ofBits 0x433FFFFFFFFFFFFF
    let limit := Float.ofBits 0x4340000000000000
    let number (x : Float) : Expr := .literal (.number x) ⟨0, 8⟩
    let body : Block := [.print (number 0) ⟨1, 4⟩]
    let loop (last : Float) : Task :=
      .exec (.forLoop ⟨"i", ⟨0, 4⟩⟩ (number first) (number limit) (number last) body ⟨0, 0⟩)
    (loop first).Halts .one (.initial [])
      ∧ (∃ v, |v| = 2 ^ 53 ∧ ∃ n, ∀ k ≥ n, value? ((· + (limit - first))^[k] first) = some v)
      ∧ ¬ (loop limit).Halts .one (.initial []) := by
  intro first limit number body loop
  obtain ⟨hfirst, hlimit⟩ := value?_ofBits_limit
  have hnumber (x : Float) (m : Machine) : (eval .one 1 (number x) m).bound ⟨0, 0⟩ = .done x m := rfl
  have hends := forLoop_halts_unless_stalls ⟨"i", ⟨0, 4⟩⟩ body (hnumber first (.initial [])) (hnumber limit _)
    (hnumber first _) hfirst hlimit hfirst
  have hendless := forLoop_halts_unless_stalls ⟨"i", ⟨0, 4⟩⟩ body (hnumber first (.initial [])) (hnumber limit _)
    (hnumber limit _) hfirst hlimit hlimit
  have hmoves : ¬ Stalls (rounded (2 ^ 53 - (2 ^ 53 - 1))) (2 ^ 53 - 1) := by
    rw [rounded_limit_step, stalls_one_iff]
    norm_num
  have hstalls : Stalls (rounded (2 ^ 53 - (2 ^ 53 - 1))) (2 ^ 53) := by
    rw [rounded_limit_step]
    exact stalls_one_iff.2 (le_refl _)
  obtain ⟨hstands, hnever⟩ := hendless.2.2 hstalls
  rw [rounded_limit_step, standstill_one] at hstands
  refine ⟨hends.2.1 hmoves fun _ round _ => halts_print_literal .one _ _ _ round, hstands, ?_⟩
  refine hnever fun _ round _ fuel => ?_
  rcases execBlock_print_literal .one fuel (.number 0) ⟨0, 8⟩ ⟨1, 4⟩ round with hout | hdone
  · exact .inl hout
  · exact .inr ⟨_, hdone⟩

/-- A counting loop with finite bounds that never ends: from `2 ^ 53 - 1` over `2 ^ 53` up to the same number. -/
theorem not_halts_at_limit :
    let first := Float.ofBits 0x433FFFFFFFFFFFFF
    let limit := Float.ofBits 0x4340000000000000
    let number (x : Float) : Expr := .literal (.number x) ⟨0, 8⟩
    let body : Block := [.print (number 0) ⟨1, 4⟩]
    let loop : Statement := .forLoop ⟨"i", ⟨0, 4⟩⟩ (number first) (number limit) (number limit) body ⟨0, 0⟩
    value? first = some (2 ^ 53 - 1) ∧ value? limit = some (2 ^ 53)
      ∧ ¬ (∃ k, ¬ Within (limit - first) limit ((· + (limit - first))^[k] first))
      ∧ ¬ ((∀ m, (Task.block body).Halts .one m) → (Task.exec loop).Halts .one (.initial [])) := by
  intro first limit number body loop
  obtain ⟨hfirst, hlimit⟩ := value?_ofBits_limit
  have hnumber (x : Float) (m : Machine) : (eval .one 1 (number x) m).bound ⟨0, 0⟩ = .done x m := rfl
  have hwithin : ¬ ∃ k, ¬ Within (limit - first) limit ((· + (limit - first))^[k] first) := by
    rw [exists_not_within_iff hfirst hlimit hlimit, rounded_limit_step, stalls_one_iff]
    exact not_not.2 (le_refl _)
  refine ⟨hfirst, hlimit, hwithin, fun hclaim => ?_⟩
  have hloop := hclaim (halts_print_literal .one _ _ _)
  rw [forLoop_halts_iff (hnumber first (.initial [])) (hnumber limit _) (hnumber limit _)] at hloop
  refine count_not_halts (fun k => not_not.1 fun hnot => hwithin ⟨k, hnot⟩) (fun _ round _ fuel => ?_) hloop
  rcases execBlock_print_literal .one fuel (.number 0) ⟨0, 8⟩ ⟨1, 4⟩ round with hout | hdone
  · exact .inl hout
  · exact .inr ⟨_, hdone⟩

end PolishPseudocode
