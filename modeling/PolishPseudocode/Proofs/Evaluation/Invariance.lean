import PolishPseudocode.Proofs.Evaluation.Correspondence
import PolishPseudocode.Proofs.Evaluation.Fuel

/-! Identities do not matter. A task that is carried out in two states which differ only in the identities of arrays
and functions ends in both or in neither, with values that differ only in identities or with the same error, and in
states that again differ in nothing else. -/

namespace PolishPseudocode

/-! ### Outcomes -/

/-- Outcomes that match: related values in related states, the same error in related states, or both out of fuel. -/
inductive Outcome.Matches {α β : Type} (states : Machine → Machine → Prop) (values : α → β → Prop) :
    Outcome α → Outcome β → Prop where
  | done {a : α} {b : β} {m m' : Machine} (hvalue : values a b) (hm : states m m') :
      Matches states values (.done a m) (.done b m')
  | failed (error : RuntimeError) {m m' : Machine} (hm : states m m') :
      Matches states values (.failed error m) (.failed error m')
  | outOfFuel : Matches states values .outOfFuel .outOfFuel

namespace Outcome.Matches

variable {α β γ δ : Type} {states : Machine → Machine → Prop} {values : α → β → Prop} {values' : γ → δ → Prop}

theorem imp {states' : Machine → Machine → Prop} {outcome : Outcome α} {outcome' : Outcome β}
    (h : Matches states values outcome outcome') (himp : ∀ m m', states m m' → states' m m') :
    Matches states' values outcome outcome' := by
  cases h with
  | done hvalue hm => exact .done hvalue (himp _ _ hm)
  | failed error hm => exact .failed error (himp _ _ hm)
  | outOfFuel => exact .outOfFuel

theorem andThen {first : Outcome α} {first' : Outcome β} {next : α → Machine → Outcome γ}
    {next' : β → Machine → Outcome δ} (h : Matches states values first first')
    (hnext : ∀ a b m m', values a b → states m m' → Matches states values' (next a m) (next' b m')) :
    Matches states values' (first.andThen next) (first'.andThen next') := by
  cases h with
  | done hvalue hm => exact hnext _ _ _ _ hvalue hm
  | failed error hm => exact .failed error hm
  | outOfFuel => exact .outOfFuel

theorem mapAfter {outcome : Outcome α} {outcome' : Outcome β} {change : Machine → Machine}
    (h : Matches states values outcome outcome') (hchange : ∀ m m', states m m' → states (change m) (change m')) :
    Matches states values (outcome.mapAfter change) (outcome'.mapAfter change) := by
  cases h with
  | done hvalue hm => exact .done hvalue (hchange _ _ hm)
  | failed error hm => exact .failed error (hchange _ _ hm)
  | outOfFuel => exact .outOfFuel

theorem ofExcept {m m' : Machine} {result : Except Fault α} {result' : Except Fault β}
    (h : SameResult values result result') (hm : states m m') (place : Position) :
    Matches states values (Outcome.ofExcept m place result) (Outcome.ofExcept m' place result') := by
  cases h with
  | ok hvalue => exact .done hvalue hm
  | error fault => exact .failed _ hm

theorem bound {p : Pairing} {outcome outcome' : Outcome Value}
    (h : Matches states (Value.Alike p) outcome outcome') (place : Position) :
    Matches states Eq (outcome.bound place) (outcome'.bound place) := by
  refine h.andThen fun v v' m m' hv hm => ?_
  cases hv with
  | number x => exact .done rfl hm
  | _ => exact .failed _ hm

end Outcome.Matches

/-! ### Tasks -/

/-- Ends of statements that are the same but for paired identities in a result. -/
inductive Flow.Alike (p : Pairing) : Flow → Flow → Prop where
  | next : Alike p .next .next
  | giveBack {result result' : Option Value} (h : Option.Rel (Value.Alike p) result result') :
      Alike p (.giveBack result) (.giveBack result')

theorem Flow.Alike.result {p : Pairing} {flow flow' : Flow} (h : Flow.Alike p flow flow') :
    Option.Rel (Value.Alike p) flow.result flow'.result := by
  cases h with
  | next => exact .none
  | giveBack h => exact h

namespace Task

def Shared (p : Pairing) : Task → Prop
  | eval e => p.Shares e.marks
  | evalAll es => p.Shares (Expr.marksAll es)
  | call callee arguments _ => p.names callee.name ∧ p.Shares (Expr.marksAll arguments)
  | exec s => p.Shares s.marks
  | block b => p.Shares (Statement.marksAll b)
  | loop condition body _ => p.Shares condition.marks ∧ p.Shares (Statement.marksAll body)
  | count _ _ _ body _ => p.Shares (Statement.marksAll body)

def Alike (p : Pairing) : (task : Task) → task.Result → task.Result → Prop
  | eval _ => Value.Alike p
  | evalAll _ => List.Forall₂ (Value.Alike p)
  | call _ _ _ => Option.Rel (Value.Alike p)
  | exec _ | block _ | loop _ _ _ | count _ _ _ _ _ => Flow.Alike p

end Task

/-- Within some fuel, all tasks with shared names match in parallel states. -/
def MatchesAt (p : Pairing) (o : Origins) (fuel : Nat) : Prop :=
  ∀ (task : Task) (m m' : Machine), task.Shared p → m.Parallel p m' →
    (task.run o fuel m).Matches (Machine.Parallel p) (task.Alike p) (task.run o fuel m')

namespace MatchesAt

variable {p : Pairing} {o : Origins} {fuel : Nat} (h : MatchesAt p o fuel) {m m' : Machine} (hm : m.Parallel p m')

include h hm

theorem eval {e : Expr} (he : p.Shares e.marks) :
    (PolishPseudocode.eval o (fuel + 1) e m).Matches (Machine.Parallel p) (Value.Alike p)
      (PolishPseudocode.eval o (fuel + 1) e m') := by
  rw [PolishPseudocode.eval.eq_def, PolishPseudocode.eval.eq_def]
  cases e with
  | literal value place => cases value <;> exact .done (by constructor) hm
  | var name =>
      have hlookup := hm.lookup (Pairing.Shares.cons_iff.1 he).1
      dsimp only
      generalize m.lookup name.name = found at hlookup
      generalize m'.lookup name.name = found' at hlookup
      cases hlookup with
      | none => exact .failed _ hm
      | some hv => exact .done hv hm
  | unary op operand place =>
      refine (h (.eval operand) m m' he.tail hm).andThen fun v v' m m' hv hm => ?_
      exact .ofExcept (op.apply_same hv) hm place
  | binary left op right place =>
      obtain ⟨hleft, hright⟩ := Pairing.Shares.append_iff.1 he
      refine (h (.eval left) m m' hleft hm).andThen fun v v' m m' hv hm => ?_
      rw [op.isDecidedBy_eq hv]
      split
      · exact .done hv hm
      · refine (h (.eval right) m m' hright.tail hm).andThen fun w w' m m' hw hm => ?_
        exact .ofExcept (op.apply_same hv hw) hm place
  | index target index place =>
      obtain ⟨htarget, hindex⟩ := Pairing.Shares.append_iff.1 he
      refine (h (.eval index) m m' hindex hm).andThen fun i i' m m' hi hm => ?_
      refine (h (.eval target) m m' htarget hm).andThen fun v v' m m' hv hm => ?_
      have helement := hm.element_same o hv hi target.subject place
      generalize m.element o v i target.subject place = result at helement
      generalize m'.element o v' i' target.subject place = result' at helement
      cases helement with
      | ok hvalue => exact .done hvalue hm
      | error e => exact .failed e hm
  | call callee arguments place =>
      refine (h (.call callee arguments place) m m' (Pairing.Shares.cons_iff.1 he) hm).andThen ?_
      intro result result' m m' hresult hm
      cases hresult with
      | none => exact .failed _ hm
      | some hv => exact .done hv hm

theorem evalAll {es : List Expr} (hes : p.Shares (Expr.marksAll es)) :
    (PolishPseudocode.evalAll o (fuel + 1) es m).Matches (Machine.Parallel p) (List.Forall₂ (Value.Alike p))
      (PolishPseudocode.evalAll o (fuel + 1) es m') := by
  cases es with
  | nil => exact .done .nil hm
  | cons e rest =>
      obtain ⟨he, hrest⟩ := Pairing.Shares.append_iff.1 hes
      rw [PolishPseudocode.evalAll, PolishPseudocode.evalAll]
      refine (h (.eval e) m m' he hm).andThen fun v v' m m' hv hm => ?_
      exact (h (.evalAll rest) m m' hrest hm).andThen fun values values' m m' hvalues hm =>
        .done (.cons hv hvalues) hm

theorem call {callee : Name} {arguments : List Expr} (hcallee : p.names callee.name)
    (harguments : p.Shares (Expr.marksAll arguments)) (place : Position) :
    (PolishPseudocode.call o (fuel + 1) callee arguments place m).Matches (Machine.Parallel p)
      (Option.Rel (Value.Alike p)) (PolishPseudocode.call o (fuel + 1) callee arguments place m') := by
  have hlookup := hm.lookup hcallee
  rw [PolishPseudocode.call, PolishPseudocode.call]
  generalize m.lookup callee.name = found at hlookup
  generalize m'.lookup callee.name = found' at hlookup
  cases hlookup with
  | none => exact .failed _ hm
  | some hv =>
      cases hv with
      | builtin f =>
          dsimp only
          split
          · refine (h (.evalAll arguments) m m' harguments hm).andThen fun values values' m m' hvalues hm => ?_
            have happly := Builtin.apply_same hm.toAlike f hvalues
            exact .ofExcept (happly.map fun _ _ => .some) hm callee.position
          · exact .failed _ hm
      | @function i j hij parameters body hbody =>
          dsimp only
          by_cases harity : parameters.length = arguments.length
          · have htakes (serial : Nat) : (⟨serial, parameters, body⟩ : Function).arity = arguments.length := harity
            rw [if_pos (htakes i), if_pos (htakes j)]
            refine (h (.evalAll arguments) m m' harguments hm).andThen fun values values' m m' hvalues hm => ?_
            rw [hm.depth_eq]
            split
            · have hentered := hm.push (Frame.Alike.ofArguments hvalues parameters)
              have hran := (h (.block body) _ _ hbody hentered).mapAfter fun _ _ => Machine.Parallel.pop
              exact hran.andThen fun flow flow' m m' hflow hm => .done hflow.result hm
            · exact .failed _ hm
          · have htakes (serial : Nat) : ¬ (⟨serial, parameters, body⟩ : Function).arity = arguments.length := harity
            rw [if_neg (htakes i), if_neg (htakes j)]
            exact .failed _ hm
      | _ => exact .failed _ hm

theorem assignElement {name : Name} {index value : Expr} (hname : p.names name.name) (hindex : p.Shares index.marks)
    (hvalue : p.Shares value.marks) :
    (PolishPseudocode.exec o (fuel + 1) (.assign (.element name index) value) m).Matches (Machine.Parallel p)
      (Flow.Alike p) (PolishPseudocode.exec o (fuel + 1) (.assign (.element name index) value) m') := by
  rw [PolishPseudocode.exec, PolishPseudocode.exec]
  refine (h (.eval value) m m' hvalue hm).andThen fun v v' m m' hv hm => ?_
  obtain ⟨howner, hm⟩ := hm.elementOwner hname
  dsimp only
  rw [howner.isIndexable_eq]
  split
  · refine (h (.eval index) _ _ hindex hm).andThen fun i i' m m' hi hm => ?_
    have hwrite := hm.elementWrite_same o hname howner hi hv index.position
    generalize m.elementWrite o name _ i v index.position = result at hwrite
    generalize m'.elementWrite o name _ i' v' index.position = result' at hwrite
    cases hwrite with
    | ok hwrite => exact .done .next (hm.perform hwrite)
    | error e => exact .failed e hm
  · exact .failed _ hm

theorem forLoop {start second last : Expr} {body : Block} (hstart : p.Shares start.marks)
    (hsecond : p.Shares second.marks) (hlast : p.Shares last.marks) (hbody : p.Shares (Statement.marksAll body))
    (counter : Name) (place : Position) :
    (PolishPseudocode.exec o (fuel + 1) (.forLoop counter start second last body place) m).Matches
      (Machine.Parallel p) (Flow.Alike p)
      (PolishPseudocode.exec o (fuel + 1) (.forLoop counter start second last body place) m') := by
  rw [PolishPseudocode.exec, PolishPseudocode.exec]
  refine (Outcome.Matches.bound (h (.eval start) m m' hstart hm) place).andThen ?_
  rintro start _ m m' rfl hm
  refine (Outcome.Matches.bound (h (.eval second) m m' hsecond hm) place).andThen ?_
  rintro second _ m m' rfl hm
  refine (Outcome.Matches.bound (h (.eval last) m m' hlast hm) place).andThen ?_
  rintro last _ m m' rfl hm
  exact h (.count counter.name (second - start) last body start) m m' hbody hm

theorem branch {condition : Expr} {body : Block} {otherwise : Option Block} (hcondition : p.Shares condition.marks)
    (hbody : p.Shares (Statement.marksAll body)) (hother : ∀ other ∈ otherwise, p.Shares (Statement.marksAll other))
    (place : Position) :
    (PolishPseudocode.exec o (fuel + 1) (.branch condition body otherwise place) m).Matches (Machine.Parallel p)
      (Flow.Alike p) (PolishPseudocode.exec o (fuel + 1) (.branch condition body otherwise place) m') := by
  rw [PolishPseudocode.exec, PolishPseudocode.exec]
  refine (h (.eval condition) m m' hcondition hm).andThen fun v v' m m' hv hm => ?_
  cases hv with
  | bool b =>
      cases b with
      | true => exact h (.block body) m m' hbody hm
      | false =>
          cases otherwise with
          | none => exact .done .next hm
          | some other => exact h (.block other) m m' (hother other rfl) hm
  | _ => cases otherwise <;> exact .failed _ hm

theorem giveBack {value : Option Expr} (hvalue : ∀ e ∈ value, p.Shares e.marks) (place : Position) :
    (PolishPseudocode.exec o (fuel + 1) (.giveBack value place) m).Matches (Machine.Parallel p) (Flow.Alike p)
      (PolishPseudocode.exec o (fuel + 1) (.giveBack value place) m') := by
  cases value with
  | none => exact .done (.giveBack .none) hm
  | some e =>
      have he := hvalue e rfl
      cases e with
      | call callee arguments place =>
          rw [PolishPseudocode.exec, PolishPseudocode.exec]
          refine (h (.call callee arguments place) m m' (Pairing.Shares.cons_iff.1 he) hm).andThen ?_
          exact fun result result' m m' hresult hm => .done (.giveBack hresult) hm
      | _ =>
          rw [PolishPseudocode.exec, PolishPseudocode.exec]
          · refine (h (.eval _) m m' he hm).andThen fun v v' m m' hv hm => ?_
            exact .done (.giveBack (.some hv)) hm
          · intro callee arguments place hcall
            cases hcall
          · intro callee arguments place hcall
            cases hcall

theorem exec {s : Statement} (hs : p.Shares s.marks) :
    (PolishPseudocode.exec o (fuel + 1) s m).Matches (Machine.Parallel p) (Flow.Alike p)
      (PolishPseudocode.exec o (fuel + 1) s m') := by
  cases s with
  | assign target value =>
      cases target with
      | var name =>
          obtain ⟨hname, hvalue⟩ := Pairing.Shares.cons_iff.1 hs
          rw [PolishPseudocode.exec, PolishPseudocode.exec]
          exact (h (.eval value) m m' hvalue hm).andThen fun v v' m m' hv hm => .done .next (hm.assign hv hname)
      | element name index =>
          obtain ⟨hname, hparts⟩ := Pairing.Shares.cons_iff.1 hs
          obtain ⟨hindex, hvalue⟩ := Pairing.Shares.append_iff.1 hparts
          exact h.assignElement hm hname hindex hvalue
  | call callee arguments place =>
      rw [PolishPseudocode.exec, PolishPseudocode.exec]
      refine (h (.call callee arguments place) m m' (Pairing.Shares.cons_iff.1 hs) hm).andThen ?_
      exact fun result result' m m' hresult hm => .done .next hm
  | whileLoop condition body place =>
      rw [PolishPseudocode.exec, PolishPseudocode.exec]
      exact h (.loop condition body place) m m' (Pairing.Shares.append_iff.1 hs) hm
  | forLoop counter start second last body place =>
      obtain ⟨-, hs⟩ := Pairing.Shares.cons_iff.1 hs
      obtain ⟨hstart, hs⟩ := Pairing.Shares.append_iff.1 hs
      obtain ⟨hsecond, hs⟩ := Pairing.Shares.append_iff.1 hs
      obtain ⟨hlast, hbody⟩ := Pairing.Shares.append_iff.1 hs
      exact h.forLoop hm hstart hsecond hlast hbody counter place
  | branch condition body otherwise place =>
      cases otherwise with
      | none =>
          obtain ⟨hcondition, hbody⟩ := Pairing.Shares.append_iff.1 hs
          exact h.branch hm hcondition hbody (fun other hother => by cases hother) place
      | some other =>
          obtain ⟨hcondition, hblocks⟩ := Pairing.Shares.append_iff.1 hs
          obtain ⟨hbody, hother⟩ := Pairing.Shares.append_iff.1 hblocks
          exact h.branch hm hcondition hbody (fun _ heq => Option.some.inj heq ▸ hother) place
  | function name parameters body place =>
      obtain ⟨hname, hparts⟩ := Pairing.Shares.cons_iff.1 hs
      obtain ⟨-, hbody⟩ := Pairing.Shares.append_iff.1 hparts
      rw [PolishPseudocode.exec, PolishPseudocode.exec]
      obtain ⟨hf, hm⟩ := hm.newFunction (parameters.map Name.name) hbody
      exact .done .next (hm.define hf name.name)
  | giveBack value place =>
      cases value with
      | none => exact h.giveBack hm (fun e he => by cases he) place
      | some value => exact h.giveBack hm (fun _ heq => Option.some.inj heq ▸ hs) place
  | print e place =>
      rw [PolishPseudocode.exec, PolishPseudocode.exec]
      exact (h (.eval e) m m' hs hm).andThen fun v v' m m' hv hm => .done .next (hm.print hv)

theorem block {b : Block} (hb : p.Shares (Statement.marksAll b)) :
    (execBlock o (fuel + 1) b m).Matches (Machine.Parallel p) (Flow.Alike p) (execBlock o (fuel + 1) b m') := by
  cases b with
  | nil => exact .done .next hm
  | cons s rest =>
      obtain ⟨hs, hrest⟩ := Pairing.Shares.append_iff.1 hb
      rw [execBlock, execBlock]
      refine (h (.exec s) m m' hs hm).andThen fun flow flow' m m' hflow hm => ?_
      cases hflow with
      | next => exact h (.block rest) m m' hrest hm
      | giveBack hresult => exact .done (.giveBack hresult) hm

theorem loop {condition : Expr} {body : Block} (hcondition : p.Shares condition.marks)
    (hbody : p.Shares (Statement.marksAll body)) (place : Position) :
    (PolishPseudocode.loop o (fuel + 1) condition body place m).Matches (Machine.Parallel p) (Flow.Alike p)
      (PolishPseudocode.loop o (fuel + 1) condition body place m') := by
  rw [PolishPseudocode.loop, PolishPseudocode.loop]
  refine (h (.eval condition) m m' hcondition hm).andThen fun v v' m m' hv hm => ?_
  cases hv with
  | bool b =>
      cases b with
      | false => exact .done .next hm
      | true =>
          refine (h (.block body) m m' hbody hm).andThen fun flow flow' m m' hflow hm => ?_
          cases hflow with
          | next => exact h (.loop condition body place) m m' ⟨hcondition, hbody⟩ hm
          | giveBack hresult => exact .done (.giveBack hresult) hm
  | _ => exact .failed _ hm

theorem count {body : Block} (hbody : p.Shares (Statement.marksAll body)) (counter : String) (step last x : Float) :
    (PolishPseudocode.count o (fuel + 1) counter step last body x m).Matches (Machine.Parallel p) (Flow.Alike p)
      (PolishPseudocode.count o (fuel + 1) counter step last body x m') := by
  rw [PolishPseudocode.count, PolishPseudocode.count]
  split
  · refine (h (.block body) _ _ hbody (hm.define (.number x) counter)).andThen fun flow flow' m m' hflow hm => ?_
    cases hflow with
    | next => exact h (.count counter step last body (x + step)) m m' hbody hm
    | giveBack hresult => exact .done (.giveBack hresult) hm
  · exact .done .next hm

omit hm in
theorem succ : MatchesAt p o (fuel + 1) := by
  intro task m m' htask hm
  cases task with
  | eval e => exact h.eval hm htask
  | evalAll es => exact h.evalAll hm htask
  | call callee arguments place => exact h.call hm htask.1 htask.2 place
  | exec s => exact h.exec hm htask
  | block b => exact h.block hm htask
  | loop condition body place => exact h.loop hm htask.1 htask.2 place
  | count counter step last body x => exact h.count hm htask counter step last x

end MatchesAt

/-- In parallel states every task matches. -/
theorem matchesAt (p : Pairing) (o : Origins) (fuel : Nat) : MatchesAt p o fuel := by
  induction fuel with
  | zero =>
      intro task m m' _ _
      rw [Task.run_zero, Task.run_zero]
      exact .outOfFuel
  | succ fuel ih => exact ih.succ

/-! ### Whole programs -/

theorem execProgram_matches {p : Pairing} (o : Origins) (fuel : Nat) {program : Program}
    (hprogram : p.Shares (Statement.marksAll program)) {m m' : Machine} (hm : m.Parallel p m') :
    (execProgram o fuel program m).Matches (Machine.Parallel p) Eq (execProgram o fuel program m') := by
  induction program generalizing m m' with
  | nil => exact .done rfl hm
  | cons s rest ih =>
      obtain ⟨hs, hrest⟩ := Pairing.Shares.append_iff.1 hprogram
      exact (matchesAt p o fuel (.exec s) m m' hs hm).andThen fun flow flow' m m' _ hm => ih hrest hm

/-- From parallel states a program has the same result. -/
theorem result?_execProgram_eq {p : Pairing} (o : Origins) (fuel : Nat) {program : Program}
    (hprogram : p.Shares (Statement.marksAll program)) {m m' : Machine} (hm : m.Parallel p m') :
    (execProgram o fuel program m).result? = (execProgram o fuel program m').result? := by
  have hmatches := execProgram_matches o fuel hprogram hm
  generalize execProgram o fuel program m = outcome at hmatches
  generalize execProgram o fuel program m' = outcome' at hmatches
  cases hmatches with
  | done _ hm => rw [Outcome.result?, Outcome.result?, hm.output]
  | failed error hm => rw [Outcome.result?, Outcome.result?, hm.output]
  | outOfFuel => rfl

/-! ### Bijections -/

/-- States that correspond under a pairing: they are alike, and what is there is paired only with what is there. What
is still to come may be paired too, in the order in which it will be made. -/
structure Machine.Corresponds (p : Pairing) (m m' : Machine) : Prop extends Machine.Alike p m m' where
  arrays : ∀ {i j}, p.arrays i j → InStep m.arrays.size m'.arrays.size i j
  functions : ∀ {i j}, p.functions i j → InStep m.functions m'.functions i j

/-- A relation of identities, and the pairs of those that are still to come. -/
def withNext (related : Nat → Nat → Prop) (n n' : Nat) (i j : Nat) : Prop :=
  related i j ∨ ∃ k, i = n + k ∧ j = n' + k

theorem withNext_unique {related : Nat → Nat → Prop} (h : Relator.BiUnique related) {n n' : Nat}
    (hstep : ∀ {i j}, related i j → InStep n n' i j) : Relator.BiUnique (withNext related n n') := by
  have heq {i j i' j' : Nat} (hij : withNext related n n' i j) (hij' : withNext related n n' i' j') :
      i = i' ↔ j = j' := by
    rcases hij with hij | ⟨k, rfl, rfl⟩
    · rcases hij' with hij' | ⟨k', rfl, rfl⟩
      · exact Relator.rel_eq h hij hij'
      · rcases hstep hij with ⟨hi, hj⟩ | ⟨k, rfl, rfl⟩ <;> omega
    · rcases hij' with hij' | ⟨k', rfl, rfl⟩
      · rcases hstep hij' with ⟨hi, hj⟩ | ⟨k, rfl, rfl⟩ <;> omega
      · omega
  constructor
  · intro i j i' hij hij'
    exact (heq hij hij').2 rfl
  · intro i j j' hij hij'
    exact (heq hij hij').1 rfl

/-! ### More pairs -/

/-- The second pairing has all pairs of the first one and shares the same names. -/
structure Pairing.Le (p q : Pairing) : Prop where
  arrays : ∀ {i j}, p.arrays i j → q.arrays i j
  functions : ∀ {i j}, p.functions i j → q.functions i j
  names : q.names = p.names

namespace Pairing.Le

variable {p q : Pairing} (hle : p.Le q)

include hle

theorem shares {marks : List Token} (h : p.Shares marks) : q.Shares marks := by
  rw [Pairing.Shares, hle.names]
  exact h

theorem value {v v' : Value} (h : Value.Alike p v v') : Value.Alike q v v' := by
  cases h with
  | number x => exact .number x
  | text s => exact .text s
  | bool b => exact .bool b
  | array h => exact .array (hle.arrays h)
  | builtin f => exact .builtin f
  | function h parameters hbody => exact .function (hle.functions h) parameters (hle.shares hbody)

theorem frame {f f' : Frame} (h : Frame.Alike p f f') : Frame.Alike q f f' := by
  intro name hname
  rw [hle.names] at hname
  have hrel := h name hname
  generalize f.get? name = found at hrel
  generalize f'.get? name = found' at hrel
  cases hrel with
  | none => exact .none
  | some hv => exact .some (hle.value hv)

end Pairing.Le

namespace Machine.Corresponds

variable {p : Pairing} {m m' : Machine}

/-- The pairing with the arrays and functions that are still to come. -/
def onward (h : m.Corresponds p m') : Pairing where
  arrays := withNext p.arrays m.arrays.size m'.arrays.size
  functions := withNext p.functions m.functions m'.functions
  names := p.names
  arrays_unique := withNext_unique p.arrays_unique h.arrays
  functions_unique := withNext_unique p.functions_unique h.functions

theorem le_onward (h : m.Corresponds p m') : p.Le h.onward :=
  ⟨.inl, .inl, rfl⟩

/-- What is still to come is made in step. -/
theorem parallel (h : m.Corresponds p m') : m.Parallel h.onward m' where
  frames := h.frames.imp fun _ _ => h.le_onward.frame
  items := by
    rintro i j (hij | ⟨k, rfl, rfl⟩)
    · exact (h.items hij).imp fun _ _ => h.le_onward.value
    · rw [items_of_le (Nat.le_add_right _ k), items_of_le (Nat.le_add_right _ k)]
      exact .nil
  output := h.output
  nextArray k := .inr ⟨k, rfl, rfl⟩
  nextFunction k := .inr ⟨k, rfl, rfl⟩

end Machine.Corresponds

theorem Machine.Parallel.corresponds {p : Pairing} {m m' : Machine} (h : m.Parallel p m') : m.Corresponds p m' where
  toAlike := h.toAlike
  arrays := inStep_of_next p.arrays_unique h.nextArray
  functions := inStep_of_next p.functions_unique h.nextFunction

/-- Every array and every function of two states is paired, so that the pairing is a bijection. -/
structure Pairing.Exhausts (p : Pairing) (m m' : Machine) : Prop where
  arrays : ∀ i < m.arrays.size, ∃ j, p.arrays i j
  arrays' : ∀ j < m'.arrays.size, ∃ i, p.arrays i j
  functions : ∀ i < m.functions, ∃ j, p.functions i j
  functions' : ∀ j < m'.functions, ∃ i, p.functions i j

/-- With what is still to come, a bijection is one of all identities. -/
theorem withNext_total {related : Nat → Nat → Prop} {n n' : Nat} (h : ∀ i < n, ∃ j, related i j)
    (h' : ∀ j < n', ∃ i, related i j) :
    (∀ i, ∃ j, withNext related n n' i j) ∧ ∀ j, ∃ i, withNext related n n' i j := by
  constructor
  · intro i
    by_cases hi : i < n
    · obtain ⟨j, hij⟩ := h i hi
      exact ⟨j, .inl hij⟩
    · obtain ⟨k, rfl⟩ := Nat.exists_eq_add_of_le (Nat.le_of_not_lt hi)
      exact ⟨n' + k, .inr ⟨k, rfl, rfl⟩⟩
  · intro j
    by_cases hj : j < n'
    · obtain ⟨i, hij⟩ := h' j hj
      exact ⟨i, .inl hij⟩
    · obtain ⟨k, rfl⟩ := Nat.exists_eq_add_of_le (Nat.le_of_not_lt hj)
      exact ⟨n + k, .inr ⟨k, rfl, rfl⟩⟩

theorem Pairing.Exhausts.onward {p : Pairing} {m m' : Machine} (hp : p.Exhausts m m') (h : m.Corresponds p m')
    (after after' : Machine) : h.onward.Exhausts after after' := by
  obtain ⟨harrays, harrays'⟩ := withNext_total hp.arrays hp.arrays'
  obtain ⟨hfunctions, hfunctions'⟩ := withNext_total hp.functions hp.functions'
  exact ⟨fun i _ => harrays i, fun j _ => harrays' j, fun i _ => hfunctions i, fun j _ => hfunctions' j⟩

/-- A statement ends in the same way in corresponding states, which correspond again. -/
theorem exec_matches {p : Pairing} (o : Origins) (fuel : Nat) {s : Statement} (hs : p.Shares s.marks) {m m' : Machine}
    (h : m.Corresponds p m') :
    (exec o fuel s m).Matches
      (fun after after' => after.Corresponds h.onward after' ∧ (p.Exhausts m m' → h.onward.Exhausts after after'))
      (Flow.Alike h.onward) (exec o fuel s m') := by
  have hmatches : (exec o fuel s m).Matches (Machine.Parallel h.onward) (Flow.Alike h.onward) (exec o fuel s m') :=
    matchesAt h.onward o fuel (.exec s) m m' (h.le_onward.shares hs) h.parallel
  exact hmatches.imp fun after after' hafter => ⟨hafter.corresponds, fun hp => hp.onward h after after'⟩

end PolishPseudocode
