import PolishPseudocode.Proofs.Evaluation.Fuel
import PolishPseudocode.Proofs.Evaluation.Law

/-! What is printed. Nothing that was printed is taken back, also where an evaluation fails. So a program that
fails does so whatever statements stand behind it, and one that does not has printed what every longer program
prints first. -/

namespace PolishPseudocode

namespace Machine

theorem output_assign (m : Machine) (name : String) (value : Value) :
    (m.assign name value).output = m.output := by
  rw [assign]
  split
  · rfl
  · split <;> rfl

theorem output_pop (m : Machine) : m.pop.output = m.output := by
  rw [pop]
  split <;> rfl

/-- All that was printed before comes first in what was printed after. -/
def PrintsOn (m m' : Machine) : Prop :=
  m.output.toList <+: m'.output.toList

theorem PrintsOn.of_eq {m m' : Machine} (h : m'.output = m.output) : PrintsOn m m' := by
  have hsame : m.output.toList = m'.output.toList := congrArg Array.toList h.symm
  exact ⟨[], (List.append_nil _).trans hsame⟩

end Machine

def outputLaw : Law where
  inner := Machine.PrintsOn
  outer := Machine.PrintsOn
  inner_refl _ := .of_eq rfl
  inner_trans := List.IsPrefix.trans
  outer_trans := List.IsPrefix.trans
  outer_of_inner h := h
  define _ _ _ := .of_eq rfl
  assign m name value := .of_eq (m.output_assign name value)
  newArray _ _ := .of_eq rfl
  setItem _ _ _ _ := .of_eq rfl
  newFunction _ _ _ := .of_eq rfl
  print m value := by
    rw [Machine.PrintsOn, Machine.print, Array.toList_push]
    exact List.prefix_append _ _
  call {m m'} frame h := by
    rw [Machine.PrintsOn, Machine.output_pop]
    exact h

/-! ### One program behind the other -/

theorem execProgram_append (o : Origins) (fuel : Nat) (p q : Program) (m : Machine) :
    execProgram o fuel (p ++ q) m = (execProgram o fuel p m).andThen fun _ m => execProgram o fuel q m := by
  induction p generalizing m with
  | nil => rfl
  | cons s rest ih =>
      rw [List.cons_append, execProgram, execProgram]
      cases exec o fuel s m with
      | done flow after => exact ih after
      | failed error after => rfl
      | outOfFuel => rfl

theorem execProgram_printsOn (o : Origins) (fuel : Nat) (p : Program) (m : Machine) :
    (execProgram o fuel p m).Leaves m.PrintsOn := by
  induction p generalizing m with
  | nil => exact outputLaw.outer_refl m
  | cons s rest ih => exact outputLaw.then_outer (outputLaw.holdsWithin o fuel (.exec s) m) fun flow m => ih m

/-- What a run printed until it ended, with or without a failure. -/
def printedBefore : Except Failure (List Printed) → List Printed
  | .ok output => output
  | .error failure => failure.output

namespace Program

variable {o : Origins} {fuel : Nat} {bindings : List (String × Datum)} {p : Program}

/-- With the same fuel, what follows a program that fails is never come to. -/
theorem run?_append_of_error {failure : Failure} (h : p.run? o fuel bindings = some (.error failure))
    (q : Program) : (p ++ q).run? o fuel bindings = some (.error failure) := by
  rw [run?] at h
  rw [run?, execProgram_append]
  cases hp : execProgram o fuel p (.initial bindings) with
  | done value after =>
      rw [hp] at h
      cases h
  | failed error after =>
      rw [hp] at h
      exact h
  | outOfFuel =>
      rw [hp] at h
      cases h

/-- With the same fuel, what follows a program that does not fail prints behind it. -/
theorem prefix_of_run?_append {output : List Printed} {q : Program} {result : Except Failure (List Printed)}
    (h : p.run? o fuel bindings = some (.ok output)) (hq : (p ++ q).run? o fuel bindings = some result) :
    output <+: printedBefore result := by
  rw [run?] at h
  rw [run?, execProgram_append] at hq
  cases hp : execProgram o fuel p (.initial bindings) with
  | done value after =>
      rw [hp] at h hq
      cases h
      have hprints := execProgram_printsOn o fuel q after
      change (execProgram o fuel q after).result? = some result at hq
      cases hrest : execProgram o fuel q after with
      | done value last =>
          rw [hrest] at hprints hq
          cases hq
          exact hprints
      | failed error last =>
          rw [hrest] at hprints hq
          cases hq
          exact hprints
      | outOfFuel =>
          rw [hrest] at hq
          cases hq
  | failed error after =>
      rw [hp] at h
      cases h
  | outOfFuel =>
      rw [hp] at h
      cases h

end Program

/-- An expression and a statement end, with a value or an error, with all that was printed before in front of what
they printed. So of two programs run from the same variables, a first one that fails makes both together fail in
the same way, with the same message, place and output and in no other way; a first one that does not fail has
printed the beginning of what both together print, also where these fail. -/
theorem output_kept (o : Origins) :
    (∀ fuel m e, (eval o fuel e m).Leaves fun m' => m.output.toList <+: m'.output.toList)
    ∧ (∀ fuel m s, (exec o fuel s m).Leaves fun m' => m.output.toList <+: m'.output.toList)
    ∧ ∀ (bindings : List (String × Datum)) (p q : Program),
      (∀ failure, p.Ends o bindings (.error failure) →
        ∀ result, (p ++ q).Ends o bindings result ↔ result = .error failure)
      ∧ ∀ output result, p.Ends o bindings (.ok output) → (p ++ q).Ends o bindings result →
        output <+: printedBefore result := by
  refine ⟨fun fuel m e => outputLaw.holdsWithin o fuel (.eval e) m,
    fun fuel m s => outputLaw.holdsWithin o fuel (.exec s) m, fun bindings p q => ⟨?_, ?_⟩⟩
  · rintro failure ⟨fuel, h⟩ result
    have happend : (p ++ q).Ends o bindings (.error failure) := ⟨fuel, Program.run?_append_of_error h q⟩
    refine ⟨fun hresult => hresult.unique happend, ?_⟩
    rintro rfl
    exact happend
  · rintro output result ⟨fuel, h⟩ ⟨fuel', h'⟩
    have hp := Program.run?_of_le h (Nat.le_max_left fuel fuel')
    exact Program.prefix_of_run?_append hp (Program.run?_of_le h' (Nat.le_max_right fuel fuel'))

/-- A program that fails behind its first line, and its first line alone, each before a line that is never come
to or that fails. -/
theorem output_kept_unknown :
    let hello : Statement := .print (.literal (.text "hej") ⟨0, 7⟩) ⟨0, 0⟩
    let unknown : Statement := .print (.var ⟨"x", ⟨1, 7⟩⟩) ⟨1, 0⟩
    let bye : Statement := .print (.literal (.text "pa") ⟨2, 7⟩) ⟨2, 0⟩
    let failure : Failure := .stopped ⟨.unknownVariable "x", ⟨1, 7⟩⟩ [.text "hej"]
    let failed : Program := [hello, unknown]
    let first : Program := [hello]
    failed.Ends .one [] (.error failure)
    ∧ (∀ result, (failed ++ [bye]).Ends .one [] result ↔ result = .error failure)
    ∧ first.Ends .one [] (.ok [.text "hej"])
    ∧ (first ++ [unknown, bye]).Ends .one [] (.error failure)
    ∧ [Printed.text "hej"] <+: printedBefore (.error failure) := by
  intro hello unknown bye failure failed first
  have hfailed : failed.Ends .one [] (.error failure) := ⟨9, rfl⟩
  have hfirst : first.Ends .one [] (.ok [.text "hej"]) := ⟨9, rfl⟩
  have hlonger : (first ++ [unknown, bye]).Ends .one [] (.error failure) := ⟨9, rfl⟩
  refine ⟨hfailed, ?_, hfirst, hlonger, ?_⟩
  · exact ((output_kept .one).2.2 [] failed [bye]).1 failure hfailed
  · exact ((output_kept .one).2.2 [] first [unknown, bye]).2 _ _ hfirst hlonger

end PolishPseudocode
