import PolishPseudocode.Proofs.Evaluation.Places
import PolishPseudocode.Report

/-! Reports on failures. Whether a text is refused or its run fails, the failure is at a place that the text has,
so the report shows the line with a caret under the place. -/

namespace PolishPseudocode

variable {o : Origins} {fuel : Nat} {bindings : List (String × Datum)} {text : String} {failure : Failure}

/-- A run fails only at a place of its text. -/
theorem shows_of_run? (h : run? o fuel bindings text = some (.error failure)) :
    ∃ place, failure.position? = some place ∧ (Source.ofText text).Shows place := by
  have hread := Program.ofText_placed text
  rw [run?] at h
  cases hprogram : Program.ofText text with
  | error e =>
      rw [hprogram] at h
      cases h
      exact ⟨e.position, rfl, hread.of_eq_error hprogram⟩
  | ok p =>
      rw [hprogram] at h
      change p.run? o fuel bindings = _ at h
      have hplaced := execProgram_placed o fuel (hread.of_eq_ok hprogram) (.initial _ bindings)
      rw [Program.run?] at h
      cases hran : execProgram o fuel p (.initial bindings) with
      | done value after =>
          rw [hran] at h
          cases h
      | failed error after =>
          rw [hran] at h hplaced
          cases h
          exact ⟨error.position, rfl, hplaced⟩
      | outOfFuel =>
          rw [hran] at h
          cases h

theorem lineTexts_of_shows {source : Source} {place : Position} (h : source.Shows place) :
    ∃ line, source.lineTexts[place.line]? = some line ∧ place.column ≤ line.length := by
  refine ⟨String.ofList (source.line place.line), ?_, ?_⟩
  · rw [Source.lineTexts, List.getElem?_map, List.getElem?_eq_getElem h.line, Source.line,
      List.getD_eq_getElem?_getD, List.getElem?_eq_getElem h.line]
    rfl
  · rw [String.length_ofList]
    exact h.column

/-- A failure at a place of a line is shown with the line, a caret under the place and the message. -/
theorem display_report {place : Position} {line : String} (hplace : failure.position? = some place)
    (hline : (Source.ofText text).lineTexts[place.line]? = some line) :
    (failure.report text).display
      = line ++ "\n" ++ "".pushn ' ' place.column ++ "^\n" ++ failure.display := by
  rw [Failure.report, hplace]
  simp only [Report.display, Nat.succ_ne_zero, if_false, Nat.add_sub_cancel, hline]

/-- Whenever a text is refused or its run fails, the failure has a place, on a line of the text and not behind the
end of that line, and the answer reports it with the line, a caret under the place and the message. -/
theorem report_of_failure (h : run? o fuel bindings text = some (.error failure)) :
    ∃ place line, failure.position? = some place
      ∧ place.line < (Source.ofText text).lineTexts.length
      ∧ (Source.ofText text).lineTexts[place.line]? = some line
      ∧ place.column ≤ line.length
      ∧ ∃ report, respond? o fuel bindings text = some ⟨Printed.outputText failure.output, some report⟩
        ∧ report.display = line ++ "\n" ++ "".pushn ' ' place.column ++ "^\n" ++ failure.display := by
  obtain ⟨place, hplace, hshows⟩ := shows_of_run? h
  obtain ⟨line, hline, hcolumn⟩ := lineTexts_of_shows hshows
  have hlength := (List.getElem?_eq_some_iff.1 hline).1
  refine ⟨place, line, hplace, hlength, hline, hcolumn, failure.report text, ?_, display_report hplace hline⟩
  rw [respond?, h]
  rfl

/-- An index that is none is reported behind its bracket, on the second line. -/
theorem report_of_failure_index :
    let text := "wypisz PRAWDA\nwypisz \"ąę\"[PRAWDA]"
    ∃ failure report, run? .one 9 [] text = some (.error failure)
      ∧ failure.position? = some ⟨1, 12⟩
      ∧ respond? .one 9 [] text = some ⟨Printed.outputText failure.output, some report⟩
      ∧ report.display = "wypisz \"ąę\"[PRAWDA]\n            ^\n" ++ failure.display := by
  intro text
  have hrun : (run? .one 9 [] text).bind (fun result =>
      match result with
      | .error failure => failure.position?
      | .ok _ => none) = some ⟨1, 12⟩ := by
    decide +kernel
  obtain ⟨result, hresult, hposition⟩ := Option.bind_eq_some_iff.1 hrun
  cases result with
  | ok output => cases hposition
  | error failure =>
      obtain ⟨place, line, hplace, -, hline, -, report, hreport, hdisplay⟩ := report_of_failure hresult
      cases hplace.symm.trans hposition
      have htext : (Source.ofText text).lineTexts[1]? = some "wypisz \"ąę\"[PRAWDA]" := by
        decide +kernel
      cases hline.symm.trans htext
      exact ⟨failure, report, hresult, hposition, hreport, hdisplay⟩

end PolishPseudocode
