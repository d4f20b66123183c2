import PolishPseudocode.CommandLine

/-! What the command line tool writes for the items that a run prints: each on a line of its own. Only a single item
whose text is empty is lost, since an output without a character is taken for none. -/

namespace PolishPseudocode

/-- The texts of printed items, each with a line feed behind it. -/
def Printed.lines (items : List Printed) : String :=
  String.join ((displays items).map (· ++ "\n"))

def printedItems : Except Failure (List Printed) → List Printed
  | .ok output => output
  | .error failure => failure.output

/-! ### Texts with line feeds between them -/

/-- With a line feed at the end there is one behind each. -/
theorem intercalate_append_lineFeed {texts : List String} (h : texts ≠ []) :
    String.intercalate "\n" texts ++ "\n" = String.join (texts.map (· ++ "\n")) := by
  induction texts with
  | nil => exact absurd rfl h
  | cons text texts ih =>
      cases texts with
      | nil =>
          rw [String.intercalate_singleton, List.map_singleton, String.join_cons, String.join_nil, String.append_empty]
      | cons next texts =>
          rw [String.intercalate_cons_cons, String.append_assoc, ih (List.cons_ne_nil _ _), ← String.join_cons]
          rfl

/-- There is no character where there is no text, or only an empty one. -/
theorem isEmpty_intercalate_iff {texts : List String} :
    (String.intercalate "\n" texts).isEmpty = true ↔ texts = [] ∨ texts = [""] := by
  rw [String.isEmpty_iff]
  cases texts with
  | nil => exact ⟨fun _ => .inl rfl, fun _ => String.intercalate_nil⟩
  | cons text texts =>
      cases texts with
      | nil => simp
      | cons next texts =>
          -- The line feed between the first two texts is a character.
          simp [String.append_eq_empty_iff]

theorem Response.output_ofResult (text : String) (result : Except Failure (List Printed)) :
    (ofResult text result).output = Printed.outputText (printedItems result) := by
  cases result <;> rfl

namespace CommandLine

/-- The output for an answer, whether or not it reports a failure. -/
theorem Exit.output_ofResponse (r : Response) :
    (ofResponse r).output = if r.output.isEmpty then "" else r.output ++ "\n" := by
  obtain ⟨output, report⟩ := r
  cases report <;> rfl

theorem Exit.output_ofResult (text : String) (result : Except Failure (List Printed)) :
    (ofResponse (.ofResult text result)).output
      = if Printed.displays (printedItems result) = [""] then "" else Printed.lines (printedItems result) := by
  rw [output_ofResponse, Response.output_ofResult, Printed.outputText, Printed.lines]
  generalize Printed.displays (printedItems result) = texts
  by_cases hempty : texts = [""]
  · rw [if_pos (isEmpty_intercalate_iff.2 (.inr hempty)), if_pos hempty]
  · rw [if_neg hempty]
    by_cases hnil : texts = []
    · rw [if_pos (isEmpty_intercalate_iff.2 (.inl hnil)), hnil]
      rfl
    · rw [if_neg fun h => (isEmpty_intercalate_iff.1 h).elim hnil hempty, intercalate_append_lineFeed hnil]

/-- Whenever the run of a program ends, also with a failure, the tool writes the text of each printed item and a line
feed behind it, in the order in which they were printed; but it writes nothing if they are a single one without a
character. -/
theorem output_of_run {i : Invocation} {fuel : Nat} {text : String} {bindings : List (String × Datum)}
    {result : Except Failure (List Printed)} (hvars : i.vars.mapM readBinding = .ok bindings)
    (hrun : run? i.origins fuel bindings text = some result) :
    ∃ exit, i.exit? fuel (some text) = some exit ∧ exit.output
      = if Printed.displays (printedItems result) = [""] then "" else Printed.lines (printedItems result) := by
  refine ⟨.ofResponse (.ofResult text result), ?_, Exit.output_ofResult text result⟩
  rw [Invocation.exit?, hvars]
  simp only [respond?, hrun, Option.map_some]

/-- An empty text, an array and a text are printed before a failure. -/
theorem output_of_run_failed :
    let text := "wypisz \"\"\nwypisz T\nwypisz \"a\"\nwypisz x"
    let i : Invocation := ⟨false, text, ["T = PRAWDA, FAŁSZ"], .one, defaultTimeout⟩
    let bindings := [("T", Datum.array [.bool true, .bool false])]
    i.vars.mapM readBinding = .ok bindings
      ∧ ∃ failure exit, run? i.origins 20 bindings text = some (.error failure) ∧ failure.position? = some ⟨3, 7⟩
        ∧ i.exit? 20 (some text) = some exit ∧ exit.output = "\n[PRAWDA, FAŁSZ]\na\n" := by
  intro text i bindings
  have hvars : i.vars.mapM readBinding = .ok bindings := by rfl
  have hrun : (run? i.origins 20 bindings text).bind (fun result =>
      match result with
      | .error failure => failure.position?.map fun place => (place, Printed.displays failure.output)
      | .ok _ => none) = some (⟨3, 7⟩, ["", "[PRAWDA, FAŁSZ]", "a"]) := by
    decide +kernel
  obtain ⟨result, hresult, hfailure⟩ := Option.bind_eq_some_iff.1 hrun
  cases result with
  | ok output => cases hfailure
  | error failure =>
      obtain ⟨place, hplace, hpair⟩ := Option.map_eq_some_iff.1 hfailure
      obtain ⟨rfl, hdisplays⟩ := Prod.ext_iff.1 hpair
      obtain ⟨exit, hexit, houtput⟩ := output_of_run hvars hresult
      rw [Printed.lines, printedItems, show Printed.displays failure.output = _ from hdisplays] at houtput
      exact ⟨hvars, failure, exit, hresult, hplace, hexit, houtput⟩

/-- A program that prints an empty text and nothing else: the tool writes nothing, not the line feed. -/
theorem not_output_of_run_empty :
    let text := "wypisz \"\""
    let i : Invocation := ⟨false, text, [], .one, defaultTimeout⟩
    (Invocation.ofArguments [text]).toOption = some i ∧ i.vars.mapM readBinding = .ok []
      ∧ ∃ result exit, run? i.origins 20 [] text = some result ∧ i.exit? 20 (some text) = some exit
        ∧ exit.output = "" ∧ Printed.lines (printedItems result) = "\n" := by
  intro text i
  have hrun : (run? i.origins 20 [] text).map (fun result => Printed.displays (printedItems result)) = some [""] := by
    decide +kernel
  obtain ⟨result, hresult, hdisplays⟩ := Option.map_eq_some_iff.1 hrun
  refine ⟨by decide +kernel, rfl, result, .ofResponse (.ofResult text result), hresult, ?_, ?_, ?_⟩
  · change (respond? i.origins 20 [] text).map Exit.ofResponse = _
    rw [respond?, hresult]
    rfl
  · rw [Exit.output_ofResult, if_pos hdisplays]
  · rw [Printed.lines, hdisplays]
    rfl

end CommandLine

end PolishPseudocode
