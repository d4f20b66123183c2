import PolishPseudocode.Proofs.Evaluation.Elements

/-! Assignments to characters. The text that gets a new character is the one that the variable held before the index
was evaluated. If the index calls a function that sets the variable, what this function wrote is lost. -/

namespace PolishPseudocode

/-- An assignment to an element evaluates the value, then the index, and then writes into what the variable held
between the two. -/
theorem exec_assign_element_eq_done {o : Origins} {fuel : Nat} {name : Name} {index e : Expr} {value i : Value}
    {m₀ m₁ m₂ after : Machine} {flow : Flow} (hvalue : eval o fuel e m₀ = .done value m₁)
    (hi : eval o fuel index (m₁.elementOwner name.name).2 = .done i m₂)
    (h : exec o (fuel + 1) (.assign (.element name index) e) m₀ = .done flow after) :
    ∃ write, m₂.elementWrite o name (m₁.elementOwner name.name).1 i value index.position = .ok write
      ∧ after = m₂.perform write := by
  rw [exec_assign_element, hvalue] at h
  change assignElement o fuel name index value m₁ = _ at h
  rw [assignElement] at h
  dsimp only at h
  split at h
  · obtain ⟨i', m', hi', hnext⟩ := Outcome.andThen_eq_done_iff.1 h
    cases hi.symm.trans hi'
    split at hnext
    · rename_i write hwrite
      cases hnext
      exact ⟨write, hwrite, rfl⟩
    · cases hnext
  · cases h

/-- Two texts with the same new character are the same if they were the same before and behind its slot. -/
theorem Machine.spliced_eq_iff {s t : String} {slot : Nat} (hslot : slot ≤ s.length) (c : Char) :
    Machine.spliced t slot c = Machine.spliced s slot c
      ↔ t.toList.take slot = s.toList.take slot ∧ t.toList.drop (slot + 1) = s.toList.drop (slot + 1) := by
  rw [spliced, spliced, String.ofList_inj]
  constructor
  · intro h
    have hlength : (s.toList.take slot).length = slot := by
      rw [List.length_take, String.length_toList]
      omega
    have hlengths := congrArg List.length h
    rw [List.length_append, List.length_append, List.length_cons, List.length_cons, hlength] at hlengths
    have htake : (t.toList.take slot).length = (s.toList.take slot).length := by
      rw [hlength]
      simp only [List.length_take, List.length_drop] at hlengths ⊢
      omega
    obtain ⟨hfront, hback⟩ := List.append_inj h htake
    exact ⟨hfront, (List.cons.inj hback).2⟩
  · rintro ⟨hfront, hback⟩
    rw [hfront, hback]

/-- An assignment to an element that succeeds, where the variable holds a text once its value and its index are
evaluated. If the variable held a text before the index was evaluated, it then holds that earlier text with the
character in the slot replaced, or with one more behind it; this is the later text with its new character exactly if
the two differ in that slot alone, and it always is if there is no call in the index. If the variable held no text
before the index was evaluated, its text stays as the index left it. -/
theorem exec_assign_character {o : Origins} {fuel : Nat} {name : Name} {index e : Expr} {value i : Value}
    {m₀ m₁ m₂ after : Machine} {flow : Flow} {t : String} (hvalue : eval o fuel e m₀ = .done value m₁)
    (hi : eval o fuel index (m₁.elementOwner name.name).2 = .done i m₂)
    (ht : m₂.lookup name.name = some (.text t))
    (h : exec o (fuel + 1) (.assign (.element name index) e) m₀ = .done flow after) :
    (∀ s, m₁.lookup name.name = some (.text s) →
      ∃ slot c, i.slot? o.texts = some slot ∧ slot ≤ s.length ∧ value = .text (String.singleton c)
        ∧ after.lookup name.name = some (.text (Machine.spliced s slot c))
        ∧ (after.lookup name.name = some (.text (Machine.spliced t slot c))
          ↔ t.toList.take slot = s.toList.take slot ∧ t.toList.drop (slot + 1) = s.toList.drop (slot + 1)))
    ∧ ((∀ s, m₁.lookup name.name ≠ some (.text s)) → after.lookup name.name = some (.text t))
    ∧ (index.CallFree → m₁.lookup name.name = some (.text t)) := by
  obtain ⟨write, hwrite, rfl⟩ := exec_assign_element_eq_done hvalue hi h
  refine ⟨fun s hs => ?_, fun hnone => ?_, fun hindex => ?_⟩
  · rw [Machine.elementOwner_of_some hs] at hwrite
    obtain ⟨slot, c, hslot, hle, hc, rfl⟩ := Machine.elementWrite_text_iff.1 hwrite
    have hafter := m₂.lookup_assign name.name (.text (Machine.spliced s slot c))
    refine ⟨slot, c, hslot, hle, Value.character?_eq_some_iff.1 hc, hafter, ?_⟩
    rw [← Machine.spliced_eq_iff hle c, Machine.perform, hafter, Option.some.injEq, Value.text.injEq, eq_comm]
  · -- what is written is an element of an array, which is no variable
    have harray {id : Nat} (howner : (m₁.elementOwner name.name).1 = .array id) :
        (m₂.perform write).lookup name.name = some (.text t) := by
      rw [howner] at hwrite
      obtain ⟨slot, -, -, rfl⟩ := Machine.elementWrite_array_iff.1 hwrite
      exact ht
    cases hlookup : m₁.lookup name.name with
    | none => exact harray (congrArg Prod.fst (Machine.elementOwner_of_none hlookup))
    | some owner =>
        have howner := congrArg Prod.fst (Machine.elementOwner_of_some hlookup)
        cases owner with
        | array id => exact harray howner
        | text s => exact absurd hlookup (hnone s)
        | _ =>
            rw [howner] at hwrite
            cases hwrite
  · obtain rfl := eq_of_eval_done hindex hi
    cases hlookup : m₁.lookup name.name with
    | none =>
        rw [Machine.elementOwner_of_none hlookup, Machine.lookup_define, if_pos rfl] at ht
        cases ht
    | some owner =>
        rw [Machine.elementOwner_of_some hlookup, hlookup] at ht
        exact ht

/-- The first character of a text, at an index that calls a function which sets the text: the earlier text is the one
that is changed. -/
theorem exec_assign_character_called :
    let x : Name := ⟨"x", ⟨4, 0⟩⟩
    let f : Function := ⟨0, [], [.assign (.var x) (.literal (.text "xyz") ⟨1, 9⟩),
      .giveBack (some (.literal (.number 1) ⟨2, 10⟩)) ⟨2, 4⟩]⟩
    let m : Machine := ⟨[("f", .function f), ("x", .text "abc")], [], #[], 1, #[]⟩
    let index : Expr := .call ⟨"f", ⟨4, 2⟩⟩ [] ⟨4, 3⟩
    ∃ after, exec .one 9 (.assign (.element x index) (.literal (.text "q") ⟨4, 10⟩)) m = .done .next after
      ∧ ∃ slot c, after.lookup "x" = some (.text (Machine.spliced "abc" slot c)) := by
  intro x f m index
  have hindex : ∃ m₂, eval .one 8 index m = .done (.number 1) m₂ ∧ m₂.lookup "x" = some (.text "xyz") := ⟨_, rfl, rfl⟩
  obtain ⟨m₂, hi, ht⟩ := hindex
  have hdone : ∃ after,
      exec .one 9 (.assign (.element x index) (.literal (.text "q") ⟨4, 10⟩)) m = .done .next after :=
    ⟨_, rfl⟩
  obtain ⟨after, hafter⟩ := hdone
  have hvalue : eval .one 8 (.literal (.text "q") ⟨4, 10⟩) m = .done (.text "q") m := rfl
  obtain ⟨slot, c, -, -, -, h, -⟩ := (exec_assign_character hvalue hi ht hafter).1 "abc" rfl
  exact ⟨after, hafter, slot, c, h⟩

/-- There the variable holds `xyz` once the value and the index are evaluated, but not `qyz` in the end. -/
theorem not_exec_assign_character_called :
    let x : Name := ⟨"x", ⟨4, 0⟩⟩
    let f : Function := ⟨0, [], [.assign (.var x) (.literal (.text "xyz") ⟨1, 9⟩),
      .giveBack (some (.literal (.number 1) ⟨2, 10⟩)) ⟨2, 4⟩]⟩
    let m : Machine := ⟨[("f", .function f), ("x", .text "abc")], [], #[], 1, #[]⟩
    let index : Expr := .call ⟨"f", ⟨4, 2⟩⟩ [] ⟨4, 3⟩
    let value : Expr := .literal (.text "q") ⟨4, 10⟩
    ∃ m₂ after, eval .one 8 value m = .done (.text "q") m
      ∧ eval .one 8 index (m.elementOwner "x").2 = .done (.number 1) m₂ ∧ m₂.lookup "x" = some (.text "xyz")
      ∧ exec .one 9 (.assign (.element x index) value) m = .done .next after
      ∧ after.lookup "x" = some (.text "qbc")
      ∧ ¬ ∃ slot c, (Value.number 1).slot? 1 = some slot ∧ Value.text "q" = .text (String.singleton c)
        ∧ after.lookup "x" = some (.text (Machine.spliced "xyz" slot c)) := by
  intro x f m index value
  have hslot : (Value.number 1).slot? 1 = some 0 := by decide +kernel
  refine ⟨_, _, rfl, rfl, rfl, rfl, rfl, ?_⟩
  rintro ⟨slot, c, hslot', hc, h⟩
  cases hslot.symm.trans hslot'
  have hcharacter := congrArg String.toList (Value.text.inj hc)
  rw [String.toList_singleton] at hcharacter
  obtain rfl : 'q' = c := (List.cons.inj hcharacter).1
  have htext : "qbc" = Machine.spliced "xyz" 0 'q' := Value.text.inj (Option.some.inj h)
  exact absurd htext (by decide)

end PolishPseudocode
