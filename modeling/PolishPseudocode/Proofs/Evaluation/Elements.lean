import PolishPseudocode.Proofs.Evaluation.CallFree
import PolishPseudocode.Proofs.Evaluation.References

/-! Assignments to elements. An element is written in an array, which all that refer to the array see, or in a copy of
a text, which the innermost variable of the name gets. Where it succeeds, the value is read back at its index, and no
other cell changes but those that the assignment has to create. -/

namespace PolishPseudocode

/-- What is left of an assignment to an element once there is a value. -/
def assignElement (o : Origins) (fuel : Nat) (name : Name) (index : Expr) (value : Value) (m : Machine) :
    Outcome Flow :=
  let (owner, m) := m.elementOwner name.name
  if owner.isIndexable then
    (eval o fuel index m).andThen fun i m =>
      match m.elementWrite o name owner i value index.position with
      | .ok write => .done .next (m.perform write)
      | .error error => .failed error m
  else .failed ⟨.notIndexable name.name, name.position⟩ m

theorem exec_assign_element (o : Origins) (fuel : Nat) (name : Name) (index value : Expr) (m : Machine) :
    exec o (fuel + 1) (.assign (.element name index) value) m
      = (eval o fuel value m).andThen (assignElement o fuel name index) := by
  rw [exec]
  rfl

theorem Value.character?_eq_some_iff {value : Value} {c : Char} :
    value.character? = some c ↔ value = .text (String.singleton c) := by
  cases value with
  | text s =>
      rw [character?, Value.text.injEq, ← String.toList_inj, String.toList_singleton]
      split <;> simp_all
  | _ => simp [character?]

namespace Machine

variable {m : Machine} {o : Origins} {name : Name} {i value : Value} {place : Position} {write : Write}

theorem elementWrite_array_iff {id : Nat} :
    m.elementWrite o name (.array id) i value place = .ok write
      ↔ ∃ slot, i.slot? o.arrays = some slot ∧ slot ≤ (m.items id).size ∧ write = .item id slot value := by
  rw [elementWrite]
  cases i.slot? o.arrays with
  | none => simp
  | some slot =>
      by_cases hgap : (m.items id).size < slot
      · simp [hgap, Nat.not_le.2 hgap]
      · simp [hgap, Nat.not_lt.1 hgap, eq_comm]

theorem elementWrite_text_iff {s : String} :
    m.elementWrite o name (.text s) i value place = .ok write
      ↔ ∃ slot c, i.slot? o.texts = some slot ∧ slot ≤ s.length ∧ value.character? = some c
        ∧ write = .var name.name (.text (spliced s slot c)) := by
  rw [elementWrite]
  cases i.slot? o.texts with
  | none => simp
  | some slot =>
      by_cases hgap : s.length < slot
      · simp [hgap, Nat.not_le.2 hgap]
      · cases value.character? with
        | none => simp [hgap]
        | some c => simp [hgap, Nat.not_lt.1 hgap, eq_comm]

end Machine

/-! ### What a variable holds elements of -/

namespace Machine

variable (m : Machine) (o : Origins) (name : String)

/-- The index of the first element of what a variable holds, if this has elements; a name that is not there would be
an array. -/
def origin? : Option Int :=
  match m.lookup name with
  | none | some (.array _) => some o.arrays
  | some (.text _) => some o.texts
  | some _ => none

/-- The slot that a value addresses in what a variable holds. -/
def slot? (i : Value) : Option Nat :=
  (m.origin? o name).bind i.slot?

def length : Nat :=
  match m.lookup name with
  | some (.array id) => (m.items id).size
  | some (.text s) => s.length
  | _ => 0

/-- A value can be written into a slot that an index addresses: this leaves no gap, and into a text goes a text of one
character only. -/
structure Accepts (i value : Value) (slot : Nat) : Prop where
  addressed : m.slot? o name i = some slot
  le : slot ≤ m.length name
  character : ∀ s, m.lookup name = some (.text s) → ∃ c, value = .text (String.singleton c)

/-- The state with a value written into a slot of what a variable holds. -/
def written (slot : Nat) (value : Value) : Machine :=
  match m.lookup name with
  | none => ((m.newArray #[]).2.define name (.array m.arrays.size)).setItem m.arrays.size slot value
  | some (.array id) => m.setItem id slot value
  | some (.text s) =>
      match value.character? with
      | some c => m.assign name (.text (spliced s slot c))
      | none => m
  | some _ => m

section

variable {m o name} {i value : Value} {slot : Nat}

theorem written_of_none (h : m.lookup name = none) :
    m.written name slot value
      = ((m.newArray #[]).2.define name (.array m.arrays.size)).setItem m.arrays.size slot value := by
  rw [written, h]

theorem written_of_array {id : Nat} (h : m.lookup name = some (.array id)) :
    m.written name slot value = m.setItem id slot value := by
  rw [written, h]

theorem written_of_text {s : String} (h : m.lookup name = some (.text s)) {c : Char}
    (hc : value.character? = some c) :
    m.written name slot value = m.assign name (.text (spliced s slot c)) := by
  rw [written, h]
  dsimp only
  rw [hc]

theorem accepts_iff_of_none (h : m.lookup name = none) :
    m.Accepts o name i value slot ↔ i.slot? o.arrays = some slot ∧ slot = 0 := by
  constructor
  · rintro ⟨haddressed, hle, -⟩
    simp only [Machine.slot?, origin?, length, h] at haddressed hle
    exact ⟨haddressed, Nat.le_zero.1 hle⟩
  · rintro ⟨haddressed, rfl⟩
    exact ⟨by simpa only [Machine.slot?, origin?, h], Nat.zero_le _, by simp [h]⟩

theorem accepts_iff_of_array {id : Nat} (h : m.lookup name = some (.array id)) :
    m.Accepts o name i value slot ↔ i.slot? o.arrays = some slot ∧ slot ≤ (m.items id).size := by
  constructor
  · rintro ⟨haddressed, hle, -⟩
    simp only [Machine.slot?, origin?, length, h] at haddressed hle
    exact ⟨haddressed, hle⟩
  · rintro ⟨haddressed, hle⟩
    exact ⟨by simpa only [Machine.slot?, origin?, h], by simpa only [length, h], by simp [h]⟩

theorem accepts_iff_of_text {s : String} (h : m.lookup name = some (.text s)) :
    m.Accepts o name i value slot
      ↔ i.slot? o.texts = some slot ∧ slot ≤ s.length ∧ ∃ c, value = .text (String.singleton c) := by
  constructor
  · rintro ⟨haddressed, hle, hcharacter⟩
    simp only [Machine.slot?, origin?, length, h] at haddressed hle
    exact ⟨haddressed, hle, hcharacter s h⟩
  · rintro ⟨haddressed, hle, hcharacter⟩
    exact ⟨by simpa only [Machine.slot?, origin?, h], by simpa only [length, h], fun _ _ => hcharacter⟩

/-- What accepts a value has elements or characters. -/
theorem Accepts.isIndexable (h : m.Accepts o name i value slot) {owner : Value} (howner : m.lookup name = some owner) :
    owner.isIndexable = true := by
  have haddressed := h.addressed
  rw [Machine.slot?, origin?, howner] at haddressed
  cases owner with
  | array id => rfl
  | text s => rfl
  | _ => cases haddressed

end

/-- A write into what a variable holds can be carried out exactly if it is accepted. -/
theorem elementWrite_iff_accepts {m after : Machine} {o : Origins} {name : Name} {owner i value : Value}
    {place : Position} (h : m.lookup name.name = some owner) :
    (∃ write, m.elementWrite o name owner i value place = .ok write ∧ after = m.perform write)
      ↔ ∃ slot, m.Accepts o name.name i value slot ∧ after = m.written name.name slot value := by
  cases owner with
  | array id =>
      constructor
      · rintro ⟨write, hwrite, rfl⟩
        obtain ⟨slot, hslot, hle, rfl⟩ := elementWrite_array_iff.1 hwrite
        exact ⟨slot, (accepts_iff_of_array h).2 ⟨hslot, hle⟩, (written_of_array h).symm⟩
      · rintro ⟨slot, haccepts, rfl⟩
        obtain ⟨hslot, hle⟩ := (accepts_iff_of_array h).1 haccepts
        exact ⟨.item id slot value, elementWrite_array_iff.2 ⟨slot, hslot, hle, rfl⟩, written_of_array h⟩
  | text s =>
      constructor
      · rintro ⟨write, hwrite, rfl⟩
        obtain ⟨slot, c, hslot, hle, hc, rfl⟩ := elementWrite_text_iff.1 hwrite
        have hvalue := Value.character?_eq_some_iff.1 hc
        exact ⟨slot, (accepts_iff_of_text h).2 ⟨hslot, hle, c, hvalue⟩, (written_of_text h hc).symm⟩
      · rintro ⟨slot, haccepts, rfl⟩
        obtain ⟨hslot, hle, c, hvalue⟩ := (accepts_iff_of_text h).1 haccepts
        have hc := Value.character?_eq_some_iff.2 hvalue
        exact ⟨.var name.name (.text (spliced s slot c)),
          elementWrite_text_iff.2 ⟨slot, c, hslot, hle, hc, rfl⟩, written_of_text h hc⟩
  | _ =>
      constructor
      · rintro ⟨write, hwrite, -⟩
        cases hwrite
      · rintro ⟨slot, haccepts, -⟩
        cases haccepts.isIndexable h

end Machine

/-! ### Success -/

section

variable {o : Origins} {fuel : Nat} {name : Name} {index : Expr} {value : Value} {m after : Machine}
  (hindex : index.CallFree)

include hindex

/-- What follows the index of an assignment to an element. -/
theorem elementWrite_eq_done_iff {owner : Value} (howner : owner.isIndexable = true) :
    (if owner.isIndexable then
      (eval o fuel index m).andThen fun i m =>
        match m.elementWrite o name owner i value index.position with
        | .ok write => .done .next (m.perform write)
        | .error error => .failed error m
      else .failed ⟨.notIndexable name.name, name.position⟩ m) = Outcome.done Flow.next after
      ↔ ∃ i write, eval o fuel index m = .done i m
        ∧ m.elementWrite o name owner i value index.position = .ok write ∧ after = m.perform write := by
  rw [if_pos howner, eval_andThen_eq_done_iff hindex]
  refine exists_congr fun i => ?_
  cases m.elementWrite o name owner i value index.position with
  | ok write => simp [eq_comm]
  | error error => simp

/-- An assignment to an element of a name that is not there. -/
theorem assignElement_new_iff (hlookup : m.lookup name.name = none) :
    assignElement o fuel name index value m = .done .next after
      ↔ ∃ i slot, eval o fuel index m = .done i m ∧ m.Accepts o name.name i value slot
        ∧ after = m.written name.name slot value := by
  have hextends := Machine.extends_elementOwner hlookup
  have hbefore (i : Value) := @eval_elementOwner o fuel index hindex m name.name hlookup i
  have hempty : (m.elementOwner name.name).2.items m.arrays.size = #[] := by
    rw [hextends.items, Machine.items_of_le (le_refl _)]
  rw [assignElement]
  rw [Machine.elementOwner_of_none hlookup] at hextends hbefore hempty ⊢
  refine (elementWrite_eq_done_iff hindex rfl).trans ?_
  constructor
  · rintro ⟨i, write, hi, hwrite, rfl⟩
    obtain ⟨slot, hslot, hle, rfl⟩ := Machine.elementWrite_array_iff.1 hwrite
    rw [hempty] at hle
    -- The index is a number, so it has not come out of the new array.
    refine ⟨i, slot, (hbefore i hi).resolve_right ?_, ?_, (Machine.written_of_none hlookup).symm⟩
    · cases i with
      | number x => exact fun h => h
      | _ => cases hslot
    · exact (Machine.accepts_iff_of_none hlookup).2 ⟨hslot, Nat.le_zero.1 hle⟩
  · rintro ⟨i, slot, hi, haccepts, rfl⟩
    obtain ⟨hslot, rfl⟩ := (Machine.accepts_iff_of_none hlookup).1 haccepts
    refine ⟨i, .item m.arrays.size 0 value, hextends.eval hindex hi, ?_, Machine.written_of_none hlookup⟩
    exact Machine.elementWrite_array_iff.2 ⟨0, hslot, Nat.zero_le _, rfl⟩

/-- An assignment to an element whose index has no calls succeeds exactly if the index has a value before the
assignment and addresses a slot that accepts the value to be written. -/
theorem assignElement_eq_done_iff :
    assignElement o fuel name index value m = .done .next after
      ↔ ∃ i slot, eval o fuel index m = .done i m ∧ m.Accepts o name.name i value slot
        ∧ after = m.written name.name slot value := by
  cases hlookup : m.lookup name.name with
  | none => exact assignElement_new_iff hindex hlookup
  | some owner =>
      rw [assignElement, Machine.elementOwner_of_some hlookup]
      by_cases howner : owner.isIndexable = true
      · refine (elementWrite_eq_done_iff hindex howner).trans (exists_congr fun i => ?_)
        rw [exists_and_left, exists_and_left, Machine.elementWrite_iff_accepts hlookup]
      · constructor
        · intro h
          dsimp only at h
          rw [if_neg howner] at h
          cases h
        · rintro ⟨i, slot, -, haccepts, -⟩
          exact absurd (haccepts.isIndexable hlookup) howner

end

/-! ### Reading -/

/-- The element of a variable at an index that is written as a number. -/
def elementAt (name : Name) (k : Float) (p place : Position) : Expr :=
  .index (.var name) (.literal (.number k) p) place

def Machine.element? (m : Machine) (slot : Nat) : Value → Option Value
  | .array id => (m.items id)[slot]?
  | .text s => s.toList[slot]?.map fun c => .text (String.singleton c)
  | _ => none

def Machine.elementAt? (m : Machine) (o : Origins) (name : String) (i : Value) : Option Value :=
  (m.lookup name).bind fun owner => (m.slot? o name i).bind fun slot => m.element? slot owner

theorem Machine.element_eq_ok_iff {m : Machine} {o : Origins} {name : String} {owner i value : Value}
    (h : m.lookup name = some owner) {subject : String} {place : Position} :
    m.element o owner i subject place = .ok value ↔ m.elementAt? o name i = some value := by
  rw [elementAt?, h, Option.bind_some]
  cases owner with
  | array id =>
      simp only [element, slot?, origin?, h, Option.bind_some, element?]
      cases (i.slot? o.arrays).bind fun slot => (m.items id)[slot]? <;> simp
  | text s =>
      simp only [element, slot?, origin?, h, Option.bind_some, element?]
      cases i.slot? o.texts with
      | none => simp
      | some slot =>
          rw [Option.bind_some, Option.bind_some]
          cases s.toList[slot]? <;> simp
  | _ => simp [element, slot?, origin?, h]

/-- An element is read where there is one in the slot of the index. -/
theorem eval_elementAt_iff {o : Origins} {fuel : Nat} {name : Name} {k : Float} {p place : Position} {m : Machine}
    {value : Value} :
    eval o (fuel + 2) (elementAt name k p place) m = .done value m
      ↔ m.elementAt? o name.name (.number k) = some value := by
  have hname : (Expr.var name).CallFree := trivial
  have hindex : (Expr.literal (.number k) p).CallFree := trivial
  have hliteral : eval o (fuel + 1) (.literal (.number k) p) m = .done (.number k) m := by
    rw [eval]
    rfl
  rw [elementAt, eval_index_iff hname hindex]
  constructor
  · rintro ⟨v, owner, hv, howner, helement⟩
    rw [hliteral] at hv
    cases hv
    exact (Machine.element_eq_ok_iff (eval_var_iff.1 howner)).1 helement
  · intro h
    obtain ⟨owner, howner, -⟩ := Option.bind_eq_some_iff.1 h
    exact ⟨_, owner, hliteral, eval_var_iff.2 howner, (Machine.element_eq_ok_iff howner).2 h⟩

/-! ### What a write changes -/

namespace Machine

/-- The cells that a write into a slot changes or creates: the element, with the variable of a new array, or the
variable of a text. -/
def changed (m : Machine) (name : String) (slot : Nat) : List Cell :=
  match m.lookup name with
  | none => [.var 0 name, .item m.arrays.size slot]
  | some (.array id) => [.item id slot]
  | some _ => [.var (m.level name) name]

/-- A value has been written into a slot of what a variable holds, and nothing else has changed. -/
structure Written (m : Machine) (o : Origins) (name : String) (slot : Nat) (value : Value) (after : Machine) :
    Prop where
  /-- The value is read back through every variable that holds the same as this one. -/
  reads : ∀ fuel (y : Name) k p place, after.lookup y.name = after.lookup name →
    m.slot? o name (.number k) = some slot → eval o (fuel + 2) (elementAt y k p place) after = .done value after
  /-- All other elements are read as before. -/
  others : ∀ fuel (y : Name) k p place v, y.name = name → m.slot? o name (.number k) ≠ some slot →
    (eval o (fuel + 2) (elementAt y k p place) after = .done v after
      ↔ eval o (fuel + 2) (elementAt y k p place) m = .done v m)
  length : after.length name = if slot = m.length name then m.length name + 1 else m.length name
  cells : ∀ cell ∉ m.changed name slot, after.cell? cell = m.cell? cell
  created : m.lookup name = none → after.lookup name = some (.array m.arrays.size)
  arrays : after.arrays.size = if m.lookup name = none then m.arrays.size + 1 else m.arrays.size
  depth : after.depth = m.depth
  functions : after.functions = m.functions
  output : after.output = m.output

section

variable {m : Machine} {o : Origins} {name : String} {slot : Nat} {value : Value}

/-- What is read through two variables that hold the same is the same. -/
theorem elementAt?_congr {other : String} (h : m.lookup other = m.lookup name) (i : Value) :
    m.elementAt? o other i = m.elementAt? o name i := by
  rw [elementAt?, elementAt?, slot?, slot?, origin?, origin?, h]

/-- Where the slot of a variable has a new value and the others have the old ones, this is what is read. -/
theorem elementAt?_of_element? {after : Machine} {owner : Value} (hlookup : after.lookup name = some owner)
    (horigin : after.origin? o name = m.origin? o name)
    (helement : ∀ j, after.element? j owner
      = if j = slot then some value else (m.lookup name).bind (m.element? j)) (i : Value) :
    after.elementAt? o name i = if m.slot? o name i = some slot then some value else m.elementAt? o name i := by
  have hslot : after.slot? o name i = m.slot? o name i := by rw [slot?, slot?, horigin]
  rw [elementAt?, elementAt?, hlookup, hslot, Option.bind_some]
  cases m.slot? o name i with
  | none => cases m.lookup name <;> simp
  | some j =>
      rw [Option.bind_some, helement]
      simp only [Option.some.injEq, Option.bind_some]

theorem element?_setItem {id : Nat} (hid : id < m.arrays.size) (hslot : slot ≤ (m.items id).size) (j : Nat) :
    (m.setItem id slot value).element? j (.array id)
      = if j = slot then some value else m.element? j (.array id) := by
  have hcell := cell?_setItem hid hslot value (.item id j)
  simp only [Cell.item.injEq, true_and] at hcell
  exact hcell

theorem element?_spliced (m m' : Machine) (s : String) {slot : Nat} (hslot : slot ≤ s.length) (c : Char) (j : Nat) :
    m'.element? j (.text (spliced s slot c))
      = if j = slot then some (.text (String.singleton c)) else m.element? j (.text s) := by
  have hlength : (s.toList.take slot).length = slot := by
    rw [List.length_take, String.length_toList]
    omega
  rw [element?, element?, spliced, String.toList_ofList]
  rcases lt_trichotomy j slot with h | rfl | h
  · rw [if_neg h.ne, List.getElem?_append_left (by omega), List.getElem?_take_of_lt h]
  · rw [if_pos rfl, List.getElem?_append_right (by omega), hlength, Nat.sub_self]
    rfl
  · obtain ⟨k, rfl⟩ := Nat.exists_eq_add_of_lt h
    rw [if_neg h.ne', List.getElem?_append_right (by omega), hlength]
    have hk : slot + k + 1 - slot = k + 1 := by omega
    rw [hk, List.getElem?_cons_succ, List.getElem?_drop]
    congr 2
    omega

theorem length_spliced (s : String) {slot : Nat} (hslot : slot ≤ s.length) (c : Char) :
    (spliced s slot c).length = if slot = s.length then s.length + 1 else s.length := by
  rw [spliced, String.length_ofList, List.length_append, List.length_cons, List.length_take, List.length_drop,
    String.length_toList]
  split <;> omega

/-- A write that the values tell is told by what is read. -/
theorem Written.of_element? {after : Machine} {owner : Value} (hlookup : after.lookup name = some owner)
    (horigin : after.origin? o name = m.origin? o name)
    (helement : ∀ j, after.element? j owner
      = if j = slot then some value else (m.lookup name).bind (m.element? j))
    (hlength : after.length name = if slot = m.length name then m.length name + 1 else m.length name)
    (hcells : ∀ cell ∉ m.changed name slot, after.cell? cell = m.cell? cell)
    (hcreated : m.lookup name = none → after.lookup name = some (.array m.arrays.size))
    (harrays : after.arrays.size = if m.lookup name = none then m.arrays.size + 1 else m.arrays.size)
    (hdepth : after.depth = m.depth) (hfunctions : after.functions = m.functions)
    (houtput : after.output = m.output) :
    m.Written o name slot value after where
  reads fuel y k p place hy hk := by
    rw [eval_elementAt_iff, elementAt?_congr hy, elementAt?_of_element? hlookup horigin helement, if_pos hk]
  others fuel y k p place v hy hk := by
    subst hy
    rw [eval_elementAt_iff, eval_elementAt_iff, elementAt?_of_element? hlookup horigin helement, if_neg hk]
  length := hlength
  cells := hcells
  created := hcreated
  arrays := harrays
  depth := hdepth
  functions := hfunctions
  output := houtput

theorem written_setItem {id : Nat} (h : m.lookup name = some (.array id)) (hid : id < m.arrays.size)
    (hslot : slot ≤ (m.items id).size) : m.Written o name slot value (m.setItem id slot value) := by
  have hlookup : (m.setItem id slot value).lookup name = some (.array id) := h
  refine .of_element? hlookup ?_ (fun j => ?_) ?_ (fun cell hcell => ?_) ?_ ?_ rfl rfl rfl
  · rw [origin?, origin?, hlookup, h]
  · rw [h, element?_setItem hid hslot]
    rfl
  · rw [length, length, hlookup, h]
    exact size_items_setItem hid value
  · rw [changed, h, List.mem_singleton] at hcell
    rw [cell?_setItem hid hslot, if_neg hcell]
  · intro hnone
    cases hnone.symm.trans h
  · rw [h, setItem, Array.size_modify, if_neg (by simp)]

theorem written_assign {s : String} {c : Char} (h : m.lookup name = some (.text s)) (hslot : slot ≤ s.length) :
    m.Written o name slot (.text (String.singleton c)) (m.assign name (.text (spliced s slot c))) := by
  have hlookup := m.lookup_assign name (.text (spliced s slot c))
  obtain ⟨top, callers, hassign⟩ := m.assign_eq name (.text (spliced s slot c))
  refine .of_element? hlookup ?_ (fun j => ?_) ?_ (fun cell hcell => ?_) ?_ ?_ ?_ ?_ ?_
  · rw [origin?, origin?, hlookup, h]
  · rw [h, element?_spliced m _ s hslot]
    rfl
  · rw [length, length, hlookup, h]
    exact length_spliced s hslot c
  · rw [changed, h] at hcell
    cases cell with
    | var level other =>
        rw [cell?_assign, if_neg]
        rintro ⟨rfl, rfl⟩
        exact hcell List.mem_cons_self
    | item id j =>
        rw [cell?, cell?, hassign]
        rfl
  · intro hnone
    cases hnone.symm.trans h
  · rw [hassign, h, if_neg (by simp)]
  · exact (addsNames_assign m name _).depth_eq
  · rw [hassign]
  · rw [hassign]

/-- A name that is not there: a new array, with the value as its only element. -/
theorem written_new (h : m.lookup name = none) :
    m.Written o name 0 value
      (((m.newArray #[]).2.define name (.array m.arrays.size)).setItem m.arrays.size 0 value) := by
  let m' := (m.newArray #[]).2.define name (.array m.arrays.size)
  have hitems (id : Nat) : m'.items id = m.items id := m.items_newArray_empty id
  have hempty : m'.items m.arrays.size = #[] := by rw [hitems, items_of_le (le_refl _)]
  have hsize : m'.arrays.size = m.arrays.size + 1 := Array.size_push _
  have hid : m.arrays.size < m'.arrays.size := by omega
  have hslot : 0 ≤ (m'.items m.arrays.size).size := Nat.zero_le _
  have hlookup : (m'.setItem m.arrays.size 0 value).lookup name = some (.array m.arrays.size) := by
    change m'.lookup name = _
    rw [lookup_define, if_pos rfl]
  refine .of_element? hlookup ?_ (fun j => ?_) ?_ (fun cell hcell => ?_) ?_ ?_ rfl rfl rfl
  · rw [origin?, origin?, hlookup, h]
  · rw [h, element?_setItem hid hslot, element?, hempty]
    rfl
  · rw [length, length, hlookup, h]
    dsimp only
    rw [size_items_setItem hid, hempty]
    rfl
  · rw [changed, h, List.mem_cons, List.mem_singleton, not_or] at hcell
    rw [cell?_setItem hid hslot, if_neg hcell.2]
    cases cell with
    | var level other =>
        rw [cell?_define, if_neg]
        · rfl
        · rintro ⟨rfl, rfl⟩
          exact hcell.1 rfl
    | item id j => rw [cell?, cell?, hitems]
  · exact fun _ => hlookup
  · rw [if_pos h, setItem, Array.size_modify, hsize]

/-- A write that is accepted changes the cells that it has to change, and is read back. -/
theorem Accepts.written {i : Value} (h : m.Accepts o name i value slot)
    (href : ∀ id, m.lookup name = some (.array id) → id < m.arrays.size) :
    m.Written o name slot value (m.written name slot value) := by
  cases hlookup : m.lookup name with
  | none =>
      obtain ⟨-, rfl⟩ := (accepts_iff_of_none hlookup).1 h
      rw [written_of_none hlookup]
      exact written_new hlookup
  | some owner =>
      cases owner with
      | array id =>
          rw [written_of_array hlookup]
          exact written_setItem hlookup (href id hlookup) ((accepts_iff_of_array hlookup).1 h).2
      | text s =>
          obtain ⟨-, hslot, c, rfl⟩ := (accepts_iff_of_text hlookup).1 h
          rw [written_of_text hlookup (Value.character?_eq_some_iff.2 rfl)]
          exact written_assign hlookup hslot
      | _ => cases h.isIndexable hlookup

end

end Machine

/-- The assignment of a value to an element, where the index has no calls, and an array that the variable holds is
one of the state, as in every state that a run comes to (`Program.closed_of_mem_visits`). It succeeds exactly if the
variable is new or holds an array or a text, the index is a number that addresses a slot up to the end of it, and
what goes into a text is a text of one character. Then the value is read back at the index, also through all other
variables with the same array; all other indices read what they read before; there is one more element exactly if
the slot was the one behind the last; and no cell changes but that of the element or that of the text, and those of
a new array. -/
theorem assignElement_writes {o : Origins} {fuel : Nat} {name : Name} {index : Expr} (hindex : index.CallFree)
    {m : Machine} (href : ∀ id, m.lookup name.name = some (.array id) → id < m.arrays.size) (value : Value) :
    let outcome := assignElement o fuel name index value m
    (∀ e m₀, eval o fuel e m₀ = .done value m →
      exec o (fuel + 1) (.assign (.element name index) e) m₀ = outcome)
    ∧ ((∃ after, outcome = .done .next after)
      ↔ ∃ i slot, eval o fuel index m = .done i m ∧ m.Accepts o name.name i value slot)
    ∧ ∀ after, outcome = .done .next after →
      ∃ n slot, eval o fuel index m = .done (.number n) m ∧ m.Accepts o name.name (.number n) value slot
        ∧ m.Written o name.name slot value after := by
  intro outcome
  refine ⟨fun e m₀ hvalue => ?_, ⟨?_, ?_⟩, fun after hdone => ?_⟩
  · rw [exec_assign_element, hvalue]
    rfl
  · rintro ⟨after, hdone⟩
    obtain ⟨i, slot, hi, haccepts, -⟩ := (assignElement_eq_done_iff hindex).1 hdone
    exact ⟨i, slot, hi, haccepts⟩
  · rintro ⟨i, slot, hi, haccepts⟩
    exact ⟨_, (assignElement_eq_done_iff hindex).2 ⟨i, slot, hi, haccepts, rfl⟩⟩
  · obtain ⟨i, slot, hi, haccepts, rfl⟩ := (assignElement_eq_done_iff hindex).1 hdone
    cases i with
    | number n => exact ⟨n, slot, hi, haccepts, haccepts.written href⟩
    | _ =>
        obtain ⟨origin, -, hslot⟩ := Option.bind_eq_some_iff.1 haccepts.addressed
        cases hslot

/-- One more element of an array that two variables hold, and a character of a text in the frame of a caller. -/
theorem assignElement_writes_shared :
    let y : Name := ⟨"y", ⟨0, 0⟩⟩
    let t : Name := ⟨"t", ⟨0, 0⟩⟩
    let index : Expr := .binary (.var ⟨"k", ⟨0, 2⟩⟩) .add (.literal (.number 1) ⟨0, 6⟩) ⟨0, 4⟩
    let m : Machine :=
      ⟨[("x", .array 0), ("y", .array 0), ("k", .number 1)], [[("t", .text "żółw")]], #[#[.bool true]], 0, #[]⟩
    (∃ after, assignElement .one 9 y index (.text "nowy") m = .done .next after
      ∧ eval .one 9 (elementAt ⟨"x", ⟨1, 0⟩⟩ 2 ⟨1, 2⟩ ⟨1, 1⟩) after = .done (.text "nowy") after)
    ∧ (∃ after, assignElement .one 9 t index (.text "ą") m = .done .next after
      ∧ after.lookup "t" = some (.text "żąłw") ∧ after.top = m.top)
    ∧ ∀ after, assignElement .one 9 t index (.text "ąę") m ≠ .done .next after := by
  intro y t index m
  have hindex : index.CallFree := ⟨trivial, trivial⟩
  have hy : ∀ id, m.lookup "y" = some (.array id) → id < m.arrays.size := by
    intro id h
    cases h
    decide
  have ht : ∀ id, m.lookup "t" = some (.array id) → id < m.arrays.size := by
    intro id h
    cases h
  refine ⟨⟨_, rfl, ?_⟩, ⟨_, rfl, rfl, rfl⟩, fun after hdone => ?_⟩
  · obtain ⟨n, slot, hn, haccepts, hwritten⟩ :=
      (@assignElement_writes .one 9 y index hindex m hy (.text "nowy")).2.2 _ rfl
    have hindices : Value.number (1 + 1) = .number n := (Outcome.done.inj hn).1
    have htwo : (1 + 1 : Float) = 2 := by decide +kernel
    rw [← hindices, htwo] at haccepts
    exact hwritten.reads 7 _ 2 _ _ rfl haccepts.addressed
  · obtain ⟨n, slot, -, haccepts, -⟩ :=
      (@assignElement_writes .one 9 t index hindex m ht (.text "ąę")).2.2 after hdone
    obtain ⟨c, hc⟩ := haccepts.character "żółw" rfl
    have hlength := congrArg String.length (Value.text.inj hc)
    rw [String.length_singleton] at hlength
    exact absurd hlength (by decide)

end PolishPseudocode
