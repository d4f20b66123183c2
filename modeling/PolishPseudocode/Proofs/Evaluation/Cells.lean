import PolishPseudocode.Proofs.Evaluation.Correspondence

/-! Cells, the places of a state that hold one value each: a variable of a frame, or an element of an array. Every
change of a state is told cell by cell. A variable is set in the innermost frame that has it, or in the innermost one
of all if it is new; an element is written in one array alone. -/

namespace PolishPseudocode

/-- A place for a value: a variable of the frame of some level, where the innermost frame has the level zero, or an
element of an array. -/
inductive Cell where
  | var (level : Nat) (name : String)
  | item (id slot : Nat)
deriving DecidableEq, Repr

namespace Machine

variable (m : Machine)

def cell? : Cell → Option Value
  | .var level name => m.frames[level]?.bind (·.get? name)
  | .item id slot => (m.items id)[slot]?

def level (name : String) : Nat :=
  if m.frames.any (·.has name) then m.frames.findIdx (·.has name) else 0

variable {m}

theorem getElem?_assignIn (name : String) (value : Value) (frames : List Frame) (level : Nat) :
    (assignIn name value frames)[level]?
      = if level = frames.findIdx (·.has name) then frames[level]?.map (·.set name value) else frames[level]? := by
  induction frames generalizing level with
  | nil => simp [assignIn]
  | cons frame rest ih =>
      rw [assignIn, List.findIdx_cons]
      by_cases hhas : frame.has name = true
      · rw [if_pos hhas, hhas, cond_true]
        cases level <;> simp
      · rw [if_neg hhas, Bool.eq_false_iff.2 hhas, cond_false]
        cases level with
        | zero => simp
        | succ level => simp [ih]

/-- A variable that is there is set in the innermost frame that has it, also if this is the innermost one of all. -/
theorem frames_assign (m : Machine) (name : String) (value : Value) :
    (m.assign name value).frames
      = if m.frames.any (·.has name) then assignIn name value m.frames else m.top.set name value :: m.callers := by
  have hframes : m.frames = m.top :: m.callers := rfl
  rw [assign, hframes, List.any_cons, assignIn]
  by_cases htop : m.top.has name = true
  · simp only [htop, Bool.true_or, if_true]
    rfl
  · simp only [htop, Bool.false_or, Bool.false_eq_true, if_false]
    split <;> rfl

/-! ### Variables -/

theorem cell?_assign (m : Machine) (name : String) (value : Value) (level : Nat) (other : String) :
    (m.assign name value).cell? (.var level other)
      = if level = m.level name ∧ other = name then some value else m.cell? (.var level other) := by
  rw [cell?, cell?, frames_assign, Machine.level]
  by_cases hany : m.frames.any (·.has name) = true
  · rw [if_pos hany, if_pos hany, getElem?_assignIn]
    by_cases hlevel : level = m.frames.findIdx (·.has name)
    · have hlt : level < m.frames.length := by
        rw [hlevel]
        exact List.findIdx_lt_length_of_exists (List.any_eq_true.1 hany)
      rw [if_pos hlevel, List.getElem?_eq_getElem hlt]
      simp [Frame.get?_set, hlevel]
    · rw [if_neg hlevel, if_neg fun h => hlevel h.1]
  · rw [if_neg hany, if_neg hany]
    cases level with
    | zero => simp [Frame.get?_set, frames]
    | succ level => simp [frames]

theorem cell?_define (m : Machine) (name : String) (value : Value) (level : Nat) (other : String) :
    (m.define name value).cell? (.var level other)
      = if level = 0 ∧ other = name then some value else m.cell? (.var level other) := by
  cases level <;> simp [cell?, frames, define, Frame.get?_set]

theorem findSome?_assignIn (name : String) (value : Value) {frames : List Frame} (h : frames.any (·.has name) = true) :
    (assignIn name value frames).findSome? (·.get? name) = some value := by
  induction frames with
  | nil => cases h
  | cons frame rest ih =>
      rw [assignIn]
      by_cases hhas : frame.has name = true
      · rw [if_pos hhas, List.findSome?_cons, Frame.get?_set, if_pos rfl]
      · have hget : frame.get? name = none := by
          rw [Frame.has_eq, Bool.not_eq_true, Option.isSome_eq_false_iff, Option.isNone_iff_eq_none] at hhas
          exact hhas
        rw [List.any_cons, Bool.or_eq_true] at h
        rw [if_neg hhas, List.findSome?_cons, hget]
        exact ih (h.resolve_left hhas)

theorem lookup_assign (m : Machine) (name : String) (value : Value) :
    (m.assign name value).lookup name = some value := by
  rw [lookup, frames_assign]
  by_cases hany : m.frames.any (·.has name) = true
  · rw [if_pos hany, findSome?_assignIn name value hany]
  · rw [if_neg hany, List.findSome?_cons, Frame.get?_set, if_pos rfl]

theorem lookup_define (m : Machine) (name other : String) (value : Value) :
    (m.define name value).lookup other = if other = name then some value else m.lookup other := by
  rw [lookup, lookup, frames, define, List.findSome?_cons, Frame.get?_set]
  by_cases h : other = name
  · rw [if_pos h, if_pos h]
  · rw [if_neg h, if_neg h]
    rfl

/-- Setting a variable changes frames only. -/
theorem assign_eq (m : Machine) (name : String) (value : Value) :
    ∃ top callers, m.assign name value = { m with top := top, callers := callers } := by
  rw [assign]
  split
  · exact ⟨_, _, rfl⟩
  · split <;> exact ⟨_, _, rfl⟩

/-! ### Elements -/

/-- An element that is written, in an array that is there and without a gap, is the only cell that changes. -/
theorem cell?_setItem {m : Machine} {id slot : Nat} (hid : id < m.arrays.size) (hslot : slot ≤ (m.items id).size)
    (value : Value) (cell : Cell) :
    (m.setItem id slot value).cell? cell = if cell = .item id slot then some value else m.cell? cell := by
  cases cell with
  | var level name => rw [if_neg (by simp)]; rfl
  | item i j =>
      rw [cell?, cell?, items_setItem]
      by_cases hi : i = id
      · subst hi
        rw [if_pos ⟨rfl, hid⟩]
        simp only [Cell.item.injEq, true_and]
        by_cases hend : slot = (m.items i).size
        · rw [if_pos hend, Array.getElem?_push, ← hend]
        · rw [if_neg hend, Array.getElem?_setIfInBounds]
          by_cases hj : j = slot
          · rw [if_pos hj.symm, if_pos hj, if_pos (by omega)]
          · rw [if_neg (Ne.symm hj), if_neg hj]
      · rw [if_neg fun h => hi h.1, if_neg (by simp [hi])]

theorem size_items_setItem {m : Machine} {id slot : Nat} (hid : id < m.arrays.size) (value : Value) :
    ((m.setItem id slot value).items id).size
      = if slot = (m.items id).size then (m.items id).size + 1 else (m.items id).size := by
  rw [items_setItem, if_pos ⟨rfl, hid⟩]
  split
  · rw [Array.size_push]
  · rw [Array.size_setIfInBounds]

/-- An empty array has no elements, just like one that is not there. -/
theorem items_newArray_empty (m : Machine) (id : Nat) : (m.newArray #[]).2.items id = m.items id := by
  rw [items_newArray]
  split
  · rename_i h
    rw [items_of_le h.ge]
  · rfl

/-! ### Owners of elements -/

theorem elementOwner_of_some {m : Machine} {name : String} {value : Value} (h : m.lookup name = some value) :
    m.elementOwner name = (value, m) := by
  rw [elementOwner, h]

theorem elementOwner_of_none {m : Machine} {name : String} (h : m.lookup name = none) :
    m.elementOwner name
      = (.array m.arrays.size, (m.newArray #[]).2.define name (.array m.arrays.size)) := by
  rw [elementOwner, h]
  rfl

end Machine

end PolishPseudocode
