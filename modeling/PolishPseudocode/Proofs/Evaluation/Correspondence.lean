import Mathlib.Data.List.Forall2
import Mathlib.Data.List.Perm.Subperm
import PolishPseudocode.Evaluation
import PolishPseudocode.Proofs.Program.Leaves

/-! States that differ only in the identities of their arrays and functions. A pairing says which array of one state
stands for which array of the other, and the same of functions. Values are alike if they are equal but for paired
identities, and states are if their variables, the elements of paired arrays and their outputs are. Nothing that a
program can do to alike states tells them apart: equality, printing and every change of the state respect the
pairing. -/

namespace PolishPseudocode

/-- Which arrays and functions of one state stand for which of another one, where none stands for two, and the names
of the variables that the two states share. -/
structure Pairing where
  arrays : Nat → Nat → Prop
  functions : Nat → Nat → Prop
  names : String → Prop
  arrays_unique : Relator.BiUnique arrays
  functions_unique : Relator.BiUnique functions

/-- All names among some tokens are shared. -/
def Pairing.Shares (p : Pairing) (marks : List Token) : Prop :=
  ∀ t ∈ marks, ∀ name, t.kind = .identifier name → p.names name

namespace Pairing.Shares

variable {p : Pairing} {marks marks' : List Token}

theorem append_iff : p.Shares (marks ++ marks') ↔ p.Shares marks ∧ p.Shares marks' :=
  List.forall_mem_append

theorem cons_iff {name : Name} : p.Shares (name.token :: marks) ↔ p.names name.name ∧ p.Shares marks := by
  rw [Shares, List.forall_mem_cons]
  constructor
  · rintro ⟨hname, hmarks⟩
    exact ⟨hname name.name rfl, hmarks⟩
  · rintro ⟨hname, hmarks⟩
    exact ⟨fun other hother => Token.Kind.identifier.inj hother ▸ hname, hmarks⟩

theorem tail {t : Token} (h : p.Shares (t :: marks)) : p.Shares marks :=
  (List.forall_mem_cons.1 h).2

end Pairing.Shares

/-- Values that are equal but for paired identities. The body of a function has shared names only. -/
inductive Value.Alike (p : Pairing) : Value → Value → Prop where
  | number (x : Float) : Alike p (.number x) (.number x)
  | text (s : String) : Alike p (.text s) (.text s)
  | bool (b : Bool) : Alike p (.bool b) (.bool b)
  | array {i j : Nat} (h : p.arrays i j) : Alike p (.array i) (.array j)
  | builtin (f : Builtin) : Alike p (.builtin f) (.builtin f)
  | function {i j : Nat} (h : p.functions i j) (parameters : List String) {body : Block}
      (hbody : p.Shares (Statement.marksAll body)) :
      Alike p (.function ⟨i, parameters, body⟩) (.function ⟨j, parameters, body⟩)

/-- Frames with alike values for the shared names. -/
def Frame.Alike (p : Pairing) (frame frame' : Frame) : Prop :=
  ∀ name, p.names name → Option.Rel (Value.Alike p) (frame.get? name) (frame'.get? name)

/-- Of two counts, both identities are below, or they are as far above. -/
def InStep (n n' i j : Nat) : Prop :=
  (i < n ∧ j < n') ∨ ∃ k, i = n + k ∧ j = n' + k

/-- If those from two counts on are paired in order, all others are paired below them. -/
theorem inStep_of_next {related : Nat → Nat → Prop} (h : Relator.BiUnique related) {n n' : Nat}
    (hnext : ∀ k, related (n + k) (n' + k)) {i j : Nat} (hij : related i j) : InStep n n' i j := by
  by_cases hi : i < n
  · by_cases hj : j < n'
    · exact .inl ⟨hi, hj⟩
    · obtain ⟨k, rfl⟩ := Nat.exists_eq_add_of_le (Nat.le_of_not_lt hj)
      exact .inr ⟨k, (Relator.rel_eq h hij (hnext k)).2 rfl, rfl⟩
  · obtain ⟨k, rfl⟩ := Nat.exists_eq_add_of_le (Nat.le_of_not_lt hi)
    exact .inr ⟨k, rfl, (Relator.rel_eq h hij (hnext k)).1 rfl⟩

/-- States with alike variables, alike elements in paired arrays, and the same output. -/
structure Machine.Alike (p : Pairing) (m m' : Machine) : Prop where
  frames : List.Forall₂ (Frame.Alike p) m.frames m'.frames
  items : ∀ {i j}, p.arrays i j → List.Forall₂ (Value.Alike p) (m.items i).toList (m'.items j).toList
  output : m'.output = m.output

/-- Alike states in which also the arrays and functions to come are paired, in the order of their making. -/
structure Machine.Parallel (p : Pairing) (m m' : Machine) : Prop extends Machine.Alike p m m' where
  nextArray : ∀ k, p.arrays (m.arrays.size + k) (m'.arrays.size + k)
  nextFunction : ∀ k, p.functions (m.functions + k) (m'.functions + k)

variable {p : Pairing}

/-! ### Values -/

namespace Value.Alike

variable {v v' w w' : Value}

theorem isTruthy_eq (h : Alike p v v') : v.isTruthy = v'.isTruthy := by
  cases h <;> rfl

theorem class_eq (h : Alike p v v') : v.class = v'.class := by
  cases h <;> rfl

theorem slot?_eq (h : Alike p v v') (origin : Int) : v.slot? origin = v'.slot? origin := by
  cases h <;> rfl

theorem character?_eq (h : Alike p v v') : v.character? = v'.character? := by
  cases h <;> rfl

theorem isIndexable_eq (h : Alike p v v') : v.isIndexable = v'.isIndexable := by
  cases h <;> rfl

/-- Objects are the same in one state exactly if those paired with them are in the other. -/
theorem isSame_eq (h : Alike p v v') (hw : Alike p w w') : v.isSame w = v'.isSame w' := by
  cases h with
  | @array i j h =>
      cases hw with
      | @array i' j' h' =>
          exact decide_eq_decide.2 (Relator.rel_eq p.arrays_unique h h')
      | _ => rfl
  | @function i j h parameters body hbody =>
      cases hw with
      | @function i' j' h' parameters' body' hbody' =>
          exact decide_eq_decide.2 (Relator.rel_eq p.functions_unique h h')
      | _ => rfl
  | _ => cases hw <;> rfl

end Value.Alike

/-! ### Frames -/

namespace Frame

theorem get?_cons (name other : String) (value : Value) (rest : Frame) :
    get? ((name, value) :: rest) other = if other = name then some value else get? rest other := by
  rw [get?, List.lookup_cons]
  split
  · rename_i h
    rw [if_pos (eq_of_beq h)]
  · rename_i h
    rw [if_neg (ne_of_beq_false h)]
    rfl

theorem get?_set (frame : Frame) (name other : String) (value : Value) :
    (frame.set name value).get? other = if other = name then some value else frame.get? other := by
  induction frame with
  | nil => exact get?_cons name other value []
  | cons entry rest ih =>
      obtain ⟨first, old⟩ := entry
      rw [set]
      split
      · rename_i hfirst
        rw [get?_cons, get?_cons, hfirst]
        split <;> rfl
      · rename_i hfirst
        rw [get?_cons, get?_cons, ih]
        by_cases hother : other = first
        · rw [if_pos hother, if_pos hother, if_neg (hother ▸ hfirst)]
        · rw [if_neg hother, if_neg hother]

theorem has_eq (frame : Frame) (name : String) : frame.has name = (frame.get? name).isSome := by
  induction frame with
  | nil => rfl
  | cons entry rest ih =>
      obtain ⟨first, old⟩ := entry
      rw [get?_cons, has, List.any_cons]
      by_cases h : name = first
      · rw [if_pos h, beq_iff_eq.2 h.symm]
        rfl
      · rw [if_neg h, beq_eq_false_iff_ne.2 (Ne.symm h), ← ih]
        rfl

namespace Alike

variable {frame frame' : Frame}

theorem set (h : Alike p frame frame') {v v' : Value} (hv : Value.Alike p v v') (name : String) :
    Alike p (frame.set name v) (frame'.set name v') := by
  intro other hother
  rw [get?_set, get?_set]
  split
  · exact .some hv
  · exact h other hother

/-- A variable that is not shared may be set in one frame alone. -/
theorem set_left (h : Alike p frame frame') {name : String} (hname : ¬ p.names name) (v : Value) :
    Alike p (frame.set name v) frame' := by
  intro other hother
  have hne : ¬ other = name := by
    rintro rfl
    exact hname hother
  rw [get?_set, if_neg hne]
  exact h other hother

theorem has_eq (h : Alike p frame frame') {name : String} (hname : p.names name) :
    frame.has name = frame'.has name := by
  have hrel := h name hname
  rw [Frame.has_eq, Frame.has_eq]
  generalize frame.get? name = found at hrel
  generalize frame'.get? name = found' at hrel
  cases hrel <;> rfl

theorem ofArguments {values values' : List Value} (h : List.Forall₂ (Value.Alike p) values values')
    (parameters : List String) :
    Alike p (Frame.ofArguments parameters values) (Frame.ofArguments parameters values') := by
  have hfold (frame frame' : Frame) (hframe : Alike p frame frame') :
      Alike p ((parameters.zip values).foldl (fun frame entry => frame.set entry.1 entry.2) frame)
        ((parameters.zip values').foldl (fun frame entry => frame.set entry.1 entry.2) frame') := by
    induction h generalizing parameters frame frame' with
    | nil =>
        rw [List.zip_nil_right]
        exact hframe
    | cons hv hrest ih =>
        cases parameters with
        | nil => exact hframe
        | cons name parameters => exact ih parameters _ _ (hframe.set hv name)
  exact hfold [] [] fun _ _ => .none

end Alike

end Frame

/-! ### States -/

namespace Machine.Alike

variable {m m' : Machine}

theorem depth_eq (h : Alike p m m') : m.depth = m'.depth :=
  h.frames.length_eq

theorem lookup (h : Alike p m m') {name : String} (hname : p.names name) :
    Option.Rel (Value.Alike p) (m.lookup name) (m'.lookup name) := by
  have hframes := h.frames
  rw [Machine.lookup, Machine.lookup]
  generalize m.frames = frames at hframes
  generalize m'.frames = frames' at hframes
  induction hframes with
  | nil => exact .none
  | @cons frame frame' rest rest' hframe _ ih =>
      have hrel := hframe name hname
      rw [List.findSome?_cons, List.findSome?_cons]
      generalize frame.get? name = found at hrel
      generalize frame'.get? name = found' at hrel
      cases hrel with
      | none => exact ih
      | some hv => exact .some hv

end Machine.Alike

theorem Machine.forall₂_assignIn {frames frames' : List Frame} (h : List.Forall₂ (Frame.Alike p) frames frames')
    {v v' : Value} (hv : Value.Alike p v v') {name : String} (hname : p.names name) :
    List.Forall₂ (Frame.Alike p) (assignIn name v frames) (assignIn name v' frames') := by
  induction h with
  | nil => exact .nil
  | cons hframe hrest ih =>
      rw [assignIn, assignIn, hframe.has_eq hname]
      split
      · exact .cons (hframe.set hv name) hrest
      · exact .cons hframe ih

theorem Machine.any_has_eq {frames frames' : List Frame} (h : List.Forall₂ (Frame.Alike p) frames frames')
    {name : String} (hname : p.names name) : frames.any (·.has name) = frames'.any (·.has name) := by
  induction h with
  | nil => rfl
  | cons hframe hrest ih => rw [List.any_cons, List.any_cons, hframe.has_eq hname, ih]

namespace Machine.Parallel

variable {m m' : Machine} {v v' : Value}

theorem define (h : Parallel p m m') (hv : Value.Alike p v v') (name : String) :
    Parallel p (m.define name v) (m'.define name v') := by
  obtain ⟨htop, hcallers⟩ := List.forall₂_cons.1 h.frames
  exact { h with frames := .cons (htop.set hv name) hcallers }

theorem assign (h : Parallel p m m') (hv : Value.Alike p v v') {name : String} (hname : p.names name) :
    Parallel p (m.assign name v) (m'.assign name v') := by
  obtain ⟨htop, hcallers⟩ := List.forall₂_cons.1 h.frames
  rw [Machine.assign, Machine.assign, htop.has_eq hname, any_has_eq hcallers hname]
  split
  · exact h.define hv name
  · split
    · exact { h with frames := .cons htop (forall₂_assignIn hcallers hv hname) }
    · exact h.define hv name

theorem push (h : Parallel p m m') {frame frame' : Frame} (hframe : Frame.Alike p frame frame') :
    Parallel p (m.push frame) (m'.push frame') :=
  { h with frames := .cons hframe h.frames }

theorem pop (h : Parallel p m m') : Parallel p m.pop m'.pop := by
  obtain ⟨-, hcallers⟩ := List.forall₂_cons.1 h.frames
  rw [Machine.pop, Machine.pop]
  cases hm : m.callers with
  | nil =>
      rw [hm] at hcallers
      rw [List.forall₂_nil_left_iff.1 hcallers]
      exact h
  | cons frame callers =>
      rw [hm] at hcallers
      obtain ⟨frame', callers', hframe, hrest, hm'⟩ := List.forall₂_cons_left_iff.1 hcallers
      rw [hm']
      exact { h with frames := .cons hframe hrest }

theorem newFunction (h : Parallel p m m') (parameters : List String) {body : Block}
    (hbody : p.Shares (Statement.marksAll body)) :
    Value.Alike p (m.newFunction parameters body).1 (m'.newFunction parameters body).1
      ∧ Parallel p (m.newFunction parameters body).2 (m'.newFunction parameters body).2 := by
  refine ⟨.function (h.nextFunction 0) parameters hbody, { h with nextFunction := fun k => ?_ }⟩
  have hnext := h.nextFunction (k + 1)
  rw [Nat.add_comm k 1, ← Nat.add_assoc, ← Nat.add_assoc] at hnext
  exact hnext

end Machine.Parallel

/-! ### Arrays -/

theorem Machine.items_newArray (m : Machine) (items : Array Value) (i : Nat) :
    (m.newArray items).2.items i = if i = m.arrays.size then items else m.items i := by
  rw [newArray, Machine.items, Machine.items, Array.getD_eq_getD_getElem?, Array.getD_eq_getD_getElem?,
    Array.getElem?_push]
  split <;> rfl

/-- An array that is there has the element written; nothing else changes. -/
theorem Machine.items_setItem (m : Machine) (id slot : Nat) (value : Value) (i : Nat) :
    (m.setItem id slot value).items i
      = if i = id ∧ i < m.arrays.size then
          if slot = (m.items id).size then (m.items id).push value else (m.items id).setIfInBounds slot value
        else m.items i := by
  rw [setItem, items, items, items, Array.getD_eq_getD_getElem?, Array.getD_eq_getD_getElem?,
    Array.getD_eq_getD_getElem?, Array.getElem?_modify]
  by_cases hid : id = i
  · subst hid
    rw [if_pos rfl]
    by_cases hlt : id < m.arrays.size
    · rw [if_pos ⟨rfl, hlt⟩, Array.getElem?_eq_getElem hlt]
      rfl
    · rw [if_neg fun h => hlt h.2, Array.getElem?_eq_none (Nat.le_of_not_lt hlt)]
      rfl
  · rw [if_neg hid, if_neg fun h => hid h.1.symm]

theorem Machine.items_of_le {m : Machine} {i : Nat} (h : m.arrays.size ≤ i) : m.items i = #[] := by
  rw [items, Array.getD_eq_getD_getElem?, Array.getElem?_eq_none h]
  rfl

theorem forall₂_set {α β : Type} {related : α → β → Prop} {xs : List α} {ys : List β} (h : List.Forall₂ related xs ys)
    {a : α} {b : β} (hab : related a b) (k : Nat) : List.Forall₂ related (xs.set k a) (ys.set k b) := by
  induction h generalizing k with
  | nil => exact .nil
  | cons hxy hrest ih =>
      cases k with
      | zero => exact .cons hab hrest
      | succ k => exact .cons hxy (ih k)

namespace Machine.Alike

variable {m m' : Machine}

theorem newArray (h : Alike p m m') {items items' : Array Value}
    (hitems : List.Forall₂ (Value.Alike p) items.toList items'.toList)
    (hnext : p.arrays m.arrays.size m'.arrays.size) :
    Alike p (m.newArray items).2 (m'.newArray items').2 := by
  refine { h with items := fun {i j} hij => ?_ }
  rw [items_newArray, items_newArray]
  by_cases hi : i = m.arrays.size
  · rw [if_pos hi, if_pos ((Relator.rel_eq p.arrays_unique hij hnext).1 hi)]
    exact hitems
  · rw [if_neg hi, if_neg fun hj => hi ((Relator.rel_eq p.arrays_unique hij hnext).2 hj)]
    exact h.items hij

end Machine.Alike

namespace Machine.Parallel

variable {m m' : Machine}

/-- Arrays that are there are paired with arrays that are there. -/
theorem lt_iff (h : Parallel p m m') {i j : Nat} (hij : p.arrays i j) : i < m.arrays.size ↔ j < m'.arrays.size := by
  rcases inStep_of_next p.arrays_unique h.nextArray hij with ⟨hi, hj⟩ | ⟨k, rfl, rfl⟩ <;> omega

theorem newArray (h : Parallel p m m') {items items' : Array Value}
    (hitems : List.Forall₂ (Value.Alike p) items.toList items'.toList) :
    Value.Alike p (m.newArray items).1 (m'.newArray items').1
      ∧ Parallel p (m.newArray items).2 (m'.newArray items').2 := by
  refine ⟨.array (h.nextArray 0), { h.toAlike.newArray hitems (h.nextArray 0), h with nextArray := fun k => ?_ }⟩
  have hnext := h.nextArray (k + 1)
  rw [Nat.add_comm k 1, ← Nat.add_assoc, ← Nat.add_assoc] at hnext
  rw [Machine.newArray, Machine.newArray, Array.size_push, Array.size_push]
  exact hnext

theorem setItem (h : Parallel p m m') {id id' : Nat} (hid : p.arrays id id') (slot : Nat) {v v' : Value}
    (hv : Value.Alike p v v') : Parallel p (m.setItem id slot v) (m'.setItem id' slot v') := by
  refine { h with
    items := fun {i j} hij => ?_
    nextArray := fun k => ?_ }
  · rw [items_setItem, items_setItem]
    have hsize : (m.items id).size = (m'.items id').size := (h.items hid).length_eq
    by_cases hi : i = id ∧ i < m.arrays.size
    · have hj : j = id' ∧ j < m'.arrays.size :=
        ⟨(Relator.rel_eq p.arrays_unique hij hid).1 hi.1, (h.lt_iff hij).1 hi.2⟩
      rw [if_pos hi, if_pos hj, hsize]
      split
      · rw [Array.toList_push, Array.toList_push]
        exact List.rel_append (h.items hid) (.cons hv .nil)
      · rw [Array.toList_setIfInBounds, Array.toList_setIfInBounds]
        exact forall₂_set (h.items hid) hv slot
    · have hj : ¬ (j = id' ∧ j < m'.arrays.size) := fun hj =>
        hi ⟨(Relator.rel_eq p.arrays_unique hij hid).2 hj.1, (h.lt_iff hij).2 hj.2⟩
      rw [if_neg hi, if_neg hj]
      exact h.items hij
  · rw [Machine.setItem, Machine.setItem, Array.size_modify, Array.size_modify]
    exact h.nextArray k

end Machine.Parallel

/-! ### Printing -/

/-- Different arrays that are all there are at most as many as there are. -/
theorem length_le_of_nodup {path : List Nat} {size : Nat} (hpath : path.Nodup) (hlt : ∀ i ∈ path, i < size) :
    path.length ≤ size := by
  have hsubset : path ⊆ List.range size := fun i hi => List.mem_range.2 (hlt i hi)
  have hle := (List.subperm_of_subset hpath hsubset).length_le
  rwa [List.length_range] at hle

/-- The arrays that a value lies in when it is printed: all different, all there, and with enough steps left for the
others. -/
structure OnPath (arrays : Array (Array Value)) (steps : Nat) (path : List Nat) : Prop where
  nodup : path.Nodup
  lt : ∀ i ∈ path, i < arrays.size
  enough : arrays.size < steps + path.length

theorem onPath_nil (arrays : Array (Array Value)) : OnPath arrays (arrays.size + 1) [] :=
  ⟨List.nodup_nil, List.forall_mem_nil _, Nat.lt_succ_self _⟩

theorem OnPath.pos {arrays : Array (Array Value)} {steps : Nat} {path : List Nat} (h : OnPath arrays steps path) :
    0 < steps := by
  have hlength := length_le_of_nodup h.nodup h.lt
  have henough := h.enough
  omega

theorem OnPath.cons {arrays : Array (Array Value)} {steps : Nat} {path : List Nat} (h : OnPath arrays (steps + 1) path)
    {i : Nat} (hi : i ∉ path) (hlt : i < arrays.size) : OnPath arrays steps (i :: path) where
  nodup := List.nodup_cons.2 ⟨hi, h.nodup⟩
  lt := List.forall_mem_cons.2 ⟨hlt, h.lt⟩
  enough := by
    have henough := h.enough
    rw [List.length_cons]
    omega

/-- Alike values have the same copies: an array is cut off on one path exactly if the one paired with it is on the
other. -/
theorem Machine.Alike.copy_eq {m m' : Machine} (h : Machine.Alike p m m') {v v' : Value} (hv : Value.Alike p v v')
    {steps steps' : Nat} {path path' : List Nat} (hpath : OnPath m.arrays steps path)
    (hpath' : OnPath m'.arrays steps' path') (hpaths : List.Forall₂ p.arrays path path') :
    Printed.copy m.arrays steps path v = Printed.copy m'.arrays steps' path' v' := by
  induction steps generalizing v v' steps' path path' with
  | zero => exact absurd hpath.pos (Nat.lt_irrefl 0)
  | succ steps ih =>
      cases steps' with
      | zero => exact absurd hpath'.pos (Nat.lt_irrefl 0)
      | succ steps' =>
          cases hv with
          | @array i j hij =>
              have hmem : i ∈ path ↔ j ∈ path' := List.rel_mem p.arrays_unique hij hpaths
              rw [Printed.copy, Printed.copy]
              by_cases hi : i ∈ path
              · rw [if_pos hi, if_pos (hmem.1 hi)]
              · have hj : j ∉ path' := fun hj => hi (hmem.2 hj)
                have hitems := h.items hij
                rw [if_neg hi, if_neg hj]
                refine congrArg Printed.array ?_
                change (m.items i).toList.map _ = (m'.items j).toList.map _
                by_cases hlt : i < m.arrays.size ∧ j < m'.arrays.size
                · have hcopies := hitems.imp fun w w' hw =>
                    ih hw (hpath.cons hi hlt.1) (hpath'.cons hj hlt.2) (.cons hij hpaths)
                  have hmaps := List.forall₂_map_left_iff.2 (List.forall₂_map_right_iff.2 hcopies)
                  rwa [List.forall₂_eq_eq_eq] at hmaps
                · -- An array that is not there has no elements, nor has the one paired with it.
                  rcases not_and_or.1 hlt with hlt | hlt
                  · rw [items_of_le (Nat.le_of_not_lt hlt)] at hitems ⊢
                    rw [List.forall₂_nil_left_iff.1 hitems]
                    rfl
                  · rw [items_of_le (Nat.le_of_not_lt hlt)] at hitems ⊢
                    rw [List.forall₂_nil_right_iff.1 hitems]
                    rfl
          | _ => rfl

theorem Machine.Alike.printed_eq {m m' : Machine} (h : Machine.Alike p m m') {v v' : Value} (hv : Value.Alike p v v') :
    m.printed v = m'.printed v' := by
  have hcopy := h.copy_eq hv (onPath_nil m.arrays) (onPath_nil m'.arrays) .nil
  cases hv with
  | bool b => rfl
  | _ => exact hcopy

theorem Machine.Parallel.print {m m' : Machine} (h : Machine.Parallel p m m') {v v' : Value}
    (hv : Value.Alike p v v') : Machine.Parallel p (m.print v) (m'.print v') := by
  refine { h with output := ?_ }
  rw [Machine.print, Machine.print, h.output, h.printed_eq hv]

/-! ### Operations -/

/-- Operations with the same error or alike values. -/
inductive SameResult {ε α β : Type} (values : α → β → Prop) : Except ε α → Except ε β → Prop where
  | ok {a : α} {b : β} (h : values a b) : SameResult values (.ok a) (.ok b)
  | error (e : ε) : SameResult values (.error e) (.error e)

theorem SameResult.map {ε α β γ δ : Type} {values : α → β → Prop} {values' : γ → δ → Prop} {f : α → γ} {g : β → δ}
    {result : Except ε α} {result' : Except ε β} (h : SameResult values result result')
    (hmap : ∀ a b, values a b → values' (f a) (g b)) : SameResult values' (result.map f) (result'.map g) := by
  cases h with
  | ok h => exact .ok (hmap _ _ h)
  | error e => exact .error e

theorem UnaryOp.apply_same (op : UnaryOp) {v v' : Value} (hv : Value.Alike p v v') :
    SameResult (Value.Alike p) (op.apply v) (op.apply v') := by
  cases op with
  | not =>
      rw [apply, apply, hv.isTruthy_eq]
      exact .ok (.bool _)
  | negate =>
      cases hv with
      | number x => exact .ok (.number _)
      | _ => exact .error _

namespace BinaryOp

variable {v v' w w' : Value}

theorem applyOrder_same (op : BinaryOp) (hv : Value.Alike p v v') (hw : Value.Alike p w w') :
    SameResult (Value.Alike p) (op.applyOrder v w) (op.applyOrder v' w') := by
  cases hv with
  | number x =>
      cases hw with
      | number y => exact .ok (.bool _)
      | _ => exact .error _
  | text s =>
      cases hw with
      | text t => exact .ok (.bool _)
      | _ => exact .error _
  | _ => cases hw <;> exact .error _

theorem applyEquality_same (negated : Bool) (hv : Value.Alike p v v') (hw : Value.Alike p w w') :
    SameResult (Value.Alike p) (applyEquality negated v w) (applyEquality negated v' w') := by
  rw [applyEquality, applyEquality, hv.class_eq, hw.class_eq, hv.isSame_eq hw]
  split
  · exact .ok (.bool _)
  · exact .error _

theorem applyLogic_same (connective : Bool → Bool → Bool) (hv : Value.Alike p v v') (hw : Value.Alike p w w') :
    SameResult (Value.Alike p) (applyLogic connective v w) (applyLogic connective v' w') := by
  cases hv with
  | bool a =>
      cases hw with
      | bool b => exact .ok (.bool _)
      | _ => exact .error _
  | _ => cases hw <;> exact .error _

theorem applyAddition_same (hv : Value.Alike p v v') (hw : Value.Alike p w w') :
    SameResult (Value.Alike p) (applyAddition v w) (applyAddition v' w') := by
  cases hv with
  | number x =>
      cases hw with
      | number y => exact .ok (.number _)
      | _ => exact .error _
  | text s =>
      cases hw with
      | text t => exact .ok (.text _)
      | _ => exact .error _
  | _ => cases hw <;> exact .error _

theorem applyArithmetic_same (operation : Float → Float → Float) (hv : Value.Alike p v v')
    (hw : Value.Alike p w w') :
    SameResult (Value.Alike p) (applyArithmetic operation v w) (applyArithmetic operation v' w') := by
  cases hv with
  | number x =>
      cases hw with
      | number y => exact .ok (.number _)
      | _ => exact .error _
  | _ => cases hw <;> exact .error _

theorem apply_same (op : BinaryOp) (hv : Value.Alike p v v') (hw : Value.Alike p w w') :
    SameResult (Value.Alike p) (op.apply v w) (op.apply v' w') := by
  cases op with
  | greater | less | greaterEqual | lessEqual => exact applyOrder_same _ hv hw
  | equal | notEqual => exact applyEquality_same _ hv hw
  | and | or => exact applyLogic_same _ hv hw
  | add => exact applyAddition_same hv hw
  | sub | mul | div | intDiv | mod => exact applyArithmetic_same _ hv hw

theorem isDecidedBy_eq (op : BinaryOp) (hv : Value.Alike p v v') : op.isDecidedBy v = op.isDecidedBy v' := by
  cases hv <;> cases op <;> rfl

end BinaryOp

theorem Builtin.apply_same {m m' : Machine} (h : Machine.Alike p m m') (f : Builtin) {values values' : List Value}
    (hvalues : List.Forall₂ (Value.Alike p) values values') :
    SameResult (Value.Alike p) (f.apply m.arrays values) (f.apply m'.arrays values') := by
  cases hvalues with
  | nil => cases f <;> exact .error _
  | cons hv hrest =>
      cases hrest with
      | cons _ _ => cases hv <;> cases f <;> exact .error _
      | nil =>
          cases hv with
          | number x =>
              cases f with
              | ceiling | floor => exact .ok (.number _)
              | length => exact .error _
              | text => exact .ok (.text _)
          | text s =>
              cases f with
              | length => exact .ok (.number _)
              | _ => exact .error _
          | @array i j hij =>
              cases f with
              | length =>
                  have hsize : (m.items i).size = (m'.items j).size := (h.items hij).length_eq
                  change SameResult _ (.ok (Value.number (Number.ofLength (m.items i).size)))
                    (.ok (Value.number (Number.ofLength (m'.items j).size)))
                  rw [hsize]
                  exact .ok (.number _)
              | _ => exact .error _
          | _ => cases f <;> exact .error _

/-! ### Elements -/

theorem forall₂_getElem? {α β : Type} {related : α → β → Prop} {xs : List α} {ys : List β}
    (h : List.Forall₂ related xs ys) (k : Nat) : Option.Rel related xs[k]? ys[k]? := by
  induction h generalizing k with
  | nil => exact .none
  | cons hxy hrest ih =>
      cases k with
      | zero => exact .some hxy
      | succ k => exact ih k

/-- Writes of alike values to paired arrays or to the same shared variable. -/
inductive Write.Alike (p : Pairing) : Write → Write → Prop where
  | item {i j : Nat} (h : p.arrays i j) (slot : Nat) {v v' : Value} (hv : Value.Alike p v v') :
      Alike p (.item i slot v) (.item j slot v')
  | var {name : String} (h : p.names name) {v v' : Value} (hv : Value.Alike p v v') :
      Alike p (.var name v) (.var name v')

namespace Machine

variable {m m' : Machine} {index index' : Value}

theorem Alike.outside_eq (h : Alike p m m') (hindex : Value.Alike p index index') (what : Indexed) (subject : String)
    (place : Position) : m.outside index what subject place = m'.outside index' what subject place := by
  rw [outside, outside, h.printed_eq hindex]

theorem Alike.element_same (h : Alike p m m') (o : Origins) {target target' : Value}
    (htarget : Value.Alike p target target') (hindex : Value.Alike p index index') (subject : String)
    (place : Position) :
    SameResult (Value.Alike p) (m.element o target index subject place)
      (m'.element o target' index' subject place) := by
  have houtside := h.outside_eq hindex .reading subject place.right
  cases htarget with
  | @array i j hij =>
      dsimp only [element]
      rw [hindex.slot?_eq, houtside]
      cases index'.slot? o.arrays with
      | none => exact .error _
      | some slot =>
          have hitem := forall₂_getElem? (h.items hij) slot
          rw [Array.getElem?_toList, Array.getElem?_toList] at hitem
          dsimp only [Option.bind_some]
          generalize (m.items i)[slot]? = found at hitem
          generalize (m'.items j)[slot]? = found' at hitem
          cases hitem with
          | none => exact .error _
          | some hv => exact .ok hv
  | text s =>
      dsimp only [element]
      rw [hindex.slot?_eq, houtside]
      split
      · exact .ok (.text _)
      · exact .error _
  | _ => exact .error _

theorem Parallel.elementOwner (h : Parallel p m m') {name : String} (hname : p.names name) :
    Value.Alike p (m.elementOwner name).1 (m'.elementOwner name).1
      ∧ Parallel p (m.elementOwner name).2 (m'.elementOwner name).2 := by
  have hlookup := h.lookup hname
  rw [Machine.elementOwner, Machine.elementOwner]
  generalize m.lookup name = found at hlookup
  generalize m'.lookup name = found' at hlookup
  cases hlookup with
  | some hv => exact ⟨hv, h⟩
  | none =>
      obtain ⟨harray, hnew⟩ := h.newArray (List.Forall₂.nil : List.Forall₂ _ (#[] : Array Value).toList _)
      exact ⟨harray, hnew.define harray name⟩

theorem Alike.elementWrite_same (h : Alike p m m') (o : Origins) {name : Name} (hname : p.names name.name)
    {owner owner' : Value} (howner : Value.Alike p owner owner') (hindex : Value.Alike p index index') {v v' : Value}
    (hv : Value.Alike p v v') (place : Position) :
    SameResult (Write.Alike p) (m.elementWrite o name owner index v place)
      (m'.elementWrite o name owner' index' v' place) := by
  cases howner with
  | @array i j hij =>
      have hsize : (m.items i).size = (m'.items j).size := (h.items hij).length_eq
      dsimp only [elementWrite]
      rw [hindex.slot?_eq, h.outside_eq hindex]
      cases index'.slot? o.arrays with
      | none => exact .error _
      | some slot =>
          dsimp only
          rw [hsize]
          split
          · exact .error _
          · exact .ok (.item hij slot hv)
  | text s =>
      dsimp only [elementWrite]
      rw [hindex.slot?_eq, h.outside_eq hindex, h.outside_eq hindex, hv.character?_eq]
      cases index'.slot? o.texts with
      | none => exact .error _
      | some slot =>
          dsimp only
          split
          · exact .error _
          · split
            · exact .error _
            · exact .ok (.var hname (.text _))
  | _ => exact .error _

theorem Parallel.perform (h : Parallel p m m') {write write' : Write} (hwrite : Write.Alike p write write') :
    Parallel p (m.perform write) (m'.perform write') := by
  cases hwrite with
  | item hij slot hv => exact h.setItem hij slot hv
  | var hname hv => exact h.assign hv hname

end Machine

end PolishPseudocode
