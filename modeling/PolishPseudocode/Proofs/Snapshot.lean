import Mathlib.Logic.Relation
import PolishPseudocode.Proofs.Evaluation.Correspondence

/-! What printing records. A value is copied along the arrays that it holds, which may hold each other in any way, and
a copy goes no further at an array that it already lies in. This always ends; what is left out are the arrays that
are met again inside themselves and nothing else, so that an array that is only shared is copied wherever it is met,
and a value from which no cycle can be reached is copied whole. -/

namespace PolishPseudocode

variable {m : Machine} {v w : Value} {p q : Printed}

/-- A value has a copy, where the copying goes no further at the arrays that `stops` names for the path on which they
are met. The path are the arrays that the value lies in, from the innermost outwards. The steps are not bounded: that
a value has a copy says that copying it comes to an end. -/
inductive Copies (m : Machine) (stops : List Nat → Nat → Prop) : List Nat → Value → Printed → Prop where
  | number (path : List Nat) (x : Float) : Copies m stops path (.number x) (.number x)
  | text (path : List Nat) (s : String) : Copies m stops path (.text s) (.text s)
  | bool (path : List Nat) (b : Bool) : Copies m stops path (.bool b) (.bool b)
  | builtin (path : List Nat) (f : Builtin) : Copies m stops path (.builtin f) .function
  | function (path : List Nat) (f : Function) : Copies m stops path (.function f) .function
  | stop {path : List Nat} {id : Nat} (h : stops path id) : Copies m stops path (.array id) (.text "")
  | array {path : List Nat} {id : Nat} {items : List Printed} (h : ¬ stops path id)
      (hlength : items.length = (m.items id).size)
      (hitems : ∀ (i : Nat) (item : Value) (copy : Printed), (m.items id)[i]? = some item → items[i]? = some copy →
        Copies m stops (id :: path) item copy) :
      Copies m stops path (.array id) (.array items)

namespace Machine

/-- A value has a copy that stops at the arrays that lie in themselves. -/
def Copied (m : Machine) : List Nat → Value → Printed → Prop :=
  Copies m fun path id => id ∈ path

/-- A value has a plain copy, which stops nowhere. -/
def Deep (m : Machine) : Value → Printed → Prop :=
  Copies m (fun _ _ => False) []

/-- An array has another one as an element. -/
def Holds (m : Machine) (i j : Nat) : Prop :=
  ∃ k : Nat, (m.items i)[k]? = some (Value.array j)

/-- An array can be reached from a value, which may be the array itself. -/
def Leads (m : Machine) (v : Value) (id : Nat) : Prop :=
  ∃ root, v = .array root ∧ Relation.ReflTransGen m.Holds root id

/-- From a value an array can be reached that lies in itself. -/
def Cyclic (m : Machine) (v : Value) : Prop :=
  ∃ id, m.Leads v id ∧ Relation.TransGen m.Holds id id

/-- The value that the elements at some indices lead to, one inside the other, with the arrays that it lies in, from
the innermost outwards, in front of those that were there. -/
def occurrence? (m : Machine) : List Nat → Value → List Nat → Option (List Nat × Value)
  | above, v, [] => some (above, v)
  | above, .array id, i :: route =>
      match (m.items id)[i]? with
      | none => none
      | some item => occurrence? m (id :: above) item route
  | _, _, _ :: _ => none

end Machine

/-- The printed item that the items at some indices lead to, one inside the other. -/
def Printed.item? : Printed → List Nat → Option Printed
  | p, [] => some p
  | .array items, i :: route =>
      match items[i]? with
      | none => none
      | some item => item? item route
  | _, _ :: _ => none

/-- What is recorded of a value, for a way of copying: a truth value on its own is recorded as its text. -/
def Recorded (copies : Value → Printed → Prop) : Value → Printed → Prop
  | .bool b, p => p = .text (boolText b)
  | v, p => copies v p

/-! ### The copying ends -/

theorem Copies.unique {stops : List Nat → Nat → Prop} {path : List Nat} (h : Copies m stops path v p)
    (h' : Copies m stops path v q) : p = q := by
  induction h generalizing q with
  | stop hstop =>
      cases h' with
      | stop => rfl
      | array hgo => exact absurd hstop hgo
  | @array path id items hgo hlength hitems ih =>
      cases h' with
      | stop hstop => exact absurd hstop hgo
      | @array _ _ items' _ hlength' hitems' =>
          refine congrArg Printed.array (List.ext_getElem (hlength.trans hlength'.symm) fun i hi hi' => ?_)
          have hitem : (m.items id)[i]? = some _ := Array.getElem?_eq_getElem (hlength ▸ hi)
          exact ih i _ _ hitem (List.getElem?_eq_getElem hi) (hitems' i _ _ hitem (List.getElem?_eq_getElem hi'))
  | _ =>
      cases h'
      rfl

/-- The bound on the steps is never met: each array that is entered is a new one on the path. -/
theorem copied_copy {steps : Nat} {path : List Nat} (hpath : OnPath m.arrays steps path) (v : Value) :
    m.Copied path v (Printed.copy m.arrays steps path v) := by
  induction steps generalizing path v with
  | zero => exact absurd hpath.pos (Nat.lt_irrefl 0)
  | succ steps ih =>
      cases v with
      | number x => exact Copies.number path x
      | text s => exact Copies.text path s
      | bool b => exact Copies.bool path b
      | builtin f => exact Copies.builtin path f
      | function f => exact Copies.function path f
      | array id =>
          rw [Printed.copy]
          split
          · rename_i hid
            exact Copies.stop hid
          · rename_i hid
            have hlength : ((m.items id).toList.map fun item => Printed.copy m.arrays steps (id :: path) item).length
                = (m.items id).size := by
              rw [List.length_map, Array.length_toList]
            refine Copies.array hid hlength fun i item copy hitem hcopy => ?_
            have hlt : id < m.arrays.size := by
              by_contra hle
              rw [Machine.items_of_le (Nat.le_of_not_lt hle)] at hitem
              cases hitem
            change (List.map _ (m.items id).toList)[i]? = some copy at hcopy
            rw [List.getElem?_map, Array.getElem?_toList, hitem] at hcopy
            obtain rfl := Option.some.inj hcopy
            exact ih (hpath.cons hid hlt) item

theorem recorded_iff {copies : Value → Printed → Prop}
    (hcopies : ∀ q, copies v q ↔ q = Printed.copy m.arrays (m.arrays.size + 1) [] v) :
    Recorded copies v q ↔ q = m.printed v := by
  cases v with
  | bool b => exact Iff.rfl
  | _ => exact hcopies q

theorem copied_iff (v : Value) (q : Printed) :
    m.Copied [] v q ↔ q = Printed.copy m.arrays (m.arrays.size + 1) [] v := by
  have hcopy := copied_copy (onPath_nil m.arrays) v
  constructor
  · intro h
    exact h.unique hcopy
  · rintro rfl
    exact hcopy

/-! ### What is cut off -/

theorem suffix_of_occurrence? {path above : List Nat} {route : List Nat}
    (h : m.occurrence? path v route = some (above, w)) : path <:+ above := by
  induction route generalizing path v with
  | nil =>
      obtain ⟨rfl, -⟩ := Prod.mk.inj (Option.some.inj h)
      exact List.suffix_rfl
  | cons i route ih =>
      cases v with
      | array id =>
          rw [Machine.occurrence?] at h
          split at h
          · cases h
          · exact (List.suffix_cons id path).trans (ih h)
      | _ => cases h

/-- Where no array lies in itself, a copy has the copy of what is there; all else lies in what was cut off. -/
theorem item?_of_copied {path above route : List Nat} (h : m.Copied path v p) (hpath : path.Nodup)
    (hw : m.occurrence? path v route = some (above, w)) :
    (above.Nodup → ∃ q, p.item? route = some q ∧ m.Copied above w q) ∧ (¬ above.Nodup → p.item? route = none) := by
  induction route generalizing path v p with
  | nil =>
      obtain ⟨rfl, rfl⟩ := Prod.mk.inj (Option.some.inj hw)
      exact ⟨fun _ => ⟨p, rfl, h⟩, fun hnodup => absurd hpath hnodup⟩
  | cons i route ih =>
      cases v with
      | array id =>
          rw [Machine.occurrence?] at hw
          split at hw
          · cases hw
          · rename_i item hitem
            cases h with
            | stop hid =>
                -- Below a place that was cut off, the array that was met again is on the path twice.
                have hmem (hnodup : above.Nodup) : id ∉ path :=
                  (List.nodup_cons.1 (hnodup.sublist (suffix_of_occurrence? hw).sublist)).1
                exact ⟨fun hnodup => absurd hid (hmem hnodup), fun _ => rfl⟩
            | @array _ _ items hid hlength hitems =>
                have hi : i < items.length := hlength ▸ (Array.getElem?_eq_some_iff.1 hitem).1
                have hcopy := List.getElem?_eq_getElem hi
                rw [Printed.item?, hcopy]
                exact ih (hitems i item _ hitem hcopy) (List.nodup_cons.2 ⟨hid, hpath⟩) hw
      | _ => cases hw

/-- Every printed item is printed from something. -/
theorem exists_occurrence?_of_item? {stops : List Nat → Nat → Prop} {path route : List Nat}
    (h : Copies m stops path v p) (hq : p.item? route = some q) :
    ∃ above w, m.occurrence? path v route = some (above, w) := by
  induction route generalizing path v p with
  | nil => exact ⟨path, v, rfl⟩
  | cons i route ih =>
      cases h with
      | @array _ id items hgo hlength hitems =>
          rw [Printed.item?] at hq
          split at hq
          · cases hq
          · rename_i copy hcopy
            have hi : i < (m.items id).size := hlength ▸ (List.getElem?_eq_some_iff.1 hcopy).1
            have hitem := Array.getElem?_eq_getElem hi
            rw [Machine.occurrence?, hitem]
            exact ih (hitems i _ copy hitem hcopy) hq
      | _ => cases hq

/-! ### What can be reached -/

theorem Machine.Leads.of_item {id i a : Nat} {item : Value} (h : m.Leads item a)
    (hitem : (m.items id)[i]? = some item) : m.Leads (.array id) a := by
  obtain ⟨root, rfl, hreach⟩ := h
  exact ⟨id, rfl, .head ⟨i, hitem⟩ hreach⟩

theorem Machine.Leads.self (m : Machine) (id : Nat) : m.Leads (.array id) id :=
  ⟨id, rfl, .refl⟩

/-- A copy only depends on which of the arrays that can be reached lie on the path. -/
theorem Machine.Copied.of_path {path path' : List Nat} (h : m.Copied path v p)
    (hpaths : ∀ a, m.Leads v a → (a ∈ path ↔ a ∈ path')) : m.Copied path' v p := by
  induction h generalizing path' with
  | @stop path id hid => exact Copies.stop ((hpaths id (.self m id)).1 hid)
  | @array path id items hid hlength hitems ih =>
      refine Copies.array (fun hid' => hid ((hpaths id (.self m id)).2 hid')) hlength
        fun i item copy hitem hcopy => ih i item copy hitem hcopy fun a ha => ?_
      rw [List.mem_cons, List.mem_cons, hpaths a (ha.of_item hitem)]
  | number path x => exact Copies.number path' x
  | text path s => exact Copies.text path' s
  | bool path b => exact Copies.bool path' b
  | builtin path f => exact Copies.builtin path' f
  | function path f => exact Copies.function path' f

/-- Without a cycle nothing stops the copying, since an array that has been left is never met again. -/
theorem Machine.Copied.plain {path path' : List Nat} (h : m.Copied path v p)
    (hcyclic : ¬ m.Cyclic v) (hpath : ∀ a, m.Leads v a → a ∉ path) :
    Copies m (fun _ _ => False) path' v p := by
  induction h generalizing path' with
  | @stop path id hid => exact absurd hid (hpath id (.self m id))
  | @array path id items hid hlength hitems ih =>
      refine .array not_false hlength fun i item copy hitem hcopy => ih i item copy hitem hcopy ?_ fun a ha => ?_
      · rintro ⟨a, ha, hcycle⟩
        exact hcyclic ⟨a, ha.of_item hitem, hcycle⟩
      · rw [List.mem_cons, not_or]
        refine ⟨?_, hpath a (ha.of_item hitem)⟩
        rintro rfl
        obtain ⟨root, rfl, hreach⟩ := ha
        exact hcyclic ⟨a, .self m a, .head' ⟨i, hitem⟩ hreach⟩
  | number path x => exact .number path' x
  | text path s => exact .text path' s
  | bool path b => exact .bool path' b
  | builtin path f => exact .builtin path' f
  | function path f => exact .function path' f

/-- Where the copying comes to an end without stopping anywhere, there is no cycle. -/
theorem Copies.not_cyclic {path : List Nat} (h : Copies m (fun _ _ => False) path v p) : ¬ m.Cyclic v := by
  induction h with
  | stop h => exact h.elim
  | @array path id items _ hlength hitems ih =>
      rintro ⟨c, ⟨root, hroot, hreach⟩, hcycle⟩
      obtain rfl := Value.array.inj hroot
      have hnext : ∃ j, m.Holds id j ∧ Relation.ReflTransGen m.Holds j c := by
        rcases hreach.cases_head with rfl | hnext
        · exact Relation.TransGen.head'_iff.1 hcycle
        · exact hnext
      obtain ⟨j, ⟨k, hk⟩, hj⟩ := hnext
      have hlt : k < items.length := hlength ▸ (Array.getElem?_eq_some_iff.1 hk).1
      exact ih k _ _ hk (List.getElem?_eq_getElem hlt) ⟨c, ⟨j, rfl, hj⟩, hcycle⟩
  | _ =>
      rintro ⟨c, ⟨root, hroot, -⟩, -⟩
      cases hroot

/-- The plain copying comes to an end exactly if there is no cycle, and then with what is copied here. -/
theorem deep_iff (v : Value) (q : Printed) :
    m.Deep v q ↔ ¬ m.Cyclic v ∧ q = Printed.copy m.arrays (m.arrays.size + 1) [] v := by
  have hcopy := copied_copy (onPath_nil m.arrays) v
  have hdeep (hcyclic : ¬ m.Cyclic v) : m.Deep v (Printed.copy m.arrays (m.arrays.size + 1) [] v) :=
    hcopy.plain hcyclic fun a _ => List.not_mem_nil
  constructor
  · intro h
    exact ⟨h.not_cyclic, h.unique (hdeep h.not_cyclic)⟩
  · rintro ⟨hcyclic, rfl⟩
    exact hdeep hcyclic

/-! ### What is recorded -/

/-- What is recorded when a value is printed, place by place. -/
structure Machine.Snapshot (m : Machine) (v : Value) (p : Printed) : Prop where
  /-- Copying without a bound on the steps comes to an end, with this. -/
  ends : ∀ q, Recorded (m.Copied []) v q ↔ q = p
  /-- Something is printed just for what is there and lies in no array twice. -/
  places : ∀ route, (p.item? route).isSome
    ↔ ∃ above w, m.occurrence? [] v route = some (above, w) ∧ above.Nodup
  /-- In place of an array there is the empty text exactly if the array is one of those that it lies in. -/
  cut : ∀ {route above id}, m.occurrence? [] v route = some (above, .array id) → above.Nodup →
    (p.item? route = some (.text "") ↔ id ∈ above)
  /-- Any other array is printed with all its elements, -/
  whole : ∀ {route above id}, m.occurrence? [] v route = some (above, .array id) → above.Nodup → id ∉ above →
    ∃ items, p.item? route = some (.array items) ∧ items.length = (m.items id).size
  /-- and as it is on its own if none of the arrays that it lies in can be reached from it. -/
  shared : ∀ {route above id}, m.occurrence? [] v route = some (above, .array id) → above.Nodup →
    (∀ a ∈ above, ¬ m.Leads (.array id) a) → p.item? route = some (m.printed (.array id))
  /-- Without a cycle it is the plain copy. -/
  deep : ¬ m.Cyclic v → ∀ q, Recorded m.Deep v q ↔ q = p

/-- What is printed where an array is. -/
theorem item?_printed {route above : List Nat} {id : Nat} (h : m.occurrence? [] v route = some (above, .array id))
    (hnodup : above.Nodup) : ∃ q, (m.printed v).item? route = some q ∧ m.Copied above (.array id) q := by
  have hitem := (item?_of_copied (copied_copy (onPath_nil m.arrays) v) List.nodup_nil h).1 hnodup
  cases v with
  | bool b => cases route <;> cases h
  | _ => exact hitem

theorem isSome_item?_printed_iff (m : Machine) (v : Value) (route : List Nat) :
    ((m.printed v).item? route).isSome ↔ ∃ above w, m.occurrence? [] v route = some (above, w) ∧ above.Nodup := by
  have hcopy := copied_copy (onPath_nil m.arrays) v
  have hiff : ((Printed.copy m.arrays (m.arrays.size + 1) [] v).item? route).isSome
      ↔ ∃ above w, m.occurrence? [] v route = some (above, w) ∧ above.Nodup := by
    rw [Option.isSome_iff_exists]
    constructor
    · rintro ⟨q, hq⟩
      obtain ⟨above, w, hw⟩ := exists_occurrence?_of_item? hcopy hq
      refine ⟨above, w, hw, ?_⟩
      by_contra hnodup
      rw [(item?_of_copied hcopy List.nodup_nil hw).2 hnodup] at hq
      cases hq
    · rintro ⟨above, w, hw, hnodup⟩
      obtain ⟨q, hq, -⟩ := (item?_of_copied hcopy List.nodup_nil hw).1 hnodup
      exact ⟨q, hq⟩
  cases v with
  | bool b => cases route <;> exact hiff
  | _ => exact hiff

/-- Printing any value, whatever the arrays hold, comes to an end, leaves the state as it is but for the output, and
cuts off the arrays that lie in themselves and nothing else. -/
theorem Machine.print_snapshot (m : Machine) (v : Value) :
    m.Snapshot v (m.printed v) ∧ m.print v = { m with output := m.output.push (m.printed v) } := by
  refine ⟨{ ends := fun q => recorded_iff (copied_iff v)
            places := isSome_item?_printed_iff m v
            cut := fun h hnodup => ?_
            whole := fun h hnodup hid => ?_
            shared := fun h hnodup haway => ?_
            deep := fun hcyclic q => recorded_iff fun q => ?_ }, rfl⟩
  · obtain ⟨q, hq, hcopy⟩ := item?_printed h hnodup
    rw [hq]
    cases hcopy with
    | stop hid => exact iff_of_true rfl hid
    | array hid => exact iff_of_false (fun heq => nomatch heq) hid
  · obtain ⟨q, hq, hcopy⟩ := item?_printed h hnodup
    cases hcopy with
    | stop hstop => exact absurd hstop hid
    | @array _ _ items _ hlength => exact ⟨items, hq, hlength⟩
  · obtain ⟨q, hq, hcopy⟩ := item?_printed h hnodup
    have halone : m.Copied [] (.array _) q :=
      hcopy.of_path fun a ha => iff_of_false (fun hmem => haway a hmem ha) List.not_mem_nil
    rw [hq, (copied_iff _ q).1 halone]
    rfl
  · rw [deep_iff, and_iff_right hcyclic]

/-- An array with the same array twice, and itself: the shared one is there both times, and only the other one is
missing. -/
theorem Machine.print_snapshot_of_shared :
    let m : Machine := ⟨[], [], #[#[.array 1, .array 1, .array 0], #[.text "a"]], 0, #[]⟩
    (m.printed (.array 0)).item? [0] = some (m.printed (.array 1))
      ∧ (m.printed (.array 0)).item? [1] = some (m.printed (.array 1))
      ∧ (m.printed (.array 0)).item? [2] = some (.text "") := by
  intro m
  obtain ⟨h, -⟩ := m.print_snapshot (.array 0)
  have haway : ∀ a ∈ [0], ¬ m.Leads (.array 1) a := by
    rintro a ha ⟨root, hroot, hreach⟩
    cases hroot
    obtain rfl := List.mem_singleton.1 ha
    rcases hreach.cases_head with heq | ⟨j, ⟨k, hk⟩, -⟩
    · cases heq
    · rcases k with _ | k <;> cases hk
  exact ⟨h.shared rfl (by decide) haway, h.shared rfl (by decide) haway, (h.cut rfl (by decide)).2 (by decide)⟩

end PolishPseudocode
