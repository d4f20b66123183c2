import PolishPseudocode.Proofs.Evaluation.Invariance

/-! The variables given from outside. Each one is stored in arrays of its own, behind those of the variables before
it. So with another order of the variables, or with one more, only the identities of their arrays are different, and
no program can tell. -/

namespace PolishPseudocode

mutual

/-- The number of arrays that a value given from outside is stored in. -/
def Datum.count : Datum → Nat
  | .array items => countAll items + 1
  | .number _ | .text _ | .bool _ => 0

def Datum.countAll : List Datum → Nat
  | [] => 0
  | item :: items => item.count + countAll items

end

namespace Machine

/-! ### Storing -/

/-- A state with new arrays behind those of another one. -/
structure Stores (m m' : Machine) (count : Nat) : Prop where
  size : m'.arrays.size = m.arrays.size + count
  items : ∀ i < m.arrays.size, m'.items i = m.items i
  top : m'.top = m.top
  callers : m'.callers = m.callers
  functions : m'.functions = m.functions
  output : m'.output = m.output

theorem Stores.refl (m : Machine) : m.Stores m 0 :=
  ⟨rfl, fun _ _ => rfl, rfl, rfl, rfl, rfl⟩

theorem Stores.trans {m m' m'' : Machine} {count count' : Nat} (h : m.Stores m' count) (h' : m'.Stores m'' count') :
    m.Stores m'' (count + count') where
  size := by rw [h'.size, h.size, Nat.add_assoc]
  items i hi := by rw [h'.items i (by rw [h.size]; omega), h.items i hi]
  top := h'.top.trans h.top
  callers := h'.callers.trans h.callers
  functions := h'.functions.trans h.functions
  output := h'.output.trans h.output

theorem stores_newArray (m : Machine) (items : Array Value) : m.Stores (m.newArray items).2 1 where
  size := Array.size_push items
  items i hi := by rw [items_newArray, if_neg (Nat.ne_of_lt hi)]
  top := rfl
  callers := rfl
  functions := rfl
  output := rfl

mutual

theorem stores_store (m : Machine) (datum : Datum) : m.Stores (m.store datum).2 datum.count := by
  cases datum with
  | number x => exact .refl m
  | text s => exact .refl m
  | bool b => exact .refl m
  | array items =>
      rw [store, Datum.count]
      exact (stores_storeAll m items).trans (stores_newArray _ _)

theorem stores_storeAll (m : Machine) (items : List Datum) :
    m.Stores (m.storeAll items).2 (Datum.countAll items) := by
  cases items with
  | nil => exact .refl m
  | cons item items =>
      rw [storeAll, Datum.countAll]
      exact (stores_store m item).trans (stores_storeAll _ items)

end

/-- The first arrays behind those that are there are paired, in order. -/
def Lead (p : Pairing) (m m' : Machine) (count : Nat) : Prop :=
  ∀ k < count, p.arrays (m.arrays.size + k) (m'.arrays.size + k)

/-- The arrays that two states have in addition to others have alike elements, in order. -/
def NewAlike (p : Pairing) (m m' after after' : Machine) (count : Nat) : Prop :=
  ∀ k < count, List.Forall₂ (Value.Alike p) (after.items (m.arrays.size + k)).toList
    (after'.items (m'.arrays.size + k)).toList

theorem NewAlike.trans {p : Pairing} {m m' middle middle' after after' : Machine} {count count' : Nat}
    (h : NewAlike p m m' middle middle' count) (hm : m.Stores middle count) (hm' : m'.Stores middle' count)
    (hafter : ∀ i < middle.arrays.size, after.items i = middle.items i)
    (hafter' : ∀ i < middle'.arrays.size, after'.items i = middle'.items i)
    (h' : NewAlike p middle middle' after after' count') :
    NewAlike p m m' after after' (count + count') := by
  intro k hk
  by_cases hlt : k < count
  · rw [hafter _ (by rw [hm.size]; omega), hafter' _ (by rw [hm'.size]; omega)]
    exact h k hlt
  · obtain ⟨k, rfl⟩ := Nat.exists_eq_add_of_le (Nat.le_of_not_lt hlt)
    have hitems := h' k (by omega)
    rw [hm.size, hm'.size, Nat.add_assoc, Nat.add_assoc] at hitems
    exact hitems

mutual

/-- A value is stored in any two states in the same way. -/
theorem store_alike {p : Pairing} {m m' : Machine} (datum : Datum) (h : Lead p m m' datum.count) :
    Value.Alike p (m.store datum).1 (m'.store datum).1
      ∧ NewAlike p m m' (m.store datum).2 (m'.store datum).2 datum.count := by
  cases datum with
  | number x => exact ⟨.number x, fun k hk => absurd hk (Nat.not_lt_zero k)⟩
  | text s => exact ⟨.text s, fun k hk => absurd hk (Nat.not_lt_zero k)⟩
  | bool b => exact ⟨.bool b, fun k hk => absurd hk (Nat.not_lt_zero k)⟩
  | array items =>
      rw [Datum.count] at h ⊢
      have hstored := stores_storeAll m items
      have hstored' := stores_storeAll m' items
      obtain ⟨hvalues, hnew⟩ := storeAll_alike items fun k hk => h k (Nat.lt_succ_of_lt hk)
      have hlast := h (Datum.countAll items) (Nat.lt_succ_self _)
      rw [← hstored.size, ← hstored'.size] at hlast
      refine ⟨.array hlast, hnew.trans hstored hstored' (stores_newArray _ _).items (stores_newArray _ _).items ?_⟩
      intro k hk
      cases Nat.lt_one_iff.1 hk
      rw [store, store, items_newArray, items_newArray, if_pos (Nat.add_zero _), if_pos (Nat.add_zero _)]
      exact hvalues

theorem storeAll_alike {p : Pairing} {m m' : Machine} (items : List Datum) (h : Lead p m m' (Datum.countAll items)) :
    List.Forall₂ (Value.Alike p) (m.storeAll items).1 (m'.storeAll items).1
      ∧ NewAlike p m m' (m.storeAll items).2 (m'.storeAll items).2 (Datum.countAll items) := by
  cases items with
  | nil => exact ⟨.nil, fun k hk => absurd hk (Nat.not_lt_zero k)⟩
  | cons item items =>
      rw [Datum.countAll] at h ⊢
      have hstored := stores_store m item
      have hstored' := stores_store m' item
      obtain ⟨hvalue, hnew⟩ := store_alike item fun k hk => h k (Nat.lt_add_right _ hk)
      have hlead : Lead p (m.store item).2 (m'.store item).2 (Datum.countAll items) := by
        intro k hk
        rw [hstored.size, hstored'.size, Nat.add_assoc, Nat.add_assoc]
        exact h _ (Nat.add_lt_add_left hk _)
      obtain ⟨hvalues, hothers⟩ := storeAll_alike items hlead
      exact ⟨.cons hvalue hvalues, hnew.trans hstored hstored' (stores_storeAll _ items).items
        (stores_storeAll _ items).items hothers⟩

end

/-! ### Binding -/

/-- Stores a value given from outside and binds it to a variable. -/
def bind (m : Machine) (binding : String × Datum) : Machine :=
  (m.store binding.2).2.define binding.1 (m.store binding.2).1

theorem size_bind (m : Machine) (binding : String × Datum) :
    (m.bind binding).arrays.size = m.arrays.size + binding.2.count :=
  (stores_store m binding.2).size

theorem items_bind (m : Machine) (binding : String × Datum) {i : Nat} (hi : i < m.arrays.size) :
    (m.bind binding).items i = m.items i :=
  (stores_store m binding.2).items i hi

theorem top_bind (m : Machine) (binding : String × Datum) :
    (m.bind binding).top = m.top.set binding.1 (m.store binding.2).1 :=
  congrArg (·.set binding.1 (m.store binding.2).1) (stores_store m binding.2).top

theorem callers_bind (m : Machine) (binding : String × Datum) : (m.bind binding).callers = m.callers :=
  (stores_store m binding.2).callers

theorem functions_bind (m : Machine) (binding : String × Datum) : (m.bind binding).functions = m.functions :=
  (stores_store m binding.2).functions

theorem output_bind (m : Machine) (binding : String × Datum) : (m.bind binding).output = m.output :=
  (stores_store m binding.2).output

/-- Binding a variable in alike states leaves them alike if its arrays are paired. -/
theorem Alike.bind {p : Pairing} {m m' : Machine} (h : Alike p m m') (binding : String × Datum)
    (hnew : Lead p m m' binding.2.count)
    (hold : ∀ {i j}, p.arrays i j → (i < m.arrays.size ↔ j < m'.arrays.size)) :
    Alike p (m.bind binding) (m'.bind binding) := by
  obtain ⟨hvalue, hitems⟩ := store_alike binding.2 hnew
  obtain ⟨htop, hcallers⟩ := List.forall₂_cons.1 h.frames
  refine ⟨?_, fun {i j} hij => ?_, ?_⟩
  · rw [Machine.frames, Machine.frames, top_bind, top_bind, callers_bind, callers_bind]
    exact .cons (htop.set hvalue binding.1) hcallers
  · by_cases hi : i < m.arrays.size
    · rw [items_bind m binding hi, items_bind m' binding ((hold hij).1 hi)]
      exact h.items hij
    · -- Behind the old arrays, those of the variable are paired in order and there are no others.
      have hj : ¬ j < m'.arrays.size := fun hj => hi ((hold hij).2 hj)
      obtain ⟨k, rfl⟩ := Nat.exists_eq_add_of_le (Nat.le_of_not_lt hi)
      obtain ⟨k', rfl⟩ := Nat.exists_eq_add_of_le (Nat.le_of_not_lt hj)
      have hsame (hk : k < binding.2.count ∨ k' < binding.2.count) : k = k' := by
        rcases hk with hk | hk
        · have := (Relator.rel_eq p.arrays_unique (hnew k hk) hij).1 rfl
          omega
        · have := (Relator.rel_eq p.arrays_unique (hnew k' hk) hij).2 rfl
          omega
      by_cases hk : k < binding.2.count
      · rw [← hsame (.inl hk)]
        exact hitems k hk
      · have hk' : ¬ k' < binding.2.count := fun hk' => hk (hsame (.inr hk') ▸ hk')
        rw [items_of_le (by rw [size_bind]; omega), items_of_le (by rw [size_bind]; omega)]
        exact .nil
  · rw [output_bind, output_bind, h.output]

theorem Parallel.bind {p : Pairing} {m m' : Machine} (h : Parallel p m m') (binding : String × Datum) :
    Parallel p (m.bind binding) (m'.bind binding) where
  toAlike := h.toAlike.bind binding (fun k _ => h.nextArray k) h.lt_iff
  nextArray k := by
    rw [size_bind, size_bind, Nat.add_assoc, Nat.add_assoc]
    exact h.nextArray _
  nextFunction k := by
    rw [functions_bind, functions_bind]
    exact h.nextFunction k

/-- The states before a program are parallel if they are before the last variables and the functions of the
language. -/
theorem Parallel.bindAll {p : Pairing} {m m' : Machine} (h : Parallel p m m') (bindings : List (String × Datum)) :
    Parallel p (bindings.foldl Machine.bind m) (bindings.foldl Machine.bind m') := by
  induction bindings generalizing m m' with
  | nil => exact h
  | cons binding bindings ih => exact ih (h.bind binding)

theorem Parallel.builtins {p : Pairing} {m m' : Machine} (h : Parallel p m m') (fs : List Builtin) :
    Parallel p (fs.foldl (fun m f => m.define f.name (.builtin f)) m)
      (fs.foldl (fun m f => m.define f.name (.builtin f)) m') := by
  induction fs generalizing m m' with
  | nil => exact h
  | cons f fs ih => exact ih (h.define (.builtin f) f.name)

/-! ### States without references to what is not there -/

/-- A state that is alike to itself under every pairing that pairs each of its arrays with itself. -/
def Whole (m : Machine) : Prop :=
  ∀ p : Pairing, (∀ i < m.arrays.size, p.arrays i i) → m.Alike p m

theorem whole_empty : empty.Whole := by
  intro p _
  refine ⟨.cons (fun _ _ => .none) .nil, fun _ => ?_, rfl⟩
  rw [items_of_le (Nat.zero_le _), items_of_le (Nat.zero_le _)]
  exact .nil

theorem Whole.bind {m : Machine} (h : m.Whole) (binding : String × Datum) : (m.bind binding).Whole := by
  intro p hp
  rw [size_bind] at hp
  have hold {i j : Nat} (hij : p.arrays i j) : i < m.arrays.size ↔ j < m.arrays.size := by
    constructor
    · intro hi
      rw [← (Relator.rel_eq p.arrays_unique (hp i (by omega)) hij).1 rfl]
      exact hi
    · intro hj
      rw [← (Relator.rel_eq p.arrays_unique (hp j (by omega)) hij).2 rfl]
      exact hj
  exact (h p fun i hi => hp i (by omega)).bind binding (fun k hk => hp _ (by omega)) hold

theorem Whole.bindAll {m : Machine} (h : m.Whole) (bindings : List (String × Datum)) :
    (bindings.foldl Machine.bind m).Whole := by
  induction bindings generalizing m with
  | nil => exact h
  | cons binding bindings ih => exact ih (h.bind binding)

end Machine

/-! ### Another order -/

/-- Behind the first `n` arrays there are `a` of one variable and then `b` of another one, or the other way round. -/
def Pairing.swapped (n a b : Nat) : Pairing where
  arrays i j :=
    (i < n ∧ j = i) ∨ (∃ k < a, i = n + k ∧ j = n + b + k) ∨ (∃ k < b, i = n + a + k ∧ j = n + k)
      ∨ n + a + b ≤ i ∧ j = i
  functions i j := j = i
  names _ := True
  arrays_unique := by
    constructor
    · rintro i j i' (h | ⟨k, h⟩ | ⟨k, h⟩ | h) (h' | ⟨k', h'⟩ | ⟨k', h'⟩ | h') <;> omega
    · rintro i j j' (h | ⟨k, h⟩ | ⟨k, h⟩ | h) (h' | ⟨k', h'⟩ | ⟨k', h'⟩ | h') <;> omega
  functions_unique := by
    constructor
    · rintro i j i' rfl rfl
      rfl
    · rintro i j j' rfl rfl
      rfl

theorem Pairing.swapped_symm {n a b i j : Nat} (h : (swapped n a b).arrays i j) : (swapped n b a).arrays j i := by
  rcases h with ⟨hi, rfl⟩ | ⟨k, hk, hi, hj⟩ | ⟨k, hk, hi, hj⟩ | ⟨hi, rfl⟩
  · exact .inl ⟨hi, rfl⟩
  · exact .inr (.inr (.inl ⟨k, hk, hj, hi⟩))
  · exact .inr (.inl ⟨k, hk, hj, hi⟩)
  · exact .inr (.inr (.inr ⟨by omega, rfl⟩))

theorem Pairing.swapped_total (n a b i : Nat) : ∃ j, (swapped n a b).arrays i j := by
  by_cases hn : i < n
  · exact ⟨i, .inl ⟨hn, rfl⟩⟩
  by_cases ha : i < n + a
  · exact ⟨n + b + (i - n), .inr (.inl ⟨i - n, by omega, by omega, rfl⟩)⟩
  by_cases hb : i < n + a + b
  · exact ⟨n + (i - (n + a)), .inr (.inr (.inl ⟨i - (n + a), by omega, by omega, rfl⟩))⟩
  · exact ⟨i, .inr (.inr (.inr ⟨Nat.le_of_not_lt hb, rfl⟩))⟩

theorem Pairing.swapped_exhausts (n a b : Nat) (m m' : Machine) : (swapped n a b).Exhausts m m' where
  arrays i _ := swapped_total n a b i
  arrays' j _ := by
    obtain ⟨i, hij⟩ := swapped_total n b a j
    exact ⟨i, swapped_symm hij⟩
  functions i _ := ⟨i, rfl⟩
  functions' j _ := ⟨j, rfl⟩

/-- Two variables may be set in any order. -/
theorem Frame.Alike.set_comm {p : Pairing} {frame frame' : Frame} (h : Frame.Alike p frame frame')
    {v v' w w' : Value} (hv : Value.Alike p v v') (hw : Value.Alike p w w') {name other : String}
    (hne : name ≠ other) :
    Frame.Alike p ((frame.set name v).set other w) ((frame'.set other w').set name v') := by
  intro x hx
  rw [Frame.get?_set, Frame.get?_set, Frame.get?_set, Frame.get?_set]
  by_cases hother : x = other
  · rw [if_pos hother, if_neg (by rw [hother]; exact hne.symm), if_pos hother]
    exact .some hw
  · rw [if_neg hother]
    by_cases hname : x = name
    · rw [if_pos hname, if_pos hname]
      exact .some hv
    · rw [if_neg hname, if_neg hname, if_neg hother]
      exact h x hx

namespace Machine

theorem Whole.swap {m : Machine} (h : m.Whole) {x y : String × Datum} (hne : x.1 ≠ y.1) :
    Parallel (.swapped m.arrays.size x.2.count y.2.count) ((m.bind x).bind y) ((m.bind y).bind x) := by
  have hm := h (.swapped m.arrays.size x.2.count y.2.count) fun i hi => .inl ⟨hi, rfl⟩
  obtain ⟨htop, hcallers⟩ := List.forall₂_cons.1 hm.frames
  have hx : Lead (.swapped m.arrays.size x.2.count y.2.count) m (m.bind y) x.2.count := by
    intro k hk
    rw [size_bind]
    exact .inr (.inl ⟨k, hk, rfl, rfl⟩)
  have hy : Lead (.swapped m.arrays.size x.2.count y.2.count) (m.bind x) m y.2.count := by
    intro k hk
    rw [size_bind]
    exact .inr (.inr (.inl ⟨k, hk, rfl, rfl⟩))
  obtain ⟨hvx, hnewx⟩ := store_alike x.2 hx
  obtain ⟨hvy, hnewy⟩ := store_alike y.2 hy
  have hsize : ((m.bind x).bind y).arrays.size = m.arrays.size + x.2.count + y.2.count := by
    rw [size_bind, size_bind]
  have hsize' : ((m.bind y).bind x).arrays.size = m.arrays.size + x.2.count + y.2.count := by
    rw [size_bind, size_bind]
    omega
  refine ⟨⟨?_, ?_, ?_⟩, ?_, ?_⟩
  · rw [frames, frames, top_bind, top_bind, top_bind, top_bind, callers_bind, callers_bind, callers_bind, callers_bind]
    exact .cons (htop.set_comm hvx hvy hne) hcallers
  · rintro i j (⟨hi, rfl⟩ | ⟨k, hk, rfl, rfl⟩ | ⟨k, hk, rfl, rfl⟩ | ⟨hi, rfl⟩)
    · rw [items_bind _ y (by rw [size_bind]; omega), items_bind m x hi, items_bind _ x (by rw [size_bind]; omega),
        items_bind m y hi]
      exact hm.items (.inl ⟨hi, rfl⟩)
    · have hitems := hnewx k hk
      rw [size_bind] at hitems
      rw [items_bind _ y (by rw [size_bind]; omega)]
      exact hitems
    · have hitems := hnewy k hk
      rw [size_bind] at hitems
      rw [items_bind (m.bind y) x (by rw [size_bind]; omega)]
      exact hitems
    · rw [items_of_le (by omega), items_of_le (by omega)]
      exact .nil
  · rw [output_bind, output_bind, output_bind, output_bind]
  · intro k
    rw [hsize, hsize']
    exact .inr (.inr (.inr ⟨by omega, rfl⟩))
  · intro k
    rw [functions_bind, functions_bind, functions_bind, functions_bind]
    rfl

end Machine

/-! ### One variable more -/

/-- In front of the arrays from the `n`-th on, there are `a` arrays of the variable `name`, which is not shared. -/
def Pairing.skipping (n a : Nat) (name : String) : Pairing where
  arrays i j := (i < n ∧ j = i) ∨ ∃ k, i = n + a + k ∧ j = n + k
  functions i j := j = i
  names other := other ≠ name
  arrays_unique := by
    constructor
    · rintro i j i' (h | ⟨k, h⟩) (h' | ⟨k', h'⟩) <;> omega
    · rintro i j j' (h | ⟨k, h⟩) (h' | ⟨k', h'⟩) <;> omega
  functions_unique := by
    constructor
    · rintro i j i' rfl rfl
      rfl
    · rintro i j j' rfl rfl
      rfl

theorem Machine.Whole.skip {m : Machine} (h : m.Whole) (binding : String × Datum) :
    Parallel (.skipping m.arrays.size binding.2.count binding.1) (m.bind binding) m := by
  have hm := h (.skipping m.arrays.size binding.2.count binding.1) fun i hi => .inl ⟨hi, rfl⟩
  obtain ⟨htop, hcallers⟩ := List.forall₂_cons.1 hm.frames
  refine ⟨⟨?_, ?_, ?_⟩, ?_, ?_⟩
  · rw [frames, frames, top_bind, callers_bind]
    exact .cons (htop.set_left (fun hname => hname rfl) _) hcallers
  · rintro i j (⟨hi, rfl⟩ | ⟨k, rfl, rfl⟩)
    · rw [items_bind m binding hi]
      exact hm.items (.inl ⟨hi, rfl⟩)
    · rw [items_of_le (by rw [size_bind]; omega), items_of_le (Nat.le_add_right _ _)]
      exact .nil
  · rw [output_bind]
  · intro k
    rw [size_bind]
    exact .inr ⟨k, rfl, rfl⟩
  · intro k
    rw [functions_bind]
    rfl

/-! ### Results -/

/-- The result of a program from a state in which some variables are still to be bound. -/
def Program.resultFrom (o : Origins) (fuel : Nat) (program : Program) (m : Machine)
    (bindings : List (String × Datum)) : Option (Except Failure (List Printed)) :=
  (execProgram o fuel program
    (Builtin.all.foldl (fun m f => m.define f.name (.builtin f)) (bindings.foldl Machine.bind m))).result?

theorem Program.run?_eq_resultFrom (o : Origins) (fuel : Nat) (program : Program) (bindings : List (String × Datum)) :
    program.run? o fuel bindings = program.resultFrom o fuel .empty bindings := rfl

theorem Program.resultFrom_append (o : Origins) (fuel : Nat) (program : Program) (m : Machine)
    (bindings bindings' : List (String × Datum)) :
    program.resultFrom o fuel m (bindings ++ bindings')
      = program.resultFrom o fuel (bindings.foldl Machine.bind m) bindings' := by
  rw [resultFrom, List.foldl_append]
  rfl

section

variable (o : Origins) (fuel : Nat)

theorem Machine.Parallel.resultFrom_eq {p : Pairing} {m m' : Machine} (h : m.Parallel p m') {program : Program}
    (hprogram : p.Shares (Statement.marksAll program)) (bindings : List (String × Datum)) :
    program.resultFrom o fuel m bindings = program.resultFrom o fuel m' bindings :=
  result?_execProgram_eq o fuel hprogram ((h.bindAll bindings).builtins Builtin.all)

/-- The order of the variables does not matter. -/
theorem resultFrom_perm (program : Program) {bindings bindings' : List (String × Datum)}
    (h : bindings.Perm bindings') (hnames : (bindings.map Prod.fst).Nodup) {m : Machine} (hm : m.Whole) :
    program.resultFrom o fuel m bindings = program.resultFrom o fuel m bindings' := by
  induction h generalizing m with
  | nil => rfl
  | cons binding h ih => exact ih (List.nodup_cons.1 hnames).2 (hm.bind binding)
  | swap x y bindings =>
      have hne : y.1 ≠ x.1 := by
        intro heq
        exact (List.nodup_cons.1 hnames).1 (heq ▸ List.mem_cons_self)
      exact (hm.swap hne).resultFrom_eq o fuel (fun _ _ _ _ => trivial) bindings
  | trans h h' ih ih' => exact (ih hnames hm).trans (ih' ((h.map Prod.fst).nodup_iff.1 hnames) hm)

/-- One variable more does not matter to a program in which its name is not. -/
theorem resultFrom_cons {program : Program} {binding : String × Datum}
    (h : ∀ t ∈ Statement.marksAll program, t.kind ≠ .identifier binding.1) {m : Machine} (hm : m.Whole)
    (bindings : List (String × Datum)) :
    program.resultFrom o fuel m (binding :: bindings) = program.resultFrom o fuel m bindings := by
  refine (hm.skip binding).resultFrom_eq o fuel ?_ bindings
  rintro t ht name hname rfl
  exact h t ht hname

end

/-- The identities of arrays and functions do not matter, nor does the order of the variables given from outside. In
two states that correspond under a pairing, a statement whose names are all shared ends with the same fuel or in
neither, with results that differ in identities only or with the same error, and the states correspond again; a
pairing that was a bijection is still one. So a program has one result for all orders of its variables, if no two
have one name, and an additional variable whose name is not in the program changes nothing. -/
theorem exec_corresponds (o : Origins) (fuel : Nat) :
    (∀ (p : Pairing) (m m' : Machine) (s : Statement), p.Shares s.marks → ∀ h : m.Corresponds p m',
      (exec o fuel s m).Matches
        (fun after after' => after.Corresponds h.onward after' ∧ (p.Exhausts m m' → h.onward.Exhausts after after'))
        (Flow.Alike h.onward) (exec o fuel s m'))
    ∧ (∀ (program : Program) (bindings bindings' : List (String × Datum)), (bindings.map Prod.fst).Nodup →
      bindings.Perm bindings' → program.run? o fuel bindings = program.run? o fuel bindings')
    ∧ ∀ (program : Program) (before after : List (String × Datum)) (name : String) (datum : Datum),
      (∀ t ∈ Statement.marksAll program, t.kind ≠ .identifier name) →
        program.run? o fuel (before ++ (name, datum) :: after) = program.run? o fuel (before ++ after) := by
  refine ⟨fun p m m' s hs h => exec_matches o fuel hs h, ?_, ?_⟩
  · intro program bindings bindings' hnames hperm
    exact resultFrom_perm o fuel program hperm hnames Machine.whole_empty
  · intro program before after name datum hname
    rw [Program.run?_eq_resultFrom, Program.run?_eq_resultFrom, Program.resultFrom_append, Program.resultFrom_append]
    exact resultFrom_cons o fuel hname (Machine.whole_empty.bindAll before) after

/-- Two variables with arrays of their own, bound in both orders, and a third one between them. -/
theorem exec_corresponds_swapped :
    let x : String × Datum := ("x", .array [.bool true])
    let y : String × Datum := ("y", .array [.array [.text "a"], .bool false])
    let z : String × Datum := ("z", .array [])
    let m := (Machine.empty.bind x).bind y
    let m' := (Machine.empty.bind y).bind x
    let s : Statement := .print (.var ⟨"y", ⟨0, 7⟩⟩) ⟨0, 0⟩
    m.arrays.size = 3 ∧ m'.arrays.size = 3
    ∧ (∃ h : m.Corresponds (.swapped 0 1 2) m', (exec .one 2 s m).Matches
      (fun after after' => after.Corresponds h.onward after' ∧ h.onward.Exhausts after after')
      (Flow.Alike h.onward) (exec .one 2 s m'))
    ∧ Program.run? .one 2 [x, y] [s] = Program.run? .one 2 [y, x] [s]
    ∧ Program.run? .one 2 [x, z, y] [s] = Program.run? .one 2 [x, y] [s] := by
  intro x y z m m' s
  have hne : x.1 ≠ y.1 := by decide
  have h : m.Corresponds (.swapped 0 1 2) m' := (Machine.whole_empty.swap hne).corresponds
  have hnames : ([x, y].map Prod.fst).Nodup := by decide
  have hshares : (Pairing.swapped 0 1 2).Shares s.marks := fun _ _ _ _ => trivial
  have hfree : ∀ t ∈ Statement.marksAll [s], t.kind ≠ .identifier "z" := by decide
  obtain ⟨hexec, hperm, hmore⟩ := exec_corresponds .one 2
  have hexhausts := Pairing.swapped_exhausts 0 1 2 m m'
  have hmatches := hexec _ m m' s hshares h
  exact ⟨rfl, rfl, ⟨h, hmatches.imp fun _ _ hafter => ⟨hafter.1, hafter.2 hexhausts⟩⟩,
    hperm [s] [x, y] [y, x] hnames (List.Perm.swap y x []), hmore [s] [x] [y] "z" (.array []) hfree⟩

end PolishPseudocode
