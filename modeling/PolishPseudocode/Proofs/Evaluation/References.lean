import PolishPseudocode.Proofs.Evaluation.Cells
import PolishPseudocode.Proofs.Evaluation.Termination

/-! No reference is left hanging. All arrays that the variables and the elements of a state refer to are there, before
a program and in every state that a run of it comes to: arrays are only ever added, and a value that refers to one
comes from a variable, from an element, or from the array that was just made. -/

namespace PolishPseudocode

/-- If a value refers to an array, it is one of the first so many. -/
def Value.Refers (size : Nat) : Value → Prop
  | number _ | text _ | bool _ | builtin _ | function _ => True
  | array id => id < size

namespace Value.Refers

variable {size size' : Nat} {value : Value}

theorem mono (hle : size ≤ size') (h : value.Refers size) : value.Refers size' := by
  cases value with
  | array id => exact Nat.lt_of_lt_of_le h hle
  | _ => trivial

theorem of_isScalar (h : value.isScalar = true) : value.Refers size := by
  cases value with
  | array id => cases h
  | _ => trivial

end Value.Refers

/-- All arrays that the values of a state refer to are there. -/
def Machine.Closed (m : Machine) : Prop :=
  m.All (Value.Refers m.arrays.size)

theorem Machine.All.imp {property property' : Value → Prop} {m : Machine} (h : m.All property)
    (himp : ∀ value, property value → property' value) : m.All property' :=
  ⟨fun frame hframe entry hentry => himp entry.2 (h.frames frame hframe entry hentry),
    fun id value hvalue => himp value (h.items id value hvalue)⟩

/-! ### Changes of the state -/

theorem Machine.arrays_assign (m : Machine) (name : String) (value : Value) :
    (m.assign name value).arrays = m.arrays := by
  obtain ⟨top, callers, h⟩ := m.assign_eq name value
  rw [h]

theorem Machine.arrays_pop (m : Machine) : m.pop.arrays = m.arrays := by
  rw [pop]
  split <;> rfl

theorem Machine.size_arrays_setItem (m : Machine) (id slot : Nat) (value : Value) :
    (m.setItem id slot value).arrays.size = m.arrays.size :=
  Array.size_modify

namespace Machine.Closed

variable {m : Machine} {value : Value}

theorem lookup (h : m.Closed) {name : String} (hvalue : m.lookup name = some value) : value.Refers m.arrays.size :=
  All.lookup h hvalue

theorem define (h : m.Closed) (hvalue : value.Refers m.arrays.size) (name : String) : (m.define name value).Closed :=
  All.define h hvalue name

theorem assign (h : m.Closed) (hvalue : value.Refers m.arrays.size) (name : String) :
    (m.assign name value).Closed := by
  rw [Closed, arrays_assign]
  exact All.assign h hvalue name

theorem push (h : m.Closed) {frame : Frame} (hframe : Frame.All (Value.Refers m.arrays.size) frame) :
    (m.push frame).Closed :=
  All.push h hframe

theorem pop (h : m.Closed) : m.pop.Closed := by
  rw [Closed, arrays_pop]
  exact All.pop h

theorem newFunction (h : m.Closed) (parameters : List String) (body : Block) :
    (m.newFunction parameters body).2.Closed :=
  All.newFunction h parameters body

theorem print (h : m.Closed) (value : Value) : (m.print value).Closed :=
  All.print h value

theorem setItem (h : m.Closed) (hvalue : value.Refers m.arrays.size) (id slot : Nat) :
    (m.setItem id slot value).Closed := by
  rw [Closed, size_arrays_setItem]
  exact All.setItem h hvalue id slot

/-- A new array is one more than there were. -/
theorem newArray (h : m.Closed) {items : Array Value} (hitems : ∀ value ∈ items, value.Refers m.arrays.size) :
    m.arrays.size ≤ (m.newArray items).2.arrays.size ∧ (m.newArray items).2.Closed
      ∧ (m.newArray items).1.Refers (m.newArray items).2.arrays.size := by
  have hsize : (m.newArray items).2.arrays.size = m.arrays.size + 1 := Array.size_push _
  have hle : m.arrays.size ≤ (m.newArray items).2.arrays.size := by omega
  refine ⟨hle, ?_, Nat.lt_of_lt_of_eq (Nat.lt_succ_self _) hsize.symm⟩
  exact (h.imp fun value => .mono hle).newArray fun value hvalue => (hitems value hvalue).mono hle

theorem elementOwner (h : m.Closed) (name : String) :
    m.arrays.size ≤ (m.elementOwner name).2.arrays.size ∧ (m.elementOwner name).2.Closed := by
  rw [Machine.elementOwner]
  split
  · exact ⟨le_refl _, h⟩
  · have hempty : ∀ value ∈ (#[] : Array Value), value.Refers m.arrays.size := by simp
    obtain ⟨hle, hclosed, harray⟩ := h.newArray hempty
    exact ⟨hle, hclosed.define harray name⟩

theorem perform (h : m.Closed) {write : Write} (hwrite : write.value.Refers m.arrays.size) :
    m.arrays.size ≤ (m.perform write).arrays.size ∧ (m.perform write).Closed := by
  cases write with
  | item id slot value => exact ⟨(m.size_arrays_setItem id slot value).ge, h.setItem hwrite id slot⟩
  | var name value => exact ⟨(congrArg Array.size (m.arrays_assign name value)).ge, h.assign hwrite name⟩

mutual

theorem store {m : Machine} (h : m.Closed) (datum : Datum) :
    m.arrays.size ≤ (m.store datum).2.arrays.size ∧ (m.store datum).2.Closed
      ∧ (m.store datum).1.Refers (m.store datum).2.arrays.size := by
  cases datum with
  | number x => exact ⟨le_refl _, h, trivial⟩
  | text s => exact ⟨le_refl _, h, trivial⟩
  | bool b => exact ⟨le_refl _, h, trivial⟩
  | array items =>
      obtain ⟨hle, hstored, hvalues⟩ := storeAll h items
      obtain ⟨hle', hclosed, harray⟩ :=
        hstored.newArray fun value hvalue => hvalues value (List.mem_toArray.1 hvalue)
      rw [Machine.store]
      exact ⟨hle.trans hle', hclosed, harray⟩

theorem storeAll {m : Machine} (h : m.Closed) (items : List Datum) :
    m.arrays.size ≤ (m.storeAll items).2.arrays.size ∧ (m.storeAll items).2.Closed
      ∧ ∀ value ∈ (m.storeAll items).1, value.Refers (m.storeAll items).2.arrays.size := by
  cases items with
  | nil => exact ⟨le_refl _, h, List.forall_mem_nil _⟩
  | cons item items =>
      obtain ⟨hle, hstored, hvalue⟩ := store h item
      obtain ⟨hle', hall, hvalues⟩ := storeAll hstored items
      rw [Machine.storeAll]
      exact ⟨hle.trans hle', hall, List.forall_mem_cons.2 ⟨hvalue.mono hle', hvalues⟩⟩

end

/-- What is given from outside brings its arrays along. -/
theorem initial (bindings : List (String × Datum)) : (Machine.initial bindings).Closed := by
  have hempty : Machine.empty.Closed :=
    ⟨by simp [Machine.frames, Machine.empty, Frame.All], by simp [Machine.items, Machine.empty]⟩
  rw [Machine.initial]
  refine List.foldlRecOn _ _ (List.foldlRecOn _ _ hempty fun m hm binding _ => ?_) fun m hm f _ => ?_
  · obtain ⟨-, hstored, hvalue⟩ := hm.store binding.2
    exact hstored.define hvalue binding.1
  · exact hm.define (show (Value.builtin f).Refers m.arrays.size from trivial) f.name

end Machine.Closed

/-! ### Outcomes -/

namespace Outcome

variable {α β : Type}

/-- An evaluation ends with all references in place, those of its value included, and with no fewer arrays than it
started with. -/
def Sound (size : Nat) (gives : Nat → α → Prop) : Outcome α → Prop
  | done value after => size ≤ after.arrays.size ∧ after.Closed ∧ gives after.arrays.size value
  | failed _ after => size ≤ after.arrays.size ∧ after.Closed
  | outOfFuel => True

namespace Sound

variable {size : Nat} {gives : Nat → α → Prop} {gives' : Nat → β → Prop}

theorem mono {size' : Nat} {outcome : Outcome α} (h : outcome.Sound size' gives) (hle : size ≤ size') :
    outcome.Sound size gives := by
  cases outcome with
  | done value after => exact ⟨hle.trans h.1, h.2⟩
  | failed error after => exact ⟨hle.trans h.1, h.2⟩
  | outOfFuel => trivial

theorem andThen {first : Outcome α} {next : α → Machine → Outcome β} (h : first.Sound size gives)
    (hnext : ∀ value m, size ≤ m.arrays.size → m.Closed → gives m.arrays.size value →
      (next value m).Sound m.arrays.size gives') :
    (first.andThen next).Sound size gives' := by
  cases first with
  | done value after => exact (hnext value after h.1 h.2.1 h.2.2).mono h.1
  | failed error after => exact h
  | outOfFuel => trivial

theorem pop {outcome : Outcome α} (h : outcome.Sound size gives) :
    (outcome.mapAfter Machine.pop).Sound size gives := by
  cases outcome with
  | done value after =>
      obtain ⟨hle, hclosed, hvalue⟩ := h
      rw [← after.arrays_pop] at hle hvalue
      exact ⟨hle, hclosed.pop, hvalue⟩
  | failed error after =>
      obtain ⟨hle, hclosed⟩ := h
      rw [← after.arrays_pop] at hle
      exact ⟨hle, hclosed.pop⟩
  | outOfFuel => trivial

theorem ofExcept {m : Machine} {place : Position} {result : Except Fault α} (hm : m.Closed)
    (h : ∀ value, result = .ok value → gives m.arrays.size value) :
    (Outcome.ofExcept m place result).Sound m.arrays.size gives := by
  cases result with
  | error fault => exact ⟨le_refl _, hm⟩
  | ok value => exact ⟨le_refl _, hm, h value rfl⟩

theorem bound {place : Position} {gives : Nat → Value → Prop} {outcome : Outcome Value}
    (h : outcome.Sound size gives) : (outcome.bound place).Sound size fun _ _ => True := by
  refine h.andThen fun value m _ hm _ => ?_
  cases value with
  | number x => exact ⟨le_refl _, hm, trivial⟩
  | _ => exact ⟨le_refl _, hm⟩

/-- What follows an evaluation starts with all references in place. -/
theorem followed {first : Outcome α} {rest : α → Machine → List β} {property : β → Prop} (h : first.Sound size gives)
    (hrest : ∀ value m, m.Closed → gives m.arrays.size value → ∀ x ∈ rest value m, property x) :
    ∀ x ∈ first.followed rest, property x := by
  cases first with
  | done value after => exact hrest value after h.2.1 h.2.2
  | failed error after => exact List.forall_mem_nil _
  | outOfFuel => exact List.forall_mem_nil _

end Sound

end Outcome

def Flow.Refers (size : Nat) (flow : Flow) : Prop :=
  ∀ value ∈ flow.result, value.Refers size

theorem Flow.refers_next (size : Nat) : Flow.Refers size .next := by
  rintro value ⟨⟩

def Task.Yields (size : Nat) : (task : Task) → task.Result → Prop
  | eval _ => Value.Refers size
  | evalAll _ => fun (values : List Value) => ∀ value ∈ values, value.Refers size
  | call _ _ _ => fun (result : Option Value) => ∀ value ∈ result, value.Refers size
  | exec _ | block _ | loop _ _ _ | count _ _ _ _ _ => Flow.Refers size

/-! ### One unit of fuel more -/

/-- All tasks keep all references in place, within some fuel. -/
def SoundWithin (o : Origins) (fuel : Nat) : Prop :=
  ∀ (task : Task) (m : Machine), m.Closed → (task.run o fuel m).Sound m.arrays.size fun size => task.Yields size

namespace SoundWithin

variable {o : Origins} {fuel : Nat} (h : SoundWithin o fuel) {m : Machine} (hm : m.Closed)

include h hm

theorem eval (e : Expr) : (PolishPseudocode.eval o (fuel + 1) e m).Sound m.arrays.size Value.Refers := by
  rw [PolishPseudocode.eval.eq_def]
  cases e with
  | literal value place => exact ⟨le_refl _, hm, .of_isScalar (Value.isScalar_ofLiteral value)⟩
  | var name =>
      dsimp only
      split
      · rename_i value hvalue
        exact ⟨le_refl _, hm, hm.lookup hvalue⟩
      · exact ⟨le_refl _, hm⟩
  | unary op operand place =>
      refine (h (.eval operand) m hm).andThen fun value m _ hm _ => ?_
      exact .ofExcept hm fun _ h => .of_isScalar (UnaryOp.isScalar_of_apply h)
  | binary left op right place =>
      refine (h (.eval left) m hm).andThen fun value m _ hm hvalue => ?_
      split
      · exact ⟨le_refl _, hm, hvalue⟩
      · refine (h (.eval right) m hm).andThen fun value m _ hm _ => ?_
        exact .ofExcept hm fun _ h => .of_isScalar (BinaryOp.isScalar_of_apply h)
  | index target index place =>
      refine (h (.eval index) m hm).andThen fun i m _ hm _ => ?_
      refine (h (.eval target) m hm).andThen fun value m _ hm _ => ?_
      split
      · rename_i found hfound
        exact ⟨le_refl _, hm, Machine.All.element (fun _ => trivial) hm hfound⟩
      · exact ⟨le_refl _, hm⟩
  | call callee arguments place =>
      refine (h (.call callee arguments place) m hm).andThen fun result m _ hm hresult => ?_
      split
      · exact ⟨le_refl _, hm, hresult _ rfl⟩
      · exact ⟨le_refl _, hm⟩

theorem evalAll (es : List Expr) :
    (PolishPseudocode.evalAll o (fuel + 1) es m).Sound m.arrays.size fun size values =>
      ∀ value ∈ values, value.Refers size := by
  cases es with
  | nil => exact ⟨le_refl _, hm, List.forall_mem_nil _⟩
  | cons e rest =>
      rw [PolishPseudocode.evalAll]
      refine (h (.eval e) m hm).andThen fun value m _ hm hvalue => ?_
      refine (h (.evalAll rest) m hm).andThen fun values m' hle hm hvalues => ?_
      exact ⟨le_refl _, hm, List.forall_mem_cons.2 ⟨Value.Refers.mono hle hvalue, hvalues⟩⟩

theorem call (callee : Name) (arguments : List Expr) (place : Position) :
    (PolishPseudocode.call o (fuel + 1) callee arguments place m).Sound m.arrays.size fun size result =>
      ∀ value ∈ result, value.Refers size := by
  rw [PolishPseudocode.call]
  split
  · exact ⟨le_refl _, hm⟩
  · rename_i f hf
    split
    · refine (h (.evalAll arguments) m hm).andThen fun values m _ hm hvalues => ?_
      refine .ofExcept hm fun result hresult => ?_
      cases happly : f.apply m.arrays values with
      | error fault =>
          rw [happly] at hresult
          cases hresult
      | ok value =>
          rw [happly] at hresult
          cases hresult
          rintro _ ⟨⟩
          exact .of_isScalar (Builtin.isScalar_of_apply happly)
    · exact ⟨le_refl _, hm⟩
  · rename_i f hf
    split
    · refine (h (.evalAll arguments) m hm).andThen fun values m _ hm hvalues => ?_
      split
      · have hframe : Frame.All (Value.Refers m.arrays.size) (.ofArguments f.parameters values) :=
          Frame.All.ofArguments hvalues
        have hran := (h (.block f.body) _ (hm.push hframe)).pop
        exact hran.andThen fun flow m _ hm hflow => ⟨le_refl _, hm, hflow⟩
      · exact ⟨le_refl _, hm⟩
    · exact ⟨le_refl _, hm⟩
  · exact ⟨le_refl _, hm⟩

theorem exec (s : Statement) : (PolishPseudocode.exec o (fuel + 1) s m).Sound m.arrays.size Flow.Refers := by
  cases s with
  | assign target value =>
      cases target with
      | var name =>
          rw [PolishPseudocode.exec]
          refine (h (.eval value) m hm).andThen fun value m _ hm hvalue => ?_
          have hsize := congrArg Array.size (m.arrays_assign name.name value)
          exact ⟨hsize.ge, hm.assign hvalue name.name, Flow.refers_next _⟩
      | element name index =>
          rw [PolishPseudocode.exec]
          refine (h (.eval value) m hm).andThen fun value m _ hm hvalue => ?_
          -- The name may become a new array before the index is evaluated.
          obtain ⟨hle, howner⟩ := hm.elementOwner name.name
          refine Outcome.Sound.mono ?_ hle
          dsimp only
          split
          · refine (h (.eval index) _ howner).andThen fun i m' hle' hm' _ => ?_
            split
            · rename_i write hwrite
              have hwritten := Machine.elementWrite_value (fun _ => trivial) (hvalue.mono (hle.trans hle')) hwrite
              obtain ⟨hle'', hclosed⟩ := hm'.perform hwritten
              exact ⟨hle'', hclosed, Flow.refers_next _⟩
            · exact ⟨le_refl _, hm'⟩
          · exact ⟨le_refl _, howner⟩
  | call callee arguments place =>
      rw [PolishPseudocode.exec]
      exact (h (.call callee arguments place) m hm).andThen fun result m _ hm _ =>
        ⟨le_refl _, hm, Flow.refers_next _⟩
  | whileLoop condition body place =>
      rw [PolishPseudocode.exec]
      exact h (.loop condition body place) m hm
  | forLoop counter start second last body place =>
      rw [PolishPseudocode.exec]
      refine (h (.eval start) m hm).bound.andThen fun start m _ hm _ => ?_
      refine (h (.eval second) m hm).bound.andThen fun second m _ hm _ => ?_
      refine (h (.eval last) m hm).bound.andThen fun last m _ hm _ => ?_
      exact h (.count counter.name (second - start) last body start) m hm
  | branch condition body otherwise place =>
      rw [PolishPseudocode.exec]
      refine (h (.eval condition) m hm).andThen fun (value : Value) m _ hm _ => ?_
      split
      · exact h (.block body) m hm
      · exact h (.block _) m hm
      · exact ⟨le_refl _, hm, Flow.refers_next _⟩
      · exact ⟨le_refl _, hm⟩
  | function name parameters body place =>
      rw [PolishPseudocode.exec]
      have hf : (m.newFunction (parameters.map Name.name) body).1.Refers m.arrays.size := trivial
      exact ⟨le_refl _, (hm.newFunction (parameters.map Name.name) body).define hf name.name, Flow.refers_next _⟩
  | giveBack value place =>
      cases value with
      | none =>
          rw [PolishPseudocode.exec]
          exact ⟨le_refl _, hm, Flow.refers_next _⟩
      | some e =>
          cases e with
          | call callee arguments place =>
              rw [PolishPseudocode.exec]
              exact (h (.call callee arguments place) m hm).andThen fun result m _ hm hresult =>
                ⟨le_refl _, hm, hresult⟩
          | _ =>
              rw [PolishPseudocode.exec]
              · refine (h (.eval _) m hm).andThen fun value m _ hm hvalue => ⟨le_refl _, hm, ?_⟩
                rintro _ ⟨⟩
                exact hvalue
              · intro callee arguments place hcall
                cases hcall
  | print e place =>
      rw [PolishPseudocode.exec]
      exact (h (.eval e) m hm).andThen fun value m _ hm _ => ⟨le_refl _, hm.print value, Flow.refers_next _⟩

theorem block (b : Block) : (execBlock o (fuel + 1) b m).Sound m.arrays.size Flow.Refers := by
  cases b with
  | nil => exact ⟨le_refl _, hm, Flow.refers_next _⟩
  | cons s rest =>
      rw [execBlock]
      refine (h (.exec s) m hm).andThen fun flow m _ hm hflow => ?_
      cases flow with
      | next => exact h (.block rest) m hm
      | giveBack value => exact ⟨le_refl _, hm, hflow⟩

theorem loop (condition : Expr) (body : Block) (place : Position) :
    (PolishPseudocode.loop o (fuel + 1) condition body place m).Sound m.arrays.size Flow.Refers := by
  rw [PolishPseudocode.loop]
  refine (h (.eval condition) m hm).andThen fun (value : Value) m _ hm _ => ?_
  split
  · refine (h (.block body) m hm).andThen fun flow m _ hm hflow => ?_
    cases flow with
    | next => exact h (.loop condition body place) m hm
    | giveBack value => exact ⟨le_refl _, hm, hflow⟩
  · exact ⟨le_refl _, hm, Flow.refers_next _⟩
  · exact ⟨le_refl _, hm⟩

theorem count (counter : String) (step last : Float) (body : Block) (x : Float) :
    (PolishPseudocode.count o (fuel + 1) counter step last body x m).Sound m.arrays.size Flow.Refers := by
  rw [PolishPseudocode.count]
  split
  · have hx : (Value.number x).Refers m.arrays.size := trivial
    refine (h (.block body) _ (hm.define hx counter)).andThen fun flow m _ hm hflow => ?_
    cases flow with
    | next => exact h (.count counter step last body (x + step)) m hm
    | giveBack value => exact ⟨le_refl _, hm, hflow⟩
  · exact ⟨le_refl _, hm, Flow.refers_next _⟩

end SoundWithin

theorem SoundWithin.succ {o : Origins} {fuel : Nat} (h : SoundWithin o fuel) : SoundWithin o (fuel + 1) := by
  intro task m hm
  cases task with
  | eval e => exact h.eval hm e
  | evalAll es => exact h.evalAll hm es
  | call callee arguments place => exact h.call hm callee arguments place
  | exec s => exact h.exec hm s
  | block b => exact h.block hm b
  | loop condition body place => exact h.loop hm condition body place
  | count counter step last body x => exact h.count hm counter step last body x

theorem soundWithin (o : Origins) (fuel : Nat) : SoundWithin o fuel := by
  induction fuel with
  | zero =>
      intro task m _
      rw [Task.run_zero]
      trivial
  | succ fuel ih => exact ih.succ

/-! ### All states of a run -/

section

variable {o : Origins} {fuel : Nat} {m : Machine} (hm : m.Closed)

include hm

theorem closed_parts_call (callee : Name) (arguments : List Expr) (place : Position) :
    ∀ part ∈ (Task.call callee arguments place).parts o fuel m, part.2.Closed := by
  rw [Task.parts]
  split
  · split
    · exact List.forall_mem_singleton.2 hm
    · exact List.forall_mem_nil _
  · rename_i f hf
    split
    · refine List.forall_mem_cons.2 ⟨hm, ?_⟩
      refine (soundWithin o fuel (.evalAll arguments) m hm).followed fun values m hm hvalues => ?_
      split
      · have hframe : Frame.All (Value.Refers m.arrays.size) (.ofArguments f.parameters values) :=
          Frame.All.ofArguments hvalues
        exact List.forall_mem_singleton.2 (hm.push hframe)
      · exact List.forall_mem_nil _
    · exact List.forall_mem_nil _
  · exact List.forall_mem_nil _

theorem closed_parts_eval (e : Expr) : ∀ part ∈ (Task.eval e).parts o fuel m, part.2.Closed := by
  have h := soundWithin o fuel
  cases e with
  | literal value place => exact List.forall_mem_nil _
  | var name => exact List.forall_mem_nil _
  | unary op operand place => exact List.forall_mem_singleton.2 hm
  | binary left op right place =>
      refine List.forall_mem_cons.2 ⟨hm, (h (.eval left) m hm).followed fun value m hm _ => ?_⟩
      split
      · exact List.forall_mem_nil _
      · exact List.forall_mem_singleton.2 hm
  | index target index place =>
      refine List.forall_mem_cons.2 ⟨hm, (h (.eval index) m hm).followed fun i m hm _ => ?_⟩
      exact List.forall_mem_singleton.2 hm
  | call callee arguments place => exact List.forall_mem_singleton.2 hm

theorem closed_parts_exec (s : Statement) : ∀ part ∈ (Task.exec s).parts o fuel m, part.2.Closed := by
  have h := soundWithin o fuel
  cases s with
  | assign target value =>
      cases target with
      | var name => exact List.forall_mem_singleton.2 hm
      | element name index =>
          refine List.forall_mem_cons.2 ⟨hm, (h (.eval value) m hm).followed fun value m hm _ => ?_⟩
          split
          · exact List.forall_mem_singleton.2 (hm.elementOwner name.name).2
          · exact List.forall_mem_nil _
  | call callee arguments place => exact List.forall_mem_singleton.2 hm
  | whileLoop condition body place => exact List.forall_mem_singleton.2 hm
  | forLoop counter start second last body place =>
      refine List.forall_mem_cons.2 ⟨hm, (h (.eval start) m hm).bound.followed fun start m hm _ => ?_⟩
      refine List.forall_mem_cons.2 ⟨hm, (h (.eval second) m hm).bound.followed fun second m hm _ => ?_⟩
      refine List.forall_mem_cons.2 ⟨hm, (h (.eval last) m hm).bound.followed fun last m hm _ => ?_⟩
      exact List.forall_mem_singleton.2 hm
  | branch condition body otherwise place =>
      refine List.forall_mem_cons.2 ⟨hm, (h (.eval condition) m hm).followed fun (value : Value) m hm _ => ?_⟩
      split
      · exact List.forall_mem_singleton.2 hm
      · exact List.forall_mem_singleton.2 hm
      · exact List.forall_mem_nil _
  | function name parameters body place => exact List.forall_mem_nil _
  | giveBack value place =>
      cases value with
      | none => exact List.forall_mem_nil _
      | some e => cases e <;> exact List.forall_mem_singleton.2 hm
  | print e place => exact List.forall_mem_singleton.2 hm

/-- Every part of a task starts with all references in place, if the task does. -/
theorem closed_parts (task : Task) : ∀ part ∈ task.parts o fuel m, part.2.Closed := by
  have h := soundWithin o fuel
  cases task with
  | eval e => exact closed_parts_eval hm e
  | evalAll es =>
      cases es with
      | nil => exact List.forall_mem_nil _
      | cons e rest =>
          refine List.forall_mem_cons.2 ⟨hm, (h (.eval e) m hm).followed fun value m hm _ => ?_⟩
          exact List.forall_mem_singleton.2 hm
  | call callee arguments place => exact closed_parts_call hm callee arguments place
  | exec s => exact closed_parts_exec hm s
  | block b =>
      cases b with
      | nil => exact List.forall_mem_nil _
      | cons s rest =>
          refine List.forall_mem_cons.2 ⟨hm, (h (.exec s) m hm).followed fun flow m hm _ => ?_⟩
          cases flow with
          | next => exact List.forall_mem_singleton.2 hm
          | giveBack value => exact List.forall_mem_nil _
  | loop condition body place =>
      refine List.forall_mem_cons.2 ⟨hm, (h (.eval condition) m hm).followed fun (value : Value) m hm _ => ?_⟩
      split
      · refine List.forall_mem_cons.2 ⟨hm, (h (.block body) m hm).followed fun flow m hm _ => ?_⟩
        cases flow with
        | next => exact List.forall_mem_singleton.2 hm
        | giveBack value => exact List.forall_mem_nil _
      · exact List.forall_mem_nil _
  | count counter step last body x =>
      have hx : (Value.number x).Refers m.arrays.size := trivial
      have hstart := hm.define hx counter
      rw [Task.parts]
      split
      · refine List.forall_mem_cons.2 ⟨hstart, (h (.block body) _ hstart).followed fun flow m hm _ => ?_⟩
        cases flow with
        | next => exact List.forall_mem_singleton.2 hm
        | giveBack value => exact List.forall_mem_nil _
      · exact List.forall_mem_nil _

end

theorem Task.closed_of_mem_visits {o : Origins} {fuel : Nat} {task : Task} {m : Machine} (hm : m.Closed) :
    ∀ visit ∈ task.visits o fuel m, visit.2.Closed := by
  induction fuel generalizing task m with
  | zero => exact List.forall_mem_singleton.2 hm
  | succ fuel ih =>
      refine List.forall_mem_cons.2 ⟨hm, fun visit hvisit => ?_⟩
      obtain ⟨part, hpart, hvisit⟩ := List.mem_flatMap.1 hvisit
      exact ih (closed_parts hm task part hpart) visit hvisit

/-- In a run of a program, whatever it is given from outside, everything starts and ends with all references in place;
above all, an array that a variable holds is there. -/
theorem Program.closed_of_mem_visits (o : Origins) (fuel : Nat) (p : Program) (bindings : List (String × Datum)) :
    ∀ visit ∈ p.visits o fuel (.initial bindings),
      visit.2.Closed ∧ ∀ fuel', (visit.1.run o fuel' visit.2).Leaves Machine.Closed := by
  have hvisits {m : Machine} (hm : m.Closed) : ∀ visit ∈ p.visits o fuel m, visit.2.Closed := by
    induction p generalizing m with
    | nil => exact List.forall_mem_nil _
    | cons s rest ih =>
        intro visit hvisit
        rcases List.mem_append.1 hvisit with hvisit | hvisit
        · exact Task.closed_of_mem_visits hm visit hvisit
        · exact (soundWithin o fuel (.exec s) m hm).followed (fun flow m hm _ => ih hm) visit hvisit
  intro visit hvisit
  have hclosed := hvisits (.initial bindings) visit hvisit
  refine ⟨hclosed, fun fuel' => ?_⟩
  have hsound := soundWithin o fuel' visit.1 visit.2 hclosed
  cases hrun : visit.1.run o fuel' visit.2 with
  | done value after =>
      rw [hrun] at hsound
      exact hsound.2.1
  | failed error after =>
      rw [hrun] at hsound
      exact hsound.2
  | outOfFuel => trivial

end PolishPseudocode
