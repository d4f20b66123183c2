import PolishPseudocode.Evaluation

/-! The values of a state. They are those of its variables and those in its arrays. A property that all of them
have is kept by every change that only brings in values with the property; plain values, those that are no
functions of a program, come in from outside and out of operators. -/

namespace PolishPseudocode

/-- Whether a value is no function that a program defined. -/
def Value.isPlain : Value → Bool
  | .number _ | .text _ | .bool _ | .array _ | .builtin _ => true
  | .function _ => false

/-- Whether a value is a number, a text or a truth value, as all results of operators are. -/
def Value.isScalar : Value → Bool
  | .number _ | .text _ | .bool _ => true
  | .array _ | .builtin _ | .function _ => false

theorem Value.isPlain_of_isScalar {value : Value} (h : value.isScalar = true) : value.isPlain = true := by
  cases value with
  | function f => cases h
  | _ => rfl

def Frame.All (property : Value → Prop) (frame : Frame) : Prop :=
  ∀ entry ∈ frame, property entry.2

structure Machine.All (property : Value → Prop) (m : Machine) : Prop where
  frames : ∀ frame ∈ m.frames, Frame.All property frame
  items : ∀ id, ∀ value ∈ m.items id, property value

variable {property : Value → Prop}

namespace Frame.All

variable {frame : Frame}

theorem get? (h : All property frame) {name : String} {value : Value} (hvalue : frame.get? name = some value) :
    property value := by
  induction frame with
  | nil => cases hvalue
  | cons entry rest ih =>
      obtain ⟨hentry, hrest⟩ := List.forall_mem_cons.1 h
      rw [Frame.get?, List.lookup_cons] at hvalue
      split at hvalue
      · cases hvalue
        exact hentry
      · exact ih hrest hvalue

theorem set (h : All property frame) {value : Value} (hvalue : property value) (name : String) :
    All property (frame.set name value) := by
  induction frame with
  | nil => exact List.forall_mem_singleton.2 hvalue
  | cons entry rest ih =>
      obtain ⟨hentry, hrest⟩ := List.forall_mem_cons.1 h
      rw [Frame.set]
      split
      · exact List.forall_mem_cons.2 ⟨hvalue, hrest⟩
      · exact List.forall_mem_cons.2 ⟨hentry, ih hrest⟩

theorem ofArguments {parameters : List String} {values : List Value} (hvalues : ∀ value ∈ values, property value) :
    All property (Frame.ofArguments parameters values) := by
  refine List.foldlRecOn _ _ (List.forall_mem_nil _) fun frame hframe pair hpair => ?_
  exact hframe.set (hvalues pair.2 (List.of_mem_zip hpair).2) pair.1

end Frame.All

namespace Machine.All

variable {m : Machine}

theorem lookup (h : m.All property) {name : String} {value : Value} (hvalue : m.lookup name = some value) :
    property value := by
  obtain ⟨frame, hframe, hget⟩ := List.exists_of_findSome?_eq_some hvalue
  exact (h.frames frame hframe).get? hget

theorem define (h : m.All property) {value : Value} (hvalue : property value) (name : String) :
    (m.define name value).All property := by
  obtain ⟨htop, hcallers⟩ := List.forall_mem_cons.1 h.frames
  exact ⟨List.forall_mem_cons.2 ⟨htop.set hvalue name, hcallers⟩, h.items⟩

theorem assignIn {frames : List Frame} (h : ∀ frame ∈ frames, Frame.All property frame) {value : Value}
    (hvalue : property value) (name : String) :
    ∀ frame ∈ Machine.assignIn name value frames, Frame.All property frame := by
  induction frames with
  | nil => exact h
  | cons frame rest ih =>
      obtain ⟨hframe, hrest⟩ := List.forall_mem_cons.1 h
      rw [Machine.assignIn]
      split
      · exact List.forall_mem_cons.2 ⟨hframe.set hvalue name, hrest⟩
      · exact List.forall_mem_cons.2 ⟨hframe, ih hrest⟩

theorem assign (h : m.All property) {value : Value} (hvalue : property value) (name : String) :
    (m.assign name value).All property := by
  obtain ⟨htop, hcallers⟩ := List.forall_mem_cons.1 h.frames
  rw [Machine.assign]
  split
  · exact h.define hvalue name
  · split
    · exact ⟨List.forall_mem_cons.2 ⟨htop, assignIn hcallers hvalue name⟩, h.items⟩
    · exact h.define hvalue name

theorem push (h : m.All property) {frame : Frame} (hframe : Frame.All property frame) :
    (m.push frame).All property :=
  ⟨List.forall_mem_cons.2 ⟨hframe, h.frames⟩, h.items⟩

theorem pop (h : m.All property) : m.pop.All property := by
  rw [Machine.pop]
  split
  · exact h
  · rename_i frame callers hcallers
    have hframes := (List.forall_mem_cons.1 h.frames).2
    rw [hcallers] at hframes
    exact ⟨hframes, h.items⟩

theorem newArray (h : m.All property) {items : Array Value} (hitems : ∀ value ∈ items, property value) :
    (m.newArray items).2.All property := by
  refine ⟨h.frames, fun id value hvalue => ?_⟩
  rw [Machine.newArray, Machine.items, Array.getD_eq_getD_getElem?, Array.getElem?_push] at hvalue
  split at hvalue
  · exact hitems value hvalue
  · rw [← Array.getD_eq_getD_getElem?] at hvalue
    exact h.items id value hvalue

theorem newFunction (h : m.All property) (parameters : List String) (body : Block) :
    (m.newFunction parameters body).2.All property :=
  ⟨h.frames, h.items⟩

theorem setItem (h : m.All property) {value : Value} (hvalue : property value) (id slot : Nat) :
    (m.setItem id slot value).All property := by
  refine ⟨h.frames, fun id' other hother => ?_⟩
  rw [Machine.setItem, Machine.items, Array.getD_eq_getD_getElem?, Array.getElem?_modify] at hother
  have hitems := h.items id'
  rw [Machine.items, Array.getD_eq_getD_getElem?] at hitems
  split at hother
  · cases harray : m.arrays[id']? with
    | none =>
        rw [harray] at hother
        simp at hother
    | some items =>
        rw [harray] at hother hitems
        rw [Option.map_some, Option.getD_some] at hother
        split at hother
        · rcases Array.mem_push.1 hother with hold | rfl
          · exact hitems other hold
          · exact hvalue
        · rcases Array.mem_or_eq_of_mem_setIfInBounds hother with hold | rfl
          · exact hitems other hold
          · exact hvalue
  · exact hitems other hother

theorem print (h : m.All property) (value : Value) : (m.print value).All property :=
  ⟨h.frames, h.items⟩

theorem elementOwner (hplain : ∀ value : Value, value.isPlain = true → property value) (h : m.All property)
    (name : String) : (m.elementOwner name).2.All property := by
  rw [Machine.elementOwner]
  split
  · exact h
  · exact (h.newArray (by simp)).define (hplain (m.newArray #[]).1 rfl) name

mutual

theorem store (hplain : ∀ value : Value, value.isPlain = true → property value) {m : Machine}
    (h : m.All property) (datum : Datum) :
    property (m.store datum).1 ∧ (m.store datum).2.All property := by
  cases datum with
  | number x => exact ⟨hplain _ rfl, h⟩
  | text s => exact ⟨hplain _ rfl, h⟩
  | bool b => exact ⟨hplain _ rfl, h⟩
  | array items =>
      obtain ⟨hvalues, hstored⟩ := storeAll hplain h items
      rw [Machine.store]
      exact ⟨hplain _ rfl, hstored.newArray fun value hvalue => hvalues value (List.mem_toArray.1 hvalue)⟩

theorem storeAll (hplain : ∀ value : Value, value.isPlain = true → property value) {m : Machine}
    (h : m.All property) (items : List Datum) :
    (∀ value ∈ (m.storeAll items).1, property value) ∧ (m.storeAll items).2.All property := by
  cases items with
  | nil => exact ⟨List.forall_mem_nil _, h⟩
  | cons item items =>
      obtain ⟨hvalue, hstored⟩ := store hplain h item
      obtain ⟨hvalues, hall⟩ := storeAll hplain hstored items
      rw [Machine.storeAll]
      exact ⟨List.forall_mem_cons.2 ⟨hvalue, hvalues⟩, hall⟩

end

/-- Before a program there are only plain values. -/
theorem initial (hplain : ∀ value : Value, value.isPlain = true → property value)
    (bindings : List (String × Datum)) : (Machine.initial bindings).All property := by
  have hempty : Machine.empty.All property :=
    ⟨by simp [Machine.frames, Machine.empty, Frame.All], by simp [Machine.items, Machine.empty]⟩
  rw [Machine.initial]
  refine List.foldlRecOn _ _ (List.foldlRecOn _ _ hempty fun m hm binding _ => ?_) fun m hm f _ => ?_
  · obtain ⟨hvalue, hstored⟩ := hm.store hplain binding.2
    exact hstored.define hvalue binding.1
  · exact hm.define (hplain (.builtin f) rfl) f.name

end Machine.All

/-! ### Operations -/

theorem Value.isScalar_ofLiteral (literal : Literal) : (Value.ofLiteral literal).isScalar = true := by
  cases literal <;> rfl

theorem Value.isPlain_ofLiteral (literal : Literal) : (Value.ofLiteral literal).isPlain = true :=
  isPlain_of_isScalar (isScalar_ofLiteral literal)

theorem UnaryOp.isScalar_of_apply {op : UnaryOp} {operand value : Value} (h : op.apply operand = .ok value) :
    value.isScalar = true := by
  rw [UnaryOp.apply.eq_def] at h
  split at h <;> cases h <;> rfl

theorem UnaryOp.isPlain_of_apply {op : UnaryOp} {operand value : Value} (h : op.apply operand = .ok value) :
    value.isPlain = true :=
  Value.isPlain_of_isScalar (isScalar_of_apply h)

theorem BinaryOp.isScalar_of_apply {op : BinaryOp} {left right value : Value}
    (h : op.apply left right = .ok value) : value.isScalar = true := by
  have horder (op : BinaryOp) (h : op.applyOrder left right = .ok value) : value.isScalar = true := by
    rw [applyOrder.eq_def] at h
    split at h <;> cases h <;> rfl
  have hequality (negated : Bool) (h : applyEquality negated left right = .ok value) :
      value.isScalar = true := by
    rw [applyEquality] at h
    split at h <;> cases h
    rfl
  have hlogic (connective : Bool → Bool → Bool) (h : applyLogic connective left right = .ok value) :
      value.isScalar = true := by
    rw [applyLogic.eq_def] at h
    split at h <;> cases h
    rfl
  have haddition (h : applyAddition left right = .ok value) : value.isScalar = true := by
    rw [applyAddition.eq_def] at h
    split at h <;> cases h <;> rfl
  have harithmetic (operation : Float → Float → Float) (h : applyArithmetic operation left right = .ok value) :
      value.isScalar = true := by
    rw [applyArithmetic.eq_def] at h
    split at h <;> cases h
    rfl
  cases op with
  | greater | less | greaterEqual | lessEqual => exact horder _ h
  | equal | notEqual => exact hequality _ h
  | and | or => exact hlogic _ h
  | add => exact haddition h
  | sub | mul | div | intDiv | mod => exact harithmetic _ h

theorem BinaryOp.isPlain_of_apply {op : BinaryOp} {left right value : Value}
    (h : op.apply left right = .ok value) : value.isPlain = true :=
  Value.isPlain_of_isScalar (isScalar_of_apply h)

def Write.value : Write → Value
  | item _ _ value => value
  | var _ value => value

namespace Machine.All

variable {m : Machine}

theorem perform (h : m.All property) {write : Write} (hwrite : property write.value) :
    (m.perform write).All property := by
  cases write with
  | item id slot value => exact h.setItem hwrite id slot
  | var name value => exact h.assign hwrite name

/-- An element that is read is one of an array, or a character. -/
theorem element (htext : ∀ s : String, property (.text s)) (h : m.All property) {o : Origins}
    {target index value : Value} {subject : String} {place : Position}
    (hok : m.element o target index subject place = .ok value) : property value := by
  rw [Machine.element.eq_def] at hok
  cases target with
  | array id =>
      dsimp only at hok
      cases hslot : (index.slot? o.arrays).bind fun slot => (m.items id)[slot]? with
      | none =>
          rw [hslot] at hok
          cases hok
      | some found =>
          obtain ⟨slot, -, hget⟩ := Option.bind_eq_some_iff.1 hslot
          rw [hslot] at hok
          cases hok
          exact h.items id value (Array.mem_of_getElem? hget)
  | text s =>
      dsimp only at hok
      split at hok <;> cases hok
      exact htext _
  | _ => cases hok

end Machine.All

/-- What is written is the value given, or a text with one of its characters changed. -/
theorem Machine.elementWrite_value (htext : ∀ s : String, property (.text s)) {m : Machine} {o : Origins}
    {name : Name} {owner index value : Value} {place : Position} {write : Write}
    (hvalue : property value) (hok : m.elementWrite o name owner index value place = .ok write) :
    property write.value := by
  rw [Machine.elementWrite.eq_def] at hok
  cases owner with
  | array id =>
      dsimp only at hok
      split at hok
      · cases hok
      · split at hok <;> cases hok
        exact hvalue
  | text s =>
      dsimp only at hok
      split at hok
      · cases hok
      · split at hok
        · cases hok
        · split at hok <;> cases hok
          exact htext _
  | _ => cases hok

theorem Builtin.isScalar_of_apply {arrays : Array (Array Value)} {f : Builtin} {arguments : List Value}
    {value : Value} (h : f.apply arrays arguments = .ok value) : value.isScalar = true := by
  rw [Builtin.apply.eq_def] at h
  split at h <;> cases h <;> rfl

theorem Builtin.isPlain_of_apply {arrays : Array (Array Value)} {f : Builtin} {arguments : List Value}
    {value : Value} (h : f.apply arrays arguments = .ok value) : value.isPlain = true :=
  Value.isPlain_of_isScalar (isScalar_of_apply h)

end PolishPseudocode
