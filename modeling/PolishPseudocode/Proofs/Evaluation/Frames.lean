import PolishPseudocode.Proofs.Evaluation.Law

/-! The frames of a run. However it ends, an evaluation leaves as many frames as there were. An expression
leaves the names in all of them alone, a statement those in the frames of the callers, and to the innermost
frame it can only add. No task inside a run ever starts with more frames than a run may have: a call that would
need one more fails, and its body is not executed. -/

namespace PolishPseudocode

/-- The names of the variables of a frame, in the order in which they were set first. -/
def Frame.names (frame : Frame) : List String :=
  frame.map Prod.fst

namespace Frame

theorem names_set_of_has {frame : Frame} {name : String} (h : frame.has name = true) (value : Value) :
    (frame.set name value).names = frame.names := by
  induction frame with
  | nil => cases h
  | cons entry rest ih =>
      rw [set]
      split
      · rename_i hname
        exact congrArg (· :: Frame.names rest) hname.symm
      · rename_i hname
        have hrest : Frame.has rest name = true := by
          simpa [has, hname] using h
        exact congrArg (entry.1 :: ·) (ih hrest)

/-- A name that is new is added behind the others. -/
theorem names_set_prefix (frame : Frame) (name : String) (value : Value) :
    frame.names <+: (frame.set name value).names := by
  induction frame with
  | nil => exact List.nil_prefix
  | cons entry rest ih =>
      rw [set]
      split
      · rename_i hname
        rw [← hname]
        exact List.prefix_refl _
      · exact List.prefix_cons_inj entry.1 |>.2 ih

end Frame

namespace Machine

theorem names_assignIn (name : String) (value : Value) (frames : List Frame) :
    (assignIn name value frames).map Frame.names = frames.map Frame.names := by
  induction frames with
  | nil => rfl
  | cons frame rest ih =>
      rw [assignIn]
      split
      · rename_i h
        rw [List.map_cons, Frame.names_set_of_has h, List.map_cons]
      · rw [List.map_cons, ih, List.map_cons]

/-- The same frames, with the same names in each. -/
def SameNames (m m' : Machine) : Prop :=
  m'.frames.map Frame.names = m.frames.map Frame.names

/-- The same frames, with the same names in those of the callers, and no name less in the innermost one. -/
structure AddsNames (m m' : Machine) : Prop where
  callers : m'.callers.map Frame.names = m.callers.map Frame.names
  top : m.top.names <+: m'.top.names

theorem AddsNames.depth_eq {m m' : Machine} (h : AddsNames m m') : m'.depth = m.depth := by
  have hlength := congrArg List.length h.callers
  rw [List.length_map, List.length_map] at hlength
  exact congrArg (· + 1) hlength

theorem SameNames.addsNames {m m' : Machine} (h : SameNames m m') : AddsNames m m' := by
  obtain ⟨htop, hcallers⟩ := List.cons.inj h
  exact ⟨hcallers, htop ▸ List.prefix_refl _⟩

theorem addsNames_define (m : Machine) (name : String) (value : Value) : AddsNames m (m.define name value) :=
  ⟨rfl, m.top.names_set_prefix name value⟩

theorem addsNames_assign (m : Machine) (name : String) (value : Value) : AddsNames m (m.assign name value) := by
  rw [assign]
  split
  · exact addsNames_define m name value
  · split
    · exact ⟨names_assignIn name value m.callers, List.prefix_refl _⟩
    · exact addsNames_define m name value

/-- Behind a call the frames are those before it. -/
theorem sameNames_pop {m m' : Machine} {frame : Frame} (h : AddsNames (m.push frame) m') :
    SameNames m m'.pop := by
  have hcallers : m'.callers.map Frame.names = m.frames.map Frame.names := h.callers
  rw [SameNames, pop]
  cases hm : m'.callers with
  | nil =>
      rw [hm] at hcallers
      cases hcallers
  | cons top callers =>
      rw [hm] at hcallers
      exact hcallers

end Machine

def namesLaw : Law where
  inner := Machine.SameNames
  outer := Machine.AddsNames
  inner_refl _ := rfl
  inner_trans h h' := Eq.trans h' h
  outer_trans h h' := ⟨h'.callers.trans h.callers, h.top.trans h'.top⟩
  outer_of_inner h := h.addsNames
  define := Machine.addsNames_define
  assign := Machine.addsNames_assign
  newArray _ _ := ⟨rfl, List.prefix_refl _⟩
  setItem _ _ _ _ := ⟨rfl, List.prefix_refl _⟩
  newFunction _ _ _ := ⟨rfl, List.prefix_refl _⟩
  print _ _ := ⟨rfl, List.prefix_refl _⟩
  call _ h := Machine.sameNames_pop h

/-- A part of a task starts with no more frames than a run may have, if the task does. -/
theorem depth_le_of_starts {m start : Machine} (h : namesLaw.Starts m start)
    (hm : m.depth ≤ Machine.maxDepth) : start.depth ≤ Machine.maxDepth := by
  rcases h with houter | ⟨m', frame, -, hroom, rfl⟩
  · exact houter.depth_eq ▸ hm
  · exact hroom

/-- No task that is come to starts with more frames than a run may have. -/
theorem depth_le_of_mem_visits (o : Origins) {fuel : Nat} {task : Task} {m : Machine}
    (hm : m.depth ≤ Machine.maxDepth) :
    ∀ visit ∈ task.visits o fuel m, visit.2.depth ≤ Machine.maxDepth := by
  induction fuel generalizing task m with
  | zero => exact List.forall_mem_singleton.2 hm
  | succ fuel ih =>
      refine List.forall_mem_cons.2 ⟨hm, fun visit hvisit => ?_⟩
      obtain ⟨part, hpart, hvisit⟩ := List.mem_flatMap.1 hvisit
      exact ih (depth_le_of_starts (namesLaw.starts_parts o fuel m task part hpart) hm) visit hvisit

/-- Every task ends with as many frames as it started with. -/
theorem depth_of_run (o : Origins) (fuel : Nat) (task : Task) (m : Machine) :
    (task.run o fuel m).Leaves fun m' => m'.depth = m.depth := by
  refine (namesLaw.holdsWithin o fuel task m).imp fun m' h => ?_
  cases task with
  | eval e => exact (Machine.SameNames.addsNames h).depth_eq
  | evalAll es => exact (Machine.SameNames.addsNames h).depth_eq
  | call callee arguments place => exact (Machine.SameNames.addsNames h).depth_eq
  | exec s => exact h.depth_eq
  | block b => exact h.depth_eq
  | loop condition body place => exact h.depth_eq
  | count counter step last body x => exact h.depth_eq

theorem depth_of_evalAll {o : Origins} {fuel : Nat} {es : List Expr} {m after : Machine} {values : List Value}
    (h : evalAll o fuel es m = .done values after) : after.depth = m.depth := by
  have hdepth := depth_of_run o fuel (.evalAll es) m
  rw [Task.run, h] at hdepth
  exact hdepth

/-- The body of a function is executed in a frame of its own, which is gone behind it, if a run may have that many
frames. If it may not, the call fails, whatever the body is. -/
theorem call_function (o : Origins) (fuel : Nat) {m after : Machine} {callee : Name} {arguments : List Expr}
    (place : Position) {f : Function} {values : List Value} (hcallee : m.lookup callee.name = some (.function f))
    (harity : f.arity = arguments.length) (harguments : evalAll o fuel arguments m = .done values after) :
    let entered := after.push (.ofArguments f.parameters values)
    call o (fuel + 1) callee arguments place m =
      if entered.depth ≤ Machine.maxDepth then
        ((execBlock o fuel f.body entered).mapAfter Machine.pop).andThen fun flow m => .done flow.result m
      else .failed ⟨.stackOverflow, place⟩ after := by
  intro entered
  rw [call, hcallee]
  dsimp only
  rw [if_pos harity, harguments]
  rfl

/-- From a state with at most as many frames as a run may have, an expression and a statement end, with a value
or an error, with as many frames as before. The expression leaves the names in every frame alone; the statement
leaves those in the frames of the callers alone and only adds names to the innermost frame. All that is evaluated
or executed on the way, in the bodies of functions above all, starts with at least one frame and at most as many
as a run may have, and ends with as many as it started with. A function that is called executes its body in one
frame more, provided that a run may have that many, and fails without its body otherwise. Nothing is evaluated or
executed on the way but what is listed: a task runs out of fuel exactly if one of its parts does. -/
theorem frames_kept (o : Origins) (fuel : Nat) {m : Machine}
    (h : 1 ≤ m.depth ∧ m.depth ≤ Machine.maxDepth) :
    (∀ e, (eval o fuel e m).Leaves fun m' =>
      m'.depth = m.depth ∧ m'.frames.map Frame.names = m.frames.map Frame.names)
    ∧ (∀ s, (exec o fuel s m).Leaves fun m' => m'.depth = m.depth
      ∧ m'.callers.map Frame.names = m.callers.map Frame.names ∧ m.top.names <+: m'.top.names)
    ∧ (∀ task : Task, ∀ visit ∈ task.visits o fuel m,
      (1 ≤ visit.2.depth ∧ visit.2.depth ≤ Machine.maxDepth)
      ∧ (visit.1.run o fuel visit.2).Leaves fun m' => m'.depth = visit.2.depth)
    ∧ (∀ callee arguments place f values after, m.lookup callee.name = some (.function f) →
      f.arity = arguments.length → evalAll o fuel arguments m = .done values after →
      let entered := after.push (.ofArguments f.parameters values)
      entered.depth = m.depth + 1
      ∧ call o (fuel + 1) callee arguments place m =
        if entered.depth ≤ Machine.maxDepth then
          ((execBlock o fuel f.body entered).mapAfter Machine.pop).andThen fun flow m => .done flow.result m
        else .failed ⟨.stackOverflow, place⟩ after)
    ∧ ∀ (task : Task) (fuel' : Nat) (m' : Machine), task.run o (fuel' + 1) m' = .outOfFuel
      ↔ ∃ part ∈ task.parts o fuel' m', part.1.run o fuel' part.2 = .outOfFuel := by
  have hlaw := namesLaw.holdsWithin o fuel
  refine ⟨fun e => ?_, fun s => ?_, fun task visit hvisit => ?_, ?_, fun task fuel' m' => ?_⟩
  · refine (hlaw (.eval e) m).imp fun m' hnames => ⟨?_, hnames⟩
    exact (Machine.SameNames.addsNames hnames).depth_eq
  · refine (hlaw (.exec s) m).imp fun m' hnames => ⟨?_, hnames.callers, hnames.top⟩
    exact hnames.depth_eq
  · have hdepth := depth_le_of_mem_visits o h.2 visit hvisit
    exact ⟨⟨Nat.succ_pos _, hdepth⟩, depth_of_run o fuel visit.1 visit.2⟩
  · intro callee arguments place f values after hcallee harity harguments entered
    have hentered : entered.depth = m.depth + 1 := congrArg (· + 1) (depth_of_evalAll harguments)
    exact ⟨hentered, call_function o fuel place hcallee harity harguments⟩
  · exact Task.run_eq_outOfFuel_iff task m'

/-- A call from a second frame, of a function that writes a variable of its caller and makes one of its own; and a
call with no frame left, of a function whose body would never end. -/
theorem frames_kept_call :
    let body : Block :=
      [.assign (.var ⟨"z", ⟨0, 0⟩⟩) (.var ⟨"x", ⟨0, 5⟩⟩), .assign (.var ⟨"y", ⟨1, 0⟩⟩) (.var ⟨"x", ⟨1, 5⟩⟩)]
    let m : Machine := ⟨[("z", .bool true)], [[("f", .function ⟨0, ["x"], body⟩)]], #[], 1, #[]⟩
    let s : Statement := .call ⟨"f", ⟨2, 0⟩⟩ [.literal (.bool false) ⟨2, 2⟩] ⟨2, 1⟩
    let endless : Block := [.whileLoop (.literal (.bool true) ⟨3, 7⟩) [] ⟨3, 0⟩]
    let full : Machine := ⟨[("g", .function ⟨0, [], endless⟩)], List.replicate 998 [], #[], 1, #[]⟩
    ((1 ≤ m.depth ∧ m.depth ≤ Machine.maxDepth) ∧ 1 ≤ full.depth ∧ full.depth ≤ Machine.maxDepth)
    ∧ ((Task.exec s).visits .one 9 m).map (fun visit => visit.2.depth) = [2, 2, 2, 2, 2, 3, 3, 3, 3, 3, 3, 3]
    ∧ ((exec .one 9 s m).Leaves fun m' => m'.depth = 2
      ∧ m'.callers.map Frame.names = [["f"]] ∧ ["z"] <+: m'.top.names)
    ∧ (∀ visit ∈ (Task.exec s).visits .one 9 m, 1 ≤ visit.2.depth ∧ visit.2.depth ≤ Machine.maxDepth)
    ∧ call .one 9 ⟨"g", ⟨4, 0⟩⟩ [] ⟨4, 1⟩ full = .failed ⟨.stackOverflow, ⟨4, 1⟩⟩ full := by
  intro body m s endless full
  have h : 1 ≤ m.depth ∧ m.depth ≤ Machine.maxDepth := by decide
  have hfull : 1 ≤ full.depth ∧ full.depth ≤ Machine.maxDepth := by decide +kernel
  refine ⟨⟨h, hfull⟩, by decide +kernel, (frames_kept .one 9 h).2.1 s, fun visit hvisit => ?_, ?_⟩
  · exact ((frames_kept .one 9 h).2.2.1 (.exec s) visit hvisit).1
  · obtain ⟨hdepth, hcall⟩ := (frames_kept .one 8 hfull).2.2.2.1 ⟨"g", ⟨4, 0⟩⟩ [] ⟨4, 1⟩ _ [] full rfl rfl rfl
    have hover : full.depth = Machine.maxDepth := by decide +kernel
    rw [hcall, hdepth, hover]
    exact if_neg (Nat.not_succ_le_self _)

end PolishPseudocode
