import PolishPseudocode.Proofs.Evaluation.Frames
import PolishPseudocode.Proofs.Evaluation.Fuel
import PolishPseudocode.Proofs.Evaluation.Values

/-! Programs without loops. They all end, because a run may have only so many frames: what is evaluated in a frame
is smaller each time or the body of a function, and the body has one frame more. A call for which there is no
frame left fails, and with it the run. -/

namespace PolishPseudocode

mutual

/-- Whether there is no loop in a statement, nor in the body of any function that it defines. -/
def Statement.isLoopFree : Statement → Bool
  | .whileLoop _ _ _ | .forLoop _ _ _ _ _ _ => false
  | .branch _ body none _ => allLoopFree body
  | .branch _ body (some otherwise) _ => allLoopFree body && allLoopFree otherwise
  | .function _ _ body _ => allLoopFree body
  | .assign _ _ | .call _ _ _ | .giveBack _ _ | .print _ _ => true

def Statement.allLoopFree : List Statement → Bool
  | [] => true
  | s :: rest => s.isLoopFree && allLoopFree rest

end

/-- There is no loop in the body of a function; other values have no body. -/
def Value.LoopFree : Value → Prop
  | .number _ | .text _ | .bool _ | .array _ | .builtin _ => True
  | .function f => Statement.allLoopFree f.body = true

theorem Value.loopFree_of_isPlain {value : Value} (h : value.isPlain = true) : value.LoopFree := by
  cases value with
  | function f => cases h
  | _ => trivial

def Flow.LoopFree (flow : Flow) : Prop :=
  ∀ value ∈ flow.result, value.LoopFree

theorem Flow.loopFree_of_result {flow : Flow} (h : flow.result = none) : flow.LoopFree := by
  intro value hvalue
  rw [h] at hvalue
  cases hvalue

/-- A state with as many frames as said, and no loop in any function of its values. -/
structure Machine.LoopFree (depth : Nat) (m : Machine) : Prop where
  values : m.All Value.LoopFree
  depth_eq : m.depth = depth

namespace Machine.LoopFree

variable {depth : Nat} {m : Machine}

theorem of_addsNames {m' : Machine} (h : m.LoopFree depth) (hnames : AddsNames m m')
    (hvalues : m'.All Value.LoopFree) : m'.LoopFree depth :=
  ⟨hvalues, hnames.depth_eq.trans h.depth_eq⟩

theorem define (h : m.LoopFree depth) {value : Value} (hvalue : value.LoopFree) (name : String) :
    (m.define name value).LoopFree depth :=
  h.of_addsNames (addsNames_define m name value) (h.values.define hvalue name)

theorem assign (h : m.LoopFree depth) {value : Value} (hvalue : value.LoopFree) (name : String) :
    (m.assign name value).LoopFree depth :=
  h.of_addsNames (addsNames_assign m name value) (h.values.assign hvalue name)

theorem elementOwner (h : m.LoopFree depth) (name : String) : (m.elementOwner name).2.LoopFree depth :=
  h.of_addsNames (namesLaw.elementOwner m name)
    (h.values.elementOwner (fun _ => Value.loopFree_of_isPlain) name)

theorem perform (h : m.LoopFree depth) {write : Write} (hwrite : write.value.LoopFree) :
    (m.perform write).LoopFree depth :=
  h.of_addsNames (namesLaw.perform m write) (h.values.perform hwrite)

theorem push (h : m.LoopFree depth) {frame : Frame} (hframe : Frame.All Value.LoopFree frame) :
    (m.push frame).LoopFree (depth + 1) :=
  ⟨h.values.push hframe, congrArg (· + 1) h.depth_eq⟩

theorem pop (h : m.LoopFree (depth + 1)) (hdepth : 0 < depth) : m.pop.LoopFree depth := by
  refine ⟨h.values.pop, ?_⟩
  have hlength : m.callers.length = depth := Nat.succ.inj h.depth_eq
  rw [Machine.pop]
  split
  · rename_i hcallers
    rw [hcallers] at hlength
    exact absurd hlength (Nat.ne_of_lt hdepth)
  · rename_i frame callers hcallers
    rw [hcallers] at hlength
    exact hlength

end Machine.LoopFree

/-! ### Outcomes for enough fuel -/

namespace Outcome

variable {α β : Type}

/-- There is an outcome, and if it is a value, value and state have a property. -/
def Finishes (property : α → Machine → Prop) : Outcome α → Prop
  | done value after => property value after
  | failed _ _ => True
  | outOfFuel => False

/-- From some fuel on the outcome is always the same one, and not for want of fuel. -/
def Ends (property : α → Machine → Prop) (outcomes : Nat → Outcome α) : Prop :=
  ∃ fuel outcome, (∀ fuel' ≥ fuel, outcomes fuel' = outcome) ∧ outcome.Finishes property

namespace Ends

variable {property : α → Machine → Prop} {property' : β → Machine → Prop}

theorem of_finishes {outcome : Outcome α} (h : outcome.Finishes property) : Ends property fun _ => outcome :=
  ⟨0, outcome, fun _ _ => rfl, h⟩

theorem done {value : α} {m : Machine} (h : property value m) : Ends property fun _ => .done value m :=
  of_finishes h

theorem failed (error : RuntimeError) (m : Machine) : Ends property fun _ => .failed error m :=
  of_finishes trivial

theorem ofExcept {m : Machine} {place : Position} {result : Except Fault α}
    (h : ∀ value, result = .ok value → property value m) :
    Ends property fun _ => Outcome.ofExcept m place result := by
  cases result with
  | error fault => exact failed ⟨fault, place⟩ m
  | ok value => exact done (h value rfl)

/-- The first unit of fuel is spent on the task itself. -/
theorem of_succ {outcomes : Nat → Outcome α} (h : Ends property fun fuel => outcomes (fuel + 1)) :
    Ends property outcomes := by
  obtain ⟨fuel, outcome, hsame, hfinishes⟩ := h
  refine ⟨fuel + 1, outcome, fun fuel' hle => ?_, hfinishes⟩
  obtain ⟨fuel', rfl⟩ : ∃ n, fuel' = n + 1 := ⟨fuel' - 1, by omega⟩
  exact hsame fuel' (Nat.le_of_succ_le_succ hle)

/-- Enough fuel for both is the larger of the two. -/
theorem andThen {first : Nat → Outcome α} {next : Nat → α → Machine → Outcome β} (h : Ends property first)
    (hnext : ∀ value m, property value m → Ends property' fun fuel => next fuel value m) :
    Ends property' fun fuel => (first fuel).andThen (next fuel) := by
  obtain ⟨fuel, outcome, hsame, hfinishes⟩ := h
  cases outcome with
  | done value m =>
      obtain ⟨fuel₂, outcome₂, hsame₂, hfinishes₂⟩ := hnext value m hfinishes
      refine ⟨max fuel fuel₂, outcome₂, fun fuel' hle => ?_, hfinishes₂⟩
      obtain ⟨hle, hle₂⟩ := Nat.max_le.1 hle
      dsimp only
      rw [hsame fuel' hle]
      exact hsame₂ fuel' hle₂
  | failed error m =>
      refine ⟨fuel, .failed error m, fun fuel' hle => ?_, trivial⟩
      dsimp only
      rw [hsame fuel' hle]
      rfl
  | outOfFuel => exact hfinishes.elim

theorem mapAfter {outcomes : Nat → Outcome α} {change : Machine → Machine} {property'' : α → Machine → Prop}
    (h : Ends property outcomes) (hchange : ∀ value m, property value m → property'' value (change m)) :
    Ends property'' fun fuel => (outcomes fuel).mapAfter change := by
  obtain ⟨fuel, outcome, hsame, hfinishes⟩ := h
  refine ⟨fuel, outcome.mapAfter change, fun fuel' hle => congrArg (Outcome.mapAfter · change) (hsame fuel' hle), ?_⟩
  cases outcome with
  | done value m => exact hchange value m hfinishes
  | failed error m => trivial
  | outOfFuel => exact hfinishes.elim

end Ends

end Outcome

/-! ### Evaluation in one frame -/

/-- Blocks without loops end if they are executed with this many frames. -/
def BlocksEnd (o : Origins) (depth : Nat) : Prop :=
  ∀ (b : Block) (m : Machine), Statement.allLoopFree b = true → m.LoopFree depth →
    Outcome.Ends (fun flow m' => flow.LoopFree ∧ m'.LoopFree depth) fun fuel => execBlock o fuel b m

variable {o : Origins} {depth : Nat}

theorem call_ends (hbodies : depth < Machine.maxDepth → BlocksEnd o (depth + 1)) {arguments : List Expr}
    {m : Machine} (hm : m.LoopFree depth)
    (harguments : Outcome.Ends (fun values m' => (∀ value ∈ values, value.LoopFree) ∧ m'.LoopFree depth)
      fun fuel => evalAll o fuel arguments m) (callee : Name) (place : Position) :
    Outcome.Ends (fun result m' => (∀ value ∈ result, value.LoopFree) ∧ m'.LoopFree depth)
      fun fuel => call o fuel callee arguments place m := by
  refine .of_succ ?_
  simp only [call]
  cases hlookup : m.lookup callee.name with
  | none => exact .failed _ m
  | some value =>
      have hvalue := hm.values.lookup hlookup
      cases value with
      | builtin f =>
          dsimp only
          split
          · refine harguments.andThen fun values m' hvalues => .ofExcept fun result hresult => ⟨?_, hvalues.2⟩
            cases happly : f.apply m'.arrays values with
            | error fault =>
                rw [happly] at hresult
                cases hresult
            | ok value =>
                rw [happly] at hresult
                cases hresult
                rintro _ ⟨⟩
                exact Value.loopFree_of_isPlain (Builtin.isPlain_of_apply happly)
          · exact .failed _ m
      | function f =>
          dsimp only
          split
          · refine harguments.andThen fun values m' hvalues => ?_
            by_cases hroom : m'.depth < Machine.maxDepth
            · simp only [if_pos hroom]
              have hframe : Frame.All Value.LoopFree (.ofArguments f.parameters values) :=
                .ofArguments hvalues.1
              rw [hvalues.2.depth_eq] at hroom
              have hpositive : 0 < depth := hvalues.2.depth_eq ▸ Nat.succ_pos _
              have hbody := hbodies hroom f.body _ hvalue (hvalues.2.push hframe)
              refine Outcome.Ends.andThen (hbody.mapAfter fun flow m' h => ?_) fun flow m' h => .done h
              exact ⟨h.1, h.2.pop hpositive⟩
            · simp only [if_neg hroom]
              exact .failed _ m'
          · exact .failed _ m
      | _ => exact .failed _ m

mutual

theorem eval_ends (hbodies : depth < Machine.maxDepth → BlocksEnd o (depth + 1)) (e : Expr) {m : Machine}
    (hm : m.LoopFree depth) :
    Outcome.Ends (fun value m' => value.LoopFree ∧ m'.LoopFree depth) fun fuel => eval o fuel e m := by
  refine .of_succ ?_
  cases e with
  | literal value place =>
      simp only [eval]
      exact .done ⟨Value.loopFree_of_isPlain (Value.isPlain_ofLiteral value), hm⟩
  | var name =>
      simp only [eval]
      cases hlookup : m.lookup name.name with
      | none => exact .failed _ m
      | some value => exact .done ⟨hm.values.lookup hlookup, hm⟩
  | unary op operand place =>
      simp only [eval]
      refine (eval_ends hbodies operand hm).andThen fun value m' hvalue => .ofExcept fun result hresult => ?_
      exact ⟨Value.loopFree_of_isPlain (UnaryOp.isPlain_of_apply hresult), hvalue.2⟩
  | binary left op right place =>
      simp only [eval]
      refine (eval_ends hbodies left hm).andThen fun value m' hvalue => ?_
      split
      · exact .done hvalue
      · refine (eval_ends hbodies right hvalue.2).andThen fun value m' hvalue => .ofExcept fun result hresult => ?_
        exact ⟨Value.loopFree_of_isPlain (BinaryOp.isPlain_of_apply hresult), hvalue.2⟩
  | index target index place =>
      simp only [eval]
      refine (eval_ends hbodies index hm).andThen fun i m' hi => ?_
      refine (eval_ends hbodies target hi.2).andThen fun value m' hvalue => ?_
      cases helement : m'.element o value i target.subject place with
      | error error => exact .failed error m'
      | ok result =>
          exact .done ⟨hvalue.2.values.element (fun _ => Value.loopFree_of_isPlain rfl) helement, hvalue.2⟩
  | call callee arguments place =>
      simp only [eval]
      have hcall := call_ends hbodies hm (evalAll_ends hbodies arguments hm) callee place
      refine hcall.andThen fun result m' hresult => ?_
      cases result with
      | none => exact .failed _ m'
      | some value => exact .done ⟨hresult.1 value rfl, hresult.2⟩

theorem evalAll_ends (hbodies : depth < Machine.maxDepth → BlocksEnd o (depth + 1)) (es : List Expr) {m : Machine}
    (hm : m.LoopFree depth) :
    Outcome.Ends (fun values m' => (∀ value ∈ values, value.LoopFree) ∧ m'.LoopFree depth)
      fun fuel => evalAll o fuel es m := by
  refine .of_succ ?_
  cases es with
  | nil =>
      simp only [evalAll]
      exact .done ⟨List.forall_mem_nil _, hm⟩
  | cons e rest =>
      simp only [evalAll]
      refine (eval_ends hbodies e hm).andThen fun value m' hvalue => ?_
      refine (evalAll_ends hbodies rest hvalue.2).andThen fun values m' hvalues => ?_
      exact .done ⟨List.forall_mem_cons.2 ⟨hvalue.1, hvalues.1⟩, hvalues.2⟩

end

mutual

theorem exec_ends (hbodies : depth < Machine.maxDepth → BlocksEnd o (depth + 1)) (s : Statement)
    (hs : s.isLoopFree = true) {m : Machine} (hm : m.LoopFree depth) :
    Outcome.Ends (fun flow m' => flow.LoopFree ∧ m'.LoopFree depth) fun fuel => exec o fuel s m := by
  have hnext : Flow.LoopFree .next := Flow.loopFree_of_result rfl
  refine .of_succ ?_
  cases s with
  | assign target value =>
      cases target with
      | var name =>
          simp only [exec]
          refine (eval_ends hbodies value hm).andThen fun value m' hvalue => ?_
          exact .done ⟨hnext, hvalue.2.assign hvalue.1 name.name⟩
      | element name index =>
          simp only [exec]
          refine (eval_ends hbodies value hm).andThen fun value m' hvalue => ?_
          split
          · refine (eval_ends hbodies index (hvalue.2.elementOwner name.name)).andThen fun i m'' hi => ?_
            cases hwrite : m''.elementWrite o name (m'.elementOwner name.name).1 i value index.position with
            | error error => exact .failed error m''
            | ok write =>
                have hwritten := Machine.elementWrite_value (fun _ => Value.loopFree_of_isPlain rfl) hvalue.1 hwrite
                exact .done ⟨hnext, hi.2.perform hwritten⟩
          · exact .failed _ _
  | call callee arguments place =>
      simp only [exec]
      have hcall := call_ends hbodies hm (evalAll_ends hbodies arguments hm) callee place
      exact hcall.andThen fun result m' hresult => .done ⟨hnext, hresult.2⟩
  | whileLoop condition body place => cases hs
  | forLoop counter start second last body place => cases hs
  | branch condition body otherwise place =>
      simp only [exec]
      refine (eval_ends hbodies condition hm).andThen fun value m' hvalue => ?_
      cases value with
      | bool truth =>
          cases otherwise with
          | none =>
              cases truth with
              | false => exact .done ⟨hnext, hvalue.2⟩
              | true => exact block_ends hbodies body hs hvalue.2
          | some otherwise =>
              obtain ⟨hbody, hotherwise⟩ := Bool.and_eq_true_iff.1 hs
              cases truth with
              | false => exact block_ends hbodies otherwise hotherwise hvalue.2
              | true => exact block_ends hbodies body hbody hvalue.2
      | _ => exact .failed _ m'
  | function name parameters body place =>
      simp only [exec]
      have hfunction : (m.newFunction (parameters.map Name.name) body).1.LoopFree := hs
      have hnew : (m.newFunction (parameters.map Name.name) body).2.LoopFree depth :=
        ⟨hm.values.newFunction _ body, hm.depth_eq⟩
      exact .done ⟨hnext, hnew.define hfunction name.name⟩
  | giveBack value place =>
      cases value with
      | none =>
          simp only [exec]
          exact .done ⟨Flow.loopFree_of_result rfl, hm⟩
      | some e =>
          have heval := eval_ends hbodies e hm
          cases e with
          | call callee arguments place =>
              simp only [exec]
              have hcall := call_ends hbodies hm (evalAll_ends hbodies arguments hm) callee place
              exact hcall.andThen fun result m' hresult => .done hresult
          | _ =>
              simp only [exec]
              refine heval.andThen fun value m' hvalue => .done ⟨?_, hvalue.2⟩
              rintro _ ⟨⟩
              exact hvalue.1
  | print e place =>
      simp only [exec]
      refine (eval_ends hbodies e hm).andThen fun value m' hvalue => ?_
      exact .done ⟨hnext, hvalue.2.values.print value, hvalue.2.depth_eq⟩

theorem block_ends (hbodies : depth < Machine.maxDepth → BlocksEnd o (depth + 1)) (b : Block)
    (hb : Statement.allLoopFree b = true) {m : Machine} (hm : m.LoopFree depth) :
    Outcome.Ends (fun flow m' => flow.LoopFree ∧ m'.LoopFree depth) fun fuel => execBlock o fuel b m := by
  refine .of_succ ?_
  cases b with
  | nil =>
      simp only [execBlock]
      exact .done ⟨Flow.loopFree_of_result rfl, hm⟩
  | cons s rest =>
      obtain ⟨hs, hrest⟩ := Bool.and_eq_true_iff.1 hb
      simp only [execBlock]
      refine (exec_ends hbodies s hs hm).andThen fun flow m' hflow => ?_
      cases flow with
      | next => exact block_ends hbodies rest hrest hflow.2
      | giveBack value => exact .done hflow

end

/-! ### Evaluation in all frames -/

/-- With however many frames a block is executed, it ends. -/
theorem blocksEnd (o : Origins) (depth : Nat) : BlocksEnd o depth := by
  -- The induction is on the number of frames that there is still room for.
  induction hroom : Machine.maxDepth - depth generalizing depth with
  | zero =>
      intro b m hb hm
      exact block_ends (fun hlt => absurd hroom (Nat.sub_ne_zero_of_lt hlt)) b hb hm
  | succ room ih =>
      intro b m hb hm
      exact block_ends (fun _ => ih (depth + 1) (by omega)) b hb hm

theorem execProgram_ends (o : Origins) {p : Program} (hp : Statement.allLoopFree p = true) {m : Machine}
    (hm : m.LoopFree depth) :
    Outcome.Ends (fun _ m' => m'.LoopFree depth) fun fuel => execProgram o fuel p m := by
  induction p generalizing m with
  | nil => exact .done hm
  | cons s rest ih =>
      obtain ⟨hs, hrest⟩ := Bool.and_eq_true_iff.1 hp
      simp only [execProgram]
      exact (exec_ends (fun _ => blocksEnd o (depth + 1)) s hs hm).andThen fun flow m' hflow => ih hrest hflow.2

/-! ### Calls without a frame left -/

namespace Outcome

variable {α β : Type}

/-- Whether there is a value. -/
def isDone : Outcome α → Bool
  | done _ _ => true
  | failed _ _ | outOfFuel => false

theorem exists_of_isDone_andThen {first : Outcome α} {next : α → Machine → Outcome β}
    (h : (first.andThen next).isDone = true) :
    ∃ value m, first = .done value m ∧ (next value m).isDone = true := by
  cases first with
  | done value m => exact ⟨value, m, rfl, h⟩
  | failed error m => cases h
  | outOfFuel => cases h

theorem isDone_of_bound {place : Position} {outcome : Outcome Value}
    (h : (outcome.bound place).isDone = true) : outcome.isDone = true := by
  obtain ⟨value, m, rfl, -⟩ := exists_of_isDone_andThen h
  rfl

theorem isDone_of_mapAfter {outcome : Outcome α} {change : Machine → Machine}
    (h : (outcome.mapAfter change).isDone = true) : outcome.isDone = true := by
  cases outcome with
  | done value m => rfl
  | failed error m => cases h
  | outOfFuel => cases h

end Outcome

def AllDone (o : Origins) (fuel : Nat) (parts : List (Task × Machine)) : Prop :=
  ∀ part ∈ parts, (part.1.run o fuel part.2).isDone = true

namespace AllDone

variable {fuel : Nat} {α β : Type}

theorem nil : AllDone o fuel [] :=
  List.forall_mem_nil _

theorem single {task : Task} {m : Machine} (h : (task.run o fuel m).isDone = true) :
    AllDone o fuel [(task, m)] :=
  List.forall_mem_singleton.2 h

/-- What goes on with the value of a first task gives a value only if that task does, and what follows it. -/
theorem cons_followed {task : Task} {m : Machine} {first : Outcome α}
    {rest : α → Machine → List (Task × Machine)} {next : α → Machine → Outcome β}
    (h : (first.andThen next).isDone = true)
    (hfirst : first.isDone = true → (task.run o fuel m).isDone = true)
    (hnext : ∀ value m, (next value m).isDone = true → AllDone o fuel (rest value m)) :
    AllDone o fuel ((task, m) :: first.followed rest) := by
  obtain ⟨value, m', rfl, hvalue⟩ := Outcome.exists_of_isDone_andThen h
  exact List.forall_mem_cons.2 ⟨hfirst rfl, hnext value m' hvalue⟩

/-- What finishes with the value of a task gives a value only if the task does. -/
theorem last {task : Task} {m : Machine} {first : Outcome α} {next : α → Machine → Outcome β}
    (h : (first.andThen next).isDone = true)
    (hfirst : first.isDone = true → (task.run o fuel m).isDone = true) : AllDone o fuel [(task, m)] := by
  obtain ⟨value, m', rfl, -⟩ := Outcome.exists_of_isDone_andThen h
  exact single (hfirst rfl)

end AllDone

namespace Task

variable {fuel : Nat} {m : Machine}

theorem allDone_parts_eval {e : Expr} (h : (PolishPseudocode.eval o (fuel + 1) e m).isDone = true) :
    AllDone o fuel ((Task.eval e).parts o fuel m) := by
  cases e with
  | literal value place => exact .nil
  | var name => exact .nil
  | unary op operand place =>
      rw [PolishPseudocode.eval] at h
      exact .last h id
  | binary left op right place =>
      rw [PolishPseudocode.eval] at h
      refine .cons_followed h id fun value m h => ?_
      split
      · exact .nil
      · rename_i hundecided
        rw [if_neg hundecided] at h
        exact .last h id
  | index target index place =>
      rw [PolishPseudocode.eval] at h
      exact .cons_followed h id fun i m h => .last h id
  | call callee arguments place =>
      rw [PolishPseudocode.eval] at h
      exact .last h id

theorem allDone_parts_call {callee : Name} {arguments : List Expr} {place : Position}
    (h : (PolishPseudocode.call o (fuel + 1) callee arguments place m).isDone = true) :
    AllDone o fuel ((Task.call callee arguments place).parts o fuel m) := by
  rw [PolishPseudocode.call] at h
  rw [parts]
  cases hlookup : m.lookup callee.name with
  | none => exact .nil
  | some value =>
      rw [hlookup] at h
      cases value with
      | builtin f =>
          dsimp only at h ⊢
          split
          · rename_i harity
            rw [if_pos harity] at h
            exact .last h id
          · exact .nil
      | function f =>
          dsimp only at h ⊢
          split
          · rename_i harity
            rw [if_pos harity] at h
            refine .cons_followed h id fun values m h => ?_
            split
            · rename_i hroom
              rw [if_pos hroom] at h
              exact .last h Outcome.isDone_of_mapAfter
            · exact .nil
          · exact .nil
      | _ => exact .nil

theorem allDone_parts_exec {s : Statement} (h : (PolishPseudocode.exec o (fuel + 1) s m).isDone = true) :
    AllDone o fuel ((Task.exec s).parts o fuel m) := by
  cases s with
  | assign target value =>
      cases target with
      | var name =>
          rw [PolishPseudocode.exec] at h
          exact .last h id
      | element name index =>
          rw [PolishPseudocode.exec] at h
          refine .cons_followed h id fun value m h => ?_
          split
          · rename_i hindexable
            dsimp only at h
            rw [if_pos hindexable] at h
            exact .last h id
          · exact .nil
  | call callee arguments place =>
      rw [PolishPseudocode.exec] at h
      exact .last h id
  | whileLoop condition body place =>
      rw [PolishPseudocode.exec] at h
      exact .single h
  | forLoop counter start second last body place =>
      rw [PolishPseudocode.exec] at h
      refine .cons_followed h Outcome.isDone_of_bound fun start m h => ?_
      refine .cons_followed h Outcome.isDone_of_bound fun second m h => ?_
      exact .cons_followed h Outcome.isDone_of_bound fun last m h => .single h
  | branch condition body otherwise place =>
      rw [PolishPseudocode.exec] at h
      refine .cons_followed h id fun (value : Value) m h => ?_
      split at h
      · exact .single h
      · exact .single h
      · exact .nil
      · cases h
  | function name parameters body place => exact .nil
  | giveBack value place =>
      cases value with
      | none => exact .nil
      | some e =>
          cases e with
          | call callee arguments place =>
              rw [PolishPseudocode.exec] at h
              exact .last h id
          | _ =>
              rw [PolishPseudocode.exec] at h
              · exact .last h id
              · intro callee arguments place hcall
                cases hcall
  | print e place =>
      rw [PolishPseudocode.exec] at h
      exact .last h id

theorem allDone_parts_loop {condition : Expr} {body : Block} {place : Position}
    (h : (PolishPseudocode.loop o (fuel + 1) condition body place m).isDone = true) :
    AllDone o fuel ((Task.loop condition body place).parts o fuel m) := by
  rw [PolishPseudocode.loop] at h
  refine .cons_followed h id fun (value : Value) m h => ?_
  split at h
  · refine .cons_followed h id fun flow m h => ?_
    cases flow with
    | next => exact .single h
    | giveBack value => exact .nil
  · exact .nil
  · cases h

theorem allDone_parts_count {counter : String} {step last : Float} {body : Block} {x : Float}
    (h : (PolishPseudocode.count o (fuel + 1) counter step last body x m).isDone = true) :
    AllDone o fuel ((Task.count counter step last body x).parts o fuel m) := by
  rw [PolishPseudocode.count] at h
  rw [parts]
  split
  · rename_i hcounts
    rw [if_pos hcounts] at h
    refine .cons_followed h id fun flow m h => ?_
    cases flow with
    | next => exact .single h
    | giveBack value => exact .nil
  · exact .nil

/-- A task gives a value only if all its parts do, with one unit of fuel less. -/
theorem allDone_parts {task : Task} (h : (task.run o (fuel + 1) m).isDone = true) :
    AllDone o fuel (task.parts o fuel m) := by
  cases task with
  | eval e => exact allDone_parts_eval h
  | evalAll es =>
      cases es with
      | nil => exact .nil
      | cons e rest =>
          rw [run, PolishPseudocode.evalAll] at h
          exact .cons_followed h id fun value m h => .last h id
  | call callee arguments place => exact allDone_parts_call h
  | exec s => exact allDone_parts_exec h
  | block b =>
      cases b with
      | nil => exact .nil
      | cons s rest =>
          rw [run, execBlock] at h
          refine .cons_followed h id fun flow m h => ?_
          cases flow with
          | next => exact .single h
          | giveBack value => exact .nil
  | loop condition body place => exact allDone_parts_loop h
  | count counter step last body x => exact allDone_parts_count h

/-- Where a task gives a value, so does every task that it comes to. -/
theorem isDone_of_mem_visits {task : Task} (h : (task.run o fuel m).isDone = true) :
    ∀ visit ∈ task.visits o fuel m, ∃ fuel', (visit.1.run o fuel' visit.2).isDone = true := by
  induction fuel generalizing task m with
  | zero =>
      rw [run_zero] at h
      cases h
  | succ fuel ih =>
      refine List.forall_mem_cons.2 ⟨⟨fuel + 1, h⟩, fun visit hvisit => ?_⟩
      obtain ⟨part, hpart, hvisit⟩ := List.mem_flatMap.1 hvisit
      exact ih (allDone_parts h part hpart) visit hvisit

/-- The call of a function of the program when there is no frame left for it. -/
def Overflows : Task → Machine → Prop
  | call callee _ _, m =>
      (∃ f, m.lookup callee.name = some (.function f)) ∧ Machine.maxDepth ≤ m.depth
  | _, _ => False

theorem not_isDone_of_overflows {task : Task} (h : task.Overflows m) (fuel : Nat) :
    (task.run o fuel m).isDone = false := by
  cases task with
  | call callee arguments place =>
      obtain ⟨⟨f, hlookup⟩, hfull⟩ := h
      cases fuel with
      | zero =>
          rw [run_zero]
          rfl
      | succ fuel =>
          rw [run, PolishPseudocode.call, hlookup]
          dsimp only
          split
          · cases harguments : PolishPseudocode.evalAll o fuel arguments m with
            | done values m' =>
                -- The arguments are computed first, and leave as many frames as there were.
                have hfull' : ¬ m'.depth < Machine.maxDepth := Nat.not_lt.2 (depth_of_evalAll harguments ▸ hfull)
                rw [Outcome.andThen, if_neg hfull']
                rfl
            | failed error m' => rfl
            | outOfFuel => rfl
          · rfl
  | _ => exact h.elim

end Task

/-- All the tasks that executing a program comes to, with the states they start in. -/
def Program.visits (o : Origins) (fuel : Nat) : Program → Machine → List (Task × Machine)
  | [], _ => []
  | s :: rest, m =>
      (Task.exec s).visits o fuel m ++ (exec o fuel s m).followed fun _ m => visits o fuel rest m

theorem Program.isDone_of_mem_visits {fuel : Nat} {p : Program} {m : Machine}
    (h : (execProgram o fuel p m).isDone = true) :
    ∀ visit ∈ p.visits o fuel m, ∃ fuel', (visit.1.run o fuel' visit.2).isDone = true := by
  induction p generalizing m with
  | nil => exact List.forall_mem_nil _
  | cons s rest ih =>
      rw [execProgram] at h
      obtain ⟨flow, m', hexec, hrest⟩ := Outcome.exists_of_isDone_andThen h
      have hfirst : ((Task.exec s).run o fuel m).isDone = true := by
        rw [Task.run, hexec]
        rfl
      intro visit hvisit
      rw [visits, hexec] at hvisit
      rcases List.mem_append.1 hvisit with hvisit | hvisit
      · exact Task.isDone_of_mem_visits hfirst visit hvisit
      · exact ih hrest visit hvisit

/-- A program without loops ends with a result, whatever it is given from outside: from some fuel on the result is
always the same one. If the run comes to the call of a function of the program with no frame left for it, as a
recursion without end does, this result is an error. -/
theorem ends_of_loopFree (o : Origins) (bindings : List (String × Datum)) {p : Program}
    (h : Statement.allLoopFree p = true) :
    ∃ fuel result, ∀ fuel' ≥ fuel, p.run? o fuel' bindings = some result
      ∧ ((∃ visit ∈ p.visits o fuel' (.initial bindings), visit.1.Overflows visit.2) →
        ∃ error output, result = .error (.stopped error output)) := by
  have hinitial : (Machine.initial bindings).LoopFree (Machine.initial bindings).depth :=
    ⟨.initial (fun _ => Value.loopFree_of_isPlain) bindings, rfl⟩
  obtain ⟨fuel, outcome, hsame, hfinishes⟩ := execProgram_ends o h hinitial
  have hsame : ∀ fuel' ≥ fuel, execProgram o fuel' p (.initial bindings) = outcome := hsame
  cases outcome with
  | done value m =>
      refine ⟨fuel, .ok m.output.toList, fun fuel' hle => ⟨?_, ?_⟩⟩
      · rw [Program.run?, hsame fuel' hle]
        rfl
      · rintro ⟨visit, hvisit, hoverflows⟩
        have hdone : (execProgram o fuel' p (.initial bindings)).isDone = true := by
          rw [hsame fuel' hle]
          rfl
        obtain ⟨fuel'', hvisited⟩ := Program.isDone_of_mem_visits hdone visit hvisit
        rw [Task.not_isDone_of_overflows hoverflows] at hvisited
        cases hvisited
  | failed error m =>
      refine ⟨fuel, .error (.stopped error m.output.toList), fun fuel' hle => ⟨?_, fun _ => ⟨error, _, rfl⟩⟩⟩
      rw [Program.run?, hsame fuel' hle]
      rfl
  | outOfFuel => exact hfinishes.elim

/-- A function that does nothing but call its argument, which is the function itself. -/
theorem ends_of_loopFree_endless :
    let call (line : Nat) : Statement := .call ⟨"f", ⟨line, 0⟩⟩ [.var ⟨"f", ⟨line, 2⟩⟩] ⟨line, 1⟩
    let p : Program := [.function ⟨"f", ⟨0, 8⟩⟩ [⟨"f", ⟨0, 10⟩⟩] [call 1] ⟨0, 0⟩, call 2]
    Statement.allLoopFree p = true
      ∧ ∃ fuel error output, error.fault = .stackOverflow
        ∧ ∀ fuel' ≥ fuel, p.run? .one fuel' [] = some (.error (.stopped error output)) := by
  intro call p
  have hfree : Statement.allLoopFree p = true := by
    decide
  obtain ⟨fuel, result, hends⟩ := ends_of_loopFree .one [] hfree
  have hfault : (p.run? .one 3001 []).any (fun result =>
      match result with
      | .error (.stopped error _) => error.fault == .stackOverflow
      | .error (.rejected _) => false
      | .error (.internal _) => false
      | .ok _ => false) = true := by
    decide +kernel
  obtain ⟨result', hrun, hfault⟩ := (Option.any_eq_true _ _).1 hfault
  have hresult := Program.run?_of_le hrun (Nat.le_max_left 3001 fuel)
  cases Option.some.inj ((hends _ (Nat.le_max_right 3001 fuel)).1.symm.trans hresult)
  split at hfault
  · rename_i error output
    exact ⟨hfree, fuel, error, output, beq_iff_eq.1 hfault, fun fuel' hle => (hends fuel' hle).1⟩
  · cases hfault
  · cases hfault
  · cases hfault

end PolishPseudocode
