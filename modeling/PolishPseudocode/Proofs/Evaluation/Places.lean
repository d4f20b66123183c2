import PolishPseudocode.Proofs.Evaluation.Task
import PolishPseudocode.Proofs.Evaluation.Values
import PolishPseudocode.Proofs.Program.Places
import PolishPseudocode.Run

/-! The places of a run. All functions that a run comes to are of its program, so there is a character at every
place in their bodies too. A run that fails does so at one of these places or, for an element that there is not,
right behind one. -/

namespace PolishPseudocode

/-! ### Values and states -/

/-- There is a character at every place in the body of a function; other values have no places. -/
def Value.Within (source : Source) : Value → Prop
  | number _ | text _ | bool _ | array _ | builtin _ => True
  | function f => Statement.AllWithin source f.body

def Frame.Within (source : Source) (frame : Frame) : Prop :=
  ∀ entry ∈ frame, entry.2.Within source

structure Machine.Within (source : Source) (m : Machine) : Prop where
  frames : ∀ frame ∈ m.frames, Frame.Within source frame
  items : ∀ id, ∀ value ∈ m.items id, value.Within source

variable {source : Source}

theorem Value.within_of_isPlain {value : Value} (h : value.isPlain = true) : value.Within source := by
  cases value with
  | function f => cases h
  | _ => trivial

namespace Machine.Within

variable {m : Machine}

/-- A state is of a source if all its values are. -/
theorem iff_all : m.Within source ↔ m.All (Value.Within source) :=
  ⟨fun h => ⟨h.frames, h.items⟩, fun h => ⟨h.frames, h.items⟩⟩

theorem lookup (h : m.Within source) {name : String} {value : Value} (hvalue : m.lookup name = some value) :
    value.Within source :=
  (iff_all.1 h).lookup hvalue

theorem define (h : m.Within source) {value : Value} (hvalue : value.Within source) (name : String) :
    (m.define name value).Within source :=
  iff_all.2 ((iff_all.1 h).define hvalue name)

theorem push (h : m.Within source) {frame : Frame} (hframe : Frame.Within source frame) :
    (m.push frame).Within source :=
  iff_all.2 ((iff_all.1 h).push hframe)

theorem pop (h : m.Within source) : m.pop.Within source :=
  iff_all.2 (iff_all.1 h).pop

theorem newFunction (h : m.Within source) (parameters : List String) (body : Block) :
    (m.newFunction parameters body).2.Within source :=
  iff_all.2 ((iff_all.1 h).newFunction parameters body)

theorem assign (h : m.Within source) {value : Value} (hvalue : value.Within source) (name : String) :
    (m.assign name value).Within source :=
  iff_all.2 ((iff_all.1 h).assign hvalue name)

theorem setItem (h : m.Within source) {value : Value} (hvalue : value.Within source) (id slot : Nat) :
    (m.setItem id slot value).Within source :=
  iff_all.2 ((iff_all.1 h).setItem hvalue id slot)

theorem print (h : m.Within source) (value : Value) : (m.print value).Within source :=
  iff_all.2 ((iff_all.1 h).print value)

theorem elementOwner (h : m.Within source) (name : String) : (m.elementOwner name).2.Within source :=
  iff_all.2 ((iff_all.1 h).elementOwner (fun _ => Value.within_of_isPlain) name)

/-- What is given from outside, and the functions of the language, have no places. -/
theorem initial (source : Source) (bindings : List (String × Datum)) : (Machine.initial bindings).Within source :=
  iff_all.2 (.initial (fun _ => Value.within_of_isPlain) bindings)

end Machine.Within

/-! ### Operations -/

def Write.Within (source : Source) : Write → Prop
  | item _ _ value => value.Within source
  | var _ value => value.Within source

namespace Machine.Within

variable {m : Machine}

theorem perform (h : m.Within source) {write : Write} (hwrite : write.Within source) :
    (m.perform write).Within source := by
  cases write with
  | item id slot value => exact h.setItem hwrite id slot
  | var name value => exact h.assign hwrite name

end Machine.Within

theorem Machine.element_placed {m : Machine} (hm : m.Within source) (o : Origins) (target index : Value)
    (subject : String) {place : Position} (hplace : source.Has place) :
    match m.element o target index subject place with
    | .ok value => value.Within source
    | .error error => source.Shows error.position := by
  rw [Machine.element.eq_def]
  cases target with
  | array id =>
      dsimp only
      cases hslot : (index.slot? o.arrays).bind fun slot => (m.items id)[slot]? with
      | none => exact hplace.shows_right
      | some value =>
          obtain ⟨slot, -, hget⟩ := Option.bind_eq_some_iff.1 hslot
          exact hm.items id value (Array.mem_of_getElem? hget)
  | text s =>
      dsimp only
      cases (index.slot? o.texts).bind fun slot => s.toList[slot]? with
      | none => exact hplace.shows_right
      | some c => trivial
  | _ => exact hplace.shows

theorem Machine.elementWrite_placed (m : Machine) (o : Origins) {name : Name} (owner index : Value) {value : Value}
    {place : Position} (hname : source.Has name.position) (hvalue : value.Within source)
    (hplace : source.Has place) :
    match m.elementWrite o name owner index value place with
    | .ok write => write.Within source
    | .error error => source.Shows error.position := by
  rw [Machine.elementWrite.eq_def]
  cases owner with
  | array id =>
      dsimp only
      cases index.slot? o.arrays with
      | none => exact hplace.shows
      | some slot =>
          dsimp only
          by_cases hgap : (m.items id).size < slot
          · rw [if_pos hgap]
            exact hplace.shows
          · rw [if_neg hgap]
            exact hvalue
  | text s =>
      dsimp only
      cases index.slot? o.texts with
      | none => exact hplace.shows
      | some slot =>
          dsimp only
          by_cases hgap : s.length < slot
          · rw [if_pos hgap]
            exact hplace.shows
          · rw [if_neg hgap]
            cases value.character? with
            | none => exact hname.shows
            | some c => trivial
  | _ => exact hname.shows

/-! ### Outcomes -/

namespace Outcome

variable {α β : Type}

/-- The value of an outcome has a property and the state is of the source, or an error is at a place of the
source. -/
def Placed (source : Source) (property : α → Prop) : Outcome α → Prop
  | done value after => property value ∧ after.Within source
  | failed error _ => source.Shows error.position
  | outOfFuel => True

namespace Placed

variable {property : α → Prop} {property' : β → Prop}

theorem andThen {first : Outcome α} {next : α → Machine → Outcome β} (h : first.Placed source property)
    (hnext : ∀ value m, property value → m.Within source → (next value m).Placed source property') :
    (first.andThen next).Placed source property' := by
  cases first with
  | done value after => exact hnext value after h.1 h.2
  | failed error after => exact h
  | outOfFuel => trivial

theorem mapAfter {outcome : Outcome α} {change : Machine → Machine} (h : outcome.Placed source property)
    (hchange : ∀ m, m.Within source → (change m).Within source) :
    (outcome.mapAfter change).Placed source property := by
  cases outcome with
  | done value after => exact ⟨h.1, hchange after h.2⟩
  | failed error after => exact h
  | outOfFuel => trivial

theorem ofExcept {m : Machine} {place : Position} {result : Except Fault α} (hm : m.Within source)
    (hplace : source.Has place) (h : ∀ value, result = .ok value → property value) :
    (Outcome.ofExcept m place result).Placed source property := by
  cases result with
  | error fault => exact hplace.shows
  | ok value => exact ⟨h value rfl, hm⟩

theorem bound {place : Position} {property : Value → Prop} {outcome : Outcome Value}
    (h : outcome.Placed source property) (hplace : source.Has place) :
    (outcome.bound place).Placed source fun _ => True := by
  refine h.andThen fun value m _ hm => ?_
  cases value with
  | number x => exact ⟨trivial, hm⟩
  | _ => exact hplace.shows

end Placed

end Outcome

def Flow.Within (source : Source) (flow : Flow) : Prop :=
  ∀ value ∈ flow.result, value.Within source

theorem Flow.Within.of_result {flow : Flow} (h : flow.result = none) : flow.Within source := by
  intro value hvalue
  rw [h] at hvalue
  cases hvalue

namespace Task

/-- There is a character at every place in a task. -/
def Within (source : Source) : Task → Prop
  | eval e => e.Within source
  | evalAll es => Expr.AllWithin source es
  | call callee arguments place =>
      source.Has callee.position ∧ Expr.AllWithin source arguments ∧ source.Has place
  | exec s => s.Within source
  | block b => Statement.AllWithin source b
  | loop condition body place => condition.Within source ∧ Statement.AllWithin source body ∧ source.Has place
  | count _ _ _ body _ => Statement.AllWithin source body

def Gives (source : Source) : (task : Task) → task.Result → Prop
  | eval _ => Value.Within source
  | evalAll _ => fun (values : List Value) => ∀ value ∈ values, value.Within source
  | call _ _ _ => fun (result : Option Value) => ∀ value ∈ result, value.Within source
  | exec _ | block _ | loop _ _ _ | count _ _ _ _ _ => Flow.Within source

end Task

/-! ### One unit of fuel more -/

/-- All tasks of the source fail only at its places, within some fuel. -/
def PlacedAt (source : Source) (o : Origins) (fuel : Nat) : Prop :=
  ∀ (task : Task) (m : Machine), task.Within source → m.Within source →
    (task.run o fuel m).Placed source (task.Gives source)

namespace PlacedAt

variable {o : Origins} {fuel : Nat} (h : PlacedAt source o fuel) {m : Machine} (hm : m.Within source)

include h hm

theorem eval {e : Expr} (he : e.Within source) :
    (PolishPseudocode.eval o (fuel + 1) e m).Placed source (Value.Within source) := by
  rw [PolishPseudocode.eval.eq_def]
  cases e with
  | literal value place => exact ⟨Value.within_of_isPlain (Value.isPlain_ofLiteral value), hm⟩
  | var name =>
      dsimp only
      split
      · rename_i value hvalue
        exact ⟨hm.lookup hvalue, hm⟩
      · exact he.shows
  | unary op operand place =>
      obtain ⟨hoperand, hplace⟩ := he
      refine (h (.eval operand) m hoperand hm).andThen fun value m hvalue hm => ?_
      exact .ofExcept hm hplace fun _ h => Value.within_of_isPlain (UnaryOp.isPlain_of_apply h)
  | binary left op right place =>
      obtain ⟨hleft, hright, hplace⟩ := he
      refine (h (.eval left) m hleft hm).andThen fun value m hvalue hm => ?_
      split
      · exact ⟨hvalue, hm⟩
      · refine (h (.eval right) m hright hm).andThen fun value m hvalue hm => ?_
        exact .ofExcept hm hplace fun _ h => Value.within_of_isPlain (BinaryOp.isPlain_of_apply h)
  | index target index place =>
      obtain ⟨htarget, hindex, hplace⟩ := he
      refine (h (.eval index) m hindex hm).andThen fun i m _ hm => ?_
      refine (h (.eval target) m htarget hm).andThen fun value m hvalue hm => ?_
      have helement := m.element_placed hm o value i target.subject hplace
      split
      · rename_i hok
        rw [hok] at helement
        exact ⟨helement, hm⟩
      · rename_i herror
        rw [herror] at helement
        exact helement
  | call callee arguments place =>
      refine (h (.call callee arguments place) m he hm).andThen fun result m hresult hm => ?_
      split
      · exact ⟨hresult _ rfl, hm⟩
      · exact he.2.2.shows

theorem evalAll {es : List Expr} (hes : Expr.AllWithin source es) :
    (PolishPseudocode.evalAll o (fuel + 1) es m).Placed source fun values =>
      ∀ value ∈ values, value.Within source := by
  cases es with
  | nil => exact ⟨List.forall_mem_nil _, hm⟩
  | cons e rest =>
      rw [PolishPseudocode.evalAll]
      refine (h (.eval e) m hes.1 hm).andThen fun value m hvalue hm => ?_
      refine (h (.evalAll rest) m hes.2 hm).andThen fun values m hvalues hm => ?_
      exact ⟨List.forall_mem_cons.2 ⟨hvalue, hvalues⟩, hm⟩

theorem call {callee : Name} {arguments : List Expr} {place : Position} (hcallee : source.Has callee.position)
    (harguments : Expr.AllWithin source arguments) (hplace : source.Has place) :
    (PolishPseudocode.call o (fuel + 1) callee arguments place m).Placed source fun result =>
      ∀ value ∈ result, value.Within source := by
  rw [PolishPseudocode.call]
  split
  · exact hcallee.shows
  · rename_i f hf
    split
    · refine (h (.evalAll arguments) m harguments hm).andThen fun values m hvalues hm => ?_
      refine .ofExcept hm hcallee fun result hresult => ?_
      cases happly : f.apply m.arrays values with
      | error fault =>
          rw [happly] at hresult
          cases hresult
      | ok value =>
          rw [happly] at hresult
          cases hresult
          rintro _ ⟨⟩
          exact Value.within_of_isPlain (Builtin.isPlain_of_apply happly)
    · exact hplace.shows
  · rename_i f hf
    have hbody : Statement.AllWithin source f.body := hm.lookup hf
    split
    · refine (h (.evalAll arguments) m harguments hm).andThen fun values m hvalues hm => ?_
      split
      · have hframe : Frame.Within source (.ofArguments f.parameters values) :=
          Frame.All.ofArguments hvalues
        have hran := (h (.block f.body) _ hbody (hm.push hframe)).mapAfter fun m => Machine.Within.pop
        exact hran.andThen fun flow m hflow hm => ⟨hflow, hm⟩
      · exact hplace.shows
    · exact hplace.shows
  · exact hplace.shows

theorem exec {s : Statement} (hs : s.Within source) :
    (PolishPseudocode.exec o (fuel + 1) s m).Placed source (Flow.Within source) := by
  have hnext : Flow.Within source .next := .of_result rfl
  cases s with
  | assign target value =>
      obtain ⟨htarget, hvalue⟩ := hs
      cases target with
      | var name =>
          rw [PolishPseudocode.exec]
          refine (h (.eval value) m hvalue hm).andThen fun value m hvalue hm => ?_
          exact ⟨hnext, hm.assign hvalue name.name⟩
      | element name index =>
          obtain ⟨hname, hindex⟩ := htarget
          rw [PolishPseudocode.exec]
          refine (h (.eval value) m hvalue hm).andThen fun value m hvalue hm => ?_
          have howner := hm.elementOwner name.name
          dsimp only
          split
          · refine (h (.eval index) _ hindex howner).andThen fun i m' _ hm' => ?_
            have hwrite := m'.elementWrite_placed o (m.elementOwner name.name).1 i hname hvalue hindex.position
            split
            · rename_i hok
              rw [hok] at hwrite
              exact ⟨hnext, hm'.perform hwrite⟩
            · rename_i herror
              rw [herror] at hwrite
              exact hwrite
          · exact hname.shows
  | call callee arguments place =>
      rw [PolishPseudocode.exec]
      exact (h (.call callee arguments place) m hs hm).andThen fun result m _ hm => ⟨hnext, hm⟩
  | whileLoop condition body place =>
      rw [PolishPseudocode.exec]
      exact h (.loop condition body place) m hs hm
  | forLoop counter start second last body place =>
      obtain ⟨-, ⟨hstart, hsecond, hlast⟩, hbody, hplace⟩ := hs
      rw [PolishPseudocode.exec]
      refine ((h (.eval start) m hstart hm).bound hplace).andThen fun start m _ hm => ?_
      refine ((h (.eval second) m hsecond hm).bound hplace).andThen fun second m _ hm => ?_
      refine ((h (.eval last) m hlast hm).bound hplace).andThen fun last m _ hm => ?_
      exact h (.count counter.name (second - start) last body start) m hbody hm
  | branch condition body otherwise place =>
      have hcondition : condition.Within source := by
        cases otherwise <;> exact hs.1
      have hbody : Statement.AllWithin source body := by
        cases otherwise <;> exact hs.2.1
      rw [PolishPseudocode.exec]
      refine (h (.eval condition) m hcondition hm).andThen fun (value : Value) m _ hm => ?_
      split
      · exact h (.block body) m hbody hm
      · exact h (.block _) m hs.2.2.1 hm
      · exact ⟨hnext, hm⟩
      · exact hcondition.position.shows
  | function name parameters body place =>
      obtain ⟨-, -, hbody, -⟩ := hs
      have hf : (m.newFunction (parameters.map Name.name) body).1.Within source := hbody
      rw [PolishPseudocode.exec]
      exact ⟨hnext, (hm.newFunction (parameters.map Name.name) body).define hf name.name⟩
  | giveBack value place =>
      cases value with
      | none =>
          rw [PolishPseudocode.exec]
          exact ⟨.of_result rfl, hm⟩
      | some e =>
          obtain ⟨he, -⟩ := hs
          have heval : (PolishPseudocode.eval o fuel e m).Placed source (Value.Within source) :=
            h (.eval e) m he hm
          cases e with
          | call callee arguments place =>
              rw [PolishPseudocode.exec]
              exact (h (.call callee arguments place) m he hm).andThen fun result m hresult hm => ⟨hresult, hm⟩
          | _ =>
              rw [PolishPseudocode.exec]
              · refine heval.andThen fun value m hvalue hm => ⟨?_, hm⟩
                rintro _ ⟨⟩
                exact hvalue
              · intro callee arguments place hcall
                cases hcall
  | print e place =>
      rw [PolishPseudocode.exec]
      exact (h (.eval e) m hs.1 hm).andThen fun value m _ hm => ⟨hnext, hm.print value⟩

theorem block {b : Block} (hb : Statement.AllWithin source b) :
    (execBlock o (fuel + 1) b m).Placed source (Flow.Within source) := by
  cases b with
  | nil => exact ⟨.of_result rfl, hm⟩
  | cons s rest =>
      rw [execBlock]
      refine (h (.exec s) m hb.1 hm).andThen fun flow m hflow hm => ?_
      cases flow with
      | next => exact h (.block rest) m hb.2 hm
      | giveBack value => exact ⟨hflow, hm⟩

theorem loop {condition : Expr} {body : Block} {place : Position} (hcondition : condition.Within source)
    (hbody : Statement.AllWithin source body) (hplace : source.Has place) :
    (PolishPseudocode.loop o (fuel + 1) condition body place m).Placed source (Flow.Within source) := by
  rw [PolishPseudocode.loop]
  refine (h (.eval condition) m hcondition hm).andThen fun (value : Value) m _ hm => ?_
  split
  · refine (h (.block body) m hbody hm).andThen fun flow m hflow hm => ?_
    cases flow with
    | next => exact h (.loop condition body place) m ⟨hcondition, hbody, hplace⟩ hm
    | giveBack value => exact ⟨hflow, hm⟩
  · exact ⟨.of_result rfl, hm⟩
  · exact hplace.shows

theorem count {body : Block} (hbody : Statement.AllWithin source body) (counter : String) (step last x : Float) :
    (PolishPseudocode.count o (fuel + 1) counter step last body x m).Placed source (Flow.Within source) := by
  rw [PolishPseudocode.count]
  split
  · have hx : (Value.number x).Within source := trivial
    refine (h (.block body) _ hbody (hm.define hx counter)).andThen fun flow m hflow hm => ?_
    cases flow with
    | next => exact h (.count counter step last body (x + step)) m hbody hm
    | giveBack value => exact ⟨hflow, hm⟩
  · exact ⟨.of_result rfl, hm⟩

end PlacedAt

theorem PlacedAt.succ {o : Origins} {fuel : Nat} (h : PlacedAt source o fuel) : PlacedAt source o (fuel + 1) := by
  intro task m htask hm
  cases task with
  | eval e => exact h.eval hm htask
  | evalAll es => exact h.evalAll hm htask
  | call callee arguments place => exact h.call hm htask.1 htask.2.1 htask.2.2
  | exec s => exact h.exec hm htask
  | block b => exact h.block hm htask
  | loop condition body place => exact h.loop hm htask.1 htask.2.1 htask.2.2
  | count counter step last body x => exact h.count hm htask counter step last x

theorem placedAt (source : Source) (o : Origins) (fuel : Nat) : PlacedAt source o fuel := by
  induction fuel with
  | zero =>
      intro task m _ _
      rw [Task.run_zero]
      trivial
  | succ fuel ih => exact ih.succ

/-! ### Whole programs -/

/-- A program with a character at each of its places fails only at places of the source. -/
theorem execProgram_placed (o : Origins) (fuel : Nat) {p : Program} (hp : Statement.AllWithin source p)
    {m : Machine} (hm : m.Within source) : (execProgram o fuel p m).Placed source fun _ => True := by
  induction p generalizing m with
  | nil => exact ⟨trivial, hm⟩
  | cons s rest ih =>
      rw [execProgram]
      exact (placedAt source o fuel (.exec s) m hp.1 hm).andThen fun flow m _ hm => ih hp.2 hm

end PolishPseudocode
