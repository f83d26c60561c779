import HazardLifo.Interleaved.Crew
import HazardLifo.Scenario.Result

/-!
# Concurrent steps

A step that lets a crew work on a stack. Nothing of it reaches the log; its answer tells only what
does not depend on how the workers were interleaved. A crew that pushes leaves the rest of the stack
to the step's own thread, which pops through its cache until an error. A sweep comes last.
-/

namespace HazardLifo.Scenario.Play

open Interleaved

def freedIn (events : List (Event Item)) : Nat :=
  events.countP fun e => e matches .freed ..

/-- Lets a crew work on a stack; each of its `poppers` draws a token. -/
def muster (s : StackId) (jobs : List (Job Item)) (poppers : Nat) : Play (Crew Item) := do
  let stack ← stackOf s
  let slots ← slotsOf stack.table
  let state := (← get).state
  let c := (Crew.start slots stack state.horizon state.lastToken jobs).run
  let memory := c.machine.memory
  let after : State Item :=
    { state.setSlots stack.table fun _ => memory.table with
      lifos := state.lifos.insert s (memory.toStack stack.table)
      lastToken := state.lastToken + poppers
      horizon := c.fresh }
  modify fun session => { session with state := after }
  return c

/-- Thread `t` pops until an error, at most `fuel` times; the values, the error and the number of
freed nodes. -/
def drain (t : ThreadId) (s : StackId) :
    Nat → List Item → Nat → Play (List Item × PopError × Nat)
  | 0, items, freed => return (items.reverse, .empty, freed)
  | fuel + 1, items, freed => do
    let (events, result) ← actUnseen (State.pop t s)
    match result with
    | .ok item => drain t s fuel (item :: items) (freed + freedIn events)
    | .error (.pop e) => return (items.reverse, e, freed + freedIn events)
    | .error f => throw (.ofFailure f)

/-- The report on a crew's work on stack `s`; the step runs on thread `t`. -/
def conclude (t : ThreadId) (s : StackId) (c : Crew Item) (drains : Bool) : Play Result := do
  let (drained, freed) ←
    if drains then
      let (items, stopped, freed) ← drain t s ((← stackOf s).nodes.length + 1) [] 0
      pure (some (items, stopped), freed)
    else pure (none, 0)
  let (events, _) ← actUnseen (State.reclaim s)
  let stack ← stackOf s
  return .tally
    { popped := c.popped
      empty := c.empty
      exhausted := c.exhausted
      drained := drained
      freed := c.freed + freed + freedIn events
      retired := stack.limbo.gauge.toNat }

/-- The values `first`, …, `first + n - 1`, without numbers. -/
def batch (first n : Nat) : List Item := (List.range n).map fun i => ⟨none, .nat (first + i)⟩

/-- Producers push their batches while consumers pop until nothing is left. -/
def storm (t : ThreadId) (s : StackId) (producers per consumers : Nat) : Play Result := do
  let jobs : List (Job Item) :=
    List.replicate consumers (.drain false) ++
      (List.range producers).map fun p => .push (batch (p * per) per)
  conclude t s (← muster s jobs consumers) true

def racePop (t : ThreadId) (s : StackId) (threads each : Nat) : Play Result := do
  let c ← muster s (List.replicate threads (.pop each)) (if each = 0 then 0 else threads)
  conclude t s c false

def mixed (t : ThreadId) (s : StackId) (threads each : Nat) : Play Result := do
  let jobs : List (Job Item) :=
    (List.range threads).map fun p => .alternate (batch (p * each) each) false
  let c ← muster s jobs (if each = 0 then 0 else threads)
  conclude t s c true

end HazardLifo.Scenario.Play
