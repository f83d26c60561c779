import HazardLifo.Interleaved.Image
import HazardLifo.Interleaved.Machine

/-!
# Crews

Workers, each a thread with a job on one shared stack, that run at the same time. They take turns,
one access each, until every job is done. A worker that pops acquires a slot at its first pop and
keeps it until all workers are through; so of `n` workers that pop while `f` slots are free,
`min f n` get one.
-/

namespace HazardLifo.Interleaved

variable {α : Type}

inductive Job (α : Type) where
  | push (values : List α)
  | pop (turns : Nat)
  /-- Push each value and pop after each push; `due` if the next turn is a pop. -/
  | alternate (values : List α) (due : Bool)
  /-- Pop until nothing is being pushed and the stack is empty, or no slot is free; `last` if
  nothing was being pushed any more when the present pop began. -/
  | drain (last : Bool)
  deriving Repr

inductive Wish (α : Type) where
  | push (v : α)
  | pop

namespace Job

def wish : Job α → Option (Wish α)
  | push [] | pop 0 | alternate [] false => none
  | push (v :: _) | alternate (v :: _) false => some (.push v)
  | pop (_ + 1) | alternate _ true | drain _ => some .pop

/-- The job that is left after a push or an attempt to pop. -/
def after (job : Job α) (reply : Reply α) : Job α :=
  match job, reply with
  | push (_ :: rest), _ => push rest
  | pop (turns + 1), _ => pop turns
  | alternate (_ :: rest) false, _ => alternate rest true
  | alternate values true, _ => alternate values false
  | drain _, .exhausted _ => pop 0
  | drain last, .empty => if last then pop 0 else drain false
  | job, _ => job

/-- Whether an empty stack only means to the worker that it has to look again. -/
def patient : Job α → Bool
  | drain _ => true
  | _ => false

def produces : Job α → Bool
  | push (_ :: _) => true
  | _ => false

def size : Job α → Nat
  | push values => values.length
  | pop turns => turns
  | alternate values _ => 2 * values.length + 1
  | drain _ => 1

end Job

structure Worker (α : Type) where
  job : Job α
  slot : Option Nat := none

structure Crew (α : Type) where
  machine : Machine α
  /-- The worker at an index is the machine's thread of that index. -/
  workers : List (Worker α)
  /-- Blocks from here on have never been in use. -/
  fresh : Block
  popped : List α := []
  /-- The pops that found the stack empty, but for those of patient workers. -/
  empty : Nat := 0
  exhausted : Nat := 0
  freed : Nat := 0

namespace Crew

def start (table : SlotTable) (stack : Stack α) (horizon lastToken : Nat) (jobs : List (Job α)) :
    Crew α where
  machine :=
    { memory := .ofStack table stack horizon
      agents := jobs.mapIdx fun i _ => { token := lastToken + 1 + i } }
  workers := jobs.map ({ job := · })
  fresh := horizon + stack.limbo.entries.length

def through (c : Crew α) : Bool := c.workers.all (·.job.wish.isNone)

def producing (c : Crew α) : Bool := c.workers.any (·.job.produces)

def done (c : Crew α) : Bool :=
  c.workers.all (fun w => w.job.wish.isNone && w.slot.isNone) &&
    c.machine.agents.all (·.control matches .idle)

def note (c : Crew α) (t : Nat) (mark : Mark α) : Crew α :=
  match mark with
  | .freed .. => { c with freed := c.freed + 1 }
  | .returned reply =>
    let workers := c.workers.modify t fun w => { w with job := w.job.after reply }
    match reply with
    | .acquired i => { c with workers := c.workers.modify t ({ · with slot := some i }) }
    | .exhausted _ => { c with workers := workers, exhausted := c.exhausted + 1 }
    | .empty =>
      let misses := if c.workers[t]?.any (·.job.patient) then 0 else 1
      { c with workers := workers, empty := c.empty + misses }
    | .popped v => { c with workers := workers, popped := v :: c.popped }
    | .done | .reclaimed _ => { c with workers := workers }
  | _ => c

def perform (c : Crew α) (t : Nat) (act : Act α) : Crew α :=
  match c.machine.act? act with
  | some (machine, marks) => marks.foldl (·.note t) { c with machine := machine }
  | none => c

def begin (c : Crew α) (t : Nat) (w : Worker α) : Crew α :=
  match w.job.wish, w.slot with
  | some (.push v), _ => c.perform t (.call t (.push 0 v))
  | some .pop, none => c.perform t (.call t .acquire)
  | some .pop, some i =>
    let c :=
      match w.job with
      | .drain _ =>
        { c with workers := c.workers.modify t ({ · with job := .drain (!c.producing) }) }
      | _ => c
    c.perform t (.call t (.pop 0 i))
  | none, some i =>
    if c.through then
      { c with workers := c.workers.modify t ({ · with slot := none }) }.perform t
        (.call t (.release i))
    else c
  | none, none => c

def turn (c : Crew α) (t : Nat) : Crew α :=
  match c.machine.agents[t]?, c.workers[t]? with
  | some g, some w =>
    match g.control with
    | .idle => c.begin t w
    | .making .. | .wrapping .. =>
      { c with fresh := c.fresh + 1 }.perform t (.receive t c.fresh)
    | _ => c.perform t (.step t)
  | _, _ => c

def round (c : Crew α) : Crew α := (List.range c.workers.length).foldl turn c

/-- Rounds until the crew is done, at most `fuel` of them. -/
def work : Nat → Crew α → Crew α
  | 0, c => c
  | fuel + 1, c => if c.done then c else work fuel c.round

/-- More rounds than a crew needs: every attempt can look at each slot for itself and for each entry
in limbo, and has to start over at most once for each other attempt. -/
def patience (c : Crew α) : Nat :=
  let attempts := c.workers.foldl (fun n w => n + w.job.size + 1) 0 + c.machine.memory.heap.size
  let look := c.machine.memory.table.capacity + 16
  (attempts + 2) * look * (c.machine.memory.heap.size + c.workers.length + 2) +
    16 * (attempts + 2) * (attempts + 2)

def run (c : Crew α) : Crew α := work c.patience c

end Crew

end HazardLifo.Interleaved
