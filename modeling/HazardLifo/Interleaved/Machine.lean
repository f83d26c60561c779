import HazardLifo.Interleaved.Control

/-!
# The machine

Any number of threads over one shared memory, whose accesses take effect one after the other in the
sight of all. An `Act` lets an idle thread begin an operation, lets a thread make its next access,
or moves a handle from one idle thread to another; which act comes next is open. A thread goes only
through handles that it holds.
-/

namespace HazardLifo.Interleaved

variable {α : Type}

structure Machine (α : Type) where
  memory : Memory α
  agents : List (Agent α)

inductive Act (α : Type) where
  | call (t : Nat) (command : Command α)
  | step (t : Nat)
  | receive (t : Nat) (b : Block)
  | stumble (t : Nat)
  | handOver (t u : Nat) (i : Nat)
  deriving Repr

namespace Machine

/-- A table of free slots, empty stacks, and idle threads with the given tokens. -/
def start (capacity count : Nat) (tokens : List Token) : Machine α :=
  ⟨.start capacity count, tokens.map ({ token := · })⟩

def settle (M : Machine α) (t : Nat) (a : Advance α) : Machine α × List (Mark α) :=
  (⟨a.memory, M.agents.set t a.agent⟩, a.marks)

def admits (M : Machine α) (g : Agent α) (command : Command α) : Bool :=
  g.control matches .idle &&
    command.slot?.all (g.held.contains ·) && command.stack?.all (· < M.memory.words.length)

/-- The machine after an act and what is seen of it; `none` if the act is not possible. -/
def act? (M : Machine α) : Act α → Option (Machine α × List (Mark α))
  | .call t command => do
    let g ← M.agents[t]?
    if M.admits g command then some (M.settle t ⟨M.memory, g.goTo command.entry, []⟩) else none
  | .step t => do
    let g ← M.agents[t]?
    return M.settle t (← g.step M.memory)
  | .receive t b => do
    let g ← M.agents[t]?
    return M.settle t (← g.receive M.memory b)
  | .stumble t => do
    let g ← M.agents[t]?
    return M.settle t (← g.stumble M.memory)
  | .handOver t u i => do
    let g ← M.agents[t]?
    let g' ← M.agents[u]?
    if t ≠ u ∧ i ∈ g.held ∧ g.control matches .idle ∧ g'.control matches .idle then
      let agents := (M.agents.set t { g with held := g.held.erase i }).set u
        { g' with held := i :: g'.held }
      some (⟨M.memory, agents⟩, [])
    else none

/-- The machine after a list of acts, all of them possible. -/
def run? (M : Machine α) : List (Act α) → Option (Machine α)
  | [] => some M
  | act :: rest => do
    let (M', _) ← M.act? act
    M'.run? rest

/-- The machines that some list of acts leads to. -/
def Reaches (M M' : Machine α) : Prop := ∃ acts, M.run? acts = some M'

end Machine

end HazardLifo.Interleaved
