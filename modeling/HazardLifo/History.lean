import HazardLifo.State.Lifetime

/-!
# Histories

Runs of operations that follow one another. An operation names what it works on by number, so that
operations can be left out of a run without renumbering the rest.
-/

namespace HazardLifo

variable {α : Type}

inductive Op (α : Type) where
  | newTable (T : TableId) (capacity : Nat)
  | shareTable (T : TableId)
  | dropTable (T : TableId)
  | newStack (s : StackId) (T : TableId)
  | newStackOwning (s : StackId) (T : TableId) (capacity : Nat)
  | dropStack (s : StackId)
  | push (s : StackId) (b : Block) (v : α)
  | pop (t : ThreadId) (s : StackId)
  | popWith (s : StackId) (h : HandleId)
  | reclaim (s : StackId)
  | acquire (t : ThreadId) (T : TableId) (h : HandleId)
  | release (h : HandleId)
  | publish (h : HandleId) (a : Address)
  | startThread (t : ThreadId)
  | hookExit (t : ThreadId)
  | beginExit (t : ThreadId)
  | endThread (t : ThreadId)
  deriving Repr

inductive Answer (α : Type) where
  | done
  | popped (v : α)
  | acquired (slot : Nat)
  | reclaimed (count : Nat)
  | failed (f : Failure)
  deriving Repr

namespace Answer

def ofExcept {β : Type} (f : β → Answer α) : Except Failure β → Answer α
  | .ok b => f b
  | .error e => .failed e

def ofUnit : Except Failure Unit → Answer α := ofExcept fun _ => .done

end Answer

namespace Op

variable [Disposable α]

def run : Op α → Action α (Answer α)
  | newTable T capacity => return .ofUnit (← State.newTable T capacity)
  | shareTable T => return .ofUnit (← State.shareTable T)
  | dropTable T => return .ofUnit (← State.dropTable T)
  | newStack s T => return .ofUnit (← State.newStack s T)
  | newStackOwning s T capacity => return .ofUnit (← State.newStackOwning s T capacity)
  | dropStack s => return .ofUnit (← State.dropStack s)
  | push s b v => return .ofUnit (← State.push s b v)
  | pop t s => return .ofExcept .popped (← State.pop t s)
  | popWith s h => return .ofExcept .popped (← State.popWith s h)
  | reclaim s => return .ofExcept .reclaimed (← State.reclaim s)
  | acquire t T h => return .ofExcept (fun handle => .acquired handle.slot) (← State.acquire t T h)
  | release h => return .ofUnit (← State.release h)
  | publish h a => return .ofUnit (← State.publish h a)
  | startThread t => return .ofUnit (← State.startThread t)
  | hookExit t => return .ofUnit (← State.hookExit t)
  | beginExit t => return .ofUnit (← State.beginExit t)
  | endThread t => return .ofUnit (← State.endThread t)

/-- Runs operations one after the other and lists their answers. -/
def runAll : List (Op α) → Action α (List (Answer α))
  | [] => return []
  | op :: rest => do
    let answer ← op.run
    return answer :: (← runAll rest)

end Op

/-- The states that runs of operations lead to. -/
def State.Reachable [Disposable α] (σ : State α) : Prop :=
  ∃ ops : List (Op α), (Op.runAll ops .initial).state = σ

end HazardLifo
