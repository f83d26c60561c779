import HazardLifo.State.Slots

/-!
# Pushing, popping and reclaiming

A pop goes through a handle of the stack's table. It unlinks the top node, clears the handle, frees
the node unless some slot publishes it (then the node goes to limbo) and sweeps the stack's limbo.

`pop` finds its handle in the calling thread's cache. It first gives back the cached handles of
tables that nothing else refers to, then takes the cached handle of the stack's table or claims one
and keeps it. A thread whose cache is gone claims a slot for this one pop.
-/

namespace HazardLifo.State

variable {α : Type}

/-- Pushes a value in a new node, which lies in a block that is not in use. -/
def push (s : StackId) (b : Block) (v : α) : Action α (Except Failure Unit) := do
  if ← Action.read fun σ => σ.blocks.contains b || !σ.lifos.contains s then return .error .absent
  else
    Action.modify fun σ =>
      { σ.use b with
        lifos := σ.lifos.modify s fun stack => { stack with nodes := ⟨b, v⟩ :: stack.nodes } }
    return .ok ()

def sweep (s : StackId) : Action α Nat := do
  match ← Action.read (·.lifos.get? s) with
  | none => return 0
  | some stack =>
    if stack.limbo.entries.isEmpty then return 0
    else
      let published ← Action.read fun σ b => σ.publishes stack.table (.block b)
      let (limbo, freed) := stack.limbo.sweep published
      Action.modify fun σ => { σ with lifos := σ.lifos.modify s ({ · with limbo := limbo }) }
      Action.emitAll (freed.map (.freed s))
      Action.notify (.swept s freed.length limbo.entries.length)
      return freed.length

/-- Frees an unlinked node of the stack, or retires it if some slot publishes it. -/
def relinquish (s : StackId) (T : TableId) (b : Block) : Action α Unit := do
  if ← Action.read (·.publishes T (.block b)) then
    Action.modify fun σ =>
      { σ with
        lifos := σ.lifos.modify s fun stack => { stack with limbo := stack.limbo.retire b } }
    Action.notify (.retired s b)
  else Action.emit (.freed s b)

/-- Pops through a handle of the stack's table. -/
def popThrough (s : StackId) (h : Handle) : Action α (Except Failure α) := do
  match ← Action.read (·.lifos.get? s) with
  | none => return .error .absent
  | some stack =>
    Action.modify (·.setSlots h.table (·.publish h.slot .null))
    match stack.nodes with
    | [] => return .error (.pop .empty)
    | node :: rest =>
      Action.modify fun σ => { σ with lifos := σ.lifos.modify s ({ · with nodes := rest }) }
      relinquish s stack.table node.block
      discard (sweep s)
      return .ok node.value

/-- Gives back the handles of tables that nothing else refers to, and returns the others. -/
def prune : List Handle → Action α (List Handle)
  | [] => return []
  | h :: rest => do
    if ← Action.read (·.refs h.table == 1) then
      giveBack h
      prune rest
    else return h :: (← prune rest)

/-- The handle of table `T` in the cache of thread `t`, claimed if there is none yet. -/
def cachedHandle (t : ThreadId) (T : TableId) : Action α (Except Failure Handle) := do
  let handles ← prune (← Action.read fun σ => (σ.cache t).handles)
  Action.modify (·.setCache t (.live handles))
  match handles.find? (·.table == T) with
  | some h => return .ok h
  | none =>
    match ← claim t T with
    | .error e => return .error e
    | .ok h =>
      Action.modify (·.setCache t (.live (handles ++ [h])))
      return .ok h

def pop (t : ThreadId) (s : StackId) : Action α (Except Failure α) := do
  match ← Action.read (·.lifos.get? s), ← Action.read (·.threads.get? t) with
  | some stack, some thread =>
    match thread.cache with
    | .gone =>
      match ← claim t stack.table with
      | .error e => return .error e
      | .ok h =>
        let result ← popThrough s h
        giveBack h
        return result
    | _ =>
      match ← cachedHandle t stack.table with
      | .error e => return .error e
      | .ok h => popThrough s h
  | _, _ => return .error .absent

/-- Pops from stack `s` through handle `h` of a caller. -/
def popWith (s : StackId) (h : HandleId) : Action α (Except Failure α) := do
  match ← Action.read (·.lifos.get? s), ← Action.read (·.handles.get? h) with
  | some stack, some handle =>
    if handle.table = stack.table then popThrough s handle
    else return .error (.fault .foreignHandle)
  | _, _ => return .error .absent

/-- Frees what nothing publishes any more, and returns the number of freed nodes. -/
def reclaim (s : StackId) : Action α (Except Failure Nat) := do
  if ← Action.read (·.lifos.contains s) then return .ok (← sweep s)
  else return .error .absent

end HazardLifo.State
