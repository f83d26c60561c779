import HazardLifo.State.Pop

/-!
# Making and ending tables, stacks and threads

A table lives while something refers to it: a variable of a caller (one reference), a stack over it
(two), a handle (one). A stack that ends destroys the values it holds, from the top, and frees their
nodes; a destructor that fails stops this after its own node. The nodes in limbo are freed and the
two references given back in any case. The nodes below a failed destructor are left behind.

A thread that ends gives its cached handles back. Exit actions run between `beginExit` and
`endThread`: after the cache is gone if the thread got them before it first used its cache, else
before.
-/

namespace HazardLifo.State

variable {α : Type}

def newTable (T : TableId) (capacity : Nat) : Action α (Except Failure Unit) := do
  if ← Action.read (·.isUsed T) then return .error .absent
  else
    match SlotTable.ofCapacity capacity with
    | .error fault => return .error (.fault fault)
    | .ok slots =>
      Action.modify fun σ =>
        { σ.use T with tables := σ.tables.insert T ⟨slots, 1⟩, callerTables := T :: σ.callerTables }
      return .ok ()

/-- A caller keeps one more reference to an existing table. -/
def shareTable (T : TableId) : Action α (Except Failure Unit) := do
  if ← Action.read (·.tables.contains T) then
    Action.modify fun σ => { σ.retain T 1 with callerTables := T :: σ.callerTables }
    return .ok ()
  else return .error .absent

/-- A caller gives up a reference to a table. -/
def dropTable (T : TableId) : Action α (Except Failure Unit) := do
  if ← Action.read (·.callerTables.contains T) then
    Action.modify fun σ => { σ.letGo T with callerTables := σ.callerTables.erase T }
    return .ok ()
  else return .error .absent

def newStack (s : StackId) (T : TableId) : Action α (Except Failure Unit) := do
  if ← Action.read fun σ => σ.isUsed s || !σ.tables.contains T then return .error .absent
  else
    Action.modify fun σ => { (σ.use s).retain T 2 with lifos := σ.lifos.insert s { table := T } }
    return .ok ()

/-- Makes an empty stack with a table of its own, whose number comes after the stack's. -/
def newStackOwning (s : StackId) (T : TableId) (capacity : Nat) :
    Action α (Except Failure Unit) := do
  if ← Action.read fun σ => σ.isUsed s || T ≤ s then return .error .absent
  else
    match SlotTable.ofCapacity capacity with
    | .error fault => return .error (.fault fault)
    | .ok slots =>
      Action.modify fun σ =>
        { σ.use T with
          tables := σ.tables.insert T ⟨slots, 2⟩
          lifos := σ.lifos.insert s { table := T } }
      return .ok ()

/-- Destroys linked values from the top and frees their nodes, up to and with the first whose
destructor fails; that failure comes with the events. -/
def dismantle [Disposable α] (s : StackId) : List (Node α) → List (Event α) × Option Fault
  | [] => ([], none)
  | node :: rest =>
    match Disposable.fault? node.value with
    | some message =>
      ([.destroyed s node.block node.value, .freed s node.block], some (.destructor message))
    | none =>
      let (events, fault) := dismantle s rest
      (.destroyed s node.block node.value :: .freed s node.block :: events, fault)

/-- The linked nodes that a stack's end does not come to: those below the first whose destructor
fails. -/
def leftBehind [Disposable α] : List (Node α) → List (Node α)
  | [] => []
  | node :: rest => if (Disposable.fault? node.value).isSome then rest else leftBehind rest

def dropStack [Disposable α] (s : StackId) : Action α (Except Failure Unit) := do
  match ← Action.read (·.lifos.get? s) with
  | none => return .error .absent
  | some stack =>
    let (events, fault) := dismantle s stack.nodes
    Action.emitAll events
    Action.emitAll (stack.limbo.entries.map (.freed s))
    Action.modify fun σ =>
      { (σ.letGo stack.table).letGo stack.table with
        lifos := σ.lifos.erase s
        lost := (leftBehind stack.nodes).map (·.block) ++ σ.lost }
    match fault with
    | some fault => return .error (.fault fault)
    | none => return .ok ()

def startThread (t : ThreadId) : Action α (Except Failure Unit) := do
  if ← Action.read (·.isUsed t) then return .error .absent
  else
    Action.modify fun σ => { σ.use t with threads := σ.threads.insert t {} }
    return .ok ()

def hookExit (t : ThreadId) : Action α (Except Failure Unit) := do
  if ← Action.read (·.threads.contains t) then
    Action.modify fun σ =>
      { σ with
        threads := σ.threads.modify t fun thread =>
          { thread with actionsFirst := thread.actionsFirst || thread.cache == .untouched } }
    return .ok ()
  else return .error .absent

/-- Gives back the handles of a cache in use, which is then gone. -/
def closeCache (t : ThreadId) : Action α Unit := do
  match ← Action.read (·.cache t) with
  | .live handles =>
    Action.modify (·.setCache t .gone)
    giveBackAll handles
  | _ => return ()

/-- The thread's own code is through and its exit actions are due. -/
def beginExit (t : ThreadId) : Action α (Except Failure Unit) := do
  match ← Action.read (·.threads.get? t) with
  | none => return .error .absent
  | some thread =>
    if thread.actionsFirst then closeCache t
    return .ok ()

/-- The thread's exit actions are through. -/
def endThread (t : ThreadId) : Action α (Except Failure Unit) := do
  if ← Action.read (·.threads.contains t) then
    closeCache t
    Action.modify fun σ => { σ with threads := σ.threads.erase t }
    return .ok ()
  else return .error .absent

end HazardLifo.State
