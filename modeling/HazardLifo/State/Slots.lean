import HazardLifo.Action

/-!
# Claiming slots and giving them back

A thread that claims a slot signs it with its token, which it draws at its first attempt and keeps,
also if that attempt fails. A handle given back stops publishing, frees its slot and returns its
reference to the table, in this order.
-/

namespace HazardLifo.State

variable {α : Type}

/-- The token of a thread, drawn when first asked for. -/
def token (t : ThreadId) : Action α Token := do
  match ← Action.read fun σ => (σ.threads.get? t).bind (·.token) with
  | some k => return k
  | none =>
    let k ← Action.read (·.lastToken + 1)
    Action.modify fun σ =>
      { σ with lastToken := k, threads := σ.threads.modify t ({ · with token := some k }) }
    return k

def claim (t : ThreadId) (T : TableId) : Action α (Except Failure Handle) := do
  let k ← token t
  match ← Action.read (·.tables.get? T) with
  | none => return .error .absent
  | some shared =>
    match shared.slots.claim? k with
    | some (i, slots) =>
      Action.modify fun σ => (σ.setSlots T fun _ => slots).retain T 1
      Action.notify (.claimed T k i)
      return .ok ⟨T, i⟩
    | none =>
      Action.notify (.exhausted T k shared.slots.capacity)
      return .error (.pop (.exhausted shared.slots.capacity))

def giveBack (h : Handle) : Action α Unit := do
  let k ← Action.read (·.owner h)
  Action.modify (·.setSlots h.table (·.release h.slot))
  Action.notify (.released h.table k h.slot)
  Action.modify (·.letGo h.table)

def giveBackAll : List Handle → Action α Unit
  | [] => return ()
  | h :: rest => do
    giveBack h
    giveBackAll rest

/-! ## Handles in the hands of callers -/

/-- Thread `t` claims a slot of table `T`, as handle `h`. -/
def acquire (t : ThreadId) (T : TableId) (h : HandleId) : Action α (Except Failure Handle) := do
  if ← Action.read fun σ => σ.isUsed h || !σ.threads.contains t || !σ.tables.contains T then
    return .error .absent
  else
    match ← claim t T with
    | .error e => return .error e
    | .ok handle =>
      Action.modify fun σ => { σ.use h with handles := σ.handles.insert h handle }
      return .ok handle

def release (h : HandleId) : Action α (Except Failure Unit) := do
  match ← Action.read (·.handles.get? h) with
  | none => return .error .absent
  | some handle =>
    Action.modify fun σ => { σ with handles := σ.handles.erase h }
    giveBack handle
    return .ok ()

/-- Publishes an address through a handle; the null address withdraws the one before. -/
def publish (h : HandleId) (a : Address) : Action α (Except Failure Unit) := do
  match ← Action.read (·.handles.get? h) with
  | none => return .error .absent
  | some handle =>
    Action.modify (·.setSlots handle.table (·.publish handle.slot a))
    return .ok ()

end HazardLifo.State
