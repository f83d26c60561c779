import HazardLifo.Scenario.Inspect
import HazardLifo.Scenario.Teamwork

/-!
# Running steps

What each request does on the session and what it answers. Fields are looked up in a fixed order,
and the first that fails is the trouble that the step reports. A name that is given again stands for
the new thing, which exists before the old one is dropped.
-/

namespace HazardLifo.Scenario.Play

/-! ## Values -/

def pushValue (s : StackId) (v : Datum) : Play Nat := do
  let session ← get
  let k := session.numbered.size
  let b ← freshId
  attempt (State.push s b ⟨some k, v⟩)
  modify fun session => { session with numbered := session.numbered.push b }
  return k

def pushValues (s : StackId) : List Datum → Play (List Nat)
  | [] => return []
  | v :: rest => do
    let k ← pushValue s v
    return k :: (← pushValues s rest)

/-- Pops, and keeps the value or drops it. -/
def popOnce (x : Action Item (Except Failure Item)) (keep : Bool) : Play Datum := do
  let item ← attempt x
  if keep then modify fun session => { session with kept := item :: session.kept }
  else record [Session.dropEntry item]
  return item.value

def popTimes (x : Action Item (Except Failure Item)) (keep : Bool) :
    Nat → List (Except Trouble Datum) → Play (List (Except Trouble Datum))
  | 0, results => return results.reverse
  | n + 1, results => do
    match ← observing (popOnce x keep) with
    | .ok v => popTimes x keep n (.ok v :: results)
    | .error e => return (.error e :: results).reverse

def dropKept : Play Unit := do
  let kept := (← get).kept.reverse
  modify fun session => { session with kept := [] }
  record (kept.map Session.dropEntry)

/-! ## Names that are given and given up -/

def newTable (name : String) (capacity : Nat) : Play Result := do
  let T ← freshId
  attempt (State.newTable T capacity)
  let old := (← get).tableNames[name]?
  modify fun session => { session with tableNames := session.tableNames.insert name T }
  know name T
  if let some old := old then attempt (State.dropTable old)
  return .replaced old.isSome

def dropTable (name : String) : Play Result := do
  match (← get).tableNames[name]? with
  | some T =>
    modify fun session => { session with tableNames := session.tableNames.erase name }
    attempt (State.dropTable T)
    return .flag true
  | none => return .flag false

def newStack (name : String) (capacity : Option Nat) (table : Option String) : Play Result := do
  let s ← freshId
  match capacity with
  | some capacity => attempt (State.newStackOwning s (s + 1) capacity)
  | none =>
    match table with
    | some _ => attempt (State.newStack s (← tableIn "table" table))
    | none => attempt (State.newStack s State.defaultTable)
  know (ownTableName name) (← stackOf s).table
  let old := (← get).stackNames[name]?
  modify fun session => { session with stackNames := session.stackNames.insert name s }
  if let some old := old then attempt (State.dropStack old)
  return .replaced old.isSome

def dropStack (name : String) : Play Result := do
  match (← get).stackNames[name]? with
  | some s =>
    modify fun session => { session with stackNames := session.stackNames.erase name }
    attempt (State.dropStack s)
    return .flag true
  | none => return .flag false

def acquire (t : ThreadId) (T : TableId) (name : String) : Play Result := do
  let h ← freshId
  let handle ← attempt (State.acquire t T h)
  let owner := (← get).state.owner handle
  let old := (← get).handleNames[name]?
  modify fun session => { session with handleNames := session.handleNames.insert name h }
  if let some old := old then attempt (State.release old)
  return .claimed handle.slot owner

def release (name : String) : Play Result := do
  match (← get).handleNames[name]? with
  | some h =>
    modify fun session => { session with handleNames := session.handleNames.erase name }
    attempt (State.release h)
    return .flag true
  | none => return .flag false

/-- The inspection text of the thing that the first given name stands for. -/
def inspect (s h table : Option String) : Play Literal := do
  match s, h with
  | some _, _ => return (← get).stackLiteral (← stackOf (← stackIn "s" s))
  | none, some _ => return (← get).handleLiteral (← handleOf (← handleIn "h" h))
  | none, none =>
    let T ← tableIn "table" table
    return (← get).tableLiteral T

/-! ## Requests -/

/-- Carries out a request of thread `t` that neither ends a thread nor adds to its exit steps. -/
def perform (t : ThreadId) : Request → Play Result
  | .table name capacity => do
    newTable (← need "name" name) (capacity.getD SlotTable.defaultCapacity)
  | .dropTable name => do dropTable (← need "name" name)
  | .stack s capacity table => do newStack (← need "s" s) capacity table
  | .dropStack s => do dropStack (← need "s" s)
  | .push s v => do return .count (← pushValue (← stackIn "s" s) v)
  | .pushMany s vs => do
    let s ← stackIn "s" s
    return .counts (← pushValues s (← need "vs" vs))
  | .pushRange s n first => do
    let s ← stackIn "s" s
    let n ← need "n" n
    discard (pushValues s ((List.range n).map fun (i : Nat) => .int (first + i)))
    return .count (← get).numbered.size
  | .pop s keep => do
    let s ← stackIn "s" s
    return .popped (← popOnce (State.pop t s) keep)
  | .popWith s h keep => do
    let s ← stackIn "s" s
    let h ← handleIn "h" h
    return .popped (← popOnce (State.popWith s h) keep)
  | .popMany s h n keep => do
    let s ← stackIn "s" s
    match h with
    | some _ =>
      let h ← handleIn "h" h
      return .pops (← popTimes (State.popWith s h) keep (← need "n" n) [])
    | none => return .pops (← popTimes (State.pop t s) keep (← need "n" n) [])
  | .isEmpty s => do return .flag (← stackOf (← stackIn "s" s)).isEmpty
  | .retiredLen s => do return .count (← stackOf (← stackIn "s" s)).limbo.gauge.toNat
  | .reclaim s => do return .count (← attempt (State.reclaim (← stackIn "s" s)))
  | .acquire table h => do
    let T ← tableIn "table" table
    acquire t T (← need "h" h)
  | .release h => do release (← need "h" h)
  | .protect h place => do
    let a ← addressOf place
    attempt (State.publish (← handleIn "h" h) a)
    return .address ((← get).label a)
  | .clear h => do
    attempt (State.publish (← handleIn "h" h) .null)
    return .nothing
  | .handle h table => do
    let handle ← handleOf (← handleIn "h" h)
    let T ← tableIn "table" table
    return .handle handle.slot ((← get).state.owner handle) (handle.table == T)
  | .sameTable a b => do
    let T ← tableIn "a" a
    return .flag (T == (← tableIn "b" b))
  | .isProtected table place => do
    let a ← addressOf place
    let T ← tableIn "table" table
    return .flag ((← get).state.publishes T a)
  | .active table => do return .count (← slotsOf (← tableIn "table" table)).active
  | .capacity table => do return .count (← slotsOf (← tableIn "table" table)).capacity
  | .refs table => do
    let name ← need "table" table
    let session ← get
    return .count ((session.known[name]?.map session.state.refs).getD 0)
  | .dropKept => do
    dropKept
    return .nothing
  | .debug s h table layout => do return .text ((← inspect s h table).render layout)
  | .state => do return .snapshot (← get).snapshot
  | .storm s producers per consumers => do
    let s ← stackIn "s" s
    let producers ← need "producers" producers
    let per ← need "per" per
    storm t s producers per (← need "consumers" consumers)
  | .racePop s threads each => do
    let s ← stackIn "s" s
    let threads ← need "threads" threads
    racePop t s threads (← need "each" each)
  | .mixed s threads each => do
    let s ← stackIn "s" s
    let threads ← need "threads" threads
    mixed t s threads (← need "each" each)
  | .atExit _ => return .nothing
  | .join _ => complain (.unknownOp "join")
  | .unknown op => complain (.unknownOp op)
  | .nameless => complain (.missing "op")

def resultOf (x : Play Result) : StateM Session Result := do
  match ← x.run with
  | .ok result => return result
  | .error e => return .trouble e

end HazardLifo.Scenario.Play
