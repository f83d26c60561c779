import HazardLifo.History
import HazardLifo.Scenario.Request
import Std.Data.TreeMap

/-!
# Sessions

The state that a script works on, together with the names that the script gives to stacks, tables,
handles and threads. A name of a table is remembered with the table that it last stood for. The
values pushed by the steps of the script are numbered in order; the log shows values, and the nodes
made for them, by these numbers.

`Play` is a computation on a session that may run into trouble; what it did before stays done.
-/

namespace HazardLifo.Scenario

/-- A pushed value, with its number if it has one. -/
structure Item where
  number : Option Nat
  value : Datum
  deriving Repr

instance : Disposable Item := ⟨fun item => item.value.fault?⟩

/-- What is wrong with a step itself. -/
inductive Complaint where
  | unknownOp (op : String)
  | missing (field : String)
  | noStack (name : String)
  | noTable (name : String)
  | noHandle (name : String)
  | noNode (k : Nat)
  | absent
  deriving DecidableEq, Repr

def Complaint.message : Complaint → String
  | unknownOp op => "unknown op " ++ op
  | missing field => "missing " ++ field
  | noStack name => "no stack " ++ name
  | noTable name => "no table " ++ name
  | noHandle name => "no handle " ++ name
  | noNode k => "no node " ++ toString k
  | absent => "nothing there"

/-- Why a step has no regular answer. -/
inductive Trouble where
  | pop (error : PopError)
  | fault (fault : Fault)
  | complaint (complaint : Complaint)
  deriving DecidableEq, Repr

def Trouble.ofFailure : Failure → Trouble
  | .pop e => .pop e
  | .fault f => .fault f
  | .absent => .complaint .absent

def Trouble.datum : Trouble → Datum
  | pop e =>
    let fields := [("error", Datum.text e.kind), ("message", .text e.message)]
    match e with
    | .empty => .record fields
    | .exhausted capacity => .record (fields ++ [("capacity", .nat capacity)])
  | fault f => .record [("error", .text "Panic"), ("message", .text f.message)]
  | complaint c => .record [("error", .text "BadStep"), ("message", .text c.message)]

/-- An address as a script sees it. -/
inductive Label where
  | nothing
  | node (k : Nat)
  /-- A node that no step of the script made. -/
  | anonymous
  | word (w : UInt64)
  deriving DecidableEq, Repr

namespace Label

def datum : Label → Datum
  | nothing => .null
  | node k => .text ("n" ++ toString k)
  | anonymous => .text "n?"
  | word w => .text ("addr:" ++ toString w.toNat)

def literal : Label → Literal
  | nothing => .nat 0
  | node k => .atom ("n" ++ toString k)
  | anonymous => .atom "n?"
  | word w => .nat w.toNat

end Label

abbrev Names := Std.TreeMap String Nat

/-- A thread of the script that is running. -/
structure Runner where
  name : String
  id : ThreadId
  exitSteps : List Datum

structure Session where
  state : State Item := .initial
  stackNames : Names := ∅
  tableNames : Names := ∅
  handleNames : Names := ∅
  /-- The tables that names of tables last stood for. -/
  known : Names := ∅
  runners : List Runner := []
  kept : List Item := []
  /-- The node made for each numbered value. -/
  numbered : Array Block := #[]
  /-- The log of the present step, the latest entry first. -/
  log : List Datum := []

namespace Session

def numberOf (s : Session) (b : Block) : Option Nat := s.numbered.findIdx? (· == b)

def label (s : Session) : Address → Label
  | .block b =>
    match s.numberOf b with
    | some k => .node k
    | none => .anonymous
  | .word w => if w = 0 then .nothing else .word w

def ownerDatum : Option Token → Datum
  | none => .null
  | some k => .nat k

def numberDatum : Option Nat → Datum
  | none => .null
  | some k => .nat k

def particulars (s : Session) : Notice → List (String × Datum)
  | .claimed _ owner slot => [("owner", .nat owner), ("slot", .nat slot)]
  | .released _ owner slot => [("owner", ownerDatum owner), ("slot", .nat slot)]
  | .exhausted _ owner capacity => [("capacity", .nat capacity), ("owner", .nat owner)]
  | .retired _ node => [("node", (s.label (.block node)).datum)]
  | .swept _ freed deferred => [("deferred", .nat deferred), ("freed", .nat freed)]

def dropEntry (item : Item) : Datum := .list [.text "drop", numberDatum item.number]

def entry (s : Session) : Event Item → Datum
  | .notice n => .list [.text n.level.label, .text n.message, .record (s.particulars n)]
  | .destroyed _ _ item => dropEntry item
  | .freed _ node => .list [.text "free", numberDatum (s.numberOf node)]

end Session

abbrev Play := ExceptT Trouble (StateM Session)

namespace Play

/-- Does something on the state, unseen by the log. -/
def actUnseen {β : Type} (x : Action Item β) : Play (List (Event Item) × β) := do
  let s ← get
  let o := x s.state
  set { s with state := o.state }
  return (o.events, o.value)

def record (entries : List Datum) : Play Unit :=
  modify fun s => { s with log := entries.reverse ++ s.log }

def act {β : Type} (x : Action Item β) : Play β := do
  let (events, value) ← actUnseen x
  record (events.map (← get).entry)
  return value

def attempt {β : Type} (x : Action Item (Except Failure β)) : Play β := do
  match ← act x with
  | .ok b => return b
  | .error f => throw (.ofFailure f)

def complain {β : Type} (c : Complaint) : Play β := throw (.complaint c)

def freshId : Play Nat := return (← get).state.horizon

/-! ## Fields and names -/

def need {β : Type} (field : String) : Option β → Play β
  | some b => return b
  | none => complain (.missing field)

def stackIn (field : String) (name : Option String) : Play StackId := do
  let name ← need field name
  match (← get).stackNames[name]? with
  | some s => return s
  | none => complain (.noStack name)

def handleIn (field : String) (name : Option String) : Play HandleId := do
  let name ← need field name
  match (← get).handleNames[name]? with
  | some h => return h
  | none => complain (.noHandle name)

def defaultName : String := "default"

def ownTableName (stack : String) : String := "@" ++ stack

/-- The table that a name stands for now. -/
def tableNamed? (s : Session) (name : String) : Option TableId :=
  if name = defaultName then some State.defaultTable
  else if name.startsWith "@" then do
    let id ← s.stackNames[(name.drop 1).toString]?
    return (← s.state.lifos.get? id).table
  else s.tableNames[name]?

def know (name : String) (T : TableId) : Play Unit :=
  modify fun s => { s with known := s.known.insert name T }

def tableIn (field : String) (name : Option String) : Play TableId := do
  let name ← need field name
  match tableNamed? (← get) name with
  | some T =>
    know name T
    return T
  | none => complain (.noTable name)

def stackOf (s : StackId) : Play (Stack Item) := do
  match (← get).state.lifos.get? s with
  | some stack => return stack
  | none => complain .absent

def handleOf (h : HandleId) : Play Handle := do
  match (← get).state.handles.get? h with
  | some handle => return handle
  | none => complain .absent

def slotsOf (T : TableId) : Play SlotTable := do
  match (← get).state.tables.get? T with
  | some shared => return shared.slots
  | none => complain .absent

def addressOf (place : Place) : Play Address := do
  match place.node with
  | some k =>
    match (← get).numbered[k]? with
    | some b => return .block b
    | none => complain (.noNode k)
  | none =>
    match place.head with
    | some name => return .ofLink (← stackOf (← stackIn "head" name)).head
    | none => return .word (.ofNat (← need "addr" place.word))

def runnerNamed (name : String) : Play ThreadId := do
  match (← get).runners.find? (·.name == name) with
  | some r => return r.id
  | none =>
    let id ← freshId
    attempt (State.startThread id)
    modify fun s => { s with runners := s.runners ++ [⟨name, id, []⟩] }
    return id

end Play

end HazardLifo.Scenario
