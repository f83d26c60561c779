import HazardLifo.Scenario.Ending

/-!
# Scripts

What a script answers: the result and the log of each step, the state after the last one, the
tear-down, and what the tear-down left behind. Besides scripts there are two questions that need no
state: the default capacities, and the texts of a pop error.
-/

namespace HazardLifo.Scenario

namespace Session

/-- The reference counts of tables that are still alive, by name. -/
def alive (s : Session) : Datum :=
  .record <| s.known.toList.filterMap fun (name, T) =>
    if T ≠ State.defaultTable && 0 < s.state.refs T then some (name, .nat (s.state.refs T))
    else none

def defaultActive (s : Session) : Nat :=
  ((s.state.tables.get? State.defaultTable).map (·.slots.active)).getD 0

end Session

def script (steps : List Datum) : StateM Session Datum := do
  let results ← Play.runSteps steps
  let state := (← get).snapshot
  let ending ← Play.tearDown
  let session ← get
  return .record [("steps", .list results), ("state", state), ("end", .list ending),
    ("alive", session.alive), ("default_active", .nat session.defaultActive)]

def capacities : Datum :=
  .record [("default_capacity", .nat SlotTable.defaultCapacity),
    ("default_table_capacity", .nat (SlotTable.free SlotTable.defaultCapacity).capacity)]

/-- A pop error as a script writes it: null, or the capacity of the exhausted table. -/
def popError? : Datum → Option PopError
  | .null => some .empty
  | d => d.word?.map .exhausted

def describeError (a b : PopError) : Datum :=
  .record [("display", .text a.message), ("debug", .text (a.literal.render .inline)),
    ("pretty", .text (a.literal.render .indented)), ("eq", .bool (a = b)),
    ("copy_eq", .bool (a = a)), ("source", .bool false)]

def badStep (message : String) : Datum :=
  .record [("error", .text "BadStep"), ("message", .text message)]

/-- Answers one input. -/
def answer (input : Datum) : Datum :=
  match (input.field? "op").bind Datum.text? with
  | some "consts" => capacities
  | some "error" =>
    match popError? ((input.field? "a").getD .null), popError? ((input.field? "b").getD .null) with
    | some a, some b => describeError a b
    | _, _ => badStep "bad error"
  | some "scenario" =>
    ((script (((input.field? "steps").bind Datum.list?).getD [])).run {}).1
  | _ => badStep "unknown op"

end HazardLifo.Scenario
