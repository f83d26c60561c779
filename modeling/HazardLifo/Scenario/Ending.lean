import HazardLifo.Scenario.Step

/-!
# The ends of threads and of scripts

A thread that ends runs its exit steps, each of them logged with its events first and then its
result, and gives its cached handles back. A script ends with all threads that still run, in the
order of their start, then the handles and the stacks by name, the tables, and the kept values.
-/

namespace HazardLifo.Scenario.Play

def runExitSteps (t : ThreadId) : List Datum → Play Unit
  | [] => return ()
  | step :: rest => do
    let result ← (resultOf (perform t (.ofDatum step)) : StateM Session Result)
    record [.list [.text "exit", result.datum]]
    runExitSteps t rest

def endRunner (r : Runner) : Play Unit := do
  attempt (State.beginExit r.id)
  runExitSteps r.id r.exitSteps
  attempt (State.endThread r.id)
  modify fun session => { session with runners := session.runners.filter (·.id != r.id) }

/-- Ends the thread of the given name; was it running? -/
def join (name : String) : Play Result := do
  match (← get).runners.find? (·.name == name) with
  | some r =>
    endRunner r
    return .flag true
  | none => return .flag false

def atExit (t : ThreadId) (steps : List Datum) : Play Result := do
  attempt (State.hookExit t)
  modify fun session =>
    { session with
      runners := session.runners.map fun r =>
        if r.id = t then { r with exitSteps := r.exitSteps ++ steps } else r }
  return .nothing

/-- Runs a step on the thread that it names. Joining a thread does not start it. -/
def runStep (step : Datum) : Play Result := do
  match Request.ofDatum step with
  | .join name => join name
  | request =>
    let t ← runnerNamed (threadOf step)
    match request with
    | .atExit steps => do atExit t (← need "steps" steps)
    | request => perform t request

/-- What a computation answers and logs. -/
def logged {β : Type} (x : StateM Session β) : StateM Session (β × Datum) := do
  modify fun session => { session with log := [] }
  let b ← x
  return (b, .list (← get).log.reverse)

def logOf (x : Play Unit) : StateM Session Datum := do
  return (← logged x.run).2

def runSteps : List Datum → StateM Session (List Datum)
  | [] => return []
  | step :: rest => do
    let (result, log) ← logged (resultOf (runStep step))
    return .record [("r", result.datum), ("log", log)] :: (← runSteps rest)

/-! ## Tear-down -/

def endThreads : List Runner → StateM Session (List Datum)
  | [] => return []
  | r :: rest => do
    let log ← logOf (endRunner r)
    return .list [.text "thread", .text r.name, log] :: (← endThreads rest)

def endHandles : List (String × HandleId) → StateM Session (List Datum)
  | [] => return []
  | (name, _) :: rest => do
    let log ← logOf (discard (release name))
    return .list [.text "handle", .text name, log] :: (← endHandles rest)

def endStacks : List (String × StackId) → StateM Session (List Datum)
  | [] => return []
  | (name, _) :: rest => do
    let (result, log) ← logged (resultOf (do discard (dropStack name); return .nothing))
    return .list [.text "stack", .text name, log, result.datum] :: (← endStacks rest)

def endTables : List (String × TableId) → StateM Session Unit
  | [] => return ()
  | (name, _) :: rest => do
    discard (dropTable name).run
    endTables rest

/-- Ends everything that is left. -/
def tearDown : StateM Session (List Datum) := do
  let threads ← endThreads (← get).runners
  let handles ← endHandles (← get).handleNames.toList
  let ended ← endStacks (← get).stackNames.toList
  endTables (← get).tableNames.toList
  let kept ← logOf dropKept
  return threads ++ handles ++ ended ++ [.list [.text "kept", kept]]

end HazardLifo.Scenario.Play
