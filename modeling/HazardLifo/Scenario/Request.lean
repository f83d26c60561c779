import HazardLifo.Datum
import HazardLifo.Literal

/-!
# Steps of a script

A script is a list of steps, each a record that names an operation and what it works on. A field
that is absent or of the wrong type reads as `none`; whether that is an error is decided when the
step runs, after the fields before it have been looked up.
-/

namespace HazardLifo.Scenario

/-- Three ways to give an address, tried in this order. -/
structure Place where
  node : Option Nat
  head : Option String
  word : Option Nat
  deriving Repr

inductive Request where
  | table (name : Option String) (capacity : Option Nat)
  | dropTable (name : Option String)
  | stack (s : Option String) (capacity : Option Nat) (table : Option String)
  | dropStack (s : Option String)
  | push (s : Option String) (v : Datum)
  | pushMany (s : Option String) (vs : Option (List Datum))
  | pushRange (s : Option String) (n : Option Nat) (first : Int)
  | pop (s : Option String) (keep : Bool)
  | popWith (s h : Option String) (keep : Bool)
  | popMany (s h : Option String) (n : Option Nat) (keep : Bool)
  | isEmpty (s : Option String)
  | retiredLen (s : Option String)
  | reclaim (s : Option String)
  | acquire (table h : Option String)
  | release (h : Option String)
  | protect (h : Option String) (place : Place)
  | clear (h : Option String)
  | handle (h table : Option String)
  | sameTable (a b : Option String)
  | isProtected (table : Option String) (place : Place)
  | active (table : Option String)
  | capacity (table : Option String)
  | refs (table : Option String)
  | dropKept
  | debug (s h table : Option String) (layout : Literal.Layout)
  | state
  /-- The steps are read when the thread ends. -/
  | atExit (steps : Option (List Datum))
  | join (t : String)
  | storm (s : Option String) (producers per consumers : Option Nat)
  | racePop (s : Option String) (threads each : Option Nat)
  | mixed (s : Option String) (threads each : Option Nat)
  | unknown (op : String)
  | nameless
  deriving Repr

/-- The thread that runs a step, and the thread that a step means, if it names none. -/
def mainThread : String := "main"

def threadOf (step : Datum) : String := ((step.field? "t").bind Datum.text?).getD mainThread

namespace Request

def ofDatum (step : Datum) : Request :=
  let text (name : String) := (step.field? name).bind Datum.text?
  let word (name : String) := (step.field? name).bind Datum.word?
  let flag (name : String) := ((step.field? name).bind Datum.bool?).getD false
  let list (name : String) := (step.field? name).bind Datum.list?
  let place : Place := ⟨word "node", text "head", word "addr"⟩
  match text "op" with
  | none => .nameless
  | some op =>
    match op with
    | "table" => .table (text "name") (word "capacity")
    | "drop_table" => .dropTable (text "name")
    | "stack" => .stack (text "s") (word "capacity") (text "table")
    | "drop_stack" => .dropStack (text "s")
    | "push" => .push (text "s") ((step.field? "v").getD .null)
    | "push_many" => .pushMany (text "s") (list "vs")
    | "push_range" => .pushRange (text "s") (word "n") (((step.field? "from").bind Datum.int?).getD 0)
    | "pop" => .pop (text "s") (flag "keep")
    | "pop_with" => .popWith (text "s") (text "h") (flag "keep")
    | "pop_many" => .popMany (text "s") (text "h") (word "n") (flag "keep")
    | "is_empty" => .isEmpty (text "s")
    | "retired_len" => .retiredLen (text "s")
    | "reclaim" => .reclaim (text "s")
    | "acquire" => .acquire (text "table") (text "h")
    | "release" => .release (text "h")
    | "protect" => .protect (text "h") place
    | "clear" => .clear (text "h")
    | "handle" => .handle (text "h") (text "table")
    | "same_table" => .sameTable (text "a") (text "b")
    | "is_protected" => .isProtected (text "table") place
    | "active" => .active (text "table")
    | "capacity" => .capacity (text "table")
    | "refs" => .refs (text "table")
    | "drop_kept" => .dropKept
    | "debug" =>
      .debug (text "s") (text "h") (text "table") (if flag "pretty" then .indented else .inline)
    | "state" => .state
    | "at_exit" => .atExit (list "steps")
    | "join" => .join (threadOf step)
    | "storm" => .storm (text "s") (word "producers") (word "per") (word "consumers")
    | "race_pop" => .racePop (text "s") (word "threads") (word "each")
    | "mixed" => .mixed (text "s") (word "threads") (word "each")
    | _ => .unknown op

end Request

end HazardLifo.Scenario
