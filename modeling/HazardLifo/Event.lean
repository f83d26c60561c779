import HazardLifo.SlotTable

/-!
# Events

What an operation lets an observer see besides its answer: notices for a log, and the ends of stored
values and of nodes, in the order in which they happen. Notices say which table or stack they come
from; the text of a log leaves that out.
-/

namespace HazardLifo

abbrev TableId := Nat

abbrev StackId := Nat

inductive Notice where
  | claimed (table : TableId) (owner : Token) (slot : Nat)
  | released (table : TableId) (owner : Option Token) (slot : Nat)
  | exhausted (table : TableId) (owner : Token) (capacity : Nat)
  | retired (stack : StackId) (node : Block)
  | swept (stack : StackId) (freed deferred : Nat)
  deriving DecidableEq, Repr

inductive Event (α : Type) where
  | notice (n : Notice)
  | destroyed (stack : StackId) (node : Block) (value : α)
  | freed (stack : StackId) (node : Block)
  deriving Repr

inductive Level where
  | trace
  | debug
  | warn
  deriving DecidableEq, Repr

def Level.label : Level → String
  | .trace => "TRACE"
  | .debug => "DEBUG"
  | .warn => "WARN"

namespace Notice

def level : Notice → Level
  | .claimed .. => .debug
  | .released .. => .debug
  | .exhausted .. => .warn
  | .retired .. => .trace
  | .swept .. => .trace

def message : Notice → String
  | .claimed .. => "claimed hazard slot"
  | .released .. => "released hazard slot"
  | .exhausted .. => "hazard slot table exhausted"
  | .retired .. => "retired protected node"
  | .swept .. => "reclaim pass"

end Notice

end HazardLifo
