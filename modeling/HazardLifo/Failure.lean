import HazardLifo.Literal

/-!
# Failures

How an operation can fail. A `PopError` is an answer that a caller expects and handles. A `Fault`
breaks a rule of use, or comes out of the destructor of a stored value, and ends the operation at
once. `Failure.absent` is for a call on something that does not exist.
-/

namespace HazardLifo

inductive PopError where
  | empty
  | exhausted (capacity : Nat)
  deriving DecidableEq, Repr

namespace PopError

def message : PopError → String
  | .empty => "the stack is empty"
  | .exhausted capacity => "no free hazard slot, all " ++ toString capacity ++ " slots are in use"

def kind : PopError → String
  | .empty => "EmptyStack"
  | .exhausted _ => "ResourceExhausted"

def literal (e : PopError) : Literal :=
  match e with
  | .empty => .atom e.kind
  | .exhausted capacity => .record e.kind [("capacity", .nat capacity)]

end PopError

inductive Fault where
  | noSlots
  /-- The slots asked for do not fit into memory that can be addressed. -/
  | capacityOverflow
  /-- A pop was given a handle of another table than its stack's. -/
  | foreignHandle
  /-- The destructor of a stored value failed. -/
  | destructor (message : String)
  deriving DecidableEq, Repr

def Fault.message : Fault → String
  | .noSlots => "a hazard slot table needs at least one slot"
  | .capacityOverflow => "capacity overflow"
  | .foreignHandle => "hazard handle belongs to a different table"
  | .destructor message => message

inductive Failure where
  | pop (error : PopError)
  | fault (fault : Fault)
  /-- The call names something that does not exist, or gives a new thing a number used before. -/
  | absent
  deriving DecidableEq, Repr

/-- Values whose destructor may fail; `fault?` is the message it then fails with. -/
class Disposable (α : Type) where
  fault? : α → Option String

end HazardLifo
