import HazardLifo.Scenario.Session

/-!
# Results

What the steps of a script answer, and how each answer is written.
-/

namespace HazardLifo.Scenario

/-- What a concurrent step reports: the pops of its workers, and what became of values and nodes
while it ran. -/
structure Tally where
  popped : List Item
  empty : Nat
  exhausted : Nat
  drained : Option (List Item × PopError)
  freed : Nat
  retired : Nat

inductive Result where
  | nothing
  | flag (b : Bool)
  | count (n : Nat)
  | counts (ns : List Nat)
  | popped (v : Datum)
  | pops (results : List (Except Trouble Datum))
  | replaced (b : Bool)
  | claimed (slot : Nat) (owner : Option Token)
  | handle (slot : Nat) (owner : Option Token) (same : Bool)
  | address (l : Label)
  | text (s : String)
  | snapshot (d : Datum)
  | tally (t : Tally)
  | trouble (e : Trouble)

def sumOf (items : List Item) : Int := (items.filterMap (·.value.int?)).foldl (· + ·) 0

def textsOf (items : List Item) : List String :=
  (items.map (·.value.compact)).mergeSort fun x y => !(y < x)

/-- The number of different elements of a sorted list. -/
def distinctCount : List String → Nat
  | [] => 0
  | [_] => 1
  | x :: y :: rest => (if x = y then 0 else 1) + distinctCount (y :: rest)

namespace Tally

def datum (t : Tally) : Datum :=
  let drained := (t.drained.map (·.1)).getD []
  let all := t.popped ++ drained
  let common : List (String × Datum) :=
    [("ok", .nat t.popped.length), ("empty", .nat t.empty), ("exhausted", .nat t.exhausted),
      ("drops", .nat all.length), ("frees", .nat t.freed), ("retired", .nat t.retired)]
  match t.drained with
  | none => .record (common ++ [("values", .list ((textsOf t.popped).map .text))])
  | some (_, stopped) =>
    .record (common ++
      [("drained", .nat drained.length), ("stopped", .text stopped.kind),
        ("distinct", .nat (distinctCount (textsOf all))), ("sum", .int (sumOf all))])

end Tally

namespace Result

def poppedDatum (v : Datum) : Datum := .record [("ok", v)]

def datum : Result → Datum
  | nothing => .null
  | flag b => .bool b
  | count n => .nat n
  | counts ns => .list (ns.map .nat)
  | popped v => poppedDatum v
  | pops results =>
    .list <| results.map fun
      | .ok v => poppedDatum v
      | .error e => e.datum
  | replaced b => .record [("replaced", .bool b)]
  | claimed slot owner => .record [("slot", .nat slot), ("owner", Session.ownerDatum owner)]
  | handle slot owner same =>
    .record [("slot", .nat slot), ("owner", Session.ownerDatum owner), ("same_table", .bool same)]
  | address l => l.datum
  | text s => .text s
  | snapshot d => d
  | tally t => t.datum
  | trouble e => e.datum

end Result

end HazardLifo.Scenario
