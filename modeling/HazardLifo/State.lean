import HazardLifo.Event
import HazardLifo.Limbo
import HazardLifo.Registry

/-!
# States

Everything that outlives an operation: the tables with their reference counts, the stacks, the
handles that callers hold, and what each running thread keeps for itself. Operations follow one
another here; what happens inside one while another runs is the matter of `HazardLifo.Interleaved`.

Tables, stacks, handles and threads go by numbers that their maker chooses. Each new number is above
all that were used before, so that none is ever used twice. A new node lies in any block that is not
in use; it may be one that was freed before, and a slot may still publish it.
-/

namespace HazardLifo

abbrev HandleId := Nat

abbrev ThreadId := Nat

/-- The right to one slot of a table. Each handle is one reference to its table. -/
@[ext]
structure Handle where
  table : TableId
  slot : Nat
  deriving DecidableEq, Repr

/-- A table that lives as long as something refers to it. -/
structure SharedTable where
  slots : SlotTable
  refs : Nat
  deriving Repr

structure Node (α : Type) where
  block : Block
  value : α
  deriving Repr

/-- A stack, its nodes from the top. It refers to its table twice: for itself and for its limbo. -/
structure Stack (α : Type) where
  table : TableId
  nodes : List (Node α) := []
  limbo : Limbo := {}
  deriving Repr

namespace Stack

variable {α : Type}

def head (s : Stack α) : Option Block := s.nodes.head?.map (·.block)

def isEmpty (s : Stack α) : Bool := s.nodes.isEmpty

def content (s : Stack α) : List α := s.nodes.map (·.value)

def blocks (s : Stack α) : List Block := s.nodes.map (·.block) ++ s.limbo.entries

end Stack

/-- The handles that a thread keeps for its own pops, at most one for each table. -/
inductive Cache where
  | untouched
  | live (handles : List Handle)
  /-- The thread is ending and has given its handles back. -/
  | gone
  deriving DecidableEq, Repr

def Cache.handles : Cache → List Handle
  | .live handles => handles
  | _ => []

structure Thread where
  /-- Drawn at the first attempt to claim a slot and kept for life. -/
  token : Option Token := none
  cache : Cache := .untouched
  /-- The thread got its first exit action before it first used its cache. At the thread's end what
  was used last goes first, so the cache is then gone before the actions run. -/
  actionsFirst : Bool := false
  deriving Repr

structure State (α : Type) where
  tables : Registry SharedTable
  lifos : Registry (Stack α)
  handles : Registry Handle
  threads : Registry Thread
  /-- The tables that callers hold a reference to, once for each reference. -/
  callerTables : List TableId
  /-- The blocks that stacks left behind at their end, because a destructor failed. They stay in use
  for good. -/
  lost : List Block
  lastToken : Token
  /-- Every number used so far is below it. -/
  horizon : Nat

namespace State

variable {α : Type}

/-- The table that every stack uses that is given no other. It is never destroyed. -/
def defaultTable : TableId := 0

def initial : State α where
  tables := (∅ : Registry SharedTable).insert defaultTable ⟨.free SlotTable.defaultCapacity, 1⟩
  lifos := ∅
  handles := ∅
  threads := ∅
  callerTables := []
  lost := []
  lastToken := 0
  horizon := defaultTable + 1

instance : Inhabited (State α) := ⟨initial⟩

def isUsed (σ : State α) (n : Nat) : Bool := n < σ.horizon

def use (σ : State α) (n : Nat) : State α := { σ with horizon := max σ.horizon (n + 1) }

def blocks (σ : State α) : List Block := σ.lost ++ σ.lifos.values.flatMap (·.blocks)

/-- The number of references to a table; a table without any does not exist. -/
def refs (σ : State α) (T : TableId) : Nat :=
  match σ.tables.get? T with
  | some shared => shared.refs
  | none => 0

def publishes (σ : State α) (T : TableId) (a : Address) : Bool :=
  match σ.tables.get? T with
  | some shared => shared.slots.publishes a
  | none => false

def owner (σ : State α) (h : Handle) : Option Token :=
  (σ.tables.get? h.table).bind (·.slots.owner h.slot)

def content (σ : State α) (s : StackId) : List α :=
  match σ.lifos.get? s with
  | some stack => stack.content
  | none => []

def setSlots (σ : State α) (T : TableId) (f : SlotTable → SlotTable) : State α :=
  { σ with tables := σ.tables.modify T fun shared => { shared with slots := f shared.slots } }

def retain (σ : State α) (T : TableId) (n : Nat) : State α :=
  { σ with tables := σ.tables.modify T fun shared => { shared with refs := shared.refs + n } }

/-- Gives one reference back; the table goes with the last. -/
def letGo (σ : State α) (T : TableId) : State α :=
  if σ.refs T ≤ 1 then { σ with tables := σ.tables.erase T }
  else { σ with tables := σ.tables.modify T fun shared => { shared with refs := shared.refs - 1 } }

theorem refs_setSlots (σ : State α) (T : TableId) (f : SlotTable → SlotTable) (T' : TableId) :
    (σ.setSlots T f).refs T' = σ.refs T' := by
  simp only [refs, setSlots, Registry.get?_modify]
  by_cases h : T' = T
  · subst h
    cases σ.tables.get? T' <;> simp
  · simp [h]

theorem refs_retain (σ : State α) (T : TableId) (n : Nat) (T' : TableId) :
    (σ.retain T n).refs T' =
      if T' = T ∧ (σ.tables.get? T).isSome then σ.refs T' + n else σ.refs T' := by
  simp only [refs, retain, Registry.get?_modify]
  by_cases h : T' = T
  · subst h
    cases σ.tables.get? T' <;> simp
  · simp [h]

theorem refs_letGo (σ : State α) (T T' : TableId) :
    (σ.letGo T).refs T' = if T' = T then σ.refs T' - 1 else σ.refs T' := by
  unfold letGo
  by_cases h : T' = T
  · subst h
    split
    · rename_i hle
      have : (σ.tables.erase T').get? T' = none := by simp [Registry.get?_erase]
      simp only [refs, this, if_true] at hle ⊢
      omega
    · simp only [refs, Registry.get?_modify, if_true]
      cases σ.tables.get? T' <;> simp
  · split <;> simp [refs, Registry.get?_erase, Registry.get?_modify, h]

def setCache (σ : State α) (t : ThreadId) (cache : Cache) : State α :=
  { σ with threads := σ.threads.modify t ({ · with cache := cache }) }

def cache (σ : State α) (t : ThreadId) : Cache :=
  match σ.threads.get? t with
  | some thread => thread.cache
  | none => .gone

end State

end HazardLifo
