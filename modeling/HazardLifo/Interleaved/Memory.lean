import HazardLifo.Limbo
import HazardLifo.SlotTable
import Std.Data.HashMap

/-!
# Shared memory

What threads that run at the same time work on: one table of slots, the stacks over it, each with
two head words and a gauge, and a heap of nodes and of entries that wrap retired nodes. A freed
block can be allocated again. Each allocation gets a serial number, which tells one use of a block
from the next.
-/

namespace HazardLifo.Interleaved

abbrev StackIndex := Nat

/-- What a block holds. -/
inductive Object (α : Type) where
  /-- A node of a stack; its value is taken out once. -/
  | node (value : Option α) (next : Option Block)
  | entry (node : Block) (next : Option Block)
  deriving Repr

structure Cell (α : Type) where
  serial : Nat
  object : Object α
  deriving Repr

/-- The shared words of one stack. -/
structure Words where
  top : Option Block := none
  limbo : Option Block := none
  gauge : UInt64 := 0
  deriving DecidableEq, Repr, Inhabited

/-- A word that heads a list. -/
inductive Anchor where
  | top (s : StackIndex)
  | limbo (s : StackIndex)
  deriving DecidableEq, Repr

structure Memory (α : Type) where
  table : SlotTable
  words : List Words
  heap : Std.HashMap Block (Cell α)
  /-- The number of allocations so far, and the serial number of the next. -/
  births : Nat

namespace Memory

variable {α : Type}

def start (capacity count : Nat) : Memory α := ⟨.free capacity, List.replicate count {}, ∅, 0⟩

def load (m : Memory α) : Anchor → Option Block
  | .top s => m.words[s]?.bind (·.top)
  | .limbo s => m.words[s]?.bind (·.limbo)

def store (m : Memory α) (w : Anchor) (link : Option Block) : Memory α :=
  match w with
  | .top s => { m with words := m.words.modify s ({ · with top := link }) }
  | .limbo s => { m with words := m.words.modify s ({ · with limbo := link }) }

def mapGauge (m : Memory α) (s : StackIndex) (f : UInt64 → UInt64) : Memory α :=
  { m with words := m.words.modify s fun w => { w with gauge := f w.gauge } }

def object? (m : Memory α) (b : Block) : Option (Object α) := m.heap[b]?.map (·.object)

def allocate (m : Memory α) (b : Block) (o : Object α) : Memory α :=
  { m with heap := m.heap.insert b ⟨m.births, o⟩, births := m.births + 1 }

def overwrite (m : Memory α) (b : Block) (o : Object α) : Memory α :=
  match m.heap[b]? with
  | some cell => { m with heap := m.heap.insert b { cell with object := o } }
  | none => m

def free (m : Memory α) (b : Block) : Memory α := { m with heap := m.heap.erase b }

def mapTable (m : Memory α) (f : SlotTable → SlotTable) : Memory α := { m with table := f m.table }

/-! ## Reading after a change -/

theorem object?_allocate (m : Memory α) (b : Block) (o : Object α) (b' : Block) :
    (m.allocate b o).object? b' = if b = b' then some o else m.object? b' := by
  simp only [object?, allocate, Std.HashMap.getElem?_insert, beq_iff_eq]
  split <;> simp

theorem object?_free (m : Memory α) (b b' : Block) :
    (m.free b).object? b' = if b = b' then none else m.object? b' := by
  simp only [object?, free, Std.HashMap.getElem?_erase, beq_iff_eq]
  split <;> simp

theorem object?_overwrite (m : Memory α) (b : Block) (o : Object α) (b' : Block) :
    (m.overwrite b o).object? b' =
      if b = b' then (m.object? b).map fun _ => o else m.object? b' := by
  unfold overwrite object?
  split
  · rename_i cell h
    simp only [Std.HashMap.getElem?_insert, beq_iff_eq]
    split <;> simp [h]
  · rename_i h
    split
    · rename_i hb
      subst hb
      simp [h]
    · rfl

@[simp] theorem table_store (m : Memory α) (w : Anchor) (link : Option Block) :
    (m.store w link).table = m.table := by
  cases w <;> rfl

@[simp] theorem table_overwrite (m : Memory α) (b : Block) (o : Object α) :
    (m.overwrite b o).table = m.table := by
  unfold overwrite
  split <;> rfl

end Memory

end HazardLifo.Interleaved
