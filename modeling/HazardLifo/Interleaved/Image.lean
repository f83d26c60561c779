import HazardLifo.Interleaved.Memory
import HazardLifo.State

/-!
# A stack laid out in memory

The memory that holds one given stack, its nodes linked from the top and its limbo from the head,
and the stack that is read back from a memory by following the links.
-/

namespace HazardLifo.Interleaved.Memory

variable {α : Type}

def placeNodes (m : Memory α) : List (Node α) → Memory α
  | [] => m
  | node :: rest =>
    (m.placeNodes rest).allocate node.block
      (.node (some node.value) (rest.head?.map (·.block)))

/-- Lays out retired nodes, whose values are gone, and entries around them from block `e` on. -/
def placeLimbo (m : Memory α) (e : Block) : List Block → Memory α
  | [] => m
  | b :: rest =>
    let m := (m.placeLimbo (e + 1) rest).allocate b (.node none none)
    m.allocate e (.entry b (if rest.isEmpty then none else some (e + 1)))

/-- A stack over a table. Its entries take blocks from `e` on. -/
def ofStack (table : SlotTable) (stack : Stack α) (e : Block) : Memory α :=
  let words : Words :=
    { top := stack.head
      limbo := if stack.limbo.entries.isEmpty then none else some e
      gauge := stack.limbo.gauge }
  ((⟨table, [words], ∅, 0⟩ : Memory α).placeLimbo e stack.limbo.entries).placeNodes stack.nodes

def nodes (m : Memory α) : Nat → Option Block → List (Node α)
  | 0, _ | _, none => []
  | fuel + 1, some b =>
    match m.object? b with
    | some (.node (some v) next) => ⟨b, v⟩ :: m.nodes fuel next
    | _ => []

def entries (m : Memory α) : Nat → Option Block → List Block
  | 0, _ | _, none => []
  | fuel + 1, some e =>
    match m.object? e with
    | some (.entry b rest) => b :: m.entries fuel rest
    | _ => []

/-- The only stack of the memory, read back as a stack over table `T`. -/
def toStack (m : Memory α) (T : TableId) : Stack α where
  table := T
  nodes := m.nodes m.heap.size (m.load (.top 0))
  limbo :=
    { entries := m.entries m.heap.size (m.load (.limbo 0))
      gauge := (m.words[0]?.map (·.gauge)).getD 0 }

end HazardLifo.Interleaved.Memory
