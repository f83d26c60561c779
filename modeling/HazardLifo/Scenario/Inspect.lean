import HazardLifo.Scenario.Session

/-!
# Looking at a session

The inspection texts of tables, handles and stacks, and the snapshot of everything that has a name.
-/

namespace HazardLifo.Scenario.Session

/-! ## Inspection texts -/

/-- A word that stands alone on its cache line. -/
def padded (value : Literal) : Literal := .record "CachePadded" [("value", value)]

def slotLiteral (s : Session) (slot : Slot) : Literal :=
  .record "HazardSlot"
    [("owner", .nat (slot.owner.getD 0)), ("protected", (s.label slot.published).literal)]

def slotsLiteral (s : Session) (T : SlotTable) : Literal :=
  .record "HazardSlotTable" [("slots", .list (T.slots.map fun slot => padded (s.slotLiteral slot)))]

def tableLiteral (s : Session) (T : TableId) : Literal :=
  match s.state.tables.get? T with
  | some shared => s.slotsLiteral shared.slots
  | none => .atom "0x0"

def handleLiteral (s : Session) (h : Handle) : Literal :=
  .record "HazardHandle" [("table", s.tableLiteral h.table), ("index", .nat h.slot)]

def linkLiteral (s : Session) : Option Block → Literal
  | none => .atom "0x0"
  | some b => (s.label (.block b)).literal

def stackLiteral (s : Session) (stack : Stack Item) : Literal :=
  let table := s.tableLiteral stack.table
  let limbo : Literal :=
    .record "RetireList"
      [("head", .atom (if stack.limbo.entries.isEmpty then "0x0" else "<entry>")),
        ("len", .nat stack.limbo.gauge.toNat), ("table", table)]
  .record "LockFreeStack"
    [("head", padded (s.linkLiteral stack.head)), ("retired", limbo), ("table", table)]

/-! ## Snapshots -/

/-- The slots that are owned or publish something. -/
def slotsDatum (s : Session) (T : SlotTable) : Datum :=
  .list <| T.slots.zipIdx.filterMap fun (slot, i) =>
    if slot = {} then none
    else some (.list [.nat i, ownerDatum slot.owner, (s.label slot.published).datum])

def tableDatum (s : Session) (shared : SharedTable) : Datum :=
  .record [("capacity", .nat shared.slots.capacity), ("active", .nat shared.slots.active),
    ("refs", .nat shared.refs), ("slots", s.slotsDatum shared.slots)]

def stackDatum (s : Session) (stack : Stack Item) : Datum :=
  .record [("empty", .bool stack.isEmpty), ("head", (s.label (.ofLink stack.head)).datum),
    ("retired", .nat stack.limbo.gauge.toNat)]

def handleDatum (s : Session) (h : Handle) : Datum :=
  .list [.nat h.slot, ownerDatum (s.state.owner h)]

/-- One field for each name whose thing still exists. -/
def fieldsOf {β : Type} (names : Names) (things : Registry β) (f : β → Datum) : Datum :=
  .record (names.toList.filterMap fun (name, id) => (things.get? id).map fun b => (name, f b))

def snapshot (s : Session) : Datum :=
  .record [("tables", fieldsOf s.known s.state.tables s.tableDatum),
    ("stacks", fieldsOf s.stackNames s.state.lifos s.stackDatum),
    ("handles", fieldsOf s.handleNames s.state.handles s.handleDatum)]

end HazardLifo.Scenario.Session
