import HazardLifo.Interleaved.Memory

/-!
# Threads between two accesses

An operation is a sequence of accesses to the shared memory. `Control` says which access comes next
and what the thread remembers until then; `Agent.step` makes that access. Between two accesses of
one thread any other thread may run.

Three accesses depend on more than the memory: an allocation gets some block that is not in use, and
the exchange that links a block may fail without cause. A thread that reads, writes or frees a block
that does not hold what it expects has crashed.
-/

namespace HazardLifo.Interleaved

/-- A sweep under way. -/
structure Pass (α : Type) where
  stack : StackIndex
  /-- The value that the operation answers with in the end, if it is a pop. -/
  result : Option α
  freed : Nat := 0
  deferred : Nat := 0
  deriving Repr

/-- What a thread does once the block is linked. -/
inductive Errand (α : Type) where
  | push
  | retire (s : StackIndex) (v : α)
  | defer (pass : Pass α) (rest : Option Block)
  deriving Repr

inductive Control (α : Type) where
  | idle
  | crashed
  -- acquire
  | trying (i : Nat)
  -- release
  | withdrawing (i : Nat)
  | disowning (i : Nat)
  -- publish
  | publishing (i : Nat) (a : Address)
  -- push
  | making (s : StackIndex) (v : α)
  -- linking a block under a head word
  | loading (w : Anchor) (b : Block) (errand : Errand α)
  | linking (w : Anchor) (b : Block) (seen : Option Block) (errand : Errand α)
  | swinging (w : Anchor) (b : Block) (seen : Option Block) (errand : Errand α)
  -- pop
  | locating (s : StackIndex) (i : Nat)
  | guarding (s : StackIndex) (i : Nat) (seen : Option Block)
  | validating (s : StackIndex) (i : Nat) (seen : Option Block)
  | following (s : StackIndex) (i : Nat) (b : Block)
  | unlinking (s : StackIndex) (i : Nat) (b : Block) (next : Option Block)
  | clearing (s : StackIndex) (i : Nat) (won : Option Block)
  | taking (s : StackIndex) (b : Block)
  | scanning (s : StackIndex) (b : Block) (v : α) (i : Nat)
  | freeing (s : StackIndex) (b : Block) (v : α)
  | wrapping (s : StackIndex) (b : Block) (v : α)
  | counting (s : StackIndex) (b e : Block) (v : α)
  -- sweep
  | peeking (pass : Pass α)
  | detaching (pass : Pass α)
  | walking (pass : Pass α) (e : Option Block)
  | opening (pass : Pass α) (e : Block) (rest : Option Block)
  | inspecting (pass : Pass α) (e : Block) (rest : Option Block) (b : Block) (i : Nat)
  | unwrapping (pass : Pass α) (e : Block) (rest : Option Block) (b : Block)
  | burying (pass : Pass α) (rest : Option Block) (b : Block)
  | settling (pass : Pass α)
  deriving Repr

inductive Command (α : Type) where
  | acquire
  | release (i : Nat)
  | publish (i : Nat) (a : Address)
  | push (s : StackIndex) (v : α)
  | pop (s : StackIndex) (i : Nat)
  | reclaim (s : StackIndex)
  deriving Repr

inductive Reply (α : Type) where
  | done
  | acquired (i : Nat)
  | exhausted (capacity : Nat)
  | popped (v : α)
  | empty
  | reclaimed (count : Nat)
  deriving Repr

inductive Mark (α : Type) where
  | claimed (owner : Token) (i : Nat)
  | released (owner : Option Token) (i : Nat)
  | exhausted (owner : Token) (capacity : Nat)
  | retired (s : StackIndex) (b : Block)
  | freed (s : StackIndex) (b : Block)
  | swept (s : StackIndex) (freed deferred : Nat)
  | returned (reply : Reply α)
  deriving Repr

variable {α : Type}

/-- A thread: its token, the slots of the handles that it holds, and where it is. -/
structure Agent (α : Type) where
  token : Token
  held : List Nat := []
  control : Control α := .idle
  deriving Repr

structure Advance (α : Type) where
  memory : Memory α
  agent : Agent α
  marks : List (Mark α) := []

namespace Command

def entry : Command α → Control α
  | acquire => .trying 0
  | release i => .withdrawing i
  | publish i a => .publishing i a
  | push s v => .making s v
  | pop s i => .locating s i
  | reclaim s => .peeking { stack := s, result := none }

def slot? : Command α → Option Nat
  | release i | publish i _ | pop _ i => some i
  | _ => none

def stack? : Command α → Option StackIndex
  | push s _ | pop s _ | reclaim s => some s
  | _ => none

end Command

def Pass.reply (p : Pass α) : Reply α :=
  match p.result with
  | some v => .popped v
  | none => .reclaimed p.freed

namespace Agent

def goTo (g : Agent α) (c : Control α) : Agent α := { g with control := c }

/-- Where a thread goes once its block is linked. -/
def linked (g : Agent α) (m : Memory α) : Errand α → Advance α
  | .push => ⟨m, g.goTo .idle, [.returned .done]⟩
  | .retire s v => ⟨m, g.goTo (.peeking { stack := s, result := some v }), []⟩
  | .defer pass rest =>
    ⟨m, g.goTo (.walking { pass with deferred := pass.deferred + 1 } rest), []⟩

/-- The exchange that links a block fails; the thread now knows the present head. -/
def relink (g : Agent α) (m : Memory α) (w : Anchor) (b : Block) (errand : Errand α) : Advance α :=
  ⟨m, g.goTo (.linking w b (m.load w) errand), []⟩

/-- The thread's next access. There is none for an idle or crashed thread, nor for one that waits
for a block. -/
def step (g : Agent α) (m : Memory α) : Option (Advance α) :=
  match g.control with
  | .idle | .crashed | .making .. | .wrapping .. => none
  | .trying i =>
    match m.table.slots[i]? with
    | none =>
      let c := m.table.capacity
      some ⟨m, g.goTo .idle, [.exhausted g.token c, .returned (.exhausted c)]⟩
    | some slot =>
      if slot.owner.isNone then
        some ⟨m.mapTable (·.modify i ({ · with owner := some g.token })),
          { g with held := i :: g.held, control := .idle },
          [.claimed g.token i, .returned (.acquired i)]⟩
      else some ⟨m, g.goTo (.trying (i + 1)), []⟩
  | .withdrawing i => some ⟨m.mapTable (·.publish i .null), g.goTo (.disowning i), []⟩
  | .disowning i =>
    some ⟨m.mapTable (·.modify i ({ · with owner := none })),
      { g with held := g.held.erase i, control := .idle },
      [.released (m.table.owner i) i, .returned .done]⟩
  | .publishing i a => some ⟨m.mapTable (·.publish i a), g.goTo .idle, [.returned .done]⟩
  | .loading w b errand => some (g.relink m w b errand)
  | .linking w b seen errand =>
    match m.object? b with
    | some (.node v _) =>
      some ⟨m.overwrite b (.node v seen), g.goTo (.swinging w b seen errand), []⟩
    | some (.entry n _) =>
      some ⟨m.overwrite b (.entry n seen), g.goTo (.swinging w b seen errand), []⟩
    | none => some ⟨m, g.goTo .crashed, []⟩
  | .swinging w b seen errand =>
    if m.load w = seen then some (g.linked (m.store w (some b)) errand)
    else some (g.relink m w b errand)
  | .locating s i => some ⟨m, g.goTo (.guarding s i (m.load (.top s))), []⟩
  | .guarding s i seen =>
    some ⟨m.mapTable (·.publish i (.ofLink seen)), g.goTo (.validating s i seen), []⟩
  | .validating s i seen =>
    let top := m.load (.top s)
    if top = seen then
      match seen with
      | none => some ⟨m, g.goTo (.clearing s i none), []⟩
      | some b => some ⟨m, g.goTo (.following s i b), []⟩
    else some ⟨m, g.goTo (.guarding s i top), []⟩
  | .following s i b =>
    match m.object? b with
    | some (.node _ next) => some ⟨m, g.goTo (.unlinking s i b next), []⟩
    | _ => some ⟨m, g.goTo .crashed, []⟩
  | .unlinking s i b next =>
    if m.load (.top s) = some b then
      some ⟨m.store (.top s) next, g.goTo (.clearing s i (some b)), []⟩
    else some ⟨m, g.goTo (.locating s i), []⟩
  | .clearing s i won =>
    match won with
    | none => some ⟨m.mapTable (·.publish i .null), g.goTo .idle, [.returned .empty]⟩
    | some b => some ⟨m.mapTable (·.publish i .null), g.goTo (.taking s b), []⟩
  | .taking s b =>
    match m.object? b with
    | some (.node (some v) next) =>
      some ⟨m.overwrite b (.node none next), g.goTo (.scanning s b v 0), []⟩
    | _ => some ⟨m, g.goTo .crashed, []⟩
  | .scanning s b v i =>
    match m.table.slots[i]? with
    | none => some ⟨m, g.goTo (.freeing s b v), []⟩
    | some slot =>
      if slot.published = .block b then some ⟨m, g.goTo (.wrapping s b v), []⟩
      else some ⟨m, g.goTo (.scanning s b v (i + 1)), []⟩
  | .freeing s b v =>
    match m.object? b with
    | some (.node ..) =>
      some ⟨m.free b, g.goTo (.peeking { stack := s, result := some v }), [.freed s b]⟩
    | _ => some ⟨m, g.goTo .crashed, []⟩
  | .counting s b e v =>
    some ⟨m.mapGauge s (· + 1), g.goTo (.loading (.limbo s) e (.retire s v)), [.retired s b]⟩
  | .peeking pass =>
    match m.load (.limbo pass.stack) with
    | none => some ⟨m, g.goTo .idle, [.returned pass.reply]⟩
    | some _ => some ⟨m, g.goTo (.detaching pass), []⟩
  | .detaching pass =>
    some ⟨m.store (.limbo pass.stack) none,
      g.goTo (.walking pass (m.load (.limbo pass.stack))), []⟩
  | .walking pass e =>
    match e with
    | none => some ⟨m, g.goTo (.settling pass), []⟩
    | some e =>
      match m.object? e with
      | some (.entry _ rest) => some ⟨m, g.goTo (.opening pass e rest), []⟩
      | _ => some ⟨m, g.goTo .crashed, []⟩
  | .opening pass e rest =>
    match m.object? e with
    | some (.entry b _) => some ⟨m, g.goTo (.inspecting pass e rest b 0), []⟩
    | _ => some ⟨m, g.goTo .crashed, []⟩
  | .inspecting pass e rest b i =>
    match m.table.slots[i]? with
    | none => some ⟨m, g.goTo (.unwrapping pass e rest b), []⟩
    | some slot =>
      if slot.published = .block b then
        some ⟨m, g.goTo (.loading (.limbo pass.stack) e (.defer pass rest)), []⟩
      else some ⟨m, g.goTo (.inspecting pass e rest b (i + 1)), []⟩
  | .unwrapping pass e rest b =>
    match m.object? e with
    | some (.entry ..) => some ⟨m.free e, g.goTo (.burying pass rest b), []⟩
    | _ => some ⟨m, g.goTo .crashed, []⟩
  | .burying pass rest b =>
    match m.object? b with
    | some (.node ..) =>
      some ⟨m.free b, g.goTo (.walking { pass with freed := pass.freed + 1 } rest),
        [.freed pass.stack b]⟩
    | _ => some ⟨m, g.goTo .crashed, []⟩
  | .settling pass =>
    let seen : List (Mark α) :=
      if 0 < pass.freed + pass.deferred then [.swept pass.stack pass.freed pass.deferred] else []
    some ⟨m.mapGauge pass.stack (· - UInt64.ofNat pass.freed), g.goTo .idle,
      seen ++ [.returned pass.reply]⟩

/-- The thread gets block `b` for what it wants to allocate. -/
def receive (g : Agent α) (m : Memory α) (b : Block) : Option (Advance α) :=
  if m.heap.contains b then none
  else
    match g.control with
    | .making s v =>
      some ⟨m.allocate b (.node (some v) none), g.goTo (.loading (.top s) b .push), []⟩
    | .wrapping s n v => some ⟨m.allocate b (.entry n none), g.goTo (.counting s n b v), []⟩
    | _ => none

/-- The exchange that links a block fails without cause. -/
def stumble (g : Agent α) (m : Memory α) : Option (Advance α) :=
  match g.control with
  | .swinging w b _ errand => some (g.relink m w b errand)
  | _ => none

end Agent

end HazardLifo.Interleaved
