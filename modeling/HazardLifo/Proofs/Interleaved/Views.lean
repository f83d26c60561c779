import HazardLifo.Interleaved.Image
import HazardLifo.Proofs.Interleaved.Effort
import HazardLifo.Proofs.Interleaved.Linearization

/-!
# Operations of a thread that runs alone

`View` is what operations that follow one another see of a memory: the table, and of each stack its
nodes, its limbo and its gauge. On a view an operation is a function, with what is seen of it
(`View.pop`, `View.sweep`, …). From the control of a thread, `Agent.ending` reads off what the rest
of its operation comes to if the thread runs alone from now on. No access of the thread changes that
(`Move.ending_eq`), so a whole operation without company is the function on views
(`Machine.Sound.ending_of_run`).
-/

namespace HazardLifo

/-- Whether slot `i` or one after it publishes block `b`. -/
def SlotTable.publishesFrom (T : SlotTable) (i : Nat) (b : Block) : Bool :=
  (T.slots.drop i).any (·.published == .block b)

namespace Interleaved

variable {α : Type}

/-! ## Views -/

structure View (α : Type) where
  table : SlotTable
  stack : StackIndex → Stack α

/-- What the memory holds. In the stacks the table goes by number `T`. -/
def Memory.view (m : Memory α) (T : TableId) : View α where
  table := m.table
  stack s :=
    { table := T
      nodes := m.nodes m.heap.size (m.load (.top s))
      limbo := ⟨m.entries m.heap.size (m.load (.limbo s)), m.gauge s⟩ }

/-- What an operation leaves behind, and what is seen of it. -/
structure Ending (α : Type) where
  view : View α
  marks : List (Mark α) := []

def Ending.after (E : Ending α) (marks : List (Mark α)) : Ending α := ⟨E.view, marks ++ E.marks⟩

@[simp] theorem Ending.after_nil (E : Ending α) : E.after [] = E := rfl

theorem Ending.after_after (E : Ending α) (marks marks' : List (Mark α)) :
    (E.after marks).after marks' = E.after (marks' ++ marks) := by
  simp only [after, List.append_assoc]

/-! ## Operations on views -/

namespace View

def mapTable (V : View α) (f : SlotTable → SlotTable) : View α := { V with table := f V.table }

def modify (V : View α) (s : StackIndex) (f : Stack α → Stack α) : View α :=
  { V with stack := Function.update V.stack s (f (V.stack s)) }

/-- Claims the first free slot from slot `i` on. -/
def claim (V : View α) (token : Token) (i : Nat) : Ending α :=
  match (V.table.slots.drop i).findIdx? (·.owner.isNone) with
  | some k =>
    ⟨V.mapTable (·.modify (i + k) ({ · with owner := some token })),
      [.claimed token (i + k), .returned (.acquired (i + k))]⟩
  | none =>
    let c := V.table.capacity
    ⟨V, [.exhausted token c, .returned (.exhausted c)]⟩

def disown (V : View α) (i : Nat) : Ending α :=
  ⟨V.mapTable (·.modify i ({ · with owner := none })),
    [.released (V.table.owner i) i, .returned .done]⟩

def push (V : View α) (s : StackIndex) (b : Block) (v : α) : Ending α :=
  ⟨V.modify s fun stack => { stack with nodes := ⟨b, v⟩ :: stack.nodes }, [.returned .done]⟩

/-- Puts a node that the gauge counts already into limbo. -/
def shelve (V : View α) (s : StackIndex) (b : Block) : View α :=
  V.modify s fun stack =>
    { stack with limbo := { stack.limbo with entries := b :: stack.limbo.entries } }

def settle (V : View α) (pass : Pass α) : Ending α :=
  ⟨V.modify pass.stack fun stack =>
      { stack with limbo :=
        { stack.limbo with gauge := stack.limbo.gauge - UInt64.ofNat pass.freed } },
    pass.marks⟩

/-- The rest of a sweep to which these nodes are left. -/
def walk (V : View α) (pass : Pass α) : List Block → Ending α
  | [] => V.settle pass
  | b :: rest =>
    if V.table.publishes (.block b) then
      (V.shelve pass.stack b).walk { pass with deferred := pass.deferred + 1 } rest
    else (V.walk { pass with freed := pass.freed + 1 } rest).after [.freed pass.stack b]

def sweep (V : View α) (pass : Pass α) : Ending α :=
  (V.modify pass.stack fun stack => { stack with limbo := { stack.limbo with entries := [] } }).walk
    pass (V.stack pass.stack).limbo.entries

def retire (V : View α) (s : StackIndex) (b : Block) (v : α) : Ending α :=
  ((V.modify s fun stack => { stack with limbo := stack.limbo.retire b }).sweep
    { stack := s, result := some v }).after [.retired s b]

def free (V : View α) (s : StackIndex) (b : Block) (v : α) : Ending α :=
  (V.sweep { stack := s, result := some v }).after [.freed s b]

def relinquish (V : View α) (s : StackIndex) (b : Block) (v : α) : Ending α :=
  if V.table.publishes (.block b) then V.retire s b v else V.free s b v

def pop (V : View α) (s : StackIndex) (i : Nat) : Ending α :=
  let V := V.mapTable (·.publish i .null)
  match (V.stack s).nodes with
  | [] => ⟨V, [.returned .empty]⟩
  | node :: rest => (V.modify s ({ · with nodes := rest })).relinquish s node.block node.value

end View

/-! ## What is left of an operation -/

/-- The rest of an operation that links a block with this errand; `nodes` are those in the entries
in hand. -/
def Errand.ending (V : View α) (value? : Block → Option α) (nodes : List Block) (w : Anchor)
    (b : Block) : Errand α → Ending α
  | .push => (value? b).elim ⟨V, []⟩ (V.push w.stack b)
  | .retire s v =>
    nodes.head?.elim ⟨V, []⟩ fun n => (V.shelve s n).sweep { stack := s, result := some v }
  | .defer pass _ =>
    nodes.head?.elim ⟨V, []⟩ fun n =>
      (V.shelve pass.stack n).walk { pass with deferred := pass.deferred + 1 } nodes.tail

/-- The rest of an operation. A push that has no block yet will get block `fresh`. -/
def Control.ending (V : View α) (value? : Block → Option α) (nodes : List Block) (token : Token)
    (fresh : Block) : Control α → Ending α
  | .idle | .crashed => ⟨V, []⟩
  | .trying i => V.claim token i
  | .withdrawing i => (V.mapTable (·.publish i .null)).disown i
  | .disowning i => V.disown i
  | .publishing i a => ⟨V.mapTable (·.publish i a), [.returned .done]⟩
  | .making s v => V.push s fresh v
  | .loading w b errand | .linking w b _ errand | .swinging w b _ errand =>
    errand.ending V value? nodes w b
  | .locating s i | .guarding s i _ | .validating s i _ | .following s i _ | .unlinking s i _ _ =>
    V.pop s i
  | .clearing _ i none => ⟨V.mapTable (·.publish i .null), [.returned .empty]⟩
  | .clearing s i (some b) =>
    (value? b).elim ⟨V, []⟩ ((V.mapTable (·.publish i .null)).relinquish s b)
  | .taking s b => (value? b).elim ⟨V, []⟩ (V.relinquish s b)
  | .scanning s b v i =>
    if V.table.publishesFrom i b then V.retire s b v else V.free s b v
  | .freeing s b v => V.free s b v
  | .wrapping s b v | .counting s b _ v => V.retire s b v
  | .peeking pass | .detaching pass => V.sweep pass
  | .walking pass _ | .opening pass _ _ => V.walk pass nodes
  | .inspecting pass _ _ b i =>
    if V.table.publishesFrom i b then
      (V.shelve pass.stack b).walk { pass with deferred := pass.deferred + 1 } nodes.tail
    else (V.walk { pass with freed := pass.freed + 1 } nodes.tail).after [.freed pass.stack b]
  | .unwrapping pass _ _ b =>
    (V.walk { pass with freed := pass.freed + 1 } nodes.tail).after [.freed pass.stack b]
  | .burying pass _ b =>
    (V.walk { pass with freed := pass.freed + 1 } nodes).after [.freed pass.stack b]
  | .settling pass => V.settle pass

/-- The rest of a thread's operation, if the thread runs alone from here on. -/
def Agent.ending (g : Agent α) (m : Memory α) (T : TableId) (fresh : Block) : Ending α :=
  g.control.ending (m.view T) m.value? ((g.control.grip.entries m).map Prod.snd) g.token fresh

/-! ## Views of layouts -/

theorem View.eq_modify {V W : View α} {s : StackIndex} {f : Stack α → Stack α}
    (htable : W.table = V.table) (hs : W.stack s = f (V.stack s))
    (hne : ∀ s', s' ≠ s → W.stack s' = V.stack s') : W = V.modify s f := by
  obtain ⟨table, stack⟩ := W
  rw [modify, View.mk.injEq]
  refine ⟨htable, funext fun s' => ?_⟩
  rw [Function.update_apply]
  split
  · next heq => exact heq ▸ hs
  · next heq => exact hne s' heq

namespace Memory

variable {m : Memory α}

theorem entries_eq_of_chain {link : Option Block} {L : List (Block × Block)} {fuel : Nat}
    (h : Chain m.wrapped? link L) (hfuel : L.length ≤ fuel) :
    m.entries fuel link = L.map Prod.snd := by
  induction L generalizing link fuel with
  | nil =>
    obtain rfl : link = none := h
    cases fuel <;> rfl
  | cons p L ih =>
    obtain ⟨rfl, next, hb, hrest⟩ := h
    cases fuel with
    | zero => simp at hfuel
    | succ fuel =>
      rw [wrapped?_eq_some] at hb
      simp only [entries, hb, List.map_cons, ih hrest (by simpa using hfuel)]

end Memory

def Layout.view (G : Layout α) (T : TableId) (table : SlotTable) (gauge : StackIndex → UInt64) :
    View α where
  table := table
  stack s :=
    { table := T
      nodes := (G.linked s).map fun p => ⟨p.1, p.2⟩
      limbo := ⟨(G.waiting s).map Prod.snd, gauge s⟩ }

theorem Custody.view_eq {m : Memory α} {grip : Nat → Grip} {G : Layout α} (h : Custody m grip G)
    (T : TableId) : m.view T = G.view T m.table m.gauge := by
  have hwaiting : ∀ s, (G.waiting s).length ≤ m.heap.size := fun s => by
    have hlen := h.length_blocks_le (.limbo s)
    simp only [Layout.blocks, Layout.nodes, Layout.entries, List.nil_append, length_unpack] at hlen
    omega
  simp only [Memory.view, Layout.view, Memory.nodes_eq_of_chain (h.linked _) (h.length_linked_le _),
    Memory.entries_eq_of_chain (h.waiting _) (hwaiting _)]

namespace Layout

@[simp] theorem table_view (G : Layout α) (T : TableId) (table : SlotTable)
    (gauge : StackIndex → UInt64) : (G.view T table gauge).table = table := rfl

variable (G : Layout α) (T : TableId) (table : SlotTable) (gauge : StackIndex → UInt64) (t : Nat)
  (s : StackIndex)

theorem view_link (b : Block) (v : α) : (G.link t s b v).view T table gauge =
    (G.view T table gauge).modify s fun stack => { stack with nodes := ⟨b, v⟩ :: stack.nodes } := by
  refine View.eq_modify rfl ?_ fun s' hs' => ?_
  · simp only [view, link, Function.update_self, List.map_cons]
  · simp only [view, link, Function.update_of_ne hs']

theorem view_unlink {b : Block} {v : α} {rest : List (Block × α)} (h : G.linked s = (b, v) :: rest) :
    ((G.view T table gauge).stack s).nodes = ⟨b, v⟩ :: rest.map (fun p => ⟨p.1, p.2⟩) ∧
    (G.unlink t s b rest).view T table gauge =
      (G.view T table gauge).modify s
        ({ · with nodes := rest.map fun p => ⟨p.1, p.2⟩ }) := by
  refine ⟨by simp only [view, h, List.map_cons], View.eq_modify rfl ?_ fun s' hs' => ?_⟩
  · simp only [view, unlink, Function.update_self]
  · simp only [view, unlink, Function.update_of_ne hs']

theorem view_shelve (p : Block × Block) (rest : List (Block × Block)) :
    (G.shelve t s p rest).view T table gauge = (G.view T table gauge).shelve s p.2 := by
  refine View.eq_modify rfl ?_ fun s' hs' => ?_
  · simp only [view, shelve, Function.update_self, List.map_cons]
  · simp only [view, shelve, Function.update_of_ne hs']

theorem view_detach : (G.detach t s).view T table gauge =
    (G.view T table gauge).modify s fun stack =>
      { stack with limbo := { stack.limbo with entries := [] } } := by
  refine View.eq_modify rfl ?_ fun s' hs' => ?_
  · simp only [view, detach, Function.update_self, List.map_nil]
  · simp only [view, detach, Function.update_of_ne hs']

theorem view_mapGauge {m : Memory α} (hs : s < m.words.length) (f : UInt64 → UInt64) :
    G.view T (m.mapGauge s f).table (m.mapGauge s f).gauge =
      (G.view T m.table m.gauge).modify s fun stack =>
        { stack with limbo := { stack.limbo with gauge := f stack.limbo.gauge } } := by
  refine View.eq_modify rfl ?_ fun s' hs' => ?_
  · simp only [view, m.gauge_mapGauge hs, if_true]
  · simp only [view, m.gauge_mapGauge hs, if_neg hs'.symm]

end Layout

end Interleaved

/-! ## Looking at one slot after the other -/

theorem drop_eq_cons {β : Type} {l : List β} {i : Nat} {x : β} (h : l[i]? = some x) :
    l.drop i = x :: l.drop (i + 1) := by
  obtain ⟨hi, rfl⟩ := List.getElem?_eq_some_iff.1 h
  exact List.drop_eq_getElem_cons hi

theorem drop_eq_nil {β : Type} {l : List β} {i : Nat} (h : l[i]? = none) : l.drop i = [] :=
  List.drop_eq_nil_of_le (List.getElem?_eq_none_iff.1 h)

namespace SlotTable

variable {T : SlotTable} {i : Nat} {slot : Slot} {b : Block}

theorem publishesFrom_zero (T : SlotTable) (b : Block) :
    T.publishesFrom 0 b = T.publishes (.block b) := by
  simp [publishesFrom, publishes]

theorem publishesFrom_of_none (h : T.slots[i]? = none) : T.publishesFrom i b = false := by
  rw [publishesFrom, drop_eq_nil h, List.any_nil]

theorem publishesFrom_of_eq (h : T.slots[i]? = some slot) (hp : slot.published = .block b) :
    T.publishesFrom i b = true := by
  rw [publishesFrom, drop_eq_cons h, List.any_cons, hp, beq_self_eq_true, Bool.true_or]

theorem publishesFrom_of_ne (h : T.slots[i]? = some slot) (hp : slot.published ≠ .block b) :
    T.publishesFrom i b = T.publishesFrom (i + 1) b := by
  rw [publishesFrom, drop_eq_cons h, List.any_cons, beq_eq_false_iff_ne.2 hp, Bool.false_or,
    publishesFrom]

theorem publish_publish (T : SlotTable) (i : Nat) (a a' : Address) :
    (T.publish i a).publish i a' = T.publish i a' := by
  simp only [publish, modify, List.modify_modify_eq, Function.comp_def]

end SlotTable

namespace Interleaved

namespace View

variable {V : View α} {token : Token} {i : Nat} {slot : Slot} {s : StackIndex} {pass : Pass α}
  {b : Block} {v : α}

theorem claim_of_none (h : V.table.slots[i]? = none) : V.claim token i =
    ⟨V, [.exhausted token V.table.capacity, .returned (.exhausted V.table.capacity)]⟩ := by
  simp only [claim, drop_eq_nil h, List.findIdx?_nil]

theorem claim_of_free (h : V.table.slots[i]? = some slot) (ho : slot.owner = none) :
    V.claim token i = ⟨V.mapTable (·.modify i ({ · with owner := some token })),
      [.claimed token i, .returned (.acquired i)]⟩ := by
  simp only [claim, drop_eq_cons h, List.findIdx?_cons, ho, Option.isNone_none, if_true,
    Nat.add_zero]

theorem claim_of_owned (h : V.table.slots[i]? = some slot) (ho : slot.owner.isSome) :
    V.claim token i = V.claim token (i + 1) := by
  have hsome : slot.owner.isNone = false := by rw [← Option.not_isSome, ho, Bool.not_true]
  simp only [claim, drop_eq_cons h, List.findIdx?_cons, hsome, Bool.false_eq_true, if_false]
  cases (V.table.slots.drop (i + 1)).findIdx? (·.owner.isNone) with
  | none => rfl
  | some k => simp only [Option.map_some, Nat.add_assoc, Nat.add_comm 1 k]

theorem modify_modify (f f' : Stack α → Stack α) :
    (V.modify s f).modify s f' = V.modify s fun stack => f' (f stack) := by
  simp only [modify, Function.update_self, Function.update_idem]

theorem modify_eq_self {f : Stack α → Stack α} (h : f (V.stack s) = V.stack s) :
    V.modify s f = V := by
  simp only [modify, h, Function.update_eq_self]

theorem pop_publish (a : Address) : (V.mapTable (·.publish i a)).pop s i = V.pop s i := by
  simp only [pop, mapTable, SlotTable.publish_publish]

theorem retire_eq : V.retire s b v =
    (((V.modify s fun stack =>
      { stack with limbo := { stack.limbo with gauge := stack.limbo.gauge + 1 } }).shelve s b).sweep
        { stack := s, result := some v }).after [.retired s b] := by
  simp only [retire, shelve, modify_modify, Limbo.retire]

theorem sweep_of_nil (h : (V.stack pass.stack).limbo.entries = []) (hfreed : pass.freed = 0)
    (hdeferred : pass.deferred = 0) : V.sweep pass = ⟨V, [.returned pass.reply]⟩ := by
  have hmarks : pass.marks = [.returned pass.reply] := by
    simp only [Pass.marks, hfreed, hdeferred, Nat.lt_irrefl, if_false, List.nil_append]
  simp only [sweep, h, walk, settle, modify_modify, hfreed, hmarks, Ending.mk.injEq, and_true]
  refine modify_eq_self ?_
  generalize V.stack pass.stack = stack at h
  obtain ⟨T, nodes, entries, gauge⟩ := stack
  obtain rfl : entries = [] := h
  simp

end View

variable {m : Memory α} {g : Agent α} {a : Advance α} {grip grip' : Nat → Grip} {G G' : Layout α}
  {t : Nat} {T : TableId} {fresh : Block}

/-- An access that only reads brings a thread nearer to the same ending. -/
theorem Quiet.ending_eq {token : Token} {c c' : Control α} {marks : List (Mark α)}
    (hq : Quiet m token c c' marks) (h : Custody m grip G) (hγ : grip t = c.grip)
    (hfresh : c.Fresh) :
    c.ending (G.view T m.table m.gauge) m.value? ((G.carried t).map Prod.snd) token fresh =
      (c'.ending (G.view T m.table m.gauge) m.value? ((G.carried t).map Prod.snd) token
        fresh).after marks := by
  have hfits : c.grip.Fits m (G.loose t) (G.carried t) := hγ ▸ h.hands t
  have hnodes : ∀ {s}, m.load (.top s) = none → ((G.view T m.table m.gauge).stack s).nodes = [] := by
    intro s htop
    have hchain := h.linked s
    rw [htop] at hchain
    simp only [Layout.view, hchain.eq_nil, List.map_nil]
  have hscan : ∀ {i slot b}, m.table.slots[i]? = some slot → slot.published ≠ .block b →
      (G.view T m.table m.gauge).table.publishesFrom i b =
        (G.view T m.table m.gauge).table.publishesFrom (i + 1) b :=
    SlotTable.publishesFrom_of_ne
  cases hq with
  | exhausted hslot => exact View.claim_of_none hslot
  | taken hslot ho => exact View.claim_of_owned hslot ho
  | empty htop => simp only [Control.ending, View.pop, View.mapTable, hnodes htop, Ending.after_nil]
  | clear hslot =>
    simp only [Control.ending, Layout.table_view, SlotTable.publishesFrom_of_none hslot,
      Bool.false_eq_true, if_false, Ending.after_nil]
  | found hslot hp =>
    simp only [Control.ending, Layout.table_view, SlotTable.publishesFrom_of_eq hslot hp, if_true,
      Ending.after_nil]
  | scan hslot hp =>
    rw [Control.ending, hscan hslot hp, Ending.after_nil, Control.ending]
  | @bare pass hload =>
    refine View.sweep_of_nil ?_ hfresh.1 hfresh.2
    have hchain := h.waiting pass.stack
    rw [hload] at hchain
    simp only [Layout.view, hchain.eq_nil, List.map_nil]
  | finish =>
    have hnil : G.carried t = [] := Chain.eq_nil hfits.carries
    simp only [Control.ending, hnil, List.map_nil, View.walk, Ending.after_nil]
  | @openEntry pass e rest b rest' he =>
    obtain ⟨n, next, tail, hcarried, hentry, -⟩ := hfits.carries
    obtain ⟨rfl, -⟩ := Object.entry.inj (Option.some.inj (he.symm.trans hentry))
    simp only [Control.ending, hcarried, List.map_cons, View.walk, List.tail_cons,
      Ending.after_nil]
    rw [SlotTable.publishesFrom_zero]
  | pass hslot =>
    simp only [Control.ending, Layout.table_view, SlotTable.publishesFrom_of_none hslot,
      Bool.false_eq_true, if_false, Ending.after_nil]
  | @keep pass e rest b i slot hslot hp =>
    obtain ⟨n, next, tail, hcarried, -, hknown, -⟩ := hfits.carries
    obtain rfl := hknown b rfl
    simp only [Control.ending, Errand.ending, Layout.table_view,
      SlotTable.publishesFrom_of_eq hslot hp, if_true, hcarried, List.map_cons, List.head?_cons,
      List.tail_cons, Option.elim_some, Ending.after_nil]
  | inspect hslot hp =>
    rw [Control.ending, hscan hslot hp, Ending.after_nil, Control.ending]
  | _ => rfl

theorem Publishing.ending_eq {i : Nat} {c c' : Control α} {x : Address} {marks : List (Mark α)}
    (hp : Publishing i c x c' marks) (V : View α) {value? : Block → Option α}
    (hvalue : ∀ {b}, c.grip.node = some (b, true) → ∃ v, value? b = some v) (nodes : List Block)
    (token : Token) (fresh : Block) :
    c.ending V value? nodes token fresh =
      (c'.ending (V.mapTable (·.publish i x)) value? nodes token fresh).after marks := by
  cases hp with
  | guard => exact (V.pop_publish _).symm
  | @clear s b =>
    obtain ⟨v, hv⟩ := hvalue rfl
    simp only [Control.ending, hv, Option.elim_some, Ending.after_nil]
  | _ => rfl

def Layout.ending (G : Layout α) (m : Memory α) (t : Nat) (g : Agent α) (T : TableId)
    (fresh : Block) : Ending α :=
  g.control.ending (G.view T m.table m.gauge) m.value? ((G.carried t).map Prod.snd) g.token fresh

theorem Custody.ending_eq (h : Custody m grip G) (hγ : grip t = g.control.grip) (T : TableId)
    (fresh : Block) : g.ending m T fresh = G.ending m t g T fresh := by
  rw [Agent.ending, Layout.ending, h.view_eq, ← h.entries_eq t, hγ]

namespace Memory

theorem gauge_store_eq (m : Memory α) (w : Anchor) (link : Option Block) :
    (m.store w link).gauge = m.gauge :=
  funext fun _ => m.gauge_store ..

theorem gauge_overwrite_eq (m : Memory α) (b : Block) (o : Object α) :
    (m.overwrite b o).gauge = m.gauge :=
  funext fun _ => m.gauge_overwrite ..

end Memory

/-- What is left of an operation, together with what is seen of it on the way, is the same after
every access of its thread. -/
theorem Move.ending_eq (hm : Move m g a) (h : Custody m grip G) (hγ : grip t = g.control.grip)
    (hshift : Shift t G g.control a.agent.control G') (h' : Custody a.memory grip' G')
    (hproper : g.control.Proper m.words.length) (hfresh : g.control.Fresh)
    (hrun : a.agent.control ≠ .crashed)
    (hblock : ∀ s v w b errand, g.control = .making s v → a.agent.control = .loading w b errand →
      b = fresh) :
    G.ending m t g T fresh = (G'.ending a.memory t a.agent T fresh).after a.marks := by
  have hfits : g.control.grip.Fits m (G.loose t) (G.carried t) := hγ ▸ h.hands t
  have hvalue : ∀ {b}, g.control.grip.node = some (b, true) → ∃ v, m.value? b = some v := by
    intro b hb
    obtain ⟨v, next, hobj, hsome, -⟩ := hfits.node hb
    obtain ⟨v, rfl⟩ := Option.isSome_iff_exists.1 hsome
    exact ⟨v, Memory.value?_eq_some hobj⟩
  unfold Layout.ending
  cases hm with
  | quiet hq =>
    obtain rfl := hq.layout_eq hshift
    exact hq.ending_eq h hγ hfresh
  | publish hp =>
    obtain rfl : G' = G := by cases hp <;> cases hshift <;> rfl
    exact hp.ending_eq _ hvalue ..
  | claim hslot ho => cases hshift; exact View.claim_of_free hslot ho
  | disown => cases hshift; rfl
  | @push token held w b seen hw =>
    cases hshift with
    | stay hrole => cases hrole
    | @link s b seen v hloose =>
      have hlinked := h'.linked s
      simp only [Layout.link, Function.update_self] at hlinked
      obtain ⟨-, x, hnode, -⟩ := hlinked
      rw [Memory.node?_of_heap (Memory.heap_store m (.top s) (some b))] at hnode
      have hv : m.value? b = some v := Memory.value?_eq_some (Memory.node?_eq_some.1 hnode)
      simp only [Control.ending, Errand.ending, hv, Option.elim_some, View.push, Memory.table_store,
        Memory.gauge_store_eq, Layout.view_link]
      rfl
  | retire hw =>
    cases hshift with
    | stay hrole => cases hrole
    | retire hcarried =>
      simp only [Control.ending, Errand.ending, hcarried, List.map_cons, List.head?_cons,
        Option.elim_some, Memory.table_store, Memory.gauge_store_eq, Layout.view_shelve,
        Ending.after_nil]
  | defer hw =>
    cases hshift with
    | stay hrole => cases hrole
    | defer hcarried =>
      simp only [Control.ending, Errand.ending, hcarried, List.map_cons, List.head?_cons,
        Option.elim_some, List.tail_cons, Memory.table_store, Memory.gauge_store_eq,
        Layout.view_shelve, Ending.after_nil]
      simp only [Layout.shelve, Function.update_self]
  | @unlink token held s i b next htop =>
    cases hshift with
    | stay hrole => cases hrole
    | @unlink _ _ _ _ v rest hlinked =>
      obtain ⟨-, x, hnode, -⟩ := hlinked ▸ h.linked s
      have hv : m.value? b = some v := Memory.value?_eq_some (Memory.node?_eq_some.1 hnode)
      obtain ⟨hnodes, hview⟩ := G.view_unlink T m.table m.gauge t s hlinked
      simp only [Control.ending, View.pop, View.mapTable, hnodes, Memory.table_store,
        Memory.gauge_store_eq, hview, Ending.after_nil]
      rw [Memory.value?_of_heap (Memory.heap_store ..), hv]
      rfl
  | detach =>
    cases hshift with
    | stay hrole => cases hrole
    | detach hcarried =>
      simp only [Control.ending, View.sweep, Memory.table_store, Memory.gauge_store_eq,
        Layout.view_detach, Ending.after_nil]
      simp only [Layout.detach, Function.update_self, Layout.view]
  | @count token held s b e v =>
    obtain rfl : G' = G := by cases hshift; rfl
    obtain ⟨n, next, tail, hcarried, -, hknown, -⟩ := hfits.carries
    obtain rfl := hknown b rfl
    simp only [Control.ending, Errand.ending, hcarried, List.map_cons, List.head?_cons,
      Option.elim_some, View.retire_eq, G'.view_mapGauge T s (hproper.1 s rfl)]
  | @settle token held pass =>
    obtain rfl : G' = G := by cases hshift; rfl
    simp only [Control.ending, View.settle, G'.view_mapGauge T _ (hproper.1 pass.stack rfl),
      Ending.after, List.append_nil]
  | @aimNode token held w b seen errand v next hnode =>
    obtain rfl : G' = G := by cases hshift; rfl
    have hb : (m.overwrite b (.node v seen)).value? b = m.value? b := by
      simp only [Memory.value?, Memory.node?, Memory.object?_overwrite, if_true, hnode,
        Option.map_some]
      cases v <;> rfl
    simp only [Control.ending, Memory.table_overwrite, Memory.gauge_overwrite_eq, Ending.after_nil]
    cases errand <;> simp only [Errand.ending, hb]
  | @aimEntry token held w e seen errand n next he =>
    obtain rfl : G' = G := by cases hshift; rfl
    simp only [Control.ending, Memory.table_overwrite, Memory.gauge_overwrite_eq, Ending.after_nil]
    cases errand with
    | push =>
      obtain ⟨v, next', hnode, -⟩ := hfits.node rfl
      rw [he] at hnode
      cases hnode
    | _ => rfl
  | @take token held s b v next hnode =>
    obtain rfl : G' = G := by cases hshift; rfl
    have hv : m.value? b = some v := Memory.value?_eq_some hnode
    simp only [Control.ending, hv, Option.elim_some, View.relinquish, Memory.table_overwrite,
      Memory.gauge_overwrite_eq, Ending.after_nil]
    rw [SlotTable.publishesFrom_zero]
  | free =>
    cases hshift with
    | stay hrole => cases hrole
    | free => rfl
  | unwrap =>
    cases hshift with
    | stay hrole => cases hrole
    | unwrap hcarried =>
      simp only [Control.ending, hcarried, List.map_cons, List.tail_cons, Layout.hold,
        Function.update_self, Ending.after_nil]
      rfl
  | bury =>
    cases hshift with
    | stay hrole => cases hrole
    | bury =>
      simp only [Control.ending, Layout.hold, Function.update_self]
      rfl
  | @make token held s v b hnew =>
    cases hshift with
    | stay hrole => cases hrole
    | make =>
      obtain rfl := hblock s v (.top s) b .push rfl rfl
      have hobj : (m.allocate b (.node (some v) none)).object? b = some (.node (some v) none) := by
        simp [Memory.object?_allocate]
      have hv : (m.allocate b (.node (some v) none)).value? b = some v :=
        Memory.value?_eq_some hobj
      simp only [Control.ending, Errand.ending, hv, Option.elim_some, Ending.after_nil]
      rfl
  | wrap =>
    cases hshift with
    | stay hrole => cases hrole
    | wrap => rfl
  | crash => exact absurd rfl hrun

/-! ## Runs of one thread -/

/-- What an operation comes to that meets no other. A push gets block `fresh`. -/
def Command.ending (V : View α) (token : Token) (fresh : Block) : Command α → Ending α
  | acquire => V.claim token 0
  | release i => (V.mapTable (·.publish i .null)).disown i
  | publish i a => ⟨V.mapTable (·.publish i a), [.returned .done]⟩
  | push s v => V.push s fresh v
  | pop s i => V.pop s i
  | reclaim s => V.sweep { stack := s, result := none }

theorem Command.ending_entry (command : Command α) (g : Agent α) (m : Memory α) (T : TableId)
    (fresh : Block) :
    (g.goTo command.entry).ending m T fresh = command.ending (m.view T) g.token fresh := by
  cases command <;> rfl

theorem Command.fresh_entry (command : Command α) : command.entry.Fresh := by
  cases command with
  | reclaim => exact ⟨rfl, rfl⟩
  | _ => trivial

theorem Agent.eq_receive {act : Act α} {s : StackIndex} {v : α} {w : Anchor} {b : Block}
    {errand : Errand α} (ha : g.advance? m act = some a) (hc : g.control = .making s v)
    (hc' : a.agent.control = .loading w b errand) : ∃ u, act = .receive u b := by
  obtain ⟨token, held, c⟩ := g
  obtain rfl : c = _ := hc
  cases act with
  | receive u b' =>
    simp only [advance?, receive] at ha
    split at ha
    · cases ha
    · obtain rfl := Option.some.inj ha
      obtain ⟨-, rfl, -⟩ := Control.loading.inj hc'
      exact ⟨u, rfl⟩
  | _ => cases ha

theorem Move.ne_making (hm : Move m g a) {s : StackIndex} {v : α} :
    a.agent.control ≠ .making s v := by
  cases hm with
  | quiet hq => cases hq <;> nofun
  | publish hp => cases hp <;> nofun
  | _ => nofun

namespace Machine

variable {M M' : Machine α} {acts : List (Act α)}

theorem Step.length_words {act : Act α} {marks : List (Mark α)} (h : Step M act M' marks) :
    M'.memory.words.length = M.memory.words.length := by
  cases h with
  | move _ _ hm => exact hm.length_words
  | _ => rfl

theorem Sound.ending_advance {act : Act α} (h : M.Sound) (hg : M.agents[t]? = some g)
    (ha : g.advance? M.memory act = some a) (hfresh : g.control.Fresh)
    (hblock : ∀ s v, g.control = .making s v → ∀ u b, act = .receive u b → b = fresh) :
    g.ending M.memory T fresh = (a.agent.ending a.memory T fresh).after a.marks := by
  have hm := Agent.move_of_advance? ha
  obtain ⟨G, hG⟩ := h.custody
  obtain ⟨G', hshift, hG'⟩ := h.custody_move hg hm hG
  have hγ : M.inHand t = g.control.grip := inHand_eq (control?_eq hg)
  have hγ' : (⟨a.memory, M.agents.set t a.agent⟩ : Machine α).inHand t = a.agent.control.grip :=
    inHand_eq (control?_set_self hg ..)
  rw [hG.ending_eq hγ, hG'.ending_eq hγ']
  refine hm.ending_eq hG hγ hshift hG' (h.proper (control?_eq hg)) hfresh (h.not_crashed hg hm) ?_
  intro s v w b errand hc hc'
  obtain ⟨u, rfl⟩ := Agent.eq_receive ha hc hc'
  exact hblock s v hc u b rfl

theorem Sound.ending_of_run (h : M.Sound) (hg : M.agents[t]? = some g) (hfresh : g.control.Fresh)
    (hacts : ∀ act ∈ acts, act.mover? = some t) (hrun : M.run? acts = some M')
    (hblock : ∀ s v, g.control = .making s v → ∀ u b, .receive u b ∈ acts → b = fresh) :
    ∃ g', M'.agents[t]? = some g' ∧
      g.ending M.memory T fresh = (g'.ending M'.memory T fresh).after (M.log acts) := by
  induction acts generalizing M g with
  | nil =>
    obtain rfl := Option.some.inj hrun
    exact ⟨g, hg, by simp [log]⟩
  | cons act acts ih =>
    obtain ⟨M₁, marks, hact, hrun⟩ := run?_cons_eq_some.1 hrun
    obtain ⟨hmover, hacts⟩ := List.forall_mem_cons.1 hacts
    obtain ⟨a, ha, rfl, rfl⟩ := exists_advance hact hmover hg
    have hm := Agent.move_of_advance? ha
    have hg₁ := getElem?_set_self (List.getElem?_eq_some_iff.1 hg).1 a.agent
    obtain ⟨g', hg', hending⟩ := ih (h.step (act?_step hact)) hg₁ (hm.fresh hfresh) hacts hrun
      fun s v hc => absurd hc hm.ne_making
    refine ⟨g', hg', ?_⟩
    rw [h.ending_advance hg ha hfresh fun s v hc u b hu => hblock s v hc u b (by simp [hu]),
      hending, Ending.after_after]
    simp only [log, hact]

theorem run?_call_eq_some {command : Command α} (hg : M.agents[t]? = some g)
    (hrun : M.run? (.call t command :: acts) = some M') :
    Step M (.call t command) ⟨M.memory, M.agents.set t (g.goTo command.entry)⟩ [] ∧
      (∀ s, command.stack? = some s → s < M.memory.words.length) ∧
      (⟨M.memory, M.agents.set t (g.goTo command.entry)⟩ : Machine α).run? acts = some M' ∧
      M.log (.call t command :: acts) =
        (⟨M.memory, M.agents.set t (g.goTo command.entry)⟩ : Machine α).log acts := by
  obtain ⟨M₁, marks, hact, hrun⟩ := run?_cons_eq_some.1 hrun
  cases act?_step hact with
  | move hmover => cases hmover
  | call hg' hc hslot hstack =>
    obtain rfl := Option.some.inj (hg.symm.trans hg')
    exact ⟨.call hg hc hslot hstack, hstack, hrun, by simp only [log, hact, List.nil_append]⟩

/-- An idle thread can make an operation alone, and a push can get any block that is not in use. -/
theorem Sound.exists_call {command : Command α} (h : M.Sound) (hg : M.agents[t]? = some g)
    (hidle : g.control = .idle) (hslot : ∀ i, command.slot? = some i → i ∈ g.held)
    (hstack : ∀ s, command.stack? = some s → s < M.memory.words.length)
    (hfree : M.memory.heap[fresh]? = none) :
    ∃ acts M', (∀ act ∈ acts, act.mover? = some t) ∧
      M.run? (.call t command :: acts) = some M' ∧ M'.control? t = some .idle ∧
      ∀ s v, command = .push s v → ∀ u b, .receive u b ∈ acts → b = fresh := by
  obtain ⟨ht, rfl⟩ := List.getElem?_eq_some_iff.1 hg
  have hself : M.agents.set t M.agents[t] = M.agents := List.set_getElem_self ht
  by_cases hpush : ∃ s v, command = .push s v
  · obtain ⟨s, v, rfl⟩ := hpush
    obtain ⟨m', hrun, -⟩ := run?_push ht hidle (hstack s rfl) hfree v ([] : List (Act α))
    rw [hself] at hrun
    refine ⟨[.receive t fresh, .step t, .step t, .step t], _, ?_, hrun, ?_, ?_⟩
    · simp [Act.mover?]
    · exact (control?_eq hg).trans (congrArg some hidle)
    · intro s' v' _ u b hb
      simp only [List.mem_cons, Act.receive.injEq, reduceCtorEq, List.not_mem_nil, or_false] at hb
      exact hb.2
  · have hbusy : command.entry ≠ .idle := fun hentry => by
      cases command <;> cases hentry
    obtain ⟨acts, M', marks, reply, hacts, hrun, hend, -⟩ :=
      (h.step (.call hg hidle hslot hstack)).exists_end (control?_set_self hg ..) hbusy
    refine ⟨acts, M', fun act hact => (hacts act hact).1, ?_, hend,
      fun s v hv => absurd ⟨s, v, hv⟩ hpush⟩
    have hcall : (⟨M.memory, M.agents.set t M.agents[t]⟩ : Machine α).run?
        (.call t command :: acts) = _ :=
      run?_call ht hidle
        ((Option.all_eq_true ..).2 fun i hi => List.contains_iff_mem.2 (hslot i hi))
        ((Option.all_eq_true ..).2 fun s hs => decide_eq_true (hstack s hs))
    rw [hself] at hcall
    exact hcall.trans hrun

/-- A whole operation that a thread makes alone, whatever the other threads are at, does to the view
what it does where operations follow one another. -/
theorem Sound.ending_of_call {command : Command α} (h : M.Sound) (hg : M.agents[t]? = some g)
    (hacts : ∀ act ∈ acts, act.mover? = some t)
    (hrun : M.run? (.call t command :: acts) = some M') (hend : M'.control? t = some .idle)
    (hblock : ∀ s v, command = .push s v → ∀ u b, .receive u b ∈ acts → b = fresh) :
    command.ending (M.memory.view T) g.token fresh =
      ⟨M'.memory.view T, M.log (.call t command :: acts)⟩ := by
  obtain ⟨hstep, -, hrun', hlog⟩ := run?_call_eq_some hg hrun
  have hg₁ := getElem?_set_self (List.getElem?_eq_some_iff.1 hg).1 (g.goTo command.entry)
  obtain ⟨g', hg', hending⟩ := (h.step hstep).ending_of_run hg₁ command.fresh_entry hacts hrun'
    fun s v hmaking => hblock s v (by cases command <;> cases hmaking; rfl)
  have hidle : g'.control = .idle := Option.some.inj ((control?_eq hg').symm.trans hend)
  rw [← command.ending_entry, hending, ← hlog]
  simp only [Agent.ending, hidle, Control.ending, Ending.after, List.append_nil]

end Machine

end Interleaved

end HazardLifo
