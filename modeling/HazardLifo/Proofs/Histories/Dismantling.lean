import HazardLifo.Proofs.Histories.Caches
import HazardLifo.Proofs.Histories.Nodes

/-!
# The end of a stack

A stack that ends destroys its values from the top, each before its node is freed, and then frees
what waits in limbo. It comes to the bottom, or to the first value whose destructor fails: the nodes
below are left behind then, but limbo is emptied and the references are given back all the same.
`Dismantles` is what both ends have in common.
-/

namespace HazardLifo

variable {α : Type}

def Node.ends (s : StackId) (node : Node α) : List (Event α) :=
  [.destroyed s node.block node.value, .freed s node.block]

def Harmless [Disposable α] (nodes : List (Node α)) : Prop :=
  ∀ node ∈ nodes, Disposable.fault? node.value = none

namespace State

section

variable [Disposable α] {s : StackId} {above below nodes : List (Node α)} {bad : Node α}
  {message : String}

theorem dismantle_events (s : StackId) (nodes : List (Node α)) :
    (dismantle s nodes).1 = (dismantled nodes).flatMap (·.ends s) := by
  induction nodes with
  | nil => rfl
  | cons node rest ih =>
    cases hf : Disposable.fault? node.value with
    | some message => simp [dismantle, dismantled, hf, Node.ends]
    | none => simp [dismantle, dismantled, hf, Node.ends, ih]

theorem dismantled_of_harmless (h : Harmless nodes) : dismantled nodes = nodes := by
  induction nodes with
  | nil => rfl
  | cons node rest ih =>
    obtain ⟨hnode, hrest⟩ := List.forall_mem_cons.1 h
    rw [dismantled, hnode, ih hrest]
    rfl

theorem dismantled_of_faulty (habove : Harmless above)
    (hbad : Disposable.fault? bad.value = some message) :
    dismantled (above ++ bad :: below) = above ++ [bad] := by
  induction above with
  | nil => simp [dismantled, hbad]
  | cons node rest ih =>
    obtain ⟨hnode, hrest⟩ := List.forall_mem_cons.1 habove
    rw [List.cons_append, dismantled, hnode, ih hrest]
    rfl

theorem endResult_of_harmless (h : Harmless nodes) : endResult s nodes = .ok () := by
  induction nodes with
  | nil => rfl
  | cons node rest ih =>
    obtain ⟨hnode, hrest⟩ := List.forall_mem_cons.1 h
    rw [← ih hrest]
    simp only [endResult, dismantle, hnode]

theorem endResult_of_faulty (habove : Harmless above)
    (hbad : Disposable.fault? bad.value = some message) :
    endResult s (above ++ bad :: below) = .error (.fault (.destructor message)) := by
  induction above with
  | nil => simp [endResult, dismantle, hbad]
  | cons node rest ih =>
    obtain ⟨hnode, hrest⟩ := List.forall_mem_cons.1 habove
    rw [← ih hrest]
    simp only [List.cons_append, endResult, dismantle, hnode]

end

variable {σ : State α} {s : StackId} {stack : Stack α} {T : TableId}

/-! ## Two references less -/

theorem refs_letGo_letGo (σ : State α) (T T' : TableId) :
    ((σ.letGo T).letGo T).refs T' = σ.refs T' - if T' = T then 2 else 0 := by
  rw [refs_letGo, refs_letGo]
  split <;> omega

theorem refs_letGo_le_one (σ : State α) (T : TableId) : (σ.letGo T).refs T ≤ 1 ↔ σ.refs T ≤ 2 := by
  rw [refs_letGo, if_pos rfl]
  omega

theorem slot?_letGo_letGo {h : Handle} (hkept : ¬(h.table = T ∧ σ.refs T ≤ 2)) :
    ((σ.letGo T).letGo T).slot? h = σ.slot? h := by
  have hfirst : ¬(h.table = T ∧ σ.refs T ≤ 1) := fun hgone => hkept ⟨hgone.1, Nat.le_succ_of_le hgone.2⟩
  have hlast : ¬(h.table = T ∧ (σ.letGo T).refs T ≤ 1) := by rwa [refs_letGo_le_one]
  rw [slot?_letGo, if_neg hlast, slot?_letGo, if_neg hfirst]

theorem isSome_get?_letGo_letGo (σ : State α) (T T' : TableId) :
    (((σ.letGo T).letGo T).tables.get? T').isSome =
      if T' = T ∧ σ.refs T ≤ 2 then false else (σ.tables.get? T').isSome := by
  rw [isSome_get?_letGo, isSome_get?_letGo]
  simp only [refs_letGo_le_one]
  by_cases hgone : T' = T ∧ σ.refs T ≤ 2
  · rw [if_pos hgone, if_pos hgone]
  · have hfirst : ¬(T' = T ∧ σ.refs T ≤ 1) := fun h => hgone ⟨h.1, Nat.le_succ_of_le h.2⟩
    rw [if_neg hgone, if_neg hgone, if_neg hfirst]

theorem Sound.two_le_refs {sign : HandleId → Token} {shown : HandleId → Address}
    (h : Sound σ sign shown) (hs : σ.lifos.get? s = some stack) : 2 ≤ σ.refs stack.table := by
  obtain ⟨⟨shared, hT⟩, hne⟩ := h.table_of_stack hs
  have hpos : 0 < σ.refs stack.table := h.backed.alive (by rw [hT]; rfl)
  omega

/-! ## Reachable states -/

namespace Reachable

variable [Disposable α]

theorem sound (h : σ.Reachable) : ∃ sign shown, Sound σ sign shown := by
  obtain ⟨ops, rfl⟩ := h
  obtain ⟨sign, shown, hsound, -⟩ := Op.sound_after ops
  exact ⟨sign, shown, hsound⟩

theorem nodup_blocks (h : σ.Reachable) : σ.blocks.Nodup := by
  obtain ⟨ops, rfl⟩ := h
  exact Op.nodup_blocks ops

theorem step (h : σ.Reachable) (op : Op α) : (op.deed σ).after.Reachable := by
  obtain ⟨ops, rfl⟩ := h
  exact ⟨ops ++ [op], Op.after_concat ops op⟩

end Reachable

end State

open State

/-- The operation ends stack `s`, which held `visited ++ left`: only `visited` is destroyed. -/
structure Dismantles [Disposable α] (d : Deed α) (s : StackId) (stack : Stack α)
    (visited left : List (Node α)) : Prop where
  /-- Each value is destroyed before its node is freed, and limbo is emptied from its head, whatever
  the table's slots publish. -/
  events : d.events = visited.flatMap (·.ends s) ++ stack.limbo.entries.map (.freed s)
  once : d.before.Reachable → d.freed.Nodup ∧ (d.destroyed.map fun e => (e.1, e.2.block)).Nodup
  spared : d.before.Reachable → ∀ node ∈ left,
    (s, node.block) ∉ d.freed ∧ ∀ v, (s, ⟨node.block, v⟩) ∉ d.destroyed
  references : d.before.Reachable → ∀ T,
    d.before.refs T = d.after.refs T + if T = stack.table then 2 else 0
  /-- The table goes if these two references were the last. -/
  tables : ∀ T, (d.after.tables.get? T).isSome =
    if T = stack.table ∧ d.before.refs stack.table ≤ 2 then false else (d.before.tables.get? T).isSome
  /-- Else all its slots stay as they are, with their owners and what they publish. -/
  slots : ∀ h : Handle, ¬(h.table = stack.table ∧ d.before.refs stack.table ≤ 2) →
    d.after.slot? h = d.before.slot? h
  others : ∀ s', d.after.lifos.get? s' = if s' = s then none else d.before.lifos.get? s'
  guards : d.before.Reachable → ∀ s' other, d.after.lifos.get? s' = some other →
    ∀ i, d.after.slot? ⟨other.table, i⟩ = d.before.slot? ⟨other.table, i⟩
  rest : d.after = { d.before with
    tables := d.after.tables
    lifos := d.after.lifos
    lost := left.map (·.block) ++ d.before.lost }

namespace Op

variable [Disposable α] {σ : State α} {s : StackId} {stack : Stack α}

section

variable (hs : σ.lifos.get? s = some stack)

include hs

theorem outcome_dropStack :
    ((Op.dropStack s).deed σ).outcome =
      ⟨{ (σ.letGo stack.table).letGo stack.table with
        lifos := σ.lifos.erase s
        lost := (leftBehind stack.nodes).map (·.block) ++ σ.lost },
        (dismantled stack.nodes).flatMap (·.ends s) ++ stack.limbo.entries.map (.freed s),
        .ofUnit (endResult s stack.nodes)⟩ := by
  rw [← dismantle_events]
  exact deed_eq rfl (dropStack_eq hs)

theorem after_dropStack :
    ((Op.dropStack s).deed σ).after = { (σ.letGo stack.table).letGo stack.table with
      lifos := σ.lifos.erase s
      lost := (leftBehind stack.nodes).map (·.block) ++ σ.lost } := by
  rw [Deed.after, outcome_dropStack hs]

theorem freed_dropStack :
    ((Op.dropStack s).deed σ).freed =
      ((dismantled stack.nodes).map (·.block) ++ stack.limbo.entries).map (s, ·) := by
  rw [Deed.freed, Deed.events, outcome_dropStack hs, freedIn_append, ← dismantle_events,
    freedIn_dismantle, freedIn_map_freed, List.map_append, List.map_map]
  rfl

theorem destroyed_dropStack :
    ((Op.dropStack s).deed σ).destroyed = (dismantled stack.nodes).map (s, ·) := by
  rw [Deed.destroyed, Deed.events, outcome_dropStack hs, destroyedIn_append, ← dismantle_events,
    destroyedIn_dismantle, destroyedIn_map_freed, List.append_nil]

theorem nodup_dismantled (h : σ.Reachable) :
    ((dismantled stack.nodes).map (·.block) ++
      ((leftBehind stack.nodes).map (·.block) ++ stack.limbo.entries)).Nodup := by
  have hblocks : stack.blocks.Nodup := nodup_blocks_of_get? h.nodup_blocks hs
  rwa [Stack.blocks, ← dismantled_append_leftBehind stack.nodes, List.map_append,
    List.append_assoc] at hblocks

theorem dropStack_once (h : σ.Reachable) :
    ((Op.dropStack s).deed σ).freed.Nodup ∧
      (((Op.dropStack s).deed σ).destroyed.map fun e => (e.1, e.2.block)).Nodup := by
  have hnodup := nodup_dismantled hs h
  have hfreed : ((dismantled stack.nodes).map (·.block) ++ stack.limbo.entries).Nodup :=
    hnodup.sublist ((List.sublist_append_right _ _).append_left _)
  have hdestroyed := hnodup.of_append_left
  have hinj : Function.Injective fun b : Block => (s, b) := fun _ _ heq => (Prod.mk.inj heq).2
  rw [freed_dropStack hs, destroyed_dropStack hs, List.map_map]
  refine ⟨hfreed.map hinj, ?_⟩
  have hplaces := hdestroyed.map hinj
  rwa [List.map_map] at hplaces

theorem dropStack_spares (h : σ.Reachable) {node : Node α} (hnode : node ∈ leftBehind stack.nodes) :
    (s, node.block) ∉ ((Op.dropStack s).deed σ).freed ∧
      ∀ v, (s, ⟨node.block, v⟩) ∉ ((Op.dropStack s).deed σ).destroyed := by
  obtain ⟨-, hrest, hapart⟩ := List.nodup_append.1 (nodup_dismantled hs h)
  have hblock : node.block ∈ (leftBehind stack.nodes).map (·.block) := List.mem_map_of_mem hnode
  have hvisited : node.block ∉ (dismantled stack.nodes).map (·.block) := fun hmem =>
    hapart _ hmem _ (List.mem_append_left _ hblock) rfl
  have hlimbo : node.block ∉ stack.limbo.entries := fun hmem =>
    (List.nodup_append.1 hrest).2.2 _ hblock _ hmem rfl
  rw [freed_dropStack hs, destroyed_dropStack hs]
  constructor
  · intro hmem
    obtain ⟨b, hb, heq⟩ := List.mem_map.1 hmem
    obtain rfl := (Prod.mk.inj heq).2
    exact (List.mem_append.1 hb).elim hvisited hlimbo
  · intro v hmem
    obtain ⟨other, hother, heq⟩ := List.mem_map.1 hmem
    obtain rfl : other = ⟨node.block, v⟩ := (Prod.mk.inj heq).2
    exact hvisited (List.mem_map.2 ⟨_, hother, rfl⟩)

theorem refs_dropStack (h : σ.Reachable) (T : TableId) :
    σ.refs T = ((Op.dropStack s).deed σ).after.refs T + if T = stack.table then 2 else 0 := by
  obtain ⟨sign, shown, hsound⟩ := h.sound
  have htwo : 2 ≤ σ.refs stack.table := hsound.two_le_refs hs
  have hrefs : ((Op.dropStack s).deed σ).after.refs T =
      σ.refs T - if T = stack.table then 2 else 0 := by
    rw [after_dropStack hs]
    exact refs_letGo_letGo σ stack.table T
  rw [hrefs]
  split
  · rename_i heq
    rw [heq]
    exact (Nat.sub_add_cancel htwo).symm
  · rfl

theorem isSome_get?_dropStack (T : TableId) :
    (((Op.dropStack s).deed σ).after.tables.get? T).isSome =
      if T = stack.table ∧ σ.refs stack.table ≤ 2 then false else (σ.tables.get? T).isSome := by
  rw [after_dropStack hs]
  exact isSome_get?_letGo_letGo σ stack.table T

theorem slot?_dropStack {h : Handle} (hkept : ¬(h.table = stack.table ∧ σ.refs stack.table ≤ 2)) :
    ((Op.dropStack s).deed σ).after.slot? h = σ.slot? h := by
  rw [after_dropStack hs]
  exact slot?_letGo_letGo hkept

/-- A stack that is left still has its table, so the other's references to it were not the last. -/
theorem slot?_dropStack_of_stack (h : σ.Reachable) {s' : StackId} {other : Stack α}
    (hother : ((Op.dropStack s).deed σ).after.lifos.get? s' = some other) (i : Nat) :
    ((Op.dropStack s).deed σ).after.slot? ⟨other.table, i⟩ = σ.slot? ⟨other.table, i⟩ := by
  obtain ⟨sign, shown, hsound⟩ := (h.step (Op.dropStack s)).sound
  obtain ⟨⟨shared, hT⟩, -⟩ := hsound.table_of_stack hother
  refine slot?_dropStack hs fun hgone => ?_
  have hnone := isSome_get?_dropStack hs other.table
  rw [if_pos hgone, hT] at hnone
  cases hnone

theorem dismantles :
    Dismantles ((Op.dropStack s).deed σ) s stack (dismantled stack.nodes) (leftBehind stack.nodes) where
  events := congrArg Outcome.events (outcome_dropStack hs)
  once := dropStack_once hs
  spared h _ := dropStack_spares hs h
  references := refs_dropStack hs
  tables := isSome_get?_dropStack hs
  slots _ := slot?_dropStack hs
  others s' := by
    rw [after_dropStack hs]
    exact Registry.get?_erase ..
  guards h _ _ := slot?_dropStack_of_stack hs h
  rest := by
    have honly := (tablesOnly_letGo σ stack.table).trans (tablesOnly_letGo _ stack.table)
    rw [after_dropStack hs, honly.frame]
    rfl

end

/-- A stack ends from its top to its bottom, or to the first value whose destructor fails. -/
theorem dropStack_dismantles (hs : σ.lifos.get? s = some stack) :
    (Harmless stack.nodes →
      ((Op.dropStack s).deed σ).answer = .done ∧
      Dismantles ((Op.dropStack s).deed σ) s stack stack.nodes []) ∧
    ∀ above bad below message, stack.nodes = above ++ bad :: below → Harmless above →
      Disposable.fault? bad.value = some message →
        ((Op.dropStack s).deed σ).answer = .failed (.fault (.destructor message)) ∧
        Dismantles ((Op.dropStack s).deed σ) s stack (above ++ [bad]) below := by
  have hanswer : ((Op.dropStack s).deed σ).answer = .ofUnit (endResult s stack.nodes) :=
    congrArg Outcome.value (outcome_dropStack hs)
  have hends := dismantles hs
  have hwhole := dismantled_append_leftBehind stack.nodes
  constructor
  · intro hfine
    rw [dismantled_of_harmless hfine] at hends hwhole
    rw [List.append_right_eq_self.1 hwhole] at hends
    rw [endResult_of_harmless hfine] at hanswer
    exact ⟨hanswer, hends⟩
  · intro above bad below message hnodes habove hbad
    have hvisited : dismantled stack.nodes = above ++ [bad] := by
      rw [hnodes, dismantled_of_faulty habove hbad]
    have hleft : leftBehind stack.nodes = below := by
      rw [hvisited] at hwhole
      refine List.append_cancel_left (hwhole.trans ?_)
      rw [hnodes, List.append_assoc, List.singleton_append]
    rw [hvisited, hleft] at hends
    rw [hnodes, endResult_of_faulty habove hbad] at hanswer
    exact ⟨hanswer, hends⟩

/-- Stack 2 shares its table with stack 3. It holds three nodes, the middle one with a value whose
destructor fails, and one more waits in its limbo, still published. -/
def publishedThenFaulty : List (Op (Option String)) :=
  [.newTable 1 3, .newStack 2 1, .newStack 3 1, .startThread 4, .push 2 5 none, .acquire 4 1 6,
    .publish 6 (.block 5), .pop 4 2, .push 3 7 none, .push 2 8 none, .push 2 9 (some "drop"),
    .push 2 10 none]

theorem faulty_middle_dismantled :
    (after publishedThenFaulty).lifos.get? 2 =
        some ⟨1, [⟨10, none⟩, ⟨9, some "drop"⟩, ⟨8, none⟩], ⟨[5], 1⟩⟩ ∧
      (after publishedThenFaulty).publishes 1 (.block 5) = true ∧
      ((Op.dropStack 2).deed (after publishedThenFaulty)).answer = .failed (.fault (.destructor "drop")) ∧
      Dismantles ((Op.dropStack 2).deed (after publishedThenFaulty)) 2
        ⟨1, [⟨10, none⟩, ⟨9, some "drop"⟩, ⟨8, none⟩], ⟨[5], 1⟩⟩
        [⟨10, none⟩, ⟨9, some "drop"⟩] [⟨8, none⟩] := by
  have hs : (after publishedThenFaulty).lifos.get? 2 =
      some ⟨1, [⟨10, none⟩, ⟨9, some "drop"⟩, ⟨8, none⟩], ⟨[5], 1⟩⟩ := rfl
  have habove : Harmless [(⟨10, none⟩ : Node (Option String))] := fun _ hmem => by
    rw [List.mem_singleton.1 hmem]
    rfl
  exact ⟨hs, by decide,
    (dropStack_dismantles hs).2 [⟨10, none⟩] ⟨9, some "drop"⟩ [⟨8, none⟩] "drop" rfl habove rfl⟩

end Op

end HazardLifo
