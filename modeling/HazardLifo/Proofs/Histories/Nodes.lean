import HazardLifo.Proofs.Histories.Effects
import HazardLifo.Proofs.Histories.Ownership

/-!
# Where nodes are

A node that was pushed is linked in its stack until it is popped or its stack ends, and in use until
it is freed or left behind. The balances say so for one operation. No two nodes in use lie in one
block.
-/

namespace HazardLifo

variable {α : Type}

namespace Registry

variable {β γ : Type} {r : Registry β} {k : Nat} {b : β}

theorem flatMap_entries_perm (hk : r.get? k = some b) (f : Nat × β → List γ) :
    (r.entries.flatMap f).Perm (f (k, b) ++ (r.erase k).entries.flatMap f) :=
  (entries_perm hk).flatMap_right f

theorem flatMap_entries_modify_perm (hk : r.get? k = some b) (b' : β) (f : Nat × β → List γ) :
    ((r.modify k fun _ => b').entries.flatMap f).Perm (f (k, b') ++ (r.erase k).entries.flatMap f) :=
  (entries_modify_perm hk _).flatMap_right f

theorem flatMap_entries_insert (hk : r.get? k = none) (f : Nat × β → List γ) :
    (r.insert k b).entries.flatMap f = r.entries.flatMap f ++ f (k, b) := by
  rw [entries_insert hk, List.flatMap_append, List.flatMap_singleton]

end Registry

namespace State

def linked (σ : State α) : List (StackId × Node α) :=
  σ.lifos.entries.flatMap fun e => e.2.nodes.map (e.1, ·)

/-- The blocks of all nodes of stacks, with their stacks. -/
def places (σ : State α) : List (StackId × Block) :=
  σ.lifos.entries.flatMap fun e => e.2.blocks.map (e.1, ·)

def nodesOf (σ : State α) (s : StackId) : List (Node α) := (σ.lifos.get? s).elim [] (·.nodes)

def limboOf (σ : State α) (s : StackId) : List Block := (σ.lifos.get? s).elim [] (·.limbo.entries)

theorem blocks_eq (σ : State α) : σ.blocks = σ.lost ++ σ.places.map (·.2) := by
  rw [blocks, places, Registry.values, List.flatMap_map, List.map_flatMap]
  simp only [List.map_map]
  congr 2
  funext e
  exact (List.map_id _).symm

theorem mem_blocks_of_get? {σ : State α} {s : StackId} {stack : Stack α} {b : Block}
    (hs : σ.lifos.get? s = some stack) (hb : b ∈ stack.blocks) : b ∈ σ.blocks :=
  List.mem_append_right _ (List.mem_flatMap.2 ⟨stack, Registry.mem_values_iff.2 ⟨s, hs⟩, hb⟩)

theorem nodup_blocks_of_get? {σ : State α} {s : StackId} {stack : Stack α} (hn : σ.blocks.Nodup)
    (hs : σ.lifos.get? s = some stack) : stack.blocks.Nodup :=
  (List.nodup_flatMap.1 hn.of_append_right).1 stack (Registry.mem_values_iff.2 ⟨s, hs⟩)

theorem block_mem_of_mem_linked {σ : State α} {e : StackId × Node α} (he : e ∈ σ.linked) :
    e.2.block ∈ σ.blocks := by
  obtain ⟨p, hp, hm⟩ := List.mem_flatMap.1 he
  obtain ⟨node, hnode, rfl⟩ := List.mem_map.1 hm
  refine mem_blocks_of_get? (Registry.get?_eq_some_iff.2 hp) ?_
  exact List.mem_append_left _ (List.mem_map_of_mem hnode)

theorem block_mem_of_mem_places {σ : State α} {e : StackId × Block} (he : e ∈ σ.places) :
    e.2 ∈ σ.blocks := by
  rw [blocks_eq]
  exact List.mem_append_right _ (List.mem_map_of_mem he)

end State

def place (e : StackId × Node α) : StackId × Block := (e.1, e.2.block)

namespace Deed

def pushed (d : Deed α) : List (StackId × Node α) :=
  match d.work with
  | .pushed s node => [(s, node)]
  | _ => []

/-- The node whose value the operation returned: the top node of the stack held it. -/
def popped (d : Deed α) : List (StackId × Node α) :=
  match d.work with
  | .popped s v => (d.before.nodesOf s).head?.toList.map fun node => (s, ⟨node.block, v⟩)
  | _ => []

/-- The nodes that the end of their stack left behind, linked below one whose destructor failed. -/
def abandoned [Disposable α] (d : Deed α) : List (StackId × Node α) :=
  match d.work with
  | .dropped s => (State.leftBehind (d.before.nodesOf s)).map (s, ·)
  | _ => []

end Deed

open State

namespace Effect

variable {d : Deed α} {s : StackId} {stack stack' : Stack α} {gone rest : List (Node α)}

theorem popped_eq
    (work : (gone = [] ∧ d.work = .swept s) ∨ ∃ node, gone = [node] ∧ d.work = .popped s node.value)
    (there : d.before.lifos.get? s = some stack) (nodes : stack.nodes = gone ++ rest) :
    d.popped = gone.map (s, ·) := by
  rcases work with ⟨rfl, hw⟩ | ⟨node, rfl, hw⟩
  · rw [Deed.popped, hw]
    rfl
  · rw [Deed.popped, hw]
    simp only [nodesOf, there, Option.elim_some, nodes]
    rfl

theorem pushed_eq_nil [Disposable α]
    (work : (gone = [] ∧ d.work = .swept s) ∨ ∃ node, gone = [node] ∧ d.work = .popped s node.value) :
    d.pushed = [] ∧ d.abandoned = [] := by
  rcases work with ⟨-, hw⟩ | ⟨node, -, hw⟩ <;> simp [Deed.pushed, Deed.abandoned, hw]

theorem blocks_perm (p : Block → Bool) (nodes : stack.nodes = gone ++ stack'.nodes)
    (kept : stack'.limbo.entries = ((gone.map (·.block) ++ stack.limbo.entries).filter p).reverse) :
    stack.blocks.Perm
      ((gone.map (·.block) ++ stack.limbo.entries).filter (!p ·) ++ stack'.blocks) := by
  let waiting := gone.map (·.block) ++ stack.limbo.entries
  let below := stack'.nodes.map (·.block)
  have hsplit : (waiting.filter (!p ·) ++ waiting.filter p).Perm waiting :=
    List.perm_append_comm.trans (List.filter_append_perm p waiting)
  have hkept : (below ++ (waiting.filter p).reverse).Perm (waiting.filter p ++ below) :=
    List.perm_append_comm.trans ((List.reverse_perm _).append_right _)
  calc stack.blocks
      = gone.map (·.block) ++ below ++ stack.limbo.entries := by
        rw [Stack.blocks, nodes, List.map_append]
    List.Perm _ (waiting ++ below) := by
        rw [List.append_assoc, List.append_assoc]
        exact List.perm_append_comm.append_left _
    List.Perm _ (waiting.filter (!p ·) ++ waiting.filter p ++ below) := hsplit.symm.append_right _
    List.Perm _ (waiting.filter (!p ·) ++ stack'.blocks) := by
        rw [Stack.blocks, kept, List.append_assoc]
        exact hkept.symm.append_left _

section

variable [Disposable α]

/-- What was pushed is linked until it is popped, destroyed or left behind. -/
theorem nodes_balance (h : Effect d) :
    (d.pushed ++ d.before.linked).Perm (d.popped ++ d.destroyed ++ d.abandoned ++ d.after.linked) := by
  cases h with
  | quiet work lifos lost events =>
    simp [Deed.pushed, Deed.popped, Deed.abandoned, work, Deed.destroyed, events.destroyedIn, linked, lifos]
  | made s T work fresh lifos lost events =>
    simp [Deed.pushed, Deed.popped, Deed.abandoned, work, Deed.destroyed, events.destroyedIn, linked, lifos,
      Registry.flatMap_entries_insert fresh]
  | pushed s stack node work there fresh lifos lost events =>
    simp only [Deed.pushed, Deed.popped, Deed.abandoned, work, Deed.destroyed, events.destroyedIn,
      List.nil_append, linked, lifos]
    refine ((Registry.flatMap_entries_perm there _).append_left _).trans ?_
    refine List.Perm.trans ?_ (Registry.flatMap_entries_modify_perm there _ _).symm
    exact .refl _
  | tended s stack stack' gone work there table nodes published lifos lost kept freed destroyed =>
    rw [popped_eq work there nodes, (pushed_eq_nil work).1, (pushed_eq_nil work).2, destroyed,
      List.nil_append, List.append_nil, List.append_nil, linked, linked, lifos]
    refine (Registry.flatMap_entries_perm there _).trans ?_
    refine List.Perm.trans ?_
      ((Registry.flatMap_entries_modify_perm there stack' _).append_left (gone.map (s, ·))).symm
    rw [nodes, List.map_append, List.append_assoc]
  | dropped s stack work there lifos lost freed destroyed =>
    rw [destroyed, linked, linked, lifos]
    simp only [Deed.pushed, Deed.popped, Deed.abandoned, work, List.nil_append, nodesOf, there,
      Option.elim_some]
    rw [← List.map_append, dismantled_append_leftBehind]
    exact Registry.flatMap_entries_perm there _

/-- A node is in use until it is freed or left behind. -/
theorem places_balance (h : Effect d) :
    (d.pushed.map place ++ d.before.places).Perm
      (d.freed ++ d.abandoned.map place ++ d.after.places) := by
  cases h with
  | quiet work lifos lost events =>
    simp [Deed.pushed, Deed.abandoned, work, Deed.freed, events.freedIn, places, lifos]
  | made s T work fresh lifos lost events =>
    simp [Deed.pushed, Deed.abandoned, work, Deed.freed, events.freedIn, places, lifos,
      Registry.flatMap_entries_insert fresh, Stack.blocks]
  | pushed s stack node work there fresh lifos lost events =>
    simp only [Deed.pushed, Deed.abandoned, work, Deed.freed, events.freedIn, List.nil_append,
      List.map_nil, places, lifos]
    refine ((Registry.flatMap_entries_perm there _).append_left _).trans ?_
    refine List.Perm.trans ?_ (Registry.flatMap_entries_modify_perm there _ _).symm
    exact .refl _
  | tended s stack stack' gone work there table nodes published lifos lost kept freed destroyed =>
    rw [(pushed_eq_nil work).1, (pushed_eq_nil work).2, freed, List.map_nil, List.nil_append,
      List.append_nil, places, places, lifos]
    refine (Registry.flatMap_entries_perm there _).trans ?_
    refine List.Perm.trans ?_
      ((Registry.flatMap_entries_modify_perm there stack' _).append_left _).symm
    rw [← List.append_assoc, ← List.map_append]
    exact ((blocks_perm _ nodes kept).map _).append_right _
  | dropped s stack work there lifos lost freed destroyed =>
    rw [freed, places, places, lifos]
    simp only [Deed.pushed, Deed.abandoned, work, List.nil_append, List.map_nil, nodesOf, there,
      Option.elim_some]
    refine (Registry.flatMap_entries_perm there _).trans ?_
    refine List.Perm.append_right _ ?_
    have hblocks : stack.blocks = (dismantled stack.nodes).map (·.block) ++
        ((leftBehind stack.nodes).map (·.block) ++ stack.limbo.entries) := by
      rw [← List.append_assoc, ← List.map_append, dismantled_append_leftBehind, Stack.blocks]
    have hleft : ((leftBehind stack.nodes).map (s, ·)).map place =
        ((leftBehind stack.nodes).map (·.block)).map (s, ·) := by
      rw [List.map_map, List.map_map]
      rfl
    rw [hleft, hblocks, ← List.map_append, List.append_assoc]
    exact (List.perm_append_comm.append_left _).map _

theorem lost_eq (h : Effect d) : d.after.lost = d.abandoned.map (·.2.block) ++ d.before.lost := by
  cases h with
  | quiet work _ lost _ => rw [lost, Deed.abandoned, work]; rfl
  | made s T work _ _ lost _ => rw [lost, Deed.abandoned, work]; rfl
  | pushed s stack node work _ _ _ lost _ => rw [lost, Deed.abandoned, work]; rfl
  | tended s stack stack' gone work _ _ _ _ _ lost _ _ _ => rw [lost, (pushed_eq_nil work).2]; rfl
  | dropped s stack work there _ lost _ _ =>
    simp only [lost, Deed.abandoned, work, nodesOf, there, Option.elim_some, List.map_map]
    rfl

/-- A block is in use until it is freed. -/
theorem blocks_balance (h : Effect d) :
    (d.pushed.map (·.2.block) ++ d.before.blocks).Perm (d.freed.map (·.2) ++ d.after.blocks) := by
  have hplaces := h.places_balance.map Prod.snd
  simp only [List.map_append, List.map_map] at hplaces
  rw [blocks_eq, blocks_eq, h.lost_eq]
  refine (List.perm_append_comm_assoc ..).trans ((hplaces.append_left _).trans ?_)
  rw [List.append_assoc, List.append_assoc]
  refine (List.perm_append_comm_assoc ..).trans (List.Perm.append_left _ ?_)
  exact List.perm_append_comm_assoc ..

theorem nodup_pushed (h : Effect d) (hd : d.before.blocks.Nodup) :
    (d.pushed.map (·.2.block) ++ d.before.blocks).Nodup := by
  cases h with
  | pushed s stack node work _ fresh _ _ _ =>
    rw [Deed.pushed, work]
    exact List.nodup_cons.2 ⟨fresh, hd⟩
  | quiet work | made s T work | dropped s stack work =>
    rw [Deed.pushed, work]
    exact hd
  | tended s stack stack' gone work =>
    rw [(pushed_eq_nil work).1]
    exact hd

theorem nodup_blocks (h : Effect d) (hd : d.before.blocks.Nodup) :
    (d.freed.map (·.2) ++ d.after.blocks).Nodup :=
  h.blocks_balance.nodup_iff.1 (h.nodup_pushed hd)

end

end Effect

namespace Op

variable [Disposable α]

theorem effect (ops : List (Op α)) (op : Op α) : Effect (op.deed (after ops)) := by
  obtain ⟨sign, shown, hsound, -⟩ := sound_after ops
  exact hsound.effect op

theorem nodup_blocks (ops : List (Op α)) : (after ops).blocks.Nodup := by
  induction ops using List.reverseRecOn with
  | nil => exact List.nodup_nil
  | append_singleton ops op ih =>
    rw [after_concat]
    exact ((effect ops op).nodup_blocks ih).of_append_right

end Op

end HazardLifo
