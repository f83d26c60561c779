import HazardLifo.Proofs.Histories.Nodes
import HazardLifo.Proofs.Histories.References

/-!
# Conservation of values and nodes

An account of a run says of each push what became of its value and its node. Blocks are reused, so a
push goes by its time; the node that an operation finds in a block is the one pushed into it last.
-/

namespace HazardLifo

variable {α : Type}

/-- A node with the time of its push. -/
structure Life (α : Type) where
  birth : Nat
  stack : StackId
  node : Node α

def Life.place (l : Life α) : Nat × StackId × Block := (l.birth, l.stack, l.node.block)

/-- What became of the nodes pushed in a run. -/
structure Account (α : Type) where
  time : Nat := 0
  /-- When the last node was pushed into a block. -/
  birth : Block → Nat := fun _ => 0
  pushed : List (Life α) := []
  returned : List (Life α) := []
  destroyed : List (Life α) := []
  abandoned : List (Life α) := []
  freed : List (Nat × StackId × Block) := []

namespace Account

def life (a : Account α) (e : StackId × Node α) : Life α := ⟨a.birth e.2.block, e.1, e.2⟩

def stamp (a : Account α) (e : StackId × Block) : Nat × StackId × Block := (a.birth e.2, e)

/-- Takes one more operation into the account. -/
def record [Disposable α] (a : Account α) (d : Deed α) : Account α where
  time := a.time + 1
  birth b := if b ∈ d.pushed.map (·.2.block) then a.time else a.birth b
  pushed := d.pushed.map (fun e => ⟨a.time, e.1, e.2⟩) ++ a.pushed
  returned := d.popped.map a.life ++ a.returned
  destroyed := d.destroyed.map a.life ++ a.destroyed
  abandoned := d.abandoned.map a.life ++ a.abandoned
  freed := d.freed.map a.stamp ++ a.freed

end Account

open State Op

def Op.account [Disposable α] (ops : List (Op α)) : Account α := (history ops).foldl .record {}

theorem Op.account_concat [Disposable α] (ops : List (Op α)) (op : Op α) :
    account (ops ++ [op]) = (account ops).record (op.deed (after ops)) := by
  rw [account, history_concat, List.foldl_append]
  rfl

namespace Effect

variable [Disposable α] {d : Deed α}

theorem pushed_cases (h : Effect d) :
    d.pushed = [] ∨ ∃ e, d.pushed = [e] ∧ e.2.block ∉ d.before.blocks ∧ d.popped = [] ∧
      d.destroyed = [] ∧ d.abandoned = [] ∧ d.freed = [] := by
  cases h with
  | quiet work | made s T work | dropped s stack work =>
    left
    rw [Deed.pushed, work]
  | tended s stack stack' gone work => exact .inl (pushed_eq_nil work).1
  | pushed s stack node work _ fresh _ _ events =>
    refine .inr ⟨(s, node), ?_, fresh, ?_, events.destroyedIn, ?_, events.freedIn⟩
    · rw [Deed.pushed, work]
    · rw [Deed.popped, work]
    · rw [Deed.abandoned, work]

end Effect

/-- The account of a run that led to the state is balanced. -/
structure Account.Balanced (a : Account α) (σ : State α) : Prop where
  nodes : a.pushed.Perm (a.returned ++ a.destroyed ++ a.abandoned ++ σ.linked.map a.life)
  places : (a.pushed.map Life.place).Perm
    (a.freed ++ a.abandoned.map Life.place ++ σ.places.map a.stamp)
  past : ∀ l ∈ a.pushed, l.birth < a.time
  births : (a.pushed.map (·.birth)).Nodup

namespace Account.Balanced

variable [Disposable α] {a : Account α} {d : Deed α}

theorem record_of_none (h : a.Balanced d.before) (he : Effect d) (hnone : d.pushed = []) :
    (a.record d).Balanced d.after := by
  have hlife : (a.record d).life = a.life := by
    funext e
    simp [life, Account.record, hnone]
  have hstamp : (a.record d).stamp = a.stamp := by
    funext e
    simp [stamp, Account.record, hnone]
  have hpushed : (a.record d).pushed = a.pushed := by
    rw [Account.record, hnone]
    rfl
  have hnodes := (he.nodes_balance.map a.life)
  have hplaces := (he.places_balance.map a.stamp)
  rw [hnone] at hnodes hplaces
  refine ⟨?_, ?_, fun l hl => ?_, ?_⟩
  · rw [hlife, hpushed]
    classical
    refine List.perm_iff_count.2 fun l => ?_
    have hold := h.nodes.count_eq l
    have hmoved := hnodes.count_eq l
    simp only [Account.record, List.map_append, List.map_nil, List.count_append, List.count_nil] at *
    omega
  · rw [hstamp, hpushed]
    refine List.perm_iff_count.2 fun l => ?_
    have hold := h.places.count_eq l
    have hmoved := hplaces.count_eq l
    have hab : (d.abandoned.map place).map a.stamp = (d.abandoned.map a.life).map Life.place := by
      simp only [List.map_map]
      rfl
    simp only [Account.record, List.map_append, List.map_nil, List.count_append, List.count_nil, hab] at *
    omega
  · rw [hpushed] at hl
    exact Nat.lt_succ_of_lt (h.past l hl)
  · rw [hpushed]
    exact h.births

theorem record_of_push (h : a.Balanced d.before) (he : Effect d) {e : StackId × Node α}
    (hone : d.pushed = [e]) (hfresh : e.2.block ∉ d.before.blocks) (hpopped : d.popped = [])
    (hdestroyed : d.destroyed = []) (habandoned : d.abandoned = []) (hfreed : d.freed = []) :
    (a.record d).Balanced d.after := by
  have hbirth : ∀ b ∈ d.before.blocks, (a.record d).birth b = a.birth b := fun b hb => by
    have hne : b ≠ e.2.block := fun heq => hfresh (heq ▸ hb)
    simp [Account.record, hone, hne]
  have hborn : (a.record d).birth e.2.block = a.time := by simp [Account.record, hone]
  have hlinked : d.before.linked.map (a.record d).life = d.before.linked.map a.life :=
    List.map_congr_left fun f hf => by rw [life, hbirth _ (block_mem_of_mem_linked hf), life]
  have hplaced : d.before.places.map (a.record d).stamp = d.before.places.map a.stamp :=
    List.map_congr_left fun f hf => by rw [stamp, hbirth _ (block_mem_of_mem_places hf), stamp]
  have hpushed : (a.record d).pushed = ⟨a.time, e.1, e.2⟩ :: a.pushed := by
    rw [Account.record, hone]
    rfl
  have hnodes := he.nodes_balance.map (a.record d).life
  have hplaces := he.places_balance.map (a.record d).stamp
  rw [hone, hpopped, hdestroyed, habandoned] at hnodes
  rw [hone, hfreed, habandoned] at hplaces
  simp only [List.map_cons, List.map_nil, List.nil_append, List.singleton_append, hlinked,
    hplaced] at hnodes hplaces
  have hnew : (a.record d).life e = ⟨a.time, e.1, e.2⟩ := by rw [life, hborn]
  have hnew' : (a.record d).stamp (place e) = (a.time, e.1, e.2.block) := by
    rw [stamp, place, hborn]
  rw [hnew] at hnodes
  rw [hnew'] at hplaces
  refine ⟨?_, ?_, fun l hl => ?_, ?_⟩
  · have hrest : (a.record d).returned ++ (a.record d).destroyed ++ (a.record d).abandoned =
        a.returned ++ a.destroyed ++ a.abandoned := by
      simp only [Account.record, hpopped, hdestroyed, habandoned, List.map_nil, List.nil_append]
    rw [hpushed, hrest]
    refine (h.nodes.cons _).trans (List.perm_middle.symm.trans ?_)
    exact hnodes.append_left _
  · have hrest : (a.record d).freed ++ (a.record d).abandoned.map Life.place =
        a.freed ++ a.abandoned.map Life.place := by
      simp only [Account.record, hfreed, habandoned, List.map_nil, List.nil_append]
    rw [hpushed, hrest]
    refine (h.places.cons _).trans (List.perm_middle.symm.trans ?_)
    exact hplaces.append_left _
  · rw [hpushed] at hl
    rcases List.mem_cons.1 hl with rfl | hl
    · exact Nat.lt_succ_self _
    · exact Nat.lt_succ_of_lt (h.past l hl)
  · rw [hpushed, List.map_cons, List.nodup_cons]
    refine ⟨fun hmem => ?_, h.births⟩
    obtain ⟨l, hl, heq⟩ := List.mem_map.1 hmem
    exact absurd (h.past l hl) (heq ▸ Nat.lt_irrefl _)

theorem record (h : a.Balanced d.before) (he : Effect d) : (a.record d).Balanced d.after := by
  rcases he.pushed_cases with hnone | ⟨e, hone, hfresh, hpopped, hdestroyed, habandoned, hfreed⟩
  · exact h.record_of_none he hnone
  · exact h.record_of_push he hone hfresh hpopped hdestroyed habandoned hfreed

end Account.Balanced

namespace Op

variable [Disposable α]

theorem account_balanced (ops : List (Op α)) : (account ops).Balanced (after ops) := by
  induction ops using List.reverseRecOn with
  | nil => exact ⟨.refl _, .refl _, fun l hl => (List.not_mem_nil hl).elim, List.nodup_nil⟩
  | append_singleton ops op ih =>
    rw [account_concat, after_concat]
    exact ih.record (effect ops op)

/-! ## After a complete tear-down -/

/-- Every pushed value was returned by one pop, or destroyed or left behind by the end of one stack.
The nodes of those that were returned or destroyed are freed once. -/
structure Settled (a : Account α) : Prop where
  values : a.pushed.Perm (a.returned ++ a.destroyed ++ a.abandoned)
  once : (a.returned ++ a.destroyed ++ a.abandoned).Nodup
  nodes : a.freed.Perm ((a.returned ++ a.destroyed).map Life.place)
  freedOnce : a.freed.Nodup

theorem settled_of_tornDown (ops : List (Op α)) (h : TornDown (after ops)) : Settled (account ops) := by
  have hb := account_balanced ops
  have hentries : (after ops).lifos.entries = [] := List.map_eq_nil_iff.1 h.lifos
  have hlinked : (after ops).linked = [] := by rw [linked, hentries, List.flatMap_nil]
  have hplaces : (after ops).places = [] := by rw [places, hentries, List.flatMap_nil]
  have hvalues := hb.nodes
  rw [hlinked, List.map_nil, List.append_nil] at hvalues
  have hnodes : (account ops).freed.Perm
      (((account ops).returned ++ (account ops).destroyed).map Life.place) := by
    have hall := hb.places
    rw [hplaces, List.map_nil, List.append_nil] at hall
    refine (List.perm_append_right_iff ((account ops).abandoned.map Life.place)).1 ?_
    rw [← List.map_append]
    exact hall.symm.trans (hvalues.map _)
  have hbirths : ((account ops).returned ++ (account ops).destroyed ++
      (account ops).abandoned).map (·.birth) |>.Nodup := (hvalues.map _).nodup_iff.1 hb.births
  refine ⟨hvalues, hbirths.of_map, hnodes, hnodes.nodup_iff.2 ?_⟩
  rw [List.map_append] at hbirths
  refine List.Nodup.of_map Prod.fst ?_
  rw [List.map_map]
  exact hbirths.of_append_left

/-! ## How values leave stacks -/

theorem exists_of_mem_leftBehind {node : Node α} {nodes : List (Node α)} (h : node ∈ leftBehind nodes) :
    ∃ above bad below, nodes = above ++ bad :: below ∧ (Disposable.fault? bad.value).isSome ∧
      node ∈ below := by
  induction nodes with
  | nil => cases h
  | cons first rest ih =>
    rw [leftBehind] at h
    split at h
    · rename_i hf
      exact ⟨[], first, rest, rfl, hf, h⟩
    · obtain ⟨above, bad, below, rfl, hf, hmem⟩ := ih h
      exact ⟨first :: above, bad, below, rfl, hf, hmem⟩

theorem dropStack_of_abandoned {d : Deed α} {e : StackId × Node α} (he : e ∈ d.abandoned) :
    d.op = .dropStack e.1 ∧ e.2 ∈ leftBehind (d.before.nodesOf e.1) := by
  unfold Deed.abandoned at he
  split at he
  · rename_i s hw
    obtain ⟨node, hnode, rfl⟩ := List.mem_map.1 he
    exact ⟨work_eq_dropped hw, hnode⟩
  · cases he

/-- Only the end of its stack leaves a node behind, below one whose destructor fails. -/
theorem exists_of_mem_abandoned {ops : List (Op α)} {l : Life α} (hl : l ∈ (account ops).abandoned) :
    ∃ d ∈ history ops, d.op = .dropStack l.stack ∧ ∃ above bad below,
      d.before.nodesOf l.stack = above ++ bad :: below ∧ (Disposable.fault? bad.value).isSome ∧
        l.node ∈ below := by
  induction ops using List.reverseRecOn with
  | nil => cases hl
  | append_singleton ops op ih =>
    rw [account_concat] at hl
    rw [history_concat]
    rcases List.mem_append.1 hl with hnew | hold
    · obtain ⟨e, he, rfl⟩ := List.mem_map.1 hnew
      obtain ⟨hop, hleft⟩ := dropStack_of_abandoned he
      exact ⟨_, List.mem_append_right _ List.mem_cons_self, hop, exists_of_mem_leftBehind hleft⟩
    · obtain ⟨d, hd, hrest⟩ := ih hold
      exact ⟨d, List.mem_append_left _ hd, hrest⟩

theorem dropStack_of_destroyed {d : Deed α} (h : Effect d) {e : StackId × Node α} (he : e ∈ d.destroyed) :
    d.op = .dropStack e.1 := by
  cases h with
  | quiet _ _ _ events | made _ _ _ _ _ _ events | pushed _ _ _ _ _ _ _ _ events =>
    rw [Deed.destroyed, events.destroyedIn] at he
    cases he
  | tended _ _ _ _ _ _ _ _ _ _ _ _ _ destroyed =>
    rw [destroyed] at he
    cases he
  | dropped s stack work _ _ _ _ destroyed =>
    rw [destroyed] at he
    obtain ⟨node, -, rfl⟩ := List.mem_map.1 he
    exact work_eq_dropped work

/-- From a live stack an operation takes nothing, or it pops the top. -/
theorem taken_by_pop {d : Deed α} (h : Effect d) {s : StackId} {stack stack' : Stack α}
    (hs : d.before.lifos.get? s = some stack) (hs' : d.after.lifos.get? s = some stack') :
    (∃ node, stack.nodes = node :: stack'.nodes ∧ d.answer = .popped node.value ∧
      ((∃ t, d.op = .pop t s) ∨ ∃ n, d.op = .popWith s n)) ∨
    ∃ new, stack'.nodes = new ++ stack.nodes := by
  cases h with
  | quiet work lifos _ _ =>
    rw [lifos, hs] at hs'
    obtain rfl := Option.some.inj hs'
    exact .inr ⟨[], rfl⟩
  | made s₀ T work fresh lifos _ _ =>
    rw [lifos, Registry.get?_insert, if_neg (fun heq => by rw [← heq, hs] at fresh; cases fresh), hs] at hs'
    obtain rfl := Option.some.inj hs'
    exact .inr ⟨[], rfl⟩
  | pushed s₀ stack₀ node work there _ lifos _ _ =>
    rw [lifos, Registry.get?_modify] at hs'
    split at hs'
    · rename_i heq
      subst heq
      rw [there] at hs hs'
      obtain rfl := Option.some.inj hs
      obtain rfl := Option.some.inj hs'
      exact .inr ⟨[node], rfl⟩
    · obtain rfl := Option.some.inj (hs.symm.trans hs')
      exact .inr ⟨[], rfl⟩
  | tended s₀ stack₀ stack₁ gone work there table nodes _ lifos _ _ _ _ =>
    rw [lifos, Registry.get?_modify] at hs'
    split at hs'
    · rename_i heq
      subst heq
      rw [there] at hs hs'
      obtain rfl := Option.some.inj hs
      obtain rfl := Option.some.inj hs'
      rcases work with ⟨rfl, -⟩ | ⟨node, rfl, hw⟩
      · exact .inr ⟨[], nodes.symm⟩
      · exact .inl ⟨node, nodes, work_eq_popped hw⟩
    · obtain rfl := Option.some.inj (hs.symm.trans hs')
      exact .inr ⟨[], rfl⟩
  | dropped s₀ stack₀ work there lifos _ _ _ =>
    rw [lifos, Registry.get?_erase] at hs'
    split at hs'
    · cases hs'
    · obtain rfl := Option.some.inj (hs.symm.trans hs')
      exact .inr ⟨[], rfl⟩

/-- What became of the values and nodes of a run. -/
structure Conservation (ops : List (Op α)) : Prop where
  births : ((account ops).pushed.map (·.birth)).Nodup
  settled : TornDown (after ops) → Settled (account ops)
  /-- A value is left behind only below a linked one whose destructor fails at the stack's end. -/
  abandoned : ∀ l ∈ (account ops).abandoned, ∃ d ∈ history ops, d.op = .dropStack l.stack ∧
    ∃ above bad below, d.before.nodesOf l.stack = above ++ bad :: below ∧
      (Disposable.fault? bad.value).isSome ∧ l.node ∈ below
  destroyed : ∀ d ∈ history ops, ∀ e ∈ d.destroyed, d.op = .dropStack e.1
  /-- A value leaves a stack that lives on only by a pop. -/
  taken : ∀ d ∈ history ops, ∀ s stack stack', d.before.lifos.get? s = some stack →
    d.after.lifos.get? s = some stack' →
    (∃ node, stack.nodes = node :: stack'.nodes ∧ d.answer = .popped node.value ∧
      ((∃ t, d.op = .pop t s) ∨ ∃ n, d.op = .popWith s n)) ∨
    ∃ new, stack'.nodes = new ++ stack.nodes

theorem values_conserved (ops : List (Op α)) : Conservation ops where
  births := (account_balanced ops).births
  settled := settled_of_tornDown ops
  abandoned _ := exists_of_mem_abandoned
  destroyed d hd e he := by
    obtain ⟨past, op, -, rfl⟩ := exists_deed_of_mem_history hd
    exact dropStack_of_destroyed (effect past op) he
  taken d hd s stack stack' hs hs' := by
    obtain ⟨past, op, -, rfl⟩ := exists_deed_of_mem_history hd
    exact taken_by_pop (effect past op) hs hs'

/-- Four values are returned, one fails to be destroyed, and the one below it is left behind. -/
theorem everything_settled :
    Settled (account everythingEnds) ∧ (account everythingEnds).returned.length = 4 ∧
      (account everythingEnds).destroyed.length = 1 ∧ (account everythingEnds).abandoned.length = 1 :=
  ⟨(values_conserved everythingEnds).settled
    ⟨by decide +kernel, by decide +kernel, by decide +kernel, by decide +kernel⟩,
    by decide +kernel, by decide +kernel, by decide +kernel⟩

end Op

end HazardLifo
