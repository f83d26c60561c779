import HazardLifo.Proofs.Histories.Aftermath
import HazardLifo.Proofs.Histories.Nodes

/-!
# How much waits in limbo

A pop sweeps the limbo of its stack: what waits afterwards is published by slots of the table, and
the slot that the pop went through publishes nothing. So fewer nodes wait than the table has slots.
No other operation adds to a limbo, so this holds after each operation, also when the slots by then
publish other nodes or nothing (`garbage_bounded`).
-/

namespace HazardLifo

variable {α : Type}

/-! ## The gauge of a limbo -/

namespace Limbo

/-- The gauge counts the entries, as far as a machine word can. -/
def Counted (L : Limbo) : Prop := L.gauge = UInt64.ofNat L.entries.length

variable {L : Limbo}

theorem counted_empty : Counted {} := rfl

theorem Counted.retire (h : L.Counted) (b : Block) : (L.retire b).Counted := by
  rw [Counted, Limbo.retire, List.length_cons, UInt64.ofNat_add, ← h]
  rfl

theorem Counted.intake (h : L.Counted) (published : Block → Bool) (b : Block) :
    (L.intake published b).Counted := by
  rw [Limbo.intake]
  split
  · exact h.retire b
  · exact h

theorem Counted.sweep (h : L.Counted) (published : Block → Bool) :
    (L.sweep published).1.Counted := by
  have hlength := List.length_eq_length_filter_add (l := L.entries) published
  rw [sweep_eq, Counted, h, hlength, UInt64.ofNat_add, List.length_reverse]
  exact UInt64.add_sub_cancel ..

theorem Counted.toNat_gauge (h : L.Counted) (hfits : L.entries.length < UInt64.size) :
    L.gauge.toNat = L.entries.length := by
  rw [h, UInt64.toNat_ofNat', Nat.mod_eq_of_lt hfits]

end Limbo

/-! ## Fewer published blocks than slots -/

namespace SlotTable

theorem length_lt_capacity {T : SlotTable} {bs : List Block} (hn : bs.Nodup)
    (hpublished : ∀ b ∈ bs, T.publishes (.block b)) (hsilent : ∃ s ∈ T.slots, s.published = .null) :
    bs.length < T.capacity := by
  have hnull : Address.null ∉ bs.map .block := fun hmem => by
    obtain ⟨b, -, hb⟩ := List.mem_map.1 hmem
    exact Address.block_ne_null b hb
  have hblocks : (bs.map Address.block).Nodup := hn.map fun _ _ heq => Address.block.inj heq
  have hsub : .null :: bs.map .block ⊆ T.slots.map (·.published) := fun a ha => by
    rcases List.mem_cons.1 ha with rfl | ha
    · exact List.mem_map.2 hsilent
    · obtain ⟨b, hb, rfl⟩ := List.mem_map.1 ha
      exact List.mem_map.2 (publishes_eq_true_iff.1 (hpublished b hb)).2
  have hle := (List.nodup_cons.2 ⟨hnull, hblocks⟩).length_le_of_subset hsub
  rwa [List.length_cons, List.length_map, List.length_map] at hle

theorem capacity_free (n : Nat) : (free n).capacity = n := List.length_replicate

theorem capacity_of_claim {T T' : SlotTable} {k : Token} {i : Nat} (h : T.claim? k = some (i, T')) :
    T'.capacity = T.capacity := by
  obtain ⟨-, -, rfl⟩ := claim?_eq_some_iff.1 h
  exact capacity_modify ..

/-- A table is made with at least one slot, and with fewer than memory can hold. -/
def Sized (T : SlotTable) : Prop := 0 < T.capacity ∧ T.capacity < capacityBound

theorem sized_of_ofCapacity {n : Nat} {T : SlotTable} (h : ofCapacity n = .ok T) : T.Sized := by
  unfold ofCapacity at h
  split at h
  · cases h
  · rename_i h0
    split at h
    · cases h
    · rename_i hb
      obtain rfl := Except.ok.inj h
      rw [Sized, capacity_free]
      exact ⟨Nat.pos_of_ne_zero h0, Nat.not_le.1 hb⟩

end SlotTable

/-! ## Tables keep their capacity -/

namespace State

def SameRoom (σ σ' : State α) : Prop :=
  ∀ T shared', σ'.tables.get? T = some shared' →
    ∃ shared, σ.tables.get? T = some shared ∧ shared'.slots.capacity = shared.slots.capacity

variable {σ σ' σ'' : State α} {T : TableId}

theorem SameRoom.of_tables (h : σ'.tables = σ.tables) : SameRoom σ σ' := fun _ shared' hT =>
  ⟨shared', h ▸ hT, rfl⟩

theorem SameRoom.trans (h : SameRoom σ σ') (h' : SameRoom σ' σ'') : SameRoom σ σ'' := by
  intro T shared'' hT
  obtain ⟨shared', hT', heq'⟩ := h' T shared'' hT
  obtain ⟨shared, hT, heq⟩ := h T shared' hT'
  exact ⟨shared, hT, heq'.trans heq⟩

theorem sameRoom_modify {f : SharedTable → SharedTable} (hf : ∀ shared, σ.tables.get? T = some shared →
    (f shared).slots.capacity = shared.slots.capacity) :
    SameRoom σ { σ with tables := σ.tables.modify T f } := by
  intro T' shared' hT'
  rw [Registry.get?_modify] at hT'
  split at hT'
  · rename_i heq
    obtain ⟨shared, hT, rfl⟩ := Option.map_eq_some_iff.1 hT'
    exact ⟨shared, heq ▸ hT, hf shared hT⟩
  · exact ⟨shared', hT', rfl⟩

theorem sameRoom_publish (σ : State α) (T : TableId) (i : Nat) (a : Address) :
    SameRoom σ (σ.setSlots T (·.publish i a)) :=
  sameRoom_modify fun _ _ => SlotTable.capacity_publish ..

theorem sameRoom_retain (σ : State α) (T : TableId) (n : Nat) : SameRoom σ (σ.retain T n) :=
  sameRoom_modify fun _ _ => rfl

theorem sameRoom_letGo (σ : State α) (T : TableId) : SameRoom σ (σ.letGo T) := by
  unfold letGo
  split
  · intro T' shared' hT'
    rw [Registry.get?_erase] at hT'
    split at hT'
    · cases hT'
    · exact ⟨shared', hT', rfl⟩
  · exact sameRoom_modify fun _ _ => rfl

theorem sameRoom_giveBack (h : Handle) (σ : State α) : SameRoom σ (giveBack h σ).state := by
  have hrelease : SameRoom σ (σ.setSlots h.table (·.release h.slot)) :=
    sameRoom_modify fun _ _ => SlotTable.capacity_release ..
  exact hrelease.trans (sameRoom_letGo _ h.table)

theorem sameRoom_giveBackAll (hs : List Handle) (σ : State α) :
    SameRoom σ (giveBackAll hs σ).state := by
  induction hs generalizing σ with
  | nil => exact .of_tables rfl
  | cons h rest ih => exact (sameRoom_giveBack h σ).trans (ih _)

theorem sameRoom_closeCache (t : ThreadId) (σ : State α) : SameRoom σ (closeCache t σ).state := by
  cases hc : σ.cache t with
  | live handles =>
    rw [closeCache_of_live hc]
    exact sameRoom_giveBackAll handles (σ.setCache t .gone)
  | untouched | gone =>
    rw [closeCache_of_not_live (by simp [hc])]
    exact .of_tables rfl

theorem sameRoom_claim {t : ThreadId} {thread : Thread} (ht : σ.threads.get? t = some thread)
    (hT : (σ.tables.get? T).isSome) : SameRoom σ (claim t T σ).state := by
  obtain ⟨shared, hT⟩ := Option.isSome_iff_exists.1 hT
  obtain ⟨k, last, -, ⟨-, hclaim⟩ | ⟨i, slots, hslots, hclaim⟩⟩ := claim_eq ht hT <;> rw [hclaim]
  · exact .of_tables rfl
  · have hsigned : SameRoom σ ((σ.withToken t k last).setSlots T fun _ => slots) :=
      SameRoom.trans (.of_tables rfl) <| sameRoom_modify fun shared' hT' => by
        obtain rfl := Option.some.inj (hT.symm.trans hT')
        exact SlotTable.capacity_of_claim hslots
    exact hsigned.trans (sameRoom_retain _ T 1)

theorem Aftermath.sameRoom {t : ThreadId} {new : Option Handle} (ha : Aftermath σ t new σ') :
    SameRoom σ σ' := by
  intro T shared' hT'
  by_cases hold : ∃ h ∈ σ.orphans t, h.table = T
  · obtain ⟨h, hh, rfl⟩ := hold
    cases (ha.ended h hh).symm.trans hT'
  · by_cases hnew : ∃ h ∈ new, h.table = T
    · obtain ⟨h, hh, rfl⟩ := hnew
      obtain ⟨shared, slots, k, hT, -, hslots, hget⟩ := ha.claimed h hh
      obtain rfl := Option.some.inj (hget.symm.trans hT')
      exact ⟨shared, hT, SlotTable.capacity_of_claim hslots⟩
    · rw [ha.kept T (fun h hh heq => hold ⟨h, hh, heq⟩) fun h hh heq => hnew ⟨h, hh, heq⟩] at hT'
      exact ⟨shared', hT', rfl⟩

end State

open State Op

/-- What one operation does to tables: none changes its capacity, and new ones are new to the run
and sized. -/
def Deed.KeepsRoom (d : Deed α) : Prop :=
  ∀ T shared', d.after.tables.get? T = some shared' →
    (∃ shared, d.before.tables.get? T = some shared ∧
      shared'.slots.capacity = shared.slots.capacity) ∨
    d.before.horizon ≤ T ∧ shared'.slots.Sized

section

variable [Disposable α] {σ σ' : State α} {op : Op α} {events : List (Event α)} {answer : Answer α}
  {sign : HandleId → Token} {shown : HandleId → Address}

theorem Deed.KeepsRoom.of_same (hrun : (op.deed σ).outcome = ⟨σ', events, answer⟩)
    (h : SameRoom σ σ') : (op.deed σ).KeepsRoom := by
  intro T shared' hT
  rw [Deed.after, hrun] at hT
  exact .inl (h T shared' hT)

theorem Deed.KeepsRoom.of_insert {T : TableId} {n capacity : Nat} {slots : SlotTable}
    (hrun : (op.deed σ).outcome = ⟨σ', events, answer⟩) (hfresh : σ.horizon ≤ T)
    (hslots : SlotTable.ofCapacity capacity = .ok slots)
    (htables : σ'.tables = σ.tables.insert T ⟨slots, n⟩) : (op.deed σ).KeepsRoom := by
  intro T' shared' hT'
  rw [Deed.after, hrun, htables, Registry.get?_insert] at hT'
  split at hT'
  · rename_i heq
    obtain rfl := Option.some.inj hT'
    exact .inr ⟨heq ▸ hfresh, SlotTable.sized_of_ofCapacity hslots⟩
  · exact .inl ⟨shared', hT', rfl⟩

theorem State.Sound.keepsRoom (h : Sound σ sign shown)
    (hn : ∀ t, ((σ.cache t).handles.map (·.table)).Nodup) (op : Op α) : (op.deed σ).KeepsRoom := by
  cases op with
  | newTable T c =>
    have hrun := newTable_eq σ T c
    split at hrun
    · exact .of_same (deed_eq rfl hrun) (.of_tables rfl)
    · rename_i hu
      split at hrun
      · exact .of_same (deed_eq rfl hrun) (.of_tables rfl)
      · rename_i hslots
        exact .of_insert (deed_eq rfl hrun) (horizon_le_of_isUsed (by simpa using hu)) hslots rfl
  | shareTable T =>
    rcases shareTable_cases σ T with ⟨-, hr⟩ | ⟨-, hrun⟩
    · exact .of_same (deed_eq rfl hr) (.of_tables rfl)
    · exact .of_same (deed_eq rfl hrun) (sameRoom_retain σ T 1)
  | dropTable T =>
    rcases dropTable_cases σ T with ⟨-, hr⟩ | ⟨-, hrun⟩
    · exact .of_same (deed_eq rfl hr) (.of_tables rfl)
    · exact .of_same (deed_eq rfl hrun) (sameRoom_letGo σ T)
  | newStack s T =>
    rcases newStack_cases σ s T with ⟨-, hr⟩ | ⟨-, -, hrun⟩
    · exact .of_same (deed_eq rfl hr) (.of_tables rfl)
    · exact .of_same (deed_eq rfl hrun) (sameRoom_retain σ T 2)
  | newStackOwning s T c =>
    have hrun := newStackOwning_eq σ s T c
    split at hrun
    · exact .of_same (deed_eq rfl hrun) (.of_tables rfl)
    · rename_i hu
      split at hrun
      · exact .of_same (deed_eq rfl hrun) (.of_tables rfl)
      · rename_i hslots
        simp only [Bool.or_eq_true, decide_eq_true_eq, not_or, Bool.not_eq_true] at hu
        have hT : σ.horizon ≤ T :=
          Nat.le_trans (horizon_le_of_isUsed hu.1) (Nat.le_of_not_le hu.2)
        exact .of_insert (deed_eq rfl hrun) hT hslots rfl
  | dropStack s =>
    rcases dropStack_cases σ s with ⟨-, hr⟩ | ⟨stack, result, -, -, hrun⟩
    · exact .of_same (deed_eq rfl hr) (.of_tables rfl)
    · refine .of_same (deed_eq rfl hrun) ?_
      exact (sameRoom_letGo σ stack.table).trans (sameRoom_letGo _ stack.table)
  | push s b v =>
    rcases push_cases σ s b v with ⟨-, hr⟩ | ⟨stack, -, -, hrun⟩
    · exact .of_same (deed_eq rfl hr) (.of_tables rfl)
    · exact .of_same (deed_eq rfl hrun) (.of_tables rfl)
  | pop t s =>
    rcases pop_cases σ t s with ⟨-, hr⟩ | ⟨stack, thread, hs, ht⟩
    · exact .of_same (deed_eq rfl hr) (.of_tables rfl)
    · refine .of_same (outcome_pop t s σ) ?_
      rcases h.popsSo hs ht (hn t) with ⟨c, -, hleaves⟩ | ⟨own, new, k, τ, hpass⟩
      · exact hleaves.1.sameRoom
      · obtain ⟨stack', mid, -, hstate, -⟩ := hpass.popping
        rw [hstate]
        exact hpass.aftermath.sameRoom
  | popWith s n =>
    rcases popWith_cases σ s n with ⟨-, hr⟩ | ⟨stack, handle, -, -, -, hr⟩ |
      ⟨stack, handle, stack', mid, value, -, -, -, hrun, -⟩
    · exact .of_same (deed_eq rfl hr) (.of_tables rfl)
    · exact .of_same (deed_eq rfl hr) (.of_tables rfl)
    · exact .of_same (deed_eq rfl hrun) (sameRoom_publish σ handle.table handle.slot .null)
  | reclaim s =>
    rcases reclaim_cases σ s with ⟨-, hr⟩ | ⟨stack, count, -, hrun⟩
    · exact .of_same (deed_eq rfl hr) (.of_tables rfl)
    · exact .of_same (deed_eq rfl hrun) (.of_tables rfl)
  | acquire t T n =>
    rcases acquire_cases σ t T n with ⟨-, hr⟩ | ⟨thread, ht, hT, -, hrun⟩
    · exact .of_same (deed_eq rfl hr) (.of_tables rfl)
    · have hroom := sameRoom_claim ht hT
      cases hv : (claim t T σ).value with
      | error e =>
        rw [hv] at hrun
        exact .of_same (deed_eq rfl hrun) hroom
      | ok handle =>
        rw [hv] at hrun
        exact .of_same (deed_eq rfl hrun) hroom
  | release n =>
    rcases release_cases σ n with ⟨-, hr⟩ | ⟨handle, -, hrun⟩
    · exact .of_same (deed_eq rfl hr) (.of_tables rfl)
    · exact .of_same (deed_eq rfl hrun)
        (sameRoom_giveBack handle { σ with handles := σ.handles.erase n })
  | publish n a =>
    rcases publish_cases σ n a with ⟨-, hr⟩ | ⟨handle, -, hrun⟩
    · exact .of_same (deed_eq rfl hr) (.of_tables rfl)
    · exact .of_same (deed_eq rfl hrun) (sameRoom_publish σ handle.table handle.slot a)
  | startThread t =>
    rcases startThread_cases σ t with ⟨-, hr⟩ | ⟨-, hrun⟩
    · exact .of_same (deed_eq rfl hr) (.of_tables rfl)
    · exact .of_same (deed_eq rfl hrun) (.of_tables rfl)
  | hookExit t =>
    rcases hookExit_cases σ t with ⟨-, hr⟩ | ⟨thread, first, -, hrun⟩
    · exact .of_same (deed_eq rfl hr) (.of_tables rfl)
    · exact .of_same (deed_eq rfl hrun) (.of_tables rfl)
  | beginExit t =>
    rcases beginExit_cases σ t with ⟨-, hr⟩ | ⟨thread, -, ⟨-, hrun⟩ | hrun⟩
    · exact .of_same (deed_eq rfl hr) (.of_tables rfl)
    · exact .of_same (deed_eq rfl hrun) (.of_tables rfl)
    · exact .of_same (deed_eq rfl hrun) (sameRoom_closeCache t σ)
  | endThread t =>
    rcases endThread_cases σ t with ⟨-, hr⟩ | ⟨thread, -, hrun⟩
    · exact .of_same (deed_eq rfl hr) (.of_tables rfl)
    · exact .of_same (deed_eq rfl hrun) (sameRoom_closeCache t σ)

end

/-! ## What one operation does to a limbo -/

/-- Where the limbo of a stack comes from that is there after the operation. -/
inductive LimboMove (d : Deed α) (s : StackId) (stack' : Stack α) : Prop
  | empty (limbo : stack'.limbo = {})
  | kept (stack : Stack α) (there : d.before.lifos.get? s = some stack)
    (table : stack'.table = stack.table) (limbo : stack'.limbo = stack.limbo)
  | swept (stack : Stack α) (published : Block → Bool) (there : d.before.lifos.get? s = some stack)
    (table : stack'.table = stack.table) (limbo : stack'.limbo = (stack.limbo.sweep published).1)
  /-- A pop takes in the node that it unlinked, and sweeps; its own slot publishes nothing. -/
  | popped (stack : Stack α) (b : Block) (own : Handle) (there : d.before.lifos.get? s = some stack)
    (table : stack'.table = stack.table)
    (limbo : stack'.limbo = ((stack.limbo.intake (d.after.published stack.table) b).sweep
      (d.after.published stack.table)).1)
    (own_table : own.table = stack.table)
    (silent : (d.after.slot? own).map (·.published) = some .null)

section

variable {σ : State α} {sign : HandleId → Token} {shown : HandleId → Address} {s : StackId}
  {stack stack' : Stack α} {v : α} {mid : List (Event α)} {result : Except Failure α}

theorem State.Popping.of_answer {published : Block → Bool}
    (h : Popping s published stack stack' mid result)
    (hanswer : Answer.ofExcept .popped result = .popped v) :
    ∃ b rest, stack' = afterPop published stack b rest := by
  cases h with
  | empty | exhausted => cases hanswer
  | popped node rest => exact ⟨node.block, rest, rfl⟩

variable [Disposable α]

theorem State.Sound.limboMove_pop (h : Sound σ sign shown) {t : ThreadId}
    (hn : ((σ.cache t).handles.map (·.table)).Nodup)
    (hanswer : ((Op.pop t s).deed σ).answer = .popped v)
    (hs' : ((Op.pop t s).deed σ).after.lifos.get? s = some stack') :
    LimboMove ((Op.pop t s).deed σ) s stack' := by
  have hout := outcome_pop t s σ
  rw [Deed.answer, hout] at hanswer
  rcases pop_cases σ t s with ⟨-, hr⟩ | ⟨stack, thread, hs, ht⟩
  · rw [hr] at hanswer
    cases hanswer
  · rcases h.popsSo hs ht hn with ⟨c, hv, -⟩ | ⟨own, new, k, τ, hpass⟩
    · rw [hv] at hanswer
      cases hanswer
    · obtain ⟨stack'', mid, hp, hstate, -⟩ := hpass.popping
      obtain ⟨b, rest, rfl⟩ := hp.of_answer hanswer
      have hafter : ((Op.pop t s).deed σ).after = τ.setStack s
          (afterPop (σ.published stack.table) stack b rest) := by
        rw [Deed.after, hout, hstate]
      have horphans : ∀ orphan ∈ σ.orphans t, orphan.table ≠ stack.table := fun _ ho =>
        h.ne_of_mem_orphans hs ho
      rw [hafter, get?_setStack (hpass.aftermath.lifos ▸ hs)] at hs'
      obtain rfl := Option.some.inj hs'
      refine .popped stack b own hs rfl ?_ hpass.finds.table ?_
      · rw [hafter, published_setStack, hpass.aftermath.published_eq horphans]
        rfl
      · rw [hafter]
        refine (hpass.aftermath.published fun orphan ho => ?_).trans hpass.silent
        rw [hpass.finds.table]
        exact horphans orphan ho

theorem State.Sound.limboMove_popWith (h : Sound σ sign shown) {n : HandleId}
    (hanswer : ((Op.popWith s n).deed σ).answer = .popped v)
    (hs' : ((Op.popWith s n).deed σ).after.lifos.get? s = some stack') :
    LimboMove ((Op.popWith s n).deed σ) s stack' := by
  rcases popWith_cases σ s n with ⟨-, hr⟩ | ⟨stack, handle, -, -, -, hr⟩ |
    ⟨stack, handle, stack'', mid, value, hs, hn, hT, hrun, hp⟩
  · have hout : ((Op.popWith s n).deed σ).outcome = _ := deed_eq rfl hr
    rw [Deed.answer, hout] at hanswer
    cases hanswer
  · have hout : ((Op.popWith s n).deed σ).outcome = _ := deed_eq rfl hr
    rw [Deed.answer, hout] at hanswer
    cases hanswer
  · have hout : ((Op.popWith s n).deed σ).outcome = _ := deed_eq rfl hrun
    rw [Deed.answer, hout] at hanswer
    obtain ⟨b, rest, rfl⟩ := hp.of_answer hanswer
    have hafter := congrArg Outcome.state hout
    change ((Op.popWith s n).deed σ).after = _ at hafter
    have hs₁ : (σ.silence handle).lifos.get? s = some stack := hs
    rw [hafter, get?_setStack hs₁] at hs'
    obtain rfl := Option.some.inj hs'
    refine .popped stack b handle hs rfl ?_ hT ?_
    · rw [hafter, published_setStack]
      rfl
    · rw [hafter]
      exact published_silence (h.isSome_slot?_of_handle hn)

theorem State.limboMove_reclaim (hs : σ.lifos.get? s = some stack)
    (hs' : ((Op.reclaim s).deed σ).after.lifos.get? s = some stack') :
    LimboMove ((Op.reclaim s).deed σ) s stack' := by
  have hout : ((Op.reclaim s).deed σ).outcome = _ := deed_eq rfl (reclaim_eq hs)
  rw [Deed.after, hout, get?_setStack hs] at hs'
  obtain rfl := Option.some.inj hs'
  exact .swept stack _ hs rfl rfl

/-- Only a pop adds to a limbo. -/
theorem State.Sound.limboMove (h : Sound σ sign shown)
    (hn : ∀ t, ((σ.cache t).handles.map (·.table)).Nodup) (op : Op α)
    (hs' : (op.deed σ).after.lifos.get? s = some stack') : LimboMove (op.deed σ) s stack' := by
  have hsame : (op.deed σ).after.lifos.get? s = σ.lifos.get? s → LimboMove (op.deed σ) s stack' :=
    fun heq => .kept stack' (heq ▸ hs') rfl rfl
  cases h.effect op with
  | quiet work lifos => exact hsame (congrArg (·.get? s) lifos)
  | made s₀ T work fresh lifos =>
    rw [lifos, Registry.get?_insert] at hs'
    split at hs'
    · obtain rfl := Option.some.inj hs'
      exact .empty rfl
    · exact .kept stack' hs' rfl rfl
  | pushed s₀ stack node work there fresh lifos =>
    rw [lifos, Registry.get?_modify] at hs'
    split at hs'
    · rename_i heq
      rw [there] at hs'
      obtain rfl := Option.some.inj hs'
      exact .kept stack (heq ▸ there) rfl rfl
    · exact .kept stack' hs' rfl rfl
  | dropped s₀ stack work there lifos =>
    rw [lifos, Registry.get?_erase] at hs'
    split at hs'
    · cases hs'
    · exact .kept stack' hs' rfl rfl
  | tended s₀ stack stack'' gone work there table nodes published lifos =>
    by_cases heq : s = s₀
    · subst heq
      rcases work with ⟨-, work⟩ | ⟨node, -, work⟩
      · obtain rfl := work_eq_swept work
        exact limboMove_reclaim there hs'
      · obtain ⟨hanswer, ⟨t, rfl⟩ | ⟨n, rfl⟩⟩ := work_eq_popped work
        · exact h.limboMove_pop (hn t) hanswer hs'
        · exact h.limboMove_popWith hanswer hs'
    · exact hsame (by rw [lifos, Registry.get?_modify, if_neg heq]; rfl)

end

/-! ## The bound -/

namespace State

/-- Tables are sized, and in the limbo of a stack wait fewer nodes than its table has slots. -/
structure Bounded (σ : State α) : Prop where
  sized : ∀ T shared, σ.tables.get? T = some shared → shared.slots.Sized
  counted : ∀ s stack, σ.lifos.get? s = some stack → stack.limbo.Counted
  bounded : ∀ s stack shared, σ.lifos.get? s = some stack → σ.tables.get? stack.table = some shared →
    stack.limbo.entries.length < shared.slots.capacity

theorem bounded_initial : Bounded (.initial : State α) where
  sized T shared hT := by
    simp only [initial, Registry.get?_insert] at hT
    split at hT
    · obtain rfl := Option.some.inj hT
      rw [SlotTable.Sized, SlotTable.capacity_free]
      decide
    · cases hT
  counted s stack hs := by cases hs
  bounded s stack shared hs := by cases hs

theorem nodup_limbo {σ : State α} {s : StackId} {stack : Stack α} (hn : σ.blocks.Nodup)
    (hs : σ.lifos.get? s = some stack) : stack.limbo.entries.Nodup :=
  (nodup_blocks_of_get? hn hs).of_append_right

/-- What waits after a pop is published, but not by the slot that the pop went through. -/
theorem length_lt_of_swept {σ : State α} {T : TableId} {shared : SharedTable} {own : Handle}
    {L : Limbo} (hT : σ.tables.get? T = some shared) (hn : (L.sweep (σ.published T)).1.entries.Nodup)
    (htable : own.table = T) (hsilent : (σ.slot? own).map (·.published) = some .null) :
    (L.sweep (σ.published T)).1.entries.length < shared.slots.capacity := by
  refine SlotTable.length_lt_capacity hn (fun b hb => ?_) ?_
  · rw [Limbo.sweep_eq, List.mem_reverse, List.mem_filter] at hb
    have hpublished := hb.2
    simp only [published, publishes, hT] at hpublished
    exact hpublished
  · obtain ⟨slot, hslot, hnull⟩ := Option.map_eq_some_iff.1 hsilent
    rw [slot?, htable, hT, Option.bind_some] at hslot
    exact ⟨slot, List.mem_of_getElem? hslot, hnull⟩

end State

theorem LimboMove.counted {d : Deed α} {s : StackId} {stack' : Stack α} (hm : LimboMove d s stack')
    (hb : d.before.Bounded) : stack'.limbo.Counted := by
  cases hm with
  | empty limbo =>
    rw [limbo]
    exact Limbo.counted_empty
  | kept stack there _ limbo =>
    rw [limbo]
    exact hb.counted s stack there
  | swept stack published there _ limbo =>
    rw [limbo]
    exact (hb.counted s stack there).sweep published
  | popped stack b own there _ limbo =>
    rw [limbo]
    exact ((hb.counted s stack there).intake _ b).sweep _

variable [Disposable α]

section

variable {σ : State α} {sign : HandleId → Token} {shown : HandleId → Address} {op : Op α}

theorem State.Bounded.sized_step (hb : σ.Bounded) (hroom : (op.deed σ).KeepsRoom) {T : TableId}
    {shared' : SharedTable} (hT : (op.deed σ).after.tables.get? T = some shared') :
    shared'.slots.Sized := by
  rcases hroom T shared' hT with ⟨shared, hold, heq⟩ | ⟨-, hnew⟩
  · rw [SlotTable.Sized, heq]
    exact hb.sized T shared hold
  · exact hnew

theorem State.Sound.sameRoom_of_stack (h : Sound σ sign shown) (hroom : (op.deed σ).KeepsRoom)
    {s : StackId} {stack : Stack α} {shared' : SharedTable} (hs : σ.lifos.get? s = some stack)
    (hT : (op.deed σ).after.tables.get? stack.table = some shared') :
    ∃ shared, σ.tables.get? stack.table = some shared ∧
      shared'.slots.capacity = shared.slots.capacity := by
  rcases hroom _ shared' hT with hold | ⟨hnew, -⟩
  · exact hold
  · obtain ⟨⟨shared, hold⟩, -⟩ := h.table_of_stack hs
    cases (h.fresh hnew).1.symm.trans hold

theorem State.Bounded.step (hb : σ.Bounded) (h : Sound σ sign shown)
    (hn : ∀ t, ((σ.cache t).handles.map (·.table)).Nodup) (op : Op α)
    (hblocks : (op.deed σ).after.blocks.Nodup) : (op.deed σ).after.Bounded := by
  have hroom := h.keepsRoom hn op
  refine ⟨fun T shared' => hb.sized_step hroom,
    fun s stack' hs' => (h.limboMove hn op hs').counted hb, fun s stack' shared' hs' hT => ?_⟩
  have hentries : stack'.limbo.entries.Nodup := nodup_limbo hblocks hs'
  cases h.limboMove hn op hs' with
  | empty limbo =>
    rw [limbo]
    exact (hb.sized_step hroom hT).1
  | kept stack there table limbo =>
    rw [table] at hT
    obtain ⟨shared, hold, heq⟩ := h.sameRoom_of_stack hroom there hT
    rw [limbo, heq]
    exact hb.bounded s stack shared there hold
  | swept stack published there table limbo =>
    rw [table] at hT
    obtain ⟨shared, hold, heq⟩ := h.sameRoom_of_stack hroom there hT
    rw [limbo, heq, Limbo.sweep_eq, List.length_reverse]
    exact Nat.lt_of_le_of_lt (List.length_filter_le ..) (hb.bounded s stack shared there hold)
  | popped stack b own there table limbo own_table silent =>
    rw [table] at hT
    rw [limbo] at hentries ⊢
    exact length_lt_of_swept hT hentries own_table silent

end

theorem Op.bounded_after (ops : List (Op α)) : (after ops).Bounded := by
  induction ops using List.reverseRecOn with
  | nil => exact bounded_initial
  | append_singleton ops op ih =>
    obtain ⟨sign, shown, hsound, -⟩ := sound_after ops
    have hblocks := nodup_blocks (ops ++ [op])
    rw [after_concat] at hblocks ⊢
    exact ih.step hsound (nodup_cached_tables ops) op hblocks

/-- The limbo of a stack over a table of so many slots. -/
structure Limbo.Within (L : Limbo) (capacity : Nat) : Prop where
  room : 0 < capacity
  counted : L.gauge.toNat = L.entries.length
  bounded : L.gauge.toNat ≤ capacity - 1
  single : capacity = 1 → L.entries = []
  distinct : L.entries.Nodup

theorem Limbo.Within.of_counted {L : Limbo} {T : SlotTable} (hcounted : L.Counted) (hsized : T.Sized)
    (hlt : L.entries.length < T.capacity) (hn : L.entries.Nodup) : L.Within T.capacity := by
  have hfits : L.entries.length < UInt64.size :=
    Nat.lt_trans (Nat.lt_trans hlt hsized.2) (by decide)
  have hgauge := hcounted.toNat_gauge hfits
  refine ⟨hsized.1, hgauge, ?_, fun hone => ?_, hn⟩
  · rw [hgauge]
    exact Nat.le_sub_one_of_lt hlt
  · rw [hone] at hlt
    exact List.length_eq_zero_iff.1 (Nat.lt_one_iff.1 hlt)

/-- In every run, fewer retired nodes of a stack wait than the stack's table has slots, and they are
different nodes. -/
theorem Op.garbage_bounded (ops : List (Op α)) {s : StackId} {stack : Stack α}
    (hs : (after ops).lifos.get? s = some stack) :
    ∃ shared, (after ops).tables.get? stack.table = some shared ∧
      stack.limbo.Within shared.slots.capacity := by
  obtain ⟨sign, shown, hsound, -⟩ := sound_after ops
  obtain ⟨⟨shared, hT⟩, -⟩ := hsound.table_of_stack hs
  have hbounded := bounded_after ops
  exact ⟨shared, hT, .of_counted (hbounded.counted s stack hs) (hbounded.sized _ shared hT)
    (hbounded.bounded s stack shared hs hT) (nodup_limbo (nodup_blocks ops) hs)⟩

/-- One node waits over a table of two slots; the handle that published it publishes another now. -/
def lateSwitch : List (Op (Option String)) :=
  [.newTable 1 2, .newStack 2 1, .startThread 3, .acquire 3 1 4, .push 2 5 none, .push 2 6 none,
    .publish 4 (.block 6), .pop 3 2, .publish 4 (.block 5)]

theorem Op.one_waits_over_two :
    ∃ shared, (after lateSwitch).tables.get? 1 = some shared ∧
      Limbo.Within ⟨[6], 1⟩ shared.slots.capacity :=
  have hs : (after lateSwitch).lifos.get? 2 = some ⟨1, [⟨5, none⟩], ⟨[6], 1⟩⟩ := rfl
  garbage_bounded lateSwitch hs

end HazardLifo
