import HazardLifo.Proofs.Histories.Pops

/-!
# Operations in closed form

An operation either fails and leaves the state alone, or it does what is said here. One lemma for
each operation; nothing later opens an operation again.
-/

namespace HazardLifo

variable {α : Type}

namespace State

/-- The operation fails at once. -/
def Refused {β : Type} (o : Outcome α (Except Failure β)) (σ : State α) : Prop :=
  ∃ e, o = ⟨σ, [], .error e⟩

variable {σ : State α} {T : TableId} {s : StackId} {t : ThreadId} {h : HandleId}

theorem horizon_le_of_isUsed {n : Nat} (hn : σ.isUsed n = false) : σ.horizon ≤ n := by
  simpa [isUsed] using hn

/-! ## Tables -/

theorem newTable_eq (σ : State α) (T : TableId) (capacity : Nat) :
    newTable T capacity σ =
      if σ.isUsed T then ⟨σ, [], .error .absent⟩
      else match SlotTable.ofCapacity capacity with
        | .error fault => ⟨σ, [], .error (.fault fault)⟩
        | .ok slots => ⟨{ σ.use T with
            tables := σ.tables.insert T ⟨slots, 1⟩
            callerTables := T :: σ.callerTables }, [], .ok ()⟩ := by
  cases hu : σ.isUsed T with
  | true => simp [newTable, Action.bind_apply, hu]
  | false => cases hc : SlotTable.ofCapacity capacity <;> simp [newTable, Action.bind_apply, hu, hc]

theorem newTable_cases (σ : State α) (T : TableId) (capacity : Nat) :
    Refused (newTable T capacity σ) σ ∨
      (σ.horizon ≤ T ∧ 0 < capacity ∧ newTable T capacity σ =
        ⟨{ σ.use T with
          tables := σ.tables.insert T ⟨.free capacity, 1⟩
          callerTables := T :: σ.callerTables }, [], .ok ()⟩) := by
  rw [newTable_eq]
  cases hu : σ.isUsed T with
  | true => exact .inl ⟨.absent, rfl⟩
  | false =>
    by_cases h0 : capacity = 0
    · exact .inl ⟨.fault .noSlots, by simp [SlotTable.ofCapacity, h0]⟩
    · by_cases hb : SlotTable.capacityBound ≤ capacity
      · exact .inl ⟨.fault .capacityOverflow, by simp [SlotTable.ofCapacity, h0, hb]⟩
      · refine .inr ⟨horizon_le_of_isUsed hu, Nat.pos_of_ne_zero h0, ?_⟩
        simp [SlotTable.ofCapacity, h0, hb]

theorem shareTable_cases (σ : State α) (T : TableId) :
    (σ.tables.get? T = none ∧ shareTable T σ = ⟨σ, [], .error .absent⟩) ∨
      ((σ.tables.get? T).isSome ∧ shareTable T σ =
        ⟨{ σ.retain T 1 with callerTables := T :: σ.callerTables }, [], .ok ()⟩) := by
  cases hT : σ.tables.get? T with
  | none => exact .inl ⟨rfl, by simp [shareTable, Action.bind_apply, Registry.contains, hT]⟩
  | some shared => exact .inr ⟨rfl, by simp [shareTable, Action.bind_apply, Registry.contains, hT]⟩

theorem dropTable_cases (σ : State α) (T : TableId) :
    (T ∉ σ.callerTables ∧ dropTable T σ = ⟨σ, [], .error .absent⟩) ∨
      (T ∈ σ.callerTables ∧ dropTable T σ =
        ⟨{ σ.letGo T with callerTables := σ.callerTables.erase T }, [], .ok ()⟩) := by
  by_cases hT : T ∈ σ.callerTables
  · exact .inr ⟨hT, by simp [dropTable, Action.bind_apply, hT]⟩
  · exact .inl ⟨hT, by simp [dropTable, Action.bind_apply, hT]⟩

/-! ## Stacks -/

theorem newStack_cases (σ : State α) (s : StackId) (T : TableId) :
    (¬(σ.horizon ≤ s ∧ (σ.tables.get? T).isSome) ∧ newStack s T σ = ⟨σ, [], .error .absent⟩) ∨
      (σ.horizon ≤ s ∧ (σ.tables.get? T).isSome ∧ newStack s T σ =
        ⟨{ (σ.use s).retain T 2 with lifos := σ.lifos.insert s { table := T } }, [], .ok ()⟩) := by
  cases hu : σ.isUsed s with
  | true =>
    have hnot : ¬σ.horizon ≤ s := by simpa [isUsed] using hu
    exact .inl ⟨fun h => hnot h.1, by simp [newStack, Action.bind_apply, hu]⟩
  | false =>
    cases hT : σ.tables.get? T with
    | none =>
      exact .inl ⟨fun h => (nomatch h.2),
        by simp [newStack, Action.bind_apply, Registry.contains, hu, hT]⟩
    | some shared =>
      refine .inr ⟨horizon_le_of_isUsed hu, rfl, ?_⟩
      simp [newStack, Action.bind_apply, Registry.contains, hu, hT]

theorem newStackOwning_eq (σ : State α) (s : StackId) (T : TableId) (capacity : Nat) :
    newStackOwning s T capacity σ =
      if σ.isUsed s || T ≤ s then ⟨σ, [], .error .absent⟩
      else match SlotTable.ofCapacity capacity with
        | .error fault => ⟨σ, [], .error (.fault fault)⟩
        | .ok slots => ⟨{ σ.use T with
            tables := σ.tables.insert T ⟨slots, 2⟩
            lifos := σ.lifos.insert s { table := T } }, [], .ok ()⟩ := by
  cases hu : (σ.isUsed s || T ≤ s) with
  | true => simp [newStackOwning, Action.bind_apply, hu]
  | false =>
    cases hc : SlotTable.ofCapacity capacity <;> simp [newStackOwning, Action.bind_apply, hu, hc]

theorem newStackOwning_cases (σ : State α) (s : StackId) (T : TableId) (capacity : Nat) :
    Refused (newStackOwning s T capacity σ) σ ∨
      (σ.horizon ≤ s ∧ s < T ∧ newStackOwning s T capacity σ =
        ⟨{ σ.use T with
          tables := σ.tables.insert T ⟨.free capacity, 2⟩
          lifos := σ.lifos.insert s { table := T } }, [], .ok ()⟩) := by
  rw [newStackOwning_eq]
  cases hu : σ.isUsed s with
  | true => exact .inl ⟨.absent, rfl⟩
  | false =>
    by_cases hT : T ≤ s
    · exact .inl ⟨.absent, by simp [hT]⟩
    · by_cases h0 : capacity = 0
      · exact .inl ⟨.fault .noSlots, by simp [hT, SlotTable.ofCapacity, h0]⟩
      · by_cases hb : SlotTable.capacityBound ≤ capacity
        · exact .inl ⟨.fault .capacityOverflow, by simp [hT, SlotTable.ofCapacity, h0, hb]⟩
        · refine .inr ⟨horizon_le_of_isUsed hu, Nat.not_le.1 hT, ?_⟩
          simp [hT, SlotTable.ofCapacity, h0, hb]

def endResult [Disposable α] (s : StackId) (nodes : List (Node α)) : Except Failure Unit :=
  match (dismantle s nodes).2 with
  | some fault => .error (.fault fault)
  | none => .ok ()

theorem dropStack_eq [Disposable α] {stack : Stack α} (hs : σ.lifos.get? s = some stack) :
    dropStack s σ =
      ⟨{ (σ.letGo stack.table).letGo stack.table with
        lifos := σ.lifos.erase s
        lost := (leftBehind stack.nodes).map (·.block) ++ σ.lost },
        (dismantle s stack.nodes).1 ++ stack.limbo.entries.map (.freed s),
        endResult s stack.nodes⟩ := by
  cases hf : (dismantle s stack.nodes).2 <;>
    simp [dropStack, Action.bind_apply, hs, hf, endResult]

theorem dropStack_cases [Disposable α] (σ : State α) (s : StackId) :
    (σ.lifos.get? s = none ∧ dropStack s σ = ⟨σ, [], .error .absent⟩) ∨
      ∃ stack result, σ.lifos.get? s = some stack ∧
        (result = .ok () ∨ ∃ f, result = .error (.fault f)) ∧ dropStack s σ =
        ⟨{ (σ.letGo stack.table).letGo stack.table with
          lifos := σ.lifos.erase s
          lost := (leftBehind stack.nodes).map (·.block) ++ σ.lost },
          (dismantle s stack.nodes).1 ++ stack.limbo.entries.map (.freed s), result⟩ := by
  cases hs : σ.lifos.get? s with
  | none => exact .inl ⟨rfl, by simp [dropStack, Action.bind_apply, hs]⟩
  | some stack =>
    refine .inr ⟨stack, endResult s stack.nodes, rfl, ?_, dropStack_eq hs⟩
    cases hf : (dismantle s stack.nodes).2 with
    | none => exact .inl (by rw [endResult, hf])
    | some fault => exact .inr ⟨fault, by rw [endResult, hf]⟩

theorem push_cases (σ : State α) (s : StackId) (b : Block) (v : α) :
    (¬((σ.lifos.get? s).isSome ∧ b ∉ σ.blocks) ∧ push s b v σ = ⟨σ, [], .error .absent⟩) ∨
      ∃ stack, σ.lifos.get? s = some stack ∧ b ∉ σ.blocks ∧ push s b v σ =
        ⟨(σ.use b).setStack s { stack with nodes := ⟨b, v⟩ :: stack.nodes }, [], .ok ()⟩ := by
  by_cases hb : b ∈ σ.blocks
  · exact .inl ⟨fun h => h.2 hb, by simp [push, Action.bind_apply, hb]⟩
  · cases hs : σ.lifos.get? s with
    | none =>
      exact .inl ⟨fun h => (nomatch h.1),
        by simp [push, Action.bind_apply, Registry.contains, hb, hs]⟩
    | some stack =>
      refine .inr ⟨stack, rfl, hb, ?_⟩
      have hs' : (σ.use b).lifos.get? s = some stack := hs
      rw [← modify_eq_setStack hs' fun st => { st with nodes := ⟨b, v⟩ :: st.nodes }]
      simp [push, Action.bind_apply, Registry.contains, hb, hs]
      rfl

theorem popWith_eq {stack : Stack α} {n : HandleId} {handle : Handle} (hs : σ.lifos.get? s = some stack)
    (hn : σ.handles.get? n = some handle) :
    popWith s n σ = if handle.table = stack.table then popThrough s handle σ
      else ⟨σ, [], .error (.fault .foreignHandle)⟩ := by
  by_cases hT : handle.table = stack.table <;> simp [popWith, Action.bind_apply, hs, hn, hT]

theorem popWith_cases (σ : State α) (s : StackId) (h : HandleId) :
    (¬((σ.lifos.get? s).isSome ∧ (σ.handles.get? h).isSome) ∧
      popWith s h σ = ⟨σ, [], .error .absent⟩) ∨
    (∃ stack handle, σ.lifos.get? s = some stack ∧ σ.handles.get? h = some handle ∧
      handle.table ≠ stack.table ∧ popWith s h σ = ⟨σ, [], .error (.fault .foreignHandle)⟩) ∨
    ∃ stack handle stack' events value,
      σ.lifos.get? s = some stack ∧ σ.handles.get? h = some handle ∧ handle.table = stack.table ∧
      popWith s h σ = ⟨(σ.silence handle).setStack s stack', events, value⟩ ∧
      Popping s ((σ.silence handle).published stack.table) stack stack' events value := by
  cases hs : σ.lifos.get? s with
  | none => exact .inl ⟨fun hg => (nomatch hg.1), by simp [popWith, Action.bind_apply, hs]⟩
  | some stack =>
    cases hh : σ.handles.get? h with
    | none => exact .inl ⟨fun hg => (nomatch hg.2), by simp [popWith, Action.bind_apply, hs, hh]⟩
    | some handle =>
      by_cases hT : handle.table = stack.table
      · obtain ⟨stack', events, value, hpop, hp⟩ := popThrough_eq hs handle rfl
        refine .inr (.inr ⟨stack, handle, stack', events, value, rfl, rfl, hT, ?_, hp⟩)
        simp [popWith, Action.bind_apply, hs, hh, hT, hpop]
      · refine .inr (.inl ⟨stack, handle, rfl, rfl, hT, ?_⟩)
        simp [popWith, Action.bind_apply, hs, hh, hT]

theorem pop_cases (σ : State α) (t : ThreadId) (s : StackId) :
    (¬((σ.lifos.get? s).isSome ∧ (σ.threads.get? t).isSome) ∧
      pop t s σ = ⟨σ, [], .error .absent⟩) ∨
      ∃ stack thread, σ.lifos.get? s = some stack ∧ σ.threads.get? t = some thread := by
  cases hs : σ.lifos.get? s with
  | none => exact .inl ⟨fun h => (nomatch h.1), by simp [pop, Action.bind_apply, hs]⟩
  | some stack =>
    cases ht : σ.threads.get? t with
    | none => exact .inl ⟨fun h => (nomatch h.2), by simp [pop, Action.bind_apply, hs, ht]⟩
    | some thread => exact .inr ⟨stack, thread, rfl, rfl⟩

theorem reclaim_eq {stack : Stack α} (hs : σ.lifos.get? s = some stack) :
    reclaim s σ =
      ⟨σ.setStack s { stack with limbo := (stack.limbo.sweep (σ.published stack.table)).1 },
        stack.limbo.sweepEvents s (σ.published stack.table),
        .ok (stack.limbo.sweep (σ.published stack.table)).2.length⟩ := by
  simp [reclaim, Action.bind_apply, Registry.contains, hs, sweep_eq hs]

theorem reclaim_cases (σ : State α) (s : StackId) :
    (σ.lifos.get? s = none ∧ reclaim s σ = ⟨σ, [], .error .absent⟩) ∨
      ∃ stack count, σ.lifos.get? s = some stack ∧ reclaim s σ =
        ⟨σ.setStack s { stack with limbo := (stack.limbo.sweep (σ.published stack.table)).1 },
          stack.limbo.sweepEvents s (σ.published stack.table), .ok count⟩ := by
  cases hs : σ.lifos.get? s with
  | none => exact .inl ⟨rfl, by simp [reclaim, Action.bind_apply, Registry.contains, hs]⟩
  | some stack => exact .inr ⟨stack, _, rfl, reclaim_eq hs⟩

/-! ## Handles -/

theorem acquire_cases (σ : State α) (t : ThreadId) (T : TableId) (h : HandleId) :
    (¬(σ.horizon ≤ h ∧ (σ.threads.get? t).isSome ∧ (σ.tables.get? T).isSome) ∧
      acquire t T h σ = ⟨σ, [], .error .absent⟩) ∨
      ∃ thread, σ.threads.get? t = some thread ∧ (σ.tables.get? T).isSome ∧ σ.horizon ≤ h ∧
        acquire t T h σ =
          match (claim t T σ).value with
          | .error e => ⟨(claim t T σ).state, (claim t T σ).events, .error e⟩
          | .ok handle =>
            ⟨{ (claim t T σ).state.use h with
              handles := (claim t T σ).state.handles.insert h handle }, (claim t T σ).events,
              .ok handle⟩ := by
  cases hu : σ.isUsed h with
  | true =>
    have hnot : ¬σ.horizon ≤ h := by simpa [isUsed] using hu
    exact .inl ⟨fun hg => hnot hg.1, by simp [acquire, Action.bind_apply, hu]⟩
  | false =>
    cases ht : σ.threads.get? t with
    | none =>
      exact .inl ⟨fun hg => (nomatch hg.2.1),
        by simp [acquire, Action.bind_apply, Registry.contains, hu, ht]⟩
    | some thread =>
      cases hT : σ.tables.get? T with
      | none =>
        exact .inl ⟨fun hg => (nomatch hg.2.2),
          by simp [acquire, Action.bind_apply, Registry.contains, hu, ht, hT]⟩
      | some shared =>
        refine .inr ⟨thread, rfl, rfl, horizon_le_of_isUsed hu, ?_⟩
        cases hv : (claim t T σ).value <;>
          simp [acquire, Action.bind_apply, Registry.contains, hu, ht, hT, hv]

theorem release_cases (σ : State α) (h : HandleId) :
    (σ.handles.get? h = none ∧ release h σ = ⟨σ, [], .error .absent⟩) ∨
      ∃ handle, σ.handles.get? h = some handle ∧ release h σ =
        ⟨(giveBack handle { σ with handles := σ.handles.erase h }).state,
          (giveBack handle { σ with handles := σ.handles.erase h }).events, .ok ()⟩ := by
  cases hh : σ.handles.get? h with
  | none => exact .inl ⟨rfl, by simp [release, Action.bind_apply, hh]⟩
  | some handle => exact .inr ⟨handle, rfl, by simp [release, Action.bind_apply, hh]⟩

theorem publish_cases (σ : State α) (h : HandleId) (a : Address) :
    (σ.handles.get? h = none ∧ publish h a σ = ⟨σ, [], .error .absent⟩) ∨
      ∃ handle, σ.handles.get? h = some handle ∧ publish h a σ =
        ⟨σ.setSlots handle.table (·.publish handle.slot a), [], .ok ()⟩ := by
  cases hh : σ.handles.get? h with
  | none => exact .inl ⟨rfl, by simp [publish, Action.bind_apply, hh]⟩
  | some handle => exact .inr ⟨handle, rfl, by simp [publish, Action.bind_apply, hh]⟩

/-! ## Threads -/

theorem startThread_cases (σ : State α) (t : ThreadId) :
    (¬σ.horizon ≤ t ∧ startThread t σ = ⟨σ, [], .error .absent⟩) ∨
      (σ.horizon ≤ t ∧ startThread t σ =
        ⟨{ σ.use t with threads := σ.threads.insert t {} }, [], .ok ()⟩) := by
  cases hu : σ.isUsed t with
  | true =>
    have hnot : ¬σ.horizon ≤ t := by simpa [isUsed] using hu
    exact .inl ⟨hnot, by simp [startThread, Action.bind_apply, hu]⟩
  | false =>
    exact .inr ⟨horizon_le_of_isUsed hu, by simp [startThread, Action.bind_apply, hu]⟩

theorem hookExit_cases (σ : State α) (t : ThreadId) :
    (σ.threads.get? t = none ∧ hookExit t σ = ⟨σ, [], .error .absent⟩) ∨
      ∃ thread first, σ.threads.get? t = some thread ∧ hookExit t σ =
        ⟨{ σ with threads := σ.threads.modify t fun _ => { thread with actionsFirst := first } }, [],
          .ok ()⟩ := by
  cases ht : σ.threads.get? t with
  | none => exact .inl ⟨rfl, by simp [hookExit, Action.bind_apply, Registry.contains, ht]⟩
  | some thread =>
    have hmod : σ.threads.modify t (fun th =>
          { th with actionsFirst := th.actionsFirst || th.cache == .untouched }) =
        σ.threads.modify t fun _ =>
          { thread with actionsFirst := thread.actionsFirst || thread.cache == .untouched } :=
      Registry.modify_congr fun th hth => by
        obtain rfl := Option.some.inj (ht.symm.trans hth)
        rfl
    refine .inr ⟨thread, thread.actionsFirst || thread.cache == .untouched, rfl, ?_⟩
    rw [← hmod]
    simp [hookExit, Action.bind_apply, Registry.contains, ht]

theorem beginExit_eq {thread : Thread} (ht : σ.threads.get? t = some thread) :
    beginExit t σ =
      if thread.actionsFirst then ⟨(closeCache t σ).state, (closeCache t σ).events, .ok ()⟩
      else ⟨σ, [], .ok ()⟩ := by
  cases hf : thread.actionsFirst <;> simp [beginExit, Action.bind_apply, ht, hf]

theorem beginExit_cases (σ : State α) (t : ThreadId) :
    (σ.threads.get? t = none ∧ beginExit t σ = ⟨σ, [], .error .absent⟩) ∨
      ∃ thread, σ.threads.get? t = some thread ∧
        ((thread.actionsFirst = false ∧ beginExit t σ = ⟨σ, [], .ok ()⟩) ∨
          beginExit t σ = ⟨(closeCache t σ).state, (closeCache t σ).events, .ok ()⟩) := by
  cases ht : σ.threads.get? t with
  | none => exact .inl ⟨rfl, by simp [beginExit, Action.bind_apply, ht]⟩
  | some thread =>
    refine .inr ⟨thread, rfl, ?_⟩
    cases hf : thread.actionsFirst with
    | false => exact .inl ⟨rfl, by rw [beginExit_eq ht, hf]; rfl⟩
    | true => exact .inr (by rw [beginExit_eq ht, hf]; rfl)

theorem endThread_cases (σ : State α) (t : ThreadId) :
    (σ.threads.get? t = none ∧ endThread t σ = ⟨σ, [], .error .absent⟩) ∨
      ∃ thread, σ.threads.get? t = some thread ∧ endThread t σ =
        ⟨{ (closeCache t σ).state with threads := (closeCache t σ).state.threads.erase t },
          (closeCache t σ).events, .ok ()⟩ := by
  cases ht : σ.threads.get? t with
  | none => exact .inl ⟨rfl, by simp [endThread, Action.bind_apply, Registry.contains, ht]⟩
  | some thread =>
    exact .inr ⟨thread, rfl, by simp [endThread, Action.bind_apply, Registry.contains, ht]⟩

end State

end HazardLifo
