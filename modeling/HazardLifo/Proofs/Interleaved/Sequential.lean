import HazardLifo.Proofs.Histories.Steps
import HazardLifo.Proofs.Interleaved.Tenure
import HazardLifo.Proofs.Interleaved.Views

/-!
# Operations alone are operations on states

A view of a memory and a state can be about the same table and stacks (`View.Depicts`). An operation
that a thread of the machine makes alone then does what the operation that it means does on the
state: what it leaves is depicted again, the events are those seen, and the answer is the reply
(`Machine.Sound.agrees_of_call`), and a thread that is idle can make it (`Sound.exists_agrees`). So a
run of the machine in which operations do not overlap is a run of operations on states
(`Machine.InTurn.agrees`).
-/

namespace HazardLifo

theorem SlotTable.disown_publish (T : SlotTable) (i : Nat) :
    (T.publish i .null).modify i ({ · with owner := none }) = T.release i := by
  simp only [publish, modify, release, List.modify_modify_eq, Function.comp_def]

namespace Interleaved

variable {α : Type}

/-! ## States and views -/

/-- Table `T` of the state is the table of the view, and the stacks of the view, the first `count`
of them, are stacks of the state under the given names. -/
structure View.Depicts (V : View α) (σ : State α) (T : TableId) (count : Nat)
    (name : StackIndex → StackId) : Prop where
  table : (σ.tables.get? T).map (·.slots) = some V.table
  stack : ∀ s < count, σ.lifos.get? (name s) = some (V.stack s)
  table_stack : ∀ s < count, (V.stack s).table = T
  injective : ∀ s s', s < count → s' < count → name s = name s' → s = s'

def Mark.event? (T : TableId) (name : StackIndex → StackId) : Mark α → Option (Event α)
  | .claimed o i => some (.notice (.claimed T o i))
  | .released o i => some (.notice (.released T o i))
  | .exhausted o c => some (.notice (.exhausted T o c))
  | .retired s b => some (.notice (.retired (name s) b))
  | .freed s b => some (.freed (name s) b)
  | .swept s f d => some (.notice (.swept (name s) f d))
  | .returned _ => none

def Reply.answer : Reply α → Answer α
  | .done => .done
  | .acquired i => .acquired i
  | .exhausted c => .failed (.pop (.exhausted c))
  | .popped v => .popped v
  | .empty => .failed (.pop .empty)
  | .reclaimed n => .reclaimed n

def Mark.answer? : Mark α → Option (Answer α)
  | .returned reply => some reply.answer
  | _ => none

structure Ending.Agrees (E : Ending α) (o : Outcome α (Answer α)) (T : TableId) (count : Nat)
    (name : StackIndex → StackId) : Prop where
  view : E.view.Depicts o.state T count name
  events : E.marks.filterMap (·.event? T name) = o.events
  answers : E.marks.filterMap (·.answer?) = [o.value]

/-- The operation on the state that is meant by a command of a thread with this token. A push gets
block `fresh`. -/
inductive Command.Means (σ : State α) (T : TableId) (name : StackIndex → StackId) (token : Token)
    (fresh : Block) : Command α → Op α → Prop where
  | acquire {t h thread last} (ht : σ.threads.get? t = some thread)
      (hk : σ.Draws thread token last) (hnew : σ.isUsed h = false) :
      Means σ T name token fresh .acquire (.acquire t T h)
  /-- Something else refers to the table. -/
  | release {i h} (hh : σ.handles.get? h = some ⟨T, i⟩) (hrefs : 1 < σ.refs T) :
      Means σ T name token fresh (.release i) (.release h)
  | publish {i a h} (hh : σ.handles.get? h = some ⟨T, i⟩) :
      Means σ T name token fresh (.publish i a) (.publish h a)
  | push {s v} (hb : fresh ∉ σ.blocks) :
      Means σ T name token fresh (.push s v) (.push (name s) fresh v)
  | pop {s i h} (hh : σ.handles.get? h = some ⟨T, i⟩) :
      Means σ T name token fresh (.pop s i) (.popWith (name s) h)
  | reclaim {s} : Means σ T name token fresh (.reclaim s) (.reclaim (name s))

namespace View.Depicts

variable {V : View α} {σ σ' : State α} {T : TableId} {count : Nat} {name : StackIndex → StackId}

theorem congr (h : V.Depicts σ T count name)
    (htable : (σ'.tables.get? T).map (·.slots) = (σ.tables.get? T).map (·.slots))
    (hlifos : σ'.lifos = σ.lifos) : V.Depicts σ' T count name where
  table := htable.trans h.table
  stack := by
    rw [hlifos]
    exact h.stack
  table_stack := h.table_stack
  injective := h.injective

theorem setSlots (h : V.Depicts σ T count name) (f : SlotTable → SlotTable) :
    (V.mapTable f).Depicts (σ.setSlots T f) T count name where
  table := by
    obtain ⟨shared, hT, hslots⟩ := Option.map_eq_some_iff.1 h.table
    simp only [State.setSlots, Registry.get?_modify, if_true, hT, Option.map_some, mapTable, hslots]
  stack := h.stack
  table_stack := h.table_stack
  injective := h.injective

theorem setStack (h : V.Depicts σ T count name) {s : StackIndex} (hs : s < count)
    {f : Stack α → Stack α} {stack : Stack α} (htable : stack.table = T)
    (hf : f (V.stack s) = stack) :
    (V.modify s f).Depicts (σ.setStack (name s) stack) T count name where
  table := h.table
  stack s' hs' := by
    simp only [State.setStack, Registry.get?_modify, modify, Function.update_apply]
    by_cases heq : s' = s
    · rw [if_pos (congrArg name heq), if_pos heq, h.stack s hs, Option.map_some, hf]
    · rw [if_neg fun hname => heq (h.injective s' s hs' hs hname), if_neg heq, h.stack s' hs']
  table_stack s' hs' := by
    simp only [modify, Function.update_apply]
    split
    · rw [hf, htable]
    · exact h.table_stack s' hs'
  injective := h.injective

theorem published (h : V.Depicts σ T count name) (b : Block) :
    σ.published T b = V.table.publishes (.block b) := by
  obtain ⟨shared, hT, hslots⟩ := Option.map_eq_some_iff.1 h.table
  simp only [State.published, State.publishes, hT, hslots]

end View.Depicts

theorem Machine.depicts_start {σ : State α} {T : TableId} {count : Nat}
    {name : StackIndex → StackId} {capacity : Nat} {tokens : List Token}
    (htable : (σ.tables.get? T).map (·.slots) = some (.free capacity))
    (hstack : ∀ s < count, σ.lifos.get? (name s) = some { table := T })
    (hinj : ∀ s s', s < count → s' < count → name s = name s' → s = s') :
    ((Machine.start capacity count tokens : Machine α).memory.view T).Depicts σ T count name where
  table := htable
  stack s hs := by
    rw [hstack s hs]
    simp [Memory.view, Memory.start, Machine.start, Memory.nodes, Memory.entries, Memory.gauge, hs]
  table_stack _ _ := rfl
  injective := hinj

/-! ## Sweeps -/

namespace View

def published (V : View α) (b : Block) : Bool := V.table.publishes (.block b)

theorem modify_congr {V : View α} {s : StackIndex} {f f' : Stack α → Stack α}
    (h : f (V.stack s) = f' (V.stack s)) : V.modify s f = V.modify s f' := by
  rw [modify, modify, h]

@[simp] theorem stack_mapTable (V : View α) (f : SlotTable → SlotTable) :
    (V.mapTable f).stack = V.stack := rfl

@[simp] theorem stack_modify_self (V : View α) (s : StackIndex) (f : Stack α → Stack α) :
    (V.modify s f).stack s = f (V.stack s) := Function.update_self ..

@[simp] theorem published_modify (V : View α) (s : StackIndex) (f : Stack α → Stack α) :
    (V.modify s f).published = V.published := rfl

/-- What the rest of a sweep keeps goes to the head of the list in reverse order, what it frees is
seen in order, and both are counted. -/
theorem walk_eq (V : View α) (pass : Pass α) (nodes : List Block) : V.walk pass nodes =
    ⟨V.modify pass.stack fun stack => { stack with limbo :=
        ⟨(nodes.filter V.published).reverse ++ stack.limbo.entries, stack.limbo.gauge -
          UInt64.ofNat (pass.freed + (nodes.filter (!V.published ·)).length)⟩ },
      (nodes.filter (!V.published ·)).map (.freed pass.stack) ++
        Pass.marks { pass with
          freed := pass.freed + (nodes.filter (!V.published ·)).length
          deferred := pass.deferred + (nodes.filter V.published).length }⟩ := by
  induction nodes generalizing V pass with
  | nil => rfl
  | cons b rest ih =>
    have hshelve : (V.shelve pass.stack b).published = V.published := rfl
    cases hb : V.published b with
    | true =>
      have hpub : V.table.publishes (.block b) = true := hb
      rw [walk, if_pos hpub, ih, hshelve]
      simp [hb, shelve, modify_modify, Nat.add_assoc, Nat.add_comm 1]
    | false =>
      have hpub : ¬ V.table.publishes (.block b) = true := Bool.eq_false_iff.1 hb
      rw [walk, if_neg hpub, ih]
      simp [hb, Ending.after, Nat.add_assoc, Nat.add_comm 1]

def sweepMarks (V : View α) (s : StackIndex) (L : Limbo) : List (Mark α) :=
  (L.sweep V.published).2.map (.freed s) ++
    if L.entries = [] then []
    else [.swept s (L.sweep V.published).2.length (L.sweep V.published).1.entries.length]

theorem sweep_eq (V : View α) {pass : Pass α} (hfreed : pass.freed = 0)
    (hdeferred : pass.deferred = 0) : V.sweep pass =
    ⟨V.modify pass.stack fun stack => { stack with limbo := (stack.limbo.sweep V.published).1 },
      V.sweepMarks pass.stack (V.stack pass.stack).limbo ++
        [.returned (Pass.reply { pass with
          freed := ((V.stack pass.stack).limbo.sweep V.published).2.length })]⟩ := by
  have hlength := List.length_eq_length_filter_add (l := (V.stack pass.stack).limbo.entries)
    V.published
  have hpos : 0 < ((V.stack pass.stack).limbo.entries.filter (!V.published ·)).length +
      ((V.stack pass.stack).limbo.entries.filter V.published).length ↔
        (V.stack pass.stack).limbo.entries ≠ [] := by
    rw [Nat.add_comm, ← hlength, List.length_pos_iff]
  rw [sweep, walk_eq, modify_modify]
  simp only [published_modify, Limbo.sweep_eq, hfreed, hdeferred, Nat.zero_add, List.append_nil,
    sweepMarks, List.append_assoc, Pass.marks, List.length_reverse, hpos, ne_eq, ite_not,
    Ending.mk.injEq]
  exact ⟨modify_congr rfl, rfl⟩

theorem event?_sweepMarks (V : View α) (T : TableId) (name : StackIndex → StackId)
    (s : StackIndex) (L : Limbo) : (V.sweepMarks s L).filterMap (·.event? T name) =
      L.sweepEvents (name s) V.published := by
  by_cases he : L.entries = []
  · simp [sweepMarks, Limbo.sweepEvents, he, Limbo.sweep_of_nil he]
  · simp [sweepMarks, Limbo.sweepEvents, he, List.filterMap_append, List.filterMap_map, Mark.event?]

theorem answer?_sweepMarks (V : View α) (s : StackIndex) (L : Limbo) :
    (V.sweepMarks s L).filterMap (·.answer?) = [] := by
  rw [sweepMarks]
  split <;> simp [List.filterMap_append, List.filterMap_map, Mark.answer?]

@[simp] theorem sweepMarks_modify (V : View α) (s s' : StackIndex) (f : Stack α → Stack α)
    (L : Limbo) : (V.modify s f).sweepMarks s' L = V.sweepMarks s' L := rfl

theorem relinquish_eq (V : View α) (s : StackIndex) (b : Block) (v : α) :
    V.relinquish s b v =
      ⟨V.modify s fun stack =>
          { stack with limbo := ((stack.limbo.intake V.published b).sweep V.published).1 },
        (if V.published b then .retired s b else .freed s b) ::
          (V.sweepMarks s ((V.stack s).limbo.intake V.published b) ++ [.returned (.popped v)])⟩ := by
  cases hb : V.published b with
  | true =>
    have hpub : V.table.publishes (.block b) = true := hb
    rw [relinquish, if_pos hpub, retire, sweep_eq _ rfl rfl, modify_modify, published_modify]
    simp only [Limbo.intake, hb, if_true, modify, Function.update_self]
    rfl
  | false =>
    have hpub : ¬ V.table.publishes (.block b) = true := Bool.eq_false_iff.1 hb
    rw [relinquish, if_neg hpub, free, sweep_eq _ rfl rfl]
    simp only [Limbo.intake, hb, Bool.false_eq_true, if_false]
    rfl

end View

/-! ## Operations -/

variable [Disposable α] {σ : State α} {V : View α} {T : TableId} {count : Nat}
  {name : StackIndex → StackId} {token : Token} {fresh : Block} {command : Command α} {op : Op α}
  {s : StackIndex} {i : Nat} {h : HandleId}

namespace View.Depicts

theorem agrees {β : Type} {W : View α} {x : Action α β} {f : β → Answer α} {σ' : State α}
    {events : List (Event α)} {b : β} (hW : W.Depicts σ' T count name)
    (hop : op.run = do return f (← x)) (hrun : x σ = ⟨σ', events, b⟩) (marks : List (Mark α))
    (reply : Reply α) (hevents : marks.filterMap (·.event? T name) = events)
    (hsilent : marks.filterMap (·.answer?) = []) (hanswer : reply.answer = f b) :
    Ending.Agrees ⟨W, marks ++ [.returned reply]⟩ (op.run σ) T count name := by
  have hout : op.run σ = ⟨σ', events, f b⟩ := Op.deed_eq hop hrun
  rw [hout]
  refine ⟨hW, ?_, ?_⟩
  · rw [List.filterMap_append, hevents]
    exact List.append_nil _
  · rw [List.filterMap_append, hsilent, ← hanswer]
    rfl

theorem acquire (hV : V.Depicts σ T count name) {t : ThreadId} {thread : Thread} {last : Token}
    (ht : σ.threads.get? t = some thread) (hk : σ.Draws thread token last)
    (hnew : σ.isUsed h = false) :
    (V.claim token 0).Agrees ((Op.acquire t T h).run σ) T count name := by
  obtain ⟨shared, hT, hslots⟩ := Option.map_eq_some_iff.1 hV.table
  rcases σ.acquire_cases t T h with ⟨hnot, -⟩ | ⟨-, -, -, -, hrun⟩
  · exact absurd ⟨State.horizon_le_of_isUsed hnew, by simp [ht], by simp [hT]⟩ hnot
  obtain ⟨k, last', hk', hclaim⟩ := State.claim_eq ht hT
  obtain rfl := hk'.unique hk
  rw [hslots] at hclaim
  have hfind : (V.table.slots.drop 0).findIdx? (·.owner.isNone) =
    V.table.slots.findIdx? (·.owner.isNone) := rfl
  rcases hclaim with ⟨hnone, hclaim⟩ | ⟨i, slots, hsome, hclaim⟩
  · have hnone' : V.table.slots.findIdx? (·.owner.isNone) = none := by
      simpa [SlotTable.claim?] using hnone
    rw [hclaim] at hrun
    dsimp only at hrun
    rw [View.claim, hfind, hnone']
    refine agrees ?_ rfl hrun [.exhausted k V.table.capacity] (.exhausted _) rfl rfl rfl
    exact hV.congr rfl rfl
  · obtain ⟨j, hj, hji⟩ := Option.map_eq_some_iff.1 hsome
    obtain ⟨rfl, rfl⟩ := Prod.mk.inj hji
    rw [hclaim] at hrun
    dsimp only at hrun
    rw [View.claim, hfind, hj]
    simp only [Nat.zero_add]
    refine agrees ?_ rfl hrun [.claimed k j] (.acquired j) rfl rfl rfl
    have hV' : V.Depicts (σ.withToken t k last') T count name := hV.congr rfl rfl
    refine (hV'.setSlots (·.modify j ({ · with owner := some k }))).congr ?_ rfl
    simp [State.use, State.retain, State.setSlots, State.withToken, Registry.get?_modify, hT, hslots]

theorem release (hV : V.Depicts σ T count name) (hh : σ.handles.get? h = some ⟨T, i⟩)
    (hrefs : 1 < σ.refs T) :
    ((V.mapTable (·.publish i .null)).disown i).Agrees ((Op.release h).run σ) T count name := by
  obtain ⟨shared, hT, hslots⟩ := Option.map_eq_some_iff.1 hV.table
  rcases State.release_cases σ h with ⟨hnone, -⟩ | ⟨handle, hhandle, hrun⟩
  · cases hnone.symm.trans hh
  obtain rfl := Option.some.inj (hhandle.symm.trans hh)
  rw [State.giveBack_eq] at hrun
  dsimp only at hrun
  let τ : State α := { σ with handles := σ.handles.erase h }
  have hV' : V.Depicts τ T count name := hV.congr rfl rfl
  have howner : σ.owner ⟨T, i⟩ = V.table.owner i := by
    simp only [State.owner, hT, Option.bind_some, hslots]
  have hdisown : (V.mapTable (·.publish i .null)).disown i =
      ⟨V.mapTable (·.release i), [.released (V.table.owner i) i] ++ [.returned .done]⟩ := by
    simp only [View.disown, mapTable, SlotTable.owner_publish, SlotTable.disown_publish,
      List.singleton_append]
  rw [hdisown]
  refine agrees ?_ rfl hrun _ .done ?_ rfl rfl
  · refine (hV'.setSlots (·.release i)).congr ?_ ?_
    · rw [State.letGo, if_neg (by rw [State.refs_setSlots]; exact Nat.not_le.2 hrefs)]
      simp [State.setSlots, Registry.get?_modify, τ, hT]
    · rw [State.letGo]
      split <;> rfl
  · exact congrArg (fun o => [Event.notice (.released T o i)]) howner.symm

theorem publish (hV : V.Depicts σ T count name) (hh : σ.handles.get? h = some ⟨T, i⟩)
    (a : Address) :
    Ending.Agrees ⟨V.mapTable (·.publish i a), [.returned .done]⟩ ((Op.publish h a).run σ) T count
      name := by
  rcases State.publish_cases σ h a with ⟨hnone, -⟩ | ⟨handle, hhandle, hrun⟩
  · cases hnone.symm.trans hh
  · obtain rfl := Option.some.inj (hhandle.symm.trans hh)
    exact agrees (hV.setSlots (·.publish i a)) rfl hrun [] .done rfl rfl rfl

theorem push (hV : V.Depicts σ T count name) (hs : s < count) (v : α) (hb : fresh ∉ σ.blocks) :
    (V.push s fresh v).Agrees ((Op.push (name s) fresh v).run σ) T count name := by
  have hstack := hV.stack s hs
  rcases State.push_cases σ (name s) fresh v with ⟨hnot, -⟩ | ⟨stack, hget, -, hrun⟩
  · exact absurd ⟨by simp [hstack], hb⟩ hnot
  · obtain rfl := Option.some.inj (hstack.symm.trans hget)
    have hV' : V.Depicts (σ.use fresh) T count name := hV.congr rfl rfl
    refine agrees ?_ rfl hrun [] .done rfl rfl rfl
    refine hV'.setStack hs ?_ ?_
    · exact hV.table_stack s hs
    · rfl

theorem pop (hV : V.Depicts σ T count name) (hs : s < count)
    (hh : σ.handles.get? h = some ⟨T, i⟩) :
    (V.pop s i).Agrees ((Op.popWith (name s) h).run σ) T count name := by
  have hstack := hV.stack s hs
  have htable := hV.table_stack s hs
  have hV' := hV.setSlots (·.publish i .null)
  have hrun := State.popWith_eq hstack hh
  rw [if_pos htable.symm] at hrun
  cases hn : (V.stack s).nodes with
  | nil =>
    rw [State.popThrough_of_nil hstack hn] at hrun
    have hpop : V.pop s i = ⟨V.mapTable (·.publish i .null), [.returned .empty]⟩ := by
      simp only [View.pop, mapTable, hn]
    rw [hpop]
    exact agrees hV' rfl hrun [] .empty rfl rfl rfl
  | cons node rest =>
    have hpub : (σ.silence ⟨T, i⟩).published (V.stack s).table =
        (V.mapTable (·.publish i .null)).published := by
      rw [htable]
      exact funext hV'.published
    rw [State.popThrough_of_cons hstack hn _ hpub] at hrun
    have hpop : V.pop s i = ((V.mapTable (·.publish i .null)).modify s
        ({ · with nodes := rest })).relinquish s node.block node.value := by
      simp only [View.pop, mapTable, hn]
    rw [hpop, relinquish_eq, modify_modify, published_modify]
    refine agrees ?_ rfl hrun (_ :: _) (.popped node.value) ?_ ?_ rfl
    · refine hV'.setStack hs ?_ ?_
      · exact htable
      · rfl
    · rw [List.filterMap_cons, sweepMarks_modify, event?_sweepMarks, stack_modify_self]
      cases hb : (V.mapTable (·.publish i .null)).published node.block <;>
        simp [State.popEvents, hb, Mark.event?]
    · rw [List.filterMap_cons, answer?_sweepMarks]
      split
      · rfl
      · next hsome => split at hsome <;> cases hsome

theorem reclaim (hV : V.Depicts σ T count name) (hs : s < count) :
    (V.sweep { stack := s, result := none }).Agrees ((Op.reclaim (name s)).run σ) T count name := by
  have hstack := hV.stack s hs
  have htable := hV.table_stack s hs
  have hpub : σ.published (V.stack s).table = V.published := by
    rw [htable]
    exact funext hV.published
  have hrun := State.reclaim_eq hstack
  rw [hpub] at hrun
  rw [sweep_eq V rfl rfl]
  refine agrees ?_ rfl hrun _ _ (V.event?_sweepMarks T name s _) (V.answer?_sweepMarks s _) rfl
  refine hV.setStack hs ?_ ?_
  · exact htable
  · rfl

end View.Depicts

theorem Command.Means.agrees (hm : command.Means σ T name token fresh op)
    (hV : V.Depicts σ T count name) (hs : ∀ s, command.stack? = some s → s < count) :
    (command.ending V token fresh).Agrees (op.run σ) T count name := by
  cases hm with
  | acquire ht hk hnew => exact hV.acquire ht hk hnew
  | release hh hrefs => exact hV.release hh hrefs
  | publish hh => exact hV.publish hh _
  | push hb => exact hV.push (hs _ rfl) _ hb
  | pop hh => exact hV.pop (hs _ rfl) hh
  | reclaim => exact hV.reclaim (hs _ rfl)

/-! ## Runs of the machine -/

namespace Machine

variable {M M' : Machine α} {t : Nat} {g : Agent α} {acts : List (Act α)}

/-- An operation that a thread makes alone, whatever the other threads are at, does what the
operation does that it means. -/
theorem Sound.agrees_of_call (h : M.Sound) (hg : M.agents[t]? = some g)
    (hV : (M.memory.view T).Depicts σ T M.memory.words.length name)
    (hm : command.Means σ T name g.token fresh op) (hacts : ∀ act ∈ acts, act.mover? = some t)
    (hrun : M.run? (.call t command :: acts) = some M') (hend : M'.control? t = some .idle)
    (hblock : ∀ s v, command = .push s v → ∀ u b, .receive u b ∈ acts → b = fresh) :
    Ending.Agrees ⟨M'.memory.view T, M.log (.call t command :: acts)⟩ (op.run σ) T
      M.memory.words.length name := by
  rw [← h.ending_of_call hg hacts hrun hend hblock]
  exact hm.agrees hV (run?_call_eq_some hg hrun).2.1

/-- Whatever operation a command means, an idle thread can do what the operation does. -/
theorem Sound.exists_agrees (h : M.Sound) (hg : M.agents[t]? = some g) (hidle : g.control = .idle)
    (hV : (M.memory.view T).Depicts σ T M.memory.words.length name)
    (hm : command.Means σ T name g.token fresh op)
    (hslot : ∀ i, command.slot? = some i → i ∈ g.held)
    (hstack : ∀ s, command.stack? = some s → s < M.memory.words.length)
    (hfree : M.memory.heap[fresh]? = none) :
    ∃ acts M', M.run? (.call t command :: acts) = some M' ∧ M'.control? t = some .idle ∧
      Ending.Agrees ⟨M'.memory.view T, M.log (.call t command :: acts)⟩ (op.run σ) T
        M.memory.words.length name := by
  obtain ⟨acts, M', hacts, hrun, hend, hblock⟩ := h.exists_call hg hidle hslot hstack hfree
  exact ⟨acts, M', hrun, hend, h.agrees_of_call hg hV hm hacts hrun hend hblock⟩

/-- Acts of the machine by which whole operations follow one another: they mean the operations `ops`
on the states from `σ` on. -/
inductive InTurn (T : TableId) (name : StackIndex → StackId) :
    Machine α → State α → List (Act α) → List (Op α) → Prop where
  | nil {M : Machine α} {σ : State α} : InTurn T name M σ [] []
  | cons {M M' : Machine α} {σ : State α} {t : Nat} {g : Agent α} {fresh : Block}
      {command : Command α} {op : Op α} {acts acts' : List (Act α)} {ops : List (Op α)}
      (hg : M.agents[t]? = some g)
      (hm : command.Means σ T name g.token fresh op) (hacts : ∀ act ∈ acts, act.mover? = some t)
      (hrun : M.run? (.call t command :: acts) = some M') (hend : M'.control? t = some .idle)
      (hblock : ∀ s v, command = .push s v → ∀ u b, .receive u b ∈ acts → b = fresh)
      (hrest : InTurn T name M' (op.run σ).state acts' ops) :
      InTurn T name M σ (.call t command :: acts ++ acts') (op :: ops)

/-- Operations of the machine that follow one another are a run of the operations on states. -/
theorem InTurn.agrees {ops : List (Op α)} (hr : InTurn T name M σ acts ops) (h : M.Sound)
    (hV : (M.memory.view T).Depicts σ T M.memory.words.length name) :
    ∃ M', M.run? acts = some M' ∧
      (M'.memory.view T).Depicts (Op.runAll ops σ).state T M'.memory.words.length name ∧
      (M.log acts).filterMap (·.event? T name) = (Op.runAll ops σ).events ∧
      (M.log acts).filterMap (·.answer?) = (Op.runAll ops σ).value := by
  induction hr with
  | nil => exact ⟨_, rfl, hV, rfl, rfl⟩
  | @cons M M₁ σ t g fresh command op acts acts' ops hg hm hacts hrun hend hblock hrest ih =>
    have hone := h.agrees_of_call hg hV hm hacts hrun hend hblock
    have hreach : M.Reaches M₁ := ⟨_, hrun⟩
    have hcount : M₁.memory.words.length = M.memory.words.length :=
      invariant_of_step (P := fun M₁ => M₁.memory.words.length = M.memory.words.length)
        (fun hP hs => hs.length_words.trans hP) rfl hreach
    obtain ⟨M', hrun', hV', hevents, hanswers⟩ :=
      ih (invariant_of_step (fun h hs => h.step hs) h hreach) (by rw [hcount]; exact hone.view)
    refine ⟨M', ?_, hV', ?_, ?_⟩
    · rw [run?_append, hrun]
      exact hrun'
    · rw [log_append hrun, List.filterMap_append, hone.events, hevents]
      simp [Op.runAll]
    · rw [log_append hrun, List.filterMap_append, hone.answers, hanswers]
      rfl

theorem InTurn.agrees_from_start {capacity : Nat} {tokens : List Token} {ops : List (Op α)}
    (hr : InTurn T name (start capacity count tokens) σ acts ops)
    (htable : (σ.tables.get? T).map (·.slots) = some (.free capacity))
    (hstack : ∀ s < count, σ.lifos.get? (name s) = some { table := T })
    (hinj : ∀ s s', s < count → s' < count → name s = name s' → s = s') :
    ∃ M, (start capacity count tokens).run? acts = some M ∧
      (M.memory.view T).Depicts (Op.runAll ops σ).state T M.memory.words.length name ∧
      ((start capacity count tokens).log acts).filterMap (·.event? T name) =
        (Op.runAll ops σ).events ∧
      ((start capacity count tokens).log acts).filterMap (·.answer?) = (Op.runAll ops σ).value := by
  have hcount : (start capacity count tokens : Machine α).memory.words.length = count :=
    List.length_replicate
  refine hr.agrees (sound_start capacity count tokens) ?_
  rw [hcount]
  exact depicts_start htable hstack hinj

end Machine

end Interleaved

end HazardLifo
