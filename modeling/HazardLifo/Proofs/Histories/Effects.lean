import HazardLifo.Proofs.Histories.Steps

/-!
# What operations do to the nodes of stacks

`Deed.work` is what an operation did to the nodes of a stack, read off its answer. `Effect` says
what that comes to: how the stacks changed, which nodes were freed and which values destroyed.
-/

namespace HazardLifo

variable {α : Type}

/-! ## Ends in events -/

namespace Event

def freed? : Event α → Option (StackId × Block)
  | .freed s b => some (s, b)
  | _ => none

def destroyed? : Event α → Option (StackId × Node α)
  | .destroyed s b v => some (s, ⟨b, v⟩)
  | _ => none

end Event

def freedIn (events : List (Event α)) : List (StackId × Block) := events.filterMap Event.freed?

def destroyedIn (events : List (Event α)) : List (StackId × Node α) :=
  events.filterMap Event.destroyed?

theorem freedIn_append (events events' : List (Event α)) :
    freedIn (events ++ events') = freedIn events ++ freedIn events' := List.filterMap_append

theorem destroyedIn_append (events events' : List (Event α)) :
    destroyedIn (events ++ events') = destroyedIn events ++ destroyedIn events' :=
  List.filterMap_append

theorem freedIn_map_freed (s : StackId) (bs : List Block) :
    freedIn (bs.map (.freed s) : List (Event α)) = bs.map (s, ·) := by
  rw [freedIn, List.filterMap_map]
  exact congrFun List.filterMap_eq_map bs

theorem destroyedIn_map_freed (s : StackId) (bs : List Block) :
    destroyedIn (bs.map (.freed s) : List (Event α)) = [] := by
  rw [destroyedIn, List.filterMap_map]
  exact List.filterMap_eq_nil_iff.2 fun _ _ => rfl

namespace OnlyNotices

variable {events : List (Event α)}

theorem freedIn (h : OnlyNotices events) : freedIn events = [] :=
  List.filterMap_eq_nil_iff.2 fun e he => by
    obtain ⟨n, rfl⟩ := h e he
    rfl

theorem destroyedIn (h : OnlyNotices events) : destroyedIn events = [] :=
  List.filterMap_eq_nil_iff.2 fun e he => by
    obtain ⟨n, rfl⟩ := h e he
    rfl

end OnlyNotices

namespace Limbo

variable (s : StackId) (published : Block → Bool) (L : Limbo)

theorem freedIn_sweepEvents :
    freedIn (L.sweepEvents s published : List (Event α)) =
      (L.entries.filter (!published ·)).map (s, ·) := by
  unfold sweepEvents
  split
  · rename_i h
    rw [h]
    rfl
  · rw [freedIn_append, freedIn_map_freed, sweep_eq]
    exact List.append_nil _

theorem destroyedIn_sweepEvents :
    destroyedIn (L.sweepEvents s published : List (Event α)) = [] := by
  unfold sweepEvents
  split
  · rfl
  · rw [destroyedIn_append, destroyedIn_map_freed]
    rfl

theorem entries_sweep_intake (b : Block) :
    ((L.intake published b).sweep published).1.entries =
      ((b :: L.entries).filter published).reverse := by
  rw [sweep_eq, intake]
  cases hb : published b <;> simp [retire, hb]

end Limbo

namespace State

theorem freedIn_popEvents (s : StackId) (published : Block → Bool) (stack : Stack α) (b : Block) :
    freedIn (popEvents s published stack b) =
      ((b :: stack.limbo.entries).filter (!published ·)).map (s, ·) := by
  have hcons : ∀ (e : Event α) events, freedIn (e :: events) = freedIn [e] ++ freedIn events :=
    fun e events => freedIn_append [e] events
  rw [popEvents, hcons, Limbo.freedIn_sweepEvents, Limbo.intake]
  cases hb : published b <;> simp [freedIn, Event.freed?, Limbo.retire, hb]

theorem destroyedIn_popEvents (s : StackId) (published : Block → Bool) (stack : Stack α) (b : Block) :
    destroyedIn (popEvents s published stack b) = [] := by
  have hcons : ∀ (e : Event α) events, destroyedIn (e :: events) = destroyedIn [e] ++ destroyedIn events :=
    fun e events => destroyedIn_append [e] events
  rw [popEvents, hcons, Limbo.destroyedIn_sweepEvents]
  cases hb : published b <;> rfl

/-! ## A stack's end -/

section

variable [Disposable α]

/-- The nodes that a stack's end comes to: up to and with the first whose destructor fails. -/
def dismantled : List (Node α) → List (Node α)
  | [] => []
  | node :: rest =>
    if (Disposable.fault? node.value).isSome then [node] else node :: dismantled rest

theorem dismantled_append_leftBehind (nodes : List (Node α)) :
    dismantled nodes ++ leftBehind nodes = nodes := by
  induction nodes with
  | nil => rfl
  | cons node rest ih =>
    rw [dismantled, leftBehind]
    split
    · rfl
    · rw [List.cons_append, ih]

theorem freedIn_dismantle (s : StackId) (nodes : List (Node α)) :
    freedIn (dismantle s nodes).1 = (dismantled nodes).map fun node => (s, node.block) := by
  induction nodes with
  | nil => rfl
  | cons node rest ih =>
    cases hf : Disposable.fault? node.value with
    | some message =>
      simp only [dismantle, dismantled, hf, Option.isSome_some, if_true]
      rfl
    | none =>
      simp only [dismantle, dismantled, hf, Option.isSome_none, Bool.false_eq_true, if_false,
        List.map_cons, ← ih]
      rfl

theorem destroyedIn_dismantle (s : StackId) (nodes : List (Node α)) :
    destroyedIn (dismantle s nodes).1 = (dismantled nodes).map (s, ·) := by
  induction nodes with
  | nil => rfl
  | cons node rest ih =>
    cases hf : Disposable.fault? node.value with
    | some message =>
      simp only [dismantle, dismantled, hf, Option.isSome_some, if_true]
      rfl
    | none =>
      simp only [dismantle, dismantled, hf, Option.isSome_none, Bool.false_eq_true, if_false,
        List.map_cons, ← ih]
      rfl

end

end State

/-! ## The work of an operation -/

/-- What an operation did to the nodes of a stack. -/
inductive Work (α : Type) where
  | nothing
  | pushed (s : StackId) (node : Node α)
  | popped (s : StackId) (v : α)
  | swept (s : StackId)
  | dropped (s : StackId)

def Op.work : Op α → Answer α → Work α
  | .push s b v, .done => .pushed s ⟨b, v⟩
  | .pop _ s, .popped v => .popped s v
  | .popWith s _, .popped v => .popped s v
  | .reclaim s, .reclaimed _ => .swept s
  | .dropStack s, .done => .dropped s
  | .dropStack s, .failed (.fault _) => .dropped s
  | _, _ => .nothing

namespace Op

variable {op : Op α} {answer : Answer α} {s : StackId} {v : α}

theorem work_eq_pushed {node : Node α} (h : op.work answer = .pushed s node) :
    op = .push s node.block node.value := by
  unfold work at h
  split at h <;> cases h
  rfl

theorem work_eq_popped (h : op.work answer = .popped s v) :
    answer = .popped v ∧ ((∃ t, op = .pop t s) ∨ ∃ n, op = .popWith s n) := by
  unfold work at h
  split at h <;> simp_all

theorem work_eq_swept (h : op.work answer = .swept s) : op = .reclaim s := by
  unfold work at h
  split at h <;> simp_all

theorem work_eq_dropped (h : op.work answer = .dropped s) : op = .dropStack s := by
  unfold work at h
  split at h <;> simp_all

end Op

namespace Deed

def work (d : Deed α) : Work α := d.op.work d.answer

def freed (d : Deed α) : List (StackId × Block) := freedIn d.events

def destroyed (d : Deed α) : List (StackId × Node α) := destroyedIn d.events

/-- The handle through which the operation pops, if there is one already. -/
def popper (d : Deed α) : Option Handle :=
  match d.op with
  | .popWith _ h => d.before.handles.get? h
  | .pop t s => (d.before.lifos.get? s).bind fun stack =>
      (d.before.cache t).handles.find? (·.table == stack.table)
  | _ => none

/-- The state before the operation, but the popping handle is cleared. -/
def cleared (d : Deed α) : State α :=
  match d.popper with
  | some h => d.before.silence h
  | none => d.before

end Deed

open State Op

/-- What the work of an operation comes to. A pop and a reclaim both tend the limbo; a pop takes the
top node off first, which then is what is `gone`. -/
inductive Effect [Disposable α] (d : Deed α) : Prop
  | quiet (work : d.work = .nothing) (lifos : d.after.lifos = d.before.lifos)
    (lost : d.after.lost = d.before.lost) (events : OnlyNotices d.events)
  | made (s : StackId) (T : TableId) (work : d.work = .nothing) (fresh : d.before.lifos.get? s = none)
    (lifos : d.after.lifos = d.before.lifos.insert s { table := T })
    (lost : d.after.lost = d.before.lost) (events : OnlyNotices d.events)
  | pushed (s : StackId) (stack : Stack α) (node : Node α) (work : d.work = .pushed s node)
    (there : d.before.lifos.get? s = some stack) (fresh : node.block ∉ d.before.blocks)
    (lifos : d.after.lifos =
      d.before.lifos.modify s fun _ => { stack with nodes := node :: stack.nodes })
    (lost : d.after.lost = d.before.lost) (events : OnlyNotices d.events)
  | tended (s : StackId) (stack stack' : Stack α) (gone : List (Node α))
    (work : (gone = [] ∧ d.work = .swept s) ∨ ∃ node, gone = [node] ∧ d.work = .popped s node.value)
    (there : d.before.lifos.get? s = some stack) (table : stack'.table = stack.table)
    (nodes : stack.nodes = gone ++ stack'.nodes)
    (published : d.after.published = d.cleared.published)
    (lifos : d.after.lifos = d.before.lifos.modify s fun _ => stack')
    (lost : d.after.lost = d.before.lost)
    (kept : stack'.limbo.entries = ((gone.map (·.block) ++ stack.limbo.entries).filter
      (d.cleared.published stack.table)).reverse)
    (freed : d.freed = ((gone.map (·.block) ++ stack.limbo.entries).filter
      (!d.cleared.published stack.table ·)).map (s, ·))
    (destroyed : d.destroyed = [])
  | dropped (s : StackId) (stack : Stack α) (work : d.work = .dropped s)
    (there : d.before.lifos.get? s = some stack)
    (lifos : d.after.lifos = d.before.lifos.erase s)
    (lost : d.after.lost = (leftBehind stack.nodes).map (·.block) ++ d.before.lost)
    (freed : d.freed = ((dismantled stack.nodes).map (·.block) ++ stack.limbo.entries).map (s, ·))
    (destroyed : d.destroyed = (dismantled stack.nodes).map (s, ·))

namespace Effect

variable [Disposable α] {op : Op α} {σ σ' : State α} {events : List (Event α)} {answer : Answer α}

theorem work_deed (hrun : (op.deed σ).outcome = ⟨σ', events, answer⟩) :
    (op.deed σ).work = op.work answer := by
  rw [Deed.work, Deed.answer, hrun, op_deed]

theorem of_quiet (hrun : (op.deed σ).outcome = ⟨σ', events, answer⟩) (work : op.work answer = .nothing)
    (lifos : σ'.lifos = σ.lifos) (lost : σ'.lost = σ.lost) (hevents : OnlyNotices events) :
    Effect (op.deed σ) := by
  refine .quiet ((work_deed hrun).trans work) ?_ ?_ ?_
  · rw [Deed.after, hrun]
    exact lifos
  · rw [Deed.after, hrun]
    exact lost
  · rw [Deed.events, hrun]
    exact hevents

theorem of_made {s : StackId} {T : TableId} (hrun : (op.deed σ).outcome = ⟨σ', events, answer⟩)
    (work : op.work answer = .nothing) (fresh : σ.lifos.get? s = none)
    (lifos : σ'.lifos = σ.lifos.insert s { table := T }) (lost : σ'.lost = σ.lost)
    (hevents : OnlyNotices events) : Effect (op.deed σ) := by
  refine .made s T ((work_deed hrun).trans work) fresh ?_ ?_ ?_
  · rw [Deed.after, hrun]
    exact lifos
  · rw [Deed.after, hrun]
    exact lost
  · rw [Deed.events, hrun]
    exact hevents

/-- A pop, after whatever the thread had to do for its handle. -/
theorem of_popping {τ : State α} {s : StackId} {stack stack' : Stack α} {pre mid post : List (Event α)}
    {value : Except Failure α}
    (hrun : (op.deed σ).outcome = ⟨τ.setStack s stack', pre ++ mid ++ post, .ofExcept .popped value⟩)
    (hwork : ∀ v, op.work (.popped v) = .popped s v) (hfailed : ∀ e, op.work (.failed e) = .nothing)
    (hs : σ.lifos.get? s = some stack) (hlifos : τ.lifos = σ.lifos) (hlost : τ.lost = σ.lost)
    (hpre : OnlyNotices pre) (hpost : OnlyNotices post)
    (hpublished : τ.published = (op.deed σ).cleared.published)
    (hp : Popping s ((op.deed σ).cleared.published stack.table) stack stack' mid value) :
    Effect (op.deed σ) := by
  have hafter : (op.deed σ).after = τ.setStack s stack' := congrArg Outcome.state hrun
  have hevents : (op.deed σ).events = pre ++ mid ++ post := congrArg Outcome.events hrun
  have hlifos' : (op.deed σ).after.lifos = σ.lifos.modify s fun _ => stack' := by
    rw [hafter, ← hlifos]
    rfl
  have hlost' : (op.deed σ).after.lost = σ.lost := by
    rw [hafter, ← hlost]
    rfl
  have hquiet : ∀ e, value = .error e → stack' = stack → mid = [] → Effect (op.deed σ) := by
    rintro e rfl rfl rfl
    refine of_quiet hrun (hfailed e) ?_ hlost ((hpre.append onlyNotices_nil).append hpost)
    rw [setStack_self (by rw [hlifos]; exact hs)]
    exact hlifos
  cases hp with
  | empty _ => exact hquiet _ rfl rfl rfl
  | exhausted c => exact hquiet _ rfl rfl rfl
  | popped node rest hn =>
    refine .tended s stack (afterPop ((op.deed σ).cleared.published stack.table) stack node.block rest)
      [node] (.inr ⟨node, rfl, (work_deed hrun).trans (hwork _)⟩) hs rfl hn ?_ hlifos' hlost' ?_ ?_ ?_
    · rw [hafter]
      exact hpublished
    · exact Limbo.entries_sweep_intake ..
    · rw [Deed.freed, hevents, freedIn_append, freedIn_append, hpre.freedIn, hpost.freedIn,
        freedIn_popEvents, List.nil_append, List.append_nil]
      rfl
    · rw [Deed.destroyed, hevents, destroyedIn_append, destroyedIn_append, hpre.destroyedIn,
        hpost.destroyedIn, destroyedIn_popEvents]
      rfl

end Effect

variable [Disposable α] {σ : State α} {sign : HandleId → Token} {shown : HandleId → Address}

theorem cleared_pop {t : ThreadId} {s : StackId} {stack : Stack α} {thread : Thread} {R : List Lease}
    (hs : σ.lifos.get? s = some stack) (hserved : Served t R σ σ thread thread) :
    ((Op.pop t s).deed σ).cleared.published = σ.published := by
  have hpopper : ((Op.pop t s).deed σ).popper =
      thread.cache.handles.find? (·.table == stack.table) := by
    simp only [Deed.popper, op_deed, before_deed, hs, Option.bind_some, cache_eq hserved.runs]
  cases hf : thread.cache.handles.find? (·.table == stack.table) with
  | none => simp only [Deed.cleared, hpopper, hf, before_deed]
  | some handle =>
    simp only [Deed.cleared, hpopper, hf, before_deed]
    have hl : ownLease (thread.token.getD 0) handle ∈ thread.leases ++ R :=
      List.mem_append_left _ (List.mem_map_of_mem (List.mem_of_find?_eq_some hf))
    exact (hserved.silence hl).published hserved.backed

theorem effect_dropStack (σ : State α) (s : StackId) : Effect ((Op.dropStack s).deed σ) := by
  rcases dropStack_cases σ s with ⟨-, hr⟩ | ⟨stack, result, hs, hresult, hrun⟩
  · exact .of_quiet (deed_eq rfl hr) rfl rfl rfl onlyNotices_nil
  · have hout : ((Op.dropStack s).deed σ).outcome = _ := deed_eq rfl hrun
    have hwork : (Op.dropStack s : Op α).work (.ofUnit result) = .dropped s := by
      rcases hresult with rfl | ⟨f, rfl⟩ <;> rfl
    refine .dropped s stack ((Effect.work_deed hout).trans hwork) hs ?_ ?_ ?_ ?_
    · exact congrArg (·.state.lifos) hout
    · exact congrArg (·.state.lost) hout
    · rw [Deed.freed, Deed.events, hout, freedIn_append, freedIn_dismantle, freedIn_map_freed,
        List.map_append, List.map_map]
      rfl
    · rw [Deed.destroyed, Deed.events, hout, destroyedIn_append, destroyedIn_dismantle,
        destroyedIn_map_freed, List.append_nil]

theorem State.Sound.effect_pop (h : Sound σ sign shown) (t : ThreadId) (s : StackId) :
    Effect ((Op.pop t s).deed σ) := by
  rcases pop_cases σ t s with ⟨e, hr⟩ | ⟨stack, thread, hs, ht⟩
  · exact .of_quiet (deed_eq rfl hr) rfl rfl rfl onlyNotices_nil
  · obtain ⟨thread', τ, stack', pre, mid, post, hserved, hrun, hpre, hpost, hp⟩ :=
      pop_serves hs (h.served ht)
    have hcleared : ((Op.pop t s).deed σ).cleared.published = σ.published :=
      cleared_pop hs (h.served ht)
    refine .of_popping (deed_eq rfl hrun) (fun _ => rfl) (fun _ => rfl) hs hserved.lifos ?_ hpre hpost
      ?_ ?_
    · rw [hserved.rest]
    · rw [hcleared]
      exact hserved.published (h.served ht).backed
    · rw [hcleared]
      exact hp

theorem effect_popWith (σ : State α) (s : StackId) (n : HandleId) :
    Effect ((Op.popWith s n).deed σ) := by
  rcases popWith_cases σ s n with ⟨-, hr⟩ | ⟨stack, handle, -, -, -, hr⟩ |
    ⟨stack, handle, stack', mid, value, hs, hn, -, hrun, hp⟩
  · exact .of_quiet (deed_eq rfl hr) rfl rfl rfl onlyNotices_nil
  · exact .of_quiet (deed_eq rfl hr) rfl rfl rfl onlyNotices_nil
  · have hcleared : ((Op.popWith s n).deed σ).cleared = σ.silence handle := by
      simp only [Deed.cleared, Deed.popper, op_deed, before_deed, hn]
    have hrun' : State.popWith s n σ = ⟨(σ.silence handle).setStack s stack', [] ++ mid ++ [], value⟩ := by
      rw [hrun, List.nil_append, List.append_nil]
    refine .of_popping (deed_eq rfl hrun') (fun _ => rfl) (fun _ => rfl) hs rfl rfl onlyNotices_nil
      onlyNotices_nil ?_ ?_
    · rw [hcleared]
    · rw [hcleared]
      exact hp

theorem effect_reclaim (σ : State α) (s : StackId) : Effect ((Op.reclaim s).deed σ) := by
  rcases reclaim_cases σ s with ⟨e, hr⟩ | ⟨stack, count, hs, hrun⟩
  · exact .of_quiet (deed_eq rfl hr) rfl rfl rfl onlyNotices_nil
  · have hout : ((Op.reclaim s).deed σ).outcome = _ := deed_eq rfl hrun
    have hcleared : ((Op.reclaim s).deed σ).cleared = σ := rfl
    refine .tended s stack { stack with limbo := (stack.limbo.sweep (σ.published stack.table)).1 } []
      (.inl ⟨rfl, Effect.work_deed hout⟩) hs rfl rfl ?_ ?_ ?_ ?_ ?_ ?_
    · rw [Deed.after, hout, hcleared]
      rfl
    · exact congrArg (·.state.lifos) hout
    · exact congrArg (·.state.lost) hout
    · rw [hcleared, Limbo.sweep_eq]
      rfl
    · rw [Deed.freed, Deed.events, hout, hcleared, Limbo.freedIn_sweepEvents]
      rfl
    · rw [Deed.destroyed, Deed.events, hout, Limbo.destroyedIn_sweepEvents]

/-- Every operation has one of these effects. -/
theorem State.Sound.effect (h : Sound σ sign shown) (op : Op α) : Effect (op.deed σ) := by
  cases op with
  | newTable T c =>
    rcases newTable_cases σ T c with ⟨e, hr⟩ | ⟨hT, -, hrun⟩
    · exact .of_quiet (deed_eq rfl hr) rfl rfl rfl onlyNotices_nil
    · exact .of_quiet (deed_eq rfl hrun) rfl rfl rfl onlyNotices_nil
  | shareTable T =>
    rcases shareTable_cases σ T with ⟨e, hr⟩ | ⟨hT, hrun⟩
    · exact .of_quiet (deed_eq rfl hr) rfl rfl rfl onlyNotices_nil
    · exact .of_quiet (deed_eq rfl hrun) rfl rfl rfl onlyNotices_nil
  | dropTable T =>
    rcases dropTable_cases σ T with ⟨-, hr⟩ | ⟨hT, hrun⟩
    · exact .of_quiet (deed_eq rfl hr) rfl rfl rfl onlyNotices_nil
    · rw [(tablesOnly_letGo σ T).frame] at hrun
      exact .of_quiet (deed_eq rfl hrun) rfl rfl rfl onlyNotices_nil
  | newStack s T =>
    rcases newStack_cases σ s T with ⟨e, hr⟩ | ⟨hs, hT, hrun⟩
    · exact .of_quiet (deed_eq rfl hr) rfl rfl rfl onlyNotices_nil
    · exact .of_made (deed_eq rfl hrun) rfl (h.fresh hs).2.1 rfl rfl onlyNotices_nil
  | newStackOwning s T c =>
    rcases newStackOwning_cases σ s T c with ⟨e, hr⟩ | ⟨hs, hT, hrun⟩
    · exact .of_quiet (deed_eq rfl hr) rfl rfl rfl onlyNotices_nil
    · exact .of_made (deed_eq rfl hrun) rfl (h.fresh hs).2.1 rfl rfl onlyNotices_nil
  | dropStack s => exact effect_dropStack σ s
  | push s b v =>
    rcases push_cases σ s b v with ⟨e, hr⟩ | ⟨stack, hs, hb, hrun⟩
    · exact .of_quiet (deed_eq rfl hr) rfl rfl rfl onlyNotices_nil
    · have hout : ((Op.push s b v).deed σ).outcome = _ := deed_eq rfl hrun
      refine .pushed s stack ⟨b, v⟩ (Effect.work_deed hout) hs hb ?_ ?_ ?_
      · exact congrArg (·.state.lifos) hout
      · exact congrArg (·.state.lost) hout
      · rw [Deed.events, hout]
        exact onlyNotices_nil
  | pop t s => exact h.effect_pop t s
  | popWith s n => exact effect_popWith σ s n
  | reclaim s => exact effect_reclaim σ s
  | acquire t T n =>
    rcases acquire_cases σ t T n with ⟨e, hr⟩ | ⟨thread, ht, hT, hn, hrun⟩
    · exact .of_quiet (deed_eq rfl hr) rfl rfl rfl onlyNotices_nil
    · obtain ⟨k, hq, ⟨c, hv, hc⟩ | ⟨handle, hv, rfl, hc⟩⟩ := (h.served ht).claim hT
      · rw [hv] at hrun
        exact .of_quiet (deed_eq rfl hrun) rfl hc.lifos (by rw [hc.rest]) hq
      · rw [hv] at hrun
        exact .of_quiet (deed_eq rfl hrun) rfl hc.lifos (by rw [hc.rest]; rfl) hq
  | release n =>
    rcases release_cases σ n with ⟨-, hr⟩ | ⟨handle, hn, hrun⟩
    · exact .of_quiet (deed_eq rfl hr) rfl rfl rfl onlyNotices_nil
    · rw [(tablesOnly_giveBack handle { σ with handles := σ.handles.erase n }).frame] at hrun
      exact .of_quiet (deed_eq rfl hrun) rfl rfl rfl (onlyNotices_notice _)
  | publish n a =>
    rcases publish_cases σ n a with ⟨e, hr⟩ | ⟨handle, hn, hrun⟩
    · exact .of_quiet (deed_eq rfl hr) rfl rfl rfl onlyNotices_nil
    · exact .of_quiet (deed_eq rfl hrun) rfl rfl rfl onlyNotices_nil
  | startThread t =>
    rcases startThread_cases σ t with ⟨e, hr⟩ | ⟨ht, hrun⟩
    · exact .of_quiet (deed_eq rfl hr) rfl rfl rfl onlyNotices_nil
    · exact .of_quiet (deed_eq rfl hrun) rfl rfl rfl onlyNotices_nil
  | hookExit t =>
    rcases hookExit_cases σ t with ⟨e, hr⟩ | ⟨thread, first, ht, hrun⟩
    · exact .of_quiet (deed_eq rfl hr) rfl rfl rfl onlyNotices_nil
    · exact .of_quiet (deed_eq rfl hrun) rfl rfl rfl onlyNotices_nil
  | beginExit t =>
    rcases beginExit_cases σ t with ⟨e, hr⟩ | ⟨thread, ht, ⟨-, hrun⟩ | hrun⟩
    · exact .of_quiet (deed_eq rfl hr) rfl rfl rfl onlyNotices_nil
    · exact .of_quiet (deed_eq rfl hrun) rfl rfl rfl onlyNotices_nil
    · obtain ⟨thread', -, -, hq, hs⟩ := (h.served ht).closeCache
      exact .of_quiet (deed_eq rfl hrun) rfl hs.lifos (by rw [hs.rest]) hq
  | endThread t =>
    rcases endThread_cases σ t with ⟨-, hr⟩ | ⟨thread, ht, hrun⟩
    · exact .of_quiet (deed_eq rfl hr) rfl rfl rfl onlyNotices_nil
    · obtain ⟨thread', -, -, hq, hs⟩ := (h.served ht).closeCache
      exact .of_quiet (deed_eq rfl hrun) rfl hs.lifos (by rw [hs.rest]) hq

end HazardLifo
