import HazardLifo.Proofs.Histories.Caches
import HazardLifo.Proofs.Histories.Effects

/-!
# What pops answer

What a stack holds can be read off the history of a run: the values that were pushed and not popped
since, the latest first (`Op.stacked`). By this list, the cache of the thread and the owners of the
slots every pop answers as it does (`pops_determined`), whatever else the run did.
-/

namespace HazardLifo

variable {α : Type}

open State Op

/-! ## Content by history -/

/-- What stack `s` holds after the operation, if it held `L` before. -/
def Deed.restack (d : Deed α) (s : StackId) (L : List α) : List α :=
  match d.work with
  | .pushed s' node => if s' = s then node.value :: L else L
  | .popped s' _ => if s' = s then L.tail else L
  | .dropped s' => if s' = s then [] else L
  | _ => L

namespace Op

/-- The operation pushes on stack `s`, pops from it or ends it. -/
def WorksOn (s : StackId) : Op α → Prop
  | .push s' _ _ | .pop _ s' | .popWith s' _ | .dropStack s' => s' = s
  | _ => False

variable [Disposable α]

/-- The values pushed on stack `s` and not popped since, the latest first. -/
def stacked (ops : List (Op α)) (s : StackId) : List α :=
  (history ops).foldl (fun L d => d.restack s L) []

theorem stacked_concat (ops : List (Op α)) (op : Op α) (s : StackId) :
    stacked (ops ++ [op]) s = (op.deed (after ops)).restack s (stacked ops s) := by
  rw [stacked, history_concat, List.foldl_append]
  rfl

end Op

theorem Deed.restack_of_not_worksOn {d : Deed α} {s : StackId} (h : ¬d.op.WorksOn s) (L : List α) :
    d.restack s L = L := by
  unfold Deed.restack
  cases hw : d.work with
  | nothing | swept s' => rfl
  | pushed s' node =>
    refine if_neg fun heq => h ?_
    rw [work_eq_pushed hw]
    exact heq
  | popped s' v =>
    refine if_neg fun heq => h ?_
    rcases (work_eq_popped hw).2 with ⟨t, hop⟩ | ⟨n, hop⟩ <;> rw [hop] <;> exact heq
  | dropped s' =>
    refine if_neg fun heq => h ?_
    rw [work_eq_dropped hw]
    exact heq

namespace State

variable {σ σ' : State α} {s s₀ : StackId} {stack stack' : Stack α}

theorem content_eq (hs : σ.lifos.get? s = some stack) : σ.content s = stack.content := by
  rw [content, hs]

theorem content_congr (h : σ'.lifos.get? s = σ.lifos.get? s) : σ'.content s = σ.content s := by
  rw [content, content, h]

theorem content_of_modify (hs : σ.lifos.get? s₀ = some stack)
    (h : σ'.lifos = σ.lifos.modify s₀ fun _ => stack') (s : StackId) :
    σ'.content s = if s₀ = s then stack'.content else σ.content s := by
  split
  · rename_i heq
    subst heq
    exact content_eq (by rw [h, Registry.get?_modify, if_pos rfl, hs, Option.map_some])
  · rename_i hne
    exact content_congr (by rw [h, Registry.get?_modify, if_neg (Ne.symm hne)])

end State

/-- What a stack holds changes as the history says. -/
theorem Effect.content_eq [Disposable α] {d : Deed α} (h : Effect d) (s : StackId) :
    d.after.content s = d.restack s (d.before.content s) := by
  cases h with
  | quiet work lifos _ _ =>
    rw [Deed.restack, work]
    exact content_congr (by rw [lifos])
  | made s₀ T work fresh lifos _ _ =>
    rw [Deed.restack, work]
    by_cases heq : s = s₀
    · subst heq
      rw [content, content, lifos, Registry.get?_insert, if_pos rfl, fresh]
      rfl
    · exact content_congr (by rw [lifos, Registry.get?_insert, if_neg heq])
  | pushed s₀ stack node work there _ lifos _ _ =>
    rw [Deed.restack, work, content_of_modify there lifos]
    by_cases heq : s₀ = s
    · subst heq
      simp only [if_true, State.content_eq there]
      rfl
    · simp only [if_neg heq]
  | tended s₀ stack stack' gone work there _ nodes _ lifos _ _ _ _ =>
    rw [Deed.restack, content_of_modify there lifos]
    by_cases heq : s₀ = s
    · subst heq
      have hcontent : stack.content = gone.map (·.value) ++ stack'.content := by
        rw [Stack.content, nodes, List.map_append, Stack.content]
      rw [if_pos rfl, State.content_eq there, hcontent]
      rcases work with ⟨rfl, hwork⟩ | ⟨node, rfl, hwork⟩ <;> rw [hwork]
      · rfl
      · simp only [if_true]
        rfl
    · rcases work with ⟨-, hwork⟩ | ⟨node, -, hwork⟩ <;> rw [hwork] <;> simp only [if_neg heq]
  | dropped s₀ stack work there lifos _ _ _ =>
    rw [Deed.restack, work]
    by_cases heq : s₀ = s
    · subst heq
      simp only [content, lifos, Registry.get?_erase, if_true]
    · simp only [if_neg heq]
      exact content_congr (by rw [lifos, Registry.get?_erase, if_neg (Ne.symm heq)])

theorem Op.content_after [Disposable α] (ops : List (Op α)) (s : StackId) :
    (after ops).content s = stacked ops s := by
  induction ops using List.reverseRecOn with
  | nil => rfl
  | append_singleton ops op ih =>
    obtain ⟨sign, shown, hsound, -⟩ := sound_after ops
    rw [after_concat, stacked_concat, ← ih]
    exact (hsound.effect op).content_eq s

theorem Op.content_of_get? [Disposable α] {ops : List (Op α)} {s : StackId} {stack : Stack α}
    (hs : (after ops).lifos.get? s = some stack) : stack.content = stacked ops s := by
  rw [← content_after, content_eq hs]

/-! ## Pops that find no slot -/

/-- Thread `t` has no handle of table `T`, and every slot of the table is owned. -/
def State.Starved (σ : State α) (t : ThreadId) (T : TableId) (slots : SlotTable) : Prop :=
  (∀ h ∈ (σ.cache t).handles, h.table ≠ T) ∧ ∀ slot ∈ slots.slots, slot.owner.isSome

namespace State

variable {σ : State α} {t : ThreadId} {thread : Thread} {T : TableId} {shared : SharedTable}
  {s : StackId} {stack : Stack α}

theorem value_claim (ht : σ.threads.get? t = some thread) (hT : σ.tables.get? T = some shared) :
    ((∀ slot ∈ shared.slots.slots, slot.owner.isSome) →
      (claim t T σ).value = .error (.pop (.exhausted shared.slots.capacity))) ∧
    ((¬∀ slot ∈ shared.slots.slots, slot.owner.isSome) → ∃ h, (claim t T σ).value = .ok h) := by
  obtain ⟨k, last, -, ⟨hnone, hclaim⟩ | ⟨i, slots, hsome, hclaim⟩⟩ := claim_eq ht hT <;> rw [hclaim]
  · exact ⟨fun _ => rfl, fun hfree => absurd (SlotTable.claim?_eq_none_iff.1 hnone) hfree⟩
  · refine ⟨fun hfull => ?_, fun _ => ⟨_, rfl⟩⟩
    rw [SlotTable.claim?_eq_none_iff.2 hfull] at hsome
    cases hsome

/-- A pop fails for want of a slot, or it returns what is on top. -/
theorem value_pop (hs : σ.lifos.get? s = some stack) (ht : σ.threads.get? t = some thread)
    (hT : σ.tables.get? stack.table = some shared) (hrefs : σ.refs stack.table ≠ 1) :
    (σ.Starved t stack.table shared.slots →
      (pop t s σ).value = .error (.pop (.exhausted shared.slots.capacity))) ∧
    (¬σ.Starved t stack.table shared.slots → (pop t s σ).value = firstOf stack.content) := by
  by_cases hc : thread.cache = .gone
  · have hnone : ∀ h ∈ (σ.cache t).handles, h.table ≠ stack.table := by
      rw [cache_eq ht, hc]
      nofun
    obtain ⟨hfull, hfree⟩ := value_claim ht hT
    have hpop := pop_eq_of_gone hs ht hc
    refine ⟨fun hstarved => ?_, fun hfed => ?_⟩
    · simp only [hfull hstarved.2] at hpop
      rw [hpop]
    · obtain ⟨h, hv⟩ := hfree fun hall => hfed ⟨hnone, hall⟩
      have hlifos : (claim t stack.table σ).state.lifos.get? s = some stack := by
        rw [lifos_claim ht (by rw [hT]; rfl), hs]
      simp only [hv] at hpop
      rw [hpop]
      exact value_popThrough h hlifos
  · have ht' := get?_threads_pruned ht
    have hT' : (σ.pruned t).tables.get? stack.table = some shared :=
      (get?_tables_pruned t hrefs).trans hT
    have hlifos : (σ.pruned t).lifos.get? s = some stack := by rw [lifos_pruned, hs]
    obtain ⟨hfull, hfree⟩ := value_claim ht' hT'
    obtain ⟨o, hpop, hcases⟩ : ∃ o, pop t s σ = o ∧ CachedPop σ t stack.table s o :=
      ⟨_, rfl, cachedPop_pop hs ht hc hrefs⟩
    rw [hpop]
    cases hcases with
    | @cached h hf =>
      have htable : h.table = stack.table := by simpa using List.find?_some hf
      refine ⟨fun hstarved => ?_, fun _ => value_popThrough h hlifos⟩
      exact absurd htable (hstarved.1 h (List.mem_of_find?_eq_some hf))
    | failed hf hv =>
      have hnone : ∀ h ∈ (σ.cache t).handles, h.table ≠ stack.table := fun h hh => by
        simpa using List.find?_eq_none.1 hf h hh
      refine ⟨fun hstarved => ?_, fun hfed => ?_⟩
      · obtain rfl := Except.error.inj (hv.symm.trans (hfull hstarved.2))
        rfl
      · obtain ⟨h, hok⟩ := hfree fun hall => hfed ⟨hnone, hall⟩
        cases hv.symm.trans hok
    | @claimed h hf hv =>
      refine ⟨fun hstarved => ?_, fun _ => value_popThrough h ?_⟩
      · cases hv.symm.trans (hfull hstarved.2)
      · exact (congrArg (·.get? s) (lifos_claim ht' (by rw [hT']; rfl))).trans hlifos

end State

/-! ## The table that a handle is of -/

namespace Op

variable [Disposable α]

def AcquiredFrom (ops : List (Op α)) (n : HandleId) (T : TableId) : Prop :=
  ∃ d ∈ history ops, ∃ t slot, d.op = .acquire t T n ∧ d.answer = .acquired slot

theorem acquire_grants {σ : State α} {t : ThreadId} {T : TableId} {n : HandleId} {slot : Nat}
    (h : ((Op.acquire t T n).deed σ).answer = .acquired slot) :
    σ.horizon ≤ n ∧ n < ((Op.acquire t T n).deed σ).after.horizon ∧
      ((Op.acquire t T n).deed σ).after.handles.get? n = some ⟨T, slot⟩ := by
  rcases acquire_cases σ t T n with ⟨e, hr⟩ | ⟨thread, ht, hT, hn, hrun⟩
  · have hout : ((Op.acquire t T n).deed σ).outcome = _ := deed_eq rfl hr
    rw [Deed.answer, hout] at h
    cases h
  · cases hv : (claim t T σ).value with
    | error e =>
      rw [hv] at hrun
      have hout : ((Op.acquire t T n).deed σ).outcome = _ := deed_eq rfl hrun
      rw [Deed.answer, hout] at h
      cases h
    | ok handle =>
      rw [hv] at hrun
      have hout : ((Op.acquire t T n).deed σ).outcome = _ := deed_eq rfl hrun
      rw [Deed.answer, hout] at h
      have hslot : handle.slot = slot := Answer.acquired.inj h
      rw [Deed.after, hout]
      refine ⟨hn, Nat.lt_of_lt_of_le (Nat.lt_succ_self n) (Nat.le_max_right ..), ?_⟩
      refine (Registry.get?_insert ..).trans ((if_pos rfl).trans (congrArg some ?_))
      exact Handle.ext (table_of_claim ht hT hv) hslot

/-- A handle that was once acquired is of that table for good, since no number is used again. -/
theorem table_of_acquiredFrom {ops : List (Op α)} {n : HandleId} {T : TableId}
    (h : AcquiredFrom ops n T) :
    n < (after ops).horizon ∧
      ∀ handle, (after ops).handles.get? n = some handle → handle.table = T := by
  induction ops using List.reverseRecOn with
  | nil =>
    obtain ⟨d, hd, -⟩ := h
    cases hd
  | append_singleton ops op ih =>
    obtain ⟨d, hd, t, slot, hop, hanswer⟩ := h
    rw [history_concat, List.mem_append, List.mem_singleton] at hd
    rw [after_concat]
    rcases hd with hd | rfl
    · obtain ⟨hlt, htable⟩ := ih ⟨d, hd, t, slot, hop, hanswer⟩
      obtain ⟨sign, shown, hsound, -⟩ := sound_after ops
      obtain ⟨sign', -, hhandles, -, -, hhorizon⟩ := hsound.step op
      refine ⟨Nat.lt_of_lt_of_le hlt hhorizon, fun handle hn => ?_⟩
      rcases hhandles n handle hn with ⟨hold, -⟩ | ⟨t', hop', hanswer', -⟩
      · exact htable handle hold
      · obtain rfl : op = .acquire t' handle.table n := hop'
        exact absurd (acquire_grants hanswer').1 (Nat.not_le.2 hlt)
    · obtain rfl : op = .acquire t T n := hop
      obtain ⟨-, hlt, hget⟩ := acquire_grants hanswer
      refine ⟨hlt, fun handle hn => ?_⟩
      obtain rfl := Option.some.inj (hget.symm.trans hn)
      rfl

theorem acquiredFrom_of_get? {ops : List (Op α)} {n : HandleId} {handle : Handle}
    (hn : (after ops).handles.get? n = some handle) : AcquiredFrom ops n handle.table := by
  obtain ⟨sign, shown, -, hgranted⟩ := sound_after ops
  obtain ⟨d, hd, t, hop, hanswer, -⟩ := hgranted n handle hn
  exact ⟨d, hd, t, _, hop, hanswer⟩

/-! ## Answers -/

/-- The operation answers by what stack `s` holds, and takes the first value off. -/
structure TakesFirst (ops : List (Op α)) (s : StackId) (op : Op α) : Prop where
  empty : (op.deed (after ops)).answer = .failed (.pop .empty) ↔ stacked ops s = []
  none_left : stacked ops s = [] → stacked (ops ++ [op]) s = []
  first : ∀ v rest, stacked ops s = v :: rest →
    (op.deed (after ops)).answer = .popped v ∧ stacked (ops ++ [op]) s = rest

theorem TakesFirst.failure_eq {ops : List (Op α)} {s : StackId} {op : Op α} {f : Failure}
    (h : TakesFirst ops s op) (hanswer : (op.deed (after ops)).answer = .failed f) :
    f = .pop .empty := by
  cases hL : stacked ops s with
  | nil => exact Answer.failed.inj (hanswer.symm.trans (h.empty.2 hL))
  | cons v rest => cases hanswer.symm.trans (h.first v rest hL).1

structure FailsWith (ops : List (Op α)) (s : StackId) (op : Op α) (f : Failure) : Prop where
  answer : (op.deed (after ops)).answer = .failed f
  left : stacked (ops ++ [op]) s = stacked ops s

section

variable {ops : List (Op α)} {op : Op α} {s : StackId}

theorem takesFirst_of_answer (hwork : ∀ v, op.work (.popped v) = .popped s v)
    (hfailed : ∀ e, op.work (.failed e) = .nothing)
    (hanswer : (op.deed (after ops)).answer = .ofExcept .popped (firstOf (stacked ops s))) :
    TakesFirst ops s op := by
  have hstacked := stacked_concat ops op s
  rw [Deed.restack, Deed.work, op_deed, hanswer] at hstacked
  cases hL : stacked ops s with
  | nil =>
    rw [hL] at hanswer hstacked
    refine ⟨⟨fun _ => hL, fun _ => hanswer⟩, fun _ => ?_, fun v rest heq => ?_⟩
    · rw [hstacked, show Answer.ofExcept .popped (firstOf []) = (.failed (.pop .empty) : Answer α)
        from rfl, hfailed]
    · rw [hL] at heq
      cases heq
  | cons v rest =>
    rw [hL] at hanswer hstacked
    have hpopped : Answer.ofExcept .popped (firstOf (v :: rest)) = .popped v := rfl
    rw [hpopped] at hanswer hstacked
    refine ⟨⟨fun hempty => ?_, fun hnil => ?_⟩, fun hnil => ?_, fun v' rest' heq => ?_⟩
    · rw [hanswer] at hempty
      cases hempty
    · rw [hL] at hnil
      cases hnil
    · rw [hL] at hnil
      cases hnil
    · obtain ⟨rfl, rfl⟩ := List.cons.inj (hL.symm.trans heq)
      refine ⟨hanswer, ?_⟩
      rw [hstacked, hwork]
      exact if_pos rfl

theorem failsWith_of_answer {f : Failure} (hfailed : ∀ e, op.work (.failed e) = .nothing)
    (hanswer : (op.deed (after ops)).answer = .failed f) : FailsWith ops s op f := by
  refine ⟨hanswer, ?_⟩
  rw [stacked_concat, Deed.restack, Deed.work, op_deed, hanswer, hfailed]

theorem answer_pop (t : ThreadId) (s : StackId) (σ : State α) :
    ((Op.pop t s).deed σ).answer = .ofExcept .popped (State.pop t s σ).value := rfl

theorem answer_popWith (s : StackId) (n : HandleId) (σ : State α) :
    ((Op.popWith s n).deed σ).answer = .ofExcept .popped (State.popWith s n σ).value := rfl

end

/-! ### Pops by a thread -/

section Pop

variable {ops : List (Op α)} {s : StackId} {stack : Stack α} {shared : SharedTable} {t : ThreadId}

theorem failsWith_pop_of_starved (hs : (after ops).lifos.get? s = some stack)
    (hT : (after ops).tables.get? stack.table = some shared)
    (ht : ((after ops).threads.get? t).isSome)
    (hstarved : (after ops).Starved t stack.table shared.slots) :
    FailsWith ops s (.pop t s) (.pop (.exhausted shared.slots.capacity)) := by
  obtain ⟨sign, shown, hsound, -⟩ := sound_after ops
  obtain ⟨-, hrefs⟩ := hsound.table_of_stack hs
  obtain ⟨thread, ht⟩ := Option.isSome_iff_exists.1 ht
  refine failsWith_of_answer (fun _ => rfl) ?_
  rw [answer_pop, (value_pop hs ht hT hrefs).1 hstarved]
  rfl

theorem takesFirst_pop_of_not_starved (hs : (after ops).lifos.get? s = some stack)
    (hT : (after ops).tables.get? stack.table = some shared)
    (ht : ((after ops).threads.get? t).isSome)
    (hfed : ¬(after ops).Starved t stack.table shared.slots) : TakesFirst ops s (.pop t s) := by
  obtain ⟨sign, shown, hsound, -⟩ := sound_after ops
  obtain ⟨-, hrefs⟩ := hsound.table_of_stack hs
  obtain ⟨thread, ht⟩ := Option.isSome_iff_exists.1 ht
  refine takesFirst_of_answer (fun _ => rfl) (fun _ => rfl) ?_
  rw [answer_pop, (value_pop hs ht hT hrefs).2 hfed, content_of_get? hs]

theorem pop_exhausted_iff (hs : (after ops).lifos.get? s = some stack)
    (hT : (after ops).tables.get? stack.table = some shared)
    (ht : ((after ops).threads.get? t).isSome) :
    ((Op.pop t s).deed (after ops)).answer =
        .failed (.pop (.exhausted shared.slots.capacity)) ↔
      (after ops).Starved t stack.table shared.slots := by
  refine ⟨fun hanswer => ?_, fun hstarved => (failsWith_pop_of_starved hs hT ht hstarved).answer⟩
  by_contra hfed
  cases (takesFirst_pop_of_not_starved hs hT ht hfed).failure_eq hanswer

end Pop

/-! ### Pops through a handle of the caller's -/

section PopWith

variable {ops : List (Op α)} {s : StackId} {stack : Stack α} {n : HandleId}

theorem failsWith_popWith_of_foreign {T : TableId} (hs : (after ops).lifos.get? s = some stack)
    (hn : ((after ops).handles.get? n).isSome) (hne : T ≠ stack.table)
    (hacquired : AcquiredFrom ops n T) :
    FailsWith ops s (.popWith s n) (.fault .foreignHandle) := by
  obtain ⟨handle, hn⟩ := Option.isSome_iff_exists.1 hn
  obtain rfl := (table_of_acquiredFrom hacquired).2 handle hn
  refine failsWith_of_answer (fun _ => rfl) ?_
  rw [answer_popWith, popWith_eq hs hn, if_neg hne]
  rfl

theorem takesFirst_popWith (hs : (after ops).lifos.get? s = some stack)
    (hn : ((after ops).handles.get? n).isSome) (hacquired : AcquiredFrom ops n stack.table) :
    TakesFirst ops s (.popWith s n) := by
  obtain ⟨handle, hn⟩ := Option.isSome_iff_exists.1 hn
  have htable := (table_of_acquiredFrom hacquired).2 handle hn
  refine takesFirst_of_answer (fun _ => rfl) (fun _ => rfl) ?_
  rw [answer_popWith, popWith_eq hs hn, if_pos htable, value_popThrough handle hs,
    content_of_get? hs]

theorem popWith_foreign_iff (hs : (after ops).lifos.get? s = some stack)
    (hn : ((after ops).handles.get? n).isSome) :
    ((Op.popWith s n).deed (after ops)).answer = .failed (.fault .foreignHandle) ↔
      ∃ T, T ≠ stack.table ∧ AcquiredFrom ops n T := by
  refine ⟨fun hanswer => ?_, fun ⟨T, hne, hacquired⟩ =>
    (failsWith_popWith_of_foreign hs hn hne hacquired).answer⟩
  obtain ⟨handle, hh⟩ := Option.isSome_iff_exists.1 hn
  have hacquired := acquiredFrom_of_get? hh
  refine ⟨handle.table, fun heq => ?_, hacquired⟩
  cases (takesFirst_popWith hs hn (heq ▸ hacquired)).failure_eq hanswer

theorem popWith_ne_exhausted (hs : (after ops).lifos.get? s = some stack) (c : Nat) :
    ((Op.popWith s n).deed (after ops)).answer ≠ .failed (.pop (.exhausted c)) := fun hanswer => by
  rw [answer_popWith] at hanswer
  cases hn : (after ops).handles.get? n with
  | none => simp [State.popWith, Action.bind_apply, hs, hn, Answer.ofExcept] at hanswer
  | some handle =>
    rw [popWith_eq hs hn] at hanswer
    split at hanswer
    · rw [value_popThrough handle hs] at hanswer
      exact answer_firstOf_ne_exhausted stack.content c hanswer
    · cases hanswer

end PopWith

/-! ### The law -/

/-- What the history of a run says of a stack over table `T`, which has these slots. -/
structure Determined (ops : List (Op α)) (s : StackId) (T : TableId) (slots : SlotTable) : Prop where
  content : (after ops).content s = stacked ops s
  /-- A pop fails for want of a slot exactly if its thread is starved, whatever the stack holds; -/
  exhausted : ∀ t, ((after ops).threads.get? t).isSome →
    (((Op.pop t s).deed (after ops)).answer = .failed (.pop (.exhausted slots.capacity)) ↔
      (after ops).Starved t T slots)
  starved : ∀ t, ((after ops).threads.get? t).isSome → (after ops).Starved t T slots →
    FailsWith ops s (.pop t s) (.pop (.exhausted slots.capacity))
  /-- otherwise what the stack holds decides. -/
  fed : ∀ t, ((after ops).threads.get? t).isSome → ¬(after ops).Starved t T slots →
    TakesFirst ops s (.pop t s)
  foreign : ∀ n, ((after ops).handles.get? n).isSome →
    (((Op.popWith s n).deed (after ops)).answer = .failed (.fault .foreignHandle) ↔
      ∃ T', T' ≠ T ∧ AcquiredFrom ops n T')
  misused : ∀ n, ((after ops).handles.get? n).isSome → (∃ T', T' ≠ T ∧ AcquiredFrom ops n T') →
    FailsWith ops s (.popWith s n) (.fault .foreignHandle)
  through : ∀ n, ((after ops).handles.get? n).isSome → AcquiredFrom ops n T →
    TakesFirst ops s (.popWith s n)
  enough : ∀ n c, ((Op.popWith s n).deed (after ops)).answer ≠ .failed (.pop (.exhausted c))
  /-- An operation that neither pushes on the stack nor pops from it nor ends it changes nothing. -/
  frame : ∀ op, ¬op.WorksOn s → (after (ops ++ [op])).content s = (after ops).content s

/-- In every run, a stack that lives has its table, and its pops are determined by the history. -/
theorem pops_determined (ops : List (Op α)) {s : StackId} {stack : Stack α}
    (hs : (after ops).lifos.get? s = some stack) :
    ∃ shared, (after ops).tables.get? stack.table = some shared ∧
      Determined ops s stack.table shared.slots := by
  obtain ⟨sign, shown, hsound, -⟩ := sound_after ops
  obtain ⟨⟨shared, hT⟩, -⟩ := hsound.table_of_stack hs
  refine ⟨shared, hT, {
    content := content_after ops s
    exhausted := fun t ht => pop_exhausted_iff hs hT ht
    starved := fun t ht => failsWith_pop_of_starved hs hT ht
    fed := fun t ht => takesFirst_pop_of_not_starved hs hT ht
    foreign := fun n hn => popWith_foreign_iff hs hn
    misused := fun n hn ⟨_, hne, hacquired⟩ => failsWith_popWith_of_foreign hs hn hne hacquired
    through := fun n hn => takesFirst_popWith hs hn
    enough := fun n c => popWith_ne_exhausted hs c
    frame := fun op hop => ?_ }⟩
  rw [content_after, content_after, stacked_concat]
  exact Deed.restack_of_not_worksOn hop _

/-- A handle takes the only slot of a table over which a stack holds two values. -/
def lastSlotHeld : List (Op (Option String)) :=
  [.newTable 1 1, .newStack 2 1, .startThread 3, .startThread 4, .push 2 5 none,
    .push 2 6 (some "later"), .acquire 4 1 7]

/-- A thread without a handle cannot pop; through the handle the value comes off that was pushed
last. -/
theorem pop_beside_handle :
    ((Op.pop 3 2).deed (after lastSlotHeld)).answer = .failed (.pop (.exhausted 1)) ∧
      ((Op.popWith 2 7).deed (after lastSlotHeld)).answer = .popped (some "later") ∧
      stacked (lastSlotHeld ++ [.popWith 2 7]) 2 = [none] := by
  have hs : (after lastSlotHeld).lifos.get? 2 = some ⟨1, [⟨6, some "later"⟩, ⟨5, none⟩], {}⟩ := rfl
  have hT : (after lastSlotHeld).tables.get? 1 = some ⟨⟨[⟨some 1, .null⟩]⟩, 4⟩ := rfl
  obtain ⟨shared, hshared, h⟩ := pops_determined lastSlotHeld hs
  obtain rfl := Option.some.inj (hT.symm.trans hshared)
  obtain ⟨d, hd⟩ : ∃ d ∈ history lastSlotHeld, ∃ t slot,
      d.op = .acquire t 1 7 ∧ d.answer = .acquired slot :=
    ⟨_, List.mem_of_getElem? (i := 6) rfl, 4, 0, rfl, rfl⟩
  have hfirst := (h.through 7 rfl ⟨d, hd⟩).first _ _ rfl
  exact ⟨(h.exhausted 3 rfl).2 ⟨nofun, by decide⟩, hfirst⟩

end Op

end HazardLifo
