import HazardLifo.Proofs.Histories.Sound

/-!
# One operation from a sound state

Every operation leads from a sound state to a sound state. On the way at most one handle comes into
the hands of callers, and at most one thread draws a token.
-/

namespace HazardLifo

variable {α : Type}

open State Op

/-- How tokens move from state to state: threads keep theirs, or one of them draws the next. -/
inductive TokenMove (σ σ' : State α) : Prop
  | kept : σ'.lastToken = σ.lastToken →
    (∀ t thread', σ'.threads.get? t = some thread' →
      (∃ thread, σ.threads.get? t = some thread ∧ thread'.token = thread.token) ∨
        (σ.horizon ≤ t ∧ thread'.token = none)) → TokenMove σ σ'
  | drawn (t : ThreadId) (thread thread' : Thread) : σ.threads.get? t = some thread →
    thread.token = none → thread'.token = some (σ.lastToken + 1) →
    σ'.lastToken = σ.lastToken + 1 → σ'.threads = σ.threads.modify t (fun _ => thread') →
    TokenMove σ σ'

namespace TokenMove

variable {σ σ' : State α} {t : ThreadId} {thread thread' : Thread} {R : List Lease}

theorem of_threads (hlast : σ'.lastToken = σ.lastToken) (hthreads : σ'.threads = σ.threads) :
    TokenMove σ σ' := by
  refine .kept hlast fun t thread ht => ?_
  rw [hthreads] at ht
  exact .inl ⟨thread, ht, rfl⟩

theorem of_served (hs : Served t R σ σ' thread thread') : TokenMove σ σ' := by
  rcases hs.signs with ⟨htoken, hlast⟩ | ⟨hnone, hsome, hlast⟩
  · refine .kept hlast fun t' th ht' => ?_
    rw [hs.threads, Registry.get?_modify] at ht'
    split at ht'
    · rename_i heq
      rw [hs.runs] at ht'
      obtain rfl := Option.some.inj ht'
      exact .inl ⟨thread, heq ▸ hs.runs, htoken⟩
    · exact .inl ⟨th, ht', rfl⟩
  · exact .drawn t thread thread' hs.runs hnone hsome hlast hs.threads

theorem token_eq {k : Token} (hm : TokenMove σ σ') (hk : σ.tokenOf t = some k) (ht : t < σ.horizon)
    (ht' : σ'.threads.get? t = some thread) : thread.token = some k := by
  obtain ⟨old, hold, htoken⟩ := Option.bind_eq_some_iff.1 hk
  rcases hm with ⟨-, hkept⟩ | ⟨u, th, th', hu, hnone, -, -, hthreads⟩
  · rcases hkept t thread ht' with ⟨old', hold', heq⟩ | ⟨hfresh, -⟩
    · obtain rfl := Option.some.inj (hold.symm.trans hold')
      exact heq.trans htoken
    · exact absurd ht (Nat.not_lt.2 hfresh)
  · have hne : t ≠ u := by
      rintro rfl
      obtain rfl := Option.some.inj (hold.symm.trans hu)
      cases hnone.symm.trans htoken
    rw [hthreads, Registry.get?_modify, if_neg hne, hold] at ht'
    obtain rfl := Option.some.inj ht'
    exact htoken

end TokenMove

/-- The deed is the claim of the handle `n`, by a thread with token `k`. -/
def Deed.Grants (d : Deed α) (n : HandleId) (handle : Handle) (k : Token) : Prop :=
  ∃ t, d.op = .acquire t handle.table n ∧ d.answer = .acquired handle.slot ∧ d.after.tokenOf t = some k

/-- What the handles of callers publish after an operation that answers so, if they published
`shown` before. -/
def Op.shows (op : Op α) (answer : Answer α) (shown : HandleId → Address) : HandleId → Address :=
  match op, answer with
  | .acquire _ _ n, .acquired _ => Function.update shown n .null
  | .publish n a, .done => Function.update shown n a
  | .popWith _ n, .popped _ => Function.update shown n .null
  | .popWith _ n, .failed (.pop _) => Function.update shown n .null
  | _, _ => shown

/-- What handle `n` publishes is changed by its claim and by operations through it only. -/
theorem Op.shows_of_not_through {op : Op α} {answer : Answer α} {shown : HandleId → Address}
    {n : HandleId}
    (hacquire : ∀ t T i, op = .acquire t T n → answer ≠ .acquired i)
    (hpublish : ∀ a, op ≠ .publish n a) (hpop : ∀ s, op ≠ .popWith s n) :
    op.shows answer shown n = shown n := by
  unfold Op.shows
  split
  · refine Function.update_of_ne ?_ ..
    rintro rfl
    exact hacquire _ _ _ rfl rfl
  · refine Function.update_of_ne ?_ ..
    rintro rfl
    exact hpublish _ rfl
  · refine Function.update_of_ne ?_ ..
    rintro rfl
    exact hpop _ rfl
  · refine Function.update_of_ne ?_ ..
    rintro rfl
    exact hpop _ rfl
  · rfl

/-- What one operation does to handles, tokens and numbers. -/
structure SoundStep (d : Deed α) (sign sign' : HandleId → Token) (shown : HandleId → Address) :
    Prop where
  sound : Sound d.after sign' (d.op.shows d.answer shown)
  handles : ∀ n handle, d.after.handles.get? n = some handle →
    (d.before.handles.get? n = some handle ∧ sign' n = sign n) ∨ d.Grants n handle (sign' n)
  held : ∀ n handle, d.before.handles.get? n = some handle →
    d.op = .release n ∨ d.after.handles.get? n = some handle
  tokens : TokenMove d.before d.after
  horizon : d.before.horizon ≤ d.after.horizon

namespace SoundStep

variable {d : Deed α} {σ' : State α} {events : List (Event α)} {answer : Answer α}
  {sign : HandleId → Token} {shown shown' : HandleId → Address}

theorem of_sound (hrun : d.outcome = ⟨σ', events, answer⟩) (h : Sound σ' sign shown')
    (hshows : d.op.shows answer shown = shown')
    (hhandles : ∀ n handle, σ'.handles.get? n = some handle → d.before.handles.get? n = some handle)
    (hheld : ∀ n handle, d.before.handles.get? n = some handle →
      d.op = .release n ∨ σ'.handles.get? n = some handle)
    (htokens : TokenMove d.before σ') (hhorizon : d.before.horizon ≤ σ'.horizon) :
    SoundStep d sign sign shown := by
  have hafter : d.after = σ' := congrArg Outcome.state hrun
  have hanswer : d.answer = answer := congrArg Outcome.value hrun
  subst hafter hanswer hshows
  exact ⟨h, fun n handle hn => .inl ⟨hhandles n handle hn, rfl⟩, hheld, htokens, hhorizon⟩

theorem of_tables (hrun : d.outcome = ⟨σ', events, answer⟩) (h : Sound σ' sign shown')
    (hshows : d.op.shows answer shown = shown') (hhandles : σ'.handles = d.before.handles)
    (hlast : σ'.lastToken = d.before.lastToken) (hthreads : σ'.threads = d.before.threads)
    (hhorizon : d.before.horizon ≤ σ'.horizon) :
    SoundStep d sign sign shown := by
  refine of_sound hrun h hshows (fun n handle hn => ?_) (fun n handle hn => .inr ?_)
    (.of_threads hlast hthreads) hhorizon
  · rwa [hhandles] at hn
  · rwa [hhandles]

theorem of_served {t : ThreadId} {R : List Lease} {τ : State α} {thread thread' : Thread}
    {lifos : Registry (Stack α)} (hrun : d.outcome = ⟨{ τ with lifos := lifos }, events, answer⟩)
    (hs : Served t R d.before τ thread thread') (h : Sound { τ with lifos := lifos } sign shown')
    (hshows : d.op.shows answer shown = shown') : SoundStep d sign sign shown := by
  refine of_sound hrun h hshows (fun n handle hn => ?_) (fun n handle hn => .inr ?_) ?_ ?_
  · rw [← hs.handles]
    exact hn
  · exact (congrArg (·.get? n) hs.handles).trans hn
  · rcases TokenMove.of_served hs with ⟨hlast, hkept⟩ | ⟨t, th, th', hth, hnone, hsome, hlast, hthreads⟩
    · exact .kept hlast hkept
    · exact .drawn t th th' hth hnone hsome hlast hthreads
  · have hhorizon : τ.horizon = d.before.horizon := by rw [hs.rest]
    exact Nat.le_of_eq hhorizon.symm

theorem of_end {t t' : ThreadId} {R : List Lease} {τ : State α} {thread thread' : Thread}
    (hrun : d.outcome = ⟨{ τ with threads := τ.threads.erase t' }, events, answer⟩)
    (hs : Served t R d.before τ thread thread') (hlast : τ.lastToken = d.before.lastToken)
    (h : Sound { τ with threads := τ.threads.erase t' } sign shown')
    (hshows : d.op.shows answer shown = shown') : SoundStep d sign sign shown := by
  refine of_sound hrun h hshows (fun n handle hn => ?_) (fun n handle hn => .inr ?_) ?_ ?_
  · rw [← hs.handles]
    exact hn
  · exact (congrArg (·.get? n) hs.handles).trans hn
  · rcases TokenMove.of_served hs with ⟨-, hkept⟩ | ⟨t, th, th', -, -, -, hlast', -⟩
    · refine .kept hlast fun t th ht => ?_
      rw [Registry.get?_erase] at ht
      split at ht
      · cases ht
      · exact hkept t th ht
    · exact absurd (hlast'.symm.trans hlast) (Nat.succ_ne_self _)
  · have hhorizon : τ.horizon = d.before.horizon := by rw [hs.rest]
    exact Nat.le_of_eq hhorizon.symm

theorem of_claim {t : ThreadId} {R : List Lease} {τ : State α} {thread thread' : Thread} {n : HandleId}
    {handle : Handle} {k : Token} (hop : d.op = .acquire t handle.table n)
    (hfresh : d.before.handles.get? n = none)
    (hrun : d.outcome = ⟨{ τ.use n with handles := τ.handles.insert n handle }, events,
      .acquired handle.slot⟩)
    (hs : Served t R d.before τ thread thread') (hk : thread'.token = some k)
    (h : Sound { τ.use n with handles := τ.handles.insert n handle } (Function.update sign n k) shown')
    (hshows : Function.update shown n .null = shown') :
    SoundStep d sign (Function.update sign n k) shown := by
  have hafter : d.after = { τ.use n with handles := τ.handles.insert n handle } :=
    congrArg Outcome.state hrun
  have hsound : Sound d.after (Function.update sign n k) (d.op.shows d.answer shown) := by
    have hanswer : d.answer = .acquired handle.slot := congrArg Outcome.value hrun
    subst hshows
    rw [hafter, hop, hanswer]
    exact h
  have htoken : d.after.tokenOf t = some k := by
    have hget : d.after.threads.get? t = some thread' := by
      rw [hafter]
      exact hs.get?
    rw [tokenOf, hget, Option.bind_some, hk]
  refine ⟨hsound, fun m other hm => ?_, fun m other hm => .inr ?_, ?_, ?_⟩
  · rw [hafter] at hm
    simp only [Registry.get?_insert] at hm
    split at hm
    · obtain rfl := Option.some.inj hm
      rename_i heq
      subst heq
      rw [Function.update_self]
      exact .inr ⟨t, hop, congrArg Outcome.value hrun, htoken⟩
    · rename_i hne
      refine .inl ⟨?_, Function.update_of_ne hne ..⟩
      rw [← hs.handles]
      exact hm
  · have hne : m ≠ n := by
      rintro rfl
      cases hfresh.symm.trans hm
    rw [hafter]
    exact (Registry.get?_insert ..).trans
      ((if_neg hne).trans ((congrArg (·.get? m) hs.handles).trans hm))
  · rw [hafter]
    rcases TokenMove.of_served hs with ⟨hlast, hkept⟩ | ⟨t, th, th', hth, hnone, hsome, hlast, hthreads⟩
    · exact .kept hlast hkept
    · exact .drawn t th th' hth hnone hsome hlast hthreads
  · have hhorizon : τ.horizon = d.before.horizon := by rw [hs.rest]
    rw [hafter, ← hhorizon]
    exact Nat.le_max_left ..

theorem of_refused (hrun : d.outcome = ⟨d.before, events, answer⟩) (h : Sound d.before sign shown)
    (hshows : d.op.shows answer shown = shown) : SoundStep d sign sign shown :=
  of_tables hrun h hshows rfl rfl rfl (Nat.le_refl _)

end SoundStep

theorem Op.deed_eq [Disposable α] {β : Type} {op : Op α} {x : Action α β} {f : β → Answer α}
    {σ σ' : State α} {events : List (Event α)} {b : β} (hop : op.run = do return f (← x))
    (hx : x σ = ⟨σ', events, b⟩) : (op.deed σ).outcome = ⟨σ', events, f b⟩ := by
  rw [deed, hop, Action.bind_apply, hx, Action.pure_apply, List.append_nil]

theorem Op.events_deed_of_run [Disposable α] {β : Type} {op : Op α} {x : Action α β}
    {f : β → Answer α} {σ : State α} (hop : op.run = do return f (← x)) :
    (op.deed σ).events = (x σ).events := by
  rw [Deed.events, deed_eq hop rfl]

theorem Op.outcome_pop [Disposable α] (t : ThreadId) (s : StackId) (σ : State α) :
    ((Op.pop t s).deed σ).outcome =
      ⟨(State.pop t s σ).state, (State.pop t s σ).events, .ofExcept .popped (State.pop t s σ).value⟩ :=
  deed_eq rfl rfl

theorem State.state_deed_pop [Disposable α] (t : ThreadId) (s : StackId) (σ : State α) :
    ((Op.pop t s).deed σ).after = (State.pop t s σ).state ∧
      ((Op.pop t s).deed σ).events = (State.pop t s σ).events := by
  rw [Deed.after, Deed.events, outcome_pop]
  exact ⟨rfl, rfl⟩

variable [Disposable α] {σ : State α} {sign : HandleId → Token} {shown : HandleId → Address}

theorem State.Sound.step (h : Sound σ sign shown) (op : Op α) :
    ∃ sign', SoundStep (op.deed σ) sign sign' shown := by
  cases op with
  | newTable T c =>
    refine ⟨sign, ?_⟩
    rcases newTable_cases σ T c with ⟨e, hr⟩ | ⟨hT, -, hrun⟩
    · exact .of_refused (deed_eq rfl hr) h rfl
    · exact .of_tables (deed_eq rfl hrun) (h.newTable hT c) rfl rfl rfl rfl (Nat.le_max_left ..)
  | shareTable T =>
    refine ⟨sign, ?_⟩
    rcases shareTable_cases σ T with ⟨e, hr⟩ | ⟨hT, hrun⟩
    · exact .of_refused (deed_eq rfl hr) h rfl
    · exact .of_tables (deed_eq rfl hrun) (h.shareTable hT) rfl rfl rfl rfl (Nat.le_refl _)
  | dropTable T =>
    refine ⟨sign, ?_⟩
    rcases dropTable_cases σ T with ⟨-, hr⟩ | ⟨hT, hrun⟩
    · exact .of_refused (deed_eq rfl hr) h rfl
    · have hs := h.dropTable hT
      rw [(tablesOnly_letGo σ T).frame] at hrun hs
      exact .of_tables (deed_eq rfl hrun) hs rfl rfl rfl rfl (Nat.le_refl _)
  | newStack s T =>
    refine ⟨sign, ?_⟩
    rcases newStack_cases σ s T with ⟨e, hr⟩ | ⟨hs, hT, hrun⟩
    · exact .of_refused (deed_eq rfl hr) h rfl
    · exact .of_tables (deed_eq rfl hrun) (h.newStack hs hT) rfl rfl rfl rfl (Nat.le_max_left ..)
  | newStackOwning s T c =>
    refine ⟨sign, ?_⟩
    rcases newStackOwning_cases σ s T c with ⟨e, hr⟩ | ⟨hs, hT, hrun⟩
    · exact .of_refused (deed_eq rfl hr) h rfl
    · exact .of_tables (deed_eq rfl hrun) (h.newStackOwning hs hT c) rfl rfl rfl rfl
        (Nat.le_max_left ..)
  | dropStack s =>
    refine ⟨sign, ?_⟩
    rcases dropStack_cases σ s with ⟨-, hr⟩ | ⟨stack, result, hs, -, hrun⟩
    · exact .of_refused (deed_eq rfl hr) h rfl
    · have ho := (tablesOnly_letGo σ stack.table).trans (tablesOnly_letGo _ stack.table)
      have hsound := h.dropStack hs ((leftBehind stack.nodes).map (·.block) ++ σ.lost)
      rw [ho.frame] at hrun hsound
      exact .of_tables (deed_eq rfl hrun) hsound rfl rfl rfl rfl (Nat.le_refl _)
  | push s b v =>
    refine ⟨sign, ?_⟩
    rcases push_cases σ s b v with ⟨e, hr⟩ | ⟨stack, hs, -, hrun⟩
    · exact .of_refused (deed_eq rfl hr) h rfl
    · have hs' : (σ.use b).lifos.get? s = some stack := hs
      exact .of_tables (deed_eq rfl hrun) ((h.use b).setStack hs' rfl) rfl rfl rfl rfl
        (Nat.le_max_left ..)
  | pop t s =>
    refine ⟨sign, ?_⟩
    rcases pop_cases σ t s with ⟨e, hr⟩ | ⟨stack, thread, hs, ht⟩
    · exact .of_refused (deed_eq rfl hr) h rfl
    · obtain ⟨thread', τ, stack', pre, mid, post, hserved, hrun, -, -, hp⟩ := pop_serves hs (h.served ht)
      have hsound := (h.of_served hserved).setStack ((hserved.get?_lifos s).trans hs) hp.table
      exact .of_served (deed_eq rfl hrun) hserved hsound rfl
  | popWith s n =>
    refine ⟨sign, ?_⟩
    rcases popWith_cases σ s n with ⟨-, hr⟩ | ⟨stack, handle, -, -, -, hr⟩ |
      ⟨stack, handle, stack', events, value, hs, hn, -, hrun, hp⟩
    · exact .of_refused (deed_eq rfl hr) h rfl
    · exact .of_refused (deed_eq rfl hr) h rfl
    · have hs' : (σ.silence handle).lifos.get? s = some stack := hs
      refine .of_tables (deed_eq rfl hrun) ((h.publish hn .null).setStack hs' hp.table) ?_ rfl rfl
        rfl (Nat.le_refl _)
      cases hp <;> rfl
  | reclaim s =>
    refine ⟨sign, ?_⟩
    rcases reclaim_cases σ s with ⟨e, hr⟩ | ⟨stack, count, hs, hrun⟩
    · exact .of_refused (deed_eq rfl hr) h rfl
    · exact .of_tables (deed_eq rfl hrun) (h.setStack hs rfl) rfl rfl rfl rfl (Nat.le_refl _)
  | acquire t T n =>
    rcases acquire_cases σ t T n with ⟨e, hr⟩ | ⟨thread, ht, hT, hn, hrun⟩
    · exact ⟨sign, .of_refused (deed_eq rfl hr) h rfl⟩
    · obtain ⟨k, -, ⟨c, hv, hc⟩ | ⟨handle, hv, rfl, hc⟩⟩ := (h.served ht).claim hT
      · rw [hv] at hrun
        exact ⟨sign, .of_served (deed_eq rfl hrun) hc (h.of_served hc) rfl⟩
      · rw [hv] at hrun
        have hout : ((Op.acquire t handle.table n).deed σ).outcome = _ := deed_eq rfl hrun
        exact ⟨Function.update sign n k,
          .of_claim rfl (h.fresh hn).2.2.1 hout hc rfl (h.acquire hn hc) rfl⟩
  | release n =>
    refine ⟨sign, ?_⟩
    rcases release_cases σ n with ⟨-, hr⟩ | ⟨handle, hn, hrun⟩
    · exact .of_refused (deed_eq rfl hr) h rfl
    · have hsound := h.release hn
      have ho := (tablesOnly_giveBack handle { σ with handles := σ.handles.erase n }).frame
      rw [ho] at hrun hsound
      refine .of_sound (deed_eq rfl hrun) hsound rfl (fun m other hm => ?_) (fun m other hm => ?_)
        (.of_threads rfl rfl) (Nat.le_refl _)
      · rw [Registry.get?_erase] at hm
        split at hm
        · cases hm
        · exact hm
      · by_cases heq : m = n
        · exact .inl (heq ▸ rfl)
        · exact .inr ((Registry.get?_erase ..).trans ((if_neg heq).trans hm))
  | publish n a =>
    refine ⟨sign, ?_⟩
    rcases publish_cases σ n a with ⟨e, hr⟩ | ⟨handle, hn, hrun⟩
    · exact .of_refused (deed_eq rfl hr) h rfl
    · exact .of_tables (deed_eq rfl hrun) (h.publish hn a) rfl rfl rfl rfl (Nat.le_refl _)
  | startThread t =>
    refine ⟨sign, ?_⟩
    rcases startThread_cases σ t with ⟨e, hr⟩ | ⟨ht, hrun⟩
    · exact .of_refused (deed_eq rfl hr) h rfl
    · refine .of_sound (deed_eq rfl hrun) (h.startThread ht) rfl (fun _ _ hn => hn)
        (fun _ _ hn => .inr hn) ?_ (Nat.le_max_left ..)
      refine .kept rfl fun t' th ht' => ?_
      rw [Registry.get?_insert] at ht'
      split at ht'
      · obtain rfl := Option.some.inj ht'
        rename_i heq
        exact .inr ⟨heq ▸ ht, rfl⟩
      · exact .inl ⟨th, ht', rfl⟩
  | hookExit t =>
    refine ⟨sign, ?_⟩
    rcases hookExit_cases σ t with ⟨e, hr⟩ | ⟨thread, first, ht, hrun⟩
    · exact .of_refused (deed_eq rfl hr) h rfl
    · have hs := (h.served ht).hook first
      exact .of_served (deed_eq rfl hrun) hs (h.of_served hs) rfl
  | beginExit t =>
    refine ⟨sign, ?_⟩
    rcases beginExit_cases σ t with ⟨e, hr⟩ | ⟨thread, ht, ⟨-, hrun⟩ | hrun⟩
    · exact .of_refused (deed_eq rfl hr) h rfl
    · exact .of_refused (deed_eq rfl hrun) h rfl
    · obtain ⟨thread', -, -, -, hs⟩ := (h.served ht).closeCache
      exact .of_served (deed_eq rfl hrun) hs (h.of_served hs) rfl
  | endThread t =>
    refine ⟨sign, ?_⟩
    rcases endThread_cases σ t with ⟨-, hr⟩ | ⟨thread, ht, hrun⟩
    · exact .of_refused (deed_eq rfl hr) h rfl
    · obtain ⟨thread', hl, hlast, -, hs⟩ := (h.served ht).closeCache
      exact .of_end (deed_eq rfl hrun) hs hlast (h.endThread hs hl) rfl

end HazardLifo
