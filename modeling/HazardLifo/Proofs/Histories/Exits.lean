import HazardLifo.Proofs.Histories.Dealings

/-!
# The end of a thread

A thread that ends gives back what its cache holds: before its exit actions, or after them if the
cache is first used by them or the thread got no exit action before it popped. Whatever its exit
actions do, each handle that was ever in the cache is given back once, and no slot is left that the
thread claimed for its own pops (`exit_gives_back`). A pop by a thread whose cache is gone claims a
slot for its own time only; to the stack it does what a pop through a cached handle does
(`PopsAlone`).
-/

namespace HazardLifo

variable {α : Type}

open State Op

/-! ## Each cached handle is given back once -/

namespace Op

variable [Disposable α]

/-- The operation gives back a handle that is in the cache of thread `t` after the run `past`. Until
then the handle stays in the cache and nothing is seen of its slot; from then on it is not in the
cache. -/
structure GivesBack (past mid : List (Op α)) (op : Op α) (later : List (Op α)) (t : ThreadId)
    (h : Handle) : Prop where
  kept : ∀ part, part <+: mid → h ∈ ((after (past ++ part)).cache t).handles
  unseen : ∀ d ∈ chronicle mid (after past), seenOf h d.events = []
  given : ∃ k, (after (past ++ mid)).tokenOf t = some k ∧
    seenOf h (op.deed (after (past ++ mid))).events = [.notice (.released h.table (some k) h.slot)]
  left : ∀ part, part <+: later → h ∉ ((after (past ++ mid ++ op :: part)).cache t).handles

section

variable {past rest mid later more : List (Op α)} {op op' : Op α} {t : ThreadId} {h : Handle}

theorem forgoes_after (hf : (after past).Forgoes t h) (more : List (Op α)) :
    (after (past ++ more)).Forgoes t h := by
  induction more using List.reverseRecOn with
  | nil => rwa [List.append_nil]
  | append_singleton more op ih =>
    obtain ⟨sign, shown, hsound, -⟩ := sound_after (past ++ more)
    rw [← List.append_assoc, after_concat]
    exact hsound.forgoes_step (nodup_cached_tables _) op ih

theorem GivesBack.of_returned (hh : h ∈ ((after past).cache t).handles)
    (hr : h ∈ op.returns (after past)) (later : List (Op α)) : GivesBack past [] op later t h := by
  obtain ⟨sign, shown, hsound, -⟩ := sound_after past
  have hn := nodup_cached_tables past
  have hleft : (after (past ++ [op])).Forgoes t h := by
    rw [after_concat]
    exact hsound.forgoes_of_returned hn hh hr
  refine ⟨fun part hpart => ?_, nofun, ?_, fun part hpart => ?_⟩
  · rwa [List.prefix_nil.1 hpart, List.append_nil]
  · obtain ⟨k, hk, hslot⟩ := hsound.slot_of_mem_cache hh
    have howner : (after past).owner h = some k := by
      rw [owner_eq, hslot]
      rfl
    rw [List.append_nil]
    refine ⟨k, hk, ?_⟩
    rw [hsound.seenOf_events hn op (hsound.isSome_owner_of_mem_cache hh), if_pos hr, farewell, howner]
  · obtain ⟨sign', shown', hsound', -⟩ := sound_after (past ++ [] ++ op :: part)
    refine hsound'.notMem_of_forgoes ?_
    rw [List.append_nil, List.append_cons]
    exact forgoes_after hleft part

theorem GivesBack.cons (hg : GivesBack (past ++ [op]) mid op' later t h)
    (hh : h ∈ ((after past).cache t).handles) (hr : h ∉ op.returns (after past)) :
    GivesBack past (op :: mid) op' later t h := by
  obtain ⟨sign, shown, hsound, -⟩ := sound_after past
  refine ⟨fun part hpart => ?_, fun d hd => ?_, ?_, fun part hpart => ?_⟩
  · rcases List.prefix_cons_iff.1 hpart with rfl | ⟨part, rfl, hmid⟩
    · rwa [List.append_nil]
    · rw [List.append_cons]
      exact hg.kept part hmid
  · rcases List.mem_cons.1 hd with rfl | hd
    · rw [hsound.seenOf_events (nodup_cached_tables past) op (hsound.isSome_owner_of_mem_cache hh),
        if_neg hr]
    · exact hg.unseen d (by rwa [after_concat])
  · rw [List.append_cons]
    exact hg.given
  · rw [List.append_cons past]
    exact hg.left part hpart

theorem exists_givesBack (hh : h ∈ ((after past).cache t).handles)
    (hend : h ∉ ((after (past ++ rest)).cache t).handles) :
    ∃ mid op later, rest = mid ++ op :: later ∧ GivesBack past mid op later t h := by
  induction rest generalizing past with
  | nil =>
    rw [List.append_nil] at hend
    exact absurd hh hend
  | cons op rest ih =>
    by_cases hr : h ∈ op.returns (after past)
    · exact ⟨[], op, rest, rfl, .of_returned hh hr rest⟩
    · obtain ⟨sign, shown, hsound, -⟩ := sound_after past
      have hstays : h ∈ ((after (past ++ [op])).cache t).handles := by
        rw [after_concat]
        exact hsound.stays_cached hh hr
      rw [List.append_cons] at hend
      obtain ⟨mid, op', later, rfl, hg⟩ := ih hstays hend
      exact ⟨op :: mid, op', later, rfl, hg.cons hh hr⟩

end

end Op

/-! ## What a thread leaves behind -/

namespace Op

variable [Disposable α]

/-- The run `ops`, then the end of thread `t` with these exit actions. -/
def exiting (ops : List (Op α)) (t : ThreadId) (actions : List (Op α)) : List (Op α) :=
  ops ++ .beginExit t :: actions ++ [.endThread t]

/-- How the cache of a thread goes at the thread's end, and what is left then. -/
structure EndsClean (ops : List (Op α)) (t : ThreadId) (actions : List (Op α)) : Prop where
  ended : (after (exiting ops t actions)).threads.get? t = none
  turns : ∀ past, past <+: exiting ops t actions → ∀ h,
    SlotTurns none (seenOf h ((history past).flatMap (·.events))) ((after past).owner h)
  /-- Whenever a handle is in the cache, it will be given back once. -/
  once : ∀ past rest, past ++ rest = exiting ops t actions → ∀ h ∈ ((after past).cache t).handles,
    ∃ mid op later, rest = mid ++ op :: later ∧ GivesBack past mid op later t h
  /-- If the thread got its exit actions before it used its cache, then what it has cached since
  goes before the actions run, and the cache stays gone. -/
  before : ∀ thread, (after ops).threads.get? t = some thread → thread.actionsFirst →
    ((Op.beginExit t).deed (after ops)).events = thread.cache.handles.map (after ops).farewell ∧
      (thread.cache ≠ .untouched →
        ∀ part, part <+: actions → (after (ops ++ .beginExit t :: part)).cache t = .gone)
  /-- Else nothing happens before they run. -/
  begun : ∀ thread, (after ops).threads.get? t = some thread → ¬thread.actionsFirst →
    after (ops ++ [.beginExit t]) = after ops
  last : ((Op.endThread t).deed (after (ops ++ .beginExit t :: actions))).events =
    ((after (ops ++ .beginExit t :: actions)).cache t).handles.map
      (after (ops ++ .beginExit t :: actions)).farewell
  slots : ∀ T shared i k, (after (exiting ops t actions)).tables.get? T = some shared →
    shared.slots.owner i = some k → HadToken (exiting ops t actions) t k →
      ∃ n, (after (exiting ops t actions)).handles.get? n = some ⟨T, i⟩ ∧
        ∃ d ∈ history (exiting ops t actions), d.op = .acquire t T n ∧ d.answer = .acquired i
  survive : ∀ past more, past ++ more <+: exiting ops t actions → ∀ n h,
    (after past).handles.get? n = some h → .release n ∉ more →
      (after (past ++ more)).handles.get? n = some h ∧
      (after (past ++ more)).owner h = (after past).owner h ∧
      ((∀ a, .publish n a ∉ more) → (∀ s, .popWith s n ∉ more) →
        (after (past ++ more)).slot? h = (after past).slot? h)

section

variable {ops past more actions : List (Op α)} {t : ThreadId} {n : HandleId} {h : Handle}
  {thread : Thread}

theorem handle_survives (hn : (after past).handles.get? n = some h) (hrelease : .release n ∉ more) :
    (after (past ++ more)).handles.get? n = some h ∧
      (after (past ++ more)).owner h = (after past).owner h ∧
      ((∀ a, .publish n a ∉ more) → (∀ s, .popWith s n ∉ more) →
        (after (past ++ more)).slot? h = (after past).slot? h) := by
  induction more using List.reverseRecOn with
  | nil =>
    rw [List.append_nil]
    exact ⟨hn, rfl, fun _ _ => rfl⟩
  | append_singleton more op ih =>
    simp only [List.mem_append, List.mem_singleton, not_or] at hrelease ⊢
    obtain ⟨hkept, howner, hslot⟩ := ih hrelease.1
    obtain ⟨sign, shown, hsound, -⟩ := sound_after (past ++ more)
    obtain ⟨hkept', howner', hslot'⟩ := hsound.handle_step hkept (Ne.symm hrelease.2)
    rw [← List.append_assoc, after_concat]
    refine ⟨hkept', howner'.trans howner, fun hpublish hpop => ?_⟩
    refine (hslot' (fun a => ?_) fun s => ?_).trans
      (hslot (fun a => (hpublish a).1) fun s => (hpop s).1)
    · exact Ne.symm (hpublish a).2
    · exact Ne.symm (hpop s).2

theorem gone_after (hgone : (after past).cache t = .gone ∧ t < (after past).horizon)
    (more : List (Op α)) :
    (after (past ++ more)).cache t = .gone ∧ t < (after (past ++ more)).horizon := by
  induction more using List.reverseRecOn with
  | nil => rwa [List.append_nil]
  | append_singleton more op ih =>
    obtain ⟨sign, shown, hsound, -⟩ := sound_after (past ++ more)
    rw [← List.append_assoc, after_concat]
    exact hsound.gone_step op ih

theorem threads_after_endThread (past : List (Op α)) (t : ThreadId) :
    (after (past ++ [.endThread t])).threads.get? t = none := by
  rw [after_concat, ← after_deed, Deed.after]
  rcases endThread_cases (after past) t with ⟨hnone, hr⟩ | ⟨thread, -, hrun⟩
  · rw [show ((Op.endThread t).deed (after past)).outcome = _ from deed_eq rfl hr]
    exact hnone
  · rw [show ((Op.endThread t).deed (after past)).outcome = _ from deed_eq rfl hrun]
    exact (Registry.get?_erase ..).trans (if_pos rfl)

theorem cache_after_beginExit (ht : (after ops).threads.get? t = some thread)
    (hfirst : thread.actionsFirst) (hused : thread.cache ≠ .untouched) :
    (after (ops ++ [.beginExit t])).cache t = .gone := by
  have hrun := beginExit_eq ht
  rw [if_pos hfirst] at hrun
  have hself := cache_closeCache_self t (after ops)
  rw [cache_eq ht, if_neg hused] at hself
  rw [after_concat, ← after_deed, Deed.after,
    show ((Op.beginExit t).deed (after ops)).outcome = _ from deed_eq rfl hrun]
  exact hself

/-- After its end, only handles that callers hold are on slots that a thread has signed. -/
theorem signed_after_end (hended : (after ops).threads.get? t = none) {T : TableId}
    {shared : SharedTable} {i : Nat} {k : Token} (hT : (after ops).tables.get? T = some shared)
    (hk : shared.slots.owner i = some k) (htoken : HadToken ops t k) :
    ∃ n, (after ops).handles.get? n = some ⟨T, i⟩ ∧
      ∃ d ∈ history ops, d.op = .acquire t T n ∧ d.answer = .acquired i := by
  have howned := ownership_after ops hT
  have htokens := (tokens_after ops).1
  obtain ⟨h, hmem, rfl⟩ := (howned.owned i).1 (by rw [hk]; rfl)
  obtain ⟨hlive, rfl⟩ := Sound.mem_handlesOn_iff.1 hmem
  rcases List.mem_append.1 hlive with hheld | hcached
  · obtain ⟨n, hn⟩ := Registry.mem_values_iff.1 hheld
    obtain ⟨t', k', htoken', hk', hd⟩ := howned.signed n h hn rfl
    obtain rfl := Option.some.inj (hk.symm.trans hk')
    obtain rfl := htokens.unique htoken htoken'
    exact ⟨n, hn, hd⟩
  · obtain ⟨thread, hthread, hh⟩ := List.mem_flatMap.1 hcached
    obtain ⟨u, hu⟩ := Registry.mem_values_iff.1 hthread
    obtain ⟨k', hk', hslot⟩ := howned.cached u thread h hu hh rfl
    have hsame : k = k' := by
      rw [SlotTable.owner, hslot] at hk
      exact (Option.some.inj hk).symm
    have htoken' : HadToken ops u k := ⟨ops, List.prefix_refl _, by rw [tokenOf, hu, hsame]; exact hk'⟩
    rw [htokens.unique htoken htoken', hu] at hended
    cases hended

theorem endsClean (ops : List (Op α)) (t : ThreadId) (actions : List (Op α)) :
    EndsClean ops t actions := by
  have hended : (after (exiting ops t actions)).threads.get? t = none := threads_after_endThread ..
  obtain ⟨sign, shown, hsound, -⟩ := sound_after ops
  refine ⟨hended, fun past _ => turns_after past,
    fun past rest hwhole h hh => exists_givesBack hh ?_, fun thread ht hfirst => ?_,
    fun thread ht hfirst => ?_, ?_, fun T shared i k => signed_after_end hended,
    fun past more _ n h => handle_survives⟩
  · rw [hwhole, cache, hended]
    exact List.not_mem_nil
  · refine ⟨?_, fun hused part _ => ?_⟩
    · rw [events_deed_of_run rfl, beginExit_events (nodup_cached_tables ops t), Op.returns, ht,
        Option.any_some, if_pos hfirst, cache_eq ht]
    · have hgone := cache_after_beginExit ht hfirst hused
      have hlt : t < (after (ops ++ [.beginExit t])).horizon := by
        obtain ⟨sign', hstep⟩ := hsound.step (.beginExit t)
        rw [after_concat]
        exact Nat.lt_of_lt_of_le (hsound.threads t (by rw [ht]; rfl)) hstep.horizon
      rw [List.append_cons]
      exact (gone_after ⟨hgone, hlt⟩ part).1
  · have hrun := beginExit_eq ht
    rw [if_neg hfirst] at hrun
    rw [after_concat, ← after_deed, Deed.after,
      show ((Op.beginExit t).deed (after ops)).outcome = _ from deed_eq rfl hrun]
  · rw [events_deed_of_run rfl, endThread_events (nodup_cached_tables _ t)]

end

end Op

/-! ## Pops without a cache -/

section

variable [Disposable α]

/-- A pop through slot `i`, claimed and given back by the pop itself. -/
structure State.BorrowingPop (σ : State α) (t : ThreadId) (s : StackId) (stack : Stack α)
    (slots : SlotTable) (i : Nat) (k : Token) (mid : List (Event α)) : Prop where
  free : ∃ slot, slots.slots[i]? = some slot ∧ slot.owner = none
  lowest : ∀ j < i, ∀ slot, slots.slots[j]? = some slot → slot.owner ≠ none
  token : ((Op.pop t s).deed σ).after.tokenOf t = some k
  answer : ((Op.pop t s).deed σ).answer = .ofExcept .popped (firstOf stack.content)
  events : ((Op.pop t s).deed σ).events = .notice (.claimed stack.table k i) ::
    (mid ++ [.notice (.released stack.table (some k) i)])
  through : ∀ own, (σ.slot? own).map (·.published) = some .null →
    popThrough s own σ =
      ⟨{ σ with lifos := ((Op.pop t s).deed σ).after.lifos }, mid, firstOf stack.content⟩
  /-- A pop through a cached handle does the same to the stack, whichever thread makes it and
  wherever the stack is the same and the same blocks are published. -/
  alike : ∀ τ : State α, τ.Reachable → τ.lifos.get? s = some stack →
    τ.published stack.table = σ.published stack.table → ∀ u own, own ∈ (τ.cache u).handles →
      own.table = stack.table →
        ((Op.pop u s).deed τ).answer = ((Op.pop t s).deed σ).answer ∧
        ((Op.pop u s).deed τ).freed = ((Op.pop t s).deed σ).freed ∧
        ((Op.pop u s).deed τ).after.lifos.get? s = ((Op.pop t s).deed σ).after.lifos.get? s

/-- What a pop comes to by a thread whose cache is gone. -/
structure State.PopsAlone (σ : State α) (t : ThreadId) (s : StackId) (stack : Stack α)
    (slots : SlotTable) : Prop where
  noFault : ∀ f, ((Op.pop t s).deed σ).answer ≠ .failed (.fault f)
  tables : ((Op.pop t s).deed σ).after.tables = σ.tables
  caches : ∀ u, ((Op.pop t s).deed σ).after.cache u = σ.cache u
  exhausted_iff : (∃ c, ((Op.pop t s).deed σ).answer = .failed (.pop (.exhausted c))) ↔
    ∀ slot ∈ slots.slots, slot.owner.isSome
  starved : (∀ slot ∈ slots.slots, slot.owner.isSome) →
    ((Op.pop t s).deed σ).answer = .failed (.pop (.exhausted slots.capacity)) ∧
      ((Op.pop t s).deed σ).after.lifos = σ.lifos ∧
      ∃ k, ((Op.pop t s).deed σ).events = [.notice (.exhausted stack.table k slots.capacity)]
  borrows : ¬(∀ slot ∈ slots.slots, slot.owner.isSome) →
    ∃ i k mid, σ.BorrowingPop t s stack slots i k mid

variable {σ τ : State α} {t u : ThreadId} {s : StackId} {stack stack' : Stack α}
  {shared : SharedTable} {thread : Thread} {own : Handle} {mid : List (Event α)}
  {sign : HandleId → Token} {shown : HandleId → Address}

theorem State.Sound.pop_of_cached (hτ : Sound τ sign shown) (hs : τ.lifos.get? s = some stack)
    (hn : ((τ.cache u).handles.map (·.table)).Nodup)
    (hp : Popping s (τ.published stack.table) stack stack' mid (firstOf stack.content))
    (hown : own ∈ (τ.cache u).handles) (hT : own.table = stack.table) :
    ((Op.pop u s).deed τ).answer = .ofExcept .popped (firstOf stack.content) ∧
      ((Op.pop u s).deed τ).freed = freedIn mid ∧
      ((Op.pop u s).deed τ).after.lifos.get? s = some stack' := by
  obtain ⟨thread, hu, -⟩ := exists_thread_of_mem_cache hown
  obtain ⟨hstate, hevents⟩ := state_deed_pop u s τ
  rcases hτ.popsSo hs hu hn with ⟨c, hv, -⟩ | ⟨own', new, k, τ', hpass⟩
  · refine absurd ?_ ((hτ.settles hn hown).enough s stack c hs hT.symm)
    rw [Deed.answer, outcome_pop, hv]
    rfl
  · obtain ⟨stack'', mid', hp', hleft, hseen⟩ := hpass.popping
    rw [hpass.value] at hp'
    obtain ⟨rfl, rfl⟩ := hp'.unique hp
    refine ⟨?_, ?_, ?_⟩
    · rw [Deed.answer, outcome_pop, hpass.value]
    · rw [Deed.freed]
      exact (congrArg freedIn (hevents.trans hseen)).trans (freedIn_around ..)
    · have hkept : τ'.lifos.get? s = some stack := by rw [hpass.aftermath.lifos, hs]
      exact (congrArg (·.lifos.get? s) (hstate.trans hleft)).trans (get?_setStack hkept _)

/-- What a pop comes to that claims a slot and gives it back. -/
theorem State.BorrowingPop.of_claim (ht : σ.threads.get? t = some thread)
    (hs : σ.lifos.get? s = some stack) {slots slots' : SlotTable} {i : Nat} {k last : Token}
    (hclaim : slots.claim? k = some (i, slots'))
    (hp : Popping s (σ.published stack.table) stack stack' mid (firstOf stack.content))
    (hpop : pop t s σ = ⟨(σ.withToken t k last).setStack s stack',
      .notice (.claimed stack.table k i) :: mid ++ [.notice (.released stack.table (some k) i)],
      firstOf stack.content⟩) : σ.BorrowingPop t s stack slots i k mid := by
  obtain ⟨hstate, hevents⟩ := state_deed_pop t s σ
  have hanswer := answer_pop t s σ
  rw [hpop] at hstate hevents hanswer
  obtain ⟨hfree, hlowest, -⟩ := SlotTable.claim?_eq_some_iff.1 hclaim
  refine ⟨hfree, hlowest, ?_, hanswer, hevents, fun own hnull => ?_, ?_⟩
  · rw [hstate]
    exact tokenOf_withToken ht last
  · obtain ⟨stack'', mid', hrun, hp'⟩ := popThrough_of_silent hs hnull
    obtain ⟨rfl, rfl⟩ := hp'.unique hp
    rw [hstate]
    exact hrun
  · rintro τ ⟨ops, rfl⟩ hsτ hpub u own hown hT
    obtain ⟨sign, shown, hsound, -⟩ := sound_after ops
    rw [← hpub] at hp
    obtain ⟨hanswer', hfreed, hlifos⟩ :=
      hsound.pop_of_cached hsτ (nodup_cached_tables ops u) hp hown hT
    refine ⟨hanswer'.trans hanswer.symm, hfreed.trans ?_, hlifos.trans ?_⟩
    · rw [Deed.freed, hevents, ← List.singleton_append, freedIn_append, freedIn_append]
      exact (List.append_nil _).symm
    · rw [hstate]
      exact (get?_setStack (σ := σ.withToken t k last) hs _).symm

theorem State.Sound.popsAlone (hσ : Sound σ sign shown) (hs : σ.lifos.get? s = some stack)
    (hT : σ.tables.get? stack.table = some shared) (ht : σ.threads.get? t = some thread)
    (hc : thread.cache = .gone) : σ.PopsAlone t s stack shared.slots := by
  obtain ⟨hstate, hevents⟩ := state_deed_pop t s σ
  have hanswer := answer_pop t s σ
  obtain ⟨k, last, -, ⟨hnone, hpop⟩ | ⟨i, slots, stack', mid, hclaim, hp, hpop⟩⟩ :=
    hσ.pop_of_gone hs hT ht hc <;> rw [hpop] at hstate hevents hanswer
  · have hfull := SlotTable.claim?_eq_none_iff.1 hnone
    refine ⟨fun f => ?_, ?_, fun u => ?_, ⟨fun _ => hfull, fun _ => ⟨_, hanswer⟩⟩, fun _ => ?_,
      fun hnot => absurd hfull hnot⟩
    · rw [hanswer]
      nofun
    · rw [hstate]
      rfl
    · rw [hstate, cache_withToken]
    · rw [hstate]
      exact ⟨hanswer, rfl, k, hevents⟩
  · have hnot : ¬∀ slot ∈ shared.slots.slots, slot.owner.isSome := fun hfull => by
      rw [SlotTable.claim?_eq_none_iff.2 hfull] at hclaim
      cases hclaim
    refine ⟨fun f => ?_, ?_, fun u => ?_, ⟨fun ⟨c, hv⟩ => ?_, fun hfull => absurd hfull hnot⟩,
      fun hfull => absurd hfull hnot, fun _ => ⟨i, k, mid, .of_claim ht hs hclaim hp hpop⟩⟩
    · rw [hanswer]
      cases stack.content <;> nofun
    · rw [hstate]
      rfl
    · rw [hstate]
      exact cache_withToken σ t k last u
    · exact absurd (hanswer.symm.trans hv) (answer_firstOf_ne_exhausted _ c)

end

namespace Op

variable [Disposable α]

/-- However a thread ends, what its cache held is given back, and what it acquired for callers is
kept. On the way a pop without a cache leaves no trace but in the stack. -/
theorem exit_gives_back (ops : List (Op α)) (t : ThreadId) (actions : List (Op α)) :
    EndsClean ops t actions ∧
      ∀ past, past <+: exiting ops t actions → ∀ s stack, (after past).lifos.get? s = some stack →
        ((after past).threads.get? t).isSome → (after past).cache t = .gone →
          ∃ shared, (after past).tables.get? stack.table = some shared ∧
            (after past).PopsAlone t s stack shared.slots := by
  refine ⟨endsClean ops t actions, fun past _ s stack hs ht hgone => ?_⟩
  obtain ⟨sign, shown, hsound, -⟩ := sound_after past
  obtain ⟨⟨shared, hT⟩, -⟩ := hsound.table_of_stack hs
  obtain ⟨thread, ht⟩ := Option.isSome_iff_exists.1 ht
  exact ⟨shared, hT, hsound.popsAlone hs hT ht ((cache_eq ht).symm.trans hgone)⟩

/-- A thread that gets an exit action, acquires a slot for a caller and pops through another. -/
def hooked : List (Op (Option String)) :=
  [.newTable 1 2, .newStack 2 1, .push 2 3 none, .push 2 4 none, .startThread 5, .hookExit 5,
    .acquire 5 1 6, .pop 5 2]

/-- The cached slot is given back at the end of the thread, and the exit action pops through the
same slot once more. -/
theorem exit_of_hooked :
    (∃ mid op later, [.beginExit 5, .pop 5 2, .endThread 5] = mid ++ op :: later ∧
      GivesBack hooked mid op later 5 ⟨1, 1⟩) ∧
      (after (hooked ++ [.beginExit 5])).PopsAlone 5 2 ⟨1, [⟨3, none⟩], {}⟩
        ⟨[⟨some 1, .null⟩, {}]⟩ ∧
      ((Op.pop 5 2).deed (after (hooked ++ [.beginExit 5]))).events =
        [.notice (.claimed 1 1 1), .freed 2 3, .notice (.released 1 (some 1) 1)] := by
  obtain ⟨hends, hpops⟩ := exit_gives_back hooked 5 [.pop 5 2]
  obtain ⟨shared, hT, halone⟩ :=
    hpops (hooked ++ [.beginExit 5]) ⟨[.pop 5 2, .endThread 5], rfl⟩ 2 ⟨1, [⟨3, none⟩], {}⟩ rfl rfl rfl
  have hT' : (after (hooked ++ [.beginExit 5])).tables.get? 1 =
      some ⟨⟨[⟨some 1, .null⟩, {}]⟩, 4⟩ := rfl
  obtain rfl := Option.some.inj (hT.symm.trans hT')
  exact ⟨hends.once hooked _ rfl ⟨1, 1⟩ (by decide +kernel), halone, rfl⟩

end Op

end HazardLifo
