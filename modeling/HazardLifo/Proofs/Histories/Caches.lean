import HazardLifo.Proofs.Histories.Ownership
import Mathlib.Data.List.Infix

/-!
# Caches of threads

A pop by a thread prunes the cache of the thread, then looks up the handle of the stack's table, and
claims one only if there is none. Pruning lets a table alone that something besides the handle
refers to, and a stack does. So as long as stacks over a table live and the cache of a thread is not
gone, the thread pops from all of them through the handle that it once got (`slot_kept`).
-/

namespace HazardLifo

variable {α : Type}

theorem Cache.find?_eq_some {cache : Cache} {h : Handle}
    (hn : (cache.handles.map (·.table)).Nodup) (hh : h ∈ cache.handles) :
    cache.handles.find? (·.table == h.table) = some h := by
  obtain ⟨h', hh'⟩ := Option.isSome_iff_exists.1
    (List.find?_isSome.2 ⟨h, hh, by simp⟩ : (cache.handles.find? (·.table == h.table)).isSome)
  rw [hh']
  have heq : h'.table = h.table := by simpa using List.find?_some hh'
  exact congrArg some (List.inj_on_of_nodup_map hn (List.mem_of_find?_eq_some hh') hh heq)

namespace State

variable {σ τ : State α} {t u : ThreadId} {thread thread' : Thread} {T : TableId}
  {shared : SharedTable} {s : StackId} {stack : Stack α} {R : List Lease}

/-! ## Pruning -/

theorem get?_tables_giveBack (h : Handle) (σ : State α) (hne : T ≠ h.table) :
    (giveBack h σ).state.tables.get? T = σ.tables.get? T := by
  have hslots : (σ.setSlots h.table (·.release h.slot)).tables.get? T = σ.tables.get? T := by
    rw [setSlots, Registry.get?_modify, if_neg hne]
  rw [giveBack_eq, ← hslots]
  unfold letGo
  split
  · exact (Registry.get?_erase ..).trans (if_neg hne)
  · exact (Registry.get?_modify ..).trans (if_neg hne)

theorem refs_congr (h : τ.tables.get? T = σ.tables.get? T) : τ.refs T = σ.refs T := by
  rw [refs, refs, h]

theorem prune_of_refs_ne_one (hs : List Handle) (hT : σ.refs T ≠ 1) :
    (prune hs σ).state.tables.get? T = σ.tables.get? T ∧
      (prune hs σ).value.filter (·.table == T) = hs.filter (·.table == T) := by
  induction hs generalizing σ with
  | nil => exact ⟨rfl, rfl⟩
  | cons h rest ih =>
    rw [prune_cons]
    split
    · rename_i hone
      have hne : T ≠ h.table := by
        rintro rfl
        exact hT hone
      have htable := get?_tables_giveBack h σ hne
      obtain ⟨hget, hfilter⟩ := ih (σ := (giveBack h σ).state) (by rwa [refs_congr htable])
      refine ⟨hget.trans htable, ?_⟩
      rw [List.filter_cons_of_neg (by simpa using hne.symm)]
      exact hfilter
    · obtain ⟨hget, hfilter⟩ := ih hT
      exact ⟨hget, by simp only [List.filter_cons, hfilter]⟩

theorem prune_sublist (hs : List Handle) (σ : State α) : (prune hs σ).value.Sublist hs := by
  induction hs generalizing σ with
  | nil => exact .slnil
  | cons h rest ih =>
    rw [prune_cons]
    split
    · exact (ih _).cons h
    · exact (ih σ).cons_cons h

theorem mem_prune {h : Handle} {hs : List Handle} (hT : σ.refs h.table ≠ 1) (hh : h ∈ hs) :
    h ∈ (prune hs σ).value := by
  have hmem : h ∈ hs.filter (·.table == h.table) := List.mem_filter.2 ⟨hh, by simp⟩
  rw [← (prune_of_refs_ne_one hs hT).2] at hmem
  exact (List.mem_filter.1 hmem).1

theorem find?_prune (hs : List Handle) (hT : σ.refs T ≠ 1) :
    (prune hs σ).value.find? (·.table == T) = hs.find? (·.table == T) := by
  rw [← List.head?_filter, (prune_of_refs_ne_one hs hT).2, List.head?_filter]

/-! ## What is seen of a slot -/

def Unclaimed (events : List (Event α)) : Prop :=
  ∀ T k i, .notice (.claimed T k i) ∉ events

theorem unclaimed_nil : Unclaimed ([] : List (Event α)) := fun _ _ _ => List.not_mem_nil

theorem Unclaimed.append {events events' : List (Event α)} (h : Unclaimed events)
    (h' : Unclaimed events') : Unclaimed (events ++ events') := fun T k i hmem =>
  (List.mem_append.1 hmem).elim (h T k i) (h' T k i)

theorem unclaimed_prune (hs : List Handle) (σ : State α) : Unclaimed (prune hs σ).events := by
  induction hs generalizing σ with
  | nil => exact unclaimed_nil
  | cons h rest ih =>
    rw [prune_cons]
    split
    · refine Unclaimed.append (fun T k i hmem => ?_) (ih _)
      rw [giveBack_eq] at hmem
      cases List.mem_singleton.1 hmem
    · exact ih σ

theorem Popping.unclaimed {published : Block → Bool} {stack' : Stack α} {events : List (Event α)}
    {value : Except Failure α} (h : Popping s published stack stack' events value) :
    Unclaimed events := by
  cases h with
  | empty => exact unclaimed_nil
  | exhausted => exact unclaimed_nil
  | popped node rest hn =>
    intro T k i hmem
    simp only [popEvents, Limbo.sweepEvents, List.mem_cons] at hmem
    split at hmem <;> split at hmem <;> simp_all

/-! ## Pops in terms of handles -/

/-- What a pop returns that has a handle, by the values in the stack. -/
def firstOf : List α → Except Failure α
  | [] => .error (.pop .empty)
  | v :: _ => .ok v

theorem value_popThrough (h : Handle) (hs : σ.lifos.get? s = some stack) :
    (popThrough s h σ).value = firstOf stack.content := by
  cases hn : stack.nodes with
  | nil => rw [popThrough_of_nil hs hn, Stack.content, hn, List.map_nil, firstOf]
  | cons node rest => rw [popThrough_of_cons hs hn h rfl, Stack.content, hn, List.map_cons, firstOf]

theorem answer_firstOf_ne_exhausted (L : List α) (c : Nat) :
    Answer.ofExcept .popped (firstOf L) ≠ .failed (.pop (.exhausted c)) := by
  cases L <;> nofun

def pruned (σ : State α) (t : ThreadId) : State α :=
  (prune (σ.cache t).handles σ).state.setCache t (.live (prune (σ.cache t).handles σ).value)

theorem get?_tables_pruned (t : ThreadId) (hT : σ.refs T ≠ 1) :
    (σ.pruned t).tables.get? T = σ.tables.get? T :=
  (prune_of_refs_ne_one _ hT).1

theorem cachedHandle_of_cached {h : Handle} (hT : σ.refs T ≠ 1)
    (hh : (σ.cache t).handles.find? (·.table == T) = some h) :
    cachedHandle t T σ = ⟨σ.pruned t, (prune (σ.cache t).handles σ).events, .ok h⟩ := by
  rw [cachedHandle_eq]
  simp only [find?_prune _ hT, hh, pruned]

theorem cachedHandle_of_not_cached (hT : σ.refs T ≠ 1)
    (hh : (σ.cache t).handles.find? (·.table == T) = none) :
    cachedHandle t T σ =
      let p := prune (σ.cache t).handles σ
      let c := claim t T (σ.pruned t)
      match c.value with
      | .error e => ⟨c.state, p.events ++ c.events, .error e⟩
      | .ok h => ⟨c.state.setCache t (.live (p.value ++ [h])), p.events ++ c.events, .ok h⟩ := by
  rw [cachedHandle_eq]
  simp only [find?_prune _ hT, hh]
  rfl

theorem pop_eq (hs : σ.lifos.get? s = some stack) (ht : σ.threads.get? t = some thread)
    (hc : thread.cache ≠ .gone) :
    pop t s σ =
      let c := cachedHandle t stack.table σ
      match c.value with
      | .error e => ⟨c.state, c.events, .error e⟩
      | .ok h =>
        let p := popThrough s h c.state
        ⟨p.state, c.events ++ p.events, p.value⟩ := by
  cases hcache : thread.cache with
  | gone => exact absurd hcache hc
  | untouched | live =>
    cases hv : (cachedHandle t stack.table σ).value <;>
      simp [pop, Action.bind_apply, hs, ht, hcache, hv]

theorem pop_eq_of_gone (hs : σ.lifos.get? s = some stack) (ht : σ.threads.get? t = some thread)
    (hc : thread.cache = .gone) :
    pop t s σ =
      let c := claim t stack.table σ
      match c.value with
      | .error e => ⟨c.state, c.events, .error e⟩
      | .ok h =>
        let p := popThrough s h c.state
        let g := giveBack h p.state
        ⟨g.state, c.events ++ (p.events ++ g.events), p.value⟩ := by
  cases hv : (claim t stack.table σ).value <;>
    simp [pop, Action.bind_apply, hs, ht, hc, hv, giveBack_eq]

/-- What a pop comes to that goes through handle `h` in state `τ`, after these events. -/
def popAfter (before : List (Event α)) (s : StackId) (h : Handle) (τ : State α) :
    Outcome α (Except Failure α) :=
  ⟨(popThrough s h τ).state, before ++ (popThrough s h τ).events, (popThrough s h τ).value⟩

/-- The ways in which a thread with a cache can pop from a stack over table `T`. -/
inductive CachedPop (σ : State α) (t : ThreadId) (T : TableId) (s : StackId) :
    Outcome α (Except Failure α) → Prop where
  | cached {h} (found : (σ.cache t).handles.find? (·.table == T) = some h) :
      CachedPop σ t T s (popAfter (prune (σ.cache t).handles σ).events s h (σ.pruned t))
  | failed {e} (none : (σ.cache t).handles.find? (·.table == T) = none)
      (value : (claim t T (σ.pruned t)).value = .error e) :
      CachedPop σ t T s ⟨(claim t T (σ.pruned t)).state,
        (prune (σ.cache t).handles σ).events ++ (claim t T (σ.pruned t)).events, .error e⟩
  | claimed {h} (none : (σ.cache t).handles.find? (·.table == T) = none)
      (value : (claim t T (σ.pruned t)).value = .ok h) :
      CachedPop σ t T s (popAfter
        ((prune (σ.cache t).handles σ).events ++ (claim t T (σ.pruned t)).events) s h
        ((claim t T (σ.pruned t)).state.setCache t
          (.live ((prune (σ.cache t).handles σ).value ++ [h]))))

theorem cachedPop_pop (hs : σ.lifos.get? s = some stack) (ht : σ.threads.get? t = some thread)
    (hc : thread.cache ≠ .gone) (hT : σ.refs stack.table ≠ 1) :
    CachedPop σ t stack.table s (pop t s σ) := by
  rw [pop_eq hs ht hc]
  cases hf : (σ.cache t).handles.find? (·.table == stack.table) with
  | some h =>
    rw [cachedHandle_of_cached hT hf]
    exact .cached hf
  | none =>
    rw [cachedHandle_of_not_cached hT hf]
    cases hv : (claim t stack.table (σ.pruned t)).value with
    | error e => simpa only [hv] using .failed hf hv
    | ok h => simpa only [hv] using .claimed hf hv

theorem Sound.table_of_stack {sign : HandleId → Token} {shown : HandleId → Address}
    (h : Sound σ sign shown) (hs : σ.lifos.get? s = some stack) :
    (∃ shared, σ.tables.get? stack.table = some shared) ∧ σ.refs stack.table ≠ 1 := by
  have hmem : stack ∈ σ.lifos.values := Registry.mem_values_iff.2 ⟨s, hs⟩
  have hcount : 0 < σ.lifos.values.countP (·.table == stack.table) :=
    List.countP_pos_iff.2 ⟨stack, hmem, by simp⟩
  have hrefs := h.backed.refs stack.table
  have hanchors : 2 ≤ σ.anchors stack.table := by
    simp only [anchors]
    omega
  refine ⟨Option.isSome_iff_exists.1 (h.backed.isSome_get?_iff.2 ?_), ?_⟩ <;> omega

/-! ## Who changes a cache -/

theorem exists_thread_of_cache (hlive : σ.cache t ≠ .gone) :
    ∃ thread, σ.threads.get? t = some thread ∧ thread.cache ≠ .gone := by
  cases ht : σ.threads.get? t with
  | none => simp [cache, ht] at hlive
  | some thread => exact ⟨thread, rfl, cache_eq ht ▸ hlive⟩

theorem cache_congr (h : τ.threads.get? t = σ.threads.get? t) : τ.cache t = σ.cache t := by
  rw [cache, cache, h]

theorem cache_modify (f : Thread → Thread) (hf : ∀ thread, (f thread).cache = thread.cache) :
    { σ with threads := σ.threads.modify u f }.cache t = σ.cache t := by
  by_cases heq : t = u
  · subst heq
    simp only [cache, Registry.get?_modify, if_true]
    cases σ.threads.get? t with
    | none => rfl
    | some thread => exact hf thread
  · exact cache_congr ((Registry.get?_modify ..).trans (if_neg heq))

theorem cache_withToken (σ : State α) (u : ThreadId) (k last : Token) (t : ThreadId) :
    (σ.withToken u k last).cache t = σ.cache t :=
  cache_modify (σ := { σ with lastToken := last }) _ fun _ => rfl

theorem cache_setCache_self (ht : (σ.threads.get? t).isSome) (c : Cache) :
    (σ.setCache t c).cache t = c := by
  obtain ⟨thread, ht⟩ := Option.isSome_iff_exists.1 ht
  rw [cache, setCache, Registry.get?_modify, if_pos rfl, ht, Option.map_some]

theorem cache_setCache_of_ne (hne : t ≠ u) (c : Cache) : (σ.setCache u c).cache t = σ.cache t :=
  cache_congr ((Registry.get?_modify ..).trans (if_neg hne))

theorem TablesOnly.threads (h : TablesOnly σ τ) : τ.threads = σ.threads := by rw [h.frame]

theorem claim_frame (hu : σ.threads.get? u = some thread) (hT : (σ.tables.get? T).isSome) :
    ∃ k last tables, (claim u T σ).state = { σ.withToken u k last with tables := tables } := by
  obtain ⟨shared, hT⟩ := Option.isSome_iff_exists.1 hT
  obtain ⟨k, last, -, ⟨-, hclaim⟩ | ⟨i, slots, -, hclaim⟩⟩ := claim_eq hu hT
  · exact ⟨k, last, _, congrArg Outcome.state hclaim⟩
  · exact ⟨k, last, _, congrArg Outcome.state hclaim⟩

theorem cache_claim (hu : σ.threads.get? u = some thread) (hT : (σ.tables.get? T).isSome)
    (t : ThreadId) : (claim u T σ).state.cache t = σ.cache t := by
  obtain ⟨k, last, tables, hclaim⟩ := claim_frame hu hT
  rw [hclaim]
  exact cache_withToken σ u k last t

theorem isSome_threads_claim (hu : σ.threads.get? u = some thread) (hT : (σ.tables.get? T).isSome) :
    ((claim u T σ).state.threads.get? t).isSome = (σ.threads.get? t).isSome := by
  obtain ⟨k, last, tables, hclaim⟩ := claim_frame hu hT
  rw [hclaim]
  exact Registry.isSome_get?_modify ..

theorem lifos_claim (hu : σ.threads.get? u = some thread) (hT : (σ.tables.get? T).isSome) :
    (claim u T σ).state.lifos = σ.lifos := by
  obtain ⟨k, last, tables, hclaim⟩ := claim_frame hu hT
  rw [hclaim]
  rfl

theorem table_of_claim {h : Handle} (hu : σ.threads.get? u = some thread)
    (hT : (σ.tables.get? T).isSome) (hv : (claim u T σ).value = .ok h) : h.table = T := by
  obtain ⟨shared, hT⟩ := Option.isSome_iff_exists.1 hT
  obtain ⟨k, last, -, ⟨-, hclaim⟩ | ⟨i, slots, -, hclaim⟩⟩ := claim_eq hu hT <;> rw [hclaim] at hv
  · cases hv
  · obtain rfl := Except.ok.inj hv
    rfl

theorem lifos_pruned (σ : State α) (t : ThreadId) : (σ.pruned t).lifos = σ.lifos := by
  rw [pruned, (tablesOnly_prune (σ.cache t).handles σ).frame]
  rfl

theorem get?_threads_pruned (ht : σ.threads.get? t = some thread) :
    (σ.pruned t).threads.get? t =
      some { thread with cache := .live (prune (σ.cache t).handles σ).value } := by
  rw [pruned, setCache, Registry.get?_modify, if_pos rfl,
    (tablesOnly_prune (σ.cache t).handles σ).threads, ht, Option.map_some]

theorem threads_popThrough (h : Handle) (hs : σ.lifos.get? s = some stack) :
    (popThrough s h σ).state.threads = σ.threads := by
  obtain ⟨stack', events, value, hrun, -⟩ := popThrough_eq hs h rfl
  rw [hrun]
  rfl

theorem cache_closeCache_self (t : ThreadId) (σ : State α) :
    (closeCache t σ).state.cache t = if σ.cache t = .untouched then .untouched else .gone := by
  cases hc : σ.cache t with
  | live handles =>
    obtain ⟨thread, ht, -⟩ := exists_thread_of_cache (σ := σ) (t := t) (by simp [hc])
    rw [closeCache_of_live hc, cache_congr (congrArg (·.get? t) (tablesOnly_giveBackAll ..).threads)]
    exact cache_setCache_self (by simp [ht]) _
  | untouched | gone =>
    rw [closeCache_of_not_live (by simp [hc]), hc]
    rfl

theorem cache_closeCache_of_ne (hne : t ≠ u) (σ : State α) :
    (closeCache u σ).state.cache t = σ.cache t := by
  cases hc : σ.cache u with
  | live handles =>
    rw [closeCache_of_live hc, cache_congr (congrArg (·.get? t) (tablesOnly_giveBackAll ..).threads)]
    exact cache_setCache_of_ne hne _
  | untouched | gone => rw [closeCache_of_not_live (by simp [hc])]

end State

open State Op

/-- What one operation does to the cache of thread `t`. -/
inductive CacheMove (d : Deed α) (t : ThreadId) : Prop
  | kept (same : d.after.cache t = d.before.cache t)
  | popped (s : StackId) (stack : Stack α) (new : List Handle) (op : d.op = .pop t s)
    (there : d.before.lifos.get? s = some stack) (live : d.before.cache t ≠ .gone)
    (after : d.after.cache t =
      .live ((prune (d.before.cache t).handles d.before).value ++ new))
    (new_eq : new = [] ∨ ∃ h, new = [h] ∧ h.table = stack.table ∧
      (d.before.cache t).handles.find? (·.table == stack.table) = none)
  | closed (op : d.op = .beginExit t ∨ d.op = .endThread t) (gone : d.after.cache t = .gone)
  | started (fresh : d.before.horizon ≤ t) (before : d.before.cache t = .gone)
    (after : d.after.cache t = .untouched)

section

variable [Disposable α] {σ σ' : State α} {sign : HandleId → Token} {shown : HandleId → Address}
  {op : Op α} {events : List (Event α)} {answer : Answer α} {t u : ThreadId}

theorem CacheMove.of_cache (hrun : (op.deed σ).outcome = ⟨σ', events, answer⟩)
    (same : σ'.cache t = σ.cache t) : CacheMove (op.deed σ) t :=
  .kept (by rwa [Deed.after, hrun])

theorem CacheMove.of_threads (hrun : (op.deed σ).outcome = ⟨σ', events, answer⟩)
    (same : σ'.threads = σ.threads) : CacheMove (op.deed σ) t :=
  .of_cache hrun (cache_congr (congrArg (·.get? t) same))

theorem cacheMove_pop_of_gone {s : StackId} {stack : Stack α} {thread : Thread}
    (h : Sound σ sign shown) (hs : σ.lifos.get? s = some stack) (hu : σ.threads.get? u = some thread)
    (hc : thread.cache = .gone) : CacheMove ((Op.pop u s).deed σ) t := by
  have hT := Option.isSome_iff_exists.2 (h.table_of_stack hs).1
  have hcache := cache_claim hu hT t
  have hlifos : (claim u stack.table σ).state.lifos.get? s = some stack := by
    rw [lifos_claim hu hT, hs]
  have hpop := pop_eq_of_gone hs hu hc
  cases hv : (claim u stack.table σ).value with
  | error e =>
    simp only [hv] at hpop
    exact .of_cache (deed_eq rfl hpop) hcache
  | ok handle =>
    simp only [hv] at hpop
    refine .of_cache (deed_eq rfl hpop) (.trans (cache_congr ?_) hcache)
    rw [(tablesOnly_giveBack ..).threads, threads_popThrough handle hlifos]

/-- A thread prunes its cache and keeps what it claims. -/
theorem cacheMove_pop_of_not_gone {s : StackId} {stack : Stack α} {thread : Thread}
    (h : Sound σ sign shown) (hs : σ.lifos.get? s = some stack) (ht : σ.threads.get? t = some thread)
    (hc : thread.cache ≠ .gone) : CacheMove ((Op.pop t s).deed σ) t := by
  obtain ⟨⟨shared, hshared⟩, hrefs⟩ := h.table_of_stack hs
  have hlive : σ.cache t ≠ .gone := by rwa [cache_eq ht]
  have ht' := get?_threads_pruned ht
  have hlifos : (σ.pruned t).lifos.get? s = some stack := by rw [lifos_pruned, hs]
  have hT : ((σ.pruned t).tables.get? stack.table).isSome := by
    rw [get?_tables_pruned t hrefs, hshared]
    rfl
  -- the pop itself changes no cache
  have hafter : ∀ {before handle τ}, State.pop t s σ = popAfter before s handle τ →
      τ.lifos.get? s = some stack → ((Op.pop t s).deed σ).after.cache t = τ.cache t := by
    intro before handle τ hpop hτ
    have hout : ((Op.pop t s).deed σ).outcome = _ := deed_eq rfl hpop
    rw [Deed.after, hout]
    exact cache_congr (congrArg (·.get? t) (threads_popThrough handle hτ))
  obtain ⟨o, hpop, hcases⟩ : ∃ o, State.pop t s σ = o ∧ CachedPop σ t stack.table s o :=
    ⟨_, rfl, cachedPop_pop hs ht hc hrefs⟩
  cases hcases with
  | cached hf =>
    refine .popped s stack [] rfl hs hlive ?_ (.inl rfl)
    rw [List.append_nil, hafter hpop hlifos, cache_eq ht', before_deed]
  | failed hf hv =>
    refine .popped s stack [] rfl hs hlive ?_ (.inl rfl)
    have hout : ((Op.pop t s).deed σ).outcome = _ := deed_eq rfl hpop
    rw [List.append_nil, Deed.after, hout, before_deed, cache_claim ht' hT t, cache_eq ht']
  | @claimed handle hf hv =>
    refine .popped s stack [handle] rfl hs hlive ?_
      (.inr ⟨handle, rfl, table_of_claim ht' hT hv, hf⟩)
    refine (hafter hpop ((congrArg (·.get? s) (lifos_claim ht' hT)).trans hlifos)).trans ?_
    refine cache_setCache_self ?_ _
    rw [isSome_threads_claim ht' hT, ht']
    rfl

/-- Only a thread's own operations and its end change its cache. -/
theorem State.Sound.cacheMove (h : Sound σ sign shown) (op : Op α) (t : ThreadId) :
    CacheMove (op.deed σ) t := by
  cases op with
  | newTable T c =>
    rcases newTable_cases σ T c with ⟨e, hr⟩ | ⟨-, -, hrun⟩
    · exact .of_threads (deed_eq rfl hr) rfl
    · exact .of_threads (deed_eq rfl hrun) rfl
  | shareTable T =>
    rcases shareTable_cases σ T with ⟨e, hr⟩ | ⟨-, hrun⟩
    · exact .of_threads (deed_eq rfl hr) rfl
    · exact .of_threads (deed_eq rfl hrun) rfl
  | dropTable T =>
    rcases dropTable_cases σ T with ⟨-, hr⟩ | ⟨-, hrun⟩
    · exact .of_threads (deed_eq rfl hr) rfl
    · exact .of_threads (deed_eq rfl hrun) (tablesOnly_letGo σ T).threads
  | newStack s T =>
    rcases newStack_cases σ s T with ⟨e, hr⟩ | ⟨-, -, hrun⟩
    · exact .of_threads (deed_eq rfl hr) rfl
    · exact .of_threads (deed_eq rfl hrun) rfl
  | newStackOwning s T c =>
    rcases newStackOwning_cases σ s T c with ⟨e, hr⟩ | ⟨-, -, hrun⟩
    · exact .of_threads (deed_eq rfl hr) rfl
    · exact .of_threads (deed_eq rfl hrun) rfl
  | dropStack s =>
    rcases dropStack_cases σ s with ⟨-, hr⟩ | ⟨stack, result, -, -, hrun⟩
    · exact .of_threads (deed_eq rfl hr) rfl
    · exact .of_threads (deed_eq rfl hrun)
        ((tablesOnly_letGo σ stack.table).trans (tablesOnly_letGo _ stack.table)).threads
  | push s b v =>
    rcases push_cases σ s b v with ⟨e, hr⟩ | ⟨stack, -, -, hrun⟩
    · exact .of_threads (deed_eq rfl hr) rfl
    · exact .of_threads (deed_eq rfl hrun) rfl
  | pop u s =>
    rcases pop_cases σ u s with ⟨e, hr⟩ | ⟨stack, thread, hs, hu⟩
    · exact .of_threads (deed_eq rfl hr) rfl
    · by_cases hc : thread.cache = .gone
      · exact cacheMove_pop_of_gone h hs hu hc
      · by_cases heq : t = u
        · subst heq
          exact cacheMove_pop_of_not_gone h hs hu hc
        · obtain ⟨thread', τ, stack', pre, mid, post, hserved, hrun, -⟩ := pop_serves hs (h.served hu)
          refine .of_cache (deed_eq rfl hrun) (cache_congr ?_)
          exact (congrArg (·.get? t) hserved.threads).trans
            ((Registry.get?_modify ..).trans (if_neg heq))
  | popWith s n =>
    rcases popWith_cases σ s n with ⟨-, hr⟩ | ⟨stack, handle, -, -, -, hr⟩ |
      ⟨stack, handle, stack', mid, value, -, -, -, hrun, -⟩
    · exact .of_threads (deed_eq rfl hr) rfl
    · exact .of_threads (deed_eq rfl hr) rfl
    · exact .of_threads (deed_eq rfl hrun) rfl
  | reclaim s =>
    rcases reclaim_cases σ s with ⟨e, hr⟩ | ⟨stack, count, -, hrun⟩
    · exact .of_threads (deed_eq rfl hr) rfl
    · exact .of_threads (deed_eq rfl hrun) rfl
  | acquire u T n =>
    rcases acquire_cases σ u T n with ⟨e, hr⟩ | ⟨thread, hu, hT, -, hrun⟩
    · exact .of_threads (deed_eq rfl hr) rfl
    · cases hv : (claim u T σ).value with
      | error e =>
        rw [hv] at hrun
        exact .of_cache (deed_eq rfl hrun) (cache_claim hu hT t)
      | ok handle =>
        rw [hv] at hrun
        exact .of_cache (deed_eq rfl hrun) (cache_claim hu hT t)
  | release n =>
    rcases release_cases σ n with ⟨-, hr⟩ | ⟨handle, -, hrun⟩
    · exact .of_threads (deed_eq rfl hr) rfl
    · exact .of_threads (deed_eq rfl hrun) (tablesOnly_giveBack handle _).threads
  | publish n a =>
    rcases publish_cases σ n a with ⟨e, hr⟩ | ⟨handle, -, hrun⟩
    · exact .of_threads (deed_eq rfl hr) rfl
    · exact .of_threads (deed_eq rfl hrun) rfl
  | startThread u =>
    rcases startThread_cases σ u with ⟨e, hr⟩ | ⟨hfresh, hrun⟩
    · exact .of_threads (deed_eq rfl hr) rfl
    · by_cases heq : t = u
      · subst heq
        have hout : ((Op.startThread t).deed σ).outcome = _ := deed_eq rfl hrun
        refine .started hfresh (by rw [before_deed, cache, (h.fresh hfresh).2.2.2]) ?_
        rw [Deed.after, hout]
        simp only [cache, Registry.get?_insert, if_true]
      · exact .of_cache (deed_eq rfl hrun)
          (cache_congr ((Registry.get?_insert ..).trans (if_neg heq)))
  | hookExit u =>
    rcases hookExit_cases σ u with ⟨e, hr⟩ | ⟨thread, first, hu, hrun⟩
    · exact .of_threads (deed_eq rfl hr) rfl
    · refine .of_cache (deed_eq rfl hrun) ?_
      by_cases heq : t = u
      · subst heq
        rw [cache_eq hu, cache_eq ((Registry.get?_modify ..).trans ((if_pos rfl).trans
          (congrArg (Option.map _) hu)))]
      · exact cache_congr ((Registry.get?_modify ..).trans (if_neg heq))
  | beginExit u =>
    rcases beginExit_cases σ u with ⟨e, hr⟩ | ⟨thread, -, ⟨-, hrun⟩ | hrun⟩
    · exact .of_threads (deed_eq rfl hr) rfl
    · exact .of_threads (deed_eq rfl hrun) rfl
    · have hout : ((Op.beginExit u).deed σ).outcome = _ := deed_eq rfl hrun
      by_cases heq : t = u
      · subst heq
        have hself := cache_closeCache_self t σ
        split at hself
        · rename_i huntouched
          exact .of_cache hout (hself.trans huntouched.symm)
        · exact .closed (.inl rfl) (by rw [Deed.after, hout, hself])
      · exact .of_cache hout (cache_closeCache_of_ne heq σ)
  | endThread u =>
    rcases endThread_cases σ u with ⟨-, hr⟩ | ⟨thread, -, hrun⟩
    · exact .of_threads (deed_eq rfl hr) rfl
    · have hout : ((Op.endThread u).deed σ).outcome = _ := deed_eq rfl hrun
      by_cases heq : t = u
      · subst heq
        refine .closed (.inr rfl) ?_
        rw [Deed.after, hout]
        simp only [cache, Registry.get?_erase, if_true]
      · have hothers : { (closeCache u σ).state with
            threads := (closeCache u σ).state.threads.erase u }.cache t =
              (closeCache u σ).state.cache t :=
          cache_congr ((Registry.get?_erase ..).trans (if_neg heq))
        exact .of_cache hout (hothers.trans (cache_closeCache_of_ne heq σ))

end

namespace CacheMove

variable {d : Deed α} {t : ThreadId}

theorem nodup (hm : CacheMove d t) (hn : ((d.before.cache t).handles.map (·.table)).Nodup) :
    ((d.after.cache t).handles.map (·.table)).Nodup := by
  cases hm with
  | kept same => rwa [same]
  | closed op gone =>
    rw [gone]
    exact List.nodup_nil
  | popped s stack new op there live after new_eq =>
    have hsub := prune_sublist (d.before.cache t).handles d.before
    have hkept := (hsub.map (·.table)).nodup hn
    rw [after, Cache.handles, List.map_append]
    rcases new_eq with rfl | ⟨h, rfl, hT, hnone⟩
    · simpa using hkept
    · refine hkept.append (List.nodup_singleton _) ?_
      rw [List.map_singleton, List.disjoint_singleton, hT]
      intro hmem
      obtain ⟨h', hh', heq⟩ := List.mem_map.1 hmem
      simpa [heq] using List.find?_eq_none.1 hnone h' (hsub.subset hh')
  | started fresh before after =>
    rw [after]
    exact List.nodup_nil

theorem mem (hm : CacheMove d t) {h : Handle} (hh : h ∈ (d.before.cache t).handles)
    (hT : d.before.refs h.table ≠ 1) (hlive : d.after.cache t ≠ .gone) :
    h ∈ (d.after.cache t).handles := by
  cases hm with
  | kept same => rwa [same]
  | popped s stack new op there live after new_eq =>
    rw [after]
    exact List.mem_append_left _ (mem_prune hT hh)
  | closed op gone => exact absurd gone hlive
  | started fresh before after =>
    rw [before] at hh
    cases hh

end CacheMove

/-! ## The slot that a thread pops through -/

/-- Some stack over table `T` lives, and the cache of thread `t` is not gone. -/
def State.Sustains (σ : State α) (t : ThreadId) (T : TableId) : Prop :=
  (∃ stack ∈ σ.lifos.values, stack.table = T) ∧ σ.cache t ≠ .gone

instance (σ : State α) (t : ThreadId) (T : TableId) : Decidable (σ.Sustains t T) :=
  inferInstanceAs (Decidable (_ ∧ _))

/-- Thread `t` pops from stack `s` through handle `h`: its cache comes up with `h`, and the pop goes
through it. -/
structure Deed.PopsThrough (d : Deed α) (t : ThreadId) (s : StackId) (h : Handle) : Prop where
  handle : (cachedHandle t h.table d.before).value = .ok h
  state : d.after = (popThrough s h (cachedHandle t h.table d.before).state).state
  events : d.events = (cachedHandle t h.table d.before).events ++
    (popThrough s h (cachedHandle t h.table d.before).state).events
  answer : d.answer =
    .ofExcept .popped (popThrough s h (cachedHandle t h.table d.before).state).value

/-- Thread `t` has the slot of `h` for all its pops from stacks over that table. -/
structure State.Settles [Disposable α] (σ : State α) (t : ThreadId) (h : Handle) : Prop where
  cached : h ∈ (σ.cache t).handles
  /-- The slot is signed with the thread's token, and publishes nothing between operations. -/
  signed : ∃ k, σ.tokenOf t = some k ∧ σ.slot? h = some ⟨some k, .null⟩
  through : ∀ s stack, σ.lifos.get? s = some stack → stack.table = h.table →
    ((Op.pop t s).deed σ).PopsThrough t s h
  unclaimed : ∀ s stack, σ.lifos.get? s = some stack → stack.table = h.table →
    Unclaimed ((Op.pop t s).deed σ).events
  enough : ∀ s stack c, σ.lifos.get? s = some stack → stack.table = h.table →
    ((Op.pop t s).deed σ).answer ≠ .failed (.pop (.exhausted c))

section

variable [Disposable α] {σ : State α} {sign : HandleId → Token} {shown : HandleId → Address}
  {t : ThreadId} {s : StackId} {stack : Stack α} {T : TableId}

theorem Deed.popsThrough {thread : Thread} {h : Handle} (hs : σ.lifos.get? s = some stack)
    (ht : σ.threads.get? t = some thread) (hc : thread.cache ≠ .gone) (hT : h.table = stack.table)
    (hv : (cachedHandle t stack.table σ).value = .ok h) :
    ((Op.pop t s).deed σ).PopsThrough t s h := by
  have hpop := pop_eq hs ht hc
  simp only [hv] at hpop
  have hout : ((Op.pop t s).deed σ).outcome = _ := deed_eq rfl hpop
  constructor
  · rw [before_deed, hT, hv]
  · rw [Deed.after, hout, before_deed, hT]
  · rw [Deed.events, hout, before_deed, hT]
  · rw [Deed.answer, hout, before_deed, hT]

theorem State.Sound.pop_obtains (h : Sound σ sign shown) (hs : σ.lifos.get? s = some stack)
    (hlive : σ.cache t ≠ .gone) :
    (∃ c, ((Op.pop t s).deed σ).answer = .failed (.pop (.exhausted c))) ∨
      ∃ hd, hd.table = stack.table ∧ ((Op.pop t s).deed σ).PopsThrough t s hd ∧
        hd ∈ (((Op.pop t s).deed σ).after.cache t).handles := by
  obtain ⟨thread, ht, hc⟩ := exists_thread_of_cache hlive
  obtain ⟨thread', -, hserved, ⟨c, hv⟩ | ⟨hd, k, hv, hT, hmem⟩⟩ :=
    (h.served ht).cachedHandle (anchors_pos_of_get? hs)
  · refine .inl ⟨c, ?_⟩
    have hpop := pop_eq hs ht hc
    simp only [hv] at hpop
    have hout : ((Op.pop t s).deed σ).outcome = _ := deed_eq rfl hpop
    rw [Deed.answer, hout]
    rfl
  · have hthrough := Deed.popsThrough hs ht hc hT hv
    refine .inr ⟨hd, hT, hthrough, ?_⟩
    have hlifos := (hserved.get?_lifos s).trans hs
    rw [hthrough.state, before_deed, hT,
      cache_congr (congrArg (·.get? t) (threads_popThrough hd hlifos)), cache_eq hserved.get?]
    obtain ⟨hd', hmem', heq⟩ := List.mem_map.1 hmem
    obtain rfl : hd' = hd := congrArg Lease.handle heq
    exact hmem'

/-- A thread that has a handle of a table pops through it. -/
theorem State.Sound.settles (h : Sound σ sign shown) {hd : Handle}
    (hn : ((σ.cache t).handles.map (·.table)).Nodup) (hh : hd ∈ (σ.cache t).handles) :
    σ.Settles t hd := by
  have hlive : σ.cache t ≠ .gone := by
    intro hgone
    rw [hgone] at hh
    cases hh
  obtain ⟨thread, ht, hc⟩ := exists_thread_of_cache hlive
  have hfind := Cache.find?_eq_some hn hh
  have hcached : ∀ {s stack}, σ.lifos.get? s = some stack → stack.table = hd.table →
      cachedHandle t hd.table σ =
        ⟨σ.pruned t, (prune (σ.cache t).handles σ).events, .ok hd⟩ := fun hs hT =>
    cachedHandle_of_cached (hT ▸ (h.table_of_stack hs).2) hfind
  have hthrough : ∀ s stack, σ.lifos.get? s = some stack → stack.table = hd.table →
      ((Op.pop t s).deed σ).PopsThrough t s hd := fun s stack hs hT =>
    Deed.popsThrough hs ht hc hT.symm (by rw [hT, hcached hs hT])
  have hlifos : ∀ {s stack}, σ.lifos.get? s = some stack → stack.table = hd.table →
      (cachedHandle t hd.table σ).state.lifos.get? s = some stack := fun hs hT => by
    rw [hcached hs hT, lifos_pruned, hs]
  refine ⟨hh, ?_, hthrough, fun s stack hs hT => ?_, fun s stack c hs hT => ?_⟩
  · exact h.slot_of_mem_cache hh
  · rw [(hthrough s stack hs hT).events, before_deed]
    obtain ⟨stack', events, value, hrun, hp⟩ := popThrough_eq (hlifos hs hT) hd rfl
    rw [hrun, hcached hs hT]
    exact (unclaimed_prune _ _).append hp.unclaimed
  · rw [(hthrough s stack hs hT).answer, before_deed, value_popThrough hd (hlifos hs hT)]
    exact answer_firstOf_ne_exhausted stack.content c

end

namespace Op

variable [Disposable α]

theorem cacheMove_after (ops : List (Op α)) (op : Op α) (t : ThreadId) :
    CacheMove (op.deed (after ops)) t := by
  obtain ⟨sign, shown, hsound, -⟩ := sound_after ops
  exact hsound.cacheMove op t

theorem nodup_cached_tables (ops : List (Op α)) (t : ThreadId) :
    (((after ops).cache t).handles.map (·.table)).Nodup := by
  induction ops using List.reverseRecOn with
  | nil => exact List.nodup_nil
  | append_singleton ops op ih =>
    rw [after_concat]
    exact (cacheMove_after ops op t).nodup ih

/-- A handle stays in the cache while stacks over its table live and the cache is not gone. -/
theorem mem_cache_of_sustained {ops more : List (Op α)} {t : ThreadId} {h : Handle}
    (hh : h ∈ ((after ops).cache t).handles)
    (hmore : ∀ part, part <+: more → (after (ops ++ part)).Sustains t h.table) :
    h ∈ ((after (ops ++ more)).cache t).handles := by
  induction more using List.reverseRecOn with
  | nil => rwa [List.append_nil]
  | append_singleton more op ih =>
    have hbefore := ih fun part hpart => hmore part (hpart.trans (List.prefix_append ..))
    obtain ⟨⟨stack, hstack, hT⟩, -⟩ := hmore more (List.prefix_append ..)
    obtain ⟨-, hlive⟩ := hmore (more ++ [op]) (List.prefix_refl _)
    rw [← List.append_assoc, after_concat] at hlive ⊢
    obtain ⟨sign, shown, hsound, -⟩ := sound_after (ops ++ more)
    obtain ⟨s, hs⟩ := Registry.mem_values_iff.1 hstack
    exact (hsound.cacheMove op t).mem hbefore (hT ▸ (hsound.table_of_stack hs).2) hlive

/-- No cache holds two handles of one table. A thread whose pop from a stack comes by a handle pops
from all stacks over that table through this handle, as long as some such stack lives and the
thread's cache is not gone, whatever happens otherwise. -/
theorem slot_kept (ops : List (Op α)) (t : ThreadId) :
    (((after ops).cache t).handles.map (·.table)).Nodup ∧
      ∀ s stack, (after ops).lifos.get? s = some stack → (after ops).cache t ≠ .gone →
        (∀ c, ((Op.pop t s).deed (after ops)).answer ≠ .failed (.pop (.exhausted c))) →
        ∃ h, h.table = stack.table ∧ ((Op.pop t s).deed (after ops)).PopsThrough t s h ∧
          ∀ more, (∀ part, part <+: more →
              (after (ops ++ [.pop t s] ++ part)).Sustains t stack.table) →
            (after (ops ++ [.pop t s] ++ more)).Settles t h := by
  refine ⟨nodup_cached_tables ops t, fun s stack hs hlive henough => ?_⟩
  obtain ⟨sign, shown, hsound, -⟩ := sound_after ops
  rcases hsound.pop_obtains hs hlive with ⟨c, hc⟩ | ⟨h, hT, hthrough, hmem⟩
  · exact absurd hc (henough c)
  · refine ⟨h, hT, hthrough, fun more hmore => ?_⟩
    rw [after_deed, ← after_concat] at hmem
    rw [← hT] at hmore
    obtain ⟨sign', shown', hsound', -⟩ := sound_after (ops ++ [.pop t s] ++ more)
    exact hsound'.settles (nodup_cached_tables _ t) (mem_cache_of_sustained hmem hmore)

def unpopped : List (Op (Option String)) :=
  [.newTable 1 2, .newStack 2 1, .startThread 3, .startThread 4]

/-- Another thread takes the last slot, the thread pops over a table that then ends, and the stack
that it popped from first ends too. -/
def crowding : List (Op (Option String)) :=
  [.acquire 4 1 5, .newStackOwning 6 7 1, .pop 3 6, .newStack 8 1, .dropStack 6, .dropStack 2,
    .pop 3 8]

theorem slot_kept_in_crowd :
    (after (unpopped ++ [.pop 3 2] ++ crowding)).Settles 3 ⟨1, 0⟩ ∧
      (after (unpopped ++ [.pop 3 2] ++ crowding)).tables.get? 1 =
        some ⟨⟨[⟨some 1, .null⟩, ⟨some 2, .null⟩]⟩, 5⟩ := by
  refine ⟨?_, rfl⟩
  obtain ⟨h, hT, hthrough, hkept⟩ := (slot_kept unpopped 3).2 2 { table := 1 } rfl nofun nofun
  have hfirst : (cachedHandle 3 1 (after unpopped)).value = .ok ⟨1, 0⟩ := rfl
  obtain rfl : h = ⟨1, 0⟩ := by
    have hhandle := hthrough.handle
    rw [before_deed, hT, hfirst] at hhandle
    exact (Except.ok.inj hhandle).symm
  refine hkept crowding fun part hpart => ?_
  have hall : ∀ part ∈ crowding.inits,
      (after (unpopped ++ [.pop 3 2] ++ part)).Sustains 3 1 := by decide +kernel
  exact hall part ((List.mem_inits ..).2 hpart)

end Op

end HazardLifo
