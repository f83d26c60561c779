import HazardLifo.Proofs.Histories.Aftermath
import HazardLifo.Proofs.Histories.Bounds

/-!
# Who holds a handle

A slot with an owner is that of a handle which a caller holds or a thread keeps in its cache, never
both. `Op.returns` lists the handles that an operation gives back. A cached handle stays in its
cache until then (`Sound.stays_cached`) and never comes back to it (`Sound.forgoes_of_returned`); a
handle of a caller stays as it is until the caller does something with it (`Sound.handle_step`). So
an owner changes only if the handle is given back or claimed.
-/

namespace HazardLifo

variable {α : Type}

open State Op

/-- The handles that an operation gives back, of those that are there at its start. -/
def Op.returns (σ : State α) : Op α → List Handle
  | .release n => (σ.handles.get? n).toList
  | .pop t s => if (σ.lifos.get? s).isSome then σ.orphans t else []
  | .beginExit t => if (σ.threads.get? t).any (·.actionsFirst) then (σ.cache t).handles else []
  | .endThread t => (σ.cache t).handles
  | _ => []

/-- The operations that may claim a slot. -/
def Op.Claims : Op α → Prop
  | .pop .. | .acquire .. => True
  | _ => False

namespace State

variable {σ σ' : State α} {sign : HandleId → Token} {shown : HandleId → Address} {t u : ThreadId}
  {h : Handle} {hs : List Handle} {k : Token}

/-! ## Where live handles are -/

theorem Sound.isSome_owner_of_mem_cache (hσ : Sound σ sign shown) (hh : h ∈ (σ.cache t).handles) :
    (σ.owner h).isSome := by
  obtain ⟨k, -, hslot⟩ := hσ.slot_of_mem_cache hh
  rw [owner_eq, hslot]
  rfl

theorem Sound.notMem_cache_of_handle (hσ : Sound σ sign shown) {n : HandleId}
    (hn : σ.handles.get? n = some h) (t : ThreadId) : h ∉ (σ.cache t).handles := fun hh => by
  obtain ⟨thread, ht, hh⟩ := exists_thread_of_mem_cache hh
  refine List.disjoint_of_nodup_append hσ.nodup_liveHandles (Registry.mem_values_iff.2 ⟨n, hn⟩) ?_
  exact List.mem_flatMap.2 ⟨thread, Registry.mem_values_iff.2 ⟨t, ht⟩, hh⟩

theorem Sound.eq_of_mem_cache (hσ : Sound σ sign shown) (ht : h ∈ (σ.cache t).handles)
    (hu : h ∈ (σ.cache u).handles) : t = u := by
  obtain ⟨thread, ht, hht⟩ := exists_thread_of_mem_cache ht
  obtain ⟨thread', hu, hhu⟩ := exists_thread_of_mem_cache hu
  by_contra hne
  have hcached : (σ.threads.values.flatMap (·.cache.handles)).Nodup :=
    hσ.nodup_liveHandles.of_append_right
  rw [((Registry.values_perm ht).flatMap_right _).nodup_iff, List.flatMap_cons] at hcached
  refine List.disjoint_of_nodup_append hcached hht (List.mem_flatMap.2 ⟨thread', ?_, hhu⟩)
  exact Registry.mem_values_iff.2 ⟨u, (Registry.get?_erase ..).trans ((if_neg (Ne.symm hne)).trans hu)⟩

theorem Sound.held_or_cached (hσ : Sound σ sign shown) (hk : σ.owner h = some k) :
    (∃ n, σ.handles.get? n = some h) ∨ ∃ t, h ∈ (σ.cache t).handles ∧ σ.tokenOf t = some k := by
  rw [owner_eq] at hk
  obtain ⟨slot, hslot, hk'⟩ := Option.bind_eq_some_iff.1 hk
  have hlive : h ∈ σ.liveHandles :=
    Sound.mem_liveHandles_iff.2 ⟨_, hσ.backed.mem_of_owner hslot hk', rfl⟩
  rcases List.mem_append.1 hlive with hheld | hcached
  · obtain ⟨n, hn⟩ := Registry.mem_values_iff.1 hheld
    exact .inl ⟨n, hn⟩
  · obtain ⟨thread, hthread, hh⟩ := List.mem_flatMap.1 hcached
    obtain ⟨t, ht⟩ := Registry.mem_values_iff.1 hthread
    rw [← cache_eq ht] at hh
    obtain ⟨k', htoken, hslot'⟩ := hσ.slot_of_mem_cache hh
    rw [hslot'] at hk
    exact .inr ⟨t, hh, htoken.trans hk⟩

theorem Sound.owner_of_handle (hσ : Sound σ sign shown) {n : HandleId}
    (hn : σ.handles.get? n = some h) : σ.owner h = some (sign n) := by
  rw [owner_eq, hσ.slot_of_handle hn]
  rfl

/-! ## Handles given back -/

theorem nodup_returns (hn : ∀ t, ((σ.cache t).handles.map (·.table)).Nodup) (op : Op α) :
    (op.returns σ).Nodup := by
  cases op with
  | release n =>
    rw [Op.returns]
    cases σ.handles.get? n with
    | none => exact List.nodup_nil
    | some handle => exact List.nodup_singleton handle
  | pop t s =>
    rw [Op.returns]
    split
    · exact (hn t).of_map.filter _
    · exact List.nodup_nil
  | beginExit t =>
    rw [Op.returns]
    split
    · exact (hn t).of_map
    · exact List.nodup_nil
  | endThread t => exact (hn t).of_map
  | _ => exact List.nodup_nil

theorem Sound.isSome_owner_of_returns (hσ : Sound σ sign shown) {op : Op α}
    (hr : h ∈ op.returns σ) : (σ.owner h).isSome := by
  cases op with
  | release n =>
    rw [hσ.owner_of_handle (Option.mem_toList.1 hr)]
    rfl
  | pop t s =>
    rw [Op.returns] at hr
    split at hr
    · exact hσ.isSome_owner_of_mem_cache (mem_orphans.1 hr).1
    · cases hr
  | beginExit t =>
    rw [Op.returns] at hr
    split at hr
    · exact hσ.isSome_owner_of_mem_cache hr
    · cases hr
  | endThread t => exact hσ.isSome_owner_of_mem_cache hr
  | _ => cases hr

theorem owner_giveBack_self (h : Handle) (σ : State α) : (giveBack h σ).state.owner h = none := by
  rw [owner_eq, giveBack_eq]
  simp only [slot?_letGo, SlotTable.release, slot?_setSlots_modify, if_true]
  split
  · rfl
  · cases σ.slot? h <;> rfl

theorem owner_giveBack_of_none (ho : σ.owner h = none) (hd : Handle) :
    (giveBack hd σ).state.owner h = none := by
  by_cases heq : h = hd
  · rw [heq]
    exact owner_giveBack_self hd σ
  · rw [owner_eq] at ho ⊢
    rw [giveBack_eq]
    simp only [slot?_letGo, SlotTable.release, slot?_setSlots_modify, if_neg heq]
    split
    · rfl
    · exact ho

theorem owner_giveBackAll (ho : h ∈ hs ∨ σ.owner h = none) :
    (giveBackAll hs σ).state.owner h = none := by
  induction hs generalizing σ with
  | nil => exact ho.resolve_left List.not_mem_nil
  | cons hd rest ih =>
    refine ih (σ := (giveBack hd σ).state) ?_
    rcases ho with hmem | hnone
    · rcases List.mem_cons.1 hmem with rfl | hrest
      · exact .inr (owner_giveBack_self h σ)
      · exact .inl hrest
    · exact .inr (owner_giveBack_of_none hnone hd)

theorem owner_closeCache (hh : h ∈ (σ.cache t).handles) : (closeCache t σ).state.owner h = none := by
  cases hc : σ.cache t with
  | live handles =>
    rw [hc] at hh
    rw [closeCache_of_live hc]
    exact owner_giveBackAll (.inl hh)
  | untouched | gone =>
    rw [hc] at hh
    cases hh

/-! ## Handles that a cache never holds again -/

/-- The handle will never be in the cache of thread `t`: the cache is gone, or the table of the
handle. -/
def Forgoes (σ : State α) (t : ThreadId) (h : Handle) : Prop :=
  (σ.cache t = .gone ∧ t < σ.horizon) ∨ (σ.tables.get? h.table = none ∧ h.table < σ.horizon)

theorem Sound.notMem_of_forgoes (hσ : Sound σ sign shown) (hf : σ.Forgoes t h) :
    h ∉ (σ.cache t).handles := fun hh => by
  rcases hf with ⟨hgone, -⟩ | ⟨hnone, -⟩
  · rw [hgone] at hh
    cases hh
  · obtain ⟨k, -, hslot⟩ := hσ.slot_of_mem_cache hh
    cases (slot?_eq_none_of_get?_eq_none hnone).symm.trans hslot

end State

section

variable [Disposable α] {σ : State α} {sign : HandleId → Token} {shown : HandleId → Address}
  {op : Op α} {t : ThreadId} {h : Handle} {k : Token}

/-! ## How handles leave a cache -/

theorem State.Sound.gone_step (hσ : Sound σ sign shown) (op : Op α)
    (hgone : σ.cache t = .gone ∧ t < σ.horizon) :
    (op.deed σ).after.cache t = .gone ∧ t < (op.deed σ).after.horizon := by
  obtain ⟨sign', hstep⟩ := hσ.step op
  obtain ⟨hgone, hlt⟩ := hgone
  refine ⟨?_, Nat.lt_of_lt_of_le hlt hstep.horizon⟩
  cases hσ.cacheMove op t with
  | kept same => exact same.trans hgone
  | popped s stack new op there live => exact absurd hgone live
  | closed op gone => exact gone
  | started fresh => exact absurd hlt (Nat.not_lt.2 fresh)

theorem State.Sound.ended_step (hσ : Sound σ sign shown)
    (hn : ∀ t, ((σ.cache t).handles.map (·.table)).Nodup) (op : Op α) {T : TableId}
    (hnone : σ.tables.get? T = none ∧ T < σ.horizon) :
    (op.deed σ).after.tables.get? T = none ∧ T < (op.deed σ).after.horizon := by
  obtain ⟨sign', hstep⟩ := hσ.step op
  obtain ⟨hnone, hlt⟩ := hnone
  refine ⟨?_, Nat.lt_of_lt_of_le hlt hstep.horizon⟩
  cases hT : (op.deed σ).after.tables.get? T with
  | none => rfl
  | some shared =>
    rcases hσ.keepsRoom hn op _ _ hT with ⟨shared', hold, -⟩ | ⟨hfresh, -⟩
    · cases hnone.symm.trans hold
    · exact absurd hlt (Nat.not_lt.2 hfresh)

theorem State.Sound.forgoes_step (hσ : Sound σ sign shown)
    (hn : ∀ t, ((σ.cache t).handles.map (·.table)).Nodup) (op : Op α) (hf : σ.Forgoes t h) :
    (op.deed σ).after.Forgoes t h :=
  hf.imp (hσ.gone_step op) (hσ.ended_step hn op)

theorem State.Sound.ended_pop (hσ : Sound σ sign shown)
    (hn : ∀ t, ((σ.cache t).handles.map (·.table)).Nodup) {s : StackId} (hs : (σ.lifos.get? s).isSome)
    (hh : h ∈ σ.orphans t) : ((Op.pop t s).deed σ).after.tables.get? h.table = none := by
  obtain ⟨stack, hs⟩ := Option.isSome_iff_exists.1 hs
  obtain ⟨thread, ht, -⟩ := exists_thread_of_mem_cache (mem_orphans.1 hh).1
  rw [(state_deed_pop t s σ).1]
  rcases hσ.popsSo hs ht (hn t) with ⟨c, -, haftermath, -⟩ | ⟨own, new, k, τ, hpass⟩
  · exact haftermath.ended h hh
  · obtain ⟨stack', mid, -, hstate, -⟩ := hpass.popping
    rw [hstate]
    exact hpass.aftermath.ended h hh

/-- A cached handle that is given back is never cached again. -/
theorem State.Sound.forgoes_of_returned (hσ : Sound σ sign shown)
    (hn : ∀ t, ((σ.cache t).handles.map (·.table)).Nodup) (hh : h ∈ (σ.cache t).handles)
    (hr : h ∈ op.returns σ) : (op.deed σ).after.Forgoes t h := by
  obtain ⟨sign', hstep⟩ := hσ.step op
  obtain ⟨thread, ht, -⟩ := exists_thread_of_mem_cache hh
  have hthread : t < (op.deed σ).after.horizon :=
    Nat.lt_of_lt_of_le (hσ.threads t (by rw [ht]; rfl)) hstep.horizon
  have hlive : σ.cache t ≠ .untouched := fun heq => by
    rw [heq] at hh
    cases hh
  cases op with
  | release n => exact absurd hh (hσ.notMem_cache_of_handle (Option.mem_toList.1 hr) t)
  | pop u s =>
    rw [Op.returns] at hr
    split at hr
    · rename_i hs
      obtain ⟨k, -, hslot⟩ := hσ.slot_of_mem_cache hh
      obtain ⟨shared, hT, -⟩ := Option.bind_eq_some_iff.1 hslot
      refine .inr ⟨hσ.ended_pop hn hs hr, Nat.lt_of_lt_of_le (hσ.tables _ ?_) hstep.horizon⟩
      rw [hT]
      rfl
    · cases hr
  | beginExit u =>
    rw [Op.returns] at hr
    split at hr
    · rename_i hfirst
      obtain rfl := hσ.eq_of_mem_cache hh hr
      rw [ht, Option.any_some] at hfirst
      have hrun := beginExit_eq ht
      rw [if_pos hfirst] at hrun
      have hout : ((Op.beginExit t).deed σ).outcome = _ := deed_eq rfl hrun
      have hself := cache_closeCache_self t σ
      rw [if_neg hlive] at hself
      exact .inl ⟨by rw [Deed.after, hout, hself], hthread⟩
    · cases hr
  | endThread u =>
    obtain rfl := hσ.eq_of_mem_cache hh hr
    rcases endThread_cases σ t with ⟨hnone, -⟩ | ⟨thread', -, hrun⟩
    · cases hnone.symm.trans ht
    · have hout : ((Op.endThread t).deed σ).outcome = _ := deed_eq rfl hrun
      refine .inl ⟨?_, hthread⟩
      rw [Deed.after, hout]
      simp only [cache, Registry.get?_erase, if_true]
  | _ => cases hr

/-- A cached handle that is not given back stays in its cache. -/
theorem State.Sound.stays_cached (hσ : Sound σ sign shown) (hh : h ∈ (σ.cache t).handles)
    (hr : h ∉ op.returns σ) : h ∈ ((op.deed σ).after.cache t).handles := by
  cases hσ.cacheMove op t with
  | kept same => rwa [same]
  | popped s stack new hop there live after =>
    obtain rfl : op = .pop t s := hop
    rw [before_deed] at there after
    have hone : σ.refs h.table ≠ 1 := fun hone => by
      rw [Op.returns, there, Option.isSome_some, if_pos rfl] at hr
      exact hr (mem_orphans.2 ⟨hh, hone⟩)
    rw [after]
    exact List.mem_append_left _ (mem_prune hone hh)
  | closed hop gone =>
    rcases hop with hop | hop
    · obtain rfl : op = .beginExit t := hop
      obtain ⟨thread, ht, -⟩ := exists_thread_of_mem_cache hh
      have hrun := beginExit_eq ht
      rw [Op.returns, ht, Option.any_some] at hr
      split at hr
      · exact absurd hh hr
      · rename_i hfirst
        rw [if_neg hfirst] at hrun
        have hout : ((Op.beginExit t).deed σ).outcome = _ := deed_eq rfl hrun
        rwa [Deed.after, hout]
    · obtain rfl : op = .endThread t := hop
      exact absurd hh hr
  | started fresh before =>
    rw [before_deed] at before
    rw [before] at hh
    cases hh

/-! ## Handles in the hands of callers -/

/-- A handle that a caller does not give up keeps its slot and the owner of the slot. The slot
changes only by operations through the handle. -/
theorem State.Sound.handle_step (hσ : Sound σ sign shown) {n : HandleId}
    (hn : σ.handles.get? n = some h) (hop : op ≠ .release n) :
    (op.deed σ).after.handles.get? n = some h ∧ (op.deed σ).after.owner h = σ.owner h ∧
      ((∀ a, op ≠ .publish n a) → (∀ s, op ≠ .popWith s n) →
        (op.deed σ).after.slot? h = σ.slot? h) := by
  obtain ⟨sign', hstep⟩ := hσ.step op
  have hused : n < σ.horizon := hσ.handles n (by rw [hn]; rfl)
  have hnew : ∀ t T i, op = .acquire t T n → (op.deed σ).answer ≠ .acquired i := by
    rintro t T i rfl hanswer
    exact absurd (acquire_grants hanswer).1 (Nat.not_le.2 hused)
  have hafter := (hstep.held n h hn).resolve_left hop
  have hsign : sign' n = sign n := by
    rcases hstep.handles n h hafter with ⟨-, hsign⟩ | ⟨t, hacquire, hanswer, -⟩
    · exact hsign
    · exact absurd hanswer (hnew _ _ _ hacquire)
  have hslot := hσ.slot_of_handle hn
  have hslot' := hstep.sound.slot_of_handle hafter
  refine ⟨hafter, ?_, fun hpublish hpop => ?_⟩
  · rw [owner_eq, owner_eq, hslot, hslot', hsign]
    rfl
  · rw [hslot, hslot', hsign, op_deed, Op.shows_of_not_through hnew hpublish hpop]

/-! ## Owners -/

theorem State.Sound.owner_kept (hσ : Sound σ sign shown) (hk : σ.owner h = some k)
    (hr : h ∉ op.returns σ) : (op.deed σ).after.owner h = some k := by
  rcases hσ.held_or_cached hk with ⟨n, hn⟩ | ⟨t, hh, htoken⟩
  · have hop : op ≠ .release n := by
      rintro rfl
      exact hr (Option.mem_toList.2 hn)
    rw [(hσ.handle_step hn hop).2.1]
    exact hk
  · obtain ⟨sign', hstep⟩ := hσ.step op
    obtain ⟨thread, ht, -⟩ := exists_thread_of_mem_cache hh
    obtain ⟨thread', ht', hh'⟩ := exists_thread_of_mem_cache (hσ.stays_cached hh hr)
    obtain ⟨k', hk', hslot⟩ := hstep.sound.slot_of_cached ht' hh'
    have hsame := hstep.tokens.token_eq htoken (hσ.threads t (by rw [ht]; rfl)) ht'
    rw [owner_eq, hslot]
    exact hk'.symm.trans hsame

/-- The slot of a handle that is given back is free then. -/
theorem State.Sound.owner_returned (hσ : Sound σ sign shown)
    (hn : ∀ t, ((σ.cache t).handles.map (·.table)).Nodup) (hr : h ∈ op.returns σ) :
    (op.deed σ).after.owner h = none := by
  cases op with
  | release n =>
    have hsome : σ.handles.get? n = some h := Option.mem_toList.1 hr
    rcases release_cases σ n with ⟨hnone, -⟩ | ⟨handle, hhandle, hrun⟩
    · cases hnone.symm.trans hsome
    · obtain rfl := Option.some.inj (hhandle.symm.trans hsome)
      have hout : ((Op.release n).deed σ).outcome = _ := deed_eq rfl hrun
      rw [Deed.after, hout]
      exact owner_giveBack_self handle _
  | pop t s =>
    rw [Op.returns] at hr
    split at hr
    · rename_i hs
      rw [owner, hσ.ended_pop hn hs hr]
      rfl
    · cases hr
  | beginExit t =>
    rw [Op.returns] at hr
    split at hr
    · rename_i hfirst
      obtain ⟨thread, ht, -⟩ := exists_thread_of_mem_cache hr
      rw [ht, Option.any_some] at hfirst
      have hrun := beginExit_eq ht
      rw [if_pos hfirst] at hrun
      have hout : ((Op.beginExit t).deed σ).outcome = _ := deed_eq rfl hrun
      rw [Deed.after, hout]
      exact owner_closeCache hr
    · cases hr
  | endThread t =>
    obtain ⟨thread, ht, -⟩ := exists_thread_of_mem_cache hr
    rcases endThread_cases σ t with ⟨hnone, -⟩ | ⟨thread', -, hrun⟩
    · cases hnone.symm.trans ht
    · have hout : ((Op.endThread t).deed σ).outcome = _ := deed_eq rfl hrun
      rw [Deed.after, hout]
      exact owner_closeCache hr
  | _ => cases hr

/-- Only an operation that claims gives a slot an owner. -/
theorem State.Sound.owner_of_none (hσ : Sound σ sign shown) (ho : σ.owner h = none)
    (hop : ¬op.Claims) : (op.deed σ).after.owner h = none := by
  obtain ⟨sign', hstep⟩ := hσ.step op
  have hcached : ∀ t, h ∉ (σ.cache t).handles := fun t hh => by
    have hsome := hσ.isSome_owner_of_mem_cache hh
    rw [ho] at hsome
    cases hsome
  refine Option.eq_none_iff_forall_ne_some.2 fun k hk => ?_
  rcases hstep.sound.held_or_cached hk with ⟨n, hn⟩ | ⟨t, hh, -⟩
  · rcases hstep.handles n h hn with ⟨hbefore, -⟩ | ⟨t, rfl, -⟩
    · cases ho.symm.trans (hσ.owner_of_handle hbefore)
    · exact absurd trivial hop
  · cases hσ.cacheMove op t with
    | kept same => exact hcached t (same ▸ hh)
    | popped s stack new heq =>
      obtain rfl : op = .pop t s := heq
      exact absurd trivial hop
    | closed hclosed gone =>
      rw [gone] at hh
      cases hh
    | started fresh before after =>
      rw [after] at hh
      cases hh

end

end HazardLifo
