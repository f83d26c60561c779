import HazardLifo.Proofs.Histories.Aftermath

/-!
# Which tables a cache holds on to

A thread that pops through its cache first gives back the handles that are the last references to
their tables. What is left is used besides: by a variable, by a stack, by a handle of a caller, for
good if it is the default table, or by another thread that keeps a handle of its own. The last two
are not uses from outside the caches, and pruning does not tell them apart: two threads that popped
from a stack which has ended since keep its table for each other.

The thread's own handles of a table count once, for it keeps at most one. So a table with a handle
in the cache has one reference exactly if nothing uses it besides (`Sound.usedBeside_iff`), and it
remains to see that no table with a handle in the cache has one reference after the pop
(`Aftermath.refs_ne_one`).
-/

namespace HazardLifo

variable {α : Type}

namespace State

/-- Whether something outside the caches of all threads refers to a table: a variable, a stack or a
handle of a caller. -/
def usedOutside (σ : State α) (T : TableId) : Bool :=
  σ.callerTables.contains T || σ.lifos.values.any (·.table == T) ||
    σ.handles.values.any (·.table == T)

def cachedBeside (σ : State α) (t : ThreadId) (T : TableId) : Bool :=
  (σ.threads.erase t).values.any fun thread => thread.cache.handles.any (·.table == T)

/-- Whether anything refers to a table besides the handles in the cache of thread `t`. -/
def usedBeside (σ : State α) (t : ThreadId) (T : TableId) : Bool :=
  σ.usedOutside T || T == defaultTable || σ.cachedBeside t T

def tablesBeside (σ : State α) (t : ThreadId) : List TableId :=
  σ.tables.keys.filter (σ.usedBeside t)

variable {σ σ' : State α} {t : ThreadId} {T : TableId} {thread : Thread} {h : Handle}
  {new : Option Handle} {sign : HandleId → Token} {shown : HandleId → Address}

/-! ## Uses are references -/

theorem length_handlesOn (ht : σ.threads.get? t = some thread) (T : TableId) :
    (σ.handlesOn T).length = σ.handles.values.countP (·.table == T) +
      thread.cache.handles.countP (·.table == T) +
      ((σ.threads.erase t).values.flatMap (·.cache.handles)).countP (·.table == T) := by
  have hthreads := (Registry.values_perm ht).flatMap_right (·.cache.handles)
  rw [handlesOn, ← List.countP_eq_length_filter, liveHandles, List.countP_append,
    hthreads.countP_eq, List.flatMap_cons, List.countP_append, Nat.add_assoc]

theorem any_iff_countP_pos {β : Type} {l : List β} {p : β → Bool} :
    l.any p = true ↔ 0 < l.countP p := by
  rw [List.any_eq_true, List.countP_pos_iff]

theorem usedBeside_iff_countP : σ.usedBeside t T = true ↔
    0 < σ.callerTables.count T + σ.lifos.values.countP (·.table == T) +
      σ.handles.values.countP (·.table == T) +
      ((σ.threads.erase t).values.flatMap (·.cache.handles)).countP (·.table == T) ∨
    T = defaultTable := by
  simp only [usedBeside, usedOutside, cachedBeside, Bool.or_eq_true, List.contains_iff_mem,
    ← List.count_pos_iff, ← List.any_flatMap, any_iff_countP_pos, beq_iff_eq]
  rw [or_right_comm]
  refine or_congr_left ?_
  omega

theorem Sound.usedBeside_iff (hσ : Sound σ sign shown)
    (hn : ((σ.cache t).handles.map (·.table)).Nodup) (hh : h ∈ (σ.cache t).handles) :
    σ.usedBeside t h.table = true ↔ σ.refs h.table ≠ 1 := by
  obtain ⟨thread, ht, -⟩ := exists_thread_of_mem_cache hh
  have hown : (σ.cache t).handles.countP (·.table == h.table) = 1 := by
    have hcount := List.count_eq_one_of_mem hn (List.mem_map.2 ⟨h, hh, rfl⟩)
    rwa [List.count, List.countP_map] at hcount
  rw [cache_eq ht] at hown
  rw [hσ.refs_eq, holders, length_handlesOn ht, hown, usedBeside_iff_countP]
  by_cases hdefault : h.table = defaultTable
  · simp only [hdefault, if_true, or_true, true_iff]
    omega
  · simp only [hdefault, if_false, or_false]
    omega

/-! ## What is left in a cache -/

theorem Aftermath.refs_ne_one (ha : Aftermath σ t new σ') (hσ : Sound σ sign shown)
    (hh : h ∈ (σ'.cache t).handles) : σ'.refs h.table ≠ 1 := by
  by_cases hnew : ∃ h' ∈ new, h'.table = h.table
  · -- the new handle is one reference more to a table that had some
    obtain ⟨h', hh', hT⟩ := hnew
    obtain ⟨shared, slots, k, hbefore, -, -, hafter⟩ := ha.claimed h' hh'
    have halive := hσ.backed.alive (T := h'.table) (by rw [hbefore]; rfl)
    rw [refs, hbefore] at halive
    rw [← hT, refs, hafter]
    exact Nat.ne_of_gt (Nat.succ_lt_succ halive)
  · have hkept : h ∈ (σ.cache t).handles ∧ σ.refs h.table ≠ 1 := by
      rw [ha.cache, cacheAfter] at hh
      split at hh
      · cases hh
      · rcases List.mem_append.1 hh with hh | hh
        · simpa using List.mem_filter.1 hh
        · exact absurd ⟨h, Option.mem_toList.1 hh, rfl⟩ hnew
    have horphans : ∀ o ∈ σ.orphans t, o.table ≠ h.table := fun o ho heq =>
      hkept.2 (heq ▸ (mem_orphans.1 ho).2)
    rw [refs_congr (ha.kept h.table horphans fun h' hh' hT => hnew ⟨h', hh', hT⟩)]
    exact hkept.2

/-- No handle in the cache is the last reference to its table after a pop: what a pop does besides
pruning and claiming changes no references. -/
theorem Sound.refs_ne_one_of_pop (hσ : Sound σ sign shown)
    (hn : ((σ.cache t).handles.map (·.table)).Nodup) {s : StackId} (hs : (σ.lifos.get? s).isSome)
    (hh : h ∈ ((pop t s σ).state.cache t).handles) : (pop t s σ).state.refs h.table ≠ 1 := by
  rcases pop_cases σ t s with ⟨hnot, hr⟩ | ⟨stack, thread, hs, ht⟩
  · -- a thread that does not run has no cache
    have hnone : σ.threads.get? t = none := Option.not_isSome_iff_eq_none.1 fun ht => hnot ⟨hs, ht⟩
    rw [hr, cache, hnone] at hh
    cases hh
  · rcases hσ.popsSo hs ht hn with ⟨c, -, ha, -⟩ | ⟨own, new, k, τ, hpass⟩
    · exact ha.refs_ne_one hσ hh
    · obtain ⟨stack', mid, -, hstate, -⟩ := hpass.popping
      rw [hstate] at hh ⊢
      exact hpass.aftermath.refs_ne_one hσ hh

theorem Sound.length_le_tablesBeside (hσ : Sound σ sign shown)
    (hn : ((σ.cache t).handles.map (·.table)).Nodup)
    (hused : ∀ h ∈ (σ.cache t).handles, σ.usedBeside t h.table = true) :
    (σ.cache t).handles.length ≤ (σ.tablesBeside t).length := by
  have hsub : (σ.cache t).handles.map (·.table) ⊆ σ.tablesBeside t := fun T hT => by
    obtain ⟨h, hh, rfl⟩ := List.mem_map.1 hT
    obtain ⟨k, -, hslot⟩ := hσ.slot_of_mem_cache hh
    obtain ⟨shared, hget, -⟩ := Option.bind_eq_some_iff.1 hslot
    exact List.mem_filter.2 ⟨Registry.isSome_get?_iff.1 (by rw [hget]; rfl), hused h hh⟩
  have hle := hn.length_le_of_subset hsub
  rwa [List.length_map] at hle

end State

namespace Op

open State

variable [Disposable α]

/-- After a pop every handle in the thread's cache belongs to a table that something else uses as
well, and there are no more of them than such tables. A thread whose cache is gone has none. -/
theorem cache_left_used (ops : List (Op α)) (t : ThreadId) (s : StackId)
    (hs : ((after ops).lifos.get? s).isSome) :
    (∀ h ∈ ((after (ops ++ [.pop t s])).cache t).handles,
      (after (ops ++ [.pop t s])).usedBeside t h.table) ∧
    ((after (ops ++ [.pop t s])).cache t).handles.length ≤
      ((after (ops ++ [.pop t s])).tablesBeside t).length := by
  obtain ⟨sign, shown, hsound, -⟩ := sound_after ops
  obtain ⟨sign', shown', hsound', -⟩ := sound_after (ops ++ [.pop t s])
  have hn := nodup_cached_tables ops t
  have hn' := nodup_cached_tables (ops ++ [.pop t s]) t
  have hstate : after (ops ++ [.pop t s]) = (State.pop t s (after ops)).state := by
    rw [after_concat]
    exact (state_deed_pop t s _).1
  have hused : ∀ h ∈ ((after (ops ++ [.pop t s])).cache t).handles,
      (after (ops ++ [.pop t s])).usedBeside t h.table := fun h hh => by
    rw [hsound'.usedBeside_iff hn' hh]
    rw [hstate] at hh ⊢
    exact hsound.refs_ne_one_of_pop hn hs hh
  exact ⟨hused, hsound'.length_le_tablesBeside hn' hused⟩

/-- A thread pops from two stacks, and the first of them ends. -/
def oneOfTwoEnded : List (Op (Option String)) :=
  [.newStackOwning 1 2 3, .newStackOwning 3 4 3, .startThread 5, .pop 5 1, .pop 5 3, .dropStack 1]

theorem handle_of_ended_stack_returned :
    (∀ h ∈ ((after (oneOfTwoEnded ++ [.pop 5 3])).cache 5).handles,
      (after (oneOfTwoEnded ++ [.pop 5 3])).usedBeside 5 h.table) ∧
    ((after (oneOfTwoEnded ++ [.pop 5 3])).cache 5).handles.length ≤
      ((after (oneOfTwoEnded ++ [.pop 5 3])).tablesBeside 5).length ∧
    (after oneOfTwoEnded).cache 5 = .live [⟨2, 0⟩, ⟨4, 0⟩] ∧
    (after (oneOfTwoEnded ++ [.pop 5 3])).cache 5 = .live [⟨4, 0⟩] :=
  have ⟨hused, hfew⟩ := cache_left_used oneOfTwoEnded 5 3 (by decide +kernel)
  ⟨hused, hfew, by decide +kernel, by decide +kernel⟩

/-- Thread 6 pops from two stacks, one of them over the default table. Thread 7 pops from the other,
and then both stacks end. -/
def bothEnded : List (Op (Option String)) :=
  [.newStack 1 defaultTable, .newStackOwning 2 3 2, .newStackOwning 4 5 1, .startThread 6,
    .startThread 7, .pop 6 1, .pop 6 2, .pop 7 2, .dropStack 1, .dropStack 2]

/-- A cache keeps handles of tables that nothing outside the caches refers to: of the default table,
and of a table that another thread has a cached handle of. -/
theorem handles_kept_without_use :
    ((after bothEnded).lifos.get? 4).isSome ∧
    ((after (bothEnded ++ [.pop 6 4])).cache 6).handles.map (·.table) = [defaultTable, 3, 5] ∧
    ¬ (∀ h ∈ ((after (bothEnded ++ [.pop 6 4])).cache 6).handles,
      (after (bothEnded ++ [.pop 6 4])).usedOutside h.table) ∧
    ¬ ((after (bothEnded ++ [.pop 6 4])).cache 6).handles.length ≤
      ((after (bothEnded ++ [.pop 6 4])).tables.keys.filter
        (after (bothEnded ++ [.pop 6 4])).usedOutside).length := by
  decide +kernel

end Op

end HazardLifo
