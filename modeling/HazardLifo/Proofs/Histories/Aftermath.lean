import HazardLifo.Proofs.Histories.Outcomes
import HazardLifo.Proofs.Histories.References

/-!
# What a pop leaves behind

Before a thread pops it prunes its cache, and it may claim a slot. `Aftermath` says what is left of
this: the orphaned handles of the cache are given back, one handle may be new in the cache, and
nothing else is different. A pop either finds every slot owned and leaves no more than that
(`StarvedPop`), or it comes by a handle (`Passage`): then what it does to the stack depends only on
the stack and on the blocks that slots published before, and its own slot publishes nothing, before
and after.
-/

namespace HazardLifo

variable {α : Type}

theorem SlotTable.publish_eq_self {T : SlotTable} {i : Nat} {a : Address} {slot : Slot}
    (hslot : T.slots[i]? = some slot) (ha : slot.published = a) : T.publish i a = T := by
  obtain ⟨slots⟩ := T
  have hext : slots.modify i ({ · with published := a }) = slots := by
    apply List.ext_getElem?
    intro j
    rw [List.getElem?_modify]
    by_cases hij : i = j
    · subst hij
      simp only at hslot
      simp [hslot, ← ha]
    · simp [hij]
  simp only [publish, modify, hext]

theorem SlotTable.release_claim {T : SlotTable} {i : Nat} {owner : Option Token}
    (hslot : T.slots[i]? = some {}) : (T.modify i ({ · with owner := owner })).release i = T := by
  obtain ⟨slots⟩ := T
  have hext : (slots.modify i ({ · with owner := owner })).modify i (fun _ => {}) = slots := by
    apply List.ext_getElem?
    intro j
    rw [List.getElem?_modify, List.getElem?_modify]
    by_cases hij : i = j
    · subst hij
      simp only at hslot
      simp [hslot]
    · simp [hij]
  simp only [release, modify, hext]

namespace State

variable {σ σ' : State α} {t : ThreadId} {s : StackId} {T : TableId} {thread : Thread}
  {stack : Stack α} {shared : SharedTable} {h own : Handle} {hs : List Handle} {k last : Token}
  {new : Option Handle} {sign : HandleId → Token} {shown : HandleId → Address}

theorem silence_eq_self (hnull : (σ.slot? h).map (·.published) = some .null) :
    σ.silence h = σ := by
  obtain ⟨slot, hslot, hnull⟩ := Option.map_eq_some_iff.1 hnull
  obtain ⟨shared, hT, hi⟩ := Option.bind_eq_some_iff.1 hslot
  rw [silence, setSlots, Registry.modify_eq_self]
  intro shared' hT'
  obtain rfl := Option.some.inj (hT.symm.trans hT')
  rw [SlotTable.publish_eq_self hi hnull]

theorem slot?_silence (own h : Handle) : (σ.silence own).slot? h =
    if h = own then (σ.slot? own).map ({ · with published := .null }) else σ.slot? h := by
  refine (slot?_setSlots_modify σ own ({ · with published := .null }) h).trans ?_
  split
  · rename_i heq
    rw [heq]
  · rfl

theorem published_silence (hslot : (σ.slot? h).isSome) :
    ((σ.silence h).slot? h).map (·.published) = some .null := by
  obtain ⟨slot, hslot⟩ := Option.isSome_iff_exists.1 hslot
  rw [slot?_silence, if_pos rfl, hslot]
  rfl

theorem Sound.isSome_slot?_of_handle (hσ : Sound σ sign shown) {n : HandleId}
    (hn : σ.handles.get? n = some h) : (σ.slot? h).isSome := by
  rw [hσ.slot_of_handle hn]
  rfl

/-! ## Orphans -/

/-- The handles in a thread's cache that are the last references to their tables. -/
def orphans (σ : State α) (t : ThreadId) : List Handle :=
  (σ.cache t).handles.filter fun h => σ.refs h.table = 1

/-- Nothing but the handle refers to its table: no variable, no stack, no other handle. -/
structure Forsaken (σ : State α) (h : Handle) : Prop where
  noVariable : h.table ∉ σ.callerTables
  noStack : ∀ s stack, σ.lifos.get? s = some stack → stack.table ≠ h.table
  notDefault : h.table ≠ defaultTable
  alone : σ.handlesOn h.table = [h]

theorem mem_orphans : h ∈ σ.orphans t ↔ h ∈ (σ.cache t).handles ∧ σ.refs h.table = 1 := by
  simp [orphans]

theorem mem_handlesOn_of_cached (hh : h ∈ (σ.cache t).handles) : h ∈ σ.handlesOn h.table := by
  obtain ⟨thread, ht, hh⟩ := exists_thread_of_mem_cache hh
  refine Sound.mem_handlesOn_iff.2 ⟨List.mem_append_right _ ?_, rfl⟩
  exact List.mem_flatMap.2 ⟨thread, Registry.mem_values_iff.2 ⟨t, ht⟩, hh⟩

/-- The orphans of a cache are the handles of tables that nothing else refers to. -/
theorem Sound.mem_orphans_iff (hσ : Sound σ sign shown) :
    h ∈ σ.orphans t ↔ h ∈ (σ.cache t).handles ∧ σ.Forsaken h := by
  rw [mem_orphans]
  refine and_congr_right fun hh => ?_
  have hmem := mem_handlesOn_of_cached hh
  have hpos : 0 < (σ.handlesOn h.table).length := List.length_pos_of_mem hmem
  rw [hσ.refs_eq, holders]
  constructor
  · intro hone
    have hvars : σ.callerTables.count h.table = 0 := by omega
    have hstacks : σ.lifos.values.countP (·.table == h.table) = 0 := by omega
    refine ⟨List.count_eq_zero.1 hvars, fun s stack hs heq => ?_, fun heq => ?_, ?_⟩
    · exact List.countP_eq_zero.1 hstacks stack (Registry.mem_values_iff.2 ⟨s, hs⟩) (by simp [heq])
    · rw [if_pos heq] at hone
      omega
    · obtain ⟨h', hsingle⟩ := List.length_eq_one_iff.1 (show (σ.handlesOn h.table).length = 1 by omega)
      rw [hsingle] at hmem
      rw [hsingle, List.mem_singleton.1 hmem]
  · rintro ⟨hvars, hstacks, hdefault, halone⟩
    have hnone : σ.lifos.values.countP (·.table == h.table) = 0 := by
      refine List.countP_eq_zero.2 fun stack hstack => ?_
      obtain ⟨s, hs⟩ := Registry.mem_values_iff.1 hstack
      simpa using hstacks s stack hs
    rw [List.count_eq_zero.2 hvars, hnone, halone, if_neg hdefault]
    rfl

/-! ## Pruning -/

def farewell (σ : State α) (h : Handle) : Event α :=
  .notice (.released h.table (σ.owner h) h.slot)

theorem get?_giveBack_self (hone : σ.refs h.table = 1) :
    (giveBack h σ).state.tables.get? h.table = none := by
  have hle : (σ.setSlots h.table (·.release h.slot)).refs h.table ≤ 1 := by
    rw [refs_setSlots, hone]
  rw [giveBack_eq]
  simp only [letGo, if_pos hle, Registry.get?_erase, if_true]

/-- Pruning handles of different tables gives back those that are the last references to theirs. -/
theorem prune_eq (hn : (hs.map (·.table)).Nodup) :
    (prune hs σ).value = hs.filter (fun h => ¬σ.refs h.table = 1) ∧
    (prune hs σ).events = (hs.filter fun h => σ.refs h.table = 1).map σ.farewell ∧
    (∀ h ∈ hs, σ.refs h.table = 1 → (prune hs σ).state.tables.get? h.table = none) ∧
    ∀ T, (∀ h ∈ hs, σ.refs h.table = 1 → h.table ≠ T) →
      (prune hs σ).state.tables.get? T = σ.tables.get? T := by
  induction hs generalizing σ with
  | nil => exact ⟨rfl, rfl, fun _ hh => (List.not_mem_nil hh).elim, fun _ _ => rfl⟩
  | cons hd rest ih =>
    rw [List.map_cons, List.nodup_cons] at hn
    obtain ⟨hnot, hn⟩ := hn
    have hne : ∀ h ∈ rest, h.table ≠ hd.table := by
      intro h hh heq
      exact hnot (List.mem_map.2 ⟨h, hh, heq⟩)
    rw [prune_cons]
    split
    · rename_i hone
      -- the other tables are as before
      have hget : ∀ {T}, T ≠ hd.table →
          (giveBack hd σ).state.tables.get? T = σ.tables.get? T := fun hT =>
        get?_tables_giveBack hd σ hT
      have hrefs : ∀ h ∈ rest, (giveBack hd σ).state.refs h.table = σ.refs h.table := fun h hh =>
        refs_congr (hget (hne h hh))
      obtain ⟨hvalue, hevents, hgone, hkept⟩ := ih (σ := (giveBack hd σ).state) hn
      refine ⟨?_, ?_, fun h hh hr => ?_, fun T hT => ?_⟩
      · rw [List.filter_cons_of_neg (by simpa using hone)]
        refine hvalue.trans (List.filter_congr fun h hh => ?_)
        rw [hrefs h hh]
      · rw [List.filter_cons_of_pos (by simpa using hone), List.map_cons, giveBack_eq]
        have hfarewell : ∀ h ∈ rest, (giveBack hd σ).state.farewell h = σ.farewell h := by
          intro h hh
          rw [farewell, farewell, owner, owner, hget (hne h hh)]
        have hfilter : (rest.filter fun h => (giveBack hd σ).state.refs h.table = 1) =
            rest.filter fun h => σ.refs h.table = 1 :=
          List.filter_congr fun h hh => by rw [hrefs h hh]
        rw [hfilter] at hevents
        refine congrArg (_ :: ·) (hevents.trans (List.map_congr_left fun h hh => ?_))
        exact hfarewell h (List.mem_filter.1 hh).1
      · rcases List.mem_cons.1 hh with rfl | hh
        · refine (hkept h.table fun h' hh' _ => hne h' hh').trans ?_
          exact get?_giveBack_self hone
        · exact hgone h hh ((hrefs h hh).trans hr)
      · have hT' : T ≠ hd.table := (hT hd List.mem_cons_self hone).symm
        refine (hkept T fun h hh hr => ?_).trans (hget hT')
        exact hT h (List.mem_cons_of_mem _ hh) ((hrefs h hh).symm.trans hr)
    · rename_i hmore
      obtain ⟨hvalue, hevents, hgone, hkept⟩ := ih (σ := σ) hn
      refine ⟨?_, ?_, fun h hh hr => ?_, fun T hT => ?_⟩
      · rw [List.filter_cons_of_pos (by simpa using hmore), ← hvalue]
      · rw [List.filter_cons_of_neg (by simpa using hmore), ← hevents]
      · rcases List.mem_cons.1 hh with rfl | hh
        · exact absurd hr hmore
        · exact hgone h hh hr
      · exact hkept T fun h hh => hT h (List.mem_cons_of_mem _ hh)

/-! ## What is left of a pop -/

/-- The cache of a thread after a pop: pruned, and with the new handle at its end. -/
def cacheAfter (σ : State α) (t : ThreadId) (new : Option Handle) : Cache :=
  match σ.cache t with
  | .gone => .gone
  | _ => .live ((σ.cache t).handles.filter (fun h => ¬σ.refs h.table = 1) ++ new.toList)

/-- From `σ` to `σ'` thread `t` may have drawn its token, has pruned its cache, and has the new
handle besides. Nothing else is different. -/
structure Aftermath (σ : State α) (t : ThreadId) (new : Option Handle) (σ' : State α) : Prop where
  frame : σ' = { σ with
    tables := σ'.tables, threads := σ'.threads, lastToken := σ'.lastToken }
  others : ∀ u ≠ t, σ'.threads.get? u = σ.threads.get? u
  cache : σ'.cache t = σ.cacheAfter t new
  ended : ∀ h ∈ σ.orphans t, σ'.tables.get? h.table = none
  claimed : ∀ h ∈ new, ∃ shared slots k, σ.tables.get? h.table = some shared ∧
    σ'.tokenOf t = some k ∧ shared.slots.claim? k = some (h.slot, slots) ∧
    σ'.tables.get? h.table = some ⟨slots, shared.refs + 1⟩
  kept : ∀ T, (∀ h ∈ σ.orphans t, h.table ≠ T) → (∀ h ∈ new, h.table ≠ T) →
    σ'.tables.get? T = σ.tables.get? T

namespace Aftermath

theorem lifos (ha : Aftermath σ t new σ') : σ'.lifos = σ.lifos := by rw [ha.frame]

theorem of_gone (hc : σ.cache t = .gone) : Aftermath σ t none σ where
  frame := rfl
  others _ _ := rfl
  cache := by rw [cacheAfter, hc]
  ended h hh := by
    rw [mem_orphans, hc] at hh
    cases hh.1
  claimed h hh := by cases hh
  kept _ _ _ := rfl

theorem pruned (hn : ((σ.cache t).handles.map (·.table)).Nodup)
    (ht : σ.threads.get? t = some thread) (hc : thread.cache ≠ .gone) :
    Aftermath σ t none (σ.pruned t) := by
  obtain ⟨hvalue, -, hgone, hkept⟩ := prune_eq (σ := σ) hn
  have ho := (tablesOnly_prune (σ.cache t).handles σ).frame
  refine ⟨?_, fun u hu => ?_, ?_, fun h hh => ?_, fun h hh => ?_, fun T hT _ => ?_⟩
  · rw [State.pruned, setCache, ho]
  · rw [State.pruned, setCache, Registry.get?_modify, if_neg hu, ho]
  · rw [cache_eq (get?_threads_pruned ht), hvalue, cacheAfter, cache_eq ht]
    cases hcache : thread.cache with
    | gone => exact absurd hcache hc
    | untouched | live => rw [Option.toList_none, List.append_nil]
  · obtain ⟨hmem, hone⟩ := mem_orphans.1 hh
    exact hgone h hmem hone
  · cases hh
  · exact hkept T fun h hh hone => hT h (mem_orphans.2 ⟨hh, hone⟩)

theorem withToken (ha : Aftermath σ t none σ') (k last : Token) :
    Aftermath σ t none (σ'.withToken t k last) where
  frame := by rw [State.withToken, ha.frame]
  others u hu := by
    rw [State.withToken, Registry.get?_modify, if_neg hu]
    exact ha.others u hu
  cache := (cache_withToken σ' t k last t).trans ha.cache
  ended := ha.ended
  claimed h hh := by cases hh
  kept := ha.kept

/-- The thread claims a slot and keeps it. -/
theorem claim (ha : Aftermath σ t none σ') {i : Nat} {slots : SlotTable}
    (ht : σ'.threads.get? t = some thread) (hlive : σ.cache t ≠ .gone)
    (hT : σ.tables.get? T = some shared) (horphans : ∀ h ∈ σ.orphans t, h.table ≠ T)
    (hclaim : shared.slots.claim? k = some (i, slots)) :
    Aftermath σ t (some ⟨T, i⟩) ((((σ'.withToken t k last).setSlots T fun _ => slots).retain T
      1).setCache t (.live ((σ.cache t).handles.filter (fun h => ¬σ.refs h.table = 1) ++
        [⟨T, i⟩]))) := by
  have hget : ∀ {T'}, T' ≠ T → (((σ'.withToken t k last).setSlots T fun _ => slots).retain T
      1).tables.get? T' = σ'.tables.get? T' := by
    intro T' hne
    rw [retain, Registry.get?_modify, if_neg hne, setSlots, Registry.get?_modify, if_neg hne]
    rfl
  have hT' : σ'.tables.get? T = some shared := by
    rw [ha.kept T horphans fun h hh => by cases hh]
    exact hT
  have hget_self : (((σ'.withToken t k last).setSlots T fun _ => slots).retain T
      1).tables.get? T = some ⟨slots, shared.refs + 1⟩ := by
    have hwith : (σ'.withToken t k last).tables.get? T = some shared := hT'
    rw [retain, Registry.get?_modify, if_pos rfl, setSlots, Registry.get?_modify, if_pos rfl, hwith]
    rfl
  refine ⟨?_, fun u hu => ?_, ?_, fun h hh => ?_, fun h hh => ?_, fun T' hold hnew => ?_⟩
  · rw [setCache, retain, setSlots, State.withToken, ha.frame]
  · rw [setCache, Registry.get?_modify, if_neg hu]
    exact ((Registry.get?_modify ..).trans (if_neg hu)).trans (ha.others u hu)
  · rw [cache_setCache_self, cacheAfter]
    · cases hc : σ.cache t with
      | gone => exact absurd hc hlive
      | untouched | live => rfl
    · show ((σ'.threads.modify t _).get? t).isSome
      rw [Registry.isSome_get?_modify, ht]
      rfl
  · exact (hget (horphans h hh)).trans (ha.ended h hh)
  · obtain rfl := Option.some.inj hh
    refine ⟨shared, slots, k, hT, ?_, hclaim, hget_self⟩
    have hwith : (σ'.withToken t k last).threads.get? t = some { thread with token := some k } := by
      rw [State.withToken, Registry.get?_modify, if_pos rfl, ht, Option.map_some]
    rw [tokenOf, setCache, Registry.get?_modify, if_pos rfl]
    show (Option.map _ ((σ'.withToken t k last).threads.get? t)).bind _ = some k
    rw [hwith]
    rfl
  · have hne : T' ≠ T := (hnew ⟨T, i⟩ rfl).symm
    exact (hget hne).trans (ha.kept T' hold fun h hh => by cases hh)

theorem published (ha : Aftermath σ t new σ') {hd : Handle}
    (hold : ∀ h ∈ σ.orphans t, h.table ≠ hd.table) :
    (σ'.slot? hd).map (·.published) = (σ.slot? hd).map (·.published) := by
  by_cases hnew : ∀ h ∈ new, h.table ≠ hd.table
  · rw [slot?, ha.kept hd.table hold hnew, slot?]
  · obtain ⟨h, hh, heq⟩ : ∃ h ∈ new, h.table = hd.table := by
      by_contra hnone
      exact hnew fun h hh heq => hnone ⟨h, hh, heq⟩
    obtain ⟨shared, slots, k, hT, -, hclaim, hT'⟩ := ha.claimed h hh
    obtain ⟨-, -, rfl⟩ := SlotTable.claim?_eq_some_iff.1 hclaim
    rw [heq] at hT hT'
    rw [slot?, slot?, hT, hT', Option.bind_some, Option.bind_some,
      SlotTable.getElem?_slots_modify]
    split
    · cases shared.slots.slots[hd.slot]? <;> rfl
    · rfl

end Aftermath

/-! ## The handle that a pop goes through -/

theorem Sound.slot_of_claim (hσ : Sound σ sign shown) (hT : σ.tables.get? T = some shared) {i : Nat}
    {slots : SlotTable} (hclaim : shared.slots.claim? k = some (i, slots)) :
    shared.slots.slots[i]? = some {} := by
  obtain ⟨⟨slot, hslot, hfree⟩, -, -⟩ := SlotTable.claim?_eq_some_iff.1 hclaim
  have hnull : slot.published = .null :=
    hσ.backed.idle (h := ⟨T, i⟩) (by rw [slot?, hT, Option.bind_some, hslot]) hfree
  obtain ⟨owner, published⟩ := slot
  obtain rfl : owner = none := hfree
  obtain rfl : published = .null := hnull
  exact hslot

theorem giveBack_claim (hT : σ.tables.get? T = some shared) (hrefs : 0 < shared.refs) {i : Nat}
    {slots : SlotTable} (hslot : shared.slots.slots[i]? = some {})
    (hclaim : shared.slots.claim? k = some (i, slots)) :
    (giveBack ⟨T, i⟩ ((σ.setSlots T fun _ => slots).retain T 1)).state = σ := by
  obtain ⟨-, -, rfl⟩ := SlotTable.claim?_eq_some_iff.1 hclaim
  have hmany : ¬ (((σ.setSlots T fun _ => shared.slots.modify i
      ({ · with owner := some k })).retain T 1).setSlots T (·.release i)).refs T ≤ 1 := by
    rw [refs_setSlots, refs_retain, isSome_get?_setSlots, hT, refs_setSlots, refs, hT]
    simp only [Option.isSome_some, and_self, if_true]
    omega
  rw [giveBack_eq]
  simp only [letGo, if_neg hmany]
  simp only [setSlots, retain, Registry.modify_modify]
  rw [Registry.modify_eq_self]
  intro shared' hT'
  obtain rfl := Option.some.inj (hT.symm.trans hT')
  rw [SlotTable.release_claim hslot, Nat.add_sub_cancel]

/-- How thread `t` comes by the handle of a table that it pops through, and whether it keeps a new
one. -/
inductive Finds (σ : State α) (t : ThreadId) (T : TableId) : Handle → Option Handle → Prop
  | cached {own : Handle} (found : (σ.cache t).handles.find? (·.table == T) = some own) :
    Finds σ t T own none
  | claimed {own : Handle} (live : σ.cache t ≠ .gone) (table : own.table = T)
    (missing : (σ.cache t).handles.find? (·.table == T) = none) : Finds σ t T own (some own)
  /-- The cache is gone; the thread claims the first free slot for this pop only. -/
  | passing {own : Handle} {shared : SharedTable} {k : Token} {slots : SlotTable}
    (gone : σ.cache t = .gone) (table : own.table = T) (there : σ.tables.get? T = some shared)
    (first : shared.slots.claim? k = some (own.slot, slots)) : Finds σ t T own none

/-- A pop that found no free slot, by what it leaves and what is seen of it. -/
def StarvedPop (σ : State α) (t : ThreadId) (T : TableId) (c : Nat) (σ' : State α)
    (events : List (Event α)) : Prop :=
  Aftermath σ t none σ' ∧
    ∃ k, events = (σ.orphans t).map σ.farewell ++ [.notice (.exhausted T k c)]

theorem Sound.ne_of_mem_orphans (hσ : Sound σ sign shown) (hs : σ.lifos.get? s = some stack)
    (hh : h ∈ σ.orphans t) : h.table ≠ stack.table := fun heq =>
  (hσ.mem_orphans_iff.1 hh).2.noStack s stack hs heq.symm

theorem Sound.published_cached (hσ : Sound σ sign shown) (hh : h ∈ (σ.cache t).handles) :
    (σ.slot? h).map (·.published) = some .null := by
  obtain ⟨k, -, hslot⟩ := hσ.slot_of_mem_cache hh
  rw [hslot]
  rfl

/-! ## Pops that come by a handle -/

def arrival (σ : State α) (t : ThreadId) (own : Handle) (k : Token) : List (Event α) :=
  if own ∈ (σ.cache t).handles then [] else [.notice (.claimed own.table k own.slot)]

def departure (σ : State α) (t : ThreadId) (own : Handle) (k : Token) : List (Event α) :=
  if σ.cache t = .gone then [.notice (.released own.table (some k) own.slot)] else []

theorem onlyNotices_farewells (hs : List Handle) (σ : State α) :
    OnlyNotices (hs.map σ.farewell) := fun e he => by
  obtain ⟨h, -, rfl⟩ := List.mem_map.1 he
  exact ⟨_, rfl⟩

theorem onlyNotices_arrival (σ : State α) (t : ThreadId) (own : Handle) (k : Token) :
    OnlyNotices (σ.arrival t own k) := by
  unfold arrival
  split
  · exact onlyNotices_nil
  · exact onlyNotices_notice _

theorem onlyNotices_departure (σ : State α) (t : ThreadId) (own : Handle) (k : Token) :
    OnlyNotices (σ.departure t own k) := by
  unfold departure
  split
  · exact onlyNotices_notice _
  · exact onlyNotices_nil

theorem freedIn_around (hs : List Handle) (σ : State α) (t : ThreadId) (own : Handle) (k : Token)
    (mid : List (Event α)) :
    freedIn (hs.map σ.farewell ++ σ.arrival t own k ++ mid ++ σ.departure t own k) = freedIn mid := by
  simp only [freedIn_append, (onlyNotices_farewells hs σ).freedIn,
    (onlyNotices_arrival σ t own k).freedIn, (onlyNotices_departure σ t own k).freedIn,
    List.nil_append, List.append_nil]

/-- What a pop comes to that goes through handle `own`. It leaves `τ`, apart from its stack; what it
does to the stack does not depend on the handle. -/
structure Passage (σ : State α) (t : ThreadId) (s : StackId) (stack : Stack α) (own : Handle)
    (new : Option Handle) (k : Token) (τ : State α) (o : Outcome α (Except Failure α)) : Prop where
  finds : σ.Finds t stack.table own new
  aftermath : Aftermath σ t new τ
  token : τ.tokenOf t = some k
  /-- The slot of the handle is there and published nothing before. -/
  silent : (σ.slot? own).map (·.published) = some .null
  value : o.value = firstOf stack.content
  popping : ∃ stack' mid, Popping s (σ.published stack.table) stack stack' mid o.value ∧
    o.state = τ.setStack s stack' ∧
    o.events = (σ.orphans t).map σ.farewell ++ σ.arrival t own k ++ mid ++ σ.departure t own k

theorem Finds.table (hf : σ.Finds t T own new) : own.table = T := by
  cases hf with
  | cached found => simpa using List.find?_some found
  | claimed _ table _ => exact table
  | passing _ table _ _ => exact table

theorem popThrough_of_silent (hs : σ.lifos.get? s = some stack)
    (hnull : (σ.slot? own).map (·.published) = some .null) :
    ∃ stack' mid, popThrough s own σ = ⟨σ.setStack s stack', mid, firstOf stack.content⟩ ∧
      Popping s (σ.published stack.table) stack stack' mid (firstOf stack.content) := by
  obtain ⟨stack', mid, value, hrun, hp⟩ := popThrough_eq hs own rfl
  have hvalue := value_popThrough own hs
  rw [hrun] at hvalue
  obtain rfl : value = firstOf stack.content := hvalue
  rw [silence_eq_self hnull] at hrun hp
  exact ⟨stack', mid, hrun, hp⟩

theorem popWith_of_table {n : HandleId} (hs : σ.lifos.get? s = some stack)
    (hn : σ.handles.get? n = some h) (hT : h.table = stack.table) :
    ∃ stack' mid, popWith s n σ = ⟨(σ.silence h).setStack s stack', mid, firstOf stack.content⟩ ∧
      Popping s ((σ.silence h).published stack.table) stack stack' mid (firstOf stack.content) := by
  obtain ⟨stack', mid, value, hrun, hp⟩ := popThrough_eq hs h rfl
  have hvalue := value_popThrough h hs
  rw [hrun] at hvalue
  obtain rfl : value = firstOf stack.content := hvalue
  exact ⟨stack', mid, by rw [popWith_eq hs hn, if_pos hT, hrun], hp⟩

theorem Aftermath.published_eq (ha : Aftermath σ t new σ') (hold : ∀ h ∈ σ.orphans t, h.table ≠ T) :
    σ'.published T = σ.published T := by
  funext b
  rw [Bool.eq_iff_iff, published_iff_slot, published_iff_slot]
  refine exists_congr fun i => ?_
  have hold : ∀ h ∈ σ.orphans t, h.table ≠ (⟨T, i⟩ : Handle).table := hold
  rw [ha.published hold]

theorem owner_eq (σ : State α) (h : Handle) : σ.owner h = (σ.slot? h).bind (·.owner) := by
  rw [owner, slot?, Option.bind_assoc]
  rfl

section

variable {i : Nat} {slots : SlotTable}

theorem Sound.silent_of_claim (hσ : Sound σ sign shown) (hT : σ.tables.get? T = some shared)
    (hclaim : shared.slots.claim? k = some (i, slots)) :
    (σ.slot? ⟨T, i⟩).map (·.published) = some .null := by
  rw [slot?, hT, Option.bind_some, hσ.slot_of_claim hT hclaim]
  rfl

theorem Sound.slot?_claimed (hσ : Sound σ sign shown) (hT : σ.tables.get? T = some shared)
    (hclaim : shared.slots.claim? k = some (i, slots)) (hd : Handle) :
    (((σ.withToken t k last).setSlots T fun _ => slots).retain T 1).slot? hd =
      if hd = ⟨T, i⟩ then some ⟨some k, .null⟩ else σ.slot? hd := by
  refine (slot?_claim (σ := σ.withToken t k last) hT hclaim hd).trans ?_
  split
  · rename_i heq
    have hfree : σ.slot? hd = some {} := by
      rw [heq, slot?, hT, Option.bind_some, hσ.slot_of_claim hT hclaim]
    exact congrArg (Option.map _) hfree
  · rfl

theorem Sound.published_claimed (hσ : Sound σ sign shown) (hT : σ.tables.get? T = some shared)
    (hclaim : shared.slots.claim? k = some (i, slots)) :
    (((σ.withToken t k last).setSlots T fun _ => slots).retain T 1).published = σ.published := by
  funext T' b
  rw [Bool.eq_iff_iff, published_iff_slot, published_iff_slot]
  refine exists_congr fun j => ?_
  rw [hσ.slot?_claimed hT hclaim]
  split
  · rename_i heq
    rw [heq, hσ.silent_of_claim hT hclaim]
    rfl
  · rfl

end

/-- A thread without a cache either finds no free slot, or claims one for this pop only. -/
theorem Sound.pop_of_gone (hσ : Sound σ sign shown) (hs : σ.lifos.get? s = some stack)
    (hT : σ.tables.get? stack.table = some shared) (ht : σ.threads.get? t = some thread)
    (hc : thread.cache = .gone) :
    ∃ k last, σ.Draws thread k last ∧
      ((shared.slots.claim? k = none ∧ pop t s σ = ⟨σ.withToken t k last,
        [.notice (.exhausted stack.table k shared.slots.capacity)],
        .error (.pop (.exhausted shared.slots.capacity))⟩) ∨
      ∃ i slots stack' mid, shared.slots.claim? k = some (i, slots) ∧
        Popping s (σ.published stack.table) stack stack' mid (firstOf stack.content) ∧
        pop t s σ = ⟨(σ.withToken t k last).setStack s stack',
          .notice (.claimed stack.table k i) :: mid ++
            [.notice (.released stack.table (some k) i)], firstOf stack.content⟩) := by
  have hpop := pop_eq_of_gone hs ht hc
  obtain ⟨k, last, hd, ⟨hnone, hclaim⟩ | ⟨i, slots, hslots, hclaim⟩⟩ := claim_eq ht hT
  · rw [hclaim] at hpop
    exact ⟨k, last, hd, .inl ⟨hnone, hpop⟩⟩
  · let τ := ((σ.withToken t k last).setSlots stack.table fun _ => slots).retain stack.table 1
    have hrefs : 0 < shared.refs := by
      have halive := hσ.backed.alive (T := stack.table) (by rw [hT]; rfl)
      rwa [refs, hT] at halive
    have hown : τ.slot? ⟨stack.table, i⟩ = some ⟨some k, .null⟩ :=
      (hσ.slot?_claimed hT hslots _).trans (if_pos rfl)
    have hlifos : τ.lifos.get? s = some stack := hs
    obtain ⟨stack', mid, hrun, hp⟩ := popThrough_of_silent hlifos (by rw [hown]; rfl)
    rw [hσ.published_claimed hT hslots] at hp
    have howner : (τ.setStack s stack').owner ⟨stack.table, i⟩ = some k := by
      rw [owner_eq]
      exact congrArg (Option.bind · (·.owner)) hown
    -- given back, the handle leaves no trace but the token
    have hback : (giveBack ⟨stack.table, i⟩ (τ.setStack s stack')).state =
        (σ.withToken t k last).setStack s stack' := by
      rw [giveBack_setStack, giveBack_claim (σ := σ.withToken t k last) hT hrefs
        (hσ.slot_of_claim hT hslots) hslots]
    rw [hclaim] at hpop
    refine ⟨k, last, hd, .inr ⟨i, slots, stack', mid, hslots, hp, hpop.trans ?_⟩⟩
    change (⟨(giveBack _ (popThrough s ⟨stack.table, i⟩ τ).state).state,
      _ ++ ((popThrough s ⟨stack.table, i⟩ τ).events ++
        (giveBack _ (popThrough s ⟨stack.table, i⟩ τ).state).events),
      (popThrough s ⟨stack.table, i⟩ τ).value⟩ : Outcome α _) = _
    rw [hrun]
    simp only [hback]
    rw [giveBack_eq, howner]
    rfl

theorem tokenOf_withToken (ht : σ.threads.get? t = some thread) (last : Token) :
    (σ.withToken t k last).tokenOf t = some k := by
  rw [tokenOf, withToken, Registry.get?_modify, if_pos rfl, ht]
  rfl

theorem tokenOf_setCache (u : ThreadId) (c : Cache) : (σ.setCache u c).tokenOf t = σ.tokenOf t := by
  simp only [tokenOf, setCache, Registry.get?_modify]
  split
  · rename_i heq
    rw [heq]
    cases σ.threads.get? u <;> rfl
  · rfl

/-- What a pop comes to: it finds no free slot, or it goes through a handle. -/
inductive PopsSo (σ : State α) (t : ThreadId) (s : StackId) (stack : Stack α)
    (o : Outcome α (Except Failure α)) : Prop
  | starved (c : Nat) (value : o.value = .error (.pop (.exhausted c)))
    (leaves : StarvedPop σ t stack.table c o.state o.events)
  | passed (own : Handle) (new : Option Handle) (k : Token) (τ : State α)
    (passage : Passage σ t s stack own new k τ o)

theorem Sound.popsSo_of_gone (hσ : Sound σ sign shown) (hs : σ.lifos.get? s = some stack)
    (ht : σ.threads.get? t = some thread) (hc : thread.cache = .gone) :
    PopsSo σ t s stack (pop t s σ) := by
  obtain ⟨⟨shared, hT⟩, -⟩ := hσ.table_of_stack hs
  have hgone : σ.cache t = .gone := (cache_eq ht).trans hc
  have horphans : σ.orphans t = [] := by rw [orphans, hgone]; rfl
  obtain ⟨k, last, -, ⟨-, hpop⟩ | ⟨i, slots, stack', mid, hslots, hp, hpop⟩⟩ :=
    hσ.pop_of_gone hs hT ht hc
  · rw [hpop]
    refine .starved _ rfl ⟨(Aftermath.of_gone hgone).withToken k last, k, ?_⟩
    rw [horphans]
    rfl
  · rw [hpop]
    refine .passed ⟨stack.table, i⟩ none k (σ.withToken t k last)
      ⟨.passing hgone rfl hT hslots, (Aftermath.of_gone hgone).withToken k last,
        tokenOf_withToken ht last, hσ.silent_of_claim hT hslots, rfl, stack', mid, hp, rfl, ?_⟩
    have harrival : ⟨stack.table, i⟩ ∉ (σ.cache t).handles := by
      rw [hgone]
      exact List.not_mem_nil
    rw [horphans, arrival, if_neg harrival, departure, if_pos hgone]
    rfl

/-- A handle that is found in the cache, or claimed and kept, is not given back by the pop. -/
theorem Passage.of_popAfter {before : List (Event α)} {τ : State α}
    (hlifos : τ.lifos.get? s = some stack) (hlive : σ.cache t ≠ .gone)
    (hf : σ.Finds t stack.table own new) (ha : Aftermath σ t new τ)
    (horphans : ∀ h ∈ σ.orphans t, h.table ≠ stack.table) (htoken : τ.tokenOf t = some k)
    (hnull : (σ.slot? own).map (·.published) = some .null)
    (hbefore : before = (σ.orphans t).map σ.farewell ++ σ.arrival t own k) :
    Passage σ t s stack own new k τ (popAfter before s own τ) := by
  have hold : ∀ h ∈ σ.orphans t, h.table ≠ own.table := by rwa [hf.table]
  obtain ⟨stack', mid, hrun, hp⟩ :=
    popThrough_of_silent hlifos ((ha.published hold).trans hnull)
  rw [ha.published_eq horphans] at hp
  rw [popAfter, hrun]
  refine ⟨hf, ha, htoken, hnull, rfl, stack', mid, hp, rfl, ?_⟩
  rw [departure, if_neg hlive, List.append_nil, hbefore]

theorem Sound.popsSo_of_not_gone (hσ : Sound σ sign shown) (hs : σ.lifos.get? s = some stack)
    (ht : σ.threads.get? t = some thread) (hc : thread.cache ≠ .gone)
    (hn : ((σ.cache t).handles.map (·.table)).Nodup) : PopsSo σ t s stack (pop t s σ) := by
  obtain ⟨⟨shared, hT⟩, hrefs⟩ := hσ.table_of_stack hs
  obtain ⟨hvalue, hevents, -, -⟩ := prune_eq (σ := σ) hn
  have hlive : σ.cache t ≠ .gone := by rwa [cache_eq ht]
  have ha := Aftermath.pruned hn ht hc
  have horphans : ∀ h ∈ σ.orphans t, h.table ≠ stack.table := fun h hh =>
    hσ.ne_of_mem_orphans hs hh
  have ht' := get?_threads_pruned ht
  have hlifos : (σ.pruned t).lifos.get? s = some stack := by rw [lifos_pruned, hs]
  have hT' : (σ.pruned t).tables.get? stack.table = some shared :=
    (get?_tables_pruned t hrefs).trans hT
  obtain ⟨k, last, -, hclaim⟩ := claim_eq ht' hT'
  obtain ⟨o, hpop, hcases⟩ : ∃ o, pop t s σ = o ∧ CachedPop σ t stack.table s o :=
    ⟨_, rfl, cachedPop_pop hs ht hc hrefs⟩
  rw [hpop]
  cases hcases with
  | @cached own hfound =>
    have hmem := List.mem_of_find?_eq_some hfound
    obtain ⟨k, hk, -⟩ := hσ.slot_of_cached ht (cache_eq ht ▸ hmem)
    have htoken : (σ.pruned t).tokenOf t = some k := by
      rw [tokenOf, ht']
      exact hk
    refine .passed own none k _ (.of_popAfter hlifos hlive (.cached hfound) ha horphans htoken
      (hσ.published_cached hmem) ?_)
    rw [hevents, arrival, if_pos hmem, List.append_nil]
    rfl
  | failed hnone hv =>
    rcases hclaim with ⟨-, hclaim⟩ | ⟨i, slots, -, hclaim⟩ <;> rw [hclaim] at hv
    · obtain rfl := Except.error.inj hv
      rw [hclaim, hevents]
      exact .starved _ rfl ⟨ha.withToken k last, k, rfl⟩
    · cases hv
  | @claimed own hnone hv =>
    rcases hclaim with ⟨-, hclaim⟩ | ⟨i, slots, hslots, hclaim⟩ <;> rw [hclaim] at hv
    · cases hv
    obtain rfl := Except.ok.inj hv
    have hnew : (⟨stack.table, i⟩ : Handle) ∉ (σ.cache t).handles := fun hmem => by
      simpa using List.find?_eq_none.1 hnone _ hmem
    have hkept := (congrArg (·.get? s) (lifos_claim ht' (by rw [hT']; rfl))).trans hlifos
    rw [hclaim] at hkept ⊢
    rw [hvalue]
    refine .passed ⟨stack.table, i⟩ (some ⟨stack.table, i⟩) k _ (.of_popAfter hkept hlive
      (.claimed hlive rfl hnone) (ha.claim ht' hlive hT horphans hslots) horphans ?_
      (hσ.silent_of_claim hT hslots) ?_)
    · rw [tokenOf_setCache]
      exact tokenOf_withToken ht' last
    · rw [hevents, arrival, if_neg hnew]
      rfl

/-- Every pop by a running thread goes so. -/
theorem Sound.popsSo (hσ : Sound σ sign shown) (hs : σ.lifos.get? s = some stack)
    (ht : σ.threads.get? t = some thread) (hn : ((σ.cache t).handles.map (·.table)).Nodup) :
    PopsSo σ t s stack (pop t s σ) := by
  by_cases hc : thread.cache = .gone
  · exact hσ.popsSo_of_gone hs ht hc
  · exact hσ.popsSo_of_not_gone hs ht hc hn

end State

end HazardLifo
