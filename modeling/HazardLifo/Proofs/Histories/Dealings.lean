import HazardLifo.Proofs.Histories.Holders

/-!
# What is seen of a slot

What an operation shows of slots is that it gives back the handles of `Op.returns`, each once, and
that it claims a slot, which it keeps or gives back (`Sound.deals`). So all that is seen of an owned
slot is that its handle is given back (`Sound.seenOf_events`). Over a whole run the claims and
returns of a slot take turns, and what is seen of it tells its owner (`turns_after`).
-/

namespace HazardLifo

variable {α : Type}

def Event.slot? : Event α → Option Handle
  | .notice (.claimed T _ i) | .notice (.released T _ i) => some ⟨T, i⟩
  | _ => none

def seenOf (h : Handle) (events : List (Event α)) : List (Event α) :=
  events.filter (·.slot? == some h)

theorem seenOf_append (h : Handle) (events events' : List (Event α)) :
    seenOf h (events ++ events') = seenOf h events ++ seenOf h events' := List.filter_append ..

theorem seenOf_eq_nil {h : Handle} {events : List (Event α)} (he : ∀ e ∈ events, e.slot? ≠ some h) :
    seenOf h events = [] :=
  List.filter_eq_nil_iff.2 fun e hmem => by simpa using he e hmem

theorem seenOf_singleton_of_ne {h own : Handle} {e : Event α} (he : e.slot? = some own)
    (hne : h ≠ own) : seenOf h [e] = [] :=
  seenOf_eq_nil fun e' he' => by
    rw [List.mem_singleton.1 he', he]
    exact fun heq => hne (Option.some.inj heq).symm

theorem seenOf_singleton {h : Handle} {e : Event α} (he : e.slot? = some h) : seenOf h [e] = [e] :=
  List.filter_eq_self.2 fun e' he' => by simp [List.mem_singleton.1 he', he]

def Slotless (events : List (Event α)) : Prop := ∀ e ∈ events, e.slot? = none

theorem Slotless.seenOf {events : List (Event α)} (hevents : Slotless events) (h : Handle) :
    seenOf h events = [] :=
  seenOf_eq_nil fun e he => by simp [hevents e he]

theorem Slotless.append {events events' : List (Event α)} (h : Slotless events)
    (h' : Slotless events') : Slotless (events ++ events') := fun e he =>
  (List.mem_append.1 he).elim (h e) (h' e)

theorem slotless_nil : Slotless ([] : List (Event α)) := fun _ he => by cases he

theorem slotless_map_freed (s : StackId) (bs : List Block) :
    Slotless (bs.map (.freed s) : List (Event α)) := fun e he => by
  obtain ⟨b, -, rfl⟩ := List.mem_map.1 he
  rfl

theorem Limbo.slotless_sweepEvents (s : StackId) (published : Block → Bool) (L : Limbo) :
    Slotless (L.sweepEvents s published : List (Event α)) := by
  unfold sweepEvents
  split
  · exact slotless_nil
  · refine (slotless_map_freed s _).append fun e he => ?_
    rw [List.mem_singleton.1 he]
    rfl

theorem State.Popping.slotless {published : Block → Bool} {s : StackId} {stack stack' : Stack α}
    {events : List (Event α)} {value : Except Failure α}
    (hp : Popping s published stack stack' events value) : Slotless events := by
  cases hp with
  | empty | exhausted => exact slotless_nil
  | popped node rest hn =>
    intro e he
    rcases List.mem_cons.1 he with rfl | he
    · split <;> rfl
    · exact Limbo.slotless_sweepEvents s published _ e he

theorem State.slotless_dismantle [Disposable α] (s : StackId) (nodes : List (Node α)) :
    Slotless (dismantle s nodes).1 := by
  induction nodes with
  | nil => exact slotless_nil
  | cons node rest ih =>
    intro e he
    cases hf : Disposable.fault? node.value with
    | some message =>
      simp only [dismantle, hf, List.mem_cons, List.not_mem_nil, or_false] at he
      rcases he with rfl | rfl <;> rfl
    | none =>
      simp only [dismantle, hf, List.mem_cons] at he
      rcases he with rfl | rfl | he
      · rfl
      · rfl
      · exact ih e he

/-- What is seen of a slot, from one owner to another: a free slot is claimed, and its owner gives
it back. -/
inductive SlotTurns : Option Token → List (Event α) → Option Token → Prop
  | done {owner : Option Token} : SlotTurns owner [] owner
  | claimed {T : TableId} {k : Token} {i : Nat} {events : List (Event α)} {owner : Option Token} :
    SlotTurns (some k) events owner → SlotTurns none (.notice (.claimed T k i) :: events) owner
  | released {T : TableId} {k : Token} {i : Nat} {events : List (Event α)} {owner : Option Token} :
    SlotTurns none events owner →
      SlotTurns (some k) (.notice (.released T (some k) i) :: events) owner

theorem SlotTurns.append {o o' o'' : Option Token} {events events' : List (Event α)}
    (h : SlotTurns o events o') (h' : SlotTurns o' events' o'') :
    SlotTurns o (events ++ events') o'' := by
  induction h with
  | done => exact h'
  | claimed _ ih => exact .claimed (ih h')
  | released _ ih => exact .released (ih h')

open State Op

/-- What the operation takes for itself: nothing, or a free slot that it claims, and keeps or gives
back. No other slot gets an owner. -/
inductive Deed.Takes (d : Deed α) : List (Event α) → Prop
  | nothing (idle : ∀ h, d.before.owner h = none → d.after.owner h = none) : Takes d []
  | kept (own : Handle) (k : Token) (free : d.before.owner own = none)
    (owned : d.after.owner own = some k)
    (idle : ∀ h ≠ own, d.before.owner h = none → d.after.owner h = none) :
    Takes d [.notice (.claimed own.table k own.slot)]
  | passing (own : Handle) (k : Token) (free : d.before.owner own = none)
    (idle : ∀ h, d.before.owner h = none → d.after.owner h = none) :
    Takes d [.notice (.claimed own.table k own.slot),
      .notice (.released own.table (some k) own.slot)]

/-- What the operation shows of slots: it gives handles back and then takes what it takes. -/
def Deed.Deals (d : Deed α) : Prop :=
  ∃ taken, d.Takes taken ∧
    ∀ h, seenOf h d.events = seenOf h ((d.op.returns d.before).map d.before.farewell ++ taken)

namespace State

variable {σ τ : State α} {sign : HandleId → Token} {shown : HandleId → Address} {t : ThreadId}
  {s : StackId} {T : TableId} {h own : Handle} {hs : List Handle} {new : Option Handle} {k : Token}
  {shared : SharedTable} {stack : Stack α}

/-! ## Giving back handles of a cache -/

theorem seenOf_farewells (σ : State α) (hn : hs.Nodup) :
    seenOf h (hs.map σ.farewell) = if h ∈ hs then [σ.farewell h] else [] := by
  have hfilter : seenOf h (hs.map σ.farewell) = (hs.filter (· == h)).map σ.farewell := by
    rw [seenOf, List.filter_map]
    rfl
  rw [hfilter, List.filter_beq, hn.count]
  split <;> rfl

theorem giveBackAll_events (hn : (hs.map (·.table)).Nodup) :
    (giveBackAll hs σ).events = hs.map σ.farewell := by
  induction hs generalizing σ with
  | nil => rfl
  | cons hd rest ih =>
    rw [List.map_cons, List.nodup_cons] at hn
    have hsame : ∀ h ∈ rest, (giveBack hd σ).state.farewell h = σ.farewell h := fun h hh => by
      have hne : h.table ≠ hd.table := fun heq => hn.1 (List.mem_map.2 ⟨h, hh, heq⟩)
      rw [farewell, farewell, owner, owner, get?_tables_giveBack hd σ hne]
    exact congrArg (_ :: ·) ((ih hn.2).trans (List.map_congr_left hsame))

theorem closeCache_events (hn : ((σ.cache t).handles.map (·.table)).Nodup) :
    (closeCache t σ).events = (σ.cache t).handles.map σ.farewell := by
  cases hc : σ.cache t with
  | live handles =>
    rw [closeCache_of_live hc]
    rw [hc] at hn
    exact giveBackAll_events hn
  | untouched | gone =>
    rw [closeCache_of_not_live (by simp [hc])]
    rfl

theorem beginExit_events (hn : ((σ.cache t).handles.map (·.table)).Nodup) :
    (beginExit t σ).events = ((Op.beginExit t).returns σ).map σ.farewell := by
  rw [Op.returns]
  cases ht : σ.threads.get? t with
  | none =>
    rcases beginExit_cases σ t with ⟨-, hr⟩ | ⟨thread, hsome, -⟩
    · rw [hr]
      rfl
    · cases ht.symm.trans hsome
  | some thread =>
    rw [beginExit_eq ht, Option.any_some]
    split
    · exact closeCache_events hn
    · rfl

theorem endThread_events (hn : ((σ.cache t).handles.map (·.table)).Nodup) :
    (endThread t σ).events = (σ.cache t).handles.map σ.farewell := by
  rcases endThread_cases σ t with ⟨hnone, hr⟩ | ⟨thread, -, hr⟩ <;> rw [hr]
  · rw [cache, hnone]
    rfl
  · exact closeCache_events hn

/-! ## Owners after a claim -/

theorem owner_of_claim {i : Nat} {slots : SlotTable} (hT : σ.tables.get? T = some shared)
    (hclaim : shared.slots.claim? k = some (i, slots)) : σ.owner ⟨T, i⟩ = none := by
  obtain ⟨⟨slot, hslot, hfree⟩, -, -⟩ := SlotTable.claim?_eq_some_iff.1 hclaim
  rw [owner_eq, slot?, hT, Option.bind_some, hslot, Option.bind_some, hfree]

theorem owner_claim {i : Nat} {slots : SlotTable} {refs : Nat} (hT : σ.tables.get? T = some shared)
    (hclaim : shared.slots.claim? k = some (i, slots)) (hτ : τ.tables.get? T = some ⟨slots, refs⟩)
    (hh : h.table = T) : τ.owner h = if h = ⟨T, i⟩ then some k else σ.owner h := by
  obtain ⟨⟨slot, hslot, -⟩, -, rfl⟩ := SlotTable.claim?_eq_some_iff.1 hclaim
  obtain ⟨T', j⟩ := h
  obtain rfl : T' = T := hh
  have hiff : (⟨T', j⟩ : Handle) = ⟨T', i⟩ ↔ i = j := by simp [eq_comm]
  rw [owner_eq, owner_eq, slot?, slot?, hT, hτ, Option.bind_some, Option.bind_some,
    SlotTable.getElem?_slots_modify]
  simp only [hiff]
  split
  · rename_i heq
    rw [← heq, hslot]
    rfl
  · rfl

namespace Aftermath

theorem owner_new (ha : Aftermath σ t new τ) (hh : h ∈ new) : τ.owner h = τ.tokenOf t := by
  obtain ⟨shared, slots, k, hT, hk, hclaim, hT'⟩ := ha.claimed h hh
  rw [owner_claim hT hclaim hT' rfl, if_pos rfl, hk]

theorem owner_of_none (ha : Aftermath σ t new τ) (hnew : h ∉ new) (ho : σ.owner h = none) :
    τ.owner h = none := by
  by_cases horphan : ∃ orphan ∈ σ.orphans t, orphan.table = h.table
  · obtain ⟨orphan, hmem, heq⟩ := horphan
    rw [owner, ← heq, ha.ended orphan hmem]
    rfl
  · by_cases hclaimed : ∃ hd ∈ new, hd.table = h.table
    · obtain ⟨hd, hmem, heq⟩ := hclaimed
      obtain ⟨shared, slots, k, hT, -, hclaim, hT'⟩ := ha.claimed hd hmem
      have hne : h ≠ ⟨hd.table, hd.slot⟩ := by
        rintro rfl
        exact hnew hmem
      rw [owner_claim hT hclaim hT' heq.symm, if_neg hne, ho]
    · rw [owner, ha.kept h.table (fun hd hmem heq => horphan ⟨hd, hmem, heq⟩)
        fun hd hmem heq => hclaimed ⟨hd, hmem, heq⟩]
      exact ho

end Aftermath

/-- A pop that comes by a handle has it in its cache, or claims it and keeps it, or claims it for
its own time. -/
theorem Passage.takes {o : Outcome α (Except Failure α)}
    (hpass : Passage σ t s stack own new k τ o) {d : Deed α} (hbefore : d.before = σ)
    (hafter : ∀ h, d.after.owner h = τ.owner h) :
    d.Takes (σ.arrival t own k ++ σ.departure t own k) := by
  subst hbefore
  have ha := hpass.aftermath
  have hmissing : d.before.cache t = .gone → own ∉ (d.before.cache t).handles := fun hgone => by
    rw [hgone]
    exact List.not_mem_nil
  cases hpass.finds with
  | cached found =>
    have hmem := List.mem_of_find?_eq_some found
    rw [arrival, if_pos hmem, departure, if_neg fun hgone => hmissing hgone hmem]
    exact .nothing fun h ho => (hafter h).trans (ha.owner_of_none (Option.not_mem_none h) ho)
  | claimed live table missing =>
    have hnot : own ∉ (d.before.cache t).handles := fun hmem => by
      simpa [table] using List.find?_eq_none.1 missing own hmem
    obtain ⟨shared, slots, k', hT, -, hclaim, -⟩ := ha.claimed own rfl
    rw [arrival, if_neg hnot, departure, if_neg live]
    refine .kept own k (owner_of_claim hT hclaim) ?_ fun h hne ho => ?_
    · rw [hafter, ha.owner_new rfl, hpass.token]
    · rw [hafter]
      exact ha.owner_of_none (fun hmem => hne (Option.some.inj hmem).symm) ho
  | passing gone table there first =>
    rw [← table] at there
    rw [arrival, if_neg (hmissing gone), departure, if_pos gone]
    exact .passing own k (owner_of_claim there first) fun h ho =>
      (hafter h).trans (ha.owner_of_none (Option.not_mem_none h) ho)

end State

namespace Deed.Takes

variable {d : Deed α} {taken : List (Event α)} {h : Handle}

theorem unseen (ht : d.Takes taken) (ho : (d.before.owner h).isSome) : seenOf h taken = [] := by
  have hne : ∀ {own}, d.before.owner own = none → h ≠ own := by
    rintro own hfree rfl
    rw [hfree] at ho
    cases ho
  cases ht with
  | nothing => rfl
  | kept own k free => exact seenOf_singleton_of_ne rfl (hne free)
  | passing own k free =>
    rw [← List.singleton_append, seenOf_append, seenOf_singleton_of_ne rfl (hne free),
      seenOf_singleton_of_ne rfl (hne free)]
    rfl

theorem turns (ht : d.Takes taken) (ho : d.before.owner h = none) :
    SlotTurns none (seenOf h taken) (d.after.owner h) := by
  cases ht with
  | nothing idle =>
    rw [idle h ho]
    exact .done
  | kept own k free owned idle =>
    by_cases heq : h = own
    · subst heq
      rw [seenOf_singleton rfl, owned]
      exact .claimed .done
    · rw [seenOf_singleton_of_ne rfl heq, idle h heq ho]
      exact .done
  | passing own k free idle =>
    rw [← List.singleton_append, seenOf_append, idle h ho]
    by_cases heq : h = own
    · subst heq
      rw [seenOf_singleton rfl, seenOf_singleton rfl]
      exact .claimed (.released .done)
    · rw [seenOf_singleton_of_ne rfl heq, seenOf_singleton_of_ne rfl heq]
      exact .done

end Deed.Takes

/-! ## What one operation shows of slots -/

section

variable [Disposable α] {σ τ : State α} {sign : HandleId → Token} {shown : HandleId → Address}
  {op : Op α} {t : ThreadId} {s : StackId} {h own : Handle} {k : Token} {stack : Stack α}
  {new : Option Handle}

theorem State.Sound.deals_of_returned (hσ : Sound σ sign shown) (hop : ¬op.Claims)
    (hevents : ∀ h, seenOf h (op.deed σ).events = seenOf h ((op.returns σ).map σ.farewell)) :
    (op.deed σ).Deals := by
  refine ⟨[], .nothing fun h ho => hσ.owner_of_none ho hop, fun h => ?_⟩
  rw [List.append_nil]
  exact hevents h

theorem State.Sound.deals_pop (hσ : Sound σ sign shown)
    (hn : ∀ t, ((σ.cache t).handles.map (·.table)).Nodup) (t : ThreadId) (s : StackId) :
    ((Op.pop t s).deed σ).Deals := by
  obtain ⟨hstate, hevents⟩ := state_deed_pop t s σ
  rcases pop_cases σ t s with ⟨hnot, hr⟩ | ⟨stack, thread, hs, ht⟩
  · rw [hr] at hstate hevents
    refine ⟨[], .nothing fun h ho => by rwa [hstate], fun h => ?_⟩
    have hreturns : (Op.pop t s).returns σ = [] := by
      rw [Op.returns]
      split
      · rename_i hs
        have hnone : σ.threads.get? t = none := Option.not_isSome_iff_eq_none.1 fun ht => hnot ⟨hs, ht⟩
        rw [orphans, cache, hnone]
        rfl
      · rfl
    rw [hevents, op_deed, before_deed, hreturns]
    rfl
  · have hreturns : (Op.pop t s).returns σ = σ.orphans t := by
      rw [Op.returns, hs, Option.isSome_some, if_pos rfl]
    rcases hσ.popsSo hs ht (hn t) with ⟨c, -, haftermath, k, hseen⟩ | ⟨own, new, k, τ, hpass⟩
    · refine ⟨[], .nothing fun h ho => ?_, fun h => ?_⟩
      · rw [hstate]
        exact haftermath.owner_of_none (Option.not_mem_none h) ho
      · rw [hevents, hseen, op_deed, before_deed, hreturns, seenOf_append, seenOf_append]
        rfl
    · obtain ⟨stack', mid, hp, hleft, hseen⟩ := hpass.popping
      refine ⟨_, hpass.takes rfl fun h => ?_, fun h => ?_⟩
      · rw [hstate, hleft]
        rfl
      · rw [hevents, hseen, op_deed, before_deed, hreturns]
        simp only [seenOf_append, hp.slotless.seenOf, List.append_assoc, List.nil_append]

theorem State.Sound.deals_acquire (hσ : Sound σ sign shown) (t : ThreadId) (T : TableId)
    (n : HandleId) : ((Op.acquire t T n).deed σ).Deals := by
  rcases acquire_cases σ t T n with ⟨-, hr⟩ | ⟨thread, ht, hT, -, hrun⟩
  · have hout : ((Op.acquire t T n).deed σ).outcome = _ := deed_eq rfl hr
    refine ⟨[], .nothing fun h ho => ?_, fun h => ?_⟩
    · rwa [Deed.after, hout]
    · rw [Deed.events, hout]
      rfl
  · obtain ⟨shared, hT⟩ := Option.isSome_iff_exists.1 hT
    obtain ⟨k, last, -, ⟨-, hclaim⟩ | ⟨i, slots, hslots, hclaim⟩⟩ := claim_eq ht hT
    · rw [hclaim] at hrun
      have hout : ((Op.acquire t T n).deed σ).outcome = _ := deed_eq rfl hrun
      refine ⟨[], .nothing fun h ho => ?_, fun h => ?_⟩
      · rw [Deed.after, hout]
        exact ho
      · rw [Deed.events, hout]
        rfl
    · rw [hclaim] at hrun
      have hout : ((Op.acquire t T n).deed σ).outcome = _ := deed_eq rfl hrun
      have howner : ∀ h, ((Op.acquire t T n).deed σ).after.owner h =
          if h = ⟨T, i⟩ then some k else σ.owner h := fun h => by
        rw [Deed.after, hout, owner_eq, owner_eq]
        refine (congrArg (Option.bind · (·.owner)) (hσ.slot?_claimed hT hslots h)).trans ?_
        split <;> rfl
      refine ⟨_, .kept ⟨T, i⟩ k (owner_of_claim hT hslots) ?_ fun h hne ho => ?_, fun h => ?_⟩
      · rw [howner, if_pos rfl]
      · rw [howner, if_neg hne]
        exact ho
      · rw [Deed.events, hout]
        rfl

theorem State.Sound.deals_of_slotless (hσ : Sound σ sign shown) {β : Type} {x : Action α β}
    {f : β → Answer α} (hrun : op.run = do return f (← x)) (hop : ¬op.Claims)
    (hreturns : op.returns σ = []) (hevents : Slotless (x σ).events) : (op.deed σ).Deals := by
  refine hσ.deals_of_returned hop fun h => ?_
  rw [events_deed_of_run hrun, hevents.seenOf, hreturns]
  rfl

/-- Every operation gives back what it returns, and may claim a slot besides. -/
theorem State.Sound.deals (hσ : Sound σ sign shown)
    (hn : ∀ t, ((σ.cache t).handles.map (·.table)).Nodup) (op : Op α) : (op.deed σ).Deals := by
  cases op with
  | newTable T c =>
    refine hσ.deals_of_slotless rfl id rfl ?_
    rcases newTable_cases σ T c with ⟨e, hr⟩ | ⟨-, -, hr⟩ <;> rw [hr] <;> exact slotless_nil
  | shareTable T =>
    refine hσ.deals_of_slotless rfl id rfl ?_
    rcases shareTable_cases σ T with ⟨-, hr⟩ | ⟨-, hr⟩ <;> rw [hr] <;> exact slotless_nil
  | dropTable T =>
    refine hσ.deals_of_slotless rfl id rfl ?_
    rcases dropTable_cases σ T with ⟨-, hr⟩ | ⟨-, hr⟩ <;> rw [hr] <;> exact slotless_nil
  | newStack s T =>
    refine hσ.deals_of_slotless rfl id rfl ?_
    rcases newStack_cases σ s T with ⟨-, hr⟩ | ⟨-, -, hr⟩ <;> rw [hr] <;> exact slotless_nil
  | newStackOwning s T c =>
    refine hσ.deals_of_slotless rfl id rfl ?_
    rcases newStackOwning_cases σ s T c with ⟨e, hr⟩ | ⟨-, -, hr⟩ <;> rw [hr] <;> exact slotless_nil
  | dropStack s =>
    refine hσ.deals_of_slotless rfl id rfl ?_
    rcases dropStack_cases σ s with ⟨-, hr⟩ | ⟨stack, result, -, -, hr⟩ <;> rw [hr]
    · exact slotless_nil
    · exact (slotless_dismantle s _).append (slotless_map_freed s _)
  | push s b v =>
    refine hσ.deals_of_slotless rfl id rfl ?_
    rcases push_cases σ s b v with ⟨-, hr⟩ | ⟨stack, -, -, hr⟩ <;> rw [hr] <;> exact slotless_nil
  | pop t s => exact hσ.deals_pop hn t s
  | popWith s n =>
    refine hσ.deals_of_slotless rfl id rfl ?_
    rcases popWith_cases σ s n with ⟨-, hr⟩ | ⟨stack, handle, -, -, -, hr⟩ |
      ⟨stack, handle, stack', mid, value, -, -, -, hr, hp⟩ <;> rw [hr]
    · exact slotless_nil
    · exact slotless_nil
    · exact hp.slotless
  | reclaim s =>
    refine hσ.deals_of_slotless rfl id rfl ?_
    rcases reclaim_cases σ s with ⟨-, hr⟩ | ⟨stack, count, -, hr⟩ <;> rw [hr]
    · exact slotless_nil
    · exact Limbo.slotless_sweepEvents s _ stack.limbo
  | acquire t T n => exact hσ.deals_acquire t T n
  | release n =>
    refine hσ.deals_of_returned id fun h => ?_
    rw [events_deed_of_run rfl]
    rcases release_cases σ n with ⟨hnone, hr⟩ | ⟨handle, hsome, hr⟩ <;> rw [hr, Op.returns]
    · rw [hnone]
      rfl
    · rw [hsome]
      rfl
  | publish n a =>
    refine hσ.deals_of_slotless rfl id rfl ?_
    rcases publish_cases σ n a with ⟨-, hr⟩ | ⟨handle, -, hr⟩ <;> rw [hr] <;> exact slotless_nil
  | startThread t =>
    refine hσ.deals_of_slotless rfl id rfl ?_
    rcases startThread_cases σ t with ⟨-, hr⟩ | ⟨-, hr⟩ <;> rw [hr] <;> exact slotless_nil
  | hookExit t =>
    refine hσ.deals_of_slotless rfl id rfl ?_
    rcases hookExit_cases σ t with ⟨-, hr⟩ | ⟨thread, first, -, hr⟩ <;> rw [hr] <;>
      exact slotless_nil
  | beginExit t =>
    refine hσ.deals_of_returned id fun h => ?_
    rw [events_deed_of_run rfl, beginExit_events (hn t)]
  | endThread t =>
    refine hσ.deals_of_returned id fun h => ?_
    rw [events_deed_of_run rfl, endThread_events (hn t)]
    rfl

/-! ## Owned slots, and whole runs -/

theorem State.Sound.seenOf_events (hσ : Sound σ sign shown)
    (hn : ∀ t, ((σ.cache t).handles.map (·.table)).Nodup) (op : Op α) (ho : (σ.owner h).isSome) :
    seenOf h (op.deed σ).events = if h ∈ op.returns σ then [σ.farewell h] else [] := by
  obtain ⟨taken, htakes, hseen⟩ := hσ.deals hn op
  rw [hseen, seenOf_append, htakes.unseen ho, List.append_nil]
  exact seenOf_farewells σ (nodup_returns hn op)

/-- What an operation shows of a slot accounts for its owner. -/
theorem State.Sound.turns (hσ : Sound σ sign shown)
    (hn : ∀ t, ((σ.cache t).handles.map (·.table)).Nodup) (op : Op α) (h : Handle) :
    SlotTurns (σ.owner h) (seenOf h (op.deed σ).events) ((op.deed σ).after.owner h) := by
  cases ho : σ.owner h with
  | some k =>
    rw [hσ.seenOf_events hn op (by rw [ho]; rfl)]
    split
    · rename_i hr
      rw [hσ.owner_returned hn hr, farewell, ho]
      exact .released .done
    · rename_i hr
      rw [hσ.owner_kept ho hr]
      exact .done
  | none =>
    obtain ⟨taken, htakes, hseen⟩ := hσ.deals hn op
    have hnot : h ∉ op.returns σ := fun hr => by
      have hsome := hσ.isSome_owner_of_returns hr
      rw [ho] at hsome
      cases hsome
    have hfarewells := seenOf_farewells (h := h) σ (nodup_returns hn op)
    rw [if_neg hnot] at hfarewells
    rw [hseen, seenOf_append, op_deed, before_deed, hfarewells]
    exact htakes.turns ho

/-- In every run the claims and returns of a slot take turns, and tell its owner. -/
theorem Op.turns_after (ops : List (Op α)) (h : Handle) :
    SlotTurns none (seenOf h ((history ops).flatMap (·.events))) ((after ops).owner h) := by
  induction ops using List.reverseRecOn with
  | nil =>
    have hidle : (after ([] : List (Op α))).owner h = none := by
      refine Option.eq_none_iff_forall_ne_some.2 fun k hk => ?_
      rcases (sound_initial (fun _ => 0) fun _ => .null).held_or_cached hk with ⟨n, hn⟩ | ⟨t, hh, -⟩
      · cases hn
      · cases hh
    rw [hidle]
    exact .done
  | append_singleton ops op ih =>
    obtain ⟨sign, shown, hsound, -⟩ := sound_after ops
    rw [history_concat, List.flatMap_append, seenOf_append, after_concat, List.flatMap_singleton]
    exact ih.append (hsound.turns (nodup_cached_tables ops) op h)

end

end HazardLifo
