import HazardLifo.Proofs.Histories.Aftermath

/-!
# What a failure leaves behind

An operation that fails for want of a slot, of a value or of the right handle may have got some way
before it failed: a pop has pruned its thread's cache, has perhaps claimed a slot, and has published
addresses. `failures_leave_intact` says for each of the four kinds of failures what is left of this.
-/

namespace HazardLifo

variable {α : Type}

namespace State

variable {σ σ' : State α} {t : ThreadId} {s : StackId} {T : TableId} {thread : Thread}
  {stack : Stack α} {shared : SharedTable} {h own : Handle} {hs : List Handle} {k last : Token}
  {new : Option Handle} {sign : HandleId → Token} {shown : HandleId → Address}

/-! ## Pops that fail -/

/-- What a pop by thread `t` that finds its stack empty leaves, and what is seen of it. -/
structure EmptyPop (σ : State α) (t : ThreadId) (T : TableId) (own : Handle) (new : Option Handle)
    (σ' : State α) (events : List (Event α)) : Prop where
  finds : σ.Finds t T own new
  aftermath : Aftermath σ t new σ'
  quiet : OnlyNotices events
  own : (σ'.slot? own).map (·.published) = some .null
  others : ∀ hd, (∀ h ∈ σ.orphans t, h.table ≠ hd.table) →
    (σ'.slot? hd).map (·.published) = (σ.slot? hd).map (·.published)

theorem EmptyPop.of_aftermath {events : List (Event α)} (hf : σ.Finds t T own new)
    (ha : Aftermath σ t new σ') (hq : OnlyNotices events)
    (horphans : ∀ h ∈ σ.orphans t, h.table ≠ own.table)
    (hnull : (σ.slot? own).map (·.published) = some .null) :
    EmptyPop σ t T own new σ' events :=
  ⟨hf, ha, hq, (ha.published horphans).trans hnull, fun _ hold => ha.published hold⟩

/-- A failed pop leaves no more than it has to, and lets no more be seen. -/
structure PopLeaves (σ : State α) (t : ThreadId) (T : TableId)
    (o : Outcome α (Except Failure α)) : Prop where
  starved : ∀ c, o.value = .error (.pop (.exhausted c)) → StarvedPop σ t T c o.state o.events
  empty : o.value = .error (.pop .empty) → ∃ own new, EmptyPop σ t T own new o.state o.events

theorem nodes_eq_nil (h : stack.content = []) : stack.nodes = [] := List.map_eq_nil_iff.1 h

theorem Popping.of_firstOf_nil {published : Block → Bool} {stack' : Stack α} {mid : List (Event α)}
    (hp : Popping s published stack stack' mid (firstOf [])) : stack' = stack ∧ mid = [] := by
  cases hp with
  | empty => exact ⟨rfl, rfl⟩

theorem eq_nil_of_firstOf {content : List α} (h : firstOf content = .error (.pop .empty)) :
    content = [] := by
  cases content with
  | nil => rfl
  | cons v rest => cases h

theorem Sound.popLeaves (hσ : Sound σ sign shown) (hs : σ.lifos.get? s = some stack)
    (ht : σ.threads.get? t = some thread) (hn : ((σ.cache t).handles.map (·.table)).Nodup) :
    PopLeaves σ t stack.table (pop t s σ) := by
  have horphans : ∀ h ∈ σ.orphans t, h.table ≠ stack.table := fun h hh =>
    hσ.ne_of_mem_orphans hs hh
  rcases hσ.popsSo hs ht hn with ⟨c, hv, hleaves⟩ | ⟨own, new, k, τ, hpass⟩
  · refine ⟨fun c' hv' => ?_, fun hv' => ?_⟩
    · rw [hv] at hv'
      obtain rfl : c = c' := by simpa using hv'
      exact hleaves
    · rw [hv] at hv'
      simp at hv'
  · refine ⟨fun c hv => ?_, fun hv => ⟨own, new, ?_⟩⟩
    · rw [hpass.value] at hv
      exact absurd (congrArg (Answer.ofExcept .popped) hv) (answer_firstOf_ne_exhausted _ c)
    · have hnil := eq_nil_of_firstOf (hpass.value.symm.trans hv)
      obtain ⟨stack', mid, hp, hstate, hevents⟩ := hpass.popping
      rw [hpass.value, hnil] at hp
      obtain ⟨rfl, rfl⟩ := hp.of_firstOf_nil
      rw [setStack_self (by rw [hpass.aftermath.lifos, hs])] at hstate
      rw [hstate, hevents, List.append_nil]
      refine .of_aftermath hpass.finds hpass.aftermath ?_ (hpass.finds.table ▸ horphans) hpass.silent
      exact ((onlyNotices_farewells _ σ).append (onlyNotices_arrival σ t own k)).append
        (onlyNotices_departure σ t own k)

end State

/-! ## Operations that fail -/

open State Op

/-- What a failed operation would leave behind, for each way in which one can fail in this state. -/
structure State.FailsIntact [Disposable α] (σ : State α) : Prop where
  acquire : ∀ t T n c, ((Op.acquire t T n).deed σ).answer = .failed (.pop (.exhausted c)) →
    ∃ thread k last, σ.threads.get? t = some thread ∧ σ.Draws thread k last ∧
      ((Op.acquire t T n).deed σ).after = σ.withToken t k last ∧
      ((Op.acquire t T n).deed σ).events = [.notice (.exhausted T k c)]
  /-- A pop that finds no free slot has given the orphans of its thread's cache back before. -/
  starved : ∀ t s c, ((Op.pop t s).deed σ).answer = .failed (.pop (.exhausted c)) →
    ∃ stack, σ.lifos.get? s = some stack ∧ σ.StarvedPop t stack.table c
      ((Op.pop t s).deed σ).after ((Op.pop t s).deed σ).events
  orphans : ∀ t h, h ∈ σ.orphans t ↔ h ∈ (σ.cache t).handles ∧ σ.Forsaken h
  /-- A pop from an empty stack clears its handle, and may have claimed it before. -/
  empty : ∀ t s, ((Op.pop t s).deed σ).answer = .failed (.pop .empty) →
    ∃ stack own new, σ.lifos.get? s = some stack ∧ σ.EmptyPop t stack.table own new
      ((Op.pop t s).deed σ).after ((Op.pop t s).deed σ).events
  /-- So does a pop through a handle of the caller's, and it does nothing else. -/
  through : ∀ s n, ((Op.popWith s n).deed σ).answer = .failed (.pop .empty) →
    ∃ own, σ.handles.get? n = some own ∧ ((Op.popWith s n).deed σ).events = [] ∧
      (let σ' := ((Op.popWith s n).deed σ).after
      σ' = { σ with tables := σ'.tables } ∧
        (∀ T, σ'.refs T = σ.refs T) ∧
        σ'.slot? own = (σ.slot? own).map ({ · with published := .null }) ∧
        (σ'.slot? own).map (·.published) = some .null ∧
        ∀ h ≠ own, σ'.slot? h = σ.slot? h)
  /-- A handle of another table is found out before anything is done. -/
  foreign : ∀ s n stack handle, σ.lifos.get? s = some stack → σ.handles.get? n = some handle →
    handle.table ≠ stack.table →
      ((Op.popWith s n).deed σ).outcome = ⟨σ, [], .failed (.fault .foreignHandle)⟩

section

variable [Disposable α] {σ : State α} {sign : HandleId → Token} {shown : HandleId → Address}

/-- An acquire that finds no free slot at most draws the token of its thread. -/
theorem State.acquire_exhausted {t : ThreadId} {T : TableId} {n : HandleId} {c : Nat}
    (hanswer : ((Op.acquire t T n).deed σ).answer = .failed (.pop (.exhausted c))) :
    ∃ thread k last, σ.threads.get? t = some thread ∧ σ.Draws thread k last ∧
      ((Op.acquire t T n).deed σ).after = σ.withToken t k last ∧
      ((Op.acquire t T n).deed σ).events = [.notice (.exhausted T k c)] := by
  rcases acquire_cases σ t T n with ⟨-, hr⟩ | ⟨thread, ht, hT, -, hrun⟩
  · have hout : ((Op.acquire t T n).deed σ).outcome = _ := deed_eq rfl hr
    rw [Deed.answer, hout] at hanswer
    cases hanswer
  · obtain ⟨shared, hshared⟩ := Option.isSome_iff_exists.1 hT
    obtain ⟨k, last, hd, ⟨-, hclaim⟩ | ⟨i, slots, -, hclaim⟩⟩ := claim_eq ht hshared
    · rw [hclaim] at hrun
      have hout : ((Op.acquire t T n).deed σ).outcome = _ := deed_eq rfl hrun
      rw [Deed.answer, hout] at hanswer
      have hc : shared.slots.capacity = c := by
        injection hanswer with hf
        injection hf with hp
        injection hp
      subst hc
      refine ⟨thread, k, last, ht, hd, ?_, ?_⟩
      · rw [Deed.after, hout]
      · rw [Deed.events, hout]
    · rw [hclaim] at hrun
      have hout : ((Op.acquire t T n).deed σ).outcome = _ := deed_eq rfl hrun
      rw [Deed.answer, hout] at hanswer
      cases hanswer

theorem State.Sound.pop_failed (h : Sound σ sign shown) {t : ThreadId} {s : StackId} {e : PopError}
    (hn : ((σ.cache t).handles.map (·.table)).Nodup)
    (hanswer : ((Op.pop t s).deed σ).answer = .failed (.pop e)) :
    ∃ stack, σ.lifos.get? s = some stack ∧ (State.pop t s σ).value = .error (.pop e) ∧
      PopLeaves σ t stack.table (State.pop t s σ) := by
  have hvalue : Answer.ofExcept .popped (State.pop t s σ).value = .failed (.pop e) := hanswer
  rcases pop_cases σ t s with ⟨-, hr⟩ | ⟨stack, thread, hs, ht⟩
  · rw [hr] at hvalue
    cases hvalue
  · refine ⟨stack, hs, ?_, h.popLeaves hs ht hn⟩
    cases hv : (State.pop t s σ).value with
    | ok v =>
      rw [hv] at hvalue
      cases hvalue
    | error f =>
      rw [hv] at hvalue
      exact congrArg _ (Answer.failed.inj hvalue)

/-- A pop through a handle of the caller's from an empty stack clears the handle. -/
theorem State.popWith_empty {s : StackId} {n : HandleId}
    (hanswer : ((Op.popWith s n).deed σ).answer = .failed (.pop .empty)) :
    ∃ own, σ.handles.get? n = some own ∧
      ((Op.popWith s n).deed σ).outcome = ⟨σ.silence own, [], .failed (.pop .empty)⟩ := by
  have hvalue : Answer.ofExcept .popped (State.popWith s n σ).value = .failed (.pop .empty) :=
    hanswer
  cases hs : σ.lifos.get? s with
  | none => simp [State.popWith, Action.bind_apply, hs, Answer.ofExcept] at hvalue
  | some stack =>
    cases hn : σ.handles.get? n with
    | none => simp [State.popWith, Action.bind_apply, hs, hn, Answer.ofExcept] at hvalue
    | some own =>
      refine ⟨own, rfl, ?_⟩
      have hpop := popWith_eq hs hn
      split at hpop
      · rw [hpop, value_popThrough own hs] at hvalue
        have hnil : stack.content = [] := by
          cases hcontent : stack.content with
          | nil => rfl
          | cons v rest =>
            rw [hcontent] at hvalue
            cases hvalue
        rw [popThrough_of_nil hs (nodes_eq_nil hnil)] at hpop
        exact deed_eq (f := .ofExcept .popped) rfl hpop
      · rw [hpop] at hvalue
        cases hvalue

/-- Failed operations leave the state intact, in every run. -/
theorem Op.failures_leave_intact (ops : List (Op α)) : (after ops).FailsIntact := by
  obtain ⟨sign, shown, hsound, -⟩ := sound_after ops
  have hn := nodup_cached_tables ops
  refine ⟨fun t T n c => acquire_exhausted, fun t s c hanswer => ?_, fun t h => hsound.mem_orphans_iff,
    fun t s hanswer => ?_, fun s n hanswer => ?_, fun s n stack handle hs hh hT => ?_⟩
  · obtain ⟨stack, hs, hv, hleaves⟩ := hsound.pop_failed (hn t) hanswer
    obtain ⟨hafter, hevents⟩ := state_deed_pop t s (after ops)
    rw [hafter, hevents]
    exact ⟨stack, hs, hleaves.starved c hv⟩
  · obtain ⟨stack, hs, hv, hleaves⟩ := hsound.pop_failed (hn t) hanswer
    obtain ⟨hafter, hevents⟩ := state_deed_pop t s (after ops)
    obtain ⟨own, new, hempty⟩ := hleaves.empty hv
    rw [hafter, hevents]
    exact ⟨stack, own, new, hs, hempty⟩
  · obtain ⟨own, hown, hout⟩ := popWith_empty hanswer
    rw [Deed.events, Deed.after, hout]
    have hslot := slot?_silence (σ := after ops) own
    have hown' := (hslot own).trans (if_pos rfl)
    refine ⟨own, hown, rfl, rfl, fun T => refs_setSlots .., hown', ?_, fun h hne => ?_⟩
    · obtain ⟨slot, hsome⟩ := Option.isSome_iff_exists.1 (hsound.isSome_slot?_of_handle hown)
      rw [hown', hsome]
      rfl
    · exact (hslot h).trans (if_neg hne)
  · have hpop := popWith_eq hs hh
    rw [if_neg hT] at hpop
    exact deed_eq (f := .ofExcept .popped) rfl hpop

/-- Thread 5 caches a handle of table 4, to which nothing else refers. Two stacks are left, both
empty: stack 2 over table 1, whose one slot is taken, and stack 7 over table 6, which has free
slots. -/
def Op.orphaned : List (Op (Option String)) :=
  [.newTable 1 1, .newStack 2 1, .newStackOwning 3 4 1, .startThread 5, .newTable 6 2, .newStack 7 6,
    .pop 5 3, .dropStack 3, .startThread 8, .acquire 8 1 9, .startThread 10]

theorem Op.orphaned_pops_fail_intact :
    let σ := after orphaned
    (((Op.acquire 10 1 11).deed σ).answer = .failed (.pop (.exhausted 1)) ∧
      ∃ thread k last, σ.threads.get? 10 = some thread ∧ σ.Draws thread k last ∧
        ((Op.acquire 10 1 11).deed σ).after = σ.withToken 10 k last ∧
        ((Op.acquire 10 1 11).deed σ).events = [.notice (.exhausted 1 k 1)]) ∧
    (((Op.pop 5 2).deed σ).answer = .failed (.pop (.exhausted 1)) ∧
      ((Op.pop 5 2).deed σ).events =
        [.notice (.released 4 (some 1) 0), .notice (.exhausted 1 1 1)] ∧
      ∃ stack, σ.lifos.get? 2 = some stack ∧ σ.StarvedPop 5 stack.table 1
        ((Op.pop 5 2).deed σ).after ((Op.pop 5 2).deed σ).events) ∧
    (⟨4, 0⟩ ∈ σ.orphans 5 ∧ σ.Forsaken ⟨4, 0⟩) ∧
    (((Op.pop 5 7).deed σ).answer = .failed (.pop .empty) ∧
      ∃ stack own new, σ.lifos.get? 7 = some stack ∧ σ.EmptyPop 5 stack.table own new
        ((Op.pop 5 7).deed σ).after ((Op.pop 5 7).deed σ).events) ∧
    (((Op.popWith 2 9).deed σ).answer = .failed (.pop .empty) ∧
      ∃ own, σ.handles.get? 9 = some own ∧ ((Op.popWith 2 9).deed σ).events = [] ∧
        ∀ h ≠ own, ((Op.popWith 2 9).deed σ).after.slot? h = σ.slot? h) ∧
    ((Op.popWith 7 9).deed σ).outcome = ⟨σ, [], .failed (.fault .foreignHandle)⟩ := by
  have h := failures_leave_intact orphaned
  have horphan : (⟨4, 0⟩ : Handle) ∈ (after orphaned).orphans 5 := by decide +kernel
  obtain ⟨own, hown, hevents, -, -, -, -, hothers⟩ := h.through 2 9 rfl
  exact ⟨⟨rfl, h.acquire 10 1 11 1 rfl⟩, ⟨rfl, rfl, h.starved 5 2 1 rfl⟩,
    ⟨horphan, ((h.orphans 5 ⟨4, 0⟩).1 horphan).2⟩, ⟨rfl, h.empty 5 7 rfl⟩,
    ⟨rfl, own, hown, hevents, hothers⟩, h.foreign 7 9 _ _ rfl rfl (by decide)⟩

end

end HazardLifo
