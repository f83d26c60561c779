import HazardLifo.Proofs.Histories.Aftermath
import HazardLifo.Proofs.Histories.Nodes

/-!
# Two ways to pop

A pop by a thread goes through a handle that the thread has or claims, a pop of a caller through the
caller's handle. If this handle is cleared first, both do the same to the stack (`pops_agree`): the
slot that the thread's handle stands for published nothing before, and pruning touches no table of a
stack, so which blocks are published is the same on both sides, and by this and the stack a pop is
determined.
-/

namespace HazardLifo

variable {α : Type}

open State Op

/-- The deed `a` is a pop by thread `t` after the handle `h` was cleared, the deed `b` a pop through
`h`. They do the same to all stacks, and differ in what thread `t` does for a handle of its own. -/
structure PopsAlike (t : ThreadId) (h own : Handle) (new : Option Handle) (a b : Deed α) : Prop where
  answer : a.answer = b.answer
  lifos : a.after.lifos = b.after.lifos
  freed : a.freed = b.freed
  /-- Whatever is seen of nodes is the same. Around it is seen which handles thread `t` gives back
  or claims. -/
  events : ∃ k, a.events = (a.before.orphans t).map a.before.farewell ++ a.before.arrival t own k ++
    b.events ++ a.before.departure t own k
  aftermath : Aftermath b.after t new a.after
  dead : ∀ orphan ∈ b.after.orphans t, b.after.Forsaken orphan
  shown : ∀ hd, (∀ orphan ∈ b.after.orphans t, orphan.table ≠ hd.table) →
    (a.after.slot? hd).map (·.published) = (b.after.slot? hd).map (·.published)
  cleared : (a.after.slot? h).map (·.published) = some .null ∧
    (b.after.slot? h).map (·.published) = some .null

namespace State

variable {σ σ' : State α} {t : ThreadId} {new : Option Handle}

theorem Aftermath.setStack (ha : Aftermath σ t new σ') (s : StackId) (stack : Stack α) :
    Aftermath (σ.setStack s stack) t new (σ'.setStack s stack) where
  frame := by
    rw [State.setStack, ha.frame]
    rfl
  others := ha.others
  cache := ha.cache
  ended := ha.ended
  claimed := ha.claimed
  kept := ha.kept

end State

section

variable [Disposable α] {σ τ : State α} {t : ThreadId} {s : StackId} {n : HandleId} {stack : Stack α}
  {h own : Handle} {new : Option Handle} {k : Token} {sign : HandleId → Token}
  {shown : HandleId → Address}

/-- Once the thread has come by a handle, the two pops are alike. -/
theorem PopsAlike.of_passage (hσ : Sound σ sign shown) (hs : σ.lifos.get? s = some stack)
    (hn : σ.handles.get? n = some h) (hT : h.table = stack.table)
    (hpass : Passage (σ.silence h) t s stack own new k τ (State.pop t s (σ.silence h))) :
    PopsAlike t h own new ((Op.pop t s).deed (σ.silence h)) ((Op.popWith s n).deed σ) := by
  obtain ⟨stack', mid, hwith, hp⟩ := popWith_of_table hs hn hT
  obtain ⟨stack'', mid', hp', hstate, hevents⟩ := hpass.popping
  rw [hpass.value] at hp'
  obtain ⟨rfl, rfl⟩ := hp'.unique hp
  have ha := outcome_pop t s (σ.silence h)
  have hb : ((Op.popWith s n).deed σ).outcome = _ := deed_eq rfl hwith
  have hafter_a : ((Op.pop t s).deed (σ.silence h)).after = τ.setStack s stack'' := by
    rw [Deed.after, ha, hstate]
  have hafter_b : ((Op.popWith s n).deed σ).after = (σ.silence h).setStack s stack'' := by
    rw [Deed.after, hb]
  have hevents_a : ((Op.pop t s).deed (σ.silence h)).events = _ :=
    (congrArg Outcome.events ha).trans hevents
  have hevents_b : ((Op.popWith s n).deed σ).events = mid' := congrArg Outcome.events hb
  -- the table of the handle is the stack's, so it is not pruned
  have hsilent : Sound (σ.silence h) sign (Function.update shown n .null) := hσ.publish hn .null
  have horphans : ∀ orphan ∈ (σ.silence h).orphans t, orphan.table ≠ h.table := fun _ ho =>
    hT ▸ hsilent.ne_of_mem_orphans hs ho
  have hnull := published_silence (hσ.isSome_slot?_of_handle hn)
  have hlifos : τ.lifos = σ.lifos := hpass.aftermath.lifos
  have haftermath := hpass.aftermath.setStack s stack''
  obtain ⟨sign', hstep⟩ := hσ.step (.popWith s n)
  refine ⟨?_, ?_, ?_, ⟨k, ?_⟩, ?_, fun orphan ho => ?_, ?_, ?_⟩
  · rw [Deed.answer, ha, hpass.value, Deed.answer, hb]
  · rw [hafter_a, hafter_b, State.setStack, State.setStack, hlifos]
    rfl
  · rw [Deed.freed, Deed.freed, hevents_a, hevents_b, freedIn_around]
  · rw [hevents_a, hevents_b]
    rfl
  · rwa [hafter_a, hafter_b]
  · exact (hstep.sound.mem_orphans_iff.1 ho).2
  · rw [hafter_a, hafter_b]
    exact fun hd hold => haftermath.published hold
  · rw [hafter_a, hafter_b]
    exact ⟨(hpass.aftermath.published horphans).trans hnull, hnull⟩

end

namespace Op

variable [Disposable α]

theorem after_clear {ops : List (Op α)} {n : HandleId} {h : Handle}
    (hn : (after ops).handles.get? n = some h) :
    after (ops ++ [.publish n .null]) = (after ops).silence h := by
  rcases publish_cases (after ops) n .null with ⟨hnone, -⟩ | ⟨handle, hhandle, hrun⟩
  · cases hn.symm.trans hnone
  · obtain rfl := Option.some.inj (hn.symm.trans hhandle)
    have hout : ((Op.publish n .null).deed (after ops)).outcome = _ := deed_eq rfl hrun
    rw [after_concat]
    exact congrArg Outcome.state hout

/-- A thread that comes by a handle pops as a caller does through a handle of the table that was
cleared first. -/
theorem pops_agree (ops : List (Op α)) {t : ThreadId} {s : StackId} {n : HandleId} {stack : Stack α}
    {h : Handle} (hs : (after ops).lifos.get? s = some stack)
    (hn : (after ops).handles.get? n = some h) (hT : h.table = stack.table)
    (ht : ((after ops).threads.get? t).isSome)
    (hobtains : ∀ c, ((Op.pop t s).deed (after (ops ++ [.publish n .null]))).answer ≠
      .failed (.pop (.exhausted c))) :
    ∃ own new, (after (ops ++ [.publish n .null])).Finds t stack.table own new ∧
      PopsAlike t h own new ((Op.pop t s).deed (after (ops ++ [.publish n .null])))
        ((Op.popWith s n).deed (after ops)) := by
  obtain ⟨thread, ht⟩ := Option.isSome_iff_exists.1 ht
  obtain ⟨sign, shown, hsound, -⟩ := sound_after ops
  have hnodup := nodup_cached_tables (ops ++ [.publish n .null]) t
  rw [after_clear hn] at hnodup hobtains ⊢
  have hsilent : Sound ((after ops).silence h) sign (Function.update shown n .null) :=
    hsound.publish hn .null
  rcases hsilent.popsSo hs ht hnodup with ⟨c, hv, -⟩ | ⟨own, new, k, τ, hpass⟩
  · refine absurd ?_ (hobtains c)
    rw [Deed.answer, outcome_pop, hv]
    rfl
  · exact ⟨own, new, hpass.finds, .of_passage hsound hs hn hT hpass⟩

/-- Two callers protect nodes of a stack, one of which is popped. -/
def protectedPop : List (Op (Option String)) :=
  [.newTable 1 3, .newStack 2 1, .startThread 3, .acquire 3 1 4, .acquire 3 1 5, .push 2 6 none,
    .push 2 7 none, .publish 4 (.block 7), .publish 5 (.block 6), .pop 3 2]

/-- The second node is popped, and retired since the second handle protects it; the first is freed
since its handle is cleared. -/
theorem pops_agree_on_protected :
    (∃ own new, (after (protectedPop ++ [.publish 4 .null])).Finds 3 1 own new ∧
      PopsAlike 3 ⟨1, 0⟩ own new ((Op.pop 3 2).deed (after (protectedPop ++ [.publish 4 .null])))
        ((Op.popWith 2 4).deed (after protectedPop))) ∧
      ((Op.popWith 2 4).deed (after protectedPop)).freed = [(2, 7)] ∧
      ((Op.popWith 2 4).deed (after protectedPop)).after.limboOf 2 = [6] :=
  have hs : (after protectedPop).lifos.get? 2 = some ⟨1, [⟨6, none⟩], ⟨[7], 1⟩⟩ := rfl
  have hobtains : ∀ c, ((Op.pop 3 2).deed (after (protectedPop ++ [.publish 4 .null]))).answer ≠
      .failed (.pop (.exhausted c)) := nofun
  ⟨pops_agree protectedPop hs rfl rfl rfl hobtains, rfl, rfl⟩

end Op

end HazardLifo
