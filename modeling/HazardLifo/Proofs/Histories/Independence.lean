import HazardLifo.Proofs.Histories.Alike

/-!
# Stacks do not influence each other

Two runs, one of which lacks pushes on a stack `B`, pops of threads from it and reclaims of it that
the other one has. They drift apart: threads claim other slots at other times, or none, draw other
tokens, and prune at other times. But they lead to alike states all along, by induction on the run
(`Comparable.alike`), so every other stack is in the same state in both (`stacks_independent`).
-/

namespace HazardLifo

variable {α : Type}

open State Op

/-! ## Runs -/

/-- An operation of a run, and whether the shorter run has it too. -/
structure Entry (α : Type) where
  op : Op α
  kept : Bool

def fullRun (plan : List (Entry α)) : List (Op α) := plan.map (·.op)

def thinnedRun (plan : List (Entry α)) : List (Op α) := (plan.filter (·.kept)).map (·.op)

theorem fullRun_append (plan more : List (Entry α)) :
    fullRun (plan ++ more) = fullRun plan ++ fullRun more := List.map_append

theorem thinnedRun_append (plan more : List (Entry α)) :
    thinnedRun (plan ++ more) = thinnedRun plan ++ thinnedRun more := by
  rw [thinnedRun, List.filter_append, List.map_append]
  rfl

@[simp] theorem fullRun_singleton (op : Op α) (kept : Bool) : fullRun [⟨op, kept⟩] = [op] := rfl

/-- The handles of callers publish the same in two sound states. -/
def SoundAlike (σ τ : State α) : Prop :=
  ∃ sign sign' shown, Sound σ sign shown ∧ Sound τ sign' shown

section

variable [Disposable α] {A B : StackId} {plan past more : List (Entry α)} {op : Op α}

/-- What is left out are pushes on stack `B`, pops of threads from it and reclaims of it. No two
nodes of the full run lie in one block, all calls of it are proper, and neither run lacks a slot. -/
structure Comparable (B : StackId) (plan : List (Entry α)) : Prop where
  omitted : ∀ e ∈ plan, e.kept = false → e.op.Omissible B
  fresh : ((fullRun plan).filterMap Op.block?).Nodup
  proper : ∀ d ∈ history (fullRun plan), d.Proper
  enough : ∀ d ∈ history (fullRun plan), d.answer.isExhausted = false
  enough_thinned : ∀ d ∈ history (thinnedRun plan), d.answer.isExhausted = false

theorem Comparable.of_append (h : Comparable B (past ++ more)) : Comparable B past where
  omitted e he := h.omitted e (List.mem_append_left _ he)
  fresh := by
    have hfresh := h.fresh
    rw [fullRun_append, List.filterMap_append] at hfresh
    exact hfresh.of_append_left
  proper d hd := by
    refine h.proper d ?_
    rw [fullRun_append, history_append]
    exact List.mem_append_left _ hd
  enough d hd := by
    refine h.enough d ?_
    rw [fullRun_append, history_append]
    exact List.mem_append_left _ hd
  enough_thinned d hd := by
    refine h.enough_thinned d ?_
    rw [thinnedRun_append, history_append]
    exact List.mem_append_left _ hd

theorem Op.mem_pushed_of_mem_blocks {ops : List (Op α)} {b : Block} (hb : b ∈ (after ops).blocks) :
    b ∈ ops.filterMap Op.block? := by
  induction ops using List.reverseRecOn with
  | nil => cases hb
  | append_singleton ops op ih =>
    rw [after_concat, ← after_deed] at hb
    rw [List.filterMap_append]
    have hmem := ((effect ops op).blocks_balance.mem_iff (a := b)).2 (List.mem_append_right _ hb)
    rcases List.mem_append.1 hmem with hnew | hold
    · obtain ⟨⟨s, node⟩, he, rfl⟩ := List.mem_map.1 hnew
      refine List.mem_append_right _ (List.mem_filterMap.2 ⟨op, List.mem_singleton_self _, ?_⟩)
      cases hw : (op.deed (after ops)).work with
      | pushed s' node' =>
        rw [Deed.pushed, hw] at he
        obtain ⟨-, rfl⟩ := Prod.mk.inj (List.mem_singleton.1 he)
        have hop := work_eq_pushed hw
        rw [op_deed] at hop
        rw [hop]
        rfl
      | nothing | popped | swept | dropped =>
        rw [Deed.pushed, hw] at he
        cases he
    · exact List.mem_append_left _ (ih hold)

theorem Comparable.block_fresh (h : Comparable B (past ++ [⟨op, true⟩])) :
    ∀ b ∈ op.block?, b ∉ (after (thinnedRun past)).blocks := by
  intro b hb hmem
  have hfresh := h.fresh
  rw [fullRun_append, List.filterMap_append] at hfresh
  refine List.disjoint_of_nodup_append hfresh ?_
    (List.mem_filterMap.2 ⟨op, List.mem_singleton_self _, hb⟩)
  have hsub : (thinnedRun past).Sublist (fullRun past) := List.filter_sublist.map _
  exact (hsub.filterMap _).subset (mem_pushed_of_mem_blocks hmem)

theorem mem_history_fullRun (past : List (Entry α)) (op : Op α) (kept : Bool) :
    op.deed (after (fullRun past)) ∈ history (fullRun (past ++ [⟨op, kept⟩])) := by
  rw [fullRun_append, fullRun_singleton, history_concat]
  exact List.mem_append_right _ (List.mem_singleton_self _)

theorem Comparable.kept (h : Comparable B (past ++ [⟨op, true⟩]))
    (halike : Alike B (after (fullRun past)) (after (thinnedRun past)))
    (hsound : SoundAlike (after (fullRun past)) (after (thinnedRun past))) :
    Kept B (op.deed (after (fullRun past))) (op.deed (after (thinnedRun past))) := by
  obtain ⟨sign, sign', shown, hσ, hτ⟩ := hsound
  have hmem := mem_history_fullRun past op true
  have hmem' : op.deed (after (thinnedRun past)) ∈ history (thinnedRun (past ++ [⟨op, true⟩])) := by
    rw [thinnedRun_append, show thinnedRun [(⟨op, true⟩ : Entry α)] = [op] from rfl, history_concat]
    exact List.mem_append_right _ (List.mem_singleton_self _)
  exact halike.kept hσ hτ op (h.proper _ hmem) (h.enough _ hmem) (h.enough_thinned _ hmem')
    h.block_fresh

/-- The runs lead to alike states. -/
theorem Comparable.alike (h : Comparable B plan) :
    Alike B (after (fullRun plan)) (after (thinnedRun plan)) ∧
      SoundAlike (after (fullRun plan)) (after (thinnedRun plan)) := by
  induction plan using List.reverseRecOn with
  | nil =>
    refine ⟨⟨fun _ _ => rfl, rfl, fun _ => rfl, fun _ => rfl, rfl, Nat.le_refl _⟩, ?_⟩
    exact ⟨fun _ => 0, fun _ => 0, fun _ => .null, sound_initial _ _, sound_initial _ _⟩
  | append_singleton past e ih =>
    obtain ⟨halike, hsound⟩ := ih h.of_append
    obtain ⟨op, kept⟩ := e
    rw [fullRun_append, thinnedRun_append, fullRun_singleton, after_concat]
    cases kept with
    | true =>
      have hkept := h.kept halike hsound
      obtain ⟨sign, sign', shown, hσ, hτ⟩ := hsound
      obtain ⟨sign₁, hσ₁, -⟩ := hσ.step op
      obtain ⟨sign₁', hτ₁, -⟩ := hτ.step op
      rw [hkept.shows] at hτ₁
      rw [show thinnedRun [(⟨op, true⟩ : Entry α)] = [op] from rfl, after_concat]
      exact ⟨hkept.alike, _, _, _, hσ₁, hτ₁⟩
    | false =>
      have hop := h.omitted ⟨op, false⟩ (List.mem_append_right _ (List.mem_singleton_self _)) rfl
      obtain ⟨sign, sign', shown, hσ, hτ⟩ := hsound
      obtain ⟨sign₁, hσ₁, -⟩ := hσ.step op
      rw [op_deed, shows_of_omissible hop] at hσ₁
      rw [show thinnedRun [(⟨op, false⟩ : Entry α)] = [] from rfl, List.append_nil]
      exact ⟨(halike.of_omitted hσ hop).1, _, _, _, hσ₁, hτ⟩

/-- Stack `A` does not notice what is left out of the shorter run. -/
structure Undisturbed (A : StackId) (plan : List (Entry α)) : Prop where
  /-- All along it is the same stack in both runs: its content, its limbo and the order of this. -/
  stack : ∀ past, past <+: plan →
    (after (thinnedRun past)).lifos.get? A = (after (fullRun past)).lifos.get? A
  answers : ∀ past op, past ++ [⟨op, true⟩] <+: plan → op.stack? = some A →
    (op.deed (after (thinnedRun past))).answer = (op.deed (after (fullRun past))).answer
  freed : ∀ past op, past ++ [⟨op, true⟩] <+: plan →
    (op.deed (after (thinnedRun past))).freedOf A = (op.deed (after (fullRun past))).freedOf A
  freed_omitted : ∀ past op, past ++ [⟨op, false⟩] <+: plan →
    (op.deed (after (fullRun past))).freedOf A = []
  proper : ∀ past op, past ++ [⟨op, true⟩] <+: plan → (op.deed (after (thinnedRun past))).Proper

/-- Stacks do not influence each other, also if they share a table. -/
theorem stacks_independent (hAB : A ≠ B) (h : Comparable B plan) : Undisturbed A plan where
  stack := by
    rintro past ⟨more, rfl⟩
    exact h.of_append.alike.1.lifos A hAB
  answers := by
    rintro past op ⟨more, rfl⟩ hop
    have hpast := h.of_append.of_append.alike
    exact (h.of_append.kept hpast.1 hpast.2).answer A hop hAB
  freed := by
    rintro past op ⟨more, rfl⟩
    have hpast := h.of_append.of_append.alike
    exact (h.of_append.kept hpast.1 hpast.2).freed A hAB
  freed_omitted := by
    rintro past op ⟨more, rfl⟩
    obtain ⟨halike, sign, sign', shown, hσ, -⟩ := h.of_append.of_append.alike
    have hop := h.of_append.omitted ⟨op, false⟩
      (List.mem_append_right _ (List.mem_singleton_self _)) rfl
    exact (halike.of_omitted hσ hop).2 A hAB
  proper := by
    rintro past op ⟨more, rfl⟩
    have hpast := h.of_append.of_append.alike
    refine ⟨(h.of_append.kept hpast.1 hpast.2).present, fun T hT => hpast.1.reaches ?_⟩
    exact (h.of_append.proper _ (mem_history_fullRun past op true)).2 T hT

end

/-- Stacks 2 and 3 share a table. The handle publishes a node of stack 2 while it is popped. -/
def neighbours : List (Entry (Option String)) :=
  [⟨.newTable 1 4, true⟩, ⟨.newStack 2 1, true⟩, ⟨.newStack 3 1, true⟩, ⟨.startThread 4, true⟩,
    ⟨.startThread 5, true⟩, ⟨.acquire 4 1 6, true⟩, ⟨.push 2 7 none, true⟩,
    ⟨.push 2 8 (some "top"), true⟩, ⟨.push 3 9 none, false⟩, ⟨.publish 6 (.block 7), true⟩,
    ⟨.pop 4 3, false⟩, ⟨.pop 5 2, true⟩, ⟨.pop 4 2, true⟩, ⟨.reclaim 3, false⟩,
    ⟨.publish 6 .null, true⟩, ⟨.reclaim 2, true⟩]

/-- Without the pop from stack 3 the threads pop through other slots, but stack 2 is the same. -/
theorem neighbours_undisturbed :
    Undisturbed 2 neighbours ∧ (after (fullRun neighbours)).cache 5 = .live [⟨1, 2⟩] ∧
      (after (thinnedRun neighbours)).cache 5 = .live [⟨1, 1⟩] :=
  ⟨stacks_independent (by decide : 2 ≠ 3)
      ⟨by decide +kernel, by decide +kernel, by decide +kernel, by decide +kernel,
        by decide +kernel⟩,
    rfl, rfl⟩

end HazardLifo
