import HazardLifo.Proofs.Histories.Nodes

/-!
# Reclamation

A node that was popped waits until no slot of its stack's table publishes it. The next pop or
reclaim on its stack after that frees it, and nothing else does, unless the stack ends.
-/

namespace HazardLifo

variable {α : Type}

def onStack {β : Type} (s : StackId) (l : List (StackId × β)) : List β :=
  (l.filter (·.1 == s)).map (·.2)

section

variable {β : Type} {s s₀ : StackId} (l : List β)

@[simp] theorem onStack_nil : onStack s ([] : List (StackId × β)) = [] := rfl

theorem onStack_self : onStack s (l.map (s, ·)) = l := by
  induction l with
  | nil => rfl
  | cons b rest ih =>
    rw [List.map_cons, onStack, List.filter_cons_of_pos (by simp), List.map_cons]
    exact congrArg (b :: ·) ih

theorem onStack_of_ne (h : s₀ ≠ s) : onStack s (l.map (s₀, ·)) = [] := by
  rw [onStack, List.map_eq_nil_iff, List.filter_eq_nil_iff]
  rintro e he heq
  obtain ⟨b, -, rfl⟩ := List.mem_map.1 he
  exact h (by simpa using heq)

theorem mem_onStack_iff {l : List (StackId × β)} {b : β} : b ∈ onStack s l ↔ (s, b) ∈ l := by
  simp [onStack]

end

namespace Deed

def poppedFrom (s : StackId) (d : Deed α) : List Block := (onStack s d.popped).map (·.block)

def freedOf (s : StackId) (d : Deed α) : List Block := onStack s d.freed

/-- The operation is a pop from the stack that returned a value, or a reclaim. -/
def Tends (s : StackId) (d : Deed α) : Prop :=
  (∃ t v, d.op = .pop t s ∧ d.answer = .popped v) ∨
    (∃ h v, d.op = .popWith s h ∧ d.answer = .popped v) ∨ d.op = .reclaim s

end Deed

/-- The nodes popped from a stack and not freed since. -/
def awaiting (s : StackId) (ds : List (Deed α)) : List Block :=
  ds.foldl (fun waiting d => (waiting ++ d.poppedFrom s).filter (· ∉ d.freedOf s)) []

theorem awaiting_concat (s : StackId) (ds : List (Deed α)) (d : Deed α) :
    awaiting s (ds ++ [d]) = (awaiting s ds ++ d.poppedFrom s).filter (· ∉ d.freedOf s) := by
  rw [awaiting, List.foldl_append]
  rfl

open State Op

theorem filter_not_mem_filter (p : Block → Bool) (bs : List Block) :
    bs.filter (· ∉ bs.filter (!p ·)) = bs.filter p := by
  refine List.filter_congr fun b hb => ?_
  cases hp : p b <;> simp [List.mem_filter, hb, hp]

theorem State.limboOf_eq {σ : State α} {s : StackId} {stack : Stack α}
    (hs : σ.lifos.get? s = some stack) : σ.limboOf s = stack.limbo.entries := by
  rw [limboOf, hs, Option.elim_some]

theorem State.published_of_slot {σ : State α} {T : TableId} {h : Handle} {b : Block}
    (hT : h.table = T) (hslot : (σ.slot? h).map (·.published) = some (.block b)) : σ.published T b := by
  subst hT
  exact published_iff_slot.2 ⟨h.slot, hslot⟩

namespace Effect

variable {d : Deed α} {s : StackId}

theorem limbo_of_calm (hpopped : d.poppedFrom s = []) (hfreed : d.freedOf s = [])
    (hlimbo : d.after.limboOf s = d.before.limboOf s) :
    ((d.before.limboOf s ++ d.poppedFrom s).filter (· ∉ d.freedOf s)).Perm (d.after.limboOf s) := by
  rw [hpopped, hfreed, hlimbo, List.append_nil, List.filter_eq_self.2 fun _ _ => by simp]

theorem limbo_of_notices (hpopped : d.popped = []) (events : OnlyNotices d.events)
    (hlimbo : d.after.limboOf s = d.before.limboOf s) :
    ((d.before.limboOf s ++ d.poppedFrom s).filter (· ∉ d.freedOf s)).Perm (d.after.limboOf s) := by
  refine limbo_of_calm ?_ ?_ hlimbo
  · rw [Deed.poppedFrom, hpopped, onStack_nil, List.map_nil]
  · rw [Deed.freedOf, Deed.freed, events.freedIn, onStack_nil]

/-- The limbo of a stack gains what is popped from it and loses what is freed. -/
theorem limbo_perm [Disposable α] (h : Effect d) (s : StackId) :
    ((d.before.limboOf s ++ d.poppedFrom s).filter (· ∉ d.freedOf s)).Perm (d.after.limboOf s) := by
  cases h with
  | quiet work lifos _ events =>
    refine limbo_of_notices (by rw [Deed.popped, work]) events ?_
    rw [limboOf, limboOf, lifos]
  | made s₀ T work fresh lifos _ events =>
    refine limbo_of_notices (by rw [Deed.popped, work]) events ?_
    rw [limboOf, limboOf, lifos, Registry.get?_insert]
    split
    · rename_i heq
      rw [heq, fresh]
      rfl
    · rfl
  | pushed s₀ stack node work there _ lifos _ events =>
    refine limbo_of_notices (by rw [Deed.popped, work]) events ?_
    rw [limboOf, limboOf, lifos, Registry.get?_modify]
    split
    · rename_i heq
      rw [heq, there]
      rfl
    · rfl
  | tended s₀ stack stack' gone work there table nodes published lifos _ kept freed _ =>
    by_cases heq : s₀ = s
    · subst heq
      have hafter : d.after.limboOf s₀ = stack'.limbo.entries :=
        limboOf_eq (by rw [lifos, Registry.get?_modify, if_pos rfl, there, Option.map_some])
      rw [limboOf_eq there, hafter, kept, Deed.poppedFrom, Deed.freedOf, popped_eq work there nodes, freed,
        onStack_self, onStack_self]
      refine (List.perm_append_comm.filter _).trans ?_
      rw [filter_not_mem_filter]
      exact (List.reverse_perm _).symm
    · refine limbo_of_calm ?_ ?_ ?_
      · rw [Deed.poppedFrom, popped_eq work there nodes, onStack_of_ne _ heq, List.map_nil]
      · rw [Deed.freedOf, freed, onStack_of_ne _ heq]
      · rw [limboOf, limboOf, lifos, Registry.get?_modify, if_neg (Ne.symm heq)]
  | dropped s₀ stack work there lifos _ freed _ =>
    have hpopped : d.poppedFrom s = [] := by
      rw [Deed.poppedFrom, Deed.popped, work]
      rfl
    by_cases heq : s₀ = s
    · subst heq
      have hafter : d.after.limboOf s₀ = [] := by
        rw [limboOf, lifos, Registry.get?_erase, if_pos rfl]
        rfl
      rw [hafter, hpopped, limboOf_eq there, List.append_nil, Deed.freedOf, freed, onStack_self]
      refine List.Perm.of_eq (List.filter_eq_nil_iff.2 fun b hb => ?_)
      simp [hb]
    · refine limbo_of_calm hpopped ?_ ?_
      · rw [Deed.freedOf, freed, onStack_of_ne _ heq]
      · rw [limboOf, limboOf, lifos, Registry.get?_erase, if_neg (Ne.symm heq)]

/-- A pop that returns a value and a reclaim free what is not published, in order, of the node that
is popped and of those in limbo. -/
theorem tended_limbo [Disposable α] {stack : Stack α} (h : Effect d)
    (hs : d.before.lifos.get? s = some stack)
    (hwork : d.work = .swept s ∨ ∃ v, d.work = .popped s v) :
    d.freedOf s =
        (d.poppedFrom s ++ stack.limbo.entries).filter (!d.cleared.published stack.table ·) ∧
      d.after.limboOf s =
        ((d.poppedFrom s ++ stack.limbo.entries).filter (d.cleared.published stack.table)).reverse ∧
      (d.poppedFrom s ++ stack.limbo.entries).Sublist stack.blocks := by
  cases h with
  | tended s₀ stack₀ stack' gone work there table nodes published lifos _ kept freed _ =>
    obtain rfl : s₀ = s := by
      rcases work with ⟨-, hw⟩ | ⟨node, -, hw⟩ <;> rcases hwork with hw' | ⟨v, hw'⟩ <;>
        rw [hw] at hw' <;> cases hw' <;> rfl
    obtain rfl : stack₀ = stack := Option.some.inj (there.symm.trans hs)
    have hafter : d.after.limboOf s₀ = stack'.limbo.entries :=
      limboOf_eq (by rw [lifos, Registry.get?_modify, if_pos rfl, there, Option.map_some])
    have hpopped : d.poppedFrom s₀ = gone.map (·.block) := by
      rw [Deed.poppedFrom, popped_eq work there nodes, onStack_self]
    rw [hpopped, Deed.freedOf, freed, onStack_self, hafter, kept]
    refine ⟨rfl, rfl, ?_⟩
    rw [Stack.blocks, nodes, List.map_append]
    exact (List.sublist_append_left ..).append_right _
  | quiet work | made s₀ T work | pushed s₀ stack₀ node work | dropped s₀ stack₀ work =>
    rcases hwork with hw | ⟨v, hw⟩ <;> cases work.symm.trans hw

end Effect

namespace Op

variable [Disposable α]

/-- What waits in limbo is what was popped and not freed since. -/
theorem awaiting_perm (ops : List (Op α)) (s : StackId) :
    (awaiting s (history ops)).Perm ((after ops).limboOf s) := by
  induction ops using List.reverseRecOn with
  | nil => exact .refl _
  | append_singleton ops op ih =>
    rw [history_concat, awaiting_concat, after_concat]
    exact ((ih.append_right _).filter _).trans ((effect ops op).limbo_perm s)

/-! ## What frees nodes -/

theorem work_of_tends {σ : State α} {op : Op α} {s : StackId} {stack : Stack α}
    (hs : σ.lifos.get? s = some stack) (ht : (op.deed σ).Tends s) :
    (op.deed σ).work = .swept s ∨ ∃ v, (op.deed σ).work = .popped s v := by
  rcases ht with ⟨t, v, hop, hv⟩ | ⟨n, v, hop, hv⟩ | hop
  · exact .inr ⟨v, by rw [Deed.work, hop, hv]; rfl⟩
  · exact .inr ⟨v, by rw [Deed.work, hop, hv]; rfl⟩
  · rw [op_deed] at hop
    subst hop
    refine .inl ?_
    have hanswer : ((Op.reclaim s).deed σ).answer = .reclaimed (sweep s σ).value := by
      simp [run, State.reclaim, Action.bind_apply, Registry.contains, hs]
      rfl
    rw [Deed.work, hanswer]
    rfl

/-- What a pop or a reclaim frees of its stack and what it leaves, when `waiting` are the nodes
popped and not freed before, and the one that it pops itself. -/
structure FreesExactly (d : Deed α) (s : StackId) (T : TableId) (waiting : List Block) : Prop where
  nodup : waiting.Nodup
  freed : (d.freedOf s).Perm (waiting.filter (!d.cleared.published T ·))
  kept : (d.after.limboOf s).Perm (waiting.filter (d.cleared.published T))

theorem frees_exactly (ops : List (Op α)) (op : Op α) {s : StackId} {stack : Stack α}
    (hs : (after ops).lifos.get? s = some stack) (ht : (op.deed (after ops)).Tends s) :
    FreesExactly (op.deed (after ops)) s stack.table
      (awaiting s (history ops) ++ (op.deed (after ops)).poppedFrom s) := by
  obtain ⟨hfreed, hkept, hsub⟩ := (effect ops op).tended_limbo hs (work_of_tends hs ht)
  -- The nodes that wait, with the one popped now.
  have hp : (awaiting s (history ops) ++ (op.deed (after ops)).poppedFrom s).Perm
      ((op.deed (after ops)).poppedFrom s ++ stack.limbo.entries) := by
    have hwaiting := awaiting_perm ops s
    rw [limboOf_eq hs] at hwaiting
    exact (hwaiting.append_right _).trans List.perm_append_comm
  have hblocks : stack.blocks.Nodup := nodup_blocks_of_get? (nodup_blocks ops) hs
  refine ⟨hp.nodup_iff.2 (hblocks.sublist hsub), ?_, ?_⟩
  · rw [hfreed]
    exact (hp.filter _).symm
  · rw [hkept]
    exact (List.reverse_perm _).trans (hp.filter _).symm

theorem tends_of_freed (ops : List (Op α)) (op : Op α) {s : StackId}
    (hfreed : (op.deed (after ops)).freedOf s ≠ []) :
    (op.deed (after ops)).Tends s ∨ op = .dropStack s := by
  have hsame : ∀ {s₀} {bs : List Block}, (op.deed (after ops)).freed = bs.map (s₀, ·) → s₀ = s :=
    fun hf => by
      by_contra hne
      exact hfreed (by rw [Deed.freedOf, hf, onStack_of_ne _ hne])
  cases effect ops op with
  | quiet _ _ _ events | made _ _ _ _ _ _ events | pushed _ _ _ _ _ _ _ _ events =>
    exact absurd (by rw [Deed.freedOf, Deed.freed, events.freedIn, onStack_nil]) hfreed
  | tended s₀ stack stack' gone work there table nodes published lifos lost kept freed _ =>
    obtain rfl := hsame freed
    left
    rcases work with ⟨-, hw⟩ | ⟨node, -, hw⟩
    · exact .inr (.inr (work_eq_swept hw))
    · obtain ⟨hv, ⟨t, ht⟩ | ⟨n, hn⟩⟩ := work_eq_popped hw
      · exact .inl ⟨t, _, ht, hv⟩
      · exact .inr (.inl ⟨n, _, hn, hv⟩)
  | dropped s₀ stack work there lifos lost freed _ =>
    obtain rfl := hsame freed
    exact .inr (work_eq_dropped work)

/-! ## A published node stays -/

/-- A node that is published after the operation is in use still, unless its stack ends. -/
theorem kept_of_published {d : Deed α} {s : StackId} {stack : Stack α} {b : Block} (h : Effect d)
    (hs : d.before.lifos.get? s = some stack) (hb : b ∈ stack.blocks)
    (hpub : d.after.published stack.table b) (hdrop : d.work ≠ .dropped s) :
    ∃ stack', d.after.lifos.get? s = some stack' ∧ stack'.table = stack.table ∧ b ∈ stack'.blocks := by
  cases h with
  | quiet work lifos _ _ => exact ⟨stack, by rw [lifos, hs], rfl, hb⟩
  | made s₀ T work fresh lifos _ _ =>
    have hne : s ≠ s₀ := fun heq => by
      subst heq
      cases fresh.symm.trans hs
    exact ⟨stack, by rw [lifos, Registry.get?_insert, if_neg hne, hs], rfl, hb⟩
  | pushed s₀ stack₀ node work there _ lifos _ _ =>
    by_cases heq : s = s₀
    · subst heq
      obtain rfl := Option.some.inj (there.symm.trans hs)
      refine ⟨{ stack₀ with nodes := node :: stack₀.nodes }, ?_, rfl, List.mem_cons_of_mem _ hb⟩
      rw [lifos, Registry.get?_modify, if_pos rfl, hs, Option.map_some]
    · exact ⟨stack, by rw [lifos, Registry.get?_modify, if_neg heq, hs], rfl, hb⟩
  | tended s₀ stack₀ stack' gone work there table nodes published lifos _ kept _ _ =>
    by_cases heq : s = s₀
    · subst heq
      obtain rfl := Option.some.inj (there.symm.trans hs)
      refine ⟨stack', by rw [lifos, Registry.get?_modify, if_pos rfl, hs, Option.map_some], table, ?_⟩
      rw [published] at hpub
      have hmem := (Effect.blocks_perm _ nodes kept).mem_iff.1 hb
      rcases List.mem_append.1 hmem with hfreed | hkept
      · have hnot := (List.mem_filter.1 hfreed).2
        simp [hpub] at hnot
      · exact hkept
    · exact ⟨stack, by rw [lifos, Registry.get?_modify, if_neg heq, hs], rfl, hb⟩
  | dropped s₀ stack₀ work there lifos _ _ _ =>
    have hne : s ≠ s₀ := fun heq => hdrop (heq ▸ work)
    exact ⟨stack, by rw [lifos, Registry.get?_erase, if_neg hne, hs], rfl, hb⟩

/-- While a node is published, nothing but the end of its stack frees it. -/
theorem not_freed_while_published (ops more : List (Op α)) {s : StackId} {stack : Stack α} {b : Block}
    (hs : (after ops).lifos.get? s = some stack) (hb : b ∈ stack.blocks)
    (hpub : ∀ past, past <+: more → (after (ops ++ past)).published stack.table b)
    (hdrop : ∀ d ∈ chronicle more (after ops), d.work ≠ .dropped s) :
    (∃ stack', (after (ops ++ more)).lifos.get? s = some stack' ∧ stack'.table = stack.table ∧
      b ∈ stack'.blocks) ∧ ∀ d ∈ chronicle more (after ops), ∀ s', b ∉ d.freedOf s' := by
  induction more using List.reverseRecOn with
  | nil =>
    rw [List.append_nil]
    exact ⟨⟨stack, hs, rfl, hb⟩, fun d hd => by cases hd⟩
  | append_singleton more op ih =>
    have hchronicle : chronicle (more ++ [op]) (after ops) =
        chronicle more (after ops) ++ [op.deed (after (ops ++ more))] := by
      rw [chronicle_append, ← after_append]
      rfl
    have hafter : after (ops ++ (more ++ [op])) = (op.deed (after (ops ++ more))).after := by
      rw [← List.append_assoc, after_concat, after_deed]
    rw [hchronicle] at hdrop ⊢
    obtain ⟨⟨stack', hs', htable, hb'⟩, hold⟩ :=
      ih (fun past hpast => hpub past (hpast.trans (List.prefix_append ..)))
        fun d hd => hdrop d (List.mem_append_left _ hd)
    have heffect := effect (ops ++ more) op
    have hpublished : (op.deed (after (ops ++ more))).after.published stack'.table b := by
      rw [← hafter, htable]
      exact hpub _ (List.prefix_refl _)
    obtain ⟨stack'', hs'', htable', hb''⟩ := kept_of_published heffect hs' hb' hpublished
      (hdrop _ (List.mem_append_right _ List.mem_cons_self))
    refine ⟨⟨stack'', by rw [hafter, hs''], htable'.trans htable, hb''⟩, fun d hd s' hfreed => ?_⟩
    rcases List.mem_append.1 hd with hd | hd
    · exact hold d hd s' hfreed
    · obtain rfl := List.mem_singleton.1 hd
      have hused := State.mem_blocks_of_get? hs'' hb''
      have hgone : b ∈ (op.deed (after (ops ++ more))).freed.map (·.2) :=
        List.mem_map.2 ⟨(s', b), mem_onStack_iff.1 hfreed, rfl⟩
      exact List.disjoint_of_nodup_append (heffect.nodup_blocks (nodup_blocks _)) hgone hused

/-- Each pop and each reclaim frees exactly the popped nodes that nothing publishes in the stack's
table; nothing else, save the stack's end, frees a node of it; and a node stays in use while live
handles of the table publish it. -/
theorem reclamation_exact (ops : List (Op α)) :
    (∀ (op : Op α) s stack, (after ops).lifos.get? s = some stack → (op.deed (after ops)).Tends s →
      FreesExactly (op.deed (after ops)) s stack.table
        (awaiting s (history ops) ++ (op.deed (after ops)).poppedFrom s)) ∧
    (∀ (op : Op α) s, (op.deed (after ops)).freedOf s ≠ [] →
      (op.deed (after ops)).Tends s ∨ op = .dropStack s) ∧
    ∀ more s stack b, (after ops).lifos.get? s = some stack → b ∈ stack.blocks →
      (∀ past, past <+: more → ∃ h ∈ (after (ops ++ past)).handlesOn stack.table,
        ((after (ops ++ past)).slot? h).map (·.published) = some (.block b)) →
      (∀ d ∈ chronicle more (after ops), d.op ≠ .dropStack s) →
      ∀ d ∈ chronicle more (after ops), ∀ s', b ∉ d.freedOf s' := by
  refine ⟨fun op s stack hs ht => frees_exactly ops op hs ht, fun op s hf => tends_of_freed ops op hf,
    fun more s stack b hs hb hpub hdrop => ?_⟩
  have hpublished : ∀ past, past <+: more → (after (ops ++ past)).published stack.table b := by
    intro past hpast
    obtain ⟨h, hh, hslot⟩ := hpub past hpast
    exact published_of_slot (Sound.mem_handlesOn_iff.1 hh).2 hslot
  refine (not_freed_while_published ops more hs hb hpublished fun d hd hw => ?_).2
  exact hdrop d hd (work_eq_dropped hw)

/-- A node is popped while a handle publishes it, which the handle then no longer does. -/
def retiredThenCleared : List (Op (Option String)) :=
  [.newTable 1 2, .newStack 2 1, .startThread 3, .acquire 3 1 4, .acquire 3 1 5, .push 2 6 none,
    .publish 4 (.block 6), .popWith 2 5, .publish 4 .null]

/-- While the handle publishes the node neither the pop nor a reclaim frees it; after that a reclaim
does. -/
theorem reclaim_after_clear :
    (awaiting 2 (history retiredThenCleared) = [6] ∧
      FreesExactly ((Op.reclaim 2).deed (after retiredThenCleared)) 2 1
        (awaiting 2 (history retiredThenCleared) ++ [])) ∧
    (((Op.reclaim 2).deed (after retiredThenCleared)).freedOf 2 = [6] ∧
      (((Op.reclaim 2).deed (after retiredThenCleared)).Tends 2 ∨
        (Op.reclaim 2 : Op (Option String)) = .dropStack 2)) ∧
    ∀ d ∈ chronicle [.popWith 2 5, .reclaim 2] (after (retiredThenCleared.take 7)),
      ∀ s, 6 ∉ d.freedOf s := by
  obtain ⟨hfrees, htends, -⟩ := reclamation_exact retiredThenCleared
  obtain ⟨-, -, hkept⟩ := reclamation_exact (retiredThenCleared.take 7)
  refine ⟨⟨by decide +kernel, hfrees (.reclaim 2) 2 ⟨1, [], ⟨[6], 1⟩⟩ rfl (.inr (.inr rfl))⟩,
    ⟨rfl, htends (.reclaim 2) 2 (by decide +kernel)⟩, ?_⟩
  refine hkept [.popWith 2 5, .reclaim 2] 2 ⟨1, [⟨6, none⟩], {}⟩ 6 rfl (by decide)
    (fun past hpast => ?_) fun d hd => ?_
  · obtain rfl | ⟨past, rfl, hrest⟩ := List.prefix_cons_iff.1 hpast
    · exact ⟨⟨1, 0⟩, by decide +kernel, rfl⟩
    obtain rfl | ⟨past, rfl, hnil⟩ := List.prefix_cons_iff.1 hrest
    · exact ⟨⟨1, 0⟩, by decide +kernel, rfl⟩
    obtain rfl := List.prefix_nil.1 hnil
    exact ⟨⟨1, 0⟩, by decide +kernel, rfl⟩
  · rcases List.mem_pair.1 hd with rfl | rfl <;> rintro ⟨⟩

end Op

end HazardLifo
