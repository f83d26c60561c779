import HazardLifo.Proofs.Histories.Holders

/-!
# Publications by history

What a table publishes follows from what was asked of the handles of callers and answered, whatever
happens to slots. `standing` reads the last publication of each live handle off a chronicle; the
induction carries that the leases on these handles publish just this (`standing_after`). Leases on
cached handles publish nothing, so nothing else is published.
-/

namespace HazardLifo

variable {α : Type}

/-- For each live handle of a caller its table and what it published last. -/
abbrev Standing := HandleId → Option (TableId × Address)

/-- Handle `n`, if it is live, publishes `a` instead. -/
def Standing.publish (last : Standing) (n : HandleId) (a : Address) : Standing :=
  Function.update last n ((last n).map fun p => (p.1, a))

/-- What stands after an operation that answers so, if `last` stood before. -/
def Op.stands (op : Op α) (answer : Answer α) (last : Standing) : Standing :=
  match op, answer with
  | .acquire _ T n, .acquired _ => Function.update last n (some (T, .null))
  | .publish n a, .done => last.publish n a
  | .popWith _ n, .popped _ => last.publish n .null
  | .popWith _ n, .failed (.pop _) => last.publish n .null
  | .release n, .done => Function.update last n none
  | _, _ => last

def standing (ds : List (Deed α)) : Standing :=
  ds.foldl (fun last d => d.op.stands d.answer last) fun _ => none

theorem standing_concat (ds : List (Deed α)) (d : Deed α) :
    standing (ds ++ [d]) = d.op.stands d.answer (standing ds) := by
  simp only [standing, List.foldl_append, List.foldl_cons, List.foldl_nil]

/-! ## One operation -/

/-- A pop went through the handle, and no rule of use was broken. -/
def Op.PopsThrough (op : Op α) (answer : Answer α) (n : HandleId) : Prop :=
  ∃ s, op = .popWith s n ∧ ((∃ v, answer = .popped v) ∨ ∃ e, answer = .failed (.pop e))

/-- How an operation and its answer change what stands for handle `n`. -/
inductive Op.Restates (op : Op α) (answer : Answer α) (last : Standing) (n : HandleId) :
    Option (TableId × Address) → Prop
  | kept : Op.Restates op answer last n (last n)
  | acquired {t : ThreadId} {T : TableId} {i : Nat} (hop : op = .acquire t T n)
    (hanswer : answer = .acquired i) : Op.Restates op answer last n (some (T, .null))
  | published {a : Address} (hop : op = .publish n a) (hanswer : answer = .done) :
    Op.Restates op answer last n ((last n).map fun p => (p.1, a))
  | cleared (hpop : op.PopsThrough answer n) :
    Op.Restates op answer last n ((last n).map fun p => (p.1, .null))
  | released (hop : op = .release n) (hanswer : answer = .done) : Op.Restates op answer last n none

theorem Op.restates (op : Op α) (answer : Answer α) (last : Standing) (n : HandleId) :
    op.Restates answer last n (op.stands answer last n) := by
  have hupdate : ∀ {m : HandleId} {x : Option (TableId × Address)},
      (m = n → op.Restates answer last n x) →
        op.Restates answer last n (Function.update last m x n) := fun {m x} hself => by
    by_cases hm : n = m
    · subst hm
      rw [Function.update_self]
      exact hself rfl
    · rw [Function.update_of_ne hm]
      exact .kept
  unfold Op.stands
  split
  · refine hupdate fun heq => ?_
    subst heq
    exact .acquired rfl rfl
  · refine hupdate fun heq => ?_
    subst heq
    exact .published rfl rfl
  · refine hupdate fun heq => ?_
    subst heq
    exact .cleared ⟨_, rfl, .inl ⟨_, rfl⟩⟩
  · refine hupdate fun heq => ?_
    subst heq
    exact .cleared ⟨_, rfl, .inr ⟨_, rfl⟩⟩
  · refine hupdate fun heq => ?_
    subst heq
    exact .released rfl rfl
  · exact .kept

/-- What stands for a live handle changes as what it publishes does. -/
theorem Op.stands_of_live {op : Op α} {answer : Answer α} {last : Standing}
    {shown : HandleId → Address} {n : HandleId} {T : TableId} (hlast : last n = some (T, shown n))
    (hnew : ∀ t T i, op = .acquire t T n → answer ≠ .acquired i) (hkept : op ≠ .release n) :
    op.stands answer last n = some (T, op.shows answer shown n) := by
  have hpublish : ∀ m a, last.publish m a n = some (T, Function.update shown m a n) := fun m a => by
    by_cases hm : n = m
    · subst hm
      rw [Standing.publish, Function.update_self, Function.update_self, hlast, Option.map_some]
    · rw [Standing.publish, Function.update_of_ne hm, Function.update_of_ne hm, hlast]
  unfold Op.stands
  split
  · rename_i t T' m i
    have hm : n ≠ m := by
      rintro rfl
      exact hnew _ _ _ rfl rfl
    rw [Function.update_of_ne hm, hlast, Op.shows, Function.update_of_ne hm]
  · exact hpublish _ _
  · exact hpublish _ _
  · exact hpublish _ _
  · rename_i m
    have hm : n ≠ m := by
      rintro rfl
      exact hkept rfl
    rw [Function.update_of_ne hm, hlast]
    rfl
  · rename_i hacquired hpublished hpopped hmissed hreleased
    rw [hlast]
    unfold Op.shows
    split
    · exact (hacquired _ _ _ _ rfl rfl).elim
    · exact (hpublished _ _ rfl rfl).elim
    · exact (hpopped _ _ _ rfl rfl).elim
    · exact (hmissed _ _ _ rfl rfl).elim
    · rfl

namespace State

/-- What stands is what the leases on the handles of callers publish. -/
def Tells (σ : State α) (last : Standing) (shown : HandleId → Address) : Prop :=
  ∀ n, last n = (σ.handles.get? n).map fun handle => (handle.table, shown n)

variable {σ : State α} {sign : HandleId → Token} {shown : HandleId → Address} {last : Standing}

/-- A table publishes what stands for some handle on it, but the null address. -/
theorem Sound.publishes_iff_tells (h : Sound σ sign shown) (hlast : σ.Tells last shown) (T : TableId)
    (a : Address) : σ.publishes T a = true ↔ a ≠ .null ∧ ∃ n, last n = some (T, a) := by
  rw [h.backed.publishes_iff]
  refine and_congr_right fun ha => ⟨?_, ?_⟩
  · rintro ⟨l, hl, rfl, rfl⟩
    rcases List.mem_append.1 hl with hl | hl
    · obtain ⟨⟨n, handle⟩, hn, rfl⟩ := List.mem_map.1 hl
      exact ⟨n, by rw [hlast n, Registry.get?_eq_some_iff.2 hn, Option.map_some]⟩
    · obtain ⟨thread, -, hl⟩ := List.mem_flatMap.1 hl
      exact absurd (Thread.address_of_mem_leases hl) ha
  · rintro ⟨n, hn⟩
    rw [hlast n] at hn
    obtain ⟨handle, hget, heq⟩ := Option.map_eq_some_iff.1 hn
    obtain ⟨rfl, rfl⟩ := Prod.mk.inj heq
    refine ⟨⟨handle, sign n, shown n⟩, List.mem_append_left _ ?_, rfl, rfl⟩
    exact List.mem_map.2 ⟨(n, handle), Registry.get?_eq_some_iff.1 hget, rfl⟩

open Op

variable [Disposable α]

theorem release_gives_up {n : HandleId} {handle : Handle} (hn : σ.handles.get? n = some handle) :
    ((Op.release n).deed σ).answer = .done ∧ ((Op.release n).deed σ).after.handles.get? n = none := by
  rcases release_cases σ n with ⟨hnone, -⟩ | ⟨handle', -, hrun⟩
  · cases hnone.symm.trans hn
  · have hout : ((Op.release n).deed σ).outcome = _ := deed_eq rfl hrun
    rw [Deed.answer, Deed.after, hout, (tablesOnly_giveBack ..).frame]
    exact ⟨rfl, (Registry.get?_erase ..).trans (if_pos rfl)⟩

theorem publish_done {n : HandleId} {handle : Handle} (hn : σ.handles.get? n = some handle)
    (a : Address) : ((Op.publish n a).deed σ).answer = .done := by
  rcases publish_cases σ n a with ⟨hnone, -⟩ | ⟨handle', -, hrun⟩
  · cases hnone.symm.trans hn
  · have hout : ((Op.publish n a).deed σ).outcome = _ := deed_eq rfl hrun
    rw [Deed.answer, hout]
    rfl

theorem Sound.tells_step (h : Sound σ sign shown) (hlast : σ.Tells last shown) (op : Op α) :
    (op.deed σ).after.Tells (op.stands (op.deed σ).answer last)
      (op.shows (op.deed σ).answer shown) := by
  intro n
  have hn := hlast n
  cases hb : σ.handles.get? n with
  | some handle =>
    rw [hb, Option.map_some] at hn
    by_cases hop : op = .release n
    · subst hop
      obtain ⟨hanswer, hgone⟩ := release_gives_up hb
      rw [hgone, hanswer]
      exact Function.update_self ..
    · have hused : n < σ.horizon := h.handles n (by rw [hb]; rfl)
      rw [(h.handle_step hb hop).1, Option.map_some]
      refine Op.stands_of_live hn ?_ hop
      rintro t T i rfl hanswer
      exact absurd (acquire_grants hanswer).1 (Nat.not_le.2 hused)
  | none =>
    rw [hb, Option.map_none] at hn
    obtain ⟨sign', hstep⟩ := h.step op
    cases ha : (op.deed σ).after.handles.get? n with
    | some handle =>
      rcases hstep.handles n handle ha with ⟨hold, -⟩ | ⟨t, hacquire, hanswer, -⟩
      · cases hb.symm.trans hold
      · have hop : op = .acquire t handle.table n := hacquire
        subst hop
        simp only [hanswer, stands, shows, Function.update_self, Option.map_some]
    | none =>
      rw [Option.map_none]
      have hmoved := op.restates (op.deed σ).answer last n
      generalize op.stands (op.deed σ).answer last n = now at hmoved ⊢
      cases hmoved with
      | kept => exact hn
      | acquired hop hanswer =>
        subst hop
        cases ha.symm.trans (acquire_grants hanswer).2.2
      | published hop hanswer => rw [hn, Option.map_none]
      | cleared hpop => rw [hn, Option.map_none]
      | released hop hanswer => rfl

end State

/-! ## Runs -/

namespace Op

open State

variable [Disposable α]

theorem standing_after (ops : List (Op α)) :
    ∃ sign shown, Sound (after ops) sign shown ∧ (after ops).Tells (standing (history ops)) shown := by
  induction ops using List.reverseRecOn with
  | nil => exact ⟨fun _ => 0, fun _ => .null, sound_initial _ _, fun _ => rfl⟩
  | append_singleton ops op ih =>
    obtain ⟨sign, shown, hsound, htells⟩ := ih
    obtain ⟨sign', hstep⟩ := hsound.step op
    refine ⟨sign', op.shows (op.deed (after ops)).answer shown, ?_, ?_⟩
    · rw [after_concat]
      exact hstep.sound
    · rw [after_concat, history_concat, standing_concat]
      exact hsound.tells_step htells op

theorem publishes_iff_standing (ops : List (Op α)) (T : TableId) (a : Address) :
    (after ops).publishes T a = true ↔ a ≠ .null ∧ ∃ n, standing (history ops) n = some (T, a) := by
  obtain ⟨sign, shown, hsound, htells⟩ := standing_after ops
  exact hsound.publishes_iff_tells htells T a

theorem table_standing (ops : List (Op α)) (n : HandleId) :
    (standing (history ops) n).map (·.1) = ((after ops).handles.get? n).map (·.table) := by
  obtain ⟨sign, shown, -, htells⟩ := standing_after ops
  rw [htells n, Option.map_map]
  rfl

variable {ops : List (Op α)} {op : Op α} {T : TableId} {a : Address}

theorem publish_stands {n : HandleId} {handle : Handle}
    (hn : (after ops).handles.get? n = some handle) (a : Address) :
    ((Op.publish n a).deed (after ops)).answer = .done ∧
      standing (history (ops ++ [.publish n a])) n = some (handle.table, a) := by
  have hdone := publish_done hn a
  obtain ⟨p, hp, htable⟩ : ∃ p, standing (history ops) n = some p ∧ p.1 = handle.table := by
    simpa [hn] using table_standing ops n
  refine ⟨hdone, ?_⟩
  have hop : ((Op.publish n a).deed (after ops)).op = .publish n a := rfl
  rw [history_concat, standing_concat, hop, hdone, stands, Standing.publish, Function.update_self, hp,
    Option.map_some, htable]

theorem release_stands {n : HandleId} {handle : Handle}
    (hn : (after ops).handles.get? n = some handle) :
    ((Op.release n).deed (after ops)).answer = .done ∧
      standing (history (ops ++ [.release n])) n = none := by
  have hdone := (release_gives_up hn).1
  refine ⟨hdone, ?_⟩
  have hop : ((Op.release n).deed (after ops)).op = .release n := rfl
  rw [history_concat, standing_concat, hop, hdone, stands, Function.update_self]

theorem restates_concat (ops : List (Op α)) (op : Op α) (n : HandleId) :
    op.Restates (op.deed (after ops)).answer (standing (history ops)) n
      (standing (history (ops ++ [op])) n) := by
  rw [history_concat, standing_concat]
  exact op.restates ..

/-- Only a publication through a handle on the table makes it publish one more address. -/
theorem publish_of_starts (hbefore : (after ops).publishes T a = false)
    (hafter : (after (ops ++ [op])).publishes T a = true) :
    ∃ n, op = .publish n a ∧ (op.deed (after ops)).answer = .done ∧
      ((after ops).handles.get? n).map (·.table) = some T := by
  obtain ⟨ha, n, hn⟩ := (publishes_iff_standing ..).1 hafter
  have hnew : standing (history ops) n ≠ some (T, a) := fun hold => by
    rw [(publishes_iff_standing ops T a).2 ⟨ha, n, hold⟩] at hbefore
    cases hbefore
  have hmoved := restates_concat ops op n
  rw [hn] at hmoved
  generalize hlater : some (T, a) = later at hmoved
  cases hmoved with
  | kept => exact absurd hlater.symm hnew
  | acquired hop hanswer => exact absurd (Prod.mk.inj (Option.some.inj hlater)).2 ha
  | @published b hop hanswer =>
    obtain ⟨p, hp, heq⟩ := Option.map_eq_some_iff.1 hlater.symm
    obtain ⟨rfl, rfl⟩ := Prod.mk.inj heq
    refine ⟨n, hop, hanswer, ?_⟩
    rw [← table_standing, hp, Option.map_some]
  | cleared hpop =>
    obtain ⟨p, hp, heq⟩ := Option.map_eq_some_iff.1 hlater.symm
    exact absurd (Prod.mk.inj heq).2.symm ha
  | released hop hanswer => cases hlater

/-- Only an operation through a handle that published the address last makes the table publish it no
longer. -/
theorem through_of_ends (hbefore : (after ops).publishes T a = true)
    (hafter : (after (ops ++ [op])).publishes T a = false) :
    ∃ n, standing (history ops) n = some (T, a) ∧
      ((∃ b, b ≠ a ∧ op = .publish n b) ∨ op.PopsThrough (op.deed (after ops)).answer n ∨
        op = .release n) := by
  obtain ⟨ha, n, hn⟩ := (publishes_iff_standing ..).1 hbefore
  refine ⟨n, hn, ?_⟩
  have hgone : standing (history (ops ++ [op])) n ≠ some (T, a) := fun hstill => by
    rw [(publishes_iff_standing (ops ++ [op]) T a).2 ⟨ha, n, hstill⟩] at hafter
    cases hafter
  have hmoved := restates_concat ops op n
  generalize standing (history (ops ++ [op])) n = later at hmoved hgone
  cases hmoved with
  | kept => exact absurd hn hgone
  | @acquired t T' i hop hanswer =>
    obtain ⟨sign, shown, hsound, htells⟩ := standing_after ops
    obtain ⟨handle, hget, -⟩ := Option.map_eq_some_iff.1 ((htells n).symm.trans hn)
    have hused : n < (after ops).horizon := hsound.handles n (by rw [hget]; rfl)
    subst hop
    exact absurd (acquire_grants hanswer).1 (Nat.not_le.2 hused)
  | @published b hop hanswer =>
    refine .inl ⟨b, ?_, hop⟩
    rintro rfl
    exact hgone (by rw [hn, Option.map_some])
  | cleared hpop => exact .inr (.inl hpop)
  | released hop hanswer => exact .inr (.inr hop)

/-- What tables publish after a run, and how that changes with one more operation. -/
structure ProtectsByHistory (ops : List (Op α)) : Prop where
  live : ∀ n, (standing (history ops) n).map (·.1) = ((after ops).handles.get? n).map (·.table)
  publishes_iff : ∀ T a, (after ops).publishes T a = true ↔
    a ≠ .null ∧ ∃ n, standing (history ops) n = some (T, a)
  publish : ∀ n handle, (after ops).handles.get? n = some handle → ∀ a,
    ((Op.publish n a).deed (after ops)).answer = .done ∧
      standing (history (ops ++ [.publish n a])) n = some (handle.table, a)
  release : ∀ n handle, (after ops).handles.get? n = some handle →
    ((Op.release n).deed (after ops)).answer = .done ∧
      standing (history (ops ++ [.release n])) n = none
  starts : ∀ op T a, (after ops).publishes T a = false → (after (ops ++ [op])).publishes T a = true →
    ∃ n, op = .publish n a ∧ (op.deed (after ops)).answer = .done ∧
      ((after ops).handles.get? n).map (·.table) = some T
  ends : ∀ op T a, (after ops).publishes T a = true → (after (ops ++ [op])).publishes T a = false →
    ∃ n, standing (history ops) n = some (T, a) ∧
      ((∃ b, b ≠ a ∧ op = .publish n b) ∨ op.PopsThrough (op.deed (after ops)).answer n ∨
        op = .release n)

theorem protection_follows_history (ops : List (Op α)) : ProtectsByHistory ops where
  live := table_standing ops
  publishes_iff := publishes_iff_standing ops
  publish _ _ := publish_stands
  release _ _ := release_stands
  starts _ _ _ := publish_of_starts
  ends _ _ _ := through_of_ends

/-- Handle 5 has slot 1 of table 1 and publishes block 9 in it. -/
def guarded : List (Op (Option String)) :=
  [.newTable 1 2, .newStack 2 1, .startThread 3, .acquire 3 1 4, .acquire 3 1 5] ++
    [.publish 5 (.block 9)]

/-- The publication begins with the last operation of `guarded` and ends with a pop through the
handle. A handle that gets the slot later does not take over what the one before published in it
last. -/
theorem publication_ends_with_pop :
    let σ := after (guarded.take 5)
    let σ' := after guarded
    let later := guarded ++ [.release 5] ++ [.acquire 3 1 6]
    (((Op.publish 5 (.block 9)).deed σ).answer = .done ∧
      standing (history guarded) 5 = some (1, .block 9)) ∧
    (σ.publishes 1 (.block 9) = false ∧ σ'.publishes 1 (.block 9) = true ∧
      ∃ n, (.publish 5 (.block 9) : Op (Option String)) = .publish n (.block 9) ∧
        ((Op.publish 5 (.block 9)).deed σ).answer = .done ∧
        (σ.handles.get? n).map (·.table) = some 1) ∧
    ((after (guarded ++ [.popWith 2 5])).publishes 1 (.block 9) = false ∧
      ∃ n, standing (history guarded) n = some (1, .block 9) ∧
        (Op.popWith 2 5).PopsThrough ((Op.popWith 2 5).deed σ').answer n) ∧
    (((Op.release 5).deed σ').answer = .done ∧
      standing (history (guarded ++ [.release 5])) 5 = none) ∧
    ((after later).handles.get? 6 = some ⟨1, 1⟩ ∧ (standing (history later) 6).map (·.1) = some 1) ∧
    ((after later).publishes 1 (.block 9) = false ∧
      ∀ n, standing (history later) n ≠ some (1, .block 9)) := by
  have h := protection_follows_history (guarded.take 5)
  have h' := protection_follows_history guarded
  have h'' := protection_follows_history (guarded ++ [.release 5] ++ [.acquire 3 1 6])
  refine ⟨h.publish 5 ⟨1, 1⟩ rfl (.block 9), ⟨rfl, rfl, h.starts _ 1 (.block 9) rfl rfl⟩, ⟨rfl, ?_⟩,
    h'.release 5 ⟨1, 1⟩ rfl, ⟨rfl, h''.live 6⟩, rfl, fun n hn => ?_⟩
  · obtain ⟨n, hn, hways⟩ := h'.ends (.popWith 2 5) 1 (.block 9) rfl rfl
    refine ⟨n, hn, ?_⟩
    rcases hways with ⟨b, -, hop⟩ | hpops | hop
    · cases hop
    · exact hpops
    · cases hop
  · have hpublished := (h''.publishes_iff 1 (.block 9)).2 ⟨Address.block_ne_null 9, n, hn⟩
    cases hpublished

end Op

end HazardLifo
