import HazardLifo.Proofs.Interleaved.Atomic
import HazardLifo.Proofs.Interleaved.Slots

/-!
# Enough slots

A thread that acquires a slot tests the slots one after the other while others are claimed and
given back. As long as there are never more than `k` handles and attempts together, at most `k - j`
of them are at slot `j` or beyond (`Machine.Spread`): a test that fails at slot `j` leaves the
holder of that slot behind. So no attempt gets as far as slot `k`.
-/

namespace HazardLifo.Interleaved

variable {α : Type}

def Control.test? : Control α → Option Nat
  | .trying i => some i
  | _ => none

namespace Machine

def tests (M : Machine α) : List Nat := M.agents.flatMap (·.control.test?.toList)

/-- The number of handles, up to the moment when their slots are free again, and of attempts to
acquire one. -/
def demand (M : Machine α) : Nat := M.held.length + M.tests.length

/-- The number of handles and attempts at slot `j` or beyond. -/
def beyond (M : Machine α) (j : Nat) : Nat := (M.held ++ M.tests).countP (j ≤ ·)

/-- Handles and attempts leave slots free below any slot. -/
def Spread (k : Nat) (M : Machine α) : Prop := ∀ j ≤ k, M.beyond j + j ≤ k

theorem mem_tests {M : Machine α} {t i : Nat} (ht : M.control? t = some (.trying i)) :
    i ∈ M.tests := by
  obtain ⟨g, hg, hc⟩ := control?_eq_some.1 ht
  refine List.mem_flatMap.2 ⟨g, List.mem_of_getElem? hg, ?_⟩
  simp [hc, Control.test?]

/-! ## Counting -/

theorem countP_le_eq (l : List Nat) (i : Nat) :
    l.countP (i ≤ ·) = l.countP (i + 1 ≤ ·) + l.count i := by
  induction l with
  | nil => rfl
  | cons x l ih =>
    simp only [List.countP_cons, List.count_cons, ih, decide_eq_true_eq, beq_iff_eq]
    rcases Nat.lt_trichotomy x i with h | rfl | h
    · simp [Nat.not_le.2 h, Nat.ne_of_lt h, Nat.not_le.2 (Nat.lt_succ_of_lt h)]
    · simp only [Nat.le_refl, Nat.not_succ_le_self, if_true, if_false]
      omega
    · simp [Nat.le_of_lt h, Nat.ne_of_gt h, Nat.succ_le_of_lt h]
      omega

theorem beyond_zero (M : Machine α) : M.beyond 0 = M.demand := by
  simp [beyond, demand]

variable {M M' : Machine α} {g : Agent α} {t i j k : Nat}

theorem beyond_set (ht : M.agents[t]? = some g) (m : Memory α) (g' : Agent α) (j : Nat) :
    (⟨m, M.agents.set t g'⟩ : Machine α).beyond j +
        (g.held ++ g.control.test?.toList).countP (j ≤ ·) =
      M.beyond j + (g'.held ++ g'.control.test?.toList).countP (j ≤ ·) := by
  have hheld := (flatMap_set (·.held) ht g').countP_eq (j ≤ ·)
  have htests := (flatMap_set (·.control.test?.toList) ht g').countP_eq (j ≤ ·)
  simp only [List.countP_append] at hheld htests
  simp only [beyond, held, tests, List.countP_append]
  omega

theorem Exclusive.two_at (h : M.Exclusive) (ht : M.control? t = some (.trying i))
    (howned : (M.memory.table.owner i).isSome) : M.beyond (i + 1) + 2 ≤ M.beyond i := by
  have hheld : 0 < M.held.count i := List.count_pos_iff.2 ((h.owned_iff i).1 howned)
  have htests : 0 < M.tests.count i := List.count_pos_iff.2 (mem_tests ht)
  have hcount := countP_le_eq (M.held ++ M.tests) i
  rw [List.count_append] at hcount
  unfold beyond
  omega

end Machine

variable {m : Memory α} {g : Agent α} {a : Advance α}

theorem Move.test_cases (hm : Move m g a) :
    (∀ j, (a.agent.held ++ a.agent.control.test?.toList).countP (j ≤ ·) ≤
        (g.held ++ g.control.test?.toList).countP (j ≤ ·)) ∨
      ∃ i, g.control = .trying i ∧ a.agent.control = .trying (i + 1) ∧
        a.agent.held = g.held ∧ (m.table.owner i).isSome := by
  cases hm with
  | quiet hq =>
    cases hq with
    | taken hs ho => exact .inr ⟨_, rfl, rfl, rfl, by simpa [SlotTable.owner, hs] using ho⟩
    | exhausted => exact .inl fun j => by simp [Control.test?]
    | _ => exact .inl fun j => Nat.le_refl _
  | publish hp => cases hp <;> exact .inl fun j => Nat.le_refl _
  | claim => exact .inl fun j => by simp [Control.test?, List.countP_cons, Nat.add_comm]
  | disown =>
    refine .inl fun j => ?_
    simpa [Control.test?] using List.Sublist.countP_le (List.erase_sublist ..)
  | crash hl => cases hl <;> exact .inl fun j => Nat.le_refl _
  | _ => exact .inl fun j => Nat.le_refl _

theorem Move.trying_of_reply (hm : Move m g a) {r : Reply α}
    (hr : a.marks.findSome? Mark.reply? = some r)
    (h : (∃ i, r = .acquired i) ∨ ∃ c, r = .exhausted c) : ∃ i, g.control = .trying i := by
  have hpass : ∀ pass : Pass α, pass.reply ≠ r := by
    intro pass hpass
    unfold Pass.reply at hpass
    split at hpass <;> subst hpass <;> simp at h
  cases hm with
  | quiet hq =>
    cases hq with
    | exhausted => exact ⟨_, rfl⟩
    | bare => exact absurd (Option.some.inj hr) (hpass _)
    | _ => cases hr
  | publish hp => cases hp <;> cases hr <;> simp at h
  | claim => exact ⟨_, rfl⟩
  | settle =>
    rw [Pass.reply?_marks] at hr
    exact absurd (Option.some.inj hr) (hpass _)
  | disown | push => cases hr; simp at h
  | _ => cases hr

/-- What a test of slot `i` can do. -/
theorem Move.of_trying (hm : Move m g a) {i : Nat} (hc : g.control = .trying i) :
    (m.table.slots[i]? = none ∧ a = ⟨m, g.goTo .idle,
      [.exhausted g.token m.table.capacity, .returned (.exhausted m.table.capacity)]⟩) ∨
    ((m.table.owner i).isSome ∧ a = ⟨m, g.goTo (.trying (i + 1)), []⟩) ∨
    (i < m.table.capacity ∧ m.table.owner i = none ∧
      a = ⟨m.mapTable (·.modify i ({ · with owner := some g.token })),
        { g with held := i :: g.held, control := .idle },
        [.claimed g.token i, .returned (.acquired i)]⟩) := by
  cases hm with
  | quiet hq =>
    cases hq with
    | exhausted h =>
      cases hc
      exact .inl ⟨h, rfl⟩
    | taken h ho =>
      cases hc
      refine .inr (.inl ⟨?_, rfl⟩)
      simpa [SlotTable.owner, h] using ho
    | _ => cases hc
  | publish hp => cases hp <;> cases hc
  | claim h ho =>
    cases hc
    refine .inr (.inr ⟨(List.getElem?_eq_some_iff.1 h).1, ?_, rfl⟩)
    simp [SlotTable.owner, h, ho]
  | crash hl => cases hl <;> cases hc
  | _ => cases hc

theorem Move.cases_of_trying (hm : Move m g a) {i : Nat} (hc : g.control = .trying i) :
    m.table.slots[i]? = none ∨
      a.agent.control = .trying (i + 1) ∧ a.marks.findSome? Mark.reply? = none ∨
      a.marks.findSome? Mark.reply? = some (.acquired i) := by
  rcases hm.of_trying hc with ⟨hnone, -⟩ | ⟨-, rfl⟩ | ⟨-, -, rfl⟩
  · exact .inl hnone
  · exact .inr (.inl ⟨rfl, rfl⟩)
  · exact .inr (.inr rfl)

/-! ## Steps of the machine -/

namespace Machine

variable {M M' : Machine α} {act : Act α} {acts : List (Act α)} {marks : List (Mark α)}
  {t i k : Nat}

theorem Spread.lt_of_trying (h : M.Spread k) (ht : M.control? t = some (.trying i)) : i < k := by
  have hmem : i ∈ M.held ++ M.tests := List.mem_append_right _ (mem_tests ht)
  by_contra hle
  have hpos : 0 < M.beyond k := List.countP_pos_iff.2 ⟨i, hmem, by simpa using hle⟩
  have hk := h k (Nat.le_refl k)
  omega

theorem spread_start (capacity count : Nat) (tokens : List Token) (k : Nat) :
    (start capacity count tokens : Machine α).Spread k := by
  intro j hj
  have hnone : (start capacity count tokens : Machine α).held ++
      (start capacity count tokens : Machine α).tests = [] := by
    simp [start, held, tests, Control.test?]
  simpa [beyond, hnone] using hj

/-- A step lets no more handles and attempts be at slot `j` or beyond, unless an operation begins at
slot 0, or a test fails at the slot before `j`; then the holder of that slot stays behind. -/
theorem Exclusive.beyond_step (hex : M.Exclusive) (hs : Step M act M' marks) (j : Nat) :
    M'.beyond j ≤ M.beyond j ∨ j = 0 ∨ ∃ i, j = i + 1 ∧ M'.beyond j + 1 ≤ M.beyond i := by
  cases hs with
  | @call u g command hu hc hslot hstack =>
    have hset := beyond_set hu M.memory (g.goTo command.entry) j
    rcases Nat.eq_zero_or_pos j with rfl | hpos
    · exact .inr (.inl rfl)
    · -- a new attempt begins at slot 0, which does not count here
      have hnew : command.entry.test?.toList.countP (j ≤ ·) = 0 := by
        cases command <;> simp [Command.entry, Control.test?, Nat.ne_of_gt hpos]
      left
      simp only [Agent.goTo, List.countP_append, hnew] at hset
      simp only [Agent.goTo]
      omega
  | @move u g a act hmover hu hm =>
    have hset := beyond_set hu a.memory a.agent j
    rcases hm.test_cases with hcount | ⟨i, hc, hc', hheld, howned⟩
    · have := hcount j
      left
      omega
    · have htwo := hex.two_at (control?_eq_some.2 ⟨g, hu, hc⟩) howned
      simp only [hc, hc', hheld, Control.test?, List.countP_append, Option.toList_some,
        List.countP_singleton, decide_eq_true_eq] at hset
      by_cases hji : j = i + 1
      · subst hji
        refine .inr (.inr ⟨i, rfl, ?_⟩)
        simp only [Nat.le_refl, Nat.not_succ_le_self, if_true, if_false] at hset
        omega
      · have hiff : j ≤ i ↔ j ≤ i + 1 := by omega
        simp only [hiff] at hset
        left
        omega
  | @handOver u v i g g' hu hv hne hi hc hc' =>
    have hv' : (M.agents.set u { g with held := g.held.erase i })[v]? = some g' := by
      rwa [getElem?_agents_set hu, if_neg hne.symm]
    have hgive := beyond_set hu M.memory { g with held := g.held.erase i } j
    have htake := beyond_set (M := ⟨M.memory, _⟩) hv' M.memory { g' with held := i :: g'.held } j
    have hperm := (List.perm_cons_erase hi).countP_eq (j ≤ ·)
    left
    simp only [List.countP_append, List.countP_cons] at hgive htake hperm
    omega

theorem Spread.step (h : M.Spread k) (hex : M.Exclusive) (hs : Step M act M' marks)
    (hdemand : M'.demand ≤ k) : M'.Spread k := by
  intro j hj
  rcases hex.beyond_step hs j with hle | rfl | ⟨i, rfl, hle⟩
  · have := h j hj
    omega
  · rw [beyond_zero]
    exact hdemand
  · have := h i (Nat.le_of_succ_le hj)
    omega

/-! ## Runs -/

/-- At every instant of the run there are at most `k` handles and attempts together. -/
def Within (k : Nat) (M : Machine α) (acts : List (Act α)) : Prop :=
  ∀ n M', M.run? (acts.take n) = some M' → M'.demand ≤ k

theorem Within.tail {M₁ : Machine α} (h : Within k M (act :: acts))
    (hact : M.act? act = some (M₁, marks)) : Within k M₁ acts := fun n M' hrun =>
  h (n + 1) M' (run?_cons_eq_some.2 ⟨M₁, marks, hact, hrun⟩)

theorem Within.drop (h : Within k M acts) {n : Nat} (hrun : M.run? (acts.take n) = some M') :
    Within k M' (acts.drop n) := fun j M'' hrun' =>
  h (n + j) M'' (by rw [List.take_add, run?_append, hrun]; exact hrun')

theorem Within.take (h : Within k M acts) (n : Nat) : Within k M (acts.take n) := fun j M' hrun =>
  h (min j n) M' (by rwa [List.take_take] at hrun)

theorem Spread.run (h : M.Spread k) (hex : M.Exclusive) (hwithin : Within k M acts)
    (hrun : M.run? acts = some M') : M'.Spread k := by
  induction acts generalizing M with
  | nil => exact Option.some.inj hrun ▸ h
  | cons act acts ih =>
    obtain ⟨M₁, marks, hact, hrun⟩ := run?_cons_eq_some.1 hrun
    have hs := act?_step hact
    have hwithin₁ := hwithin.tail hact
    exact ih (h.step hex hs (hwithin₁ 0 M₁ rfl)) (hex.step hs) hwithin₁ hrun

/-- An attempt that tests slot `i` gets a slot by at most `k - i` steps of its own. -/
theorem Spread.exists_reply (h : M.Spread k) (hex : M.Exclusive)
    (hcap : k ≤ M.memory.table.capacity) (hwithin : Within k M acts)
    (hrun : M.run? acts = some M') (ht : M.control? t = some (.trying i))
    (hcount : k ≤ i + acts.countP (·.mover? = some t)) :
    ∃ m j, FirstReply (M.history acts) t m (.acquired j) := by
  have hi := h.lt_of_trying ht
  induction acts generalizing M i with
  | nil => exact absurd hcount (Nat.not_le.2 hi)
  | cons act acts ih =>
    obtain ⟨M₁, marks, hact, hrun⟩ := run?_cons_eq_some.1 hrun
    have hs := act?_step hact
    have hwithin₁ := hwithin.tail hact
    have h₁ := h.step hex hs (hwithin₁ 0 M₁ rfl)
    have hhistory : M.history (act :: acts) = act.occurrence marks :: M₁.history acts := by
      simp only [history, hact]
    rw [hhistory]
    -- unless this act answers the attempt, the rest of the run does
    have hlater : ∀ {i'}, M₁.control? t = some (.trying i') →
        k ≤ i' + acts.countP (·.mover? = some t) →
        (∀ r, act.occurrence marks ≠ .reply t r) →
        ∃ m j, FirstReply (act.occurrence marks :: M₁.history acts) t m (.acquired j) := by
      intro i' ht' hcount' hnone
      obtain ⟨m, j, hm⟩ := ih h₁ (hex.step hs) (hs.capacity_eq ▸ hcap) hwithin₁ hrun ht' hcount'
        (h₁.lt_of_trying ht')
      exact ⟨m + 1, j, hm.cons hnone⟩
    by_cases hmover : act.mover? = some t
    · obtain ⟨g, hg, hc⟩ := control?_eq_some.1 ht
      obtain ⟨a, hm, rfl, rfl⟩ := hs.exists_move hmover hg
      have hocc := Act.occurrence_of_mover? hmover a.marks
      rcases hm.cases_of_trying hc with hnone | ⟨hc', hquiet⟩ | hreply
      · have hlen := List.getElem?_eq_none_iff.1 hnone
        exact absurd (Nat.lt_of_lt_of_le hi hcap) (Nat.not_lt.2 hlen)
      · refine hlater (by rw [control?_set_self hg, hc']) ?_ fun r hr => ?_
        · simp only [List.countP_cons, hmover, decide_true, if_true] at hcount
          omega
        · rw [hocc, hquiet] at hr
          cases hr
      · refine ⟨0, i, ?_, fun l r hl => absurd hl (Nat.not_lt_zero l)⟩
        rw [hocc, hreply]
        rfl
    · refine hlater ((hs.control?_eq hmover (by simp [ht])).trans ht) ?_ fun r hr => ?_
      · simpa [List.countP_cons, hmover] using hcount
      · exact hmover (hs.exists_move_of_reply hr).1

theorem act?_of_trying (ht : M.control? t = some (.trying i)) :
    ∃ M' marks, M.act? (.step t) = some (M', marks) := by
  obtain ⟨g, hg, hc⟩ := control?_eq_some.1 ht
  obtain ⟨a, ha⟩ : ∃ a, g.step M.memory = some a := by
    simp only [Agent.step, hc]
    split
    · exact ⟨_, rfl⟩
    · split <;> exact ⟨_, rfl⟩
  refine ⟨⟨a.memory, M.agents.set t a.agent⟩, a.marks, ?_⟩
  simp only [act?, hg, ha, Option.bind_eq_bind, Option.bind_some, Option.pure_def, settle]

theorem Within.spread_take {capacity count : Nat} {tokens : List Token}
    (h : Within k (start capacity count tokens) acts) {n : Nat}
    (hrun : (start capacity count tokens).run? (acts.take n) = some M) :
    M.Spread k ∧ M.Exclusive :=
  ⟨(spread_start capacity count tokens k).run (exclusive_start capacity count tokens) (h.take n)
    hrun,
    invariant_of_step (fun h hs => h.step hs) (exclusive_start capacity count tokens) ⟨_, hrun⟩⟩

theorem Within.exists_trying {capacity count : Nat} {tokens : List Token}
    (h : Within k (start capacity count tokens) acts) (hk : k ≤ capacity) {m : Nat} {r : Reply α}
    (hm : ((start capacity count tokens).history acts)[m]? = some (.reply t r))
    (hr : (∃ i, r = .acquired i) ∨ ∃ c, r = .exhausted c) : ∃ i < k, r = .acquired i := by
  obtain ⟨act, M₁, M₂, marks, hact, hrun, hstep, hx⟩ := exists_act_of_history hm
  obtain ⟨hspread, -⟩ := h.spread_take hrun
  obtain ⟨-, g, a, hg, hmove, hreply⟩ := (act?_step hstep).exists_move_of_reply hx
  obtain ⟨i, hc⟩ := hmove.trying_of_reply hreply hr
  have hi := hspread.lt_of_trying (control?_eq_some.2 ⟨g, hg, hc⟩)
  rcases hmove.cases_of_trying hc with hnone | ⟨-, hquiet⟩ | hacquired
  · have hlen := List.getElem?_eq_none_iff.1 hnone
    have hcap := capacity_of_reaches ⟨_, hrun⟩
    unfold SlotTable.capacity at hcap
    omega
  · rw [hquiet] at hreply
    cases hreply
  · exact ⟨i, hi, Option.some.inj (hreply.symm.trans hacquired)⟩

theorem exists_run_of_call (hrun : M.run? acts = some M') {n : Nat} {command : Command α}
    (hn : (M.history acts)[n]? = some (.call t command)) :
    ∃ M₁, M.run? (acts.take (n + 1)) = some M₁ ∧ M₁.run? (acts.drop (n + 1)) = some M' ∧
      M₁.control? t = some command.entry ∧ (M.history (acts.take n)).length = n ∧
      M.history acts =
        M.history (acts.take n) ++ .call t command :: M₁.history (acts.drop (n + 1)) := by
  obtain ⟨act, M₀, M₁, marks, hact, hrun₀, hstep, hx⟩ := exists_act_of_history hn
  have hrun₁ : M.run? (acts.take (n + 1)) = some M₁ := by
    rw [List.take_add_one, hact]
    exact run?_concat_eq_some.2 ⟨M₀, marks, hrun₀, hstep⟩
  refine ⟨M₁, hrun₁, ?_, control?_of_call hstep hx, ?_, ?_⟩
  · rw [← List.take_append_drop (n + 1) acts, run?_append, hrun₁] at hrun
    exact hrun
  · rw [length_history hrun₀, List.length_take_of_le]
    exact Nat.le_of_lt (List.getElem?_eq_some_iff.1 hact).1
  · have hhistory := history_append hrun₁ (acts.drop (n + 1))
    rwa [List.take_append_drop, List.take_add_one, hact, Option.toList_some,
      history_concat hrun₀ hstep, hx, List.append_assoc, List.singleton_append] at hhistory

theorem Within.exists_answer {capacity count : Nat} {tokens : List Token}
    (h : Within k (start capacity count tokens) acts) (hk : k ≤ capacity)
    (hrun : (start capacity count tokens).run? acts = some M) {n : Nat}
    (hn : ((start capacity count tokens : Machine α).history acts)[n]? =
      some (.call t .acquire))
    (hcount : k ≤ (acts.drop (n + 1)).countP (·.mover? = some t)) :
    ∃ m i, Answers ((start capacity count tokens : Machine α).history acts) n t m
      (.acquired i) := by
  obtain ⟨M₁, hrun₁, hrest, ht, hlen, hhistory⟩ := exists_run_of_call hrun hn
  obtain ⟨hspread, hex⟩ := h.spread_take hrun₁
  obtain ⟨m, j, hm⟩ := hspread.exists_reply hex (capacity_of_reaches ⟨_, hrun₁⟩ ▸ hk)
    (h.drop hrun₁) hrest ht (by rwa [Nat.zero_add])
  have hans := hm.answers ((start capacity count tokens).history (acts.take n))
    (.call t .acquire)
  rw [← hhistory, hlen] at hans
  exact ⟨_, j, hans⟩

/-- Enough slots for everybody. In a run in which at every instant the handles and the attempts to
acquire one number at most `k`, where `k` is at most the capacity, no attempt finds the table
exhausted and every slot that is handed out is below `k`; no attempt is ever stuck, and one that
makes `k` steps of its own has got a slot. -/
theorem acquire_succeeds {capacity count k : Nat} {tokens : List Token} {acts : List (Act α)}
    (hrun : (start capacity count tokens).run? acts = some M) (hk : k ≤ capacity)
    (hdemand : ∀ n M', (start capacity count tokens).run? (acts.take n) = some M' →
      M'.demand ≤ k) :
    (∀ m t c : Nat, ((start capacity count tokens).history acts)[m]? ≠
      some (Occurrence.reply t (.exhausted c))) ∧
    (∀ m t i : Nat, ((start capacity count tokens).history acts)[m]? =
      some (Occurrence.reply t (.acquired i)) → i < k) ∧
    (∀ t i, M.control? t = some (.trying i) →
      i < k ∧ ∃ M' marks, M.act? (.step t) = some (M', marks)) ∧
    ∀ n t : Nat, ((start capacity count tokens).history acts)[n]? =
        some (Occurrence.call t .acquire) →
      k ≤ (acts.drop (n + 1)).countP (·.mover? = some t) →
      ∃ m i, Answers ((start capacity count tokens).history acts) n t m (.acquired i) ∧ i < k := by
  have hwithin : Within k (start capacity count tokens) acts := hdemand
  refine ⟨fun m t c hm => ?_, fun m t i hm => ?_, fun t i ht => ⟨?_, act?_of_trying ht⟩,
    fun n t hn hcount => ?_⟩
  · obtain ⟨i, -, hi⟩ := hwithin.exists_trying hk hm (.inr ⟨c, rfl⟩)
    cases hi
  · obtain ⟨j, hj, hi⟩ := hwithin.exists_trying hk hm (.inl ⟨i, rfl⟩)
    cases hi
    exact hj
  · obtain ⟨hspread, -⟩ := hwithin.spread_take (n := acts.length) (by rwa [List.take_length])
    exact hspread.lt_of_trying ht
  · obtain ⟨m, i, hans⟩ := hwithin.exists_answer hk hrun hn hcount
    obtain ⟨j, hj, hi⟩ := hwithin.exists_trying hk hans.2.1 (.inl ⟨i, rfl⟩)
    cases hi
    exact ⟨m, i, hans, hj⟩

/-- Of two threads that test the first of two slots, the later one gets the second slot. -/
theorem two_acquire : ∃ (acts : List (Act Nat)) (M : Machine Nat),
    (start 2 1 [1, 2]).run? acts = some M ∧
    (∀ n M', (start 2 1 [1, 2]).run? (acts.take n) = some M' → M'.demand ≤ 2) ∧
    ((start 2 1 [1, 2]).history acts)[1]? = some (.call 1 .acquire) ∧
    2 ≤ (acts.drop 2).countP (·.mover? = some 1) ∧
    ∃ m i, Answers ((start 2 1 [1, 2]).history acts) 1 1 m (.acquired i) ∧ i < 2 := by
  let acts : List (Act Nat) := [.call 0 .acquire, .call 1 .acquire, .step 0, .step 1, .step 1]
  obtain ⟨M, hrun⟩ : ∃ M, (start 2 1 [1, 2] : Machine Nat).run? acts = some M := ⟨_, rfl⟩
  have hdemand : ∀ n M', (start 2 1 [1, 2] : Machine Nat).run? (acts.take n) = some M' →
      M'.demand ≤ 2 := by
    intro n M' h
    obtain rfl | rfl | rfl | rfl | rfl | hn :
        n = 0 ∨ n = 1 ∨ n = 2 ∨ n = 3 ∨ n = 4 ∨ 5 ≤ n := by omega
    case inr.inr.inr.inr.inr =>
      rw [List.take_of_length_le hn] at h
      obtain rfl := Option.some.inj h
      decide
    all_goals
      obtain rfl := Option.some.inj h
      decide
  have hcall : ((start 2 1 [1, 2] : Machine Nat).history acts)[1]? = some (.call 1 .acquire) := rfl
  have hcount : 2 ≤ (acts.drop 2).countP (·.mover? = some 1) := by decide
  obtain ⟨-, -, -, hanswered⟩ := acquire_succeeds hrun (Nat.le_refl 2) hdemand
  exact ⟨acts, M, hrun, hdemand, hcall, hcount, hanswered 1 1 hcall hcount⟩

end Machine

end HazardLifo.Interleaved
