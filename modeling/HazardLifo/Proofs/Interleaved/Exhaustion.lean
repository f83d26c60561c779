import HazardLifo.Proofs.Interleaved.Renaming
import HazardLifo.Proofs.Interleaved.Tenure

/-!
# Exhaustion

An attempt that is refused has found every slot owned, each at the instant of its own test. It takes
no snapshot: a slot that is given back behind its back and a slot that is claimed ahead of it let
the attempt pass, although there was a free slot at every instant (`overtaken_never_full`).

What holds is a count. While the handles and the attempts together do not outnumber the slots, an
attempt that has come to slot `j` leaves enough of them behind for every slot below `j`
(`Machine.SpreadBelow`), and so does not come to the end. So they do outnumber the slots at some
instant between the first test and the last (`refused_outnumbered`).
-/

namespace HazardLifo.Interleaved

variable {α : Type}

theorem FirstReply.of_cons {h : List (Occurrence α)} {x : Occurrence α} {t m : Nat} {r : Reply α}
    (hm : FirstReply (x :: h) t m r) (hx : ∀ r', x ≠ .reply t r') :
    ∃ m', m = m' + 1 ∧ FirstReply h t m' r := by
  cases m with
  | zero => exact absurd (Option.some.inj hm.1) (hx r)
  | succ m =>
    refine ⟨m, rfl, hm.1, fun j r' hj => ?_⟩
    exact hm.2 (j + 1) r' (Nat.succ_lt_succ hj)

theorem FirstReply.head {h : List (Occurrence α)} {t m : Nat} {r r' : Reply α}
    (hm : FirstReply (.reply t r' :: h) t m r) : m = 0 ∧ r' = r := by
  cases m with
  | zero => exact ⟨rfl, (Occurrence.reply.inj (Option.some.inj hm.1)).2⟩
  | succ m => exact absurd rfl (hm.2 0 r' (Nat.succ_pos m))

theorem Answers.firstReply {h h' : List (Occurrence α)} {x : Occurrence α} {n t m : Nat}
    {r : Reply α} (hm : Answers (h ++ x :: h') n t m r) (hn : h.length = n) :
    ∃ m', m = n + 1 + m' ∧ FirstReply h' t m' r := by
  obtain ⟨hlt, hr, hfirst⟩ := hm
  subst hn
  have hget : ∀ j, (h ++ x :: h')[h.length + 1 + j]? = h'[j]? := by
    intro j
    rw [List.getElem?_append_right (by omega), show h.length + 1 + j - h.length = j + 1 by omega,
      List.getElem?_cons_succ]
  obtain ⟨m', rfl⟩ : ∃ m', m = h.length + 1 + m' := ⟨m - (h.length + 1), by omega⟩
  refine ⟨m', rfl, by rwa [hget] at hr, fun j r' hj hx => ?_⟩
  exact hfirst (h.length + 1 + j) r' (by omega) (by omega) ((hget j).trans hx)

namespace Machine

variable {M M' M₁ M₂ : Machine α} {act : Act α} {acts : List (Act α)} {marks : List (Mark α)}
  {t i j k p q m c : Nat}

def Full (M : Machine α) : Prop :=
  ∀ i < M.memory.table.capacity, (M.memory.table.owner i).isSome

instance (M : Machine α) : Decidable M.Full := inferInstanceAs (Decidable (∀ i < _, _))

/-- Act number `p` of the run is a test of slot `i` by thread `t`, which finds the slot owned. -/
def FindsOwned (M : Machine α) (acts : List (Act α)) (t i p : Nat) : Prop :=
  ∃ M' act, M.run? (acts.take p) = some M' ∧ acts[p]? = some act ∧ act.mover? = some t ∧
    M'.control? t = some (.trying i) ∧ (M'.memory.table.owner i).isSome

/-! ## One attempt -/

theorem Step.of_trying (hs : Step M act M' marks) (hmover : act.mover? = some t)
    (ht : M.control? t = some (.trying i)) :
    (M.memory.table.capacity ≤ i ∧
      act.occurrence marks = .reply t (.exhausted M.memory.table.capacity)) ∨
    ((M.memory.table.owner i).isSome ∧ M'.control? t = some (.trying (i + 1)) ∧
      act.occurrence marks = .silent) ∨
    act.occurrence marks = .reply t (.acquired i) := by
  obtain ⟨g, hg, hc⟩ := control?_eq_some.1 ht
  obtain ⟨a, hm, rfl, rfl⟩ := hs.exists_move hmover hg
  rw [Act.occurrence_of_mover? hmover]
  rcases hm.of_trying hc with ⟨hnone, rfl⟩ | ⟨howned, rfl⟩ | ⟨-, -, rfl⟩
  · exact .inl ⟨List.getElem?_eq_none_iff.1 hnone, rfl⟩
  · exact .inr (.inl ⟨howned, control?_set_self hg _ _, rfl⟩)
  · exact .inr (.inr rfl)

theorem FindsOwned.cons (hact : M.act? act = some (M₁, marks)) (h : M₁.FindsOwned acts t i p) :
    M.FindsOwned (act :: acts) t i (p + 1) := by
  obtain ⟨M', act', hrun, hp, hmover, ht, howned⟩ := h
  exact ⟨M', act', run?_cons_eq_some.2 ⟨M₁, marks, hact, hrun⟩, hp, hmover, ht, howned⟩

theorem FindsOwned.append {before : List (Act α)} (hbefore : M.run? before = some M₁)
    (h : M₁.FindsOwned acts t i p) : M.FindsOwned (before ++ acts) t i (before.length + p) := by
  obtain ⟨M', act, hrun, hp, hmover, ht, howned⟩ := h
  refine ⟨M', act, ?_, ?_, hmover, ht, howned⟩
  · rw [List.take_length_add_append, run?_append, hbefore]
    exact hrun
  · rw [List.getElem?_append_right (Nat.le_add_right ..), Nat.add_sub_cancel_left]
    exact hp

/-- An attempt that is refused has tested the slots one after the other, from the one where it was,
and has found each of them owned. -/
theorem exists_scan (hrun : M.run? acts = some M') (ht : M.control? t = some (.trying i))
    (hm : FirstReply (M.history acts) t m (.exhausted c)) :
    c = M.memory.table.capacity ∧ ∃ test : Nat → Nat, ∀ j, i ≤ j → j < M.memory.table.capacity →
      test j < m ∧ M.FindsOwned acts t j (test j) ∧ ∀ l, i ≤ l → l < j → test l < test j := by
  induction acts generalizing M i m with
  | nil => cases hm.1
  | cons act acts ih =>
    obtain ⟨M₁, marks, hact, hrun⟩ := run?_cons_eq_some.1 hrun
    have hs := act?_step hact
    have hhistory : M.history (act :: acts) = act.occurrence marks :: M₁.history acts := by
      simp only [history, hact]
    rw [hhistory] at hm
    by_cases hmover : act.mover? = some t
    · rcases hs.of_trying hmover ht with ⟨hend, hx⟩ | ⟨howned, ht₁, hx⟩ | hx
      · -- the end of the table
        rw [hx] at hm
        obtain ⟨-, hr⟩ := hm.head
        refine ⟨(Reply.exhausted.inj hr).symm, fun _ => 0, fun j hij hj => ?_⟩
        omega
      · -- a failed test: the rest of the attempt begins at the next slot
        obtain ⟨m', rfl, hm'⟩ := hm.of_cons (by simp [hx])
        obtain ⟨hc, test, htest⟩ := ih hrun ht₁ hm'
        rw [hs.capacity_eq] at hc htest
        refine ⟨hc, fun j => if j = i then 0 else test j + 1, fun j hij hj => ?_⟩
        by_cases hji : j = i
        · subst hji
          simp only [if_true]
          refine ⟨Nat.succ_pos m', ⟨M, act, rfl, rfl, hmover, ht, howned⟩, fun l hl hlj => ?_⟩
          omega
        · obtain ⟨hlt, hfinds, hmono⟩ := htest j (by omega) hj
          simp only [if_neg hji]
          refine ⟨Nat.succ_lt_succ hlt, hfinds.cons hact, fun l hl hlj => ?_⟩
          split
          · exact Nat.succ_pos _
          · exact Nat.succ_lt_succ (hmono l (by omega) hlj)
      · rw [hx] at hm
        obtain ⟨-, hr⟩ := hm.head
        cases hr
    · have hx : ∀ r, act.occurrence marks ≠ .reply t r := by
        intro r hr
        exact hmover (hs.exists_move_of_reply hr).1
      obtain ⟨m', rfl, hm'⟩ := hm.of_cons hx
      have ht₁ := (hs.control?_eq hmover (by simp [ht])).trans ht
      obtain ⟨hc, test, htest⟩ := ih hrun ht₁ hm'
      rw [hs.capacity_eq] at hc htest
      refine ⟨hc, fun j => test j + 1, fun j hij hj => ?_⟩
      obtain ⟨hlt, hfinds, hmono⟩ := htest j hij hj
      refine ⟨Nat.succ_lt_succ hlt, hfinds.cons hact, fun l hl hlj => ?_⟩
      exact Nat.succ_lt_succ (hmono l hl hlj)

/-! ## Handles and attempts during an attempt -/

/-- Handles and attempts leave slots free below slot `n` and the slots before it. -/
def SpreadBelow (n k : Nat) (M : Machine α) : Prop := ∀ j ≤ n, M.beyond j + j ≤ k

/-- An attempt keeps the handles and the attempts spread up to the slot where it is. -/
theorem SpreadBelow.run (h : M.SpreadBelow i k) (hex : M.Exclusive) (hwithin : Within k M acts)
    (hrun : M.run? acts = some M') (ht : M.control? t = some (.trying i))
    (hquiet : ∀ r, .reply t r ∉ M.history acts) :
    ∃ j, M'.control? t = some (.trying j) ∧ M'.SpreadBelow j k := by
  induction acts generalizing M i with
  | nil => exact ⟨i, Option.some.inj hrun ▸ ht, Option.some.inj hrun ▸ h⟩
  | cons act acts ih =>
    obtain ⟨M₁, marks, hact, hrun⟩ := run?_cons_eq_some.1 hrun
    have hs := act?_step hact
    have hwithin₁ := hwithin.tail hact
    simp only [history, hact, List.mem_cons, not_or] at hquiet
    -- what another thread does
    have hother : M₁.SpreadBelow i k := by
      intro j hj
      rcases hex.beyond_step hs j with hle | rfl | ⟨l, rfl, hle⟩
      · have := h j hj
        omega
      · rw [beyond_zero]
        exact hwithin₁ 0 M₁ rfl
      · have := h l (Nat.le_of_succ_le hj)
        omega
    by_cases hmover : act.mover? = some t
    · rcases hs.of_trying hmover ht with ⟨-, hx⟩ | ⟨howned, ht₁, -⟩ | hx
      · exact absurd hx.symm (hquiet _).1
      · refine ih (fun j hj => ?_) (hex.step hs) hwithin₁ hrun ht₁ fun r => (hquiet r).2
        by_cases hji : j = i + 1
        · -- the holder of the tested slot stays behind
          subst hji
          have htwo := hex.two_at ht howned
          have hi := h i (Nat.le_refl i)
          rcases hex.beyond_step hs (i + 1) with hle | hzero | ⟨l, hl, hle⟩
          · omega
          · omega
          · obtain rfl : i = l := Nat.succ.inj hl
            omega
        · exact hother j (by omega)
      · exact absurd hx.symm (hquiet _).1
    · have ht₁ := (hs.control?_eq hmover (by simp [ht])).trans ht
      exact ih hother (hex.step hs) hwithin₁ hrun ht₁ fun r => (hquiet r).2

theorem exists_of_mem_history_between (hpq : p ≤ q) (hq : q ≤ acts.length)
    (hrun₁ : M.run? (acts.take p) = some M₁) (hrun₂ : M.run? (acts.take q) = some M₂)
    {x : Occurrence α} (hx : x ∈ M₁.history ((acts.take q).drop p)) :
    ∃ l, p ≤ l ∧ l < q ∧ (M.history acts)[l]? = some x := by
  have hsplit : M.history acts = M.history (acts.take p) ++
      (M₁.history ((acts.take q).drop p) ++ M₂.history (acts.drop q)) := by
    rw [← history_append (run?_between hpq hrun₁ hrun₂), ← history_append hrun₁]
    congr 1
    rw [← List.append_assoc, ← Nat.min_eq_left hpq, ← List.take_take, Nat.min_eq_left hpq,
      List.take_append_drop, List.take_append_drop]
  obtain ⟨l, hl, hget⟩ := List.mem_iff_getElem.1 hx
  have hlen₁ := length_history hrun₁
  have hlen₂ := length_history (run?_between hpq hrun₁ hrun₂)
  rw [List.length_take] at hlen₁
  rw [List.length_drop, List.length_take] at hlen₂
  refine ⟨p + l, Nat.le_add_right p l, by omega, ?_⟩
  rw [hsplit, List.getElem?_append_right (by omega), List.getElem?_append_left (by omega),
    List.getElem?_eq_some_iff]
  refine ⟨by omega, ?_⟩
  rw [← hget]
  congr 1
  omega

/-- Between the test of the first slot and that of slot `k` by one attempt, both of them owned, the
handles and the attempts at some instant number more than `k + 1`. -/
theorem Exclusive.exists_crowded (hex : M.Exclusive) (hpq : p ≤ q)
    (hp : M.FindsOwned acts t 0 p) (hq : M.FindsOwned acts t k q)
    (hquiet : ∀ l r, p ≤ l → l < q → (M.history acts)[l]? ≠ some (.reply t r)) :
    ∃ l M', p ≤ l ∧ l ≤ q ∧ M.run? (acts.take l) = some M' ∧ k + 1 < M'.demand := by
  obtain ⟨M₁, act₁, hrun₁, -, -, ht₁, -⟩ := hp
  obtain ⟨M₂, act₂, hrun₂, hact₂, -, ht₂, howned⟩ := hq
  have hlen : q ≤ acts.length := Nat.le_of_lt (List.getElem?_eq_some_iff.1 hact₂).1
  by_contra hnone
  have hdemand : ∀ l M', p ≤ l → l ≤ q → M.run? (acts.take l) = some M' → M'.demand ≤ k + 1 := by
    intro l M' hpl hlq hrun
    by_contra hlt
    exact hnone ⟨l, M', hpl, hlq, hrun, Nat.lt_of_not_le hlt⟩
  have hwithin : Within (k + 1) M₁ ((acts.take q).drop p) := by
    intro n M' hrun
    have hsplit : acts.take (min (p + n) q) = acts.take p ++ ((acts.take q).drop p).take n := by
      rw [← List.take_take, List.take_add, List.take_take, Nat.min_eq_left hpq]
    refine hdemand (min (p + n) q) M' (by omega) (by omega) ?_
    rw [hsplit, run?_append, hrun₁]
    exact hrun
  have hspread : M₁.SpreadBelow 0 (k + 1) := by
    intro j hj
    obtain rfl := Nat.le_zero.1 hj
    rw [beyond_zero]
    exact hwithin 0 M₁ rfl
  have hex₁ : M₁.Exclusive := invariant_of_step (fun h hs => h.step hs) hex ⟨_, hrun₁⟩
  have hex₂ : M₂.Exclusive := invariant_of_step (fun h hs => h.step hs) hex ⟨_, hrun₂⟩
  have hsilent : ∀ r, .reply t r ∉ M₁.history ((acts.take q).drop p) := by
    intro r hr
    obtain ⟨l, hpl, hlq, hl⟩ := exists_of_mem_history_between hpq hlen hrun₁ hrun₂ hr
    exact hquiet l r hpl hlq hl
  obtain ⟨j, hj, hspread₂⟩ :=
    hspread.run hex₁ hwithin (run?_between hpq hrun₁ hrun₂) ht₁ hsilent
  obtain rfl : k = j := Control.trying.inj (Option.some.inj (ht₂.symm.trans hj))
  -- the attempt and the holder of slot `k` are both there, but only one of them may be
  have htwo := hex₂.two_at ht₂ howned
  have hle := hspread₂ k (Nat.le_refl k)
  omega

/-! ## Refused attempts -/

theorem Exclusive.full_of_le (h : M.Exclusive) (hle : M.memory.table.capacity ≤ M.held.length) :
    M.Full := by
  intro i hi
  have hsub : M.held ⊆ List.range M.memory.table.capacity := by
    intro j hj
    exact List.mem_range.2 (SlotTable.owner_isSome_lt ((h.owned_iff j).2 hj))
  have hperm : M.held.Perm (List.range M.memory.table.capacity) :=
    (List.subperm_of_subset h.nodup hsub).perm_of_length_le (by rwa [List.length_range])
  exact (h.owned_iff i).2 (hperm.mem_iff.2 (List.mem_range.2 hi))

theorem log_between {r : Nat} (hpr : p ≤ r) (hrq : r ≤ q)
    (hrun₁ : M.run? (acts.take p) = some M₁) (hrun₂ : M.run? (acts.take r) = some M₂) :
    M₁.log ((acts.take q).drop p) =
      M₁.log ((acts.take r).drop p) ++ M₂.log ((acts.take q).drop r) := by
  rw [← log_append (run?_between hpr hrun₁ hrun₂)]
  congr 1
  have hr : (acts.take r).drop p = ((acts.take q).drop p).take (r - p) := by
    rw [← List.drop_take, List.take_take, Nat.min_eq_left hrq]
  have hq : (acts.take q).drop r = ((acts.take q).drop p).drop (r - p) := by
    rw [List.drop_drop, Nat.add_sub_cancel' hpr]
  rw [hr, hq, List.take_append_drop]

theorem Exclusive.owned_of_run (h : M.Exclusive) (hrun : M.run? acts = some M')
    (howned : (M.memory.table.owner i).isSome) (hkept : ∀ o, .released o i ∉ M.log acts) :
    M'.memory.table.owner i = M.memory.table.owner i := by
  obtain ⟨token, htoken⟩ := Option.isSome_iff_exists.1 howned
  obtain ⟨htoken', -⟩ := (h.turns_of_run hrun i).unreleased htoken hkept
  rw [htoken, htoken']

/-- The attempt that thread `t` begins with the call at `n` tests slot `i` by act number `test i`,
and is refused by the reply at `m`. -/
structure RefusedScan (M : Machine α) (acts : List (Act α)) (t n m : Nat) (test : Nat → Nat) :
    Prop where
  found : ∀ i < M.memory.table.capacity,
    n < test i ∧ test i < m ∧ M.FindsOwned acts t i (test i)
  ordered : ∀ i j, i < j → j < M.memory.table.capacity → test i < test j
  /-- At some instant between the first test and the last, handles and attempts outnumber the slots.
  If this attempt is then the only one, every slot is owned. -/
  crowded : ∃ l M', test 0 ≤ l ∧ l ≤ test (M.memory.table.capacity - 1) ∧
    M.run? (acts.take l) = some M' ∧ M.memory.table.capacity < M'.demand ∧
    (M'.tests.length = 1 → M'.Full)
  /-- If no slot is given back between the first test and the last, every slot is owned at the
  last. -/
  kept : ∀ M₁ M₂, M.run? (acts.take (test 0)) = some M₁ →
    M.run? (acts.take (test (M.memory.table.capacity - 1))) = some M₂ →
    (∀ o i, .released o i ∉
      M₁.log ((acts.take (test (M.memory.table.capacity - 1))).drop (test 0))) →
    M₂.Full

theorem capacity_of_run (hrun : M.run? acts = some M') :
    M'.memory.table.capacity = M.memory.table.capacity :=
  invariant_of_step (P := fun M' => M'.memory.table.capacity = M.memory.table.capacity)
    (fun h hs => hs.capacity_eq.trans h) rfl ⟨acts, hrun⟩

/-- What an attempt that has found all slots owned, one after the other, says about the instants
between its first test and its last. -/
theorem Exclusive.refusedScan (hex : M.Exclusive) (hcap : 0 < M.memory.table.capacity)
    {n : Nat} {test : Nat → Nat}
    (hfound : ∀ i < M.memory.table.capacity,
      n < test i ∧ test i < m ∧ M.FindsOwned acts t i (test i))
    (hordered : ∀ i j, i < j → j < M.memory.table.capacity → test i < test j)
    (hquiet : ∀ l r, n < l → l < m → (M.history acts)[l]? ≠ some (.reply t r)) :
    RefusedScan M acts t n m test := by
  have hlast : M.memory.table.capacity - 1 < M.memory.table.capacity :=
    Nat.sub_lt hcap Nat.one_pos
  have hle : ∀ i j, i ≤ j → j < M.memory.table.capacity → test i ≤ test j := by
    intro i j hij hj
    rcases Nat.eq_or_lt_of_le hij with rfl | hlt
    · exact Nat.le_refl _
    · exact Nat.le_of_lt (hordered i j hlt hj)
  have hexclusive : ∀ {l M'}, M.run? (acts.take l) = some M' → M'.Exclusive := fun hrun =>
    invariant_of_step (fun h hs => h.step hs) hex ⟨_, hrun⟩
  obtain ⟨hn, -, hfirst⟩ := hfound 0 hcap
  obtain ⟨-, hm, hfinal⟩ := hfound _ hlast
  refine ⟨hfound, hordered, ?_, fun M₁ M₂ hrun₁ hrun₂ hkept i hi => ?_⟩
  · obtain ⟨l, M', hpl, hlq, hrun, hdemand⟩ := hex.exists_crowded (hle 0 _ (Nat.zero_le _) hlast)
      hfirst hfinal fun l r hpl hlq => hquiet l r (Nat.lt_of_lt_of_le hn hpl) (Nat.lt_trans hlq hm)
    rw [Nat.sub_add_cancel hcap] at hdemand
    refine ⟨l, M', hpl, hlq, hrun, hdemand, fun hone => ?_⟩
    apply (hexclusive hrun).full_of_le
    rw [capacity_of_run hrun]
    unfold demand at hdemand
    omega
  · rw [capacity_of_run hrun₂] at hi
    obtain ⟨-, -, M₀, act, hrun₀, -, -, -, howned⟩ := hfound i hi
    have hrest := hle i (M.memory.table.capacity - 1) (Nat.le_sub_one_of_lt hi) hlast
    rw [(hexclusive hrun₀).owned_of_run (run?_between hrest hrun₀ hrun₂) howned fun o ho => ?_]
    · exact howned
    · refine hkept o i ?_
      rw [log_between (hle 0 i (Nat.zero_le i) hi) hrest hrun₁ hrun₀]
      exact List.mem_append_right _ ho

/-- A thread that is refused a slot has found each slot owned when it tested it. At some instant
between its first test and its last the handles and the attempts, its own among them, outnumber the
slots; so every slot is owned at that instant if no other thread is then looking for one, and every
slot is owned at the last test if none has been given back since the first. -/
theorem refused_outnumbered {capacity count : Nat} {tokens : List Token} (hcap : 0 < capacity)
    (hrun : (start capacity count tokens).run? acts = some M) {n : Nat}
    (hcall : ((start capacity count tokens).history acts)[n]? = some (.call t .acquire))
    (hans : Answers ((start capacity count tokens).history acts) n t m (.exhausted c)) :
    c = capacity ∧ ∃ test, RefusedScan (start capacity count tokens) acts t n m test := by
  have hstart : (start capacity count tokens : Machine α).memory.table.capacity = capacity :=
    capacity_of_reaches ⟨[], rfl⟩
  obtain ⟨M₁, hrun₁, hrest, ht, hlen, hhistory⟩ := exists_run_of_call hrun hcall
  have hcap₁ : M₁.memory.table.capacity = capacity := capacity_of_reaches ⟨_, hrun₁⟩
  have hacts : (acts.take (n + 1)).length = n + 1 := by
    have hlt := (List.getElem?_eq_some_iff.1 hcall).1
    rw [length_history hrun] at hlt
    exact List.length_take_of_le hlt
  obtain ⟨m', rfl, hm'⟩ := (hhistory ▸ hans).firstReply hlen
  obtain ⟨hc, test, htest⟩ := exists_scan hrest ht hm'
  rw [hcap₁] at hc htest
  refine ⟨hc, fun j => n + 1 + test j, ?_⟩
  apply (exclusive_start capacity count tokens).refusedScan (by rwa [hstart])
  · intro i hi
    obtain ⟨hlt, hfinds, -⟩ := htest i (Nat.zero_le i) (hstart ▸ hi)
    have happ := hfinds.append hrun₁
    rw [List.take_append_drop, hacts] at happ
    exact ⟨by omega, by omega, happ⟩
  · intro i j hij hj
    obtain ⟨-, -, hmono⟩ := htest j (Nat.zero_le j) (hstart ▸ hj)
    exact Nat.add_lt_add_left (hmono i (Nat.zero_le i) hij) _
  · intro l r hnl hlm
    exact hans.2.2 l r hnl hlm

/-- Three threads and two slots. Thread 1 and thread 2 find the first slot owned by thread 0, which
then gives it back; thread 1 claims the second slot; thread 2 finds it owned and is refused. -/
def overtaken : List (Act Nat) :=
  [.call 0 .acquire, .step 0, .call 1 .acquire, .call 2 .acquire, .step 1, .step 2,
    .call 0 (.release 0), .step 0, .step 0, .step 1, .step 2, .step 2]

theorem answers_overtaken :
    Answers ((start 2 0 [1, 2, 3]).history overtaken) 3 2 11 (.exhausted 2) := by
  refine ⟨by decide, rfl, fun j r hj hjm => ?_⟩
  obtain rfl | rfl | rfl | rfl | rfl | rfl | rfl :
      j = 4 ∨ j = 5 ∨ j = 6 ∨ j = 7 ∨ j = 8 ∨ j = 9 ∨ j = 10 := by omega
  all_goals
    intro h
    cases h

/-- A thread is refused although at no instant of the whole run every slot is owned. -/
theorem overtaken_never_full :
    (∃ M, (start 2 0 [1, 2, 3]).run? overtaken = some M) ∧
    ((start 2 0 [1, 2, 3]).history overtaken)[3]? = some (.call 2 .acquire) ∧
    Answers ((start 2 0 [1, 2, 3]).history overtaken) 3 2 11 (.exhausted 2) ∧
    FindsOwned (start 2 0 [1, 2, 3]) overtaken 2 0 5 ∧
    FindsOwned (start 2 0 [1, 2, 3]) overtaken 2 1 10 ∧
    ∀ l M, (start 2 0 [1, 2, 3]).run? (overtaken.take l) = some M → ¬ M.Full := by
  refine ⟨⟨_, rfl⟩, rfl, answers_overtaken, ⟨_, _, rfl, rfl, rfl, rfl, rfl⟩,
    ⟨_, _, rfl, rfl, rfl, rfl, rfl⟩, fun l M hrun => ?_⟩
  have hcheck : ∀ l ≤ 12, ((start 2 0 [1, 2, 3]).run? (overtaken.take l)).all
      fun M => !decide M.Full := by
    decide
  have htake : overtaken.take l = overtaken.take (min l 12) := by
    rw [← List.take_take, List.take_of_length_le (show overtaken.length ≤ 12 by decide)]
  rw [htake] at hrun
  have hnot := hcheck (min l 12) (Nat.min_le_right l 12)
  rw [hrun] at hnot
  simpa using hnot

/-- The thread refused in this run has met more handles and attempts than there are slots. -/
theorem overtaken_outnumbered :
    0 < 2 ∧ (∃ M, (start 2 0 [1, 2, 3]).run? overtaken = some M) ∧
    ((start 2 0 [1, 2, 3]).history overtaken)[3]? = some (.call 2 .acquire) ∧
    Answers ((start 2 0 [1, 2, 3]).history overtaken) 3 2 11 (.exhausted 2) ∧
    ∃ test, RefusedScan (start 2 0 [1, 2, 3]) overtaken 2 3 11 test := by
  obtain ⟨M, hrun⟩ : ∃ M, (start 2 0 [1, 2, 3]).run? overtaken = some M := ⟨_, rfl⟩
  have hcall : ((start 2 0 [1, 2, 3]).history overtaken)[3]? = some (.call 2 .acquire) := rfl
  obtain ⟨-, htest⟩ := refused_outnumbered (by decide) hrun hcall answers_overtaken
  exact ⟨by decide, ⟨M, hrun⟩, hcall, answers_overtaken, htest⟩

end Machine

end HazardLifo.Interleaved
