import HazardLifo.Proofs.Interleaved.Passes

/-!
# Gauges and reclaims

The gauge of a stack shows how many retired entries there are, at every instant of every run: those
that a pop has counted and nobody has freed, and those that a sweep has freed and not yet taken off
(`Machine.gauge_exact`). So nothing is ever taken off that has not been counted, and between
operations the gauge is the length of the limbo list. A reclaim that runs alone from there frees the
entries whose nodes no slot publishes, answers with their number, and lowers the gauge by it.
-/

namespace HazardLifo.Interleaved

variable {α : Type}

def Memory.protectedEntries (m : Memory α) (s : StackIndex) : List (Block × Block) :=
  (m.waiting s).filter fun p => m.table.publishes (.block p.2)

def Memory.freeEntries (m : Memory α) (s : StackIndex) : List (Block × Block) :=
  (m.waiting s).filter fun p => !m.table.publishes (.block p.2)

theorem Memory.length_freeEntries_le (m : Memory α) (s : StackIndex) :
    (m.freeEntries s).length ≤ (m.waiting s).length :=
  List.length_filter_le ..

namespace Machine

variable {M M' : Machine α} {s : StackIndex} {t : Nat}

/-- What a reclaim of stack `s` has done that thread `t` has made alone, from its call on machine
`M` to its reply on `M'`. -/
structure Reclaims (M : Machine α) (t : Nat) (s : StackIndex) (acts : List (Act α))
    (M' : Machine α) : Prop where
  reply : (M.log (.call t (.reclaim s) :: acts)).getLast? =
    some (.returned (.reclaimed (M.memory.freeEntries s).length))
  waiting : M'.memory.waiting s = (M.memory.protectedEntries s).reverse
  gauge : M'.memory.gauge s = M.memory.gauge s - UInt64.ofNat (M.memory.freeEntries s).length
  toNat_gauge : M.tally s < UInt64.size →
    (M'.memory.gauge s).toNat + (M.memory.freeEntries s).length = (M.memory.gauge s).toNat
  /-- The gauge is lowered to zero if no operation was in progress and nothing is published. -/
  gauge_zero : (∀ g ∈ M.agents, g.control = .idle) → M.memory.protectedEntries s = [] →
    M'.memory.gauge s = 0

theorem length_words_of_reaches {capacity count : Nat} {tokens : List Token}
    (h : (start capacity count tokens : Machine α).Reaches M) : M.memory.words.length = count := by
  refine invariant_of_step (P := fun M => M.memory.words.length = count) ?_ ?_ h
  · intro M act M' marks hlen hs
    cases hs with
    | move hact ht hm => exact hm.length_words.trans hlen
    | _ => exact hlen
  · exact List.length_replicate

/-- A reclaim that comes to its end without interference. -/
theorem Metered.reclaims (h : M.Metered) (hsound : M.Sound) {g : Agent α}
    (hg : M.agents[t]? = some g) (hc : g.control = .idle) (hs : s < M.memory.words.length) :
    (∃ n M', M.run? (.call t (.reclaim s) :: List.replicate n (.step t)) = some M' ∧
      M'.control? t = some .idle) ∧
    ∀ acts M', (∀ act ∈ acts, act.mover? = some t) →
      M.run? (.call t (.reclaim s) :: acts) = some M' → M'.control? t = some .idle →
      M.Reclaims t s acts M' := by
  obtain ⟨hend, hrun⟩ := sifts_of_run hg hc (hsound.inLimbo hs)
  refine ⟨hend, fun acts M' hacts hrun' hend' => ?_⟩
  have hsifts := (hrun acts M' hacts hrun').2.2 hend'
  have hgauge : M'.memory.gauge s =
      M.memory.gauge s - UInt64.ofNat (M.memory.freeEntries s).length := hsifts.gauge
  refine ⟨?_, hsifts.limbo.waiting_eq, hgauge, fun hfits => ?_, fun hidle hnone => ?_⟩
  · rw [hsifts.log, ← List.append_assoc, List.getLast?_concat]
    rfl
  · have hle : (M.memory.freeEntries s).length ≤ M.tally s :=
      Nat.le_trans (M.memory.length_freeEntries_le s) (Nat.le_add_right ..)
    have hfree : (UInt64.ofNat (M.memory.freeEntries s).length).toNat =
        (M.memory.freeEntries s).length := by
      rw [UInt64.toNat_ofNat', Nat.mod_eq_of_lt (Nat.lt_of_le_of_lt hle hfits)]
    have hshown := h.toNat_gauge hfits
    rw [hgauge, UInt64.toNat_sub_of_le, hfree]
    · omega
    · rw [UInt64.le_iff_toNat_le]
      omega
  · have hall : M.memory.freeEntries s = M.memory.waiting s := by
      refine List.filter_eq_self.2 fun p hp => ?_
      have hp' := List.filter_eq_nil_iff.1 hnone p hp
      simpa using hp'
    rw [hgauge, h.gauge s, tally_of_idle hidle, hall]
    exact UInt64.sub_self _

/-- In every reachable machine the gauge of a stack is its tally: modulo the word size always, and
as numbers as long as the tally fits a word, which it does until there have been that many
allocations. What a sweep is about to take off is counted. Between operations the tally is the
length of the limbo list, and a reclaim that an idle thread makes alone comes to its end and does
what `Reclaims` says. -/
theorem gauge_exact {capacity count : Nat} {tokens : List Token}
    (h : (start capacity count tokens : Machine α).Reaches M) (s : StackIndex) :
    M.memory.gauge s = UInt64.ofNat (M.tally s) ∧
      (M.tally s < UInt64.size → (M.memory.gauge s).toNat = M.tally s) ∧
      M.tally s ≤ M.memory.births ∧
      (∀ t pass, M.control? t = some (.settling pass) → pass.freed ≤ M.tally pass.stack) ∧
      ((∀ g ∈ M.agents, g.control = .idle) → M.tally s = (M.memory.waiting s).length) ∧
      ∀ t, M.control? t = some .idle → s < count →
        (∃ n M', M.run? (.call t (.reclaim s) :: List.replicate n (.step t)) = some M' ∧
          M'.control? t = some .idle) ∧
        ∀ acts M', (∀ act ∈ acts, act.mover? = some t) →
          M.run? (.call t (.reclaim s) :: acts) = some M' → M'.control? t = some .idle →
          M.Reclaims t s acts M' := by
  have hsound := Sound.of_reaches h
  have hmetered := Metered.of_reaches h
  refine ⟨hmetered.gauge s, hmetered.toNat_gauge, ?_, fun t pass => freed_le_tally,
    fun hidle => tally_of_idle hidle s, fun t ht hs => ?_⟩
  · exact Nat.le_trans (Nat.le_add_right ..) (hmetered.born s)
  · obtain ⟨g, hg, hc⟩ := control?_eq_some.1 ht
    exact hmetered.reclaims hsound hg hc ((length_words_of_reaches h).symm ▸ hs)

/-- A thread publishes a node through its slot while another pops it, and retires it. -/
theorem pop_retires : ∃ m : Memory Nat,
    (start 2 1 [1, 2]).Reaches
      ⟨m, [⟨1, [0], .peeking { stack := 0, result := some 7 }⟩, ⟨2, [1], .idle⟩]⟩ ∧
      m.table = ⟨[⟨some 1, .null⟩, ⟨some 2, .block 3⟩]⟩ ∧ m.load (.limbo 0) = some 4 ∧
      m.object? 4 = some (.entry 3 none) := by
  let T : SlotTable := ⟨[⟨some 1, .null⟩, ⟨some 2, .block 3⟩]⟩
  let g : Agent Nat := ⟨1, [0], .idle⟩
  let agents : List (Agent Nat) := [g, ⟨2, [1], .idle⟩]
  have hlen : 0 < agents.length := Nat.zero_lt_two
  let setup : List (Act Nat) := [.call 0 .acquire, .step 0, .call 1 .acquire, .step 1, .step 1,
    .call 1 (.publish 1 (.block 3)), .step 1]
  have hsetup : (start 2 1 [1, 2] : Machine Nat).run? setup = some ⟨⟨T, [{}], ∅, 0⟩, agents⟩ := rfl
  let later : List (Act Nat) := [.step 0, .step 0, .step 0, .step 0, .step 0, .step 0, .step 0,
    .receive 0 4, .step 0, .step 0, .step 0, .step 0]
  obtain ⟨m, hrun, htable, hwords, -, hload, hheap⟩ :=
    run?_push hlen (g := g) rfl (m := ⟨T, [{}], ∅, 0⟩) (s := 0) Nat.one_pos (b := 3)
      (by simp) 7 (.call 0 (.pop 0 0) :: .step 0 :: .step 0 :: later)
  have htop : m.load (.top 0) = some 3 := by rw [hload, if_pos rfl]
  have hlimbo : m.load (.limbo 0) = none := by rw [hload, if_neg nofun]; rfl
  have hnode : m.object? 3 = some (.node (some 7) none) := by
    simp [Memory.object?, hheap, Memory.load]
  have hfree : m.heap[4]? = none := by simp [hheap]
  rw [run?_pop hlen rfl (by rw [hwords]; exact Nat.one_pos) (by decide), htop]
    at hrun
  -- the node is published once more, unlinked, withdrawn and emptied
  let m₁ := m.mapTable (·.publish 0 (.block 3))
  let m₂ := m₁.store (.top 0) none
  let m₃ := m₂.mapTable (·.publish 0 .null)
  let m₄ := m₃.overwrite 3 (.node none none)
  -- the other slot still publishes it, so it goes into limbo
  let m₅ := m₄.allocate 4 (.entry 3 none)
  let m₆ := m₅.mapGauge 0 (· + 1)
  let m₇ := m₆.overwrite 4 (.entry 3 none)
  have htop₁ : m₁.load (.top 0) = some 3 := (Memory.load_mapTable ..).trans htop
  have hheap₃ : m₃.heap = m.heap := Memory.heap_store ..
  have htable₄ : m₄.table = T := by
    simp only [m₄, m₃, m₂, m₁, Memory.table_overwrite, Memory.mapTable, Memory.table_store, htable]
    rfl
  have hfree₄ : m₄.heap.contains 4 = false := by
    rw [Std.HashMap.contains_eq_isSome_getElem?, Memory.getElem?_heap_overwrite,
      if_neg (by decide), hheap₃, hfree]
    rfl
  have hentry₆ : m₆.object? 4 = some (.entry 3 none) :=
    (Memory.object?_allocate ..).trans (if_pos rfl)
  have hlimbo₆ : m₆.load (.limbo 0) = none := by
    simp only [m₆, m₅, m₄, m₃, m₂, m₁, Memory.load_mapGauge, Memory.load_allocate,
      Memory.load_overwrite, Memory.load_mapTable]
    rw [Memory.load_store _ (hwords.symm ▸ Nat.one_pos), if_neg nofun, Memory.load_mapTable]
    exact hlimbo
  have hpop : (⟨m₁, agents.set 0 (g.goTo (.validating 0 0 (some 3)))⟩ : Machine Nat).run? later =
      some ⟨m₇.store (.limbo 0) (some 4),
        agents.set 0 (g.goTo (.peeking { stack := 0, result := some 7 }))⟩ := by
    rw [run?_step hlen (a := ⟨m₁, g.goTo (.following 0 0 3), []⟩) (by
        simp only [Agent.step, Agent.goTo, htop₁, if_true]),
      run?_step hlen (a := ⟨m₁, g.goTo (.unlinking 0 0 3 none), []⟩) (by
        simp only [Agent.step, Agent.goTo, show m₁.object? 3 = _ from hnode]),
      run?_step hlen (a := ⟨m₂, g.goTo (.clearing 0 0 (some 3)), []⟩) (by
        simp only [Agent.step, Agent.goTo, htop₁, if_true]; rfl),
      run?_step hlen (a := ⟨m₃, g.goTo (.taking 0 3), []⟩) rfl,
      run?_step hlen (a := ⟨m₄, g.goTo (.scanning 0 3 7 0), []⟩) (by
        simp only [Agent.step, Agent.goTo, Memory.object?_of_heap hheap₃, hnode]; rfl),
      run?_step hlen (a := ⟨m₄, g.goTo (.scanning 0 3 7 1), []⟩) (by
        simp only [Agent.step, Agent.goTo, htable₄]; rfl),
      run?_step hlen (a := ⟨m₄, g.goTo (.wrapping 0 3 7), []⟩) (by
        simp only [Agent.step, Agent.goTo, htable₄]; rfl),
      run?_receive hlen (a := ⟨m₅, g.goTo (.counting 0 3 4 7), []⟩) (by
        simp [Agent.receive, Agent.goTo, hfree₄]; rfl),
      run?_step hlen (a := ⟨m₆, g.goTo (.loading (.limbo 0) 4 (.retire 0 7)), [.retired 0 3]⟩) rfl,
      run?_step hlen (a := ⟨m₆, g.goTo (.linking (.limbo 0) 4 none (.retire 0 7)), []⟩) (by
        simp only [Agent.step, Agent.relink, Agent.goTo, hlimbo₆]),
      run?_step hlen (a := ⟨m₇, g.goTo (.swinging (.limbo 0) 4 none (.retire 0 7)), []⟩) (by
        simp only [Agent.step, Agent.goTo, hentry₆]; rfl),
      run?_step hlen (a := ⟨m₇.store (.limbo 0) (some 4),
        g.goTo (.peeking { stack := 0, result := some 7 }), []⟩) (by
        simp only [Agent.step, Agent.linked, Agent.goTo]
        rw [if_pos ((Memory.load_overwrite ..).trans hlimbo₆)])]
    rfl
  have hs : 0 < m₇.words.length := by
    simp [m₇, m₆, m₅, m₄, m₃, m₂, m₁, Memory.mapGauge, Memory.allocate, Memory.mapTable, hwords]
  let whole := setup ++ (soloPush 0 0 7 3 ++ (.call 0 (.pop 0 0) :: .step 0 :: .step 0 :: later))
  refine ⟨m₇.store (.limbo 0) (some 4), ⟨whole, ?_⟩, ?_, ?_, ?_⟩
  · rw [run?_append, hsetup, Option.bind_some]
    exact hrun.trans hpop
  · simpa [m₇, m₆, m₅, Memory.mapGauge, Memory.allocate] using htable₄
  · rw [m₇.load_store (w := .limbo 0) hs, if_pos rfl]
  · rw [Memory.object?_of_heap (Memory.heap_store ..), Memory.object?_overwrite, if_pos rfl,
      hentry₆]
    rfl

/-- The retired node stays in limbo until its address is withdrawn; then a reclaim frees it and
lowers the gauge to zero. -/
theorem reclaim_after_withdrawal : ∃ (M M' : Machine Nat) (acts : List (Act Nat)),
    (start 2 1 [1, 2]).Reaches M ∧ M.memory.waiting 0 = [(4, 3)] ∧ M.memory.gauge 0 = 1 ∧
      (∀ g ∈ M.agents, g.control = .idle) ∧ M.memory.protectedEntries 0 = [] ∧
      M.control? 0 = some .idle ∧ (∀ act ∈ acts, act.mover? = some 0) ∧
      M.run? (.call 0 (.reclaim 0) :: acts) = some M' ∧ M'.control? 0 = some .idle ∧
      M.Reclaims 0 0 acts M' ∧ M'.memory.waiting 0 = [] ∧ M'.memory.gauge 0 = 0 := by
  obtain ⟨m, ⟨before, hbefore⟩, htable, hlimbo, hentry⟩ := pop_retires
  have hlimbo₀ : m.InLimbo 0 [(4, 3)] := by
    have hsound := Sound.of_reaches ⟨before, hbefore⟩
    have hL := hsound.inLimbo (s := 0) ((length_words_of_reaches ⟨before, hbefore⟩).symm ▸ Nat.one_pos)
    have hchain : Chain m.wrapped? (some 4) [(4, 3)] :=
      .cons (Memory.wrapped?_eq_some.2 hentry) rfl
    exact (hlimbo ▸ hL.chain).unique hchain ▸ hL
  -- the pop ends with a sweep, which puts the entry back
  let S : Sweep Nat := ⟨m, 0, [(4, 3)], hlimbo₀, some 7⟩
  have hA : S.At m [] (.peeking (S.pass [])) [] := .peeking rfl
  have hthere : 0 < ([⟨1, [0], .idle⟩, ⟨2, [1], .idle⟩] : List (Agent Nat)).length := Nat.zero_lt_two
  obtain ⟨n, m₁, L, hrun₁, hA₁⟩ := hA.finishes hthere ⟨1, [0], .idle⟩
  obtain ⟨hlimbo₁, htable₁⟩ := hA₁.ended
  have hwaiting₁ : m₁.waiting 0 = [(4, 3)] := by
    refine hlimbo₁.waiting_eq.trans ?_
    simp only [S, Sweep.kept, htable]
    rfl
  replace htable₁ : m₁.table = ⟨[⟨some 1, .null⟩, ⟨some 2, .block 3⟩]⟩ := htable₁.trans htable
  -- then the other thread withdraws the address
  let m₂ := m₁.mapTable (·.publish 1 .null)
  let M₂ : Machine Nat := ⟨m₂, [⟨1, [0], .idle⟩, ⟨2, [1], .idle⟩]⟩
  have hrun₂ : (⟨m₁, [⟨1, [0], .idle⟩, ⟨2, [1], .idle⟩]⟩ : Machine Nat).run?
      [.call 1 (.publish 1 .null), .step 1] = some M₂ := rfl
  have hreach : (start 2 1 [1, 2]).Reaches M₂ := by
    refine ⟨before ++ (List.replicate n (.step 0) ++ [.call 1 (.publish 1 .null), .step 1]), ?_⟩
    rw [run?_append, hbefore, Option.bind_some, run?_append]
    exact (congrArg (Option.bind · _) hrun₁).trans hrun₂
  have hidle : ∀ g ∈ M₂.agents, g.control = .idle := by
    simp [M₂]
  have hwaiting : m₂.waiting 0 = [(4, 3)] := hwaiting₁
  have htable₂ : m₂.table = ⟨[⟨some 1, .null⟩, ⟨some 2, .null⟩]⟩ :=
    congrArg (SlotTable.publish · 1 .null) htable₁
  have hnone : m₂.protectedEntries 0 = [] := by
    rw [Memory.protectedEntries, hwaiting, htable₂]
    rfl
  obtain ⟨hgauge, -, -, -, htally, hreclaim⟩ := gauge_exact hreach 0
  have hcontrol : M₂.control? 0 = some .idle := rfl
  obtain ⟨⟨k, M', hrun, hend⟩, hdone⟩ := hreclaim 0 hcontrol Nat.one_pos
  have hmoves : ∀ act ∈ List.replicate k (.step 0 : Act Nat), act.mover? = some 0 :=
    fun act hact => mover?_of_mem_replicate hact
  have hreclaims := hdone _ M' hmoves hrun hend
  have hgauge_one : M₂.memory.gauge 0 = 1 := by
    rw [hgauge, htally hidle]
    exact congrArg _ (congrArg List.length hwaiting)
  refine ⟨M₂, M', _, hreach, hwaiting, hgauge_one, hidle, hnone, hcontrol, hmoves, hrun, hend,
    hreclaims, ?_, hreclaims.gauge_zero hidle hnone⟩
  exact hreclaims.waiting.trans (congrArg List.reverse hnone)

end Machine

end HazardLifo.Interleaved
