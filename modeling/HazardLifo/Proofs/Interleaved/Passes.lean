import HazardLifo.Proofs.Interleaved.Sweep
import Mathlib.Tactic.FinCases

/-!
# Reclaims from end to end

A reclaim that one thread makes alone ends whatever the machine, the table and the limbo list are.
It frees the entries whose nodes no slot publishes, in the order of the list, answers with their
number, leaves the others in limbo in reverse order, and touches nothing else
(`Machine.reclaim_sifts`). So a second reclaim turns the list back and frees nothing.
-/

namespace HazardLifo

namespace SlotTable

variable (T : SlotTable) (entries : List (Block × Block))

theorem kept_kept : T.kept (T.kept entries).reverse = (T.kept entries).reverse := by
  refine List.filter_eq_self.2 fun p hp => ?_
  exact (List.mem_filter.1 (List.mem_reverse.1 hp)).2

theorem freed_kept : T.freed (T.kept entries).reverse = [] := by
  refine List.filter_eq_nil_iff.2 fun p hp => ?_
  simp [(List.mem_filter.1 (List.mem_reverse.1 hp)).2]

end SlotTable

namespace Interleaved.Machine

variable {α : Type} {M M' : Machine α} {t : Nat} {s : StackIndex} {L : List (Block × Block)}
  {acts : List (Act α)}

/-- What a reclaim of stack `s` has done that thread `t` has made alone, from its call on machine
`M`, where the entries `L` were in limbo, to its reply on `M'`. -/
structure Sifts (M : Machine α) (t : Nat) (s : StackIndex) (L : List (Block × Block))
    (acts : List (Act α)) (M' : Machine α) : Prop where
  log : M.log (.call t (.reclaim s) :: acts) =
    (M.memory.table.freed L).map (fun p => .freed s p.2) ++
      ((if L = [] then []
        else [.swept s (M.memory.table.freed L).length (M.memory.table.kept L).length]) ++
      [.returned (.reclaimed (M.memory.table.freed L).length)])
  gone : ∀ p ∈ M.memory.table.freed L,
    M'.memory.heap[p.1]? = none ∧ M'.memory.heap[p.2]? = none
  /-- The nodes that some slot publishes are in limbo again, in reverse order. -/
  limbo : M'.memory.InLimbo s (M.memory.table.kept L).reverse
  gauge : M'.memory.gauge s =
    M.memory.gauge s - UInt64.ofNat (M.memory.table.freed L).length
  toNat_gauge : (M.memory.gauge s).toNat = L.length →
    (M'.memory.gauge s).toNat = (M.memory.table.kept L).length
  table : M'.memory.table = M.memory.table
  heap : ∀ b, b ∉ L.map Prod.fst → b ∉ (M.memory.table.freed L).map Prod.snd →
    M'.memory.heap[b]? = M.memory.heap[b]?
  load : ∀ w, w ≠ .limbo s → M'.memory.load w = M.memory.load w
  gauges : ∀ s', s' ≠ s → M'.memory.gauge s' = M.memory.gauge s'
  agents : M'.agents = M.agents

theorem sifts_of_at {g : Agent α} (hg : M.agents[t]? = some g) (hc : g.control = .idle)
    {hL : M.memory.InLimbo s L} {m : Memory α} {left : List (Block × Block)}
    {marks : List (Mark α)} (hA : (⟨M.memory, s, L, hL, none⟩ : Sweep α).At m left .idle marks)
    (hlog : M.log (.call t (.reclaim s) :: acts) = marks) :
    M.Sifts t s L acts ⟨m, M.agents.set t (g.goTo .idle)⟩ := by
  obtain ⟨hlimbo, htable⟩ := hA.ended
  cases hA with
  | @idle m₁ h hm =>
    have hs : s < m₁.words.length := h.inLimbo.stack
    have hload : ∀ w, m.load w = m₁.load w := fun w => by rw [hm, Memory.load_mapGauge]
    have hheap : m.heap = m₁.heap := by rw [hm]; rfl
    have hgauge : ∀ s', m.gauge s' = if s = s' then
        M.memory.gauge s' - UInt64.ofNat (M.memory.table.freed L).length
        else M.memory.gauge s' := fun s' => by
      rw [hm, Memory.gauge_mapGauge _ hs, h.gauge]
      rfl
    have hlength := M.memory.table.length_freed_add_kept L
    refine
      { log := ?_
        gone := fun p hp => hheap ▸ h.gone hp
        limbo := hlimbo
        gauge := (hgauge s).trans (if_pos rfl)
        toNat_gauge := fun hexact => ?_
        table := htable
        heap := fun b hentry hnode => hheap ▸ h.heap hentry hnode
        load := fun w hw => (hload w).trans (h.load hw)
        gauges := fun s' hs' => (hgauge s').trans (if_neg hs'.symm)
        agents := ?_ }
    · rw [hlog, Sweep.marks_pass]
      rfl
    · have hfits := (M.memory.gauge s).toNat_lt
      have hfreed : (UInt64.ofNat (M.memory.table.freed L).length).toNat =
          (M.memory.table.freed L).length := by
        rw [UInt64.toNat_ofNat', Nat.mod_eq_of_lt]
        omega
      rw [hgauge, if_pos rfl, UInt64.toNat_sub_of_le, hfreed]
      · omega
      · rw [UInt64.le_iff_toNat_le]
        omega
    · obtain ⟨ht, rfl⟩ := List.getElem?_eq_some_iff.1 hg
      have hgoTo : M.agents[t].goTo .idle = M.agents[t] := by rw [← hc]; rfl
      simp only [hgoTo, List.set_getElem_self]

theorem mover?_of_mem_replicate {act : Act α} {n : Nat} (h : act ∈ List.replicate n (.step t)) :
    act.mover? = some t := by
  obtain rfl := List.eq_of_mem_replicate h
  rfl

/-- A reclaim that an idle thread makes alone comes to its end, within a bound that depends on the
number of entries and slots and on the exchanges that fail without cause. -/
theorem sifts_of_run {g : Agent α} (hg : M.agents[t]? = some g) (hc : g.control = .idle)
    (hL : M.memory.InLimbo s L) :
    (∃ n M', M.run? (.call t (.reclaim s) :: List.replicate n (.step t)) = some M' ∧
      M'.control? t = some .idle) ∧
    ∀ acts M', (∀ act ∈ acts, act.mover? = some t) →
      M.run? (.call t (.reclaim s) :: acts) = some M' →
      acts.length ≤ L.length * (M.memory.table.slots.length + 9) + 4 +
        2 * (acts.map Act.stumbles).sum ∧
      (∃ n M'', M'.run? (List.replicate n (.step t)) = some M'' ∧ M''.control? t = some .idle) ∧
      (M'.control? t = some .idle → M.Sifts t s L acts M') := by
  have ht : t < M.agents.length := (List.getElem?_eq_some_iff.1 hg).1
  let S : Sweep α := ⟨M.memory, s, L, hL, none⟩
  have hcall : M.act? (.call t (.reclaim s)) =
      some (⟨M.memory, M.agents.set t (g.goTo (.peeking (S.pass [])))⟩, []) := by
    simp [act?, hg, admits, hc, Command.slot?, Command.stack?, hL.stack, settle, Command.entry, S,
      Sweep.pass, Sweep.freed, Sweep.kept, SlotTable.freed, SlotTable.kept]
  have hA : S.At M.memory [] (.peeking (S.pass [])) [] := .peeking rfl
  have hidle : ∀ m c, (⟨m, M.agents.set t (g.goTo c)⟩ : Machine α).control? t = some c :=
    fun m c => control?_set_self hg m (g.goTo c)
  refine ⟨?_, fun acts M' hacts hrun => ?_⟩
  · obtain ⟨n, m', -, hrun, -⟩ := hA.finishes ht g
    exact ⟨n, _, run?_cons_eq_some.2 ⟨_, _, hcall, hrun⟩, hidle m' .idle⟩
  · obtain ⟨M₁, marks, hact, hrun⟩ := run?_cons_eq_some.1 hrun
    obtain ⟨rfl, rfl⟩ := Prod.mk.inj (Option.some.inj (hcall.symm.trans hact))
    obtain ⟨m', left', c', rfl, hA', hbound⟩ := hA.run ht hacts hrun
    refine ⟨?_, ?_, fun hend => ?_⟩
    · have hfuel : S.fuel [] (.peeking (S.pass [])) =
          L.length * (M.memory.table.slots.length + 9) + 4 := rfl
      omega
    · obtain ⟨n, m'', -, hrun', -⟩ := hA'.finishes ht g
      exact ⟨n, _, hrun', hidle m'' .idle⟩
    · obtain rfl : c' = .idle := Option.some.inj ((hidle m' c').symm.trans hend)
      refine sifts_of_at hg hc hA' ?_
      simp only [log, hcall]

/-- What a reclaim of stack `s` has done that thread `t` has made alone, from its call on machine
`M` to its reply on `M'`, if all the nodes in limbo were published: it has turned the list round and
brought it to `L`. -/
structure Restores (M : Machine α) (t : Nat) (s : StackIndex) (L : List (Block × Block))
    (acts : List (Act α)) (M' : Machine α) : Prop where
  log : M.log (.call t (.reclaim s) :: acts) =
    (if L = [] then [] else [.swept s 0 L.length]) ++ [.returned (.reclaimed 0)]
  limbo : M'.memory.InLimbo s L
  gauge : ∀ s', M'.memory.gauge s' = M.memory.gauge s'
  table : M'.memory.table = M.memory.table
  heap : ∀ b, b ∉ L.map Prod.fst → M'.memory.heap[b]? = M.memory.heap[b]?
  load : ∀ w, w ≠ .limbo s → M'.memory.load w = M.memory.load w
  agents : M'.agents = M.agents

theorem Sifts.restores {T : SlotTable} (hT : M.memory.table = T)
    (h : M.Sifts t s (T.kept L).reverse acts M') : M.Restores t s (T.kept L) acts M' := by
  have hfreed : M.memory.table.freed (T.kept L).reverse = [] := hT ▸ T.freed_kept L
  have hkept : M.memory.table.kept (T.kept L).reverse = (T.kept L).reverse := hT ▸ T.kept_kept L
  have hlog := h.log
  have hlimbo := h.limbo
  have hgauge := h.gauge
  simp only [hfreed, hkept, List.map_nil, List.nil_append, List.length_nil, List.length_reverse,
    List.reverse_eq_nil_iff, List.reverse_reverse] at hlog hlimbo hgauge
  refine
    { log := hlog
      limbo := hlimbo
      gauge := fun s' => ?_
      table := h.table
      heap := fun b hb => h.heap b (by simpa using hb) (by simp [hfreed])
      load := h.load
      agents := h.agents }
  by_cases hs : s' = s
  · exact hs ▸ hgauge.trans (UInt64.sub_zero _)
  · exact h.gauges s' hs

/-- On any machine with a limbo list in it, whatever the table and the other threads are, a reclaim
that an idle thread makes alone comes to its end and does what `Sifts` says. A second one after it,
by any idle thread, frees nothing and brings the entries back into their first order. -/
theorem reclaim_sifts (ht : M.control? t = some .idle) (hL : M.memory.InLimbo s L) :
    (∃ n M', M.run? (.call t (.reclaim s) :: List.replicate n (.step t)) = some M' ∧
      M'.control? t = some .idle) ∧
    ∀ acts M', (∀ act ∈ acts, act.mover? = some t) →
      M.run? (.call t (.reclaim s) :: acts) = some M' →
      acts.length ≤ L.length * (M.memory.table.slots.length + 9) + 4 +
        2 * (acts.map Act.stumbles).sum ∧
      (∃ n M'', M'.run? (List.replicate n (.step t)) = some M'' ∧ M''.control? t = some .idle) ∧
      (M'.control? t = some .idle → M.Sifts t s L acts M' ∧
        ∀ u acts' M'', M'.control? u = some .idle → (∀ act ∈ acts', act.mover? = some u) →
          M'.run? (.call u (.reclaim s) :: acts') = some M'' → M''.control? u = some .idle →
          M'.Restores u s (M.memory.table.kept L) acts' M'') := by
  obtain ⟨g, hg, hc⟩ := control?_eq_some.1 ht
  obtain ⟨hend, hruns⟩ := sifts_of_run hg hc hL
  refine ⟨hend, fun acts M' hacts hrun => ?_⟩
  obtain ⟨hbound, hgoes, hdone⟩ := hruns acts M' hacts hrun
  refine ⟨hbound, hgoes, fun hidle => ⟨hdone hidle, fun u acts' M'' hu hacts' hrun' hidle' => ?_⟩⟩
  have hsifts := hdone hidle
  obtain ⟨g', hg', hc'⟩ := control?_eq_some.1 hu
  have hsecond := (sifts_of_run hg' hc' hsifts.limbo).2 acts' M'' hacts' hrun'
  exact (hsecond.2.2 hidle').restores hsifts.table

/-- Three entries are in limbo, and the nodes of the first and the last are published: one reclaim
frees the node between them and turns the other two round, another one turns them back. -/
theorem reclaim_sifts_three : ∃ (M M' M'' : Machine Nat) (acts acts' : List (Act Nat)),
    M.control? 0 = some .idle ∧ M.memory.InLimbo 0 [(4, 1), (5, 2), (6, 3)] ∧
      M.run? (.call 0 (.reclaim 0) :: acts) = some M' ∧
      M.log (.call 0 (.reclaim 0) :: acts) =
        [.freed 0 2, .swept 0 1 2, .returned (.reclaimed 1)] ∧
      M'.memory.InLimbo 0 [(6, 3), (4, 1)] ∧ (M'.memory.gauge 0).toNat = 2 ∧
      M'.run? (.call 1 (.reclaim 0) :: acts') = some M'' ∧
      M'.log (.call 1 (.reclaim 0) :: acts') = [.swept 0 0 2, .returned (.reclaimed 0)] ∧
      M''.memory.InLimbo 0 [(4, 1), (6, 3)] ∧ (M''.memory.gauge 0).toNat = 2 := by
  let start : Memory Nat :=
    ⟨⟨[⟨some 1, .block 1⟩, ⟨some 2, .block 3⟩]⟩, [{ limbo := some 4, gauge := 3 }], ∅, 0⟩
  let nodes := ((start.allocate 1 (.node none none)).allocate 2 (.node none none)).allocate 3
    (.node none none)
  let m := ((nodes.allocate 4 (.entry 1 (some 5))).allocate 5 (.entry 2 (some 6))).allocate 6
    (.entry 3 none)
  let M : Machine Nat := ⟨m, [⟨1, [0], .idle⟩, ⟨2, [1], .idle⟩]⟩
  have hentries : M.memory.wrapped? 4 = some (1, some 5) ∧ M.memory.wrapped? 5 = some (2, some 6) ∧
      M.memory.wrapped? 6 = some (3, none) := by
    simp [Memory.wrapped?_eq_some, M, m, Memory.object?_allocate]
  have hL : M.memory.InLimbo 0 [(4, 1), (5, 2), (6, 3)] := by
    refine ⟨Nat.one_pos, ?_, fun hp => ⟨none, none, ?_⟩, by decide⟩
    · exact .cons hentries.1 (.cons hentries.2.1 (.cons hentries.2.2 rfl))
    · fin_cases hp <;> simp [M, m, nodes, Memory.object?_allocate]
  obtain ⟨⟨n, M', hrun, hidle⟩, hruns⟩ := reclaim_sifts (t := 0) (M := M) rfl hL
  obtain ⟨-, -, hdone⟩ := hruns _ M' (fun act => mover?_of_mem_replicate) hrun
  obtain ⟨hsifts, hsecond⟩ := hdone hidle
  have hidle₁ : M'.control? 1 = some .idle := by
    rw [control?, hsifts.agents]
    rfl
  obtain ⟨⟨n', M'', hrun', hidle'⟩, -⟩ := reclaim_sifts hidle₁ hsifts.limbo
  have hrestores :=
    hsecond 1 _ M'' hidle₁ (fun act => mover?_of_mem_replicate) hrun' hidle'
  have hgauge : (M'.memory.gauge 0).toNat = 2 := hsifts.toNat_gauge rfl
  refine ⟨M, M', M'', _, _, rfl, hL, hrun, hsifts.log, hsifts.limbo, hgauge, hrun',
    hrestores.log, hrestores.limbo, ?_⟩
  rw [hrestores.gauge]
  exact hgauge

end Interleaved.Machine

end HazardLifo
