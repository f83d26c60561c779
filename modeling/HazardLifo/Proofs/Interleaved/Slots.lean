import HazardLifo.Proofs.Interleaved.Move
import Mathlib.Data.List.Perm.Basic
import Mathlib.Data.List.Nodup

/-!
# Slots have one holder

In every reachable machine a slot is owned exactly if some thread holds it, no two threads hold the
same slot, and an operation goes only through a slot that its thread holds. So what a slot publishes
changes only by moves of its holder (`Move.published?_eq`).
-/

namespace HazardLifo.Interleaved

variable {α : Type}

def Control.slot? : Control α → Option Nat
  | .withdrawing i | .disowning i | .publishing i _ | .locating _ i | .guarding _ i _
  | .validating _ i _ | .following _ i _ | .unlinking _ i _ _ | .clearing _ i _ => some i
  | _ => none

end HazardLifo.Interleaved

namespace HazardLifo.SlotTable

/-- What slot `i` publishes, if there is such a slot. -/
def published? (T : SlotTable) (i : Nat) : Option Address := T.slots[i]?.map (·.published)

theorem owner_modify (T : SlotTable) (i j : Nat) (f : Slot → Slot) :
    (T.modify i f).owner j =
      if i = j then T.slots[j]?.bind fun slot => (f slot).owner else T.owner j := by
  simp only [owner, getElem?_slots_modify]
  split
  · cases T.slots[j]? <;> rfl
  · rfl

theorem published?_modify (T : SlotTable) (i j : Nat) (f : Slot → Slot) :
    (T.modify i f).published? j =
      if i = j then T.slots[j]?.map fun slot => (f slot).published else T.published? j := by
  simp only [published?, getElem?_slots_modify]
  split
  · cases T.slots[j]? <;> rfl
  · rfl

@[simp] theorem owner_publish (T : SlotTable) (i : Nat) (a : Address) (j : Nat) :
    (T.publish i a).owner j = T.owner j := by
  rw [publish, owner_modify]
  split <;> rfl

theorem published?_publish (T : SlotTable) (i : Nat) (a : Address) (j : Nat) :
    (T.publish i a).published? j =
      if i = j then (T.published? j).map fun _ => a else T.published? j := by
  rw [publish, published?_modify]
  split
  · simp [published?, Option.map_map, Function.comp_def]
  · rfl

theorem owner_isSome_lt {T : SlotTable} {i : Nat} (h : (T.owner i).isSome) :
    i < T.slots.length := by
  simp only [owner] at h
  by_contra hlt
  simp [List.getElem?_eq_none (Nat.le_of_not_lt hlt)] at h

end HazardLifo.SlotTable

namespace HazardLifo.Interleaved

variable {α : Type} {m : Memory α} {g : Agent α} {a : Advance α}

/-! ## What a move does to the slots -/

/-- A move leaves owners and handles alone, or claims a free slot, or gives a slot back. -/
theorem Move.owner_cases (h : Move m g a) :
    (a.agent.held = g.held ∧ ∀ j, a.memory.table.owner j = m.table.owner j) ∨
    (∃ i, g.control = .trying i ∧ a.agent.control = .idle ∧ a.agent.held = i :: g.held ∧
      m.table.owner i = none ∧
      ∀ j, a.memory.table.owner j = if i = j then some g.token else m.table.owner j) ∨
    (∃ i, g.control = .disowning i ∧ a.agent.control = .idle ∧ a.agent.held = g.held.erase i ∧
      ∀ j, a.memory.table.owner j = if i = j then none else m.table.owner j) := by
  cases h with
  | publish h => exact .inl ⟨rfl, fun j => SlotTable.owner_publish ..⟩
  | @claim token held i slot hs ho =>
    refine .inr (.inl ⟨i, rfl, rfl, rfl, by simp [SlotTable.owner, hs, ho], fun j => ?_⟩)
    simp only [Memory.mapTable, SlotTable.owner_modify]
    split
    · rename_i hj
      subst hj
      simp [hs]
    · rfl
  | @disown token held i =>
    refine .inr (.inr ⟨i, rfl, rfl, rfl, fun j => ?_⟩)
    simp only [Memory.mapTable, SlotTable.owner_modify]
    split
    · cases m.table.slots[j]? <;> rfl
    · rfl
  | _ => exact .inl ⟨rfl, fun j => by simp [Memory.mapGauge, Memory.allocate, Memory.free]⟩

theorem Move.slot?_eq (h : Move m g a) {i : Nat} (hi : a.agent.control.slot? = some i) :
    g.control.slot? = some i := by
  cases h with
  | quiet h => cases h <;> exact hi
  | publish h => cases h <;> first | exact hi | cases hi
  | _ => first | exact hi | cases hi

theorem Move.published?_eq (h : Move m g a) {i : Nat} (hi : g.control.slot? ≠ some i) :
    a.memory.table.published? i = m.table.published? i := by
  cases h with
  | @publish token held j c b c' marks h =>
    have hj : c.slot? = some j := by cases h <;> rfl
    have hne : j ≠ i := fun hji => hi (hji ▸ hj)
    simp only [Memory.mapTable, SlotTable.published?_publish, if_neg hne]
  | @claim token held j slot hs ho =>
    simp only [Memory.mapTable, SlotTable.published?_modify]
    split <;> rfl
  | @disown token held j =>
    simp only [Memory.mapTable, SlotTable.published?_modify]
    split <;> rfl
  | _ => simp [Memory.mapGauge, Memory.allocate, Memory.free]

theorem Move.capacity_eq (hm : Move m g a) : a.memory.table.capacity = m.table.capacity := by
  cases hm <;> simp [Memory.mapTable, Memory.mapGauge, Memory.allocate, Memory.free]

/-! ## The invariant -/

namespace Machine

theorem Step.capacity_eq {M M' : Machine α} {act : Act α} {marks : List (Mark α)}
    (hs : Step M act M' marks) :
    M'.memory.table.capacity = M.memory.table.capacity := by
  cases hs with
  | move hmover hu hm => exact hm.capacity_eq
  | _ => rfl

theorem capacity_of_reaches {capacity count : Nat} {tokens : List Token} {M : Machine α}
    (h : (start capacity count tokens).Reaches M) : M.memory.table.capacity = capacity := by
  refine invariant_of_step (P := fun M => M.memory.table.capacity = capacity)
    (fun h hs => hs.capacity_eq.trans h) ?_ h
  simp [start, Memory.start, SlotTable.free, SlotTable.capacity]

def held (M : Machine α) : List Nat := M.agents.flatMap (·.held)

def Holds (M : Machine α) (t i : Nat) : Prop := ∃ g, M.agents[t]? = some g ∧ i ∈ g.held

structure Exclusive (M : Machine α) : Prop where
  nodup : M.held.Nodup
  owned_iff : ∀ i, (M.memory.table.owner i).isSome ↔ i ∈ M.held
  uses : ∀ {t : Nat} {g : Agent α} {i : Nat}, M.agents[t]? = some g → g.control.slot? = some i →
    i ∈ g.held

theorem flatMap_set (f : Agent α → List Nat) {agents : List (Agent α)} {t : Nat}
    (ht : agents[t]? = some g) (g' : Agent α) :
    ((agents.set t g').flatMap f ++ f g).Perm (agents.flatMap f ++ f g') := by
  induction agents generalizing t with
  | nil => cases ht
  | cons k agents ih =>
    cases t with
    | zero =>
      obtain rfl := Option.some.inj ht
      refine List.perm_iff_count.2 fun i => ?_
      simp only [List.set_cons_zero, List.flatMap_cons, List.count_append]
      omega
    | succ t =>
      simp only [List.set_cons_succ, List.flatMap_cons, List.append_assoc]
      exact (ih ht).append_left _

theorem held_set_cons {agents : List (Agent α)} {t : Nat} (ht : agents[t]? = some g) (g' : Agent α)
    {i : Nat} (h : g'.held = i :: g.held) :
    ((agents.set t g').flatMap (·.held)).Perm (i :: agents.flatMap (·.held)) := by
  have hp := flatMap_set (·.held) ht g'
  rw [h] at hp
  exact (List.perm_append_right_iff g.held).1 (hp.trans List.perm_middle)

theorem held_set_erase {agents : List (Agent α)} {t : Nat} (ht : agents[t]? = some g) (g' : Agent α)
    {i : Nat} (hi : i ∈ g.held) (h : g'.held = g.held.erase i) :
    (i :: (agents.set t g').flatMap (·.held)).Perm (agents.flatMap (·.held)) := by
  have hp := flatMap_set (·.held) ht g'
  rw [h] at hp
  have hg : ((agents.set t g').flatMap (·.held) ++ g.held).Perm
      (i :: (agents.set t g').flatMap (·.held) ++ g.held.erase i) :=
    ((List.perm_cons_erase hi).append_left _).trans List.perm_middle
  exact (List.perm_append_right_iff (g.held.erase i)).1 (hg.symm.trans hp)

theorem held_set_same {agents : List (Agent α)} {t : Nat} (ht : agents[t]? = some g) (g' : Agent α)
    (h : g'.held = g.held) :
    ((agents.set t g').flatMap (·.held)).Perm (agents.flatMap (·.held)) := by
  have hp := flatMap_set (·.held) ht g'
  rw [h] at hp
  exact (List.perm_append_right_iff g.held).1 hp

theorem exclusive_start (capacity count : Nat) (tokens : List Token) :
    (start capacity count tokens : Machine α).Exclusive := by
  have hheld : (start capacity count tokens : Machine α).held = [] := by
    simp [start, held]
  refine ⟨hheld ▸ List.nodup_nil, fun i => ?_, ?_⟩
  · rw [hheld]
    simp only [start, Memory.start, SlotTable.free, SlotTable.owner, List.getElem?_replicate]
    split <;> simp
  · intro t g i ht hi
    simp only [start, List.getElem?_map, Option.map_eq_some_iff] at ht
    obtain ⟨token, -, rfl⟩ := ht
    cases hi

namespace Exclusive

variable {M M' : Machine α}

theorem unique (h : M.Exclusive) {t u i : Nat} (ht : M.Holds t i) (hu : M.Holds u i) : t = u := by
  obtain ⟨g, ht, hi⟩ := ht
  obtain ⟨g', hu, hi'⟩ := hu
  obtain ⟨hlt, rfl⟩ := List.getElem?_eq_some_iff.1 ht
  obtain ⟨hlu, rfl⟩ := List.getElem?_eq_some_iff.1 hu
  have hd := List.pairwise_iff_getElem.1 (List.nodup_flatMap.1 h.nodup).2
  rcases Nat.lt_trichotomy t u with htu | rfl | htu
  · exact absurd hi' (hd t u hlt hlu htu hi)
  · rfl
  · exact absurd hi (hd u t hlu hlt htu hi')

theorem uses_set (h : M.Exclusive) {t : Nat} (ht : M.agents[t]? = some g) (g' : Agent α)
    (huses : ∀ i, g'.control.slot? = some i → i ∈ g'.held) {u : Nat}
    {k : Agent α} {i : Nat} (hk : (M.agents.set t g')[u]? = some k)
    (hi : k.control.slot? = some i) : i ∈ k.held := by
  rw [getElem?_agents_set ht] at hk
  split at hk
  · obtain rfl := Option.some.inj hk
    exact huses i hi
  · exact h.uses hk hi

theorem step (h : M.Exclusive) {act : Act α} {marks : List (Mark α)} (hs : Step M act M' marks) :
    M'.Exclusive := by
  cases hs with
  | @call t g command ht hc hslot hstack =>
    have hp := held_set_same ht (g.goTo command.entry) rfl
    refine ⟨hp.nodup_iff.2 h.nodup, fun i => (h.owned_iff i).trans hp.mem_iff.symm, ?_⟩
    refine fun hk hj => h.uses_set ht (g.goTo command.entry) (fun i hi => hslot i ?_) hk hj
    cases command <;> exact hi
  | @move t g a act hact ht hm =>
    rcases hm.owner_cases with ⟨hheld, howner⟩ | ⟨i, hc, hc', hheld, hfree, howner⟩ |
      ⟨i, hc, hc', hheld, howner⟩
    · have hp := held_set_same ht _ hheld
      refine ⟨hp.nodup_iff.2 h.nodup, fun i => ?_,
        fun hk hj => h.uses_set ht _ (fun i hi => ?_) hk hj⟩
      · rw [howner]
        exact (h.owned_iff i).trans hp.mem_iff.symm
      · rw [hheld]
        exact h.uses ht (hm.slot?_eq hi)
    · -- a claim: nobody held the slot, since it had no owner
      have hp := held_set_cons ht _ hheld
      have hnew : i ∉ M.held := fun hi => by simpa [hfree] using (h.owned_iff i).2 hi
      refine ⟨hp.nodup_iff.2 (List.nodup_cons.2 ⟨hnew, h.nodup⟩), fun j => ?_,
        fun hk hj => h.uses_set ht _ (fun j hj => by rw [hc'] at hj; cases hj) hk hj⟩
      rw [howner, held, hp.mem_iff, List.mem_cons]
      by_cases hj : i = j
      · simp [hj]
      · simp only [if_neg hj, Ne.symm hj, false_or]
        exact h.owned_iff j
    · -- a slot given back: its holder held it once
      have hi : i ∈ g.held := h.uses ht (by rw [hc]; rfl)
      have hp := held_set_erase ht _ hi hheld
      have hnodup := List.nodup_cons.1 (hp.nodup_iff.2 h.nodup)
      refine ⟨hnodup.2, fun j => ?_,
        fun hk hj => h.uses_set ht _ (fun j hj => by rw [hc'] at hj; cases hj) hk hj⟩
      rw [howner, held]
      by_cases hj : i = j
      · subst hj
        simpa using hnodup.1
      · rw [if_neg hj, h.owned_iff, held, ← hp.mem_iff, List.mem_cons]
        simp [Ne.symm hj]
  | @handOver t u i g g' ht hu hne hi hc hc' =>
    have hu' : (M.agents.set t { g with held := g.held.erase i })[u]? = some g' := by
      rwa [getElem?_agents_set ht, if_neg hne.symm]
    have hp := (held_set_cons hu' { g' with held := i :: g'.held } rfl).trans
      (held_set_erase ht { g with held := g.held.erase i } hi rfl)
    refine ⟨hp.nodup_iff.2 h.nodup, fun j => (h.owned_iff j).trans hp.mem_iff.symm, ?_⟩
    intro v k j hk hj
    rw [getElem?_agents_set hu', getElem?_agents_set ht] at hk
    split at hk
    · obtain rfl := Option.some.inj hk
      simp only [hc'] at hj
      cases hj
    · split at hk
      · obtain rfl := Option.some.inj hk
        simp only [hc] at hj
        cases hj
      · exact h.uses hk hj

end Exclusive

end Machine

end HazardLifo.Interleaved
