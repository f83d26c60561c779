import HazardLifo.State.Slots
import Mathlib.Data.List.Induction
import Mathlib.Data.List.Perm.Basic
import Mathlib.Data.List.Nodup

/-!
# Leases

A lease is a slot in use: the handle that holds it, the token it is signed with and the address it
publishes. `Backed σ A L` says that the tables of `σ` are what the leases `L` make of them and
nothing else: a slot is owned exactly if a lease is on it, a free slot publishes nothing, and a
table has `A` references besides the one of each of its leases.

Operations on tables keep this, with the leases that they add or end. `Backed` looks at the tables
only, so it also speaks of the states inside an operation, where a handle is not yet, or no longer,
in the place where it is kept.
-/

namespace HazardLifo

variable {α : Type}

@[ext]
structure Lease where
  handle : Handle
  token : Token
  address : Address
  deriving DecidableEq

namespace Lease

def isOn (T : TableId) (l : Lease) : Bool := l.handle.table == T

@[simp] theorem isOn_eq_true {T : TableId} {l : Lease} : l.isOn T = true ↔ l.handle.table = T := by
  simp [isOn]

theorem countP_isOn_cons (l : Lease) (L : List Lease) (T : TableId) :
    (l :: L).countP (·.isOn T) = L.countP (·.isOn T) + if T = l.handle.table then 1 else 0 := by
  rw [List.countP_cons]
  by_cases heq : T = l.handle.table
  · simp [isOn, heq]
  · simp [isOn, heq, Ne.symm heq]

end Lease

namespace State

/-- The slot that a handle stands for. -/
def slot? (σ : State α) (h : Handle) : Option Slot :=
  (σ.tables.get? h.table).bind (·.slots.slots[h.slot]?)

theorem slot?_eq_none_of_get?_eq_none {σ : State α} {h : Handle}
    (hT : σ.tables.get? h.table = none) : σ.slot? h = none := by
  rw [slot?, hT, Option.bind_none]

theorem refs_eq_zero_of_get?_eq_none {σ : State α} {T : TableId} (hT : σ.tables.get? T = none) :
    σ.refs T = 0 := by
  simp only [refs, hT]

/-! ## Slots after a change -/

theorem slot?_setSlots (σ : State α) (T : TableId) (f : SlotTable → SlotTable) (h : Handle) :
    (σ.setSlots T f).slot? h =
      if h.table = T then (σ.tables.get? T).bind (fun shared => (f shared.slots).slots[h.slot]?)
      else σ.slot? h := by
  simp only [slot?, setSlots, Registry.get?_modify]
  split
  · rw [Option.bind_map]
    rfl
  · rfl

theorem slot?_setSlots_modify (σ : State α) (h₀ : Handle) (f : Slot → Slot) (h : Handle) :
    (σ.setSlots h₀.table (·.modify h₀.slot f)).slot? h =
      if h = h₀ then (σ.slot? h).map f else σ.slot? h := by
  rw [slot?_setSlots]
  simp only [SlotTable.getElem?_slots_modify]
  by_cases hT : h.table = h₀.table
  · by_cases hi : h₀.slot = h.slot
    · obtain rfl : h = h₀ := by
        cases h; cases h₀
        simp only at hT hi
        subst hT hi
        rfl
      simp only [if_true, slot?, Option.map_bind]
      rfl
    · have hne : h ≠ h₀ := fun heq => hi (heq ▸ rfl)
      simp only [hT, hi, hne, if_true, if_false, slot?]
  · have hne : h ≠ h₀ := fun heq => hT (heq ▸ rfl)
    simp only [hT, hne, if_false]

theorem slot?_retain (σ : State α) (T : TableId) (n : Nat) (h : Handle) :
    (σ.retain T n).slot? h = σ.slot? h := by
  simp only [slot?, retain, Registry.get?_modify]
  split
  · rename_i hT
    rw [hT, Option.bind_map]
    rfl
  · rfl

theorem slot?_letGo (σ : State α) (T : TableId) (h : Handle) :
    (σ.letGo T).slot? h = if h.table = T ∧ σ.refs T ≤ 1 then none else σ.slot? h := by
  unfold letGo
  split
  · rename_i hle
    by_cases hT : h.table = T <;> simp [slot?, Registry.get?_erase, hT, hle]
  · rename_i hle
    simp only [slot?, Registry.get?_modify, hle, and_false, if_false]
    split
    · rename_i hT
      rw [hT, Option.bind_map]
      rfl
    · rfl

theorem slot?_claim {σ : State α} {T : TableId} {shared : SharedTable} {k : Token} {i : Nat}
    {slots : SlotTable} (hT : σ.tables.get? T = some shared)
    (hclaim : shared.slots.claim? k = some (i, slots)) (h : Handle) :
    ((σ.setSlots T fun _ => slots).retain T 1).slot? h =
      if h = ⟨T, i⟩ then (σ.slot? h).map ({ · with owner := some k }) else σ.slot? h := by
  obtain ⟨-, -, rfl⟩ := SlotTable.claim?_eq_some_iff.1 hclaim
  rw [slot?_retain, ← slot?_setSlots_modify σ ⟨T, i⟩]
  simp only [slot?_setSlots, hT, Option.bind_some]

theorem isSome_get?_setSlots (σ : State α) (T : TableId) (f : SlotTable → SlotTable) (T' : TableId) :
    ((σ.setSlots T f).tables.get? T').isSome = (σ.tables.get? T').isSome := by
  rw [setSlots, Registry.get?_modify]
  split
  · rename_i heq
    rw [heq, Option.isSome_map]
  · rfl

theorem isSome_get?_retain (σ : State α) (T : TableId) (n : Nat) (T' : TableId) :
    ((σ.retain T n).tables.get? T').isSome = (σ.tables.get? T').isSome := by
  rw [retain, Registry.get?_modify]
  split
  · rename_i heq
    rw [heq, Option.isSome_map]
  · rfl

theorem isSome_get?_letGo (σ : State α) (T T' : TableId) :
    ((σ.letGo T).tables.get? T').isSome =
      if T' = T ∧ σ.refs T ≤ 1 then false else (σ.tables.get? T').isSome := by
  unfold letGo
  split
  · rename_i hle
    by_cases hT : T' = T <;> simp [Registry.get?_erase, hT, hle]
  · rename_i hle
    by_cases hT : T' = T <;> simp [Registry.get?_modify, hT, hle]

end State

/-! ## The tables that leases make -/

theorem length_filter_range {β : Type} (p : β → Bool) (l : List β) :
    ((List.range l.length).filter fun i => l[i]?.any p).length = l.countP p := by
  induction l using List.reverseRecOn with
  | nil => rfl
  | append_singleton l b ih =>
    have hinit : (List.range l.length).filter (fun i => (l ++ [b])[i]?.any p) =
        (List.range l.length).filter fun i => l[i]?.any p := by
      refine List.filter_congr fun i hi => ?_
      rw [List.getElem?_append_left (List.mem_range.1 hi)]
    rw [List.length_append, List.length_singleton, List.range_succ, List.filter_append,
      List.length_append, hinit, ih, List.countP_append]
    cases h : p b <;> simp [h]

structure Backed (σ : State α) (A : TableId → Nat) (L : List Lease) : Prop where
  nodup : (L.map (·.handle)).Nodup
  mem_iff : ∀ l, l ∈ L ↔ σ.slot? l.handle = some ⟨some l.token, l.address⟩
  idle : ∀ {h : Handle} {s : Slot}, σ.slot? h = some s → s.owner = none → s.published = .null
  refs : ∀ T, σ.refs T = A T + L.countP (·.isOn T)
  alive : ∀ {T : TableId}, (σ.tables.get? T).isSome → 0 < σ.refs T
  signed : ∀ l ∈ L, l.token ≠ 0

namespace Backed

variable {σ σ' : State α} {A A' : TableId → Nat} {L L' : List Lease}

theorem perm (h : Backed σ A L) (hp : L.Perm L') : Backed σ A L' where
  nodup := (hp.map _).nodup_iff.1 h.nodup
  mem_iff l := hp.mem_iff.symm.trans (h.mem_iff l)
  idle := h.idle
  refs T := by rw [h.refs, hp.countP_eq]
  alive := h.alive
  signed l hl := h.signed l (hp.mem_iff.2 hl)

theorem congr (h : Backed σ A L) (htables : σ'.tables = σ.tables) (hA : ∀ T, A' T = A T) :
    Backed σ' A' L := by
  have hslot : ∀ h, σ'.slot? h = σ.slot? h := fun h => by rw [State.slot?, htables, State.slot?]
  have hrefs : ∀ T, σ'.refs T = σ.refs T := fun T => by rw [State.refs, htables, State.refs]
  refine ⟨h.nodup, fun l => ?_, fun hs ho => ?_, fun T => ?_, fun hT => ?_, h.signed⟩
  · rw [hslot]
    exact h.mem_iff l
  · rw [hslot] at hs
    exact h.idle hs ho
  · rw [hrefs, hA]
    exact h.refs T
  · rw [htables] at hT
    rw [hrefs]
    exact h.alive hT

theorem slot?_of_mem (h : Backed σ A L) {l : Lease} (hl : l ∈ L) :
    σ.slot? l.handle = some ⟨some l.token, l.address⟩ := (h.mem_iff l).1 hl

theorem mem_of_owner (h : Backed σ A L) {hd : Handle} {s : Slot} {k : Token}
    (hs : σ.slot? hd = some s) (hk : s.owner = some k) : ⟨hd, k, s.published⟩ ∈ L := by
  rw [h.mem_iff, hs, ← hk]

theorem isSome_get?_iff (h : Backed σ A L) {T : TableId} :
    (σ.tables.get? T).isSome ↔ 0 < A T + L.countP (·.isOn T) := by
  rw [← h.refs]
  refine ⟨h.alive, fun hpos => ?_⟩
  by_contra hT
  rw [State.refs_eq_zero_of_get?_eq_none (Option.not_isSome_iff_eq_none.1 hT)] at hpos
  exact absurd hpos (Nat.lt_irrefl 0)

theorem notMem_of_handle_eq {l l' : Lease} (h : Backed σ A (l :: L)) (heq : l'.handle = l.handle) :
    l' ∉ L := fun hm => (List.nodup_cons.1 h.nodup).1 (List.mem_map.2 ⟨l', hm, heq⟩)

theorem notMem_of_countP_eq_zero {T : TableId} (hc : L.countP (·.isOn T) = 0) {l : Lease}
    (hl : l.handle.table = T) : l ∉ L := fun hm => by
  have := List.countP_eq_zero.1 hc l hm
  exact this (by simpa using hl)

theorem eq_of_handle_eq (h : Backed σ A L) {l l' : Lease} (hl : l ∈ L) (hl' : l' ∈ L)
    (heq : l.handle = l'.handle) : l = l' := List.inj_on_of_nodup_map h.nodup hl hl' heq

/-- An address is published exactly if a lease publishes it. -/
theorem publishes_iff (h : Backed σ A L) {T : TableId} {a : Address} :
    σ.publishes T a = true ↔ a ≠ .null ∧ ∃ l ∈ L, l.handle.table = T ∧ l.address = a := by
  constructor
  · intro hp
    simp only [State.publishes] at hp
    split at hp
    · rename_i shared hT
      obtain ⟨ha, s, hs, rfl⟩ := SlotTable.publishes_eq_true_iff.1 hp
      obtain ⟨i, hi⟩ := List.mem_iff_getElem?.1 hs
      have hslot : σ.slot? ⟨T, i⟩ = some s := by rw [State.slot?, hT, Option.bind_some, hi]
      refine ⟨ha, ?_⟩
      cases ho : s.owner with
      | none => exact absurd (h.idle hslot ho) ha
      | some k => exact ⟨_, h.mem_of_owner hslot ho, rfl, rfl⟩
    · cases hp
  · rintro ⟨ha, l, hl, rfl, rfl⟩
    have hslot := h.slot?_of_mem hl
    obtain ⟨shared, hT, hs⟩ := Option.bind_eq_some_iff.1 hslot
    simp only [State.publishes, hT]
    exact SlotTable.publishes_eq_true_iff.2 ⟨ha, _, List.mem_of_getElem? hs, rfl⟩

/-- The owned slots of a table are as many as the leases on it. -/
theorem active_eq (h : Backed σ A L) {T : TableId} {shared : SharedTable}
    (hT : σ.tables.get? T = some shared) : shared.slots.active = L.countP (·.isOn T) := by
  have hslot : ∀ i, σ.slot? ⟨T, i⟩ = shared.slots.slots[i]? := fun i => by
    rw [State.slot?, hT, Option.bind_some]
  let owned := (List.range shared.slots.slots.length).filter fun i =>
    (shared.slots.slots[i]?).any (·.owner.isSome)
  let leased := (L.filter (·.isOn T)).map (·.handle.slot)
  have howned : owned.Nodup := List.nodup_range.filter _
  have hleased : leased.Nodup := by
    refine List.Nodup.map_on (fun l hl l' hl' heq => ?_) (h.nodup.of_map.filter _)
    rw [List.mem_filter, Lease.isOn_eq_true] at hl hl'
    refine h.eq_of_handle_eq hl.1 hl'.1 ?_
    exact Handle.ext (hl.2.trans hl'.2.symm) heq
  have hmem : ∀ i, i ∈ owned ↔ i ∈ leased := fun i => by
    simp only [owned, leased, List.mem_filter, List.mem_map, Lease.isOn_eq_true, List.mem_range]
    constructor
    · rintro ⟨-, hi⟩
      obtain ⟨s, hs, ho⟩ := (Option.any_eq_true ..).1 hi
      obtain ⟨k, hk⟩ := Option.isSome_iff_exists.1 ho
      exact ⟨_, ⟨h.mem_of_owner ((hslot i).trans hs) hk, rfl⟩, rfl⟩
    · rintro ⟨l, ⟨hl, rfl⟩, rfl⟩
      have hl' := (hslot l.handle.slot).symm.trans (h.slot?_of_mem hl)
      exact ⟨(List.getElem?_eq_some_iff.1 hl').1, by simp [hl']⟩
  calc shared.slots.active = owned.length := (length_filter_range _ _).symm
    _ = leased.length := ((List.perm_ext_iff_of_nodup howned hleased).2 hmem).length_eq
    _ = L.countP (·.isOn T) := by rw [List.length_map, List.countP_eq_length_filter]

/-! ## Operations on tables -/

/-- One slot is written, and there is now this lease on it. -/
theorem of_write {l : Lease}
    (hslot : ∀ hd, σ'.slot? hd =
      if hd = l.handle then some ⟨some l.token, l.address⟩ else σ.slot? hd)
    (hnodup : ((l :: L).map (·.handle)).Nodup)
    (hothers : ∀ l', l'.handle ≠ l.handle →
      (l' ∈ L ↔ σ.slot? l'.handle = some ⟨some l'.token, l'.address⟩))
    (hidle : ∀ {hd : Handle} {s : Slot}, σ.slot? hd = some s → s.owner = none → s.published = .null)
    (hrefs : ∀ T, σ'.refs T = A' T + (l :: L).countP (·.isOn T))
    (halive : ∀ {T : TableId}, (σ'.tables.get? T).isSome → 0 < σ'.refs T)
    (hsigned : ∀ l' ∈ l :: L, l'.token ≠ 0) : Backed σ' A' (l :: L) where
  nodup := hnodup
  mem_iff l' := by
    rw [hslot, List.mem_cons]
    by_cases heq : l'.handle = l.handle
    · have hnot : l' ∉ L := fun hl' =>
        (List.nodup_cons.1 hnodup).1 (List.mem_map.2 ⟨l', hl', heq⟩)
      simp only [heq, if_true, hnot, or_false, Option.some.injEq, Slot.mk.injEq]
      constructor
      · rintro rfl
        exact ⟨rfl, rfl⟩
      · rintro ⟨hk, ha⟩
        exact Lease.ext heq hk.symm ha.symm
    · have hne : l' ≠ l := fun he => heq (he ▸ rfl)
      rw [if_neg heq, ← hothers l' heq]
      simp only [hne, false_or]
  idle {hd s} hs ho := by
    rw [hslot] at hs
    split at hs
    · obtain rfl := Option.some.inj hs
      cases ho
    · exact hidle hs ho
  refs := hrefs
  alive := halive
  signed := hsigned

theorem publish {l : Lease} (h : Backed σ A (l :: L)) (a : Address) :
    Backed (σ.setSlots l.handle.table (·.publish l.handle.slot a)) A ({ l with address := a } :: L) := by
  refine of_write (σ := σ) (fun hd => ?_) h.nodup (fun l' hne => ?_) h.idle (fun T => ?_)
    (fun {T} hT => ?_) fun l' hl' => ?_
  · simp only [SlotTable.publish, State.slot?_setSlots_modify]
    split
    · rename_i heq
      rw [heq, h.slot?_of_mem List.mem_cons_self, Option.map_some]
    · rfl
  · have hne' : l' ≠ l := fun he => hne (he ▸ rfl)
    rw [← h.mem_iff, List.mem_cons]
    simp only [hne', false_or]
  · rw [State.refs_setSlots, h.refs]
    rfl
  · rw [State.refs_setSlots]
    exact h.alive (by rwa [State.isSome_get?_setSlots] at hT)
  · rcases List.mem_cons.1 hl' with rfl | hm
    · exact h.signed l List.mem_cons_self
    · exact h.signed l' (List.mem_cons_of_mem _ hm)

theorem retain (h : Backed σ A L) {T : TableId} (hT : (σ.tables.get? T).isSome) {n : Nat}
    (hA : ∀ T', A' T' = A T' + if T' = T then n else 0) : Backed (σ.retain T n) A' L := by
  have hrefs : ∀ T', (σ.retain T n).refs T' = σ.refs T' + if T' = T then n else 0 := fun T' => by
    rw [State.refs_retain]
    by_cases heq : T' = T <;> simp [heq, hT]
  refine ⟨h.nodup, fun l => ?_, fun hs ho => ?_, fun T' => ?_, fun {T'} hT' => ?_, h.signed⟩
  · rw [State.slot?_retain]
    exact h.mem_iff l
  · rw [State.slot?_retain] at hs
    exact h.idle hs ho
  · rw [hrefs, hA, h.refs]
    omega
  · rw [hrefs]
    rw [State.isSome_get?_retain] at hT'
    exact Nat.lt_of_lt_of_le (h.alive hT') (Nat.le_add_right ..)

/-- Giving a reference back. When it is the last, the table goes; no lease is on it then. -/
theorem letGo (h : Backed σ A' L) {T : TableId} (hA : ∀ T', A' T' = A T' + if T' = T then 1 else 0) :
    Backed (σ.letGo T) A L := by
  have hrefs : ∀ T', (σ.letGo T).refs T' = A T' + L.countP (·.isOn T') := fun T' => by
    rw [State.refs_letGo, h.refs, hA]
    split <;> omega
  refine ⟨h.nodup, fun l => ?_, fun {hd s} hs ho => ?_, hrefs, fun {T'} hT' => ?_, h.signed⟩
  · rw [State.slot?_letGo]
    split
    · rename_i hgone
      have hcount := h.refs T
      rw [hA, if_pos rfl] at hcount
      simp only [reduceCtorEq, iff_false]
      exact notMem_of_countP_eq_zero (by omega) hgone.1
    · exact h.mem_iff l
  · rw [State.slot?_letGo] at hs
    split at hs
    · cases hs
    · exact h.idle hs ho
  · rw [State.isSome_get?_letGo] at hT'
    split at hT'
    · cases hT'
    · rename_i hkeep
      have hpos := h.alive hT'
      rw [State.refs_letGo]
      split
      · rename_i heq
        subst heq
        simp only [true_and] at hkeep
        omega
      · exact hpos

/-- A new table, with references from the start. -/
theorem insert (h : Backed σ A L) {T : TableId} (hT : σ.tables.get? T = none) {capacity n : Nat}
    (hn : 0 < n) (htables : σ'.tables = σ.tables.insert T ⟨.free capacity, n⟩)
    (hA : ∀ T', A' T' = A T' + if T' = T then n else 0) : Backed σ' A' L := by
  have hget : ∀ T', σ'.tables.get? T' =
      if T' = T then some ⟨.free capacity, n⟩ else σ.tables.get? T' := fun T' => by
    rw [htables, Registry.get?_insert]
  have hcount : A T + L.countP (·.isOn T) = 0 := by
    rw [← h.refs, State.refs_eq_zero_of_get?_eq_none hT]
  have hslot : ∀ hd, σ'.slot? hd = if hd.table = T then (if hd.slot < capacity then some {} else none)
      else σ.slot? hd := fun hd => by
    rw [State.slot?, hget]
    split
    · rw [Option.bind_some]
      simp only [SlotTable.free, List.getElem?_replicate]
    · rfl
  refine ⟨h.nodup, fun l => ?_, fun {hd s} hs ho => ?_, fun T' => ?_, fun {T'} hT' => ?_, h.signed⟩
  · rw [hslot]
    split
    · rename_i heq
      have hnot := notMem_of_countP_eq_zero (L := L) (T := T) (by omega) heq
      simp only [hnot, false_iff]
      split <;> simp
    · exact h.mem_iff l
  · rw [hslot] at hs
    split at hs
    · split at hs
      · obtain rfl := Option.some.inj hs
        rfl
      · cases hs
    · exact h.idle hs ho
  · rw [State.refs, hget, hA]
    by_cases heq : T' = T
    · subst heq
      simp only [if_true]
      omega
    · simp only [heq, if_false, Nat.add_zero]
      exact h.refs T'
  · rw [State.refs, hget]
    rw [hget] at hT'
    by_cases heq : T' = T
    · simp only [heq, if_true]
      exact hn
    · simp only [heq, if_false] at hT' ⊢
      exact h.alive hT'

/-- A claim adds a lease that publishes nothing, and its reference. -/
theorem claim (h : Backed σ A L) {T : TableId} {shared : SharedTable} {k : Token} {i : Nat}
    {slots : SlotTable} (hT : σ.tables.get? T = some shared)
    (hclaim : shared.slots.claim? k = some (i, slots)) (hk : k ≠ 0) :
    Backed ((σ.setSlots T fun _ => slots).retain T 1) A (⟨⟨T, i⟩, k, .null⟩ :: L) := by
  obtain ⟨⟨s, hs, hfree⟩, -, -⟩ := SlotTable.claim?_eq_some_iff.1 hclaim
  have hsi : σ.slot? ⟨T, i⟩ = some s := by rw [State.slot?, hT, Option.bind_some, hs]
  have hnull := h.idle hsi hfree
  have hslot : ∀ hd, ((σ.setSlots T fun _ => slots).retain T 1).slot? hd =
      if hd = ⟨T, i⟩ then some ⟨some k, .null⟩ else σ.slot? hd := fun hd => by
    rw [State.slot?_claim hT hclaim]
    split
    · rename_i hhd
      rw [hhd, hsi, Option.map_some, ← hnull]
    · rfl
  have hrefs : ∀ T', ((σ.setSlots T fun _ => slots).retain T 1).refs T' =
      σ.refs T' + if T' = T then 1 else 0 := fun T' => by
    rw [State.refs_retain, State.refs_setSlots]
    rw [State.isSome_get?_setSlots, hT]
    by_cases heq : T' = T <;> simp [heq]
  have hnot : ∀ l ∈ L, l.handle ≠ ⟨T, i⟩ := fun l hl heq => by
    have := h.slot?_of_mem hl
    rw [heq, hsi] at this
    obtain rfl := Option.some.inj this
    cases hfree
  refine of_write (σ := σ) hslot ?_ (fun l _ => h.mem_iff l) h.idle (fun T' => ?_) (fun {T'} hT' => ?_)
    fun l hl => ?_
  · rw [List.map_cons, List.nodup_cons]
    refine ⟨fun hm => ?_, h.nodup⟩
    obtain ⟨l, hl, heq⟩ := List.mem_map.1 hm
    exact hnot l hl heq
  · rw [hrefs, h.refs, Lease.countP_isOn_cons, Nat.add_assoc]
  · rw [hrefs]
    rw [State.isSome_get?_retain, State.isSome_get?_setSlots] at hT'
    exact Nat.lt_of_lt_of_le (h.alive hT') (Nat.le_add_right ..)
  · rcases List.mem_cons.1 hl with rfl | hm
    · exact hk
    · exact h.signed l hm

/-- Giving a handle back ends its lease. -/
theorem giveBack {l : Lease} (h : Backed σ A (l :: L)) :
    Backed (State.giveBack l.handle σ).state A L := by
  let τ := σ.setSlots l.handle.table (·.release l.handle.slot)
  have hslot : ∀ hd, τ.slot? hd = if hd = l.handle then some {} else σ.slot? hd := fun hd => by
    simp only [τ, SlotTable.release, State.slot?_setSlots_modify]
    split
    · rename_i heq
      rw [heq, h.slot?_of_mem List.mem_cons_self, Option.map_some]
    · rfl
  have hτ : Backed τ (fun T => A T + if T = l.handle.table then 1 else 0) L := by
    refine ⟨(List.nodup_cons.1 h.nodup).2, fun l' => ?_, fun {hd s} hs ho => ?_, fun T => ?_,
      fun {T} hT => ?_, fun l' hl' => ?_⟩
    · rw [hslot]
      by_cases heq : l'.handle = l.handle
      · simp [heq, h.notMem_of_handle_eq heq]
      · have hne : l' ≠ l := fun he => heq (he ▸ rfl)
        rw [if_neg heq, ← h.mem_iff, List.mem_cons]
        simp only [hne, false_or]
    · rw [hslot] at hs
      split at hs
      · obtain rfl := Option.some.inj hs
        rfl
      · exact h.idle hs ho
    · rw [State.refs_setSlots, h.refs, Lease.countP_isOn_cons, ← Nat.add_assoc, Nat.add_right_comm]
    · rw [State.refs_setSlots]
      exact h.alive (by rwa [State.isSome_get?_setSlots] at hT)
    · exact h.signed l' (List.mem_cons_of_mem _ hl')
  exact hτ.letGo fun T => rfl

end Backed

end HazardLifo
