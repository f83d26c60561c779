import HazardLifo.Address
import HazardLifo.Failure

/-!
# Tables of hazard slots

A fixed number of slots, each free or owned. The owner publishes in its slot the one address that it
is about to follow; a block whose address some slot publishes must not be freed. A claim takes the
free slot with the lowest index.
-/

namespace HazardLifo

/-- What a thread signs its slots with. Tokens are counted from 1 and no two threads share one. -/
abbrev Token := Nat

structure Slot where
  owner : Option Token := none
  published : Address := .null
  deriving DecidableEq, Repr, Inhabited

structure SlotTable where
  slots : List Slot
  deriving DecidableEq, Repr, Inhabited

namespace SlotTable

/-- The number of slots of a table for which no other number is given. -/
def defaultCapacity : Nat := 50

/-- One slot takes 128 bytes, and no block of memory reaches 2 ^ 63 bytes. -/
def capacityBound : Nat := Nat.pow 2 56

def free (capacity : Nat) : SlotTable := ⟨List.replicate capacity {}⟩

def ofCapacity (capacity : Nat) : Except Fault SlotTable :=
  if capacity = 0 then .error .noSlots
  else if capacityBound ≤ capacity then .error .capacityOverflow
  else .ok (free capacity)

def capacity (T : SlotTable) : Nat := T.slots.length

def active (T : SlotTable) : Nat := T.slots.countP (·.owner.isSome)

def owner (T : SlotTable) (i : Nat) : Option Token := T.slots[i]?.bind (·.owner)

/-- Whether some slot publishes the address. Nothing publishes the null address. -/
def publishes (T : SlotTable) (a : Address) : Bool :=
  a != .null && T.slots.any (·.published == a)

def modify (T : SlotTable) (i : Nat) (f : Slot → Slot) : SlotTable := ⟨T.slots.modify i f⟩

/-- Claims the free slot with the lowest index; without a free slot there is no claim. -/
def claim? (T : SlotTable) (token : Token) : Option (Nat × SlotTable) :=
  (T.slots.findIdx? (·.owner.isNone)).map fun i => (i, T.modify i ({ · with owner := some token }))

def publish (T : SlotTable) (i : Nat) (a : Address) : SlotTable :=
  T.modify i ({ · with published := a })

/-- Gives a slot back: it publishes nothing any more and then is free. -/
def release (T : SlotTable) (i : Nat) : SlotTable := T.modify i fun _ => {}

theorem getElem?_slots_modify (T : SlotTable) (i j : Nat) (f : Slot → Slot) :
    (T.modify i f).slots[j]? = if i = j then T.slots[j]?.map f else T.slots[j]? := by
  simp only [modify, List.getElem?_modify]
  split <;> simp

@[simp] theorem capacity_modify (T : SlotTable) (i : Nat) (f : Slot → Slot) :
    (T.modify i f).capacity = T.capacity := by
  simp [capacity, modify]

@[simp] theorem capacity_publish (T : SlotTable) (i : Nat) (a : Address) :
    (T.publish i a).capacity = T.capacity := capacity_modify ..

@[simp] theorem capacity_release (T : SlotTable) (i : Nat) : (T.release i).capacity = T.capacity :=
  capacity_modify ..

theorem claim?_eq_none_iff {T : SlotTable} {token : Token} :
    T.claim? token = none ↔ ∀ s ∈ T.slots, s.owner.isSome := by
  simp [claim?, Option.isSome_iff_ne_none]

theorem claim?_eq_some_iff {T T' : SlotTable} {token : Token} {i : Nat} :
    T.claim? token = some (i, T') ↔
      (∃ s, T.slots[i]? = some s ∧ s.owner = none) ∧
        (∀ j < i, ∀ s, T.slots[j]? = some s → s.owner ≠ none) ∧
        T' = T.modify i ({ · with owner := some token }) := by
  simp only [claim?, Option.map_eq_some_iff, Prod.mk.injEq]
  constructor
  · rintro ⟨k, hk, rfl, rfl⟩
    obtain ⟨h, hp, hlt⟩ := List.findIdx?_eq_some_iff_getElem.1 hk
    refine ⟨⟨_, List.getElem?_eq_getElem h, by simpa using hp⟩, fun j hj s hs hn => ?_, rfl⟩
    obtain ⟨hj', rfl⟩ := List.getElem?_eq_some_iff.1 hs
    exact hlt j hj (by simp [hn])
  · rintro ⟨⟨s, hs, hn⟩, hlt, rfl⟩
    obtain ⟨h, rfl⟩ := List.getElem?_eq_some_iff.1 hs
    refine ⟨i, List.findIdx?_eq_some_iff_getElem.2 ⟨h, by simp [hn], fun j hj => ?_⟩, rfl, rfl⟩
    simpa using hlt j hj _ (List.getElem?_eq_getElem (by omega))

theorem publishes_eq_true_iff {T : SlotTable} {a : Address} :
    T.publishes a = true ↔ a ≠ .null ∧ ∃ s ∈ T.slots, s.published = a := by
  simp [publishes]

end SlotTable

end HazardLifo
