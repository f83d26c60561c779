import HazardLifo.Proofs.Histories.Ownership

/-!
# References to tables

A table has one reference for each variable of a caller, two for each stack over it and one for each
live handle; the default table has one more. It lives exactly as long as it has any. After a
complete tear-down only the default table is left, with all its slots free.
-/

namespace HazardLifo

variable {α : Type}

namespace State

/-- What refers to a table, counted. -/
def holders (σ : State α) (T : TableId) : Nat :=
  σ.callerTables.count T + 2 * σ.lifos.values.countP (·.table == T) + (σ.handlesOn T).length +
    if T = defaultTable then 1 else 0

/-- All threads have ended, and all handles, stacks and variables are dropped. -/
structure TornDown (σ : State α) : Prop where
  threads : σ.threads.keys = []
  handles : σ.handles.keys = []
  lifos : σ.lifos.keys = []
  callerTables : σ.callerTables = []

namespace Sound

variable {σ : State α} {sign : HandleId → Token} {shown : HandleId → Address}

theorem holders_eq (σ : State α) (sign : HandleId → Token) (shown : HandleId → Address) (T : TableId) :
    σ.holders T = σ.anchors T + (leases σ sign shown).countP (·.isOn T) := by
  rw [countP_leases, holders, anchors]
  omega

theorem refs_eq (h : Sound σ sign shown) (T : TableId) : σ.refs T = σ.holders T := by
  rw [holders_eq σ sign shown]
  exact h.backed.refs T

theorem isSome_get?_iff (h : Sound σ sign shown) {T : TableId} :
    (σ.tables.get? T).isSome ↔ 0 < σ.holders T := by
  rw [holders_eq σ sign shown]
  exact h.backed.isSome_get?_iff

theorem get?_eq_none_iff (h : Sound σ sign shown) {T : TableId} :
    σ.tables.get? T = none ↔ σ.holders T = 0 := by
  rw [← Option.not_isSome_iff_eq_none, h.isSome_get?_iff, Nat.pos_iff_ne_zero, not_not]

end Sound

variable {σ : State α} {sign : HandleId → Token} {shown : HandleId → Address}

theorem values_eq_nil {β : Type} {r : Registry β} (h : r.keys = []) : r.values = [] := by
  rw [Registry.values, List.map_eq_nil_iff.1 h]
  rfl

namespace TornDown

theorem liveHandles (h : TornDown σ) : σ.liveHandles = [] := by
  rw [State.liveHandles, values_eq_nil h.handles, values_eq_nil h.threads]
  rfl

theorem holders (h : TornDown σ) (T : TableId) :
    σ.holders T = if T = defaultTable then 1 else 0 := by
  simp [State.holders, handlesOn, h.liveHandles, h.callerTables, values_eq_nil h.lifos]

theorem default_idle (h : TornDown σ) (hs : Sound σ sign shown) {shared : SharedTable}
    (hT : σ.tables.get? defaultTable = some shared) : ∀ s ∈ shared.slots.slots, s = {} := by
  intro s hmem
  obtain ⟨i, hi⟩ := List.mem_iff_getElem?.1 hmem
  have hslot : σ.slot? ⟨defaultTable, i⟩ = some s := by rw [slot?, hT, Option.bind_some, hi]
  have hnone : s.owner = none := by
    cases ho : s.owner with
    | none => rfl
    | some k =>
      have hl := hs.backed.mem_of_owner hslot ho
      have hlive := Sound.mem_liveHandles_iff.2 ⟨_, hl, rfl⟩
      rw [h.liveHandles] at hlive
      cases hlive
  have hnull := hs.backed.idle hslot hnone
  cases s
  simp_all

end TornDown

end State

namespace Op

open State

variable [Disposable α]

theorem tables_accounted (ops : List (Op α)) :
    (∀ T, (after ops).refs T = (after ops).holders T) ∧
    (∀ op T, (((after ops).tables.get? T).isSome ∧ (after (ops ++ [op])).tables.get? T = none) ↔
      (0 < (after ops).holders T ∧ (after (ops ++ [op])).holders T = 0)) ∧
    (TornDown (after ops) →
      (∀ T, T ≠ defaultTable → (after ops).tables.get? T = none) ∧
      ∃ shared, (after ops).tables.get? defaultTable = some shared ∧
        ∀ s ∈ shared.slots.slots, s.owner = none ∧ s.published = .null) := by
  obtain ⟨sign, shown, hsound, -⟩ := sound_after ops
  refine ⟨hsound.refs_eq, fun op T => ?_, fun h => ⟨fun T hT => ?_, ?_⟩⟩
  · obtain ⟨sign', shown', hsound', -⟩ := sound_after (ops ++ [op])
    rw [hsound.isSome_get?_iff, hsound'.get?_eq_none_iff]
  · rw [hsound.get?_eq_none_iff, h.holders, if_neg hT]
  · have hpos : 0 < (after ops).holders defaultTable := by
      rw [h.holders, if_pos rfl]
      exact Nat.one_pos
    obtain ⟨shared, hshared⟩ := Option.isSome_iff_exists.1 (hsound.isSome_get?_iff.2 hpos)
    refine ⟨shared, hshared, fun s hs => ?_⟩
    rw [h.default_idle hsound hshared s hs]
    exact ⟨rfl, rfl⟩

/-- A run with a handle that outlives its thread, a pruned cache, a pop of a thread whose cache is
gone, and a stack whose end fails. -/
def everythingEnds : List (Op (Option String)) :=
  [.newTable 1 3, .newStack 2 1, .newStackOwning 3 4 1, .startThread 5, .startThread 6, .hookExit 6,
    .push 2 7 none, .push 2 8 (some "drop"), .push 2 9 none, .push 2 10 none, .push 2 11 none,
    .push 3 12 none, .acquire 5 1 13, .pop 5 3, .dropStack 3, .pop 5 2, .pop 6 2, .beginExit 6, .pop 6 2,
    .endThread 6, .endThread 5, .dropStack 2, .dropTable 1, .release 13]

theorem only_default_left :
    (∀ T, T ≠ defaultTable → (after everythingEnds).tables.get? T = none) ∧
      ∃ shared, (after everythingEnds).tables.get? defaultTable = some shared ∧
        ∀ s ∈ shared.slots.slots, s.owner = none ∧ s.published = .null :=
  (tables_accounted everythingEnds).2.2
    ⟨by decide +kernel, by decide +kernel, by decide +kernel, by decide +kernel⟩

end Op

end HazardLifo
