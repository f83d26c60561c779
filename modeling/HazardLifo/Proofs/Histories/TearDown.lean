import HazardLifo.Proofs.Histories.Conservation
import Mathlib.Data.List.Count
import Mathlib.Data.List.Perm.Subperm

/-!
# Tearing down

A run is torn down by ending what is due: each thread, each handle, each stack and each variable
that holds a table. The order does not matter, and neither does a stack's end that fails.
-/

namespace HazardLifo

variable {α : Type}

inductive Ending where
  | thread (t : ThreadId)
  | handle (h : HandleId)
  | stack (s : StackId)
  /-- One variable that holds the table. -/
  | table (T : TableId)
  deriving DecidableEq, Repr

def Ending.op : Ending → Op α
  | thread t => .endThread t
  | handle h => .release h
  | stack s => .dropStack s
  | table T => .dropTable T

namespace Registry

variable {β : Type}

theorem keys_modify (r : Registry β) (k : Nat) (f : β → β) : (r.modify k f).keys = r.keys := by
  rw [keys, modify, List.map_map]
  rfl

theorem count_keys_erase (r : Registry β) (k j : Nat) :
    (r.erase k).keys.count j = r.keys.count j - if k = j then 1 else 0 := by
  have hnodup : r.keys.Nodup := r.nodup
  have hkeys : (r.erase k).keys = r.keys.erase k := by
    rw [hnodup.erase_eq_filter, keys, keys, erase, List.filter_map]
    rfl
  rw [hkeys, List.count_erase]
  simp only [beq_iff_eq]

theorem count_keys_eq_zero {r : Registry β} {k : Nat} (h : r.get? k = none) : r.keys.count k = 0 :=
  List.count_eq_zero.2 (get?_eq_none_iff.1 h)

end Registry

namespace State

/-- How often a thing is still to be ended. -/
def owed (σ : State α) : Ending → Nat
  | .thread t => σ.threads.keys.count t
  | .handle h => σ.handles.keys.count h
  | .stack s => σ.lifos.keys.count s
  | .table T => σ.callerTables.count T

def due (σ : State α) : List Ending :=
  σ.threads.keys.map .thread ++ σ.handles.keys.map .handle ++ σ.lifos.keys.map .stack ++
    σ.callerTables.map .table

variable {σ σ' : State α}

theorem count_due (σ : State α) (e : Ending) : σ.due.count e = σ.owed e := by
  have hother : ∀ {f : Nat → Ending} (l : List Nat), (∀ n, f n ≠ e) → (l.map f).count e = 0 :=
    fun l hf => List.count_eq_zero.2 fun hmem => by
      obtain ⟨n, -, hn⟩ := List.mem_map.1 hmem
      exact hf n hn
  have hown : ∀ {f : Nat → Ending} (l : List Nat) (n : Nat), Function.Injective f →
      (l.map f).count (f n) = l.count n := fun l n hf => List.count_map_of_injective l _ hf n
  simp only [due, List.count_append]
  cases e with
  | thread t =>
    rw [hown _ t fun _ _ => Ending.thread.inj]
    simp [owed, hother]
  | handle h =>
    rw [hown _ h fun _ _ => Ending.handle.inj]
    simp [owed, hother]
  | stack s =>
    rw [hown _ s fun _ _ => Ending.stack.inj]
    simp [owed, hother]
  | table T =>
    rw [hown _ T fun _ _ => Ending.table.inj]
    simp [owed, hother]

theorem tornDown_iff_due : TornDown σ ↔ σ.due = [] := by
  simp only [due, List.append_eq_nil_iff, List.map_eq_nil_iff]
  constructor
  · rintro ⟨hthreads, hhandles, hlifos, htables⟩
    exact ⟨⟨⟨hthreads, hhandles⟩, hlifos⟩, htables⟩
  · rintro ⟨⟨⟨hthreads, hhandles⟩, hlifos⟩, htables⟩
    exact ⟨hthreads, hhandles, hlifos, htables⟩

/-! ## One end -/

theorem TablesOnly.owed (h : TablesOnly σ σ') : σ'.owed = σ.owed := by
  rw [h.frame]
  rfl

theorem owed_closeCache (t : ThreadId) (σ : State α) : (closeCache t σ).state.owed = σ.owed := by
  have hset : ∀ cache, (σ.setCache t cache).owed = σ.owed := fun cache => by
    funext e
    cases e with
    | thread u => simp only [owed, setCache, Registry.keys_modify]
    | handle | stack | table => rfl
  cases hc : σ.cache t with
  | live handles =>
    rw [closeCache_of_live hc, (tablesOnly_giveBackAll ..).owed, hset]
  | untouched | gone => rw [closeCache_of_not_live (by simp [hc])]

theorem owed_of_absent {e x : Ending} (h : σ.owed e = 0) :
    σ.owed x = σ.owed x - if e = x then 1 else 0 := by
  split
  · subst x
    rw [h]
  · rfl

theorem owed_endThread (t : ThreadId) (x : Ending) (σ : State α) :
    (endThread t σ).state.owed x = σ.owed x - if .thread t = x then 1 else 0 := by
  rcases endThread_cases σ t with ⟨hnone, hrun⟩ | ⟨thread, -, hrun⟩
  · rw [hrun]
    exact owed_of_absent (Registry.count_keys_eq_zero hnone)
  · rw [hrun, ← owed_closeCache t σ]
    cases x with
    | thread u => simp [owed, Registry.count_keys_erase]
    | handle | stack | table => simp [owed]

theorem owed_release (h : HandleId) (x : Ending) (σ : State α) :
    (release h σ).state.owed x = σ.owed x - if .handle h = x then 1 else 0 := by
  rcases release_cases σ h with ⟨hnone, hrun⟩ | ⟨handle, -, hrun⟩
  · rw [hrun]
    exact owed_of_absent (Registry.count_keys_eq_zero hnone)
  · rw [hrun, (tablesOnly_giveBack ..).owed]
    cases x with
    | handle n => simp [owed, Registry.count_keys_erase]
    | thread | stack | table => simp [owed]

theorem owed_dropTable (T : TableId) (x : Ending) (σ : State α) :
    (dropTable T σ).state.owed x = σ.owed x - if .table T = x then 1 else 0 := by
  rcases dropTable_cases σ T with ⟨hnone, hrun⟩ | ⟨-, hrun⟩
  · rw [hrun]
    exact owed_of_absent (List.count_eq_zero.2 hnone)
  · rw [hrun, (tablesOnly_letGo σ T).frame]
    cases x with
    | table T' => simp [owed, List.count_erase]
    | thread | handle | stack => simp [owed]

section

variable [Disposable α]

theorem owed_dropStack (s : StackId) (x : Ending) (σ : State α) :
    (dropStack s σ).state.owed x = σ.owed x - if .stack s = x then 1 else 0 := by
  rcases dropStack_cases σ s with ⟨hnone, hrun⟩ | ⟨stack, result, -, -, hrun⟩
  · rw [hrun]
    exact owed_of_absent (Registry.count_keys_eq_zero hnone)
  · rw [hrun, ((tablesOnly_letGo σ stack.table).trans (tablesOnly_letGo ..)).frame]
    cases x with
    | stack s' => simp [owed, Registry.count_keys_erase]
    | thread | handle | table => simp [owed]

/-- An end takes one from what it ends and leaves everything else to be ended. -/
theorem owed_run (e x : Ending) (σ : State α) :
    (e.op.run σ).state.owed x = σ.owed x - if e = x then 1 else 0 := by
  cases e with
  | thread t => exact owed_endThread t x σ
  | handle h => exact owed_release h x σ
  | stack s => exact owed_dropStack s x σ
  | table T => exact owed_dropTable T x σ

/-! ## Any number of ends -/

theorem owed_runAll (es : List Ending) (x : Ending) (σ : State α) :
    (Op.runAll (es.map Ending.op) σ).state.owed x = σ.owed x - es.count x := by
  induction es generalizing σ with
  | nil => rfl
  | cons e rest ih =>
    rw [List.map_cons, Op.state_runAll_cons, ih, owed_run, List.count_cons, Nat.sub_sub]
    simp only [beq_iff_eq, Nat.add_comm]

end

end State

namespace Op

open State

variable [Disposable α]

/-- A run is torn down by the ends that are due, with any others, in any order. -/
theorem tornDown_iff (ops : List (Op α)) (es : List Ending) :
    TornDown (after (ops ++ es.map Ending.op)) ↔ (after ops).due.Subperm es := by
  rw [tornDown_iff_due, List.eq_nil_iff_forall_not_mem, List.subperm_iff_count]
  refine forall_congr' fun e => ?_
  rw [← List.count_eq_zero, count_due, count_due, after_append, owed_runAll]
  exact Nat.sub_eq_zero_iff_le

variable {ops : List (Op α)} {es : List Ending}

theorem get?_eq_none_of_due (h : (after ops).due.Subperm es) {T : TableId} (hT : T ≠ defaultTable) :
    (after (ops ++ es.map Ending.op)).tables.get? T = none := by
  obtain ⟨sign, shown, hsound, -⟩ := sound_after (ops ++ es.map Ending.op)
  rw [hsound.get?_eq_none_iff, ((tornDown_iff ops es).2 h).holders, if_neg hT]

theorem settled_of_due (h : (after ops).due.Subperm es) :
    Settled (account (ops ++ es.map Ending.op)) :=
  settled_of_tornDown _ ((tornDown_iff ops es).2 h)

end Op

end HazardLifo
