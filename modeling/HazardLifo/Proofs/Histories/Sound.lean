import HazardLifo.Proofs.Histories.Chronicle
import HazardLifo.Proofs.Histories.Handles
import HazardLifo.Proofs.Histories.Operations
import Mathlib.Logic.Function.Basic

/-!
# Sound states

The invariant of runs that accounts for tables, handles and threads. In a sound state the leases are
those on the handles of callers and those on cached handles, and the tables are backed by them;
every number in use was used. There is one lemma for each kind of operation, and `Sound.step` for
all.
-/

namespace HazardLifo

variable {α : Type}

namespace Registry

variable {β : Type}

theorem isSome_get?_modify (r : Registry β) (k : Nat) (f : β → β) (j : Nat) :
    ((r.modify k f).get? j).isSome = (r.get? j).isSome := by
  rw [get?_modify]
  split
  · rename_i h
    rw [h, Option.isSome_map]
  · rfl

/-- The leases on registered handles, signed and publishing as said. -/
def leases (r : Registry Handle) (sign : HandleId → Token) (shown : HandleId → Address) :
    List Lease := r.entries.map fun e => ⟨e.2, sign e.1, shown e.1⟩

variable {r : Registry Handle} {h : HandleId} {handle : Handle} {sign : HandleId → Token}
  {shown : HandleId → Address}

theorem leases_perm (hh : r.get? h = some handle) (sign : HandleId → Token)
    (shown : HandleId → Address) :
    (r.leases sign shown).Perm (⟨handle, sign h, shown h⟩ :: (r.erase h).leases sign shown) :=
  (entries_perm hh).map _

theorem leases_congr {sign' : HandleId → Token} {shown' : HandleId → Address}
    (hsame : ∀ k ∈ r.keys, sign' k = sign k ∧ shown' k = shown k) :
    r.leases sign' shown' = r.leases sign shown :=
  List.map_congr_left fun e he => by
    obtain ⟨hk, ha⟩ := hsame e.1 (mem_keys_of_mem he)
    rw [hk, ha]

theorem leases_erase_update (a : Address) :
    (r.erase h).leases sign (Function.update shown h a) = (r.erase h).leases sign shown := by
  refine leases_congr fun k hk => ⟨rfl, Function.update_of_ne (fun heq => ?_) ..⟩
  subst heq
  have hgone : (r.erase k).get? k = none := by rw [get?_erase, if_pos rfl]
  exact get?_eq_none_iff.1 hgone hk

theorem leases_insert (hh : r.get? h = none) (k : Token) (a : Address) :
    (r.insert h handle).leases (Function.update sign h k) (Function.update shown h a) =
      r.leases sign shown ++ [⟨handle, k, a⟩] := by
  rw [leases, entries_insert hh, List.map_append, List.map_singleton, Function.update_self,
    Function.update_self]
  congr 1
  refine leases_congr fun j hj => ?_
  have hne : j ≠ h := fun heq => get?_eq_none_iff.1 hh (heq ▸ hj)
  exact ⟨Function.update_of_ne hne .., Function.update_of_ne hne ..⟩

end Registry

def Registry.cachedLeases (r : Registry Thread) : List Lease := r.values.flatMap Thread.leases

namespace State

def tokenOf (σ : State α) (t : ThreadId) : Option Token := (σ.threads.get? t).bind (·.token)

/-- Every number in use was used. -/
structure Numbered (σ : State α) : Prop where
  tables : ∀ T, (σ.tables.get? T).isSome → T < σ.horizon
  lifos : ∀ s, (σ.lifos.get? s).isSome → s < σ.horizon
  handles : ∀ h, (σ.handles.get? h).isSome → h < σ.horizon
  threads : ∀ t, (σ.threads.get? t).isSome → t < σ.horizon

structure Sound (σ : State α) (sign : HandleId → Token) (shown : HandleId → Address) : Prop
    extends Numbered σ where
  backed : Backed σ σ.anchors (σ.handles.leases sign shown ++ σ.threads.cachedLeases)
  signed : ∀ t thread, σ.threads.get? t = some thread → thread.token ≠ some 0

theorem anchors_setStack {σ : State α} {s : StackId} {stack stack' : Stack α}
    (hs : σ.lifos.get? s = some stack) (hT : stack'.table = stack.table) :
    (σ.setStack s stack').anchors = σ.anchors := by
  have hcount : ∀ T, (σ.setStack s stack').lifos.values.countP (·.table == T) =
      σ.lifos.values.countP (·.table == T) := fun T => by
    rw [setStack, (Registry.values_modify_perm hs _).countP_eq, (Registry.values_perm hs).countP_eq,
      List.countP_cons, List.countP_cons, hT]
  funext T
  simp only [anchors, hcount]
  rfl

namespace Numbered

variable {σ σ' : State α} {n : Nat}

theorem fresh (h : Numbered σ) (hn : σ.horizon ≤ n) :
    σ.tables.get? n = none ∧ σ.lifos.get? n = none ∧ σ.handles.get? n = none ∧
      σ.threads.get? n = none := by
  have hfree : ∀ {β : Type} {o : Option β}, (o.isSome → n < σ.horizon) → o = none := fun ho => by
    refine Option.not_isSome_iff_eq_none.1 fun hs => ?_
    exact absurd (ho hs) (Nat.not_lt.2 hn)
  exact ⟨hfree (h.tables n), hfree (h.lifos n), hfree (h.handles n), hfree (h.threads n)⟩

theorem use (h : Numbered σ) (n : Nat) : Numbered (σ.use n) where
  tables T hT := Nat.lt_of_lt_of_le (h.tables T hT) (Nat.le_max_left ..)
  lifos s hs := Nat.lt_of_lt_of_le (h.lifos s hs) (Nat.le_max_left ..)
  handles n hn := Nat.lt_of_lt_of_le (h.handles n hn) (Nat.le_max_left ..)
  threads t ht := Nat.lt_of_lt_of_le (h.threads t ht) (Nat.le_max_left ..)

theorem isSome_get?_insert_lt {β : Type} {r : Registry β} {n : Nat} {b : β} {bound : Nat}
    (hr : ∀ k, (r.get? k).isSome → k < bound) {k : Nat} (hk : ((r.insert n b).get? k).isSome) :
    k < max bound (n + 1) := by
  rw [Registry.get?_insert] at hk
  split at hk
  · omega
  · have := hr k hk
    omega

theorem isSome_get?_erase_lt {β : Type} {r : Registry β} {n : Nat} {bound : Nat}
    (hr : ∀ k, (r.get? k).isSome → k < bound) {k : Nat} (hk : ((r.erase n).get? k).isSome) :
    k < bound := by
  rw [Registry.get?_erase] at hk
  split at hk
  · cases hk
  · exact hr k hk

theorem of_served {t : ThreadId} {R : List Lease} {thread thread' : Thread} (h : Numbered σ)
    (hs : Served t R σ σ' thread thread') : Numbered σ' := by
  have hthreads : ∀ t', (σ'.threads.get? t').isSome = (σ.threads.get? t').isSome := fun t' => by
    rw [hs.threads, Registry.isSome_get?_modify]
  rw [hs.rest]
  exact ⟨fun T hT => h.tables T (hs.survives T hT), h.lifos, h.handles,
    fun t' ht' => h.threads t' (by rwa [hthreads] at ht')⟩

end Numbered

namespace Sound

variable {σ σ' : State α} {sign : HandleId → Token} {shown : HandleId → Address} {T : TableId}
  {s : StackId} {t : ThreadId} {thread thread' : Thread} {stack stack' : Stack α} {L : List Lease}

theorem slot_of_cached (h : Sound σ sign shown) (ht : σ.threads.get? t = some thread) {hd : Handle}
    (hh : hd ∈ thread.cache.handles) :
    ∃ k, thread.token = some k ∧ σ.slot? hd = some ⟨some k, .null⟩ := by
  have hl : ownLease (thread.token.getD 0) hd ∈
      σ.handles.leases sign shown ++ σ.threads.cachedLeases := by
    refine List.mem_append_right _ (List.mem_flatMap.2 ⟨thread, ?_, List.mem_map_of_mem hh⟩)
    exact Registry.mem_values_iff.2 ⟨t, ht⟩
  have hne := h.backed.signed _ hl
  cases hk : thread.token with
  | none => exact absurd (by rw [hk]; rfl) hne
  | some k =>
    rw [hk] at hl
    exact ⟨k, rfl, h.backed.slot?_of_mem hl⟩

theorem slot_of_handle (h : Sound σ sign shown) {n : HandleId} {hd : Handle}
    (hn : σ.handles.get? n = some hd) : σ.slot? hd = some ⟨some (sign n), shown n⟩ :=
  have hl : ⟨hd, sign n, shown n⟩ ∈ σ.handles.leases sign shown :=
    List.mem_map.2 ⟨(n, hd), Registry.get?_eq_some_iff.1 hn, rfl⟩
  h.backed.slot?_of_mem (List.mem_append_left _ hl)

theorem slot_of_mem_cache (h : Sound σ sign shown) {hd : Handle} (hh : hd ∈ (σ.cache t).handles) :
    ∃ k, σ.tokenOf t = some k ∧ σ.slot? hd = some ⟨some k, .null⟩ := by
  obtain ⟨thread, ht, hh⟩ := exists_thread_of_mem_cache hh
  obtain ⟨k, hk, hslot⟩ := h.slot_of_cached ht hh
  exact ⟨k, by rw [tokenOf, ht, Option.bind_some, hk], hslot⟩

/-- The leases besides those on the cached handles of thread `t`. -/
def others (σ : State α) (t : ThreadId) (sign : HandleId → Token) (shown : HandleId → Address) :
    List Lease := σ.handles.leases sign shown ++ (σ.threads.erase t).cachedLeases

theorem served (h : Sound σ sign shown) (ht : σ.threads.get? t = some thread) :
    Served t (others σ t sign shown) σ σ thread thread := by
  refine .refl ht (h.signed t thread ht) (h.backed.perm ?_)
  have hp : σ.threads.cachedLeases.Perm (thread.leases ++ (σ.threads.erase t).cachedLeases) :=
    (Registry.values_perm ht).flatMap_right _
  refine (hp.append_left _).trans ?_
  rw [others, ← List.append_assoc, ← List.append_assoc]
  exact List.perm_append_comm.append_right _

theorem backed_of_served (hs : Served t (L ++ (σ.threads.erase t).cachedLeases) σ σ' thread thread') :
    Backed σ' σ.anchors (L ++ σ'.threads.cachedLeases) := by
  refine hs.backed.perm ?_
  have hp : σ'.threads.cachedLeases.Perm (thread'.leases ++ (σ.threads.erase t).cachedLeases) := by
    rw [hs.threads]
    exact (Registry.values_modify_perm hs.runs _).flatMap_right _
  refine List.Perm.trans ?_ (hp.append_left _).symm
  rw [← List.append_assoc, ← List.append_assoc]
  exact List.perm_append_comm.append_right _

theorem signed_of_served (h : Sound σ sign shown) {R : List Lease}
    (hs : Served t R σ σ' thread thread') :
    ∀ t th, σ'.threads.get? t = some th → th.token ≠ some 0 := fun t' th ht' => by
  rw [hs.threads, Registry.get?_modify] at ht'
  split at ht'
  · rw [hs.runs] at ht'
    obtain rfl := Option.some.inj ht'
    exact hs.signed
  · exact h.signed t' th ht'

theorem of_served (h : Sound σ sign shown)
    (hs : Served t (others σ t sign shown) σ σ' thread thread') : Sound σ' sign shown where
  toNumbered := h.toNumbered.of_served hs
  backed := by
    rw [hs.anchors, hs.handles]
    exact backed_of_served hs
  signed := h.signed_of_served hs

theorem setStack (h : Sound σ sign shown) (hs : σ.lifos.get? s = some stack)
    (hT : stack'.table = stack.table) : Sound (σ.setStack s stack') sign shown where
  tables := h.tables
  lifos s' hs' := h.lifos s' (by rwa [State.setStack, Registry.isSome_get?_modify] at hs')
  handles := h.handles
  threads := h.threads
  backed := h.backed.congr rfl fun T => by rw [anchors_setStack hs hT]
  signed := h.signed

theorem use (h : Sound σ sign shown) (n : Nat) : Sound (σ.use n) sign shown where
  toNumbered := h.toNumbered.use n
  backed := h.backed.congr rfl fun _ => rfl
  signed := h.signed

/-! ## Tables -/

theorem newTable (h : Sound σ sign shown) (hT : σ.horizon ≤ T) (capacity : Nat) :
    Sound { σ.use T with
      tables := σ.tables.insert T ⟨.free capacity, 1⟩
      callerTables := T :: σ.callerTables } sign shown where
  toNumbered := { h.toNumbered.use T with tables := fun _ => Numbered.isSome_get?_insert_lt h.tables }
  backed := by
    refine h.backed.insert (h.fresh hT).1 Nat.one_pos rfl fun T' => ?_
    simp only [anchors, State.use, List.count_cons, beq_iff_eq, eq_comm (a := T)]
    omega
  signed := h.signed

theorem shareTable (h : Sound σ sign shown) (hT : (σ.tables.get? T).isSome) :
    Sound { σ.retain T 1 with callerTables := T :: σ.callerTables } sign shown where
  tables T' hT' := h.tables T' (by rwa [isSome_get?_retain] at hT')
  lifos := h.lifos
  handles := h.handles
  threads := h.threads
  backed := by
    refine (h.backed.retain hT fun T' => ?_).congr rfl fun _ => rfl
    simp only [anchors, State.retain, List.count_cons, beq_iff_eq, eq_comm (a := T)]
    omega
  signed := h.signed

theorem dropTable (h : Sound σ sign shown) (hT : T ∈ σ.callerTables) :
    Sound { σ.letGo T with callerTables := σ.callerTables.erase T } sign shown := by
  have ho := tablesOnly_letGo σ T
  have hb : Backed (σ.letGo T) { σ with callerTables := σ.callerTables.erase T }.anchors
      (σ.handles.leases sign shown ++ σ.threads.cachedLeases) := by
    refine h.backed.letGo fun T' => ?_
    have hpos := List.count_pos_iff.2 hT
    simp only [anchors, List.count_erase, beq_iff_eq]
    by_cases heq : T' = T
    · subst heq
      simp only [if_true]
      omega
    · simp [heq, Ne.symm heq]
  rw [ho.frame]
  exact
    { tables := fun T' hT' => h.tables T' (ho.survives T' hT')
      lifos := h.lifos
      handles := h.handles
      threads := h.threads
      backed := hb.congr rfl fun _ => rfl
      signed := h.signed }

/-! ## Stacks -/

theorem anchors_insert (hs : σ.lifos.get? s = none) (T T' : TableId) :
    { σ with lifos := σ.lifos.insert s { table := T } }.anchors T' =
      σ.anchors T' + if T' = T then 2 else 0 := by
  simp only [anchors, Registry.values_insert hs, List.countP_append, List.countP_singleton,
    beq_iff_eq, eq_comm (a := T)]
  split <;> omega

theorem anchors_erase (hs : σ.lifos.get? s = some stack) (T' : TableId) :
    σ.anchors T' =
      { σ with lifos := σ.lifos.erase s }.anchors T' + if T' = stack.table then 2 else 0 := by
  simp only [anchors, (Registry.values_perm hs).countP_eq, List.countP_cons, beq_iff_eq,
    eq_comm (a := stack.table)]
  split <;> omega

theorem newStack (h : Sound σ sign shown) (hs : σ.horizon ≤ s) (hT : (σ.tables.get? T).isSome) :
    Sound { (σ.use s).retain T 2 with lifos := σ.lifos.insert s { table := T } } sign shown where
  tables T' hT' := (h.use s).tables T' (by rwa [isSome_get?_retain] at hT')
  lifos _ := Numbered.isSome_get?_insert_lt h.lifos
  handles := (h.use s).handles
  threads := (h.use s).threads
  backed := (h.backed.retain hT (anchors_insert (h.fresh hs).2.1 T)).congr rfl fun _ => rfl
  signed := h.signed

theorem newStackOwning (h : Sound σ sign shown) (hs : σ.horizon ≤ s) (hsT : s < T) (capacity : Nat) :
    Sound { σ.use T with
      tables := σ.tables.insert T ⟨.free capacity, 2⟩
      lifos := σ.lifos.insert s { table := T } } sign shown where
  tables _ := Numbered.isSome_get?_insert_lt h.tables
  lifos s' hs' := by
    refine Nat.lt_of_lt_of_le (Numbered.isSome_get?_insert_lt h.lifos hs') ?_
    have hle : s + 1 ≤ T + 1 := Nat.succ_le_succ (Nat.le_of_lt hsT)
    exact Nat.max_le.2 ⟨Nat.le_max_left .., Nat.le_trans hle (Nat.le_max_right ..)⟩
  handles := (h.use T).handles
  threads := (h.use T).threads
  backed := by
    have hT := (h.fresh (Nat.le_trans hs (Nat.le_of_lt hsT))).1
    exact h.backed.insert hT Nat.two_pos rfl (anchors_insert (h.fresh hs).2.1 T)
  signed := h.signed

theorem dropStack (h : Sound σ sign shown) (hs : σ.lifos.get? s = some stack) (lost : List Block) :
    Sound { (σ.letGo stack.table).letGo stack.table with
      lifos := σ.lifos.erase s
      lost := lost } sign shown := by
  let ρ : State α := { σ with lifos := σ.lifos.erase s }
  have hb : Backed (σ.letGo stack.table) (fun T' => ρ.anchors T' + if T' = stack.table then 1 else 0)
      (σ.handles.leases sign shown ++ σ.threads.cachedLeases) := by
    refine h.backed.letGo fun T' => ?_
    rw [anchors_erase hs]
    split <;> simp only [ρ]
  have hb' := hb.letGo fun _ => rfl
  have ho := (tablesOnly_letGo σ stack.table).trans (tablesOnly_letGo _ stack.table)
  rw [ho.frame]
  exact
    { tables := fun T hT => h.tables T (ho.survives T hT)
      lifos := fun _ => Numbered.isSome_get?_erase_lt h.lifos
      handles := h.handles
      threads := h.threads
      backed := hb'.congr rfl fun _ => rfl
      signed := h.signed }

/-! ## Handles -/

theorem publish (h : Sound σ sign shown) {n : HandleId} {handle : Handle}
    (hh : σ.handles.get? n = some handle) (a : Address) :
    Sound (σ.setSlots handle.table (·.publish handle.slot a)) sign (Function.update shown n a) where
  tables T hT := h.tables T (by rwa [isSome_get?_setSlots] at hT)
  lifos := h.lifos
  handles := h.handles
  threads := h.threads
  backed := by
    have hp := (Registry.leases_perm hh sign shown).append_right σ.threads.cachedLeases
    have hp' := (Registry.leases_perm hh sign (Function.update shown n a)).append_right
      σ.threads.cachedLeases
    rw [Registry.leases_erase_update, Function.update_self] at hp'
    exact ((h.backed.perm hp).publish a).perm hp'.symm
  signed := h.signed

theorem acquire (h : Sound σ sign shown) {n : HandleId} (hn : σ.horizon ≤ n) {handle : Handle}
    {k : Token} (hs : Served t (ownLease k handle :: others σ t sign shown) σ σ' thread thread') :
    Sound { σ'.use n with handles := σ'.handles.insert n handle } (Function.update sign n k)
      (Function.update shown n .null) where
  toNumbered :=
    have hnum := h.toNumbered.of_served hs
    { hnum.use n with handles := fun _ => Numbered.isSome_get?_insert_lt hnum.handles }
  backed := by
    have hn' : σ'.handles.get? n = none := by
      rw [hs.handles]
      exact (h.fresh hn).2.2.1
    have hb := backed_of_served (L := ownLease k handle :: σ.handles.leases sign shown) hs
    rw [Registry.leases_insert hn', hs.handles]
    refine (hb.perm ?_).congr rfl fun T => ?_
    · exact (List.perm_append_singleton _ _).symm.append_right _
    · rw [← hs.anchors]
      rfl
  signed :=
    have hsigned := h.signed_of_served hs
    hsigned

theorem release (h : Sound σ sign shown) {n : HandleId} {handle : Handle}
    (hh : σ.handles.get? n = some handle) :
    Sound (giveBack handle { σ with handles := σ.handles.erase n }).state sign shown := by
  let ρ : State α := { σ with handles := σ.handles.erase n }
  have hp := (Registry.leases_perm hh sign shown).append_right σ.threads.cachedLeases
  have hb : Backed (giveBack handle ρ).state σ.anchors
      ((σ.handles.erase n).leases sign shown ++ σ.threads.cachedLeases) :=
    ((h.backed.perm hp).congr rfl fun _ => rfl : Backed ρ σ.anchors _).giveBack
  have ho := tablesOnly_giveBack handle ρ
  rw [ho.frame]
  exact
    { tables := fun T hT => h.tables T (ho.survives T hT)
      lifos := h.lifos
      handles := fun _ => Numbered.isSome_get?_erase_lt h.handles
      threads := h.threads
      backed := hb.congr rfl fun _ => rfl
      signed := h.signed }

/-! ## Threads -/

theorem startThread (h : Sound σ sign shown) (ht : σ.horizon ≤ t) :
    Sound { σ.use t with threads := σ.threads.insert t {} } sign shown where
  toNumbered :=
    { h.toNumbered.use t with threads := fun _ => Numbered.isSome_get?_insert_lt h.threads }
  backed := by
    have hnew : (σ.threads.insert t {}).cachedLeases = σ.threads.cachedLeases := by
      rw [Registry.cachedLeases, Registry.values_insert (h.fresh ht).2.2.2, List.flatMap_append]
      exact List.append_nil _
    rw [hnew]
    exact h.backed.congr rfl fun _ => rfl
  signed t' th ht' := by
    rw [Registry.get?_insert] at ht'
    split at ht'
    · obtain rfl := Option.some.inj ht'
      simp
    · exact h.signed t' th ht'

theorem endThread (h : Sound σ sign shown)
    (hs : Served t (others σ t sign shown) σ σ' thread thread') (hl : thread'.leases = []) :
    Sound { σ' with threads := σ'.threads.erase t } sign shown := by
  have h' := h.of_served hs
  have hp : σ'.threads.cachedLeases.Perm (thread'.leases ++ (σ'.threads.erase t).cachedLeases) :=
    (Registry.values_perm hs.get?).flatMap_right _
  rw [hl, List.nil_append] at hp
  exact
    { tables := h'.tables
      lifos := h'.lifos
      handles := h'.handles
      threads := fun _ => Numbered.isSome_get?_erase_lt h'.threads
      backed := (h'.backed.perm (hp.append_left _)).congr rfl fun _ => rfl
      signed := fun t' th ht' => by
        rw [Registry.get?_erase] at ht'
        split at ht'
        · cases ht'
        · exact h'.signed t' th ht' }

end Sound

end State

end HazardLifo
