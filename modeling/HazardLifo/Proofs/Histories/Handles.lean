import HazardLifo.Proofs.Histories.Pops

/-!
# Handles of a thread

What an operation does for the thread that runs it: it may draw the thread's token, prune its cache,
claim a handle and keep it, or give handles back. `Served` holds between the state at the start of
the operation and each state inside it, and each of these parts carries it one step further.
-/

namespace HazardLifo

variable {α : Type}

/-- Nothing ends: there are notices at most. -/
def OnlyNotices (events : List (Event α)) : Prop := ∀ e ∈ events, ∃ n, e = .notice n

theorem onlyNotices_nil : OnlyNotices ([] : List (Event α)) := fun _ he => by cases he

theorem onlyNotices_notice (n : Notice) : OnlyNotices ([.notice n] : List (Event α)) :=
  fun _ he => ⟨n, List.mem_singleton.1 he⟩

theorem OnlyNotices.append {events events' : List (Event α)} (h : OnlyNotices events)
    (h' : OnlyNotices events') : OnlyNotices (events ++ events') := fun e he =>
  (List.mem_append.1 he).elim (h e) (h' e)

namespace State

/-- The references to a table besides those of handles. -/
def anchors (σ : State α) (T : TableId) : Nat :=
  σ.callerTables.count T + 2 * σ.lifos.values.countP (·.table == T) +
    if T = defaultTable then 1 else 0

def withToken (σ : State α) (t : ThreadId) (k last : Token) : State α :=
  { σ with lastToken := last, threads := σ.threads.modify t ({ · with token := some k }) }

/-- `k` is the token that a thread has, or else the next one, which it then draws. -/
def Draws (σ : State α) (thread : Thread) (k last : Token) : Prop :=
  (thread.token = some k ∧ last = σ.lastToken) ∨
    (thread.token = none ∧ k = σ.lastToken + 1 ∧ last = σ.lastToken + 1)

variable {σ : State α} {t : ThreadId} {thread : Thread} {T : TableId} {shared : SharedTable}

theorem Draws.unique {k k' last last' : Token} (h : σ.Draws thread k last)
    (h' : σ.Draws thread k' last') : k = k' := by
  rcases h with ⟨hk, -⟩ | ⟨hk, rfl, -⟩ <;> rcases h' with ⟨hk', -⟩ | ⟨hk', rfl, -⟩
  · exact Option.some.inj (hk.symm.trans hk')
  · cases hk.symm.trans hk'
  · cases hk.symm.trans hk'
  · rfl

theorem token_eq (ht : σ.threads.get? t = some thread) :
    ∃ k last, σ.Draws thread k last ∧ token t σ = ⟨σ.withToken t k last, [], k⟩ := by
  cases hk : thread.token with
  | some k =>
    refine ⟨k, σ.lastToken, .inl ⟨hk, rfl⟩, ?_⟩
    have hsame : σ.withToken t k σ.lastToken = σ := by
      rw [withToken, Registry.modify_eq_self fun a ha => ?_]
      obtain rfl := Option.some.inj (ht.symm.trans ha)
      rw [← hk]
    rw [hsame]
    simp [token, Action.bind_apply, ht, hk]
  | none =>
    refine ⟨_, _, .inr ⟨hk, rfl, rfl⟩, ?_⟩
    simp [token, Action.bind_apply, ht, hk, withToken]

theorem claim_eq (ht : σ.threads.get? t = some thread) (hT : σ.tables.get? T = some shared) :
    ∃ k last, σ.Draws thread k last ∧
      ((shared.slots.claim? k = none ∧
        claim t T σ = ⟨σ.withToken t k last, [.notice (.exhausted T k shared.slots.capacity)],
          .error (.pop (.exhausted shared.slots.capacity))⟩) ∨
      (∃ i slots, shared.slots.claim? k = some (i, slots) ∧
        claim t T σ = ⟨((σ.withToken t k last).setSlots T fun _ => slots).retain T 1,
          [.notice (.claimed T k i)], .ok ⟨T, i⟩⟩)) := by
  obtain ⟨k, last, hd, htok⟩ := token_eq ht
  refine ⟨k, last, hd, ?_⟩
  have hT' : (σ.withToken t k last).tables.get? T = some shared := hT
  cases hc : shared.slots.claim? k with
  | none =>
    refine .inl ⟨rfl, ?_⟩
    simp [claim, Action.bind_apply, htok, hT', hc]
  | some p =>
    obtain ⟨i, slots⟩ := p
    refine .inr ⟨i, slots, rfl, ?_⟩
    simp [claim, Action.bind_apply, htok, hT', hc]

/-! ## Giving handles back -/

theorem giveBack_eq (h : Handle) (σ : State α) :
    giveBack h σ = ⟨(σ.setSlots h.table (·.release h.slot)).letGo h.table,
      [.notice (.released h.table (σ.owner h) h.slot)], ()⟩ := rfl

theorem prune_cons (h : Handle) (rest : List Handle) (σ : State α) :
    prune (h :: rest) σ =
      if σ.refs h.table = 1 then
        let o := giveBack h σ
        let p := prune rest o.state
        ⟨p.state, o.events ++ p.events, p.value⟩
      else
        let p := prune rest σ
        ⟨p.state, p.events, h :: p.value⟩ := by
  by_cases hr : σ.refs h.table = 1 <;> simp [prune, Action.bind_apply, hr]

/-- From `σ` to `σ'` only the tables change, and none is added. -/
structure TablesOnly (σ σ' : State α) : Prop where
  frame : σ' = { σ with tables := σ'.tables }
  survives : ∀ T, (σ'.tables.get? T).isSome → (σ.tables.get? T).isSome

namespace TablesOnly

variable {σ₁ σ₂ : State α}

theorem refl (σ : State α) : TablesOnly σ σ := ⟨rfl, fun _ => id⟩

theorem trans (h : TablesOnly σ σ₁) (h' : TablesOnly σ₁ σ₂) : TablesOnly σ σ₂ :=
  ⟨by rw [h'.frame, h.frame], fun T hT => h.survives T (h'.survives T hT)⟩

end TablesOnly

theorem tablesOnly_setSlots (σ : State α) (T : TableId) (f : SlotTable → SlotTable) :
    TablesOnly σ (σ.setSlots T f) :=
  ⟨rfl, fun T' hT' => by rwa [isSome_get?_setSlots] at hT'⟩

theorem tablesOnly_letGo (σ : State α) (T : TableId) : TablesOnly σ (σ.letGo T) where
  frame := by
    unfold letGo
    split <;> rfl
  survives T' hT' := by
    rw [isSome_get?_letGo] at hT'
    split at hT'
    · cases hT'
    · exact hT'

theorem tablesOnly_giveBack (h : Handle) (σ : State α) : TablesOnly σ (giveBack h σ).state :=
  (tablesOnly_setSlots ..).trans (tablesOnly_letGo ..)

theorem tablesOnly_giveBackAll (hs : List Handle) (σ : State α) :
    TablesOnly σ (giveBackAll hs σ).state := by
  induction hs generalizing σ with
  | nil => exact .refl σ
  | cons h rest ih => exact (tablesOnly_giveBack h σ).trans (ih _)

theorem onlyNotices_giveBackAll (hs : List Handle) (σ : State α) :
    OnlyNotices (giveBackAll hs σ).events := by
  induction hs generalizing σ with
  | nil => exact onlyNotices_nil
  | cons h rest ih => exact (onlyNotices_notice _).append (ih _)

theorem tablesOnly_prune (hs : List Handle) (σ : State α) : TablesOnly σ (prune hs σ).state := by
  induction hs generalizing σ with
  | nil => exact .refl σ
  | cons h rest ih =>
    rw [prune_cons]
    split
    · exact (tablesOnly_giveBack h σ).trans (ih _)
    · exact ih σ

theorem onlyNotices_prune (hs : List Handle) (σ : State α) : OnlyNotices (prune hs σ).events := by
  induction hs generalizing σ with
  | nil => exact onlyNotices_nil
  | cons h rest ih =>
    rw [prune_cons]
    split
    · exact (onlyNotices_notice _).append (ih _)
    · exact ih σ

/-! ## The thread's cache -/

theorem cachedHandle_eq (t : ThreadId) (T : TableId) (σ : State α) :
    cachedHandle t T σ =
      let p := prune (σ.cache t).handles σ
      let τ := p.state.setCache t (.live p.value)
      match p.value.find? (·.table == T) with
      | some h => ⟨τ, p.events, .ok h⟩
      | none =>
        let c := claim t T τ
        match c.value with
        | .error e => ⟨c.state, p.events ++ c.events, .error e⟩
        | .ok h => ⟨c.state.setCache t (.live (p.value ++ [h])), p.events ++ c.events, .ok h⟩ := by
  cases hf : (prune (σ.cache t).handles σ).value.find? (·.table == T) with
  | some h => simp [cachedHandle, Action.bind_apply, hf]
  | none =>
    cases hc : (claim t T ((prune (σ.cache t).handles σ).state.setCache t
        (.live (prune (σ.cache t).handles σ).value))).value with
    | error e => simp [cachedHandle, Action.bind_apply, hf, hc]
    | ok h => simp [cachedHandle, Action.bind_apply, hf, hc]

theorem cache_eq (ht : σ.threads.get? t = some thread) : σ.cache t = thread.cache := by
  rw [cache, ht]

theorem exists_thread_of_mem_cache {h : Handle} (hh : h ∈ (σ.cache t).handles) :
    ∃ thread, σ.threads.get? t = some thread ∧ h ∈ thread.cache.handles := by
  cases ht : σ.threads.get? t with
  | none =>
    rw [cache, ht] at hh
    cases hh
  | some thread => exact ⟨thread, rfl, cache_eq ht ▸ hh⟩

theorem closeCache_of_live {handles : List Handle} (hc : σ.cache t = .live handles) :
    closeCache t σ = giveBackAll handles (σ.setCache t .gone) := by
  simp [closeCache, Action.bind_apply, hc]

theorem closeCache_of_not_live (hc : σ.cache t = .untouched ∨ σ.cache t = .gone) :
    closeCache t σ = ⟨σ, [], ()⟩ := by
  rcases hc with hc | hc <;> simp [closeCache, Action.bind_apply, hc]

/-- What a lease is on a handle that a thread with token `k` keeps for its own pops. -/
def ownLease (k : Token) (h : Handle) : Lease := ⟨h, k, .null⟩

end State

def Thread.leases (thread : Thread) : List Lease :=
  thread.cache.handles.map (State.ownLease (thread.token.getD 0))

theorem Thread.address_of_mem_leases {thread : Thread} {l : Lease} (hl : l ∈ thread.leases) :
    l.address = .null := by
  obtain ⟨h, -, rfl⟩ := List.mem_map.1 hl
  rfl

theorem Thread.leases_of_token {thread : Thread} {k : Token} (hk : thread.token = some k) :
    thread.leases = thread.cache.handles.map (State.ownLease k) := by
  rw [leases, hk, Option.getD_some]

namespace Backed

open State

variable {σ : State α} {A : TableId → Nat} {L R : List Lease} {thread : Thread} {k last : Token}
  {hs : List Handle}

theorem giveBackAll (h : Backed σ A (hs.map (ownLease k) ++ R)) :
    Backed (State.giveBackAll hs σ).state A R := by
  induction hs generalizing σ with
  | nil => exact h
  | cons hd rest ih => exact ih h.giveBack

theorem prune (h : Backed σ A (hs.map (ownLease k) ++ R)) :
    Backed (State.prune hs σ).state A ((State.prune hs σ).value.map (ownLease k) ++ R) := by
  induction hs generalizing σ R with
  | nil => exact h
  | cons hd rest ih =>
    rw [prune_cons]
    split
    · exact ih h.giveBack
    · have hkept := ih (h.perm List.perm_middle.symm)
      exact hkept.perm List.perm_middle

theorem leases_eq (h : Backed σ A (thread.leases ++ R)) (hd : σ.Draws thread k last) :
    { thread with token := some k }.leases = thread.leases := by
  rcases hd with ⟨hk, -⟩ | ⟨hk, -, -⟩
  · simp only [Thread.leases, hk, Option.getD_some]
  · have hnil : thread.cache.handles = [] := by
      refine List.eq_nil_iff_forall_not_mem.2 fun hd hmem => ?_
      refine h.signed (ownLease 0 hd) (List.mem_append_left _ ?_) rfl
      simp only [Thread.leases, hk, Option.getD_none]
      exact List.mem_map_of_mem hmem
    simp only [Thread.leases, hnil, List.map_nil]

theorem published_eq {σ' : State α} {A' : TableId → Nat} {N N' : List Lease}
    (h : Backed σ A (N ++ R)) (h' : Backed σ' A' (N' ++ R)) (hN : ∀ l ∈ N, l.address = .null)
    (hN' : ∀ l ∈ N', l.address = .null) : σ'.published = σ.published := by
  funext T b
  have honR : ∀ {N : List Lease}, (∀ l ∈ N, l.address = .null) →
      ((∃ l ∈ N ++ R, l.handle.table = T ∧ l.address = .block b) ↔
        ∃ l ∈ R, l.handle.table = T ∧ l.address = .block b) := fun hN => by
    constructor
    · rintro ⟨l, hl, hT, hb⟩
      rcases List.mem_append.1 hl with hl | hl
      · rw [hN l hl] at hb
        cases hb
      · exact ⟨l, hl, hT, hb⟩
    · rintro ⟨l, hl, hT, hb⟩
      exact ⟨l, List.mem_append_right _ hl, hT, hb⟩
  rw [Bool.eq_iff_iff]
  exact h'.publishes_iff.trans ((and_congr_right' ((honR hN').trans (honR hN).symm)).trans
    h.publishes_iff.symm)

theorem silence (h : Backed σ A L) {l : Lease} (hl : l ∈ L) (ha : l.address = .null) :
    Backed (σ.silence l.handle) A L := by
  have hp := List.perm_cons_erase hl
  have hcleared := (h.perm hp).publish .null
  rw [show ({ l with address := .null } : Lease) = l from Lease.ext rfl rfl ha.symm] at hcleared
  exact hcleared.perm hp.symm

end Backed

/-! ## An operation that serves a thread -/

/-- The token of a thread stays, or it is drawn. -/
def State.Signs (σ : State α) (thread thread' : Thread) (last : Token) : Prop :=
  (thread'.token = thread.token ∧ last = σ.lastToken) ∨
    (thread.token = none ∧ thread'.token = some (σ.lastToken + 1) ∧ last = σ.lastToken + 1)

/-- From `σ` to `σ'` only thread `t` and the tables change. The tables are backed in `σ'`, where `R`
are the leases that are not on cached handles of the thread. -/
structure Served (t : ThreadId) (R : List Lease) (σ σ' : State α) (thread thread' : Thread) :
    Prop where
  runs : σ.threads.get? t = some thread
  threads : σ'.threads = σ.threads.modify t fun _ => thread'
  rest : σ' =
    { σ with tables := σ'.tables, lastToken := σ'.lastToken, threads := σ'.threads }
  signs : σ.Signs thread thread' σ'.lastToken
  signed : thread'.token ≠ some 0
  survives : ∀ T, (σ'.tables.get? T).isSome → (σ.tables.get? T).isSome
  backed : Backed σ' σ.anchors (thread'.leases ++ R)

namespace Served

open State

variable {t : ThreadId} {R R' : List Lease} {σ σ' σ'' : State α} {thread thread' : Thread}
  {T : TableId} {k : Token} {h : Handle} {kept : List Handle}

theorem refl (ht : σ.threads.get? t = some thread) (hk : thread.token ≠ some 0)
    (hb : Backed σ σ.anchors (thread.leases ++ R)) : Served t R σ σ thread thread where
  runs := ht
  threads := by
    rw [Registry.modify_eq_self fun a ha => ?_]
    exact Option.some.inj (ht.symm.trans ha)
  rest := rfl
  signs := .inl ⟨rfl, rfl⟩
  signed := hk
  survives _ := id
  backed := hb

theorem get? (hs : Served t R σ σ' thread thread') : σ'.threads.get? t = some thread' := by
  rw [hs.threads, Registry.get?_modify, if_pos rfl, hs.runs, Option.map_some]

theorem lifos (hs : Served t R σ σ' thread thread') : σ'.lifos = σ.lifos := by rw [hs.rest]

theorem handles (hs : Served t R σ σ' thread thread') : σ'.handles = σ.handles := by rw [hs.rest]

theorem anchors (hs : Served t R σ σ' thread thread') : σ'.anchors = σ.anchors := by
  rw [hs.rest]
  rfl

theorem tablesOnly (hs : Served t R σ σ' thread thread') (ho : TablesOnly σ' σ'')
    (hb : Backed σ'' σ.anchors (thread'.leases ++ R')) : Served t R' σ σ'' thread thread' where
  runs := hs.runs
  threads := by
    rw [ho.frame]
    exact hs.threads
  rest := by rw [ho.frame, hs.rest]
  signs := by
    rw [ho.frame]
    exact hs.signs
  signed := hs.signed
  survives T hT := hs.survives T (ho.survives T hT)
  backed := hb

theorem setCache (hs : Served t R σ σ' thread thread') (ho : TablesOnly σ' σ'') (cache : Cache)
    (hb : Backed σ'' σ.anchors ({ thread' with cache := cache }.leases ++ R')) :
    Served t R' σ (σ''.setCache t cache) thread { thread' with cache := cache } where
  runs := hs.runs
  threads := by
    rw [ho.frame]
    simp only [State.setCache, hs.threads, Registry.modify_modify]
  rest := by rw [State.setCache, ho.frame, hs.rest]
  signs := by
    rw [ho.frame]
    exact hs.signs
  signed := hs.signed
  survives T hT := hs.survives T (ho.survives T hT)
  backed := hb.congr rfl fun _ => rfl

theorem withToken (hs : Served t R σ σ' thread thread') {last : Token}
    (hd : σ'.Draws thread' k last) :
    Served t R σ (σ'.withToken t k last) thread { thread' with token := some k } where
  runs := hs.runs
  threads := by simp only [State.withToken, hs.threads, Registry.modify_modify]
  rest := by
    rw [State.withToken, hs.rest]
  signs := by
    rcases hd with ⟨hk, rfl⟩ | ⟨hn, rfl, rfl⟩
    · rw [Signs, ← hk]
      exact hs.signs
    · rcases hs.signs with ⟨hsame, hlast⟩ | ⟨-, hsome, -⟩
      · exact .inr ⟨hsame.symm.trans hn, by rw [hlast], by rw [← hlast]; rfl⟩
      · cases hn.symm.trans hsome
  signed := by
    rcases hd with ⟨hk, -⟩ | ⟨-, rfl, -⟩
    · rw [← hk]
      exact hs.signed
    · simp
  survives := hs.survives
  backed := by
    rw [hs.backed.leases_eq hd]
    exact hs.backed.congr rfl fun _ => rfl

theorem hook (hs : Served t R σ σ' thread thread') (first : Bool) :
    Served t R σ { σ' with threads := σ'.threads.modify t fun _ =>
      { thread' with actionsFirst := first } } thread { thread' with actionsFirst := first } where
  runs := hs.runs
  threads := by simp only [hs.threads, Registry.modify_modify]
  rest := by rw [hs.rest]
  signs := hs.signs
  signed := hs.signed
  survives := hs.survives
  backed := hs.backed.congr rfl fun _ => rfl

theorem silence (hs : Served t R σ σ' thread thread') (hl : ownLease k h ∈ thread'.leases ++ R) :
    Served t R σ (σ'.silence h) thread thread' :=
  hs.tablesOnly (tablesOnly_setSlots ..) (hs.backed.silence hl rfl)

theorem giveBack (hs : Served t (ownLease k h :: R) σ σ' thread thread') :
    Served t R σ (State.giveBack h σ').state thread thread' :=
  hs.tablesOnly (tablesOnly_giveBack ..) (hs.backed.perm List.perm_middle).giveBack

theorem claim (hs : Served t R σ σ' thread thread') (hT : (σ'.tables.get? T).isSome) :
    ∃ k, OnlyNotices (State.claim t T σ').events ∧
      ((∃ c, (State.claim t T σ').value = .error (.pop (.exhausted c)) ∧
        Served t R σ (State.claim t T σ').state thread { thread' with token := some k }) ∨
      (∃ h, (State.claim t T σ').value = .ok h ∧ h.table = T ∧
        Served t (ownLease k h :: R) σ (State.claim t T σ').state thread
          { thread' with token := some k })) := by
  obtain ⟨shared, hshared⟩ := Option.isSome_iff_exists.1 hT
  obtain ⟨k, last, hd, ⟨-, hclaim⟩ | ⟨i, slots, hslots, hclaim⟩⟩ := claim_eq hs.get? hshared
  · rw [hclaim]
    exact ⟨k, onlyNotices_notice _, .inl ⟨_, rfl, hs.withToken hd⟩⟩
  · rw [hclaim]
    have hs' := hs.withToken hd
    have hk : k ≠ 0 := fun h0 => hs'.signed (by rw [h0])
    refine ⟨k, onlyNotices_notice _, .inr ⟨_, rfl, rfl, hs'.tablesOnly ⟨rfl, fun T' hT' => ?_⟩ ?_⟩⟩
    · rwa [isSome_get?_retain, isSome_get?_setSlots] at hT'
    · exact (hs'.backed.claim hshared hslots hk).perm List.perm_middle.symm

theorem keep (hs : Served t (ownLease k h :: R) σ σ' thread thread') (hk : thread'.token = some k)
    (hc : thread'.cache = .live kept) :
    Served t R σ (σ'.setCache t (.live (kept ++ [h]))) thread
      { thread' with cache := .live (kept ++ [h]) } := by
  refine hs.setCache (.refl _) _ (hs.backed.perm ?_)
  rw [Thread.leases_of_token hk, Thread.leases_of_token (k := k) (by exact hk), hc]
  simp only [Cache.handles, List.map_append, List.map_cons, List.map_nil, List.append_assoc,
    List.singleton_append]
  exact .refl _

theorem prune (hs : Served t R σ σ' thread thread') :
    Served t R σ
      ((State.prune thread'.cache.handles σ').state.setCache t
        (.live (State.prune thread'.cache.handles σ').value))
      thread { thread' with cache := .live (State.prune thread'.cache.handles σ').value } :=
  hs.setCache (tablesOnly_prune ..) _ hs.backed.prune

/-- The thread finds its handle for a table, or claims one; or its claim fails. -/
theorem cachedHandle (hs : Served t R σ σ' thread thread') (hT : 0 < σ.anchors T) :
    ∃ thread'', OnlyNotices (State.cachedHandle t T σ').events ∧
      Served t R σ (State.cachedHandle t T σ').state thread thread'' ∧
      ((∃ c, (State.cachedHandle t T σ').value = .error (.pop (.exhausted c))) ∨
      (∃ h k, (State.cachedHandle t T σ').value = .ok h ∧ h.table = T ∧
        ownLease k h ∈ thread''.leases)) := by
  rw [cachedHandle_eq, cache_eq hs.get?]
  have hp := hs.prune
  have hquiet := onlyNotices_prune thread'.cache.handles σ'
  generalize State.prune thread'.cache.handles σ' = p at hp hquiet
  obtain ⟨ρ, events, kept⟩ := p
  simp only at hp hquiet ⊢
  cases hf : kept.find? (·.table == T) with
  | some h =>
    refine ⟨_, hquiet, hp, .inr ⟨h, thread'.token.getD 0, rfl, by simpa using List.find?_some hf, ?_⟩⟩
    exact List.mem_map_of_mem (List.mem_of_find?_eq_some hf)
  | none =>
    have halive : ((ρ.setCache t (.live kept)).tables.get? T).isSome :=
      (hp.backed.isSome_get?_iff (T := T)).2 (Nat.lt_of_lt_of_le hT (Nat.le_add_right ..))
    obtain ⟨k, hq, ⟨c, hv, hc⟩ | ⟨h, hv, hhT, hc⟩⟩ := hp.claim halive
    · simp only [hv]
      exact ⟨_, hquiet.append hq, hc, .inl ⟨c, rfl⟩⟩
    · simp only [hv]
      refine ⟨_, hquiet.append hq, hc.keep rfl rfl, .inr ⟨h, k, rfl, hhT, ?_⟩⟩
      rw [Thread.leases_of_token (k := k) rfl]
      exact List.mem_map_of_mem (List.mem_append_right _ List.mem_cons_self)

theorem closeCache (hs : Served t R σ σ' thread thread') :
    ∃ thread'', thread''.leases = [] ∧ (State.closeCache t σ').state.lastToken = σ'.lastToken ∧
      OnlyNotices (State.closeCache t σ').events ∧
      Served t R σ (State.closeCache t σ').state thread thread'' := by
  cases hc : thread'.cache with
  | live handles =>
    rw [closeCache_of_live ((cache_eq hs.get?).trans hc)]
    have hleases : thread'.leases = handles.map (ownLease (thread'.token.getD 0)) := by
      rw [Thread.leases, hc]
      rfl
    have hgone : Served t (thread'.leases ++ R) σ (σ'.setCache t .gone) thread
        { thread' with cache := .gone } := hs.setCache (.refl _) .gone hs.backed
    have hb := hgone.backed
    rw [hleases] at hb
    have ho := tablesOnly_giveBackAll handles (σ'.setCache t .gone)
    refine ⟨_, rfl, ?_, onlyNotices_giveBackAll _ _, hgone.tablesOnly ho (Backed.giveBackAll hb)⟩
    rw [ho.frame]
    rfl
  | untouched | gone =>
    rw [closeCache_of_not_live (by simp [cache_eq hs.get?, hc])]
    exact ⟨thread', by rw [Thread.leases, hc]; rfl, rfl, onlyNotices_nil, hs⟩

/-! ## A pop by the thread -/

theorem get?_lifos (hs : Served t R σ σ' thread thread') (s : StackId) :
    σ'.lifos.get? s = σ.lifos.get? s := by rw [hs.lifos]

theorem published (hs : Served t R σ σ' thread thread') (hb : Backed σ σ.anchors (thread.leases ++ R)) :
    σ'.published = σ.published :=
  hb.published_eq hs.backed (fun _ => Thread.address_of_mem_leases)
    fun _ => Thread.address_of_mem_leases

theorem published_claimed (hs : Served t (ownLease k h :: R) σ σ' thread thread')
    (hb : Backed σ σ.anchors (thread.leases ++ R)) : σ'.published = σ.published := by
  have hb' : Backed σ' σ.anchors ((thread'.leases ++ [ownLease k h]) ++ R) := by
    rw [List.append_assoc]
    exact hs.backed
  refine hb.published_eq hb' (fun _ => Thread.address_of_mem_leases) fun l hl => ?_
  rcases List.mem_append.1 hl with hl | hl
  · exact Thread.address_of_mem_leases hl
  · rw [List.mem_singleton.1 hl]
    rfl

end Served

namespace State

variable {σ : State α} {s : StackId} {stack : Stack α}

theorem giveBack_setStack (h : Handle) (σ : State α) (s : StackId) (stack : Stack α) :
    (giveBack h (σ.setStack s stack)).state = (giveBack h σ).state.setStack s stack := by
  simp only [giveBack_eq, letGo]
  split
  · rename_i hle
    have hle' : (σ.setSlots h.table (·.release h.slot)).refs h.table ≤ 1 := hle
    rw [if_pos hle']
    rfl
  · rename_i hle
    have hle' : ¬ (σ.setSlots h.table (·.release h.slot)).refs h.table ≤ 1 := hle
    rw [if_neg hle']
    rfl

theorem anchors_pos_of_get? (hs : σ.lifos.get? s = some stack) : 0 < σ.anchors stack.table := by
  have hmem : stack ∈ σ.lifos.values := Registry.mem_values_iff.2 ⟨s, hs⟩
  have hcount : 0 < σ.lifos.values.countP (·.table == stack.table) :=
    List.countP_pos_iff.2 ⟨stack, hmem, by simp⟩
  simp only [anchors]
  omega

section

variable {t : ThreadId} {R : List Lease} {thread thread' : Thread} {τ : State α} {c : Nat}
  {pre : List (Event α)}

/-- A pop by a running thread serves the thread, and leaves the other stacks alone. -/
def PopServes (t : ThreadId) (s : StackId) (R : List Lease) (σ : State α) (thread : Thread)
    (stack : Stack α) : Prop :=
  ∃ thread' τ stack' pre mid post,
    Served t R σ τ thread thread' ∧
    pop t s σ = ⟨τ.setStack s stack', pre ++ mid ++ post, (pop t s σ).value⟩ ∧
    OnlyNotices pre ∧ OnlyNotices post ∧
    Popping s (σ.published stack.table) stack stack' mid (pop t s σ).value

theorem PopServes.of_exhausted (hs : σ.lifos.get? s = some stack)
    (hserved : Served t R σ τ thread thread') (hq : OnlyNotices pre)
    (hrun : pop t s σ = ⟨τ, pre, .error (.pop (.exhausted c))⟩) :
    PopServes t s R σ thread stack := by
  refine ⟨thread', τ, stack, pre, [], [], hserved, ?_, hq, onlyNotices_nil, ?_⟩
  · rw [setStack_self ((hserved.get?_lifos s).trans hs), hrun, List.append_nil, List.append_nil]
  · rw [hrun]
    exact .exhausted c

theorem pop_of_gone (hs : σ.lifos.get? s = some stack) (hserved : Served t R σ σ thread thread)
    (hc : thread.cache = .gone) : PopServes t s R σ thread stack := by
  have ht := hserved.runs
  have halive := (hserved.backed.isSome_get?_iff (T := stack.table)).2
    (Nat.lt_of_lt_of_le (anchors_pos_of_get? hs) (Nat.le_add_right ..))
  obtain ⟨k, hq, ⟨c, hv, hc'⟩ | ⟨h, hv, -, hc'⟩⟩ := hserved.claim halive
  · exact .of_exhausted hs hc' hq (c := c) (by simp [pop, Action.bind_apply, hs, ht, hc, hv])
  · have hs' := hc'.silence (List.mem_append_right _ List.mem_cons_self)
    obtain ⟨stack', mid, value, hpop, hp⟩ :=
      popThrough_eq ((hc'.get?_lifos s).trans hs) h
        (congrFun (hs'.published_claimed hserved.backed) stack.table)
    have hrun : pop t s σ = ⟨(giveBack h (((claim t stack.table σ).state.silence h).setStack s
        stack')).state, (claim t stack.table σ).events ++ mid ++
          (giveBack h (((claim t stack.table σ).state.silence h).setStack s stack')).events,
        value⟩ := by
      simp [pop, Action.bind_apply, hs, ht, hc, hv, hpop, giveBack_eq]
    refine ⟨_, _, stack', _, mid, (giveBack h (((claim t stack.table σ).state.silence h).setStack s
      stack')).events, hs'.giveBack, ?_, hq, onlyNotices_notice _, ?_⟩
    · rw [hrun, giveBack_setStack]
    · rw [hrun]
      exact hp

/-- The thread pops through its handle for the table, which it keeps. -/
theorem pop_of_not_gone (hs : σ.lifos.get? s = some stack) (hserved : Served t R σ σ thread thread)
    (hc : thread.cache ≠ .gone) : PopServes t s R σ thread stack := by
  have ht := hserved.runs
  obtain ⟨thread', hq, hc', ⟨c, hv⟩ | ⟨h, k, hv, -, hmem⟩⟩ :=
    hserved.cachedHandle (anchors_pos_of_get? hs)
  · refine .of_exhausted hs hc' hq (c := c) ?_
    cases hcache : thread.cache <;>
      simp_all [pop, Action.bind_apply]
  · have hs' := hc'.silence (List.mem_append_left _ hmem)
    obtain ⟨stack', mid, value, hpop, hp⟩ :=
      popThrough_eq ((hc'.get?_lifos s).trans hs) h
        (congrFun (hs'.published hserved.backed) stack.table)
    have hrun : pop t s σ = ⟨((cachedHandle t stack.table σ).state.silence h).setStack s stack',
        (cachedHandle t stack.table σ).events ++ mid, value⟩ := by
      cases hcache : thread.cache <;>
        simp_all [pop, Action.bind_apply]
    refine ⟨_, _, stack', _, mid, [], hs', ?_, hq, onlyNotices_nil, ?_⟩
    · rw [hrun, List.append_nil]
    · rw [hrun]
      exact hp

theorem pop_serves (hs : σ.lifos.get? s = some stack) (hserved : Served t R σ σ thread thread) :
    PopServes t s R σ thread stack := by
  by_cases hc : thread.cache = .gone
  · exact pop_of_gone hs hserved hc
  · exact pop_of_not_gone hs hserved hc

end

end State

end HazardLifo
