import HazardLifo.Proofs.Histories.Steps

/-!
# Who owns which slot

In every state that a run of operations leads to, the owned slots of a table are those of its live
handles, each signed with the token of the thread that claimed it.
-/

namespace HazardLifo

variable {α : Type}

open State

/-! ## Sound states are the ones that runs lead to -/

theorem State.backed_empty {σ : State α} (hσ : σ.tables = ∅) : Backed σ (fun _ => 0) [] := by
  have hget : ∀ T, σ.tables.get? T = none := fun T => by
    rw [hσ]
    exact Registry.get?_empty T
  refine ⟨List.nodup_nil, fun l => ?_, fun {h s} hs _ => ?_, fun T => ?_, fun {T} hT => ?_, nofun⟩
  · rw [slot?_eq_none_of_get?_eq_none (hget _)]
    simp
  · rw [slot?_eq_none_of_get?_eq_none (hget _)] at hs
    cases hs
  · exact refs_eq_zero_of_get?_eq_none (hget T)
  · rw [hget] at hT
    cases hT

theorem State.sound_initial (sign : HandleId → Token) (shown : HandleId → Address) :
    Sound (.initial : State α) sign shown where
  tables T hT := by
    have hlt : T < max 0 (defaultTable + 1) :=
      Numbered.isSome_get?_insert_lt (fun _ hk => by cases hk) hT
    exact Nat.lt_of_lt_of_le hlt (Nat.max_le.2 ⟨Nat.zero_le _, Nat.le_refl _⟩)
  lifos s hs := by cases hs
  handles n hn := by cases hn
  threads t ht := by cases ht
  backed := by
    have hempty : Backed { (.initial : State α) with tables := ∅ } (fun _ => 0) [] := backed_empty rfl
    refine hempty.insert (Registry.get?_empty _) Nat.one_pos rfl fun T => ?_
    simp only [anchors]
    rfl
  signed t th ht := by cases ht

namespace Op

variable [Disposable α]

/-- The state after a run is sound, and the handles of callers were granted on the way. -/
theorem sound_after (ops : List (Op α)) :
    ∃ sign shown, Sound (after ops) sign shown ∧
      ∀ n handle, (after ops).handles.get? n = some handle →
        ∃ d ∈ history ops, d.Grants n handle (sign n) := by
  induction ops using List.reverseRecOn with
  | nil =>
    refine ⟨fun _ => 0, fun _ => .null, sound_initial _ _, fun n handle hn => ?_⟩
    cases hn
  | append_singleton ops op ih =>
    obtain ⟨sign, shown, hsound, hgranted⟩ := ih
    obtain ⟨sign', hsound', hhandles, -, -, -⟩ := hsound.step op
    refine ⟨sign', op.shows (op.deed (after ops)).answer shown, ?_, fun n handle hn => ?_⟩
    · rw [after_concat]
      exact hsound'
    · rw [after_concat] at hn
      rw [history_concat]
      rcases hhandles n handle hn with ⟨hold, hsign⟩ | hnew
      · obtain ⟨d, hd, hg⟩ := hgranted n handle hold
        exact ⟨d, List.mem_append_left _ hd, hsign ▸ hg⟩
      · exact ⟨_, List.mem_append_right _ List.mem_cons_self, hnew⟩

/-! ## Tokens -/

/-- At some time of the run, thread `t` had token `k`. -/
def HadToken (ops : List (Op α)) (t : ThreadId) (k : Token) : Prop :=
  ∃ past, past <+: ops ∧ (after past).tokenOf t = some k

theorem hadToken_concat {ops : List (Op α)} {op : Op α} {t : ThreadId} {k : Token} :
    HadToken (ops ++ [op]) t k ↔ HadToken ops t k ∨ (after (ops ++ [op])).tokenOf t = some k := by
  constructor
  · rintro ⟨past, hpast, hk⟩
    rcases List.prefix_concat_iff.1 hpast with rfl | hpast
    · exact .inr hk
    · exact .inl ⟨past, hpast, hk⟩
  · rintro (⟨past, hpast, hk⟩ | hk)
    · exact ⟨past, hpast.trans (List.prefix_append ..), hk⟩
    · exact ⟨_, List.prefix_refl _, hk⟩

/-- Threads keep their tokens for life, and no two threads of a run have the same. -/
structure TokensDistinct (ops : List (Op α)) : Prop where
  pos : ∀ {t k}, HadToken ops t k → 0 < k
  le : ∀ {t k}, HadToken ops t k → k ≤ (after ops).lastToken
  unique : ∀ {t t' k}, HadToken ops t k → HadToken ops t' k → t = t'
  steady : ∀ {t k k'}, HadToken ops t k → HadToken ops t k' → k = k'

/-- A thread that had a token is running with it, or has ended. -/
def TokensKept (ops : List (Op α)) : Prop :=
  ∀ {t k}, HadToken ops t k → t < (after ops).horizon ∧
    ∀ thread, (after ops).threads.get? t = some thread → thread.token = some k

section

variable {ops : List (Op α)} {op : Op α} {t t₀ : ThreadId} {k : Token} {thread thread' : Thread}

theorem hadToken_of_kept
    (hsame : ∀ t thread', (after (ops ++ [op])).threads.get? t = some thread' →
      (∃ thread, (after ops).threads.get? t = some thread ∧ thread'.token = thread.token) ∨
        ((after ops).horizon ≤ t ∧ thread'.token = none))
    (hk : HadToken (ops ++ [op]) t k) : HadToken ops t k := by
  rcases hadToken_concat.1 hk with hk | hk
  · exact hk
  · obtain ⟨th', ht', hk'⟩ := Option.bind_eq_some_iff.1 hk
    rcases hsame t th' ht' with ⟨th, ht, heq⟩ | ⟨-, hn⟩
    · refine ⟨ops, List.prefix_refl _, ?_⟩
      rw [tokenOf, ht, Option.bind_some, ← heq, hk']
    · cases hk'.symm.trans hn

theorem hadToken_of_drawn (hkept : TokensKept ops) (ht₀ : (after ops).threads.get? t₀ = some thread)
    (hnone : thread.token = none) (hsome : thread'.token = some ((after ops).lastToken + 1))
    (hthreads : (after (ops ++ [op])).threads = (after ops).threads.modify t₀ fun _ => thread')
    (hk : HadToken (ops ++ [op]) t k) :
    (t ≠ t₀ ∧ HadToken ops t k) ∨ (t = t₀ ∧ k = (after ops).lastToken + 1) := by
  by_cases heq : t = t₀
  · subst heq
    rcases hadToken_concat.1 hk with hk | hk
    · cases hnone.symm.trans ((hkept hk).2 thread ht₀)
    · rw [tokenOf, hthreads, Registry.get?_modify, if_pos rfl, ht₀, Option.map_some, Option.bind_some,
        hsome] at hk
      exact .inr ⟨rfl, (Option.some.inj hk).symm⟩
  · rcases hadToken_concat.1 hk with hk | hk
    · exact .inl ⟨heq, hk⟩
    · rw [tokenOf, hthreads, Registry.get?_modify, if_neg heq] at hk
      exact .inl ⟨heq, ops, List.prefix_refl _, hk⟩

theorem TokensDistinct.of_kept (h : TokensDistinct ops)
    (hlast : (after (ops ++ [op])).lastToken = (after ops).lastToken)
    (hold : ∀ {t k}, HadToken (ops ++ [op]) t k → HadToken ops t k) : TokensDistinct (ops ++ [op]) where
  pos hk := h.pos (hold hk)
  le hk := hlast ▸ h.le (hold hk)
  unique hk hk' := h.unique (hold hk) (hold hk')
  steady hk hk' := h.steady (hold hk) (hold hk')

/-- The token drawn is above all that were drawn before. -/
theorem TokensDistinct.of_drawn (h : TokensDistinct ops)
    (hlast : (after (ops ++ [op])).lastToken = (after ops).lastToken + 1)
    (hold : ∀ {t k}, HadToken (ops ++ [op]) t k →
      (t ≠ t₀ ∧ HadToken ops t k) ∨ (t = t₀ ∧ k = (after ops).lastToken + 1)) :
    TokensDistinct (ops ++ [op]) where
  pos hk := by
    rcases hold hk with ⟨-, hk⟩ | ⟨-, rfl⟩
    · exact h.pos hk
    · exact Nat.succ_pos _
  le hk := by
    rw [hlast]
    rcases hold hk with ⟨-, hk⟩ | ⟨-, rfl⟩
    · exact Nat.le_succ_of_le (h.le hk)
    · exact Nat.le_refl _
  unique hk hk' := by
    rcases hold hk with ⟨-, hk⟩ | ⟨rfl, rfl⟩ <;> rcases hold hk' with ⟨-, hk'⟩ | ⟨rfl, hk'⟩
    · exact h.unique hk hk'
    · exact absurd (hk' ▸ h.le hk) (Nat.not_succ_le_self _)
    · exact absurd (h.le hk') (Nat.not_succ_le_self _)
    · rfl
  steady hk hk' := by
    rcases hold hk with ⟨hne, hk⟩ | ⟨rfl, rfl⟩ <;> rcases hold hk' with ⟨hne', hk'⟩ | ⟨heq, rfl⟩
    · exact h.steady hk hk'
    · exact absurd heq hne
    · exact absurd rfl hne'
    · rfl

theorem tokensKept_of_kept (hkept : TokensKept ops)
    (hhorizon : (after ops).horizon ≤ (after (ops ++ [op])).horizon)
    (hsame : ∀ t thread', (after (ops ++ [op])).threads.get? t = some thread' →
      (∃ thread, (after ops).threads.get? t = some thread ∧ thread'.token = thread.token) ∨
        ((after ops).horizon ≤ t ∧ thread'.token = none)) : TokensKept (ops ++ [op]) := by
  intro t k hk
  obtain ⟨hbelow, hth⟩ := hkept (hadToken_of_kept hsame hk)
  refine ⟨Nat.lt_of_lt_of_le hbelow hhorizon, fun th' ht' => ?_⟩
  rcases hsame t th' ht' with ⟨th, ht, heq⟩ | ⟨hle, -⟩
  · rw [heq]
    exact hth th ht
  · exact absurd hbelow (Nat.not_lt.2 hle)

theorem tokensKept_of_drawn (hkept : TokensKept ops)
    (hhorizon : (after ops).horizon ≤ (after (ops ++ [op])).horizon)
    (hbelow₀ : t₀ < (after (ops ++ [op])).horizon) (ht₀ : (after ops).threads.get? t₀ = some thread)
    (hnone : thread.token = none) (hsome : thread'.token = some ((after ops).lastToken + 1))
    (hthreads : (after (ops ++ [op])).threads = (after ops).threads.modify t₀ fun _ => thread') :
    TokensKept (ops ++ [op]) := by
  intro t k hk
  rcases hadToken_of_drawn hkept ht₀ hnone hsome hthreads hk with ⟨hne, hk⟩ | ⟨rfl, rfl⟩
  · obtain ⟨hbelow, hth⟩ := hkept hk
    refine ⟨Nat.lt_of_lt_of_le hbelow hhorizon, fun th ht => hth th ?_⟩
    rwa [hthreads, Registry.get?_modify, if_neg hne] at ht
  · refine ⟨hbelow₀, fun th ht => ?_⟩
    rw [hthreads, Registry.get?_modify, if_pos rfl, ht₀, Option.map_some] at ht
    obtain rfl := Option.some.inj ht
    exact hsome

end

theorem tokens_concat {ops : List (Op α)} (op : Op α) (h : TokensDistinct ops) (hkept : TokensKept ops) :
    TokensDistinct (ops ++ [op]) ∧ TokensKept (ops ++ [op]) := by
  obtain ⟨sign, shown, hsound, -⟩ := sound_after ops
  obtain ⟨sign', hsound', -, -, hmove, hhorizon⟩ := hsound.step op
  rw [after_deed, before_deed] at hmove hhorizon
  have hlt := hsound'.threads
  rw [after_deed] at hlt
  rw [← after_concat] at hmove hhorizon hlt
  rcases hmove with ⟨hlast, hsame⟩ | ⟨t₀, thread, thread', ht₀, hnone, hsome, hlast, hthreads⟩
  · exact ⟨h.of_kept hlast fun hk => hadToken_of_kept hsame hk,
      tokensKept_of_kept hkept hhorizon hsame⟩
  · have hbelow : t₀ < (after (ops ++ [op])).horizon := by
      refine hlt t₀ ?_
      rw [hthreads, Registry.get?_modify, if_pos rfl, ht₀]
      rfl
    exact ⟨h.of_drawn hlast fun hk => hadToken_of_drawn hkept ht₀ hnone hsome hthreads hk,
      tokensKept_of_drawn hkept hhorizon hbelow ht₀ hnone hsome hthreads⟩

theorem tokens_after (ops : List (Op α)) : TokensDistinct ops ∧ TokensKept ops := by
  induction ops using List.reverseRecOn with
  | nil =>
    have hnone : ∀ {t k}, ¬HadToken ([] : List (Op α)) t k := by
      rintro t k ⟨past, hpast, hk⟩
      obtain rfl := List.prefix_nil.1 hpast
      cases hk
    exact ⟨⟨fun hk => absurd hk hnone, fun hk => absurd hk hnone, fun hk => absurd hk hnone,
      fun hk => absurd hk hnone⟩, fun hk => absurd hk hnone⟩
  | append_singleton ops op ih => exact tokens_concat op ih.1 ih.2

end Op

namespace Op

variable [Disposable α]

/-- Tokens that fit into machine words are different words, and none is zero. -/
theorem tokens_as_words {ops : List (Op α)} (hfew : (after ops).lastToken < UInt64.size)
    {t t' : ThreadId} {k k' : Token} (hk : HadToken ops t k) (hk' : HadToken ops t' k') :
    UInt64.ofNat k ≠ 0 ∧ (UInt64.ofNat k = UInt64.ofNat k' → t = t') := by
  have htokens := (tokens_after ops).1
  have hword : ∀ {t k}, HadToken ops t k → (UInt64.ofNat k).toNat = k := fun hk =>
    UInt64.toNat_ofNat_of_lt (Nat.lt_of_le_of_lt (htokens.le hk) hfew)
  refine ⟨fun h0 => ?_, fun heq => ?_⟩
  · have hzero := hword hk
    rw [h0] at hzero
    exact absurd (htokens.pos hk) (hzero ▸ Nat.lt_irrefl 0)
  · have hsame : k = k' := by rw [← hword hk, heq, hword hk']
    exact htokens.unique hk (hsame ▸ hk')

end Op

/-! ## Slots and live handles -/

namespace State

/-- The handles that callers hold, and those in the caches of running threads. -/
def liveHandles (σ : State α) : List Handle :=
  σ.handles.values ++ σ.threads.values.flatMap (·.cache.handles)

def handlesOn (σ : State α) (T : TableId) : List Handle := σ.liveHandles.filter (·.table == T)

variable {σ : State α} {sign : HandleId → Token} {shown : HandleId → Address} {T : TableId}
  {shared : SharedTable}

namespace Sound

def leases (σ : State α) (sign : HandleId → Token) (shown : HandleId → Address) : List Lease :=
  σ.handles.leases sign shown ++ σ.threads.cachedLeases

theorem map_handle_leases (σ : State α) (sign : HandleId → Token) (shown : HandleId → Address) :
    (leases σ sign shown).map (·.handle) = σ.liveHandles := by
  have hcached : ∀ thread : Thread, thread.leases.map (·.handle) = thread.cache.handles := by
    intro thread
    rw [Thread.leases, List.map_map]
    exact List.map_id _
  rw [leases, List.map_append, Registry.cachedLeases, List.map_flatMap, liveHandles, Registry.leases,
    List.map_map]
  simp only [hcached]
  rfl

theorem mem_liveHandles_iff {h : Handle} :
    h ∈ σ.liveHandles ↔ ∃ l ∈ leases σ sign shown, l.handle = h := by
  rw [← map_handle_leases σ sign shown, List.mem_map]

theorem countP_leases (σ : State α) (sign : HandleId → Token) (shown : HandleId → Address)
    (T : TableId) : (leases σ sign shown).countP (·.isOn T) = (σ.handlesOn T).length := by
  rw [handlesOn, ← List.countP_eq_length_filter, ← map_handle_leases σ sign shown, List.countP_map]
  rfl

theorem mem_handlesOn_iff {h : Handle} : h ∈ σ.handlesOn T ↔ h ∈ σ.liveHandles ∧ h.table = T := by
  simp [handlesOn, List.mem_filter]

theorem slot_of_mem (h : Sound σ sign shown) (hT : σ.tables.get? T = some shared) {l : Lease}
    (hl : l ∈ leases σ sign shown) (hlT : l.handle.table = T) :
    shared.slots.slots[l.handle.slot]? = some ⟨some l.token, l.address⟩ := by
  have hslot := h.backed.slot?_of_mem hl
  rw [slot?, hlT, hT, Option.bind_some] at hslot
  exact hslot

theorem nodup_liveHandles (h : Sound σ sign shown) : σ.liveHandles.Nodup := by
  rw [← map_handle_leases σ sign shown]
  exact h.backed.nodup

theorem nodup_slots (h : Sound σ sign shown) (T : TableId) :
    ((σ.handlesOn T).map (·.slot)).Nodup := by
  refine List.Nodup.map_on (fun h hh h' hh' heq => ?_) (h.nodup_liveHandles.filter _)
  exact Handle.ext ((mem_handlesOn_iff.1 hh).2.trans (mem_handlesOn_iff.1 hh').2.symm) heq

end Sound

end State

namespace Op

variable [Disposable α]

/-- The slots of a live table after a run. -/
structure Ownership (ops : List (Op α)) (T : TableId) (slots : SlotTable) : Prop where
  distinct : (((after ops).handlesOn T).map (·.slot)).Nodup
  inRange : ∀ h ∈ (after ops).handlesOn T, h.slot < slots.capacity
  owned : ∀ i, (slots.owner i).isSome ↔ ∃ h ∈ (after ops).handlesOn T, h.slot = i
  /-- The owner of a caller's slot is the token of the thread that acquired the handle. -/
  signed : ∀ n h, (after ops).handles.get? n = some h → h.table = T →
    ∃ t k, HadToken ops t k ∧ slots.owner h.slot = some k ∧
      ∃ d ∈ history ops, d.op = .acquire t T n ∧ d.answer = .acquired h.slot
  cached : ∀ t thread h, (after ops).threads.get? t = some thread → h ∈ thread.cache.handles →
    h.table = T → ∃ k, thread.token = some k ∧ slots.slots[h.slot]? = some ⟨some k, .null⟩
  idle : ∀ s ∈ slots.slots, s.owner = none → s.published = .null
  active : slots.active = ((after ops).handlesOn T).length
  bounded : slots.active ≤ slots.capacity

theorem ownership_after (ops : List (Op α)) {T : TableId} {shared : SharedTable}
    (hT : (after ops).tables.get? T = some shared) : Ownership ops T shared.slots := by
  obtain ⟨sign, shown, hsound, hgranted⟩ := sound_after ops
  have hslot : ∀ i, (after ops).slot? ⟨T, i⟩ = shared.slots.slots[i]? := fun i => by
    rw [slot?, hT, Option.bind_some]
  have hactive : shared.slots.active = ((after ops).handlesOn T).length := by
    rw [← Sound.countP_leases (after ops) sign shown]
    exact hsound.backed.active_eq hT
  refine ⟨hsound.nodup_slots T, fun h hh => ?_, fun i => ⟨fun ho => ?_, ?_⟩, fun n h hn hhT => ?_,
    fun t thread h ht hh hhT => ?_, fun s hs ho => ?_, hactive, List.countP_le_length⟩
  · obtain ⟨hlive, hhT⟩ := Sound.mem_handlesOn_iff.1 hh
    obtain ⟨l, hl, rfl⟩ := Sound.mem_liveHandles_iff.1 hlive
    exact (List.getElem?_eq_some_iff.1 (hsound.slot_of_mem hT hl hhT)).1
  · obtain ⟨k, hk⟩ := Option.isSome_iff_exists.1 ho
    obtain ⟨s, hs, hsk⟩ := Option.bind_eq_some_iff.1 hk
    have hl := hsound.backed.mem_of_owner ((hslot i).trans hs) hsk
    exact ⟨⟨T, i⟩, Sound.mem_handlesOn_iff.2 ⟨Sound.mem_liveHandles_iff.2 ⟨_, hl, rfl⟩, rfl⟩, rfl⟩
  · rintro ⟨h, hh, rfl⟩
    obtain ⟨hlive, hhT⟩ := Sound.mem_handlesOn_iff.1 hh
    obtain ⟨l, hl, rfl⟩ := Sound.mem_liveHandles_iff.1 hlive
    rw [SlotTable.owner, hsound.slot_of_mem hT hl hhT]
    rfl
  · obtain ⟨d, hd, t, hop, hanswer, htoken⟩ := hgranted n h hn
    obtain ⟨past, op, hpast, rfl⟩ := exists_deed_of_mem_history hd
    rw [after_deed, ← after_concat] at htoken
    refine ⟨t, sign n, ⟨past ++ [op], hpast, htoken⟩, ?_, _, hd, hhT ▸ hop, hanswer⟩
    have hheld := hsound.slot_of_handle hn
    rw [slot?, hhT, hT, Option.bind_some] at hheld
    rw [SlotTable.owner, hheld]
    rfl
  · obtain ⟨k, hk, hcached⟩ := hsound.slot_of_cached ht hh
    rw [slot?, hhT, hT, Option.bind_some] at hcached
    exact ⟨k, hk, hcached⟩
  · obtain ⟨i, hi⟩ := List.mem_iff_getElem?.1 hs
    exact hsound.backed.idle ((hslot i).trans hi) ho

/-- Slots and handles of a live table match, and no two threads sign with the same token. As machine
words tokens are different and not zero, if there are fewer of them than words. -/
theorem slots_owned_exactly (ops : List (Op α)) {T : TableId} {shared : SharedTable}
    (hT : (after ops).tables.get? T = some shared) :
    Ownership ops T shared.slots ∧ TokensDistinct ops ∧
      ((after ops).lastToken < UInt64.size → ∀ {t t' k k'}, HadToken ops t k → HadToken ops t' k' →
        UInt64.ofNat k ≠ 0 ∧ (UInt64.ofNat k = UInt64.ofNat k' → t = t')) :=
  ⟨ownership_after ops hT, (tokens_after ops).1, fun hfew _ _ _ _ hk hk' => tokens_as_words hfew hk hk'⟩

/-- One thread holds a handle that it acquired, another one the handle that its pop claimed. -/
def twoOwners : List (Op (Option String)) :=
  [.newTable 1 2, .newStack 2 1, .startThread 3, .startThread 4, .acquire 3 1 5, .push 2 6 none,
    .pop 4 2]

theorem two_slots_owned :
    Ownership twoOwners 1 ⟨[⟨some 1, .null⟩, ⟨some 2, .null⟩]⟩ ∧ TokensDistinct twoOwners :=
  have hT : (after twoOwners).tables.get? 1 =
    some ⟨⟨[⟨some 1, .null⟩, ⟨some 2, .null⟩]⟩, 5⟩ := rfl
  ⟨(slots_owned_exactly twoOwners hT).1, (slots_owned_exactly twoOwners hT).2.1⟩

end Op

end HazardLifo
