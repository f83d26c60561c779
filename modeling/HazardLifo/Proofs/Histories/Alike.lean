import HazardLifo.Proofs.Histories.Reclamation

/-!
# Alike states

Two states are alike if they differ only in what one stack `B` holds, in the slots that handles
stand for, and in what threads keep for themselves. A cached handle publishes nothing between
operations, so which blocks are published depends on the handles of callers only
(`Sound.published_iff`), and is the same in alike states if these handles publish the same.

An operation in both states leads to alike states, and does the same to all other stacks (`Kept`,
`Alike.kept`), as long as it is a call that can be made, and no claim of a slot fails. An operation
on `B` in one of the states only keeps them alike (`Alike.of_omitted`).
-/

namespace HazardLifo

variable {α : Type}

open State Op

/-! ## Calls -/

namespace Op

def stack? : Op α → Option StackId
  | .newStack s _ | .newStackOwning s _ _ | .dropStack s => some s
  | .push s _ _ | .pop _ s | .popWith s _ | .reclaim s => some s
  | _ => none

/-- The table that a caller must have at hand for the operation. -/
def table? : Op α → Option TableId
  | .shareTable T | .newStack _ T | .acquire _ T _ => some T
  | _ => none

def block? : Op α → Option Block
  | .push _ b _ => some b
  | _ => none

/-- A push on the stack, a pop of a thread from it, or a reclaim of it. -/
def Omissible (B : StackId) : Op α → Prop
  | .push s _ _ | .pop _ s | .reclaim s => s = B
  | _ => False

instance (B : StackId) (op : Op α) : Decidable (op.Omissible B) := by
  unfold Omissible
  split <;> infer_instance

end Op

namespace Answer

def isAbsent : Answer α → Bool
  | .failed .absent => true
  | _ => false

def isExhausted : Answer α → Bool
  | .failed (.pop (.exhausted _)) => true
  | _ => false

end Answer

/-- Callers have the table at hand: it is the default table, or that of a variable, a stack or a
handle. -/
def State.Reaches (σ : State α) (T : TableId) : Prop :=
  T = defaultTable ∨ T ∈ σ.callerTables ∨ (∃ stack ∈ σ.lifos.values, stack.table = T) ∨
    ∃ handle ∈ σ.handles.values, handle.table = T

instance (σ : State α) (T : TableId) : Decidable (σ.Reaches T) :=
  inferInstanceAs (Decidable (_ ∨ _ ∨ _ ∨ _))

/-- Only such calls can be made: on what exists, and with a table at hand where one is given. -/
def Deed.Proper (d : Deed α) : Prop :=
  d.answer.isAbsent = false ∧ ∀ T ∈ d.op.table?, d.before.Reaches T

instance (d : Deed α) : Decidable d.Proper := inferInstanceAs (Decidable (_ ∧ _))

/-! ## Alike states -/

/-- The states differ in what stack `B` holds, in slots, in tokens and in caches, and one may have
used fewer numbers. -/
structure Alike (B : StackId) (σ τ : State α) : Prop where
  lifos : ∀ s ≠ B, τ.lifos.get? s = σ.lifos.get? s
  table : (τ.lifos.get? B).map (·.table) = (σ.lifos.get? B).map (·.table)
  handles : ∀ n, (τ.handles.get? n).map (·.table) = (σ.handles.get? n).map (·.table)
  threads : ∀ t, (τ.threads.get? t).isSome = (σ.threads.get? t).isSome
  callerTables : τ.callerTables = σ.callerTables
  horizon : τ.horizon ≤ σ.horizon

theorem State.Sound.published_iff {σ : State α} {sign : HandleId → Token}
    {shown : HandleId → Address} (h : Sound σ sign shown) {T : TableId} {b : Block} :
    σ.published T b = true ↔
      ∃ n, (σ.handles.get? n).map (·.table) = some T ∧ shown n = .block b := by
  refine h.backed.publishes_iff.trans ⟨?_, ?_⟩
  · rintro ⟨-, l, hl, rfl, hb⟩
    rcases List.mem_append.1 hl with hl | hl
    · obtain ⟨⟨n, handle⟩, he, rfl⟩ := List.mem_map.1 hl
      refine ⟨n, ?_, hb⟩
      rw [Registry.get?_eq_some_iff.2 he, Option.map_some]
    · obtain ⟨thread, -, hl⟩ := List.mem_flatMap.1 hl
      rw [Thread.address_of_mem_leases hl] at hb
      cases hb
  · rintro ⟨n, hn, hb⟩
    obtain ⟨handle, hn, hT⟩ := Option.map_eq_some_iff.1 hn
    refine ⟨Address.block_ne_null b, ⟨handle, sign n, shown n⟩, ?_, hT, hb⟩
    exact List.mem_append_left _ (List.mem_map.2 ⟨(n, handle), Registry.get?_eq_some_iff.1 hn, rfl⟩)

theorem State.Sound.isSome_of_reaches {σ : State α} {sign : HandleId → Token}
    {shown : HandleId → Address} (h : Sound σ sign shown) {T : TableId} (hT : σ.Reaches T) :
    (σ.tables.get? T).isSome := by
  rw [h.backed.isSome_get?_iff]
  rcases hT with rfl | hT | ⟨stack, hstack, rfl⟩ | ⟨handle, hhandle, rfl⟩
  · simp only [anchors, if_true]
    omega
  · have hcount := List.count_pos_iff.2 hT
    simp only [anchors]
    omega
  · obtain ⟨s, hs⟩ := Registry.mem_values_iff.1 hstack
    exact Nat.lt_of_lt_of_le (anchors_pos_of_get? hs) (Nat.le_add_right ..)
  · obtain ⟨n, hn⟩ := Registry.mem_values_iff.1 hhandle
    refine Nat.lt_of_lt_of_le ?_ (Nat.le_add_left ..)
    refine List.countP_pos_iff.2 ⟨⟨handle, sign n, shown n⟩, List.mem_append_left _ ?_, ?_⟩
    · exact List.mem_map.2 ⟨(n, handle), Registry.get?_eq_some_iff.1 hn, rfl⟩
    · simp

namespace Alike

variable {B s : StackId} {σ σ' τ τ' : State α} {stack stack' stack₁ stack₁' : Stack α} {n : Nat}
  {t : ThreadId} {T : TableId} {R R' : List Lease} {thread thread' thread₁ thread₁' : Thread}

theorem isSome_lifos (h : Alike B σ τ) (s : StackId) :
    (τ.lifos.get? s).isSome = (σ.lifos.get? s).isSome := by
  by_cases heq : s = B
  · have htable := congrArg Option.isSome h.table
    rw [Option.isSome_map, Option.isSome_map] at htable
    rw [heq, htable]
  · rw [h.lifos s heq]

theorem exists_stack (h : Alike B σ τ) (hs : σ.lifos.get? s = some stack) :
    ∃ stack', τ.lifos.get? s = some stack' ∧ stack'.table = stack.table ∧
      (s ≠ B → stack' = stack) := by
  by_cases heq : s = B
  · subst heq
    have htable := h.table
    rw [hs, Option.map_some] at htable
    obtain ⟨stack', hs', hT⟩ := Option.map_eq_some_iff.1 htable
    exact ⟨stack', hs', hT, fun hne => absurd rfl hne⟩
  · exact ⟨stack, (h.lifos s heq).trans hs, rfl, fun _ => rfl⟩

theorem exists_handle {handle : Handle} (h : Alike B σ τ) (hn : σ.handles.get? n = some handle) :
    ∃ handle', τ.handles.get? n = some handle' ∧ handle'.table = handle.table := by
  have htable := h.handles n
  rw [hn, Option.map_some] at htable
  exact Option.map_eq_some_iff.1 htable

theorem exists_thread (h : Alike B σ τ) (ht : σ.threads.get? t = some thread) :
    ∃ thread', τ.threads.get? t = some thread' := by
  refine Option.isSome_iff_exists.1 ?_
  rw [h.threads, ht]
  rfl

theorem published {sign sign' : HandleId → Token} {shown : HandleId → Address} (h : Alike B σ τ)
    (hσ : Sound σ sign shown) (hτ : Sound τ sign' shown) : τ.published = σ.published := by
  funext T b
  rw [Bool.eq_iff_iff, hτ.published_iff, hσ.published_iff]
  simp only [h.handles]

theorem reaches (h : Alike B σ τ) (hT : σ.Reaches T) : τ.Reaches T := by
  rcases hT with hT | hT | ⟨stack, hstack, rfl⟩ | ⟨handle, hhandle, rfl⟩
  · exact .inl hT
  · exact .inr (.inl (h.callerTables ▸ hT))
  · obtain ⟨s, hs⟩ := Registry.mem_values_iff.1 hstack
    obtain ⟨stack', hs', htable, -⟩ := h.exists_stack hs
    exact .inr (.inr (.inl ⟨stack', Registry.mem_values_iff.2 ⟨s, hs'⟩, htable⟩))
  · obtain ⟨n, hn⟩ := Registry.mem_values_iff.1 hhandle
    obtain ⟨handle', hn', htable⟩ := h.exists_handle hn
    exact .inr (.inr (.inr ⟨handle', Registry.mem_values_iff.2 ⟨n, hn'⟩, htable⟩))

/-! ### Alike states after the same change -/

theorem setStack (h : Alike B σ τ) (hs : σ.lifos.get? s = some stack)
    (hs' : τ.lifos.get? s = some stack') (hT : stack₁.table = stack.table)
    (hT' : stack₁'.table = stack'.table) (hsame : s ≠ B → stack₁' = stack₁) :
    Alike B (σ.setStack s stack₁) (τ.setStack s stack₁') := by
  refine { h with lifos := fun s' hne => ?_, table := ?_ }
  · rw [State.setStack, State.setStack, Registry.get?_modify, Registry.get?_modify]
    split
    · rename_i heq
      rw [hs, hs', Option.map_some, Option.map_some, hsame (heq ▸ hne)]
    · exact h.lifos s' hne
  · rw [State.setStack, State.setStack, Registry.get?_modify, Registry.get?_modify]
    split
    · rename_i heq
      have htable := h.table
      rw [heq, hs, hs', Option.map_some, Option.map_some] at htable
      rw [hs, hs', Option.map_some, Option.map_some, Option.map_some, Option.map_some, hT, hT']
      exact htable
    · exact h.table

theorem setStack_left (h : Alike B σ τ) (hs : σ.lifos.get? B = some stack)
    (hT : stack₁.table = stack.table) : Alike B (σ.setStack B stack₁) τ := by
  obtain ⟨stack', hs', -, -⟩ := h.exists_stack hs
  have hset := h.setStack hs hs' hT rfl fun hne => absurd rfl hne
  rwa [setStack_self hs'] at hset

theorem of_served_left (h : Alike B σ τ) (hs : Served t R σ σ' thread thread') : Alike B σ' τ := by
  have hthreads : ∀ u, (σ'.threads.get? u).isSome = (σ.threads.get? u).isSome := fun u => by
    rw [hs.threads, Registry.isSome_get?_modify]
  rw [hs.rest]
  exact { h with threads := fun u => (h.threads u).trans (hthreads u).symm }

theorem of_served_right (h : Alike B σ τ) (hs : Served t R τ τ' thread thread') : Alike B σ τ' := by
  have hthreads : ∀ u, (τ'.threads.get? u).isSome = (τ.threads.get? u).isSome := fun u => by
    rw [hs.threads, Registry.isSome_get?_modify]
  rw [hs.rest]
  exact { h with threads := fun u => (hthreads u).trans (h.threads u) }

theorem of_served (h : Alike B σ τ) (hs : Served t R σ σ' thread thread')
    (hs' : Served t R' τ τ' thread₁ thread₁') : Alike B σ' τ' :=
  (h.of_served_left hs).of_served_right hs'

theorem tablesOnly (h : Alike B σ τ) (ho : TablesOnly σ σ') (ho' : TablesOnly τ τ') :
    Alike B σ' τ' := by
  rw [ho.frame, ho'.frame]
  exact { h with }

theorem use (h : Alike B σ τ) (n : Nat) : Alike B (σ.use n) (τ.use n) :=
  { h with horizon := Nat.max_le.2 ⟨Nat.le_trans h.horizon (Nat.le_max_left ..), Nat.le_max_right ..⟩ }

theorem insert_lifos (h : Alike B σ τ) (s : StackId) (stack : Stack α) :
    Alike B { σ with lifos := σ.lifos.insert s stack } { τ with lifos := τ.lifos.insert s stack } := by
  refine { h with lifos := fun s' hne => ?_, table := ?_ }
  · simp only [Registry.get?_insert]
    split
    · rfl
    · exact h.lifos s' hne
  · simp only [Registry.get?_insert]
    split
    · rfl
    · exact h.table

theorem erase_lifos (h : Alike B σ τ) (s : StackId) :
    Alike B { σ with lifos := σ.lifos.erase s } { τ with lifos := τ.lifos.erase s } := by
  refine { h with lifos := fun s' hne => ?_, table := ?_ }
  · simp only [Registry.get?_erase]
    split
    · rfl
    · exact h.lifos s' hne
  · simp only [Registry.get?_erase]
    split
    · rfl
    · exact h.table

theorem insert_handles {handle handle' : Handle} (h : Alike B σ τ) (n : HandleId)
    (hT : handle'.table = handle.table) :
    Alike B { σ with handles := σ.handles.insert n handle }
      { τ with handles := τ.handles.insert n handle' } := by
  refine { h with handles := fun m => ?_ }
  simp only [Registry.get?_insert]
  split
  · rw [Option.map_some, Option.map_some, hT]
  · exact h.handles m

theorem erase_handles (h : Alike B σ τ) (n : HandleId) :
    Alike B { σ with handles := σ.handles.erase n } { τ with handles := τ.handles.erase n } := by
  refine { h with handles := fun m => ?_ }
  simp only [Registry.get?_erase]
  split
  · rfl
  · exact h.handles m

theorem insert_threads (h : Alike B σ τ) (t : ThreadId) (thread : Thread) :
    Alike B { σ with threads := σ.threads.insert t thread }
      { τ with threads := τ.threads.insert t thread } := by
  refine { h with threads := fun u => ?_ }
  simp only [Registry.get?_insert]
  split
  · rfl
  · exact h.threads u

theorem erase_threads (h : Alike B σ τ) (t : ThreadId) :
    Alike B { σ with threads := σ.threads.erase t } { τ with threads := τ.threads.erase t } := by
  refine { h with threads := fun u => ?_ }
  simp only [Registry.get?_erase]
  split
  · rfl
  · exact h.threads u

theorem isUsed (h : Alike B σ τ) (hn : σ.isUsed n = false) : τ.isUsed n = false := by
  have hle := horizon_le_of_isUsed hn
  have hhorizon := h.horizon
  simp only [State.isUsed, decide_eq_false_iff_not]
  omega

end Alike

/-! ## Pops that do not lack a slot -/

namespace State.Popping

variable {s : StackId} {pub : Block → Bool} {stack stack₁ stack₂ : Stack α}
  {events events' : List (Event α)} {value value' : Except Failure α}

theorem present (h : Popping s pub stack stack₁ events value) :
    (Answer.ofExcept .popped value).isAbsent = false := by
  cases h <;> rfl

theorem exists_freed (h : Popping s pub stack stack₁ events value) :
    ∃ freed : List Block, freedIn events = freed.map (s, ·) := by
  cases h with
  | empty | exhausted => exact ⟨[], rfl⟩
  | popped node rest hn => exact ⟨_, freedIn_popEvents ..⟩

/-- Unless it fails for want of a slot, the stack and what is published decide how a pop goes. -/
theorem unique_of_enough (h : Popping s pub stack stack₁ events value)
    (h' : Popping s pub stack stack₂ events' value')
    (hf : (Answer.ofExcept .popped value).isExhausted = false)
    (hf' : (Answer.ofExcept .popped value').isExhausted = false) :
    stack₂ = stack₁ ∧ events' = events ∧ value' = value := by
  cases h with
  | exhausted c => cases hf
  | empty hn =>
    cases h' with
    | exhausted c => cases hf'
    | empty => exact ⟨rfl, rfl, rfl⟩
    | popped node rest hn' => cases hn.symm.trans hn'
  | popped node rest hn =>
    cases h' with
    | exhausted c => cases hf'
    | empty hn' => cases hn.symm.trans hn'
    | popped node' rest' hn' =>
      obtain ⟨rfl, rfl⟩ := List.cons.inj (hn.symm.trans hn')
      exact ⟨rfl, rfl, rfl⟩

theorem shows_popWith {n : HandleId} (h : Popping s pub stack stack₁ events value)
    (shown : HandleId → Address) : (Op.popWith s n).shows (.ofExcept .popped value) shown =
      Function.update shown n .null := by
  cases h <;> rfl

end State.Popping

theorem State.Sound.beginExit_served {σ : State α} {sign : HandleId → Token}
    {shown : HandleId → Address} (hσ : Sound σ sign shown) {t : ThreadId} {thread : Thread}
    (ht : σ.threads.get? t = some thread) :
    ∃ σ' events thread', State.beginExit t σ = ⟨σ', events, .ok ()⟩ ∧ OnlyNotices events ∧
      Served t (Sound.others σ t sign shown) σ σ' thread thread' := by
  rcases beginExit_cases σ t with ⟨hnone, -⟩ | ⟨_, -, ⟨-, hrun⟩ | hrun⟩
  · cases hnone.symm.trans ht
  · exact ⟨_, _, thread, hrun, onlyNotices_nil, hσ.served ht⟩
  · obtain ⟨thread', -, -, hq, hserved⟩ := (hσ.served ht).closeCache
    exact ⟨_, _, thread', hrun, hq, hserved⟩

theorem Op.shows_of_omissible {B : StackId} {op : Op α} (hop : op.Omissible B) (answer : Answer α)
    (shown : HandleId → Address) : op.shows answer shown = shown := by
  cases op with
  | push | pop | reclaim => rfl
  | newTable | shareTable | dropTable | newStack | newStackOwning | dropStack | popWith | acquire
  | release | publish | startThread | hookExit | beginExit | endThread => exact hop.elim

/-! ## Operations of both runs -/

/-- What two deeds of one operation have in common, in alike states. -/
structure Kept (B : StackId) (d d' : Deed α) : Prop where
  alike : Alike B d.after d'.after
  present : d'.answer.isAbsent = false
  shows : ∀ shown, d'.op.shows d'.answer shown = d.op.shows d.answer shown
  answer : ∀ s, d.op.stack? = some s → s ≠ B → d'.answer = d.answer
  freed : ∀ s ≠ B, d'.freedOf s = d.freedOf s

section

variable [Disposable α] {B s : StackId} {σ σ' τ τ' : State α} {op : Op α}
  {events events' : List (Event α)} {answer answer' : Answer α}

theorem Kept.of_quiet (hout : (op.deed σ).outcome = ⟨σ', events, answer⟩)
    (hout' : (op.deed τ).outcome = ⟨τ', events', answer⟩) (h : Alike B σ' τ')
    (hq : OnlyNotices events) (hq' : OnlyNotices events') (hpresent : answer.isAbsent = false) :
    Kept B (op.deed σ) (op.deed τ) where
  alike := by rwa [Deed.after, Deed.after, hout, hout']
  present := by rwa [Deed.answer, hout']
  shows shown := by rw [Deed.answer, Deed.answer, hout, hout', op_deed, op_deed]
  answer s _ _ := by rw [Deed.answer, Deed.answer, hout, hout']
  freed s _ := by
    rw [Deed.freedOf, Deed.freedOf, Deed.freed, Deed.freed, Deed.events, Deed.events, hout, hout',
      hq.freedIn, hq'.freedIn]

/-- The operation works on a stack, and answers and frees the same unless this is stack `B`. -/
theorem Kept.of_work (hout : (op.deed σ).outcome = ⟨σ', events, answer⟩)
    (hout' : (op.deed τ).outcome = ⟨τ', events', answer'⟩) (h : Alike B σ' τ')
    (hop : op.stack? = some s) (hfreed : ∃ freed : List Block, freedIn events = freed.map (s, ·))
    (hfreed' : ∃ freed : List Block, freedIn events' = freed.map (s, ·))
    (hsame : s ≠ B → answer' = answer ∧ freedIn events' = freedIn events)
    (hpresent : answer'.isAbsent = false)
    (hshows : ∀ shown, op.shows answer' shown = op.shows answer shown) :
    Kept B (op.deed σ) (op.deed τ) where
  alike := by rwa [Deed.after, Deed.after, hout, hout']
  present := by rwa [Deed.answer, hout']
  shows shown := by
    rw [Deed.answer, Deed.answer, hout, hout', op_deed, op_deed]
    exact hshows shown
  answer s' hs' hne := by
    obtain rfl : s = s' := Option.some.inj (hop.symm.trans hs')
    rw [Deed.answer, Deed.answer, hout, hout']
    exact (hsame hne).1
  freed s' hne := by
    rw [Deed.freedOf, Deed.freedOf, Deed.freed, Deed.freed, Deed.events, Deed.events, hout, hout']
    by_cases heq : s = s'
    · subst heq
      rw [(hsame hne).2]
    · obtain ⟨freed, hfreed⟩ := hfreed
      obtain ⟨freed', hfreed'⟩ := hfreed'
      rw [hfreed, hfreed', onStack_of_ne _ heq, onStack_of_ne _ heq]

theorem Op.absurd_of_absent {β : Type} {x : Action α (Except Failure β)}
    {f : Except Failure β → Answer α} (hop : op.run = do return f (← x))
    (hf : f (.error .absent) = .failed .absent) (hx : x σ = ⟨σ', events, .error .absent⟩)
    (hp : (op.deed σ).answer.isAbsent = false) : False := by
  have hout := deed_eq hop hx
  rw [Deed.answer, hout, hf] at hp
  cases hp

namespace Alike

variable {sign sign' : HandleId → Token} {shown : HandleId → Address}

theorem kept_pop (h : Alike B σ τ) (hσ : Sound σ sign shown) (hτ : Sound τ sign' shown)
    {t : ThreadId} (hp : ((Op.pop t s).deed σ).Proper)
    (hf : ((Op.pop t s).deed σ).answer.isExhausted = false)
    (hf' : ((Op.pop t s).deed τ).answer.isExhausted = false) :
    Kept B ((Op.pop t s).deed σ) ((Op.pop t s).deed τ) := by
  rcases pop_cases σ t s with ⟨-, hr⟩ | ⟨stack, thread, hs, ht⟩
  · exact (absurd_of_absent rfl rfl hr hp.1).elim
  obtain ⟨stack', hs', hT, hsame⟩ := h.exists_stack hs
  obtain ⟨thread', ht'⟩ := h.exists_thread ht
  obtain ⟨_, ρ, stack₁, pre, mid, post, hserved, hrun, hpre, hpost, hpop⟩ :=
    pop_serves hs (hσ.served ht)
  obtain ⟨_, ρ', stack₁', pre', mid', post', hserved', hrun', hpre', hpost', hpop'⟩ :=
    pop_serves hs' (hτ.served ht')
  have hmid : freedIn (pre ++ mid ++ post) = freedIn mid := by
    rw [freedIn_append, freedIn_append, hpre.freedIn, hpost.freedIn, List.nil_append,
      List.append_nil]
  have hmid' : freedIn (pre' ++ mid' ++ post') = freedIn mid' := by
    rw [freedIn_append, freedIn_append, hpre'.freedIn, hpost'.freedIn, List.nil_append,
      List.append_nil]
  -- on another stack than `B` the pops go alike
  have hunique : s ≠ B → stack₁' = stack₁ ∧ mid' = mid ∧
      (State.pop t s τ).value = (State.pop t s σ).value := by
    intro hne
    obtain rfl := hsame hne
    rw [h.published hσ hτ] at hpop'
    exact hpop.unique_of_enough hpop' hf hf'
  have halike := (h.of_served hserved hserved').setStack ((hserved.get?_lifos s).trans hs)
    ((hserved'.get?_lifos s).trans hs') hpop.table hpop'.table fun hne => (hunique hne).1
  refine .of_work (deed_eq rfl hrun) (deed_eq rfl hrun') halike rfl ?_ ?_ (fun hne => ?_)
    hpop'.present fun _ => rfl
  · rw [hmid]
    exact hpop.exists_freed
  · rw [hmid']
    exact hpop'.exists_freed
  · obtain ⟨-, hsame, hvalue⟩ := hunique hne
    rw [hmid, hmid', hsame, hvalue]
    exact ⟨rfl, rfl⟩

theorem kept_popWith (h : Alike B σ τ) (hσ : Sound σ sign shown) (hτ : Sound τ sign' shown)
    {n : HandleId} (hp : ((Op.popWith s n).deed σ).Proper)
    (hf : ((Op.popWith s n).deed σ).answer.isExhausted = false)
    (hf' : ((Op.popWith s n).deed τ).answer.isExhausted = false) :
    Kept B ((Op.popWith s n).deed σ) ((Op.popWith s n).deed τ) := by
  have hpresent : (σ.lifos.get? s).isSome ∧ (σ.handles.get? n).isSome := by
    rcases popWith_cases σ s n with ⟨-, hr⟩ | ⟨_, _, hs, hn, -⟩ | ⟨_, _, _, _, _, hs, hn, -⟩
    · exact (absurd_of_absent rfl rfl hr hp.1).elim
    · simp [hs, hn]
    · simp [hs, hn]
  obtain ⟨stack, hs⟩ := Option.isSome_iff_exists.1 hpresent.1
  obtain ⟨handle, hn⟩ := Option.isSome_iff_exists.1 hpresent.2
  obtain ⟨stack', hs', hT, hsame⟩ := h.exists_stack hs
  obtain ⟨handle', hn', hT'⟩ := h.exists_handle hn
  have hpop := popWith_eq hs hn
  have hpop' := popWith_eq hs' hn'
  by_cases htable : handle.table = stack.table
  · have htable' : handle'.table = stack'.table := by rw [hT', hT, htable]
    rw [if_pos htable] at hpop
    rw [if_pos htable'] at hpop'
    have hsilent : Alike B (σ.silence handle) (τ.silence handle') :=
      h.tablesOnly (tablesOnly_setSlots ..) (tablesOnly_setSlots ..)
    obtain ⟨stack₁, mid, value, hrun, hpopping⟩ := popThrough_eq hs handle rfl
    obtain ⟨stack₁', mid', value', hrun', hpopping'⟩ := popThrough_eq hs' handle' rfl
    rw [hrun] at hpop
    rw [hrun'] at hpop'
    have hout : ((Op.popWith s n).deed σ).outcome = _ := deed_eq rfl hpop
    have hout' : ((Op.popWith s n).deed τ).outcome = _ := deed_eq rfl hpop'
    have hunique : s ≠ B → stack₁' = stack₁ ∧ mid' = mid ∧ value' = value := by
      intro hne
      obtain rfl := hsame hne
      rw [hsilent.published (hσ.publish hn .null) (hτ.publish hn' .null)] at hpopping'
      rw [Deed.answer, hout] at hf
      rw [Deed.answer, hout'] at hf'
      exact hpopping.unique_of_enough hpopping' hf hf'
    refine .of_work hout hout' (hsilent.setStack hs hs' hpopping.table hpopping'.table fun hne =>
      (hunique hne).1) rfl hpopping.exists_freed hpopping'.exists_freed (fun hne => ?_)
      hpopping'.present fun shown => ?_
    · obtain ⟨-, hmid, hvalue⟩ := hunique hne
      rw [hmid, hvalue]
      exact ⟨rfl, rfl⟩
    · exact (hpopping'.shows_popWith shown).trans (hpopping.shows_popWith shown).symm
  · have htable' : handle'.table ≠ stack'.table := by rwa [hT', hT]
    rw [if_neg htable] at hpop
    rw [if_neg htable'] at hpop'
    exact .of_quiet (deed_eq rfl hpop) (deed_eq rfl hpop') h onlyNotices_nil onlyNotices_nil rfl

theorem kept_reclaim (h : Alike B σ τ) (hσ : Sound σ sign shown) (hτ : Sound τ sign' shown)
    (hp : ((Op.reclaim s).deed σ).Proper) :
    Kept B ((Op.reclaim s).deed σ) ((Op.reclaim s).deed τ) := by
  rcases reclaim_cases σ s with ⟨-, hr⟩ | ⟨stack, -, hs, -⟩
  · exact (absurd_of_absent rfl rfl hr hp.1).elim
  obtain ⟨stack', hs', -, hsame⟩ := h.exists_stack hs
  have hrun := reclaim_eq hs
  have hrun' := reclaim_eq hs'
  rw [h.published hσ hτ] at hrun'
  refine .of_work (deed_eq rfl hrun) (deed_eq rfl hrun') (h.setStack hs hs' rfl rfl fun hne => ?_) rfl
    ⟨_, Limbo.freedIn_sweepEvents ..⟩ ⟨_, Limbo.freedIn_sweepEvents ..⟩ (fun hne => ?_) rfl fun _ => rfl
  · rw [hsame hne]
  · rw [hsame hne]
    exact ⟨rfl, rfl⟩

theorem kept_dropStack (h : Alike B σ τ) (hp : ((Op.dropStack s).deed σ).Proper) :
    Kept B ((Op.dropStack s).deed σ) ((Op.dropStack s).deed τ) := by
  rcases dropStack_cases σ s with ⟨-, hr⟩ | ⟨stack, -, hs, -⟩
  · exact (absurd_of_absent rfl rfl hr hp.1).elim
  obtain ⟨stack', hs', -, hsame⟩ := h.exists_stack hs
  have hrun := dropStack_eq hs
  have hrun' := dropStack_eq hs'
  have hfreed : ∀ stack : Stack α, ∃ freed : List Block,
      freedIn ((dismantle s stack.nodes).1 ++ stack.limbo.entries.map (.freed s)) =
        freed.map (s, ·) := by
    intro stack
    refine ⟨(dismantled stack.nodes).map (·.block) ++ stack.limbo.entries, ?_⟩
    rw [freedIn_append, freedIn_dismantle, freedIn_map_freed, List.map_append, List.map_map]
    rfl
  rw [((tablesOnly_letGo σ stack.table).trans (tablesOnly_letGo _ stack.table)).frame] at hrun
  rw [((tablesOnly_letGo τ stack'.table).trans (tablesOnly_letGo _ stack'.table)).frame] at hrun'
  refine .of_work (deed_eq rfl hrun) (deed_eq rfl hrun') { h.erase_lifos s with } rfl (hfreed stack)
    (hfreed stack') (fun hne => ?_) ?_ fun _ => rfl
  · rw [hsame hne]
    exact ⟨rfl, rfl⟩
  · unfold endResult
    cases (dismantle s stack'.nodes).2 <;> rfl

theorem kept_acquire (h : Alike B σ τ) (hσ : Sound σ sign shown) (hτ : Sound τ sign' shown)
    {t : ThreadId} {T : TableId} {n : HandleId} (hp : ((Op.acquire t T n).deed σ).Proper)
    (hf : ((Op.acquire t T n).deed σ).answer.isExhausted = false)
    (hf' : ((Op.acquire t T n).deed τ).answer.isExhausted = false) :
    Kept B ((Op.acquire t T n).deed σ) ((Op.acquire t T n).deed τ) := by
  rcases acquire_cases σ t T n with ⟨-, hr⟩ | ⟨thread, ht, hT, hn, hrun⟩
  · exact (absurd_of_absent rfl rfl hr hp.1).elim
  have hT' := hτ.isSome_of_reaches (h.reaches (hp.2 T rfl))
  rcases acquire_cases τ t T n with ⟨habsent, -⟩ | ⟨thread', ht', -, hn', hrun'⟩
  · refine absurd ⟨Nat.le_trans h.horizon hn, ?_, hT'⟩ habsent
    rw [h.threads, ht]
    rfl
  obtain ⟨k, hq, hclaim⟩ := (hσ.served ht).claim hT
  obtain ⟨k', hq', hclaim'⟩ := (hτ.served ht').claim hT'
  rcases hclaim with ⟨c, hv, -⟩ | ⟨handle, hv, htable, hserved⟩ <;> rw [hv] at hrun
  · have hout : ((Op.acquire t T n).deed σ).outcome = _ := deed_eq rfl hrun
    rw [Deed.answer, hout] at hf
    cases hf
  rcases hclaim' with ⟨c, hv', -⟩ | ⟨handle', hv', htable', hserved'⟩ <;> rw [hv'] at hrun'
  · have hout' : ((Op.acquire t T n).deed τ).outcome = _ := deed_eq rfl hrun'
    rw [Deed.answer, hout'] at hf'
    cases hf'
  have hout : ((Op.acquire t T n).deed σ).outcome = _ := deed_eq rfl hrun
  have hout' : ((Op.acquire t T n).deed τ).outcome = _ := deed_eq rfl hrun'
  refine ⟨?_, ?_, fun shown => ?_, fun s hs => ?_, fun s _ => ?_⟩
  · rw [Deed.after, Deed.after, hout, hout']
    have hnew := ((h.of_served hserved hserved').use n).insert_handles n (htable'.trans htable.symm)
    exact { hnew with }
  · rw [Deed.answer, hout']
    rfl
  · rw [Deed.answer, Deed.answer, hout, hout']
    rfl
  · cases hs
  · rw [Deed.freedOf, Deed.freedOf, Deed.freed, Deed.freed, Deed.events, Deed.events, hout, hout',
      hq.freedIn, hq'.freedIn]

/-- Everything that a proper call does besides slots, tokens and caches it does alike. -/
theorem kept (h : Alike B σ τ) (hσ : Sound σ sign shown) (hτ : Sound τ sign' shown) (op : Op α)
    (hp : (op.deed σ).Proper) (hf : (op.deed σ).answer.isExhausted = false)
    (hf' : (op.deed τ).answer.isExhausted = false) (hb : ∀ b ∈ op.block?, b ∉ τ.blocks) :
    Kept B (op.deed σ) (op.deed τ) := by
  have hquiet := onlyNotices_nil (α := α)
  cases op with
  | newTable T c =>
    have hrun := newTable_eq σ T c
    have hrun' := newTable_eq τ T c
    cases hu : σ.isUsed T with
    | true =>
      rw [if_pos hu] at hrun
      exact (absurd_of_absent rfl rfl hrun hp.1).elim
    | false =>
      rw [hu, if_neg Bool.false_ne_true] at hrun
      rw [h.isUsed hu, if_neg Bool.false_ne_true] at hrun'
      cases hc : SlotTable.ofCapacity c with
      | error fault =>
        rw [hc] at hrun hrun'
        exact .of_quiet (deed_eq rfl hrun) (deed_eq rfl hrun') h hquiet hquiet rfl
      | ok slots =>
        rw [hc] at hrun hrun'
        refine .of_quiet (deed_eq rfl hrun) (deed_eq rfl hrun') ?_ hquiet hquiet rfl
        exact { h.use T with callerTables := congrArg (T :: ·) h.callerTables }
  | shareTable T =>
    rcases shareTable_cases σ T with ⟨-, hr⟩ | ⟨-, hrun⟩
    · exact (absurd_of_absent rfl rfl hr hp.1).elim
    have hT := hτ.isSome_of_reaches (h.reaches (hp.2 T rfl))
    rcases shareTable_cases τ T with ⟨hnone, -⟩ | ⟨-, hrun'⟩
    · rw [hnone] at hT
      cases hT
    refine .of_quiet (deed_eq rfl hrun) (deed_eq rfl hrun') ?_ hquiet hquiet rfl
    exact { h with callerTables := congrArg (T :: ·) h.callerTables }
  | dropTable T =>
    rcases dropTable_cases σ T with ⟨-, hr⟩ | ⟨hT, hrun⟩
    · exact (absurd_of_absent rfl rfl hr hp.1).elim
    rcases dropTable_cases τ T with ⟨hnot, -⟩ | ⟨-, hrun'⟩
    · rw [h.callerTables] at hnot
      exact absurd hT hnot
    rw [(tablesOnly_letGo σ T).frame] at hrun
    rw [(tablesOnly_letGo τ T).frame] at hrun'
    refine .of_quiet (deed_eq rfl hrun) (deed_eq rfl hrun') ?_ hquiet hquiet rfl
    exact { h with callerTables := congrArg (·.erase T) h.callerTables }
  | newStack s T =>
    rcases newStack_cases σ s T with ⟨-, hr⟩ | ⟨hs, -, hrun⟩
    · exact (absurd_of_absent rfl rfl hr hp.1).elim
    have hT := hτ.isSome_of_reaches (h.reaches (hp.2 T rfl))
    rcases newStack_cases τ s T with ⟨habsent, -⟩ | ⟨-, -, hrun'⟩
    · exact absurd ⟨Nat.le_trans h.horizon hs, hT⟩ habsent
    refine .of_quiet (deed_eq rfl hrun) (deed_eq rfl hrun') ?_ hquiet hquiet rfl
    exact { (h.use s).insert_lifos s { table := T } with }
  | newStackOwning s T c =>
    have hrun := newStackOwning_eq σ s T c
    have hrun' := newStackOwning_eq τ s T c
    cases hu : (σ.isUsed s || T ≤ s) with
    | true =>
      rw [if_pos hu] at hrun
      exact (absurd_of_absent rfl rfl hrun hp.1).elim
    | false =>
      obtain ⟨hs, hsT⟩ := Bool.or_eq_false_iff.1 hu
      have hu' : (τ.isUsed s || T ≤ s) = false := Bool.or_eq_false_iff.2 ⟨h.isUsed hs, hsT⟩
      rw [hu, if_neg Bool.false_ne_true] at hrun
      rw [hu', if_neg Bool.false_ne_true] at hrun'
      cases hc : SlotTable.ofCapacity c with
      | error fault =>
        rw [hc] at hrun hrun'
        exact .of_quiet (deed_eq rfl hrun) (deed_eq rfl hrun') h hquiet hquiet rfl
      | ok slots =>
        rw [hc] at hrun hrun'
        refine .of_quiet (deed_eq rfl hrun) (deed_eq rfl hrun') ?_ hquiet hquiet rfl
        exact { (h.use T).insert_lifos s { table := T } with }
  | dropStack s => exact h.kept_dropStack hp
  | push s b v =>
    rcases push_cases σ s b v with ⟨-, hr⟩ | ⟨stack, hs, -, hrun⟩
    · exact (absurd_of_absent rfl rfl hr hp.1).elim
    rcases push_cases τ s b v with ⟨habsent, -⟩ | ⟨stack', hs', -, hrun'⟩
    · refine absurd ⟨?_, hb b rfl⟩ habsent
      rw [h.isSome_lifos, hs]
      rfl
    obtain ⟨stack'', hs'', hT, hsame⟩ := h.exists_stack hs
    obtain rfl := Option.some.inj (hs'.symm.trans hs'')
    refine .of_quiet (deed_eq rfl hrun) (deed_eq rfl hrun') ?_ hquiet hquiet rfl
    exact (h.use b).setStack hs hs' rfl rfl fun hne => by rw [hsame hne]
  | pop t s => exact h.kept_pop hσ hτ hp hf hf'
  | popWith s n => exact h.kept_popWith hσ hτ hp hf hf'
  | reclaim s => exact h.kept_reclaim hσ hτ hp
  | acquire t T n => exact h.kept_acquire hσ hτ hp hf hf'
  | release n =>
    rcases release_cases σ n with ⟨-, hr⟩ | ⟨handle, hn, hrun⟩
    · exact (absurd_of_absent rfl rfl hr hp.1).elim
    obtain ⟨handle', hn', -⟩ := h.exists_handle hn
    rcases release_cases τ n with ⟨hnone, -⟩ | ⟨handle'', -, hrun'⟩
    · rw [hnone] at hn'
      cases hn'
    refine .of_quiet (deed_eq rfl hrun) (deed_eq rfl hrun') ?_ (onlyNotices_notice _)
      (onlyNotices_notice _) rfl
    exact (h.erase_handles n).tablesOnly (tablesOnly_giveBack ..) (tablesOnly_giveBack ..)
  | publish n a =>
    rcases publish_cases σ n a with ⟨-, hr⟩ | ⟨handle, hn, hrun⟩
    · exact (absurd_of_absent rfl rfl hr hp.1).elim
    obtain ⟨handle', hn', -⟩ := h.exists_handle hn
    rcases publish_cases τ n a with ⟨hnone, -⟩ | ⟨handle'', -, hrun'⟩
    · rw [hnone] at hn'
      cases hn'
    refine .of_quiet (deed_eq rfl hrun) (deed_eq rfl hrun') ?_ hquiet hquiet rfl
    exact h.tablesOnly (tablesOnly_setSlots ..) (tablesOnly_setSlots ..)
  | startThread t =>
    rcases startThread_cases σ t with ⟨-, hr⟩ | ⟨ht, hrun⟩
    · exact (absurd_of_absent rfl rfl hr hp.1).elim
    rcases startThread_cases τ t with ⟨habsent, -⟩ | ⟨-, hrun'⟩
    · exact absurd (Nat.le_trans h.horizon ht) habsent
    refine .of_quiet (deed_eq rfl hrun) (deed_eq rfl hrun') ?_ hquiet hquiet rfl
    exact { (h.use t).insert_threads t {} with }
  | hookExit t =>
    rcases hookExit_cases σ t with ⟨-, hr⟩ | ⟨thread, first, ht, hrun⟩
    · exact (absurd_of_absent rfl rfl hr hp.1).elim
    obtain ⟨thread', ht'⟩ := h.exists_thread ht
    rcases hookExit_cases τ t with ⟨hnone, -⟩ | ⟨thread'', first', ht'', hrun'⟩
    · rw [hnone] at ht'
      cases ht'
    refine .of_quiet (deed_eq rfl hrun) (deed_eq rfl hrun') ?_ hquiet hquiet rfl
    exact h.of_served ((hσ.served ht).hook first) ((hτ.served ht'').hook first')
  | beginExit t =>
    rcases beginExit_cases σ t with ⟨-, hr⟩ | ⟨thread, ht, -⟩
    · exact (absurd_of_absent rfl rfl hr hp.1).elim
    obtain ⟨thread', ht'⟩ := h.exists_thread ht
    obtain ⟨_, _, _, hrun, hq, hserved⟩ := hσ.beginExit_served ht
    obtain ⟨_, _, _, hrun', hq', hserved'⟩ := hτ.beginExit_served ht'
    exact .of_quiet (deed_eq rfl hrun) (deed_eq rfl hrun') (h.of_served hserved hserved') hq hq' rfl
  | endThread t =>
    rcases endThread_cases σ t with ⟨-, hr⟩ | ⟨thread, ht, hrun⟩
    · exact (absurd_of_absent rfl rfl hr hp.1).elim
    obtain ⟨thread', ht'⟩ := h.exists_thread ht
    rcases endThread_cases τ t with ⟨hnone, -⟩ | ⟨thread'', ht'', hrun'⟩
    · rw [hnone] at ht'
      cases ht'
    obtain ⟨_, -, -, hq, hserved⟩ := (hσ.served ht).closeCache
    obtain ⟨_, -, -, hq', hserved'⟩ := (hτ.served ht'').closeCache
    refine .of_quiet (deed_eq rfl hrun) (deed_eq rfl hrun') ?_ hq hq' rfl
    exact (h.of_served hserved hserved').erase_threads t

/-! ## Operations left out of one run -/

/-- A push, a pop or a reclaim on stack `B` keeps the states alike, and frees no node of another
stack. -/
theorem of_omitted (h : Alike B σ τ) (hσ : Sound σ sign shown) (hop : op.Omissible B) :
    Alike B (op.deed σ).after τ ∧ ∀ s ≠ B, (op.deed σ).freedOf s = [] := by
  have hquiet : ∀ {σ' answer}, (op.deed σ).outcome = ⟨σ', [], answer⟩ → Alike B σ' τ →
      Alike B (op.deed σ).after τ ∧ ∀ s ≠ B, (op.deed σ).freedOf s = [] := by
    intro σ' answer hout h'
    rw [Deed.after, hout]
    refine ⟨h', fun s _ => ?_⟩
    rw [Deed.freedOf, Deed.freed, Deed.events, hout]
    rfl
  cases op with
  | push s b v =>
    obtain rfl : s = B := hop
    rcases push_cases σ s b v with ⟨-, hr⟩ | ⟨stack, hs, -, hrun⟩
    · exact hquiet (deed_eq rfl hr) h
    · have hused : Alike s (σ.use b) τ :=
        { h with horizon := Nat.le_trans h.horizon (Nat.le_max_left ..) }
      exact hquiet (deed_eq rfl hrun) (hused.setStack_left hs rfl)
  | pop t s =>
    obtain rfl : s = B := hop
    rcases pop_cases σ t s with ⟨-, hr⟩ | ⟨stack, thread, hs, ht⟩
    · exact hquiet (deed_eq rfl hr) h
    · obtain ⟨_, ρ, stack', pre, mid, post, hserved, hrun, hpre, hpost, hpop⟩ :=
        pop_serves hs (hσ.served ht)
      have hout : ((Op.pop t s).deed σ).outcome = _ := deed_eq rfl hrun
      rw [Deed.after, hout]
      refine ⟨?_, fun s' hne => ?_⟩
      · exact (h.of_served_left hserved).setStack_left ((hserved.get?_lifos s).trans hs) hpop.table
      · obtain ⟨freed, hfreed⟩ := hpop.exists_freed
        rw [Deed.freedOf, Deed.freed, Deed.events, hout, freedIn_append, freedIn_append,
          hpre.freedIn, hpost.freedIn, hfreed, List.nil_append, List.append_nil,
          onStack_of_ne _ hne.symm]
  | reclaim s =>
    obtain rfl : s = B := hop
    rcases reclaim_cases σ s with ⟨-, hr⟩ | ⟨stack, count, hs, hrun⟩
    · exact hquiet (deed_eq rfl hr) h
    · have hout : ((Op.reclaim s).deed σ).outcome = _ := deed_eq rfl hrun
      rw [Deed.after, hout]
      refine ⟨h.setStack_left hs rfl, fun s' hne => ?_⟩
      rw [Deed.freedOf, Deed.freed, Deed.events, hout, Limbo.freedIn_sweepEvents,
        onStack_of_ne _ hne.symm]
  | newTable | shareTable | dropTable | newStack | newStackOwning | dropStack | popWith | acquire
  | release | publish | startThread | hookExit | beginExit | endThread => exact hop.elim

end Alike

end

end HazardLifo
