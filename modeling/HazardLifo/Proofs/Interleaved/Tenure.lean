import HazardLifo.Proofs.Interleaved.Slots

/-!
# Tenures of slots

The tenure of a slot lasts from the claim that signs it to the exchange that frees it. A release is
two accesses, of which only the second frees the slot, and the first has already withdrawn what it
published. So a free slot publishes nothing (`Machine.Blank`), a new tenure begins with nothing
published, and what the slot publishes later is the last address that its holder has written since
the claim: nothing that an earlier holder still does reaches into the tenure
(`Machine.slot_tenure`).

The log of a run shows claims and releases of a slot by turns, and each release shows the token of
the claim before it (`Turns`).
-/

namespace HazardLifo.Interleaved

variable {α : Type}

/-! ## Claims and releases in a log -/

def Mark.slot? : Mark α → Option Nat
  | .claimed _ i | .released _ i => some i
  | _ => none

/-- The owner of slot `i` changes as the log says: claims and releases of it come by turns, and a
release shows the token of the claim that it ends. -/
inductive Turns (i : Nat) : Option Token → List (Mark α) → Option Token → Prop where
  | nil {o} : Turns i o [] o
  | claim {k L o} (h : Turns i (some k) L o) : Turns i none (.claimed k i :: L) o
  | release {k L o} (h : Turns i none L o) : Turns i (some k) (.released (some k) i :: L) o
  | other {x o L o'} (hx : Mark.slot? x ≠ some i) (h : Turns i o L o') : Turns i o (x :: L) o'

namespace Turns

variable {i : Nat} {o o' o'' : Option Token} {k : Token} {L L' : List (Mark α)}

theorem append (h : Turns i o L o') (h' : Turns i o' L' o'') : Turns i o (L ++ L') o'' := by
  induction h with
  | nil => exact h'
  | claim _ ih => exact .claim (ih h')
  | release _ ih => exact .release (ih h')
  | other hx _ ih => exact .other hx (ih h')

theorem of_forall (h : ∀ x ∈ L, Mark.slot? x ≠ some i) : Turns i o L o := by
  induction L with
  | nil => exact .nil
  | cons x L ih =>
    obtain ⟨hx, hL⟩ := List.forall_mem_cons.1 h
    exact .other hx (ih hL)

theorem unreleased (h : Turns i o L o') (ho : o = some k) (hL : ∀ o, .released o i ∉ L) :
    o' = some k ∧ ∀ x ∈ L, Mark.slot? x ≠ some i := by
  induction h with
  | nil => exact ⟨ho, by simp⟩
  | claim => cases ho
  | release => exact absurd List.mem_cons_self (hL _)
  | other hx _ ih =>
    obtain ⟨ho', hrest⟩ := ih ho fun o hmem => hL o (List.mem_cons_of_mem _ hmem)
    exact ⟨ho', List.forall_mem_cons.2 ⟨hx, hrest⟩⟩

theorem last_claim (h : Turns i o L o') (hk : o' = some k) :
    (o = some k ∧ ∀ x ∈ L, Mark.slot? x ≠ some i) ∨
      ∃ A B, L = A ++ .claimed k i :: B ∧ ∀ x ∈ B, Mark.slot? x ≠ some i := by
  induction h with
  | nil => exact .inl ⟨hk, by simp⟩
  | @claim k' L o' h ih =>
    rcases ih hk with ⟨hk', hL⟩ | ⟨A, B, rfl, hB⟩
    · obtain rfl := Option.some.inj hk'
      exact .inr ⟨[], L, rfl, hL⟩
    · exact .inr ⟨.claimed k' i :: A, B, rfl, hB⟩
  | @release k' L o' h ih =>
    rcases ih hk with ⟨hk', -⟩ | ⟨A, B, rfl, hB⟩
    · cases hk'
    · exact .inr ⟨.released (some k') i :: A, B, rfl, hB⟩
  | @other x o L o' hx h ih =>
    rcases ih hk with ⟨ho, hL⟩ | ⟨A, B, rfl, hB⟩
    · exact .inl ⟨ho, List.forall_mem_cons.2 ⟨hx, hL⟩⟩
    · exact .inr ⟨x :: A, B, rfl, hB⟩

end Turns

/-! ## Writes to a slot -/

/-- The address that the next access writes to what slot `i` publishes. -/
def Control.writes? (i : Nat) : Control α → Option Address
  | .withdrawing j | .clearing _ j _ => if j = i then some .null else none
  | .publishing j a => if j = i then some a else none
  | .guarding _ j seen => if j = i then some (.ofLink seen) else none
  | _ => none

theorem Control.slot?_of_writes? {c : Control α} {i : Nat} {a : Address} (h : c.writes? i = some a) :
    c.slot? = some i := by
  cases c <;> simp only [writes?, Option.ite_none_right_eq_some, reduceCtorEq] at h
  all_goals
    obtain ⟨rfl, -⟩ := h
    rfl

theorem Move.published?_eq_writes? {m : Memory α} {g : Agent α} {a : Advance α} (hm : Move m g a)
    (i : Nat) :
    a.memory.table.published? i =
      (m.table.published? i).map fun old => (g.control.writes? i).getD old := by
  cases hm with
  | @publish token held j c b c' marks h =>
    have hw : c.writes? i = if j = i then some b else none := by cases h <;> rfl
    rw [hw]
    simp only [Memory.mapTable, SlotTable.published?_publish]
    split <;> simp
  | @claim token held j slot hs ho =>
    simp only [Memory.mapTable, SlotTable.published?_modify, Control.writes?]
    split <;> simp [SlotTable.published?, Function.comp_def]
  | @disown token held j =>
    simp only [Memory.mapTable, SlotTable.published?_modify, Control.writes?]
    split <;> simp [SlotTable.published?, Function.comp_def]
  | quiet h => cases h <;> simp [Control.writes?]
  | crash h => cases h <;> simp [Control.writes?]
  | _ => simp [Control.writes?, Memory.mapGauge, Memory.allocate, Memory.free]

theorem Move.eq_withdrawing {m : Memory α} {g : Agent α} {a : Advance α} (hm : Move m g a) {i : Nat}
    (hc : a.agent.control = .disowning i) : g.control = .withdrawing i := by
  cases hm with
  | quiet h => cases h <;> cases hc
  | publish h =>
    cases h <;> cases hc
    rfl
  | _ => cases hc

theorem Quiet.slot?_eq_none {m : Memory α} {token : Token} {c c' : Control α}
    {marks : List (Mark α)} (h : Quiet m token c c' marks) : ∀ x ∈ marks, x.slot? = none := by
  cases h <;> simp [Mark.slot?]

theorem Publishing.slot?_eq_none {i : Nat} {c c' : Control α} {a : Address} {marks : List (Mark α)}
    (h : Publishing i c a c' marks) : ∀ x ∈ marks, x.slot? = none := by
  cases h <;> simp [Mark.slot?]

theorem Pass.slot?_eq_none (pass : Pass α) : ∀ x ∈ pass.marks, x.slot? = none := by
  unfold Pass.marks
  split <;> simp [Mark.slot?]

/-- A move changes the owner of a slot as its marks say. -/
theorem Move.turns {m : Memory α} {g : Agent α} {a : Advance α} (hm : Move m g a)
    (howned : ∀ j, g.control = .disowning j → (m.table.owner j).isSome) (i : Nat) :
    Turns i (m.table.owner i) a.marks (a.memory.table.owner i) := by
  have hreturned : ∀ r : Reply α, Mark.slot? (.returned r) ≠ some i := nofun
  have hsilent : ∀ {L : List (Mark α)} {o}, (∀ x ∈ L, x.slot? = none) → Turns i o L o :=
    fun h => .of_forall fun x hx hi => by rw [h x hx] at hi; cases hi
  cases hm with
  | @claim token held j slot hs ho =>
    simp only [Memory.mapTable, SlotTable.owner_modify]
    by_cases hj : j = i
    · subst hj
      have hfree : m.table.owner j = none := by simp only [SlotTable.owner, hs, Option.bind_some, ho]
      rw [hfree, if_pos rfl, hs]
      exact .claim (.other (hreturned _) .nil)
    · rw [if_neg hj]
      exact .other (fun h => hj (Option.some.inj h)) (.other (hreturned _) .nil)
  | @disown token held j =>
    simp only [Memory.mapTable, SlotTable.owner_modify]
    by_cases hj : j = i
    · subst hj
      obtain ⟨k, hk⟩ := Option.isSome_iff_exists.1 (howned j rfl)
      rw [hk, if_pos rfl, Option.bind_fun_none]
      exact .release (.other (hreturned _) .nil)
    · rw [if_neg hj]
      exact .other (fun h => hj (Option.some.inj h)) (.other (hreturned _) .nil)
  | quiet h => exact hsilent h.slot?_eq_none
  | @publish token held j c b c' marks h =>
    rw [show (m.mapTable (·.publish j b)).table = m.table.publish j b from rfl,
      SlotTable.owner_publish]
    exact hsilent h.slot?_eq_none
  | settle => exact hsilent (Pass.slot?_eq_none _)
  | _ =>
    simp only [Memory.table_store, Memory.table_overwrite]
    exact hsilent (by simp [Mark.slot?])

/-- A mark of a slot comes with the claim of a free slot, or with the exchange that frees it. -/
theorem Move.of_mem_marks {m : Memory α} {g : Agent α} {a : Advance α} (hm : Move m g a)
    {x : Mark α} (hx : x ∈ a.marks) {i : Nat} (hi : x.slot? = some i) :
    (x = .claimed g.token i ∧ g.control = .trying i ∧ i < m.table.slots.length ∧
      m.table.owner i = none ∧ a.memory.table.owner i = some g.token) ∨
    (x = .released (m.table.owner i) i ∧ g.control = .disowning i) := by
  have hsilent : ∀ {L : List (Mark α)}, (∀ x ∈ L, x.slot? = none) → x ∈ L → False :=
    fun h hx => by rw [h x hx] at hi; cases hi
  cases hm with
  | @claim token held j slot hs ho =>
    simp only [List.mem_cons, List.not_mem_nil, or_false] at hx
    rcases hx with rfl | rfl
    · obtain rfl : j = i := Option.some.inj hi
      refine .inl ⟨rfl, rfl, (List.getElem?_eq_some_iff.1 hs).1, ?_, ?_⟩
      · simp only [SlotTable.owner, hs, Option.bind_some, ho]
      · simp only [Memory.mapTable, SlotTable.owner_modify, if_true, hs, Option.bind_some]
    · cases hi
  | @disown token held j =>
    simp only [List.mem_cons, List.not_mem_nil, or_false] at hx
    rcases hx with rfl | rfl
    · obtain rfl : j = i := Option.some.inj hi
      exact .inr ⟨rfl, rfl⟩
    · cases hi
  | quiet h => exact (hsilent h.slot?_eq_none hx).elim
  | publish h => exact (hsilent h.slot?_eq_none hx).elim
  | settle => exact (hsilent (Pass.slot?_eq_none _) hx).elim
  | _ => exact (hsilent (by simp [Mark.slot?]) hx).elim

namespace Machine

variable {M M' : Machine α}

/-! ## The log of a run -/

def log (M : Machine α) : List (Act α) → List (Mark α)
  | [] => []
  | act :: acts =>
    match M.act? act with
    | some (M', marks) => marks ++ M'.log acts
    | none => []

theorem log_append {acts : List (Act α)} (hrun : M.run? acts = some M') (acts' : List (Act α)) :
    M.log (acts ++ acts') = M.log acts ++ M'.log acts' := by
  induction acts generalizing M with
  | nil =>
    obtain rfl := Option.some.inj hrun
    rfl
  | cons act acts ih =>
    obtain ⟨M₁, marks, hact, hrun⟩ := run?_cons_eq_some.1 hrun
    simp only [List.cons_append, log, hact, ih hrun, List.append_assoc]

def write? (M : Machine α) (i : Nat) (act : Act α) : Option Address :=
  (act.mover?.bind M.control?).bind (·.writes? i)

def writes (M : Machine α) (i : Nat) : List (Act α) → List Address
  | [] => []
  | act :: acts =>
    match M.act? act with
    | some (M', _) => (M.write? i act).toList ++ M'.writes i acts
    | none => []

theorem write?_eq {act : Act α} {t : Nat} (hact : act.mover? = some t) {g : Agent α}
    (ht : M.agents[t]? = some g) (i : Nat) : M.write? i act = g.control.writes? i := by
  simp only [write?, hact, Option.bind_some, control?_eq ht]

theorem Step.published?_eq {act : Act α} {marks : List (Mark α)} (hs : Step M act M' marks)
    (i : Nat) :
    M'.memory.table.published? i =
      (M.memory.table.published? i).map fun old => (M.write? i act).getD old := by
  cases hs with
  | call | handOver => simp [write?, Act.mover?]
  | move hact ht hm => rw [write?_eq hact ht, hm.published?_eq_writes? i]

theorem published?_of_run {acts : List (Act α)} (hrun : M.run? acts = some M') (i : Nat) :
    M'.memory.table.published? i =
      (M.memory.table.published? i).map fun old => (M.writes i acts).getLast?.getD old := by
  induction acts generalizing M with
  | nil =>
    obtain rfl := Option.some.inj hrun
    simp [writes]
  | cons act acts ih =>
    obtain ⟨M₁, marks, hact, hrun⟩ := run?_cons_eq_some.1 hrun
    rw [ih hrun, (act?_step hact).published?_eq i, Option.map_map]
    congr 1
    funext old
    simp only [Function.comp_apply, writes, hact, List.getLast?_append]
    cases (M₁.writes i acts).getLast? <;> cases M.write? i act <;> rfl

theorem Exclusive.owned_of_uses (h : M.Exclusive) {t : Nat} {g : Agent α}
    (ht : M.agents[t]? = some g) {i : Nat} (hi : g.control.slot? = some i) :
    (M.memory.table.owner i).isSome :=
  (h.owned_iff i).2 (List.mem_flatMap.2 ⟨g, List.mem_of_getElem? ht, h.uses ht hi⟩)

theorem Exclusive.turns (h : M.Exclusive) {act : Act α} {marks : List (Mark α)}
    (hs : Step M act M' marks) (i : Nat) :
    Turns i (M.memory.table.owner i) marks (M'.memory.table.owner i) := by
  cases hs with
  | call | handOver => exact .nil
  | @move t g a act hact ht hm =>
    exact hm.turns (fun j hj => h.owned_of_uses ht (by rw [hj]; rfl)) i

/-- A run changes the owner of a slot as its log says. -/
theorem Exclusive.turns_of_run (h : M.Exclusive) {acts : List (Act α)}
    (hrun : M.run? acts = some M') (i : Nat) :
    Turns i (M.memory.table.owner i) (M.log acts) (M'.memory.table.owner i) := by
  induction acts generalizing M with
  | nil =>
    obtain rfl := Option.some.inj hrun
    exact .nil
  | cons act acts ih =>
    obtain ⟨M₁, marks, hact, hrun⟩ := run?_cons_eq_some.1 hrun
    have hs := act?_step hact
    simp only [log, hact]
    exact (h.turns hs i).append (ih (h.step hs) hrun)

/-! ## Free slots publish nothing -/

/-- Nothing is published by a free slot, nor by one that is about to be freed. -/
structure Blank (M : Machine α) : Prop where
  free : ∀ {i : Nat} {a : Address}, M.memory.table.owner i = none →
    M.memory.table.published? i = some a → a = .null
  leaving : ∀ {t i : Nat} {a : Address}, M.control? t = some (.disowning i) →
    M.memory.table.published? i = some a → a = .null

theorem owner_start (capacity count : Nat) (tokens : List Token) (i : Nat) :
    (start capacity count tokens : Machine α).memory.table.owner i = none := by
  simp only [start, Memory.start, SlotTable.free, SlotTable.owner, List.getElem?_replicate]
  split <;> rfl

theorem blank_start (capacity count : Nat) (tokens : List Token) :
    (start capacity count tokens : Machine α).Blank := by
  have hnull : ∀ {i : Nat} {a : Address},
      (start capacity count tokens : Machine α).memory.table.published? i = some a → a = .null := by
    intro i a ha
    simp only [start, Memory.start, SlotTable.free, SlotTable.published?, List.getElem?_replicate]
      at ha
    split at ha
    · exact (Option.some.inj ha).symm
    · cases ha
  exact ⟨fun _ => hnull, fun _ => hnull⟩

theorem Blank.step (hB : M.Blank) (hX : M.Exclusive) {act : Act α} {marks : List (Mark α)}
    (hs : Step M act M' marks) : M'.Blank := by
  cases hs with
  | @call t g command ht hc hslot hstack =>
    refine ⟨hB.free, fun hu => ?_⟩
    rcases (control?_set_eq_some ht).1 hu with ⟨-, hc'⟩ | ⟨-, hu⟩
    · cases command <;> cases hc'
    · exact hB.leaving hu
  | handOver ht hu hne hi hc hc' =>
    refine ⟨hB.free, fun hv => ?_⟩
    rw [control?_handOver ht hu] at hv
    exact hB.leaving hv
  | @move t g a act hact ht hm =>
    -- what a slot publishes either stays or has just been written through it by its holder
    have hpub : ∀ {i b}, a.memory.table.published? i = some b →
        g.control.writes? i = some b ∨
          g.control.writes? i = none ∧ M.memory.table.published? i = some b := by
      intro i b hb
      rw [hm.published?_eq_writes? i] at hb
      obtain ⟨old, hold, hb⟩ := Option.map_eq_some_iff.1 hb
      cases hw : g.control.writes? i with
      | none => exact .inr ⟨rfl, by rw [hw] at hb; exact hb ▸ hold⟩
      | some b' => exact .inl (by rw [hw] at hb; exact congrArg some hb)
    refine ⟨fun {i b} hfree hb => ?_, fun {u i b} hu hb => ?_⟩
    · rcases hpub hb with hw | ⟨-, hold⟩
      · have howned := hX.owned_of_uses ht (Control.slot?_of_writes? hw)
        rcases hm.owner_cases with ⟨-, howner⟩ | ⟨j, hc, -⟩ | ⟨j, hc, -⟩
        · rw [← howner, hfree] at howned
          cases howned
        · rw [hc] at hw; cases hw
        · rw [hc] at hw; cases hw
      · rcases hm.owner_cases with ⟨-, howner⟩ | ⟨j, -, -, -, -, howner⟩ | ⟨j, hc, -, -, howner⟩
        · exact hB.free ((howner i).symm.trans hfree) hold
        · rw [howner] at hfree
          split at hfree
          · cases hfree
          · exact hB.free hfree hold
        · rw [howner] at hfree
          split at hfree
          · rename_i hj
            subst hj
            exact hB.leaving (control?_eq_some.2 ⟨g, ht, hc⟩) hold
          · exact hB.free hfree hold
    · rcases (control?_set_eq_some ht).1 hu with ⟨-, hc⟩ | ⟨hne, hu⟩
      · have hw : g.control.writes? i = some .null := by
          rw [hm.eq_withdrawing hc]
          exact if_pos rfl
        rcases hpub hb with hw' | ⟨hw', -⟩
        · exact Option.some.inj (hw'.symm.trans hw)
        · rw [hw] at hw'; cases hw'
      · rcases hpub hb with hw | ⟨-, hold⟩
        · -- the thread that is about to free the slot holds it alone
          obtain ⟨g', hu', hc'⟩ := control?_eq_some.1 hu
          refine absurd (hX.unique ⟨g', hu', hX.uses hu' (by rw [hc']; rfl)⟩
            ⟨g, ht, hX.uses ht (Control.slot?_of_writes? hw)⟩) hne
        · exact hB.leaving hu hold

theorem exclusive_blank_of_reaches {capacity count : Nat} {tokens : List Token}
    (h : (start capacity count tokens : Machine α).Reaches M) : M.Exclusive ∧ M.Blank := by
  refine invariant_of_step (P := fun M => M.Exclusive ∧ M.Blank) ?_
    ⟨exclusive_start .., blank_start ..⟩ h
  rintro M act M' marks ⟨hX, hB⟩ hs
  exact ⟨hX.step hs, hB.step hX hs⟩

/-! ## Tenures -/

/-- Slot `i`, claimed by the act that led to machine `M`, is still in the hands of the claimant
after the run `acts` from there to `M'`. -/
structure Tenure (i : Nat) (token : Token) (M : Machine α) (acts : List (Act α)) (M' : Machine α) :
    Prop where
  owned : M'.memory.table.owner i = some token
  single : M'.held.count i = 1
  /-- Only the thread that has the handle is in the middle of an operation on the slot. -/
  uses : ∀ {t : Nat} {c : Control α}, M'.control? t = some c → c.slot? = some i → M'.Holds t i
  unclaimed : ∀ k, .claimed k i ∉ M.log acts
  published : M'.memory.table.published? i = some ((M.writes i acts).getLast?.getD .null)
  /-- The next write is made by the holder, as it protects, clears or releases. -/
  writes : ∀ {act : Act α} {a : Address}, M'.write? i act = some a →
    ∃ t, act.mover? = some t ∧ M'.Holds t i

theorem Blank.of_claimed (hB : M.Blank) {act : Act α} {marks : List (Mark α)}
    (hs : Step M act M' marks) {i : Nat} {token : Token} (hclaim : .claimed token i ∈ marks) :
    M.memory.table.owner i = none ∧ M'.memory.table.owner i = some token ∧
      M'.memory.table.published? i = some .null := by
  cases hs with
  | call | handOver => cases hclaim
  | @move t g a act hact ht hm =>
    rcases hm.of_mem_marks hclaim rfl with ⟨hx, hc, hlt, hfree, howner⟩ | ⟨hx, -⟩
    · obtain ⟨rfl, -⟩ := Mark.claimed.inj hx
      refine ⟨hfree, howner, ?_⟩
      obtain ⟨b, hb⟩ : ∃ b, M.memory.table.published? i = some b := by
        simp [SlotTable.published?, hlt]
      obtain rfl := hB.free hfree hb
      rw [hm.published?_eq_writes? i, hb, hc]
      rfl
    · cases hx

/-- A claim of a slot that nobody holds begins a tenure, which lasts until a release is seen. -/
theorem Exclusive.tenure (hX : M.Exclusive) (hB : M.Blank) {act : Act α} {M₁ : Machine α}
    {marks : List (Mark α)} (hs : Step M act M₁ marks) {i : Nat} {token : Token}
    (hclaim : .claimed token i ∈ marks) {acts : List (Act α)} (hrun : M₁.run? acts = some M')
    (hheld : ∀ o, .released o i ∉ M₁.log acts) : Tenure i token M₁ acts M' := by
  obtain ⟨-, howner₁, hpub₁⟩ := hB.of_claimed hs hclaim
  have hX₁ := hX.step hs
  have hX' : M'.Exclusive := invariant_of_step (fun h hs => h.step hs) hX₁ ⟨acts, hrun⟩
  have hturns := hX₁.turns_of_run hrun i
  obtain ⟨howner, hlog⟩ := hturns.unreleased howner₁ hheld
  have hheld' : i ∈ M'.held := (hX'.owned_iff i).1 (by rw [howner]; rfl)
  have huses : ∀ {t : Nat} {c : Control α}, M'.control? t = some c → c.slot? = some i →
      M'.Holds t i := by
    intro t c hc hi
    obtain ⟨g, hg, rfl⟩ := control?_eq_some.1 hc
    exact ⟨g, hg, hX'.uses hg hi⟩
  refine ⟨howner, List.count_eq_one_of_mem hX'.nodup hheld', huses, ?_, ?_, ?_⟩
  · intro k hk
    exact hlog _ hk rfl
  · rw [published?_of_run hrun i, hpub₁]
    rfl
  · intro act a ha
    obtain ⟨c, hc, hw⟩ := Option.bind_eq_some_iff.1 ha
    obtain ⟨t, ht, hc⟩ := Option.bind_eq_some_iff.1 hc
    exact ⟨t, ht, huses hc (Control.slot?_of_writes? hw)⟩

theorem Exclusive.not_holds (hX : M.Exclusive) {i : Nat} (hfree : M.memory.table.owner i = none)
    (t : Nat) : ¬ M.Holds t i := by
  rintro ⟨g, ht, hi⟩
  have howned := (hX.owned_iff i).2 (List.mem_flatMap.2 ⟨g, List.mem_of_getElem? ht, hi⟩)
  rw [hfree] at howned
  cases howned

/-- Along every run: a claim finds a slot that no handle has, and begins a tenure of the slot that
lasts until its release; and a release is made by a thread that holds the slot, and shows the token
of the last claim of the slot. -/
theorem slot_tenure {capacity count : Nat} {tokens : List Token} {before : List (Act α)}
    (hbefore : (start capacity count tokens : Machine α).run? before = some M) {act : Act α}
    {M₁ : Machine α} {marks : List (Mark α)} (hact : M.act? act = some (M₁, marks)) (i : Nat) :
    (∀ token, .claimed token i ∈ marks →
      (∀ t, ¬ M.Holds t i) ∧
      ∀ acts M', M₁.run? acts = some M' → (∀ o, .released o i ∉ M₁.log acts) →
        Tenure i token M₁ acts M') ∧
    ∀ o, .released o i ∈ marks →
      (∃ t, act.mover? = some t ∧ M.Holds t i) ∧
      ∃ token A B, o = some token ∧
        (start capacity count tokens : Machine α).log before = A ++ .claimed token i :: B ∧
        ∀ x ∈ B, Mark.slot? x ≠ some i := by
  obtain ⟨hX, hB⟩ := exclusive_blank_of_reaches ⟨before, hbefore⟩
  have hs := act?_step hact
  refine ⟨fun token hclaim => ⟨?_, fun acts M' hrun hheld => ?_⟩, fun o hrelease => ?_⟩
  · exact hX.not_holds (hB.of_claimed hs hclaim).1
  · exact hX.tenure hB hs hclaim hrun hheld
  · cases hs with
    | call | handOver => cases hrelease
    | @move t g a act hmover ht hm =>
      rcases hm.of_mem_marks hrelease rfl with ⟨hx, -⟩ | ⟨hx, hc⟩
      · cases hx
      · have huse : g.control.slot? = some i := by rw [hc]; rfl
        obtain ⟨token, htoken⟩ := Option.isSome_iff_exists.1 (hX.owned_of_uses ht huse)
        obtain ⟨rfl, -⟩ := Mark.released.inj hx
        have hturns := (exclusive_start capacity count tokens).turns_of_run hbefore i
        rcases hturns.last_claim htoken with ⟨hstart, -⟩ | ⟨A, B, hlog, hB⟩
        · rw [owner_start] at hstart
          cases hstart
        · exact ⟨⟨t, hmover, g, ht, hX.uses ht huse⟩, token, A, B, htoken, hlog, hB⟩

/-- The second thread begins to look for a slot while the first is still releasing the only one. The
release shows the token of the first. The tenure of the second begins behind it, and what it
publishes stays. -/
theorem tenure_after_release :
    ∃ (before acts : List (Act Nat)) (M₀ M M₁ M' : Machine Nat),
      (start 1 0 [7, 9]).run? before = some M₀ ∧
      M₀.act? (.step 0) = some (M, [.released (some 7) 0, .returned .done]) ∧
      (∃ A B, (start 1 0 [7, 9]).log before = A ++ .claimed 7 0 :: B ∧
        ∀ x ∈ B, Mark.slot? x ≠ some 0) ∧
      M.act? (.step 1) = some (M₁, [.claimed 9 0, .returned (.acquired 0)]) ∧
      (∀ t, ¬ M.Holds t 0) ∧ M₁.run? acts = some M' ∧ (∀ o, .released o 0 ∉ M₁.log acts) ∧
      Tenure 0 9 M₁ acts M' ∧ M'.memory.table.published? 0 = some (.block 6) := by
  let before : List (Act Nat) := [.call 0 .acquire, .step 0, .call 0 (.publish 0 (.block 5)),
    .step 0, .call 0 (.release 0), .call 1 .acquire, .step 0]
  let acts : List (Act Nat) := [.call 1 (.publish 0 (.block 6)), .step 1]
  obtain ⟨M₀, M, M₁, M', hbefore, hrelease, hclaim, hrun, hlog, hwrites⟩ : ∃ M₀ M M₁ M',
      (start 1 0 [7, 9] : Machine Nat).run? before = some M₀ ∧
      M₀.act? (.step 0) = some (M, [.released (some 7) 0, .returned .done]) ∧
      M.act? (.step 1) = some (M₁, [.claimed 9 0, .returned (.acquired 0)]) ∧
      M₁.run? acts = some M' ∧ M₁.log acts = [.returned .done] ∧
      M₁.writes 0 acts = [.block 6] :=
    ⟨_, _, _, _, rfl, rfl, rfl, rfl, rfl, rfl⟩
  have hheld : ∀ o, .released o 0 ∉ M₁.log acts := by
    intro o ho
    rw [hlog] at ho
    cases List.mem_singleton.1 ho
  obtain ⟨-, hreleases⟩ := slot_tenure hbefore hrelease 0
  obtain ⟨-, token, A, B, htoken, hAB⟩ := hreleases (some 7) List.mem_cons_self
  obtain rfl := Option.some.inj htoken
  have hrun₁ := run?_concat_eq_some.2 ⟨M₀, _, hbefore, hrelease⟩
  obtain ⟨hclaims, -⟩ := slot_tenure hrun₁ hclaim 0
  obtain ⟨hnobody, htenure⟩ := hclaims 9 List.mem_cons_self
  have ht := htenure acts M' hrun hheld
  refine ⟨before, acts, M₀, M, M₁, M', hbefore, hrelease, ⟨A, B, hAB⟩, hclaim, hnobody, hrun, hheld,
    ht, ?_⟩
  rw [ht.published, hwrites]
  rfl

end Machine

end HazardLifo.Interleaved
