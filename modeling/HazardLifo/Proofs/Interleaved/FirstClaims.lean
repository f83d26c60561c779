import HazardLifo.Proofs.Interleaved.Exhaustion

/-!
# First claims

Any number of threads look for a slot at the same time, and none gives one back. Whatever the order
of their tests, the slots that are handed out are the first free ones, as many as threads have asked
(`first_claims`).

The reason is that an attempt only passes slots that are owned, and these stay owned. So the slot
that an attempt claims is the first free slot of the table at that instant
(`Machine.freeSlots_of_claim`), and who comes to the end of the table leaves no free slot behind.
`Attempt` lists what an act can do to the slots and the attempts, and `Allotted` says what a run has
handed out so far.
-/

namespace HazardLifo.Interleaved

variable {α : Type}

namespace Occurrence

def asks : Occurrence α → Bool
  | call _ .acquire => true
  | _ => false

def grant? : Occurrence α → Option (Nat × Nat)
  | reply t (.acquired i) => some (t, i)
  | _ => none

/-- The capacity that a thread is told which gets no slot. -/
def refusal? : Occurrence α → Option Nat
  | reply _ (.exhausted c) => some c
  | _ => none

end Occurrence

theorem Move.test?_eq_none {m : Memory α} {g : Agent α} {a : Advance α} (hm : Move m g a)
    (hc : g.control.test? = none) : a.agent.control.test? = none := by
  cases hm with
  | quiet hq => cases hq <;> first | rfl | cases hc
  | publish hp => cases hp <;> rfl
  | claim => cases hc
  | _ => rfl

theorem Move.token_eq {m : Memory α} {g : Agent α} {a : Advance α} (hm : Move m g a) :
    a.agent.token = g.token := by
  cases hm <;> rfl

theorem Control.trying_of_test? {c : Control α} {i : Nat} (h : c.test? = some i) : c = .trying i := by
  cases c <;> cases h
  rfl

theorem Move.attempt_eq_none {m : Memory α} {g : Agent α} {a : Advance α} (hm : Move m g a)
    (hc : g.control.test? = none) (u : Nat) :
    (Occurrence.ofReply? u (a.marks.findSome? Mark.reply?)).asks = false ∧
    (Occurrence.ofReply? u (a.marks.findSome? Mark.reply?)).grant? = none ∧
    (Occurrence.ofReply? u (a.marks.findSome? Mark.reply?)).refusal? = none := by
  cases hr : a.marks.findSome? Mark.reply? with
  | none => exact ⟨rfl, rfl, rfl⟩
  | some r =>
    have hnot : ¬ ∃ i, g.control = .trying i := by
      rintro ⟨i, hi⟩
      rw [hi] at hc
      cases hc
    refine ⟨rfl, ?_, ?_⟩
    · cases r with
      | acquired i => exact absurd (hm.trying_of_reply hr (.inl ⟨i, rfl⟩)) hnot
      | _ => rfl
    · cases r with
      | exhausted c => exact absurd (hm.trying_of_reply hr (.inr ⟨c, rfl⟩)) hnot
      | _ => rfl

namespace Machine

variable {M M' M₀ M₁ : Machine α} {act : Act α} {acts : List (Act α)} {marks : List (Mark α)}
  {h : List (Occurrence α)} {x : Occurrence α} {t i j n : Nat}

def freeSlots (M : Machine α) : List Nat :=
  (List.range M.memory.table.capacity).filter fun i => (M.memory.table.owner i).isNone

def token? (M : Machine α) (t : Nat) : Option Token := M.agents[t]?.map (·.token)

theorem Step.token?_eq (hs : Step M act M' marks) (t : Nat) : M'.token? t = M.token? t := by
  have hset : ∀ {agents : List (Agent α)} {u : Nat} {g g' : Agent α}, agents[u]? = some g →
      g'.token = g.token → (agents.set u g')[t]?.map (·.token) = agents[t]?.map (·.token) := by
    intro agents u g g' hu htoken
    rw [getElem?_agents_set hu]
    split
    · rename_i htu
      rw [htu, hu]
      simp [htoken]
    · rfl
  cases hs with
  | call hu => exact hset hu rfl
  | move hmover hu hm => exact hset hu hm.token_eq
  | @handOver u v i g g' hu hv hne =>
    have hv' : (M.agents.set u { g with held := g.held.erase i })[v]? = some g' := by
      rwa [getElem?_agents_set hu, if_neg hne.symm]
    have hreceived : ({ g' with held := i :: g'.held } : Agent α).token = g'.token := rfl
    exact (hset hv' hreceived).trans (hset hu rfl)

theorem mem_freeSlots :
    i ∈ M.freeSlots ↔ i < M.memory.table.capacity ∧ M.memory.table.owner i = none := by
  simp [freeSlots]

theorem freeSlots_eq (hcap : M'.memory.table.capacity = M.memory.table.capacity)
    (howner : ∀ j, M'.memory.table.owner j = M.memory.table.owner j) :
    M'.freeSlots = M.freeSlots := by
  simp only [freeSlots, hcap, howner]

/-- A claimed slot before which all are owned was the first free one. -/
theorem freeSlots_of_claim {token : Token}
    (hcap : M'.memory.table.capacity = M.memory.table.capacity)
    (hi : i < M.memory.table.capacity) (hfree : M.memory.table.owner i = none)
    (hpassed : ∀ j < i, (M.memory.table.owner j).isSome)
    (howner : ∀ j, M'.memory.table.owner j = if i = j then some token else M.memory.table.owner j) :
    M.freeSlots = i :: M'.freeSlots := by
  obtain ⟨l₁, l₂, hrange⟩ := List.append_of_mem (List.mem_range.2 hi)
  have hsorted := List.pairwise_lt_range (n := M.memory.table.capacity)
  rw [hrange, List.pairwise_append, List.pairwise_cons] at hsorted
  obtain ⟨-, ⟨habove, -⟩, hbelow⟩ := hsorted
  have howned : ∀ j ∈ l₁, (M.memory.table.owner j).isSome := fun j hj =>
    hpassed j (hbelow j hj i List.mem_cons_self)
  have hnil : l₁.filter (fun j => (M.memory.table.owner j).isNone) = [] := by
    refine List.filter_eq_nil_iff.2 fun j hj => ?_
    simpa [Option.isSome_iff_ne_none] using howned j hj
  have hnil' : l₁.filter (fun j => (M'.memory.table.owner j).isNone) = [] := by
    refine List.filter_eq_nil_iff.2 fun j hj => ?_
    have hne : i ≠ j := Nat.ne_of_gt (hbelow j hj i List.mem_cons_self)
    simpa [howner, if_neg hne, Option.isSome_iff_ne_none] using howned j hj
  have hrest : l₂.filter (fun j => (M'.memory.table.owner j).isNone) =
      l₂.filter (fun j => (M.memory.table.owner j).isNone) := by
    refine List.filter_congr fun j hj => ?_
    rw [howner, if_neg (Nat.ne_of_lt (habove j hj))]
  have howner_i : M'.memory.table.owner i = some token := by rw [howner, if_pos rfl]
  unfold freeSlots
  rw [hcap, hrange]
  simp [hnil, hnil', hrest, hfree, howner_i]

/-! ## What an act does to slots and attempts -/

/-- What an act that gives no slot back does to the slots and to the attempts under way, with what
is seen of it. -/
inductive Attempt (M : Machine α) : Occurrence α → Machine α → Prop where
  | ask {t : Nat} {M' : Machine α}
      (hcontrol : ∀ u, M'.control? u = if u = t then some (.trying 0) else M.control? u)
      (howner : ∀ j, M'.memory.table.owner j = M.memory.table.owner j)
      (hcount : M'.tests.length = M.tests.length + 1) : Attempt M (.call t .acquire) M'
  | refuse {t i : Nat} {M' : Machine α} (ht : M.control? t = some (.trying i))
      (hend : M.memory.table.capacity ≤ i)
      (hcontrol : ∀ u, M'.control? u = if u = t then some .idle else M.control? u)
      (howner : ∀ j, M'.memory.table.owner j = M.memory.table.owner j)
      (hcount : M'.tests.length + 1 = M.tests.length) :
      Attempt M (.reply t (.exhausted M.memory.table.capacity)) M'
  | pass {t i : Nat} {M' : Machine α} (ht : M.control? t = some (.trying i))
      (howned : (M.memory.table.owner i).isSome)
      (hcontrol : ∀ u, M'.control? u = if u = t then some (.trying (i + 1)) else M.control? u)
      (howner : ∀ j, M'.memory.table.owner j = M.memory.table.owner j)
      (hcount : M'.tests.length = M.tests.length) : Attempt M .silent M'
  | claim {t i : Nat} {token : Token} {M' : Machine α} (ht : M.control? t = some (.trying i))
      (hi : i < M.memory.table.capacity) (hfree : M.memory.table.owner i = none)
      (htoken : M.token? t = some token)
      (hcontrol : ∀ u, M'.control? u = if u = t then some .idle else M.control? u)
      (howner : ∀ j, M'.memory.table.owner j =
        if i = j then some token else M.memory.table.owner j)
      (hcount : M'.tests.length + 1 = M.tests.length) : Attempt M (.reply t (.acquired i)) M'
  | other {x : Occurrence α} {M' : Machine α} (hasks : x.asks = false) (hgrant : x.grant? = none)
      (hrefusal : x.refusal? = none)
      (hcontrol : ∀ u i, M'.control? u = some (.trying i) → M.control? u = some (.trying i))
      (howner : ∀ j, M'.memory.table.owner j = M.memory.table.owner j)
      (hcount : M'.tests.length = M.tests.length) : Attempt M x M'

theorem length_tests_set {g : Agent α} (ht : M.agents[t]? = some g) (m : Memory α) (g' : Agent α) :
    (⟨m, M.agents.set t g'⟩ : Machine α).tests.length + g.control.test?.toList.length =
      M.tests.length + g'.control.test?.toList.length := by
  have hperm := (flatMap_set (·.control.test?.toList) ht g').length_eq
  simp only [List.length_append] at hperm
  exact hperm

/-- Every act that gives no slot back is one of these. -/
theorem Exclusive.attempt (hex : M.Exclusive) (hs : Step M act M' marks)
    (hkept : ∀ o i, .released o i ∉ marks) : Attempt M (act.occurrence marks) M' := by
  have hturns := fun i => hex.turns hs i
  cases hs with
  | @call t g command ht hidle =>
    have hcount := length_tests_set ht M.memory (g.goTo command.entry)
    have hcontrol := fun u => control?_set ht M.memory (g.goTo command.entry) u
    have hnone : g.control.test? = none := by rw [hidle]; rfl
    rw [hnone] at hcount
    by_cases hacquire : command = .acquire
    · subst hacquire
      exact .ask hcontrol (fun _ => rfl) hcount
    · have hentry : (g.goTo command.entry).control.test? = none := by
        cases command <;> first | rfl | exact absurd rfl hacquire
      refine .other ?_ rfl rfl (fun u i hu => ?_) (fun _ => rfl) ?_
      · cases command <;> first | rfl | exact absurd rfl hacquire
      · have hu' := (hcontrol u).symm.trans hu
        split at hu'
        · rw [Option.some.inj hu'] at hentry
          cases hentry
        · exact hu'
      · rw [hentry] at hcount
        exact hcount
  | @move t g a act hmover ht hm =>
    have hcount := length_tests_set ht a.memory a.agent
    have hcontrol := fun u => control?_set ht a.memory a.agent u
    rw [Act.occurrence_of_mover? hmover]
    cases htest : g.control.test? with
    | some i =>
      have hc := Control.trying_of_test? htest
      have ht' := control?_eq_some.2 ⟨g, ht, hc⟩
      rw [htest] at hcount
      rcases hm.of_trying hc with ⟨hnone, rfl⟩ | ⟨howned, rfl⟩ | ⟨hi, hfree, rfl⟩
      · exact .refuse ht' (List.getElem?_eq_none_iff.1 hnone) hcontrol (fun _ => rfl) hcount
      · refine .pass ht' howned hcontrol (fun _ => rfl) (Nat.add_right_cancel hcount)
      · have htoken : M.token? t = some g.token := by simp [token?, ht]
        refine .claim ht' hi hfree htoken hcontrol (fun j => ?_) hcount
        simp only [Memory.mapTable, SlotTable.owner_modify]
        split
        · rename_i hij
          subst hij
          rw [List.getElem?_eq_getElem hi]
          rfl
        · rfl
    | none =>
      have htest' := hm.test?_eq_none htest
      obtain ⟨hasks, hgrant, hrefusal⟩ := hm.attempt_eq_none htest t
      rw [htest, htest'] at hcount
      refine .other hasks hgrant hrefusal (fun u i hu => ?_) (fun j => ?_) hcount
      · have hu' := (hcontrol u).symm.trans hu
        split at hu'
        · rw [Option.some.inj hu'] at htest'
          cases htest'
        · exact hu'
      · rcases hm.owner_cases with ⟨-, howner⟩ | ⟨i, hc, -⟩ | ⟨i, hc, -, -, howner⟩
        · exact howner j
        · rw [hc] at htest
          cases htest
        · -- a slot given back would show
          have howned := hex.owned_of_uses ht (i := i) (by rw [hc]; rfl)
          obtain ⟨token, htoken⟩ := Option.isSome_iff_exists.1 howned
          obtain ⟨hkept', -⟩ := (hturns i).unreleased htoken fun o => hkept o i
          rw [show a.memory.table.owner i = none by rw [howner, if_pos rfl]] at hkept'
          cases hkept'
  | @handOver u v i g g' hu hv hne hi hc hc' =>
    refine .other rfl rfl rfl (fun w j hw => ?_) (fun _ => rfl) ?_
    · rwa [control?_handOver hu hv] at hw
    · have hv' : (M.agents.set u { g with held := g.held.erase i })[v]? = some g' := by
        rwa [getElem?_agents_set hu, if_neg hne.symm]
      have hgive := length_tests_set hu M.memory { g with held := g.held.erase i }
      have htake := length_tests_set (M := ⟨M.memory, _⟩) hv' M.memory
        { g' with held := i :: g'.held }
      dsimp only at hgive htake
      omega

/-! ## Runs without releases -/

/-- After a run from `M₀` to `M`, of which `h` is seen: which slots are owned, which have been
handed out, and how the attempts under way and the answered ones make up those that were asked for.
-/
structure Allotted (M₀ : Machine α) (h : List (Occurrence α)) (M : Machine α) : Prop where
  capacity : M.memory.table.capacity = M₀.memory.table.capacity
  token : ∀ t, M.token? t = M₀.token? t
  kept : ∀ i, (M₀.memory.table.owner i).isSome → M.memory.table.owner i = M₀.memory.table.owner i
  granted : ((h.filterMap Occurrence.grant?).map Prod.snd).Perm
    (M₀.freeSlots.take (h.filterMap Occurrence.grant?).length)
  free : M.freeSlots = M₀.freeSlots.drop (h.filterMap Occurrence.grant?).length
  owner : ∀ t i, (t, i) ∈ h.filterMap Occurrence.grant? →
    ∃ token, M₀.token? t = some token ∧ M.memory.table.owner i = some token
  /-- The slots that an attempt has passed are owned. -/
  passed : ∀ t i, M.control? t = some (.trying i) → ∀ j < i, (M.memory.table.owner j).isSome
  refused : ∀ c ∈ h.filterMap Occurrence.refusal?, c = M₀.memory.table.capacity ∧ M.freeSlots = []
  balance : h.countP Occurrence.asks =
    (h.filterMap Occurrence.grant?).length + (h.filterMap Occurrence.refusal?).length + M.tests.length

namespace Allotted

theorem refl (htests : M.tests = []) : Allotted M [] M where
  capacity := rfl
  token _ := rfl
  kept _ _ := rfl
  granted := List.Perm.refl _
  free := rfl
  owner _ _ hmem := by cases hmem
  passed t i ht := by
    have hmem := mem_tests ht
    rw [htests] at hmem
    cases hmem
  refused _ hmem := by cases hmem
  balance := by simp [htests]

/-- An act after which every slot is owned as before. -/
theorem of_owner_eq (ha : Allotted M₀ h M)
    (hcap : M'.memory.table.capacity = M.memory.table.capacity)
    (htoken : ∀ t, M'.token? t = M.token? t)
    (howner : ∀ j, M'.memory.table.owner j = M.memory.table.owner j) (hgrant : x.grant? = none)
    (hpassed : ∀ t i, M'.control? t = some (.trying i) →
      ∀ j < i, (M.memory.table.owner j).isSome)
    (hrefused : ∀ c, x.refusal? = some c → c = M₀.memory.table.capacity ∧ M.freeSlots = [])
    (hbalance : (if x.asks then 1 else 0) + M.tests.length =
      x.refusal?.toList.length + M'.tests.length) : Allotted M₀ (h ++ [x]) M' := by
  have hgrants : (h ++ [x]).filterMap Occurrence.grant? = h.filterMap Occurrence.grant? := by
    simp [List.filterMap_append, hgrant]
  have hrefusals : (h ++ [x]).filterMap Occurrence.refusal? =
      h.filterMap Occurrence.refusal? ++ x.refusal?.toList := by
    rw [List.filterMap_append]
    cases hx : x.refusal? <;> simp [hx]
  have hfree := freeSlots_eq hcap howner
  refine ⟨hcap.trans ha.capacity, fun t => (htoken t).trans (ha.token t),
    fun i hi => (howner i).trans (ha.kept i hi), ?_, ?_, fun t i hmem => ?_, fun t i ht j hj => ?_,
    fun c hc => ?_, ?_⟩
  · rw [hgrants]
    exact ha.granted
  · rw [hgrants, hfree]
    exact ha.free
  · rw [hgrants] at hmem
    rw [howner]
    exact ha.owner t i hmem
  · rw [howner]
    exact hpassed t i ht j hj
  · rw [hfree]
    rw [hrefusals, List.mem_append, Option.mem_toList] at hc
    rcases hc with hc | hc
    · exact ha.refused c hc
    · exact hrefused c hc
  · have hold := ha.balance
    rw [hgrants, hrefusals, List.countP_append, List.countP_singleton, List.length_append]
    omega

/-- The claim of a slot: it was the first free one. -/
theorem claim (ha : Allotted M₀ h M)
    (hcap : M'.memory.table.capacity = M.memory.table.capacity)
    (htokens : ∀ t, M'.token? t = M.token? t) {token : Token}
    (ht : M.control? t = some (.trying i)) (hi : i < M.memory.table.capacity)
    (hfree : M.memory.table.owner i = none) (htoken : M.token? t = some token)
    (hcontrol : ∀ u, M'.control? u = if u = t then some .idle else M.control? u)
    (howner : ∀ j, M'.memory.table.owner j = if i = j then some token else M.memory.table.owner j)
    (hcount : M'.tests.length + 1 = M.tests.length) :
    Allotted M₀ (h ++ [.reply t (.acquired i)]) M' := by
  have hgrants : (h ++ [Occurrence.reply t (.acquired i)]).filterMap Occurrence.grant? =
      h.filterMap Occurrence.grant? ++ [(t, i)] := by
    simp [List.filterMap_append, Occurrence.grant?]
  have hrefusals : (h ++ [Occurrence.reply t (.acquired i)]).filterMap Occurrence.refusal? =
      h.filterMap Occurrence.refusal? := by
    simp [List.filterMap_append, Occurrence.refusal?]
  have hstays : ∀ {j k}, M.memory.table.owner j = some k → M'.memory.table.owner j = some k := by
    intro j k hj
    rw [howner, if_neg]
    · exact hj
    · rintro rfl
      rw [hfree] at hj
      cases hj
  have hfirst := freeSlots_of_claim hcap hi hfree (ha.passed t i ht) howner
  have hdrop : M₀.freeSlots.drop (h.filterMap Occurrence.grant?).length = i :: M'.freeSlots := by
    rw [← ha.free]
    exact hfirst
  refine ⟨hcap.trans ha.capacity, fun u => (htokens u).trans (ha.token u), fun j hj => ?_, ?_, ?_,
    fun u j hmem => ?_, fun u j hu l hl => ?_, fun c hc => ?_, ?_⟩
  · obtain ⟨k, hk⟩ := Option.isSome_iff_exists.1 hj
    exact (hstays ((ha.kept j hj).trans hk)).trans hk.symm
  · have hnext : M₀.freeSlots[(h.filterMap Occurrence.grant?).length]? = some i := by
      have hhead := congrArg (·[0]?) hdrop
      simpa using hhead
    rw [hgrants, List.map_append, List.length_append, List.length_singleton, List.take_add_one,
      hnext]
    exact ha.granted.append_right _
  · rw [hgrants, List.length_append, List.length_singleton, ← List.tail_drop, hdrop, List.tail_cons]
  · rw [hgrants, List.mem_append, List.mem_singleton] at hmem
    rcases hmem with hmem | hmem
    · obtain ⟨k, hk, hj⟩ := ha.owner u j hmem
      exact ⟨k, hk, hstays hj⟩
    · obtain ⟨rfl, rfl⟩ := Prod.mk.inj hmem
      exact ⟨token, (ha.token u).symm.trans htoken, by rw [howner, if_pos rfl]⟩
  · rw [hcontrol] at hu
    split at hu
    · cases hu
    · obtain ⟨k, hk⟩ := Option.isSome_iff_exists.1 (ha.passed u j hu l hl)
      rw [hstays hk]
      rfl
  · -- nobody has been refused yet, since a slot was free
    rw [hrefusals] at hc
    obtain ⟨-, hnone⟩ := ha.refused c hc
    rw [hnone] at hfirst
    cases hfirst
  · have hold := ha.balance
    rw [hgrants, hrefusals, List.countP_append, List.countP_singleton, List.length_append,
      List.length_singleton]
    simp only [Occurrence.asks, Bool.false_eq_true, if_false]
    omega

theorem step (ha : Allotted M₀ h M) (hattempt : Attempt M x M')
    (hcap : M'.memory.table.capacity = M.memory.table.capacity)
    (htoken : ∀ t, M'.token? t = M.token? t) : Allotted M₀ (h ++ [x]) M' := by
  cases hattempt with
  | @ask t M' hcontrol howner hcount =>
    refine ha.of_owner_eq hcap htoken howner rfl (fun u i hu j hj => ?_) (fun c hc => ?_) ?_
    · rw [hcontrol] at hu
      split at hu
      · cases hu
        exact absurd hj (Nat.not_lt_zero j)
      · exact ha.passed u i hu j hj
    · cases hc
    · simp only [Occurrence.asks, Occurrence.refusal?, if_true, Option.toList_none, List.length_nil]
      omega
  | @refuse t i M' ht hend hcontrol howner hcount =>
    refine ha.of_owner_eq hcap htoken howner rfl (fun u i hu j hj => ?_) (fun c hc => ?_) ?_
    · rw [hcontrol] at hu
      split at hu
      · cases hu
      · exact ha.passed u i hu j hj
    · -- the attempt has passed every slot
      refine ⟨(Option.some.inj hc).symm.trans ha.capacity, ?_⟩
      refine List.eq_nil_iff_forall_not_mem.2 fun j hj => ?_
      obtain ⟨hlt, hnone⟩ := mem_freeSlots.1 hj
      have howned := ha.passed t i ht j (Nat.lt_of_lt_of_le hlt hend)
      rw [hnone] at howned
      cases howned
    · simp only [Occurrence.asks, Occurrence.refusal?, Bool.false_eq_true, if_false,
        Option.toList_some, List.length_singleton]
      omega
  | @pass t i M' ht howned hcontrol howner hcount =>
    refine ha.of_owner_eq hcap htoken howner rfl (fun u l hu j hj => ?_) (fun c hc => ?_) ?_
    · rw [hcontrol] at hu
      split at hu
      · obtain rfl : i + 1 = l := Control.trying.inj (Option.some.inj hu)
        rcases Nat.lt_succ_iff_lt_or_eq.1 hj with hlt | rfl
        · exact ha.passed t i ht j hlt
        · exact howned
      · exact ha.passed u l hu j hj
    · cases hc
    · simp only [Occurrence.asks, Occurrence.refusal?, Bool.false_eq_true, if_false,
        Option.toList_none, List.length_nil]
      omega
  | claim ht hi hfree htoken' hcontrol howner hcount =>
    exact ha.claim hcap htoken ht hi hfree htoken' hcontrol howner hcount
  | other hasks hgrant hrefusal hcontrol howner hcount =>
    refine ha.of_owner_eq hcap htoken howner hgrant (fun u i hu j hj => ?_) (fun c hc => ?_) ?_
    · exact ha.passed u i (hcontrol u i hu) j hj
    · rw [hrefusal] at hc
      cases hc
    · simp only [hasks, hrefusal, Bool.false_eq_true, if_false, Option.toList_none, List.length_nil]
      omega

theorem run (ha : Allotted M₀ h M) (hex : M.Exclusive) (hrun : M.run? acts = some M')
    (hkept : ∀ o i, .released o i ∉ M.log acts) : Allotted M₀ (h ++ M.history acts) M' := by
  induction acts generalizing M h with
  | nil =>
    obtain rfl := Option.some.inj hrun
    rw [history, List.append_nil]
    exact ha
  | cons act acts ih =>
    obtain ⟨M₁, marks, hact, hrun⟩ := run?_cons_eq_some.1 hrun
    have hs := act?_step hact
    simp only [log, hact, List.mem_append, not_or] at hkept
    have hattempt := hex.attempt hs fun o i => (hkept o i).1
    have hrest := ih (ha.step hattempt hs.capacity_eq hs.token?_eq) (hex.step hs) hrun
      fun o i => (hkept o i).2
    simp only [history, hact]
    rwa [List.append_assoc, List.singleton_append] at hrest

end Allotted

/-! ## Answers -/

/-- A thread that tests slot `i` is answered, or goes on by one slot with each act of its own. -/
theorem answered_or_trying (hrun : M.run? acts = some M') (ht : M.control? t = some (.trying i))
    (hi : i ≤ M.memory.table.capacity) :
    (∃ m r, FirstReply (M.history acts) t m r ∧
      (r = .exhausted M.memory.table.capacity ∨ ∃ j, r = .acquired j)) ∨
    (M'.control? t = some (.trying (i + acts.countP (·.mover? = some t))) ∧
      i + acts.countP (·.mover? = some t) ≤ M.memory.table.capacity) := by
  induction acts generalizing M i with
  | nil =>
    obtain rfl := Option.some.inj hrun
    exact .inr ⟨ht, hi⟩
  | cons act acts ih =>
    obtain ⟨M₁, marks, hact, hrun⟩ := run?_cons_eq_some.1 hrun
    have hs := act?_step hact
    have hhistory : M.history (act :: acts) = act.occurrence marks :: M₁.history acts := by
      simp only [history, hact]
    rw [hhistory]
    by_cases hmover : act.mover? = some t
    · have hcount : (act :: acts).countP (·.mover? = some t) =
          acts.countP (·.mover? = some t) + 1 := by
        simp [hmover]
      rcases hs.of_trying hmover ht with ⟨-, hx⟩ | ⟨howned, ht₁, hx⟩ | hx
      · refine .inl ⟨0, _, ⟨?_, fun j r' hj => absurd hj (Nat.not_lt_zero j)⟩, .inl rfl⟩
        rw [hx]
        rfl
      · have hlt : i < M.memory.table.capacity := SlotTable.owner_isSome_lt howned
        rcases ih hrun ht₁ (by rw [hs.capacity_eq]; exact hlt) with ⟨m, r, hm, hr⟩ | ⟨ht', hle⟩
        · rw [hs.capacity_eq] at hr
          exact .inl ⟨m + 1, r, hm.cons (by simp [hx]), hr⟩
        · rw [hs.capacity_eq] at hle
          rw [hcount, Nat.add_comm _ 1, ← Nat.add_assoc]
          exact .inr ⟨ht', hle⟩
      · refine .inl ⟨0, _, ⟨?_, fun j r' hj => absurd hj (Nat.not_lt_zero j)⟩, .inr ⟨i, rfl⟩⟩
        rw [hx]
        rfl
    · have hcount : (act :: acts).countP (·.mover? = some t) =
          acts.countP (·.mover? = some t) := by
        simp [hmover]
      have ht₁ := (hs.control?_eq hmover (by simp [ht])).trans ht
      have hx : ∀ r, act.occurrence marks ≠ .reply t r := by
        intro r hr
        exact hmover (hs.exists_move_of_reply hr).1
      rw [hcount]
      rcases ih hrun ht₁ (by rw [hs.capacity_eq]; exact hi) with ⟨m, r, hm, hr⟩ | hlater
      · rw [hs.capacity_eq] at hr
        exact .inl ⟨m + 1, r, hm.cons hx, hr⟩
      · rw [hs.capacity_eq] at hlater
        exact .inr hlater

/-! ## The slots of a completed run -/

/-- What a run from `M` to `M'` has done with the free slots of `M`, once all attempts are over. -/
structure Allotment (M : Machine α) (acts : List (Act α)) (M' : Machine α) : Prop where
  /-- As many attempts succeed as there are free slots, or all. -/
  succeeded : ((M.history acts).filterMap Occurrence.grant?).length =
    min M.freeSlots.length ((M.history acts).countP Occurrence.asks)
  /-- The slots that are handed out, each once, are the first free ones. -/
  granted : (((M.history acts).filterMap Occurrence.grant?).map Prod.snd).Perm
    (M.freeSlots.take (min M.freeSlots.length ((M.history acts).countP Occurrence.asks)))
  owner : ∀ t i, (t, i) ∈ (M.history acts).filterMap Occurrence.grant? →
    ∃ token, M.token? t = some token ∧ M'.memory.table.owner i = some token
  kept : ∀ i, (M.memory.table.owner i).isSome → M'.memory.table.owner i = M.memory.table.owner i
  refused : (M.history acts).filterMap Occurrence.refusal? =
    List.replicate ((M.history acts).countP Occurrence.asks - M.freeSlots.length)
      M.memory.table.capacity

theorem Allotted.allotment (ha : Allotted M (M.history acts) M') (htests : M'.tests = []) :
    Allotment M acts M' := by
  have hbalance := ha.balance
  rw [htests, List.length_nil, Nat.add_zero] at hbalance
  have hle : ((M.history acts).filterMap Occurrence.grant?).length ≤ M.freeSlots.length := by
    have hlen := ha.granted.length_eq
    rw [List.length_map, List.length_take] at hlen
    omega
  -- somebody is refused only when all free slots are handed out
  have hall : (M.history acts).filterMap Occurrence.refusal? ≠ [] →
      M.freeSlots.length ≤ ((M.history acts).filterMap Occurrence.grant?).length := by
    intro hne
    obtain ⟨c, hc⟩ := List.exists_mem_of_ne_nil _ hne
    obtain ⟨-, hnone⟩ := ha.refused c hc
    rw [ha.free] at hnone
    exact List.drop_eq_nil_iff.1 hnone
  have hcount : ((M.history acts).filterMap Occurrence.grant?).length =
      min M.freeSlots.length ((M.history acts).countP Occurrence.asks) := by
    rcases List.eq_nil_or_concat ((M.history acts).filterMap Occurrence.refusal?) with
      hnil | ⟨l, c, hl⟩
    · rw [hnil, List.length_nil] at hbalance
      omega
    · have := hall (by simp [hl])
      omega
  refine ⟨hcount, hcount ▸ ha.granted, ha.owner, ha.kept, ?_⟩
  refine List.eq_replicate_iff.2 ⟨?_, fun c hc => (ha.refused c hc).1⟩
  by_cases hnil : (M.history acts).filterMap Occurrence.refusal? = []
  · rw [hnil, List.length_nil] at hbalance ⊢
    omega
  · have := hall hnil
    omega

/-- The order of first claims does not matter. From a machine in which no thread is looking for a
slot, let threads ask for slots and do anything else in any order, but give no slot back. Once all
have their answers, the first free slots are theirs, as many as they asked for, and what is left
over of the attempts is refused; and every attempt goes on until it has its answer, which takes no
more acts of its own than there are slots and one. -/
theorem first_claims {capacity count : Nat} {tokens : List Token}
    (hreach : (start capacity count tokens).Reaches M) (hquiet : M.tests = [])
    (hrun : M.run? acts = some M') (hkept : ∀ o i, .released o i ∉ M.log acts) :
    (M'.tests = [] → Allotment M acts M') ∧
    (∀ t i, M'.control? t = some (.trying i) →
      ∃ M'' marks, M'.act? (.step t) = some (M'', marks)) ∧
    ∀ n t : Nat, (M.history acts)[n]? = some (.call t .acquire) →
      M'.tests = [] ∨ capacity < (acts.drop (n + 1)).countP (·.mover? = some t) →
      ∃ m r, Answers (M.history acts) n t m r ∧
        (r = .exhausted capacity ∨ ∃ i ∈ M.freeSlots, r = .acquired i) := by
  have hex : M.Exclusive := invariant_of_step (fun h hs => h.step hs)
    (exclusive_start capacity count tokens) hreach
  have ha := (Allotted.refl hquiet).run hex hrun hkept
  rw [List.nil_append] at ha
  refine ⟨ha.allotment, fun t i ht => act?_of_trying ht, fun n t hcall hover => ?_⟩
  obtain ⟨M₁, hrun₁, hrest, ht, hlen, hhistory⟩ := exists_run_of_call hrun hcall
  have hcap₁ : M₁.memory.table.capacity = capacity :=
    (capacity_of_run hrun₁).trans (capacity_of_reaches hreach)
  have hanswered : ∃ m r, FirstReply (M₁.history (acts.drop (n + 1))) t m r ∧
      (r = .exhausted capacity ∨ ∃ j, r = .acquired j) := by
    rcases answered_or_trying hrest ht (Nat.zero_le _) with hreply | ⟨htrying, hle⟩
    · rwa [hcap₁] at hreply
    · exfalso
      rcases hover with hnone | hlt
      · have hmem := mem_tests htrying
        rw [hnone] at hmem
        cases hmem
      · omega
  obtain ⟨m, r, hm, hr⟩ := hanswered
  have hans := hm.answers (M.history (acts.take n)) (.call t .acquire)
  rw [← hhistory, hlen] at hans
  refine ⟨n + 1 + m, r, hans, ?_⟩
  rcases hr with hr | ⟨i, rfl⟩
  · exact .inl hr
  · -- a slot that is handed out was free
    refine .inr ⟨i, ?_, rfl⟩
    have hmem : i ∈ ((M.history acts).filterMap Occurrence.grant?).map Prod.snd :=
      List.mem_map.2 ⟨(t, i), List.mem_filterMap.2 ⟨_, List.mem_of_getElem? hans.2.1, rfl⟩, rfl⟩
    exact List.mem_of_mem_take (ha.granted.mem_iff.1 hmem)

/-- Of four slots two are free. Three threads look for one at the same time, and the last to call is
the first to claim. -/
theorem three_claim_two :
    ∃ (acts : List (Act Nat)) (M M' : Machine Nat),
      (start 4 0 [5, 6, 7, 8]).Reaches M ∧ M.tests = [] ∧ M.freeSlots = [1, 3] ∧
      M.run? acts = some M' ∧ (∀ o i, .released o i ∉ M.log acts) ∧ M'.tests = [] ∧
      Allotment M acts M' ∧
      ∃ m r, Answers (M.history acts) 0 1 m r ∧
        (r = .exhausted 4 ∨ ∃ i ∈ M.freeSlots, r = .acquired i) := by
  let before : List (Act Nat) := [.call 0 .acquire, .step 0, .call 0 .acquire, .step 0, .step 0,
    .call 0 .acquire, .step 0, .step 0, .step 0, .call 0 (.release 1), .step 0, .step 0]
  let acts : List (Act Nat) := [.call 1 .acquire, .call 2 .acquire, .call 3 .acquire, .step 1,
    .step 3, .step 3, .step 2, .step 1, .step 2, .step 1, .step 2, .step 2, .step 1, .step 1]
  obtain ⟨M, M', hbefore, hquiet, hfree, hrun, hlog, hdone⟩ : ∃ M M',
      (start 4 0 [5, 6, 7, 8] : Machine Nat).run? before = some M ∧ M.tests = [] ∧
      M.freeSlots = [1, 3] ∧ M.run? acts = some M' ∧
      M.log acts = [.claimed 8 1, .returned (.acquired 1), .claimed 7 3, .returned (.acquired 3),
        .exhausted 6 4, .returned (.exhausted 4)] ∧ M'.tests = [] :=
    ⟨_, _, rfl, rfl, rfl, rfl, rfl, rfl⟩
  have hkept : ∀ o i, .released o i ∉ M.log acts := by
    intro o i hmem
    rw [hlog] at hmem
    simp at hmem
  have hreach : (start 4 0 [5, 6, 7, 8]).Reaches M := ⟨before, hbefore⟩
  have hcall : (M.history acts)[0]? = some (.call 1 .acquire) := by
    obtain ⟨M₁, marks, hact, -⟩ := run?_cons_eq_some.1 hrun
    simp only [acts, history, hact]
    rfl
  obtain ⟨hallotment, -, hanswered⟩ := first_claims hreach hquiet hrun hkept
  exact ⟨acts, M, M', hreach, hquiet, hfree, hrun, hkept, hdone, hallotment hdone,
    hanswered 0 1 hcall (.inl hdone)⟩

end Machine

end HazardLifo.Interleaved
