import HazardLifo.Proofs.Interleaved.Retries
import HazardLifo.Proofs.Interleaved.Reclaim
import Mathlib.Data.Fintype.EquivFin

/-!
# Threads that run alone

`Layout.effort` bounds the accesses that an operation has left while nobody disturbs it: the way to
its end if every exchange succeeds (`Layout.budget`), and the way back to the beginning of a round
if the head word has changed since the thread saw it. Each access of the thread lowers it, except
for an exchange that fails without cause (`Move.effort_cases`). A thread within an operation always
has a next access, so from every reachable machine a thread that runs alone comes to the end of its
operation (`Sound.finishesAlone`).
-/

namespace HazardLifo.Interleaved

variable {α : Type}

/-! ## The way to the end -/

/-- The accesses that are left at most once the block is linked: with so many slots, entries in
limbo and entries in hand. -/
def Errand.budget (slots n k : Nat) : Errand α → Nat
  | .push => 0
  | .retire .. => (n + 1) * (slots + 9) + 4
  | .defer .. => k * (slots + 9) - slots - 4

/-- The accesses that an operation has left at most if no round fails: with so many slots, entries
in limbo and entries in hand. -/
def Control.budget (slots n k : Nat) : Control α → Nat
  | .trying i => slots - i + 1
  | .withdrawing _ => 2
  | .disowning _ | .publishing _ _ => 1
  | .making _ _ => 4
  | .loading _ _ errand => errand.budget slots n k + 3
  | .linking _ _ _ errand => errand.budget slots n k + 2
  | .swinging _ _ _ errand => errand.budget slots n k + 1
  | .locating _ _ => (n + 1) * (slots + 9) + slots + 18
  | .guarding _ _ _ => (n + 1) * (slots + 9) + slots + 17
  | .validating _ _ _ => (n + 1) * (slots + 9) + slots + 16
  | .following _ _ _ => (n + 1) * (slots + 9) + slots + 15
  | .unlinking _ _ _ _ => (n + 1) * (slots + 9) + slots + 14
  | .clearing _ _ _ => (n + 1) * (slots + 9) + slots + 13
  | .taking _ _ => (n + 1) * (slots + 9) + slots + 12
  | .scanning _ _ _ i => (n + 1) * (slots + 9) + (slots - i) + 11
  | .freeing _ _ _ => n * (slots + 9) + 5
  | .wrapping _ _ _ => (n + 1) * (slots + 9) + 9
  | .counting _ _ _ _ => (n + 1) * (slots + 9) + 8
  | .inspecting _ _ _ _ i => k * (slots + 9) - slots + (slots - i)
  | c => c.fuel n slots k

namespace Layout

def queue (G : Layout α) (c : Control α) : List (Block × Block) := c.stack?.elim [] G.waiting

def budget (G : Layout α) (slots t : Nat) (c : Control α) : Nat :=
  c.budget slots (G.queue c).length (G.carried t).length

/-- The accesses that thread `t` has left at most while it runs alone. -/
def effort (G : Layout α) (m : Memory α) (t : Nat) (c : Control α) : Nat :=
  G.budget m.table.slots.length t c + if (c.outdated? m).isSome then 5 else 0

end Layout

theorem Control.budget_le (c : Control α) {slots n k N : Nat} (hn : n ≤ N) (hk : k ≤ N) :
    c.budget slots n k ≤ (N + 1) * (slots + 9) + slots + 18 := by
  have hn' : n * (slots + 9) ≤ N * (slots + 9) := Nat.mul_le_mul_right _ hn
  have hk' : k * (slots + 9) ≤ N * (slots + 9) := Nat.mul_le_mul_right _ hk
  cases c with
  | loading w b errand | linking w b seen errand | swinging w b seen errand =>
    cases errand <;> simp only [budget, Errand.budget, Nat.succ_mul] <;> omega
  | _ =>
    simp only [budget, fuel, Nat.succ_mul]
    omega

variable {m : Memory α} {g : Agent α} {a : Advance α} {grip : Nat → Grip} {G G' : Layout α}
  {t : Nat}

theorem Custody.effort_le (h : Custody m grip G) (t : Nat) (c : Control α) :
    G.effort m t c ≤ (m.heap.size + 2) * (m.table.capacity + 9) + 14 := by
  have hlen : ∀ k, (G.entries k).length ≤ m.heap.size := fun k => by
    have hle := h.length_blocks_le k
    simp only [Layout.blocks, List.length_append, length_unpack] at hle
    omega
  have hqueue : (G.queue c).length ≤ m.heap.size := by
    unfold Layout.queue
    cases c.stack? with
    | none => exact Nat.zero_le _
    | some s => exact hlen (.limbo s)
  have hbudget : G.budget m.table.slots.length t c ≤ _ := c.budget_le hqueue (hlen (.thread t))
  have hcapacity : m.table.capacity = m.table.slots.length := rfl
  unfold Layout.effort
  simp only [hcapacity, Nat.succ_mul] at hbudget ⊢
  split <;> omega

theorem Custody.length_carried_pos (h : Custody m grip G) {γ : Grip} (hγ : grip t = γ)
    (hentry : γ.entry.isSome) : 0 < (G.carried t).length := by
  obtain ⟨⟨e, known⟩, he⟩ := Option.isSome_iff_exists.1 hentry
  have hc := h.carries hγ
  unfold Grip.Carries at hc
  rw [he] at hc
  obtain ⟨n, next, tail, hcarried, -⟩ := hc
  simp [hcarried]

/-- How an access changes what a thread has left: it comes nearer to its end, or it fails because
the head word has changed, or it fails without cause. -/
inductive Eases (m : Memory α) : Control α → Nat → Control α → Nat → Prop where
  | less {c c' n n'} (h : n' < n) : Eases m c n c' n'
  | retry {c c' n n'} (hcompares : c.compares) (hout : (c.outdated? m).isSome) (h : n' ≤ n + 4) :
      Eases m c n c' n'
  | slip {w b seen seen' errand n n'} (hload : m.load w = seen) (h : n' = n + 1) :
      Eases m (.swinging w b seen errand) n (.linking w b seen' errand) n'

theorem Quiet.eases {token : Token} {c c' : Control α} {marks : List (Mark α)}
    (hq : Quiet m token c c' marks) (hpos : c.grip.entry.isSome → 0 < (G.carried t).length)
    (hshift : Shift t G c c' G') :
    Eases m c (G.budget m.table.slots.length t c) c' (G'.budget m.table.slots.length t c') := by
  have hle : c.grip.entry.isSome →
      m.table.slots.length + 9 ≤ (G.carried t).length * (m.table.slots.length + 9) :=
    fun h => Nat.le_mul_of_pos_left _ (hpos h)
  have hout : ∀ {w seen}, c.seen? = some (w, seen) → m.load w ≠ seen → (c.outdated? m).isSome :=
    fun hseen hne => (Control.isSome_outdated? hseen).trans (decide_eq_true hne)
  cases hq with
  | revise hne =>
    cases hshift
    exact .retry rfl (hout rfl hne) (Nat.le_add_right (_ + 1) 3)
  | retry hne =>
    cases hshift
    exact .retry rfl (hout rfl hne) (Nat.le_refl _)
  | @relink w b seen errand =>
    cases hshift
    by_cases hload : m.load w = seen
    · exact .slip hload rfl
    · exact .retry rfl (hout rfl hload) (Nat.le_add_right (_ + 1) 3)
  | taken hs | scan hs | inspect hs =>
    have hlt := (List.getElem?_eq_some_iff.1 hs).1
    cases hshift
    refine .less ?_
    simp only [Layout.budget, Layout.queue, Control.stack?, Control.budget]
    omega
  | openEntry | pass | keep =>
    have hle' := hle rfl
    cases hshift
    refine .less ?_
    simp only [Layout.budget, Control.budget, Control.fuel, Errand.budget]
    omega
  | _ =>
    cases hshift
    all_goals
      refine .less ?_
      simp only [Layout.budget, Layout.queue, Control.stack?, Control.budget, Control.fuel,
        Nat.succ_mul]
      omega

theorem Move.eases (hm : Move m g a) (h : Custody m grip G) (hγ : grip t = g.control.grip)
    (hshift : Shift t G g.control a.agent.control G') (hcrash : a.agent.control ≠ .crashed) :
    Eases m g.control (G.budget m.table.slots.length t g.control) a.agent.control
      (G'.budget m.table.slots.length t a.agent.control) := by
  have hpos := h.length_carried_pos hγ
  cases hm with
  | quiet hq => exact hq.eases hpos hshift
  | publish hp =>
    refine .less ?_
    cases hp <;> cases hshift <;>
      simp only [Layout.budget, Layout.queue, Control.stack?, Control.budget, Control.fuel] <;>
      omega
  | crash => exact absurd rfl hcrash
  | claim | disown | count | settle | aimNode | aimEntry | take =>
    refine .less ?_
    cases hshift
    simp only [Layout.budget, Layout.queue, Control.stack?, Control.budget, Control.fuel,
      Errand.budget, Option.elim_some, Anchor.stack]
    omega
  | _ =>
    refine .less ?_
    cases hshift
    case stay hrole => cases hrole
    all_goals
      simp only [Layout.budget, Layout.queue, Control.stack?, Control.budget, Control.fuel,
        Errand.budget, Option.elim_some, Anchor.stack, Layout.hold, Layout.unlink, Layout.shelve,
        Layout.detach, Function.update_self, List.length_cons, Nat.succ_mul, *]
      omega

/-- An access lowers the effort that is left, except for an exchange that fails without cause. -/
theorem Move.effort_cases (hm : Move m g a) (h : Custody m grip G) (hγ : grip t = g.control.grip)
    (hshift : Shift t G g.control a.agent.control G') (hcrash : a.agent.control ≠ .crashed) :
    G'.effort a.memory t a.agent.control < G.effort m t g.control ∨
      (∃ w b seen seen' errand, g.control = .swinging w b seen errand ∧ m.load w = seen ∧
        a.agent.control = .linking w b seen' errand) ∧
        G'.effort a.memory t a.agent.control = G.effort m t g.control + 1 := by
  have hslots : a.memory.table.slots.length = m.table.slots.length := hm.capacity_eq
  have hout := hm.outdated?_cases
  have heases := hm.eases h hγ hshift hcrash
  unfold Layout.effort
  rw [hslots]
  generalize g.control = c at *
  generalize a.agent.control = c' at *
  generalize G.budget m.table.slots.length t c = n at *
  generalize G'.budget m.table.slots.length t c' = n' at *
  cases heases with
  | less hlt =>
    refine .inl ?_
    rcases hout with hnone | ⟨-, hsame⟩
    · rw [hnone]
      exact Nat.lt_of_lt_of_le hlt (Nat.le_add_right ..)
    · rw [hsame]
      exact Nat.add_lt_add_right hlt _
  | retry hcompares hold hle =>
    rcases hout with hnone | ⟨hnot, -⟩
    · rw [hnone, if_pos hold]
      exact .inl (Nat.lt_succ_of_le hle)
    · exact absurd hcompares (by simp [hnot])
  | @slip w b seen seen' errand n n' hload heq =>
    have hnone := hout.resolve_right fun h => nomatch h.1
    have hold : (Control.swinging w b seen errand).outdated? m = none := if_pos hload
    refine .inr ⟨⟨w, b, seen, seen', errand, rfl, hload, rfl⟩, ?_⟩
    rw [hnone, hold, heq]
    rfl

/-! ## Going on -/

theorem Memory.exists_free (m : Memory α) : ∃ b : Block, m.heap[b]? = none := by
  obtain ⟨b, hb⟩ := Infinite.exists_notMem_finset m.heap.keys.toFinset
  rw [List.mem_toFinset, Std.HashMap.mem_keys] at hb
  exact ⟨b, Std.HashMap.getElem?_eq_none hb⟩

/-- Within an operation a thread has a next access, or it waits for a block and goes on with any
block that is not in use. -/
theorem Agent.exists_advance (g : Agent α) (m : Memory α) (t : Nat) (hbusy : g.control ≠ .idle)
    (hrun : g.control ≠ .crashed) :
    ∃ act a, act.mover? = some t ∧ act.stumbles = 0 ∧ g.advance? m act = some a := by
  cases halloc : g.control.allocates with
  | false =>
    obtain ⟨a, ha⟩ := g.exists_step m hbusy hrun halloc
    exact ⟨.step t, a, rfl, rfl, ha⟩
  | true =>
    obtain ⟨b, hb⟩ := m.exists_free
    have hfree : m.heap.contains b = false := by
      rw [Std.HashMap.contains_eq_isSome_getElem?, hb]
      rfl
    obtain ⟨token, held, c⟩ := g
    cases c with
    | making | wrapping => exact ⟨.receive t b, _, rfl, rfl, if_neg (Bool.eq_false_iff.1 hfree)⟩
    | _ => cases halloc

theorem Move.exists_reply (hm : Move m g a) (hidle : a.agent.control = .idle) :
    ∃ marks reply, a.marks = marks ++ [.returned reply] := by
  cases hm with
  | quiet hq =>
    cases hq with
    | exhausted => exact ⟨[_], _, rfl⟩
    | bare => exact ⟨[], _, rfl⟩
    | _ => cases hidle
  | publish hp =>
    cases hp with
    | publish | giveUp => exact ⟨[], _, rfl⟩
    | _ => cases hidle
  | claim | disown => exact ⟨[_], _, rfl⟩
  | push => exact ⟨[], _, rfl⟩
  | settle => exact ⟨_, _, rfl⟩
  | _ => cases hidle

/-! ## Acts of one thread -/

namespace Machine

variable {M M' : Machine α} {act : Act α} {acts : List (Act α)} {marks : List (Mark α)}
  {c : Control α}

theorem Sound.effort_advance (h : M.Sound) (hG : Custody M.memory M.inHand G)
    (hg : M.agents[t]? = some g) (ha : g.advance? M.memory act = some a)
    (hshift : Shift t G g.control a.agent.control G') :
    1 + G'.effort a.memory t a.agent.control ≤
      G.effort M.memory t g.control + 2 * act.stumbles := by
  have hm := Agent.move_of_advance? ha
  rcases hm.effort_cases hG (inHand_eq (control?_eq hg)) hshift (h.not_crashed hg hm) with
    hlt | ⟨⟨w, b, seen, seen', errand, hswinging, hload, hlinking⟩, heq⟩
  · exact Nat.le_add_right_of_le (Nat.one_add_le_iff.2 hlt)
  · have hstumble := Agent.eq_stumble ha hswinging hload hlinking
    simp only [heq, hstumble]
    omega

theorem Sound.effort_act (h : M.Sound) (hG : Custody M.memory M.inHand G)
    (hc : M.control? t = some c) (hmover : act.mover? = some t)
    (hact : M.act? act = some (M', marks)) :
    ∃ G' c', Custody M'.memory M'.inHand G' ∧ M'.control? t = some c' ∧
      1 + G'.effort M'.memory t c' ≤ G.effort M.memory t c + 2 * act.stumbles := by
  obtain ⟨g, hg, rfl⟩ := control?_eq_some.1 hc
  obtain ⟨a, ha, rfl, rfl⟩ := exists_advance hact hmover hg
  obtain ⟨G', hshift, hG'⟩ := h.custody_move hg (Agent.move_of_advance? ha) hG
  exact ⟨G', a.agent.control, hG', control?_set_self hg .., h.effort_advance hG hg ha hshift⟩

/-- While a thread runs alone, each of its accesses lowers the effort that it has left. -/
theorem Sound.effort_run (h : M.Sound) (hG : Custody M.memory M.inHand G)
    (hc : M.control? t = some c) (hacts : ∀ act ∈ acts, act.mover? = some t)
    (hrun : M.run? acts = some M') :
    ∃ G' c', Custody M'.memory M'.inHand G' ∧ M'.control? t = some c' ∧
      acts.length + G'.effort M'.memory t c' ≤
        G.effort M.memory t c + 2 * (acts.map Act.stumbles).sum := by
  induction acts generalizing M G c with
  | nil =>
    obtain rfl := Option.some.inj hrun
    exact ⟨G, c, hG, hc, by simp⟩
  | cons act acts ih =>
    obtain ⟨M₁, marks, hact, hrun⟩ := run?_cons_eq_some.1 hrun
    obtain ⟨hmover, hacts⟩ := List.forall_mem_cons.1 hacts
    obtain ⟨G₁, c₁, hG₁, hc₁, hless⟩ := h.effort_act hG hc hmover hact
    obtain ⟨G', c', hG', hc', hle⟩ := ih (h.step (act?_step hact)) hG₁ hc₁ hacts hrun
    refine ⟨G', c', hG', hc', ?_⟩
    simp only [List.length_cons, List.map_cons, List.sum_cons]
    omega

theorem act?_of_advance {g : Agent α} {a : Advance α} (hg : M.agents[t]? = some g)
    (hmover : act.mover? = some t) (ha : g.advance? M.memory act = some a) :
    M.act? act = some (⟨a.memory, M.agents.set t a.agent⟩, a.marks) := by
  cases act <;> simp only [Act.mover?, Option.some.injEq, reduceCtorEq] at hmover <;> subst hmover
  all_goals
    simp only [Agent.advance?] at ha
    simp only [act?, hg, ha, Option.bind_eq_bind, Option.bind_some, Option.pure_def, settle]

/-- A thread within an operation can come to its end alone. -/
theorem Sound.exists_end (h : M.Sound) (hc : M.control? t = some c) (hbusy : c ≠ .idle) :
    ∃ acts M' marks reply, (∀ act ∈ acts, act.mover? = some t ∧ act.stumbles = 0) ∧
      M.run? acts = some M' ∧ M'.control? t = some .idle ∧
      M.log acts = marks ++ [.returned reply] := by
  obtain ⟨G, hG⟩ := h.custody
  -- by induction on the accesses that are left at most
  induction hn : G.effort M.memory t c using Nat.strong_induction_on generalizing M G c with
  | _ n ih =>
    obtain ⟨g, hg, rfl⟩ := control?_eq_some.1 hc
    obtain ⟨act, a, hmover, hstumbles, ha⟩ :=
      g.exists_advance M.memory t hbusy fun hcrash => h.running (hcrash ▸ hc)
    have hact := act?_of_advance hg hmover ha
    obtain ⟨G₁, c₁, hG₁, hc₁, hless⟩ := h.effort_act hG hc hmover hact
    by_cases hidle : c₁ = .idle
    · subst hidle
      have hend : a.agent.control = .idle :=
        Option.some.inj ((control?_set_self hg ..).symm.trans hc₁)
      obtain ⟨marks, reply, hmarks⟩ := (Agent.move_of_advance? ha).exists_reply hend
      refine ⟨[act], _, marks, reply, ?_, run?_cons_eq_some.2 ⟨_, _, hact, rfl⟩, hc₁, ?_⟩
      · exact List.forall_mem_singleton.2 ⟨hmover, hstumbles⟩
      · simp only [log, hact, hmarks, List.append_nil]
    · rw [hstumbles, hn] at hless
      obtain ⟨acts, M', marks, reply, hacts, hrun, hend, hlog⟩ :=
        ih _ (Nat.one_add_le_iff.1 hless) (h.step (act?_step hact)) hc₁ hidle G₁ hG₁ rfl
      refine ⟨act :: acts, M', a.marks ++ marks, reply, ?_, ?_, hend, ?_⟩
      · exact List.forall_mem_cons.2 ⟨⟨hmover, hstumbles⟩, hacts⟩
      · exact run?_cons_eq_some.2 ⟨_, _, hact, hrun⟩
      · simp only [log, hact, hlog, List.append_assoc]

/-- Thread `t`, alone from machine `M` on, comes to the end of its operation. -/
structure FinishesAlone (M : Machine α) (t : Nat) : Prop where
  /-- Its accesses are bounded, whatever it does, but for two for each exchange that fails without
  cause. -/
  bound : ∀ acts M', (∀ act ∈ acts, act.mover? = some t) → M.run? acts = some M' →
    acts.length ≤ (M.memory.heap.size + 2) * (M.memory.table.capacity + 9) + 14 +
      2 * (acts.map Act.stumbles).sum
  reply : ∀ acts M', (∀ act ∈ acts, act.mover? = some t) → M.run? acts = some M' →
    M'.control? t ≠ some .idle → ∃ acts' M'' marks reply,
      (∀ act ∈ acts', act.mover? = some t ∧ act.stumbles = 0) ∧ M'.run? acts' = some M'' ∧
        M''.control? t = some .idle ∧ M'.log acts' = marks ++ [.returned reply]

theorem Sound.finishesAlone (h : M.Sound) (hc : M.control? t = some c) : M.FinishesAlone t where
  bound acts M' hacts hrun := by
    obtain ⟨G, hG⟩ := h.custody
    obtain ⟨G', c', -, -, hle⟩ := h.effort_run hG hc hacts hrun
    have heffort := hG.effort_le t c
    omega
  reply acts M' hacts hrun hbusy := by
    obtain ⟨G, hG⟩ := h.custody
    obtain ⟨G', c', -, hc', -⟩ := h.effort_run hG hc hacts hrun
    have hsound : M'.Sound := invariant_of_step (fun h hs => h.step hs) h ⟨acts, hrun⟩
    exact hsound.exists_end hc' fun hidle => hbusy (hidle ▸ hc')

end Machine

end HazardLifo.Interleaved
