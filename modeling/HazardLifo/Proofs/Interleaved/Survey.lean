import HazardLifo.Proofs.Interleaved.Effort

/-!
# Sweeps that are disturbed

While a sweep goes through the list that it has detached, other threads may do anything: they put
new entries into limbo, and they detach and free those that the sweep has put back. None of it
reaches the entries that the sweep has not opened yet, which only its own thread has in hand.
`Machine.Survey` says where a sweep is in this sense, `Survey.run` follows it through any run, and
`Machine.Surveys` says what comes of it: the sweep opens the entries of the list in their order,
each once and as it was when the list was detached, and it makes a bounded number of accesses, but
for those that failed exchanges cost.
-/

namespace HazardLifo.Interleaved

variable {α : Type}

/-! ## How far a sweep is -/

def Errand.pass? : Errand α → Option (Pass α)
  | .defer pass _ => some pass
  | _ => none

namespace Control

def pass? : Control α → Option (Pass α)
  | .walking pass _ | .opening pass _ _ | .inspecting pass _ _ _ _ | .unwrapping pass _ _ _
  | .burying pass _ _ | .settling pass => some pass
  | .loading _ _ errand | .linking _ _ _ errand | .swinging _ _ _ errand => errand.pass?
  | _ => none

/-- The entry that the next access opens, to find the node in it. -/
def opens? : Control α → Option Block
  | .opening _ e _ => some e
  | _ => none

/-- The entries in hand of a sweep that it has not opened yet. -/
def unopened (carried : List (Block × Block)) : Control α → List (Block × Block)
  | .walking .. | .opening .. | .burying .. | .settling .. => carried
  | _ => carried.tail

def pending : Control α → Nat
  | .walking .. | .opening .. | .settling .. => 0
  | _ => 1

theorem mem_of_unopened {c : Control α} {carried : List (Block × Block)} {q : Block × Block}
    (hq : q ∈ c.unopened carried) : q ∈ carried := by
  unfold unopened at hq
  split at hq
  all_goals first | exact hq | exact List.mem_of_mem_tail hq

theorem budget_of_pass? {c : Control α} {pass : Pass α} (h : c.pass? = some pass)
    (slots n n' k : Nat) : c.budget slots n k = c.budget slots n' k := by
  cases c with
  | loading w b errand | linking w b _ errand | swinging w b _ errand =>
    cases errand <;> first | rfl | cases h
  | _ => first | rfl | cases h

theorem eq_limbo_of_outdated? {c : Control α} {pass : Pass α} {m : Memory α} {w : Anchor}
    (h : c.pass? = some pass) (hsuited : c.Suited) (hout : c.outdated? m = some w) :
    w = .limbo pass.stack := by
  obtain ⟨seen, hseen, -⟩ := outdated?_eq_some.1 hout
  cases c with
  | linking w' b _ errand | swinging w' b _ errand =>
    cases errand with
    | defer =>
      cases hseen
      cases h
      exact hsuited
    | _ => cases h
  | guarding | validating | following | unlinking => cases h
  | _ => cases hseen

end Control

variable {m : Memory α} {g : Agent α} {a : Advance α} {grip : Nat → Grip} {G G' : Layout α}
  {t : Nat} {pass : Pass α}

theorem Custody.ne_of_entry_of_tail (h : Custody m grip G) {γ : Grip} (hγ : grip t = γ) {e : Block}
    {known : Option Block} (he : γ.entry = some (e, known)) {q : Block × Block}
    (hq : q ∈ (G.carried t).tail) : e ≠ q.1 := by
  have hc := h.carries hγ
  unfold Grip.Carries at hc
  rw [he] at hc
  obtain ⟨n, next, tail, hcarried, -⟩ := hc
  have hnodup := (List.nodup_append'.1 (h.partition.nodup (.thread t))).2.1
  simp only [Layout.entries, hcarried, unpack_cons] at hnodup
  rw [hcarried] at hq
  rintro rfl
  exact (List.nodup_cons.1 hnodup).1 (List.mem_cons_of_mem _ (mem_unpack.2 ⟨q, hq, .inl rfl⟩))

theorem Move.heap_unopened (hm : Move m g a) (h : Custody m grip G) (hγ : grip t = g.control.grip)
    (hpass : g.control.pass? = some pass) {q : Block × Block}
    (hq : q ∈ g.control.unopened (G.carried t)) : a.memory.heap[q.1]? = m.heap[q.1]? := by
  cases hm with
  | aimNode | aimEntry =>
    rename_i errand _ _ _
    cases errand with
    | defer =>
      rw [Memory.getElem?_heap_overwrite, if_neg]
      exact h.ne_of_entry_of_tail hγ rfl hq
    | _ => cases hpass
  | unwrap =>
    rw [Memory.getElem?_heap_free, if_neg]
    exact h.ne_of_entry_of_tail hγ rfl hq
  | bury =>
    rw [Memory.getElem?_heap_free, if_neg]
    exact (h.ne_of_loose (h.loose_eq hγ) (k := .thread t) hq).1.symm
  | take | free | make | wrap => cases hpass
  | _ => simp [Memory.mapTable, Memory.mapGauge]

/-- How an access takes a sweep further, by entries that it opens: the sweep is over with no entry
in hand, or it goes on. -/
inductive Furthers (G G' : Layout α) (t : Nat) (pass : Pass α) (c : Control α) :
    Control α → List (Block × Block) → Prop where
  | ended (hc : c = .settling pass) : Furthers G G' t pass c .idle []
  | on {c' pass' opened} (hpass : c'.pass? = some pass') (hstack : pass'.stack = pass.stack)
      (hsplit : c.unopened (G.carried t) = opened ++ c'.unopened (G'.carried t))
      (hopens : opened.map Prod.fst = c.opens?.toList)
      (hcount : pass'.freed + pass'.deferred + c'.pending =
        pass.freed + pass.deferred + c.pending + opened.length) :
      Furthers G G' t pass c c' opened

theorem Move.furthers (hm : Move m g a) (h : Custody m grip G) (hγ : grip t = g.control.grip)
    (hshift : Shift t G g.control a.agent.control G') (hcrash : a.agent.control ≠ .crashed)
    (hpass : g.control.pass? = some pass) :
    ∃ opened, Furthers G G' t pass g.control a.agent.control opened := by
  cases hm with
  | quiet hq =>
    cases hq with
    | load | relink =>
      rename_i errand
      cases errand with
      | defer =>
        cases hshift
        exact ⟨[], .on hpass rfl rfl rfl rfl⟩
      | _ => cases hpass
    | openEntry =>
      obtain ⟨n, next, tail, hcarried, -⟩ := h.carries hγ
      cases hshift
      cases hpass
      refine ⟨[(_, n)], .on rfl rfl ?_ rfl rfl⟩
      simp only [Control.unopened, hcarried]
      rfl
    | finish | walk | pass | keep | inspect =>
      cases hpass
      cases hshift <;> exact ⟨[], .on rfl rfl rfl rfl rfl⟩
    | _ => cases hpass
  | crash => exact absurd rfl hcrash
  | settle =>
    cases hpass
    exact ⟨[], .ended rfl⟩
  | aimNode | aimEntry =>
    rename_i errand _ _ _
    cases errand with
    | defer =>
      cases hshift
      exact ⟨[], .on hpass rfl rfl rfl rfl⟩
    | _ => cases hpass
  | defer =>
    cases hpass
    cases hshift with
    | stay hrole => cases hrole
    | defer hcarried =>
      refine ⟨[], .on rfl rfl ?_ rfl ?_⟩
      · simp only [Control.unopened, hcarried, Layout.shelve, Function.update_self]
        rfl
      · simp only [Control.pending, List.length_nil]
        omega
  | unwrap =>
    cases hpass
    cases hshift with
    | stay hrole => cases hrole
    | unwrap hcarried hloose =>
      refine ⟨[], .on rfl rfl ?_ rfl rfl⟩
      simp only [Control.unopened, hcarried, Layout.hold, Function.update_self]
      rfl
  | bury =>
    cases hpass
    cases hshift with
    | stay hrole => cases hrole
    | bury hloose =>
      refine ⟨[], .on rfl rfl ?_ rfl ?_⟩
      · simp only [Control.unopened, Layout.hold, Function.update_self]
        rfl
      · simp only [Control.pending, List.length_nil]
        omega
  | publish hp => cases hp <;> cases hpass
  | _ => cases hpass

/-! ## What others do -/

namespace Machine

variable {M M' : Machine α} {act : Act α} {acts : List (Act α)} {marks : List (Mark α)}
  {c : Control α}

theorem Sound.custody_of_ne (h : M.Sound) (hG : Custody M.memory M.inHand G)
    (hs : Step M act M' marks) (hact : act.mover? ≠ some t) :
    ∃ G', Custody M'.memory M'.inHand G' ∧ G'.carried t = G.carried t ∧
      ∀ q ∈ G.carried t, M'.memory.heap[q.1]? = M.memory.heap[q.1]? := by
  cases hs with
  | call hu hidle => exact ⟨G, (inHand_call hu hidle _).symm ▸ hG, rfl, fun _ _ => rfl⟩
  | @move u g a act hmover hu hm =>
    have hne : t ≠ u := by
      rintro rfl
      exact hact hmover
    obtain ⟨G', hshift, hG'⟩ := h.custody_move hu hm hG
    refine ⟨G', hG', hshift.carried_eq hne, fun q hq => ?_⟩
    have hmem : q.1 ∈ G.blocks (.thread t) := (Layout.mem_blocks_of_entry (k := .thread t) hq).1
    have hnot : q.1 ∉ G.blocks (.thread u) := hG.notMem_of_thread hmem (by simpa using hne.symm)
    exact hm.getElem?_heap_eq hG (inHand_eq (control?_eq hu)) hnot (hG.isSome_of_mem hmem)
  | handOver hu hv =>
    refine ⟨G, ?_, rfl, fun _ _ => rfl⟩
    rw [show Machine.inHand _ = M.inHand from
      funext fun v => by simp only [inHand, control?_handOver hu hv]]
    exact hG

/-- What other threads do costs a sweep a round at most, and only if they change the head word. -/
theorem Sound.effort_of_ne (h : M.Sound) (hs : Step M act M' marks) (hact : act.mover? ≠ some t)
    (hc : M.control? t = some c) (hpass : c.pass? = some pass)
    (hcarried : G'.carried t = G.carried t) :
    G'.effort M'.memory t c ≤ G.effort M.memory t c +
      5 * if (⟨M, act, M'⟩ : Transition α).Disturbs t (.limbo pass.stack) then 1 else 0 := by
  have hslots : M'.memory.table.slots.length = M.memory.table.slots.length := hs.capacity_eq
  have hbudget : G'.budget M'.memory.table.slots.length t c =
      G.budget M.memory.table.slots.length t c := by
    simp only [Layout.budget, hslots, hcarried]
    exact Control.budget_of_pass? hpass ..
  unfold Layout.effort
  rw [hbudget, Nat.add_assoc]
  refine Nat.add_le_add_left ?_ _
  cases hout : c.outdated? M'.memory with
  | none => exact Nat.zero_le _
  | some w =>
    obtain rfl := Control.eq_limbo_of_outdated? hpass (h.proper hc).2 hout
    rcases Control.outdated?_of_load hout with hold | hload
    · rw [hold]
      exact Nat.le_add_right ..
    · have hdisturbs : (⟨M, act, M'⟩ : Transition α).Disturbs t (.limbo pass.stack) := ⟨hact, hload⟩
      rw [if_pos hdisturbs]
      exact Nat.le_add_left ..

theorem Step.control?_of_idle (hs : Step M act M' marks) (hidle : M.control? t = some .idle)
    (hcall : ∀ command, act ≠ .call t command) :
    act.mover? ≠ some t ∧ M'.control? t = some .idle := by
  have hstay : ∀ {u c}, M.control? u = some c → c ≠ .idle → t ≠ u := by
    rintro u c hu hc rfl
    exact hc (Option.some.inj (hu.symm.trans hidle))
  cases hs with
  | @call u g command hu =>
    have hne : t ≠ u := by
      rintro rfl
      exact hcall command rfl
    exact ⟨nofun, by rw [control?_set hu, if_neg hne, hidle]⟩
  | @move u g a act hmover hu hm =>
    have hne : t ≠ u := hstay (Machine.control?_eq hu) fun hc => by
      obtain ⟨token, held, c⟩ := g
      obtain rfl : c = .idle := hc
      cases hm with
      | quiet hq => cases hq
      | publish hp => cases hp
      | crash hl => cases hl
    refine ⟨fun ht => hne (Option.some.inj (ht.symm.trans hmover)), ?_⟩
    rw [control?_set hu, if_neg hne, hidle]
  | handOver hu hv => exact ⟨nofun, (control?_handOver hu hv t).trans hidle⟩

end Machine

/-! ## Following a sweep -/

def Memory.read (m : Memory α) (b : Block) : Block × Option (Cell α) := (b, m.heap[b]?)

def Transition.opened? (t : Nat) (x : Transition α) : Option (Block × Option (Cell α)) :=
  if x.act.mover? = some t then
    ((x.before.control? t).bind (·.opens?)).map x.before.memory.read
  else none

def Act.own (t : Nat) (acts : List (Act α)) : List (Act α) := acts.filter (·.mover? = some t)

namespace Machine

def opened (M : Machine α) (t : Nat) (acts : List (Act α)) : List (Block × Option (Cell α)) :=
  (M.transitions acts).filterMap (·.opened? t)

/-- What thread `t` has done of the sweep of the list `L`, which it detached from stack `s` in
memory `m₀`. It has opened the entries `done` and makes `n` accesses more at most while it runs
alone. Either the sweep is over, or the other entries are in the thread's hands, as they were. -/
inductive Survey (m₀ : Memory α) (s : StackIndex) (L : List (Block × Block)) (t : Nat)
    (M : Machine α) : List (Block × Block) → Nat → Prop where
  | ended (hidle : M.control? t = some .idle) : Survey m₀ s L t M L 0
  | midway {G c pass done} (hG : Custody M.memory M.inHand G) (hc : M.control? t = some c)
      (hpass : c.pass? = some pass) (hstack : pass.stack = s)
      (hsplit : L = done ++ c.unopened (G.carried t))
      (hheap : ∀ q ∈ c.unopened (G.carried t), M.memory.heap[q.1]? = m₀.heap[q.1]?)
      (hcount : pass.freed + pass.deferred + c.pending = done.length) :
      Survey m₀ s L t M done (G.effort M.memory t c)

variable {M M' : Machine α} {act : Act α} {acts : List (Act α)} {marks : List (Mark α)}
  {c : Control α} {m₀ : Memory α} {s : StackIndex} {L done : List (Block × Block)} {n : Nat}

theorem opened_cons (hact : M.act? act = some (M', marks)) (acts : List (Act α)) :
    M.opened t (act :: acts) =
      ((⟨M, act, M'⟩ : Transition α).opened? t).toList ++ M'.opened t acts := by
  rw [opened, transitions_cons hact, List.filterMap_cons]
  cases (⟨M, act, M'⟩ : Transition α).opened? t <;> rfl

/-- By an access of its own a sweep goes on to the next entry, or opens it. -/
theorem Survey.advance (hS : Survey m₀ s L t M done n) (h : M.Sound) (hmover : act.mover? = some t)
    (hact : M.act? act = some (M', marks)) :
    ∃ opened n', Survey m₀ s L t M' (done ++ opened) n' ∧
      ((⟨M, act, M'⟩ : Transition α).opened? t).toList = opened.map (m₀.read ·.1) ∧
      1 + n' ≤ n + 2 * act.stumbles := by
  cases hS with
  | ended hidle =>
    have hcall : ∀ command, act ≠ .call t command := by
      rintro command rfl
      cases hmover
    exact absurd hmover ((act?_step hact).control?_of_idle hidle hcall).1
  | @midway G c pass _ hG hc hpass hstack hsplit hheap hcount =>
    obtain ⟨g, hg, rfl⟩ := control?_eq_some.1 hc
    obtain ⟨a, ha, rfl, rfl⟩ := exists_advance hact hmover hg
    have hm := Agent.move_of_advance? ha
    have hγ := inHand_eq hc
    obtain ⟨G', hshift, hG'⟩ := h.custody_move hg hm hG
    obtain ⟨opened, hfurthers⟩ := hm.furthers hG hγ hshift (h.not_crashed hg hm) hpass
    have heffort := h.effort_advance hG hg ha hshift
    have hopened : (⟨M, act, ⟨a.memory, M.agents.set t a.agent⟩⟩ : Transition α).opened? t =
        g.control.opens?.map M.memory.read := by
      simp only [Transition.opened?, hmover, if_true, hc, Option.bind_some]
    rw [hopened]
    generalize hc' : a.agent.control = c' at hfurthers heffort
    have hcontrol : (⟨a.memory, M.agents.set t a.agent⟩ : Machine α).control? t = some c' :=
      hc' ▸ control?_set_self hg ..
    cases hfurthers with
    | ended hsettling =>
      have hgrip : M.inHand t = {} := hγ.trans (by rw [hsettling]; rfl)
      have hnil : G.carried t = [] := hG.carried_eq_nil hgrip rfl rfl
      have hdone : done = L := by simpa [hsettling, Control.unopened, hnil] using hsplit.symm
      refine ⟨[], 0, ?_, by rw [hsettling]; rfl, by omega⟩
      rw [List.append_nil, hdone]
      exact .ended hcontrol
    | @on c' pass' opened hpass' hstack' hsplit' hopens hcount' =>
      refine ⟨opened, _, .midway hG' hcontrol hpass' (hstack'.trans hstack) ?_
        (fun q hq => ?_) ?_, ?_, heffort⟩
      · rw [hsplit, hsplit', List.append_assoc]
      · have hq' : q ∈ g.control.unopened (G.carried t) := hsplit' ▸ List.mem_append_right _ hq
        exact (hm.heap_unopened hG hγ hpass hq').trans (hheap q hq')
      · rw [hcount', hcount, List.length_append]
      · rw [Option.toList_map, ← hopens, List.map_map]
        refine List.map_congr_left fun q hq => ?_
        have hq' : q ∈ g.control.unopened (G.carried t) := hsplit' ▸ List.mem_append_left _ hq
        exact congrArg (q.1, ·) (hheap q hq')

theorem Survey.of_ne (hS : Survey m₀ s L t M done n) (h : M.Sound) (hs : Step M act M' marks)
    (hact : act.mover? ≠ some t) (hcall : ∀ command, act ≠ .call t command) :
    ∃ n', Survey m₀ s L t M' done n' ∧
      n' ≤ n + 5 * if (⟨M, act, M'⟩ : Transition α).Disturbs t (.limbo s) then 1 else 0 := by
  cases hS with
  | ended hidle => exact ⟨0, .ended (hs.control?_of_idle hidle hcall).2, Nat.zero_le _⟩
  | @midway G c pass _ hG hc hpass hstack hsplit hheap hcount =>
    subst hstack
    obtain ⟨G', hG', hcarried, hsame⟩ := h.custody_of_ne hG hs hact
    have hbusy : M.control? t ≠ some .idle := by
      rw [hc]
      rintro ⟨⟩
      cases hpass
    refine ⟨_, .midway hG' ((hs.control?_eq hact hbusy).trans hc) hpass rfl ?_ (fun q hq => ?_)
      hcount, h.effort_of_ne hs hact hc hpass hcarried⟩
    · rw [hcarried]
      exact hsplit
    · rw [hcarried] at hq
      exact (hsame q (Control.mem_of_unopened hq)).trans (hheap q hq)

/-- Whatever happens, a sweep goes on through its list; what others do costs it a round for each
change of the head word. -/
theorem Survey.run (hS : Survey m₀ s L t M done n) (h : M.Sound)
    (hcall : ∀ command, .call t command ∉ acts) (hrun : M.run? acts = some M') :
    ∃ opened n', Survey m₀ s L t M' (done ++ opened) n' ∧
      M.opened t acts = opened.map (m₀.read ·.1) ∧
      (Act.own t acts).length + n' ≤ n + 5 * M.disturbances t (.limbo s) acts +
        2 * ((Act.own t acts).map Act.stumbles).sum := by
  -- by induction on the acts: those of the thread open entries, the others leave the rest alone
  induction acts generalizing M done n with
  | nil =>
    obtain rfl := Option.some.inj hrun
    exact ⟨[], n, (List.append_nil done).symm ▸ hS, rfl, by simp [Act.own]⟩
  | cons act acts ih =>
    obtain ⟨M₁, marks, hact, hrun⟩ := run?_cons_eq_some.1 hrun
    have hs := act?_step hact
    have hcall' : ∀ command, act ≠ .call t command := fun command heq =>
      hcall command (heq ▸ List.mem_cons_self)
    replace hcall : ∀ command, .call t command ∉ acts := fun command hmem =>
      hcall command (List.mem_cons_of_mem _ hmem)
    by_cases hmover : act.mover? = some t
    · obtain ⟨opened, n₁, hS₁, hopened, hless⟩ := hS.advance h hmover hact
      obtain ⟨opened', n', hS', hopened', hle⟩ := ih hS₁ (h.step hs) hcall hrun
      refine ⟨opened ++ opened', n', List.append_assoc done .. ▸ hS', ?_, ?_⟩
      · rw [opened_cons hact, hopened, hopened', List.map_append]
      · rw [Act.own, List.filter_cons_of_pos (by simpa using hmover), disturbances_cons hact]
        simp only [List.length_cons, List.map_cons, List.sum_cons]
        simp only [Act.own] at hle
        omega
    · obtain ⟨n₁, hS₁, hless⟩ := hS.of_ne h hs hmover hcall'
      obtain ⟨opened', n', hS', hopened', hle⟩ := ih hS₁ (h.step hs) hcall hrun
      refine ⟨opened', n', hS', ?_, ?_⟩
      · rw [opened_cons hact, Transition.opened?, if_neg hmover, hopened']
        rfl
      · rw [Act.own, List.filter_cons_of_neg (by simpa using hmover), disturbances_cons hact]
        simp only [Act.own] at hle
        omega

/-! ## Whole sweeps -/

/-- The exchange that detaches the list begins a sweep of all its entries. -/
theorem Sound.survey_of_detach (h : M.Sound) (hfresh : (Control.detaching pass).Fresh)
    (hc : M.control? t = some (.detaching pass)) (hact : M.act? (.step t) = some (M', marks)) :
    Survey M.memory pass.stack (M.memory.waiting pass.stack) t M' []
      ((M.memory.waiting pass.stack).length * (M.memory.table.capacity + 9) + 2) := by
  obtain ⟨⟨token, held, c⟩, hg, rfl⟩ := control?_eq_some.1 hc
  obtain ⟨a, ha, rfl, -⟩ := exists_advance hact rfl hg
  have hm := Agent.move_of_advance? ha
  obtain rfl := Option.some.inj ha
  obtain ⟨G, hG⟩ := h.custody
  obtain ⟨G', hshift, hG'⟩ := h.custody_move hg hm hG
  cases hshift with
  | stay hrole => cases hrole
  | detach hcarried =>
    have hlist : (G.detach t pass.stack).carried t = M.memory.waiting pass.stack := by
      rw [hG.waiting_eq]
      exact Function.update_self ..
    have hcount : pass.freed + pass.deferred = 0 := by rw [hfresh.1, hfresh.2]
    have heffort : (G.detach t pass.stack).effort (M.memory.store (.limbo pass.stack) none) t
        (.walking pass (M.memory.load (.limbo pass.stack))) =
        (M.memory.waiting pass.stack).length * (M.memory.table.capacity + 9) + 2 := by
      simp only [Layout.effort, Layout.budget, hlist, Memory.table_store]
      rfl
    rw [← heffort]
    exact .midway hG' (control?_set_self hg ..) rfl rfl hlist.symm
      (fun q _ => by rw [Memory.heap_store]) hcount

/-- What thread `t` does on a run from `M` to `M'`, in the midst of other threads, of the sweep of
the list that it has detached from stack `s` in memory `m₀`. -/
structure Surveys (m₀ : Memory α) (s : StackIndex) (t : Nat) (M : Machine α) (acts : List (Act α))
    (M' : Machine α) : Prop where
  /-- It opens the entries of the list in their order, as they were when it detached them. -/
  opened : M.opened t acts <+: (m₀.waiting s).map (m₀.read ·.1)
  nodup : ((m₀.waiting s).map Prod.fst).Nodup
  complete : M'.control? t = some .idle → M.opened t acts = (m₀.waiting s).map (m₀.read ·.1)
  settled : ∀ pass, M'.control? t = some (.settling pass) →
    pass.stack = s ∧ pass.freed + pass.deferred = (m₀.waiting s).length
  /-- Its accesses are bounded, but for a round for each change of the head word by another thread
  and two accesses for each exchange that fails without cause. -/
  bound : (Act.own t acts).length ≤
    (m₀.waiting s).length * (m₀.table.capacity + 9) + 2 + 5 * M.disturbances t (.limbo s) acts +
      2 * ((Act.own t acts).map Act.stumbles).sum
  goesOn : M'.control? t ≠ some .idle → ∃ act M'' marks, act.mover? = some t ∧ act.stumbles = 0 ∧
    M'.act? act = some (M'', marks)

theorem Survey.initial {n : Nat} (hS : Survey m₀ s L t M done n) : done <+: L := by
  cases hS with
  | ended => exact List.prefix_refl _
  | midway hG hc hpass hstack hsplit => exact ⟨_, hsplit.symm⟩

theorem Sound.surveys (h : M.Sound) (hfresh : (Control.detaching pass).Fresh)
    (hc : M.control? t = some (.detaching pass)) {M₁ : Machine α}
    (hact : M.act? (.step t) = some (M₁, marks)) (hcall : ∀ command, .call t command ∉ acts)
    (hrun : M₁.run? acts = some M') : Surveys M.memory pass.stack t M₁ acts M' := by
  have hsound₁ := h.step (act?_step hact)
  have hsound' : M'.Sound := invariant_of_step (fun h hs => h.step hs) hsound₁ ⟨acts, hrun⟩
  obtain ⟨done, n, hS, hopened, hbound⟩ :=
    (h.survey_of_detach hfresh hc hact).run hsound₁ hcall hrun
  rw [List.nil_append] at hS
  refine
    { opened := hopened ▸ hS.initial.map _
      nodup := (h.inLimbo ((h.proper hc).1 _ rfl)).chain.nodup
      complete := fun hidle => ?_
      settled := fun pass' hsettling => ?_
      bound := by omega
      goesOn := fun hbusy => ?_ }
  · cases hS with
    | ended => exact hopened
    | midway hG hc' hpass =>
      obtain rfl := Option.some.inj (hc'.symm.trans hidle)
      cases hpass
  · cases hS with
    | ended hidle => cases hidle.symm.trans hsettling
    | midway hG hc' hpass hstack hsplit hheap hcount =>
      obtain rfl := Option.some.inj (hc'.symm.trans hsettling)
      cases hpass
      refine ⟨hstack, ?_⟩
      rw [hsplit, Control.unopened, hG.carried_eq_nil (inHand_eq hc') rfl rfl, List.append_nil]
      exact hcount
  · cases hS with
    | ended hidle => exact absurd hidle hbusy
    | @midway G c' pass' _ hG hc' hpass =>
      obtain ⟨g, hg, rfl⟩ := control?_eq_some.1 hc'
      obtain ⟨act, a, hmover, hstumbles, ha⟩ := g.exists_advance M'.memory t
        (fun hidle => hbusy (hidle ▸ hc')) fun hcrash => hsound'.running (hcrash ▸ hc')
      exact ⟨act, _, _, hmover, hstumbles, act?_of_advance hg hmover ha⟩

end Machine

end HazardLifo.Interleaved
