import HazardLifo.Proofs.Interleaved.Custody
import HazardLifo.Proofs.Interleaved.Solo

/-!
# Validated candidates stay

A pop follows a node only after it has published the node's address and then found the node still on
top. From then on the node stays where it is until the pop tries to unlink it: a scan that began
before the publication ends before it can miss it, since the node was linked at the validation and
nobody had it in hand, and a later scan finds the address. `Machine.Guarded` states this for one
instant, with the scans of all threads under way, and `Machine.Sound` joins it with the other
invariants of reachable machines.
-/

namespace HazardLifo.Interleaved

variable {α : Type}

namespace Control

/-- The stack, the slot and the node of an attempt to pop that has validated its candidate and not
yet tried to unlink it. -/
def candidate? : Control α → Option (StackIndex × Nat × Block)
  | .following s i b | .unlinking s i b _ => some (s, i, b)
  | _ => none

/-- The thread may yet free block `b` without looking at slot `i`, or has it in hand for a push. -/
def Threatens (i : Nat) (b : Block) : Control α → Prop
  | .loading _ b' errand | .linking _ b' _ errand | .swinging _ b' _ errand =>
    errand.role = .pushing ∧ b' = b
  | .scanning _ b' _ j | .inspecting _ _ _ b' j => b' = b ∧ i < j
  | .freeing _ b' _ | .unwrapping _ _ _ b' | .burying _ _ b' => b' = b
  | _ => False

theorem slot?_of_candidate? {c : Control α} {s : StackIndex} {i : Nat} {b : Block}
    (h : c.candidate? = some (s, i, b)) : c.slot? = some i := by
  cases c <;> simp_all [candidate?, slot?]

theorem not_threatens_of_candidate? {c : Control α} {s : StackIndex} {i j : Nat} {b b' : Block}
    (h : c.candidate? = some (s, i, b)) : ¬ c.Threatens j b' := by
  cases c <;> simp_all [candidate?, Threatens]

end Control

namespace Machine

/-- What validation secures. -/
structure Guarded (M : Machine α) : Prop where
  seen : ∀ {t s i seen}, M.control? t = some (.validating s i seen) →
    M.memory.table.published? i = some (.ofLink seen)
  published : ∀ {t c s i b}, M.control? t = some c → c.candidate? = some (s, i, b) →
    M.memory.table.published? i = some (.block b)
  node : ∀ {t c s i b}, M.control? t = some c → c.candidate? = some (s, i, b) →
    ∃ v next, M.memory.object? b = some (.node v next) ∧
      ∀ x, c = .unlinking s i b x → x = next
  safe : ∀ {t c s i b}, M.control? t = some c → c.candidate? = some (s, i, b) →
    ∀ {u d}, M.control? u = some d → ¬ d.Threatens i b

/-- What holds of every reachable machine. -/
structure Sound (M : Machine α) : Prop where
  exclusive : M.Exclusive
  proper : ∀ {t c}, M.control? t = some c → c.Proper M.memory.words.length
  custody : ∃ G, Custody M.memory M.inHand G
  guarded : M.Guarded
  running : ∀ {t}, M.control? t ≠ some .crashed

end Machine

variable {m : Memory α} {g : Agent α} {a : Advance α} {grip : Nat → Grip} {G : Layout α} {t : Nat}

/-! ## One move -/

theorem Custody.mem_of_threatens (h : Custody m grip G) {c : Control α} (hγ : grip t = c.grip)
    {i : Nat} {b : Block} (hc : c.Threatens i b) : b ∈ G.blocks (.thread t) := by
  cases c with
  | loading w b' errand | linking w b' _ errand | swinging w b' _ errand =>
    obtain ⟨hrole, rfl⟩ := hc
    cases errand <;> first | exact h.mem_of_node hγ rfl | cases hrole
  | scanning => obtain ⟨rfl, -⟩ := hc; exact h.mem_of_node hγ rfl
  | inspecting => obtain ⟨rfl, -⟩ := hc; exact (h.mem_of_entry hγ rfl).2 _ rfl
  | freeing | burying => obtain rfl : _ = b := hc; exact h.mem_of_node hγ rfl
  | unwrapping => obtain rfl : _ = b := hc; exact (h.mem_of_entry hγ rfl).2 _ rfl
  | _ => exact hc.elim

/-- A block that a move's thread does not threaten, and that some slot publishes, is not threatened
after the move either. -/
theorem Move.not_threatens (hm : Move m g a) {i : Nat} {b : Block}
    (hpub : m.table.published? i = some (.block b)) (hb : (m.heap[b]?).isSome)
    (h : ¬ g.control.Threatens i b) : ¬ a.agent.control.Threatens i b := by
  obtain ⟨slot, hslot, hslotb⟩ := Option.map_eq_some_iff.1 hpub
  have hlt : i < m.table.slots.length := (List.getElem?_eq_some_iff.1 hslot).1
  -- a scan that finds nothing in slot `j` looks for another block, or has not come to slot `i`
  have hne : ∀ {j slot' b'}, m.table.slots[j]? = some slot' → slot'.published ≠ .block b' →
      b' = b → i < j + 1 → i < j := by
    rintro j slot' b' hj hp rfl hle
    refine Nat.lt_of_le_of_ne (Nat.le_of_lt_succ hle) fun hij => ?_
    subst hij
    rw [hslot] at hj
    obtain rfl := Option.some.inj hj
    exact hp hslotb
  cases hm with
  | quiet hq =>
    cases hq with
    | load | relink => exact h
    | clear hj => exact fun hb' => h ⟨hb', Nat.lt_of_lt_of_le hlt (List.getElem?_eq_none_iff.1 hj)⟩
    | scan hj hp => exact fun ⟨hb', hle⟩ => h ⟨hb', hne hj hp hb' hle⟩
    | pass hj => exact fun hb' => h ⟨hb', Nat.lt_of_lt_of_le hlt (List.getElem?_eq_none_iff.1 hj)⟩
    | inspect hj hp => exact fun ⟨hb', hle⟩ => h ⟨hb', hne hj hp hb' hle⟩
    | openEntry => exact fun ⟨_, hle⟩ => Nat.not_lt_zero i hle
    | keep => exact fun ⟨hrole, _⟩ => nomatch hrole
    | _ => exact id
  | publish hp => cases hp <;> exact id
  | take => exact fun ⟨_, hle⟩ => Nat.not_lt_zero i hle
  | aimNode | aimEntry | unwrap => exact h
  | count => exact fun ⟨hrole, _⟩ => nomatch hrole
  | make hnew =>
    rintro ⟨-, rfl⟩
    simp [hnew] at hb
  | _ => exact id

/-- A move whose thread does not threaten a node leaves it in place: the same use of the block, the
same link. -/
theorem Move.cell_of_node (hm : Move m g a) (h : Custody m grip G) (hγ : grip t = g.control.grip)
    {i serial : Nat} {b : Block} {v : Option α} {next : Option Block}
    (hb : m.heap[b]? = some ⟨serial, .node v next⟩) (hthreat : ¬ g.control.Threatens i b) :
    ∃ v', a.memory.heap[b]? = some ⟨serial, .node v' next⟩ := by
  have hfits : g.control.grip.Fits m (G.loose t) (G.carried t) := hγ ▸ h.hands t
  have hobj : m.object? b = some (.node v next) := Memory.object?_eq_some.2 ⟨serial, hb⟩
  cases hm with
  | @aimNode token held w b' seen errand v' next' hb' =>
    cases errand with
    | push =>
      have hne : b' ≠ b := fun hbb => hthreat ⟨rfl, hbb⟩
      exact ⟨v, by rw [Memory.getElem?_heap_overwrite, if_neg hne, hb]⟩
    | _ =>
      obtain ⟨n, x, tail, -, he, -⟩ := hfits.carries
      simp [hb'] at he
  | @aimEntry token held w e seen errand n next' he =>
    have hne : e ≠ b := by
      rintro rfl
      simp [he] at hobj
    exact ⟨v, by rw [Memory.getElem?_heap_overwrite, if_neg hne, hb]⟩
  | @take token held s b' v' next' hb' =>
    by_cases hne : b' = b
    · subst hne
      obtain ⟨rfl, rfl⟩ := Object.node.inj (Option.some.inj (hobj.symm.trans hb'))
      exact ⟨none, by simp [Memory.getElem?_heap_overwrite, hb]⟩
    · exact ⟨v, by rw [Memory.getElem?_heap_overwrite, if_neg hne, hb]⟩
  | @free token held s b' =>
    have hne : b' ≠ b := hthreat
    exact ⟨v, by rw [Memory.getElem?_heap_free, if_neg hne, hb]⟩
  | @bury token held pass rest b' =>
    have hne : b' ≠ b := hthreat
    exact ⟨v, by rw [Memory.getElem?_heap_free, if_neg hne, hb]⟩
  | @unwrap token held pass e rest b' n x he =>
    have hne : e ≠ b := by
      rintro rfl
      simp [he] at hobj
    exact ⟨v, by rw [Memory.getElem?_heap_free, if_neg hne, hb]⟩
  | make hnew | wrap hnew =>
    refine ⟨v, ?_⟩
    rw [Memory.getElem?_heap_allocate, if_neg, hb]
    rintro rfl
    simp [hnew] at hb
  | _ => exact ⟨v, by simpa [Memory.mapTable, Memory.mapGauge] using hb⟩

theorem Move.candidate_cases (hm : Move m g a) {s : StackIndex} {i : Nat} {b : Block}
    (h : a.agent.control.candidate? = some (s, i, b)) :
    a.memory = m ∧
      ((g.control = .validating s i (some b) ∧ a.agent.control = .following s i b ∧
          m.load (.top s) = some b) ∨
        ∃ v next, g.control = .following s i b ∧ a.agent.control = .unlinking s i b next ∧
          m.object? b = some (.node v next)) := by
  cases hm with
  | quiet hq =>
    cases hq with
    | validate htop =>
      obtain ⟨rfl, rfl, rfl⟩ : _ = s ∧ _ = i ∧ _ = b := by simpa [Control.candidate?] using h
      exact ⟨rfl, .inl ⟨rfl, rfl, htop⟩⟩
    | follow hb =>
      obtain ⟨rfl, rfl, rfl⟩ : _ = s ∧ _ = i ∧ _ = b := by simpa [Control.candidate?] using h
      exact ⟨rfl, .inr ⟨_, _, rfl, rfl, hb⟩⟩
    | _ => cases h
  | publish hp => cases hp <;> cases h
  | _ => cases h

theorem Move.table_of_validating (hm : Move m g a) {s : StackIndex} {i : Nat} {seen : Option Block}
    (h : a.agent.control = .validating s i seen) :
    a.memory.table = m.table.publish i (.ofLink seen) := by
  cases hm with
  | quiet hq => cases hq <;> cases h
  | publish hp =>
    cases hp with
    | guard =>
      obtain ⟨rfl, rfl, rfl⟩ := Control.validating.inj h
      rfl
    | _ => cases h
  | _ => cases h

theorem Move.lost_of_crashed (hm : Move m g a) (h : a.agent.control = .crashed) :
    Lost m g.control := by
  cases hm with
  | crash hl => exact hl
  | quiet hq => cases hq <;> cases h
  | publish hp => cases hp <;> cases h
  | _ => cases h

/-! ## One step of the machine -/

namespace Machine

variable {M M' : Machine α}

theorem Guarded.congr (h : M.Guarded) (hm : M'.memory = M.memory)
    (hc : ∀ {t c}, M'.control? t = some c → M.control? t = some c ∨
      (∀ s i seen, c ≠ .validating s i seen) ∧ c.candidate? = none ∧ ∀ i b, ¬ c.Threatens i b) :
    M'.Guarded := by
  have hcand : ∀ {t c p}, M'.control? t = some c → c.candidate? = some p → M.control? t = some c :=
    fun ht hp => (hc ht).resolve_right fun hnone => by simp [hnone.2.1] at hp
  refine ⟨fun ht => ?_, fun ht hp => ?_, fun ht hp => ?_, fun ht hp _ _ hu hthreat => ?_⟩
  · rw [hm]
    exact h.seen ((hc ht).resolve_right fun hnone => hnone.1 _ _ _ rfl)
  · rw [hm]
    exact h.published (hcand ht hp) hp
  · rw [hm]
    exact h.node (hcand ht hp) hp
  · rcases hc hu with hu | ⟨-, -, hnone⟩
    · exact h.safe (hcand ht hp) hp hu hthreat
    · exact hnone _ _ hthreat

namespace Sound

theorem slot?_ne (h : M.Sound) {t u : Nat} (hu : M.agents[u]? = some g) (hne : t ≠ u)
    {c : Control α} (hc : M.control? t = some c) {i : Nat} (hi : c.slot? = some i) :
    g.control.slot? ≠ some i := by
  obtain ⟨k, ht, rfl⟩ := control?_eq_some.1 hc
  exact fun hi' => hne (h.exclusive.unique ⟨k, ht, h.exclusive.uses ht hi⟩
    ⟨g, hu, h.exclusive.uses hu hi'⟩)

theorem isSome_published? (h : M.Sound) {t : Nat} (ht : M.agents[t]? = some g) {i : Nat}
    (hi : g.control.slot? = some i) : (M.memory.table.published? i).isSome := by
  have hown : (M.memory.table.owner i).isSome := by
    refine (h.exclusive.owned_iff i).2 ?_
    exact List.mem_flatMap.2 ⟨g, List.mem_of_getElem? ht, h.exclusive.uses ht hi⟩
  simpa [SlotTable.published?] using SlotTable.owner_isSome_lt hown

theorem not_threatens_top (h : M.Sound) {s : StackIndex} {b : Block}
    (htop : M.memory.load (.top s) = some b) {u i : Nat} {d : Control α}
    (hu : M.control? u = some d) : ¬ d.Threatens i b := by
  obtain ⟨G, hG⟩ := h.custody
  obtain ⟨v, x, rest, hlinked, -⟩ := (htop ▸ hG.linked s).exists_cons
  intro hthreat
  have hmem := hG.mem_of_threatens (inHand_eq hu) hthreat
  exact hG.notMem_of_thread hmem (k := .top s) nofun
    (List.mem_append_left _ (by simp [Layout.nodes, hlinked]))

theorem node_top (h : M.Sound) {s : StackIndex} {b : Block}
    (htop : M.memory.load (.top s) = some b) :
    ∃ v next, M.memory.object? b = some (.node (some v) next) := by
  obtain ⟨G, hG⟩ := h.custody
  obtain ⟨v, next, rest, -, hnode, -⟩ := (htop ▸ hG.linked s).exists_cons
  exact ⟨v, next, Memory.node?_eq_some.1 hnode⟩

theorem cell_of_candidate (h : M.Sound) {t u : Nat} {c : Control α} {s : StackIndex} {i : Nat}
    {b : Block} (ht : M.control? t = some c) (hc : c.candidate? = some (s, i, b))
    (hu : M.agents[u]? = some g) (hm : Move M.memory g a) {serial : Nat} {v : Option α}
    {next : Option Block} (hb : M.memory.heap[b]? = some ⟨serial, .node v next⟩) :
    ∃ v', a.memory.heap[b]? = some ⟨serial, .node v' next⟩ := by
  obtain ⟨G, hG⟩ := h.custody
  have hu' : M.control? u = some g.control := control?_eq hu
  exact hm.cell_of_node hG (inHand_eq hu') hb (h.guarded.safe ht hc hu')

theorem seen_move (h : M.Sound) {t : Nat} (ht : M.agents[t]? = some g) (hm : Move M.memory g a)
    {u : Nat} {s : StackIndex} {i : Nat} {seen : Option Block}
    (hc : (⟨a.memory, M.agents.set t a.agent⟩ : Machine α).control? u =
      some (.validating s i seen)) : a.memory.table.published? i = some (.ofLink seen) := by
  rcases (control?_set_eq_some ht).1 hc with ⟨rfl, hcontrol⟩ | ⟨hu, hc⟩
  · have hslot : g.control.slot? = some i := hm.slot?_eq (by rw [hcontrol]; rfl)
    obtain ⟨x, hx⟩ := Option.isSome_iff_exists.1 (h.isSome_published? ht hslot)
    rw [hm.table_of_validating hcontrol, SlotTable.published?_publish, if_pos rfl, hx]
    rfl
  · rw [hm.published?_eq (h.slot?_ne ht hu hc rfl)]
    exact h.guarded.seen hc

theorem published_move (h : M.Sound) {t : Nat} (ht : M.agents[t]? = some g)
    (hm : Move M.memory g a) {u : Nat} {c : Control α} {s : StackIndex} {i : Nat} {b : Block}
    (hc : (⟨a.memory, M.agents.set t a.agent⟩ : Machine α).control? u = some c)
    (hcand : c.candidate? = some (s, i, b)) :
    a.memory.table.published? i = some (.block b) := by
  have htc : M.control? t = some g.control := control?_eq ht
  rcases (control?_set_eq_some ht).1 hc with ⟨rfl, rfl⟩ | ⟨hu, hc⟩
  · obtain ⟨hmem, ⟨hg, -, -⟩ | ⟨v, next, hg, -, -⟩⟩ := hm.candidate_cases hcand
    · rw [hmem]
      exact h.guarded.seen (hg ▸ htc)
    · rw [hmem]
      exact h.guarded.published htc (by rw [hg]; rfl)
  · rw [hm.published?_eq (h.slot?_ne ht hu hc (Control.slot?_of_candidate? hcand))]
    exact h.guarded.published hc hcand

theorem node_move (h : M.Sound) {t : Nat} (ht : M.agents[t]? = some g) (hm : Move M.memory g a)
    {u : Nat} {c : Control α} {s : StackIndex} {i : Nat} {b : Block}
    (hc : (⟨a.memory, M.agents.set t a.agent⟩ : Machine α).control? u = some c)
    (hcand : c.candidate? = some (s, i, b)) :
    ∃ v next, a.memory.object? b = some (.node v next) ∧
      ∀ x, c = .unlinking s i b x → x = next := by
  rcases (control?_set_eq_some ht).1 hc with ⟨rfl, rfl⟩ | ⟨hu, hc⟩
  · obtain ⟨hmem, ⟨-, hc', htop⟩ | ⟨v, next, -, hc', hb⟩⟩ := hm.candidate_cases hcand
    · obtain ⟨v, next, hb⟩ := h.node_top htop
      exact ⟨some v, next, hmem ▸ hb, fun x hx => by rw [hc'] at hx; cases hx⟩
    · refine ⟨v, next, hmem ▸ hb, fun x hx => ?_⟩
      rw [hc'] at hx
      exact (Control.unlinking.inj hx).2.2.2.symm
  · obtain ⟨v, next, hb, hnext⟩ := h.guarded.node hc hcand
    obtain ⟨serial, hcell⟩ := Memory.object?_eq_some.1 hb
    obtain ⟨v', hcell'⟩ := h.cell_of_candidate hc hcand ht hm hcell
    exact ⟨v', next, Memory.object?_eq_some.2 ⟨serial, hcell'⟩, hnext⟩

/-- A new candidate is on top of its stack; an old one is published, and every scan has still to
come to its slot. -/
theorem safe_move (h : M.Sound) {t : Nat} (ht : M.agents[t]? = some g) (hm : Move M.memory g a)
    {u w : Nat} {c d : Control α} {s : StackIndex} {i : Nat} {b : Block}
    (hc : (⟨a.memory, M.agents.set t a.agent⟩ : Machine α).control? u = some c)
    (hcand : c.candidate? = some (s, i, b))
    (hd : (⟨a.memory, M.agents.set t a.agent⟩ : Machine α).control? w = some d) :
    ¬ d.Threatens i b := by
  have htc : M.control? t = some g.control := control?_eq ht
  rcases (control?_set_eq_some ht).1 hc with ⟨rfl, rfl⟩ | ⟨hu, hold⟩
  · obtain ⟨hmem, hcases⟩ := hm.candidate_cases hcand
    rcases (control?_set_eq_some ht).1 hd with ⟨-, rfl⟩ | ⟨hw, hd⟩
    · exact Control.not_threatens_of_candidate? hcand
    · rcases hcases with ⟨-, -, htop⟩ | ⟨v, next, hg, -, -⟩
      · exact h.not_threatens_top htop hd
      · exact h.guarded.safe (i := i) htc (by rw [hg]; rfl) hd
  · rcases (control?_set_eq_some ht).1 hd with ⟨rfl, rfl⟩ | ⟨hw, hd⟩
    · obtain ⟨v, next, hb, -⟩ := h.guarded.node hold hcand
      have hsome : (M.memory.heap[b]?).isSome := by
        rw [← Memory.isSome_object?, hb]
        rfl
      exact hm.not_threatens (h.guarded.published hold hcand) hsome (h.guarded.safe hold hcand htc)
    · exact h.guarded.safe hold hcand hd

theorem guarded_move (h : M.Sound) {t : Nat} (ht : M.agents[t]? = some g)
    (hm : Move M.memory g a) : (⟨a.memory, M.agents.set t a.agent⟩ : Machine α).Guarded where
  seen := h.seen_move ht hm
  published := h.published_move ht hm
  node := h.node_move ht hm
  safe := fun hc hcand _ _ hd => h.safe_move ht hm hc hcand hd

theorem next_eq (h : M.Sound) {t : Nat} {s : StackIndex} {i : Nat} {b : Block} {next : Option Block}
    (ht : M.control? t = some (.unlinking s i b next)) {v : α} {x : Option Block}
    (hb : M.memory.node? b = some (v, x)) : next = x := by
  obtain ⟨v', x', hobj, hnext⟩ := h.guarded.node ht rfl
  rw [Memory.node?_eq_some, hobj] at hb
  obtain ⟨-, rfl⟩ := Object.node.inj (Option.some.inj hb)
  exact hnext next rfl

theorem custody_move (h : M.Sound) {t : Nat} (ht : M.agents[t]? = some g) (hm : Move M.memory g a)
    {G : Layout α} (hG : Custody M.memory M.inHand G) :
    ∃ G', Shift t G g.control a.agent.control G' ∧
      Custody a.memory (⟨a.memory, M.agents.set t a.agent⟩ : Machine α).inHand G' := by
  have htc : M.control? t = some g.control := control?_eq ht
  rw [inHand_set ht]
  refine hG.move (inHand_eq htc) (h.proper htc) (fun s i b next hc v x hb => ?_) hm
  exact h.next_eq (hc ▸ htc) hb

theorem step (h : M.Sound) {act : Act α} {marks : List (Mark α)} (hs : Step M act M' marks) :
    M'.Sound := by
  have hexclusive := h.exclusive.step hs
  cases hs with
  | @call t g command ht hc hslot hstack =>
    obtain ⟨G, hG⟩ := h.custody
    refine ⟨hexclusive, fun hu => ?_, ⟨G, ?_⟩, h.guarded.congr rfl fun hu => ?_, fun hu => ?_⟩
    · rcases (control?_set_eq_some ht).1 hu with ⟨-, rfl⟩ | ⟨-, hu⟩
      · cases command <;> exact ⟨fun s hs => hstack s hs, trivial⟩
      · exact h.proper hu
    · rwa [inHand_call ht hc]
    · rcases (control?_set_eq_some ht).1 hu with ⟨-, rfl⟩ | ⟨-, hu⟩
      · right
        cases command <;> exact ⟨nofun, rfl, fun _ _ => id⟩
      · exact .inl hu
    · rcases (control?_set_eq_some ht).1 hu with ⟨-, hentry⟩ | ⟨-, hu⟩
      · cases command <;> cases hentry
      · exact h.running hu
  | @move t g a act hact ht hm =>
    have htc : M.control? t = some g.control := control?_eq ht
    obtain ⟨G, hG⟩ := h.custody
    obtain ⟨G', -, hG'⟩ := h.custody_move ht hm hG
    refine ⟨hexclusive, fun {u c} hu => ?_, ⟨G', hG'⟩, h.guarded_move ht hm, fun {u} hu => ?_⟩
    · rw [hm.length_words]
      rcases (control?_set_eq_some ht).1 hu with ⟨-, rfl⟩ | ⟨-, hu⟩
      · exact hm.proper (h.proper htc)
      · exact h.proper hu
    · rcases (control?_set_eq_some ht).1 hu with ⟨-, hcrashed⟩ | ⟨-, hu⟩
      · -- only a read of a candidate could fail, and the candidate is there
        obtain ⟨s, i, b, hc, hlost⟩ :=
          (hm.lost_of_crashed hcrashed).eq_following hG (inHand_eq htc)
        obtain ⟨v, next, hb, -⟩ := h.guarded.node (i := i) (hc ▸ htc) rfl
        exact hlost v next hb
      · exact h.running hu
  | @handOver t u i g g' ht hu hne hi hc hc' =>
    have hcontrol := control?_handOver ht hu (i := i)
    obtain ⟨G, hG⟩ := h.custody
    refine ⟨hexclusive, fun hv => h.proper (hcontrol _ ▸ hv), ⟨G, ?_⟩,
      h.guarded.congr rfl fun hv => .inl (hcontrol _ ▸ hv), fun hv => h.running (hcontrol _ ▸ hv)⟩
    rw [show Machine.inHand _ = M.inHand from funext fun v => by simp only [inHand, hcontrol]]
    exact hG

theorem not_crashed (h : M.Sound) (ht : M.agents[t]? = some g) (hm : Move M.memory g a) :
    a.agent.control ≠ .crashed := fun hc => by
  have hstep : Step M (.step t) ⟨a.memory, M.agents.set t a.agent⟩ a.marks := .move rfl ht hm
  exact (h.step hstep).running (t := t) (by rw [control?_set_self ht, hc])

end Sound

theorem control?_start {capacity count : Nat} {tokens : List Token} {t : Nat} {c : Control α}
    (h : (start capacity count tokens : Machine α).control? t = some c) : c = .idle := by
  obtain ⟨g, hg, rfl⟩ := control?_eq_some.1 h
  simp only [start, List.getElem?_map, Option.map_eq_some_iff] at hg
  obtain ⟨token, -, rfl⟩ := hg
  rfl

/-- At the start no block is in use and every place is empty. -/
theorem sound_start (capacity count : Nat) (tokens : List Token) :
    (start capacity count tokens : Machine α).Sound := by
  have hload : ∀ w, (Memory.start capacity count : Memory α).load w = none := fun w => by
    cases w <;> simp [Memory.load, Memory.start, List.getElem?_replicate]
  have hhand : ∀ t, (start capacity count tokens : Machine α).inHand t = {} := fun t => by
    unfold inHand
    cases hc : (start capacity count tokens : Machine α).control? t with
    | none => rfl
    | some c => rw [control?_start hc]; rfl
  refine ⟨exclusive_start capacity count tokens, fun hc => ?_,
    ⟨⟨fun _ => [], fun _ => [], fun _ => none, fun _ => []⟩, ?_⟩, ?_, fun hc => ?_⟩
  · obtain rfl := control?_start hc
    exact ⟨by simp [Control.stack?], trivial⟩
  · refine ⟨fun s => hload _, fun s => hload _, fun t => hhand t ▸ Grip.fits_empty _,
      fun {k p} hp => ?_, ?_⟩
    · cases k <;> cases hp
    refine ⟨fun k => ?_, fun {k k' b} hb => ?_, fun b => ?_⟩
    · cases k <;> exact List.nodup_nil
    · cases k <;> cases hb
    · constructor
      · intro hb
        simp [start, Memory.start] at hb
      · rintro ⟨k, hb⟩
        cases k <;> cases hb
  · refine ⟨fun hc => ?_, fun hc hcand => ?_, fun hc hcand => ?_, fun hc hcand => ?_⟩
    · cases control?_start hc
    all_goals
      obtain rfl := control?_start hc
      cases hcand
  · cases control?_start hc

theorem Sound.of_reaches {capacity count : Nat} {tokens : List Token}
    (h : (start capacity count tokens).Reaches M) : M.Sound :=
  invariant_of_step (fun h hs => h.step hs) (sound_start capacity count tokens) h

/-! ## From the validation to the exchange -/

/-- Thread `t` has validated its candidate and not yet tried to unlink it, and the candidate is in
place: this use of its block, with this link. -/
def Attempts (M : Machine α) (t : Nat) (s : StackIndex) (i : Nat) (b : Block) (serial : Nat)
    (next : Option Block) : Prop :=
  (M.control? t = some (.following s i b) ∨ M.control? t = some (.unlinking s i b next)) ∧
    ∃ v, M.memory.heap[b]? = some ⟨serial, .node v next⟩

variable {act : Act α} {marks : List (Mark α)} {t i serial : Nat} {s : StackIndex} {b : Block}
  {next : Option Block}

theorem Attempts.candidate (h : M.Attempts t s i b serial next) :
    ∃ c, M.control? t = some c ∧ c.candidate? = some (s, i, b) :=
  h.1.elim (fun hc => ⟨_, hc, rfl⟩) fun hc => ⟨_, hc, rfl⟩

theorem Attempts.busy (h : M.Attempts t s i b serial next) : M.control? t ≠ some .idle := by
  rcases h.1 with hc | hc <;> rw [hc] <;> nofun

theorem Attempts.step (h : M.Attempts t s i b serial next) (hsound : M.Sound)
    (hact : act.mover? ≠ some t) (hs : Step M act M' marks) : M'.Attempts t s i b serial next := by
  obtain ⟨c, htc, hcand⟩ := h.candidate
  have hcontrol := hs.control?_eq hact h.busy
  obtain ⟨hc, v, hb⟩ := h
  refine ⟨hcontrol ▸ hc, ?_⟩
  cases hs with
  | move hmover hu hm => exact hsound.cell_of_candidate htc hcand hu hm hb
  | _ => exact ⟨v, hb⟩

theorem Attempts.follow (h : M.Attempts t s i b serial next)
    (hc : M.control? t = some (.following s i b)) (hact : act.mover? = some t)
    (hs : Step M act M' marks) : M'.Attempts t s i b serial next := by
  obtain ⟨-, v, hb⟩ := h
  have hobj : M.memory.object? b = some (.node v next) := Memory.object?_eq_some.2 ⟨serial, hb⟩
  obtain ⟨⟨token, held, c⟩, hg, rfl⟩ := control?_eq_some.1 hc
  obtain ⟨a, hm, rfl, -⟩ := hs.exists_move hact hg
  cases hm with
  | quiet hq =>
    cases hq with
    | follow hb' =>
      obtain ⟨rfl, rfl⟩ := Object.node.inj (Option.some.inj (hobj.symm.trans hb'))
      exact ⟨.inr (control?_set_self hg ..), v, hb⟩
  | publish hp => cases hp
  | crash hl =>
    cases hl with
    | following hlost => exact absurd hobj (hlost v next)

/-- Until the exchange, an attempt goes on undisturbed. -/
theorem Attempts.run (h : M.Attempts t s i b serial next) (hsound : M.Sound) {acts : List (Act α)}
    (hown : (∀ act ∈ acts, act.mover? ≠ some t) ∨
      M.control? t = some (.following s i b) ∧ acts.countP (·.mover? = some t) ≤ 1)
    (hrun : M.run? acts = some M') : M'.Attempts t s i b serial next := by
  induction acts generalizing M with
  | nil => exact Option.some.inj hrun ▸ h
  | cons act acts ih =>
    obtain ⟨M₁, marks, hact, hrun⟩ := run?_cons_eq_some.1 hrun
    have hs := act?_step hact
    have hsound₁ := hsound.step hs
    by_cases hmover : act.mover? = some t
    · -- the one step of its own: none is left
      obtain ⟨hc, hcount⟩ := hown.resolve_left fun hnone => hnone act (by simp) hmover
      refine ih (h.follow hc hmover hs) hsound₁ (.inl fun act' hact' hmover' => ?_) hrun
      have hpos : 0 < acts.countP (·.mover? = some t) :=
        List.countP_pos_iff.2 ⟨act', hact', by simpa using hmover'⟩
      simp only [List.countP_cons, hmover, decide_true, if_true] at hcount
      omega
    · refine ih (h.step hsound hmover hs) hsound₁ ?_ hrun
      rcases hown with hnone | ⟨hc, hcount⟩
      · exact .inl fun act' hact' => hnone act' (List.mem_cons_of_mem _ hact')
      · refine .inr ⟨(hs.control?_eq hmover h.busy).trans hc, ?_⟩
        simpa [List.countP_cons, hmover] using hcount

theorem Sound.attempts_of_validate (h : M.Sound)
    (hc : M.control? t = some (.validating s i (some b))) (htop : M.memory.load (.top s) = some b)
    (hact : M.act? (.step t) = some (M', marks)) :
    ∃ serial v next, M.memory.heap[b]? = some ⟨serial, .node (some v) next⟩ ∧
      M'.control? t = some (.following s i b) ∧ M'.Attempts t s i b serial next := by
  obtain ⟨v, next, hobj⟩ := h.node_top htop
  obtain ⟨serial, hb⟩ := Memory.object?_eq_some.1 hobj
  obtain ⟨g, hg, hgc⟩ := control?_eq_some.1 hc
  have hstep : g.step M.memory = some ⟨M.memory, g.goTo (.following s i b), []⟩ := by
    simp only [Agent.step, hgc, htop, if_true]
  obtain ⟨rfl, -⟩ : ⟨M.memory, M.agents.set t (g.goTo (.following s i b))⟩ = M' ∧ [] = marks := by
    simpa [act?, hg, hstep, settle] using hact
  have hc' : (⟨M.memory, M.agents.set t (g.goTo (.following s i b))⟩ : Machine α).control? t =
      some (.following s i b) := by
    rw [control?_set_self hg]
    rfl
  exact ⟨serial, v, next, hb, hc', .inl hc', some v, hb⟩

/-- No use after free and no ABA: no thread ever reads, writes or frees a block that is not what it
expects, and a candidate that was validated on top of its stack stays the same use of its block,
with the same link, until the thread tries to unlink it. If the block is on top of the stack then,
the link that goes to the head word is that of the node on top. -/
theorem no_use_after_free_no_aba {capacity count : Nat} {tokens : List Token}
    (h : (start capacity count tokens).Reaches M) :
    (∀ t, M.control? t ≠ some .crashed) ∧
      ∀ t s i b, M.control? t = some (.validating s i (some b)) →
        M.memory.load (.top s) = some b →
        ∀ M₁ marks, M.act? (.step t) = some (M₁, marks) →
        ∀ acts M₂, M₁.run? acts = some M₂ → acts.countP (·.mover? = some t) ≤ 1 →
        ∃ serial v next, M.memory.heap[b]? = some ⟨serial, .node (some v) next⟩ ∧
          M₂.Attempts t s i b serial next ∧
          (M₂.memory.load (.top s) = some b →
            ∃ v', M₂.memory.heap[b]? = some ⟨serial, .node (some v') next⟩) := by
  have hsound := Sound.of_reaches h
  refine ⟨fun t => hsound.running, fun t s i b hc htop M₁ marks hact acts M₂ hrun hown => ?_⟩
  obtain ⟨serial, v, next, hb, hfollowing, hatt⟩ := hsound.attempts_of_validate hc htop hact
  have hsound₁ := hsound.step (act?_step hact)
  have hatt₂ := hatt.run hsound₁ (.inr ⟨hfollowing, hown⟩) hrun
  refine ⟨serial, v, next, hb, hatt₂, fun htop₂ => ?_⟩
  have hsound₂ : M₂.Sound := invariant_of_step (fun h hs => h.step hs) hsound₁ ⟨acts, hrun⟩
  obtain ⟨v₂, next₂, hobj₂⟩ := hsound₂.node_top htop₂
  obtain ⟨-, v', hb'⟩ := hatt₂
  obtain ⟨rfl, rfl⟩ : v' = some v₂ ∧ next = next₂ := by
    simpa [Memory.object?, hb'] using hobj₂
  exact ⟨v₂, hb'⟩

/-- A thread that runs alone pushes a value, acquires a slot, and comes to unlink its node. -/
theorem solo_pop_attempts : ∃ M M₁ M₂ : Machine Nat, (start 1 1 [1]).Reaches M ∧
    M.control? 0 = some (.validating 0 0 (some 3)) ∧ M.act? (.step 0) = some (M₁, []) ∧
    M₁.run? [.step 0] = some M₂ ∧ M₂.memory.load (.top 0) = some 3 ∧
    ∃ serial v next, M₂.Attempts 0 0 0 3 serial next ∧
      M₂.memory.heap[3]? = some ⟨serial, .node (some v) next⟩ := by
  obtain ⟨m, hreach, htop, hobj⟩ : ∃ m : Memory Nat,
      (start 1 1 [1]).Reaches ⟨m, [⟨1, [0], .validating 0 0 (some 3)⟩]⟩ ∧
        m.load (.top 0) = some 3 ∧ m.object? 3 = some (.node (some 7) none) := by
    have hlen : 0 < [(⟨1, [], .idle⟩ : Agent Nat)].length := by decide
    obtain ⟨m, hrun, htable, hwords, -, hload, hheap⟩ :=
      run?_push hlen (g := ⟨1, [], .idle⟩) rfl (m := Memory.start 1 1) (s := 0) (by decide) (b := 3)
        (by simp [Memory.start]) 7 (.call 0 .acquire :: .step 0 :: .call 0 (.pop 0 0) :: .step 0 ::
          .step 0 :: [])
    have htop : m.load (.top 0) = some 3 := by rw [hload, if_pos rfl]
    rw [run?_acquire hlen rfl (by rw [htable]; rfl),
      run?_pop hlen rfl (by simp [Memory.mapTable, hwords, Memory.start]) (by simp)] at hrun
    simp only [Memory.load_mapTable, htop] at hrun
    refine ⟨_, ⟨_, hrun⟩, by simpa using htop, ?_⟩
    simp [Memory.mapTable, Memory.object?, hheap, Memory.load, Memory.start]
  have hvalidate : (⟨m, [⟨1, [0], .validating 0 0 (some 3)⟩]⟩ : Machine Nat).act? (.step 0) =
      some (⟨m, [⟨1, [0], .following 0 0 3⟩]⟩, []) := by
    simp [act?, Agent.step, Agent.goTo, htop, settle]
  have hfollow : (⟨m, [⟨1, [0], .following 0 0 3⟩]⟩ : Machine Nat).run? [.step 0] =
      some ⟨m, [⟨1, [0], .unlinking 0 0 3 none⟩]⟩ := by
    simp [run?, act?, Agent.step, Agent.goTo, hobj, settle]
  obtain ⟨serial, v, next, -, hatt, htop'⟩ :=
    (no_use_after_free_no_aba hreach).2 0 0 0 3 rfl htop _ _ hvalidate _ _ hfollow (by decide)
  obtain ⟨v', hb⟩ := htop' htop
  exact ⟨_, _, _, hreach, rfl, hvalidate, hfollow, htop, serial, v', next, hatt, hb⟩

end Machine

end HazardLifo.Interleaved
