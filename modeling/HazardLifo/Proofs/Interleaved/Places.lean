import HazardLifo.Proofs.Interleaved.Candidate

/-!
# Where every allocation is

An allocation, known by its serial number, is a node or an entry. `Machine.At` says in which place
it is, read off the memory and the threads; `Place.Next` lists the ways from one place to the next.
In every reachable machine each allocation is in exactly one place, and it moves along these ways
only.
-/

namespace HazardLifo.Interleaved

variable {α : Type}

/-! ## Places -/

inductive Place where
  | pushing (t : Nat)
  | linked (s : StackIndex)
  /-- A node that a pop has unlinked, and whether its value is taken. -/
  | won (t : Nat) (taken : Bool)
  | retiring (t : Nat)
  | waiting (s : StackIndex)
  | detached (t : Nat)
  /-- A node out of an entry that a sweep has just freed. -/
  | unwrapped (t : Nat)
  | freed
  deriving DecidableEq, Repr

namespace Place

/-- The ways from one place to the next, by a move of thread `t`. -/
inductive Next (t : Nat) : Place → Place → Prop where
  | link {s} : Next t (pushing t) (linked s)
  | unlink {s} : Next t (linked s) (won t false)
  | take : Next t (won t false) (won t true)
  | free : Next t (won t true) freed
  | wrap : Next t (won t true) (retiring t)
  | retire {s} : Next t (retiring t) (waiting s)
  | detach {s} : Next t (waiting s) (detached t)
  | defer {s} : Next t (detached t) (waiting s)
  | unwrap : Next t (detached t) (unwrapped t)
  | drop : Next t (detached t) freed
  | bury : Next t (unwrapped t) freed

/-- How far an allocation has come. Only between limbo and the sweeps there is a way back. -/
def rank : Place → Nat
  | pushing _ => 0
  | linked _ => 1
  | won _ false => 2
  | won _ true => 3
  | retiring _ => 4
  | waiting _ | detached _ => 5
  | unwrapped _ => 6
  | freed => 7

theorem Next.rank_le {t : Nat} {p p' : Place} (h : Next t p p') : p.rank ≤ p'.rank := by
  cases h <;> simp [rank]

end Place

namespace Control

def nodePlace (t : Nat) : Control α → Place
  | .clearing .. | .taking .. => .won t false
  | .scanning .. | .freeing .. | .wrapping .. => .won t true
  | .burying .. => .unwrapped t
  | _ => .pushing t

def entryPlace (t : Nat) : Control α → Place
  | .counting .. | .loading _ _ (.retire ..) | .linking _ _ _ (.retire ..)
  | .swinging _ _ _ (.retire ..) => .retiring t
  | _ => .detached t

def frees? : Control α → Option Block
  | .freeing _ b _ | .burying _ _ b => some b
  | .unwrapping _ e _ _ => some e
  | _ => none

theorem entryPlace_eq (t : Nat) (c : Control α) :
    c.entryPlace t = if c.role = .retiring then .retiring t else .detached t := by
  cases c with
  | loading w b errand | linking w b _ errand | swinging w b _ errand => cases errand <;> rfl
  | clearing s i won => cases won <;> rfl
  | _ => rfl

end Control

/-! ## Reading the lists -/

namespace Memory

def linked (m : Memory α) (s : StackIndex) : List (Block × α) :=
  follow m.node? m.heap.size (m.load (.top s))

def waiting (m : Memory α) (s : StackIndex) : List (Block × Block) :=
  follow m.wrapped? m.heap.size (m.load (.limbo s))

end Memory

def Grip.entries (m : Memory α) (γ : Grip) : List (Block × Block) :=
  (γ.entry.bind fun p => (m.wrapped? p.1).map fun q => (p.1, q.1)).toList ++
    follow m.wrapped? m.heap.size γ.rest

namespace Custody

variable {m : Memory α} {grip : Nat → Grip} {G : Layout α}

theorem linked_eq (h : Custody m grip G) (s : StackIndex) : m.linked s = G.linked s :=
  (h.linked s).follow_eq (h.length_linked_le s)

theorem waiting_eq (h : Custody m grip G) (s : StackIndex) : m.waiting s = G.waiting s := by
  have hlen := h.length_blocks_le (.limbo s)
  simp only [Layout.blocks, Layout.nodes, Layout.entries, List.nil_append, length_unpack] at hlen
  exact (h.waiting s).follow_eq (by omega)

theorem entries_eq (h : Custody m grip G) (t : Nat) : (grip t).entries m = G.carried t := by
  have hlen := h.length_blocks_le (.thread t)
  simp only [Layout.blocks, Layout.entries, List.length_append, length_unpack] at hlen
  have hc := h.carries (t := t) rfl
  unfold Grip.Carries at hc
  unfold Grip.entries
  split at hc
  · rename_i he
    rw [he, hc.follow_eq (by omega)]
    rfl
  · rename_i e known he
    obtain ⟨n, next, tail, htail, hentry, -, -, hrest⟩ := hc
    rw [htail, List.length_cons] at hlen
    rw [he, hrest.follow_eq (by omega), Option.bind_some, Memory.wrapped?_eq_some.2 hentry, htail]
    rfl

end Custody

/-! ## Serial numbers -/

/-- Every block in use has a serial number of its own, out of those given so far. -/
structure Memory.Stamped (m : Memory α) : Prop where
  lt : ∀ {b k}, m.serial? b = some k → k < m.births
  unique : ∀ {b b' k}, m.serial? b = some k → m.serial? b' = some k → b = b'

variable {m : Memory α} {g : Agent α} {a : Advance α}

/-- A move keeps the serial numbers of the blocks that it does not free, or gives a free block the
next number. -/
theorem Move.stamps (hm : Move m g a) :
    (a.memory.births = m.births ∧ ∀ b k, a.memory.serial? b = some k → m.serial? b = some k) ∨
      a.memory.births = m.births + 1 ∧ ∃ b, m.serial? b = none ∧
        (∀ b', a.memory.serial? b' = if b = b' then some m.births else m.serial? b') ∧
        ((∃ s v, g.control = .making s v ∧ a.agent.control = .loading (.top s) b .push) ∨
          ∃ s n v, g.control = .wrapping s n v ∧ a.agent.control = .counting s n b v) := by
  have hoverwrite : ∀ b o, (m.overwrite b o).births = m.births ∧
      ∀ b' k, (m.overwrite b o).serial? b' = some k → m.serial? b' = some k := fun b o => by
    refine ⟨?_, fun b' k hk => ?_⟩
    · unfold Memory.overwrite
      split <;> rfl
    · rw [← hk]
      simp only [Memory.serial?, Memory.getElem?_heap_overwrite]
      split
      · rename_i hb
        rw [hb, Option.map_map]
        rfl
      · rfl
  have hfree : ∀ b b' k, (m.free b).serial? b' = some k → m.serial? b' = some k :=
    fun b b' k hk => by
      simp only [Memory.serial?, Memory.getElem?_heap_free] at hk ⊢
      split at hk
      · cases hk
      · exact hk
  have hallocate : ∀ b o b', (m.allocate b o).serial? b' =
      if b = b' then some m.births else m.serial? b' := fun b o b' => by
    simp only [Memory.serial?, Memory.getElem?_heap_allocate]
    split <;> rfl
  cases hm with
  | aimNode | aimEntry | take => exact .inl (hoverwrite ..)
  | free | unwrap | bury => exact .inl ⟨rfl, hfree _⟩
  | @make token held s v b hnew =>
    refine .inr ⟨rfl, b, by simp [Memory.serial?, hnew], hallocate b _, .inl ⟨s, v, rfl, rfl⟩⟩
  | @wrap token held s n v e hnew =>
    refine .inr ⟨rfl, e, by simp [Memory.serial?, hnew], hallocate e _, .inr ⟨s, n, v, rfl, rfl⟩⟩
  | _ => exact .inl (by simp [Memory.serial?, Memory.mapTable, Memory.mapGauge])

theorem Move.births_le (hm : Move m g a) : m.births ≤ a.memory.births := by
  rcases hm.stamps with ⟨hbirths, -⟩ | ⟨hbirths, -⟩ <;> omega

theorem Move.serial?_of_lt (hm : Move m g a) {b : Block} {k : Nat}
    (hb : a.memory.serial? b = some k) (hk : k < m.births) : m.serial? b = some k := by
  rcases hm.stamps with ⟨-, hold⟩ | ⟨-, x, -, hserial, -⟩
  · exact hold b k hb
  · rw [hserial] at hb
    split at hb
    · exact absurd hk (by simp [Option.some.inj hb])
    · exact hb

theorem Move.serial?_of_isSome (hm : Move m g a) {b : Block} {k : Nat} (hb : m.serial? b = some k)
    (hsome : (a.memory.serial? b).isSome) : a.memory.serial? b = some k := by
  obtain ⟨k', hk'⟩ := Option.isSome_iff_exists.1 hsome
  rcases hm.stamps with ⟨-, hold⟩ | ⟨-, x, hx, hserial, -⟩
  · rw [hk', ← hb, hold b k' hk']
  · rw [hserial, if_neg, hb]
    rintro rfl
    simp [hx] at hb

theorem Memory.Stamped.move (h : m.Stamped) (hm : Move m g a) : a.memory.Stamped := by
  rcases hm.stamps with ⟨hbirths, hold⟩ | ⟨hbirths, x, -, hserial, -⟩
  · exact ⟨fun hk => hbirths ▸ h.lt (hold _ _ hk),
      fun hk hk' => h.unique (hold _ _ hk) (hold _ _ hk')⟩
  · have hcases : ∀ {b k}, a.memory.serial? b = some k →
        b = x ∧ k = m.births ∨ m.serial? b = some k ∧ k < m.births := fun {b k} hk => by
      rw [hserial] at hk
      split at hk
      · exact .inl ⟨Eq.symm ‹_›, (Option.some.inj hk).symm⟩
      · exact .inr ⟨hk, h.lt hk⟩
    refine ⟨fun hk => ?_, fun hk hk' => ?_⟩
    · rcases hcases hk with ⟨-, rfl⟩ | ⟨-, hlt⟩ <;> omega
    · rcases hcases hk with ⟨rfl, rfl⟩ | ⟨hk, hlt⟩ <;>
        rcases hcases hk' with ⟨rfl, hk'⟩ | ⟨hk', hlt'⟩
      · rfl
      · omega
      · omega
      · exact h.unique hk hk'

/-! ## Places in a layout -/

namespace Keeper

def nodePlace (f : Nat → Place) : Keeper → Place
  | top s => .linked s
  | limbo s => .waiting s
  | thread t => f t

def entryPlace (e : Nat → Place) : Keeper → Place
  | top s => .linked s
  | limbo s => .waiting s
  | thread t => e t

end Keeper

inductive Layout.At (G : Layout α) (f e : Nat → Place) (b : Block) : Place → Prop where
  | node {k} (h : b ∈ G.nodes k) : At G f e b (k.nodePlace f)
  | entry {k} (h : b ∈ unpack (G.entries k)) : At G f e b (k.entryPlace e)

variable {G G' : Layout α} {f e f' e' : Nat → Place} {b : Block} {p p' : Place} {t : Nat}

theorem Layout.At.exists_keeper (h : G.At f e b p) : ∃ k, b ∈ G.blocks k := by
  cases h with
  | @node k h => exact ⟨k, List.mem_append_left _ h⟩
  | @entry k h => exact ⟨k, List.mem_append_right _ h⟩

theorem Layout.exists_at {k : Keeper} (h : b ∈ G.blocks k) : ∃ p, G.At f e b p := by
  rcases List.mem_append.1 h with h | h
  · exact ⟨_, .node h⟩
  · exact ⟨_, .entry h⟩

theorem Layout.At.unique {dom : Block → Prop} (hpart : Partition dom G.blocks)
    (h : G.At f e b p) (h' : G.At f e b p') : p = p' := by
  have hdisj : ∀ {k k'}, b ∈ G.nodes k → b ∈ unpack (G.entries k') → False := fun {k k'} hn he => by
    obtain rfl : k = k' := hpart.unique (List.mem_append_left _ hn) (List.mem_append_right _ he)
    exact (List.nodup_append'.1 (hpart.nodup k)).2.2 hn he
  cases h with
  | node h =>
    cases h' with
    | node h' => rw [hpart.unique (List.mem_append_left _ h) (List.mem_append_left _ h')]
    | entry h' => exact (hdisj h h').elim
  | entry h =>
    cases h' with
    | node h' => exact (hdisj h' h).elim
    | entry h' => rw [hpart.unique (List.mem_append_right _ h) (List.mem_append_right _ h')]

/-- What happens to a block by a move of thread `t`: it is freed, it stays, or it goes to another
place. -/
def Layout.Passes (G' : Layout α) (f' e' : Nat → Place) (t : Nat) (b : Block) (p : Place) : Prop :=
  ((∀ k, b ∉ G'.blocks k) ∧ Place.Next t p .freed) ∨
    ∃ p', G'.At f' e' b p' ∧ (p' = p ∨ Place.Next t p p')

namespace Layout.Passes

theorem node {k : Keeper} (h : b ∈ G'.nodes k)
    (hp : k.nodePlace f' = p ∨ Place.Next t p (k.nodePlace f')) : G'.Passes f' e' t b p :=
  .inr ⟨_, .node h, hp⟩

theorem entry {k : Keeper} (h : b ∈ unpack (G'.entries k))
    (hp : k.entryPlace e' = p ∨ Place.Next t p (k.entryPlace e')) : G'.Passes f' e' t b p :=
  .inr ⟨_, .entry h, hp⟩

theorem freed {dom : Block → Prop} (hpart : Partition dom G.blocks) (h : b ∈ G.blocks (.thread t))
    {loose : Option Block} {carried : List (Block × Block)}
    (hb : b ∉ loose.toList ++ unpack carried) (hp : Place.Next t p .freed) :
    (G.hold t loose carried).Passes f' e' t b p := by
  refine .inl ⟨fun k hk => ?_, hp⟩
  by_cases hkt : k = .thread t
  · subst hkt
    exact hb (by simpa [Layout.blocks, Layout.nodes, Layout.entries, Layout.hold] using hk)
  · have hsame : (G.hold t loose carried).blocks k = G.blocks k := by
      cases k <;> simp_all [Layout.blocks, Layout.nodes, Layout.entries, Layout.hold]
    exact hkt (hpart.unique (hsame ▸ hk) h)

end Layout.Passes

section Shift

variable {c c' : Control α} {k : Keeper}

theorem Keeper.nodePlace_update (hk : k ≠ .thread t) (f : Nat → Place) (p : Place) :
    k.nodePlace (Function.update f t p) = k.nodePlace f := by
  cases k with
  | thread u => exact Function.update_of_ne (by simpa using hk) ..
  | _ => rfl

theorem Keeper.entryPlace_update (hk : k ≠ .thread t) (e : Nat → Place) (p : Place) :
    k.entryPlace (Function.update e t p) = k.entryPlace e := by
  cases k with
  | thread u => exact Function.update_of_ne (by simpa using hk) ..
  | _ => rfl

/-- A node that another place keeps stays there, unless the thread unlinks it. -/
theorem Shift.passes_node (hshift : Shift t G c c' G') (hk : k ≠ .thread t) (h : b ∈ G.nodes k) :
    G'.Passes (Function.update f t (c'.nodePlace t)) e' t b (k.nodePlace f) := by
  have hstays : b ∈ G'.nodes k →
      G'.Passes (Function.update f t (c'.nodePlace t)) e' t b (k.nodePlace f) := fun h' =>
    .node h' (.inl (Keeper.nodePlace_update hk ..))
  cases hshift with
  | @unlink s i x next v rest hlinked =>
    by_cases hks : k = .top s
    · subst hks
      simp only [Layout.nodes, hlinked, List.map_cons, List.mem_cons] at h
      rcases h with rfl | h
      · refine .node (k := .thread t) (by simp [Layout.nodes, Layout.unlink]) (.inr ?_)
        simp only [Keeper.nodePlace, Function.update_self]
        exact .unlink
      · exact hstays (by simpa [Layout.nodes, Layout.unlink] using h)
    · exact hstays (by cases k <;> simp_all [Layout.nodes, Layout.unlink])
  | @link s x seen v hloose =>
    refine hstays ?_
    cases k with
    | top s' =>
      simp only [Layout.nodes, Layout.link, Function.update_apply] at h ⊢
      split
      · rename_i hs
        subst hs
        exact List.mem_cons_of_mem _ h
      · exact h
    | _ => simp_all [Layout.nodes, Layout.link]
  | _ =>
    exact hstays (by cases k <;> simp_all [Layout.nodes, Layout.hold, Layout.shelve, Layout.detach])

/-- An entry that another place keeps stays there, unless the thread detaches it. -/
theorem Shift.passes_entry (hshift : Shift t G c c' G') (hk : k ≠ .thread t)
    (h : b ∈ unpack (G.entries k)) :
    G'.Passes f' (Function.update e t (c'.entryPlace t)) t b (k.entryPlace e) := by
  have hstays : b ∈ unpack (G'.entries k) →
      G'.Passes f' (Function.update e t (c'.entryPlace t)) t b (k.entryPlace e) := fun h' =>
    .entry h' (.inl (Keeper.entryPlace_update hk ..))
  have hshelve : ∀ {s q tail}, b ∈ unpack ((G.shelve t s q tail).entries k) := fun {s q tail} => by
    cases k with
    | top s' => exact h
    | limbo s' =>
      simp only [Layout.entries, Layout.shelve, Function.update_apply] at h ⊢
      split
      · rename_i hs
        subst hs
        exact List.mem_cons_of_mem _ (List.mem_cons_of_mem _ h)
      · exact h
    | thread u => simp_all [Layout.entries, Layout.shelve]
  cases hshift with
  | retire | defer => exact hstays hshelve
  | @detach pass link hcarried =>
    by_cases hks : k = .limbo pass.stack
    · subst hks
      refine .entry (k := .thread t) (by simpa [Layout.entries, Layout.detach] using h) (.inr ?_)
      simp only [Keeper.entryPlace, Function.update_self]
      exact .detach
    · exact hstays (by cases k <;> simp_all [Layout.entries, Layout.detach])
  | _ =>
    exact hstays (by cases k <;> simp_all [Layout.entries, Layout.hold, Layout.link, Layout.unlink])

/-- The node that the thread has in hand goes on to its next place. -/
theorem Shift.passes_loose (hshift : Shift t G c c' G') {dom : Block → Prop}
    (hpart : Partition dom G.blocks) (h : G.loose t = some b)
    (hgrip : G.loose t = c.grip.node.map Prod.fst)
    (hstay : c'.role = c.role →
      c'.nodePlace t = c.nodePlace t ∨ Place.Next t (c.nodePlace t) (c'.nodePlace t)) :
    G'.Passes (Function.update f t (c'.nodePlace t)) (Function.update e t (c'.entryPlace t)) t b
      (c.nodePlace t) := by
  have hmem : b ∈ G.blocks (.thread t) := List.mem_append_left _ (by simp [Layout.nodes, h])
  have hnone : c.grip.node = none → ∀ {q : Prop}, q := fun hn => by
    simp [hgrip, hn] at h
  cases hshift with
  | stay hrole =>
    refine .node (k := .thread t) (by simp [Layout.nodes, h]) ?_
    simpa only [Keeper.nodePlace, Function.update_self] using hstay hrole
  | @link s x seen v hloose =>
    obtain rfl : b = x := Option.some.inj (h.symm.trans hloose)
    refine .node (k := .top s) (by simp [Layout.nodes, Layout.link]) (.inr ?_)
    exact .link
  | @free s x v pass hloose hcarried =>
    refine .freed hpart hmem (by simp) ?_
    exact .free
  | @wrap s n x v hloose hcarried =>
    obtain rfl : b = n := Option.some.inj (h.symm.trans hloose)
    refine .entry (k := .thread t) (by simp [Layout.entries, Layout.hold]) (.inr ?_)
    simp only [Keeper.entryPlace, Function.update_self]
    exact .wrap
  | @bury pass pass' rest x hloose =>
    have hdisj := (List.nodup_append'.1 (hpart.nodup (.thread t))).2.2
    have hnode : b ∈ G.nodes (.thread t) := by simp [Layout.nodes, h]
    exact .freed hpart hmem (hdisj hnode) .bury
  | _ => exact hnone rfl

/-- An entry that the thread has in hand goes on to its next place. -/
theorem Shift.passes_carried (hshift : Shift t G c c' G') {dom : Block → Prop}
    (hpart : Partition dom G.blocks) (h : b ∈ unpack (G.carried t))
    (hgrip : c.grip = {} → G.carried t = []) :
    G'.Passes (Function.update f t (c'.nodePlace t)) (Function.update e t (c'.entryPlace t)) t b
      (c.entryPlace t) := by
  have hmem : b ∈ G.blocks (.thread t) := List.mem_append_right _ h
  have hnil : G.carried t = [] → ∀ {q : Prop}, q := fun hn => by simp [hn] at h
  have hstays : b ∈ unpack (G'.carried t) → c'.entryPlace t = c.entryPlace t →
      G'.Passes (Function.update f t (c'.nodePlace t)) (Function.update e t (c'.entryPlace t)) t b
        (c.entryPlace t) := fun h' hp => by
    refine .entry (k := .thread t) h' (.inl ?_)
    simpa only [Keeper.entryPlace, Function.update_self] using hp
  cases hshift with
  | stay hrole => exact hstays h (by rw [Control.entryPlace_eq, Control.entryPlace_eq, hrole])
  | link => exact hstays h rfl
  | unlink => exact hstays h rfl
  | make => exact hnil (hgrip rfl)
  | free _ hcarried | wrap _ hcarried | detach hcarried | finish hcarried => exact hnil hcarried
  | @retire s x n seen v pass hcarried =>
    rw [hcarried] at h
    refine .entry (k := .limbo s) ?_ (.inr .retire)
    simp only [unpack_cons, unpack_nil, List.mem_cons, List.not_mem_nil, or_false] at h
    simp only [Layout.entries, Layout.shelve, Function.update_self, unpack_cons, List.mem_cons]
    exact h.imp_right .inl
  | walk => exact hstays h rfl
  | @defer pass pass' x n seen rest tail hcarried =>
    rw [hcarried, unpack_cons, List.mem_cons, List.mem_cons, ← or_assoc] at h
    rcases h with h | h
    · refine .entry (k := .limbo pass.stack) ?_ (.inr .defer)
      simp only [Layout.entries, Layout.shelve, Function.update_self, unpack_cons, List.mem_cons]
      exact h.imp_right .inl
    · exact hstays (by simpa [Layout.shelve] using h) rfl
  | @unwrap pass x rest n tail hcarried hloose =>
    have hnodup := (List.nodup_append'.1 (hpart.nodup (.thread t))).2.1
    simp only [Layout.entries, hcarried, unpack_cons] at hnodup
    rw [hcarried, unpack_cons, List.mem_cons, List.mem_cons] at h
    rcases h with rfl | rfl | h
    · exact .freed hpart hmem (by simpa using (List.nodup_cons.1 hnodup).1) .drop
    · refine .node (k := .thread t) (by simp [Layout.nodes, Layout.hold]) (.inr ?_)
      simp only [Keeper.nodePlace, Function.update_self]
      exact .unwrap
    · exact hstays (by simpa [Layout.hold] using h) rfl
  | bury => exact hstays (by simpa [Layout.hold] using h) rfl

end Shift

theorem Move.nodePlace_cases (hm : Move m g a) (hnode : g.control.grip.node.isSome)
    (hrole : a.agent.control.role = g.control.role) (hrun : a.agent.control ≠ .crashed) (t : Nat) :
    a.agent.control.nodePlace t = g.control.nodePlace t ∨
      Place.Next t (g.control.nodePlace t) (a.agent.control.nodePlace t) := by
  cases hm with
  | quiet hq =>
    cases hq with
    | empty => cases hnode
    | _ => exact .inl rfl
  | publish hp =>
    cases hp with
    | giveUp => cases hnode
    | _ => exact .inl rfl
  | unlink => cases hnode
  | take => exact .inr .take
  | free | bury | wrap | unwrap => cases hrole
  | crash => exact absurd rfl hrun
  | _ => exact .inl rfl

/-! ## Places in a machine -/

namespace Machine

inductive At (M : Machine α) (k : Nat) : Place → Prop where
  | linked {s b} (hk : M.memory.serial? b = some k)
      (hb : b ∈ (M.memory.linked s).map Prod.fst) : At M k (.linked s)
  | waiting {s b} (hk : M.memory.serial? b = some k) (hb : b ∈ unpack (M.memory.waiting s)) :
      At M k (.waiting s)
  | node {t c b} (hk : M.memory.serial? b = some k) (hc : M.control? t = some c)
      (hb : c.grip.node.map Prod.fst = some b) : At M k (c.nodePlace t)
  | entry {t c b} (hk : M.memory.serial? b = some k) (hc : M.control? t = some c)
      (hb : b ∈ unpack (c.grip.entries M.memory)) : At M k (c.entryPlace t)
  | freed (hk : k < M.memory.births) (hfree : ∀ b, M.memory.serial? b ≠ some k) : At M k .freed

def nodePlace (M : Machine α) (t : Nat) : Place :=
  (M.control? t).elim (.pushing t) (·.nodePlace t)

def entryPlace (M : Machine α) (t : Nat) : Place :=
  (M.control? t).elim (.detached t) (·.entryPlace t)

variable {M M' : Machine α} {k : Nat} {c : Control α}

theorem nodePlace_eq (hc : M.control? t = some c) : M.nodePlace t = c.nodePlace t := by
  rw [nodePlace, hc, Option.elim_some]

theorem entryPlace_eq (hc : M.control? t = some c) : M.entryPlace t = c.entryPlace t := by
  rw [entryPlace, hc, Option.elim_some]

theorem nodePlace_set (ht : M.agents[t]? = some g) (m : Memory α) (g' : Agent α) :
    (⟨m, M.agents.set t g'⟩ : Machine α).nodePlace =
      Function.update M.nodePlace t (g'.control.nodePlace t) := by
  funext u
  rw [nodePlace, control?_set ht, Function.update_apply]
  split
  · rename_i hu
    rw [hu, Option.elim_some]
  · rfl

theorem entryPlace_set (ht : M.agents[t]? = some g) (m : Memory α) (g' : Agent α) :
    (⟨m, M.agents.set t g'⟩ : Machine α).entryPlace =
      Function.update M.entryPlace t (g'.control.entryPlace t) := by
  funext u
  rw [entryPlace, control?_set ht, Function.update_apply]
  split
  · rename_i hu
    rw [hu, Option.elim_some]
  · rfl

/-- The machine and the layout agree on the place of an allocation in use. -/
theorem at_iff (hG : Custody M.memory M.inHand G) (hs : M.memory.Stamped)
    (hk : M.memory.serial? b = some k) : M.At k p ↔ G.At M.nodePlace M.entryPlace b p := by
  constructor
  · intro h
    cases h with
    | @linked s b' hk' hb =>
      obtain rfl := hs.unique hk' hk
      rw [hG.linked_eq] at hb
      exact .node (k := .top s) hb
    | @waiting s b' hk' hb =>
      obtain rfl := hs.unique hk' hk
      rw [hG.waiting_eq] at hb
      exact .entry (k := .limbo s) hb
    | @node t c b' hk' hc hb =>
      obtain rfl := hs.unique hk' hk
      rw [← nodePlace_eq hc]
      refine .node (k := .thread t) ?_
      rw [Layout.nodes, hG.loose_eq (inHand_eq hc), hb]
      simp
    | @entry t c b' hk' hc hb =>
      obtain rfl := hs.unique hk' hk
      rw [← entryPlace_eq hc]
      refine .entry (k := .thread t) ?_
      rwa [Layout.entries, ← hG.entries_eq, inHand_eq hc]
    | freed _ hfree => exact absurd hk (hfree b)
  · intro h
    cases h with
    | @node kp h =>
      cases kp with
      | top s => exact .linked hk (by rwa [hG.linked_eq])
      | limbo s => cases h
      | thread t =>
        have hloose : G.loose t = some b := by simpa [Layout.nodes] using h
        have hhand := (hG.loose_eq (t := t) rfl).symm.trans hloose
        cases hc : M.control? t with
        | none => simp [inHand, hc] at hhand
        | some c =>
          rw [inHand_eq hc] at hhand
          rw [Keeper.nodePlace, nodePlace_eq hc]
          exact .node hk hc hhand
    | @entry kp h =>
      cases kp with
      | top s => cases h
      | limbo s => exact .waiting hk (by rwa [hG.waiting_eq])
      | thread t =>
        rw [Layout.entries, ← hG.entries_eq] at h
        cases hc : M.control? t with
        | none => simp [inHand, hc, Grip.entries] at h
        | some c =>
          rw [inHand_eq hc] at h
          rw [Keeper.entryPlace, entryPlace_eq hc]
          exact .entry hk hc h

theorem at_iff_freed (hfree : ∀ b, M.memory.serial? b ≠ some k) :
    M.At k p ↔ p = .freed ∧ k < M.memory.births := by
  constructor
  · intro h
    cases h with
    | freed hk => exact ⟨rfl, hk⟩
    | linked hk | waiting hk | node hk | entry hk => exact absurd hk (hfree _)
  · rintro ⟨rfl, hk⟩
    exact .freed hk hfree

theorem At.lt (hs : M.memory.Stamped) (h : M.At k p) : k < M.memory.births := by
  cases h with
  | freed hk => exact hk
  | linked hk | waiting hk | node hk | entry hk => exact hs.lt hk

theorem Sound.existsUnique_at (h : M.Sound) (hs : M.memory.Stamped) (hk : k < M.memory.births) :
    ∃! p, M.At k p := by
  by_cases hb : ∃ b, M.memory.serial? b = some k
  · obtain ⟨b, hb⟩ := hb
    obtain ⟨G, hG⟩ := h.custody
    have hsome : (M.memory.heap[b]?).isSome := by rw [← Memory.isSome_serial?, hb]; rfl
    obtain ⟨kp, hmem⟩ := (hG.partition.cover b).1 hsome
    obtain ⟨p, hp⟩ := Layout.exists_at hmem
    refine ⟨p, (at_iff hG hs hb).2 hp, fun p' hp' => ?_⟩
    exact ((at_iff hG hs hb).1 hp').unique hG.partition hp
  · have hfree : ∀ b, M.memory.serial? b ≠ some k := fun b hbk => hb ⟨b, hbk⟩
    refine ⟨.freed, .freed hk hfree, fun p' hp' => ?_⟩
    exact ((at_iff_freed hfree).1 hp').1

/-! ## One act -/

/-- By a move of thread `t` an allocation stays in its place or goes to the next. -/
theorem Sound.at_move (h : M.Sound) (hs : M.memory.Stamped) (ht : M.agents[t]? = some g)
    (hm : Move M.memory g a) (hp : M.At k p)
    (hp' : (⟨a.memory, M.agents.set t a.agent⟩ : Machine α).At k p') :
    p' = p ∨ Place.Next t p p' := by
  have hlt := hp.lt hs
  have hs' : a.memory.Stamped := hs.move hm
  have hold : ∀ {b}, a.memory.serial? b = some k → M.memory.serial? b = some k := fun hb =>
    hm.serial?_of_lt hb hlt
  by_cases hb : ∃ b, M.memory.serial? b = some k
  · obtain ⟨b, hb⟩ := hb
    have htc : M.control? t = some g.control := control?_eq ht
    have hrun := h.not_crashed ht hm
    obtain ⟨G, hG⟩ := h.custody
    obtain ⟨G', hshift, hG'⟩ := h.custody_move ht hm hG
    have hloose := hG.loose_eq (inHand_eq htc)
    have hpasses : G'.Passes (Function.update M.nodePlace t (a.agent.control.nodePlace t))
        (Function.update M.entryPlace t (a.agent.control.entryPlace t)) t b p := by
      cases (at_iff hG hs hb).1 hp with
      | @node kp hmem =>
        by_cases hkp : kp = .thread t
        · subst hkp
          have hmem : G.loose t = some b := by simpa [Layout.nodes] using hmem
          rw [Keeper.nodePlace, nodePlace_eq htc]
          refine hshift.passes_loose hG.partition hmem hloose fun hrole => ?_
          refine hm.nodePlace_cases ?_ hrole hrun t
          rw [← Option.isSome_map (f := Prod.fst), ← hloose, hmem]
          rfl
        · exact hshift.passes_node hkp hmem
      | @entry kp hmem =>
        by_cases hkp : kp = .thread t
        · subst hkp
          rw [Keeper.entryPlace, entryPlace_eq htc]
          refine hshift.passes_carried hG.partition hmem fun hgrip => ?_
          exact Chain.eq_nil (hgrip ▸ hG.carries (inHand_eq htc))
        · exact hshift.passes_entry hkp hmem
    rw [← nodePlace_set ht a.memory, ← entryPlace_set ht a.memory] at hpasses
    rcases hpasses with ⟨hgone, hnext⟩ | ⟨p'', hat, hnext⟩
    · -- the block is free now, so the allocation is
      have hfree : ∀ b', a.memory.serial? b' ≠ some k := fun b' hb' => by
        obtain rfl := hs.unique (hold hb') hb
        have hsome : (a.memory.heap[b']?).isSome := by rw [← Memory.isSome_serial?, hb']; rfl
        obtain ⟨kp, hmem⟩ := (hG'.partition.cover b').1 hsome
        exact hgone kp hmem
      rw [((at_iff_freed hfree).1 hp').1]
      exact .inr hnext
    · obtain ⟨kp, hmem⟩ := hat.exists_keeper
      have hb' : a.memory.serial? b = some k :=
        hm.serial?_of_isSome hb (by rw [Memory.isSome_serial?]; exact hG'.isSome_of_mem hmem)
      have hat' := (at_iff (M := ⟨a.memory, M.agents.set t a.agent⟩) hG' hs' hb').1 hp'
      rw [hat'.unique hG'.partition hat]
      exact hnext
  · have hfree : ∀ b, M.memory.serial? b ≠ some k := fun b hbk => hb ⟨b, hbk⟩
    refine .inl ?_
    rw [((at_iff_freed hfree).1 hp).1]
    exact ((at_iff_freed fun b hb' => hfree b (hold hb')).1 hp').1

theorem Sound.at_congr (h : M.Sound) (hs : M.memory.Stamped) (hp : M.At k p) (hp' : M'.At k p')
    (hm : M'.memory = M.memory) (hhand : M'.inHand = M.inHand)
    (hnode : M'.nodePlace = M.nodePlace) (hentry : M'.entryPlace = M.entryPlace) : p' = p := by
  obtain ⟨G, hG⟩ := h.custody
  by_cases hb : ∃ b, M.memory.serial? b = some k
  · obtain ⟨b, hb⟩ := hb
    have hat := (at_iff hG hs hb).1 hp
    have hat' := (at_iff (hm ▸ hhand ▸ hG) (hm ▸ hs) (hm ▸ hb)).1 hp'
    rw [hnode, hentry] at hat'
    exact hat'.unique hG.partition hat
  · have hfree : ∀ b, M.memory.serial? b ≠ some k := fun b hbk => hb ⟨b, hbk⟩
    rw [((at_iff_freed hfree).1 hp).1]
    exact ((at_iff_freed (hm ▸ hfree)).1 hp').1

theorem Sound.at_step (h : M.Sound) (hs : M.memory.Stamped) {act : Act α} {marks : List (Mark α)}
    (hstep : Step M act M' marks) (hp : M.At k p) (hp' : M'.At k p') :
    p' = p ∨ ∃ t, act.mover? = some t ∧ Place.Next t p p' := by
  cases hstep with
  | @call t g command ht hc hslot hstack =>
    have htc : M.control? t = some .idle := control?_eq_some.2 ⟨g, ht, hc⟩
    refine .inl (h.at_congr hs hp hp' rfl (inHand_call ht hc command) ?_ ?_)
    · rw [nodePlace_set ht]
      refine Function.update_eq_self_iff.2 ?_
      rw [nodePlace_eq htc]
      cases command <;> rfl
    · rw [entryPlace_set ht]
      refine Function.update_eq_self_iff.2 ?_
      rw [entryPlace_eq htc]
      cases command <;> rfl
  | @move t g a act hact ht hm =>
    exact (h.at_move hs ht hm hp hp').imp_right fun hnext => ⟨t, hact, hnext⟩
  | @handOver t u i g g' ht hu hne hi hc hc' =>
    have hcontrol := control?_handOver ht hu (i := i)
    refine .inl (h.at_congr hs hp hp' rfl ?_ ?_ ?_) <;> funext v
    · simp only [inHand, hcontrol]
    · simp only [nodePlace, hcontrol]
    · simp only [entryPlace, hcontrol]

theorem Sound.at_new (h : M.Sound) {act : Act α} {marks : List (Mark α)}
    (hstep : Step M act M' marks) (hk : M.memory.births ≤ k) (hk' : k < M'.memory.births) :
    ∃ t, act.mover? = some t ∧ (M'.At k (.pushing t) ∨ M'.At k (.retiring t)) := by
  cases hstep with
  | call => exact absurd hk' (Nat.not_lt.2 hk)
  | handOver => exact absurd hk' (Nat.not_lt.2 hk)
  | @move t g a act hact ht hm =>
    refine ⟨t, hact, ?_⟩
    have htc' : (⟨a.memory, M.agents.set t a.agent⟩ : Machine α).control? t =
        some a.agent.control := control?_set_self ht ..
    rcases hm.stamps with ⟨hbirths, -⟩ | ⟨hbirths, x, -, hserial, hcontrol⟩
    · exact absurd hk' (by simp only [hbirths]; omega)
    · obtain rfl : k = M.memory.births := by simp only [hbirths] at hk'; omega
      have hx : a.memory.serial? x = some M.memory.births := by rw [hserial, if_pos rfl]
      rcases hcontrol with ⟨s, v, -, hc'⟩ | ⟨s, n, v, hc, hc'⟩ <;> rw [hc'] at htc'
      · exact .inl (.node hx htc' rfl)
      · obtain ⟨G, hG⟩ := h.custody
        obtain ⟨G', hshift, hG'⟩ := h.custody_move ht hm hG
        rw [hc, hc'] at hshift
        refine .inr (.entry hx htc' ?_)
        rw [← inHand_eq htc', hG'.entries_eq]
        cases hshift with
        | stay hrole => cases hrole
        | wrap => simp [Layout.hold]

theorem Sound.at_taking (h : M.Sound) {s : StackIndex} (hc : M.control? t = some (.taking s b)) :
    ∃ k, M.memory.serial? b = some k ∧ M.At k (.won t false) ∧
      ∀ {M' marks}, M.act? (.step t) = some (M', marks) → M'.At k (.won t true) := by
  obtain ⟨G, hG⟩ := h.custody
  have hsome := hG.isSome_of_mem (hG.mem_of_node (inHand_eq hc) rfl)
  rw [← Memory.isSome_serial?] at hsome
  obtain ⟨k, hk⟩ := Option.isSome_iff_exists.1 hsome
  refine ⟨k, hk, .node hk hc rfl, fun {M' marks} hact => ?_⟩
  obtain ⟨⟨token, held, c⟩, ht, rfl⟩ := control?_eq_some.1 hc
  obtain ⟨a, hm, rfl, -⟩ := (act?_step hact).exists_move rfl ht
  have hrun := h.not_crashed ht hm
  cases hm with
  | quiet hq => cases hq
  | publish hp => cases hp
  | crash => exact absurd rfl hrun
  | @take _ _ _ _ v next hb =>
    refine .node (t := t) (b := b) (c := .scanning s b v 0) ?_ ?_ rfl
    · simp only [Memory.serial?, Memory.getElem?_heap_overwrite, if_true, Option.map_map] at hk ⊢
      exact hk
    · exact control?_set_self ht ..

theorem at_freed_of_move (hs : M.memory.Stamped) (hm : Move M.memory g a)
    (hk : M.memory.serial? b = some k) (hb : a.memory.heap[b]? = none) (agents : List (Agent α)) :
    (⟨a.memory, agents⟩ : Machine α).At k .freed := by
  have hlt := hs.lt hk
  refine .freed (Nat.lt_of_lt_of_le hlt hm.births_le) fun b' hb' => ?_
  obtain rfl := hs.unique (hm.serial?_of_lt hb' hlt) hk
  simp [Memory.serial?, hb] at hb'

/-- What a thread frees is in its hands, and is freed then. -/
theorem Sound.at_frees (h : M.Sound) (hs : M.memory.Stamped) (hc : M.control? t = some c)
    (hb : c.frees? = some b) : ∃ k p, M.memory.serial? b = some k ∧ M.At k p ∧
      Place.Next t p .freed ∧
      ∀ {M' marks}, M.act? (.step t) = some (M', marks) → M'.At k .freed := by
  obtain ⟨G, hG⟩ := h.custody
  have hmem : b ∈ G.blocks (.thread t) := by
    cases c with
    | freeing | burying =>
      obtain rfl := Option.some.inj hb
      exact hG.mem_of_node (inHand_eq hc) rfl
    | unwrapping =>
      obtain rfl := Option.some.inj hb
      exact (hG.mem_of_entry (inHand_eq hc) rfl).1
    | _ => cases hb
  have hsome := hG.isSome_of_mem hmem
  rw [← Memory.isSome_serial?] at hsome
  obtain ⟨k, hk⟩ := Option.isSome_iff_exists.1 hsome
  have hplace : ∃ p, M.At k p ∧ Place.Next t p .freed := by
    cases c with
    | freeing =>
      obtain rfl := Option.some.inj hb
      exact ⟨_, .node hk hc rfl, .free⟩
    | burying =>
      obtain rfl := Option.some.inj hb
      exact ⟨_, .node hk hc rfl, .bury⟩
    | unwrapping pass e rest n =>
      obtain rfl := Option.some.inj hb
      refine ⟨_, .entry hk hc ?_, .drop⟩
      have hcarries := hG.carries (inHand_eq hc)
      obtain ⟨n', next, tail, htail, -⟩ := hcarries
      rw [← inHand_eq hc, hG.entries_eq, htail]
      simp
    | _ => cases hb
  obtain ⟨p, hp, hnext⟩ := hplace
  refine ⟨k, p, hk, hp, hnext, fun {M' marks} hact => ?_⟩
  obtain ⟨g, ht, rfl⟩ := control?_eq_some.1 hc
  obtain ⟨a, hm, rfl, -⟩ := (act?_step hact).exists_move rfl ht
  have hrun := h.not_crashed ht hm
  refine at_freed_of_move hs hm hk ?_ _
  cases hm with
  | free | unwrap | bury =>
    obtain rfl := Option.some.inj hb
    simp [Memory.getElem?_heap_free]
  | crash => exact absurd rfl hrun
  | quiet hq => cases hq <;> cases hb
  | publish hp => cases hp <;> cases hb
  | _ => cases hb

/-! ## Runs -/

theorem births_le_of_step {act : Act α} {marks : List (Mark α)} (hs : Step M act M' marks) :
    M.memory.births ≤ M'.memory.births := by
  cases hs with
  | move _ _ hm => exact hm.births_le
  | _ => exact Nat.le_refl _

theorem stamped_of_step (h : M.memory.Stamped) {act : Act α} {marks : List (Mark α)}
    (hs : Step M act M' marks) : M'.memory.Stamped := by
  cases hs with
  | move _ _ hm => exact h.move hm
  | _ => exact h

theorem stamped_of_reaches {capacity count : Nat} {tokens : List Token}
    (h : (start capacity count tokens).Reaches M) : M.memory.Stamped := by
  refine invariant_of_step (P := fun M => M.memory.Stamped)
    (fun h hs => stamped_of_step h hs) ?_ h
  have hnone : ∀ b, (Memory.start capacity count : Memory α).serial? b = none := fun b => by
    simp [Memory.serial?, Memory.start]
  exact ⟨fun hk => by simp [start, hnone] at hk, fun hk => by simp [start, hnone] at hk⟩

/-- In a run an allocation comes further and further. -/
theorem Sound.rank_le_of_run? (h : M.Sound) (hs : M.memory.Stamped) {acts : List (Act α)}
    (hrun : M.run? acts = some M') (hp : M.At k p) (hp' : M'.At k p') : p.rank ≤ p'.rank := by
  induction acts generalizing M p with
  | nil =>
    obtain rfl := Option.some.inj hrun
    exact ((h.existsUnique_at hs (hp.lt hs)).unique hp hp' ▸ Nat.le_refl _)
  | cons act acts ih =>
    obtain ⟨M₁, marks, hact, hrun⟩ := run?_cons_eq_some.1 hrun
    have hstep := act?_step hact
    have hs₁ := stamped_of_step hs hstep
    have hlt := Nat.lt_of_lt_of_le (hp.lt hs) (births_le_of_step hstep)
    obtain ⟨p₁, hp₁, -⟩ := (h.step hstep).existsUnique_at hs₁ hlt
    refine Nat.le_trans ?_ (ih (h.step hstep) hs₁ hrun hp₁)
    rcases h.at_step hs hstep hp hp₁ with rfl | ⟨t, -, hnext⟩
    · exact Nat.le_refl _
    · exact hnext.rank_le

theorem Sound.taken_once (h : M.Sound) (hs : M.memory.Stamped) {s : StackIndex}
    (hc : M.control? t = some (.taking s b)) (hk : M.memory.serial? b = some k)
    {M₁ M₂ : Machine α} {marks : List (Mark α)} (hact : M.act? (.step t) = some (M₁, marks))
    {acts : List (Act α)} (hrun : M₁.run? acts = some M₂) {t' : Nat} {s' : StackIndex} {b' : Block}
    (hc' : M₂.control? t' = some (.taking s' b')) : M₂.memory.serial? b' ≠ some k := by
  intro hk'
  have hstep := act?_step hact
  have h₁ := h.step hstep
  have h₂ : M₂.Sound := invariant_of_step (fun h hs => h.step hs) h₁ ⟨acts, hrun⟩
  obtain ⟨k₁, hk₁, -, htaken⟩ := h.at_taking hc
  obtain rfl := Option.some.inj (hk₁.symm.trans hk)
  obtain ⟨k₂, hk₂, hwon, -⟩ := h₂.at_taking hc'
  obtain rfl := Option.some.inj (hk₂.symm.trans hk')
  have hrank := h₁.rank_le_of_run? (stamped_of_step hs hstep) hrun (htaken hact) hwon
  simp [Place.rank] at hrank

theorem births_le_of_run? {acts : List (Act α)} (hrun : M.run? acts = some M') :
    M.memory.births ≤ M'.memory.births := by
  induction acts generalizing M with
  | nil => exact Option.some.inj hrun ▸ Nat.le_refl _
  | cons act acts ih =>
    obtain ⟨M₁, marks, hact, hrun⟩ := run?_cons_eq_some.1 hrun
    exact Nat.le_trans (births_le_of_step (act?_step hact)) (ih hrun)

theorem Sound.at_freed_of_run? (h : M.Sound) (hs : M.memory.Stamped) {acts : List (Act α)}
    (hrun : M.run? acts = some M') (hp : M.At k .freed) : M'.At k .freed := by
  have h' : M'.Sound := invariant_of_step (fun h hs => h.step hs) h ⟨acts, hrun⟩
  have hs' : M'.memory.Stamped := invariant_of_step (P := fun M => M.memory.Stamped)
    (fun h hs => stamped_of_step h hs) hs ⟨acts, hrun⟩
  have hlt := Nat.lt_of_lt_of_le (hp.lt hs) (births_le_of_run? hrun)
  obtain ⟨p', hp', -⟩ := h'.existsUnique_at hs' hlt
  have hrank := h.rank_le_of_run? hs hrun hp hp'
  obtain rfl : p' = .freed := by
    cases p' with
    | freed => rfl
    | won t taken => cases taken <;> simp [Place.rank] at hrank
    | _ => simp [Place.rank] at hrank
  exact hp'

/-- Entry `e` is in limbo or in the hands of a thread, with node `n` in it. -/
def Wraps (M : Machine α) (e n : Block) : Prop :=
  (∃ s, (e, n) ∈ M.memory.waiting s) ∨
    ∃ t c, M.control? t = some c ∧ (e, n) ∈ c.grip.entries M.memory

/-- Nothing is lost, nothing is in two places, and nothing goes where it should not. -/
structure Orderly (M : Machine α) : Prop where
  place : ∀ k < M.memory.births, ∃! p, M.At k p
  /-- The lists come to an end, and no block comes up twice in them. -/
  top : ∀ s, Chain M.memory.node? (M.memory.load (.top s)) (M.memory.linked s) ∧
    ((M.memory.linked s).map Prod.fst).Nodup
  limbo : ∀ s, Chain M.memory.wrapped? (M.memory.load (.limbo s)) (M.memory.waiting s) ∧
    (unpack (M.memory.waiting s)).Nodup
  hand : ∀ {t c}, M.control? t = some c → (unpack (c.grip.entries M.memory)).Nodup
  apart : (∀ s s', s ≠ s' →
      List.Disjoint ((M.memory.linked s).map Prod.fst) ((M.memory.linked s').map Prod.fst) ∧
        List.Disjoint (unpack (M.memory.waiting s)) (unpack (M.memory.waiting s'))) ∧
    ∀ s s', List.Disjoint ((M.memory.linked s).map Prod.fst) (unpack (M.memory.waiting s'))
  wrapper : ∀ {e e' n}, M.Wraps e n → M.Wraps e' n → e = e'
  /-- An act moves an allocation along `Place.Next` only, and only if its thread makes a move. -/
  next : ∀ {act M' marks k p p'}, M.act? act = some (M', marks) → M.At k p → M'.At k p' →
    p' = p ∨ ∃ t, act.mover? = some t ∧ Place.Next t p p'
  new : ∀ {act M' marks k}, M.act? act = some (M', marks) → M.memory.births ≤ k →
    k < M'.memory.births → ∃ t, act.mover? = some t ∧ (M'.At k (.pushing t) ∨ M'.At k (.retiring t))
  taken : ∀ {t s b}, M.control? t = some (.taking s b) → ∃ k, M.memory.serial? b = some k ∧
    M.At k (.won t false) ∧
    ∀ {M' marks}, M.act? (.step t) = some (M', marks) → M'.At k (.won t true)
  freed : ∀ {t c b}, M.control? t = some c → c.frees? = some b → ∃ k p,
    M.memory.serial? b = some k ∧ M.At k p ∧ Place.Next t p .freed ∧
    ∀ {M' marks}, M.act? (.step t) = some (M', marks) → M'.At k .freed
  later : ∀ {acts M' k p p'}, M.run? acts = some M' → M.At k p → M'.At k p' → p.rank ≤ p'.rank
  /-- A value that is taken is not taken again. -/
  once : ∀ {t s b k M₁ marks acts M₂ t' s' b'}, M.control? t = some (.taking s b) →
    M.memory.serial? b = some k → M.act? (.step t) = some (M₁, marks) → M₁.run? acts = some M₂ →
    M₂.control? t' = some (.taking s' b') → M₂.memory.serial? b' ≠ some k
  gone : ∀ {acts M' k}, M.run? acts = some M' → M.At k .freed → M'.At k .freed

theorem wraps_iff (hG : Custody M.memory M.inHand G) {e n : Block} :
    M.Wraps e n ↔ ∃ kp, (e, n) ∈ G.entries kp := by
  constructor
  · rintro (⟨s, h⟩ | ⟨t, c, hc, h⟩)
    · exact ⟨.limbo s, by rwa [hG.waiting_eq] at h⟩
    · rw [← inHand_eq hc, hG.entries_eq] at h
      exact ⟨.thread t, h⟩
  · rintro ⟨kp, h⟩
    cases kp with
    | top s => cases h
    | limbo s => exact .inl ⟨s, by rwa [hG.waiting_eq]⟩
    | thread t =>
      rw [Layout.entries, ← hG.entries_eq] at h
      cases hc : M.control? t with
      | none => simp [inHand, hc, Grip.entries] at h
      | some c => exact .inr ⟨t, c, hc, by rwa [inHand_eq hc] at h⟩

/-- Every allocated node or entry is in exactly one place, and goes from place to place along
`Place.Next` only. -/
theorem orderly_of_reaches {capacity count : Nat} {tokens : List Token}
    (h : (start capacity count tokens).Reaches M) : M.Orderly := by
  have hsound := Sound.of_reaches h
  have hs := stamped_of_reaches h
  obtain ⟨G, hG⟩ := hsound.custody
  have hunpack : ∀ k, (unpack (G.entries k)).Nodup := fun k =>
    (List.nodup_append'.1 (hG.partition.nodup k)).2.1
  have hnodes : ∀ k, (G.nodes k).Nodup := fun k => (List.nodup_append'.1 (hG.partition.nodup k)).1
  have hapart : ∀ k k', k ≠ k' → List.Disjoint (G.blocks k) (G.blocks k') :=
    fun k k' hne b hb hb' => hne (hG.partition.unique hb hb')
  refine
    { place := fun k hk => hsound.existsUnique_at hs hk
      top := fun s => ?_
      limbo := fun s => ?_
      hand := fun {t c} hc => ?_
      apart := ⟨fun s s' hne => ⟨?_, ?_⟩, fun s s' => ?_⟩
      wrapper := fun {e e' n} he he' => ?_
      next := fun hact => hsound.at_step hs (act?_step hact)
      new := fun hact => hsound.at_new (act?_step hact)
      taken := fun hc => hsound.at_taking hc
      freed := fun hc hb => hsound.at_frees hs hc hb
      later := fun hrun => hsound.rank_le_of_run? hs hrun
      once := fun hc hk hact hrun hc' => hsound.taken_once hs hc hk hact hrun hc'
      gone := fun hrun => hsound.at_freed_of_run? hs hrun }
  · rw [hG.linked_eq]
    exact ⟨hG.linked s, hnodes (.top s)⟩
  · rw [hG.waiting_eq]
    exact ⟨hG.waiting s, hunpack (.limbo s)⟩
  · rw [← inHand_eq hc, hG.entries_eq]
    exact hunpack (.thread t)
  · rw [hG.linked_eq, hG.linked_eq]
    exact fun b hb hb' => hapart (.top s) (.top s') (by simpa using hne)
      (List.mem_append_left _ hb) (List.mem_append_left _ hb')
  · rw [hG.waiting_eq, hG.waiting_eq]
    exact fun b hb hb' => hapart (.limbo s) (.limbo s') (by simpa using hne)
      (List.mem_append_right _ hb) (List.mem_append_right _ hb')
  · rw [hG.linked_eq, hG.waiting_eq]
    exact fun b hb hb' => hapart (.top s) (.limbo s') nofun
      (List.mem_append_left _ hb) (List.mem_append_right _ hb')
  · obtain ⟨k, he⟩ := (wraps_iff hG).1 he
    obtain ⟨k', he'⟩ := (wraps_iff hG).1 he'
    obtain rfl : k = k' := hG.partition.unique (Layout.mem_blocks_of_entry he).2
      (Layout.mem_blocks_of_entry he').2
    exact eq_of_nodup_unpack (hunpack k) he he'

/-- Thread 1 publishes a node that thread 0 then pops. The pop retires the node and keeps it in
limbo; when thread 1 has withdrawn, a reclaim by thread 0 frees it. -/
theorem published_node_freed_later : ∃ M₁ M₂ M₃ M₄ M₅ M₆ : Machine Nat,
    ((start 2 1 [1, 2]).Reaches M₁ ∧ M₁.Reaches M₂ ∧ M₂.Reaches M₃ ∧ M₃.Reaches M₄ ∧
      M₄.Reaches M₅ ∧ M₅.Reaches M₆) ∧
    (M₁.Orderly ∧ M₁.At 0 (.linked 0) ∧ M₁.memory.table.publishes (.block 3) = true) ∧
    (M₂.Orderly ∧ M₂.At 0 (.won 0 true)) ∧ (M₃.Orderly ∧ M₃.At 0 (.waiting 0)) ∧
    (M₄.Orderly ∧ M₄.At 0 (.detached 0)) ∧ (M₅.Orderly ∧ M₅.At 0 (.unwrapped 0)) ∧
    M₆.Orderly ∧ M₆.At 0 .freed := by
  have hstart : ∀ acts, (start 2 1 [1, 2]).run?
      (.call 0 .acquire :: .step 0 :: .call 1 .acquire :: .step 1 :: .step 1 :: acts) =
      (⟨⟨⟨[{ owner := some 1 }, { owner := some 2 }]⟩, [{}], ∅, 0⟩,
        [⟨1, [0], .idle⟩, ⟨2, [1], .idle⟩]⟩ : Machine Nat).run? acts := fun _ => rfl
  refine ⟨_, _, _, _, _, _, (and_iff_left_of_imp ?_).2
    ⟨⟨_, (hstart [.call 0 (.push 0 7), .receive 0 3, .step 0, .step 0, .step 0,
      .call 1 (.pop 0 1), .step 1, .step 1]).trans (by cbv)⟩,
    ⟨.call 0 (.pop 0 0) :: List.replicate 7 (.step 0), by cbv⟩,
    ⟨.step 0 :: .step 0 :: .receive 0 4 :: List.replicate 4 (.step 0), by cbv⟩,
    ⟨List.replicate 11 (.step 0) ++ List.replicate 4 (.step 1) ++
      .call 0 (.reclaim 0) :: List.replicate 4 (.step 0), by cbv⟩,
    ⟨List.replicate 4 (.step 0), by cbv⟩, ⟨[.step 0], by cbv⟩⟩⟩
  rintro ⟨r₁, r₂, r₃, r₄, r₅, r₆⟩
  have h₁ := orderly_of_reaches r₁
  have h₂ := orderly_of_reaches (r₁.trans r₂)
  have h₃ := orderly_of_reaches ((r₁.trans r₂).trans r₃)
  have h₄ := orderly_of_reaches (((r₁.trans r₂).trans r₃).trans r₄)
  have h₅ := orderly_of_reaches ((((r₁.trans r₂).trans r₃).trans r₄).trans r₅)
  have h₆ := orderly_of_reaches (((((r₁.trans r₂).trans r₃).trans r₄).trans r₅).trans r₆)
  refine ⟨⟨h₁, .linked (b := 3) (by cbv) ?_, by decide⟩, ⟨h₂, ?_⟩,
    ⟨h₃, .waiting (b := 3) (by cbv) ?_⟩, ⟨h₄, ?_⟩, ⟨h₅, ?_⟩, h₆, ?_⟩
  · rw [(h₁.top 0).1.unique (.cons (x := 7) (by cbv) (L := []) rfl)]
    decide
  · exact .node (c := .scanning 0 3 7 0) (t := 0) (b := 3) (by cbv) rfl rfl
  · rw [(h₃.limbo 0).1.unique (.cons (x := 3) (by cbv) (L := []) rfl)]
    decide
  · let c : Control Nat := .inspecting ⟨0, none, 0, 0⟩ 4 none 3 0
    have hentry : ∀ m : Memory Nat, m.wrapped? 4 = some (3, none) →
        3 ∈ unpack (c.grip.entries m) := fun m h => by
      simp [c, Control.grip, Grip.entries, h, unpack]
    exact .entry (c := c) (t := 0) (b := 3) (by cbv) rfl (hentry _ (by cbv))
  · exact .node (c := .burying ⟨0, none, 0, 0⟩ none 3) (t := 0) (b := 3) (by cbv) rfl rfl
  · -- the freed block says nothing any more, so its place is read off the act that frees it
    obtain ⟨k, -, hk, -, -, hfreed⟩ := h₅.freed (t := 0) (b := 3) rfl rfl
    obtain rfl : k = 0 := Option.some.inj (hk.symm.trans (by cbv))
    exact hfreed (by cbv)

end Machine

end HazardLifo.Interleaved
