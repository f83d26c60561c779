import HazardLifo.Proofs.Interleaved.Gauge
import HazardLifo.Proofs.Interleaved.Solo
import HazardLifo.Proofs.Interleaved.Tenure

/-!
# Sweeps that nobody disturbs

A sweep detaches the whole limbo list and deals with one entry after the other: an entry whose node
some slot publishes goes back into limbo, any other is freed together with its node. All that it
needs is a limbo list, `Memory.InLimbo`; the rest of the memory may be anything. `Sweep.Partway`
says what has become of the memory when some entries are done, `Sweep.Handling` what is known while
one of them is in hand, and `Sweep.At` where a sweep is and what has been seen of it. `Sweep.At.run`
follows it through any acts of its thread, failed exchanges included, and `Sweep.At.finishes` to its
end.
-/

namespace HazardLifo

namespace SlotTable

variable (T : SlotTable) (entries : List (Block × Block))

def kept : List (Block × Block) := entries.filter fun p => T.publishes (.block p.2)

def freed : List (Block × Block) := entries.filter fun p => !T.publishes (.block p.2)

theorem length_freed_add_kept :
    (T.freed entries).length + (T.kept entries).length = entries.length := by
  rw [Nat.add_comm]
  exact (List.length_eq_length_filter_add _).symm

end SlotTable

namespace Interleaved

variable {α : Type}

/-! ## Limbo lists -/

/-- The limbo list of stack `s` consists of these entries, and each of them has a node of its own in
it. -/
structure Memory.InLimbo (m : Memory α) (s : StackIndex) (entries : List (Block × Block)) :
    Prop where
  stack : s < m.words.length
  chain : Chain m.wrapped? (m.load (.limbo s)) entries
  node : ∀ {p}, p ∈ entries → ∃ v next, m.object? p.2 = some (.node v next)
  nodup : (entries.map Prod.snd).Nodup

namespace Memory.InLimbo

variable {m : Memory α} {s : StackIndex} {entries : List (Block × Block)} {p q : Block × Block}

theorem exists_entry (h : m.InLimbo s entries) (hp : p ∈ entries) :
    ∃ next, m.object? p.1 = some (.entry p.2 next) := by
  obtain ⟨next, hread⟩ := h.chain.exists_read hp
  exact ⟨next, wrapped?_eq_some.1 hread⟩

theorem ne (h : m.InLimbo s entries) (hp : p ∈ entries) (hq : q ∈ entries) : p.1 ≠ q.2 := by
  intro heq
  obtain ⟨next, hentry⟩ := h.exists_entry hp
  obtain ⟨v, next', hnode⟩ := h.node hq
  rw [heq, hnode] at hentry
  cases hentry

theorem length_le (h : m.InLimbo s entries) : entries.length ≤ m.heap.size := by
  rw [← List.length_map (f := Prod.fst), ← Std.HashMap.length_keys]
  refine (List.subperm_of_subset h.chain.nodup fun e he => ?_).length_le
  obtain ⟨p, hp, rfl⟩ := List.mem_map.1 he
  obtain ⟨next, hentry⟩ := h.exists_entry hp
  rw [Std.HashMap.mem_keys, Std.HashMap.mem_iff_isSome_getElem?, ← isSome_object?, hentry]
  rfl

theorem waiting_eq (h : m.InLimbo s entries) : m.waiting s = entries :=
  h.chain.follow_eq h.length_le

theorem mapGauge (h : m.InLimbo s entries) (s' : StackIndex) (f : UInt64 → UInt64) :
    (m.mapGauge s' f).InLimbo s entries where
  stack := by simpa [Memory.mapGauge] using h.stack
  chain := by
    rw [load_mapGauge]
    exact h.chain
  node := h.node
  nodup := h.nodup

end Memory.InLimbo

theorem Custody.inLimbo {m : Memory α} {grip : Nat → Grip} {G : Layout α} (h : Custody m grip G)
    {s : StackIndex} (hs : s < m.words.length) : m.InLimbo s (G.waiting s) where
  stack := hs
  chain := h.waiting s
  node hp := by
    obtain ⟨next, hnode⟩ := h.spent (k := .limbo s) hp
    exact ⟨none, next, hnode⟩
  nodup := by
    have hunpack := (List.nodup_append'.1 (h.partition.nodup (.limbo s))).2.1
    refine hunpack.sublist ?_
    simp only [Layout.entries, unpack]
    induction G.waiting s with
    | nil => exact .slnil
    | cons p entries ih => exact .cons _ (.cons_cons _ ih)

theorem Machine.Sound.inLimbo {M : Machine α} (h : M.Sound) {s : StackIndex}
    (hs : s < M.memory.words.length) : M.memory.InLimbo s (M.memory.waiting s) := by
  obtain ⟨G, hG⟩ := h.custody
  rw [hG.waiting_eq]
  exact hG.inLimbo hs

/-! ## Where a sweep is -/

/-- What a sweep begins with: a memory, the limbo list of a stack in it, and the value that the
operation answers with if it is a pop. -/
structure Sweep (α : Type) where
  memory : Memory α
  stack : StackIndex
  entries : List (Block × Block)
  limbo : memory.InLimbo stack entries
  result : Option α

namespace Sweep

section

variable (S : Sweep α)

def holds (p : Block × Block) : Bool := S.memory.table.publishes (.block p.2)

def kept (entries : List (Block × Block)) : List (Block × Block) := S.memory.table.kept entries

def freed (entries : List (Block × Block)) : List (Block × Block) := S.memory.table.freed entries

def pass (done : List (Block × Block)) : Pass α where
  stack := S.stack
  result := S.result
  freed := (S.freed done).length
  deferred := (S.kept done).length

def marks (done : List (Block × Block)) : List (Mark α) :=
  (S.freed done).map fun p => .freed S.stack p.2

/-- The entries `done` are dealt with and the entries `rest` are left: those that some slot
publishes are in limbo again, in reverse order, and the others are gone. Apart from entries and
freed nodes everything is as it was. -/
structure Partway (m : Memory α) (done rest : List (Block × Block)) : Prop where
  split : S.entries = done ++ rest
  chain : Chain m.wrapped? (m.load (.limbo S.stack)) (S.kept done).reverse
  gone : ∀ {p}, p ∈ S.freed done → m.heap[p.1]? = none ∧ m.heap[p.2]? = none
  heap : ∀ {b}, b ∉ S.entries.map Prod.fst → b ∉ (S.freed done).map Prod.snd →
    m.heap[b]? = S.memory.heap[b]?
  load : ∀ {w}, w ≠ .limbo S.stack → m.load w = S.memory.load w
  gauge : ∀ s, m.gauge s = S.memory.gauge s
  words : m.words.length = S.memory.words.length
  table : m.table = S.memory.table

/-- Entry `e` is in hand, with node `b` in it and a link to `next`; the links from `rest` on lead
through the entries that are left after it. -/
structure Handling (m : Memory α) (done : List (Block × Block)) (e b : Block)
    (next rest : Option Block) (tail : List (Block × Block)) : Prop where
  partway : S.Partway m done ((e, b) :: tail)
  entry : m.wrapped? e = some (b, next)
  rest : Chain m.wrapped? rest tail

/-- Where the thread is with the sweep, the entries that are left to it, and what has been seen. -/
inductive At (m : Memory α) : List (Block × Block) → Control α → List (Mark α) → Prop where
  | peeking (h : m = S.memory) : At m [] (.peeking (S.pass [])) []
  | detaching (h : m = S.memory) : At m [] (.detaching (S.pass [])) []
  | walking {done left e} (h : S.Partway m done left) (hc : Chain m.wrapped? e left) :
      At m left (.walking (S.pass done) e) (S.marks done)
  | opening {done e b rest tail} (h : S.Handling m done e b rest rest tail) :
      At m ((e, b) :: tail) (.opening (S.pass done) e rest) (S.marks done)
  | inspecting {done e b rest tail i} (h : S.Handling m done e b rest rest tail)
      (hi : i ≤ S.memory.table.slots.length)
      (hseen : ∀ j < i, ∀ slot, S.memory.table.slots[j]? = some slot → slot.published ≠ .block b) :
      At m ((e, b) :: tail) (.inspecting (S.pass done) e rest b i) (S.marks done)
  | loading {done e b next rest tail} (h : S.Handling m done e b next rest tail)
      (hb : S.holds (e, b)) :
      At m ((e, b) :: tail) (.loading (.limbo S.stack) e (.defer (S.pass done) rest)) (S.marks done)
  | linking {done e b next rest tail seen} (h : S.Handling m done e b next rest tail)
      (hb : S.holds (e, b)) (hseen : m.load (.limbo S.stack) = seen) :
      At m ((e, b) :: tail) (.linking (.limbo S.stack) e seen (.defer (S.pass done) rest))
        (S.marks done)
  | swinging {done e b rest tail seen} (h : S.Handling m done e b seen rest tail)
      (hb : S.holds (e, b)) (hseen : m.load (.limbo S.stack) = seen) :
      At m ((e, b) :: tail) (.swinging (.limbo S.stack) e seen (.defer (S.pass done) rest))
        (S.marks done)
  | unwrapping {done e b rest tail} (h : S.Handling m done e b rest rest tail)
      (hb : S.holds (e, b) = false) :
      At m ((e, b) :: tail) (.unwrapping (S.pass done) e rest b) (S.marks done)
  | burying {done e b rest tail} (h : S.Partway m done ((e, b) :: tail)) (he : m.heap[e]? = none)
      (hc : Chain m.wrapped? rest tail) (hb : S.holds (e, b) = false) :
      At m tail (.burying (S.pass done) rest b) (S.marks done)
  | settling (h : S.Partway m S.entries []) :
      At m [] (.settling (S.pass S.entries)) (S.marks S.entries)
  | idle {m₁} (h : S.Partway m₁ S.entries [])
      (hm : m = m₁.mapGauge S.stack (· - UInt64.ofNat (S.freed S.entries).length)) :
      At m [] .idle (S.marks S.entries ++ (S.pass S.entries).marks)

end

variable {S : Sweep α} {m : Memory α} {done tail : List (Block × Block)} {p : Block × Block}

theorem holds_iff {e b : Block} : S.holds (e, b) = true ↔
    ∃ (j : Nat) (slot : Slot), S.memory.table.slots[j]? = some slot ∧
      slot.published = .block b := by
  simp only [holds, SlotTable.publishes_eq_true_iff, List.mem_iff_getElem?]
  grind [Address.block_ne_null]

theorem kept_keep (hp : S.holds p) : S.kept (done ++ [p]) = S.kept done ++ [p] := by
  have hp' : S.memory.table.publishes (.block p.2) := hp
  simp [kept, SlotTable.kept, hp']

theorem freed_keep (hp : S.holds p) : S.freed (done ++ [p]) = S.freed done := by
  have hp' : S.memory.table.publishes (.block p.2) := hp
  simp [freed, SlotTable.freed, hp']

theorem kept_free (hp : S.holds p = false) : S.kept (done ++ [p]) = S.kept done := by
  have hp' : S.memory.table.publishes (.block p.2) = false := hp
  simp [kept, SlotTable.kept, hp']

theorem freed_free (hp : S.holds p = false) : S.freed (done ++ [p]) = S.freed done ++ [p] := by
  have hp' : S.memory.table.publishes (.block p.2) = false := hp
  simp [freed, SlotTable.freed, hp']

theorem pass_keep (hp : S.holds p) :
    S.pass (done ++ [p]) = { S.pass done with deferred := (S.pass done).deferred + 1 } := by
  simp [pass, kept_keep hp, freed_keep hp]

theorem pass_free (hp : S.holds p = false) :
    S.pass (done ++ [p]) = { S.pass done with freed := (S.pass done).freed + 1 } := by
  simp [pass, kept_free hp, freed_free hp]

theorem marks_keep (hp : S.holds p) : S.marks (done ++ [p]) = S.marks done := by
  simp [marks, freed_keep hp]

theorem marks_free (hp : S.holds p = false) :
    S.marks (done ++ [p]) = S.marks done ++ [.freed S.stack p.2] := by
  simp [marks, freed_free hp]

theorem marks_pass : S.marks done ++ (S.pass done).marks =
    (S.freed done).map (fun p => .freed S.stack p.2) ++
      ((if done = [] then [] else [.swept S.stack (S.freed done).length (S.kept done).length]) ++
        [.returned (S.pass done).reply]) := by
  have hlength : (S.pass done).freed + (S.pass done).deferred = done.length :=
    S.memory.table.length_freed_add_kept done
  simp only [Pass.marks, hlength, List.length_pos_iff, ne_eq, ite_not]
  rfl

theorem mem_of_kept (hp : p ∈ S.kept done) : p ∈ done := (List.mem_filter.1 hp).1

theorem mem_of_freed (hp : p ∈ S.freed done) : p ∈ done := (List.mem_filter.1 hp).1

/-! ## What one access does -/

namespace Partway

variable {e b : Block}

theorem mem_of_done {left : List (Block × Block)} (h : S.Partway m done left) (hp : p ∈ done) :
    p ∈ S.entries := by
  rw [h.split]
  exact List.mem_append_left _ hp

theorem mem_of_left {left : List (Block × Block)} (h : S.Partway m done left) (hp : p ∈ left) :
    p ∈ S.entries := by
  rw [h.split]
  exact List.mem_append_right _ hp

theorem ne_entry (h : S.Partway m done ((e, b) :: tail)) (hp : p ∈ done ∨ p ∈ tail) : e ≠ p.1 := by
  have hnodup := S.limbo.chain.nodup
  rw [h.split, List.map_append, List.map_cons, List.nodup_middle, List.nodup_cons] at hnodup
  rw [← List.map_append] at hnodup
  exact fun heq => hnodup.1 (List.mem_map.2 ⟨p, List.mem_append.2 hp, heq.symm⟩)

theorem ne_node (h : S.Partway m done ((e, b) :: tail)) (hp : p ∈ done) : b ≠ p.2 := by
  have hnodup := S.limbo.nodup
  rw [h.split, List.map_append, List.map_cons, List.nodup_middle, List.nodup_cons] at hnodup
  exact fun heq => hnodup.1 (List.mem_append_left _ (List.mem_map.2 ⟨p, hp, heq.symm⟩))

theorem exists_node (h : S.Partway m done ((e, b) :: tail)) :
    ∃ v next, m.object? b = some (.node v next) := by
  have hmem : (e, b) ∈ S.entries := h.mem_of_left (by simp)
  obtain ⟨v, next, hnode⟩ := S.limbo.node hmem
  refine ⟨v, next, ?_⟩
  rw [Memory.object?, h.heap ?_ ?_]
  · exact hnode
  · intro hb
    obtain ⟨p, hp, hpb⟩ := List.mem_map.1 hb
    exact S.limbo.ne hp hmem hpb
  · intro hb
    obtain ⟨p, hp, hpb⟩ := List.mem_map.1 hb
    exact h.ne_node (mem_of_freed hp) hpb.symm

theorem detach : S.Partway (S.memory.store (.limbo S.stack) none) [] S.entries where
  split := rfl
  chain := (S.memory.load_store (w := .limbo S.stack) S.limbo.stack ..).trans (if_pos rfl)
  gone := nofun
  heap _ _ := by rw [Memory.heap_store]
  load hw := (S.memory.load_store (w := .limbo S.stack) S.limbo.stack ..).trans (if_neg hw)
  gauge := S.memory.gauge_store _ _
  words := S.memory.length_words_store ..
  table := S.memory.table_store ..

theorem bury (h : S.Partway m done ((e, b) :: tail)) (he : m.heap[e]? = none)
    (hb : S.holds (e, b) = false) : S.Partway (m.free b) (done ++ [(e, b)]) tail where
  split := by rw [h.split, List.append_assoc]; rfl
  chain := by
    rw [kept_free hb, Memory.load_free]
    refine Chain.congr (fun p hp => Memory.wrapped?_congr ?_) h.chain
    have hne := S.limbo.ne (h.mem_of_done (mem_of_kept (List.mem_reverse.1 hp)))
      (h.mem_of_left List.mem_cons_self)
    rw [Memory.object?_free, if_neg hne.symm]
  gone := by
    intro p hp
    rw [freed_free hb, List.mem_append, List.mem_singleton] at hp
    simp only [Memory.getElem?_heap_free]
    rcases hp with hp | rfl
    · simp [h.gone hp]
    · simp [he]
  heap hentry hnode := by
    rw [freed_free hb, List.map_append, List.mem_append, not_or] at hnode
    rw [Memory.getElem?_heap_free, if_neg fun hne => hnode.2 (by simp [hne])]
    exact h.heap hentry hnode.1
  load hw := (m.load_free ..).trans (h.load hw)
  gauge := h.gauge
  words := h.words
  table := h.table

theorem rest_bury {rest : Option Block} (h : S.Partway m done ((e, b) :: tail))
    (hc : Chain m.wrapped? rest tail) : Chain (m.free b).wrapped? rest tail := by
  refine Chain.congr (fun p hp => Memory.wrapped?_congr ?_) hc
  have hne := S.limbo.ne (h.mem_of_left (List.mem_cons_of_mem _ hp))
    (h.mem_of_left List.mem_cons_self)
  rw [Memory.object?_free, if_neg hne.symm]

theorem inLimbo (h : S.Partway m S.entries []) :
    m.InLimbo S.stack (S.kept S.entries).reverse where
  stack := h.words ▸ S.limbo.stack
  chain := h.chain
  node := by
    intro p hp
    obtain ⟨hp, hkept⟩ := List.mem_filter.1 (List.mem_reverse.1 hp)
    rw [Memory.object?, h.heap ?_ ?_]
    · exact S.limbo.node hp
    · intro hb
      obtain ⟨q, hq, hqb⟩ := List.mem_map.1 hb
      exact S.limbo.ne hq hp hqb
    · intro hb
      obtain ⟨q, hq, hqb⟩ := List.mem_map.1 hb
      have hfreed := (List.mem_filter.1 hq).2
      rw [hqb, hkept] at hfreed
      cases hfreed
  nodup := by
    rw [List.map_reverse, List.nodup_reverse]
    exact S.limbo.nodup.sublist (List.filter_sublist.map Prod.snd)

end Partway

namespace Handling

variable {e b : Block} {next rest : Option Block}

/-- An access that touches only the entry in hand leaves the rest of the sweep as it is. -/
theorem frame {m' : Memory α} (h : S.Handling m done e b next rest tail)
    (hheap : ∀ {x}, x ≠ e → m'.heap[x]? = m.heap[x]?) (hload : ∀ w, m'.load w = m.load w)
    (hgauge : ∀ s, m'.gauge s = m.gauge s) (hwords : m'.words.length = m.words.length)
    (htable : m'.table = m.table) :
    S.Partway m' done ((e, b) :: tail) ∧ Chain m'.wrapped? rest tail := by
  have hmem : (e, b) ∈ S.entries := h.partway.mem_of_left List.mem_cons_self
  have hother : ∀ {p}, p ∈ done ∨ p ∈ tail → m'.wrapped? p.1 = m.wrapped? p.1 := fun hp =>
    Memory.wrapped?_congr (by rw [Memory.object?, hheap (h.partway.ne_entry hp).symm]; rfl)
  refine ⟨⟨h.partway.split, ?_, fun hp => ?_, fun hentry hnode => ?_, fun hw => ?_, fun s => ?_,
    hwords.trans h.partway.words, htable.trans h.partway.table⟩, ?_⟩
  · rw [hload]
    exact Chain.congr (fun p hp => hother (.inl (mem_of_kept (List.mem_reverse.1 hp))))
      h.partway.chain
  · have hdone := mem_of_freed hp
    rw [hheap (h.partway.ne_entry (.inl hdone)).symm,
      hheap (S.limbo.ne hmem (h.partway.mem_of_done hdone)).symm]
    exact h.partway.gone hp
  · rw [hheap fun heq => hentry (List.mem_map.2 ⟨_, hmem, heq.symm⟩)]
    exact h.partway.heap hentry hnode
  · rw [hload, h.partway.load hw]
  · rw [hgauge, h.partway.gauge]
  · exact Chain.congr (fun p hp => hother (.inr hp)) h.rest

theorem aim (h : S.Handling m done e b next rest tail) (seen : Option Block) :
    S.Handling (m.overwrite e (.entry b seen)) done e b seen rest tail := by
  obtain ⟨hpartway, hrest⟩ := h.frame
    (fun hne => by rw [Memory.getElem?_heap_overwrite, if_neg hne.symm])
    (m.load_overwrite e (.entry b seen)) (m.gauge_overwrite _ _) (by rw [Memory.words_overwrite])
    (m.table_overwrite ..)
  refine ⟨hpartway, ?_, hrest⟩
  have hentry := Memory.wrapped?_eq_some.1 h.entry
  rw [Memory.wrapped?_eq_some, Memory.object?_overwrite, if_pos rfl, hentry]
  rfl

theorem keep (h : S.Handling m done e b (m.load (.limbo S.stack)) rest tail)
    (hb : S.holds (e, b)) :
    S.Partway (m.store (.limbo S.stack) (some e)) (done ++ [(e, b)]) tail := by
  have hs : (Anchor.limbo S.stack).stack < m.words.length := h.partway.words ▸ S.limbo.stack
  refine ⟨?_, ?_, ?_, ?_, ?_, ?_, ?_, ?_⟩
  · rw [h.partway.split, List.append_assoc]
    rfl
  · rw [kept_keep hb, List.reverse_concat, m.load_store hs, if_pos rfl,
      Memory.wrapped?_of_heap (m.heap_store ..)]
    exact Chain.cons h.entry h.partway.chain
  · rw [freed_keep hb, m.heap_store]
    exact h.partway.gone
  · rw [freed_keep hb, m.heap_store]
    exact h.partway.heap
  · exact fun hw => (m.load_store hs ..).trans ((if_neg hw).trans (h.partway.load hw))
  · exact fun s => (m.gauge_store ..).trans (h.partway.gauge s)
  · exact (m.length_words_store ..).trans h.partway.words
  · exact (m.table_store ..).trans h.partway.table

theorem unwrap (h : S.Handling m done e b next rest tail) :
    S.Partway (m.free e) done ((e, b) :: tail) ∧ Chain (m.free e).wrapped? rest tail :=
  h.frame (fun hne => by rw [Memory.getElem?_heap_free, if_neg hne.symm]) (m.load_free _)
    (m.gauge_free _) rfl rfl

end Handling

end Sweep

/-! ## From access to access -/

/-- A bound for the accesses that a sweep has still to make undisturbed, if it began with so many
entries, looks at `slots` slots, and has `k` entries in hand. -/
def Control.fuel (entries slots k : Nat) : Control α → Nat
  | .peeking _ => entries * (slots + 9) + 4
  | .detaching _ => entries * (slots + 9) + 3
  | .walking _ _ => k * (slots + 9) + 2
  | .opening _ _ _ => k * (slots + 9) + 1
  | .inspecting _ _ _ _ i => k * (slots + 9) - i
  | .loading _ _ _ | .unwrapping _ _ _ _ => k * (slots + 9) - slots - 1
  | .linking _ _ _ _ => k * (slots + 9) - slots - 2
  | .swinging _ _ _ _ => k * (slots + 9) - slots - 3
  | .burying _ _ _ => (k + 1) * (slots + 9) - slots - 2
  | .settling _ => 1
  | _ => 0

namespace Sweep

variable {S : Sweep α} {m : Memory α} {left : List (Block × Block)} {c : Control α}
  {L : List (Mark α)} {a : Advance α} {g : Agent α}

def fuel (S : Sweep α) (left : List (Block × Block)) (c : Control α) : Nat :=
  c.fuel S.entries.length S.memory.table.slots.length left.length

/-- An access brings the sweep nearer to its end, except for a failed exchange, which sends it back
by one access. -/
inductive Nearer (S : Sweep α) (left left' : List (Block × Block)) : Control α → Control α → Prop where
  | less {c c'} (h : S.fuel left' c' < S.fuel left c) : Nearer S left left' c c'
  | slip {w b seen seen' errand}
      (h : S.fuel left' (.linking w b seen' errand) = S.fuel left (.swinging w b seen errand) + 1) :
      Nearer S left left' (.swinging w b seen errand) (.linking w b seen' errand)

theorem At.silent (hA : S.At m left c L) : S.At m left c (L ++ []) :=
  (List.append_nil L).symm ▸ hA

theorem At.bare (hentries : S.entries = []) :
    S.At S.memory [] .idle [.returned (S.pass []).reply] := by
  have hchain := S.limbo.chain
  have hpart : S.Partway S.memory S.entries [] := by
    rw [hentries] at hchain ⊢
    exact ⟨hentries, hchain, nofun, fun _ _ => rfl, fun _ => rfl, fun _ => rfl, rfl, rfl⟩
  have hsame : S.memory.mapGauge S.stack (· - UInt64.ofNat (S.freed S.entries).length) =
      S.memory := by
    have hwords : S.memory.words.modify S.stack (fun w => { w with gauge := w.gauge - 0 }) =
        S.memory.words := by
      simp only [UInt64.sub_zero]
      exact List.modify_id ..
    rw [hentries]
    exact congrArg ({ S.memory with words := · }) hwords
  have hidle := At.idle hpart hsame.symm
  rw [hentries] at hidle
  exact hidle

/-- A sweep finds everything that it looks for. -/
theorem At.not_lost (hA : S.At m left c L) : ¬ Lost m c := by
  intro hl
  cases hl with
  | walking hlost =>
    cases hA with
    | walking h hc =>
      obtain ⟨b, rest, tail, rfl, hread, hrest⟩ := hc.exists_cons
      exact hlost _ _ (Memory.wrapped?_eq_some.1 hread)
  | opening hlost =>
    cases hA with
    | opening h => exact hlost _ _ (Memory.wrapped?_eq_some.1 h.entry)
  | linking hlost =>
    cases hA with
    | linking h =>
      rw [Memory.wrapped?_eq_some.1 h.entry] at hlost
      cases hlost
  | unwrapping hlost =>
    cases hA with
    | unwrapping h => exact hlost _ _ (Memory.wrapped?_eq_some.1 h.entry)
  | burying hlost =>
    cases hA with
    | burying h =>
      obtain ⟨v, next, hnode⟩ := h.exists_node
      exact hlost _ _ hnode
  | _ => cases hA

/-- A sweep stays on its way by accesses that only read. -/
theorem At.quiet {token : Token} {c' : Control α} {marks : List (Mark α)} (hA : S.At m left c L)
    (hq : Quiet m token c c' marks) :
    ∃ left', S.At m left' c' (L ++ marks) ∧ S.Nearer left left' c c' := by
  cases hq with
  | bare hload =>
    cases hA with
    | peeking h =>
      subst h
      exact ⟨[], .bare (hload ▸ S.limbo.chain).eq_nil, .less (by simp [fuel, Control.fuel])⟩
  | peek hload =>
    cases hA with
    | peeking h => exact ⟨[], .detaching h, .less (by simp [fuel, Control.fuel])⟩
  | finish =>
    cases hA with
    | walking h hc =>
      obtain rfl := hc.eq_nil
      obtain rfl : S.entries = _ := h.split.trans (List.append_nil _)
      exact ⟨[], (At.settling h).silent, .less (by simp [fuel, Control.fuel])⟩
  | walk he =>
    cases hA with
    | walking h hc =>
      obtain ⟨b, rest, tail, rfl, hread, hrest⟩ := hc.exists_cons
      obtain ⟨rfl, rfl⟩ := Object.entry.inj
        (Option.some.inj (he.symm.trans (Memory.wrapped?_eq_some.1 hread)))
      exact ⟨_, (At.opening ⟨h, hread, hrest⟩).silent, .less (by simp [fuel, Control.fuel])⟩
  | openEntry he =>
    cases hA with
    | opening h =>
      obtain ⟨rfl, rfl⟩ := Object.entry.inj
        (Option.some.inj (he.symm.trans (Memory.wrapped?_eq_some.1 h.entry)))
      exact ⟨_, (At.inspecting h (Nat.zero_le _) fun j hj => absurd hj (Nat.not_lt_zero j)).silent,
        .less (by simp [fuel, Control.fuel])⟩
  | pass hslot =>
    cases hA with
    | inspecting h hi hseen =>
      rw [h.partway.table] at hslot
      refine ⟨_, (At.unwrapping h (Bool.eq_false_iff.2 fun hb => ?_)).silent,
        .less (by simp only [fuel, Control.fuel, List.length_cons, Nat.succ_mul]; omega)⟩
      obtain ⟨j, slot, hj, hpub⟩ := holds_iff.1 hb
      have hlen := List.getElem?_eq_none_iff.1 hslot
      have hlt := (List.getElem?_eq_some_iff.1 hj).1
      exact hseen j (Nat.lt_of_lt_of_le hlt hlen) slot hj hpub
  | keep hslot hpub =>
    cases hA with
    | inspecting h hi hseen =>
      rw [h.partway.table] at hslot
      exact ⟨_, (At.loading h (holds_iff.2 ⟨_, _, hslot, hpub⟩)).silent,
        .less (by simp only [fuel, Control.fuel, List.length_cons, Nat.succ_mul]; omega)⟩
  | inspect hslot hpub =>
    cases hA with
    | inspecting h hi hseen =>
      rw [h.partway.table] at hslot
      have hlt := (List.getElem?_eq_some_iff.1 hslot).1
      refine ⟨_, (At.inspecting h hlt fun j hj slot hjs => ?_).silent,
        .less (by simp only [fuel, Control.fuel, List.length_cons, Nat.succ_mul]; omega)⟩
      rcases Nat.lt_succ_iff_lt_or_eq.1 hj with hj | rfl
      · exact hseen j hj slot hjs
      · obtain rfl := Option.some.inj (hslot.symm.trans hjs)
        exact hpub
  | load =>
    cases hA with
    | loading h hb =>
      exact ⟨_, (At.linking h hb rfl).silent,
        .less (by simp only [fuel, Control.fuel, List.length_cons, Nat.succ_mul]; omega)⟩
  | relink =>
    cases hA with
    | swinging h hb hseen =>
      exact ⟨_, (At.linking h hb rfl).silent,
        .slip (by simp only [fuel, Control.fuel, List.length_cons, Nat.succ_mul]; omega)⟩
  | _ => cases hA

/-- A thread that goes on with its sweep stays on the way that `At` describes. -/
theorem At.move (hA : S.At m left g.control L) (hm : Move m g a) :
    ∃ left', a.agent = g.goTo a.agent.control ∧
      S.At a.memory left' a.agent.control (L ++ a.marks) ∧
      S.Nearer left left' g.control a.agent.control := by
  cases hm with
  | quiet hq =>
    obtain ⟨left', hA', hnear⟩ := hA.quiet hq
    exact ⟨left', rfl, hA', hnear⟩
  | publish hp => cases hp <;> cases hA
  | crash hl => exact absurd hl hA.not_lost
  | detach =>
    cases hA with
    | detaching h =>
      subst h
      refine ⟨S.entries, rfl, .walking .detach ?_, .less (by simp [fuel, Control.fuel])⟩
      rw [Memory.wrapped?_of_heap (Memory.heap_store ..)]
      exact S.limbo.chain
  | aimNode hnode =>
    cases hA with
    | linking h =>
      rw [Memory.wrapped?_eq_some.1 h.entry] at hnode
      cases hnode
  | aimEntry he =>
    cases hA with
    | linking h hb hseen =>
      obtain ⟨rfl, rfl⟩ := Object.entry.inj
        (Option.some.inj (he.symm.trans (Memory.wrapped?_eq_some.1 h.entry)))
      exact ⟨_, rfl, (At.swinging (h.aim _) hb ((m.load_overwrite ..).trans hseen)).silent,
        .less (by simp only [fuel, Control.fuel, List.length_cons, Nat.succ_mul]; omega)⟩
  | defer hw =>
    cases hA with
    | swinging h hb hseen =>
      have hwalk := At.walking ((hseen ▸ h).keep hb)
        (Memory.wrapped?_of_heap (m.heap_store ..) ▸ h.rest)
      rw [pass_keep hb, marks_keep hb] at hwalk
      exact ⟨_, rfl, hwalk.silent,
        .less (by simp only [fuel, Control.fuel, List.length_cons, Nat.succ_mul]; omega)⟩
  | @unwrap token held pass e =>
    cases hA with
    | unwrapping h hb =>
      obtain ⟨hpart, hrest⟩ := h.unwrap
      have hgone : (m.free e).heap[e]? = none := (m.getElem?_heap_free e e).trans (if_pos rfl)
      exact ⟨_, rfl, (At.burying hpart hgone hrest hb).silent,
        .less (by simp only [fuel, Control.fuel, List.length_cons, Nat.succ_mul]; omega)⟩
  | bury hnode =>
    cases hA with
    | burying h he hc hb =>
      have hwalk := At.walking (h.bury he hb) (h.rest_bury hc)
      rw [pass_free hb, marks_free hb] at hwalk
      exact ⟨_, rfl, hwalk, .less (by simp only [fuel, Control.fuel, Nat.succ_mul]; omega)⟩
  | settle =>
    cases hA with
    | settling h => exact ⟨[], rfl, .idle h rfl, .less (by simp [fuel, Control.fuel])⟩
  | _ => cases hA

end Sweep

/-! ## Next accesses -/

def Control.allocates : Control α → Bool
  | .making .. | .wrapping .. => true
  | _ => false

theorem Agent.exists_step (g : Agent α) (m : Memory α) (hbusy : g.control ≠ .idle)
    (hrun : g.control ≠ .crashed) (halloc : g.control.allocates = false) :
    ∃ a, g.step m = some a := by
  obtain ⟨token, held, c⟩ := g
  cases c with
  | idle => exact absurd rfl hbusy
  | crashed => exact absurd rfl hrun
  | making | wrapping => cases halloc
  | trying | validating | scanning | inspecting | walking =>
    simp only [step]
    split <;> try split
    all_goals exact ⟨_, rfl⟩
  | linking | swinging | following | unlinking | clearing | taking | freeing | peeking | opening
  | unwrapping | burying =>
    simp only [step]
    split <;> exact ⟨_, rfl⟩
  | _ => exact ⟨_, rfl⟩

theorem Sweep.At.exists_step {S : Sweep α} {m : Memory α} {left : List (Block × Block)}
    {L : List (Mark α)} {g : Agent α} (hA : S.At m left g.control L) (hidle : g.control ≠ .idle) :
    ∃ a, g.step m = some a := by
  refine g.exists_step m hidle ?_ ?_ <;> generalize g.control = c at hA <;> cases hA
  all_goals first | rfl | nofun

/-! ## Runs -/

def Agent.advance? (g : Agent α) (m : Memory α) : Act α → Option (Advance α)
  | .step _ => g.step m
  | .receive _ b => g.receive m b
  | .stumble _ => g.stumble m
  | _ => none

theorem Agent.move_of_advance? {g : Agent α} {m : Memory α} {act : Act α} {a : Advance α}
    (h : g.advance? m act = some a) : Move m g a := by
  cases act with
  | step => exact g.step_move h
  | receive => exact g.receive_move h
  | stumble => exact g.stumble_move h
  | _ => cases h

theorem Machine.exists_advance {M M' : Machine α} {act : Act α} {marks : List (Mark α)} {t : Nat}
    {g : Agent α} (hact : M.act? act = some (M', marks)) (hmover : act.mover? = some t)
    (hg : M.agents[t]? = some g) : ∃ a, g.advance? M.memory act = some a ∧
      M' = ⟨a.memory, M.agents.set t a.agent⟩ ∧ marks = a.marks := by
  cases act <;> simp only [Act.mover?, Option.some.injEq, reduceCtorEq] at hmover <;> subst hmover
  all_goals
    simp only [act?, hg, Option.bind_eq_bind, Option.pure_def, Option.bind_some] at hact
    obtain ⟨a, ha, hact⟩ := Option.bind_eq_some_iff.1 hact
    obtain ⟨rfl, rfl⟩ := Prod.mk.inj (Option.some.inj hact)
    exact ⟨a, ha, rfl, rfl⟩

/-- How many exchanges fail without cause by an act. -/
def Act.stumbles : Act α → Nat
  | .stumble _ => 1
  | _ => 0

theorem Agent.eq_stumble {g : Agent α} {m : Memory α} {act : Act α} {a : Advance α} {w : Anchor}
    {b : Block} {seen seen' : Option Block} {errand : Errand α} (hact : g.advance? m act = some a)
    (hc : g.control = .swinging w b seen errand) (hload : m.load w = seen)
    (ha : a.agent.control = .linking w b seen' errand) : act.stumbles = 1 := by
  obtain ⟨token, held, c⟩ := g
  obtain rfl : c = _ := hc
  cases act with
  | stumble => rfl
  | step =>
    obtain rfl := Option.some.inj ((if_pos hload).symm.trans hact)
    cases errand <;> cases ha
  | receive t b =>
    simp only [Agent.advance?, Agent.receive] at hact
    split at hact <;> cases hact
  | _ => cases hact

namespace Sweep

variable {S : Sweep α} {m : Memory α} {left : List (Block × Block)} {c : Control α}
  {L : List (Mark α)} {g : Agent α} {agents : List (Agent α)} {t : Nat} {M' : Machine α}

theorem At.eq_stumble {w : Anchor} {b : Block} {seen seen' : Option Block} {errand : Errand α}
    {act : Act α} {a : Advance α} (hA : S.At m left (.swinging w b seen errand) L)
    (hact : (g.goTo (.swinging w b seen errand)).advance? m act = some a)
    (ha : a.agent.control = .linking w b seen' errand) : act.stumbles = 1 := by
  cases hA with
  | swinging h hb hseen => exact Agent.eq_stumble hact rfl hseen ha

theorem At.act {act : Act α} {marks : List (Mark α)} (hA : S.At m left c L)
    (ht : t < agents.length) (hmover : act.mover? = some t)
    (hact : (⟨m, agents.set t (g.goTo c)⟩ : Machine α).act? act = some (M', marks)) :
    ∃ m' left' c', M' = ⟨m', agents.set t (g.goTo c')⟩ ∧ S.At m' left' c' (L ++ marks) ∧
      1 + S.fuel left' c' ≤ S.fuel left c + 2 * act.stumbles := by
  obtain ⟨a, ha, rfl, rfl⟩ :=
    Machine.exists_advance hact hmover (Machine.getElem?_set_self ht (g.goTo c))
  obtain ⟨left', hagent, hA', hnear⟩ := At.move (g := g.goTo c) hA (Agent.move_of_advance? ha)
  refine ⟨a.memory, left', a.agent.control, ?_, hA', ?_⟩
  · rw [List.set_set, hagent]
    rfl
  · generalize hc' : a.agent.control = c' at hnear
    cases hnear with
    | less h =>
      have h : S.fuel left' c' < S.fuel left c := h
      omega
    | slip h =>
      have hstumble := hA.eq_stumble ha hc'
      omega

/-- Whatever the thread does, failed exchanges included, it stays on its way and comes nearer to the
end of the sweep. -/
theorem At.run {acts : List (Act α)} (hA : S.At m left c L) (ht : t < agents.length)
    (hacts : ∀ act ∈ acts, act.mover? = some t)
    (hrun : (⟨m, agents.set t (g.goTo c)⟩ : Machine α).run? acts = some M') :
    ∃ m' left' c', M' = ⟨m', agents.set t (g.goTo c')⟩ ∧
      S.At m' left' c' (L ++ (⟨m, agents.set t (g.goTo c)⟩ : Machine α).log acts) ∧
      acts.length + S.fuel left' c' ≤ S.fuel left c + 2 * (acts.map Act.stumbles).sum := by
  induction acts generalizing m left c L with
  | nil =>
    obtain rfl := Option.some.inj hrun
    exact ⟨m, left, c, rfl, by simpa [Machine.log] using hA, by simp⟩
  | cons act acts ih =>
    obtain ⟨M₁, marks, hact, hrun⟩ := Machine.run?_cons_eq_some.1 hrun
    obtain ⟨hmover, hacts⟩ := List.forall_mem_cons.1 hacts
    obtain ⟨m₁, left₁, c₁, rfl, hA₁, hfuel₁⟩ := hA.act ht hmover hact
    obtain ⟨m', left', c', rfl, hA', hfuel⟩ := ih hA₁ hacts hrun
    refine ⟨m', left', c', rfl, ?_, ?_⟩
    · simpa only [Machine.log, hact, List.append_assoc] using hA'
    · simp only [List.length_cons, List.map_cons, List.sum_cons]
      omega

/-- Undisturbed, a sweep comes to its end. -/
theorem At.finishes (hA : S.At m left c L) (ht : t < agents.length) (g : Agent α) :
    ∃ n m' L', (⟨m, agents.set t (g.goTo c)⟩ : Machine α).run? (List.replicate n (.step t)) =
      some ⟨m', agents.set t (g.goTo .idle)⟩ ∧ S.At m' [] .idle L' := by
  -- by induction on the accesses that are left at most
  induction hfuel : S.fuel left c using Nat.strong_induction_on generalizing m left c L with
  | _ n ih =>
    by_cases hidle : c = .idle
    · subst hidle
      refine ⟨0, m, L, rfl, ?_⟩
      cases hA with
      | idle h hm => exact .idle h hm
    · obtain ⟨a, hstep⟩ := At.exists_step (g := g.goTo c) hA hidle
      have hact := Machine.act?_of_step ht hstep
      obtain ⟨m₁, left₁, c₁, hM₁, hA₁, hless⟩ := hA.act ht rfl hact
      have hlt : S.fuel left₁ c₁ < n := by
        simp only [Act.stumbles] at hless
        omega
      obtain ⟨k, m', L', hrun, hA'⟩ := ih _ hlt hA₁ rfl
      refine ⟨k + 1, m', L', ?_, hA'⟩
      rw [List.replicate_succ]
      exact Machine.run?_cons_eq_some.2 ⟨_, _, hact, hM₁ ▸ hrun⟩

theorem At.ended (hA : S.At m left .idle L) :
    m.InLimbo S.stack (S.kept S.entries).reverse ∧ m.table = S.memory.table := by
  cases hA with
  | idle h hm => exact hm ▸ ⟨h.inLimbo.mapGauge .., h.table⟩

end Sweep

end Interleaved

end HazardLifo
