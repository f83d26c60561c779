import HazardLifo.Interleaved.Memory

/-!
# Linked lists in shared memory

`Chain read link L` says that the links from `link` on lead through the blocks of `L` and then end.
The nodes of a stack are a chain of `Memory.node?` under its top word, a limbo list is a chain of
`Memory.wrapped?`. A chain depends on its own blocks only (`Chain.congr`), never comes back to one
of them (`Chain.nodup`), and following the links gives it back (`Chain.follow_eq`).
-/

namespace HazardLifo.Interleaved

universe u

/-! ## Chains -/

/-- The links from `link` on lead through the blocks of the list, which hold its values, and end. -/
def Chain {β : Type u} (read : Block → Option (β × Option Block)) :
    Option Block → List (Block × β) → Prop
  | link, [] => link = none
  | link, (b, x) :: rest => link = some b ∧ ∃ next, read b = some (x, next) ∧ Chain read next rest

namespace Chain

variable {β : Type u} {read read' : Block → Option (β × Option Block)} {link : Option Block}
  {L : List (Block × β)}

theorem cons {b : Block} {x : β} {next : Option Block} (hb : read b = some (x, next))
    (h : Chain read next L) : Chain read (some b) ((b, x) :: L) :=
  ⟨rfl, next, hb, h⟩

theorem eq_nil (h : Chain read none L) : L = [] := by
  cases L with
  | nil => rfl
  | cons p L => cases h.1

theorem exists_cons {b : Block} (h : Chain read (some b) L) :
    ∃ x next rest, L = (b, x) :: rest ∧ read b = some (x, next) ∧ Chain read next rest := by
  cases L with
  | nil => cases h
  | cons p L =>
    obtain ⟨hb, next, hread, hrest⟩ := h
    obtain rfl := Option.some.inj hb
    exact ⟨p.2, next, L, rfl, hread, hrest⟩

theorem congr (hread : ∀ p ∈ L, read' p.1 = read p.1) (h : Chain read link L) :
    Chain read' link L := by
  induction L generalizing link with
  | nil => exact h
  | cons p L ih =>
    obtain ⟨rfl, next, hb, hrest⟩ := h
    refine cons ((hread p (by simp)).trans hb) (ih ?_ hrest)
    exact fun q hq => hread q (by simp [hq])

theorem exists_read (h : Chain read link L) {p : Block × β} (hp : p ∈ L) :
    ∃ next, read p.1 = some (p.2, next) := by
  induction L generalizing link with
  | nil => cases hp
  | cons q L ih =>
    obtain ⟨-, next, hb, hrest⟩ := h
    rcases List.mem_cons.1 hp with rfl | hp
    · exact ⟨next, hb⟩
    · exact ih hrest hp

theorem of_append {L₁ L₂ : List (Block × β)} (h : Chain read link (L₁ ++ L₂)) :
    ∃ link', Chain read link' L₂ := by
  induction L₁ generalizing link with
  | nil => exact ⟨link, h⟩
  | cons p L₁ ih =>
    obtain ⟨-, next, -, hrest⟩ := h
    exact ih hrest

theorem unique {L' : List (Block × β)} (h : Chain read link L) (h' : Chain read link L') :
    L = L' := by
  induction L generalizing link L' with
  | nil =>
    obtain rfl : link = none := h
    exact h'.eq_nil.symm
  | cons p L ih =>
    obtain ⟨rfl, next, hb, hrest⟩ := h
    obtain ⟨x, next', rest, rfl, hb', hrest'⟩ := h'.exists_cons
    obtain ⟨rfl, rfl⟩ := Prod.mk.inj (Option.some.inj (hb.symm.trans hb'))
    rw [ih hrest hrest']

/-- A chain that ends comes to no block twice. -/
theorem nodup (h : Chain read link L) : (L.map Prod.fst).Nodup := by
  induction L generalizing link with
  | nil => exact List.nodup_nil
  | cons p L ih =>
    have ⟨hlink, next, _, hrest⟩ := h
    refine List.nodup_cons.2 ⟨fun hp => ?_, ih hrest⟩
    -- from a second visit on, the chain would be as long as from the first
    obtain ⟨q, hq, hpq⟩ := List.mem_map.1 hp
    obtain ⟨L₁, L₂, rfl⟩ := List.append_of_mem hq
    obtain ⟨link', hlink'⟩ := hrest.of_append
    obtain rfl : link' = link := by rw [hlink'.1, hlink, hpq]
    have hlen := congrArg List.length (h.unique hlink')
    simp only [List.length_cons, List.length_append] at hlen
    omega

end Chain

/-- The blocks that the links from `link` on lead to, with their values, at most `fuel` of them. -/
def follow {β : Type u} (read : Block → Option (β × Option Block)) :
    Nat → Option Block → List (Block × β)
  | 0, _ | _, none => []
  | fuel + 1, some b =>
    match read b with
    | some (x, next) => (b, x) :: follow read fuel next
    | none => []

@[simp] theorem follow_none {β : Type u} (read : Block → Option (β × Option Block)) (fuel : Nat) :
    follow read fuel none = [] := by
  cases fuel <;> rfl

theorem Chain.follow_eq {β : Type u} {read : Block → Option (β × Option Block)}
    {link : Option Block} {L : List (Block × β)} {fuel : Nat} (h : Chain read link L)
    (hfuel : L.length ≤ fuel) : follow read fuel link = L := by
  induction L generalizing link fuel with
  | nil =>
    obtain rfl : link = none := h
    cases fuel <;> rfl
  | cons p L ih =>
    obtain ⟨rfl, next, hb, hrest⟩ := h
    cases fuel with
    | zero => simp at hfuel
    | succ fuel => simp only [follow, hb, ih hrest (by simpa using hfuel)]

/-! ## Reading nodes and entries -/

def Anchor.stack : Anchor → StackIndex
  | .top s | .limbo s => s

namespace Memory

variable {α : Type}

/-- The value and the link of a node that still has its value. -/
def node? (m : Memory α) (b : Block) : Option (α × Option Block) :=
  match m.object? b with
  | some (.node (some v) next) => some (v, next)
  | _ => none

def wrapped? (m : Memory α) (e : Block) : Option (Block × Option Block) :=
  match m.object? e with
  | some (.entry n next) => some (n, next)
  | _ => none

/-- Which allocation the present use of a block goes back to. -/
def serial? (m : Memory α) (b : Block) : Option Nat := m.heap[b]?.map (·.serial)

variable {m m' : Memory α} {b : Block}

theorem object?_eq_some {o : Object α} :
    m.object? b = some o ↔ ∃ serial, m.heap[b]? = some ⟨serial, o⟩ := by
  simp only [object?, Option.map_eq_some_iff]
  constructor
  · rintro ⟨cell, h, rfl⟩
    exact ⟨cell.serial, h⟩
  · rintro ⟨serial, h⟩
    exact ⟨_, h, rfl⟩

theorem node?_eq_some {v : α} {next : Option Block} :
    m.node? b = some (v, next) ↔ m.object? b = some (.node (some v) next) := by
  unfold node?
  split <;> simp_all

theorem wrapped?_eq_some {n : Block} {next : Option Block} :
    m.wrapped? b = some (n, next) ↔ m.object? b = some (.entry n next) := by
  unfold wrapped?
  split <;> simp_all

theorem node?_congr (h : m'.object? b = m.object? b) : m'.node? b = m.node? b := by
  simp only [node?, h]

theorem wrapped?_congr (h : m'.object? b = m.object? b) : m'.wrapped? b = m.wrapped? b := by
  simp only [wrapped?, h]

theorem isSome_object? : (m.object? b).isSome = (m.heap[b]?).isSome := Option.isSome_map

theorem isSome_serial? : (m.serial? b).isSome = (m.heap[b]?).isSome := Option.isSome_map

theorem object?_of_heap (h : m'.heap = m.heap) : m'.object? = m.object? := by
  funext b
  simp only [object?, h]

theorem node?_of_heap (h : m'.heap = m.heap) : m'.node? = m.node? :=
  funext fun _ => node?_congr (by rw [object?_of_heap h])

theorem wrapped?_of_heap (h : m'.heap = m.heap) : m'.wrapped? = m.wrapped? :=
  funext fun _ => wrapped?_congr (by rw [object?_of_heap h])

theorem getElem?_heap_overwrite (m : Memory α) (b : Block) (o : Object α) (b' : Block) :
    (m.overwrite b o).heap[b']? =
      if b = b' then (m.heap[b]?).map ({ · with object := o }) else m.heap[b']? := by
  unfold overwrite
  split
  · rename_i cell h
    simp only [Std.HashMap.getElem?_insert, beq_iff_eq, h, Option.map_some]
  · rename_i h
    split
    · rename_i hb
      rw [← hb, h, Option.map_none]
    · rfl

theorem getElem?_heap_free (m : Memory α) (b b' : Block) :
    (m.free b).heap[b']? = if b = b' then none else m.heap[b']? := by
  simp only [free, Std.HashMap.getElem?_erase, beq_iff_eq]

theorem getElem?_heap_allocate (m : Memory α) (b : Block) (o : Object α) (b' : Block) :
    (m.allocate b o).heap[b']? = if b = b' then some ⟨m.births, o⟩ else m.heap[b']? := by
  simp only [allocate, Std.HashMap.getElem?_insert, beq_iff_eq]

theorem isSome_heap_overwrite (m : Memory α) (b : Block) (o : Object α) (b' : Block) :
    ((m.overwrite b o).heap[b']?).isSome = (m.heap[b']?).isSome := by
  rw [getElem?_heap_overwrite]
  split
  · rename_i h
    rw [Option.isSome_map, h]
  · rfl

/-! ## Words after a change -/

@[simp] theorem load_overwrite (m : Memory α) (b : Block) (o : Object α) (w : Anchor) :
    (m.overwrite b o).load w = m.load w := by
  unfold overwrite
  split <;> cases w <;> rfl

@[simp] theorem load_free (m : Memory α) (b : Block) (w : Anchor) :
    (m.free b).load w = m.load w := by
  cases w <;> rfl

@[simp] theorem load_allocate (m : Memory α) (b : Block) (o : Object α) (w : Anchor) :
    (m.allocate b o).load w = m.load w := by
  cases w <;> rfl

@[simp] theorem load_mapTable (m : Memory α) (f : SlotTable → SlotTable) (w : Anchor) :
    (m.mapTable f).load w = m.load w := by
  cases w <;> rfl

@[simp] theorem load_mapGauge (m : Memory α) (s : StackIndex) (f : UInt64 → UInt64) (w : Anchor) :
    (m.mapGauge s f).load w = m.load w := by
  cases w with
  | _ s' =>
    simp only [load, mapGauge, List.getElem?_modify]
    cases m.words[s']? with
    | none => rfl
    | some words => by_cases hs : s = s' <;> simp [hs]

theorem load_store (m : Memory α) {w : Anchor} (hw : w.stack < m.words.length) (link : Option Block)
    (w' : Anchor) : (m.store w link).load w' = if w' = w then link else m.load w' := by
  obtain ⟨words, hwords⟩ : ∃ words, m.words[w.stack]? = some words :=
    ⟨_, List.getElem?_eq_getElem hw⟩
  cases w <;> cases w' <;> rename_i s s' <;>
    simp only [load, store, List.getElem?_modify, Anchor.top.injEq, Anchor.limbo.injEq,
      reduceCtorEq, if_false] <;> simp only [Anchor.stack] at hwords
  all_goals
    by_cases hs : s = s'
    · subst hs
      simp [hwords]
    · cases m.words[s']? <;> simp [hs, Ne.symm hs]

@[simp] theorem heap_store (m : Memory α) (w : Anchor) (link : Option Block) :
    (m.store w link).heap = m.heap := by
  cases w <;> rfl

@[simp] theorem births_store (m : Memory α) (w : Anchor) (link : Option Block) :
    (m.store w link).births = m.births := by
  cases w <;> rfl

@[simp] theorem words_overwrite (m : Memory α) (b : Block) (o : Object α) :
    (m.overwrite b o).words = m.words := by
  unfold overwrite
  split <;> rfl

@[simp] theorem length_words_store (m : Memory α) (w : Anchor) (link : Option Block) :
    (m.store w link).words.length = m.words.length := by
  cases w <;> simp [store]

end Memory

end HazardLifo.Interleaved
