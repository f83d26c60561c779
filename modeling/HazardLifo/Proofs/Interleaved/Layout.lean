import HazardLifo.Proofs.Interleaved.Chain
import HazardLifo.Proofs.Interleaved.Slots
import Mathlib.Logic.Function.Basic

/-!
# Layouts of the heap

Every block in use is in exactly one place: linked under the top word of one stack, in one limbo
list (an entry together with the node in it), or in the hands of one thread. `Grip` says what a
thread has in hand between two accesses, `Layout` lists what every place keeps, and `Custody` says
that a layout fits the memory and covers the heap, each block once. The lemmas of `Custody` follow a
layout through each kind of access that moves blocks.
-/

namespace HazardLifo.Interleaved

variable {α : Type}

/-! ## Places -/

inductive Keeper where
  | top (s : StackIndex)
  | limbo (s : StackIndex)
  | thread (t : Nat)
  deriving DecidableEq

/-- Every block in the domain is in exactly one place, once, and no other block is anywhere. -/
structure Partition (dom : Block → Prop) (f : Keeper → List Block) : Prop where
  nodup : ∀ k, (f k).Nodup
  unique : ∀ {k k' b}, b ∈ f k → b ∈ f k' → k = k'
  cover : ∀ b, dom b ↔ ∃ k, b ∈ f k

namespace Partition

variable {dom dom' : Block → Prop} {f f' : Keeper → List Block} {b : Block}

theorem congr (h : Partition dom f) (hdom : ∀ b, dom' b ↔ dom b) : Partition dom' f :=
  ⟨h.nodup, h.unique, fun b => (hdom b).trans (h.cover b)⟩

/-- Two places exchange blocks. -/
theorem exchange (h : Partition dom f) (k k' : Keeper) (hne : k ≠ k')
    (hp : (f' k ++ f' k').Perm (f k ++ f k'))
    (hsame : ∀ j, j ≠ k → j ≠ k' → f' j = f j) : Partition dom f' := by
  have hnodup : (f' k ++ f' k').Nodup := hp.nodup_iff.2
    (List.nodup_append'.2 ⟨h.nodup k, h.nodup k', fun b hb hb' => hne (h.unique hb hb')⟩)
  obtain ⟨hk, hk', hdisj⟩ := List.nodup_append'.1 hnodup
  have hmem : ∀ b, (b ∈ f' k ∨ b ∈ f' k') ↔ (b ∈ f k ∨ b ∈ f k') := fun b => by
    simpa using hp.mem_iff (a := b)
  -- every block was in a place before, in the same one unless in one of the two
  have hback : ∀ {j b}, b ∈ f' j →
      ∃ i, b ∈ f i ∧ (i = j ∨ (i = k ∨ i = k') ∧ (j = k ∨ j = k')) := by
    intro j b hb
    by_cases hjk : j = k
    · rcases (hmem b).1 (.inl (hjk ▸ hb)) with hb | hb
      · exact ⟨k, hb, .inr ⟨.inl rfl, .inl hjk⟩⟩
      · exact ⟨k', hb, .inr ⟨.inr rfl, .inl hjk⟩⟩
    · by_cases hjk' : j = k'
      · rcases (hmem b).1 (.inr (hjk' ▸ hb)) with hb | hb
        · exact ⟨k, hb, .inr ⟨.inl rfl, .inr hjk'⟩⟩
        · exact ⟨k', hb, .inr ⟨.inr rfl, .inr hjk'⟩⟩
      · exact ⟨j, hsame j hjk hjk' ▸ hb, .inl rfl⟩
  refine ⟨fun j => ?_, fun {j j' b} hb hb' => ?_, fun b => ?_⟩
  · by_cases hjk : j = k
    · exact hjk ▸ hk
    · by_cases hjk' : j = k'
      · exact hjk' ▸ hk'
      · exact hsame j hjk hjk' ▸ h.nodup j
  · obtain ⟨i, hi, hij⟩ := hback hb
    obtain ⟨i', hi', hij'⟩ := hback hb'
    obtain rfl := h.unique hi hi'
    have hcross : ∀ {x}, x ∈ f' k → x ∈ f' k' → False := fun hx hx' => hdisj hx hx'
    grind
  · rw [h.cover]
    constructor
    · rintro ⟨j, hj⟩
      by_cases hjk : j = k
      · rcases (hmem b).2 (.inl (hjk ▸ hj)) with hb | hb
        · exact ⟨k, hb⟩
        · exact ⟨k', hb⟩
      · by_cases hjk' : j = k'
        · rcases (hmem b).2 (.inr (hjk' ▸ hj)) with hb | hb
          · exact ⟨k, hb⟩
          · exact ⟨k', hb⟩
        · exact ⟨j, (hsame j hjk hjk').symm ▸ hj⟩
    · rintro ⟨j, hj⟩
      obtain ⟨i, hi, -⟩ := hback hj
      exact ⟨i, hi⟩

theorem grow (h : Partition dom f) (k : Keeper) (hb : ¬ dom b) (hp : (f' k).Perm (b :: f k))
    (hsame : ∀ j, j ≠ k → f' j = f j) : Partition (fun x => x = b ∨ dom x) f' := by
  have hnew : ∀ j, b ∉ f j := fun j hj => hb ((h.cover b).2 ⟨j, hj⟩)
  have hmem : ∀ {j x}, x ∈ f' j ↔ (j = k ∧ x = b) ∨ x ∈ f j := by
    intro j x
    by_cases hj : j = k
    · subst hj
      simp [hp.mem_iff]
    · simp [hsame j hj, hj]
  refine ⟨fun j => ?_, fun {j j' x} hx hx' => ?_, fun x => ?_⟩
  · by_cases hj : j = k
    · subst hj
      exact hp.nodup_iff.2 (List.nodup_cons.2 ⟨hnew j, h.nodup j⟩)
    · exact hsame j hj ▸ h.nodup j
  · rcases hmem.1 hx with ⟨rfl, rfl⟩ | hx
    · rcases hmem.1 hx' with ⟨rfl, -⟩ | hx'
      · rfl
      · exact absurd hx' (hnew _)
    · rcases hmem.1 hx' with ⟨rfl, rfl⟩ | hx'
      · exact absurd hx (hnew _)
      · exact h.unique hx hx'
  · simp only [hmem, h.cover]
    constructor
    · rintro (rfl | ⟨j, hj⟩)
      · exact ⟨k, .inl ⟨rfl, rfl⟩⟩
      · exact ⟨j, .inr hj⟩
    · rintro ⟨j, ⟨-, rfl⟩ | hj⟩
      · exact .inl rfl
      · exact .inr ⟨j, hj⟩

theorem shrink (h : Partition dom f) (k : Keeper) (hp : (f k).Perm (b :: f' k))
    (hsame : ∀ j, j ≠ k → f' j = f j) : Partition (fun x => x ≠ b ∧ dom x) f' := by
  obtain ⟨hb, hnodup⟩ := List.nodup_cons.1 (hp.nodup_iff.1 (h.nodup k))
  have hbk : b ∈ f k := hp.mem_iff.2 (by simp)
  have hmem : ∀ {j x}, x ∈ f' j ↔ x ≠ b ∧ x ∈ f j := by
    intro j x
    by_cases hj : j = k
    · subst hj
      rw [hp.mem_iff, List.mem_cons]
      constructor
      · exact fun hx => ⟨fun hxb => hb (hxb ▸ hx), .inr hx⟩
      · exact fun ⟨hne, hx⟩ => hx.resolve_left hne
    · rw [hsame j hj]
      exact ⟨fun hx => ⟨fun hxb => hj (h.unique (hxb ▸ hx) hbk), hx⟩, And.right⟩
  refine ⟨fun j => ?_, fun hx hx' => h.unique (hmem.1 hx).2 (hmem.1 hx').2, fun x => ?_⟩
  · by_cases hj : j = k
    · exact hj ▸ hnodup
    · exact hsame j hj ▸ h.nodup j
  · simp only [hmem, h.cover]
    constructor
    · rintro ⟨hne, j, hj⟩
      exact ⟨j, hne, hj⟩
    · rintro ⟨j, hne, hj⟩
      exact ⟨hne, j, hj⟩

end Partition

/-! ## What a thread has in hand -/

structure Grip where
  /-- A node outside of every list and entry, and whether it still has its value. -/
  node : Option (Block × Bool) := none
  /-- An entry outside of every limbo list, and the node in it where the thread knows it. -/
  entry : Option (Block × Option Block) := none
  /-- Where the link of the block in hand leads, if the thread knows. -/
  aim : Option (Option Block) := none
  /-- Where the rest of a detached list begins. -/
  rest : Option Block := none

def Errand.grip (b : Block) : Errand α → Grip
  | .push => { node := some (b, true) }
  | .retire _ _ => { entry := some (b, none) }
  | .defer _ rest => { entry := some (b, none), rest := rest }

def Control.grip : Control α → Grip
  | .loading _ b errand | .linking _ b _ errand => errand.grip b
  | .swinging _ b seen errand => { errand.grip b with aim := some seen }
  | .clearing _ _ (some b) | .taking _ b => { node := some (b, true) }
  | .scanning _ b _ _ | .freeing _ b _ | .wrapping _ b _ => { node := some (b, false) }
  | .counting _ b e _ => { entry := some (e, some b) }
  | .walking _ e => { rest := e }
  | .opening _ e rest => { entry := some (e, none), aim := some rest, rest := rest }
  | .inspecting _ e rest b _ | .unwrapping _ e rest b =>
    { entry := some (e, some b), aim := some rest, rest := rest }
  | .burying _ rest b => { node := some (b, false), rest := rest }
  | _ => {}

def unpack (entries : List (Block × Block)) : List Block := entries.flatMap fun p => [p.1, p.2]

@[simp] theorem unpack_nil : unpack [] = [] := rfl

@[simp] theorem unpack_cons (p : Block × Block) (entries : List (Block × Block)) :
    unpack (p :: entries) = p.1 :: p.2 :: unpack entries := rfl

theorem mem_unpack {b : Block} {entries : List (Block × Block)} :
    b ∈ unpack entries ↔ ∃ p ∈ entries, b = p.1 ∨ b = p.2 := by
  simp [unpack]

theorem length_unpack (entries : List (Block × Block)) :
    (unpack entries).length = 2 * entries.length := by
  induction entries with
  | nil => rfl
  | cons p entries ih =>
    simp only [unpack_cons, List.length_cons, ih]
    omega

theorem eq_of_nodup_unpack {entries : List (Block × Block)} (hnodup : (unpack entries).Nodup)
    {e e' n : Block} (h : (e, n) ∈ entries) (h' : (e', n) ∈ entries) : e = e' := by
  induction entries with
  | nil => cases h
  | cons p entries ih =>
    have htail := (List.nodup_cons.1 hnodup).2
    have hnot : ∀ {x}, (x, p.2) ∉ entries := fun hx =>
      (List.nodup_cons.1 htail).1 (mem_unpack.2 ⟨_, hx, .inr rfl⟩)
    rcases List.mem_cons.1 h with rfl | he <;> rcases List.mem_cons.1 h' with heq | he'
    · exact (Prod.mk.inj heq).1.symm
    · exact absurd he' hnot
    · subst heq
      exact absurd he hnot
    · exact ih (List.nodup_cons.1 htail).2 he he'

/-- The entry in hand and the rest of the detached list are these entries. -/
def Grip.Carries (γ : Grip) (m : Memory α) (carried : List (Block × Block)) : Prop :=
  match γ.entry with
  | none => Chain m.wrapped? γ.rest carried
  | some (e, known) =>
    ∃ n next tail, carried = (e, n) :: tail ∧ m.object? e = some (.entry n next) ∧
      (∀ x, known = some x → n = x) ∧ (∀ x, γ.aim = some x → next = x) ∧
      Chain m.wrapped? γ.rest tail

/-- The memory holds what a thread has in hand: this node and these entries. -/
structure Grip.Fits (γ : Grip) (m : Memory α) (loose : Option Block)
    (carried : List (Block × Block)) : Prop where
  loose_eq : loose = γ.node.map Prod.fst
  node : ∀ {b full}, γ.node = some (b, full) → ∃ v next, m.object? b = some (.node v next) ∧
    v.isSome = full ∧ ∀ x, γ.aim = some x → next = x
  carries : γ.Carries m carried

namespace Grip

variable {γ : Grip} {m m' : Memory α} {loose : Option Block} {carried : List (Block × Block)}

theorem Carries.congr (h : γ.Carries m carried)
    (hobj : ∀ p ∈ carried, m'.object? p.1 = m.object? p.1) : γ.Carries m' carried := by
  unfold Carries at h ⊢
  split
  · rename_i he
    rw [he] at h
    exact Chain.congr (fun p hp => Memory.wrapped?_congr (hobj p hp)) h
  · rename_i e known he
    rw [he] at h
    obtain ⟨n, next, tail, rfl, hentry, hknown, haim, hrest⟩ := h
    refine ⟨n, next, tail, rfl, (hobj (e, n) (by simp)).trans hentry, hknown, haim, ?_⟩
    exact Chain.congr (fun p hp => Memory.wrapped?_congr (hobj p (List.mem_cons_of_mem _ hp))) hrest

theorem Fits.congr (h : γ.Fits m loose carried)
    (hobj : ∀ b ∈ loose.toList ++ unpack carried, m'.object? b = m.object? b) :
    γ.Fits m' loose carried := by
  refine ⟨h.loose_eq, fun hnode => ?_, h.carries.congr fun p hp => hobj p.1 ?_⟩
  · rename_i b full
    obtain ⟨v, next, hb, hfull, haim⟩ := h.node hnode
    refine ⟨v, next, (hobj b ?_).trans hb, hfull, haim⟩
    rw [h.loose_eq, hnode]
    simp
  · exact List.mem_append_right _ (mem_unpack.2 ⟨p, hp, .inl rfl⟩)

theorem Fits.forget (h : γ.Fits m loose carried) :
    ({ γ with entry := γ.entry.map fun p => (p.1, none), aim := none } : Grip).Fits m loose
      carried := by
  refine ⟨h.loose_eq, fun hnode => ?_, ?_⟩
  · obtain ⟨v, next, hb, hfull, -⟩ := h.node hnode
    exact ⟨v, next, hb, hfull, nofun⟩
  · have hc := h.carries
    unfold Carries at hc ⊢
    cases he : γ.entry with
    | none => simpa [he] using hc
    | some p =>
      rw [he] at hc
      obtain ⟨n, next, tail, hcarried, hentry, -, -, hrest⟩ := hc
      exact ⟨n, next, tail, hcarried, hentry, nofun, nofun, hrest⟩

theorem fits_empty (m : Memory α) : ({} : Grip).Fits m none [] := ⟨rfl, nofun, rfl⟩

end Grip

/-! ## Layouts -/

/-- What every place keeps. -/
structure Layout (α : Type) where
  linked : StackIndex → List (Block × α)
  waiting : StackIndex → List (Block × Block)
  loose : Nat → Option Block
  carried : Nat → List (Block × Block)

namespace Layout

def nodes (G : Layout α) : Keeper → List Block
  | .top s => (G.linked s).map Prod.fst
  | .limbo _ => []
  | .thread t => (G.loose t).toList

def entries (G : Layout α) : Keeper → List (Block × Block)
  | .top _ => []
  | .limbo s => G.waiting s
  | .thread t => G.carried t

def blocks (G : Layout α) (k : Keeper) : List Block := G.nodes k ++ unpack (G.entries k)

theorem mem_blocks_of_entry {G : Layout α} {k : Keeper} {p : Block × Block} (hp : p ∈ G.entries k) :
    p.1 ∈ G.blocks k ∧ p.2 ∈ G.blocks k :=
  ⟨List.mem_append_right _ (mem_unpack.2 ⟨p, hp, .inl rfl⟩),
    List.mem_append_right _ (mem_unpack.2 ⟨p, hp, .inr rfl⟩)⟩

end Layout

/-- The layout fits the memory and what the threads have in hand, and covers the heap. -/
structure Custody (m : Memory α) (grip : Nat → Grip) (G : Layout α) : Prop where
  linked : ∀ s, Chain m.node? (m.load (.top s)) (G.linked s)
  waiting : ∀ s, Chain m.wrapped? (m.load (.limbo s)) (G.waiting s)
  hands : ∀ t, (grip t).Fits m (G.loose t) (G.carried t)
  spent : ∀ {k p}, p ∈ G.entries k → ∃ next, m.object? p.2 = some (.node none next)
  partition : Partition (fun b => (m.heap[b]?).isSome) G.blocks

namespace Layout

/-! ## How layouts change -/

def link (G : Layout α) (t : Nat) (s : StackIndex) (b : Block) (v : α) : Layout α :=
  { G with
    linked := Function.update G.linked s ((b, v) :: G.linked s)
    loose := Function.update G.loose t none }

def unlink (G : Layout α) (t : Nat) (s : StackIndex) (b : Block) (rest : List (Block × α)) :
    Layout α :=
  { G with
    linked := Function.update G.linked s rest
    loose := Function.update G.loose t (some b) }

def shelve (G : Layout α) (t : Nat) (s : StackIndex) (p : Block × Block)
    (rest : List (Block × Block)) : Layout α :=
  { G with
    waiting := Function.update G.waiting s (p :: G.waiting s)
    carried := Function.update G.carried t rest }

def detach (G : Layout α) (t : Nat) (s : StackIndex) : Layout α :=
  { G with
    waiting := Function.update G.waiting s []
    carried := Function.update G.carried t (G.waiting s) }

def hold (G : Layout α) (t : Nat) (loose : Option Block) (carried : List (Block × Block)) :
    Layout α :=
  { G with
    loose := Function.update G.loose t loose
    carried := Function.update G.carried t carried }

variable {G : Layout α} {t : Nat} {s : StackIndex} {k : Keeper} {p : Block × Block}

theorem mem_entries_shelve {q : Block × Block} {rest : List (Block × Block)}
    (hp : p ∈ (G.shelve t s q rest).entries k) : p = q ∨ p ∈ rest ∨ p ∈ G.entries k := by
  cases k with
  | top s' => exact .inr (.inr hp)
  | limbo s' =>
    simp only [entries, shelve, Function.update_apply] at hp
    split at hp
    · rename_i hs
      subst hs
      exact (List.mem_cons.1 hp).imp_right .inr
    · exact .inr (.inr hp)
  | thread u =>
    simp only [entries, shelve, Function.update_apply] at hp
    split at hp
    · exact .inr (.inl hp)
    · exact .inr (.inr hp)

theorem mem_entries_detach (hp : p ∈ (G.detach t s).entries k) :
    p ∈ G.waiting s ∨ p ∈ G.entries k := by
  cases k with
  | top s' => exact .inr hp
  | limbo s' =>
    simp only [entries, detach, Function.update_apply] at hp
    split at hp
    · cases hp
    · exact .inr hp
  | thread u =>
    simp only [entries, detach, Function.update_apply] at hp
    split at hp
    · exact .inl hp
    · exact .inr hp

theorem mem_entries_hold {loose : Option Block} {carried : List (Block × Block)}
    (hp : p ∈ (G.hold t loose carried).entries k) : p ∈ carried ∨ p ∈ G.entries k := by
  cases k with
  | thread u =>
    simp only [entries, hold, Function.update_apply] at hp
    split at hp
    · exact .inl hp
    · exact .inr hp
  | _ s => exact .inr hp

end Layout

namespace Custody

variable {m m' : Memory α} {grip : Nat → Grip} {G : Layout α} {t : Nat} {γ : Grip}

theorem isSome_of_mem (h : Custody m grip G) {k : Keeper} {b : Block} (hb : b ∈ G.blocks k) :
    (m.heap[b]?).isSome :=
  (h.partition.cover b).2 ⟨k, hb⟩

theorem length_blocks_le (h : Custody m grip G) (k : Keeper) :
    (G.blocks k).length ≤ m.heap.size := by
  rw [← Std.HashMap.length_keys]
  refine (List.subperm_of_subset (h.partition.nodup k) fun b hb => ?_).length_le
  exact Std.HashMap.mem_keys.2 (Std.HashMap.mem_iff_isSome_getElem?.2 (h.isSome_of_mem hb))

theorem length_linked_le (h : Custody m grip G) (s : StackIndex) :
    (G.linked s).length ≤ m.heap.size := by
  have hlen := h.length_blocks_le (.top s)
  simpa only [Layout.blocks, Layout.nodes, Layout.entries, unpack_nil, List.append_nil,
    List.length_map] using hlen

theorem carries (h : Custody m grip G) (hγ : grip t = γ) : γ.Carries m (G.carried t) :=
  hγ ▸ (h.hands t).carries

theorem loose_eq (h : Custody m grip G) (hγ : grip t = γ) : G.loose t = γ.node.map Prod.fst :=
  hγ ▸ (h.hands t).loose_eq

theorem node (h : Custody m grip G) (hγ : grip t = γ) {b : Block} {full : Bool}
    (hnode : γ.node = some (b, full)) : ∃ v next, m.object? b = some (.node v next) ∧
      v.isSome = full ∧ ∀ x, γ.aim = some x → next = x := by
  subst hγ
  exact (h.hands t).node hnode

theorem keep (h : Custody m grip G) (hheap : m'.heap = m.heap) (hload : ∀ w, m'.load w = m.load w)
    (hfits : γ.Fits m (G.loose t) (G.carried t)) : Custody m' (Function.update grip t γ) G := by
  have hobj : m'.object? = m.object? := Memory.object?_of_heap hheap
  refine ⟨fun s => ?_, fun s => ?_, fun u => ?_, fun hp => ?_, ?_⟩
  · rw [Memory.node?_of_heap hheap, hload]
    exact h.linked s
  · rw [Memory.wrapped?_of_heap hheap, hload]
    exact h.waiting s
  · rw [Function.update_apply]
    split
    · rename_i hu
      subst hu
      exact hfits.congr fun b _ => by rw [hobj]
    · exact (h.hands u).congr fun b _ => by rw [hobj]
  · rw [hobj]
    exact h.spent hp
  · rw [hheap]
    exact h.partition

theorem link (h : Custody m grip G) {s : StackIndex} {b : Block} (hs : s < m.words.length)
    (hγ : grip t = { node := some (b, true), aim := some (m.load (.top s)) }) :
    ∃ v, m.node? b = some (v, m.load (.top s)) ∧
      Custody (m.store (.top s) (some b)) (Function.update grip t {}) (G.link t s b v) := by
  obtain ⟨v, next, hb, hfull, haim⟩ := h.node hγ rfl
  obtain rfl := haim _ rfl
  obtain ⟨v, rfl⟩ := Option.isSome_iff_exists.1 hfull
  have hload := m.load_store (w := .top s) hs (some b)
  have hheap := Memory.heap_store m (.top s) (some b)
  have hnode : m.node? b = some (v, m.load (.top s)) := Memory.node?_eq_some.2 hb
  refine ⟨v, hnode, fun s' => ?_, fun s' => ?_, fun u => ?_, fun {k p} hp => ?_, ?_⟩
  · rw [Memory.node?_of_heap hheap, hload]
    simp only [Layout.link, Function.update_apply, Anchor.top.injEq]
    split
    · exact Chain.cons hnode (h.linked s)
    · exact h.linked s'
  · rw [Memory.wrapped?_of_heap hheap, hload, if_neg (by simp)]
    exact h.waiting s'
  · simp only [Layout.link, Function.update_apply]
    split
    · rename_i hu
      subst hu
      exact ⟨rfl, nofun, (h.carries hγ).congr fun p _ => by rw [Memory.object?_of_heap hheap]⟩
    · exact (h.hands u).congr fun b _ => by rw [Memory.object?_of_heap hheap]
  · rw [Memory.object?_of_heap hheap]
    exact h.spent (k := k) (by cases k <;> exact hp)
  · rw [hheap]
    refine h.partition.exchange (.top s) (.thread t) (by simp) ?_ fun j hj hj' => ?_
    · simpa [Layout.blocks, Layout.nodes, Layout.entries, Layout.link, h.loose_eq hγ] using
        List.perm_middle.symm
    · cases j <;> simp_all [Layout.blocks, Layout.nodes, Layout.entries, Layout.link]

theorem unlink (h : Custody m grip G) {s : StackIndex} {b : Block} {next : Option Block}
    (hs : s < m.words.length) (hγ : grip t = {}) (htop : m.load (.top s) = some b)
    (hnext : ∀ v x, m.node? b = some (v, x) → next = x) :
    ∃ v rest, G.linked s = (b, v) :: rest ∧
      Custody (m.store (.top s) next) (Function.update grip t { node := some (b, true) })
        (G.unlink t s b rest) := by
  obtain ⟨v, x, rest, hlinked, hnode, hrest⟩ := (htop ▸ h.linked s).exists_cons
  obtain rfl := hnext v x hnode
  have hload := m.load_store (w := .top s) hs next
  have hheap := Memory.heap_store m (.top s) next
  have hcarried : G.carried t = [] := Chain.eq_nil (h.carries hγ)
  refine ⟨v, rest, hlinked, fun s' => ?_, fun s' => ?_, fun u => ?_, fun {k p} hp => ?_, ?_⟩
  · rw [Memory.node?_of_heap hheap, hload]
    simp only [Layout.unlink, Function.update_apply, Anchor.top.injEq]
    split
    · exact hrest
    · exact h.linked s'
  · rw [Memory.wrapped?_of_heap hheap, hload, if_neg (by simp)]
    exact h.waiting s'
  · simp only [Layout.unlink, Function.update_apply]
    split
    · rename_i hu
      subst hu
      refine ⟨rfl, fun hb => ?_, show Chain _ none _ from hcarried ▸ rfl⟩
      obtain ⟨rfl, rfl⟩ := Prod.mk.inj (Option.some.inj hb)
      rw [Memory.object?_of_heap hheap]
      exact ⟨some v, next, Memory.node?_eq_some.1 hnode, rfl, nofun⟩
    · exact (h.hands u).congr fun b _ => by rw [Memory.object?_of_heap hheap]
  · rw [Memory.object?_of_heap hheap]
    exact h.spent (k := k) (by cases k <;> exact hp)
  · rw [hheap]
    refine h.partition.exchange (.top s) (.thread t) (by simp) ?_ fun j hj hj' => ?_
    · simp [Layout.blocks, Layout.nodes, Layout.entries, Layout.unlink, h.loose_eq hγ, hlinked,
        hcarried]
    · cases j <;> simp_all [Layout.blocks, Layout.nodes, Layout.entries, Layout.unlink]

theorem shelve (h : Custody m grip G) {s : StackIndex} {e : Block} {known : Option Block}
    {rest : Option Block} (hs : s < m.words.length)
    (hγ : grip t = { entry := some (e, known), aim := some (m.load (.limbo s)), rest := rest }) :
    ∃ n tail, G.carried t = (e, n) :: tail ∧ Chain m.wrapped? rest tail ∧
      Custody (m.store (.limbo s) (some e)) (Function.update grip t { rest := rest })
        (G.shelve t s (e, n) tail) := by
  obtain ⟨n, next, tail, hcarried, hentry, -, haim, hrest⟩ := h.carries hγ
  obtain rfl := haim _ rfl
  have hload := m.load_store (w := .limbo s) hs (some e)
  have hheap := Memory.heap_store m (.limbo s) (some e)
  refine ⟨n, tail, hcarried, hrest, fun s' => ?_, fun s' => ?_, fun u => ?_, fun {k p} hp => ?_, ?_⟩
  · rw [Memory.node?_of_heap hheap, hload, if_neg (by simp)]
    exact h.linked s'
  · rw [Memory.wrapped?_of_heap hheap, hload]
    simp only [Layout.shelve, Function.update_apply, Anchor.limbo.injEq]
    split
    · exact Chain.cons (Memory.wrapped?_eq_some.2 hentry) (h.waiting s)
    · exact h.waiting s'
  · simp only [Layout.shelve, Function.update_apply]
    split
    · rename_i hu
      subst hu
      refine ⟨by rw [h.loose_eq hγ], nofun, ?_⟩
      exact Chain.congr (fun p _ => by rw [Memory.wrapped?_of_heap hheap]) hrest
    · exact (h.hands u).congr fun b _ => by rw [Memory.object?_of_heap hheap]
  · rw [Memory.object?_of_heap hheap]
    rcases Layout.mem_entries_shelve hp with rfl | hp | hp
    · exact h.spent (k := .thread t) (by simp [Layout.entries, hcarried])
    · exact h.spent (k := .thread t) (by simp [Layout.entries, hcarried, hp])
    · exact h.spent hp
  · rw [hheap]
    refine h.partition.exchange (.limbo s) (.thread t) (by simp) ?_ fun j hj hj' => ?_
    · refine List.perm_iff_count.2 fun b => ?_
      simp [Layout.blocks, Layout.nodes, Layout.entries, Layout.shelve, h.loose_eq hγ, hcarried,
        List.count_cons]
      omega
    · cases j <;> simp_all [Layout.blocks, Layout.nodes, Layout.entries, Layout.shelve]

theorem detach (h : Custody m grip G) {s : StackIndex} (hs : s < m.words.length)
    (hγ : grip t = {}) :
    Custody (m.store (.limbo s) none) (Function.update grip t { rest := m.load (.limbo s) })
      (G.detach t s) := by
  have hload := m.load_store (w := .limbo s) hs none
  have hheap := Memory.heap_store m (.limbo s) none
  have hcarried : G.carried t = [] := Chain.eq_nil (h.carries hγ)
  refine ⟨fun s' => ?_, fun s' => ?_, fun u => ?_, fun {k p} hp => ?_, ?_⟩
  · rw [Memory.node?_of_heap hheap, hload, if_neg (by simp)]
    exact h.linked s'
  · rw [Memory.wrapped?_of_heap hheap, hload]
    simp only [Layout.detach, Function.update_apply, Anchor.limbo.injEq]
    split
    · rfl
    · exact h.waiting s'
  · simp only [Layout.detach, Function.update_apply]
    split
    · rename_i hu
      subst hu
      refine ⟨by rw [h.loose_eq hγ], nofun, ?_⟩
      exact Chain.congr (fun p _ => by rw [Memory.wrapped?_of_heap hheap]) (h.waiting s)
    · exact (h.hands u).congr fun b _ => by rw [Memory.object?_of_heap hheap]
  · rw [Memory.object?_of_heap hheap]
    exact (Layout.mem_entries_detach hp).elim (h.spent (k := .limbo s)) h.spent
  · rw [hheap]
    refine h.partition.exchange (.limbo s) (.thread t) (by simp) ?_ fun j hj hj' => ?_
    · simp [Layout.blocks, Layout.nodes, Layout.entries, Layout.detach, h.loose_eq hγ, hcarried]
    · cases j <;> simp_all [Layout.blocks, Layout.nodes, Layout.entries, Layout.detach]

theorem notMem_of_thread (h : Custody m grip G) {b : Block} (hb : b ∈ G.blocks (.thread t))
    {k : Keeper} (hk : k ≠ .thread t) : b ∉ G.blocks k :=
  fun hb' => hk (h.partition.unique hb' hb)

theorem ne_of_loose (h : Custody m grip G) {b : Block} (hb : G.loose t = some b) {k : Keeper}
    {p : Block × Block} (hp : p ∈ G.entries k) : p.1 ≠ b ∧ p.2 ≠ b := by
  have hmem : b ∈ G.nodes (.thread t) := by simp [Layout.nodes, hb]
  have hne : b ∉ unpack (G.entries k) := fun hbk => by
    obtain rfl : k = .thread t :=
      h.partition.unique (List.mem_append_right _ hbk) (List.mem_append_left _ hmem)
    exact (List.nodup_append'.1 (h.partition.nodup (.thread t))).2.2 hmem hbk
  exact ⟨fun hpb => hne (mem_unpack.2 ⟨p, hp, .inl hpb.symm⟩),
    fun hpb => hne (mem_unpack.2 ⟨p, hp, .inr hpb.symm⟩)⟩

theorem ne_of_entry (h : Custody m grip G) {e n : Block} {next : Option Block}
    (he : m.object? e = some (.entry n next)) {k : Keeper} {p : Block × Block}
    (hp : p ∈ G.entries k) : p.2 ≠ e := by
  rintro rfl
  obtain ⟨x, hx⟩ := h.spent hp
  simp [he] at hx

theorem overwrite (h : Custody m grip G) {x : Block} {o : Object α}
    (hx : x ∈ G.blocks (.thread t)) (hwrapped : ∀ k p, p ∈ G.entries k → p.2 ≠ x)
    (hfits : γ.Fits (m.overwrite x o) (G.loose t) (G.carried t)) :
    Custody (m.overwrite x o) (Function.update grip t γ) G := by
  have hobj : ∀ b, b ≠ x → (m.overwrite x o).object? b = m.object? b := fun b hb => by
    rw [Memory.object?_overwrite, if_neg (Ne.symm hb)]
  have hother : ∀ {k b}, k ≠ .thread t → b ∈ G.blocks k → b ≠ x := by
    rintro k b hk hb rfl
    exact h.notMem_of_thread hx hk hb
  refine ⟨fun s => ?_, fun s => ?_, fun u => ?_, fun {k p} hp => ?_, ?_⟩
  · rw [Memory.load_overwrite]
    refine (h.linked s).congr fun p hp => Memory.node?_congr (hobj _ ?_)
    exact hother (k := .top s) nofun (List.mem_append_left _ (List.mem_map_of_mem hp))
  · rw [Memory.load_overwrite]
    refine (h.waiting s).congr fun p hp => Memory.wrapped?_congr (hobj _ ?_)
    exact hother (k := .limbo s) nofun (Layout.mem_blocks_of_entry (k := .limbo s) hp).1
  · rw [Function.update_apply]
    split
    · rename_i hu
      exact hu ▸ hfits
    · rename_i hu
      refine (h.hands u).congr fun b hb => hobj b ?_
      exact hother (k := .thread u) (by simpa using hu) hb
  · rw [hobj _ (hwrapped k p hp)]
    exact h.spent hp
  · exact h.partition.congr fun b => by rw [Memory.isSome_heap_overwrite]

theorem free (h : Custody m grip G) {x : Block} {loose : Option Block}
    {carried : List (Block × Block)}
    (hp : (G.blocks (.thread t)).Perm (x :: (loose.toList ++ unpack carried)))
    (hcarried : ∀ p ∈ carried, p ∈ G.carried t) (hfits : γ.Fits m loose carried) :
    Custody (m.free x) (Function.update grip t γ) (G.hold t loose carried) := by
  have hobj : ∀ b, b ≠ x → (m.free x).object? b = m.object? b := fun b hb => by
    rw [Memory.object?_free, if_neg (Ne.symm hb)]
  have hpart : Partition (fun b => b ≠ x ∧ (m.heap[b]?).isSome)
      (G.hold t loose carried).blocks := by
    refine h.partition.shrink (.thread t) ?_ fun j hj => ?_
    · simpa [Layout.blocks, Layout.nodes, Layout.entries, Layout.hold] using hp
    · cases j <;> simp_all [Layout.blocks, Layout.nodes, Layout.entries, Layout.hold]
  have hne : ∀ {k b}, b ∈ (G.hold t loose carried).blocks k → b ≠ x := fun hb =>
    ((hpart.cover _).2 ⟨_, hb⟩).1
  refine ⟨fun s => ?_, fun s => ?_, fun u => ?_, fun {k p} hp => ?_, ?_⟩
  · rw [Memory.load_free]
    refine (h.linked s).congr fun p hp => Memory.node?_congr (hobj _ ?_)
    exact hne (k := .top s) (List.mem_append_left _ (List.mem_map_of_mem hp))
  · rw [Memory.load_free]
    refine (h.waiting s).congr fun p hp => Memory.wrapped?_congr (hobj _ ?_)
    exact hne (k := .limbo s) (Layout.mem_blocks_of_entry (k := .limbo s) hp).1
  · have hb : ∀ b ∈ ((G.hold t loose carried).loose u).toList ++
        unpack ((G.hold t loose carried).carried u), b ≠ x := fun b hb => hne (k := .thread u) hb
    simp only [Layout.hold, Function.update_apply] at hb ⊢
    split
    · rename_i hu
      rw [if_pos hu, if_pos hu] at hb
      exact hfits.congr fun b hbb => hobj b (hb b hbb)
    · rename_i hu
      rw [if_neg hu, if_neg hu] at hb
      exact (h.hands u).congr fun b hbb => hobj b (hb b hbb)
  · rw [hobj _ (hne (Layout.mem_blocks_of_entry hp).2)]
    rcases Layout.mem_entries_hold hp with hp | hp
    · exact h.spent (k := .thread t) (hcarried p hp)
    · exact h.spent hp
  · refine hpart.congr fun b => ?_
    simp only [Memory.free, Std.HashMap.getElem?_erase, beq_iff_eq]
    by_cases hb : x = b
    · simp [hb]
    · simp [hb, Ne.symm hb]

theorem allocate (h : Custody m grip G) {x : Block} {o : Object α} {loose : Option Block}
    {carried : List (Block × Block)} (hx : m.heap[x]? = none)
    (hp : (loose.toList ++ unpack carried).Perm (x :: G.blocks (.thread t)))
    (hcarried : ∀ p ∈ carried, p ∈ G.carried t ∨ ∃ next, m.object? p.2 = some (.node none next))
    (hfits : γ.Fits (m.allocate x o) loose carried) :
    Custody (m.allocate x o) (Function.update grip t γ) (G.hold t loose carried) := by
  have hobj : ∀ b, b ≠ x → (m.allocate x o).object? b = m.object? b := fun b hb => by
    rw [Memory.object?_allocate, if_neg (Ne.symm hb)]
  have hne : ∀ {k b}, b ∈ G.blocks k → b ≠ x := by
    rintro k b hb rfl
    simpa [hx] using h.isSome_of_mem hb
  have hspent : ∀ {b next}, m.object? b = some (.node none next) → b ≠ x := by
    rintro b next hb rfl
    simp [Memory.object?, hx] at hb
  refine ⟨fun s => ?_, fun s => ?_, fun u => ?_, fun {k p} hp => ?_, ?_⟩
  · rw [Memory.load_allocate]
    refine (h.linked s).congr fun p hp => Memory.node?_congr (hobj _ ?_)
    exact hne (k := .top s) (List.mem_append_left _ (List.mem_map_of_mem hp))
  · rw [Memory.load_allocate]
    refine (h.waiting s).congr fun p hp => Memory.wrapped?_congr (hobj _ ?_)
    exact hne (k := .limbo s) (Layout.mem_blocks_of_entry (k := .limbo s) hp).1
  · simp only [Layout.hold, Function.update_apply]
    split
    · exact hfits
    · exact (h.hands u).congr fun b hb => hobj b (hne (k := .thread u) hb)
  · have hold : ∃ next, m.object? p.2 = some (.node none next) := by
      rcases Layout.mem_entries_hold hp with hp | hp
      · exact (hcarried p hp).elim (h.spent (k := .thread t)) id
      · exact h.spent hp
    obtain ⟨next, hb⟩ := hold
    exact ⟨next, (hobj _ (hspent hb)).trans hb⟩
  · have hpart : Partition (fun b => b = x ∨ (m.heap[b]?).isSome)
        (G.hold t loose carried).blocks := by
      refine h.partition.grow (.thread t) (by simp [hx]) ?_ fun j hj => ?_
      · simpa [Layout.blocks, Layout.nodes, Layout.entries, Layout.hold] using hp
      · cases j <;> simp_all [Layout.blocks, Layout.nodes, Layout.entries, Layout.hold]
    refine hpart.congr fun b => ?_
    simp only [Memory.allocate, Std.HashMap.getElem?_insert, beq_iff_eq]
    by_cases hb : x = b
    · simp [hb]
    · simp [hb, Ne.symm hb]

end Custody

end HazardLifo.Interleaved
