import HazardLifo.Interleaved.Machine

/-!
# Moves

What one access of a thread can do, case by case: `Move` lists the ways in which `Agent.step`,
`Agent.receive` and `Agent.stumble` change the memory, and `Machine.Step` the ways in which an act
changes the machine. Every invariant of the machine is proved along these cases, and
`Machine.invariant_of_step` carries it through whole runs.
-/

namespace HazardLifo.Interleaved

variable {α : Type}

/-! ## The moves of a thread -/

def Pass.marks (p : Pass α) : List (Mark α) :=
  (if 0 < p.freed + p.deferred then [.swept p.stack p.freed p.deferred] else []) ++
    [.returned p.reply]

/-- Moves that leave the memory alone. The second control is where the thread goes. -/
inductive Quiet (m : Memory α) (token : Token) :
    Control α → Control α → List (Mark α) → Prop where
  | exhausted {i} (h : m.table.slots[i]? = none) :
      Quiet m token (.trying i) .idle
        [.exhausted token m.table.capacity, .returned (.exhausted m.table.capacity)]
  | taken {i slot} (h : m.table.slots[i]? = some slot) (ho : slot.owner.isSome) :
      Quiet m token (.trying i) (.trying (i + 1)) []
  | load {w b errand} : Quiet m token (.loading w b errand) (.linking w b (m.load w) errand) []
  | relink {w b seen errand} :
      Quiet m token (.swinging w b seen errand) (.linking w b (m.load w) errand) []
  | locate {s i} : Quiet m token (.locating s i) (.guarding s i (m.load (.top s))) []
  | empty {s i} (h : m.load (.top s) = none) :
      Quiet m token (.validating s i none) (.clearing s i none) []
  | validate {s i b} (h : m.load (.top s) = some b) :
      Quiet m token (.validating s i (some b)) (.following s i b) []
  | revise {s i seen} (h : m.load (.top s) ≠ seen) :
      Quiet m token (.validating s i seen) (.guarding s i (m.load (.top s))) []
  | follow {s i b v next} (h : m.object? b = some (.node v next)) :
      Quiet m token (.following s i b) (.unlinking s i b next) []
  | retry {s i b next} (h : m.load (.top s) ≠ some b) :
      Quiet m token (.unlinking s i b next) (.locating s i) []
  | clear {s b v i} (h : m.table.slots[i]? = none) :
      Quiet m token (.scanning s b v i) (.freeing s b v) []
  | found {s b v i slot} (h : m.table.slots[i]? = some slot) (hp : slot.published = .block b) :
      Quiet m token (.scanning s b v i) (.wrapping s b v) []
  | scan {s b v i slot} (h : m.table.slots[i]? = some slot) (hp : slot.published ≠ .block b) :
      Quiet m token (.scanning s b v i) (.scanning s b v (i + 1)) []
  | bare {pass} (h : m.load (.limbo pass.stack) = none) :
      Quiet m token (.peeking pass) .idle [.returned pass.reply]
  | peek {pass e} (h : m.load (.limbo pass.stack) = some e) :
      Quiet m token (.peeking pass) (.detaching pass) []
  | finish {pass} : Quiet m token (.walking pass none) (.settling pass) []
  | walk {pass e b rest} (h : m.object? e = some (.entry b rest)) :
      Quiet m token (.walking pass (some e)) (.opening pass e rest) []
  | openEntry {pass e rest b rest'} (h : m.object? e = some (.entry b rest')) :
      Quiet m token (.opening pass e rest) (.inspecting pass e rest b 0) []
  | pass {pass e rest b i} (h : m.table.slots[i]? = none) :
      Quiet m token (.inspecting pass e rest b i) (.unwrapping pass e rest b) []
  | keep {pass e rest b i slot} (h : m.table.slots[i]? = some slot)
      (hp : slot.published = .block b) :
      Quiet m token (.inspecting pass e rest b i)
        (.loading (.limbo pass.stack) e (.defer pass rest)) []
  | inspect {pass e rest b i slot} (h : m.table.slots[i]? = some slot)
      (hp : slot.published ≠ .block b) :
      Quiet m token (.inspecting pass e rest b i) (.inspecting pass e rest b (i + 1)) []

inductive Publishing (i : Nat) : Control α → Address → Control α → List (Mark α) → Prop where
  | withdraw : Publishing i (.withdrawing i) .null (.disowning i) []
  | publish {a} : Publishing i (.publishing i a) a .idle [.returned .done]
  | guard {s seen} : Publishing i (.guarding s i seen) (.ofLink seen) (.validating s i seen) []
  | giveUp {s} : Publishing i (.clearing s i none) .null .idle [.returned .empty]
  | clear {s b} : Publishing i (.clearing s i (some b)) .null (.taking s b) []

/-- Controls whose next access does not find what it expects. -/
inductive Lost (m : Memory α) : Control α → Prop where
  | linking {w b seen errand} (h : m.object? b = none) : Lost m (.linking w b seen errand)
  | following {s i b} (h : ∀ v next, m.object? b ≠ some (.node v next)) : Lost m (.following s i b)
  | taking {s b} (h : ∀ v next, m.object? b ≠ some (.node (some v) next)) : Lost m (.taking s b)
  | freeing {s b v} (h : ∀ v next, m.object? b ≠ some (.node v next)) : Lost m (.freeing s b v)
  | walking {pass e} (h : ∀ b rest, m.object? e ≠ some (.entry b rest)) :
      Lost m (.walking pass (some e))
  | opening {pass e rest} (h : ∀ b rest, m.object? e ≠ some (.entry b rest)) :
      Lost m (.opening pass e rest)
  | unwrapping {pass e rest b} (h : ∀ b rest, m.object? e ≠ some (.entry b rest)) :
      Lost m (.unwrapping pass e rest b)
  | burying {pass rest b} (h : ∀ v next, m.object? b ≠ some (.node v next)) :
      Lost m (.burying pass rest b)

/-- One access of a thread, its allocations and failed exchanges included. -/
inductive Move (m : Memory α) : Agent α → Advance α → Prop where
  | quiet {token held c c' marks} (h : Quiet m token c c' marks) :
      Move m ⟨token, held, c⟩ ⟨m, ⟨token, held, c'⟩, marks⟩
  | publish {token held i c a c' marks} (h : Publishing i c a c' marks) :
      Move m ⟨token, held, c⟩ ⟨m.mapTable (·.publish i a), ⟨token, held, c'⟩, marks⟩
  | claim {token held i slot} (h : m.table.slots[i]? = some slot) (ho : slot.owner = none) :
      Move m ⟨token, held, .trying i⟩
        ⟨m.mapTable (·.modify i ({ · with owner := some token })), ⟨token, i :: held, .idle⟩,
          [.claimed token i, .returned (.acquired i)]⟩
  | disown {token held i} :
      Move m ⟨token, held, .disowning i⟩
        ⟨m.mapTable (·.modify i ({ · with owner := none })), ⟨token, held.erase i, .idle⟩,
          [.released (m.table.owner i) i, .returned .done]⟩
  | push {token held w b seen} (h : m.load w = seen) :
      Move m ⟨token, held, .swinging w b seen .push⟩
        ⟨m.store w (some b), ⟨token, held, .idle⟩, [.returned .done]⟩
  | retire {token held w b seen s v} (h : m.load w = seen) :
      Move m ⟨token, held, .swinging w b seen (.retire s v)⟩
        ⟨m.store w (some b), ⟨token, held, .peeking { stack := s, result := some v }⟩, []⟩
  | defer {token held w b seen pass rest} (h : m.load w = seen) :
      Move m ⟨token, held, .swinging w b seen (.defer pass rest)⟩
        ⟨m.store w (some b),
          ⟨token, held, .walking { pass with deferred := pass.deferred + 1 } rest⟩, []⟩
  | unlink {token held s i b next} (h : m.load (.top s) = some b) :
      Move m ⟨token, held, .unlinking s i b next⟩
        ⟨m.store (.top s) next, ⟨token, held, .clearing s i (some b)⟩, []⟩
  | detach {token held pass} :
      Move m ⟨token, held, .detaching pass⟩
        ⟨m.store (.limbo pass.stack) none,
          ⟨token, held, .walking pass (m.load (.limbo pass.stack))⟩, []⟩
  | count {token held s b e v} :
      Move m ⟨token, held, .counting s b e v⟩
        ⟨m.mapGauge s (· + 1), ⟨token, held, .loading (.limbo s) e (.retire s v)⟩, [.retired s b]⟩
  | settle {token held pass} :
      Move m ⟨token, held, .settling pass⟩
        ⟨m.mapGauge pass.stack (· - UInt64.ofNat pass.freed), ⟨token, held, .idle⟩, pass.marks⟩
  | aimNode {token held w b seen errand v next} (h : m.object? b = some (.node v next)) :
      Move m ⟨token, held, .linking w b seen errand⟩
        ⟨m.overwrite b (.node v seen), ⟨token, held, .swinging w b seen errand⟩, []⟩
  | aimEntry {token held w b seen errand n next} (h : m.object? b = some (.entry n next)) :
      Move m ⟨token, held, .linking w b seen errand⟩
        ⟨m.overwrite b (.entry n seen), ⟨token, held, .swinging w b seen errand⟩, []⟩
  | take {token held s b v next} (h : m.object? b = some (.node (some v) next)) :
      Move m ⟨token, held, .taking s b⟩
        ⟨m.overwrite b (.node none next), ⟨token, held, .scanning s b v 0⟩, []⟩
  | free {token held s b v v' next} (h : m.object? b = some (.node v' next)) :
      Move m ⟨token, held, .freeing s b v⟩
        ⟨m.free b, ⟨token, held, .peeking { stack := s, result := some v }⟩, [.freed s b]⟩
  | unwrap {token held pass e rest b n next} (h : m.object? e = some (.entry n next)) :
      Move m ⟨token, held, .unwrapping pass e rest b⟩
        ⟨m.free e, ⟨token, held, .burying pass rest b⟩, []⟩
  | bury {token held pass rest b v next} (h : m.object? b = some (.node v next)) :
      Move m ⟨token, held, .burying pass rest b⟩
        ⟨m.free b, ⟨token, held, .walking { pass with freed := pass.freed + 1 } rest⟩,
          [.freed pass.stack b]⟩
  | make {token held s v b} (h : m.heap[b]? = none) :
      Move m ⟨token, held, .making s v⟩
        ⟨m.allocate b (.node (some v) none), ⟨token, held, .loading (.top s) b .push⟩, []⟩
  | wrap {token held s n v e} (h : m.heap[e]? = none) :
      Move m ⟨token, held, .wrapping s n v⟩
        ⟨m.allocate e (.entry n none), ⟨token, held, .counting s n e v⟩, []⟩
  | crash {token held c} (h : Lost m c) : Move m ⟨token, held, c⟩ ⟨m, ⟨token, held, .crashed⟩, []⟩

theorem Agent.step_move {g : Agent α} {m : Memory α} {a : Advance α} (h : g.step m = some a) :
    Move m g a := by
  obtain ⟨token, held, c⟩ := g
  cases c <;> simp only [Agent.step, Agent.goTo, Agent.relink, Option.some.injEq, reduceCtorEq] at h
  case trying i =>
    split at h
    · rename_i hs
      obtain rfl := Option.some.inj h
      exact .quiet (.exhausted hs)
    · rename_i slot hs
      split at h <;> obtain rfl := Option.some.inj h
      · exact .claim hs (by simpa using ‹slot.owner.isNone = true›)
      · rename_i ho
        exact .quiet (.taken hs (by simpa [Option.isSome_iff_ne_none] using ho))
  case withdrawing i => exact h ▸ .publish .withdraw
  case disowning i => exact h ▸ .disown
  case publishing i a => exact h ▸ .publish .publish
  case loading w b errand => exact h ▸ .quiet .load
  case linking w b seen errand =>
    split at h <;> obtain rfl := Option.some.inj h
    · exact .aimNode ‹_›
    · exact .aimEntry ‹_›
    · exact .crash (.linking ‹_›)
  case swinging w b seen errand =>
    split at h
    · rename_i hw
      cases errand <;> obtain rfl := Option.some.inj h
      · exact .push hw
      · exact .retire hw
      · exact .defer hw
    · exact Option.some.inj h ▸ .quiet .relink
  case locating s i => exact h ▸ .quiet .locate
  case guarding s i seen => exact h ▸ .publish .guard
  case validating s i seen =>
    split at h
    · rename_i hs
      cases seen <;> obtain rfl := Option.some.inj h
      · exact .quiet (.empty hs)
      · exact .quiet (.validate hs)
    · exact Option.some.inj h ▸ .quiet (.revise ‹_›)
  case following s i b =>
    split at h <;> obtain rfl := Option.some.inj h
    · exact .quiet (.follow ‹_›)
    · exact .crash (.following ‹_›)
  case unlinking s i b next =>
    split at h <;> obtain rfl := Option.some.inj h
    · exact .unlink ‹_›
    · exact .quiet (.retry ‹_›)
  case clearing s i won =>
    cases won <;> obtain rfl := Option.some.inj h
    · exact .publish .giveUp
    · exact .publish .clear
  case taking s b =>
    split at h <;> obtain rfl := Option.some.inj h
    · exact .take ‹_›
    · exact .crash (.taking ‹_›)
  case scanning s b v i =>
    split at h
    · exact Option.some.inj h ▸ .quiet (.clear ‹_›)
    · split at h <;> obtain rfl := Option.some.inj h
      · exact .quiet (.found ‹_› ‹_›)
      · exact .quiet (.scan ‹_› ‹_›)
  case freeing s b v =>
    split at h <;> obtain rfl := Option.some.inj h
    · exact .free ‹_›
    · exact .crash (.freeing ‹_›)
  case counting s b e v => exact h ▸ .count
  case peeking pass =>
    split at h <;> obtain rfl := Option.some.inj h
    · exact .quiet (.bare ‹_›)
    · exact .quiet (.peek ‹_›)
  case detaching pass => exact h ▸ .detach
  case walking pass e =>
    cases e with
    | none => exact Option.some.inj h ▸ .quiet .finish
    | some e =>
      simp only at h
      split at h <;> obtain rfl := Option.some.inj h
      · exact .quiet (.walk ‹_›)
      · exact .crash (.walking ‹_›)
  case opening pass e rest =>
    split at h <;> obtain rfl := Option.some.inj h
    · exact .quiet (.openEntry ‹_›)
    · exact .crash (.opening ‹_›)
  case inspecting pass e rest b i =>
    split at h
    · exact Option.some.inj h ▸ .quiet (.pass ‹_›)
    · split at h <;> obtain rfl := Option.some.inj h
      · exact .quiet (.keep ‹_› ‹_›)
      · exact .quiet (.inspect ‹_› ‹_›)
  case unwrapping pass e rest b =>
    split at h <;> obtain rfl := Option.some.inj h
    · exact .unwrap ‹_›
    · exact .crash (.unwrapping ‹_›)
  case burying pass rest b =>
    split at h <;> obtain rfl := Option.some.inj h
    · exact .bury ‹_›
    · exact .crash (.burying ‹_›)
  case settling pass => exact h ▸ .settle

theorem Agent.receive_move {g : Agent α} {m : Memory α} {b : Block} {a : Advance α}
    (h : g.receive m b = some a) : Move m g a := by
  obtain ⟨token, held, c⟩ := g
  unfold Agent.receive at h
  split at h
  · cases h
  · rename_i hb
    have hb : m.heap[b]? = none := by simpa using hb
    cases c <;> simp only [Agent.goTo, Option.some.injEq, reduceCtorEq] at h
    case making s v => exact h ▸ .make hb
    case wrapping s n v => exact h ▸ .wrap hb

theorem Agent.stumble_move {g : Agent α} {m : Memory α} {a : Advance α}
    (h : g.stumble m = some a) : Move m g a := by
  obtain ⟨token, held, c⟩ := g
  cases c <;>
    simp only [Agent.stumble, Agent.relink, Agent.goTo, Option.some.injEq, reduceCtorEq] at h
  case swinging w b seen errand => exact h ▸ .quiet .relink

/-! ## The steps of the machine -/

def Act.mover? : Act α → Option Nat
  | .step t | .receive t _ | .stumble t => some t
  | _ => none

namespace Machine

/-- One act: a thread begins an operation, or makes a move, or a handle changes hands. -/
inductive Step (M : Machine α) : Act α → Machine α → List (Mark α) → Prop where
  | call {t g command} (ht : M.agents[t]? = some g) (hc : g.control = .idle)
      (hslot : ∀ i, command.slot? = some i → i ∈ g.held)
      (hstack : ∀ s, command.stack? = some s → s < M.memory.words.length) :
      Step M (.call t command) ⟨M.memory, M.agents.set t (g.goTo command.entry)⟩ []
  | move {t g a act} (hact : act.mover? = some t) (ht : M.agents[t]? = some g)
      (h : Move M.memory g a) : Step M act ⟨a.memory, M.agents.set t a.agent⟩ a.marks
  | handOver {t u i g g'} (ht : M.agents[t]? = some g) (hu : M.agents[u]? = some g') (hne : t ≠ u)
      (hi : i ∈ g.held) (hc : g.control = .idle) (hc' : g'.control = .idle) :
      Step M (.handOver t u i)
        ⟨M.memory, (M.agents.set t { g with held := g.held.erase i }).set u
          { g' with held := i :: g'.held }⟩ []

theorem act?_step {M M' : Machine α} {act : Act α} {marks : List (Mark α)}
    (h : M.act? act = some (M', marks)) : Step M act M' marks := by
  cases act <;> simp only [act?, Option.bind_eq_bind, Option.pure_def] at h
  case call t command =>
    obtain ⟨g, ht, h⟩ := Option.bind_eq_some_iff.1 h
    obtain ⟨hadm, h⟩ := Option.ite_none_right_eq_some.1 h
    simp only [admits, Bool.and_eq_true] at hadm
    obtain ⟨⟨hc, hslot⟩, hstack⟩ := hadm
    obtain ⟨rfl, rfl⟩ := Prod.mk.inj (Option.some.inj h)
    refine .call ht ?_ ?_ ?_
    · cases hg : g.control <;> simp_all
    · intro i hi
      simpa [hi] using hslot
    · intro s hs
      simpa [hs] using hstack
  case step t =>
    obtain ⟨g, ht, h⟩ := Option.bind_eq_some_iff.1 h
    obtain ⟨a, ha, h⟩ := Option.bind_eq_some_iff.1 h
    obtain ⟨rfl, rfl⟩ := Prod.mk.inj (Option.some.inj h)
    exact .move rfl ht (Agent.step_move ha)
  case receive t b =>
    obtain ⟨g, ht, h⟩ := Option.bind_eq_some_iff.1 h
    obtain ⟨a, ha, h⟩ := Option.bind_eq_some_iff.1 h
    obtain ⟨rfl, rfl⟩ := Prod.mk.inj (Option.some.inj h)
    exact .move rfl ht (Agent.receive_move ha)
  case stumble t =>
    obtain ⟨g, ht, h⟩ := Option.bind_eq_some_iff.1 h
    obtain ⟨a, ha, h⟩ := Option.bind_eq_some_iff.1 h
    obtain ⟨rfl, rfl⟩ := Prod.mk.inj (Option.some.inj h)
    exact .move rfl ht (Agent.stumble_move ha)
  case handOver t u i =>
    obtain ⟨g, ht, h⟩ := Option.bind_eq_some_iff.1 h
    obtain ⟨g', hu, h⟩ := Option.bind_eq_some_iff.1 h
    obtain ⟨⟨hne, hi, hc, hc'⟩, h⟩ := Option.ite_none_right_eq_some.1 h
    obtain ⟨rfl, rfl⟩ := Prod.mk.inj (Option.some.inj h)
    refine .handOver ht hu hne hi ?_ ?_
    · cases hg : g.control <;> simp_all
    · cases hg : g'.control <;> simp_all

/-! ## Where the threads are -/

def control? (M : Machine α) (t : Nat) : Option (Control α) := M.agents[t]?.map (·.control)

theorem getElem?_agents_set {agents : List (Agent α)} {t : Nat} {g : Agent α}
    (ht : agents[t]? = some g) (g' : Agent α) (u : Nat) :
    (agents.set t g')[u]? = if u = t then some g' else agents[u]? := by
  have hlt : t < agents.length := (List.getElem?_eq_some_iff.1 ht).1
  rw [List.getElem?_set]
  by_cases hu : u = t
  · subst hu
    simp [hlt]
  · simp [hu, Ne.symm hu]

theorem control?_set {M : Machine α} {t : Nat} {g : Agent α} (ht : M.agents[t]? = some g)
    (m : Memory α) (g' : Agent α) (u : Nat) :
    (⟨m, M.agents.set t g'⟩ : Machine α).control? u =
      if u = t then some g'.control else M.control? u := by
  simp only [control?, getElem?_agents_set ht]
  split <;> rfl

theorem control?_eq_some {M : Machine α} {t : Nat} {c : Control α} :
    M.control? t = some c ↔ ∃ g, M.agents[t]? = some g ∧ g.control = c :=
  Option.map_eq_some_iff

theorem control?_eq {M : Machine α} {t : Nat} {g : Agent α} (ht : M.agents[t]? = some g) :
    M.control? t = some g.control :=
  control?_eq_some.2 ⟨g, ht, rfl⟩

theorem control?_set_self {M : Machine α} {t : Nat} {g : Agent α} (ht : M.agents[t]? = some g)
    (m : Memory α) (g' : Agent α) :
    (⟨m, M.agents.set t g'⟩ : Machine α).control? t = some g'.control := by
  rw [control?_set ht, if_pos rfl]

theorem control?_set_eq_some {M : Machine α} {t : Nat} {g : Agent α} (ht : M.agents[t]? = some g)
    {m : Memory α} {g' : Agent α} {u : Nat} {c : Control α} :
    (⟨m, M.agents.set t g'⟩ : Machine α).control? u = some c ↔
      u = t ∧ g'.control = c ∨ u ≠ t ∧ M.control? u = some c := by
  rw [control?_set ht]
  by_cases hu : u = t <;> simp [hu]

theorem control?_handOver {M : Machine α} {t u i : Nat} {g g' : Agent α}
    (ht : M.agents[t]? = some g) (hu : M.agents[u]? = some g') (v : Nat) :
    (⟨M.memory, (M.agents.set t { g with held := g.held.erase i }).set u
      { g' with held := i :: g'.held }⟩ : Machine α).control? v = M.control? v := by
  simp only [control?, List.getElem?_set, List.length_set]
  split
  · rename_i h
    subst h
    split <;> simp_all
  · split
    · rename_i h
      subst h
      split <;> simp_all
    · rfl

theorem Step.exists_move {M M' : Machine α} {act : Act α} {marks : List (Mark α)}
    (hs : Step M act M' marks) {t : Nat} (hact : act.mover? = some t) {g : Agent α}
    (hg : M.agents[t]? = some g) :
    ∃ a, Move M.memory g a ∧ M' = ⟨a.memory, M.agents.set t a.agent⟩ ∧ marks = a.marks := by
  cases hs with
  | call => cases hact
  | handOver => cases hact
  | @move u g' a act hmover hu hm =>
    obtain rfl : t = u := Option.some.inj (hact.symm.trans hmover)
    obtain rfl := Option.some.inj (hg.symm.trans hu)
    exact ⟨a, hm, rfl, rfl⟩

theorem Step.control?_eq {M M' : Machine α} {act : Act α} {marks : List (Mark α)}
    (hs : Step M act M' marks) {t : Nat} (hact : act.mover? ≠ some t)
    (hbusy : M.control? t ≠ some .idle) : M'.control? t = M.control? t := by
  cases hs with
  | call hu hidle hslot hstack =>
    rw [control?_set hu, if_neg]
    rintro rfl
    exact hbusy (control?_eq_some.2 ⟨_, hu, hidle⟩)
  | move hmover hu hm =>
    rw [control?_set hu, if_neg]
    rintro rfl
    exact hact hmover
  | handOver ht hu hne hi hc hc' => exact control?_handOver ht hu t

/-! ## Runs -/

theorem run?_cons_eq_some {M M' : Machine α} {act : Act α} {acts : List (Act α)} :
    M.run? (act :: acts) = some M' ↔
      ∃ M₁ marks, M.act? act = some (M₁, marks) ∧ M₁.run? acts = some M' := by
  simp only [run?, Option.bind_eq_bind, Option.bind_eq_some_iff, Prod.exists]

theorem run?_append {M : Machine α} {acts acts' : List (Act α)} :
    M.run? (acts ++ acts') = (M.run? acts).bind (·.run? acts') := by
  induction acts generalizing M with
  | nil => rfl
  | cons act acts ih =>
    simp only [List.cons_append, run?, Option.bind_eq_bind, Option.bind_assoc]
    congr 1
    funext p
    exact ih

theorem run?_concat_eq_some {M M' : Machine α} {acts : List (Act α)} {act : Act α} :
    M.run? (acts ++ [act]) = some M' ↔
      ∃ M₁ marks, M.run? acts = some M₁ ∧ M₁.act? act = some (M', marks) := by
  simp only [run?_append, run?, Option.bind_eq_bind, Option.bind_eq_some_iff, Prod.exists,
    Option.some.injEq]
  constructor
  · rintro ⟨M₁, hrun, M₂, marks, hact, rfl⟩
    exact ⟨M₁, marks, hrun, hact⟩
  · rintro ⟨M₁, marks, hrun, hact⟩
    exact ⟨M₁, hrun, M', marks, hact, rfl⟩

theorem run?_between {M M₁ M₂ : Machine α} {acts : List (Act α)} {p q : Nat} (hpq : p ≤ q)
    (hp : M.run? (acts.take p) = some M₁) (hq : M.run? (acts.take q) = some M₂) :
    M₁.run? ((acts.take q).drop p) = some M₂ := by
  rw [← List.take_append_drop p (acts.take q), List.take_take, Nat.min_eq_left hpq, run?_append,
    hp] at hq
  exact hq

theorem Reaches.trans {M M' M'' : Machine α} (h : M.Reaches M') (h' : M'.Reaches M'') :
    M.Reaches M'' := by
  obtain ⟨acts, h⟩ := h
  obtain ⟨acts', h'⟩ := h'
  exact ⟨acts ++ acts', by rw [run?_append, h, Option.bind_some, h']⟩

/-- What holds of a machine and is kept by every step holds after every run. -/
theorem invariant_of_step {P : Machine α → Prop}
    (hstep : ∀ {M act M' marks}, P M → Step M act M' marks → P M') {M M' : Machine α} (h0 : P M)
    (h : M.Reaches M') : P M' := by
  obtain ⟨acts, h⟩ := h
  induction acts generalizing M with
  | nil => exact Option.some.inj h ▸ h0
  | cons act acts ih =>
    obtain ⟨M₁, marks, hact, hrun⟩ := run?_cons_eq_some.1 h
    exact ih (hstep h0 (act?_step hact)) hrun

end Machine

end HazardLifo.Interleaved
