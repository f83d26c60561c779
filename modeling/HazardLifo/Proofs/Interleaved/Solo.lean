import HazardLifo.Proofs.Interleaved.Chain
import HazardLifo.Proofs.Interleaved.Move

/-!
# Operations of a thread that runs alone

A thread that nobody disturbs gets through an operation at its first attempt. `run?_push` follows a
push to its end, `run?_acquire` a claim of the first slot, and `run?_pop` a pop up to the validation
of its candidate.
-/

namespace HazardLifo.Interleaved.Machine

variable {α : Type} {m : Memory α} {agents : List (Agent α)} {t : Nat} {g g' : Agent α}
  {acts : List (Act α)}

/-! ## One act -/

theorem getElem?_set_self (ht : t < agents.length) (g : Agent α) :
    (agents.set t g)[t]? = some g := by
  simp [ht]

theorem run?_call (ht : t < agents.length) (hc : g.control = .idle) {command : Command α}
    (hslot : command.slot?.all (g.held.contains ·))
    (hstack : command.stack?.all (· < m.words.length)) :
    (⟨m, agents.set t g⟩ : Machine α).run? (.call t command :: acts) =
      (⟨m, agents.set t (g.goTo command.entry)⟩ : Machine α).run? acts := by
  have hadm : (⟨m, agents.set t g⟩ : Machine α).admits g command = true := by
    simp only [admits, hc, hslot, hstack, Bool.and_self]
  simp only [run?, act?, Option.bind_eq_bind, getElem?_set_self ht, Option.bind_some, hadm, if_true,
    settle, List.set_set]

theorem act?_of_step (ht : t < agents.length) {a : Advance α} (h : g.step m = some a) :
    (⟨m, agents.set t g⟩ : Machine α).act? (.step t) =
      some (⟨a.memory, agents.set t a.agent⟩, a.marks) := by
  simp only [act?, Option.bind_eq_bind, Option.pure_def, getElem?_set_self ht, h,
    Option.bind_some, settle, List.set_set]

theorem run?_step (ht : t < agents.length) {a : Advance α} (h : g.step m = some a) :
    (⟨m, agents.set t g⟩ : Machine α).run? (.step t :: acts) =
      (⟨a.memory, agents.set t a.agent⟩ : Machine α).run? acts := by
  simp only [run?, act?_of_step ht h, Option.bind_eq_bind, Option.bind_some]

theorem run?_receive (ht : t < agents.length) {b : Block} {a : Advance α}
    (h : g.receive m b = some a) :
    (⟨m, agents.set t g⟩ : Machine α).run? (.receive t b :: acts) =
      (⟨a.memory, agents.set t a.agent⟩ : Machine α).run? acts := by
  simp only [run?, act?, Option.bind_eq_bind, Option.pure_def, getElem?_set_self ht, h,
    Option.bind_some, settle, List.set_set]

/-! ## Whole operations -/

/-- The acts of a push that gets block `b`. -/
def soloPush (t : Nat) (s : StackIndex) (v : α) (b : Block) : List (Act α) :=
  [.call t (.push s v), .receive t b, .step t, .step t, .step t]

/-- A push puts its node on top, above what was there. -/
theorem run?_push (ht : t < agents.length) (hc : g.control = .idle) {s : StackIndex}
    (hs : s < m.words.length) {b : Block} (hb : m.heap[b]? = none) (v : α) (acts : List (Act α)) :
    ∃ m', (⟨m, agents.set t g⟩ : Machine α).run? (soloPush t s v b ++ acts) =
        (⟨m', agents.set t g⟩ : Machine α).run? acts ∧
      m'.table = m.table ∧ m'.words.length = m.words.length ∧ m'.births = m.births + 1 ∧
      (∀ w, m'.load w = if w = .top s then some b else m.load w) ∧
      ∀ b', m'.heap[b']? =
        if b = b' then some ⟨m.births, .node (some v) (m.load (.top s))⟩ else m.heap[b']? := by
  obtain ⟨token, held, c⟩ := g
  obtain rfl : c = .idle := hc
  have hfree : m.heap.contains b = false := by
    rw [Std.HashMap.contains_eq_isSome_getElem?, hb]
    rfl
  let m₁ := m.allocate b (.node (some v) none)
  let m₂ := m₁.overwrite b (.node (some v) (m.load (.top s)))
  have hload₁ : m₁.load (.top s) = m.load (.top s) := Memory.load_allocate ..
  have hload₂ : m₂.load (.top s) = m.load (.top s) := (Memory.load_overwrite ..).trans hload₁
  have hobj : m₁.object? b = some (.node (some v) none) := by
    simp only [m₁, Memory.object?_allocate, if_true]
  refine ⟨m₂.store (.top s) (some b), ?_, ?_, ?_, ?_, fun w => ?_, fun b' => ?_⟩
  · simp only [soloPush, List.cons_append, List.nil_append]
    rw [run?_call ht rfl rfl (by simpa [Command.stack?] using hs),
      run?_receive ht (a := ⟨m₁, ⟨token, held, .loading (.top s) b .push⟩, []⟩) (by
        simp [Agent.receive, Agent.goTo, Command.entry, hfree, m₁]),
      run?_step ht (a := ⟨m₁, ⟨token, held, .linking (.top s) b (m.load (.top s)) .push⟩, []⟩) (by
        simp only [Agent.step, Agent.relink, Agent.goTo, hload₁]),
      run?_step ht (a := ⟨m₂, ⟨token, held, .swinging (.top s) b (m.load (.top s)) .push⟩, []⟩) (by
        simp only [Agent.step, Agent.goTo, hobj, m₂]),
      run?_step ht (a := ⟨m₂.store (.top s) (some b), ⟨token, held, .idle⟩, [.returned .done]⟩) (by
        simp only [Agent.step, Agent.linked, Agent.goTo, hload₂, if_true])]
  · simp [m₂, m₁, Memory.allocate]
  · simp [m₂, m₁, Memory.allocate]
  · simp only [Memory.births_store, m₂, Memory.overwrite]
    split <;> rfl
  · rw [Memory.load_store _ (by simpa [m₂, m₁, Memory.allocate, Anchor.stack] using hs)]
    simp only [m₂, m₁, Memory.load_overwrite, Memory.load_allocate]
  · simp only [Memory.heap_store, m₂, m₁, Memory.getElem?_heap_overwrite,
      Memory.getElem?_heap_allocate, if_true, Option.map_some]
    split <;> rfl

theorem run?_acquire (ht : t < agents.length) (hc : g.control = .idle)
    (hfree : (m.table.slots[0]?).map (·.owner) = some none) :
    (⟨m, agents.set t g⟩ : Machine α).run? (.call t .acquire :: .step t :: acts) =
      (⟨m.mapTable (·.modify 0 ({ · with owner := some g.token })),
        agents.set t { g with held := 0 :: g.held, control := .idle }⟩ : Machine α).run? acts := by
  obtain ⟨slot, hslot, hfree⟩ := Option.map_eq_some_iff.1 hfree
  rw [run?_call ht hc rfl rfl]
  refine run?_step ht (a := ⟨_, _, [.claimed g.token 0, .returned (.acquired 0)]⟩) ?_
  simp only [Agent.step, Agent.goTo, Command.entry, hslot, hfree, Option.isNone_none, if_true]
  rfl

theorem run?_pop (ht : t < agents.length) (hc : g.control = .idle) {s : StackIndex} {i : Nat}
    (hs : s < m.words.length) (hi : i ∈ g.held) :
    (⟨m, agents.set t g⟩ : Machine α).run? (.call t (.pop s i) :: .step t :: .step t :: acts) =
      (⟨m.mapTable (·.publish i (.ofLink (m.load (.top s)))),
        agents.set t (g.goTo (.validating s i (m.load (.top s))))⟩ : Machine α).run? acts := by
  rw [run?_call ht hc (by simpa [Command.slot?] using hi) (by simpa [Command.stack?] using hs),
    run?_step ht rfl, run?_step ht rfl]
  rfl

end HazardLifo.Interleaved.Machine
