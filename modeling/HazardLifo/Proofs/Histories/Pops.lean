import HazardLifo.Proofs.Histories.Leases
import HazardLifo.State.Lifetime

/-!
# Pops in closed form

The parts of a pop as functions of the stack and of what the slots of its table publish: what goes
into limbo, what a sweep frees, and the events of both.
-/

namespace HazardLifo

variable {α : Type}

namespace Limbo

/-- Takes in an unlinked node, unless it can be freed at once. -/
def intake (published : Block → Bool) (L : Limbo) (b : Block) : Limbo :=
  if published b then L.retire b else L

def sweepEvents (s : StackId) (published : Block → Bool) (L : Limbo) : List (Event α) :=
  if L.entries = [] then []
  else (L.sweep published).2.map (.freed s) ++
    [.notice (.swept s (L.sweep published).2.length (L.sweep published).1.entries.length)]

theorem sweep_of_nil {L : Limbo} (h : L.entries = []) (published : Block → Bool) :
    L.sweep published = (L, []) := by
  obtain ⟨entries, gauge⟩ := L
  obtain rfl := h
  simp [sweep_eq]

end Limbo

namespace State

variable {σ : State α} {s : StackId} {stack : Stack α}

def published (σ : State α) (T : TableId) (b : Block) : Bool := σ.publishes T (.block b)

theorem published_iff_slot {T : TableId} {b : Block} :
    σ.published T b = true ↔ ∃ i, (σ.slot? ⟨T, i⟩).map (·.published) = some (.block b) := by
  cases hT : σ.tables.get? T with
  | none => simp [published, publishes, slot?, hT]
  | some shared =>
    simp only [published, publishes, slot?, hT, Option.bind_some]
    refine SlotTable.publishes_eq_true_iff.trans ⟨?_, ?_⟩
    · rintro ⟨-, slot, hslot, hb⟩
      obtain ⟨i, hi⟩ := List.mem_iff_getElem?.1 hslot
      exact ⟨i, by rw [hi, Option.map_some, hb]⟩
    · rintro ⟨i, hi⟩
      obtain ⟨slot, hslot, hb⟩ := Option.map_eq_some_iff.1 hi
      exact ⟨Address.block_ne_null b, slot, List.mem_of_getElem? hslot, hb⟩

/-- A handle publishes nothing any more. -/
def silence (σ : State α) (h : Handle) : State α := σ.setSlots h.table (·.publish h.slot .null)

def setStack (σ : State α) (s : StackId) (stack : Stack α) : State α :=
  { σ with lifos := σ.lifos.modify s fun _ => stack }

theorem modify_eq_setStack (hs : σ.lifos.get? s = some stack) (f : Stack α → Stack α) :
    { σ with lifos := σ.lifos.modify s f } = σ.setStack s (f stack) := by
  rw [setStack, Registry.modify_congr fun a ha => ?_]
  obtain rfl := Option.some.inj (hs.symm.trans ha)
  rfl

theorem setStack_self (hs : σ.lifos.get? s = some stack) : σ.setStack s stack = σ := by
  rw [setStack, Registry.modify_eq_self fun a ha => ?_]
  exact Option.some.inj (hs.symm.trans ha)

theorem setStack_setStack (σ : State α) (s : StackId) (stack stack' : Stack α) :
    (σ.setStack s stack).setStack s stack' = σ.setStack s stack' := by
  simp only [setStack, Registry.modify_modify]

theorem get?_setStack (hs : σ.lifos.get? s = some stack) (stack' : Stack α) :
    (σ.setStack s stack').lifos.get? s = some stack' := by
  rw [setStack, Registry.get?_modify, if_pos rfl, hs, Option.map_some]

@[simp] theorem published_setStack (σ : State α) (s : StackId) (stack : Stack α) :
    (σ.setStack s stack).published = σ.published := rfl

theorem sweep_eq (hs : σ.lifos.get? s = some stack) :
    sweep s σ =
      ⟨σ.setStack s { stack with limbo := (stack.limbo.sweep (σ.published stack.table)).1 },
        stack.limbo.sweepEvents s (σ.published stack.table),
        (stack.limbo.sweep (σ.published stack.table)).2.length⟩ := by
  by_cases he : stack.limbo.entries = []
  · rw [Limbo.sweep_of_nil he, setStack_self hs]
    simp [sweep, Action.bind_apply, hs, he, Limbo.sweepEvents]
  · rw [← modify_eq_setStack hs fun st =>
      { st with limbo := (stack.limbo.sweep (σ.published stack.table)).1 }]
    simp [sweep, Action.bind_apply, hs, he, Limbo.sweepEvents]
    exact ⟨rfl, ⟨rfl, rfl, rfl⟩, rfl⟩

theorem relinquish_eq (hs : σ.lifos.get? s = some stack) (T : TableId) (b : Block) :
    relinquish s T b σ =
      ⟨σ.setStack s { stack with limbo := stack.limbo.intake (σ.published T) b },
        [if σ.published T b then .notice (.retired s b) else .freed s b], ()⟩ := by
  by_cases hb : σ.publishes T (.block b) = true
  · have hb' : σ.published T b = true := hb
    simp only [Limbo.intake, hb', if_true]
    rw [← modify_eq_setStack hs fun st => { st with limbo := st.limbo.retire b }]
    simp [relinquish, Action.bind_apply, hb]
  · have hb' : σ.published T b = false := Bool.not_eq_true _ |>.mp hb
    simp only [Limbo.intake, hb', Bool.false_eq_true, if_false]
    rw [setStack_self hs]
    simp [relinquish, Action.bind_apply, hb]

theorem popThrough_of_nil (hs : σ.lifos.get? s = some stack) (hn : stack.nodes = []) (h : Handle) :
    popThrough s h σ = ⟨σ.silence h, [], .error (.pop .empty)⟩ := by
  simp [popThrough, Action.bind_apply, hs, hn, silence]

/-- The stack after a pop of its top node, which lay in block `b`. -/
def afterPop (published : Block → Bool) (stack : Stack α) (b : Block) (rest : List (Node α)) :
    Stack α :=
  { stack with
    nodes := rest
    limbo := ((stack.limbo.intake published b).sweep published).1 }

def popEvents (s : StackId) (published : Block → Bool) (stack : Stack α) (b : Block) :
    List (Event α) :=
  (if published b then .notice (.retired s b) else .freed s b) ::
    (stack.limbo.intake published b).sweepEvents s published

theorem popThrough_of_cons (hs : σ.lifos.get? s = some stack) {node : Node α} {rest : List (Node α)}
    (hn : stack.nodes = node :: rest) (h : Handle) {pub : Block → Bool}
    (hpub : (σ.silence h).published stack.table = pub) :
    popThrough s h σ =
      ⟨(σ.silence h).setStack s (afterPop pub stack node.block rest),
        popEvents s pub stack node.block, .ok node.value⟩ := by
  subst hpub
  have hs₁ : (σ.silence h).lifos.get? s = some stack := hs
  let τ := (σ.silence h).setStack s { stack with nodes := rest }
  have hs₂ : τ.lifos.get? s = some { stack with nodes := rest } := get?_setStack hs₁ _
  have hrun : popThrough s h σ = ⟨(sweep s (relinquish s stack.table node.block τ).state).state,
      (relinquish s stack.table node.block τ).events ++
        (sweep s (relinquish s stack.table node.block τ).state).events, .ok node.value⟩ := by
    have hτ : τ = { σ.silence h with lifos := (σ.silence h).lifos.modify s ({ · with nodes := rest }) } :=
      (modify_eq_setStack hs₁ fun st => { st with nodes := rest }).symm
    rw [hτ]
    simp [popThrough, Action.bind_apply, Action.discard_apply, hs, hn, silence]
  rw [hrun, relinquish_eq hs₂, sweep_eq (get?_setStack hs₂ _)]
  simp only [τ, setStack_setStack, published_setStack, List.singleton_append]
  rfl

/-- How a pop can go: the stack that it leaves, the events of its nodes, and its result. -/
inductive Popping (s : StackId) (published : Block → Bool) (stack : Stack α) :
    Stack α → List (Event α) → Except Failure α → Prop
  | empty : stack.nodes = [] → Popping s published stack stack [] (.error (.pop .empty))
  | exhausted (capacity : Nat) :
    Popping s published stack stack [] (.error (.pop (.exhausted capacity)))
  | popped (node : Node α) (rest : List (Node α)) : stack.nodes = node :: rest →
    Popping s published stack (afterPop published stack node.block rest)
      (popEvents s published stack node.block) (.ok node.value)

theorem Popping.table {published : Block → Bool} {stack' : Stack α} {events : List (Event α)}
    {value : Except Failure α} (h : Popping s published stack stack' events value) :
    stack'.table = stack.table := by
  cases h <;> rfl

/-- By its result a pop is determined. -/
theorem Popping.unique {published : Block → Bool} {stack₁ stack₂ : Stack α}
    {events₁ events₂ : List (Event α)} {value : Except Failure α}
    (h₁ : Popping s published stack stack₁ events₁ value)
    (h₂ : Popping s published stack stack₂ events₂ value) : stack₁ = stack₂ ∧ events₁ = events₂ := by
  cases h₁ with
  | empty | exhausted =>
    cases h₂
    exact ⟨rfl, rfl⟩
  | popped node rest hn =>
    generalize hv : Except.ok node.value = value at h₂
    cases h₂ with
    | empty | exhausted => cases hv
    | popped node' rest' hn' =>
      obtain ⟨rfl, rfl⟩ := List.cons_eq_cons.1 (hn.symm.trans hn')
      exact ⟨rfl, rfl⟩

theorem popThrough_eq (hs : σ.lifos.get? s = some stack) (h : Handle) {pub : Block → Bool}
    (hpub : (σ.silence h).published stack.table = pub) :
    ∃ stack' events value, popThrough s h σ = ⟨(σ.silence h).setStack s stack', events, value⟩ ∧
      Popping s pub stack stack' events value := by
  cases hn : stack.nodes with
  | nil =>
    refine ⟨stack, _, _, ?_, .empty hn⟩
    rw [popThrough_of_nil hs hn, setStack_self]
    exact hs
  | cons node rest => exact ⟨_, _, _, popThrough_of_cons hs hn h hpub, .popped node rest hn⟩

end State

end HazardLifo
