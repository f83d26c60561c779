import HazardLifo.State

/-!
# Actions

A computation on the state that also lists the events it causes, in order. `bind` runs one action
after the other and joins their events.
-/

namespace HazardLifo

variable {α β γ : Type}

structure Outcome (α β : Type) where
  state : State α
  events : List (Event α)
  value : β

/-- A computation with values of type `β` over a state whose stacks hold values of type `α`. -/
def Action (α β : Type) : Type := State α → Outcome α β

namespace Action

def pure (b : β) : Action α β := fun σ => ⟨σ, [], b⟩

def bind (x : Action α β) (f : β → Action α γ) : Action α γ := fun σ =>
  let o := x σ
  let p := f o.value o.state
  ⟨p.state, o.events ++ p.events, p.value⟩

instance : Monad (Action α) where
  pure := pure
  bind := bind

def read (f : State α → β) : Action α β := fun σ => ⟨σ, [], f σ⟩

def modify (f : State α → State α) : Action α Unit := fun σ => ⟨f σ, [], ()⟩

def emitAll (events : List (Event α)) : Action α Unit := fun σ => ⟨σ, events, ()⟩

def emit (event : Event α) : Action α Unit := emitAll [event]

def notify (n : Notice) : Action α Unit := emit (.notice n)

@[simp] theorem pure_apply (b : β) (σ : State α) : (Pure.pure b : Action α β) σ = ⟨σ, [], b⟩ := rfl

theorem bind_apply (x : Action α β) (f : β → Action α γ) (σ : State α) :
    (x >>= f) σ =
      ⟨(f (x σ).value (x σ).state).state, (x σ).events ++ (f (x σ).value (x σ).state).events,
        (f (x σ).value (x σ).state).value⟩ := rfl

@[simp] theorem bind_state (x : Action α β) (f : β → Action α γ) (σ : State α) :
    ((x >>= f) σ).state = (f (x σ).value (x σ).state).state := rfl

@[simp] theorem bind_events (x : Action α β) (f : β → Action α γ) (σ : State α) :
    ((x >>= f) σ).events = (x σ).events ++ (f (x σ).value (x σ).state).events := rfl

@[simp] theorem bind_value (x : Action α β) (f : β → Action α γ) (σ : State α) :
    ((x >>= f) σ).value = (f (x σ).value (x σ).state).value := rfl

@[simp] theorem read_apply (f : State α → β) (σ : State α) : read f σ = ⟨σ, [], f σ⟩ := rfl

@[simp] theorem modify_apply (f : State α → State α) (σ : State α) :
    modify f σ = ⟨f σ, [], ()⟩ := rfl

@[simp] theorem emitAll_apply (events : List (Event α)) (σ : State α) :
    emitAll events σ = ⟨σ, events, ()⟩ := rfl

@[simp] theorem emit_apply (event : Event α) (σ : State α) : emit event σ = ⟨σ, [event], ()⟩ := rfl

@[simp] theorem notify_apply (n : Notice) (σ : State α) :
    notify n σ = ⟨σ, [.notice n], ()⟩ := rfl

@[simp] theorem discard_apply (x : Action α β) (σ : State α) :
    (discard x : Action α PUnit) σ = ⟨(x σ).state, (x σ).events, ()⟩ := by
  have h : (discard x : Action α PUnit) σ = ⟨(x σ).state, (x σ).events ++ [], ()⟩ := rfl
  rw [h, List.append_nil]

end Action

end HazardLifo
