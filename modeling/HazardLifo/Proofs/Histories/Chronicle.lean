import HazardLifo.History
import Mathlib.Data.List.Induction

/-!
# Chronicles

What a run has done, operation by operation. `Op.after` is the state that a run leads to and
`Op.history` its chronicle; both grow at the end of the run (`after_concat`, `history_concat`),
which is how everything about runs is proved.
-/

namespace HazardLifo

variable {α : Type}

/-- Texts as values: a text is the message that its own destructor fails with. -/
instance : Disposable (Option String) := ⟨id⟩

/-- One operation of a run: the state that it met, and what it did. -/
structure Deed (α : Type) where
  before : State α
  op : Op α
  outcome : Outcome α (Answer α)

namespace Deed

def after (d : Deed α) : State α := d.outcome.state

def events (d : Deed α) : List (Event α) := d.outcome.events

def answer (d : Deed α) : Answer α := d.outcome.value

end Deed

namespace Op

variable [Disposable α]

def deed (op : Op α) (σ : State α) : Deed α := ⟨σ, op, op.run σ⟩

@[simp] theorem before_deed (op : Op α) (σ : State α) : (op.deed σ).before = σ := rfl

@[simp] theorem op_deed (op : Op α) (σ : State α) : (op.deed σ).op = op := rfl

@[simp] theorem after_deed (op : Op α) (σ : State α) : (op.deed σ).after = (op.run σ).state := rfl

@[simp] theorem events_deed (op : Op α) (σ : State α) : (op.deed σ).events = (op.run σ).events := rfl

@[simp] theorem answer_deed (op : Op α) (σ : State α) : (op.deed σ).answer = (op.run σ).value := rfl

def chronicle : List (Op α) → State α → List (Deed α)
  | [], _ => []
  | op :: rest, σ => op.deed σ :: chronicle rest (op.run σ).state

def after (ops : List (Op α)) : State α := (runAll ops .initial).state

def history (ops : List (Op α)) : List (Deed α) := chronicle ops .initial

theorem state_runAll_cons (op : Op α) (rest : List (Op α)) (σ : State α) :
    (runAll (op :: rest) σ).state = (runAll rest (op.run σ).state).state := rfl

theorem state_runAll_append (ops more : List (Op α)) (σ : State α) :
    (runAll (ops ++ more) σ).state = (runAll more (runAll ops σ).state).state := by
  induction ops generalizing σ with
  | nil => rfl
  | cons op rest ih => exact ih _

theorem chronicle_append (ops more : List (Op α)) (σ : State α) :
    chronicle (ops ++ more) σ = chronicle ops σ ++ chronicle more (runAll ops σ).state := by
  induction ops generalizing σ with
  | nil => rfl
  | cons op rest ih =>
    rw [List.cons_append, chronicle, chronicle, List.cons_append, ih]
    rfl

@[simp] theorem after_nil : after ([] : List (Op α)) = .initial := rfl

@[simp] theorem history_nil : history ([] : List (Op α)) = [] := rfl

theorem after_append (ops more : List (Op α)) :
    after (ops ++ more) = (runAll more (after ops)).state := state_runAll_append ..

theorem history_append (ops more : List (Op α)) :
    history (ops ++ more) = history ops ++ chronicle more (after ops) := chronicle_append ..

theorem after_concat (ops : List (Op α)) (op : Op α) :
    after (ops ++ [op]) = (op.run (after ops)).state := after_append ..

theorem history_concat (ops : List (Op α)) (op : Op α) :
    history (ops ++ [op]) = history ops ++ [op.deed (after ops)] := history_append ..

theorem exists_deed_of_mem_history {ops : List (Op α)} {d : Deed α} (hd : d ∈ history ops) :
    ∃ past op, past ++ [op] <+: ops ∧ d = op.deed (after past) := by
  induction ops using List.reverseRecOn with
  | nil => cases hd
  | append_singleton ops op ih =>
    rw [history_concat, List.mem_append, List.mem_singleton] at hd
    rcases hd with hd | rfl
    · obtain ⟨past, op', hpast, heq⟩ := ih hd
      exact ⟨past, op', hpast.trans (List.prefix_append ..), heq⟩
    · exact ⟨ops, op, List.prefix_refl _, rfl⟩

end Op

end HazardLifo
