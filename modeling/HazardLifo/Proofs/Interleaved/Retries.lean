import HazardLifo.Proofs.Interleaved.Custody

/-!
# Rounds that fail

An operation goes through its loops until a head word is still what the thread has seen in it: a
push and a retirement until their exchange succeeds, a pop until it has published the node on top,
and again from the start until its exchange succeeds. A round fails only if the word has changed
since the thread saw it, and then the thread looks again. So between two failed rounds there is a
change for each, `Machine.retries_le`, and since a loop ends with the thread's own change, it is
another thread's. A change is the success of an operation (`Move.wins_of_load_ne`).
-/

namespace HazardLifo.Interleaved

variable {α : Type}

/-! ## Loops -/

namespace Control

/-- The head word that a loop goes by, and what the thread has seen in it. -/
def seen? : Control α → Option (Anchor × Option Block)
  | .linking w _ seen _ | .swinging w _ seen _ => some (w, seen)
  | .guarding s _ seen | .validating s _ seen => some (.top s, seen)
  | .following s _ b | .unlinking s _ b _ => some (.top s, some b)
  | _ => none

/-- The next access compares the head word with what the thread has seen in it. If they differ, the
round has failed. -/
def compares : Control α → Bool
  | .swinging .. | .validating .. | .unlinking .. => true
  | _ => false

def resumes : Control α → Bool
  | .linking .. | .guarding .. | .locating .. => true
  | _ => false

/-- The head word that has changed since the thread saw it. -/
def outdated? (m : Memory α) (c : Control α) : Option Anchor :=
  c.seen?.bind fun p => if m.load p.1 = p.2 then none else some p.1

/-- The next access changes head word `w`: it links a block, unlinks a node, or detaches a list. -/
inductive Wins (m : Memory α) : Anchor → Control α → Prop where
  | link {w b seen errand} (h : m.load w = seen) : Wins m w (.swinging w b seen errand)
  | unlink {s i b next} (h : m.load (.top s) = some b) : Wins m (.top s) (.unlinking s i b next)
  | detach {pass} : Wins m (.limbo pass.stack) (.detaching pass)

variable {m m' : Memory α} {c : Control α} {w : Anchor}

theorem outdated?_eq_some :
    c.outdated? m = some w ↔ ∃ seen, c.seen? = some (w, seen) ∧ m.load w ≠ seen := by
  simp only [outdated?, Option.bind_eq_some_iff, Option.ite_none_left_eq_some, Option.some.injEq,
    Prod.exists]
  constructor
  · rintro ⟨w', seen, hseen, hne, rfl⟩
    exact ⟨seen, hseen, hne⟩
  · rintro ⟨seen, hseen, hne⟩
    exact ⟨w, seen, hseen, hne, rfl⟩

theorem outdated?_eq_none (h : c.seen? = none) : c.outdated? m = none := by
  simp only [outdated?, h, Option.bind_none]

theorem isSome_outdated? {seen : Option Block} (h : c.seen? = some (w, seen)) :
    (c.outdated? m).isSome = decide (m.load w ≠ seen) := by
  simp only [outdated?, h, Option.bind_some]
  split <;> simp [*]

theorem outdated?_of_load (h : c.outdated? m' = some w) :
    c.outdated? m = some w ∨ m'.load w ≠ m.load w := by
  obtain ⟨seen, hseen, hne⟩ := outdated?_eq_some.1 h
  by_cases hload : m.load w = seen
  · exact .inr (hload ▸ hne)
  · exact .inl (outdated?_eq_some.2 ⟨seen, hseen, hload⟩)

theorem seen?_entry (command : Command α) : command.entry.seen? = none := by
  cases command <;> rfl

end Control

variable {m : Memory α} {g : Agent α} {a : Advance α}

theorem Move.outdated?_cases (hm : Move m g a) :
    a.agent.control.outdated? a.memory = none ∨ g.control.compares = false ∧
      a.agent.control.outdated? a.memory = g.control.outdated? m := by
  cases hm with
  | quiet hq =>
    cases hq with
    | load | relink | locate | revise => exact .inl (if_pos rfl)
    | validate htop => exact .inl (if_pos htop)
    | follow => exact .inr ⟨rfl, rfl⟩
    | _ => exact .inl rfl
  | publish hp =>
    cases hp with
    | guard =>
      exact .inr ⟨rfl, by simp only [Control.outdated?, Control.seen?, Memory.load_mapTable]⟩
    | _ => exact .inl rfl
  | aimNode | aimEntry =>
    exact .inr ⟨rfl, by simp only [Control.outdated?, Control.seen?, Memory.load_overwrite]⟩
  | _ => exact .inl rfl

/-- A comparison sends the thread back to the beginning of a round exactly if the head word has
changed since the thread saw it. -/
theorem Agent.resumes_of_compares (h : g.step m = some a) (hcompares : g.control.compares) :
    a.agent.control.resumes = (g.control.outdated? m).isSome := by
  have hsame : ∀ {w seen}, m.load w = seen → false = decide (m.load w ≠ seen) :=
    fun h => (decide_eq_false (not_not_intro h)).symm
  have hchanged : ∀ {w seen}, m.load w ≠ seen → true = decide (m.load w ≠ seen) :=
    fun h => (decide_eq_true h).symm
  obtain ⟨token, held, c⟩ := g
  cases c with
  | swinging w b seen errand =>
    rw [Control.isSome_outdated? rfl]
    simp only [Agent.step] at h
    split at h <;> obtain rfl := Option.some.inj h <;> rename_i hload
    · cases errand <;> exact hsame hload
    · exact hchanged hload
  | validating s i seen =>
    rw [Control.isSome_outdated? rfl]
    simp only [Agent.step] at h
    split at h <;> rename_i hload
    · cases seen <;> obtain rfl := Option.some.inj h <;> exact hsame hload
    · obtain rfl := Option.some.inj h
      exact hchanged hload
  | unlinking s i b next =>
    rw [Control.isSome_outdated? rfl]
    simp only [Agent.step] at h
    split at h <;> obtain rfl := Option.some.inj h <;> rename_i hload
    · exact hsame hload
    · exact hchanged hload
  | _ => cases hcompares

/-- A head word changes only where an operation succeeds. -/
theorem Move.wins_of_load_ne (hm : Move m g a) (hproper : g.control.Proper m.words.length)
    {w : Anchor} (hw : a.memory.load w ≠ m.load w) : g.control.Wins m w := by
  have hstore : ∀ {w' link}, w'.stack < m.words.length → (m.store w' link).load w ≠ m.load w →
      w = w' := by
    intro w' link hs hne
    by_contra hww
    exact hne ((m.load_store hs ..).trans (if_neg hww))
  cases hm with
  | push h | retire h | defer h =>
    obtain rfl := hstore (hproper.1 _ rfl) hw
    exact .link h
  | unlink h =>
    obtain rfl := hstore (hproper.1 _ rfl) hw
    exact .unlink h
  | detach =>
    obtain rfl := hstore (hproper.1 _ rfl) hw
    exact .detach
  | _ => exact absurd (by simp) hw

/-! ## Counting along a run -/

/-- An act of a run, with the machine before it and the machine after it. -/
structure Transition (α : Type) where
  before : Machine α
  act : Act α
  after : Machine α

namespace Machine

def transitions (M : Machine α) : List (Act α) → List (Transition α)
  | [] => []
  | act :: acts =>
    match M.act? act with
    | some (M', _) => ⟨M, act, M'⟩ :: M'.transitions acts
    | none => []

def outdated? (M : Machine α) (t : Nat) : Option Anchor :=
  (M.control? t).bind (·.outdated? M.memory)

end Machine

namespace Transition

/-- The head word that thread `t` finds changed at the end of a round. Exchanges that fail though
the word is what the thread has seen in it do not count. -/
def failed? (t : Nat) (x : Transition α) : Option Anchor :=
  if x.act.mover? = some t ∧ (x.before.control? t).any (·.compares) then x.before.outdated? t
  else none

/-- Another thread than `t` changes head word `w`. -/
def Disturbs (t : Nat) (w : Anchor) (x : Transition α) : Prop :=
  x.act.mover? ≠ some t ∧ x.after.memory.load w ≠ x.before.memory.load w

instance (t : Nat) (w : Anchor) (x : Transition α) : Decidable (x.Disturbs t w) :=
  inferInstanceAs (Decidable (_ ∧ _))

end Transition

namespace Machine

def retries (M : Machine α) (t : Nat) (w : Anchor) (acts : List (Act α)) : Nat :=
  (M.transitions acts).countP (·.failed? t = some w)

def disturbances (M : Machine α) (t : Nat) (w : Anchor) (acts : List (Act α)) : Nat :=
  (M.transitions acts).countP (·.Disturbs t w)

variable {M M' : Machine α} {act : Act α} {acts : List (Act α)} {marks : List (Mark α)} {t : Nat}
  {w : Anchor}

theorem transitions_cons (hact : M.act? act = some (M', marks)) (acts : List (Act α)) :
    M.transitions (act :: acts) = ⟨M, act, M'⟩ :: M'.transitions acts := by
  simp only [transitions, hact]

theorem transitions_append (hrun : M.run? acts = some M') (acts' : List (Act α)) :
    M.transitions (acts ++ acts') = M.transitions acts ++ M'.transitions acts' := by
  induction acts generalizing M with
  | nil =>
    obtain rfl := Option.some.inj hrun
    rfl
  | cons act acts ih =>
    obtain ⟨M₁, marks, hact, hrun⟩ := run?_cons_eq_some.1 hrun
    simp only [List.cons_append, transitions_cons hact, ih hrun]

theorem disturbances_cons (hact : M.act? act = some (M', marks)) (acts : List (Act α)) :
    M.disturbances t w (act :: acts) = M'.disturbances t w acts +
      if (⟨M, act, M'⟩ : Transition α).Disturbs t w then 1 else 0 := by
  simp only [disturbances, transitions_cons hact, List.countP_cons, decide_eq_true_eq]

theorem outdated?_eq {c : Control α} (h : M.control? t = some c) :
    M.outdated? t = c.outdated? M.memory := by
  simp only [outdated?, h, Option.bind_some]

theorem Step.outdated?_of_ne (hs : Step M act M' marks) (hact : act.mover? ≠ some t)
    (h : M'.outdated? t = some w) :
    M.outdated? t = some w ∨ M'.memory.load w ≠ M.memory.load w := by
  obtain ⟨c, hc, hout⟩ := Option.bind_eq_some_iff.1 h
  have hold : M.control? t = some c → M.outdated? t = some w ∨ M'.memory.load w ≠ M.memory.load w :=
    fun hc => outdated?_eq hc ▸ Control.outdated?_of_load hout
  cases hs with
  | @call u g command hu =>
    rcases (control?_set_eq_some hu).1 hc with ⟨-, rfl⟩ | ⟨-, hc⟩
    · rw [show (g.goTo command.entry).control = command.entry from rfl,
        Control.outdated?_eq_none (Control.seen?_entry command)] at hout
      cases hout
    · exact hold hc
  | move hmover hu =>
    rcases (control?_set_eq_some hu).1 hc with ⟨rfl, -⟩ | ⟨-, hc⟩
    · exact absurd hmover hact
    · exact hold hc
  | handOver hu hv => exact hold (control?_handOver hu hv t ▸ hc)

theorem Step.outdated?_of_mover (hs : Step M act M' marks) (hact : act.mover? = some t) :
    M'.outdated? t = none ∨
      (M.control? t).any (·.compares) = false ∧ M'.outdated? t = M.outdated? t := by
  cases hs with
  | call | handOver => cases hact
  | move hmover hu hm =>
    obtain rfl := Option.some.inj (hact.symm.trans hmover)
    rw [outdated?_eq (control?_set_self hu ..), outdated?_eq (Machine.control?_eq hu),
      Machine.control?_eq hu]
    exact hm.outdated?_cases

theorem Step.retry_le (hs : Step M act M' marks) (t : Nat) (w : Anchor) :
    (if (⟨M, act, M'⟩ : Transition α).failed? t = some w then 1 else 0) +
        (if M'.outdated? t = some w then 1 else 0) ≤
      (if (⟨M, act, M'⟩ : Transition α).Disturbs t w then 1 else 0) +
        (if M.outdated? t = some w then 1 else 0) := by
  by_cases hact : act.mover? = some t
  · have hretry : (⟨M, act, M'⟩ : Transition α).failed? t =
        if (M.control? t).any (·.compares) then M.outdated? t else none := by
      simp only [Transition.failed?, hact, true_and]
    rw [hretry]
    rcases hs.outdated?_of_mover hact with hnone | ⟨hcompares, hsame⟩
    · rw [hnone]
      split <;> simp
    · simp [hcompares, hsame]
  · have hretry : (⟨M, act, M'⟩ : Transition α).failed? t = none :=
      if_neg fun h => hact h.1
    rw [hretry]
    by_cases hnext : M'.outdated? t = some w
    · rcases hs.outdated?_of_ne hact hnext with hout | hload
      · simp [hnext, hout]
      · have hdisturbs : (⟨M, act, M'⟩ : Transition α).Disturbs t w := ⟨hact, hload⟩
        simp [hnext, hdisturbs]
    · simp [hnext]

/-- Along a run, failed rounds are paid for by changes of other threads, but for one if the word has
already changed since the thread saw it. -/
theorem retries_add_le (hrun : M.run? acts = some M') (t : Nat) (w : Anchor) :
    M.retries t w acts + (if M'.outdated? t = some w then 1 else 0) ≤
      M.disturbances t w acts + (if M.outdated? t = some w then 1 else 0) := by
  -- by induction on the acts: being outdated is a failed round that is still to come
  induction acts generalizing M with
  | nil =>
    obtain rfl := Option.some.inj hrun
    exact Nat.le_refl _
  | cons act acts ih =>
    obtain ⟨M₁, marks, hact, hrun⟩ := run?_cons_eq_some.1 hrun
    have hstep := (act?_step hact).retry_le t w
    have hrest := ih hrun
    simp only [retries, disturbances, transitions_cons hact, List.countP_cons,
      decide_eq_true_eq] at hrest ⊢
    omega

theorem retries_le {c : Control α} (hc : M.control? t = some c) (hseen : c.seen? = none)
    (hrun : M.run? acts = some M') (w : Anchor) :
    M.retries t w acts ≤ M.disturbances t w acts := by
  have hnone : M.outdated? t = none := (outdated?_eq hc).trans (Control.outdated?_eq_none hseen)
  have hle := retries_add_le hrun t w
  simp only [hnone, reduceCtorEq, if_false, Nat.add_zero] at hle
  exact Nat.le_trans (Nat.le_add_right ..) hle

end Machine

end HazardLifo.Interleaved
