import HazardLifo.Interleaved.Image
import HazardLifo.Proofs.Interleaved.Atomic
import HazardLifo.Proofs.Interleaved.Candidate
import Mathlib.Data.List.Induction
import Mathlib.Tactic.IntervalCases

/-!
# Stacks are linearizable

The content of a stack is what the links from its top word lead to. It changes only when the
exchange of a push or a pop succeeds, and as in a sequential stack (`Machine.Sound.evolves`); a pop
that answers "empty" has seen an empty top word. So the operations on a stack take effect at one
instant each (`Machine.Sound.atomic_of_run?`), whatever else goes on.
-/

namespace HazardLifo.Interleaved

variable {α : Type}

/-! ## Contents -/

namespace Memory

/-- The values of the nodes that the top word of stack `s` leads to, the topmost first. -/
def content (m : Memory α) (s : StackIndex) : List α :=
  (m.nodes m.heap.size (m.load (.top s))).map (·.value)

def value? (m : Memory α) (b : Block) : Option α := (m.node? b).map Prod.fst

variable {m m' : Memory α}

theorem nodes_eq_of_chain {link : Option Block} {L : List (Block × α)} {fuel : Nat}
    (h : Chain m.node? link L) (hfuel : L.length ≤ fuel) :
    m.nodes fuel link = L.map fun p => ⟨p.1, p.2⟩ := by
  induction L generalizing link fuel with
  | nil =>
    obtain rfl : link = none := h
    cases fuel <;> rfl
  | cons p L ih =>
    obtain ⟨rfl, next, hb, hrest⟩ := h
    cases fuel with
    | zero => simp at hfuel
    | succ fuel =>
      rw [node?_eq_some] at hb
      simp only [nodes, hb, List.map_cons, ih hrest (by simpa using hfuel)]

end Memory

theorem Custody.content_eq {m : Memory α} {grip : Nat → Grip} {G : Layout α}
    (h : Custody m grip G) (s : StackIndex) : m.content s = (G.linked s).map Prod.snd := by
  rw [Memory.content, Memory.nodes_eq_of_chain (h.linked s) (h.length_linked_le s), List.map_map]
  rfl

/-! ## Where operations take effect -/

/-- The operation that takes effect by the next access of a thread, with its reply. -/
def Control.effect? (m : Memory α) : Control α → Option (Operation α × Reply α)
  | .swinging (.top s) b seen .push =>
    if m.load (.top s) = seen then (m.value? b).map (.push ·, .done) else none
  | .unlinking s _ b _ =>
    if m.load (.top s) = some b then (m.value? b).map (.pop, .popped ·) else none
  | .validating s _ none => if m.load (.top s) = none then some (.pop, .empty) else none
  | _ => none

def Control.effectOn? (m : Memory α) (s : StackIndex) (c : Control α) :
    Option (Operation α × Reply α) :=
  if c.stack? = some s then c.effect? m else none

def Machine.effect? (M : Machine α) (s : StackIndex) : Act α → Option (Nat × Operation α × Reply α)
  | .step t => (M.control? t).bind fun c => (c.effectOn? M.memory s).map (t, ·)
  | _ => none

def Machine.content (M : Machine α) (s : StackIndex) : List α := M.memory.content s

/-! ## Phases -/

/-- What the operation that ends with this sweep has come to. -/
def Pass.progress (pass : Pass α) : Phase α :=
  pass.result.elim .away fun v => .answered (.popped v)

def Errand.progress (m : Memory α) (b : Block) : Errand α → Phase α
  | .push => (m.value? b).elim .away fun v => .waiting (.push v)
  | .retire _ v => .answered (.popped v)
  | .defer pass _ => pass.progress

/-- How far a thread is with its push or pop. -/
def Control.progress (m : Memory α) : Control α → Phase α
  | .making _ v => .waiting (.push v)
  | .loading _ b errand | .linking _ b _ errand | .swinging _ b _ errand => errand.progress m b
  | .locating _ _ | .guarding _ _ _ | .validating _ _ _ | .following _ _ _ | .unlinking _ _ _ _ =>
    .waiting .pop
  | .clearing _ _ none => .answered .empty
  | .clearing _ _ (some b) | .taking _ b =>
    (m.value? b).elim .away fun v => .answered (.popped v)
  | .scanning _ _ v _ | .freeing _ _ v | .wrapping _ _ v | .counting _ _ _ v =>
    .answered (.popped v)
  | .peeking pass | .detaching pass | .walking pass _ | .opening pass _ _
  | .inspecting pass _ _ _ _ | .unwrapping pass _ _ _ | .burying pass _ _ | .settling pass =>
    pass.progress
  | _ => .away

namespace Control

def phase (m : Memory α) (s : StackIndex) (c : Control α) : Phase α :=
  if c.stack? = some s then c.progress m else .away

theorem progress_congr {m m' : Memory α} {c : Control α}
    (h : ∀ b, c.grip.node = some (b, true) → m'.value? b = m.value? b) :
    c.progress m' = c.progress m := by
  cases c with
  | loading w b errand | linking w b _ errand | swinging w b _ errand =>
    cases errand with
    | push => simp only [progress, Errand.progress, h b rfl]
    | _ => rfl
  | clearing s i won =>
    cases won with
    | none => rfl
    | some b => simp only [progress, h b rfl]
  | taking s b => simp only [progress, h b rfl]
  | _ => rfl

theorem phase_entry (m : Memory α) (s : StackIndex) (command : Command α) :
    (command.entry).phase m s = (command.operation? s).elim .away .waiting := by
  cases command with
  | push s' v | pop s' i =>
    by_cases hs : s' = s <;> simp [Command.entry, phase, stack?, progress, Command.operation?, hs]
  | reclaim s' => exact ite_self _
  | _ => rfl

end Control

def Machine.phase (M : Machine α) (s : StackIndex) (t : Nat) : Phase α :=
  (M.control? t).elim .away (·.phase M.memory s)

variable {m : Memory α} {g : Agent α} {a : Advance α} {grip : Nat → Grip} {G G' : Layout α}
  {t : Nat}

/-! ## One move -/

theorem Memory.value?_of_heap {m' : Memory α} (h : m'.heap = m.heap) : m'.value? = m.value? := by
  funext b
  simp only [value?, node?_of_heap h]

/-- The exchange that a thread tries fails only with cause: the word is not what it has seen. -/
def Advance.Caused (m : Memory α) (g : Agent α) (a : Advance α) : Prop :=
  ∀ w b seen errand, g.control = .swinging w b seen errand →
    a.agent.control = .linking w b (m.load w) errand → m.load w ≠ seen

theorem Pass.turn (pass : Pass α) : Turn pass.progress none (some pass.reply) .away := by
  unfold Pass.progress Pass.reply
  cases pass.result with
  | none => exact .other
  | some v => exact .reply

theorem Quiet.effect_cases {token held : _} {c c' : Control α} {marks : List (Mark α)}
    (hq : Quiet m token c c' marks)
    (hcause : Advance.Caused m ⟨token, held, c⟩ ⟨m, ⟨token, held, c'⟩, marks⟩) :
    c.effect? m = none ∨
      ∃ s i, c = .validating s i none ∧ c' = .clearing s i none ∧ m.load (.top s) = none := by
  cases hq with
  | @relink w b seen errand =>
    have hne := hcause w b seen errand rfl rfl
    cases w <;> cases errand <;> first | exact .inl rfl | exact .inl (if_neg hne)
  | @empty s i htop => exact .inr ⟨s, i, rfl, rfl, htop⟩
  | @revise s i seen hne =>
    cases seen with
    | none => exact .inl (if_neg hne)
    | some b => exact .inl rfl
  | retry hne => exact .inl (if_neg hne)
  | _ => exact .inl rfl

theorem Memory.value?_eq_some {b : Block} {v : α} {next : Option Block}
    (h : m.object? b = some (.node (some v) next)) : m.value? b = some v := by
  simp only [value?, node?_eq_some.2 h, Option.map_some]

/-- What a move means to the phase of its thread. -/
theorem Move.turn (hm : Move m g a) (h : Custody m grip G) (hγ : grip t = g.control.grip)
    (hsuited : g.control.Suited) (hcause : a.Caused m g) (hrun : a.agent.control ≠ .crashed) :
    Turn (g.control.progress m) (g.control.effect? m) (a.marks.findSome? Mark.reply?)
      (a.agent.control.progress a.memory) := by
  have hfits : g.control.grip.Fits m (G.loose t) (G.carried t) := hγ ▸ h.hands t
  -- a thread that works towards a push or has won a node has the node, with its value
  have hfull : ∀ {b}, g.control.grip.node = some (b, true) → ∃ v next,
      m.object? b = some (.node (some v) next) ∧ m.value? b = some v := fun hb => by
    obtain ⟨v, next, hobj, hsome, -⟩ := hfits.node hb
    obtain ⟨v, rfl⟩ := Option.isSome_iff_exists.1 hsome
    exact ⟨v, next, hobj, Memory.value?_eq_some hobj⟩
  cases hm with
  | quiet hq =>
    rcases hq.effect_cases hcause with heffect | ⟨s, i, rfl, rfl, htop⟩
    · rw [heffect]
      cases hq with
      | exhausted => exact .other
      | bare => exact Pass.turn _
      | empty htop => simp [Control.effect?, htop] at heffect
      | _ => exact .stay
    · rw [show (Control.validating s i none).effect? m = some (.pop, .empty) from if_pos htop]
      cases hq with
      | empty => exact .effect
  | publish hp =>
    cases hp with
    | publish => exact .other
    | giveUp => exact .reply
    | _ => exact .stay
  | claim => exact .other
  | disown => exact .other
  | @push token held w b seen hw =>
    obtain ⟨s, rfl⟩ : ∃ s, w = .top s := hsuited
    obtain ⟨v, next, -, hv⟩ := hfull rfl
    simp only [Control.progress, Errand.progress, Control.effect?, if_pos hw, hv, Option.elim_some,
      Option.map_some]
    exact .effectReply
  | retire hw =>
    obtain rfl : _ = Anchor.limbo _ := hsuited
    exact .stay
  | defer hw =>
    obtain rfl : _ = Anchor.limbo _ := hsuited
    exact .stay
  | @unlink token held s i b next htop =>
    obtain ⟨v, x, rest, -, hnode, -⟩ := (htop ▸ h.linked s).exists_cons
    have hv : m.value? b = some v := Memory.value?_eq_some (Memory.node?_eq_some.1 hnode)
    simp only [Control.progress, Control.effect?, if_pos htop,
      Memory.value?_of_heap (Memory.heap_store m (.top s) next), hv, Option.elim_some,
      Option.map_some]
    exact .effect
  | settle =>
    rw [Pass.reply?_marks]
    exact Pass.turn _
  | @aimNode token held w b seen errand v next hb =>
    cases errand with
    | push =>
      obtain ⟨v, next, hb', hv⟩ := hfull rfl
      obtain ⟨rfl, rfl⟩ := Object.node.inj (Option.some.inj (hb.symm.trans hb'))
      have hobj : (m.overwrite b (.node (some v) seen)).object? b =
          some (.node (some v) seen) := by simp [Memory.object?_overwrite, hb]
      have hv' := Memory.value?_eq_some hobj
      simp only [Control.progress, Errand.progress, hv, hv']
      exact .stay
    | _ => exact .stay
  | @aimEntry token held w b seen errand n next he =>
    cases errand with
    | push =>
      obtain ⟨v, next, hb', -⟩ := hfull rfl
      simp [he] at hb'
    | _ => exact .stay
  | take hb =>
    simp only [Control.progress, Memory.value?_eq_some hb]
    exact .stay
  | @make token held s v b hnew =>
    have hobj : (m.allocate b (.node (some v) none)).object? b = some (.node (some v) none) := by
      simp [Memory.object?_allocate]
    simp only [Control.progress, Errand.progress, Memory.value?_eq_some hobj]
    exact .stay
  | crash => exact absurd rfl hrun
  | _ => exact .stay

theorem Quiet.layout_eq {token : Token} {c c' : Control α} {marks : List (Mark α)}
    (hq : Quiet m token c c' marks) (hshift : Shift t G c c' G') : G' = G := by
  cases hq <;> cases hshift <;> rfl

/-- Nodes are linked and unlinked by exchanges of pushes and pops only. -/
theorem Shift.linked_eq {c c' : Control α} (hshift : Shift t G c c' G')
    (hpush : ∀ s b seen, c ≠ .swinging (.top s) b seen .push)
    (hpop : ∀ s i b next, c ≠ .unlinking s i b next) : G'.linked = G.linked := by
  cases hshift with
  | link => exact absurd rfl (hpush _ _ _)
  | unlink => exact absurd rfl (hpop _ _ _ _)
  | _ => rfl

/-- What a move means to the content of stack `s`. -/
theorem Move.evolves (hm : Move m g a) (h : Custody m grip G)
    (hshift : Shift t G g.control a.agent.control G')
    {grip' : Nat → Grip} (h' : Custody a.memory grip' G') (hsuited : g.control.Suited)
    (hcause : a.Caused m g) (hrun : a.agent.control ≠ .crashed) (s : StackIndex) :
    Evolves (g.control.effectOn? m s) ((G.linked s).map Prod.snd) ((G'.linked s).map Prod.snd) := by
  have hnone : ∀ {c : Control α}, c.effect? m = none → c.effectOn? m s = none := fun hc => by
    rw [Control.effectOn?, hc, ite_self]
  have hsame : G'.linked = G.linked →
      Evolves none ((G.linked s).map Prod.snd) ((G'.linked s).map Prod.snd) := fun h => by
    rw [h]
    rfl
  cases hm with
  | quiet hq =>
    obtain rfl := hq.layout_eq hshift
    rcases hq.effect_cases hcause with heffect | ⟨s', i, rfl, rfl, htop⟩
    · rw [hnone heffect]
      rfl
    · by_cases hs : s' = s
      · subst hs
        have hempty : G'.linked s' = [] := Chain.eq_nil (htop ▸ h.linked s')
        simp [Control.effectOn?, Control.stack?, Control.effect?, htop, hempty, Evolves,
          Operation.apply]
      · simp [Control.effectOn?, Control.stack?, hs, Evolves]
  | publish hp =>
    rw [hnone (by cases hp <;> rfl)]
    exact hsame (hshift.linked_eq (by cases hp <;> simp) (by cases hp <;> simp))
  | @push token held w b seen hw =>
    cases hshift with
    | stay hrole => cases hrole
    | @link s' b seen v hloose =>
      by_cases hs : s' = s
      · subst hs
        have hlinked := h'.linked s'
        simp only [Layout.link, Function.update_self] at hlinked
        obtain ⟨-, x, hnode, -⟩ := hlinked
        rw [Memory.node?_of_heap (Memory.heap_store m (.top s') (some b))] at hnode
        have hv : m.value? b = some v := Memory.value?_eq_some (Memory.node?_eq_some.1 hnode)
        simp [Control.effectOn?, Control.stack?, Anchor.stack, Control.effect?, hw, hv, Evolves,
          Operation.apply, Layout.link]
      · simp [Control.effectOn?, Control.stack?, Anchor.stack, hs, Evolves, Layout.link, Ne.symm hs]
  | retire hw =>
    obtain rfl : _ = Anchor.limbo _ := hsuited
    rw [hnone rfl]
    exact hsame (hshift.linked_eq (by simp) (by simp))
  | defer hw =>
    obtain rfl : _ = Anchor.limbo _ := hsuited
    rw [hnone rfl]
    exact hsame (hshift.linked_eq (by simp) (by simp))
  | @unlink token held s' i b next htop =>
    cases hshift with
    | stay hrole => cases hrole
    | @unlink s' i b next v rest hlinked =>
      by_cases hs : s' = s
      · subst hs
        obtain ⟨-, x, hnode, -⟩ := hlinked ▸ h.linked s'
        have hv : m.value? b = some v := Memory.value?_eq_some (Memory.node?_eq_some.1 hnode)
        simp [Control.effectOn?, Control.stack?, Control.effect?, htop, hv, Evolves,
          Operation.apply, Layout.unlink, hlinked]
      · simp [Control.effectOn?, Control.stack?, hs, Evolves, Layout.unlink, Ne.symm hs]
  | crash => exact absurd rfl hrun
  | _ =>
    rw [hnone rfl]
    exact hsame (hshift.linked_eq (by simp) (by simp))

theorem Move.stack?_cases (hm : Move m g a) (hsuited : g.control.Suited)
    (hrun : a.agent.control ≠ .crashed) :
    a.agent.control.stack? = g.control.stack? ∨ a.agent.control = .idle := by
  cases hm with
  | quiet hq =>
    cases hq with
    | exhausted | bare => exact .inr rfl
    | _ => exact .inl rfl
  | publish hp =>
    cases hp with
    | publish | giveUp => exact .inr rfl
    | _ => exact .inl rfl
  | retire hw | defer hw =>
    obtain rfl : _ = Anchor.limbo _ := hsuited
    exact .inl rfl
  | claim | disown | push | settle => exact .inr rfl
  | crash => exact absurd rfl hrun
  | _ => exact .inl rfl

theorem Move.turnOn (hm : Move m g a) (h : Custody m grip G) (hγ : grip t = g.control.grip)
    (hsuited : g.control.Suited) (hcause : a.Caused m g) (hrun : a.agent.control ≠ .crashed)
    (s : StackIndex) :
    Turn (g.control.phase m s) (g.control.effectOn? m s) (a.marks.findSome? Mark.reply?)
      (a.agent.control.phase a.memory s) := by
  have hturn := hm.turn h hγ hsuited hcause hrun
  have hstack := hm.stack?_cases hsuited hrun
  by_cases hs : g.control.stack? = some s
  · have hphase : a.agent.control.phase a.memory s = a.agent.control.progress a.memory := by
      rcases hstack with hstack | hidle
      · rw [Control.phase, hstack, if_pos hs]
      · rw [hidle]
        rfl
    rwa [hphase, Control.phase, Control.effectOn?, if_pos hs, if_pos hs]
  · have hphase : a.agent.control.phase a.memory s = .away := by
      rcases hstack with hstack | hidle
      · rw [Control.phase, hstack, if_neg hs]
      · rw [hidle]
        rfl
    rw [hphase, Control.phase, Control.effectOn?, if_neg hs, if_neg hs]
    cases a.marks.findSome? Mark.reply? with
    | none => exact .stay
    | some r => exact .other

/-! ## One act -/

theorem Agent.step_caused (h : g.step m = some a) : a.Caused m g := by
  intro w b seen errand hc hc' hw
  simp only [Agent.step, hc, hw, if_true, Option.some.injEq] at h
  subst h
  cases errand <;> cases hc'

theorem Agent.receive_caused {b : Block} (h : g.receive m b = some a) : a.Caused m g := by
  intro w b' seen errand hc hc' hw
  unfold Agent.receive at h
  split at h
  · cases h
  · rw [hc] at h
    cases h

theorem Agent.receive_effect? {b : Block} (h : g.receive m b = some a) :
    g.control.effect? m = none := by
  unfold Agent.receive at h
  split at h
  · cases h
  · split at h
    · rename_i hc
      rw [hc]
      rfl
    · rename_i hc
      rw [hc]
      rfl
    · cases h

namespace Machine

variable {M M' : Machine α}

theorem phase_eq {c : Control α} (h : M.control? t = some c) (s : StackIndex) :
    M.phase s t = c.phase M.memory s := by
  simp only [phase, h, Option.elim_some]

theorem Sound.phase_eq_of_ne (h : M.Sound) (ht : M.agents[t]? = some g) (hm : Move M.memory g a)
    {u : Nat} (hu : u ≠ t) (s : StackIndex) :
    (⟨a.memory, M.agents.set t a.agent⟩ : Machine α).phase s u = M.phase s u := by
  obtain ⟨G, hG⟩ := h.custody
  simp only [phase, control?_set ht, if_neg hu]
  cases hc : M.control? u with
  | none => rfl
  | some c =>
    simp only [Option.elim_some, Control.phase]
    congr 1
    refine Control.progress_congr fun b hb => ?_
    have hmem := hG.mem_of_node (inHand_eq hc) hb
    have hheap : a.memory.heap[b]? = M.memory.heap[b]? := by
      refine hm.getElem?_heap_eq hG (inHand_eq (control?_eq ht)) ?_
        (hG.isSome_of_mem hmem)
      exact hG.notMem_of_thread hmem (by simpa using Ne.symm hu)
    simp only [Memory.value?, Memory.node?, Memory.object?, hheap]

theorem Sound.move_turn (h : M.Sound) (ht : M.agents[t]? = some g) (hm : Move M.memory g a)
    (hcause : a.Caused M.memory g) (s : StackIndex) :
    Turn (M.phase s t) (g.control.effectOn? M.memory s) (a.marks.findSome? Mark.reply?)
        (a.agent.control.phase a.memory s) ∧
      Evolves (g.control.effectOn? M.memory s) (M.content s) (a.memory.content s) := by
  have htc : M.control? t = some g.control := control?_eq ht
  have hrun := h.not_crashed ht hm
  obtain ⟨G, hG⟩ := h.custody
  obtain ⟨G', hshift, hG'⟩ := h.custody_move ht hm hG
  have hsuited : g.control.Suited := (h.proper htc).2
  refine ⟨?_, ?_⟩
  · rw [phase_eq htc]
    exact hm.turnOn hG (inHand_eq htc) hsuited hcause hrun s
  · rw [content, hG.content_eq, hG'.content_eq]
    exact hm.evolves hG hshift hG' hsuited hcause hrun s

theorem effect?_step (ht : M.agents[t]? = some g) (s : StackIndex) :
    M.effect? s (.step t) = (g.control.effectOn? M.memory s).map (t, ·) := by
  simp only [effect?, control?_eq ht, Option.bind_some]

/-- What an act means to stack `s`, and what clients see of it. -/
inductive Simulates (M : Machine α) (s : StackIndex) (act : Act α) (M' : Machine α) :
    Occurrence α → Prop where
  | silent (he : M.effect? s act = none) (hL : M'.content s = M.content s)
      (hφ : M'.phase s = M.phase s) : Simulates M s act M' .silent
  | call {t command} (he : M.effect? s act = none) (hL : M'.content s = M.content s)
      (ht : M.phase s t = .away)
      (hφ : M'.phase s =
        Function.update (M.phase s) t ((command.operation? s).elim .away .waiting)) :
      Simulates M s act M' (.call t command)
  | turn {t e r φ'} (he : M.effect? s act = e.map (t, ·))
      (hL : Evolves e (M.content s) (M'.content s))
      (hturn : Turn (M.phase s t) e r φ') (hφ : M'.phase s = Function.update (M.phase s) t φ') :
      Simulates M s act M' (.ofReply? t r)

theorem Sound.simulates_move (h : M.Sound) {act : Act α} (ht : M.agents[t]? = some g)
    (hm : Move M.memory g a) (hcause : a.Caused M.memory g) (s : StackIndex)
    (he : M.effect? s act = (g.control.effectOn? M.memory s).map (t, ·)) :
    Simulates M s act ⟨a.memory, M.agents.set t a.agent⟩
      (.ofReply? t (a.marks.findSome? Mark.reply?)) := by
  obtain ⟨hturn, hL⟩ := h.move_turn ht hm hcause s
  refine .turn he hL hturn (funext fun u => ?_)
  rw [Function.update_apply]
  split
  · rename_i hu
    subst hu
    exact phase_eq (control?_set_self ht ..) s
  · exact h.phase_eq_of_ne ht hm ‹_› s

theorem Sound.simulates (h : M.Sound) {act : Act α} {marks : List (Mark α)}
    (hact : M.act? act = some (M', marks)) (s : StackIndex) :
    Simulates M s act M' (act.occurrence marks) := by
  cases act with
  | call t command =>
    cases act?_step hact with
    | @call _ g _ ht hc hslot hstack =>
      refine .call rfl rfl ?_ (funext fun u => ?_)
      · rw [phase_eq (control?_eq_some.2 ⟨g, ht, hc⟩)]
        rfl
      · simp only [phase, control?_set ht, Function.update_apply]
        split
        · exact Control.phase_entry ..
        · rfl
    | move hmover => cases hmover
  | handOver t u i =>
    cases act?_step hact with
    | move hmover => cases hmover
    | handOver ht hu =>
      exact .silent rfl rfl (funext fun v => by simp only [phase, control?_handOver ht hu])
  | step t =>
    obtain ⟨g, ht, hact⟩ := Option.bind_eq_some_iff.1 hact
    obtain ⟨a, ha, hact⟩ := Option.bind_eq_some_iff.1 hact
    obtain ⟨rfl, rfl⟩ := Prod.mk.inj (Option.some.inj hact)
    exact h.simulates_move ht (Agent.step_move ha) (Agent.step_caused ha) s (effect?_step ht s)
  | receive t b =>
    obtain ⟨g, ht, hact⟩ := Option.bind_eq_some_iff.1 hact
    obtain ⟨a, ha, hact⟩ := Option.bind_eq_some_iff.1 hact
    obtain ⟨rfl, rfl⟩ := Prod.mk.inj (Option.some.inj hact)
    refine h.simulates_move ht (Agent.receive_move ha) (Agent.receive_caused ha) s ?_
    rw [Control.effectOn?, Agent.receive_effect? ha, ite_self]
    rfl
  | stumble t =>
    -- the exchange fails without cause, so nothing takes effect
    obtain ⟨g, ht, hact⟩ := Option.bind_eq_some_iff.1 hact
    obtain ⟨a, ha, hact⟩ := Option.bind_eq_some_iff.1 hact
    obtain ⟨rfl, rfl⟩ := Prod.mk.inj (Option.some.inj hact)
    unfold Agent.stumble at ha
    split at ha
    · rename_i w b seen errand hc
      obtain rfl := Option.some.inj ha
      refine .silent rfl rfl (funext fun u => ?_)
      simp only [phase, control?_set ht]
      split
      · rename_i hu
        subst hu
        rw [control?_eq_some.2 ⟨g, ht, hc⟩]
        rfl
      · rfl
    · cases ha

/-- The content of a stack changes only where an operation takes effect, and as in a sequential
stack. -/
theorem Sound.evolves (h : M.Sound) {act : Act α} {marks : List (Mark α)}
    (hact : M.act? act = some (M', marks)) (s : StackIndex) :
    Evolves ((M.effect? s act).map Prod.snd) (M.content s) (M'.content s) := by
  have hs := h.simulates hact s
  generalize act.occurrence marks = x at hs
  cases hs with
  | silent he hL | call he hL =>
    rw [he]
    exact hL
  | @turn t e r φ' he hL =>
    rw [he, Option.map_map]
    simpa [Function.comp_def] using hL

theorem Sound.empty_of_effect? (h : M.Sound) {act : Act α} {s : StackIndex} {o : Operation α}
    (he : M.effect? s act = some (t, o, .empty)) :
    act = .step t ∧ (∃ i, M.control? t = some (.validating s i none)) ∧
      M.memory.load (.top s) = none ∧ M.content s = [] := by
  cases act with
  | step u =>
    obtain ⟨c, hc, he⟩ := Option.bind_eq_some_iff.1 he
    obtain ⟨⟨o', r⟩, he, heq⟩ := Option.map_eq_some_iff.1 he
    obtain ⟨rfl, rfl, rfl⟩ : u = t ∧ o' = o ∧ r = .empty := by simpa using heq
    obtain ⟨hs, he⟩ := Option.ite_none_right_eq_some.1 he
    unfold Control.effect? at he
    split at he
    · simp at he
    · simp at he
    · rename_i s' i _ _
      obtain ⟨htop, -⟩ := Option.ite_none_right_eq_some.1 he
      obtain rfl : s' = s := Option.some.inj hs
      obtain ⟨G, hG⟩ := h.custody
      have hempty : G.linked s' = [] := Chain.eq_nil (htop ▸ hG.linked s')
      refine ⟨rfl, ⟨i, hc⟩, htop, ?_⟩
      rw [content, hG.content_eq, hempty, List.map_nil]
    · cases he
  | _ => cases he

/-! ## Runs -/

/-- An operation on stack `s` takes effect by act `k` of a run. -/
def TakesEffect (M : Machine α) (s : StackIndex) (acts : List (Act α)) (k t : Nat)
    (o : Operation α) (r : Reply α) : Prop :=
  ∃ act M', acts[k]? = some act ∧ M.run? (acts.take k) = some M' ∧ M'.effect? s act = some (t, o, r)

/-- In a run from a sound machine whose stack is empty and where no thread is at work, the
operations on the stack take effect at one instant each. -/
theorem Sound.atomic_of_run? (h : M.Sound) (hL : M.content s = []) (hφ : M.phase s = fun _ => .away)
    {acts : List (Act α)} (hrun : M.run? acts = some M') :
    Atomic s (M.TakesEffect s acts) (M.history acts) (M'.content s) (M'.phase s) := by
  suffices hprefix : ∀ {acts' rest M₁}, acts' ++ rest = acts → M.run? acts' = some M₁ →
      Atomic s (M.TakesEffect s acts) (M.history acts') (M₁.content s) (M₁.phase s) from
    hprefix (List.append_nil acts) hrun
  intro acts'
  induction acts' using List.reverseRecOn with
  | nil =>
    intro rest M₁ _ hrun
    obtain rfl := Option.some.inj hrun
    rw [hL, hφ]
    exact .start
  | append_singleton acts' act ih =>
    intro rest M₂ hacts hrun
    obtain ⟨M₁, marks, hrun, hact⟩ := run?_concat_eq_some.1 hrun
    rw [List.append_assoc, List.singleton_append] at hacts
    have hatomic := ih hacts hrun
    have hsound : M₁.Sound := invariant_of_step (fun h hs => h.step hs) h ⟨acts', hrun⟩
    have heffect : ∀ {t o r}, M₁.effect? s act = some (t, o, r) →
        M.TakesEffect s acts (M.history acts').length t o r := fun he => by
      refine ⟨act, M₁, ?_, ?_, he⟩ <;> rw [length_history hrun, ← hacts]
      · simp
      · rwa [List.take_left']
        rfl
    rw [history_concat hrun hact]
    have hs := hsound.simulates hact s
    generalize act.occurrence marks = x at hs
    cases hs with
    | silent he hL hφ =>
      rw [hL, hφ]
      exact hatomic.silent
    | call he hL ht hφ =>
      rw [hL, hφ]
      exact hatomic.call ht
    | turn he hL hturn hφ =>
      rw [hφ]
      exact hatomic.turn hturn hL fun o r heq => heffect (by rw [he, heq]; rfl)

theorem content_start (capacity count : Nat) (tokens : List Token) (s : StackIndex) :
    (start capacity count tokens : Machine α).content s = [] := by
  have hsize : (Memory.start capacity count : Memory α).heap.size = 0 := rfl
  simp only [content, Memory.content, start, hsize, Memory.nodes, List.map_nil]

theorem phase_start (capacity count : Nat) (tokens : List Token) (s : StackIndex) :
    (start capacity count tokens : Machine α).phase s = fun _ => .away := by
  funext t
  unfold phase
  cases hc : (start capacity count tokens : Machine α).control? t with
  | none => rfl
  | some c => rw [control?_start hc]; rfl

/-- Linearizability to a sequential stack. The content of stack `s` changes only when the exchange
of a push or a pop succeeds, and as the sequential stack does; every answered push or pop has taken
effect between its call and its reply, and with this reply; a pop that answers "empty" has read an
empty top word then, while the stack was empty. So every history is linearizable. -/
theorem linearizable_lifo {capacity count : Nat} {tokens : List Token} {acts : List (Act α)}
    (hrun : (start capacity count tokens).run? acts = some M) (s : StackIndex) :
    (∀ act M' marks, M.act? act = some (M', marks) →
      Evolves ((M.effect? s act).map Prod.snd) (M.content s) (M'.content s)) ∧
    (∀ n t o m r, Calls s ((start capacity count tokens).history acts) n t o →
      Answers ((start capacity count tokens).history acts) n t m r →
      ∃ k, n < k ∧ k ≤ m ∧ (start capacity count tokens).TakesEffect s acts k t o r) ∧
    (∀ n t m, Calls s ((start capacity count tokens).history acts) n t .pop →
      Answers ((start capacity count tokens).history acts) n t m .empty →
      ∃ k M' i, n < k ∧ k ≤ m ∧ acts[k]? = some (.step t) ∧
        (start capacity count tokens).run? (acts.take k) = some M' ∧
        M'.control? t = some (.validating s i none) ∧ M'.memory.load (.top s) = none ∧
        M'.content s = []) ∧
    Linearizable s ((start capacity count tokens).history acts) := by
  have hatomic := (sound_start capacity count tokens).atomic_of_run?
    (content_start capacity count tokens s) (phase_start capacity count tokens s) hrun
  refine ⟨fun act M' marks hact => (Sound.of_reaches ⟨acts, hrun⟩).evolves hact s,
    fun n t o m r hn hm => hatomic.effect hn hm, fun n t m hn hm => ?_, hatomic.linearizable⟩
  obtain ⟨k, hnk, hkm, act, M', hk, hrun', he⟩ := hatomic.effect hn hm
  obtain ⟨rfl, ⟨i, hc⟩, htop, hcontent⟩ := (Sound.of_reaches ⟨_, hrun'⟩).empty_of_effect? he
  exact ⟨k, M', i, hnk, hkm, hk, hrun', hc, htop, hcontent⟩

/-- Thread 0 has seen the empty stack when thread 1 pushes 7. It looks again and pops 7; its next
pop finds nothing. -/
def pushDuringPop : List (Act Nat) :=
  [.call 0 .acquire, .step 0, .call 1 (.push 0 7), .call 0 (.pop 0 0), .receive 1 3, .step 0,
    .step 1, .step 1, .step 1] ++ List.replicate 12 (.step 0) ++
  .call 0 (.pop 0 0) :: List.replicate 4 (.step 0)

theorem pushed_value_popped : ∃ (M M₁ M₂ : Machine Nat) (h : List (Occurrence Nat)),
    (start 1 1 [1, 2]).run? pushDuringPop = some M ∧
    ((start 1 1 [1, 2]).run? (pushDuringPop.take 14) = some M₁ ∧
      M₁.act? (.step 0) = some (M₂, []) ∧ M₁.effect? 0 (.step 0) = some (0, .pop, .popped 7) ∧
      Evolves ((M₁.effect? 0 (.step 0)).map Prod.snd) (M₁.content 0) (M₂.content 0) ∧
      M₁.content 0 = 7 :: M₂.content 0) ∧
    (start 1 1 [1, 2]).history pushDuringPop = h ∧
    (Calls 0 h 2 1 (.push 7) ∧ Answers h 2 1 8 .done ∧
      ∃ k, 2 < k ∧ k ≤ 8 ∧ (start 1 1 [1, 2]).TakesEffect 0 pushDuringPop k 1 (.push 7) .done) ∧
    (Calls 0 h 3 0 .pop ∧ Answers h 3 0 20 (.popped 7) ∧
      ∃ k, 3 < k ∧ k ≤ 20 ∧ (start 1 1 [1, 2]).TakesEffect 0 pushDuringPop k 0 .pop (.popped 7)) ∧
    (Calls 0 h 21 0 .pop ∧ Answers h 21 0 25 .empty ∧
      ∃ k M', 21 < k ∧ k ≤ 25 ∧ (start 1 1 [1, 2]).run? (pushDuringPop.take k) = some M' ∧
        M'.content 0 = []) ∧
    Linearizable 0 h := by
  let M₀ : Machine Nat :=
    ⟨⟨⟨[{ owner := some 1 }]⟩, [{}], ∅, 0⟩, [⟨1, [0], .idle⟩, ⟨2, [], .idle⟩]⟩
  have hstart : ∀ acts, (start 1 1 [1, 2]).run? (.call 0 .acquire :: .step 0 :: acts) =
      M₀.run? acts := fun _ => rfl
  have hacquired : ∀ acts, (start 1 1 [1, 2]).history (.call 0 .acquire :: .step 0 :: acts) =
      .call 0 .acquire :: .reply 0 (.acquired 0) :: M₀.history acts := fun _ => rfl
  obtain ⟨M, hrun⟩ : ∃ M, (start 1 1 [1, 2]).run? pushDuringPop = some M :=
    ⟨_, (hstart _).trans (by cbv)⟩
  obtain ⟨M₁, M₂, hrun₁, hact, heffect₁⟩ : ∃ M₁ M₂,
      (start 1 1 [1, 2]).run? (pushDuringPop.take 14) = some M₁ ∧
        M₁.act? (.step 0) = some (M₂, []) ∧ M₁.effect? 0 (.step 0) = some (0, .pop, .popped 7) :=
    ⟨_, _, (hstart _).trans (by cbv), by cbv, by cbv⟩
  obtain ⟨h, hhistory, hpush, hdone, hpop, hpopped, hagain, hempty⟩ : ∃ h,
      (start 1 1 [1, 2]).history pushDuringPop = h ∧
      Calls 0 h 2 1 (.push 7) ∧ Answers h 2 1 8 .done ∧
      Calls 0 h 3 0 .pop ∧ Answers h 3 0 20 (.popped 7) ∧
      Calls 0 h 21 0 .pop ∧ Answers h 21 0 25 .empty := by
    refine ⟨_, (hacquired _).trans (by cbv), ⟨_, rfl, rfl⟩, ⟨by decide, rfl, fun j r hj hj' => ?_⟩, ⟨_, rfl, rfl⟩,
      ⟨by decide, rfl, fun j r hj hj' => ?_⟩, ⟨_, rfl, rfl⟩, ⟨by decide, rfl, fun j r hj hj' => ?_⟩⟩
    all_goals
      intro hr
      interval_cases j
      all_goals cases hr
  obtain ⟨hevolves, -, -, -⟩ := linearizable_lifo hrun₁ 0
  obtain ⟨-, heffect, hlook, hlin⟩ := linearizable_lifo hrun 0
  rw [hhistory] at heffect hlook hlin
  obtain ⟨k, M', -, hk, hk', -, hrun', -, -, hcontent⟩ := hlook 21 0 25 hagain hempty
  have hevolves := hevolves _ _ _ hact
  have hpopped₁ : M₁.content 0 = 7 :: M₂.content 0 := by
    rw [heffect₁] at hevolves
    generalize M₁.content 0 = L at hevolves ⊢
    cases L with
    | nil => cases hevolves
    | cons v L =>
      cases hevolves
      rfl
  exact ⟨M, M₁, M₂, h, hrun, ⟨hrun₁, hact, heffect₁, hevolves, hpopped₁⟩, hhistory,
    ⟨hpush, hdone, heffect 2 1 _ 8 _ hpush hdone⟩, ⟨hpop, hpopped, heffect 3 0 _ 20 _ hpop hpopped⟩,
    ⟨hagain, hempty, k, M', hk, hk', hrun', hcontent⟩, hlin⟩

end Machine

end HazardLifo.Interleaved
