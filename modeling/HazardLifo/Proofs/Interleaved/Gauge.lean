import HazardLifo.Proofs.Interleaved.Places
import Mathlib.Algebra.GroupWithZero.Nat
import Mathlib.Algebra.Order.BigOperators.Group.List
import Mathlib.Algebra.Order.Group.Nat

/-!
# What a gauge counts

A pop adds one to the gauge of its stack before it puts its entry into limbo, and a sweep takes off
at its end what it has freed. In between other sweeps may detach the entry, put it back, or free it.
`Machine.tally` is what the gauge stands for at any instant: the entries that some pop has counted,
wherever they are, and those that running sweeps have freed and not yet taken off. Every move of a
thread changes the gauge by as much as the tally (`Sound.tally_move`), so the gauge is the tally in
every reachable machine (`Metered.of_reaches`).
-/

namespace HazardLifo.Interleaved

variable {α : Type}

/-! ## What an operation contributes -/

def Errand.unsettled : Errand α → Nat
  | .defer pass _ => pass.freed
  | _ => 0

namespace Control

/-- The entries that a sweep has freed; the gauge still counts them. -/
def unsettled : Control α → Nat
  | .peeking pass | .detaching pass | .walking pass _ | .opening pass _ _
  | .inspecting pass _ _ _ _ | .unwrapping pass _ _ _ | .settling pass => pass.freed
  | .burying pass _ _ => pass.freed + 1
  | .loading _ _ errand | .linking _ _ _ errand | .swinging _ _ _ errand => errand.unsettled
  | _ => 0

/-- How many of the entries in hand the gauge counts: all, but for one that a pop has just made. -/
def counted (entries : List (Block × Block)) : Control α → Nat
  | .counting .. => 0
  | _ => entries.length

/-- What an operation with these entries in hand contributes to the gauge of stack `s`. -/
def share (s : StackIndex) (entries : List (Block × Block)) (c : Control α) : Nat :=
  if c.stack? = some s then c.counted entries + c.unsettled else 0

def gain (s : StackIndex) : Control α → Nat
  | .counting s' _ _ _ => if s' = s then 1 else 0
  | _ => 0

def loss (s : StackIndex) : Control α → Nat
  | .settling pass => if pass.stack = s then pass.freed else 0
  | _ => 0

/-- A sweep that has not begun to walk has not met any entry. -/
def Fresh : Control α → Prop
  | .peeking pass | .detaching pass => pass.freed = 0 ∧ pass.deferred = 0
  | _ => True

end Control

def Memory.gauge (m : Memory α) (s : StackIndex) : UInt64 := (m.words[s]?.map (·.gauge)).getD 0

/-- The entries that are counted as retired to stack `s`: those in its limbo list, those that
operations have in hand, and those that running sweeps have freed and not yet taken off. -/
def Machine.tally (M : Machine α) (s : StackIndex) : Nat :=
  (M.memory.waiting s).length +
    (M.agents.map fun g => g.control.share s (g.control.grip.entries M.memory)).sum

/-! ## One move -/

namespace Memory

@[simp] theorem gauge_store (m : Memory α) (w : Anchor) (link : Option Block) (s : StackIndex) :
    (m.store w link).gauge s = m.gauge s := by
  cases w <;> simp only [gauge, store, List.getElem?_modify] <;> split <;>
    simp [Option.map_map, Function.comp_def]

@[simp] theorem gauge_overwrite (m : Memory α) (b : Block) (o : Object α) (s : StackIndex) :
    (m.overwrite b o).gauge s = m.gauge s := by
  simp only [gauge, words_overwrite]

@[simp] theorem gauge_allocate (m : Memory α) (b : Block) (o : Object α) (s : StackIndex) :
    (m.allocate b o).gauge s = m.gauge s := rfl

@[simp] theorem gauge_free (m : Memory α) (b : Block) (s : StackIndex) :
    (m.free b).gauge s = m.gauge s := rfl

@[simp] theorem gauge_mapTable (m : Memory α) (f : SlotTable → SlotTable) (s : StackIndex) :
    (m.mapTable f).gauge s = m.gauge s := rfl

theorem gauge_mapGauge (m : Memory α) {s : StackIndex} (hs : s < m.words.length)
    (f : UInt64 → UInt64) (s' : StackIndex) :
    (m.mapGauge s f).gauge s' = if s = s' then f (m.gauge s') else m.gauge s' := by
  simp only [gauge, mapGauge, List.getElem?_modify]
  by_cases h : s = s'
  · subst h
    simp [hs]
  · simp [h]

end Memory

variable {m : Memory α} {g : Agent α} {a : Advance α}

theorem Move.fresh (hm : Move m g a) (h : g.control.Fresh) : a.agent.control.Fresh := by
  cases hm with
  | quiet hq => cases hq <;> first | exact h | trivial
  | publish hp => cases hp <;> trivial
  | retire | free => exact ⟨rfl, rfl⟩
  | _ => trivial

theorem Move.gauge_eq (hm : Move m g a) (hproper : g.control.Proper m.words.length)
    (s : StackIndex) :
    a.memory.gauge s =
      m.gauge s + UInt64.ofNat (g.control.gain s) - UInt64.ofNat (g.control.loss s) := by
  cases hm with
  | @count token held s' b e v =>
    rw [Memory.gauge_mapGauge m (hproper.1 _ rfl)]
    simp only [Control.gain, Control.loss]
    split <;> simp
  | @settle token held pass =>
    rw [Memory.gauge_mapGauge m (hproper.1 _ rfl)]
    simp only [Control.gain, Control.loss]
    split <;> simp
  | quiet hq => cases hq <;> simp [Control.gain, Control.loss]
  | publish hp => cases hp <;> simp [Control.gain, Control.loss]
  | crash hl => cases hl <;> simp [Control.gain, Control.loss]
  | _ => simp [Control.gain, Control.loss]

theorem Custody.carried_eq_nil {grip : Nat → Grip} {G : Layout α} (h : Custody m grip G) {t : Nat}
    {γ : Grip} (hγ : grip t = γ) (hentry : γ.entry = none) (hrest : γ.rest = none) :
    G.carried t = [] := by
  have hc := h.carries hγ
  unfold Grip.Carries at hc
  rw [hentry, hrest] at hc
  exact Chain.eq_nil hc

theorem Control.share_nil {c : Control α} (s : StackIndex) (h : c.unsettled = 0) :
    c.share s [] = 0 := by
  have hcounted : c.counted [] = 0 := by unfold counted; split <;> rfl
  simp [share, hcounted, h]

theorem Control.share_eq {c : Control α} {k : StackIndex} (h : c.stack? = some k) (s : StackIndex)
    (entries : List (Block × Block)) :
    c.share s entries = if k = s then c.counted entries + c.unsettled else 0 := by
  simp only [share, h, Option.some.injEq]

/-- What the limbo list and the moving thread contribute together changes as the gauge does. -/
theorem Move.share_eq {G G' : Layout α} {grip : Nat → Grip} {t : Nat} (hm : Move m g a)
    (h : Custody m grip G) (hγ : grip t = g.control.grip)
    (hshift : Shift t G g.control a.agent.control G') (hfresh : g.control.Fresh)
    (hcrash : a.agent.control ≠ .crashed) (s : StackIndex) :
    (G'.waiting s).length + a.agent.control.share s (G'.carried t) + g.control.loss s =
      (G.waiting s).length + g.control.share s (G.carried t) + g.control.gain s := by
  have hnil := h.carried_eq_nil hγ
  cases hm with
  | quiet hq =>
    cases hq <;> cases hshift
    case bare.stay pass _ _ =>
      have hunsettled : (Control.peeking pass).unsettled = 0 := hfresh.1
      rw [hnil rfl rfl, Control.share_nil s rfl, Control.share_nil s hunsettled]
      rfl
    all_goals
      simp [Control.share, Control.stack?, Control.counted, Control.unsettled, Control.loss,
        Control.gain, Errand.unsettled, Anchor.stack]
  | publish hp =>
    have hcarried : G.carried t = [] := hnil (by cases hp <;> rfl) (by cases hp <;> rfl)
    have hsame : G' = G := by cases hp <;> cases hshift <;> rfl
    rw [hsame, hcarried]
    cases hp <;> rw [Control.share_nil s rfl, Control.share_nil s rfl] <;> rfl
  | @retire token held w e seen s' v hw =>
    cases hshift with
    | stay hrole => cases hrole
    | retire hcarried =>
      rw [Control.share_eq (k := s') rfl, Control.share_eq (k := s') rfl, hcarried]
      simp only [Layout.shelve, Function.update_apply, if_true, Control.counted, Control.unsettled,
        Errand.unsettled, Control.loss, Control.gain, eq_comm (a := s)]
      split
      · simp [*]
      · rfl
  | @defer token held w e seen pass rest hw =>
    cases hshift with
    | stay hrole => cases hrole
    | defer hcarried =>
      rw [Control.share_eq (k := pass.stack) rfl, Control.share_eq (k := pass.stack) rfl,
        hcarried]
      simp only [Layout.shelve, Function.update_apply, if_true, Control.counted, Control.unsettled,
        Errand.unsettled, Control.loss, Control.gain, eq_comm (a := s)]
      split
      · rename_i hs
        simp only [hs, List.length_cons]
        omega
      · rfl
  | @detach token held pass =>
    cases hshift with
    | stay hrole => cases hrole
    | detach hcarried =>
      rw [Control.share_eq (k := pass.stack) rfl, Control.share_eq (k := pass.stack) rfl,
        hcarried]
      simp only [Layout.detach, Function.update_apply, if_true, Control.counted, Control.unsettled,
        Control.loss, Control.gain, eq_comm (a := s)]
      split
      · simp [*]
      · rfl
  | count =>
    obtain ⟨n, next, tail, hcarried, -, -, -, hrest⟩ := h.carries hγ
    obtain rfl : tail = [] := Chain.eq_nil hrest
    cases hshift with
    | stay =>
      simp [Control.share, Control.counted, Control.unsettled, Control.gain, Control.loss,
        Control.stack?, hcarried, Errand.unsettled, Anchor.stack]
  | @settle token held pass =>
    cases hshift with
    | stay =>
      rw [hnil rfl rfl, Control.share_nil s rfl, Control.share_eq (k := pass.stack) rfl]
      simp [Control.counted, Control.unsettled, Control.gain, Control.loss]
  | @unwrap token held pass e rest b n next he =>
    cases hshift with
    | stay hrole => cases hrole
    | unwrap hcarried hloose =>
      rw [Control.share_eq (k := pass.stack) rfl, Control.share_eq (k := pass.stack) rfl,
        hcarried]
      simp only [Layout.hold, Function.update_self, Control.counted, Control.unsettled,
        Control.loss, Control.gain, List.length_cons]
      split <;> omega
  | @bury token held pass rest b v next hb =>
    cases hshift with
    | stay hrole => cases hrole
    | bury hloose =>
      simp only [Layout.hold, Function.update_self]
      rfl
  | wrap he =>
    cases hshift with
    | stay hrole => cases hrole
    | wrap hloose hcarried =>
      rw [hcarried, Control.share_nil s rfl]
      simp [Control.share, Control.counted, Control.unsettled, Control.loss, Control.gain,
        Layout.hold]
  | crash hl => exact absurd rfl hcrash
  | aimNode | aimEntry | take | claim | disown =>
    cases hshift
    rfl
  | make | free | push | unlink =>
    -- no entry in hand before the move nor after it
    have hcarried : G.carried t = [] := hnil rfl rfl
    cases hshift
    case stay hrole => cases hrole
    all_goals
      simp only [Layout.hold, Layout.link, Layout.unlink, Function.update_self, hcarried]
      rw [Control.share_nil s rfl, Control.share_nil s rfl]
      rfl

theorem Shift.carried_eq {G G' : Layout α} {t : Nat} {c c' : Control α} (h : Shift t G c c' G')
    {u : Nat} (hu : u ≠ t) : G'.carried u = G.carried u := by
  cases h <;>
    simp [Layout.hold, Layout.link, Layout.unlink, Layout.shelve, Layout.detach, hu]

namespace Machine

variable {M M' : Machine α}

/-! ## Sums over threads -/

theorem sum_map_set (f f' : Agent α → Nat) {agents : List (Agent α)} {t : Nat}
    (ht : agents[t]? = some g) (g' : Agent α)
    (hsame : ∀ u k, u ≠ t → agents[u]? = some k → f' k = f k) :
    ((agents.set t g').map f').sum + f g = (agents.map f).sum + f' g' := by
  induction agents generalizing t with
  | nil => cases ht
  | cons k agents ih =>
    cases t with
    | zero =>
      obtain rfl := Option.some.inj ht
      have htail : agents.map f' = agents.map f := by
        refine List.map_congr_left fun x hx => ?_
        obtain ⟨u, hu⟩ := List.mem_iff_getElem?.1 hx
        exact hsame (u + 1) x (Nat.succ_ne_zero u) hu
      simp only [List.set_cons_zero, List.map_cons, List.sum_cons, htail]
      omega
    | succ t =>
      have hk : f' k = f k := hsame 0 k (Nat.zero_ne_add_one t) rfl
      have htail := ih ht fun u x hu hx =>
        hsame (u + 1) x (fun h => hu (Nat.succ.inj h)) hx
      simp only [List.set_cons_succ, List.map_cons, List.sum_cons, hk]
      omega

theorem le_sum_map {f : Agent α → Nat} {agents : List (Agent α)} {t : Nat}
    (ht : agents[t]? = some g) : f g ≤ (agents.map f).sum :=
  List.le_sum_of_mem (List.mem_map_of_mem (List.mem_of_getElem? ht))

/-! ## Steps -/

/-- A move changes the tally of a stack as it changes the gauge. -/
theorem Sound.tally_move (h : M.Sound) {t : Nat} (ht : M.agents[t]? = some g)
    (hm : Move M.memory g a) (hfresh : g.control.Fresh) (s : StackIndex) :
    (⟨a.memory, M.agents.set t a.agent⟩ : Machine α).tally s + g.control.loss s =
      M.tally s + g.control.gain s := by
  obtain ⟨G, hG⟩ := h.custody
  obtain ⟨G', hshift, hG'⟩ := h.custody_move ht hm hG
  have htc := inHand_eq (control?_eq ht)
  have hbefore : g.control.grip.entries M.memory = G.carried t := htc ▸ hG.entries_eq t
  have hafter : a.agent.control.grip.entries a.memory = G'.carried t := by
    rw [← hG'.entries_eq t, inHand_eq (control?_set_self ht ..)]
  have hothers : ∀ u k, u ≠ t → M.agents[u]? = some k →
      k.control.share s (k.control.grip.entries a.memory) =
        k.control.share s (k.control.grip.entries M.memory) := by
    intro u k hu hk
    have hold := hG.entries_eq u
    have hnew := hG'.entries_eq u
    rw [inHand_eq (control?_eq hk)] at hold
    rw [inHand_set ht, Function.update_of_ne hu, inHand_eq (control?_eq hk)] at hnew
    rw [hold, hnew, hshift.carried_eq hu]
  have hsum := sum_map_set _ _ ht a.agent hothers
  have hshare := hm.share_eq hG htc hshift hfresh (h.not_crashed ht hm) s
  rw [hbefore, hafter] at hsum
  simp only [tally, hG.waiting_eq, hG'.waiting_eq]
  omega

end Machine

theorem Move.gain_le (hm : Move m g a) (s : StackIndex) :
    m.births + a.agent.control.gain s ≤ a.memory.births := by
  have hle := hm.births_le
  cases hm with
  | quiet hq => cases hq <;> exact hle
  | publish hp => cases hp <;> exact hle
  | wrap =>
    simp only [Control.gain, Memory.allocate]
    split <;> omega
  | _ => exact hle

namespace Machine

variable {M M' : Machine α}

/-! ## Every gauge is its tally -/

/-- The gauges are what they stand for. -/
structure Metered (M : Machine α) : Prop where
  fresh : ∀ {t : Nat} {c : Control α}, M.control? t = some c → c.Fresh
  gauge : ∀ s, M.memory.gauge s = UInt64.ofNat (M.tally s)
  born : ∀ s, M.tally s + (M.agents.map (·.control.gain s)).sum ≤ M.memory.births

theorem Metered.move (h : M.Metered) (hsound : M.Sound) {t : Nat} (ht : M.agents[t]? = some g)
    (hm : Move M.memory g a) : (⟨a.memory, M.agents.set t a.agent⟩ : Machine α).Metered := by
  have htc : M.control? t = some g.control := control?_eq ht
  have htally := hsound.tally_move ht hm (h.fresh htc)
  refine ⟨fun {u c} hu => ?_, fun s => ?_, fun s => ?_⟩
  · rcases (control?_set_eq_some ht).1 hu with ⟨-, rfl⟩ | ⟨-, hu⟩
    · exact hm.fresh (h.fresh htc)
    · exact h.fresh hu
  · have hgauge := hm.gauge_eq (hsound.proper htc) s
    rw [h.gauge s, ← UInt64.ofNat_add, ← htally s, UInt64.ofNat_add] at hgauge
    rw [hgauge]
    exact UInt64.add_sub_cancel ..
  · have hsum := sum_map_set (fun k => k.control.gain s) _ ht a.agent fun u k _ _ => rfl
    have hborn := h.born s
    have hgain := hm.gain_le s
    have := htally s
    show Machine.tally _ s + ((M.agents.set t a.agent).map fun k => k.control.gain s).sum ≤
      a.memory.births
    omega

theorem Metered.set (h : M.Metered) {t : Nat} (ht : M.agents[t]? = some g) (g' : Agent α)
    (hfresh : g'.control.Fresh)
    (hshare : ∀ s, g'.control.share s (g'.control.grip.entries M.memory) =
      g.control.share s (g.control.grip.entries M.memory))
    (hgain : ∀ s, g'.control.gain s = g.control.gain s) :
    (⟨M.memory, M.agents.set t g'⟩ : Machine α).Metered := by
  have hsum : ∀ (f : Agent α → Nat), f g' = f g →
      ((M.agents.set t g').map f).sum = (M.agents.map f).sum := by
    intro f hf
    have := sum_map_set f f ht g' fun u k _ _ => rfl
    omega
  have htally : ∀ s, (⟨M.memory, M.agents.set t g'⟩ : Machine α).tally s = M.tally s := by
    intro s
    unfold tally
    rw [hsum _ (hshare s)]
  refine ⟨fun hu => ?_, fun s => ?_, fun s => ?_⟩
  · rcases (control?_set_eq_some ht).1 hu with ⟨-, rfl⟩ | ⟨-, hu⟩
    · exact hfresh
    · exact h.fresh hu
  · rw [htally]
    exact h.gauge s
  · rw [htally, hsum _ (hgain s)]
    exact h.born s

theorem Metered.step (h : M.Metered) (hsound : M.Sound) {act : Act α} {marks : List (Mark α)}
    (hs : Step M act M' marks) : M'.Metered := by
  cases hs with
  | @call t g command ht hc hslot hstack =>
    have hempty : ({} : Grip).entries M.memory = [] := by simp [Grip.entries]
    have hgrip : command.entry.grip = ({} : Grip) := by cases command <;> rfl
    have hunsettled : command.entry.unsettled = 0 := by cases command <;> rfl
    have hfresh : command.entry.Fresh := by
      cases command <;> first | exact ⟨rfl, rfl⟩ | trivial
    refine h.set ht (g.goTo command.entry) hfresh (fun s => ?_) fun s => ?_
    · show command.entry.share s (command.entry.grip.entries M.memory) = _
      rw [hc, hgrip, show (Control.idle : Control α).grip = {} from rfl, hempty,
        Control.share_nil s hunsettled, Control.share_nil s rfl]
    · rw [hc]
      cases command <;> rfl
  | move hact ht hm => exact h.move hsound ht hm
  | @handOver t u i g g' ht hu hne hi hc hc' =>
    have hu' : (M.agents.set t { g with held := g.held.erase i })[u]? = some g' := by
      rwa [getElem?_agents_set ht, if_neg hne.symm]
    have h₁ := h.set ht { g with held := g.held.erase i }
      (show g.control.Fresh from h.fresh (control?_eq ht)) (fun s => rfl) fun s => rfl
    exact h₁.set hu' { g' with held := i :: g'.held }
      (show g'.control.Fresh from h.fresh (control?_eq hu)) (fun s => rfl) fun s => rfl

theorem tally_of_idle (hidle : ∀ g ∈ M.agents, g.control = .idle) (s : StackIndex) :
    M.tally s = (M.memory.waiting s).length := by
  have hzero : (M.agents.map fun g =>
      g.control.share s (g.control.grip.entries M.memory)).sum = 0 := by
    refine List.sum_eq_zero fun n hn => ?_
    obtain ⟨g, hg, rfl⟩ := List.mem_map.1 hn
    rw [hidle g hg]
    rfl
  rw [tally, hzero, Nat.add_zero]

theorem metered_start (capacity count : Nat) (tokens : List Token) :
    (start capacity count tokens : Machine α).Metered := by
  have hidle : ∀ g ∈ (start capacity count tokens : Machine α).agents, g.control = .idle := by
    intro g hg
    obtain ⟨token, -, rfl⟩ := List.mem_map.1 hg
    rfl
  have htally : ∀ s, (start capacity count tokens : Machine α).tally s = 0 := by
    intro s
    rw [tally_of_idle hidle]
    simp [start, Memory.start, Memory.waiting, Memory.load, follow, List.getElem?_replicate]
  refine ⟨fun hc => ?_, fun s => ?_, fun s => ?_⟩
  · obtain rfl := control?_start hc
    trivial
  · rw [htally]
    simp only [start, Memory.gauge, Memory.start, List.getElem?_replicate]
    split <;> rfl
  · have hzero : ((start capacity count tokens : Machine α).agents.map (·.control.gain s)).sum =
        0 := by
      refine List.sum_eq_zero fun n hn => ?_
      obtain ⟨g, hg, rfl⟩ := List.mem_map.1 hn
      rw [hidle g hg]
      rfl
    rw [htally, hzero]
    exact Nat.le_refl 0

theorem Metered.of_reaches {capacity count : Nat} {tokens : List Token}
    (h : (start capacity count tokens).Reaches M) : M.Metered := by
  refine (invariant_of_step (P := fun M => M.Sound ∧ M.Metered) ?_
    ⟨sound_start .., metered_start ..⟩ h).2
  rintro M act M' marks ⟨hsound, hmetered⟩ hs
  exact ⟨hsound.step hs, hmetered.step hsound hs⟩

/-- As long as the tally fits a word, the gauge shows it. -/
theorem Metered.toNat_gauge (h : M.Metered) {s : StackIndex} (hfits : M.tally s < UInt64.size) :
    (M.memory.gauge s).toNat = M.tally s := by
  rw [h.gauge s, UInt64.toNat_ofNat', Nat.mod_eq_of_lt hfits]

theorem freed_le_tally {t : Nat} {pass : Pass α}
    (ht : M.control? t = some (.settling pass)) : pass.freed ≤ M.tally pass.stack := by
  obtain ⟨g, hg, hc⟩ := control?_eq_some.1 ht
  have hshare := le_sum_map (f := fun k =>
    k.control.share pass.stack (k.control.grip.entries M.memory)) hg
  simp only [hc, Control.share_eq (c := .settling pass) (k := pass.stack) rfl, if_true,
    Control.unsettled] at hshare
  unfold tally
  omega

end Machine

end HazardLifo.Interleaved
