import HazardLifo.Proofs.Interleaved.Layout

/-!
# Who keeps each block

A layout that fits the memory still fits after every move, in a way that `Shift` describes
(`Custody.move`), as long as a pop knows the link of the node that it unlinks. So what a thread
reads, overwrites or frees is there and is its own.
-/

namespace HazardLifo.Interleaved

variable {α : Type}

/-! ## Operations that make sense -/

/-- An errand links its block where it belongs. -/
def Errand.Suits (w : Anchor) : Errand α → Prop
  | .push => ∃ s, w = .top s
  | .retire s _ => w = .limbo s
  | .defer pass _ => w = .limbo pass.stack

namespace Control

def stack? : Control α → Option StackIndex
  | .making s _ | .locating s _ | .guarding s _ _ | .validating s _ _ | .following s _ _
  | .unlinking s _ _ _ | .clearing s _ _ | .taking s _ | .scanning s _ _ _ | .freeing s _ _
  | .wrapping s _ _ | .counting s _ _ _ => some s
  | .loading w _ _ | .linking w _ _ _ | .swinging w _ _ _ => some w.stack
  | .peeking pass | .detaching pass | .walking pass _ | .opening pass _ _
  | .inspecting pass _ _ _ _ | .unwrapping pass _ _ _ | .burying pass _ _ | .settling pass =>
    some pass.stack
  | _ => none

def Suited : Control α → Prop
  | .loading w _ errand | .linking w _ _ errand | .swinging w _ _ errand => errand.Suits w
  | _ => True

/-- The operation works on one of `count` stacks, and links blocks where they belong. -/
def Proper (count : Nat) (c : Control α) : Prop := (∀ s, c.stack? = some s → s < count) ∧ c.Suited

end Control

variable {m : Memory α} {g : Agent α} {a : Advance α}

theorem Move.length_words (h : Move m g a) : a.memory.words.length = m.words.length := by
  cases h <;> simp [Memory.mapGauge, Memory.mapTable, Memory.allocate, Memory.free]

theorem Move.proper (h : Move m g a) {count : Nat} (hc : g.control.Proper count) :
    a.agent.control.Proper count := by
  obtain ⟨hstack, hsuits⟩ := hc
  cases h with
  | quiet h =>
    cases h with
    | keep => exact ⟨hstack, rfl⟩
    | _ => first | exact ⟨hstack, hsuits⟩ | exact ⟨nofun, trivial⟩
  | publish h => cases h <;> first | exact ⟨hstack, hsuits⟩ | exact ⟨nofun, trivial⟩
  | retire h =>
    obtain rfl : _ = Anchor.limbo _ := hsuits
    exact ⟨hstack, trivial⟩
  | defer h =>
    obtain rfl : _ = Anchor.limbo _ := hsuits
    exact ⟨hstack, trivial⟩
  | count => exact ⟨hstack, rfl⟩
  | make => exact ⟨hstack, _, rfl⟩
  | _ => first | exact ⟨hstack, hsuits⟩ | exact ⟨nofun, trivial⟩

/-! ## How a move changes the layout -/

/-- In what capacity a thread has blocks in hand. -/
inductive Role where
  | idle
  | pushing
  | popping
  | retiring
  | walking
  | handling
  | burying
  deriving DecidableEq

def Errand.role : Errand α → Role
  | .push => .pushing
  | .retire _ _ => .retiring
  | .defer _ _ => .handling

def Control.role : Control α → Role
  | .loading _ _ errand | .linking _ _ _ errand | .swinging _ _ _ errand => errand.role
  | .clearing _ _ (some _) | .taking _ _ | .scanning _ _ _ _ | .freeing _ _ _ | .wrapping _ _ _ =>
    .popping
  | .counting _ _ _ _ => .retiring
  | .walking _ _ => .walking
  | .opening _ _ _ | .inspecting _ _ _ _ _ | .unwrapping _ _ _ _ => .handling
  | .burying _ _ _ => .burying
  | _ => .idle

/-- The ways in which a move of thread `t` changes a layout. -/
inductive Shift (t : Nat) (G : Layout α) : Control α → Control α → Layout α → Prop where
  | stay {c c'} (h : c'.role = c.role) : Shift t G c c' G
  | make {s v b} : Shift t G (.making s v) (.loading (.top s) b .push) (G.hold t (some b) [])
  | link {s b seen v} (h : G.loose t = some b) :
      Shift t G (.swinging (.top s) b seen .push) .idle (G.link t s b v)
  | unlink {s i b next v rest} (h : G.linked s = (b, v) :: rest) :
      Shift t G (.unlinking s i b next) (.clearing s i (some b)) (G.unlink t s b rest)
  | free {s b v pass} (h : G.loose t = some b) (hc : G.carried t = []) :
      Shift t G (.freeing s b v) (.peeking pass) (G.hold t none [])
  | wrap {s n e v} (h : G.loose t = some n) (hc : G.carried t = []) :
      Shift t G (.wrapping s n v) (.counting s n e v) (G.hold t none [(e, n)])
  | retire {s e n seen v pass} (h : G.carried t = [(e, n)]) :
      Shift t G (.swinging (.limbo s) e seen (.retire s v)) (.peeking pass)
        (G.shelve t s (e, n) [])
  | detach {pass link} (h : G.carried t = []) :
      Shift t G (.detaching pass) (.walking pass link) (G.detach t pass.stack)
  | finish {pass} (h : G.carried t = []) : Shift t G (.walking pass none) (.settling pass) G
  | walk {pass e n rest tail} (h : G.carried t = (e, n) :: tail) :
      Shift t G (.walking pass (some e)) (.opening pass e rest) G
  | defer {pass pass' e n seen rest tail} (h : G.carried t = (e, n) :: tail) :
      Shift t G (.swinging (.limbo pass.stack) e seen (.defer pass rest)) (.walking pass' rest)
        (G.shelve t pass.stack (e, n) tail)
  | unwrap {pass e n rest tail} (h : G.carried t = (e, n) :: tail) (hl : G.loose t = none) :
      Shift t G (.unwrapping pass e rest n) (.burying pass rest n) (G.hold t (some n) tail)
  | bury {pass pass' rest b} (h : G.loose t = some b) :
      Shift t G (.burying pass rest b) (.walking pass' rest) (G.hold t none (G.carried t))

variable {grip : Nat → Grip} {G : Layout α} {t : Nat}

theorem Quiet.shift {token : Token} {c c' : Control α} {marks : List (Mark α)}
    (hq : Quiet m token c c' marks) (h : Custody m grip G) (hγ : grip t = c.grip) :
    Shift t G c c' G ∧ c'.grip.Fits m (G.loose t) (G.carried t) := by
  have hfits : c.grip.Fits m (G.loose t) (G.carried t) := hγ ▸ h.hands t
  cases hq with
  | @relink w b seen errand =>
    refine ⟨.stay rfl, ?_⟩
    cases errand <;> exact hfits.forget
  | finish => exact ⟨.finish (Chain.eq_nil hfits.carries), hfits⟩
  | @walk pass e b rest he =>
    obtain ⟨n, next, tail, hcarried, hentry, hrest⟩ := Chain.exists_cons hfits.carries
    rw [Memory.wrapped?_eq_some, he] at hentry
    obtain ⟨rfl, rfl⟩ := Object.entry.inj (Option.some.inj hentry)
    refine ⟨.walk hcarried, hfits.loose_eq, nofun, ?_⟩
    exact ⟨b, rest, tail, hcarried, he, nofun, fun x hx => Option.some.inj hx, hrest⟩
  | @openEntry pass e rest b rest' he =>
    obtain ⟨n, next, tail, hcarried, hentry, -, haim, hrest⟩ := hfits.carries
    refine ⟨.stay rfl, hfits.loose_eq, nofun, n, next, tail, hcarried, hentry, ?_, haim, hrest⟩
    rw [he] at hentry
    obtain ⟨rfl, rfl⟩ := Object.entry.inj (Option.some.inj hentry)
    exact fun x hx => Option.some.inj hx
  | keep => exact ⟨.stay rfl, hfits.forget⟩
  | _ => exact ⟨.stay rfl, hfits⟩

theorem Publishing.grip_eq {i : Nat} {b : Address} {c c' : Control α} {marks : List (Mark α)}
    (h : Publishing i c b c' marks) : c'.grip = c.grip ∧ c'.role = c.role := by
  cases h <;> exact ⟨rfl, rfl⟩

/-- Only a thread on its way to unlink a node can lose its way. -/
theorem Lost.eq_following {c : Control α} (hl : Lost m c) (h : Custody m grip G)
    (hγ : grip t = c.grip) :
    ∃ s i b, c = .following s i b ∧ ∀ v next, m.object? b ≠ some (.node v next) := by
  have hfits : c.grip.Fits m (G.loose t) (G.carried t) := hγ ▸ h.hands t
  cases hl with
  | @linking w b seen errand hb =>
    cases errand with
    | push =>
      obtain ⟨v, next, hobj, -⟩ := hfits.node rfl
      simp [hb] at hobj
    | _ =>
      obtain ⟨n, next, tail, -, hobj, -⟩ := hfits.carries
      simp [hb] at hobj
  | @following s i b hb => exact ⟨s, i, b, rfl, hb⟩
  | taking hb =>
    obtain ⟨v, next, hobj, hfull, -⟩ := hfits.node rfl
    obtain ⟨v, rfl⟩ := Option.isSome_iff_exists.1 hfull
    exact absurd hobj (hb v next)
  | freeing hb | burying hb =>
    obtain ⟨v, next, hobj, -⟩ := hfits.node rfl
    exact absurd hobj (hb v next)
  | walking he =>
    obtain ⟨n, next, tail, -, hentry, -⟩ := Chain.exists_cons hfits.carries
    exact absurd (Memory.wrapped?_eq_some.1 hentry) (he n next)
  | opening he | unwrapping he =>
    obtain ⟨n, next, tail, -, hobj, -⟩ := hfits.carries
    exact absurd hobj (he n next)

namespace Custody

/-! ## What a thread touches -/

theorem mem_of_node (h : Custody m grip G) {γ : Grip} (hγ : grip t = γ) {b : Block} {full : Bool}
    (hb : γ.node = some (b, full)) : b ∈ G.blocks (.thread t) := by
  simp [Layout.blocks, Layout.nodes, h.loose_eq hγ, hb]

theorem mem_of_entry (h : Custody m grip G) {γ : Grip} (hγ : grip t = γ) {e : Block}
    {known : Option Block} (he : γ.entry = some (e, known)) :
    e ∈ G.blocks (.thread t) ∧ ∀ n, known = some n → n ∈ G.blocks (.thread t) := by
  have hc := h.carries hγ
  unfold Grip.Carries at hc
  rw [he] at hc
  obtain ⟨n, next, tail, htail, -, hknown, -⟩ := hc
  refine ⟨by simp [Layout.blocks, Layout.entries, htail], fun n' hn' => ?_⟩
  obtain rfl := hknown n' hn'
  simp [Layout.blocks, Layout.entries, htail]

end Custody

/-- A move leaves alone what its thread does not have in hand. -/
theorem Move.getElem?_heap_eq (hm : Move m g a) (h : Custody m grip G)
    (hγ : grip t = g.control.grip) {b : Block} (hb : b ∉ G.blocks (.thread t))
    (hsome : (m.heap[b]?).isSome) : a.memory.heap[b]? = m.heap[b]? := by
  have hne : ∀ {b'}, b' ∈ G.blocks (.thread t) → b' ≠ b := fun hb' hbb => hb (hbb ▸ hb')
  cases hm with
  | aimNode | aimEntry =>
    rename_i errand _ _ _
    rw [Memory.getElem?_heap_overwrite, if_neg]
    cases errand with
    | push => exact hne (h.mem_of_node hγ rfl)
    | _ => exact hne (h.mem_of_entry hγ rfl).1
  | take => rw [Memory.getElem?_heap_overwrite, if_neg (hne (h.mem_of_node hγ rfl))]
  | free | bury => rw [Memory.getElem?_heap_free, if_neg (hne (h.mem_of_node hγ rfl))]
  | unwrap => rw [Memory.getElem?_heap_free, if_neg (hne (h.mem_of_entry hγ rfl).1)]
  | make hnew | wrap hnew =>
    rw [Memory.getElem?_heap_allocate, if_neg]
    rintro rfl
    simp [hnew] at hsome
  | _ => simp [Memory.mapTable, Memory.mapGauge]

namespace Custody

/-! ## One move -/

theorem aimNode (h : Custody m grip G) {w : Anchor} {b : Block} {seen : Option Block}
    {errand : Errand α} {v : Option α} {next : Option Block}
    (hγ : grip t = errand.grip b) (hb : m.object? b = some (.node v next)) :
    ∃ G', Shift t G (.linking w b seen errand) (.swinging w b seen errand) G' ∧
      Custody (m.overwrite b (.node v seen))
        (Function.update grip t { errand.grip b with aim := some seen }) G' := by
  have hfits : (errand.grip b).Fits m (G.loose t) (G.carried t) := hγ ▸ h.hands t
  cases errand with
  | push =>
    have hloose : G.loose t = some b := hfits.loose_eq
    obtain ⟨v', next', hb', hfull, -⟩ := hfits.node rfl
    obtain ⟨rfl, rfl⟩ := Object.node.inj (Option.some.inj (hb.symm.trans hb'))
    refine ⟨G, .stay rfl, h.overwrite ?_ (fun k p hp => (h.ne_of_loose hloose hp).2) ?_⟩
    · simp [Layout.blocks, Layout.nodes, hloose]
    · refine ⟨hloose, fun hnode => ?_, hfits.carries.congr fun p hp => ?_⟩
      · obtain ⟨rfl, rfl⟩ := Prod.mk.inj (Option.some.inj hnode)
        exact ⟨v, seen, by simp [Memory.object?_overwrite, hb], hfull,
          fun x hx => Option.some.inj hx⟩
      · rw [Memory.object?_overwrite, if_neg]
        exact fun hpb => (h.ne_of_loose hloose (k := .thread t) hp).1 hpb.symm
  | _ =>
    obtain ⟨n, next, tail, -, hobj, -⟩ := hfits.carries
    simp [hb] at hobj

/-- A thread that is about to put an entry into limbo aims it. -/
theorem aimEntry (h : Custody m grip G) {w : Anchor} {e : Block} {seen : Option Block}
    {errand : Errand α} {n : Block} {next : Option Block}
    (hγ : grip t = errand.grip e) (he : m.object? e = some (.entry n next)) :
    ∃ G', Shift t G (.linking w e seen errand) (.swinging w e seen errand) G' ∧
      Custody (m.overwrite e (.entry n seen))
        (Function.update grip t { errand.grip e with aim := some seen }) G' := by
  have hfits : (errand.grip e).Fits m (G.loose t) (G.carried t) := hγ ▸ h.hands t
  have haimed : ∀ {rest}, (∃ n' next' tail, G.carried t = (e, n') :: tail ∧
      m.object? e = some (.entry n' next') ∧ Chain m.wrapped? rest tail) →
      G.loose t = none → Custody (m.overwrite e (.entry n seen))
        (Function.update grip t { entry := some (e, none), aim := some seen, rest := rest }) G := by
    intro rest hcarry hloose
    obtain ⟨n', next', tail, hcarried, he', hrest⟩ := hcarry
    obtain ⟨rfl, rfl⟩ := Object.entry.inj (Option.some.inj (he.symm.trans he'))
    have hnodup := h.partition.nodup (.thread t)
    simp only [Layout.blocks, Layout.nodes, Layout.entries, hloose, hcarried, unpack_cons,
      Option.toList_none, List.nil_append] at hnodup
    refine h.overwrite ?_ (fun k p hp => h.ne_of_entry he hp) ⟨hloose, by simp, ?_⟩
    · simp [Layout.blocks, Layout.entries, hcarried]
    · refine ⟨n, seen, tail, hcarried, by simp [Memory.object?_overwrite, he], by simp,
        fun x hx => Option.some.inj hx, hrest.congr fun p hp => Memory.wrapped?_congr ?_⟩
      rw [Memory.object?_overwrite, if_neg]
      rintro rfl
      refine (List.nodup_cons.1 hnodup).1 (List.mem_cons_of_mem _ (mem_unpack.2 ⟨p, hp, .inl rfl⟩))
  cases errand with
  | push =>
    obtain ⟨v, next', hb, -⟩ := hfits.node rfl
    simp [he] at hb
  | retire s v =>
    obtain ⟨n', next', tail, hcarried, he', -, -, hrest⟩ := hfits.carries
    exact ⟨G, .stay rfl, haimed ⟨n', next', tail, hcarried, he', hrest⟩ hfits.loose_eq⟩
  | defer pass rest =>
    obtain ⟨n', next', tail, hcarried, he', -, -, hrest⟩ := hfits.carries
    exact ⟨G, .stay rfl, haimed ⟨n', next', tail, hcarried, he', hrest⟩ hfits.loose_eq⟩

/-- A layout that fits still fits after a move. -/
theorem move (h : Custody m grip G) (hγ : grip t = g.control.grip)
    (hproper : g.control.Proper m.words.length)
    (hnext : ∀ s i b next, g.control = .unlinking s i b next →
      ∀ v x, m.node? b = some (v, x) → next = x) (hm : Move m g a) :
    ∃ G', Shift t G g.control a.agent.control G' ∧
      Custody a.memory (Function.update grip t a.agent.control.grip) G' := by
  have hfits : g.control.grip.Fits m (G.loose t) (G.carried t) := hγ ▸ h.hands t
  cases hm with
  | quiet hq =>
    obtain ⟨hshift, hfits'⟩ := hq.shift h hγ
    exact ⟨G, hshift, h.keep rfl (fun _ => rfl) hfits'⟩
  | publish hp =>
    refine ⟨G, .stay hp.grip_eq.2, h.keep rfl (fun w => ?_) (hp.grip_eq.1 ▸ hfits)⟩
    exact Memory.load_mapTable ..
  | claim => exact ⟨G, .stay rfl, h.keep rfl (fun w => Memory.load_mapTable ..) hfits⟩
  | disown => exact ⟨G, .stay rfl, h.keep rfl (fun w => Memory.load_mapTable ..) hfits⟩
  | push hw =>
    obtain ⟨s, rfl⟩ : ∃ s, _ = Anchor.top s := hproper.2
    subst hw
    obtain ⟨v, -, hc⟩ := h.link (hproper.1 _ rfl) hγ
    exact ⟨_, .link (h.loose_eq hγ), hc⟩
  | retire hw =>
    obtain rfl : _ = Anchor.limbo _ := hproper.2
    subst hw
    obtain ⟨n, tail, hcarried, hrest, hc⟩ := h.shelve (hproper.1 _ rfl) hγ
    obtain rfl := Chain.eq_nil hrest
    exact ⟨_, .retire hcarried, hc⟩
  | defer hw =>
    obtain rfl : _ = Anchor.limbo _ := hproper.2
    subst hw
    obtain ⟨n, tail, hcarried, -, hc⟩ := h.shelve (hproper.1 _ rfl) hγ
    exact ⟨_, .defer hcarried, hc⟩
  | unlink htop =>
    obtain ⟨v, rest, hlinked, hc⟩ := h.unlink (hproper.1 _ rfl) hγ htop (hnext _ _ _ _ rfl)
    exact ⟨_, .unlink hlinked, hc⟩
  | detach =>
    exact ⟨_, .detach (Chain.eq_nil (h.carries hγ)), h.detach (hproper.1 _ rfl) hγ⟩
  | count =>
    refine ⟨G, .stay rfl, h.keep rfl (fun w => Memory.load_mapGauge ..) ?_⟩
    exact hfits.forget
  | settle => exact ⟨G, .stay rfl, h.keep rfl (fun w => Memory.load_mapGauge ..) hfits⟩
  | @aimNode token held w b seen errand v next hb => exact h.aimNode hγ hb
  | @aimEntry token held w e seen errand n next he => exact h.aimEntry hγ he
  | @take token held s b v next hb =>
    have hloose : G.loose t = some b := hfits.loose_eq
    refine ⟨G, .stay rfl, h.overwrite ?_ (fun k p hp => (h.ne_of_loose hloose hp).2) ?_⟩
    · simp [Layout.blocks, Layout.nodes, hloose]
    · refine ⟨hloose, fun hnode => ?_, hfits.carries.congr fun p hp => ?_⟩
      · obtain ⟨rfl, rfl⟩ := Prod.mk.inj (Option.some.inj hnode)
        exact ⟨none, next, by simp [Memory.object?_overwrite, hb], rfl, fun x hx => by cases hx⟩
      · rw [Memory.object?_overwrite, if_neg]
        exact fun hpb => (h.ne_of_loose hloose (k := .thread t) hp).1 hpb.symm
  | @free token held s b v v' next hb =>
    have hloose : G.loose t = some b := hfits.loose_eq
    have hcarried : G.carried t = [] := Chain.eq_nil hfits.carries
    refine ⟨_, .free hloose hcarried, h.free ?_ (by simp) (Grip.fits_empty m)⟩
    simp [Layout.blocks, Layout.nodes, Layout.entries, hloose, hcarried]
  | @unwrap token held pass e rest b n next he =>
    obtain ⟨n', next', tail, hcarried, -, hknown, -, hrest⟩ := hfits.carries
    obtain rfl := hknown b rfl
    have hloose : G.loose t = none := hfits.loose_eq
    have hentry : (e, n') ∈ G.entries (.thread t) := by simp [Layout.entries, hcarried]
    refine ⟨_, .unwrap hcarried hloose, h.free ?_ (fun p hp => by simp [hcarried, hp]) ?_⟩
    · simp [Layout.blocks, Layout.nodes, Layout.entries, hloose, hcarried]
    · refine ⟨rfl, fun hnode => ?_, hrest⟩
      obtain ⟨rfl, rfl⟩ := Prod.mk.inj (Option.some.inj hnode)
      obtain ⟨x, hx⟩ := h.spent hentry
      exact ⟨none, x, hx, rfl, fun x hx => by cases hx⟩
  | @bury token held pass rest b v next hb =>
    have hloose : G.loose t = some b := hfits.loose_eq
    refine ⟨_, .bury hloose, h.free ?_ (fun p hp => hp)
      ⟨rfl, fun hnode => (by cases hnode), hfits.carries⟩⟩
    simp [Layout.blocks, Layout.nodes, Layout.entries, hloose]
  | @make token held s v b hb =>
    have hloose : G.loose t = none := hfits.loose_eq
    have hcarried : G.carried t = [] := Chain.eq_nil hfits.carries
    refine ⟨_, .make, h.allocate hb ?_ (by simp) ⟨rfl, fun hnode => ?_, rfl⟩⟩
    · simp [Layout.blocks, Layout.nodes, Layout.entries, hloose, hcarried]
    · obtain ⟨rfl, rfl⟩ := Prod.mk.inj (Option.some.inj hnode)
      exact ⟨some v, none, by simp [Memory.object?_allocate], rfl, fun x hx => by cases hx⟩
  | @wrap token held s n v e he =>
    have hloose : G.loose t = some n := hfits.loose_eq
    have hcarried : G.carried t = [] := Chain.eq_nil hfits.carries
    obtain ⟨v', next, hn, hfull, -⟩ := hfits.node rfl
    obtain rfl : v' = none := by simpa using hfull
    refine ⟨_, .wrap hloose hcarried, h.allocate he ?_ (by simp [hn])
      ⟨rfl, fun hnode => (by cases hnode), ?_⟩⟩
    · simp [Layout.blocks, Layout.nodes, Layout.entries, hloose, hcarried]
    · refine ⟨n, none, [], rfl, by simp [Memory.object?_allocate], ?_,
        fun n' hn' => (by cases hn'), rfl⟩
      exact fun x hx => Option.some.inj hx
  | crash hl =>
    obtain ⟨s, i, b, rfl, -⟩ := hl.eq_following h hγ
    exact ⟨G, .stay rfl, h.keep rfl (fun _ => rfl) hfits⟩

end Custody

/-! ## Machines -/

namespace Machine

def inHand (M : Machine α) (t : Nat) : Grip := ((M.control? t).map (·.grip)).getD {}

theorem inHand_eq {M : Machine α} {t : Nat} {c : Control α} (h : M.control? t = some c) :
    M.inHand t = c.grip := by
  simp [inHand, h]

theorem inHand_set {M : Machine α} {t : Nat} (ht : M.agents[t]? = some g) (m : Memory α)
    (g' : Agent α) : (⟨m, M.agents.set t g'⟩ : Machine α).inHand =
      Function.update M.inHand t g'.control.grip := by
  funext u
  simp only [inHand, control?_set ht, Function.update_apply]
  split <;> rfl

theorem inHand_call {M : Machine α} {t : Nat} (ht : M.agents[t]? = some g) (hc : g.control = .idle)
    (command : Command α) :
    (⟨M.memory, M.agents.set t (g.goTo command.entry)⟩ : Machine α).inHand = M.inHand := by
  rw [inHand_set ht, show (g.goTo command.entry).control.grip = {} by cases command <;> rfl]
  refine Function.update_eq_self_iff.2 ?_
  rw [inHand_eq (control?_eq_some.2 ⟨g, ht, hc⟩)]
  rfl

end Machine

end HazardLifo.Interleaved
