import HazardLifo.Proofs.Interleaved.Move
import Mathlib.Data.List.Nodup
import Mathlib.Logic.Function.Basic

/-!
# Histories of a stack

What the clients see of a run is a history of calls and replies. `Linearizes` says that an order of
calls explains what a history shows of one stack: a sequential stack gives the same replies in this
order, and no call comes before one that was answered before it began. A stack is `Atomic` if every
operation takes effect at one instant; the order of these instants explains its history
(`Atomic.linearizable`), and each lies between call and reply (`Atomic.effect`).
-/

namespace HazardLifo.Interleaved

variable {α : Type}

/-! ## Sequential stacks -/

inductive Operation (α : Type) where
  | push (v : α)
  | pop
  deriving Repr

/-- What a sequential stack answers, and what it holds after that. -/
def Operation.apply : Operation α → List α → Reply α × List α
  | .push v, L => (.done, v :: L)
  | .pop, [] => (.empty, [])
  | .pop, v :: L => (.popped v, L)

def Command.operation? (s : StackIndex) : Command α → Option (Operation α)
  | .push s' v => if s' = s then some (.push v) else none
  | .pop s' _ => if s' = s then some .pop else none
  | _ => none

/-! ## Histories -/

/-- What is seen of one act. -/
inductive Occurrence (α : Type) where
  | silent
  | call (t : Nat) (command : Command α)
  | reply (t : Nat) (r : Reply α)
  deriving Repr

namespace Occurrence

def thread? : Occurrence α → Option Nat
  | silent => none
  | call t _ | reply t _ => some t

def ofReply? (t : Nat) : Option (Reply α) → Occurrence α
  | none => silent
  | some r => reply t r

end Occurrence

def Mark.reply? : Mark α → Option (Reply α)
  | .returned r => some r
  | _ => none

theorem Pass.reply?_marks (pass : Pass α) :
    pass.marks.findSome? Mark.reply? = some pass.reply := by
  unfold Pass.marks
  split <;> rfl

def Act.occurrence : Act α → List (Mark α) → Occurrence α
  | .call t command, _ => .call t command
  | .handOver .., _ => .silent
  | .step t, marks | .receive t _, marks | .stumble t, marks =>
    .ofReply? t (marks.findSome? Mark.reply?)

theorem Act.occurrence_of_mover? {act : Act α} {t : Nat} (h : act.mover? = some t)
    (marks : List (Mark α)) :
    act.occurrence marks = .ofReply? t (marks.findSome? Mark.reply?) := by
  cases act <;> cases h <;> rfl

namespace Machine

def history (M : Machine α) : List (Act α) → List (Occurrence α)
  | [] => []
  | act :: acts =>
    match M.act? act with
    | some (M', marks) => act.occurrence marks :: M'.history acts
    | none => []

variable {M M' : Machine α}

theorem history_append {acts : List (Act α)} (hrun : M.run? acts = some M') (acts' : List (Act α)) :
    M.history (acts ++ acts') = M.history acts ++ M'.history acts' := by
  induction acts generalizing M with
  | nil =>
    obtain rfl := Option.some.inj hrun
    rfl
  | cons act acts ih =>
    obtain ⟨M₁, marks, hact, hrun⟩ := run?_cons_eq_some.1 hrun
    simp only [List.cons_append, history, hact, ih hrun]

theorem history_concat {acts : List (Act α)} (hrun : M.run? acts = some M') {act : Act α}
    {M'' : Machine α} {marks : List (Mark α)} (hact : M'.act? act = some (M'', marks)) :
    M.history (acts ++ [act]) = M.history acts ++ [act.occurrence marks] := by
  simp only [history_append hrun, history, hact]

theorem length_history {acts : List (Act α)} (hrun : M.run? acts = some M') :
    (M.history acts).length = acts.length := by
  induction acts generalizing M with
  | nil => rfl
  | cons act acts ih =>
    obtain ⟨M₁, marks, hact, hrun⟩ := run?_cons_eq_some.1 hrun
    simp only [history, hact, List.length_cons, ih hrun]

theorem Step.exists_move_of_reply {act : Act α} {marks : List (Mark α)} (hs : Step M act M' marks)
    {t : Nat} {r : Reply α} (hx : act.occurrence marks = .reply t r) :
    act.mover? = some t ∧ ∃ g a, M.agents[t]? = some g ∧ Move M.memory g a ∧
      a.marks.findSome? Mark.reply? = some r := by
  cases hs with
  | call => cases hx
  | @move u g a act hmover hu hm =>
    rw [Act.occurrence_of_mover? hmover] at hx
    cases hr : a.marks.findSome? Mark.reply? with
    | none => rw [hr] at hx; cases hx
    | some r' =>
      rw [hr] at hx
      obtain ⟨rfl, rfl⟩ := Occurrence.reply.inj hx
      exact ⟨hmover, g, a, hu, hm, hr⟩
  | handOver => cases hx

theorem control?_of_call {act : Act α} {marks : List (Mark α)}
    (hact : M.act? act = some (M', marks)) {t : Nat} {command : Command α}
    (hx : act.occurrence marks = .call t command) : M'.control? t = some command.entry := by
  cases act?_step hact with
  | call hu =>
    obtain ⟨rfl, rfl⟩ := Occurrence.call.inj hx
    rw [control?_set_self hu]
    rfl
  | move hmover =>
    rw [Act.occurrence_of_mover? hmover] at hx
    unfold Occurrence.ofReply? at hx
    split at hx <;> cases hx
  | handOver => cases hx

theorem exists_act_of_history {acts : List (Act α)} {n : Nat} {x : Occurrence α}
    (h : (M.history acts)[n]? = some x) :
    ∃ act M₁ M₂ marks, acts[n]? = some act ∧ M.run? (acts.take n) = some M₁ ∧
      M₁.act? act = some (M₂, marks) ∧ act.occurrence marks = x := by
  induction acts generalizing M n with
  | nil => cases h
  | cons act acts ih =>
    simp only [history] at h
    split at h
    · rename_i M₁ marks hact
      cases n with
      | zero => exact ⟨act, M, M₁, marks, rfl, rfl, hact, Option.some.inj h⟩
      | succ n =>
        obtain ⟨act', M₂, M₃, marks', hn, hrun, hact', hx⟩ := ih h
        exact ⟨act', M₂, M₃, marks', hn, by simpa [run?, hact] using hrun, hact', hx⟩
    · cases h

end Machine

/-- Occurrence `n` is a call of thread `t`, which asks operation `o` of stack `s`. -/
def Calls (s : StackIndex) (h : List (Occurrence α)) (n t : Nat) (o : Operation α) : Prop :=
  ∃ command, h[n]? = some (.call t command) ∧ command.operation? s = some o

/-- Occurrence `m` is the reply that thread `t` gets to its call at `n`. -/
def Answers (h : List (Occurrence α)) (n t m : Nat) (r : Reply α) : Prop :=
  n < m ∧ h[m]? = some (.reply t r) ∧ ∀ j r', n < j → j < m → h[j]? ≠ some (.reply t r')

/-- A sequential stack with this content gives these replies to these calls. -/
def Legal (s : StackIndex) (h : List (Occurrence α)) : List α → List (Nat × Reply α) → Prop
  | _, [] => True
  | L, p :: S =>
    ∃ t o, Calls s h p.1 t o ∧ (o.apply L).1 = p.2 ∧ Legal s h (o.apply L).2 S

/-- The calls in this order, with these replies, explain what the history shows of stack `s`. A call
that has no reply yet may be among them or not. -/
structure Linearizes (s : StackIndex) (h : List (Occurrence α)) (S : List (Nat × Reply α)) :
    Prop where
  unique : (S.map Prod.fst).Nodup
  completed : ∀ {n t o m r}, Calls s h n t o → Answers h n t m r → (n, r) ∈ S
  legal : Legal s h [] S
  realTime : S.Pairwise fun p q => ∀ t m r, Answers h q.1 t m r → (∃ o, Calls s h q.1 t o) → p.1 < m

def Linearizable (s : StackIndex) (h : List (Occurrence α)) : Prop := ∃ S, Linearizes s h S

/-! ## Atomic stacks -/

/-- How far a thread is with its operation on a stack. -/
inductive Phase (α : Type) where
  | away
  | waiting (o : Operation α)
  | answered (r : Reply α)
  deriving Repr

/-- What an act means to the phase of its thread, given the operation that takes effect by it, with
its reply, and the reply that the thread gets. -/
inductive Turn : Phase α → Option (Operation α × Reply α) → Option (Reply α) → Phase α → Prop where
  | stay {φ} : Turn φ none none φ
  | effect {o r} : Turn (.waiting o) (some (o, r)) none (.answered r)
  | effectReply {o r} : Turn (.waiting o) (some (o, r)) (some r) .away
  | reply {r} : Turn (.answered r) none (some r) .away
  | other {r} : Turn .away none (some r) .away

/-- The content changes only where an operation takes effect, and as in a sequential stack. -/
def Evolves (e : Option (Operation α × Reply α)) (L L' : List α) : Prop :=
  match e with
  | none => L' = L
  | some (o, r) => o.apply L = (r, L')

/-- The histories of stack `s` when its operations take effect at one instant each, with the content
and the phases of the threads at the end. `P` is to hold of every instant at which an operation of a
thread takes effect, and of its reply. -/
inductive Atomic (s : StackIndex) (P : Nat → Nat → Operation α → Reply α → Prop) :
    List (Occurrence α) → List α → (Nat → Phase α) → Prop where
  | start : Atomic s P [] [] fun _ => .away
  | silent {h L φ} (ha : Atomic s P h L φ) : Atomic s P (h ++ [.silent]) L φ
  | call {h L φ t command} (ha : Atomic s P h L φ) (ht : φ t = .away) :
      Atomic s P (h ++ [.call t command]) L
        (Function.update φ t ((command.operation? s).elim .away .waiting))
  | turn {h L φ t e r φ' L'} (ha : Atomic s P h L φ) (hturn : Turn (φ t) e r φ')
      (hL : Evolves e L L') (he : ∀ o x, e = some (o, x) → P h.length t o x) :
      Atomic s P (h ++ [.ofReply? t r]) L' (Function.update φ t φ')

/-! ## Histories that grow -/

variable {s : StackIndex} {h : List (Occurrence α)} {x : Occurrence α} {n t m : Nat}
  {o : Operation α} {r : Reply α}

theorem getElem?_concat_eq_some {y : Occurrence α} :
    (h ++ [x])[n]? = some y ↔ h[n]? = some y ∨ n = h.length ∧ x = y := by
  rcases Nat.lt_trichotomy n h.length with hn | rfl | hn
  · simp [List.getElem?_append_left hn, Nat.ne_of_lt hn]
  · simp
  · have hlen : (h ++ [x]).length ≤ n := by
      rw [List.length_append, List.length_singleton]
      omega
    simp [List.getElem?_eq_none hlen, List.getElem?_eq_none (Nat.le_of_lt hn), Nat.ne_of_gt hn]

theorem Calls.lt (hn : Calls s h n t o) : n < h.length := by
  obtain ⟨command, hn, -⟩ := hn
  exact (List.getElem?_eq_some_iff.1 hn).1

theorem Calls.concat (hn : Calls s h n t o) : Calls s (h ++ [x]) n t o := by
  obtain ⟨command, hn, ho⟩ := hn
  exact ⟨command, getElem?_concat_eq_some.2 (.inl hn), ho⟩

theorem Calls.unique {t' : Nat} {o' : Operation α} (hn : Calls s h n t o)
    (hn' : Calls s h n t' o') : t = t' ∧ o = o' := by
  obtain ⟨command, hn, ho⟩ := hn
  obtain ⟨command', hn', ho'⟩ := hn'
  obtain ⟨rfl, rfl⟩ := Occurrence.call.inj (Option.some.inj (hn.symm.trans hn'))
  exact ⟨rfl, Option.some.inj (ho.symm.trans ho')⟩

theorem calls_concat : Calls s (h ++ [x]) n t o ↔ Calls s h n t o ∨
    n = h.length ∧ ∃ command, x = .call t command ∧ command.operation? s = some o := by
  constructor
  · rintro ⟨command, hn, ho⟩
    rcases getElem?_concat_eq_some.1 hn with hn | ⟨rfl, rfl⟩
    · exact .inl ⟨command, hn, ho⟩
    · exact .inr ⟨rfl, command, rfl, ho⟩
  · rintro (hn | ⟨rfl, command, rfl, ho⟩)
    · exact hn.concat
    · exact ⟨command, getElem?_concat_eq_some.2 (.inr ⟨rfl, rfl⟩), ho⟩

def FirstReply (h : List (Occurrence α)) (t m : Nat) (r : Reply α) : Prop :=
  h[m]? = some (.reply t r) ∧ ∀ j r', j < m → h[j]? ≠ some (.reply t r')

theorem FirstReply.cons (hm : FirstReply h t m r) (hx : ∀ r', x ≠ .reply t r') :
    FirstReply (x :: h) t (m + 1) r := by
  refine ⟨hm.1, fun j r' hj hr => ?_⟩
  cases j with
  | zero => exact hx r' (Option.some.inj hr)
  | succ j => exact hm.2 j r' (Nat.lt_of_succ_lt_succ hj) hr

theorem FirstReply.answers {h' : List (Occurrence α)} (hm : FirstReply h' t m r)
    (h : List (Occurrence α)) (x : Occurrence α) :
    Answers (h ++ x :: h') h.length t (h.length + 1 + m) r := by
  have hget : ∀ j, (h ++ x :: h')[h.length + 1 + j]? = h'[j]? := fun j => by
    rw [List.getElem?_append_right (by omega), show h.length + 1 + j - h.length = j + 1 by omega,
      List.getElem?_cons_succ]
  refine ⟨by omega, (hget m).trans hm.1, fun j r' hj hjm hr => ?_⟩
  obtain ⟨l, rfl⟩ : ∃ l, j = h.length + 1 + l := ⟨j - (h.length + 1), by omega⟩
  exact hm.2 l r' (by omega) ((hget l).symm.trans hr)

/-- Thread `t` has called at `n` and got no reply since. -/
def Open (s : StackIndex) (h : List (Occurrence α)) (t n : Nat) : Prop :=
  (∃ o, Calls s h n t o) ∧ ∀ m r, n < m → h[m]? ≠ some (.reply t r)

theorem Open.of_concat (hn : Open s (h ++ [x]) t n) :
    (Open s h t n ∧ ∀ r, x ≠ .reply t r) ∨
      n = h.length ∧ ∃ command o, x = .call t command ∧ command.operation? s = some o := by
  obtain ⟨⟨o, hcall⟩, hopen⟩ := hn
  rcases calls_concat.1 hcall with hcall | ⟨rfl, command, rfl, ho⟩
  · refine .inl ⟨⟨⟨o, hcall⟩, fun m r hm hr => ?_⟩, fun r hx => ?_⟩
    · exact hopen m r hm (getElem?_concat_eq_some.2 (.inl hr))
    · exact hopen h.length r hcall.lt (getElem?_concat_eq_some.2 (.inr ⟨rfl, hx⟩))
  · exact .inr ⟨rfl, command, o, rfl, ho⟩

theorem Answers.of_concat (hm : Answers (h ++ [x]) n t m r) (hn : Calls s (h ++ [x]) n t o) :
    (Calls s h n t o ∧ Answers h n t m r) ∨ m = h.length ∧ x = .reply t r ∧ Open s h t n := by
  obtain ⟨hlt, hr, hfirst⟩ := hm
  have hbefore : ∀ j r', n < j → j < m → h[j]? ≠ some (.reply t r') := fun j r' hj hj' hjr =>
    hfirst j r' hj hj' (getElem?_concat_eq_some.2 (.inl hjr))
  rcases calls_concat.1 hn with hn | ⟨rfl, -⟩
  · rcases getElem?_concat_eq_some.1 hr with hr | ⟨rfl, hx⟩
    · exact .inl ⟨hn, hlt, hr, hbefore⟩
    · refine .inr ⟨rfl, hx, ⟨o, hn⟩, fun j r' hj hjr => ?_⟩
      exact hbefore j r' hj (List.getElem?_eq_some_iff.1 hjr).1 hjr
  · -- a call at the end has no reply yet
    rcases getElem?_concat_eq_some.1 hr with hr | ⟨rfl, -⟩
    · exact absurd (List.getElem?_eq_some_iff.1 hr).1 (by omega)
    · exact absurd hlt (Nat.lt_irrefl _)

/-! ## Ledgers -/

structure Entry (α : Type) where
  call : Nat
  instant : Nat
  thread : Nat
  operation : Operation α
  reply : Reply α

/-- A sequential stack goes through these operations from one content to another. -/
def Replays : List α → List (Entry α) → List α → Prop
  | L, [], L' => L = L'
  | L, c :: C, L' => (c.operation.apply L).1 = c.reply ∧ Replays (c.operation.apply L).2 C L'

/-- What a ledger has of the one call that a thread may have open. -/
def Phase.Fits (s : StackIndex) (h : List (Occurrence α)) (C : List (Entry α)) (t : Nat) :
    Phase α → Prop
  | .away => ∀ n, ¬ Open s h t n
  | .waiting o => ∃ n, Calls s h n t o ∧ (∀ c ∈ C, c.call ≠ n) ∧ ∀ n', Open s h t n' → n' = n
  | .answered r => ∃ c ∈ C, c.thread = t ∧ c.reply = r ∧ ∀ n', Open s h t n' → n' = c.call

/-- The operations that have taken effect, in order, all of them before instant `N`. -/
structure Ledger (s : StackIndex) (P : Nat → Nat → Operation α → Reply α → Prop)
    (h : List (Occurrence α)) (N : Nat) (L : List α) (φ : Nat → Phase α) (C : List (Entry α)) :
    Prop where
  calls : ∀ {c}, c ∈ C → Calls s h c.call c.thread c.operation
  instants : ∀ {c}, c ∈ C → c.call < c.instant ∧ c.instant < N
  effects : ∀ {c}, c ∈ C → P c.instant c.thread c.operation c.reply
  ordered : C.Pairwise fun c d => c.instant < d.instant
  unique : (C.map (·.call)).Nodup
  replays : Replays [] C L
  fits : ∀ t, (φ t).Fits s h C t
  completed : ∀ {n t o m r}, Calls s h n t o → Answers h n t m r →
    ∃ c ∈ C, c.call = n ∧ c.reply = r ∧ c.instant ≤ m

theorem Replays.concat {L L' L'' : List α} {C : List (Entry α)} {c : Entry α}
    (hC : Replays L C L') (hc : c.operation.apply L' = (c.reply, L'')) :
    Replays L (C ++ [c]) L'' := by
  induction C generalizing L with
  | nil =>
    obtain rfl : L = L' := hC
    exact ⟨by rw [hc], by rw [hc]; rfl⟩
  | cons d C ih => exact ⟨hC.1, ih hC.2⟩

theorem Replays.legal {L L' : List α} {C : List (Entry α)} (hC : Replays L C L')
    (hcalls : ∀ c ∈ C, Calls s h c.call c.thread c.operation) :
    Legal s h L (C.map fun c => (c.call, c.reply)) := by
  induction C generalizing L with
  | nil => trivial
  | cons c C ih =>
    exact ⟨c.thread, c.operation, hcalls c (by simp), hC.1,
      ih hC.2 fun d hd => hcalls d (List.mem_cons_of_mem _ hd)⟩

namespace Phase.Fits

variable {C : List (Entry α)} {φ : Phase α}

theorem concat (hφ : φ.Fits s h C t) (hx : x.thread? ≠ some t) : φ.Fits s (h ++ [x]) C t := by
  have hopen : ∀ {n}, Open s (h ++ [x]) t n → Open s h t n := fun hn => by
    rcases hn.of_concat with hn | ⟨-, command, o, rfl, -⟩
    · exact hn.1
    · exact absurd rfl hx
  cases φ with
  | away => exact fun n hn => hφ n (hopen hn)
  | waiting o =>
    obtain ⟨n, hn, hC, hunique⟩ := hφ
    exact ⟨n, hn.concat, hC, fun n' hn' => hunique n' (hopen hn')⟩
  | answered r =>
    obtain ⟨c, hc, ht, hr, hunique⟩ := hφ
    exact ⟨c, hc, ht, hr, fun n' hn' => hunique n' (hopen hn')⟩

theorem record (hφ : φ.Fits s h C t) {c : Entry α} (hc : Calls s h c.call c.thread c.operation)
    (hne : c.thread ≠ t) : φ.Fits s h (C ++ [c]) t := by
  cases φ with
  | away => exact hφ
  | waiting o =>
    obtain ⟨n, hn, hC, hunique⟩ := hφ
    refine ⟨n, hn, fun d hd => ?_, hunique⟩
    rcases List.mem_append.1 hd with hd | hd
    · exact hC d hd
    · obtain rfl := List.mem_singleton.1 hd
      rintro rfl
      exact hne (hc.unique hn).1
  | answered r =>
    obtain ⟨d, hd, hφ⟩ := hφ
    exact ⟨d, List.mem_append_left _ hd, hφ⟩

theorem reply (s : StackIndex) (h : List (Occurrence α)) (C : List (Entry α)) (t : Nat)
    (r : Reply α) : (Phase.away : Phase α).Fits s (h ++ [.reply t r]) C t := by
  intro n hn
  rcases hn.of_concat with ⟨-, hx⟩ | ⟨-, command, o, hx, -⟩
  · exact hx r rfl
  · cases hx

end Phase.Fits

namespace Ledger

variable {P : Nat → Nat → Operation α → Reply α → Prop} {N : Nat} {L L' : List α}
  {φ : Nat → Phase α} {C : List (Entry α)}

theorem start : Ledger s P [] 0 [] (fun _ => .away) [] where
  calls := nofun
  instants := nofun
  effects := nofun
  ordered := .nil
  unique := List.nodup_nil
  replays := rfl
  fits t n hn := by
    obtain ⟨⟨o, hn⟩, -⟩ := hn
    exact absurd hn.lt (Nat.not_lt_zero n)
  completed hn := absurd hn.lt (Nat.not_lt_zero _)

/-- The waiting operation of a thread takes effect. -/
theorem record (hl : Ledger s P h h.length L φ C) (ht : φ t = .waiting o)
    (ho : o.apply L = (r, L')) (hP : P h.length t o r) :
    ∃ C', Ledger s P h (h.length + 1) L' (Function.update φ t (.answered r)) C' := by
  have hfits := hl.fits t
  rw [ht] at hfits
  obtain ⟨n, hn, hC, hunique⟩ := hfits
  let c : Entry α := ⟨n, h.length, t, o, r⟩
  have hmem : ∀ {d}, d ∈ C ++ [c] → d ∈ C ∨ d = c := fun hd => by simpa using hd
  refine ⟨C ++ [c], ?_, ?_, ?_, ?_, ?_, hl.replays.concat ho, fun u => ?_, fun hn hm => ?_⟩
  · intro d hd
    rcases hmem hd with hd | rfl
    · exact hl.calls hd
    · exact hn
  · intro d hd
    rcases hmem hd with hd | rfl
    · have := hl.instants hd
      omega
    · exact ⟨hn.lt, Nat.lt_succ_self _⟩
  · intro d hd
    rcases hmem hd with hd | rfl
    · exact hl.effects hd
    · exact hP
  · refine List.pairwise_append.2 ⟨hl.ordered, List.pairwise_singleton .., fun d hd e he => ?_⟩
    obtain rfl := List.mem_singleton.1 he
    exact (hl.instants hd).2
  · rw [List.map_append, List.map_singleton]
    refine List.nodup_append'.2 ⟨hl.unique, List.nodup_singleton _, fun n' hn' hc => ?_⟩
    obtain ⟨d, hd, rfl⟩ := List.mem_map.1 hn'
    exact hC d hd (List.mem_singleton.1 hc)
  · rw [Function.update_apply]
    split
    · rename_i hu
      subst hu
      exact ⟨c, by simp, rfl, rfl, hunique⟩
    · rename_i hu
      exact (hl.fits u).record hn (Ne.symm hu)
  · obtain ⟨d, hd, hdn⟩ := hl.completed hn hm
    exact ⟨d, List.mem_append_left _ hd, hdn⟩

/-- An occurrence is added to the history. -/
theorem concat (hl : Ledger s P h N L φ C) (hN : N ≤ h.length + 1)
    {φ' : Phase α} (hx : ∀ u, x.thread? = some u → u = t)
    (hfits : φ'.Fits s (h ++ [x]) C t)
    (hreply : ∀ r, x = .reply t r → ∀ n, Open s h t n → ∃ c ∈ C, c.call = n ∧ c.reply = r) :
    Ledger s P (h ++ [x]) (h.length + 1) L (Function.update φ t φ') C where
  calls hc := (hl.calls hc).concat
  instants hc := by
    have := hl.instants hc
    omega
  effects := hl.effects
  ordered := hl.ordered
  unique := hl.unique
  replays := hl.replays
  fits u := by
    rw [Function.update_apply]
    split
    · rename_i hu
      exact hu ▸ hfits
    · rename_i hu
      exact (hl.fits u).concat fun hxu => hu (hx u hxu)
  completed hn hm := by
    rcases hm.of_concat hn with ⟨hn, hm⟩ | ⟨rfl, rfl, hopen⟩
    · exact hl.completed hn hm
    · obtain rfl := hx _ rfl
      obtain ⟨c, hc, hcn, hcr⟩ := hreply _ rfl _ hopen
      exact ⟨c, hc, hcn, hcr, Nat.le_of_lt_succ (Nat.lt_of_lt_of_le (hl.instants hc).2 hN)⟩

theorem silent (hl : Ledger s P h N L φ C) (hN : N ≤ h.length + 1) :
    Ledger s P (h ++ [.silent]) (h.length + 1) L φ C := by
  have := hl.concat (x := .silent) (t := 0) hN nofun ((hl.fits 0).concat nofun) nofun
  rwa [Function.update_eq_self] at this

theorem reply (hl : Ledger s P h N L φ C) (hN : N ≤ h.length + 1)
    (ht : φ t = .answered r ∨ φ t = .away) :
    Ledger s P (h ++ [.reply t r]) (h.length + 1) L (Function.update φ t .away) C := by
  refine hl.concat hN (fun u hu => (Option.some.inj hu).symm) (.reply s h C t r)
    fun r' hr n hn => ?_
  obtain ⟨-, rfl⟩ := Occurrence.reply.inj hr
  have hfits := hl.fits t
  rcases ht with ht | ht <;> rw [ht] at hfits
  · obtain ⟨c, hc, -, hcr, hunique⟩ := hfits
    exact ⟨c, hc, (hunique n hn).symm, hcr⟩
  · exact absurd hn (hfits n)

theorem call (hl : Ledger s P h h.length L φ C) (ht : φ t = .away) (command : Command α) :
    Ledger s P (h ++ [.call t command]) (h.length + 1) L
      (Function.update φ t ((command.operation? s).elim .away .waiting)) C := by
  have hfits := hl.fits t
  rw [ht] at hfits
  refine hl.concat (Nat.le_succ _) (fun u hu => (Option.some.inj hu).symm) ?_
    (fun r hr => by cases hr)
  have hopen : ∀ {n}, Open s (h ++ [.call t command]) t n →
      n = h.length ∧ ∃ o, command.operation? s = some o := fun {n} hn => by
    rcases hn.of_concat with ⟨hn, -⟩ | ⟨hn, command', o, hc, ho⟩
    · exact absurd hn (hfits n)
    · obtain ⟨-, rfl⟩ := Occurrence.call.inj hc
      exact ⟨hn, o, ho⟩
  cases ho : command.operation? s with
  | none =>
    intro n hn
    obtain ⟨-, o, ho'⟩ := hopen hn
    simp [ho] at ho'
  | some o =>
    refine ⟨h.length, calls_concat.2 (.inr ⟨rfl, command, rfl, ho⟩), fun c hc => ?_,
      fun n hn => (hopen hn).1⟩
    exact Nat.ne_of_lt (hl.calls hc).lt

end Ledger

/-! ## Atomic stacks are linearizable -/

namespace Atomic

variable {P : Nat → Nat → Operation α → Reply α → Prop} {L : List α} {φ : Nat → Phase α}

theorem ledger (ha : Atomic s P h L φ) : ∃ C, Ledger s P h h.length L φ C := by
  induction ha with
  | start => exact ⟨[], .start⟩
  | silent ha ih =>
    obtain ⟨C, hl⟩ := ih
    rw [List.length_append]
    exact ⟨C, hl.silent (Nat.le_succ _)⟩
  | @call h L φ t command ha ht ih =>
    obtain ⟨C, hl⟩ := ih
    rw [List.length_append]
    exact ⟨C, hl.call ht command⟩
  | @turn h L φ t e r φ' L' ha hturn hL he ih =>
    obtain ⟨C, hl⟩ := ih
    rw [List.length_append]
    generalize hφ : φ t = φt at hturn
    cases hturn with
    | stay =>
      obtain rfl : L' = L := hL
      subst hφ
      rw [Function.update_eq_self]
      exact ⟨C, hl.silent (Nat.le_succ _)⟩
    | effect =>
      obtain ⟨C', hl'⟩ := hl.record hφ hL (he _ _ rfl)
      exact ⟨C', hl'.silent (Nat.le_refl _)⟩
    | effectReply =>
      obtain ⟨C', hl'⟩ := hl.record hφ hL (he _ _ rfl)
      have hl'' := hl'.reply (Nat.le_refl _) (.inl (Function.update_self ..))
      rw [Function.update_idem] at hl''
      exact ⟨C', hl''⟩
    | reply =>
      obtain rfl : L' = L := hL
      exact ⟨C, hl.reply (Nat.le_succ _) (.inl hφ)⟩
    | other =>
      obtain rfl : L' = L := hL
      exact ⟨C, hl.reply (Nat.le_succ _) (.inr hφ)⟩

/-- An operation that was answered has taken effect since its call, with this reply. -/
theorem effect (ha : Atomic s P h L φ) (hn : Calls s h n t o) (hm : Answers h n t m r) :
    ∃ k, n < k ∧ k ≤ m ∧ P k t o r := by
  obtain ⟨C, hl⟩ := ha.ledger
  obtain ⟨c, hc, rfl, rfl, hle⟩ := hl.completed hn hm
  obtain ⟨rfl, rfl⟩ := hn.unique (hl.calls hc)
  exact ⟨c.instant, (hl.instants hc).1, hle, hl.effects hc⟩

/-- The order in which the operations take effect explains the history. -/
theorem linearizable (ha : Atomic s P h L φ) : Linearizable s h := by
  obtain ⟨C, hl⟩ := ha.ledger
  refine ⟨C.map fun c => (c.call, c.reply), ?_, fun hn hm => ?_, ?_, ?_⟩
  · simpa [List.map_map, Function.comp_def] using hl.unique
  · obtain ⟨c, hc, rfl, rfl, -⟩ := hl.completed hn hm
    exact List.mem_map_of_mem hc
  · exact hl.replays.legal fun c hc => hl.calls hc
  · refine List.pairwise_map.2 (hl.ordered.imp_of_mem fun {c d} hc hd hcd t m r hm ⟨o, hn⟩ => ?_)
    -- the reply to `d` comes after `d` took effect, and so after `c` was called
    obtain ⟨d', hd', hcall, -, hle⟩ := hl.completed hn hm
    obtain rfl : d' = d := List.inj_on_of_nodup_map hl.unique hd' hd hcall
    exact Nat.lt_of_lt_of_le (Nat.lt_trans (hl.instants hc).1 hcd) hle

end Atomic

end HazardLifo.Interleaved
