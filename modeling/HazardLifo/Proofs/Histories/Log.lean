import HazardLifo.Proofs.Histories.Bounds
import HazardLifo.Proofs.Histories.Dealings
import HazardLifo.Proofs.Histories.Reclamation
import Mathlib.Algebra.GroupWithZero.Nat

/-!
# The log of a run

Claims and returns of slots take turns in the log, which is the matter of `Dealings`. The other
notices are reports. `Sound.reports` says what each operation reports: a pop that returns a value
and a reclaim report what became of the limbo (`limboReport`), an attempt to acquire that fails
reports its table, and nothing else is reported. Summed up over a run, what retirements and passes
report is how many nodes wait in limbo (`Op.balance_after`).
-/

namespace HazardLifo

variable {α : Type}

/-! ## Reports -/

def Event.notice? : Event α → Option Notice
  | .notice n => some n
  | _ => none

def logOf (events : List (Event α)) : List Notice := events.filterMap Event.notice?

namespace Notice

def ofSlot : Notice → Bool
  | .claimed .. | .released .. => true
  | _ => false

/-- A failed attempt to acquire: the table, the token, and the capacity. -/
def refusal? : Notice → Option (TableId × Token × Nat)
  | .exhausted T k c => some (T, k, c)
  | _ => none

def retired? (s : StackId) : Notice → Option Block
  | .retired s' b => if s' = s then some b else none
  | _ => none

/-- A reclaim pass of stack `s`: how many nodes it freed and how many it left. -/
def pass? (s : StackId) : Notice → Option (Nat × Nat)
  | .swept s' freed deferred => if s' = s then some (freed, deferred) else none
  | _ => none

end Notice

def refusals (log : List Notice) : List (TableId × Token × Nat) := log.filterMap Notice.refusal?

def retirements (s : StackId) (log : List Notice) : List Block := log.filterMap (Notice.retired? s)

def passes (s : StackId) (log : List Notice) : List (Nat × Nat) := log.filterMap (Notice.pass? s)

def reportsIn (events : List (Event α)) : List Notice := (logOf events).filter (!·.ofSlot)

theorem logOf_append (events events' : List (Event α)) :
    logOf (events ++ events') = logOf events ++ logOf events' := List.filterMap_append

theorem reportsIn_append (events events' : List (Event α)) :
    reportsIn (events ++ events') = reportsIn events ++ reportsIn events' := by
  rw [reportsIn, logOf_append, List.filter_append]
  rfl

def Silent (events : List (Event α)) : Prop := reportsIn events = []

theorem Silent.append {events events' : List (Event α)} (h : Silent events) (h' : Silent events') :
    Silent (events ++ events') := by
  rw [Silent, reportsIn_append, h, h']
  rfl

theorem silent_nil : Silent ([] : List (Event α)) := rfl

theorem silent_of_forall {events : List (Event α)}
    (h : ∀ e ∈ events, ∀ n, e.notice? = some n → n.ofSlot = true) : Silent events := by
  rw [Silent, reportsIn, List.filter_eq_nil_iff]
  intro n hn
  obtain ⟨e, he, heq⟩ := List.mem_filterMap.1 hn
  simp [h e he n heq]

theorem silent_map_freed (s : StackId) (bs : List Block) :
    Silent (bs.map (.freed s) : List (Event α)) := silent_of_forall fun e he n hn => by
  obtain ⟨b, -, rfl⟩ := List.mem_map.1 he
  cases hn

theorem State.silent_farewells (σ : State α) (hs : List Handle) : Silent (hs.map σ.farewell) :=
  silent_of_forall fun e he n hn => by
    obtain ⟨h, -, rfl⟩ := List.mem_map.1 he
    cases hn
    rfl

theorem State.silent_closeCache {σ : State α} {t : ThreadId}
    (hn : ((σ.cache t).handles.map (·.table)).Nodup) : Silent (closeCache t σ).events := by
  rw [closeCache_events hn]
  exact σ.silent_farewells _

theorem State.silent_arrival (σ : State α) (t : ThreadId) (own : Handle) (k : Token) :
    Silent (σ.arrival t own k) := by
  unfold arrival
  split <;> rfl

theorem State.silent_departure (σ : State α) (t : ThreadId) (own : Handle) (k : Token) :
    Silent (σ.departure t own k) := by
  unfold departure
  split <;> rfl

theorem State.silent_dismantle [Disposable α] (s : StackId) (nodes : List (Node α)) :
    Silent (dismantle s nodes).1 := by
  induction nodes with
  | nil => rfl
  | cons node rest ih =>
    cases hf : Disposable.fault? node.value with
    | some message =>
      simp only [dismantle, hf]
      rfl
    | none =>
      simp only [dismantle, hf]
      exact ih

/-- What is reported of a pass over the nodes that wait: nothing, if none do. -/
def passReport (s : StackId) (published : Block → Bool) (waiting : List Block) : List Notice :=
  if waiting = [] then []
  else [.swept s (waiting.filter (!published ·)).length (waiting.filter published).length]

/-- What a stack reports when `gone` are popped from it and `entries` wait already: the nodes that
it retires, and the pass that follows. -/
def limboReport (s : StackId) (published : Block → Bool) (gone entries : List Block) : List Notice :=
  (gone.filter published).map (.retired s) ++ passReport s published (gone.filter published ++ entries)

theorem Limbo.reportsIn_sweepEvents (s : StackId) (published : Block → Bool) (L : Limbo) :
    reportsIn (L.sweepEvents s published : List (Event α)) = passReport s published L.entries := by
  rw [passReport, sweepEvents]
  split
  · rfl
  · rw [reportsIn_append, silent_map_freed, sweep_eq, List.length_reverse]
    rfl

theorem State.reportsIn_popEvents (s : StackId) (published : Block → Bool) (stack : Stack α) (b : Block) :
    reportsIn (popEvents s published stack b) = limboReport s published [b] stack.limbo.entries := by
  have hcons : ∀ (e : Event α) events, reportsIn (e :: events) = reportsIn [e] ++ reportsIn events :=
    fun e events => reportsIn_append [e] events
  rw [popEvents, hcons, Limbo.reportsIn_sweepEvents, Limbo.intake, limboReport]
  cases hb : published b with
  | true =>
    rw [List.filter_cons_of_pos hb]
    rfl
  | false =>
    rw [List.filter_cons_of_neg (by rw [hb]; exact Bool.false_ne_true)]
    rfl

/-! ## What one operation reports -/

open State Op

/-- The operation attempts to acquire a slot of the table, or may have to. -/
def Deed.Asks (d : Deed α) (T : TableId) : Prop :=
  (∃ t n, d.op = .acquire t T n) ∨
    ∃ t s stack, d.op = .pop t s ∧ d.before.lifos.get? s = some stack ∧ stack.table = T

inductive Deed.Reports (d : Deed α) : List Notice → Prop
  | nothing (idle : ∀ s, d.Tends s → d.before.lifos.get? s = none)
    (answer : ∀ c, d.answer ≠ .failed (.pop (.exhausted c))) : Reports d []
  | refused (T : TableId) (shared : SharedTable) (k : Token) (asks : d.Asks T)
    (there : d.before.tables.get? T = some shared)
    (answer : d.answer = .failed (.pop (.exhausted shared.slots.capacity))) :
    Reports d [.exhausted T k shared.slots.capacity]
  | tended (s : StackId) (stack : Stack α) (tends : d.Tends s)
    (there : d.before.lifos.get? s = some stack)
    (answer : ∀ c, d.answer ≠ .failed (.pop (.exhausted c))) :
    Reports d (limboReport s (d.cleared.published stack.table) (d.poppedFrom s) stack.limbo.entries)

def Op.Reporting : Op α → Prop
  | .pop .. | .popWith .. | .reclaim .. | .acquire .. => True
  | _ => False

namespace Deed

variable {d : Deed α} {s s' : StackId}

theorem Tends.reporting (h : d.Tends s) : d.op.Reporting := by
  rcases h with ⟨t, v, hop, -⟩ | ⟨n, v, hop, -⟩ | hop <;> rw [hop] <;> trivial

theorem Tends.unique (h : d.Tends s) (h' : d.Tends s') : s = s' := by
  rcases h with ⟨t, v, hop, -⟩ | ⟨n, v, hop, -⟩ | hop <;>
    rcases h' with ⟨t', v', hop', -⟩ | ⟨n', v', hop', -⟩ | hop' <;>
      cases hop.symm.trans hop' <;> rfl

end Deed

section

variable [Disposable α] {σ σ' : State α} {sign : HandleId → Token} {shown : HandleId → Address}
  {op : Op α} {t : ThreadId} {s : StackId} {stack : Stack α} {events : List (Event α)}
  {answer : Answer α}

theorem Deed.Reports.of_silent (hrun : (op.deed σ).outcome = ⟨σ', events, answer⟩)
    (hop : ¬op.Reporting) (hanswer : ∀ c, answer ≠ .failed (.pop (.exhausted c)))
    (hevents : Silent events) : (op.deed σ).Reports (reportsIn (op.deed σ).events) := by
  rw [Deed.events, hrun, hevents]
  refine .nothing (fun s hs => absurd hs.reporting hop) ?_
  rw [Deed.answer, hrun]
  exact hanswer

theorem Deed.Reports.of_failed (hrun : (op.deed σ).outcome = ⟨σ', [], answer⟩)
    (hop : ∀ s, op ≠ .reclaim s) (hfailed : ∃ f, answer = .failed f ∧ ∀ e, f ≠ .pop e) :
    (op.deed σ).Reports (reportsIn (op.deed σ).events) := by
  obtain ⟨f, rfl, hf⟩ := hfailed
  have hanswer : (op.deed σ).answer = .failed f := congrArg Outcome.value hrun
  rw [Deed.events, hrun]
  refine .nothing (fun s hs => ?_) fun c hc => hf _ (Answer.failed.inj (hanswer.symm.trans hc))
  rcases hs with ⟨t, v, -, hv⟩ | ⟨n, v, -, hv⟩ | hreclaim
  · cases hanswer.symm.trans hv
  · cases hanswer.symm.trans hv
  · exact absurd hreclaim (hop s)

/-- A pop that goes through a handle, after whatever the thread did for it. -/
theorem Deed.Reports.of_popping {τ : State α} {stack' : Stack α} {pre mid post : List (Event α)}
    {value : Except Failure α}
    (hrun : (op.deed σ).outcome = ⟨τ, pre ++ mid ++ post, .ofExcept .popped value⟩)
    (hop : (∃ t, op = .pop t s) ∨ ∃ n, op = .popWith s n) (hs : σ.lifos.get? s = some stack)
    (hpre : Silent pre) (hpost : Silent post) (hvalue : value = firstOf stack.content)
    (hp : Popping s ((op.deed σ).cleared.published stack.table) stack stack' mid value) :
    (op.deed σ).Reports (reportsIn (op.deed σ).events) := by
  have hevents : reportsIn (op.deed σ).events = reportsIn mid := by
    rw [Deed.events, hrun, reportsIn_append, reportsIn_append, hpre, hpost, List.nil_append,
      List.append_nil]
  have hanswer : (op.deed σ).answer = .ofExcept .popped value := congrArg Outcome.value hrun
  rw [hevents]
  cases hp with
  | empty =>
    refine .nothing (fun s' hs' => ?_) fun c hc => by cases hanswer.symm.trans hc
    rcases hs' with ⟨t, v, -, hv⟩ | ⟨n, v, -, hv⟩ | hreclaim
    · cases hanswer.symm.trans hv
    · cases hanswer.symm.trans hv
    · rcases hop with ⟨t, rfl⟩ | ⟨n, rfl⟩ <;> cases hreclaim
  | exhausted c =>
    exact absurd (congrArg (Answer.ofExcept .popped) hvalue.symm) (answer_firstOf_ne_exhausted _ c)
  | popped node rest hn =>
    have htends : (op.deed σ).Tends s := by
      rcases hop with ⟨t, rfl⟩ | ⟨n, rfl⟩
      · exact .inl ⟨t, _, rfl, hanswer⟩
      · exact .inr (.inl ⟨n, _, rfl, hanswer⟩)
    have hpopped : (op.deed σ).poppedFrom s = [node.block] := by
      have hwork : (op.deed σ).work = .popped s node.value := by
        rw [Deed.work, hanswer]
        rcases hop with ⟨t, rfl⟩ | ⟨n, rfl⟩ <;> rfl
      rw [Deed.poppedFrom, Effect.popped_eq (.inr ⟨node, rfl, hwork⟩) hs hn, onStack_self]
      rfl
    rw [reportsIn_popEvents, ← hpopped]
    exact .tended s stack htends hs fun c hc => by cases hanswer.symm.trans hc

theorem State.Sound.reports_pop (h : Sound σ sign shown)
    (hn : ∀ t, ((σ.cache t).handles.map (·.table)).Nodup) (t : ThreadId) (s : StackId) :
    ((Op.pop t s).deed σ).Reports (reportsIn ((Op.pop t s).deed σ).events) := by
  have hout := outcome_pop t s σ
  have hanswer := answer_pop t s σ
  rcases pop_cases σ t s with ⟨-, hr⟩ | ⟨stack, thread, hs, ht⟩
  · rw [hr] at hout
    exact .of_failed hout (by rintro s ⟨⟩) ⟨_, rfl, by rintro e ⟨⟩⟩
  · rcases h.popsSo hs ht (hn t) with ⟨c, hv, -, k, hseen⟩ | ⟨own, new, k, τ, hpass⟩
    · obtain ⟨⟨shared, hT⟩, hrefs⟩ := h.table_of_stack hs
      obtain rfl : c = shared.slots.capacity := by
        obtain ⟨hstarved, hfed⟩ := value_pop hs ht hT hrefs
        by_cases hfull : σ.Starved t stack.table shared.slots
        · simpa using hv.symm.trans (hstarved hfull)
        · have hfirst := congrArg (Answer.ofExcept .popped) ((hfed hfull).symm.trans hv)
          exact absurd hfirst (answer_firstOf_ne_exhausted _ c)
      have hreports : reportsIn ((Op.pop t s).deed σ).events =
          [.exhausted stack.table k shared.slots.capacity] := by
        rw [Deed.events, hout, hseen, reportsIn_append, silent_farewells]
        rfl
      rw [hv] at hanswer
      rw [hreports]
      exact .refused stack.table shared k (.inr ⟨t, s, stack, rfl, hs, rfl⟩) hT hanswer
    · obtain ⟨stack', mid, hp, hstate, hevents⟩ := hpass.popping
      have hcleared : ((Op.pop t s).deed σ).cleared.published = σ.published :=
        cleared_pop hs (h.served ht)
      rw [← hcleared] at hp
      rw [hstate, hevents] at hout
      exact .of_popping hout (.inl ⟨t, rfl⟩) hs
        ((σ.silent_farewells _).append (σ.silent_arrival t own k)) (σ.silent_departure t own k)
        hpass.value hp

theorem reports_popWith (σ : State α) (s : StackId) (n : HandleId) :
    ((Op.popWith s n).deed σ).Reports (reportsIn ((Op.popWith s n).deed σ).events) := by
  rcases popWith_cases σ s n with ⟨-, hr⟩ | ⟨stack, handle, -, -, -, hr⟩ |
    ⟨stack, handle, stack', mid, value, hs, hn, hT, hrun, hp⟩
  · exact .of_failed (deed_eq rfl hr) (by rintro s ⟨⟩) ⟨_, rfl, by rintro e ⟨⟩⟩
  · exact .of_failed (deed_eq rfl hr) (by rintro s ⟨⟩) ⟨_, rfl, by rintro e ⟨⟩⟩
  · have hout : ((Op.popWith s n).deed σ).outcome = _ := deed_eq rfl hrun
    have hvalue : value = firstOf stack.content := by
      have hpop := popWith_eq hs hn
      rw [if_pos hT, hrun] at hpop
      exact (congrArg Outcome.value hpop).trans (value_popThrough handle hs)
    have hcleared : ((Op.popWith s n).deed σ).cleared = σ.silence handle := by
      simp only [Deed.cleared, Deed.popper, op_deed, before_deed, hn]
    rw [← hcleared] at hp
    rw [← List.nil_append mid, ← List.append_nil ([] ++ mid)] at hout
    exact .of_popping hout (.inr ⟨n, rfl⟩) hs silent_nil silent_nil hvalue hp

theorem reports_reclaim (σ : State α) (s : StackId) :
    ((Op.reclaim s).deed σ).Reports (reportsIn ((Op.reclaim s).deed σ).events) := by
  rcases reclaim_cases σ s with ⟨hnone, hr⟩ | ⟨stack, count, hs, hrun⟩
  · have hout : ((Op.reclaim s).deed σ).outcome = _ := deed_eq rfl hr
    rw [Deed.events, hout]
    refine .nothing (fun s' hs' => ?_) fun c hc => by rw [Deed.answer, hout] at hc; cases hc
    have htends : ((Op.reclaim s).deed σ).Tends s := .inr (.inr rfl)
    rw [hs'.unique htends]
    exact hnone
  · have hout : ((Op.reclaim s).deed σ).outcome = _ := deed_eq rfl hrun
    have hpopped : ((Op.reclaim s).deed σ).poppedFrom s = [] := by
      rw [Deed.poppedFrom, Deed.popped, Deed.work, Deed.answer, hout]
      rfl
    rw [Deed.events, hout, Limbo.reportsIn_sweepEvents]
    have htended := Deed.Reports.tended (d := (Op.reclaim s).deed σ) s stack (.inr (.inr rfl)) hs
      fun c hc => by rw [Deed.answer, hout] at hc; cases hc
    rw [hpopped] at htended
    exact htended

theorem reports_acquire (σ : State α) (t : ThreadId) (T : TableId) (n : HandleId) :
    ((Op.acquire t T n).deed σ).Reports (reportsIn ((Op.acquire t T n).deed σ).events) := by
  have hidle : ∀ s, ((Op.acquire t T n).deed σ).Tends s → σ.lifos.get? s = none := fun s hs => by
    rcases hs with ⟨t, v, hop, -⟩ | ⟨n, v, hop, -⟩ | hop <;> cases hop
  rcases acquire_cases σ t T n with ⟨-, hr⟩ | ⟨thread, ht, hT, -, hrun⟩
  · exact .of_failed (deed_eq rfl hr) (by rintro s ⟨⟩) ⟨_, rfl, by rintro e ⟨⟩⟩
  · obtain ⟨shared, hT⟩ := Option.isSome_iff_exists.1 hT
    obtain ⟨k, last, -, ⟨-, hclaim⟩ | ⟨i, slots, -, hclaim⟩⟩ := claim_eq ht hT <;> rw [hclaim] at hrun
    · have hout : ((Op.acquire t T n).deed σ).outcome = _ := deed_eq rfl hrun
      rw [Deed.events, hout]
      refine .refused T shared k (.inl ⟨t, n, rfl⟩) hT ?_
      rw [Deed.answer, hout]
      rfl
    · have hout : ((Op.acquire t T n).deed σ).outcome = _ := deed_eq rfl hrun
      rw [Deed.events, hout]
      exact .nothing hidle fun c hc => by rw [Deed.answer, hout] at hc; cases hc

/-- Only pops, reclaims and attempts to acquire report anything. -/
theorem State.Sound.reports (h : Sound σ sign shown)
    (hn : ∀ t, ((σ.cache t).handles.map (·.table)).Nodup) (op : Op α) :
    (op.deed σ).Reports (reportsIn (op.deed σ).events) := by
  cases op with
  | newTable T c =>
    have hrun := newTable_eq σ T c
    split at hrun
    · exact .of_silent (deed_eq rfl hrun) id nofun silent_nil
    · split at hrun <;> exact .of_silent (deed_eq rfl hrun) id nofun silent_nil
  | shareTable T =>
    rcases shareTable_cases σ T with ⟨-, hr⟩ | ⟨-, hr⟩ <;>
      exact .of_silent (deed_eq rfl hr) id nofun silent_nil
  | dropTable T =>
    rcases dropTable_cases σ T with ⟨-, hr⟩ | ⟨-, hr⟩ <;>
      exact .of_silent (deed_eq rfl hr) id nofun silent_nil
  | newStack s T =>
    rcases newStack_cases σ s T with ⟨-, hr⟩ | ⟨-, -, hr⟩ <;>
      exact .of_silent (deed_eq rfl hr) id nofun silent_nil
  | newStackOwning s T c =>
    have hrun := newStackOwning_eq σ s T c
    split at hrun
    · exact .of_silent (deed_eq rfl hrun) id nofun silent_nil
    · split at hrun <;> exact .of_silent (deed_eq rfl hrun) id nofun silent_nil
  | dropStack s =>
    rcases dropStack_cases σ s with ⟨-, hr⟩ | ⟨stack, result, -, hresult, hr⟩
    · exact .of_silent (deed_eq rfl hr) id nofun silent_nil
    · refine .of_silent (deed_eq rfl hr) id ?_
        ((silent_dismantle s stack.nodes).append (silent_map_freed s _))
      rcases hresult with rfl | ⟨f, rfl⟩ <;> nofun
  | push s b v =>
    rcases push_cases σ s b v with ⟨-, hr⟩ | ⟨stack, -, -, hr⟩ <;>
      exact .of_silent (deed_eq rfl hr) id nofun silent_nil
  | pop t s => exact h.reports_pop hn t s
  | popWith s n => exact reports_popWith σ s n
  | reclaim s => exact reports_reclaim σ s
  | acquire t T n => exact reports_acquire σ t T n
  | release n =>
    rcases release_cases σ n with ⟨-, hr⟩ | ⟨handle, -, hr⟩ <;>
      exact .of_silent (deed_eq rfl hr) id nofun rfl
  | publish n a =>
    rcases publish_cases σ n a with ⟨-, hr⟩ | ⟨handle, -, hr⟩ <;>
      exact .of_silent (deed_eq rfl hr) id nofun silent_nil
  | startThread t =>
    rcases startThread_cases σ t with ⟨-, hr⟩ | ⟨-, hr⟩ <;>
      exact .of_silent (deed_eq rfl hr) id nofun silent_nil
  | hookExit t =>
    rcases hookExit_cases σ t with ⟨-, hr⟩ | ⟨thread, first, -, hr⟩ <;>
      exact .of_silent (deed_eq rfl hr) id nofun silent_nil
  | beginExit t =>
    rcases beginExit_cases σ t with ⟨-, hr⟩ | ⟨thread, -, ⟨-, hr⟩ | hr⟩
    · exact .of_silent (deed_eq rfl hr) id nofun silent_nil
    · exact .of_silent (deed_eq rfl hr) id nofun silent_nil
    · exact .of_silent (deed_eq rfl hr) id nofun (silent_closeCache (hn t))
  | endThread t =>
    rcases endThread_cases σ t with ⟨-, hr⟩ | ⟨thread, -, hr⟩
    · exact .of_silent (deed_eq rfl hr) id nofun silent_nil
    · exact .of_silent (deed_eq rfl hr) id nofun (silent_closeCache (hn t))

end

/-! ## What is read off the reports -/

section

variable {β : Type}

theorem filterMap_logOf {f : Notice → Option β} (hf : ∀ n, n.ofSlot = true → f n = none)
    (events : List (Event α)) : (logOf events).filterMap f = (reportsIn events).filterMap f := by
  rw [reportsIn, List.filterMap_filter]
  refine List.filterMap_congr fun n _ => ?_
  cases hn : n.ofSlot with
  | true => rw [hf n hn]; rfl
  | false => rfl

theorem refusals_logOf (events : List (Event α)) :
    refusals (logOf events) = refusals (reportsIn events) :=
  filterMap_logOf (fun n hn => by cases n <;> trivial) events

theorem retirements_logOf (s : StackId) (events : List (Event α)) :
    retirements s (logOf events) = retirements s (reportsIn events) :=
  filterMap_logOf (fun n hn => by cases n <;> trivial) events

theorem passes_logOf (s : StackId) (events : List (Event α)) :
    passes s (logOf events) = passes s (reportsIn events) :=
  filterMap_logOf (fun n hn => by cases n <;> trivial) events

end

section

variable (s s' : StackId) (published : Block → Bool) (gone entries waiting : List Block)

theorem filterMap_retired {β : Type} {f : Notice → Option β} (hf : ∀ b, f (.retired s b) = none)
    (bs : List Block) : (bs.map (.retired s)).filterMap f = [] := by
  rw [List.filterMap_map]
  exact List.filterMap_eq_nil_iff.2 fun b _ => hf b

theorem refusals_limboReport : refusals (limboReport s published gone entries) = [] := by
  rw [refusals, limboReport, List.filterMap_append, filterMap_retired s fun _ => rfl, passReport]
  split <;> rfl

theorem retirements_limboReport : retirements s' (limboReport s published gone entries) =
    if s = s' then gone.filter published else [] := by
  have hpass : retirements s' (passReport s published (gone.filter published ++ entries)) = [] := by
    rw [passReport]
    split <;> rfl
  have hnodes : retirements s' ((gone.filter published).map (.retired s)) =
      if s = s' then gone.filter published else [] := by
    rw [retirements]
    split
    · rename_i heq
      rw [List.filterMap_map]
      refine (List.filterMap_congr fun b _ => ?_).trans List.filterMap_some
      rw [Function.comp_apply, Notice.retired?, if_pos heq]
    · rename_i hne
      exact filterMap_retired s (fun b => by rw [Notice.retired?, if_neg hne]) _
  rw [limboReport, retirements, List.filterMap_append]
  exact (congrArg₂ _ hnodes hpass).trans (List.append_nil _)

theorem passes_limboReport : passes s' (limboReport s published gone entries) =
    if s = s' ∧ gone.filter published ++ entries ≠ [] then
      [(((gone.filter published ++ entries).filter (!published ·)).length,
        ((gone.filter published ++ entries).filter published).length)]
    else [] := by
  rw [passes, limboReport, List.filterMap_append, filterMap_retired s fun _ => rfl, List.nil_append,
    passReport]
  by_cases hs : s = s' <;> by_cases hw : gone.filter published ++ entries = [] <;>
    simp [hs, hw, Notice.pass?]

end

/-! ## What an operation logs -/

def State.retiredLen (σ : State α) (s : StackId) : Nat :=
  (σ.lifos.get? s).elim 0 (·.limbo.gauge.toNat)

theorem Op.retiredLen_after [Disposable α] (ops : List (Op α)) (s : StackId) :
    (after ops).retiredLen s = ((after ops).limboOf s).length := by
  rw [retiredLen, limboOf]
  cases hs : (after ops).lifos.get? s with
  | none => rfl
  | some stack =>
    obtain ⟨sign, shown, hsound, -⟩ := sound_after ops
    obtain ⟨⟨shared, hT⟩, -⟩ := hsound.table_of_stack hs
    have hbounded := bounded_after ops
    exact (Limbo.Within.of_counted (hbounded.counted s stack hs) (hbounded.sized _ shared hT)
      (hbounded.bounded s stack shared hs hT) (nodup_limbo (nodup_blocks ops) hs)).counted

/-- The nodes in the limbo of the stack when a pass over it begins: those in limbo before the
operation, and the one that the operation retires. -/
def Deed.waiting (s : StackId) (d : Deed α) : List Block :=
  retirements s (logOf d.events) ++ d.before.limboOf s

/-- What an operation logs besides claims and returns of slots. -/
structure Deed.Logs (d : Deed α) : Prop where
  /-- A failed attempt to acquire is logged once, with the capacity of the table. -/
  refused : ∀ c, d.answer = .failed (.pop (.exhausted c)) →
    ∃ T shared k, d.Asks T ∧ d.before.tables.get? T = some shared ∧ shared.slots.capacity = c ∧
      refusals (logOf d.events) = [(T, k, c)]
  unrefused : (∀ c, d.answer ≠ .failed (.pop (.exhausted c))) → refusals (logOf d.events) = []
  /-- A popped node is retired unless it is freed at once. -/
  retired : ∀ s, retirements s (logOf d.events) = (d.poppedFrom s).filter (· ∉ d.freedOf s)
  /-- A pass is logged if any node waits, with the numbers of those freed and of those left. -/
  passed : ∀ s, d.Tends s → passes s (logOf d.events) =
    if d.waiting s = [] then []
    else [(((d.waiting s).filter (· ∈ d.freedOf s)).length, d.after.retiredLen s)]
  unpassed : ∀ s, ¬d.Tends s → passes s (logOf d.events) = []

namespace Deed

variable {d : Deed α} {s : StackId}

theorem poppedFrom_eq_nil (h : d.Tends s → d.before.lifos.get? s = none) : d.poppedFrom s = [] := by
  unfold poppedFrom popped
  split
  · rename_i s' v hwork
    by_cases heq : s' = s
    · subst heq
      obtain ⟨hv, ⟨t, ht⟩ | ⟨n, hn⟩⟩ := work_eq_popped hwork
      · rw [nodesOf, h (.inl ⟨t, v, ht, hv⟩)]
        rfl
      · rw [nodesOf, h (.inr (.inl ⟨n, v, hn, hv⟩))]
        rfl
    · refine List.map_eq_nil_iff.2 (List.eq_nil_iff_forall_not_mem.2 fun node hnode => ?_)
      obtain ⟨top, -, htop⟩ := List.mem_map.1 (mem_onStack_iff.1 hnode)
      exact heq (Prod.mk.inj htop).1
  · rfl

theorem Asks.not_tends {T : TableId} {e : PopError} (h : d.Asks T)
    (hanswer : d.answer = .failed (.pop e)) : ¬d.Tends s := by
  rintro (⟨t, v, -, hv⟩ | ⟨n, v, -, hv⟩ | hop)
  · cases hanswer.symm.trans hv
  · cases hanswer.symm.trans hv
  · rcases h with ⟨t, n, hask⟩ | ⟨t, s', stack, hask, -⟩ <;> cases hop.symm.trans hask

theorem filter_freed {p : Block → Bool} {bs some : List Block} (h : some ⊆ bs) :
    some.filter (· ∈ bs.filter (!p ·)) = some.filter (!p ·) ∧
      some.filter (· ∉ bs.filter (!p ·)) = some.filter p := by
  constructor <;> refine List.filter_congr fun b hb => ?_ <;>
    cases hp : p b <;> simp [List.mem_filter, h hb, hp]

/-- The reports of an operation, read as what it logs. -/
theorem Reports.logs [Disposable α] (h : d.Reports (reportsIn d.events)) (heffect : Effect d)
    (hwork : ∀ s stack, d.before.lifos.get? s = some stack → d.Tends s →
      d.work = .swept s ∨ ∃ v, d.work = .popped s v)
    (hlen : ∀ s, d.after.retiredLen s = (d.after.limboOf s).length) : d.Logs := by
  have hwaiting : ∀ s, d.waiting s = retirements s (reportsIn d.events) ++ d.before.limboOf s :=
    fun s => by rw [waiting, retirements_logOf]
  constructor <;> simp only [refusals_logOf, retirements_logOf, passes_logOf, hwaiting] <;>
    generalize reportsIn d.events = log at h <;> clear hwaiting
  case refused =>
    intro c hc
    cases h with
    | nothing _ answer => exact absurd hc (answer c)
    | refused T shared k asks there answer =>
      obtain rfl : shared.slots.capacity = c := by simpa using answer.symm.trans hc
      exact ⟨T, shared, k, asks, there, rfl, rfl⟩
    | tended s stack tends there answer => exact absurd hc (answer c)
  case unrefused =>
    intro hne
    cases h with
    | nothing => rfl
    | refused T shared k asks there answer => exact absurd answer (hne _)
    | tended s stack tends there answer => exact refusals_limboReport ..
  case retired =>
    intro s
    cases h with
    | nothing idle => rw [poppedFrom_eq_nil (idle s)]; rfl
    | refused T shared k asks there answer =>
      rw [poppedFrom_eq_nil fun htends => absurd htends (asks.not_tends answer)]; rfl
    | tended s₀ stack tends there =>
      rw [retirements_limboReport]
      split
      · rename_i heq
        subst heq
        obtain ⟨hfreed, -, -⟩ := heffect.tended_limbo there (hwork s₀ stack there tends)
        rw [hfreed, (filter_freed (List.subset_append_left _ _)).2]
      · rename_i hne
        rw [poppedFrom_eq_nil fun htends => absurd (tends.unique htends) hne]; rfl
  case passed =>
    intro s hs
    cases h with
    | nothing idle => rw [limboOf, idle s hs]; rfl
    | refused T shared k asks there answer => exact absurd hs (asks.not_tends answer)
    | tended s₀ stack tends there =>
      obtain rfl := tends.unique hs
      obtain ⟨hfreed, hkept, -⟩ := heffect.tended_limbo there (hwork s₀ stack there tends)
      rw [passes_limboReport, retirements_limboReport, if_pos rfl, limboOf_eq there, hlen, hkept, hfreed,
        List.length_reverse]
      generalize d.poppedFrom s₀ = gone
      generalize d.cleared.published stack.table = p
      have hsub : gone.filter p ++ stack.limbo.entries ⊆ gone ++ stack.limbo.entries :=
        (List.filter_sublist.append_right _).subset
      have hleft : (gone ++ stack.limbo.entries).filter p =
          (gone.filter p ++ stack.limbo.entries).filter p := by
        simp only [List.filter_append, List.filter_filter, Bool.and_self]
      rw [(filter_freed hsub).1, hleft]
      by_cases hnone : gone.filter p ++ stack.limbo.entries = []
      · rw [if_neg fun h => h.2 hnone, if_pos hnone]
      · rw [if_pos ⟨rfl, hnone⟩, if_neg hnone]
  case unpassed =>
    intro s hs
    cases h with
    | nothing => rfl
    | refused => rfl
    | tended s₀ stack tends there =>
      have hne : s₀ ≠ s := by
        rintro rfl
        exact hs tends
      rw [passes_limboReport, if_neg fun h => hne h.1]

/-- What a stack retires goes into its limbo, and what its passes free goes out. -/
theorem Logs.balance (h : d.Logs)
    (hlimbo : ((d.before.limboOf s ++ d.poppedFrom s).filter (· ∉ d.freedOf s)).Perm (d.after.limboOf s))
    (hcalm : ¬d.Tends s → d.freedOf s = []) :
    (retirements s (logOf d.events)).length + (d.before.limboOf s).length =
      ((passes s (logOf d.events)).map (·.1)).sum + (d.after.limboOf s).length := by
  have hlength := hlimbo.length_eq
  rw [List.filter_append, List.length_append, ← h.retired] at hlength
  by_cases htends : d.Tends s
  · have hpassed : ((passes s (logOf d.events)).map (·.1)).sum =
        ((d.waiting s).filter (· ∈ d.freedOf s)).length := by
      rw [h.passed s htends]
      split
      · rename_i hnone
        rw [hnone]
        rfl
      · simp
    have hretired : (retirements s (logOf d.events)).filter (· ∈ d.freedOf s) = [] := by
      rw [h.retired, List.filter_eq_nil_iff]
      intro b hb
      simpa using (List.mem_filter.1 hb).2
    have hsplit := List.length_eq_length_filter_add (l := d.before.limboOf s) (· ∈ d.freedOf s)
    rw [hpassed, waiting, List.filter_append, hretired, List.nil_append]
    simp only [decide_not] at hlength
    omega
  · have hpopped : retirements s (logOf d.events) = [] := by
      rw [h.retired, poppedFrom_eq_nil fun hs => absurd hs htends]
      rfl
    rw [hpopped, hcalm htends] at hlength
    rw [hpopped, h.unpassed s htends]
    simpa using hlength

end Deed

/-! ## Runs -/

section

variable [Disposable α]

def Op.log (ops : List (Op α)) : List Notice := logOf ((history ops).flatMap (·.events))

theorem Op.log_concat (ops : List (Op α)) (op : Op α) :
    log (ops ++ [op]) = log ops ++ logOf (op.deed (after ops)).events := by
  rw [log, history_concat, List.flatMap_append, List.flatMap_singleton, logOf_append]
  rfl

theorem Op.logs (ops : List (Op α)) (op : Op α) : (op.deed (after ops)).Logs := by
  obtain ⟨sign, shown, hsound, -⟩ := sound_after ops
  refine (hsound.reports (nodup_cached_tables ops) op).logs (effect ops op)
    (fun s stack hs => work_of_tends hs) fun s => ?_
  have hlen := retiredLen_after (ops ++ [op]) s
  rwa [after_concat] at hlen

/-- A stack that comes to be has a number that was not used before. -/
theorem State.Sound.horizon_le_of_new {σ : State α} {sign : HandleId → Token}
    {shown : HandleId → Address} (h : Sound σ sign shown) {op : Op α} {s : StackId}
    (hnone : σ.lifos.get? s = none) (hsome : ((op.deed σ).after.lifos.get? s).isSome) :
    σ.horizon ≤ s := by
  have hsame : ∀ {σ' : State α} {events : List (Event α)} {answer : Answer α},
      (op.deed σ).outcome = ⟨σ', events, answer⟩ → σ'.lifos = σ.lifos → σ.horizon ≤ s :=
    fun hout heq => by
      rw [Deed.after, hout, heq, hnone] at hsome
      cases hsome
  have hset : ∀ {τ : State α} {events : List (Event α)} {answer : Answer α} {s₀ stack},
      (op.deed σ).outcome = ⟨τ.setStack s₀ stack, events, answer⟩ → τ.lifos = σ.lifos →
        σ.horizon ≤ s := fun hout heq => by
    rw [Deed.after, hout, State.setStack, heq, Registry.isSome_get?_modify, hnone] at hsome
    cases hsome
  have hmade : ∀ {σ' : State α} {events : List (Event α)} {answer : Answer α} {s₀ stack},
      (op.deed σ).outcome = ⟨σ', events, answer⟩ → σ'.lifos = σ.lifos.insert s₀ stack →
        σ.horizon ≤ s₀ → σ.horizon ≤ s := fun hout heq hfresh => by
    rw [Deed.after, hout, heq, Registry.get?_insert] at hsome
    split at hsome
    · rename_i hs
      exact hs ▸ hfresh
    · rw [hnone] at hsome
      cases hsome
  cases op with
  | newTable T c =>
    rcases newTable_cases σ T c with ⟨e, hr⟩ | ⟨-, -, hr⟩ <;> exact hsame (deed_eq rfl hr) rfl
  | shareTable T =>
    rcases shareTable_cases σ T with ⟨-, hr⟩ | ⟨-, hr⟩ <;> exact hsame (deed_eq rfl hr) rfl
  | dropTable T =>
    rcases dropTable_cases σ T with ⟨-, hr⟩ | ⟨-, hr⟩
    · exact hsame (deed_eq rfl hr) rfl
    · exact hsame (deed_eq rfl hr) (by rw [(tablesOnly_letGo σ T).frame])
  | newStack s₀ T =>
    rcases newStack_cases σ s₀ T with ⟨-, hr⟩ | ⟨hs, -, hr⟩
    · exact hsame (deed_eq rfl hr) rfl
    · exact hmade (deed_eq rfl hr) rfl hs
  | newStackOwning s₀ T c =>
    rcases newStackOwning_cases σ s₀ T c with ⟨e, hr⟩ | ⟨hs, -, hr⟩
    · exact hsame (deed_eq rfl hr) rfl
    · exact hmade (deed_eq rfl hr) rfl hs
  | dropStack s₀ =>
    rcases dropStack_cases σ s₀ with ⟨-, hr⟩ | ⟨stack, result, -, -, hr⟩
    · exact hsame (deed_eq rfl hr) rfl
    · have hout : ((Op.dropStack s₀).deed σ).outcome = _ := deed_eq rfl hr
      rw [Deed.after, hout, Registry.get?_erase, hnone, ite_self] at hsome
      cases hsome
  | push s₀ b v =>
    rcases push_cases σ s₀ b v with ⟨-, hr⟩ | ⟨stack, -, -, hr⟩
    · exact hsame (deed_eq rfl hr) rfl
    · exact hset (deed_eq rfl hr) rfl
  | pop t s₀ =>
    rcases pop_cases σ t s₀ with ⟨-, hr⟩ | ⟨stack, thread, hs, ht⟩
    · exact hsame (deed_eq rfl hr) rfl
    · obtain ⟨thread', τ, stack', pre, mid, post, hserved, hr, -⟩ := pop_serves hs (h.served ht)
      exact hset (deed_eq rfl hr) hserved.lifos
  | popWith s₀ n =>
    rcases popWith_cases σ s₀ n with ⟨-, hr⟩ | ⟨stack, handle, -, -, -, hr⟩ |
      ⟨stack, handle, stack', mid, value, -, -, -, hr, -⟩
    · exact hsame (deed_eq rfl hr) rfl
    · exact hsame (deed_eq rfl hr) rfl
    · exact hset (deed_eq rfl hr) rfl
  | reclaim s₀ =>
    rcases reclaim_cases σ s₀ with ⟨-, hr⟩ | ⟨stack, count, -, hr⟩
    · exact hsame (deed_eq rfl hr) rfl
    · exact hset (deed_eq rfl hr) rfl
  | acquire t T n =>
    rcases acquire_cases σ t T n with ⟨-, hr⟩ | ⟨thread, ht, hT, -, hr⟩
    · exact hsame (deed_eq rfl hr) rfl
    · have hlifos := lifos_claim ht hT
      split at hr <;> exact hsame (deed_eq rfl hr) hlifos
  | release n =>
    rcases release_cases σ n with ⟨-, hr⟩ | ⟨handle, -, hr⟩
    · exact hsame (deed_eq rfl hr) rfl
    · exact hsame (deed_eq rfl hr) (by rw [(tablesOnly_giveBack ..).frame])
  | publish n a =>
    rcases publish_cases σ n a with ⟨-, hr⟩ | ⟨handle, -, hr⟩ <;> exact hsame (deed_eq rfl hr) rfl
  | startThread t =>
    rcases startThread_cases σ t with ⟨-, hr⟩ | ⟨-, hr⟩ <;> exact hsame (deed_eq rfl hr) rfl
  | hookExit t =>
    rcases hookExit_cases σ t with ⟨-, hr⟩ | ⟨thread, first, -, hr⟩ <;>
      exact hsame (deed_eq rfl hr) rfl
  | beginExit t =>
    rcases beginExit_cases σ t with ⟨-, hr⟩ | ⟨thread, ht, ⟨-, hr⟩ | hr⟩
    · exact hsame (deed_eq rfl hr) rfl
    · exact hsame (deed_eq rfl hr) rfl
    · obtain ⟨thread', -, -, -, hserved⟩ := (h.served ht).closeCache
      exact hsame (deed_eq rfl hr) hserved.lifos
  | endThread t =>
    rcases endThread_cases σ t with ⟨-, hr⟩ | ⟨thread, ht, hr⟩
    · exact hsame (deed_eq rfl hr) rfl
    · obtain ⟨thread', -, -, -, hserved⟩ := (h.served ht).closeCache
      exact hsame (deed_eq rfl hr) hserved.lifos

theorem Op.balance_step (ops : List (Op α)) (op : Op α) {s : StackId}
    (hstays : ((after ops).lifos.get? s).isSome → ((after (ops ++ [op])).lifos.get? s).isSome) :
    (retirements s (logOf (op.deed (after ops)).events)).length + ((after ops).limboOf s).length =
      ((passes s (logOf (op.deed (after ops)).events)).map (·.1)).sum +
        ((after (ops ++ [op])).limboOf s).length := by
  rw [after_concat] at hstays ⊢
  refine (logs ops op).balance ((effect ops op).limbo_perm s) fun htends => ?_
  by_contra hfreed
  obtain rfl := (tends_of_freed ops op hfreed).resolve_left htends
  rcases dropStack_cases (after ops) s with ⟨-, hr⟩ | ⟨stack, result, hs, -, hr⟩
  · have hout : ((Op.dropStack s).deed (after ops)).outcome = _ := deed_eq rfl hr
    exact hfreed (by rw [Deed.freedOf, Deed.freed, Deed.events, hout]; rfl)
  · have hout : ((Op.dropStack s).deed (after ops)).outcome = _ := deed_eq rfl hr
    have hsome := hstays (by rw [hs]; rfl)
    rw [← after_deed, Deed.after, hout, Registry.get?_erase, if_pos rfl] at hsome
    cases hsome

/-- Of what a stack retired over a run, its passes freed all but what waits now. -/
theorem Op.balance_after (ops : List (Op α)) {s : StackId}
    (hs : ((after ops).lifos.get? s).isSome ∨ (after ops).horizon ≤ s) :
    (retirements s (log ops)).length =
      ((passes s (log ops)).map (·.1)).sum + ((after ops).limboOf s).length := by
  induction ops using List.reverseRecOn with
  | nil => rfl
  | append_singleton ops op ih =>
    obtain ⟨sign, shown, hsound, -⟩ := sound_after ops
    obtain ⟨sign', hstep⟩ := hsound.step op
    have hbefore : ((after ops).lifos.get? s).isSome ∨ (after ops).horizon ≤ s := by
      rw [after_concat] at hs
      cases hb : (after ops).lifos.get? s with
      | some stack => exact .inl rfl
      | none =>
        rcases hs with hs | hs
        · exact .inr (hsound.horizon_le_of_new hb hs)
        · exact .inr (Nat.le_trans hstep.horizon hs)
    have hstays : ((after ops).lifos.get? s).isSome → ((after (ops ++ [op])).lifos.get? s).isSome :=
      fun hb => hs.resolve_right fun hfresh => by
        rw [after_concat] at hfresh
        have hused : s < (after ops).horizon := hsound.lifos s hb
        exact absurd (Nat.le_trans hstep.horizon hfresh) (Nat.not_le.2 hused)
    have hstep := balance_step ops op hstays
    have hrun := ih hbefore
    rw [log_concat, retirements, passes, List.filterMap_append, List.filterMap_append,
      List.length_append, List.map_append, List.sum_append]
    simp only [retirements, passes] at hstep hrun ⊢
    omega

/-- What the log of a run tells of the state that it leads to, and of each operation. -/
structure Op.LogAccounts (ops : List (Op α)) : Prop where
  /-- The claims and returns of a slot take turns. Each return shows the owner that the claim before
  showed, and the last claim, if no return follows, the owner now. -/
  slots : ∀ h, SlotTurns none (seenOf h ((history ops).flatMap (·.events))) ((after ops).owner h)
  each : ∀ d ∈ history ops, d.Logs
  /-- As many nodes were retired as passes freed and wait still. -/
  balance : ∀ s stack, (after ops).lifos.get? s = some stack →
    (retirements s (log ops)).length =
      ((passes s (log ops)).map (·.1)).sum + stack.limbo.gauge.toNat

theorem Op.log_accounts (ops : List (Op α)) : LogAccounts ops where
  slots := turns_after ops
  each d hd := by
    obtain ⟨past, op, -, rfl⟩ := exists_deed_of_mem_history hd
    exact logs past op
  balance s stack hs := by
    have hlen := retiredLen_after ops s
    rw [retiredLen, hs, Option.elim_some] at hlen
    rw [hlen]
    exact balance_after ops (.inl (by rw [hs]; rfl))

/-- Node 5 is retired by the first pop and examined by it, by the second pop, which frees its own
node at once, and by the reclaim, which frees it. In between an acquire is refused. -/
def Op.reported : List (Op (Option String)) :=
  [.newTable 1 2, .newStack 2 1, .startThread 3, .acquire 3 1 4, .push 2 5 none,
    .publish 4 (.block 5), .pop 3 2, .acquire 3 1 6, .push 2 7 none, .pop 3 2, .publish 4 .null,
    .reclaim 2, .release 4]

theorem Op.reported_log :
    let removal := (Op.pop 3 2).deed (after (reported.take 6))
    let refusal := (Op.acquire 3 1 6).deed (after (reported.take 7))
    let sweep := (Op.reclaim 2).deed (after (reported.take 11))
    log reported =
      [.claimed 1 1 0, .claimed 1 1 1, .retired 2 5, .swept 2 0 1, .exhausted 1 1 2, .swept 2 0 1,
        .swept 2 1 0, .released 1 (some 1) 0] ∧
    SlotTurns none (seenOf ⟨1, 0⟩ ((history reported).flatMap (·.events)))
      ((after reported).owner ⟨1, 0⟩) ∧
    (removal.Tends 2 ∧ retirements 2 (logOf removal.events) = [5] ∧
      passes 2 (logOf removal.events) =
        [(((removal.waiting 2).filter (· ∈ removal.freedOf 2)).length, removal.after.retiredLen 2)]) ∧
    (refusal.answer = .failed (.pop (.exhausted 2)) ∧
      ∃ T shared k, refusal.Asks T ∧ refusal.before.tables.get? T = some shared ∧
        shared.slots.capacity = 2 ∧ refusals (logOf refusal.events) = [(T, k, 2)]) ∧
    (sweep.Tends 2 ∧ refusals (logOf sweep.events) = [] ∧ ¬sweep.Tends 8 ∧
      passes 8 (logOf sweep.events) = []) ∧
    ∃ stack, (after reported).lifos.get? 2 = some stack ∧
      (retirements 2 (log reported)).length =
        ((passes 2 (log reported)).map (·.1)).sum + stack.limbo.gauge.toNat := by
  have h := log_accounts reported
  have hremoval := h.each ((Op.pop 3 2).deed (after (reported.take 6)))
    (List.mem_of_getElem? (i := 6) rfl)
  have hrefusal := h.each ((Op.acquire 3 1 6).deed (after (reported.take 7)))
    (List.mem_of_getElem? (i := 7) rfl)
  have hsweep := h.each ((Op.reclaim 2).deed (after (reported.take 11)))
    (List.mem_of_getElem? (i := 11) rfl)
  have hnot : ¬((Op.reclaim 2).deed (after (reported.take 11))).Tends 8 := by
    rintro (⟨t, v, hop, -⟩ | ⟨n, v, hop, -⟩ | hop) <;> cases hop
  have hpassed := hremoval.passed 2 (.inl ⟨3, none, rfl, rfl⟩)
  rw [if_neg (by decide +kernel)] at hpassed
  exact ⟨rfl, h.slots ⟨1, 0⟩, ⟨.inl ⟨3, none, rfl, rfl⟩, (hremoval.retired 2).trans rfl, hpassed⟩,
    ⟨rfl, hrefusal.refused 2 rfl⟩, ⟨.inr (.inr rfl), hsweep.unrefused (fun c hc => by cases hc), hnot,
      hsweep.unpassed 8 hnot⟩, _, rfl, h.balance 2 _ rfl⟩

end

end HazardLifo
