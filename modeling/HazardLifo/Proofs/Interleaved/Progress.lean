import HazardLifo.Proofs.Interleaved.Survey

/-!
# Progress

No thread waits for another one. It goes round in a loop only because another thread has changed the
head word, which is the success of that thread's operation, so a thread that runs alone comes to the
end of its operation; and a sweep deals with the entries that it has detached, each of them once,
whatever other threads do in the meantime (`Machine.retries_paid`).
-/

namespace HazardLifo.Interleaved.Machine

variable {α : Type} {M : Machine α}

/-- In every reachable machine:
* A comparison sends a thread back to the beginning of a round exactly if the head word has changed
  since the thread saw it.
* On every run from a machine where a thread knows nothing of a head word yet, as at the beginning
  of a push, a pop or a retirement, as many of its rounds fail at most as other threads change that
  word.
* Only the success of an operation changes a head word.
* A thread that runs alone comes to the end of its operation.
* A sweep opens the entries that it detached, each of them once, and ends. -/
theorem retries_paid {capacity count : Nat} {tokens : List Token}
    (h : (start capacity count tokens : Machine α).Reaches M) :
    (∀ t c M' marks, M.control? t = some c → c.compares → M.act? (.step t) = some (M', marks) →
      (M'.control? t).any (·.resumes) = (M.outdated? t).isSome) ∧
    (∀ t c w acts M', M.control? t = some c → c.seen? = none → M.run? acts = some M' →
      M.retries t w acts ≤ M.disturbances t w acts) ∧
    (∀ act M' marks w, M.act? act = some (M', marks) → M'.memory.load w ≠ M.memory.load w →
      ∃ u c, act.mover? = some u ∧ M.control? u = some c ∧ c.Wins M.memory w) ∧
    (∀ t c, M.control? t = some c → M.FinishesAlone t) ∧
    ∀ t pass M₁ marks acts M₂, M.control? t = some (.detaching pass) →
      M.act? (.step t) = some (M₁, marks) → (∀ command, .call t command ∉ acts) →
      M₁.run? acts = some M₂ → Surveys M.memory pass.stack t M₁ acts M₂ := by
  have hsound := Sound.of_reaches h
  refine ⟨fun t c M' marks hc hcompares hact => ?_,
    fun t c w acts M' hc hseen hrun => retries_le hc hseen hrun w,
    fun act M' marks w hact hload => ?_, fun t c hc => hsound.finishesAlone hc,
    fun t pass M₁ marks acts M₂ hc hact hcall hrun => ?_⟩
  · obtain ⟨g, hg, rfl⟩ := control?_eq_some.1 hc
    obtain ⟨a, ha, rfl, -⟩ := exists_advance hact rfl hg
    rw [control?_set_self hg, outdated?_eq hc]
    exact Agent.resumes_of_compares ha hcompares
  · cases act?_step hact with
    | @move u g a act hmover hu hm =>
      exact ⟨u, g.control, hmover, control?_eq hu,
        hm.wins_of_load_ne (hsound.proper (control?_eq hu)) hload⟩
    | _ => exact absurd rfl hload
  · exact hsound.surveys ((Metered.of_reaches h).fresh hc) hc hact hcall hrun

/-- A pop publishes that it has seen an empty stack, another thread pushes, and the pop has to look
again. -/
theorem overtaken_pop : ∃ (M M' : Machine Nat) (acts : List (Act Nat)),
    (start 1 1 [1, 2]).Reaches M ∧ M.control? 0 = some .idle ∧ M.run? acts = some M' ∧
      0 < M.retries 0 (.top 0) acts := by
  let m : Memory Nat := ⟨⟨[⟨some 1, .null⟩]⟩, [{}], ∅, 0⟩
  let looking : List (Agent Nat) := [⟨1, [0], .validating 0 0 none⟩, ⟨2, [], .idle⟩]
  let M : Machine Nat := ⟨m, [⟨1, [0], .idle⟩, ⟨2, [], .idle⟩]⟩
  have hlen : 1 < looking.length := Nat.one_lt_two
  have hlook : M.run? [.call 0 (.pop 0 0), .step 0, .step 0] = some ⟨m, looking⟩ := rfl
  obtain ⟨m₁, hpush, -, -, -, hload, -⟩ :=
    run?_push hlen (g := ⟨2, [], .idle⟩) rfl (m := m) (s := 0) Nat.one_pos (b := 3)
      (by simp [m]) 7 []
  have htop : m₁.load (.top 0) = some 3 := by rw [hload, if_pos rfl]
  have hbefore : M.run? ([.call 0 (.pop 0 0), .step 0, .step 0] ++ soloPush 1 0 7 3) =
      some ⟨m₁, looking⟩ := by
    rw [run?_append, hlook, Option.bind_some, ← List.append_nil (soloPush 1 0 7 3)]
    exact hpush
  let M₂ : Machine Nat := ⟨m₁, [⟨1, [0], .guarding 0 0 (some 3)⟩, ⟨2, [], .idle⟩]⟩
  have hstep : (⟨m₁, looking⟩ : Machine Nat).act? (.step 0) = some (M₂, []) := by
    have hvalidate : (⟨1, [0], .validating 0 0 none⟩ : Agent Nat).step m₁ =
        some ⟨m₁, ⟨1, [0], .guarding 0 0 (some 3)⟩, []⟩ := by
      simp only [Agent.step, htop, reduceCtorEq, if_false, Agent.goTo]
    exact act?_of_step (Nat.lt_of_succ_lt hlen) hvalidate
  refine ⟨M, _, _, ⟨[.call 0 .acquire, .step 0], rfl⟩, rfl,
    run?_concat_eq_some.2 ⟨_, _, hbefore, hstep⟩, ?_⟩
  have hlast : 0 < (⟨m₁, looking⟩ : Machine Nat).retries 0 (.top 0) [.step 0] := by
    have hretry : (⟨⟨m₁, looking⟩, .step 0, M₂⟩ : Transition Nat).failed? 0 = some (.top 0) := by
      have houtdated : (Control.validating 0 0 none : Control Nat).outdated? m₁ = some (.top 0) :=
        Control.outdated?_eq_some.2 ⟨none, rfl, by simp [htop]⟩
      exact (if_pos ⟨rfl, rfl⟩).trans houtdated
    rw [retries, transitions_cons hstep, List.countP_cons_of_pos (by simpa using hretry)]
    exact Nat.succ_pos _
  rw [retries, transitions_append hbefore, List.countP_append]
  exact Nat.lt_of_lt_of_le hlast (Nat.le_add_left ..)

/-- A pop has retired its node and begins a sweep. -/
theorem sweep_after_retirement : ∃ (M M' : Machine Nat) (pass : Pass Nat),
    (start 2 1 [1, 2]).Reaches M ∧ M.control? 0 = some (.detaching pass) ∧ pass.stack = 0 ∧
      M.memory.waiting 0 = [(4, 3)] ∧ M.act? (.step 0) = some (M', []) ∧
      M'.control? 0 ≠ some .idle := by
  obtain ⟨m, ⟨before, hbefore⟩, -, hlimbo, hentry⟩ := pop_retires
  let pass : Pass Nat := { stack := 0, result := some 7 }
  let agents : List (Agent Nat) := [⟨1, [0], .detaching pass⟩, ⟨2, [1], .idle⟩]
  have hlen : 0 < agents.length := Nat.two_pos
  have hpeek : (⟨m, [⟨1, [0], .peeking pass⟩, ⟨2, [1], .idle⟩]⟩ : Machine Nat).act? (.step 0) =
      some (⟨m, agents⟩, []) := by
    have hstep : (⟨1, [0], .peeking pass⟩ : Agent Nat).step m =
        some ⟨m, ⟨1, [0], .detaching pass⟩, []⟩ := by
      simp only [Agent.step, pass, hlimbo, Agent.goTo]
    exact act?_of_step hlen hstep
  have hreach : (start 2 1 [1, 2]).Reaches (⟨m, agents⟩ : Machine Nat) :=
    ⟨before ++ [.step 0], run?_concat_eq_some.2 ⟨_, _, hbefore, hpeek⟩⟩
  have hwaiting : m.waiting 0 = [(4, 3)] := by
    obtain ⟨G, hG⟩ := (Sound.of_reaches hreach).custody
    have hchain : Chain m.wrapped? (m.load (.limbo 0)) [(4, 3)] :=
      hlimbo ▸ .cons (Memory.wrapped?_eq_some.2 hentry) rfl
    exact (hG.waiting_eq 0).trans ((hG.waiting 0).unique hchain)
  have hdetach : (⟨1, [0], .detaching pass⟩ : Agent Nat).step m = some
      ⟨m.store (.limbo 0) none, ⟨1, [0], .walking pass (m.load (.limbo 0))⟩, []⟩ := rfl
  refine ⟨⟨m, agents⟩, _, pass, hreach, rfl, rfl, hwaiting, act?_of_step hlen hdetach, ?_⟩
  rintro ⟨⟩

/-- A pop publishes that it has seen an empty stack, another thread pushes, and the pop has to look
again. A sweep that another pop ends with opens the entry of the node that it has retired. -/
theorem overtaken_pop_looks_again : ∃ (M M' : Machine Nat) (acts : List (Act Nat)),
    (start 1 1 [1, 2]).Reaches M ∧ M.control? 0 = some .idle ∧ M.run? acts = some M' ∧
      0 < M.retries 0 (.top 0) acts ∧
      M.retries 0 (.top 0) acts ≤ M.disturbances 0 (.top 0) acts ∧
    ∃ (N N₁ N' : Machine Nat) (pass : Pass Nat) (acts' : List (Act Nat)),
      (start 2 1 [1, 2]).Reaches N ∧ N.control? 0 = some (.detaching pass) ∧
        N.memory.waiting 0 = [(4, 3)] ∧ N.act? (.step 0) = some (N₁, []) ∧
        N₁.run? acts' = some N' ∧ N'.control? 0 = some .idle ∧
        N₁.opened 0 acts' = [N.memory.read 4] := by
  obtain ⟨M, M', acts, hM, hidle, hrun, hretry⟩ := overtaken_pop
  obtain ⟨N, N₁, pass, hN, hdetaching, hstack, hwaiting, hact, hbusy⟩ := sweep_after_retirement
  obtain ⟨-, hpaid, -⟩ := retries_paid hM
  obtain ⟨-, -, -, halone, hsurvey⟩ := retries_paid hN
  obtain ⟨acts', N', -, -, hown, hrun', hend, -⟩ :=
    (halone 0 _ hdetaching).reply [.step 0] N₁ (by simp [Act.mover?])
      (run?_cons_eq_some.2 ⟨_, _, hact, rfl⟩) hbusy
  have hcall : ∀ command, .call 0 command ∉ acts' := by
    intro command hmem
    cases (hown _ hmem).1
  have hopened := (hsurvey 0 pass N₁ [] acts' N' hdetaching hact hcall hrun').complete hend
  rw [hstack, hwaiting] at hopened
  exact ⟨M, M', acts, hM, hidle, hrun, hretry, hpaid 0 _ _ acts M' hidle rfl hrun,
    N, N₁, N', pass, acts', hN, hdetaching, hwaiting, hact, hrun', hend, hopened⟩

end HazardLifo.Interleaved.Machine
