import Cob.Executor.Dispatch
import Cob.Executor.Wakeup

/-!
# Keeping going

With `keep_going` a failure stops nothing but the steps that depend on it. When the workers have
returned, the steps that were started are exactly those without a failed step among their
transitive producers.

* `State.Failed` — `processStep` returned an error for the node;
* `State.AllReturned` — every worker the build needed was spawned and has returned;
* `started_iff_of_keepGoing` — which steps were started, and what `execute` answers.

The workers that leave early are harmless because of `busy_of_waiting`: whoever publishes a task is
still there to dequeue it.
-/

namespace Cob

open BuildGraph

namespace State

variable {D C : Type} (s : State D C)

/-- `processStep` returned an error for the node. -/
def Failed (v : ℕ) : Prop := ∃ result, result ≠ 0 ∧ .returned v result ∈ s.log

/-- The workers spawned so far have returned, and one was spawned unless the spawning loop found
nothing to do. -/
def AllReturned : Prop :=
  (s.spawning = true → s.workers ≠ []) ∧ ∀ pc ∈ s.workers, pc = .returned

variable {s}

/-- When `execute` has joined its workers, of which there is at least one by
`resolveThreadCount`, all of them have returned. -/
theorem Joined.allReturned {cfg : PoolConfig} (h : s.Joined cfg) (hpos : 0 < cfg.threadCount) :
    s.AllReturned := by
  refine ⟨fun hspawning hnil => ?_, h.2⟩
  rcases h.1 with hdone | hlen
  · simp [hspawning] at hdone
  · simp only [hnil, List.length_nil] at hlen
    omega

theorem anyFailed_iff : s.anyFailed = true ↔ ∃ v, s.Failed v := by
  simp only [anyFailed, List.any_eq_true]
  constructor
  · rintro ⟨e, he, hfailed⟩
    cases e with
    | returned v result => exact ⟨v, result, by simpa [Event.failed] using hfailed, he⟩
    | _ => simp [Event.failed] at hfailed
  · rintro ⟨v, result, hne, hmem⟩
    exact ⟨_, hmem, by simpa [Event.failed] using hne⟩

theorem Failed.mem_finished {v : ℕ} (h : s.Failed v) : v ∈ s.finished := by
  obtain ⟨result, -, hmem⟩ := h
  exact Cob.mem_finished.mpr ⟨result, hmem⟩

/-- What finished without failing succeeded. -/
theorem succeeded_of_not_failed {v : ℕ} (hfin : v ∈ s.finished) (hnot : ¬ s.Failed v) :
    s.succeeded v = true := by
  obtain ⟨result, hmem⟩ := Cob.mem_finished.mp hfin
  have hzero : result = 0 := by
    by_contra hne
    exact hnot ⟨result, hne, hmem⟩
  exact succeeded_iff.mpr (hzero ▸ hmem)

end State

section KeepGoing

variable {D C L : Type} {sem : StepSemantics D C L} {cfg : PoolConfig} {g : BuildGraph} {d₀ : D}
  {s : State D C}

/-- Events that are recorded finish what they finish. -/
theorem count_finishedIn_le {events log : List Event} (h : events.Subperm log) (v : ℕ) :
    (finishedIn events).count v ≤ (finishedIn log).count v := by
  obtain ⟨events', hperm, hsub⟩ := h
  have hsame : (finishedIn events').count v = (finishedIn events).count v :=
    (hperm.filterMap _).count_eq v
  have hle : (finishedIn events').count v ≤ (finishedIn log).count v :=
    (hsub.filterMap _).count_le v
  exact hsame.symm.le.trans hle

/-- A step returns one result. -/
theorem Accounted.not_failed_of_succeeded (hacc : Accounted g s) {v : ℕ}
    (hsucc : s.succeeded v = true) : ¬ s.Failed v := by
  rintro ⟨result, hne, hmem⟩
  -- two different results would count the node twice among the finished
  have hsub : [Event.returned v 0, Event.returned v result].Subperm s.log := by
    refine List.subperm_of_subset (by simpa using fun h => hne h.symm) fun e he => ?_
    rcases List.mem_pair.mp he with rfl | rfl
    · exact succeeded_iff.mp hsucc
    · exact hmem
  have htwo : 2 ≤ s.finished.count v := by
    have hle := count_finishedIn_le hsub v
    simpa [finishedIn, State.finished] using hle
  have hone := hacc.finished_le_one v
  omega

/-! ### Nothing that failed is built upon -/

/-- A started node has no failed node among its transitive producers. -/
theorem Accounted.not_failed_of_started (hg : g.Linked) (hacc : Accounted g s) {u v : ℕ}
    (hpath : Relation.TransGen g.Edge u v) (hv : v ∈ s.started) : ¬ s.Failed u := by
  intro hfailed
  have hstep := hacc.isStep_of_finished hfailed.mem_finished
  exact hacc.not_failed_of_succeeded (hacc.succeeded_of_producer hg hpath hv hstep) hfailed

/-! ### Everything else is built -/

/-- The count never drops below a total it reached. -/
theorem Move.completed_le {sh sh' : Shared} {d d' : D} {pc pc' : Pc C} {events : List Event}
    (h : Move sem cfg g sh d pc sh' d' pc' events) (hle : g.nodes.length ≤ sh.completedCount) :
    g.nodes.length ≤ sh'.completedCount := by
  cases h with
  | stopCompleted => exact le_refl _
  | countFailed => exact Nat.le_succ_of_le hle
  | countSucceeded => exact Nat.le_succ_of_le hle
  | _ => exact hle

/-- The spawning loop ends early only when everything is completed. -/
theorem completed_of_not_spawning (h : (poolMachine sem cfg g d₀).Reachable s) :
    s.spawning = false → g.nodes.length ≤ s.shared.completedCount := by
  refine Machine.Reachable.invariant (I := fun s => s.spawning = false →
    g.nodes.length ≤ s.shared.completedCount) ?_ ?_ h
  · rintro s ⟨order, -, rfl⟩ hspawning
    simp [initialState] at hspawning
  · intro s a s' _ hI hs
    cases poolStep_cases hs with
    | stop _ hcount => exact fun _ => hcount.ge
    | spawn => exact hI
    | move _ hm => exact fun hspawning => hm.completed_le (hI hspawning)

/-- When all workers have returned, a step whose producers succeeded has finished. -/
theorem mem_finished_of_allReturned (hg : g.Linked)
    (hk : cfg.keepGoing = true ∨ s.anyFailed = false)
    (h : (poolMachine sem cfg g d₀).Reachable s) (hall : s.AllReturned) {v : ℕ}
    (hv : g.isStep v = true)
    (hproducers : ∀ u, g.Edge u v → g.isStep u = true → s.succeeded u = true) :
    v ∈ s.finished := by
  have hacc := accounted hg h
  have hidle : ∀ pc ∈ s.workers, pc.idle = true := by
    intro pc hpc
    rw [hall.2 pc hpc]
    rfl
  by_cases hnil : s.workers = []
  · -- no worker was needed: the count was complete from the start
    have hspawning : s.spawning = false := by
      by_contra hne
      exact hall.1 (by simpa using hne) hnil
    have hcount := completed_of_not_spawning h hspawning
    have hcompleted := (outcomes h).completed hk
    simp only [hnil, tally_nil, Nat.add_zero] at hcompleted
    exact hacc.mem_finished_of_length (by omega) hv
  · have hw : s.shared.queue.waiting = 0 := by
      by_contra hne
      rcases busy_of_waiting h (Nat.pos_of_ne_zero hne) with hempty | ⟨pc, hpc, hbusy⟩
      · exact hnil hempty
      · simp [hidle pc hpc] at hbusy
    exact hacc.mem_finished_of_idle hidle hw hv hproducers

/-- A step without a failed step among its transitive producers has finished. -/
theorem mem_finished_of_not_failed (hg : g.Linked) (hacyclic : g.Acyclic)
    (hk : cfg.keepGoing = true ∨ s.anyFailed = false)
    (h : (poolMachine sem cfg g d₀).Reachable s)
    (hall : s.AllReturned) {v : ℕ} (hv : g.isStep v = true)
    (hnone : ∀ u, Relation.TransGen g.Edge u v → ¬ s.Failed u) : v ∈ s.finished := by
  -- producers come first, by well-founded induction along the edges
  induction v using hacyclic.wellFounded.induction with
  | h v ih =>
    refine mem_finished_of_allReturned hg hk h hall hv fun u hedge hu => ?_
    have hfin : u ∈ s.finished := by
      apply ih u hedge hu
      intro w hpath
      exact hnone w (hpath.tail hedge)
    exact State.succeeded_of_not_failed hfin (hnone u (.single hedge))

/-- Without failures the answer is a success. -/
theorem executeResult_of_not_failed (hg : g.Linked) (hacyclic : g.Acyclic)
    (h : (poolMachine sem cfg g d₀).Reachable s)
    (hall : s.AllReturned) (hfail : s.anyFailed = false) : s.executeResult g = .ok () := by
  have hout := outcomes h
  have hnone : ∀ v, ¬ s.Failed v := by
    intro v hv
    simp [State.anyFailed_iff.mpr ⟨v, hv⟩] at hfail
  have herror : s.shared.errorOccurred = false := by
    by_contra hne
    simp [hout.failed_of_error (by simpa using hne)] at hfail
  -- sources are counted at the start, and all steps have finished
  have hcount : s.shared.completedCount = g.nodes.length := by
    have huncounted : tally Pc.uncounted s.workers = 0 := by
      refine tally_eq_zero_iff.mpr fun pc hpc => ?_
      rw [hall.2 pc hpc]
      rfl
    have hcompleted := hout.completed (.inr hfail)
    have hsteps := sourceNodes_add g
    have hperm : s.finished.Perm ((List.range g.nodes.length).filter g.isStep) := by
      refine List.Subperm.antisymm (accounted hg h).finished_subperm ?_
      refine List.subperm_of_subset (List.nodup_range.filter _) fun v hv => ?_
      exact mem_finished_of_not_failed hg hacyclic (.inr hfail) h hall (List.mem_filter.mp hv).2
        fun u _ => hnone u
    rw [List.countP_eq_length_filter, ← hperm.length_eq] at hsteps
    omega
  simp [State.executeResult, herror, hcount]

/-- A failure makes the answer an error, once the workers have returned. -/
theorem executeResult_of_failed (h : (poolMachine sem cfg g d₀).Reachable s)
    (hall : s.AllReturned) (hfail : s.anyFailed = true) : s.executeResult g ≠ .ok () := by
  have herror : s.shared.errorOccurred = true := by
    rcases (outcomes h).error_of_failed hfail with herror | hset
    · exact herror
    · exact absurd (hall.2 _ hset) (by simp)
  simp [State.executeResult, herror]

/-- Keeping going, the steps started are exactly those without a failed step among their
transitive producers, and `execute` reports a failure exactly when one of them failed. -/
theorem started_iff_of_keepGoing (hg : g.Called) (hacyclic : g.Acyclic)
    (hk : cfg.keepGoing = true) (h : (poolMachine sem cfg g d₀).Reachable s)
    (hall : s.AllReturned) :
    (∀ v, v ∈ s.started ↔
      g.isStep v = true ∧ ∀ u, Relation.TransGen g.Edge u v → ¬ s.Failed u) ∧
    (s.executeResult g ≠ .ok () ↔ ∃ v ∈ s.started, s.Failed v) := by
  have hwf := hg.linked
  have hacc := accounted hwf h
  refine ⟨fun v => ⟨fun hv => ?_, fun ⟨hv, hnone⟩ => ?_⟩, fun herror => ?_, ?_⟩
  · exact ⟨(hacc.of_started hv).1,
      fun u hpath => hacc.not_failed_of_started hwf hpath hv⟩
  · exact hacc.started_of_finished
      (mem_finished_of_not_failed hwf hacyclic (.inl hk) h hall hv hnone)
  · by_contra hnone
    refine herror (executeResult_of_not_failed hwf hacyclic h hall ?_)
    by_contra hfail
    obtain ⟨v, hv⟩ := State.anyFailed_iff.mp (by simpa using hfail)
    exact hnone ⟨v, hacc.started_of_finished hv.mem_finished, hv⟩
  · rintro ⟨v, -, hv⟩
    exact executeResult_of_failed h hall (State.anyFailed_iff.mpr ⟨v, hv⟩)

end KeepGoing

/-- The steps of `fork`. -/
def forkSteps : List BuildStep :=
  [{ tool := ascii "ld", inputs := ascii "s", output := ascii "a" },
   { tool := ascii "ld", inputs := ascii "a", output := ascii "b" },
   { tool := ascii "ld", inputs := ascii "s", output := ascii "c" }]

/-- Two branches: `a` and `c` are made from `s`, and `b` from `a`. -/
def fork : BuildGraph :=
  ((BuildGraph.empty.addSteps (fun _ => none) forkSteps).toOption).getD .empty

theorem built_fork : fork.Built :=
  Built.empty.addSteps forkSteps (by decide +kernel)
    (show BuildGraph.empty.addSteps (fun _ => none) forkSteps = .ok fork by decide +kernel)

theorem acyclic_fork : fork.Acyclic :=
  acyclic_of_rank (fun v => [1, 0, 2, 1].getD v 0) (by decide +kernel)

/-- The step of `a` fails: `c` is built all the same, and `b` is not. -/
theorem started_iff_of_keepGoing_fork :
    ∃ s, (poolMachine scripted ⟨2, true⟩ fork ()).Reachable s ∧ s.Joined ⟨2, true⟩ ∧
      s.Failed 0 ∧ 3 ∈ s.started ∧ 2 ∉ s.started ∧ s.executeResult fork ≠ .ok () := by
  obtain ⟨tr, s, hrun, hs⟩ := Machine.exists_run_of_exec
    (M := poolMachine scripted ⟨2, true⟩ fork ()) (s := initialState fork [0, 3] ())
    ⟨[0, 3], by decide +kernel, rfl⟩
    [[.spawn, .spawn], List.replicate 6 (.work 0 1), List.replicate 3 (.work 1 0),
      List.replicate 3 (.work 0 0), List.replicate 6 (.work 1 0)].flatten
    (fun r => r.2.Joined ⟨2, true⟩ ∧ .returned 0 1 ∈ r.2.log ∧ 0 ∈ r.2.started ∧
      3 ∈ r.2.started) (by decide +kernel)
  obtain ⟨hjoin, hlog, hzero, hthree⟩ := of_decide_eq_true hs
  have hfailed : s.Failed 0 := ⟨1, by decide, hlog⟩
  have hedge : fork.Edge 0 2 := edge_iff.mpr (by decide +kernel)
  obtain ⟨hstarted, hresult⟩ :=
    started_iff_of_keepGoing built_fork.called acyclic_fork rfl ⟨tr, hrun⟩
    (hjoin.allReturned (by decide))
  refine ⟨s, ⟨tr, hrun⟩, hjoin, hfailed, hthree, fun htwo => ?_,
    hresult.mpr ⟨0, hzero, hfailed⟩⟩
  exact ((hstarted 2).mp htwo).2 0 (.single hedge) hfailed

end Cob
