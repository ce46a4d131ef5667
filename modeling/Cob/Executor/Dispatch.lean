import Cob.Executor.Outcome
import Cob.Graph.Representation

/-!
# Dispatch

What the accounting says about the runs of the pool: a step runs once, after the producers of its
inputs (`LogOrdered`), and a successful build ran every step (`succeeded_of_ok`). The inputs are
those that `addStep` found: a step is not kept waiting for dependency-file inputs that it came with
(`not_dispatch_ordered`).
-/

namespace Cob

open BuildGraph

section Dispatch

variable {D C L : Type} {sem : StepSemantics D C L} {cfg : PoolConfig} {g : BuildGraph} {d₀ : D}
  {s : State D C}

/-- Every producer of an input had succeeded when a node was started. -/
def LogOrdered (g : BuildGraph) (log : List Event) : Prop :=
  ∀ before after v, log = before ++ .started v :: after →
    ∀ u, g.Edge u v → g.isStep u = true → .returned u 0 ∈ before

/-- Recording a start keeps the order when the producers have succeeded. -/
theorem LogOrdered.append {log events : List Event} (h : LogOrdered g log)
    (hnew : events = [] ∨ ∃ e, events = [e] ∧ ∀ v, e = .started v →
      ∀ u, g.Edge u v → g.isStep u = true → .returned u 0 ∈ log) :
    LogOrdered g (log ++ events) := by
  rcases hnew with rfl | ⟨e, rfl, he⟩
  · simpa using h
  · intro before after v heq u hu hstep
    rcases List.eq_nil_or_concat after with rfl | ⟨after, last, rfl⟩
    · obtain ⟨rfl, hlast⟩ := List.append_inj' heq rfl
      exact he v (by simpa using hlast) u hu hstep
    · rw [List.concat_eq_append, ← List.cons_append, ← List.append_assoc] at heq
      obtain ⟨rfl, -⟩ := List.append_inj' heq rfl
      exact h before after v rfl u hu hstep

/-- A move records at most one event, and a start only for a held node. -/
theorem Move.events_cases {sh sh' : Shared} {d d' : D} {pc pc' : Pc C} {events : List Event}
    (hm : Move sem cfg g sh d pc sh' d' pc' events) :
    events = [] ∨ ∃ e, events = [e] ∧ ∀ v, e = .started v → v ∈ pc.held := by
  cases hm with
  | subtract => exact .inr ⟨_, rfl, by simp [Pc.held]⟩
  | signal => exact .inr ⟨_, rfl, by simp⟩
  | succeed => exact .inr ⟨_, rfl, by simp⟩
  | fail => exact .inr ⟨_, rfl, by simp⟩
  | reject => exact .inr ⟨_, rfl, by simp⟩
  | _ => exact .inl rfl

/-- Once nothing is outstanding for a node, the producers of its inputs have succeeded. -/
theorem succeeded_of_outstanding {u v : ℕ} (hzero : outstanding g s v = 0) (hu : g.Edge u v)
    (hstep : g.isStep u = true) : s.succeeded u = true := by
  by_contra hnot
  have howed : owed g s v = 0 := by
    unfold outstanding at hzero
    omega
  have hterm := tally_eq_zero_iff.mp howed u
    (List.mem_range.mpr (lt_length_of_isStep hstep))
  rw [if_pos ⟨hstep, by simpa using hnot⟩] at hterm
  exact List.count_eq_zero.mp hterm (edge_iff.mp hu)

/-- A held node was dequeued. -/
theorem Accounted.held (h : Accounted g s) {pc : Pc C} (hpc : pc ∈ s.workers) {v : ℕ}
    (hv : v ∈ pc.held) : g.isStep v = true ∧ outstanding g s v = 0 := by
  have hheld : pc.held.count v ≤ tally (fun pc => pc.held.count v) s.workers :=
    le_tally_of_mem (f := fun pc : Pc C => pc.held.count v) hpc
  have hpos := List.count_pos_iff.mpr hv
  have hdeq := h.dequeued v
  have hle := count_dequeued_le s.shared.queue v
  exact h.of_handedOut (by omega)

/-- Nodes start after the producers of their inputs succeeded. -/
theorem logOrdered (hg : g.Linked) (h : (poolMachine sem cfg g d₀).Reachable s) :
    LogOrdered g s.log := by
  refine pool_invariant (I := fun s => LogOrdered g s.log) ?_ ?_ ?_ ?_ h
  · intro order horder
    rw [initialState_eq g horder]
    simp [LogOrdered]
  · exact fun s hI => hI
  · exact fun s _ hI _ _ => hI
  · intro s i pc sh d pc' events hr hI hi hm
    refine LogOrdered.append hI (hm.events_cases.imp_right ?_)
    rintro ⟨e, rfl, he⟩
    refine ⟨e, rfl, fun v hv u hu hstep => ?_⟩
    have hheld := (accounted hg hr).held (List.mem_of_getElem? hi) (he v hv)
    exact succeeded_iff.mp (succeeded_of_outstanding hheld.2 hu hstep)

/-- What finished is finished once. -/
theorem Accounted.finished_le_one (h : Accounted g s) (v : ℕ) : s.finished.count v ≤ 1 := by
  have hstarted := h.started v
  have hle := h.started_le_enqueued v
  have hone := h.enqueued_le_one v
  omega

/-- What finished is produced. -/
theorem Accounted.isStep_of_finished (h : Accounted g s) {v : ℕ} (hv : v ∈ s.finished) :
    g.isStep v = true := by
  have hpos := List.count_pos_iff.mpr hv
  have hstarted := h.started v
  have hle := h.started_le_enqueued v
  exact (h.of_handedOut (by omega)).1

/-- The finished nodes are among the produced nodes, so they are at most as many. -/
theorem Accounted.finished_subperm (h : Accounted g s) :
    s.finished.Subperm ((List.range g.nodes.length).filter g.isStep) := by
  refine List.subperm_of_subset (List.nodup_iff_count.mpr h.finished_le_one) fun v hv => ?_
  have hstep := h.isStep_of_finished hv
  exact List.mem_filter.mpr ⟨List.mem_range.mpr (lt_length_of_isStep hstep), hstep⟩

/-- When as many steps finished as there are, every step finished. -/
theorem Accounted.mem_finished_of_length (h : Accounted g s)
    (hlen : g.nodes.length ≤ sourceNodes g + s.finished.length) {v : ℕ} (hv : g.isStep v = true) :
    v ∈ s.finished := by
  have hsteps := sourceNodes_add g
  rw [List.countP_eq_length_filter] at hsteps
  have hperm := h.finished_subperm.perm_of_length_le (by omega)
  exact hperm.mem_iff.mpr
    (List.mem_filter.mpr ⟨List.mem_range.mpr (lt_length_of_isStep hv), hv⟩)

/-- Two workers never run the same step. -/
theorem Accounted.running_unique (h : Accounted g s) {i j v : ℕ} {c c' : C}
    (hi : s.workers[i]? = some (.process v c)) (hj : s.workers[j]? = some (.process v c')) :
    i = j := by
  by_contra hne
  have hset : tally (fun pc : Pc C => pc.running.count v) (s.workers.set i .returned) + 1 =
      tally (fun pc : Pc C => pc.running.count v) s.workers + 0 := by
    have h := tally_set (fun pc : Pc C => pc.running.count v) hi .returned
    simpa [Pc.running] using h
  have hmem : Pc.process v c' ∈ s.workers.set i .returned :=
    List.mem_iff_getElem?.mpr ⟨j, by simpa [List.getElem?_set, hne] using hj⟩
  have hone : 1 ≤ tally (fun pc : Pc C => pc.running.count v) (s.workers.set i .returned) := by
    have h := le_tally_of_mem (f := fun pc : Pc C => pc.running.count v) hmem
    simpa [Pc.running] using h
  have hstarted := h.started v
  have hle := h.started_le_enqueued v
  have henq := h.enqueued_le_one v
  omega

/-- A running step was started. -/
theorem Accounted.started_of_running (h : Accounted g s) {pc : Pc C} (hpc : pc ∈ s.workers)
    {v : ℕ} (hv : v ∈ pc.running) : v ∈ s.started := by
  have hrun : pc.running.count v ≤ tally (fun pc => pc.running.count v) s.workers :=
    le_tally_of_mem (f := fun pc : Pc C => pc.running.count v) hpc
  have hpos := List.count_pos_iff.mpr hv
  have hstarted := h.started v
  exact List.count_pos_iff.mp (by omega)

/-- What a worker is about to start was not started before. -/
theorem Accounted.not_started_of_held (h : Accounted g s) {pc : Pc C} (hpc : pc ∈ s.workers)
    {v : ℕ} (hv : v ∈ pc.held) : v ∉ s.started := by
  have hheld : pc.held.count v ≤ tally (fun pc => pc.held.count v) s.workers :=
    le_tally_of_mem (f := fun pc : Pc C => pc.held.count v) hpc
  have hpos := List.count_pos_iff.mpr hv
  have hdeq := h.dequeued v
  have hle := count_dequeued_le s.shared.queue v
  have hone := h.enqueued_le_one v
  exact List.count_eq_zero.mp (by omega)

/-- What finished was started. -/
theorem Accounted.started_of_finished (h : Accounted g s) {v : ℕ} (hv : v ∈ s.finished) :
    v ∈ s.started := by
  have hpos := List.count_pos_iff.mpr hv
  have hstarted := h.started v
  exact List.count_pos_iff.mp (by omega)

/-- What succeeded was started. -/
theorem Accounted.started_of_succeeded (h : Accounted g s) {v : ℕ} (hv : s.succeeded v = true) :
    v ∈ s.started := h.started_of_finished (mem_finished_of_succeeded hv)

/-- A started node is produced, and nothing is outstanding for it. -/
theorem Accounted.of_started (h : Accounted g s) {v : ℕ} (hv : v ∈ s.started) :
    g.isStep v = true ∧ outstanding g s v = 0 := by
  have hpos := List.count_pos_iff.mpr hv
  have hle := h.started_le_enqueued v
  exact h.of_handedOut (by omega)

/-- The producers of the inputs of a started step have succeeded. -/
theorem Accounted.succeeded_of_started (h : Accounted g s) {u v : ℕ} (hv : v ∈ s.started)
    (hedge : g.Edge u v) (hu : g.isStep u = true) : s.succeeded u = true :=
  succeeded_of_outstanding (h.of_started hv).2 hedge hu

/-- So have their transitive producers. -/
theorem Accounted.succeeded_of_producer (hg : g.Linked) (h : Accounted g s) {u v : ℕ}
    (hpath : Relation.TransGen g.Edge u v) (hv : v ∈ s.started) (hu : g.isStep u = true) :
    s.succeeded u = true := by
  induction hpath with
  | single hedge => exact h.succeeded_of_started hv hedge hu
  | @tail w x hpath hedge ih =>
    -- the node before the last edge is a step, as an edge leads to it
    have hw : g.isStep w = true := by
      obtain ⟨t, -, ht⟩ := Relation.TransGen.tail'_iff.mp hpath
      exact hg.target_isStep _ _ (edge_iff.mp ht)
    apply ih
    exact h.started_of_succeeded (h.succeeded_of_started hv hedge hw)

/-- A build without failures succeeded on every finished step. -/
theorem succeeded_of_finished (hfail : s.anyFailed = false) {v : ℕ} (hv : v ∈ s.finished) :
    s.succeeded v = true := by
  obtain ⟨result, hr⟩ := mem_finished.mp hv
  have hzero : result = 0 := by
    have := List.any_eq_false.mp hfail _ hr
    simpa [Event.failed] using this
  exact succeeded_iff.mpr (hzero ▸ hr)

/-- When the joined pool leaves no error and a full count, every step succeeded. -/
theorem Accounted.succeeded_of_ok (hacc : Accounted g s) (hout : Outcomes cfg g s)
    (hjoin : s.Joined cfg) (hok : s.executeResult g = .ok ()) {v : ℕ} (hv : g.isStep v = true) :
    s.succeeded v = true := by
  unfold State.executeResult at hok
  split_ifs at hok with herr hcount
  simp only [ne_eq, not_not] at hcount
  have hfail : s.anyFailed = false := by
    by_contra hne
    rcases hout.error_of_failed (Bool.eq_true_of_not_eq_false hne) with he | hset
    · exact herr he
    · exact absurd (hjoin.2 _ hset) (by simp)
  have hnobody : tally Pc.uncounted s.workers = 0 := by
    refine tally_eq_zero_iff.mpr fun pc hpc => ?_
    rw [hjoin.2 pc hpc]
    rfl
  have hcompleted := hout.completed (.inr hfail)
  exact succeeded_of_finished hfail (hacc.mem_finished_of_length (by omega) hv)

theorem succeeded_of_ok (hg : g.Linked) (h : (poolMachine sem cfg g d₀).Reachable s)
    (hjoin : s.Joined cfg) (hok : s.executeResult g = .ok ()) {v : ℕ} (hv : g.isStep v = true) :
    s.succeeded v = true :=
  (accounted hg h).succeeded_of_ok (outcomes h) hjoin hok hv

/-- Every step is dispatched at most once, after the producers of the inputs that `addStep` found
for it have succeeded; the ready queue never overflows; and a successful build processed every step
exactly once, with result `0`. -/
theorem dispatch_exactly_once {calls : List BuildGraph.Call} {given : List (List Bytes)}
    (hcalls : runCalls calls = (g, given)) (h : (poolMachine sem cfg g d₀).Reachable s) :
    (∀ v, s.shared.queue.enqueued.count v ≤ 1 ∧ s.started.count v ≤ 1 ∧
      (v ∈ s.started → g.isStep v = true)) ∧
    (∀ before after v k st came, s.log = before ++ .started v :: after →
      g.stepIdOf v = some k → g.steps[k]? = some st → given[k]? = some came →
      ∀ p, came.count p < st.allInputs.count p → ∃ u, g.pathOf u = some p ∧
        (g.isStep u = true → .returned u 0 ∈ before)) ∧
    (∀ n, .rejected n ∉ s.log) ∧
    (s.Joined cfg → s.executeResult g = .ok () → ∀ v, g.isStep v = true →
      s.started.count v = 1 ∧ s.finished.count v = 1 ∧ .returned v 0 ∈ s.log) := by
  have hrep : g.Represents given := by
    have hrep := represents_runCalls calls
    rwa [hcalls] at hrep
  have hg := hrep.linked
  have hacc := accounted hg h
  have hstarted : ∀ v, s.started.count v ≤ 1 := by
    intro v
    have hle := hacc.started_le_enqueued v
    have hone := hacc.enqueued_le_one v
    omega
  refine ⟨fun v => ⟨?_, hstarted v, fun hv => ?_⟩, ?_, hacc.accepted, ?_⟩
  · have hone := hacc.enqueued_le_one v
    omega
  · have hpos := List.count_pos_iff.mpr hv
    have hle := hacc.started_le_enqueued v
    exact (hacc.of_handedOut (by omega)).1
  · -- an input that did not come with the step has an edge, and the log is ordered along edges
    intro before after v k st came hlog hk hst hcame p hp
    have hcount := hrep.edgeCount_eq v k st came hk hst hcame p
    obtain ⟨u, hu, hedge⟩ := hrep.indexed.exists_edge (show 0 < g.edgeCount p v by omega)
    exact ⟨u, hu, logOrdered hg h before after v hlog u hedge⟩
  · -- success of the build is success of every step
    intro hjoin hok v hv
    have hsucc := succeeded_of_ok hg h hjoin hok hv
    have hpos := List.count_pos_iff.mpr (mem_finished_of_succeeded hsucc)
    have hfin := hacc.started v
    have hone := hstarted v
    exact ⟨by omega, by omega, succeeded_iff.mp hsucc⟩

end Dispatch

/-- Two steps with parallel edges between them: `b` names its input `a` twice. -/
def twiceSteps : List BuildStep :=
  [{ tool := ascii "ld", inputs := ascii "s", output := ascii "a" },
   { tool := ascii "ld", inputs := ascii "a,s,a", output := ascii "b" }]

/-- The graph of `twiceSteps`. -/
def twice : BuildGraph :=
  ((BuildGraph.empty.addSteps (fun _ => none) twiceSteps).toOption).getD .empty

theorem built_twice : twice.Built :=
  Built.empty.addSteps twiceSteps (by decide +kernel)
    (show BuildGraph.empty.addSteps (fun _ => none) twiceSteps = .ok twice by decide +kernel)

/-- The calls of `addStep` for these steps. -/
def twiceCalls : List BuildGraph.Call := twiceSteps.map fun st => ⟨st, fun _ => none⟩

/-- Two workers build `a` and `b`. -/
theorem dispatch_exactly_once_twice : ∃ s, (poolMachine scripted ⟨2, false⟩ twice ()).Reachable s ∧
    s.Joined ⟨2, false⟩ ∧ s.executeResult twice = .ok () ∧ s.started.count 0 = 1 ∧
      s.started.count 2 = 1 := by
  obtain ⟨tr, s, hrun, hs⟩ := Machine.exists_run_of_exec
    (M := poolMachine scripted ⟨2, false⟩ twice ()) (s := initialState twice [0] ())
    ⟨[0], by decide +kernel, rfl⟩
    [[.spawn, .spawn], List.replicate 11 (.work 0 0), List.replicate 5 (.work 1 0),
      List.replicate 2 (.work 0 0), List.replicate 4 (.work 1 0)].flatten
    (fun r => r.2.Joined ⟨2, false⟩ ∧ r.2.executeResult twice = .ok ()) (by decide +kernel)
  obtain ⟨hjoin, hok⟩ := of_decide_eq_true hs
  have hcalls : runCalls twiceCalls = (twice, [[], []]) := by decide +kernel
  have hall := (dispatch_exactly_once hcalls ⟨tr, hrun⟩).2.2.2 hjoin hok
  exact ⟨s, ⟨tr, hrun⟩, hjoin, hok, (hall 0 (by decide +kernel)).1, (hall 2 (by decide +kernel)).1⟩

/-- The calls for `preset` and for a step that makes the dependency-file input it comes with. -/
def presetCalls : List BuildGraph.Call :=
  [⟨preset, fun _ => none⟩,
    ⟨{ tool := ascii "ld", inputs := ascii "s", output := ascii "m.h" }, fun _ => none⟩]

/-- A step may be started before the one that makes a dependency-file input it came with. -/
theorem not_dispatch_ordered : ¬ ∀ (calls : List BuildGraph.Call) (cfg : PoolConfig)
    (s : State Unit Unit), (runCalls calls).1.Acyclic →
    (poolMachine scripted cfg (runCalls calls).1 ()).Reachable s →
    ∀ before after v st, s.log = before ++ .started v :: after →
      (runCalls calls).1.stepOf v = some st → ∀ p ∈ st.allInputs,
        ∃ u, (runCalls calls).1.pathOf u = some p ∧
          ((runCalls calls).1.isStep u = true → .returned u 0 ∈ before) := by
  intro hall
  obtain ⟨tr, s, hrun, hs⟩ := Machine.exists_run_of_exec
    (M := poolMachine scripted ⟨1, false⟩ (runCalls presetCalls).1 ())
    (s := initialState (runCalls presetCalls).1 [0, 2] ()) ⟨[0, 2], by decide +kernel, rfl⟩
    (.spawn :: List.replicate 3 (.work 0 0)) (fun r => r.2.log = [.started 0])
    (by decide +kernel)
  have hacyclic : (runCalls presetCalls).1.Acyclic :=
    acyclic_of_rank (fun v => if v = 1 ∨ v = 3 then 0 else 1) (by decide +kernel)
  obtain ⟨u, hu, hreturned⟩ := hall presetCalls ⟨1, false⟩ s hacyclic ⟨tr, hrun⟩ [] [] 0
    { preset with parsedInputs := [ascii "m.o"] } (of_decide_eq_true hs) (by decide +kernel)
    (ascii "m.h") (by decide +kernel)
  -- `m.h` is node 2, which has a step
  have hfound : (runCalls presetCalls).1.pathOf 2 = some (ascii "m.h") := by decide +kernel
  obtain rfl : u = 2 := (represents_runCalls presetCalls).indexed.pathOf_inj hu hfound
  cases hreturned (by decide +kernel)

end Cob
