import Cob.Executor.FailFast
import Cob.Executor.ProcessStep
import Cob.Lib.Potential

/-!
# The work of a build

A worker is at work when its next move brings the build forward: it takes a task that waits,
processes one, or hands on what completing it frees. The other moves poll the counters, sleep or
leave. A build does only so much work, however its threads are scheduled and however the tools
end: `workLeft` is a potential that every working move decreases and no other move increases.

The module introduces:

* `Pc.working`, `works` — the moves that are work;
* `Ranked` — a bound on how long a call of `processStep` can go on;
* `Pc.remaining`, `workLeft` — what the workers and the tasks not dequeued yet still have to do;
* `callRank` — the bound for `processStep`;
* `work_le` — a run does work linear in the size of the graph.
-/

namespace Cob

open BuildGraph NodeTimes

section Work

variable {D C L : Type}

/-- The next move of the worker is work. Polling an empty queue is none. -/
def Pc.working (sh : Shared) : Pc C → Bool
  | .dequeue => sh.queue.take.isSome
  | .release _ _ => true
  | .subtract _ => true
  | .process _ _ => true
  | .setError => true
  | .stopCompleted => true
  | .stopSignal => true
  | .countFailed => true
  | .countSucceeded _ => true
  | .decrement _ _ => true
  | .enqueue _ _ _ => true
  | .publish _ _ _ => true
  | .increment _ _ => true
  | .signal => true
  | _ => false

/-- The action is a move of a worker at work. -/
def works (m : State D C × Action L) : Bool :=
  match m.2 with
  | .spawn => false
  | .work i _ => m.1.workers[i]?.any (Pc.working m.1.shared)

/-- A call that goes on goes on to a call of lower rank. -/
def Ranked (sem : StepSemantics D C L) (rank : ℕ → C → ℕ) : Prop :=
  ∀ d node call label d' call', sem.advance d node call label = some (d', .inl call') →
    rank node call' < rank node call

/-- The moves that hand on the completion of a node at most: four for each edge, and counting,
leaving the loop over the edges and signalling. -/
def handOn (g : BuildGraph) (node : ℕ) : ℕ := 4 * (g.outEdges node).length + 3

variable (sem : StepSemantics D C L) (g : BuildGraph) (rank : ℕ → C → ℕ)

/-- The working moves that a worker can make before it looks at the queue again. -/
def Pc.remaining : Pc C → ℕ
  | .release _ node => rank node (sem.enter node) + handOn g node + 3
  | .subtract node => rank node (sem.enter node) + handOn g node + 2
  | .process node call => rank node call + handOn g node + 1
  | .setError => 3
  | .stopCompleted => 2
  | .stopSignal => 1
  | .countFailed => 2
  | .countSucceeded node => handOn g node
  | .decrement edges _ => 4 * edges.length + 2
  | .enqueue _ edges _ => 4 * edges.length + 5
  | .publish _ edges _ => 4 * edges.length + 4
  | .increment edges _ => 4 * edges.length + 3
  | .signal => 1
  | _ => 0

/-- The working moves that a task takes from its dequeue on. -/
def taskWork (node : ℕ) : ℕ := rank node (sem.enter node) + handOn g node + 4

/-- What a task that was not dequeued yet will take. -/
def taskLeft (q : ReadyQueue) (node : ℕ) : ℕ :=
  if g.isStep node && !q.dequeued.contains node then taskWork sem g rank node else 0

/-- The working moves that are left. -/
def workLeft (s : State D C) : ℕ :=
  tally (taskLeft sem g rank s.shared.queue) (List.range g.nodes.length) +
    tally (Pc.remaining sem g rank) s.workers

variable {sem g rank} {cfg : PoolConfig} {s : State D C} {i : ℕ} {sh sh' : Shared} {d d' : D}
  {pc pc' : Pc C} {events : List Event}

/-! ### A move and the work left -/

/-- A move takes a task or leaves the dequeued ones as they are. -/
theorem Move.dequeued_cases (h : Move sem cfg g sh d pc sh' d' pc' events)
    (hpos : sh.queue.dequeuePos ≤ sh.queue.cells.length) :
    (∃ pos node, pc = .dequeue ∧ pc' = .release pos node ∧ sh.queue.take.isSome = true ∧
      sh'.queue.enqueued = sh.queue.enqueued ∧
      sh'.queue.dequeued = sh.queue.dequeued ++ [node]) ∨
    ((pc = .dequeue → sh.queue.take = none) ∧ sh'.queue.dequeued = sh.queue.dequeued) := by
  cases h with
  | idle h => cases h with
    | empty hq => exact .inr ⟨fun _ => hq, rfl⟩
    | _ => exact .inr ⟨by simp, rfl⟩
  | signal h => cases h <;> exact .inr ⟨by simp, rfl⟩
  | take hq =>
    exact .inl ⟨_, _, rfl, rfl, by simp [hq], ReadyQueue.enqueued_of_take hq,
      ReadyQueue.dequeued_of_take hq⟩
  | claim hq => exact .inr ⟨by simp, ReadyQueue.dequeued_of_claim hq hpos⟩
  | release => exact .inr ⟨by simp, ReadyQueue.dequeued_release _ _⟩
  | publish => exact .inr ⟨by simp, ReadyQueue.dequeued_publish _ _⟩
  | _ => exact .inr ⟨by simp, rfl⟩

/-- A working move that does not dequeue uses up some of what the worker has to do. -/
theorem Move.remaining_le (hrank : Ranked sem rank)
    (h : Move sem cfg g sh d pc sh' d' pc' events) (htake : pc = .dequeue → sh.queue.take = none) :
    pc'.remaining sem g rank + (if pc.working sh then 1 else 0) ≤ pc.remaining sem g rank := by
  cases h with
  | idle h => cases h with
    | empty hq => simp [Pc.remaining, Pc.working, hq]
    | _ => simp [Pc.remaining, Pc.working]
  | signal h => cases h <;> simp [Pc.remaining, Pc.working]
  | take hq => simp [hq] at htake
  | advance hadv =>
    have hlt := hrank _ _ _ _ _ _ hadv
    simp only [Pc.remaining, Pc.working, if_true]
    omega
  | setError => split_ifs <;> simp_all [Pc.remaining, Pc.working]
  | countFailed => split_ifs <;> simp_all [Pc.remaining, Pc.working]
  | edgesDone => split_ifs <;> simp_all [Pc.remaining, Pc.working]
  | _ =>
    simp only [Pc.remaining, Pc.working, handOn, List.length_cons, if_true]
    simp
    try omega

/-- A task that is dequeued is a step that was not dequeued before. -/
theorem Accounted.fresh_of_take (h : Accounted g s) {node : ℕ} {q : ReadyQueue}
    (henq : q.enqueued = s.shared.queue.enqueued)
    (hdeq : q.dequeued = s.shared.queue.dequeued ++ [node]) :
    g.isStep node = true ∧ node ∉ s.shared.queue.dequeued := by
  have hcount := count_dequeued_le q node
  have hone := h.enqueued_le_one node
  rw [henq, hdeq, List.count_append, List.count_singleton_self] at hcount
  refine ⟨(h.of_handedOut (by omega)).1, List.count_eq_zero.mp (by omega)⟩

variable (sem rank) in
/-- Dequeueing a task takes its work out of what is not dequeued yet. -/
theorem tally_taskLeft_take {q q' : ReadyQueue} {node : ℕ} (hstep : g.isStep node = true)
    (hfresh : node ∉ q.dequeued) (hdeq : q'.dequeued = q.dequeued ++ [node]) :
    tally (taskLeft sem g rank q') (List.range g.nodes.length) + taskWork sem g rank node =
      tally (taskLeft sem g rank q) (List.range g.nodes.length) := by
  have hcount : (List.range g.nodes.length).count node = 1 :=
    List.count_eq_one_of_mem List.nodup_range (List.mem_range.mpr (lt_length_of_isStep hstep))
  have hsame : ∀ v ∈ List.range g.nodes.length, v ≠ node →
      taskLeft sem g rank q' v = taskLeft sem g rank q v := by
    intro v _ hne
    simp [taskLeft, hdeq, hne]
  have hupdate := tally_update hcount hsame
  have hbefore : taskLeft sem g rank q node = taskWork sem g rank node := by
    simp [taskLeft, hstep, hfresh]
  have hafter : taskLeft sem g rank q' node = 0 := by simp [taskLeft, hdeq]
  rw [hbefore, hafter] at hupdate
  exact hupdate

/-- A move of a worker uses up work if it is work, and never makes any. -/
theorem workLeft_moved (hrank : Ranked sem rank) (hacc : Accounted g s)
    (hi : s.workers[i]? = some pc) (hm : Move sem cfg g s.shared s.data pc sh d pc' events) :
    workLeft sem g rank (s.moved i sh d pc' events) + (if pc.working s.shared then 1 else 0) ≤
      workLeft sem g rank s := by
  have hset := tally_set (Pc.remaining sem g rank) hi pc'
  rcases hm.dequeued_cases hacc.dequeuePos_le with
    ⟨pos, node, rfl, rfl, hsome, henq, hdeq⟩ | ⟨hnone, hdeq⟩
  · obtain ⟨hstep, hfresh⟩ := hacc.fresh_of_take henq hdeq
    have htask := tally_taskLeft_take sem rank hstep hfresh hdeq
    simp only [workLeft, State.moved, Pc.working, hsome, if_true, Pc.remaining, taskWork]
      at hset htask ⊢
    omega
  · have hle := hm.remaining_le hrank hnone
    have hsame : taskLeft sem g rank sh.queue = taskLeft sem g rank s.shared.queue := by
      ext v
      simp only [taskLeft, hdeq]
    simp only [workLeft, State.moved, hsame]
    omega

/-- Every step of the pool uses up work if it is work, and never makes any. -/
theorem workLeft_step {d₀ : D} (hrank : Ranked sem rank) (hg : g.Linked) {a : Action L}
    {s' : State D C} (h : (poolMachine sem cfg g d₀).Reachable s)
    (hs : poolStep sem cfg g s a = some s') :
    workLeft sem g rank s' + (if works (s, a) then 1 else 0) ≤ workLeft sem g rank s := by
  cases poolStep_cases hs with
  | stop => simp [workLeft, works]
  | spawn => simp [workLeft, works, Pc.remaining]
  | move hi hm => simpa [works, hi] using workLeft_moved hrank (accounted hg h) hi hm

/-- No work is done but for the steps of the graph. -/
theorem workLeft_initialState {order : List ℕ} (h : order.Perm (rootNodes g)) (d₀ : D) :
    workLeft sem g rank (initialState g order d₀) =
      tally (fun v => if g.isStep v then taskWork sem g rank v else 0)
        (List.range g.nodes.length) := by
  have hleft : taskLeft sem g rank ⟨bitCeil g.nodes.length, order.map Cell.waiting, 0⟩ =
      fun v => if g.isStep v then taskWork sem g rank v else 0 := by
    ext v
    simp [taskLeft, ReadyQueue.dequeued]
  rw [initialState_eq g h]
  simp only [workLeft, hleft, tally_nil, Nat.add_zero]

/-- A run does no more work than the tasks of the graph take. -/
theorem countP_works_le {d₀ : D} (hrank : Ranked sem rank) (hg : g.Linked)
    {tr : List (State D C × Action L)} (h : (poolMachine sem cfg g d₀).Run tr s) :
    tr.countP works ≤
      tally (fun v => if g.isStep v then taskWork sem g rank v else 0)
        (List.range g.nodes.length) := by
  obtain ⟨s₀, ⟨order, horder, rfl⟩, hle⟩ := h.countP_add_le (p := works)
    fun s a s' hr hs => workLeft_step hrank hg hr hs
  rw [workLeft_initialState horder] at hle
  omega

end Work

/-! ### The calls of `processStep` -/

section Calls

variable (g : BuildGraph)

/-- How far a call of `changedSince` is from its answer. -/
def Probe.rank : Probe → ℕ
  | .load => 3
  | .stat => 2
  | .exchange _ => 1
  | .fill _ => 0

/-- How far a call of `processStep` is from its last access at most. -/
def callRank (node : ℕ) : Call → ℕ
  | .command => 4 * (producedIn g node).length + 10
  | .statOutput _ => 4 * (producedIn g node).length + 9
  | .probe _ _ _ rest pos => 4 * rest.length + 5 + pos.rank
  | .rebuild _ => 4
  | .spawn _ => 3
  | .running _ _ => 2
  | .commit _ => 1
  | .invalidate => 0
  | .recordExchange _ => 1
  | .recordFill _ => 0

variable {g}

/-- What follows an answered probe is below every probe. -/
theorem callRank_afterProbe (d : BuildData) (node : ℕ) (cmd : Command) (t : FileTime)
    (ref : SlotRef) (rest : List ℕ) (answer : Bool) :
    callRank g node (afterProbe d node cmd t ref rest answer) < 4 * rest.length + 5 := by
  simp only [afterProbe]
  split_ifs
  · simp only [callRank]; omega
  · simp only [callRank]; omega
  · cases rest with
    | nil => simp [nextInput, callRank]
    | cons u rest => simp only [nextInput, callRank, Probe.rank, List.length_cons]; omega

/-- `processStep` loops over nothing but the produced inputs. -/
theorem ranked_processStep (ctx : StepContext) : Ranked (processStep ctx) (callRank ctx.graph) := by
  intro d node call outcome d' call' hadv
  change advance ctx d node call outcome = some (d', .inl call') at hadv
  cases hst : ctx.graph.stepOf node with
  | none => simp [advance, hst] at hadv
  | some st =>
    obtain ⟨k, hk, -⟩ := Option.bind_eq_some_iff.mp (stepOf_eq ctx.graph node ▸ hst)
    have hcase := advance_cases hst hk hadv
    generalize hr : (Sum.inl call' : Call ⊕ ℤ) = r at hcase
    -- a probe goes to its next access or to the next input; the other steps go forward
    cases hcase with
    | loadReady =>
      obtain rfl := Sum.inl.inj hr
      exact (callRank_afterProbe ..).trans_le (by simp [callRank])
    | notExchanged =>
      obtain rfl := Sum.inl.inj hr
      exact (callRank_afterProbe ..).trans_le (by simp [callRank])
    | fill =>
      obtain rfl := Sum.inl.inj hr
      exact (callRank_afterProbe ..).trans_le (by simp [callRank])
    | _ => first
      | (obtain rfl := Sum.inl.inj hr
         simp [callRank, Probe.rank])
      | simp at hr

/-- The produced inputs are the edges that end in a node, counted there. -/
theorem tally_producedIn_le :
    tally (fun v => if g.isStep v then (producedIn g v).length else 0)
        (List.range g.nodes.length) ≤
      tally (fun u => (g.outEdges u).length) (List.range g.nodes.length) := by
  have hlength : ∀ v, (producedIn g v).length =
      tally (fun u => if g.isStep u then (g.outEdges u).count v else 0)
        (List.range g.nodes.length) := by
    intro v
    simp only [producedIn, List.length_flatMap, tally]
    refine congrArg List.sum (List.map_congr_left fun u _ => ?_)
    split_ifs <;> simp
  -- count each edge at its source
  calc tally (fun v => if g.isStep v then (producedIn g v).length else 0)
        (List.range g.nodes.length)
      ≤ tally (fun v => tally (fun u => (g.outEdges u).count v) (List.range g.nodes.length))
          (List.range g.nodes.length) := by
        refine tally_mono fun v _ => ?_
        split_ifs
        · rw [hlength]
          exact tally_mono fun u _ => by split_ifs <;> simp
        · exact Nat.zero_le _
    _ = tally (fun u => tally (fun v => (g.outEdges u).count v) (List.range g.nodes.length))
          (List.range g.nodes.length) := tally_comm _ _ _
    _ ≤ tally (fun u => (g.outEdges u).length) (List.range g.nodes.length) :=
        tally_mono fun u _ => tally_count_le List.nodup_range

end Calls

/-- The steps of a graph. -/
def stepCount (g : BuildGraph) : ℕ := (List.range g.nodes.length).countP g.isStep

/-- The edges of a graph. -/
def edgeCount (g : BuildGraph) : ℕ :=
  tally (fun v => (g.outEdges v).length) (List.range g.nodes.length)

/-- In every run of a build, the workers make at most seventeen working moves for each step and
eight for each edge. -/
theorem work_le {ctx : StepContext} {cfg : PoolConfig} {disk₀ : Disk}
    {tr : List (State BuildData Call × Action Outcome)} {s : State BuildData Call}
    (hg : ctx.graph.Called)
    (h : (poolMachine (processStep ctx) cfg ctx.graph (.start ctx disk₀)).Run tr s) :
    tr.countP works ≤ 17 * stepCount ctx.graph + 8 * edgeCount ctx.graph := by
  have hwork := countP_works_le (ranked_processStep ctx) hg.linked h
  have hin := tally_producedIn_le (g := ctx.graph)
  have hout : tally (fun v => if ctx.graph.isStep v then (ctx.graph.outEdges v).length else 0)
      (List.range ctx.graph.nodes.length) ≤ edgeCount ctx.graph :=
    tally_mono fun v _ => by split_ifs <;> simp
  -- what a task takes is seventeen, and four for each edge at either end
  have htask : ∀ v, (if ctx.graph.isStep v then
        taskWork (processStep ctx) ctx.graph (callRank ctx.graph) v else 0) =
      (17 * (if ctx.graph.isStep v then 1 else 0) +
        4 * (if ctx.graph.isStep v then (producedIn ctx.graph v).length else 0)) +
        4 * (if ctx.graph.isStep v then (ctx.graph.outEdges v).length else 0) := by
    intro v
    split_ifs
    · simp only [taskWork, processStep, callRank, handOn]
      omega
    · rfl
  rw [funext htask, tally_add, tally_add, tally_const_mul, tally_const_mul, tally_const_mul,
    tally_ite_one] at hwork
  simp only [edgeCount, stepCount] at hout ⊢
  omega

/-- The context of a build of two independent steps. -/
def pairContext : StepContext where
  graph := pair
  flags := .ofDefinitions .empty
  buildFile := ascii "catalyst.build"
  dryRun := false
  rapidHash bytes seed := bytes.foldl (fun hash b => hash * 31 + b.toUInt64) (seed + 1)

theorem acyclic_pair : pair.Acyclic :=
  acyclic_of_rank (fun v => [1, 0, 1].getD v 0) (by decide +kernel)

/-- Each worker makes one file; the first polls and sleeps while the second is at it. -/
theorem exists_joined_pair : ∃ tr s,
    (poolMachine (processStep pairContext) ⟨2, false⟩ pair (.start pairContext ⟨[]⟩)).Run tr s ∧
      s.Joined ⟨2, false⟩ := by
  obtain ⟨tr, s, hrun, hs⟩ := Machine.exists_run_of_exec
    (M := poolMachine (processStep pairContext) ⟨2, false⟩ pair (.start pairContext ⟨[]⟩))
    (s := initialState pair (rootNodes pair) (.start pairContext ⟨[]⟩))
    ⟨rootNodes pair, .refl _, rfl⟩
    [[.spawn, .spawn], List.replicate 12 (.work 0 ⟨some 0, 10⟩),
      List.replicate 3 (.work 1 ⟨some 0, 10⟩), List.replicate 7 (.work 0 ⟨some 0, 10⟩),
      List.replicate 12 (.work 1 ⟨some 0, 20⟩), List.replicate 4 (.work 0 ⟨some 0, 20⟩)].flatten
    (fun r => r.2.Joined ⟨2, false⟩) (by decide +kernel)
  exact ⟨tr, s, hrun, of_decide_eq_true hs⟩

/-- A build with two steps and two edges. -/
theorem work_le_pair : ∃ tr s,
    (poolMachine (processStep pairContext) ⟨2, false⟩ pair (.start pairContext ⟨[]⟩)).Run tr s ∧
      s.Joined ⟨2, false⟩ ∧ tr.countP works ≤ 17 * stepCount pair + 8 * edgeCount pair := by
  obtain ⟨tr, s, hrun, hjoin⟩ := exists_joined_pair
  exact ⟨tr, s, hrun, hjoin, @work_le pairContext _ _ _ _ built_pair.called hrun⟩

end Cob
