import Cob.Executor.ReadyQueue
import Cob.Graph.BuildGraph
import Cob.Lib.Machine
import Cob.Lib.Tally

/-!
# The worker pool

`Executor::workerLoop`, `pushReady` and the parts of `Executor::execute` that seed the ready queue,
spawn the workers and read the outcome. Every shared access of the sources is one step: a worker
is at a program counter `Pc` and `workerStep` performs the access there. What happens inside
`processStep` is left to a `StepSemantics`; the scheduler only sees that a call is entered and
returns a result.

`tasks_available` is a 64-bit counter, so it is kept modulo `2 ^ 64`; the other counters stay far
below their widths and are unbounded here. `wait(0)` may return whenever the counter is not `0`,
so notifications need no steps.

`State.log` is a history variable: no step reads it.
-/

namespace Cob

/-- `std::numeric_limits<size_t>::max()`, the value that wakes everyone. -/
def sizeMax : ℕ := 18446744073709551615

/-- `fetch_add(1)` on a `size_t`. -/
def fetchAdd (n : ℕ) : ℕ := (n + 1) % 18446744073709551616

/-- `fetch_sub(1)` on a `size_t`. -/
def fetchSub (n : ℕ) : ℕ := (n + sizeMax) % 18446744073709551616

/-- A `processStep` call as its worker sees it: shared data `D`, the call's own state `C`, and
what the environment contributes to a step, `L`. -/
structure StepSemantics (D C L : Type) where
  /-- The call for a node, not begun yet. -/
  enter : ℕ → C
  /-- The next atomic access of a call: it goes on, or returns a result. -/
  advance : D → ℕ → C → L → Option (D × (C ⊕ ℤ))

/-- The calls whose results the environment picks. -/
def scripted : StepSemantics Unit Unit ℤ where
  enter _ := ()
  advance _ _ _ result := some ((), .inr result)

/-- The configuration the workers read. -/
structure PoolConfig where
  threadCount : ℕ
  keepGoing : Bool
  deriving DecidableEq

/-- Where a worker is in `workerLoop`. `last` remembers `prev_completed + 1 == total_nodes`. -/
inductive Pc (C : Type) where
  /-- `ready_queue.dequeue(task)` -/
  | dequeue
  /-- the last store of `dequeue` -/
  | release (pos node : ℕ)
  /-- `tasks_available.fetch_sub(1)` -/
  | subtract (node : ℕ)
  /-- `completed_count.load() == total_nodes` -/
  | checkCompleted
  /-- `error_occurred.load()` -/
  | checkError
  /-- `curr = tasks_available.load()` -/
  | loadAvailable
  /-- the second `completed_count` check, with `curr == 0` -/
  | recheckCompleted
  /-- the second `error_occurred` check -/
  | recheckError
  /-- `sleeping_threads.fetch_add(1)` -/
  | announce
  /-- `tasks_available.load() == 0` with everyone asleep -/
  | stallLoad
  /-- the stall detector's `tasks_available.store(max)` -/
  | stallSignal
  /-- the stall detector's `sleeping_threads.fetch_sub(1)` -/
  | stallLeave
  /-- `tasks_available.wait(0)` -/
  | wait
  /-- `sleeping_threads.fetch_sub(1)` after the wait -/
  | wake
  /-- inside `processStep` -/
  | process (node : ℕ) (call : C)
  /-- `error_occurred.store(true)` -/
  | setError
  /-- `completed_count.store(total_nodes)` -/
  | stopCompleted
  /-- `tasks_available.store(max)` after a failure -/
  | stopSignal
  /-- `completed_count.fetch_add(1)` after a failure, keeping going -/
  | countFailed
  /-- `completed_count.fetch_add(1)` after a success -/
  | countSucceeded (node : ℕ)
  /-- `in_degrees[neighbor].fetch_sub(1)` for the first of the remaining edges -/
  | decrement (edges : List ℕ) (last : Bool)
  /-- `ready_queue.enqueue` in `pushReady` -/
  | enqueue (target : ℕ) (edges : List ℕ) (last : Bool)
  /-- the store of `enqueue` that publishes the cell -/
  | publish (pos : ℕ) (edges : List ℕ) (last : Bool)
  /-- `tasks_available.fetch_add(1)` in `pushReady` -/
  | increment (edges : List ℕ) (last : Bool)
  /-- `tasks_available.store(max)` after the last completion -/
  | signal
  /-- the worker returned -/
  | returned
  deriving DecidableEq

/-- What the history records. -/
inductive Event where
  /-- an `enqueue` answered false -/
  | rejected (node : ℕ)
  /-- `processStep` was called -/
  | started (node : ℕ)
  /-- `processStep` returned -/
  | returned (node : ℕ) (result : ℤ)
  /-- `tasks_available` was set to its maximum -/
  | signalled
  deriving DecidableEq

/-- The nodes that the recorded events start. -/
def startedIn (events : List Event) : List ℕ :=
  events.filterMap fun | .started n => some n | _ => none

/-- The nodes that the recorded events finish. -/
def finishedIn (events : List Event) : List ℕ :=
  events.filterMap fun | .returned n _ => some n | _ => none

/-- The event is a `processStep` that failed. -/
def Event.failed : Event → Bool
  | .returned _ result => result != 0
  | _ => false

/-- The atomics of `ExecuteContext` that the workers share. -/
structure Shared where
  queue : ReadyQueue
  tasksAvailable : ℕ
  sleepingThreads : ℕ
  completedCount : ℕ
  inDegrees : List ℤ
  errorOccurred : Bool
  deriving DecidableEq

section Loop

variable {D C L : Type} (sem : StepSemantics D C L) (cfg : PoolConfig) (g : BuildGraph)

/-- One atomic step of a worker: the shared state and data after it, the worker's next program
counter, and what the history records. `none` when the worker is blocked or has returned. -/
def workerStep (sh : Shared) (d : D) (pc : Pc C) (label : L) :
    Option (Shared × D × Pc C × List Event) :=
  let total := g.nodes.length
  match pc with
  | .dequeue =>
    match sh.queue.take with
    | some (pos, node, queue) => some ({ sh with queue }, d, .release pos node, [])
    | none => some (sh, d, .checkCompleted, [])
  | .release pos node => some ({ sh with queue := sh.queue.release pos }, d, .subtract node, [])
  | .subtract node =>
    some ({ sh with tasksAvailable := fetchSub sh.tasksAvailable }, d,
      .process node (sem.enter node), [.started node])
  -- nothing was dequeued: twice through the two checks, with the count of tasks between them
  | .checkCompleted =>
    some (sh, d, if sh.completedCount = total then .returned else .checkError, [])
  | .checkError => some (sh, d, if sh.errorOccurred then .returned else .loadAvailable, [])
  | .loadAvailable =>
    some (sh, d, if sh.tasksAvailable = 0 then .recheckCompleted else .dequeue, [])
  | .recheckCompleted =>
    some (sh, d, if sh.completedCount = total then .returned else .recheckError, [])
  | .recheckError => some (sh, d, if sh.errorOccurred then .returned else .announce, [])
  -- `tasks_available` is loaded again only when all threads sleep
  | .announce =>
    some ({ sh with sleepingThreads := sh.sleepingThreads + 1 }, d,
      if sh.sleepingThreads + 1 = cfg.threadCount then .stallLoad else .wait, [])
  | .stallLoad => some (sh, d, if sh.tasksAvailable = 0 then .stallSignal else .wait, [])
  -- a stall: the detector wakes the others and returns itself
  | .stallSignal => some ({ sh with tasksAvailable := sizeMax }, d, .stallLeave, [.signalled])
  | .stallLeave =>
    some ({ sh with sleepingThreads := sh.sleepingThreads - 1 }, d, .returned, [])
  -- the futex wait blocks while the value is still the 0 that was loaded
  | .wait => if sh.tasksAvailable = 0 then none else some (sh, d, .wake, [])
  | .wake => some ({ sh with sleepingThreads := sh.sleepingThreads - 1 }, d, .dequeue, [])
  | .process node call =>
    match sem.advance d node call label with
    | none => none
    | some (d', .inl call') => some (sh, d', .process node call', [])
    | some (d', .inr result) =>
      some (sh, d', if result = 0 then .countSucceeded node else .setError,
        [.returned node result])
  -- a failure tells everyone to exit, or counts as completed with `keep_going`
  | .setError =>
    some ({ sh with errorOccurred := true }, d,
      if cfg.keepGoing then .countFailed else .stopCompleted, [])
  | .stopCompleted => some ({ sh with completedCount := total }, d, .stopSignal, [])
  | .stopSignal => some ({ sh with tasksAvailable := sizeMax }, d, .dequeue, [.signalled])
  | .countFailed =>
    some ({ sh with completedCount := sh.completedCount + 1 }, d,
      if sh.completedCount + 1 = total then .signal else .dequeue, [])
  -- a success frees the neighbors one by one; whether it was the last is known before
  | .countSucceeded node =>
    some ({ sh with completedCount := sh.completedCount + 1 }, d,
      .decrement (g.outEdges node) (sh.completedCount + 1 = total), [])
  | .decrement [] last => some (sh, d, if last then .signal else .dequeue, [])
  | .decrement (neighbor :: edges) last =>
    some ({ sh with inDegrees := sh.inDegrees.modify neighbor (· - 1) }, d,
      if sh.inDegrees[neighbor]? = some 1 then .enqueue neighbor edges last
      else .decrement edges last, [])
  -- `pushReady` does not look at the answer, and counts the task in either case
  | .enqueue target edges last =>
    match sh.queue.claim target with
    | some (pos, queue) => some ({ sh with queue }, d, .publish pos edges last, [])
    | none => some (sh, d, .increment edges last, [.rejected target])
  | .publish pos edges last =>
    some ({ sh with queue := sh.queue.publish pos }, d, .increment edges last, [])
  | .increment edges last =>
    some ({ sh with tasksAvailable := fetchAdd sh.tasksAvailable }, d, .decrement edges last, [])
  | .signal => some ({ sh with tasksAvailable := sizeMax }, d, .dequeue, [.signalled])
  | .returned => none

/-- The worker pool: shared state, the workers spawned so far, and whether the spawning loop of
`execute` is still running. -/
structure State (D C : Type) where
  shared : Shared
  data : D
  workers : List (Pc C)
  spawning : Bool
  log : List Event
  deriving DecidableEq

/-- Who moves: the spawning loop, or a worker with what the environment gives it. -/
inductive Action (L : Type) where
  | spawn
  | work (worker : ℕ) (label : L)

/-- One step of the pool. -/
def poolStep (s : State D C) : Action L → Option (State D C)
  | .spawn =>
    if s.spawning ∧ s.workers.length < cfg.threadCount then
      -- workers that are already running may have completed everything
      if s.shared.completedCount = g.nodes.length then some { s with spawning := false }
      else some { s with workers := s.workers ++ [.dequeue] }
    else none
  | .work i label =>
    match s.workers[i]? with
    | none => none
    | some pc =>
      (workerStep sem cfg g s.shared s.data pc label).map fun (shared, data, pc', events) =>
        { s with shared, data, workers := s.workers.set i pc', log := s.log ++ events }

end Loop

/-! ### Seeding -/

/-- `temp_in_degrees`: the edges from produced nodes, counted per target. The counters are `int`s,
which the counts fit as long as fewer than `2 ^ 31` edges lead into one node. -/
def inDegrees (g : BuildGraph) : List ℤ :=
  g.nodes.foldl
    (fun degrees node =>
      if node.stepId.isSome then
        node.outEdges.foldl (fun degrees out => degrees.modify out (· + 1)) degrees
      else degrees)
    (List.replicate g.nodes.length 0)

/-- `source_nodes`. -/
def sourceNodes (g : BuildGraph) : ℕ := g.nodes.countP fun n => n.stepId.isNone

/-- The initial tasks: produced nodes without produced inputs. -/
def rootNodes (g : BuildGraph) : List ℕ :=
  (List.range g.nodes.length).filter fun i => g.isStep i && (inDegrees g)[i]? = some 0

/-- Decrementing the in-degree of an edge's target, which becomes ready at zero; of an `int`, like
`inDegrees`. -/
def relax (p : List ℤ × List ℕ) (out : ℕ) : List ℤ × List ℕ :=
  (p.1.modify out (· - 1), if p.1[out]? = some 1 then out :: p.2 else p.2)

/-- The nodes visited by the cycle check of `execute`, Kahn's algorithm over the produced nodes.
Every node gets ready at most once, so as many rounds as there are nodes suffice. -/
def visit (g : BuildGraph) : ℕ → List ℤ → List ℕ → ℕ → ℕ
  | fuel + 1, remaining, node :: ready, visited =>
    let p := (g.outEdges node).foldl relax (remaining, ready)
    visit g fuel p.1 p.2 (visited + 1)
  | _, _, _, visited => visited

/-- `visited + source_nodes == nodes().size()`: the check finds no cycle. -/
def noCycle (g : BuildGraph) : Bool :=
  visit g g.nodes.length (inDegrees g) (rootNodes g).reverse 0 + sourceNodes g = g.nodes.length

/-- Enqueueing one initial task, with nobody else running. -/
def seed (p : Shared × List Event) (node : ℕ) : Shared × List Event :=
  match p.1.queue.claim node with
  | some (pos, queue) =>
    ({ p.1 with queue := queue.publish pos, tasksAvailable := fetchAdd p.1.tasksAvailable }, p.2)
  | none => ({ p.1 with tasksAvailable := fetchAdd p.1.tasksAvailable }, p.2 ++ [.rejected node])

/-- The context before the initial tasks are enqueued. -/
def freshShared (g : BuildGraph) : Shared where
  queue := .create g.nodes.length
  tasksAvailable := 0
  sleepingThreads := 0
  completedCount := sourceNodes g
  inDegrees := inDegrees g
  errorOccurred := false

/-- The pool before the first worker is spawned, with the initial tasks enqueued in `order`. -/
def initialState {D C : Type} (g : BuildGraph) (order : List ℕ) (data : D) : State D C where
  shared := (order.foldl seed (freshShared g, [])).1
  data := data
  workers := []
  spawning := true
  log := (order.foldl seed (freshShared g, [])).2

/-- The pool as a machine. `std::ranges::sort` may leave tasks with equal estimates in any order,
so every order of the initial tasks is possible. -/
def poolMachine {D C L : Type} (sem : StepSemantics D C L) (cfg : PoolConfig) (g : BuildGraph)
    (data : D) : Machine (State D C) (Action L) where
  init s := ∃ order, order.Perm (rootNodes g) ∧ s = initialState g order data
  step := poolStep sem cfg g

namespace State

variable {D C : Type} (s : State D C)

/-- `pool.clear()` has joined all workers. -/
def Joined (cfg : PoolConfig) : Prop :=
  (s.spawning = false ∨ s.workers.length = cfg.threadCount) ∧ ∀ pc ∈ s.workers, pc = .returned

/-- What `execute` answers once the workers are joined. -/
def executeResult (g : BuildGraph) : Except Bytes Unit :=
  if s.shared.errorOccurred then .error (ascii "Build Failed")
  else if s.shared.completedCount ≠ g.nodes.length then
    .error (ascii "Build stalled: Concurrency or scheduling bug detected.")
  else .ok ()

/-- The nodes `processStep` was called on. -/
def started : List ℕ := startedIn s.log

/-- The nodes `processStep` returned from. -/
def finished : List ℕ := finishedIn s.log

/-- `processStep` returned `0` for the node. -/
def succeeded (n : ℕ) : Bool := s.log.contains (.returned n 0)

/-- Some `processStep` failed. -/
def anyFailed : Bool := s.log.any Event.failed

/-- `tasks_available` was set to its maximum. -/
def anySignalled : Bool := s.log.contains .signalled

instance [DecidableEq C] (cfg : PoolConfig) : Decidable (s.Joined cfg) := by
  unfold Joined
  infer_instance

end State

end Cob
