import Cob.Executor.WorkerPool

/-!
# What a step of the pool can do

`Move` lists the moves of a worker, one constructor for each branch of `workerStep` with the test
that led to it; `IdleMove` collects the moves that only read the shared state. Invariants are
proved by cases on these relations, so `workerStep` is unfolded in `workerStep_move` alone.
`pool_invariant` is the invariant rule of the pool in these terms.
-/

namespace Cob

section Moves

variable {D C L : Type} (sem : StepSemantics D C L) (cfg : PoolConfig) (g : BuildGraph)

/-- The moves that read the shared state and change only the worker's program counter. -/
inductive IdleMove (sh : Shared) : Pc C → Pc C → Prop
  | empty : sh.queue.take = none → IdleMove sh .dequeue .checkCompleted
  | complete : sh.completedCount = g.nodes.length → IdleMove sh .checkCompleted .returned
  | incomplete : sh.completedCount ≠ g.nodes.length → IdleMove sh .checkCompleted .checkError
  | error : sh.errorOccurred = true → IdleMove sh .checkError .returned
  | noError : sh.errorOccurred = false → IdleMove sh .checkError .loadAvailable
  | available : sh.tasksAvailable ≠ 0 → IdleMove sh .loadAvailable .dequeue
  | unavailable : sh.tasksAvailable = 0 → IdleMove sh .loadAvailable .recheckCompleted
  | complete' : sh.completedCount = g.nodes.length → IdleMove sh .recheckCompleted .returned
  | incomplete' : sh.completedCount ≠ g.nodes.length → IdleMove sh .recheckCompleted .recheckError
  | error' : sh.errorOccurred = true → IdleMove sh .recheckError .returned
  | noError' : sh.errorOccurred = false → IdleMove sh .recheckError .announce
  | stalled : sh.tasksAvailable = 0 → IdleMove sh .stallLoad .stallSignal
  | notStalled : sh.tasksAvailable ≠ 0 → IdleMove sh .stallLoad .wait
  | woken : sh.tasksAvailable ≠ 0 → IdleMove sh .wait .wake

/-- The program counters from which `tasks_available` is set to its maximum, with the next. -/
inductive SignalMove : Pc C → Pc C → Prop
  | stall : SignalMove .stallSignal .stallLeave
  | stop : SignalMove .stopSignal .dequeue
  | complete : SignalMove .signal .dequeue

/-- The moves of a worker. -/
inductive Move (sh : Shared) (d : D) : Pc C → Shared → D → Pc C → List Event → Prop
  | idle {pc pc'} : IdleMove g sh pc pc' → Move sh d pc sh d pc' []
  | take {pos node queue} : sh.queue.take = some (pos, node, queue) →
      Move sh d .dequeue { sh with queue } d (.release pos node) []
  | release {pos node} :
      Move sh d (.release pos node) { sh with queue := sh.queue.release pos } d (.subtract node) []
  | subtract {node} :
      Move sh d (.subtract node) { sh with tasksAvailable := fetchSub sh.tasksAvailable } d
        (.process node (sem.enter node)) [.started node]
  | announceLast : sh.sleepingThreads + 1 = cfg.threadCount →
      Move sh d .announce { sh with sleepingThreads := sh.sleepingThreads + 1 } d .stallLoad []
  | announce : sh.sleepingThreads + 1 ≠ cfg.threadCount →
      Move sh d .announce { sh with sleepingThreads := sh.sleepingThreads + 1 } d .wait []
  | stallLeave :
      Move sh d .stallLeave { sh with sleepingThreads := sh.sleepingThreads - 1 } d .returned []
  | wake :
      Move sh d .wake { sh with sleepingThreads := sh.sleepingThreads - 1 } d .dequeue []
  | signal {pc pc'} : SignalMove pc pc' →
      Move sh d pc { sh with tasksAvailable := sizeMax } d pc' [.signalled]
  | advance {node call label d' call'} : sem.advance d node call label = some (d', .inl call') →
      Move sh d (.process node call) sh d' (.process node call') []
  | succeed {node call label d'} : sem.advance d node call label = some (d', .inr 0) →
      Move sh d (.process node call) sh d' (.countSucceeded node) [.returned node 0]
  | fail {node call label d' result} : sem.advance d node call label = some (d', .inr result) →
      result ≠ 0 → Move sh d (.process node call) sh d' .setError [.returned node result]
  | setError :
      Move sh d .setError { sh with errorOccurred := true } d
        (if cfg.keepGoing then .countFailed else .stopCompleted) []
  | stopCompleted :
      Move sh d .stopCompleted { sh with completedCount := g.nodes.length } d .stopSignal []
  | countFailed :
      Move sh d .countFailed { sh with completedCount := sh.completedCount + 1 } d
        (if sh.completedCount + 1 = g.nodes.length then .signal else .dequeue) []
  | countSucceeded {node} :
      Move sh d (.countSucceeded node) { sh with completedCount := sh.completedCount + 1 } d
        (.decrement (g.outEdges node) (sh.completedCount + 1 = g.nodes.length)) []
  | edgesDone {last} : Move sh d (.decrement [] last) sh d (if last then .signal else .dequeue) []
  | freed {neighbor edges last} : sh.inDegrees[neighbor]? = some 1 →
      Move sh d (.decrement (neighbor :: edges) last)
        { sh with inDegrees := sh.inDegrees.modify neighbor (· - 1) } d
        (.enqueue neighbor edges last) []
  | notFreed {neighbor edges last} : sh.inDegrees[neighbor]? ≠ some 1 →
      Move sh d (.decrement (neighbor :: edges) last)
        { sh with inDegrees := sh.inDegrees.modify neighbor (· - 1) } d
        (.decrement edges last) []
  | claim {target edges last pos queue} : sh.queue.claim target = some (pos, queue) →
      Move sh d (.enqueue target edges last) { sh with queue } d (.publish pos edges last) []
  | reject {target edges last} : sh.queue.claim target = none →
      Move sh d (.enqueue target edges last) sh d (.increment edges last) [.rejected target]
  | publish {pos edges last} :
      Move sh d (.publish pos edges last) { sh with queue := sh.queue.publish pos } d
        (.increment edges last) []
  | increment {edges last} :
      Move sh d (.increment edges last)
        { sh with tasksAvailable := fetchAdd sh.tasksAvailable } d (.decrement edges last) []

variable {sem cfg g}

/-- Every step of a worker is one of the moves. -/
theorem workerStep_move {sh sh' : Shared} {d d' : D} {pc pc' : Pc C} {label : L}
    {events : List Event} (h : workerStep sem cfg g sh d pc label = some (sh', d', pc', events)) :
    Move sem cfg g sh d pc sh' d' pc' events := by
  -- one case for each position of the worker; the positions that only read are the idle moves
  cases pc with
  | dequeue =>
    simp only [workerStep] at h
    split at h
    · next hq =>
      obtain ⟨rfl, rfl, rfl, rfl⟩ := by simpa using h
      exact .take hq
    · next hq =>
      obtain ⟨rfl, rfl, rfl, rfl⟩ := by simpa using h
      exact .idle (.empty hq)
  | release pos node =>
    obtain ⟨rfl, rfl, rfl, rfl⟩ := by simpa [workerStep] using h
    exact .release
  | subtract node =>
    obtain ⟨rfl, rfl, rfl, rfl⟩ := by simpa [workerStep] using h
    exact .subtract
  | checkCompleted =>
    obtain ⟨rfl, rfl, rfl, rfl⟩ := by simpa [workerStep] using h
    split_ifs with hc
    · exact .idle (.complete hc)
    · exact .idle (.incomplete hc)
  | checkError =>
    obtain ⟨rfl, rfl, rfl, rfl⟩ := by simpa [workerStep] using h
    split_ifs with hc
    · exact .idle (.error hc)
    · exact .idle (.noError (by simpa using hc))
  | loadAvailable =>
    obtain ⟨rfl, rfl, rfl, rfl⟩ := by simpa [workerStep] using h
    split_ifs with hc
    · exact .idle (.unavailable hc)
    · exact .idle (.available hc)
  | recheckCompleted =>
    obtain ⟨rfl, rfl, rfl, rfl⟩ := by simpa [workerStep] using h
    split_ifs with hc
    · exact .idle (.complete' hc)
    · exact .idle (.incomplete' hc)
  | recheckError =>
    obtain ⟨rfl, rfl, rfl, rfl⟩ := by simpa [workerStep] using h
    split_ifs with hc
    · exact .idle (.error' hc)
    · exact .idle (.noError' (by simpa using hc))
  | announce =>
    obtain ⟨rfl, rfl, rfl, rfl⟩ := by simpa [workerStep] using h
    split_ifs with hc
    · exact .announceLast hc
    · exact .announce hc
  | stallLoad =>
    obtain ⟨rfl, rfl, rfl, rfl⟩ := by simpa [workerStep] using h
    split_ifs with hc
    · exact .idle (.stalled hc)
    · exact .idle (.notStalled hc)
  | stallSignal =>
    obtain ⟨rfl, rfl, rfl, rfl⟩ := by simpa [workerStep] using h
    exact .signal .stall
  | stallLeave =>
    obtain ⟨rfl, rfl, rfl, rfl⟩ := by simpa [workerStep] using h
    exact .stallLeave
  | wait =>
    simp only [workerStep] at h
    split_ifs at h with hc
    obtain ⟨rfl, rfl, rfl, rfl⟩ := by simpa using h
    exact .idle (.woken hc)
  | wake =>
    obtain ⟨rfl, rfl, rfl, rfl⟩ := by simpa [workerStep] using h
    exact .wake
  | process node call =>
    simp only [workerStep] at h
    split at h
    · simp at h
    · next hadv =>
      obtain ⟨rfl, rfl, rfl, rfl⟩ := by simpa using h
      exact .advance hadv
    · next d₁ result hadv =>
      obtain ⟨rfl, rfl, rfl, rfl⟩ := by simpa using h
      split_ifs with hr
      · subst hr; exact .succeed hadv
      · exact .fail hadv hr
  | setError =>
    obtain ⟨rfl, rfl, rfl, rfl⟩ := by simpa [workerStep] using h
    exact .setError
  | stopCompleted =>
    obtain ⟨rfl, rfl, rfl, rfl⟩ := by simpa [workerStep] using h
    exact .stopCompleted
  | stopSignal =>
    obtain ⟨rfl, rfl, rfl, rfl⟩ := by simpa [workerStep] using h
    exact .signal .stop
  | countFailed =>
    obtain ⟨rfl, rfl, rfl, rfl⟩ := by simpa [workerStep] using h
    exact .countFailed
  | countSucceeded node =>
    obtain ⟨rfl, rfl, rfl, rfl⟩ := by simpa [workerStep] using h
    exact .countSucceeded
  | decrement edges last =>
    cases edges with
    | nil =>
      obtain ⟨rfl, rfl, rfl, rfl⟩ := by simpa [workerStep] using h
      exact .edgesDone
    | cons neighbor edges =>
      obtain ⟨rfl, rfl, rfl, rfl⟩ := by simpa [workerStep] using h
      split_ifs with hc
      · exact .freed hc
      · exact .notFreed hc
  | enqueue target edges last =>
    simp only [workerStep] at h
    split at h
    · next hq =>
      obtain ⟨rfl, rfl, rfl, rfl⟩ := by simpa using h
      exact .claim hq
    · next hq =>
      obtain ⟨rfl, rfl, rfl, rfl⟩ := by simpa using h
      exact .reject hq
  | publish pos edges last =>
    obtain ⟨rfl, rfl, rfl, rfl⟩ := by simpa [workerStep] using h
    exact .publish
  | increment edges last =>
    obtain ⟨rfl, rfl, rfl, rfl⟩ := by simpa [workerStep] using h
    exact .increment
  | signal =>
    obtain ⟨rfl, rfl, rfl, rfl⟩ := by simpa [workerStep] using h
    exact .signal .complete
  | returned => simp [workerStep] at h

/-- The state after worker `i` moved. -/
def State.moved (s : State D C) (i : ℕ) (sh : Shared) (d : D) (pc : Pc C) (events : List Event) :
    State D C :=
  { s with shared := sh, data := d, workers := s.workers.set i pc, log := s.log ++ events }

variable (sem cfg g) in
/-- Every step of the pool: the spawning loop stops or spawns, or a worker moves. -/
inductive PoolStep (s : State D C) : Action L → State D C → Prop
  | stop : s.spawning = true → s.shared.completedCount = g.nodes.length →
      PoolStep s .spawn { s with spawning := false }
  | spawn : s.spawning = true → s.workers.length < cfg.threadCount →
      s.shared.completedCount ≠ g.nodes.length →
      PoolStep s .spawn { s with workers := s.workers ++ [.dequeue] }
  | move {i label pc sh d pc' events} : s.workers[i]? = some pc →
      Move sem cfg g s.shared s.data pc sh d pc' events →
      PoolStep s (.work i label) (s.moved i sh d pc' events)

/-- A worker in `processStep` makes the access of the outcome that the step is labelled with. -/
theorem advance_of_poolStep {s s' : State D C} {i v : ℕ} {label : L} {call : C}
    (h : poolStep sem cfg g s (.work i label) = some s')
    (hi : s.workers[i]? = some (.process v call)) :
    ∃ r, sem.advance s.data v call label = some (s'.data, r) := by
  simp only [poolStep, hi, workerStep] at h
  split at h
  · simp at h
  · next d' call' hadv =>
    obtain rfl := by simpa using h
    exact ⟨_, hadv⟩
  · next d' result hadv =>
    obtain rfl := by simpa using h
    exact ⟨_, hadv⟩

theorem poolStep_cases {s s' : State D C} {a : Action L} (h : poolStep sem cfg g s a = some s') :
    PoolStep sem cfg g s a s' := by
  cases a with
  | spawn =>
    simp only [poolStep] at h
    split_ifs at h with hspawn hdone
    · obtain rfl := Option.some.inj h
      exact .stop hspawn.1 hdone
    · obtain rfl := Option.some.inj h
      exact .spawn hspawn.1 hspawn.2 hdone
  | work i label =>
    simp only [poolStep] at h
    split at h
    · simp at h
    · next pc hpc =>
      obtain ⟨⟨sh, d, pc', events⟩, hstep, rfl⟩ := Option.map_eq_some_iff.mp h
      exact .move hpc (workerStep_move hstep)

/-- The invariant rule of the pool: an invariant holds in the seeded states, the spawning loop
keeps it, and every move of a worker that satisfies the guard keeps it. -/
theorem pool_invariant_via {d₀ : D} {G : State D C → Action L → Prop} {I : State D C → Prop}
    (start : ∀ order, order.Perm (rootNodes g) → I (initialState g order d₀))
    (stop : ∀ s, I s → I { s with spawning := false })
    (spawn : ∀ s, (poolMachine sem cfg g d₀).Reachable s → I s →
      s.shared.completedCount ≠ g.nodes.length → s.workers.length < cfg.threadCount →
      I { s with workers := s.workers ++ [.dequeue] })
    (move : ∀ s i label pc sh d pc' events, (poolMachine sem cfg g d₀).Reachable s → I s →
      G s (.work i label) → s.workers[i]? = some pc →
      Move sem cfg g s.shared s.data pc sh d pc' events → I (s.moved i sh d pc' events))
    {s : State D C} (h : (poolMachine sem cfg g d₀).ReachableVia G s) : I s := by
  refine Machine.ReachableVia.invariant ?_ ?_ h
  · rintro s ⟨order, horder, rfl⟩
    exact start order horder
  · intro s a s' hr hI hG hs
    cases poolStep_cases hs with
    | stop => exact stop s hI
    | spawn _ hlt hne => exact spawn s hr.reachable hI hne hlt
    | move hi hmove => exact move s _ _ _ _ _ _ _ hr.reachable hI hG hi hmove

/-- The invariant rule of the pool, for all runs. -/
theorem pool_invariant {d₀ : D} {I : State D C → Prop}
    (start : ∀ order, order.Perm (rootNodes g) → I (initialState g order d₀))
    (stop : ∀ s, I s → I { s with spawning := false })
    (spawn : ∀ s, (poolMachine sem cfg g d₀).Reachable s → I s →
      s.shared.completedCount ≠ g.nodes.length → s.workers.length < cfg.threadCount →
      I { s with workers := s.workers ++ [.dequeue] })
    (move : ∀ s i pc sh d pc' events, (poolMachine sem cfg g d₀).Reachable s → I s →
      s.workers[i]? = some pc → Move sem cfg g s.shared s.data pc sh d pc' events →
      I (s.moved i sh d pc' events))
    {s : State D C} (h : (poolMachine sem cfg g d₀).Reachable s) : I s := by
  obtain ⟨tr, htr⟩ := h
  have hvia : (poolMachine sem cfg g d₀).ReachableVia (fun _ _ => True) s :=
    ⟨tr, htr, fun _ _ => trivial⟩
  exact pool_invariant_via start stop spawn
    (fun s i _ pc sh d pc' events hr hI _ => move s i pc sh d pc' events hr hI) hvia

end Moves

end Cob
