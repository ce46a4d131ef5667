import Cob.Executor.Dispatch

/-!
# The wake-up counter

`tasks_available` against the ready queue. An enqueued task is added to the counter only after it
is visible, and a dequeued one is subtracted only after it is gone, so between signals the counter
shows the queue up to the updates in flight (`Balanced`). Setting the counter to its maximum
forgets the updates in flight: the counter shows the queue again right after it exactly when the
signal was `Missed`.

The module also shows who is still awake:

* `busy_of_waiting` — while a task waits, some worker has not found the queue empty;
* `signalled_or_announcing` — once everything completed, someone signals or has signalled;
* `completed_of_idle` — without failures, a pool that ran dry completed everything.
-/

namespace Cob

open BuildGraph

namespace Pc

variable {C : Type}

/-- Enqueues whose `fetch_add` is still to come. -/
def adding : Pc C → ℕ
  | .publish _ _ _ => 1
  | .increment _ _ => 1
  | _ => 0

/-- Dequeues whose `fetch_sub` is still to come. -/
def subtracting : Pc C → ℕ
  | .release _ _ => 1
  | .subtract _ => 1
  | _ => 0

/-- The next access sets `tasks_available` to its maximum. -/
def signalling : Pc C → Bool
  | .stallSignal => true
  | .stopSignal => true
  | .signal => true
  | _ => false

/-- The worker will signal that the build is over. -/
def announcing : Pc C → Bool
  | .decrement _ last => last
  | .enqueue _ _ last => last
  | .publish _ _ last => last
  | .increment _ last => last
  | .stopSignal => true
  | .signal => true
  | _ => false

/-- The worker found the queue empty and did not look again. -/
def idle : Pc C → Bool
  | .checkCompleted => true
  | .checkError => true
  | .loadAvailable => true
  | .recheckCompleted => true
  | .recheckError => true
  | .announce => true
  | .stallLoad => true
  | .stallSignal => true
  | .stallLeave => true
  | .wait => true
  | .wake => true
  | .returned => true
  | _ => false

end Pc

section Balance

variable {D C L : Type} {sem : StepSemantics D C L} {cfg : PoolConfig} {g : BuildGraph}

/-- The counter shows the waiting tasks, up to the updates in flight. -/
def Balanced (s : State D C) : Prop :=
  (s.shared.tasksAvailable + tally Pc.adding s.workers) % 18446744073709551616 =
    (s.shared.queue.waiting + tally Pc.subtracting s.workers) % 18446744073709551616

/-- A signal now is missed: one more `fetch_add` is to come than the waiting tasks and the
`fetch_sub`s to come make up for, so the counter wraps around to the waiting tasks. -/
def Missed (s : State D C) : Prop :=
  (s.shared.queue.waiting + tally Pc.subtracting s.workers + 1) % 18446744073709551616 =
    tally Pc.adding s.workers % 18446744073709551616

instance (s : State D C) : Decidable (Missed s) := by
  unfold Missed
  infer_instance

variable {s : State D C} {i : ℕ} {sh sh' : Shared} {d d' : D} {pc pc' : Pc C}
  {events : List Event}

theorem waiting_of_claim {q q' : ReadyQueue} {node pos : ℕ} (h : q.claim node = some (pos, q'))
    (hpos : q.dequeuePos ≤ q.cells.length) : q'.waiting = q.waiting + 1 := by
  obtain ⟨-, rfl⟩ := ReadyQueue.claim_eq_some h
  simp only [ReadyQueue.waiting, List.length_append, List.length_singleton]
  omega

theorem waiting_of_take {q q' : ReadyQueue} {node pos : ℕ} (h : q.take = some (pos, node, q')) :
    q.waiting = q'.waiting + 1 := by
  obtain ⟨-, rfl, c, hc, -⟩ := ReadyQueue.take_eq_some h
  have hlt := (List.getElem?_eq_some_iff.mp hc).1
  simp only [ReadyQueue.waiting]
  omega

/-- Between signals, the counter and the updates in flight change together with the queue. -/
theorem Move.balance (h : Move sem cfg g sh d pc sh' d' pc' events)
    (hpos : sh.queue.dequeuePos ≤ sh.queue.cells.length) (hrejected : ∀ n, .rejected n ∉ events)
    (hsig : pc.signalling = false) :
    (sh'.tasksAvailable + pc'.adding + sh.queue.waiting + pc.subtracting) % 18446744073709551616 =
      (sh.tasksAvailable + pc.adding + sh'.queue.waiting + pc'.subtracting) %
        18446744073709551616 := by
  -- the queue and the counter move together, up to what the worker has still to add or subtract
  cases h with
  | idle h => cases h <;> rfl
  | signal h => cases h <;> simp [Pc.signalling] at hsig
  | take hq =>
    have := waiting_of_take hq
    simp only [Pc.adding, Pc.subtracting]
    omega
  | claim hq =>
    have := waiting_of_claim hq hpos
    simp only [Pc.adding, Pc.subtracting]
    omega
  | reject => simp at hrejected
  | subtract =>
    simp only [Pc.adding, Pc.subtracting, fetchSub, sizeMax]
    omega
  | increment =>
    simp only [Pc.adding, Pc.subtracting, fetchAdd]
    omega
  | release => simp [Pc.adding, Pc.subtracting]
  | publish => simp [Pc.adding, Pc.subtracting]
  | announceLast => rfl
  | announce => rfl
  | edgesDone => split_ifs <;> rfl
  | countFailed => split_ifs <;> rfl
  | setError => split_ifs <;> rfl
  | _ => rfl

/-- A move without a signal keeps the balance, and the lack of it. -/
theorem balanced_moved (h : Accounted g s) (hi : s.workers[i]? = some pc)
    (hm : Move sem cfg g s.shared s.data pc sh d pc' events) (hsig : pc.signalling = false) :
    Balanced (s.moved i sh d pc' events) ↔ Balanced s := by
  have hbal := hm.balance h.dequeuePos_le (hm.accepted h hi) hsig
  have hadd := tally_set (Pc.adding : Pc C → ℕ) hi pc'
  have hsub := tally_set (Pc.subtracting : Pc C → ℕ) hi pc'
  simp only [Balanced, State.moved]
  constructor <;> intro hb <;> omega

/-- Right after a signal the counter shows the queue exactly when the signal was missed. -/
theorem balanced_signalled (hi : s.workers[i]? = some pc)
    (hm : Move sem cfg g s.shared s.data pc sh d pc' events) (hsig : pc.signalling = true) :
    Balanced (s.moved i sh d pc' events) ↔ Missed s := by
  have hadd := tally_set (Pc.adding : Pc C → ℕ) hi pc'
  have hsub := tally_set (Pc.subtracting : Pc C → ℕ) hi pc'
  have hpcs : pc.adding = 0 ∧ pc'.adding = 0 ∧ pc.subtracting = 0 ∧ pc'.subtracting = 0 ∧
      sh.tasksAvailable = sizeMax ∧ sh.queue = s.shared.queue := by
    cases hm with
    | signal hm => cases hm <;> exact ⟨rfl, rfl, rfl, rfl, rfl, rfl⟩
    | idle hm => cases hm <;> simp [Pc.signalling] at hsig
    | _ => simp [Pc.signalling] at hsig
  obtain ⟨h₁, h₂, h₃, h₄, htasks, hqueue⟩ := hpcs
  simp only [Balanced, Missed, State.moved, htasks, hqueue, sizeMax]
  constructor <;> intro hb <;> omega

end Balance

/-! ### Who is awake -/

section Awake

variable {D C L : Type} {sem : StepSemantics D C L} {cfg : PoolConfig} {g : BuildGraph} {d₀ : D}
  {s : State D C} {i : ℕ} {sh sh' : Shared} {d d' : D} {pc pc' : Pc C} {events : List Event}

/-- The worker is about to publish position `pos`. -/
def Pc.Publishes (pos : ℕ) (pc : Pc C) : Prop := ∃ edges last, pc = .publish pos edges last

/-- Every claimed position that is not published has a worker that will publish it. -/
def Owned (s : State D C) : Prop :=
  ∀ pos c, s.shared.queue.cells[pos]? = some c → c.published = false →
    ∃ pc ∈ s.workers, pc.Publishes pos

/-- A move leaves the cells as they are, claims a position at the end, or marks one. -/
theorem Move.cells_cases (h : Move sem cfg g sh d pc sh' d' pc' events) :
    (∀ pos c', sh'.queue.cells[pos]? = some c' → c'.published = false →
      ∃ c, sh.queue.cells[pos]? = some c ∧ c.published = false ∧ ¬ pc.Publishes pos) ∨
    ∃ node, sh'.queue.cells = sh.queue.cells ++ [⟨node, false, false⟩] ∧
      pc'.Publishes sh.queue.cells.length ∧ ∀ pos, ¬ pc.Publishes pos := by
  -- most moves leave the cells as they are
  have hsame : sh'.queue.cells = sh.queue.cells → (∀ pos, ¬ pc.Publishes pos) →
      ∀ pos c', sh'.queue.cells[pos]? = some c' → c'.published = false →
        ∃ c, sh.queue.cells[pos]? = some c ∧ c.published = false ∧ ¬ pc.Publishes pos :=
    fun heq hno pos c' hc hp => ⟨c', heq ▸ hc, hp, hno pos⟩
  cases h with
  | idle h => cases h <;> exact .inl (hsame rfl (by simp [Pc.Publishes]))
  | signal h => cases h <;> exact .inl (hsame rfl (by simp [Pc.Publishes]))
  | take hq =>
    obtain ⟨-, rfl, -⟩ := ReadyQueue.take_eq_some hq
    exact .inl (hsame rfl (by simp [Pc.Publishes]))
  | claim hq =>
    obtain ⟨rfl, rfl⟩ := ReadyQueue.claim_eq_some hq
    exact .inr ⟨_, rfl, ⟨_, _, rfl⟩, by simp [Pc.Publishes]⟩
  | @release pos node =>
    refine .inl fun k c' hc hp => ?_
    obtain ⟨c, hold, rfl⟩ := by simpa [ReadyQueue.release, List.getElem?_modify] using hc
    exact ⟨c, hold, by split_ifs at hp <;> exact hp, by simp [Pc.Publishes]⟩
  | @publish pos edges last =>
    refine .inl fun k c' hc hp => ?_
    obtain ⟨c, hold, rfl⟩ := by simpa [ReadyQueue.publish, List.getElem?_modify] using hc
    by_cases hk : pos = k
    · simp [hk] at hp
    · exact ⟨c, hold, by simpa [hk] using hp, by simp [Pc.Publishes, hk]⟩
  | _ => exact .inl (hsame rfl (by simp [Pc.Publishes]))

theorem owned (h : (poolMachine sem cfg g d₀).Reachable s) : Owned s := by
  refine pool_invariant (I := Owned) ?_ ?_ ?_ ?_ h
  · intro order horder pos c hc hp
    rw [initialState_eq g horder] at hc
    obtain ⟨n, -, rfl⟩ := by simpa using hc
    simp [Cell.waiting] at hp
  · exact fun s hI => hI
  · intro s _ hI _ _ pos c hc hp
    obtain ⟨pc, hpc, howner⟩ := hI pos c hc hp
    exact ⟨pc, List.mem_append_left _ hpc, howner⟩
  · intro s i pc sh d pc' events _ hI hi hm pos c hc hp
    rcases hm.cells_cases with hold | ⟨node, hcells, hnew, hno⟩
    · obtain ⟨c₀, hc₀, hp₀, hpc⟩ := hold pos c hc hp
      exact exists_mem_set_of_not hi hpc (hI pos c₀ hc₀ hp₀)
    · simp only [State.moved, hcells] at hc
      by_cases hlt : pos < s.shared.queue.cells.length
      · rw [List.getElem?_append_left hlt] at hc
        exact exists_mem_set_of_not hi (hno pos) (hI pos c hc hp)
      · have hpos : pos = s.shared.queue.cells.length := by
          have := (List.getElem?_eq_some_iff.mp hc).1
          simp only [List.length_append, List.length_singleton] at this
          omega
        exact ⟨pc', List.mem_set (List.getElem?_eq_some_iff.mp hi).1 pc', hpos ▸ hnew⟩

/-- A worker turns idle only by finding the queue empty, and makes a task wait only by claiming
its position. -/
theorem Move.idle_cases (h : Move sem cfg g sh d pc sh' d' pc' events) :
    pc'.idle = false ∨ (pc.idle = true ∧ sh'.queue = sh.queue) ∨
      (pc = .dequeue ∧ sh'.queue = sh.queue ∧ sh.queue.take = none) := by
  cases h with
  | idle h => cases h <;> simp_all [Pc.idle]
  | signal h => cases h <;> simp [Pc.idle]
  | stallLeave => exact .inr (.inl ⟨rfl, rfl⟩)
  | announceLast => exact .inr (.inl ⟨rfl, rfl⟩)
  | announce => exact .inr (.inl ⟨rfl, rfl⟩)
  | setError => split_ifs <;> exact .inl rfl
  | countFailed => split_ifs <;> exact .inl rfl
  | edgesDone => split_ifs <;> exact .inl rfl
  | _ => exact .inl rfl

/-- While a task waits, some worker has not found the queue empty, or none was spawned yet. -/
theorem busy_of_waiting (h : (poolMachine sem cfg g d₀).Reachable s)
    (hw : 0 < s.shared.queue.waiting) : s.workers = [] ∨ ∃ pc ∈ s.workers, pc.idle = false := by
  revert hw
  refine pool_invariant (I := fun s => 0 < s.shared.queue.waiting →
    s.workers = [] ∨ ∃ pc ∈ s.workers, pc.idle = false) ?_ ?_ ?_ ?_ h
  · intro order horder _
    rw [initialState_eq g horder]
    exact .inl rfl
  · exact fun s hI => hI
  · exact fun s _ hI _ _ _ => .inr ⟨.dequeue, by simp, rfl⟩
  · intro s i pc sh d pc' events hr hI hi hm hw
    have hmem : pc' ∈ s.workers.set i pc' :=
      List.mem_set (List.getElem?_eq_some_iff.mp hi).1 pc'
    rcases hm.idle_cases with hbusy | ⟨hidle, hqueue⟩ | ⟨rfl, hqueue, htake⟩
    · exact .inr ⟨pc', hmem, hbusy⟩
    · simp only [State.moved, hqueue] at hw
      rcases hI hw with hnil | hbusy
      · simp [hnil] at hi
      · exact .inr (exists_mem_set_of_not hi (by simp [hidle]) hbusy)
    · simp only [State.moved, hqueue] at hw
      rcases ReadyQueue.take_eq_none htake with hzero | ⟨c, hc, hp⟩
      · omega
      · -- the task at the dequeue position is not published yet: its owner is busy
        obtain ⟨owner, howner, edges, last, rfl⟩ := owned hr _ c hc hp
        have hbusy := exists_mem_set_of_not
          (p := fun pc : Pc C => pc.idle = false ∧ pc ≠ .dequeue) (b := pc') hi (by simp)
          ⟨_, howner, rfl, by simp⟩
        obtain ⟨pc₁, hpc₁, hidle, -⟩ := hbusy
        exact .inr ⟨pc₁, hpc₁, hidle⟩

/-- What was recorded stays recorded. -/
theorem anySignalled_moved (h : s.anySignalled = true) :
    (s.moved i sh d pc' events).anySignalled = true := by
  simp only [State.anySignalled, State.moved, List.contains_append, Bool.or_eq_true]
  exact .inl h

/-- A worker that announces the end keeps doing so until it signals. -/
theorem Move.announcing_cases (h : Move sem cfg g sh d pc sh' d' pc' events)
    (ha : pc.announcing = true) : pc'.announcing = true ∨ .signalled ∈ events := by
  cases h with
  | idle h => cases h <;> simp [Pc.announcing] at ha
  | signal h => exact .inr (by simp)
  | edgesDone =>
    simp only [Pc.announcing] at ha
    exact .inl (by simp [ha, Pc.announcing])
  | freed => exact .inl ha
  | notFreed => exact .inl ha
  | claim => exact .inl ha
  | reject => exact .inl ha
  | publish => exact .inl ha
  | increment => exact .inl ha
  | _ => simp [Pc.announcing] at ha

/-- The worker that completes the count announces the end. -/
theorem Move.completed_cases (h : Move sem cfg g sh d pc sh' d' pc' events)
    (hc : sh'.completedCount = g.nodes.length) :
    sh.completedCount = g.nodes.length ∨ pc'.announcing = true := by
  cases h with
  | stopCompleted => exact .inr rfl
  | countFailed =>
    simp only at hc
    exact .inr (by simp [hc, Pc.announcing])
  | countSucceeded =>
    simp only at hc
    exact .inr (by simp [hc, Pc.announcing])
  | _ => exact .inl hc

/-- Once the count is complete, the end was signalled or someone is about to signal it, unless
no worker was needed. -/
theorem signalled_or_announcing (h : (poolMachine sem cfg g d₀).Reachable s)
    (hc : s.shared.completedCount = g.nodes.length) :
    s.anySignalled = true ∨ s.workers = [] ∨ ∃ pc ∈ s.workers, pc.announcing = true := by
  revert hc
  refine pool_invariant (I := fun s => s.shared.completedCount = g.nodes.length →
    s.anySignalled = true ∨ s.workers = [] ∨ ∃ pc ∈ s.workers, pc.announcing = true) ?_ ?_ ?_ ?_ h
  · intro order horder _
    rw [initialState_eq g horder]
    exact .inr (.inl rfl)
  · exact fun s hI => hI
  · exact fun s _ _ hne _ hc => absurd hc hne
  · intro s i pc sh d pc' events _ hI hi hm hc
    have hmem : pc' ∈ s.workers.set i pc' :=
      List.mem_set (List.getElem?_eq_some_iff.mp hi).1 pc'
    rcases hm.completed_cases hc with hold | hnew
    · rcases hI hold with hsig | hnil | hann
      · exact .inl (anySignalled_moved hsig)
      · simp [hnil] at hi
      · by_cases ha : pc.announcing = true
        · rcases hm.announcing_cases ha with hkeep | hsig
          · exact .inr (.inr ⟨pc', hmem, hkeep⟩)
          · exact .inl (by simp [State.anySignalled, State.moved, hsig])
        · exact .inr (.inr (exists_mem_set_of_not hi ha hann))
    · exact .inr (.inr ⟨pc', hmem, hnew⟩)

/-- Without keep-going, a failure is signalled or about to be. -/
theorem signalled_or_stopping (h : (poolMachine sem cfg g d₀).Reachable s)
    (hk : cfg.keepGoing = false) (he : s.shared.errorOccurred = true) :
    s.anySignalled = true ∨ ∃ pc ∈ s.workers, pc.stopping = true := by
  revert he
  refine pool_invariant (I := fun s => s.shared.errorOccurred = true →
    s.anySignalled = true ∨ ∃ pc ∈ s.workers, pc.stopping = true) ?_ ?_ ?_ ?_ h
  · intro order horder he
    rw [initialState_eq g horder] at he
    simp [freshShared] at he
  · exact fun s hI => hI
  · intro s _ hI _ _ he
    rcases hI he with hsig | ⟨pc, hpc, hstop⟩
    · exact .inl hsig
    · exact .inr ⟨pc, List.mem_append_left _ hpc, hstop⟩
  · intro s i pc sh d pc' events _ hI hi hm he
    have hmem : pc' ∈ s.workers.set i pc' :=
      List.mem_set (List.getElem?_eq_some_iff.mp hi).1 pc'
    -- a worker that stops stores the count and then signals
    have hkeep : pc.stopping = true → pc'.stopping = true ∨ .signalled ∈ events := by
      intro hs
      cases hm with
      | idle hm => cases hm <;> simp [Pc.stopping] at hs
      | signal => exact .inr (by simp)
      | stopCompleted => exact .inl rfl
      | _ => simp [Pc.stopping] at hs
    -- the error was set before, or is set by this move
    rcases hm.error_cases with hsame | ⟨rfl, -⟩
    · rcases hI (hsame ▸ he) with hsig | hstop
      · exact .inl (anySignalled_moved hsig)
      · by_cases hs : pc.stopping = true
        · rcases hkeep hs with hs' | hsig
          · exact .inr ⟨pc', hmem, hs'⟩
          · exact .inl (by simp [State.anySignalled, State.moved, hsig])
        · exact .inr (exists_mem_set_of_not hi hs hstop)
    · refine .inr ⟨pc', hmem, ?_⟩
      cases hm with
      | setError => simp [hk, Pc.stopping]
      | idle hm => cases hm
      | signal hm => cases hm

/-- A quantity that idle workers do not have is zero in a pool of idle workers. -/
theorem tally_of_idle (hidle : ∀ pc ∈ s.workers, pc.idle = true) (f : Pc C → ℕ)
    (hf : ∀ pc, pc.idle = true → f pc = 0) : tally f s.workers = 0 :=
  tally_eq_zero_iff.mpr fun pc hpc => hf pc (hidle pc hpc)

/-- When the workers are idle and the queue is empty, a step whose producers succeeded has
finished. -/
theorem Accounted.mem_finished_of_idle (hacc : Accounted g s)
    (hidle : ∀ pc ∈ s.workers, pc.idle = true) (hw : s.shared.queue.waiting = 0) {v : ℕ}
    (hv : g.isStep v = true)
    (hproducers : ∀ u, g.Edge u v → g.isStep u = true → s.succeeded u = true) :
    v ∈ s.finished := by
  -- no worker has the node in its hands
  have hedges := tally_of_idle hidle (fun pc => (pc.edges g).count v) (by
    intro pc hpc
    cases pc <;> first | rfl | simp [Pc.idle] at hpc)
  have htarget := tally_of_idle hidle (fun pc => pc.target.count v) (by
    intro pc hpc
    cases pc <;> first | rfl | simp [Pc.idle] at hpc)
  have hheld := tally_of_idle hidle (fun pc => pc.held.count v) (by
    intro pc hpc
    cases pc <;> first | rfl | simp [Pc.idle] at hpc)
  have hrunning := tally_of_idle hidle (fun pc => pc.running.count v) (by
    intro pc hpc
    cases pc <;> first | rfl | simp [Pc.idle] at hpc)
  have howed : owed g s v = 0 := by
    refine tally_eq_zero_iff.mpr fun u hu => ?_
    rw [ite_eq_right_iff]
    rintro ⟨hstep, hnot⟩
    refine List.count_eq_zero.mpr fun hedge => ?_
    simp [hproducers u (edge_iff.mpr hedge) hstep] at hnot
  have hhanded := hacc.handedOut v
  rw [if_pos ⟨hv, by simp [outstanding, howed, hedges]⟩] at hhanded
  -- so it was enqueued, and with the queue empty also dequeued, started and finished
  have hdequeued : s.shared.queue.dequeued = s.shared.queue.enqueued := by
    apply List.take_of_length_le
    rw [ReadyQueue.length_enqueued]
    unfold ReadyQueue.waiting at hw
    omega
  have hdeq := hacc.dequeued v
  have hstarted := hacc.started v
  rw [hdequeued] at hdeq
  apply List.count_pos_iff.mp
  omega

/-- Without failures, a pool whose workers are idle and whose queue is empty has completed
everything. -/
theorem completed_of_idle (hg : g.Linked) (hacyclic : g.Acyclic)
    (h : (poolMachine sem cfg g d₀).Reachable s) (hfail : s.anyFailed = false)
    (hidle : ∀ pc ∈ s.workers, pc.idle = true) (hw : s.shared.queue.waiting = 0) :
    s.shared.completedCount = g.nodes.length := by
  have hacc := accounted hg h
  have hall : ∀ v, g.isStep v = true → s.succeeded v = true := by
    intro v
    -- producers come first, by well-founded induction along the edges
    induction v using hacyclic.wellFounded.induction with
    | h v ih =>
      intro hv
      exact succeeded_of_finished hfail (hacc.mem_finished_of_idle hidle hw hv ih)
  have huncounted := tally_of_idle hidle Pc.uncounted (by
    intro pc hpc
    cases pc <;> first | rfl | simp [Pc.idle] at hpc)
  have hcompleted := (outcomes h).completed (.inr hfail)
  have hsteps := sourceNodes_add g
  have hperm : s.finished.Perm ((List.range g.nodes.length).filter g.isStep) := by
    refine List.Subperm.antisymm hacc.finished_subperm ?_
    refine List.subperm_of_subset (List.nodup_range.filter _) fun v hv => ?_
    exact mem_finished_of_succeeded (hall v (List.mem_filter.mp hv).2)
  rw [List.countP_eq_length_filter, ← hperm.length_eq] at hsteps
  omega

end Awake

end Cob
