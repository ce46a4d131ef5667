import Cob.Executor.Deadlock
import Cob.Executor.Work

/-!
# Builds come to an end

An endless run of the pool does work only finitely often, so from some point on its workers poll.
If no worker that can move is passed over forever, none of them is at work then: the queue is
empty, so everything completed or `error_occurred` is set, and every worker that polls leaves.

* `Responsive` — a call of `processStep` can always go on;
* `Pc.restRank` — how far a worker is from leaving, once the build is over;
* `over_of_resting` — a pool that does not work and cannot is at its end;
* `terminates` — a fair run is not endless, and where no run goes on the workers are joined or
  deadlocked.
-/

namespace Cob

open BuildGraph

/-- Whose move an action is: a worker's, or that of the spawning loop. -/
def Action.actor {L : Type} : Action L → Option ℕ
  | .spawn => none
  | .work i _ => some i

section Termination

variable {D C L : Type} {sem : StepSemantics D C L} {cfg : PoolConfig} {g : BuildGraph} {d₀ : D}
  {rank : ℕ → C → ℕ} {s : State D C} {i : ℕ} {sh sh' : Shared} {d d' : D} {pc pc' : Pc C}
  {events : List Event} {f : ℕ → State D C × Action L}

/-- A call can always go on, if the environment lets it. -/
def Responsive (sem : StepSemantics D C L) : Prop :=
  ∀ d node call, ∃ label r, sem.advance d node call label = some r

/-! ### Workers at work -/

variable (cfg) in
/-- A worker at work can move. -/
theorem exists_move_of_working (hresp : Responsive sem) (hi : s.workers[i]? = some pc)
    (hw : pc.working s.shared = true) :
    ∃ label, poolStep sem cfg g s (.work i label) ≠ none := by
  -- only a call has a say in the label
  obtain ⟨label₀, -⟩ := hresp s.data 0 (sem.enter 0)
  have hstep : ∃ label, workerStep sem cfg g s.shared s.data pc label ≠ none := by
    cases pc with
    | process node call =>
      obtain ⟨label, r, hr⟩ := hresp s.data node call
      refine ⟨label, ?_⟩
      obtain ⟨d', call' | result⟩ := r <;> simp [workerStep, hr]
    | dequeue =>
      refine ⟨label₀, ?_⟩
      cases htake : s.shared.queue.take <;> simp [workerStep, htake]
    | enqueue target edges last =>
      refine ⟨label₀, ?_⟩
      cases hclaim : s.shared.queue.claim target <;> simp [workerStep, hclaim]
    | decrement edges last =>
      refine ⟨label₀, ?_⟩
      cases edges <;> simp [workerStep]
    | wait => simp [Pc.working] at hw
    | returned => simp [Pc.working] at hw
    | _ => exact ⟨label₀, by simp [workerStep]⟩
  obtain ⟨label, hne⟩ := hstep
  exact ⟨label, by simpa [poolStep, hi] using hne⟩

/-- What polling leaves as it is. -/
theorem Move.rest_eq (h : Move sem cfg g sh d pc sh' d' pc' events)
    (hw : pc.working sh = false) :
    sh'.queue = sh.queue ∧ sh'.completedCount = sh.completedCount ∧
      sh'.errorOccurred = sh.errorOccurred := by
  cases h with
  | take hq => simp [Pc.working, hq] at hw
  | announceLast => exact ⟨rfl, rfl, rfl⟩
  | announce => exact ⟨rfl, rfl, rfl⟩
  | stallLeave => exact ⟨rfl, rfl, rfl⟩
  | wake => exact ⟨rfl, rfl, rfl⟩
  | idle => exact ⟨rfl, rfl, rfl⟩
  | signal => exact ⟨rfl, rfl, rfl⟩
  | _ => simp [Pc.working] at hw

/-- Whether a worker is at work depends on the queue alone. -/
theorem Pc.working_congr {sh sh' : Shared} (h : sh'.queue = sh.queue) (pc : Pc C) :
    pc.working sh' = pc.working sh := by
  cases pc <;> simp [Pc.working, h]

/-- The moves of a run that spawn come to an end. -/
theorem eventually_not_spawn (h : (poolMachine sem cfg g d₀).Endless f) :
    ∃ n, ∀ m, n ≤ m → (f m).2.actor.isNone = false := by
  refine h.eventually_not (p := fun m => m.2.actor.isNone)
    (Φ := fun s => (cfg.threadCount - s.workers.length) + if s.spawning then 1 else 0) ?_
  intro s a s' _ hs
  cases poolStep_cases hs with
  | stop hspawning => simp [Action.actor, hspawning]
  | spawn hspawning hlt =>
    simp only [Action.actor, hspawning, List.length_append, List.length_singleton,
      Option.isNone_none, if_true]
    omega
  | move =>
    simp only [Action.actor, State.moved, List.length_set, Option.isNone_some, Bool.false_eq_true,
      if_false, Nat.add_zero]
    exact le_refl _

/-- A step that is neither work nor spawns is a poll. -/
theorem PoolStep.poll {s' : State D C} {a : Action L} (hs : PoolStep sem cfg g s a s')
    (hspawn : a.actor.isNone = false) (hworks : works (s, a) = false) :
    ∃ i label pc sh d pc' events, a = .work i label ∧ s.workers[i]? = some pc ∧
      pc.working s.shared = false ∧ Move sem cfg g s.shared s.data pc sh d pc' events ∧
      s' = s.moved i sh d pc' events := by
  cases hs with
  | stop => simp [Action.actor] at hspawn
  | spawn => simp [Action.actor] at hspawn
  | move hi hm => exact ⟨_, _, _, _, _, _, _, rfl, hi, by simpa [works, hi] using hworks, hm, rfl⟩

/-- From some point on, all moves of an endless run are polls. -/
theorem eventually_polls (hrank : Ranked sem rank) (hg : g.Linked)
    (h : (poolMachine sem cfg g d₀).Endless f) :
    ∃ n, ∀ m, n ≤ m → (f m).2.actor.isNone = false ∧ works (f m) = false := by
  obtain ⟨n₁, hworks⟩ := h.eventually_not (p := works) (Φ := workLeft sem g rank)
    fun s a s' hr hs => workLeft_step hrank hg hr hs
  obtain ⟨n₂, hspawn⟩ := eventually_not_spawn h
  refine ⟨max n₁ n₂, fun m hm => ⟨hspawn m ?_, hworks m ?_⟩⟩ <;> omega

/-- While all moves are polls, a worker at work stays at it. -/
theorem working_of_polls (h : (poolMachine sem cfg g d₀).Endless f) {n : ℕ}
    (hpolls : ∀ m, n ≤ m → (f m).2.actor.isNone = false ∧ works (f m) = false)
    (hi : (f n).1.workers[i]? = some pc) (hw : pc.working (f n).1.shared = true) :
    ∀ m, n ≤ m → (f m).1.workers[i]? = some pc ∧ pc.working (f m).1.shared = true := by
  intro m hnm
  induction m, hnm using Nat.le_induction with
  | base => exact ⟨hi, hw⟩
  | succ m hnm ih =>
    obtain ⟨hsame, hstill⟩ := ih
    obtain ⟨hspawn, hworks⟩ := hpolls m hnm
    obtain ⟨j, label, pc₁, sh, d, pc', events, -, hj, hnot, hm, heq⟩ :=
      (poolStep_cases (h.step m)).poll hspawn hworks
    have hji : j ≠ i := by
      rintro rfl
      obtain rfl := Option.some.inj (hj.symm.trans hsame)
      simp [hnot] at hstill
    rw [heq]
    refine ⟨?_, ?_⟩
    · simpa [State.moved, List.getElem?_set, hji] using hsame
    · exact (Pc.working_congr (hm.rest_eq hnot).1 pc).trans hstill

/-- In a fair run whose moves are all polls, no worker is at work. -/
theorem resting_of_fair (hresp : Responsive sem) (h : (poolMachine sem cfg g d₀).Endless f)
    (hfair : (poolMachine sem cfg g d₀).Fair Action.actor f) {n : ℕ}
    (hpolls : ∀ m, n ≤ m → (f m).2.actor.isNone = false ∧ works (f m) = false) :
    ∀ pc ∈ (f n).1.workers, pc.working (f n).1.shared = false := by
  intro pc hpc
  by_contra hw
  obtain ⟨i, hi⟩ := List.mem_iff_getElem?.mp hpc
  have hstays := working_of_polls h hpolls hi (by simpa using hw)
  obtain ⟨m, hnm, hmoves | hstuck⟩ := hfair (some i) n
  · -- its next move would be work
    obtain ⟨hi', hw'⟩ := hstays m hnm
    have hworks : works (f m) = true := by
      cases ha : (f m).2 with
      | spawn => simp [ha, Action.actor] at hmoves
      | work j label =>
        obtain rfl : j = i := by simpa [ha, Action.actor] using hmoves
        simp [works, ha, hi', hw']
    simp [(hpolls m hnm).2] at hworks
  · obtain ⟨label, hne⟩ := exists_move_of_working cfg (g := g) hresp (hstays m hnm).1
      (hstays m hnm).2
    exact hne (hstuck (.work i label) rfl)

/-! ### The end of a build -/

/-- The workers at an empty queue may all find it empty. -/
theorem exists_idle_of_resting (label : L) (h : (poolMachine sem cfg g d₀).Reachable s)
    (hrest : ∀ pc ∈ s.workers, pc.working s.shared = false) :
    ∃ s', (poolMachine sem cfg g d₀).Reachable s' ∧ s'.shared = s.shared ∧ s'.log = s.log ∧
      ∀ pc ∈ s'.workers, pc.idle = true := by
  -- by induction on the workers about to look at the queue
  generalize hk : s.workers.countP (fun pc => !pc.idle) = k
  induction k generalizing s with
  | zero =>
    refine ⟨s, h, rfl, rfl, fun pc hpc => ?_⟩
    simpa using List.countP_eq_zero.mp hk pc hpc
  | succ k ih =>
    have hpos : 0 < s.workers.countP (fun pc => !pc.idle) := hk ▸ Nat.succ_pos k
    obtain ⟨pc, hpc, hbusy⟩ := List.countP_pos_iff.mp hpos
    obtain ⟨i, hi⟩ := List.mem_iff_getElem?.mp hpc
    have hrestpc := hrest pc hpc
    cases pc with
    | dequeue =>
      have htake : s.shared.queue.take = none := by simpa [Pc.working] using hrestpc
      have hstep : (poolMachine sem cfg g d₀).step s (.work i label) =
          some (s.moved i s.shared s.data .checkCompleted []) := by
        simp [poolMachine, poolStep, hi, workerStep, htake, State.moved]
      have hrest' : ∀ pc ∈ s.workers.set i .checkCompleted, pc.working s.shared = false := by
        intro pc hpc
        rcases List.mem_or_eq_of_mem_set hpc with hold | rfl
        · exact hrest pc hold
        · rfl
      have hcount : (s.workers.set i .checkCompleted).countP (fun pc => !pc.idle) = k := by
        have hset := tally_set (fun pc : Pc C => if !pc.idle then 1 else 0) hi .checkCompleted
        rw [tally_ite_one, tally_ite_one, hk] at hset
        simpa [Pc.idle] using hset
      obtain ⟨s', hr', hshared, hlog, hidle⟩ := ih (h.step hstep) hrest' hcount
      exact ⟨s', hr', hshared, by simpa [State.moved] using hlog, hidle⟩
    | _ => simp [Pc.working, Pc.idle] at hrestpc hbusy

/-- A pool that is not at work has completed everything, or has seen an error. -/
theorem over_of_resting (label : L) (hg : g.Linked) (hacyclic : g.Acyclic)
    (h : (poolMachine sem cfg g d₀).Reachable s) (hne : s.workers ≠ [])
    (hrest : ∀ pc ∈ s.workers, pc.working s.shared = false) :
    s.shared.completedCount = g.nodes.length ∨ s.shared.errorOccurred = true := by
  have hempty : s.shared.queue.waiting = 0 := by
    by_contra hw
    obtain ⟨pc, hpc, hbusy⟩ := (busy_of_waiting h (Nat.pos_of_ne_zero hw)).resolve_left hne
    have hrestpc := hrest pc hpc
    cases pc with
    | dequeue =>
      -- a task waits, and cannot be taken: its owner is about to publish it
      have htake : s.shared.queue.take = none := by simpa [Pc.working] using hrestpc
      obtain ⟨c, hc, hp⟩ := (ReadyQueue.take_eq_none htake).resolve_left hw
      obtain ⟨owner, howner, edges, last, rfl⟩ := owned h _ c hc hp
      exact absurd (hrest _ howner) (by simp [Pc.working])
    | _ => simp [Pc.working, Pc.idle] at hrestpc hbusy
  by_cases hfail : s.anyFailed = true
  · rcases (outcomes h).error_of_failed hfail with he | hset
    · exact .inr he
    · exact absurd (hrest _ hset) (by simp [Pc.working])
  · obtain ⟨s', hr', hshared, hlog, hidle⟩ := exists_idle_of_resting label h hrest
    have hcompleted := completed_of_idle hg hacyclic hr'
      (by simpa [State.anyFailed, hlog] using hfail) hidle (by rw [hshared]; exact hempty)
    exact .inl (hshared ▸ hcompleted)

/-- How many moves a worker that polls makes before it leaves. Which look at the counters lets it
leave depends on whether everything completed. -/
def Pc.restRank (completed : Bool) : Pc C → ℕ
  | .checkCompleted => if completed then 1 else 2
  | .dequeue => if completed then 2 else 3
  | .loadAvailable => 4
  | .checkError => if completed then 5 else 1
  | .recheckError => if completed then 9 else 1
  | .recheckCompleted => if completed then 1 else 2
  | .wake => 5
  | .wait => 6
  | .stallLeave => 1
  | .stallSignal => 2
  | .stallLoad => 7
  | .announce => 8
  | _ => 0

/-- Once the build is over, a worker that polls gets closer to leaving. -/
theorem Move.restRank_lt (h : Move sem cfg g sh d pc sh' d' pc' events)
    (hw : pc.working sh = false)
    (hover : sh.completedCount = g.nodes.length ∨ sh.errorOccurred = true) :
    pc'.restRank (decide (sh.completedCount = g.nodes.length)) <
      pc.restRank (decide (sh.completedCount = g.nodes.length)) := by
  cases h with
  | idle h =>
    by_cases hc : sh.completedCount = g.nodes.length <;> cases h <;> simp_all [Pc.restRank]
  | signal h => cases h <;> simp_all [Pc.restRank, Pc.working]
  | take hq => simp [Pc.working, hq] at hw
  | announceLast => simp [Pc.restRank]
  | announce => simp [Pc.restRank]
  | stallLeave => simp [Pc.restRank]
  | wake => by_cases hc : sh.completedCount = g.nodes.length <;> simp [Pc.restRank, hc]
  | _ => simp [Pc.working] at hw

/-- How many moves the workers make before they have left. -/
def restLeft (g : BuildGraph) (s : State D C) : ℕ :=
  tally (Pc.restRank (decide (s.shared.completedCount = g.nodes.length))) s.workers

/-- No fair run is endless. -/
theorem not_fair_of_endless (hg : g.Linked) (hacyclic : g.Acyclic) (hrank : Ranked sem rank)
    (hresp : Responsive sem) (h : (poolMachine sem cfg g d₀).Endless f) :
    ¬ (poolMachine sem cfg g d₀).Fair Action.actor f := by
  intro hfair
  obtain ⟨n, hpolls⟩ := eventually_polls hrank hg h
  refine Machine.Endless.elim (Φ := restLeft g) (f := f) n fun m hnm => ?_
  have hrest := resting_of_fair hresp h hfair fun k hk => hpolls k (hnm.trans hk)
  obtain ⟨hspawn, hworks⟩ := hpolls m hnm
  obtain ⟨i, label, pc, sh, d, pc', events, -, hi, hnot, hm, heq⟩ :=
    (poolStep_cases (h.step m)).poll hspawn hworks
  have hne : (f m).1.workers ≠ [] := fun hnil => by simp [hnil] at hi
  have hover := over_of_resting label hg hacyclic (h.reachable m) hne hrest
  have hlt := hm.restRank_lt hnot hover
  have hset := tally_set
    (Pc.restRank (decide ((f m).1.shared.completedCount = g.nodes.length))) hi pc'
  simp only [restLeft, heq, State.moved, (hm.rest_eq hnot).2.1]
  omega

/-- No more workers are spawned than `thread_count`. -/
theorem length_workers_le (h : (poolMachine sem cfg g d₀).Reachable s) :
    s.workers.length ≤ cfg.threadCount := by
  refine pool_invariant (I := fun s => s.workers.length ≤ cfg.threadCount) ?_ ?_ ?_ ?_ h
  · intro order horder
    rw [initialState_eq g horder]
    exact Nat.zero_le _
  · exact fun s hI => hI
  · intro s _ _ _ hlt
    rw [List.length_append]
    exact hlt
  · intro s i pc sh d pc' events _ hI _ _
    simpa [State.moved] using hI

/-- A worker that cannot move sleeps, or has left. -/
theorem blocked_of_halted (hresp : Responsive sem) (hi : s.workers[i]? = some pc)
    (hhalt : ∀ label, poolStep sem cfg g s (.work i label) = none) :
    pc = .returned ∨ (pc = .wait ∧ s.shared.tasksAvailable = 0) := by
  have hrest : pc.working s.shared = false := by
    by_contra hw
    obtain ⟨label, hne⟩ := exists_move_of_working cfg (g := g) hresp hi (by simpa using hw)
    exact hne (hhalt label)
  obtain ⟨label, -⟩ := hresp s.data 0 (sem.enter 0)
  have hnone : workerStep sem cfg g s.shared s.data pc label = none := by
    simpa [poolStep, hi] using hhalt label
  cases pc with
  | returned => exact .inl rfl
  | wait => exact .inr ⟨rfl, by simpa [workerStep] using hnone⟩
  | dequeue =>
    have htake : s.shared.queue.take = none := by simpa [Pc.working] using hrest
    simp [workerStep, htake] at hnone
  | _ => simp [workerStep, Pc.working] at hnone hrest

/-- Where no run goes on, the workers are joined or deadlocked. -/
theorem joined_or_deadlocked (hresp : Responsive sem) (h : (poolMachine sem cfg g d₀).Reachable s)
    (hhalt : ∀ a, poolStep sem cfg g s a = none) : s.Joined cfg ∨ s.Deadlocked := by
  -- a worker that cannot move has returned or waits on a count of 0
  have hblocked : ∀ pc ∈ s.workers,
      pc = .returned ∨ (pc = .wait ∧ s.shared.tasksAvailable = 0) := by
    intro pc hpc
    obtain ⟨i, hi⟩ := List.mem_iff_getElem?.mp hpc
    exact blocked_of_halted hresp hi fun label => hhalt (.work i label)
  by_cases hwait : .wait ∈ s.workers
  · obtain ⟨-, hzero⟩ := (hblocked _ hwait).resolve_left (by simp)
    exact .inr ⟨hzero, hwait, fun pc hpc => (hblocked pc hpc).symm.imp_left And.left⟩
  · refine .inl ⟨?_, fun pc hpc => (hblocked pc hpc).resolve_right ?_⟩
    · have hspawn := hhalt .spawn
      have hle := length_workers_le h
      by_cases hon : s.spawning = true
      · refine .inr ?_
        by_contra hne
        have hlt : s.workers.length < cfg.threadCount := by omega
        simp only [poolStep, hon, hlt, and_self, if_true] at hspawn
        split_ifs at hspawn
      · exact .inl (by simpa using hon)
    · rintro ⟨rfl, -⟩
      exact hwait hpc

end Termination

/-- Where the workers are joined, no run goes on. -/
theorem halted_of_joined {D C L : Type} {sem : StepSemantics D C L} {cfg : PoolConfig}
    {g : BuildGraph} {s : State D C} (h : s.Joined cfg) (a : Action L) :
    poolStep sem cfg g s a = none := by
  cases a with
  | spawn =>
    rcases h.1 with hoff | hfull
    · simp [poolStep, hoff]
    · simp [poolStep, hfull]
  | work i label =>
    cases hi : s.workers[i]? with
    | none => simp [poolStep, hi]
    | some pc =>
      obtain rfl := h.2 pc (List.mem_of_getElem? hi)
      simp [poolStep, hi, workerStep]

/-! ### Builds -/

/-- A call of `processStep` goes on whenever its tool ends. -/
theorem responsive_processStep (ctx : StepContext) : Responsive (processStep ctx) := by
  intro d node call
  change ∃ outcome r, advance ctx d node call outcome = some r
  refine ⟨⟨none, 0⟩, Option.ne_none_iff_exists'.mp ?_⟩
  cases hst : ctx.graph.stepOf node with
  | none => simp [advance, hst]
  | some st =>
    obtain ⟨k, hk, -⟩ := Option.bind_eq_some_iff.mp (stepOf_eq ctx.graph node ▸ hst)
    simp only [advance, hst, hk]
    cases call with
    | probe cmd t ref rest pos => cases pos <;> (simp only; (try split_ifs) <;> simp)
    | statOutput cmd => simp only; split <;> simp
    | _ => simp only; (try split_ifs) <;> simp

variable {ctx : StepContext} {cfg : PoolConfig} {disk₀ : Disk}

/-- No fair run of a build is endless: if every worker that can move eventually does, and so every
tool ends, the build comes to a point where nobody can move. There the workers are joined, or
they are deadlocked. -/
theorem terminates (hg : ctx.graph.Called) (hacyclic : ctx.graph.Acyclic) :
    (∀ f, (poolMachine (processStep ctx) cfg ctx.graph (.start ctx disk₀)).Endless f →
      ¬ (poolMachine (processStep ctx) cfg ctx.graph (.start ctx disk₀)).Fair Action.actor f) ∧
    ∀ s, (poolMachine (processStep ctx) cfg ctx.graph (.start ctx disk₀)).Reachable s →
      (∀ a, (poolMachine (processStep ctx) cfg ctx.graph (.start ctx disk₀)).step s a = none) →
        s.Joined cfg ∨ s.Deadlocked :=
  ⟨fun _ h => not_fair_of_endless hg.linked hacyclic (ranked_processStep ctx)
      (responsive_processStep ctx) h,
    fun _ h hhalt => joined_or_deadlocked (responsive_processStep ctx) h hhalt⟩

/-- Two workers build two files and leave. -/
theorem terminates_pair :
    (∀ f, (poolMachine (processStep pairContext) ⟨2, false⟩ pair
        (.start pairContext ⟨[]⟩)).Endless f →
      ¬ (poolMachine (processStep pairContext) ⟨2, false⟩ pair
        (.start pairContext ⟨[]⟩)).Fair Action.actor f) ∧
    ∃ s, (poolMachine (processStep pairContext) ⟨2, false⟩ pair
        (.start pairContext ⟨[]⟩)).Reachable s ∧
      (s.Joined ⟨2, false⟩ ∨ s.Deadlocked) := by
  have hend := @terminates pairContext ⟨2, false⟩ ⟨[]⟩ built_pair.called acyclic_pair
  obtain ⟨tr, s, hrun, hjoin⟩ := exists_joined_pair
  exact ⟨hend.1, s, hrun.reachable, hend.2 s hrun.reachable fun a => halted_of_joined hjoin a⟩

end Cob
