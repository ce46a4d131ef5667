import Cob.Executor.Wakeup

/-!
# Deadlocks of the pool

When all workers sleep or have returned, the queue is empty and no update is in flight, so the
counter is `0` exactly when it is `Balanced`. By `balanced_iff` that is decided by the latest
signal alone: a pool that came to rest is deadlocked exactly when its latest signal was missed,
or when it was never signalled at all.

* `not_deadlocked` — with fail-fast or without failures, someone always signals, so only a
  missed signal deadlocks;
* `not_deadlocked_keepGoing` — keeping going after a failure, the pool also deadlocks when the
  last worker awake leaves because of `error_occurred` and others sleep (`Deserts`).
-/

namespace Cob

open BuildGraph

namespace Pc

variable {C : Type}

/-- The worker passed its second look at `error_occurred` and did not wake up since. -/
def dozing : Pc C → Bool
  | .announce => true
  | .stallLoad => true
  | .stallSignal => true
  | .stallLeave => true
  | .wait => true
  | _ => false

/-- The worker passed its first look at `error_occurred` and did not go back to the queue. -/
def unaware : Pc C → Bool
  | .loadAvailable => true
  | .recheckCompleted => true
  | .recheckError => true
  | .wake => true
  | pc => pc.dozing

/-- The worker is neither asleep nor gone. -/
def Awake (pc : Pc C) : Prop := pc.dozing = false ∧ pc ≠ .returned

instance [DecidableEq C] (pc : Pc C) : Decidable pc.Awake := by
  unfold Awake
  infer_instance

end Pc

section Deadlock

variable {D C L : Type} {sem : StepSemantics D C L} {cfg : PoolConfig} {g : BuildGraph} {d₀ : D}

namespace State

variable (s : State D C)

/-- Someone sleeps, and everyone else sleeps or has returned. -/
def Stuck : Prop := .wait ∈ s.workers ∧ ∀ pc ∈ s.workers, pc = .wait ∨ pc = .returned

/-- Everyone sleeps or has returned, and the sleepers cannot wake up. -/
def Deadlocked : Prop := s.shared.tasksAvailable = 0 ∧ s.Stuck

instance [DecidableEq C] : Decidable s.Stuck := by
  unfold Stuck
  infer_instance

instance [DecidableEq C] : Decidable s.Deadlocked := by
  unfold Deadlocked
  infer_instance

end State

/-- The step sets `tasks_available` to its maximum. -/
def signals (s : State D C) : Action L → Bool
  | .spawn => false
  | .work i _ => (s.workers[i]?).any Pc.signalling

/-- The latest signal of a run, with the state it was given in. -/
def lastSignal (tr : List (State D C × Action L)) : Option (State D C × Action L) :=
  tr.find? fun m => signals m.1 m.2

/-- If the step signals, the signal is not missed. -/
def Timely (s : State D C) (a : Action L) : Prop := signals s a = true → ¬ Missed s

instance (s : State D C) (a : Action L) : Decidable (Timely s a) := by
  unfold Timely
  infer_instance

/-- The step takes a worker out of the loop because of `error_occurred` while nothing is
available, and of the other workers some sleep and none is awake. -/
def Deserts (s : State D C) : Action L → Prop
  | .spawn => False
  | .work i _ =>
    (s.workers[i]? = some .checkError ∨ s.workers[i]? = some .recheckError) ∧
      s.shared.errorOccurred = true ∧ s.shared.tasksAvailable = 0 ∧
      (∃ pc ∈ s.workers.eraseIdx i, pc.dozing = true) ∧ ∀ pc ∈ s.workers.eraseIdx i, ¬ pc.Awake

instance [DecidableEq C] (s : State D C) (a : Action L) : Decidable (Deserts s a) := by
  cases a <;> unfold Deserts <;> infer_instance

variable {s : State D C} {tr : List (State D C × Action L)}

/-! ### Stuck states -/

theorem tasksAvailable_lt (h : (poolMachine sem cfg g d₀).Reachable s) :
    s.shared.tasksAvailable < 18446744073709551616 := by
  refine pool_invariant (I := fun s => s.shared.tasksAvailable < 18446744073709551616)
    ?_ ?_ ?_ ?_ h
  · intro order horder
    rw [initialState_eq g horder]
    exact Nat.mod_lt _ (by decide)
  · exact fun s hI => hI
  · exact fun s _ hI _ _ => hI
  · intro s i pc sh d pc' events _ hI hi hm
    cases hm with
    | subtract => exact Nat.mod_lt _ (by decide)
    | increment => exact Nat.mod_lt _ (by decide)
    | signal => exact (by decide : sizeMax < 18446744073709551616)
    | _ => exact hI

/-- In a stuck pool the queue is empty. -/
theorem waiting_of_stuck (h : (poolMachine sem cfg g d₀).Reachable s) (hs : s.Stuck) :
    s.shared.queue.waiting = 0 := by
  by_contra hne
  rcases busy_of_waiting h (Nat.pos_of_ne_zero hne) with hnil | ⟨pc, hpc, hidle⟩
  · exact absurd hs.1 (by simp [hnil])
  · rcases hs.2 pc hpc with rfl | rfl <;> simp [Pc.idle] at hidle

theorem tally_of_stuck (hs : s.Stuck) (f : Pc C → ℕ) (hwait : f .wait = 0)
    (hreturned : f .returned = 0) : tally f s.workers = 0 := by
  refine tally_eq_zero_iff.mpr fun pc hpc => ?_
  rcases hs.2 pc hpc with rfl | rfl
  · exact hwait
  · exact hreturned

/-- A stuck pool is deadlocked exactly when its counter shows the queue. -/
theorem deadlocked_iff_balanced (h : (poolMachine sem cfg g d₀).Reachable s) (hs : s.Stuck) :
    s.Deadlocked ↔ Balanced s := by
  have hlt := tasksAvailable_lt h
  have hadd := tally_of_stuck hs Pc.adding rfl rfl
  have hsub := tally_of_stuck hs Pc.subtracting rfl rfl
  simp only [Balanced, waiting_of_stuck h hs, hadd, hsub, Nat.add_zero, Nat.zero_mod,
    Nat.mod_eq_of_lt hlt]
  exact ⟨fun hd => hd.1, fun hz => ⟨hz, hs⟩⟩

theorem balanced_initialState {order : List ℕ} (h : order.Perm (rootNodes g)) :
    Balanced (initialState g order d₀ : State D C) := by
  rw [initialState_eq g h]
  simp [Balanced, ReadyQueue.waiting]

/-- The latest signal decides whether the counter shows the queue. -/
theorem balanced_iff (hg : g.Linked) (h : (poolMachine sem cfg g d₀).Run tr s) :
    Balanced s ↔ ∀ m, lastSignal tr = some m → Missed m.1 := by
  -- induction over the run: a signal leaves a balance exactly where it is missed, and other moves
  -- keep what there is
  induction h with
  | start h0 =>
    obtain ⟨order, horder, rfl⟩ := h0
    simp [lastSignal, balanced_initialState horder]
  | @move tr s s' a hr hs ih =>
    cases poolStep_cases hs with
    | stop =>
      have hbal : Balanced { s with spawning := false } ↔ Balanced s := Iff.rfl
      rw [hbal]
      simpa [lastSignal, signals] using ih
    | spawn =>
      have hbal : Balanced { s with workers := s.workers ++ [.dequeue] } ↔ Balanced s := by
        simp only [Balanced]
        rw [tally_spawn _ rfl, tally_spawn _ rfl]
      rw [hbal]
      simpa [lastSignal, signals] using ih
    | @move i label pc sh d pc' events hi hm =>
      by_cases hsig : pc.signalling = true
      · rw [balanced_signalled hi hm hsig]
        simp [lastSignal, signals, hi, hsig]
      · rw [balanced_moved (accounted hg hr.reachable) hi hm (by simpa using hsig), ih]
        simp [lastSignal, signals, hi, hsig]

/-- What was signalled was signalled by a step of the run. -/
theorem lastSignal_isSome (h : (poolMachine sem cfg g d₀).Run tr s)
    (hsig : s.anySignalled = true) : ∃ m, lastSignal tr = some m := by
  induction h with
  | start h0 =>
    obtain ⟨order, horder, rfl⟩ := h0
    rw [initialState_eq g horder] at hsig
    simp [State.anySignalled] at hsig
  | @move tr s s' a hr hs ih =>
    by_cases hnow : signals s a = true
    · exact ⟨(s, a), by simp [lastSignal, hnow]⟩
    · have hskip : lastSignal ((s, a) :: tr) = lastSignal tr := by simp [lastSignal, hnow]
      rw [hskip]
      refine ih ?_
      cases poolStep_cases hs with
      | stop => exact hsig
      | spawn => exact hsig
      | @move i label pc sh d pc' events hi hm =>
        have hpc : pc.signalling = false := by simpa [signals, hi] using hnow
        have hnone : .signalled ∉ events := by
          cases hm with
          | signal hm => cases hm <;> simp [Pc.signalling] at hpc
          | _ => simp
        simpa [State.anySignalled, State.moved, hnone] using hsig

/-- A run whose signals are all timely deadlocks only if it never signals. -/
theorem not_signalled_of_timely (hg : g.Linked) (h : (poolMachine sem cfg g d₀).Run tr s)
    (ht : ∀ m ∈ tr, Timely m.1 m.2) (hd : s.Deadlocked) : s.anySignalled = false := by
  by_contra hsig
  obtain ⟨m, hm⟩ := lastSignal_isSome h (Bool.eq_true_of_not_eq_false hsig)
  have hbal := (deadlocked_iff_balanced h.reachable hd.2).mp hd
  have hsignals : signals m.1 m.2 = true :=
    List.find?_some (p := fun m : State D C × Action L => signals m.1 m.2) hm
  exact ht m (List.mem_of_find?_eq_some hm) hsignals ((balanced_iff hg h).mp hbal m hm)

/-- A stuck pool without failures was signalled. -/
theorem signalled_of_stuck (hg : g.Linked) (hacyclic : g.Acyclic)
    (h : (poolMachine sem cfg g d₀).Reachable s) (hfail : s.anyFailed = false) (hs : s.Stuck) :
    s.anySignalled = true := by
  have hidle : ∀ pc ∈ s.workers, pc.idle = true := by
    intro pc hpc
    rcases hs.2 pc hpc with rfl | rfl <;> rfl
  have hcompleted := completed_of_idle hg hacyclic h hfail hidle (waiting_of_stuck h hs)
  rcases signalled_or_announcing h hcompleted with hsig | hnil | ⟨pc, hpc, hann⟩
  · exact hsig
  · exact absurd hs.1 (by simp [hnil])
  · rcases hs.2 pc hpc with rfl | rfl <;> simp [Pc.announcing] at hann

/-- In a stuck pool a failure has set `error_occurred`. -/
theorem error_of_stuck (h : (poolMachine sem cfg g d₀).Reachable s) (hs : s.Stuck)
    (hfail : s.anyFailed = true) : s.shared.errorOccurred = true := by
  rcases (outcomes h).error_of_failed hfail with he | hset
  · exact he
  · rcases hs.2 _ hset with hne | hne <;> simp at hne

/-! ### Fail-fast, or no failures -/

/-- Without failures, or failing fast, a stuck pool was signalled. -/
theorem signalled_of_stuck_failFast (hg : g.Linked) (hacyclic : g.Acyclic)
    (h : (poolMachine sem cfg g d₀).Reachable s)
    (hk : cfg.keepGoing = false ∨ s.anyFailed = false) (hs : s.Stuck) :
    s.anySignalled = true := by
  by_cases hfail : s.anyFailed = true
  · have hno : cfg.keepGoing = false := by simpa [hfail] using hk
    rcases signalled_or_stopping h hno (error_of_stuck h hs hfail) with hsig | ⟨pc, hpc, hstop⟩
    · exact hsig
    · rcases hs.2 pc hpc with rfl | rfl <;> simp [Pc.stopping] at hstop
  · exact signalled_of_stuck hg hacyclic h (by simpa using hfail) hs

/-- With fail-fast or without failures, a run whose signals are all timely never deadlocks, and
a run that gets stuck after a missed signal is deadlocked. -/
theorem not_deadlocked (hg : g.Called) (hacyclic : g.Acyclic)
    (h : (poolMachine sem cfg g d₀).Run tr s)
    (hk : cfg.keepGoing = false ∨ s.anyFailed = false) :
    ((∀ m ∈ tr, Timely m.1 m.2) → ¬ s.Deadlocked) ∧
      (s.Stuck → (∀ m, lastSignal tr = some m → Missed m.1) → s.Deadlocked) := by
  have hwf := hg.linked
  refine ⟨fun ht hd => ?_, fun hs hmissed => ?_⟩
  · have hnone := not_signalled_of_timely hwf h ht hd
    have hsome := signalled_of_stuck_failFast hwf hacyclic h.reachable hk hd.2
    simp [hnone] at hsome
  · exact (deadlocked_iff_balanced h.reachable hs).mpr ((balanced_iff hwf h).mpr hmissed)

/-! ### Keeping going -/

section KeepGoing

variable {i : ℕ} {sh : Shared} {d : D} {pc pc' : Pc C} {events : List Event}

/-- Only a worker that saw no error becomes unaware of errors. -/
theorem Move.unaware_cases (hm : Move sem cfg g s.shared s.data pc sh d pc' events)
    (h : pc'.unaware = true) :
    pc.unaware = true ∨ pc = .checkError ∧ sh.errorOccurred = false := by
  cases hm with
  | idle hm => cases hm <;> simp_all [Pc.unaware, Pc.dozing]
  | signal hm => cases hm <;> simp_all [Pc.unaware, Pc.dozing]
  | announceLast => exact .inl rfl
  | announce => exact .inl rfl
  | setError => split_ifs at h <;> simp [Pc.unaware, Pc.dozing] at h
  | countFailed => split_ifs at h <;> simp [Pc.unaware, Pc.dozing] at h
  | edgesDone => split_ifs at h <;> simp [Pc.unaware, Pc.dozing] at h
  | _ => simp [Pc.unaware, Pc.dozing] at h

/-- Once `error_occurred` is set, some worker will see it, or has. -/
theorem aware_of_error (h : (poolMachine sem cfg g d₀).Reachable s)
    (he : s.shared.errorOccurred = true) : ∃ pc ∈ s.workers, pc.unaware = false := by
  revert he
  refine pool_invariant (I := fun s => s.shared.errorOccurred = true →
    ∃ pc ∈ s.workers, pc.unaware = false) ?_ ?_ ?_ ?_ h
  · intro order horder he
    rw [initialState_eq g horder] at he
    simp [freshShared] at he
  · exact fun s hI => hI
  · exact fun s _ _ _ _ _ => ⟨.dequeue, by simp, rfl⟩
  · intro s i pc sh d pc' events _ hI hi hm he
    have hmem : pc' ∈ s.workers.set i pc' :=
      List.mem_set (List.getElem?_eq_some_iff.mp hi).1 pc'
    -- whoever becomes unaware has just read that there is no error
    by_cases hpc' : pc'.unaware = true
    · have hunaware : pc.unaware = true := by
        rcases hm.unaware_cases hpc' with hold | ⟨-, hno⟩
        · exact hold
        · exact absurd he (by simp [State.moved, hno])
      rcases hm.error_cases with hsame | ⟨rfl, -⟩
      · exact exists_mem_set_of_not hi (by simp [hunaware]) (hI (hsame ▸ he))
      · simp [Pc.unaware, Pc.dozing] at hunaware
    · exact ⟨pc', hmem, by simpa using hpc'⟩

/-- A worker is leaving the stall detector only after it signalled. -/
theorem signalled_of_stallLeave (h : (poolMachine sem cfg g d₀).Reachable s)
    (hmem : .stallLeave ∈ s.workers) : s.anySignalled = true := by
  revert hmem
  refine pool_invariant (I := fun s => .stallLeave ∈ s.workers → s.anySignalled = true)
    ?_ ?_ ?_ ?_ h
  · intro order horder hmem
    rw [initialState_eq g horder] at hmem
    simp at hmem
  · exact fun s hI => hI
  · exact fun s _ hI _ _ hmem => hI (by simpa using hmem)
  · intro s i pc sh d pc' events _ hI hi hm hmem
    rcases List.mem_or_eq_of_mem_set hmem with hold | hnew
    · exact anySignalled_moved (hI hold)
    · cases hm with
      | signal => simp [State.anySignalled, State.moved]
      | idle hm => cases hm <;> simp at hnew
      | setError => split_ifs at hnew
      | countFailed => split_ifs at hnew
      | edgesDone => split_ifs at hnew
      | _ => simp at hnew

/-- How a worker can fall asleep or leave. -/
theorem Move.awake_cases (hm : Move sem cfg g s.shared s.data pc sh d pc' events) :
    pc'.Awake ∨ .signalled ∈ events ∨
      (pc.dozing = true ∧ (pc'.dozing = true ∨ pc = .stallLeave)) ∨
      (pc = .recheckError ∧ s.shared.errorOccurred = false ∧ pc' = .announce) ∨
      (pc' = .returned ∧ s.shared.completedCount = g.nodes.length ∧ pc.announcing = false) ∨
      (pc' = .returned ∧ (pc = .checkError ∨ pc = .recheckError) ∧
        s.shared.errorOccurred = true) := by
  cases hm with
  | idle hm => cases hm <;> simp_all [Pc.Awake, Pc.dozing, Pc.announcing]
  | signal hm => exact .inr (.inl (by simp))
  | stallLeave => exact .inr (.inr (.inl ⟨rfl, .inr rfl⟩))
  | announceLast => exact .inr (.inr (.inl ⟨rfl, .inl rfl⟩))
  | announce => exact .inr (.inr (.inl ⟨rfl, .inl rfl⟩))
  | setError => split_ifs <;> exact .inl ⟨rfl, by simp⟩
  | countFailed => split_ifs <;> exact .inl ⟨rfl, by simp⟩
  | edgesDone => split_ifs <;> exact .inl ⟨rfl, by simp⟩
  | _ => exact .inl ⟨rfl, by simp⟩

/-- A worker has left only because of an error, or at the end of the build. -/
theorem error_of_returned (h : (poolMachine sem cfg g d₀).Reachable s)
    (hmem : .returned ∈ s.workers) : s.shared.errorOccurred = true ∨ s.anySignalled = true ∨
      ∃ pc ∈ s.workers, pc.announcing = true := by
  revert hmem
  refine pool_invariant (I := fun s => .returned ∈ s.workers → s.shared.errorOccurred = true ∨
    s.anySignalled = true ∨ ∃ pc ∈ s.workers, pc.announcing = true) ?_ ?_ ?_ ?_ h
  · intro order horder hmem
    rw [initialState_eq g horder] at hmem
    simp at hmem
  · exact fun s hI => hI
  · intro s _ hI _ _ hmem
    refine (hI (by simpa using hmem)).imp_right (Or.imp_right ?_)
    rintro ⟨pc, hpc, hann⟩
    exact ⟨pc, List.mem_append_left _ hpc, hann⟩
  · intro s i pc sh d pc' events hr hI hi hm hmem
    -- errors and signals stay, and who announces goes on to or signals
    have hkeep : (s.shared.errorOccurred = true ∨ s.anySignalled = true ∨
        ∃ pc ∈ s.workers, pc.announcing = true) → (s.moved i sh d pc' events).shared.errorOccurred
          = true ∨ (s.moved i sh d pc' events).anySignalled = true ∨
        ∃ pc ∈ (s.moved i sh d pc' events).workers, pc.announcing = true := by
      rintro (he | hsig | hann)
      · rcases hm.error_cases with hsame | ⟨-, hnow⟩
        · exact .inl (hsame.trans he)
        · exact .inl hnow
      · exact .inr (.inl (anySignalled_moved hsig))
      · by_cases ha : pc.announcing = true
        · rcases hm.announcing_cases ha with ha' | hnow
          · exact .inr (.inr
              ⟨pc', List.mem_set (List.getElem?_eq_some_iff.mp hi).1 pc', ha'⟩)
          · exact .inr (.inl (by simp [State.anySignalled, State.moved, hnow]))
        · exact .inr (.inr (exists_mem_set_of_not hi ha hann))
    rcases List.mem_or_eq_of_mem_set hmem with hold | rfl
    · exact hkeep (hI hold)
    · -- the mover has just returned: at the end of a stall, at the end of the build, or at an
      -- error
      rcases hm.awake_cases with hawake | hnow | ⟨-, hdoze | rfl⟩ | ⟨-, -, hne⟩ |
        ⟨-, hcompleted, hann⟩ | ⟨-, -, he⟩
      · exact absurd rfl hawake.2
      · exact .inr (.inl (by simp [State.anySignalled, State.moved, hnow]))
      · simp [Pc.dozing] at hdoze
      · exact hkeep (.inr (.inl (signalled_of_stallLeave hr (List.mem_of_getElem? hi))))
      · simp at hne
      · refine hkeep ?_
        rcases signalled_or_announcing hr hcompleted with hsig | hnil | hother
        · exact .inr (.inl hsig)
        · simp [hnil] at hi
        · exact .inr (.inr hother)
      · exact hkeep (.inl he)

theorem Pc.Awake.of_announcing (h : pc.announcing = true) : pc.Awake := by
  cases pc <;> first | exact Bool.noConfusion h | exact ⟨rfl, by simp⟩

theorem Pc.Awake.of_idle (h : pc.idle = false) : pc.Awake := by
  cases pc <;> first | exact Bool.noConfusion h | exact ⟨rfl, by simp⟩

/-- A worker with an update in flight is awake. -/
theorem Pc.not_awake_updates (h : ¬ pc.Awake) : pc.adding = 0 ∧ pc.subtracting = 0 := by
  cases pc <;> first | exact ⟨rfl, rfl⟩ | exact absurd ⟨rfl, by simp⟩ h

/-- Before the first signal the counter shows the queue. -/
theorem balanced_of_not_signalled (hg : g.Linked)
    (h : (poolMachine sem cfg g d₀).Reachable s) (hsig : s.anySignalled = false) : Balanced s := by
  revert hsig
  refine pool_invariant (I := fun s => s.anySignalled = false → Balanced s) ?_ ?_ ?_ ?_ h
  · exact fun order horder _ => balanced_initialState horder
  · exact fun s hI => hI
  · intro s _ hI _ _ hsig
    have hbal := hI hsig
    simp only [Balanced] at hbal ⊢
    rw [tally_spawn _ rfl, tally_spawn _ rfl]
    exact hbal
  · intro s i pc sh d pc' events hr hI hi hm hsig
    have hnow : .signalled ∉ events ∧ s.anySignalled = false := by
      simp only [State.anySignalled, State.moved, List.contains_append,
        Bool.or_eq_false_iff] at hsig
      exact ⟨by simpa using hsig.2, hsig.1⟩
    have hpc : pc.signalling = false := by
      cases hm with
      | signal => simp at hnow
      | idle hm => cases hm <;> rfl
      | _ => rfl
    exact (balanced_moved (accounted hg hr) hi hm hpc).mpr (hI hnow.2)

/-- When every other worker sleeps or has left and nothing was signalled, nothing is available
to a worker that found the queue empty. -/
theorem tasksAvailable_of_alone (hg : g.Linked)
    (h : (poolMachine sem cfg g d₀).Reachable s) (hsig : s.anySignalled = false)
    (hi : s.workers[i]? = some pc) (hidle : pc.idle = true)
    (halone : ∀ pc' ∈ s.workers.eraseIdx i, ¬ pc'.Awake) :
    s.shared.tasksAvailable = 0 := by
  have hothers : ∀ pc' ∈ s.workers, pc' = pc ∨ ¬ pc'.Awake := by
    intro pc' hpc'
    obtain ⟨j, hj⟩ := List.mem_iff_getElem?.mp hpc'
    by_cases hij : j = i
    · subst hij
      exact .inl (Option.some.inj (hj.symm.trans hi))
    · exact .inr (halone pc' (List.mem_eraseIdx_iff_getElem?.mpr ⟨j, hij, hj⟩))
  -- a task in the queue would have a worker that is not idle
  have hwaiting : s.shared.queue.waiting = 0 := by
    by_contra hne
    rcases busy_of_waiting h (Nat.pos_of_ne_zero hne) with hnil | ⟨pc', hpc', hbusy⟩
    · simp [hnil] at hi
    · rcases hothers pc' hpc' with rfl | hnot
      · simp [hidle] at hbusy
      · exact hnot (.of_idle hbusy)
  have hpc : pc.adding = 0 ∧ pc.subtracting = 0 := by
    cases pc <;> first | exact ⟨rfl, rfl⟩ | simp [Pc.idle] at hidle
  -- nobody is between the queue and the counter, so the two agree
  have hadd : tally Pc.adding s.workers = 0 := by
    refine tally_eq_zero_iff.mpr fun pc' hpc' => ?_
    rcases hothers pc' hpc' with rfl | hnot
    · exact hpc.1
    · exact (Pc.not_awake_updates hnot).1
  have hsub : tally Pc.subtracting s.workers = 0 := by
    refine tally_eq_zero_iff.mpr fun pc' hpc' => ?_
    rcases hothers pc' hpc' with rfl | hnot
    · exact hpc.2
    · exact (Pc.not_awake_updates hnot).2
  have hbal := balanced_of_not_signalled hg h hsig
  have hlt := tasksAvailable_lt h
  simp only [Balanced, hwaiting, hadd, hsub] at hbal
  omega

/-- While no worker deserts the others: before the first signal, when some worker has left and
some sleeps, another one is awake. -/
theorem attended (hg : g.Linked)
    (h : (poolMachine sem cfg g d₀).ReachableVia (fun s a => ¬ Deserts s a) s)
    (hsig : s.anySignalled = false) (hleft : .returned ∈ s.workers)
    (hdoze : ∃ pc ∈ s.workers, pc.dozing = true) : ∃ pc ∈ s.workers, pc.Awake := by
  -- induction over the run, for all runs in which no worker deserts the others
  revert hsig hleft hdoze
  refine pool_invariant_via (I := fun s => s.anySignalled = false → .returned ∈ s.workers →
    (∃ pc ∈ s.workers, pc.dozing = true) → ∃ pc ∈ s.workers, pc.Awake) ?_ ?_ ?_ ?_ h
  · intro order horder _ hleft
    rw [initialState_eq g horder] at hleft
    simp at hleft
  · exact fun s hI => hI
  · exact fun s _ _ _ _ _ _ _ => ⟨.dequeue, by simp, rfl, by simp⟩
  · intro s i label pc sh d pc' events hr hI hG hi hm hsig hleft hdoze
    have hmem : pc' ∈ s.workers.set i pc' :=
      List.mem_set (List.getElem?_eq_some_iff.mp hi).1 pc'
    have hpc := List.mem_of_getElem? hi
    have hsig₀ : .signalled ∉ events ∧ s.anySignalled = false := by
      simp only [State.anySignalled, State.moved, List.contains_append,
        Bool.or_eq_false_iff] at hsig
      exact ⟨by simpa using hsig.2, hsig.1⟩
    have hannouncing : pc.announcing = false → (∃ pc ∈ s.workers, pc.announcing = true) →
        ∃ pc ∈ s.workers.set i pc', pc.Awake := by
      intro hno hann
      obtain ⟨pc₁, hpc₁, ha⟩ := exists_mem_set_of_not (b := pc') hi (by simp [hno]) hann
      exact ⟨pc₁, hpc₁, .of_announcing ha⟩
    -- the mover is awake afterwards, signals, dozes on, leaves a stall, or returns at one of the
    -- two checks
    rcases hm.awake_cases with hawake | hnow | ⟨hpcdoze, hdoze' | rfl⟩ | ⟨rfl, hno, rfl⟩ |
      ⟨rfl, hcompleted, hann⟩ | ⟨rfl, hcheck, he⟩
    · exact ⟨pc', hmem, hawake⟩
    · exact absurd hnow hsig₀.1
    · -- it dozed before and dozes now: whoever was awake still is
      have hold : .returned ∈ s.workers := by
        refine (List.mem_or_eq_of_mem_set hleft).resolve_right ?_
        rintro rfl
        simp [Pc.dozing] at hdoze'
      exact exists_mem_set_of_not hi (fun ha => by simp [Pc.Awake, hpcdoze] at ha)
        (hI hsig₀.2 hold ⟨pc, hpc, hpcdoze⟩)
    · -- a stall is left only after its signal
      simp [signalled_of_stallLeave hr hpc] at hsig₀
    · -- it saw no error and goes to sleep; as some worker has left, another is about to announce
      have hold : .returned ∈ s.workers := by
        simpa using List.mem_or_eq_of_mem_set hleft
      rcases error_of_returned hr hold with he | hs | hann
      · simp [hno] at he
      · simp [hsig₀.2] at hs
      · exact hannouncing rfl hann
    · -- it returns since all steps are completed: the last completion is announced or signalled
      rcases signalled_or_announcing hr hcompleted with hs | hnil | hother
      · simp [hsig₀.2] at hs
      · simp [hnil] at hi
      · exact hannouncing hann hother
    · -- it returns at an error, and if no other were awake this would be a desertion
      have hidle : pc.idle = true ∧ pc.dozing = false := by
        rcases hcheck with rfl | rfl <;> exact ⟨rfl, rfl⟩
      have hothers : ∀ pc₁ ∈ s.workers.set i .returned, pc₁ ≠ .returned →
          pc₁ ∈ s.workers.eraseIdx i := by
        intro pc₁ hpc₁ hne
        obtain ⟨j, hj⟩ := List.mem_iff_getElem?.mp hpc₁
        have hij : j ≠ i := by
          rintro rfl
          have hlt := (List.getElem?_eq_some_iff.mp hi).1
          exact hne (by simpa [List.getElem?_set, hlt] using hj.symm)
        refine List.mem_eraseIdx_iff_getElem?.mpr ⟨j, hij, ?_⟩
        simpa [List.getElem?_set, Ne.symm hij] using hj
      obtain ⟨pc₁, hpc₁, hd₁⟩ := hdoze
      have hother₁ : pc₁ ∈ s.workers.eraseIdx i := by
        refine hothers pc₁ hpc₁ ?_
        rintro rfl
        simp [Pc.dozing] at hd₁
      by_contra hnobody
      have halone : ∀ pc' ∈ s.workers.eraseIdx i, ¬ pc'.Awake := by
        intro pc₁ hpc₁ hawake
        obtain ⟨j, hij, hj⟩ := List.mem_eraseIdx_iff_getElem?.mp hpc₁
        refine hnobody ⟨pc₁, List.mem_iff_getElem?.mpr ⟨j, ?_⟩, hawake⟩
        simpa [State.moved, List.getElem?_set, Ne.symm hij] using hj
      have hzero := tasksAvailable_of_alone hg hr hsig₀.2 hi hidle.1 halone
      refine hG ⟨?_, he, hzero, ⟨pc₁, hother₁, hd₁⟩, halone⟩
      rw [hi]
      exact hcheck.imp (congrArg some) (congrArg some)

/-- Keeping going, a run whose signals are all timely and in which no worker deserts the others
never deadlocks, and a run that gets stuck after a missed signal, or without any signal, is
deadlocked. -/
theorem not_deadlocked_keepGoing (hg : g.Called) (hacyclic : g.Acyclic)
    (h : (poolMachine sem cfg g d₀).Run tr s) :
    ((∀ m ∈ tr, Timely m.1 m.2 ∧ ¬ Deserts m.1 m.2) → ¬ s.Deadlocked) ∧
      (s.Stuck → (∀ m, lastSignal tr = some m → Missed m.1) → s.Deadlocked) := by
  have hwf := hg.linked
  refine ⟨fun hall hd => ?_, fun hs hmissed => ?_⟩
  · have hnone := not_signalled_of_timely hwf h (fun m hm => (hall m hm).1) hd
    have hnotAwake : ¬ ∃ pc ∈ s.workers, pc.Awake := by
      rintro ⟨pc, hpc, hawake, hleft⟩
      rcases hd.2.2 pc hpc with rfl | rfl
      · simp [Pc.dozing] at hawake
      · exact hleft rfl
    by_cases hfail : s.anyFailed = true
    · -- the worker that will see the error cannot be asleep, so it has left
      obtain ⟨pc, hpc, haware⟩ := aware_of_error h.reachable (error_of_stuck h.reachable hd.2 hfail)
      have hleft : .returned ∈ s.workers := by
        rcases hd.2.2 pc hpc with rfl | rfl
        · simp [Pc.unaware, Pc.dozing] at haware
        · exact hpc
      exact hnotAwake (attended hwf ⟨tr, h, fun m hm => (hall m hm).2⟩ hnone hleft
        ⟨.wait, hd.2.1, rfl⟩)
    · have hsome := signalled_of_stuck hwf hacyclic h.reachable (by simpa using hfail) hd.2
      simp [hnone] at hsome
  · exact (deadlocked_iff_balanced h.reachable hs).mpr ((balanced_iff hwf h).mpr hmissed)

end KeepGoing

end Deadlock

/-! ### The deadlocks -/

/-- The steps of `chain`. -/
def chainSteps : List BuildStep :=
  [{ tool := ascii "ld", inputs := ascii "s", output := ascii "a" },
   { tool := ascii "ld", inputs := ascii "a", output := ascii "b" }]

/-- Two steps in a row: `a` is made from `s`, and `b` from `a`. -/
def chain : BuildGraph :=
  ((BuildGraph.empty.addSteps (fun _ => none) chainSteps).toOption).getD .empty

theorem built_chain : chain.Built :=
  Built.empty.addSteps chainSteps (by decide +kernel)
    (show BuildGraph.empty.addSteps (fun _ => none) chainSteps = .ok chain by decide +kernel)

theorem acyclic_chain : chain.Acyclic :=
  acyclic_of_rank (fun v => [1, 0, 2].getD v 0) (by decide +kernel)

/-- The first worker publishes `b` and is slow to count it; the second takes `b`, completes the
build and signals; then the first counts, and the counter wraps around to `0` under the third,
who sleeps. -/
def missedSignal : List (Action ℤ) :=
  [.spawn, .spawn, .spawn] ++ List.replicate 3 (.work 0 0) ++ List.replicate 7 (.work 2 0) ++
    List.replicate 5 (.work 0 0) ++ List.replicate 7 (.work 1 0) ++
    List.replicate 4 (.work 0 0) ++ List.replicate 2 (.work 1 0)

/-- No step failed, and the pool is deadlocked. -/
theorem deadlocked_of_missed : chain.Built ∧ chain.Acyclic ∧
    ∃ s, (poolMachine scripted ⟨3, false⟩ chain ()).Reachable s ∧ s.anyFailed = false ∧
      s.Deadlocked := by
  obtain ⟨tr, s, hrun, hs⟩ := Machine.exists_run_of_exec
    (M := poolMachine scripted ⟨3, false⟩ chain ()) (s := initialState chain [0] ())
    ⟨[0], by decide +kernel, rfl⟩ missedSignal
    (fun r => r.2.anyFailed = false ∧ r.2.Deadlocked) (by decide +kernel)
  exact ⟨built_chain, acyclic_chain, s, ⟨tr, hrun⟩, by simpa using hs⟩

/-- Two workers keep going: the second passed its look at `error_occurred` before the step of
`a` fails, and sleeps; the first leaves because of the error. -/
theorem deadlocked_of_deserted : chain.Built ∧ chain.Acyclic ∧
    ∃ s, (poolMachine scripted ⟨2, true⟩ chain ()).Reachable s ∧ s.anyFailed = true ∧
      s.Deadlocked := by
  obtain ⟨tr, s, hrun, hs⟩ := Machine.exists_run_of_exec
    (M := poolMachine scripted ⟨2, true⟩ chain ()) (s := initialState chain [0] ())
    ⟨[0], by decide +kernel, rfl⟩
    [[.spawn, .spawn], List.replicate 3 (.work 0 1), List.replicate 7 (.work 1 0),
      List.replicate 6 (.work 0 1)].flatten
    (fun r => r.2.anyFailed = true ∧ r.2.Deadlocked) (by decide +kernel)
  exact ⟨built_chain, acyclic_chain, s, ⟨tr, hrun⟩, by simpa using hs⟩

/-- The first worker makes `a`, the second goes to sleep; the first makes `b` and signals in time,
and both leave. -/
theorem not_deadlocked_chain : ∃ tr s, (poolMachine scripted ⟨2, false⟩ chain ()).Run tr s ∧
    (∀ m ∈ tr, Timely m.1 m.2) ∧ s.Joined ⟨2, false⟩ ∧ ¬ s.Deadlocked := by
  obtain ⟨tr, s, hrun, hs⟩ := Machine.exists_run_of_exec
    (M := poolMachine scripted ⟨2, false⟩ chain ()) (s := initialState chain [0] ())
    ⟨[0], by decide +kernel, rfl⟩
    [[.spawn, .spawn], List.replicate 3 (.work 0 0), List.replicate 7 (.work 1 0),
      List.replicate 16 (.work 0 0), List.replicate 4 (.work 1 0)].flatten
    (fun r => (∀ m ∈ r.1, Timely m.1 m.2) ∧ r.2.Joined ⟨2, false⟩) (by decide +kernel)
  obtain ⟨ht, hjoin⟩ := of_decide_eq_true hs
  exact ⟨tr, s, hrun, ht, hjoin,
    (not_deadlocked built_chain.called acyclic_chain hrun (.inl rfl)).1 ht⟩

/-- Two workers keep going after `a` failed, and see the error one after the other. -/
theorem not_deadlocked_keepGoing_chain : ∃ tr s,
    (poolMachine scripted ⟨2, true⟩ chain ()).Run tr s ∧
    (∀ m ∈ tr, Timely m.1 m.2 ∧ ¬ Deserts m.1 m.2) ∧ s.anyFailed = true ∧ s.Joined ⟨2, true⟩ ∧
      ¬ s.Deadlocked := by
  obtain ⟨tr, s, hrun, hs⟩ := Machine.exists_run_of_exec
    (M := poolMachine scripted ⟨2, true⟩ chain ()) (s := initialState chain [0] ())
    ⟨[0], by decide +kernel, rfl⟩
    [[.spawn, .spawn], List.replicate 9 (.work 0 1), List.replicate 3 (.work 1 0)].flatten
    (fun r => (∀ m ∈ r.1, Timely m.1 m.2 ∧ ¬ Deserts m.1 m.2) ∧ r.2.anyFailed = true ∧
      r.2.Joined ⟨2, true⟩) (by decide +kernel)
  obtain ⟨hguard, hfail, hjoin⟩ := of_decide_eq_true hs
  exact ⟨tr, s, hrun, hguard, hfail, hjoin,
    (not_deadlocked_keepGoing built_chain.called acyclic_chain hrun).1 hguard⟩

end Cob
