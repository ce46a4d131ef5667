import Cob.Executor.Accounting

/-!
# Counting outcomes

How `error_occurred` and `completed_count` follow the results of `processStep`: the flag is set
or about to be set once a step failed, and the count is that of the sources and the finished
steps, less the workers that are still to add theirs. A failure without keep-going overwrites the
count, so the second part holds only until then (`Outcomes.completed`).
-/

namespace Cob

open BuildGraph

namespace Pc

variable {C : Type}

/-- The worker has a result it did not add to `completed_count` yet. -/
def uncounted : Pc C → ℕ
  | .setError => 1
  | .countFailed => 1
  | .countSucceeded _ => 1
  | _ => 0

/-- The worker handles a failure. -/
def failing : Pc C → Bool
  | .setError => true
  | .stopCompleted => true
  | .stopSignal => true
  | .countFailed => true
  | _ => false

/-- The worker stops the build after a failure. -/
def stopping : Pc C → Bool
  | .stopCompleted => true
  | .stopSignal => true
  | _ => false

end Pc

section Outcomes

variable {D C L : Type} {sem : StepSemantics D C L} {cfg : PoolConfig} {g : BuildGraph}

/-- The results so far, as the flag and the count show them. -/
structure Outcomes (cfg : PoolConfig) (g : BuildGraph) (s : State D C) : Prop where
  failed_of_failing : ∀ pc ∈ s.workers, pc.failing = true → s.anyFailed = true
  keepGoing_of_stopping : ∀ pc ∈ s.workers, pc.stopping = true → cfg.keepGoing = false
  failed_of_error : s.shared.errorOccurred = true → s.anyFailed = true
  error_of_failed : s.anyFailed = true → s.shared.errorOccurred = true ∨ .setError ∈ s.workers
  completed : cfg.keepGoing = true ∨ s.anyFailed = false →
    s.shared.completedCount + tally Pc.uncounted s.workers = sourceNodes g + s.finished.length

variable {s : State D C} {i : ℕ} {sh : Shared} {d : D} {pc pc' : Pc C} {events : List Event}

theorem anyFailed_moved : (s.moved i sh d pc' events).anyFailed =
    (s.anyFailed || events.any Event.failed) := by
  simp [State.anyFailed, State.moved]

theorem anyFailed_moved_of (h : s.anyFailed = true) :
    (s.moved i sh d pc' events).anyFailed = true := by
  simp [anyFailed_moved, h]

/-- Only the worker whose step failed handles a failure. -/
theorem Move.failing_cases (hm : Move sem cfg g s.shared s.data pc sh d pc' events)
    (h : pc'.failing = true) :
    pc.failing = true ∨ (s.moved i sh d pc' events).anyFailed = true := by
  cases hm with
  | idle hm => cases hm <;> simp [Pc.failing] at h
  | signal hm => cases hm <;> simp [Pc.failing] at h
  | fail _ hr => exact .inr (by simp [anyFailed_moved, Event.failed, hr])
  | setError => exact .inl rfl
  | stopCompleted => exact .inl rfl
  | countFailed => exact .inl rfl
  | edgesDone => split_ifs at h <;> simp [Pc.failing] at h
  | _ => simp [Pc.failing] at h

theorem Move.stopping_cases (hm : Move sem cfg g s.shared s.data pc sh d pc' events)
    (h : pc'.stopping = true) : pc.stopping = true ∨ cfg.keepGoing = false := by
  cases hm with
  | idle hm => cases hm <;> simp [Pc.stopping] at h
  | signal hm => cases hm <;> simp [Pc.stopping] at h
  | setError =>
    split_ifs at h with hk
    · simp [Pc.stopping] at h
    · exact .inr (by simpa using hk)
  | stopCompleted => exact .inl rfl
  | countFailed => split_ifs at h <;> simp [Pc.stopping] at h
  | edgesDone => split_ifs at h <;> simp [Pc.stopping] at h
  | _ => simp [Pc.stopping] at h

/-- The flag is set by the worker that was to set it. -/
theorem Move.error_cases (hm : Move sem cfg g s.shared s.data pc sh d pc' events) :
    sh.errorOccurred = s.shared.errorOccurred ∨ pc = .setError ∧ sh.errorOccurred = true := by
  cases hm with
  | setError => exact .inr ⟨rfl, rfl⟩
  | _ => exact .inl rfl

/-- A failing move leads to `setError`. -/
theorem Move.failed_cases (hm : Move sem cfg g s.shared s.data pc sh d pc' events) :
    events.any Event.failed = false ∨ pc' = .setError := by
  cases hm with
  | fail => exact .inr rfl
  | succeed => exact .inl (by simp [Event.failed])
  | _ => exact .inl (by simp [Event.failed])

/-- While no failure overwrites it, the count follows the finished steps. -/
theorem Move.completed_count (hm : Move sem cfg g s.shared s.data pc sh d pc' events)
    (hk : cfg.keepGoing = true ∨ pc.failing = false) (hstop : pc.stopping = false) :
    sh.completedCount + pc'.uncounted =
      s.shared.completedCount + pc.uncounted + (finishedIn events).length := by
  cases hm with
  | idle hm => cases hm <;> rfl
  | signal hm => cases hm <;> rfl
  | setError => simp_all [Pc.failing, Pc.uncounted, finishedIn]
  | stopCompleted => simp [Pc.stopping] at hstop
  | countFailed => split_ifs <;> simp [Pc.uncounted, finishedIn]
  | edgesDone => split_ifs <;> simp [Pc.uncounted, finishedIn]
  | _ => simp [Pc.uncounted, finishedIn]

theorem Outcomes.moved (h : Outcomes cfg g s) (hi : s.workers[i]? = some pc)
    (hm : Move sem cfg g s.shared s.data pc sh d pc' events) :
    Outcomes cfg g (s.moved i sh d pc' events) where
  -- each field asks of the mover what its move can do, and of the others what held before
  failed_of_failing pc₁ hpc hf := by
    rcases List.mem_or_eq_of_mem_set hpc with hpc | rfl
    · exact anyFailed_moved_of (h.failed_of_failing pc₁ hpc hf)
    · rcases hm.failing_cases hf with hold | hnow
      · exact anyFailed_moved_of (h.failed_of_failing pc (List.mem_of_getElem? hi) hold)
      · exact hnow
  keepGoing_of_stopping pc₁ hpc hf := by
    rcases List.mem_or_eq_of_mem_set hpc with hpc | rfl
    · exact h.keepGoing_of_stopping pc₁ hpc hf
    · rcases hm.stopping_cases hf with hold | hnow
      · exact h.keepGoing_of_stopping pc (List.mem_of_getElem? hi) hold
      · exact hnow
  failed_of_error he := by
    rcases hm.error_cases with hsame | ⟨rfl, -⟩
    · exact anyFailed_moved_of (h.failed_of_error (hsame ▸ he))
    · exact anyFailed_moved_of (h.failed_of_failing _ (List.mem_of_getElem? hi) rfl)
  error_of_failed hf := by
    have hmem : pc' ∈ s.workers.set i pc' :=
      List.mem_set (List.getElem?_eq_some_iff.mp hi).1 pc'
    rcases hm.failed_cases with hnone | rfl
    · have hold : s.anyFailed = true := by simpa [anyFailed_moved, hnone] using hf
      rcases h.error_of_failed hold with he | hset
      · left
        rcases hm.error_cases with hsame | ⟨-, hnow⟩
        · exact hsame.trans he
        · exact hnow
      · -- the mover was the one about to set the error, and has set it; or it is another one
        by_cases hpc : pc = .setError
        · subst hpc
          cases hm with
          | setError => exact .inl rfl
          | idle hm => cases hm
          | signal hm => cases hm
        · obtain ⟨j, hj⟩ := List.mem_iff_getElem?.mp hset
          refine .inr (List.mem_iff_getElem?.mpr ⟨j, ?_⟩)
          have hij : i ≠ j := by
            rintro rfl
            exact hpc (Option.some.inj (hi.symm.trans hj))
          simpa [State.moved, List.getElem?_set, hij] using hj
    · exact .inr hmem
  completed hk := by
    have hold : cfg.keepGoing = true ∨ s.anyFailed = false := by
      refine hk.imp_right fun hf => ?_
      by_contra hne
      simp [anyFailed_moved_of (Bool.eq_true_of_not_eq_false hne)] at hf
    have hfailing : cfg.keepGoing = true ∨ pc.failing = false := by
      refine hold.imp_right fun hf => ?_
      by_contra hne
      have := h.failed_of_failing pc (List.mem_of_getElem? hi) (Bool.eq_true_of_not_eq_false hne)
      simp [hf] at this
    have hstop : pc.stopping = false := by
      by_contra hne
      have hne := Bool.eq_true_of_not_eq_false hne
      have hno := h.keepGoing_of_stopping pc (List.mem_of_getElem? hi) hne
      rcases hfailing with hyes | hf
      · simp [hno] at hyes
      · cases pc <;> simp [Pc.stopping, Pc.failing] at hne hf
    -- counted or about to be counted: the move adds to both sides what it finishes
    have hcount := hm.completed_count hfailing hstop
    have hset := tally_set (Pc.uncounted : Pc C → ℕ) hi pc'
    have hbefore := h.completed hold
    have hfin : (s.moved i sh d pc' events).finished.length =
        s.finished.length + (finishedIn events).length := by
      simp [State.finished, State.moved, finishedIn]
    rw [hfin]
    show sh.completedCount + tally _ (s.workers.set i pc') = _
    omega

theorem outcomes_initialState {order : List ℕ} (h : order.Perm (rootNodes g)) (d₀ : D) :
    Outcomes cfg g (initialState g order d₀ : State D C) := by
  rw [initialState_eq g h]
  refine ⟨by simp, by simp, by simp [freshShared], by simp [State.anyFailed], ?_⟩
  simp [freshShared, State.finished, finishedIn]

/-- A worker that was just spawned has no result. -/
theorem Outcomes.spawned (h : Outcomes cfg g s) :
    Outcomes cfg g { s with workers := s.workers ++ [.dequeue] } := by
  refine ⟨?_, ?_, h.3, ?_, ?_⟩
  · intro pc hpc hf
    rcases List.mem_append.mp hpc with hpc | hpc
    · exact h.failed_of_failing pc hpc hf
    · simp [List.mem_singleton.mp hpc, Pc.failing] at hf
  · intro pc hpc hf
    rcases List.mem_append.mp hpc with hpc | hpc
    · exact h.keepGoing_of_stopping pc hpc hf
    · simp [List.mem_singleton.mp hpc, Pc.stopping] at hf
  · exact fun hf => (h.error_of_failed hf).imp_right fun hset => List.mem_append_left _ hset
  · intro hk
    show _ + tally _ (s.workers ++ [.dequeue]) = _
    rw [tally_spawn _ rfl]
    exact h.completed hk

/-- Flag and count do not look at the data. -/
theorem Outcomes.withData (h : Outcomes cfg g s) (d : D) : Outcomes cfg g { s with data := d } :=
  ⟨h.1, h.2, h.3, h.4, h.5⟩

/-- Every step of the pool lets the flag and the count follow the results. -/
theorem Outcomes.poolStep (h : Outcomes cfg g s) {a : Action L} {s' : State D C}
    (hstep : PoolStep sem cfg g s a s') : Outcomes cfg g s' := by
  cases hstep with
  | stop => exact ⟨h.1, h.2, h.3, h.4, h.5⟩
  | spawn => exact h.spawned
  | move hi hm => exact h.moved hi hm

/-- The flag and the count follow the results in every reachable state. -/
theorem outcomes {d₀ : D} (h : (poolMachine sem cfg g d₀).Reachable s) : Outcomes cfg g s := by
  refine Machine.Reachable.invariant (I := Outcomes cfg g) ?_ ?_ h
  · rintro s ⟨order, horder, rfl⟩
    exact outcomes_initialState horder d₀
  · exact fun s a s' _ hI hs => hI.poolStep (poolStep_cases hs)

end Outcomes

end Cob
