import Cob.Executor.Wakeup

/-!
# Failing fast

Whether a failure keeps the waiting tasks from being started. A worker looks at `error_occurred`
only after it found the queue empty, so whatever waits when the error is set, or is enqueued
afterwards, is still started: a run fails fast exactly when there is no such task
(`failFast_iff_quiet`).
-/

namespace Cob

open BuildGraph

section FailFast

variable {D C L : Type} {sem : StepSemantics D C L} {cfg : PoolConfig} {g : BuildGraph} {d₀ : D}
  {s : State D C} {tr : List (State D C × Action L)}

/-- Every step that was started had been dequeued when `error_occurred` was seen set. -/
def FailFast (tr : List (State D C × Action L)) (s : State D C) : Prop :=
  ∀ m ∈ tr, m.1.shared.errorOccurred = true → ∀ v ∈ s.started, v ∈ m.1.shared.queue.dequeued

/-- If the step sets `error_occurred` then no task waits, and if it enqueues a task then
`error_occurred` is not set. -/
def Quiet (s : State D C) : Action L → Prop
  | .spawn => True
  | .work i _ => (s.workers[i]? = some .setError → s.shared.queue.waiting = 0) ∧
      ∀ pc ∈ s.workers[i]?, pc.target ≠ [] → s.shared.errorOccurred = false

/-! ### A move and the queue -/

section Moves

variable {sh sh' : Shared} {d d' : D} {pc pc' : Pc C} {events : List Event}

/-- Only an enqueue makes more tasks wait. -/
theorem Move.waiting_le (h : Move sem cfg g sh d pc sh' d' pc' events) (hpc : pc.target = []) :
    sh'.queue.waiting ≤ sh.queue.waiting := by
  cases h with
  | @take pos node queue hq =>
    have := waiting_of_take hq
    show queue.waiting ≤ sh.queue.waiting
    omega
  | claim => simp [Pc.target] at hpc
  | release => exact (ReadyQueue.waiting_release _ _).le
  | publish => exact (ReadyQueue.waiting_publish _ _).le
  | _ => exact le_refl _

/-- An empty queue stays as it was dequeued. -/
theorem Move.dequeued_eq (h : Move sem cfg g sh d pc sh' d' pc' events)
    (hpos : sh.queue.dequeuePos ≤ sh.queue.cells.length) (hw : sh.queue.waiting = 0) :
    sh'.queue.dequeued = sh.queue.dequeued := by
  cases h with
  | take hq =>
    have := waiting_of_take hq
    omega
  | claim hq => exact ReadyQueue.dequeued_of_claim hq hpos
  | release => exact ReadyQueue.dequeued_release _ _
  | publish => exact ReadyQueue.dequeued_publish _ _
  | _ => rfl

/-- Positions are never unclaimed, and an enqueue claims one. -/
theorem Move.cells_length (h : Move sem cfg g sh d pc sh' d' pc' events)
    (hrejected : ∀ n, .rejected n ∉ events) :
    sh'.queue.cells.length = sh.queue.cells.length + pc.target.length := by
  cases h with
  | idle h => cases h <;> rfl
  | signal h => cases h <;> rfl
  | take hq => obtain ⟨-, rfl, -⟩ := ReadyQueue.take_eq_some hq; rfl
  | claim hq => obtain ⟨-, rfl⟩ := ReadyQueue.claim_eq_some hq; simp [Pc.target]
  | reject => simp at hrejected
  | release => exact ReadyQueue.length_release _ _
  | publish => exact ReadyQueue.length_publish _ _
  | _ => rfl

end Moves

/-- `error_occurred` is never cleared, positions are never unclaimed, and workers stay. -/
structure Later (s t : State D C) : Prop where
  error : s.shared.errorOccurred = true → t.shared.errorOccurred = true
  cells : s.shared.queue.cells.length ≤ t.shared.queue.cells.length
  workers : s.workers.length ≤ t.workers.length

theorem run_later (hg : g.Linked) (h : (poolMachine sem cfg g d₀).Run tr s) :
    ∀ m ∈ tr, Later m.1 s := by
  refine Machine.Run.rel_of_mem (R := Later) ?_ ?_ h
  · exact fun s t u hst htu => ⟨fun he => htu.error (hst.error he), hst.cells.trans htu.cells,
      hst.workers.trans htu.workers⟩
  · intro s a s' hr hs
    cases poolStep_cases hs with
    | stop => exact ⟨id, le_refl _, le_refl _⟩
    | spawn => exact ⟨id, le_refl _, by simp⟩
    | @move i label pc sh d pc' events hi hm =>
      refine ⟨fun he => ?_, ?_, by simp [State.moved]⟩
      · rcases hm.error_cases with hsame | ⟨-, hnow⟩
        · exact hsame.trans he
        · exact hnow
      · have := hm.cells_length (hm.accepted (accounted hg hr) hi)
        show s.shared.queue.cells.length ≤ sh.queue.cells.length
        omega

/-- In a quiet run nothing waits after a failure, so nothing is dequeued after it. -/
theorem dequeued_of_quiet (hg : g.Linked) (h : (poolMachine sem cfg g d₀).Run tr s)
    (hquiet : ∀ m ∈ tr, Quiet m.1 m.2) :
    (s.shared.errorOccurred = true → s.shared.queue.waiting = 0) ∧
      ∀ m ∈ tr, m.1.shared.errorOccurred = true →
        s.shared.queue.dequeued = m.1.shared.queue.dequeued := by
  -- induction over the run: both clauses speak of the last state, so each move must keep them
  induction h with
  | start h0 =>
    obtain ⟨order, horder, rfl⟩ := h0
    rw [initialState_eq g horder]
    simp [freshShared]
  | @move tr s s' a hr hs ih =>
    obtain ⟨hwait, hdeq⟩ := ih fun m hm => hquiet m (List.mem_cons_of_mem _ hm)
    have hnow := hquiet _ List.mem_cons_self
    have hkeep : s.shared.errorOccurred = true →
        s'.shared.queue.dequeued = s.shared.queue.dequeued := by
      intro he
      cases poolStep_cases hs with
      | stop => rfl
      | spawn => rfl
      | move hi hm => exact hm.dequeued_eq (accounted hg hr.reachable).dequeuePos_le (hwait he)
    refine ⟨fun he => ?_, fun m hm he => ?_⟩
    · cases poolStep_cases hs with
      | stop => exact hwait he
      | spawn => exact hwait he
      | @move i label pc sh d pc' events hi hm =>
        have hbefore : s.shared.queue.waiting = 0 := by
          rcases hm.error_cases with hsame | ⟨rfl, -⟩
          · exact hwait (hsame ▸ he)
          · exact hnow.1 hi
        -- a quiet move enqueues nothing once the error is set, and sets it when nothing waits
        have htarget : pc.target = [] := by
          by_contra hne
          have hno : s.shared.errorOccurred = false := hnow.2 pc hi hne
          rcases hm.error_cases with hsame | ⟨rfl, -⟩
          · have he' : s.shared.errorOccurred = true := hsame ▸ he
            simp [hno] at he'
          · exact hne rfl
        have hle := hm.waiting_le htarget
        show sh.queue.waiting = 0
        omega
    · rcases List.mem_cons.mp hm with rfl | hm
      · exact hkeep he
      · exact (hkeep ((run_later hg hr m hm).error he)).trans (hdeq m hm he)

/-- In a joined pool that was ever used nothing waits, and every dequeued task was started. -/
theorem Accounted.dequeued_of_joined (hacc : Accounted g s)
    (h : (poolMachine sem cfg g d₀).Reachable s) (hjoin : s.Joined cfg) (hw : s.workers ≠ []) :
    s.shared.queue.waiting = 0 ∧ ∀ v ∈ s.shared.queue.dequeued, v ∈ s.started := by
  refine ⟨?_, fun v hv => ?_⟩
  · by_contra hne
    rcases busy_of_waiting h (Nat.pos_of_ne_zero hne) with hnil | ⟨pc, hpc, hbusy⟩
    · exact hw hnil
    · simp [hjoin.2 pc hpc, Pc.idle] at hbusy
  · have hheld : tally (fun pc => pc.held.count v) s.workers = 0 := by
      refine tally_eq_zero_iff.mpr fun pc hpc => ?_
      rw [hjoin.2 pc hpc]
      rfl
    have hpos := List.count_pos_iff.mpr hv
    have hdeq := hacc.dequeued v
    exact List.count_pos_iff.mp (by omega)

/-- After a run that failed fast, no task was left waiting by the failure, or enqueued since. -/
theorem cells_of_failFast (hg : g.Linked) (h : (poolMachine sem cfg g d₀).Run tr s)
    (hjoin : s.Joined cfg) (hfast : FailFast tr s) (hw : s.workers ≠ [])
    {m : State D C × Action L} (hm : m ∈ tr) (he : m.1.shared.errorOccurred = true) :
    m.1.shared.queue.waiting = 0 ∧
      m.1.shared.queue.cells.length = s.shared.queue.cells.length := by
  have hacc := accounted hg h.reachable
  have haccm := accounted hg (h.reachable_of_mem m hm)
  obtain ⟨hwaiting, hstarted⟩ := hacc.dequeued_of_joined h.reachable hjoin hw
  have hnodup : s.shared.queue.dequeued.Nodup := by
    refine List.nodup_iff_count.mpr fun v => ?_
    have hone := hacc.enqueued_le_one v
    have hle := count_dequeued_le s.shared.queue v
    omega
  -- all that was ever dequeued had been dequeued by then
  have hsub : s.shared.queue.dequeued ⊆ m.1.shared.queue.dequeued :=
    fun v hv => hfast m hm he v (hstarted v hv)
  have hlen := (List.subperm_of_subset hnodup hsub).length_le
  have hmono := (run_later hg h m hm).cells
  have hpos := hacc.dequeuePos_le
  have hposm := haccm.dequeuePos_le
  simp only [ReadyQueue.dequeued, List.length_take, ReadyQueue.length_enqueued] at hlen
  simp only [ReadyQueue.waiting] at hwaiting ⊢
  omega

/-- A run fails fast when no task waits at a failure and none is enqueued after it; and a run
that joined failed fast only then. -/
theorem failFast_iff_quiet (hg : g.Called) (h : (poolMachine sem cfg g d₀).Run tr s) :
    ((∀ m ∈ tr, Quiet m.1 m.2) → FailFast tr s) ∧
      (s.Joined cfg → (FailFast tr s ↔ ∀ m ∈ tr, Quiet m.1 m.2)) := by
  have hwf := hg.linked
  -- what is in the queue at a failure has been dequeued before it
  have hforward : (∀ m ∈ tr, Quiet m.1 m.2) → FailFast tr s := by
    intro hquiet m hm he v hv
    have hpos := List.count_pos_iff.mpr hv
    have hdeq := (accounted hwf h.reachable).dequeued v
    rw [← (dequeued_of_quiet hwf h hquiet).2 m hm he]
    exact List.count_pos_iff.mp (by omega)
  -- the converse: a move that is not quiet leaves a task that the joined run must have started
  refine ⟨hforward, fun hjoin => ⟨fun hfast => ?_, hforward⟩⟩
  rintro ⟨t, a⟩ hm
  cases a with
  | spawn => trivial
  | work i label =>
    obtain ⟨t', hstep, hlast⟩ := h.next_of_mem _ hm
    have hstep : poolStep sem cfg g t (.work i label) = some t' := hstep
    have hlater := run_later hwf h _ hm
    cases poolStep_cases hstep with
    | @move _ _ pc sh d pc' events hi hmove =>
      have hw : s.workers ≠ [] := by
        have hlt := (List.getElem?_eq_some_iff.mp hi).1
        have hle := hlater.workers
        intro hnil
        simp only [hnil, List.length_nil] at hle
        omega
      refine ⟨fun hset => ?_, fun pc₁ hpc₁ htarget => ?_⟩
      · -- the error is set in the next state, and the queue is the same there
        obtain rfl : pc = .setError := Option.some.inj (hi.symm.trans hset)
        have hafter : sh.errorOccurred = true ∧ sh.queue = t.shared.queue := by
          cases hmove with
          | setError => exact ⟨rfl, rfl⟩
          | idle hm => cases hm
          | signal hm => cases hm
        rw [← hafter.2]
        rcases hlast with hs | ⟨m', hm', ht'⟩
        · have hdrained := ((accounted hwf h.reachable).dequeued_of_joined h.reachable hjoin hw).1
          rw [← hs] at hdrained
          exact hdrained
        · have hdrained :=
            (cells_of_failFast hwf h hjoin hfast hw hm' (by rw [ht']; exact hafter.1)).1
          rw [ht'] at hdrained
          exact hdrained
      · -- a task enqueued after the error lengthens the queue, against `cells_of_failFast`
        obtain rfl : pc = pc₁ := Option.some.inj (hi.symm.trans hpc₁)
        by_contra hne
        have hcells := (cells_of_failFast hwf h hjoin hfast hw hm (by simpa using hne)).2
        have hgrow := hmove.cells_length
          (hmove.accepted (accounted hwf (h.reachable_of_mem _ hm)) hi)
        have hpos := List.length_pos_iff.mpr htarget
        have hle : sh.queue.cells.length ≤ s.shared.queue.cells.length := by
          rcases hlast with hs | ⟨m', hm', ht'⟩
          · rw [← hs]
            exact le_refl _
          · have hlater' := (run_later hwf h m' hm').cells
            rw [ht'] at hlater'
            exact hlater'
        simp only at hcells
        omega

end FailFast

/-- Two independent steps: `a` and `b` are made from `s`. -/
def pairSteps : List BuildStep :=
  [{ tool := ascii "ld", inputs := ascii "s", output := ascii "a" },
   { tool := ascii "ld", inputs := ascii "s", output := ascii "b" }]

/-- The graph of `pairSteps`. -/
def pair : BuildGraph :=
  ((BuildGraph.empty.addSteps (fun _ => none) pairSteps).toOption).getD .empty

theorem built_pair : pair.Built :=
  Built.empty.addSteps pairSteps (by decide +kernel)
    (show BuildGraph.empty.addSteps (fun _ => none) pairSteps = .ok pair by decide +kernel)

instance {C D L : Type} (tr : List (State D C × Action L)) (s : State D C) :
    Decidable (FailFast tr s) := by
  unfold FailFast
  infer_instance

instance {C D L : Type} [DecidableEq C] (s : State D C) (a : Action L) : Decidable (Quiet s a) :=
  match a with
  | .spawn => .isTrue trivial
  | .work i _ => inferInstanceAs (Decidable
      ((s.workers[i]? = some .setError → s.shared.queue.waiting = 0) ∧
        ∀ pc ∈ s.workers[i]?, pc.target ≠ [] → s.shared.errorOccurred = false))

/-- The step of `a` fails, and the same worker goes on to start the step of `b`. -/
theorem not_failFast : pair.Built ∧ ∃ tr s, (poolMachine scripted ⟨1, false⟩ pair ()).Run tr s ∧
    ¬ FailFast tr s := by
  obtain ⟨tr, s, hrun, hs⟩ := Machine.exists_run_of_exec
    (M := poolMachine scripted ⟨1, false⟩ pair ()) (s := initialState pair [0, 2] ())
    ⟨[0, 2], by decide +kernel, rfl⟩ (.spawn :: List.replicate 10 (.work 0 1))
    (fun r => ¬ FailFast r.1 r.2) (by decide +kernel)
  exact ⟨built_pair, tr, s, hrun, by simpa using hs⟩

/-- Two workers took both tasks before the first failure, so the run failed fast. -/
theorem failFast_pair : ∃ tr s, (poolMachine scripted ⟨2, false⟩ pair ()).Run tr s ∧
    (∀ m ∈ tr, Quiet m.1 m.2) ∧ s.Joined ⟨2, false⟩ ∧ s.anyFailed = true ∧ FailFast tr s := by
  obtain ⟨tr, s, hrun, hs⟩ := Machine.exists_run_of_exec
    (M := poolMachine scripted ⟨2, false⟩ pair ()) (s := initialState pair [0, 2] ())
    ⟨[0, 2], by decide +kernel, rfl⟩
    [[.spawn, .spawn], List.replicate 3 (.work 0 1), List.replicate 3 (.work 1 0),
      List.replicate 6 (.work 0 1), List.replicate 6 (.work 1 0)].flatten
    (fun r => (∀ m ∈ r.1, Quiet m.1 m.2) ∧ r.2.Joined ⟨2, false⟩ ∧ r.2.anyFailed = true)
    (by decide +kernel)
  obtain ⟨hquiet, hjoin, hfail⟩ := of_decide_eq_true hs
  exact ⟨tr, s, hrun, hquiet, hjoin, hfail, (failFast_iff_quiet built_pair.called hrun).1 hquiet⟩

end Cob
