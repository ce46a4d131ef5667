import Cob.Executor.Dispatch
import Cob.Executor.ProcessStep

/-!
# Invariants of the calls

An invariant of a build says something of the data, and of each step before its call of
`processStep`, during the call and after its success. To show it one looks at a single step of a
single call: what it makes of its own step (`step`), and that it takes nothing away from the
others (`frame`). What the scheduler contributes is here.

* `CallInvariant` — the four parts of such an invariant;
* `Stepping` — a step of a call in a reachable state, and what the schedule says of it;
* `CallInvariant.holds` — the rule.
-/

namespace Cob

open BuildGraph

/-- What an invariant says of the data, and of each step before, during and after its call. -/
structure CallInvariant where
  data : BuildData → Prop
  before : BuildData → ℕ → Prop
  during : BuildData → ℕ → Call → Prop
  after : BuildData → ℕ → Prop

/-- The invariant holds in a state of the pool. -/
structure CallInvariant.Holds (I : CallInvariant) (g : BuildGraph) (s : State BuildData Call) :
    Prop where
  data : I.data s.data
  before : ∀ v, g.isStep v = true → v ∉ s.started → I.before s.data v
  during : ∀ v call, .process v call ∈ s.workers → I.during s.data v call
  after : ∀ v, s.succeeded v = true → I.after s.data v

/-- In a reachable state, the call of node `v` takes a step. -/
structure Stepping (ctx : StepContext) (cfg : PoolConfig) (disk₀ : Disk)
    (s : State BuildData Call) (v k : ℕ) (st : BuildStep) (call : Call) (d' : BuildData)
    (r : Call ⊕ ℤ) : Prop where
  reachable : (poolMachine (processStep ctx) cfg ctx.graph (.start ctx disk₀)).Reachable s
  running : .process v call ∈ s.workers
  stepOf : ctx.graph.stepOf v = some st
  stepIdOf : ctx.graph.stepIdOf v = some k
  pathOf : ctx.graph.pathOf v = some st.output
  advance : Advance ctx s.data v k st call d' r

section Calls

variable {ctx : StepContext} {cfg : PoolConfig} {disk₀ : Disk} {s : State BuildData Call}
  {v k : ℕ} {st : BuildStep} {call : Call} {d' : BuildData} {r : Call ⊕ ℤ}

theorem Stepping.mem_started (hg : ctx.graph.WellFormed)
    (h : Stepping ctx cfg disk₀ s v k st call d' r) : v ∈ s.started :=
  (accounted hg.linked h.reachable).started_of_running h.running (by simp [Pc.running])

/-- The producers of the inputs have succeeded. -/
theorem Stepping.succeeded (hg : ctx.graph.WellFormed)
    (h : Stepping ctx cfg disk₀ s v k st call d' r) {u : ℕ} (hedge : ctx.graph.Edge u v)
    (hu : ctx.graph.isStep u = true) : s.succeeded u = true :=
  (accounted hg.linked h.reachable).succeeded_of_started (h.mem_started hg) hedge hu

/-- The step has not succeeded yet. -/
theorem Stepping.not_succeeded (hg : ctx.graph.WellFormed)
    (h : Stepping ctx cfg disk₀ s v k st call d' r) : s.succeeded v ≠ true := by
  intro hsucc
  have hrun := (accounted hg.linked h.reachable).running h.running (v := v) (by simp [Pc.running])
  exact hrun.2 (mem_finished_of_succeeded hsucc)

/-- A step that is running is no input of it. -/
theorem Stepping.not_producer (hg : ctx.graph.WellFormed)
    (h : Stepping ctx cfg disk₀ s v k st call d' r) {u : ℕ} {call' : Call}
    (hrun : .process u call' ∈ s.workers) : ¬ ctx.graph.Edge u v := by
  intro hedge
  have hu := (accounted hg.linked h.reachable).running hrun (v := u) (by simp [Pc.running])
  exact hu.2 (mem_finished_of_succeeded (h.succeeded hg hedge hu.1))

/-- No step that was started depends on it. -/
theorem Stepping.not_edge (hg : ctx.graph.WellFormed)
    (h : Stepping ctx cfg disk₀ s v k st call d' r) {u : ℕ} (hu : u ∈ s.started) :
    ¬ ctx.graph.Edge v u := by
  intro hedge
  have hstep := isStep_of_stepOf h.stepOf
  exact h.not_succeeded hg ((accounted hg.linked h.reachable).succeeded_of_started hu hedge hstep)

/-- Other steps have other ids and other outputs. -/
theorem Stepping.ne (hg : ctx.graph.WellFormed) (h : Stepping ctx cfg disk₀ s v k st call d' r)
    {u k' : ℕ} {st' : BuildStep} (hne : u ≠ v) (hst' : ctx.graph.stepOf u = some st')
    (hk' : ctx.graph.stepIdOf u = some k') : k' ≠ k ∧ st'.output ≠ st.output := by
  refine ⟨?_, fun heq => hne ?_⟩
  · rintro rfl
    exact hne (hg.stepIdOf_inj hk' h.stepIdOf)
  · obtain ⟨st₁, hst₁, hpath⟩ := hg.exists_stepOf (isStep_of_stepOf hst')
    obtain rfl : st₁ = st' := Option.some.inj (hst₁.symm.trans hst')
    exact hg.pathOf_inj hpath (heq ▸ h.pathOf)

/-- A step of the pool leaves the data alone, or it is a step of a call. -/
theorem Stepping.of_poolStep (hg : ctx.graph.WellFormed)
    (hr : (poolMachine (processStep ctx) cfg ctx.graph (.start ctx disk₀)).Reachable s)
    {a : Action Outcome} {s' : State BuildData Call}
    (h : poolStep (processStep ctx) cfg ctx.graph s a = some s') :
    s'.data = s.data ∨ ∃ v k st call r, Stepping ctx cfg disk₀ s v k st call s'.data r := by
  -- only the moves of calls change the data
  have hcall : ∀ {i v : ℕ} {call outcome d r}, s.workers[i]? = some (.process v call) →
      Cob.advance ctx s.data v call outcome = some (d, r) →
      ∃ v k st call r, Stepping ctx cfg disk₀ s v k st call d r := by
    intro i v call outcome d r hi hadv
    have hrun := List.mem_of_getElem? hi
    obtain ⟨hstep, -⟩ := (accounted hg.linked hr).running hrun (v := v) (by simp [Pc.running])
    obtain ⟨st, hst, hpath⟩ := hg.exists_stepOf hstep
    obtain ⟨k, hk, -⟩ := Option.bind_eq_some_iff.mp (stepOf_eq ctx.graph v ▸ hst)
    exact ⟨v, k, st, call, r, hr, hrun, hst, hk, hpath, advance_cases hst hk hadv⟩
  cases poolStep_cases h with
  | stop => exact .inl rfl
  | spawn => exact .inl rfl
  | move hi hm =>
    cases hm with
    | advance hadv => exact .inr (hcall hi hadv)
    | succeed hadv => exact .inr (hcall hi hadv)
    | fail hadv => exact .inr (hcall hi hadv)
    | _ =>
      left
      rw [State.moved]

/-- The rule: the parts of the invariant that a step of a call is responsible for. -/
theorem CallInvariant.holds (I : CallInvariant) (hg : ctx.graph.WellFormed)
    (start : I.data (.start ctx disk₀) ∧ ∀ v, I.before (.start ctx disk₀) v)
    (enter : ∀ d v, I.data d → I.before d v → I.during d v .command)
    (step : ∀ s v k st call d' r, Stepping ctx cfg disk₀ s v k st call d' r → I.Holds ctx.graph s →
      I.data d' ∧ (∀ call', r = .inl call' → I.during d' v call') ∧ (r = .inr 0 → I.after d' v))
    (frame : ∀ s v k st call d' r, Stepping ctx cfg disk₀ s v k st call d' r →
      I.Holds ctx.graph s → ∀ u, u ≠ v → ctx.graph.isStep u = true →
      (u ∉ s.started → I.before s.data u → I.before d' u) ∧
        (∀ call', .process u call' ∈ s.workers → I.during s.data u call' → I.during d' u call') ∧
          (s.succeeded u = true → I.after s.data u → I.after d' u))
    (h : (poolMachine (processStep ctx) cfg ctx.graph (.start ctx disk₀)).Reachable s) :
    I.Holds ctx.graph s := by
  refine pool_invariant (I := I.Holds ctx.graph) ?_ ?_ ?_ ?_ h
  · intro order horder
    rw [initialState_eq ctx.graph horder]
    exact ⟨start.1, fun v _ _ => start.2 v, by simp, by simp [State.succeeded]⟩
  · exact fun s hI => ⟨hI.data, hI.before, hI.during, hI.after⟩
  · intro s _ hI _ _
    refine ⟨hI.data, hI.before, fun v call hmem => ?_, hI.after⟩
    exact hI.during v call (by simpa using hmem)
  · intro s i pc sh d pc' events hr hI hi hm
    have hacc := accounted hg.linked hr
    -- a step of a call, which may be the last
    have hcall : ∀ v call outcome d r, pc = .process v call →
        Cob.advance ctx s.data v call outcome = some (d, r) →
        (∀ v' call', pc' = .process v' call' → v' = v ∧ r = .inl call') →
        startedIn events = [] → (∀ n, .returned n 0 ∈ events → n = v ∧ r = .inr 0) →
        I.Holds ctx.graph (s.moved i s.shared d pc' events) := by
      rintro v call outcome d r rfl hadv hpc' hstarted hsucceeded
      have hrun := List.mem_of_getElem? hi
      obtain ⟨hstep, -⟩ := hacc.running hrun (v := v) (by simp [Pc.running])
      have hvstarted := hacc.started_of_running hrun (v := v) (by simp [Pc.running])
      obtain ⟨st, hst, hpath⟩ := hg.exists_stepOf hstep
      obtain ⟨k, hk, -⟩ := Option.bind_eq_some_iff.mp (stepOf_eq ctx.graph v ▸ hst)
      have hs : Stepping ctx cfg disk₀ s v k st call d r :=
        ⟨hr, hrun, hst, hk, hpath, advance_cases hst hk hadv⟩
      obtain ⟨hdata, hduring, hafter⟩ := step s v k st call d r hs hI
      have hothers := frame s v k st call d r hs hI
      have hlog : (s.moved i s.shared d pc' events).started = s.started := by
        simp only [State.started, State.moved, startedIn, List.filterMap_append]
        rw [show List.filterMap _ events = [] from hstarted, List.append_nil]
      refine ⟨hdata, fun u hu hno => ?_, fun u call' hmem => ?_, fun u hsucc => ?_⟩
      · rw [hlog] at hno
        have hne : u ≠ v := by
          rintro rfl
          exact hno hvstarted
        exact (hothers u hne hu).1 hno (hI.before u hu hno)
      · obtain ⟨j, hj⟩ := List.mem_iff_getElem?.mp hmem
        change (s.workers.set i pc')[j]? = _ at hj
        by_cases hij : i = j
        · -- the worker that moved
          subst hij
          have hlen := (List.getElem?_eq_some_iff.mp hi).1
          obtain rfl : pc' = .process u call' := by simpa [List.getElem?_set_self hlen] using hj
          obtain ⟨rfl, hr⟩ := hpc' u call' rfl
          exact hduring call' hr
        · rw [List.getElem?_set_ne hij] at hj
          have hold := List.mem_of_getElem? hj
          have hne : u ≠ v := by
            rintro rfl
            exact hij (hacc.running_unique hi hj)
          have hustep := (hacc.running hold (v := u) (by simp [Pc.running])).1
          exact (hothers u hne hustep).2.1 call' hold (hI.during u call' hold)
      · rw [succeeded_moved, Bool.or_eq_true] at hsucc
        by_cases hne : u = v
        · subst hne
          rcases hsucc with hold | hnew
          · exact absurd hold (hs.not_succeeded hg)
          · exact hafter (hsucceeded u (by simpa using hnew)).2
        · have hold : s.succeeded u = true := by
            refine hsucc.resolve_right fun hnew => hne ?_
            exact (hsucceeded u (by simpa using hnew)).1
          have hustep := hacc.isStep_of_finished (mem_finished_of_succeeded hold)
          exact (hothers u hne hustep).2.2 hold (hI.after u hold)
    -- a step of the scheduler, which may enter a call
    have hquiet : (∀ n, .returned n 0 ∉ events) → d = s.data →
        (∀ v call, pc' = .process v call → I.during s.data v call) →
        I.Holds ctx.graph (s.moved i sh d pc' events) := by
      rintro hsucceeded rfl hpc'
      refine ⟨hI.data, fun v hv hno => ?_, fun v call hmem => ?_, fun v hsucc => ?_⟩
      · refine hI.before v hv fun hold => hno (Cob.mem_started.mpr ?_)
        exact List.mem_append_left _ (Cob.mem_started.mp hold)
      · rcases List.mem_or_eq_of_mem_set hmem with hold | hnew
        · exact hI.during v call hold
        · exact hpc' v call hnew.symm
      · rw [succeeded_moved, Bool.or_eq_true] at hsucc
        refine hI.after v (hsucc.resolve_right fun hnew => ?_)
        exact hsucceeded v (by simpa using hnew)
    cases hm with
    | advance hadv =>
      refine hcall _ _ _ _ _ rfl hadv ?_ rfl (by simp)
      rintro _ _ ⟨rfl, rfl⟩
      exact ⟨rfl, rfl⟩
    | succeed hadv =>
      refine hcall _ _ _ _ _ rfl hadv (by simp) rfl fun n hn => ?_
      simpa using hn
    | fail hadv hne =>
      refine hcall _ _ _ _ _ rfl hadv (by simp) rfl fun n hn => ?_
      simp only [List.mem_singleton, Event.returned.injEq] at hn
      exact absurd hn.2.symm hne
    | @subtract node =>
      refine hquiet (by simp) rfl ?_
      rintro v call ⟨rfl, rfl⟩
      have hheld := List.mem_of_getElem? hi
      refine enter _ _ hI.data (hI.before node ?_ ?_)
      · exact (hacc.held hheld (by simp [Pc.held])).1
      · exact hacc.not_started_of_held hheld (by simp [Pc.held])
    | idle hm => cases hm <;> exact hquiet (by simp) rfl (by simp)
    | signal hm => cases hm <;> exact hquiet (by simp) rfl (by simp)
    | setError => exact hquiet (by simp) rfl (by split_ifs <;> simp)
    | countFailed => exact hquiet (by simp) rfl (by split_ifs <;> simp)
    | edgesDone => exact hquiet (by simp) rfl (by split_ifs <;> simp)
    | _ => exact hquiet (by simp) rfl (by simp)

end Calls

end Cob
