import Cob.Executor.KeepGoing
import Cob.Executor.NeedsRebuild

/-!
# Predictions

A dry run and `emitGraph` look at files that nobody rewrites, so both report the steps that are out
of date. A build also rebuilds what depends on them. The predictions come true exactly when every
step that uses an out-of-date output is out of date itself (`predicted_of_predictable`).

The module introduces:

* `StepContext.dry` — what the workers of a dry run read;
* `reports` — the step that a move of a dry run reports;
* `DryRun` — what a dry run has reported so far.
-/

namespace Cob

open BuildGraph

/-- What the workers of a dry run read. -/
def StepContext.dry (ctx : StepContext) : StepContext := { ctx with dryRun := true }

/-- The node that a move reports: `printMessage` is called when `needsRebuild` has answered true. -/
def reports (m : State BuildData Call × Action Outcome) : Option ℕ :=
  match m.2 with
  | .spawn => none
  | .work i _ =>
    match m.1.workers[i]? with
    | some (.process v (.rebuild _)) => some v
    | _ => none

/-- A dry run, by its moves, and `emitGraph` have reported what the build has rebuilt. -/
def Predicted (ctx : StepContext) (disk₀ : Disk) (tr : List (State BuildData Call × Action Outcome))
    (d : BuildData) : Prop :=
  (∀ v, v ∈ tr.filterMap reports ↔ Rebuilt ctx d v) ∧
    ∀ v, (colors ctx disk₀)[v]? = some .green ↔ Rebuilt ctx d v

/-- No step writes the manifest or a file that others find by chance, and the steps that use the
output of a step that is out of date are out of date themselves. -/
structure Predictable (ctx : StepContext) (disk₀ : Disk) : Prop where
  separate : Separate ctx
  steady : RspSteady ctx
  closed : ∀ u v, ctx.graph.Edge u v → Outdated ctx disk₀ u → Outdated ctx disk₀ v

/-- A call that a dry run does not get to. -/
def Call.wet : Call → Bool
  | .spawn _ => true
  | .running _ _ => true
  | .commit _ => true
  | .invalidate => true
  | _ => false

/-- In a dry run no tool runs. -/
def dryInvariant : CallInvariant where
  data d := d.ran = []
  before _ _ := True
  during _ _ call := call.wet = false
  after _ _ := True

section Dry

variable {ctx : StepContext} {cfg : PoolConfig} {disk₀ : Disk} {s s' : State BuildData Call}
  {v k : ℕ} {st : BuildStep} {d d' : BuildData} {call : Call} {r : Call ⊕ ℤ}

/-- What a step of a call does in a dry run: it goes on without a tool, or it ends, after
`needsRebuild` has answered. -/
theorem Advance.dry (hdry : ctx.dryRun = true) (hwet : call.wet = false)
    (h : Advance ctx d v k st call d' r) :
    d'.ran = d.ran ∧
      ((∃ call', r = .inl call' ∧ call'.wet = false ∧ ∀ cmd, call ≠ .rebuild cmd) ∨
        r = .inr 0 ∧ ((∃ cmd, call = .rebuild cmd) ∨ (∃ t, call = .recordExchange t) ∨
          ∃ t, call = .recordFill t)) := by
  have hafter : ∀ d cmd t ref rest answer, (afterProbe d v cmd t ref rest answer).wet = false := by
    intro d cmd t ref rest answer
    unfold afterProbe
    split_ifs
    · rfl
    · rfl
    · cases rest <;> rfl
  cases h with
  | command => exact ⟨rfl, .inl ⟨_, rfl, rfl, nofun⟩⟩
  | missing => exact ⟨rfl, .inl ⟨_, rfl, rfl, nofun⟩⟩
  | hashDiffers => exact ⟨rfl, .inl ⟨_, rfl, rfl, nofun⟩⟩
  | hashAgrees => exact ⟨rfl, .inl ⟨_, rfl, rfl, nofun⟩⟩
  | loadReady => exact ⟨rfl, .inl ⟨_, rfl, hafter _ _ _ _ _ _, nofun⟩⟩
  | loadOther => exact ⟨rfl, .inl ⟨_, rfl, rfl, nofun⟩⟩
  | stat => exact ⟨rfl, .inl ⟨_, rfl, rfl, nofun⟩⟩
  | exchanged => exact ⟨ran_setSlot _ _ _, .inl ⟨_, rfl, rfl, nofun⟩⟩
  | notExchanged => exact ⟨rfl, .inl ⟨_, rfl, hafter _ _ _ _ _ _, nofun⟩⟩
  | fill => exact ⟨ran_setSlot _ _ _, .inl ⟨_, rfl, hafter _ _ _ _ _ _, nofun⟩⟩
  | recordExchanged => exact ⟨ran_setSlot _ _ _, .inl ⟨_, rfl, rfl, nofun⟩⟩
  | notRecorded => exact ⟨rfl, .inr ⟨rfl, .inr (.inl ⟨_, rfl⟩)⟩⟩
  | recordFill => exact ⟨ran_setSlot _ _ _, .inr ⟨rfl, .inr (.inr ⟨_, rfl⟩)⟩⟩
  | dryRun => exact ⟨rfl, .inr ⟨rfl, .inl ⟨_, rfl⟩⟩⟩
  -- the other branches belong to a build
  | writeRsp hno => simp [hno] at hdry
  | link hno => simp [hno] at hdry
  | rebuild hno => simp [hno] at hdry
  | _ => exact Bool.noConfusion hwet

/-- In every state of a dry run, no tool has run and no call is about to run one. -/
theorem dryInvariant_holds (hg : ctx.graph.WellFormed) (hdry : ctx.dryRun = true)
    (h : (poolMachine (processStep ctx) cfg ctx.graph (.start ctx disk₀)).Reachable s) :
    dryInvariant.Holds ctx.graph s := by
  refine CallInvariant.holds _ hg ⟨rfl, fun _ => trivial⟩ (fun _ _ _ _ => rfl) ?_ ?_ h
  · intro s v k st call d' r hs hI
    obtain ⟨hran, hnext⟩ := hs.advance.dry hdry (hI.during v call hs.running)
    refine ⟨hran.trans hI.data, fun call' hr => ?_, fun _ => trivial⟩
    rcases hnext with ⟨call₁, rfl, hwet, -⟩ | ⟨rfl, -⟩
    · obtain rfl := Sum.inl.inj hr
      exact hwet
    · cases hr
  · exact fun _ _ _ _ _ _ _ _ _ _ _ _ =>
      ⟨fun _ _ => trivial, fun _ _ hcall => hcall, fun _ _ => trivial⟩

/-- In a dry run, demanded is out of date. -/
theorem demanded_iff_of_ran_eq_nil (hran : d.ran = []) :
    Demanded ctx disk₀ d v ↔ Outdated ctx disk₀ v := by
  refine ⟨?_, .inl⟩
  rintro (hout | ⟨u, -, k, -, cmd, hmem⟩)
  · exact hout
  · rw [hran] at hmem
    cases hmem

/-- What a dry run has reported so far: the steps that it has finished with and that are out of
date. None of them fails. -/
structure DryRun (ctx : StepContext) (disk₀ : Disk)
    (tr : List (State BuildData Call × Action Outcome))
    (s : State BuildData Call) : Prop where
  not_failed : s.anyFailed = false
  reported : ∀ v, v ∈ tr.filterMap reports ↔ v ∈ s.finished ∧ Outdated ctx disk₀ v

/-- What a move of a dry run reports and finishes: nothing, or a step that is out of date, which it
reports, or a step that is up to date. -/
theorem move_dry (hg : ctx.graph.WellFormed) (hsep : Separate ctx) (hsteady : RspSteady ctx)
    (hdry : ctx.dryRun = true)
    (hr : (poolMachine (processStep ctx) cfg ctx.graph (.start ctx disk₀)).Reachable s)
    {i : ℕ} {label : Outcome} {pc pc' : Pc Call} {sh : Shared} {events : List Event}
    (hi : s.workers[i]? = some pc)
    (hm : Move (processStep ctx) cfg ctx.graph s.shared s.data pc sh d pc' events) :
    reports (s, .work i label) = none ∧ finishedIn events = [] ∧
        events.any Event.failed = false ∨
      ∃ v, events = [.returned v 0] ∧
        (reports (s, .work i label) = some v ∧ Outdated ctx disk₀ v ∨
          reports (s, .work i label) = none ∧ ¬ Outdated ctx disk₀ v) := by
  -- a step of a call that does not end reports nothing; one that ends decides by the demand at the
  -- start, since a dry run changes no file
  have hcall : ∀ v call outcome r, pc = .process v call →
      Cob.advance ctx s.data v call outcome = some (d, r) →
      reports (s, .work i label) = none ∧ (∃ call', r = .inl call') ∨
        r = .inr 0 ∧ (reports (s, .work i label) = some v ∧ Outdated ctx disk₀ v ∨
          reports (s, .work i label) = none ∧ ¬ Outdated ctx disk₀ v) := by
    rintro v call outcome r rfl hadv
    have hrun := List.mem_of_getElem? hi
    obtain ⟨hstep, -⟩ := (accounted hg.linked hr).running hrun (v := v) (by simp [Pc.running])
    obtain ⟨st, hst, -⟩ := hg.exists_stepOf hstep
    obtain ⟨k, hk, -⟩ := Option.bind_eq_some_iff.mp (stepOf_eq ctx.graph v ▸ hst)
    have hdryI := dryInvariant_holds hg hdry hr
    have hdemand := (demand hg hsep hsteady hr).during v call hrun k st hst hk
    have hiff : Demanded ctx disk₀ s.data v ↔ Outdated ctx disk₀ v :=
      demanded_iff_of_ran_eq_nil hdryI.data
    obtain ⟨-, hnext⟩ := (advance_cases hst hk hadv).dry hdry (hdryI.during v call hrun)
    rcases hnext with ⟨call', rfl, -, hne⟩ | ⟨rfl, hends⟩
    · refine .inl ⟨?_, call', rfl⟩
      cases call with
      | rebuild cmd => exact absurd rfl (hne cmd)
      | _ => simp [reports, hi]
    · refine .inr ⟨rfl, ?_⟩
      rcases hends with ⟨cmd, rfl⟩ | ⟨t, rfl⟩ | ⟨t, rfl⟩
      · exact .inl ⟨by simp [reports, hi], hiff.mp hdemand.2.1⟩
      · exact .inr ⟨by simp [reports, hi], mt hiff.mpr hdemand.2.1⟩
      · exact .inr ⟨by simp [reports, hi], mt hiff.mpr hdemand.2.1⟩
  -- only a call reports
  have hquiet : (∀ v call, pc ≠ .process v call) → reports (s, .work i label) = none := by
    intro hne
    simp only [reports, hi]
    split
    · next v cmd heq => exact absurd (Option.some.inj heq) (hne v _)
    · rfl
  cases hm with
  | advance hadv =>
    rcases hcall _ _ _ _ rfl hadv with ⟨hnone, -⟩ | ⟨hr, -⟩
    · exact .inl ⟨hnone, rfl, rfl⟩
    · cases hr
  | @succeed v _ _ _ hadv =>
    rcases hcall _ _ _ _ rfl hadv with ⟨-, call', hr⟩ | ⟨-, hreports⟩
    · cases hr
    · exact .inr ⟨v, rfl, hreports⟩
  | fail hadv hne =>
    rcases hcall _ _ _ _ rfl hadv with ⟨-, call', hr⟩ | ⟨hr, -⟩
    · cases hr
    · exact absurd (Sum.inr.inj hr) hne
  | idle hidle =>
    refine .inl ⟨hquiet ?_, rfl, rfl⟩
    rintro v call rfl
    cases hidle
  | signal hsignal =>
    refine .inl ⟨hquiet ?_, rfl, rfl⟩
    rintro v call rfl
    cases hsignal
  | _ => exact .inl ⟨hquiet fun _ _ hpc => (by cases hpc), rfl, rfl⟩

/-- What a dry run reports. -/
theorem dryRun_of_run (hg : ctx.graph.WellFormed) (hsep : Separate ctx) (hsteady : RspSteady ctx)
    (hdry : ctx.dryRun = true) {tr : List (State BuildData Call × Action Outcome)}
    (h : (poolMachine (processStep ctx) cfg ctx.graph (.start ctx disk₀)).Run tr s) :
    DryRun ctx disk₀ tr s := by
  -- induction over the run; `move_dry` says what the last move reports
  induction h with
  | start hinit =>
    obtain ⟨order, horder, rfl⟩ := hinit
    rw [initialState_eq ctx.graph horder]
    exact ⟨rfl, by simp [State.finished, finishedIn]⟩
  | @move tr s s' a hrun hs ih =>
    obtain ⟨hfail, hreported⟩ := ih
    cases poolStep_cases hs with
    | stop => exact ⟨hfail, hreported⟩
    | spawn => exact ⟨hfail, hreported⟩
    | @move i label pc sh d pc' events hi hm =>
      have hmem : ∀ v, v ∈ (s.moved i sh d pc' events).finished ↔
          v ∈ s.finished ∨ v ∈ finishedIn events := by
        intro v
        simp [State.finished, State.moved, finishedIn]
      rcases move_dry hg hsep hsteady hdry hrun.reachable hi hm with
        ⟨hnone, hfin, hno⟩ | ⟨u, rfl, ⟨hsome, hout⟩ | ⟨hnone, hup⟩⟩
      · refine ⟨by rw [anyFailed_moved, hfail, hno]; rfl, fun v => ?_⟩
        rw [List.filterMap_cons_none hnone, hreported, hmem, hfin]
        simp
      · refine ⟨by rw [anyFailed_moved, hfail]; rfl, fun v => ?_⟩
        rw [List.filterMap_cons_some hsome, List.mem_cons, hreported, hmem]
        constructor
        · rintro (rfl | ⟨hfin, hv⟩)
          · exact ⟨.inr (by simp [finishedIn]), hout⟩
          · exact ⟨.inl hfin, hv⟩
        · rintro ⟨hfin | hnew, hv⟩
          · exact .inr ⟨hfin, hv⟩
          · exact .inl (by simpa [finishedIn] using hnew)
      · refine ⟨by rw [anyFailed_moved, hfail]; rfl, fun v => ?_⟩
        rw [List.filterMap_cons_none hnone, hreported, hmem]
        constructor
        · rintro ⟨hfin, hv⟩
          exact ⟨.inl hfin, hv⟩
        · rintro ⟨hfin | hnew, hv⟩
          · exact ⟨hfin, hv⟩
          · obtain rfl : v = u := by simpa [finishedIn] using hnew
            exact absurd hv hup

/-- A dry run that has ended reports the steps that are out of date. -/
theorem reported_iff (hg : ctx.graph.WellFormed) (hacyclic : ctx.graph.Acyclic)
    (hsep : Separate ctx) (hsteady : RspSteady ctx) (hdry : ctx.dryRun = true)
    {tr : List (State BuildData Call × Action Outcome)}
    (h : (poolMachine (processStep ctx) cfg ctx.graph (.start ctx disk₀)).Run tr s)
    (hall : s.AllReturned) (v : ℕ) : v ∈ tr.filterMap reports ↔ Outdated ctx disk₀ v := by
  obtain ⟨hfail, hreported⟩ := dryRun_of_run hg hsep hsteady hdry h
  rw [hreported]
  refine ⟨And.right, fun hout => ⟨?_, hout⟩⟩
  obtain ⟨st, hst, -⟩ := id hout
  refine mem_finished_of_not_failed hg.linked hacyclic (.inr hfail) h.reachable hall
    (isStep_of_stepOf hst) fun u _ hu => ?_
  rw [State.anyFailed_iff.mpr ⟨u, hu⟩] at hfail
  cases hfail

/-- Where no step writes a file behind the back of others, the predictions come true exactly when
the users of outputs that are out of date are out of date themselves. -/
theorem predicted_iff_closed {cfg' : PoolConfig} (hwf : ctx.graph.WellFormed)
    (hacyclic : ctx.graph.Acyclic) (hsep : Separate ctx) (hsteady : RspSteady ctx)
    (hdry : ctx.dryRun = false)
    (hreal : (poolMachine (processStep ctx) cfg ctx.graph (.start ctx disk₀)).Reachable s)
    (hjoin : s.Joined cfg) (hok : s.executeResult ctx.graph = .ok ())
    {tr : List (State BuildData Call × Action Outcome)}
    (hdryRun : (poolMachine (processStep ctx.dry) cfg' ctx.graph (.start ctx.dry disk₀)).Run tr s')
    (hjoin' : s'.Joined cfg') (hpos : 0 < cfg'.threadCount) :
    Predicted ctx disk₀ tr s.data ↔
      ∀ u v, ctx.graph.Edge u v → Outdated ctx disk₀ u → Outdated ctx disk₀ v := by
  have hsep' : Separate ctx.dry := ⟨hsep.output_ne, hsep.rsp_ne⟩
  have hsteady' : RspSteady ctx.dry := hsteady
  have hreports : ∀ v, v ∈ tr.filterMap reports ↔ Outdated ctx disk₀ v :=
    reported_iff (show ctx.dry.graph.WellFormed from hwf) hacyclic hsep' hsteady' rfl hdryRun
      (hjoin'.allReturned hpos)
  have hrebuilt : ∀ v, ctx.graph.isStep v = true →
      (Rebuilt ctx s.data v ↔ Demanded ctx disk₀ s.data v) :=
    fun v hv => rebuilt_iff_of_ok hwf hsep hsteady hdry hreal hjoin hok hv
  have hisStep : ∀ v, Rebuilt ctx s.data v → ctx.graph.isStep v = true := by
    rintro v ⟨k, hk, -⟩
    simp [isStep_eq, hk]
  have hout : ∀ v, Outdated ctx disk₀ v → Rebuilt ctx s.data v := by
    intro v hv
    obtain ⟨st, hst, -⟩ := id hv
    exact (hrebuilt v (isStep_of_stepOf hst)).mpr (.inl hv)
  constructor
  · rintro ⟨hagree, -⟩ u v hedge hu
    -- the build rebuilds the output as well, and the dry run reported what is rebuilt
    have hv : Rebuilt ctx s.data v :=
      (hrebuilt v (hwf.target_isStep u v (edge_iff.mp hedge))).mpr (.inr ⟨u, hedge, hout u hu⟩)
    exact (hreports v).mp ((hagree v).mpr hv)
  · intro hclosed
    have hall : ∀ v, Rebuilt ctx s.data v → Outdated ctx disk₀ v := by
      intro v
      -- producers come first, by well-founded induction along the edges
      induction v using hacyclic.wellFounded.induction with
      | h v ih =>
        intro hv
        rcases (hrebuilt v (hisStep v hv)).mp hv with hv | ⟨u, hedge, hu⟩
        · exact hv
        · exact hclosed u v hedge (ih u hedge hu)
    refine ⟨fun v => ?_, fun v => ?_⟩
    · rw [hreports]
      exact ⟨hout v, hall v⟩
    · rw [colors_eq_green_iff hwf]
      exact ⟨hout v, hall v⟩

/-- A dry run and `emitGraph` predict what a successful build rebuilds when the steps that use the
output of a step that is out of date are out of date themselves, and only then, as long as no step
writes a file behind the back of others. -/
theorem predicted_of_predictable {cfg' : PoolConfig} (hg : ctx.graph.Built)
    (hacyclic : ctx.graph.Acyclic) (hdry : ctx.dryRun = false)
    (hreal : (poolMachine (processStep ctx) cfg ctx.graph (.start ctx disk₀)).Reachable s)
    (hjoin : s.Joined cfg) (hok : s.executeResult ctx.graph = .ok ())
    {tr : List (State BuildData Call × Action Outcome)}
    (hdryRun : (poolMachine (processStep ctx.dry) cfg' ctx.graph (.start ctx.dry disk₀)).Run tr s')
    (hjoin' : s'.Joined cfg') (hpos : 0 < cfg'.threadCount) :
    (Predictable ctx disk₀ → Predicted ctx disk₀ tr s.data) ∧
      (Separate ctx → RspSteady ctx → Predicted ctx disk₀ tr s.data → Predictable ctx disk₀) := by
  refine ⟨fun ⟨hsep, hsteady, hclosed⟩ => ?_, fun hsep hsteady hpredicted => ?_⟩
  · exact (predicted_iff_closed hg.wellFormed hacyclic hsep hsteady hdry hreal hjoin hok hdryRun
      hjoin' hpos).mpr hclosed
  · exact ⟨hsep, hsteady, (predicted_iff_closed hg.wellFormed hacyclic hsep hsteady hdry hreal hjoin
      hok hdryRun hjoin' hpos).mp hpredicted⟩

end Dry

theorem acyclic_twice : twice.Acyclic :=
  acyclic_of_rank (fun v => [1, 0, 2].getD v 0) (by decide +kernel)

theorem rspSteady_twice : RspSteady twiceContext := by
  unfold RspSteady
  decide +kernel

/-- Both steps of `twice` are out of date: the dry run and `emitGraph` report what is rebuilt. -/
theorem predicted_of_predictable_twice : ∃ s tr s',
    (poolMachine (processStep twiceContext) ⟨1, false⟩ twice
      (.start twiceContext twiceDisk)).Reachable s ∧
    (poolMachine (processStep twiceContext.dry) ⟨1, false⟩ twice
      (.start twiceContext.dry twiceDisk)).Run tr s' ∧
    Predicted twiceContext twiceDisk tr s.data := by
  obtain ⟨tr, s, hrun, hs⟩ := Machine.exists_run_of_exec
    (M := poolMachine (processStep twiceContext) ⟨1, false⟩ twice (.start twiceContext twiceDisk))
    (s := initialState twice [0] (.start twiceContext twiceDisk))
    ⟨[0], by decide +kernel, rfl⟩
    (.spawn :: List.replicate 20 (.work 0 ⟨some 0, 10⟩) ++
      List.replicate 12 (.work 0 ⟨some 0, 20⟩))
    (fun r => r.2.Joined ⟨1, false⟩ ∧ r.2.executeResult twice = .ok ()) (by decide +kernel)
  obtain ⟨tr', s', hrun', hs'⟩ := Machine.exists_run_of_exec
    (M := poolMachine (processStep twiceContext.dry) ⟨1, false⟩ twice
      (.start twiceContext.dry twiceDisk))
    (s := initialState twice [0] (.start twiceContext.dry twiceDisk))
    ⟨[0], by decide +kernel, rfl⟩ (.spawn :: List.replicate 24 (.work 0 ⟨some 0, 10⟩))
    (fun r => r.2.Joined ⟨1, false⟩) (by decide +kernel)
  obtain ⟨hjoin, hok⟩ := of_decide_eq_true hs
  have hjoin' := of_decide_eq_true hs'
  have hclosed : ∀ u v, twice.Edge u v → Outdated twiceContext twiceDisk u →
      Outdated twiceContext twiceDisk v := by
    have hgreen : ∀ u < twice.nodes.length, ∀ v ∈ twice.outEdges u,
        (colors twiceContext twiceDisk)[v]? = some .green := by decide +kernel
    intro u v hedge _
    obtain ⟨n, hn, -⟩ := id hedge
    have hlt : u < twice.nodes.length := (List.getElem?_eq_some_iff.mp hn).1
    exact (colors_eq_green_iff built_twice.wellFormed v).mp (hgreen u hlt v (edge_iff.mp hedge))
  have hpredicted := (predicted_of_predictable built_twice acyclic_twice rfl ⟨tr, hrun⟩ hjoin hok
    hrun' hjoin' (by decide)).1 ⟨separate_twice, rspSteady_twice, hclosed⟩
  exact ⟨s, tr', s', ⟨tr, hrun⟩, hrun', hpredicted⟩

/-- Steps with the hashes of their commands. -/
def staleSteps : List BuildStep :=
  [{ tool := ascii "ld", inputs := ascii "s", output := ascii "a",
     commandHash := hashCommand twiceContext.rapidHash
       [ascii "ld", ascii "s", ascii "-o", ascii "a"] },
   { tool := ascii "ld", inputs := ascii "a", output := ascii "b",
     commandHash := hashCommand twiceContext.rapidHash
       [ascii "ld", ascii "a", ascii "-o", ascii "b"] }]

/-- Linking `a` from `s`, then `b` from `a`. -/
def staleGraph : BuildGraph :=
  ((BuildGraph.empty.addSteps (fun _ => none) staleSteps).toOption).getD .empty

theorem built_staleGraph : staleGraph.Built :=
  Built.empty.addSteps staleSteps (by decide +kernel)
    (show BuildGraph.empty.addSteps (fun _ => none) staleSteps = .ok staleGraph by decide +kernel)

theorem acyclic_staleGraph : staleGraph.Acyclic :=
  acyclic_of_rank (fun v => [1, 0, 2].getD v 0) (by decide +kernel)

/-- What the workers read. -/
def staleContext : StepContext := { twiceContext with graph := staleGraph }

/-- Both outputs were made, and then the source was edited. -/
def staleDisk : Disk :=
  ⟨[(ascii "catalyst.build", ⟨1, .unknown⟩), (ascii "a", ⟨2, .unknown⟩),
    (ascii "b", ⟨3, .unknown⟩), (ascii "s", ⟨5, .unknown⟩)]⟩

/-- The build rebuilds `a` and then `b`; the dry run reports `a` only. -/
theorem not_predicted : ¬ ∀ (ctx : StepContext) (cfg cfg' : PoolConfig) (disk₀ : Disk)
    (s s' : State BuildData Call) (tr : List (State BuildData Call × Action Outcome)),
    ctx.graph.Built → ctx.graph.Acyclic → ctx.dryRun = false →
    (poolMachine (processStep ctx) cfg ctx.graph (.start ctx disk₀)).Reachable s → s.Joined cfg →
    s.executeResult ctx.graph = .ok () →
    (poolMachine (processStep ctx.dry) cfg' ctx.graph (.start ctx.dry disk₀)).Run tr s' →
    s'.Joined cfg' → 0 < cfg'.threadCount → Predicted ctx disk₀ tr s.data := by
  intro hall
  -- one worker makes `a` at time 10, and `b` at time 20
  obtain ⟨tr, s, hrun, hs⟩ := Machine.exists_run_of_exec
    (M := poolMachine (processStep staleContext) ⟨1, false⟩ staleGraph
      (.start staleContext staleDisk))
    (s := initialState staleGraph [0] (.start staleContext staleDisk))
    ⟨[0], by decide +kernel, rfl⟩
    (.spawn :: List.replicate 20 (.work 0 ⟨some 0, 10⟩) ++
      List.replicate 20 (.work 0 ⟨some 0, 20⟩))
    (fun r => r.2.Joined ⟨1, false⟩ ∧ r.2.executeResult staleGraph = .ok () ∧
      (r.2.data.ran.any fun p => p.1 = 1) = true) (by decide +kernel)
  obtain ⟨hjoin, hok, hran⟩ := of_decide_eq_true hs
  -- the dry run finds `b` newer than the old `a`
  obtain ⟨tr', s', hrun', hs'⟩ := Machine.exists_run_of_exec
    (M := poolMachine (processStep staleContext.dry) ⟨1, false⟩ staleGraph
      (.start staleContext.dry staleDisk))
    (s := initialState staleGraph [0] (.start staleContext.dry staleDisk))
    ⟨[0], by decide +kernel, rfl⟩ (.spawn :: List.replicate 33 (.work 0 ⟨some 0, 10⟩))
    (fun r => r.2.Joined ⟨1, false⟩ ∧ 2 ∉ r.1.filterMap reports) (by decide +kernel)
  obtain ⟨hjoin', hnot⟩ := of_decide_eq_true hs'
  have hrebuilt : Rebuilt staleContext s.data 2 := by
    obtain ⟨⟨k, cmd⟩, hmem, hk⟩ := List.any_eq_true.mp hran
    obtain rfl : k = 1 := by simpa using hk
    exact ⟨1, by decide +kernel, cmd, hmem⟩
  have hagree := hall staleContext ⟨1, false⟩ ⟨1, false⟩ staleDisk s s' tr' built_staleGraph
    acyclic_staleGraph rfl ⟨tr, hrun⟩ hjoin hok hrun' hjoin' (by decide)
  exact hnot ((hagree.1 2).mpr hrebuilt)

end Cob
