import Cob.Executor.Clean
import Cob.Executor.Reproducible

/-!
# A build after cleaning

`clean` removes outputs, and with `-i` those of the compile steps only. The next build makes again
what was removed and everything that depends on it. When nothing was out of date before, it does not
do more than that (`rebuilt_iff_cleaned`).

The module introduces:

* `AfterClean` — the disk after a log of removals;
* `Cleans` — the steps whose outputs are removed;
* `DepfilesApart` — no dependency file that is removed is used by a step.
-/

namespace Cob

open BuildGraph Uring

/-- The disk after cleaning. What an entry of the ring did not remove was removed by a direct call,
whose result nobody looks at. -/
structure AfterClean (log : List Uring.Event) (disk disk' : Disk) : Prop where
  gone : ∀ path data, Attempted log path data → disk'.file path = none
  kept : ∀ path, (∀ e ∈ log, e.path ≠ path) → disk'.file path = disk.file path

/-- The output of the step is removed. -/
def Cleans (ccOnly : Bool) (st : BuildStep) : Prop :=
  ∃ isCompileStep, cleansAsCompile st = some isCompileStep ∧ (ccOnly = true → isCompileStep = true)

instance (ccOnly : Bool) (st : BuildStep) : Decidable (Cleans ccOnly st) :=
  decidable_of_iff (∃ isCompileStep ∈ cleansAsCompile st, ccOnly = true → isCompileStep = true)
    Iff.rfl

/-- The step depends on one whose output is removed. -/
def DownstreamOfCleaned (g : BuildGraph) (ccOnly : Bool) (v : ℕ) : Prop :=
  ∃ u st, g.stepOf u = some st ∧ Cleans ccOnly st ∧ Relation.ReflTransGen g.Edge u v

section CleanBuild

variable (ctx : StepContext)

/-- The dependency files of the compile steps are no outputs, and no step watches them. -/
def DepfilesApart : Prop :=
  ∀ st ∈ ctx.graph.steps, cleansAsCompile st = some true → ∀ st' ∈ ctx.graph.steps,
    st'.output ≠ st.output ++ ascii ".d" ∧ ¬ Watched ctx st' (st.output ++ ascii ".d")

variable {ctx} {cfg : PoolConfig} {disk disk' : Disk} {s : State BuildData Call}
  {k : Kernel} {depth fuel : ℕ} {ccOnly : Bool} {r : Ring} {v : ℕ} {st : BuildStep}

theorem Uring.Attempted.mem {log : List Uring.Event} {path : Bytes} {data : ℕ}
    (h : Attempted log path data) : ∃ e ∈ log, e.path = path := by
  rcases h with ⟨c, hc, hentry, -⟩ | hdirect
  · exact ⟨_, hc, by rw [Event.path, hentry]⟩
  · exact ⟨_, hdirect, rfl⟩

/-- The removed output is gone. -/
theorem AfterClean.file_output (hnul : ∀ st ∈ ctx.graph.steps, 0 ∉ st.output)
    (hclean : clean k depth fuel ccOnly ctx.graph = .ok r)
    (h : AfterClean r.log disk disk') (hst : st ∈ ctx.graph.steps) (hcleans : Cleans ccOnly st) :
    disk'.file st.output = none := by
  obtain ⟨isCompileStep, hcompile, hcc⟩ := hcleans
  obtain ⟨data, hdata⟩ :=
    (mem_cleaned hnul hclean).1 st hst st.output ⟨isCompileStep, hcompile, hcc, .inl rfl⟩
  exact h.gone _ _ hdata

/-- A file that is neither a removed output nor a removed dependency file is as it was. -/
theorem AfterClean.file_eq (hnul : ∀ st ∈ ctx.graph.steps, 0 ∉ st.output)
    (hclean : clean k depth fuel ccOnly ctx.graph = .ok r)
    (h : AfterClean r.log disk disk') {p : Bytes}
    (hout : ∀ st ∈ ctx.graph.steps, Cleans ccOnly st → st.output ≠ p)
    (hdep : ∀ st ∈ ctx.graph.steps, cleansAsCompile st = some true →
      st.output ++ ascii ".d" ≠ p) : disk'.file p = disk.file p := by
  apply h.kept
  rintro e he rfl
  obtain ⟨st, hst, isCompileStep, hcompile, hcc, heq | ⟨rfl, heq⟩⟩ :=
    (mem_cleaned hnul hclean).2 e he
  · exact hout st hst ⟨isCompileStep, hcompile, hcc⟩ heq.symm
  · exact hdep st hst hcompile heq.symm

/-- The name of a response file is not that of a dependency file. -/
theorem rspPath_ne_depfile (st st' : BuildStep) : st'.output ++ ascii ".d" ≠ st.rspPath := by
  intro heq
  have hlast := congrArg List.getLast? heq
  simp [BuildStep.rspPath, Bytes.replaceExtension, ascii] at hlast

/-- No output is a response file that matters to a command. -/
theorem output_ne_rspPath (hg : ctx.graph.WellFormed) (hsep : Separate ctx)
    (hsteady : RspSteady ctx) {st' : BuildStep} (hst : st ∈ ctx.graph.steps)
    (hst' : st' ∈ ctx.graph.steps) (hld : st.tool = ascii "ld") : st'.output ≠ st.rspPath := by
  by_cases hlen : st.parsedInputs.length ≤ rspInputThreshold
  · exact (hsteady st hst hld hlen st' hst').1
  · obtain ⟨v, -, hv, -⟩ := hg.exists_node hst
    obtain ⟨v', -, hv', -⟩ := hg.exists_node hst'
    exact (hsep.rsp_ne_output hg hv hv' hld (not_le.mp hlen)).symm

/-- What is up to date stays so when neither its output nor anything that it watches is removed. -/
theorem UpToDate.afterClean (hg : ctx.graph.WellFormed) (hsep : Separate ctx)
    (hsteady : RspSteady ctx) (hapart : DepfilesApart ctx)
    (hnul : ∀ st ∈ ctx.graph.steps, 0 ∉ st.output)
    (hclean : clean k depth fuel ccOnly ctx.graph = .ok r) (h : AfterClean r.log disk disk')
    (hst : st ∈ ctx.graph.steps) (hup : UpToDate ctx disk st) (hcleans : ¬ Cleans ccOnly st)
    (hwatched : ∀ st' ∈ ctx.graph.steps, Cleans ccOnly st' → ¬ Watched ctx st st'.output) :
    UpToDate ctx disk' st := by
  have hfile : ∀ p, Watched ctx st p → disk'.file p = disk.file p := by
    intro p hp
    apply h.file_eq hnul hclean
    · rintro st' hst' hcleans' rfl
      exact hwatched st' hst' hcleans' hp
    · rintro st' hst' hcompile rfl
      exact (hapart st' hst' hcompile st hst).2 hp
  have hout : disk'.file st.output = disk.file st.output := by
    apply h.file_eq hnul hclean
    · intro st' hst' hcleans' heq
      obtain ⟨v, -, hv, -⟩ := hg.exists_node hst
      obtain ⟨v', -, hv', -⟩ := hg.exists_node hst'
      obtain rfl := stepOf_inj hg hv' hv heq
      exact hcleans hcleans'
    · exact fun st' hst' hcompile heq => (hapart st' hst' hcompile st hst).1 heq.symm
  -- the response file is still there, so the command is the same
  have hcommand : ctx.commandOn disk' st = ctx.commandOn disk st := by
    by_cases hld : st.tool = ascii "ld"
    · have hrsp : disk'.file st.rspPath = disk.file st.rspPath := by
        apply h.file_eq hnul hclean
        · exact fun st' hst' _ => output_ne_rspPath hg hsep hsteady hst hst' hld
        · exact fun st' _ _ => rspPath_ne_depfile st st'
      have husable : (BuildData.start ctx disk').usableRsp ctx st =
          (BuildData.start ctx disk).usableRsp ctx st :=
        usableRsp_congr hrsp (hfile _ (.inr rfl))
      rw [StepContext.commandOn, StepContext.commandOn, husable]
    · simp only [StepContext.commandOn, commandOf, buildCommandArgs, hld, if_false]
  obtain ⟨hhash, t, ht, hold⟩ := hup
  refine ⟨by rw [hcommand, hhash], t, by rw [← ht, Disk.mtime, Disk.mtime, hout], fun p hp => ?_⟩
  obtain ⟨t', ht', hlt⟩ := hold p hp
  exact ⟨t', by rw [← ht', Disk.mtime, Disk.mtime, hfile p hp], hlt⟩

/-- What is downstream of a removed output is downstream of a step that is out of date. -/
theorem downstream_of_cleaned (hnul : ∀ st ∈ ctx.graph.steps, 0 ∉ st.output)
    (hclean : clean k depth fuel ccOnly ctx.graph = .ok r)
    (h : AfterClean r.log disk disk') (hv : DownstreamOfCleaned ctx.graph ccOnly v) :
    Downstream ctx disk' v := by
  obtain ⟨u, st, hst, hcleans, hpath⟩ := hv
  refine ⟨u, ⟨st, hst, ?_⟩, hpath⟩
  rintro ⟨-, t, ht, -⟩
  rw [Disk.mtime, h.file_output hnul hclean (mem_steps_of_stepOf hst) hcleans] at ht
  cases ht

/-- When nothing was out of date before, only that is. -/
theorem cleaned_of_downstream (hg : ctx.graph.WellFormed) (hsep : Separate ctx)
    (hsteady : RspSteady ctx) (hapart : DepfilesApart ctx)
    (hnul : ∀ st ∈ ctx.graph.steps, 0 ∉ st.output)
    (hclean : clean k depth fuel ccOnly ctx.graph = .ok r) (h : AfterClean r.log disk disk')
    (hup : ∀ v, ¬ Outdated ctx disk v) (hv : Downstream ctx disk' v) :
    DownstreamOfCleaned ctx.graph ccOnly v := by
  obtain ⟨u, ⟨st, hst, hout⟩, hpath⟩ := hv
  by_cases hcleans : Cleans ccOnly st
  · exact ⟨u, st, hst, hcleans, hpath⟩
  · -- something that the step watches was removed
    have huptodate : UpToDate ctx disk st := by
      by_contra hno
      exact hup u ⟨st, hst, hno⟩
    obtain ⟨st', hst', hcleans', hwatched⟩ : ∃ st' ∈ ctx.graph.steps, Cleans ccOnly st' ∧
        Watched ctx st st'.output := by
      by_contra hnone
      have hmem := mem_steps_of_stepOf hst
      refine hout (huptodate.afterClean hg hsep hsteady hapart hnul hclean h hmem
        hcleans fun st' hst' hcleans' hwatched => hnone ⟨st', hst', hcleans', hwatched⟩)
    rcases hwatched with hmem | heq
    · obtain ⟨w, hw, hedge⟩ := hg.exists_edge hst hmem
      obtain ⟨w', k', hstep, -⟩ := hg.exists_node hst'
      obtain ⟨st₁, hst₁, hpath'⟩ := hg.exists_stepOf (isStep_of_stepOf hstep)
      obtain rfl : st' = st₁ := Option.some.inj (hstep.symm.trans hst₁)
      obtain rfl := hg.pathOf_inj hw hpath'
      exact ⟨w, st', hstep, hcleans', .head hedge hpath⟩
    · exact absurd heq (hsep.output_ne st' hst')

/-- A successful build after `clean` runs every step whose output was removed and everything
downstream of it; when nothing was out of date before, it runs nothing else. -/
theorem rebuilt_iff_cleaned (hg : ctx.graph.Built) (hacyclic : ctx.graph.Acyclic)
    (hsep : Separate ctx) (hsteady : RspSteady ctx) (hdry : ctx.dryRun = false)
    (hnul : ∀ st ∈ ctx.graph.steps, 0 ∉ st.output)
    (hclean : clean k depth fuel ccOnly ctx.graph = .ok r) (h : AfterClean r.log disk disk')
    (hreach : (poolMachine (processStep ctx) cfg ctx.graph (.start ctx disk')).Reachable s)
    (hjoin : s.Joined cfg) (hok : s.executeResult ctx.graph = .ok ()) :
    (∀ v, DownstreamOfCleaned ctx.graph ccOnly v → Rebuilt ctx s.data v) ∧
    ((∀ v, ¬ Outdated ctx disk v) → DepfilesApart ctx →
      ∀ v, Rebuilt ctx s.data v → DownstreamOfCleaned ctx.graph ccOnly v) := by
  have hrebuilt : ∀ v, Rebuilt ctx s.data v ↔ Downstream ctx disk' v :=
    fun v => rebuilt_iff_downstream_of_ok hg.wellFormed hacyclic hsep hsteady hdry hreach hjoin hok
  refine ⟨fun v hv => ?_, fun hup hapart v hv => ?_⟩
  · exact (hrebuilt v).mpr (downstream_of_cleaned hnul hclean h hv)
  · have hdown := (hrebuilt v).mp hv
    exact cleaned_of_downstream hg.wellFormed hsep hsteady hapart hnul hclean h hup hdown

end CleanBuild

/-- Compiling `x.o` and linking `app`, with the hashes of their commands. -/
def objectSteps : List BuildStep :=
  [{ tool := ascii "cc", inputs := ascii "x.c", output := ascii "x.o",
     commandHash := hashCommand twiceContext.rapidHash
       [ascii "-MMD", ascii "-MT", ascii "x.o", ascii "-MF", ascii "x.o.d", ascii "-c",
         ascii "x.c", ascii "-o", ascii "x.o"] },
   { tool := ascii "ld", inputs := ascii "x.o", output := ascii "app",
     commandHash := hashCommand twiceContext.rapidHash
       [ascii "ld", ascii "x.o", ascii "-o", ascii "app"] }]

/-- The graph of `objectSteps`. -/
def objectGraph : BuildGraph :=
  ((BuildGraph.empty.addSteps (fun _ => none) objectSteps).toOption).getD .empty

theorem built_objectGraph : objectGraph.Built :=
  Built.empty.addSteps objectSteps (by decide +kernel)
    (show BuildGraph.empty.addSteps (fun _ => none) objectSteps = .ok objectGraph by
      decide +kernel)

theorem acyclic_objectGraph : objectGraph.Acyclic :=
  acyclic_of_rank (fun v => [1, 0, 2].getD v 0) (by decide +kernel)

/-- What the workers read. -/
def objectContext : StepContext := { twiceContext with graph := objectGraph }

theorem separate_objectContext : Separate objectContext where
  output_ne := by decide +kernel
  rsp_ne := by decide +kernel

theorem rspSteady_objectContext : RspSteady objectContext := by
  unfold RspSteady
  decide +kernel

/-- Everything was built. -/
def objectDisk : Disk :=
  ⟨[(ascii "catalyst.build", ⟨1, .unknown⟩), (ascii "x.c", ⟨2, .unknown⟩),
    (ascii "x.o", ⟨3, .unknown⟩), (ascii "x.o.d", ⟨3, .unknown⟩), (ascii "app", ⟨4, .unknown⟩)]⟩

/-- A kernel that does all that it is asked to do. -/
def willingKernel : Kernel where
  queueInit := 0
  submit _ := 64
  wait _ := 1
  next _ := 0
  res _ := 0

/-- `clean -i` removes `x.o` and its dependency file; the build compiles and links. -/
theorem rebuilt_iff_cleaned_object : ∃ s,
    (poolMachine (processStep objectContext) ⟨1, false⟩ objectGraph
      (.start objectContext ((objectDisk.remove (ascii "x.o")).remove (ascii "x.o.d")))).Reachable
        s ∧ Rebuilt objectContext s.data 2 := by
  have hlogged : (clean willingKernel 4 10 true objectGraph).toOption.map
      (fun r => r.log.map Uring.Event.path) =
        some [ascii "x.o", ascii "x.o.d", ascii "x.o", ascii "x.o.d"] := by decide +kernel
  obtain ⟨r, hr, hlog⟩ := Option.map_eq_some_iff.mp hlogged
  have hclean : clean willingKernel 4 10 true objectGraph = .ok r := by
    cases h : clean willingKernel 4 10 true objectGraph with
    | error e => simp [h, Except.toOption] at hr
    | ok r' => simpa [h, Except.toOption] using hr
  have hpaths : ∀ path, (∃ e ∈ r.log, e.path = path) ↔
      path = ascii "x.o" ∨ path = ascii "x.o.d" := by
    intro path
    rw [← List.mem_map, hlog]
    simp
    tauto
  have hafter : AfterClean r.log objectDisk
      ((objectDisk.remove (ascii "x.o")).remove (ascii "x.o.d")) := by
    constructor
    · intro path data hattempted
      rcases (hpaths path).mp hattempted.mem with rfl | rfl
      · decide
      · decide
    · intro path hnone
      have hnot : ¬ ∃ e ∈ r.log, e.path = path := by simpa using hnone
      rw [hpaths, not_or] at hnot
      rw [Disk.file_remove_of_ne hnot.2, Disk.file_remove_of_ne hnot.1]
  -- one worker compiles at time 10 and links at time 20
  obtain ⟨tr, s, hrun, hs⟩ := Machine.exists_run_of_exec
    (M := poolMachine (processStep objectContext) ⟨1, false⟩ objectGraph
      (.start objectContext ((objectDisk.remove (ascii "x.o")).remove (ascii "x.o.d"))))
    (s := initialState objectGraph [0]
      (.start objectContext ((objectDisk.remove (ascii "x.o")).remove (ascii "x.o.d"))))
    ⟨[0], by decide +kernel, rfl⟩
    (.spawn :: List.replicate 16 (.work 0 ⟨some 0, 10⟩) ++
      List.replicate 23 (.work 0 ⟨some 0, 20⟩))
    (fun r => r.2.Joined ⟨1, false⟩ ∧ r.2.executeResult objectGraph = .ok ()) (by decide +kernel)
  obtain ⟨hjoin, hok⟩ := of_decide_eq_true hs
  obtain ⟨st, hst, hcleans⟩ : ∃ st, objectGraph.stepOf 0 = some st ∧ Cleans true st := by
    have h : ∃ st ∈ objectGraph.stepOf 0, Cleans true st := by decide +kernel
    exact h
  exact ⟨s, ⟨tr, hrun⟩, (rebuilt_iff_cleaned built_objectGraph acyclic_objectGraph
    separate_objectContext rspSteady_objectContext rfl (by decide +kernel) hclean hafter
    ⟨tr, hrun⟩ hjoin hok).1 2
      ⟨0, st, hst, hcleans, .single (edge_iff.mpr (by decide +kernel))⟩⟩

end Cob
