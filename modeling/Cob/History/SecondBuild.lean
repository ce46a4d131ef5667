import Cob.Executor.Interference
import Cob.History.Commands

/-!
# A second build

After a successful build, every output is newer than what its step watches, and the hash of its
command is in the cache. When nobody touches the files, the next run with the same build file and
overrides loads these hashes and computes the same commands, so it has nothing to do
(`idle_of_build`). Two things are in the way. A compiler that rewrites a mapped dependency file in
place changes paths that `execute` writes to the cache after it (`not_idle_of_build`). And a
response file that is an input of another step may be written after that step was built
(`not_idle_of_rspInput`).

The module introduces:

* `StepContext.next` — what the workers of the next run read;
* `World.alone`, `RunsTo` — the moves of one run whose files nobody touches, and what it reaches;
* `RunsIntact` — the same, when the mapped files show what was parsed;
* `Build`, `Build.Intact` — a successful build, from the launch to the end;
* `Repeatable` — what is asked of the steps;
* `Progress` — where an undisturbed run is, seen from its launch.
-/

namespace Cob

open BuildGraph

/-- What the workers of the next run read, when it loads the hashes of a build. -/
def StepContext.next (ctx : StepContext) (d : BuildData) (dryRun : Bool) : StepContext :=
  { ctx with graph := ctx.graph.setHashes d.commandHash, dryRun := dryRun }

/-- What is asked of the steps of a graph: the tools are supported, no step writes the manifest or
a response file, and different link steps have different response files. -/
structure Repeatable (g : BuildGraph) (buildFile : Bytes) : Prop where
  supported : ∀ st ∈ g.steps, (toolKindFromString st.tool).isSome
  output_ne : ∀ st ∈ g.steps, st.output ≠ buildFile
  not_rsp : ∀ st ∈ g.steps, st.output.endsWith (ascii ".rsp") = false
  rsp_inj : ∀ st ∈ g.steps, ∀ st' ∈ g.steps, st.tool = ascii "ld" → st'.tool = ascii "ld" →
    st.rspPath = st'.rspPath → st.output = st'.output

/-- No response file that the build writes is a file of the graph or the manifest. -/
def RspApart (g : BuildGraph) (buildFile : Bytes) : Prop :=
  ∀ st ∈ g.steps, st.tool = ascii "ld" → rspInputThreshold < st.parsedInputs.length →
    st.rspPath ≠ buildFile ∧ g.findNode st.rspPath = none

/-- The manifest and the sources exist. -/
def SourcesExist (g : BuildGraph) (buildFile : Bytes) (disk : Disk) : Prop :=
  (disk.file buildFile).isSome ∧
    ∀ v p, g.pathOf v = some p → g.isStep v = false → (disk.file p).isSome

instance (g : BuildGraph) (buildFile : Bytes) : Decidable (Repeatable g buildFile) :=
  decidable_of_iff
    ((∀ st ∈ g.steps, (toolKindFromString st.tool).isSome) ∧
      (∀ st ∈ g.steps, st.output ≠ buildFile) ∧
      (∀ st ∈ g.steps, st.output.endsWith (ascii ".rsp") = false) ∧
      ∀ st ∈ g.steps, ∀ st' ∈ g.steps, st.tool = ascii "ld" → st'.tool = ascii "ld" →
        st.rspPath = st'.rspPath → st.output = st'.output)
    ⟨fun ⟨hsupported, hne, hnot, hinj⟩ => ⟨hsupported, hne, hnot, hinj⟩,
      fun h => ⟨h.supported, h.output_ne, h.not_rsp, h.rsp_inj⟩⟩

instance (g : BuildGraph) (buildFile : Bytes) : Decidable (RspApart g buildFile) :=
  inferInstanceAs (Decidable (∀ st ∈ g.steps, _))

instance (g : BuildGraph) (buildFile : Bytes) (disk : Disk) :
    Decidable (SourcesExist g buildFile disk) :=
  decidable_of_iff
    ((disk.file buildFile).isSome ∧ ∀ v < g.nodes.length, ∀ p ∈ g.pathOf v,
      g.isStep v = false → (disk.file p).isSome)
    (and_congr_right fun _ => forall_congr' fun v =>
      ⟨fun h p hp => h (by
          obtain ⟨n, hn, -⟩ := Option.map_eq_some_iff.mp hp
          exact (List.getElem?_eq_some_iff.mp hn).1) p hp, fun h _ p hp => h p hp⟩)

namespace World

/-- The environment may change the file: workers are running, and no call looks at it. -/
def mayChange (w : World) (path : Bytes) : Bool :=
  match w.phase with
  | .executing run b _ _ => !Involved b.graph run.request.buildFile path
  | _ => false

theorem executing_of_mayChange {w : World} {path : Bytes} (h : w.mayChange path = true) :
    ∃ run b origin s, w.phase = .executing run b origin s ∧
      Involved b.graph run.request.buildFile path = false := by
  cases hp : w.phase with
  | executing run b origin s => exact ⟨run, b, origin, s, rfl, by simpa [mayChange, hp] using h⟩
  | _ => simp [mayChange, hp] at h

/-- One run goes on, and its files are left alone; the cache is written, at a time after everything
that exists. -/
def alone (w : World) (a : Act) : Bool :=
  match a with
  | .write path _ => w.mayChange path
  | .overwrite path _ => w.mayChange path
  | .remove path => w.mayChange path
  | .check => true
  | .read => true
  | .emit io => io.any w.disk.olderThan
  | .execute _ => true
  | .work _ => true
  | .finish io => io.any w.disk.olderThan
  | .stop => true
  | _ => false

/-- No tool has run in the build in progress, and no call is on its way to run one. -/
def RunsNothing (w : World) : Prop :=
  ∀ run b origin s, w.phase = .executing run b origin s →
    s.data.ran = [] ∧ ∀ v call, .process v call ∈ s.workers → call.rebuilding = false

end World

/-- The histories that go on from a world. -/
def resume (rapidHash : Bytes → UInt64 → UInt64) (w₀ : World) : Machine World Act where
  init w := w = w₀
  step := World.step rapidHash

/-- The states of a run that is launched in a world and goes on with moves of `G`. -/
def RunsVia (rapidHash : Bytes → UInt64 → UInt64) (G : World → Act → Prop) (request : Request)
    (before w : World) : Prop :=
  ∃ launched, before.step rapidHash (.launch request) = some launched ∧
    (resume rapidHash launched).ReachableVia G w

/-- The states of a run that is launched in a world and goes on alone. -/
def RunsTo (rapidHash : Bytes → UInt64 → UInt64) (request : Request) (before w : World) : Prop :=
  RunsVia rapidHash (fun w a => w.alone a = true) request before w

/-- The states of such a run when its mapped files show, in each state, the paths that it parsed. -/
def RunsIntact (rapidHash : Bytes → UInt64 → UInt64) (request : Request) (before w : World) :
    Prop :=
  RunsVia rapidHash (fun w a => w.alone a = true ∧ w.Intact) request before w ∧ w.Intact

/-- A successful build whose files nobody else touches, from the launch to the end. -/
structure Build (rapidHash : Bytes → UInt64 → UInt64) (request : Request) (before after : World)
    where
  /-- the disk at the launch -/
  launch : Disk
  builder : COBBuilder
  origin : Origin
  pool : State BuildData Call
  /-- the world in which the workers have joined -/
  last : World
  io : Option FileTime
  runs : RunsTo rapidHash request before last
  executing : last.phase = .executing ⟨request, launch⟩ builder origin pool
  ok : pool.executeResult builder.graph = .ok ()
  alone : last.alone (.finish io) = true
  finish : last.step rapidHash (.finish io) = some after

/-- The mapped files show, from the launch to the end of the build, the paths that it parsed. -/
def Build.Intact {rapidHash : Bytes → UInt64 → UInt64} {request : Request} {before after : World}
    (build : Build rapidHash request before after) : Prop :=
  RunsIntact rapidHash request before build.last

/-- `parse` would load the builder from the cache. -/
def Stores (disk : Disk) (cache : Option Cache) (buildFile : Bytes) (b : COBBuilder) : Prop :=
  ∃ c t, cache = some c ∧ disk.mtime buildFile = some t ∧ t < c.mtime ∧ c.builder = b

/-- What a run has loaded is what the cache held when it was launched, if that was usable, and it
is in the cache now. -/
def Loaded (before w : World) (buildFile : Bytes) (b : COBBuilder) : Prop :=
  (∀ b', Stores before.disk before.cache buildFile b' → b = b') ∧
    ((∀ st ∈ b.graph.steps, (toolKindFromString st.tool).isSome) →
      Stores before.disk w.cache buildFile b)

/-- Where a run is that was launched in the world `before` and goes on alone. -/
def Progress (rapidHash : Bytes → UInt64 → UInt64) (request : Request) (before w : World) :
    Phase → Prop
  | .idle => True
  | .checking run => run.request = request ∧ w.disk = before.disk ∧ w.cache = before.cache
  | .reading run => run.request = request ∧ w.disk = before.disk ∧
      before.usableCache request.buildFile = none
  | .emitting run _ _ => run.request = request ∧ w.disk = before.disk ∧
      before.usableCache request.buildFile = none ∧ (before.disk.file request.buildFile).isSome
  | .parsed run b _ => run.request = request ∧ w.disk = before.disk ∧
      Loaded before w request.buildFile b
  | .executing run b _ s => run.request = request ∧
      (∃ b₀, b = b₀.override request.overrides ∧ Loaded before w request.buildFile b₀) ∧
      (poolMachine (processStep (stepContext rapidHash run b)) request.pool b.graph
        (.start (stepContext rapidHash run b)
          (before.disk.restrict (Involved b.graph request.buildFile)))).Reachable
        (s.seen b.graph request.buildFile w.disk)

section Next

variable {ctx : StepContext} {cfg : PoolConfig} {disk₀ : Disk} {s : State BuildData Call}
  {d : BuildData} {dryRun : Bool}

theorem Repeatable.separate (h : Repeatable ctx.graph ctx.buildFile)
    (hrsp : RspApart ctx.graph ctx.buildFile) : Separate ctx :=
  ⟨h.output_ne, hrsp⟩

/-- The name of a response file says that it is one. -/
theorem endsWith_rspPath (st : BuildStep) : st.rspPath.endsWith (ascii ".rsp") = true := by
  simp [BuildStep.rspPath, Bytes.replaceExtension, Bytes.endsWith, List.isSuffixOf_iff_suffix]

/-- Steps with the same output are the same step. -/
theorem eq_of_output_eq {g : BuildGraph} (hg : g.WellFormed) {st st' : BuildStep}
    (hst : st ∈ g.steps) (hst' : st' ∈ g.steps) (heq : st.output = st'.output) : st = st' := by
  obtain ⟨k, hk⟩ := List.mem_iff_getElem?.mp hst
  obtain ⟨k', hk'⟩ := List.mem_iff_getElem?.mp hst'
  obtain ⟨v, hv⟩ := hg.node_of_step k st hk
  obtain ⟨v', hv'⟩ := hg.node_of_step k' st' hk'
  obtain ⟨st₁, hst₁, hpath⟩ := hg.step_of_node v k hv
  obtain ⟨st₂, hst₂, hpath'⟩ := hg.step_of_node v' k' hv'
  obtain rfl : st = st₁ := Option.some.inj (hk.symm.trans hst₁)
  obtain rfl : st' = st₂ := Option.some.inj (hk'.symm.trans hst₂)
  obtain rfl := hg.pathOf_inj hpath (heq ▸ hpath')
  obtain rfl : k = k' := Option.some.inj (hv.symm.trans hv')
  exact Option.some.inj (hk.symm.trans hk')

theorem Repeatable.rspSteady (hg : ctx.graph.WellFormed)
    (h : Repeatable ctx.graph ctx.buildFile) : RspSteady ctx := by
  intro st hst hld hlen st' hst'
  refine ⟨fun heq => ?_, fun hld' hlen' heq => ?_⟩
  · have hnot := h.not_rsp st' hst'
    rw [heq, endsWith_rspPath] at hnot
    simp at hnot
  · -- the same step cannot have few inputs and many
    obtain rfl := eq_of_output_eq hg hst' hst (h.rsp_inj st' hst' st hst hld' hld heq)
    omega

/-- The steps with the hashes of a build are the steps, hashes aside. -/
theorem mem_setHashes {g : BuildGraph} {commandHash : ℕ → UInt64} {st' : BuildStep}
    (h : st' ∈ (g.setHashes commandHash).steps) :
    ∃ st ∈ g.steps, ∃ k, st' = { st with commandHash := commandHash k } := by
  obtain ⟨k, hk⟩ := List.mem_iff_getElem?.mp h
  simp only [BuildGraph.setHashes, List.getElem?_mapIdx] at hk
  obtain ⟨st, hst, rfl⟩ := Option.map_eq_some_iff.mp hk
  exact ⟨st, List.mem_of_getElem? hst, k, rfl⟩

theorem Repeatable.setHashes {g : BuildGraph} {buildFile : Bytes} (h : Repeatable g buildFile)
    (commandHash : ℕ → UInt64) : Repeatable (g.setHashes commandHash) buildFile where
  supported st' hst' := by
    obtain ⟨st, hst, k, rfl⟩ := mem_setHashes hst'
    exact h.supported st hst
  output_ne st' hst' := by
    obtain ⟨st, hst, k, rfl⟩ := mem_setHashes hst'
    exact h.output_ne st hst
  not_rsp st' hst' := by
    obtain ⟨st, hst, k, rfl⟩ := mem_setHashes hst'
    exact h.not_rsp st hst
  rsp_inj st₁ hst₁ st₂ hst₂ := by
    obtain ⟨st, hst, k, rfl⟩ := mem_setHashes hst₁
    obtain ⟨st', hst', k', rfl⟩ := mem_setHashes hst₂
    exact h.rsp_inj st hst st' hst'

theorem RspApart.setHashes {g : BuildGraph} {buildFile : Bytes} (h : RspApart g buildFile)
    (commandHash : ℕ → UInt64) : RspApart (g.setHashes commandHash) buildFile := by
  intro st' hst'
  obtain ⟨st, hst, k, rfl⟩ := mem_setHashes hst'
  exact h st hst

/-- The steps of the next run are those of the graph, with the hashes of the build. -/
theorem stepOf_next {v : ℕ} {st' : BuildStep}
    (hst' : (ctx.next d dryRun).graph.stepOf v = some st') :
    ∃ st k, ctx.graph.stepOf v = some st ∧ ctx.graph.stepIdOf v = some k ∧
      st' = { st with commandHash := d.commandHash k } := by
  have hnode : (ctx.next d dryRun).graph.stepIdOf v = ctx.graph.stepIdOf v := rfl
  rw [stepOf_eq, hnode] at hst'
  obtain ⟨k, hk, hst'⟩ := Option.bind_eq_some_iff.mp hst'
  simp only [StepContext.next, BuildGraph.setHashes, List.getElem?_mapIdx] at hst'
  obtain ⟨st, hst, rfl⟩ := Option.map_eq_some_iff.mp hst'
  exact ⟨st, k, by rw [stepOf_eq, hk]; exact hst, hk, rfl⟩

/-- A step has the same command in the next run. -/
theorem commandOn_next (st : BuildStep) (hash : UInt64) :
    (ctx.next d dryRun).commandOn s.data.disk { st with commandHash := hash } =
      commandOf ctx st (s.data.usableRsp ctx st) := rfl

/-- After a successful build every step is up to date for the next run. -/
theorem not_outdated_of_ok (hg : ctx.graph.WellFormed) (hsep : Separate ctx)
    (hsteady : RspSteady ctx) (hdry : ctx.dryRun = false)
    (h : (poolMachine (processStep ctx) cfg ctx.graph (.start ctx disk₀)).Reachable s)
    (hjoin : s.Joined cfg) (hok : s.executeResult ctx.graph = .ok ())
    (hexist : SourcesExist ctx.graph ctx.buildFile s.data.disk) (v : ℕ) :
    ¬ Outdated (ctx.next s.data dryRun) s.data.disk v := by
  have hdemand := demand hg hsep hsteady h
  have hfresh : ∀ u st, ctx.graph.stepOf u = some st → Fresh ctx s.data.disk st := by
    intro u st hst
    have hsucc := succeeded_of_ok hg.linked h hjoin hok (isStep_of_stepOf hst)
    exact (sound hg hsep hdry h).fresh u st hst hsucc
  rintro ⟨st', hst', hout⟩
  obtain ⟨st, k, hst, hk, rfl⟩ := stepOf_next hst'
  have hsucc := succeeded_of_ok hg.linked h hjoin hok (isStep_of_stepOf hst)
  have hhash := ((hdemand.after v hsucc).2 hdry).2 k st hst hk
  obtain ⟨t, ht, hold⟩ := hfresh v st hst
  apply hout
  refine ⟨?_, t, ht, fun p hp => ?_⟩
  · rw [commandOn_next, hdemand.data.commandOf_eq hsep hsteady hst]
    exact hhash
  · -- what is watched exists, and then it is older
    have hthere : (s.data.disk.file p).isSome := by
      rcases hp with hp | rfl
      · obtain ⟨u, hu, -⟩ := hg.exists_edge hst hp
        by_cases hstep : ctx.graph.isStep u = true
        · obtain ⟨st', hst', hpath⟩ := hg.exists_stepOf hstep
          obtain rfl : p = st'.output := Option.some.inj (hu.symm.trans hpath)
          obtain ⟨t', ht', -⟩ := hfresh u st' hst'
          obtain ⟨f, hf, -⟩ := Option.map_eq_some_iff.mp ht'
          simp [hf]
        · exact hexist.2 u p hu (by simpa using hstep)
      · exact hexist.1
    obtain ⟨f, hf⟩ := Option.isSome_iff_exists.mp hthere
    have hf' : s.data.disk.mtime p = some f.mtime := by simp [Disk.mtime, hf]
    exact ⟨f.mtime, hf', hold p hp _ hf'⟩

/-- When no hash has changed, they are those of the graph. -/
theorem commandHash_of_not_changed (hg : ctx.graph.WellFormed)
    (h : (poolMachine (processStep ctx) cfg ctx.graph (.start ctx disk₀)).Reachable s)
    (hno : s.data.hashesChanged = false) :
    s.data.commandHash = (BuildData.start ctx disk₀).commandHash := by
  let I : CallInvariant :=
    ⟨fun d => d.hashesChanged = false → d.commandHash = (BuildData.start ctx disk₀).commandHash,
      fun _ _ => True, fun _ _ _ => True, fun _ _ => True⟩
  suffices hI : I.Holds ctx.graph s from hI.data hno
  refine I.holds hg ⟨fun _ => rfl, fun _ => trivial⟩ (fun _ _ _ _ => trivial) ?_
    (fun _ _ _ _ _ _ _ _ _ _ _ _ => ⟨fun _ _ => trivial, fun _ _ _ => trivial,
      fun _ _ => trivial⟩) h
  intro s v k st call d' r hs hI
  refine ⟨fun hno' => ?_, fun _ _ => trivial, fun _ => trivial⟩
  have hdata := hI.data
  cases hs.advance with
  | @commit hash =>
    obtain ⟨hold, hsame⟩ : s.data.hashesChanged = false ∧ s.data.commandHash k = hash := by
      simpa [BuildData.setHash] using hno'
    simp [BuildData.setHash, ← hsame, hdata hold]
  | _ => simpa [BuildData.exited] using hdata (by simpa [BuildData.exited] using hno')

end Next

section Run

variable {rapidHash : Bytes → UInt64 → UInt64} {request : Request} {before w : World}

theorem stores_iff {buildFile : Bytes} {b : COBBuilder} :
    Stores w.disk w.cache buildFile b ↔
      ∃ c, w.usableCache buildFile = some c ∧ c.builder = b := by
  constructor
  · rintro ⟨c, t, hc, ht, hlt, hb⟩
    exact ⟨c, by simp [World.usableCache, hc, ht, hlt], hb⟩
  · rintro ⟨c, hc, hb⟩
    obtain ⟨hcache, f, hf, hlt⟩ := usableCache_eq hc
    exact ⟨c, f.mtime, hcache, by simp [Disk.mtime, hf], hlt, hb⟩

theorem Stores.unique {disk : Disk} {cache : Option Cache} {buildFile : Bytes}
    {b b' : COBBuilder} (h : Stores disk cache buildFile b)
    (h' : Stores disk cache buildFile b') : b = b' := by
  obtain ⟨c, t, hc, -, -, rfl⟩ := h
  obtain ⟨c', t', hc', -, -, rfl⟩ := h'
  obtain rfl := Option.some.inj (hc.symm.trans hc')
  rfl

/-- What a run reaches after the launch belongs to a history. -/
theorem reachable_resume {G H : World → Act → Prop} (hGH : ∀ w a, G w a → H w a)
    (hr : (world rapidHash).ReachableVia H before)
    (h : (resume rapidHash before).ReachableVia G w) : (world rapidHash).ReachableVia H w := by
  refine Machine.ReachableVia.invariant (I := (world rapidHash).ReachableVia H) ?_ ?_ h
  · rintro w rfl
    exact hr
  · intro w a w' _ hw hG hstep
    exact hw.step (hGH w a hG) hstep

/-- An intact run belongs to a history in which caches are written by intact runs. -/
theorem RunsIntact.reachable (h : RunsIntact rapidHash request before w)
    (hr : (world rapidHash).ReachableVia EmitsIntact before) :
    (world rapidHash).ReachableVia EmitsIntact w := by
  obtain ⟨⟨launched, hlaunch, hvia⟩, -⟩ := h
  refine reachable_resume (fun w a hG _ => hG.2) (hr.step ?_ hlaunch) hvia
  simp [EmitsIntact, Act.emits]

/-- The run is the one that was launched. -/
theorem RunsTo.request_eq (h : RunsTo rapidHash request before w) {run : Run}
    (hrun : w.phase.run = some run) : run.request = request := by
  obtain ⟨launched, hlaunch, h⟩ := h
  refine Machine.ReachableVia.invariant
    (I := fun w => ∀ run, w.phase.run = some run → run.request = request) ?_ ?_ h run hrun
  · rintro w rfl run hrun
    cases worldStep_cases hlaunch with
    | launch =>
      obtain rfl := Option.some.inj hrun
      rfl
  · intro w a w' _ hI halone hstep run hrun
    cases worldStep_cases hstep with
    | launch => simp [World.alone] at halone
    | write => exact hI run hrun
    | overwrite => exact hI run hrun
    | remove => exact hI run hrun
    | removeCache => exact hI run hrun
    | readFailed => simp [Phase.run] at hrun
    | rewrite => simp [Phase.run] at hrun
    | finish => simp [Phase.run] at hrun
    | stop => simp [Phase.run] at hrun
    | useCache hp => exact hI run (by rw [hp]; exact hrun)
    | rejectCache hp => exact hI run (by rw [hp]; exact hrun)
    | read hp => exact hI run (by rw [hp]; exact hrun)
    | emit hp => exact hI run (by rw [hp]; exact hrun)
    | execute hp => exact hI run (by rw [hp]; exact hrun)
    | work hp => exact hI run (by rw [hp]; exact hrun)

/-- A run that starts from the cache maps no file. -/
theorem RunsTo.intact_of_stores {b : COBBuilder} (h : RunsTo rapidHash request before w)
    (hstores : Stores before.disk before.cache request.buildFile b) :
    RunsIntact rapidHash request before w := by
  obtain ⟨c, hc, -⟩ := stores_iff.mp hstores
  obtain ⟨launched, hlaunch, h⟩ := h
  have hnone : ∀ {w : World}, w.mapped = [] → w.Intact := by
    intro w hw m hm
    simp [hw] at hm
  -- a usable cache at the launch: the run goes from `checking` to `parsed` and reads no text
  refine (Machine.ReachableVia.invariant (I := fun w =>
    (RunsVia rapidHash (fun w a => w.alone a = true ∧ w.Intact) request before w) ∧
      w.mapped = [] ∧ (∀ run, w.phase = .checking run → run.request = request ∧
        w.disk = before.disk ∧ w.cache = before.cache) ∧ ∀ run, w.phase ≠ .reading run)
    ?_ ?_ h).imp id fun hI => hnone hI.1
  · rintro w rfl
    refine ⟨⟨w, hlaunch, .init rfl⟩, ?_⟩
    cases worldStep_cases hlaunch with
    | launch => exact ⟨rfl, by rintro run ⟨rfl⟩; exact ⟨rfl, rfl, rfl⟩, by simp⟩
  · rintro w a w' _ ⟨⟨launched, hlaunch, hvia⟩, hmapped, hchecking, hreading⟩ halone hstep
    refine ⟨⟨launched, hlaunch, hvia.step ⟨halone, hnone hmapped⟩ hstep⟩, ?_⟩
    cases worldStep_cases hstep with
    | write =>
      obtain ⟨_, _, _, _, hp, -⟩ := World.executing_of_mayChange halone
      simp [hmapped, hp]
    | overwrite =>
      obtain ⟨_, _, _, _, hp, -⟩ := World.executing_of_mayChange halone
      simp [hmapped, hp]
    | remove =>
      obtain ⟨_, _, _, _, hp, -⟩ := World.executing_of_mayChange halone
      simp [hmapped, hp]
    | removeCache => simp [World.alone] at halone
    | launch => simp [World.alone] at halone
    -- the launch had a usable cache, and it is still there
    | rejectCache hp hreject =>
      obtain ⟨hrequest, hdisk, hcache⟩ := hchecking _ hp
      rw [hrequest, World.usableCache, hdisk, hcache] at hreject
      rw [World.usableCache, hreject] at hc
      cases hc
    | readFailed hp => exact absurd hp (hreading _)
    | read hp => exact absurd hp (hreading _)
    | work => simp [hmapped, World.remapped]
    | _ => simp [hmapped]

/-- A cache that is written at a time after everything is loaded by the next run. -/
theorem stores_emitted {b : COBBuilder} {origin : Origin} {io : Option FileTime}
    {buildFile : Bytes} (h : Describes origin b)
    (hsupported : ∀ st ∈ b.graph.steps, (toolKindFromString st.tool).isSome)
    (hnewer : io.any w.disk.olderThan = true) (hfile : (w.disk.file buildFile).isSome) :
    Stores w.disk (w.emitted b origin io) buildFile b := by
  obtain ⟨image, himage⟩ := exists_emitBin hsupported
  obtain ⟨t, rfl, hold⟩ := (Option.any_eq_true _ _).mp hnewer
  obtain ⟨f, hf⟩ := Option.isSome_iff_exists.mp hfile
  refine ⟨⟨t, image, origin⟩, f.mtime, ?_, ?_, ?_, h.parseBin himage⟩
  · simp [World.emitted, himage]
  · simp [Disk.mtime, hf]
  · exact Disk.olderThan_iff.mp hold _ f hf

/-- What the environment changes while workers run is not seen by them. -/
theorem Progress.change {path : Bytes} {w' : World}
    (hI : Progress rapidHash request before w w.phase) (hmay : w.mayChange path = true)
    (hphase : w'.phase = w.phase) (hcache : w'.cache = w.cache)
    (hseen : ∀ {g : BuildGraph} {buildFile : Bytes} {s : State BuildData Call},
      Involved g buildFile path = false → s.seen g buildFile w'.disk = s.seen g buildFile w.disk) :
    Progress rapidHash request before w' w'.phase := by
  obtain ⟨run, b, origin, s, hp, hspared⟩ := World.executing_of_mayChange hmay
  rw [hphase]
  rw [hp] at hI ⊢
  obtain ⟨rfl, ⟨b₀, hb, hagrees, hstores⟩, hpool⟩ := hI
  refine ⟨rfl, ⟨b₀, hb, hagrees, hcache ▸ hstores⟩, ?_⟩
  rwa [hseen hspared]

/-- Where an intact run is, in each of its states. -/
theorem progress (hr : (world rapidHash).ReachableVia EmitsIntact before)
    (h : RunsIntact rapidHash request before w) :
    Progress rapidHash request before w w.phase := by
  obtain ⟨⟨launched, hlaunch, h⟩, -⟩ := h
  have hr' : (world rapidHash).ReachableVia EmitsIntact launched :=
    hr.step (by simp [EmitsIntact, Act.emits]) hlaunch
  -- induction over the run from its launch
  refine Machine.ReachableVia.invariant
    (I := fun w => Progress rapidHash request before w w.phase) ?_ ?_ h
  · rintro w rfl
    cases worldStep_cases hlaunch with
    | launch => exact ⟨rfl, rfl, rfl⟩
  · rintro w a w' hvia hI ⟨halone, hintact⟩ hstep
    have hreach := reachable_resume (fun w a hG _ => hG.2) hr' hvia
    have htraced := (Cob.describes (fun _ _ h => h) hreach).phase
    cases worldStep_cases hstep with
    -- the files that change beside the run are spared by it
    | write => exact hI.change halone rfl rfl fun hspared => seen_write hspared
    | overwrite => exact hI.change halone rfl rfl fun hspared => seen_write hspared
    | remove => exact hI.change halone rfl rfl fun hspared => seen_remove hspared
    | removeCache => simp [World.alone] at halone
    | launch => simp [World.alone] at halone
    | @useCache run c hp hc =>
      -- the cache is still the one of the launch
      rw [hp] at hI
      obtain ⟨rfl, hdisk, hcache⟩ := hI
      have hstores : Stores before.disk before.cache run.request.buildFile c.builder := by
        rw [← hdisk, ← hcache]
        exact stores_iff.mpr ⟨c, hc, rfl⟩
      exact ⟨rfl, hdisk, fun b' hb' => hstores.unique hb', fun _ => hcache ▸ hstores⟩
    | @rejectCache run hp hnone =>
      -- the cache of the launch is not usable
      rw [hp] at hI
      obtain ⟨rfl, hdisk, hcache⟩ := hI
      refine ⟨rfl, hdisk, ?_⟩
      rwa [World.usableCache, hdisk, hcache] at hnone
    | readFailed => exact trivial
    | @read run text b hp htext =>
      rw [hp] at hI
      obtain ⟨rfl, hdisk, hnone⟩ := hI
      refine ⟨rfl, hdisk, hnone, ?_⟩
      rw [← hdisk, Option.isSome_iff_ne_none]
      intro hno
      simp [Disk.content, hno] at htext
    | @emit run b b' origin io hp hb' =>
      -- the write stores the builder as it was read, since no mapped file was rewritten
      rw [hp] at hI htraced
      obtain ⟨rfl, hdisk, hnone, hfile⟩ := hI
      rw [hintact.shown_eq] at hb'
      subst b'
      refine ⟨rfl, hdisk, fun b' hb' => ?_, fun hsupported => ?_⟩
      · obtain ⟨c, hc, -⟩ := stores_iff.mp hb'
        rw [hnone] at hc
        cases hc
      · rw [← hdisk] at hfile ⊢
        exact stores_emitted htraced hsupported halone hfile
    | @execute run b₀ b b' origin order hp hb hb' horder =>
      -- the pool starts on the disk of the launch
      rw [hp] at hI htraced
      obtain ⟨rfl, hdisk, hloaded⟩ := hI
      rw [hintact.shown_eq] at hb'
      subst b'
      have hwf : (stepContext rapidHash run b).graph.WellFormed :=
        hb ▸ (Describes.override htraced run.request.overrides).wellFormed
      refine ⟨rfl, ⟨b₀, hb, hloaded⟩, ?_⟩
      rw [← hdisk]
      exact Machine.Reachable.init ⟨order, horder, initialState_seen hwf order⟩
    | @work run b b' origin s action s' hp hb' hs' =>
      -- the pool takes the same step on the files the run sees
      rw [hp] at hI htraced
      obtain ⟨rfl, hloaded, hpool⟩ := hI
      rw [hintact.shown_eq] at hb'
      subst b'
      have hwf : (stepContext rapidHash run b).graph.WellFormed := Describes.wellFormed htraced
      exact ⟨rfl, hloaded, hpool.step (poolStep_seen hwf hs')⟩
    | rewrite => exact trivial
    | finish => exact trivial
    | stop => exact trivial

/-- The same overrides a second time change nothing. -/
theorem override_built (b : COBBuilder) (overrides : List (Bytes × Bytes))
    (s : State BuildData Call) :
    ((b.override overrides).built s).override overrides = (b.override overrides).built s := by
  have hdefs : (b.definitions.override overrides).override overrides =
      b.definitions.override overrides := by
    rw [Definitions.override_override_eq_iff]
    intro k hk
    have hnone : overrides.reverse.lookup k = none := by
      rw [List.lookup_eq_none_iff]
      intro o ho
      have hne : k ≠ o.1 := by
        rintro rfl
        exact hk (List.mem_map_of_mem (List.mem_reverse.mp ho))
      simpa using hne
    rw [Definitions.find_override, hnone, Option.none_or]
  have heq : ∀ b : COBBuilder, b.override overrides =
      ⟨b.graph, b.definitions.override overrides⟩ := by
    intro b
    rw [← COBBuilder.graph_override b overrides, ← COBBuilder.definitions_override]
  simp only [heq, COBBuilder.built, hdefs]

/-- Storing the hashes of a graph changes nothing. -/
theorem built_of_commandHash_eq {b : COBBuilder} {s : State BuildData Call} (ctx : StepContext)
    {disk : Disk} (hgraph : ctx.graph = b.graph)
    (h : s.data.commandHash = (BuildData.start ctx disk).commandHash) : b.built s = b := by
  have hsteps : (b.graph.setHashes s.data.commandHash).steps = b.graph.steps := by
    refine List.ext_getElem? fun k => ?_
    rw [h]
    simp only [BuildGraph.setHashes, List.getElem?_mapIdx, BuildData.start, hgraph]
    cases b.graph.steps[k]? <;> rfl
  obtain ⟨⟨nodes, steps, index⟩, definitions⟩ := b
  exact congrArg (fun steps => (⟨⟨nodes, steps, index⟩, definitions⟩ : COBBuilder)) hsteps

variable {after : World}

/-- Where the build is when the workers have joined. -/
theorem Build.progress (hr : (world rapidHash).ReachableVia EmitsIntact before)
    {build : Build rapidHash request before after} (hintact : build.Intact) :
    Progress rapidHash request before build.last
      (.executing ⟨request, build.launch⟩ build.builder build.origin build.pool) := by
  rw [← build.executing]
  exact Cob.progress hr hintact

/-- The builder of the build, with its overrides, is described by its origin. -/
theorem Build.describes (hr : (world rapidHash).ReachableVia EmitsIntact before)
    {build : Build rapidHash request before after} (hintact : build.Intact) :
    Describes (build.origin.override request.overrides) build.builder := by
  have htraced := (Cob.describes (fun _ _ h => h) (hintact.reachable hr)).phase
  rw [build.executing] at htraced
  exact htraced

/-- What the end of the build leaves. -/
theorem Build.finished (build : Build rapidHash request before after) :
    build.pool.Joined request.pool ∧ after.disk = build.last.disk ∧
      after.cache = if rewrites ⟨request, build.launch⟩ build.builder build.pool then
          build.last.emitted (build.last.shown (build.builder.built build.pool))
            (build.origin.override request.overrides) build.io
        else build.last.cache := by
  obtain ⟨launch, builder, origin, s, last, io, -, hp, -, -, hfinish⟩ := build
  cases worldStep_cases hfinish with
  | rewrite hp' hjoin hrw hb' =>
    obtain ⟨rfl, rfl, rfl, rfl⟩ := Phase.executing.inj (hp.symm.trans hp')
    subst hb'
    exact ⟨hjoin, rfl, by rw [hrw]; rfl⟩
  | finish hp' hjoin hno =>
    obtain ⟨rfl, rfl, rfl, rfl⟩ := Phase.executing.inj (hp.symm.trans hp')
    exact ⟨hjoin, rfl, by rw [hno]; rfl⟩

/-- What the workers of the build read. -/
def Build.context (build : Build rapidHash request before after) : StepContext :=
  stepContext rapidHash ⟨request, build.launch⟩ build.builder

/-- What the calls of the build see of the pool when the workers have joined. -/
def Build.seen (build : Build rapidHash request before after) : State BuildData Call :=
  build.pool.seen build.context.graph request.buildFile after.disk

/-- What the calls of the build see is a build with nobody else around. -/
theorem Build.reachable_seen (hr : (world rapidHash).ReachableVia EmitsIntact before)
    {build : Build rapidHash request before after} (hintact : build.Intact) :
    (poolMachine (processStep build.context) request.pool build.context.graph
      (.start build.context
        (before.disk.restrict (Involved build.context.graph request.buildFile)))).Reachable
      build.seen := by
  obtain ⟨-, -, hpool⟩ := Build.progress hr hintact
  obtain ⟨-, hlast, -⟩ := build.finished
  rw [Build.seen, hlast]
  exact hpool

/-- After a build the cache is such that the next run, with the same overrides, gets the graph with
the hashes of the build. -/
theorem Build.stores (hr : (world rapidHash).ReachableVia EmitsIntact before)
    {build : Build rapidHash request before after} (hintact : build.Intact)
    (hdry : request.dryRun = false)
    (hrep : Repeatable build.context.graph request.buildFile)
    (hrsp : RspApart build.context.graph request.buildFile)
    (hfile : (after.disk.file request.buildFile).isSome) :
    ∃ b, Stores after.disk after.cache request.buildFile b ∧
      b.override request.overrides = build.builder.built build.pool := by
  obtain ⟨-, ⟨b₀, hb, hloaded⟩, -⟩ := Build.progress hr hintact
  obtain ⟨-, hlast, hcache⟩ := build.finished
  rw [hintact.2.shown_eq] at hcache
  by_cases hrw : rewrites ⟨request, build.launch⟩ build.builder build.pool = true
  · rw [if_pos hrw] at hcache
    refine ⟨build.builder.built build.pool, ?_, ?_⟩
    · rw [hlast] at hfile ⊢
      rw [hcache]
      have hbuilt := (Build.describes hr hintact).built build.pool
      exact stores_emitted hbuilt (hrep.setHashes _).supported
        build.alone hfile
    · rw [hb, override_built]
  · rw [if_neg hrw] at hcache
    -- nothing was written, so the hashes are still those that were loaded
    have hsame : build.seen.data.hashesChanged = false := by
      by_contra hchanged
      apply hrw
      simpa [rewrites] using ⟨build.ok, hdry, Bool.eq_true_of_not_eq_false hchanged⟩
    have hwf : build.context.graph.WellFormed := (Build.describes hr hintact).wellFormed
    have hsep : Separate build.context := hrep.separate hrsp
    have hpool := Build.reachable_seen hr hintact
    have hhash := commandHash_of_not_changed hwf hpool hsame
    have hdata := (demand hwf hsep (hrep.rspSteady hwf) hpool).data
    have hgraph : b₀.graph = build.context.graph := by
      rw [← COBBuilder.graph_override b₀ request.overrides, ← hb]
      rfl
    obtain ⟨c, t, hc, ht, hlt, hloads⟩ := hloaded.2 (hgraph ▸ hrep.supported)
    have hmanifest : after.disk.file request.buildFile = before.disk.file request.buildFile := by
      have hkept := hdata.unwritten _ hsep.unwritten_buildFile
      rw [Build.seen, disk_seen] at hkept
      have hinvolved : Involved build.context.graph request.buildFile build.context.buildFile =
          true := involved_buildFile
      rwa [Disk.file_restrict_of hinvolved, Disk.file_restrict_of hinvolved] at hkept
    refine ⟨b₀, ⟨c, t, hcache.trans hc, ?_, hlt, hloads⟩, ?_⟩
    · rw [Disk.mtime, hmanifest]
      exact ht
    · rw [← hb]
      exact (built_of_commandHash_eq build.context rfl hhash).symm

/-- The files that are looked at do not depend on the hashes. -/
theorem involved_setHashes (g : BuildGraph) (commandHash : ℕ → UInt64) (buildFile : Bytes) :
    Involved (g.setHashes commandHash) buildFile = Involved g buildFile := by
  funext p
  have hsteps : (∃ st ∈ (g.setHashes commandHash).steps, st.rspPath = p) ↔
      ∃ st ∈ g.steps, st.rspPath = p := by
    constructor
    · rintro ⟨st', hst', hp⟩
      obtain ⟨st, hst, k, rfl⟩ := mem_setHashes hst'
      exact ⟨st, hst, hp⟩
    · rintro ⟨st, hst, hp⟩
      obtain ⟨k, hk⟩ := List.mem_iff_getElem?.mp hst
      refine ⟨{ st with commandHash := commandHash k }, List.mem_iff_getElem?.mpr ⟨k, ?_⟩, hp⟩
      simp [BuildGraph.setHashes, hk]
  simp only [Involved, hsteps]
  rfl

/-- Sources that exist are seen. -/
theorem SourcesExist.restrict {ctx : StepContext} {disk : Disk} (hg : ctx.graph.WellFormed)
    (h : SourcesExist ctx.graph ctx.buildFile disk) :
    SourcesExist ctx.graph ctx.buildFile
      (disk.restrict (Involved ctx.graph ctx.buildFile)) := by
  refine ⟨?_, fun v p hp hsource => ?_⟩
  · rw [Disk.file_restrict_of involved_buildFile]
    exact h.1
  · rw [Disk.file_restrict_of (involved_of_pathOf hg hp)]
    exact h.2 v p hp hsource

/-- After a successful build whose mapped files show what was parsed, the next run with the same
build file and overrides runs nothing. -/
theorem idle_of_build {request' : Request}
    (hr : (world rapidHash).ReachableVia EmitsIntact before)
    (build : Build rapidHash request before after) (hintact : build.Intact)
    (hdry : request.dryRun = false)
    (hrep : Repeatable build.context.graph request.buildFile)
    (hrsp : RspApart build.context.graph request.buildFile)
    (hexist : SourcesExist build.context.graph request.buildFile after.disk)
    (hbuildFile : request'.buildFile = request.buildFile)
    (hoverrides : request'.overrides = request.overrides)
    (h : RunsTo rapidHash request' after w) : w.RunsNothing := by
  intro run' b' origin' s' hp'
  have hafter : (world rapidHash).ReachableVia EmitsIntact after :=
    (hintact.reachable hr).step (fun _ => hintact.2) build.finish
  have hwf : build.context.graph.WellFormed := (Build.describes hr hintact).wellFormed
  obtain ⟨hjoin, -⟩ := build.finished
  obtain ⟨b, hstores, hbuilt⟩ := Build.stores hr hintact hdry hrep hrsp hexist.1
  have hprogress := Cob.progress hafter (h.intact_of_stores (hbuildFile ▸ hstores))
  rw [hp'] at hprogress
  obtain ⟨rfl, ⟨b₀, rfl, hloaded⟩, hpool'⟩ := hprogress
  obtain rfl : b₀ = b := hloaded.1 b (hbuildFile ▸ hstores)
  -- the next run loads the graph with the hashes of the build
  have hctx : stepContext rapidHash run' (build.builder.built build.pool) =
      build.context.next build.seen.data run'.request.dryRun := by
    simp [stepContext, StepContext.next, COBBuilder.built, Build.context, hbuildFile, Build.seen,
      State.seen, State.map, BuildData.restrict, BuildData.onDisk]
  have hinvolved : Involved (build.builder.built build.pool).graph run'.request.buildFile =
      Involved build.context.graph request.buildFile := by
    rw [hbuildFile]
    exact involved_setHashes _ _ _
  rw [hoverrides, hbuilt, hctx, hinvolved] at hpool'
  have hwf' : (build.context.next build.seen.data run'.request.dryRun).graph.WellFormed :=
    hwf.of_same (Eq.symm (same_setHashes build.context.graph build.seen.data.commandHash))
  have hrep' : Repeatable (build.context.next build.seen.data run'.request.dryRun).graph
      request.buildFile := hrep.setHashes build.seen.data.commandHash
  have hrsp' : RspApart (build.context.next build.seen.data run'.request.dryRun).graph
      request.buildFile := hrsp.setHashes build.seen.data.commandHash
  have hup : ∀ v, ¬ Outdated (build.context.next build.seen.data run'.request.dryRun)
      build.seen.data.disk v :=
    not_outdated_of_ok hwf (hrep.separate hrsp) (hrep.rspSteady hwf) hdry
      (Build.reachable_seen hr hintact) (joined_seen hjoin) build.ok
      (SourcesExist.restrict hwf hexist)
  obtain ⟨hran, hcalls⟩ := not_rebuilding_of_upToDate hwf' (hrep'.separate hrsp')
    (hrep'.rspSteady hwf') hup hpool'
  refine ⟨hran, fun v call hmem => ?_⟩
  obtain ⟨call', hmem', heq⟩ := mem_workers_seen hmem
  rw [← heq]
  exact hcalls v call' hmem'

/-- An evaluated run with moves of `G`, from its launch on, ends in a state with a property. -/
def runsVia (rapidHash : Bytes → UInt64 → UInt64) (G : World → Act → Bool) (request : Request)
    (before : World) (as : List Act) (p : World → Bool) : Bool :=
  ((before.step rapidHash (.launch request)).bind fun launched =>
    (resume rapidHash launched).exec ([], launched) as).any
      fun r => (r.1.all fun m => G m.1 m.2) && p r.2

theorem exists_runsVia {G : World → Act → Bool} {as : List Act} {p : World → Bool}
    (h : runsVia rapidHash G request before as p = true) :
    ∃ w, RunsVia rapidHash (fun w a => G w a = true) request before w ∧ p w = true := by
  obtain ⟨⟨tr, w⟩, hexec, hall⟩ := (Option.any_eq_true _ _).mp h
  obtain ⟨launched, hlaunch, hexec⟩ := Option.bind_eq_some_iff.mp hexec
  obtain ⟨hG, hw⟩ := Bool.and_eq_true_iff.mp hall
  have hrun : (resume rapidHash launched).Run tr w := (Machine.Run.start rfl).exec hexec
  exact ⟨w, ⟨launched, hlaunch, tr, hrun, List.all_eq_true.mp hG⟩, hw⟩

/-- An evaluated run that goes on alone. -/
def runsTo (rapidHash : Bytes → UInt64 → UInt64) (request : Request) (before : World)
    (as : List Act) (p : World → Bool) : Bool :=
  runsVia rapidHash World.alone request before as p

/-- An evaluated run whose mapped files show what was parsed. -/
def runsIntact (rapidHash : Bytes → UInt64 → UInt64) (request : Request) (before : World)
    (as : List Act) (p : World → Bool) : Bool :=
  runsVia rapidHash (fun w a => w.alone a && decide w.Intact) request before as
    fun w => p w && decide w.Intact

theorem exists_runsIntact {as : List Act} {p : World → Bool}
    (h : runsIntact rapidHash request before as p = true) :
    ∃ w, RunsIntact rapidHash request before w ∧ p w = true := by
  obtain ⟨w, ⟨launched, hlaunch, hvia⟩, hw⟩ := exists_runsVia h
  obtain ⟨hp, hintact⟩ := Bool.and_eq_true_iff.mp hw
  refine ⟨w, ⟨⟨launched, hlaunch, hvia.mono fun w a hG => ?_⟩, of_decide_eq_true hintact⟩, hp⟩
  obtain ⟨halone, hintact⟩ := Bool.and_eq_true_iff.mp hG
  exact ⟨halone, of_decide_eq_true hintact⟩

theorem RunsIntact.runsTo (h : RunsIntact rapidHash request before w) :
    RunsTo rapidHash request before w := by
  obtain ⟨⟨launched, hlaunch, hvia⟩, -⟩ := h
  exact ⟨launched, hlaunch, hvia.mono fun _ _ hG => hG.1⟩

/-- The end of a successful build, with a property of the graph and the world after it. -/
def endsBuild (rapidHash : Bytes → UInt64 → UInt64) (io : Option FileTime)
    (q : BuildGraph → World → Bool) (last : World) : Bool :=
  match last.phase with
  | .executing _ b _ s => decide (s.executeResult b.graph = .ok ()) && last.alone (.finish io) &&
      (last.step rapidHash (.finish io)).any (q b.graph)
  | _ => false

theorem exists_build_of_ends {io : Option FileTime} {q : BuildGraph → World → Bool} {last : World}
    (hruns : RunsTo rapidHash request before last)
    (hlast : endsBuild rapidHash io q last = true) :
    ∃ after, ∃ build : Build rapidHash request before after,
      build.last = last ∧ q build.context.graph after = true := by
  unfold endsBuild at hlast
  split at hlast
  · next run b origin s hphase =>
    have hrun : last.phase.run = some run := by rw [hphase]; rfl
    obtain rfl := hruns.request_eq hrun
    simp only [Bool.and_eq_true, decide_eq_true_eq] at hlast
    obtain ⟨⟨hok, halone⟩, hafter⟩ := hlast
    obtain ⟨after, hfinish, hq⟩ := (Option.any_eq_true _ _).mp hafter
    exact
      ⟨after, ⟨run.launch, b, origin, s, last, io, hruns, hphase, hok, halone, hfinish⟩, rfl, hq⟩
  · simp at hlast

theorem exists_build {as : List Act} {io : Option FileTime} {q : BuildGraph → World → Bool}
    (h : runsTo rapidHash request before as (endsBuild rapidHash io q) = true) :
    ∃ after, ∃ build : Build rapidHash request before after,
      q build.context.graph after = true := by
  obtain ⟨last, hruns, hlast⟩ := exists_runsVia h
  obtain ⟨after, build, -, hq⟩ := exists_build_of_ends hruns hlast
  exact ⟨after, build, hq⟩

theorem exists_intactBuild {as : List Act} {io : Option FileTime} {q : BuildGraph → World → Bool}
    (h : runsIntact rapidHash request before as (endsBuild rapidHash io q) = true) :
    ∃ after, ∃ build : Build rapidHash request before after,
      build.Intact ∧ q build.context.graph after = true := by
  obtain ⟨last, hruns, hlast⟩ := exists_runsIntact h
  obtain ⟨after, build, rfl, hq⟩ := exists_build_of_ends hruns.runsTo hlast
  exact ⟨after, build, hruns, hq⟩

end Run

/-- Linking `a` from `s`, fifty-one times, after other steps. -/
def manyText (others : Bytes) : Bytes :=
  others ++ ascii "ld|s" ++ (List.replicate 50 (ascii ",s")).flatten ++ ascii "|a\n"

/-- The manifest, the source and an old response file. -/
def manyWorld (others : Bytes) : World where
  disk := ⟨[(ascii "a.rsp", ⟨1, .text []⟩), (ascii "s", ⟨2, .unknown⟩),
    (ascii "catalyst.build", ⟨3, .text (manyText others)⟩)]⟩
  cache := none
  phase := .idle

/-- A run that starts from the text, with an order of the steps. -/
def firstStart (order : List ℕ) : List Act :=
  [.check, .read, .emit (some 10), .execute order, .work .spawn]

/-- A run that starts from the cache. -/
def secondStart (order : List ℕ) : List Act := [.check, .execute order, .work .spawn]

/-- What the next run does after a build that is to have nothing in its way. -/
def nextRun (as : List Act) (p : World → Bool) (g : BuildGraph) (after : World) : Bool :=
  decide (Repeatable g (ascii "catalyst.build")) &&
    decide (SourcesExist g (ascii "catalyst.build") after.disk) &&
    runsTo sumHash (buildRequest []) after as p

/-- The build writes the response file, and its linker a map file. The next run finds everything up
to date. -/
theorem idle_of_build_many : ∃ after w,
    (∃ build : Build sumHash (buildRequest []) (manyWorld []) after, build.Intact) ∧
    RunsTo sumHash (buildRequest []) after w ∧ w.succeeded = true ∧ w.RunsNothing := by
  have hr : (world sumHash).ReachableVia EmitsIntact (manyWorld []) := .init ⟨rfl, rfl, rfl⟩
  have hexec : runsIntact sumHash (buildRequest []) (manyWorld [])
      (firstStart [0] ++ tools 7 0 30 ++ [.write (ascii "a.map") ⟨35, .unknown⟩] ++ tools 8 0 40)
      (endsBuild sumHash (some 60) fun g after =>
        decide (RspApart g (ascii "catalyst.build")) &&
          nextRun (secondStart [0] ++ tools 16 0 70) World.succeeded g after) = true := by
    decide +kernel
  obtain ⟨after, build, hintact, hq⟩ := exists_intactBuild hexec
  simp only [nextRun, Bool.and_eq_true, decide_eq_true_eq] at hq
  obtain ⟨hrsp, ⟨hrep, hexist⟩, hsecond⟩ := hq
  obtain ⟨w, hruns, hw⟩ := exists_runsVia hsecond
  exact ⟨after, w, ⟨build, hintact⟩, hruns, hw,
    idle_of_build hr build hintact rfl hrep hrsp hexist rfl rfl hruns⟩

/-- A call of the build in progress is on its way to run a tool. -/
def rebuilds (w : World) : Bool :=
  match w.phase with
  | .executing _ _ _ s => s.workers.any fun
    | .process _ call => call.rebuilding
    | _ => false
  | _ => false

theorem not_runsNothing_of_rebuilds (h : rebuilds w = true) : ¬ w.RunsNothing := by
  intro hidle
  unfold rebuilds at h
  split at h
  · next run b origin s hp =>
    obtain ⟨pc, hmem, hpc⟩ := List.any_eq_true.mp h
    split at hpc
    · next v call =>
      rw [(hidle _ _ _ _ hp).2 v call hmem] at hpc
      cases hpc
    · cases hpc
  · cases h

/-- The manifest and the source of a compile step, with the dependency file of an earlier build. -/
def compiledWorld : World where
  disk := ⟨[(ascii "catalyst.build", ⟨1, .text compileText⟩), (ascii "main.c", ⟨2, .unknown⟩),
    (ascii "util.h", ⟨3, .unknown⟩),
    (ascii "main.o.d", ⟨4, .text (ascii "main.o: main.c util.h\n")⟩)]⟩
  cache := none
  phase := .idle

/-- The compiler of the first run rewrites the dependency file in place, with other prerequisites.
The paths that `execute` then writes to the cache are none, so the second run compiles again. -/
theorem not_idle_of_build : ¬ ∀ (rapidHash : Bytes → UInt64 → UInt64) (request request' : Request)
    (before after w : World) (build : Build rapidHash request before after),
    (world rapidHash).Reachable before → request.dryRun = false →
    Repeatable build.context.graph request.buildFile →
    SourcesExist build.context.graph request.buildFile after.disk →
    request'.buildFile = request.buildFile → request'.overrides = request.overrides →
    RunsTo rapidHash request' after w → w.RunsNothing := by
  intro hall
  have hr : (world sumHash).Reachable compiledWorld := .init ⟨rfl, rfl, rfl⟩
  -- the compiler rewrites `main.o.d` in place before the build ends
  have hexec : runsTo sumHash (buildRequest []) compiledWorld
      (firstStart [0] ++ tools 7 0 30 ++
        [.overwrite (ascii "main.o.d") ⟨35, .text (ascii "main.o: lib.h main.c\n")⟩] ++
        tools 8 0 40)
      (endsBuild sumHash (some 60) (nextRun (secondStart [0] ++ tools 9 0 70) rebuilds)) =
        true := by
    decide +kernel
  obtain ⟨after, build, hq⟩ := exists_build hexec
  simp only [nextRun, Bool.and_eq_true, decide_eq_true_eq] at hq
  obtain ⟨⟨hrep, hexist⟩, hsecond⟩ := hq
  obtain ⟨w, hruns, hw⟩ := exists_runsVia hsecond
  exact not_runsNothing_of_rebuilds hw
    (hall _ _ (buildRequest []) _ _ _ build hr rfl hrep hexist rfl rfl hruns)

/-- The first run links `b` from the old response file of `a` and then writes a new one, so the
second run links `b` again. -/
theorem not_idle_of_rspInput : ¬ ∀ (rapidHash : Bytes → UInt64 → UInt64)
    (request request' : Request) (before after w : World)
    (build : Build rapidHash request before after),
    (world rapidHash).ReachableVia EmitsIntact before → build.Intact → request.dryRun = false →
    Repeatable build.context.graph request.buildFile →
    SourcesExist build.context.graph request.buildFile after.disk →
    request'.buildFile = request.buildFile → request'.overrides = request.overrides →
    RunsTo rapidHash request' after w → w.RunsNothing := by
  intro hall
  have hr : (world sumHash).ReachableVia EmitsIntact (manyWorld (ascii "ld|a.rsp|b\n")) :=
    .init ⟨rfl, rfl, rfl⟩
  -- the second link writes the response file that the first has for an input
  have hexec : runsIntact sumHash (buildRequest []) (manyWorld (ascii "ld|a.rsp|b\n"))
      (firstStart [0, 2] ++ tools 12 0 20 ++ tools 7 0 30 ++ tools 8 0 40)
      (endsBuild sumHash (some 60) (nextRun (secondStart [0, 2] ++ tools 9 0 70) rebuilds)) =
        true := by
    decide +kernel
  obtain ⟨after, build, hintact, hq⟩ := exists_intactBuild hexec
  simp only [nextRun, Bool.and_eq_true, decide_eq_true_eq] at hq
  obtain ⟨⟨hrep, hexist⟩, hsecond⟩ := hq
  obtain ⟨w, hruns, hw⟩ := exists_runsVia hsecond
  exact not_runsNothing_of_rebuilds hw
    (hall _ _ (buildRequest []) _ _ _ build hr hintact rfl hrep hexist rfl rfl hruns)

end Cob
