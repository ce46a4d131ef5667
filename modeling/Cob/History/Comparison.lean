import Cob.Executor.CycleCheck
import Cob.Executor.Reproducible
import Cob.History.SecondBuild

/-!
# Builds compared

Two builds that are launched in the same world, with as many threads as they like, leave the same
contents in the files of the graph and the same cache, as long as no response file is cut short and
the mapped dependency files show what was parsed (`Build.agree`). A build that fails leaves the
cache as it found it: the next one starts from what is on the disk, and does again the work of the
steps whose command is not the one that the cache knows (`FailedBuild.redone_iff`).

The module introduces:

* `World.parsedImage` — the cache as `parse` leaves it;
* `Parsed` — what `parse` has returned, while an undisturbed run goes on;
* `FailedBuild` — a build that did not succeed, from the launch to the end.
-/

namespace Cob

open BuildGraph

namespace World

/-- The cache when `parse` has returned the builder: the usable one, or the one that it wrote. -/
def parsedImage (w : World) (buildFile : Bytes) (b : COBBuilder) : Option CacheImage :=
  match w.usableCache buildFile, emitBin b with
  | none, .ok image => some image
  | _, _ => w.cache.map Cache.image

variable {rapidHash : Bytes → UInt64 → UInt64} {w w' : World}

/-- Workers are spawned only when `execute` has found no cycle. -/
theorem noCycle_of_execute {order : List ℕ} {run : Run} {b : COBBuilder} {origin : Origin}
    (hp : w.phase = .parsed run b origin) (h : w.step rapidHash (.execute order) = some w') :
    noCycle (b.override run.request.overrides).graph = true := by
  obtain ⟨disk, cache, phase, mapped⟩ := w
  subst hp
  simp only [World.step] at h
  split_ifs at h with hcan
  simp only [canExecute, decide_eq_true_eq] at hcan
  exact hcan.2.2.1

/-- A cache that could be written holds the builder. -/
theorem image_emitted {b : COBBuilder} {origin : Origin} {io : Option FileTime}
    {p : FileTime → Bool} (hio : io.any p = true) :
    (w.emitted b origin io).map Cache.image =
      ((emitBin b).toOption.orElse fun _ => w.cache.map Cache.image) := by
  obtain ⟨t, rfl, -⟩ := (Option.any_eq_true _ _).mp hio
  cases h : emitBin b with
  | error e => simp [emitted, h, Except.toOption]
  | ok image => simp [emitted, h, Except.toOption]

end World

/-- What `parse` has returned in a run that was launched in the world `before`. -/
def Parsed (request : Request) (before w : World) : Phase → Prop
  | .idle => True
  | .checking _ => True
  | .reading _ => w.cache = before.cache
  | .emitting _ b _ => before.parse request.buildFile = some b ∧ w.cache = before.cache
  | .parsed _ b _ => before.parse request.buildFile = some b ∧
      w.cache.map Cache.image = before.parsedImage request.buildFile b
  | .executing _ b _ _ => noCycle b.graph = true ∧
      ∃ b₀, before.parse request.buildFile = some b₀ ∧ b = b₀.override request.overrides ∧
        w.cache.map Cache.image = before.parsedImage request.buildFile b₀

/-- A build that failed and whose files nobody else touched, from the launch to the end. -/
structure FailedBuild (rapidHash : Bytes → UInt64 → UInt64) (request : Request)
    (before after : World) where
  /-- the disk at the launch -/
  launch : Disk
  builder : COBBuilder
  origin : Origin
  pool : State BuildData Call
  /-- the world in which the workers have joined -/
  last : World
  io : Option FileTime
  runs : RunsTo rapidHash request before last
  executing : last.phase = .executing ⟨request, launch⟩ builder origin pool
  failed : pool.executeResult builder.graph ≠ .ok ()
  finish : last.step rapidHash (.finish io) = some after

/-- The mapped files show, from the launch to the end of the build, the paths that it parsed. -/
def FailedBuild.Intact {rapidHash : Bytes → UInt64 → UInt64} {request : Request}
    {before after : World} (build : FailedBuild rapidHash request before after) : Prop :=
  RunsIntact rapidHash request before build.last

section Comparison

variable {rapidHash : Bytes → UInt64 → UInt64} {request : Request} {before w : World}

/-- What an intact run has parsed, in each of its states. -/
theorem parsed_of_runsIntact (hr : (world rapidHash).ReachableVia EmitsIntact before)
    (h : RunsIntact rapidHash request before w) : Parsed request before w w.phase := by
  obtain ⟨⟨launched, hlaunch, h⟩, -⟩ := h
  -- induction over the run; `progress` gives the disk and the cache at each of its states
  refine Machine.ReachableVia.invariant (I := fun w => Parsed request before w w.phase) ?_ ?_ h
  · rintro w rfl
    cases worldStep_cases hlaunch with
    | launch => trivial
  · rintro w a w' hvia hI ⟨halone, hintact⟩ hstep
    have hprogress := progress hr ⟨⟨launched, hlaunch, hvia⟩, hintact⟩
    cases worldStep_cases hstep with
    | write => exact hI
    | overwrite => exact hI
    | remove => exact hI
    | removeCache => simp [World.alone] at halone
    | launch => simp [World.alone] at halone
    | @useCache run c hp hc =>
      -- what the launch would have loaded is what is loaded now
      rw [hp] at hprogress
      obtain ⟨rfl, hdisk, hcache⟩ := hprogress
      have husable : before.usableCache run.request.buildFile = some c := by
        rwa [World.usableCache, hdisk, hcache] at hc
      refine ⟨by simp [World.parse, husable], ?_⟩
      simp [World.parsedImage, husable, hcache]
    | rejectCache hp =>
      rw [hp] at hprogress
      exact hprogress.2.2
    | readFailed => trivial
    | @read run text b hp htext hb =>
      rw [hp] at hI hprogress
      obtain ⟨rfl, hdisk, hnone⟩ := hprogress
      refine ⟨?_, hI⟩
      rw [hdisk] at htext hb
      simp [World.parse, hnone, htext, hb, Except.toOption]
    | @emit run b b' origin io hp hb' =>
      -- the write goes through, so the cache holds the image of what was parsed
      rw [hp] at hI hprogress
      obtain ⟨hparse, hcache⟩ := hI
      rw [hintact.shown_eq] at hb'
      subst b'
      refine ⟨hparse, ?_⟩
      show (w.emitted b origin io).map Cache.image = _
      rw [World.image_emitted halone, World.parsedImage, hprogress.2.2.1, hcache]
      cases emitBin b <;> rfl
    | @execute run b₀ b b' origin order hp hb =>
      have hcycle := World.noCycle_of_execute hp hstep
      rw [hp] at hI hprogress
      obtain ⟨rfl, -⟩ := hprogress
      obtain ⟨hparse, himage⟩ := hI
      exact ⟨hb ▸ hcycle, b₀, hparse, hb, himage⟩
    | @work run b b' origin s action s' hp =>
      rw [hp] at hI
      exact hI
    | rewrite => trivial
    | finish => trivial
    | stop => trivial

/-- What the build has parsed. -/
theorem Build.parsed {after : World} (hr : (world rapidHash).ReachableVia EmitsIntact before)
    {build : Build rapidHash request before after} (hintact : build.Intact) :
    noCycle build.builder.graph = true ∧ ∃ b₀, before.parse request.buildFile = some b₀ ∧
      build.builder = b₀.override request.overrides ∧
        build.last.cache.map Cache.image = before.parsedImage request.buildFile b₀ := by
  have h := parsed_of_runsIntact hr hintact
  rwa [build.executing] at h

/-- The cache that a build leaves. -/
theorem Build.image_after {after : World} {build : Build rapidHash request before after}
    (hintact : build.Intact) :
    after.cache.map Cache.image =
      if rewrites ⟨request, build.launch⟩ build.builder build.pool then
        ((emitBin (build.builder.built build.pool)).toOption.orElse fun _ =>
          build.last.cache.map Cache.image)
      else build.last.cache.map Cache.image := by
  rw [build.finished.2.2, hintact.2.shown_eq]
  split_ifs
  · exact World.image_emitted build.alone
  · rfl

/-- Different link steps have different response files. -/
theorem Repeatable.rspOwned {g : BuildGraph} {buildFile : Bytes} (h : Repeatable g buildFile) :
    RspOwned g :=
  fun st hst st' hst' hmany hmany' => h.rsp_inj st hst st' hst' hmany.1 hmany'.1

/-- Builders with the same hashes are the same. -/
theorem built_congr {b : COBBuilder} {s s' : State BuildData Call}
    (h : ∀ k st, b.graph.steps[k]? = some st → s.data.commandHash k = s'.data.commandHash k) :
    b.built s = b.built s' := by
  have hsteps : (b.graph.setHashes s.data.commandHash).steps =
      (b.graph.setHashes s'.data.commandHash).steps := by
    refine List.ext_getElem? fun k => ?_
    simp only [BuildGraph.setHashes, List.getElem?_mapIdx]
    cases hk : b.graph.steps[k]? with
    | none => rfl
    | some st => simp [h k st hk]
  simp only [COBBuilder.built, BuildGraph.setHashes] at hsteps ⊢
  rw [hsteps]

/-- Two builds launched in the same world run the same steps, leave the same contents in the files
of the graph if they could write their response files, and leave the same cache, whatever their
threads do. -/
theorem Build.agree {request₁ request₂ : Request} {after₁ after₂ : World}
    (hr : (world rapidHash).ReachableVia EmitsIntact before)
    (build₁ : Build rapidHash request₁ before after₁)
    (build₂ : Build rapidHash request₂ before after₂) (hintact₁ : build₁.Intact)
    (hintact₂ : build₂.Intact)
    (hfile : request₂.buildFile = request₁.buildFile)
    (hoverrides : request₂.overrides = request₁.overrides)
    (hdry₁ : request₁.dryRun = false) (hdry₂ : request₂.dryRun = false)
    (hrep : Repeatable build₁.context.graph request₁.buildFile)
    (hrsp : RspApart build₁.context.graph request₁.buildFile) :
    (∀ v, Rebuilt build₁.context build₁.pool.data v ↔ Rebuilt build₂.context build₂.pool.data v) ∧
    (build₁.pool.data.rspFailed = false → build₂.pool.data.rspFailed = false →
      ∀ p, Involved build₁.context.graph request₁.buildFile p = true →
        (after₁.disk.file p).map File.contents = (after₂.disk.file p).map File.contents) ∧
    after₁.cache.map Cache.image = after₂.cache.map Cache.image := by
  obtain ⟨hcycle, b₀, hparse₁, hb₁, himage₁⟩ := Build.parsed hr hintact₁
  obtain ⟨-, b₀', hparse₂, hb₂, himage₂⟩ := Build.parsed hr hintact₂
  -- both parse the same builder, so the workers read the same
  rw [hfile, hparse₁] at hparse₂
  obtain rfl := Option.some.inj hparse₂
  have hbuilder : build₂.builder = build₁.builder := by rw [hb₁, hb₂, hoverrides]
  have hctx : build₂.context = build₁.context := by
    simp [Build.context, stepContext, hbuilder, hfile, hdry₁, hdry₂]
  have hg : build₁.context.graph.WellFormed := (Build.describes hr hintact₁).wellFormed
  have hacyclic : build₁.context.graph.Acyclic := (noCycle_iff hg.target_isStep).mp hcycle
  have hr₂ := Build.reachable_seen hr hintact₂
  rw [hctx, hfile] at hr₂
  have hok₂ : build₂.pool.executeResult build₁.context.graph = .ok () := by
    rw [← hctx]
    exact build₂.ok
  obtain ⟨hrebuilt, hcontents, hhash, hchanged⟩ := agree_of_ok hg hacyclic (hrep.separate hrsp)
    (hrep.rspSteady hg) hrep.rspOwned hdry₁ (Build.reachable_seen hr hintact₁)
    (joined_seen build₁.finished.1) build₁.ok hr₂ (joined_seen build₂.finished.1) hok₂
  refine ⟨fun v => ?_, fun hwrote₁ hwrote₂ p hp => ?_, ?_⟩
  · rw [hctx]
    exact hrebuilt v
  · have hp' := hcontents hwrote₁ hwrote₂ p
    rw [Build.seen, Build.seen, disk_seen, disk_seen, hctx, hfile, Disk.file_restrict_of hp,
      Disk.file_restrict_of hp] at hp'
    exact hp'
  · have hbuilt : build₂.builder.built build₂.pool = build₁.builder.built build₁.pool := by
      rw [hbuilder]
      exact (built_congr fun k st hk => hhash k st hk).symm
    have hrewrites : rewrites ⟨request₂, build₂.launch⟩ build₂.builder build₂.pool =
        rewrites ⟨request₁, build₁.launch⟩ build₁.builder build₁.pool := by
      have hok₁ := build₁.ok
      have hchanged' : build₁.pool.data.hashesChanged = build₂.pool.data.hashesChanged := hchanged
      have hok₂' := build₂.ok
      simp only [rewrites, hok₁, hok₂', hdry₁, hdry₂, hchanged']
    rw [Build.image_after hintact₁, Build.image_after hintact₂, hrewrites, hbuilt, himage₁,
      himage₂, hfile]

/-! ### After a build that failed -/

section Failed

variable {after : World}

/-- What the workers of the build read. -/
def FailedBuild.context (build : FailedBuild rapidHash request before after) : StepContext :=
  stepContext rapidHash ⟨request, build.launch⟩ build.builder

/-- A build that fails leaves the cache as it is. -/
theorem FailedBuild.finished (build : FailedBuild rapidHash request before after) :
    after.disk = build.last.disk ∧ after.cache = build.last.cache := by
  obtain ⟨launch, builder, origin, s, last, io, -, hp, hfailed, hfinish⟩ := build
  cases worldStep_cases hfinish with
  | rewrite hp' hjoin hrw =>
    obtain ⟨rfl, rfl, rfl, rfl⟩ := Phase.executing.inj (hp.symm.trans hp')
    simp only [rewrites, decide_eq_true_eq] at hrw
    exact absurd hrw.1 hfailed
  | finish hp' => exact ⟨rfl, rfl⟩

/-- Where the build is when the workers have joined. -/
theorem FailedBuild.progress (hr : (world rapidHash).ReachableVia EmitsIntact before)
    {build : FailedBuild rapidHash request before after} (hintact : build.Intact) :
    Progress rapidHash request before build.last
      (.executing ⟨request, build.launch⟩ build.builder build.origin build.pool) := by
  rw [← build.executing]
  exact Cob.progress hr hintact

theorem FailedBuild.wellFormed (hr : (world rapidHash).ReachableVia EmitsIntact before)
    {build : FailedBuild rapidHash request before after} (hintact : build.Intact) :
    build.context.graph.WellFormed := by
  have htraced := (describes (fun _ _ h => h) (hintact.reachable hr)).phase
  rw [build.executing] at htraced
  exact Describes.wellFormed htraced

/-- What the calls of the build see is a build with nobody else around. -/
theorem FailedBuild.reachable_seen (hr : (world rapidHash).ReachableVia EmitsIntact before)
    {build : FailedBuild rapidHash request before after} (hintact : build.Intact) :
    (poolMachine (processStep build.context) request.pool build.context.graph
      (.start build.context
        (before.disk.restrict (Involved build.context.graph request.buildFile)))).Reachable
      (build.pool.seen build.context.graph request.buildFile after.disk) := by
  obtain ⟨-, -, hpool⟩ := FailedBuild.progress hr hintact
  rw [build.finished.1]
  exact hpool

/-- The manifest is as it was. -/
theorem FailedBuild.file_buildFile (hr : (world rapidHash).ReachableVia EmitsIntact before)
    {build : FailedBuild rapidHash request before after} (hintact : build.Intact)
    (hrep : Repeatable build.context.graph request.buildFile)
    (hrsp : RspApart build.context.graph request.buildFile) :
    after.disk.file request.buildFile = before.disk.file request.buildFile := by
  have hg := FailedBuild.wellFormed hr hintact
  have hsep : Separate build.context := hrep.separate hrsp
  have hpool := FailedBuild.reachable_seen hr hintact
  have hkept := (demand hg hsep (hrep.rspSteady hg) hpool).data.unwritten _
    hsep.unwritten_buildFile
  have hinvolved : Involved build.context.graph request.buildFile build.context.buildFile = true :=
    involved_buildFile
  rwa [disk_seen, Disk.file_restrict_of hinvolved, Disk.file_restrict_of hinvolved] at hkept

/-- The next run loads the builder that the build has loaded, and maps no file. -/
theorem FailedBuild.context_eq {request' : Request} {after' : World}
    (hr : (world rapidHash).ReachableVia EmitsIntact before)
    {build : FailedBuild rapidHash request before after} (hintact : build.Intact)
    (next : Build rapidHash request' after after')
    (hrep : Repeatable build.context.graph request.buildFile)
    (hrsp : RspApart build.context.graph request.buildFile)
    (hfile : request'.buildFile = request.buildFile)
    (hoverrides : request'.overrides = request.overrides)
    (hdry : request.dryRun = false) (hdry' : request'.dryRun = false) :
    next.Intact ∧ next.context = build.context := by
  have hafter : (world rapidHash).ReachableVia EmitsIntact after :=
    (hintact.reachable hr).step (fun _ => hintact.2) build.finish
  -- the failed run has stored what it parsed, and did not write the cache again
  obtain ⟨-, ⟨b₀, hb, hloaded⟩, -⟩ := FailedBuild.progress hr hintact
  have hgraph : b₀.graph = build.context.graph := by
    rw [← COBBuilder.graph_override b₀ request.overrides, ← hb]
    rfl
  obtain ⟨c, t, hc, ht, hlt, hloads⟩ := hloaded.2 (hgraph ▸ hrep.supported)
  -- the manifest was left alone, so the next run loads that cache
  have hstores : Stores after.disk after.cache request'.buildFile b₀ := by
    refine ⟨c, t, build.finished.2.trans hc, ?_, hlt, hloads⟩
    rw [hfile, Disk.mtime, FailedBuild.file_buildFile hr hintact hrep hrsp]
    exact ht
  have hnext : next.Intact := next.runs.intact_of_stores hstores
  obtain ⟨-, ⟨b₁, hb', hloaded'⟩, -⟩ := Build.progress hafter hnext
  obtain rfl : b₁ = b₀ := hloaded'.1 b₀ hstores
  have hbuilder : next.builder = build.builder := by rw [hb, hb', hoverrides]
  refine ⟨hnext, ?_⟩
  simp [Build.context, FailedBuild.context, stepContext, hbuilder, hfile, hdry, hdry']

/-- Restricting the disk to what is looked at changes no command. -/
theorem commandOn_restrict {ctx : StepContext} {disk : Disk} {st : BuildStep}
    (hst : st ∈ ctx.graph.steps) :
    ctx.commandOn (disk.restrict (Involved ctx.graph ctx.buildFile)) st =
      ctx.commandOn disk st := by
  have husable : (BuildData.start ctx (disk.restrict (Involved ctx.graph ctx.buildFile))).usableRsp
      ctx st = (BuildData.start ctx disk).usableRsp ctx st :=
    usableRsp_congr (Disk.file_restrict_of (involved_rspPath hst))
      (Disk.file_restrict_of involved_buildFile)
  rw [StepContext.commandOn, StepContext.commandOn, husable]

/-- After a build that failed, the next build does the work of a step that had succeeded again
exactly when the hash in the cache is not that of its command, or an input is rebuilt. -/
theorem FailedBuild.redone_iff {request' : Request} {after' : World}
    (hr : (world rapidHash).ReachableVia EmitsIntact before)
    (build : FailedBuild rapidHash request before after) (hintact : build.Intact)
    (next : Build rapidHash request' after after')
    (hrep : Repeatable build.context.graph request.buildFile)
    (hrsp : RspApart build.context.graph request.buildFile)
    (hexist : SourcesExist build.context.graph request.buildFile after.disk)
    (hfile : request'.buildFile = request.buildFile)
    (hoverrides : request'.overrides = request.overrides)
    (hdry : request.dryRun = false) (hdry' : request'.dryRun = false) {v : ℕ} {st : BuildStep}
    (hst : build.context.graph.stepOf v = some st) (hsucc : build.pool.succeeded v = true) :
    Rebuilt next.context next.pool.data v ↔
      st.commandHash ≠ (build.context.commandOn before.disk st).hash ∨
        ∃ u, build.context.graph.Edge u v ∧ Rebuilt next.context next.pool.data u := by
  have hafter : (world rapidHash).ReachableVia EmitsIntact after :=
    (hintact.reachable hr).step (fun _ => hintact.2) build.finish
  obtain ⟨hintact', hctx⟩ :=
    FailedBuild.context_eq hr hintact next hrep hrsp hfile hoverrides hdry hdry'
  have hg := FailedBuild.wellFormed hr hintact
  have hsep : Separate build.context := hrep.separate hrsp
  have hsteady : RspSteady build.context := hrep.rspSteady hg
  -- both builds are runs on the files their steps name, where the comparison of pools applies
  have hseen := SourcesExist.restrict hg hexist
  have hpool := FailedBuild.reachable_seen hr hintact
  have hout := outdated_iff_of_succeeded hg hsep hsteady hdry hpool hst hsucc hseen.1 hseen.2
  have hcommand : build.context.commandOn
      (before.disk.restrict (Involved build.context.graph request.buildFile)) st =
        build.context.commandOn before.disk st := commandOn_restrict (mem_steps_of_stepOf hst)
  rw [hcommand] at hout
  have hnext := Build.reachable_seen hafter hintact'
  rw [hctx, hfile] at hnext
  have hok : next.pool.executeResult build.context.graph = .ok () := by
    rw [← hctx]
    exact next.ok
  rw [hctx]
  exact (rebuilt_iff_of_ok hg hsep hsteady hdry hnext (joined_seen next.finished.1) hok
    (isStep_of_stepOf hst)).trans (or_congr hout Iff.rfl)

/-- The end of a build that failed, with a property of what its workers read, of the pool and of the
world after it. -/
def endsFailed (rapidHash : Bytes → UInt64 → UInt64) (io : Option FileTime)
    (q : StepContext → State BuildData Call → World → Bool) (last : World) : Bool :=
  match last.phase with
  | .executing run b _ s => decide (s.executeResult b.graph ≠ .ok ()) &&
      (last.step rapidHash (.finish io)).any (q (stepContext rapidHash run b) s)
  | _ => false

theorem exists_failedBuild {as : List Act} {io : Option FileTime}
    {q : StepContext → State BuildData Call → World → Bool}
    (h : runsIntact rapidHash request before as (endsFailed rapidHash io q) = true) :
    ∃ after, ∃ build : FailedBuild rapidHash request before after,
      build.Intact ∧ q build.context build.pool after = true := by
  obtain ⟨last, hruns, hlast⟩ := exists_runsIntact h
  unfold endsFailed at hlast
  split at hlast
  · next run b origin s hphase =>
    have hrun : last.phase.run = some run := by rw [hphase]; rfl
    obtain rfl := hruns.runsTo.request_eq hrun
    simp only [Bool.and_eq_true, decide_eq_true_eq] at hlast
    obtain ⟨hfailed, hafter⟩ := hlast
    obtain ⟨after, hfinish, hq⟩ := (Option.any_eq_true _ _).mp hafter
    exact ⟨after, ⟨run.launch, b, origin, s, last, io, hruns.runsTo, hphase, hfailed, hfinish⟩,
      hruns, hq⟩
  · cases hlast

end Failed

end Comparison

/-- A manifest with two compile steps that do not depend on each other. -/
def pairText : Bytes := ascii "DEF|cc|gcc\ncc|x.c|x.o\ncc|y.c|y.o\n"

/-- The manifest and the sources, nothing built yet. -/
def pairWorld : World where
  disk := ⟨[(ascii "catalyst.build", ⟨1, .text pairText⟩), (ascii "x.c", ⟨2, .unknown⟩),
    (ascii "y.c", ⟨2, .unknown⟩)]⟩
  cache := none
  phase := .idle

/-- The same request with two threads. -/
def twoThreads : Request := { buildRequest [] with pool := ⟨2, false⟩ }

/-- Steps of worker `i`. -/
def workerTools (i steps : ℕ) (mtime : FileTime) : List Act :=
  List.replicate steps (.work (.work i ⟨some 0, mtime⟩))

theorem reachable_pairWorld : (world sumHash).ReachableVia EmitsIntact pairWorld :=
  .init ⟨rfl, rfl, rfl⟩

/-- One thread compiles one file after the other; two threads compile them side by side. -/
theorem agree_pair : ∃ after₁ after₂,
    Nonempty (Build sumHash (buildRequest []) pairWorld after₁) ∧
    Nonempty (Build sumHash twoThreads pairWorld after₂) ∧
    after₁.cache.map Cache.image = after₂.cache.map Cache.image := by
  have hone : runsIntact sumHash (buildRequest []) pairWorld
      (firstStart [0, 2] ++ tools 12 0 20 ++ tools 15 0 30)
      (endsBuild sumHash (some 40) fun g _ => decide (Repeatable g (ascii "catalyst.build")) &&
        decide (RspApart g (ascii "catalyst.build"))) = true := by
    decide +kernel
  have htwo : runsIntact sumHash twoThreads pairWorld
      (firstStart [0, 2] ++ [.work .spawn] ++ workerTools 1 6 20 ++ workerTools 0 15 30 ++
        workerTools 1 9 50 ++ workerTools 0 3 50)
      (endsBuild sumHash (some 60) fun _ _ => true) = true := by
    decide +kernel
  obtain ⟨after₁, build₁, hintact₁, hq⟩ := exists_intactBuild hone
  obtain ⟨after₂, build₂, hintact₂, -⟩ := exists_intactBuild htwo
  simp only [Bool.and_eq_true, decide_eq_true_eq] at hq
  exact ⟨after₁, after₂, ⟨build₁⟩, ⟨build₂⟩,
    (Build.agree reachable_pairWorld build₁ build₂ hintact₁ hintact₂ rfl rfl rfl rfl hq.1 hq.2).2.2⟩

/-- The cache does not know the hash of the step. -/
def Unhashed (ctx : StepContext) (disk : Disk) (v : ℕ) : Prop :=
  ∃ st ∈ ctx.graph.stepOf v, st.commandHash ≠ (ctx.commandOn disk st).hash

instance (ctx : StepContext) (disk : Disk) (v : ℕ) : Decidable (Unhashed ctx disk v) :=
  inferInstanceAs (Decidable (∃ st ∈ ctx.graph.stepOf v, _))

/-- The first file compiles and the second does not; when that is repaired, both are compiled. -/
theorem redone_iff_pair : ∃ after after',
    ∃ build : FailedBuild sumHash (buildRequest []) pairWorld after,
      ∃ next : Build sumHash (buildRequest []) after after',
        build.pool.succeeded 0 = true ∧ Rebuilt next.context next.pool.data 0 := by
  have hfailing : runsIntact sumHash (buildRequest []) pairWorld
      (firstStart [0, 2] ++ tools 12 0 20 ++ tools 13 1 30)
      (endsFailed sumHash (some 40) fun ctx s after => s.succeeded 0 &&
        decide (Unhashed ctx pairWorld.disk 0) &&
        decide (Repeatable ctx.graph (ascii "catalyst.build")) &&
        decide (RspApart ctx.graph (ascii "catalyst.build")) &&
        decide (SourcesExist ctx.graph (ascii "catalyst.build") after.disk) &&
        runsTo sumHash (buildRequest []) after
          (secondStart [0, 2] ++ tools 12 0 50 ++ tools 15 0 60)
          (endsBuild sumHash (some 70) fun _ _ => true)) = true := by
    decide +kernel
  obtain ⟨after, build, hintact, hq⟩ := exists_failedBuild hfailing
  simp only [Bool.and_eq_true, decide_eq_true_eq] at hq
  obtain ⟨⟨⟨⟨⟨hsucc, st, hst, hne⟩, hrep⟩, hrsp⟩, hexist⟩, hnext⟩ := hq
  obtain ⟨after', next, -⟩ := exists_build hnext
  exact ⟨after, after', build, next, hsucc, (FailedBuild.redone_iff reachable_pairWorld build
    hintact next hrep hrsp hexist rfl rfl rfl rfl hst hsucc).mpr (.inl hne)⟩

end Cob
