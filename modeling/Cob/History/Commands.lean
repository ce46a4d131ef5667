import Cob.History.Dependencies
import Cob.History.Views
import Cob.Tools

/-!
# Commands across runs

A run knows from the cache which commands wrote the outputs, and only a successful run writes what
its tools did to the cache. So over a manifest that never changes, every successful run leaves
outputs that were written by its own commands, as long as no run ends with outputs that the cache
tells nothing of (`wrote_of_execute`). A run that fails after a tool has rewritten an output with
other flags is enough to break this (`not_wrote_of_execute`).

The module introduces:

* `CommandRuns` — what the histories here are promised;
* `Remembers` — no run ends with outputs that the cache tells nothing of;
* `CommandsKnown` — the invariant: usable caches and loaded graphs match the outputs.
-/

namespace Cob

open BuildGraph

/-- The path that the environment writes or removes. -/
def Act.path : Act → Option Bytes
  | .write path _ => some path
  | .overwrite path _ => some path
  | .remove path => some path
  | _ => none

namespace World

/-- The steps that the manifest declares. -/
def declared (w : World) (buildFile : Bytes) : List BuildStep :=
  match w.disk.content buildFile with
  | some text =>
    match manifestOf text with
    | .ok m => m.steps
    | .error _ => []
  | none => []

/-- The path is no output and no response file of a declared step. -/
def Spares (w : World) (buildFile path : Bytes) : Prop :=
  ∀ st ∈ w.declared buildFile, path ≠ st.output ∧ path ≠ st.rspPath

instance (w : World) (buildFile path : Bytes) : Decidable (w.Spares buildFile path) :=
  inferInstanceAs (Decidable (∀ st ∈ w.declared buildFile, _))

/-- What the workers will read when the move starts a build, as long as the mapped files are
intact. -/
def builds (rapidHash : Bytes → UInt64 → UInt64) (w : World) (a : Act) : Option StepContext :=
  match a, w.phase with
  | .execute _, .parsed run b _ =>
    some (stepContext rapidHash run (b.override run.request.overrides))
  | _, _ => none

/-- The build that the move ends without writing the cache: the graph as it was loaded, and what
the workers have left. -/
def forgets (w : World) (a : Act) : Option (BuildGraph × BuildData) :=
  match a, w.phase with
  | .finish io, .executing run b _ s =>
    if rewrites run b s ∧ io.isSome then none else some (b.graph, s.data)
  | .stop, .executing _ b _ s => some (b.graph, s.data)
  | _, _ => none

end World

/-- Runs over one manifest that never changes, none of them a dry run. Nobody else touches outputs,
response files are not involved, and `V` are the argument vectors that occur. -/
def CommandRuns (rapidHash : Bytes → UInt64 → UInt64) (V : Set (List Bytes)) (buildFile : Bytes)
    (w : World) (a : Act) : Prop :=
  OneManifest rapidHash buildFile w a ∧ (∀ request ∈ a.request, request.dryRun = false) ∧
    (∀ path ∈ a.path, w.Spares buildFile path) ∧
    ∀ ctx ∈ w.builds rapidHash a, NoRsp ctx.graph w.disk ∧
      ∀ st ∈ ctx.graph.steps, (ctx.command st).args ∈ V

instance (rapidHash : Bytes → UInt64 → UInt64) (V : Set (List Bytes)) [DecidablePred (· ∈ V)]
    (buildFile : Bytes) (w : World) (a : Act) : Decidable (CommandRuns rapidHash V buildFile w a) :=
  inferInstanceAs (Decidable (_ ∧ _))

/-- A run that ends without writing the cache has run tools only for steps whose hashes were not
known when the graph was loaded, or were those of the commands that it ran. -/
def Remembers (w : World) (a : Act) : Prop := ∀ p ∈ w.forgets a, AllRecorded p.1 p.2

instance (w : World) (a : Act) : Decidable (Remembers w a) :=
  inferInstanceAs (Decidable (∀ p ∈ w.forgets a, _))

section Commands

variable {rapidHash : Bytes → UInt64 → UInt64} {V : Set (List Bytes)} {buildFile : Bytes}
  {w w' : World} {b : COBBuilder} {origin : Origin}

/-- The hashes of the graph match the outputs. -/
def GraphMatches (V : Set (List Bytes)) (rapidHash : Bytes → UInt64 → UInt64) (disk : Disk)
    (g : BuildGraph) : Prop :=
  ∀ st ∈ g.steps, Matches V rapidHash disk st

/-- A usable cache holds the steps of the graph, with other bytes in their dependency-file inputs
perhaps. -/
def World.Holds (w : World) (buildFile : Bytes) (g : BuildGraph) : Prop :=
  ∀ c, w.usableCache buildFile = some c → ∃ f, c.builder.graph.steps = (g.renamed f).steps

/-- What is known about the commands that wrote the outputs, in each phase. -/
def CommandsKnown (rapidHash : Bytes → UInt64 → UInt64) (V : Set (List Bytes)) (buildFile : Bytes)
    (w : World) : Phase → Prop
  | .idle => ∀ c, w.usableCache buildFile = some c →
      GraphMatches V rapidHash w.disk c.builder.graph
  | .checking _ => ∀ c, w.usableCache buildFile = some c →
      GraphMatches V rapidHash w.disk c.builder.graph
  | .reading _ => w.usableCache buildFile = none
  | .emitting _ b _ => w.usableCache buildFile = none ∧ ∀ st ∈ b.graph.steps, st.commandHash = 0
  | .parsed _ b _ => w.Holds buildFile b.graph ∧ GraphMatches V rapidHash w.disk b.graph
  | .executing run b _ s => w.Holds buildFile b.graph ∧ Accounted b.graph s ∧
      Outcomes run.request.pool b.graph s ∧
      ∃ disk₀, Promised (stepContext rapidHash run b) V disk₀ ∧
        Recorded (stepContext rapidHash run b) disk₀
          { s with data := s.data.onDisk w.disk }

/-! ### What the environment leaves alone -/

/-- A usable cache was usable as long as it and the manifest are the same. -/
theorem usableCache_of_same {c : Cache} (h : w'.usableCache buildFile = some c)
    (hcache : w'.cache = w.cache) (hfile : w'.disk.file buildFile = w.disk.file buildFile) :
    w.usableCache buildFile = some c := by
  rwa [World.usableCache, hcache, Disk.mtime, hfile] at h

/-- The outputs of a builder are those that the manifest declares. -/
theorem Shows.output_declared (h : Shows origin b)
    (htext : w.disk.content buildFile = some origin.text) {st : BuildStep}
    (hst : st ∈ b.graph.steps) : ∃ st' ∈ w.declared buildFile, st.output = st'.output := by
  obtain ⟨b₀, st₀, depfileInputs, commandHash, hb₀, hst₀, rfl⟩ := h.exists_step hst
  obtain ⟨m, hm, -, hsteps⟩ := steps_parseText hb₀
  rw [hsteps] at hst₀
  obtain ⟨st', hst', rfl⟩ := List.mem_map.mp hst₀
  refine ⟨st', by simpa [World.declared, htext, hm] using hst', ?_⟩
  exact (splitInputs_frame st').2.2.1

/-- What touches neither outputs nor response files of the declared steps keeps those of a
builder. -/
theorem Shows.sameOutputs (h : Shows origin b)
    (htext : w.disk.content buildFile = some origin.text)
    (hkeep : ∀ st ∈ w.declared buildFile, w'.disk.file st.output = w.disk.file st.output ∧
      w'.disk.file st.rspPath = w.disk.file st.rspPath) :
    SameOutputs b.graph w.disk w'.disk := by
  intro st hst
  obtain ⟨st', hst', hout⟩ := h.output_declared htext hst
  have hrsp : st.rspPath = st'.rspPath := by rw [BuildStep.rspPath, hout]; rfl
  rw [hout, hrsp]
  exact hkeep st' hst'

theorem GraphMatches.frame {g : BuildGraph} {disk disk' : Disk}
    (h : GraphMatches V rapidHash disk g) (hsame : SameOutputs g disk disk') :
    GraphMatches V rapidHash disk' g := by
  intro st hst
  refine (h st hst).imp_right fun hmade f hf => hmade f ?_
  rwa [(hsame st hst).1] at hf

/-- Dependency-file inputs do not matter for the outputs. -/
theorem GraphMatches.renamed {g g' : BuildGraph} {disk : Disk} {f : Bytes → Bytes}
    (h : GraphMatches V rapidHash disk g) (hsteps : g'.steps = (g.renamed f).steps) :
    GraphMatches V rapidHash disk g' := by
  intro st hst
  rw [hsteps] at hst
  obtain ⟨st₀, hst₀, rfl⟩ := List.mem_map.mp hst
  exact h st₀ hst₀

theorem World.Holds.graphMatches {g : BuildGraph} (h : w.Holds buildFile g) {disk : Disk}
    (hg : GraphMatches V rapidHash disk g) {c : Cache} (hc : w.usableCache buildFile = some c) :
    GraphMatches V rapidHash disk c.builder.graph := by
  obtain ⟨f, hf⟩ := h c hc
  exact hg.renamed hf

/-- What the environment does to a manifest and outputs it leaves alone changes nothing. -/
theorem CommandsKnown.frame {Q : Run → Prop} (htraced : Traced Shows w)
    (horigins : Origins (fun disk origin => disk.content buildFile = some origin.text) Q w)
    (h : CommandsKnown rapidHash V buildFile w w.phase)
    (hcache : ∀ c, w'.usableCache buildFile = some c → w.usableCache buildFile = some c)
    (hkeep : ∀ st ∈ w.declared buildFile, w'.disk.file st.output = w.disk.file st.output ∧
      w'.disk.file st.rspPath = w.disk.file st.rspPath) :
    CommandsKnown rapidHash V buildFile w' w.phase := by
  -- a builder that the cache holds declares no other outputs than the manifest did
  have hcached : (∀ c, w.usableCache buildFile = some c →
        GraphMatches V rapidHash w.disk c.builder.graph) →
      ∀ c, w'.usableCache buildFile = some c →
        GraphMatches V rapidHash w'.disk c.builder.graph := by
    intro hmatches c hc
    have hold := (usableCache_eq (hcache c hc)).1
    exact (hmatches c (hcache c hc)).frame
      ((htraced.cache c hold).sameOutputs (horigins.cache c hold) hkeep)
  have hnone : w.usableCache buildFile = none → w'.usableCache buildFile = none := by
    intro hno
    exact Option.eq_none_iff_forall_ne_some.mpr fun c hc => by simpa [hno] using hcache c hc
  obtain ⟨-, htraced⟩ := htraced
  have htext := horigins.origin
  cases hp : w.phase with
  | idle =>
    rw [hp] at h
    exact hcached h
  | checking run =>
    rw [hp] at h
    exact hcached h
  | reading run =>
    rw [hp] at h
    exact hnone h
  | emitting run b origin =>
    rw [hp] at h
    exact ⟨hnone h.1, h.2⟩
  | parsed run b origin =>
    rw [hp] at h htraced htext
    have hsame := Shows.sameOutputs htraced (htext origin rfl) hkeep
    exact ⟨fun c hc => h.1 c (hcache c hc), h.2.frame hsame⟩
  | executing run b origin s =>
    rw [hp] at h htraced htext
    have hsame := Shows.sameOutputs htraced (htext origin rfl) hkeep
    obtain ⟨hholds, hacc, hout, disk₀, hpromised, hrecorded⟩ := h
    exact ⟨fun c hc => hholds c (hcache c hc), hacc, hout, disk₀, hpromised,
      hrecorded.onDisk hsame⟩

/-! ### The steps of a run -/

/-- Over one manifest, every origin has its text and no run is a dry run. -/
theorem origins_commandRuns {G : World → Act → Prop}
    (h : (world rapidHash).ReachableVia
      (fun w a => CommandRuns rapidHash V buildFile w a ∧ G w a) w) :
    Origins (fun disk origin => disk.content buildFile = some origin.text)
      (fun run => run.request.buildFile = buildFile ∧ run.request.dryRun = false) w := by
  refine origins_via ?_ ?_ ?_ ?_ h
  · exact fun w request hG => ⟨hG.1.1.1 request rfl, hG.1.2.1 request rfl⟩
  · exact fun disk run text hrun htext => hrun.1 ▸ htext
  · exact fun disk origin run _ hP => hP
  · intro w a w' origin hG hstep hP
    exact (Disk.content_congr (hG.1.1.2 w' hstep)).trans hP

/-- A build whose commands are told apart can be written to the cache. -/
theorem Promised.exists_emitBin {run : Run} {disk₀ : Disk} (w : World) (s : State BuildData Call)
    (h : Promised (stepContext rapidHash run b) V disk₀) :
    ∃ image, emitBin (w.shown (b.built s)) = .ok image := by
  refine Cob.exists_emitBin fun st' hst' => ?_
  obtain ⟨st₁, hst₁, rfl⟩ := List.mem_map.mp hst'
  obtain ⟨k, hk⟩ := List.mem_iff_getElem?.mp hst₁
  obtain ⟨st, hst, heq⟩ := (same_setHashes b.graph s.data.commandHash).getElem? hk
  have hne : ((stepContext rapidHash run b).command st).args ≠ [] := by
    intro hnil
    refine h.separates.ne_zero _ (h.vectors st (List.mem_of_getElem? hst)) ?_
    rw [hnil]
    rfl
  have htool : (st₁.renamed (shownPath w.mapped (b.built s).graph.steps)).tool = st.tool := by
    rw [BuildStep.eq_of_clearHash heq]
    rfl
  rw [htool]
  exact isSome_toolKindFromString_iff.mpr (args_ne_nil_iff.mp hne)

/-- The hashes of a build match the outputs once everybody has returned. -/
theorem Recorded.graphMatches_built {run : Run} {disk₀ : Disk} {s : State BuildData Call}
    (hp : Promised (stepContext rapidHash run b) V disk₀)
    (h : Recorded (stepContext rapidHash run b) disk₀ s) (hjoin : s.Joined run.request.pool) :
    GraphMatches V rapidHash s.data.disk (b.built s).graph := by
  intro st' hst'
  obtain ⟨k, hk⟩ := List.mem_iff_getElem?.mp hst'
  simp only [COBBuilder.built, BuildGraph.setHashes, List.getElem?_mapIdx] at hk
  obtain ⟨st, hst, rfl⟩ := Option.map_eq_some_iff.mp hk
  exact h.matches_built hp hjoin hst

/-- In a history in which no run ends with outputs that the cache tells nothing of, the hashes match
the outputs. -/
theorem commandsKnown (hsep : Separates V rapidHash)
    (h : (world rapidHash).ReachableVia
      (fun w a => CommandRuns rapidHash V buildFile w a ∧ Remembers w a) w) :
    CommandsKnown rapidHash V buildFile w w.phase := by
  refine Machine.ReachableVia.invariant
    (I := fun w => CommandsKnown rapidHash V buildFile w w.phase) ?_ ?_ h
  · rintro w ⟨hcache, hphase, -⟩
    rw [hphase]
    intro c hc
    simp [World.usableCache, hcache] at hc
  · rintro w a w' hr hI ⟨⟨⟨-, hkeeps⟩, -, hspares, hbuilds⟩, hremembers⟩ hstep
    have htraced := shows hr.reachable
    have horigins := origins_commandRuns hr
    have hfile := hkeeps w' hstep
    have hphase := htraced.phase
    have hrun := horigins.run
    cases worldStep_cases hstep with
    | @write path f =>
      refine CommandsKnown.frame (w := w) htraced horigins hI
        (fun c hc => usableCache_of_same hc rfl hfile) ?_
      intro st hst
      obtain ⟨hout, hrsp⟩ := hspares path rfl st hst
      exact ⟨Disk.file_write_of_ne hout.symm, Disk.file_write_of_ne hrsp.symm⟩
    | @overwrite path f =>
      refine CommandsKnown.frame (w := w) htraced horigins hI
        (fun c hc => usableCache_of_same hc rfl hfile) ?_
      intro st hst
      obtain ⟨hout, hrsp⟩ := hspares path rfl st hst
      exact ⟨Disk.file_write_of_ne hout.symm, Disk.file_write_of_ne hrsp.symm⟩
    | @remove path =>
      refine CommandsKnown.frame (w := w) htraced horigins hI
        (fun c hc => usableCache_of_same hc rfl hfile) ?_
      intro st hst
      obtain ⟨hout, hrsp⟩ := hspares path rfl st hst
      exact ⟨Disk.file_remove_of_ne hout.symm, Disk.file_remove_of_ne hrsp.symm⟩
    | removeCache =>
      refine CommandsKnown.frame (w := w) htraced horigins hI ?_ fun _ _ => ⟨rfl, rfl⟩
      simp [World.usableCache]
    | launch hp =>
      rw [hp] at hI
      exact hI
    | @useCache run c hp hc =>
      rw [hp] at hI hrun
      obtain ⟨hbuild, -⟩ := hrun run rfl
      rw [hbuild] at hc
      refine ⟨fun c' hc' => ⟨id, ?_⟩, hI c hc⟩
      obtain rfl := Option.some.inj (hc.symm.trans hc')
      rw [BuildGraph.renamed_of_eq (f := id) fun _ => rfl]
      rfl
    | @rejectCache run hp hnone =>
      rw [hp] at hrun
      exact (hrun run rfl).1 ▸ hnone
    | readFailed hp =>
      rw [hp] at hI
      intro c hc
      change w.usableCache buildFile = some c at hc
      simp [show w.usableCache buildFile = none from hI] at hc
    | read hp _ hb =>
      rw [hp] at hI
      refine ⟨hI, fun st hst => ?_⟩
      obtain ⟨m, hm, -, hsteps⟩ := steps_parseText hb
      rw [hsteps] at hst
      obtain ⟨st₀, hst₀, rfl⟩ := List.mem_map.mp hst
      exact (splitInputs_frame st₀).2.2.2.2.2.trans (raw_manifestOf hm st₀ hst₀).commandHash
    | @emit run b b' origin io hp hb' =>
      rw [hp] at hI hphase
      obtain ⟨hnone, hzero⟩ := hI
      refine ⟨fun c hc => ?_, fun st hst => .inl (hzero st hst)⟩
      obtain ⟨hcache, f, hf, hlt⟩ := usableCache_eq hc
      rcases emitted_cases hcache with hold | ⟨-, himage, -⟩
      · have hused : w.usableCache buildFile = some c := by
          have hfile : w.disk.file buildFile = some f := hf
          simp [World.usableCache, hold, Disk.mtime, hfile, hlt]
        simp [hnone] at hused
      · refine ⟨shownPath w.mapped b.graph.steps, ?_⟩
        rw [Cache.builder, (Shows.shown hphase w).parseBin_eq (hb' ▸ himage)]
        rfl
    | @execute run b₀ b b' origin order hp hb hb' horder =>
      rw [hp] at hI hrun hphase
      obtain ⟨hholds, hmatches⟩ := hI
      have hgraph : b.graph = b₀.graph := by rw [hb, COBBuilder.graph_override]
      obtain ⟨hrsp, hvectors⟩ := hbuilds (stepContext rapidHash run b) (by
        simp [World.builds, hp, hb])
      refine ⟨hgraph ▸ hholds, accounted_initialState horder _,
        outcomes_initialState horder _, w.disk, ⟨?_, (hrun run rfl).2, hsep, hvectors, ?_⟩, ?_⟩
      · show b.graph.Linked
        exact hgraph ▸ Shows.linked hphase
      · show GraphMatches V rapidHash w.disk b.graph
        exact hgraph ▸ hmatches
      · show Recorded _ _
          (initialState b.graph order (.start (stepContext rapidHash run b') w.disk))
        refine recorded_initialState hrsp horder rfl rfl fun k st hst => ?_
        have hshown : b'.graph.steps[k]? =
            some (st.renamed (shownPath w.mapped b.graph.steps)) := by
          rw [hb']
          exact getElem?_renamed hst
        simp [BuildData.start, stepContext, hshown, BuildStep.renamed]
    | @work run b b' origin s action s' hp hb' hs =>
      rw [hp] at hI
      obtain ⟨hholds, hacc, hout, disk₀, hpromised, hrecorded⟩ := hI
      have hacc' := hacc.withData (s.data.onDisk w.disk)
      have hmove := poolStep_cases hs
      -- the workers see the graph through the mapped files
      have hshown : stepContext rapidHash run b' = (stepContext rapidHash run b).renamed
          (shownPath w.mapped b.graph.steps) := by rw [hb']; rfl
      rw [hshown, ← poolStep_renamed] at hs
      refine ⟨fun c hc => hholds c (usableCache_of_same hc rfl hfile),
        hacc'.poolStep hpromised.linked hmove, (hout.withData _).poolStep hmove, disk₀,
        hpromised, ?_⟩
      exact (hrecorded.renamed.poolStep hpromised.renamed hacc'.renamed
        (poolStep_cases hs)).of_renamed
    | @rewrite run b b' origin s io hp hjoin hrw hb' =>
      rw [hp] at hI hphase
      obtain ⟨hholds, -, -, disk₀, hpromised, hrecorded⟩ := hI
      intro c hc
      cases io with
      | none =>
        have hall := hremembers (b.graph, s.data) (by simp [World.forgets, hp])
        have hold : w.usableCache buildFile = some c := by
          simpa [World.usableCache, World.emitted] using hc
        exact hholds.graphMatches (hrecorded.matches_of_allRecorded hpromised hall) hold
      | some mtime =>
        obtain ⟨image, himage⟩ := hpromised.exists_emitBin w s
        have hcache := (usableCache_eq hc).1
        rw [← hb'] at himage
        simp only [World.emitted, himage, Option.some.injEq] at hcache
        refine (hrecorded.graphMatches_built hpromised hjoin).renamed
          (f := shownPath w.mapped (b.built s).graph.steps) ?_
        rw [← hcache, Cache.builder,
          ((Shows.built hphase s).shown w).parseBin_eq (hb' ▸ himage)]
        rfl
    | @finish run b origin s io hp hjoin hrw =>
      rw [hp] at hI
      obtain ⟨hholds, -, -, disk₀, hpromised, hrecorded⟩ := hI
      have hall := hremembers (b.graph, s.data) (by simp [World.forgets, hp, hrw])
      intro c hc
      exact hholds.graphMatches (hrecorded.matches_of_allRecorded hpromised hall) hc
    | stop hne =>
      cases hp : w.phase with
      | idle => exact absurd hp hne
      | checking run =>
        rw [hp] at hI
        exact hI
      | reading run =>
        rw [hp] at hI
        intro c hc
        change w.usableCache buildFile = some c at hc
        simp [show w.usableCache buildFile = none from hI] at hc
      | emitting run b origin =>
        rw [hp] at hI
        intro c hc
        change w.usableCache buildFile = some c at hc
        simp [hI.1] at hc
      | parsed run b origin =>
        rw [hp] at hI
        intro c hc
        exact hI.1.graphMatches hI.2 hc
      | executing run b origin s =>
        rw [hp] at hI
        obtain ⟨hholds, -, -, disk₀, hpromised, hrecorded⟩ := hI
        have hall := hremembers (b.graph, s.data) (by simp [World.forgets, hp])
        intro c hc
        exact hholds.graphMatches (hrecorded.matches_of_allRecorded hpromised hall) hc

/-- In a history in which no run ends with outputs that the cache tells nothing of, a successful
run leaves outputs that were written by the commands of this run. -/
theorem wrote_of_execute (hsep : Separates V rapidHash)
    (h : (world rapidHash).ReachableVia
      (fun w a => CommandRuns rapidHash V buildFile w a ∧ Remembers w a) w) {run : Run}
    {s : State BuildData Call} (hp : w.phase = .executing run b origin s)
    (hjoin : s.Joined run.request.pool) (hok : s.executeResult b.graph = .ok ()) :
    ∀ st ∈ b.graph.steps, Wrote (stepContext rapidHash run b) w.disk st := by
  have hknown := commandsKnown hsep h
  rw [hp] at hknown
  obtain ⟨-, hacc, hout, disk₀, hpromised, hrecorded⟩ := hknown
  exact hrecorded.wrote_of_ok hpromised (hacc.withData _) (hout.withData _) hjoin hok

end Commands

/-! ### A failed run -/

/-- A manifest that links `a` from `s`, then `b` from `a`. -/
def relinkText : Bytes := ascii "DEF|linker|ld\nld|s|a\nld|a|b\n"

/-- The manifest and the source, nothing built yet. -/
def relinkWorld : World where
  disk := ⟨[(ascii "catalyst.build", ⟨1, .text relinkText⟩), (ascii "s", ⟨2, .unknown⟩)]⟩
  cache := none
  phase := .idle

/-- Steps of the only worker, with how its tools end. -/
def tools (steps : ℕ) (code : ℤ) (mtime : FileTime) : List Act :=
  List.replicate steps (.work (.work 0 ⟨some code, mtime⟩))

/-- A first run that builds everything. -/
def firstLink : List Act :=
  [.launch (buildRequest []), .check, .read, .emit (some 10), .execute [0], .work .spawn] ++
    tools 20 0 20 ++ tools 11 0 30 ++ [.finish (some 40)]

/-- The start of a run that uses the cache. -/
def relink (overrides : List (Bytes × Bytes)) : List Act :=
  [.launch (buildRequest overrides), .check, .execute [0], .work .spawn]

/-- The overrides of a run with another linker. -/
def otherLinker : List (Bytes × Bytes) := [(ascii "linker", ascii "gold")]

/-- The argument vectors that occur. -/
def relinkVectors : List (List Bytes) :=
  [ascii "ld", ascii "gold"].flatMap fun linker =>
    [[linker, ascii "s", ascii "-o", ascii "a"], [linker, ascii "a", ascii "-o", ascii "b"]]

theorem separates_relinkVectors : Separates {args | args ∈ relinkVectors} sumHash where
  injOn args hargs args' hargs' heq := by
    have hall : ∀ x ∈ relinkVectors, ∀ y ∈ relinkVectors,
        hashCommand sumHash x = hashCommand sumHash y → x = y := by decide +kernel
    exact hall args hargs args' hargs' heq
  ne_zero args hargs := by
    have hall : ∀ x ∈ relinkVectors, hashCommand sumHash x ≠ 0 := by decide +kernel
    exact hall args hargs

instance : DecidablePred (· ∈ {args | args ∈ relinkVectors}) := fun args =>
  inferInstanceAs (Decidable (args ∈ relinkVectors))

/-- The run in progress has been successful. -/
def World.succeeded (w : World) : Bool :=
  match w.phase with
  | .executing run b _ s => s.Joined run.request.pool ∧ s.executeResult b.graph = .ok ()
  | _ => false

/-- A run with another linker after the first one: everything is linked again. -/
theorem wrote_of_execute_relink : ∃ w run b origin s,
    (world sumHash).ReachableVia (fun w a =>
      CommandRuns sumHash {args | args ∈ relinkVectors} (ascii "catalyst.build") w a ∧
        Remembers w a) w ∧
    w.phase = .executing run b origin s ∧
    ∀ st ∈ b.graph.steps, Wrote (stepContext sumHash run b) w.disk st := by
  obtain ⟨w, hvia, hw⟩ := Machine.exists_via_of_exec (M := world sumHash)
    (G := fun w a =>
      CommandRuns sumHash {args | args ∈ relinkVectors} (ascii "catalyst.build") w a ∧
        Remembers w a) (s := relinkWorld) ⟨rfl, rfl, rfl⟩
    (firstLink ++ relink otherLinker ++ tools 16 0 50 ++ tools 15 0 60) World.succeeded
    (by decide +kernel)
  unfold World.succeeded at hw
  split at hw
  · next run b origin s hp =>
    obtain ⟨hjoin, hok⟩ := of_decide_eq_true hw
    exact ⟨w, run, b, origin, s, hvia, hp,
      wrote_of_execute separates_relinkVectors hvia hp hjoin hok⟩
  · simp at hw

/-- Nobody kills a run, and the cache can always be written. -/
def Undisturbed (_ : World) : Act → Bool
  | .stop => false
  | .emit io => io.isSome
  | .finish io => io.isSome
  | _ => true

/-- An output of a successful run was written by another command. -/
def foreignOutput (w : World) : Bool :=
  match w.phase with
  | .executing run b _ _ => w.succeeded && b.graph.steps.any fun st =>
      decide ((w.disk.file st.output).map File.contents ≠
        some (.made ((stepContext sumHash run b).command st).args))
  | _ => false

/-- The second run links `a` with another linker and fails to link `b`. The third run finds the
hashes of the first one, so it leaves `a` as it is. -/
theorem not_wrote_of_execute : ¬ ∀ (rapidHash : Bytes → UInt64 → UInt64) (V : Set (List Bytes))
    (buildFile : Bytes) (w : World) (run : Run) (b : COBBuilder) (origin : Origin)
    (s : State BuildData Call), Separates V rapidHash →
    (world rapidHash).ReachableVia (fun w a =>
      CommandRuns rapidHash V buildFile w a ∧ Undisturbed w a = true) w →
    w.phase = .executing run b origin s → s.Joined run.request.pool →
    s.executeResult b.graph = .ok () →
    ∀ st ∈ b.graph.steps, Wrote (stepContext rapidHash run b) w.disk st := by
  intro hall
  -- link, relink with another linker up to the failing step, then build with the first again
  obtain ⟨w, hvia, hw⟩ := Machine.exists_via_of_exec (M := world sumHash)
    (G := fun w a =>
      CommandRuns sumHash {args | args ∈ relinkVectors} (ascii "catalyst.build") w a ∧
        Undisturbed w a = true) (s := relinkWorld) ⟨rfl, rfl, rfl⟩
    (firstLink ++ relink otherLinker ++ tools 16 0 50 ++ tools 13 1 60 ++ [.finish (some 70)] ++
      relink [] ++ tools 34 0 80) foreignOutput
    (by decide +kernel)
  unfold foreignOutput at hw
  split at hw
  · next run b origin s hp =>
    obtain ⟨hsucceeded, hforeign⟩ := Bool.and_eq_true_iff.mp hw
    simp only [World.succeeded, hp, decide_eq_true_eq] at hsucceeded
    obtain ⟨st, hst, hne⟩ := List.any_eq_true.mp hforeign
    obtain ⟨t, ht⟩ := hall _ _ _ w run b origin s separates_relinkVectors hvia hp hsucceeded.1
      hsucceeded.2 st hst
    exact of_decide_eq_true hne (by rw [ht]; rfl)
  · simp at hw

end Cob
