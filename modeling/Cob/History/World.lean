import Cob.Executor.ProcessStep
import Cob.Executor.Seeding
import Cob.Graph.Mapping
import Cob.Lib.Machine
import Cob.Parser

/-!
# Histories of runs

The runs of `cob` in one directory, one after the other, and everything else that happens to its
files. A run is `main` cut at the points where it reads or writes a file: it looks for a usable
cache, maps the manifest and parses it, writes the cache, executes, and may write the cache again.
Between any two of these steps the environment may write or remove files. The workers are those
of the worker pool; writing `.catalyst.bin` may fail.

The cache file is kept apart from the disk, as nobody but `cob` writes it. A run that has parsed the
manifest keeps the dependency files mapped. Replacing a mapped file does not change what the run
sees, rewriting it in place does. The manifest and the cache are always replaced, and so are the
files that `Act.work` writes.

`Origin` is a history variable that travels with builders and caches, and `Run.launch` another one:
no step reads them.

The module introduces:

* `World` — the disk, the cache and the run in progress;
* `World.step`, `world` — the steps, as a machine;
* `WorldStep` — what a step can do, one constructor for each branch.
-/

namespace Cob

/-- What `main` was asked to do. -/
structure Request where
  buildFile : Bytes
  /-- `definition_overrides` -/
  overrides : List (Bytes × Bytes)
  pool : PoolConfig
  dryRun : Bool
  /-- `execute` is called, and not one of the other modes. -/
  builds : Bool
  deriving DecidableEq

/-- Where the contents of a builder or a cache come from: the text that was parsed, the disk at
that time, and the overrides of the runs that rewrote the cache since. -/
structure Origin where
  text : Bytes
  disk : Disk
  overrides : List (Bytes × Bytes)
  deriving DecidableEq

/-- `.catalyst.bin`. -/
structure Cache where
  mtime : FileTime
  image : CacheImage
  origin : Origin
  deriving DecidableEq

/-- A run in progress, with the disk it was launched on. -/
structure Run where
  request : Request
  launch : Disk
  deriving DecidableEq

/-- Where `main` is. -/
inductive Phase where
  /-- no run is in progress -/
  | idle
  /-- `parse` is called -/
  | checking (run : Run)
  /-- `parse` has found no usable cache -/
  | reading (run : Run)
  /-- the text is parsed, `emitBin` in `parse` comes next -/
  | emitting (run : Run) (builder : COBBuilder) (origin : Origin)
  /-- `parse` has returned -/
  | parsed (run : Run) (builder : COBBuilder) (origin : Origin)
  /-- the workers run; the overrides are applied -/
  | executing (run : Run) (builder : COBBuilder) (origin : Origin) (pool : State BuildData Call)

/-- The run in progress. -/
def Phase.run : Phase → Option Run
  | .idle => none
  | .checking run => some run
  | .reading run => some run
  | .emitting run _ _ => some run
  | .parsed run _ _ => some run
  | .executing run _ _ _ => some run

/-- A directory with the run in progress. -/
structure World where
  disk : Disk
  cache : Option Cache
  phase : Phase
  /-- the dependency files that the run has mapped -/
  mapped : List Mapping := []

/-- What can happen. `io` is the time of a cache that is written, none when writing fails. -/
inductive Act where
  /-- the environment writes a file, in the place of the one that was there -/
  | write (path : Bytes) (file : File)
  /-- the environment rewrites a file in place -/
  | overwrite (path : Bytes) (file : File)
  /-- the environment removes a file -/
  | remove (path : Bytes)
  /-- the environment removes the cache -/
  | removeCache
  | launch (request : Request)
  /-- `parse` compares the times of the cache and the manifest -/
  | check
  /-- `parse` maps the manifest and parses it -/
  | read
  /-- `emitBin` in `parse` -/
  | emit (io : Option FileTime)
  /-- `execute` up to spawning, with an order of the initial tasks -/
  | execute (order : List ℕ)
  /-- a step of the pool -/
  | work (action : Action Outcome)
  /-- `execute` after joining, with `emitBin` -/
  | finish (io : Option FileTime)
  /-- the run ends early: another mode, an empty graph, a cycle, or the process is killed -/
  | stop

/-- The request of a launch. -/
def Act.request : Act → Option Request
  | .launch request => some request
  | _ => none

namespace BuildGraph

/-- The graph with the command hashes of a build. -/
def setHashes (g : BuildGraph) (commandHash : ℕ → UInt64) : BuildGraph :=
  { g with steps := g.steps.mapIdx fun k st => { st with commandHash := commandHash k } }

end BuildGraph

/-- What the workers of a run read. -/
def stepContext (rapidHash : Bytes → UInt64 → UInt64) (run : Run) (b : COBBuilder) :
    StepContext where
  graph := b.graph
  flags := .ofDefinitions b.definitions
  buildFile := run.request.buildFile
  dryRun := run.request.dryRun
  rapidHash := rapidHash

/-- A build whose result `execute` writes to the cache. -/
def rewrites (run : Run) (b : COBBuilder) (s : State BuildData Call) : Bool :=
  s.executeResult b.graph = .ok () ∧ run.request.dryRun = false ∧ s.data.hashesChanged = true

/-- The builder with the command hashes of a build. -/
def COBBuilder.built (b : COBBuilder) (s : State BuildData Call) : COBBuilder :=
  { b with graph := b.graph.setHashes s.data.commandHash }

/-- The origin after the overrides of a run went into the cache. -/
def Origin.override (origin : Origin) (overrides : List (Bytes × Bytes)) : Origin :=
  { origin with overrides := origin.overrides ++ overrides }

namespace World

/-- The cache that `parse` loads: one that is newer than the manifest. -/
def usableCache (w : World) (buildFile : Bytes) : Option Cache :=
  match w.cache, w.disk.mtime buildFile with
  | some cache, some time => if time < cache.mtime then some cache else none
  | _, _ => none

/-- The cache after `emitBin`. -/
def emitted (w : World) (b : COBBuilder) (origin : Origin) (io : Option FileTime) : Option Cache :=
  match emitBin b, io with
  | .ok image, some mtime => some ⟨mtime, image, origin⟩
  | _, _ => w.cache

/-- `parse`, when nothing happens between its steps. -/
def parse (w : World) (buildFile : Bytes) : Option COBBuilder :=
  match w.usableCache buildFile with
  | some cache => some (parseBin cache.image .empty)
  | none => (w.disk.content buildFile).bind fun text =>
      (parseText w.disk.content text .empty).toOption

/-- After mapping and parsing the manifest, and with it the dependency files. -/
def afterRead (w : World) (run : Run) : World :=
  match w.disk.content run.request.buildFile with
  | none => { w with phase := .idle }
  | some text =>
    match parseText w.disk.content text .empty with
    | .error _ => { w with phase := .idle }
    | .ok b =>
      { w with
        phase := .emitting run b ⟨text, w.disk, []⟩
        mapped := mappings w.disk.content b.graph.steps }

/-- What the builder shows through the files that the run has mapped. -/
def shown (w : World) (b : COBBuilder) : COBBuilder := b.shown w.mapped

/-- The mapped files show the paths that were parsed. -/
def Intact (w : World) : Prop := ∀ m ∈ w.mapped, m.Intact

instance (w : World) : Decidable w.Intact := inferInstanceAs (Decidable (∀ m ∈ w.mapped, m.Intact))

/-- The mapped files after the workers have changed the disk. -/
def remapped (w : World) (disk : Disk) : List Mapping :=
  w.mapped.map fun m => if disk.file m.path = w.disk.file m.path then m else m.detach m.path

/-- `execute` gets as far as spawning the workers. -/
def canExecute (run : Run) (b : COBBuilder) (order : List ℕ) : Bool :=
  run.request.builds ∧ b.graph.nodes ≠ [] ∧ noCycle b.graph ∧ order.Perm (rootNodes b.graph)

variable (rapidHash : Bytes → UInt64 → UInt64)

/-- One step of the world, `none` when it is not possible now. -/
def step (w : World) (a : Act) : Option World :=
  match a, w.phase with
  -- another file takes the name: what is mapped keeps its bytes
  | .write path file, _ =>
    some { w with disk := w.disk.write path file, mapped := w.mapped.map (Mapping.detach path) }
  -- in place: what is mapped shows the new bytes; the manifest of the run is not rewritten so
  | .overwrite path file, phase =>
    if phase.run.any (·.request.buildFile = path) then none
    else
      let disk := w.disk.write path file
      some { w with
        disk
        mapped := w.mapped.map (Mapping.overwrite path ((disk.content path).getD [])) }
  | .remove path, _ =>
    some { w with disk := w.disk.remove path, mapped := w.mapped.map (Mapping.detach path) }
  | .removeCache, _ => some { w with cache := none }
  | .launch request, .idle =>
    if (w.disk.file request.buildFile).isSome then
      some { w with phase := .checking ⟨request, w.disk⟩, mapped := [] }
    else none
  -- the times of the cache and the manifest are all that is compared
  | .check, .checking run =>
    match w.usableCache run.request.buildFile with
    | some cache => some { w with phase := .parsed run (parseBin cache.image .empty) cache.origin }
    | none => some { w with phase := .reading run }
  | .read, .reading run => some (w.afterRead run)
  | .emit io, .emitting run b origin =>
    some { w with phase := .parsed run b origin, cache := w.emitted (w.shown b) origin io }
  -- the overrides stay in the builder that is emitted at the end
  | .execute order, .parsed run b origin =>
    let b := b.override run.request.overrides
    if canExecute run b order then
      some { w with
        phase := .executing run b origin
          (initialState b.graph order
            (.start (stepContext rapidHash run (w.shown b)) w.disk)) }
    else none
  -- the files may have changed since the last step of the pool
  | .work action, .executing run b origin s =>
    (poolStep (processStep (stepContext rapidHash run (w.shown b))) run.request.pool b.graph
      { s with data := { s.data with disk := w.disk } } action).map fun s' =>
        { w with
          phase := .executing run b origin s'
          disk := s'.data.disk
          mapped := w.remapped s'.data.disk }
  -- the strings of the builder are emitted as the mapped files show them now
  | .finish io, .executing run b origin s =>
    if s.Joined run.request.pool then
      some { w with
        phase := .idle
        cache :=
          if rewrites run b s then
            w.emitted (w.shown (b.built s)) (origin.override run.request.overrides) io
          else w.cache }
    else none
  | .stop, .idle => none
  -- wherever the run is, the files stay as they are
  | .stop, _ => some { w with phase := .idle }
  | _, _ => none

/-- The move leaves the file as it is. -/
def Keeps (w : World) (a : Act) (path : Bytes) : Prop :=
  ∀ w' ∈ w.step rapidHash a, w'.disk.file path = w.disk.file path

instance (w : World) (a : Act) (path : Bytes) : Decidable (w.Keeps rapidHash a path) :=
  inferInstanceAs (Decidable (∀ w' ∈ w.step rapidHash a, _))

variable {w : World}

/-- As long as the mapped files show what was parsed, so do the builders. -/
theorem Intact.shown_eq (h : w.Intact) (b : COBBuilder) : w.shown b = b :=
  COBBuilder.shown_of_intact h

end World

/-- The histories that begin without a cache and without a run. -/
def world (rapidHash : Bytes → UInt64 → UInt64) : Machine World Act where
  init w := w.cache = none ∧ w.phase = .idle ∧ w.mapped = []
  step := World.step rapidHash

/-- What a step of the world can do; `b'` is what the builder of the run shows. -/
inductive WorldStep (rapidHash : Bytes → UInt64 → UInt64) (w : World) : Act → World → Prop
  | write {path file} : WorldStep rapidHash w (.write path file)
      { w with disk := w.disk.write path file, mapped := w.mapped.map (Mapping.detach path) }
  | overwrite {path file shown} : WorldStep rapidHash w (.overwrite path file)
      { w with
        disk := w.disk.write path file
        mapped := w.mapped.map (Mapping.overwrite path shown) }
  | remove {path} : WorldStep rapidHash w (.remove path)
      { w with disk := w.disk.remove path, mapped := w.mapped.map (Mapping.detach path) }
  | removeCache : WorldStep rapidHash w .removeCache { w with cache := none }
  | launch {request} : w.phase = .idle →
      WorldStep rapidHash w (.launch request)
        { w with phase := .checking ⟨request, w.disk⟩, mapped := [] }
  | useCache {run cache} : w.phase = .checking run →
      w.usableCache run.request.buildFile = some cache →
      WorldStep rapidHash w .check
        { w with phase := .parsed run (parseBin cache.image .empty) cache.origin }
  | rejectCache {run} : w.phase = .checking run → w.usableCache run.request.buildFile = none →
      WorldStep rapidHash w .check { w with phase := .reading run }
  | readFailed {run} : w.phase = .reading run →
      WorldStep rapidHash w .read { w with phase := .idle }
  | read {run text b} : w.phase = .reading run →
      w.disk.content run.request.buildFile = some text →
      parseText w.disk.content text .empty = .ok b →
      WorldStep rapidHash w .read
        { w with
          phase := .emitting run b ⟨text, w.disk, []⟩
          mapped := mappings w.disk.content b.graph.steps }
  | emit {run b b' origin io} : w.phase = .emitting run b origin → b' = w.shown b →
      WorldStep rapidHash w (.emit io)
        { w with phase := .parsed run b origin, cache := w.emitted b' origin io }
  | execute {run b₀ b b' origin order} : w.phase = .parsed run b₀ origin →
      b = b₀.override run.request.overrides → b' = w.shown b →
      order.Perm (rootNodes b.graph) →
      WorldStep rapidHash w (.execute order)
        { w with
          phase := .executing run b origin
            (initialState b.graph order (.start (stepContext rapidHash run b') w.disk)) }
  | work {run b b' origin s action s'} : w.phase = .executing run b origin s → b' = w.shown b →
      poolStep (processStep (stepContext rapidHash run b')) run.request.pool b.graph
        { s with data := { s.data with disk := w.disk } } action = some s' →
      WorldStep rapidHash w (.work action)
        { w with
          phase := .executing run b origin s'
          disk := s'.data.disk
          mapped := w.remapped s'.data.disk }
  | rewrite {run b b' origin s io} : w.phase = .executing run b origin s →
      s.Joined run.request.pool → rewrites run b s = true → b' = w.shown (b.built s) →
      WorldStep rapidHash w (.finish io)
        { w with
          phase := .idle
          cache := w.emitted b' (origin.override run.request.overrides) io }
  | finish {run b origin s io} : w.phase = .executing run b origin s →
      s.Joined run.request.pool → rewrites run b s = false →
      WorldStep rapidHash w (.finish io) { w with phase := .idle }
  | stop : w.phase ≠ .idle → WorldStep rapidHash w .stop { w with phase := .idle }

/-- Every step of the world is one of the listed ones. -/
theorem worldStep_cases {rapidHash : Bytes → UInt64 → UInt64} {w w' : World} {a : Act}
    (h : w.step rapidHash a = some w') : WorldStep rapidHash w a w' := by
  -- the step matches on the phase, so the state is taken apart first
  obtain ⟨disk, cache, phase, mapped⟩ := w
  unfold World.step at h
  split at h
  · obtain rfl := Option.some.inj h
    exact .write
  · split_ifs at h
    obtain rfl := Option.some.inj h
    exact .overwrite
  · obtain rfl := Option.some.inj h
    exact .remove
  · obtain rfl := Option.some.inj h
    exact .removeCache
  · next hphase =>
    split_ifs at h
    obtain rfl := Option.some.inj h
    exact .launch hphase
  · next run hphase =>
    split at h
    · next c hc =>
      obtain rfl := Option.some.inj h
      exact .useCache hphase hc
    · next hc =>
      obtain rfl := Option.some.inj h
      exact .rejectCache hphase hc
  · next run hphase =>
    obtain rfl := Option.some.inj h
    unfold World.afterRead
    split
    · exact .readFailed hphase
    · next text htext =>
      split
      · exact .readFailed hphase
      · next b hb => exact .read hphase htext hb
  · next run b origin hphase =>
    obtain rfl := Option.some.inj h
    exact .emit hphase rfl
  · next order run b origin hphase =>
    simp only at h
    split_ifs at h with hcan
    obtain rfl := Option.some.inj h
    simp only [World.canExecute, decide_eq_true_eq] at hcan
    exact .execute hphase rfl rfl hcan.2.2.2
  · next run b origin s hphase =>
    obtain ⟨s', hs', rfl⟩ := Option.map_eq_some_iff.mp h
    exact .work hphase rfl hs'
  · next run b origin s hphase =>
    split_ifs at h with hjoin hrw
    · obtain rfl := Option.some.inj h
      exact .rewrite hphase hjoin hrw rfl
    · obtain rfl := Option.some.inj h
      exact .finish hphase hjoin (by simpa using hrw)
  · simp at h
  · next hphase =>
    obtain rfl := Option.some.inj h
    exact .stop hphase
  · simp at h

end Cob
