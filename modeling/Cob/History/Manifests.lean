import Cob.History.Dependencies

/-!
# Which manifest a run builds

`parse` trusts a cache that is newer than the manifest it was asked for, whatever manifest the
cache was made from and whenever it was written. So what it loads is what the manifest declares
exactly when the cache was made from a text that declares the same (`parse_manifest_iff`): runs
that name different build files load each other's graphs (`not_parse_manifest`). And over one
build file, edits are seen as long as none falls between the launch of a run and a read or a write
of that run (`manifest_of_launch`); an edit that does is lost for the next run
(`not_manifest_of_launch`).

The module introduces:

* `COBBuilder.manifest`, `Manifest.split` — what a builder and a text say, in common terms;
* `PlainRuns`, `Increasing` — what the histories here are promised;
* `Unedited` — the reads and writes of a run see the manifest of its launch.
-/

namespace Cob

open BuildGraph

/-- The step as the manifest declares it, with its inputs column split. -/
def BuildStep.declared (st : BuildStep) : BuildStep :=
  { st with depfileInputs := none, commandHash := 0 }

/-- The definitions and steps of a builder. -/
def COBBuilder.manifest (b : COBBuilder) : Manifest :=
  ⟨b.definitions, b.graph.steps.map BuildStep.declared⟩

/-- The definitions and steps of a text, with the inputs columns split. -/
def Manifest.split (m : Manifest) : Manifest := ⟨m.definitions, m.steps.map BuildStep.splitInputs⟩

/-- No run overrides definitions. -/
def PlainRuns (_ : World) (a : Act) : Prop := ∀ request ∈ a.request, request.overrides = []

instance (w : World) (a : Act) : Decidable (PlainRuns w a) :=
  inferInstanceAs (Decidable (∀ request ∈ a.request, _))

section Manifests

variable {rapidHash : Bytes → UInt64 → UInt64} {buildFile text : Bytes} {w : World} {run : Run}
  {b : COBBuilder} {origin : Origin} {m m' : Manifest}

theorem declared_liveStep {read : Bytes → Option Bytes} {st : BuildStep} (h : st.Raw) :
    (liveStep read st).declared = st.splitInputs := by
  obtain ⟨-, -, -, hdep, -, hhash⟩ := splitInputs_frame st
  rw [h.depfileInputs] at hdep
  rw [h.commandHash] at hhash
  rw [BuildStep.declared, liveStep, pushDepfileInputs, ← hhash, ← hdep]

/-- A builder whose definitions nobody overrode says what its text declares: no column of the
manifest is a view into a dependency file. -/
theorem Shows.manifest_eq (h : Shows origin b) (hno : origin.overrides = []) :
    ∃ m, manifestOf origin.text = .ok m ∧ b.manifest = m.split := by
  obtain ⟨b₀, f, hb₀, -, hshown, hdefs⟩ := h
  obtain ⟨m, hm, hdefs₀, hsteps⟩ := steps_parseText hb₀
  have hdeclared : ∀ l : List BuildStep,
      l.map BuildStep.declared = (l.map BuildStep.clearHash).map BuildStep.declared := by
    intro l
    rw [List.map_map]
    rfl
  have hrenamed : (b₀.graph.renamed f).steps.map BuildStep.declared =
      b₀.graph.steps.map BuildStep.declared := by
    rw [BuildGraph.renamed, List.map_map]
    rfl
  refine ⟨m, hm, ?_⟩
  rw [COBBuilder.manifest, Manifest.split, hdefs, hno, hdefs₀, hdeclared, hshown,
    ← hdeclared, hrenamed, hsteps, List.map_map]
  congr 1
  exact List.map_congr_left fun st hst => declared_liveStep (raw_manifestOf hm st hst)

/-- The columns of a step are still there after splitting its inputs. -/
theorem columns_splitInputs {st : BuildStep} (h : st.Raw) : st.splitInputs.columns = st := by
  obtain ⟨htool, hinputs, hout, -, hflags, -⟩ := splitInputs_frame st
  rw [BuildStep.columns, htool, hinputs, hout, hflags]
  exact h.columns_eq

/-- Texts that declare the same steps once these are split declare the same. -/
theorem Manifest.split_inj (h : m.Raw) (h' : m'.Raw) (heq : m.split = m'.split) : m = m' := by
  have hcolumns : ∀ m : Manifest, m.Raw → m.split.steps.map BuildStep.columns = m.steps := by
    intro m hm
    rw [Manifest.split, List.map_map]
    conv_rhs => rw [← List.map_id m.steps]
    exact List.map_congr_left fun st hst => columns_splitInputs (hm st hst)
  have hsteps : m.steps = m'.steps := by rw [← hcolumns m h, ← hcolumns m' h', heq]
  have hdefs : m.split.definitions = m'.split.definitions := by rw [heq]
  obtain ⟨definitions, steps⟩ := m
  exact congrArg₂ Manifest.mk hdefs hsteps

/-- Without overrides, nothing was overridden in any cache. -/
theorem origins_plainRuns (h : (world rapidHash).ReachableVia PlainRuns w) :
    Origins (fun _ origin => origin.overrides = []) (fun run => run.request.overrides = []) w := by
  refine origins_via ?_ ?_ ?_ ?_ h
  · exact fun w request hG => hG request rfl
  · exact fun disk run text _ _ => rfl
  · intro disk origin run hrun hP
    rw [Origin.override, hP, hrun]
    rfl
  · exact fun w a w' origin _ _ hP => hP

/-- Without overrides, `parse` yields the definitions and steps of the manifest it was asked for
exactly when no cache is usable for it, or the usable one was made from a text that declares the
same. -/
theorem parse_manifest_iff (h : (world rapidHash).ReachableVia PlainRuns w)
    (htext : w.disk.content buildFile = some text) (hm : manifestOf text = .ok m)
    (hb : w.parse buildFile = some b) :
    b.manifest = m.split ↔
      ∀ c, w.usableCache buildFile = some c → manifestOf c.origin.text = .ok m := by
  have horigins := origins_plainRuns h
  unfold World.parse at hb
  cases hc : w.usableCache buildFile with
  | none =>
    simp only [hc, htext, Option.bind_some] at hb
    have hparse : parseText w.disk.content text .empty = .ok b := by
      cases hp : parseText w.disk.content text .empty with
      | error _ => simp [hp, Except.toOption] at hb
      | ok b' => simpa [hp, Except.toOption] using hb
    have hdescribes : Describes ⟨text, w.disk, []⟩ b := ⟨b, hparse, rfl, rfl⟩
    -- the text itself was parsed
    obtain ⟨m', hm', heq⟩ := hdescribes.shows.manifest_eq rfl
    obtain rfl : m = m' := Except.ok.inj (hm.symm.trans hm')
    simp [heq]
  | some c =>
    simp only [hc, Option.some.injEq] at hb
    subst hb
    have hcache := (usableCache_eq hc).1
    have hshows := (shows h.reachable).cache c hcache
    -- the cache shows the manifest of the text it was made from
    obtain ⟨m', hm', heq⟩ := hshows.manifest_eq (horigins.cache c hcache)
    change c.builder.manifest = m.split ↔ _
    rw [heq]
    constructor
    · rintro hsplit c' ⟨rfl⟩
      rw [hm', Manifest.split_inj (raw_manifestOf hm') (raw_manifestOf hm) hsplit]
    · intro hall
      rw [Except.ok.inj (hm'.symm.trans (hall c rfl))]

end Manifests

/-! ### Two build files -/

/-- Every run names one of the build files and overrides nothing, and no move changes any of
them. -/
def SeveralFiles (rapidHash : Bytes → UInt64 → UInt64) (files : List Bytes) (w : World) (a : Act) :
    Prop :=
  (∀ request ∈ a.request, request.buildFile ∈ files ∧ request.overrides = []) ∧
    ∀ p ∈ files, w.Keeps rapidHash a p

instance (rapidHash : Bytes → UInt64 → UInt64) (files : List Bytes) (w : World) (a : Act) :
    Decidable (SeveralFiles rapidHash files w a) :=
  inferInstanceAs (Decidable (_ ∧ _))

/-- Two build files, the first one linking `a`, the second one linking `b`. -/
def twoFiles : World where
  disk := ⟨[(ascii "a.build", ⟨1, .text (ascii "ld|s|a\n")⟩),
    (ascii "b.build", ⟨2, .text (ascii "ld|s|b\n")⟩)]⟩
  cache := none
  phase := .idle

/-- A run with `-f` that stops after parsing. -/
def fileRequest (buildFile : Bytes) : Request := ⟨buildFile, [], ⟨1, false⟩, false, false⟩

/-- A run for the first file, then one for the second. -/
def twoRuns : List Act :=
  [.launch (fileRequest (ascii "a.build")), .check, .read, .emit (some 10), .stop,
    .launch (fileRequest (ascii "b.build"))]

/-- What `parse` yields is not what the build file declares. -/
def mistaken (buildFile : Bytes) (w : World) : Bool :=
  match w.parse buildFile, w.disk.content buildFile with
  | some b, some text =>
    match manifestOf text with
    | .ok m => decide (b.manifest ≠ m.split) && m.steps.all fun st => !st.isCompile
    | .error _ => false
  | _, _ => false

/-- The second run loads a cache that was made from the first file. -/
theorem parse_manifest_iff_twoFiles : ∃ w text m b,
    (world sumHash).ReachableVia PlainRuns w ∧
    w.disk.content (ascii "b.build") = some text ∧ manifestOf text = .ok m ∧
    w.parse (ascii "b.build") = some b ∧
    (b.manifest = m.split ↔
      ∀ c, w.usableCache (ascii "b.build") = some c → manifestOf c.origin.text = .ok m) := by
  obtain ⟨w, hvia, hw⟩ := Machine.exists_via_of_exec (M := world sumHash) (G := PlainRuns)
    (s := twoFiles) ⟨rfl, rfl, rfl⟩ twoRuns (mistaken (ascii "b.build")) (by decide +kernel)
  unfold mistaken at hw
  split at hw
  · next b text hb htext =>
    split at hw
    · next m hm => exact ⟨w, text, m, b, hvia, htext, hm, hb, parse_manifest_iff hvia htext hm hb⟩
    · simp at hw
  · simp at hw

/-- The second run is given the steps of the first file. -/
theorem not_parse_manifest : ¬ ∀ (rapidHash : Bytes → UInt64 → UInt64) (files : List Bytes)
    (buildFile text : Bytes) (w : World) (m : Manifest) (b : COBBuilder),
    (world rapidHash).ReachableVia (SeveralFiles rapidHash files) w → buildFile ∈ files →
    w.disk.content buildFile = some text → manifestOf text = .ok m →
    (∀ st ∈ m.steps, st.isCompile = false) → w.parse buildFile = some b →
    b.manifest = m.split := by
  intro hall
  obtain ⟨w, hvia, hw⟩ := Machine.exists_via_of_exec (M := world sumHash)
    (G := SeveralFiles sumHash [ascii "a.build", ascii "b.build"]) (s := twoFiles) ⟨rfl, rfl, rfl⟩
    twoRuns (mistaken (ascii "b.build")) (by decide +kernel)
  unfold mistaken at hw
  split at hw
  · next b text hb htext =>
    split at hw
    · next m hm =>
      obtain ⟨hne, hsteps⟩ := Bool.and_eq_true_iff.mp hw
      refine of_decide_eq_true hne (hall _ _ _ text w m b hvia (by simp) htext hm ?_ hb)
      exact fun st hst => by simpa using List.all_eq_true.mp hsteps st hst
    · simp at hw
  · simp at hw

/-! ### Edits during a run -/

/-- Every file on the disk and the cache are older than `time`. -/
def World.olderThan (w : World) (time : FileTime) : Bool :=
  w.disk.olderThan time && w.cache.all fun c => decide (c.mtime < time)

/-- Runs of one build file without overrides; whatever writes the build file or the cache gives
it a time after all others. -/
def Increasing (rapidHash : Bytes → UInt64 → UInt64) (buildFile : Bytes) (w : World) (a : Act) :
    Prop :=
  (∀ request ∈ a.request, request.buildFile = buildFile ∧ request.overrides = []) ∧
    ∀ w' ∈ w.step rapidHash a,
      (∀ f ∈ w'.disk.file buildFile, w.disk.file buildFile = some f ∨ w.olderThan f.mtime) ∧
        ∀ c ∈ w'.cache, w.cache = some c ∨ w.olderThan c.mtime

instance (rapidHash : Bytes → UInt64 → UInt64) (buildFile : Bytes) (w : World) (a : Act) :
    Decidable (Increasing rapidHash buildFile w a) :=
  inferInstanceAs (Decidable (_ ∧ _))

/-- The move reads the manifest or writes the cache. -/
def World.transfers (w : World) (a : Act) : Bool :=
  match a, w.phase with
  | .read, .reading _ => true
  | .emit _, .emitting .. => true
  | .finish _, .executing run b _ s => rewrites run b s
  | _, _ => false

/-- When a run reads the manifest or writes the cache, the manifest is the one of its launch. -/
def Unedited (buildFile : Bytes) (w : World) (a : Act) : Prop :=
  w.transfers a = true → ∀ run ∈ w.phase.run, w.disk.file buildFile = run.launch.file buildFile

instance (buildFile : Bytes) (w : World) (a : Act) : Decidable (Unedited buildFile w a) :=
  inferInstanceAs (Decidable (_ → _))

section Edits

variable {rapidHash : Bytes → UInt64 → UInt64} {buildFile : Bytes} {w : World}

/-- A cache that is newer than the manifest was made from it. -/
def CacheCurrent (buildFile : Bytes) (w : World) : Prop :=
  ∀ c f, w.cache = some c → w.disk.file buildFile = some f → f.mtime < c.mtime →
    f.contents = .text c.origin.text

/-- What is known about the manifest of the launch. -/
def LaunchCurrent (buildFile : Bytes) (w : World) : Phase → Prop
  | .idle => True
  | .checking run => run.request.buildFile = buildFile ∧
      ∀ c f, w.cache = some c → w.disk.file buildFile = some f → f.mtime < c.mtime →
        run.launch.file buildFile = some f
  | .reading run => run.request.buildFile = buildFile
  | .emitting run _ origin => run.launch.content buildFile = some origin.text
  | .parsed run _ origin => run.launch.content buildFile = some origin.text
  | .executing run _ origin _ => run.launch.content buildFile = some origin.text

/-- A file that is newer than the cache is not older than it. -/
theorem not_lt_of_olderThan {c : Cache} {time : FileTime} (h : w.olderThan time = true)
    (hc : w.cache = some c) : ¬ time < c.mtime := by
  have hall := (Bool.and_eq_true_iff.mp h).2
  rw [hc] at hall
  exact (of_decide_eq_true hall).le.not_gt

/-- A move that leaves the cache alone keeps caches current. -/
theorem CacheCurrent.frame (h : CacheCurrent buildFile w) {w' : World} (hcache : w'.cache = w.cache)
    (hfile : ∀ f ∈ w'.disk.file buildFile,
      w.disk.file buildFile = some f ∨ w.olderThan f.mtime) : CacheCurrent buildFile w' := by
  intro c f hc hf hlt
  rw [hcache] at hc
  rcases hfile f hf with hold | hnew
  · exact h c f hc hold hlt
  · exact absurd hlt (not_lt_of_olderThan hnew hc)

theorem LaunchCurrent.frame {phase : Phase} (h : LaunchCurrent buildFile w phase) {w' : World}
    (hcache : w'.cache = w.cache) (hfile : ∀ f ∈ w'.disk.file buildFile,
      w.disk.file buildFile = some f ∨ w.olderThan f.mtime) :
    LaunchCurrent buildFile w' phase := by
  cases phase with
  | checking run =>
    refine ⟨h.1, fun c f hc hf hlt => ?_⟩
    rw [hcache] at hc
    rcases hfile f hf with hold | hnew
    · exact h.2 c f hc hold hlt
    · exact absurd hlt (not_lt_of_olderThan hnew hc)
  | _ => exact h

/-- Writing the cache of a run whose manifest is still the one of its launch. -/
theorem CacheCurrent.emitted (h : CacheCurrent buildFile w) {w' : World} {run : Run}
    {b : COBBuilder} {origin : Origin} {io : Option FileTime} (hdisk : w'.disk = w.disk)
    (hcache : w'.cache = w.emitted b origin io)
    (hlaunch : run.launch.content buildFile = some origin.text)
    (hsame : w.disk.file buildFile = run.launch.file buildFile) : CacheCurrent buildFile w' := by
  intro c f hc hf hlt
  rw [hdisk] at hf
  rcases emitted_cases (hcache ▸ hc) with hold | ⟨rfl, -⟩
  · exact h c f hold hf hlt
  · exact Disk.contents_of_content hlaunch (hsame ▸ hf)

/-- In a history whose runs see the manifest of their launch when they read it or write the cache,
a usable cache was made from the current manifest. -/
theorem settled (h : (world rapidHash).ReachableVia
      (fun w a => Increasing rapidHash buildFile w a ∧ Unedited buildFile w a) w) :
    CacheCurrent buildFile w ∧ LaunchCurrent buildFile w w.phase := by
  -- induction over the history; only reads and cache writes use that the manifest was not edited
  refine Machine.ReachableVia.invariant
    (I := fun w => CacheCurrent buildFile w ∧ LaunchCurrent buildFile w w.phase) ?_ ?_ h
  · rintro w ⟨hcache, hphase, -⟩
    exact ⟨by simp [CacheCurrent, hcache], by simp [hphase, LaunchCurrent]⟩
  · intro w a w' hr ⟨hcurrent, hlaunch⟩ ⟨⟨hrequest, hinc⟩, hunedited⟩ hstep
    have hfile := (hinc w' hstep).1
    cases worldStep_cases hstep with
    | write => exact ⟨hcurrent.frame rfl hfile, hlaunch.frame rfl hfile⟩
    | overwrite => exact ⟨hcurrent.frame rfl hfile, hlaunch.frame rfl hfile⟩
    | remove => exact ⟨hcurrent.frame rfl hfile, hlaunch.frame rfl hfile⟩
    | removeCache =>
      refine ⟨by simp [CacheCurrent], ?_⟩
      cases hp : w.phase with
      | checking run =>
        rw [hp] at hlaunch
        exact ⟨hlaunch.1, by simp⟩
      | _ =>
        rw [hp] at hlaunch
        exact hlaunch
    | @launch request =>
      exact ⟨hcurrent, (hrequest request rfl).1, fun c f _ hf _ => hf⟩
    | @useCache run c hp hc =>
      -- the cache is newer than the manifest, so both are of the launch
      rw [hp] at hlaunch
      obtain ⟨hbuild, hseen⟩ := hlaunch
      rw [hbuild] at hc
      obtain ⟨hcache, f, hf, hlt⟩ := usableCache_eq hc
      refine ⟨hcurrent, ?_⟩
      exact Disk.content_of_contents (hseen c f hcache hf hlt) (hcurrent c f hcache hf hlt)
    | @rejectCache run hp =>
      rw [hp] at hlaunch
      exact ⟨hcurrent, hlaunch.1⟩
    | readFailed => exact ⟨hcurrent, trivial⟩
    | @read run text b hp htext hb =>
      -- the text that is read is the one of the launch
      rw [hp] at hlaunch
      have hsame := hunedited (by simp [World.transfers, hp]) run (by rw [hp]; rfl)
      refine ⟨hcurrent, ?_⟩
      obtain rfl : run.request.buildFile = buildFile := hlaunch
      exact (Disk.content_congr hsame.symm).trans htext
    | @emit run b b' origin io hp =>
      -- the cache is written from the text of the launch, which is still there
      rw [hp] at hlaunch
      have hsame := hunedited (by simp [World.transfers, hp]) run (by rw [hp]; rfl)
      exact ⟨hcurrent.emitted rfl rfl hlaunch hsame, hlaunch⟩
    | execute hp =>
      rw [hp] at hlaunch
      exact ⟨hcurrent, hlaunch⟩
    | work hp =>
      rw [hp] at hlaunch
      exact ⟨hcurrent.frame rfl hfile, hlaunch⟩
    | @rewrite run b b' origin s io hp _ hrw =>
      rw [hp] at hlaunch
      have hsame := hunedited (by simp [World.transfers, hp, hrw]) run (by rw [hp]; rfl)
      have hlaunch' : run.launch.content buildFile =
          some (origin.override run.request.overrides).text := hlaunch
      exact ⟨hcurrent.emitted rfl rfl hlaunch' hsame, trivial⟩
    | finish => exact ⟨hcurrent, trivial⟩
    | stop => exact ⟨hcurrent, trivial⟩

/-- When the manifest is the one of the launch whenever a run reads it or writes the cache, every
run gets the definitions and steps of the manifest that was there at its launch. -/
theorem manifest_of_launch {run : Run} {b : COBBuilder} {origin : Origin}
    (h : (world rapidHash).ReachableVia
      (fun w a => Increasing rapidHash buildFile w a ∧ Unedited buildFile w a) w)
    (hp : w.phase = .parsed run b origin) :
    ∃ text m, run.launch.content buildFile = some text ∧ manifestOf text = .ok m ∧
      b.manifest = m.split := by
  have hlaunch := (settled h).2
  have hshows := (shows h.reachable).phase
  have hplain : (world rapidHash).ReachableVia PlainRuns w := by
    obtain ⟨tr, htr, hG⟩ := h
    exact ⟨tr, htr, fun m hm request hreq => ((hG m hm).1.1 request hreq).2⟩
  have hno := (origins_plainRuns hplain).origin origin (by rw [hp]; rfl)
  rw [hp] at hlaunch hshows
  obtain ⟨m, hm, heq⟩ := Shows.manifest_eq hshows hno
  exact ⟨origin.text, m, hlaunch, hm, heq⟩

end Edits

/-- A build file that links `a`. -/
def oneFile : World where
  disk := ⟨[(ascii "a.build", ⟨1, .text (ascii "ld|s|a\n")⟩)]⟩
  cache := none
  phase := .idle

/-- Two runs, with what happens to the build file while the first one has parsed it and is about
to write the cache. -/
def editedRuns (edits : List Act) : List Act :=
  [.launch (fileRequest (ascii "a.build")), .check, .read] ++ edits ++
    [.emit (some 10), .stop, .launch (fileRequest (ascii "a.build")), .check]

/-- The run in progress has a builder. -/
def hasParsed (w : World) : Bool :=
  match w.phase with
  | .parsed .. => true
  | _ => false

/-- Without an edit, the second run gets the manifest of its launch. -/
theorem manifest_of_launch_unedited : ∃ w run b origin,
    (world sumHash).ReachableVia (fun w a => Increasing sumHash (ascii "a.build") w a ∧
      Unedited (ascii "a.build") w a) w ∧ w.phase = .parsed run b origin ∧
    ∃ text m, run.launch.content (ascii "a.build") = some text ∧ manifestOf text = .ok m ∧
      b.manifest = m.split := by
  obtain ⟨w, hvia, hw⟩ := Machine.exists_via_of_exec (M := world sumHash)
    (G := fun w a => Increasing sumHash (ascii "a.build") w a ∧ Unedited (ascii "a.build") w a)
    (s := oneFile) ⟨rfl, rfl, rfl⟩ (editedRuns []) hasParsed (by decide +kernel)
  unfold hasParsed at hw
  cases hp : w.phase with
  | parsed run b origin => exact ⟨w, run, b, origin, hvia, hp, manifest_of_launch hvia hp⟩
  | _ =>
    rw [hp] at hw
    cases hw

/-- The run in progress has parsed something that the build file did not declare at its launch. -/
def lostEdit (w : World) : Bool :=
  match w.phase with
  | .parsed run b _ =>
    match run.launch.content (ascii "a.build") with
    | some text =>
      match manifestOf text with
      | .ok m => decide (b.manifest ≠ m.split) && m.steps.all fun st => !st.isCompile
      | .error _ => false
    | none => false
  | _ => false

/-- An edit between parsing and writing the cache is lost for the next run. -/
theorem not_manifest_of_launch : ¬ ∀ (rapidHash : Bytes → UInt64 → UInt64) (buildFile text : Bytes)
    (w : World) (run : Run) (b : COBBuilder) (origin : Origin) (m : Manifest),
    (world rapidHash).ReachableVia (Increasing rapidHash buildFile) w →
    w.phase = .parsed run b origin → run.launch.content buildFile = some text →
    manifestOf text = .ok m → (∀ st ∈ m.steps, st.isCompile = false) →
    b.manifest = m.split := by
  intro hall
  obtain ⟨w, hvia, hw⟩ := Machine.exists_via_of_exec (M := world sumHash)
    (G := Increasing sumHash (ascii "a.build")) (s := oneFile) ⟨rfl, rfl, rfl⟩
    (editedRuns [.write (ascii "a.build") ⟨5, .text (ascii "ld|s|b\n")⟩]) lostEdit
    (by decide +kernel)
  unfold lostEdit at hw
  split at hw
  · next run b origin hp =>
    split at hw
    · next text htext =>
      split at hw
      · next m hm =>
        obtain ⟨hne, hsteps⟩ := Bool.and_eq_true_iff.mp hw
        refine of_decide_eq_true hne (hall _ _ text w run b origin m hvia hp htext hm ?_)
        exact fun st hst => by simpa using List.all_eq_true.mp hsteps st hst
      · simp at hw
    · simp at hw
  · simp at hw

end Cob
