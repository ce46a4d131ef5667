import Cob.Executor.CycleCheck
import Cob.Executor.EmitCommands
import Cob.History.Comparison
import Cob.Lib.Recipes

/-!
# Builds over a history

What is in an output is what its tool made of the files that it read at that time. Sources are
edited, outputs and caches are lost, runs fail or are killed, and still, after a successful build
every output is what its command would make of the files as they are now (`made_of_execute`). So
a build that made only a few outputs again leaves what a build of everything would have left
(`eq_of_execute`). The tools are asked to read declared inputs only, and the runs to end without
outputs that the cache tells nothing of.

The module introduces:

* `Toolchain` — what the tools read, and what they make of it;
* `Valued`, `valued` — the histories of a directory, with what is in the files;
* `Upkeep` — what the environment is asked for;
* `Attested` — an output that is fresh and has a hash is current;
* `Building` — the invariant of a build in progress.
-/

namespace Cob

open BuildGraph

/-- What a run of a tool makes of the contents of the files, and the files that it reads for it.
What it makes and what it reads depends on its arguments and on what it reads. -/
structure Toolchain (V : Type) where
  make : List Bytes → (Bytes → Option V) → V
  reads : List Bytes → (Bytes → Option V) → List Bytes
  stable : ∀ args val val', (∀ p ∈ reads args val, val' p = val p) →
    make args val' = make args val ∧ reads args val' = reads args val

/-- A directory with what is in its files. -/
structure Valued (V : Type) where
  world : World
  contents : Bytes → Option V

/-- The file that the environment writes. -/
def Act.written : Act → Option (Bytes × File)
  | .write path file => some (path, file)
  | .overwrite path file => some (path, file)
  | _ => none

/-- The step whose tool has exited with `0` between two states of the data, and its arguments. -/
def toolExited (g : BuildGraph) (d d' : BuildData) : Option (BuildStep × List Bytes) :=
  if d'.ran.length = d.ran.length then none
  else d'.ran.head?.bind fun e => (g.steps[e.1]?).map fun st => (st, e.2.args)

namespace World

/-- The same between two worlds. -/
def exited (w w' : World) : Option (BuildStep × List Bytes) :=
  match w.phase, w'.phase with
  | .executing _ b _ s, .executing _ _ _ s' => toolExited b.graph s.data s'.data
  | _, _ => none

/-- The calls of a build in progress may look at the file. -/
def looksAt (w : World) (path : Bytes) : Bool :=
  match w.phase with
  | .executing run b _ _ => Involved b.graph run.request.buildFile path
  | _ => false

end World

namespace Toolchain

variable {V : Type} (tc : Toolchain V)

/-- What a tool does with these arguments. -/
def recipe (args : List Bytes) : Make.Recipe Bytes (Option V) where
  make val := some (tc.make args val)
  reads val := {p | p ∈ tc.reads args val}
  stable val val' h := by
    obtain ⟨hmake, hreads⟩ := tc.stable args val val' h
    exact ⟨congrArg some hmake, by rw [hreads]⟩

/-- The output of a step, made with these arguments. -/
def target (st : BuildStep) (args : List Bytes) : Make.Target Bytes (Option V) where
  output := st.output
  inputs := {p | p ∈ st.allInputs}
  recipe := tc.recipe args

/-- What is in the files after a tool has exited. -/
def afterTool (val : Bytes → Option V) : Option (BuildStep × List Bytes) → Bytes → Option V
  | some (st, args) => Function.update val st.output (some (tc.make args val))
  | none => val

end Toolchain

namespace Valued

variable {V : Type} (tc : Toolchain V) (rapidHash : Bytes → UInt64 → UInt64)

/-- What is in the files after a move that leads to `w'`; a file that the environment writes gets
the value that comes with the move. -/
def after (x : Valued V) (a : Act × V) (w' : World) : Bytes → Option V :=
  match a.1 with
  | .write path _ => Function.update x.contents path (some a.2)
  | .overwrite path _ => Function.update x.contents path (some a.2)
  | .remove path => Function.update x.contents path none
  | _ => tc.afterTool x.contents (x.world.exited w')

/-- One step, `none` when it is not possible now. -/
def step (x : Valued V) (a : Act × V) : Option (Valued V) :=
  (x.world.step rapidHash a.1).map fun w' => ⟨w', x.after tc a w'⟩

end Valued

/-- The histories that begin without a cache. -/
def valued {V : Type} (tc : Toolchain V) (rapidHash : Bytes → UInt64 → UInt64) :
    Machine (Valued V) (Act × V) where
  init x := (world rapidHash).init x.world
  step := Valued.step tc rapidHash

/-- What is asked of a graph when a build begins: no response files, no step that writes the
manifest, and argument vectors in `vectors`. -/
structure PlainBuild (ctx : StepContext) (vectors : Set (List Bytes)) (disk : Disk) : Prop where
  noRsp : NoRsp ctx.graph disk
  output_ne : ∀ st ∈ ctx.graph.steps, st.output ≠ ctx.buildFile
  mem_vectors : ∀ st ∈ ctx.graph.steps, (ctx.command st).args ∈ vectors

/-- What is asked of a history: the manifest stays, no run is a dry run, and no run ends with
outputs that the cache tells nothing of. While a build goes on nobody else touches its files. The
environment writes no outputs, and what it writes gets a time after everything that exists; the
mapped dependency files show what was parsed. -/
structure Upkeep (rapidHash : Bytes → UInt64 → UInt64) (vectors : Set (List Bytes))
    (buildFile : Bytes) (w : World) (a : Act) : Prop where
  manifest : OneManifest rapidHash buildFile w a
  dryRun : ∀ request ∈ a.request, request.dryRun = false
  apart : ∀ path ∈ a.path, w.looksAt path = false
  written : ∀ e ∈ a.written, (∀ st ∈ w.declared buildFile, e.1 ≠ st.output) ∧
    w.disk.olderThan e.2.mtime = true
  plain : ∀ ctx ∈ w.builds rapidHash a, PlainBuild ctx vectors w.disk
  remembers : Remembers w a
  intact : w.Intact

/-- And whatever a tool reads is a declared input of its step. -/
def Maintained {V : Type} (tc : Toolchain V) (rapidHash : Bytes → UInt64 → UInt64)
    (vectors : Set (List Bytes)) (buildFile : Bytes) (x : Valued V) (a : Act × V) : Prop :=
  Upkeep rapidHash vectors buildFile x.world a.1 ∧
    ∀ w' ∈ x.world.step rapidHash a.1, ∀ e ∈ x.world.exited w',
      ∀ p ∈ tc.reads e.2 x.contents, p ∈ e.1.allInputs

instance (ctx : StepContext) (vectors : Set (List Bytes)) [DecidablePred (· ∈ vectors)]
    (disk : Disk) : Decidable (PlainBuild ctx vectors disk) :=
  decidable_of_iff (NoRsp ctx.graph disk ∧ (∀ st ∈ ctx.graph.steps, st.output ≠ ctx.buildFile) ∧
      ∀ st ∈ ctx.graph.steps, (ctx.command st).args ∈ vectors)
    ⟨fun h => ⟨h.1, h.2.1, h.2.2⟩, fun h => ⟨h.noRsp, h.output_ne, h.mem_vectors⟩⟩

instance (rapidHash : Bytes → UInt64 → UInt64) (vectors : Set (List Bytes))
    [DecidablePred (· ∈ vectors)] (buildFile : Bytes) (w : World) (a : Act) :
    Decidable (Upkeep rapidHash vectors buildFile w a) :=
  decidable_of_iff (OneManifest rapidHash buildFile w a ∧
      (∀ request ∈ a.request, request.dryRun = false) ∧
      (∀ path ∈ a.path, w.looksAt path = false) ∧
      (∀ e ∈ a.written, (∀ st ∈ w.declared buildFile, e.1 ≠ st.output) ∧
        w.disk.olderThan e.2.mtime = true) ∧
      (∀ ctx ∈ w.builds rapidHash a, PlainBuild ctx vectors w.disk) ∧ Remembers w a ∧ w.Intact)
    ⟨fun ⟨hmanifest, hdry, hapart, hwritten, hplain, hremembers, hintact⟩ =>
        ⟨hmanifest, hdry, hapart, hwritten, hplain, hremembers, hintact⟩,
      fun h => ⟨h.manifest, h.dryRun, h.apart, h.written, h.plain, h.remembers, h.intact⟩⟩

instance {V : Type} (tc : Toolchain V) (rapidHash : Bytes → UInt64 → UInt64)
    (vectors : Set (List Bytes)) [DecidablePred (· ∈ vectors)] (buildFile : Bytes) (x : Valued V)
    (a : Act × V) : Decidable (Maintained tc rapidHash vectors buildFile x a) :=
  inferInstanceAs (Decidable (_ ∧ ∀ w' ∈ x.world.step rapidHash a.1, _))

section Incremental

variable {V : Type} (tc : Toolchain V) (rapidHash : Bytes → UInt64 → UInt64)
  (vectors : Set (List Bytes))

/-- If the step has a hash and its output is fresh, the output is what the command with this hash
makes. -/
def Attested (disk : Disk) (val : Bytes → Option V) (st : BuildStep) : Prop :=
  st.commandHash = 0 ∨ ∃ args ∈ vectors, hashCommand rapidHash args = st.commandHash ∧
    (tc.target st args).Honest disk.mtime val

/-- Outputs while a build goes on: those whose tools have run are what its commands make, and
those of the other steps are known. -/
structure Building (run : Run) (b : COBBuilder) (s : State BuildData Call) (disk : Disk)
    (val : Bytes → Option V) : Prop where
  acyclic : b.graph.Acyclic
  dryRun : run.request.dryRun = false
  began : ∃ disk₀, PlainBuild (stepContext rapidHash run b) vectors disk₀ ∧
    (poolMachine (processStep (stepContext rapidHash run b)) run.request.pool b.graph
      (.start (stepContext rapidHash run b)
        (disk₀.restrict (Involved b.graph run.request.buildFile)))).Reachable
      (s.seen b.graph run.request.buildFile disk)
  kept : ∀ k st, b.graph.steps[k]? = some st → ¬ Ran s.data k →
    Attested tc rapidHash vectors disk val st
  made : ∀ k st, b.graph.steps[k]? = some st → Ran s.data k →
    (tc.target st ((stepContext rapidHash run b).command st).args).Solid disk.mtime val

/-- A usable cache holds the graph. -/
def World.Stored (w : World) (buildFile : Bytes) (g : BuildGraph) : Prop :=
  ∀ c, w.usableCache buildFile = some c → c.builder.graph = g

/-- What is known of the outputs, in each phase. -/
def ValuesKnown (buildFile : Bytes) (x : Valued V) : Phase → Prop
  | .idle => ∀ c, x.world.usableCache buildFile = some c →
      ∀ st ∈ c.builder.graph.steps, Attested tc rapidHash vectors x.world.disk x.contents st
  | .checking _ => ∀ c, x.world.usableCache buildFile = some c →
      ∀ st ∈ c.builder.graph.steps, Attested tc rapidHash vectors x.world.disk x.contents st
  | .reading _ => x.world.usableCache buildFile = none
  | .emitting _ b _ => x.world.Stored buildFile b.graph ∧
      ∀ st ∈ b.graph.steps, Attested tc rapidHash vectors x.world.disk x.contents st
  | .parsed _ b _ => x.world.Stored buildFile b.graph ∧
      ∀ st ∈ b.graph.steps, Attested tc rapidHash vectors x.world.disk x.contents st
  | .executing run b _ s => x.world.Stored buildFile b.graph ∧
      Building tc rapidHash vectors run b s x.world.disk x.contents

variable {tc rapidHash vectors}

/-! ### Files that are written and removed -/

section Files

variable {disk disk' : Disk} {val val' : Bytes → Option V} {st : BuildStep} {args : List Bytes}

theorem Disk.mtime_write (disk : Disk) (p : Bytes) (f : File) :
    (disk.write p f).mtime = Function.update disk.mtime p (some f.mtime) := by
  ext1 q
  rw [Disk.mtime, Disk.file_write]
  by_cases hq : q = p
  · subst hq
    simp
  · rw [if_neg hq, Function.update_of_ne hq]
    rfl

theorem Disk.mtime_remove (disk : Disk) (p : Bytes) :
    (disk.remove p).mtime = Function.update disk.mtime p none := by
  ext1 q
  by_cases hq : q = p
  · subst hq
    have hnone : (disk.remove q).file q = none := by
      rw [Disk.file, Disk.remove, List.lookup_eq_none_iff]
      intro e he
      have hne : e.1 ≠ q := by simpa using (List.mem_filter.mp he).2
      simpa using hne.symm
    rw [Function.update_self, Disk.mtime, hnone, Option.map_none]
  · rw [Disk.mtime, Disk.file_remove_of_ne hq, Function.update_of_ne hq]
    rfl

/-- What was written last is newer than everything. -/
theorem Disk.not_lt_of_olderThan {time : FileTime} (h : disk.olderThan time = true) {p : Bytes}
    {x : FileTime} (hx : disk.mtime p = some x) : ¬ time < x := by
  obtain ⟨f, hf, rfl⟩ := Option.map_eq_some_iff.mp hx
  exact not_lt_of_gt (Disk.olderThan_iff.mp h p f hf)

theorem Attested.congr (h : Attested tc rapidHash vectors disk val st)
    (htime : ∀ args, Set.EqOn disk'.mtime disk.mtime (tc.target st args).files)
    (hval : ∀ args, Set.EqOn val' val (tc.target st args).files) :
    Attested tc rapidHash vectors disk' val' st := by
  refine h.imp_right fun hargs => ?_
  obtain ⟨args, hmem, hhash, hhonest⟩ := hargs
  exact ⟨args, hmem, hhash, hhonest.congr (htime args) (hval args)⟩

/-- The environment writes a file that is not the output. -/
theorem Attested.write (h : Attested tc rapidHash vectors disk val st) {p : Bytes} {f : File}
    {v : V} (hp : p ≠ st.output) (hold : disk.olderThan f.mtime = true) :
    Attested tc rapidHash vectors (disk.write p f) (Function.update val p (some v)) st := by
  refine h.imp_right fun hargs => ?_
  obtain ⟨args, hmem, hhash, hhonest⟩ := hargs
  refine ⟨args, hmem, hhash, ?_⟩
  rw [Disk.mtime_write]
  exact hhonest.write hp fun _ x hx => Disk.not_lt_of_olderThan hold hx

/-- The environment removes a file. -/
theorem Attested.remove (h : Attested tc rapidHash vectors disk val st) {p : Bytes} :
    Attested tc rapidHash vectors (disk.remove p) (Function.update val p none) st := by
  refine h.imp_right fun hargs => ?_
  obtain ⟨args, hmem, hhash, hhonest⟩ := hargs
  refine ⟨args, hmem, hhash, ?_⟩
  rw [Disk.mtime_remove]
  exact hhonest.remove

end Files

/-! ### A build -/

section Build

variable {run : Run} {b : COBBuilder} {s s' : State BuildData Call} {disk disk' disk₀ : Disk}
  {val val' : Bytes → Option V}

theorem PlainBuild.separate {ctx : StepContext} (h : PlainBuild ctx vectors disk) :
    Separate ctx where
  output_ne := h.output_ne
  rsp_ne st hst hld hmany := absurd (h.noRsp st hst hld).1 (not_le.mpr hmany)

theorem PlainBuild.rspSteady {ctx : StepContext} (h : PlainBuild ctx vectors disk) :
    RspSteady ctx := by
  intro st hst hld _ st' hst'
  refine ⟨(h.noRsp st hst hld).2.2 st' hst', fun hld' hmany => ?_⟩
  exact absurd (h.noRsp st' hst' hld').1 (not_le.mpr hmany)

/-- Without response files the disk does not matter to a command. -/
theorem PlainBuild.commandOn_eq {ctx : StepContext} (h : PlainBuild ctx vectors disk)
    {st : BuildStep} (hst : st ∈ ctx.graph.steps) :
    ctx.commandOn (disk.restrict (Involved ctx.graph ctx.buildFile)) st = ctx.command st := by
  rw [commandOn_restrict hst]
  exact commandOf_usableRsp (d := .start ctx disk) h.noRsp hst

/-- The build looks at the output and the inputs of its steps. -/
theorem involved_of_mem_files {ctx : StepContext} (hg : ctx.graph.WellFormed) {st : BuildStep}
    (hst : st ∈ ctx.graph.steps) (args : List Bytes) :
    ∀ p ∈ (tc.target st args).files, Involved ctx.graph ctx.buildFile p = true := by
  obtain ⟨v, k, hstep, -⟩ := hg.exists_node hst
  intro p hp
  rcases hp with rfl | hp
  · exact involved_output hg hstep
  · obtain ⟨u, hu, -⟩ := hg.exists_edge hstep hp
    exact involved_of_pathOf hg hu

/-- The calls of a build see the times of the files that they look at. -/
theorem mtime_seen {g : BuildGraph} {buildFile p : Bytes} (hp : Involved g buildFile p = true) :
    (s.seen g buildFile disk).data.disk.mtime p = disk.mtime p := by
  rw [disk_seen, Disk.mtime_restrict_of hp]

/-- Between two states of the pool the tool of a step exits with `0`. Its output is the only file
that changes, no step that has run waits for it, and it is newer than the outputs of the steps that
have not run. -/
structure ToolExits (ctx : StepContext) (disk : Disk) (s s' : State BuildData Call) (k : ℕ)
    (st : BuildStep) (mtime : FileTime) : Prop where
  step : ctx.graph.steps[k]? = some st
  ran : s'.data.ran = (k, ctx.command st) :: s.data.ran
  time : ∀ p, Involved ctx.graph ctx.buildFile p = true →
    s'.data.disk.mtime p = Function.update disk.mtime st.output (some mtime) p
  waits : ∀ k' st', ctx.graph.steps[k']? = some st' → st.output ∈ st'.allInputs →
    ¬ Ran s.data k'
  newest : ∀ k' st', ctx.graph.steps[k']? = some st' → ¬ Ran s'.data k' →
    ∀ t, disk.mtime st'.output = some t → t < mtime

theorem ToolExits.ran_iff {ctx : StepContext} {k k' : ℕ} {st : BuildStep} {mtime : FileTime}
    (h : ToolExits ctx disk s s' k st mtime) : Ran s'.data k' ↔ k' = k ∨ Ran s.data k' := by
  simp only [Ran, h.ran, List.mem_cons, Prod.mk.injEq]
  constructor
  · rintro ⟨cmd, ⟨rfl, -⟩ | hmem⟩
    · exact .inl rfl
    · exact .inr ⟨cmd, hmem⟩
  · rintro (rfl | ⟨cmd, hmem⟩)
    · exact ⟨_, .inl ⟨rfl, rfl⟩⟩
    · exact ⟨cmd, .inr hmem⟩

/-- A step that has an output among its inputs depends on the step that makes it. -/
theorem edge_of_output_mem {g : BuildGraph} (hg : g.WellFormed) {u v : ℕ} {st st' : BuildStep}
    (hst : g.stepOf u = some st) (hst' : g.stepOf v = some st') (hmem : st.output ∈ st'.allInputs) :
    g.Edge u v := by
  obtain ⟨w, hw, hedge⟩ := hg.exists_edge hst' hmem
  obtain ⟨st₁, hst₁, hpath⟩ := hg.exists_stepOf (isStep_of_stepOf hst)
  obtain rfl : st = st₁ := Option.some.inj (hst.symm.trans hst₁)
  obtain rfl := hg.pathOf_inj hw hpath
  exact hedge

/-- Every step has its node. -/
theorem exists_node_of_step {g : BuildGraph} (hg : g.WellFormed) {k : ℕ} {st : BuildStep}
    (hk : g.steps[k]? = some st) : ∃ v, g.stepIdOf v = some k ∧ g.stepOf v = some st := by
  obtain ⟨v, hv⟩ := hg.node_of_step k st hk
  exact ⟨v, hv, by rw [stepOf_eq, hv, Option.bind_some, hk]⟩

/-- No step that has run waits for what runs after it. -/
theorem not_mem_ran_of_output_mem {g : BuildGraph} (hg : g.WellFormed) {k k' : ℕ}
    {st st' : BuildStep} {cmd cmd' : Command} {ran : List (ℕ × Command)}
    (hordered : (((k, cmd) :: ran).map fun r => (r.1, r.2.args)).Pairwise fun a b =>
      ¬ Feeds g a b)
    (hk : g.steps[k]? = some st) (hk' : g.steps[k']? = some st')
    (hmem : st.output ∈ st'.allInputs) : (k', cmd') ∉ ran := by
  intro hran
  obtain ⟨u, hu, hst⟩ := exists_node_of_step hg hk
  obtain ⟨v, hv, hst'⟩ := exists_node_of_step hg hk'
  have hfeeds : Feeds g (k, cmd.args) (k', cmd'.args) :=
    ⟨u, v, hu, hv, edge_of_output_mem hg hst hst' hmem⟩
  exact (List.pairwise_cons.mp hordered).1 _ (List.mem_map_of_mem hran) hfeeds

/-- What a build has made is newer than what it has not made. -/
theorem lt_of_not_ran {ctx : StepContext} (hg : ctx.graph.WellFormed) {d : BuildData}
    (hdemand : DataDemand ctx disk₀ d) {k k' : ℕ} {st st' : BuildStep}
    (hk : ctx.graph.steps[k]? = some st) (hk' : ctx.graph.steps[k']? = some st')
    (hran : Ran d k) (hnot : ¬ Ran d k') {t t' : FileTime}
    (ht : d.disk.mtime st.output = some t) (ht' : d.disk.mtime st'.output = some t') :
    t' < t := by
  obtain ⟨u, hu, hst⟩ := exists_node_of_step hg hk
  obtain ⟨v, hv, hst'⟩ := exists_node_of_step hg hk'
  have hkept : ¬ Rebuilt ctx d v := by
    rintro ⟨i, hi, hrani⟩
    obtain rfl : k' = i := Option.some.inj (hv.symm.trans hi)
    exact hnot hrani
  obtain ⟨t₁, ht₁, hlt⟩ := hdemand.newer u v st st' hst hst' ⟨k, hu, hran⟩ hkept t' ht'
  obtain rfl : t = t₁ := Option.some.inj (ht.symm.trans ht₁)
  exact hlt

/-- A step of the pool changes no file that the build looks at, or a tool exits. -/
theorem same_or_toolExits {ctx : StepContext} {cfg : PoolConfig} (hg : ctx.graph.WellFormed)
    (hplain : PlainBuild ctx vectors disk₀)
    (hr : (poolMachine (processStep ctx) cfg ctx.graph (.start ctx
      (disk₀.restrict (Involved ctx.graph ctx.buildFile)))).Reachable
        (s.seen ctx.graph ctx.buildFile disk))
    {a : Action Outcome}
    (h : poolStep (processStep ctx) cfg ctx.graph { s with data := s.data.onDisk disk } a =
      some s') :
    (s'.data.ran = s.data.ran ∧ ∀ p, Involved ctx.graph ctx.buildFile p = true →
      s'.data.disk.mtime p = disk.mtime p) ∨
    ∃ k st mtime, ToolExits ctx disk s s' k st mtime := by
  -- the calls do the same on a disk that holds only the files that the build looks at
  have hstep := poolStep_seen hg h
  have hr' := hr.step hstep
  have hseen : ∀ p, Involved ctx.graph ctx.buildFile p = true →
      (s'.seen ctx.graph ctx.buildFile s'.data.disk).data.disk.mtime p = s'.data.disk.mtime p :=
    fun p hp => mtime_seen hp
  have hran : (s'.seen ctx.graph ctx.buildFile s'.data.disk).data.ran = s'.data.ran := rfl
  have hdata := (left hg hplain.separate hplain.rspSteady hr').data
  have hdemand := (demand hg hplain.separate hplain.rspSteady hr').data
  have hordered := (ran_ordered hg hplain.separate hplain.rspSteady hr').data.2
  rcases Stepping.of_poolStep hg hr hstep with hsame | ⟨v, k, st, call, r, hs⟩
  · rw [hsame] at hran hseen
    exact .inl ⟨hran.symm, fun p hp => (hseen p hp).symm.trans (mtime_seen hp)⟩
  have hst := mem_steps_of_stepOf hs.stepOf
  have hk : ctx.graph.steps[k]? = some st := by
    have hstepOf := hs.stepOf
    rwa [stepOf_eq, hs.stepIdOf, Option.bind_some] at hstepOf
  have htouch := hs.advance.touch
  generalize (s'.seen ctx.graph ctx.buildFile s'.data.disk).data = d' at *
  cases htouch with
  | quiet hfiles _ hsame =>
    refine .inl ⟨hran.symm.trans hsame, fun p hp => ?_⟩
    have hsame : d'.disk.file p = (s.seen ctx.graph ctx.buildFile disk).data.disk.file p :=
      -- only a response file could change
      hfiles p fun hld hmany => absurd (hplain.noRsp st hst hld).1 (not_le.mpr hmany)
    rw [← hseen p hp, Disk.mtime, hsame]
    exact mtime_seen hp
  | commit =>
    exact .inl ⟨hran.symm, fun p hp => (hseen p hp).symm.trans (mtime_seen hp)⟩
  | @exited cmd since mtime =>
    have hcommand : cmd = ctx.command st := by
      rw [hdata.command k st cmd hk List.mem_cons_self]
      exact hplain.commandOn_eq hst
    have htime : ∀ p, Involved ctx.graph ctx.buildFile p = true →
        ((s.seen ctx.graph ctx.buildFile disk).data.exited k st cmd mtime).disk.mtime p =
          Function.update disk.mtime st.output (some mtime) p := by
      intro p hp
      rw [BuildData.exited, Disk.mtime_write]
      by_cases hp' : p = st.output
      · rw [hp', Function.update_self, Function.update_self]
      · rw [Function.update_of_ne hp', Function.update_of_ne hp', mtime_seen hp]
    refine .inr ⟨k, st, mtime, hk, ?_, fun p hp => ?_, ?_, ?_⟩
    · rw [← hran, ← hcommand]
      rfl
    · rw [← hseen p hp]
      exact htime p hp
    · rintro k' st' hk' hmem ⟨cmd', hmem'⟩
      exact not_mem_ran_of_output_mem hg hordered hk hk' hmem hmem'
    · intro k' st' hk' hnot t ht
      rw [Ran, ← hran] at hnot
      have hne : st'.output ≠ st.output := by
        intro heq
        obtain rfl := hg.output_inj hk' hk heq
        exact hnot ⟨cmd, List.mem_cons_self⟩
      obtain ⟨v', -, hst'⟩ := exists_node_of_step hg hk'
      have hmade := htime st.output (involved_output hg hs.stepOf)
      have hold := htime st'.output (involved_output hg hst')
      rw [Function.update_self] at hmade
      rw [Function.update_of_ne hne, ht] at hold
      exact lt_of_not_ran hg hdemand hk hk' ⟨cmd, List.mem_cons_self⟩ hnot hmade hold

/-- No step of an acyclic graph makes an input of itself. -/
theorem output_not_mem_allInputs {g : BuildGraph} (hg : g.WellFormed) (hacyclic : g.Acyclic)
    {v : ℕ} {st : BuildStep} (hst : g.stepOf v = some st) : st.output ∉ st.allInputs := by
  intro hmem
  exact hacyclic v (.single (edge_of_output_mem hg hst hst hmem))

/-- What attests the output of a step that has not run still does when a tool exits: what is made
now is newer than this output. -/
theorem ToolExits.attested {ctx : StepContext} {k k' : ℕ} {st st' : BuildStep}
    {mtime : FileTime} {v : V} (h : ToolExits ctx disk s s' k st mtime)
    (hg : ctx.graph.WellFormed) (hk' : ctx.graph.steps[k']? = some st')
    (hnot : ¬ Ran s'.data k') (hold : Attested tc rapidHash vectors disk val st') :
    Attested tc rapidHash vectors s'.data.disk (Function.update val st.output (some v)) st' := by
  have hne : k' ≠ k := fun heq => hnot (h.ran_iff.mpr (.inl heq))
  have hother : st.output ≠ st'.output := fun heq => hne (hg.output_inj hk' h.step heq.symm)
  refine hold.imp_right fun hargs => ?_
  obtain ⟨args, hmem, hhash, hhonest⟩ := hargs
  refine ⟨args, hmem, hhash, ?_⟩
  have hlate : ∀ x, disk.mtime st'.output = some x → ¬ mtime < x :=
    fun x hx => not_lt_of_gt (h.newest k' st' hk' hnot x hx)
  refine (hhonest.write hother fun _ => hlate).congr (fun p hp => h.time p ?_) fun _ _ => rfl
  exact involved_of_mem_files hg (List.mem_of_getElem? hk') args p hp

/-- What another step has made stays as good when a tool exits: that step does not wait for what
is made now. -/
theorem ToolExits.solid {ctx : StepContext} {k k' : ℕ} {st st' : BuildStep} {mtime : FileTime}
    {v : V} {args : List Bytes} (h : ToolExits ctx disk s s' k st mtime)
    (hg : ctx.graph.WellFormed) (hk' : ctx.graph.steps[k']? = some st') (hne : k' ≠ k)
    (hran : Ran s.data k') (hsolid : (tc.target st' args).Solid disk.mtime val) :
    (tc.target st' args).Solid s'.data.disk.mtime
      (Function.update val st.output (some v)) := by
  have hother : st.output ≠ st'.output := fun heq => hne (hg.output_inj hk' h.step heq.symm)
  have hfree : st.output ∉ st'.allInputs := fun hin => h.waits k' st' hk' hin hran
  refine (hsolid.write hother fun hin => absurd hin hfree).congr
    (fun p hp => h.time p ?_) fun _ _ => rfl
  exact involved_of_mem_files hg (List.mem_of_getElem? hk') args p hp

/-- The files that the build looks at stay, and so does what has run. -/
theorem Building.congr (hg : b.graph.WellFormed)
    (h : Building tc rapidHash vectors run b s disk val)
    (hbegan : ∃ disk₀, PlainBuild (stepContext rapidHash run b) vectors disk₀ ∧
      (poolMachine (processStep (stepContext rapidHash run b)) run.request.pool b.graph
        (.start (stepContext rapidHash run b)
          (disk₀.restrict (Involved b.graph run.request.buildFile)))).Reachable
        (s'.seen b.graph run.request.buildFile disk'))
    (hran : s'.data.ran = s.data.ran)
    (htime : ∀ p, Involved b.graph run.request.buildFile p = true →
      disk'.mtime p = disk.mtime p)
    (hval : ∀ p, Involved b.graph run.request.buildFile p = true → val' p = val p) :
    Building tc rapidHash vectors run b s' disk' val' := by
  have hctx : (stepContext rapidHash run b).graph.WellFormed := hg
  -- a step and its tool look at involved files only
  have hfiles : ∀ st ∈ b.graph.steps, ∀ args, ∀ p ∈ (tc.target st args).files,
      Involved b.graph run.request.buildFile p = true :=
    fun st hst args => involved_of_mem_files hctx hst args
  refine ⟨h.acyclic, h.dryRun, hbegan, ?_, ?_⟩
  · intro k st hk hnot
    have hst := List.mem_of_getElem? hk
    rw [Ran, hran] at hnot
    exact (h.kept k st hk hnot).congr (fun args p hp => htime p (hfiles st hst args p hp))
      fun args p hp => hval p (hfiles st hst args p hp)
  · intro k st hk hmade
    have hst := List.mem_of_getElem? hk
    rw [Ran, hran] at hmade
    exact (h.made k st hk hmade).congr (fun p hp => htime p (hfiles st hst _ p hp))
      fun p hp => hval p (hfiles st hst _ p hp)

/-- A file that the build does not look at may change. -/
theorem Building.frame (hg : b.graph.WellFormed)
    (h : Building tc rapidHash vectors run b s disk val) {path : Bytes} {value : Option V}
    (hpath : Involved b.graph run.request.buildFile path = false)
    (hseen : s.seen b.graph run.request.buildFile disk' =
      s.seen b.graph run.request.buildFile disk) :
    Building tc rapidHash vectors run b s disk' (Function.update val path value) := by
  obtain ⟨disk₀, hplain, hreach⟩ := h.began
  refine h.congr hg ⟨disk₀, hplain, hseen ▸ hreach⟩ rfl (fun p hp => ?_) fun p hp => ?_
  · rw [← mtime_seen (s := s) hp, hseen, mtime_seen hp]
  · apply Function.update_of_ne
    rintro rfl
    simp [hpath] at hp

/-- A step of the pool keeps the invariant. -/
theorem Building.work (hg : b.graph.WellFormed)
    (h : Building tc rapidHash vectors run b s disk val) {a : Action Outcome}
    (hs : poolStep (processStep (stepContext rapidHash run b)) run.request.pool b.graph
      { s with data := s.data.onDisk disk } a = some s')
    (hreads : ∀ e ∈ toolExited b.graph s.data s'.data, ∀ p ∈ tc.reads e.2 val,
      p ∈ e.1.allInputs) :
    Building tc rapidHash vectors run b s' s'.data.disk
      (tc.afterTool val (toolExited b.graph s.data s'.data)) := by
  have hctx : (stepContext rapidHash run b).graph.WellFormed := hg
  obtain ⟨disk₀, hplain, hreach⟩ := h.began
  have hreach' := hreach.step (poolStep_seen hctx hs)
  -- most moves change no output; a tool that exits writes the one of its step
  rcases same_or_toolExits hctx hplain hreach hs with
    ⟨hran, htime⟩ | ⟨k, st, mtime, hexits⟩
  · have hnone : toolExited b.graph s.data s'.data = none := by simp [toolExited, hran]
    rw [hnone]
    exact h.congr hg ⟨disk₀, hplain, hreach'⟩ hran htime fun _ _ => rfl
  · have hk : b.graph.steps[k]? = some st := hexits.step
    have hsome : toolExited b.graph s.data s'.data =
        some (st, ((stepContext rapidHash run b).command st).args) := by
      simp [toolExited, hexits.ran, hk]
    rw [hsome] at hreads ⊢
    refine ⟨h.acyclic, h.dryRun, ⟨disk₀, hplain, hreach'⟩, ?_, ?_⟩
    · intro k' st' hk' hnot
      have hboth := not_or.mp (mt hexits.ran_iff.mpr hnot)
      exact hexits.attested hctx hk' hnot (h.kept k' st' hk' hboth.2)
    · intro k' st' hk' hmade
      by_cases hne : k' = k
      · subst hne
        obtain rfl : st = st' := Option.some.inj (hk.symm.trans hk')
        -- the step that was made: the tool read nothing but its inputs
        obtain ⟨v, -, hst⟩ := exists_node_of_step hg hk
        exact Make.Target.solid_make
          (t := tc.target st ((stepContext rapidHash run b).command st).args)
          (output_not_mem_allInputs hg h.acyclic hst) (hreads _ rfl)
      · have hran := (hexits.ran_iff.mp hmade).resolve_left hne
        exact hexits.solid hctx hk' hne hran (h.made k' st' hk' hran)

/-- When a build begins, nothing has run. -/
theorem building_initialState (hg : b.graph.WellFormed) (hacyclic : b.graph.Acyclic)
    (hdry : run.request.dryRun = false)
    (hplain : PlainBuild (stepContext rapidHash run b) vectors disk) {order : List ℕ}
    (horder : order.Perm (rootNodes b.graph))
    (hattested : ∀ st ∈ b.graph.steps, Attested tc rapidHash vectors disk val st) :
    Building tc rapidHash vectors run b
      (initialState b.graph order (.start (stepContext rapidHash run b) disk)) disk val := by
  have hctx : (stepContext rapidHash run b).graph.WellFormed := hg
  refine ⟨hacyclic, hdry, ⟨disk, hplain, Machine.Reachable.init ⟨order, horder, ?_⟩⟩, ?_, ?_⟩
  · exact initialState_seen hctx order
  · exact fun k st hk _ => hattested st (List.mem_of_getElem? hk)
  · rintro k st hk ⟨cmd, hmem⟩
    cases hmem

/-- When all that ran is recorded in the loaded hashes, these still attest the outputs. -/
theorem Building.attested_of_allRecorded (hg : b.graph.WellFormed)
    (h : Building tc rapidHash vectors run b s disk val) (hall : AllRecorded b.graph s.data) :
    ∀ st ∈ b.graph.steps, Attested tc rapidHash vectors disk val st := by
  have hctx : (stepContext rapidHash run b).graph.WellFormed := hg
  intro st hst
  obtain ⟨k, hk⟩ := List.mem_iff_getElem?.mp hst
  obtain ⟨disk₀, hplain, hreach⟩ := h.began
  by_cases hran : Ran s.data k
  · obtain ⟨cmd, hmem⟩ := id hran
    have hdata := (left hctx hplain.separate hplain.rspSteady hreach).data
    have hcommand : cmd = (stepContext rapidHash run b).command st :=
      (hdata.command k st cmd hk hmem).trans (hplain.commandOn_eq hst)
    refine (hall (k, cmd) hmem st hk).imp_right fun hhash => ?_
    refine ⟨_, hplain.mem_vectors st hst, ?_, (h.made k st hk hran).honest⟩
    rw [hhash, hcommand]
    rfl
  · exact h.kept k st hk hran

/-- After a successful build every output is what its command makes of the files. -/
theorem Building.current_of_ok (hg : b.graph.WellFormed) (hsep : Separates vectors rapidHash)
    (h : Building tc rapidHash vectors run b s disk val) (hjoin : s.Joined run.request.pool)
    (hok : s.executeResult b.graph = .ok ()) :
    ∀ st ∈ b.graph.steps,
      (tc.target st ((stepContext rapidHash run b).command st).args).Current val := by
  intro st hmem
  obtain ⟨disk₀, hplain, hreach⟩ := h.began
  obtain ⟨k, hk⟩ := List.mem_iff_getElem?.mp hmem
  obtain ⟨v, hv, hst⟩ := exists_node_of_step hg hk
  have hsucc := succeeded_of_ok hg.linked hreach (joined_seen hjoin) hok (isStep_of_stepOf hst)
  have hctx : (stepContext rapidHash run b).graph.WellFormed := hg
  have hdemand := demand hctx hplain.separate hplain.rspSteady hreach
  obtain ⟨t, ht, hold⟩ := (sound hctx hplain.separate h.dryRun hreach).fresh v st hst hsucc
  have htime : ∀ p ∈ (tc.target st ((stepContext rapidHash run b).command st).args).files,
      (s.seen b.graph run.request.buildFile disk).data.disk.mtime p = disk.mtime p :=
    fun p hp => mtime_seen (involved_of_mem_files hctx hmem _ p hp)
  by_cases hran : Ran s.data k
  · -- nothing that it waits for has been made since
    apply h.made k st hk hran
    refine ⟨t, (htime _ (Set.mem_insert _ _)).symm.trans ht, fun p hp y hy => ?_⟩
    exact hold p (.inl hp) y ((htime p (Set.mem_insert_of_mem _ hp)).trans hy)
  · -- the step was found up to date
    have hnot : ¬ Rebuilt (stepContext rapidHash run b)
        (s.seen b.graph run.request.buildFile disk).data v := by
      rintro ⟨k', hk', hran'⟩
      obtain rfl : k = k' := Option.some.inj (hv.symm.trans hk')
      exact hran hran'
    obtain ⟨hdemanded, hhashes⟩ := (hdemand.after v hsucc).2 h.dryRun
    have hhash := hhashes k st hst hv
    have holder := (hdemand.data.not_demanded_iff hg hplain.separate hst hv hnot hhash ht).mp
      (mt hdemanded hnot)
    have hcommand : (stepContext rapidHash run b).commandOn
        (disk₀.restrict (Involved b.graph run.request.buildFile)) st =
          (stepContext rapidHash run b).command st := hplain.commandOn_eq hmem
    have hloaded := (hdemand.data.kept v k st hst hv hnot).2
    rw [hhash, hcommand] at hloaded
    have hvector := hplain.mem_vectors st hmem
    rcases h.kept k st hk hran with hzero | ⟨args, hargs, hsame, hhonest⟩
    · exact absurd (hloaded.trans hzero) (hsep.ne_zero _ hvector)
    · obtain rfl : args = ((stepContext rapidHash run b).command st).args :=
        hsep.injOn hargs hvector (hsame.trans hloaded.symm)
      apply hhonest
      refine ⟨t, (htime _ (Set.mem_insert _ _)).symm.trans ht, fun p hp => ?_⟩
      rw [← htime p (Set.mem_insert_of_mem _ hp)]
      exact holder p (.inl hp)

/-- The builder can be written to the cache. -/
theorem Building.exists_emitBin (hsep : Separates vectors rapidHash)
    (h : Building tc rapidHash vectors run b s disk val) :
    ∃ image, emitBin (b.built s) = .ok image := by
  obtain ⟨disk₀, hplain, -⟩ := h.began
  refine Cob.exists_emitBin fun st' hst' => ?_
  obtain ⟨st, hst, k, rfl⟩ := mem_setHashes hst'
  have hne : ((stepContext rapidHash run b).command st).args ≠ [] := by
    intro hnil
    apply hsep.ne_zero _ (hplain.mem_vectors st hst)
    rw [hnil]
    rfl
  exact isSome_toolKindFromString_iff.mpr (args_ne_nil_iff.mp hne)

/-- After a successful build the hashes attest the outputs. -/
theorem Building.attested_built (hg : b.graph.WellFormed) (hsep : Separates vectors rapidHash)
    (h : Building tc rapidHash vectors run b s disk val) (hjoin : s.Joined run.request.pool)
    (hok : s.executeResult b.graph = .ok ()) :
    ∀ st ∈ (b.built s).graph.steps, Attested tc rapidHash vectors disk val st := by
  intro st' hst'
  obtain ⟨disk₀, hplain, hreach⟩ := h.began
  obtain ⟨k, hk⟩ := List.mem_iff_getElem?.mp hst'
  simp only [COBBuilder.built, BuildGraph.setHashes, List.getElem?_mapIdx] at hk
  obtain ⟨st, hst, rfl⟩ := Option.map_eq_some_iff.mp hk
  have hmem := List.mem_of_getElem? hst
  have hctx : (stepContext rapidHash run b).graph.WellFormed := hg
  have hhash := commandHash_of_ok hctx hplain.separate hplain.rspSteady h.dryRun hreach
    (joined_seen hjoin) hok hst
  have hcommand : (stepContext rapidHash run b).commandOn
      (disk₀.restrict (Involved b.graph run.request.buildFile)) st =
        (stepContext rapidHash run b).command st := hplain.commandOn_eq hmem
  rw [hcommand] at hhash
  refine .inr ⟨_, hplain.mem_vectors st hmem, hhash.symm, fun _ => ?_⟩
  exact h.current_of_ok hg hsep hjoin hok st hmem

end Build

/-! ### A history -/

section History

variable {buildFile : Bytes} {w w' : World} {x x' : Valued V} {run : Run} {b : COBBuilder}
  {origin : Origin} {s : State BuildData Call}

/-- The worlds of a history. -/
theorem upkeep_world
    (h : (valued tc rapidHash).ReachableVia (Maintained tc rapidHash vectors buildFile) x) :
    (world rapidHash).ReachableVia (Upkeep rapidHash vectors buildFile) x.world := by
  refine h.map Valued.world Prod.fst (fun _ h0 => h0) ?_ fun _ _ hG => hG.1
  intro y a y' hstep
  obtain ⟨w', hw', rfl⟩ := Option.map_eq_some_iff.mp hstep
  exact hw'

/-- The caches and the builders of a history are described by their origins. -/
theorem describes_upkeep
    (h : (world rapidHash).ReachableVia (Upkeep rapidHash vectors buildFile) w) :
    Traced Describes w :=
  describes (fun _ _ hG _ => hG.intact) h

/-- Over one manifest, every origin has its text and no run is a dry run. -/
theorem origins_upkeep
    (h : (world rapidHash).ReachableVia (Upkeep rapidHash vectors buildFile) w) :
    Origins (fun disk origin => disk.content buildFile = some origin.text)
      (fun run => run.request.buildFile = buildFile ∧ run.request.dryRun = false) w := by
  refine origins_via ?_ ?_ ?_ ?_ h
  · exact fun w request hG => ⟨hG.manifest.1 request rfl, hG.dryRun request rfl⟩
  · exact fun disk run text hrun htext => hrun.1 ▸ htext
  · exact fun disk origin run _ hP => hP
  · intro w a w' origin hG hstep hP
    exact (Disk.content_congr (hG.manifest.2 w' hstep)).trans hP

/-- No tool exits when the phase stays. -/
theorem exited_of_phase_eq (h : w'.phase = w.phase) : w.exited w' = none := by
  rw [World.exited, h]
  cases w.phase <;> simp [toolExited]

theorem not_involved_of_looksAt {path : Bytes} (h : w.looksAt path = false)
    (hp : w.phase = .executing run b origin s) :
    Involved b.graph run.request.buildFile path = false := by
  rwa [World.looksAt, hp] at h

/-- The phase stays, and files change: what attested the outputs still does. -/
theorem ValuesKnown.frame {phase : Phase}
    (h : ValuesKnown tc rapidHash vectors buildFile x phase)
    (hcache : ∀ c, x'.world.usableCache buildFile = some c →
      x.world.usableCache buildFile = some c)
    (hcached : ∀ c, x.world.cache = some c → ∀ st ∈ c.builder.graph.steps,
      Attested tc rapidHash vectors x.world.disk x.contents st →
        Attested tc rapidHash vectors x'.world.disk x'.contents st)
    (hloaded : ∀ run b origin, phase = .emitting run b origin ∨ phase = .parsed run b origin →
      ∀ st ∈ b.graph.steps, Attested tc rapidHash vectors x.world.disk x.contents st →
        Attested tc rapidHash vectors x'.world.disk x'.contents st)
    (hbuilding : ∀ run b origin s, phase = .executing run b origin s →
      Building tc rapidHash vectors run b s x.world.disk x.contents →
        Building tc rapidHash vectors run b s x'.world.disk x'.contents) :
    ValuesKnown tc rapidHash vectors buildFile x' phase := by
  -- the cache that is usable now was usable before
  have hidle : (∀ c, x.world.usableCache buildFile = some c →
      ∀ st ∈ c.builder.graph.steps, Attested tc rapidHash vectors x.world.disk x.contents st) →
      ∀ c, x'.world.usableCache buildFile = some c →
        ∀ st ∈ c.builder.graph.steps,
          Attested tc rapidHash vectors x'.world.disk x'.contents st := by
    intro hall c hc st hst
    exact hcached c (usableCache_eq (hcache c hc)).1 st hst (hall c (hcache c hc) st hst)
  cases phase with
  | idle => exact hidle h
  | checking run => exact hidle h
  | reading run =>
    refine Option.eq_none_iff_forall_ne_some.mpr fun c hc => ?_
    have hnone : x.world.usableCache buildFile = none := h
    simp [hnone] at hcache
    exact hcache c hc
  | emitting run b origin =>
    exact ⟨fun c hc => h.1 c (hcache c hc),
      fun st hst => hloaded run b origin (.inl rfl) st hst (h.2 st hst)⟩
  | parsed run b origin =>
    exact ⟨fun c hc => h.1 c (hcache c hc),
      fun st hst => hloaded run b origin (.inr rfl) st hst (h.2 st hst)⟩
  | executing run b origin s =>
    exact ⟨fun c hc => h.1 c (hcache c hc), hbuilding run b origin s rfl h.2⟩

/-- A run ends, and no outputs are left that the cache tells nothing of. -/
theorem ValuesKnown.idle {phase : Phase}
    (h : ValuesKnown tc rapidHash vectors buildFile x phase)
    (hbuilding : ∀ run b origin s, phase = .executing run b origin s →
      b.graph.WellFormed ∧ AllRecorded b.graph s.data) :
    ValuesKnown tc rapidHash vectors buildFile x .idle := by
  intro c hc
  cases phase with
  | idle => exact h c hc
  | checking run => exact h c hc
  | reading run =>
    rw [show x.world.usableCache buildFile = none from h] at hc
    cases hc
  | emitting run b origin =>
    rw [h.1 c hc]
    exact h.2
  | parsed run b origin =>
    rw [h.1 c hc]
    exact h.2
  | executing run b origin s =>
    obtain ⟨hg, hall⟩ := hbuilding run b origin s rfl
    rw [h.1 c hc]
    exact h.2.attested_of_allRecorded hg hall

/-- Nobody writes the output of a step that some graph of the history has. -/
theorem ne_output_of_written
    (h : (world rapidHash).ReachableVia (Upkeep rapidHash vectors buildFile) w) {path : Bytes}
    (hpath : ∀ st ∈ w.declared buildFile, path ≠ st.output) :
    (∀ c, w.cache = some c → ∀ st ∈ c.builder.graph.steps, path ≠ st.output) ∧
      ∀ run b origin, w.phase = .emitting run b origin ∨ w.phase = .parsed run b origin →
        ∀ st ∈ b.graph.steps, path ≠ st.output := by
  have htraced := describes_upkeep h
  have horigins := origins_upkeep h
  have hdeclared : ∀ {b origin}, Describes origin b →
      w.disk.content buildFile = some origin.text → ∀ st ∈ b.graph.steps, path ≠ st.output := by
    intro b origin hd htext st hst
    obtain ⟨st', hst', hout⟩ := hd.shows.output_declared htext hst
    rw [hout]
    exact hpath st' hst'
  refine ⟨fun c hc => hdeclared (htraced.cache c hc) (horigins.cache c hc), ?_⟩
  intro run b origin hp
  have hphase := htraced.phase
  have htext := horigins.origin
  rcases hp with hp | hp
  · rw [hp] at hphase htext
    exact hdeclared hphase (htext origin rfl)
  · rw [hp] at hphase htext
    exact hdeclared hphase (htext origin rfl)

/-- So do the hashes in a cache that a successful build has written. -/
theorem Building.attested_emitted (hd : Describes origin b) (hsep : Separates vectors rapidHash)
    (h : Building tc rapidHash vectors run b s w.disk x.contents)
    (hjoin : s.Joined run.request.pool) (hok : s.executeResult b.graph = .ok ()) {c : Cache}
    {mtime : FileTime} (hc : w.emitted (b.built s) origin (some mtime) = some c) :
    ∀ st ∈ c.builder.graph.steps, Attested tc rapidHash vectors w.disk x.contents st := by
  obtain ⟨image, himage⟩ := h.exists_emitBin hsep
  simp only [World.emitted, himage, Option.some.injEq] at hc
  have hbuilder : c.builder = b.built s := by
    rw [← hc]
    exact (Describes.built hd s).parseBin himage
  rw [hbuilder]
  exact h.attested_built (Describes.wellFormed hd) hsep hjoin hok

/-- What the environment writes, in place or not, is no output, and as an input it is newer than the
outputs. -/
theorem ValuesKnown.write {path : Bytes} {f : File} {v : V}
    (hI : ValuesKnown tc rapidHash vectors buildFile x x.world.phase)
    (hworld : (world rapidHash).ReachableVia (Upkeep rapidHash vectors buildFile) x.world)
    (hwritten : (∀ st ∈ x.world.declared buildFile, path ≠ st.output) ∧
      x.world.disk.olderThan f.mtime = true)
    (hapart : x.world.looksAt path = false)
    (hwell : ∀ {run b origin s}, x.world.phase = .executing run b origin s → b.graph.WellFormed)
    (hdisk : x'.world.disk = x.world.disk.write path f)
    (hcontents : x'.contents = Function.update x.contents path (some v))
    (hcache : ∀ c, x'.world.usableCache buildFile = some c →
      x.world.usableCache buildFile = some c) :
    ValuesKnown tc rapidHash vectors buildFile x' x.world.phase := by
  obtain ⟨hpath, hold⟩ := hwritten
  obtain ⟨hcached, hloaded⟩ := ne_output_of_written hworld hpath
  -- what is written is no output, and is newer than all outputs it could feed
  refine ValuesKnown.frame (x := x) hI hcache ?_ ?_ ?_
  · intro c hc st hst ha
    rw [hdisk, hcontents]
    exact ha.write (hcached c hc st hst) hold
  · intro run b origin hp st hst ha
    rw [hdisk, hcontents]
    exact ha.write (hloaded run b origin hp st hst) hold
  · intro run b origin s hp hb
    have hnot := not_involved_of_looksAt hapart hp
    rw [hdisk, hcontents]
    exact hb.frame (hwell hp) hnot (seen_write hnot)

/-- A move keeps what is known. -/
theorem ValuesKnown.step (hsep : Separates vectors rapidHash) {a : Act × V}
    (hr : (valued tc rapidHash).ReachableVia (Maintained tc rapidHash vectors buildFile) x)
    (hI : ValuesKnown tc rapidHash vectors buildFile x x.world.phase)
    (hG : Maintained tc rapidHash vectors buildFile x a)
    (hstep : (valued tc rapidHash).step x a = some x') :
    ValuesKnown tc rapidHash vectors buildFile x' x'.world.phase := by
  obtain ⟨a, v⟩ := a
  obtain ⟨hupkeep, hreads⟩ := hG
  obtain ⟨w', hw', rfl⟩ := Option.map_eq_some_iff.mp hstep
  have hworld := upkeep_world hr
  have htraced := describes_upkeep hworld
  have hrun := (origins_upkeep hworld).run
  have hphase := htraced.phase
  have hfile := hupkeep.manifest.2 w' hw'
  have hwell : ∀ {run b origin s}, x.world.phase = .executing run b origin s →
      b.graph.WellFormed := by
    intro run b origin s hp
    rw [hp] at hphase
    exact Describes.wellFormed hphase
  cases worldStep_cases hw' with
  | @write path f =>
    exact hI.write hworld (hupkeep.written (path, f) rfl) (hupkeep.apart path rfl) hwell rfl rfl
      fun c hc => usableCache_of_same hc rfl hfile
  | @overwrite path f =>
    exact hI.write hworld (hupkeep.written (path, f) rfl) (hupkeep.apart path rfl) hwell rfl rfl
      fun c hc => usableCache_of_same hc rfl hfile
  | @remove path =>
    refine ValuesKnown.frame (x := x) hI (fun c hc => usableCache_of_same hc rfl hfile)
      (fun c hc st hst ha => ha.remove) (fun run b origin hp st hst ha => ha.remove) ?_
    intro run b origin s hp hb
    have hnot := not_involved_of_looksAt (hupkeep.apart path rfl) hp
    exact hb.frame (hwell hp) hnot (seen_remove hnot)
  | removeCache =>
    have hnone : x.world.exited { x.world with cache := none } = none := exited_of_phase_eq rfl
    simp only [Valued.after, hnone, Toolchain.afterTool]
    refine ValuesKnown.frame (x := x) hI (fun c hc => ?_) (fun _ _ _ _ ha => ha)
      (fun _ _ _ _ _ _ ha => ha) fun _ _ _ _ _ hb => hb
    simp [World.usableCache] at hc
  | launch hp =>
    rw [hp] at hI
    simp only [Valued.after, World.exited, hp, Toolchain.afterTool]
    exact hI
  | @useCache run c hp hc =>
    rw [hp] at hI hrun
    simp only [Valued.after, World.exited, hp, Toolchain.afterTool]
    rw [(hrun run rfl).1] at hc
    refine ⟨fun c' hc' => ?_, hI c hc⟩
    obtain rfl := Option.some.inj (hc.symm.trans hc')
    rfl
  | @rejectCache run hp hnone =>
    rw [hp] at hrun
    exact (hrun run rfl).1 ▸ hnone
  | readFailed hp =>
    simp only [Valued.after, World.exited, hp, Toolchain.afterTool]
    rw [hp] at hI
    exact hI.idle (by simp)
  | read hp _ hb =>
    rw [hp] at hI
    refine ⟨fun c hc => ?_, fun st hst => .inl ?_⟩
    · change x.world.usableCache buildFile = some c at hc
      simp [show x.world.usableCache buildFile = none from hI] at hc
    · -- a manifest has no hashes, so all steps are yet to run
      obtain ⟨m, hm, -, hsteps⟩ := steps_parseText hb
      rw [hsteps] at hst
      obtain ⟨st₀, hst₀, rfl⟩ := List.mem_map.mp hst
      exact (splitInputs_frame st₀).2.2.2.2.2.trans (raw_manifestOf hm st₀ hst₀).commandHash
  | @emit run b b' origin io hp hb' =>
    rw [hp] at hI hphase
    rw [hupkeep.intact.shown_eq] at hb'
    subst b'
    simp only [Valued.after, World.exited, hp, Toolchain.afterTool]
    refine ⟨fun c hc => ?_, hI.2⟩
    obtain ⟨hcache, f, hf, hlt⟩ := usableCache_eq hc
    -- the cache is the one from before, or the loaded builder has just been written to it
    rcases emitted_cases hcache with hold | ⟨-, himage, -⟩
    · apply hI.1
      have hfile : x.world.disk.file buildFile = some f := hf
      simp [World.usableCache, hold, Disk.mtime, hfile, hlt]
    · rw [Cache.builder, Describes.parseBin hphase himage]
  | @execute run b₀ b b' origin order hp hb hb' horder =>
    have hcycle := World.noCycle_of_execute hp hw'
    rw [hupkeep.intact.shown_eq] at hb'
    subst b'
    rw [hp] at hI hrun hphase
    simp only [Valued.after, World.exited, hp, Toolchain.afterTool]
    have hgraph : b.graph = b₀.graph := by rw [hb, COBBuilder.graph_override]
    have hg : b.graph.WellFormed := hgraph ▸ Describes.wellFormed hphase
    rw [← hb] at hcycle
    refine ⟨fun c hc => (hI.1 c hc).trans hgraph.symm, building_initialState hg
      ((noCycle_iff hg.target_isStep).mp hcycle) (hrun run rfl).2 ?_ horder (hgraph ▸ hI.2)⟩
    exact hupkeep.plain (stepContext rapidHash run b) (by simp [World.builds, hp, hb])
  | @work run b b' origin s action s' hp hb' hs =>
    have hg := hwell hp
    rw [hp] at hI
    rw [hupkeep.intact.shown_eq] at hb'
    subst b'
    have hexited : x.world.exited { x.world with
        phase := .executing run b origin s'
        disk := s'.data.disk
        mapped := x.world.remapped s'.data.disk } = toolExited b.graph s.data s'.data := by
      simp [World.exited, hp]
    have hread := hreads _ hw'
    simp only [Valued.after]
    rw [hexited] at hread ⊢
    exact ⟨fun c hc => hI.1 c (usableCache_of_same hc rfl hfile), hI.2.work hg hs hread⟩
  | @rewrite run b b' origin s io hp hjoin hrw hb' =>
    have hg := hwell hp
    rw [hupkeep.intact.shown_eq] at hb'
    subst hb'
    rw [hp] at hI hphase
    simp only [Valued.after, World.exited, hp, Toolchain.afterTool]
    intro c hc
    cases io with
    | none =>
      -- the cache stays as it was, so all that ran has to be in it
      have hall := hupkeep.remembers (b.graph, s.data) (by simp [World.forgets, hp])
      have hold : x.world.usableCache buildFile = some c := by
        simpa [World.usableCache, World.emitted] using hc
      rw [hI.1 c hold]
      exact hI.2.attested_of_allRecorded hg hall
    | some mtime =>
      have hok : s.executeResult b.graph = .ok () := by
        simp only [rewrites, decide_eq_true_eq] at hrw
        exact hrw.1
      exact hI.2.attested_emitted hphase hsep hjoin hok (usableCache_eq hc).1
  | @finish run b origin s io hp hjoin hrw =>
    have hall := hupkeep.remembers (b.graph, s.data) (by simp [World.forgets, hp, hrw])
    simp only [Valued.after, World.exited, hp, Toolchain.afterTool]
    refine ValuesKnown.idle (x := x) hI ?_
    rintro run' b' origin' s' hp'
    obtain ⟨rfl, rfl, rfl, rfl⟩ := Phase.executing.inj (hp.symm.trans hp')
    exact ⟨hwell hp, hall⟩
  | stop =>
    have hnone : x.world.exited { x.world with phase := .idle } = none := by
      cases hp : x.world.phase <;> simp [World.exited, hp]
    simp only [Valued.after, hnone, Toolchain.afterTool]
    refine ValuesKnown.idle (x := x) hI ?_
    rintro run b origin s hp
    exact ⟨hwell hp, hupkeep.remembers (b.graph, s.data) (by simp [World.forgets, hp])⟩

/-- In every history the hashes attest the outputs. -/
theorem valuesKnown (hsep : Separates vectors rapidHash)
    (h : (valued tc rapidHash).ReachableVia (Maintained tc rapidHash vectors buildFile) x) :
    ValuesKnown tc rapidHash vectors buildFile x x.world.phase := by
  refine Machine.ReachableVia.invariant
    (I := fun x => ValuesKnown tc rapidHash vectors buildFile x x.world.phase) ?_ ?_ h
  · rintro x ⟨hcache, hphase, -⟩
    rw [hphase]
    intro c hc
    simp [World.usableCache, hcache] at hc
  · exact fun x a x' hr hI hG hstep => hI.step hsep hr hG hstep

/-- **Incremental builds.** In every history of the manifest, after a successful build every output
is what its command would make of the files as they are now. -/
theorem made_of_execute (hsep : Separates vectors rapidHash)
    (h : (valued tc rapidHash).ReachableVia (Maintained tc rapidHash vectors buildFile) x)
    (hp : x.world.phase = .executing run b origin s) (hjoin : s.Joined run.request.pool)
    (hok : s.executeResult b.graph = .ok ()) :
    ∀ st ∈ b.graph.steps, x.contents st.output =
      some (tc.make ((stepContext rapidHash run b).command st).args x.contents) := by
  have hknown := valuesKnown hsep h
  have hphase := (describes_upkeep (upkeep_world h)).phase
  rw [hp] at hknown hphase
  intro st hst
  exact (hknown.2.current_of_ok (Describes.wellFormed hphase) hsep hjoin hok st hst).1

/-- The targets of a build. -/
def targets (tc : Toolchain V) (rapidHash : Bytes → UInt64 → UInt64) (run : Run)
    (b : COBBuilder) : Set (Make.Target Bytes (Option V)) :=
  {t | ∃ st ∈ b.graph.steps,
    t = tc.target st ((stepContext rapidHash run b).command st).args}

/-- No target of an acyclic graph is made from itself. -/
theorem wellFounded_feeds (hg : b.graph.WellFormed) (hacyclic : b.graph.Acyclic) :
    WellFounded (Make.Feeds (targets tc rapidHash run b)) := by
  refine Subrelation.wf (r := InvImage b.graph.Edge fun p => (b.graph.findNode p).getD 0) ?_
    (InvImage.wf _ hacyclic.wellFounded)
  rintro p q ⟨t, ⟨st, hst, rfl⟩, rfl, hp⟩
  obtain ⟨v, k, hstep, -⟩ := hg.exists_node hst
  obtain ⟨st', hst', hpath⟩ := hg.exists_stepOf (isStep_of_stepOf hstep)
  obtain rfl : st = st' := Option.some.inj (hstep.symm.trans hst')
  obtain ⟨u, hu, hedge⟩ := hg.exists_edge hstep hp
  have hv : b.graph.findNode st.output = some v := (hg.indexed _ v).mpr hpath
  have hu' : b.graph.findNode p = some u := (hg.indexed _ u).mpr hu
  simpa [InvImage, Toolchain.target, hv, hu'] using hedge

/-- Builders that differ in command hashes only have the same targets. -/
theorem targets_subset (run' : Run) {b' : COBBuilder} (hsame : b.graph.Same b'.graph)
    (hdefs : b.definitions = b'.definitions) :
    targets tc rapidHash run b ⊆ targets tc rapidHash run' b' := by
  rintro t ⟨st, hst, rfl⟩
  obtain ⟨k, hk⟩ := List.mem_iff_getElem?.mp hst
  obtain ⟨st', hst', heq⟩ := hsame.getElem? hk
  refine ⟨st', List.mem_of_getElem? hst', ?_⟩
  rw [BuildStep.eq_of_clearHash heq]
  simp only [stepContext, StepContext.command, hdefs]
  rfl

/-- **As good as a clean build.** Two successful builds of the same steps, each at the end of its
own history, leave the same in every output when the sources are the same: whatever an incremental
build did not make again, a build of everything would have made so. -/
theorem eq_of_execute {y : Valued V} {run' : Run} {b' : COBBuilder} {origin' : Origin}
    {s' : State BuildData Call} (hsep : Separates vectors rapidHash)
    (h : (valued tc rapidHash).ReachableVia (Maintained tc rapidHash vectors buildFile) x)
    (hp : x.world.phase = .executing run b origin s) (hjoin : s.Joined run.request.pool)
    (hok : s.executeResult b.graph = .ok ())
    (h' : (valued tc rapidHash).ReachableVia (Maintained tc rapidHash vectors buildFile) y)
    (hp' : y.world.phase = .executing run' b' origin' s') (hjoin' : s'.Joined run'.request.pool)
    (hok' : s'.executeResult b'.graph = .ok ())
    (hsame : b.graph.Same b'.graph) (hdefs : b.definitions = b'.definitions)
    (hsources : ∀ v p, b.graph.pathOf v = some p → b.graph.isStep v = false →
      y.contents p = x.contents p) :
    ∀ st ∈ b.graph.steps, y.contents st.output = x.contents st.output := by
  have hknown := valuesKnown hsep h
  have hphase := (describes_upkeep (upkeep_world h)).phase
  have hknown' := valuesKnown hsep h'
  have hphase' := (describes_upkeep (upkeep_world h')).phase
  rw [hp] at hknown hphase
  rw [hp'] at hknown' hphase'
  have hg : b.graph.WellFormed := Describes.wellFormed hphase
  have hcurrent : ∀ t ∈ targets tc rapidHash run b, t.Current x.contents := by
    rintro t ⟨st, hst, rfl⟩
    exact hknown.2.current_of_ok hg hsep hjoin hok st hst
  have hcurrent' : ∀ t ∈ targets tc rapidHash run b, t.Current y.contents := by
    intro t ht
    obtain ⟨st, hst, rfl⟩ := targets_subset run' hsame hdefs ht
    exact hknown'.2.current_of_ok (Describes.wellFormed hphase') hsep hjoin' hok' st hst
  intro st hst
  refine Make.eq_of_current (wellFounded_feeds hg hknown.2.acyclic) hcurrent hcurrent' ?_
    (tc.target st ((stepContext rapidHash run b).command st).args) ⟨st, hst, rfl⟩
  -- an input that no step makes is a source
  rintro t ⟨st', hst', rfl⟩ p hin hnone
  obtain ⟨v, k, hstep, -⟩ := hg.exists_node hst'
  obtain ⟨u, hu, -⟩ := hg.exists_edge hstep hin
  apply hsources u p hu
  rw [← Bool.not_eq_true]
  intro hmade
  obtain ⟨st₁, hst₁, hpath⟩ := hg.exists_stepOf hmade
  exact hnone _ ⟨st₁, mem_steps_of_stepOf hst₁, rfl⟩ (Option.some.inj (hpath.symm.trans hu))

end History

end Incremental

/-- A manifest that links `a` from `s` and `b` from `a`, as it is parsed. -/
def relinkBuilder : COBBuilder :=
  ((parseText (fun _ => none) relinkText .empty).toOption).getD .empty

/-- Tools that read their first file, and make a number of it. -/
def countTools : Toolchain ℕ where
  make args val := (((args.drop 1).take 1).map fun p => (val p).getD 0).sum + args.length
  reads args _ := (args.drop 1).take 1
  stable args val val' h := by
    have hmap : (((args.drop 1).take 1).map fun p => (val' p).getD 0) =
        ((args.drop 1).take 1).map fun p => (val p).getD 0 :=
      List.map_congr_left fun p hp => by rw [h p hp]
    exact ⟨by rw [hmap], rfl⟩

/-- The manifest and the source `s`, nothing built yet. -/
def relinkSite (n : ℕ) : Valued ℕ where
  world := relinkWorld
  contents p := if p = ascii "s" then some n else none

/-- Everything is built, `s` is edited, the next run is killed when it has linked `a`, and another
run links `b`. -/
def killedLink : List (Act × ℕ) :=
  let acts : List Act := firstLink ++ [.write (ascii "s") ⟨50, .unknown⟩] ++ relink [] ++
    tools 13 0 60 ++ [.stop] ++ relink [] ++ tools 34 0 70
  acts.map (·, 5)

/-- A first run, with the edited `s`. -/
def cleanLink : List (Act × ℕ) := firstLink.dropLast.map (·, 5)

/-- The build in progress has been successful, with `s` as it was edited. -/
def Valued.relinked (x : Valued ℕ) : Bool :=
  match x.world.phase with
  | .executing run b _ s => s.Joined run.request.pool ∧ s.executeResult b.graph = .ok () ∧
      b.graph.Same relinkBuilder.graph ∧ b.definitions = relinkBuilder.definitions ∧
      x.contents (ascii "s") = some 5
  | _ => false

theorem exists_relinked (n : ℕ) (as : List (Act × ℕ))
    (has : ((valued countTools sumHash).exec ([], relinkSite n) as).any (fun r =>
      (r.1.all fun m => decide (Maintained countTools sumHash {args | args ∈ relinkVectors}
        (ascii "catalyst.build") m.1 m.2)) && r.2.relinked) = true) :
    ∃ x run b origin s, (valued countTools sumHash).ReachableVia
        (Maintained countTools sumHash {args | args ∈ relinkVectors} (ascii "catalyst.build")) x ∧
      x.world.phase = .executing run b origin s ∧ s.Joined run.request.pool ∧
      s.executeResult b.graph = .ok () ∧ b.graph.Same relinkBuilder.graph ∧
      b.definitions = relinkBuilder.definitions ∧ x.contents (ascii "s") = some 5 := by
  obtain ⟨x, hvia, hx⟩ := Machine.exists_via_of_exec (M := valued countTools sumHash)
    (s := relinkSite n) ⟨rfl, rfl, rfl⟩ as Valued.relinked has
  unfold Valued.relinked at hx
  split at hx
  · next run b origin s hp =>
    exact ⟨x, run, b, origin, s, hvia, hp, of_decide_eq_true hx⟩
  · simp at hx

theorem exists_killed : ∃ x run b origin s, (valued countTools sumHash).ReachableVia
      (Maintained countTools sumHash {args | args ∈ relinkVectors} (ascii "catalyst.build")) x ∧
    x.world.phase = .executing run b origin s ∧ s.Joined run.request.pool ∧
    s.executeResult b.graph = .ok () ∧ b.graph.Same relinkBuilder.graph ∧
    b.definitions = relinkBuilder.definitions ∧ x.contents (ascii "s") = some 5 :=
  exists_relinked 3 killedLink (by decide +kernel)

/-- The last run has linked `b` only, and `a` is what its command makes of the edited `s`. -/
theorem made_of_execute_killed : ∃ x run b origin s, (valued countTools sumHash).ReachableVia
      (Maintained countTools sumHash {args | args ∈ relinkVectors} (ascii "catalyst.build")) x ∧
    x.world.phase = .executing run b origin s ∧
    ∀ st ∈ b.graph.steps, x.contents st.output =
      some (countTools.make ((stepContext sumHash run b).command st).args x.contents) := by
  obtain ⟨x, run, b, origin, s, hvia, hp, hjoin, hok, -⟩ := exists_killed
  exact ⟨x, run, b, origin, s, hvia, hp,
    made_of_execute separates_relinkVectors hvia hp hjoin hok⟩

/-- Both outputs are what a build of everything leaves. -/
theorem eq_of_execute_killed : ∃ x y : Valued ℕ, ∃ run b origin s,
    x.world.phase = .executing run b origin s ∧ b.graph.Same relinkBuilder.graph ∧
    ∀ st ∈ b.graph.steps, y.contents st.output = x.contents st.output := by
  obtain ⟨x, run, b, origin, s, hvia, hp, hjoin, hok, hsame, hdefs, hs⟩ := exists_killed
  obtain ⟨y, run', b', origin', s', hvia', hp', hjoin', hok', hsame', hdefs', hs'⟩ :=
    exists_relinked 5 cleanLink (by decide +kernel)
  refine ⟨x, y, run, b, origin, s, hp, hsame, eq_of_execute separates_relinkVectors hvia hp hjoin
    hok hvia' hp' hjoin' hok' (hsame.trans hsame'.symm) (hdefs.trans hdefs'.symm) ?_⟩
  intro v p hpath hsource
  have honly : ∀ v < relinkBuilder.graph.nodes.length, ∀ p ∈ relinkBuilder.graph.pathOf v,
      relinkBuilder.graph.isStep v = false → p = ascii "s" := by decide +kernel
  rw [pathOf, hsame.nodes] at hpath
  rw [isStep, hsame.nodes] at hsource
  obtain ⟨node, hnode, -⟩ := Option.map_eq_some_iff.mp hpath
  obtain rfl := honly v (List.getElem?_eq_some_iff.mp hnode).1 p hpath hsource
  rw [hs, hs']

end Cob
