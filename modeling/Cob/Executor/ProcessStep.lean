import Cob.Command
import Cob.Executor.NodeTimes
import Cob.Executor.WorkerPool

/-!
# Processing a step

`processStep` and `needsRebuild`, one shared access at a time: the disk, the slots of `NodeTimes`
and the command hashes are what concurrent calls share. The environment runs the tools: it
chooses how a tool ends and the time of what it writes. A tool that exits with `0` rewrites the
output of its step, at a time after everything that existed when it started; any other leaves the
disk as it is. The environment also chooses how far the writing of a response file gets.

`Advance` lists what a call can do, one constructor for each branch of `advance`.
-/

namespace Cob

open BuildGraph NodeTimes

/-- What the calls of `processStep` read and never change. -/
structure StepContext where
  graph : BuildGraph
  flags : ToolchainFlags
  buildFile : Bytes
  dryRun : Bool
  rapidHash : Bytes → UInt64 → UInt64

/-- An argument vector and its hash. -/
structure Command where
  args : List Bytes
  hash : UInt64
  deriving DecidableEq

/-- What the calls of `processStep` share. -/
structure BuildData where
  disk : Disk
  sources : List SourceSummary
  slots : ℕ → Slot
  buildFileSlot : Slot
  /-- `command_hash` of the steps, by step id. -/
  commandHash : ℕ → UInt64
  hashesChanged : Bool
  /-- The steps whose tool exited with `0`, with its command: a history variable. -/
  ran : List (ℕ × Command)
  /-- A response file was not written as a whole: another history variable. -/
  rspFailed : Bool

/-- The slot that `changedSince` looks at. -/
inductive SlotRef where
  | buildFile
  | node (i : ℕ)
  deriving DecidableEq

/-- Where a call of `changedSince` is. -/
inductive Probe where
  /-- `slot.state.load()` -/
  | load
  /-- `last_write_time(path)` -/
  | stat
  /-- `slot.state.compare_exchange_strong(UNKNOWN, BUSY)` -/
  | exchange (time : Option FileTime)
  /-- the stores that fill the slot -/
  | fill (time : Option FileTime)
  deriving DecidableEq

/-- Where a call of `processStep` is. -/
inductive Call where
  /-- `buildCommandArgs` and `hashCommand` in `needsRebuild` -/
  | command
  /-- `last_write_time(step.output)`, and the comparison of the hashes -/
  | statOutput (cmd : Command)
  /-- `changedSince` for `slot`; the produced inputs `rest` come after it -/
  | probe (cmd : Command) (outputTime : FileTime) (slot : SlotRef) (rest : List ℕ) (pos : Probe)
  /-- the compare-exchange of `record` -/
  | recordExchange (outputTime : FileTime)
  /-- the stores of `record` -/
  | recordFill (outputTime : FileTime)
  /-- `needsRebuild` answered true -/
  | rebuild (cmd : Command)
  /-- the process is started -/
  | spawn (cmd : Command)
  /-- the process runs; `since` is the disk when it started -/
  | running (cmd : Command) (since : Disk)
  /-- `step.command_hash = step_hash` -/
  | commit (hash : UInt64)
  /-- `node_times.invalidate` -/
  | invalidate
  deriving DecidableEq

/-- How the environment ends a tool: its exit code, none when it could not be run, and the time
of the file that is written. For a response file the code is `0` when all of it is written, none if
it could not be opened, and else how many bytes are written before the stream fails. -/
structure Outcome where
  code : Option ℤ
  mtime : FileTime
  deriving DecidableEq

namespace BuildData

/-- What `execute` hands to the workers: the summaries of the sources and empty slots. -/
def start (ctx : StepContext) (disk : Disk) : BuildData where
  disk := disk
  sources := sourceSummaries ctx.graph disk
  slots _ := {}
  buildFileSlot := {}
  commandHash k := (ctx.graph.steps[k]?.map BuildStep.commandHash).getD 0
  hashesChanged := false
  ran := []
  rspFailed := false

/-- The slot a reference names. -/
def slot (d : BuildData) : SlotRef → Slot
  | .buildFile => d.buildFileSlot
  | .node i => d.slots i

/-- The data with a slot replaced. -/
def setSlot (d : BuildData) (ref : SlotRef) (slot : Slot) : BuildData :=
  match ref with
  | .buildFile => { d with buildFileSlot := slot }
  | .node i => { d with slots := Function.update d.slots i slot }

/-- Storing the hash of the command that a step was built with. -/
def setHash (d : BuildData) (k : ℕ) (hash : UInt64) : BuildData :=
  { d with
    commandHash := Function.update d.commandHash k hash
    hashesChanged := d.hashesChanged || decide (d.commandHash k ≠ hash) }

/-- A tool that exits with `0` has written the output of its step. -/
def exited (d : BuildData) (k : ℕ) (st : BuildStep) (cmd : Command) (mtime : FileTime) :
    BuildData :=
  { d with
    disk := d.disk.write st.output ⟨mtime, .made cmd.args⟩
    ran := (k, cmd) :: d.ran }

/-- `rsp_file` is opened, written and closed, and nobody looks at its state. -/
def writeRsp (d : BuildData) (st : BuildStep) (outcome : Outcome) : BuildData :=
  match outcome.code with
  | none => { d with rspFailed := true }
  | some code =>
    if code = 0 then
      { d with disk := d.disk.write st.rspPath ⟨outcome.mtime, .text st.rspContent⟩ }
    else
      { d with
        disk := d.disk.write st.rspPath ⟨outcome.mtime, .text (st.rspContent.take code.toNat)⟩
        rspFailed := true }

/-- `isNewer`. -/
def isNewer (d : BuildData) (newFile oldFile : Bytes) : Bool :=
  match d.disk.mtime newFile, d.disk.mtime oldFile with
  | some newTime, some oldTime => decide (oldTime < newTime)
  | _, _ => true

/-- A response file is there and newer than the manifest. -/
def usableRsp (ctx : StepContext) (d : BuildData) (st : BuildStep) : Bool :=
  (d.disk.file st.rspPath).isSome && d.isNewer st.rspPath ctx.buildFile

section WriteRsp

variable {d : BuildData} {st : BuildStep} {outcome : Outcome}

/-- Writing a response file leaves the files as they are, or replaces that one. -/
theorem disk_writeRsp : (d.writeRsp st outcome).disk = d.disk ∨
    ∃ f, (d.writeRsp st outcome).disk = d.disk.write st.rspPath f := by
  unfold writeRsp
  split
  · exact .inl rfl
  · split_ifs
    · exact .inr ⟨_, rfl⟩
    · exact .inr ⟨_, rfl⟩

theorem file_writeRsp_of_ne {p : Bytes} (h : p ≠ st.rspPath) :
    (d.writeRsp st outcome).disk.file p = d.disk.file p := by
  rcases @disk_writeRsp d st outcome with hsame | ⟨f, hwrite⟩
  · rw [hsame]
  · rw [hwrite, Disk.file_write_of_ne h]

/-- What is no file and no failure stays. -/
theorem writeRsp_eq : d.writeRsp st outcome =
    { d with
      disk := (d.writeRsp st outcome).disk
      rspFailed := (d.writeRsp st outcome).rspFailed } := by
  unfold writeRsp
  split
  · rfl
  · split_ifs
    · rfl
    · rfl

@[simp]
theorem sources_writeRsp : (d.writeRsp st outcome).sources = d.sources := by rw [writeRsp_eq]

@[simp]
theorem slot_writeRsp (ref : SlotRef) : (d.writeRsp st outcome).slot ref = d.slot ref := by
  rw [writeRsp_eq]
  cases ref <;> rfl

@[simp]
theorem slots_writeRsp : (d.writeRsp st outcome).slots = d.slots := by rw [writeRsp_eq]

@[simp]
theorem commandHash_writeRsp : (d.writeRsp st outcome).commandHash = d.commandHash := by
  rw [writeRsp_eq]

@[simp]
theorem hashesChanged_writeRsp : (d.writeRsp st outcome).hashesChanged = d.hashesChanged := by
  rw [writeRsp_eq]

@[simp]
theorem ran_writeRsp : (d.writeRsp st outcome).ran = d.ran := by rw [writeRsp_eq]

/-- Where nothing was said to fail, the whole content is there. -/
theorem file_writeRsp (h : (d.writeRsp st outcome).rspFailed = false) :
    d.rspFailed = false ∧ ∃ t, (d.writeRsp st outcome).disk.file st.rspPath =
      some ⟨t, .text st.rspContent⟩ := by
  unfold writeRsp at h ⊢
  split at h
  · cases h
  · split_ifs at h ⊢
    · exact ⟨h, _, Disk.file_write_self⟩

end WriteRsp

end BuildData

@[simp]
theorem rspFailed_setSlot (d : BuildData) (ref : SlotRef) (slot : Slot) :
    (d.setSlot ref slot).rspFailed = d.rspFailed := by
  cases ref <;> rfl

section Advance

variable (ctx : StepContext)

/-- The path whose time a slot caches. -/
def slotPath : SlotRef → Bytes
  | .buildFile => ctx.buildFile
  | .node i => (ctx.graph.pathOf i).getD []

/-- `buildCommandArgs` with the hash of its result. -/
def commandOf (st : BuildStep) (usable : Bool) : Command :=
  let args := buildCommandArgs st ctx.flags usable
  ⟨args, hashCommand ctx.rapidHash args⟩

/-- The next produced input to look at, or `record` when none is left. -/
def nextInput (cmd : Command) (outputTime : FileTime) : List ℕ → Call
  | [] => .recordExchange outputTime
  | i :: rest => .probe cmd outputTime (.node i) rest .load

/-- How `needsRebuild` goes on after `changedSince` answered. The summary of the sources is looked
at after the manifest and before the produced inputs. -/
def afterProbe (d : BuildData) (node : ℕ) (cmd : Command) (outputTime : FileTime) (ref : SlotRef)
    (rest : List ℕ) (answer : Bool) : Call :=
  if answer then .rebuild cmd
  else if ref = .buildFile ∧ sourcesChanged (d.sources[node]?.getD {}) outputTime = true then
    .rebuild cmd
  else nextInput cmd outputTime rest

/-- The next access of a call of `processStep`. -/
def advance (d : BuildData) (node : ℕ) (call : Call) (outcome : Outcome) :
    Option (BuildData × (Call ⊕ ℤ)) :=
  match ctx.graph.stepOf node, ctx.graph.stepIdOf node with
  | some st, some k =>
    match call with
    | .command => some (d, .inl (.statOutput (commandOf ctx st (d.usableRsp ctx st))))
    | .statOutput cmd =>
      match d.disk.mtime st.output with
      | none => some (d, .inl (.rebuild cmd))
      | some t =>
        some (d, .inl (if d.commandHash k ≠ cmd.hash then .rebuild cmd
          else .probe cmd t .buildFile (producedIn ctx.graph node) .load))
    | .probe cmd t ref rest .load =>
      if (d.slot ref).state = .ready then
        some (d, .inl (afterProbe d node cmd t ref rest ((d.slot ref).changed t)))
      else some (d, .inl (.probe cmd t ref rest .stat))
    | .probe cmd t ref rest .stat =>
      some (d, .inl (.probe cmd t ref rest (.exchange (d.disk.mtime (slotPath ctx ref)))))
    | .probe cmd t ref rest (.exchange time) =>
      if (d.slot ref).state = .unknown then
        some (d.setSlot ref { d.slot ref with state := .busy },
          .inl (.probe cmd t ref rest (.fill time)))
      else some (d, .inl (afterProbe d node cmd t ref rest (changed time t)))
    | .probe cmd t ref rest (.fill time) =>
      some (d.setSlot ref (.filled time),
        .inl (afterProbe d node cmd t ref rest (changed time t)))
    | .recordExchange t =>
      if (d.slots node).state = .unknown then
        some (d.setSlot (.node node) { d.slots node with state := .busy }, .inl (.recordFill t))
      else some (d, .inr 0)
    | .recordFill t => some (d.setSlot (.node node) (.filled (some t)), .inr 0)
    | .rebuild cmd =>
      if ctx.dryRun then some (d, .inr 0)
      else if st.tool = ascii "ld" then
        let usable := d.usableRsp ctx st
        some
          (if st.writesRsp usable then d.writeRsp st outcome else d,
            .inl (.spawn { cmd with args := buildCommandArgs st ctx.flags usable }))
      else some (d, .inl (.spawn cmd))
    | .spawn cmd =>
      -- `process_exec` refuses an empty command
      if cmd.args = [] then some (d, .inr 1) else some (d, .inl (.running cmd d.disk))
    | .running cmd since =>
      match outcome.code with
      | none => some (d, .inr 1)
      | some code =>
        if code ≠ 0 then some (d, .inr code)
        else if since.olderThan outcome.mtime then
          some (d.exited k st cmd outcome.mtime, .inl (.commit cmd.hash))
        else none
    | .commit hash => some (d.setHash k hash, .inl .invalidate)
    | .invalidate =>
      let d' := d.setSlot (.node node) { d.slots node with state := .unknown }
      some
        (if ctx.graph.findNode ctx.buildFile = some node then
            d'.setSlot .buildFile { d'.buildFileSlot with state := .unknown }
          else d',
          .inr 0)
  -- a node without a step has nothing to do
  | _, _ => some (d, .inr 0)

/-- `processStep`. -/
def processStep : StepSemantics BuildData Call Outcome where
  enter _ := .command
  advance := advance ctx

/-- What a call of `processStep` for a step can do next. -/
inductive Advance (d : BuildData) (node k : ℕ) (st : BuildStep) :
    Call → BuildData → Call ⊕ ℤ → Prop
  | command : Advance d node k st .command d
      (.inl (.statOutput (commandOf ctx st (d.usableRsp ctx st))))
  | missing {cmd} : d.disk.mtime st.output = none →
      Advance d node k st (.statOutput cmd) d (.inl (.rebuild cmd))
  | hashDiffers {cmd t} : d.disk.mtime st.output = some t → d.commandHash k ≠ cmd.hash →
      Advance d node k st (.statOutput cmd) d (.inl (.rebuild cmd))
  | hashAgrees {cmd t} : d.disk.mtime st.output = some t → d.commandHash k = cmd.hash →
      Advance d node k st (.statOutput cmd) d
        (.inl (.probe cmd t .buildFile (producedIn ctx.graph node) .load))
  | loadReady {cmd t ref rest} : (d.slot ref).state = .ready →
      Advance d node k st (.probe cmd t ref rest .load) d
        (.inl (afterProbe d node cmd t ref rest ((d.slot ref).changed t)))
  | loadOther {cmd t ref rest} :
      Advance d node k st (.probe cmd t ref rest .load) d (.inl (.probe cmd t ref rest .stat))
  | stat {cmd t ref rest} :
      Advance d node k st (.probe cmd t ref rest .stat) d
        (.inl (.probe cmd t ref rest (.exchange (d.disk.mtime (slotPath ctx ref)))))
  | exchanged {cmd t ref rest time} : (d.slot ref).state = .unknown →
      Advance d node k st (.probe cmd t ref rest (.exchange time))
        (d.setSlot ref { d.slot ref with state := .busy })
        (.inl (.probe cmd t ref rest (.fill time)))
  | notExchanged {cmd t ref rest time} :
      Advance d node k st (.probe cmd t ref rest (.exchange time)) d
        (.inl (afterProbe d node cmd t ref rest (changed time t)))
  | fill {cmd t ref rest time} :
      Advance d node k st (.probe cmd t ref rest (.fill time)) (d.setSlot ref (.filled time))
        (.inl (afterProbe d node cmd t ref rest (changed time t)))
  | recordExchanged {t} : (d.slots node).state = .unknown →
      Advance d node k st (.recordExchange t)
        (d.setSlot (.node node) { d.slots node with state := .busy }) (.inl (.recordFill t))
  | notRecorded {t} : Advance d node k st (.recordExchange t) d (.inr 0)
  | recordFill {t} : Advance d node k st (.recordFill t)
      (d.setSlot (.node node) (.filled (some t))) (.inr 0)
  | dryRun {cmd} : ctx.dryRun = true → Advance d node k st (.rebuild cmd) d (.inr 0)
  | writeRsp {cmd outcome} : ctx.dryRun = false → st.tool = ascii "ld" →
      rspInputThreshold < st.parsedInputs.length → d.usableRsp ctx st = false →
      Advance d node k st (.rebuild cmd) (d.writeRsp st outcome)
        (.inl (.spawn { cmd with args := buildCommandArgs st ctx.flags (d.usableRsp ctx st) }))
  | link {cmd} : ctx.dryRun = false → st.tool = ascii "ld" →
      st.writesRsp (d.usableRsp ctx st) = false →
      Advance d node k st (.rebuild cmd) d
        (.inl (.spawn { cmd with args := buildCommandArgs st ctx.flags (d.usableRsp ctx st) }))
  | rebuild {cmd} : ctx.dryRun = false → st.tool ≠ ascii "ld" →
      Advance d node k st (.rebuild cmd) d (.inl (.spawn cmd))
  | refused {cmd} : cmd.args = [] → Advance d node k st (.spawn cmd) d (.inr 1)
  | spawn {cmd} : cmd.args ≠ [] →
      Advance d node k st (.spawn cmd) d (.inl (.running cmd d.disk))
  | notRun {cmd since} : Advance d node k st (.running cmd since) d (.inr 1)
  | failed {cmd since code} : code ≠ 0 → Advance d node k st (.running cmd since) d (.inr code)
  | exited {cmd since mtime} : since.olderThan mtime = true →
      Advance d node k st (.running cmd since)
        (d.exited k st cmd mtime) (.inl (.commit cmd.hash))
  | commit {hash} : Advance d node k st (.commit hash) (d.setHash k hash) (.inl .invalidate)
  | invalidateBuildFile : ctx.graph.findNode ctx.buildFile = some node →
      Advance d node k st .invalidate
        ((d.setSlot (.node node) { d.slots node with state := .unknown }).setSlot .buildFile
          { d.buildFileSlot with state := .unknown }) (.inr 0)
  | invalidate : ctx.graph.findNode ctx.buildFile ≠ some node →
      Advance d node k st .invalidate
        (d.setSlot (.node node) { d.slots node with state := .unknown }) (.inr 0)

variable {ctx}

/-- Every step of a call is one of the listed ones. -/
theorem advance_cases {d d' : BuildData} {node k : ℕ} {st : BuildStep} {call : Call}
    {outcome : Outcome} {result : Call ⊕ ℤ} (hst : ctx.graph.stepOf node = some st)
    (hk : ctx.graph.stepIdOf node = some k)
    (h : advance ctx d node call outcome = some (d', result)) :
    Advance ctx d node k st call d' result := by
  simp only [advance, hst, hk] at h
  -- one constructor of `Advance` for each branch of `advance`, in the order of the code
  cases call with
  | command =>
    obtain ⟨rfl, rfl⟩ := by simpa using h
    exact .command
  | statOutput cmd =>
    simp only at h
    split at h
    · next hm =>
      obtain ⟨rfl, rfl⟩ := by simpa using h
      exact .missing hm
    · next t ht =>
      split_ifs at h with hh
      · obtain ⟨rfl, rfl⟩ := by simpa using h
        exact .hashDiffers ht hh
      · obtain ⟨rfl, rfl⟩ := by simpa using h
        exact .hashAgrees ht (by simpa using hh)
  | probe cmd t ref rest pos =>
    cases pos with
    | load =>
      simp only at h
      split_ifs at h with hr
      · obtain ⟨rfl, rfl⟩ := by simpa using h
        exact .loadReady hr
      · obtain ⟨rfl, rfl⟩ := by simpa using h
        exact .loadOther
    | stat =>
      obtain ⟨rfl, rfl⟩ := by simpa using h
      exact .stat
    | exchange time =>
      simp only at h
      split_ifs at h with hu
      · obtain ⟨rfl, rfl⟩ := by simpa using h
        exact .exchanged hu
      · obtain ⟨rfl, rfl⟩ := by simpa using h
        exact .notExchanged
    | fill time =>
      obtain ⟨rfl, rfl⟩ := by simpa using h
      exact .fill
  | recordExchange t =>
    simp only at h
    split_ifs at h with hu
    · obtain ⟨rfl, rfl⟩ := by simpa using h
      exact .recordExchanged hu
    · obtain ⟨rfl, rfl⟩ := by simpa using h
      exact .notRecorded
  | recordFill t =>
    obtain ⟨rfl, rfl⟩ := by simpa using h
    exact .recordFill
  | rebuild cmd =>
    simp only at h
    split_ifs at h with hd hld hw
    · obtain ⟨rfl, rfl⟩ := by simpa using h
      exact .dryRun hd
    · obtain ⟨rfl, rfl⟩ := by simpa using h
      obtain ⟨hu, hn⟩ := by simpa [BuildStep.writesRsp] using hw
      exact .writeRsp (by simpa using hd) hld hn hu
    · obtain ⟨rfl, rfl⟩ := by simpa using h
      exact .link (by simpa using hd) hld (by simpa using hw)
    · obtain ⟨rfl, rfl⟩ := by simpa using h
      exact .rebuild (by simpa using hd) hld
  | spawn cmd =>
    simp only at h
    split_ifs at h with ha
    · obtain ⟨rfl, rfl⟩ := by simpa using h
      exact .refused ha
    · obtain ⟨rfl, rfl⟩ := by simpa using h
      exact .spawn ha
  | running cmd since =>
    simp only at h
    split at h
    · obtain ⟨rfl, rfl⟩ := by simpa using h
      exact .notRun
    · split_ifs at h with hc ho
      · obtain ⟨rfl, rfl⟩ := by simpa using h
        exact .failed hc
      · obtain ⟨rfl, rfl⟩ := by simpa using h
        exact .exited ho
  | commit hash =>
    obtain ⟨rfl, rfl⟩ := by simpa using h
    exact .commit
  | invalidate =>
    simp only at h
    split_ifs at h with hb
    · obtain ⟨rfl, rfl⟩ := by simpa using h
      exact .invalidateBuildFile hb
    · obtain ⟨rfl, rfl⟩ := by simpa using h
      exact .invalidate hb

end Advance

end Cob
