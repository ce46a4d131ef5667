import Cob.Process.Environment
import Mathlib.Data.List.Basic
import Mathlib.Logic.Function.Basic

/-!
# Running a tool

`processExecLinux`: the pipe that captures what the tool prints, the actions that set up its
descriptors, the loops that read the pipe and wait for the process. What the kernel answers is
given (`Os`), and what the function asks of it is recorded (`Event`).

The module introduces:

* `processExecLinux` — the events of a call and its result;
* `Held.track` — what the process holds after some events, undefined when it closes a descriptor
  it does not hold, waits for no child, or reads the pipe while it holds the write end itself;
* `tracked` — no call does any of these, and a call that returns holds nothing any more;
* `captured` — what a call returns is what the pipe carried and how the process ended;
* `streams_iff` — when the tool writes into the pipe.
-/

namespace Cob

/-- How `waitpid` says that a process ended. -/
inductive WaitStatus where
  /-- `WIFEXITED` with `WEXITSTATUS` -/
  | exited (code : ℕ)
  /-- `WIFSIGNALED` with `WTERMSIG` -/
  | signaled (signal : ℕ)
  /-- neither -/
  | other
  deriving DecidableEq

/-- What the child does with its descriptors before the tool is run. -/
inductive FileAction where
  | chdir (dir : Bytes)
  | dup2 (fd target : ℤ)
  | close (fd : ℤ)
  | closefrom (fd : ℤ)
  deriving DecidableEq

/-- The calls of `configureAttributes`. -/
inductive AttributeCall where
  | init
  | sigemptyset
  | sigfillset
  | setsigmask
  | setsigdefault
  | setflags
  deriving DecidableEq

/-- What the kernel answers. An error is its number; a setup call answers `0` when it has none. -/
structure Os where
  environ : List Bytes
  /-- the read end and the write end -/
  pipe2 : Except ℕ (ℤ × ℤ)
  fileActionsInit : ℕ
  addFileAction : FileAction → ℕ
  attributeCall : AttributeCall → ℕ
  posixSpawnp : List FileAction → List Bytes → List Bytes → Except ℕ ℤ
  /-- the answers of `read`, one after the other, without bytes at the end of the file; a call that
  has no answer does not return -/
  reads : List (Except ℕ Bytes)
  /-- the answers of `waitpid` -/
  waits : List (Except ℕ WaitStatus)
  /-- `std::error_code::message` -/
  message : ℕ → Bytes

/-- `EINTR`. -/
def eintr : ℕ := 4

/-- What a call asks of the kernel. -/
inductive ExecEvent where
  | pipe (readEnd writeEnd : ℤ)
  | spawn (process : ℤ)
  | read (fd : ℤ) (answer : Except ℕ Bytes)
  | close (fd : ℤ)
  | wait (process : ℤ) (answer : Except ℕ WaitStatus)

/-- What a call comes to, if it returns. -/
abbrev ExecResult (α : Type) := Option (Except Bytes α)

section Exec

variable (os : Os)

/-- `formatSystemError`. -/
def formatSystemError (operation : Bytes) (error : ℕ) : Bytes :=
  operation ++ ascii ": " ++ os.message error

/-- `FileDescriptor::reset` without a new descriptor. -/
def reset (fd : ℤ) : List ExecEvent := if 0 ≤ fd then [.close fd] else []

/-- The actions that `configureFileActions` adds. -/
def fileActions (workingDir : Option Bytes) (captureRead captureWrite : ℤ) : List FileAction :=
  (workingDir.map FileAction.chdir).toList ++
    (if 0 ≤ captureWrite then
      [.dup2 captureWrite 1, .dup2 captureWrite 2, .close captureRead, .close captureWrite]
    else []) ++
    [.closefrom 3]

/-- The first error among the answers of setup calls, `0` if there is none. -/
def firstError (answers : List ℕ) : ℕ := (answers.find? (· ≠ 0)).getD 0

/-- `configureFileActions`. -/
def configureFileActions (actions : List FileAction) : ℕ :=
  firstError (os.fileActionsInit :: actions.map os.addFileAction)

/-- `configureAttributes`. -/
def configureAttributes : ℕ :=
  firstError ([.init, .sigemptyset, .sigfillset, .setsigmask, .setsigdefault, .setflags].map
    os.attributeCall)

/-- `drainOutput`: the events, the result, and `output`. -/
def drainOutput (fd : ℤ) :
    List (Except ℕ Bytes) → Bytes → List ExecEvent × ExecResult Unit × Bytes
  | [], output => ([], none, output)
  -- the end of the pipe
  | .ok [] :: _, output => ([.read fd (.ok [])], some (.ok ()), output)
  | .ok (b :: bytes) :: reads, output =>
    let (events, result) := drainOutput fd reads (output ++ b :: bytes)
    (.read fd (.ok (b :: bytes)) :: events, result)
  -- an interrupted read is made again, any other error ends the loop
  | .error e :: reads, output =>
    if e = eintr then
      let (events, result) := drainOutput fd reads output
      (.read fd (.error e) :: events, result)
    else
      ([.read fd (.error e)],
        some (.error (formatSystemError os (ascii "Failed to read captured process output") e)),
        output)

/-- The exit code that a status stands for. -/
def WaitStatus.code : WaitStatus → Except Bytes ℤ
  | .exited code => .ok code
  | .signaled signal => .ok (128 + signal)
  | .other =>
    .error (ascii "Process stopped without exiting or being terminated by a signal")

/-- `waitForProcess`. -/
def waitForProcess (process : ℤ) : List (Except ℕ WaitStatus) → List ExecEvent × ExecResult ℤ
  | [] => ([], none)
  | .ok status :: _ => ([.wait process (.ok status)], some status.code)
  | .error e :: waits =>
    if e = eintr then
      let (events, result) := waitForProcess process waits
      (.wait process (.error e) :: events, result)
    else
      ([.wait process (.error e)],
        some (.error (formatSystemError os (ascii "Failed to wait for process") e)))

/-- `processExecLinux` from the running process on: closing the write end, reading the pipe and
waiting. -/
def awaitTool (process captureRead captureWrite : ℤ) (captureOutput : Bool) :
    List ExecEvent × ExecResult (ℤ × Bytes) :=
  let (reads, readResult, captured) :=
    if captureOutput then drainOutput os captureRead os.reads [] else ([], some (.ok ()), [])
  match readResult with
  | none => (reset captureWrite ++ reads, none)
  | some readResult =>
    -- the process is waited for after a read error too, and the read error is told first
    let (waits, status) := waitForProcess os process os.waits
    (reset captureWrite ++ reads ++ reset captureRead ++ waits,
      status.map fun status =>
        match readResult, status with
        | .error e, _ => .error e
        | _, .error e => .error e
        | .ok _, .ok code => .ok (code, captured))

/-- `processExecLinux` with the pipe, whose ends are `-1` when nothing is captured. -/
def spawnTool (args : List Bytes) (workingDir : Option Bytes)
    (env : Option (List (Bytes × Bytes))) (captureRead captureWrite : ℤ) (captureOutput : Bool) :
    List ExecEvent × ExecResult (ℤ × Bytes) :=
  let actions := fileActions workingDir captureRead captureWrite
  -- the destructors close what is open
  let leave (operation : Bytes) (error : ℕ) : List ExecEvent × ExecResult (ℤ × Bytes) :=
    (reset captureWrite ++ reset captureRead,
      some (.error (formatSystemError os operation error)))
  let error := configureFileActions os actions
  if error ≠ 0 then leave (ascii "Failed to configure file actions for posix_spawn") error
  else
    let error := configureAttributes os
    if error ≠ 0 then leave (ascii "Failed to configure attributes for posix_spawn") error
    else
      let environment := (env.map (buildEnvironment os.environ)).getD os.environ
      match os.posixSpawnp actions args environment with
      | .error error =>
        leave (ascii "Failed to spawn process '" ++ args.headD [] ++ ascii "'") error
      | .ok process =>
        let (events, result) := awaitTool os process captureRead captureWrite captureOutput
        (.spawn process :: events, result)

/-- `processExecLinux`. -/
def processExecLinux (args : List Bytes) (workingDir : Option Bytes)
    (env : Option (List (Bytes × Bytes))) (captureOutput : Bool) :
    List ExecEvent × ExecResult (ℤ × Bytes) :=
  if args = [] then ([], some (.error (ascii "Cannot execute empty command")))
  else
    match validateEnvironment (env.getD []) with
    | .error e => ([], some (.error e))
    | .ok () =>
      if captureOutput then
        match os.pipe2 with
        | .error error =>
          ([], some (.error (formatSystemError os
            (ascii "Failed to create pipe for capturing output") error)))
        | .ok (captureRead, captureWrite) =>
          let (events, result) := spawnTool os args workingDir env captureRead captureWrite true
          (.pipe captureRead captureWrite :: events, result)
      else spawnTool os args workingDir env (-1) (-1) false

end Exec

/-! ### Descriptors and children -/

/-- What the process holds: the ends of the pipe, and a child it has not waited for. -/
structure Held where
  readEnd : Option ℤ := none
  writeEnd : Option ℤ := none
  child : Option ℤ := none
  deriving DecidableEq

/-- The wait is over, and the child is gone. -/
def reaps : Except ℕ WaitStatus → Bool
  | .ok (.exited _) => true
  | .ok (.signaled _) => true
  | _ => false

/-- What the process holds after an event. It may only close what it holds and wait for its child,
and it may only read the pipe when it does not hold the write end, or the end of the file would
never come. -/
def Held.track (held : Held) : ExecEvent → Option Held
  | .pipe readEnd writeEnd =>
    if held.readEnd = none ∧ held.writeEnd = none then
      some { held with readEnd := some readEnd, writeEnd := some writeEnd }
    else none
  | .spawn process => if held.child = none then some { held with child := some process } else none
  | .read fd _ => if held.readEnd = some fd ∧ held.writeEnd = none then some held else none
  | .close fd =>
    if held.readEnd = some fd then some { held with readEnd := none }
    else if held.writeEnd = some fd then some { held with writeEnd := none }
    else none
  | .wait process answer =>
    if held.child = some process then
      some (if reaps answer then { held with child := none } else held)
    else none

section Tracking

variable {os : Os} {fd process r w : ℤ} {held : Held}

/-- Reading leaves everything as it is. -/
theorem track_drainOutput (hread : held.readEnd = some fd) (hwrite : held.writeEnd = none)
    (reads : List (Except ℕ Bytes)) (output : Bytes) :
    (drainOutput os fd reads output).1.foldlM Held.track held = some held := by
  fun_induction drainOutput os fd reads output <;>
    simp_all [Held.track]

/-- The waits that leave the child behind. -/
def givesUp : ExecEvent → Prop
  | .wait _ (.error e) => e ≠ eintr
  | .wait _ (.ok .other) => True
  | _ => False

/-- The last event stays the last when others come before it. -/
theorem mem_getLast?_cons {event : ExecEvent} {events : List ExecEvent} (first : ExecEvent)
    (h : event ∈ events.getLast?) : event ∈ (first :: events).getLast? := by
  rw [List.getLast?_cons, Option.mem_def.mp h]
  rfl

variable (os held) in
/-- Waiting goes on until the child is gone or `waitpid` fails. -/
theorem track_waitForProcess (hchild : held.child = some process)
    (waits : List (Except ℕ WaitStatus)) :
    ∃ held', (waitForProcess os process waits).1.foldlM Held.track held = some held' ∧
      held'.readEnd = held.readEnd ∧ held'.writeEnd = held.writeEnd ∧
      ((waitForProcess os process waits).2.isSome → held'.child = none ∨
        ∃ event ∈ (waitForProcess os process waits).1.getLast?, givesUp event) := by
  induction waits with
  | nil => exact ⟨held, by simp [waitForProcess]⟩
  | cons answer waits ih =>
    cases answer with
    | ok status =>
      cases status with
      | other => exact ⟨held, by simp [waitForProcess, Held.track, hchild, reaps, givesUp]⟩
      | _ =>
        exact ⟨{ held with child := none }, by simp [waitForProcess, Held.track, hchild, reaps]⟩
    | error e =>
      by_cases he : e = eintr
      · -- an interrupted wait is made again
        obtain ⟨held', hrun, hread, hwrite, hend⟩ := ih
        refine ⟨held', ?_, hread, hwrite, fun hsome => ?_⟩
        · simpa [waitForProcess, he, Held.track, hchild, reaps] using hrun
        · have hresult : (waitForProcess os process waits).2.isSome = true := by
            simpa [waitForProcess, he] using hsome
          refine (hend hresult).imp_right ?_
          rintro ⟨event, hlast, hgives⟩
          refine ⟨event, ?_, hgives⟩
          simpa only [waitForProcess, he, if_true] using mem_getLast?_cons _ hlast
      · exact ⟨held, by simp [waitForProcess, he, Held.track, hchild, reaps, givesUp]⟩

/-- What the pipe's ends are when a tool is spawned: both held, or `-1`. -/
def Piped (held : Held) (captureRead captureWrite : ℤ) (captureOutput : Bool) : Prop :=
  if captureOutput then held.readEnd = some captureRead ∧ held.writeEnd = some captureWrite ∧
    0 ≤ captureRead ∧ 0 ≤ captureWrite ∧ captureRead ≠ captureWrite
  else held.readEnd = none ∧ held.writeEnd = none ∧ captureRead = -1 ∧ captureWrite = -1

/-- Resetting both descriptors closes what is held of the pipe. -/
theorem Piped.reset {captureOutput : Bool} (h : Piped held r w captureOutput) :
    (reset w).foldlM Held.track held = some { held with writeEnd := none } ∧
      (reset r).foldlM Held.track { held with writeEnd := none } =
        some { held with readEnd := none, writeEnd := none } := by
  cases captureOutput with
  | true =>
    obtain ⟨hread, hwrite, hr, hw, hne⟩ := h
    simp [Cob.reset, hr, hw, Held.track, hread, hwrite, hne]
  | false =>
    obtain ⟨hread, hwrite, rfl, rfl⟩ := h
    obtain ⟨readEnd, writeEnd, child⟩ := held
    obtain rfl : readEnd = none := hread
    obtain rfl : writeEnd = none := hwrite
    simp [Cob.reset]

/-- What a process holds when a call returns, or waits for an answer. -/
structure Released (run : List ExecEvent × ExecResult (ℤ × Bytes)) (held : Held) : Prop where
  /-- the write end is never held while the call waits -/
  writeEnd : held.writeEnd = none
  readEnd : run.2.isSome → held.readEnd = none
  child : run.2.isSome → held.child = none ∨ ∃ event ∈ run.1.getLast?, givesUp event

theorem Released.cons {events : List ExecEvent} {result : ExecResult (ℤ × Bytes)}
    (h : Released (events, result) held) (first : ExecEvent) :
    Released (first :: events, result) held where
  writeEnd := h.writeEnd
  readEnd := h.readEnd
  child hsome := (h.child hsome).imp_right fun ⟨event, hlast, hgives⟩ =>
    ⟨event, mem_getLast?_cons first hlast, hgives⟩

variable (os) in
theorem track_awaitTool {captureOutput : Bool} (h : Piped held r w captureOutput)
    (hchild : held.child = some process) :
    ∃ held', (awaitTool os process r w captureOutput).1.foldlM Held.track held = some held' ∧
      Released (awaitTool os process r w captureOutput) held' := by
  obtain ⟨hresetw, hresetr⟩ := h.reset
  -- the reads happen after the write end was closed
  have hdrain : ∃ reads readResult captured, (if captureOutput then drainOutput os r os.reads []
        else ([], some (.ok ()), [])) = (reads, readResult, captured) ∧
      reads.foldlM Held.track { held with writeEnd := none } =
        some { held with writeEnd := none } := by
    cases captureOutput with
    | true =>
      have hread : { held with writeEnd := none }.readEnd = some r := h.1
      exact ⟨_, _, _, rfl, track_drainOutput hread rfl os.reads []⟩
    | false => exact ⟨_, _, _, rfl, rfl⟩
  obtain ⟨reads, readResult, captured, heq, hreads⟩ := hdrain
  simp only [awaitTool, heq]
  cases readResult with
  | none =>
    refine ⟨{ held with writeEnd := none }, ?_, rfl, by simp, by simp⟩
    simp only [List.foldlM_append, hresetw, Option.bind_eq_bind, Option.bind_some, hreads]
  | some result =>
    obtain ⟨held', hwaits, hread, hwrite, hend⟩ := track_waitForProcess os
      { held with readEnd := none, writeEnd := none } hchild os.waits
    refine ⟨held', ?_, hwrite, fun _ => hread, fun hsome => ?_⟩
    · simp only [List.foldlM_append, hresetw, Option.bind_eq_bind, Option.bind_some, hreads,
        hresetr, hwaits]
    · have hstatus : (waitForProcess os process os.waits).2.isSome = true := by simpa using hsome
      refine (hend hstatus).imp_right ?_
      rintro ⟨event, hlast, hgives⟩
      refine ⟨event, ?_, hgives⟩
      simp only [List.getLast?_append, Option.mem_def.mp hlast, Option.some_or, Option.mem_def]

variable (os) in
theorem track_spawnTool {captureOutput : Bool} (h : Piped held r w captureOutput)
    (hchild : held.child = none) (args : List Bytes) (workingDir : Option Bytes)
    (env : Option (List (Bytes × Bytes))) :
    ∃ held', (spawnTool os args workingDir env r w captureOutput).1.foldlM Held.track held =
        some held' ∧ Released (spawnTool os args workingDir env r w captureOutput) held' := by
  have hleave : ∀ result : ExecResult (ℤ × Bytes), ∃ held',
      (reset w ++ reset r).foldlM Held.track held = some held' ∧
        Released (reset w ++ reset r, result) held' := by
    intro result
    obtain ⟨hresetw, hresetr⟩ := h.reset
    refine ⟨{ held with readEnd := none, writeEnd := none }, ?_, rfl, fun _ => rfl,
      fun _ => .inl hchild⟩
    simp only [List.foldlM_append, hresetw, Option.bind_eq_bind, Option.bind_some, hresetr]
  simp only [spawnTool]
  split_ifs with hactions hattributes
  · exact hleave _
  · exact hleave _
  · split
    · exact hleave _
    · next process hspawn =>
      have hpiped : Piped { held with child := some process } r w captureOutput := h
      obtain ⟨held', hrun, hreleased⟩ := track_awaitTool os hpiped rfl
      exact ⟨held', by simpa [Held.track, hchild] using hrun, hreleased.cons _⟩

/-- **Descriptors and children.** Whatever the kernel answers, a call closes each end of its pipe
once and nothing else, reads the pipe only after closing the write end, and waits for its child.
When it returns it holds no descriptor, and no child unless `waitpid` gave up on it. -/
theorem tracked (os : Os) (hpipe : ∀ ends, os.pipe2 = .ok ends →
      0 ≤ ends.1 ∧ 0 ≤ ends.2 ∧ ends.1 ≠ ends.2)
    (args : List Bytes) (workingDir : Option Bytes) (env : Option (List (Bytes × Bytes)))
    (captureOutput : Bool) :
    ∃ held, (processExecLinux os args workingDir env captureOutput).1.foldlM Held.track {} =
        some held ∧
      Released (processExecLinux os args workingDir env captureOutput) held := by
  -- what fails before the pipe has opened nothing
  have hnothing : ∀ result, ∃ held, ([] : List ExecEvent).foldlM Held.track {} = some held ∧
      Released ([], result) held :=
    fun result => ⟨{}, rfl, rfl, fun _ => rfl, fun _ => .inl rfl⟩
  simp only [processExecLinux]
  split_ifs with hargs hcapture
  · exact hnothing _
  · split
    · exact hnothing _
    · split
      · exact hnothing _
      · next r w hends =>
        have hpiped : Piped { readEnd := some r, writeEnd := some w } r w true :=
          ⟨rfl, rfl, hpipe _ hends⟩
        obtain ⟨held, hrun, hreleased⟩ := track_spawnTool os hpiped rfl args workingDir env
        exact ⟨held, by simpa [Held.track] using hrun, hreleased.cons _⟩
  · split
    · exact hnothing _
    · have hpiped : Piped {} (-1) (-1) false := ⟨rfl, rfl, rfl, rfl⟩
      exact track_spawnTool os hpiped rfl args workingDir env

/-- A kernel that interrupts one read and one wait, and a tool that prints a line and fails. -/
def interruptingOs : Os where
  environ := []
  pipe2 := .ok (3, 4)
  fileActionsInit := 0
  addFileAction _ := 0
  attributeCall _ := 0
  posixSpawnp _ _ _ := .ok 100
  reads := [.ok (ascii "a"), .error eintr, .ok (ascii "b"), .ok []]
  waits := [.error eintr, .ok (.exited 2)]
  message _ := []

/-- Nothing is held after the call. -/
theorem tracked_interruptingOs : ∃ held,
    (processExecLinux interruptingOs [ascii "cc"] none none true).1.foldlM Held.track {} =
      some held ∧ Released (processExecLinux interruptingOs [ascii "cc"] none none true) held :=
  tracked interruptingOs
    (fun ends h => by
      obtain rfl := Except.ok.inj h
      decide)
    [ascii "cc"] none none true

end Tracking

/-! ### Results -/

/-- The bytes that the reads of a call gave. -/
def readBytes (events : List ExecEvent) : Bytes :=
  events.flatMap fun | .read _ (.ok bytes) => bytes | _ => []

/-- The error that ended the reads of a call. -/
def readError (events : List ExecEvent) : Option ℕ :=
  events.findSome? fun
    | .read _ (.error e) => if e = eintr then none else some e
    | _ => none

/-- The answer that ended the waits of a call. -/
def waitAnswer (events : List ExecEvent) : Option (Except ℕ WaitStatus) :=
  events.findSome? fun
    | .wait _ (.error e) => if e = eintr then none else some (.error e)
    | .wait _ answer => some answer
    | _ => none

/-- The result of a call that spawned a process: an error of a read comes before an error of the
wait, and without errors it is the exit code with all that was read. -/
def verdict (os : Os) (events : List ExecEvent) : ExecResult (ℤ × Bytes) :=
  (waitAnswer events).map fun answer =>
    match readError events with
    | some e => .error (formatSystemError os (ascii "Failed to read captured process output") e)
    | none =>
      match answer with
      | .error e => .error (formatSystemError os (ascii "Failed to wait for process") e)
      | .ok status => status.code.map fun code => (code, readBytes events)

section Results

variable {os : Os} {fd process r w : ℤ}

theorem readBytes_append (events events' : List ExecEvent) :
    readBytes (events ++ events') = readBytes events ++ readBytes events' := by
  simp [readBytes]

theorem readError_append (events events' : List ExecEvent) :
    readError (events ++ events') = (readError events).or (readError events') := by
  simp [readError, List.findSome?_append]

theorem waitAnswer_append (events events' : List ExecEvent) :
    waitAnswer (events ++ events') = (waitAnswer events).or (waitAnswer events') := by
  simp [waitAnswer, List.findSome?_append]

/-- Closing descriptors contributes nothing. -/
theorem silent_reset (fd : ℤ) :
    readBytes (reset fd) = [] ∧ readError (reset fd) = none ∧ waitAnswer (reset fd) = none := by
  unfold reset
  split_ifs <;> exact ⟨rfl, rfl, rfl⟩

/-- The reads: their bytes are appended, and an error other than an interruption ends them. -/
theorem drainOutput_spec (reads : List (Except ℕ Bytes)) (output : Bytes) :
    (drainOutput os fd reads output).2.2 =
        output ++ readBytes (drainOutput os fd reads output).1 ∧
      waitAnswer (drainOutput os fd reads output).1 = none ∧
      ∀ result ∈ (drainOutput os fd reads output).2.1,
        result = match readError (drainOutput os fd reads output).1 with
          | some e =>
            .error (formatSystemError os (ascii "Failed to read captured process output") e)
          | none => .ok () := by
  induction reads generalizing output with
  | nil => simp [drainOutput, readBytes, waitAnswer]
  | cons answer reads ih =>
    cases answer with
    | ok bytes =>
      cases bytes with
      | nil => simp [drainOutput, readBytes, waitAnswer, readError]
      | cons b bytes =>
        obtain ⟨hout, hwait, hresult⟩ := ih (output ++ b :: bytes)
        refine ⟨?_, ?_, ?_⟩
        · simpa [drainOutput, readBytes] using hout
        · simpa [drainOutput, waitAnswer] using hwait
        · simpa [drainOutput, readError] using hresult
    | error e =>
      by_cases he : e = eintr
      · obtain ⟨hout, hwait, hresult⟩ := ih output
        refine ⟨?_, ?_, ?_⟩
        · simpa [drainOutput, he, readBytes] using hout
        · simpa [drainOutput, he, waitAnswer] using hwait
        · simpa [drainOutput, he, readError] using hresult
      · simp [drainOutput, he, readBytes, waitAnswer, readError]

variable (os process) in
/-- The waits: the last answer decides. -/
theorem waitForProcess_spec (waits : List (Except ℕ WaitStatus)) :
    readBytes (waitForProcess os process waits).1 = [] ∧
      readError (waitForProcess os process waits).1 = none ∧
      (waitForProcess os process waits).2 =
        (waitAnswer (waitForProcess os process waits).1).map fun
          | .error e => .error (formatSystemError os (ascii "Failed to wait for process") e)
          | .ok status => status.code := by
  induction waits with
  | nil => exact ⟨rfl, rfl, rfl⟩
  | cons answer waits ih =>
    cases answer with
    | ok status => exact ⟨rfl, rfl, rfl⟩
    | error e =>
      by_cases he : e = eintr
      · obtain ⟨hbytes, herror, hresult⟩ := ih
        refine ⟨?_, ?_, ?_⟩
        · simpa [waitForProcess, he, readBytes] using hbytes
        · simpa [waitForProcess, he, readError] using herror
        · simpa [waitForProcess, he, waitAnswer] using hresult
      · simp [waitForProcess, he, readBytes, readError, waitAnswer]

/-- Once the tool is spawned, the events decide the result. -/
theorem awaitTool_eq_verdict (captureOutput : Bool) :
    (awaitTool os process r w captureOutput).2 =
      verdict os (awaitTool os process r w captureOutput).1 := by
  obtain ⟨hbytesw, herrorw, hwaitw⟩ := silent_reset w
  obtain ⟨hbytesr, herrorr, hwaitr⟩ := silent_reset r
  -- captured or not, the reads decide the bytes and the first error
  have hdrain : ∃ reads readResult captured, (if captureOutput then drainOutput os r os.reads []
        else ([], some (.ok ()), [])) = (reads, readResult, captured) ∧
      captured = readBytes reads ∧ waitAnswer reads = none ∧
      ∀ result ∈ readResult, result = match readError reads with
        | some e =>
          .error (formatSystemError os (ascii "Failed to read captured process output") e)
        | none => .ok () := by
    cases captureOutput with
    | true => exact ⟨_, _, _, rfl, by simpa using drainOutput_spec os.reads []⟩
    | false => exact ⟨_, _, _, rfl, rfl, rfl, by simp [readError]⟩
  obtain ⟨reads, readResult, captured, heq, rfl, hwaitreads, hresult⟩ := hdrain
  obtain ⟨hbytes, herror, hstatus⟩ := waitForProcess_spec os process os.waits
  simp only [awaitTool, heq]
  cases readResult with
  | none => simp [verdict, waitAnswer_append, hwaitw, hwaitreads]
  | some result =>
    obtain rfl := hresult result rfl
    simp only [verdict, waitAnswer_append, readError_append, readBytes_append, hwaitw, hwaitreads,
      hwaitr, herrorw, herrorr, herror, hbytesw, hbytesr, hbytes, hstatus, Option.none_or,
      Option.or_none, List.nil_append, List.append_nil, Option.map_map]
    congr 1
    funext answer
    cases readError reads with
    | some e => rfl
    | none =>
      cases answer with
      | error e => rfl
      | ok status =>
        cases hcode : status.code <;> simp [hcode, Except.map]

/-- What a call returns is the verdict on its events, or an error when it spawned nothing. -/
def Decided (os : Os) (run : List ExecEvent × ExecResult (ℤ × Bytes)) : Prop :=
  ((∃ process, .spawn process ∈ run.1) → run.2 = verdict os run.1) ∧
    ((∀ process, .spawn process ∉ run.1) → ∃ text, run.2 = some (.error text))

/-- A call that fails before it spawns a process. -/
theorem decided_of_not_spawned {events : List ExecEvent} (h : ∀ process, .spawn process ∉ events)
    (text : Bytes) : Decided os (events, some (.error text)) :=
  ⟨fun ⟨process, hmem⟩ => absurd hmem (h process), fun _ => ⟨text, rfl⟩⟩

theorem not_mem_reset (fd process : ℤ) : .spawn process ∉ reset fd := by
  unfold reset
  split_ifs <;> simp

variable (os r w) in
theorem decided_spawnTool (args : List Bytes) (workingDir : Option Bytes)
    (env : Option (List (Bytes × Bytes))) (captureOutput : Bool) :
    Decided os (spawnTool os args workingDir env r w captureOutput) := by
  have hleave : ∀ process, .spawn process ∉ reset w ++ reset r := by
    intro process hmem
    rcases List.mem_append.mp hmem with hmem | hmem
    · exact not_mem_reset w process hmem
    · exact not_mem_reset r process hmem
  simp only [spawnTool]
  split_ifs with hactions hattributes
  · exact decided_of_not_spawned hleave _
  · exact decided_of_not_spawned hleave _
  · split
    · exact decided_of_not_spawned hleave _
    · next process hspawn =>
      refine ⟨fun _ => ?_, fun hnone => absurd List.mem_cons_self (hnone process)⟩
      rw [awaitTool_eq_verdict]
      simp [verdict, waitAnswer, readError, readBytes]

/-- **Results.** A call that spawned a process returns what the pipe carried and how the process
ended, read errors first, whatever was interrupted in between; a call that spawned none returns an
error. -/
theorem captured (os : Os) (args : List Bytes) (workingDir : Option Bytes)
    (env : Option (List (Bytes × Bytes))) (captureOutput : Bool) :
    Decided os (processExecLinux os args workingDir env captureOutput) := by
  simp only [processExecLinux]
  split_ifs with hargs hcapture
  · exact decided_of_not_spawned (by simp) _
  · split
    · exact decided_of_not_spawned (by simp) _
    · split
      · exact decided_of_not_spawned (by simp) _
      · next r w hends =>
        obtain ⟨hspawned, hnot⟩ := decided_spawnTool os r w args workingDir env true
        refine ⟨?_, fun hnone => hnot fun process hmem => ?_⟩
        · rintro ⟨process, hmem⟩
          rw [hspawned ⟨process, by simpa using hmem⟩]
          simp [verdict, waitAnswer, readError, readBytes]
        · exact hnone process (List.mem_cons_of_mem _ hmem)
  · split
    · exact decided_of_not_spawned (by simp) _
    · exact decided_spawnTool os _ _ args workingDir env false

end Results

/-! ### The descriptors of the tool -/

/-- What a file action makes of the descriptors of the child. -/
def FileAction.apply {α : Type} (table : ℤ → Option α) : FileAction → ℤ → Option α
  | .chdir _ => table
  | .dup2 fd target => Function.update table target (table fd)
  | .close fd => Function.update table fd none
  | .closefrom fd => fun k => if fd ≤ k then none else table k

/-- The descriptors of the tool, from those of the process that spawns it. -/
def toolDescriptors {α : Type} (table : ℤ → Option α) (workingDir : Option Bytes)
    (captureRead captureWrite : ℤ) : ℤ → Option α :=
  (fileActions workingDir captureRead captureWrite).foldl FileAction.apply table

/-- Both outputs become the pipe, and then both ends of it and everything above are closed. -/
theorem toolDescriptors_eq {α : Type} (table : ℤ → Option α) (workingDir : Option Bytes)
    {r w : ℤ} (hw : 0 ≤ w) (fd : ℤ) : toolDescriptors table workingDir r w fd =
      if 3 ≤ fd ∨ fd = w ∨ fd = r then none
      else if fd = 1 ∨ fd = 2 then table w
      else table fd := by
  have hsame : Function.update table 1 (table w) w = table w := by
    by_cases hone : w = 1
    · rw [hone, Function.update_self]
    · rw [Function.update_of_ne hone]
  have hdir : ((workingDir.map FileAction.chdir).toList.foldl FileAction.apply table) = table := by
    cases workingDir <;> rfl
  simp only [toolDescriptors, fileActions, if_pos hw, List.foldl_append, hdir, List.foldl_cons,
    List.foldl_nil, FileAction.apply, hsame, Function.update_apply]
  split_ifs <;> first | rfl | omega

/-- Whether it is captured or not, a tool has no other descriptors than its standard streams. -/
theorem toolDescriptors_eq_none {α : Type} (table : ℤ → Option α) (workingDir : Option Bytes)
    (r w : ℤ) {fd : ℤ} (hfd : 3 ≤ fd) : toolDescriptors table workingDir r w fd = none := by
  simp only [toolDescriptors, fileActions, List.foldl_append, List.foldl_cons, List.foldl_nil,
    FileAction.apply, if_pos hfd]

/-- **Streams.** A tool has nothing but its standard streams, and both outputs of a captured one are
the pipe exactly when neither end of the pipe took the number of one of them. -/
theorem streams_iff {α : Type} {table : ℤ → Option α} {pipe : α} {r w : ℤ}
    (workingDir : Option Bytes) (hw : 0 ≤ w) (hpipe : table w = some pipe) :
    (∀ r w fd, 3 ≤ fd → toolDescriptors table workingDir r w fd = none) ∧
      (toolDescriptors table workingDir r w 1 = some pipe ∧
          toolDescriptors table workingDir r w 2 = some pipe ↔
        r ≠ 1 ∧ r ≠ 2 ∧ w ≠ 1 ∧ w ≠ 2) := by
  refine ⟨fun r w fd hfd => toolDescriptors_eq_none table workingDir r w hfd, ?_⟩
  rw [toolDescriptors_eq table workingDir hw, toolDescriptors_eq table workingDir hw]
  constructor
  · rintro ⟨hout, herr⟩
    refine ⟨?_, ?_, ?_, ?_⟩ <;> rintro rfl
    · simp at hout
    · simp at herr
    · simp at hout
    · simp at herr
  · rintro ⟨hr1, hr2, hw1, hw2⟩
    simp [hr1.symm, hr2.symm, hw1.symm, hw2.symm, hpipe]

/-- With the standard streams open, the pipe has other numbers. -/
theorem streams_iff_usual :
    toolDescriptors (fun fd => if fd = 4 then some true else some false) none 3 4 1 = some true :=
  ((@streams_iff Bool (fun fd => if fd = 4 then some true else some false) true 3 4 none
    (by decide) rfl).2.mpr (by decide)).1

end Cob
