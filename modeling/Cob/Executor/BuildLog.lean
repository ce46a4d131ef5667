import Cob.CliArgs
import Cob.Lib.Interleaving
import Cob.Queue.Progress

/-!
# The build log

What the workers tell about the steps they process, and what the progress thread makes of it: text
for the terminal and, with `--build-log`, sections of a file. The durations that
`FF_cob__profiling` adds are left out.

* `reports` — what `processStep` tells about a step;
* `written` — what the progress thread has written;
* `placed_reports` — the queue is used exactly when there is a progress thread;
* `written_of_run` — the log has the sections of the steps, each of them whole and once.
-/

namespace Cob.BuildLog

open Cob.Queue Cob.Queue.Progress Interleaving

/-! ### The texts -/

section Texts

-- `width` is how many columns `std::format` counts
variable (width : Bytes → ℕ) (features : Cli.Features) (config : Cli.ExecutorConfig) (isTty : Bool)

/-- A step that a worker has processed. -/
structure Processed where
  step : BuildStep
  /-- what `needsRebuild` returned -/
  rebuild : Bool
  /-- what `steps_completed` was increased to, if it was -/
  current : ℕ
  /-- what `process_exec` returned, if it was called -/
  result : Except Bytes (ℤ × Bytes)

/-- What `processStep` does with a text. -/
inductive Report where
  | enqueue (message : Message)
  /-- `std::print(stderr, …)` -/
  | print (text : Bytes)

/-- `start_progress`. -/
def startProgress : Bool :=
  !config.silent || (features.logging && config.buildLogFile != [])

/-- `capture_output`. -/
def captureOutput : Bool := features.logging && config.buildLogFile != []

/-- Whether the tool is a compiler. -/
def isCompiler (tool : Bytes) : Bool := tool == ascii "cc" || tool == ascii "cxx"

/-- `raw_action`. -/
def rawAction (tool : Bytes) : Bytes :=
  if isCompiler tool then ascii "Compiling"
  else if tool == ascii "ld" then ascii "Linking"
  else if tool == ascii "sld" then ascii "Linking library"
  else if tool == ascii "ar" then ascii "Archiving"
  else tool

/-- `target`. -/
def target (st : BuildStep) : Bytes :=
  if isCompiler st.tool then st.parsedInputs.headD st.output else st.output

/-- `color_code`: cyan, green, magenta and yellow. -/
def colorCode (tool : Bytes) : Bytes :=
  if isCompiler tool then ascii "\x1b[36m"
  else if tool == ascii "ld" then ascii "\x1b[32m"
  else if tool == ascii "sld" then ascii "\x1b[35m"
  else if tool == ascii "ar" then ascii "\x1b[33m"
  else []

/-- `{:<15}`. -/
def padded (s : Bytes) : Bytes := s ++ List.replicate (15 - width s) (chr ' ')

/-- `action`. -/
def action (tool : Bytes) : Bytes :=
  if isTty then
    if colorCode tool = [] then padded width (rawAction tool)
    else colorCode tool ++ padded width (rawAction tool) ++ ascii "\x1b[0m"
  else rawAction tool

/-- The text of `printMessage`. -/
def actionText (p : Processed) : Bytes :=
  if config.dryRun then
    ascii "[DRY RUN] " ++ action width isTty p.step.tool ++ ascii " " ++ target p.step ++ ascii "\n"
  else if isTty then
    ascii "\r\x1b[K[" ++ ascii (toString p.current) ++ ascii "] " ++
      action width isTty p.step.tool ++ ascii " " ++ target p.step
  else
    ascii "[" ++ ascii (toString p.current) ++ ascii "] " ++
      padded width (action width isTty p.step.tool) ++ ascii " " ++ target p.step ++ ascii "\n"

/-- `printMessage`. -/
def printMessage (p : Processed) : List Report :=
  if config.silent then [] else [.enqueue ⟨actionText width config isTty p, [], false⟩]

/-- The section of the log for the output of a tool. -/
def logSection (st : BuildStep) (output : Bytes) : Bytes :=
  ascii "=== " ++ st.tool ++ ascii " -> " ++ st.output ++ ascii " ===\n" ++ output ++
    (if output.getLast? = some (chr '\n') then [] else ascii "\n") ++ ascii "\n"

/-- What is told about captured output. -/
def capturedReports (st : BuildStep) (code : ℤ) (output : Bytes) : List Report :=
  if captureOutput features config && output != [] then
    [.enqueue ⟨if !config.silent || code != 0 then output else [], logSection st output, code != 0⟩]
  else []

/-- An error goes through the queue when there is a progress thread. -/
def reportError (text : Bytes) : Report :=
  if startProgress features config then .enqueue ⟨text, [], true⟩ else .print text

/-- `Build failed: …`. -/
def failedText (st : BuildStep) (code : ℤ) : Bytes :=
  ascii "Build failed: " ++ st.tool ++ ascii " -> " ++ st.output ++ ascii " (exit code " ++
    ascii (toString code) ++ ascii ")\n"

/-- `Failed to execute: …`. -/
def notExecutedText (error : Bytes) : Bytes := ascii "Failed to execute: " ++ error ++ ascii "\n"

/-- `Skipping …`. -/
def skippingText (st : BuildStep) : Bytes :=
  ascii "Skipping " ++ st.output ++ ascii " (up to date)\n"

/-- What is told when `process_exec` has returned. -/
def ranReports (st : BuildStep) : Except Bytes (ℤ × Bytes) → List Report
  | .ok (code, output) => capturedReports features config st code output ++
      if code ≠ 0 then [reportError features config (failedText st code)] else []
  | .error e => [reportError features config (notExecutedText e)]

/-- What `processStep` tells about a step, in order. -/
def reports (p : Processed) : List Report :=
  if p.rebuild then
    printMessage width config isTty p ++
      if config.dryRun then [] else ranReports features config p.step p.result
  else if features.logging && startProgress features config then
    [.enqueue ⟨skippingText p.step, [], false⟩]
  else []

/-- The message of a report. -/
def Report.message : Report → Option Message
  | .enqueue m => some m
  | .print _ => none

/-- What is enqueued about a step. -/
def messages (p : Processed) : List Message :=
  (reports width features config isTty p).filterMap Report.message

end Texts

/-! ### The progress thread -/

section Console

variable (features : Cli.Features) (config : Cli.ExecutorConfig)

/-- What the progress thread has written. -/
structure Written where
  out : Bytes := []
  err : Bytes := []
  log : Bytes := []

/-- What the progress thread does with an event. -/
def handle (w : Written) (ev : LogEvent) : Written :=
  if ev.isPoisonPill then w
  else
    let w := if ev.isError then { w with err := w.err ++ ev.consoleMessage }
      else { w with out := w.out ++ ev.consoleMessage }
    -- `log_file_ptr`
    if captureOutput features config then { w with log := w.log ++ ev.logMessage } else w

/-- What the progress thread has written in a run. -/
def written (tr : List (Progress.State × Progress.Action)) : Written :=
  (dequeued tr).foldl (handle features config) {}

end Console

section Run

variable {width : Bytes → ℕ} {features : Cli.Features} {config : Cli.ExecutorConfig} {isTty : Bool}
  {capacity : ℕ} {tr : List (Progress.State × Progress.Action)} {s : Progress.State}

/-- The report goes to the queue exactly when there is a progress thread. -/
def Placed (features : Cli.Features) (config : Cli.ExecutorConfig) (r : Report) : Prop :=
  (∃ m, r = .enqueue m) ↔ startProgress features config = true

theorem placed_enqueue {m : Message} (h : startProgress features config = true) :
    Placed features config (.enqueue m) := iff_of_true ⟨m, rfl⟩ h

theorem placed_reportError (text : Bytes) :
    Placed features config (reportError features config text) := by
  unfold Placed
  rw [reportError]
  split_ifs with h <;> simp [h]

theorem placed_printMessage {p : Processed} {r : Report}
    (hr : r ∈ printMessage width config isTty p) : Placed features config r := by
  rw [printMessage] at hr
  split_ifs at hr with hsilent
  · cases hr
  · obtain rfl := List.mem_singleton.mp hr
    exact placed_enqueue (by simp [startProgress, hsilent])

theorem placed_captured {st : BuildStep} {code : ℤ} {output : Bytes} {r : Report}
    (hr : r ∈ capturedReports features config st code output) : Placed features config r := by
  rw [capturedReports] at hr
  by_cases houtput : (captureOutput features config && output != []) = true
  · rw [if_pos houtput] at hr
    obtain rfl := List.mem_singleton.mp hr
    have hcapture : captureOutput features config = true := (Bool.and_eq_true_iff.mp houtput).1
    apply placed_enqueue
    rw [startProgress, show (features.logging && config.buildLogFile != []) = true from hcapture,
      Bool.or_true]
  · rw [if_neg houtput] at hr
    cases hr

theorem placed_ranReports {st : BuildStep} {result : Except Bytes (ℤ × Bytes)} {r : Report}
    (hr : r ∈ ranReports features config st result) : Placed features config r := by
  cases result with
  | error e =>
    obtain rfl := List.mem_singleton.mp hr
    exact placed_reportError _
  | ok ended =>
    obtain ⟨code, output⟩ := ended
    rcases List.mem_append.mp hr with hlog | hfailed
    · exact placed_captured hlog
    · split_ifs at hfailed
      · obtain rfl := List.mem_singleton.mp hfailed
        exact placed_reportError _
      · cases hfailed

/-- Nothing is enqueued when nobody dequeues, and nothing else goes to the terminal when somebody
does. -/
theorem placed_reports {p : Processed} {r : Report}
    (hr : r ∈ reports width features config isTty p) : Placed features config r := by
  rw [reports] at hr
  cases hrebuild : p.rebuild with
  | true =>
    rw [hrebuild, if_pos rfl] at hr
    rcases List.mem_append.mp hr with hprint | hran
    · exact placed_printMessage hprint
    · split_ifs at hran with hdry
      · cases hran
      · exact placed_ranReports hran
  | false =>
    rw [hrebuild, if_neg Bool.false_ne_true] at hr
    split_ifs at hr with hskip
    · obtain rfl := List.mem_singleton.mp hr
      exact placed_enqueue (Bool.and_eq_true_iff.mp hskip).2
    · cases hr

/-- An event that is not the pill. -/
def isMessage (ev : LogEvent) : Bool := !ev.isPoisonPill

/-- The messages among the first events sent. -/
def told (processed : ℕ) (c : List (ℕ × LogEvent)) : List (ℕ × LogEvent) :=
  (c.take processed).filter fun x => isMessage x.2

section Told

variable {work : List (List Message)}

theorem filter_events (ms : List Message) :
    (ms.map Message.event).filter isMessage = ms.map Message.event := by
  apply List.filter_eq_self.mpr
  intro ev hev
  obtain ⟨m, -, rfl⟩ := List.mem_map.mp hev
  rfl

theorem scripts_of_lt {i : ℕ} (hi : i < work.length) :
    (scripts work)[i]? = some ((work.getD i []).map Message.event) := by
  rw [scripts, List.getElem?_append_left (by simpa using hi), List.getElem?_map,
    List.getElem?_eq_getElem hi, List.getD_eq_getElem?_getD, List.getElem?_eq_getElem hi]
  rfl

/-- Of the workers' messages, the first ones have been dequeued. -/
theorem part_told_begins (htwo : 2 ≤ bitCeil capacity)
    (hrun : (progressMachine capacity work).Run tr s) (i : ℕ) :
    part i (told s.processed (sent tr)) <+: (work.getD i []).map Message.event := by
  have hA := accounts_of_run htwo hrun
  rcases Nat.lt_or_ge i work.length with hlt | hge
  · have hfirst : part i ((sent tr).take s.processed) <+: part i (sent tr) :=
      ((List.take_prefix _ _).filter _).map _
    have hbegins := hfirst.trans (hA.begins (scripts_of_lt hlt))
    rw [told, part_filter, ← filter_events]
    exact hbegins.filter _
  · -- `execute` sends nothing but the pill
    have hnone : part i (told s.processed (sent tr)) = [] := by
      apply List.eq_nil_iff_forall_not_mem.mpr
      intro ev hev
      obtain ⟨htake, hno⟩ := List.mem_filter.mp (mem_part.mp hev)
      have hsent := List.mem_of_mem_take htake
      obtain rfl : i = work.length := le_antisymm (hA.sender_lt _ hsent) hge
      have hi : (scripts work)[work.length]? = some [pill] := by simp [scripts]
      have hmem := (hA.begins hi).subset (mem_sentBy.mpr hsent)
      rw [List.mem_singleton.mp hmem] at hno
      cases hno
    rw [hnone]
    exact List.nil_prefix

/-- When the progress thread has returned, it has dequeued all of them. -/
theorem part_told_of_done (htwo : 2 ≤ bitCeil capacity)
    (hrun : (progressMachine capacity work).Run tr s) (hdone : s.consumer = .done) (i : ℕ) :
    part i (told s.processed (sent tr)) = (work.getD i []).map Message.event := by
  have hA := accounts_of_run htwo hrun
  obtain ⟨ev, hev, hpill⟩ := hA.done.mp hdone
  rw [hA.dequeued_eq] at hev
  obtain ⟨⟨j, ev⟩, hx, rfl⟩ := List.mem_map.mp hev
  have hlast := hA.eq_pill (List.mem_of_mem_take hx) hpill
  rw [hlast] at hx
  obtain ⟨before, hsent, hworkers, hscripts⟩ := hA.pill_last (List.mem_of_mem_take hx)
  -- the pill is behind all messages, so they have been dequeued before it
  have hall : before.length < s.processed := by
    by_contra hshort
    rw [hsent, List.take_append_of_le_length (by omega)] at hx
    exact lt_irrefl _ (hworkers _ (List.mem_of_mem_take hx))
  have htold : told s.processed (sent tr) = before.filter fun x => isMessage x.2 := by
    rw [told, hsent, List.take_of_length_le (by simp; omega), List.filter_append]
    exact List.append_nil _
  rw [htold, part_filter]
  rcases Nat.lt_or_ge i work.length with hlt | hge
  · have hscript : part i before = (work.getD i []).map Message.event := by
      rw [List.getD_eq_getElem?_getD, List.getElem?_eq_getElem hlt]
      exact hscripts i _ (List.getElem?_eq_getElem hlt)
    rw [hscript, filter_events]
  · have hnone : part i before = [] := by
      apply List.eq_nil_iff_forall_not_mem.mpr
      intro ev hev
      exact absurd (hworkers _ (mem_part.mp hev)) (by simpa using hge)
    rw [hnone, List.getD_eq_getElem?_getD, List.getElem?_eq_none hge]
    rfl

end Told

/-- The events that have been dequeued are messages, those of each worker the first of what it
sends, and the pill. -/
theorem exists_messages {work : List (List Message)} (htwo : 2 ≤ bitCeil capacity)
    (hrun : (progressMachine capacity work).Run tr s) :
    ∃ c : List (ℕ × Message), (∀ i, part i c <+: work.getD i []) ∧
      (dequeued tr).filter isMessage = c.map (fun x => x.2.event) ∧
      (s.consumer = .done → ∀ i, part i c = work.getD i []) := by
  obtain ⟨c, hc, hbegins⟩ := exists_lift Message.event (part_told_begins htwo hrun)
  refine ⟨c, hbegins, ?_, fun hdone i => (hbegins i).eq_of_length ?_⟩
  · have hA := accounts_of_run htwo hrun
    have hdequeued : dequeued tr = ((sent tr).take s.processed).map Prod.snd := hA.dequeued_eq
    rw [hdequeued, List.filter_map]
    have hsnd := congrArg (List.map Prod.snd) hc
    rw [List.map_map] at hsnd
    exact hsnd.symm
  · have hlength := congrArg List.length (part_map Message.event c (i := i))
    rw [hc, part_told_of_done htwo hrun hdone] at hlength
    simpa using hlength.symm

/-! ### What is written -/

/-- The text of a message for the terminal. -/
def outText (m : Message) : Bytes := if m.isError then [] else m.consoleMessage

/-- Its text for `stderr`. -/
def errText (m : Message) : Bytes := if m.isError then m.consoleMessage else []

/-- Its text for the log. -/
def logText (features : Cli.Features) (config : Cli.ExecutorConfig) (m : Message) : Bytes :=
  if captureOutput features config then m.logMessage else []

theorem handle_event (w : Written) (m : Message) : handle features config w m.event =
    ⟨w.out ++ outText m, w.err ++ errText m, w.log ++ logText features config m⟩ := by
  obtain ⟨consoleMessage, logMessage, isError⟩ := m
  cases isError <;> cases hcapture : captureOutput features config <;>
    simp [handle, Message.event, outText, errText, logText, hcapture]

theorem foldl_handle_filter (w : Written) (evs : List LogEvent) :
    evs.foldl (handle features config) w =
      (evs.filter isMessage).foldl (handle features config) w := by
  induction evs generalizing w with
  | nil => rfl
  | cons ev evs ih =>
    cases hev : ev.isPoisonPill <;> simp [isMessage, handle, hev, ih]

theorem foldl_handle_events (w : Written) (c : List (ℕ × Message)) :
    (c.map fun x => x.2.event).foldl (handle features config) w =
      ⟨w.out ++ c.flatMap fun x => outText x.2, w.err ++ c.flatMap fun x => errText x.2,
        w.log ++ c.flatMap fun x => logText features config x.2⟩ := by
  induction c generalizing w with
  | nil => simp
  | cons x c ih => simp [handle_event, ih]

/-- `text` has the texts of the picked steps, each of them whole, those of one worker in their
order, and of all of them when `all` holds. -/
def Woven (work : List (List Processed)) (all : Prop) (picked : Processed → Bool)
    (text : Processed → Bytes) (written : Bytes) : Prop :=
  ∃ order : List (ℕ × Processed),
    (∀ i, part i order <+: (work.getD i []).filter picked) ∧
    (written = order.flatMap fun x => text x.2) ∧
    (all → ∀ i, part i order = (work.getD i []).filter picked)

/-- The messages of a worker. -/
theorem getD_messages (work : List (List Processed)) (i : ℕ) :
    (work.map fun steps => steps.flatMap (messages width features config isTty)).getD i [] =
      (work.getD i []).flatMap (messages width features config isTty) := by
  rw [List.getD_eq_getElem?_getD, List.getD_eq_getElem?_getD, List.getElem?_map]
  cases work[i]? <;> rfl

/-- Where at most one message of each step has a text. -/
theorem woven_of_select {work : List (List Processed)} {c : List (ℕ × Message)} {all : Prop}
    {pick : Message → Bool} {picked : Processed → Bool} {item : Processed → Message}
    {channel : Message → Bytes} {text : Processed → Bytes}
    (hselect : ∀ p, (messages width features config isTty p).filter pick =
      if picked p then [item p] else [])
    (hsilent : ∀ m, pick m = false → channel m = [])
    (htext : ∀ p, picked p = true → channel (item p) = text p)
    (hc : ∀ i, part i c <+: (work.getD i []).flatMap (messages width features config isTty))
    (hall : all → ∀ i, part i c =
      (work.getD i []).flatMap (messages width features config isTty)) :
    Woven work all picked text (c.flatMap fun x => channel x.2) := by
  obtain ⟨order, horder, hbegins, hwhole⟩ := exists_select hselect hc
  refine ⟨order, hbegins, ?_, fun h => hwhole (hall h)⟩
  rw [← flatMap_filter hsilent, ← horder, List.flatMap_map]
  refine List.flatMap_congr fun x hx => htext x.2 ?_
  exact (List.mem_filter.mp ((hbegins x.1).subset (mem_part.mpr hx))).2

/-! ### The messages of a step -/

/-- What the tool wrote, as far as it was captured. -/
def Processed.output (p : Processed) : Bytes :=
  match p.result with
  | .ok (_, output) => output
  | .error _ => []

/-- What `processStep` returns when it has run the tool. -/
def Processed.code (p : Processed) : ℤ :=
  match p.result with
  | .ok (code, _) => code
  | .error _ => 1

/-- Whether the tool of the step was run. -/
def ran (config : Cli.ExecutorConfig) (p : Processed) : Bool := p.rebuild && !config.dryRun

/-- Whether the log has a section for the step. -/
def logged (features : Cli.Features) (config : Cli.ExecutorConfig) (p : Processed) : Bool :=
  ran config p && (captureOutput features config && p.output != [])

/-- The message with the captured output. -/
def capturedMessage (config : Cli.ExecutorConfig) (p : Processed) : Message :=
  ⟨if !config.silent || p.code != 0 then p.output else [], logSection p.step p.output,
    p.code != 0⟩

/-- The error that `processStep` tells when it has run the tool. -/
def Processed.errorText (p : Processed) : Bytes :=
  match p.result with
  | .ok (code, _) => failedText p.step code
  | .error e => notExecutedText e

/-- The step that `printMessage` tells. -/
def printed (width : Bytes → ℕ) (config : Cli.ExecutorConfig) (isTty : Bool) (p : Processed) :
    List Message :=
  if config.silent then [] else [⟨actionText width config isTty p, [], false⟩]

theorem filterMap_printMessage (p : Processed) :
    (printMessage width config isTty p).filterMap Report.message =
      printed width config isTty p := by
  rw [printMessage, printed]
  split_ifs <;> rfl

theorem filterMap_ranReports (hstart : startProgress features config = true) (p : Processed) :
    (ranReports features config p.step p.result).filterMap Report.message =
      (if captureOutput features config && p.output != [] then [capturedMessage config p]
        else []) ++ if p.code ≠ 0 then [⟨p.errorText, [], true⟩] else [] := by
  obtain ⟨step, rebuild, current, result⟩ := p
  cases result with
  | error e =>
    simp [ranReports, reportError, hstart, Report.message, Processed.output, Processed.code,
      Processed.errorText]
  | ok ended =>
    obtain ⟨code, output⟩ := ended
    rw [ranReports, List.filterMap_append, capturedReports]
    congr 1
    · by_cases houtput : (captureOutput features config && output != []) = true
      · rw [if_pos houtput]
        exact (if_pos houtput).symm
      · rw [if_neg houtput]
        exact (if_neg houtput).symm
    · rw [reportError, if_pos hstart]
      by_cases hcode : code ≠ 0
      · rw [if_pos hcode]
        exact (if_pos hcode).symm
      · rw [if_neg hcode]
        exact (if_neg hcode).symm

/-- With a progress thread, the messages of a step. -/
theorem messages_eq (hstart : startProgress features config = true) (p : Processed) :
    messages width features config isTty p =
      if p.rebuild then
        printed width config isTty p ++
          if config.dryRun then []
          else (if captureOutput features config && p.output != [] then [capturedMessage config p]
            else []) ++ if p.code ≠ 0 then [⟨p.errorText, [], true⟩] else []
      else if features.logging then [⟨skippingText p.step, [], false⟩] else [] := by
  rw [messages, reports, hstart, Bool.and_true]
  by_cases hrebuild : p.rebuild = true
  · rw [if_pos hrebuild, if_pos hrebuild, List.filterMap_append, filterMap_printMessage]
    congr 1
    by_cases hdry : config.dryRun = true
    · rw [if_pos hdry, if_pos hdry]
      rfl
    · rw [if_neg hdry, if_neg hdry, filterMap_ranReports hstart]
  · rw [if_neg hrebuild, if_neg hrebuild]
    split_ifs <;> rfl

theorem logSection_ne_nil (st : BuildStep) (output : Bytes) : logSection st output ≠ [] := by
  simp [logSection, ascii]

/-- At most one message of a step goes to the log. -/
theorem filter_logged (hstart : startProgress features config = true) (p : Processed) :
    (messages width features config isTty p).filter (fun m => m.logMessage != []) =
      if logged features config p then [capturedMessage config p] else [] := by
  -- of a step's messages only the captured one has text for the log
  have hprinted : (printed width config isTty p).filter (fun m => m.logMessage != []) = [] := by
    rw [printed]
    split_ifs <;> rfl
  have hcaptured : (capturedMessage config p).logMessage ≠ [] := logSection_ne_nil _ _
  rw [messages_eq hstart, logged, ran]
  cases p.rebuild with
  | false =>
    rw [if_neg Bool.false_ne_true]
    split_ifs <;> first | rfl | contradiction
  | true =>
    rw [if_pos rfl, List.filter_append, hprinted, List.nil_append]
    cases config.dryRun with
    | true => rfl
    | false =>
      rw [if_neg Bool.false_ne_true, List.filter_append]
      have herror : (if p.code ≠ 0 then [(⟨p.errorText, [], true⟩ : Message)] else []).filter
          (fun m => m.logMessage != []) = [] := by
        split_ifs <;> rfl
      rw [herror, List.append_nil]
      by_cases houtput : (captureOutput features config && p.output != []) = true
      · rw [if_pos houtput]
        simp [houtput, hcaptured]
      · rw [if_neg houtput]
        simp [houtput]

/-- Whether the step is told to be up to date. -/
def skipped (features : Cli.Features) (p : Processed) : Bool := !p.rebuild && features.logging

/-- The message that the step is up to date. -/
def skippingMessage (p : Processed) : Message := ⟨skippingText p.step, [], false⟩

/-- With `--silent`, only the steps that are up to date are told on the terminal. -/
theorem filter_skipped (hstart : startProgress features config = true)
    (hsilent : config.silent = true) (p : Processed) :
    (messages width features config isTty p).filter
        (fun m => !m.isError && m.consoleMessage != []) =
      if skipped features p then [skippingMessage p] else [] := by
  rw [messages_eq hstart, skipped, printed, if_pos hsilent, List.nil_append]
  cases p.rebuild with
  | false =>
    rw [if_neg Bool.false_ne_true]
    cases features.logging with
    | false => rfl
    | true => simp [skippingMessage, skippingText, ascii]
  | true =>
    -- the output of a tool that succeeded is for the log only
    have hcaptured : (!(capturedMessage config p).isError &&
        (capturedMessage config p).consoleMessage != []) = false := by
      cases hcode : p.code != 0 <;> simp [capturedMessage, hsilent, hcode]
    rw [if_pos rfl]
    split_ifs <;> simp_all

/-- **The log.** With a progress thread, the log has the sections of the tools that wrote something,
each of them whole and at most once; with `--silent`, the terminal has the steps that are up to
date. When the progress thread has returned, none is missing, and every failure is told. -/
theorem written_of_run {work : List (List Processed)} (htwo : 2 ≤ bitCeil capacity)
    (hstart : startProgress features config = true)
    (hrun : (progressMachine capacity (work.map fun steps =>
      steps.flatMap (messages width features config isTty))).Run tr s) :
    Woven work (s.consumer = .done) (logged features config)
      (fun p => logSection p.step p.output) (written features config tr).log ∧
    (config.silent = true → Woven work (s.consumer = .done) (skipped features)
      (fun p => skippingText p.step) (written features config tr).out) ∧
    (s.consumer = .done → ∀ steps ∈ work, ∀ p ∈ steps, ran config p = true → p.code ≠ 0 →
      p.errorText <:+: (written features config tr).err) := by
  -- what was dequeued, and what each worker has of it
  obtain ⟨c, hbegins, hevents, hall⟩ := exists_messages htwo hrun
  simp only [getD_messages] at hbegins hall
  have hwritten : written features config tr =
      ⟨c.flatMap fun x => outText x.2, c.flatMap fun x => errText x.2,
        c.flatMap fun x => logText features config x.2⟩ := by
    rw [written, foldl_handle_filter, hevents, foldl_handle_events]
    rfl
  rw [hwritten]
  refine ⟨?_, fun hsilent => ?_, fun hdone steps hsteps p hp hran hcode => ?_⟩
  · -- the log has the messages that carry a section
    refine woven_of_select (filter_logged hstart) (fun m hm => ?_) (fun p hp => ?_) hbegins hall
    · have hnone : m.logMessage = [] := by simpa using hm
      rw [logText, hnone, ite_self]
    · have hcapture := (Bool.and_eq_true_iff.mp (Bool.and_eq_true_iff.mp hp).2).1
      exact if_pos hcapture
  · -- silent: the terminal has the messages of skipped steps
    refine woven_of_select (filter_skipped hstart hsilent) (fun m hm => ?_) (fun p _ => rfl) hbegins
      hall
    rw [outText]
    split_ifs with herror
    · rfl
    · simpa [herror] using hm
  · -- a failure is one of the messages of its step
    obtain ⟨i, hi⟩ := List.getElem?_of_mem hsteps
    have hmem : (⟨p.errorText, [], true⟩ : Message) ∈ part i c := by
      rw [hall hdone, List.getD_eq_getElem?_getD, hi]
      refine List.mem_flatMap.mpr ⟨p, hp, ?_⟩
      obtain ⟨hrebuild, hdry⟩ := Bool.and_eq_true_iff.mp hran
      rw [messages_eq hstart, if_pos hrebuild, if_neg (by simpa using hdry), if_pos hcode]
      simp
    exact List.infix_of_mem_flatten (List.mem_map.mpr ⟨_, mem_part.mp hmem, rfl⟩)

end Run

/-- `-s --build-log log`. -/
def silentConfig : Cli.ExecutorConfig := { silent := true, buildLogFile := ascii "log" }

/-- A compiler that failed with a message. -/
def failedCompile : Processed where
  step := { tool := ascii "cc", inputs := ascii "a.c", output := ascii "a.o" }
  rebuild := true
  current := 0
  result := .ok (1, ascii "a.c:1: error")

/-- One worker has run the compiler, the other has found a step up to date. -/
def failedWork : List (List Processed) :=
  [[failedCompile], [{ failedCompile with rebuild := false }]]

/-- The failure is told on `stderr`, and the output of the compiler is in the log. -/
theorem written_of_run_failedWork : ∃ tr s,
    (progressMachine 4 (failedWork.map fun steps =>
      steps.flatMap (messages List.length ⟨false, true⟩ silentConfig false))).Run tr s ∧
    failedCompile.errorText <:+: (written ⟨false, true⟩ silentConfig tr).err ∧
    Woven failedWork (s.consumer = .done) (logged ⟨false, true⟩ silentConfig)
      (fun p => logSection p.step p.output) (written ⟨false, true⟩ silentConfig tr).log := by
  have hinit : (progressMachine 4 (failedWork.map fun steps =>
      steps.flatMap (messages List.length ⟨false, true⟩ silentConfig false))).init
      ⟨Ring.create 4, 0, (scripts (failedWork.map fun steps =>
        steps.flatMap (messages List.length ⟨false, true⟩ silentConfig false))).map Sender.start,
        .load, 0⟩ := rfl
  obtain ⟨tr, s, hrun, hs⟩ := Machine.exists_run_of_exec hinit
    (List.replicate 14 (.send 0 false) ++ List.replicate 7 (.send 1 false) ++
      List.replicate 7 (.send 2 false) ++ List.replicate 16 (.consume pill))
    (fun r => r.2.consumer = .done) (by decide +kernel)
  have hdone := of_decide_eq_true hs
  obtain ⟨hlog, -, herr⟩ := written_of_run (by decide) rfl hrun
  exact ⟨tr, s, hrun, herr hdone _ List.mem_cons_self _ List.mem_cons_self rfl (by decide), hlog⟩

end Cob.BuildLog
