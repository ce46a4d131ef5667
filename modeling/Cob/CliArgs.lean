import Cob.Builder
import Cob.Executor.Estimates
import Cob.Grammar

/-!
# The command line

`cliArgs` and `main`: what the arguments of `cob` say, and what `main` does about them.

The module introduces:

* `cliArgs` — the loop over `argv`;
* `Item`, `Spells` — what a user can ask for, and how it is written;
* `cliArgs_iff` — the loop accepts exactly the spellings of lists of items, and refuses any other
  command line at the first argument that spells none;
* `main` — the calls that follow, and the status of the process;
* `main_iff` — which command lines set the executor to work, in which mode, and when the status
  is 0.
-/

namespace Cob.Cli

/-- The feature flags of the binary. -/
structure Features where
  /-- `FF_cob__estimates` -/
  estimates : Bool
  /-- `FF_cob__logging` -/
  logging : Bool

/-- `ExecutorConfig`, all of it. -/
structure ExecutorConfig extends Cob.ExecutorConfig where
  dryRun : Bool := false
  clean : Bool := false
  cleanCcOnly : Bool := false
  silent : Bool := false
  keepGoing : Bool := false
  /-- 0 asks for as many as the hardware has -/
  jobs : ℕ := 0
  buildFile : Bytes := ascii "catalyst.build"
  buildLogFile : Bytes := []

/-- `CliArgs`. -/
structure CliArgs where
  config : ExecutorConfig := {}
  compdb : Bool := false
  graph : Bool := false
  commands : Bool := false
  workDir : Bytes := ascii "."
  definitionOverrides : List (Bytes × Bytes) := []

/-! ### `cliArgs` -/

def missingArgument (arg : Bytes) : Bytes := ascii "Missing argument for " ++ arg

def invalidJobCount (text : Bytes) : Bytes := ascii "Invalid job count: " ++ text

def unknownTool (tool : Bytes) : Bytes := ascii "Unknown tool: " ++ tool

def unknownArgument (program arg : Bytes) : Bytes :=
  ascii "Unknown argument: " ++ arg ++ ascii ". Run " ++ program ++
    ascii " --help for more information."

/-- What the loop does at an argument: it gives up with a message, it changes `par`, or it needs the
next argument as well. -/
inductive Turn where
  | refuse (message : Bytes)
  | set (change : CliArgs → CliArgs)
  | takes (change : Bytes → Except Bytes (CliArgs → CliArgs))

/-- `-j`. What follows the digits is not looked at. -/
def setJobs (text : Bytes) : Except Bytes (CliArgs → CliArgs) :=
  match fromChars text with
  | some n => .ok fun par => { par with config.jobs := n }
  | none => .error (invalidJobCount text)

/-- `-t`. -/
def setTool (tool : Bytes) : Except Bytes (CliArgs → CliArgs) :=
  if tool = ascii "clean" then .ok fun par => { par with config.clean := true }
  else if tool = ascii "compdb" then .ok fun par => { par with compdb := true }
  else if tool = ascii "graph" then .ok fun par => { par with graph := true }
  else if tool = ascii "commands" then .ok fun par => { par with commands := true }
  else .error (unknownTool tool)

/-- One argument. Help and version are printed, and end the loop without a message. -/
def turn (features : Features) (program arg : Bytes) : Turn :=
  if arg = ascii "-h" ∨ arg = ascii "--help" then .refuse []
  else if arg = ascii "-v" ∨ arg = ascii "--version" then .refuse []
  else if arg = ascii "-C" then .takes fun dir => .ok fun par => { par with workDir := dir }
  else if arg = ascii "-f" then
    .takes fun file => .ok fun par => { par with config.buildFile := file }
  else if features.estimates ∧ arg = ascii "--estimates" then
    .takes fun file => .ok fun par => { par with config.estimatesFile := file }
  else if features.logging ∧ (arg = ascii "--build-log" ∨ arg = ascii "--error-log") then
    .takes fun file => .ok fun par => { par with config.buildLogFile := file }
  else if arg = ascii "-j" ∨ arg = ascii "--jobs" then .takes setJobs
  else if arg = ascii "-n" ∨ arg = ascii "--dry-run" then
    .set fun par => { par with config.dryRun := true }
  else if arg = ascii "-i" then .set fun par => { par with config.cleanCcOnly := true }
  else if arg = ascii "-t" then .takes setTool
  else if arg = ascii "-s" ∨ arg = ascii "--silent" then
    .set fun par => { par with config.silent := true }
  else if arg = ascii "-k" ∨ arg = ascii "--keep-going" then
    .set fun par => { par with config.keepGoing := true }
  -- whatever has an equals sign is a definition, a misspelt option too
  else match Bytes.cut (chr '=') arg with
    | some definition =>
      .set fun par => { par with definitionOverrides := par.definitionOverrides ++ [definition] }
    | none => .refuse (unknownArgument program arg)

/-- The loop of `cliArgs`, from the argument it is at. -/
def cliArgsFrom (features : Features) (program : Bytes) :
    CliArgs → List Bytes → Except Bytes CliArgs
  | par, [] => .ok par
  | par, arg :: rest =>
    match turn features program arg with
    | .refuse message => .error message
    | .set change => cliArgsFrom features program (change par) rest
    -- the value is the next argument, whatever it looks like
    | .takes change =>
      match rest with
      | [] => .error (missingArgument arg)
      | value :: rest =>
        match change value with
        | .error message => .error message
        | .ok change => cliArgsFrom features program (change par) rest

/-- `cliArgs`, for the arguments behind `argv[0]`. -/
def cliArgs (features : Features) (program : Bytes) (args : List Bytes) : Except Bytes CliArgs :=
  cliArgsFrom features program {} args

/-! ### What can be asked for -/

/-- The subtools of `-t`. -/
inductive Tool where
  | clean
  | compdb
  | graph
  | commands
  deriving DecidableEq

/-- One wish of the user. -/
inductive Item where
  | workDir (dir : Bytes)
  | buildFile (file : Bytes)
  | estimates (file : Bytes)
  | buildLog (file : Bytes)
  | jobs (n : ℕ)
  | dryRun
  | cleanCcOnly
  | tool (tool : Tool)
  | silent
  | keepGoing
  | override (key value : Bytes)
  deriving DecidableEq

/-- The name of a subtool. -/
def Tool.name : Tool → Bytes
  | .clean => ascii "clean"
  | .compdb => ascii "compdb"
  | .graph => ascii "graph"
  | .commands => ascii "commands"

/-- What a wish changes. -/
def Item.apply (par : CliArgs) : Item → CliArgs
  | .workDir dir => { par with workDir := dir }
  | .buildFile file => { par with config.buildFile := file }
  | .estimates file => { par with config.estimatesFile := file }
  | .buildLog file => { par with config.buildLogFile := file }
  | .jobs n => { par with config.jobs := n }
  | .dryRun => { par with config.dryRun := true }
  | .cleanCcOnly => { par with config.cleanCcOnly := true }
  | .tool .clean => { par with config.clean := true }
  | .tool .compdb => { par with compdb := true }
  | .tool .graph => { par with graph := true }
  | .tool .commands => { par with commands := true }
  | .silent => { par with config.silent := true }
  | .keepGoing => { par with config.keepGoing := true }
  | .override key value =>
    { par with definitionOverrides := par.definitionOverrides ++ [(key, value)] }

/-- How a wish is written. -/
inductive Spells (features : Features) : Item → List Bytes → Prop
  | workDir (dir : Bytes) : Spells features (.workDir dir) [ascii "-C", dir]
  | buildFile (file : Bytes) : Spells features (.buildFile file) [ascii "-f", file]
  | estimates (file : Bytes) (hon : features.estimates = true) :
      Spells features (.estimates file) [ascii "--estimates", file]
  | buildLog {name : Bytes} (file : Bytes) (hon : features.logging = true)
      (hname : name = ascii "--build-log" ∨ name = ascii "--error-log") :
      Spells features (.buildLog file) [name, file]
  /-- Anything that does not begin with a digit may follow the number. -/
  | jobs {name : Bytes} (digits rest : Bytes) (hname : name = ascii "-j" ∨ name = ascii "--jobs")
      (hdigits : ∀ c ∈ digits, isDigit c = true) (hne : digits ≠ [])
      (hrest : ∀ c ∈ rest.head?, isDigit c = false) (hfits : decimal digits < 2 ^ 64) :
      Spells features (.jobs (decimal digits)) [name, digits ++ rest]
  | dryRun {name : Bytes} (hname : name = ascii "-n" ∨ name = ascii "--dry-run") :
      Spells features .dryRun [name]
  | cleanCcOnly : Spells features .cleanCcOnly [ascii "-i"]
  | tool (tool : Tool) : Spells features (.tool tool) [ascii "-t", tool.name]
  | silent {name : Bytes} (hname : name = ascii "-s" ∨ name = ascii "--silent") :
      Spells features .silent [name]
  | keepGoing {name : Bytes} (hname : name = ascii "-k" ∨ name = ascii "--keep-going") :
      Spells features .keepGoing [name]
  /-- The value may contain equals signs, the variable may not. -/
  | override (key value : Bytes) (hkey : chr '=' ∉ key) :
      Spells features (.override key value) [key ++ chr '=' :: value]

/-- The arguments that need another one. -/
def Operand (features : Features) (arg : Bytes) : Prop :=
  arg = ascii "-C" ∨ arg = ascii "-f" ∨ (features.estimates = true ∧ arg = ascii "--estimates") ∨
    (features.logging = true ∧ (arg = ascii "--build-log" ∨ arg = ascii "--error-log")) ∨
    arg = ascii "-j" ∨ arg = ascii "--jobs" ∨ arg = ascii "-t"

/-- The arguments that print something and end the program. -/
def helpWords : List Bytes := [ascii "-h", ascii "--help", ascii "-v", ascii "--version"]

/-- What no list of wishes begins with, and the message about it. -/
inductive Refused (features : Features) (program : Bytes) : List Bytes → Bytes → Prop
  | help {arg : Bytes} (rest : List Bytes) (harg : arg ∈ helpWords) :
      Refused features program (arg :: rest) []
  | missing {arg : Bytes} (harg : Operand features arg) :
      Refused features program [arg] (missingArgument arg)
  | jobs {name text : Bytes} (rest : List Bytes)
      (hname : name = ascii "-j" ∨ name = ascii "--jobs") (htext : fromChars text = none) :
      Refused features program (name :: text :: rest) (invalidJobCount text)
  | tool {text : Bytes} (rest : List Bytes) (htext : ∀ tool : Tool, text ≠ tool.name) :
      Refused features program (ascii "-t" :: text :: rest) (unknownTool text)
  | unknown {arg : Bytes} (rest : List Bytes) (hcut : chr '=' ∉ arg)
      (hno : ¬ Operand features arg) (hhelp : arg ∉ helpWords)
      (hflag : ∀ item, ¬ Spells features item [arg]) :
      Refused features program (arg :: rest) (unknownArgument program arg)

section CommandLine

variable {features : Features} {program : Bytes} {par : CliArgs} {item : Item}
  {args words rest : List Bytes} {arg e : Bytes}

/-! ### One turn of the loop -/

/-- An argument with an equals sign is no option. -/
theorem ne_of_override {key value name : Bytes} (hname : chr '=' ∉ name) :
    key ++ chr '=' :: value ≠ name := by
  rintro rfl
  simp at hname

theorem turn_override {key value : Bytes} (hkey : chr '=' ∉ key) :
    turn features program (key ++ chr '=' :: value) =
      .set fun par =>
        { par with definitionOverrides := par.definitionOverrides ++ [(key, value)] } := by
  have hne : ∀ name ∈ [ascii "-h", ascii "--help", ascii "-v", ascii "--version", ascii "-C",
      ascii "-f", ascii "--estimates", ascii "--build-log", ascii "--error-log", ascii "-j",
      ascii "--jobs", ascii "-n", ascii "--dry-run", ascii "-i", ascii "-t", ascii "-s",
      ascii "--silent", ascii "-k", ascii "--keep-going"],
      key ++ chr '=' :: value ≠ name := by
    intro name hmem
    refine ne_of_override ?_
    revert name
    decide
  simp only [List.forall_mem_cons] at hne
  simp only [turn, hne, or_self, and_false, if_false, cut_append hkey]

/-- The digits at the front of a job count. -/
theorem fromChars_append {digits rest : Bytes} (hdigits : ∀ c ∈ digits, isDigit c = true)
    (hne : digits ≠ []) (hrest : ∀ c ∈ rest.head?, isDigit c = false)
    (hfits : decimal digits < 2 ^ 64) : fromChars (digits ++ rest) = some (decimal digits) := by
  have htake : (digits ++ rest).takeWhile isDigit = digits := by
    rw [List.takeWhile_append_of_pos hdigits]
    cases rest with
    | nil => simp
    | cons c rest => simp [hrest c rfl]
  rw [fromChars]
  simp only [htake, if_neg hne]
  exact if_pos hfits

/-- A job count is some digits, and what stands behind them. -/
theorem exists_digits {text : Bytes} {n : ℕ} (h : fromChars text = some n) :
    ∃ digits rest, text = digits ++ rest ∧ (∀ c ∈ digits, isDigit c = true) ∧ digits ≠ [] ∧
      (∀ c ∈ rest.head?, isDigit c = false) ∧ decimal digits < 2 ^ 64 ∧ n = decimal digits := by
  rw [fromChars] at h
  split_ifs at h with hne hfits
  refine ⟨text.takeWhile isDigit, text.dropWhile isDigit, List.takeWhile_append_dropWhile.symm,
    fun c hc => List.mem_takeWhile_imp hc, hne, fun c hc => ?_, hfits, (Option.some.inj h).symm⟩
  have hnot := List.head?_dropWhile_not isDigit text
  rw [Option.mem_def.mp hc] at hnot
  exact hnot

/-- The loop takes the words of a wish, and does what they ask for. -/
theorem cliArgsFrom_append (h : Spells features item words) :
    cliArgsFrom features program par (words ++ rest) =
      cliArgsFrom features program (item.apply par) rest := by
  cases h with
  | workDir dir => rfl
  | buildFile file => rfl
  | estimates file hon => simp +decide [cliArgsFrom, turn, hon, Item.apply]
  | buildLog file hon hname =>
    rcases hname with rfl | rfl <;> simp +decide [cliArgsFrom, turn, hon, Item.apply]
  | jobs digits text hname hdigits hne hrest hfits =>
    have hjobs := fromChars_append hdigits hne hrest hfits
    rcases hname with rfl | rfl <;> simp +decide [cliArgsFrom, turn, setJobs, hjobs, Item.apply]
  | dryRun hname => rcases hname with rfl | rfl <;> simp +decide [cliArgsFrom, turn, Item.apply]
  | cleanCcOnly => simp +decide [cliArgsFrom, turn, Item.apply]
  | tool tool => cases tool <;> simp +decide [cliArgsFrom, turn, setTool, Tool.name, Item.apply]
  | silent hname => rcases hname with rfl | rfl <;> simp +decide [cliArgsFrom, turn, Item.apply]
  | keepGoing hname => rcases hname with rfl | rfl <;> simp +decide [cliArgsFrom, turn, Item.apply]
  | override key value hkey => simp [cliArgsFrom, turn_override hkey, Item.apply]

/-- The loop gives up at what is no wish. -/
theorem cliArgsFrom_refused (h : Refused features program args e) :
    cliArgsFrom features program par args = .error e := by
  cases h with
  | help rest harg =>
    simp only [helpWords, List.mem_cons, List.not_mem_nil, or_false] at harg
    rcases harg with rfl | rfl | rfl | rfl <;> simp +decide [cliArgsFrom, turn]
  | missing harg =>
    rcases harg with rfl | rfl | ⟨hon, rfl⟩ | ⟨hon, rfl | rfl⟩ | rfl | rfl | rfl <;>
      simp +decide [cliArgsFrom, turn, *]
  | jobs rest hname htext =>
    rcases hname with rfl | rfl <;> simp +decide [cliArgsFrom, turn, setJobs, htext]
  | tool rest htext =>
    have hclean := htext .clean
    have hcompdb := htext .compdb
    have hgraph := htext .graph
    have hcommands := htext .commands
    simp only [Tool.name] at hclean hcompdb hgraph hcommands
    simp +decide [cliArgsFrom, turn, setTool, hclean, hcompdb, hgraph, hcommands]
  | @unknown arg rest hcut hno hhelp hflag =>
    have hdry : ¬ (arg = ascii "-n" ∨ arg = ascii "--dry-run") :=
      fun hname => hflag _ (.dryRun hname)
    have hsilent : ¬ (arg = ascii "-s" ∨ arg = ascii "--silent") :=
      fun hname => hflag _ (.silent hname)
    have hkeep : ¬ (arg = ascii "-k" ∨ arg = ascii "--keep-going") :=
      fun hname => hflag _ (.keepGoing hname)
    have hcc : arg ≠ ascii "-i" := by
      rintro rfl
      exact hflag _ .cleanCcOnly
    simp only [Operand, not_or] at hno
    simp only [helpWords, List.mem_cons, List.not_mem_nil, or_false, not_or] at hhelp
    simp only [cliArgsFrom, turn, hno, hhelp, hdry, hsilent, hkeep, hcc, or_self, if_false,
      cut_eq_none.mpr hcut]

/-- A command line that is not empty begins with a wish, or with what is none. -/
theorem spells_or_refused (features : Features) (program arg : Bytes) (rest : List Bytes) :
    (∃ item words rest', Spells features item words ∧ words ≠ [] ∧ arg :: rest = words ++ rest') ∨
      ∃ e, Refused features program (arg :: rest) e := by
  by_cases hhelp : arg ∈ helpWords
  · exact .inr ⟨_, .help rest hhelp⟩
  by_cases hop : Operand features arg
  · cases rest with
    | nil => exact .inr ⟨_, .missing hop⟩
    | cons value rest =>
      have htakes : ∀ {item}, Spells features item [arg, value] →
          ∃ item words rest', Spells features item words ∧ words ≠ [] ∧
            arg :: value :: rest = words ++ rest' :=
        fun h => ⟨_, _, rest, h, List.cons_ne_nil _ _, rfl⟩
      have hjobs : arg = ascii "-j" ∨ arg = ascii "--jobs" →
          (∃ item words rest', Spells features item words ∧ words ≠ [] ∧
            arg :: value :: rest = words ++ rest') ∨
          ∃ e, Refused features program (arg :: value :: rest) e := by
        intro hname
        cases hvalue : fromChars value with
        | none => exact .inr ⟨_, .jobs rest hname hvalue⟩
        | some n =>
          obtain ⟨digits, text, rfl, hdigits, hne, hrest, hfits, rfl⟩ := exists_digits hvalue
          exact .inl (htakes (.jobs digits text hname hdigits hne hrest hfits))
      rcases hop with rfl | rfl | ⟨hon, rfl⟩ | ⟨hon, hname⟩ | hname | hname | rfl
      · exact .inl (htakes (.workDir value))
      · exact .inl (htakes (.buildFile value))
      · exact .inl (htakes (.estimates value hon))
      · exact .inl (htakes (.buildLog value hon hname))
      · exact hjobs (.inl hname)
      · exact hjobs (.inr hname)
      · by_cases htool : ∃ tool : Tool, value = tool.name
        · obtain ⟨tool, rfl⟩ := htool
          exact .inl (htakes (.tool tool))
        · exact .inr ⟨_, .tool rest (not_exists.mp htool)⟩
  by_cases hflag : ∃ item, Spells features item [arg]
  · obtain ⟨item, h⟩ := hflag
    exact .inl ⟨item, [arg], rest, h, List.cons_ne_nil _ _, rfl⟩
  cases hcut : Bytes.cut (chr '=') arg with
  | none => exact .inr ⟨_, .unknown rest (cut_eq_none.mp hcut) hop hhelp (not_exists.mp hflag)⟩
  | some definition =>
    -- the first equals sign ends the variable
    obtain ⟨rfl, hkey⟩ := cut_eq_some.mp hcut
    exact absurd ⟨_, .override definition.1 definition.2 hkey⟩ hflag

/-! ### Whole command lines -/

/-- Wishes with their spellings. -/
def Spelled (features : Features) (items : List (Item × List Bytes)) : Prop :=
  ∀ i ∈ items, Spells features i.1 i.2

/-- The words of a list of wishes. -/
def wordsOf (items : List (Item × List Bytes)) : List Bytes := items.flatMap Prod.snd

/-- What a list of wishes asks for: a later one of its kind wins, overrides add up. -/
def askedFor (items : List (Item × List Bytes)) : CliArgs :=
  items.foldl (fun par i => i.1.apply par) {}

/-- The loop does what a list of wishes asks for. -/
theorem cliArgsFrom_wordsOf {items : List (Item × List Bytes)} (h : Spelled features items) :
    cliArgsFrom features program par (wordsOf items ++ rest) =
      cliArgsFrom features program (items.foldl (fun par i => i.1.apply par) par) rest := by
  induction items generalizing par with
  | nil => rfl
  | cons i items ih =>
    rw [wordsOf, List.flatMap_cons, List.append_assoc,
      cliArgsFrom_append (h i List.mem_cons_self)]
    exact ih fun j hj => h j (List.mem_cons_of_mem _ hj)

/-- Every command line is a list of wishes up to its end, or up to what is no wish. -/
theorem exists_items (features : Features) (program : Bytes) (args : List Bytes) :
    ∃ items rest, Spelled features items ∧ args = wordsOf items ++ rest ∧
      (rest = [] ∨ ∃ e, Refused features program rest e) := by
  induction hlen : args.length using Nat.strong_induction_on generalizing args with
  | h n ih =>
    cases args with
    | nil => exact ⟨[], [], by simp [Spelled], rfl, .inl rfl⟩
    | cons arg rest =>
      rcases spells_or_refused features program arg rest with
        ⟨item, words, rest', hspells, hne, heq⟩ | hrefused
      · have hshort : rest'.length < n := by
          have hpos := List.length_pos_of_ne_nil hne
          rw [← hlen, heq, List.length_append]
          omega
        obtain ⟨items, last, hitems, rfl, hend⟩ := ih _ hshort rest' rfl
        refine ⟨(item, words) :: items, last, ?_, ?_, hend⟩
        · rintro i (- | ⟨-, hi⟩)
          · exact hspells
          · exact hitems i hi
        · rw [heq, wordsOf, wordsOf, List.flatMap_cons, List.append_assoc]
      · exact ⟨[], arg :: rest, by simp [Spelled], rfl, .inr hrefused⟩

/-- **Command lines.** The loop accepts exactly the spellings of lists of wishes and gives what they
ask for; any other command line it refuses where the first argument is that begins no wish. -/
theorem cliArgs_iff (features : Features) (program : Bytes) (args : List Bytes) :
    (∀ par, cliArgs features program args = .ok par ↔
      ∃ items, Spelled features items ∧ args = wordsOf items ∧ par = askedFor items) ∧
    ∀ e, cliArgs features program args = .error e ↔
      ∃ items rest, Spelled features items ∧ args = wordsOf items ++ rest ∧
        Refused features program rest e := by
  -- the longest list of wishes at the front, and what stops it
  obtain ⟨items, rest, hitems, rfl, hend⟩ := exists_items features program args
  have hloop : cliArgs features program (wordsOf items ++ rest) =
      cliArgsFrom features program (askedFor items) rest := cliArgsFrom_wordsOf hitems
  refine ⟨fun par => ⟨fun hok => ?_, ?_⟩, fun e => ⟨fun herror => ?_, ?_⟩⟩
  · rcases hend with rfl | ⟨e, hrefused⟩
    · rw [hloop] at hok
      exact ⟨items, hitems, List.append_nil _, (Except.ok.inj hok).symm⟩
    · rw [hloop, cliArgsFrom_refused hrefused] at hok
      cases hok
  · rintro ⟨items', hitems', heq, rfl⟩
    rw [heq, ← List.append_nil (wordsOf items')]
    exact cliArgsFrom_wordsOf hitems'
  · rcases hend with rfl | ⟨e', hrefused⟩
    · rw [hloop] at herror
      cases herror
    · rw [hloop, cliArgsFrom_refused hrefused] at herror
      obtain rfl := Except.error.inj herror
      exact ⟨items, rest, hitems, rfl, hrefused⟩
  · rintro ⟨items', rest', hitems', heq, hrefused⟩
    rw [heq]
    exact (cliArgsFrom_wordsOf hitems').trans (cliArgsFrom_refused hrefused)

/-! ### What was asked for -/

/-- A field that wishes overwrite holds what the last of them said. -/
theorem foldl_apply_said {α : Type} (field : CliArgs → α) {said : Item → Option α}
    (happly : ∀ par i, field (i.apply par) = (said i).getD (field par))
    (items : List (Item × List Bytes)) (par : CliArgs) :
    field (items.foldl (fun par i => i.1.apply par) par) =
      (items.filterMap fun i => said i.1).getLastD (field par) := by
  induction items generalizing par with
  | nil => rfl
  | cons i items ih =>
    rw [List.foldl_cons, ih, happly, List.filterMap_cons]
    cases said i.1 with
    | none => rfl
    | some value => rw [List.getLastD_cons, Option.getD_some]

/-- A field that adds up holds what all of them said. -/
theorem foldl_apply_added {α : Type} {field : CliArgs → List α} {said : Item → Option α}
    (happly : ∀ par i, field (i.apply par) = field par ++ (said i).toList)
    (items : List (Item × List Bytes)) (par : CliArgs) :
    field (items.foldl (fun par i => i.1.apply par) par) =
      field par ++ items.filterMap fun i => said i.1 := by
  induction items generalizing par with
  | nil => exact (List.append_nil _).symm
  | cons i items ih =>
    rw [List.foldl_cons, ih, happly, List.filterMap_cons]
    cases said i.1 with
    | none => simp
    | some value => simp

/-- A flag is set when its wish is among them. -/
theorem foldl_apply_flag (field : CliArgs → Bool) {wish : Item}
    (happly : ∀ par i, field (i.apply par) = (field par || decide (i = wish)))
    (items : List (Item × List Bytes)) (par : CliArgs) :
    field (items.foldl (fun par i => i.1.apply par) par) =
      (field par || items.any fun i => decide (i.1 = wish)) := by
  induction items generalizing par with
  | nil => exact (Bool.or_false _).symm
  | cons i items ih => rw [List.foldl_cons, ih, happly, List.any_cons, Bool.or_assoc]

end CommandLine

/-- What `main` goes on to do, once the manifest is parsed. -/
inductive Mode where
  | compDB
  | graph
  | commands
  | clean
  | execute
  deriving DecidableEq

/-- The chain of `if`s at the end of `main`. -/
def CliArgs.mode (par : CliArgs) : Mode :=
  if par.compdb then .compDB
  else if par.graph then .graph
  else if par.commands then .commands
  else if par.config.clean then .clean
  else .execute

/-- The directory that a wish names. -/
def Item.workDir? : Item → Option Bytes
  | .workDir dir => some dir
  | _ => none

/-- The manifest that a wish names. -/
def Item.buildFile? : Item → Option Bytes
  | .buildFile file => some file
  | _ => none

/-- The definition that a wish overrides. -/
def Item.override? : Item → Option (Bytes × Bytes)
  | .override key value => some (key, value)
  | _ => none

section Asked

variable (items : List (Item × List Bytes))

/-- The subtool is among the wishes. -/
def wants (tool : Tool) : Bool := items.any fun i => decide (i.1 = .tool tool)

/-- The directory of the last `-C`. -/
def workDirOf : Bytes := (items.filterMap fun i => i.1.workDir?).getLastD (ascii ".")

/-- The manifest of the last `-f`. -/
def buildFileOf : Bytes :=
  (items.filterMap fun i => i.1.buildFile?).getLastD (ascii "catalyst.build")

/-- The overrides, in the order of the command line. -/
def overridesOf : List (Bytes × Bytes) := items.filterMap fun i => i.1.override?

/-- The mode that a list of wishes leads to. -/
def modeOf : Mode :=
  if wants items .compdb then .compDB
  else if wants items .graph then .graph
  else if wants items .commands then .commands
  else if wants items .clean then .clean
  else .execute

theorem workDir_askedFor : (askedFor items).workDir = workDirOf items := by
  refine foldl_apply_said CliArgs.workDir (fun par i => ?_) items {}
  cases i with
  | tool tool => cases tool <;> rfl
  | _ => rfl

theorem buildFile_askedFor : (askedFor items).config.buildFile = buildFileOf items := by
  have happly : ∀ par i, (Item.apply par i).config.buildFile =
      (Item.buildFile? i).getD par.config.buildFile := by
    intro par i
    cases i with
    | tool tool => cases tool <;> rfl
    | _ => rfl
  exact foldl_apply_said (fun par => par.config.buildFile) happly items {}

theorem definitionOverrides_askedFor :
    (askedFor items).definitionOverrides = overridesOf items := by
  refine (foldl_apply_added (fun par i => ?_) items {}).trans (List.nil_append _)
  cases i with
  | override key value => rfl
  | tool tool => cases tool <;> exact (List.append_nil _).symm
  | _ => exact (List.append_nil _).symm

/-- The flag that a subtool sets. -/
def CliArgs.toolFlag (par : CliArgs) : Tool → Bool
  | .clean => par.config.clean
  | .compdb => par.compdb
  | .graph => par.graph
  | .commands => par.commands

theorem toolFlag_apply (par : CliArgs) (i : Item) (tool : Tool) :
    (i.apply par).toolFlag tool = (par.toolFlag tool || decide (i = .tool tool)) := by
  cases i with
  | tool tool' => cases tool' <;> cases tool <;> simp [Item.apply, CliArgs.toolFlag]
  | _ => cases tool <;> simp [Item.apply, CliArgs.toolFlag]

theorem toolFlag_askedFor (tool : Tool) : (askedFor items).toolFlag tool = wants items tool := by
  refine (foldl_apply_flag (fun par => par.toolFlag tool)
    (fun par i => toolFlag_apply par i tool) items {}).trans ?_
  cases tool <;> rfl

/-- Only the subtools decide on the mode, and their order does not matter. -/
theorem mode_askedFor : (askedFor items).mode = modeOf items := by
  rw [modeOf, ← toolFlag_askedFor, ← toolFlag_askedFor, ← toolFlag_askedFor, ← toolFlag_askedFor]
  rfl

end Asked

/-! ### `main` -/

/-- What `main` calls, with the answers. -/
structure Outside where
  /-- `std::filesystem::current_path`, and the message of its error -/
  changeDir : Bytes → Option Bytes
  fileExists : Bytes → Bool
  parse : Bytes → Except Bytes COBBuilder
  /-- the member function of the executor -/
  run : Mode → ExecutorConfig → COBBuilder → Except Bytes Unit

/-- A call of `main`. -/
inductive MainCall where
  | changeDir (dir : Bytes)
  | parse (file : Bytes)
  | run (mode : Mode) (config : ExecutorConfig) (builder : COBBuilder)

/-- How `main` ended. -/
structure Ending where
  calls : List MainCall
  stderr : Bytes
  status : ℕ

/-- What the mode's result comes to: the first three modes ignore it. -/
def endMode (mode : Mode) (result : Except Bytes Unit) : Bytes × ℕ :=
  match mode, result with
  | .clean, .error message => (ascii "Clean failed: " ++ message ++ [chr '\n'], 1)
  | .execute, .error message => (ascii "Execution failed: " ++ message ++ [chr '\n'], 1)
  | _, _ => ([], 0)

/-- `main` from the manifest on, with the calls made before. -/
def finishMain (out : Outside) (par : CliArgs) (calls : List MainCall) : Ending :=
  let file := par.config.buildFile
  if out.fileExists file then
    match out.parse file with
    | .error message =>
      ⟨calls ++ [.parse file], ascii "Failed to parse: " ++ message ++ [chr '\n'], 1⟩
    | .ok builder =>
      let builder := builder.override par.definitionOverrides
      let ending := endMode par.mode (out.run par.mode par.config builder)
      ⟨calls ++ [.parse file, .run par.mode par.config builder], ending.1, ending.2⟩
  else ⟨calls, ascii "Build File: " ++ file ++ ascii " does not exist." ++ [chr '\n'], 1⟩

/-- `main`. -/
def main (out : Outside) (features : Features) (program : Bytes) (args : List Bytes) : Ending :=
  match cliArgs features program args with
  | .error message =>
    if message ≠ [] then ⟨[], message ++ [chr '\n'], 1⟩ else ⟨[], [], 0⟩
  | .ok par =>
    if par.workDir = ascii "." then finishMain out par []
    else match out.changeDir par.workDir with
      | some message =>
        ⟨[.changeDir par.workDir], ascii "Failed to change directory to " ++ par.workDir ++
          ascii ": " ++ message ++ [chr '\n'], 1⟩
      | none => finishMain out par [.changeDir par.workDir]

section Main

variable {out : Outside} {features : Features} {program : Bytes} {args : List Bytes}
  {items : List (Item × List Bytes)}
  {calls : List MainCall} {par : CliArgs} {mode : Mode} {config : ExecutorConfig}
  {builder : COBBuilder}

/-- The executor is set to work: the directory and the manifest are there, and the manifest
parses. -/
structure Reaches (out : Outside) (items : List (Item × List Bytes)) (mode : Mode)
    (config : ExecutorConfig) (builder : COBBuilder) : Prop where
  moved : workDirOf items = ascii "." ∨ out.changeDir (workDirOf items) = none
  found : out.fileExists (buildFileOf items) = true
  parsed : ∃ b, out.parse (buildFileOf items) = .ok b ∧ builder = b.override (overridesOf items)
  mode_eq : mode = modeOf items
  config_eq : config = (askedFor items).config

/-- A failure counts in the modes that report it. -/
theorem endMode_eq_zero_iff {result : Except Bytes Unit} :
    (endMode mode result).2 = 0 ↔ (mode = .clean ∨ mode = .execute → result = .ok ()) := by
  cases mode <;> cases result <;> simp [endMode]

/-- The executor is called in the mode that was asked for. -/
def Calls (out : Outside) (par : CliArgs) (mode : Mode) (config : ExecutorConfig)
    (builder : COBBuilder) : Prop :=
  out.fileExists par.config.buildFile = true ∧ mode = par.mode ∧ config = par.config ∧
    ∃ b, out.parse par.config.buildFile = .ok b ∧ builder = b.override par.definitionOverrides

theorem mem_calls_finishMain (hcalls : .run mode config builder ∉ calls) :
    .run mode config builder ∈ (finishMain out par calls).calls ↔
      Calls out par mode config builder := by
  cases hfound : out.fileExists par.config.buildFile with
  | false => simp [finishMain, Calls, hfound, hcalls]
  | true =>
    cases hparse : out.parse par.config.buildFile with
    | error message => simp [finishMain, Calls, hfound, hparse, hcalls]
    | ok b => simp [finishMain, Calls, hfound, hparse, hcalls]

theorem status_finishMain : (finishMain out par calls).status = 0 ↔
    ∃ mode config builder, Calls out par mode config builder ∧
      (mode = .clean ∨ mode = .execute → out.run mode config builder = .ok ()) := by
  cases hfound : out.fileExists par.config.buildFile with
  | false => simp [finishMain, Calls, hfound]
  | true =>
    cases hparse : out.parse par.config.buildFile with
    | error message => simp [finishMain, Calls, hfound, hparse]
    | ok b => simp [finishMain, Calls, hfound, hparse, endMode_eq_zero_iff]

/-- The directory is the one to build in. -/
def Moves (out : Outside) (par : CliArgs) : Prop :=
  par.workDir = ascii "." ∨ out.changeDir par.workDir = none

theorem mem_calls_main (hok : cliArgs features program args = .ok par) :
    .run mode config builder ∈ (main out features program args).calls ↔
      Moves out par ∧ Calls out par mode config builder := by
  simp only [main, hok]
  by_cases hdir : par.workDir = ascii "."
  · simp [Moves, hdir, mem_calls_finishMain]
  · cases hmove : out.changeDir par.workDir with
    | none => simp [Moves, hdir, hmove, mem_calls_finishMain]
    | some message => simp [Moves, hdir, hmove]

theorem status_main (hok : cliArgs features program args = .ok par) :
    (main out features program args).status = 0 ↔
      Moves out par ∧ ∃ mode config builder, Calls out par mode config builder ∧
        (mode = .clean ∨ mode = .execute → out.run mode config builder = .ok ()) := by
  simp only [main, hok]
  by_cases hdir : par.workDir = ascii "."
  · simp [Moves, hdir, status_finishMain]
  · cases hmove : out.changeDir par.workDir with
    | none => simp [Moves, hdir, hmove, status_finishMain]
    | some message => simp [Moves, hdir, hmove]

theorem reaches_iff : Moves out (askedFor items) ∧ Calls out (askedFor items) mode config builder ↔
    Reaches out items mode config builder := by
  simp only [Moves, Calls, workDir_askedFor, buildFile_askedFor, definitionOverrides_askedFor,
    mode_askedFor]
  constructor
  · rintro ⟨hmoved, hfound, hmode, hconfig, hparsed⟩
    exact ⟨hmoved, hfound, hparsed, hmode, hconfig⟩
  · rintro ⟨hmoved, hfound, hparsed, hmode, hconfig⟩
    exact ⟨hmoved, hfound, hmode, hconfig, hparsed⟩

/-- Only a wish for help is refused without a message. -/
theorem Refused.eq_help {rest : List Bytes} (h : Refused features program rest []) :
    ∃ arg rest', arg ∈ helpWords ∧ rest = arg :: rest' := by
  generalize he : ([] : Bytes) = e at h
  cases h with
  | help rest harg => exact ⟨_, rest, harg, rfl⟩
  | missing harg => simp [missingArgument, ascii] at he
  | jobs rest hname htext => simp [invalidJobCount, ascii] at he
  | tool rest htext => simp [unknownTool, ascii] at he
  | unknown rest hcut hno hhelp hflag => simp [unknownArgument, ascii] at he

theorem cliArgs_wordsOf (h : Spelled features items) :
    cliArgs features program (wordsOf items) = .ok (askedFor items) := by
  rw [← List.append_nil (wordsOf items)]
  exact cliArgsFrom_wordsOf h

/-- A command line that is refused makes no call. -/
theorem main_of_refused {rest : List Bytes} {e : Bytes} (hitems : Spelled features items)
    (h : Refused features program rest e) :
    (main out features program (wordsOf items ++ rest)).calls = [] ∧
      ((main out features program (wordsOf items ++ rest)).status = 0 ↔ e = []) := by
  have herror : cliArgs features program (wordsOf items ++ rest) = .error e :=
    (cliArgsFrom_wordsOf hitems).trans (cliArgsFrom_refused h)
  simp only [main, herror]
  split_ifs with he
  · simp [he]
  · simpa using he

/-- **The whole program.** The executor is called exactly for the spellings of lists of wishes whose
directory and manifest are there and whose manifest parses, in the mode and with the configuration
and the definitions that they ask for. The status is 0 when help was asked for, and when the
executor was called and did not fail in a mode that reports it. -/
theorem main_iff (out : Outside) (features : Features) (program : Bytes) (args : List Bytes) :
    (∀ mode config builder, .run mode config builder ∈ (main out features program args).calls ↔
      ∃ items, Spelled features items ∧ args = wordsOf items ∧
        Reaches out items mode config builder) ∧
    ((main out features program args).status = 0 ↔
      (∃ items arg rest, Spelled features items ∧ args = wordsOf items ++ arg :: rest ∧
        arg ∈ helpWords) ∨
      ∃ items mode config builder, Spelled features items ∧ args = wordsOf items ∧
        Reaches out items mode config builder ∧
        (mode = .clean ∨ mode = .execute → out.run mode config builder = .ok ())) := by
  -- the loop over the arguments is inverted by `wordsOf`, so both clauses reduce to a list of
  -- wishes
  have hcalled : ∀ {items}, Spelled features items → ∀ mode config builder,
      .run mode config builder ∈ (main out features program (wordsOf items)).calls ↔
        Reaches out items mode config builder := by
    intro items hitems mode config builder
    rw [mem_calls_main (cliArgs_wordsOf hitems), reaches_iff]
  have hstatus : ∀ {items}, Spelled features items →
      ((main out features program (wordsOf items)).status = 0 ↔ ∃ mode config builder,
        Reaches out items mode config builder ∧
          (mode = .clean ∨ mode = .execute → out.run mode config builder = .ok ())) := by
    intro items hitems
    rw [status_main (cliArgs_wordsOf hitems)]
    simp only [← reaches_iff, and_assoc, exists_and_left]
  refine ⟨fun mode config builder => ⟨fun hmem => ?_, ?_⟩, ⟨fun hzero => ?_, ?_⟩⟩
  · obtain ⟨items, rest, hitems, rfl, rfl | ⟨e, hrefused⟩⟩ := exists_items features program args
    · rw [List.append_nil] at hmem ⊢
      exact ⟨items, hitems, rfl, (hcalled hitems _ _ _).mp hmem⟩
    · rw [(main_of_refused hitems hrefused).1] at hmem
      cases hmem
  · rintro ⟨items, hitems, rfl, hreaches⟩
    exact (hcalled hitems _ _ _).mpr hreaches
  · obtain ⟨items, rest, hitems, rfl, rfl | ⟨e, hrefused⟩⟩ := exists_items features program args
    · rw [List.append_nil] at hzero ⊢
      obtain ⟨mode, config, builder, hreaches, hrun⟩ := (hstatus hitems).mp hzero
      exact .inr ⟨items, mode, config, builder, hitems, rfl, hreaches, hrun⟩
    · obtain rfl := (main_of_refused hitems hrefused).2.mp hzero
      obtain ⟨arg, rest', harg, rfl⟩ := hrefused.eq_help
      exact .inl ⟨items, arg, rest', hitems, rfl, harg⟩
  · rintro (⟨items, arg, rest, hitems, rfl, harg⟩ |
      ⟨items, mode, config, builder, hitems, rfl, hreaches, hrun⟩)
    · exact (main_of_refused hitems (.help rest harg)).2.mpr rfl
    · exact (hstatus hitems).mpr ⟨mode, config, builder, hreaches, hrun⟩

end Main

end Cob.Cli
