import Cob.Binary

/-!
# The text parser

`parseDEF`, `parseStep` and the line loop of `parse`. A line is first read into the entry it adds,
which does not depend on the builder; `parseText` then adds the entries. `read` answers with the
contents of the dependency files that exist.

The module introduces:

* `Entry` — what a line adds to the builder;
* `parseText` — the text path of `parse`;
* `parseText_eq_ok` — the definitions and steps of the result come from the text alone.
-/

namespace Cob

/-- What a line adds: a definition, or a step without dependency-file inputs. -/
inductive Entry where
  | definition (key value : Bytes)
  | step (st : BuildStep)
  deriving DecidableEq

/-- The error of a malformed line. -/
def malformed (what : String) (line : Bytes) : Except Bytes Entry :=
  .error (ascii "Malformed " ++ ascii what ++ ascii ": " ++ line)

/-- `parseDEF`. -/
def parseDEF (line : Bytes) : Except Bytes Entry :=
  match Bytes.cut (chr '|') line with
  | none => malformed "def line (missing first pipe)" line
  | some (_, rest) =>
    match Bytes.cut (chr '|') rest with
    | none => malformed "def line (missing second pipe)" line
    | some (key, value) => .ok (.definition key value)

/-- The step of a line whose extra flags are known. -/
def stepEntry (tool inputs output extraFlags : Bytes) : Entry :=
  .step { tool, inputs, output, extraFlags }

/-- The part of a step line after its third pipe: `extra`, blanks, `=`, blanks, the flags. -/
def parseExtra (line tool inputs output extraPart : Bytes) : Except Bytes Entry :=
  if !extraPart.startsWith (ascii "extra") then
    malformed "step extra part (must start with 'extra')" line
  else
    let afterExtra := extraPart.drop 5
    if !(afterExtra.head?.any Bytes.isBlank) then
      malformed "step extra part (missing spacing before '=')" line
    else
      match Bytes.cut (chr '=') afterExtra with
      | none => malformed "step extra part (missing '=')" line
      | some (beforeEq, afterEq) =>
        if !beforeEq.all Bytes.isBlank then
          malformed "step extra part (invalid character before '=')" line
        else if !(afterEq.head?.any Bytes.isBlank) then
          malformed "step extra part (missing spacing after '=')" line
        else .ok (stepEntry tool inputs output (afterEq.dropWhile Bytes.isBlank))

/-- `parseStep`. -/
def parseStep (line : Bytes) : Except Bytes Entry :=
  match Bytes.cut (chr '|') line with
  | none => malformed "step line (missing first pipe)" line
  | some (tool, rest) =>
    match Bytes.cut (chr '|') rest with
    | none => malformed "step line (missing second pipe)" line
    | some (inputs, rest) =>
      match Bytes.cut (chr '|') rest with
      | none => .ok (stepEntry tool inputs rest [])
      | some (output, extraPart) => parseExtra line tool inputs output extraPart

/-- The line without the carriage return at its end. -/
def dropCr (line : Bytes) : Bytes :=
  if line.getLast? = some (chr '\r') then line.dropLast else line

/-- What a line of the manifest adds; empty lines and comments add nothing. -/
def parseLine (line : Bytes) : Except Bytes (Option Entry) :=
  let line := dropCr line
  if line = [] then .ok none
  else if line.startsWith (ascii "#") then .ok none
  else if line.startsWith (ascii "DEF|") then (parseDEF line).map some
  else (parseStep line).map some

/-- Adding what a line adds. -/
def COBBuilder.addEntry (read : Bytes → Option Bytes) (b : COBBuilder) :
    Option Entry → Except Bytes COBBuilder
  | none => .ok b
  | some (.definition key value) => .ok (b.addDefinition key value)
  | some (.step st) => b.addStep read st

/-- Adding what several lines add, up to the first line that fails. -/
def COBBuilder.addLines (read : Bytes → Option Bytes) (b : COBBuilder) (lines : List Bytes) :
    Except Bytes COBBuilder :=
  lines.foldlM (fun b line => do b.addEntry read (← parseLine line)) b

/-- The text path of `parse`. An empty line adds nothing, so it does not matter that splitting
sees one after a final line feed and the loop of the source does not. -/
def parseText (read : Bytes → Option Bytes) (content : Bytes) (b : COBBuilder) :
    Except Bytes COBBuilder :=
  b.addLines read (content.splitOn (chr '\n'))

/-! ### What the text says -/

/-- What a manifest says: its definitions and its steps, in the order of the file. -/
structure Manifest where
  definitions : Definitions
  steps : List BuildStep
  deriving DecidableEq

/-- The manifest with one more entry; the first definition of a key counts. -/
def Manifest.add (m : Manifest) : Option Entry → Manifest
  | none => m
  | some (.definition key value) => { m with definitions := m.definitions.emplace key value }
  | some (.step st) => { m with steps := m.steps ++ [st] }

/-- The manifest that a list of lines says. -/
def Manifest.ofLines (m : Manifest) (lines : List Bytes) : Except Bytes Manifest :=
  lines.foldlM (fun m line => do return m.add (← parseLine line)) m

/-- The manifest that a text says, its dependency files aside. -/
def manifestOf (content : Bytes) : Except Bytes Manifest :=
  Manifest.ofLines ⟨.empty, []⟩ (content.splitOn (chr '\n'))

section ParseText

variable {read read' : Bytes → Option Bytes} {content : Bytes} {b b' : COBBuilder} {m m' : Manifest}

/-- The steps of a manifest consist of their columns. -/
def Manifest.Raw (m : Manifest) : Prop := ∀ st ∈ m.steps, st.Raw

theorem parseExtra_step {line tool inputs output extraPart : Bytes} {e : Entry}
    (h : parseExtra line tool inputs output extraPart = .ok e) :
    ∃ extraFlags, e = stepEntry tool inputs output extraFlags := by
  simp only [parseExtra, malformed] at h
  split_ifs at h
  split at h
  · simp at h
  · split_ifs at h
    exact ⟨_, (Except.ok.inj h).symm⟩

/-- A line adds a definition, or a step as its columns give it. -/
theorem parseLine_cases {line : Bytes} {e : Entry} (h : parseLine line = .ok (some e)) :
    (∃ key value, e = .definition key value) ∨
      ∃ tool inputs output extraFlags, e = stepEntry tool inputs output extraFlags := by
  simp only [parseLine] at h
  split_ifs at h
  · simp at h
  · simp at h
  · left
    cases hdef : parseDEF (dropCr line) with
    | error _ => simp [hdef, Except.map] at h
    | ok e' =>
      obtain rfl : e' = e := by simpa [hdef, Except.map] using h
      simp only [parseDEF, malformed] at hdef
      split at hdef
      · simp at hdef
      · split at hdef
        · simp at hdef
        · exact ⟨_, _, (Except.ok.inj hdef).symm⟩
  · right
    cases hstep : parseStep (dropCr line) with
    | error _ => simp [hstep, Except.map] at h
    | ok e' =>
      obtain rfl : e' = e := by simpa [hstep, Except.map] using h
      simp only [parseStep, malformed] at hstep
      split at hstep
      · simp at hstep
      · split at hstep
        · simp at hstep
        · split at hstep
          · exact ⟨_, _, _, _, (Except.ok.inj hstep).symm⟩
          · obtain ⟨extraFlags, he⟩ := parseExtra_step hstep
            exact ⟨_, _, _, _, he⟩

theorem Manifest.Raw.add (h : m.Raw) {line : Bytes} {e : Option Entry}
    (he : parseLine line = .ok e) : (m.add e).Raw := by
  cases e with
  | none => exact h
  | some e =>
    rcases parseLine_cases he with ⟨key, value, rfl⟩ | ⟨tool, inputs, output, extraFlags, rfl⟩
    · exact h
    · intro st hst
      rcases List.mem_append.mp hst with hst | hst
      · exact h st hst
      · obtain rfl := List.mem_singleton.mp hst
        exact ⟨rfl, rfl, rfl, rfl⟩

theorem Manifest.ofLines_cons (m : Manifest) (line : Bytes) (lines : List Bytes) :
    m.ofLines (line :: lines) = (parseLine line).bind fun e => (m.add e).ofLines lines := by
  rw [ofLines, List.foldlM_cons]
  cases parseLine line <;> rfl

theorem Manifest.Raw.ofLines (h : m.Raw) {lines : List Bytes}
    (hm : m.ofLines lines = .ok m') : m'.Raw := by
  induction lines generalizing m with
  | nil =>
    obtain rfl : m = m' := Except.ok.inj hm
    exact h
  | cons line lines ih =>
    rw [Manifest.ofLines_cons] at hm
    cases he : parseLine line with
    | error _ => simp [he, Except.bind] at hm
    | ok e =>
      rw [he] at hm
      exact ih (h.add he) hm

/-- The steps that a text declares. -/
theorem raw_manifestOf (h : manifestOf content = .ok m) : m.Raw :=
  Manifest.Raw.ofLines (by simp [Manifest.Raw]) h

/-- Later lines add steps behind those there are. -/
theorem Manifest.steps_ofLines {lines : List Bytes} (hm : m.ofLines lines = .ok m') :
    ∃ rest, m'.steps = m.steps ++ rest := by
  induction lines generalizing m with
  | nil =>
    obtain rfl : m = m' := Except.ok.inj hm
    exact ⟨[], by simp⟩
  | cons line lines ih =>
    rw [Manifest.ofLines_cons] at hm
    cases he : parseLine line with
    | error _ => simp [he, Except.bind] at hm
    | ok e =>
      rw [he] at hm
      obtain ⟨rest, hrest⟩ := ih hm
      rcases e with _ | ⟨key, value⟩ | st
      · exact ⟨rest, hrest⟩
      · exact ⟨rest, hrest⟩
      · exact ⟨st :: rest, by simp [hrest, Manifest.add]⟩

/-- Adding an entry to a builder that holds what the manifest says so far. -/
theorem addEntry_eq (hdefs : b.definitions = m.definitions)
    (hgraph : BuildGraph.empty.addSteps read m.steps = .ok b.graph) (e : Option Entry) :
    b.addEntry read e = (BuildGraph.empty.addSteps read (m.add e).steps).map fun graph =>
      ⟨graph, (m.add e).definitions⟩ := by
  rcases e with _ | ⟨key, value⟩ | st
  · simp [COBBuilder.addEntry, Manifest.add, hgraph, Except.map, ← hdefs]
  · simp [COBBuilder.addEntry, Manifest.add, hgraph, Except.map, ← hdefs,
      COBBuilder.addDefinition]
  · rw [Manifest.add, BuildGraph.addSteps_append, hgraph]
    simp only [COBBuilder.addEntry, COBBuilder.addStep, Except.bind, BuildGraph.addSteps_cons]
    cases b.graph.addStep read st with
    | error _ => rfl
    | ok g => simp [Except.map, BuildGraph.addSteps, ← hdefs, pure, Except.pure]

theorem COBBuilder.addLines_cons (b : COBBuilder) (line : Bytes) (lines : List Bytes) :
    b.addLines read (line :: lines) =
      (parseLine line).bind fun e => (b.addEntry read e).bind fun b' =>
        b'.addLines read lines := by
  rw [addLines, List.foldlM_cons]
  cases parseLine line <;> rfl

/-- The line loop adds to a builder what the lines add to the manifest. -/
theorem addLines_eq_ok (lines : List Bytes) (hdefs : b.definitions = m.definitions)
    (hgraph : BuildGraph.empty.addSteps read m.steps = .ok b.graph) :
    b.addLines read lines = .ok b' ↔
      ∃ m', m.ofLines lines = .ok m' ∧ b'.definitions = m'.definitions ∧
        BuildGraph.empty.addSteps read m'.steps = .ok b'.graph := by
  -- induction over the lines; a step that is refused is refused whatever follows
  induction lines generalizing b m with
  | nil =>
    constructor
    · intro h
      obtain rfl : b = b' := Except.ok.inj h
      exact ⟨m, rfl, hdefs, hgraph⟩
    · rintro ⟨m', hm, hdefs', hgraph'⟩
      obtain rfl : m = m' := Except.ok.inj hm
      obtain ⟨g', d'⟩ := b'
      obtain rfl : b.graph = g' := Except.ok.inj (hgraph.symm.trans hgraph')
      obtain rfl : d' = b.definitions := hdefs'.trans hdefs.symm
      rfl
  | cons line lines ih =>
    rw [COBBuilder.addLines_cons]
    simp only [Manifest.ofLines_cons]
    cases parseLine line with
    | error _ => simp [Except.bind]
    | ok e =>
      simp only [Except.bind, addEntry_eq hdefs hgraph]
      cases hadd : BuildGraph.empty.addSteps read (m.add e).steps with
      | ok g => exact ih rfl hadd
      | error err =>
        simp only [Except.map, reduceCtorEq, false_iff]
        rintro ⟨m', hm, -, hgraph'⟩
        obtain ⟨rest, hrest⟩ := Manifest.steps_ofLines hm
        rw [hrest, BuildGraph.addSteps_append, hadd] at hgraph'
        simp [Except.bind] at hgraph'

/-- The text path adds the steps that the text declares, and its definitions. -/
theorem parseText_eq_ok : parseText read content .empty = .ok b ↔
    ∃ m, manifestOf content = .ok m ∧ b.definitions = m.definitions ∧
      BuildGraph.empty.addSteps read m.steps = .ok b.graph :=
  addLines_eq_ok _ rfl rfl

/-- The steps of the result are those of the text, with the prerequisites found. -/
theorem steps_parseText (h : parseText read content .empty = .ok b) :
    ∃ m, manifestOf content = .ok m ∧ b.definitions = m.definitions ∧
      b.graph.steps = m.steps.map (BuildGraph.liveStep read) := by
  obtain ⟨m, hm, hdefs, hadd⟩ := parseText_eq_ok.mp h
  exact ⟨m, hm, hdefs, (BuildGraph.steps_addSteps hadd).trans (List.nil_append _)⟩

/-- The text path builds its graph with `addStep`. -/
theorem built_parseText (h : parseText read content .empty = .ok b) : b.graph.Built := by
  obtain ⟨m, hm, -, hadd⟩ := parseText_eq_ok.mp h
  exact BuildGraph.Built.addSteps .empty m.steps
    (fun st hst => (raw_manifestOf hm st hst).depfileInputs) hadd

/-- The graph of the text path can be stored. -/
theorem storable_parseText (h : parseText read content .empty = .ok b) : Storable b.graph := by
  obtain ⟨m, hm, -, hadd⟩ := parseText_eq_ok.mp h
  exact storable_addSteps (raw_manifestOf hm) hadd

/-- A text that parses, parses with all dependency files. -/
theorem exists_parseText (h : parseText read content .empty = .ok b) :
    ∃ b', parseText read' content .empty = .ok b' := by
  obtain ⟨m, hm, -, hadd⟩ := parseText_eq_ok.mp h
  have hex : ∃ g', BuildGraph.empty.addSteps read' m.steps = .ok g' :=
    BuildGraph.exists_addSteps .empty .empty rfl
      (fun st hst => (raw_manifestOf hm st hst).depfileInputs) hadd
  obtain ⟨g', hadd'⟩ := hex
  exact ⟨⟨g', m.definitions⟩, parseText_eq_ok.mpr ⟨m, hm, rfl, hadd'⟩⟩

end ParseText

end Cob
