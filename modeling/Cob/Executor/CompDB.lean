import Cob.Command
import Cob.Graph.Representation
import Cob.Lib.Json

/-!
# The compilation database

`emitCompDB` writes `compile_commands.json` piece by piece: a buffer that is flushed when it has
grown beyond a threshold, separators that depend on what was written before, and strings that
`escapeJSONString` escapes.

* `emitCompDB` — the bytes of the file;
* `stringRest_escaped` — a decoder of JSON strings undoes the escapes;
* `compDB` — what the database is to say: an object for each compile step, in the order of nodes;
* `decode_emitCompDB` — the file decodes to it.
-/

namespace Cob

namespace CompDB

open Json (Reads)

/-! ### Escaping -/

/-- A hexadecimal digit of `std::format`. -/
def hexDigit (n : ℕ) : UInt8 := if n < 10 then UInt8.ofNat (0x30 + n) else UInt8.ofNat (0x57 + n)

/-- `{:04x}`. -/
def hexFour (n : ℕ) : Bytes :=
  [hexDigit (n / 4096 % 16), hexDigit (n / 256 % 16), hexDigit (n / 16 % 16), hexDigit (n % 16)]

/-- The bytes that `escapeJSONString` writes for a byte. -/
def escapeByte (c : UInt8) : Bytes :=
  if c = chr '"' then ascii "\\\""
  else if c = chr '\\' then ascii "\\\\"
  else if c = 0x08 then ascii "\\b"
  else if c = 0x0c then ascii "\\f"
  else if c = chr '\n' then ascii "\\n"
  else if c = chr '\r' then ascii "\\r"
  else if c = chr '\t' then ascii "\\t"
  else if c < 0x20 then ascii "\\u" ++ hexFour c.toNat
  else [c]

/-- `escapeJSONString`. -/
def escapeJSONString (s : Bytes) : Bytes := chr '"' :: (s.flatMap escapeByte ++ [chr '"'])

/-! ### Writing -/

/-- Texts with a separator between them. -/
def separated (sep : Bytes) : List Bytes → Bytes
  | [] => []
  | s :: texts => s ++ texts.flatMap (sep ++ ·)

/-- The object of a step. -/
def entry (cwd : Bytes) (flags : ToolchainFlags) (usable : Bool) (st : BuildStep) : Bytes :=
  ascii "  \x7b\n    \"directory\": " ++ escapeJSONString cwd ++
    ascii ",\n    \"arguments\": [" ++
      separated (ascii ", ") ((buildCommandArgs st flags usable).map escapeJSONString) ++
        ascii "],\n" ++
          (match st.parsedInputs with
            | [] => []
            | input :: _ => ascii "    \"file\": " ++ escapeJSONString input ++ ascii ",\n") ++
            ascii "    \"output\": " ++ escapeJSONString st.output ++ ascii "\n  \x7d"

/-- The file, the buffer and `first` between two nodes. -/
structure Output where
  file : Bytes
  buf : Bytes
  first : Bool

/-- One node of the loop, none when its step is out of range. -/
def emitNode (threshold : ℕ) (cwd : Bytes) (flags : ToolchainFlags) (usable : Bool)
    (g : BuildGraph) (out : Output) (n : Node) : Option Output :=
  match n.stepId with
  | none => some out
  | some k =>
    match g.steps[k]? with
    | none => none
    | some st =>
      if st.tool ≠ ascii "cc" ∧ st.tool ≠ ascii "cxx" then some out
      else
        let buf := out.buf ++ (if out.first then [] else ascii ",\n") ++ entry cwd flags usable st
        if threshold < buf.length then some ⟨out.file ++ buf, [], false⟩
        else some ⟨out.file, buf, false⟩

/-- `emitCompDB`: the bytes of `compile_commands.json`. The buffer is flushed beyond `threshold`
bytes, and `usable` is what `buildCommandArgs` would be told about response files. -/
def emitCompDB (threshold : ℕ) (cwd : Bytes) (usable : Bool) (d : Definitions) (g : BuildGraph) :
    Option Bytes :=
  let flags := ToolchainFlags.ofDefinitions d
  (g.nodes.foldlM (emitNode threshold cwd flags usable g) ⟨[], ascii "[\n", true⟩).map fun out =>
    out.file ++ (out.buf ++ ascii "\n]\n")

/-! ### What it says -/

/-- The object of a step. -/
def entryValue (cwd : Bytes) (flags : ToolchainFlags) (usable : Bool) (st : BuildStep) :
    Json.Value :=
  .object ((ascii "directory", .string cwd) ::
    (ascii "arguments", .array ((buildCommandArgs st flags usable).map .string)) ::
      ((st.parsedInputs.head?.toList.map fun input => (ascii "file", .string input)) ++
        [(ascii "output", .string st.output)]))

/-- The steps of the produced ones among some nodes that compile, in the order of the nodes. -/
def compileSteps (g : BuildGraph) (nodes : List Node) : List BuildStep :=
  (nodes.filterMap fun n => n.stepId.bind (g.steps[·]?)).filter BuildStep.isCompile

/-- The database. -/
def compDB (cwd : Bytes) (usable : Bool) (d : Definitions) (g : BuildGraph) : Json.Value :=
  .array ((compileSteps g g.nodes).map (entryValue cwd (ToolchainFlags.ofDefinitions d) usable))

/-! ### Strings -/

section Strings

variable {c : UInt8} {s : Bytes}

/-- A byte is read back. -/
theorem stringRest_escapeByte (c : UInt8) (s : Bytes) :
    Json.stringRest (escapeByte c ++ s) = (Json.stringRest s).map (Prod.map (c :: ·) id) := by
  unfold escapeByte
  split_ifs with hquote hslash hb hf hn hr ht hlow
  · exact Json.stringRest_letter (by decide) (by rw [hquote]; rfl) s
  · exact Json.stringRest_letter (by decide) (by rw [hslash]; rfl) s
  · exact Json.stringRest_letter (by decide) (by rw [hb]; rfl) s
  · exact Json.stringRest_letter (by decide) (by rw [hf]; rfl) s
  · exact Json.stringRest_letter (by decide) (by rw [hn]; rfl) s
  · exact Json.stringRest_letter (by decide) (by rw [hr]; rfl) s
  · exact Json.stringRest_letter (by decide) (by rw [ht]; rfl) s
  · -- the four digits of a control character
    have hall : ∀ n < 32, Json.codeByte (hexDigit (n / 4096 % 16)) (hexDigit (n / 256 % 16))
        (hexDigit (n / 16 % 16)) (hexDigit (n % 16)) = some (UInt8.ofNat n) := by decide +kernel
    have hcode := hall c.toNat (UInt8.lt_iff_toNat_lt.mp hlow)
    rw [UInt8.ofNat_toNat] at hcode
    exact Json.stringRest_code hcode s
  · exact Json.stringRest_plain hquote hslash hlow s

/-- A string is read back. -/
theorem stringRest_escaped (s : Bytes) :
    Reads Json.stringRest (s.flatMap escapeByte ++ [chr '"']) s := by
  intro rest
  induction s with
  | nil => exact Json.stringRest_quote rest
  | cons c s ih =>
    rw [List.flatMap_cons, List.append_assoc, List.append_assoc, stringRest_escapeByte,
      ← List.append_assoc, ih]
    rfl

theorem escapeJSONString_injective : Function.Injective escapeJSONString := by
  intro s s' h
  have htail : s.flatMap escapeByte ++ [chr '"'] = s'.flatMap escapeByte ++ [chr '"'] :=
    List.tail_eq_of_cons_eq h
  have hs := stringRest_escaped s []
  rw [htail, stringRest_escaped s' []] at hs
  exact (congrArg Prod.fst (Option.some.inj hs)).symm

/-- Control characters are escaped. -/
theorem not_control_of_mem (hc : c ∈ escapeJSONString s) : ¬ c < 0x20 := by
  have hbyte : ∀ d : UInt8, ∀ c ∈ escapeByte d, ¬ c < 0x20 := by
    have hall : ∀ n < 256, (escapeByte (UInt8.ofNat n)).all (fun c => !decide (c < 0x20)) := by
      decide +kernel
    intro d c hc
    have hd := hall d.toNat d.toNat_lt
    rw [UInt8.ofNat_toNat] at hd
    simpa using List.all_eq_true.mp hd c hc
  rcases List.mem_cons.mp hc with rfl | hc
  · decide
  rcases List.mem_append.mp hc with hc | hc
  · obtain ⟨d, -, hd⟩ := List.mem_flatMap.mp hc
    exact hbyte d c hd
  · rw [List.mem_singleton.mp hc]
    decide

end Strings

/-! ### Objects -/

section Objects

variable {key text : Bytes} {depth : ℕ}

/-- An escaped string is read. -/
theorem reads_escaped (s : Bytes) :
    Reads (Json.value (depth + 1)) (escapeJSONString s) (.string s) :=
  Json.reads_string (stringRest_escaped s)

/-- A member on a line of its own. -/
def memberText (key text : Bytes) : Bytes :=
  ascii "\n    " ++ (escapeJSONString key ++ (ascii ": " ++ text))

theorem memberText_append (key text s : Bytes) :
    memberText key text ++ s = memberText key (text ++ s) := by
  simp only [memberText, List.append_assoc]

theorem reads_memberText {v : Json.Value} (h : Reads (Json.value (depth + 1)) text v) :
    Reads (Json.member (Json.value (depth + 1))) (memberText key text) (key, v) := by
  have hblank : ∀ c ∈ ascii " ", Json.isBlank c = true := List.all_eq_true.mp rfl
  have hmember := Json.reads_member (stringRest_escaped key) (h.value_blanks hblank)
  exact Reads.member_blanks (List.all_eq_true.mp rfl) hmember

/-- Escaped strings between brackets, with commas and spaces between them. -/
theorem reads_separated (l : List Bytes) :
    Reads (Json.value (depth + 2))
      (chr '[' :: (separated (ascii ", ") (l.map escapeJSONString) ++ ascii "]"))
      (.array (l.map .string)) := by
  apply Json.reads_array
  cases l with
  | nil => exact Json.reads_delimited_nil [] nofun (by decide)
  | cons s l =>
    have hblank : ∀ c ∈ ascii " ", Json.isBlank c = true := List.all_eq_true.mp rfl
    have hreads : ∀ p ∈ (escapeJSONString s, Json.Value.string s) ::
        l.map fun t => (ascii " " ++ escapeJSONString t, Json.Value.string t),
          Reads (Json.value (depth + 1)) p.1 p.2 := by
      intro p hp
      rcases List.mem_cons.mp hp with rfl | hp
      · exact reads_escaped s
      · obtain ⟨t, -, rfl⟩ := List.mem_map.mp hp
        exact (reads_escaped t).value_blanks hblank
    have hclose : (0x5d : UInt8) ≠ Json.comma ∧ Json.isBlank 0x5d = false := by decide
    have h := Json.reads_delimited [] hreads nofun hclose
      (fun rest => ⟨chr '"', _, Json.skipBlanks_cons (by decide) _, by decide⟩)
    have hvalues : Json.Value.string s :: (l.map fun t =>
        (ascii " " ++ escapeJSONString t, Json.Value.string t)).map Prod.snd =
          (s :: l).map .string := by
      rw [List.map_map]
      rfl
    rw [hvalues] at h
    have htext : separated (ascii ", ") ((s :: l).map escapeJSONString) ++ ascii "]" =
        escapeJSONString s ++ (Json.joined (l.map fun t =>
          (ascii " " ++ escapeJSONString t, Json.Value.string t)) ++ ([] ++ [0x5d])) := by
      rw [List.map_cons, separated, List.append_assoc, Json.joined, List.flatMap_map,
        List.flatMap_map]
      rfl
    rwa [htext]

/-- The members of an object. -/
def members (flags : ToolchainFlags) (usable : Bool) (st : BuildStep) :
    List (Bytes × (Bytes × Json.Value)) :=
  let args := buildCommandArgs st flags usable
  (memberText (ascii "arguments")
      (chr '[' :: (separated (ascii ", ") (args.map escapeJSONString) ++ ascii "]")),
    (ascii "arguments", .array (args.map .string))) ::
    ((st.parsedInputs.head?.toList.map fun input =>
      (memberText (ascii "file") (escapeJSONString input), (ascii "file", .string input))) ++
      [(memberText (ascii "output") (escapeJSONString st.output),
        (ascii "output", .string st.output))])

/-- An object, written as members between brackets. -/
theorem entry_eq (cwd : Bytes) (flags : ToolchainFlags) (usable : Bool) (st : BuildStep) :
    entry cwd flags usable st =
      ascii "  " ++ (chr '\x7b' :: (memberText (ascii "directory") (escapeJSONString cwd) ++
        (Json.joined (members flags usable st) ++ (ascii "\n  " ++ [chr '\x7d'])))) := by
  -- the commas and line breaks between members belong to the next member here
  have hfirst : ∀ t, ascii "  \x7b\n    \"directory\": " ++ t =
      ascii "  " ++ chr '\x7b' :: memberText (ascii "directory") t := fun _ => rfl
  have hargs : ∀ t, ascii ",\n    \"arguments\": [" ++ t =
      Json.comma :: memberText (ascii "arguments") (chr '[' :: t) := fun _ => rfl
  have hbracket : ∀ t, ascii "],\n" ++ t = ascii "]" ++ (ascii ",\n" ++ t) := fun _ => rfl
  have hfile : ∀ t, ascii ",\n" ++ (ascii "    \"file\": " ++ t) =
      Json.comma :: memberText (ascii "file") t := fun _ => rfl
  have houtput : ∀ t, ascii ",\n" ++ (ascii "    \"output\": " ++ t) =
      Json.comma :: memberText (ascii "output") t := fun _ => rfl
  have hlast : ascii "\n  \x7d" = ascii "\n  " ++ [chr '\x7d'] := rfl
  unfold entry members
  cases st.parsedInputs with
  | nil =>
    simp only [List.append_assoc, List.nil_append, hfirst, hargs, hbracket, houtput, hlast,
      List.head?_nil, Option.toList_none, List.map_nil, Json.joined, List.flatMap_cons,
      List.flatMap_nil, List.append_nil, List.cons_append, memberText_append]
  | cons input inputs =>
    simp only [List.append_assoc, hfirst, hargs, hbracket, hfile, houtput, hlast,
      List.head?_cons, Option.toList_some, List.map_cons, List.map_nil, Json.joined,
      List.flatMap_cons, List.flatMap_nil, List.append_nil, List.nil_append, List.cons_append,
      memberText_append]

/-- The object of a step is read. -/
theorem reads_entry (cwd : Bytes) (flags : ToolchainFlags) (usable : Bool) (st : BuildStep) :
    Reads (Json.value (depth + 3)) (entry cwd flags usable st)
      (entryValue cwd flags usable st) := by
  have hreads : ∀ p ∈ (memberText (ascii "directory") (escapeJSONString cwd),
      (ascii "directory", Json.Value.string cwd)) :: members flags usable st,
        Reads (Json.member (Json.value (depth + 2))) p.1 p.2 := by
    intro p hp
    simp only [members, List.mem_cons, List.mem_append, List.mem_map, Option.mem_toList,
      List.not_mem_nil, or_false] at hp
    rcases hp with rfl | rfl | ⟨input, -, rfl⟩ | rfl
    · exact reads_memberText (reads_escaped cwd)
    · exact reads_memberText (reads_separated _)
    · exact reads_memberText (reads_escaped input)
    · exact reads_memberText (reads_escaped st.output)
  have hblank : ∀ c ∈ ascii "\n  ", Json.isBlank c = true := List.all_eq_true.mp rfl
  have hskip : ∀ s, ∃ c rest, Json.skipBlanks
      (memberText (ascii "directory") (escapeJSONString cwd) ++ s) = c :: rest ∧ c ≠ 0x7d := by
    intro s
    exact ⟨chr '"', _, rfl, by decide⟩
  have hclose : (0x7d : UInt8) ≠ Json.comma ∧ Json.isBlank 0x7d = false := by decide
  have h := Json.reads_object (Json.reads_delimited _ hreads hblank hclose hskip)
  have hvalue : (ascii "directory", Json.Value.string cwd) ::
      (members flags usable st).map Prod.snd =
        (ascii "directory", .string cwd) :: (ascii "arguments",
          .array ((buildCommandArgs st flags usable).map .string)) ::
            ((st.parsedInputs.head?.toList.map fun input => (ascii "file", .string input)) ++
              [(ascii "output", .string st.output)]) := by
    simp only [members, List.map_cons, List.map_append, List.map_map, List.map_nil]
    rfl
  rw [hvalue] at h
  rw [entry_eq]
  exact h.value_blanks (List.all_eq_true.mp rfl)

end Objects

/-! ### The loop -/

section Loop

variable {threshold : ℕ} {cwd : Bytes} {flags : ToolchainFlags} {usable : Bool} {g : BuildGraph}
  {out : Output} {done : List BuildStep}

theorem separated_append (sep : Bytes) (texts : List Bytes) (s : Bytes) :
    separated sep (texts ++ [s]) =
      separated sep texts ++ ((if texts.isEmpty then [] else sep) ++ s) := by
  cases texts with
  | nil => simp [separated]
  | cons t texts => simp [separated]

/-- What the file and the buffer say together after the objects of `done`, wherever the buffer was
flushed. -/
structure Written (cwd : Bytes) (flags : ToolchainFlags) (usable : Bool) (done : List BuildStep)
    (out : Output) : Prop where
  content : out.file ++ out.buf =
    ascii "[\n" ++ separated (ascii ",\n") (done.map (entry cwd flags usable))
  first : out.first = done.isEmpty

/-- A node adds its object, or nothing. -/
theorem Written.emitNode (h : Written cwd flags usable done out) (threshold : ℕ) {n : Node}
    (hn : ∀ k, n.stepId = some k → k < g.steps.length) :
    ∃ out', emitNode threshold cwd flags usable g out n = some out' ∧
      Written cwd flags usable (done ++ compileSteps g [n]) out' := by
  unfold CompDB.emitNode
  cases hid : n.stepId with
  | none =>
    have hnone : compileSteps g [n] = [] := by simp [compileSteps, hid]
    rw [hnone, List.append_nil]
    exact ⟨out, rfl, h⟩
  | some k =>
    obtain ⟨st, hst⟩ : ∃ st, g.steps[k]? = some st := ⟨_, List.getElem?_eq_getElem (hn k hid)⟩
    dsimp only
    rw [hst]
    dsimp only
    by_cases hskip : st.tool ≠ ascii "cc" ∧ st.tool ≠ ascii "cxx"
    · have hnone : compileSteps g [n] = [] := by
        simp [compileSteps, hid, hst, BuildStep.isCompile, hskip.1, hskip.2]
      rw [if_pos hskip, hnone, List.append_nil]
      exact ⟨out, rfl, h⟩
    · have hone : compileSteps g [n] = [st] := by
        have hcompile : st.isCompile = true := by
          rw [BuildStep.isCompile, decide_eq_true_eq]
          tauto
        simp [compileSteps, hid, hst, hcompile]
      rw [if_neg hskip, hone]
      have hcontent : out.file ++ (out.buf ++ (if out.first then [] else ascii ",\n") ++
          entry cwd flags usable st) = ascii "[\n" ++
            separated (ascii ",\n") ((done ++ [st]).map (entry cwd flags usable)) := by
        rw [List.map_append, List.map_singleton, separated_append, List.isEmpty_map, ← h.first,
          ← List.append_assoc (ascii "[\n"), ← h.content]
        simp only [List.append_assoc]
      have hfirst : false = (done ++ [st]).isEmpty := by simp
      generalize out.buf ++ (if out.first then [] else ascii ",\n") ++ entry cwd flags usable st =
        buf at hcontent ⊢
      -- the threshold only decides what is still in the buffer
      split_ifs
      · exact ⟨_, rfl, by rwa [List.append_nil], hfirst⟩
      · exact ⟨_, rfl, hcontent, hfirst⟩

/-- All nodes. -/
theorem Written.foldlM (h : Written cwd flags usable done out) (threshold : ℕ) {nodes : List Node}
    (hnodes : ∀ n ∈ nodes, ∀ k, n.stepId = some k → k < g.steps.length) :
    ∃ out', nodes.foldlM (CompDB.emitNode threshold cwd flags usable g) out = some out' ∧
      Written cwd flags usable (done ++ compileSteps g nodes) out' := by
  induction nodes generalizing done out with
  | nil => exact ⟨out, rfl, by simpa [compileSteps] using h⟩
  | cons n nodes ih =>
    obtain ⟨out₁, hout₁, h₁⟩ := h.emitNode threshold (hnodes n List.mem_cons_self)
    obtain ⟨out₂, hout₂, h₂⟩ := ih h₁ fun m hm => hnodes m (List.mem_cons_of_mem _ hm)
    have hsplit : compileSteps g (n :: nodes) =
        compileSteps g [n] ++ compileSteps g nodes := by
      simp only [compileSteps, ← List.filter_append, ← List.filterMap_append,
        List.singleton_append]
    refine ⟨out₂, ?_, ?_⟩
    · rw [List.foldlM_cons, hout₁]
      exact hout₂
    · rwa [hsplit, ← List.append_assoc]

/-- The file, whatever was flushed when. -/
theorem emitCompDB_eq (threshold : ℕ) (cwd : Bytes) (usable : Bool) (d : Definitions)
    (hg : ∀ n ∈ g.nodes, ∀ k, n.stepId = some k → k < g.steps.length) :
    emitCompDB threshold cwd usable d g = some (ascii "[\n" ++ (separated (ascii ",\n")
      ((compileSteps g g.nodes).map (entry cwd (ToolchainFlags.ofDefinitions d) usable)) ++
        ascii "\n]\n")) := by
  have hstart : Written cwd (ToolchainFlags.ofDefinitions d) usable [] ⟨[], ascii "[\n", true⟩ :=
    ⟨rfl, rfl⟩
  obtain ⟨out, hout, hwritten⟩ := hstart.foldlM threshold hg
  rw [emitCompDB, hout, Option.map_some, ← List.append_assoc, hwritten.content, List.nil_append,
    List.append_assoc]

/-- The array of the objects is read. -/
theorem reads_entries {depth : ℕ} (l : List BuildStep) :
    Reads (Json.value (depth + 4))
      (ascii "[\n" ++ (separated (ascii ",\n") (l.map (entry cwd flags usable)) ++ ascii "\n]"))
      (.array (l.map (entryValue cwd flags usable))) := by
  have hblank : ∀ c ∈ ascii "\n", Json.isBlank c = true := List.all_eq_true.mp rfl
  have hbracket : ∀ t, ascii "[\n" ++ t = chr '[' :: (ascii "\n" ++ t) := fun _ => rfl
  rw [hbracket]
  apply Json.reads_array
  cases l with
  | nil => exact Json.reads_delimited_nil (ascii "\n\n") (List.all_eq_true.mp rfl) (by decide)
  | cons st l =>
    have hentry : ∀ st, Reads (Json.value (depth + 3)) (ascii "\n" ++ entry cwd flags usable st)
        (entryValue cwd flags usable st) :=
      fun st => (reads_entry cwd flags usable st).value_blanks hblank
    -- each object is read behind its line break, the first one like the others
    have hreads : ∀ p ∈ (ascii "\n" ++ entry cwd flags usable st, entryValue cwd flags usable st) ::
        l.map (fun t => (ascii "\n" ++ entry cwd flags usable t, entryValue cwd flags usable t)),
          Reads (Json.value (depth + 3)) p.1 p.2 := by
      intro p hp
      rcases List.mem_cons.mp hp with rfl | hp
      · exact hentry st
      · obtain ⟨t, -, rfl⟩ := List.mem_map.mp hp
        exact hentry t
    have hskip : ∀ s, ∃ c rest, Json.skipBlanks
        (ascii "\n" ++ entry cwd flags usable st ++ s) = c :: rest ∧ c ≠ 0x5d := by
      intro s
      rw [entry_eq]
      exact ⟨chr '\x7b', _, rfl, by decide⟩
    have hclose : (0x5d : UInt8) ≠ Json.comma ∧ Json.isBlank 0x5d = false := by decide
    have h := Json.reads_delimited _ hreads hblank hclose hskip
    -- the file, split into its first object and the others with their commas
    have htext : ascii "\n" ++ (separated (ascii ",\n")
        ((st :: l).map (entry cwd flags usable)) ++ ascii "\n]") =
          ascii "\n" ++ entry cwd flags usable st ++ (Json.joined (l.map fun t =>
            (ascii "\n" ++ entry cwd flags usable t, entryValue cwd flags usable t)) ++
              (ascii "\n" ++ [0x5d])) := by
      rw [List.map_cons, separated, Json.joined, List.flatMap_map, List.flatMap_map]
      simp only [List.append_assoc]
      rfl
    rw [htext]
    rw [List.map_map] at h
    exact h

/-- The file decodes to the database, wherever the buffer was flushed. -/
theorem decode_emitCompDB (threshold : ℕ) (cwd : Bytes) (usable : Bool) (d : Definitions)
    (hg : ∀ n ∈ g.nodes, ∀ k, n.stepId = some k → k < g.steps.length) :
    ∃ text, emitCompDB threshold cwd usable d g = some text ∧
      Json.decode text = some (compDB cwd usable d g) := by
  refine ⟨_, emitCompDB_eq threshold cwd usable d hg, ?_⟩
  set entries := separated (ascii ",\n")
    ((compileSteps g g.nodes).map (entry cwd (ToolchainFlags.ofDefinitions d) usable)) with hentries
  have hbreak : ascii "[\n" ++ (entries ++ ascii "\n]\n") =
      ascii "[\n" ++ (entries ++ ascii "\n]") ++ ascii "\n" := by
    simp only [List.append_assoc]
    rfl
  rw [hbreak]
  refine Json.decode_of_reads ?_ (List.all_eq_true.mp rfl)
  -- brackets are nested three deep
  obtain ⟨depth, hdepth⟩ : ∃ depth,
      (ascii "[\n" ++ (entries ++ ascii "\n]") ++ ascii "\n").length = depth + 4 := by
    refine Nat.exists_eq_add_of_le' ?_
    have hlen : (ascii "[\n").length = 2 ∧ (ascii "\n]").length = 2 := ⟨rfl, rfl⟩
    simp only [List.length_append, hlen.1, hlen.2]
    omega
  rw [hdepth, hentries]
  exact reads_entries _

end Loop

/-- For a graph made by any calls of `addStep`, any definitions and any directory: the file decodes
to an array with one object for each produced node that compiles, in the order of the nodes. The
escapes are injective and leave no control character. -/
theorem compDB_decodes (threshold : ℕ) (cwd : Bytes) (usable : Bool) (d : Definitions)
    (calls : List BuildGraph.Call) :
    (∃ text, emitCompDB threshold cwd usable d (BuildGraph.runCalls calls).1 = some text ∧
      Json.decode text = some (compDB cwd usable d (BuildGraph.runCalls calls).1)) ∧
      Function.Injective escapeJSONString ∧ ∀ s, ∀ c ∈ escapeJSONString s, ¬ c < 0x20 := by
  refine ⟨?_, escapeJSONString_injective, fun s c hc => not_control_of_mem hc⟩
  apply decode_emitCompDB
  intro n hn k hk
  obtain ⟨v, hv⟩ := List.mem_iff_getElem?.mp hn
  have hid : (BuildGraph.runCalls calls).1.stepIdOf v = some k := by
    rw [BuildGraph.stepIdOf, hv]
    exact hk
  obtain ⟨st, hst, -⟩ := (BuildGraph.represents_runCalls calls).step_of_node v k hid
  exact (List.getElem?_eq_some_iff.mp hst).1

end CompDB

end Cob
