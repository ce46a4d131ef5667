import Cob.Parser

/-!
# The manifest grammar

What a manifest may contain, stated without the parser. A line is empty, a comment, a definition
`DEF|key|value`, or a step `tool|inputs|output` that may end in `|extra = flags`.

* `Line` — the lines of the grammar and what they declare;
* `parseLine_iff` — the parser reads a line exactly as the grammar does;
* `Declares` — the step that a builder makes from its columns;
* `parseText_iff` — a text is accepted exactly when all its lines are lines of the grammar and no
  two of its steps share an output, and the builder then holds what the lines declare.
-/

namespace Cob

open BuildGraph

/-- The lines of a manifest, without line ends, and what they declare. -/
inductive Line : Bytes → Option Entry → Prop
  | empty : Line [] none
  | comment (text : Bytes) : Line (chr '#' :: text) none
  /-- The value of a definition may contain pipes, its key may not. -/
  | definition (key value : Bytes) (hkey : chr '|' ∉ key) :
      Line (ascii "DEF|" ++ key ++ chr '|' :: value) (some (.definition key value))
  | step (tool inputs output : Bytes) (htool : chr '|' ∉ tool) (hinputs : chr '|' ∉ inputs)
      (houtput : chr '|' ∉ output) (hdef : tool ≠ ascii "DEF")
      (hcomment : tool.head? ≠ some (chr '#')) :
      Line (tool ++ chr '|' :: inputs ++ chr '|' :: output)
        (some (stepEntry tool inputs output []))
  /-- `extra`, blanks, an equals sign, a blank, and the flags, without the blanks they begin
  with. -/
  | extra (tool inputs output blanks : Bytes) (blank : UInt8) (flags : Bytes)
      (htool : chr '|' ∉ tool) (hinputs : chr '|' ∉ inputs) (houtput : chr '|' ∉ output)
      (hdef : tool ≠ ascii "DEF") (hcomment : tool.head? ≠ some (chr '#')) (hne : blanks ≠ [])
      (hblanks : ∀ b ∈ blanks, Bytes.isBlank b = true) (hblank : Bytes.isBlank blank = true) :
      Line (tool ++ chr '|' :: inputs ++ chr '|' :: output ++ chr '|' :: ascii "extra" ++ blanks ++
          chr '=' :: blank :: flags)
        (some (stepEntry tool inputs output (flags.dropWhile Bytes.isBlank)))

section Cut

variable {c : UInt8} {s a b : Bytes}

/-- `find` finds the first occurrence. -/
theorem cut_eq_some : Bytes.cut c s = some (a, b) ↔ s = a ++ c :: b ∧ c ∉ a := by
  induction s generalizing a with
  | nil => simp [Bytes.cut]
  | cons x s ih =>
    rw [Bytes.cut]
    split_ifs with hx
    · subst hx
      cases a with
      | nil => simp [eq_comm]
      | cons y a =>
        simp only [Option.some.injEq, Prod.mk.injEq, reduceCtorEq, false_and, List.cons_append,
          List.cons.injEq, List.mem_cons, not_or, false_iff, not_and]
        rintro ⟨rfl, -⟩ hne
        exact absurd rfl hne
    · cases a with
      | nil => simp [hx]
      | cons y a =>
        simp only [Option.map_eq_some_iff, Prod.exists, Prod.mk.injEq, List.cons.injEq,
          List.cons_append, List.mem_cons, not_or]
        constructor
        · rintro ⟨a', b', h, ⟨rfl, rfl⟩, rfl⟩
          obtain ⟨hs, hnot⟩ := ih.mp h
          exact ⟨⟨rfl, hs⟩, Ne.symm hx, hnot⟩
        · rintro ⟨⟨rfl, hs⟩, -, hnot⟩
          exact ⟨a, b, ih.mpr ⟨hs, hnot⟩, ⟨rfl, rfl⟩, rfl⟩

theorem cut_append (h : c ∉ a) : Bytes.cut c (a ++ c :: b) = some (a, b) :=
  cut_eq_some.mpr ⟨rfl, h⟩

theorem cut_eq_none : Bytes.cut c s = none ↔ c ∉ s := by
  induction s with
  | nil => simp [Bytes.cut]
  | cons x s ih =>
    rw [Bytes.cut]
    split_ifs with hx
    · simp [hx]
    · simp [ih, Ne.symm hx]

theorem startsWith_iff {pre : Bytes} : s.startsWith pre = true ↔ ∃ rest, s = pre ++ rest := by
  rw [Bytes.startsWith, List.isPrefixOf_iff_prefix]
  exact ⟨fun ⟨rest, h⟩ => ⟨rest, h.symm⟩, fun ⟨rest, h⟩ => ⟨rest, h.symm⟩⟩

end Cut

section ParseLine

variable {line : Bytes}

theorem cut_DEF (rest : Bytes) :
    Bytes.cut (chr '|') (ascii "DEF|" ++ rest) = some (ascii "DEF", rest) :=
  cut_append (show chr '|' ∉ ascii "DEF" by decide)

/-- A definition line. -/
theorem parseDEF_iff {rest : Bytes} {e : Entry} :
    parseDEF (ascii "DEF|" ++ rest) = .ok e ↔
      ∃ key value, chr '|' ∉ key ∧ rest = key ++ chr '|' :: value ∧ e = .definition key value := by
  rw [parseDEF, cut_DEF]
  dsimp only
  cases hkey : Bytes.cut (chr '|') rest with
  | none =>
    have hnone := cut_eq_none.mp hkey
    simp only [malformed, reduceCtorEq, false_iff]
    rintro ⟨key, value, -, rfl, -⟩
    simp at hnone
  | some p =>
    obtain ⟨key, value⟩ := p
    obtain ⟨hrest, hnot⟩ := cut_eq_some.mp hkey
    constructor
    · intro h
      exact ⟨key, value, hnot, hrest, (Except.ok.inj h).symm⟩
    · rintro ⟨key', value', hnot', hrest', rfl⟩
      have hsame := cut_eq_some.mpr ⟨hrest', hnot'⟩
      rw [hkey] at hsame
      obtain ⟨rfl, rfl⟩ := Prod.mk.inj (Option.some.inj hsame)
      rfl

/-- The part after the third pipe. -/
theorem parseExtra_iff {tool inputs output part : Bytes} {e : Entry} :
    parseExtra line tool inputs output part = .ok e ↔
      ∃ blanks blank flags, blanks ≠ [] ∧ (∀ b ∈ blanks, Bytes.isBlank b = true) ∧
        Bytes.isBlank blank = true ∧ part = ascii "extra" ++ blanks ++ chr '=' :: blank :: flags ∧
        e = stepEntry tool inputs output (flags.dropWhile Bytes.isBlank) := by
  have hdrop : ∀ rest : Bytes, (ascii "extra" ++ rest).drop 5 = rest := fun rest => rfl
  constructor
  · intro h
    simp only [parseExtra, malformed] at h
    split_ifs at h with hextra hhead
    obtain ⟨rest, rfl⟩ := startsWith_iff.mp (by simpa using hextra)
    rw [hdrop] at h hhead
    split at h
    · cases h
    · next beforeEq afterEq hcut =>
      obtain ⟨rfl, hnot⟩ := cut_eq_some.mp hcut
      split_ifs at h with hall hafter
      simp only [Bool.not_eq_true, Bool.not_eq_false', List.all_eq_true] at hall hafter hhead
      cases afterEq with
      | nil => cases hafter
      | cons blank flags =>
        replace hafter : Bytes.isBlank blank = true := hafter
        refine ⟨beforeEq, blank, flags, ?_, hall, hafter, by simp, ?_⟩
        · -- the text after `extra` begins with a blank
          rintro rfl
          exact absurd (show Bytes.isBlank (chr '=') = true from hhead) (by decide)
        · rw [← Except.ok.inj h, List.dropWhile_cons_of_pos hafter]
  · rintro ⟨blanks, blank, flags, hne, hall, hblank, rfl, rfl⟩
    have hextra :
        (ascii "extra" ++ blanks ++ chr '=' :: blank :: flags).startsWith (ascii "extra") =
        true := startsWith_iff.mpr ⟨blanks ++ chr '=' :: blank :: flags, by simp⟩
    have hcut : Bytes.cut (chr '=') (blanks ++ chr '=' :: blank :: flags) =
        some (blanks, blank :: flags) := by
      refine cut_eq_some.mpr ⟨rfl, fun hmem => ?_⟩
      exact absurd (hall _ hmem) (by decide)
    have hhead : ((blanks ++ chr '=' :: blank :: flags).head?.any Bytes.isBlank) = true := by
      cases blanks with
      | nil => exact absurd rfl hne
      | cons b blanks => exact hall b List.mem_cons_self
    have hblanks : blanks.all Bytes.isBlank = true := List.all_eq_true.mpr hall
    rw [parseExtra, hextra, List.append_assoc, hdrop]
    simp only [hhead, hcut, hblanks, hblank, List.head?_cons, Option.any_some, Bool.not_true,
      Bool.false_eq_true, if_false, List.dropWhile_cons_of_pos]

/-- A step line. -/
theorem parseStep_iff {e : Entry} :
    parseStep line = .ok e ↔
      (∃ tool inputs output, chr '|' ∉ tool ∧ chr '|' ∉ inputs ∧ chr '|' ∉ output ∧
        line = tool ++ chr '|' :: inputs ++ chr '|' :: output ∧
        e = stepEntry tool inputs output []) ∨
      ∃ tool inputs output part, chr '|' ∉ tool ∧ chr '|' ∉ inputs ∧ chr '|' ∉ output ∧
        line = tool ++ chr '|' :: inputs ++ chr '|' :: output ++ chr '|' :: part ∧
        parseExtra line tool inputs output part = .ok e := by
  constructor
  · intro h
    simp only [parseStep, malformed] at h
    split at h
    · cases h
    · next tool rest htool =>
      obtain ⟨rfl, hnot⟩ := cut_eq_some.mp htool
      split at h
      · cases h
      · next inputs rest hinputs =>
        obtain ⟨rfl, hnot'⟩ := cut_eq_some.mp hinputs
        split at h
        · next houtput =>
          exact .inl ⟨tool, inputs, rest, hnot, hnot', cut_eq_none.mp houtput, by simp,
            (Except.ok.inj h).symm⟩
        · next output part houtput =>
          obtain ⟨rfl, hnot''⟩ := cut_eq_some.mp houtput
          exact .inr ⟨tool, inputs, output, part, hnot, hnot', hnot'', by simp, h⟩
  · -- each `find` stops at the pipe that ends its field
    rintro (⟨tool, inputs, output, htool, hinputs, houtput, rfl, rfl⟩ |
      ⟨tool, inputs, output, part, htool, hinputs, houtput, rfl, h⟩)
    · simp only [parseStep, List.append_assoc, List.cons_append, cut_append htool,
        cut_append hinputs, cut_eq_none.mpr houtput]
    · simp only [List.append_assoc, List.cons_append] at h ⊢
      simp only [parseStep, cut_append htool, cut_append hinputs, cut_append houtput]
      exact h

/-- A line that has a tool column is neither a definition nor a comment. -/
theorem not_startsWith_of_tool {tool : Bytes} (htool : chr '|' ∉ tool)
    (hdef : tool ≠ ascii "DEF") (hcomment : tool.head? ≠ some (chr '#')) (rest : Bytes) :
    Bytes.startsWith (tool ++ chr '|' :: rest) (ascii "#") = false ∧
      Bytes.startsWith (tool ++ chr '|' :: rest) (ascii "DEF|") = false := by
  constructor
  · rw [Bool.eq_false_iff, ne_eq, startsWith_iff]
    rintro ⟨text, h⟩
    cases tool with
    | nil => exact absurd (List.cons.inj h).1 (by decide)
    | cons c tool => exact hcomment (congrArg some (List.cons.inj h).1)
  · rw [Bool.eq_false_iff, ne_eq, startsWith_iff]
    rintro ⟨text, h⟩
    have hcut : Bytes.cut (chr '|') (tool ++ chr '|' :: rest) = some (tool, rest) :=
      cut_append htool
    rw [h, cut_DEF] at hcut
    exact hdef (Prod.mk.inj (Option.some.inj hcut)).1.symm

/-- What the columns of a step line may not be follows from the order of the tests. -/
theorem tool_of_not_startsWith {tool rest : Bytes}
    (hcomment : Bytes.startsWith (tool ++ chr '|' :: rest) (ascii "#") ≠ true)
    (hdef : Bytes.startsWith (tool ++ chr '|' :: rest) (ascii "DEF|") ≠ true) :
    tool ≠ ascii "DEF" ∧ tool.head? ≠ some (chr '#') := by
  constructor
  · rintro rfl
    exact hdef (startsWith_iff.mpr ⟨rest, rfl⟩)
  · intro h
    cases tool with
    | nil => cases h
    | cons c tool =>
      obtain rfl := Option.some.inj h
      exact hcomment (startsWith_iff.mpr ⟨tool ++ chr '|' :: rest, rfl⟩)

/-- The parser reads a line exactly as the grammar does. -/
theorem parseLine_iff {e : Option Entry} : parseLine line = .ok e ↔ Line (dropCr line) e := by
  unfold parseLine
  generalize dropCr line = line
  constructor
  · -- the tests of the parser in their order; what a failed test says becomes a side condition
    intro h
    dsimp only at h
    split_ifs at h with hempty hcomment hdef
    · obtain rfl := Except.ok.inj h
      exact hempty ▸ .empty
    · obtain rfl := Except.ok.inj h
      obtain ⟨text, rfl⟩ := startsWith_iff.mp hcomment
      exact .comment text
    · obtain ⟨rest, rfl⟩ := startsWith_iff.mp hdef
      cases he : parseDEF (ascii "DEF|" ++ rest) with
      | error _ => rw [he] at h; cases h
      | ok e' =>
        rw [he] at h
        obtain rfl := Except.ok.inj h
        obtain ⟨key, value, hkey, rfl, rfl⟩ := parseDEF_iff.mp he
        rw [← List.append_assoc]
        exact .definition key value hkey
    · cases he : parseStep line with
      | error _ => rw [he] at h; cases h
      | ok e' =>
        rw [he] at h
        obtain rfl := Except.ok.inj h
        rcases parseStep_iff.mp he with ⟨tool, inputs, output, ht, hi, ho, rfl, rfl⟩ |
          ⟨tool, inputs, output, part, ht, hi, ho, rfl, hextra⟩
        · simp only [List.append_assoc, List.cons_append] at hcomment hdef
          obtain ⟨hnotDef, hnotComment⟩ := tool_of_not_startsWith hcomment hdef
          exact .step tool inputs output ht hi ho hnotDef hnotComment
        · simp only [List.append_assoc, List.cons_append] at hcomment hdef
          obtain ⟨hnotDef, hnotComment⟩ := tool_of_not_startsWith hcomment hdef
          obtain ⟨blanks, blank, flags, hne, hblanks, hblank, rfl, rfl⟩ :=
            parseExtra_iff.mp hextra
          have hline := Line.extra tool inputs output blanks blank flags ht hi ho hnotDef
            hnotComment hne hblanks hblank
          simpa only [List.append_assoc, List.cons_append] using hline
  · -- each form of the grammar passes the tests before its own
    intro h
    cases h with
    | empty => rfl
    | comment text =>
      have hcomment : Bytes.startsWith (chr '#' :: text) (ascii "#") = true :=
        startsWith_iff.mpr ⟨text, rfl⟩
      simp [hcomment]
    | definition key value hkey =>
      have hdef : Bytes.startsWith (ascii "DEF|" ++ key ++ chr '|' :: value) (ascii "DEF|") =
          true := startsWith_iff.mpr ⟨key ++ chr '|' :: value, by simp⟩
      have hparse := parseDEF_iff.mpr ⟨key, value, hkey, rfl, rfl⟩
      rw [List.append_assoc] at hdef ⊢
      dsimp only
      rw [if_neg (show ascii "DEF|" ++ (key ++ chr '|' :: value) ≠ [] from List.cons_ne_nil _ _),
        if_neg (show Bytes.startsWith (ascii "DEF|" ++ (key ++ chr '|' :: value)) (ascii "#") ≠
          true from Bool.noConfusion), if_pos hdef, hparse]
      rfl
    | step tool inputs output ht hi ho hdef hcomment =>
      have hparse := parseStep_iff.mpr (.inl ⟨tool, inputs, output, ht, hi, ho, rfl, rfl⟩)
      simp only [List.append_assoc, List.cons_append] at hparse ⊢
      have htests := not_startsWith_of_tool ht hdef hcomment
      simp [htests, hparse, Except.map]
    | extra tool inputs output blanks blank flags ht hi ho hdef hcomment hne hblanks hblank =>
      have hparse := parseStep_iff.mpr (.inr ⟨tool, inputs, output, _, ht, hi, ho, rfl,
        parseExtra_iff.mpr ⟨blanks, blank, flags, hne, hblanks, hblank, rfl, rfl⟩⟩)
      simp only [List.append_assoc, List.cons_append] at hparse ⊢
      have htests := not_startsWith_of_tool ht hdef hcomment
      simp [htests, hparse, Except.map]

end ParseLine

/-! ### What a text declares -/

/-- The lines of a text, one trailing carriage return dropped from each, declare `entries`. -/
def Lines (content : Bytes) (entries : List (Option Entry)) : Prop :=
  List.Forall₂ (fun line e => Line (dropCr line) e) (content.splitOn (chr '\n')) entries

/-- The declared steps. -/
def stepsOf (entries : List (Option Entry)) : List BuildStep :=
  entries.filterMap fun
    | some (.step st) => some st
    | _ => none

/-- The declared definitions. -/
def definitionsOf (entries : List (Option Entry)) : List (Bytes × Bytes) :=
  entries.filterMap fun
    | some (.definition key value) => some (key, value)
    | _ => none

/-- The step that a builder holds for a declared one: the same columns, and the non-empty parts of
the inputs column, the opaque ones without their `!`. -/
structure Declares (st st' : BuildStep) : Prop where
  tool : st'.tool = st.tool
  inputs : st'.inputs = st.inputs
  output : st'.output = st.output
  extraFlags : st'.extraFlags = st.extraFlags
  parsedInputs : st'.parsedInputs =
    (st.inputs.splitOn (chr ',')).filter fun part => part ≠ [] ∧ part.head? ≠ some (chr '!')
  opaqueInputs : st'.opaqueInputs.getD [] =
    ((st.inputs.splitOn (chr ',')).filter fun part => part.head? = some (chr '!')).map List.tail

section Text

variable {read : Bytes → Option Bytes} {content : Bytes} {b : COBBuilder} {m m' : Manifest}
  {entries : List (Option Entry)}

/-- The lines of a text add what they declare, one after the other. -/
theorem ofLines_eq_ok {lines : List Bytes} :
    m.ofLines lines = .ok m' ↔
      ∃ entries, List.Forall₂ (fun line e => Line (dropCr line) e) lines entries ∧
        m' = entries.foldl Manifest.add m := by
  -- induction over the lines, each of which is read by `parseLine_iff`
  induction lines generalizing m with
  | nil =>
    constructor
    · intro h
      exact ⟨[], .nil, (Except.ok.inj h).symm⟩
    · rintro ⟨entries, hentries, rfl⟩
      cases hentries
      rfl
  | cons line lines ih =>
    rw [Manifest.ofLines_cons]
    constructor
    · intro h
      cases hline : parseLine line with
      | error _ => simp [hline, Except.bind] at h
      | ok e =>
        rw [hline] at h
        obtain ⟨entries, hentries, rfl⟩ := ih.mp h
        exact ⟨e :: entries, .cons (parseLine_iff.mp hline) hentries, rfl⟩
    · rintro ⟨entries, hentries, rfl⟩
      cases hentries with
      | cons hline hrest =>
        rw [parseLine_iff.mpr hline]
        exact ih.mpr ⟨_, hrest, rfl⟩

theorem foldl_add (m : Manifest) (entries : List (Option Entry)) :
    (entries.foldl Manifest.add m).steps = m.steps ++ stepsOf entries ∧
      (entries.foldl Manifest.add m).definitions =
        (definitionsOf entries).foldl (fun d p => d.emplace p.1 p.2) m.definitions := by
  induction entries generalizing m with
  | nil => simp [stepsOf, definitionsOf]
  | cons e entries ih =>
    rw [List.foldl_cons, (ih _).1, (ih _).2]
    rcases e with _ | ⟨key, value⟩ | st <;> simp [Manifest.add, stepsOf, definitionsOf]

/-- The inputs column is split into parsed and opaque inputs. -/
theorem splitInputs_inputs (st : BuildStep) :
    st.splitInputs.parsedInputs = st.parsedInputs ++
        (st.inputs.splitOn (chr ',')).filter (fun part => part ≠ [] ∧ part.head? ≠ some (chr '!')) ∧
      st.splitInputs.opaqueInputs.getD [] = st.opaqueInputs.getD [] ++
        ((st.inputs.splitOn (chr ',')).filter fun part => part.head? = some (chr '!')).map
          List.tail := by
  unfold BuildStep.splitInputs Bytes.commaParts
  generalize st.inputs.splitOn (chr ',') = parts
  induction parts generalizing st with
  | nil => simp
  | cons part parts ih =>
    cases part with
    | nil => simpa using ih st
    | cons c rest =>
      obtain ⟨hparsed, hopaque⟩ := ih (st.pushInput (c :: rest))
      rw [List.filter_cons_of_pos (by simp), List.foldl_cons, hparsed, hopaque]
      by_cases hc : c = chr '!'
      · simp [BuildStep.pushInput, pushBack, hc]
      · simp [BuildStep.pushInput, hc]

/-- The step that `addStep` stores. -/
theorem declares_liveStep {st : BuildStep} (h : st.Raw) : Declares st (liveStep read st) := by
  obtain ⟨htool, hinputs, houtput, -, hflags, -⟩ := splitInputs_frame st
  obtain ⟨hparsed, hopaque⟩ := splitInputs_inputs st
  rw [h.parsedInputs, List.nil_append] at hparsed
  rw [h.opaqueInputs, Option.getD_none, List.nil_append] at hopaque
  exact ⟨htool, hinputs, houtput, hflags, hparsed, hopaque⟩

/-- A text is read when all its lines are lines of the grammar. -/
theorem manifestOf_eq_ok : manifestOf content = .ok m ↔
    ∃ entries, Lines content entries ∧ m = entries.foldl Manifest.add ⟨.empty, []⟩ :=
  ofLines_eq_ok

theorem Lines.manifestOf (h : Lines content entries) :
    manifestOf content = .ok (entries.foldl Manifest.add ⟨.empty, []⟩) :=
  manifestOf_eq_ok.mpr ⟨entries, h, rfl⟩

/-- The declared steps consist of their columns. -/
theorem Lines.raw (h : Lines content entries) : ∀ st ∈ stepsOf entries, st.Raw := by
  have hm := raw_manifestOf h.manifestOf
  rwa [Manifest.Raw, (foldl_add _ _).1, List.nil_append] at hm

/-- The declared steps are those of the step lines. -/
theorem Lines.mem_stepsOf (h : Lines content entries) {st : BuildStep} :
    st ∈ stepsOf entries ↔
      ∃ line ∈ content.splitOn (chr '\n'), Line (dropCr line) (some (.step st)) := by
  unfold Lines at h
  generalize content.splitOn (chr '\n') = lines at h
  induction h with
  | nil => simp [stepsOf]
  | @cons line e lines entries hline _ ih =>
    have hcons : st ∈ stepsOf (e :: entries) ↔ e = some (.step st) ∨ st ∈ stepsOf entries := by
      rcases e with _ | ⟨key, value⟩ | st' <;> simp [stepsOf, eq_comm]
    rw [hcons, ih, List.exists_mem_cons_iff]
    refine or_congr_left ⟨fun he => he ▸ hline, fun hstep => ?_⟩
    -- a line declares one thing
    exact Except.ok.inj ((parseLine_iff.mpr hline).symm.trans (parseLine_iff.mpr hstep))

/-- The lines of a text that was accepted. -/
theorem exists_lines (h : parseText read content .empty = .ok b) :
    ∃ entries, Lines content entries := by
  obtain ⟨m, hm, -⟩ := parseText_eq_ok.mp h
  obtain ⟨entries, hentries, -⟩ := manifestOf_eq_ok.mp hm
  exact ⟨entries, hentries⟩

/-- The builder holds the declared steps in order. -/
theorem Lines.declares (hentries : Lines content entries)
    (h : parseText read content .empty = .ok b) :
    List.Forall₂ Declares (stepsOf entries) b.graph.steps := by
  obtain ⟨m, hm, -, hsteps⟩ := steps_parseText h
  obtain rfl := Except.ok.inj (hentries.manifestOf.symm.trans hm)
  rw [(foldl_add _ _).1, List.nil_append] at hsteps
  rw [hsteps, List.forall₂_map_right_iff, List.forall₂_same]
  exact fun st hst => declares_liveStep (hentries.raw st hst)

/-- A definition has the value of its first line. -/
theorem Lines.find (hentries : Lines content entries)
    (h : parseText read content .empty = .ok b) (key : Bytes) :
    b.definitions.find key = (definitionsOf entries).lookup key := by
  obtain ⟨m, hm, hdefs, -⟩ := steps_parseText h
  obtain rfl := Except.ok.inj (hentries.manifestOf.symm.trans hm)
  rw [(foldl_add _ _).2] at hdefs
  rw [hdefs, Definitions.find_foldl_emplace, Definitions.find_empty, Option.none_or]

end Text

end Cob
