import Cob.Command
import Cob.Grammar

/-!
# The tools of a manifest

Four places know the tools: `toolKindFromString` for the cache, `buildCommandArgs` for the
commands, the first letter that `clean` looks at, and the grammar of the documentation. The parser
takes any tool column.

* `cleanPaths` — the files that `clean` is going to remove;
* `Handled` — the cache, the commands and `clean` can deal with every step;
* `handled_iff` — they can exactly when every step line names one of the five tools;
* `not_handled` — a manifest that parses and cannot be handled.
-/

namespace Cob

/-- The tools of the documented grammar, which are those that a cache can store. -/
def supportedTools : List Bytes := [ascii "cc", ascii "cxx", ascii "ld", ascii "ar", ascii "sld"]

/-- `step.tool[0] == 'c'`, none when the index is out of range. -/
def cleansAsCompile (st : BuildStep) : Option Bool :=
  match st.tool with
  | [] => none
  | c :: _ => some (c = chr 'c')

/-- The paths of one step that `clean` removes. -/
def cleanStep (ccOnly : Bool) (paths : List Bytes) (st : BuildStep) : Option (List Bytes) :=
  (cleansAsCompile st).map fun isCompileStep =>
    if ccOnly && !isCompileStep then paths
    else paths ++ st.output :: if isCompileStep then [st.output ++ ascii ".d"] else []

/-- The paths that `clean` removes, none when it looked at the first letter of an empty tool. -/
def cleanPaths (ccOnly : Bool) (g : BuildGraph) : Option (List Bytes) :=
  g.steps.foldlM (cleanStep ccOnly) []

section Supported

variable {st : BuildStep} {flags : ToolchainFlags} {usable : Bool}

/-- The cache knows the supported tools. -/
theorem isSome_toolKindFromString_iff {tool : Bytes} :
    (toolKindFromString tool).isSome = true ↔ tool ∈ supportedTools := by
  unfold toolKindFromString supportedTools
  split_ifs <;> simp_all

theorem archiveArgs_ne_nil (st : BuildStep) (archiver : List Bytes) :
    archiveArgs st archiver ≠ [] := by
  unfold archiveArgs
  split
  · simp
  · dsimp only
    split_ifs <;> simp

theorem linkArgs_ne_nil (st : BuildStep) (flags : ToolchainFlags) (inputs : List Bytes) :
    linkArgs st flags inputs ≠ [] := by
  simp [linkArgs]

/-- There are commands for the supported tools. -/
theorem args_ne_nil_iff : buildCommandArgs st flags usable ≠ [] ↔ st.tool ∈ supportedTools := by
  unfold buildCommandArgs supportedTools
  by_cases hcc : st.tool = ascii "cc"
  · simp [hcc, compileArgs]
  by_cases hcxx : st.tool = ascii "cxx"
  · rw [if_neg hcc, if_pos hcxx]
    simp [hcxx, compileArgs]
  by_cases hld : st.tool = ascii "ld"
  · rw [if_neg hcc, if_neg hcxx, if_pos hld]
    simp [hld, linkArgs_ne_nil]
  by_cases har : st.tool = ascii "ar"
  · rw [if_neg hcc, if_neg hcxx, if_neg hld, if_pos har]
    simp [har, archiveArgs_ne_nil]
  by_cases hsld : st.tool = ascii "sld"
  · rw [if_neg hcc, if_neg hcxx, if_neg hld, if_neg har, if_pos hsld]
    simp [hsld]
  · simp [hcc, hcxx, hld, har, hsld]

/-- On supported tools the first letter tells the compile steps. -/
theorem cleansAsCompile_of_supported (h : st.tool ∈ supportedTools) :
    cleansAsCompile st = some st.isCompile := by
  simp only [supportedTools, List.mem_cons, List.not_mem_nil, or_false] at h
  unfold cleansAsCompile BuildStep.isCompile
  rcases h with h | h | h | h | h <;> (rw [h]; decide)

/-- `clean` gets through the steps when no tool is empty. -/
theorem exists_cleanPaths {g : BuildGraph} (h : ∀ st ∈ g.steps, (cleansAsCompile st).isSome = true)
    (ccOnly : Bool) : ∃ paths, cleanPaths ccOnly g = some paths := by
  have hfold : ∀ (steps : List BuildStep) (paths : List Bytes),
      (∀ st ∈ steps, (cleansAsCompile st).isSome = true) →
        ∃ paths', steps.foldlM (cleanStep ccOnly) paths = some paths' := by
    intro steps
    induction steps with
    | nil => exact fun paths _ => ⟨paths, rfl⟩
    | cons st steps ih =>
      intro paths hall
      obtain ⟨isCompileStep, hst⟩ := Option.isSome_iff_exists.mp (hall st List.mem_cons_self)
      rw [List.foldlM_cons, cleanStep, hst]
      exact ih _ fun st' hst' => hall st' (List.mem_cons_of_mem _ hst')
  exact hfold g.steps [] h

end Supported

/-- Everything downstream of the parser can deal with the steps. -/
structure Handled (b : COBBuilder) : Prop where
  tools : ∀ st ∈ b.graph.steps, st.tool ∈ supportedTools
  /-- `emitBin` finds no unsupported tool. -/
  emits : ∃ image, emitBin b = .ok image
  /-- `buildCommandArgs` does not fall through. -/
  commands : ∀ st ∈ b.graph.steps, ∀ flags usable, buildCommandArgs st flags usable ≠ []
  /-- `clean` does not look into an empty tool. -/
  cleans : ∀ ccOnly, ∃ paths, cleanPaths ccOnly b.graph = some paths
  /-- `clean` and `buildCommandArgs` agree on the compile steps. -/
  compiles : ∀ st ∈ b.graph.steps, cleansAsCompile st = some true ↔ st.isCompile = true

/-- Supported tools are all that is needed. -/
theorem handled_of_supported {b : COBBuilder}
    (h : ∀ st ∈ b.graph.steps, st.tool ∈ supportedTools) : Handled b where
  tools := h
  emits := exists_emitBin fun st hst => isSome_toolKindFromString_iff.mpr (h st hst)
  commands st hst _ _ := args_ne_nil_iff.mpr (h st hst)
  cleans := exists_cleanPaths fun st hst => by
    rw [cleansAsCompile_of_supported (h st hst)]
    rfl
  compiles st hst := by
    rw [cleansAsCompile_of_supported (h st hst), Option.some.injEq]

/-- The tools of the builder are those of the step lines. -/
theorem map_tool_of_declares {steps steps' : List BuildStep}
    (h : List.Forall₂ Declares steps steps') :
    steps'.map BuildStep.tool = steps.map BuildStep.tool := by
  induction h with
  | nil => rfl
  | cons hst _ ih => rw [List.map_cons, List.map_cons, hst.tool, ih]

/-- The steps of a manifest that parses are handled exactly when every step line of it names one
of the five tools. -/
theorem handled_iff {read : Bytes → Option Bytes} {content : Bytes} {b : COBBuilder}
    (h : parseText read content .empty = .ok b) :
    Handled b ↔ ∀ line ∈ content.splitOn (chr '\n'), ∀ st, Line (dropCr line) (some (.step st)) →
      st.tool ∈ supportedTools := by
  obtain ⟨entries, hentries⟩ := exists_lines h
  have htools : b.graph.steps.map BuildStep.tool = (stepsOf entries).map BuildStep.tool :=
    map_tool_of_declares (hentries.declares h)
  constructor
  · intro hhandled line hline st hst
    have hmem : st.tool ∈ b.graph.steps.map BuildStep.tool := by
      rw [htools]
      exact List.mem_map_of_mem (hentries.mem_stepsOf.mpr ⟨line, hline, hst⟩)
    obtain ⟨st', hst', heq⟩ := List.mem_map.mp hmem
    exact heq ▸ hhandled.tools st' hst'
  · intro hall
    refine handled_of_supported fun st hst => ?_
    have hmem : st.tool ∈ (stepsOf entries).map BuildStep.tool := by
      rw [← htools]
      exact List.mem_map_of_mem hst
    obtain ⟨st', hst', heq⟩ := List.mem_map.mp hmem
    obtain ⟨line, hline, hstep⟩ := hentries.mem_stepsOf.mp hst'
    exact heq ▸ hall line hline st' hstep

/-- A manifest with one step for each of two tools. -/
def twoTools : Bytes := ascii "cc|a.c|a.o\nar|a.o|liba.a\n"

/-- The builder of a text that parses. -/
theorem exists_of_isSome {content : Bytes}
    (h : (parseText (fun _ => none) content .empty).toOption.isSome = true) :
    ∃ b, parseText (fun _ => none) content .empty = .ok b := by
  cases hb : parseText (fun _ => none) content .empty with
  | ok b => exact ⟨b, rfl⟩
  | error e =>
    rw [hb] at h
    cases h

/-- A line is no step, or a step whose tool is supported. -/
def lineSupported (line : Bytes) : Bool :=
  match parseLine line with
  | .ok (some (.step st)) => supportedTools.contains st.tool
  | _ => true

/-- Both steps of `twoTools` are handled. -/
theorem handled_iff_twoTools :
    ∃ b, parseText (fun _ => none) twoTools .empty = .ok b ∧ Handled b := by
  obtain ⟨b, hb⟩ := exists_of_isSome (show
    (parseText (fun _ => none) twoTools .empty).toOption.isSome = true by decide +kernel)
  have hlines : (twoTools.splitOn (chr '\n')).all lineSupported = true := by decide +kernel
  refine ⟨b, hb, (handled_iff hb).mpr fun line hline st hst => ?_⟩
  have hone := List.all_eq_true.mp hlines line hline
  rw [lineSupported, parseLine_iff.mpr hst] at hone
  exact List.contains_iff_mem.mp hone

/-- `touch` is no tool, and the parser accepts it. -/
theorem not_handled : ¬ ∀ (read : Bytes → Option Bytes) (content : Bytes) (b : COBBuilder),
    parseText read content .empty = .ok b → Handled b := by
  intro hall
  obtain ⟨b, hb⟩ := exists_of_isSome (show
    (parseText (fun _ => none) (ascii "touch|a|b") .empty).toOption.isSome = true by decide +kernel)
  have htools : (parseText (fun _ => none) (ascii "touch|a|b") .empty).toOption.map
      (fun b => b.graph.steps.map BuildStep.tool) = some [ascii "touch"] := by decide +kernel
  rw [hb] at htools
  have hsteps : b.graph.steps.map BuildStep.tool = [ascii "touch"] := Option.some.inj htools
  obtain ⟨st, hst, htool⟩ : ∃ st ∈ b.graph.steps, st.tool = ascii "touch" :=
    List.mem_map.mp (hsteps ▸ List.mem_singleton.mpr rfl)
  have hsupported := (hall _ _ b hb).tools st hst
  rw [htool] at hsupported
  exact absurd hsupported (by decide +kernel)

end Cob
