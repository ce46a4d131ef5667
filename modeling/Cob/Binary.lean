import Cob.Builder
import Cob.Graph.Reread

/-!
# The binary cache

`emitBin` and `parseBin` at the level of records: what `.catalyst.bin` stores of a builder, its
strings in place of references to the pool. A step is stored with its raw inputs column, which
`parseBin` splits again, and with a tool kind, so `emitBin` fails on a tool it does not know.

The module introduces:

* `CacheImage` — the records of the cache;
* `Storable` — what the representation of a graph must satisfy to survive the cache;
* `parseBin_emitBin` — a storable builder is read back as it was.
-/

namespace Cob

/-- `ToolKind`. -/
inductive ToolKind where
  | ccCompile
  | cxxCompile
  | link
  | archive
  | sharedLink
  deriving DecidableEq

/-- `toolKindFromString`, none for `INVALID`. -/
def toolKindFromString (tool : Bytes) : Option ToolKind :=
  if tool = ascii "cc" then some .ccCompile
  else if tool = ascii "cxx" then some .cxxCompile
  else if tool = ascii "ld" then some .link
  else if tool = ascii "ar" then some .archive
  else if tool = ascii "sld" then some .sharedLink
  else none

/-- `stringFromToolKind`. -/
def stringFromToolKind : ToolKind → Bytes
  | .ccCompile => ascii "cc"
  | .cxxCompile => ascii "cxx"
  | .link => ascii "ld"
  | .archive => ascii "ar"
  | .sharedLink => ascii "sld"

theorem stringFromToolKind_of_eq {tool : Bytes} {kind : ToolKind}
    (h : toolKindFromString tool = some kind) : stringFromToolKind kind = tool := by
  unfold toolKindFromString at h
  split_ifs at h <;> (obtain rfl := Option.some.inj h; simp_all [stringFromToolKind])

/-- `BinStepHeader` with its dependency-file inputs. -/
structure CachedStep where
  inputs : Bytes
  output : Bytes
  extraFlags : Bytes
  commandHash : UInt64
  depfileInputs : Option (List Bytes)
  tool : ToolKind
  deriving DecidableEq

/-- The records of `.catalyst.bin`. -/
structure CacheImage where
  definitions : List (Bytes × Bytes)
  nodes : List Node
  steps : List CachedStep
  deriving DecidableEq

/-- The record of a step. -/
def emitStep (st : BuildStep) : Except Bytes CachedStep :=
  match toolKindFromString st.tool with
  | none => .error (ascii "Cannot emit .catalyst.bin: unsupported tool '" ++ st.tool ++ ascii "'")
  | some tool =>
    .ok {
      inputs := st.inputs
      output := st.output
      extraFlags := st.extraFlags
      commandHash := st.commandHash
      depfileInputs := st.depfileInputs
      tool := tool }

/-- The records that `emitBin` writes. -/
def emitBin (b : COBBuilder) : Except Bytes CacheImage :=
  (b.graph.steps.mapM emitStep).map fun steps =>
    ⟨b.definitions.entries, b.graph.nodes, steps⟩

/-- The step of a record; its inputs column is split as `addStep` splits it. -/
def parseBinStep (st : CachedStep) : BuildStep :=
  BuildStep.splitInputs {
    tool := stringFromToolKind st.tool
    inputs := st.inputs
    output := st.output
    depfileInputs := st.depfileInputs
    extraFlags := st.extraFlags
    commandHash := st.commandHash }

/-- `index.emplace`, which replaces the value of a path that is there: lookups find the first entry
of a path, which is the newest. -/
def emplaceNode (index : List (Bytes × ℕ)) (node : Bytes × ℕ) : List (Bytes × ℕ) := node :: index

/-- The index that `parseBin` builds over the paths of the nodes. -/
def indexOfPaths (paths : List Bytes) : List (Bytes × ℕ) := paths.zipIdx.foldl emplaceNode []

/-- What `parseBin` makes of valid records: the definitions are added to the builder, the graph is
replaced. -/
def parseBin (image : CacheImage) (b : COBBuilder) : COBBuilder where
  graph := ⟨image.nodes, image.steps.map parseBinStep, indexOfPaths (image.nodes.map Node.path)⟩
  definitions := image.definitions.foldl (fun d e => d.emplace e.1 e.2) b.definitions

/-! ### Reading back what was written -/

section RoundTrip

namespace Definitions

/-- A key behind all others is inserted at the end. -/
theorem upsert_append (merge : Bytes → Bytes → Bytes) {key value : Bytes}
    {l : List (Bytes × Bytes)} (h : ∀ e ∈ l, e.1 < key) :
    upsert merge key value l = l ++ [(key, value)] := by
  induction l with
  | nil => rfl
  | cons e l ih =>
    have he := h e List.mem_cons_self
    rw [upsert, if_neg (not_lt.mpr he.le), if_neg he.ne', ih fun e' he' =>
      h e' (List.mem_cons_of_mem _ he')]
    rfl

/-- Adding sorted entries behind those there are. -/
theorem entries_foldl_emplace {l : List (Bytes × Bytes)} {d : Definitions}
    (h : (d.entries ++ l).Pairwise fun a b => a.1 < b.1) :
    (l.foldl (fun d e => d.emplace e.1 e.2) d).entries = d.entries ++ l := by
  induction l generalizing d with
  | nil => simp
  | cons e l ih =>
    have hlast : ∀ e' ∈ d.entries, e'.1 < e.1 := fun e' he' =>
      (List.pairwise_append.mp h).2.2 e' he' e List.mem_cons_self
    have hentries : (d.emplace e.1 e.2).entries = d.entries ++ [e] := upsert_append _ hlast
    rw [List.foldl_cons, ih (by simpa [hentries] using h), hentries, List.append_assoc]
    rfl

/-- The definitions are rebuilt from their entries. -/
theorem foldl_emplace_entries (d : Definitions) :
    d.entries.foldl (fun d e => d.emplace e.1 e.2) empty = d := by
  have h : (empty.entries ++ d.entries).Pairwise fun a b => a.1 < b.1 := d.sorted
  exact ext (entries_foldl_emplace h)

end Definitions

/-- The index lists the nodes, the newest first. -/
theorem indexOfPaths_eq (paths : List Bytes) : indexOfPaths paths = paths.zipIdx.reverse := by
  have hfold : ∀ nodes index : List (Bytes × ℕ),
      nodes.foldl emplaceNode index = nodes.reverse ++ index := by
    intro nodes
    induction nodes with
    | nil => simp
    | cons node nodes ih => simp [ih, emplaceNode]
  rw [indexOfPaths, hfold, List.append_nil]

/-- The step as the cache gives it back. -/
def BuildStep.resplit (st : BuildStep) : BuildStep :=
  BuildStep.splitInputs { st with opaqueInputs := none, parsedInputs := [] }

/-- The index lists the nodes, the newest first. -/
def BuildGraph.Listed (g : BuildGraph) : Prop :=
  g.index = (g.nodes.map Node.path).zipIdx.reverse

/-- A graph the cache can give back: the index lists the nodes, and the inputs of the steps are
those of their inputs columns. -/
structure Storable (g : BuildGraph) : Prop where
  listed : g.Listed
  resplit_eq : ∀ st ∈ g.steps, st.resplit = st

/-- Records are read back as the steps they were written for. -/
theorem parseBinStep_emitStep {st : BuildStep} {c : CachedStep} (h : emitStep st = .ok c)
    (hst : st.resplit = st) : parseBinStep c = st := by
  unfold emitStep at h
  split at h
  · simp at h
  · next kind hkind =>
    obtain rfl := Except.ok.inj h
    simp only [parseBinStep, stringFromToolKind_of_eq hkind]
    exact hst

theorem map_parseBinStep {steps : List BuildStep} {cached : List CachedStep}
    (h : steps.mapM emitStep = .ok cached) (hsteps : ∀ st ∈ steps, st.resplit = st) :
    cached.map parseBinStep = steps := by
  induction steps generalizing cached with
  | nil =>
    obtain rfl : [] = cached := by simpa [pure, Except.pure] using h
    rfl
  | cons st steps ih =>
    rw [List.mapM_cons] at h
    cases hst : emitStep st with
    | error _ => simp [hst, bind, Except.bind] at h
    | ok c =>
      cases hrest : steps.mapM emitStep with
      | error _ => simp [hst, hrest, bind, Except.bind] at h
      | ok cs =>
        obtain rfl : c :: cs = cached := by
          simpa [hst, hrest, bind, Except.bind, pure, Except.pure] using h
        rw [List.map_cons, parseBinStep_emitStep hst (hsteps st List.mem_cons_self),
          ih hrest fun st' hst' => hsteps st' (List.mem_cons_of_mem _ hst')]

/-- A builder with supported tools can be written. -/
theorem exists_emitBin {b : COBBuilder}
    (h : ∀ st ∈ b.graph.steps, (toolKindFromString st.tool).isSome) :
    ∃ image, emitBin b = .ok image := by
  have hsteps : ∀ steps : List BuildStep,
      (∀ st ∈ steps, (toolKindFromString st.tool).isSome) →
        ∃ cached, steps.mapM emitStep = .ok cached := by
    intro steps
    induction steps with
    | nil => exact fun _ => ⟨[], rfl⟩
    | cons st steps ih =>
      intro h
      obtain ⟨kind, hkind⟩ := Option.isSome_iff_exists.mp (h st List.mem_cons_self)
      obtain ⟨cached, hcached⟩ := ih fun st' hst' => h st' (List.mem_cons_of_mem _ hst')
      exact ⟨_, by rw [List.mapM_cons, hcached, emitStep, hkind]; rfl⟩
  obtain ⟨cached, hcached⟩ := hsteps b.graph.steps h
  exact ⟨_, by rw [emitBin, hcached]; rfl⟩

/-- A builder with the inputs of its inputs columns is read back as it was, with an index of its
nodes. -/
theorem parseBin_emitBin_of_resplit {b : COBBuilder} {image : CacheImage}
    (hs : ∀ st ∈ b.graph.steps, st.resplit = st) (h : emitBin b = .ok image) :
    parseBin image .empty =
      { b with graph := { b.graph with index := indexOfPaths (b.graph.nodes.map Node.path) } } := by
  unfold emitBin at h
  cases hsteps : b.graph.steps.mapM emitStep with
  | error _ => simp [hsteps, Except.map] at h
  | ok cached =>
    obtain rfl : (⟨b.definitions.entries, b.graph.nodes, cached⟩ : CacheImage) = image := by
      simpa [hsteps, Except.map] using h
    obtain ⟨⟨nodes, steps, index⟩, definitions⟩ := b
    simp only [parseBin, map_parseBinStep hsteps hs]
    congr
    exact Definitions.foldl_emplace_entries definitions

/-- A storable builder is read back as it was. -/
theorem parseBin_emitBin {b : COBBuilder} {image : CacheImage} (hs : Storable b.graph)
    (h : emitBin b = .ok image) : parseBin image .empty = b := by
  have hindex : indexOfPaths (b.graph.nodes.map Node.path) = b.graph.index := by
    rw [indexOfPaths_eq, hs.listed]
  rw [parseBin_emitBin_of_resplit hs.resplit_eq h, hindex]

end RoundTrip

/-! ### Graphs built from text are storable -/

section Storable

variable {read : Bytes → Option Bytes} {g g' : BuildGraph} {p : Bytes} {st : BuildStep}

namespace BuildGraph

/-- Changing a node but not its path keeps the paths. -/
theorem map_path_modify (nodes : List Node) (i : ℕ) {f : Node → Node}
    (hf : ∀ n, (f n).path = n.path) : (nodes.modify i f).map Node.path = nodes.map Node.path := by
  refine List.ext_getElem? fun j => ?_
  simp only [List.getElem?_map, List.getElem?_modify]
  cases nodes[j]? with
  | none => rfl
  | some n => by_cases hj : i = j <;> simp [hj, hf]

theorem Listed.of_paths (h : g.Listed) (hpaths : g'.nodes.map Node.path = g.nodes.map Node.path)
    (hindex : g'.index = g.index) : g'.Listed := by
  rw [Listed, hpaths, hindex]
  exact h

theorem Listed.getOrCreateNode (h : g.Listed) : (g.getOrCreateNode p).1.Listed := by
  unfold BuildGraph.getOrCreateNode
  cases g.findNode p with
  | some i => exact h
  | none =>
    rw [Listed] at h
    simp [Listed, h, List.zipIdx_append]

theorem Listed.addInputs (h : g.Listed) (out : ℕ) (paths : List Bytes) :
    (g.addInputs out paths).Listed := by
  unfold BuildGraph.addInputs
  induction paths generalizing g with
  | nil => exact h
  | cons p paths ih =>
    exact ih (h.getOrCreateNode.of_paths (map_path_modify _ _ (by simp)) rfl)

theorem Listed.addStep (h : g.Listed) (hadd : g.addStep read st = .ok g') : g'.Listed := by
  simp only [BuildGraph.addStep] at hadd
  split_ifs at hadd
  obtain rfl := Except.ok.inj hadd
  refine Listed.addInputs (Listed.addInputs (Listed.addInputs ?_ _ _) _ _) _ _
  exact h.getOrCreateNode.of_paths (map_path_modify _ _ (by simp)) rfl

end BuildGraph

/-- Splitting the inputs column looks neither at the dependency-file inputs nor at the hash. -/
theorem splitInputs_with (st : BuildStep) (depfileInputs : Option (List Bytes))
    (commandHash : UInt64) :
    BuildStep.splitInputs { st with depfileInputs, commandHash } =
      { st.splitInputs with depfileInputs, commandHash } := by
  unfold BuildStep.splitInputs
  generalize Bytes.commaParts st.inputs = parts
  induction parts generalizing st with
  | nil => rfl
  | cons part parts ih =>
    have hone : BuildStep.pushInput { st with depfileInputs, commandHash } part =
        { st.pushInput part with depfileInputs, commandHash } := by
      unfold BuildStep.pushInput
      split
      · rfl
      · split_ifs <;> rfl
    rw [List.foldl_cons, hone]
    exact ih (st.pushInput part)

/-- The step is as a parser passes it to `addStep`: nothing but its columns is known. -/
structure BuildStep.Raw (st : BuildStep) : Prop where
  opaqueInputs : st.opaqueInputs = none
  depfileInputs : st.depfileInputs = none
  parsedInputs : st.parsedInputs = []
  commandHash : st.commandHash = 0

/-- The step that consists of the columns of a step. -/
def BuildStep.columns (st : BuildStep) : BuildStep :=
  { tool := st.tool, inputs := st.inputs, output := st.output, extraFlags := st.extraFlags }

theorem BuildStep.Raw.columns_eq (h : st.Raw) : st.columns = st := by
  obtain ⟨_, _, _, _, _, _, _, _⟩ := st
  obtain ⟨hplain, hdep, hparsed, hhash⟩ := h
  simp only at hplain hdep hparsed hhash
  subst hplain hdep hparsed hhash
  rfl

/-- The stored step is the one that the cache gives back, when nothing was split before. -/
theorem resplit_liveStep (hplain : st.opaqueInputs = none) (hparsed : st.parsedInputs = []) :
    (BuildGraph.liveStep read st).resplit = BuildGraph.liveStep read st := by
  obtain ⟨htool, hinputs, houtput, -, hflags, hhash⟩ := BuildGraph.splitInputs_frame st
  have hraw : ({ BuildGraph.liveStep read st with opaqueInputs := none, parsedInputs := [] } :
      BuildStep) = { st with depfileInputs := (BuildGraph.liveStep read st).depfileInputs } := by
    obtain ⟨tool, inputs, output, opaqueInputs, depfileInputs, parsedInputs, extraFlags,
      commandHash⟩ := st
    simp only at hplain hparsed
    subst hplain hparsed
    simp [BuildGraph.liveStep, BuildGraph.pushDepfileInputs, htool, hinputs, houtput, hflags,
      hhash]
  have hsplit := splitInputs_with st (BuildGraph.liveStep read st).depfileInputs st.commandHash
  rw [BuildStep.resplit, hraw, hsplit, BuildGraph.liveStep, BuildGraph.pushDepfileInputs, ← hhash]

/-- Adding the steps of a manifest to the empty graph gives a storable graph. -/
theorem storable_addSteps {steps : List BuildStep} (hraw : ∀ st ∈ steps, st.Raw)
    (h : BuildGraph.empty.addSteps read steps = .ok g) : Storable g := by
  have hlisted : ∀ (steps : List BuildStep) (g₀ : BuildGraph), g₀.Listed →
      g₀.addSteps read steps = .ok g → g.Listed := by
    intro steps
    induction steps with
    | nil =>
      intro g₀ hg₀ h
      obtain rfl : g₀ = g := Except.ok.inj h
      exact hg₀
    | cons st steps ih =>
      intro g₀ hg₀ h
      rw [BuildGraph.addSteps_cons] at h
      cases hadd : g₀.addStep read st with
      | error _ => simp [hadd, Except.bind] at h
      | ok g₁ =>
        rw [hadd] at h
        exact ih g₁ (hg₀.addStep hadd) h
  refine ⟨hlisted steps .empty rfl h, fun st hst => ?_⟩
  rw [BuildGraph.steps_addSteps h] at hst
  obtain ⟨st₀, hst₀, rfl⟩ := List.mem_map.mp hst
  exact resplit_liveStep (hraw st₀ hst₀).opaqueInputs (hraw st₀ hst₀).parsedInputs

/-- Neither dependency-file inputs nor command hashes come from the inputs column. -/
theorem resplit_with (h : st.resplit = st) (depfileInputs : Option (List Bytes))
    (commandHash : UInt64) :
    BuildStep.resplit { st with depfileInputs, commandHash } =
      { st with depfileInputs, commandHash } := by
  rw [BuildStep.resplit] at h ⊢
  exact (splitInputs_with { st with opaqueInputs := none, parsedInputs := [] } depfileInputs
    commandHash).trans (by rw [h])

/-- Command hashes do not matter for storing. -/
theorem Storable.of_same (h : Storable g) (hsame : g.Same g') : Storable g' := by
  refine ⟨?_, fun st hst => ?_⟩
  · rw [BuildGraph.Listed, ← hsame.nodes, ← hsame.index]
    exact h.listed
  · obtain ⟨k, hk⟩ := List.mem_iff_getElem?.mp hst
    obtain ⟨st', hst', heq⟩ := BuildGraph.Same.getElem? (Eq.symm hsame) hk
    have hold := h.resplit_eq st' (List.mem_of_getElem? hst')
    rw [BuildStep.eq_of_clearHash heq]
    exact resplit_with hold st'.depfileInputs st.commandHash

end Storable

end Cob
