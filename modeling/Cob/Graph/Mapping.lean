import Cob.Builder
import Cob.Graph.DepfileBounds

/-!
# Views into dependency files

`addStep` keeps the dependency files mapped that it has parsed. A path that such a file names first,
in a token that needs no decoding, is a view into the mapping, and it is the path of the node and of
every dependency-file input that names the node. So when the file is rewritten in place, the graph
shows what its bytes are now; a file that is replaced or removed stays in the mapping as it was. The
columns of the manifest and decoded tokens are not touched.

The module introduces:

* `Mapping`, `mappings` — the mapped files, and those of a list of steps;
* `Mapping.view`, `shownPath` — what a path shows;
* `BuildGraph.renamed` — a graph with other bytes in the paths that may be views;
* `Mapping.Intact` — the mapping shows the paths that were parsed.
-/

namespace Cob

open DepfileScan

/-- A mapped dependency file. -/
structure Mapping where
  path : Bytes
  /-- what was parsed -/
  content : Bytes
  /-- what is in the file now -/
  shown : Bytes
  /-- the path still names the mapped file -/
  attached : Bool
  deriving DecidableEq

namespace Mapping

/-- The path does not name the mapped file any more. -/
def detach (path : Bytes) (m : Mapping) : Mapping :=
  if m.path = path then { m with attached := false } else m

@[simp]
theorem shown_detach (path : Bytes) (m : Mapping) : (m.detach path).shown = m.shown := by
  unfold detach
  split_ifs <;> rfl

@[simp]
theorem content_detach (path : Bytes) (m : Mapping) : (m.detach path).content = m.content := by
  unfold detach
  split_ifs <;> rfl

/-- The file is rewritten in place. -/
def overwrite (path shown : Bytes) (m : Mapping) : Mapping :=
  if m.path = path ∧ m.attached = true then { m with shown } else m

/-- The bytes from `p` to `q`. Behind the end of the file, on its last page, they are zero; further
behind they could not be read at all. -/
def bytes (m : Mapping) (p q : ℕ) : Bytes :=
  (List.range (q - p)).map fun i => (m.shown[p + i]?).getD 0

/-- `decodeDepfileToken` returns the token itself. -/
def isView (m : Mapping) (t : Token) : Bool :=
  !t.needsDecode || !(t.text m.content).any fun c => c = chr '\\' || c = chr '$'

/-- What is shown for a path that the file names: the bytes of the token that named it first, or the
path, which the graph owns, when that token was decoded. -/
def view (m : Mapping) (path : Bytes) : Bytes :=
  match scanDepfile m.content with
  | .ok tokens =>
    match tokens.find? fun t => t.decode m.content = path with
    | some t => if m.isView t then m.bytes t.start t.stop else path
    | none => path
  | .error _ => path

/-- The file still shows the paths that were parsed. -/
def Intact (m : Mapping) : Prop := ∀ path ∈ parseDepfile m.content, m.view path = path

instance (m : Mapping) : Decidable m.Intact :=
  inferInstanceAs (Decidable (∀ path ∈ parseDepfile m.content, _))

end Mapping

/-- The files that `addStep` maps. -/
def mappings (read : Bytes → Option Bytes) (steps : List BuildStep) : List Mapping :=
  (steps.filter BuildStep.isCompile).filterMap fun st =>
    (read st.depfilePath).map fun content => ⟨st.depfilePath, content, content, true⟩

/-- Where `addStep` takes the bytes of a path from when it meets the path in the step, none when it
does not: the output comes first, then the dependency file, then the other inputs. -/
def BuildStep.naming (mapped : List Mapping) (st : BuildStep) (path : Bytes) :
    Option (Option Mapping) :=
  if path = st.output then some none
  else
    match mapped.find? fun m => m.path = st.depfilePath ∧ path ∈ parseDepfile m.content with
    | some m => some (some m)
    | none => if path ∈ st.parsedInputs ++ st.opaqueInputs.getD [] then some none else none

/-- What the path of a node shows: it has the bytes from where it was met first. -/
def shownPath (mapped : List Mapping) (steps : List BuildStep) (path : Bytes) : Bytes :=
  match steps.findSome? fun st => st.naming mapped path with
  | some (some m) => m.view path
  | _ => path

/-- The step with other bytes in its dependency-file inputs. -/
def BuildStep.renamed (f : Bytes → Bytes) (st : BuildStep) : BuildStep :=
  { st with depfileInputs := st.depfileInputs.map (List.map f) }

/-- The graph with other bytes in the paths of its nodes. A key of the index whose bytes have
changed is not found again. -/
def BuildGraph.renamed (f : Bytes → Bytes) (g : BuildGraph) : BuildGraph where
  nodes := g.nodes.map fun n => { n with path := f n.path }
  steps := g.steps.map (BuildStep.renamed f)
  index := g.index.filter fun e => f e.1 = e.1

/-- The builder as its mappings show it. -/
def COBBuilder.shown (mapped : List Mapping) (b : COBBuilder) : COBBuilder :=
  { b with graph := b.graph.renamed (shownPath mapped b.graph.steps) }

/-! ### Intact mappings -/

section Intact

variable {m : Mapping} {mapped : List Mapping} {steps : List BuildStep} {b : COBBuilder}

/-- The bytes of a file that still begins with what was parsed. -/
theorem Mapping.bytes_eq (h : m.content <+: m.shown) {p q : ℕ} (hq : q ≤ m.content.length) :
    m.bytes p q = slice m.content p q := by
  obtain ⟨more, hmore⟩ := h
  refine List.ext_getElem? fun i => ?_
  rw [Mapping.bytes, List.getElem?_map, slice]
  by_cases hi : i < q - p
  · have hget : m.shown[p + i]? = m.content[p + i]? := by
      rw [← hmore, List.getElem?_append_left (by omega)]
    have hlt : p + i < m.content.length := by omega
    rw [List.getElem?_range hi, List.getElem?_take_of_lt hi, List.getElem?_drop, Option.map_some,
      hget, List.getElem?_eq_getElem hlt]
    rfl
  · rw [List.getElem?_eq_none (by simpa using hi), List.getElem?_eq_none]
    · rfl
    · rw [List.length_take]
      omega

/-- A path that the file does not name is no view into it. -/
theorem Mapping.view_of_notMem {path : Bytes} (h : path ∉ parseDepfile m.content) :
    m.view path = path := by
  obtain ⟨tokens, hscan, hdecode⟩ := scanDepfile_refines m.content
  rw [hdecode] at h
  have hnone : tokens.find? (fun t => t.decode m.content = path) = none := by
    rw [List.find?_eq_none]
    intro t ht
    have hne : t.decode m.content ≠ path := by
      rintro rfl
      exact h (List.mem_map_of_mem ht)
    simpa using hne
  simp [Mapping.view, hscan, hnone]

theorem Mapping.Intact.view_eq (h : m.Intact) (path : Bytes) : m.view path = path := by
  by_cases hp : path ∈ parseDepfile m.content
  · exact h path hp
  · exact Mapping.view_of_notMem hp

/-- A file that was only appended to shows the paths that were parsed. -/
theorem Mapping.intact_of_prefix (h : m.content <+: m.shown) : m.Intact := by
  intro path _
  obtain ⟨-, tokens, -, hscan, hinside, -⟩ := scanDepfile_inside m.content
  simp only [Mapping.view, hscan]
  cases ht : tokens.find? fun t => t.decode m.content = path with
  | none => rfl
  | some t =>
    simp only
    split_ifs with hview
    · have hstop := (hinside t (List.mem_of_find?_eq_some ht)).2
      have hdecode : t.decode m.content = path := by simpa using List.find?_some ht
      have htext : t.decode m.content = t.text m.content := if_pos hview
      rw [Mapping.bytes_eq h hstop, ← hdecode, htext]
      rfl
    · rfl

/-- The mapping in which a step names a path is one of those that there are. -/
theorem BuildStep.mem_of_naming {st : BuildStep} {path : Bytes}
    (h : st.naming mapped path = some (some m)) : m ∈ mapped := by
  unfold BuildStep.naming at h
  by_cases hout : path = st.output
  · simp [hout] at h
  · rw [if_neg hout] at h
    split at h
    · next m' hfind =>
      obtain rfl := Option.some.inj (Option.some.inj h)
      exact List.mem_of_find?_eq_some hfind
    · split_ifs at h
      cases h

theorem shownPath_of_intact (h : ∀ m ∈ mapped, m.Intact) (path : Bytes) :
    shownPath mapped steps path = path := by
  unfold shownPath
  split
  · next m hm =>
    obtain ⟨st, -, hst⟩ := List.exists_of_findSome?_eq_some hm
    exact (h m (BuildStep.mem_of_naming hst)).view_eq path
  · rfl

theorem BuildGraph.renamed_of_eq {f : Bytes → Bytes} (h : ∀ p, f p = p) (g : BuildGraph) :
    g.renamed f = g := by
  obtain rfl : f = id := funext h
  obtain ⟨nodes, steps, index⟩ := g
  have hstep : ∀ st : BuildStep, st.renamed id = st := by
    intro st
    rw [BuildStep.renamed, List.map_id_fun, Option.map_id]
    rfl
  simp [BuildGraph.renamed, funext hstep]

/-- A builder whose mappings show what was parsed is the one that was parsed. -/
theorem COBBuilder.shown_of_intact (h : ∀ m ∈ mapped, m.Intact) : b.shown mapped = b := by
  rw [COBBuilder.shown, BuildGraph.renamed_of_eq (shownPath_of_intact h)]

end Intact

/-! ### What does not change -/

section Renamed

variable {f : Bytes → Bytes} {g : BuildGraph}

@[simp]
theorem BuildGraph.length_nodes_renamed : (g.renamed f).nodes.length = g.nodes.length := by
  simp [BuildGraph.renamed]

@[simp]
theorem BuildGraph.stepIdOf_renamed (v : ℕ) : (g.renamed f).stepIdOf v = g.stepIdOf v := by
  simp only [BuildGraph.stepIdOf, BuildGraph.renamed, List.getElem?_map]
  cases g.nodes[v]? <;> rfl

@[simp]
theorem BuildGraph.outEdges_renamed (v : ℕ) : (g.renamed f).outEdges v = g.outEdges v := by
  simp [BuildGraph.outEdges, BuildGraph.renamed, Option.map_map, Function.comp_def]

@[simp]
theorem BuildGraph.isStep_renamed (v : ℕ) : (g.renamed f).isStep v = g.isStep v := by
  rw [BuildGraph.isStep_eq, BuildGraph.isStep_eq, BuildGraph.stepIdOf_renamed]

theorem BuildGraph.getElem?_steps_renamed (k : ℕ) :
    (g.renamed f).steps[k]? = (g.steps[k]?).map (BuildStep.renamed f) := by
  simp [BuildGraph.renamed]

theorem BuildStep.clearHash_renamed (st : BuildStep) :
    (st.renamed f).clearHash = st.clearHash.renamed f := rfl

/-- Edges and steps are as they were. -/
theorem BuildGraph.Linked.renamed (h : g.Linked) : (g.renamed f).Linked where
  target_isStep u v hv := by
    rw [BuildGraph.outEdges_renamed] at hv
    rw [BuildGraph.isStep_renamed]
    exact h.target_isStep u v hv
  exists_step v k hk := by
    rw [BuildGraph.stepIdOf_renamed] at hk
    obtain ⟨st, hst⟩ := h.exists_step v k hk
    exact ⟨st.renamed f, by simp [BuildGraph.renamed, hst]⟩
  node_of_step k st hk := by
    obtain ⟨st', hst', -⟩ := Option.map_eq_some_iff.mp (List.getElem?_map ▸ hk)
    obtain ⟨v, hv⟩ := h.node_of_step k st' hst'
    exact ⟨v, by rw [BuildGraph.stepIdOf_renamed, hv]⟩
  stepIdOf_inj hu hv := by
    rw [BuildGraph.stepIdOf_renamed] at hu hv
    exact h.stepIdOf_inj hu hv
  output_inj hk hk' heq := by
    obtain ⟨st, hst, rfl⟩ := Option.map_eq_some_iff.mp (List.getElem?_map ▸ hk)
    obtain ⟨st', hst', rfl⟩ := Option.map_eq_some_iff.mp (List.getElem?_map ▸ hk')
    exact h.output_inj hst hst' heq

end Renamed

end Cob
