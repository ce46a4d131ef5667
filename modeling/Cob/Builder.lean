import Cob.Definitions
import Cob.Graph.WellFormed

/-!
# The builder

`COBBuilder`: the graph and the definitions that a parser fills. The command hashes are the part
of a builder that no manifest mentions; `clearHashes` forgets them, so that two builders can be
compared for what they say.

The module introduces:

* `COBBuilder` — the builder with `addStep`, `addDefinition` and `overrideDefinition`;
* `BuildGraph.clearHashes` — a graph with all command hashes unknown;
* `BuildGraph.Same` — two graphs that differ in command hashes only.
-/

namespace Cob

/-- `COBBuilder`. -/
structure COBBuilder where
  graph : BuildGraph
  definitions : Definitions
  deriving DecidableEq

namespace COBBuilder

/-- The builder that `main` hands to `parse`. -/
def empty : COBBuilder := ⟨.empty, .empty⟩

/-- `addDefinition`. -/
def addDefinition (b : COBBuilder) (key value : Bytes) : COBBuilder :=
  { b with definitions := b.definitions.emplace key value }

/-- `overrideDefinition`. -/
def overrideDefinition (b : COBBuilder) (key value : Bytes) : COBBuilder :=
  { b with definitions := b.definitions.insertOrAssign key value }

/-- `addStep`. -/
def addStep (read : Bytes → Option Bytes) (b : COBBuilder) (step : BuildStep) :
    Except Bytes COBBuilder :=
  (b.graph.addStep read step).map fun graph => { b with graph }

/-- The loop of `main` over `definition_overrides`. -/
def override (b : COBBuilder) (overrides : List (Bytes × Bytes)) : COBBuilder :=
  overrides.foldl (fun b o => b.overrideDefinition o.1 o.2) b

@[simp]
theorem graph_override (b : COBBuilder) (os : List (Bytes × Bytes)) :
    (b.override os).graph = b.graph := by
  unfold override
  induction os generalizing b with
  | nil => rfl
  | cons o os ih => exact (ih (b.overrideDefinition o.1 o.2)).trans rfl

@[simp]
theorem definitions_override (b : COBBuilder) (os : List (Bytes × Bytes)) :
    (b.override os).definitions = b.definitions.override os := by
  unfold override
  induction os generalizing b with
  | nil => rfl
  | cons o os ih => exact (ih (b.overrideDefinition o.1 o.2)).trans rfl

end COBBuilder

namespace BuildStep

/-- The step with its command hash unknown. -/
def clearHash (st : BuildStep) : BuildStep := { st with commandHash := 0 }

/-- Steps that are equal but for their command hashes. -/
theorem eq_of_clearHash {st st' : BuildStep} (h : st.clearHash = st'.clearHash) :
    st = { st' with commandHash := st.commandHash } := by
  obtain ⟨_, _, _, _, _, _, _, _⟩ := st
  obtain ⟨_, _, _, _, _, _, _, _⟩ := st'
  simpa [clearHash] using h

end BuildStep

namespace BuildGraph

/-- The graph with all command hashes unknown. -/
def clearHashes (g : BuildGraph) : BuildGraph := { g with steps := g.steps.map BuildStep.clearHash }

/-- The graphs differ in command hashes only. -/
def Same (g g' : BuildGraph) : Prop := g.clearHashes = g'.clearHashes

instance (g g' : BuildGraph) : Decidable (g.Same g') := inferInstanceAs (Decidable (_ = _))

variable {g g' : BuildGraph}

theorem Same.nodes (h : g.Same g') : g.nodes = g'.nodes := by
  have h : g.clearHashes.nodes = g'.clearHashes.nodes := by rw [h]
  exact h

theorem Same.index (h : g.Same g') : g.index = g'.index := by
  have h : g.clearHashes.index = g'.clearHashes.index := by rw [h]
  exact h

theorem Same.steps (h : g.Same g') :
    g.steps.map BuildStep.clearHash = g'.steps.map BuildStep.clearHash := by
  have h : g.clearHashes.steps = g'.clearHashes.steps := by rw [h]
  exact h

/-- Graphs that differ in command hashes have the same steps but for these. -/
theorem Same.getElem? (h : g.Same g') {k : ℕ} {st : BuildStep} (hk : g.steps[k]? = some st) :
    ∃ st', g'.steps[k]? = some st' ∧ st.clearHash = st'.clearHash := by
  have hmap : (g'.steps.map BuildStep.clearHash)[k]? = some st.clearHash := by
    rw [← h.steps, List.getElem?_map, hk]
    rfl
  rw [List.getElem?_map] at hmap
  obtain ⟨st', hst', heq⟩ := Option.map_eq_some_iff.mp hmap
  exact ⟨st', hst', heq.symm⟩

/-- The steps of nodes agree but for their command hashes. -/
theorem Same.stepOf (h : g.Same g') {v : ℕ} {st : BuildStep} (hst : g.stepOf v = some st) :
    ∃ st', g'.stepOf v = some st' ∧ st.clearHash = st'.clearHash := by
  unfold BuildGraph.stepOf at hst ⊢
  obtain ⟨k, hk, hst⟩ := Option.bind_eq_some_iff.mp hst
  obtain ⟨st', hst', heq⟩ := h.getElem? hst
  exact ⟨st', by rw [← h.nodes, hk]; exact hst', heq⟩

/-- Command hashes do not matter for the representation invariant. -/
theorem WellFormed.of_same (hg : g.WellFormed) (h : g.Same g') : g'.WellFormed := by
  have hfind : ∀ p, g'.findNode p = g.findNode p := fun p => by rw [findNode, findNode, h.index]
  have hpath : ∀ v, g'.pathOf v = g.pathOf v := fun v => by rw [pathOf, pathOf, h.nodes]
  have hedges : ∀ v, g'.outEdges v = g.outEdges v := fun v => by rw [outEdges, outEdges, h.nodes]
  have hid : ∀ v, g'.stepIdOf v = g.stepIdOf v := fun v => by rw [stepIdOf, stepIdOf, h.nodes]
  refine ⟨fun p i => ?_, fun u v hv => ?_, fun v k hk => ?_, fun k st hst => ?_,
    fun v st hst p => ?_⟩
  · rw [hfind, hpath]
    exact hg.indexed p i
  · rw [isStep_eq, hid]
    exact hg.target_isStep u v (hedges u ▸ hv)
  · obtain ⟨st, hst, hp⟩ := hg.step_of_node v k (hid v ▸ hk)
    obtain ⟨st', hst', heq⟩ := h.getElem? hst
    have hout : st.output = st'.output := by rw [BuildStep.eq_of_clearHash heq]
    exact ⟨st', hst', by rw [hpath, hp, hout]⟩
  · obtain ⟨st', hst', -⟩ := Same.getElem? (Eq.symm h) hst
    obtain ⟨v, hv⟩ := hg.node_of_step k st' hst'
    exact ⟨v, by rw [hid, hv]⟩
  · obtain ⟨st', hst', heq⟩ := Same.stepOf (Eq.symm h) hst
    have hinputs : st.allInputs = st'.allInputs := by
      rw [BuildStep.eq_of_clearHash heq]
      rfl
    rw [edgeCount, hfind, hinputs, ← hg.edgeCount_eq v st' hst' p, edgeCount]
    simp only [hedges]

/-- Neither command hashes nor the index matter for the part of it that names no path. -/
theorem Linked.congr (hg : g.Linked) (hnodes : g'.nodes = g.nodes)
    (hsteps : g'.steps.map BuildStep.clearHash = g.steps.map BuildStep.clearHash) :
    g'.Linked := by
  have hsame : g'.Same { g with index := g'.index } := by
    simp [Same, clearHashes, hnodes, hsteps]
  have hedges : ∀ v, g'.outEdges v = g.outEdges v := fun v => by rw [outEdges, outEdges, hnodes]
  have hid : ∀ v, g'.stepIdOf v = g.stepIdOf v := fun v => by rw [stepIdOf, stepIdOf, hnodes]
  refine ⟨fun u v hv => ?_, fun v k hk => ?_, fun k st hst => ?_, fun {u v k} hu hv => ?_,
    fun {k k' st st'} hk hk' heq => ?_⟩
  · rw [isStep_eq, hid]
    exact hg.target_isStep u v (hedges u ▸ hv)
  · obtain ⟨st, hst⟩ := hg.exists_step v k (hid v ▸ hk)
    obtain ⟨st', hst', -⟩ := Same.getElem? (Eq.symm hsame) hst
    exact ⟨st', hst'⟩
  · obtain ⟨st', hst', -⟩ := hsame.getElem? hst
    obtain ⟨v, hv⟩ := hg.node_of_step k st' hst'
    exact ⟨v, by rw [hid, hv]⟩
  · exact hg.stepIdOf_inj (hid u ▸ hu) (hid v ▸ hv)
  · obtain ⟨st₁, hst₁, heq₁⟩ := hsame.getElem? hk
    obtain ⟨st₂, hst₂, heq₂⟩ := hsame.getElem? hk'
    refine hg.output_inj hst₁ hst₂ ?_
    rw [BuildStep.eq_of_clearHash heq₁, BuildStep.eq_of_clearHash heq₂] at heq
    exact heq

end BuildGraph

end Cob
