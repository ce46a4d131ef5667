import Cob.Graph.BuildGraph
import Mathlib.Data.Finite.Prod
import Mathlib.Data.Fintype.Card

/-!
# The representation invariant of the build graph

`WellFormed g` relates the four parts of a graph: the index finds exactly the nodes, edges lead to
produced nodes, steps and produced nodes correspond, and the edges into a produced node are its
step's inputs, with repetitions (`edgeCount_eq`). `addStep` keeps the invariant
(`WellFormed.addStep`), so every graph built by `addStep` has it (`Built.wellFormed`).
-/

namespace Cob

namespace BuildGraph

/-- The path of a node. -/
def pathOf (g : BuildGraph) (v : ℕ) : Option Bytes := (g.nodes[v]?).map Node.path

/-- The step id of a node, none for sources and for indices that are not nodes. -/
def stepIdOf (g : BuildGraph) (v : ℕ) : Option ℕ := (g.nodes[v]?).bind Node.stepId

/-- The index finds exactly the nodes, by path. -/
def Indexed (g : BuildGraph) : Prop := ∀ p i, g.findNode p = some i ↔ g.pathOf i = some p

/-- The number of edges from the node with path `p` to node `v`. -/
def edgeCount (g : BuildGraph) (p : Bytes) (v : ℕ) : ℕ :=
  ((g.findNode p).map fun u => (g.outEdges u).count v).getD 0

/-- The representation invariant. -/
structure WellFormed (g : BuildGraph) : Prop where
  /-- The index and the paths agree. -/
  indexed : g.Indexed
  /-- Edges lead to produced nodes. -/
  target_isStep : ∀ u v, v ∈ g.outEdges u → g.isStep v = true
  /-- The step of a produced node writes that node's path. -/
  step_of_node : ∀ v k, g.stepIdOf v = some k →
    ∃ st, g.steps[k]? = some st ∧ g.pathOf v = some st.output
  /-- Every step has its node. -/
  node_of_step : ∀ k st, g.steps[k]? = some st → ∃ v, g.stepIdOf v = some k
  /-- The edges into a produced node are the inputs of its step. -/
  edgeCount_eq : ∀ v st, g.stepOf v = some st → ∀ p, g.edgeCount p v = st.allInputs.count p

/-- The part of the invariant that names no path: edges lead to produced nodes, steps and produced
nodes correspond, and no two steps have one output. -/
structure Linked (g : BuildGraph) : Prop where
  target_isStep : ∀ u v, v ∈ g.outEdges u → g.isStep v = true
  exists_step : ∀ v k, g.stepIdOf v = some k → ∃ st, g.steps[k]? = some st
  node_of_step : ∀ k st, g.steps[k]? = some st → ∃ v, g.stepIdOf v = some k
  stepIdOf_inj : ∀ {u v k : ℕ}, g.stepIdOf u = some k → g.stepIdOf v = some k → u = v
  output_inj : ∀ {k k' : ℕ} {st st' : BuildStep}, g.steps[k]? = some st →
    g.steps[k']? = some st' → st.output = st'.output → k = k'

theorem stepOf_eq (g : BuildGraph) (v : ℕ) : g.stepOf v = (g.stepIdOf v).bind (g.steps[·]?) := rfl

theorem isStep_eq (g : BuildGraph) (v : ℕ) : g.isStep v = (g.stepIdOf v).isSome := rfl

theorem edge_iff {g : BuildGraph} {u v : ℕ} : g.Edge u v ↔ v ∈ g.outEdges u := by
  unfold Edge outEdges
  cases g.nodes[u]? <;> simp

/-! ### What the graph operations change -/

section Operations

variable {g : BuildGraph} {p q : Bytes} {src dst out v : ℕ}

@[simp]
theorem steps_getOrCreateNode : (g.getOrCreateNode p).1.steps = g.steps := by
  unfold getOrCreateNode
  split <;> rfl

@[simp]
theorem stepIdOf_getOrCreateNode : (g.getOrCreateNode p).1.stepIdOf v = g.stepIdOf v := by
  unfold getOrCreateNode
  split
  · rfl
  · simp only [stepIdOf, List.getElem?_append, List.getElem?_singleton]
    split_ifs with hlt h0
    · rfl
    · simp [List.getElem?_eq_none (not_lt.mp hlt)]
    · simp [List.getElem?_eq_none (not_lt.mp hlt)]

@[simp]
theorem outEdges_getOrCreateNode : (g.getOrCreateNode p).1.outEdges v = g.outEdges v := by
  unfold getOrCreateNode
  split
  · rfl
  · simp only [outEdges, List.getElem?_append, List.getElem?_singleton]
    split_ifs with hlt h0
    · rfl
    · simp [List.getElem?_eq_none (not_lt.mp hlt)]
    · simp [List.getElem?_eq_none (not_lt.mp hlt)]

theorem findNode_getOrCreateNode :
    (g.getOrCreateNode p).1.findNode q =
      if q = p then some (g.getOrCreateNode p).2 else g.findNode q := by
  unfold getOrCreateNode
  by_cases hq : q = p
  · subst hq
    cases hf : g.findNode q with
    | some i => simp [hf]
    | none => simp [findNode]
  · cases hf : g.findNode p with
    | some i => simp [hq]
    | none => simp [findNode, List.lookup_cons, beq_false_of_ne hq, hq]

theorem pathOf_getOrCreateNode_of_some {i : ℕ} (h : g.findNode p = some i) :
    g.getOrCreateNode p = (g, i) := by
  simp [getOrCreateNode, h]

/-- A created node is the one behind the last. -/
theorem pathOf_getOrCreateNode_of_none (h : g.findNode p = none) :
    (g.getOrCreateNode p).1.pathOf v =
      if v = g.nodes.length then some p else g.pathOf v := by
  simp only [getOrCreateNode, h, pathOf, List.getElem?_append, List.getElem?_singleton]
  by_cases hv : v = g.nodes.length
  · simp [hv]
  · rw [if_neg hv]
    split_ifs with hlt h0
    · rfl
    · omega
    · simp [List.getElem?_eq_none (not_lt.mp hlt)]

theorem Indexed.getOrCreateNode (h : g.Indexed) : (g.getOrCreateNode p).1.Indexed := by
  intro q i
  rw [findNode_getOrCreateNode]
  cases hf : g.findNode p with
  | some j =>
    rw [pathOf_getOrCreateNode_of_some hf]
    by_cases hq : q = p
    · rw [if_pos hq, ← h q i, hq, hf]
    · rw [if_neg hq, h q i]
  | none =>
    have hid : (g.getOrCreateNode p).2 = g.nodes.length := by
      simp [BuildGraph.getOrCreateNode, hf]
    rw [pathOf_getOrCreateNode_of_none hf, hid]
    by_cases hq : q = p
    · subst hq
      rw [if_pos rfl]
      -- the new node is the last one, and has the path
      by_cases hi : i = g.nodes.length
      · simp [hi]
      · have hnot : ¬ g.pathOf i = some q := by
          rw [← h q i, hf]
          simp
        simp [hi, hnot, Ne.symm hi]
    · rw [if_neg hq, h q i]
      by_cases hi : i = g.nodes.length
      · subst hi
        have hnone : g.pathOf g.nodes.length = none := by simp [pathOf]
        simp [hnone, Ne.symm hq]
      · rw [if_neg hi]

/-- `getOrCreateNode` answers with a node of the path. -/
theorem pathOf_getOrCreateNode_snd (h : g.Indexed) :
    (g.getOrCreateNode p).1.pathOf (g.getOrCreateNode p).2 = some p := by
  rw [← h.getOrCreateNode p, findNode_getOrCreateNode, if_pos rfl]

theorem nodes_pushEdge (i : ℕ) : (g.pushEdge src dst).nodes[i]? =
    (g.nodes[i]?).map fun n =>
      if src = i then { n with outEdges := n.outEdges ++ [dst] } else n := by
  simp only [pushEdge, List.getElem?_modify]
  cases g.nodes[i]? with
  | none => rfl
  | some n => split_ifs <;> simp_all

@[simp]
theorem steps_pushEdge : (g.pushEdge src dst).steps = g.steps := rfl

@[simp]
theorem findNode_pushEdge : (g.pushEdge src dst).findNode q = g.findNode q := rfl

@[simp]
theorem pathOf_pushEdge : (g.pushEdge src dst).pathOf v = g.pathOf v := by
  unfold pathOf
  rw [nodes_pushEdge]
  cases g.nodes[v]? with
  | none => rfl
  | some n => by_cases h : src = v <;> simp [h]

@[simp]
theorem stepIdOf_pushEdge : (g.pushEdge src dst).stepIdOf v = g.stepIdOf v := by
  unfold stepIdOf
  rw [nodes_pushEdge]
  cases g.nodes[v]? with
  | none => rfl
  | some n => by_cases h : src = v <;> simp [h]

theorem outEdges_pushEdge (h : src < g.nodes.length) :
    (g.pushEdge src dst).outEdges v = g.outEdges v ++ if src = v then [dst] else [] := by
  unfold outEdges
  rw [nodes_pushEdge]
  by_cases hv : src = v
  · subst hv
    simp [List.getElem?_eq_getElem h]
  · cases g.nodes[v]? <;> simp [hv]

end Operations

/-! ### Adding inputs -/

section AddInputs

variable {g : BuildGraph} {p q : Bytes} {out v : ℕ}

@[simp]
theorem steps_addInput : (addInput out g p).steps = g.steps := by simp [addInput]

@[simp]
theorem stepIdOf_addInput : (addInput out g p).stepIdOf v = g.stepIdOf v := by simp [addInput]

theorem Indexed.addInput (h : g.Indexed) : (addInput out g p).Indexed := by
  intro q i
  have hcreate := h.getOrCreateNode (p := p) q i
  simpa [BuildGraph.addInput] using hcreate

theorem findNode_addInput :
    (addInput out g p).findNode q =
      if q = p then some (g.getOrCreateNode p).2 else g.findNode q := by
  simp only [addInput, findNode_pushEdge, findNode_getOrCreateNode]

/-- A node keeps its index. -/
theorem findNode_addInput_of_some {i : ℕ} (h : g.findNode q = some i) :
    (addInput out g p).findNode q = some i := by
  rw [findNode_addInput]
  split_ifs with hq
  · subst hq
    simp [pathOf_getOrCreateNode_of_some h]
  · exact h

theorem outEdges_addInput (h : g.Indexed) :
    (addInput out g p).outEdges v =
      g.outEdges v ++ if (g.getOrCreateNode p).2 = v then [out] else [] := by
  have hlt : (g.getOrCreateNode p).2 < (g.getOrCreateNode p).1.nodes.length := by
    have hpath := pathOf_getOrCreateNode_snd (p := p) h
    obtain ⟨n, hn, -⟩ := Option.map_eq_some_iff.mp hpath
    exact (List.getElem?_eq_some_iff.mp hn).1
  rw [addInput, outEdges_pushEdge hlt, outEdges_getOrCreateNode]

/-- One input adds one edge, from its own node to the output. -/
theorem edgeCount_addInput (h : g.Indexed) :
    (addInput out g p).edgeCount q v = g.edgeCount q v + if q = p ∧ v = out then 1 else 0 := by
  unfold edgeCount
  rw [findNode_addInput]
  by_cases hq : q = p
  · subst hq
    -- a new node has no edges yet
    have hold : ((g.findNode q).map fun u => (g.outEdges u).count v).getD 0 =
        (g.outEdges (g.getOrCreateNode q).2).count v := by
      cases hf : g.findNode q with
      | some i => simp [pathOf_getOrCreateNode_of_some hf]
      | none =>
        have hid : (g.getOrCreateNode q).2 = g.nodes.length := by simp [getOrCreateNode, hf]
        simp [hid, outEdges]
    rw [if_pos rfl, hold]
    simp only [Option.map_some, Option.getD_some, outEdges_addInput h, if_true, List.count_append]
    by_cases hv : v = out
    · simp [hv]
    · simp [hv, Ne.symm hv]
  · rw [if_neg hq]
    -- the edge is one of the node of `p`
    have hother : ∀ u, g.findNode q = some u →
        (addInput out g p).outEdges u = g.outEdges u := by
      intro u hu
      have hne : (g.getOrCreateNode p).2 ≠ u := by
        rintro rfl
        have hpath := pathOf_getOrCreateNode_snd (p := p) h
        have hkeep := (h.getOrCreateNode (p := p) q _).mp (by
          rw [findNode_getOrCreateNode, if_neg hq, hu])
        exact hq (by simpa [hpath] using hkeep.symm)
      rw [outEdges_addInput h, if_neg hne, List.append_nil]
    cases hf : g.findNode q with
    | none => simp [hq]
    | some u => simp [hq, hother u hf]

theorem mem_outEdges_addInput (h : g.Indexed) {u : ℕ} (hv : v ∈ (addInput out g p).outEdges u) :
    v ∈ g.outEdges u ∨ v = out := by
  rw [outEdges_addInput h] at hv
  rcases List.mem_append.mp hv with hv | hv
  · exact .inl hv
  · split_ifs at hv with hu
    · exact .inr (by simpa using hv)
    · simp at hv

/-- What adding the inputs of one step to the graph does. -/
structure Added (out : ℕ) (paths : List Bytes) (g g' : BuildGraph) : Prop where
  indexed : g'.Indexed
  steps : g'.steps = g.steps
  stepIdOf : ∀ v, g'.stepIdOf v = g.stepIdOf v
  findNode : ∀ q i, g.findNode q = some i → g'.findNode q = some i
  edgeCount : ∀ q v, g'.edgeCount q v = g.edgeCount q v + if v = out then paths.count q else 0
  outEdges : ∀ u v, v ∈ g'.outEdges u → v ∈ g.outEdges u ∨ v = out

theorem Added.refl (h : g.Indexed) : Added out [] g g where
  indexed := h
  steps := rfl
  stepIdOf _ := rfl
  findNode _ _ := id
  edgeCount _ _ := by simp
  outEdges _ _ := .inl

theorem Added.trans {g₁ g₂ : BuildGraph} {ps qs : List Bytes} (h₁ : Added out ps g g₁)
    (h₂ : Added out qs g₁ g₂) : Added out (ps ++ qs) g g₂ where
  indexed := h₂.indexed
  steps := h₂.steps.trans h₁.steps
  stepIdOf v := (h₂.stepIdOf v).trans (h₁.stepIdOf v)
  findNode q i hi := h₂.findNode q i (h₁.findNode q i hi)
  edgeCount q v := by
    rw [h₂.edgeCount, h₁.edgeCount, List.count_append]
    split_ifs <;> omega
  outEdges u v hv := by
    rcases h₂.outEdges u v hv with hv | hv
    · exact h₁.outEdges u v hv
    · exact .inr hv

theorem added_addInput (h : g.Indexed) : Added out [p] g (addInput out g p) where
  indexed := h.addInput
  steps := steps_addInput
  stepIdOf _ := stepIdOf_addInput
  findNode _ _ := findNode_addInput_of_some
  edgeCount q v := by
    rw [edgeCount_addInput h]
    by_cases hq : q = p
    · simp [hq]
    · simp [hq, Ne.symm hq]
  outEdges _ _ := mem_outEdges_addInput h

variable (out) in
theorem added_addInputs (h : g.Indexed) (ps : List Bytes) :
    Added out ps g (g.addInputs out ps) := by
  induction ps generalizing g with
  | nil => exact .refl h
  | cons p ps ih => exact (added_addInput h).trans (ih (added_addInput h).indexed)

end AddInputs

/-! ### Adding a step -/

section AddStep

variable {g g' : BuildGraph} {read : Bytes → Option Bytes} {step : BuildStep} {v : ℕ}

theorem getD_foldl_pushBack {α : Type} (v : Option (List α)) (l : List α) :
    (l.foldl pushBack v).getD [] = v.getD [] ++ l := by
  induction l generalizing v with
  | nil => simp
  | cons a l ih => simp [ih, pushBack]

/-- Splitting the inputs column changes the parsed and opaque inputs only. -/
theorem splitInputs_frame (st : BuildStep) :
    st.splitInputs.tool = st.tool ∧ st.splitInputs.inputs = st.inputs ∧
      st.splitInputs.output = st.output ∧ st.splitInputs.depfileInputs = st.depfileInputs ∧
      st.splitInputs.extraFlags = st.extraFlags ∧
      st.splitInputs.commandHash = st.commandHash := by
  unfold BuildStep.splitInputs
  generalize Bytes.commaParts st.inputs = parts
  induction parts generalizing st with
  | nil => simp
  | cons part parts ih =>
    have hone : (st.pushInput part).tool = st.tool ∧ (st.pushInput part).inputs = st.inputs ∧
        (st.pushInput part).output = st.output ∧
        (st.pushInput part).depfileInputs = st.depfileInputs ∧
        (st.pushInput part).extraFlags = st.extraFlags ∧
        (st.pushInput part).commandHash = st.commandHash := by
      unfold BuildStep.pushInput
      split
      · simp
      · split_ifs <;> simp
    have hrest := ih (st.pushInput part)
    simpa [hone] using hrest

/-- The step as `addStep` stores it. -/
def liveStep (read : Bytes → Option Bytes) (step : BuildStep) : BuildStep :=
  pushDepfileInputs step.splitInputs (depfilePrerequisites read step.splitInputs)

@[simp]
theorem liveStep_output : (liveStep read step).output = step.output :=
  (splitInputs_frame step).2.2.1

/-- The inputs that `addStep` adds edges for: the prerequisites found, then those of the inputs
column. -/
def newInputs (read : Bytes → Option Bytes) (step : BuildStep) : List Bytes :=
  depfilePrerequisites read step.splitInputs ++ (liveStep read step).parsedInputs ++
    (liveStep read step).opaqueInputs.getD []

/-- The inputs of the stored step: the dependency-file inputs it came with, and the new ones. -/
theorem allInputs_liveStep :
    (liveStep read step).allInputs = step.depfileInputs.getD [] ++ newInputs read step := by
  have hdep := (splitInputs_frame step).2.2.2.1
  simp [newInputs, BuildStep.allInputs, liveStep, pushDepfileInputs, getD_foldl_pushBack, hdep]

/-- The graph in which `addStep` registered the step but added none of its inputs. -/
def registered (read : Bytes → Option Bytes) (g : BuildGraph) (step : BuildStep) : BuildGraph :=
  { (g.getOrCreateNode step.output).1.setStepId (g.getOrCreateNode step.output).2
      g.steps.length with
    steps := g.steps ++ [liveStep read step] }

/-- `addStep` succeeds on an output without a producer; it registers the step and adds its
inputs. -/
theorem addStep_ok (h : g.addStep read step = .ok g') :
    g.stepIdOf (g.getOrCreateNode step.output).2 = none ∧
      ((registered read g step).Indexed →
        Added (g.getOrCreateNode step.output).2 (newInputs read step)
          (registered read g step) g') := by
  simp only [addStep] at h
  split_ifs at h with hdup
  constructor
  · have hnone : (g.getOrCreateNode step.output).1.stepIdOf (g.getOrCreateNode step.output).2 =
        none := by simpa [stepIdOf] using hdup
    rwa [stepIdOf_getOrCreateNode] at hnone
  · intro hreg
    obtain rfl := Except.ok.inj h
    rw [newInputs, List.append_assoc]
    have hfound := added_addInputs (g.getOrCreateNode step.output).2 hreg
      (depfilePrerequisites read step.splitInputs)
    have hparsed := added_addInputs (g.getOrCreateNode step.output).2 hfound.indexed
      (liveStep read step).parsedInputs
    have hopaque := added_addInputs (g.getOrCreateNode step.output).2 hparsed.indexed
      ((liveStep read step).opaqueInputs.getD [])
    simpa [registered, liveStep] using hfound.trans (hparsed.trans hopaque)

theorem nodes_registered (i : ℕ) : (registered read g step).nodes[i]? =
    ((g.getOrCreateNode step.output).1.nodes[i]?).map fun n =>
      if (g.getOrCreateNode step.output).2 = i then { n with stepId := some g.steps.length }
      else n := by
  simp only [registered, setStepId, List.getElem?_modify]
  cases (g.getOrCreateNode step.output).1.nodes[i]? with
  | none => rfl
  | some n => split_ifs <;> simp_all

theorem pathOf_registered :
    (registered read g step).pathOf v = (g.getOrCreateNode step.output).1.pathOf v := by
  unfold pathOf
  rw [nodes_registered]
  cases (g.getOrCreateNode step.output).1.nodes[v]? with
  | none => rfl
  | some n => by_cases h : (g.getOrCreateNode step.output).2 = v <;> simp [h]

theorem outEdges_registered : (registered read g step).outEdges v = g.outEdges v := by
  rw [← outEdges_getOrCreateNode (g := g) (p := step.output)]
  unfold outEdges
  rw [nodes_registered]
  cases (g.getOrCreateNode step.output).1.nodes[v]? with
  | none => rfl
  | some n => by_cases h : (g.getOrCreateNode step.output).2 = v <;> simp [h]

theorem findNode_registered (q : Bytes) :
    (registered read g step).findNode q = (g.getOrCreateNode step.output).1.findNode q := rfl

variable (read step) in
theorem indexed_registered (hg : g.Indexed) : (registered read g step).Indexed := by
  intro q i
  rw [findNode_registered, pathOf_registered]
  exact hg.getOrCreateNode q i

theorem stepIdOf_registered (hg : g.Indexed) : (registered read g step).stepIdOf v =
    if (g.getOrCreateNode step.output).2 = v then some g.steps.length else g.stepIdOf v := by
  rw [← stepIdOf_getOrCreateNode (g := g) (p := step.output)]
  unfold stepIdOf
  rw [nodes_registered]
  by_cases h : (g.getOrCreateNode step.output).2 = v
  · obtain ⟨n, hn, -⟩ :=
      Option.map_eq_some_iff.mp (pathOf_getOrCreateNode_snd (p := step.output) hg)
    subst h
    simp [hn]
  · cases (g.getOrCreateNode step.output).1.nodes[v]? <;> simp [h]

theorem edgeCount_registered (q : Bytes) :
    (registered read g step).edgeCount q v = g.edgeCount q v := by
  unfold edgeCount
  rw [findNode_registered, findNode_getOrCreateNode]
  by_cases hq : q = step.output
  · subst hq
    rw [if_pos rfl]
    cases hf : g.findNode step.output with
    | some i => simp [pathOf_getOrCreateNode_of_some hf, outEdges_registered]
    | none =>
      have hid : (g.getOrCreateNode step.output).2 = g.nodes.length := by
        simp [getOrCreateNode, hf]
      rw [Option.map_some, hid, outEdges_registered]
      simp [outEdges]
  · rw [if_neg hq]
    cases g.findNode q <;> simp [outEdges_registered]

theorem wellFormed_empty : BuildGraph.empty.WellFormed where
  indexed p i := by simp [findNode, empty, pathOf]
  target_isStep u v h := by simp [outEdges, empty] at h
  step_of_node v k h := by simp [stepIdOf, empty] at h
  node_of_step k st h := by simp [empty] at h
  edgeCount_eq v st h := by simp [stepOf, empty] at h

/-- The representation invariant for steps that came with the dependency-file inputs `given`;
these have no edges. -/
structure Represents (given : List (List Bytes)) (g : BuildGraph) : Prop where
  indexed : g.Indexed
  target_isStep : ∀ u v, v ∈ g.outEdges u → g.isStep v = true
  step_of_node : ∀ v k, g.stepIdOf v = some k →
    ∃ st, g.steps[k]? = some st ∧ g.pathOf v = some st.output
  node_of_step : ∀ k st, g.steps[k]? = some st → ∃ v, g.stepIdOf v = some k
  length_given : given.length = g.steps.length
  edgeCount_eq : ∀ v k st before, g.stepIdOf v = some k → g.steps[k]? = some st →
    given[k]? = some before → ∀ p, before.count p + g.edgeCount p v = st.allInputs.count p

/-- The graphs with edges for all inputs are those whose steps came with none. -/
theorem wellFormed_iff_represents :
    g.WellFormed ↔ g.Represents (List.replicate g.steps.length []) := by
  constructor
  · intro hg
    refine ⟨hg.indexed, hg.target_isStep, hg.step_of_node, hg.node_of_step, by simp, ?_⟩
    intro v k st before hv hk hbefore p
    obtain rfl := List.eq_of_mem_replicate (List.mem_of_getElem? hbefore)
    rw [List.count_nil, Nat.zero_add]
    exact hg.edgeCount_eq v st (by rw [stepOf_eq, hv]; exact hk) p
  · intro hg
    refine ⟨hg.indexed, hg.target_isStep, hg.step_of_node, hg.node_of_step, ?_⟩
    intro v st hst p
    obtain ⟨k, hv, hk⟩ := Option.bind_eq_some_iff.mp (stepOf_eq g v ▸ hst)
    have hlt : k < g.steps.length := (List.getElem?_eq_some_iff.mp hk).1
    have hcount := hg.edgeCount_eq v k st [] hv hk (by simp [hlt]) p
    rwa [List.count_nil, Nat.zero_add] at hcount

/-- `addStep` keeps the representation invariant. -/
theorem Represents.addStep {given : List (List Bytes)} (hg : g.Represents given)
    (h : g.addStep read step = .ok g') :
    g'.Represents (given ++ [step.depfileInputs.getD []]) := by
  obtain ⟨hfree, hadd⟩ := addStep_ok h
  have hreg := indexed_registered read step hg.indexed
  have hadd := hadd hreg
  set out := (g.getOrCreateNode step.output).2 with hout
  have hid : ∀ v, g'.stepIdOf v = if out = v then some g.steps.length else g.stepIdOf v :=
    fun v => (hadd.stepIdOf v).trans (stepIdOf_registered hg.indexed)
  have hsteps : g'.steps = g.steps ++ [liveStep read step] := hadd.steps
  have hpath : ∀ v p, g.pathOf v = some p → g'.pathOf v = some p := by
    intro v p hv
    refine (hadd.indexed p v).mp (hadd.findNode p v ?_)
    rw [findNode_registered, findNode_getOrCreateNode]
    have hf := (hg.indexed p v).mpr hv
    split_ifs with hp
    · subst hp
      simp [pathOf_getOrCreateNode_of_some hf]
    · exact hf
  have hpathOut : g'.pathOf out = some step.output := by
    refine (hadd.indexed _ _).mp (hadd.findNode _ _ ?_)
    rw [findNode_registered, findNode_getOrCreateNode, if_pos rfl]
  have hold : ∀ v k, g.stepIdOf v = some k → k < g.steps.length := by
    intro v k hk
    obtain ⟨st, hst, -⟩ := hg.step_of_node v k hk
    exact (List.getElem?_eq_some_iff.mp hst).1
  refine ⟨hadd.indexed, ?_, ?_, ?_, by simp [hsteps, hg.length_given], ?_⟩
  · intro u v hv
    rw [isStep_eq, hid]
    rcases hadd.outEdges u v hv with hv | rfl
    · rw [outEdges_registered] at hv
      have hstepv := hg.target_isStep u v hv
      rw [isStep_eq] at hstepv
      split_ifs <;> simp [hstepv]
    · simp
  · intro v k hk
    rw [hid] at hk
    rw [hsteps]
    split_ifs at hk with hv
    · obtain rfl := Option.some.inj hk
      exact ⟨liveStep read step, by simp, by rw [← hv, hpathOut, liveStep_output]⟩
    · obtain ⟨st, hst, hp⟩ := hg.step_of_node v k hk
      exact ⟨st, by rw [List.getElem?_append_left (hold v k hk), hst], hpath v _ hp⟩
  · intro k st hk
    rw [hsteps] at hk
    by_cases hlt : k < g.steps.length
    · rw [List.getElem?_append_left hlt] at hk
      obtain ⟨v, hv⟩ := hg.node_of_step k st hk
      refine ⟨v, ?_⟩
      rw [hid, if_neg, hv]
      rintro rfl
      simp [hfree] at hv
    · have hkeq : k = g.steps.length := by
        have := (List.getElem?_eq_some_iff.mp hk).1
        simp only [List.length_append, List.length_singleton] at this
        omega
      exact ⟨out, by rw [hid, if_pos rfl, hkeq]⟩
  · intro v k st before hk hst hbefore p
    rw [hadd.edgeCount, edgeCount_registered]
    rw [hid] at hk
    rw [hsteps] at hst
    by_cases hv : out = v
    · subst hv
      -- the new node had no in-edge, since it had no step
      have hzero : g.edgeCount p out = 0 := by
        unfold edgeCount
        cases hf : g.findNode p with
        | none => rfl
        | some u =>
          refine List.count_eq_zero.mpr fun hmem => ?_
          have hstepOut := hg.target_isStep u out hmem
          simp [isStep_eq, hfree] at hstepOut
      obtain rfl : g.steps.length = k := by simpa using hk
      obtain rfl : liveStep read step = st := by simpa using hst
      obtain rfl : step.depfileInputs.getD [] = before := by simpa [← hg.length_given] using hbefore
      rw [hzero, if_pos rfl, allInputs_liveStep, List.count_append, Nat.zero_add]
    · rw [if_neg hv] at hk
      rw [if_neg (Ne.symm hv), Nat.add_zero]
      have hlt := hold v k hk
      rw [List.getElem?_append_left hlt] at hst
      rw [List.getElem?_append_left (by rw [hg.length_given]; exact hlt)] at hbefore
      exact hg.edgeCount_eq v k st before hk hst hbefore p

/-- A step passed without dependency-file inputs keeps the graph well formed. -/
theorem WellFormed.addStep (hg : g.WellFormed) (hstep : step.depfileInputs = none)
    (h : g.addStep read step = .ok g') : g'.WellFormed := by
  have hnew := (wellFormed_iff_represents.mp hg).addStep h
  rw [hstep, Option.getD_none, ← List.replicate_succ'] at hnew
  rw [wellFormed_iff_represents]
  have hlength := hnew.length_given
  rw [List.length_replicate] at hlength
  rwa [← hlength]

/-- Adding several steps to a built graph. -/
theorem Built.addSteps (hg : g.Built) (steps : List BuildStep)
    (hsteps : ∀ st ∈ steps, st.depfileInputs = none) (h : g.addSteps read steps = .ok g') :
    g'.Built := by
  induction steps generalizing g with
  | nil =>
    obtain rfl : g = g' := Except.ok.inj h
    exact hg
  | cons st steps ih =>
    rw [BuildGraph.addSteps, List.foldlM_cons] at h
    cases hadd : g.addStep read st with
    | error e => simp [hadd, bind, Except.bind] at h
    | ok g₁ =>
      rw [hadd] at h
      exact ih (hg.addStep (hsteps st List.mem_cons_self) hadd)
        (fun st' hst' => hsteps st' (List.mem_cons_of_mem _ hst')) h

/-- Every graph built by `addStep` is well formed. -/
theorem Built.wellFormed (h : g.Built) : g.WellFormed := by
  induction h with
  | empty => exact wellFormed_empty
  | addStep _ hstep hadd ih => exact ih.addStep hstep hadd

end AddStep

/-! ### Consequences -/

section Consequences

variable {g : BuildGraph} {u v : ℕ}

/-- A path with an edge to a node is that of a node with an edge to it. -/
theorem Indexed.exists_edge (h : g.Indexed) {p : Bytes} (hpos : 0 < g.edgeCount p v) :
    ∃ u, g.pathOf u = some p ∧ g.Edge u v := by
  cases hf : g.findNode p with
  | none => simp [edgeCount, hf] at hpos
  | some u =>
    refine ⟨u, (h p u).mp hf, edge_iff.mpr ?_⟩
    simp only [edgeCount, hf, Option.map_some, Option.getD_some] at hpos
    exact List.count_pos_iff.mp hpos

/-- Every input of a produced node's step is a node with an edge to it. -/
theorem WellFormed.exists_edge (h : g.WellFormed) {st : BuildStep} (hst : g.stepOf v = some st)
    {p : Bytes} (hp : p ∈ st.allInputs) : ∃ u, g.pathOf u = some p ∧ g.Edge u v := by
  refine h.indexed.exists_edge ?_
  rw [h.edgeCount_eq v st hst p]
  exact List.count_pos_iff.mpr hp

/-- An edge into a produced node leads from an input of its step. -/
theorem WellFormed.path_mem_allInputs (h : g.WellFormed) {st : BuildStep}
    (hst : g.stepOf v = some st) (he : g.Edge u v) :
    ∃ p, g.pathOf u = some p ∧ p ∈ st.allInputs := by
  obtain ⟨n, hn, -⟩ := id he
  have hp : g.pathOf u = some n.path := by simp [pathOf, hn]
  have hcount := h.edgeCount_eq v st hst n.path
  have hpos := List.count_pos_iff.mpr (edge_iff.mp he)
  simp only [edgeCount, (h.indexed n.path u).mpr hp, Option.map_some, Option.getD_some] at hcount
  exact ⟨n.path, hp, List.count_pos_iff.mp (by omega)⟩

/-- Nodes have pairwise distinct paths. -/
theorem Indexed.pathOf_inj (h : g.Indexed) {p : Bytes} (hu : g.pathOf u = some p)
    (hv : g.pathOf v = some p) : u = v := by
  have hfu := (h p u).mpr hu
  have hfv := (h p v).mpr hv
  exact Option.some.inj (hfu.symm.trans hfv)

/-- What `addStep` keeps of steps and nodes. -/
theorem Represents.linked {given : List (List Bytes)} (h : g.Represents given) : g.Linked where
  target_isStep := h.target_isStep
  exists_step := by
    intro v k hk
    obtain ⟨st, hst, -⟩ := h.step_of_node v k hk
    exact ⟨st, hst⟩
  node_of_step := h.node_of_step
  stepIdOf_inj := by
    -- both nodes have the output of the step as their path
    intro u v k hu hv
    obtain ⟨st, hst, hp⟩ := h.step_of_node u k hu
    obtain ⟨st', hst', hp'⟩ := h.step_of_node v k hv
    obtain rfl : st = st' := Option.some.inj (hst.symm.trans hst')
    exact h.indexed.pathOf_inj hp hp'
  output_inj := by
    intro k k' st st' hk hk' heq
    obtain ⟨u, hu⟩ := h.node_of_step k st hk
    obtain ⟨v, hv⟩ := h.node_of_step k' st' hk'
    obtain ⟨st₁, hst₁, hp⟩ := h.step_of_node u k hu
    obtain ⟨st₂, hst₂, hp'⟩ := h.step_of_node v k' hv
    obtain rfl : st = st₁ := Option.some.inj (hk.symm.trans hst₁)
    obtain rfl : st' = st₂ := Option.some.inj (hk'.symm.trans hst₂)
    obtain rfl : u = v := h.indexed.pathOf_inj hp (heq ▸ hp')
    exact Option.some.inj (hu.symm.trans hv)

theorem WellFormed.linked (h : g.WellFormed) : g.Linked :=
  (wellFormed_iff_represents.mp h).linked

/-- The step of a produced node. -/
theorem Linked.exists_stepOf (h : g.Linked) (hv : g.isStep v = true) :
    ∃ st, g.stepOf v = some st := by
  rw [isStep_eq, Option.isSome_iff_exists] at hv
  obtain ⟨k, hk⟩ := hv
  obtain ⟨st, hst⟩ := h.exists_step v k hk
  exact ⟨st, by rw [stepOf_eq, hk]; exact hst⟩

theorem WellFormed.pathOf_inj (h : g.WellFormed) {p : Bytes} (hu : g.pathOf u = some p)
    (hv : g.pathOf v = some p) : u = v := h.indexed.pathOf_inj hu hv

/-- A step has one node. -/
theorem WellFormed.stepIdOf_inj (h : g.WellFormed) {k : ℕ} (hu : g.stepIdOf u = some k)
    (hv : g.stepIdOf v = some k) : u = v := h.linked.stepIdOf_inj hu hv

/-- Steps have pairwise distinct outputs. -/
theorem WellFormed.output_inj (h : g.WellFormed) {k k' : ℕ} {st st' : BuildStep}
    (hk : g.steps[k]? = some st) (hk' : g.steps[k']? = some st')
    (heq : st.output = st'.output) : k = k' := h.linked.output_inj hk hk' heq

/-- The step of a produced node. -/
theorem WellFormed.exists_stepOf (h : g.WellFormed) (hv : g.isStep v = true) :
    ∃ st, g.stepOf v = some st ∧ g.pathOf v = some st.output := by
  rw [isStep_eq, Option.isSome_iff_exists] at hv
  obtain ⟨k, hk⟩ := hv
  obtain ⟨st, hst, hp⟩ := h.step_of_node v k hk
  exact ⟨st, by rw [stepOf_eq, hk]; exact hst, hp⟩

theorem isStep_of_stepOf {st : BuildStep} (h : g.stepOf v = some st) : g.isStep v = true := by
  obtain ⟨k, hk, -⟩ := Option.bind_eq_some_iff.mp (stepOf_eq g v ▸ h)
  simp [isStep_eq, hk]

theorem mem_steps_of_stepOf {st : BuildStep} (h : g.stepOf v = some st) : st ∈ g.steps := by
  obtain ⟨k, -, hk⟩ := Option.bind_eq_some_iff.mp (stepOf_eq g v ▸ h)
  exact List.mem_of_getElem? hk

/-- Produced nodes are nodes. -/
theorem lt_length_of_isStep (h : g.isStep v = true) : v < g.nodes.length := by
  by_contra hge
  simp [isStep, List.getElem?_eq_none (not_lt.mp hge)] at h

/-- An edge leads from a node to a node. -/
theorem Linked.edge_lt (h : g.Linked) (he : g.Edge u v) :
    u < g.nodes.length ∧ v < g.nodes.length := by
  obtain ⟨n, hn, -⟩ := id he
  exact ⟨(List.getElem?_eq_some_iff.mp hn).1,
    lt_length_of_isStep (h.target_isStep u v (edge_iff.mp he))⟩

/-- Edges that raise a rank make no cycle. -/
theorem acyclic_of_rank (r : ℕ → ℕ)
    (h : ∀ u < g.nodes.length, ∀ v ∈ g.outEdges u, r u < r v) : g.Acyclic := by
  have hedge : ∀ u v, g.Edge u v → r u < r v := by
    rintro u v ⟨n, hn, hv⟩
    exact h u (List.getElem?_eq_some_iff.mp hn).1 v (edge_iff.mp ⟨n, hn, hv⟩)
  have hpath : ∀ u v, Relation.TransGen g.Edge u v → r u < r v := by
    intro u v huv
    induction huv with
    | single he => exact hedge _ _ he
    | tail _ he ih => exact ih.trans (hedge _ _ he)
  exact fun v hv => (hpath v v hv).false

/-- An acyclic graph is well founded along its edges. -/
theorem Acyclic.wellFounded (h : g.Acyclic) : WellFounded g.Edge := by
  let r : Fin g.nodes.length → Fin g.nodes.length → Prop :=
    fun u v => Relation.TransGen g.Edge u v
  have htrans : IsTrans _ r := ⟨fun _ _ _ => Relation.TransGen.trans⟩
  have hirrefl : Std.Irrefl r := ⟨fun v => h v⟩
  have hwf : WellFounded r := Finite.wellFounded_of_trans_of_irrefl r
  have hsource : ∀ u v, g.Edge u v → u < g.nodes.length := by
    rintro u v ⟨n, hn, -⟩
    exact (List.getElem?_eq_some_iff.mp hn).1
  have hacc : ∀ v : Fin g.nodes.length, Acc g.Edge v := by
    intro v
    induction v using hwf.induction with
    | h v ih =>
      refine ⟨_, fun u hu => ?_⟩
      exact ih ⟨u, hsource u v hu⟩ (.single hu)
  refine ⟨fun v => ⟨_, fun u hu => ?_⟩⟩
  exact hacc ⟨u, hsource u v hu⟩

end Consequences

end BuildGraph

end Cob
