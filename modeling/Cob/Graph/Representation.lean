import Cob.Graph.WellFormed

/-!
# What the graph stands for

`addStep` may be called in any order, with any steps, and its error may be ignored: `tryAddStep`
keeps the graph that a rejected call leaves behind, and `runCalls` makes any number of calls.

* `inEdges g v` — the paths of the nodes with an edge to `v`, one entry for each edge;
* `Representation given g` — nodes, index, edges and steps say the same thing;
* `representation_of_calls` — they do after any calls, and a rejected call changes nothing.

A step may come with dependency-file inputs of its own. `addStep` keeps them and adds edges only
for the prerequisites it finds in the dependency file (`not_all_inputs`).
-/

namespace Cob

namespace BuildGraph

/-- `addStep` with the graph it leaves behind: the new step's id, or the error. -/
def tryAddStep (read : Bytes → Option Bytes) (g : BuildGraph) (step : BuildStep) :
    BuildGraph × Except Bytes ℕ :=
  match g.addStep read step with
  | .ok g' => (g', .ok g.steps.length)
  | .error e => ((g.getOrCreateNode step.output).1, .error e)

/-- A call of `addStep`, with the files there are at the time. -/
structure Call where
  step : BuildStep
  read : Bytes → Option Bytes

/-- The graph after a call, and the dependency-file inputs that the accepted steps came with. -/
def runCall (s : BuildGraph × List (List Bytes)) (c : Call) : BuildGraph × List (List Bytes) :=
  match s.1.tryAddStep c.read c.step with
  | (g', .ok _) => (g', s.2 ++ [c.step.depfileInputs.getD []])
  | (g', .error _) => (g', s.2)

/-- The graph after a sequence of calls on an empty one. -/
def runCalls (calls : List Call) : BuildGraph × List (List Bytes) :=
  calls.foldl runCall (.empty, [])

/-- The graphs that calls of `addStep` make of an empty one. -/
def Called (g : BuildGraph) : Prop := ∃ calls, (runCalls calls).1 = g

/-- The paths of the nodes with an edge to `v`, one entry for each edge. -/
def inEdges (g : BuildGraph) (v : ℕ) : List Bytes :=
  g.nodes.flatMap fun n => List.replicate (n.outEdges.count v) n.path

/-- Nodes, index, edges and steps say the same thing; the steps came with the dependency-file
inputs `given`. -/
structure Representation (given : List (List Bytes)) (g : BuildGraph) : Prop where
  /-- No two nodes have one path. -/
  paths_nodup : (g.nodes.map Node.path).Nodup
  /-- The index finds the node of each path. -/
  findNode_iff : ∀ p i, g.findNode p = some i ↔ ∃ n : Node, g.nodes[i]? = some n ∧ n.path = p
  /-- Edges lead to nodes. -/
  edge_lt : ∀ n ∈ g.nodes, ∀ v ∈ n.outEdges, v < g.nodes.length
  /-- Each step has exactly one node. -/
  node_of_step : ∀ k < g.steps.length, ∃! v : ℕ, ∃ n : Node, g.nodes[v]? = some n ∧
    n.stepId = some k
  /-- The step of a produced node writes its path. -/
  step_of_node : ∀ n ∈ g.nodes, ∀ k, n.stepId = some k →
    ∃ st, g.steps[k]? = some st ∧ n.path = st.output
  length_given : given.length = g.steps.length
  /-- The edges into a produced node are the inputs of its step, but for those it came with. -/
  inEdges_perm : ∀ (v : ℕ) (n : Node) (k : ℕ) (st : BuildStep) (before : List Bytes),
    g.nodes[v]? = some n → n.stepId = some k → g.steps[k]? = some st → given[k]? = some before →
    (before ++ g.inEdges v).Perm st.allInputs
  /-- No edge leads to a source. -/
  inEdges_source : ∀ (v : ℕ) (n : Node), g.nodes[v]? = some n → n.stepId = none → g.inEdges v = []

section Representation

variable {g g' : BuildGraph} {read : Bytes → Option Bytes} {step : BuildStep}

/-- Indexed nodes have distinct paths. -/
theorem Indexed.paths_nodup (h : g.Indexed) : (g.nodes.map Node.path).Nodup := by
  rw [List.nodup_iff_injective_get]
  rintro ⟨i, hi⟩ ⟨j, hj⟩ heq
  rw [List.length_map] at hi hj
  have hpath : ∀ k (hk : k < g.nodes.length), g.pathOf k = some (g.nodes[k]).path := by
    intro k hk
    simp [pathOf, hk]
  have hi' := (h _ i).mpr (hpath i hi)
  have hj' := (h _ j).mpr (hpath j hj)
  have hsame : (g.nodes[i]).path = (g.nodes[j]).path := by simpa using heq
  rw [hsame, hj'] at hi'
  exact Fin.ext (Option.some.inj hi').symm

/-- The entries for a path are the edges of its node. -/
theorem Indexed.count_inEdges (h : g.Indexed) (p : Bytes) (v : ℕ) :
    (g.inEdges v).count p = g.edgeCount p v := by
  have hother : ∀ l : List Node, (∀ n ∈ l, n.path ≠ p) →
      (l.flatMap fun n => List.replicate (n.outEdges.count v) n.path).count p = 0 := by
    intro l hl
    refine List.count_eq_zero.mpr fun hmem => ?_
    obtain ⟨n, hn, hp⟩ := List.mem_flatMap.mp hmem
    exact hl n hn (List.eq_of_mem_replicate hp).symm
  have hnodup := h.paths_nodup
  unfold edgeCount inEdges
  cases hf : g.findNode p with
  | none =>
    refine hother g.nodes fun n hn hp => ?_
    obtain ⟨i, hi⟩ := List.getElem?_of_mem hn
    have hfound := (h p i).mpr (by simp [pathOf, hi, hp])
    rw [hf] at hfound
    cases hfound
  | some u =>
    -- the nodes before and after the one found have other paths
    obtain ⟨n, hn, hpath⟩ := Option.map_eq_some_iff.mp ((h p u).mp hf)
    obtain ⟨before, after, hnodes⟩ := List.append_of_mem (List.mem_of_getElem? hn)
    rw [hnodes, List.map_append, List.map_cons, List.nodup_append, List.nodup_cons] at hnodup
    obtain ⟨-, ⟨hafter, -⟩, hbefore⟩ := hnodup
    have hout : g.outEdges u = n.outEdges := by simp [outEdges, hn]
    rw [hnodes, List.flatMap_append, List.flatMap_cons, List.count_append, List.count_append,
      hother before, hother after, hpath, List.count_replicate_self, Option.map_some,
      Option.getD_some, hout]
    · omega
    · intro m hm hp
      exact hafter (List.mem_map.mpr ⟨m, hm, hp.trans hpath.symm⟩)
    · intro m hm hp
      exact hbefore _ (List.mem_map.mpr ⟨m, hm, rfl⟩) _ List.mem_cons_self (hp.trans hpath.symm)

/-- What the operations keep is what the graph stands for. -/
theorem Represents.representation {given : List (List Bytes)} (hg : g.Represents given) :
    Representation given g where
  paths_nodup := hg.indexed.paths_nodup
  findNode_iff := by
    intro p i
    rw [hg.indexed p i, pathOf, Option.map_eq_some_iff]
  edge_lt := by
    intro n hn v hv
    obtain ⟨u, hu⟩ := List.getElem?_of_mem hn
    exact lt_length_of_isStep (hg.target_isStep u v (by simpa [outEdges, hu] using hv))
  node_of_step := by
    intro k hk
    obtain ⟨v, hv⟩ := hg.node_of_step k _ (List.getElem?_eq_getElem hk)
    obtain ⟨n, hn, hid⟩ := Option.bind_eq_some_iff.mp hv
    refine ⟨v, ⟨n, hn, hid⟩, ?_⟩
    -- both nodes have the output of the step as their path
    rintro w ⟨m, hm, hid'⟩
    have hw : g.stepIdOf w = some k := Option.bind_eq_some_iff.mpr ⟨m, hm, hid'⟩
    obtain ⟨st, hst, hpath⟩ := hg.step_of_node v k hv
    obtain ⟨st', hst', hpath'⟩ := hg.step_of_node w k hw
    obtain rfl := Option.some.inj (hst.symm.trans hst')
    have hfound := (hg.indexed _ _).mpr hpath
    rw [(hg.indexed _ _).mpr hpath'] at hfound
    exact Option.some.inj hfound
  step_of_node := by
    intro n hn k hid
    obtain ⟨v, hv⟩ := List.getElem?_of_mem hn
    obtain ⟨st, hst, hpath⟩ :=
      hg.step_of_node v k (Option.bind_eq_some_iff.mpr ⟨n, hv, hid⟩)
    exact ⟨st, hst, by simpa [pathOf, hv] using hpath⟩
  length_given := hg.length_given
  inEdges_perm := by
    intro v n k st before hn hid hst hbefore
    rw [List.perm_iff_count]
    intro p
    rw [List.count_append, hg.indexed.count_inEdges]
    exact hg.edgeCount_eq v k st before (Option.bind_eq_some_iff.mpr ⟨n, hn, hid⟩) hst hbefore p
  inEdges_source := by
    intro v n hn hid
    refine List.flatMap_eq_nil_iff.mpr fun m hm => ?_
    rw [List.replicate_eq_nil_iff, List.count_eq_zero]
    intro hv
    obtain ⟨u, hu⟩ := List.getElem?_of_mem hm
    have hstep := hg.target_isStep u v (by simpa [outEdges, hu] using hv)
    simp [isStep, hn, hid] at hstep

/-- A rejected call leaves the graph as it was: the output had a node. -/
theorem tryAddStep_error {e : Bytes} (h : g.tryAddStep read step = (g', .error e)) : g' = g := by
  unfold tryAddStep at h
  split at h
  · cases h
  · next e' hadd =>
    obtain ⟨rfl, -⟩ := Prod.mk.inj h
    unfold getOrCreateNode
    cases hf : g.findNode step.output with
    | some i => rfl
    | none =>
      -- a new node has no step, so the call is not rejected
      exfalso
      simp [addStep, getOrCreateNode, hf] at hadd

theorem tryAddStep_ok {k : ℕ} (h : g.tryAddStep read step = (g', .ok k)) :
    g.addStep read step = .ok g' ∧ k = g.steps.length := by
  unfold tryAddStep at h
  split at h
  · next hadd =>
    obtain ⟨rfl, heq⟩ := Prod.mk.inj h
    exact ⟨hadd, (Except.ok.inj heq).symm⟩
  · cases h

theorem represents_empty : BuildGraph.empty.Represents [] :=
  wellFormed_iff_represents.mp wellFormed_empty

/-- Every call keeps the invariant. -/
theorem Represents.runCall {s : BuildGraph × List (List Bytes)} (hs : s.1.Represents s.2)
    (c : Call) : (runCall s c).1.Represents (runCall s c).2 := by
  unfold BuildGraph.runCall
  split
  · next g' k h => exact hs.addStep (tryAddStep_ok h).1
  · next g' e h =>
    rw [tryAddStep_error h]
    exact hs

theorem represents_runCalls (calls : List Call) :
    (runCalls calls).1.Represents (runCalls calls).2 := by
  have hfold : ∀ s : BuildGraph × List (List Bytes), s.1.Represents s.2 →
      (calls.foldl BuildGraph.runCall s).1.Represents (calls.foldl BuildGraph.runCall s).2 := by
    induction calls with
    | nil => exact fun s hs => hs
    | cons c calls ih => exact fun s hs => ih _ (hs.runCall c)
  exact hfold _ represents_empty

theorem Called.linked (h : g.Called) : g.Linked := by
  obtain ⟨calls, rfl⟩ := h
  exact (represents_runCalls calls).linked

/-- The graphs whose steps came without dependency-file inputs are among them. -/
theorem Built.called (h : g.Built) : g.Called := by
  induction h with
  | empty => exact ⟨[], rfl⟩
  | @addStep g g' read step _ _ hadd ih =>
    obtain ⟨calls, rfl⟩ := ih
    refine ⟨calls ++ [⟨step, read⟩], ?_⟩
    rw [runCalls, List.foldl_append, List.foldl_cons, List.foldl_nil]
    change (runCall (runCalls calls) ⟨step, read⟩).1 = g'
    simp [runCall, tryAddStep, hadd]

/-- After any calls the parts of the graph say the same thing, and a further call that is rejected
changes none of them. -/
theorem representation_of_calls (calls : List Call) :
    Representation (runCalls calls).2 (runCalls calls).1 ∧
      ∀ read step g' e, (runCalls calls).1.tryAddStep read step = (g', .error e) →
        g' = (runCalls calls).1 :=
  ⟨(represents_runCalls calls).representation, fun _ _ _ _ h => tryAddStep_error h⟩

/-- A linker step that comes with a dependency-file input. -/
def preset : BuildStep :=
  { tool := ascii "ld", inputs := ascii "m.o", output := ascii "app"
    depfileInputs := some [ascii "m.h"] }

/-- The dependency-file inputs that a step comes with get no edges. -/
theorem not_all_inputs : ¬ ∀ (calls : List Call) (v : ℕ) (n : Node) (k : ℕ) (st : BuildStep),
    (runCalls calls).1.nodes[v]? = some n → n.stepId = some k →
    (runCalls calls).1.steps[k]? = some st →
    ((runCalls calls).1.inEdges v).Perm st.allInputs := by
  intro hall
  have hperm := hall [⟨preset, fun _ => none⟩] 0 ⟨ascii "app", [], some 0⟩ 0
    { preset with parsedInputs := [ascii "m.o"] } (by decide +kernel) rfl (by decide +kernel)
  exact absurd hperm.length_eq (by decide +kernel)

end Representation

end BuildGraph

end Cob
