import Cob.Graph.WellFormed
import Cob.Lib.Dfs

/-!
# Topological sorting of the build graph

`BuildGraph::topoSort` is the depth-first search over the edges of the graph. A cycle is reported
with the path of the node at which it was found.

* `topoSort_iff` — there is an order exactly when the graph has no directed cycle;
* `topological` — an order has every node once and respects the edges, and the node of an error
  lies on a cycle.
-/

namespace Cob

namespace BuildGraph

/-- The text of the error for a cycle through the node with this path. -/
def cycleError (path : Bytes) : Bytes := ascii "Cycle detected in the build graph at: " ++ path

/-- `topoSort`: the nodes, inputs before outputs, or the error that names a node of a cycle. -/
def topoSort (g : BuildGraph) : Except Bytes (List ℕ) :=
  match Dfs.topoSort g.outEdges g.nodes.length with
  | .ok order => .ok order
  | .error v => .error (cycleError ((g.pathOf v).getD []))

/-- Every edge leads to a node. -/
def ValidEdges (g : BuildGraph) : Prop := ∀ u v, g.Edge u v → v < g.nodes.length

theorem validEdges_iff {g : BuildGraph} :
    g.ValidEdges ↔ ∀ n ∈ g.nodes, ∀ v ∈ n.outEdges, v < g.nodes.length := by
  constructor
  · intro h n hn v hv
    obtain ⟨u, hu⟩ := List.getElem?_of_mem hn
    exact h u v ⟨n, hu, hv⟩
  · rintro h u v ⟨n, hn, hv⟩
    exact h n (List.mem_of_getElem? hn) v hv

instance (g : BuildGraph) : Decidable g.ValidEdges := decidable_of_iff' _ validEdges_iff

section TopoSort

variable {g : BuildGraph}

theorem dfs_edge_eq (g : BuildGraph) : Dfs.Edge g.outEdges = g.Edge := by
  ext u v
  exact edge_iff.symm

theorem Edge.lt_length {u v : ℕ} (h : g.Edge u v) : u < g.nodes.length := by
  obtain ⟨n, hn, -⟩ := h
  exact (List.getElem?_eq_some_iff.mp hn).1

theorem ValidEdges.dfs (h : g.ValidEdges) :
    ∀ u v, Dfs.Edge g.outEdges u v → v < g.nodes.length := by
  rw [dfs_edge_eq]
  exact h

theorem topoSort_eq_ok {order : List ℕ} :
    g.topoSort = .ok order ↔ Dfs.topoSort g.outEdges g.nodes.length = .ok order := by
  unfold topoSort
  split <;> simp_all

/-- There is an order exactly when the graph has no directed cycle. -/
theorem topoSort_iff (h : g.ValidEdges) : (∃ order, g.topoSort = .ok order) ↔ g.Acyclic := by
  have hiff := Dfs.exists_topoSort_iff h.dfs (by
    rw [dfs_edge_eq]
    exact fun _ _ => Edge.lt_length)
  rw [dfs_edge_eq] at hiff
  simp only [topoSort_eq_ok]
  exact hiff

/-- The error names a node on a cycle. -/
theorem mem_cycle_of_topoSort_error (h : g.ValidEdges) {e : Bytes} (he : g.topoSort = .error e) :
    ∃ (v : ℕ) (n : Node), g.nodes[v]? = some n ∧ Relation.TransGen g.Edge v v ∧
      e = cycleError n.path := by
  unfold topoSort at he
  split at he
  · cases he
  · next v hdfs =>
    obtain rfl := Except.error.inj he
    have hcycle := Dfs.topoSort_error h.dfs hdfs
    rw [dfs_edge_eq] at hcycle
    obtain ⟨w, hedge, -⟩ := Relation.TransGen.head'_iff.mp hcycle
    obtain ⟨n, hn, -⟩ := hedge
    exact ⟨v, n, hn, hcycle, by simp [pathOf, hn]⟩

/-- On a graph with valid edges `topoSort` orders the nodes exactly when there is no cycle: each
node once, the source of an edge before its target. Otherwise it names a node of a cycle. -/
theorem topological (h : g.ValidEdges) :
    ((∃ order, g.topoSort = .ok order) ↔ g.Acyclic) ∧
      (∀ order, g.topoSort = .ok order → order.Perm (List.range g.nodes.length) ∧
        ∀ u v, g.Edge u v → order.idxOf u < order.idxOf v) ∧
      ∀ e, g.topoSort = .error e → ∃ (v : ℕ) (n : Node), g.nodes[v]? = some n ∧
        Relation.TransGen g.Edge v v ∧ e = cycleError n.path := by
  refine ⟨topoSort_iff h, ?_, fun e he => mem_cycle_of_topoSort_error h he⟩
  intro order horder
  obtain ⟨hperm, hsorted⟩ := Dfs.topoSort_ok h.dfs (topoSort_eq_ok.mp horder)
  rw [dfs_edge_eq] at hsorted
  exact ⟨hperm, fun u v huv => hsorted u huv.lt_length v huv⟩

/-- A file that another one needs twice, and a file that nothing needs. -/
def parallel : BuildGraph where
  nodes := [⟨ascii "app", [], some 0⟩, ⟨ascii "a.o", [0, 0], none⟩, ⟨ascii "README", [], none⟩]
  steps := [{ tool := ascii "ld", inputs := ascii "a.o,a.o", output := ascii "app"
              parsedInputs := [ascii "a.o", ascii "a.o"] }]
  index := [(ascii "README", 2), (ascii "a.o", 1), (ascii "app", 0)]

/-- The input comes before the output. -/
theorem topological_parallel : ∃ order, parallel.topoSort = .ok order ∧
    order.Perm [0, 1, 2] ∧ order.idxOf 1 < order.idxOf 0 := by
  have htopological := topological (show parallel.ValidEdges by decide +kernel)
  obtain ⟨order, horder⟩ := htopological.1.mpr
    (acyclic_of_rank (fun v => [1, 0, 0].getD v 0) (by decide +kernel))
  obtain ⟨hperm, hsorted⟩ := htopological.2.1 order horder
  exact ⟨order, horder, hperm, hsorted 1 0 (edge_iff.mpr (by decide +kernel))⟩

end TopoSort

end BuildGraph

end Cob
