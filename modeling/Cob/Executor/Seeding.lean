import Cob.Executor.WorkerPool
import Cob.Graph.WellFormed

/-!
# The seeded pool

What `execute` has prepared before the first worker runs: the in-degrees count the edges from
produced nodes (`inDegrees_getElem?`), and the initial tasks lie published in the ready queue
(`initialState_eq`).
-/

namespace Cob

open BuildGraph

section InDegrees

/-- Changing the count of each target. -/
theorem foldl_modify_getElem? (f : ℤ → ℤ) (edges : List ℕ) (degrees : List ℤ) (v : ℕ) :
    (edges.foldl (fun degrees out => degrees.modify out f) degrees)[v]? =
      (degrees[v]?).map f^[edges.count v] := by
  induction edges generalizing degrees with
  | nil => simp
  | cons out edges ih =>
    rw [List.foldl_cons, ih, List.getElem?_modify]
    by_cases hv : out = v
    · subst hv
      rw [List.count_cons_self, Function.iterate_succ]
      simp
    · rw [List.count_cons_of_ne hv]
      simp [hv]

/-- Adding the edges of all produced nodes to the counts. -/
theorem foldl_nodes_getElem? (nodes : List Node) (degrees : List ℤ) (v : ℕ) :
    (nodes.foldl
      (fun degrees node =>
        if node.stepId.isSome then
          node.outEdges.foldl (fun degrees out => degrees.modify out (· + 1)) degrees
        else degrees) degrees)[v]? =
      (degrees[v]?).map
        (· + (tally (fun n => if n.stepId.isSome then n.outEdges.count v else 0) nodes : ℤ)) := by
  induction nodes generalizing degrees with
  | nil => simp
  | cons n nodes ih =>
    rw [List.foldl_cons, ih]
    split_ifs with hn
    · rw [foldl_modify_getElem?]
      cases degrees[v]? with
      | none => rfl
      | some k => simp [hn, add_right_iterate, add_assoc]
    · simp [hn]

/-- The in-degree of a node counts the edges from produced nodes. -/
theorem inDegrees_getElem? (g : BuildGraph) {v : ℕ} (hv : v < g.nodes.length) :
    (inDegrees g)[v]? = some (tally
      (fun u => if g.isStep u then (g.outEdges u).count v else 0)
      (List.range g.nodes.length) : ℤ) := by
  have hrange := tally_range_getElem?
    (fun n : Option Node =>
      if (n.bind Node.stepId).isSome then ((n.map Node.outEdges).getD []).count v else 0) g.nodes
  have hsame : tally (fun u => if g.isStep u then (g.outEdges u).count v else 0)
      (List.range g.nodes.length) =
      tally (fun n => if n.stepId.isSome then n.outEdges.count v else 0) g.nodes := hrange
  rw [hsame, inDegrees, foldl_nodes_getElem?]
  simp [hv]

/-- Sources and produced nodes are all the nodes. -/
theorem sourceNodes_add (g : BuildGraph) :
    sourceNodes g + (List.range g.nodes.length).countP g.isStep = g.nodes.length := by
  have hsteps : (List.range g.nodes.length).countP g.isStep =
      g.nodes.countP fun n => n.stepId.isSome := by
    have hrange := tally_range_getElem?
      (fun n : Option Node => if (n.bind Node.stepId).isSome then 1 else 0) g.nodes
    have hcount : ∀ {α : Type} (p : α → Bool) (l : List α),
        l.countP p = tally (fun a => if p a then 1 else 0) l := by
      intro α p l
      induction l with
      | nil => rfl
      | cons a l ih =>
        rw [List.countP_cons, ih, tally_cons]
        omega
    rw [hcount, hcount]
    exact hrange
  have hlen := List.length_eq_countP_add_countP (fun n : Node => n.stepId.isSome) (l := g.nodes)
  have hsource : g.nodes.countP (fun n => decide ¬n.stepId.isSome = true) = sourceNodes g := by
    refine List.countP_congr fun n _ => ?_
    simp
  omega

end InDegrees

section Seeding

/-- Adding to the counter several times. -/
theorem fetchAdd_iterate (k n : ℕ) (hn : n < 18446744073709551616) :
    fetchAdd^[k] n = (n + k) % 18446744073709551616 := by
  induction k with
  | zero => simp [Nat.mod_eq_of_lt hn]
  | succ k ih =>
    rw [Function.iterate_succ_apply', ih, fetchAdd]
    omega

/-- A published task that nobody dequeued. -/
def Cell.waiting (node : ℕ) : Cell := ⟨node, true, false⟩

theorem modify_append_singleton {α : Type} (l : List α) (a : α) (f : α → α) :
    (l ++ [a]).modify l.length f = l ++ [f a] := by
  induction l with
  | nil => simp
  | cons b l ih => simpa using ih

/-- Seeding tasks that fit into the queue publishes all of them. -/
theorem foldl_seed (order : List ℕ) (sh : Shared) (log : List Event)
    (h : sh.queue.cells.length + order.length ≤ sh.queue.capacity) :
    order.foldl seed (sh, log) =
      ({ sh with
          queue := { sh.queue with cells := sh.queue.cells ++ order.map Cell.waiting }
          tasksAvailable := fetchAdd^[order.length] sh.tasksAvailable }, log) := by
  induction order generalizing sh with
  | nil => simp
  | cons n order ih =>
    simp only [List.length_cons] at h
    have hfull : sh.queue.full = false := ReadyQueue.full_eq_false_of_lt (by omega)
    have hseed : seed (sh, log) n =
        ({ sh with
            queue := { sh.queue with cells := sh.queue.cells ++ [Cell.waiting n] }
            tasksAvailable := fetchAdd sh.tasksAvailable }, log) := by
      simp [seed, ReadyQueue.claim, hfull, ReadyQueue.publish, Cell.waiting,
        modify_append_singleton]
    rw [List.foldl_cons, hseed, ih]
    · simp
    · simp only [List.length_append, List.length_singleton]
      omega

theorem nodup_rootNodes (g : BuildGraph) : (rootNodes g).Nodup :=
  List.nodup_range.filter _

theorem length_rootNodes_le (g : BuildGraph) : (rootNodes g).length ≤ g.nodes.length := by
  simpa [rootNodes] using
    List.length_filter_le (fun i => g.isStep i && (inDegrees g)[i]? = some 0)
      (List.range g.nodes.length)

/-- The seeded pool: the initial tasks are published and nothing was recorded. -/
theorem initialState_eq {D C : Type} (g : BuildGraph) {order : List ℕ}
    (h : order.Perm (rootNodes g)) (data : D) :
    (initialState g order data : State D C) =
      { shared := { freshShared g with
          queue := ⟨bitCeil g.nodes.length, order.map Cell.waiting, 0⟩
          tasksAvailable := order.length % 18446744073709551616 }
        data, workers := [], spawning := true, log := [] } := by
  have hlen := length_rootNodes_le g
  have hcap := le_bitCeil g.nodes.length
  have hfold := foldl_seed order (freshShared g) [] (by
    simp [freshShared, ReadyQueue.create, h.length_eq]
    omega)
  unfold initialState
  rw [hfold]
  simp [freshShared, ReadyQueue.create, fetchAdd_iterate]

end Seeding

end Cob
