import Cob.Executor.Seeding
import Cob.Graph.Representation
import Cob.Graph.TopoSort

/-!
# The cycle check of `execute`

Before it starts any worker, `execute` runs Kahn's algorithm over the produced nodes
(`BuildGraph.noCycle`). Only when a node is left over does it run `topoSort`, to name a cycle.

* `KahnInv` — what holds between two edges of the pass: the remaining in-degree of a node counts
  the edges from the produced nodes that were not visited, and a node is visited or ready exactly
  when its count is zero;
* `exists_kahn` — the pass ends within as many rounds as there are nodes;
* `noCycle_iff` — it visits all produced nodes exactly when the graph has no cycle;
* `exists_completes` — in an acyclic graph, the nodes that have completed can always be followed
  by all others, each at in-degree zero.

Sources have no edges to them, so every cycle runs through produced nodes.
-/

namespace Cob

open BuildGraph

/-- The check of `execute`: the error of `topoSort`, asked only when Kahn's pass left a node
over. -/
def cycleCheck (g : BuildGraph) : Except Bytes Unit :=
  if noCycle g then .ok ()
  else
    match g.topoSort with
    | .error e => .error e
    | .ok _ => .ok ()

/-- The in-degrees after the nodes of `done` have completed. -/
def remainingAfter (g : BuildGraph) (done : List ℕ) : List ℤ :=
  done.foldl (fun degrees v => (g.outEdges v).foldl (fun d out => d.modify out (· - 1)) degrees)
    (inDegrees g)

/-- The nodes of `done` can complete in this order: each has a step, and its in-degree is zero
when its turn comes. -/
structure Completes (g : BuildGraph) (done : List ℕ) : Prop where
  nodup : done.Nodup
  ready : ∀ (a : List ℕ) (v : ℕ) (b : List ℕ), done = a ++ v :: b →
    g.isStep v = true ∧ (remainingAfter g a)[v]? = some 0

/-- The produced nodes. -/
def stepNodes (g : BuildGraph) : List ℕ := (List.range g.nodes.length).filter g.isStep

/-- The edges to `v` from produced nodes that are not in `done`. -/
def undone (g : BuildGraph) (done : List ℕ) (v : ℕ) : ℕ :=
  tally (fun u => if g.isStep u ∧ u ∉ done then (g.outEdges u).count v else 0)
    (List.range g.nodes.length)

section Undone

variable {g : BuildGraph} {done : List ℕ} {u v : ℕ}

theorem mem_stepNodes : v ∈ stepNodes g ↔ g.isStep v = true := by
  rw [stepNodes, List.mem_filter, List.mem_range]
  exact ⟨And.right, fun h => ⟨lt_length_of_isStep h, h⟩⟩

theorem nodup_stepNodes (g : BuildGraph) : (stepNodes g).Nodup := List.nodup_range.filter _

/-- Completing a node takes its edges away. -/
theorem undone_cons (hu : g.isStep u = true) (hnot : u ∉ done) (v : ℕ) :
    undone g done v = (g.outEdges u).count v + undone g (u :: done) v := by
  have hother : ∀ w ∈ List.range g.nodes.length, w ≠ u →
      (if g.isStep w ∧ w ∉ u :: done then (g.outEdges w).count v else 0) =
        if g.isStep w ∧ w ∉ done then (g.outEdges w).count v else 0 := by
    intro w _ hne
    simp [hne]
  have hupdate := tally_update
    (List.count_eq_one_of_mem List.nodup_range (List.mem_range.mpr (lt_length_of_isStep hu))) hother
  simp only [hu, hnot, not_false_eq_true, and_self, if_true, List.mem_cons, true_or,
    not_true_eq_false, and_false, if_false, add_zero] at hupdate
  unfold undone
  simp only [List.mem_cons]
  omega

/-- A node reaches zero when the produced nodes with an edge to it have completed. -/
theorem undone_eq_zero_iff :
    undone g done v = 0 ↔ ∀ u, g.Edge u v → g.isStep u = true → u ∈ done := by
  rw [undone, tally_eq_zero_iff]
  constructor
  · intro h u huv hstep
    have hzero := h u (List.mem_range.mpr (lt_length_of_isStep hstep))
    by_contra hnot
    rw [if_pos ⟨hstep, hnot⟩] at hzero
    exact List.count_eq_zero.mp hzero (edge_iff.mp huv)
  · intro h u _
    split_ifs with hu
    · exact List.count_eq_zero.mpr fun hv => hu.2 (h u (edge_iff.mpr hv) hu.1)
    · rfl

theorem inDegrees_eq_undone (g : BuildGraph) (hv : v < g.nodes.length) :
    (inDegrees g)[v]? = some (undone g [] v : ℤ) := by
  rw [inDegrees_getElem? g hv]
  simp [undone]

end Undone

/-- Sources have no edges to them. -/
def BuildGraph.EdgesToSteps (g : BuildGraph) : Prop := ∀ u v, v ∈ g.outEdges u → g.isStep v = true

/-- What holds between two edges of Kahn's pass: `edges` are those of the last visited node that
were not followed yet. -/
structure KahnInv (g : BuildGraph) (edges : List ℕ) (remaining : List ℤ) (ready done : List ℕ) :
    Prop where
  /-- The remaining in-degree. -/
  remaining_eq : ∀ v < g.nodes.length, remaining[v]? = some (edges.count v + undone g done v : ℤ)
  nodup : (ready ++ done).Nodup
  /-- A produced node is visited or ready when its in-degree is zero. -/
  mem_iff : ∀ v, v ∈ ready ++ done ↔ g.isStep v = true ∧ remaining[v]? = some 0
  edges_isStep : ∀ v ∈ edges, g.isStep v = true
  /-- No visited node lies on a cycle. -/
  acyclic : ∀ v ∈ done, ¬ Relation.TransGen g.Edge v v

section Kahn

variable {g : BuildGraph} {edges ready done : List ℕ} {remaining : List ℤ}

/-- Following one edge keeps the invariant. -/
theorem KahnInv.relax {out : ℕ} (h : KahnInv g (out :: edges) remaining ready done) :
    KahnInv g edges (relax (remaining, ready) out).1 (relax (remaining, ready) out).2 done := by
  have hout : g.isStep out = true := h.edges_isStep out List.mem_cons_self
  have hrem := h.remaining_eq out (lt_length_of_isStep hout)
  rw [List.count_cons_self] at hrem
  have hget : ∀ v, (remaining.modify out (· - 1))[v]? =
      if out = v then (remaining[v]?).map (· - 1) else remaining[v]? := by
    intro v
    rw [List.getElem?_modify]
    split_ifs <;> simp
  -- the target still counts an edge, so it is neither ready nor visited
  have hnot : out ∉ ready ++ done := by
    rw [h.mem_iff, hrem]
    simp only [Option.some.injEq, not_and]
    omega
  have hremaining : ∀ v < g.nodes.length, (remaining.modify out (· - 1))[v]? =
      some (edges.count v + undone g done v : ℤ) := by
    intro v hv
    rw [hget, h.remaining_eq v hv, List.count_cons]
    by_cases heq : out = v
    · simp [heq]
      omega
    · simp [heq]
  have hmem : ∀ v, v ≠ out → (v ∈ ready ++ done ↔
      g.isStep v = true ∧ (remaining.modify out (· - 1))[v]? = some 0) := by
    intro v hne
    rw [hget, if_neg (Ne.symm hne)]
    exact h.mem_iff v
  unfold Cob.relax
  refine ⟨hremaining, ?_, ?_, fun v hv => h.edges_isStep v (List.mem_cons_of_mem _ hv), h.acyclic⟩
  · dsimp only
    split_ifs
    · exact List.nodup_cons.mpr ⟨hnot, h.nodup⟩
    · exact h.nodup
  · intro v
    dsimp only
    by_cases heq : v = out
    · subst heq
      rw [hget, if_pos rfl, hrem]
      split_ifs with hone
      · have hzero := Option.some.inj hone
        simp [hout]
        omega
      · simp only [hnot, false_iff, Option.map_some, Option.some.injEq, not_and]
        intro _ hzero
        apply hone
        congr 1
        omega
    · rw [← hmem v heq]
      split_ifs <;> simp [heq]

/-- Following all edges of a node keeps the invariant. -/
theorem KahnInv.foldl_relax (edges : List ℕ) {p : List ℤ × List ℕ}
    (h : KahnInv g edges p.1 p.2 done) :
    KahnInv g [] (edges.foldl Cob.relax p).1 (edges.foldl Cob.relax p).2 done := by
  induction edges generalizing p with
  | nil => exact h
  | cons out edges ih => exact ih h.relax

/-- A node on a cycle has a step, and so has the node before it on the cycle. -/
theorem exists_edge_of_cycle (hg : g.EdgesToSteps) {v : ℕ}
    (hv : Relation.TransGen g.Edge v v) :
    ∃ u, g.Edge u v ∧ g.isStep u = true ∧ Relation.TransGen g.Edge u u := by
  obtain ⟨u, hvu, huv⟩ := Relation.TransGen.tail'_iff.mp hv
  have hcycle : Relation.TransGen g.Edge u u := .head' huv hvu
  obtain ⟨w, -, hwu⟩ := Relation.TransGen.tail'_iff.mp hcycle
  exact ⟨u, huv, hg w u (edge_iff.mp hwu), hcycle⟩

/-- Visiting a ready node keeps the invariant. -/
theorem KahnInv.visit (hg : g.EdgesToSteps) {node : ℕ}
    (h : KahnInv g [] remaining (node :: ready) done) :
    KahnInv g (g.outEdges node) remaining ready (node :: done) := by
  have hperm : (ready ++ node :: done).Perm (node :: ready ++ done) := List.perm_middle
  have hnode := (h.mem_iff node).mp (by simp)
  have hnodup := h.nodup
  rw [List.cons_append, List.nodup_cons, List.mem_append] at hnodup
  have hzero : undone g done node = 0 := by
    have hremaining := h.remaining_eq node (lt_length_of_isStep hnode.1)
    rw [hnode.2] at hremaining
    simpa using hremaining.symm
  refine ⟨?_, hperm.nodup_iff.mpr h.nodup, ?_, hg node, ?_⟩
  · intro v hv
    rw [h.remaining_eq v hv, undone_cons hnode.1 (fun hd => hnodup.1 (.inr hd)) v]
    simp
  · intro v
    rw [hperm.mem_iff, h.mem_iff v]
  · intro v hv hcycle
    rcases List.mem_cons.mp hv with rfl | hdone
    · -- the node before it on the cycle was visited already
      obtain ⟨u, huv, hu, hcycle'⟩ := exists_edge_of_cycle hg hcycle
      exact h.acyclic u (undone_eq_zero_iff.mp hzero u huv hu) hcycle'
    · exact h.acyclic v hdone hcycle

/-- The visited and the ready nodes are nodes. -/
theorem KahnInv.length_le (h : KahnInv g edges remaining ready done) :
    (ready ++ done).length ≤ g.nodes.length := by
  have hsub : ready ++ done ⊆ List.range g.nodes.length := fun v hv =>
    List.mem_range.mpr (lt_length_of_isStep ((h.mem_iff v).mp hv).1)
  simpa using (h.nodup.subperm hsub).length_le

/-- The pass from an intermediate state: `k` rounds end it with nothing ready, and more rounds
visit no more. -/
theorem exists_visit (hg : g.EdgesToSteps) {k : ℕ} (hk : g.nodes.length ≤ k + done.length)
    (h : KahnInv g [] remaining ready done) :
    ∃ remaining' done', KahnInv g [] remaining' [] done' ∧
      ∀ fuel, k ≤ fuel → visit g fuel remaining ready done.length = done'.length := by
  induction k generalizing remaining ready done with
  | zero =>
    have hle := h.length_le
    rw [List.length_append] at hle
    obtain rfl : ready = [] := List.eq_nil_of_length_eq_zero (by omega)
    exact ⟨remaining, done, h, fun fuel _ => by cases fuel <;> rfl⟩
  | succ k ih =>
    cases ready with
    | nil => exact ⟨remaining, done, h, fun fuel _ => by cases fuel <;> rfl⟩
    | cons node ready =>
      have hrelaxed := (h.visit hg).foldl_relax (p := (remaining, ready)) (g.outEdges node)
      obtain ⟨remaining', done', hend, hcount⟩ := ih (by rw [List.length_cons]; omega) hrelaxed
      refine ⟨remaining', done', hend, fun fuel hfuel => ?_⟩
      obtain ⟨fuel, rfl⟩ : ∃ f, fuel = f + 1 := ⟨fuel - 1, by omega⟩
      exact hcount fuel (by omega)

/-- The pass begins with the root nodes. -/
theorem kahnInv_start (g : BuildGraph) :
    KahnInv g [] (inDegrees g) (rootNodes g).reverse [] := by
  refine ⟨?_, ?_, ?_, by simp, by simp⟩
  · intro v hv
    simpa using inDegrees_eq_undone g hv
  · simpa using nodup_rootNodes g
  · intro v
    simp only [List.append_nil, List.mem_reverse, rootNodes, List.mem_filter, List.mem_range,
      Bool.and_eq_true, decide_eq_true_eq]
    exact ⟨And.right, fun hv => ⟨lt_length_of_isStep hv.1, hv⟩⟩

/-- The pass ends within as many rounds as there are nodes. -/
theorem exists_kahn (hg : g.EdgesToSteps) : ∃ remaining done, KahnInv g [] remaining [] done ∧
    ∀ fuel, g.nodes.length ≤ fuel →
      visit g fuel (inDegrees g) (rootNodes g).reverse 0 = done.length :=
  exists_visit hg (by simp) (kahnInv_start g)

/-- While a produced node of an acyclic graph is missing, one is ready. -/
theorem exists_undone_eq_zero (hacyclic : g.Acyclic) {done : List ℕ} {v : ℕ}
    (hv : g.isStep v = true) (hnot : v ∉ done) :
    ∃ u, g.isStep u = true ∧ u ∉ done ∧ undone g done u = 0 := by
  induction v using hacyclic.wellFounded.induction with
  | _ v ih =>
    by_cases hzero : undone g done v = 0
    · exact ⟨v, hv, hnot, hzero⟩
    · -- an edge comes from a node that is missing as well
      rw [undone_eq_zero_iff] at hzero
      push Not at hzero
      obtain ⟨u, huv, hu, hmissing⟩ := hzero
      exact ih u huv hu hmissing

/-- At the end of the pass all produced nodes were visited, or some node lies on a cycle. -/
theorem KahnInv.forall_mem_iff (hg : g.EdgesToSteps) (h : KahnInv g [] remaining [] done) :
    (∀ v, g.isStep v = true → v ∈ done) ↔ g.Acyclic := by
  constructor
  · intro hall v hcycle
    obtain ⟨u, -, huv⟩ := Relation.TransGen.tail'_iff.mp hcycle
    exact h.acyclic v (hall v (hg u v (edge_iff.mp huv))) hcycle
  · intro hacyclic v hv
    by_contra hnot
    obtain ⟨u, hu, hmissing, hzero⟩ := exists_undone_eq_zero hacyclic hv hnot
    -- a produced node without edges left was visited
    refine hmissing ((h.mem_iff u).mpr ⟨hu, ?_⟩)
    rw [h.remaining_eq u (lt_length_of_isStep hu), hzero]
    simp

theorem length_stepNodes (g : BuildGraph) :
    (stepNodes g).length + sourceNodes g = g.nodes.length := by
  rw [add_comm, stepNodes, ← List.countP_eq_length_filter]
  exact sourceNodes_add g

/-- Step nodes without repetition are all of them when their number is right. -/
theorem length_eq_iff {done : List ℕ} (hnodup : done.Nodup) (hsub : ∀ v ∈ done, g.isStep v = true) :
    done.length = (stepNodes g).length ↔ ∀ v, g.isStep v = true → v ∈ done := by
  have hsubset : done ⊆ stepNodes g := fun v hv => mem_stepNodes.mpr (hsub v hv)
  constructor
  · intro hlen v hv
    have hperm := (hnodup.subperm hsubset).perm_of_length_le hlen.ge
    exact hperm.mem_iff.mpr (mem_stepNodes.mpr hv)
  · intro hall
    refine ((List.perm_ext_iff_of_nodup hnodup (nodup_stepNodes g)).mpr fun v => ?_).length_eq
    rw [mem_stepNodes]
    exact ⟨hsub v, hall v⟩

/-- The pass visits all produced nodes exactly when the graph has no cycle. -/
theorem noCycle_iff (hg : g.EdgesToSteps) : noCycle g = true ↔ g.Acyclic := by
  obtain ⟨remaining, done, h, hcount⟩ := exists_kahn hg
  have hlength := length_eq_iff h.nodup fun v hv => ((h.mem_iff v).mp hv).1
  have hsteps := length_stepNodes g
  rw [← h.forall_mem_iff hg]
  simp only [List.nil_append] at hlength
  rw [← hlength, noCycle, decide_eq_true_eq, hcount _ le_rfl]
  omega

theorem BuildGraph.EdgesToSteps.validEdges (hg : g.EdgesToSteps) : g.ValidEdges :=
  fun u v huv => lt_length_of_isStep (hg u v (edge_iff.mp huv))

/-- Kahn's pass leaves a node over exactly when `topoSort` fails. -/
theorem noCycle_eq_false_iff (hg : g.EdgesToSteps) :
    noCycle g = false ↔ ∃ e, g.topoSort = .error e := by
  rw [← Bool.not_eq_true, noCycle_iff hg, ← topoSort_iff hg.validEdges]
  cases g.topoSort <;> simp

/-- `execute` reports a cycle exactly for cyclic graphs. -/
theorem cycleCheck_error_iff (hg : g.EdgesToSteps) :
    (∃ e, cycleCheck g = .error e) ↔ ¬ g.Acyclic := by
  rw [← noCycle_iff hg, Bool.not_eq_true, noCycle_eq_false_iff hg]
  unfold cycleCheck
  split_ifs with h
  · -- `topoSort` would have succeeded as well
    have hok := (noCycle_eq_false_iff hg).not.mp (by simp [h])
    simpa using hok
  · cases g.topoSort <;> simp

end Kahn

section Completes

variable {g : BuildGraph} {done : List ℕ}

theorem undone_congr {done' : List ℕ} (h : ∀ u, u ∈ done ↔ u ∈ done') (v : ℕ) :
    undone g done v = undone g done' v := by
  simp only [undone, h]

/-- The in-degrees that the workers have reached after some nodes completed. -/
theorem remainingAfter_getElem? (hnodup : done.Nodup) (hsteps : ∀ v ∈ done, g.isStep v = true)
    {v : ℕ} (hv : v < g.nodes.length) :
    (remainingAfter g done)[v]? = some (undone g done v : ℤ) := by
  induction done using List.reverseRecOn with
  | nil => exact inDegrees_eq_undone g hv
  | append_singleton done u ih =>
    rw [List.nodup_append] at hnodup
    have hu : u ∉ done := fun hu => hnodup.2.2 u hu u (List.mem_singleton.mpr rfl) rfl
    have hbefore := ih hnodup.1 fun w hw => hsteps w (List.mem_append_left _ hw)
    rw [undone_cons (hsteps u (by simp)) hu v] at hbefore
    have hsame : undone g (u :: done) v = undone g (done ++ [u]) v :=
      undone_congr (by simp [or_comm]) v
    unfold remainingAfter at hbefore ⊢
    rw [List.foldl_append, List.foldl_cons, List.foldl_nil, foldl_modify_getElem?, hbefore, ← hsame]
    simp [sub_eq_add_neg, add_right_iterate]

/-- A missing node at in-degree zero can complete next. -/
theorem Completes.snoc {u : ℕ} (h : Completes g done) (hu : g.isStep u = true) (hnot : u ∉ done)
    (hzero : (remainingAfter g done)[u]? = some 0) : Completes g (done ++ [u]) := by
  refine ⟨?_, ?_⟩
  · rw [List.nodup_append]
    refine ⟨h.nodup, List.nodup_singleton u, fun v hv w hw => ?_⟩
    rw [List.mem_singleton.mp hw]
    exact fun heq => hnot (heq ▸ hv)
  · intro a v b heq
    rcases List.eq_nil_or_concat b with rfl | ⟨b, x, rfl⟩
    · obtain ⟨rfl, hv⟩ := List.append_inj' heq rfl
      obtain rfl := (List.cons.inj hv).1
      exact ⟨hu, hzero⟩
    · rw [List.concat_eq_append, ← List.cons_append, ← List.append_assoc] at heq
      exact h.ready a v b (List.append_inj' heq rfl).1

theorem Completes.isStep (h : Completes g done) : ∀ v ∈ done, g.isStep v = true := by
  intro v hv
  obtain ⟨a, b, rfl⟩ := List.append_of_mem hv
  exact (h.ready a v b rfl).1

/-- In an acyclic graph the nodes that have completed can be followed by all others. -/
theorem exists_completes (hacyclic : g.Acyclic) (h : Completes g done) :
    ∃ rest, Completes g (done ++ rest) ∧ (done ++ rest).Perm (stepNodes g) := by
  have hsubset : done ⊆ stepNodes g := fun v hv => mem_stepNodes.mpr (h.isStep v hv)
  have hsubperm := h.nodup.subperm hsubset
  -- by induction on the number of missing nodes
  induction hk : (stepNodes g).length - done.length generalizing done with
  | zero =>
    refine ⟨[], by simpa using h, ?_⟩
    rw [List.append_nil]
    exact hsubperm.perm_of_length_le (by omega)
  | succ k ih =>
    obtain ⟨v, hv, hnot⟩ : ∃ v, g.isStep v = true ∧ v ∉ done := by
      by_contra hall
      push Not at hall
      have hlen := (length_eq_iff h.nodup h.isStep).mpr hall
      omega
    obtain ⟨u, hu, hmissing, hzero⟩ := exists_undone_eq_zero hacyclic hv hnot
    have hremaining := remainingAfter_getElem? h.nodup h.isStep (lt_length_of_isStep hu)
    rw [hzero] at hremaining
    have hsnoc := h.snoc hu hmissing (by simpa using hremaining)
    have hsubset' : done ++ [u] ⊆ stepNodes g := fun w hw => mem_stepNodes.mpr (hsnoc.isStep w hw)
    obtain ⟨rest, hrest, hperm⟩ := ih hsnoc hsubset' (hsnoc.nodup.subperm hsubset')
      (by rw [List.length_append, List.length_singleton]; omega)
    rw [List.append_assoc] at hrest hperm
    exact ⟨[u] ++ rest, hrest, hperm⟩

end Completes

/-- For a graph made by any calls of `addStep`: Kahn's pass of `execute` ends within as many rounds
as there are nodes, and leaves a node over exactly when `topoSort` fails. So `execute` reports a
cycle exactly for cyclic graphs; and when there is none, the completed nodes can always be followed
by all other produced nodes, each at in-degree zero. -/
theorem kahn_agrees (calls : List BuildGraph.Call) :
    (∀ fuel, (runCalls calls).1.nodes.length ≤ fuel →
      visit (runCalls calls).1 fuel (inDegrees (runCalls calls).1)
          (rootNodes (runCalls calls).1).reverse 0 =
        visit (runCalls calls).1 (runCalls calls).1.nodes.length (inDegrees (runCalls calls).1)
          (rootNodes (runCalls calls).1).reverse 0) ∧
      (noCycle (runCalls calls).1 = false ↔ ∃ e, (runCalls calls).1.topoSort = .error e) ∧
      ((∃ e, cycleCheck (runCalls calls).1 = .error e) ↔ ¬ (runCalls calls).1.Acyclic) ∧
      ((runCalls calls).1.Acyclic → ∀ done, Completes (runCalls calls).1 done →
        ∃ rest, Completes (runCalls calls).1 (done ++ rest) ∧
          (done ++ rest).Perm (stepNodes (runCalls calls).1)) := by
  have hg : (runCalls calls).1.EdgesToSteps := (represents_runCalls calls).target_isStep
  obtain ⟨remaining, done, -, hcount⟩ := exists_kahn hg
  refine ⟨?_, noCycle_eq_false_iff hg, cycleCheck_error_iff hg,
    fun hacyclic done hdone => exists_completes hacyclic hdone⟩
  intro fuel hfuel
  rw [hcount fuel hfuel, hcount _ le_rfl]

end Cob
