import Cob.Executor.CompDB
import Cob.Executor.Reproducible
import Cob.Graph.TopoSort

/-!
# Printing the commands

`emitCommands`, which `-t commands` calls: the commands of all steps in the order that `topoSort`
gives, one to a line. It asks neither the times nor the cache, so it prints what a build of
everything runs.

* `emitCommands` — the text;
* `commandLines_pairwise` — no line comes before one that makes its inputs;
* `commands_of_build` — a successful build runs the printed lines of the steps downstream of what
  was out of date, and no other commands.
-/

namespace Cob

open BuildGraph

/-! ### The text -/

/-- The steps that are printed, with their commands. -/
def commandLines (ctx : StepContext) (disk : Disk) (order : List ℕ) : List (ℕ × List Bytes) :=
  order.filterMap fun v => (ctx.graph.stepIdOf v).bind fun k =>
    (ctx.graph.steps[k]?).map fun st => (k, (ctx.commandOn disk st).args)

/-- A line. -/
def commandText (line : ℕ × List Bytes) : Bytes :=
  CompDB.separated (ascii " ") line.2 ++ [chr '\n']

/-- `emitCommands`. -/
def emitCommands (ctx : StepContext) (disk : Disk) : Except Bytes Bytes :=
  match ctx.graph.topoSort with
  | .ok order => .ok ((commandLines ctx disk order).flatMap commandText)
  | .error e => .error e

section Lines

variable {ctx : StepContext} {disk : Disk} {order : List ℕ}

/-- The step of one line makes an input of the step of the other. -/
def Feeds (g : BuildGraph) (a b : ℕ × List Bytes) : Prop :=
  ∃ u v, g.stepIdOf u = some a.1 ∧ g.stepIdOf v = some b.1 ∧ g.Edge u v

/-- A line shows the command of a step. -/
theorem mem_commandLines {k : ℕ} {args : List Bytes} :
    (k, args) ∈ commandLines ctx disk order ↔ ∃ v ∈ order, ctx.graph.stepIdOf v = some k ∧
      ∃ st, ctx.graph.steps[k]? = some st ∧ args = (ctx.commandOn disk st).args := by
  simp only [commandLines, List.mem_filterMap, Option.bind_eq_some_iff, Option.map_eq_some_iff,
    Prod.mk.injEq]
  constructor
  · rintro ⟨v, hv, k', hk, st, hst, rfl, rfl⟩
    exact ⟨v, hv, hk, st, hst, rfl⟩
  · rintro ⟨v, hv, hk, st, hst, rfl⟩
    exact ⟨v, hv, k, hk, st, hst, rfl, rfl⟩

/-- `topoSort` gives every node once, and the source of an edge before its target. -/
theorem order_of_topoSort (hg : ctx.graph.WellFormed) (h : ctx.graph.topoSort = .ok order) :
    order.Perm (List.range ctx.graph.nodes.length) ∧
      order.Pairwise fun a b => ¬ ctx.graph.Edge b a := by
  have hvalid : ctx.graph.ValidEdges := fun u v hedge => (hg.linked.edge_lt hedge).2
  obtain ⟨hperm, hsorted⟩ := Dfs.topoSort_ok hvalid.dfs (topoSort_eq_ok.mp h)
  rw [dfs_edge_eq] at hsorted
  have hnodup : order.Nodup := hperm.nodup_iff.mpr List.nodup_range
  refine ⟨hperm, List.pairwise_iff_getElem.mpr fun i j hi hj hlt hedge => ?_⟩
  have hlater := hsorted _ hedge.lt_length _ hedge
  rw [hnodup.idxOf_getElem, hnodup.idxOf_getElem] at hlater
  omega

/-- The printed steps are those of the nodes. -/
theorem map_fst_commandLines (hg : ctx.graph.WellFormed) :
    (commandLines ctx disk order).map Prod.fst = order.filterMap ctx.graph.stepIdOf := by
  rw [commandLines, List.map_filterMap]
  congr 1
  ext1 v
  cases hk : ctx.graph.stepIdOf v with
  | none => rfl
  | some k =>
    obtain ⟨st, hst, -⟩ := hg.step_of_node v k hk
    rw [Option.bind_some, hst]
    rfl

/-- Every step is printed, and none of them twice. -/
theorem commandLines_perm (hg : ctx.graph.WellFormed) (h : ctx.graph.topoSort = .ok order) :
    ((commandLines ctx disk order).map Prod.fst).Perm (List.range ctx.graph.steps.length) := by
  obtain ⟨hperm, -⟩ := order_of_topoSort hg h
  have hnodup : order.Nodup := hperm.nodup_iff.mpr List.nodup_range
  rw [map_fst_commandLines hg]
  refine (List.perm_ext_iff_of_nodup (hnodup.filterMap ?_) List.nodup_range).mpr fun k => ?_
  · intro u v k hu hv
    exact hg.stepIdOf_inj hu hv
  · rw [List.mem_filterMap, List.mem_range]
    constructor
    · rintro ⟨v, -, hk⟩
      obtain ⟨st, hst, -⟩ := hg.step_of_node v k hk
      exact (List.getElem?_eq_some_iff.mp hst).1
    · intro hlt
      obtain ⟨v, hv⟩ := hg.node_of_step k _ (List.getElem?_eq_getElem hlt)
      refine ⟨v, hperm.mem_iff.mpr (List.mem_range.mpr ?_), hv⟩
      exact lt_length_of_isStep (by rw [isStep_eq, hv]; rfl)

/-- No line comes before one that makes its inputs. -/
theorem commandLines_pairwise (hg : ctx.graph.WellFormed) (h : ctx.graph.topoSort = .ok order) :
    (commandLines ctx disk order).Pairwise fun a b => ¬ Feeds ctx.graph b a := by
  obtain ⟨-, hpairwise⟩ := order_of_topoSort hg h
  refine hpairwise.filterMap _ fun u v hnot a ha b hb => ?_
  rintro ⟨v', u', hv', hu', hedge⟩
  simp only [Option.bind_eq_some_iff, Option.map_eq_some_iff] at ha hb
  obtain ⟨k, hk, st, -, rfl⟩ := ha
  obtain ⟨k', hk', st', -, rfl⟩ := hb
  obtain rfl := hg.stepIdOf_inj hv' hk'
  obtain rfl := hg.stepIdOf_inj hu' hk
  exact hnot hedge

end Lines

section Build

variable {ctx : StepContext} {cfg : PoolConfig} {disk₀ : Disk} {s : State BuildData Call}

/-- The record of what ran, newest first: it is about steps, and none feeds an older one. -/
def ranInvariant (ctx : StepContext) : CallInvariant where
  data d := (∀ r ∈ d.ran, ∃ v, ctx.graph.stepIdOf v = some r.1) ∧
    (d.ran.map fun r => (r.1, r.2.args)).Pairwise fun a b => ¬ Feeds ctx.graph a b
  before _ _ := True
  during _ _ _ := True
  after _ _ := True

theorem ran_ordered (hg : ctx.graph.WellFormed) (hsep : Separate ctx) (hsteady : RspSteady ctx)
    (h : (poolMachine (processStep ctx) cfg ctx.graph (.start ctx disk₀)).Reachable s) :
    (ranInvariant ctx).Holds ctx.graph s := by
  refine CallInvariant.holds _ hg ⟨⟨?_, List.Pairwise.nil⟩, fun _ => trivial⟩
    (fun _ _ _ _ => trivial) ?_ ?_ h
  · intro r hr
    cases hr
  · intro s v k st call d' r hs hI
    refine ⟨?_, fun _ _ => trivial, fun _ => trivial⟩
    have hdemand := demand hg hsep hsteady hs.reachable
    cases hs.advance.touch with
    | quiet _ _ hran =>
      show (∀ r ∈ d'.ran, _) ∧ List.Pairwise _ (d'.ran.map _)
      rw [hran]
      exact hI.data
    | commit => exact hI.data
    | exited =>
      refine ⟨fun r hr => ?_, List.pairwise_cons.mpr ⟨fun b hb => ?_, hI.data.2⟩⟩
      · rcases List.mem_cons.mp hr with rfl | hold
        · exact ⟨v, hs.stepIdOf⟩
        · exact hI.data.1 r hold
      · -- what ran before was started, so nothing that it waits for still runs
        obtain ⟨r, hr, rfl⟩ := List.mem_map.mp hb
        rintro ⟨v', u, hv', hu, hedge⟩
        obtain rfl := hg.stepIdOf_inj hv' hs.stepIdOf
        refine hs.not_edge hg ?_ hedge
        by_contra hno
        have hstep : ctx.graph.isStep u = true := by rw [isStep_eq, hu]; rfl
        exact hdemand.before u hstep hno ⟨r.1, hu, r.2, hr⟩
  · intros
    exact ⟨fun _ _ => trivial, fun _ _ _ => trivial, fun _ _ => trivial⟩

/-- What ran is printed, and of the printed commands those ran whose steps were rebuilt. -/
theorem mem_ran_iff (hg : ctx.graph.WellFormed) (hdata : DataLeft ctx disk₀ s.data)
    (hids : ∀ r ∈ s.data.ran, ∃ v, ctx.graph.stepIdOf v = some r.1) {order : List ℕ}
    (horder : order.Perm (List.range ctx.graph.nodes.length)) {line : ℕ × List Bytes} :
    line ∈ s.data.ran.map (fun r => (r.1, r.2.args)) ↔
      line ∈ commandLines ctx disk₀ order ∧
        ∃ v, ctx.graph.stepIdOf v = some line.1 ∧ Rebuilt ctx s.data v := by
  obtain ⟨k, args⟩ := line
  rw [List.mem_map, mem_commandLines]
  constructor
  · rintro ⟨⟨k', cmd⟩, hmem, heq⟩
    obtain ⟨rfl, rfl⟩ := Prod.mk.inj heq
    obtain ⟨v, hv⟩ := hids _ hmem
    obtain ⟨st, hst, -⟩ := hg.step_of_node v _ hv
    have hnode : v ∈ order := by
      rw [horder.mem_iff, List.mem_range]
      exact lt_length_of_isStep (by rw [isStep_eq, hv]; rfl)
    refine ⟨⟨v, hnode, hv, st, hst, ?_⟩, v, hv, k', hv, cmd, hmem⟩
    rw [hdata.command k' st cmd hst hmem]
  · rintro ⟨⟨-, -, -, st, hst, rfl⟩, v, hv, k', hv', cmd, hmem⟩
    obtain rfl : k = k' := Option.some.inj (hv.symm.trans hv')
    exact ⟨(k, cmd), hmem, by rw [hdata.command k st cmd hst hmem]⟩

/-- **Printed commands.** `-t commands` prints each step once, behind those that make its inputs. A
successful build that begins on the same disk runs the printed commands of the steps downstream of
what was out of date, each once and in such an order as well, and no others. -/
theorem commands_of_build (hg : ctx.graph.Built) (hacyclic : ctx.graph.Acyclic)
    (hsep : Separate ctx) (hsteady : RspSteady ctx) (hdry : ctx.dryRun = false)
    (h : (poolMachine (processStep ctx) cfg ctx.graph (.start ctx disk₀)).Reachable s)
    (hjoin : s.Joined cfg) (hok : s.executeResult ctx.graph = .ok ()) :
    ∃ lines, emitCommands ctx disk₀ = .ok (lines.flatMap commandText) ∧
      (lines.map Prod.fst).Perm (List.range ctx.graph.steps.length) ∧
      (lines.Pairwise fun a b => ¬ Feeds ctx.graph b a) ∧
      ((s.data.ran.reverse.map fun r => (r.1, r.2.args)).Pairwise fun a b =>
        ¬ Feeds ctx.graph b a) ∧
      ∃ kept, kept.Sublist lines ∧
        (∀ line ∈ lines, line ∈ kept ↔
          ∃ v, ctx.graph.stepIdOf v = some line.1 ∧ Downstream ctx disk₀ v) ∧
        (s.data.ran.map fun r => (r.1, r.2.args)).Perm kept := by
  classical
  have hwf := hg.wellFormed
  have hvalid : ctx.graph.ValidEdges := fun u v hedge => (hwf.linked.edge_lt hedge).2
  -- what is printed is the order of the sort; what has run is newest first in the data
  obtain ⟨order, horder⟩ := (topoSort_iff hvalid).mpr hacyclic
  obtain ⟨hids, hnewer⟩ := (ran_ordered hwf hsep hsteady h).data
  have hdata := (left hwf hsep hsteady h).data
  have hlines : ((commandLines ctx disk₀ order).map Prod.fst).Perm
      (List.range ctx.graph.steps.length) := commandLines_perm hwf horder
  refine ⟨commandLines ctx disk₀ order, by rw [emitCommands, horder], hlines,
    commandLines_pairwise hwf horder, ?_, (commandLines ctx disk₀ order).filter fun line =>
      ∃ v, ctx.graph.stepIdOf v = some line.1 ∧ Downstream ctx disk₀ v,
    List.filter_sublist, fun line hline => ?_, ?_⟩
  · rw [List.map_reverse, List.pairwise_reverse]
    exact hnewer
  · rw [List.mem_filter, decide_eq_true_iff]
    exact ⟨And.right, fun hdown => ⟨hline, hdown⟩⟩
  · -- the lines that ran and the lines that are kept are the same set, and neither repeats one
    have hsteps : (s.data.ran.map fun r => (r.1, r.2.args)).Nodup := by
      refine List.Nodup.of_map Prod.fst ?_
      rw [List.map_map]
      exact hdata.once
    have hprinted : (commandLines ctx disk₀ order).Nodup :=
      .of_map Prod.fst (hlines.nodup_iff.mpr List.nodup_range)
    refine (List.perm_ext_iff_of_nodup hsteps (hprinted.filter _)).mpr fun line => ?_
    rw [mem_ran_iff hwf hdata hids (order_of_topoSort hwf horder).1, List.mem_filter,
      decide_eq_true_iff]
    simp only [rebuilt_iff_downstream_of_ok hwf hacyclic hsep hsteady hdry h hjoin hok]

end Build

/-- The two commands are printed, and were run when the source of the first was edited. -/
theorem commands_of_build_stale : ∃ (s : State BuildData Call) (lines : List (ℕ × List Bytes)),
    (poolMachine (processStep staleContext) ⟨1, false⟩ staleGraph
      (.start staleContext staleDisk)).Reachable s ∧
    emitCommands staleContext staleDisk = .ok (lines.flatMap commandText) ∧
    (lines.map Prod.fst).Perm (List.range 2) := by
  obtain ⟨s, hreach, hjoin, hok⟩ := exists_built_stale
  obtain ⟨lines, htext, hperm, -⟩ := commands_of_build built_staleGraph acyclic_staleGraph
    separate_staleContext rspSteady_staleContext rfl hreach hjoin hok
  exact ⟨s, lines, hreach, htext, hperm⟩

end Cob
