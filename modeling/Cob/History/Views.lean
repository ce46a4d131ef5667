import Cob.Executor.CommandRecord
import Cob.Graph.Mapping

/-!
# The pool over a graph with other paths

When a mapped dependency file is rewritten in place, the workers go on with other bytes in some
paths. Which node is produced by which step, its edges and the commands of the steps are as they
were, so the moves of the pool and the record of the commands do not see the difference.
-/

namespace Cob

open BuildGraph

section Pool

variable {D C L : Type} {f : Bytes → Bytes} {g : BuildGraph}

theorem poolStep_renamed (sem : StepSemantics D C L) (cfg : PoolConfig) (s : State D C)
    (a : Action L) : poolStep sem cfg (g.renamed f) s a = poolStep sem cfg g s a := by
  have hworker : workerStep sem cfg (g.renamed f) = workerStep sem cfg g := by
    funext sh d pc label
    cases pc <;> simp [workerStep]
  cases a <;> simp [poolStep, hworker]

theorem Accounted.renamed {s : State D C} (h : Accounted g s) : Accounted (g.renamed f) s := by
  have hedges : ∀ pc : Pc C, pc.edges (g.renamed f) = pc.edges g := by
    intro pc
    cases pc <;> simp [Pc.edges]
  have hout : ∀ v, outstanding (g.renamed f) s v = outstanding g s v := by
    intro v
    simp [outstanding, owed, hedges]
  exact ⟨h.accepted, by simpa using h.capacity_eq, h.dequeuePos_le,
    by simpa [hedges] using h.edges_isStep, by simpa [hout] using h.degree,
    by simpa [hout] using h.handedOut, h.dequeued, h.started⟩

end Pool

/-- The context with other bytes in the paths that may be views. -/
def StepContext.renamed (f : Bytes → Bytes) (ctx : StepContext) : StepContext :=
  { ctx with graph := ctx.graph.renamed f }

section Record

variable {f : Bytes → Bytes} {g : BuildGraph} {ctx : StepContext} {disk disk₀ : Disk}
  {V : Set (List Bytes)} {s : State BuildData Call} {k : ℕ} {st : BuildStep}

theorem noRsp_renamed : NoRsp (g.renamed f) disk ↔ NoRsp g disk := by
  simp only [NoRsp, BuildGraph.renamed, List.forall_mem_map]
  rfl

theorem of_getElem?_renamed (h : (g.renamed f).steps[k]? = some st) :
    ∃ st₀, g.steps[k]? = some st₀ ∧ st = st₀.renamed f := by
  rw [getElem?_steps_renamed] at h
  obtain ⟨st₀, hst₀, rfl⟩ := Option.map_eq_some_iff.mp h
  exact ⟨st₀, hst₀, rfl⟩

theorem getElem?_renamed (h : g.steps[k]? = some st) :
    (g.renamed f).steps[k]? = some (st.renamed f) := by
  rw [getElem?_steps_renamed, h]
  rfl

theorem callRecorded_renamed {d : BuildData} {call : Call} :
    CallRecorded (ctx.renamed f) d (st.renamed f) k call ↔ CallRecorded ctx d st k call := by
  cases call <;> exact Iff.rfl

theorem Recorded.renamed (h : Recorded ctx disk₀ s) : Recorded (ctx.renamed f) disk₀ s where
  data := by
    refine ⟨noRsp_renamed.mpr h.data.rsp, fun k st hk => ?_, fun k st cmd hk => ?_⟩
    · obtain ⟨st₀, hst₀, rfl⟩ := of_getElem?_renamed hk
      exact h.data.kept k st₀ hst₀
    · obtain ⟨st₀, hst₀, rfl⟩ := of_getElem?_renamed hk
      exact h.data.wrote k st₀ cmd hst₀
  calls v call st k hmem hk hv := by
    obtain ⟨st₀, hst₀, rfl⟩ := of_getElem?_renamed hk
    have hv₀ := (stepIdOf_renamed v).symm.trans hv
    exact callRecorded_renamed.mpr (h.calls v call st₀ k hmem hst₀ hv₀)
  unstarted v k hv := h.unstarted v k ((stepIdOf_renamed v).symm.trans hv)
  committed v k st hv hk := by
    obtain ⟨st₀, hst₀, rfl⟩ := of_getElem?_renamed hk
    exact h.committed v k st₀ ((stepIdOf_renamed v).symm.trans hv) hst₀
  succeeded v k st hv hk := by
    obtain ⟨st₀, hst₀, rfl⟩ := of_getElem?_renamed hk
    exact h.succeeded v k st₀ ((stepIdOf_renamed v).symm.trans hv) hst₀

theorem Recorded.of_renamed (h : Recorded (ctx.renamed f) disk₀ s) : Recorded ctx disk₀ s where
  data := by
    refine ⟨noRsp_renamed.mp h.data.rsp, fun k st hk => ?_, fun k st cmd hk => ?_⟩
    · exact h.data.kept k (st.renamed f) (getElem?_renamed hk)
    · exact h.data.wrote k (st.renamed f) cmd (getElem?_renamed hk)
  calls v call st k hmem hk hv := by
    have hv' : (ctx.graph.renamed f).stepIdOf v = some k := (stepIdOf_renamed v).trans hv
    exact callRecorded_renamed.mp
      (h.calls v call (st.renamed f) k hmem (getElem?_renamed hk) hv')
  unstarted v k hv := h.unstarted v k ((stepIdOf_renamed v).trans hv)
  committed v k st hv hk :=
    h.committed v k (st.renamed f) ((stepIdOf_renamed v).trans hv) (getElem?_renamed hk)
  succeeded v k st hv hk :=
    h.succeeded v k (st.renamed f) ((stepIdOf_renamed v).trans hv) (getElem?_renamed hk)

theorem Promised.renamed (h : Promised ctx V disk₀) : Promised (ctx.renamed f) V disk₀ where
  linked := h.linked.renamed
  dryRun := h.dryRun
  separates := h.separates
  vectors st hst := by
    obtain ⟨st₀, hst₀, rfl⟩ := List.mem_map.mp hst
    exact h.vectors st₀ hst₀
  matched st hst := by
    obtain ⟨st₀, hst₀, rfl⟩ := List.mem_map.mp hst
    exact h.matched st₀ hst₀

end Record

end Cob
