import Cob.Disk
import Cob.Graph.WellFormed

/-!
# Modification times of the nodes

`Executor::NodeTimes`: the summaries of the source inputs, folded once along the edges, the
produced inputs of each node, and the slots that cache the times of produced files. The threads
that `statSources` may split its work over write disjoint entries, so the split does not show.

The module ends with what the summaries mean: when the summary of a node says unchanged, its
source inputs all exist and are older (`older_of_not_sourcesChanged`).
-/

namespace Cob

open BuildGraph

/-- `SourceSummary`. -/
structure SourceSummary where
  /-- For a source its own time, for any other node the newest of its source inputs. -/
  newest : FileTime := 0
  missing : Bool := false
  any : Bool := false
  deriving DecidableEq

namespace NodeTimes

/-- `statSources`: the time of every source that something depends on. -/
def statSources (g : BuildGraph) (disk : Disk) : List SourceSummary :=
  g.nodes.map fun n =>
    if n.stepId.isNone ∧ n.outEdges ≠ [] then
      { newest := (disk.mtime n.path).getD 0, missing := (disk.mtime n.path).isNone }
    else {}

/-- Folding the time of a source into the summary of a dependent. -/
def addSource (time summary : SourceSummary) : SourceSummary :=
  if time.missing then { summary with missing := true, any := true }
  else { summary with newest := max summary.newest time.newest, any := true }

/-- The loop body of the constructor: node `i` hands its time to its dependents. -/
def foldSource (g : BuildGraph) (sources : List SourceSummary) (i : ℕ) : List SourceSummary :=
  if g.isStep i then sources
  else
    let time := sources[i]?.getD {}
    (g.outEdges i).foldl (fun sources out => sources.modify out (addSource time)) sources

/-- The summaries after the constructor. -/
def sourceSummaries (g : BuildGraph) (disk : Disk) : List SourceSummary :=
  (List.range g.nodes.length).foldl (foldSource g) (statSources g disk)

/-- `summary.any && (summary.missing || summary.newest >= output_time)`. -/
def sourcesChanged (summary : SourceSummary) (outputTime : FileTime) : Bool :=
  summary.any && (summary.missing || decide (outputTime ≤ summary.newest))

/-- `produced_in_nodes` between the offsets of `node`: its produced inputs, one entry for each
edge, in node order. -/
def producedIn (g : BuildGraph) (node : ℕ) : List ℕ :=
  (List.range g.nodes.length).flatMap fun i =>
    if g.isStep i then List.replicate ((g.outEdges i).count node) i else []

/-- The states of a slot. -/
inductive SlotState where
  | unknown
  | busy
  | ready
  deriving DecidableEq

/-- `Slot`. -/
structure Slot where
  state : SlotState := .unknown
  missing : Bool := false
  time : FileTime := 0
  deriving DecidableEq

/-- A filled slot. -/
def Slot.filled (time : Option FileTime) : Slot := ⟨.ready, time.isNone, time.getD 0⟩

/-- `ec || time >= output_time`. -/
def changed (time : Option FileTime) (outputTime : FileTime) : Bool :=
  time.all fun t => decide (outputTime ≤ t)

/-- `slot.missing || slot.time >= output_time`. -/
def Slot.changed (slot : Slot) (outputTime : FileTime) : Bool :=
  slot.missing || decide (outputTime ≤ slot.time)

/-- A filled slot answers as the time it was filled with. -/
theorem changed_filled (time : Option FileTime) (outputTime : FileTime) :
    (Slot.filled time).changed outputTime = changed time outputTime := by
  cases time <;> rfl

/-- An input is unchanged exactly when it exists and is older. -/
theorem changed_eq_false_iff {time : Option FileTime} {outputTime : FileTime} :
    changed time outputTime = false ↔ ∃ t, time = some t ∧ t < outputTime := by
  cases time <;> simp [changed]

section Summaries

variable {g : BuildGraph} {disk : Disk} {u v : ℕ} {time : FileTime}

theorem mem_producedIn : u ∈ producedIn g v ↔ g.isStep u = true ∧ g.Edge u v := by
  simp only [producedIn, List.mem_flatMap, List.mem_range]
  constructor
  · rintro ⟨i, -, hi⟩
    split_ifs at hi with hstep
    · obtain ⟨hcount, rfl⟩ := List.mem_replicate.mp hi
      exact ⟨hstep, edge_iff.mpr (List.count_pos_iff.mp (Nat.pos_of_ne_zero hcount))⟩
    · simp at hi
  · rintro ⟨hstep, hedge⟩
    refine ⟨u, lt_length_of_isStep hstep, ?_⟩
    rw [if_pos hstep]
    exact List.mem_replicate.mpr
      ⟨(List.count_pos_iff.mpr (edge_iff.mp hedge)).ne', rfl⟩

/-- Folding in a source never turns a changed summary into an unchanged one. -/
theorem sourcesChanged_addSource {summary source : SourceSummary}
    (h : sourcesChanged summary time = true) :
    sourcesChanged (addSource source summary) time = true := by
  simp only [sourcesChanged, Bool.and_eq_true, Bool.or_eq_true, decide_eq_true_eq] at h ⊢
  unfold addSource
  split_ifs
  · exact ⟨rfl, .inl rfl⟩
  · exact ⟨rfl, h.2.imp_right fun hle => hle.trans (le_max_left _ _)⟩

/-- A source that is missing or not older shows in the summary it is folded into. -/
theorem sourcesChanged_of_source {summary source : SourceSummary}
    (h : source.missing = true ∨ time ≤ source.newest) :
    sourcesChanged (addSource source summary) time = true := by
  simp only [sourcesChanged, Bool.and_eq_true, Bool.or_eq_true, decide_eq_true_eq]
  unfold addSource
  split_ifs with hm
  · exact ⟨rfl, .inl rfl⟩
  · refine ⟨rfl, .inr ?_⟩
    exact (h.resolve_left hm).trans (le_max_right _ _)

/-- Folding a time along edges changes the summaries of their targets only. -/
theorem getElem?_foldl_addSource (source : SourceSummary) (outs : List ℕ)
    (sources : List SourceSummary) (hv : v ∉ outs) :
    (outs.foldl (fun sources out => sources.modify out (addSource source)) sources)[v]? =
      sources[v]? := by
  induction outs generalizing sources with
  | nil => rfl
  | cons out outs ih =>
    rw [List.foldl_cons, ih _ (fun h => hv (List.mem_cons_of_mem _ h))]
    exact List.getElem?_modify_ne _ _ fun h : out = v => hv (h ▸ List.mem_cons_self)

/-- The summary of node `v` says changed. -/
def Changed (time : FileTime) (v : ℕ) (sources : List SourceSummary) : Prop :=
  ∃ summary, sources[v]? = some summary ∧ sourcesChanged summary time = true

theorem Changed.modify {sources : List SourceSummary} (h : Changed time v sources)
    (source : SourceSummary) (out : ℕ) :
    Changed time v (sources.modify out (addSource source)) := by
  obtain ⟨summary, hs, hc⟩ := h
  by_cases hout : out = v
  · subst hout
    refine ⟨addSource source summary, ?_, sourcesChanged_addSource hc⟩
    rw [List.getElem?_modify_eq, hs]
    rfl
  · exact ⟨summary, (List.getElem?_modify_ne _ _ hout).trans hs, hc⟩

/-- Folding more times in keeps a summary changed, and a changed source changes its targets. -/
theorem changed_foldl_addSource (source : SourceSummary) (outs : List ℕ)
    (sources : List SourceSummary) (hlen : v < sources.length)
    (h : Changed time v sources ∨
      v ∈ outs ∧ (source.missing = true ∨ time ≤ source.newest)) :
    Changed time v
      (outs.foldl (fun sources out => sources.modify out (addSource source)) sources) := by
  induction outs generalizing sources with
  | nil => simpa using h
  | cons out outs ih =>
    refine ih (sources.modify out (addSource source)) (by simpa using hlen) ?_
    rcases h with h | ⟨hv, hsource⟩
    · exact .inl (h.modify source out)
    · rcases List.mem_cons.mp hv with rfl | hv
      · refine .inl ⟨addSource source sources[v], ?_, sourcesChanged_of_source hsource⟩
        rw [List.getElem?_modify_eq, List.getElem?_eq_getElem hlen]
        rfl
      · exact .inr ⟨hv, hsource⟩

theorem length_foldSource (sources : List SourceSummary) (i : ℕ) :
    (foldSource g sources i).length = sources.length := by
  have hfold : ∀ (source : SourceSummary) (outs : List ℕ) (sources : List SourceSummary),
      (outs.foldl (fun sources out => sources.modify out (addSource source)) sources).length =
        sources.length := by
    intro source outs
    induction outs with
    | nil => simp
    | cons out outs ih => simp [ih]
  unfold foldSource
  split_ifs
  · rfl
  · exact hfold _ _ _

/-- One round of the loop keeps a summary changed, and a changed source changes its targets. -/
theorem changed_foldSource {sources : List SourceSummary} {i : ℕ} {source : SourceSummary}
    (hlen : v < sources.length)
    (hentry : sources[i]? = some source)
    (h : Changed time v sources ∨ g.isStep i = false ∧ v ∈ g.outEdges i ∧
      (source.missing = true ∨ time ≤ source.newest)) :
    Changed time v (foldSource g sources i) := by
  unfold foldSource
  split_ifs with hstep
  · exact h.resolve_right (by simp [hstep])
  · refine changed_foldl_addSource _ _ _ hlen (h.imp_right ?_)
    rintro ⟨-, hv, hbad⟩
    exact ⟨hv, by simpa [hentry] using hbad⟩

theorem length_sourceSummaries : (sourceSummaries g disk).length = g.nodes.length := by
  have hfold : ∀ (is : List ℕ) (sources : List SourceSummary),
      (is.foldl (foldSource g) sources).length = sources.length := by
    intro is
    induction is with
    | nil => simp
    | cons i is ih =>
      intro sources
      rw [List.foldl_cons, ih, length_foldSource]
  rw [sourceSummaries, hfold]
  simp [statSources]

/-- The entry of a source is its own time throughout the loop. -/
theorem getElem?_foldSource (hg : g.WellFormed) (sources : List SourceSummary) (i : ℕ)
    (hu : g.isStep u = false) : (foldSource g sources i)[u]? = sources[u]? := by
  unfold foldSource
  split_ifs
  · rfl
  · refine getElem?_foldl_addSource _ _ _ fun hmem => ?_
    simp [hg.target_isStep i u hmem] at hu

theorem statSources_source {n : Node} (hn : g.nodes[u]? = some n) (hu : g.isStep u = false)
    (hedges : n.outEdges ≠ []) : (statSources g disk)[u]? =
      some { newest := (disk.mtime n.path).getD 0, missing := (disk.mtime n.path).isNone } := by
  have hsource : n.stepId = none := by simpa [isStep, hn] using hu
  simp [statSources, hn, hsource, hedges]

/-- When the summary of a node says unchanged, its source inputs exist and are older. -/
theorem older_of_not_sourcesChanged (hg : g.WellFormed) {summary : SourceSummary}
    (hv : (sourceSummaries g disk)[v]? = some summary)
    (hunchanged : sourcesChanged summary time = false) {p : Bytes} (hp : g.pathOf u = some p)
    (hedge : g.Edge u v) (hu : g.isStep u = false) : ∃ t, disk.mtime p = some t ∧ t < time := by
  by_contra hnot
  obtain ⟨n, hn, hmem⟩ := id hedge
  obtain rfl : n.path = p := by simpa [pathOf, hn] using hp
  have hlenv := (hg.linked.edge_lt hedge).2
  set stat : SourceSummary :=
    { newest := (disk.mtime n.path).getD 0, missing := (disk.mtime n.path).isNone } with hstat
  have hbad : stat.missing = true ∨ time ≤ stat.newest := by
    cases htime : disk.mtime n.path with
    | none => simp [hstat, htime]
    | some t =>
      refine .inr ?_
      rw [hstat]
      simp only [htime, Option.getD_some]
      by_contra hlt
      exact hnot ⟨t, htime, not_le.mp hlt⟩
  -- the loop up to `k` has folded the time of `u` into the summary of `v` once `k` passed `u`
  have hloop : ∀ k ≤ g.nodes.length,
      ((List.range k).foldl (foldSource g) (statSources g disk)).length = g.nodes.length ∧
      ((List.range k).foldl (foldSource g) (statSources g disk))[u]? = some stat ∧
      (u < k → Changed time v ((List.range k).foldl (foldSource g) (statSources g disk))) := by
    intro k hk
    induction k with
    | zero =>
      refine ⟨by simp [statSources], ?_, by simp⟩
      exact statSources_source hn hu (List.ne_nil_of_mem hmem)
    | succ k ih =>
      obtain ⟨hlen, hentry, hchanged⟩ := ih (by omega)
      rw [List.range_succ, List.foldl_append, List.foldl_cons, List.foldl_nil]
      refine ⟨by rw [length_foldSource, hlen],
        by rw [getElem?_foldSource hg _ _ hu, hentry], fun hlt => ?_⟩
      have hk' : k < ((List.range k).foldl (foldSource g) (statSources g disk)).length := by omega
      refine changed_foldSource (by omega) (List.getElem?_eq_getElem hk') ?_
      by_cases hlt' : u < k
      · exact .inl (hchanged hlt')
      · obtain rfl : u = k := by omega
        obtain heq : _ = stat := Option.some.inj ((List.getElem?_eq_getElem hk').symm.trans hentry)
        exact .inr ⟨hu, edge_iff.mp hedge, heq ▸ hbad⟩
  obtain ⟨summary', hs', hc'⟩ := (hloop _ le_rfl).2.2 (hg.linked.edge_lt hedge).1
  obtain rfl : summary = summary' := Option.some.inj (hv.symm.trans hs')
  simp [hunchanged] at hc'

/-- The sources folded into the summary so far exist and are older, or there are none. -/
def Older (time : FileTime) (summary : SourceSummary) : Prop :=
  summary.missing = false ∧ (summary.newest < time ∨ summary.any = false ∧ summary.newest = 0)

theorem Older.not_sourcesChanged {summary : SourceSummary} (h : Older time summary) :
    sourcesChanged summary time = false := by
  obtain ⟨hmissing, hlt | ⟨hany, -⟩⟩ := h
  · simp [sourcesChanged, hmissing, hlt]
  · simp [sourcesChanged, hany]

/-- Folding in a source that exists and is older. -/
theorem Older.addSource {summary source : SourceSummary} (h : Older time summary)
    (hmissing : source.missing = false) (hlt : source.newest < time) :
    Older time (NodeTimes.addSource source summary) := by
  obtain ⟨hm, hnewest⟩ := h
  rw [NodeTimes.addSource, if_neg (by simp [hmissing])]
  refine ⟨hm, .inl (max_lt ?_ hlt)⟩
  rcases hnewest with hlt' | ⟨-, hzero⟩
  · exact hlt'
  · rw [hzero]
    exact lt_of_le_of_lt (Nat.zero_le _) hlt

/-- One round of the loop keeps a summary older. -/
theorem older_foldSource {sources : List SourceSummary} {i : ℕ}
    (hsource : g.isStep i = false → v ∈ g.outEdges i → ∀ source, sources[i]? = some source →
      source.missing = false ∧ source.newest < time)
    (hi : i < sources.length) (h : ∀ summary, sources[v]? = some summary → Older time summary) :
    ∀ summary, (foldSource g sources i)[v]? = some summary → Older time summary := by
  unfold foldSource
  split_ifs with hstep
  · exact h
  · by_cases hv : v ∈ g.outEdges i
    · obtain ⟨hmissing, hlt⟩ := hsource (by simpa using hstep) hv _ (List.getElem?_eq_getElem hi)
      rw [List.getElem?_eq_getElem hi, Option.getD_some]
      -- the same source is folded in once for every edge
      generalize g.outEdges i = outs
      generalize sources[i] = source at hmissing hlt
      clear hsource hi hv
      induction outs generalizing sources with
      | nil => exact h
      | cons out outs ih =>
        apply ih
        intro summary hs
        rw [List.getElem?_modify] at hs
        obtain ⟨summary₀, hs₀, rfl⟩ := Option.map_eq_some_iff.mp hs
        split_ifs
        · exact (h summary₀ hs₀).addSource hmissing hlt
        · exact h summary₀ hs₀
    · rw [getElem?_foldl_addSource _ _ _ hv]
      exact h

/-- When the source inputs of a step all exist and are older, its summary says unchanged. -/
theorem not_sourcesChanged_of_older (hg : g.WellFormed) (hv : g.isStep v = true)
    (hall : ∀ u p, g.pathOf u = some p → g.Edge u v → g.isStep u = false →
      ∃ t, disk.mtime p = some t ∧ t < time) :
    sourcesChanged ((sourceSummaries g disk)[v]?.getD {}) time = false := by
  have hloop : ∀ k ≤ g.nodes.length,
      ((List.range k).foldl (foldSource g) (statSources g disk)).length = g.nodes.length ∧
      (∀ u, g.isStep u = false →
        ((List.range k).foldl (foldSource g) (statSources g disk))[u]? =
          (statSources g disk)[u]?) ∧
      ∀ summary, ((List.range k).foldl (foldSource g) (statSources g disk))[v]? = some summary →
        Older time summary := by
    intro k hk
    induction k with
    | zero =>
      refine ⟨by simp [statSources], fun u _ => rfl, fun summary hs => ?_⟩
      obtain ⟨n, hn, rfl⟩ := by simpa [statSources] using hs
      have hstep : n.stepId.isSome = true := by simpa [isStep, hn] using hv
      simp [Option.isSome_iff_ne_none.mp hstep, Older]
    | succ k ih =>
      obtain ⟨hlen, hentry, holder⟩ := ih (by omega)
      rw [List.range_succ, List.foldl_append, List.foldl_cons, List.foldl_nil]
      refine ⟨by rw [length_foldSource, hlen],
        fun u hu => by rw [getElem?_foldSource hg _ _ hu, hentry u hu], ?_⟩
      refine older_foldSource ?_ (by omega) holder
      intro hk' hedge source hs
      -- the entry of source `k` is still its own time
      rw [hentry k hk'] at hs
      have hlt : k < g.nodes.length := by omega
      rw [statSources_source (List.getElem?_eq_getElem hlt) hk' (List.ne_nil_of_mem ?_)] at hs
      · obtain rfl := Option.some.inj hs
        have hpath : g.pathOf k = some g.nodes[k].path := by simp [pathOf, hlt]
        obtain ⟨t, ht, htime⟩ := hall k _ hpath (edge_iff.mpr hedge) hk'
        simp [ht, htime]
      · exact v
      · simpa [outEdges, hlt] using hedge
  have hlen : v < (sourceSummaries g disk).length := by
    rw [length_sourceSummaries]
    exact lt_length_of_isStep hv
  rw [List.getElem?_eq_getElem hlen, Option.getD_some]
  exact ((hloop _ le_rfl).2.2 _ (List.getElem?_eq_getElem hlen)).not_sourcesChanged

end Summaries

end NodeTimes

end Cob
