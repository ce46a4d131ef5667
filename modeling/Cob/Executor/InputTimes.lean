import Cob.Executor.NeedsRebuild
import Cob.Lib.Csr

/-!
# The constructor of `NodeTimes`

`NodeTimes` as its constructor builds it: the sources are stat'ed by several threads, each with a
range of the pending nodes, and the produced inputs of all nodes lie in one array behind offsets.

* `chunks` — the ranges that `statSources` hands to the threads; they tile the pending nodes
  (`flatMap_chunks`);
* `statAll_eq` — in whatever order the threads get to their nodes, the times are the same;
* `row_producedEntries` — the array holds the produced inputs of each node;
* `inputsChangedSince_iff` — the answer of `inputsChangedSince` is that of the plain check of
  every input.
-/

namespace Cob

open BuildGraph NodeTimes

/-- `STATS_PER_THREAD`. -/
def statsPerThread : ℕ := 256

/-- `pending`: the sources that something depends on. -/
def pendingSources (g : BuildGraph) : List ℕ :=
  (List.range g.nodes.length).filter fun i => !g.isStep i && g.outEdges i ≠ []

/-- The ranges of the further threads, the first of them from `first` on. -/
def laterChunks (chunk size first : ℕ) : List (ℕ × ℕ) :=
  if 0 < chunk ∧ first < size then
    (first, min (first + chunk) size) :: laterChunks chunk size (first + chunk)
  else []
  termination_by size - first

/-- The ranges of `size` pending nodes that are stat'ed by one thread each. -/
def chunks (threadCount size : ℕ) : List (ℕ × ℕ) :=
  let workers := min threadCount (size / statsPerThread)
  if workers ≤ 1 then [(0, size)]
  else
    let chunk := (size + workers - 1) / workers
    (0, chunk) :: laterChunks chunk size chunk

/-- The elements of a range. -/
def slice {α : Type} (l : List α) (range : ℕ × ℕ) : List α :=
  (l.drop range.1).take (range.2 - range.1)

/-- The body of `stat_range`: `last_write_time` of one source. -/
def statOne (g : BuildGraph) (disk : Disk) (sources : List SourceSummary) (i : ℕ) :
    List SourceSummary :=
  let time := disk.mtime ((g.pathOf i).getD [])
  sources.modify i fun summary => { summary with newest := time.getD 0, missing := time.isNone }

/-- A possible order of all calls of `last_write_time`: the threads run at the same time. -/
def StatOrder (g : BuildGraph) (threadCount : ℕ) (order : List ℕ) : Prop :=
  order.Perm ((chunks threadCount (pendingSources g).length).flatMap (slice (pendingSources g)))

/-- The sources after `statSources`. -/
def statAll (g : BuildGraph) (disk : Disk) (order : List ℕ) : List SourceSummary :=
  order.foldl (statOne g disk) (List.replicate g.nodes.length {})

/-- The edges from produced nodes, target first, in the order in which the loops of the
constructor meet them. -/
def producedEntries (g : BuildGraph) : List (ℕ × ℕ) :=
  (List.range g.nodes.length).flatMap fun i =>
    if g.isStep i then (g.outEdges i).map fun out => (out, i) else []

/-- The members of `NodeTimes` that the constructor fills. -/
structure InputTimes where
  sources : List SourceSummary
  producedInOffsets : List ℕ
  producedInNodes : List ℕ

namespace InputTimes

/-- The constructor, with the order in which the threads happen to stat. -/
def create (g : BuildGraph) (disk : Disk) (order : List ℕ) : InputTimes where
  sources := (List.range g.nodes.length).foldl (foldSource g) (statAll g disk order)
  producedInOffsets := Csr.offsets g.nodes.length (producedEntries g)
  producedInNodes := Csr.values g.nodes.length (producedEntries g) 0

/-- `inputsChangedSince`: the summary, then the produced inputs between the offsets. -/
def inputsChangedSince (times : InputTimes) (ctx : StepContext) (d : BuildData) (node : ℕ)
    (outputTime : FileTime) : Bool × BuildData :=
  if sourcesChanged (times.sources[node]?.getD {}) outputTime then (true, d)
  else
    producedChangedSince ctx outputTime
      (Csr.row times.producedInOffsets times.producedInNodes node) d

end InputTimes

section Chunks

variable {α : Type} {chunk size threadCount : ℕ}

/-- The later ranges tile what comes after `first`. -/
theorem flatMap_laterChunks (hchunk : 0 < chunk) (l : List α) (first : ℕ) :
    (laterChunks chunk l.length first).flatMap (slice l) = l.drop first := by
  induction first using laterChunks.induct chunk l.length with
  | case1 first h ih =>
    rw [laterChunks, if_pos h, List.flatMap_cons, ih, slice]
    by_cases hlast : first + chunk ≤ l.length
    · rw [min_eq_left hlast, Nat.add_sub_cancel_left, ← List.drop_drop, List.take_append_drop]
    · -- the last range ends with the list
      have hsize : l.length - first = (l.drop first).length := List.length_drop.symm
      rw [min_eq_right (by omega), List.drop_eq_nil_of_le (show l.length ≤ first + chunk by omega),
        List.append_nil, hsize, List.take_length]
  | case2 first h =>
    rw [laterChunks, if_neg h]
    exact (List.drop_eq_nil_of_le (by omega)).symm

/-- With several workers each gets at least one node. -/
theorem chunk_pos {workers : ℕ} (hworkers : 1 < workers) (hsize : workers ≤ size / statsPerThread) :
    0 < (size + workers - 1) / workers ∧ (size + workers - 1) / workers ≤ size := by
  have hle : size / statsPerThread ≤ size := Nat.div_le_self _ _
  constructor
  · exact Nat.div_pos (by omega) (by omega)
  · rw [Nat.div_le_iff_le_mul_add_pred (by omega)]
    have hmul : size * 1 ≤ workers * size := by
      rw [Nat.mul_comm]
      exact Nat.mul_le_mul_right size hworkers.le
    omega

/-- The ranges of the threads tile the list. -/
theorem flatMap_chunks (threadCount : ℕ) (l : List α) :
    (chunks threadCount l.length).flatMap (slice l) = l := by
  unfold chunks
  dsimp only
  split_ifs with hone
  · simp [slice]
  · obtain ⟨hpos, -⟩ := chunk_pos (not_le.mp hone) (min_le_right threadCount _)
    rw [List.flatMap_cons, flatMap_laterChunks hpos]
    simp [slice]

end Chunks

section Created

variable {g : BuildGraph} {disk : Disk} {threadCount : ℕ} {order : List ℕ}

/-- Stat'ing the nodes of a list, in any order and any number of times. -/
theorem foldl_statOne_getElem? (order : List ℕ) (sources : List SourceSummary) (v : ℕ) :
    (order.foldl (statOne g disk) sources)[v]? = (sources[v]?).map fun summary =>
      if v ∈ order then
        { summary with
          newest := (disk.mtime ((g.pathOf v).getD [])).getD 0
          missing := (disk.mtime ((g.pathOf v).getD [])).isNone }
      else summary := by
  induction order generalizing sources with
  | nil => simp
  | cons i order ih =>
    rw [List.foldl_cons, ih, statOne, List.getElem?_modify]
    cases sources[v]? with
    | none => rfl
    | some summary =>
      by_cases hi : i = v
      · subst hi
        by_cases hmem : i ∈ order <;> simp [hmem]
      · simp [hi, Ne.symm hi]

/-- In whatever order the threads get to their nodes, the times are the same. -/
theorem statAll_eq (h : StatOrder g threadCount order) : statAll g disk order =
    statSources g disk := by
  have hperm : order.Perm (pendingSources g) := by
    rw [StatOrder, flatMap_chunks] at h
    exact h
  apply List.ext_getElem?
  intro v
  rw [statAll, foldl_statOne_getElem?, statSources, List.getElem?_map, List.getElem?_replicate]
  simp only [hperm.mem_iff, pendingSources, List.mem_filter, List.mem_range]
  by_cases hv : v < g.nodes.length
  · simp only [hv, if_true, Option.map_some, List.getElem?_eq_getElem]
    simp [isStep, outEdges, pathOf, hv]
  · simp [hv]

theorem sources_create (h : StatOrder g threadCount order) :
    (InputTimes.create g disk order).sources = sourceSummaries g disk := by
  rw [InputTimes.create, statAll_eq h]
  rfl

/-- The edges from one produced node to `v`. -/
theorem filter_edges (outs : List ℕ) (i v : ℕ) :
    ((outs.map fun out => (out, i)).filter fun e => e.1 = v).map Prod.snd =
      List.replicate (outs.count v) i := by
  induction outs with
  | nil => rfl
  | cons out outs ih =>
    by_cases hout : out = v
    · simp [hout, ih, List.replicate_succ]
    · simp [hout, ih]

/-- The array holds the produced inputs of each node. -/
theorem row_producedEntries (hg : g.WellFormed) {v : ℕ} (hv : v < g.nodes.length) :
    Csr.row (Csr.offsets g.nodes.length (producedEntries g))
      (Csr.values g.nodes.length (producedEntries g) 0) v = producedIn g v := by
  have hrows : ∀ e ∈ producedEntries g, e.1 < g.nodes.length := by
    intro e he
    obtain ⟨i, -, hi⟩ := List.mem_flatMap.mp he
    split_ifs at hi with hstep
    · obtain ⟨out, hout, rfl⟩ := List.mem_map.mp hi
      exact lt_length_of_isStep (hg.target_isStep i out hout)
    · cases hi
  rw [Csr.row_build hrows 0 hv, producedEntries, List.filter_flatMap, List.map_flatMap, producedIn]
  congr 1
  ext1 i
  split_ifs
  · exact filter_edges _ _ _
  · rfl

end Created

section Slots

variable {ctx : StepContext} {d : BuildData} {t : FileTime}

/-- The slots of produced files are empty, are being filled, or hold the time of the file. -/
def NodeSlotsOK (ctx : StepContext) (d : BuildData) : Prop :=
  ∀ i, ctx.graph.isStep i = true → (d.slots i).state = .ready →
    d.slots i = .filled (d.disk.mtime (slotPath ctx (.node i)))

/-- `changedSince` on the slot of a produced file compares the time of the file. -/
theorem NodeSlotsOK.changedSince (h : NodeSlotsOK ctx d) {i : ℕ} (hi : ctx.graph.isStep i = true) :
    (changedSince ctx d (.node i) t).1 = changed (d.disk.mtime (slotPath ctx (.node i))) t ∧
      (changedSince ctx d (.node i) t).2.disk = d.disk ∧
      NodeSlotsOK ctx (changedSince ctx d (.node i) t).2 := by
  unfold Cob.changedSince
  split_ifs with hready hunknown
  · exact ⟨by rw [BuildData.slot, h i hi hready, changed_filled], rfl, h⟩
  · refine ⟨rfl, disk_setSlot _ _ _, fun j hj hready' => ?_⟩
    by_cases hji : j = i
    · subst hji
      simp [BuildData.setSlot]
    · simp only [BuildData.setSlot, Function.update_of_ne hji] at hready' ⊢
      exact h j hj hready'
  · exact ⟨rfl, rfl, h⟩

/-- The loop finds a produced input that is missing or not older. -/
theorem NodeSlotsOK.producedChangedSince (h : NodeSlotsOK ctx d) {inputs : List ℕ}
    (hinputs : ∀ i ∈ inputs, ctx.graph.isStep i = true) :
    (producedChangedSince ctx t inputs d).1 = true ↔
      ∃ i ∈ inputs, changed (d.disk.mtime (slotPath ctx (.node i))) t = true := by
  induction inputs generalizing d with
  | nil => simp [Cob.producedChangedSince]
  | cons i rest ih =>
    obtain ⟨hanswer, hdisk, hslots⟩ := h.changedSince (t := t) (hinputs i List.mem_cons_self)
    have hrest := ih hslots fun j hj => hinputs j (List.mem_cons_of_mem _ hj)
    rw [hdisk] at hrest
    simp only [Cob.producedChangedSince, List.mem_cons, exists_eq_or_imp, ← hanswer]
    split_ifs with hchanged
    · simp [hchanged]
    · simpa [hchanged] using hrest

/-- The input is missing or not older. -/
theorem changed_iff {time : Option FileTime} :
    changed time t = true ↔ time = none ∨ ∃ t', time = some t' ∧ t ≤ t' := by
  cases time <;> simp [changed]

/-- The loop over the produced inputs, when the summary of the sources says unchanged. -/
theorem exists_producedIn_iff (hg : ctx.graph.WellFormed) {v : ℕ} {st : BuildStep}
    (hst : ctx.graph.stepOf v = some st)
    (hsum : sourcesChanged ((sourceSummaries ctx.graph d.disk)[v]?.getD {}) t = false) :
    (∃ i ∈ producedIn ctx.graph v, changed (d.disk.mtime (slotPath ctx (.node i))) t = true) ↔
      ∃ p ∈ st.allInputs, changed (d.disk.mtime p) t = true := by
  constructor
  · rintro ⟨i, hi, hchanged⟩
    obtain ⟨-, hedge⟩ := mem_producedIn.mp hi
    obtain ⟨p, hp, hmem⟩ := hg.path_mem_allInputs hst hedge
    exact ⟨p, hmem, by simpa [slotPath, hp] using hchanged⟩
  · rintro ⟨p, hp, hchanged⟩
    by_contra hnone
    have hseen : ∀ i ∈ producedIn ctx.graph v,
        ExistsOlder d.disk (slotPath ctx (.node i)) t := by
      intro i hi
      exact changed_eq_false_iff.mp (Bool.eq_false_of_not_eq_true fun h => hnone ⟨i, hi, h⟩)
    -- the sources have not changed since the summaries were made
    have hsrc : SourcesOK ctx d.disk { d with sources := sourceSummaries ctx.graph d.disk } :=
      ⟨rfl, fun _ _ _ _ => rfl⟩
    have hold := changed_eq_false_iff.mpr (existsOlder_input hg hst hsrc hsum hseen hp)
    rw [hold] at hchanged
    cases hchanged

/-- The summary says changed only when some input is missing or not older. -/
theorem exists_input_of_sourcesChanged (hg : ctx.graph.WellFormed) {v : ℕ} {st : BuildStep}
    (hst : ctx.graph.stepOf v = some st)
    (hsum : sourcesChanged ((sourceSummaries ctx.graph d.disk)[v]?.getD {}) t = true) :
    ∃ p ∈ st.allInputs, changed (d.disk.mtime p) t = true := by
  by_contra hnone
  have hunchanged : sourcesChanged ((sourceSummaries ctx.graph d.disk)[v]?.getD {}) t = false :=
    not_sourcesChanged_of_older hg (isStep_of_stepOf hst) fun u p hu hedge _ => by
      obtain ⟨p', hp', hmem⟩ := hg.path_mem_allInputs hst hedge
      obtain rfl : p = p' := Option.some.inj (hu.symm.trans hp')
      exact changed_eq_false_iff.mp (Bool.eq_false_of_not_eq_true fun h => hnone ⟨p, hmem, h⟩)
  rw [hsum] at hunchanged
  cases hunchanged

end Slots

/-- However many threads stat the sources, and in whatever order: `inputsChangedSince` answers
whether some input of the step is missing or not older than the output. -/
theorem inputsChangedSince_iff {ctx : StepContext} (hg : ctx.graph.Built) {threadCount : ℕ}
    {order : List ℕ} (horder : StatOrder ctx.graph threadCount order) {d : BuildData}
    (hslots : NodeSlotsOK ctx d) {v : ℕ} {st : BuildStep} (hst : ctx.graph.stepOf v = some st)
    (t : FileTime) :
    ((InputTimes.create ctx.graph d.disk order).inputsChangedSince ctx d v t).1 = true ↔
      ∃ p ∈ st.allInputs, d.disk.mtime p = none ∨
        ∃ time, d.disk.mtime p = some time ∧ t ≤ time := by
  have hwf := hg.wellFormed
  have hv : v < ctx.graph.nodes.length := lt_length_of_isStep (isStep_of_stepOf hst)
  simp only [← changed_iff]
  unfold InputTimes.inputsChangedSince
  rw [sources_create horder]
  change (if _ then _ else producedChangedSince ctx t
    (Csr.row (Csr.offsets _ (producedEntries ctx.graph)) (Csr.values _ _ 0) v) d).1 = true ↔ _
  rw [row_producedEntries hwf hv]
  split_ifs with hsum
  · simp [exists_input_of_sourcesChanged hwf hst hsum]
  · rw [hslots.producedChangedSince fun i hi => (mem_producedIn.mp hi).1]
    exact exists_producedIn_iff hwf hst (Bool.eq_false_of_not_eq_true hsum)

/-- The input `a` of `b` was not made yet. -/
theorem inputsChangedSince_twice :
    ((InputTimes.create twice twiceDisk [1]).inputsChangedSince twiceContext
      (.start twiceContext twiceDisk) 2 4).1 = true := by
  have hbuilt : twiceContext.graph.Built := built_twice
  have horder : StatOrder twiceContext.graph 8 [1] :=
    show ([1] : List ℕ).Perm _ by decide +kernel
  have hslots : NodeSlotsOK twiceContext (.start twiceContext twiceDisk) :=
    fun _ _ hready => SlotState.noConfusion hready
  have hstep : twiceContext.graph.stepOf 2 = some
      { tool := ascii "ld", inputs := ascii "a,s,a", output := ascii "b"
        parsedInputs := [ascii "a", ascii "s", ascii "a"] } := by decide +kernel
  apply (inputsChangedSince_iff hbuilt horder hslots hstep 4).mpr
  exact ⟨ascii "a", by decide +kernel, .inl (by decide +kernel)⟩

/-- The build of `preset`. -/
def presetContext : StepContext :=
  { twiceContext with graph := (runCalls [⟨preset, fun _ => none⟩]).1 }

/-- The manifest, an input and the output of `preset`, without the dependency-file input. -/
def presetDisk : Disk :=
  ⟨[(ascii "catalyst.build", ⟨3, .unknown⟩), (ascii "m.o", ⟨5, .unknown⟩),
    (ascii "app", ⟨9, .unknown⟩)]⟩

/-- A dependency-file input that a step came with is not looked at. -/
theorem not_inputsChangedSince_iff : ¬ ∀ (calls : List BuildGraph.Call) (ctx : StepContext)
    (threadCount : ℕ) (order : List ℕ) (d : BuildData) (v : ℕ) (st : BuildStep) (t : FileTime),
    ctx.graph = (runCalls calls).1 → StatOrder ctx.graph threadCount order → NodeSlotsOK ctx d →
    ctx.graph.stepOf v = some st →
    (((InputTimes.create ctx.graph d.disk order).inputsChangedSince ctx d v t).1 = true ↔
      ∃ p ∈ st.allInputs,
        d.disk.mtime p = none ∨ ∃ time, d.disk.mtime p = some time ∧ t ≤ time) := by
  intro hall
  have horder : StatOrder presetContext.graph 8 [1] :=
    show ([1] : List ℕ).Perm _ by decide +kernel
  have hslots : NodeSlotsOK presetContext (.start presetContext presetDisk) :=
    fun _ _ hready => SlotState.noConfusion hready
  have hiff := hall [⟨preset, fun _ => none⟩] presetContext 8 [1] (.start presetContext presetDisk)
    0 { preset with parsedInputs := [ascii "m.o"] } 9 rfl horder hslots (by decide +kernel)
  have hchanged := hiff.mpr ⟨ascii "m.h", by decide +kernel, .inl (by decide +kernel)⟩
  have hunchanged : ((InputTimes.create presetContext.graph presetDisk [1]).inputsChangedSince
      presetContext (.start presetContext presetDisk) 0 9).1 = false := by decide +kernel
  exact absurd (hchanged.symm.trans hunchanged) (by decide)

end Cob
