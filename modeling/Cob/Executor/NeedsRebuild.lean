import Cob.Executor.Demand

/-!
# `needsRebuild` with nobody else running

`emitGraph` asks `needsRebuild` for one node after the other, on a disk that nobody changes. Here
the functions run to their end, where `processStep` takes them one shared access at a time; the
answers are those of `UpToDate`.

The module introduces:

* `changedSince`, `inputsChangedSince`, `record`, `needsRebuild` — the functions;
* `Still` — the caches agree with a disk that nobody changes;
* `emitGraph` — the graph with the colours of its nodes;
* `colors_eq_green_iff` — the nodes that are green.
-/

namespace Cob

open BuildGraph NodeTimes

section Functions

variable (ctx : StepContext)

/-- `changedSince`. -/
def changedSince (d : BuildData) (ref : SlotRef) (outputTime : FileTime) : Bool × BuildData :=
  if (d.slot ref).state = .ready then ((d.slot ref).changed outputTime, d)
  else
    let time := d.disk.mtime (slotPath ctx ref)
    (changed time outputTime,
      if (d.slot ref).state = .unknown then d.setSlot ref (.filled time) else d)

/-- The loop of `inputsChangedSince` over the produced inputs. -/
def producedChangedSince (outputTime : FileTime) : List ℕ → BuildData → Bool × BuildData
  | [], d => (false, d)
  | i :: rest, d =>
    let p := changedSince ctx d (.node i) outputTime
    if p.1 then p else producedChangedSince outputTime rest p.2

/-- `inputsChangedSince`. -/
def inputsChangedSince (d : BuildData) (node : ℕ) (outputTime : FileTime) : Bool × BuildData :=
  if sourcesChanged (d.sources[node]?.getD {}) outputTime then (true, d)
  else producedChangedSince ctx outputTime (producedIn ctx.graph node) d

/-- `record`. -/
def record (d : BuildData) (node : ℕ) (time : FileTime) : BuildData :=
  if (d.slots node).state = .unknown then d.setSlot (.node node) (.filled (some time)) else d

/-- `needsRebuild`. -/
def needsRebuild (d : BuildData) (node : ℕ) (st : BuildStep) : Bool × BuildData :=
  let currentHash := (commandOf ctx st (d.usableRsp ctx st)).hash
  match d.disk.mtime st.output with
  | none => (true, d)
  | some outputTime =>
    if st.commandHash ≠ currentHash then (true, d)
    else
      -- the manifest counts as an input of every step
      let p := changedSince ctx d .buildFile outputTime
      if p.1 then p
      else
        let q := inputsChangedSince ctx p.2 node outputTime
        if q.1 then q else (false, record q.2 node outputTime)

/-- The colours of the nodes. -/
inductive Color where
  /-- a source file -/
  | lightGray
  /-- a step that is to be rebuilt -/
  | green
  /-- a step that is up to date -/
  | white
  deriving DecidableEq

/-- The colour as it is written. -/
def Color.text : Color → Bytes
  | .lightGray => ascii "0.9 0.9 0.9"
  | .green => ascii "green"
  | .white => ascii "white"

/-- The colour of the next node. -/
def nextColor (p : List Color × BuildData) (node : ℕ) : List Color × BuildData :=
  match ctx.graph.stepOf node with
  | some st =>
    let q := needsRebuild ctx p.2 node st
    (p.1 ++ [if q.1 then .green else .white], q.2)
  | none => (p.1 ++ [.lightGray], p.2)

/-- The colours that `emitGraph` gives the nodes. -/
def colors (disk : Disk) : List Color :=
  ((List.range ctx.graph.nodes.length).foldl (nextColor ctx) ([], .start ctx disk)).1

/-- `append_node_id`. -/
def nodeId (i : ℕ) : Bytes := ascii "  n" ++ ascii (toString i)

/-- A node and its edges. -/
def nodeText (i : ℕ) (node : Node) (color : Color) : Bytes :=
  nodeId i ++ ascii " [label=\"" ++ node.path ++ ascii "\", fillcolor=\"" ++ color.text ++
    ascii "\"];\n" ++
    node.outEdges.flatMap fun target =>
      nodeId i ++ ascii " -> n" ++ ascii (toString target) ++ ascii ";\n"

/-- What `emitGraph` writes. -/
def emitGraph (disk : Disk) : Bytes :=
  ascii "digraph catalyst_build \x7b\n" ++ ascii "  rankdir=LR;\n" ++
    ascii "  node [shape=box, style=filled, fontname=\"Helvetica\"];\n" ++
    ((ctx.graph.nodes.zip (colors ctx disk)).zipIdx.flatMap fun e =>
      nodeText e.2 e.1.1 e.1.2) ++
    ascii "\x7d\n"

end Functions

/-- The caches agree with a disk that nobody changes. -/
structure Still (ctx : StepContext) (disk : Disk) (d : BuildData) : Prop where
  disk_eq : d.disk = disk
  sources_eq : d.sources = sourceSummaries ctx.graph disk
  slots : SlotsOK ctx d

section Still

variable {ctx : StepContext} {disk : Disk} {d : BuildData} {v : ℕ} {st : BuildStep} {t : FileTime}

theorem still_start (ctx : StepContext) (disk : Disk) : Still ctx disk (.start ctx disk) := by
  refine ⟨rfl, rfl, fun ref _ hready => ?_⟩
  cases ref <;> cases hready

/-- Filling a slot with the time of its file. -/
theorem Still.setSlot (h : Still ctx disk d) (ref : SlotRef) :
    Still ctx disk (d.setSlot ref (.filled (disk.mtime (slotPath ctx ref)))) := by
  refine ⟨by simpa using h.disk_eq, by simpa using h.sources_eq, fun ref' hcached hready => ?_⟩
  rw [slot_setSlot] at hready ⊢
  split_ifs at hready ⊢ with heq
  · rw [disk_setSlot, h.disk_eq, heq]
  · rw [disk_setSlot]
    exact h.slots ref' hcached hready

/-- `changedSince` compares the time of the file. -/
theorem Still.changedSince (h : Still ctx disk d) {ref : SlotRef} (hcached : Cached ctx ref) :
    (Cob.changedSince ctx d ref t).1 = changed (disk.mtime (slotPath ctx ref)) t ∧
      Still ctx disk (Cob.changedSince ctx d ref t).2 := by
  unfold Cob.changedSince
  split_ifs with hready hunknown
  · refine ⟨?_, h⟩
    rw [h.slots ref hcached hready, changed_filled, h.disk_eq]
  · refine ⟨by rw [h.disk_eq], ?_⟩
    rw [h.disk_eq]
    exact h.setSlot ref
  · exact ⟨by rw [h.disk_eq], h⟩

/-- The loop over the produced inputs finds one that is missing or not older. -/
theorem Still.producedChangedSince (h : Still ctx disk d) {inputs : List ℕ}
    (hinputs : ∀ i ∈ inputs, ctx.graph.isStep i = true) :
    ((Cob.producedChangedSince ctx t inputs d).1 = false ↔
      ∀ i ∈ inputs, ExistsOlder disk (slotPath ctx (.node i)) t) ∧
      Still ctx disk (Cob.producedChangedSince ctx t inputs d).2 := by
  induction inputs generalizing d with
  | nil => exact ⟨by simp [Cob.producedChangedSince], h⟩
  | cons i rest ih =>
    have hcached : Cached ctx (.node i) := by
      rintro j ⟨rfl⟩
      exact hinputs i List.mem_cons_self
    obtain ⟨hanswer, hstill⟩ := h.changedSince (t := t) hcached
    obtain ⟨hrest, hstill'⟩ := ih hstill fun j hj => hinputs j (List.mem_cons_of_mem _ hj)
    rw [Cob.producedChangedSince]
    split_ifs with hchanged
    · refine ⟨⟨fun hno => by simp [hchanged] at hno, fun hall => ?_⟩, hstill⟩
      -- the first input is not as it should be
      have hold := changed_eq_false_iff.mpr (hall i List.mem_cons_self)
      rw [hanswer, hold] at hchanged
      cases hchanged
    · refine ⟨?_, hstill'⟩
      have hold : ExistsOlder disk (slotPath ctx (.node i)) t := by
        apply changed_eq_false_iff.mp
        rw [← hanswer]
        exact Bool.eq_false_of_not_eq_true hchanged
      rw [hrest, List.forall_mem_cons]
      exact (and_iff_right hold).symm

/-- `inputsChangedSince` finds an input that is missing or not older; the manifest is looked at
before. -/
theorem Still.inputsChangedSince (h : Still ctx disk d) (hg : ctx.graph.WellFormed)
    (hst : ctx.graph.stepOf v = some st) (hbuild : ExistsOlder disk ctx.buildFile t) :
    ((Cob.inputsChangedSince ctx d v t).1 = false ↔ ∀ p, Watched ctx st p → ExistsOlder disk p t) ∧
      Still ctx disk (Cob.inputsChangedSince ctx d v t).2 := by
  have hsrc : SourcesOK ctx disk d := ⟨h.sources_eq, fun _ _ _ _ => by rw [h.disk_eq]⟩
  have hinputs : ∀ i ∈ producedIn ctx.graph v, ctx.graph.isStep i = true :=
    fun i hi => (mem_producedIn.mp hi).1
  obtain ⟨hanswer, hstill⟩ := h.producedChangedSince (t := t) hinputs
  unfold Cob.inputsChangedSince
  split_ifs with hsum
  · refine ⟨⟨by simp, fun hall => ?_⟩, h⟩
    -- then the summary would say that nothing has changed
    have hunchanged : sourcesChanged ((sourceSummaries ctx.graph disk)[v]?.getD {}) t = false :=
      not_sourcesChanged_of_older hg (isStep_of_stepOf hst) fun u p hu hedge _ => by
        obtain ⟨p', hp', hmem⟩ := hg.path_mem_allInputs hst hedge
        obtain rfl : p = p' := Option.some.inj (hu.symm.trans hp')
        exact hall p (.inl hmem)
    rw [← h.sources_eq, hsum] at hunchanged
    cases hunchanged
  · refine ⟨?_, hstill⟩
    rw [hanswer]
    constructor
    · intro hseen
      have hall := existsOlder_of_checked (d := d) (t := t) hg hst hsrc (h.disk_eq ▸ hbuild)
        (Bool.eq_false_of_not_eq_true hsum) (h.disk_eq ▸ hseen)
      rw [h.disk_eq] at hall
      exact hall
    · exact fun hall i hi => hall _ (watched_of_producedIn hg hst hi)

/-- `record` fills the slot of an output with its time. -/
theorem Still.record (h : Still ctx disk d) (hpath : ctx.graph.pathOf v = some st.output)
    (ht : disk.mtime st.output = some t) : Still ctx disk (Cob.record d v t) := by
  unfold Cob.record
  split_ifs with hunknown
  · have hslot := h.setSlot (.node v)
    rwa [show slotPath ctx (.node v) = st.output by simp [slotPath, hpath], ht] at hslot
  · exact h

/-- `needsRebuild` answers whether a step is out of date. -/
theorem Still.needsRebuild (h : Still ctx disk d) (hg : ctx.graph.WellFormed)
    (hst : ctx.graph.stepOf v = some st) :
    ((Cob.needsRebuild ctx d v st).1 = true ↔ ¬ UpToDate ctx disk st) ∧
      Still ctx disk (Cob.needsRebuild ctx d v st).2 := by
  obtain ⟨st', hst', hpath⟩ := hg.exists_stepOf (isStep_of_stepOf hst)
  obtain rfl : st = st' := Option.some.inj (hst.symm.trans hst')
  have hcommand : commandOf ctx st (d.usableRsp ctx st) = ctx.commandOn disk st := by
    rw [StepContext.commandOn, usableRsp_congr (d := .start ctx disk)] <;> rw [h.disk_eq] <;> rfl
  unfold Cob.needsRebuild
  simp only [hcommand, h.disk_eq]
  cases ht : disk.mtime st.output with
  | none =>
    refine ⟨⟨fun _ => ?_, fun _ => rfl⟩, h⟩
    rintro ⟨-, t, ht', -⟩
    simp [ht] at ht'
  | some t =>
    have hcached : Cached ctx .buildFile := fun i hi => by cases hi
    obtain ⟨hanswer, hstill⟩ := h.changedSince (t := t) hcached
    change _ = changed (disk.mtime ctx.buildFile) t at hanswer
    have hold : ¬ (Cob.changedSince ctx d .buildFile t).1 = true →
        ExistsOlder disk ctx.buildFile t := by
      intro hno
      apply changed_eq_false_iff.mp
      rw [← hanswer]
      exact Bool.eq_false_of_not_eq_true hno
    simp only
    split_ifs with hdiff hbuild hinputs
    · exact ⟨⟨fun _ hup => hdiff hup.1, fun _ => rfl⟩, h⟩
    · -- the manifest is missing or not older
      refine ⟨⟨?_, fun _ => hbuild⟩, hstill⟩
      rintro - ⟨-, t', ht', hall⟩
      obtain rfl := Option.some.inj (ht.symm.trans ht')
      rw [hanswer, changed_eq_false_iff.mpr (hall _ (.inr rfl))] at hbuild
      cases hbuild
    · refine ⟨⟨?_, fun _ => hinputs⟩, (hstill.inputsChangedSince hg hst (hold hbuild)).2⟩
      rintro - ⟨-, t', ht', hall⟩
      obtain rfl := Option.some.inj (ht.symm.trans ht')
      rw [((hstill.inputsChangedSince hg hst (hold hbuild)).1.mpr hall)] at hinputs
      cases hinputs
    · obtain ⟨hiff, hstill'⟩ := hstill.inputsChangedSince hg hst (hold hbuild)
      refine ⟨⟨by simp, fun hno => absurd ⟨not_not.mp hdiff, t, ht, ?_⟩ hno⟩,
        hstill'.record hpath ht⟩
      exact hiff.mp (Bool.eq_false_of_not_eq_true hinputs)

/-- The colours of the nodes that were looked at. -/
theorem colors_foldl (hg : ctx.graph.WellFormed) {n : ℕ} (hn : n ≤ ctx.graph.nodes.length) :
    ∃ cs d, (List.range n).foldl (nextColor ctx) ([], .start ctx disk) = (cs, d) ∧
      cs.length = n ∧ Still ctx disk d ∧ ∀ v < n, cs[v]? = some .green ↔ Outdated ctx disk v := by
  -- induction on the number of nodes looked at: `needsRebuild` changes slots, but no answer
  induction n with
  | zero => exact ⟨[], _, rfl, rfl, still_start ctx disk, by simp⟩
  | succ n ih =>
    obtain ⟨cs, d, hfold, hlen, hstill, hcs⟩ := ih (by omega)
    rw [List.range_succ, List.foldl_append, hfold]
    -- it is enough to know the colour of the next node
    have hnew : ∀ c d', nextColor ctx (cs, d) n = (cs ++ [c], d') → Still ctx disk d' →
        (c = .green ↔ Outdated ctx disk n) →
        ∃ cs' d', [n].foldl (nextColor ctx) (cs, d) = (cs', d') ∧ cs'.length = n + 1 ∧
          Still ctx disk d' ∧ ∀ v < n + 1, cs'[v]? = some .green ↔ Outdated ctx disk v := by
      intro c d' hnext hstill' hc
      refine ⟨cs ++ [c], d', hnext, by simp [hlen], hstill', fun v hv => ?_⟩
      rcases Nat.lt_succ_iff_lt_or_eq.mp hv with hlt | rfl
      · rw [List.getElem?_append_left (by omega)]
        exact hcs v hlt
      · rw [List.getElem?_append_right (by omega), hlen]
        simpa using hc
    cases hst : ctx.graph.stepOf n with
    | none =>
      refine hnew .lightGray d (by simp [nextColor, hst]) hstill ⟨by simp, ?_⟩
      rintro ⟨st, hst', -⟩
      simp [hst] at hst'
    | some st =>
      obtain ⟨hanswer, hstill'⟩ := hstill.needsRebuild hg hst
      refine hnew (if (Cob.needsRebuild ctx d n st).1 then .green else .white) _
        (by simp [nextColor, hst]) hstill' ?_
      have hout : Outdated ctx disk n ↔ ¬ UpToDate ctx disk st := by
        constructor
        · rintro ⟨st', hst', hno⟩
          obtain rfl : st = st' := Option.some.inj (hst.symm.trans hst')
          exact hno
        · exact fun hno => ⟨st, hst, hno⟩
      rw [hout, ← hanswer]
      split_ifs with hyes <;> simp [hyes]

/-- The green nodes are the steps that are out of date. -/
theorem colors_eq_green_iff (hg : ctx.graph.WellFormed) (v : ℕ) :
    (colors ctx disk)[v]? = some .green ↔ Outdated ctx disk v := by
  obtain ⟨cs, d, hfold, hlen, -, hcs⟩ := colors_foldl hg (le_refl ctx.graph.nodes.length)
  rw [colors, hfold]
  by_cases hv : v < ctx.graph.nodes.length
  · exact hcs v hv
  · rw [List.getElem?_eq_none (by simp only; omega)]
    refine ⟨by simp, ?_⟩
    rintro ⟨st, hst, -⟩
    exact absurd (lt_length_of_isStep (isStep_of_stepOf hst)) hv

end Still

end Cob
