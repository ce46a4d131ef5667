import Cob.Executor.Calls

/-!
# Freshness

After a successful build, every output is newer than the inputs of its step and the manifest. The
invariant `Sound` says what the caches and the calls know: a filled slot holds the time of its
file, a call that looked at an input saw its final time, and what a call concluded still holds.
It survives the other calls because a running step rewrites only its own output, and whoever reads
that output starts after the step has finished.

The module introduces:

* `Watched` — the paths whose times matter to a step;
* `Fresh` — an output is newer than everything its step watches;
* `CallOK` — what a call of `processStep` has established;
* `fresh_of_ok` — a successful build leaves every output fresh.
-/

namespace Cob

open BuildGraph NodeTimes

section Freshness

/-- The paths whose times decide whether a step is up to date. -/
def Watched (ctx : StepContext) (st : BuildStep) (p : Bytes) : Prop :=
  p ∈ st.allInputs ∨ p = ctx.buildFile

/-- Everything that the step watches and that exists is older than `time`. -/
def OlderThan (ctx : StepContext) (disk : Disk) (st : BuildStep) (time : FileTime) : Prop :=
  ∀ p, Watched ctx st p → ∀ t, disk.mtime p = some t → t < time

/-- The output exists and is newer than everything its step watches. -/
def Fresh (ctx : StepContext) (disk : Disk) (st : BuildStep) : Prop :=
  ∃ t, disk.mtime st.output = some t ∧ OlderThan ctx disk st t

/-- What the environment promises: no step writes the manifest, and no response file is a file
of the graph or the manifest. -/
structure Separate (ctx : StepContext) : Prop where
  output_ne : ∀ st ∈ ctx.graph.steps, st.output ≠ ctx.buildFile
  rsp_ne : ∀ st ∈ ctx.graph.steps, st.tool = ascii "ld" →
    rspInputThreshold < st.parsedInputs.length →
      st.rspPath ≠ ctx.buildFile ∧ ctx.graph.findNode st.rspPath = none

/-- The file exists and is older than `time`. -/
def ExistsOlder (disk : Disk) (p : Bytes) (time : FileTime) : Prop :=
  ∃ t, disk.mtime p = some t ∧ t < time

variable {ctx : StepContext}

/-- What `changedSince` has read when it is at `pos`. -/
def ProbeOK (disk : Disk) (path : Bytes) : Probe → Prop
  | .load => True
  | .stat => True
  | .exchange time => time = disk.mtime path
  | .fill time => time = disk.mtime path

/-- What a call for node `v` has established. -/
def CallOK (ctx : StepContext) (d : BuildData) (v : ℕ) (st : BuildStep) : Call → Prop
  | .command => (d.slots v).state = .unknown
  | .statOutput _ => (d.slots v).state = .unknown
  | .probe _ t ref rest pos =>
    (d.slots v).state = .unknown ∧ d.disk.mtime st.output = some t ∧
      (∀ i, ref = .node i → i ∈ producedIn ctx.graph v) ∧
      (∀ i ∈ rest, i ∈ producedIn ctx.graph v) ∧
      (∀ i ∈ producedIn ctx.graph v, ref = .node i ∨ i ∈ rest ∨
        ExistsOlder d.disk (slotPath ctx (.node i)) t) ∧
      (ref ≠ .buildFile → ExistsOlder d.disk ctx.buildFile t ∧
        sourcesChanged (d.sources[v]?.getD {}) t = false) ∧
      ProbeOK d.disk (slotPath ctx ref) pos
  | .recordExchange t => d.disk.mtime st.output = some t ∧ OlderThan ctx d.disk st t
  | .recordFill t => d.disk.mtime st.output = some t ∧ OlderThan ctx d.disk st t
  | .rebuild _ => (d.slots v).state = .unknown
  | .spawn _ => (d.slots v).state = .unknown
  | .running _ since => (d.slots v).state = .unknown ∧
      ∀ p, Watched ctx st p → d.disk.mtime p = since.mtime p
  | .commit _ => (d.slots v).state = .unknown ∧ Fresh ctx d.disk st
  | .invalidate => Fresh ctx d.disk st

/-! ### What other calls leave alone -/

section Frame

variable {d d' : BuildData} {v : ℕ} {st : BuildStep}

/-- Freshness depends on the times of the output and of what is watched. -/
theorem OlderThan.frame {disk disk' : Disk} {t : FileTime} (h : OlderThan ctx disk st t)
    (hw : ∀ p, Watched ctx st p → disk'.mtime p = disk.mtime p) : OlderThan ctx disk' st t :=
  fun p hp t' ht' => h p hp t' (hw p hp ▸ ht')

theorem Fresh.frame {disk disk' : Disk} (h : Fresh ctx disk st)
    (hout : disk'.mtime st.output = disk.mtime st.output)
    (hw : ∀ p, Watched ctx st p → disk'.mtime p = disk.mtime p) : Fresh ctx disk' st := by
  obtain ⟨t, ht, hold⟩ := h
  exact ⟨t, hout.trans ht, hold.frame hw⟩

/-- The path of a produced input is watched. -/
theorem watched_of_producedIn (hg : ctx.graph.WellFormed) (hst : ctx.graph.stepOf v = some st)
    {i : ℕ} (hi : i ∈ producedIn ctx.graph v) : Watched ctx st (slotPath ctx (.node i)) := by
  obtain ⟨hstep, hedge⟩ := mem_producedIn.mp hi
  obtain ⟨p, hp, hmem⟩ := hg.path_mem_allInputs hst hedge
  exact .inl (by simpa [slotPath, hp] using hmem)

/-- What a call has established depends on its own slot, on the summaries, and on the times of
its output and of what its step watches. -/
theorem CallOK.frame (hg : ctx.graph.WellFormed) (hst : ctx.graph.stepOf v = some st)
    {call : Call} (h : CallOK ctx d v st call)
    (hslot : d'.slots v = d.slots v) (hsources : d'.sources = d.sources)
    (hout : d'.disk.mtime st.output = d.disk.mtime st.output)
    (hw : ∀ p, Watched ctx st p → d'.disk.mtime p = d.disk.mtime p) :
    CallOK ctx d' v st call := by
  have hstate : (d.slots v).state = .unknown → (d'.slots v).state = .unknown := by
    rw [hslot]
    exact id
  cases call with
  | command => exact hstate h
  | statOutput => exact hstate h
  | rebuild => exact hstate h
  | spawn => exact hstate h
  | recordExchange => exact ⟨hout.trans h.1, h.2.frame hw⟩
  | recordFill => exact ⟨hout.trans h.1, h.2.frame hw⟩
  | running => exact ⟨hstate h.1, fun p hp => (hw p hp).trans (h.2 p hp)⟩
  | commit => exact ⟨hstate h.1, h.2.frame hout hw⟩
  | invalidate => exact Fresh.frame h hout hw
  | probe cmd t ref rest pos =>
    -- in a walk over the inputs: those seen, the manifest, and the one being looked at
    obtain ⟨hunknown, ht, href, hrest, hseen, hbuild, hpos⟩ := h
    have hbuildFile := hw ctx.buildFile (.inr rfl)
    refine ⟨hstate hunknown, hout.trans ht, href, hrest, fun i hi => ?_, fun hne => ?_, ?_⟩
    · refine (hseen i hi).imp_right (Or.imp_right ?_)
      rintro ⟨t', ht', hlt⟩
      exact ⟨t', (hw _ (watched_of_producedIn hg hst hi)).trans ht', hlt⟩
    · obtain ⟨⟨t', ht', hlt⟩, hsum⟩ := hbuild hne
      exact ⟨⟨t', hbuildFile.trans ht', hlt⟩, hsources ▸ hsum⟩
    · have hpath : d'.disk.mtime (slotPath ctx ref) = d.disk.mtime (slotPath ctx ref) := by
        cases ref with
        | buildFile => exact hbuildFile
        | node i => exact hw _ (watched_of_producedIn hg hst (href i rfl))
      cases pos with
      | load => trivial
      | stat => trivial
      | exchange => exact hpos.trans hpath.symm
      | fill => exact hpos.trans hpath.symm

end Frame

/-! ### A step of a call -/

section Step

variable {d d' : BuildData} {v k : ℕ} {st : BuildStep} {call : Call} {r : Call ⊕ ℤ}
  {disk₀ : Disk}

/-- The slot caches the time of a file that the build may rewrite, or of the manifest. -/
def Cached (ctx : StepContext) (ref : SlotRef) : Prop :=
  ∀ i, ref = .node i → ctx.graph.isStep i = true

/-- A filled slot holds the time of its file. -/
def SlotsOK (ctx : StepContext) (d : BuildData) : Prop :=
  ∀ ref, Cached ctx ref → (d.slot ref).state = .ready →
    d.slot ref = .filled (d.disk.mtime (slotPath ctx ref))

/-- The summaries were folded from the times the sources still have. -/
def SourcesOK (ctx : StepContext) (disk₀ : Disk) (d : BuildData) : Prop :=
  d.sources = sourceSummaries ctx.graph disk₀ ∧
    ∀ u p, ctx.graph.pathOf u = some p → ctx.graph.isStep u = false →
      d.disk.mtime p = disk₀.mtime p

theorem slot_setSlot (d : BuildData) (ref ref' : SlotRef) (slot : Slot) :
    (d.setSlot ref slot).slot ref' = if ref' = ref then slot else d.slot ref' := by
  cases ref <;> cases ref' <;> simp [BuildData.setSlot, BuildData.slot, Function.update_apply]

@[simp]
theorem disk_setSlot (d : BuildData) (ref : SlotRef) (slot : Slot) :
    (d.setSlot ref slot).disk = d.disk := by
  cases ref <;> rfl

@[simp]
theorem sources_setSlot (d : BuildData) (ref : SlotRef) (slot : Slot) :
    (d.setSlot ref slot).sources = d.sources := by
  cases ref <;> rfl

/-- Replacing a slot by one that is not filled, or filled with the time of its file. -/
theorem SlotsOK.setSlot (h : SlotsOK ctx d) {ref : SlotRef} {slot : Slot}
    (hslot : slot.state = .ready → slot = .filled (d.disk.mtime (slotPath ctx ref))) :
    SlotsOK ctx (d.setSlot ref slot) := by
  intro ref' hc hready
  rw [slot_setSlot] at hready ⊢
  rw [disk_setSlot]
  split_ifs at hready ⊢ with heq
  · exact heq ▸ hslot hready
  · exact h ref' hc hready

/-- The slots stay, and the files that filled ones stand for. -/
theorem SlotsOK.frame (h : SlotsOK ctx d) (hslot : ∀ ref, d'.slot ref = d.slot ref)
    (hfile : ∀ ref, Cached ctx ref → (d.slot ref).state = .ready →
      d'.disk.file (slotPath ctx ref) = d.disk.file (slotPath ctx ref)) : SlotsOK ctx d' := by
  intro ref hc hready
  rw [hslot] at hready ⊢
  rw [Disk.mtime, hfile ref hc hready]
  exact h ref hc hready

/-- When the summary and every produced input exist and are older, so does every input. -/
theorem existsOlder_input (hg : ctx.graph.WellFormed) (hst : ctx.graph.stepOf v = some st)
    (hsrc : SourcesOK ctx disk₀ d) {t : FileTime}
    (hsum : sourcesChanged (d.sources[v]?.getD {}) t = false)
    (hseen : ∀ i ∈ producedIn ctx.graph v, ExistsOlder d.disk (slotPath ctx (.node i)) t)
    {p : Bytes} (hp : p ∈ st.allInputs) : ExistsOlder d.disk p t := by
  obtain ⟨u, hu, hedge⟩ := hg.exists_edge hst hp
  by_cases hstep : ctx.graph.isStep u = true
  · have hmem := hseen u (mem_producedIn.mpr ⟨hstep, hedge⟩)
    simpa [slotPath, hu] using hmem
  · have hstep := Bool.eq_false_of_not_eq_true hstep
    have hlen : v < (sourceSummaries ctx.graph disk₀).length := by
      rw [length_sourceSummaries]
      exact (hg.linked.edge_lt hedge).2
    have hv := List.getElem?_eq_getElem hlen
    rw [hsrc.1, hv, Option.getD_some] at hsum
    obtain ⟨t', ht', hlt⟩ := older_of_not_sourcesChanged hg hv hsum hu hedge hstep
    exact ⟨t', (hsrc.2 u p hu hstep).trans ht', hlt⟩

/-- When the manifest, the summary and every produced input exist and are older, so does everything
that is watched. -/
theorem existsOlder_of_checked (hg : ctx.graph.WellFormed) (hst : ctx.graph.stepOf v = some st)
    (hsrc : SourcesOK ctx disk₀ d) {t : FileTime} (hbuild : ExistsOlder d.disk ctx.buildFile t)
    (hsum : sourcesChanged (d.sources[v]?.getD {}) t = false)
    (hseen : ∀ i ∈ producedIn ctx.graph v, ExistsOlder d.disk (slotPath ctx (.node i)) t) :
    ∀ p, Watched ctx st p → ExistsOlder d.disk p t := by
  rintro p (hp | rfl)
  · exact existsOlder_input hg hst hsrc hsum hseen hp
  · exact hbuild

/-- Then the output is newer than everything that is watched. -/
theorem olderThan_of_checked (hg : ctx.graph.WellFormed) (hst : ctx.graph.stepOf v = some st)
    (hsrc : SourcesOK ctx disk₀ d) {t : FileTime} (hbuild : ExistsOlder d.disk ctx.buildFile t)
    (hsum : sourcesChanged (d.sources[v]?.getD {}) t = false)
    (hseen : ∀ i ∈ producedIn ctx.graph v, ExistsOlder d.disk (slotPath ctx (.node i)) t) :
    OlderThan ctx d.disk st t := by
  intro p hp t' ht'
  obtain ⟨t₁, ht₁, hlt⟩ := existsOlder_of_checked hg hst hsrc hbuild hsum hseen p hp
  obtain rfl := Option.some.inj (ht₁.symm.trans ht')
  exact hlt

/-- What `needsRebuild` has established after `changedSince` answered. -/
theorem callOK_afterProbe (hg : ctx.graph.WellFormed) (hst : ctx.graph.stepOf v = some st)
    (hsrc : SourcesOK ctx disk₀ d) {cmd : Command} {t : FileTime} {ref : SlotRef} {rest : List ℕ}
    {pos : Probe} (h : CallOK ctx d v st (.probe cmd t ref rest pos)) {answer : Bool}
    (hanswer : answer = changed (d.disk.mtime (slotPath ctx ref)) t) :
    CallOK ctx d v st (afterProbe d v cmd t ref rest answer) := by
  obtain ⟨hunknown, ht, -, hrest, hseen, hbuild, -⟩ := h
  unfold afterProbe
  split_ifs with hyes hsum
  · exact hunknown
  · exact hunknown
  · -- the answer was no: the path that was asked for is older
    have hnow : ExistsOlder d.disk (slotPath ctx ref) t :=
      changed_eq_false_iff.mp (hanswer ▸ Bool.eq_false_of_not_eq_true hyes)
    have hbuild' : ExistsOlder d.disk ctx.buildFile t ∧
        sourcesChanged (d.sources[v]?.getD {}) t = false := by
      by_cases href : ref = .buildFile
      · subst href
        exact ⟨hnow, by simpa using hsum⟩
      · exact hbuild href
    -- the inputs behind us are older now, the others are in `rest`
    have hseen' : ∀ i ∈ producedIn ctx.graph v, i ∈ rest ∨
        ExistsOlder d.disk (slotPath ctx (.node i)) t := by
      intro i hi
      rcases hseen i hi with rfl | hmem | hold
      · exact .inr hnow
      · exact .inl hmem
      · exact .inr hold
    cases rest with
    | nil =>
      exact ⟨ht, olderThan_of_checked hg hst hsrc hbuild'.1 hbuild'.2
        fun i hi => (hseen' i hi).resolve_left (by simp)⟩
    | cons j rest =>
      refine ⟨hunknown, ht, ?_, fun i hi => hrest i (List.mem_cons_of_mem _ hi), fun i hi => ?_,
        fun _ => hbuild', trivial⟩
      · rintro i ⟨rfl⟩
        exact hrest j List.mem_cons_self
      · rcases hseen' i hi with hmem | hold
        · rcases List.mem_cons.mp hmem with rfl | hmem
          · exact .inl rfl
          · exact .inr (.inl hmem)
        · exact .inr (.inr hold)

/-- A path that is in the graph, or the manifest. -/
def Known (ctx : StepContext) (p : Bytes) : Prop :=
  p = ctx.buildFile ∨ ∃ u, ctx.graph.pathOf u = some p

/-- A response file is not a known file. -/
theorem Separate.rsp_not_known (hg : ctx.graph.WellFormed) (hsep : Separate ctx)
    (hst : ctx.graph.stepOf v = some st) (hld : st.tool = ascii "ld")
    (hn : rspInputThreshold < st.parsedInputs.length) {p : Bytes} (hp : Known ctx p) :
    p ≠ st.rspPath := by
  obtain ⟨hbuild, hnode⟩ := hsep.rsp_ne st (mem_steps_of_stepOf hst) hld hn
  rintro rfl
  rcases hp with hp | ⟨u, hu⟩
  · exact hbuild hp
  · simp [(hg.indexed _ u).mpr hu] at hnode

/-- What a step of a call leaves alone: the summaries, the times of all known files but its own
output, and the slots of all nodes but its own and its produced inputs. -/
theorem Advance.frame (hg : ctx.graph.WellFormed) (hsep : Separate ctx)
    (hst : ctx.graph.stepOf v = some st) (h : CallOK ctx d v st call)
    (hadv : Advance ctx d v k st call d' r) :
    d'.sources = d.sources ∧
      (∀ p, p ≠ st.output → Known ctx p → d'.disk.mtime p = d.disk.mtime p) ∧
      ∀ u, u ≠ v → u ∉ producedIn ctx.graph v → d'.slots u = d.slots u := by
  -- writing a slot of the call's own node or of a produced input
  have hset : ∀ ref slot, (∀ i, ref = .node i → i = v ∨ i ∈ producedIn ctx.graph v) →
      (d.setSlot ref slot).sources = d.sources ∧
      (∀ p, p ≠ st.output → Known ctx p →
        (d.setSlot ref slot).disk.mtime p = d.disk.mtime p) ∧
      ∀ u, u ≠ v → u ∉ producedIn ctx.graph v → (d.setSlot ref slot).slots u = d.slots u := by
    intro ref slot href
    refine ⟨by simp, by simp, fun u hne hmem => ?_⟩
    have hother : SlotRef.node u ≠ ref := by
      rintro rfl
      rcases href u rfl with rfl | hin
      · exact hne rfl
      · exact hmem hin
    have hslot := slot_setSlot d ref (.node u) slot
    rw [if_neg hother] at hslot
    exact hslot
  cases hadv with
  | exchanged => exact hset _ _ fun i hi => .inr (h.2.2.1 i hi)
  | fill => exact hset _ _ fun i hi => .inr (h.2.2.1 i hi)
  | recordExchanged => exact hset _ _ (by rintro i ⟨rfl⟩; exact .inl rfl)
  | recordFill => exact hset _ _ (by rintro i ⟨rfl⟩; exact .inl rfl)
  | invalidate => exact hset _ _ (by rintro i ⟨rfl⟩; exact .inl rfl)
  | invalidateBuildFile => exact hset _ _ (by rintro i ⟨rfl⟩; exact .inl rfl)
  -- no known file is a response file
  | writeRsp _ hld hn =>
    refine ⟨by simp, fun p _ hp => ?_, fun _ _ _ => by simp⟩
    simp [Disk.mtime, BuildData.file_writeRsp_of_ne (hsep.rsp_not_known hg hst hld hn hp)]
  | exited =>
    refine ⟨rfl, fun p hne _ => ?_, fun _ _ _ => rfl⟩
    simp [BuildData.exited, Disk.mtime, Disk.file_write_of_ne hne]
  | _ => exact ⟨rfl, fun _ _ _ => rfl, fun _ _ _ => rfl⟩

/-- A cached slot stands for a known file. -/
theorem Cached.known {ref : SlotRef} (h : Cached ctx ref) (hg : ctx.graph.WellFormed) :
    Known ctx (slotPath ctx ref) := by
  cases ref with
  | buildFile => exact .inl rfl
  | node i =>
    obtain ⟨st, -, hp⟩ := hg.exists_stepOf (h i rfl)
    exact .inr ⟨i, by simp [slotPath, hp]⟩

/-- Filled slots keep holding the times of their files. -/
theorem Advance.slotsOK (hg : ctx.graph.WellFormed) (hsep : Separate ctx)
    (hst : ctx.graph.stepOf v = some st) (hpath : ctx.graph.pathOf v = some st.output)
    (hslots : SlotsOK ctx d) (h : CallOK ctx d v st call)
    (hadv : Advance ctx d v k st call d' r) : SlotsOK ctx d' := by
  cases hadv with
  | exchanged => exact hslots.setSlot (by simp)
  | fill => exact hslots.setSlot fun _ => by rw [h.2.2.2.2.2.2]
  | recordExchanged => exact hslots.setSlot (by simp)
  | recordFill => exact hslots.setSlot fun _ => by simp [slotPath, hpath, h.1]
  | invalidate => exact hslots.setSlot (by simp)
  | invalidateBuildFile => exact (hslots.setSlot (by simp)).setSlot (by simp)
  | writeRsp _ hld hn =>
    refine hslots.frame (fun ref => by simp) fun ref hc _ => ?_
    exact BuildData.file_writeRsp_of_ne (hsep.rsp_not_known hg hst hld hn (hc.known hg))
  -- the output is written while the slot of its node is unknown
  | exited =>
    refine hslots.frame (fun ref => by cases ref <;> rfl) fun ref hc hready => ?_
    refine Disk.file_write_of_ne fun heq => ?_
    cases ref with
    | buildFile => exact absurd heq.symm (hsep.output_ne st (mem_steps_of_stepOf hst))
    | node u =>
      obtain ⟨st', hst', hp⟩ := hg.exists_stepOf (hc u rfl)
      have hsame : st'.output = st.output := by simpa [slotPath, hp] using heq
      obtain rfl : u = v := hg.pathOf_inj hp (hsame ▸ hpath)
      have hunknown : (d.slots u).state = .unknown := h.1
      exact absurd (hunknown.symm.trans hready) (by simp)
  | _ => exact hslots

/-- What a call has established after its next step, and what it leaves when it returns `0`. -/
theorem Advance.callOK (hg : ctx.graph.WellFormed)
    (hst : ctx.graph.stepOf v = some st) (hpath : ctx.graph.pathOf v = some st.output)
    (hself : ¬ Watched ctx st st.output) (hslots : SlotsOK ctx d) (hsrc : SourcesOK ctx disk₀ d)
    (h : CallOK ctx d v st call) (hadv : Advance ctx d v k st call d' r) :
    (∀ call', r = .inl call' → CallOK ctx d' v st call') ∧
      (r = .inr 0 → ctx.dryRun = false → Fresh ctx d'.disk st) := by
  have hvslot : v ∉ producedIn ctx.graph v := by
    intro hmem
    have hw := watched_of_producedIn hg hst hmem
    simp only [slotPath, hpath, Option.getD_some] at hw
    exact hself hw
  cases hadv with
  | command => exact ⟨by rintro _ ⟨rfl⟩; exact h, by simp⟩
  | missing => exact ⟨by rintro _ ⟨rfl⟩; exact h, by simp⟩
  | hashDiffers => exact ⟨by rintro _ ⟨rfl⟩; exact h, by simp⟩
  | hashAgrees ht =>
    refine ⟨?_, by simp⟩
    rintro _ ⟨rfl⟩
    exact ⟨h, ht, by simp, fun i hi => hi, fun i hi => .inr (.inl hi), by simp, trivial⟩
  | @loadReady cmd t ref rest hready =>
    refine ⟨?_, by simp⟩
    rintro _ ⟨rfl⟩
    refine callOK_afterProbe hg hst hsrc h ?_
    have hc : Cached ctx ref := fun i hi => (mem_producedIn.mp (h.2.2.1 i hi)).1
    rw [hslots ref hc hready, changed_filled]
  | loadOther =>
    obtain ⟨h₁, h₂, h₃, h₄, h₅, h₆, -⟩ := h
    exact ⟨by rintro _ ⟨rfl⟩; exact ⟨h₁, h₂, h₃, h₄, h₅, h₆, trivial⟩, by simp⟩
  | stat =>
    obtain ⟨h₁, h₂, h₃, h₄, h₅, h₆, -⟩ := h
    exact ⟨by rintro _ ⟨rfl⟩; exact ⟨h₁, h₂, h₃, h₄, h₅, h₆, rfl⟩, by simp⟩
  | @exchanged cmd t ref rest time =>
    refine ⟨?_, by simp⟩
    rintro _ ⟨rfl⟩
    have hother : SlotRef.node v ≠ ref := by
      rintro rfl
      exact hvslot (h.2.2.1 v rfl)
    have hslot := slot_setSlot d ref (.node v) { d.slot ref with state := .busy }
    rw [if_neg hother] at hslot
    have h' : CallOK ctx d v st (.probe cmd t ref rest (.fill time)) := h
    exact h'.frame hg hst hslot (by simp) (by simp) (by simp)
  | @notExchanged cmd t ref rest time =>
    refine ⟨?_, by simp⟩
    rintro _ ⟨rfl⟩
    refine callOK_afterProbe hg hst hsrc h ?_
    rw [h.2.2.2.2.2.2]
  | @fill cmd t ref rest time =>
    refine ⟨?_, by simp⟩
    rintro _ ⟨rfl⟩
    have hother : SlotRef.node v ≠ ref := by
      rintro rfl
      exact hvslot (h.2.2.1 v rfl)
    have hslot := slot_setSlot d ref (.node v) (.filled time)
    rw [if_neg hother] at hslot
    have hafter : CallOK ctx d v st (afterProbe d v cmd t ref rest (changed time t)) :=
      callOK_afterProbe hg hst hsrc h (by rw [h.2.2.2.2.2.2])
    exact hafter.frame hg hst hslot (by simp) (by simp) (by simp)
  | recordExchanged =>
    refine ⟨?_, by simp⟩
    rintro _ ⟨rfl⟩
    exact ⟨by simpa using h.1, by simpa using h.2⟩
  | notRecorded => exact ⟨by simp, fun _ _ => ⟨_, h.1, h.2⟩⟩
  | recordFill => exact ⟨by simp, fun _ _ => ⟨_, by simpa using h.1, by simpa using h.2⟩⟩
  | dryRun hd => exact ⟨by simp, fun _ hdry => by simp [hdry] at hd⟩
  | writeRsp => exact ⟨by rintro _ ⟨rfl⟩; simpa [CallOK] using h, by simp⟩
  | link => exact ⟨by rintro _ ⟨rfl⟩; exact h, by simp⟩
  | rebuild => exact ⟨by rintro _ ⟨rfl⟩; exact h, by simp⟩
  | refused => exact ⟨by simp, by simp⟩
  | spawn => exact ⟨by rintro _ ⟨rfl⟩; exact ⟨h, fun _ _ => rfl⟩, by simp⟩
  | notRun => exact ⟨by simp, by simp⟩
  | failed hc => exact ⟨by simp, by simp [hc]⟩
  | @exited cmd since mtime hold =>
    refine ⟨?_, by simp⟩
    rintro _ ⟨rfl⟩
    refine ⟨h.1, mtime, by simp [BuildData.exited, Disk.mtime], fun p hp t ht => ?_⟩
    have hne : p ≠ st.output := by
      rintro rfl
      exact hself hp
    -- what is watched has not changed since the tool started
    have hbefore : since.mtime p = some t := by
      rw [← h.2 p hp, ← ht]
      simp [BuildData.exited, Disk.mtime, Disk.file_write_of_ne hne]
    obtain ⟨f, hf, rfl⟩ := Option.map_eq_some_iff.mp hbefore
    exact Disk.olderThan_iff.mp hold p f hf
  | commit =>
    refine ⟨?_, by simp⟩
    rintro _ ⟨rfl⟩
    exact h.2
  | invalidate => exact ⟨by simp, fun _ _ => by rw [disk_setSlot]; exact h⟩
  | invalidateBuildFile =>
    exact ⟨by simp, fun _ _ => by rw [disk_setSlot, disk_setSlot]; exact h⟩

end Step

/-! ### The invariant -/

section Invariant

variable {cfg : PoolConfig} {disk₀ : Disk} {s : State BuildData Call}

/-- What the slots hold and the calls have established, and that finished outputs are fresh. -/
structure Sound (ctx : StepContext) (disk₀ : Disk) (s : State BuildData Call) : Prop where
  slots : SlotsOK ctx s.data
  sources : SourcesOK ctx disk₀ s.data
  unstarted : ∀ v, ctx.graph.isStep v = true → v ∉ s.started → (s.data.slots v).state = .unknown
  calls : ∀ v call st, .process v call ∈ s.workers → ctx.graph.stepOf v = some st →
    CallOK ctx s.data v st call
  fresh : ∀ v st, ctx.graph.stepOf v = some st → s.succeeded v = true → Fresh ctx s.data.disk st

/-- The running step writes nothing that another started step watches. -/
theorem Stepping.watched_ne (hg : ctx.graph.WellFormed) (hsep : Separate ctx) {v v' k : ℕ}
    {st st' : BuildStep} {call : Call} {d' : BuildData} {r : Call ⊕ ℤ}
    (h : Stepping ctx cfg disk₀ s v k st call d' r) (hst' : ctx.graph.stepOf v' = some st')
    (hstarted : v' ∈ s.started) {p : Bytes} (hp : Watched ctx st' p) :
    p ≠ st.output ∧ Known ctx p := by
  rcases hp with hp | rfl
  · obtain ⟨u, hu, hedge⟩ := hg.exists_edge hst' hp
    refine ⟨?_, .inr ⟨u, hu⟩⟩
    rintro rfl
    obtain rfl : u = v := hg.pathOf_inj hu h.pathOf
    exact h.not_edge hg hstarted hedge
  · exact ⟨(hsep.output_ne st (mem_steps_of_stepOf h.stepOf)).symm, .inl rfl⟩

/-- What the slots hold and the calls have established, as an invariant of the calls. -/
def soundInvariant (ctx : StepContext) (disk₀ : Disk) : CallInvariant where
  data d := SlotsOK ctx d ∧ SourcesOK ctx disk₀ d
  before d v := (d.slots v).state = .unknown
  during d v call := ∀ st, ctx.graph.stepOf v = some st → CallOK ctx d v st call
  after d v := ctx.dryRun = false → ∀ st, ctx.graph.stepOf v = some st → Fresh ctx d.disk st

/-- The invariant holds in every reachable state, of a dry run too. -/
theorem soundInvariant_holds (hg : ctx.graph.WellFormed) (hsep : Separate ctx)
    (h : (poolMachine (processStep ctx) cfg ctx.graph (.start ctx disk₀)).Reachable s) :
    (soundInvariant ctx disk₀).Holds ctx.graph s := by
  refine CallInvariant.holds _ hg ?_ ?_ ?_ ?_ h
  · refine ⟨⟨?_, rfl, fun _ _ _ _ => rfl⟩, fun v => rfl⟩
    intro ref _ hready
    cases ref <;> simp [BuildData.start, BuildData.slot] at hready
  · exact fun d v _ hbefore st _ => hbefore
  · intro s v k st call d' r hs hI
    have hcall := hI.during v call hs.running st hs.stepOf
    have hself : ¬ Watched ctx st st.output := fun hw =>
      (hs.watched_ne hg hsep hs.stepOf (hs.mem_started hg) hw).1 rfl
    have hframe := hs.advance.frame hg hsep hs.stepOf hcall
    have hown := hs.advance.callOK hg hs.stepOf hs.pathOf hself hI.data.1 hI.data.2 hcall
    refine ⟨⟨hs.advance.slotsOK hg hsep hs.stepOf hs.pathOf hI.data.1 hcall,
      hframe.1.trans hI.data.2.1, fun u p hu hsource => ?_⟩, fun call' hr st' hst' => ?_,
      fun hr hdry st' hst' => ?_⟩
    · -- a source is not what the step writes
      refine (hframe.2.1 p ?_ (.inr ⟨u, hu⟩)).trans (hI.data.2.2 u p hu hsource)
      rintro rfl
      simp [hg.pathOf_inj hu hs.pathOf, isStep_of_stepOf hs.stepOf] at hsource
    · obtain rfl : st = st' := Option.some.inj (hs.stepOf.symm.trans hst')
      exact hown.1 call' hr
    · obtain rfl : st = st' := Option.some.inj (hs.stepOf.symm.trans hst')
      exact hown.2 hr hdry
  · intro s v k st call d' r hs hI u hne hu
    have hframe := hs.advance.frame hg hsep hs.stepOf (hI.during v call hs.running st hs.stepOf)
    obtain ⟨st', hst', hpath'⟩ := hg.exists_stepOf hu
    have hout : d'.disk.mtime st'.output = s.data.disk.mtime st'.output := by
      refine hframe.2.1 _ (fun heq => hne ?_) (.inr ⟨u, hpath'⟩)
      exact hg.pathOf_inj hpath' (heq ▸ hs.pathOf)
    have hw : ∀ p, u ∈ s.started → Watched ctx st' p →
        d'.disk.mtime p = s.data.disk.mtime p := by
      intro p hstarted hp
      obtain ⟨hne', hknown⟩ := hs.watched_ne hg hsep hst' hstarted hp
      exact hframe.2.1 p hne' hknown
    have hacc := accounted hg.linked hs.reachable
    refine ⟨fun hno hbefore => ?_, fun call' hrun hcall st₁ hst₁ => ?_,
      fun hsucc hfresh hdry st₁ hst₁ => ?_⟩
    · -- the inputs of the running step were started
      show (d'.slots u).state = .unknown
      rw [hframe.2.2 u hne]
      · exact hbefore
      · intro hmem
        have hsucc := hs.succeeded hg (mem_producedIn.mp hmem).2 hu
        exact hno (hacc.started_of_succeeded hsucc)
    · obtain rfl : st' = st₁ := Option.some.inj (hst'.symm.trans hst₁)
      have hstarted := hacc.started_of_running hrun (v := u) (by simp [Pc.running])
      have hslot := hframe.2.2 u hne fun hin =>
        hs.not_producer hg hrun (mem_producedIn.mp hin).2
      exact (hcall st' hst').frame hg hst' hslot hframe.1 hout fun p => hw p hstarted
    · obtain rfl : st' = st₁ := Option.some.inj (hst'.symm.trans hst₁)
      exact (hfresh hdry st' hst').frame hout fun p => hw p (hacc.started_of_succeeded hsucc)

/-- What the slots hold and the calls have established in every reachable state of a build that is
not a dry run. -/
theorem sound (hg : ctx.graph.WellFormed) (hsep : Separate ctx) (hdry : ctx.dryRun = false)
    (h : (poolMachine (processStep ctx) cfg ctx.graph (.start ctx disk₀)).Reachable s) :
    Sound ctx disk₀ s := by
  have hI := soundInvariant_holds hg hsep h
  exact ⟨hI.data.1, hI.data.2, hI.before, fun v call st hmem => hI.during v call hmem st,
    fun v st hst hsucc => hI.after v hsucc hdry st hst⟩

end Invariant

/-- After a successful build that is not a dry run, every output exists and is newer than every
existing input of its step and than the manifest. -/
theorem fresh_of_ok {cfg : PoolConfig} {disk₀ : Disk} {s : State BuildData Call}
    (hg : ctx.graph.Built) (hsep : Separate ctx) (hdry : ctx.dryRun = false)
    (h : (poolMachine (processStep ctx) cfg ctx.graph (.start ctx disk₀)).Reachable s)
    (hjoin : s.Joined cfg) (hok : s.executeResult ctx.graph = .ok ()) :
    ∀ st ∈ ctx.graph.steps, Fresh ctx s.data.disk st := by
  intro st hmem
  have hwf := hg.wellFormed
  obtain ⟨k, hk⟩ := List.mem_iff_getElem?.mp hmem
  obtain ⟨v, hv⟩ := hwf.node_of_step k st hk
  have hst : ctx.graph.stepOf v = some st := by rw [stepOf_eq, hv]; exact hk
  have hsucc := succeeded_of_ok hwf.linked h hjoin hok (isStep_of_stepOf hst)
  exact (sound hwf hsep hdry h).fresh v st hst hsucc

end Freshness

/-- The build of `twice`: linking `a` from `s`, then `b` from `a`. -/
def twiceContext : StepContext where
  graph := twice
  flags := .ofDefinitions (Definitions.empty.emplace (ascii "linker") (ascii "ld"))
  buildFile := ascii "catalyst.build"
  dryRun := false
  rapidHash bytes seed := bytes.foldl (fun hash b => hash * 31 + b.toUInt64) (seed + 1)

/-- The manifest, the source, and an output `b` that is too old. -/
def twiceDisk : Disk :=
  ⟨[(ascii "catalyst.build", ⟨3, .unknown⟩), (ascii "s", ⟨5, .unknown⟩),
    (ascii "b", ⟨4, .unknown⟩)]⟩

theorem separate_twice : Separate twiceContext where
  output_ne := by decide +kernel
  rsp_ne := by decide +kernel

/-- One worker builds `a` and then `b`. -/
theorem fresh_of_ok_twice : ∃ s,
    (poolMachine (processStep twiceContext) ⟨1, false⟩ twice
      (.start twiceContext twiceDisk)).Reachable s ∧
    s.Joined ⟨1, false⟩ ∧ ∀ st ∈ twice.steps, Fresh twiceContext s.data.disk st := by
  obtain ⟨tr, s, hrun, hs⟩ := Machine.exists_run_of_exec
    (M := poolMachine (processStep twiceContext) ⟨1, false⟩ twice (.start twiceContext twiceDisk))
    (s := initialState twice [0] (.start twiceContext twiceDisk))
    ⟨[0], by decide +kernel, rfl⟩
    (.spawn :: List.replicate 20 (.work 0 ⟨some 0, 10⟩) ++
      List.replicate 12 (.work 0 ⟨some 0, 20⟩))
    (fun r => r.2.Joined ⟨1, false⟩ ∧ r.2.executeResult twice = .ok ()) (by decide +kernel)
  obtain ⟨hjoin, hok⟩ := of_decide_eq_true hs
  have hall := fresh_of_ok built_twice separate_twice rfl ⟨tr, hrun⟩ hjoin hok
  exact ⟨s, ⟨tr, hrun⟩, hjoin, hall⟩

/-- A graph in which the response file of one step is the input of another. -/
def rspInputCalls : List BuildGraph.Call :=
  [⟨{ tool := ascii "ld", inputs := ascii "a.rsp", output := ascii "b" }, fun _ => none⟩,
    ⟨{ tool := ascii "ld", output := ascii "a"
       inputs := ascii "s" ++ (List.replicate 50 (ascii ",s")).flatten }, fun _ => none⟩]

/-- The build of the graph of some calls. -/
def callsContext (calls : List BuildGraph.Call) : StepContext :=
  { twiceContext with graph := (runCalls calls).1 }

/-- The manifest, the source, and an old response file. -/
def rspInputDisk : Disk :=
  ⟨[(ascii "a.rsp", ⟨1, .text []⟩), (ascii "s", ⟨2, .unknown⟩),
    (ascii "catalyst.build", ⟨3, .unknown⟩)]⟩

/-- A successful build leaves an output that is not newer than all inputs of its step. -/
def leavesStale (ctx : StepContext) (s : State BuildData Call) : Bool :=
  s.Joined ⟨1, false⟩ ∧ s.executeResult ctx.graph = .ok () ∧
    ctx.graph.steps.any fun st => st.allInputs.any fun p =>
      match s.data.disk.mtime p, s.data.disk.mtime st.output with
      | some t, some time => decide (time ≤ t)
      | _, _ => false

theorem not_fresh_of_leavesStale {s : State BuildData Call} (h : leavesStale ctx s = true) :
    s.Joined ⟨1, false⟩ ∧ s.executeResult ctx.graph = .ok () ∧
      ∃ st ∈ ctx.graph.steps, ¬ Fresh ctx s.data.disk st := by
  obtain ⟨hjoin, hok, hstale⟩ := of_decide_eq_true h
  refine ⟨hjoin, hok, ?_⟩
  obtain ⟨st, hst, hany⟩ := List.any_eq_true.mp hstale
  obtain ⟨p, hp, hle⟩ := List.any_eq_true.mp hany
  refine ⟨st, hst, ?_⟩
  rintro ⟨time, htime, holder⟩
  cases ht : s.data.disk.mtime p with
  | none => simp [ht] at hle
  | some t =>
    have hlt := holder p (.inl hp) t ht
    simp only [ht, htime, decide_eq_true_eq] at hle
    exact absurd hlt (not_lt_of_ge hle)

/-- A response file that a step writes may be an input of another step that has been run already,
and a dependency-file input that a step came with may be made after the step has run. -/
theorem not_fresh_of_ok :
    (¬ ∀ (ctx : StepContext) (cfg : PoolConfig) (disk₀ : Disk) (s : State BuildData Call),
      ctx.graph.Built → ctx.graph.Acyclic → (∀ st ∈ ctx.graph.steps, st.output ≠ ctx.buildFile) →
      ctx.dryRun = false →
      (poolMachine (processStep ctx) cfg ctx.graph (.start ctx disk₀)).Reachable s →
      s.Joined cfg → s.executeResult ctx.graph = .ok () →
      ∀ st ∈ ctx.graph.steps, Fresh ctx s.data.disk st) ∧
    ¬ ∀ (ctx : StepContext) (cfg : PoolConfig) (disk₀ : Disk) (s : State BuildData Call),
      ctx.graph.Called → ctx.graph.Acyclic → Separate ctx → ctx.dryRun = false →
      (poolMachine (processStep ctx) cfg ctx.graph (.start ctx disk₀)).Reachable s →
      s.Joined cfg → s.executeResult ctx.graph = .ok () →
      ∀ st ∈ ctx.graph.steps, Fresh ctx s.data.disk st := by
  -- inputs come before outputs in both graphs
  let rank : ℕ → ℕ := fun v => if v = 1 ∨ v = 3 then 0 else 1
  constructor
  · -- the second step rewrites `a.rsp`, an input of the first
    intro hall
    have hacyclic : (callsContext rspInputCalls).graph.Acyclic :=
      acyclic_of_rank rank (by decide +kernel)
    obtain ⟨tr, s, hrun, hs⟩ := Machine.exists_run_of_exec
      (M := poolMachine (processStep (callsContext rspInputCalls)) ⟨1, false⟩
        (callsContext rspInputCalls).graph (.start (callsContext rspInputCalls) rspInputDisk))
      (s := initialState _ [0, 2] (.start _ rspInputDisk)) ⟨[0, 2], by decide +kernel, rfl⟩
      (.spawn :: List.replicate 19 (.work 0 ⟨some 0, 10⟩) ++
        List.replicate 8 (.work 0 ⟨some 0, 20⟩))
      (fun r => leavesStale (callsContext rspInputCalls) r.2) (by decide +kernel)
    obtain ⟨hjoin, hok, st, hst, hnot⟩ := not_fresh_of_leavesStale hs
    have hbuilt : (callsContext rspInputCalls).graph.Built :=
      Built.empty.addSteps (rspInputCalls.map Call.step) (by decide +kernel)
        (show BuildGraph.empty.addSteps (fun _ => none) _ = .ok _ by decide +kernel)
    exact hnot (hall _ _ _ s hbuilt hacyclic (by decide +kernel) rfl ⟨tr, hrun⟩ hjoin hok st hst)
  · -- no edge makes the producer of the preset input run first
    intro hall
    have hacyclic : (callsContext presetCalls).graph.Acyclic :=
      acyclic_of_rank rank (by decide +kernel)
    obtain ⟨tr, s, hrun, hs⟩ := Machine.exists_run_of_exec
      (M := poolMachine (processStep (callsContext presetCalls)) ⟨1, false⟩
        (callsContext presetCalls).graph (.start (callsContext presetCalls) twiceDisk))
      (s := initialState _ [0, 2] (.start _ twiceDisk)) ⟨[0, 2], by decide +kernel, rfl⟩
      (.spawn :: List.replicate 12 (.work 0 ⟨some 0, 10⟩) ++
        List.replicate 15 (.work 0 ⟨some 0, 20⟩))
      (fun r => leavesStale (callsContext presetCalls) r.2) (by decide +kernel)
    obtain ⟨hjoin, hok, st, hst, hnot⟩ := not_fresh_of_leavesStale hs
    have hsep : Separate (callsContext presetCalls) := ⟨by decide +kernel, by decide +kernel⟩
    exact hnot (hall _ _ _ s ⟨presetCalls, rfl⟩ hacyclic hsep rfl ⟨tr, hrun⟩ hjoin hok st hst)

end Cob
