import Cob.Executor.CommandRecord

/-!
# Which steps a build runs

A step is rebuilt when it was not up to date before the build, or when one of its inputs is rebuilt:
the input is then newer than the output, which nobody else writes. The first part can be read off
the disk on which the build begins, the second depends on what has run so far.

The module introduces:

* `UpToDate` — what `needsRebuild` looks for, on a disk that nobody changes;
* `Rebuilt`, `Demanded` — the steps that have run, and those that are to run;
* `RspSteady` — the build writes no file that would change the command of a link step;
* `demand` — in every reachable state, what runs is demanded, and a step that has succeeded ran if
  it was demanded and has the hash of its command.
-/

namespace Cob

open BuildGraph NodeTimes

section Demand

variable (ctx : StepContext)

/-- The command of a step, with the response files that are on the disk. -/
def StepContext.commandOn (disk : Disk) (st : BuildStep) : Command :=
  commandOf ctx st ((BuildData.start ctx disk).usableRsp ctx st)

/-- The output has the hash of the command, and everything that the step watches exists and is
older. -/
def UpToDate (disk : Disk) (st : BuildStep) : Prop :=
  st.commandHash = (ctx.commandOn disk st).hash ∧
    ∃ t, disk.mtime st.output = some t ∧ ∀ p, Watched ctx st p → ExistsOlder disk p t

/-- A step that was out of date when the build began. -/
def Outdated (disk₀ : Disk) (v : ℕ) : Prop :=
  ∃ st, ctx.graph.stepOf v = some st ∧ ¬ UpToDate ctx disk₀ st

/-- The tool of the node's step has exited with `0`. -/
def Rebuilt (d : BuildData) (v : ℕ) : Prop := ∃ k, ctx.graph.stepIdOf v = some k ∧ Ran d k

/-- The step was out of date when the build began, or an input of it was rebuilt. -/
def Demanded (disk₀ : Disk) (d : BuildData) (v : ℕ) : Prop :=
  Outdated ctx disk₀ v ∨ ∃ u, ctx.graph.Edge u v ∧ Rebuilt ctx d u

/-- For a link step with few inputs, no step writes the response file. -/
def RspSteady : Prop :=
  ∀ st ∈ ctx.graph.steps, st.tool = ascii "ld" → st.parsedInputs.length ≤ rspInputThreshold →
    ∀ st' ∈ ctx.graph.steps, st'.output ≠ st.rspPath ∧
      (st'.tool = ascii "ld" → rspInputThreshold < st'.parsedInputs.length →
        st'.rspPath ≠ st.rspPath)

/-- No step of the build writes the file. -/
def Unwritten (p : Bytes) : Prop :=
  ∀ st ∈ ctx.graph.steps, st.output ≠ p ∧
    (st.tool = ascii "ld" → rspInputThreshold < st.parsedInputs.length → st.rspPath ≠ p)

/-- What the build has left as it was, and what it has made newer. -/
structure DataDemand (disk₀ : Disk) (d : BuildData) : Prop where
  unwritten : ∀ p, Unwritten ctx p → d.disk.file p = disk₀.file p
  kept : ∀ v k st, ctx.graph.stepOf v = some st → ctx.graph.stepIdOf v = some k →
    ¬ Rebuilt ctx d v →
    d.disk.file st.output = disk₀.file st.output ∧ d.commandHash k = st.commandHash
  newer : ∀ u v st st', ctx.graph.stepOf u = some st → ctx.graph.stepOf v = some st' →
    Rebuilt ctx d u → ¬ Rebuilt ctx d v → ∀ t', d.disk.mtime st'.output = some t' →
      ∃ t, d.disk.mtime st.output = some t ∧ t' < t

/-- What a call has found out about the demand for step `k`, at node `v`. -/
def CallDemand (disk₀ : Disk) (d : BuildData) (v k : ℕ) (st : BuildStep) : Call → Prop
  | .command => ¬ Rebuilt ctx d v
  | .statOutput cmd => ¬ Rebuilt ctx d v ∧ cmd = ctx.commandOn disk₀ st
  | .probe cmd _ _ _ _ => ¬ Rebuilt ctx d v ∧ cmd = ctx.commandOn disk₀ st ∧
      d.commandHash k = (ctx.commandOn disk₀ st).hash
  | .recordExchange _ => ¬ Rebuilt ctx d v ∧ ¬ Demanded ctx disk₀ d v ∧
      d.commandHash k = (ctx.commandOn disk₀ st).hash
  | .recordFill _ => ¬ Rebuilt ctx d v ∧ ¬ Demanded ctx disk₀ d v ∧
      d.commandHash k = (ctx.commandOn disk₀ st).hash
  | .rebuild cmd => ¬ Rebuilt ctx d v ∧ Demanded ctx disk₀ d v ∧ cmd = ctx.commandOn disk₀ st
  | .spawn cmd => ¬ Rebuilt ctx d v ∧ Demanded ctx disk₀ d v ∧
      cmd.hash = (ctx.commandOn disk₀ st).hash
  | .running cmd since => ¬ Rebuilt ctx d v ∧ Demanded ctx disk₀ d v ∧
      cmd.hash = (ctx.commandOn disk₀ st).hash ∧
      ∀ u st', ctx.graph.stepOf u = some st' → ¬ Rebuilt ctx d u →
        since.file st'.output = disk₀.file st'.output
  | .commit hash => Rebuilt ctx d v ∧ Demanded ctx disk₀ d v ∧
      hash = (ctx.commandOn disk₀ st).hash
  | .invalidate => Rebuilt ctx d v ∧ Demanded ctx disk₀ d v ∧
      d.commandHash k = (ctx.commandOn disk₀ st).hash

/-- Demand, as an invariant of the calls. -/
def demandInvariant (disk₀ : Disk) : CallInvariant where
  data := DataDemand ctx disk₀
  before d v := ¬ Rebuilt ctx d v
  during d v call := ∀ k st, ctx.graph.stepOf v = some st → ctx.graph.stepIdOf v = some k →
    CallDemand ctx disk₀ d v k st call
  after d v := (Rebuilt ctx d v → Demanded ctx disk₀ d v) ∧
    (ctx.dryRun = false → (Demanded ctx disk₀ d v → Rebuilt ctx d v) ∧
      ∀ k st, ctx.graph.stepOf v = some st → ctx.graph.stepIdOf v = some k →
        d.commandHash k = (ctx.commandOn disk₀ st).hash)

variable {ctx} {disk₀ : Disk}

/-! ### What the disk tells -/

section Disk

variable {d : BuildData} {v k : ℕ} {st : BuildStep}

/-- Whether a response file is usable depends on it and on the manifest. -/
theorem usableRsp_congr {d' : BuildData} (hrsp : d'.disk.file st.rspPath = d.disk.file st.rspPath)
    (hbuild : d'.disk.file ctx.buildFile = d.disk.file ctx.buildFile) :
    d'.usableRsp ctx st = d.usableRsp ctx st := by
  simp [BuildData.usableRsp, BuildData.isNewer, Disk.mtime, hrsp, hbuild]

/-- Nobody writes the manifest. -/
theorem Separate.unwritten_buildFile (hsep : Separate ctx) : Unwritten ctx ctx.buildFile :=
  fun st hst => ⟨hsep.output_ne st hst, fun hld hlen => (hsep.rsp_ne st hst hld hlen).1⟩

/-- Nobody writes a source. -/
theorem Separate.unwritten_source (hg : ctx.graph.WellFormed) (hsep : Separate ctx) {u : ℕ}
    {p : Bytes} (hu : ctx.graph.pathOf u = some p) (hsource : ctx.graph.isStep u = false) :
    Unwritten ctx p := by
  intro st hst
  refine ⟨?_, fun hld hlen => ?_⟩
  · rintro rfl
    obtain ⟨k, hk⟩ := List.mem_iff_getElem?.mp hst
    obtain ⟨v, hv⟩ := hg.node_of_step k st hk
    obtain ⟨st', hst', hpath⟩ := hg.step_of_node v k hv
    obtain rfl : st = st' := Option.some.inj (hk.symm.trans hst')
    obtain rfl := hg.pathOf_inj hu hpath
    simp [isStep_eq, hv] at hsource
  · rintro rfl
    have hnone := (hsep.rsp_ne st hst hld hlen).2
    simp [(hg.indexed _ u).mpr hu] at hnone

/-- The command of a step is the same all through the build. -/
theorem DataDemand.commandOf_eq (h : DataDemand ctx disk₀ d) (hsep : Separate ctx)
    (hsteady : RspSteady ctx) (hst : ctx.graph.stepOf v = some st) :
    commandOf ctx st (d.usableRsp ctx st) = ctx.commandOn disk₀ st := by
  have hmem := mem_steps_of_stepOf hst
  by_cases hld : st.tool = ascii "ld"
  · by_cases hlen : st.parsedInputs.length ≤ rspInputThreshold
    · have hrsp := h.unwritten st.rspPath fun st' hst' => hsteady st hmem hld hlen st' hst'
      have hbuild := h.unwritten _ hsep.unwritten_buildFile
      rw [StepContext.commandOn, usableRsp_congr (d := .start ctx disk₀) hrsp hbuild]
    · -- with so many inputs it is the response file, usable or not
      have huse : ∀ usable, st.useRsp usable = true := by
        intro usable
        simp [BuildStep.useRsp, not_le.mp hlen]
      simp only [StepContext.commandOn, commandOf, buildCommandArgs, hld, huse, if_true]
  · simp only [StepContext.commandOn, commandOf, buildCommandArgs, hld, if_false]

/-- A watched file that the build did not rewrite is as it was, and one that it rewrote is newer
than the output of a step that has not run. -/
theorem DataDemand.watched_cases (hg : ctx.graph.WellFormed) (h : DataDemand ctx disk₀ d)
    (hsep : Separate ctx) (hst : ctx.graph.stepOf v = some st) (hnot : ¬ Rebuilt ctx d v)
    {p : Bytes} (hp : Watched ctx st p) :
    d.disk.file p = disk₀.file p ∨ (∃ u, ctx.graph.Edge u v ∧ Rebuilt ctx d u) ∧
      ∀ t, d.disk.mtime st.output = some t → ¬ ExistsOlder d.disk p t := by
  rcases hp with hp | rfl
  · obtain ⟨u, hu, hedge⟩ := hg.exists_edge hst hp
    by_cases hstep : ctx.graph.isStep u = true
    · obtain ⟨st', hst', hpath⟩ := hg.exists_stepOf hstep
      obtain rfl : p = st'.output := Option.some.inj (hu.symm.trans hpath)
      by_cases hrebuilt : Rebuilt ctx d u
      · refine .inr ⟨⟨u, hedge, hrebuilt⟩, ?_⟩
        rintro t ht ⟨t', ht', hlt⟩
        obtain ⟨t₁, ht₁, hlt₁⟩ := h.newer u v st' st hst' hst hrebuilt hnot t ht
        obtain rfl := Option.some.inj (ht'.symm.trans ht₁)
        exact lt_asymm hlt hlt₁
      · obtain ⟨k', hk', -⟩ := Option.bind_eq_some_iff.mp (stepOf_eq ctx.graph u ▸ hst')
        exact .inl (h.kept u k' st' hst' hk' hrebuilt).1
    · exact .inl (h.unwritten p (hsep.unwritten_source hg hu (by simpa using hstep)))
  · exact .inl (h.unwritten _ hsep.unwritten_buildFile)

/-- A step that has not run and whose output and hash are there is not demanded exactly when
everything that it watches exists and is older. -/
theorem DataDemand.not_demanded_iff (hg : ctx.graph.WellFormed) (h : DataDemand ctx disk₀ d)
    (hsep : Separate ctx) (hst : ctx.graph.stepOf v = some st)
    (hk : ctx.graph.stepIdOf v = some k) (hnot : ¬ Rebuilt ctx d v)
    (hhash : d.commandHash k = (ctx.commandOn disk₀ st).hash) {t : FileTime}
    (ht : d.disk.mtime st.output = some t) :
    ¬ Demanded ctx disk₀ d v ↔ ∀ p, Watched ctx st p → ExistsOlder d.disk p t := by
  obtain ⟨hfile, hkept⟩ := h.kept v k st hst hk hnot
  have ht₀ : disk₀.mtime st.output = some t := by
    rw [← ht, Disk.mtime, Disk.mtime, hfile]
  constructor
  · intro hno p hp
    -- what is not as it was has been rebuilt, and would demand the step
    have hold : d.disk.file p = disk₀.file p := by
      rcases h.watched_cases hg hsep hst hnot hp with hsame | ⟨hrebuilt, -⟩
      · exact hsame
      · exact absurd (.inr hrebuilt) hno
    have hupToDate : UpToDate ctx disk₀ st := by
      by_contra hout
      exact hno (.inl ⟨st, hst, hout⟩)
    obtain ⟨-, t₁, ht₁, hall⟩ := hupToDate
    obtain rfl := Option.some.inj (ht₀.symm.trans ht₁)
    obtain ⟨t', ht', hlt⟩ := hall p hp
    exact ⟨t', by rw [← ht', Disk.mtime, Disk.mtime, hold], hlt⟩
  · intro hall
    have hold : ∀ p, Watched ctx st p → d.disk.file p = disk₀.file p := by
      intro p hp
      rcases h.watched_cases hg hsep hst hnot hp with hsame | ⟨-, hnewer⟩
      · exact hsame
      · exact absurd (hall p hp) (hnewer t ht)
    rintro (⟨st', hst', hout⟩ | ⟨u, hedge, hrebuilt⟩)
    · obtain rfl : st = st' := Option.some.inj (hst.symm.trans hst')
      refine hout ⟨hkept.symm.trans hhash, t, ht₀, fun p hp => ?_⟩
      obtain ⟨t', ht', hlt⟩ := hall p hp
      exact ⟨t', by rw [← ht', Disk.mtime, Disk.mtime, hold p hp], hlt⟩
    · -- a rebuilt input is newer than the output
      obtain ⟨k', hk', hran⟩ := hrebuilt
      have hustep : ctx.graph.isStep u = true := by simp [isStep_eq, hk']
      obtain ⟨st', hst', hpath⟩ := hg.exists_stepOf hustep
      obtain ⟨p, hp, hmem⟩ := hg.path_mem_allInputs hst hedge
      obtain rfl : p = st'.output := Option.some.inj (hp.symm.trans hpath)
      obtain ⟨t₁, ht₁, hlt₁⟩ := h.newer u v st' st hst' hst ⟨k', hk', hran⟩ hnot t ht
      obtain ⟨t', ht', hlt⟩ := hall _ (.inl hmem)
      obtain rfl := Option.some.inj (ht'.symm.trans ht₁)
      exact absurd hlt (lt_asymm hlt₁)

end Disk

/-! ### A step of a call -/

section Step

variable {d d' : BuildData} {v k : ℕ} {st : BuildStep} {call : Call} {r : Call ⊕ ℤ}

/-- What a call has found out after `changedSince` answered. -/
theorem callDemand_afterProbe (hg : ctx.graph.WellFormed) (hdata : DataDemand ctx disk₀ d)
    (hsep : Separate ctx) (hst : ctx.graph.stepOf v = some st)
    (hk : ctx.graph.stepIdOf v = some k) (hsrc : SourcesOK ctx disk₀ d) {cmd : Command}
    {t : FileTime} {ref : SlotRef} {rest : List ℕ} {pos : Probe}
    (hok : CallOK ctx d v st (.probe cmd t ref rest pos))
    (h : CallDemand ctx disk₀ d v k st (.probe cmd t ref rest pos)) {answer : Bool}
    (hanswer : answer = changed (d.disk.mtime (slotPath ctx ref)) t) :
    CallDemand ctx disk₀ d v k st (afterProbe d v cmd t ref rest answer) := by
  obtain ⟨hnot, rfl, hhash⟩ := h
  obtain ⟨-, ht, href, -, hseen, hbuild, -⟩ := hok
  have hiff := hdata.not_demanded_iff hg hsep hst hk hnot hhash ht
  unfold afterProbe
  split_ifs with hyes hsum
  · -- the file that the slot stands for is not older
    refine ⟨hnot, ?_, rfl⟩
    by_contra hno
    have hwatched : Watched ctx st (slotPath ctx ref) := by
      cases ref with
      | buildFile => exact .inr rfl
      | node i => exact watched_of_producedIn hg hst (href i rfl)
    have hchanged := changed_eq_false_iff.mpr (hiff.mp hno _ hwatched)
    rw [← hanswer, hyes] at hchanged
    exact absurd hchanged (by simp)
  · -- some source is not older
    refine ⟨hnot, ?_, rfl⟩
    by_contra hno
    have hunchanged : sourcesChanged ((sourceSummaries ctx.graph disk₀)[v]?.getD {}) t = false :=
      not_sourcesChanged_of_older hg (isStep_of_stepOf hst) (by
        intro u p hu hedge hsource
        obtain ⟨p', hp', hmem⟩ := hg.path_mem_allInputs hst hedge
        obtain rfl : p = p' := Option.some.inj (hu.symm.trans hp')
        obtain ⟨t', ht', hlt⟩ := hiff.mp hno p (.inl hmem)
        exact ⟨t', (hsrc.2 u p hu hsource).symm.trans ht', hlt⟩)
    rw [← hsrc.1, hsum.2] at hunchanged
    exact absurd hunchanged (by simp)
  · have hnow : ExistsOlder d.disk (slotPath ctx ref) t :=
      changed_eq_false_iff.mp (hanswer ▸ Bool.eq_false_of_not_eq_true hyes)
    cases rest with
    | cons j rest => exact ⟨hnot, rfl, hhash⟩
    | nil =>
      refine ⟨hnot, hiff.mpr ?_, hhash⟩
      have hbuild' : ExistsOlder d.disk ctx.buildFile t ∧
          sourcesChanged (d.sources[v]?.getD {}) t = false := by
        by_cases hrefb : ref = .buildFile
        · subst hrefb
          exact ⟨hnow, by simpa using hsum⟩
        · exact hbuild hrefb
      refine existsOlder_of_checked hg hst hsrc hbuild'.1 hbuild'.2 fun i hi => ?_
      rcases hseen i hi with rfl | hmem | hold
      · exact hnow
      · exact absurd hmem List.not_mem_nil
      · exact hold

/-- What a step of a call does to the files, the hashes and the record of what ran: nothing but
to write a response file, or its tool has exited, or the hash is stored. -/
inductive Touch (d : BuildData) (k : ℕ) (st : BuildStep) : Call → BuildData → Call ⊕ ℤ → Prop
  | quiet {call : Call} {d' : BuildData} {r : Call ⊕ ℤ} :
      (∀ p, (st.tool = ascii "ld" → rspInputThreshold < st.parsedInputs.length →
        st.rspPath ≠ p) → d'.disk.file p = d.disk.file p) →
      d'.commandHash = d.commandHash → d'.ran = d.ran → Touch d k st call d' r
  | exited {cmd since mtime} : since.olderThan mtime = true →
      Touch d k st (.running cmd since) (d.exited k st cmd mtime) (.inl (.commit cmd.hash))
  | commit {hash} : Touch d k st (.commit hash) (d.setHash k hash) (.inl .invalidate)

theorem Advance.touch (hadv : Advance ctx d v k st call d' r) : Touch d k st call d' r := by
  cases hadv with
  | exited hold => exact .exited hold
  | commit => exact .commit
  | writeRsp _ hld hlen =>
    refine .quiet (fun p hp => BuildData.file_writeRsp_of_ne ?_) (by simp) (by simp)
    exact (hp hld hlen).symm
  | exchanged => exact .quiet (by simp) (by simp) (by simp)
  | fill => exact .quiet (by simp) (by simp) (by simp)
  | recordExchanged => exact .quiet (by simp) (by simp) (by simp)
  | recordFill => exact .quiet (by simp) (by simp) (by simp)
  | invalidate => exact .quiet (by simp) (by simp) (by simp)
  | invalidateBuildFile => exact .quiet (by simp) (by simp) (by simp)
  | _ => exact .quiet (fun _ _ => rfl) rfl rfl

/-- A response file is no output. -/
theorem Separate.rsp_ne_output (hg : ctx.graph.WellFormed) (hsep : Separate ctx) {u : ℕ}
    {st' : BuildStep} (hst : ctx.graph.stepOf v = some st) (hst' : ctx.graph.stepOf u = some st')
    (hld : st.tool = ascii "ld") (hlen : rspInputThreshold < st.parsedInputs.length) :
    st.rspPath ≠ st'.output := by
  obtain ⟨st₁, hst₁, hpath⟩ := hg.exists_stepOf (isStep_of_stepOf hst')
  obtain rfl : st₁ = st' := Option.some.inj (hst₁.symm.trans hst')
  exact (hsep.rsp_not_known hg hst hld hlen (.inr ⟨u, hpath⟩)).symm

theorem rebuilt_congr (hran : d'.ran = d.ran) (u : ℕ) : Rebuilt ctx d' u ↔ Rebuilt ctx d u := by
  rw [Rebuilt, Rebuilt]
  simp only [Ran, hran]

/-- The record of what ran changes for the step itself at most. -/
theorem Touch.rebuilt_iff (hg : ctx.graph.WellFormed) (hk : ctx.graph.stepIdOf v = some k)
    (h : Touch d k st call d' r) {u : ℕ} (hne : u ≠ v) :
    Rebuilt ctx d' u ↔ Rebuilt ctx d u := by
  cases h with
  | quiet _ _ hran => exact rebuilt_congr hran u
  | commit => exact rebuilt_congr rfl u
  | exited =>
    have hother : ∀ k', ctx.graph.stepIdOf u = some k' → k' ≠ k := by
      rintro k' hk' rfl
      exact hne (hg.stepIdOf_inj hk' hk)
    constructor
    · rintro ⟨k', hk', cmd, hmem⟩
      simp only [BuildData.exited, List.mem_cons, Prod.mk.injEq, hother k' hk', false_and,
        false_or] at hmem
      exact ⟨k', hk', cmd, hmem⟩
    · rintro ⟨k', hk', cmd, hmem⟩
      exact ⟨k', hk', cmd, List.mem_cons_of_mem _ hmem⟩

/-- A tool that has exited has run. -/
theorem rebuilt_exited (hk : ctx.graph.stepIdOf v = some k) {cmd : Command} {mtime : FileTime} :
    Rebuilt ctx (d.exited k st cmd mtime) v := ⟨k, hk, cmd, List.mem_cons_self⟩

/-- What has run stays so. -/
theorem Touch.rebuilt (h : Touch d k st call d' r) {u : ℕ} (hu : Rebuilt ctx d u) :
    Rebuilt ctx d' u := by
  cases h with
  | quiet _ _ hran => exact (rebuilt_congr hran u).mpr hu
  | commit => exact hu
  | exited =>
    obtain ⟨k', hk', cmd, hmem⟩ := hu
    exact ⟨k', hk', cmd, List.mem_cons_of_mem _ hmem⟩

/-- The files that no step writes stay as they were, and so do output and hash of the other
steps. -/
theorem Touch.file_eq (h : Touch d k st call d' r) {p : Bytes} (hout : p ≠ st.output)
    (hrsp : st.tool = ascii "ld" → rspInputThreshold < st.parsedInputs.length → st.rspPath ≠ p) :
    d'.disk.file p = d.disk.file p := by
  cases h with
  | quiet hfile => exact hfile p hrsp
  | exited => exact Disk.file_write_of_ne hout
  | commit => rfl

theorem Touch.commandHash_eq (h : Touch d k st call d' r) {k' : ℕ} (hne : k' ≠ k) :
    d'.commandHash k' = d.commandHash k' := by
  cases h with
  | quiet _ hhash => rw [hhash]
  | exited => rfl
  | commit => simp [BuildData.setHash, hne]

end Step

/-! ### The invariant -/

section Invariant

variable {cfg : PoolConfig} {s : State BuildData Call} {v k : ℕ} {st : BuildStep} {call : Call}
  {d' : BuildData} {r : Call ⊕ ℤ}

/-- A step of a call keeps what is known of the data. -/
theorem DataDemand.stepping (hg : ctx.graph.WellFormed) (hsep : Separate ctx)
    (hs : Stepping ctx cfg disk₀ s v k st call d' r) (h : DataDemand ctx disk₀ s.data)
    (hcall : CallDemand ctx disk₀ s.data v k st call) : DataDemand ctx disk₀ d' := by
  have htouch := hs.advance.touch
  have hfile : ∀ u st', u ≠ v → ctx.graph.stepOf u = some st' →
      d'.disk.file st'.output = s.data.disk.file st'.output := by
    intro u st' hne hst'
    obtain ⟨k', hk', -⟩ := Option.bind_eq_some_iff.mp (stepOf_eq ctx.graph u ▸ hst')
    exact htouch.file_eq (hs.ne hg hne hst' hk').2 (hsep.rsp_ne_output hg hs.stepOf hst')
  -- files no step writes, steps not rebuilt, and the times of rebuilt steps
  refine ⟨fun p hp => ?_, fun u k' st' hst' hk' hnot => ?_, fun u w st₁ st₂ h₁ h₂ hran hnot => ?_⟩
  · obtain ⟨hout, hrsp⟩ := hp st (mem_steps_of_stepOf hs.stepOf)
    exact (htouch.file_eq hout.symm hrsp).trans (h.unwritten p hp)
  · have hnot₀ : ¬ Rebuilt ctx s.data u := fun hu => hnot (htouch.rebuilt hu)
    obtain ⟨hold, hhash⟩ := h.kept u k' st' hst' hk' hnot₀
    by_cases hne : u = v
    · -- the step of the call itself, still not rebuilt after the move
      subst hne
      obtain rfl : st' = st := Option.some.inj (hst'.symm.trans hs.stepOf)
      obtain rfl : k' = k := Option.some.inj (hk'.symm.trans hs.stepIdOf)
      cases htouch with
      | quiet hsame hcommand =>
        refine ⟨(hsame _ (hsep.rsp_ne_output hg hst' hst')).trans hold, ?_⟩
        rw [hcommand]
        exact hhash
      | exited => exact absurd (rebuilt_exited hk') hnot
      | commit => exact absurd hcall.1 hnot₀
    · refine ⟨(hfile u st' hne hst').trans hold, ?_⟩
      rw [htouch.commandHash_eq (hs.ne hg hne hst' hk').1]
      exact hhash
  · intro t' ht'
    have hnot₀ : ¬ Rebuilt ctx s.data w := fun hw => hnot (htouch.rebuilt hw)
    by_cases hu : Rebuilt ctx s.data u
    · -- both were as they are before the step
      have huv : u = v → d'.disk.file st₁.output = s.data.disk.file st₁.output := by
        rintro rfl
        obtain rfl : st₁ = st := Option.some.inj (h₁.symm.trans hs.stepOf)
        cases htouch with
        | quiet hsame => exact hsame _ (hsep.rsp_ne_output hg h₁ h₁)
        | exited => exact absurd hu hcall.1
        | commit => rfl
      have hfile₁ : d'.disk.file st₁.output = s.data.disk.file st₁.output := by
        by_cases hne : u = v
        · exact huv hne
        · exact hfile u st₁ hne h₁
      have hfile₂ : d'.disk.file st₂.output = s.data.disk.file st₂.output := by
        by_cases hne : w = v
        · subst hne
          obtain rfl : st₂ = st := Option.some.inj (h₂.symm.trans hs.stepOf)
          cases htouch with
          | quiet hsame => exact hsame _ (hsep.rsp_ne_output hg h₂ h₂)
          | exited => exact absurd (rebuilt_exited hs.stepIdOf) hnot
          | commit => rfl
        · exact hfile w st₂ hne h₂
      rw [Disk.mtime, hfile₂] at ht'
      obtain ⟨t, ht, hlt⟩ := h.newer u w st₁ st₂ h₁ h₂ hu hnot₀ t' ht'
      exact ⟨t, by rw [← ht, Disk.mtime, Disk.mtime, hfile₁], hlt⟩
    · -- the tool of `u` has just exited: its output is newer than all that was there
      have hne : u = v := by
        by_contra hne
        exact hu ((htouch.rebuilt_iff hg hs.stepIdOf hne).mp hran)
      subst hne
      obtain rfl : st₁ = st := Option.some.inj (h₁.symm.trans hs.stepOf)
      cases htouch with
      | quiet _ _ hsame => exact absurd ((rebuilt_congr hsame u).mp hran) hu
      | commit => exact absurd hcall.1 hu
      | @exited cmd since mtime hold =>
        refine ⟨mtime, by simp [BuildData.exited, Disk.mtime], ?_⟩
        obtain ⟨-, -, -, hsince⟩ := hcall
        have hwu : w ≠ u := by
          rintro rfl
          exact hnot hran
        obtain ⟨k', hk', -⟩ := Option.bind_eq_some_iff.mp (stepOf_eq ctx.graph w ▸ h₂)
        have hbefore : since.file st₂.output = s.data.disk.file st₂.output :=
          (hsince w st₂ h₂ hnot₀).trans (h.kept w k' st₂ h₂ hk' hnot₀).1.symm
        obtain ⟨f, hf, rfl⟩ := Option.map_eq_some_iff.mp ht'
        rw [hfile w st₂ hwu h₂, ← hbefore] at hf
        exact Disk.olderThan_iff.mp hold _ f hf

/-- Demand changes only for what depends on the step. -/
theorem Touch.demanded_iff {d : BuildData} (hg : ctx.graph.WellFormed)
    (hk : ctx.graph.stepIdOf v = some k) (h : Touch d k st call d' r) {u : ℕ}
    (hedge : ¬ ctx.graph.Edge v u) : Demanded ctx disk₀ d' u ↔ Demanded ctx disk₀ d u := by
  have hsame : ∀ w, ctx.graph.Edge w u → (Rebuilt ctx d' w ↔ Rebuilt ctx d w) := by
    intro w hw
    refine h.rebuilt_iff hg hk ?_
    rintro rfl
    exact hedge hw
  refine or_congr Iff.rfl (exists_congr fun w => ?_)
  exact and_congr_right (hsame w)

/-- What a call has found out is left alone by the steps of others. -/
theorem CallDemand.frame {d : BuildData} {u k' : ℕ} {st' : BuildStep} {call' : Call}
    (h : CallDemand ctx disk₀ d u k' st' call')
    (hrebuilt : Rebuilt ctx d' u ↔ Rebuilt ctx d u)
    (hdemanded : Demanded ctx disk₀ d' u ↔ Demanded ctx disk₀ d u)
    (hhash : d'.commandHash k' = d.commandHash k')
    (hgrow : ∀ w, Rebuilt ctx d w → Rebuilt ctx d' w) : CallDemand ctx disk₀ d' u k' st' call' := by
  cases call' with
  | command => exact mt hrebuilt.mp h
  | statOutput => exact ⟨mt hrebuilt.mp h.1, h.2⟩
  | probe => exact ⟨mt hrebuilt.mp h.1, h.2.1, hhash.trans h.2.2⟩
  | recordExchange =>
    exact ⟨mt hrebuilt.mp h.1, mt hdemanded.mp h.2.1, hhash.trans h.2.2⟩
  | recordFill => exact ⟨mt hrebuilt.mp h.1, mt hdemanded.mp h.2.1, hhash.trans h.2.2⟩
  | rebuild => exact ⟨mt hrebuilt.mp h.1, hdemanded.mpr h.2.1, h.2.2⟩
  | spawn => exact ⟨mt hrebuilt.mp h.1, hdemanded.mpr h.2.1, h.2.2⟩
  | running =>
    obtain ⟨hnot, hyes, hcmd, hsince⟩ := h
    exact ⟨mt hrebuilt.mp hnot, hdemanded.mpr hyes, hcmd,
      fun w st₁ hst₁ hw => hsince w st₁ hst₁ (mt (hgrow w) hw)⟩
  | commit => exact ⟨hrebuilt.mpr h.1, hdemanded.mpr h.2.1, h.2.2⟩
  | invalidate => exact ⟨hrebuilt.mpr h.1, hdemanded.mpr h.2.1, hhash.trans h.2.2⟩

/-- What a call has found out after its next step, and what is known when it returns `0`. -/
theorem CallDemand.stepping (hg : ctx.graph.WellFormed) (hsep : Separate ctx)
    (hsteady : RspSteady ctx) (hs : Stepping ctx cfg disk₀ s v k st call d' r)
    (hdata : DataDemand ctx disk₀ s.data) (hslots : SlotsOK ctx s.data)
    (hsrc : SourcesOK ctx disk₀ s.data) (hok : CallOK ctx s.data v st call)
    (h : CallDemand ctx disk₀ s.data v k st call) :
    (∀ call', r = .inl call' → CallDemand ctx disk₀ d' v k st call') ∧
      (r = .inr 0 → (Rebuilt ctx d' v → Demanded ctx disk₀ d' v) ∧
        (ctx.dryRun = false → (Demanded ctx disk₀ d' v → Rebuilt ctx d' v) ∧
          d'.commandHash k = (ctx.commandOn disk₀ st).hash)) := by
  have hst := hs.stepOf
  have hk := hs.stepIdOf
  have htouch := hs.advance.touch
  have hdemanded : Demanded ctx disk₀ d' v ↔ Demanded ctx disk₀ s.data v :=
    htouch.demanded_iff hg hk (hs.not_edge hg (hs.mem_started hg))
  -- outside of the tool and of the store of the hash, the call leaves the record alone
  have hquiet : ∀ {call'}, d'.ran = s.data.ran → d'.commandHash = s.data.commandHash →
      CallDemand ctx disk₀ s.data v k st call' → CallDemand ctx disk₀ d' v k st call' := by
    intro call' hran hhash hcall
    exact hcall.frame (rebuilt_congr hran v) hdemanded (by rw [hhash])
      fun w => (rebuilt_congr hran w).mpr
  cases hs.advance with
  | command =>
    refine ⟨?_, by simp⟩
    rintro _ ⟨rfl⟩
    exact ⟨h, hdata.commandOf_eq hsep hsteady hst⟩
  | missing hnone =>
    refine ⟨?_, by simp⟩
    rintro _ ⟨rfl⟩
    refine ⟨h.1, .inl ⟨st, hst, ?_⟩, h.2⟩
    rintro ⟨-, t, ht, -⟩
    rw [Disk.mtime, (hdata.kept v k st hst hk h.1).1] at hnone
    exact absurd ht (by rw [Disk.mtime, hnone]; simp)
  | hashDiffers _ hdiff =>
    refine ⟨?_, by simp⟩
    rintro _ ⟨rfl⟩
    refine ⟨h.1, .inl ⟨st, hst, ?_⟩, h.2⟩
    rintro ⟨hsame, -⟩
    rw [(hdata.kept v k st hst hk h.1).2, h.2] at hdiff
    exact hdiff hsame
  | hashAgrees _ hagree =>
    refine ⟨?_, by simp⟩
    rintro _ ⟨rfl⟩
    exact ⟨h.1, h.2, h.2 ▸ hagree⟩
  | @loadReady cmd t ref rest hready =>
    refine ⟨?_, by simp⟩
    rintro _ ⟨rfl⟩
    refine callDemand_afterProbe hg hdata hsep hst hk hsrc hok h ?_
    have hc : Cached ctx ref := fun i hi => (mem_producedIn.mp (hok.2.2.1 i hi)).1
    rw [hslots ref hc hready, changed_filled]
  | loadOther => exact ⟨by rintro _ ⟨rfl⟩; exact h, by simp⟩
  | stat => exact ⟨by rintro _ ⟨rfl⟩; exact h, by simp⟩
  | exchanged => exact ⟨by rintro _ ⟨rfl⟩; exact hquiet (by simp) (by simp) h, by simp⟩
  | notExchanged =>
    refine ⟨?_, by simp⟩
    rintro _ ⟨rfl⟩
    exact callDemand_afterProbe hg hdata hsep hst hk hsrc hok h (by rw [hok.2.2.2.2.2.2])
  | fill =>
    refine ⟨?_, by simp⟩
    rintro _ ⟨rfl⟩
    exact hquiet (by simp) (by simp)
      (callDemand_afterProbe hg hdata hsep hst hk hsrc hok h (by rw [hok.2.2.2.2.2.2]))
  | recordExchanged => exact ⟨by rintro _ ⟨rfl⟩; exact hquiet (by simp) (by simp) h, by simp⟩
  | notRecorded =>
    obtain ⟨hnot, hno, hhash⟩ := h
    exact ⟨by simp, fun _ => ⟨fun hyes => absurd hyes hnot,
      fun _ => ⟨fun hyes => absurd hyes hno, hhash⟩⟩⟩
  | @recordFill t =>
    obtain ⟨hnot, hno, hhash⟩ := h
    have hran := ran_setSlot s.data (.node v) (.filled (some t))
    exact ⟨by simp, fun _ => ⟨fun hyes => absurd ((rebuilt_congr hran v).mp hyes) hnot,
      fun _ => ⟨fun hyes => absurd (hdemanded.mp hyes) hno, by simpa using hhash⟩⟩⟩
  | dryRun hd =>
    exact ⟨by simp, fun _ => ⟨fun hyes => absurd hyes h.1, fun hdry => by simp [hd] at hdry⟩⟩
  | writeRsp =>
    refine ⟨?_, by simp⟩
    rintro _ ⟨rfl⟩
    exact hquiet (by simp) (by simp) ⟨h.1, h.2.1, by rw [h.2.2]⟩
  | link => exact ⟨by rintro _ ⟨rfl⟩; exact ⟨h.1, h.2.1, by rw [h.2.2]⟩, by simp⟩
  | rebuild => exact ⟨by rintro _ ⟨rfl⟩; exact ⟨h.1, h.2.1, by rw [h.2.2]⟩, by simp⟩
  | refused => exact ⟨by simp, by simp⟩
  | spawn =>
    refine ⟨?_, by simp⟩
    rintro _ ⟨rfl⟩
    refine ⟨h.1, h.2.1, h.2.2, fun u st' hst' hnot => ?_⟩
    obtain ⟨k', hk', -⟩ := Option.bind_eq_some_iff.mp (stepOf_eq ctx.graph u ▸ hst')
    exact (hdata.kept u k' st' hst' hk' hnot).1
  | notRun => exact ⟨by simp, by simp⟩
  | failed hc => exact ⟨by simp, by simp [hc]⟩
  | exited =>
    refine ⟨?_, by simp⟩
    rintro _ ⟨rfl⟩
    exact ⟨rebuilt_exited hk, hdemanded.mpr h.2.1, h.2.2.1⟩
  | commit =>
    refine ⟨?_, by simp⟩
    rintro _ ⟨rfl⟩
    exact ⟨h.1, hdemanded.mpr h.2.1, by simpa [BuildData.setHash] using h.2.2⟩
  | invalidateBuildFile =>
    refine ⟨by simp, fun _ => ⟨fun _ => hdemanded.mpr h.2.1, fun _ => ⟨fun _ => ?_, ?_⟩⟩⟩
    · exact (rebuilt_congr (by simp) v).mpr h.1
    · simpa using h.2.2
  | invalidate =>
    refine ⟨by simp, fun _ => ⟨fun _ => hdemanded.mpr h.2.1, fun _ => ⟨fun _ => ?_, ?_⟩⟩⟩
    · exact (rebuilt_congr (by simp) v).mpr h.1
    · simpa using h.2.2

/-- In every reachable state, a dry run's too, what has run was demanded; and what has succeeded
when it is not a dry run did run if it was demanded, and has the hash of its command. -/
theorem demand (hg : ctx.graph.WellFormed) (hsep : Separate ctx) (hsteady : RspSteady ctx)
    (h : (poolMachine (processStep ctx) cfg ctx.graph (.start ctx disk₀)).Reachable s) :
    (demandInvariant ctx disk₀).Holds ctx.graph s := by
  have hnever : ∀ v, ¬ Rebuilt ctx (.start ctx disk₀) v := by
    rintro v ⟨k, -, cmd, hmem⟩
    simp [BuildData.start] at hmem
  -- at the start, at the first step of a call, for the call that moves, and for the others
  refine CallInvariant.holds _ hg ?_ ?_ ?_ ?_ h
  · refine ⟨⟨fun _ _ => rfl, fun v k st hst hk _ => ⟨rfl, ?_⟩, ?_⟩, hnever⟩
    · rw [stepOf_eq, hk, Option.bind_some] at hst
      simp [BuildData.start, hst]
    · exact fun u _ _ _ _ _ hu => absurd hu (hnever u)
  · exact fun d v _ hbefore _ _ _ _ => hbefore
  · intro s v k st call d' r hs hI
    have hsound := soundInvariant_holds hg hsep hs.reachable
    have hcall := hI.during v call hs.running k st hs.stepOf hs.stepIdOf
    have hown := hcall.stepping hg hsep hsteady hs hI.data hsound.data.1 hsound.data.2
      (hsound.during v call hs.running st hs.stepOf)
    refine ⟨hI.data.stepping hg hsep hs hcall, fun call' hr k' st' hst' hk' => ?_, fun hr => ?_⟩
    · obtain rfl : st = st' := Option.some.inj (hs.stepOf.symm.trans hst')
      obtain rfl : k = k' := Option.some.inj (hs.stepIdOf.symm.trans hk')
      exact hown.1 call' hr
    · obtain ⟨hran, hall⟩ := hown.2 hr
      refine ⟨hran, fun hdry => ⟨(hall hdry).1, fun k' st' hst' hk' => ?_⟩⟩
      obtain rfl : st = st' := Option.some.inj (hs.stepOf.symm.trans hst')
      obtain rfl : k = k' := Option.some.inj (hs.stepIdOf.symm.trans hk')
      exact (hall hdry).2
  · intro s v k st call d' r hs hI u hne hu
    have htouch := hs.advance.touch
    have hacc := accounted hg.linked hs.reachable
    have hrebuilt := htouch.rebuilt_iff hg hs.stepIdOf hne
    -- nothing a started node depends on is still to move
    have hdemanded : u ∈ s.started →
        (Demanded ctx disk₀ d' u ↔ Demanded ctx disk₀ s.data u) :=
      fun hstarted => htouch.demanded_iff hg hs.stepIdOf (hs.not_edge hg hstarted)
    have hhash : ∀ k' st', ctx.graph.stepOf u = some st' → ctx.graph.stepIdOf u = some k' →
        d'.commandHash k' = s.data.commandHash k' :=
      fun k' st' hst' hk' => htouch.commandHash_eq (hs.ne hg hne hst' hk').1
    refine ⟨fun _ hbefore => mt hrebuilt.mp hbefore, fun call' hrun hcall k' st' hst' hk' => ?_,
      fun hsucc hafter => ?_⟩
    · have hstarted := hacc.started_of_running hrun (v := u) (by simp [Pc.running])
      exact (hcall k' st' hst' hk').frame hrebuilt (hdemanded hstarted) (hhash k' st' hst' hk')
        fun w => htouch.rebuilt
    · have hsame := hdemanded (hacc.started_of_succeeded hsucc)
      refine ⟨fun hran => hsame.mpr (hafter.1 (hrebuilt.mp hran)), fun hdry => ?_⟩
      obtain ⟨hran, hkept⟩ := hafter.2 hdry
      refine ⟨fun hyes => hrebuilt.mpr (hran (hsame.mp hyes)), fun k' st' hst' hk' => ?_⟩
      rw [hhash k' st' hst' hk']
      exact hkept k' st' hst' hk'

/-! ### What a build leaves, and a build that has nothing to do -/

/-- `needsRebuild` answered true, and the call has not returned. -/
def Call.rebuilding : Call → Bool
  | .rebuild _ => true
  | .spawn _ => true
  | .running _ _ => true
  | .commit _ => true
  | .invalidate => true
  | _ => false

theorem CallDemand.demanded {d : BuildData} (h : CallDemand ctx disk₀ d v k st call)
    (hrebuilding : call.rebuilding = true) : Demanded ctx disk₀ d v := by
  cases call with
  | rebuild => exact h.2.1
  | spawn => exact h.2.1
  | running => exact h.2.1
  | commit => exact h.2.1
  | invalidate => exact h.2.1
  | _ => exact Bool.noConfusion hrebuilding

/-- After a successful build that is not a dry run, what has run is what was demanded. -/
theorem rebuilt_iff_of_ok (hg : ctx.graph.WellFormed) (hsep : Separate ctx)
    (hsteady : RspSteady ctx) (hdry : ctx.dryRun = false)
    (h : (poolMachine (processStep ctx) cfg ctx.graph (.start ctx disk₀)).Reachable s)
    (hjoin : s.Joined cfg) (hok : s.executeResult ctx.graph = .ok ())
    (hv : ctx.graph.isStep v = true) :
    Rebuilt ctx s.data v ↔ Demanded ctx disk₀ s.data v := by
  have hafter := (demand hg hsep hsteady h).after v (succeeded_of_ok hg.linked h hjoin hok hv)
  exact ⟨hafter.1, (hafter.2 hdry).1⟩

/-- When every step is up to date, nothing is ever rebuilt. -/
theorem not_rebuilding_of_upToDate (hg : ctx.graph.WellFormed) (hsep : Separate ctx)
    (hsteady : RspSteady ctx) (hup : ∀ v, ¬ Outdated ctx disk₀ v)
    (h : (poolMachine (processStep ctx) cfg ctx.graph (.start ctx disk₀)).Reachable s) :
    s.data.ran = [] ∧ ∀ v call, .process v call ∈ s.workers → call.rebuilding = false := by
  have hcalls : ∀ {s : State BuildData Call},
      (poolMachine (processStep ctx) cfg ctx.graph (.start ctx disk₀)).Reachable s →
      s.data.ran = [] → ∀ v call, .process v call ∈ s.workers → call.rebuilding = false := by
    intro s hr hnone v call hmem
    by_contra hne
    obtain ⟨hstep, -⟩ := (accounted hg.linked hr).running hmem (v := v) (by simp [Pc.running])
    obtain ⟨st, hst, -⟩ := hg.exists_stepOf hstep
    obtain ⟨k, hk, -⟩ := Option.bind_eq_some_iff.mp (stepOf_eq ctx.graph v ▸ hst)
    have hcall := (demand hg hsep hsteady hr).during v call hmem k st hst hk
    rcases hcall.demanded (by simpa using hne) with hout | ⟨u, -, k', -, cmd, hran⟩
    · exact hup v hout
    · rw [hnone] at hran
      exact List.not_mem_nil hran
  suffices hnone : s.data.ran = [] from ⟨hnone, hcalls h hnone⟩
  refine pool_invariant (I := fun s => s.data.ran = []) ?_ ?_ ?_ ?_ h
  · intro order horder
    rw [initialState_eq ctx.graph horder]
    rfl
  · exact fun s hI => hI
  · exact fun s _ hI _ _ => hI
  · intro s i pc sh d pc' events hr hI hi hm
    -- only the exit of a tool is recorded, and no tool runs
    have hadvance : ∀ v call outcome r, pc = .process v call →
        Cob.advance ctx s.data v call outcome = some (d, r) → d.ran = [] := by
      rintro v call outcome r rfl hadv
      have hrun := List.mem_of_getElem? hi
      obtain ⟨hstep, -⟩ := (accounted hg.linked hr).running hrun (v := v) (by simp [Pc.running])
      obtain ⟨st, hst, -⟩ := hg.exists_stepOf hstep
      obtain ⟨k, hk, -⟩ := Option.bind_eq_some_iff.mp (stepOf_eq ctx.graph v ▸ hst)
      cases (advance_cases hst hk hadv).touch with
      | quiet _ _ hran => exact hran.trans hI
      | commit => exact hI
      | exited => exact Bool.noConfusion (hcalls hr hI v _ hrun)
    have hquiet : d = s.data → d.ran = [] := by
      rintro rfl
      exact hI
    show d.ran = []
    cases hm with
    | advance hadv => exact hadvance _ _ _ _ rfl hadv
    | succeed hadv => exact hadvance _ _ _ _ rfl hadv
    | fail hadv => exact hadvance _ _ _ _ rfl hadv
    | _ => exact hquiet rfl

end Invariant

end Demand

end Cob
