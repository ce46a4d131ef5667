import Cob.Executor.Prediction

/-!
# What a build leaves behind

Threads race for the steps, for the slots of the time caches and for the response files. None of
this can be seen in the result: a successful build has run the steps downstream of what was out of
date (`ran_iff_downstream`), and what it leaves in each file is a function of the disk on which
it began, as long as response files can be written (`leaves_of_ok`, `Leaves.unique`).

The module introduces:

* `Downstream` — the steps that depend on a step that was out of date;
* `Leaves` — what is in a file after the build, read off the disk before it;
* `RspOwned` — different link steps with many inputs have different response files;
* `leftInvariant` — outputs, response files and hashes while the build goes on.
-/

namespace Cob

open BuildGraph NodeTimes

/-- A link step whose inputs do not fit on a command line. -/
def BuildStep.LinksMany (st : BuildStep) : Prop :=
  st.tool = ascii "ld" ∧ rspInputThreshold < st.parsedInputs.length

instance (st : BuildStep) : Decidable st.LinksMany :=
  inferInstanceAs (Decidable (_ ∧ _))

/-- No two link steps write the same response file. -/
def RspOwned (g : BuildGraph) : Prop :=
  ∀ st ∈ g.steps, ∀ st' ∈ g.steps, st.LinksMany → st'.LinksMany → st.rspPath = st'.rspPath →
    st.output = st'.output

instance (g : BuildGraph) : Decidable (RspOwned g) :=
  inferInstanceAs (Decidable (∀ st ∈ g.steps, _))

/-- Every step belongs to a node. -/
theorem BuildGraph.WellFormed.exists_node {g : BuildGraph} (hg : g.WellFormed) {st : BuildStep}
    (hst : st ∈ g.steps) : ∃ v k, g.stepOf v = some st ∧ g.stepIdOf v = some k := by
  obtain ⟨k, hk⟩ := List.mem_iff_getElem?.mp hst
  obtain ⟨v, hv⟩ := hg.node_of_step k st hk
  exact ⟨v, k, by rw [stepOf_eq, hv, Option.bind_some, hk], hv⟩

section Reproducible

variable (ctx : StepContext)

/-- The step was out of date when the build began, or it depends on one that was. -/
def Downstream (disk₀ : Disk) (v : ℕ) : Prop :=
  ∃ u, Outdated ctx disk₀ u ∧ Relation.ReflTransGen ctx.graph.Edge u v

/-- Whether the build finds a response file that it need not write. -/
def StepContext.findsRsp (disk₀ : Disk) (st : BuildStep) : Bool :=
  (BuildData.start ctx disk₀).usableRsp ctx st

/-- What a successful build leaves in the file `p`. -/
inductive Leaves (disk₀ : Disk) (p : Bytes) : Option Contents → Prop
  | output {v st} : ctx.graph.stepOf v = some st → Downstream ctx disk₀ v → st.output = p →
      Leaves disk₀ p (some (.made (ctx.commandOn disk₀ st).args))
  | rsp {v st} : ctx.graph.stepOf v = some st → Downstream ctx disk₀ v → st.LinksMany →
      ctx.findsRsp disk₀ st = false → st.rspPath = p → Leaves disk₀ p (some (.text st.rspContent))
  | kept : (∀ v st, ctx.graph.stepOf v = some st → Downstream ctx disk₀ v →
      st.output ≠ p ∧ (st.LinksMany → ctx.findsRsp disk₀ st = false → st.rspPath ≠ p)) →
      Leaves disk₀ p ((disk₀.file p).map File.contents)

/-- The response file of the step, if it is its own, is as it was. -/
def RspKept (disk₀ : Disk) (d : BuildData) (st : BuildStep) : Prop :=
  RspOwned ctx.graph → st.LinksMany → d.disk.file st.rspPath = disk₀.file st.rspPath

/-- The response file of the step, if it is its own, was usable or lists the inputs, unless some
response file could not be written. -/
def RspWritten (disk₀ : Disk) (d : BuildData) (st : BuildStep) : Prop :=
  RspOwned ctx.graph → st.LinksMany →
    (ctx.findsRsp disk₀ st = true → d.disk.file st.rspPath = disk₀.file st.rspPath) ∧
      (ctx.findsRsp disk₀ st = false → d.rspFailed = false →
        ∃ t, d.disk.file st.rspPath = some ⟨t, .text st.rspContent⟩)

/-- What has run, the outputs of it, and the flag that says whether a hash has changed. -/
structure DataLeft (disk₀ : Disk) (d : BuildData) : Prop where
  once : (d.ran.map Prod.fst).Nodup
  command : ∀ k st cmd, ctx.graph.steps[k]? = some st → (k, cmd) ∈ d.ran →
    cmd = ctx.commandOn disk₀ st
  output : ∀ v st, ctx.graph.stepOf v = some st → Rebuilt ctx d v →
    ∃ t, d.disk.file st.output = some ⟨t, .made (ctx.commandOn disk₀ st).args⟩
  hashes : d.hashesChanged = true ↔
    ∃ k st, ctx.graph.steps[k]? = some st ∧ d.commandHash k ≠ st.commandHash

/-- What a call for step `k` has made of the response file, and is about to run. -/
def CallLeft (disk₀ : Disk) (d : BuildData) (k : ℕ) (st : BuildStep) : Call → Prop
  | .spawn cmd => cmd.args = (ctx.commandOn disk₀ st).args ∧ RspWritten ctx disk₀ d st
  | .running cmd _ => cmd.args = (ctx.commandOn disk₀ st).args ∧ RspWritten ctx disk₀ d st
  | .commit _ => d.commandHash k = st.commandHash ∧ RspWritten ctx disk₀ d st
  | .invalidate => RspWritten ctx disk₀ d st
  | _ => RspKept ctx disk₀ d st

/-- Outputs, response files and hashes, as an invariant of the calls. -/
def leftInvariant (disk₀ : Disk) : CallInvariant where
  data := DataLeft ctx disk₀
  before d v := ∀ st, ctx.graph.stepOf v = some st → RspKept ctx disk₀ d st
  during d v call := ∀ k st, ctx.graph.stepOf v = some st → ctx.graph.stepIdOf v = some k →
    CallLeft ctx disk₀ d k st call
  after d v := ∀ st, ctx.graph.stepOf v = some st →
    (Rebuilt ctx d v → RspWritten ctx disk₀ d st) ∧ (¬ Rebuilt ctx d v → RspKept ctx disk₀ d st)

variable {ctx} {disk₀ : Disk}

/-! ### The steps that run -/

section Closure

variable {cfg : PoolConfig} {s : State BuildData Call} {v : ℕ}

/-- A successful build has run the steps downstream of what was out of date, and no others. -/
theorem rebuilt_iff_downstream_of_ok (hg : ctx.graph.WellFormed) (hacyclic : ctx.graph.Acyclic)
    (hsep : Separate ctx) (hsteady : RspSteady ctx) (hdry : ctx.dryRun = false)
    (h : (poolMachine (processStep ctx) cfg ctx.graph (.start ctx disk₀)).Reachable s)
    (hjoin : s.Joined cfg) (hok : s.executeResult ctx.graph = .ok ()) :
    Rebuilt ctx s.data v ↔ Downstream ctx disk₀ v := by
  have hdemanded : ∀ {u}, ctx.graph.isStep u = true →
      (Rebuilt ctx s.data u ↔ Demanded ctx disk₀ s.data u) :=
    fun hu => rebuilt_iff_of_ok hg hsep hsteady hdry h hjoin hok hu
  constructor
  · -- what ran was demanded, so it was out of date or an input of it ran
    induction v using hacyclic.wellFounded.induction with
    | h v ih =>
      intro hv
      have hstep : ctx.graph.isStep v = true := by
        obtain ⟨k, hk, -⟩ := hv
        simp [isStep_eq, hk]
      rcases (hdemanded hstep).mp hv with hout | ⟨u, hedge, hu⟩
      · exact ⟨v, hout, .refl⟩
      · obtain ⟨w, hw, hpath⟩ := ih u hedge hu
        exact ⟨w, hw, hpath.tail hedge⟩
  · rintro ⟨u, hu, hpath⟩
    -- along the path, each step is demanded because the one before it ran
    induction hpath with
    | refl =>
      obtain ⟨st, hst, -⟩ := id hu
      exact (hdemanded (isStep_of_stepOf hst)).mpr (.inl hu)
    | @tail w v _ hedge ih =>
      have hstep := hg.target_isStep w v (edge_iff.mp hedge)
      exact (hdemanded hstep).mpr (.inr ⟨w, hedge, ih⟩)

end Closure

/-! ### A step of a call -/

section Step

variable {d d' : BuildData} {v k : ℕ} {st : BuildStep} {call : Call} {r : Call ⊕ ℤ}

/-- Only `commit` touches the hashes. -/
theorem Advance.hashes (hadv : Advance ctx d v k st call d' r) :
    d'.commandHash = d.commandHash ∧ d'.hashesChanged = d.hashesChanged ∨
      ∃ hash, call = .commit hash ∧ d' = d.setHash k hash := by
  cases hadv with
  | commit => exact .inr ⟨_, rfl, rfl⟩
  | writeRsp => exact .inl ⟨by simp, by simp⟩
  | exchanged => exact .inl ⟨by simp, by simp⟩
  | fill => exact .inl ⟨by simp, by simp⟩
  | recordExchanged => exact .inl ⟨by simp, by simp⟩
  | recordFill => exact .inl ⟨by simp, by simp⟩
  | invalidate => exact .inl ⟨by simp, by simp⟩
  | invalidateBuildFile => exact .inl ⟨by simp, by simp⟩
  | _ => exact .inl ⟨rfl, rfl⟩

/-- A failure is not forgotten. -/
theorem Advance.rspFailed (hadv : Advance ctx d v k st call d' r) (h : d'.rspFailed = false) :
    d.rspFailed = false := by
  cases hadv with
  | writeRsp => exact (BuildData.file_writeRsp h).1
  | exchanged => exact (rspFailed_setSlot ..).symm.trans h
  | fill => exact (rspFailed_setSlot ..).symm.trans h
  | recordExchanged => exact (rspFailed_setSlot ..).symm.trans h
  | recordFill => exact (rspFailed_setSlot ..).symm.trans h
  | invalidate => exact (rspFailed_setSlot ..).symm.trans h
  | invalidateBuildFile =>
    exact (rspFailed_setSlot ..).symm.trans ((rspFailed_setSlot ..).symm.trans h)
  | _ => exact h

@[simp]
theorem rebuilt_setSlot {ref : SlotRef} {slot : Slot} :
    Rebuilt ctx (d.setSlot ref slot) v ↔ Rebuilt ctx d v :=
  rebuilt_congr (ran_setSlot d ref slot) v

/-- A response file matters only through what is in it. -/
theorem RspKept.frame (h : RspKept ctx disk₀ d st)
    (hfile : RspOwned ctx.graph → st.LinksMany →
      d'.disk.file st.rspPath = d.disk.file st.rspPath) : RspKept ctx disk₀ d' st :=
  fun howned hmany => (hfile howned hmany).trans (h howned hmany)

theorem RspWritten.frame (h : RspWritten ctx disk₀ d st)
    (hfile : RspOwned ctx.graph → st.LinksMany →
      d'.disk.file st.rspPath = d.disk.file st.rspPath)
    (hfailed : d'.rspFailed = false → d.rspFailed = false) : RspWritten ctx disk₀ d' st := by
  intro howned hmany
  rw [hfile howned hmany]
  obtain ⟨hfound, hwrote⟩ := h howned hmany
  exact ⟨hfound, fun hfinds hno => hwrote hfinds (hfailed hno)⟩

/-- What a call has done is left alone by what does not touch its response file and its hash. -/
theorem CallLeft.frame (h : CallLeft ctx disk₀ d k st call)
    (hhash : d'.commandHash k = d.commandHash k)
    (hfile : RspOwned ctx.graph → st.LinksMany →
      d'.disk.file st.rspPath = d.disk.file st.rspPath)
    (hfailed : d'.rspFailed = false → d.rspFailed = false) : CallLeft ctx disk₀ d' k st call := by
  cases call with
  | spawn => exact ⟨h.1, h.2.frame hfile hfailed⟩
  | running => exact ⟨h.1, h.2.frame hfile hfailed⟩
  | commit => exact ⟨hhash.trans h.1, h.2.frame hfile hfailed⟩
  | invalidate => exact RspWritten.frame h hfile hfailed
  | command => exact RspKept.frame h hfile
  | statOutput => exact RspKept.frame h hfile
  | probe => exact RspKept.frame h hfile
  | recordExchange => exact RspKept.frame h hfile
  | recordFill => exact RspKept.frame h hfile
  | rebuild => exact RspKept.frame h hfile

/-- Nobody writes the response file of another link step. -/
theorem Touch.rsp_eq (hg : ctx.graph.WellFormed) (hsep : Separate ctx)
    (h : Touch d k st call d' r) (hst : ctx.graph.stepOf v = some st) {u : ℕ} {st' : BuildStep}
    (hst' : ctx.graph.stepOf u = some st') (hne : st'.output ≠ st.output)
    (howned : RspOwned ctx.graph) (hmany : st'.LinksMany) :
    d'.disk.file st'.rspPath = d.disk.file st'.rspPath := by
  refine h.file_eq (hsep.rsp_ne_output hg hst' hst hmany.1 hmany.2) fun hld hlen heq => hne ?_
  exact (howned st (mem_steps_of_stepOf hst) st' (mem_steps_of_stepOf hst') ⟨hld, hlen⟩ hmany
    heq).symm

/-- As long as the response file is as it was, the build finds it usable or not as it did when it
began. -/
theorem RspKept.usableRsp (h : RspKept ctx disk₀ d st) (hdata : DataDemand ctx disk₀ d)
    (hsep : Separate ctx) (howned : RspOwned ctx.graph) (hmany : st.LinksMany) :
    d.usableRsp ctx st = ctx.findsRsp disk₀ st := by
  have hbuild := hdata.unwritten _ hsep.unwritten_buildFile
  exact usableRsp_congr (d := .start ctx disk₀) (h howned hmany) hbuild

end Step

theorem Command.eq_of {cmd cmd' : Command} (hargs : cmd.args = cmd'.args)
    (hhash : cmd.hash = cmd'.hash) : cmd = cmd' := by
  cases cmd
  cases cmd'
  simp_all

/-! ### The invariant -/

section Invariant

variable {cfg : PoolConfig} {s : State BuildData Call} {v k : ℕ} {st : BuildStep} {call : Call}
  {d' : BuildData} {r : Call ⊕ ℤ}

/-- A step of a call keeps what is known of the data. -/
theorem DataLeft.stepping (hg : ctx.graph.WellFormed) (hsep : Separate ctx)
    (hs : Stepping ctx cfg disk₀ s v k st call d' r) (h : DataLeft ctx disk₀ s.data)
    (hdemand : CallDemand ctx disk₀ s.data v k st call)
    (hcall : CallLeft ctx disk₀ s.data k st call) : DataLeft ctx disk₀ d' := by
  have htouch := hs.advance.touch
  have hk : ctx.graph.steps[k]? = some st := by
    have hst := hs.stepOf
    rwa [stepOf_eq, hs.stepIdOf, Option.bind_some] at hst
  refine ⟨?_, fun k' st' cmd hk' hmem => ?_, fun u st' hst' hu => ?_, ?_⟩
  · cases htouch with
    | quiet _ _ hran => exact hran ▸ h.once
    | commit => exact h.once
    | exited =>
      -- the step has not run before
      refine List.nodup_cons.mpr ⟨fun hmem => hdemand.1 ?_, h.once⟩
      obtain ⟨cmd, hmem⟩ := by simpa using hmem
      exact ⟨k, hs.stepIdOf, cmd, hmem⟩
  · cases htouch with
    | quiet _ _ hran => exact h.command k' st' cmd hk' (hran ▸ hmem)
    | commit => exact h.command k' st' cmd hk' hmem
    | exited =>
      rcases List.mem_cons.mp hmem with heq | hold
      · obtain ⟨rfl, rfl⟩ := Prod.mk.inj heq
        obtain rfl : st = st' := Option.some.inj (hk.symm.trans hk')
        exact Command.eq_of hcall.1 hdemand.2.2.1
      · exact h.command k' st' cmd hk' hold
  · by_cases hne : u = v
    · subst hne
      obtain rfl : st' = st := Option.some.inj (hst'.symm.trans hs.stepOf)
      cases htouch with
      | quiet hsame _ hran =>
        obtain ⟨t, ht⟩ := h.output u st' hst' ((rebuilt_congr hran u).mp hu)
        exact ⟨t, (hsame _ (hsep.rsp_ne_output hg hst' hst')).trans ht⟩
      | @exited cmd since mtime =>
        refine ⟨mtime, ?_⟩
        rw [← hcall.1]
        exact Disk.file_write_self
      | commit => exact h.output u st' hst' hu
    · obtain ⟨k', hk', -⟩ := Option.bind_eq_some_iff.mp (stepOf_eq ctx.graph u ▸ hst')
      obtain ⟨t, ht⟩ := h.output u st' hst' ((htouch.rebuilt_iff hg hs.stepIdOf hne).mp hu)
      refine ⟨t, (htouch.file_eq (hs.ne hg hne hst' hk').2 ?_).trans ht⟩
      exact hsep.rsp_ne_output hg hs.stepOf hst'
  · rcases hs.advance.hashes with ⟨hhash, hchanged⟩ | ⟨hash, rfl, rfl⟩
    · rw [hhash, hchanged]
      exact h.hashes
    · -- before the store the hash is still the one that was loaded
      by_cases heq : s.data.commandHash k = hash
      · have hsame : Function.update s.data.commandHash k hash = s.data.commandHash := by
          rw [← heq, Function.update_eq_self]
        simp only [BuildData.setHash, hsame, heq, ne_eq, not_true_eq_false, decide_false,
          Bool.or_false]
        exact h.hashes
      · simp only [BuildData.setHash, heq, ne_eq, not_false_eq_true, decide_true, Bool.or_true,
          true_iff]
        refine ⟨k, st, hk, ?_⟩
        rw [Function.update_self, ← hcall.1]
        exact fun hne => heq hne.symm

/-- What a call has done after its next step, and what is known when it returns `0`. -/
theorem CallLeft.stepping (hg : ctx.graph.WellFormed) (hsep : Separate ctx)
    (hsteady : RspSteady ctx) (hs : Stepping ctx cfg disk₀ s v k st call d' r)
    (hdata : DataDemand ctx disk₀ s.data) (hdemand : CallDemand ctx disk₀ s.data v k st call)
    (h : CallLeft ctx disk₀ s.data k st call) :
    (∀ call', r = .inl call' → CallLeft ctx disk₀ d' k st call') ∧
      (r = .inr 0 → (Rebuilt ctx d' v → RspWritten ctx disk₀ d' st) ∧
        (¬ Rebuilt ctx d' v → RspKept ctx disk₀ d' st)) := by
  have hafter : ∀ {d cmd t ref rest answer}, RspKept ctx disk₀ s.data st →
      CallLeft ctx disk₀ s.data k st (afterProbe d v cmd t ref rest answer) := by
    intro d cmd t ref rest answer hkept
    unfold afterProbe
    split_ifs
    · exact hkept
    · exact hkept
    · cases rest <;> exact hkept
  have hset : ∀ {ref slot call'}, CallLeft ctx disk₀ s.data k st call' →
      CallLeft ctx disk₀ (s.data.setSlot ref slot) k st call' :=
    fun hcall => hcall.frame (by simp) (fun _ _ => by simp) (by simp)
  have hargs : buildCommandArgs st ctx.flags (s.data.usableRsp ctx st) =
      (ctx.commandOn disk₀ st).args :=
    congrArg Command.args (hdata.commandOf_eq hsep hsteady hs.stepOf)
  cases hs.advance with
  | command => exact ⟨by rintro _ ⟨rfl⟩; exact h, by simp⟩
  | missing => exact ⟨by rintro _ ⟨rfl⟩; exact h, by simp⟩
  | hashDiffers => exact ⟨by rintro _ ⟨rfl⟩; exact h, by simp⟩
  | hashAgrees => exact ⟨by rintro _ ⟨rfl⟩; exact h, by simp⟩
  | loadReady => exact ⟨by rintro _ ⟨rfl⟩; exact hafter h, by simp⟩
  | loadOther => exact ⟨by rintro _ ⟨rfl⟩; exact h, by simp⟩
  | stat => exact ⟨by rintro _ ⟨rfl⟩; exact h, by simp⟩
  | exchanged => exact ⟨by rintro _ ⟨rfl⟩; exact hset h, by simp⟩
  | notExchanged => exact ⟨by rintro _ ⟨rfl⟩; exact hafter h, by simp⟩
  | fill => exact ⟨by rintro _ ⟨rfl⟩; exact hset (hafter h), by simp⟩
  | recordExchanged => exact ⟨by rintro _ ⟨rfl⟩; exact hset h, by simp⟩
  | notRecorded => exact ⟨by simp, fun _ => ⟨fun hran => absurd hran hdemand.1, fun _ => h⟩⟩
  | recordFill =>
    refine ⟨by simp, fun _ => ⟨fun hran => ?_, fun _ => RspKept.frame h fun _ _ => by simp⟩⟩
    exact absurd (rebuilt_setSlot.mp hran) hdemand.1
  | dryRun => exact ⟨by simp, fun _ => ⟨fun hran => absurd hran hdemand.1, fun _ => h⟩⟩
  | writeRsp hdry hld hlen husable =>
    refine ⟨?_, by simp⟩
    rintro _ ⟨rfl⟩
    refine ⟨hargs, fun howned hmany => ⟨fun hfinds => ?_, fun _ => ?_⟩⟩
    · rw [RspKept.usableRsp h hdata hsep howned hmany, hfinds] at husable
      cases husable
    · exact fun hno => (BuildData.file_writeRsp hno).2
  | link hdry hld hwrites =>
    refine ⟨?_, by simp⟩
    rintro _ ⟨rfl⟩
    refine ⟨hargs, fun howned hmany => ⟨fun _ => h howned hmany, fun hfinds => ?_⟩⟩
    -- with many inputs and no usable file, the file would have been written
    rw [BuildStep.writesRsp, RspKept.usableRsp h hdata hsep howned hmany, hfinds] at hwrites
    simp [hmany.2] at hwrites
  | rebuild hdry hld =>
    refine ⟨?_, by simp⟩
    rintro _ ⟨rfl⟩
    exact ⟨by rw [hdemand.2.2], fun _ hmany => absurd hmany.1 hld⟩
  | refused => exact ⟨by simp, by simp⟩
  | spawn => exact ⟨by rintro _ ⟨rfl⟩; exact h, by simp⟩
  | notRun => exact ⟨by simp, by simp⟩
  | failed hc => exact ⟨by simp, by simp [hc]⟩
  | exited =>
    refine ⟨?_, by simp⟩
    rintro _ ⟨rfl⟩
    refine ⟨(hdata.kept v k st hs.stepOf hs.stepIdOf hdemand.1).2,
      h.2.frame (fun _ hmany => ?_) id⟩
    exact Disk.file_write_of_ne (hsep.rsp_ne_output hg hs.stepOf hs.stepOf hmany.1 hmany.2)
  | commit => exact ⟨by rintro _ ⟨rfl⟩; exact h.2, by simp⟩
  | invalidateBuildFile =>
    refine ⟨by simp, fun _ => ⟨fun _ => RspWritten.frame h (fun _ _ => by simp) (by simp),
      fun hnot => ?_⟩⟩
    exact absurd (rebuilt_setSlot.mpr (rebuilt_setSlot.mpr hdemand.1)) hnot
  | invalidate =>
    refine ⟨by simp, fun _ => ⟨fun _ => RspWritten.frame h (fun _ _ => by simp) (by simp),
      fun hnot => ?_⟩⟩
    exact absurd (rebuilt_setSlot.mpr hdemand.1) hnot

/-- In every reachable state, outputs, response files and hashes are as the invariant says. -/
theorem left (hg : ctx.graph.WellFormed) (hsep : Separate ctx) (hsteady : RspSteady ctx)
    (h : (poolMachine (processStep ctx) cfg ctx.graph (.start ctx disk₀)).Reachable s) :
    (leftInvariant ctx disk₀).Holds ctx.graph s := by
  -- at the start, at the first step of a call, for the call that moves, and for the others
  refine CallInvariant.holds _ hg ⟨⟨List.nodup_nil, fun k st cmd _ hmem => ?_,
    fun v st _ hv => ?_, ?_⟩, fun _ _ _ _ _ => rfl⟩ ?_ ?_ ?_ h
  · cases hmem
  · obtain ⟨k, -, cmd, hmem⟩ := hv
    cases hmem
  · simp +contextual [BuildData.start]
  · exact fun d v _ hbefore _ st hst _ => hbefore st hst
  · intro s v k st call d' r hs hI
    have hcall := hI.during v call hs.running k st hs.stepOf hs.stepIdOf
    have hdemand := demand hg hsep hsteady hs.reachable
    have hasked := hdemand.during v call hs.running k st hs.stepOf hs.stepIdOf
    have hown := hcall.stepping hg hsep hsteady hs hdemand.data hasked
    refine ⟨hI.data.stepping hg hsep hs hasked hcall, fun call' hr k' st' hst' hk' => ?_,
      fun hr st' hst' => ?_⟩
    · obtain rfl : st = st' := Option.some.inj (hs.stepOf.symm.trans hst')
      obtain rfl : k = k' := Option.some.inj (hs.stepIdOf.symm.trans hk')
      exact hown.1 call' hr
    · obtain rfl : st = st' := Option.some.inj (hs.stepOf.symm.trans hst')
      exact hown.2 hr
  · intro s v k st call d' r hs hI u hne hu
    have htouch := hs.advance.touch
    have hfile : ∀ st', ctx.graph.stepOf u = some st' → RspOwned ctx.graph → st'.LinksMany →
        d'.disk.file st'.rspPath = s.data.disk.file st'.rspPath := by
      intro st' hst'
      obtain ⟨k', hk', -⟩ := Option.bind_eq_some_iff.mp (stepOf_eq ctx.graph u ▸ hst')
      exact htouch.rsp_eq hg hsep hs.stepOf hst' (hs.ne hg hne hst' hk').2
    have hrebuilt := htouch.rebuilt_iff hg hs.stepIdOf hne
    refine ⟨fun _ hbefore st' hst' => (hbefore st' hst').frame (hfile st' hst'),
      fun call' _ hcall k' st' hst' hk' => ?_,
      fun _ hafter st' hst' => ⟨fun hran => ?_, fun hnot => ?_⟩⟩
    · exact (hcall k' st' hst' hk').frame (htouch.commandHash_eq (hs.ne hg hne hst' hk').1)
        (hfile st' hst') hs.advance.rspFailed
    · exact ((hafter st' hst').1 (hrebuilt.mp hran)).frame (hfile st' hst') hs.advance.rspFailed
    · exact ((hafter st' hst').2 (mt hrebuilt.mpr hnot)).frame (hfile st' hst')

end Invariant

/-! ### The result -/

section Result

variable {cfg : PoolConfig} {s : State BuildData Call} {p : Bytes}

/-- A successful build that could write its response files leaves in every file what the disk before
it determines. -/
theorem leaves_of_ok (hg : ctx.graph.WellFormed) (hacyclic : ctx.graph.Acyclic)
    (hsep : Separate ctx) (hsteady : RspSteady ctx) (howned : RspOwned ctx.graph)
    (hdry : ctx.dryRun = false)
    (h : (poolMachine (processStep ctx) cfg ctx.graph (.start ctx disk₀)).Reachable s)
    (hjoin : s.Joined cfg) (hok : s.executeResult ctx.graph = .ok ())
    (hwrote : s.data.rspFailed = false) (p : Bytes) :
    Leaves ctx disk₀ p ((s.data.disk.file p).map File.contents) := by
  have hleft := left hg hsep hsteady h
  have hdata := (demand hg hsep hsteady h).data
  have hrebuilt : ∀ v, Rebuilt ctx s.data v ↔ Downstream ctx disk₀ v :=
    fun v => rebuilt_iff_downstream_of_ok hg hacyclic hsep hsteady hdry h hjoin hok
  have hrsp : ∀ v st, ctx.graph.stepOf v = some st →
      (Rebuilt ctx s.data v → RspWritten ctx disk₀ s.data st) ∧
        (¬ Rebuilt ctx s.data v → RspKept ctx disk₀ s.data st) :=
    fun v st hst =>
      hleft.after v (succeeded_of_ok hg.linked h hjoin hok (isStep_of_stepOf hst)) st hst
  by_cases hout : ∃ v st, ctx.graph.stepOf v = some st ∧ Downstream ctx disk₀ v ∧ st.output = p
  · obtain ⟨v, st, hst, hv, rfl⟩ := hout
    obtain ⟨t, ht⟩ := hleft.data.output v st hst ((hrebuilt v).mpr hv)
    rw [ht]
    exact .output hst hv rfl
  by_cases hwritten : ∃ v st, ctx.graph.stepOf v = some st ∧ Downstream ctx disk₀ v ∧
      st.LinksMany ∧ ctx.findsRsp disk₀ st = false ∧ st.rspPath = p
  · obtain ⟨v, st, hst, hv, hmany, hfinds, rfl⟩ := hwritten
    obtain ⟨t, ht⟩ := ((hrsp v st hst).1 ((hrebuilt v).mpr hv) howned hmany).2 hfinds hwrote
    rw [ht]
    exact .rsp hst hv hmany hfinds rfl
  -- nothing that has run wrote the file
  have hsame : s.data.disk.file p = disk₀.file p := by
    by_cases hnone : Unwritten ctx p
    · exact hdata.unwritten p hnone
    · obtain ⟨st, hst, hwrites⟩ := by simpa [Unwritten] using hnone
      obtain ⟨v, k, hstep, hv⟩ := hg.exists_node hst
      by_cases heq : st.output = p
      · subst heq
        have hnot : ¬ Rebuilt ctx s.data v :=
          fun hran => hout ⟨v, st, hstep, (hrebuilt v).mp hran, rfl⟩
        exact (hdata.kept v k st hstep hv hnot).1
      · obtain ⟨hld, hlen, rfl⟩ := hwrites heq
        by_cases hran : Rebuilt ctx s.data v
        · have hfinds : ctx.findsRsp disk₀ st = true := by
            by_contra hno
            have hfinds : ctx.findsRsp disk₀ st = false := by simpa using hno
            exact hwritten ⟨v, st, hstep, (hrebuilt v).mp hran, ⟨hld, hlen⟩, hfinds, rfl⟩
          exact ((hrsp v st hstep).1 hran howned ⟨hld, hlen⟩).1 hfinds
        · exact (hrsp v st hstep).2 hran howned ⟨hld, hlen⟩
  rw [hsame]
  refine .kept fun v st hst hv => ⟨fun heq => ?_, fun hmany hfinds heq => ?_⟩
  · exact hout ⟨v, st, hst, hv, heq⟩
  · exact hwritten ⟨v, st, hst, hv, hmany, hfinds, heq⟩

/-- A path is the output of one step at most. -/
theorem stepOf_inj (hg : ctx.graph.WellFormed) {u v : ℕ} {st st' : BuildStep}
    (hst : ctx.graph.stepOf u = some st) (hst' : ctx.graph.stepOf v = some st')
    (heq : st.output = st'.output) : st = st' := by
  obtain ⟨st₁, hst₁, hpath⟩ := hg.exists_stepOf (isStep_of_stepOf hst)
  obtain ⟨st₂, hst₂, hpath'⟩ := hg.exists_stepOf (isStep_of_stepOf hst')
  obtain rfl : st = st₁ := Option.some.inj (hst.symm.trans hst₁)
  obtain rfl : st' = st₂ := Option.some.inj (hst'.symm.trans hst₂)
  obtain rfl := hg.pathOf_inj hpath (heq ▸ hpath')
  exact Option.some.inj (hst.symm.trans hst')

/-- What the disk determines is one thing. -/
theorem Leaves.unique (hg : ctx.graph.WellFormed) (hsep : Separate ctx)
    (howned : RspOwned ctx.graph) {a b : Option Contents} (ha : Leaves ctx disk₀ p a)
    (hb : Leaves ctx disk₀ p b) : a = b := by
  -- a response file is no output
  have hapart : ∀ {u v st st'}, ctx.graph.stepOf u = some st → ctx.graph.stepOf v = some st' →
      st.LinksMany → st.rspPath ≠ st'.output :=
    fun hst hst' hmany => hsep.rsp_ne_output hg hst hst' hmany.1 hmany.2
  cases ha with
  | output hst hv hout =>
    cases hb with
    | output hst' _ hout' => rw [stepOf_inj hg hst hst' (hout.trans hout'.symm)]
    | rsp hst' _ hmany _ hrsp => exact absurd (hrsp.trans hout.symm) (hapart hst' hst hmany)
    | kept hnone => exact absurd hout (hnone _ _ hst hv).1
  | rsp hst hv hmany hfinds hrsp =>
    cases hb with
    | output hst' _ hout' => exact absurd (hrsp.trans hout'.symm) (hapart hst hst' hmany)
    | rsp hst' _ hmany' _ hrsp' =>
      have hout := howned _ (mem_steps_of_stepOf hst) _ (mem_steps_of_stepOf hst') hmany hmany'
        (hrsp.trans hrsp'.symm)
      rw [stepOf_inj hg hst hst' hout]
    | kept hnone => exact absurd hrsp ((hnone _ _ hst hv).2 hmany hfinds)
  | kept hnone =>
    cases hb with
    | output hst hv hout => exact absurd hout (hnone _ _ hst hv).1
    | rsp hst hv hmany hfinds hrsp => exact absurd hrsp ((hnone _ _ hst hv).2 hmany hfinds)
    | kept => rfl

/-- After a successful build every step has the hash of its command. -/
theorem commandHash_of_ok (hg : ctx.graph.WellFormed) (hsep : Separate ctx)
    (hsteady : RspSteady ctx) (hdry : ctx.dryRun = false)
    (h : (poolMachine (processStep ctx) cfg ctx.graph (.start ctx disk₀)).Reachable s)
    (hjoin : s.Joined cfg) (hok : s.executeResult ctx.graph = .ok ()) {k : ℕ} {st : BuildStep}
    (hk : ctx.graph.steps[k]? = some st) :
    s.data.commandHash k = (ctx.commandOn disk₀ st).hash := by
  obtain ⟨v, hv⟩ := hg.node_of_step k st hk
  have hst : ctx.graph.stepOf v = some st := by rw [stepOf_eq, hv, Option.bind_some, hk]
  have hsucc := succeeded_of_ok hg.linked h hjoin hok (isStep_of_stepOf hst)
  exact (((demand hg hsep hsteady h).after v hsucc).2 hdry).2 k st hst hv

/-- A successful build runs the steps downstream of what was out of date, each of them once and with
the command that the disk before the build determines, and it runs no other step. -/
theorem ran_iff_downstream (hg : ctx.graph.Built) (hacyclic : ctx.graph.Acyclic)
    (hsep : Separate ctx) (hsteady : RspSteady ctx) (hdry : ctx.dryRun = false)
    (h : (poolMachine (processStep ctx) cfg ctx.graph (.start ctx disk₀)).Reachable s)
    (hjoin : s.Joined cfg) (hok : s.executeResult ctx.graph = .ok ()) :
    (∀ v k, ctx.graph.stepIdOf v = some k →
      (k ∈ s.data.ran.map Prod.fst ↔ Downstream ctx disk₀ v)) ∧
    (s.data.ran.map Prod.fst).Nodup ∧
    ∀ k st cmd, ctx.graph.steps[k]? = some st → (k, cmd) ∈ s.data.ran →
      cmd = ctx.commandOn disk₀ st := by
  have hdata := (left hg.wellFormed hsep hsteady h).data
  refine ⟨fun v k hk => ?_, hdata.once, hdata.command⟩
  rw [← rebuilt_iff_downstream_of_ok hg.wellFormed hacyclic hsep hsteady hdry h hjoin hok]
  constructor
  · intro hmem
    obtain ⟨cmd, hmem⟩ := by simpa using hmem
    exact ⟨k, hk, cmd, hmem⟩
  · rintro ⟨k', hk', cmd, hmem⟩
    obtain rfl : k = k' := Option.some.inj (hk.symm.trans hk')
    exact List.mem_map_of_mem hmem

/-- Two successful builds that began on the same disk run the same steps, know the same hashes and,
if they could write their response files, leave the same contents in every file. -/
theorem agree_of_ok (hg : ctx.graph.WellFormed) (hacyclic : ctx.graph.Acyclic)
    (hsep : Separate ctx) (hsteady : RspSteady ctx) (howned : RspOwned ctx.graph)
    (hdry : ctx.dryRun = false) {cfg' : PoolConfig} {s' : State BuildData Call}
    (h : (poolMachine (processStep ctx) cfg ctx.graph (.start ctx disk₀)).Reachable s)
    (hjoin : s.Joined cfg) (hok : s.executeResult ctx.graph = .ok ())
    (h' : (poolMachine (processStep ctx) cfg' ctx.graph (.start ctx disk₀)).Reachable s')
    (hjoin' : s'.Joined cfg') (hok' : s'.executeResult ctx.graph = .ok ()) :
    (∀ v, Rebuilt ctx s.data v ↔ Rebuilt ctx s'.data v) ∧
    (s.data.rspFailed = false → s'.data.rspFailed = false →
      ∀ p, (s.data.disk.file p).map File.contents = (s'.data.disk.file p).map File.contents) ∧
    (∀ k st, ctx.graph.steps[k]? = some st → s.data.commandHash k = s'.data.commandHash k) ∧
    s.data.hashesChanged = s'.data.hashesChanged := by
  -- each clause compares both builds with what the disk and the graph say
  have hhash : ∀ k st, ctx.graph.steps[k]? = some st →
      s.data.commandHash k = s'.data.commandHash k := by
    intro k st hk
    rw [commandHash_of_ok hg hsep hsteady hdry h hjoin hok hk,
      commandHash_of_ok hg hsep hsteady hdry h' hjoin' hok' hk]
  refine ⟨fun v => ?_, fun hwrote hwrote' p => ?_, hhash, ?_⟩
  · rw [rebuilt_iff_downstream_of_ok hg hacyclic hsep hsteady hdry h hjoin hok,
      rebuilt_iff_downstream_of_ok hg hacyclic hsep hsteady hdry h' hjoin' hok']
  · exact (leaves_of_ok hg hacyclic hsep hsteady howned hdry h hjoin hok hwrote p).unique hg hsep
      howned (leaves_of_ok hg hacyclic hsep hsteady howned hdry h' hjoin' hok' hwrote' p)
  · rw [Bool.eq_iff_iff, (left hg hsep hsteady h).data.hashes,
      (left hg hsep hsteady h').data.hashes]
    refine exists_congr fun k => exists_congr fun st => and_congr_right fun hk => ?_
    rw [hhash k st hk]

/-- A step that has succeeded, in a build that may fail or go on, is out of date for a build that
knows the same hashes exactly when its hash is not that of its command. -/
theorem outdated_iff_of_succeeded (hg : ctx.graph.WellFormed) (hsep : Separate ctx)
    (hsteady : RspSteady ctx) (hdry : ctx.dryRun = false)
    (h : (poolMachine (processStep ctx) cfg ctx.graph (.start ctx disk₀)).Reachable s) {v : ℕ}
    {st : BuildStep} (hst : ctx.graph.stepOf v = some st) (hsucc : s.succeeded v = true)
    (hbuildFile : (s.data.disk.file ctx.buildFile).isSome)
    (hsources : ∀ u p, ctx.graph.pathOf u = some p → ctx.graph.isStep u = false →
      (s.data.disk.file p).isSome) :
    Outdated ctx s.data.disk v ↔ st.commandHash ≠ (ctx.commandOn disk₀ st).hash := by
  have hcommand : ctx.commandOn s.data.disk st = ctx.commandOn disk₀ st :=
    (demand hg hsep hsteady h).data.commandOf_eq hsep hsteady hst
  constructor
  · rintro ⟨st', hst', hout⟩ heq
    obtain rfl : st = st' := Option.some.inj (hst.symm.trans hst')
    obtain ⟨t, ht, hold⟩ := (sound hg hsep hdry h).fresh v st hst hsucc
    refine hout ⟨by rw [hcommand, heq], t, ht, fun p hp => ?_⟩
    -- what is watched exists: a producer has succeeded before
    have hthere : (s.data.disk.file p).isSome := by
      rcases hp with hp | rfl
      · obtain ⟨u, hu, hedge⟩ := hg.exists_edge hst hp
        by_cases hstep : ctx.graph.isStep u = true
        · obtain ⟨st', hst', hpath⟩ := hg.exists_stepOf hstep
          obtain rfl : p = st'.output := Option.some.inj (hu.symm.trans hpath)
          have husucc := (accounted hg.linked h).succeeded_of_started
            ((accounted hg.linked h).started_of_succeeded hsucc) hedge hstep
          obtain ⟨t', ht', -⟩ := (sound hg hsep hdry h).fresh u st' hst' husucc
          obtain ⟨f, hf, -⟩ := Option.map_eq_some_iff.mp ht'
          simp [hf]
        · exact hsources u p hu (by simpa using hstep)
      · exact hbuildFile
    obtain ⟨f, hf⟩ := Option.isSome_iff_exists.mp hthere
    have hf' : s.data.disk.mtime p = some f.mtime := by simp [Disk.mtime, hf]
    exact ⟨f.mtime, hf', hold p hp _ hf'⟩
  · intro hne
    refine ⟨st, hst, fun hup => hne ?_⟩
    rw [hup.1, hcommand]

end Result

end Reproducible

theorem separate_staleContext : Separate staleContext where
  output_ne := by decide +kernel
  rsp_ne := by decide +kernel

theorem rspSteady_staleContext : RspSteady staleContext := by
  unfold RspSteady
  decide +kernel

/-- The source of `a` was edited, and one worker builds. -/
theorem exists_built_stale : ∃ s,
    (poolMachine (processStep staleContext) ⟨1, false⟩ staleGraph
      (.start staleContext staleDisk)).Reachable s ∧
    s.Joined ⟨1, false⟩ ∧ s.executeResult staleGraph = .ok () := by
  obtain ⟨tr, s, hrun, hs⟩ := Machine.exists_run_of_exec
    (M := poolMachine (processStep staleContext) ⟨1, false⟩ staleGraph
      (.start staleContext staleDisk))
    (s := initialState staleGraph [0] (.start staleContext staleDisk))
    ⟨[0], by decide +kernel, rfl⟩
    (.spawn :: List.replicate 20 (.work 0 ⟨some 0, 10⟩) ++
      List.replicate 20 (.work 0 ⟨some 0, 20⟩))
    (fun r => r.2.Joined ⟨1, false⟩ ∧ r.2.executeResult staleGraph = .ok ()) (by decide +kernel)
  exact ⟨s, ⟨tr, hrun⟩, of_decide_eq_true hs⟩

/-- The build runs both steps, though `b` was newer than `a`. -/
theorem ran_iff_downstream_stale : ∃ s,
    (poolMachine (processStep staleContext) ⟨1, false⟩ staleGraph
      (.start staleContext staleDisk)).Reachable s ∧
    (1 ∈ s.data.ran.map Prod.fst ↔ Downstream staleContext staleDisk 2) := by
  obtain ⟨s, hreach, hjoin, hok⟩ := exists_built_stale
  have hall := ran_iff_downstream built_staleGraph acyclic_staleGraph separate_staleContext
    rspSteady_staleContext rfl hreach hjoin hok
  exact ⟨s, hreach, hall.1 2 1 (by decide +kernel)⟩

end Cob
