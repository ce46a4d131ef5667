import Cob.Executor.Freshness

/-!
# What the command hashes record

During a build the hash of a step says what wrote its output: as long as the step's tool has not
run, hash and output are those of before the build, and once it has, both are those of the build's
command (`Recorded`). A step is skipped only when its hash is that of the build's command, so if the
hashes were right before the build, every output of a successful build was written by the command
of the build (`Recorded.wrote_of_ok`).

The module introduces:

* `Matches` — an output was written by a command with the hash of its step;
* `Separates` — different argument vectors have different hashes, and none has the hash `0`;
* `Promised`, `Recorded` — what is known when a build begins, and the invariant of the build;
* `wrote_of_ok`, `matches_built`, `matches_of_allRecorded` — what a build leaves.
-/

namespace Cob

open BuildGraph NodeTimes

/-- The output of the step was written by a command whose hash the step has, if it has one. `V`
are the argument vectors that can have written it. -/
def Matches (V : Set (List Bytes)) (rapidHash : Bytes → UInt64 → UInt64) (disk : Disk)
    (st : BuildStep) : Prop :=
  st.commandHash = 0 ∨ ∀ f, disk.file st.output = some f →
    ∃ args ∈ V, f.contents = .made args ∧ hashCommand rapidHash args = st.commandHash

/-- The vectors have different hashes, and none has the hash of an unknown command. -/
structure Separates (V : Set (List Bytes)) (rapidHash : Bytes → UInt64 → UInt64) : Prop where
  injOn : Set.InjOn (hashCommand rapidHash) V
  ne_zero : ∀ args ∈ V, hashCommand rapidHash args ≠ 0

/-- No step uses a response file: `ld` steps have few inputs, and there is no such file. -/
def NoRsp (g : BuildGraph) (disk : Disk) : Prop :=
  ∀ st ∈ g.steps, st.tool = ascii "ld" →
    st.parsedInputs.length ≤ rspInputThreshold ∧ disk.file st.rspPath = none ∧
      ∀ st' ∈ g.steps, st'.output ≠ st.rspPath

instance (g : BuildGraph) (disk : Disk) : Decidable (NoRsp g disk) :=
  inferInstanceAs (Decidable (∀ st ∈ g.steps, _))

section CommandRecord

variable {ctx : StepContext} {disk₀ : Disk} {V : Set (List Bytes)}

/-- The command of a step in this build, without a response file. -/
def StepContext.command (ctx : StepContext) (st : BuildStep) : Command := commandOf ctx st false

/-- The output of the step was written by the command of this build. -/
def Wrote (ctx : StepContext) (disk : Disk) (st : BuildStep) : Prop :=
  ∃ mtime, disk.file st.output = some ⟨mtime, .made (ctx.command st).args⟩

/-- The tool of step `k` has exited with `0` in this build. -/
def Ran (d : BuildData) (k : ℕ) : Prop := ∃ cmd, (k, cmd) ∈ d.ran

/-- What a call for step `k` knows of hash and output. -/
def CallRecorded (ctx : StepContext) (d : BuildData) (st : BuildStep) (k : ℕ) : Call → Prop
  | .command => ¬ Ran d k
  | .statOutput cmd => ¬ Ran d k ∧ cmd = ctx.command st
  | .probe cmd _ _ _ _ => ¬ Ran d k ∧ cmd = ctx.command st ∧
      d.commandHash k = (ctx.command st).hash ∧ (d.disk.file st.output).isSome
  | .recordExchange _ => ¬ Ran d k ∧ d.commandHash k = (ctx.command st).hash ∧
      (d.disk.file st.output).isSome
  | .recordFill _ => ¬ Ran d k ∧ d.commandHash k = (ctx.command st).hash ∧
      (d.disk.file st.output).isSome
  | .rebuild cmd => ¬ Ran d k ∧ cmd = ctx.command st
  | .spawn cmd => ¬ Ran d k ∧ cmd = ctx.command st
  | .running cmd _ => ¬ Ran d k ∧ cmd = ctx.command st
  | .commit hash => Ran d k ∧ hash = (ctx.command st).hash
  | .invalidate => Ran d k ∧ d.commandHash k = (ctx.command st).hash

/-- What is known of hash and output of step `k` when its call returns. -/
def ResultRecorded (ctx : StepContext) (d : BuildData) (st : BuildStep) (k : ℕ) (result : ℤ) :
    Prop :=
  (Ran d k → d.commandHash k = (ctx.command st).hash) ∧
    (result = 0 → Ran d k ∨
      d.commandHash k = (ctx.command st).hash ∧ (d.disk.file st.output).isSome)

/-- Hashes and outputs of the steps during a build that began on `disk₀`. -/
structure DataRecorded (ctx : StepContext) (disk₀ : Disk) (d : BuildData) : Prop where
  rsp : NoRsp ctx.graph d.disk
  kept : ∀ k st, ctx.graph.steps[k]? = some st → ¬ Ran d k →
    d.disk.file st.output = disk₀.file st.output ∧ d.commandHash k = st.commandHash
  wrote : ∀ k st cmd, ctx.graph.steps[k]? = some st → (k, cmd) ∈ d.ran →
    Wrote ctx d.disk st ∧ cmd = ctx.command st

/-- What the workers know of them. -/
structure Recorded (ctx : StepContext) (disk₀ : Disk) (s : State BuildData Call) : Prop where
  data : DataRecorded ctx disk₀ s.data
  calls : ∀ v call st k, .process v call ∈ s.workers → ctx.graph.steps[k]? = some st →
    ctx.graph.stepIdOf v = some k → CallRecorded ctx s.data st k call
  unstarted : ∀ v k, ctx.graph.stepIdOf v = some k → v ∉ s.started → ¬ Ran s.data k
  committed : ∀ v k st, ctx.graph.stepIdOf v = some k → ctx.graph.steps[k]? = some st →
    Ran s.data k → s.data.commandHash k = (ctx.command st).hash ∨
      ∃ pc ∈ s.workers, ∃ hash, pc = .process v (.commit hash)
  succeeded : ∀ v k st, ctx.graph.stepIdOf v = some k → ctx.graph.steps[k]? = some st →
    s.succeeded v = true → Wrote ctx s.data.disk st

/-! ### A step of a call -/

section Step

variable {d d' : BuildData} {v k : ℕ} {st : BuildStep} {call : Call} {r : Call ⊕ ℤ}

@[simp]
theorem commandHash_setSlot (d : BuildData) (ref : SlotRef) (slot : Slot) :
    (d.setSlot ref slot).commandHash = d.commandHash := by
  cases ref <;> rfl

@[simp]
theorem hashesChanged_setSlot (d : BuildData) (ref : SlotRef) (slot : Slot) :
    (d.setSlot ref slot).hashesChanged = d.hashesChanged := by
  cases ref <;> rfl

@[simp]
theorem ran_setSlot (d : BuildData) (ref : SlotRef) (slot : Slot) :
    (d.setSlot ref slot).ran = d.ran := by
  cases ref <;> rfl

/-- Response files aside, the command of a step is the same all through the build. -/
theorem commandOf_usableRsp (hrsp : NoRsp ctx.graph d.disk) (hst : st ∈ ctx.graph.steps) :
    commandOf ctx st (d.usableRsp ctx st) = ctx.command st := by
  by_cases hld : st.tool = ascii "ld"
  · have hnone := (hrsp st hst hld).2.1
    have husable : d.usableRsp ctx st = false := by simp [BuildData.usableRsp, hnone]
    rw [husable]
    rfl
  · simp only [StepContext.command, commandOf, buildCommandArgs, hld, if_false]

/-- What a step of a call does to hashes and outputs: nothing, or its tool has exited, or the hash
is stored. -/
inductive Effect (d : BuildData) (k : ℕ) (st : BuildStep) :
    Call → BuildData → Call ⊕ ℤ → Prop
  | quiet {call : Call} {d' : BuildData} {r : Call ⊕ ℤ} : d'.disk = d.disk →
      d'.commandHash = d.commandHash → d'.ran = d.ran → Effect d k st call d' r
  | exited {cmd since mtime} : Effect d k st (.running cmd since) (d.exited k st cmd mtime)
      (.inl (.commit cmd.hash))
  | commit {hash} : Effect d k st (.commit hash) (d.setHash k hash) (.inl .invalidate)

theorem Advance.effect (hrsp : NoRsp ctx.graph d.disk) (hst : st ∈ ctx.graph.steps)
    (hadv : Advance ctx d v k st call d' r) : Effect d k st call d' r := by
  cases hadv with
  | exited => exact .exited
  | commit => exact .commit
  | writeRsp _ hld hn => exact absurd (hrsp st hst hld).1 (not_le.mpr hn)
  | exchanged => exact .quiet (by simp) (by simp) (by simp)
  | fill => exact .quiet (by simp) (by simp) (by simp)
  | recordExchanged => exact .quiet (by simp) (by simp) (by simp)
  | recordFill => exact .quiet (by simp) (by simp) (by simp)
  | invalidate => exact .quiet (by simp) (by simp) (by simp)
  | invalidateBuildFile => exact .quiet (by simp) (by simp) (by simp)
  | _ => exact .quiet rfl rfl rfl

/-- What a call knows depends on whether its tool ran, its hash, and whether its output exists. -/
theorem CallRecorded.frame (h : CallRecorded ctx d st k call) (hran : Ran d' k ↔ Ran d k)
    (hhash : d'.commandHash k = d.commandHash k)
    (hfile : d'.disk.file st.output = d.disk.file st.output) : CallRecorded ctx d' st k call := by
  have hnot : ¬ Ran d k → ¬ Ran d' k := mt hran.mp
  cases call with
  | command => exact hnot h
  | statOutput => exact ⟨hnot h.1, h.2⟩
  | probe => exact ⟨hnot h.1, h.2.1, hhash.trans h.2.2.1, hfile ▸ h.2.2.2⟩
  | recordExchange => exact ⟨hnot h.1, hhash.trans h.2.1, hfile ▸ h.2.2⟩
  | recordFill => exact ⟨hnot h.1, hhash.trans h.2.1, hfile ▸ h.2.2⟩
  | rebuild => exact ⟨hnot h.1, h.2⟩
  | spawn => exact ⟨hnot h.1, h.2⟩
  | running => exact ⟨hnot h.1, h.2⟩
  | commit => exact ⟨hran.mpr h.1, h.2⟩
  | invalidate => exact ⟨hran.mpr h.1, hhash.trans h.2⟩

/-- What a call knows after `changedSince` answered. -/
theorem callRecorded_afterProbe {cmd : Command} {t : FileTime} {ref : SlotRef} {rest : List ℕ}
    {pos : Probe} (h : CallRecorded ctx d st k (.probe cmd t ref rest pos)) (answer : Bool) :
    CallRecorded ctx d st k (afterProbe d v cmd t ref rest answer) := by
  obtain ⟨hran, hcmd, hhash, hfile⟩ := h
  unfold afterProbe
  split_ifs
  · exact ⟨hran, hcmd⟩
  · exact ⟨hran, hcmd⟩
  · cases rest with
    | nil => exact ⟨hran, hhash, hfile⟩
    | cons i rest => exact ⟨hran, hcmd, hhash, hfile⟩

/-- What a call knows after its next step. -/
theorem Advance.callRecorded (hdry : ctx.dryRun = false) (hrsp : NoRsp ctx.graph d.disk)
    (hst : st ∈ ctx.graph.steps) (h : CallRecorded ctx d st k call)
    (hadv : Advance ctx d v k st call d' r) :
    (∀ call', r = .inl call' → CallRecorded ctx d' st k call') ∧
      ∀ result, r = .inr result → ResultRecorded ctx d' st k result := by
  -- a slot of the status cache is none of what a call has recorded
  have hset : ∀ {ref slot call'}, CallRecorded ctx d st k call' →
      CallRecorded ctx (d.setSlot ref slot) st k call' := by
    intro ref slot call' h
    exact h.frame (by simp [Ran]) (by simp) (by simp)
  have husable := commandOf_usableRsp hrsp hst
  -- `Ran` is untouched until the tool exits, and the hash until the commit
  cases hadv with
  | command => exact ⟨by rintro _ ⟨rfl⟩; exact ⟨h, husable⟩, by simp⟩
  | missing => exact ⟨by rintro _ ⟨rfl⟩; exact h, by simp⟩
  | hashDiffers => exact ⟨by rintro _ ⟨rfl⟩; exact h, by simp⟩
  | hashAgrees ht hhash =>
    refine ⟨?_, by simp⟩
    rintro _ ⟨rfl⟩
    obtain ⟨f, hf, -⟩ := Option.map_eq_some_iff.mp ht
    exact ⟨h.1, h.2, by rw [hhash, h.2], by simp [hf]⟩
  | loadReady => exact ⟨by rintro _ ⟨rfl⟩; exact callRecorded_afterProbe h _, by simp⟩
  | loadOther => exact ⟨by rintro _ ⟨rfl⟩; exact h, by simp⟩
  | stat => exact ⟨by rintro _ ⟨rfl⟩; exact h, by simp⟩
  | exchanged => exact ⟨by rintro _ ⟨rfl⟩; exact hset h, by simp⟩
  | notExchanged => exact ⟨by rintro _ ⟨rfl⟩; exact callRecorded_afterProbe h _, by simp⟩
  | fill => exact ⟨by rintro _ ⟨rfl⟩; exact hset (callRecorded_afterProbe h _), by simp⟩
  | recordExchanged => exact ⟨by rintro _ ⟨rfl⟩; exact hset h, by simp⟩
  | notRecorded =>
    refine ⟨by simp, ?_⟩
    rintro _ ⟨rfl⟩
    exact ⟨fun hran => absurd hran h.1, fun _ => .inr h.2⟩
  | recordFill =>
    refine ⟨by simp, ?_⟩
    rintro _ ⟨rfl⟩
    exact ⟨fun hran => absurd hran h.1, fun _ => .inr (by simpa using h.2)⟩
  | dryRun hd => simp [hdry] at hd
  | writeRsp _ hld hn => exact absurd (hrsp st hst hld).1 (not_le.mpr hn)
  | link =>
    refine ⟨?_, by simp⟩
    rintro _ ⟨rfl⟩
    have hargs : buildCommandArgs st ctx.flags (d.usableRsp ctx st) = (ctx.command st).args :=
      congrArg Command.args husable
    exact ⟨h.1, by rw [hargs, h.2]⟩
  | rebuild => exact ⟨by rintro _ ⟨rfl⟩; exact h, by simp⟩
  | refused =>
    refine ⟨by simp, ?_⟩
    rintro _ ⟨rfl⟩
    exact ⟨fun hran => absurd hran h.1, by simp⟩
  | spawn => exact ⟨by rintro _ ⟨rfl⟩; exact h, by simp⟩
  | notRun =>
    refine ⟨by simp, ?_⟩
    rintro _ ⟨rfl⟩
    exact ⟨fun hran => absurd hran h.1, by simp⟩
  | failed hc =>
    refine ⟨by simp, ?_⟩
    rintro _ ⟨rfl⟩
    exact ⟨fun hran => absurd hran h.1, fun hzero => absurd hzero hc⟩
  | @exited cmd =>
    refine ⟨?_, by simp⟩
    rintro _ ⟨rfl⟩
    exact ⟨⟨cmd, List.mem_cons_self⟩, by rw [h.2]⟩
  | commit =>
    refine ⟨?_, by simp⟩
    rintro _ ⟨rfl⟩
    exact ⟨h.1, by simp [BuildData.setHash, h.2]⟩
  | invalidate =>
    refine ⟨by simp, ?_⟩
    rintro _ ⟨rfl⟩
    exact ⟨fun _ => h.2, fun _ => .inl h.1⟩
  | invalidateBuildFile =>
    refine ⟨by simp, ?_⟩
    rintro _ ⟨rfl⟩
    exact ⟨fun _ => h.2, fun _ => .inl h.1⟩

/-- Other steps keep their hash and their output. -/
theorem Effect.frame (hg : ctx.graph.Linked) (he : Effect d k st call d' r)
    (hk : ctx.graph.steps[k]? = some st) {k' : ℕ} {st' : BuildStep}
    (hk' : ctx.graph.steps[k']? = some st') (hne : k' ≠ k) :
    (Ran d' k' ↔ Ran d k') ∧ d'.commandHash k' = d.commandHash k' ∧
      d'.disk.file st'.output = d.disk.file st'.output := by
  cases he with
  | quiet hdisk hhash hran => exact ⟨by rw [Ran, Ran, hran], by rw [hhash], by rw [hdisk]⟩
  | exited =>
    have hout : st'.output ≠ st.output := fun heq => hne (hg.output_inj hk' hk heq)
    refine ⟨by simp [Ran, BuildData.exited, hne], rfl, ?_⟩
    exact Disk.file_write_of_ne hout
  | commit => exact ⟨Iff.rfl, by simp [BuildData.setHash, hne], rfl⟩

/-- A step of a call keeps the record. -/
theorem DataRecorded.effect (h : DataRecorded ctx disk₀ d) (hg : ctx.graph.Linked)
    (hk : ctx.graph.steps[k]? = some st) (hcall : CallRecorded ctx d st k call)
    (he : Effect d k st call d' r) : DataRecorded ctx disk₀ d' := by
  -- the other steps keep their runs, hashes and outputs
  have hframe : ∀ k' st', ctx.graph.steps[k']? = some st' → k' ≠ k →
      (Ran d' k' ↔ Ran d k') ∧ d'.commandHash k' = d.commandHash k' ∧
        d'.disk.file st'.output = d.disk.file st'.output := fun _ _ => he.frame hg hk
  cases he with
  | quiet hdisk hhash hran =>
    refine ⟨hdisk ▸ h.rsp, ?_, ?_⟩
    · intro k' st' hk' hnot
      rw [hdisk, hhash]
      exact h.kept k' st' hk' (by rwa [Ran, ← hran])
    · intro k' st' cmd hk' hmem
      rw [hdisk]
      exact h.wrote k' st' cmd hk' (hran ▸ hmem)
  | @exited cmd since mtime =>
    -- the output is written: no response file, since these are apart from all outputs
    obtain ⟨hnot, rfl⟩ := hcall
    refine ⟨?_, ?_, ?_⟩
    · intro st' hst' hld
      obtain ⟨hlen, hnone, hout⟩ := h.rsp st' hst' hld
      refine ⟨hlen, ?_, hout⟩
      exact (Disk.file_write_of_ne (hout st (List.mem_of_getElem? hk)).symm).trans hnone
    · intro k' st' hk' hnot'
      have hne : k' ≠ k := by
        rintro rfl
        exact hnot' ⟨_, List.mem_cons_self⟩
      obtain ⟨hran, hhash, hfile⟩ := hframe k' st' hk' hne
      rw [hhash, hfile]
      exact h.kept k' st' hk' (mt hran.mpr hnot')
    · intro k' st' cmd hk' hmem
      rcases List.mem_cons.mp hmem with heq | hold
      · obtain ⟨rfl, rfl⟩ := Prod.mk.inj heq
        obtain rfl : st = st' := Option.some.inj (hk.symm.trans hk')
        exact ⟨⟨mtime, Disk.file_write_self⟩, rfl⟩
      · have hne : k' ≠ k := by
          rintro rfl
          exact hnot ⟨cmd, hold⟩
        obtain ⟨⟨t, ht⟩, hcmd⟩ := h.wrote k' st' cmd hk' hold
        exact ⟨⟨t, (hframe k' st' hk' hne).2.2.trans ht⟩, hcmd⟩
  | @commit hash =>
    refine ⟨h.rsp, ?_, h.wrote⟩
    intro k' st' hk' hnot'
    have hne : k' ≠ k := by
      rintro rfl
      exact hnot' hcall.1
    obtain ⟨-, hhash, -⟩ := hframe k' st' hk' hne
    rw [hhash]
    exact h.kept k' st' hk' hnot'

/-- A call whose tool has run is about to store the hash, or has stored it. -/
theorem CallRecorded.committed (h : CallRecorded ctx d st k call) (hran : Ran d k) :
    d.commandHash k = (ctx.command st).hash ∨ ∃ hash, call = .commit hash := by
  cases call with
  | command => exact absurd hran h
  | commit hash => exact .inr ⟨hash, rfl⟩
  | invalidate => exact .inl h.2
  | _ => exact absurd hran h.1

end Step

/-! ### The invariant -/

section Invariant

variable {cfg : PoolConfig} {s s' : State BuildData Call}

/-- Every tool that exited with `0` belongs to a step that had no hash when the graph was loaded, or
the hash of the tool's command. -/
def AllRecorded (g : BuildGraph) (d : BuildData) : Prop :=
  ∀ e ∈ d.ran, ∀ st ∈ g.steps[e.1]?, st.commandHash = 0 ∨ st.commandHash = e.2.hash

instance (g : BuildGraph) (d : BuildData) : Decidable (AllRecorded g d) :=
  inferInstanceAs (Decidable (∀ e ∈ d.ran, _))

/-- What is known when a build begins: the hashes are right, and tell the commands apart. -/
structure Promised (ctx : StepContext) (V : Set (List Bytes)) (disk₀ : Disk) : Prop where
  linked : ctx.graph.Linked
  dryRun : ctx.dryRun = false
  separates : Separates V ctx.rapidHash
  vectors : ∀ st ∈ ctx.graph.steps, (ctx.command st).args ∈ V
  matched : ∀ st ∈ ctx.graph.steps, Matches V ctx.rapidHash disk₀ st

/-- An output that was not written in this build, but has the hash of the build's command, was
written by that command. -/
theorem DataRecorded.wrote_of_skipped {d : BuildData} {k : ℕ} {st : BuildStep}
    (h : DataRecorded ctx disk₀ d) (hp : Promised ctx V disk₀)
    (hk : ctx.graph.steps[k]? = some st) (hnot : ¬ Ran d k)
    (hhash : d.commandHash k = (ctx.command st).hash) (hfile : (d.disk.file st.output).isSome) :
    Wrote ctx d.disk st := by
  have hst := List.mem_of_getElem? hk
  obtain ⟨f, hf⟩ := Option.isSome_iff_exists.mp hfile
  obtain ⟨hsame, hloaded⟩ := h.kept k st hk hnot
  have hvector := hp.vectors st hst
  rcases hp.matched st hst with hzero | hmade
  · have hne := hp.separates.ne_zero _ hvector
    exact absurd (hhash.symm.trans (hloaded.trans hzero)) hne
  · obtain ⟨args, hargs, hcontents, heq⟩ := hmade f (hsame ▸ hf)
    obtain rfl : args = (ctx.command st).args :=
      hp.separates.injOn hargs hvector (heq.trans (hloaded.symm.trans hhash))
    exact ⟨f.mtime, hf.trans (by rw [← hcontents])⟩

/-- A step of a call keeps the invariant; `pc'` is where its worker goes, and `events` what it
records. -/
theorem Recorded.advance (hp : Promised ctx V disk₀) (hacc : Accounted ctx.graph s)
    (h : Recorded ctx disk₀ s) {i v : ℕ} {call : Call} {outcome : Outcome} {d' : BuildData}
    {r : Call ⊕ ℤ} (hi : s.workers[i]? = some (.process v call))
    (hadv : Cob.advance ctx s.data v call outcome = some (d', r)) {pc' : Pc Call}
    {events : List Event} (hnext : ∀ call', r = .inl call' → pc' = .process v call')
    (hpc' : ∀ v' call', pc' = .process v' call' → v' = v ∧ r = .inl call')
    (hstarted : startedIn events = [])
    (hsucceeded : ∀ n, .returned n 0 ∈ events → n = v ∧ r = .inr 0) :
    Recorded ctx disk₀ (s.moved i s.shared d' pc' events) := by
  have hg := hp.linked
  have hrun := List.mem_of_getElem? hi
  have hlen := (List.getElem?_eq_some_iff.mp hi).1
  obtain ⟨hstep, hnotfin⟩ := hacc.running hrun (v := v) (by simp [Pc.running])
  obtain ⟨st, hst⟩ := hg.exists_stepOf hstep
  obtain ⟨k, hvk, hk⟩ := Option.bind_eq_some_iff.mp (stepOf_eq ctx.graph v ▸ hst)
  have hvstarted := hacc.started_of_running hrun (v := v) (by simp [Pc.running])
  have hcall := h.calls v call st k hrun hk hvk
  have hcases := advance_cases hst hvk hadv
  have hmem := mem_steps_of_stepOf hst
  have heffect := hcases.effect h.data.rsp hmem
  have hown := hcases.callRecorded hp.dryRun h.data.rsp hmem hcall
  have hdata := h.data.effect hg hk hcall heffect
  -- the call can change the record of its own step only
  have hk_of : ∀ v' k', ctx.graph.stepIdOf v' = some k' → v' ≠ v → k' ≠ k := by
    rintro v' k' hv' hne rfl
    exact hne (hg.stepIdOf_inj hv' hvk)
  have hk_ran : ∀ k', k' ≠ k → (Ran d' k' ↔ Ran s.data k') := by
    intro k' hne
    cases heffect with
    | quiet _ _ hran => rw [Ran, Ran, hran]
    | exited => simp [Ran, BuildData.exited, hne]
    | commit => rfl
  have hlog : (s.moved i s.shared d' pc' events).started = s.started := by
    simp only [State.started, State.moved, startedIn, List.filterMap_append]
    rw [show List.filterMap _ events = [] from hstarted, List.append_nil]
  -- calls in flight, unstarted steps, committed steps, succeeded steps
  refine ⟨hdata, ?_, ?_, ?_, ?_⟩
  · intro v' call' st' k' hin hst' hv'
    obtain ⟨j, hj⟩ := List.mem_iff_getElem?.mp hin
    change (s.workers.set i pc')[j]? = _ at hj
    by_cases hij : i = j
    · -- the worker that moved
      subst hij
      obtain rfl : pc' = .process v' call' := by simpa [List.getElem?_set_self hlen] using hj
      obtain ⟨rfl, rfl⟩ := hpc' v' call' rfl
      obtain rfl : k' = k := Option.some.inj (hv'.symm.trans hvk)
      obtain rfl : st' = st := Option.some.inj (hst'.symm.trans hk)
      exact hown.1 call' rfl
    · -- another worker: it holds another step, which the frame leaves alone
      rw [List.getElem?_set_ne hij] at hj
      have hold := List.mem_of_getElem? hj
      have hne : v' ≠ v := by
        rintro rfl
        exact hij (hacc.running_unique hi hj)
      obtain ⟨hran, hhash, hfile⟩ := heffect.frame hg hk hst' (hk_of v' k' hv' hne)
      exact (h.calls v' call' st' k' hold hst' hv').frame hran hhash hfile
  · intro v' k' hv' hno
    rw [hlog] at hno
    have hne : v' ≠ v := by
      rintro rfl
      exact hno hvstarted
    exact mt (hk_ran k' (hk_of v' k' hv' hne)).mp (h.unstarted v' k' hv' hno)
  · intro v' k' st' hv' hst' hran
    by_cases hne : v' = v
    · subst hne
      obtain rfl : k' = k := Option.some.inj (hv'.symm.trans hvk)
      obtain rfl : st' = st := Option.some.inj (hst'.symm.trans hk)
      cases r with
      | inr result => exact .inl ((hown.2 result rfl).1 hran)
      | inl call' =>
        refine ((hown.1 call' rfl).committed hran).imp_right ?_
        rintro ⟨hash, rfl⟩
        exact ⟨pc', List.mem_set hlen pc', hash, hnext _ rfl⟩
    · -- another step: what was known of it still holds, and the commit in flight is still there
      obtain ⟨hran', hhash, -⟩ := heffect.frame hg hk hst' (hk_of v' k' hv' hne)
      rcases h.committed v' k' st' hv' hst' (hran'.mp hran) with hold | hold
      · exact .inl (hhash.trans hold)
      · refine .inr (exists_mem_set_of_not hi ?_ hold)
        rintro ⟨hash, heq⟩
        injection heq with heq
        exact hne heq.symm
  · intro v' k' st' hv' hst' hsucc
    rw [succeeded_moved, Bool.or_eq_true] at hsucc
    by_cases hne : v' = v
    · subst hne
      obtain rfl : k' = k := Option.some.inj (hv'.symm.trans hvk)
      obtain rfl : st' = st := Option.some.inj (hst'.symm.trans hk)
      rcases hsucc with hold | hnew
      · exact absurd (mem_finished_of_succeeded hold) hnotfin
      · -- the call has just returned 0: its tool ran, or its step was found up to date
        have hzero := (hsucceeded v' (by simpa using hnew)).2
        rcases (hown.2 0 hzero).2 rfl with ⟨cmd, hran⟩ | ⟨hhash, hfile⟩
        · exact (hdata.wrote _ _ cmd hst' hran).1
        · by_cases hran : Ran d' k'
          · obtain ⟨cmd, hran⟩ := hran
            exact (hdata.wrote _ _ cmd hst' hran).1
          · exact hdata.wrote_of_skipped hp hst' hran hhash hfile
    · have hold : s.succeeded v' = true := by
        refine hsucc.resolve_right fun hnew => hne ?_
        exact (hsucceeded v' (by simpa using hnew)).1
      obtain ⟨t, ht⟩ := h.succeeded v' k' st' hv' hst' hold
      have hfile := (heffect.frame hg hk hst' (hk_of v' k' hv' hne)).2.2
      exact ⟨t, hfile.trans ht⟩

/-- A move that is not a step of a call keeps the invariant. -/
theorem Recorded.frame (h : Recorded ctx disk₀ s) {i : ℕ} {pc pc' : Pc Call} {sh : Shared}
    {events : List Event} (hi : s.workers[i]? = some pc) (hpc : ∀ v call, pc ≠ .process v call)
    (hsucceeded : ∀ n, .returned n 0 ∉ events)
    (hpc' : ∀ v call st k, pc' = .process v call → ctx.graph.steps[k]? = some st →
      ctx.graph.stepIdOf v = some k → CallRecorded ctx s.data st k call) :
    Recorded ctx disk₀ (s.moved i sh s.data pc' events) where
  data := h.data
  calls v call st k hmem hst hv := by
    rcases List.mem_or_eq_of_mem_set hmem with hold | hnew
    · exact h.calls v call st k hold hst hv
    · exact hpc' v call st k hnew.symm hst hv
  unstarted v k hv hno := by
    refine h.unstarted v k hv fun hold => hno (mem_started.mpr ?_)
    exact List.mem_append_left _ (mem_started.mp hold)
  committed v k st hv hst hran := by
    refine (h.committed v k st hv hst hran).imp_right (exists_mem_set_of_not hi ?_)
    rintro ⟨hash, heq⟩
    exact hpc _ _ heq
  succeeded v k st hv hst hsucc := by
    rw [succeeded_moved, Bool.or_eq_true] at hsucc
    refine h.succeeded v k st hv hst (hsucc.resolve_right fun hnew => ?_)
    exact hsucceeded v (by simpa using hnew)

/-- Every move of a worker keeps the invariant. -/
theorem Recorded.moved (hp : Promised ctx V disk₀) (hacc : Accounted ctx.graph s)
    (h : Recorded ctx disk₀ s) {i : ℕ} {pc pc' : Pc Call} {sh : Shared} {d : BuildData}
    {events : List Event} (hi : s.workers[i]? = some pc)
    (hm : Move (processStep ctx) cfg ctx.graph s.shared s.data pc sh d pc' events) :
    Recorded ctx disk₀ (s.moved i sh d pc' events) := by
  cases hm with
  | advance hadv =>
    refine h.advance hp hacc hi hadv ?_ ?_ rfl (by simp)
    · rintro _ ⟨rfl⟩
      rfl
    · rintro _ _ ⟨rfl, rfl⟩
      exact ⟨rfl, rfl⟩
  | succeed hadv =>
    refine h.advance hp hacc hi hadv (by simp) (by simp) rfl fun n hn => ?_
    simpa using hn
  | fail hadv hne =>
    refine h.advance hp hacc hi hadv (by simp) (by simp) rfl fun n hn => ?_
    simp only [List.mem_singleton, Event.returned.injEq] at hn
    exact absurd hn.2.symm hne
  -- a new call knows only that its step has not run
  | @subtract node =>
    refine h.frame hi (by simp) (by simp) ?_
    rintro v call st k ⟨rfl, rfl⟩ hst hv
    refine h.unstarted node k hv ?_
    exact hacc.not_started_of_held (List.mem_of_getElem? hi) (by simp [Pc.held])
  | idle hm => cases hm <;> exact h.frame hi (by simp) (by simp) (by simp)
  | signal hm => cases hm <;> exact h.frame hi (by simp) (by simp) (by simp)
  | setError => exact h.frame hi (by simp) (by simp) (by split_ifs <;> simp)
  | countFailed => exact h.frame hi (by simp) (by simp) (by split_ifs <;> simp)
  | edgesDone => exact h.frame hi (by simp) (by simp) (by split_ifs <;> simp)
  | _ => exact h.frame hi (by simp) (by simp) (by simp)

/-- Every step of the pool keeps the invariant. -/
theorem Recorded.poolStep (hp : Promised ctx V disk₀) (hacc : Accounted ctx.graph s)
    (h : Recorded ctx disk₀ s) {a : Action Outcome}
    (hstep : PoolStep (processStep ctx) cfg ctx.graph s a s') : Recorded ctx disk₀ s' := by
  cases hstep with
  | stop => exact ⟨h.1, h.2, h.3, h.4, h.5⟩
  | spawn =>
    refine ⟨h.1, fun v call st k hmem => ?_, h.3, ?_, h.5⟩
    · exact h.calls v call st k (by simpa using hmem)
    · intro v k st hv hst hran
      refine (h.committed v k st hv hst hran).imp_right ?_
      rintro ⟨pc, hpc, hcommit⟩
      exact ⟨pc, List.mem_append_left _ hpc, hcommit⟩
  | move hi hm => exact h.moved hp hacc hi hm

/-- When a build begins, nothing has run, and the hashes are those of the graph. -/
theorem recorded_initialState (hrsp : NoRsp ctx.graph disk₀) {order : List ℕ}
    (horder : order.Perm (rootNodes ctx.graph)) {d : BuildData} (hdisk : d.disk = disk₀)
    (hran : d.ran = [])
    (hhash : ∀ k st, ctx.graph.steps[k]? = some st → d.commandHash k = st.commandHash) :
    Recorded ctx disk₀ (initialState ctx.graph order d) := by
  have hnot : ∀ k, ¬ Ran d k := by simp [Ran, hran]
  subst hdisk
  rw [initialState_eq ctx.graph horder]
  refine ⟨⟨hrsp, ?_, by simp [hran]⟩, by simp, fun _ k _ _ => hnot k, ?_, ?_⟩
  · exact fun k st hk _ => ⟨rfl, hhash k st hk⟩
  · exact fun _ k _ _ _ hran => absurd hran (hnot k)
  · simp [State.succeeded]

/-- The disks have the same outputs and response files. -/
def SameOutputs (g : BuildGraph) (disk disk' : Disk) : Prop :=
  ∀ st ∈ g.steps, disk'.file st.output = disk.file st.output ∧
    disk'.file st.rspPath = disk.file st.rspPath

/-- The disk of the data replaced. -/
def BuildData.onDisk (d : BuildData) (disk : Disk) : BuildData := { d with disk := disk }

/-- Whoever else writes to the disk keeps the record, apart from outputs and response files. -/
theorem Recorded.onDisk (h : Recorded ctx disk₀ s) {disk : Disk}
    (hsame : SameOutputs ctx.graph s.data.disk disk) :
    Recorded ctx disk₀ { s with data := s.data.onDisk disk } where
  data := by
    refine ⟨fun st hst hld => ?_, fun k st hk hnot => ?_, fun k st cmd hk hmem => ?_⟩
    · obtain ⟨hlen, hnone, hout⟩ := h.data.rsp st hst hld
      exact ⟨hlen, (hsame st hst).2.trans hnone, hout⟩
    · obtain ⟨hfile, hhash⟩ := h.data.kept k st hk hnot
      exact ⟨(hsame st (List.mem_of_getElem? hk)).1.trans hfile, hhash⟩
    · obtain ⟨⟨t, ht⟩, hcmd⟩ := h.data.wrote k st cmd hk hmem
      exact ⟨⟨t, (hsame st (List.mem_of_getElem? hk)).1.trans ht⟩, hcmd⟩
  calls v call st k hmem hst hv :=
    (h.calls v call st k hmem hst hv).frame Iff.rfl rfl (hsame st (List.mem_of_getElem? hst)).1
  unstarted := h.unstarted
  committed := h.committed
  succeeded v k st hv hst hsucc := by
    obtain ⟨t, ht⟩ := h.succeeded v k st hv hst hsucc
    exact ⟨t, (hsame st (List.mem_of_getElem? hst)).1.trans ht⟩

/-! ### What a build leaves -/

/-- After a successful build every output was written by the command of the build. -/
theorem Recorded.wrote_of_ok (hp : Promised ctx V disk₀) (hacc : Accounted ctx.graph s)
    (hout : Outcomes cfg ctx.graph s) (h : Recorded ctx disk₀ s) (hjoin : s.Joined cfg)
    (hok : s.executeResult ctx.graph = .ok ()) :
    ∀ st ∈ ctx.graph.steps, Wrote ctx s.data.disk st := by
  intro st hmem
  obtain ⟨k, hk⟩ := List.mem_iff_getElem?.mp hmem
  obtain ⟨v, hv⟩ := hp.linked.node_of_step k st hk
  have hstep : ctx.graph.isStep v = true := by simp [isStep_eq, hv]
  exact h.succeeded v k st hv hk (hacc.succeeded_of_ok hout hjoin hok hstep)

/-- A written output matches the hash of its command. -/
theorem Promised.matches_of_wrote (hp : Promised ctx V disk₀) {disk : Disk} {st : BuildStep}
    (hst : st ∈ ctx.graph.steps) (h : Wrote ctx disk st) {hash : UInt64}
    (hhash : hash = 0 ∨ hash = (ctx.command st).hash) :
    Matches V ctx.rapidHash disk { st with commandHash := hash } := by
  refine hhash.imp_right fun heq f hf => ?_
  obtain ⟨t, ht⟩ := h
  obtain rfl := Option.some.inj (hf.symm.trans ht)
  exact ⟨_, hp.vectors st hst, rfl, heq.symm⟩

/-- Once everybody has returned, the hashes of a build match the outputs. -/
theorem Recorded.matches_built (hp : Promised ctx V disk₀) (h : Recorded ctx disk₀ s)
    (hjoin : s.Joined cfg) {k : ℕ} {st : BuildStep} (hk : ctx.graph.steps[k]? = some st) :
    Matches V ctx.rapidHash s.data.disk { st with commandHash := s.data.commandHash k } := by
  have hst := List.mem_of_getElem? hk
  by_cases hran : Ran s.data k
  · obtain ⟨v, hv⟩ := hp.linked.node_of_step k st hk
    obtain ⟨cmd, hmem⟩ := id hran
    refine hp.matches_of_wrote hst (h.data.wrote k st cmd hk hmem).1 (.inr ?_)
    refine (h.committed v k st hv hk hran).resolve_right ?_
    rintro ⟨pc, hpc, hash, rfl⟩
    exact absurd (hjoin.2 _ hpc) (by simp)
  · obtain ⟨hfile, hhash⟩ := h.data.kept k st hk hran
    have hold := hp.matched st hst
    rw [Matches, hhash]
    exact hold.imp_right fun hmade f hf => hmade f (hfile ▸ hf)

/-- When all that ran is recorded in the loaded hashes, these still match the outputs. -/
theorem Recorded.matches_of_allRecorded (hp : Promised ctx V disk₀) (h : Recorded ctx disk₀ s)
    (hall : AllRecorded ctx.graph s.data) :
    ∀ st ∈ ctx.graph.steps, Matches V ctx.rapidHash s.data.disk st := by
  intro st hst
  obtain ⟨k, hk⟩ := List.mem_iff_getElem?.mp hst
  by_cases hran : Ran s.data k
  · obtain ⟨cmd, hmem⟩ := hran
    obtain ⟨hwrote, rfl⟩ := h.data.wrote k st cmd hk hmem
    exact hp.matches_of_wrote hst hwrote (hall _ hmem st hk)
  · have hfile := (h.data.kept k st hk hran).1
    exact (hp.matched st hst).imp_right fun hmade f hf => hmade f (hfile ▸ hf)

end Invariant

end CommandRecord

end Cob
