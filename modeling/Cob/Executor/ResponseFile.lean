import Cob.Executor.Dispatch
import Cob.Executor.ProcessStep

/-!
# Response files

A link step finds its response file by the path of its output with another extension, and trusts a
file at that path that is newer than the manifest. So the file need not be its own: steps whose
outputs differ in the extension only share one, and a file of an earlier build may list inputs of
an earlier manifest. Nor need it be whole, as nobody looks whether it could be written.

* `linked`, `relinked` — the link steps that a run spawns, and those it decides to rebuild;
* `PassesRsp` — the command of a link step names its response file in place of its inputs;
* `OwnResponseFiles` — the rebuilt link steps neither share response files nor trust old ones that
  are not theirs, and can write new ones;
* `content_of_ownResponseFiles` — under that condition every step is spawned with its own inputs.
-/

namespace Cob

open BuildGraph

section ResponseFile

variable (ctx : StepContext)

/-- The step of a node, if it is a link step. -/
def linkStep (v : ℕ) : Option BuildStep := (ctx.graph.stepOf v).filter (·.tool = ascii "ld")

/-- The link step whose rebuilding the move decides: it looks for a response file and may write
one. -/
def relinked : State BuildData Call × Action Outcome → Option (ℕ × BuildStep)
  | (s, .work i _) =>
    match s.workers[i]? with
    | some (.process v (.rebuild _)) => (linkStep ctx v).map (v, ·)
    | _ => none
  | _ => none

/-- The link step that the move spawns, with its arguments. -/
def linked : State BuildData Call × Action Outcome → Option (BuildStep × List Bytes)
  | (s, .work i _) =>
    match s.workers[i]? with
    | some (.process v (.spawn cmd)) => (linkStep ctx v).map (·, cmd.args)
    | _ => none
  | _ => none

/-- The arguments name the response file, and not because the inputs themselves spell it so. -/
def PassesRsp (st : BuildStep) (args : List Bytes) : Prop :=
  chr '@' :: st.rspPath ∈ args ∧
    args ≠ addParts ctx.flags.linker ++ linkArgs st ctx.flags st.parsedInputs

/-- Nothing but `buildCommandArgs` writes a response file. -/
def RspUntouched : Prop :=
  ∀ st ∈ ctx.graph.steps, st.tool = ascii "ld" → ∀ st' ∈ ctx.graph.steps, st'.output ≠ st.rspPath

/-- What keeps the response files of a run apart. -/
structure OwnResponseFiles (disk₀ : Disk) (tr : List (State BuildData Call × Action Outcome)) :
    Prop where
  /-- A rebuilt link step with too many inputs for a command line shares its response file with
  another one only if it depends on that one, which is then done with it. -/
  apart : ∀ v st v' st', (v, st) ∈ tr.filterMap (relinked ctx) →
    (v', st') ∈ tr.filterMap (relinked ctx) → v ≠ v' → st.rspPath = st'.rspPath →
    rspInputThreshold < st'.parsedInputs.length → Relation.TransGen ctx.graph.Edge v v'
  /-- If a link step trusts a response file then the one that was there before the run lists its
  inputs. -/
  leftover : ∀ m ∈ tr, ∀ v st, relinked ctx m = some (v, st) → m.1.data.usableRsp ctx st = true →
    ∀ f, disk₀.file st.rspPath = some f → f.contents = .text st.rspContent
  /-- A link step that finds no usable response file, and has too many inputs for a command line,
  writes the whole content of a new one. -/
  written : ∀ s i outcome, (s, .work i outcome) ∈ tr → ∀ v st,
    relinked ctx (s, .work i outcome) = some (v, st) →
    st.writesRsp (s.data.usableRsp ctx st) = true →
      outcome.code = some 0

variable {ctx} {disk₀ : Disk}

theorem linkStep_eq_some {v : ℕ} {st : BuildStep} :
    linkStep ctx v = some st ↔ ctx.graph.stepOf v = some st ∧ st.tool = ascii "ld" := by
  simp [linkStep, Option.filter_eq_some_iff]

/-- The condition on a run is one on every run it prolongs. -/
theorem OwnResponseFiles.of_cons {m : State BuildData Call × Action Outcome}
    {tr : List (State BuildData Call × Action Outcome)}
    (h : OwnResponseFiles ctx disk₀ (m :: tr)) : OwnResponseFiles ctx disk₀ tr where
  apart v st v' st' hv hv' := by
    have hsub := List.Sublist.filterMap (relinked ctx) (List.sublist_cons_self m tr)
    exact h.apart v st v' st' (hsub.subset hv) (hsub.subset hv')
  leftover m' hm' := h.leftover m' (List.mem_cons_of_mem _ hm')
  written s i outcome hm' := h.written s i outcome (List.mem_cons_of_mem _ hm')

/-! ### A step of a call -/

section Step

variable {d d' : BuildData} {v k : ℕ} {st : BuildStep} {call : Call} {r : Call ⊕ ℤ}

/-- Apart from the outputs, a call changes only the response file of its step. -/
theorem Advance.rsp_cases (hadv : Advance ctx d v k st call d' r) {p : Bytes}
    (hp : p ≠ st.output) :
    d'.disk.file p = d.disk.file p ∨ (∃ cmd, call = .rebuild cmd) ∧ st.tool = ascii "ld" ∧
      rspInputThreshold < st.parsedInputs.length ∧ p = st.rspPath ∧
        (d'.rspFailed = false → d'.disk.content p = some st.rspContent) := by
  have hslot : ∀ (d : BuildData) ref slot, (d.setSlot ref slot).disk = d.disk := by
    intro d ref slot
    cases ref <;> rfl
  cases hadv with
  | writeRsp _ hld hlen =>
    by_cases hrsp : p = st.rspPath
    · subst hrsp
      refine .inr ⟨⟨_, rfl⟩, hld, hlen, rfl, fun hno => ?_⟩
      obtain ⟨-, t, ht⟩ := BuildData.file_writeRsp hno
      exact Disk.content_of_contents ht rfl
    · exact .inl (BuildData.file_writeRsp_of_ne hrsp)
  | exited => exact .inl (Disk.file_write_of_ne hp)
  | exchanged => exact .inl (by rw [hslot])
  | fill => exact .inl (by rw [hslot])
  | recordExchanged => exact .inl (by rw [hslot])
  | recordFill => exact .inl (by rw [hslot])
  | invalidate => exact .inl (by rw [hslot])
  | invalidateBuildFile => exact .inl (by rw [hslot, hslot])
  | _ => exact .inl rfl

/-- After a probe nothing is spawned yet. -/
theorem afterProbe_ne_spawn {node : ℕ} {cmd cmd' : Command} {t : FileTime} {ref : SlotRef}
    {rest : List ℕ} {answer : Bool} :
    afterProbe d node cmd t ref rest answer ≠ .spawn cmd' := by
  unfold afterProbe
  split_ifs
  · simp
  · simp
  · cases rest <;> simp [nextInput]

/-- When no response file is cut short, a link step is spawned after its rebuilding was decided,
with its inputs as arguments, with a response file it found, or with one it wrote. -/
theorem Advance.spawn_cases (hadv : Advance ctx d v k st call d' r) (hwhole : d'.rspFailed = false)
    (hld : st.tool = ascii "ld") {cmd : Command} (hr : r = .inl (.spawn cmd)) :
    (∃ cmd₀, call = .rebuild cmd₀) ∧
      (cmd.args = addParts ctx.flags.linker ++ linkArgs st ctx.flags st.parsedInputs ∨
        (d.usableRsp ctx st = true ∧ d' = d) ∨
          d'.disk.content st.rspPath = some st.rspContent) := by
  cases hadv with
  | writeRsp =>
    obtain ⟨-, t, ht⟩ := BuildData.file_writeRsp hwhole
    exact ⟨⟨_, rfl⟩, .inr (.inr (Disk.content_of_contents ht rfl))⟩
  | link _ _ hwrites =>
    refine ⟨⟨_, rfl⟩, ?_⟩
    by_cases husable : d.usableRsp ctx st = true
    · exact .inr (.inl ⟨husable, rfl⟩)
    · -- the inputs are few: they go on the command line
      obtain rfl := Call.spawn.inj (Sum.inl.inj hr)
      have huse : st.useRsp (d.usableRsp ctx st) = false := by
        simpa [BuildStep.useRsp, BuildStep.writesRsp, husable] using hwrites
      have hcc : ascii "ld" ≠ ascii "cc" := by decide
      have hcxx : ascii "ld" ≠ ascii "cxx" := by decide
      left
      simp only [buildCommandArgs, hld, hcc, hcxx, if_false, if_true, huse, Bool.false_eq_true]
  | rebuild _ hnot => exact absurd hld hnot
  | loadReady => exact absurd (Sum.inl.inj hr) afterProbe_ne_spawn
  | notExchanged => exact absurd (Sum.inl.inj hr) afterProbe_ne_spawn
  | fill => exact absurd (Sum.inl.inj hr) afterProbe_ne_spawn
  | _ => simp at hr

/-- A response file is cut short by no other outcome than that of the move which writes it. -/
theorem rspFailed_advance {outcome : Outcome} (h : advance ctx d v call outcome = some (d', r))
    (hd : d.rspFailed = false)
    (hwritten : ∀ cmd st, call = .rebuild cmd → linkStep ctx v = some st →
      st.writesRsp (d.usableRsp ctx st) = true → outcome.code = some 0) :
    d'.rspFailed = false := by
  cases hk : ctx.graph.stepIdOf v with
  | none =>
    have hst : ctx.graph.stepOf v = none := by rw [stepOf_eq, hk, Option.bind_none]
    obtain ⟨rfl, -⟩ := by simpa [advance, hst, hk] using h
    exact hd
  | some k =>
    cases hst : ctx.graph.stepOf v with
    | none =>
      obtain ⟨rfl, -⟩ := by simpa [advance, hst, hk] using h
      exact hd
    | some st =>
      -- only `rebuild` writes a response file
      by_cases hcall : ∃ cmd, call = .rebuild cmd
      · obtain ⟨cmd, rfl⟩ := hcall
        simp only [advance, hst, hk] at h
        split_ifs at h with hdry hld hwrites
        · obtain ⟨rfl, -⟩ := by simpa using h
          exact hd
        · obtain ⟨rfl, -⟩ := by simpa using h
          have hcode := hwritten cmd st rfl (linkStep_eq_some.mpr ⟨hst, hld⟩) hwrites
          simp [BuildData.writeRsp, hcode, hd]
        · obtain ⟨rfl, -⟩ := by simpa using h
          exact hd
        · obtain ⟨rfl, -⟩ := by simpa using h
          exact hd
      · cases advance_cases hst hk h with
        | writeRsp => exact absurd ⟨_, rfl⟩ hcall
        | exchanged => exact (rspFailed_setSlot ..).trans hd
        | fill => exact (rspFailed_setSlot ..).trans hd
        | recordExchanged => exact (rspFailed_setSlot ..).trans hd
        | recordFill => exact (rspFailed_setSlot ..).trans hd
        | invalidate => exact (rspFailed_setSlot ..).trans hd
        | invalidateBuildFile =>
          exact (rspFailed_setSlot ..).trans ((rspFailed_setSlot ..).trans hd)
        | _ => exact hd

end Step

/-! ### The invariant -/

section Invariant

variable {cfg : PoolConfig} {s : State BuildData Call}
  {tr : List (State BuildData Call × Action Outcome)}

/-- Whose inputs the response files list, after a run `tr`. -/
structure RspRecorded (ctx : StepContext) (disk₀ : Disk)
    (tr : List (State BuildData Call × Action Outcome)) (s : State BuildData Call) : Prop where
  /-- No response file was cut short. -/
  whole : s.data.rspFailed = false
  /-- What was rebuilt was started. -/
  started : ∀ v st, (v, st) ∈ tr.filterMap (relinked ctx) →
    v ∈ s.started ∧ linkStep ctx v = some st
  /-- A file that no step outputs is as it was, or lists the inputs of a link step. -/
  file : ∀ p, (∀ st ∈ ctx.graph.steps, st.output ≠ p) →
    s.data.disk.file p = disk₀.file p ∨
      ∃ v st, (v, st) ∈ tr.filterMap (relinked ctx) ∧ st.rspPath = p ∧
        rspInputThreshold < st.parsedInputs.length ∧ s.data.disk.content p = some st.rspContent
  /-- A link step that is about to be spawned carries its inputs. -/
  spawning : ∀ v cmd st, .process v (.spawn cmd) ∈ s.workers → linkStep ctx v = some st →
    (v, st) ∈ tr.filterMap (relinked ctx) ∧
      (cmd.args = addParts ctx.flags.linker ++ linkArgs st ctx.flags st.parsedInputs ∨
        s.data.disk.content st.rspPath = some st.rspContent)

/-- A move that is not a step of a call keeps the invariant. -/
theorem RspRecorded.frame (h : RspRecorded ctx disk₀ tr s) {s' : State BuildData Call}
    {m : State BuildData Call × Action Outcome} (hm : relinked ctx m = none)
    (hstarted : s.started ⊆ s'.started) (hdata : s'.data = s.data)
    (hworkers : ∀ v cmd, .process v (.spawn cmd) ∈ s'.workers →
      .process v (.spawn cmd) ∈ s.workers) : RspRecorded ctx disk₀ (m :: tr) s' := by
  have hsame : (m :: tr).filterMap (relinked ctx) = tr.filterMap (relinked ctx) := by
    simp [hm]
  refine ⟨hdata ▸ h.whole, fun v st hv => ?_, fun p hp => ?_, fun v cmd st hmem hst => ?_⟩
  · rw [hsame] at hv
    exact ⟨hstarted (h.started v st hv).1, (h.started v st hv).2⟩
  · rw [hsame, hdata]
    exact h.file p hp
  · rw [hsame, hdata]
    exact h.spawning v cmd st (hworkers v cmd hmem) hst

/-- A running step is no transitive producer of a started one. -/
theorem Accounted.not_producer_of_running {D C : Type} {g : BuildGraph} {s : State D C}
    (hg : g.Linked) (hacc : Accounted g s) {u v : ℕ} {call : C}
    (hrun : .process u call ∈ s.workers) (hv : v ∈ s.started) :
    ¬ Relation.TransGen g.Edge u v := by
  intro hpath
  obtain ⟨hstep, hnot⟩ := hacc.running hrun (v := u) (by simp [Pc.running])
  have hsucc := hacc.succeeded_of_producer hg hpath hv hstep
  exact hnot (mem_finished_of_succeeded hsucc)

/-- A step of a call keeps the invariant; `pc'` is where its worker goes, and `events` what it
records. -/
theorem RspRecorded.advance (hg : ctx.graph.Linked) (huntouched : RspUntouched ctx)
    (hacc : Accounted ctx.graph s) {i v : ℕ} {call : Call} {label outcome : Outcome}
    (hown : OwnResponseFiles ctx disk₀ ((s, .work i label) :: tr))
    (h : RspRecorded ctx disk₀ tr s) {d' : BuildData} {r : Call ⊕ ℤ}
    (hi : s.workers[i]? = some (.process v call))
    (hadv : Cob.advance ctx s.data v call outcome = some (d', r)) (hwhole : d'.rspFailed = false)
    {pc' : Pc Call} {events : List Event}
    (hpc' : ∀ v' call', pc' = .process v' call' → v' = v ∧ r = .inl call') :
    RspRecorded ctx disk₀ ((s, .work i label) :: tr) (s.moved i s.shared d' pc' events) := by
  have hrun := List.mem_of_getElem? hi
  obtain ⟨hstep, -⟩ := hacc.running hrun (v := v) (by simp [Pc.running])
  have hvstarted := hacc.started_of_running hrun (v := v) (by simp [Pc.running])
  obtain ⟨st, hst⟩ := hg.exists_stepOf hstep
  obtain ⟨k, hk, -⟩ := Option.bind_eq_some_iff.mp (stepOf_eq ctx.graph v ▸ hst)
  have hcases := advance_cases hst hk hadv
  have hgrow : s.started ⊆ (s.moved i s.shared d' pc' events).started := by
    intro u hu
    exact mem_started.mpr (List.mem_append_left _ (mem_started.mp hu))
  -- what this move decides to rebuild
  have hdecided : ∀ cmd, call = .rebuild cmd → st.tool = ascii "ld" →
      relinked ctx (s, .work i label) = some (v, st) := by
    rintro cmd rfl hld
    simp [relinked, hi, linkStep_eq_some.mpr ⟨hst, hld⟩]
  have hmem : ∀ u st', relinked ctx (s, .work i label) = some (u, st') →
      (u, st') ∈ ((s, .work i label) :: tr).filterMap (relinked ctx) := by
    intro u st' hu
    exact List.mem_filterMap.mpr ⟨_, List.mem_cons_self, hu⟩
  have hold : ∀ e, e ∈ tr.filterMap (relinked ctx) →
      e ∈ ((s, .work i label) :: tr).filterMap (relinked ctx) :=
    fun e he => (List.Sublist.filterMap _ (List.sublist_cons_self _ tr)).subset he
  refine ⟨hwhole, fun u st' hu => ?_, fun p hp => ?_, fun u cmd st' hspawn hst' => ?_⟩
  · obtain ⟨m, hm, hrel⟩ := List.mem_filterMap.mp hu
    rcases List.mem_cons.mp hm with rfl | hm
    · simp only [relinked, hi] at hrel
      cases call with
      | rebuild cmd =>
        obtain ⟨st₁, hst₁, heq⟩ := Option.map_eq_some_iff.mp hrel
        obtain ⟨rfl, rfl⟩ := Prod.mk.inj heq
        exact ⟨hgrow hvstarted, hst₁⟩
      | _ => simp at hrel
    · obtain ⟨hstarted, hlink⟩ := h.started u st' (List.mem_filterMap.mpr ⟨m, hm, hrel⟩)
      exact ⟨hgrow hstarted, hlink⟩
  · have hne : p ≠ st.output := (hp st (mem_steps_of_stepOf hst)).symm
    rcases hcases.rsp_cases hne with hsame | ⟨⟨cmd, hcall⟩, hld, hlen, hpath, hcontent⟩
    · rcases h.file p hp with hunchanged | ⟨u, st', hu, hpath, hlen, hcontent⟩
      · exact .inl (hsame.trans hunchanged)
      · exact .inr ⟨u, st', hold _ hu, hpath, hlen, (Disk.content_congr hsame).trans hcontent⟩
    · exact .inr ⟨v, st, hmem v st (hdecided cmd hcall hld), hpath.symm, hlen, hcontent hwhole⟩
  · obtain ⟨hst'', hld'⟩ := linkStep_eq_some.mp hst'
    have hout := huntouched st' (mem_steps_of_stepOf hst'') hld'
    obtain ⟨j, hj⟩ := List.mem_iff_getElem?.mp hspawn
    change (s.workers.set i pc')[j]? = _ at hj
    by_cases hij : i = j
    · -- the worker that moved: it just decided to rebuild
      subst hij
      have hlt := (List.getElem?_eq_some_iff.mp hi).1
      obtain rfl : pc' = .process u (.spawn cmd) := by
        simpa [List.getElem?_set_self hlt] using hj
      obtain ⟨rfl, hr⟩ := hpc' _ _ rfl
      obtain rfl : st = st' := Option.some.inj (hst.symm.trans hst'')
      obtain ⟨⟨cmd₀, hcall⟩, hargs⟩ := hcases.spawn_cases hwhole hld' hr
      have hrel := hdecided cmd₀ hcall hld'
      refine ⟨hmem u st hrel, ?_⟩
      rcases hargs with hplain | ⟨husable, hd⟩ | hwrote
      · exact .inl hplain
      · right
        show d'.disk.content st.rspPath = _
        rw [hd]
        rcases h.file st.rspPath hout with hunchanged | ⟨w, st₁, hw, hpath, hlen, hcontent⟩
        · -- the file is from before the run
          obtain ⟨hsome, -⟩ := Bool.and_eq_true_iff.mp husable
          obtain ⟨f, hf⟩ := Option.isSome_iff_exists.mp hsome
          have hcontents := hown.leftover _ List.mem_cons_self u st hrel husable f
            (hunchanged ▸ hf)
          exact Disk.content_of_contents hf hcontents
        · -- the file was written in this run, by this step or by one it would share it with
          obtain ⟨hwstarted, hwlink⟩ := h.started w st₁ hw
          by_cases hwu : u = w
          · subst hwu
            obtain rfl := Option.some.inj (hwlink.symm.trans hst')
            exact hcontent
          · have hpath' := hown.apart u st w st₁ (hmem u st hrel) (hold _ hw) hwu hpath.symm hlen
            exact absurd hpath' (hacc.not_producer_of_running hg hrun hwstarted)
      · exact .inr hwrote
    · -- another worker: its response file is not the one that this move writes
      rw [List.getElem?_set_ne hij] at hj
      have hrun' := List.mem_of_getElem? hj
      obtain ⟨hu, hargs⟩ := h.spawning u cmd st' hrun' hst'
      refine ⟨hold _ hu, hargs.imp_right fun hcontent => ?_⟩
      have hne := (hout st (mem_steps_of_stepOf hst)).symm
      rcases hcases.rsp_cases hne with hsame | ⟨⟨cmd₀, hcall⟩, hld, hlen, hpath, -⟩
      · exact (Disk.content_congr hsame).trans hcontent
      · have huv : u ≠ v := by
          rintro rfl
          exact hij (hacc.running_unique hi hj)
        have hpath' := hown.apart u st' v st (hold _ hu) (hmem v st (hdecided cmd₀ hcall hld)) huv
          hpath hlen
        exact absurd hpath' (hacc.not_producer_of_running hg hrun' hvstarted)

/-- The invariant holds after every run that keeps the response files apart. -/
theorem rspRecorded (hg : ctx.graph.Linked) (huntouched : RspUntouched ctx)
    (h : (poolMachine (processStep ctx) cfg ctx.graph (.start ctx disk₀)).Run tr s)
    (hown : OwnResponseFiles ctx disk₀ tr) : RspRecorded ctx disk₀ tr s := by
  -- induction over the run; only the moves of calls touch response files
  induction h with
  | start h0 =>
    obtain ⟨order, horder, rfl⟩ := h0
    rw [initialState_eq ctx.graph horder]
    exact ⟨rfl, by simp, fun _ _ => .inl rfl, by simp⟩
  | @move tr s s' a hr hs ih =>
    have hI := ih hown.of_cons
    have hacc := accounted hg hr.reachable
    -- the writes of response files that the move makes all go through
    have hwhole : ∀ {i v : ℕ} {call : Call} {label : Outcome}, a = .work i label →
        s.workers[i]? = some (.process v call) → s'.data.rspFailed = false := by
      rintro i v call label rfl hi
      obtain ⟨r, hadv⟩ := advance_of_poolStep hs hi
      refine rspFailed_advance hadv hI.whole fun cmd st hcall hst hwrites => ?_
      refine hown.written s i label List.mem_cons_self v st ?_ hwrites
      simp [relinked, hi, hcall, hst]
    cases poolStep_cases hs with
    | stop => exact hI.frame rfl (List.Subset.refl _) rfl fun _ _ hmem => hmem
    | spawn => exact hI.frame rfl (List.Subset.refl _) rfl fun v cmd hmem => by simpa using hmem
    | @move i label pc sh d pc' events hi hm =>
      -- a move outside the calls that does not arrive at a spawn
      have hframe : d = s.data → (∀ v call, pc ≠ .process v call) →
          (∀ v cmd, pc' ≠ .process v (.spawn cmd)) →
          RspRecorded ctx disk₀ ((s, .work i label) :: tr) (s.moved i sh d pc' events) := by
        rintro rfl hpc hpc'
        apply hI.frame
        · simp only [relinked, hi]
          split
          · next v cmd heq => exact absurd (Option.some.inj heq) (hpc v _)
          · rfl
        · exact fun u hu => mem_started.mpr (List.mem_append_left _ (mem_started.mp hu))
        · rfl
        · intro v cmd hmem
          rcases List.mem_or_eq_of_mem_set hmem with hold | hnew
          · exact hold
          · exact absurd hnew.symm (hpc' v cmd)
      cases hm with
      | advance hadv =>
        refine hI.advance hg huntouched hacc hown hi hadv (hwhole rfl hi) ?_
        rintro _ _ ⟨rfl, rfl⟩
        exact ⟨rfl, rfl⟩
      | succeed hadv => exact hI.advance hg huntouched hacc hown hi hadv (hwhole rfl hi) (by simp)
      | fail hadv => exact hI.advance hg huntouched hacc hown hi hadv (hwhole rfl hi) (by simp)
      | subtract =>
        refine hframe rfl (by simp) ?_
        rintro v cmd ⟨rfl, heq⟩
      | idle hm => cases hm <;> exact hframe rfl (by simp) (by simp)
      | signal hm => cases hm <;> exact hframe rfl (by simp) (by simp)
      | setError => exact hframe rfl (by simp) (by split_ifs <;> simp)
      | countFailed => exact hframe rfl (by simp) (by split_ifs <;> simp)
      | edgesDone => exact hframe rfl (by simp) (by split_ifs <;> simp)
      | _ => exact hframe rfl (by simp) (by simp)

end Invariant

/-- In a run that keeps the response files apart, whenever a link step is spawned with its response
file, that file lists the inputs of the step, one on a line, in order. -/
theorem content_of_ownResponseFiles {cfg : PoolConfig} {s : State BuildData Call}
    {tr : List (State BuildData Call × Action Outcome)} (hg : ctx.graph.Called)
    (huntouched : RspUntouched ctx)
    (h : (poolMachine (processStep ctx) cfg ctx.graph (.start ctx disk₀)).Run tr s)
    (hown : OwnResponseFiles ctx disk₀ tr) :
    ∀ m ∈ tr, ∀ st args, linked ctx m = some (st, args) → PassesRsp ctx st args →
      m.1.data.disk.content st.rspPath = some st.rspContent := by
  -- induction over the run: the last move spawns, or an earlier one did
  induction h with
  | start h0 => simp
  | @move tr s s' a hr hs ih =>
    intro m hm st args hlinked hpasses
    rcases List.mem_cons.mp hm with rfl | hm
    · have hI := rspRecorded hg.linked huntouched hr hown.of_cons
      cases a with
      | spawn => simp [linked] at hlinked
      | work i outcome =>
        simp only [linked] at hlinked
        split at hlinked
        · next v cmd hi =>
          obtain ⟨st', hst, heq⟩ := Option.map_eq_some_iff.mp hlinked
          obtain ⟨rfl, rfl⟩ := Prod.mk.inj heq
          exact (hI.spawning v cmd st' (List.mem_of_getElem? hi) hst).2.resolve_left hpasses.2
        · simp at hlinked
    · exact ih hown.of_cons m hm st args hlinked hpasses

end ResponseFile

/-! ### Sharing a response file -/

instance (ctx : StepContext) (st : BuildStep) (args : List Bytes) :
    Decidable (PassesRsp ctx st args) :=
  inferInstanceAs (Decidable (chr '@' :: st.rspPath ∈ args ∧ _))

instance (ctx : StepContext) : Decidable (RspUntouched ctx) :=
  inferInstanceAs (Decidable (∀ st ∈ ctx.graph.steps, _))

/-- Inputs that are too many for a command line. -/
def manyInputs : List Bytes := (List.range 51).map fun n => ascii "s" ++ ascii (toString n)

/-- Linking `a.x` from many inputs and `a.y` from one. -/
def siblingSteps : List BuildStep :=
  [{ tool := ascii "ld", inputs := (manyInputs.intersperse (ascii ",")).flatten,
     output := ascii "a.x" },
   { tool := ascii "ld", inputs := ascii "s0", output := ascii "a.y" }]

/-- The graph of `siblingSteps`. -/
def siblings : BuildGraph :=
  ((BuildGraph.empty.addSteps (fun _ => none) siblingSteps).toOption).getD .empty

theorem built_siblings : siblings.Built :=
  Built.empty.addSteps siblingSteps (by decide +kernel)
    (show BuildGraph.empty.addSteps (fun _ => none) siblingSteps = .ok siblings by decide +kernel)

/-- The build of `siblings`. -/
def siblingContext : StepContext where
  graph := siblings
  flags := .ofDefinitions (Definitions.empty.emplace (ascii "linker") (ascii "ld"))
  buildFile := ascii "catalyst.build"
  dryRun := false
  rapidHash bytes seed := bytes.foldl (fun hash b => hash * 31 + b.toUInt64) (seed + 1)

/-- The manifest alone. -/
def siblingDisk : Disk := ⟨[(ascii "catalyst.build", ⟨3, .unknown⟩)]⟩

/-- The pool that builds `siblings`. -/
def siblingPool : Machine (State BuildData Call) (Action Outcome) :=
  poolMachine (processStep siblingContext) ⟨1, false⟩ siblingContext.graph
    (.start siblingContext siblingDisk)

theorem built_siblingContext : siblingContext.graph.Built := by
  simpa only [siblingContext] using built_siblings

theorem rspUntouched_siblings : RspUntouched siblingContext := by decide +kernel

/-- The one worker makes `a.x` and goes on to `a.y`, which finds the response file of `a.x` newer
than the manifest. -/
theorem linked_with_sibling_inputs : siblingContext.graph.Built ∧ RspUntouched siblingContext ∧
    siblingContext.dryRun = false ∧ ∃ tr s, siblingPool.Run tr s ∧
      ∃ m ∈ tr, ∃ st args, linked siblingContext m = some (st, args) ∧
        PassesRsp siblingContext st args ∧
          m.1.data.disk.content st.rspPath ≠ some st.rspContent := by
  obtain ⟨tr, s, hrun, hs⟩ := Machine.exists_run_of_exec (M := siblingPool)
    (s := initialState siblingContext.graph [0, 52] (.start siblingContext siblingDisk))
    ⟨[0, 52], by decide +kernel, rfl⟩
    (.spawn :: (List.replicate 7 (.work 0 ⟨some 0, 10⟩) ++
      List.replicate 12 (.work 0 ⟨some 0, 20⟩)))
    (fun r => r.1.any fun m => (linked siblingContext m).any fun e =>
      PassesRsp siblingContext e.1 e.2 ∧ m.1.data.disk.content e.1.rspPath ≠ some e.1.rspContent)
    (by decide +kernel)
  obtain ⟨m, hm, he⟩ := List.any_eq_true.mp hs
  obtain ⟨⟨st, args⟩, hlinked, hwrong⟩ := (Option.any_eq_true _ _).mp he
  obtain ⟨hpasses, hcontent⟩ := of_decide_eq_true hwrong
  exact ⟨built_siblingContext, rspUntouched_siblings, rfl, tr, s, hrun, m, hm, st, args, hlinked,
    hpasses,
    hcontent⟩

/-- A response file that is written in the move is written as a whole. -/
def writes : Action Outcome → Bool
  | .spawn => true
  | .work _ outcome => outcome.code = some 0

/-- Until `a.y` is its turn, `a.x` is linked from its own response file. -/
theorem content_of_ownResponseFiles_siblings : ∃ tr s, siblingPool.Run tr s ∧
    ∃ m ∈ tr, ∃ st args, linked siblingContext m = some (st, args) ∧
      PassesRsp siblingContext st args ∧
        m.1.data.disk.content st.rspPath = some st.rspContent := by
  obtain ⟨tr, s, hrun, hs⟩ := Machine.exists_run_of_exec (M := siblingPool)
    (s := initialState siblingContext.graph [0, 52] (.start siblingContext siblingDisk))
    ⟨[0, 52], by decide +kernel, rfl⟩ (.spawn :: List.replicate 7 (.work 0 ⟨some 0, 10⟩))
    (fun r => (r.1.filterMap (relinked siblingContext)).all (fun e =>
        e.1 = 0 ∧ siblingDisk.file e.2.rspPath = none) ∧
      (r.1.map Prod.snd).all writes ∧
        r.1.any fun m => (linked siblingContext m).any fun e => PassesRsp siblingContext e.1 e.2)
    (by decide +kernel)
  obtain ⟨hrelinked, hwrites, hspawned⟩ := of_decide_eq_true hs
  have hone : ∀ v st, (v, st) ∈ tr.filterMap (relinked siblingContext) →
      v = 0 ∧ siblingDisk.file st.rspPath = none := by
    intro v st hv
    exact of_decide_eq_true (List.all_eq_true.mp hrelinked (v, st) hv)
  have hown : OwnResponseFiles siblingContext siblingDisk tr := by
    refine ⟨fun v st v' st' hv hv' hne => ?_, fun m hm v st hv _ f hf => ?_,
      fun s i outcome hm v st _ _ => ?_⟩
    · exact absurd ((hone v st hv).1.trans (hone v' st' hv').1.symm) hne
    · rw [(hone v st (List.mem_filterMap.mpr ⟨m, hm, hv⟩)).2] at hf
      exact absurd hf (by simp)
    · exact of_decide_eq_true (List.all_eq_true.mp hwrites _ (List.mem_map_of_mem hm))
  obtain ⟨m, hm, he⟩ := List.any_eq_true.mp hspawned
  obtain ⟨⟨st, args⟩, hlinked, hpasses⟩ := (Option.any_eq_true _ _).mp he
  have hpasses := of_decide_eq_true hpasses
  exact ⟨tr, s, hrun, m, hm, st, args, hlinked, hpasses,
    content_of_ownResponseFiles built_siblingContext.called rspUntouched_siblings hrun hown m hm st
      args hlinked
      hpasses⟩

end Cob
