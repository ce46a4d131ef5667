import Cob.Executor.Demand

/-!
# Files that a build does not look at

While the workers run, files may change that no call looks at: neither the manifest, nor a file of
the graph, nor a response file. The dependency files that compilers write are such files. Forgetting
them turns every step of the pool into a step of the pool (`poolStep_seen`), so what holds of a
build that nobody disturbs holds of one in which these files change.

The module introduces:

* `Disk.restrict` — a disk with only some of its files;
* `Pc.mapCall`, `State.map` — a pool with other data and calls;
* `Involved` — the files that calls look at.
-/

namespace Cob

open BuildGraph NodeTimes

namespace Disk

/-- The files for which `P` holds. -/
def restrict (disk : Disk) (P : Bytes → Bool) : Disk := ⟨disk.entries.filter fun e => P e.1⟩

variable {disk : Disk} {P : Bytes → Bool} {p : Bytes} {f : File} {time : FileTime}

theorem file_restrict (p : Bytes) :
    (disk.restrict P).file p = if P p then disk.file p else none := by
  obtain ⟨entries⟩ := disk
  simp only [file, restrict]
  induction entries with
  | nil => simp
  | cons e entries ih =>
    obtain ⟨q, f⟩ := e
    rw [List.filter_cons]
    by_cases hp : p = q
    · subst hp
      by_cases hP : P p = true
      · simp [hP]
      · rw [if_neg hP, ih, if_neg hP, if_neg hP]
    · by_cases hP : P q = true
      · rw [if_pos hP, List.lookup_cons, List.lookup_cons, ih]
        simp [beq_false_of_ne hp]
      · rw [if_neg hP, ih, List.lookup_cons]
        simp [beq_false_of_ne hp]

@[simp]
theorem file_restrict_of (h : P p = true) : (disk.restrict P).file p = disk.file p := by
  simp [file_restrict, h]

@[simp]
theorem mtime_restrict_of (h : P p = true) : (disk.restrict P).mtime p = disk.mtime p := by
  simp [mtime, h]

theorem restrict_write_of (h : P p = true) :
    (disk.write p f).restrict P = (disk.restrict P).write p f := by
  simp [write, restrict, h]

/-- A file that is forgotten may be written. -/
theorem restrict_write_of_not (h : P p = false) :
    (disk.write p f).restrict P = disk.restrict P := by
  simp [write, restrict, h]

/-- A file that is forgotten may be removed. -/
theorem restrict_remove_of_not (h : P p = false) :
    (disk.remove p).restrict P = disk.restrict P := by
  simp only [remove, restrict, List.filter_filter, mk.injEq]
  refine List.filter_congr fun e _ => ?_
  by_cases he : e.1 = p
  · simp [he, h]
  · simp [he]

/-- Fewer files are older than a time when all are. -/
theorem olderThan_restrict (h : disk.olderThan time = true) :
    (disk.restrict P).olderThan time = true := by
  refine olderThan_iff.mpr fun p f hf => olderThan_iff.mp h p f ?_
  rw [file_restrict] at hf
  split_ifs at hf
  exact hf

end Disk

/-! ### A pool with other data and calls -/

section Map

variable {D C L : Type} {sem : StepSemantics D C L} {cfg : PoolConfig} {g : BuildGraph}

/-- The program counter with another call. -/
def Pc.mapCall (ψ : C → C) : Pc C → Pc C
  | .process node call => .process node (ψ call)
  | pc => pc

/-- The pool with other data and calls. -/
def State.map (φ : D → D) (ψ : C → C) (s : State D C) : State D C :=
  { s with data := φ s.data, workers := s.workers.map (Pc.mapCall ψ) }

/-- The maps turn the steps of a call into steps. -/
structure Simulates (sem : StepSemantics D C L) (φ : D → D) (ψ : C → C) : Prop where
  enter : ∀ node, ψ (sem.enter node) = sem.enter node
  advance : ∀ d node call label d' r, sem.advance d node call label = some (d', r) →
    sem.advance (φ d) node (ψ call) label = some (φ d', r.map ψ id)

variable {φ : D → D} {ψ : C → C}

/-- A step of a worker, with other data and calls. -/
theorem workerStep_map (h : Simulates sem φ ψ) {sh sh' : Shared} {d d' : D} {pc pc' : Pc C}
    {label : L} {events : List Event}
    (hstep : workerStep sem cfg g sh d pc label = some (sh', d', pc', events)) :
    workerStep sem cfg g sh (φ d) (pc.mapCall ψ) label =
      some (sh', φ d', pc'.mapCall ψ, events) := by
  cases pc with
  | process node call =>
    simp only [workerStep, Pc.mapCall] at hstep ⊢
    split at hstep
    · cases hstep
    · next d₁ call' hadv =>
      obtain ⟨rfl, rfl, rfl, rfl⟩ := by simpa using hstep
      rw [h.advance _ _ _ _ _ _ hadv]
      rfl
    · next d₁ result hadv =>
      obtain ⟨rfl, rfl, rfl, rfl⟩ := by simpa using hstep
      rw [h.advance _ _ _ _ _ _ hadv]
      simp only [Sum.map_inr, id_eq]
      split_ifs <;> rfl
  | subtract node =>
    obtain ⟨rfl, rfl, rfl, rfl⟩ := by simpa [workerStep] using hstep
    simp [workerStep, Pc.mapCall, h.enter]
  | decrement edges last =>
    cases edges with
    | nil => grind [workerStep, Pc.mapCall]
    | cons neighbor edges => grind [workerStep, Pc.mapCall]
  -- the other steps pass the data on
  | _ => grind [workerStep, Pc.mapCall]

/-- A step of the pool, with other data and calls. -/
theorem poolStep_map (h : Simulates sem φ ψ) {s s' : State D C} {a : Action L}
    (hstep : poolStep sem cfg g s a = some s') :
    poolStep sem cfg g (s.map φ ψ) a = some (s'.map φ ψ) := by
  cases a with
  | spawn =>
    simp only [poolStep] at hstep ⊢
    split_ifs at hstep with hspawn hall
    · obtain rfl := Option.some.inj hstep
      rw [if_pos (show _ ∧ (s.map φ ψ).workers.length < _ by simpa [State.map] using hspawn),
        if_pos (show (s.map φ ψ).shared.completedCount = _ from hall)]
      rfl
    · obtain rfl := Option.some.inj hstep
      rw [if_pos (show _ ∧ (s.map φ ψ).workers.length < _ by simpa [State.map] using hspawn),
        if_neg (show ¬ (s.map φ ψ).shared.completedCount = _ from hall)]
      simp [State.map, Pc.mapCall]
  | work i label =>
    simp only [poolStep] at hstep
    split at hstep
    · cases hstep
    · next pc hpc =>
      obtain ⟨⟨sh', d', pc', events⟩, hworker, rfl⟩ := Option.map_eq_some_iff.mp hstep
      have hpc' : (s.map φ ψ).workers[i]? = some (pc.mapCall ψ) := by simp [State.map, hpc]
      have hworker' := workerStep_map h hworker
      simp only [poolStep, hpc']
      rw [show (s.map φ ψ).shared = s.shared from rfl, show (s.map φ ψ).data = φ s.data from rfl,
        hworker', Option.map_some]
      simp [State.map, List.map_set]

end Map

/-! ### Files that calls look at -/

/-- The files that the calls of `processStep` look at. No file has an empty name. -/
def Involved (g : BuildGraph) (buildFile p : Bytes) : Bool :=
  p = [] ∨ p = buildFile ∨ (g.findNode p).isSome ∨ ∃ st ∈ g.steps, st.rspPath = p

/-- The call, when only some files were there at the start of its tool. -/
def Call.restrict (P : Bytes → Bool) : Call → Call
  | .running cmd since => .running cmd (since.restrict P)
  | call => call

/-- The data with only some of the files. -/
def BuildData.restrict (P : Bytes → Bool) (d : BuildData) : BuildData :=
  { d with disk := d.disk.restrict P }

section Restrict

variable {ctx : StepContext} {d : BuildData} {st : BuildStep} {v : ℕ}

theorem involved_buildFile : Involved ctx.graph ctx.buildFile ctx.buildFile = true := by
  simp [Involved]

theorem involved_rspPath (hst : st ∈ ctx.graph.steps) :
    Involved ctx.graph ctx.buildFile st.rspPath = true := by
  simp only [Involved, decide_eq_true_eq]
  exact .inr (.inr (.inr ⟨st, hst, rfl⟩))

theorem involved_of_pathOf (hg : ctx.graph.WellFormed) {p : Bytes}
    (hp : ctx.graph.pathOf v = some p) : Involved ctx.graph ctx.buildFile p = true := by
  have hnode := (hg.indexed p v).mpr hp
  simp [Involved, hnode]

theorem involved_output (hg : ctx.graph.WellFormed) (hst : ctx.graph.stepOf v = some st) :
    Involved ctx.graph ctx.buildFile st.output = true := by
  obtain ⟨st', hst', hpath⟩ := hg.exists_stepOf (isStep_of_stepOf hst)
  obtain rfl : st = st' := Option.some.inj (hst.symm.trans hst')
  exact involved_of_pathOf hg hpath

theorem involved_slotPath (hg : ctx.graph.WellFormed) (ref : SlotRef) :
    Involved ctx.graph ctx.buildFile (slotPath ctx ref) = true := by
  cases ref with
  | buildFile => exact involved_buildFile
  | node i =>
    cases hp : ctx.graph.pathOf i with
    | none => simp [slotPath, hp, Involved]
    | some p => simpa [slotPath, hp] using involved_of_pathOf hg hp

/-- Whether a response file is usable does not depend on the other files. -/
theorem usableRsp_restrict (hst : st ∈ ctx.graph.steps) :
    (d.restrict (Involved ctx.graph ctx.buildFile)).usableRsp ctx st = d.usableRsp ctx st := by
  apply usableRsp_congr
  · exact Disk.file_restrict_of (involved_rspPath hst)
  · exact Disk.file_restrict_of involved_buildFile

variable {P : Bytes → Bool}

@[simp]
theorem disk_restrict : (d.restrict P).disk = d.disk.restrict P := rfl

@[simp]
theorem slot_restrict (ref : SlotRef) : (d.restrict P).slot ref = d.slot ref := by
  cases ref <;> rfl

@[simp]
theorem slots_restrict (i : ℕ) : (d.restrict P).slots i = d.slots i := rfl

@[simp]
theorem commandHash_restrict : (d.restrict P).commandHash = d.commandHash := rfl

@[simp]
theorem restrict_setSlot (ref : SlotRef) (slot : Slot) :
    (d.setSlot ref slot).restrict P = (d.restrict P).setSlot ref slot := by
  cases ref <;> rfl

/-- A response file is there for the calls. -/
theorem restrict_writeRsp {st : BuildStep} {outcome : Outcome} (h : P st.rspPath = true) :
    (d.writeRsp st outcome).restrict P = (d.restrict P).writeRsp st outcome := by
  unfold BuildData.writeRsp
  split
  · rfl
  · split_ifs
    · simp [BuildData.restrict, Disk.restrict_write_of h]
    · simp [BuildData.restrict, Disk.restrict_write_of h]

/-- The answer of `changedSince` leads to no tool that is running. -/
theorem restrict_afterProbe (cmd : Command) (t : FileTime) (ref : SlotRef) (rest : List ℕ)
    (answer : Bool) :
    (afterProbe d v cmd t ref rest answer).restrict P =
      afterProbe (d.restrict P) v cmd t ref rest answer := by
  show _ = afterProbe d v cmd t ref rest answer
  unfold afterProbe
  split_ifs
  · rfl
  · rfl
  · cases rest <;> rfl

/-- A step of a call looks at the involved files only. -/
theorem advance_restrict (hg : ctx.graph.WellFormed) {call : Call} {outcome : Outcome}
    {d' : BuildData} {r : Call ⊕ ℤ} (h : advance ctx d v call outcome = some (d', r)) :
    advance ctx (d.restrict (Involved ctx.graph ctx.buildFile)) v
        (call.restrict (Involved ctx.graph ctx.buildFile)) outcome =
      some (d'.restrict (Involved ctx.graph ctx.buildFile),
        r.map (Call.restrict (Involved ctx.graph ctx.buildFile)) id) := by
  -- the branches of `advance`: each test it makes reads a slot, a hash or a file of the involved
  -- part, so it comes out the same on the restricted data
  cases hk : ctx.graph.stepIdOf v with
  | none =>
    have hst : ctx.graph.stepOf v = none := by rw [stepOf_eq, hk, Option.bind_none]
    obtain ⟨rfl, rfl⟩ := by simpa [advance, hst, hk] using h
    simp [advance, hst, hk]
  | some k =>
    cases hst : ctx.graph.stepOf v with
    | none =>
      obtain ⟨rfl, rfl⟩ := by simpa [advance, hst, hk] using h
      simp [advance, hst, hk]
    | some st =>
      -- the two files the call may touch besides its slots: the output, and the response file
      have hmem := mem_steps_of_stepOf hst
      have hout : (d.disk.restrict (Involved ctx.graph ctx.buildFile)).mtime st.output =
          d.disk.mtime st.output := Disk.mtime_restrict_of (involved_output hg hst)
      have husable := usableRsp_restrict (d := d) hmem
      cases call with
      | command =>
        simp only [advance, hst, hk, Call.restrict, husable] at h ⊢
        obtain ⟨rfl, rfl⟩ := by simpa using h
        rfl
      | statOutput cmd =>
        simp only [advance, hst, hk, Call.restrict, disk_restrict, hout] at h ⊢
        cases ht : d.disk.mtime st.output with
        | none =>
          simp only [ht] at h ⊢
          obtain ⟨rfl, rfl⟩ := by simpa using h
          rfl
        | some t =>
          simp only [ht] at h ⊢
          split_ifs at h with hdiff
          · rw [commandHash_restrict, if_pos hdiff]
            obtain ⟨rfl, rfl⟩ := by simpa using h
            rfl
          · rw [commandHash_restrict, if_neg hdiff]
            obtain ⟨rfl, rfl⟩ := by simpa using h
            rfl
      | probe cmd t ref rest pos =>
        -- the walk over the inputs reads slots, and the time it stats is that of an input
        cases pos with
        | load =>
          simp only [advance, hst, hk, Call.restrict] at h ⊢
          split_ifs at h with hready
          · rw [slot_restrict, if_pos hready]
            obtain ⟨rfl, rfl⟩ := by simpa using h
            rw [← restrict_afterProbe]
            rfl
          · rw [slot_restrict, if_neg hready]
            obtain ⟨rfl, rfl⟩ := by simpa using h
            rfl
        | stat =>
          simp only [advance, hst, hk] at h
          obtain ⟨rfl, rfl⟩ := by simpa using h
          simp [advance, hst, hk, Call.restrict, involved_slotPath hg]
        | exchange time =>
          simp only [advance, hst, hk, Call.restrict] at h ⊢
          split_ifs at h with hunknown
          · rw [slot_restrict, if_pos hunknown]
            obtain ⟨rfl, rfl⟩ := by simpa using h
            simp [Call.restrict]
          · rw [slot_restrict, if_neg hunknown]
            obtain ⟨rfl, rfl⟩ := by simpa using h
            rw [← restrict_afterProbe]
            rfl
        | fill time =>
          simp only [advance, hst, hk, Call.restrict] at h ⊢
          obtain ⟨rfl, rfl⟩ := by simpa using h
          rw [← restrict_afterProbe, restrict_setSlot]
          rfl
      | recordExchange t =>
        simp only [advance, hst, hk, Call.restrict] at h ⊢
        split_ifs at h with hunknown
        · rw [slots_restrict, if_pos hunknown]
          obtain ⟨rfl, rfl⟩ := by simpa using h
          simp [Call.restrict]
        · rw [slots_restrict, if_neg hunknown]
          obtain ⟨rfl, rfl⟩ := by simpa using h
          rfl
      | recordFill t =>
        simp only [advance, hst, hk, Call.restrict] at h ⊢
        obtain ⟨rfl, rfl⟩ := by simpa using h
        rw [restrict_setSlot]
        rfl
      | rebuild cmd =>
        simp only [advance, hst, hk, Call.restrict, husable] at h ⊢
        split_ifs at h with hdry hld hwrites
        · rw [if_pos hdry]
          obtain ⟨rfl, rfl⟩ := by simpa using h
          rfl
        · rw [if_neg hdry, if_pos hld, if_pos hwrites]
          obtain ⟨rfl, rfl⟩ := by simpa using h
          rw [restrict_writeRsp (involved_rspPath hmem)]
          rfl
        · rw [if_neg hdry, if_pos hld, if_neg hwrites]
          obtain ⟨rfl, rfl⟩ := by simpa using h
          rfl
        · rw [if_neg hdry, if_neg hld]
          obtain ⟨rfl, rfl⟩ := by simpa using h
          rfl
      | spawn cmd =>
        simp only [advance, hst, hk, Call.restrict] at h ⊢
        split_ifs at h with hempty
        · rw [if_pos hempty]
          obtain ⟨rfl, rfl⟩ := by simpa using h
          rfl
        · rw [if_neg hempty]
          obtain ⟨rfl, rfl⟩ := by simpa using h
          rfl
      | running cmd since =>
        simp only [advance, hst, hk, Call.restrict] at h ⊢
        cases hcode : outcome.code with
        | none =>
          simp only [hcode] at h ⊢
          obtain ⟨rfl, rfl⟩ := by simpa using h
          rfl
        | some code =>
          simp only [hcode] at h ⊢
          split_ifs at h with hne hold
          · rw [if_pos hne]
            obtain ⟨rfl, rfl⟩ := by simpa using h
            rfl
          · rw [if_neg hne, if_pos (Disk.olderThan_restrict hold)]
            -- an exit with code 0 writes the output, which is involved
            obtain ⟨rfl, rfl⟩ := by simpa using h
            simp [BuildData.restrict, BuildData.exited, Call.restrict,
              Disk.restrict_write_of (involved_output hg hst)]
      | commit hash =>
        simp only [advance, hst, hk, Call.restrict] at h ⊢
        obtain ⟨rfl, rfl⟩ := by simpa using h
        rfl
      | invalidate =>
        simp only [advance, hst, hk, Call.restrict] at h ⊢
        split_ifs at h with hbuild
        · rw [if_pos hbuild]
          obtain ⟨rfl, rfl⟩ := by simpa using h
          rfl
        · rw [if_neg hbuild]
          obtain ⟨rfl, rfl⟩ := by simpa using h
          rfl

/-- Forgetting the other files turns calls into calls. -/
theorem simulates_restrict (hg : ctx.graph.WellFormed) :
    Simulates (processStep ctx) (BuildData.restrict (Involved ctx.graph ctx.buildFile))
      (Call.restrict (Involved ctx.graph ctx.buildFile)) :=
  ⟨fun _ => rfl, fun _ _ _ _ _ _ h => advance_restrict hg h⟩

end Restrict

/-! ### The pool, as its calls see it -/

/-- The pool on a disk of which only the involved files are there. -/
def State.seen (g : BuildGraph) (buildFile : Bytes) (disk : Disk) (s : State BuildData Call) :
    State BuildData Call :=
  State.map (BuildData.restrict (Involved g buildFile)) (Call.restrict (Involved g buildFile))
    { s with data := s.data.onDisk disk }

section Seen

variable {ctx : StepContext} {cfg : PoolConfig} {g : BuildGraph} {buildFile p : Bytes} {disk : Disk}
  {f : File} {s s' : State BuildData Call}

/-- A step of the pool is a step of what its calls see. -/
theorem poolStep_seen (hg : ctx.graph.WellFormed) {a : Action Outcome}
    (h : poolStep (processStep ctx) cfg ctx.graph { s with data := s.data.onDisk disk } a =
      some s') :
    poolStep (processStep ctx) cfg ctx.graph (s.seen ctx.graph ctx.buildFile disk) a =
      some (s'.seen ctx.graph ctx.buildFile s'.data.disk) :=
  poolStep_map (simulates_restrict hg) h

/-- The summaries of the sources are made from involved files. -/
theorem statSources_restrict (hg : ctx.graph.WellFormed) :
    statSources ctx.graph (disk.restrict (Involved ctx.graph ctx.buildFile)) =
      statSources ctx.graph disk := by
  refine List.map_congr_left fun n hn => ?_
  obtain ⟨v, hv⟩ := List.mem_iff_getElem?.mp hn
  have hpath : ctx.graph.pathOf v = some n.path := by simp [pathOf, hv]
  rw [Disk.mtime_restrict_of (involved_of_pathOf hg hpath)]

/-- What the calls see of the pool at the start. -/
theorem initialState_seen (hg : ctx.graph.WellFormed) (order : List ℕ) :
    (initialState ctx.graph order (.start ctx disk)).seen ctx.graph ctx.buildFile disk =
      initialState ctx.graph order
        (.start ctx (disk.restrict (Involved ctx.graph ctx.buildFile))) := by
  simp only [State.seen, State.map, initialState, BuildData.restrict, BuildData.onDisk,
    BuildData.start, sourceSummaries, statSources_restrict hg, List.map_nil]

/-- Files that are not involved may be written. -/
theorem seen_write (hp : Involved g buildFile p = false) :
    s.seen g buildFile (disk.write p f) = s.seen g buildFile disk := by
  simp [State.seen, State.map, BuildData.restrict, BuildData.onDisk,
    Disk.restrict_write_of_not hp]

/-- Files that are not involved may be removed. -/
theorem seen_remove (hp : Involved g buildFile p = false) :
    s.seen g buildFile (disk.remove p) = s.seen g buildFile disk := by
  simp [State.seen, State.map, BuildData.restrict, BuildData.onDisk,
    Disk.restrict_remove_of_not hp]

theorem disk_seen : (s.seen g buildFile disk).data.disk =
    disk.restrict (Involved g buildFile) := rfl

theorem joined_seen (h : s.Joined cfg) : (s.seen g buildFile disk).Joined cfg := by
  refine ⟨by simpa [State.seen, State.map] using h.1, fun pc hpc => ?_⟩
  obtain ⟨pc', hpc', rfl⟩ := List.mem_map.mp hpc
  rw [h.2 pc' hpc']
  rfl

/-- A call that is on its way to run a tool is seen so. -/
theorem mem_workers_seen {v : ℕ} {call : Call} (h : .process v call ∈ s.workers) :
    ∃ call', .process v call' ∈ (s.seen g buildFile disk).workers ∧
      call'.rebuilding = call.rebuilding := by
  refine ⟨call.restrict (Involved g buildFile), List.mem_map_of_mem h, ?_⟩
  cases call <;> rfl

end Seen

end Cob
