import Cob.Executor.ProcessStep

/-!
# The time of the manifest

The slot of the build file, for a graph in which a step produces it: any number of workers call
`buildFileChangedSince` while that step rewrites the file and then invalidates its node. Unlike the
slots of nodes, this one is read by calls that are not ordered behind the producer. So nothing keeps
the slot busy for one call only, and the fields that `state` guards are accesses of their own here.

* `access` — the accesses of `changedSince` to the slot;
* `MakesAccesses` — they are those of `processStep`;
* `manifestMachine` — the workers and the producer under every interleaving;
* `Timely` — the moves that keep times from before the rewrite out of the slot;
* `fresh_iff_timely` — late calls compare with the new time as long as all moves are timely.
-/

namespace Cob

open BuildGraph NodeTimes

/-- The time that a comparison with the slot uses, none for a missing file. -/
def NodeTimes.Slot.content (slot : Slot) : Option FileTime :=
  if slot.missing then none else some slot.time

theorem NodeTimes.changed_content (slot : Slot) (outputTime : FileTime) :
    NodeTimes.changed slot.content outputTime = slot.changed outputTime := by
  unfold Slot.content Slot.changed
  cases slot.missing <;> rfl

/-- The fields of the slot after a call stored its time. -/
def NodeTimes.Slot.store (slot : Slot) (time : Option FileTime) : Slot :=
  { slot with missing := time.isNone, time := time.getD 0 }

@[simp] theorem NodeTimes.content_store (slot : Slot) (time : Option FileTime) :
    (slot.store time).content = time := by
  cases time <;> rfl

namespace ManifestTime

/-! ### One call -/

/-- Where a call of `changedSince` is. -/
inductive Position where
  /-- `slot.state.load()` -/
  | load
  /-- `slot.missing || slot.time >= output_time` -/
  | read
  /-- `last_write_time(path)` -/
  | stat
  /-- `slot.state.compare_exchange_strong(UNKNOWN, BUSY)` -/
  | exchange (time : Option FileTime)
  /-- the stores to `slot.time` and `slot.missing` -/
  | store (time : Option FileTime)
  /-- `slot.state.store(READY)`, and the comparison with the call's own time -/
  | publish (time : Option FileTime)
  deriving DecidableEq

/-- An access to the slot, with the time that the file has on the disk: the slot after it, and where
the call goes on or the time that it compares `output_time` with. -/
def access (slot : Slot) (mtime : Option FileTime) :
    Position → Slot × (Position ⊕ Option FileTime)
  | .load => (slot, .inl (if slot.state = .ready then .read else .stat))
  | .read => (slot, .inr slot.content)
  | .stat => (slot, .inl (.exchange mtime))
  | .exchange time =>
    if slot.state = .unknown then ({ slot with state := .busy }, .inl (.store time))
    else (slot, .inr time)
  | .store time => (slot.store time, .inl (.publish time))
  | .publish time => ({ slot with state := .ready }, .inr time)

section Advance

variable {ctx : StepContext} {d : BuildData} {node k : ℕ} {st : BuildStep} {outcome : Outcome}

/-- An access, and the one after it where a slot of a node cannot change in between. -/
def accesses (slot : Slot) (mtime : Option FileTime) (pos : Position) :
    Slot × (Position ⊕ Option FileTime) :=
  match access slot mtime pos with
  | (slot, .inl .read) => access slot mtime .read
  | (slot, .inl (.publish time)) => access slot mtime (.publish time)
  | result => result

/-- The accesses of a call of `processStep`. -/
def position : Probe → Position
  | .load => .load
  | .stat => .stat
  | .exchange time => .exchange time
  | .fill time => .store time

theorem setSlot_self (d : BuildData) (ref : SlotRef) : d.setSlot ref (d.slot ref) = d := by
  cases ref with
  | buildFile => rfl
  | node i => simp [BuildData.setSlot, BuildData.slot]

/-- The calls of `processStep` make the accesses of this machine: `changedSince` those of `access`,
with the comparison of what they give as its answer, and the step that produces the manifest resets
its slot last. -/
structure MakesAccesses (ctx : StepContext) (d : BuildData) (node : ℕ) (outcome : Outcome) :
    Prop where
  probe : ∀ cmd t ref rest pos, ∃ slot call,
    advance ctx d node (.probe cmd t ref rest pos) outcome =
        some (d.setSlot ref slot, .inl call) ∧
      ((∃ pos', call = .probe cmd t ref rest pos' ∧
          accesses (d.slot ref) (d.disk.mtime (slotPath ctx ref)) (position pos) =
            (slot, .inl (position pos'))) ∨
        ∃ time, call = afterProbe d node cmd t ref rest (changed time t) ∧
          accesses (d.slot ref) (d.disk.mtime (slotPath ctx ref)) (position pos) =
            (slot, .inr time))
  invalidate : ctx.graph.findNode ctx.buildFile = some node →
    ∃ d', advance ctx d node .invalidate outcome = some (d', .inr 0) ∧
      d'.buildFileSlot = { d.buildFileSlot with state := .unknown }

theorem makesAccesses (hst : ctx.graph.stepOf node = some st)
    (hk : ctx.graph.stepIdOf node = some k) : MakesAccesses ctx d node outcome where
  probe cmd t ref rest pos := by
    unfold advance
    rw [hst, hk]
    -- each position of a probe makes the access of the same name
    cases pos with
    | load =>
      by_cases hready : (d.slot ref).state = .ready
      · simp only [if_pos hready]
        refine ⟨d.slot ref, _, by rw [setSlot_self], .inr ⟨(d.slot ref).content, ?_, ?_⟩⟩
        · rw [changed_content]
        · simp [accesses, access, position, hready]
      · simp only [if_neg hready]
        refine ⟨d.slot ref, _, by rw [setSlot_self], .inl ⟨.stat, rfl, ?_⟩⟩
        simp [accesses, access, position, hready]
    | stat => exact ⟨d.slot ref, _, by rw [setSlot_self], .inl ⟨_, rfl, rfl⟩⟩
    | exchange time =>
      by_cases hunknown : (d.slot ref).state = .unknown
      · simp only [if_pos hunknown]
        refine ⟨{ d.slot ref with state := .busy }, _, rfl, .inl ⟨.fill time, rfl, ?_⟩⟩
        simp [accesses, access, position, hunknown]
      · simp only [if_neg hunknown]
        refine ⟨d.slot ref, _, by rw [setSlot_self], .inr ⟨time, rfl, ?_⟩⟩
        simp [accesses, access, position, hunknown]
    | fill time => exact ⟨_, _, rfl, .inr ⟨time, rfl, rfl⟩⟩
  invalidate hnode := by
    refine ⟨_, by rw [advance, hst, hk], ?_⟩
    rw [if_pos hnode]
    rfl

end Advance

/-! ### The machine -/

/-- Where the step that produces the manifest is. -/
inductive Producer where
  /-- it has not written the file -/
  | before
  /-- it has written the file -/
  | rewritten
  /-- `invalidate` has returned -/
  | invalidated
  deriving DecidableEq

/-- A call of `buildFileChangedSince`; it is late when it began after `invalidate` had returned. -/
structure Reading where
  late : Bool
  outputTime : FileTime
  pos : Position
  deriving DecidableEq

/-- What a call compared. -/
structure Comparison where
  late : Bool
  outputTime : FileTime
  time : Option FileTime
  deriving DecidableEq

/-- The slot, the manifest, the producer, the workers and the comparisons that were made. -/
structure State where
  slot : Slot
  mtime : Option FileTime
  producer : Producer
  workers : List (Option Reading)
  log : List Comparison
  deriving DecidableEq

/-- The next move. -/
inductive Action where
  /-- a worker calls `buildFileChangedSince` -/
  | begin (worker : ℕ) (outputTime : FileTime)
  /-- a worker in a call makes its next access -/
  | access (worker : ℕ)
  /-- the tool of the producing step writes the manifest -/
  | rewrite (time : FileTime)
  /-- the producing step calls `invalidate` -/
  | invalidate
  deriving DecidableEq

/-- The state after an access of a worker. -/
def State.put (s : State) (worker : ℕ) (reading : Reading) :
    Slot × (Position ⊕ Option FileTime) → State
  | (slot, .inl pos) =>
    { s with slot, workers := s.workers.set worker (some { reading with pos }) }
  | (slot, .inr time) =>
    { s with
      slot
      workers := s.workers.set worker none
      log := ⟨reading.late, reading.outputTime, time⟩ :: s.log }

/-- One move. -/
def step (s : State) : Action → Option State
  | .begin worker outputTime =>
    match s.workers[worker]? with
    | some none =>
      let reading := ⟨decide (s.producer = .invalidated), outputTime, .load⟩
      some { s with workers := s.workers.set worker (some reading) }
    | _ => none
  | .access worker =>
    match s.workers[worker]? with
    | some (some reading) => some (s.put worker reading (access s.slot s.mtime reading.pos))
    | _ => none
  | .rewrite time =>
    if s.producer = .before then some { s with mtime := some time, producer := .rewritten }
    else none
  | .invalidate =>
    if s.producer = .rewritten then
      some { s with slot := { s.slot with state := .unknown }, producer := .invalidated }
    else none

/-- The slot of a new `NodeTimes`, with a number of workers. -/
def manifestMachine (workers : ℕ) : Machine State Action where
  init s := ∃ mtime, s = ⟨{}, mtime, .before, List.replicate workers none, []⟩
  step := step

/-- Every call that began after `invalidate` compared with the time of the rewritten manifest. -/
def State.Fresh (s : State) : Prop := ∀ c ∈ s.log, c.late = true → c.time = s.mtime

/-- Storing in the slot only the time of the manifest, and publishing only that. -/
def Position.Timely (slot : Slot) (mtime : Option FileTime) : Position → Prop
  | .store time => time = mtime
  | .publish _ => slot.content = mtime
  | _ => True

/-- Once the slot was invalidated, no call stores a time in it that it read before the rewrite, and
none publishes a slot that holds such a time. -/
def Timely (s : State) (a : Action) : Prop :=
  ∀ worker reading, a = .access worker → s.workers[worker]? = some (some reading) →
    s.producer = .invalidated → reading.pos.Timely s.slot s.mtime

section Access

variable {slot : Slot} {mtime : Option FileTime} {pos : Position}

/-- What a late call knows: the slot stays published while it reads it, and a time that it has read
itself is the new one. -/
def Position.Knows (slot : Slot) (mtime : Option FileTime) : Position → Prop
  | .read => slot.state = .ready
  | .exchange time => time = mtime
  | .store time => time = mtime
  | .publish time => time = mtime
  | _ => True

/-- No access takes back what was published. -/
theorem ready_access (h : slot.state = .ready) : (access slot mtime pos).1.state = .ready := by
  cases pos with
  | exchange time => simp [access, h]
  | publish time => rfl
  | load | read | stat | store time => exact h

theorem Position.Knows.mono {slot' : Slot} (h : pos.Knows slot mtime)
    (hready : slot.state = .ready → slot'.state = .ready) : pos.Knows slot' mtime := by
  cases pos with
  | read => exact hready h
  | load | stat | exchange _ | store _ | publish _ => exact h

/-- A timely access publishes the new time only. -/
theorem content_access (htimely : pos.Timely slot mtime)
    (hslot : slot.state = .ready → slot.content = mtime)
    (hready : (access slot mtime pos).1.state = .ready) :
    (access slot mtime pos).1.content = mtime := by
  cases pos with
  | load | read | stat => exact hslot hready
  | exchange time =>
    by_cases hunknown : slot.state = .unknown
    · simp [access, hunknown] at hready
    · simp only [access, if_neg hunknown] at hready ⊢
      exact hslot hready
  | store time =>
    have htime : time = mtime := htimely
    simp [access, htime]
  | publish time => exact htimely

/-- A late call that goes on knows as much as before. -/
theorem Position.Knows.access (h : pos.Knows slot mtime) {pos' : Position}
    (hpos : (ManifestTime.access slot mtime pos).2 = .inl pos') :
    pos'.Knows (ManifestTime.access slot mtime pos).1 mtime := by
  cases pos with
  | load =>
    by_cases hready : slot.state = .ready
    · obtain rfl : Position.read = pos' := by simpa [ManifestTime.access, hready] using hpos
      exact hready
    · obtain rfl : Position.stat = pos' := by simpa [ManifestTime.access, hready] using hpos
      trivial
  | read => cases hpos
  | stat =>
    cases hpos
    rfl
  | exchange time =>
    by_cases hunknown : slot.state = .unknown
    · obtain rfl : Position.store time = pos' := by
        simpa [ManifestTime.access, hunknown] using hpos
      exact h
    · simp [ManifestTime.access, hunknown] at hpos
  | store time =>
    cases hpos
    exact h
  | publish time => cases hpos

/-- A late call that ends compares with the new time. -/
theorem Position.Knows.time_eq (h : pos.Knows slot mtime)
    (hslot : slot.state = .ready → slot.content = mtime) {time : Option FileTime}
    (htime : (ManifestTime.access slot mtime pos).2 = .inr time) : time = mtime := by
  cases pos with
  | load | stat | store _ => cases htime
  | read =>
    cases htime
    exact hslot h
  | exchange time' =>
    by_cases hunknown : slot.state = .unknown
    · simp [ManifestTime.access, hunknown] at htime
    · obtain rfl : time' = time := by simpa [ManifestTime.access, hunknown] using htime
      exact h
  | publish time' =>
    cases htime
    exact h

end Access

section Runs

variable {s s' : State} {a : Action} {worker : ℕ} {reading : Reading}

/-- Calls are late after `invalidate` only, and then neither the slot nor a late call has a time
but the new one. -/
structure Inv (s : State) : Prop where
  late : ∀ reading, some reading ∈ s.workers → reading.late = true → s.producer = .invalidated
  late_log : ∀ c ∈ s.log, c.late = true → s.producer = .invalidated
  slot : s.producer = .invalidated → s.slot.state = .ready → s.slot.content = s.mtime
  knows : ∀ reading, some reading ∈ s.workers → reading.late = true →
    reading.pos.Knows s.slot s.mtime
  fresh : s.Fresh

theorem inv_start (workers : ℕ) (mtime : Option FileTime) :
    Inv ⟨{}, mtime, .before, List.replicate workers none, []⟩ := by
  have hnone : ∀ reading : Reading, some reading ∉ List.replicate workers none := by
    intro reading hmem
    cases List.eq_of_mem_replicate hmem
  exact ⟨fun r hr => absurd hr (hnone r), nofun, nofun, fun r hr => absurd hr (hnone r), nofun⟩

theorem Inv.begin (h : Inv s) (outputTime : FileTime) :
    Inv { s with
      workers := s.workers.set worker
        (some ⟨decide (s.producer = .invalidated), outputTime, .load⟩) } where
  late r hr hlate := by
    rcases List.mem_or_eq_of_mem_set hr with hr | hr
    · exact h.late r hr hlate
    · cases hr
      exact of_decide_eq_true hlate
  late_log := h.late_log
  slot := h.slot
  knows r hr hlate := by
    rcases List.mem_or_eq_of_mem_set hr with hr | hr
    · exact h.knows r hr hlate
    · cases hr
      trivial
  fresh := h.fresh

/-- A timely access keeps the invariant. -/
theorem Inv.put (h : Inv s) (hreading : s.workers[worker]? = some (some reading))
    (htimely : s.producer = .invalidated → reading.pos.Timely s.slot s.mtime) :
    Inv (s.put worker reading (access s.slot s.mtime reading.pos)) := by
  have hmem := List.mem_of_getElem? hreading
  have hslot : s.producer = .invalidated → (access s.slot s.mtime reading.pos).1.state = .ready →
      (access s.slot s.mtime reading.pos).1.content = s.mtime :=
    fun hprod => content_access (htimely hprod) (h.slot hprod)
  -- what the other late calls know survives the access
  have hknows : ∀ r, some r ∈ s.workers → r.late = true →
      r.pos.Knows (access s.slot s.mtime reading.pos).1 s.mtime :=
    fun r hr hlate => (h.knows r hr hlate).mono ready_access
  cases hresult : access s.slot s.mtime reading.pos with
  | mk slot result =>
    rw [hresult] at hslot hknows
    cases result with
    | inl pos =>
      refine ⟨fun r hr hlate => ?_, h.late_log, hslot, fun r hr hlate => ?_, h.fresh⟩
      · rcases List.mem_or_eq_of_mem_set hr with hr | hr
        · exact h.late r hr hlate
        · cases hr
          exact h.late reading hmem hlate
      · rcases List.mem_or_eq_of_mem_set hr with hr | hr
        · exact hknows r hr hlate
        · cases hr
          have hpos : pos.Knows (access s.slot s.mtime reading.pos).1 s.mtime :=
            (h.knows reading hmem hlate).access (by rw [hresult])
          rwa [hresult] at hpos
    | inr time =>
      have hother : ∀ r, some r ∈ s.workers.set worker none → some r ∈ s.workers := by
        intro r hr
        exact (List.mem_or_eq_of_mem_set hr).resolve_right nofun
      refine ⟨fun r hr => h.late r (hother r hr), fun c hc hlate => ?_, hslot,
        fun r hr => hknows r (hother r hr), fun c hc hlate => ?_⟩
      · rcases List.mem_cons.mp hc with rfl | hc
        · exact h.late reading hmem hlate
        · exact h.late_log c hc hlate
      · rcases List.mem_cons.mp hc with rfl | hc
        · have hprod := h.late reading hmem hlate
          exact (h.knows reading hmem hlate).time_eq (h.slot hprod) (by rw [hresult])
        · exact h.fresh c hc hlate

/-- Before `invalidate` no call is late, so the new time may appear and the slot may be reset. -/
theorem Inv.produce (h : Inv s) (hprod : s.producer ≠ .invalidated) {slot : Slot}
    {mtime : Option FileTime} {producer : Producer}
    (hslot : slot.state = .ready → producer ≠ .invalidated) :
    Inv { s with slot, mtime, producer } where
  late r hr hlate := absurd (h.late r hr hlate) hprod
  late_log c hc hlate := absurd (h.late_log c hc hlate) hprod
  slot hproducer hready := absurd hproducer (hslot hready)
  knows r hr hlate := absurd (h.late r hr hlate) hprod
  fresh c hc hlate := absurd (h.late_log c hc hlate) hprod

/-- Every timely move keeps the invariant. -/
theorem Inv.step (h : Inv s) (htimely : Timely s a) (hs : step s a = some s') : Inv s' := by
  cases a with
  | begin worker outputTime =>
    simp only [ManifestTime.step] at hs
    split at hs
    · cases hs
      exact h.begin outputTime
    · cases hs
  | access worker =>
    simp only [ManifestTime.step] at hs
    split at hs
    next reading hreading =>
      cases hs
      exact h.put hreading (htimely worker reading rfl hreading)
    · cases hs
  | rewrite time =>
    simp only [ManifestTime.step] at hs
    split_ifs at hs with hprod
    cases hs
    exact h.produce (by simp [hprod]) (by simp)
  | invalidate =>
    simp only [ManifestTime.step] at hs
    split_ifs at hs with hprod
    cases hs
    exact h.produce (by simp [hprod]) (by simp)

variable {workers : ℕ}

/-- A worker that is in no call may begin one. -/
theorem reachable_begin (hr : (manifestMachine workers).Reachable s)
    (hworker : s.workers[worker]? = some none) (outputTime : FileTime) :
    (manifestMachine workers).Reachable { s with
      workers := s.workers.set worker
        (some ⟨decide (s.producer = .invalidated), outputTime, .load⟩) } := by
  apply hr.step (a := .begin worker outputTime)
  simp only [manifestMachine, ManifestTime.step, hworker]

/-- A worker that is in a call may go on with it. -/
theorem reachable_put (worker : ℕ) (hr : (manifestMachine workers).Reachable s)
    (hreading : s.workers[worker]? = some (some reading)) :
    (manifestMachine workers).Reachable
      (s.put worker reading (access s.slot s.mtime reading.pos)) := by
  apply hr.step (a := .access worker)
  simp only [manifestMachine, ManifestTime.step, hreading]

/-- A call that begins when an old time is published compares with it. -/
theorem not_fresh_of_ready (hr : (manifestMachine workers).Reachable s)
    (hprod : s.producer = .invalidated) (hready : s.slot.state = .ready)
    (hstale : s.slot.content ≠ s.mtime) (hworker : s.workers[worker]? = some none) :
    ∃ s', (manifestMachine workers).Reachable s' ∧ ¬ s'.Fresh := by
  obtain ⟨hlen, -⟩ := List.getElem?_eq_some_iff.mp hworker
  have hbegin := reachable_begin hr hworker 0
  have hload := reachable_put worker hbegin (List.getElem?_set_self hlen)
  rw [access, if_pos hready] at hload
  have hread := reachable_put worker hload (List.getElem?_set_self (by simpa using hlen))
  refine ⟨_, hread, fun hfresh => hstale ?_⟩
  exact hfresh _ List.mem_cons_self (decide_eq_true hprod)

/-- After a move that is not timely a late call may compare with the old time. -/
theorem not_fresh_of_not_timely (hr : (manifestMachine workers).Reachable s)
    (hs : ManifestTime.step s a = some s') (htimely : ¬ Timely s a) :
    ∃ s'', (manifestMachine workers).Reachable s'' ∧ ¬ s''.Fresh := by
  unfold Timely at htimely
  push Not at htimely
  obtain ⟨worker, reading, rfl, hreading, hprod, hpos⟩ := htimely
  obtain ⟨hlen, -⟩ := List.getElem?_eq_some_iff.mp hreading
  have hput := reachable_put worker hr hreading
  cases hp : reading.pos with
  | load | read | stat | exchange _ =>
    rw [hp] at hpos
    exact absurd trivial hpos
  | publish time =>
    rw [hp] at hput hpos
    exact not_fresh_of_ready hput hprod rfl hpos (List.getElem?_set_self hlen)
  | store time =>
    rw [hp] at hput hpos
    -- the call publishes the time that it has just stored
    have hpublish := reachable_put worker hput (List.getElem?_set_self hlen)
    refine not_fresh_of_ready hpublish hprod rfl ?_
      (List.getElem?_set_self (by simpa [State.put, access] using hlen))
    intro hcontent
    apply hpos
    calc time = (s.slot.store time).content := (content_store s.slot time).symm
      _ = s.mtime := hcontent

/-- In every run in which, once `invalidate` has returned, no call stores in the slot or publishes
a time from before the rewrite, every late call compares with the time of the rewritten manifest.
After any other move some continuation of the run has a late call compare with an old time. The
accesses are those of the workers of a build. -/
theorem fresh_iff_timely (workers : ℕ) :
    (∀ s, (manifestMachine workers).ReachableVia Timely s → s.Fresh) ∧
      (∀ s a s', (manifestMachine workers).Reachable s →
        (manifestMachine workers).step s a = some s' → ¬ Timely s a →
          ∃ s'', (manifestMachine workers).Reachable s'' ∧ ¬ s''.Fresh) ∧
      ∀ ctx d node outcome st k, ctx.graph.stepOf node = some st →
        ctx.graph.stepIdOf node = some k → MakesAccesses ctx d node outcome := by
  refine ⟨?_, ?_, fun ctx d node outcome st k hst hk => makesAccesses hst hk⟩
  · intro s hs
    have hinv : Inv s := by
      refine hs.invariant ?_ fun s a s' _ hinv htimely hstep => hinv.step htimely hstep
      rintro s ⟨mtime, rfl⟩
      exact inv_start workers mtime
    exact hinv.fresh
  · intro s a s' hr hstep htimely
    exact not_fresh_of_not_timely hr hstep htimely

/-- One worker looks at the old manifest, and publishes its time after the slot was invalidated. -/
theorem not_fresh :
    ¬ ∀ workers s, (manifestMachine workers).Reachable s → s.Fresh := by
  intro h
  obtain ⟨tr, s, hrun, hlog⟩ :=
    (manifestMachine 1).exists_run_of_exec (s := ⟨{}, some 1, .before, [none], []⟩) ⟨some 1, rfl⟩
      [.begin 0 5, .access 0, .access 0, .rewrite 9, .invalidate, .access 0, .access 0, .access 0,
        .begin 0 5, .access 0, .access 0]
      (fun r => decide (r.2.mtime = some 9) && decide (⟨true, 5, some 1⟩ ∈ r.2.log)) (by decide)
  obtain ⟨hmtime, hmem⟩ := Bool.and_eq_true_iff.mp hlog
  have hfresh := h 1 s ⟨tr, hrun⟩ _ (of_decide_eq_true hmem) rfl
  rw [of_decide_eq_true hmtime] at hfresh
  cases hfresh

end Runs

end ManifestTime

end Cob
