import Cob.Queue.Ring

/-!
# The consumer of the progress queue

`LockFreeMPSCQueue::dequeue`. There is one consumer, so `dequeue_pos` is a plain member that only
`dequeue` reads and writes; it moves on when the call returns. The item is moved out of its cell,
which leaves there whatever the move constructor leaves.

* `PopPc.Holds` — what the consumer knows at each place;
* `Ring.Inv.popStep` — one step of `dequeue` keeps the invariant of the ring and does what a
  bounded FIFO permits.
-/

namespace Cob.Queue

variable {α : Type*}

/-- The places in `dequeue`, each before the access it names. -/
inductive PopPc (α : Type*) where
  /-- Before the sequence number is loaded. -/
  | check
  /-- Before the item is moved from the cell. -/
  | read
  /-- Before the sequence number is stored. -/
  | release (data : α)
  deriving DecidableEq

/-- The next access of `dequeue`; `moved` is what the move leaves in the cell. -/
def Ring.popStep (q : Ring α) (moved : α) :
    PopPc α → Ring α × (PopPc α ⊕ Option α) × Option (Event α)
  | .check =>
    let diff : ℤ := (q.cell q.dequeuePos).sequence - (q.dequeuePos + 1 : ℕ)
    if diff = 0 then (q, .inl .read, some (.taken q.dequeuePos))
    else (q, .inr none, some (.empty q.dequeuePos))
  | .read =>
    (q.storeData q.dequeuePos moved, .inl (.release (q.cell q.dequeuePos).data),
      some (.read q.dequeuePos (q.cell q.dequeuePos).data))
  | .release data =>
    ({ q.storeSequence q.dequeuePos (q.dequeuePos + q.bufferMask + 1) with
        dequeuePos := q.dequeuePos + 1 },
      .inr (some data), some (.released q.dequeuePos data))

/-- What the consumer knows at each place of `dequeue`, the dequeue position being `pos`. -/
def PopPc.Holds (pos : ℕ) (l : List (Entry α)) : PopPc α → Prop
  | .check => takenCount l = pos
  | .read => takenCount l = pos + 1 ∧ ∃ x, l[pos]? = some ⟨x, .taken⟩
  | .release data => takenCount l = pos + 1 ∧ l[pos]? = some ⟨data, .read⟩

section PopStep

variable {q q' : Ring α} {l : List (Entry α)} {moved : α} {pc : PopPc α}
  {r : PopPc α ⊕ Option α} {e : Option (Event α)}

/-- What the call has returned with. -/
def PopPc.After (pos : ℕ) (l : List (Entry α)) : PopPc α ⊕ Option α → Prop
  | .inl pc => pc.Holds pos l
  | .inr _ => takenCount l = pos

/-- One access of `dequeue` is a step that a bounded FIFO permits, and the ring shows it. -/
theorem Ring.Inv.popStep (hI : q.Inv (takenCount l) l) (hpc : pc.Holds q.dequeuePos l)
    (hstep : q.popStep moved pc = (q', r, e)) :
    q'.capacity = q.capacity ∧ q'.Inv (takenCount (recorded l e)) (recorded l e) ∧
      (∀ ev, e = some ev → Allowed q.capacity l ev) ∧
      PopPc.After q'.dequeuePos (recorded l e) r := by
  cases pc with
  | check =>
    have hpos : takenCount l = q.dequeuePos := hpc
    rw [hpos] at hI
    simp only [Ring.popStep] at hstep
    split_ifs at hstep with hzero
    · obtain ⟨rfl, rfl, rfl⟩ := by simpa using hstep
      obtain ⟨x, hx⟩ := hI.sequence_taken_iff.mp (by omega)
      have hlap := hI.length_le_add hx (show Phase.published.rank < 5 by decide)
      have hallowed : Allowed q.capacity l (.taken q.dequeuePos) := ⟨hpos.symm, x, hx⟩
      have hcount : takenCount (record l (.taken q.dequeuePos)) = q.dequeuePos + 1 := by
        rw [hallowed.takenCount_record, hpos]
        rfl
      refine ⟨rfl, ?_, ?_, hcount, x, ?_⟩
      · rw [recorded_some, hcount]
        refine hI.reach hx rfl rfl rfl (fun _ _ => rfl) ?_ (fun _ => ?_)
          (.inr ⟨rfl, rfl, rfl⟩)
        · exact hI.current _ _ hx hlap
        · exact hI.data _ _ hx (show 1 ≤ Phase.published.rank by decide)
            (show Phase.published.rank ≤ 3 by decide)
      · rintro ev ⟨⟩
        exact hallowed
      · simp [record, hx, Entry.reach]
    · obtain ⟨rfl, rfl, rfl⟩ := by simpa using hstep
      refine ⟨rfl, by rwa [recorded_some, record, hpos], ?_, hpos⟩
      rintro ev ⟨⟩
      refine ⟨hpos.symm, fun y hy => ?_⟩
      -- a published position at the front would show its sequence number
      by_contra hrank
      have hnot := mt (hI.taken_iff _ _ hy).mp (lt_irrefl _)
      obtain ⟨y, ph⟩ := y
      obtain rfl : ph = .published := by
        apply Phase.rank_injective
        have : ph.rank = 2 := by
          simp only at hrank hnot
          omega
        exact this
      have hseq := hI.sequence_taken_iff.mpr ⟨y, hy⟩
      omega
  | read =>
    obtain ⟨hcount, x, hx⟩ := hpc
    have hlap := hI.length_le_add hx (show Phase.taken.rank < 5 by decide)
    have hdata : (q.cell q.dequeuePos).data = x :=
      hI.data _ _ hx (show 1 ≤ Phase.taken.rank by decide) (show Phase.taken.rank ≤ 3 by decide)
    obtain ⟨rfl, rfl, rfl⟩ := by simpa [Ring.popStep, hdata] using hstep
    have hallowed : Allowed q.capacity l (.read q.dequeuePos x) := hx
    have hcount' := hallowed.takenCount_record
    refine ⟨rfl, ?_, ?_, ?_, ?_⟩
    · rw [recorded_some, hcount']
      refine hI.reach hx rfl rfl rfl ?_ ?_ (fun h => absurd h (by decide))
        (.inl ⟨by decide, rfl⟩)
      · intro p hne
        rw [Ring.cell_storeData, if_neg hne.symm]
      · rw [Ring.cell_storeData, if_pos rfl]
        exact hI.current _ _ hx hlap
    · rintro ev ⟨⟩
      exact hallowed
    · rw [recorded_some, hcount']
      exact hcount
    · simp [record, hx, Entry.reach]
  | release data =>
    obtain ⟨hcount, hx⟩ := hpc
    obtain ⟨rfl, rfl, rfl⟩ := by simpa [Ring.popStep] using hstep
    have hallowed : Allowed q.capacity l (.released q.dequeuePos data) := hx
    have hcount' := hallowed.takenCount_record
    refine ⟨rfl, ?_, ?_, ?_⟩
    · rw [recorded_some, hcount']
      refine hI.reach hx rfl rfl rfl ?_ ?_ (fun h => absurd h (by decide))
        (.inl ⟨by decide, rfl⟩)
      · intro p hne
        exact (Ring.cell_storeSequence _ _ _ _).trans (if_neg hne.symm)
      · show ((q.storeSequence q.dequeuePos _).cell q.dequeuePos).sequence = _
        rw [Ring.cell_storeSequence, if_pos rfl]
        rfl
    · rintro ev ⟨⟩
      exact hallowed
    · show takenCount _ = _
      rw [recorded_some, hcount']
      exact hcount

/-- The consumer moves on positions that are published. -/
theorem Ring.rank_target_popStep (hstep : q.popStep moved pc = (q', r, e)) :
    ∀ p ph, e.bind Event.target = some (p, ph) → 3 ≤ ph.rank := by
  intro p ph htarget
  cases pc with
  | check =>
    simp only [Ring.popStep] at hstep
    split_ifs at hstep <;> (obtain ⟨rfl, rfl, rfl⟩ := by simpa using hstep) <;> cases htarget
    decide
  | read =>
    obtain ⟨rfl, rfl, rfl⟩ := by simpa [Ring.popStep] using hstep
    cases htarget
    decide
  | release data =>
    obtain ⟨rfl, rfl, rfl⟩ := by simpa [Ring.popStep] using hstep
    cases htarget
    decide

end PopStep

end Cob.Queue
