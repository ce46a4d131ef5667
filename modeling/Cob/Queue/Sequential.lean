import Cob.Queue.Mpsc

/-!
# The progress queue in sequence

Calls of `LockFreeMPSCQueue` that do not overlap. A call makes the accesses of `enqueueStep` and
`popStep` one after the other until it returns; its compare-exchange may fail spuriously any finite
number of times.

* `Ring.calls` — the answers of the queue to a sequence of calls;
* `Fifo.calls` — those of a FIFO that holds a number of items;
* `Shows` — the ring shows the items that are waiting, whatever its size;
* `calls_eq_iff` — the answers agree exactly when the ring has two cells at least, or no item is
  enqueued behind one that waits.
-/

namespace Cob.Queue

variable {α : Type*}

/-- A call, with the number of spurious failures of its compare-exchange, or with what moving an
item out of its cell leaves there. -/
inductive Call (α : Type*) where
  | enqueue (data : α) (failures : ℕ)
  | dequeue (moved : α)

/-- What a call returns. -/
inductive Answer (α : Type*) where
  | enqueued (done : Bool)
  | dequeued (item : Option α)
  deriving DecidableEq

namespace Ring

/-- The accesses of `enqueue` from a place on, one for each flag; none while it has not returned. -/
def runEnqueue (data : α) : List Bool → EnqueuePc → Ring α → Option (Ring α × Bool)
  | [], _, _ => none
  | spurious :: flags, pc, q =>
    match q.enqueueStep data spurious pc with
    | (q', .inl pc', _) => runEnqueue data flags pc' q'
    | (q', .inr done, _) => some (q', done)

/-- The flags of a call whose compare-exchange fails a number of times: each failure sends it back
to the sequence number, and the last round is followed by the two stores. -/
def roundFlags : ℕ → List Bool
  | 0 => [false, false, false, false]
  | failures + 1 => false :: true :: roundFlags failures

/-- `enqueue`. -/
def enqueue (q : Ring α) (data : α) (failures : ℕ) : Option (Ring α × Bool) :=
  q.runEnqueue data (false :: roundFlags failures) .load

/-- The accesses of `dequeue` from a place on, at most as many as `fuel`. -/
def runDequeue (moved : α) : ℕ → PopPc α → Ring α → Option (Ring α × Option α)
  | 0, _, _ => none
  | fuel + 1, pc, q =>
    match q.popStep moved pc with
    | (q', .inl pc', _) => runDequeue moved fuel pc' q'
    | (q', .inr item, _) => some (q', item)

/-- `dequeue`. -/
def dequeue (q : Ring α) (moved : α) : Option (Ring α × Option α) := q.runDequeue moved 3 .check

/-- One call. -/
def call (q : Ring α) : Call α → Option (Ring α × Answer α)
  | .enqueue data failures => (q.enqueue data failures).map (Prod.map id .enqueued)
  | .dequeue moved => (q.dequeue moved).map (Prod.map id .dequeued)

/-- The answers to a sequence of calls. -/
def calls : Ring α → List (Call α) → Option (List (Answer α))
  | _, [] => some []
  | q, c :: rest => (q.call c).bind fun r => (r.1.calls rest).map (r.2 :: ·)

end Ring

namespace Fifo

/-- A call to a FIFO of the given size with some items waiting. -/
def call (size : ℕ) (items : List α) : Call α → List α × Answer α
  | .enqueue data _ =>
    if items.length < size then (items ++ [data], .enqueued true) else (items, .enqueued false)
  | .dequeue _ => (items.tail, .dequeued items.head?)

/-- The answers to a sequence of calls. -/
def calls (size : ℕ) : List α → List (Call α) → List (Answer α)
  | _, [] => []
  | items, c :: rest => (call size items c).2 :: calls size (call size items c).1 rest

/-- No item is enqueued while another one waits. -/
def NeverWaits : List α → List (Call α) → Prop
  | _, [] => True
  | items, .enqueue data _ :: rest => items = [] ∧ NeverWaits [data] rest
  | items, .dequeue _ :: rest => NeverWaits items.tail rest

end Fifo

/-- The ring shows the items that are waiting, and it is free elsewhere. -/
structure Shows (q : Ring α) (items : List α) : Prop where
  pow : ∃ k, q.capacity = 2 ^ k
  enqueuePos : q.enqueuePos = q.dequeuePos + items.length
  length_le : items.length ≤ q.capacity
  waiting : ∀ i x, items[i]? = some x →
    q.cell (q.dequeuePos + i) = ⟨q.dequeuePos + i + 1, x⟩
  free : ∀ i, items.length ≤ i → i < q.capacity →
    (q.cell (q.dequeuePos + i)).sequence = q.dequeuePos + i

section Shows

variable {q : Ring α} {items : List α} {data moved : α} {failures : ℕ}

/-- A new ring shows no items. -/
theorem shows_create [Inhabited α] (n : ℕ) : Shows (Ring.create n : Ring α) [] := by
  have hpow : ∃ k, (Ring.create n : Ring α).capacity = 2 ^ k := by
    rw [Ring.capacity_create]
    exact exists_bitCeil_eq n
  refine ⟨hpow, rfl, Nat.zero_le _, nofun, fun i _ hi => ?_⟩
  obtain ⟨k, hk⟩ := hpow
  have hmask : (Ring.create n : Ring α).bufferMask = 2 ^ k - 1 := by
    rw [← hk, Ring.capacity, Nat.add_sub_cancel]
  have hslot : (Ring.create n : Ring α).slot i = i := by
    rw [Ring.slot, hmask, Nat.and_two_pow_sub_one_eq_mod, ← hk, Nat.mod_eq_of_lt hi]
  have hdeq : (Ring.create n : Ring α).dequeuePos = 0 := rfl
  simp only [hdeq, Nat.zero_add, Ring.cell, List.get_eq_getElem, hslot]
  simp [Ring.create]

/-- The two stores of an enqueue. -/
def Ring.published (q : Ring α) (data : α) : Ring α :=
  (({ q with enqueuePos := q.enqueuePos + 1 } : Ring α).storeData q.enqueuePos data).storeSequence
    q.enqueuePos (q.enqueuePos + 1)

theorem cell_published (p : ℕ) : (q.published data).cell p =
    if q.slot q.enqueuePos = q.slot p then ⟨q.enqueuePos + 1, data⟩ else q.cell p := by
  have hdata := Ring.cell_storeData { q with enqueuePos := q.enqueuePos + 1 } q.enqueuePos p data
  refine (Ring.cell_storeSequence _ _ _ _).trans ?_
  by_cases h : q.slot q.enqueuePos = q.slot p
  · rw [if_pos h, hdata.trans (if_pos h)]
    exact if_pos h
  · rw [if_neg h, hdata.trans (if_neg h)]
    exact if_neg h

/-- The two stores of a dequeue, and the next position. -/
def Ring.popped (q : Ring α) (moved : α) : Ring α :=
  { (q.storeData q.dequeuePos moved).storeSequence q.dequeuePos
      (q.dequeuePos + q.bufferMask + 1) with dequeuePos := q.dequeuePos + 1 }

theorem cell_popped (p : ℕ) : (q.popped moved).cell p =
    if q.slot q.dequeuePos = q.slot p then ⟨q.dequeuePos + q.capacity, moved⟩ else q.cell p := by
  have hdata := q.cell_storeData q.dequeuePos p moved
  refine (Ring.cell_storeSequence _ _ _ _).trans ?_
  by_cases h : q.slot q.dequeuePos = q.slot p
  · rw [if_pos h, hdata.trans (if_pos h)]
    exact if_pos h
  · rw [if_neg h, hdata.trans (if_neg h)]
    exact if_neg h

/-- At a free cell the call goes on to the stores, however often the compare-exchange fails. -/
theorem runEnqueue_roundFlags (hfree : (q.cell q.enqueuePos).sequence = q.enqueuePos) :
    q.runEnqueue data (Ring.roundFlags failures) (.check q.enqueuePos) =
      some (q.published data, true) := by
  have hcheck : ∀ spurious, q.enqueueStep data spurious (.check q.enqueuePos) =
      (q, .inl (.exchange q.enqueuePos), none) := by
    intro spurious
    simp [Ring.enqueueStep, hfree]
  induction failures with
  | zero =>
    rw [Ring.roundFlags, Ring.runEnqueue, hcheck]
    simp [Ring.runEnqueue, Ring.enqueueStep, Ring.published]
  | succ failures ih =>
    rw [Ring.roundFlags, Ring.runEnqueue, hcheck]
    simpa [Ring.runEnqueue, Ring.enqueueStep] using ih

/-- A call at a free cell. -/
theorem enqueue_of_free (hfree : (q.cell q.enqueuePos).sequence = q.enqueuePos) :
    q.enqueue data failures = some (q.published data, true) := runEnqueue_roundFlags hfree

/-- A call at a cell that is behind. -/
theorem enqueue_of_lt (hlt : (q.cell q.enqueuePos).sequence < q.enqueuePos) :
    q.enqueue data failures = some (q, false) := by
  have hcheck : ∀ spurious, q.enqueueStep data spurious (.check q.enqueuePos) =
      (q, .inr false, some (.full q.enqueuePos)) := by
    intro spurious
    have hne : ((q.cell q.enqueuePos).sequence : ℤ) - q.enqueuePos ≠ 0 := by omega
    have hneg : ((q.cell q.enqueuePos).sequence : ℤ) - q.enqueuePos < 0 := by omega
    simp only [Ring.enqueueStep, hne, hneg, if_false, if_true]
  have hload : q.enqueue data failures =
      q.runEnqueue data (Ring.roundFlags failures) (.check q.enqueuePos) := rfl
  obtain ⟨flags, hflags⟩ : ∃ flags, Ring.roundFlags failures = false :: flags := by
    cases failures <;> exact ⟨_, rfl⟩
  rw [hload, hflags, Ring.runEnqueue, hcheck]

/-- A call of `dequeue` at a published cell takes its item. -/
theorem dequeue_of_published {x : α} (hcell : q.cell q.dequeuePos = ⟨q.dequeuePos + 1, x⟩) :
    q.dequeue moved = some (q.popped moved, some x) := by
  have hcheck : q.popStep moved .check = (q, .inl .read, some (.taken q.dequeuePos)) := by
    simp [Ring.popStep, hcell]
  have hread : q.popStep moved .read = (q.storeData q.dequeuePos moved, .inl (.release x),
      some (.read q.dequeuePos x)) := by
    simp [Ring.popStep, hcell]
  rw [Ring.dequeue, Ring.runDequeue, hcheck]
  dsimp only
  rw [Ring.runDequeue, hread]
  rfl

/-- A call of `dequeue` at any other cell changes nothing. -/
theorem dequeue_of_ne (hne : (q.cell q.dequeuePos).sequence ≠ q.dequeuePos + 1) :
    q.dequeue moved = some (q, none) := by
  have hcheck : q.popStep moved .check = (q, .inr none, some (.empty q.dequeuePos)) := by
    have hdiff : ((q.cell q.dequeuePos).sequence : ℤ) - (q.dequeuePos + 1 : ℕ) ≠ 0 := by omega
    simp only [Ring.popStep, hdiff, if_false]
  rw [Ring.dequeue, Ring.runDequeue, hcheck]

namespace Shows

/-- Cells at the two ends of a way around less than a lap are different ones. -/
theorem slot_ne (h : Shows q items) {i j : ℕ} (hi : i < q.capacity) (hj : j < q.capacity)
    (hne : i ≠ j) : q.slot (q.dequeuePos + i) ≠ q.slot (q.dequeuePos + j) := by
  intro hslot
  have heq := Ring.eq_of_slot_eq h.pow hslot (by omega) (by omega)
  omega

/-- While there is room, the next cell is free. -/
theorem free_next (h : Shows q items) (hroom : items.length < q.capacity) :
    (q.cell q.enqueuePos).sequence = q.enqueuePos := by
  rw [h.enqueuePos]
  exact h.free _ le_rfl hroom

/-- In a full ring the next cell is that of the oldest item. -/
theorem cell_full (h : Shows q items) (hfull : items.length = q.capacity) :
    ∃ x, q.cell q.enqueuePos = ⟨q.dequeuePos + 1, x⟩ := by
  have hpos : 0 < q.capacity := Nat.succ_pos _
  obtain ⟨x, hx⟩ : ∃ x, items[0]? = some x := ⟨_, List.getElem?_eq_getElem (by omega)⟩
  refine ⟨x, ?_⟩
  have hcell := h.waiting 0 x hx
  have hslot := Ring.slot_add_capacity h.pow q.dequeuePos
  rw [Nat.add_zero] at hcell
  rw [← hcell, h.enqueuePos, hfull]
  simp only [Ring.cell, hslot]

/-- Enqueuing appends the item. -/
theorem published (h : Shows q items) (hroom : items.length < q.capacity) :
    Shows (q.published data) (items ++ [data]) := by
  have hcell : ∀ i < q.capacity, (q.published data).cell (q.dequeuePos + i) =
      if i = items.length then ⟨q.dequeuePos + i + 1, data⟩ else q.cell (q.dequeuePos + i) := by
    intro i hi
    rw [cell_published, h.enqueuePos]
    by_cases hlast : i = items.length
    · rw [if_pos (by rw [hlast]), if_pos hlast, hlast]
    · rw [if_neg (h.slot_ne hroom hi (Ne.symm hlast)), if_neg hlast]
  refine ⟨h.pow, ?_, ?_, fun i x hi => ?_, fun i hle hi => ?_⟩
  · show q.enqueuePos + 1 = q.dequeuePos + (items ++ [data]).length
    rw [List.length_append, h.enqueuePos]
    rfl
  · rw [List.length_append]
    exact hroom
  · have hlt := (List.getElem?_eq_some_iff.mp hi).1
    rw [List.length_append, List.length_singleton] at hlt
    refine (hcell i (by omega)).trans ?_
    split_ifs with hlast
    · rw [hlast, List.getElem?_concat_length] at hi
      obtain rfl := Option.some.inj hi
      rfl
    · rw [List.getElem?_append_left (by omega)] at hi
      exact h.waiting i x hi
  · rw [List.length_append, List.length_singleton] at hle
    refine (congrArg Cell.sequence (hcell i hi)).trans ?_
    rw [if_neg (by omega)]
    exact h.free i (by omega) hi

/-- Dequeuing takes the oldest item, and frees its cell for the next lap. -/
theorem popped {x : α} (h : Shows q (x :: items)) : Shows (q.popped moved) items := by
  have hroom : items.length < q.capacity := h.length_le
  -- the cell of the oldest item is now that of the last position of the lap
  have hcell : ∀ i < q.capacity, (q.popped moved).cell (q.dequeuePos + 1 + i) =
      if i + 1 = q.capacity then ⟨q.dequeuePos + q.capacity, moved⟩
        else q.cell (q.dequeuePos + (i + 1)) := by
    intro i hi
    have hsum : q.dequeuePos + 1 + i = q.dequeuePos + (i + 1) := by omega
    rw [hsum, cell_popped]
    by_cases hlast : i + 1 = q.capacity
    · rw [if_pos (by rw [hlast, Ring.slot_add_capacity h.pow]), if_pos hlast]
    · have hne := h.slot_ne (show 0 < q.capacity by omega) (show i + 1 < q.capacity by omega)
        (Nat.succ_ne_zero i).symm
      rw [Nat.add_zero] at hne
      rw [if_neg hne, if_neg hlast]
  refine ⟨h.pow, ?_, hroom.le, fun i y hi => ?_, fun i hle hi => ?_⟩
  · show q.enqueuePos = q.dequeuePos + 1 + items.length
    rw [h.enqueuePos, List.length_cons]
    omega
  · have hlt := (List.getElem?_eq_some_iff.mp hi).1
    refine (hcell i (by omega)).trans ?_
    rw [if_neg (by omega), h.waiting (i + 1) y hi]
    exact congrArg (Cell.mk · y) (by show _ = q.dequeuePos + 1 + i + 1; omega)
  · have hi' : i < q.capacity := hi
    refine (congrArg Cell.sequence (hcell i hi)).trans ?_
    show _ = q.dequeuePos + 1 + i
    split_ifs with hlast
    · show q.dequeuePos + q.capacity = _
      omega
    · rw [h.free (i + 1) (Nat.succ_le_succ hle) (by omega)]
      omega

/-- A call of `dequeue` on a ring without items. -/
theorem dequeue_nil (h : Shows q []) : q.dequeue moved = some (q, none) := by
  have hseq := h.free 0 le_rfl (Nat.succ_pos _)
  rw [Nat.add_zero] at hseq
  exact dequeue_of_ne (by omega)

theorem dequeue_cons {x : α} (h : Shows q (x :: items)) :
    q.dequeue moved = some (q.popped moved, some x) := by
  have hcell := h.waiting 0 x rfl
  rw [Nat.add_zero] at hcell
  exact dequeue_of_published hcell

/-- The answers of a ring that shows some items are those of a FIFO with these items, unless it has
one cell and an item is enqueued into it while it is taken. -/
theorem calls_iff (h : Shows q items) (calls : List (Call α)) :
    q.calls calls = some (Fifo.calls q.capacity items calls) ↔
      2 ≤ q.capacity ∨ Fifo.NeverWaits items calls := by
  have hpos : 0 < q.capacity := Nat.succ_pos _
  -- the same answer on both sides can be left out
  have hcons : ∀ (r : Option (List (Answer α))) (a : Answer α) (l : List (Answer α)),
      r.map (a :: ·) = some (a :: l) ↔ r = some l := by
    intro r a l
    cases r with
    | none => simp
    | some l' => simp
  induction calls generalizing q items with
  | nil => exact iff_of_true rfl (.inr trivial)
  | cons c calls ih =>
    cases c with
    | enqueue data failures =>
      rcases Nat.lt_or_eq_of_le h.length_le with hroom | hfull
      · have hcall : q.call (.enqueue data failures) = some (q.published data, .enqueued true) := by
          rw [Ring.call, enqueue_of_free (h.free_next hroom)]
          rfl
        have hfifo : Fifo.call q.capacity items (.enqueue data failures) =
            (items ++ [data], .enqueued true) := if_pos hroom
        rw [Ring.calls, hcall, Fifo.calls, hfifo]
        refine (hcons _ _ _).trans ((ih (h.published hroom) hpos).trans ?_)
        refine or_congr_right' fun hone => ?_
        obtain rfl : items = [] := List.eq_nil_of_length_eq_zero (by
          have hone' : ¬ 2 ≤ q.capacity := hone
          omega)
        exact (and_iff_right rfl).symm
      · obtain ⟨x, hcell⟩ := h.cell_full hfull
        have hseq : (q.cell q.enqueuePos).sequence = q.dequeuePos + 1 := by rw [hcell]
        have henq := h.enqueuePos
        have hfifo : Fifo.call q.capacity items (.enqueue data failures) =
            (items, .enqueued false) := if_neg (by omega)
        by_cases htwo : 2 ≤ q.capacity
        · have hcall : q.call (.enqueue data failures) = some (q, .enqueued false) := by
            rw [Ring.call, enqueue_of_lt (by omega)]
            rfl
          rw [Ring.calls, hcall, Fifo.calls, hfifo]
          refine (hcons _ _ _).trans ((ih h hpos).trans ?_)
          exact iff_of_true (.inl htwo) (.inl htwo)
        · -- the published cell looks like the free one
          have hcall : q.call (.enqueue data failures) =
              some (q.published data, .enqueued true) := by
            rw [Ring.call, enqueue_of_free (by omega)]
            rfl
          rw [Ring.calls, hcall, Fifo.calls, hfifo]
          refine iff_of_false (fun heq => ?_) (not_or_intro htwo fun hwaits => ?_)
          · obtain ⟨l, -, hl⟩ := Option.map_eq_some_iff.mp heq
            cases hl
          · rw [hwaits.1, List.length_nil] at hfull
            omega
    | dequeue moved =>
      cases items with
      | nil =>
        have hcall : q.call (.dequeue moved) = some (q, .dequeued none) := by
          rw [Ring.call, h.dequeue_nil]
          rfl
        rw [Ring.calls, hcall, Fifo.calls]
        exact (hcons _ _ _).trans (ih h hpos)
      | cons x items =>
        have hcall : q.call (.dequeue moved) = some (q.popped moved, .dequeued (some x)) := by
          rw [Ring.call, h.dequeue_cons]
          rfl
        rw [Ring.calls, hcall, Fifo.calls]
        exact (hcons _ _ _).trans (ih h.popped hpos)

end Shows

end Shows

/-- **Bounded for every capacity but one.** The answers to a sequence of calls are those of a FIFO
that holds `bit_ceil(capacity)` items, exactly when the capacity is two at least or no item is
enqueued while another one waits. -/
theorem calls_eq_iff [Inhabited α] (capacity : ℕ) (calls : List (Call α)) :
    (Ring.create capacity : Ring α).calls calls =
        some (Fifo.calls (bitCeil capacity) [] calls) ↔
      2 ≤ capacity ∨ Fifo.NeverWaits [] calls := by
  have htwo : 2 ≤ bitCeil capacity ↔ 2 ≤ capacity := by
    constructor
    · intro h
      by_contra hone
      rw [bitCeil, if_pos (by omega)] at h
      omega
    · exact fun h => h.trans (le_bitCeil capacity)
  have hshows : Shows (Ring.create capacity : Ring α) [] := shows_create capacity
  have hcalls := hshows.calls_iff calls
  rw [Ring.capacity_create, htwo] at hcalls
  exact hcalls

/-- A ring with one cell takes a second item, and has lost both of them. -/
theorem not_calls_eq_one : ¬ ∀ (capacity : ℕ) (calls : List (Call ℕ)), 1 ≤ capacity →
    (Ring.create capacity : Ring ℕ).calls calls =
      some (Fifo.calls (bitCeil capacity) [] calls) := by
  intro h
  have hcalls := h 1 [.enqueue 5 0, .enqueue 6 0, .dequeue 0] le_rfl
  have hring : (Ring.create 1 : Ring ℕ).calls [.enqueue 5 0, .enqueue 6 0, .dequeue 0] =
      some [.enqueued true, .enqueued true, .dequeued none] := by decide +kernel
  rw [hring] at hcalls
  exact absurd hcalls (by decide +kernel)

end Cob.Queue
