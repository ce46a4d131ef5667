import Mathlib.Algebra.Group.Nat.Defs
import Mathlib.Data.Nat.Log

/-!
# The ready queue

`LockFreeMPMCQueue` at the granularity the scheduler needs. A position is claimed by the
compare-exchange of `enqueue`, published when its sequence number is stored, claimed again by
`dequeue`, and released by the last store of `dequeue`. The queue keeps every position ever
claimed, so `cells` is also the history of all enqueues. The loop around each compare-exchange
has no effect until the exchange succeeds, so a claim is one atomic step.
-/

namespace Cob

/-- `std::bit_ceil`. -/
def bitCeil (n : ℕ) : ℕ := if n ≤ 1 then 1 else 2 ^ ((n - 1).log2 + 1)

theorem le_bitCeil (n : ℕ) : n ≤ bitCeil n := by
  unfold bitCeil
  split_ifs with h
  · exact h
  · have := Nat.lt_log2_self (n := n - 1)
    omega

theorem one_le_bitCeil (n : ℕ) : 1 ≤ bitCeil n := by
  unfold bitCeil
  split_ifs
  · exact le_rfl
  · exact Nat.one_le_two_pow

/-- `std::bit_ceil` is a power of two. -/
theorem exists_bitCeil_eq (n : ℕ) : ∃ k, bitCeil n = 2 ^ k := by
  unfold bitCeil
  split_ifs
  · exact ⟨0, rfl⟩
  · exact ⟨_, rfl⟩

/-- One claimed position of the ring. -/
structure Cell where
  /-- The enqueued task. -/
  node : ℕ
  /-- Whether `enqueue` stored the sequence number `pos + 1`. -/
  published : Bool
  /-- Whether `dequeue` stored the sequence number `pos + capacity`. -/
  released : Bool
  deriving DecidableEq

/-- The ring, as the list of all positions claimed so far. -/
structure ReadyQueue where
  capacity : ℕ
  cells : List Cell
  dequeuePos : ℕ
  deriving DecidableEq

namespace ReadyQueue

/-- The queue constructed for a number of tasks. -/
def create (tasks : ℕ) : ReadyQueue := ⟨bitCeil tasks, [], 0⟩

/-- `diff < 0` in `enqueue`: the ring slot of the next position still holds the sequence number of
the position one lap earlier. In a ring with one slot, publishing that position already stores
the number the next one waits for. -/
def full (q : ReadyQueue) : Bool :=
  q.capacity ≤ q.cells.length &&
    match q.cells[q.cells.length - q.capacity]? with
    | some c => !c.published || (!c.released && 1 < q.capacity)
    | none => false

/-- The claim of `enqueue`: the position and the queue, none when the queue is full. -/
def claim (q : ReadyQueue) (node : ℕ) : Option (ℕ × ReadyQueue) :=
  if q.full then none
  else some (q.cells.length, { q with cells := q.cells ++ [⟨node, false, false⟩] })

/-- `cell->sequence.store(pos + 1)`. -/
def publish (q : ReadyQueue) (pos : ℕ) : ReadyQueue :=
  { q with cells := q.cells.modify pos fun c => { c with published := true } }

/-- The claim of `dequeue`: the position, its task and the queue, none when the cell at the
dequeue position is not published. -/
def take (q : ReadyQueue) : Option (ℕ × ℕ × ReadyQueue) :=
  match q.cells[q.dequeuePos]? with
  | some c =>
    if c.published then some (q.dequeuePos, c.node, { q with dequeuePos := q.dequeuePos + 1 })
    else none
  | none => none

/-- `cell->sequence.store(pos + buffer_mask_ + 1)`. -/
def release (q : ReadyQueue) (pos : ℕ) : ReadyQueue :=
  { q with cells := q.cells.modify pos fun c => { c with released := true } }

/-- The tasks enqueued so far, in the order of their positions. -/
def enqueued (q : ReadyQueue) : List ℕ := q.cells.map Cell.node

/-- The tasks dequeued so far. -/
def dequeued (q : ReadyQueue) : List ℕ := q.enqueued.take q.dequeuePos

/-- The number of tasks claimed by an enqueue and not yet by a dequeue. -/
def waiting (q : ReadyQueue) : ℕ := q.cells.length - q.dequeuePos

@[simp]
theorem enqueued_create (n : ℕ) : (create n).enqueued = [] := rfl

@[simp]
theorem capacity_create (n : ℕ) : (create n).capacity = bitCeil n := rfl

@[simp]
theorem length_enqueued (q : ReadyQueue) : q.enqueued.length = q.cells.length := by
  simp [enqueued]

/-- Marking a cell leaves the tasks as they are. -/
theorem map_node_modify (cells : List Cell) (pos : ℕ) (f : Cell → Cell)
    (hf : ∀ c, (f c).node = c.node) : (cells.modify pos f).map Cell.node = cells.map Cell.node := by
  apply List.ext_getElem?
  intro i
  simp only [List.getElem?_map, List.getElem?_modify]
  cases cells[i]? with
  | none => rfl
  | some c => by_cases h : pos = i <;> simp [h, hf]

@[simp]
theorem enqueued_publish (q : ReadyQueue) (pos : ℕ) : (q.publish pos).enqueued = q.enqueued :=
  map_node_modify _ _ _ fun _ => rfl

@[simp]
theorem enqueued_release (q : ReadyQueue) (pos : ℕ) : (q.release pos).enqueued = q.enqueued :=
  map_node_modify _ _ _ fun _ => rfl

@[simp]
theorem dequeuePos_publish (q : ReadyQueue) (pos : ℕ) :
    (q.publish pos).dequeuePos = q.dequeuePos := rfl

@[simp]
theorem dequeuePos_release (q : ReadyQueue) (pos : ℕ) :
    (q.release pos).dequeuePos = q.dequeuePos := rfl

@[simp]
theorem capacity_publish (q : ReadyQueue) (pos : ℕ) : (q.publish pos).capacity = q.capacity := rfl

@[simp]
theorem capacity_release (q : ReadyQueue) (pos : ℕ) : (q.release pos).capacity = q.capacity := rfl

@[simp]
theorem length_publish (q : ReadyQueue) (pos : ℕ) :
    (q.publish pos).cells.length = q.cells.length := by simp [publish]

@[simp]
theorem length_release (q : ReadyQueue) (pos : ℕ) :
    (q.release pos).cells.length = q.cells.length := by simp [release]

@[simp]
theorem waiting_publish (q : ReadyQueue) (pos : ℕ) : (q.publish pos).waiting = q.waiting := by
  simp [waiting]

@[simp]
theorem waiting_release (q : ReadyQueue) (pos : ℕ) : (q.release pos).waiting = q.waiting := by
  simp [waiting]

/-- A ring that still has unused slots is not full. -/
theorem full_eq_false_of_lt {q : ReadyQueue} (h : q.cells.length < q.capacity) :
    q.full = false := by
  simp [full, Nat.not_le.mpr h]

theorem claim_eq_some {q q' : ReadyQueue} {node pos : ℕ} (h : q.claim node = some (pos, q')) :
    pos = q.cells.length ∧ q' = { q with cells := q.cells ++ [⟨node, false, false⟩] } := by
  unfold claim at h
  split_ifs at h
  simp only [Option.some.injEq, Prod.mk.injEq] at h
  exact ⟨h.1.symm, h.2.symm⟩

theorem claim_eq_none_iff {q : ReadyQueue} {node : ℕ} : q.claim node = none ↔ q.full = true := by
  simp [claim]

theorem take_eq_some {q q' : ReadyQueue} {node pos : ℕ} (h : q.take = some (pos, node, q')) :
    pos = q.dequeuePos ∧ q' = { q with dequeuePos := q.dequeuePos + 1 } ∧
      ∃ c, q.cells[q.dequeuePos]? = some c ∧ c.published = true ∧ c.node = node := by
  unfold take at h
  split at h
  · next c hc =>
    split_ifs at h with hp
    simp only [Option.some.injEq, Prod.mk.injEq] at h
    exact ⟨h.1.symm, h.2.2.symm, c, hc, hp, h.2.1⟩
  · simp at h

/-- A claim of `enqueue` appends the task. -/
theorem enqueued_of_claim {q q' : ReadyQueue} {node pos : ℕ} (h : q.claim node = some (pos, q')) :
    q'.enqueued = q.enqueued ++ [node] := by
  obtain ⟨-, rfl⟩ := claim_eq_some h
  simp [enqueued]

/-- A claim of `dequeue` leaves the enqueued tasks as they are. -/
theorem enqueued_of_take {q q' : ReadyQueue} {node pos : ℕ} (h : q.take = some (pos, node, q')) :
    q'.enqueued = q.enqueued := by
  obtain ⟨-, rfl, -⟩ := take_eq_some h
  rfl

/-- A claim of `dequeue` takes the first task not dequeued yet. -/
theorem dequeued_of_take {q q' : ReadyQueue} {node pos : ℕ} (h : q.take = some (pos, node, q')) :
    q'.dequeued = q.dequeued ++ [node] := by
  obtain ⟨-, rfl, c, hc, -, rfl⟩ := take_eq_some h
  simp [dequeued, enqueued, List.take_add_one, hc]

/-- A claim of `enqueue` dequeues nothing. -/
theorem dequeued_of_claim {q q' : ReadyQueue} {node pos : ℕ} (h : q.claim node = some (pos, q'))
    (hpos : q.dequeuePos ≤ q.cells.length) : q'.dequeued = q.dequeued := by
  obtain ⟨-, rfl⟩ := claim_eq_some h
  simp [dequeued, enqueued, List.take_append_of_le_length, hpos]

@[simp]
theorem dequeued_publish (q : ReadyQueue) (pos : ℕ) : (q.publish pos).dequeued = q.dequeued := by
  simp [dequeued]

@[simp]
theorem dequeued_release (q : ReadyQueue) (pos : ℕ) : (q.release pos).dequeued = q.dequeued := by
  simp [dequeued]

/-- `dequeue` answers false when nothing waits, or when the next position is not published. -/
theorem take_eq_none {q : ReadyQueue} (h : q.take = none) :
    q.waiting = 0 ∨ ∃ c, q.cells[q.dequeuePos]? = some c ∧ c.published = false := by
  unfold take at h
  split at h
  · next c hc =>
    split_ifs at h with hp
    exact .inr ⟨c, hc, by simpa using hp⟩
  · next hc =>
    have := List.getElem?_eq_none_iff.mp hc
    exact .inl (by unfold waiting; omega)

end ReadyQueue

end Cob
