import Mathlib.Data.Nat.ModEq
import Mathlib.Algebra.Order.Ring.Int
import Cob.Executor.ReadyQueue
import Cob.Queue.Ledger

/-!
# The ring of the two queues

`LockFreeMPMCQueue` and `LockFreeMPSCQueue` have the same members and the same `enqueue`, a loop
of atomic loads, compare-exchanges and stores. Each constructor of `EnqueuePc` is a place in that
loop, and `enqueueStep` does the one access that comes next. Positions are natural numbers, which
never wrap.

* `Ring.Inv` — the ring shows the phases of a ledger in its sequence numbers;
* `EnqueuePc.Holds` — what a call of `enqueue` knows at each place;
* `Ring.Inv.enqueueStep` — one step of `enqueue` keeps both, and does what a bounded FIFO
  permits.

All of it needs a ring of two cells at least: with one cell the sequence number of a published
item is also that of the free cell for the next position.
-/

namespace Cob.Queue

variable {α : Type*}

/-- A cell of the buffer. -/
structure Cell (α : Type*) where
  sequence : ℕ
  data : α
  deriving DecidableEq

/-- The members of a queue. -/
structure Ring (α : Type*) where
  buffer : List (Cell α)
  bufferMask : ℕ
  enqueuePos : ℕ
  dequeuePos : ℕ
  length_buffer : buffer.length = bufferMask + 1
  deriving DecidableEq

namespace Ring

/-- The constructor. -/
def create [Inhabited α] (capacity : ℕ) : Ring α where
  buffer := (List.range (bitCeil capacity)).map fun i => ⟨i, default⟩
  bufferMask := bitCeil capacity - 1
  enqueuePos := 0
  dequeuePos := 0
  length_buffer := by
    have := one_le_bitCeil capacity
    simp
    omega

/-- `pos & buffer_mask_`. -/
def slot (q : Ring α) (pos : ℕ) : ℕ := pos &&& q.bufferMask

/-- The number of cells, `buffer_mask_ + 1`. -/
def capacity (q : Ring α) : ℕ := q.bufferMask + 1

theorem slot_lt (q : Ring α) (pos : ℕ) : q.slot pos < q.buffer.length := by
  have : q.slot pos ≤ q.bufferMask := Nat.and_le_right
  rw [q.length_buffer]
  omega

/-- `buffer_[pos & buffer_mask_]`. -/
def cell (q : Ring α) (pos : ℕ) : Cell α := q.buffer.get ⟨q.slot pos, q.slot_lt pos⟩

/-- `cell->sequence.store(seq)`. -/
def storeSequence (q : Ring α) (pos seq : ℕ) : Ring α :=
  { q with
    buffer := q.buffer.modify (q.slot pos) fun c => { c with sequence := seq }
    length_buffer := by rw [List.length_modify, q.length_buffer] }

/-- `cell->data = data`. -/
def storeData (q : Ring α) (pos : ℕ) (data : α) : Ring α :=
  { q with
    buffer := q.buffer.modify (q.slot pos) fun c => { c with data }
    length_buffer := by rw [List.length_modify, q.length_buffer] }

section Stores

variable (q : Ring α) (pos p : ℕ)

@[simp]
theorem capacity_storeSequence (seq : ℕ) : (q.storeSequence pos seq).capacity = q.capacity := rfl

@[simp]
theorem capacity_storeData (data : α) : (q.storeData pos data).capacity = q.capacity := rfl

@[simp]
theorem enqueuePos_storeSequence (seq : ℕ) :
    (q.storeSequence pos seq).enqueuePos = q.enqueuePos := rfl

@[simp]
theorem enqueuePos_storeData (data : α) : (q.storeData pos data).enqueuePos = q.enqueuePos := rfl

@[simp]
theorem dequeuePos_storeSequence (seq : ℕ) :
    (q.storeSequence pos seq).dequeuePos = q.dequeuePos := rfl

@[simp]
theorem dequeuePos_storeData (data : α) : (q.storeData pos data).dequeuePos = q.dequeuePos := rfl

/-- A store changes the cell of its own slot only. -/
theorem cell_storeSequence (seq : ℕ) : (q.storeSequence pos seq).cell p =
    if q.slot pos = q.slot p then { q.cell p with sequence := seq } else q.cell p := by
  simp only [cell, storeSequence, List.get_eq_getElem, List.getElem_modify]
  rfl

theorem cell_storeData (data : α) : (q.storeData pos data).cell p =
    if q.slot pos = q.slot p then { q.cell p with data } else q.cell p := by
  simp only [cell, storeData, List.get_eq_getElem, List.getElem_modify]
  rfl

end Stores

/-- In a ring whose size is a power of two, positions share a slot when they agree modulo the
size. -/
theorem slot_eq_iff {q : Ring α} (hpow : ∃ k, q.capacity = 2 ^ k) {a b : ℕ} :
    q.slot a = q.slot b ↔ a ≡ b [MOD q.capacity] := by
  obtain ⟨k, hk⟩ := hpow
  have hmask : q.bufferMask = 2 ^ k - 1 := by
    rw [← hk, capacity, Nat.add_sub_cancel]
  rw [slot, slot, hmask, Nat.and_two_pow_sub_one_eq_mod, Nat.and_two_pow_sub_one_eq_mod, hk]
  rfl

/-- Two positions less than a lap apart have different slots. -/
theorem eq_of_slot_eq {q : Ring α} (hpow : ∃ k, q.capacity = 2 ^ k) {a b : ℕ}
    (hslot : q.slot a = q.slot b) (hab : a < b + q.capacity) (hba : b < a + q.capacity) :
    a = b := by
  have hmod := (slot_eq_iff hpow).mp hslot
  rcases Nat.le_total a b with hle | hle
  · have hdvd := (Nat.modEq_iff_dvd' hle).mp hmod
    have := Nat.eq_zero_of_dvd_of_lt hdvd (by omega)
    omega
  · have hdvd := (Nat.modEq_iff_dvd' hle).mp hmod.symm
    have := Nat.eq_zero_of_dvd_of_lt hdvd (by omega)
    omega

/-- A position and the one a lap later share a slot. -/
theorem slot_add_capacity {q : Ring α} (hpow : ∃ k, q.capacity = 2 ^ k) (p : ℕ) :
    q.slot (p + q.capacity) = q.slot p := by
  rw [slot_eq_iff hpow]
  exact Nat.add_modEq_right

end Ring

/-- The sequence number that shows a phase of a position in a ring of the given size. -/
def Phase.sequence (ph : Phase) (pos capacity : ℕ) : ℕ :=
  if ph.rank < 2 then pos else if ph.rank < 5 then pos + 1 else pos + capacity

theorem Phase.le_sequence (ph : Phase) (pos capacity : ℕ) : pos ≤ ph.sequence pos capacity := by
  unfold Phase.sequence
  split_ifs <;> omega

/-- In a ring of two cells at least, only a released position shows the next lap. -/
theorem Phase.sequence_lt {ph : Phase} (hph : ph ≠ .released) (pos : ℕ) {capacity : ℕ}
    (htwo : 2 ≤ capacity) : ph.sequence pos capacity < pos + capacity := by
  have hrank : ph.rank ≠ 5 := fun h5 => hph (Phase.rank_injective h5)
  have := ph.rank_le
  unfold Phase.sequence
  split_ifs <;> omega

/-- The ring shows the phases of a ledger of which `taken` positions have been taken. -/
structure Ring.Inv (q : Ring α) (taken : ℕ) (l : List (Entry α)) : Prop where
  two_le : 2 ≤ q.capacity
  pow : ∃ k, q.capacity = 2 ^ k
  enqueuePos : q.enqueuePos = l.length
  taken_eq : taken = takenCount l
  /-- A position is taken when it lies before the dequeue position. -/
  taken_iff : ∀ p y, l[p]? = some y → (3 ≤ y.phase.rank ↔ p < taken)
  /-- What lies more than a lap back is released. -/
  old : ∀ p y, l[p]? = some y → p + q.capacity < l.length → y.phase = .released
  /-- The cells of the last lap show the phase of their position. -/
  current : ∀ p y, l[p]? = some y → l.length ≤ p + q.capacity →
    (q.cell p).sequence = y.phase.sequence p q.capacity
  /-- Cells that no enqueue has claimed yet wait for their first position. -/
  unused : ∀ p, l.length ≤ p → p < q.capacity → (q.cell p).sequence = p
  /-- A written item stays in its cell until it is read. -/
  data : ∀ p y, l[p]? = some y → 1 ≤ y.phase.rank → y.phase.rank ≤ 3 → (q.cell p).data = y.item

namespace Ring.Inv

variable {q : Ring α} {taken : ℕ} {l : List (Entry α)}

theorem taken_le (hI : q.Inv taken l) : taken ≤ l.length := hI.taken_eq ▸ takenCount_le

/-- At most one lap separates the two ends. -/
theorem length_le (hI : q.Inv taken l) : l.length ≤ taken + q.capacity := by
  by_contra hlt
  obtain ⟨y, hy⟩ : ∃ y, l[taken]? = some y :=
    ⟨_, List.getElem?_eq_getElem (show taken < l.length by omega)⟩
  have hreleased := hI.old taken y hy (by omega)
  have := (hI.taken_iff taken y hy).mp (by rw [hreleased]; decide)
  omega

/-- Positions with the same slot have the same cell. -/
theorem cell_eq_of_modEq (hI : q.Inv taken l) {a b : ℕ} (hmod : a ≡ b [MOD q.capacity]) :
    q.cell a = q.cell b := by
  simp only [cell, (slot_eq_iff hI.pow).mpr hmod]

/-- The sequence number in the cell of a claimed position has not fallen behind it. -/
theorem le_sequence (hI : q.Inv taken l) {pos : ℕ} (hlt : pos < l.length) :
    pos ≤ (q.cell pos).sequence := by
  -- the cell shows the position of the last lap that shares the slot
  obtain ⟨p, hle, hp, hlap, hmod⟩ : ∃ p, pos ≤ p ∧ p < l.length ∧ l.length ≤ p + q.capacity ∧
      p ≡ pos [MOD q.capacity] := by
    have htwo := hI.two_le
    have hdiv := Nat.div_add_mod (l.length - 1 - pos) q.capacity
    have hmod := Nat.mod_lt (l.length - 1 - pos) (show 0 < q.capacity by omega)
    refine ⟨pos + q.capacity * ((l.length - 1 - pos) / q.capacity), ?_, ?_, ?_, ?_⟩
    · omega
    · omega
    · omega
    · exact Nat.add_mul_mod_self_left _ _ _
  obtain ⟨y, hy⟩ : ∃ y, l[p]? = some y := ⟨_, List.getElem?_eq_getElem hp⟩
  rw [← hI.cell_eq_of_modEq hmod, hI.current p y hy hlap]
  exact hle.trans (y.phase.le_sequence _ _)

/-- The cell of the next position shows whether the position a lap earlier is released. -/
theorem sequence_next (hI : q.Inv taken l) :
    (l.length < q.capacity ∧ (q.cell l.length).sequence = l.length) ∨
    ∃ y, q.capacity ≤ l.length ∧ l[l.length - q.capacity]? = some y ∧
      (q.cell l.length).sequence = y.phase.sequence (l.length - q.capacity) q.capacity := by
  rcases Nat.lt_or_ge l.length q.capacity with hlt | hge
  · exact .inl ⟨hlt, hI.unused _ le_rfl hlt⟩
  · have hpos := hI.two_le
    obtain ⟨y, hy⟩ : ∃ y, l[l.length - q.capacity]? = some y :=
      ⟨_, List.getElem?_eq_getElem (by omega)⟩
    refine .inr ⟨y, hge, hy, ?_⟩
    rw [← hI.current _ y hy (by omega)]
    have hslot := slot_add_capacity hI.pow (l.length - q.capacity)
    rw [Nat.sub_add_cancel hge] at hslot
    simp only [cell, hslot]

/-- A position that is not released yet lies in the last lap. -/
theorem length_le_add (hI : q.Inv taken l) {p : ℕ} {y : Entry α} (hp : l[p]? = some y)
    (hphase : y.phase.rank < 5) : l.length ≤ p + q.capacity := by
  by_contra hlt
  have hreleased := hI.old p y hp (by omega)
  rw [hreleased] at hphase
  simp [Phase.rank] at hphase

/-- The claim of an enqueue keeps the invariant when the position a lap earlier is released. -/
theorem claim (hI : q.Inv taken l) (x : α)
    (hfree : l.length < q.capacity ∨
      ∃ y, l[l.length - q.capacity]? = some ⟨y, .released⟩) :
    ({ q with enqueuePos := q.enqueuePos + 1 } : Ring α).Inv taken (l ++ [⟨x, .claimed⟩]) := by
  -- an entry of the longer ledger is an old one or the new one at the end
  have hcases : ∀ p y, (l ++ [⟨x, .claimed⟩])[p]? = some y →
      l[p]? = some y ∨ p = l.length ∧ y = ⟨x, .claimed⟩ := by
    intro p y hp
    rw [List.getElem?_append] at hp
    split_ifs at hp with hlt
    · exact .inl hp
    · rw [List.getElem?_singleton] at hp
      split_ifs at hp with h0
      exact .inr ⟨by omega, (Option.some.inj hp).symm⟩
  -- the cell of the claim is free: never used, or released a lap ago
  have hlast : (q.cell l.length).sequence = l.length := by
    rcases hI.sequence_next with ⟨-, hseq⟩ | ⟨y, hge, hy, hseq⟩
    · exact hseq
    · rcases hfree with hlt | ⟨z, hz⟩
      · omega
      · obtain rfl := Option.some.inj (hy.symm.trans hz)
        rw [hseq]
        show l.length - q.capacity + q.capacity = l.length
        omega
  refine
    { two_le := hI.two_le
      pow := hI.pow
      enqueuePos := by simp [hI.enqueuePos]
      taken_eq := by rw [takenCount_append_claimed, hI.taken_eq]
      taken_iff := ?_
      old := ?_
      current := ?_
      unused := ?_
      data := ?_ }
  · intro p y hp
    rcases hcases p y hp with hp | ⟨rfl, rfl⟩
    · exact hI.taken_iff p y hp
    · have := hI.taken_le
      simp [Phase.rank]
      omega
  · -- the position that leaves the last lap is the one the claim waited for
    intro p y hp hback
    have hback : p + q.capacity < l.length + 1 := by simpa [Ring.capacity] using hback
    rcases hcases p y hp with hp | ⟨rfl, rfl⟩
    · rcases Nat.lt_or_ge (p + q.capacity) l.length with hlt | hge
      · exact hI.old p y hp hlt
      · obtain rfl : p = l.length - q.capacity := by omega
        rcases hfree with hlt | ⟨z, hz⟩
        · omega
        · obtain rfl := Option.some.inj (hp.symm.trans hz)
          rfl
    · have := hI.two_le
      omega
  · -- the other cells keep their sequences, and the claimed one is at `l.length`
    intro p y hp hlap
    have hlap : l.length + 1 ≤ p + q.capacity := by simpa [Ring.capacity] using hlap
    rcases hcases p y hp with hp | ⟨rfl, rfl⟩
    · exact hI.current p y hp (by omega)
    · exact hlast
  · intro p hle hlt
    exact hI.unused p (by simp at hle; omega) hlt
  · intro p y hp hlow hhigh
    rcases hcases p y hp with hp | ⟨rfl, rfl⟩
    · exact hI.data p y hp hlow hhigh
    · simp [Phase.rank] at hlow

/-- A position that moves to its next phase keeps the invariant when its cell shows the new phase
and the other cells are left alone. -/
theorem reach (hI : q.Inv taken l) {q' : Ring α} {taken' p : ℕ} {x : α} {old ph : Phase}
    (hp : l[p]? = some ⟨x, old⟩) (hrank : ph.rank = old.rank + 1)
    (hmask : q'.bufferMask = q.bufferMask) (hpos : q'.enqueuePos = q.enqueuePos)
    (hother : ∀ p', q.slot p' ≠ q.slot p → q'.cell p' = q.cell p')
    (hseq : (q'.cell p).sequence = ph.sequence p q.capacity)
    (hdata : ph.rank ≤ 3 → (q'.cell p).data = x)
    (htaken : (ph ≠ .taken ∧ taken' = taken) ∨ (ph = .taken ∧ p = taken ∧ taken' = taken + 1)) :
    q'.Inv taken' (l.modify p (·.reach ph)) := by
  have hcap : q'.capacity = q.capacity := by rw [capacity, capacity, hmask]
  have hlap : l.length ≤ p + q.capacity := by
    have := ph.rank_le
    apply hI.length_le_add hp
    show old.rank < 5
    omega
  have hthree : Phase.taken.rank = 3 := rfl
  have hcount := takenCount_modify ph hp
  have hcases : ∀ p' y, (l.modify p (·.reach ph))[p']? = some y →
      p' = p ∧ y = ⟨x, ph⟩ ∨ p' ≠ p ∧ l[p']? = some y := by
    intro p' y hy
    rw [getElem?_modify_reach] at hy
    split_ifs at hy with heq
    · subst heq
      exact .inl ⟨rfl, by simpa [hp, Entry.reach] using hy.symm⟩
    · exact .inr ⟨Ne.symm heq, hy⟩
  have hlt : p < l.length := (List.getElem?_eq_some_iff.mp hp).1
  -- two positions of the last lap have different slots
  have hapart : ∀ p', p' ≠ p → l.length ≤ p' + q.capacity → p' < p + q.capacity →
      q.slot p' ≠ q.slot p := by
    intro p' hne hlap' hlt' hslot
    rcases Nat.lt_or_ge p' l.length with hlow | hhigh
    · exact hne (eq_of_slot_eq hI.pow hslot (by omega) (by omega))
    · exact hne (eq_of_slot_eq hI.pow hslot (by omega) (by omega))
  refine
    { two_le := hcap ▸ hI.two_le
      pow := hcap ▸ hI.pow
      enqueuePos := by rw [hpos, List.length_modify, hI.enqueuePos]
      taken_eq := ?_
      taken_iff := ?_
      old := ?_
      current := ?_
      unused := ?_
      data := ?_ }
  · have htakenEq := hI.taken_eq
    rcases htaken with ⟨hne, rfl⟩ | ⟨rfl, -, rfl⟩
    · have hrank3 := mt Phase.rank_injective hne
      rw [hthree] at hrank3
      simp only [show 3 ≤ old.rank ↔ 3 ≤ ph.rank by omega] at hcount
      omega
    · rw [hthree] at hrank hcount
      rw [if_neg (show ¬ 3 ≤ old.rank by omega), if_pos le_rfl] at hcount
      omega
  · intro p' y hy
    rcases hcases p' y hy with ⟨rfl, rfl⟩ | ⟨hne, hy⟩
    · have hbefore := hI.taken_iff _ _ hp
      rcases htaken with ⟨hne, rfl⟩ | ⟨rfl, rfl, rfl⟩
      · have hrank3 := mt Phase.rank_injective hne
        rw [hthree] at hrank3
        rw [← hbefore]
        show 3 ≤ ph.rank ↔ 3 ≤ old.rank
        omega
      · simp [Phase.rank]
    · have hbefore := hI.taken_iff _ _ hy
      rcases htaken with ⟨-, rfl⟩ | ⟨-, rfl, rfl⟩
      · exact hbefore
      · rw [hbefore]
        omega
  · intro p' y hy hback
    rw [List.length_modify, hcap] at hback
    rcases hcases p' y hy with ⟨rfl, rfl⟩ | ⟨-, hy⟩
    · omega
    · exact hI.old p' y hy hback
  · intro p' y hy hlap'
    rw [List.length_modify, hcap] at hlap'
    rcases hcases p' y hy with ⟨rfl, rfl⟩ | ⟨hne, hy⟩
    · rw [hseq, hcap]
    · have hlt' : p' < l.length := (List.getElem?_eq_some_iff.mp hy).1
      rw [hother p' (hapart p' hne hlap' (by omega)), hcap]
      exact hI.current p' y hy hlap'
  · intro p' hle hlt'
    rw [List.length_modify] at hle
    rw [hcap] at hlt'
    rw [hother p' (hapart p' (by omega) (by omega) (by omega))]
    exact hI.unused p' hle hlt'
  · intro p' y hy hlow hhigh
    rcases hcases p' y hy with ⟨rfl, rfl⟩ | ⟨hne, hy⟩
    · exact hdata hhigh
    · have hlt' : p' < l.length := (List.getElem?_eq_some_iff.mp hy).1
      have hlap' : l.length ≤ p' + q.capacity := hI.length_le_add hy (by omega)
      rw [hother p' (hapart p' hne hlap' (by omega))]
      exact hI.data p' y hy hlow hhigh

/-- The next position shows that it is published exactly when it is. -/
theorem sequence_taken_iff (hI : q.Inv taken l) :
    (q.cell taken).sequence = taken + 1 ↔
      ∃ x, l[taken]? = some ⟨x, .published⟩ := by
  have htwo := hI.two_le
  constructor
  · intro hseq
    rcases Nat.lt_or_ge taken l.length with hlt | hge
    · obtain ⟨⟨x, ph⟩, hy⟩ : ∃ y, l[taken]? = some y := ⟨_, List.getElem?_eq_getElem hlt⟩
      have hrank := mt (hI.taken_iff _ _ hy).mp (by omega)
      have hcell := hI.current _ _ hy hI.length_le
      rw [hseq] at hcell
      cases ph with
      | published => exact ⟨x, hy⟩
      | claimed => simp [Phase.sequence, Phase.rank] at hcell
      | written => simp [Phase.sequence, Phase.rank] at hcell
      | taken | read | released => simp [Phase.rank] at hrank
    · -- nothing is claimed there: the cell still shows the lap before
      have hlength : taken = l.length := le_antisymm hI.taken_le hge
      rw [hlength] at hseq
      rcases hI.sequence_next with ⟨-, hnext⟩ | ⟨y, hlap, -, hnext⟩
      · omega
      · have hle : y.phase.sequence (l.length - q.capacity) q.capacity ≤ l.length := by
          unfold Phase.sequence
          split_ifs <;> omega
        omega
  · rintro ⟨x, hx⟩
    rw [hI.current _ _ hx hI.length_le]
    rfl

end Ring.Inv

theorem Ring.capacity_create [Inhabited α] (n : ℕ) :
    (Ring.create n : Ring α).capacity = bitCeil n := by
  have := one_le_bitCeil n
  show bitCeil n - 1 + 1 = bitCeil n
  omega

/-- A new ring shows the empty ledger. -/
theorem Ring.inv_create [Inhabited α] {n : ℕ} (htwo : 2 ≤ bitCeil n) :
    (Ring.create n : Ring α).Inv 0 [] where
  two_le := by rwa [capacity_create]
  pow := by
    rw [capacity_create]
    exact exists_bitCeil_eq n
  enqueuePos := rfl
  taken_eq := rfl
  taken_iff := by simp
  old := by simp
  current := by simp
  unused := by
    intro p _ hlt
    have hpow : ∃ k, (Ring.create n : Ring α).capacity = 2 ^ k := by
      rw [capacity_create]
      exact exists_bitCeil_eq n
    obtain ⟨k, hk⟩ := hpow
    have hmask : (Ring.create n : Ring α).bufferMask = 2 ^ k - 1 := by
      rw [← hk, capacity, Nat.add_sub_cancel]
    have hslot : (Ring.create n : Ring α).slot p = p := by
      rw [slot, hmask, Nat.and_two_pow_sub_one_eq_mod, ← hk, Nat.mod_eq_of_lt hlt]
    simp only [cell, List.get_eq_getElem, hslot]
    simp [create]
  data := by simp

/-- No two participants hold the same position. -/
def Apart {σ : Type*} (held : σ → Option ℕ) (l : List σ) : Prop :=
  ∀ (t t' : ℕ) (a b : σ) (p : ℕ), l[t]? = some a → l[t']? = some b →
    held a = some p → held b = some p → t = t'

/-- A participant may go on holding its position, or hold one that is new to all. -/
theorem Apart.set {σ : Type*} {held : σ → Option ℕ} {l : List σ} (h : Apart held l) {t : ℕ}
    {a b : σ} (ht : l[t]? = some a)
    (hb : ∀ p, held b = some p → held a = some p ∨ ∀ c ∈ l, held c ≠ some p) :
    Apart held (l.set t b) := by
  intro u u' c c' p hu hu' hp hp'
  rw [List.getElem?_set] at hu hu'
  split_ifs at hu hu' with h₁ h₂ h₃ h₄ h₅
  · exact h₁.symm.trans h₃
  · obtain rfl := Option.some.inj hu
    rcases hb p hp with hsame | hnew
    · exact h₁.symm.trans (h t u' a c' p ht hu' hsame hp')
    · exact absurd hp' (hnew c' (List.mem_of_getElem? hu'))
  · obtain rfl := Option.some.inj hu'
    rcases hb p hp' with hsame | hnew
    · exact (h u t c a p hu ht hp hsame).trans h₄
    · exact absurd hp (hnew c (List.mem_of_getElem? hu))
  · exact h u u' c c' p hu hu' hp hp'

/-- The places in the loop of `enqueue`, each before the access it names. -/
inductive EnqueuePc where
  /-- Before `enqueue_pos_` is loaded. -/
  | load
  /-- Before the sequence number is loaded. -/
  | check (pos : ℕ)
  /-- Before the compare-exchange. -/
  | exchange (pos : ℕ)
  /-- Before the item is copied into the cell. -/
  | write (pos : ℕ)
  /-- Before the sequence number is stored. -/
  | publish (pos : ℕ)
  deriving DecidableEq

/-- The next access of `enqueue`: the ring, the place after it or the value returned, and the
event. A weak compare-exchange may fail although the position is the expected one. -/
def Ring.enqueueStep (q : Ring α) (data : α) (spurious : Bool) :
    EnqueuePc → Ring α × (EnqueuePc ⊕ Bool) × Option (Event α)
  | .load => (q, .inl (.check q.enqueuePos), none)
  | .check pos =>
    -- free, still occupied from the lap before, or claimed by another producer
    let diff : ℤ := (q.cell pos).sequence - pos
    if diff = 0 then (q, .inl (.exchange pos), none)
    else if diff < 0 then (q, .inr false, some (.full pos))
    else (q, .inl .load, none)
  | .exchange pos =>
    if q.enqueuePos = pos ∧ spurious = false then
      ({ q with enqueuePos := q.enqueuePos + 1 }, .inl (.write pos), some (.claimed pos data))
    else (q, .inl (.check q.enqueuePos), none)
  | .write pos => (q.storeData pos data, .inl (.publish pos), some (.written pos))
  | .publish pos => (q.storeSequence pos (pos + 1), .inr true, some (.published pos))

namespace EnqueuePc

/-- The position a call of `enqueue` has claimed and not published yet. -/
def held : EnqueuePc → Option ℕ
  | .write pos | .publish pos => some pos
  | .load | .check _ | .exchange _ => none

/-- What a call of `enqueue` knows at each place. -/
def Holds (capacity : ℕ) (l : List (Entry α)) (data : α) : EnqueuePc → Prop
  | .load => True
  | .check pos => pos ≤ l.length
  | .exchange pos => pos ≤ l.length ∧
      (pos = l.length → pos < capacity ∨ ∃ x, l[pos - capacity]? = some ⟨x, .released⟩)
  | .write pos => l[pos]? = some ⟨data, .claimed⟩
  | .publish pos => l[pos]? = some ⟨data, .written⟩

variable {capacity : ℕ} {l : List (Entry α)} {data : α} {pc : EnqueuePc}

/-- What an event of another call leaves to this one. -/
theorem Holds.record (h : pc.Holds capacity l data) {e : Event α} (he : Allowed capacity l e)
    (hother : ∀ p ph, pc.held = some p → e.target ≠ some (p, ph)) :
    pc.Holds capacity (record l e) data := by
  have hgrows : l.length ≤ (Queue.record l e).length ∧
      ((Queue.record l e).length = l.length ∨ ∃ x, e = .claimed l.length x) := by
    rcases he.record_cases with ⟨-, heq⟩ | ⟨x, rfl, heq⟩ | ⟨_, _, _, _, -, -, -, heq⟩
    · simp [heq]
    · simp [heq]
    · simp [heq]
  cases pc with
  | load => trivial
  | check pos => exact le_trans h hgrows.1
  | exchange pos =>
    obtain ⟨hle, hfree⟩ := h
    refine ⟨hle.trans hgrows.1, fun heq => ?_⟩
    rcases hgrows.2 with hsame | ⟨x, rfl⟩
    · -- a position once released stays so
      rcases hfree (heq.trans hsame) with hlt | ⟨x, hx⟩
      · exact .inl hlt
      · obtain ⟨⟨z, ph⟩, hz, -, hrank⟩ := he.exists_getElem?_record hx
        obtain rfl : ph = .released :=
          Phase.rank_injective (le_antisymm ph.rank_le hrank)
        exact .inr ⟨z, hz⟩
    · simp [Queue.record] at heq
      omega
  | write pos => exact he.getElem?_record h fun ph => hother pos ph rfl
  | publish pos => exact he.getElem?_record h fun ph => hother pos ph rfl

end EnqueuePc

/-- An access of `enqueue` leaves the size and the dequeue position alone. -/
theorem Ring.enqueueStep_frame {q q' : Ring α} {data : α} {spurious : Bool} {pc : EnqueuePc}
    {r : EnqueuePc ⊕ Bool} {e : Option (Event α)}
    (hstep : q.enqueueStep data spurious pc = (q', r, e)) :
    q'.capacity = q.capacity ∧ q'.dequeuePos = q.dequeuePos := by
  cases pc with
  | load =>
    obtain ⟨rfl, -, -⟩ := by simpa [enqueueStep] using hstep
    exact ⟨rfl, rfl⟩
  | check pos =>
    simp only [enqueueStep] at hstep
    split_ifs at hstep <;> (obtain ⟨rfl, -, -⟩ := by simpa using hstep) <;> exact ⟨rfl, rfl⟩
  | exchange pos =>
    simp only [enqueueStep] at hstep
    split_ifs at hstep <;> (obtain ⟨rfl, -, -⟩ := by simpa using hstep) <;> exact ⟨rfl, rfl⟩
  | write pos =>
    obtain ⟨rfl, -, -⟩ := by simpa [enqueueStep] using hstep
    exact ⟨rfl, rfl⟩
  | publish pos =>
    obtain ⟨rfl, -, -⟩ := by simpa [enqueueStep] using hstep
    exact ⟨rfl, rfl⟩

section EnqueueStep

variable {q q' : Ring α} {taken : ℕ} {l : List (Entry α)} {data : α} {spurious : Bool}
  {pc : EnqueuePc} {r : EnqueuePc ⊕ Bool} {e : Option (Event α)}

/-- What `enqueue` concludes from the sequence number at the next position. -/
theorem Ring.Inv.sequence_length_iff (hI : q.Inv taken l) :
    (q.cell l.length).sequence = l.length ↔
      l.length < q.capacity ∨ ∃ x, l[l.length - q.capacity]? = some ⟨x, .released⟩ := by
  rcases hI.sequence_next with ⟨hlt, hseq⟩ | ⟨⟨x, ph⟩, hge, hy, hseq⟩
  · exact ⟨fun _ => .inl hlt, fun _ => hseq⟩
  · rw [hseq]
    constructor
    · intro heq
      by_cases hph : ph = .released
      · exact .inr ⟨x, hph ▸ hy⟩
      · have := Phase.sequence_lt hph (l.length - q.capacity) hI.two_le
        exfalso
        simp only at heq
        omega
    · rintro (hlt | ⟨z, hz⟩)
      · omega
      · obtain ⟨-, rfl⟩ := Entry.mk.inj (Option.some.inj (hy.symm.trans hz))
        show l.length - q.capacity + q.capacity = l.length
        omega

/-- When the sequence number lags behind, the position a lap earlier is not released. -/
theorem Ring.Inv.not_released_of_lt (hI : q.Inv taken l) {pos : ℕ} (hle : pos ≤ l.length)
    (hlt : (q.cell pos).sequence < pos) : q.capacity ≤ pos ∧ pos = l.length ∧
      ∀ x, l[pos - q.capacity]? ≠ some ⟨x, .released⟩ := by
  obtain rfl : pos = l.length := by
    rcases Nat.lt_or_ge pos l.length with hstale | hge
    · have := hI.le_sequence hstale
      omega
    · omega
  have hnot := mt hI.sequence_length_iff.mpr hlt.ne
  rw [not_or, not_exists] at hnot
  exact ⟨by omega, rfl, hnot.2⟩

/-- One access of `enqueue` is a step that a bounded FIFO permits, and the ring shows it. -/
theorem Ring.Inv.enqueueStep (hI : q.Inv taken l) (hpc : pc.Holds q.capacity l data)
    (hstep : q.enqueueStep data spurious pc = (q', r, e)) :
    q'.Inv taken (recorded l e) ∧ (∀ ev, e = some ev → Allowed q.capacity l ev) ∧
      ∀ pc', r = .inl pc' → pc'.Holds q.capacity (recorded l e) data := by
  cases pc with
  | load =>
    obtain ⟨rfl, rfl, rfl⟩ := by simpa [Ring.enqueueStep] using hstep
    refine ⟨hI, fun _ hev => (by cases hev), ?_⟩
    rintro pc' ⟨⟩
    exact hI.enqueuePos.le
  | check pos =>
    have hle : pos ≤ l.length := hpc
    simp only [Ring.enqueueStep] at hstep
    split_ifs at hstep with hzero hneg
    · -- the sequence says free, so a claim at this position may fill the cell
      obtain ⟨rfl, rfl, rfl⟩ := by simpa using hstep
      refine ⟨hI, fun _ hev => (by cases hev), ?_⟩
      rintro pc' ⟨⟩
      refine ⟨hle, fun hlast => ?_⟩
      have hlast : pos = l.length := hlast
      subst hlast
      exact hI.sequence_length_iff.mp (by omega)
    · -- full: the position a lap earlier is not released
      obtain ⟨rfl, rfl, rfl⟩ := by simpa using hstep
      refine ⟨hI, ?_, fun _ hpc' => by cases hpc'⟩
      rintro ev ⟨⟩
      exact hI.not_released_of_lt hle (by omega)
    · -- another thread was here first: load again
      obtain ⟨rfl, rfl, rfl⟩ := by simpa using hstep
      refine ⟨hI, fun _ hev => (by cases hev), ?_⟩
      rintro pc' ⟨⟩
      trivial
  | exchange pos =>
    obtain ⟨-, hfree⟩ := hpc
    simp only [Ring.enqueueStep] at hstep
    split_ifs at hstep with hexchange
    · -- the claim: a new entry at the end of the ledger
      obtain ⟨rfl, rfl, rfl⟩ := by simpa using hstep
      obtain rfl : pos = l.length := by rw [← hexchange.1, hI.enqueuePos]
      refine ⟨hI.claim data (hfree rfl), ?_, ?_⟩
      · rintro ev ⟨⟩
        exact ⟨rfl, hfree rfl⟩
      · rintro pc' ⟨⟩
        simp [EnqueuePc.Holds, record]
    · -- the compare-exchange failed and has read the new position
      obtain ⟨rfl, rfl, rfl⟩ := by simpa using hstep
      refine ⟨hI, fun _ hev => (by cases hev), ?_⟩
      rintro pc' ⟨⟩
      exact hI.enqueuePos.le
  | write pos =>
    have hclaimed : l[pos]? = some ⟨data, .claimed⟩ := hpc
    obtain ⟨rfl, rfl, rfl⟩ := by simpa [Ring.enqueueStep] using hstep
    -- the cell is this entry's until it is released, so nobody reads what is written to it
    refine ⟨?_, ?_, ?_⟩
    · refine hI.reach hclaimed rfl rfl rfl ?_ ?_ ?_ (.inl ⟨by decide, rfl⟩)
      · intro p hne
        rw [Ring.cell_storeData, if_neg hne.symm]
      · rw [Ring.cell_storeData, if_pos rfl]
        have hlap := hI.length_le_add hclaimed (show Phase.claimed.rank < 5 by decide)
        exact hI.current _ _ hclaimed hlap
      · intro
        rw [Ring.cell_storeData, if_pos rfl]
    · rintro ev ⟨⟩
      exact ⟨data, hclaimed⟩
    · rintro pc' ⟨⟩
      simp [EnqueuePc.Holds, record, hclaimed, Entry.reach]
  | publish pos =>
    have hwritten : l[pos]? = some ⟨data, .written⟩ := hpc
    obtain ⟨rfl, rfl, rfl⟩ := by simpa [Ring.enqueueStep] using hstep
    refine ⟨?_, ?_, fun _ hpc' => by cases hpc'⟩
    · refine hI.reach hwritten rfl rfl rfl ?_ ?_ ?_ (.inl ⟨by decide, rfl⟩)
      · intro p hne
        rw [Ring.cell_storeSequence, if_neg hne.symm]
      · rw [Ring.cell_storeSequence, if_pos rfl]
        rfl
      · intro
        rw [Ring.cell_storeSequence, if_pos rfl]
        exact hI.data _ _ hwritten (show 1 ≤ Phase.written.rank by decide)
          (show Phase.written.rank ≤ 3 by decide)
    · rintro ev ⟨⟩
      exact ⟨data, hwritten⟩

/-- The position a call holds after an access is the one it held, or one it has just claimed. -/
theorem Ring.held_enqueueStep (hstep : q.enqueueStep data spurious pc = (q', r, e)) :
    (∀ p, (r.elim EnqueuePc.held fun _ => none) = some p →
      pc.held = some p ∨ e = some (.claimed p data)) ∧
    ∀ p ph, e.bind Event.target = some (p, ph) →
      pc.held = some p ∨ e = some (.claimed p data) := by
  cases pc with
  | load =>
    obtain ⟨rfl, rfl, rfl⟩ := by simpa [Ring.enqueueStep] using hstep
    simp [EnqueuePc.held]
  | check pos =>
    simp only [Ring.enqueueStep] at hstep
    split_ifs at hstep <;> (obtain ⟨rfl, rfl, rfl⟩ := by simpa using hstep) <;>
      simp [EnqueuePc.held, Event.target]
  | exchange pos =>
    simp only [Ring.enqueueStep] at hstep
    split_ifs at hstep <;> (obtain ⟨rfl, rfl, rfl⟩ := by simpa using hstep) <;>
      simp [EnqueuePc.held, Event.target]
  | write pos =>
    obtain ⟨rfl, rfl, rfl⟩ := by simpa [Ring.enqueueStep] using hstep
    simp [EnqueuePc.held, Event.target]
  | publish pos =>
    obtain ⟨rfl, rfl, rfl⟩ := by simpa [Ring.enqueueStep] using hstep
    simp [EnqueuePc.held, Event.target]

/-- A call holds the position that it claims, and gives it up when it publishes it. -/
theorem Ring.held_or_published
    (hstep : q.enqueueStep data spurious pc = (q', r, e)) :
    (∀ p, pc.held = some p →
      (r.elim EnqueuePc.held fun _ => none) = some p ∨ e = some (.published p)) ∧
    ∀ p x, e = some (.claimed p x) → (r.elim EnqueuePc.held fun _ => none) = some p := by
  cases pc with
  | load =>
    obtain ⟨rfl, rfl, rfl⟩ := by simpa [Ring.enqueueStep] using hstep
    simp [EnqueuePc.held]
  | check pos =>
    simp only [Ring.enqueueStep] at hstep
    split_ifs at hstep <;> (obtain ⟨rfl, rfl, rfl⟩ := by simpa using hstep) <;>
      simp [EnqueuePc.held]
  | exchange pos =>
    simp only [Ring.enqueueStep] at hstep
    split_ifs at hstep <;> (obtain ⟨rfl, rfl, rfl⟩ := by simpa using hstep) <;>
      simp [EnqueuePc.held]
  | write pos =>
    obtain ⟨rfl, rfl, rfl⟩ := by simpa [Ring.enqueueStep] using hstep
    simp [EnqueuePc.held]
  | publish pos =>
    obtain ⟨rfl, rfl, rfl⟩ := by simpa [Ring.enqueueStep] using hstep
    simp [EnqueuePc.held]

/-- Enqueues take positions as far as publishing them. -/
theorem Ring.rank_target_enqueueStep (hstep : q.enqueueStep data spurious pc = (q', r, e)) :
    ∀ p ph, e.bind Event.target = some (p, ph) → ph.rank ≤ 2 := by
  intro p ph htarget
  cases pc with
  | load =>
    obtain ⟨rfl, rfl, rfl⟩ := by simpa [Ring.enqueueStep] using hstep
    cases htarget
  | check pos =>
    simp only [Ring.enqueueStep] at hstep
    split_ifs at hstep <;> (obtain ⟨rfl, rfl, rfl⟩ := by simpa using hstep) <;> cases htarget
  | exchange pos =>
    simp only [Ring.enqueueStep] at hstep
    split_ifs at hstep <;> (obtain ⟨rfl, rfl, rfl⟩ := by simpa using hstep) <;> cases htarget
    decide
  | write pos =>
    obtain ⟨rfl, rfl, rfl⟩ := by simpa [Ring.enqueueStep] using hstep
    cases htarget
    decide
  | publish pos =>
    obtain ⟨rfl, rfl, rfl⟩ := by simpa [Ring.enqueueStep] using hstep
    cases htarget
    decide

end EnqueueStep

end Cob.Queue
