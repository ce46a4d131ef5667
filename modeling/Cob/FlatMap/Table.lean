import Cob.Executor.ReadyQueue
import Cob.Lib.Fueled
import Cob.Lib.RobinHood

/-!
# FlatHashMap

The Robin Hood hash map of the node index and the string pool. A pointer to a value is the index
of its slot. Keys, values and the hash function are arbitrary; `probe_distance` is a 32-bit number
and wraps. Allocations succeed.

* `insertHelper`, `rehash`, `insert`, `emplace`, `reserve`, `find` — the members;
* `Table` — what holds of the slots: a power of two of them, each key once, each distance one plus
  the way from the key's home, in the order that lets `find` stop early;
* `Table.set` — a slot may be overwritten by an entry with a larger distance.
-/

namespace Cob

/-- `FlatHashMap::Slot`; distance 0 means empty. -/
structure FlatHashMap.Slot (K V : Type) where
  key : K
  value : V
  probeDistance : UInt32
  deriving DecidableEq

/-- `FlatHashMap`. -/
structure FlatHashMap (K V : Type) where
  slots : List (FlatHashMap.Slot K V)
  size : ℕ
  deriving DecidableEq

namespace FlatHashMap

open Fueled

variable {K V : Type}

/-! ### The members -/

section Members

variable [DecidableEq K] [Inhabited K] [Inhabited V] (hash : K → UInt64)

/-- A slot that was never used. -/
def emptySlot : Slot K V := ⟨default, default, 0⟩

/-- The constructor. -/
def create (capacity : ℕ) : FlatHashMap K V :=
  ⟨List.replicate (bitCeil (if capacity = 0 then 1 else capacity)) emptySlot, 0⟩

/-- `slots[idx]`. -/
def slotAt (slots : List (Slot K V)) (idx : ℕ) : Fueled (Slot K V) :=
  match slots[idx]? with
  | some slot => .ok slot
  | none => .error .outOfBounds

/-- The variables of the loop of `insertHelper`. -/
structure Carry (K V : Type) where
  slots : List (Slot K V)
  idx : ℕ
  key : K
  value : V
  dist : UInt32
  inserted : Option ℕ

/-- A round of that loop, which is left with the slots, whether there is an entry more, and the
slot of the key that was inserted. -/
def insertRound (s : Carry K V) : Fueled (Carry K V ⊕ List (Slot K V) × Bool × ℕ) := do
  let slot ← slotAt s.slots s.idx
  let mask := s.slots.length - 1
  -- an empty slot takes the entry
  if slot.probeDistance = 0 then
    return .inr (s.slots.set s.idx ⟨s.key, s.value, s.dist⟩, true, s.inserted.getD s.idx)
  -- the key is there already, and its value is overwritten
  else if slot.key = s.key then
    return .inr (s.slots.set s.idx { slot with value := s.value }, false, s.inserted.getD s.idx)
  -- the resident is nearer to its home, so it gives way and is carried on
  else if slot.probeDistance < s.dist then
    return .inl {
      slots := s.slots.set s.idx ⟨s.key, s.value, s.dist⟩
      idx := (s.idx + 1) &&& mask
      key := slot.key
      value := slot.value
      dist := slot.probeDistance + 1
      inserted := some (s.inserted.getD s.idx) }
  else return .inl { s with idx := (s.idx + 1) &&& mask, dist := s.dist + 1 }

/-- `insertHelper`: the map, and the slot of the key. -/
def insertHelper (m : FlatHashMap K V) (key : K) (value : V) : Fueled (FlatHashMap K V × ℕ) := do
  let mask := m.slots.length - 1
  let (slots, added, ptr) ← loop insertRound (m.slots.length + 1)
    ⟨m.slots, (hash key).toNat &&& mask, key, value, 1, none⟩
  return (⟨slots, if added then m.size + 1 else m.size⟩, ptr)

/-- `rehash`. -/
def rehash (m : FlatHashMap K V) (newCapacity : ℕ) : Fueled (FlatHashMap K V) :=
  m.slots.foldlM (fun m slot =>
    if slot.probeDistance ≠ 0 then return (← insertHelper hash m slot.key slot.value).1
    else return m) ⟨List.replicate newCapacity emptySlot, 0⟩

/-- `size_m >= slots.size() * ROBIN_HOOD_LOAD_FACTOR`, with a factor of 0.75. -/
def overloaded (m : FlatHashMap K V) : Bool := 3 * m.slots.length ≤ 4 * m.size

/-- `insert`. -/
def insert (m : FlatHashMap K V) (key : K) (value : V) : Fueled (FlatHashMap K V × ℕ) := do
  let m ← if m.overloaded then rehash hash m (m.slots.length * 2) else pure m
  insertHelper hash m key value

/-- `emplace`, with the value made from its arguments. -/
def emplace (m : FlatHashMap K V) (key : K) (value : V) : Fueled (FlatHashMap K V × ℕ) := do
  let m ← if m.overloaded then rehash hash m (m.slots.length * 2) else pure m
  insertHelper hash m key value

/-- `reserve`; `quotient capacity` is what the floating-point division by the load factor gives. -/
def reserve (quotient : ℕ → ℕ) (m : FlatHashMap K V) (capacity : ℕ) : Fueled (FlatHashMap K V) :=
  let needed := bitCeil (quotient capacity + 1)
  if m.slots.length < needed then rehash hash m needed else return m

/-- A round of the loop of `find`; the state is `idx` and `dist`. -/
def findRound (slots : List (Slot K V)) (key : K) (s : ℕ × UInt32) :
    Fueled (ℕ × UInt32 ⊕ Option ℕ) := do
  let slot ← slotAt slots s.1
  let mask := slots.length - 1
  if slot.probeDistance = 0 then return .inr none
  else if slot.probeDistance < s.2 then return .inr none
  else if slot.key = key then return .inr (some s.1)
  else return .inl ((s.1 + 1) &&& mask, s.2 + 1)

/-- `find`: the slot of the key. -/
def find (m : FlatHashMap K V) (key : K) : Fueled (Option ℕ) :=
  if m.slots = [] then return none
  else
    let mask := m.slots.length - 1
    loop (findRound m.slots key) (m.slots.length + 2) ((hash key).toNat &&& mask, 1)

end Members

/-! ### Entries -/

/-- The entry in slot `i`. -/
def EntryAt (slots : List (Slot K V)) (i : ℕ) (slot : Slot K V) : Prop :=
  slots[i]? = some slot ∧ slot.probeDistance ≠ 0

/-- The slots have an entry for the key with the value. -/
def Contains (slots : List (Slot K V)) (key : K) (value : V) : Prop :=
  ∃ i slot, EntryAt slots i slot ∧ slot.key = key ∧ slot.value = value

/-- The distance in slot `i`. -/
def distAt (slots : List (Slot K V)) (i : ℕ) : ℕ :=
  match slots[i]? with
  | some slot => slot.probeDistance.toNat
  | none => 0

/-- The number of entries. -/
def entryCount (slots : List (Slot K V)) : ℕ :=
  (RobinHood.occupied slots.length (distAt slots)).card

/-- Where the probe for a key begins. -/
def home (hash : K → UInt64) (n : ℕ) (key : K) : ℕ := (hash key).toNat % n

/-- What holds of the slots. -/
structure Table (hash : K → UInt64) (slots : List (Slot K V)) : Prop where
  powTwo : ∃ k, slots.length = 2 ^ k
  /-- The distance of an entry is one plus the way from its home. -/
  distance : ∀ i slot, EntryAt slots i slot →
    slot.probeDistance.toNat = 1 + RobinHood.steps slots.length (home hash slots.length slot.key) i
  /-- Each key is in one slot. -/
  unique : ∀ i j slot slot', EntryAt slots i slot → EntryAt slots j slot' →
    slot.key = slot'.key → i = j
  /-- The order that lets `find` stop early. -/
  ordered : RobinHood.Ordered slots.length (distAt slots)

section Entries

variable {slots : List (Slot K V)} {slot t : Slot K V} {i j idx : ℕ} {key : K} {value : V}

theorem EntryAt.lt (h : EntryAt slots i slot) : i < slots.length :=
  (List.getElem?_eq_some_iff.mp h.1).1

theorem EntryAt.distAt_eq (h : EntryAt slots i slot) :
    distAt slots i = slot.probeDistance.toNat := by
  rw [distAt, h.1]

theorem toNat_pos {d : UInt32} (h : d ≠ 0) : 0 < d.toNat := by
  refine Nat.pos_of_ne_zero fun hzero => h ?_
  exact UInt32.toNat_inj.mp hzero

theorem EntryAt.distAt_pos (h : EntryAt slots i slot) : 0 < distAt slots i := by
  rw [h.distAt_eq]
  exact toNat_pos h.2

theorem distAt_eq_zero (h : slots[i]? = some slot) (hempty : slot.probeDistance = 0) :
    distAt slots i = 0 := by
  rw [distAt, h]
  exact congrArg UInt32.toNat hempty

/-- A slot with a distance has an entry. -/
theorem exists_entryAt (h : 0 < distAt slots i) : ∃ slot, EntryAt slots i slot := by
  cases hi : slots[i]? with
  | none => simp [distAt, hi] at h
  | some slot =>
    refine ⟨slot, hi, fun hzero => ?_⟩
    rw [distAt_eq_zero hi hzero] at h
    exact absurd h (Nat.lt_irrefl 0)

theorem distAt_set_self (h : idx < slots.length) :
    distAt (slots.set idx t) idx = t.probeDistance.toNat := by
  rw [distAt, List.getElem?_set_self h]

theorem distAt_set_of_ne (h : i ≠ idx) : distAt (slots.set idx t) i = distAt slots i := by
  rw [distAt, distAt, List.getElem?_set_ne (Ne.symm h)]

/-- The entries after a slot was overwritten. -/
theorem entryAt_set (h : idx < slots.length) :
    EntryAt (slots.set idx t) i slot ↔
      (i = idx ∧ slot = t ∧ t.probeDistance ≠ 0) ∨ (i ≠ idx ∧ EntryAt slots i slot) := by
  by_cases hi : i = idx
  · subst hi
    rw [EntryAt, List.getElem?_set_self h, Option.some.injEq]
    constructor
    · rintro ⟨rfl, hne⟩
      exact .inl ⟨rfl, rfl, hne⟩
    · rintro (⟨-, rfl, hne⟩ | ⟨hne, -⟩)
      · exact ⟨rfl, hne⟩
      · exact absurd rfl hne
  · rw [EntryAt, List.getElem?_set_ne (Ne.symm hi)]
    simp only [hi, false_and, not_false_eq_true, ne_eq, true_and, false_or]
    rfl

/-- What an overwritten slot adds, and what is left of the others. -/
theorem contains_set (h : idx < slots.length) (ht : t.probeDistance ≠ 0) :
    Contains (slots.set idx t) key value ↔ (t.key = key ∧ t.value = value) ∨
      ∃ i slot, i ≠ idx ∧ EntryAt slots i slot ∧ slot.key = key ∧ slot.value = value := by
  constructor
  · rintro ⟨i, slot, hentry, hkey, hvalue⟩
    rcases (entryAt_set h).mp hentry with ⟨rfl, rfl, -⟩ | ⟨hne, hold⟩
    · exact .inl ⟨hkey, hvalue⟩
    · exact .inr ⟨i, slot, hne, hold, hkey, hvalue⟩
  · rintro (⟨hkey, hvalue⟩ | ⟨i, slot, hne, hold, hkey, hvalue⟩)
    · exact ⟨idx, t, (entryAt_set h).mpr (.inl ⟨rfl, rfl, ht⟩), hkey, hvalue⟩
    · exact ⟨i, slot, (entryAt_set h).mpr (.inr ⟨hne, hold⟩), hkey, hvalue⟩

/-- An empty slot hides nothing. -/
theorem contains_iff_of_empty (h : distAt slots idx = 0) :
    Contains slots key value ↔
      ∃ i slot, i ≠ idx ∧ EntryAt slots i slot ∧ slot.key = key ∧ slot.value = value := by
  constructor
  · rintro ⟨i, slot, hentry, hrest⟩
    refine ⟨i, slot, ?_, hentry, hrest⟩
    rintro rfl
    have hpos := hentry.distAt_pos
    omega
  · rintro ⟨i, slot, -, hentry, hrest⟩
    exact ⟨i, slot, hentry, hrest⟩

/-- An entry and the others. -/
theorem contains_iff_of_entry (h : EntryAt slots idx slot) :
    Contains slots key value ↔ (slot.key = key ∧ slot.value = value) ∨
      ∃ i slot, i ≠ idx ∧ EntryAt slots i slot ∧ slot.key = key ∧ slot.value = value := by
  constructor
  · rintro ⟨i, slot', hentry, hrest⟩
    by_cases hi : i = idx
    · subst hi
      obtain rfl : slot = slot' := Option.some.inj (h.1.symm.trans hentry.1)
      exact .inl hrest
    · exact .inr ⟨i, slot', hi, hentry, hrest⟩
  · rintro (hrest | ⟨i, slot', -, hentry, hrest⟩)
    · exact ⟨idx, slot, h, hrest⟩
    · exact ⟨i, slot', hentry, hrest⟩

theorem occupied_set (h : idx < slots.length) (ht : t.probeDistance ≠ 0) :
    RobinHood.occupied (slots.set idx t).length (distAt (slots.set idx t)) =
      Insert.insert idx (RobinHood.occupied slots.length (distAt slots)) := by
  ext i
  simp only [RobinHood.occupied, Finset.mem_filter, Finset.mem_range, Finset.mem_insert,
    List.length_set]
  by_cases hi : i = idx
  · subst hi
    simp only [h, distAt_set_self h, toNat_pos ht, and_self, true_or]
  · rw [distAt_set_of_ne hi]
    simp only [hi, false_or]

/-- Overwriting an entry does not change their number. -/
theorem entryCount_set_entry (h : EntryAt slots idx slot) (ht : t.probeDistance ≠ 0) :
    entryCount (slots.set idx t) = entryCount slots := by
  rw [entryCount, occupied_set h.lt ht, Finset.insert_eq_of_mem]
  · rfl
  · exact Finset.mem_filter.mpr ⟨Finset.mem_range.mpr h.lt, h.distAt_pos⟩

/-- Filling a slot adds one. -/
theorem entryCount_set_empty (h : idx < slots.length) (hempty : distAt slots idx = 0)
    (ht : t.probeDistance ≠ 0) : entryCount (slots.set idx t) = entryCount slots + 1 := by
  rw [entryCount, occupied_set h ht, Finset.card_insert_of_notMem]
  · rfl
  · intro hmem
    have hpos := (Finset.mem_filter.mp hmem).2
    omega

theorem contains_iff_mem : Contains slots key value ↔
    ∃ slot ∈ slots, slot.probeDistance ≠ 0 ∧ slot.key = key ∧ slot.value = value := by
  constructor
  · rintro ⟨i, slot, he, hrest⟩
    exact ⟨slot, List.mem_of_getElem? he.1, he.2, hrest⟩
  · rintro ⟨slot, hmem, hne, hrest⟩
    obtain ⟨i, hi⟩ := List.mem_iff_getElem?.mp hmem
    exact ⟨i, slot, ⟨hi, hne⟩, hrest⟩

theorem entryCount_append_singleton :
    entryCount (slots ++ [t]) = entryCount slots + if t.probeDistance = 0 then 0 else 1 := by
  have hold : ∀ i < slots.length, distAt (slots ++ [t]) i = distAt slots i := by
    intro i hi
    rw [distAt, distAt, List.getElem?_append_left hi]
  have hlast : distAt (slots ++ [t]) slots.length = t.probeDistance.toNat := by
    rw [distAt, List.getElem?_concat_length]
  have hsame : (Finset.range slots.length).filter (0 < distAt (slots ++ [t]) ·) =
      RobinHood.occupied slots.length (distAt slots) := by
    refine Finset.filter_congr fun i hi => ?_
    rw [hold i (Finset.mem_range.mp hi)]
  rw [entryCount, RobinHood.occupied, List.length_append, List.length_singleton,
    Finset.range_add_one, Finset.filter_insert, hsame, hlast]
  by_cases hzero : t.probeDistance = 0
  · rw [hzero]
    rfl
  · rw [if_pos (toNat_pos hzero), if_neg hzero, Finset.card_insert_of_notMem]
    · rfl
    · intro hmem
      exact absurd (Finset.mem_range.mp (Finset.mem_filter.mp hmem).1) (Nat.lt_irrefl _)

theorem entryCount_append_le (slots rest : List (Slot K V)) :
    entryCount slots ≤ entryCount (slots ++ rest) := by
  induction rest generalizing slots with
  | nil => rw [List.append_nil]
  | cons t rest ih =>
    have hstep := ih (slots ++ [t])
    rw [entryCount_append_singleton, List.append_assoc, List.singleton_append] at hstep
    omega

theorem entryCount_le_length (slots : List (Slot K V)) : entryCount slots ≤ slots.length :=
  RobinHood.card_occupied_le

end Entries

/-! ### The table -/

section Table

variable {hash : K → UInt64} {slots : List (Slot K V)} {slot t : Slot K V} {i j idx : ℕ} {key : K}
  {value : V}

theorem Table.length_pos (h : Table hash slots) : 0 < slots.length := by
  obtain ⟨k, hk⟩ := h.powTwo
  rw [hk]
  exact Nat.two_pow_pos k

/-- The mask takes the remainder. -/
theorem Table.and_mask (h : Table hash slots) (x : ℕ) :
    x &&& (slots.length - 1) = x % slots.length := by
  obtain ⟨k, hk⟩ := h.powTwo
  rw [hk, Nat.and_two_pow_sub_one_eq_mod]

theorem home_lt (hn : 0 < slots.length) (key : K) : home hash slots.length key < slots.length :=
  Nat.mod_lt _ hn

theorem Table.distance_le (h : Table hash slots) (he : EntryAt slots i slot) :
    slot.probeDistance.toNat ≤ slots.length := by
  have hlt := RobinHood.steps_lt (a := home hash slots.length slot.key) (b := i) h.length_pos
  rw [h.distance i slot he]
  omega

/-- The probe for the key of an entry reaches it at its distance. -/
theorem Table.reach (h : Table hash slots) (he : EntryAt slots i slot) :
    (home hash slots.length slot.key + (slot.probeDistance.toNat - 1)) % slots.length = i := by
  have hn := h.length_pos
  have hlt := RobinHood.steps_lt (a := home hash slots.length slot.key) (b := i) hn
  rw [← RobinHood.steps_eq_iff (home_lt hn _) he.lt (by rw [h.distance i slot he]; omega),
    h.distance i slot he]
  omega

/-- No entry is farther from its home than there are entries. -/
theorem Table.distance_le_count (h : Table hash slots) (he : EntryAt slots i slot) :
    slot.probeDistance.toNat ≤ entryCount slots := by
  refine h.ordered.dist_le_card h.length_pos (home hash slots.length slot.key) ?_
    (h.distance_le he)
  rw [h.reach he, he.distAt_eq]

/-- A probe for a key that is there has not come too far, and the slot it is at is not nearer to
its home. -/
theorem Table.le_distAt (h : Table hash slots) (he : EntryAt slots i slot) {d : ℕ} (hd : 1 ≤ d)
    (hle : d ≤ slot.probeDistance.toNat) :
    d ≤ distAt slots ((home hash slots.length slot.key + (d - 1)) % slots.length) := by
  refine h.ordered.le_of_probe (D := slot.probeDistance.toNat) ?_ hd hle
  rw [h.reach he, he.distAt_eq]

/-- A slot may be overwritten by an entry that is as far from its home at least, when its key is
nowhere else and the slot before allows for it. -/
theorem Table.set (h : Table hash slots) (hidx : idx < slots.length) (ht : t.probeDistance ≠ 0)
    (hdist : t.probeDistance.toNat =
      1 + RobinHood.steps slots.length (home hash slots.length t.key) idx)
    (hkey : ∀ j slot, j ≠ idx → EntryAt slots j slot → slot.key ≠ t.key)
    (hge : distAt slots idx ≤ t.probeDistance.toNat)
    (hprev : ∀ j < slots.length, (j + 1) % slots.length = idx →
      t.probeDistance.toNat ≤ distAt slots j + 1) :
    Table hash (slots.set idx t) where
  powTwo := by
    rw [List.length_set]
    exact h.powTwo
  distance := by
    intro i slot he
    rw [List.length_set]
    rcases (entryAt_set hidx).mp he with ⟨rfl, rfl, -⟩ | ⟨-, hold⟩
    · exact hdist
    · exact h.distance i slot hold
  unique := by
    intro i j slot slot' hi hj heq
    rcases (entryAt_set hidx).mp hi with ⟨rfl, rfl, -⟩ | ⟨hne, hi'⟩ <;>
      rcases (entryAt_set hidx).mp hj with ⟨rfl, rfl, -⟩ | ⟨hne', hj'⟩
    · rfl
    · exact absurd heq.symm (hkey j slot' hne' hj')
    · exact absurd heq (hkey i slot hne hi')
    · exact h.unique i j slot slot' hi' hj' heq
  ordered := by
    intro i
    have hstep := h.ordered i
    have hlt : i % slots.length < slots.length := Nat.mod_lt _ h.length_pos
    have hnext : (i % slots.length + 1) % slots.length = (i + 1) % slots.length :=
      Nat.mod_add_mod _ _ _
    rw [List.length_set]
    -- the slot that is set may be the second of the two, the first, or both in a table of one slot
    by_cases hb : (i + 1) % slots.length = idx
    · rw [hb, distAt_set_self hidx]
      by_cases ha : i % slots.length = idx
      · rw [ha, distAt_set_self hidx]
        exact Nat.le_succ _
      · rw [distAt_set_of_ne ha]
        exact hprev _ hlt (hnext.trans hb)
    · rw [distAt_set_of_ne hb]
      by_cases ha : i % slots.length = idx
      · rw [ha] at hstep ⊢
        rw [distAt_set_self hidx]
        omega
      · rw [distAt_set_of_ne ha]
        exact hstep

/-- The value of an entry may change. -/
theorem Table.setValue (h : Table hash slots) (he : EntryAt slots idx slot) (value : V) :
    Table hash (slots.set idx { slot with value := value }) := by
  refine h.set he.lt he.2 (h.distance idx slot he) ?_ he.distAt_eq.le ?_
  · intro j slot' hne hj heq
    exact hne (h.unique j idx slot' slot hj he heq)
  · intro j hj hnext
    have hstep := h.ordered j
    rwa [hnext, Nat.mod_eq_of_lt hj, he.distAt_eq] at hstep

/-- There is an empty slot while there are fewer entries than slots. -/
theorem exists_empty (h : entryCount slots < slots.length) :
    ∃ e < slots.length, distAt slots e = 0 := by
  by_contra hnone
  have hall : RobinHood.occupied slots.length (distAt slots) = Finset.range slots.length := by
    refine Finset.filter_true_of_mem fun i hi => Nat.pos_of_ne_zero fun hzero => ?_
    exact hnone ⟨i, Finset.mem_range.mp hi, hzero⟩
  rw [entryCount, hall, Finset.card_range] at h
  exact absurd h (Nat.lt_irrefl _)

end Table

/-! ### Slots that were never used -/

section Unused

variable [Inhabited K] [Inhabited V] {hash : K → UInt64} {n i : ℕ} {slot : Slot K V}

theorem not_entryAt_replicate : ¬ EntryAt (List.replicate n (emptySlot : Slot K V)) i slot := by
  rintro ⟨hi, hne⟩
  apply hne
  rw [List.eq_of_mem_replicate (List.mem_of_getElem? hi)]
  rfl

theorem distAt_replicate : distAt (List.replicate n (emptySlot : Slot K V)) i = 0 := by
  by_contra hne
  obtain ⟨slot, hslot⟩ := exists_entryAt (Nat.pos_of_ne_zero hne)
  exact not_entryAt_replicate hslot

theorem entryCount_replicate : entryCount (List.replicate n (emptySlot : Slot K V)) = 0 := by
  refine Finset.card_eq_zero.mpr (Finset.filter_eq_empty_iff.mpr fun i _ => ?_)
  rw [distAt_replicate]
  exact Nat.lt_irrefl 0

theorem table_replicate (hn : ∃ k, n = 2 ^ k) :
    Table hash (List.replicate n (emptySlot : Slot K V)) := by
  refine ⟨?_, fun i slot h => absurd h not_entryAt_replicate,
    fun i j slot slot' h => absurd h not_entryAt_replicate, fun i => ?_⟩
  · rwa [List.length_replicate]
  · rw [distAt_replicate]
    exact Nat.zero_le _

end Unused

end FlatHashMap

end Cob
