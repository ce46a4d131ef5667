import Cob.FlatMap.Table

/-!
# Inserting

The loop of `insertHelper`. It looks for the key until a slot is nearer to its home than the key
would be there; then the key takes that slot, and the entry that was in it is carried on in the same
way. No slot is passed twice, so the slot of the key is not taken from it again.

* `CarryInv` — what holds before each round: the slots are a table, and the entry that is carried
  may go on from where it is;
* `insertRound_spec` — a round keeps this, or ends the loop;
* `insertHelper_spec` — the map has the new value, and no other value has changed.
-/

namespace Cob

namespace FlatHashMap

open Fueled

variable {K V : Type} {hash : K → UInt64} {slots slots₀ : List (Slot K V)} {slot : Slot K V}
  {key : K} {value : V} {e i j : ℕ}

/-- Slot `i` has an entry for the key with the value. -/
def HoldsAt (slots : List (Slot K V)) (i : ℕ) (key : K) (value : V) : Prop :=
  ∃ slot, EntryAt slots i slot ∧ slot.key = key ∧ slot.value = value

/-- The slots have no entry for the key. -/
def Absent (slots : List (Slot K V)) (key : K) : Prop :=
  ∀ i slot, EntryAt slots i slot → slot.key ≠ key

/-- The slots and the entry that is carried say what the map is to say. -/
def Says [DecidableEq K] (slots₀ : List (Slot K V)) (key : K) (value : V) (s : Carry K V) : Prop :=
  ∀ k v, (s.key = k ∧ s.value = v ∨ Contains s.slots k v) ↔
    if k = key then v = value else Contains slots₀ k v

/-- Either the key is still looked for, or it has a slot and another entry is carried. -/
inductive Phase [DecidableEq K] (slots₀ : List (Slot K V)) (key : K) (value : V) (e : ℕ)
    (s : Carry K V) : Prop
  | searching : s.inserted = none → s.key = key → s.value = value → s.slots = slots₀ →
      (∀ i slot, EntryAt slots₀ i slot → slot.key = key →
        s.dist.toNat ≤ slot.probeDistance.toNat) → Phase slots₀ key value e s
  | carrying (i : ℕ) : s.inserted = some i →
      RobinHood.steps s.slots.length s.idx e < RobinHood.steps s.slots.length i e →
      HoldsAt s.slots i key value → Absent slots₀ key → Absent s.slots s.key →
      Says slots₀ key value s → Phase slots₀ key value e s

/-- What holds before each round; `e` is an empty slot. -/
structure CarryInv [DecidableEq K] (hash : K → UInt64) (slots₀ : List (Slot K V)) (key : K)
    (value : V) (e : ℕ) (s : Carry K V) : Prop where
  table : Table hash s.slots
  length : s.slots.length = slots₀.length
  count : entryCount s.slots = entryCount slots₀
  empty_lt : e < s.slots.length
  empty : distAt s.slots e = 0
  dist_pos : 1 ≤ s.dist.toNat
  /-- The entry that is carried is at its distance from its home. -/
  reach : (home hash s.slots.length s.key + (s.dist.toNat - 1)) % s.slots.length = s.idx
  /-- It may take the slot as far as the one before is concerned. -/
  behind : ∀ j < s.slots.length, (j + 1) % s.slots.length = s.idx →
    s.dist.toNat ≤ distAt s.slots j + 1
  phase : Phase slots₀ key value e s

/-- The result of the loop. -/
structure Inserted [DecidableEq K] (hash : K → UInt64) (slots₀ : List (Slot K V)) (key : K)
    (value : V) (slots : List (Slot K V)) (added : Bool) (ptr : ℕ) : Prop where
  table : Table hash slots
  length : slots.length = slots₀.length
  holds : HoldsAt slots ptr key value
  contains : ∀ k v, Contains slots k v ↔ if k = key then v = value else Contains slots₀ k v
  added_iff : added = true ↔ Absent slots₀ key
  count : entryCount slots = if added then entryCount slots₀ + 1 else entryCount slots₀

section Facts

theorem absent_iff : Absent slots key ↔ ∀ v, ¬ Contains slots key v := by
  constructor
  · rintro h v ⟨i, slot, he, hkey, -⟩
    exact h i slot he hkey
  · exact fun h i slot he hkey => h slot.value ⟨i, slot, he, hkey, rfl⟩

/-- An entry stays when another slot is overwritten. -/
theorem HoldsAt.set (h : HoldsAt slots i key value) {idx : ℕ} (hidx : idx < slots.length)
    (hne : i ≠ idx) (t : Slot K V) : HoldsAt (slots.set idx t) i key value := by
  obtain ⟨slot, he, hrest⟩ := h
  exact ⟨slot, (entryAt_set hidx).mpr (.inr ⟨hne, he⟩), hrest⟩

theorem holdsAt_set_self {idx : ℕ} (hidx : idx < slots.length) {t : Slot K V}
    (ht : t.probeDistance ≠ 0) : HoldsAt (slots.set idx t) idx t.key t.value :=
  ⟨t, (entryAt_set hidx).mpr (.inl ⟨rfl, rfl, ht⟩), rfl, rfl⟩

/-- A slot is either empty or has an entry. -/
theorem slotAt_cases (hi : i < slots.length) :
    ∃ slot, slotAt slots i = .ok slot ∧
      (slot.probeDistance = 0 ∧ distAt slots i = 0 ∨ EntryAt slots i slot) := by
  have hget : slots[i]? = some slots[i] := List.getElem?_eq_getElem hi
  refine ⟨slots[i], by rw [slotAt, hget], ?_⟩
  by_cases hzero : slots[i].probeDistance = 0
  · exact .inl ⟨hzero, distAt_eq_zero hget hzero⟩
  · exact .inr ⟨hget, hzero⟩

/-- Only one slot is before the next one. -/
theorem eq_of_next {n a b : ℕ} (ha : a < n) (hb : b < n) (h : (a + 1) % n = (b + 1) % n) :
    a = b := by
  have hmod : a % n = b % n := Nat.ModEq.add_right_cancel' 1 h
  rwa [Nat.mod_eq_of_lt ha, Nat.mod_eq_of_lt hb] at hmod

variable [DecidableEq K] {s : Carry K V} (h : CarryInv hash slots₀ key value e s)

include h

theorem CarryInv.idx_lt : s.idx < s.slots.length := by
  rw [← h.reach]
  exact Nat.mod_lt _ h.table.length_pos

theorem CarryInv.dist_ne_zero : s.dist ≠ 0 := by
  intro hzero
  have hpos := h.dist_pos
  rw [hzero] at hpos
  exact absurd hpos (by decide)

/-- The empty slot is not counted. -/
theorem CarryInv.count_lt : entryCount s.slots < s.slots.length := by
  have hsub : RobinHood.occupied s.slots.length (distAt s.slots) ⊂ Finset.range s.slots.length := by
    refine Finset.filter_ssubset.mpr ⟨e, Finset.mem_range.mpr h.empty_lt, ?_⟩
    rw [h.empty]
    exact Nat.lt_irrefl 0
  have hlt := Finset.card_lt_card hsub
  rwa [Finset.card_range] at hlt

/-- The entry that is carried has not come farther than there are entries. -/
theorem CarryInv.dist_le : s.dist.toNat ≤ entryCount s.slots + 1 := by
  have hn := h.table.length_pos
  obtain ⟨j, hj, hnext⟩ : ∃ j < s.slots.length, (j + 1) % s.slots.length = s.idx := by
    refine ⟨(s.idx + (s.slots.length - 1)) % s.slots.length, Nat.mod_lt _ hn, ?_⟩
    have hsum : s.idx + (s.slots.length - 1) + 1 = s.idx + s.slots.length := by omega
    rw [Nat.mod_add_mod, hsum, Nat.add_mod_right, Nat.mod_eq_of_lt h.idx_lt]
  have hbehind := h.behind j hj hnext
  rcases Nat.eq_zero_or_pos (distAt s.slots j) with hzero | hpos
  · omega
  · obtain ⟨slot, he⟩ := exists_entryAt hpos
    have hle := h.table.distance_le_count he
    rw [he.distAt_eq] at hbehind
    omega

/-- The way from its home to the slot. -/
theorem CarryInv.dist_eq : s.dist.toNat =
    1 + RobinHood.steps s.slots.length (home hash s.slots.length s.key) s.idx := by
  have hle := h.dist_le
  have hlt := h.count_lt
  have hpos := h.dist_pos
  have hsteps := (RobinHood.steps_eq_iff (home_lt h.table.length_pos s.key) h.idx_lt
    (d := s.dist.toNat - 1) (by omega)).mpr h.reach
  omega

/-- A slot that is nearer to its home shows that the key is not there. -/
theorem CarryInv.absent (hnear : distAt s.slots s.idx < s.dist.toNat) : Absent s.slots s.key := by
  cases h.phase with
  | carrying i _ _ _ _ habsent _ => exact habsent
  | searching _ hkey _ hslots hahead =>
    intro i slot he heq
    have hle := hahead i slot (hslots ▸ he) (heq.trans hkey)
    have hway := h.table.le_distAt he h.dist_pos hle
    rw [heq, h.reach] at hway
    omega

/-- Then the key was not in the map. -/
theorem CarryInv.absent₀ (hnear : distAt s.slots s.idx < s.dist.toNat) : Absent slots₀ key := by
  have habsent := h.absent hnear
  cases h.phase with
  | carrying i _ _ _ habsent₀ _ _ => exact habsent₀
  | searching _ hkey _ hslots _ =>
    rw [← hslots, ← hkey]
    exact habsent

/-- Then the slots and the entry that is carried make up the map. -/
theorem CarryInv.makesUp (hnear : distAt s.slots s.idx < s.dist.toNat) :
    Says slots₀ key value s := by
  have habsent := h.absent₀ hnear
  cases h.phase with
  | carrying i _ _ _ _ _ hmade => exact hmade
  | searching _ hkey hvalue hslots _ =>
    intro k v
    rw [hkey, hvalue, hslots]
    split_ifs with hk
    · subst hk
      constructor
      · rintro (⟨-, rfl⟩ | hold)
        · rfl
        · exact absurd hold (absent_iff.mp habsent v)
      · rintro rfl
        exact .inl ⟨rfl, rfl⟩
    · exact or_iff_right fun heq => hk heq.1.symm

end Facts

/-! ### The rounds -/

section Rounds

variable [DecidableEq K] {s : Carry K V} (h : CarryInv hash slots₀ key value e s)

include h

/-- The slots with the entry that is carried put down. -/
theorem CarryInv.table_set (hnear : distAt s.slots s.idx < s.dist.toNat) :
    Table hash (s.slots.set s.idx ⟨s.key, s.value, s.dist⟩) :=
  h.table.set h.idx_lt h.dist_ne_zero h.dist_eq (fun j slot _ he => h.absent hnear j slot he)
    hnear.le h.behind

/-- The slot that the returned pointer is going to address, after the entry is put down. -/
theorem CarryInv.holdsAt_set :
    HoldsAt (s.slots.set s.idx ⟨s.key, s.value, s.dist⟩) (s.inserted.getD s.idx) key value ∧
      RobinHood.steps s.slots.length s.idx e ≤
        RobinHood.steps s.slots.length (s.inserted.getD s.idx) e := by
  cases h.phase with
  | searching hinserted hkey hvalue _ _ =>
    rw [hinserted, Option.getD_none, ← hkey, ← hvalue]
    exact ⟨holdsAt_set_self (t := ⟨s.key, s.value, s.dist⟩) h.idx_lt h.dist_ne_zero, le_rfl⟩
  | carrying i hinserted hpassed hholds _ _ _ =>
    rw [hinserted, Option.getD_some]
    refine ⟨hholds.set h.idx_lt ?_ _, hpassed.le⟩
    rintro rfl
    exact absurd hpassed (Nat.lt_irrefl _)

/-- An empty slot takes the entry. -/
theorem CarryInv.place (hempty : distAt s.slots s.idx = 0) :
    Inserted hash slots₀ key value (s.slots.set s.idx ⟨s.key, s.value, s.dist⟩) true
      (s.inserted.getD s.idx) := by
  have hnear : distAt s.slots s.idx < s.dist.toNat := by
    have hpos := h.dist_pos
    omega
  refine ⟨h.table_set hnear, ?_, h.holdsAt_set.1, fun k v => ?_, ?_, ?_⟩
  · rw [List.length_set, h.length]
  · rw [contains_set h.idx_lt h.dist_ne_zero, ← contains_iff_of_empty hempty]
    exact h.makesUp hnear k v
  · exact iff_of_true rfl (h.absent₀ hnear)
  · rw [entryCount_set_empty h.idx_lt hempty h.dist_ne_zero, h.count]
    rfl

/-- The slot of the key takes the value. -/
theorem CarryInv.update (he : EntryAt s.slots s.idx slot) (hfound : slot.key = s.key) :
    Inserted hash slots₀ key value (s.slots.set s.idx { slot with value := s.value }) false
      (s.inserted.getD s.idx) := by
  cases h.phase with
  -- while an entry is carried on, its key is nowhere in the table
  | carrying _ _ _ _ _ habsent _ => exact absurd hfound (habsent _ _ he)
  | searching hinserted hkey hvalue hslots _ =>
    have hset : (s.slots.set s.idx { slot with value := s.value }) =
        s.slots.set s.idx ⟨key, value, slot.probeDistance⟩ := by
      rw [hfound, hkey, hvalue]
    refine ⟨h.table.setValue he s.value, ?_, ?_, fun k v => ?_, ?_, ?_⟩
    · rw [List.length_set, h.length]
    · rw [hinserted, Option.getD_none, hset]
      exact holdsAt_set_self (t := ⟨key, value, slot.probeDistance⟩) he.lt he.2
    · rw [hset, contains_set (t := ⟨key, value, slot.probeDistance⟩) he.lt he.2, ← hslots]
      split_ifs with hk
      · subst hk
        constructor
        · rintro (⟨-, rfl⟩ | ⟨i, slot', hne, he', hkey', -⟩)
          · rfl
          · exact absurd (h.table.unique i s.idx slot' slot he' he
              (hkey'.trans (hfound.trans hkey).symm)) hne
        · rintro rfl
          exact .inl ⟨rfl, rfl⟩
      · rw [contains_iff_of_entry he]
        have hkey' : slot.key ≠ k := fun heq => hk (heq.symm.trans (hfound.trans hkey))
        simp only [hkey', Ne.symm hk, false_and, false_or]
    · refine iff_of_false Bool.false_ne_true fun habsent => ?_
      exact habsent s.idx slot (hslots ▸ he) (hfound.trans hkey)
    · rw [entryCount_set_entry (t := { slot with value := s.value }) he he.2, h.count]
      rfl

/-- The next index. -/
theorem CarryInv.next_idx : (s.idx + 1) &&& (s.slots.length - 1) = (s.idx + 1) % s.slots.length :=
  h.table.and_mask _

theorem CarryInv.idx_ne (he : EntryAt s.slots s.idx slot) : s.idx ≠ e := by
  intro heq
  have hpos := he.distAt_pos
  rw [heq, h.empty] at hpos
  exact absurd hpos (Nat.lt_irrefl 0)

/-- The entry that is carried takes the slot of one that is nearer to its home, which is carried
on. -/
theorem CarryInv.swap (he : EntryAt s.slots s.idx slot)
    (hnear : slot.probeDistance.toNat < s.dist.toNat) (hroom : entryCount slots₀ + 1 < 2 ^ 32) :
    CarryInv hash slots₀ key value e
      { slots := s.slots.set s.idx ⟨s.key, s.value, s.dist⟩
        idx := (s.idx + 1) % s.slots.length
        key := slot.key
        value := slot.value
        dist := slot.probeDistance + 1
        inserted := some (s.inserted.getD s.idx) } := by
  have hnear' : distAt s.slots s.idx < s.dist.toNat := by rwa [he.distAt_eq]
  have hle := h.table.distance_le_count he
  have hpos := toNat_pos he.2
  have hdist : (slot.probeDistance + 1).toNat = slot.probeDistance.toNat + 1 := by
    rw [UInt32.toNat_add]
    exact Nat.mod_eq_of_lt (by rw [h.count] at hle; exact (Nat.succ_le_succ hle).trans_lt hroom)
  have hsaid : ∀ k v, (slot.key = k ∧ slot.value = v ∨
      Contains (s.slots.set s.idx ⟨s.key, s.value, s.dist⟩) k v) ↔
        (s.key = k ∧ s.value = v ∨ Contains s.slots k v) := by
    intro k v
    rw [contains_set h.idx_lt h.dist_ne_zero, contains_iff_of_entry he]
    exact or_left_comm
  refine ⟨h.table_set hnear', ?_, ?_, ?_, ?_, ?_, ?_, ?_, ?_⟩
  · rw [List.length_set, h.length]
  · rw [entryCount_set_entry he h.dist_ne_zero, h.count]
  · rw [List.length_set]
    exact h.empty_lt
  · rw [distAt_set_of_ne (h.idx_ne he).symm]
    exact h.empty
  · exact hdist ▸ Nat.le_add_left 1 _
  · have hreach := h.table.reach he
    have hsum : home hash s.slots.length slot.key + (slot.probeDistance.toNat + 1 - 1) =
        home hash s.slots.length slot.key + (slot.probeDistance.toNat - 1) + 1 := by omega
    rw [List.length_set, hdist, hsum, ← Nat.mod_add_mod, hreach]
  · intro j hj hnext
    rw [List.length_set] at hj hnext
    obtain rfl := eq_of_next hj h.idx_lt hnext
    rw [distAt_set_self h.idx_lt, hdist]
    exact Nat.succ_le_succ hnear.le
  · obtain ⟨hholds, hpassed⟩ := h.holdsAt_set
    have hstep := RobinHood.steps_succ h.idx_lt h.empty_lt (h.idx_ne he)
    refine .carrying _ rfl ?_ hholds (h.absent₀ hnear') ?_ fun k v => ?_
    · -- the slot that was just passed is nearer to `e` than the one of the key
      dsimp only
      rw [List.length_set]
      omega
    · intro j slot' hj heq
      rcases (entryAt_set h.idx_lt).mp hj with ⟨-, rfl, -⟩ | ⟨hne, hold⟩
      · exact h.absent hnear' s.idx slot he heq.symm
      · exact hne (h.table.unique j s.idx slot' slot hold he heq)
    · exact (hsaid k v).trans (h.makesUp hnear' k v)

/-- The entry that is carried passes a slot that is not nearer to its home. -/
theorem CarryInv.advance (he : EntryAt s.slots s.idx slot) (hne : slot.key ≠ s.key)
    (hfar : s.dist.toNat ≤ slot.probeDistance.toNat)
    (hfew : entryCount slots₀ < 2 ^ 32)
    (hroom : Absent slots₀ key → entryCount slots₀ + 1 < 2 ^ 32) :
    CarryInv hash slots₀ key value e
      { s with idx := (s.idx + 1) % s.slots.length, dist := s.dist + 1 } := by
  have hle := h.table.distance_le_count he
  -- an entry for the key is still ahead
  have hahead : s.slots = slots₀ → s.key = key → ∀ i slot', EntryAt slots₀ i slot' →
      slot'.key = key → s.dist.toNat ≤ slot'.probeDistance.toNat →
        s.dist.toNat + 1 ≤ slot'.probeDistance.toNat := by
    intro hslots hkey i slot' he' hkey' hle'
    refine Nat.lt_of_le_of_ne hle' fun heq => hne ?_
    have hreach := h.table.reach (hslots ▸ he')
    rw [hkey', ← hkey, ← heq, h.reach] at hreach
    subst hreach
    obtain rfl : slot = slot' := Option.some.inj (he.1.symm.trans (hslots ▸ he'.1))
    exact hkey'.trans hkey.symm
  -- so the distance does not wrap
  have hlt : s.dist.toNat + 1 < 2 ^ 32 := by
    rw [h.count] at hle
    by_cases habsent : Absent slots₀ key
    · have hroom' := hroom habsent
      omega
    · cases h.phase with
      | carrying _ _ _ _ habsent₀ _ _ => exact absurd habsent₀ habsent
      | searching _ hkey _ hslots hle' =>
        simp only [Absent, not_forall, not_not] at habsent
        obtain ⟨i, slot', he', hkey'⟩ := habsent
        have hless := hahead hslots hkey i slot' he' hkey' (hle' i slot' he' hkey')
        have hcount := h.table.distance_le_count (hslots ▸ he')
        rw [hslots] at hcount
        omega
  have hdist : (s.dist + 1).toNat = s.dist.toNat + 1 := by
    rw [UInt32.toNat_add]
    exact Nat.mod_eq_of_lt hlt
  have hpos := h.dist_pos
  refine ⟨h.table, h.length, h.count, h.empty_lt, h.empty, ?_, ?_, ?_, ?_⟩
  · exact hdist ▸ Nat.le_add_left 1 _
  · have hsum : home hash s.slots.length s.key + (s.dist.toNat + 1 - 1) =
        home hash s.slots.length s.key + (s.dist.toNat - 1) + 1 := by omega
    dsimp only
    rw [hdist, hsum, ← Nat.mod_add_mod, h.reach]
  · intro j hj hnext
    obtain rfl := eq_of_next hj h.idx_lt hnext
    dsimp only
    rw [hdist, he.distAt_eq]
    exact Nat.succ_le_succ hfar
  · cases h.phase with
    | searching hinserted hkey hvalue hslots hle' =>
      refine .searching hinserted hkey hvalue hslots fun i slot' he' hkey' => ?_
      dsimp only
      rw [hdist]
      exact hahead hslots hkey i slot' he' hkey' (hle' i slot' he' hkey')
    | carrying i hinserted hpassed hholds habsent₀ habsent hmade =>
      have hstep := RobinHood.steps_succ h.idx_lt h.empty_lt (h.idx_ne he)
      refine .carrying i hinserted ?_ hholds habsent₀ habsent hmade
      dsimp only
      omega

end Rounds

/-! ### The loop -/

section Loop

variable [DecidableEq K] {s : Carry K V}

/-- A round puts the entry down, or goes on to the next slot. -/
theorem insertRound_spec (h : CarryInv hash slots₀ key value e s)
    (hfew : entryCount slots₀ < 2 ^ 32)
    (hroom : Absent slots₀ key → entryCount slots₀ + 1 < 2 ^ 32) :
    Returns (insertRound s) (Sum.elim
      (fun s' => CarryInv hash slots₀ key value e s' ∧
        RobinHood.steps slots₀.length s'.idx e < RobinHood.steps slots₀.length s.idx e)
      fun result => Inserted hash slots₀ key value result.1 result.2.1 result.2.2) := by
  obtain ⟨slot, hslot, hempty | he⟩ := slotAt_cases h.idx_lt
  · rw [insertRound, hslot]
    refine ⟨.inr (_, true, s.inserted.getD s.idx), ?_, h.place hempty.2⟩
    exact if_pos hempty.1
  -- the slot is occupied, so going on brings the empty slot nearer
  have hstep := RobinHood.steps_succ h.idx_lt h.empty_lt (h.idx_ne he)
  have hless : RobinHood.steps slots₀.length ((s.idx + 1) % s.slots.length) e <
      RobinHood.steps slots₀.length s.idx e := by
    rw [← h.length]
    omega
  rw [insertRound, hslot]
  by_cases hkey : slot.key = s.key
  · refine ⟨.inr (_, false, s.inserted.getD s.idx), ?_, h.update he hkey⟩
    exact (if_neg he.2).trans (if_pos hkey)
  by_cases hnear : slot.probeDistance < s.dist
  · have hnear' := UInt32.lt_iff_toNat_lt.mp hnear
    have habsent := h.absent₀ (by rwa [he.distAt_eq])
    refine ⟨.inl _, ?_, h.swap he hnear' (hroom habsent), hless⟩
    rw [← h.next_idx]
    exact (if_neg he.2).trans ((if_neg hkey).trans (if_pos hnear))
  · have hfar : s.dist.toNat ≤ slot.probeDistance.toNat :=
      Nat.le_of_not_lt fun hlt => hnear (UInt32.lt_iff_toNat_lt.mpr hlt)
    refine ⟨.inl _, ?_, h.advance he hkey hfar hfew hroom, hless⟩
    rw [← h.next_idx]
    exact (if_neg he.2).trans ((if_neg hkey).trans (if_neg hnear))

/-- The loop begins at the home of the key. -/
theorem carryInv_start (key : K) (value : V) (h : Table hash slots) (he : e < slots.length)
    (hempty : distAt slots e = 0) :
    CarryInv hash slots key value e
      ⟨slots, home hash slots.length key, key, value, 1, none⟩ := by
  refine ⟨h, rfl, rfl, he, hempty, le_rfl, ?_, fun j _ _ => ?_, ?_⟩
  · exact Nat.mod_eq_of_lt (home_lt h.length_pos key)
  · exact Nat.le_add_left 1 _
  · exact .searching rfl rfl rfl rfl fun i slot hentry _ => toNat_pos hentry.2

/-- A map whose slots are a table, with the number of entries as its size. -/
structure Valid (hash : K → UInt64) (m : FlatHashMap K V) : Prop where
  table : Table hash m.slots
  size : m.size = entryCount m.slots

/-- The map `m'` is `m` with the value stored for the key, in the slot `ptr`. -/
structure Stored (hash : K → UInt64) (m : FlatHashMap K V) (key : K) (value : V)
    (m' : FlatHashMap K V) (ptr : ℕ) : Prop where
  valid : Valid hash m'
  holds : HoldsAt m'.slots ptr key value
  contains : ∀ k v, Contains m'.slots k v ↔ if k = key then v = value else Contains m.slots k v
  size_of_absent : Absent m.slots key → m'.size = m.size + 1
  size_of_present : ¬ Absent m.slots key → m'.size = m.size

/-- `insertHelper` ends, with the value stored, when there is an empty slot. -/
theorem insertHelper_spec (key : K) (value : V) {m : FlatHashMap K V} (h : Valid hash m)
    (hspace : m.size < m.slots.length) (hfew : m.size < 2 ^ 32)
    (hroom : Absent m.slots key → m.size + 1 < 2 ^ 32) :
    Returns (insertHelper hash m key value) fun result =>
      Stored hash m key value result.1 result.2 ∧
        result.1.slots.length = m.slots.length := by
  rw [h.size] at hspace hfew hroom
  -- the loop ends at an empty slot, and there is one
  obtain ⟨e, he, hempty⟩ := exists_empty hspace
  have hstart := carryInv_start key value h.table he hempty
  have hrank : RobinHood.steps m.slots.length (home hash m.slots.length key) e <
      m.slots.length + 1 := (RobinHood.steps_lt h.table.length_pos).trans (Nat.lt_succ_self _)
  have hloop := returns_loop (CarryInv hash m.slots key value e)
    (fun s => RobinHood.steps m.slots.length s.idx e)
    (fun s hs => insertRound_spec hs hfew hroom) hstart hrank
  rw [insertHelper, h.table.and_mask]
  refine hloop.bind fun result hresult => ?_
  obtain ⟨slots, added, ptr⟩ := result
  refine returns_pure ⟨⟨⟨hresult.table, ?_⟩, hresult.holds, hresult.contains, ?_, ?_⟩,
    hresult.length⟩
  · rw [hresult.count, ← h.size]
  · intro habsent
    exact if_pos (hresult.added_iff.mpr habsent)
  · intro hpresent
    exact if_neg fun hadded => hpresent (hresult.added_iff.mp hadded)

end Loop

end FlatHashMap

end Cob
