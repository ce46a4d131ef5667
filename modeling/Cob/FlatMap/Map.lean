import Cob.FlatMap.Insert

/-!
# The map

`FlatHashMap` as a finite map, for any hash function, initial capacity and sequence of calls.
`probe_distance` has 32 bits, so that a map may hold fewer than 2³² keys: with that many keys of one
home the last one is stored at distance 0, and its slot is taken for an empty one.

* `find_spec`, `rehash_spec`, `insert_spec`, `reserve_spec` — what the members do;
* `Op`, `runOps` — calls, and a run of them on a constructed map;
* `IsMap` — what the run amounts to;
* `isMap_of_few` — it does, while fewer than 2³² keys are stored.
-/

namespace Cob

namespace FlatHashMap

open Fueled

variable {K V : Type} {hash : K → UInt64} {slots : List (Slot K V)} {key : K} {value : V} {i : ℕ}

/-! ### Finding -/

/-- The pointer is to the slot of the key with the value, or there is neither. -/
def Addresses (slots : List (Slot K V)) (ptr : Option ℕ) (key : K) (stored : Option V) : Prop :=
  match stored with
  | some value => ∃ i, ptr = some i ∧ HoldsAt slots i key value
  | none => ptr = none

section Find

/-- What holds in the loop of `find`, at the distance `d`. -/
structure FindInv (hash : K → UInt64) (slots : List (Slot K V)) (key : K) (d : ℕ)
    (s : ℕ × UInt32) : Prop where
  pos : 1 ≤ d
  le : d ≤ slots.length + 1
  idx : s.1 = (home hash slots.length key + (d - 1)) % slots.length
  dist : s.2 = UInt32.ofNat d
  /-- The slots that were passed are occupied. -/
  passed : ∀ j < d - 1, 0 < distAt slots ((home hash slots.length key + j) % slots.length)
  /-- The key is not in one of them. -/
  ahead : ∀ i slot, EntryAt slots i slot → slot.key = key → d ≤ slot.probeDistance.toNat

variable {d : ℕ} {s : ℕ × UInt32} {slot : Slot K V}

theorem FindInv.idx_lt (h : FindInv hash slots key d s) (ht : Table hash slots) :
    s.1 < slots.length := by
  rw [h.idx]
  exact Nat.mod_lt _ ht.length_pos

/-- A slot that is nearer to its home shows that the key is not there. -/
theorem FindInv.absent (h : FindInv hash slots key d s) (ht : Table hash slots)
    (hnear : distAt slots s.1 < d) : Absent slots key := by
  intro i slot he hkey
  have hway := ht.le_distAt he h.pos (h.ahead i slot he hkey)
  rw [hkey, ← h.idx] at hway
  omega

/-- At an occupied slot the distance has not wrapped. -/
theorem FindInv.dist_toNat (h : FindInv hash slots key d s) (ht : Table hash slots)
    (hfew : entryCount slots < 2 ^ 32) (he : EntryAt slots s.1 slot) : s.2.toNat = d := by
  have hoccupied : ∀ j < d, 0 < distAt slots ((home hash slots.length key + j) % slots.length) := by
    intro j hj
    rcases Nat.lt_or_ge j (d - 1) with hlt | hge
    · exact h.passed j hlt
    · have hlast : j = d - 1 := by omega
      rw [hlast, ← h.idx]
      exact he.distAt_pos
  have hlt : d < 2 ^ 32 := by
    by_cases hd : d ≤ slots.length
    · have hle := RobinHood.le_card_occupied ht.length_pos hd hoccupied
      exact Nat.lt_of_le_of_lt hle hfew
    · -- all slots were passed, so the table is full, and its length is a smaller power of two
      have hfull := RobinHood.le_card_occupied ht.length_pos le_rfl
        fun j hj => hoccupied j (by omega)
      obtain ⟨k, hk⟩ := ht.powTwo
      have hpow : 2 ^ k < 2 ^ 32 := hk ▸ Nat.lt_of_le_of_lt hfull hfew
      have hk' : k ≤ 31 := by
        have := (Nat.pow_lt_pow_iff_right (by decide)).mp hpow
        omega
      have hle := Nat.pow_le_pow_right (n := 2) (by decide) hk'
      have hd' := h.le
      omega
  rw [h.dist, UInt32.toNat_ofNat']
  exact Nat.mod_eq_of_lt hlt

variable [DecidableEq K]

theorem findRound_spec (h : FindInv hash slots key d s) (ht : Table hash slots)
    (hfew : entryCount slots < 2 ^ 32) :
    Returns (findRound slots key s) (Sum.elim (FindInv hash slots key (d + 1))
      fun ptr => (ptr = none ∧ Absent slots key) ∨
        ∃ i value, ptr = some i ∧ HoldsAt slots i key value) := by
  obtain ⟨slot, hslot, hempty | he⟩ := slotAt_cases (h.idx_lt ht)
  · rw [findRound, hslot]
    refine ⟨.inr none, if_pos hempty.1, .inl ⟨rfl, h.absent ht ?_⟩⟩
    rw [hempty.2]
    exact h.pos
  have hdist := h.dist_toNat ht hfew he
  rw [findRound, hslot]
  by_cases hnear : slot.probeDistance < s.2
  · refine ⟨.inr none, (if_neg he.2).trans (if_pos hnear), .inl ⟨rfl, h.absent ht ?_⟩⟩
    rw [he.distAt_eq, ← hdist]
    exact UInt32.lt_iff_toNat_lt.mp hnear
  have hfar : d ≤ slot.probeDistance.toNat := by
    rw [← hdist]
    exact Nat.le_of_not_lt fun hlt => hnear (UInt32.lt_iff_toNat_lt.mpr hlt)
  by_cases hkey : slot.key = key
  · refine ⟨.inr (some s.1), ?_, .inr ⟨s.1, slot.value, rfl, slot, he, hkey, rfl⟩⟩
    exact (if_neg he.2).trans ((if_neg hnear).trans (if_pos hkey))
  have hpos := h.pos
  have hsum : home hash slots.length key + (d + 1 - 1) =
      home hash slots.length key + (d - 1) + 1 := by omega
  refine ⟨.inl ((s.1 + 1) &&& (slots.length - 1), s.2 + 1), ?_, ?_⟩
  · exact (if_neg he.2).trans ((if_neg hnear).trans (if_neg hkey))
  refine ⟨Nat.le_add_left 1 d, Nat.succ_le_succ (hfar.trans (ht.distance_le he)), ?_, ?_, ?_, ?_⟩
  · rw [hsum, ← Nat.mod_add_mod, ← h.idx]
    exact ht.and_mask _
  · rw [h.dist, UInt32.ofNat_add]
    rfl
  · intro j hj
    rcases Nat.lt_or_ge j (d - 1) with hlt | hge
    · exact h.passed j hlt
    · have hlast : j = d - 1 := by omega
      rw [hlast, ← h.idx]
      exact he.distAt_pos
  · -- a slot at this distance would be the one with the other key
    intro i slot' he' hkey'
    refine Nat.lt_of_le_of_ne (h.ahead i slot' he' hkey') fun heq => hkey ?_
    have hreach := ht.reach he'
    rw [hkey', ← heq, ← h.idx] at hreach
    subst hreach
    obtain rfl : slot = slot' := Option.some.inj (he.1.symm.trans he'.1)
    exact hkey'

/-- `find` ends, with the slot of the key if there is one. -/
theorem find_spec {m : FlatHashMap K V} (ht : Table hash m.slots)
    (hfew : entryCount m.slots < 2 ^ 32) :
    Returns (find hash m key) fun ptr => (ptr = none ∧ Absent m.slots key) ∨
      ∃ i value, ptr = some i ∧ HoldsAt m.slots i key value := by
  have hne : m.slots ≠ [] := List.ne_nil_of_length_pos ht.length_pos
  have hstart : FindInv hash m.slots key 1 (home hash m.slots.length key, 1) := by
    refine ⟨le_rfl, Nat.le_add_left 1 _, ?_, rfl, fun j hj => absurd hj (Nat.not_lt_zero j), ?_⟩
    · exact (Nat.mod_eq_of_lt (home_lt ht.length_pos key)).symm
    · exact fun i slot he _ => toNat_pos he.2
  rw [find, if_neg hne]
  dsimp only
  rw [ht.and_mask]
  -- the distance that is still ahead decreases
  refine returns_loop_rank
    (fun r s => ∃ d, r = m.slots.length + 1 - d ∧ FindInv hash m.slots key d s) ?_
    ⟨1, rfl, hstart⟩ (by omega)
  rintro r s ⟨d, rfl, hinv⟩
  refine (findRound_spec hinv ht hfew).mono ?_
  rintro (s' | ptr) hresult
  · have hle := hresult.le
    exact ⟨m.slots.length + 1 - (d + 1), by omega, d + 1, rfl, hresult⟩
  · exact hresult

end Find

/-! ### The other members -/

section Members

theorem valid_replicate [Inhabited K] [Inhabited V] {n : ℕ} (hn : ∃ k, n = 2 ^ k) :
    Valid hash (⟨List.replicate n emptySlot, 0⟩ : FlatHashMap K V) :=
  ⟨table_replicate hn, entryCount_replicate.symm⟩

theorem not_contains_replicate [Inhabited K] [Inhabited V] {n : ℕ} (key : K) (value : V) :
    ¬ Contains (List.replicate n (emptySlot : Slot K V)) key value :=
  fun ⟨_, _, he, _⟩ => not_entryAt_replicate he

variable {m : FlatHashMap K V}

theorem Valid.size_le (h : Valid hash m) : m.size ≤ m.slots.length := by
  rw [h.size]
  exact entryCount_le_length _

/-- The map `m'` has the entries of `m`. -/
structure Rehashed (hash : K → UInt64) (m m' : FlatHashMap K V) : Prop where
  valid : Valid hash m'
  size : m'.size = m.size
  contains : ∀ k v, Contains m'.slots k v ↔ Contains m.slots k v

/-- What holds while the entries are moved, with the old slots that were done. -/
structure RehashInv (hash : K → UInt64) (n : ℕ) (done : List (Slot K V)) (m' : FlatHashMap K V) :
    Prop where
  valid : Valid hash m'
  length : m'.slots.length = n
  size : m'.size = entryCount done
  contains : ∀ k v, Contains m'.slots k v ↔ Contains done k v

/-- A slot without an entry is skipped. -/
theorem RehashInv.skip {n : ℕ} {done : List (Slot K V)} {m' : FlatHashMap K V} {slot : Slot K V}
    (h : RehashInv hash n done m') (hempty : slot.probeDistance = 0) :
    RehashInv hash n (done ++ [slot]) m' := by
  refine ⟨h.valid, h.length, ?_, fun k v => ?_⟩
  · rw [entryCount_append_singleton, if_pos hempty]
    exact h.size
  · rw [h.contains, contains_iff_mem, contains_iff_mem]
    simp only [List.mem_append, List.mem_singleton, or_and_right, exists_or, exists_eq_left,
      hempty, ne_eq, not_true_eq_false, false_and, or_false]

variable [DecidableEq K]

/-- An entry is moved. -/
theorem RehashInv.move {n : ℕ} {done : List (Slot K V)} {m' : FlatHashMap K V} {slot : Slot K V}
    (h : RehashInv hash n done m') (he : slot.probeDistance ≠ 0)
    (habsent : Absent done slot.key) (hspace : entryCount done < n)
    (hfew : entryCount (done ++ [slot]) < 2 ^ 32) :
    Returns (insertHelper hash m' slot.key slot.value) fun result =>
      RehashInv hash n (done ++ [slot]) result.1 := by
  have hcount : entryCount (done ++ [slot]) = entryCount done + 1 := by
    rw [entryCount_append_singleton, if_neg he]
  have hsize := h.size
  -- the keys of the old table are distinct, so this one is not moved yet
  have habsent' : Absent m'.slots slot.key := by
    rw [absent_iff]
    intro v hv
    exact absent_iff.mp habsent v ((h.contains _ v).mp hv)
  have hspec := insertHelper_spec slot.key slot.value h.valid
    (by rw [h.length]; omega) (by omega) (fun _ => by omega)
  refine hspec.mono fun result hresult => ?_
  obtain ⟨hstored, hlength⟩ := hresult
  refine ⟨hstored.valid, hlength.trans h.length, ?_, fun k v => ?_⟩
  · rw [hstored.size_of_absent habsent', hsize, hcount]
  · rw [hstored.contains, h.contains, contains_iff_mem, contains_iff_mem]
    simp only [List.mem_append, List.mem_singleton, or_and_right, exists_or, exists_eq_left]
    by_cases hk : k = slot.key
    · have hnone : ¬ ∃ t ∈ done, t.probeDistance ≠ 0 ∧ t.key = k ∧ t.value = v := by
        rw [← contains_iff_mem, hk]
        exact absent_iff.mp habsent v
      simp only [hk, if_true, he, ne_eq, not_false_eq_true, true_and] at hnone ⊢
      simp only [hnone, false_or]
      exact eq_comm
    · simp only [if_neg hk, Ne.symm hk, false_and, and_false, or_false]

/-- Storing after rehashing is storing. -/
theorem Stored.of_rehashed {m₁ m' : FlatHashMap K V} {ptr : ℕ} (h : Stored hash m₁ key value m' ptr)
    (hm : Rehashed hash m m₁) : Stored hash m key value m' ptr := by
  have habsent : Absent m.slots key ↔ Absent m₁.slots key := by
    rw [absent_iff, absent_iff]
    exact forall_congr' fun v => not_congr (hm.contains key v).symm
  refine ⟨h.valid, h.holds, fun k v => ?_, fun hnot => ?_, fun hthere => ?_⟩
  · rw [h.contains, hm.contains]
  · rw [h.size_of_absent (habsent.mp hnot), hm.size]
  · rw [h.size_of_present (fun hnot => hthere (habsent.mpr hnot)), hm.size]

variable [Inhabited K] [Inhabited V]

/-- `rehash` to a larger power of two keeps the entries. -/
theorem rehash_spec (h : Valid hash m) {newCapacity : ℕ} (hpow : ∃ k, newCapacity = 2 ^ k)
    (hlarger : m.slots.length < newCapacity) (hfew : m.size < 2 ^ 32) :
    Returns (rehash hash m newCapacity) fun m' =>
      Rehashed hash m m' ∧ m'.slots.length = newCapacity := by
  have hloop : Returns (rehash hash m newCapacity) (RehashInv hash newCapacity m.slots) := by
    refine returns_foldlM _ ?_ ?_
    · intro done slot rest m' heq hinv
      by_cases hempty : slot.probeDistance = 0
      · rw [if_neg (not_not_intro hempty)]
        exact returns_pure (hinv.skip hempty)
      rw [if_pos hempty]
      -- the key of this slot is in no slot before it
      have hhere : EntryAt m.slots done.length slot := by
        refine ⟨?_, hempty⟩
        rw [heq, List.getElem?_append_right le_rfl, Nat.sub_self, List.getElem?_cons_zero]
      have habsent : Absent done slot.key := by
        intro i slot' he hkey
        have hthere : EntryAt m.slots i slot' := by
          refine ⟨?_, he.2⟩
          rw [heq, List.getElem?_append_left he.lt]
          exact he.1
        have hi := h.table.unique i done.length slot' slot hthere hhere hkey
        exact absurd he.lt (hi ▸ Nat.lt_irrefl _)
      have hlt := hhere.lt
      have hdone := entryCount_le_length done
      have hcount := entryCount_append_le (done ++ [slot]) rest
      rw [List.append_assoc, List.singleton_append, ← heq, ← h.size] at hcount
      exact (hinv.move hempty habsent (by omega) (by omega)).bind fun _ => returns_pure
    · refine ⟨valid_replicate hpow, List.length_replicate, rfl, fun k v => ?_⟩
      exact iff_of_false (not_contains_replicate k v) fun ⟨i, _, he, _⟩ => absurd he.lt (by simp)
  refine hloop.mono fun m' hm' => ⟨⟨hm'.valid, ?_, hm'.contains⟩, hm'.length⟩
  rw [hm'.size, h.size]

/-- `insert` makes room, so that the key finds a slot. -/
theorem insert_spec (h : Valid hash m) (hfew : m.size < 2 ^ 32)
    (hroom : Absent m.slots key → m.size + 1 < 2 ^ 32) :
    Returns (insert hash m key value) fun result =>
      Stored hash m key value result.1 result.2 := by
  have hpos := h.table.length_pos
  have hle := h.size_le
  rw [insert]
  -- a full table is rehashed into one of twice the size first
  by_cases hover : m.overloaded
  · obtain ⟨k, hk⟩ := h.table.powTwo
    have hdouble : m.slots.length * 2 = 2 ^ (k + 1) := by rw [hk, Nat.pow_succ]
    rw [if_pos hover]
    refine (rehash_spec h ⟨k + 1, hdouble⟩ (by omega) hfew).bind fun m₁ hm₁ => ?_
    obtain ⟨hrehashed, hlength⟩ := hm₁
    have hsize := hrehashed.size
    have hspec := insertHelper_spec key value hrehashed.valid
      (by omega) (by omega) fun habsent => ?_
    · exact hspec.mono fun result hresult => hresult.1.of_rehashed hrehashed
    · rw [hsize]
      refine hroom (absent_iff.mpr fun v hv => ?_)
      exact absent_iff.mp habsent v ((hrehashed.contains key v).mpr hv)
  · have hspace : m.size < m.slots.length := by
      simp only [overloaded, decide_eq_true_eq] at hover
      omega
    rw [if_neg hover]
    exact (insertHelper_spec key value h hspace hfew hroom).mono fun result hresult => hresult.1

/-- `emplace` is `insert` of the value it makes. -/
theorem emplace_eq_insert : emplace hash m key value = insert hash m key value := rfl

/-- `reserve` keeps the entries. -/
theorem reserve_spec (h : Valid hash m) (hfew : m.size < 2 ^ 32) (quotient : ℕ → ℕ)
    (capacity : ℕ) :
    Returns (reserve hash quotient m capacity) (Rehashed hash m) := by
  rw [reserve]
  by_cases hlarger : m.slots.length < bitCeil (quotient capacity + 1)
  · rw [if_pos hlarger]
    exact (rehash_spec h (exists_bitCeil_eq _) hlarger hfew).mono fun m' hm' => hm'.1
  · rw [if_neg hlarger]
    exact returns_pure ⟨h, rfl, fun k v => Iff.rfl⟩

end Members

/-! ### Runs -/

section Runs

/-- The calls on a map. -/
inductive Op (K V : Type) where
  | insert (key : K) (value : V)
  | emplace (key : K) (value : V)
  | reserve (capacity : ℕ)
  | find (key : K)
  deriving DecidableEq

/-- The key of a call that returns a pointer. -/
def Op.key? : Op K V → Option K
  | .insert key _ => some key
  | .emplace key _ => some key
  | .reserve _ => none
  | .find key => some key

/-- What a call stores. -/
def Op.stored? : Op K V → Option (K × V)
  | .insert key value => some (key, value)
  | .emplace key value => some (key, value)
  | .reserve _ => none
  | .find _ => none

variable [DecidableEq K]

/-- What the calls stored, the last one first. -/
def stored (ops : List (Op K V)) : List (K × V) := (ops.filterMap Op.stored?).reverse

/-- The value that was stored last for a key. -/
def contents (ops : List (Op K V)) (key : K) : Option V := (stored ops).lookup key

/-- The keys that were stored. -/
def storedKeys (ops : List (Op K V)) : Finset K := ((stored ops).map Prod.fst).toFinset

variable [Inhabited K] [Inhabited V] (hash : K → UInt64) (quotient : ℕ → ℕ)

/-- One call: the map after it, and the pointer it returns. -/
def Op.run (m : FlatHashMap K V) : Op K V → Fueled (FlatHashMap K V × Option ℕ)
  | .insert key value => do
    let (m, ptr) ← FlatHashMap.insert hash m key value
    return (m, some ptr)
  | .emplace key value => do
    let (m, ptr) ← FlatHashMap.emplace hash m key value
    return (m, some ptr)
  | .reserve capacity => do
    let m ← FlatHashMap.reserve hash quotient m capacity
    return (m, none)
  | .find key => do
    let ptr ← FlatHashMap.find hash m key
    return (m, ptr)

/-- The calls on a constructed map: the map after them, and the pointer that the last one
returns. -/
def runOps (capacity : ℕ) (ops : List (Op K V)) : Fueled (FlatHashMap K V × Option ℕ) :=
  ops.foldlM (fun s op => op.run hash quotient s.1) (create capacity, none)

/-- The calls return, and after them the map is the finite map of what they stored. -/
def IsMap (capacity : ℕ) (ops : List (Op K V)) : Prop :=
  Returns (runOps hash quotient capacity ops) fun result =>
    Table hash result.1.slots ∧
    (∀ key value, Contains result.1.slots key value ↔ contents ops key = some value) ∧
    result.1.size = (storedKeys ops).card ∧
    (∀ key, Returns (FlatHashMap.find hash result.1 key) fun ptr =>
      Addresses result.1.slots ptr key (contents ops key)) ∧
    ∀ op key, ops.getLast? = some op → op.key? = some key →
      Addresses result.1.slots result.2 key (contents ops key)

end Runs

/-! ### What the calls store -/

section Contents

variable {ops : List (Op K V)} {op : Op K V}

theorem stored_append (h : op.stored? = some (key, value)) :
    stored (ops ++ [op]) = (key, value) :: stored ops := by
  rw [stored, List.filterMap_append, List.filterMap_cons_some h, List.reverse_append]
  rfl

theorem stored_append_none (h : op.stored? = none) : stored (ops ++ [op]) = stored ops := by
  rw [stored, List.filterMap_append, List.filterMap_cons_none h, List.filterMap_nil,
    List.append_nil]
  rfl

variable [DecidableEq K]

theorem contents_append (h : op.stored? = some (key, value)) (k : K) :
    contents (ops ++ [op]) k = if k = key then some value else contents ops k := by
  rw [contents, stored_append h, List.lookup_cons]
  split_ifs with hk
  · rw [hk, beq_self_eq_true]
  · rw [beq_false_of_ne hk]
    rfl

theorem contents_append_none (h : op.stored? = none) (k : K) :
    contents (ops ++ [op]) k = contents ops k := by
  rw [contents, stored_append_none h]
  rfl

theorem storedKeys_append (h : op.stored? = some (key, value)) :
    storedKeys (ops ++ [op]) = Insert.insert key (storedKeys ops) := by
  rw [storedKeys, stored_append h, List.map_cons, List.toFinset_cons]
  rfl

theorem storedKeys_append_none (h : op.stored? = none) :
    storedKeys (ops ++ [op]) = storedKeys ops := by
  rw [storedKeys, stored_append_none h]
  rfl

theorem contents_eq_none_iff : contents ops key = none ↔ key ∉ storedKeys ops := by
  rw [contents, List.lookup_eq_none_iff, storedKeys, List.mem_toFinset, List.mem_map]
  constructor
  · rintro hall ⟨pair, hmem, rfl⟩
    exact absurd (hall pair hmem) (by simp)
  · intro hnot pair hmem
    exact bne_iff_ne.mpr fun heq => hnot ⟨pair, hmem, heq.symm⟩

/-- Storing more only adds keys. -/
theorem storedKeys_subset (ops rest : List (Op K V)) :
    storedKeys ops ⊆ storedKeys (ops ++ rest) := by
  intro key hkey
  simp only [storedKeys, stored, List.mem_toFinset, List.mem_map, List.mem_reverse,
    List.filterMap_append, List.mem_append] at hkey ⊢
  obtain ⟨pair, hmem, heq⟩ := hkey
  exact ⟨pair, .inl hmem, heq⟩

end Contents

/-! ### The finite map -/

section FiniteMap

variable [DecidableEq K] {ops : List (Op K V)} {op : Op K V} {m : FlatHashMap K V}
  {ptr : Option ℕ}

/-- The entries are what the calls stored. -/
structure Represents (hash : K → UInt64) (ops : List (Op K V)) (m : FlatHashMap K V) : Prop where
  valid : Valid hash m
  contains : ∀ key value, Contains m.slots key value ↔ contents ops key = some value
  size : m.size = (storedKeys ops).card

theorem Represents.absent_iff (h : Represents hash ops m) :
    Absent m.slots key ↔ key ∉ storedKeys ops := by
  rw [FlatHashMap.absent_iff, ← contents_eq_none_iff, Option.eq_none_iff_forall_ne_some]
  exact forall_congr' fun v => not_congr (h.contains key v)

theorem Represents.addresses (h : Represents hash ops m) (hi : HoldsAt m.slots i key value) :
    Addresses m.slots (some i) key (contents ops key) := by
  obtain ⟨slot, he, hkey, hvalue⟩ := hi
  rw [(h.contains key value).mp ⟨i, slot, he, hkey, hvalue⟩]
  exact ⟨i, rfl, slot, he, hkey, hvalue⟩

/-- The result of `find` is the slot of the value that was stored last. -/
theorem Represents.addresses_find (h : Represents hash ops m)
    (hptr : (ptr = none ∧ Absent m.slots key) ∨
      ∃ i value, ptr = some i ∧ HoldsAt m.slots i key value) :
    Addresses m.slots ptr key (contents ops key) := by
  rcases hptr with ⟨rfl, habsent⟩ | ⟨i, value, rfl, hholds⟩
  · rw [contents_eq_none_iff.mpr (h.absent_iff.mp habsent)]
    rfl
  · exact h.addresses hholds

/-- A call that stores. -/
theorem Represents.store (h : Represents hash ops m) (hop : op.stored? = some (key, value))
    {m' : FlatHashMap K V} {i : ℕ} (hm' : Stored hash m key value m' i) :
    Represents hash (ops ++ [op]) m' := by
  refine ⟨hm'.valid, fun k v => ?_, ?_⟩
  · rw [hm'.contains, contents_append hop]
    split_ifs with hk
    · exact ⟨fun heq => congrArg some heq.symm, fun heq => (Option.some.inj heq).symm⟩
    · exact h.contains k v
  · rw [storedKeys_append hop]
    by_cases hmem : key ∈ storedKeys ops
    · rw [Finset.insert_eq_of_mem hmem, ← h.size]
      exact hm'.size_of_present fun habsent => h.absent_iff.mp habsent hmem
    · rw [Finset.card_insert_of_notMem hmem, ← h.size]
      exact hm'.size_of_absent (h.absent_iff.mpr hmem)

/-- A call that stores nothing. -/
theorem Represents.keep (h : Represents hash ops m) (hop : op.stored? = none)
    {m' : FlatHashMap K V} (hm' : Rehashed hash m m') : Represents hash (ops ++ [op]) m' := by
  refine ⟨hm'.valid, fun k v => ?_, ?_⟩
  · rw [hm'.contains, contents_append_none hop, h.contains]
  · rw [storedKeys_append_none hop, hm'.size, h.size]

variable [Inhabited K] [Inhabited V] (quotient : ℕ → ℕ)

/-- Storing returns a pointer to the value, when the keys are few. -/
theorem Represents.insert (h : Represents hash ops m) (hop : op.stored? = some (key, value))
    (hfew : (storedKeys (ops ++ [op])).card < 2 ^ 32) :
    Returns (FlatHashMap.insert hash m key value) fun result =>
      Represents hash (ops ++ [op]) result.1 ∧
        Addresses result.1.slots (some result.2) key (contents (ops ++ [op]) key) := by
  have hle := Finset.card_le_card (storedKeys_subset ops [op])
  have hsize := h.size
  refine (insert_spec h.valid (by omega) fun habsent => ?_).mono fun result hresult => ?_
  · rw [storedKeys_append hop,
      Finset.card_insert_of_notMem (h.absent_iff.mp habsent), ← hsize] at hfew
    exact hfew
  · have hnext := h.store hop hresult
    exact ⟨hnext, hnext.addresses hresult.holds⟩

/-- A call keeps the map, and returns the pointer it is asked for. -/
theorem Represents.run (h : Represents hash ops m)
    (hfew : (storedKeys (ops ++ [op])).card < 2 ^ 32) :
    Returns (op.run hash quotient m) fun result =>
      Represents hash (ops ++ [op]) result.1 ∧ ∀ key, op.key? = some key →
        Addresses result.1.slots result.2 key (contents (ops ++ [op]) key) := by
  have hle := Finset.card_le_card (storedKeys_subset ops [op])
  have hsize := h.size
  cases op with
  | insert key value =>
    have hop : (Op.insert key value).stored? = some (key, value) := rfl
    refine (h.insert hop hfew).bind fun result hresult => ?_
    refine returns_pure ⟨hresult.1, ?_⟩
    rintro _ ⟨⟩
    exact hresult.2
  | emplace key value =>
    have hop : (Op.emplace key value).stored? = some (key, value) := rfl
    refine (h.insert hop hfew).bind fun result hresult => ?_
    refine returns_pure ⟨hresult.1, ?_⟩
    rintro _ ⟨⟩
    exact hresult.2
  | reserve capacity =>
    refine (reserve_spec h.valid (by omega) quotient capacity).bind fun m' hm' => ?_
    refine returns_pure ⟨h.keep rfl hm', ?_⟩
    rintro _ ⟨⟩
  | find key =>
    have hcount : entryCount m.slots < 2 ^ 32 := by
      rw [← h.valid.size]
      omega
    have hnext : Represents hash (ops ++ [.find key]) m :=
      h.keep rfl ⟨h.valid, rfl, fun _ _ => Iff.rfl⟩
    refine (find_spec h.valid.table hcount).bind fun ptr hptr => ?_
    refine returns_pure ⟨hnext, ?_⟩
    rintro _ ⟨⟩
    exact hnext.addresses_find hptr

theorem represents_create (capacity : ℕ) :
    Represents hash ([] : List (Op K V)) (create capacity) := by
  refine ⟨valid_replicate (exists_bitCeil_eq _), fun k v => ?_, rfl⟩
  exact iff_of_false (not_contains_replicate k v) (Option.some_ne_none v).symm

/-- **Finite map.** Whatever the hash function, the initial capacity and the calls, as long as fewer
than 2³² keys are stored, all calls return, `find` gives the slot of the value stored last, the size
is the number of keys, and a pointer addresses the slot of its key; the slots are a table. -/
theorem isMap_of_few (hash : K → UInt64) (quotient : ℕ → ℕ) (capacity : ℕ) (ops : List (Op K V))
    (hfew : (storedKeys ops).card < 2 ^ 32) : IsMap hash quotient capacity ops := by
  have hrun : Returns (runOps hash quotient capacity ops) fun result =>
      Represents hash ops result.1 ∧ ∀ op key, ops.getLast? = some op → op.key? = some key →
        Addresses result.1.slots result.2 key (contents ops key) := by
    -- induction over the calls; the keys stored so far are among those stored at the end
    refine returns_foldlM (fun done (result : FlatHashMap K V × Option ℕ) =>
      Represents hash done result.1 ∧ ∀ op key, done.getLast? = some op → op.key? = some key →
        Addresses result.1.slots result.2 key (contents done key)) ?_ ?_
    · intro done op rest result heq hinv
      have hle := Finset.card_le_card (storedKeys_subset (done ++ [op]) rest)
      rw [List.append_assoc, List.singleton_append, ← heq] at hle
      refine (hinv.1.run quotient (Nat.lt_of_le_of_lt hle hfew)).mono fun result' hnext => ?_
      refine ⟨hnext.1, fun op' key hlast => ?_⟩
      rw [List.getLast?_concat] at hlast
      cases hlast
      exact hnext.2 key
    · refine ⟨represents_create capacity, fun op key hlast => ?_⟩
      exact absurd hlast (by simp)
  refine hrun.mono fun result hresult => ?_
  obtain ⟨hmap, hptr⟩ := hresult
  have hcount : entryCount result.1.slots < 2 ^ 32 := by
    rw [← hmap.valid.size, hmap.size]
    exact hfew
  refine ⟨hmap.valid.table, hmap.contains, hmap.size, fun key => ?_, hptr⟩
  exact (find_spec hmap.valid.table hcount).mono fun ptr hfound => hmap.addresses_find hfound

/-- Entries that are displaced, a map that grows twice, and a value that is replaced. -/
theorem isMap_collisions : IsMap (fun k : ℕ => if k = 3 then 1 else 0) (fun c => c * 4 / 3) 1
    [.insert 3 30, .insert 1 10, .emplace 2 20, .insert 1 11, .reserve 9, .find 2] :=
  isMap_of_few _ _ 1 _ (by decide)

end FiniteMap

/-! ### Too many keys -/

section Overflow

/-- Calls that store the first `n` numbers. -/
def storeRange (n : ℕ) : List (Op ℕ ℕ) := (List.range n).map fun k => .insert k k

/-- The slots after `n` keys of one home were stored in order. -/
structure Crowded (N n : ℕ) (slots : List (Slot ℕ ℕ)) : Prop where
  length : slots.length = N
  filled : ∀ i < n, slots[i]? = some ⟨i, i, UInt32.ofNat (i + 1)⟩
  unused : ∀ i, n ≤ i → i < N → slots[i]? = some emptySlot

variable {N n k : ℕ} {slots : List (Slot ℕ ℕ)}

/-- Another key passes them all, and takes the slot after them. -/
theorem Crowded.insertHelper (h : Crowded N n slots) (hN : N = 2 ^ k) (hn : n < 2 ^ 32)
    (hlt : n < N) :
    Returns (insertHelper (fun _ => 0) ⟨slots, n⟩ n n) fun result =>
      Crowded N (n + 1) result.1.slots ∧ result.1.size = n + 1 := by
  have hmask : ∀ x, x &&& (slots.length - 1) = x % N := by
    intro x
    rw [h.length, hN, Nat.and_two_pow_sub_one_eq_mod]
  -- all keys have the home 0, so the probe walks past every one of them
  have hloop : Returns (loop insertRound (slots.length + 1) ⟨slots, 0, n, n, 1, none⟩)
      fun result => result.1 = slots.set n ⟨n, n, UInt32.ofNat (n + 1)⟩ ∧ result.2.1 = true := by
    -- after `i` rounds the probe is at slot `i` at distance `i + 1`
    refine returns_loop (fun s => ∃ i ≤ n, s = ⟨slots, i, n, n, UInt32.ofNat (i + 1), none⟩)
      (fun s => n - s.idx) ?_ ⟨0, Nat.zero_le n, rfl⟩ ?_
    · rintro _ ⟨i, hi, rfl⟩
      rcases Nat.lt_or_eq_of_le hi with hpassed | rfl
      · have hne : UInt32.ofNat (i + 1) ≠ 0 := by
          intro hzero
          have hnat := congrArg UInt32.toNat hzero
          rw [UInt32.toNat_ofNat', Nat.mod_eq_of_lt (by omega)] at hnat
          exact absurd hnat (Nat.succ_ne_zero i)
        refine ⟨.inl ⟨slots, i + 1, n, n, UInt32.ofNat (i + 1 + 1), none⟩, ?_, ?_⟩
        · rw [insertRound, slotAt, h.filled i hpassed]
          refine (if_neg hne).trans ((if_neg hpassed.ne).trans ?_)
          refine (if_neg (UInt32.lt_irrefl _)).trans ?_
          dsimp only
          rw [hmask, Nat.mod_eq_of_lt (by omega), UInt32.ofNat_add (i + 1) 1]
          rfl
        · exact ⟨⟨i + 1, hpassed, rfl⟩, by dsimp only; omega⟩
      · refine ⟨.inr (slots.set i ⟨i, i, UInt32.ofNat (i + 1)⟩, true, i), ?_, rfl, rfl⟩
        rw [insertRound, slotAt, h.unused i le_rfl hlt]
        rfl
    · dsimp only
      rw [h.length]
      omega
  rw [FlatHashMap.insertHelper, hmask]
  refine hloop.bind fun result hresult => ?_
  obtain ⟨slots', added, ptr⟩ := result
  obtain ⟨rfl, rfl⟩ := hresult
  refine returns_pure ⟨⟨?_, fun i hi => ?_, fun i hge hi => ?_⟩, rfl⟩
  · rw [List.length_set, h.length]
  · rcases Nat.lt_or_eq_of_le (Nat.le_of_lt_succ hi) with hold | rfl
    · rw [List.getElem?_set_ne hold.ne', h.filled i hold]
    · rw [List.getElem?_set_self (by rw [h.length]; exact hlt)]
  · rw [List.getElem?_set_ne (by omega), h.unused i (by omega) hi]

theorem storeRange_succ (n : ℕ) : storeRange (n + 1) = storeRange n ++ [.insert n n] := by
  rw [storeRange, List.range_succ, List.map_append]
  rfl

theorem contents_storeRange {i : ℕ} (h : i < n) : contents (storeRange n) i = some i := by
  induction n with
  | zero => exact absurd h (Nat.not_lt_zero i)
  | succ n ih =>
    rw [storeRange_succ, contents_append rfl]
    split_ifs with hi
    · rw [hi]
    · exact ih (by omega)

/-- The keys go side by side while the table is not overloaded. -/
theorem crowded_storeRange {capacity : ℕ} (hcapacity : 2 ^ 33 ≤ capacity) (hn : n ≤ 2 ^ 32) :
    Returns (runOps (fun _ => 0) id capacity (storeRange n)) fun result =>
      Crowded (bitCeil capacity) n result.1.slots ∧ result.1.size = n := by
  have hceil := le_bitCeil capacity
  obtain ⟨k, hk⟩ := exists_bitCeil_eq capacity
  induction n with
  | zero =>
    refine returns_pure ⟨⟨?_, fun i hi => absurd hi (Nat.not_lt_zero i), fun i _ hi => ?_⟩, rfl⟩
    · rw [create, if_neg (by omega), List.length_replicate]
    · rw [create, if_neg (by omega), List.getElem?_replicate, if_pos hi]
  | succ n ih =>
    rw [storeRange_succ, runOps, List.foldlM_append]
    refine (ih (by omega)).bind fun result hresult => ?_
    obtain ⟨⟨slots, size⟩, ptr⟩ := result
    obtain ⟨hcrowded, hsize⟩ := hresult
    obtain rfl : size = n := hsize
    -- the table never grows: 2^33 slots for at most 2^32 keys
    have hlight : ¬ overloaded (⟨slots, size⟩ : FlatHashMap ℕ ℕ) := by
      simp only [overloaded, hcrowded.length, decide_eq_true_eq]
      omega
    have hinsert := hcrowded.insertHelper hk (by omega) (by omega)
    rw [List.foldlM_cons, Op.run, FlatHashMap.insert, if_neg hlight]
    refine Returns.bind (P := fun result => Crowded (bitCeil capacity) (size + 1) result.1.slots ∧
      result.1.size = size + 1) ?_ fun result hresult => returns_pure hresult
    exact hinsert.bind fun result hresult => returns_pure hresult

/-- With 2³² keys of one home, the last one gets the distance 0 and is lost. -/
theorem not_isMap_storeRange :
    ¬ IsMap (fun _ : ℕ => 0) id (2 ^ 33) (storeRange (2 ^ 32)) := by
  rintro ⟨result, hrun, -, hcontains, -⟩
  obtain ⟨result', hrun', hcrowded, -⟩ := crowded_storeRange (n := 2 ^ 32) le_rfl le_rfl
  obtain rfl : result = result' := Except.ok.inj (hrun.symm.trans hrun')
  obtain ⟨i, slot, he, hkey, -⟩ := (hcontains (2 ^ 32 - 1) (2 ^ 32 - 1)).mpr
    (contents_storeRange (by omega))
  have hi := hcrowded.length ▸ he.lt
  rcases Nat.lt_or_ge i (2 ^ 32) with hlt | hge
  · -- its slot has a distance that wrapped
    obtain rfl := Option.some.inj ((hcrowded.filled i hlt).symm.trans he.1)
    apply he.2
    have hlast : i = 2 ^ 32 - 1 := hkey
    rw [hlast]
    rfl
  · obtain rfl := Option.some.inj ((hcrowded.unused i hge hi).symm.trans he.1)
    exact he.2 rfl

end Overflow

end FlatHashMap

end Cob
