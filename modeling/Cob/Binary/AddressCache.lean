import Cob.Binary.RoundTrip
import Cob.Executor.ReadyQueue
import Cob.Lib.Fueled
import Cob.Lib.LinearProbing

/-!
# The address cache

`AddressCache`, a table of pool references keyed by the address and the length of a string, and
`emitBin` with the lookups in it. The addresses of the strings are arbitrary.

* `AddressCache.insert`, `AddressCache.find` — the members;
* `AddressCache.Sound` — a table that can be probed, with a free slot;
* `returns_find`, `returns_insert` — both end, and what they do to the entries;
* `emitBinAt` — the file when inputs are resolved by their addresses;
* `emitBinAt_eq` — it is the file of inputs that are all resolved by the pool.
-/

namespace Cob

namespace CacheFile

open Fueled LinearProbing

/-- A `std::string_view`: the address of its bytes, null for 0, and the bytes. -/
structure View where
  data : UInt64
  bytes : Bytes
  deriving DecidableEq

/-- What the cache compares: the address and the length. -/
def View.key (v : View) : UInt64 × ℕ := (v.data, v.bytes.length)

/-- `AddressCache::Slot`; a null address means empty. -/
structure AddressCache.Slot where
  data : UInt64
  size : ℕ
  ref : StringRef

/-- `AddressCache`. -/
structure AddressCache where
  slots : List AddressCache.Slot
  used : ℕ
  shift : ℕ

/-- `std::countr_zero` of a number that is not zero. -/
def countrZero (n : ℕ) : ℕ := (List.range n).findIdx n.testBit

namespace AddressCache

/-- A slot that was never used. -/
def emptySlot : Slot := ⟨0, 0, ⟨0, 0⟩⟩

/-- The constructor. -/
def create (capacity : ℕ) : AddressCache :=
  let slots := List.replicate (bitCeil (capacity * 2 + 2)) emptySlot
  ⟨slots, 0, 64 - countrZero slots.length⟩

/-- `index`: Fibonacci hashing of an address. -/
def index (shift : ℕ) (data : UInt64) : ℕ := (data * 0x9E3779B97F4A7C15).toNat >>> shift

/-- `(idx + 1) & (slots.size() - 1)`. -/
def nextIdx (c : AddressCache) (idx : ℕ) : ℕ := (idx + 1) &&& (c.slots.length - 1)

/-- One round of the loop of `insert`. -/
def insertRound (v : View) (ref : StringRef) (c : AddressCache) (idx : ℕ) :
    Fueled (ℕ ⊕ AddressCache) :=
  match c.slots[idx]? with
  | none => .error .outOfBounds
  | some slot =>
    if slot.data = 0 then
      pure (.inr { c with
        slots := c.slots.set idx ⟨v.data, v.bytes.length, ref⟩
        used := c.used + 1 })
    else if slot.data = v.data ∧ slot.size = v.bytes.length then pure (.inr c)
    else pure (.inl (c.nextIdx idx))

/-- `insert`, which refuses a null address, and any string when half of the slots are in use. A
round for each slot suffices. -/
def insert (c : AddressCache) (v : View) (ref : StringRef) : Fueled AddressCache :=
  if v.data = 0 ∨ c.used + 1 ≥ c.slots.length / 2 then pure c
  else loop (insertRound v ref c) (c.slots.length + 1) (index c.shift v.data)

/-- One round of the loop of `find`. -/
def findRound (v : View) (c : AddressCache) (idx : ℕ) : Fueled (ℕ ⊕ Option StringRef) :=
  match c.slots[idx]? with
  | none => .error .outOfBounds
  | some slot =>
    if slot.data = 0 then pure (.inr none)
    else if slot.data = v.data ∧ slot.size = v.bytes.length then pure (.inr (some slot.ref))
    else pure (.inl (c.nextIdx idx))

/-- `find`. -/
def find (c : AddressCache) (v : View) : Fueled (Option StringRef) :=
  if v.data = 0 then pure none
  else loop (findRound v c) (c.slots.length + 1) (index c.shift v.data)

/-- Several calls of `insert`. -/
def insertAll (c : AddressCache) (entries : List (View × StringRef)) : Fueled AddressCache :=
  entries.foldlM (fun c e => c.insert e.1 e.2) c

/-! ### The table -/

/-- The entry in a slot. -/
def Slot.entry (s : Slot) : Option ((UInt64 × ℕ) × StringRef) :=
  if s.data = 0 then none else some ((s.data, s.size), s.ref)

/-- The entries by their slots. -/
def entryAt (c : AddressCache) (i : ℕ) : Option ((UInt64 × ℕ) × StringRef) :=
  c.slots[i]?.bind Slot.entry

/-- The home of a key. -/
def home (c : AddressCache) (key : UInt64 × ℕ) : ℕ := index c.shift key.1

/-- The cache has a reference for a key. -/
def Holds (c : AddressCache) (key : UInt64 × ℕ) (ref : StringRef) : Prop :=
  ∃ i < c.slots.length, c.entryAt i = some (key, ref)

/-- A table that can be probed. -/
structure Sound (c : AddressCache) : Prop where
  /-- a power of two of slots, which the index does not exceed -/
  size : ∃ k, c.slots.length = 2 ^ k ∧ c.shift = 64 - k
  clustered : Clustered c.slots.length c.home c.entryAt
  used : c.used = c.slots.countP fun s => s.data ≠ 0
  /-- a slot is free -/
  room : c.used < c.slots.length

section Table

variable {c : AddressCache} {v : View} {ref : StringRef}

theorem countrZero_two_pow (k : ℕ) : countrZero (2 ^ k) = k := by
  have hlt : k < (List.range (2 ^ k)).length := by
    rw [List.length_range]
    exact Nat.lt_two_pow_self
  rw [countrZero, List.findIdx_eq hlt]
  constructor
  · simp [Nat.testBit_two_pow_self]
  · intro j hj
    rw [List.getElem_range]
    exact Nat.testBit_two_pow_of_ne (by omega)

/-- The index stays inside the table. -/
theorem Sound.index_lt (h : c.Sound) (data : UInt64) : index c.shift data < c.slots.length := by
  obtain ⟨k, hlen, hshift⟩ := h.size
  have hword := (data * 0x9E3779B97F4A7C15).toNat_lt
  rw [index, hlen, hshift, Nat.shiftRight_eq_div_pow]
  rcases Nat.le_total k 64 with hk | hk
  · rw [Nat.div_lt_iff_lt_mul (Nat.two_pow_pos _), ← Nat.pow_add, Nat.add_sub_cancel' hk]
    exact hword
  · rw [Nat.sub_eq_zero_of_le hk, Nat.pow_zero, Nat.div_one]
    exact hword.trans_le (Nat.pow_le_pow_right (by decide) hk)

/-- The next index goes around the table. -/
theorem Sound.nextIdx_eq (h : c.Sound) (idx : ℕ) : c.nextIdx idx = (idx + 1) % c.slots.length := by
  obtain ⟨k, hlen, _⟩ := h.size
  rw [nextIdx, hlen, Nat.and_two_pow_sub_one_eq_mod]

/-- Fewer entries than slots leave a slot free. -/
theorem Sound.free (h : c.Sound) : ∃ i < c.slots.length, c.entryAt i = none := by
  have hroom := h.room
  rw [h.used] at hroom
  by_contra hall
  push Not at hall
  have hcount : c.slots.countP (fun s => decide (s.data ≠ 0)) = c.slots.length := by
    rw [List.countP_eq_length]
    intro s hs
    obtain ⟨i, hi, rfl⟩ := List.mem_iff_getElem.mp hs
    have hentry := hall i hi
    rw [entryAt, List.getElem?_eq_getElem hi, Option.bind_some, Slot.entry] at hentry
    by_contra hzero
    exact hentry (if_pos (by simpa using hzero))
  omega

/-- A new cache is empty. -/
theorem sound_create (capacity : ℕ) : (create capacity).Sound := by
  obtain ⟨k, hk⟩ := exists_bitCeil_eq (capacity * 2 + 2)
  have hone := one_le_bitCeil (capacity * 2 + 2)
  have hlen : (create capacity).slots.length = bitCeil (capacity * 2 + 2) := by
    simp [create]
  refine ⟨⟨k, by rw [hlen, hk], ?_⟩, ?_, ?_, ?_⟩
  · simp [create, hk, countrZero_two_pow]
  · have hnone : (create capacity).entryAt = fun _ => none := by
      funext i
      rw [entryAt, create, List.getElem?_replicate]
      split_ifs <;> rfl
    rw [hnone]
    exact clustered_none
  · simp [create, List.countP_replicate, emptySlot]
  · rw [hlen]
    exact hone

/-- A slot is empty, or holds the entry of its key. -/
theorem slot_cases {i : ℕ} (hi : i < c.slots.length) :
    ∃ slot, c.slots[i]? = some slot ∧
      (slot.data = 0 ∧ c.entryAt i = none ∨
        slot.data ≠ 0 ∧ c.entryAt i = some ((slot.data, slot.size), slot.ref)) := by
  have hget := List.getElem?_eq_getElem hi
  refine ⟨c.slots[i], hget, ?_⟩
  rw [entryAt, hget, Option.bind_some, Slot.entry]
  by_cases hzero : c.slots[i].data = 0
  · exact .inl ⟨hzero, if_pos hzero⟩
  · exact .inr ⟨hzero, if_neg hzero⟩

/-- Nothing is held for a null address. -/
theorem Holds.data_ne_zero {key : UInt64 × ℕ} (h : c.Holds key ref) : key.1 ≠ 0 := by
  obtain ⟨i, hi, hentry⟩ := h
  obtain ⟨slot, _, ⟨_, hnone⟩ | ⟨hdata, hsome⟩⟩ := slot_cases hi
  · rw [hnone] at hentry
    cases hentry
  · rw [hsome] at hentry
    cases hentry
    exact hdata

/-- The state of a probe for a key: after `t` steps that met other keys there are `n - t` left. -/
def Probing (c : AddressCache) (key : UInt64 × ℕ) (rank idx : ℕ) : Prop :=
  ∃ t, rank = c.slots.length - t ∧ idx = probe c.slots.length c.home key t ∧
    Passed c.slots.length c.home c.entryAt key t

/-- A probe begins at the home of the key. -/
theorem Sound.probing (h : c.Sound) (v : View) :
    c.Probing v.key c.slots.length (index c.shift v.data) := by
  refine ⟨0, (Nat.sub_zero _).symm, ?_, passed_zero⟩
  rw [probe, Nat.add_zero, home, View.key, Nat.mod_eq_of_lt (h.index_lt v.data)]

/-- What a probe meets: a free slot, its key, or another key, behind which it goes on. -/
theorem Sound.probe_cases (h : c.Sound) {rank idx : ℕ} (hp : c.Probing v.key rank idx) :
    idx < c.slots.length ∧ ∃ slot, c.slots[idx]? = some slot ∧
      (slot.data = 0 ∧ c.entryAt idx = none ∨
        slot.data ≠ 0 ∧ c.entryAt idx = some ((slot.data, slot.size), slot.ref) ∧
          (slot.data = v.data ∧ slot.size = v.bytes.length ∨
            ¬ (slot.data = v.data ∧ slot.size = v.bytes.length) ∧
              ∃ rank' < rank, c.Probing v.key rank' (c.nextIdx idx))) := by
  obtain ⟨t, rfl, rfl, hpassed⟩ := hp
  have hlt := hpassed.lt h.free
  have hidx : probe c.slots.length c.home v.key t < c.slots.length := probe_lt (by omega)
  refine ⟨hidx, ?_⟩
  obtain ⟨slot, hslot, hempty | ⟨hdata, hentry⟩⟩ := slot_cases hidx
  · exact ⟨slot, hslot, .inl hempty⟩
  refine ⟨slot, hslot, .inr ⟨hdata, hentry, ?_⟩⟩
  by_cases hkey : slot.data = v.data ∧ slot.size = v.bytes.length
  · exact .inl hkey
  · have hne : (slot.data, slot.size) ≠ v.key := fun heq => hkey (Prod.ext_iff.mp heq)
    refine .inr ⟨hkey, c.slots.length - (t + 1), by omega, t + 1, rfl, ?_, hpassed.succ hentry hne⟩
    rw [h.nextIdx_eq, probe_succ]

/-- **Lookups end**, and find what the cache holds. -/
theorem returns_find (h : c.Sound) (v : View) :
    Returns (c.find v) fun r => ∀ ref, r = some ref ↔ c.Holds v.key ref := by
  unfold find
  by_cases hnull : v.data = 0
  · rw [if_pos hnull]
    refine ⟨none, rfl, fun ref => ⟨nofun, fun hheld => absurd hnull hheld.data_ne_zero⟩⟩
  rw [if_neg hnull]
  refine returns_loop_rank (c.Probing v.key) ?_ (h.probing v) (Nat.lt_succ_self _)
  intro rank idx hp
  obtain ⟨hidx, slot, hslot, ⟨hzero, hnone⟩ | ⟨hdata, hentry, hkey | ⟨hkey, hnext⟩⟩⟩ :=
    h.probe_cases hp
  · -- a free slot: the key is nowhere
    rw [findRound, hslot]
    dsimp only
    rw [if_pos hzero]
    obtain ⟨t, _, rfl, hpassed⟩ := hp
    refine ⟨_, rfl, fun ref => ⟨nofun, fun ⟨i, hi, hheld⟩ => ?_⟩⟩
    exact absurd hheld (h.clustered.not_mem hpassed hnone hi)
  · rw [findRound, hslot]
    dsimp only
    rw [if_neg hdata, if_pos hkey]
    rw [hkey.1, hkey.2] at hentry
    refine ⟨_, rfl, fun ref => ⟨?_, fun ⟨i, hi, hheld⟩ => ?_⟩⟩
    · rintro ⟨⟩
      exact ⟨idx, hidx, hentry⟩
    · obtain rfl := h.clustered.unique hidx hi hentry hheld
      rw [hentry] at hheld
      cases hheld
      rfl
  · rw [findRound, hslot]
    dsimp only
    rw [if_neg hdata, if_neg hkey]
    exact ⟨_, rfl, hnext⟩

/-- What an insertion leaves: the entries, and the new one when it was accepted and its key is
new. -/
structure Inserted (c : AddressCache) (v : View) (ref : StringRef) (c' : AddressCache) : Prop where
  sound : c'.Sound
  length : c'.slots.length = c.slots.length
  used_le : c'.used ≤ c.used + 1
  holds_iff : ∀ key r, c'.Holds key r ↔ c.Holds key r ∨
    (v.data ≠ 0 ∧ c.used + 1 < c.slots.length / 2) ∧ key = v.key ∧ r = ref ∧
      ∀ r', ¬ c.Holds v.key r'

/-- Nothing is inserted when there is an entry, or the string is refused. -/
theorem Sound.inserted_self (h : c.Sound)
    (hno : (v.data = 0 ∨ c.used + 1 ≥ c.slots.length / 2) ∨ ∃ r, c.Holds v.key r) :
    Inserted c v ref c := by
  refine ⟨h, rfl, Nat.le_succ _, fun key r => ⟨.inl, ?_⟩⟩
  rintro (hheld | ⟨⟨hdata, hroom⟩, rfl, rfl, hnew⟩)
  · exact hheld
  · rcases hno with (hnull | hfull) | ⟨r', hheld⟩
    · exact absurd hnull hdata
    · omega
    · exact absurd hheld (hnew r')

/-- The cache with one more slot in use. -/
def fill (c : AddressCache) (idx : ℕ) (v : View) (ref : StringRef) : AddressCache :=
  { c with slots := c.slots.set idx ⟨v.data, v.bytes.length, ref⟩, used := c.used + 1 }

theorem length_fill (c : AddressCache) (idx : ℕ) (v : View) (ref : StringRef) :
    (c.fill idx v ref).slots.length = c.slots.length := List.length_set

theorem entryAt_fill (ref : StringRef) (hdata : v.data ≠ 0) {idx : ℕ}
    (hidx : idx < c.slots.length) :
    (c.fill idx v ref).entryAt = Function.update c.entryAt idx (some (v.key, ref)) := by
  funext i
  rw [entryAt, fill]
  by_cases hi : i = idx
  · subst hi
    rw [Function.update_self, List.getElem?_set_self hidx, Option.bind_some, Slot.entry,
      if_neg hdata]
    rfl
  · rw [Function.update_of_ne hi, List.getElem?_set_ne (Ne.symm hi), entryAt]

/-- A new entry goes to the free slot where its probe ends. -/
theorem Sound.inserted_fill (h : c.Sound) (hdata : v.data ≠ 0)
    (hroom : c.used + 1 < c.slots.length / 2) {t : ℕ}
    (hpassed : Passed c.slots.length c.home c.entryAt v.key t)
    (hnone : c.entryAt (probe c.slots.length c.home v.key t) = none) :
    Inserted c v ref (c.fill (probe c.slots.length c.home v.key t) v ref) := by
  have hidx : probe c.slots.length c.home v.key t < c.slots.length :=
    probe_lt (Nat.zero_lt_of_lt (hpassed.lt h.free))
  have hentries := entryAt_fill ref hdata hidx
  -- the cluster of the key reaches the free slot, and nothing of the key lies beyond
  have hnew := h.clustered.update (v := ref) hpassed hnone
  have hfree := fun r i (hi : i < c.slots.length) =>
    h.clustered.not_mem (v := r) hpassed hnone hi
  generalize probe c.slots.length c.home v.key t = idx at *
  have hlen := length_fill c idx v ref
  refine ⟨⟨?_, ?_, ?_, ?_⟩, hlen, le_rfl, fun key r => ?_⟩
  · rw [hlen]
    exact h.size
  · rw [hlen, hentries]
    exact hnew
  · obtain ⟨slot, hslot, ⟨hzero, _⟩ | ⟨_, hsome⟩⟩ := slot_cases hidx
    · have hget := (List.getElem?_eq_some_iff.mp hslot).2
      rw [fill, List.countP_set hidx, hget, ← h.used]
      simp [hzero, hdata]
    · rw [hnone] at hsome
      cases hsome
  · rw [hlen]
    change c.used + 1 < _
    omega
  · rw [Holds, hlen, hentries]
    constructor
    · rintro ⟨i, hi, hentry⟩
      by_cases heq : i = idx
      · subst heq
        rw [Function.update_self, Option.some.injEq, Prod.mk.injEq] at hentry
        obtain ⟨rfl, rfl⟩ := hentry
        exact .inr ⟨⟨hdata, hroom⟩, rfl, rfl, fun r' ⟨j, hj, hheld⟩ => hfree r' j hj hheld⟩
      · rw [Function.update_of_ne heq] at hentry
        exact .inl ⟨i, hi, hentry⟩
    · rintro (⟨i, hi, hentry⟩ | ⟨_, rfl, rfl, _⟩)
      · refine ⟨i, hi, ?_⟩
        rw [Function.update_of_ne, hentry]
        rintro rfl
        rw [hnone] at hentry
        cases hentry
      · exact ⟨idx, hidx, Function.update_self ..⟩

/-- **Insertions end.** -/
theorem returns_insert (h : c.Sound) (v : View) (ref : StringRef) :
    Returns (c.insert v ref) (Inserted c v ref) := by
  unfold insert
  by_cases hrefused : v.data = 0 ∨ c.used + 1 ≥ c.slots.length / 2
  · rw [if_pos hrefused]
    exact returns_pure (h.inserted_self (.inl hrefused))
  rw [if_neg hrefused]
  rw [not_or, Nat.not_le] at hrefused
  -- the probe ends at a free slot, which half of the slots are
  refine returns_loop_rank (c.Probing v.key) ?_ (h.probing v) (Nat.lt_succ_self _)
  intro rank idx hp
  obtain ⟨hidx, slot, hslot, ⟨hzero, hnone⟩ | ⟨hdata, hentry, hkey | ⟨hkey, hnext⟩⟩⟩ :=
    h.probe_cases hp
  · rw [insertRound, hslot]
    dsimp only
    rw [if_pos hzero]
    obtain ⟨t, _, rfl, hpassed⟩ := hp
    exact ⟨_, rfl, h.inserted_fill hrefused.1 hrefused.2 hpassed hnone⟩
  · rw [insertRound, hslot]
    dsimp only
    rw [if_neg hdata, if_pos hkey]
    rw [hkey.1, hkey.2] at hentry
    exact ⟨_, rfl, h.inserted_self (.inr ⟨slot.ref, idx, hidx, hentry⟩)⟩
  · rw [insertRound, hslot]
    dsimp only
    rw [if_neg hdata, if_neg hkey]
    exact ⟨_, rfl, hnext⟩

/-- Any number of insertions ends, with a table that can be probed. -/
theorem returns_insertAll (h : c.Sound) (entries : List (View × StringRef)) :
    Returns (c.insertAll entries) Sound := by
  have hround : ∀ (c : AddressCache) (e : View × StringRef), c.Sound →
      Returns (c.insert e.1 e.2) Sound :=
    fun c e hc => (returns_insert hc e.1 e.2).mono fun _ hinserted => hinserted.sound
  unfold insertAll
  exact returns_foldlM (fun (_ : List (View × StringRef)) (c : AddressCache) => c.Sound)
    (fun _ e _ c _ hc => hround c e hc) h

end Table

end AddressCache

/-! ### Emitting with addresses -/

/-- Where the strings of a graph are. -/
structure Addresses where
  /-- the path of a node -/
  node : ℕ → UInt64
  /-- a dependency-file input of a step -/
  input : ℕ → ℕ → UInt64

/-- The paths of the nodes, as views. -/
def Addresses.nodeViews (a : Addresses) (nodes : List Node) : List View :=
  nodes.zipIdx.map fun p => ⟨a.node p.2, p.1.path⟩

/-- The dependency-file inputs of the steps, as views. -/
def Addresses.inputViews (a : Addresses) (inputs : List (List Bytes)) : List View :=
  inputs.zipIdx.flatMap fun p => p.1.zipIdx.map fun q => ⟨a.input p.2 q.2, q.1⟩

/-- The views of a graph: the paths of its nodes, and the dependency-file inputs of its steps. -/
def Addresses.views (a : Addresses) (g : BuildGraph) : List View :=
  a.nodeViews g.nodes ++ a.inputViews (g.steps.map fun st => st.depfileInputs.getD [])

/-- Views of the same address and length denote the same bytes. -/
def Coherent (views : List View) : Prop :=
  ∀ v ∈ views, ∀ v' ∈ views, v.key = v'.key → v.bytes = v'.bytes

instance (views : List View) : Decidable (Coherent views) :=
  inferInstanceAs (Decidable (∀ v ∈ views, ∀ v' ∈ views, v.key = v'.key → v.bytes = v'.bytes))

/-- A computation over the address cache and the pool. -/
abbrev Emission (α : Type) := StateT (AddressCache × StringBuffer) Fueled α

/-- A computation over the pool alone. -/
def inPool {α : Type} (m : StateM StringBuffer α) : Emission α :=
  fun s => .ok ((m s.2).1, s.1, (m s.2).2)

/-- `node_paths.insert`. -/
def remember (v : View) (ref : StringRef) : Emission Unit := fun s => do
  let cache ← s.1.insert v ref
  return ((), cache, s.2)

/-- `node_paths.find`. -/
def findCached (v : View) : Emission (Option StringRef) := fun s => do
  let known ← s.1.find v
  return (known, s)

/-- The record of a node, whose path is remembered. -/
def emitNodeAt (p : Node × UInt64) : Emission BinNode := do
  let record ← inPool (emitNode p.1)
  remember ⟨p.2, p.1.path⟩ record.path
  return record

/-- The reference of a dependency-file input. -/
def emitInputAt (v : View) : Emission StringRef := do
  match ← findCached v with
  | some ref => return ref
  | none => inPool (StringBuffer.add v.bytes)

/-- The record of a step, behind which its references stand. -/
def emitStepAt (address : ℕ → UInt64) (st : CachedStep) : Emission BinStep := do
  let inputs ← inPool (StringBuffer.add st.inputs)
  let output ← inPool (StringBuffer.add st.output)
  let extraFlags ← inPool (StringBuffer.add st.extraFlags)
  let refs ← (st.depfileInputs.getD []).zipIdx.mapM fun p => emitInputAt ⟨address p.2, p.1⟩
  return {
    inputs := inputs
    output := output
    extraFlags := extraFlags
    commandHash := st.commandHash
    depfileCount := (st.depfileInputs.map fun l => UInt64.ofNat l.length).getD noValue
    tool := byteOfTool st.tool
    padding := List.replicate 7 0
    refs := refs.flatMap stringRef.write }

/-- The records of the nodes. -/
def emitNodesAt (a : Addresses) (nodes : List Node) : Emission (List BinNode) :=
  nodes.zipIdx.mapM fun p => emitNodeAt (p.1, a.node p.2)

/-- The records of an image. -/
def emitRecordsAt (a : Addresses) (image : CacheImage) : Emission Records := do
  let definitions ← inPool (image.definitions.mapM emitDefinition)
  let nodes ← emitNodesAt a image.nodes
  let steps ← image.steps.zipIdx.mapM fun p => emitStepAt (a.input p.2) p.1
  return ⟨definitions, nodes, steps⟩

/-- `emitBin` with its lookups in the address cache. -/
def emitBinAt (rapidHash : Bytes → UInt64 → UInt64) (a : Addresses) (memory : UInt64)
    (b : COBBuilder) : Fueled (Attempt Bytes) :=
  match Cob.emitBin b with
  | .error message => return .failed message
  | .ok image =>
    if memory.toNat < recordsSize image + 1 then return .failed outOfMemory
    else do
      let (records, _, sb) ← (emitRecordsAt a image).run (.create image.nodes.length, .empty)
      if records.write.length ≠ recordsSize image then return .fault
      else if memory.toNat < recordsSize image + sb.data.length + 1 then return .failed outOfMemory
      else return .done (sealFile rapidHash (emitHeader image sb.data) (records.write ++ sb.data))

section Nodes

/-- What holds after some node paths were emitted and remembered, out of a number that the cache
was created for. -/
structure Remembered (capacity : ℕ) (entries : List (View × StringRef)) (c : AddressCache)
    (sb : StringBuffer) : Prop where
  sound : c.Sound
  length : c.slots.length = bitCeil (capacity * 2 + 2)
  used : c.used ≤ entries.length
  /-- the pool knows the paths -/
  lookup : ∀ e ∈ entries, sb.cache.lookup e.1.bytes = some e.2
  /-- the cache knows nothing else -/
  of_holds : ∀ key ref, c.Holds key ref → ∃ e ∈ entries, e.1.key = key ∧ e.2 = ref
  /-- the cache knows every path that has an address -/
  holds : ∀ e ∈ entries, e.1.data ≠ 0 → ∃ ref, c.Holds e.1.key ref

variable {capacity : ℕ} {entries : List (View × StringRef)} {c : AddressCache} {sb : StringBuffer}

theorem remembered_create (capacity : ℕ) (sb : StringBuffer) :
    Remembered capacity [] (.create capacity) sb := by
  refine ⟨AddressCache.sound_create capacity, by simp [AddressCache.create], le_rfl, nofun, ?_,
    nofun⟩
  rintro key ref ⟨i, _, hentry⟩
  rw [AddressCache.entryAt, AddressCache.create, List.getElem?_replicate] at hentry
  split_ifs at hentry <;> cases hentry

/-- One more node: the cache was created with room for it. -/
theorem Remembered.node (h : Remembered capacity entries c sb) (hroom : entries.length < capacity)
    (n : Node) (address : UInt64) :
    ∃ c', emitNodeAt (n, address) (c, sb) =
        .ok ((emitNode n sb).1, c', (emitNode n sb).2) ∧
      Remembered capacity (entries ++ [(⟨address, n.path⟩, (emitNode n sb).1.path)]) c'
        (emitNode n sb).2 := by
  obtain ⟨c', hinsert, hinserted⟩ :=
    AddressCache.returns_insert h.sound ⟨address, n.path⟩ (emitNode n sb).1.path
  refine ⟨c', ?_, ?_⟩
  · simp only [emitNodeAt, bind, StateT.bind, inPool, remember, Except.bind, hinsert, pure,
      Except.pure]
    rfl
  obtain ⟨hext, hpath⟩ := extends_add n.path sb
  have hsize := le_bitCeil (capacity * 2 + 2)
  have hlen := h.length
  have hused := h.used
  refine ⟨hinserted.sound, hinserted.length.trans hlen, ?_, ?_, ?_, ?_⟩
  · have hle := hinserted.used_le
    rw [List.length_append, List.length_singleton]
    omega
  · intro e he
    rcases List.mem_append.mp he with he | he
    · exact hext.lookup _ _ (h.lookup e he)
    · rw [List.mem_singleton.mp he]
      exact hpath
  · intro key ref hheld
    rcases (hinserted.holds_iff key ref).mp hheld with hold | ⟨_, rfl, rfl, _⟩
    · obtain ⟨e, he, hkey⟩ := h.of_holds key ref hold
      exact ⟨e, List.mem_append_left _ he, hkey⟩
    · exact ⟨_, List.mem_append_right _ (List.mem_singleton_self _), rfl, rfl⟩
  · -- the cache keeps the first reference of a view, and has room for a new one
    intro e he hdata
    rcases List.mem_append.mp he with he | he
    · obtain ⟨ref, hold⟩ := h.holds e he hdata
      exact ⟨ref, (hinserted.holds_iff _ _).mpr (.inl hold)⟩
    · obtain rfl := List.mem_singleton.mp he
      by_cases hold : ∃ ref, c.Holds (View.key ⟨address, n.path⟩) ref
      · obtain ⟨ref, hold⟩ := hold
        exact ⟨ref, (hinserted.holds_iff _ _).mpr (.inl hold)⟩
      · push Not at hold
        refine ⟨_, (hinserted.holds_iff _ _).mpr (.inr ⟨⟨hdata, ?_⟩, rfl, rfl, hold⟩)⟩
        omega

/-- The nodes are emitted as without a cache, and their paths are remembered. -/
theorem emitNodesAt_eq (a : Addresses) (nodes : List Node) :
    ∀ (first : ℕ) (entries : List (View × StringRef)) (c : AddressCache) (sb : StringBuffer),
      Remembered capacity entries c sb → entries.length + nodes.length ≤ capacity →
      ∃ c', (nodes.zipIdx first).mapM (fun p => emitNodeAt (p.1, a.node p.2)) (c, sb) =
          .ok ((nodes.mapM emitNode sb).1, c', (nodes.mapM emitNode sb).2) ∧
        Remembered capacity
          (entries ++ ((nodes.zipIdx first).map fun p => (⟨a.node p.2, p.1.path⟩ : View)).zip
            ((nodes.mapM emitNode sb).1.map BinNode.path)) c' (nodes.mapM emitNode sb).2 := by
  induction nodes with
  | nil =>
    intro first entries c sb h _
    rw [← List.append_nil entries] at h
    exact ⟨c, rfl, h⟩
  | cons n nodes ih =>
    intro first entries c sb h hroom
    rw [List.length_cons] at hroom
    obtain ⟨c₁, hnode, h₁⟩ := h.node (by omega) n (a.node first)
    obtain ⟨c₂, hrest, h₂⟩ := ih (first + 1) _ c₁ (emitNode n sb).2 h₁ (by
      rw [List.length_append, List.length_singleton]
      omega)
    have hrun : (n :: nodes).mapM emitNode sb =
        ((emitNode n sb).1 :: (nodes.mapM emitNode (emitNode n sb).2).1,
          (nodes.mapM emitNode (emitNode n sb).2).2) := by
      rw [List.mapM_cons]
      rfl
    refine ⟨c₂, ?_, ?_⟩
    · rw [List.zipIdx_cons, List.mapM_cons, hrun]
      simp only [bind, StateT.bind, Except.bind, hnode, hrest, pure]
      rfl
    · rw [hrun, List.zipIdx_cons, List.map_cons, List.map_cons, List.zip_cons_cons]
      rwa [List.append_assoc, List.singleton_append] at h₂

/-- A remembered path is found again, with the reference that the pool has for it. -/
theorem Remembered.find_eq (h : Remembered capacity entries c sb)
    (hcoherent : Coherent (entries.map Prod.fst)) {e : View × StringRef} (he : e ∈ entries)
    (hdata : e.1.data ≠ 0) : c.find e.1 = .ok (some e.2) := by
  obtain ⟨r, hfind, hr⟩ := AddressCache.returns_find h.sound e.1
  obtain ⟨ref, hheld⟩ := h.holds e he hdata
  obtain ⟨e', he', hkey, rfl⟩ := h.of_holds _ _ hheld
  have hbytes := hcoherent _ (List.mem_map_of_mem he') _ (List.mem_map_of_mem he) hkey
  have hsame : some e'.2 = some e.2 := by
    rw [← h.lookup e' he', hbytes, h.lookup e he]
  rw [hfind, (hr e'.2).mpr hheld, hsame]

end Nodes

section Steps

variable {α β : Type} {views : List View} {c : AddressCache} {sb sb' : StringBuffer}

/-- What the cache has for one of the views is what the pool has for its bytes. -/
def Agrees (views : List View) (c : AddressCache) (sb : StringBuffer) : Prop :=
  ∀ v ∈ views, ∀ ref, c.Holds v.key ref → sb.cache.lookup v.bytes = some ref

theorem Agrees.extends (h : Agrees views c sb) (hext : sb.Extends sb') : Agrees views c sb' :=
  fun v hv ref hheld => hext.lookup _ _ (h v hv ref hheld)

/-- With a sound cache that agrees with the pool, the computation does what another one does with
the pool alone, and leaves the cache as it is. -/
def SameInPool (views : List View) (c : AddressCache) (m : Emission α)
    (m' : StateM StringBuffer α) : Prop :=
  ∀ sb, Agrees views c sb → m (c, sb) = .ok ((m' sb).1, c, (m' sb).2) ∧ sb.Extends (m' sb).2

theorem SameInPool.bind {m : Emission α} {m' : StateM StringBuffer α} {f : α → Emission β}
    {f' : α → StateM StringBuffer β} (hm : SameInPool views c m m')
    (hf : ∀ a, SameInPool views c (f a) (f' a)) :
    SameInPool views c (m >>= f) (m' >>= f') := by
  intro sb hsb
  obtain ⟨hrun, hext⟩ := hm sb hsb
  obtain ⟨hrun', hext'⟩ := hf (m' sb).1 (m' sb).2 (hsb.extends hext)
  refine ⟨?_, hext.trans hext'⟩
  calc (m >>= f) (c, sb) = (m (c, sb)).bind fun p => f p.1 p.2 := rfl
    _ = f (m' sb).1 (c, (m' sb).2) := by rw [hrun]; rfl
    _ = _ := hrun'

theorem sameInPool_pure (a : α) :
    SameInPool views c (pure a : Emission α) (pure a : StateM StringBuffer α) :=
  fun sb _ => ⟨rfl, .refl sb⟩

theorem SameInPool.mapM {f : α → Emission β} {f' : α → StateM StringBuffer β} {l : List α}
    (hf : ∀ a ∈ l, SameInPool views c (f a) (f' a)) :
    SameInPool views c (l.mapM f) (l.mapM f') := by
  induction l with
  | nil => exact sameInPool_pure []
  | cons a l ih =>
    rw [List.mapM_cons, List.mapM_cons]
    refine (hf a List.mem_cons_self).bind fun b => ?_
    refine (ih fun a' ha' => hf a' (List.mem_cons_of_mem _ ha')).bind fun bs => ?_
    exact sameInPool_pure (b :: bs)

theorem sameInPool_add (s : Bytes) :
    SameInPool views c (inPool (StringBuffer.add s)) (StringBuffer.add s) :=
  fun sb _ => ⟨rfl, (extends_add s sb).1⟩

/-- An input is resolved by its address, or by the pool, with the same result. -/
theorem sameInPool_emitInputAt (hc : c.Sound) {v : View} (hv : v ∈ views) :
    SameInPool views c (emitInputAt v) (StringBuffer.add v.bytes) := by
  intro sb hsb
  obtain ⟨known, hfind, hknown⟩ := AddressCache.returns_find hc v
  refine ⟨?_, (extends_add v.bytes sb).1⟩
  cases known with
  | none =>
    simp only [emitInputAt, bind, StateT.bind, findCached, Except.bind, hfind, pure, Except.pure]
    rfl
  | some ref =>
    -- the pool has the string already, so adding it changes nothing
    have hlookup := hsb v hv ref ((hknown ref).mp rfl)
    simp only [emitInputAt, bind, StateT.bind, findCached, Except.bind, hfind, pure, Except.pure,
      StringBuffer.add, hlookup]
    rfl

theorem sameInPool_emitStepAt (hc : c.Sound) (paths : List (Bytes × StringRef))
    (address : ℕ → UInt64) (st : CachedStep)
    (hviews : ∀ p ∈ (st.depfileInputs.getD []).zipIdx, (⟨address p.2, p.1⟩ : View) ∈ views) :
    SameInPool views c (emitStepAt address st) (emitStep paths (fun _ => false) st) := by
  refine (sameInPool_add _).bind fun inputs => ?_
  refine (sameInPool_add _).bind fun output => ?_
  refine (sameInPool_add _).bind fun extraFlags => ?_
  refine (SameInPool.mapM fun p hp => ?_).bind fun refs => sameInPool_pure _
  exact sameInPool_emitInputAt hc (hviews p hp)

end Steps

section Records

variable {a : Addresses} {image : CacheImage}

theorem length_mapM {α β : Type} (f : α → StateM StringBuffer β) (l : List α)
    (sb : StringBuffer) : (l.mapM f sb).1.length = l.length := by
  induction l generalizing sb with
  | nil => rfl
  | cons a l ih =>
    have hrun : ((a :: l).mapM f sb).1 = (f a sb).1 :: (l.mapM f (f a sb).2).1 := by
      rw [List.mapM_cons]
      rfl
    rw [hrun, List.length_cons, List.length_cons, ih]

theorem mem_inputViews {steps : List CachedStep} {p : CachedStep × ℕ} (hp : p ∈ steps.zipIdx)
    {q : Bytes × ℕ} (hq : q ∈ (p.1.depfileInputs.getD []).zipIdx) :
    (⟨a.input p.2 q.2, q.1⟩ : View) ∈
      a.inputViews (steps.map fun st => st.depfileInputs.getD []) := by
  rw [Addresses.inputViews, List.zipIdx_map]
  exact List.mem_flatMap.mpr
    ⟨_, List.mem_map_of_mem hp, List.mem_map.mpr ⟨q, hq, rfl⟩⟩

/-- The records of all steps. -/
theorem sameInPool_emitStepsAt {c : AddressCache} (hc : c.Sound)
    (paths : List (Bytes × StringRef)) (steps : List CachedStep) :
    SameInPool (a.inputViews (steps.map fun st => st.depfileInputs.getD [])) c
      (steps.zipIdx.mapM fun p => emitStepAt (a.input p.2) p.1)
      (steps.zipIdx.mapM fun p => emitStep paths (fun _ => false) p.1) := by
  refine SameInPool.mapM fun p hp => ?_
  apply sameInPool_emitStepAt hc
  exact fun q hq => mem_inputViews hp hq

/-- The records and the pool are those of inputs that are all resolved by the pool, and the cache
finds the path of every node that has an address. -/
theorem emitRecordsAt_eq (hcoherent : Coherent (a.nodeViews image.nodes ++
      a.inputViews (image.steps.map fun st => st.depfileInputs.getD []))) (sb : StringBuffer) :
    ∃ c, emitRecordsAt a image (.create image.nodes.length, sb) =
        .ok ((emitRecords (fun _ _ => false) image sb).1, c,
          (emitRecords (fun _ _ => false) image sb).2) ∧
      ∀ i n, image.nodes[i]? = some n → a.node i ≠ 0 →
        ∃ record, (emitRecords (fun _ _ => false) image sb).1.nodes[i]? = some record ∧
          c.find ⟨a.node i, n.path⟩ = .ok (some record.path) := by
  -- the pool before the nodes, the node records, and the pool behind them
  set sb₁ := (image.definitions.mapM emitDefinition sb).2 with hsb₁
  set nodes := (image.nodes.mapM emitNode sb₁).1 with hnodes
  set sb₂ := (image.nodes.mapM emitNode sb₁).2 with hsb₂
  obtain ⟨c, hrun, hremembered⟩ := emitNodesAt_eq a image.nodes 0 [] _ sb₁
    (remembered_create image.nodes.length sb₁) (by simp)
  rw [List.nil_append, ← hnodes, ← hsb₂] at hremembered
  have hmem : ∀ e ∈ (a.nodeViews image.nodes).zip (nodes.map BinNode.path),
      e.1 ∈ a.nodeViews image.nodes := fun e he => (List.of_mem_zip he).1
  -- an input that the cache answers has the bytes of the node it was stored for
  have hagrees : Agrees (a.inputViews (image.steps.map fun st => st.depfileInputs.getD [])) c
      sb₂ := by
    intro v hv ref hheld
    obtain ⟨e, he, hkey, rfl⟩ := hremembered.of_holds _ _ hheld
    have hbytes := hcoherent _ (List.mem_append_left _ (hmem e he)) _
      (List.mem_append_right _ hv) hkey
    rw [← hbytes]
    exact hremembered.lookup e he
  have hsteps := sameInPool_emitStepsAt hremembered.sound (nodePaths image nodes) image.steps sb₂
    hagrees
  refine ⟨c, ?_, fun i n hn hdata => ?_⟩
  · calc emitRecordsAt a image (.create image.nodes.length, sb)
        = (emitNodesAt a image.nodes (.create image.nodes.length, sb₁)).bind fun p =>
            ((image.steps.zipIdx.mapM fun p => emitStepAt (a.input p.2) p.1) p.2).bind fun q =>
              .ok (⟨(image.definitions.mapM emitDefinition sb).1, p.1, q.1⟩, q.2) := rfl
      _ = _ := by
        rw [emitNodesAt, hrun, Except.bind, hsteps.1]
        rfl
  · have hlt := (List.getElem?_eq_some_iff.mp hn).1
    have hlen : nodes.length = image.nodes.length := length_mapM emitNode image.nodes sb₁
    have hrecord := List.getElem?_eq_getElem (hlen.symm ▸ hlt : i < nodes.length)
    have hrecords : (emitRecords (fun _ _ => false) image sb).1.nodes = nodes := rfl
    rw [hrecords]
    refine ⟨nodes[i], hrecord, ?_⟩
    -- node `i` is one of the entries the cache remembers
    have hentry : ((⟨a.node i, n.path⟩ : View), nodes[i].path) ∈
        (a.nodeViews image.nodes).zip (nodes.map BinNode.path) := by
      refine List.mem_of_getElem? (i := i) (List.getElem?_zip_eq_some.mpr ⟨?_, ?_⟩)
      · simp [Addresses.nodeViews, hn]
      · simp [hrecord]
    refine hremembered.find_eq (fun v hv v' hv' hkey => ?_) hentry hdata
    obtain ⟨e, he, rfl⟩ := List.mem_map.mp hv
    obtain ⟨e', he', rfl⟩ := List.mem_map.mp hv'
    exact hcoherent _ (List.mem_append_left _ (hmem e he)) _ (List.mem_append_left _ (hmem e' he'))
      hkey

end Records

section File

variable {b : COBBuilder} {image : CacheImage}

/-- The image has the nodes of the graph, and the inputs of its steps. -/
theorem depfileInputs_of_mapM {steps : List BuildStep} {cached : List CachedStep}
    (h : steps.mapM Cob.emitStep = .ok cached) :
    cached.map CachedStep.depfileInputs = steps.map BuildStep.depfileInputs := by
  induction steps generalizing cached with
  | nil =>
    cases h
    rfl
  | cons st steps ih =>
    rw [List.mapM_cons] at h
    cases hst : Cob.emitStep st with
    | error e => simp [hst, bind, Except.bind] at h
    | ok c =>
      cases hrest : steps.mapM Cob.emitStep with
      | error e => simp [hst, hrest, bind, Except.bind] at h
      | ok cs =>
        simp only [hst, hrest, bind, Except.bind, pure, Except.pure, Except.ok.injEq] at h
        subst h
        have hinputs : c.depfileInputs = st.depfileInputs := by
          unfold Cob.emitStep at hst
          split at hst
          · cases hst
          · cases hst
            rfl
        rw [List.map_cons, List.map_cons, ih hrest, hinputs]

/-- The views of the image are those of the graph. -/
theorem views_image (a : Addresses) (h : Cob.emitBin b = .ok image) :
    a.nodeViews image.nodes ++ a.inputViews (image.steps.map fun st => st.depfileInputs.getD []) =
      a.views b.graph := by
  unfold Cob.emitBin at h
  cases hsteps : b.graph.steps.mapM Cob.emitStep with
  | error e => simp [hsteps, Except.map] at h
  | ok cached =>
    simp only [hsteps, Except.map, Except.ok.injEq] at h
    subst h
    have hinputs := congrArg (List.map fun l : Option (List Bytes) => l.getD [])
      (depfileInputs_of_mapM hsteps)
    rw [List.map_map, List.map_map] at hinputs
    simp only [Addresses.views]
    exact congrArg (a.nodeViews b.graph.nodes ++ a.inputViews ·) hinputs

/-- **The address cache.** Where views of the same address and length denote the same bytes, the
file is that of inputs which are all resolved by the pool, and the path of every node that has an
address is found again. For any number of nodes and any addresses, insertions and lookups end. -/
theorem emitBinAt_eq (rapidHash : Bytes → UInt64 → UInt64) (a : Addresses) (memory : UInt64)
    (b : COBBuilder) (hviews : Coherent (a.views b.graph)) :
    emitBinAt rapidHash a memory b = .ok (emitBin rapidHash (fun _ _ => false) memory b) ∧
      (∀ image, Cob.emitBin b = .ok image → ∃ records c sb,
        emitRecordsAt a image (.create image.nodes.length, .empty) = .ok (records, c, sb) ∧
          ∀ i n, image.nodes[i]? = some n → a.node i ≠ 0 →
            ∃ record, records.nodes[i]? = some record ∧
              c.find ⟨a.node i, n.path⟩ = .ok (some record.path)) ∧
      ∀ (capacity : ℕ) (entries : List (View × StringRef)),
        ∃ c, (AddressCache.create capacity).insertAll entries = .ok c ∧
          ∀ v, ∃ known, c.find v = .ok known := by
  refine ⟨?_, fun image himage => ?_, fun capacity entries => ?_⟩
  · unfold emitBinAt emitBin
    cases himage : Cob.emitBin b with
    | error message => rfl
    -- the same records, so the tests behind them take the same branches
    | ok image =>
      obtain ⟨c, hrun, _⟩ := emitRecordsAt_eq (views_image a himage ▸ hviews) .empty
      dsimp only
      split_ifs with hmemory
      · rfl
      · simp only [StateT.run, hrun, bind, Except.bind]
        generalize emitRecords (fun _ _ => false) image .empty = run
        obtain ⟨records, sb⟩ := run
        dsimp only
        split_ifs <;> rfl
  · obtain ⟨c, hrun, hfound⟩ := emitRecordsAt_eq (views_image a himage ▸ hviews) .empty
    exact ⟨_, c, _, hrun, hfound⟩
  · obtain ⟨c, hinsert, hc⟩ :=
      AddressCache.returns_insertAll (AddressCache.sound_create capacity) entries
    refine ⟨c, hinsert, fun v => ?_⟩
    obtain ⟨known, hfind, _⟩ := AddressCache.returns_find hc v
    exact ⟨known, hfind⟩

/-- A compilation whose dependency file names the source and a header. -/
def includes : COBBuilder :=
  { graph := ((BuildGraph.empty.addSteps (fun _ => some (ascii "a.o: a.c a.h"))
      [{ tool := ascii "cc", inputs := ascii "a.c", output := ascii "a.o" }]).toOption).getD .empty
    definitions := .empty }

/-- The inputs are views of the paths of the nodes 1 and 2. -/
def includesAddresses : Addresses where
  node i := 4096 + 16 * UInt64.ofNat i
  input _ j := 4096 + 16 * UInt64.ofNat (j + 1)

/-- The two inputs are found by their addresses, and the file is the same. -/
theorem emitBinAt_eq_includes :
    emitBinAt (fun _ seed => seed) includesAddresses 4096 includes =
      .ok (emitBin (fun _ seed => seed) (fun _ _ => false) 4096 includes) :=
  (emitBinAt_eq (fun _ seed => seed) includesAddresses 4096 includes (by decide +kernel)).1

end File

end CacheFile

end Cob
