import Mathlib.Data.List.Basic
import Mathlib.Tactic.Linarith

/-!
# Codecs

A `Codec` writes values as lists of symbols and reads one back from the front of a list. Its one
law says that reading finds exactly the valid values that were written, so both the round trip and
the converse, that whatever is read was laid out as `write` lays it out, come with the codec.

The module introduces:

* `Codec` — writing, reading, and the law that ties them;
* `Codec.symbol`, `Codec.block`, `Codec.word` — one symbol, a block, a little-endian 64-bit word;
* `Codec.seq`, `Codec.map`, `Codec.guard`, `Codec.many` — records, renaming, tests, repetition.

A record whose length depends on what was read before is a `seq` whose second codec depends on
the value of the first.
-/

/-- Writing values, and reading them from the front of a list. -/
structure Codec (σ α : Type*) where
  /-- The values that reading can find. -/
  Valid : α → Prop
  write : α → List σ
  /-- The value at the front and what follows it. -/
  read : List σ → Option (α × List σ)
  read_eq_some : ∀ {s : List σ} {a : α} {rest : List σ},
    read s = some (a, rest) ↔ Valid a ∧ s = write a ++ rest

namespace Codec

variable {σ α β : Type*}

/-- What was written is read back. -/
theorem read_write (c : Codec σ α) {a : α} (h : c.Valid a) (rest : List σ) :
    c.read (c.write a ++ rest) = some (a, rest) :=
  c.read_eq_some.mpr ⟨h, rfl⟩

/-- A list begins with one value at most. -/
theorem eq_of_write_append (c : Codec σ α) {a a' : α} {rest rest' : List σ} (h : c.Valid a)
    (h' : c.Valid a') (heq : c.write a ++ rest = c.write a' ++ rest') : a = a' := by
  have hread := c.read_write h rest
  rw [heq, c.read_write h' rest'] at hread
  exact (Prod.ext_iff.mp (Option.some.inj hread)).1.symm

/-- A block of `n` symbols. -/
def block (n : ℕ) : Codec σ (List σ) where
  Valid a := a.length = n
  write a := a
  read s := if n ≤ s.length then some (s.take n, s.drop n) else none
  read_eq_some := by
    intro s a rest
    split_ifs with h
    · simp only [Option.some.injEq, Prod.mk.injEq]
      constructor
      · rintro ⟨rfl, rfl⟩
        exact ⟨by simp [h], (List.take_append_drop n s).symm⟩
      · rintro ⟨rfl, rfl⟩
        simp
    · -- too short a list does not begin with the block
      simp only [false_iff, not_and]
      rintro rfl rfl
      apply h
      simp

/-- One symbol. -/
def symbol : Codec σ σ where
  Valid _ := True
  write a := [a]
  read
    | [] => none
    | a :: s => some (a, s)
  read_eq_some := by
    intro s a rest
    cases s with
    | nil => simp
    | cons b s => simp

/-- One value after the other; the second codec may depend on the first value. -/
def seq (c : Codec σ α) (d : α → Codec σ β) : Codec σ (α × β) where
  Valid p := c.Valid p.1 ∧ (d p.1).Valid p.2
  write p := c.write p.1 ++ (d p.1).write p.2
  read s := (c.read s).bind fun p => ((d p.1).read p.2).map fun q => ((p.1, q.1), q.2)
  read_eq_some := by
    rintro s ⟨a, b⟩ rest
    simp only [Option.bind_eq_some_iff, Option.map_eq_some_iff, Prod.mk.injEq]
    constructor
    · rintro ⟨⟨a', s'⟩, ha, ⟨b', s''⟩, hb, ⟨rfl, rfl⟩, rfl⟩
      obtain ⟨hva, rfl⟩ := c.read_eq_some.mp ha
      obtain ⟨hvb, rfl⟩ := (d a').read_eq_some.mp hb
      exact ⟨⟨hva, hvb⟩, by rw [List.append_assoc]⟩
    · rintro ⟨⟨hva, hvb⟩, rfl⟩
      rw [List.append_assoc]
      exact ⟨(a, _), c.read_write hva _, (b, rest), (d a).read_write hvb rest, ⟨rfl, rfl⟩, rfl⟩

/-- The same codec for another type of values. -/
def map (c : Codec σ α) (f : α ≃ β) : Codec σ β where
  Valid b := c.Valid (f.symm b)
  write b := c.write (f.symm b)
  read s := (c.read s).map fun p => (f p.1, p.2)
  read_eq_some := by
    intro s b rest
    simp only [Option.map_eq_some_iff, Prod.mk.injEq]
    constructor
    · rintro ⟨⟨a, rest'⟩, ha, rfl, rfl⟩
      simpa using c.read_eq_some.mp ha
    · exact fun h => ⟨(f.symm b, rest), c.read_eq_some.mpr h, by simp, rfl⟩

@[simp] theorem write_block (n : ℕ) (a : List σ) : (block n).write a = a := rfl

@[simp] theorem write_symbol (a : σ) : symbol.write a = [a] := rfl

@[simp]
theorem write_seq (c : Codec σ α) (d : α → Codec σ β) (p : α × β) :
    (c.seq d).write p = c.write p.1 ++ (d p.1).write p.2 := rfl

@[simp]
theorem write_map (c : Codec σ α) (f : α ≃ β) (b : β) :
    (c.map f).write b = c.write (f.symm b) := rfl

/-- Reading that fails unless the value passes a test. -/
def guard (c : Codec σ α) (p : α → Prop) [DecidablePred p] : Codec σ α where
  Valid a := c.Valid a ∧ p a
  write := c.write
  read s := (c.read s).filter fun q => p q.1
  read_eq_some := by
    intro s a rest
    simp only [Option.filter_eq_some_iff, decide_eq_true_eq, c.read_eq_some]
    tauto

/-- Reading several values. -/
def readMany (c : Codec σ α) : ℕ → List σ → Option (List α × List σ)
  | 0, s => some ([], s)
  | n + 1, s => (c.read s).bind fun p => (readMany c n p.2).map fun q => (p.1 :: q.1, q.2)

/-- `n` values in a row. -/
def many (c : Codec σ α) (n : ℕ) : Codec σ (List α) where
  Valid as := as.length = n ∧ ∀ a ∈ as, c.Valid a
  write as := as.flatMap c.write
  read := c.readMany n
  read_eq_some := by
    intro s as rest
    induction n generalizing s as with
    | zero =>
      simp only [readMany, Option.some.injEq, Prod.mk.injEq]
      constructor
      · rintro ⟨rfl, rfl⟩
        simp
      · rintro ⟨⟨hlen, -⟩, rfl⟩
        obtain rfl := List.length_eq_zero_iff.mp hlen
        simp
    | succ n ih =>
      simp only [readMany, Option.bind_eq_some_iff, Option.map_eq_some_iff, Prod.mk.injEq]
      constructor
      · rintro ⟨⟨a, s'⟩, ha, ⟨as', s''⟩, has, rfl, rfl⟩
        obtain ⟨hva, rfl⟩ := c.read_eq_some.mp ha
        obtain ⟨⟨hlen, hall⟩, rfl⟩ := ih.mp has
        refine ⟨⟨by simp [hlen], ?_⟩, by simp⟩
        simpa using ⟨hva, hall⟩
      · rintro ⟨⟨hlen, hall⟩, rfl⟩
        obtain ⟨a, as', rfl⟩ := List.exists_cons_of_length_eq_add_one hlen
        have hva := hall a List.mem_cons_self
        have has : c.readMany n (as'.flatMap c.write ++ rest) = some (as', rest) :=
          ih.mpr ⟨⟨by simpa using hlen, fun a' ha' => hall a' (List.mem_cons_of_mem _ ha')⟩, rfl⟩
        rw [List.flatMap_cons, List.append_assoc]
        exact ⟨(a, _), c.read_write hva _, (as', rest), has, rfl, rfl⟩

/-! ### Words -/

/-- The `n` lowest bytes of a number, the lowest first. -/
def bytesOfNat : ℕ → ℕ → List UInt8
  | 0, _ => []
  | n + 1, k => UInt8.ofNat k :: bytesOfNat n (k / 256)

/-- The number that the bytes show, the lowest first. -/
def natOfBytes : List UInt8 → ℕ
  | [] => 0
  | b :: s => b.toNat + 256 * natOfBytes s

theorem length_bytesOfNat (n k : ℕ) : (bytesOfNat n k).length = n := by
  induction n generalizing k with
  | zero => rfl
  | succ n ih => simp [bytesOfNat, ih]

theorem natOfBytes_bytesOfNat (n k : ℕ) : natOfBytes (bytesOfNat n k) = k % 256 ^ n := by
  induction n generalizing k with
  | zero => simp [bytesOfNat, natOfBytes, Nat.mod_one]
  | succ n ih =>
    have hmod : k % 256 ^ (n + 1) = k % 256 + 256 * (k / 256 % 256 ^ n) := by
      rw [pow_succ', Nat.mod_mul]
    simp [bytesOfNat, natOfBytes, ih, hmod]

theorem bytesOfNat_natOfBytes (s : List UInt8) : bytesOfNat s.length (natOfBytes s) = s := by
  induction s with
  | nil => rfl
  | cons b s ih =>
    have hlt := b.toNat_lt
    have hdiv : (b.toNat + 256 * natOfBytes s) / 256 = natOfBytes s := by omega
    have hlow : UInt8.ofNat (b.toNat + 256 * natOfBytes s) = b := by
      apply UInt8.toNat_inj.mp
      simp only [UInt8.toNat_ofNat']
      omega
    simp [bytesOfNat, natOfBytes, hdiv, hlow, ih]

theorem natOfBytes_lt (s : List UInt8) : natOfBytes s < 256 ^ s.length := by
  induction s with
  | nil => simp [natOfBytes]
  | cons b s ih =>
    have hlt := b.toNat_lt
    rw [natOfBytes, List.length_cons, pow_succ']
    omega

/-- A 64-bit word, the lowest byte first. -/
def word : Codec UInt8 UInt64 where
  Valid _ := True
  write w := bytesOfNat 8 w.toNat
  read s := ((block 8).read s).map fun p => (UInt64.ofNat (natOfBytes p.1), p.2)
  read_eq_some := by
    intro s w rest
    simp only [Option.map_eq_some_iff, Prod.mk.injEq, true_and]
    constructor
    · rintro ⟨⟨a, rest'⟩, ha, rfl, rfl⟩
      obtain ⟨hlen, rfl⟩ := (block 8).read_eq_some.mp ha
      have hlen : a.length = 8 := hlen
      have hlt : natOfBytes a < 2 ^ 64 := by
        have hlt := natOfBytes_lt a
        rwa [hlen] at hlt
      rw [UInt64.toNat_ofNat_of_lt' hlt, ← hlen, bytesOfNat_natOfBytes]
      rfl
    · rintro rfl
      refine ⟨(bytesOfNat 8 w.toNat, rest), ?_, ?_, rfl⟩
      · exact (block 8).read_write (length_bytesOfNat 8 _) rest
      · have hlt : w.toNat < 256 ^ 8 := w.toNat_lt
        rw [natOfBytes_bytesOfNat, Nat.mod_eq_of_lt hlt, UInt64.ofNat_toNat]

@[simp]
theorem length_write_word (w : UInt64) : (word.write w).length = 8 := length_bytesOfNat 8 _

end Codec
