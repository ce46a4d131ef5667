import Mathlib.Data.Nat.Bitwise
import Mathlib.Tactic.NormNum
import Mathlib.Tactic.Positivity

/-!
# Tests on all bytes of a word at once

A word of eight bytes is compared with a bound by one subtraction. Borrows make the flags wrong
above a byte that is below the bound, and only there, so the lowest flag is always right.

* `Marks` — the flags of a test that are right up to the lowest one, closed under `|||`;
* `marks_flagsBelow`, `marks_flagsEqual` — the two tests;
* `Marks.countrZero` — the trailing zeros lead to the first byte that passes.
-/

namespace Swar

/-- Byte `i` of a word, the lowest first. -/
def byteAt (w : UInt64) (i : ℕ) : ℕ := w.toNat / 256 ^ i % 256

/-- A one in each byte. -/
def ones : UInt64 := 0x0101010101010101

/-- The highest bit of each byte. -/
def highs : UInt64 := 0x8080808080808080

/-- The bytes below `t`. -/
def flagsBelow (t w : UInt64) : UInt64 := (w - ones * t) &&& ~~~w &&& highs

/-- The bytes that are zero. -/
def zeroBytes (w : UInt64) : UInt64 := (w - ones) &&& ~~~w &&& highs

/-- The number of trailing zeros. -/
def countrZero (w : UInt64) : ℕ := (List.range 64).findIdx w.toNat.testBit

/-- The flags of the bytes that pass a test, right up to the first such byte. -/
structure Marks (f : UInt64) (test : ℕ → Prop) : Prop where
  high : ∀ b, f.toNat.testBit b = true → b < 64 ∧ b % 8 = 7
  exact : ∀ i < 8, (∀ j < i, ¬ test j) → (f.toNat.testBit (8 * i + 7) = true ↔ test i)

section Bytes

variable {w v t : UInt64} {i : ℕ}

/-- The highest bit of a byte. -/
theorem testBit_high (w : UInt64) (i : ℕ) :
    w.toNat.testBit (8 * i + 7) = true ↔ 128 ≤ byteAt w i := by
  have hpow : 2 ^ (8 * i + 7) = 256 ^ i * 128 := by
    rw [pow_add, pow_mul]
    norm_num
  rw [Nat.testBit_eq_decide_div_mod_eq, decide_eq_true_eq, hpow, ← Nat.div_div_eq_div_mul, byteAt]
  omega

theorem byteAt_lt (w : UInt64) (i : ℕ) : byteAt w i < 256 := Nat.mod_lt _ (by norm_num)

/-- The constant that has the same byte everywhere. -/
theorem byteAt_ones_mul (ht : t.toNat < 256) (hi : i < 8) : byteAt (ones * t) i = t.toNat := by
  have hones : ones.toNat = 72340172838076673 := rfl
  have hlt : ones.toNat * t.toNat < 2 ^ 64 := by
    rw [hones]
    omega
  have hall : ∀ b < 256, ∀ i < 8, ones.toNat * b / 256 ^ i % 256 = b := by decide +kernel
  rw [byteAt, UInt64.toNat_mul, Nat.mod_eq_of_lt hlt]
  exact hall _ ht i hi

theorem byteAt_xor (w v : UInt64) (i : ℕ) : byteAt (w ^^^ v) i = byteAt w i ^^^ byteAt v i := by
  have hpow : (256 : ℕ) ^ i = 2 ^ (8 * i) := by
    rw [pow_mul]
    norm_num
  have hmod : ∀ n : ℕ, n % 256 = n % 2 ^ 8 := fun n => rfl
  simp only [byteAt, UInt64.toNat_xor, hpow, hmod, ← Nat.shiftRight_eq_div_pow,
    Nat.shiftRight_xor_distrib, Nat.xor_mod_two_pow]

/-- Comparing byte by byte compares the low parts of two numbers. -/
theorem mod_le_mod_of_bytes {k n : ℕ} (h : ∀ j < i, k / 256 ^ j % 256 ≤ n / 256 ^ j % 256) :
    k % 256 ^ i ≤ n % 256 ^ i := by
  induction i with
  | zero => simp [Nat.mod_one]
  | succ i ih =>
    have hlow := ih fun j hj => h j (Nat.lt_succ_of_lt hj)
    have hbyte := Nat.mul_le_mul_left (256 ^ i) (h i (Nat.lt_succ_self i))
    rw [Nat.mod_pow_succ, Nat.mod_pow_succ]
    exact Nat.add_le_add hlow hbyte

/-- Without a borrow from below, a byte of a difference is the difference of the bytes. -/
theorem byteAt_sub (hi : i < 8) (h : ∀ j < i, byteAt v j ≤ byteAt w j) :
    byteAt (w - v) i = (byteAt w i + 256 - byteAt v i) % 256 := by
  -- the bytes below do not borrow
  have hlow : v.toNat % 256 ^ i ≤ w.toNat % 256 ^ i := mod_le_mod_of_bytes h
  have hsplit : 2 ^ 64 = 256 ^ i * (256 * 256 ^ (7 - i)) := by
    rw [← pow_succ', ← pow_add]
    have heq : i + (7 - i + 1) = 8 := by omega
    rw [heq]
    norm_num
  have hv : v.toNat < 2 ^ 64 := v.toNat_lt
  have hpos : 0 < 256 ^ i := by positivity
  have hw := Nat.div_add_mod w.toNat (256 ^ i)
  have hv' := Nat.div_add_mod v.toNat (256 ^ i)
  have hhigh : v.toNat / 256 ^ i < 256 * 256 ^ (7 - i) := by
    rw [Nat.div_lt_iff_lt_mul hpos, Nat.mul_comm, ← hsplit]
    exact hv
  have hsum : 2 ^ 64 - v.toNat + w.toNat =
      256 ^ i * (256 * 256 ^ (7 - i) - v.toNat / 256 ^ i + w.toNat / 256 ^ i) +
        (w.toNat % 256 ^ i - v.toNat % 256 ^ i) := by
    rw [Nat.mul_add, Nat.mul_sub, ← hsplit]
    have hle : 256 ^ i * (v.toNat / 256 ^ i) ≤ v.toNat := Nat.mul_div_le _ _
    omega
  have hrest : w.toNat % 256 ^ i - v.toNat % 256 ^ i < 256 ^ i :=
    (Nat.sub_le _ _).trans_lt (Nat.mod_lt _ hpos)
  rw [byteAt, UInt64.toNat_sub, hsum]
  conv_lhs => rw [hsplit]
  rw [Nat.mod_mul_right_div_self, Nat.mod_mod_of_dvd _ (Nat.dvd_mul_right 256 _),
    Nat.mul_add_div hpos, Nat.div_eq_of_lt hrest, byteAt, byteAt]
  omega

theorem testBit_highs {b : ℕ} (h : highs.toNat.testBit b = true) : b < 64 ∧ b % 8 = 7 := by
  have hb : b < 64 := by
    by_contra hge
    have hlt : highs.toNat < 2 ^ b :=
      highs.toNat_lt.trans_le (Nat.pow_le_pow_right (by norm_num) (Nat.le_of_not_lt hge))
    rw [Nat.testBit_lt_two_pow hlt] at h
    exact Bool.noConfusion h
  have hall : ∀ b < 64, highs.toNat.testBit b = true → b % 8 = 7 := by decide +kernel
  exact ⟨hb, hall b hb h⟩

theorem testBit_not (hi : i < 64) : (~~~w).toNat.testBit i = !w.toNat.testBit i := by
  rw [← UInt64.toNat_toBitVec, UInt64.toBitVec_not, ← BitVec.getLsbD, BitVec.getLsbD_not,
    decide_eq_true hi, Bool.true_and]
  rfl

end Bytes

section Tests

variable {f g w t c : UInt64} {p q : ℕ → Prop}

/-- The test for the bytes below a bound. -/
theorem marks_flagsBelow (w : UInt64) (ht : t.toNat ≤ 128) :
    Marks (flagsBelow t w) fun i => byteAt w i < t.toNat := by
  have ht' : t.toNat < 256 := by omega
  constructor
  · intro b hb
    rw [flagsBelow, UInt64.toNat_and, Nat.testBit_and, Bool.and_eq_true] at hb
    exact testBit_highs hb.2
  · intro i hi hlow
    have hall : ∀ i < 8, highs.toNat.testBit (8 * i + 7) = true := by decide +kernel
    have hhigh := hall i hi
    have hborrow : ∀ j < i, byteAt (ones * t) j ≤ byteAt w j := by
      intro j hj
      rw [byteAt_ones_mul ht' (hj.trans hi)]
      exact Nat.le_of_not_lt (hlow j hj)
    have hw := byteAt_lt w i
    simp only [flagsBelow, UInt64.toNat_and, Nat.testBit_and, hhigh, Bool.and_true,
      testBit_not (show 8 * i + 7 < 64 by omega), Bool.and_eq_true, Bool.not_eq_true',
      ← Bool.not_eq_true, testBit_high, byteAt_sub hi hborrow, byteAt_ones_mul ht' hi]
    omega

theorem zeroBytes_eq (w : UInt64) : zeroBytes w = flagsBelow 1 w := by
  rw [zeroBytes, flagsBelow, UInt64.mul_one]

/-- The test for the bytes equal to `c`. -/
theorem marks_flagsEqual (w : UInt64) (hc : c.toNat < 256) :
    Marks (zeroBytes (w ^^^ ones * c)) fun i => byteAt w i = c.toNat := by
  have hbelow := marks_flagsBelow (t := 1) (w ^^^ ones * c) (by decide)
  have hiff : ∀ i < 8, byteAt (w ^^^ ones * c) i < (1 : UInt64).toNat ↔ byteAt w i = c.toNat := by
    intro i hi
    rw [byteAt_xor, byteAt_ones_mul hc hi, UInt64.toNat_one, Nat.lt_one_iff, Nat.xor_eq_zero_iff]
  rw [zeroBytes_eq]
  refine ⟨hbelow.high, fun i hi hlow => ?_⟩
  rw [← hiff i hi]
  exact hbelow.exact i hi fun j hj => (hiff j (hj.trans hi)).not.mpr (hlow j hj)

/-- Two tests at once. -/
theorem Marks.or (hf : Marks f p) (hg : Marks g q) : Marks (f ||| g) fun i => p i ∨ q i := by
  constructor
  · intro b hb
    rw [UInt64.toNat_or, Nat.testBit_or, Bool.or_eq_true] at hb
    exact hb.elim (hf.high b) (hg.high b)
  · intro i hi hlow
    rw [UInt64.toNat_or, Nat.testBit_or, Bool.or_eq_true,
      hf.exact i hi fun j hj h => hlow j hj (.inl h),
      hg.exact i hi fun j hj h => hlow j hj (.inr h)]

/-- A word without flags has no byte that passes. -/
theorem Marks.not_of_eq_zero (h : Marks f p) (hf : f = 0) : ∀ i < 8, ¬ p i := by
  intro i
  induction i using Nat.strong_induction_on with
  | _ i ih =>
    intro hi hp
    have hbit := (h.exact i hi fun j hj => ih j hj (hj.trans hi)).mpr hp
    rw [hf, UInt64.toNat_zero, Nat.zero_testBit] at hbit
    exact Bool.noConfusion hbit

/-- The lowest flag is at the first byte that passes. -/
theorem Marks.countrZero (h : Marks f p) (hf : f ≠ 0) :
    countrZero f / 8 < 8 ∧ p (countrZero f / 8) ∧ ∀ j < countrZero f / 8, ¬ p j := by
  have hset : ∃ b, f.toNat.testBit b = true := by
    refine Nat.exists_testBit_of_ne_zero ?_
    exact fun hzero => hf (UInt64.toNat_inj.mp hzero)
  have hmem : ∃ b ∈ List.range 64, f.toNat.testBit b = true := by
    obtain ⟨b, hb⟩ := hset
    exact ⟨b, List.mem_range.mpr (h.high b hb).1, hb⟩
  have hlt : Swar.countrZero f < 64 := by
    have hidx := List.findIdx_lt_length_of_exists hmem
    rwa [List.length_range] at hidx
  have hlen : Swar.countrZero f < (List.range 64).length := by rwa [List.length_range]
  have hbit : f.toNat.testBit (Swar.countrZero f) = true := by
    have hfound : f.toNat.testBit (List.range 64)[Swar.countrZero f] = true :=
      List.findIdx_getElem
    rwa [List.getElem_range] at hfound
  have hlower : ∀ b < Swar.countrZero f, f.toNat.testBit b = false := by
    intro b hb
    have hnot := List.not_of_lt_findIdx hb
    rwa [List.getElem_range] at hnot
  have hmod := (h.high _ hbit).2
  -- the byte of the lowest flag and those below it
  have hbelow : ∀ j < Swar.countrZero f / 8, ¬ p j := by
    intro j
    induction j using Nat.strong_induction_on with
    | _ j ih =>
      intro hj hp
      have hflag := (h.exact j (by omega) fun k hk => ih k hk (hk.trans hj)).mpr hp
      rw [hlower _ (by omega)] at hflag
      exact Bool.noConfusion hflag
  have hpos : 8 * (Swar.countrZero f / 8) + 7 = Swar.countrZero f := by omega
  refine ⟨by omega, (h.exact _ (by omega) hbelow).mp ?_, hbelow⟩
  rwa [hpos]

end Tests

end Swar
