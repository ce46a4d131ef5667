import Cob.Command
import Cob.Lib.Fueled
import Mathlib.Tactic.Ring

/-!
# The hash function

`rapidhash_internal` and its two smaller siblings, read from memory: a read outside the key is
stuck, and so is a loop that does not end. `RapidConfig` holds the choices that the header leaves
to the compiler.

The module introduces:

* `rapidhashInternal`, `rapidhashMicroInternal`, `rapidhashNanoInternal` — the three functions, as
  instances of `hashWith`;
* `returns_rapidhash` — they return a hash for every key;
* `rapidhash_variants` — the unrolled loop and the portable multiplication give the same hash;
* `Absorbing`, `flags_absorbed` — the keys whose hash forgets the seed, and with it everything
  that `hashCommand` has hashed before.
-/

namespace Cob.RapidHash

open Fueled

/-- What the macros of the header select. -/
structure RapidConfig where
  /-- `__SIZEOF_INT128__` -/
  int128 : Bool
  /-- `RAPIDHASH_PROTECTED` -/
  isProtected : Bool
  /-- `RAPIDHASH_UNROLLED` -/
  unrolled : Bool
  deriving DecidableEq

/-- What the build of the program selects. -/
def RapidConfig.default : RapidConfig := ⟨true, false, false⟩

/-- `rapid_secret`. -/
def rapidSecret (k : ℕ) : UInt64 :=
  [0x2d358dccaa6c78a5, 0x8bb84b93962eacc9, 0x4b33a62ed433d4a3, 0x4d5a2da51de1aa47,
    0xa0761d6478bd642f, 0xe7037ed1a0b428db, 0x90ed1765281c388c, 0xaaaaaaaaaaaaaaaa].getD k 0

/-- The product of two words as its low and its high word, by `__uint128_t`. -/
def wideMul (a b : UInt64) : UInt64 × UInt64 :=
  (.ofNat (a.toNat * b.toNat), .ofNat (a.toNat * b.toNat / 18446744073709551616))

/-- The same product by its four parts of 32 bits. -/
def portableMul (a b : UInt64) : UInt64 × UInt64 :=
  let ha := a >>> 32
  let hb := b >>> 32
  let la := a.toUInt32.toUInt64
  let lb := b.toUInt32.toUInt64
  let rh := ha * hb
  let rm0 := ha * lb
  let rm1 := hb * la
  let rl := la * lb
  -- the carries of the two sums into the low word
  let t := rl + (rm0 <<< 32)
  let c : UInt64 := if t < rl then 1 else 0
  let lo := t + (rm1 <<< 32)
  let c := c + if lo < t then 1 else 0
  (lo, rh + (rm0 >>> 32) + (rm1 >>> 32) + c)

/-- `rapid_mum`. -/
def rapidMum (cfg : RapidConfig) (a b : UInt64) : UInt64 × UInt64 :=
  let r := if cfg.int128 then wideMul a b else portableMul a b
  if cfg.isProtected then (a ^^^ r.1, b ^^^ r.2) else r

section Hash

variable (mum : UInt64 → UInt64 → UInt64 × UInt64)

/-- `rapid_mix`. -/
def rapidMix (a b : UInt64) : UInt64 := (mum a b).1 ^^^ (mum a b).2

variable (key : Bytes)

/-- `p[pos]`. -/
def readByte (pos : ℕ) : Fueled UInt64 :=
  match key[pos]? with
  | some b => pure b.toUInt64
  | none => .error .outOfBounds

/-- `rapid_read32` and `rapid_read64`, little-endian: the `n` bytes from `pos` on. -/
def readWord (n pos : ℕ) : Fueled UInt64 :=
  if pos + n ≤ key.length then
    pure (((key.drop pos).take n).foldr (fun b w => b.toUInt64 + 256 * w) 0)
  else .error .outOfBounds

variable (secret : ℕ → UInt64)

/-- `rapid_mix(rapid_read64(p) ^ secret, rapid_read64(p + 8) ^ see)`. -/
def mixAt (secret : UInt64) (pos : ℕ) (see : UInt64) : Fueled UInt64 := do
  let x ← readWord key 8 pos
  let y ← readWord key 8 (pos + 8)
  pure (rapidMix mum (x ^^^ secret) (y ^^^ see))

/-- The lines of a round, one for each of `seed`, `see1`, `see2`, …, from the `k`-th on. -/
def roundFrom (pos : ℕ) : ℕ → List UInt64 → Fueled (List UInt64)
  | _, [] => pure []
  | k, see :: sees => do
    let see ← mixAt mum key (secret k) (pos + 16 * k) see
    let sees ← roundFrom pos (k + 1) sees
    pure (see :: sees)

/-- The lanes `seed`, `see1`, …, the pointer `p`, and the bytes `i` left from there on. -/
structure Bulk where
  lanes : List UInt64
  pos : ℕ
  i : ℕ

/-- A round moves on by 16 bytes for each lane. -/
def Bulk.round (s : Bulk) : Fueled Bulk := do
  let lanes ← roundFrom mum key secret s.pos 0 s.lanes
  pure ⟨lanes, s.pos + 16 * s.lanes.length, s.i - 16 * s.lanes.length⟩

/-- One pass of the `do … while (i > stride)` loop. -/
def compactBody (s : Bulk) : Fueled (Bulk ⊕ Bulk) := do
  let s' ← s.round mum key secret
  pure (if 16 * s.lanes.length < s'.i then .inl s' else .inr s')

/-- One pass of the `while (i > 2 * stride)` loop. -/
def unrolledBody (s : Bulk) : Fueled (Bulk ⊕ Bulk) :=
  if 2 * (16 * s.lanes.length) < s.i then do
    let s ← s.round mum key secret
    let s ← s.round mum key secret
    pure (.inl s)
  else pure (.inr s)

/-- The rounds while more than a stride is left, for a key that is longer than a stride. -/
def rounds (unrolled : Bool) (s : Bulk) : Fueled Bulk :=
  if unrolled then do
    let s ← loop (unrolledBody mum key secret) (key.length + 1) s
    if 16 * s.lanes.length < s.i then s.round mum key secret else pure s
  else loop (compactBody mum key secret) (key.length + 1) s

/-- `if (len > 112)`, with the lanes put together by `combine`. It gives `seed`, `p` and `i`. -/
def bulk (unrolled : Bool) (lanes : ℕ) (combine : List UInt64 → UInt64) (seed : UInt64) :
    Fueled (UInt64 × ℕ × ℕ) :=
  if 16 * lanes < key.length then do
    let s ← rounds mum key secret unrolled ⟨List.replicate lanes seed, 0, key.length⟩
    pure (combine s.lanes, s.pos, s.i)
  else pure (seed, 0, key.length)

/-- The nested `if (i > 16)`, `if (i > 32)`, …, one for each of the given indices of `secret`. -/
def tail (pos i : ℕ) : ℕ → List ℕ → UInt64 → Fueled UInt64
  | _, [], seed => pure seed
  | k, j :: js, seed =>
    if 16 * (k + 1) < i then do
      let seed ← mixAt mum key (secret j) (pos + 16 * k) seed
      tail pos i (k + 1) js seed
    else pure seed

/-- The last lines, after `a` and `b` were read. -/
def finish (a b seed : UInt64) (i : ℕ) : UInt64 :=
  let r := mum (a ^^^ secret 1) (b ^^^ seed)
  rapidMix mum (r.1 ^^^ secret 7) (r.2 ^^^ secret 1 ^^^ .ofNat i)

/-- `a`, `b` and `seed` of a key of at most 16 bytes. -/
def shortKey (seed : UInt64) : Fueled (UInt64 × UInt64 × UInt64) :=
  let len := key.length
  -- the first and the last word, which may overlap
  if 4 ≤ len then do
    let seed := seed ^^^ .ofNat len
    if 8 ≤ len then do
      let a ← readWord key 8 0
      let b ← readWord key 8 (len - 8)
      pure (a, b, seed)
    else do
      let a ← readWord key 4 0
      let b ← readWord key 4 (len - 4)
      pure (a, b, seed)
  -- one to three bytes: the first, the last and the middle one
  else if 0 < len then do
    let first ← readByte key 0
    let last ← readByte key (len - 1)
    let b ← readByte key (len >>> 1)
    pure ((first <<< 45) ||| last, b, seed)
  else pure (0, 0, seed)

/-- What the three functions share: `lanes` lanes that `combine` puts together in a long key, and
the indices of `secret` in the nested `if`s. -/
def hashWith (unrolled : Bool) (lanes : ℕ) (combine : List UInt64 → UInt64) (indices : List ℕ)
    (seed : UInt64) : Fueled UInt64 :=
  let seed := seed ^^^ rapidMix mum (seed ^^^ secret 2) (secret 1)
  let len := key.length
  if len ≤ 16 then do
    let (a, b, seed) ← shortKey key seed
    pure (finish mum secret a b seed len)
  else do
    let (seed, pos, i) ← bulk mum key secret unrolled lanes combine seed
    let seed ← tail mum key secret pos i 0 indices seed
    let a ← readWord key 8 (pos + i - 16)
    let b ← readWord key 8 (pos + i - 8)
    pure (finish mum secret (a ^^^ .ofNat i) b seed i)

/-- `rapidhash_internal`. -/
def rapidhashInternal (cfg : RapidConfig) : UInt64 → Fueled UInt64 :=
  hashWith (rapidMum cfg) key secret cfg.unrolled 7
    (fun l => l.getD 0 0 ^^^ l.getD 1 0 ^^^ l.getD 6 0 ^^^
      ((l.getD 2 0 ^^^ l.getD 3 0) ^^^ (l.getD 4 0 ^^^ l.getD 5 0)))
    [2, 2, 1, 1, 2, 1]

/-- `rapidhashMicro_internal`. -/
def rapidhashMicroInternal (cfg : RapidConfig) : UInt64 → Fueled UInt64 :=
  hashWith (rapidMum cfg) key secret false 5
    (fun l => l.getD 0 0 ^^^ l.getD 1 0 ^^^ l.getD 4 0 ^^^ (l.getD 2 0 ^^^ l.getD 3 0))
    [2, 2, 1, 1]

/-- `rapidhashNano_internal`. -/
def rapidhashNanoInternal (cfg : RapidConfig) : UInt64 → Fueled UInt64 :=
  hashWith (rapidMum cfg) key secret false 3
    (fun l => l.getD 0 0 ^^^ l.getD 1 0 ^^^ l.getD 2 0)
    [2, 2]

/-- `rapidhash_withSeed`. -/
def rapidhashWithSeed (cfg : RapidConfig) (seed : UInt64) : Fueled UInt64 :=
  rapidhashInternal key rapidSecret cfg seed

end Hash

/-! ### The product of two words -/

/-- Adding the parts with their carries gives the two halves of the product. -/
theorem halves_of_parts {p q r s : ℕ} (hs : s < 18446744073709551616) :
    let t := (s + q * 4294967296 % 18446744073709551616) % 18446744073709551616
    let lo := (t + r * 4294967296 % 18446744073709551616) % 18446744073709551616
    let total := 18446744073709551616 * p + 4294967296 * (q + r) + s
    lo = total % 18446744073709551616 ∧
      p + q / 4294967296 + r / 4294967296 + ((if t < s then 1 else 0) + if lo < t then 1 else 0) =
        total / 18446744073709551616 := by
  dsimp only
  constructor
  · omega
  · split_ifs <;> omega

theorem toNat_ite (c : Prop) [Decidable c] :
    (if c then (1 : UInt64) else 0).toNat = if c then 1 else 0 := by
  split_ifs <;> rfl

/-- The product of two halves fits in a word. -/
theorem toNat_mul_half {x y : UInt64} (hx : x.toNat < 4294967296) (hy : y.toNat < 4294967296) :
    (x * y).toNat = x.toNat * y.toNat ∧ x.toNat * y.toNat ≤ 18446744065119617025 := by
  have hle : x.toNat * y.toNat ≤ 4294967295 * 4294967295 := Nat.mul_le_mul (by omega) (by omega)
  refine ⟨?_, hle⟩
  rw [UInt64.toNat_mul]
  exact Nat.mod_eq_of_lt (by omega)

/-- The four parts of 32 bits give the product of 64 by 64 bits. -/
theorem portableMul_eq (a b : UInt64) : portableMul a b = wideMul a b := by
  have hhigh : ∀ w : UInt64, (w >>> 32).toNat = w.toNat / 4294967296 := by
    intro w
    simp [Nat.shiftRight_eq_div_pow]
  have hlow : ∀ w : UInt64, w.toUInt32.toUInt64.toNat = w.toNat % 4294967296 := by
    intro w
    simp
  have hha : (a >>> 32).toNat < 4294967296 := by have := a.toNat_lt; rw [hhigh]; omega
  have hhb : (b >>> 32).toNat < 4294967296 := by have := b.toNat_lt; rw [hhigh]; omega
  have hla : a.toUInt32.toUInt64.toNat < 4294967296 := by rw [hlow]; omega
  have hlb : b.toUInt32.toUInt64.toNat < 4294967296 := by rw [hlow]; omega
  -- none of the four products of halves overflows
  obtain ⟨hrh, hrh'⟩ := toNat_mul_half hha hhb
  obtain ⟨hrm0, hrm0'⟩ := toNat_mul_half hha hlb
  obtain ⟨hrm1, hrm1'⟩ := toNat_mul_half hhb hla
  obtain ⟨hrl, hrl'⟩ := toNat_mul_half hla hlb
  -- the product is the sum of the four, each at its place
  have htotal : a.toNat * b.toNat =
      18446744073709551616 * ((a >>> 32) * (b >>> 32)).toNat +
        4294967296 * (((a >>> 32) * b.toUInt32.toUInt64).toNat +
          ((b >>> 32) * a.toUInt32.toUInt64).toNat) +
        (a.toUInt32.toUInt64 * b.toUInt32.toUInt64).toNat := by
    rw [hrh, hrm0, hrm1, hrl, hhigh, hhigh, hlow, hlow]
    have hA := Nat.div_add_mod a.toNat 4294967296
    have hB := Nat.div_add_mod b.toNat 4294967296
    generalize a.toNat / 4294967296 = a1 at *
    generalize a.toNat % 4294967296 = a0 at *
    generalize b.toNat / 4294967296 = b1 at *
    generalize b.toNat % 4294967296 = b0 at *
    rw [← hA, ← hB]
    ring
  -- and the sum splits into halves as the code adds it up
  have hparts := halves_of_parts (p := ((a >>> 32) * (b >>> 32)).toNat)
    (q := ((a >>> 32) * b.toUInt32.toUInt64).toNat)
    (r := ((b >>> 32) * a.toUInt32.toUInt64).toNat)
    (s := (a.toUInt32.toUInt64 * b.toUInt32.toUInt64).toNat) (UInt64.toNat_lt _)
  rw [← htotal] at hparts
  have hlt := a.toNat_lt
  have hhalf : a.toNat * b.toNat / 18446744073709551616 < 18446744073709551616 := by
    have hle : a.toNat * b.toNat < 18446744073709551616 * 18446744073709551616 :=
      Nat.mul_lt_mul'' a.toNat_lt b.toNat_lt
    omega
  -- the four products are opaque from here on, which leaves linear arithmetic
  simp only [portableMul, wideMul]
  generalize (a >>> 32) * (b >>> 32) = rh at *
  generalize (a >>> 32) * b.toUInt32.toUInt64 = rm0 at *
  generalize (b >>> 32) * a.toUInt32.toUInt64 = rm1 at *
  generalize a.toUInt32.toUInt64 * b.toUInt32.toUInt64 = rl at *
  generalize a.toNat * b.toNat = total at *
  refine Prod.ext (UInt64.toNat_inj.mp ?_) (UInt64.toNat_inj.mp ?_)
  · simpa [Nat.shiftLeft_eq] using hparts.1
  · have hcarry := hparts.2
    simp only [UInt64.lt_iff_toNat_lt, UInt64.toNat_add, UInt64.toNat_shiftLeft, Nat.shiftLeft_eq,
      UInt64.toNat_shiftRight, Nat.shiftRight_eq_div_pow, UInt64.toNat_ofNat, UInt64.toNat_ofNat',
      toNat_ite, Nat.reducePow, Nat.reduceMod, Nat.mod_eq_of_lt hhalf]
    omega

/-- The multiplication does not depend on the compiler. -/
theorem rapidMum_eq {cfg cfg' : RapidConfig} (h : cfg.isProtected = cfg'.isProtected) :
    rapidMum cfg = rapidMum cfg' := by
  ext a b
  · simp only [rapidMum, portableMul_eq, ite_self, h]
  · simp only [rapidMum, portableMul_eq, ite_self, h]

/-! ### The rounds of a long key -/

section Rounds

variable {mum : UInt64 → UInt64 → UInt64 × UInt64} {key : Bytes} {secret : ℕ → UInt64} {n : ℕ}
  {s s' : Bulk}

variable (mum key secret) in
/-- A number of rounds, one after the other. -/
def roundsOf : ℕ → Bulk → Fueled Bulk
  | 0, s => pure s
  | k + 1, s => do
    let s ← s.round mum key secret
    roundsOf k s

theorem length_roundFrom {pos k : ℕ} {lanes lanes' : List UInt64}
    (h : roundFrom mum key secret pos k lanes = .ok lanes') : lanes'.length = lanes.length := by
  induction lanes generalizing k lanes' with
  | nil =>
    obtain rfl := Except.ok.inj h
    rfl
  | cons see sees ih =>
    obtain ⟨see', -, h⟩ := Fueled.bind_eq_ok.mp h
    obtain ⟨sees', hsees, h⟩ := Fueled.bind_eq_ok.mp h
    obtain rfl := Except.ok.inj h
    rw [List.length_cons, List.length_cons, ih hsees]

/-- What a round leaves. -/
theorem Bulk.round_ok (h : s.round mum key secret = .ok s') :
    s'.lanes.length = s.lanes.length ∧ s'.i = s.i - 16 * s.lanes.length := by
  obtain ⟨lanes, hlanes, h⟩ := Fueled.bind_eq_ok.mp h
  obtain rfl := Except.ok.inj h
  exact ⟨length_roundFrom hlanes, rfl⟩

/-- One round takes one stride. -/
theorem div_stride (hn : 0 < n) {i : ℕ} (h : 16 * n < i) :
    (i - 1) / (16 * n) = (i - 16 * n - 1) / (16 * n) + 1 := by
  rw [Nat.div_eq_sub_div (by omega) (by omega), show i - 1 - 16 * n = i - 16 * n - 1 by omega]

/-- The plain loop makes as many rounds as there are strides below the last byte. -/
theorem loop_compactBody (hn : 0 < n) {fuel : ℕ} (hlanes : s.lanes.length = n)
    (hmore : 16 * n < s.i) (hfuel : (s.i - 1) / (16 * n) ≤ fuel) :
    loop (compactBody mum key secret) fuel s =
      roundsOf mum key secret ((s.i - 1) / (16 * n)) s := by
  induction fuel generalizing s with
  | zero =>
    rw [div_stride hn hmore] at hfuel
    exact absurd hfuel (Nat.not_succ_le_zero _)
  | succ fuel ih =>
    rw [div_stride hn hmore] at hfuel ⊢
    cases hr : s.round mum key secret with
    | error e => simp [loop, compactBody, roundsOf, hr]
    | ok s' =>
      obtain ⟨hlanes', hi⟩ := Bulk.round_ok hr
      rw [hlanes] at hlanes' hi
      rw [← hi] at hfuel ⊢
      by_cases hagain : 16 * n < s'.i
      · simpa [loop, compactBody, roundsOf, hr, hlanes, hagain] using
          ih hlanes' hagain (by omega)
      · have hzero : (s'.i - 1) / (16 * n) = 0 := Nat.div_eq_of_lt (by omega)
        simp [loop, compactBody, roundsOf, hr, hlanes, hagain, hzero]
        rfl

/-- The unrolled loop and the round after it make the same rounds. -/
theorem loop_unrolledBody (hn : 0 < n) {fuel : ℕ} (hlanes : s.lanes.length = n)
    (hfuel : (s.i - 1) / (16 * n) < fuel) :
    (do
      let s ← loop (unrolledBody mum key secret) fuel s
      if 16 * s.lanes.length < s.i then s.round mum key secret else pure s) =
      roundsOf mum key secret ((s.i - 1) / (16 * n)) s := by
  -- two rounds, one round, or none are left before the end
  induction fuel generalizing s with
  | zero => exact absurd hfuel (Nat.not_lt_zero _)
  | succ fuel ih =>
    by_cases htwo : 2 * (16 * n) < s.i
    · rw [div_stride hn (by omega)] at hfuel ⊢
      cases hr : s.round mum key secret with
      | error e => simp [loop, unrolledBody, roundsOf, hr, hlanes, htwo]
      | ok s₁ =>
        obtain ⟨hlanes₁, hi₁⟩ := Bulk.round_ok hr
        rw [hlanes] at hlanes₁ hi₁
        rw [← hi₁, div_stride hn (by omega)] at hfuel ⊢
        cases hr₁ : s₁.round mum key secret with
        | error e => simp [loop, unrolledBody, roundsOf, hr, hr₁, hlanes, htwo]
        | ok s₂ =>
          obtain ⟨hlanes₂, hi₂⟩ := Bulk.round_ok hr₁
          rw [hlanes₁] at hlanes₂ hi₂
          rw [← hi₂] at hfuel ⊢
          have hrest := ih hlanes₂ (by omega)
          simpa [loop, unrolledBody, roundsOf, hr, hr₁, hlanes, htwo] using hrest
    · by_cases hone : 16 * n < s.i
      · have hcount : (s.i - 1) / (16 * n) = 1 := by
          rw [div_stride hn hone, Nat.div_eq_of_lt (by omega)]
        simp [loop, unrolledBody, roundsOf, hlanes, htwo, hone, hcount]
      · have hcount : (s.i - 1) / (16 * n) = 0 := Nat.div_eq_of_lt (by omega)
        simp [loop, unrolledBody, roundsOf, hlanes, htwo, hone, hcount]

/-- Both kinds of loop make the same rounds. -/
theorem rounds_eq (hn : 0 < n) (hlanes : s.lanes.length = n) (hmore : 16 * n < s.i)
    (hi : s.i ≤ key.length) (unrolled : Bool) :
    rounds mum key secret unrolled s = roundsOf mum key secret ((s.i - 1) / (16 * n)) s := by
  have hle : (s.i - 1) / (16 * n) ≤ s.i - 1 := Nat.div_le_self _ _
  cases unrolled with
  | true => exact loop_unrolledBody hn hlanes (by omega)
  | false => exact loop_compactBody hn hlanes hmore (by omega)

end Rounds

/-! ### Reads stay inside the key -/

section Safety

variable {mum : UInt64 → UInt64 → UInt64 × UInt64} {key : Bytes} {secret : ℕ → UInt64}
  {n pos k : ℕ} {seed see : UInt64} {s : Bulk}

theorem returns_readWord (h : pos + n ≤ key.length) :
    Returns (readWord key n pos) fun _ => True := by
  rw [readWord, if_pos h]
  exact returns_pure trivial

theorem returns_readByte (h : pos < key.length) : Returns (readByte key pos) fun _ => True := by
  rw [readByte, List.getElem?_eq_getElem h]
  exact returns_pure trivial

theorem returns_mixAt {c : UInt64} (h : pos + 16 ≤ key.length) :
    Returns (mixAt mum key c pos see) fun _ => True := by
  refine (returns_readWord (by omega)).bind fun x _ => ?_
  exact (returns_readWord (by omega)).bind fun y _ => returns_pure trivial

/-- A round reads 16 bytes for each lane, and keeps the number of lanes. -/
theorem returns_roundFrom {lanes : List UInt64} (h : pos + 16 * (k + lanes.length) ≤ key.length) :
    Returns (roundFrom mum key secret pos k lanes) fun l => l.length = lanes.length := by
  induction lanes generalizing k with
  | nil => exact returns_pure rfl
  | cons see sees ih =>
    rw [List.length_cons] at h
    refine (returns_mixAt (by omega)).bind fun see' _ => ?_
    refine (ih (k := k + 1) (by omega)).bind fun sees' hsees => returns_pure ?_
    rw [List.length_cons, List.length_cons, hsees]

/-- `p` and `i` meet at the end of the key, and `i` is what the rounds leave of its length. -/
structure Bulk.Inside (key : Bytes) (n : ℕ) (s : Bulk) : Prop where
  lanes : s.lanes.length = n
  end_eq : s.pos + s.i = key.length
  pos_i : 0 < s.i
  last : (s.i - 1) % (16 * n) = (key.length - 1) % (16 * n)

theorem Bulk.Inside.round (h : s.Inside key n) (hmore : 16 * n < s.i) :
    Returns (s.round mum key secret) fun s' => s'.Inside key n ∧ s'.i + 16 * n = s.i := by
  have hend := h.end_eq
  have hlanes := h.lanes
  refine (returns_roundFrom (by omega)).bind fun lanes hlanes' => ?_
  refine returns_pure ⟨⟨?_, ?_, ?_, ?_⟩, ?_⟩
  · exact hlanes'.trans hlanes
  · simp only [hlanes]
    omega
  · simp only [hlanes]
    omega
  · show (s.i - 16 * s.lanes.length - 1) % (16 * n) = _
    rw [← h.last, hlanes, ← Nat.add_mod_right]
    congr 1
    omega
  · simp only [hlanes]
    omega

/-- The loops of either kind leave between 1 and a stride of bytes. -/
theorem returns_rounds (hn : 0 < n) {unrolled : Bool} (h : s.Inside key n) (hmore : 16 * n < s.i) :
    Returns (rounds mum key secret unrolled s) fun s' => s'.Inside key n ∧ s'.i ≤ 16 * n := by
  have hend := h.end_eq
  rw [rounds_eq hn h.lanes hmore (by omega)]
  clear hmore hend
  generalize hk : (s.i - 1) / (16 * n) = k
  induction k generalizing s with
  | zero =>
    have hlt := Nat.div_eq_zero_iff.mp hk
    exact returns_pure ⟨h, by omega⟩
  | succ k ih =>
    have hmore : 16 * n < s.i := by
      by_contra hle
      rw [Nat.div_eq_of_lt (by have := h.pos_i; omega)] at hk
      omega
    refine (h.round hmore).bind fun s' hs' => ih hs'.1 ?_
    rw [div_stride hn hmore] at hk
    rw [show s'.i = s.i - 16 * n by omega]
    omega

theorem returns_tail {i : ℕ} {js : List ℕ} (h : pos + i = key.length) :
    Returns (tail mum key secret pos i k js seed) fun _ => True := by
  induction js generalizing k seed with
  | nil => exact returns_pure trivial
  | cons j js ih =>
    simp only [tail]
    split_ifs with hmore
    · exact (returns_mixAt (by omega)).bind fun seed' _ => ih
    · exact returns_pure trivial

theorem returns_shortKey : Returns (shortKey key seed) fun _ => True := by
  simp only [shortKey, Nat.shiftRight_one]
  split_ifs with hfour height hone
  · refine (returns_readWord (by omega)).bind fun a _ => ?_
    exact (returns_readWord (by omega)).bind fun b _ => returns_pure trivial
  · refine (returns_readWord (by omega)).bind fun a _ => ?_
    exact (returns_readWord (by omega)).bind fun b _ => returns_pure trivial
  · refine (returns_readByte (by omega)).bind fun first _ => ?_
    refine (returns_readByte (by omega)).bind fun last _ => ?_
    exact (returns_readByte (by omega)).bind fun b _ => returns_pure trivial
  · exact returns_pure trivial

/-- What is left of a key when the loops are done. -/
def lastLength (n len : ℕ) : ℕ := (len - 1) % (16 * n) + 1

variable (mum key secret seed) in
/-- The loops stop at the end of the key, less than a stride before it. -/
theorem returns_bulk (unrolled : Bool) (combine : List UInt64 → UInt64) (hn : 0 < n)
    (hpos : 0 < key.length) : Returns (bulk mum key secret unrolled n combine seed)
      fun r => r.2.1 + r.2.2 = key.length ∧ r.2.2 = lastLength n key.length := by
  simp only [bulk]
  split_ifs with hmore
  · have hinside : (⟨List.replicate n seed, 0, key.length⟩ : Bulk).Inside key n :=
      ⟨List.length_replicate, Nat.zero_add _, hpos, rfl⟩
    refine (returns_rounds hn hinside hmore).bind fun s hs => returns_pure ?_
    obtain ⟨⟨-, hend, hpos, hlast⟩, hle⟩ := hs
    have hlt : s.i - 1 < 16 * n := by omega
    refine ⟨hend, ?_⟩
    rw [lastLength, ← hlast, Nat.mod_eq_of_lt hlt]
    exact (Nat.sub_add_cancel hpos).symm
  · have hlt : key.length - 1 < 16 * n := by omega
    refine returns_pure ⟨Nat.zero_add _, ?_⟩
    rw [lastLength, Nat.mod_eq_of_lt hlt]
    exact (Nat.sub_add_cancel hpos).symm

variable (mum key secret) in
/-- The hash of a long key: the loops and the nested `if`s change nothing but `seed`. -/
theorem hashWith_long (unrolled : Bool) (combine : List UInt64 → UInt64) (indices : List ℕ)
    (hn : 0 < n) (hlong : 16 < key.length) (seed : UInt64) : ∃ seed',
      hashWith mum key secret unrolled n combine indices seed = (do
        let a ← readWord key 8 (key.length - 16)
        let b ← readWord key 8 (key.length - 8)
        pure (finish mum secret (a ^^^ .ofNat (lastLength n key.length)) b seed'
          (lastLength n key.length))) := by
  simp only [hashWith, if_neg (Nat.not_le_of_lt hlong)]
  obtain ⟨⟨seed₁, pos, i⟩, hbulk, hend, rfl⟩ := returns_bulk mum key secret
    (seed ^^^ rapidMix mum (seed ^^^ secret 2) (secret 1)) unrolled combine hn (by omega)
  have htails : Returns (tail mum key secret pos _ 0 indices seed₁) fun _ => True :=
    returns_tail hend
  obtain ⟨seed', htail, -⟩ := htails
  refine ⟨seed', ?_⟩
  simp only at hend htail
  simp only [hbulk, ok_bind, htail, hend]

/-- The functions return for every key: they never read outside it, and their loops end. -/
theorem returns_hashWith {unrolled : Bool} {combine : List UInt64 → UInt64} {indices : List ℕ}
    (hn : 0 < n) : Returns (hashWith mum key secret unrolled n combine indices seed)
      fun _ => True := by
  by_cases hshort : key.length ≤ 16
  · simp only [hashWith, if_pos hshort]
    exact returns_shortKey.bind fun r _ => returns_pure trivial
  · obtain ⟨seed', hr⟩ :=
      hashWith_long mum key secret unrolled combine indices hn (Nat.lt_of_not_le hshort) seed
    rw [hr]
    refine (returns_readWord (by omega)).bind fun a _ => ?_
    exact (returns_readWord (by omega)).bind fun b _ => returns_pure trivial

end Safety

/-- `rapidhash_internal` and its siblings return a hash for every key, seed and secret: no read is
outside the key. -/
theorem returns_rapidhash (cfg : RapidConfig) (key : Bytes) (secret : ℕ → UInt64) (seed : UInt64) :
    (∃ hash, rapidhashInternal key secret cfg seed = .ok hash) ∧
      (∃ hash, rapidhashMicroInternal key secret cfg seed = .ok hash) ∧
      ∃ hash, rapidhashNanoInternal key secret cfg seed = .ok hash := by
  have hreturns : ∀ {m : Fueled UInt64}, Returns m (fun _ => True) → ∃ hash, m = .ok hash :=
    fun ⟨hash, h, _⟩ => ⟨hash, h⟩
  exact ⟨hreturns (returns_hashWith (by decide)), hreturns (returns_hashWith (by decide)),
    hreturns (returns_hashWith (by decide))⟩

/-! ### The choices of the compiler -/

section Variants

variable {mum : UInt64 → UInt64 → UInt64 × UInt64} {key : Bytes} {secret : ℕ → UInt64} {n : ℕ}

/-- Unrolling the loop changes nothing. -/
theorem hashWith_unrolled (hn : 0 < n) (combine : List UInt64 → UInt64) (indices : List ℕ)
    (unrolled unrolled' : Bool) :
    hashWith mum key secret unrolled n combine indices =
      hashWith mum key secret unrolled' n combine indices := by
  have hbulk :
      bulk mum key secret unrolled n combine = bulk mum key secret unrolled' n combine := by
    ext1 seed
    simp only [bulk]
    split_ifs with hmore
    · have hlanes : (⟨List.replicate n seed, 0, key.length⟩ : Bulk).lanes.length = n :=
        List.length_replicate
      rw [rounds_eq hn hlanes hmore (le_refl _), rounds_eq hn hlanes hmore (le_refl _)]
    · rfl
  ext1 seed
  simp only [hashWith, hbulk]

end Variants

/-- With or without a 128-bit product, compact or unrolled, the hash is the same. -/
theorem rapidhash_variants {cfg cfg' : RapidConfig} (h : cfg.isProtected = cfg'.isProtected)
    (key : Bytes) (secret : ℕ → UInt64) (seed : UInt64) :
    rapidhashInternal key secret cfg seed = rapidhashInternal key secret cfg' seed ∧
      rapidhashMicroInternal key secret cfg seed = rapidhashMicroInternal key secret cfg' seed ∧
      rapidhashNanoInternal key secret cfg seed = rapidhashNanoInternal key secret cfg' seed := by
  have hmum := rapidMum_eq h
  refine ⟨?_, ?_, ?_⟩
  · rw [rapidhashInternal, rapidhashInternal, hmum]
    exact congrFun (hashWith_unrolled (by decide) _ _ _ _) seed
  · rw [rapidhashMicroInternal, rapidhashMicroInternal, hmum]
  · rw [rapidhashNanoInternal, rapidhashNanoInternal, hmum]

/-- Where there is no 128-bit product, the loop may still be unrolled. -/
theorem rapidhash_variants_portable :
    rapidhashInternal (ascii "a") rapidSecret .default 0 =
      rapidhashInternal (ascii "a") rapidSecret ⟨false, false, true⟩ 0 :=
  (@rapidhash_variants .default ⟨false, false, true⟩ rfl (ascii "a") rapidSecret 0).1

/-! ### Keys that forget the seed -/

/-- The word that decides whether the product is zero: the first of a short key, and of a longer
key the last but one, which is compared with the secret up to what is left of the length. -/
def Absorbing (key : Bytes) : Prop :=
  readWord key 8 (if key.length ≤ 16 then 0 else key.length - 16) =
    .ok (if key.length ≤ 16 then rapidSecret 1
      else rapidSecret 1 ^^^ .ofNat (lastLength 7 key.length))

instance (key : Bytes) : Decidable (Absorbing key) := inferInstanceAs (Decidable (_ = _))

/-- What a zero product makes of the rest. -/
def absorbed (i : ℕ) : UInt64 :=
  rapidMix (rapidMum .default) (rapidSecret 7) (rapidSecret 1 ^^^ .ofNat i)

/-- A zero factor makes both words of the product zero, so `b` and `seed` are lost. -/
theorem finish_absorbed {a b seed : UInt64} {i : ℕ} (ha : a = rapidSecret 1) :
    finish (rapidMum .default) rapidSecret a b seed i = absorbed i := by
  have hzero : ∀ w, rapidMum .default 0 w = (0, 0) := by
    intro w
    simp [rapidMum, RapidConfig.default, wideMul]
  simp [finish, absorbed, ha, hzero]

/-- The last eight bytes of a key can be read. -/
theorem exists_lastWord (key : Bytes) (h : 8 ≤ key.length) :
    ∃ b, readWord key 8 (key.length - 8) = .ok b := by
  rw [readWord, if_pos (by omega)]
  exact ⟨_, rfl⟩

/-- The hash of an absorbing key depends on its length alone. -/
theorem rapidhash_absorbing {key : Bytes} (h : Absorbing key) (seed : UInt64) :
    rapidhashWithSeed key .default seed =
      .ok (absorbed (if key.length ≤ 16 then key.length else lastLength 7 key.length)) := by
  by_cases hshort : key.length ≤ 16
  · simp only [Absorbing, if_pos hshort] at h ⊢
    have height : 8 ≤ key.length := by
      by_contra hlt
      rw [readWord, if_neg (by omega)] at h
      cases h
    obtain ⟨b, hb⟩ := exists_lastWord key height
    simp only [rapidhashWithSeed, rapidhashInternal, hashWith, if_pos hshort, shortKey,
      if_pos (by omega : 4 ≤ key.length), if_pos height, h, hb, ok_bind, pure_bind]
    exact congrArg Except.ok (finish_absorbed rfl)
  · simp only [Absorbing, if_neg hshort] at h ⊢
    obtain ⟨seed', hlong⟩ := hashWith_long (rapidMum .default) key rapidSecret false
      (fun l => l.getD 0 0 ^^^ l.getD 1 0 ^^^ l.getD 6 0 ^^^
        ((l.getD 2 0 ^^^ l.getD 3 0) ^^^ (l.getD 4 0 ^^^ l.getD 5 0)))
      [2, 2, 1, 1, 2, 1] (n := 7) (by decide) (Nat.lt_of_not_le hshort) seed
    obtain ⟨b, hb⟩ := exists_lastWord key (by omega)
    refine Eq.trans hlong ?_
    simp only [h, hb, ok_bind]
    refine congrArg Except.ok (finish_absorbed ?_)
    rw [UInt64.xor_assoc, UInt64.xor_self, UInt64.xor_zero]

end Cob.RapidHash

namespace Cob

open RapidHash

/-- `rapid_hash`, as `hashCommand` calls it. -/
def rapidHash (key : Bytes) (seed : UInt64) : UInt64 :=
  match rapidhashWithSeed key .default seed with
  | .ok hash => hash
  | .error _ => 0

/-- What was hashed before an absorbing argument is forgotten. -/
theorem hashCommand_absorbing {arg : Bytes} (h : Absorbing arg)
    (before before' after : List Bytes) :
    hashCommand rapidHash (before ++ arg :: after) =
      hashCommand rapidHash (before' ++ arg :: after) := by
  have hforget : ∀ hash hash', rapidHash arg hash = rapidHash arg hash' := by
    intro hash hash'
    simp only [rapidHash, rapidhash_absorbing h]
  simp only [hashCommand, List.foldl_append, List.foldl_cons]
  rw [hforget _ 0, hforget (List.foldl _ _ before') 0]

/-- The hash of a compile command with an absorbing argument, such as the name of its output, does
not depend on the compiler or its flags, so changing them leaves the output up to date. -/
theorem flags_absorbed {st : BuildStep} {arg : Bytes} (h : Absorbing arg)
    (htool : st.tool = ascii "cc" ∨ st.tool = ascii "cxx") (harg : arg ∈ compileArgs st)
    (flags flags' : ToolchainFlags) (usable usable' : Bool) :
    hashCommand rapidHash (buildCommandArgs st flags usable) =
      hashCommand rapidHash (buildCommandArgs st flags' usable') := by
  obtain ⟨init, rest, hsplit⟩ := List.append_of_mem harg
  have hcommand : ∀ flags usable, ∃ compiler,
      buildCommandArgs st flags usable = (compiler ++ init) ++ arg :: rest := by
    intro flags usable
    rcases htool with hcc | hcxx
    · refine ⟨addParts flags.cc ++ addParts flags.cflags, ?_⟩
      simp only [buildCommandArgs, if_pos hcc, hsplit, List.append_assoc]
    · have hne : st.tool ≠ ascii "cc" := by
        rw [hcxx]
        decide
      refine ⟨addParts flags.cxx ++ addParts flags.cxxflags, ?_⟩
      simp only [buildCommandArgs, if_neg hne, if_pos hcxx, hsplit, List.append_assoc]
  obtain ⟨before, hbefore⟩ := hcommand flags usable
  obtain ⟨before', hbefore'⟩ := hcommand flags' usable'
  rw [hbefore, hbefore']
  exact hashCommand_absorbing h _ _ _

/-- A file name of eight bytes that is absorbing. -/
def absorbingName : Bytes := [0xc9, 0xac, 0x2e, 0x96, 0x93, 0x4b, 0xb8, 0x8b]

/-- Compiling the file with optimisation has the hash of compiling it without. -/
theorem flags_absorbed_name :
    hashCommand rapidHash (buildCommandArgs
      { tool := ascii "cc", inputs := ascii "s", output := absorbingName }
      { ToolchainFlags.ofDefinitions .empty with cflags := [ascii "-O2"] } false) =
    hashCommand rapidHash (buildCommandArgs
      { tool := ascii "cc", inputs := ascii "s", output := absorbingName }
      (.ofDefinitions .empty) false) :=
  @flags_absorbed _ absorbingName (by decide) (.inl rfl) (by simp [compileArgs]) _ _ _ _

end Cob
