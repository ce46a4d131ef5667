import Cob.Graph.Quoting
import Cob.Lib.Codec
import Cob.Lib.Fueled
import Cob.Lib.Swar

/-!
# Pointers into dependency files

`parseDepfile` again, now with its pointers: a position in the mapped file in place of a pointer,
reads that are stuck outside the file, and loops that are stuck when their rounds are used up. The
word loop of `findTokenSpecial` is that of a little-endian target.

* `scanDepfile` — the slices that are passed to `decodeDepfileToken`;
* `LineEnd` — a line end that is not part of a continuation;
* `skipWhitespace_spec`, `findTokenSpecial_spec` — the helpers return inside the file, where the
  reader without pointers is.
-/

namespace Cob

namespace DepfileScan

open Fueled

/-! ### Reading -/

/-- `*ptr`. -/
def deref (content : Bytes) (ptr : ℕ) : Fueled UInt8 :=
  match content[ptr]? with
  | some c => .ok c
  | none => .error .outOfBounds

/-- `ptr < end` and a test of the byte there. -/
def holdsAt (content : Bytes) (ptr : ℕ) (test : UInt8 → Bool) : Fueled Bool :=
  if ptr < content.length then do return test (← deref content ptr) else return false

/-- `first && ptr < end` and a test of the byte there. -/
def thenHoldsAt (first : Bool) (content : Bytes) (ptr : ℕ) (test : UInt8 → Bool) : Fueled Bool :=
  if first then holdsAt content ptr test else return false

/-- `if (ptr < end && *ptr == c) ptr++`. -/
def skipByte (content : Bytes) (ptr : ℕ) (c : UInt8) : Fueled ℕ := do
  if ← holdsAt content ptr (· = c) then return ptr + 1 else return ptr

/-- The eight bytes from `ptr` on. -/
def readWord (content : Bytes) (ptr : ℕ) : Fueled UInt64 :=
  if ptr + 8 ≤ content.length then
    .ok (UInt64.ofNat (Codec.natOfBytes ((content.drop ptr).take 8)))
  else .error .outOfBounds

/-- `--ptr`, never to before the file. -/
def back : ℕ → Fueled ℕ
  | 0 => .error .outOfBounds
  | ptr + 1 => .ok ptr

/-! ### The scanner -/

/-- A line feed or a carriage return. -/
def isNewline (c : UInt8) : Bool := c = chr '\n' || c = chr '\r'

/-- A round of `skipWhitespace`. -/
def whitespaceRound (content : Bytes) (ptr : ℕ) : Fueled (ℕ ⊕ ℕ) :=
  if ptr < content.length then do
    let c ← deref content ptr
    if chr ' ' < c ∧ c ≠ chr '\\' then return .inr ptr
    else if isNewline c then return .inr ptr
    else if c ≤ chr ' ' then return .inl (ptr + 1)
    else if ← holdsAt content (ptr + 1) isNewline then do
      let ptr ← skipByte content (ptr + 1) (chr '\r')
      let ptr ← skipByte content ptr (chr '\n')
      return .inl ptr
    else return .inr ptr -- an escaped character starts a file name
  else return .inr ptr

/-- `skipWhitespace`. -/
def skipWhitespace (fuel : ℕ) (content : Bytes) (ptr : ℕ) : Fueled ℕ :=
  loop (whitespaceRound content) fuel ptr

/-- The flags of the special bytes of a word. -/
def specialHits (word : UInt64) : UInt64 :=
  Swar.flagsBelow (chr '!').toUInt64 word |||
    Swar.zeroBytes (word ^^^ Swar.ones * (chr '\\').toUInt64) |||
      Swar.zeroBytes (word ^^^ Swar.ones * (chr '#').toUInt64) |||
        Swar.zeroBytes (word ^^^ Swar.ones * (chr '$').toUInt64)

/-- A round of the word loop of `findTokenSpecial`, which is left with what was found. -/
def wordRound (content : Bytes) (ptr : ℕ) : Fueled (ℕ ⊕ Bool × ℕ) :=
  if ptr + 8 ≤ content.length then do
    let word ← readWord content ptr
    let hits := specialHits word
    if hits ≠ 0 then return .inr (true, ptr + Swar.countrZero hits / 8)
    else return .inl (ptr + 8)
  else return .inr (false, ptr)

/-- A round of `while (ptr < end && test(*ptr)) ++ptr`. -/
def scanRound (content : Bytes) (test : UInt8 → Bool) (ptr : ℕ) : Fueled (ℕ ⊕ ℕ) := do
  if ← holdsAt content ptr test then return .inl (ptr + 1) else return .inr ptr

/-- `findTokenSpecial`. -/
def findTokenSpecial (fuel : ℕ) (content : Bytes) (ptr : ℕ) : Fueled ℕ := do
  let (found, ptr) ← loop (wordRound content) fuel ptr
  if found then return ptr else loop (scanRound content (!Depfile.isSpecial ·)) fuel ptr

/-- A round of the loop over dollars in `extractToken`. -/
def dollarRound (fuel : ℕ) (content : Bytes) (s : ℕ × Bool) : Fueled (ℕ × Bool ⊕ ℕ × Bool) := do
  if ← holdsAt content s.1 (· = chr '$') then
    return .inl (← findTokenSpecial fuel content (s.1 + 1), true)
  else return .inr s

/-- The loop over escaped characters behind the run of backslashes from `slashStart` to `ptr`. -/
def afterSlashes (content : Bytes) (slashStart ptr : ℕ) : Fueled (ℕ ⊕ ℕ) :=
  if ptr = content.length then return .inr ptr
  else do
    let oddSlashes := (ptr - slashStart) % 2 ≠ 0
    let c ← deref content ptr
    if isNewline c then
      -- leave the continuation for `skipWhitespace`
      if oddSlashes then return .inr (← back ptr) else return .inr ptr
    else if c = chr '#' ∨ (oddSlashes ∧ (c = chr ' ' ∨ c = chr '\t')) then return .inl (ptr + 1)
    else return .inl ptr

/-- A round of the loop over escaped characters. -/
def escapedRound (fuel : ℕ) (content : Bytes) (ptr : ℕ) : Fueled (ℕ ⊕ ℕ) :=
  if ptr < content.length then do
    let c ← deref content ptr
    if c = chr '\\' then do
      afterSlashes content ptr (← loop (scanRound content (· = chr '\\')) fuel ptr)
    else if c ≤ chr ' ' ∨ c = chr '#' then return .inr ptr
    else return .inl (ptr + 1)
  else return .inr ptr

/-- `extractToken`: where the token ends, and whether it needs decoding. -/
def extractToken (fuel : ℕ) (content : Bytes) (start : ℕ) : Fueled (ℕ × Bool) := do
  let ptr ← findTokenSpecial fuel content start
  let (ptr, needsDecode) ← loop (dollarRound fuel content) fuel (ptr, false)
  if ← holdsAt content ptr (· = chr '\\') then
    return (← loop (escapedRound fuel content) fuel ptr, true)
  else return (ptr, needsDecode)

/-- A round of the target scan; the state is `ptr` and `target_start`, and the result is where the
scan stopped, none when there is no rule. -/
def targetRound (content : Bytes) (s : ℕ × ℕ) : Fueled (ℕ × ℕ ⊕ Option ℕ) :=
  let (ptr, targetStart) := s
  if ptr < content.length then do
    let c ← deref content ptr
    if isNewline c ∨ c = chr '#' then return .inr none
    -- the byte behind a backslash is passed, and a line end of two bytes as a whole
    else if c = chr '\\' ∧ ptr + 1 < content.length then do
      let ptr := ptr + 1
      let c ← deref content ptr
      let crlf ← thenHoldsAt (c = chr '\r') content (ptr + 1) (· = chr '\n')
      let ptr := if crlf then ptr + 1 else ptr
      return .inl (ptr + 1, targetStart)
    -- a colon behind a single byte and before a slash is that of a drive
    else if c = chr ':' then do
      let drivePrefix ← thenHoldsAt (ptr = targetStart + 1) content (ptr + 1) fun d =>
        d = chr '/' || d = chr '\\'
      if drivePrefix then return .inl (ptr + 1, targetStart) else return .inr (some (ptr + 1))
    -- a blank begins the next target
    else return .inl (ptr + 1, if c = chr ' ' ∨ c = chr '\t' then ptr + 1 else targetStart)
  else return .inr (some ptr)

/-- The target scan of `parseDepfile`. -/
def targetScan (content : Bytes) : Fueled (Option ℕ) :=
  loop (targetRound content) (content.length + 1) (0, 0)

/-- What `extractToken` hands to `decodeDepfileToken`: the slice from `start` to `stop`. -/
structure Token where
  start : ℕ
  stop : ℕ
  needsDecode : Bool
  deriving DecidableEq

/-- A round of the main loop of `parseDepfile`; the state is `ptr` and the tokens so far. -/
def tokenRound (content : Bytes) (s : ℕ × List Token) : Fueled (ℕ × List Token ⊕ List Token) :=
  let (ptr, tokens) := s
  let fuel := content.length + 1
  if ptr < content.length then do
    let ptr ← skipWhitespace fuel content ptr
    if ← holdsAt content ptr fun c => !(isNewline c || c = chr '#') then do
      let (stop, needsDecode) ← extractToken fuel content ptr
      return .inl (stop, if stop = ptr then tokens else tokens ++ [⟨ptr, stop, needsDecode⟩])
    else return .inr tokens
  else return .inr tokens

/-- `parseDepfile` up to decoding: the tokens in the order of the calls. -/
def scanDepfile (content : Bytes) : Fueled (List Token) :=
  if content = [] then return []
  else do
    match ← targetScan content with
    | none => return []
    | some ptr => loop (tokenRound content) (content.length + 1) (ptr, [])

/-! ### Positions -/

/-- A line feed or a carriage return is at `i`. -/
def NewlineAt (content : Bytes) (i : ℕ) : Prop := ∃ c, content[i]? = some c ∧ isNewline c

/-- The length of the run of backslashes that ends before `i`. -/
def slashesBefore (content : Bytes) : ℕ → ℕ
  | 0 => 0
  | i + 1 => if content[i]? = some (chr '\\') then slashesBefore content i + 1 else 0

/-- The line end at `i` follows an odd run of backslashes, or is the second byte of one that
does. -/
def Continued (content : Bytes) (i : ℕ) : Prop :=
  slashesBefore content i % 2 = 1 ∨
    ∃ j, i = j + 1 ∧ content[i]? = some (chr '\n') ∧ content[j]? = some (chr '\r') ∧
      slashesBefore content j % 2 = 1

/-- A line end that is not part of a continuation. -/
structure LineEnd (content : Bytes) (i : ℕ) : Prop where
  newline : NewlineAt content i
  notContinued : ¬ Continued content i

/-- The scanner has come from `p` to `q`. -/
structure Moved (content : Bytes) (p q : ℕ) : Prop where
  le : p ≤ q
  inside : q ≤ content.length
  /-- Line ends were passed as parts of continuations. -/
  crossed : ∀ i, p ≤ i → i < q → NewlineAt content i → Continued content i
  /-- An even number of backslashes is before a backslash that comes next. -/
  settled : content[q]? = some (chr '\\') → slashesBefore content q % 2 = 0

/-- The scanner has come from `p` to `q` over bytes that pass a test. -/
structure Scanned (content : Bytes) (test : UInt8 → Bool) (p q : ℕ) : Prop where
  le : p ≤ q
  inside : q ≤ content.length
  all : ∀ i, p ≤ i → i < q → ∀ c, content[i]? = some c → test c = true

/-- The part of the content between two positions. -/
def slice (content : Bytes) (p q : ℕ) : Bytes := (content.drop p).take (q - p)

section Positions

variable {content : Bytes} {p q r i : ℕ} {c : UInt8}

theorem lt_of_getElem? (h : content[p]? = some c) : p < content.length :=
  (List.getElem?_eq_some_iff.mp h).1

theorem drop_of_getElem? (h : content[p]? = some c) :
    content.drop p = c :: content.drop (p + 1) := by
  obtain ⟨hlt, rfl⟩ := List.getElem?_eq_some_iff.mp h
  exact List.drop_eq_getElem_cons hlt

theorem newlineAt_iff (h : content[p]? = some c) : NewlineAt content p ↔ isNewline c = true := by
  simp [NewlineAt, h]

theorem Moved.trans (h : Moved content p q) (h' : Moved content q r) : Moved content p r where
  le := h.le.trans h'.le
  inside := h'.inside
  crossed := fun i hp hr hnew =>
    if hq : i < q then h.crossed i hp hq hnew else h'.crossed i (Nat.le_of_not_lt hq) hr hnew
  settled := h'.settled

theorem Scanned.refl {test : UInt8 → Bool} (h : p ≤ content.length) : Scanned content test p p :=
  ⟨le_rfl, h, fun _ hle hlt => absurd hlt (Nat.not_lt.mpr hle)⟩

theorem Scanned.trans {test : UInt8 → Bool} (h : Scanned content test p q)
    (h' : Scanned content test q r) : Scanned content test p r where
  le := h.le.trans h'.le
  inside := h'.inside
  all := fun i hp hr =>
    if hq : i < q then h.all i hp hq else h'.all i (Nat.le_of_not_lt hq) hr

theorem Scanned.single {test : UInt8 → Bool} (h : content[p]? = some c) (hc : test c = true) :
    Scanned content test p (p + 1) where
  le := Nat.le_succ p
  inside := lt_of_getElem? h
  all := by
    intro i hle hlt d hd
    obtain rfl : i = p := by omega
    obtain rfl : c = d := Option.some.inj (h.symm.trans hd)
    exact hc

theorem Scanned.mono {test test' : UInt8 → Bool} (h : Scanned content test p q)
    (himp : ∀ c, test c = true → test' c = true) : Scanned content test' p q :=
  ⟨h.le, h.inside, fun i hp hq c hc => himp c (h.all i hp hq c hc)⟩

/-- Only a run of backslashes adds to the run. -/
theorem slashesBefore_succ (h : content[p]? = some c) (hc : c ≠ chr '\\') :
    slashesBefore content (p + 1) = 0 := by
  rw [slashesBefore, h, if_neg]
  exact fun heq => hc (Option.some.inj heq)

/-- A run is counted from any position inside it. -/
theorem slashesBefore_add (h : ∀ i, p ≤ i → i < q → content[i]? = some (chr '\\')) (hle : p ≤ q) :
    slashesBefore content q = slashesBefore content p + (q - p) := by
  induction q, hle using Nat.le_induction with
  | base => rw [Nat.sub_self, Nat.add_zero]
  | succ q hle ih =>
    rw [slashesBefore, if_pos (h q hle (Nat.lt_succ_self q)),
      ih fun i hp hq => h i hp (Nat.lt_succ_of_lt hq)]
    omega

theorem slice_append (hpq : p ≤ q) (hqr : q ≤ r) :
    slice content p q ++ slice content q r = slice content p r := by
  have hdrop : content.drop q = (content.drop p).drop (q - p) := by
    rw [List.drop_drop]
    congr 1
    omega
  rw [slice, slice, slice, hdrop, ← List.take_add]
  congr 1
  omega

theorem slice_self (content : Bytes) (p : ℕ) : slice content p p = [] := by
  rw [slice, Nat.sub_self, List.take_zero]

theorem slice_succ (h : content[p]? = some c) : slice content p (p + 1) = [c] := by
  rw [slice, drop_of_getElem? h, Nat.add_sub_cancel_left]
  rfl

end Positions

/-! ### Reading -/

section Reading

variable {content : Bytes} {ptr : ℕ} {c : UInt8} {α : Type}

/-- A read inside the file. -/
theorem deref_bind (h : content[ptr]? = some c) (f : UInt8 → Fueled α) :
    deref content ptr >>= f = f c := by
  rw [deref, h]
  rfl

theorem holdsAt_bind (test : UInt8 → Bool) (f : Bool → Fueled α) :
    holdsAt content ptr test >>= f = f (content[ptr]?.any test) := by
  unfold holdsAt
  split_ifs with hlt
  · rw [List.getElem?_eq_getElem hlt]
    simp only [deref, List.getElem?_eq_getElem hlt]
    rfl
  · rw [List.getElem?_eq_none (Nat.le_of_not_lt hlt)]
    rfl

theorem thenHoldsAt_bind (first : Bool) (test : UInt8 → Bool) (f : Bool → Fueled α) :
    thenHoldsAt first content ptr test >>= f = f (first && content[ptr]?.any test) := by
  cases first with
  | false => rfl
  | true => exact holdsAt_bind test f

theorem skipByte_bind (c : UInt8) (f : ℕ → Fueled α) :
    skipByte content ptr c >>= f = f (if content[ptr]? = some c then ptr + 1 else ptr) := by
  unfold skipByte
  rw [holdsAt_bind]
  cases h : content[ptr]? with
  | none => rfl
  | some d =>
    by_cases hd : d = c <;> simp [hd]

/-- The simple loops stop at the first byte that fails the test, or at the end. -/
theorem returns_scan {fuel : ℕ} (test : UInt8 → Bool) (hptr : ptr ≤ content.length)
    (hfuel : content.length - ptr < fuel) :
    Returns (loop (scanRound content test) fuel ptr) fun q =>
      Scanned content test ptr q ∧ ∀ c, content[q]? = some c → test c = false := by
  refine returns_loop (Scanned content test ptr) (fun p => content.length - p) ?_ (.refl hptr) hfuel
  intro p hp
  rw [scanRound, holdsAt_bind]
  split_ifs with htest
  · obtain ⟨c, hc, hpass⟩ := (Option.any_eq_true _ _).mp htest
    have hlt := lt_of_getElem? hc
    exact returns_pure ⟨hp.trans (.single hc hpass), by omega⟩
  · refine returns_pure ⟨hp, fun c hc => ?_⟩
    rwa [hc, Option.any_some, Bool.not_eq_true] at htest

end Reading

/-! ### Blanks -/

section Whitespace

variable {content : Bytes} {fuel ptr p : ℕ} {c : UInt8}

/-- `skipWhitespace` stays where it is: at the end, at a line end, or at the first byte of a
token. -/
def Stays (content : Bytes) (ptr : ℕ) : Prop :=
  ∀ c, content[ptr]? = some c →
    isNewline c ∨ chr ' ' < c ∧ (c = chr '\\' → ¬ NewlineAt content (ptr + 1))

/-- A blank is passed. -/
theorem Moved.blank (h : content[ptr]? = some c) (hc : c ≠ chr '\\') (hline : ¬ isNewline c) :
    Moved content ptr (ptr + 1) where
  le := Nat.le_succ ptr
  inside := lt_of_getElem? h
  crossed := by
    intro i hle hlt hnew
    obtain rfl : i = ptr := by omega
    exact absurd ((newlineAt_iff h).mp hnew) hline
  settled := fun _ => by rw [slashesBefore_succ h hc]

/-- A continuation is passed. -/
theorem Moved.continuation (h : content[ptr]? = some (chr '\\'))
    (heven : slashesBefore content ptr % 2 = 0) (hc : content[ptr + 1]? = some c)
    (hline : isNewline c) : Moved content ptr (ptr + 2) where
  le := by omega
  inside := lt_of_getElem? hc
  crossed := by
    intro i hle hlt hnew
    left
    have hodd : slashesBefore content (ptr + 1) = slashesBefore content ptr + 1 := by
      rw [slashesBefore, if_pos h]
    rcases Nat.lt_or_ge ptr i with hi | hi
    · obtain rfl : i = ptr + 1 := by omega
      omega
    · obtain rfl : i = ptr := by omega
      exact absurd ((newlineAt_iff h).mp hnew) (by decide)
  settled := by
    have hne : c ≠ chr '\\' := by
      rintro rfl
      exact absurd hline (by decide)
    exact fun _ => by rw [slashesBefore_succ hc hne]

/-- The second byte of a line end. -/
theorem Moved.lineFeed (h : content[ptr]? = some (chr '\\'))
    (heven : slashesBefore content ptr % 2 = 0) (hcr : content[ptr + 1]? = some (chr '\r'))
    (hlf : content[ptr + 2]? = some (chr '\n')) : Moved content ptr (ptr + 3) := by
  have hfirst : Moved content ptr (ptr + 2) := .continuation h heven hcr (by decide)
  refine hfirst.trans ⟨Nat.le_succ _, lt_of_getElem? hlf, ?_, ?_⟩
  · intro i hle hlt hnew
    obtain rfl : i = ptr + 2 := by omega
    have hodd : slashesBefore content (ptr + 1) = slashesBefore content ptr + 1 := by
      rw [slashesBefore, if_pos h]
    exact .inr ⟨ptr + 1, rfl, hlf, hcr, by omega⟩
  · exact fun _ => by rw [slashesBefore_succ hlf (by decide)]

/-- The bytes of a line end. -/
theorem isNewline_iff : isNewline c = true ↔ c = chr '\n' ∨ c = chr '\r' := by
  simp [isNewline]

/-- A line end is not passed. -/
theorem skip_newline (hc : isNewline c) (s : Bytes) :
    Depfile.skipWhitespace false (c :: s) = c :: s := by
  rw [Depfile.skipWhitespace.eq_def]
  simp [isNewline_iff.mp hc]

/-- Another byte up to the space is passed. -/
theorem skip_low (hc : ¬ isNewline c) (hle : c ≤ chr ' ') (s : Bytes) :
    Depfile.skipWhitespace false (c :: s) = Depfile.skipWhitespace false s := by
  have hline := isNewline_iff.not.mp hc
  rw [Depfile.skipWhitespace.eq_def]
  simp only [Bool.false_eq_true, false_and, if_false, hline, hle, if_true]

/-- The line feed behind a carriage return belongs to it. -/
theorem skip_afterCr (s : Bytes) :
    Depfile.skipWhitespace true s =
      if s.head? = some (chr '\n') then Depfile.skipWhitespace false s.tail
      else Depfile.skipWhitespace false s := by
  cases s with
  | nil => rfl
  | cons c s =>
    by_cases hc : c = chr '\n'
    · rw [Depfile.skipWhitespace.eq_def]
      simp [hc]
    · have hhead : (c :: s).head? ≠ some (chr '\n') := fun h => hc (Option.some.inj h)
      rw [if_neg hhead, Depfile.skipWhitespace.eq_def]
      conv_rhs => rw [Depfile.skipWhitespace.eq_def]
      simp [hc]

/-- A continuation is passed. -/
theorem skip_continuation (hc : isNewline c) (s : Bytes) :
    Depfile.skipWhitespace false (chr '\\' :: c :: s) =
      Depfile.skipWhitespace (c = chr '\r') s := by
  rcases isNewline_iff.mp hc with rfl | rfl <;> rfl

/-- A backslash that does not continue a line is not passed. -/
theorem skip_slash {s : Bytes} (hs : ∀ c, s.head? = some c → ¬ isNewline c) :
    Depfile.skipWhitespace false (chr '\\' :: s) = chr '\\' :: s := by
  cases s with
  | nil => rfl
  | cons c s => exact Depfile.skipWhitespace_slash (not_or.mp (isNewline_iff.not.mp (hs c rfl))) s

/-- A round of `skipWhitespace` passes one blank or one continuation, or stays. -/
theorem whitespaceRound_spec
    (heven : content[ptr]? = some (chr '\\') → slashesBefore content ptr % 2 = 0) :
    Returns (whitespaceRound content ptr) (Sum.elim
      (fun q => ptr < q ∧ Moved content ptr q ∧ Depfile.skipWhitespace false (content.drop ptr) =
        Depfile.skipWhitespace false (content.drop q))
      fun q => q = ptr ∧ Stays content ptr ∧
        Depfile.skipWhitespace false (content.drop ptr) = content.drop ptr) := by
  unfold whitespaceRound
  split_ifs with hlt
  · obtain ⟨c, hc⟩ : ∃ c, content[ptr]? = some c := ⟨_, List.getElem?_eq_getElem hlt⟩
    have honly : ∀ {d}, content[ptr]? = some d → d = c :=
      fun hd => Option.some.inj (hd.symm.trans hc)
    have hdrop := drop_of_getElem? hc
    rw [deref_bind hc]
    split_ifs with hplain hline hblank
    · -- a plain byte begins a token
      refine returns_pure ⟨rfl, ?_, ?_⟩
      · rintro d hd
        obtain rfl := honly hd
        exact .inr ⟨hplain.1, fun h => absurd h hplain.2⟩
      · rw [hdrop]
        exact Depfile.skipWhitespace_of_not_le (UInt8.not_le.mpr hplain.1) hplain.2 _
    · refine returns_pure ⟨rfl, ?_, ?_⟩
      · rintro d hd
        obtain rfl := honly hd
        exact .inl hline
      · rw [hdrop]
        exact skip_newline hline _
    · -- a blank or another control byte is passed
      have hne : c ≠ chr '\\' := by
        rintro rfl
        exact absurd hblank (by decide)
      refine returns_pure ⟨Nat.lt_succ_self ptr, .blank hc hne hline, ?_⟩
      rw [hdrop]
      exact skip_low hline hblank _
    · -- what is left is a backslash
      obtain rfl : c = chr '\\' := by
        by_contra hne
        exact hplain ⟨UInt8.not_le.mp hblank, hne⟩
      rw [holdsAt_bind]
      split_ifs with hnext
      · -- a continuation: the backslash and its line end, which may be two bytes
        obtain ⟨d, hd, hline'⟩ := (Option.any_eq_true _ _).mp hnext
        rw [skipByte_bind, skipByte_bind, hdrop, drop_of_getElem? hd, skip_continuation hline']
        have heven' := heven hc
        rcases isNewline_iff.mp hline' with rfl | rfl
        · have hne : content[ptr + 1]? ≠ some (chr '\r') := by
            rw [hd]
            decide
          rw [if_neg hne, if_pos hd]
          exact returns_pure ⟨by omega, .continuation hc heven' hd hline', rfl⟩
        · rw [if_pos hd, decide_eq_true rfl, skip_afterCr, List.head?_drop, List.tail_drop]
          split_ifs with hlf
          · exact returns_pure ⟨by omega, .lineFeed hc heven' hd hlf, rfl⟩
          · exact returns_pure ⟨by omega, .continuation hc heven' hd hline', rfl⟩
      · -- a backslash before anything else begins a token
        have hnot : ¬ NewlineAt content (ptr + 1) := fun h => hnext ((Option.any_eq_true _ _).mpr h)
        refine returns_pure ⟨rfl, ?_, ?_⟩
        · rintro d hd
          obtain rfl := honly hd
          exact .inr ⟨UInt8.not_le.mp hblank, fun _ => hnot⟩
        · rw [hdrop]
          refine skip_slash fun d hd hd' => hnot ⟨d, ?_, hd'⟩
          rwa [List.head?_drop] at hd
  · have hend := Nat.le_of_not_lt hlt
    have hnone : content[ptr]? = none := List.getElem?_eq_none hend
    refine returns_pure ⟨rfl, fun c hc => ?_, ?_⟩
    · rw [hnone] at hc
      exact nomatch hc
    · rw [List.drop_eq_nil_of_le hend]
      rfl

/-- `skipWhitespace` goes on to where it stays, over blanks and continuations. -/
theorem skipWhitespace_spec (fuel : ℕ) (hptr : ptr ≤ content.length)
    (heven : content[ptr]? = some (chr '\\') → slashesBefore content ptr % 2 = 0)
    (hfuel : content.length - ptr < fuel) :
    Returns (skipWhitespace fuel content ptr) fun q => Moved content ptr q ∧ Stays content q ∧
      Depfile.skipWhitespace false (content.drop ptr) = content.drop q := by
  have hstart : Moved content ptr ptr :=
    ⟨le_rfl, hptr, fun i hle hlt => absurd hlt (Nat.not_lt.mpr hle), heven⟩
  refine returns_loop (fun p => Moved content ptr p ∧
    Depfile.skipWhitespace false (content.drop ptr) = Depfile.skipWhitespace false (content.drop p))
    (fun p => content.length - p) ?_ ⟨hstart, rfl⟩ hfuel
  rintro p ⟨hmoved, hskip⟩
  refine (whitespaceRound_spec hmoved.settled).mono ?_
  rintro (q | q) h
  · obtain ⟨hlt, hnext, heq⟩ := h
    have hle := hnext.inside
    exact ⟨⟨hmoved.trans hnext, hskip.trans heq⟩, by omega⟩
  · obtain ⟨rfl, hstays, heq⟩ := h
    exact ⟨hmoved, hstays, hskip.trans heq⟩

end Whitespace

/-! ### Special bytes -/

section Special

variable {content : Bytes} {fuel ptr p q : ℕ} {c : UInt8} {word : UInt64}

/-- Byte `i` of a number is byte `i` of the text it was read from. -/
theorem natOfBytes_div {l : Bytes} {i : ℕ} (h : l[i]? = some c) :
    Codec.natOfBytes l / 256 ^ i % 256 = c.toNat := by
  induction l generalizing i with
  | nil => exact nomatch h
  | cons b l ih =>
    have hb := b.toNat_lt
    cases i with
    | zero =>
      obtain rfl : b = c := by simpa using h
      rw [Codec.natOfBytes, pow_zero, Nat.div_one]
      omega
    | succ i =>
      have hdiv : Codec.natOfBytes (b :: l) / 256 = Codec.natOfBytes l := by
        rw [Codec.natOfBytes]
        omega
      rw [pow_succ', ← Nat.div_div_eq_div_mul, hdiv]
      exact ih (by simpa using h)

/-- A word inside the file is read, and its bytes are those of the file. -/
theorem returns_readWord (h : ptr + 8 ≤ content.length) :
    Returns (readWord content ptr) fun word =>
      ∀ i < 8, ∀ c, content[ptr + i]? = some c → Swar.byteAt word i = c.toNat := by
  refine ⟨UInt64.ofNat (Codec.natOfBytes ((content.drop ptr).take 8)), if_pos h, ?_⟩
  intro i hi c hc
  have hlen : ((content.drop ptr).take 8).length = 8 := by
    rw [List.length_take, List.length_drop]
    omega
  have hlt : Codec.natOfBytes ((content.drop ptr).take 8) < 2 ^ 64 := by
    have hpow := Codec.natOfBytes_lt ((content.drop ptr).take 8)
    rwa [hlen] at hpow
  rw [Swar.byteAt, UInt64.toNat_ofNat_of_lt' hlt]
  apply natOfBytes_div
  rw [List.getElem?_take_of_lt hi, List.getElem?_drop]
  exact hc

/-- Byte `i` of the word passes one of the four tests. -/
def SpecialByte (word : UInt64) (i : ℕ) : Prop :=
  ((Swar.byteAt word i < (chr '!').toUInt64.toNat ∨
    Swar.byteAt word i = (chr '\\').toUInt64.toNat) ∨
      Swar.byteAt word i = (chr '#').toUInt64.toNat) ∨
        Swar.byteAt word i = (chr '$').toUInt64.toNat

/-- The four tests are those of `isSpecial`. -/
theorem specialByte_iff {i : ℕ} (h : Swar.byteAt word i = c.toNat) :
    SpecialByte word i ↔ Depfile.isSpecial c = true := by
  have hle : c ≤ chr ' ' ↔ c.toNat < (chr '!').toUInt64.toNat :=
    UInt8.le_iff_toNat_le.trans Nat.lt_succ_iff.symm
  simp only [SpecialByte, h, Depfile.isSpecial, Bool.or_eq_true, decide_eq_true_eq, hle,
    ← UInt8.toNat_inj]
  rfl

/-- The flags of a word lead to its first special byte. -/
theorem marks_specialHits (word : UInt64) : Swar.Marks (specialHits word) (SpecialByte word) :=
  (((Swar.marks_flagsBelow word (by decide)).or (Swar.marks_flagsEqual word (by decide))).or
    (Swar.marks_flagsEqual word (by decide))).or (Swar.marks_flagsEqual word (by decide))

/-- A round of the word loop. -/
theorem wordRound_spec (hptr : ptr ≤ content.length) :
    Returns (wordRound content ptr) (Sum.elim
      (fun q => ptr < q ∧ Scanned content (!Depfile.isSpecial ·) ptr q)
      fun r => Scanned content (!Depfile.isSpecial ·) ptr r.2 ∧
        (r.1 = true → ∀ c, content[r.2]? = some c → Depfile.isSpecial c)) := by
  unfold wordRound
  split_ifs with hroom
  · refine (returns_readWord hroom).bind fun word hword => ?_
    have hmarks := marks_specialHits word
    -- bytes of the word that are not special extend the plain run
    have hplain : ∀ n ≤ 8, (∀ j < n, ¬ SpecialByte word j) →
        Scanned content (!Depfile.isSpecial ·) ptr (ptr + n) := by
      intro n hn hnot
      refine ⟨Nat.le_add_right _ _, by omega, fun i hle hlt c hc => ?_⟩
      obtain ⟨j, rfl⟩ := Nat.exists_eq_add_of_le hle
      have hj : j < n := by omega
      rw [Bool.not_eq_true', ← Bool.not_eq_true,
        ← specialByte_iff (hword j (hj.trans_le hn) c hc)]
      exact hnot j hj
    dsimp only
    split_ifs with hhits
    · obtain ⟨hlt, hspecial, hbelow⟩ := hmarks.countrZero hhits
      exact returns_pure ⟨hplain _ hlt.le hbelow,
        fun _ c hc => (specialByte_iff (hword _ hlt c hc)).mp hspecial⟩
    · refine returns_pure ⟨by omega, hplain 8 le_rfl fun j hj => ?_⟩
      exact hmarks.not_of_eq_zero (not_not.mp hhits) j hj
  · exact returns_pure ⟨.refl hptr, nofun⟩

/-- `findTokenSpecial` finds the first special byte, or the end. -/
theorem findTokenSpecial_spec (hptr : ptr ≤ content.length)
    (hfuel : content.length - ptr < fuel) :
    Returns (findTokenSpecial fuel content ptr) fun q =>
      Scanned content (!Depfile.isSpecial ·) ptr q ∧
        ∀ c, content[q]? = some c → Depfile.isSpecial c := by
  -- the loop over words stops at a special byte or when less than a word is left
  have hwords : Returns (loop (wordRound content) fuel ptr) fun r =>
      Scanned content (!Depfile.isSpecial ·) ptr r.2 ∧
        (r.1 = true → ∀ c, content[r.2]? = some c → Depfile.isSpecial c) := by
    refine returns_loop (Scanned content (!Depfile.isSpecial ·) ptr) (fun p => content.length - p)
      (fun p hp => (wordRound_spec hp.inside).mono ?_) (.refl hptr) hfuel
    rintro (q | r) ⟨h, h'⟩
    · have hinside := h'.inside
      exact ⟨hp.trans h', by omega⟩
    · exact ⟨hp.trans h, h'⟩
  refine hwords.bind fun r hr => ?_
  obtain ⟨found, p⟩ := r
  obtain ⟨hscanned, hspecial⟩ := hr
  dsimp only at hscanned hspecial ⊢
  split_ifs with hfound
  · exact returns_pure ⟨hscanned, hspecial hfound⟩
  · -- the bytes of the tail one by one
    have hle := hscanned.le
    refine (returns_scan _ hscanned.inside (by omega)).mono fun q hq => ?_
    exact ⟨hscanned.trans hq.1, fun c hc => by simpa using hq.2 c hc⟩

/-- A scan ends at one position only. -/
theorem Scanned.unique {test : UInt8 → Bool} (hp : Scanned content test ptr p)
    (hp' : ∀ c, content[p]? = some c → test c = false) (hq : Scanned content test ptr q)
    (hq' : ∀ c, content[q]? = some c → test c = false) : p = q := by
  have hnot : ∀ {p q}, Scanned content test ptr p → Scanned content test ptr q →
      (∀ c, content[p]? = some c → test c = false) → ¬ p < q := by
    intro p q hp hq hend hlt
    have hget := List.getElem?_eq_getElem (hlt.trans_le hq.inside)
    have hpass := hq.all p hp.le hlt _ hget
    rw [hend _ hget] at hpass
    exact Bool.false_ne_true hpass
  exact Nat.le_antisymm (Nat.le_of_not_lt (hnot hq hp hq')) (Nat.le_of_not_lt (hnot hp hq hp'))

/-- Where a scan ends, without positions. -/
theorem scanned_takeWhile (test : UInt8 → Bool) (before rest : Bytes) :
    Scanned (before ++ rest) test before.length (before.length + (rest.takeWhile test).length) ∧
      ∀ c, (before ++ rest)[before.length + (rest.takeWhile test).length]? = some c →
        test c = false := by
  have hsplit := List.takeWhile_append_dropWhile (p := test) (l := rest)
  generalize htail : rest.dropWhile test = tail at hsplit
  have htext : before ++ rest = before ++ rest.takeWhile test ++ tail := by
    rw [List.append_assoc, hsplit]
  have hlength := congrArg List.length htext
  simp only [List.length_append] at hlength
  refine ⟨⟨Nat.le_add_right _ _, ?_, fun i hle hlt c hc => ?_⟩, fun c hc => ?_⟩
  · rw [List.length_append, hlength]
    exact Nat.le_add_right _ _
  · rw [htext, List.append_assoc, List.getElem?_append_right hle,
      List.getElem?_append_left (by omega)] at hc
    exact List.mem_takeWhile_imp (List.mem_of_getElem? hc)
  · rw [htext, ← List.length_append, List.getElem?_append_right le_rfl, Nat.sub_self,
      ← List.head?_eq_getElem?] at hc
    have hhead := List.head?_dropWhile_not test rest
    rw [htail, hc] at hhead
    exact hhead

/-- **The word loop is the byte loop.** In any buffer, from any start and over any remaining length,
`findTokenSpecial` returns what its own tail loop would return from the start: the position of the
first special byte, or the end. -/
theorem findTokenSpecial_eq (before rest : Bytes) :
    findTokenSpecial (rest.length + 1) (before ++ rest) before.length =
        loop (scanRound (before ++ rest) (!Depfile.isSpecial ·)) (rest.length + 1) before.length ∧
      findTokenSpecial (rest.length + 1) (before ++ rest) before.length =
        .ok (before.length + (rest.takeWhile (!Depfile.isSpecial ·)).length) := by
  have hptr : before.length ≤ (before ++ rest).length := by
    rw [List.length_append]
    exact Nat.le_add_right _ _
  have hfuel : (before ++ rest).length - before.length < rest.length + 1 := by
    rw [List.length_append]
    omega
  obtain ⟨hend, hend'⟩ := scanned_takeWhile (!Depfile.isSpecial ·) before rest
  obtain ⟨p, hp, hscanned, hspecial⟩ := findTokenSpecial_spec hptr hfuel
  obtain ⟨q, hq, hbytes, hbytes'⟩ := returns_scan (!Depfile.isSpecial ·) hptr hfuel
  have hspecial' : ∀ c, (before ++ rest)[p]? = some c → (!Depfile.isSpecial c) = false := by
    intro c hc
    rw [hspecial c hc]
    rfl
  rw [hp, hq, hscanned.unique hspecial' hend hend', hbytes.unique hbytes' hend hend']
  exact ⟨rfl, rfl⟩

end Special

end DepfileScan

end Cob
