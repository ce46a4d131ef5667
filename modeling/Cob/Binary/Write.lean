import Cob.Binary.RoundTrip

/-!
# Writing the cache file

`writeBinData` and the end of `emitBin`: the bytes go to `.catalyst.bin.tmp` with `writev`, which
may stop anywhere, and the file is renamed when it is complete. What the system answers to each
call is a parameter.

* `skip` — the two loops that move the `iovec` array past the bytes that were written;
* `Orderly` — what holds between two calls of `writev`: the array covers exactly the bytes that
  are not in the file yet, and lies in the two buffers (`orderly_rounds`);
* `exists_ended` — the loop ends when interrupts do;
* `not_failed_rounds` — the loop fails only when a call of `writev` does;
* `replaces_or_keeps` — `.catalyst.bin` has its old content after an error, and the header and the
  payload after a success; when no call fails, it is a success.
-/

namespace Cob

namespace CacheFile

open Codec

/-- An `iovec`: `len` bytes of a buffer, from `base` on. -/
structure Iovec where
  buffer : Bytes
  base : ℕ
  len : ℕ
  deriving DecidableEq

/-- The bytes an `iovec` covers. -/
def Iovec.bytes (v : Iovec) : Bytes := (v.buffer.drop v.base).take v.len

/-- The bytes that an array of `iovec`s covers. -/
def remaining (buffers : List Iovec) : Bytes := buffers.flatMap Iovec.bytes

/-- The number of bytes offered to `writev`. -/
def offered (buffers : List Iovec) : ℕ := (buffers.map Iovec.len).sum

/-- Moving `next_buffer` past `consumed` bytes: whole buffers first, then a part of the next. -/
def skip (consumed : ℕ) : List Iovec → List Iovec
  | [] => []
  | v :: rest =>
    if v.len ≤ consumed then skip (consumed - v.len) rest
    else if consumed = 0 then v :: rest
    else { v with base := v.base + consumed, len := v.len - consumed } :: rest

/-- What `writev` answers. -/
inductive WritevResult where
  /-- `-1` with `EINTR` -/
  | interrupted
  /-- `-1` with another error -/
  | failed
  /-- the bytes it took; a count beyond what was offered means all of it -/
  | wrote (count : ℕ)
  deriving DecidableEq

/-- The loop of `writeBinData` between two calls. -/
structure Writing where
  /-- from `next_buffer` to `buffers_end` -/
  buffers : List Iovec
  /-- the content of `.catalyst.bin.tmp` -/
  file : Bytes
  failed : Bool
  deriving DecidableEq

namespace Writing

/-- The loop before its first call. -/
def start (header payload : Bytes) : Writing :=
  ⟨[⟨header, 0, header.length⟩, ⟨payload, 0, payload.length⟩], [], false⟩

/-- The loop has been left. -/
def ended (w : Writing) : Bool := w.failed || w.buffers.isEmpty

/-- One round of the loop. -/
def round (result : WritevResult) (w : Writing) : Writing :=
  if w.ended then w
  else
    match result with
    | .interrupted => w
    | .failed => { w with failed := true }
    | .wrote count =>
      let written := min count (offered w.buffers)
      -- nothing written although bytes were offered
      if written = 0 then { w with failed := true }
      else
        { w with
          buffers := skip written w.buffers
          file := w.file ++ (remaining w.buffers).take written }

/-- The loop after `n` rounds. -/
def rounds (results : ℕ → WritevResult) (w : Writing) : ℕ → Writing
  | 0 => w
  | n + 1 => (rounds results w n).round (results n)

end Writing

/-- What the system answers while the cache is emitted. -/
structure IoAnswers where
  opened : Bool
  writev : ℕ → WritevResult
  closed : Bool
  /-- the removal of the temporary file after an error -/
  removed : Bool
  /-- the message of a failed `rename` -/
  renameError : Option Bytes

/-- The two files. -/
structure Files where
  /-- `.catalyst.bin` -/
  bin : Option Bytes
  /-- `.catalyst.bin.tmp` -/
  tmp : Option Bytes
  deriving DecidableEq

/-- `writeBinData`, none when `calls` rounds do not end the loop. -/
def writeBinData (io : IoAnswers) (calls : ℕ) (header payload : Bytes) (files : Files) :
    Option (Except Bytes Unit × Files) :=
  if !io.opened then
    some (.error (ascii "Failed to open .catalyst.bin.tmp for writing"), files)
  else
    let w := (Writing.start header payload).rounds io.writev calls
    if !w.ended then none
    else
      let files := { files with tmp := some w.file }
      if w.failed then some (.error (ascii "Failed to write .catalyst.bin.tmp"), files)
      else if !io.closed then
        some (.error (ascii "Failed to close .catalyst.bin.tmp after writing"), files)
      else some (.ok (), files)

/-- `sizeof(BinHeader)`. -/
def headerSize : ℕ := 56

/-- The end of `emitBin`: writing and renaming. -/
def replaceBin (io : IoAnswers) (calls : ℕ) (header payload : Bytes) (files : Files) :
    Option (Except Bytes Unit × Files) :=
  (writeBinData io calls header payload files).map fun
    | (.error e, files) => (.error e, if io.removed then { files with tmp := none } else files)
    | (.ok (), files) =>
      match io.renameError with
      | some message =>
        (.error (ascii "Failed to rename .catalyst.bin.tmp to .catalyst.bin: " ++ message), files)
      | none => (.ok (), ⟨files.tmp, none⟩)

/-- `emitBin` down to the files; the header is the first part of the content. None when the loop
did not end, or after an access outside the payload. -/
def emitFile (rapidHash : Bytes → UInt64 → UInt64) (known : ℕ → ℕ → Bool) (memory : UInt64)
    (b : COBBuilder) (io : IoAnswers) (calls : ℕ) (files : Files) :
    Option (Except Bytes Unit × Files) :=
  match emitBin rapidHash known memory b with
  | .fault => none
  | .failed message => some (.error message, files)
  | .done content => replaceBin io calls (content.take headerSize) (content.drop headerSize) files

section Skip

variable {buffers : List Iovec} {k : ℕ}

/-- The `iovec` lies in its buffer. -/
def Iovec.Inside (v : Iovec) : Prop := v.base + v.len ≤ v.buffer.length

theorem Iovec.Inside.length_bytes {v : Iovec} (h : v.Inside) : v.bytes.length = v.len := by
  unfold Iovec.Inside at h
  rw [Iovec.bytes, List.length_take, List.length_drop]
  omega

theorem offered_skip (k : ℕ) (buffers : List Iovec) :
    offered (skip k buffers) = offered buffers - k := by
  induction buffers generalizing k with
  | nil => simp [skip, offered]
  | cons v rest ih =>
    have hcons : offered (v :: rest) = v.len + offered rest := by simp [offered]
    rw [skip, hcons]
    split_ifs with hwhole hzero
    · rw [ih]
      omega
    · rw [hcons]
      omega
    · have hpart : offered ({ v with base := v.base + k, len := v.len - k } :: rest) =
          v.len - k + offered rest := by simp [offered]
      rw [hpart]
      omega

/-- What is left is what comes after the bytes that were written. -/
theorem remaining_skip (h : ∀ v ∈ buffers, v.Inside) (k : ℕ) :
    remaining (skip k buffers) = (remaining buffers).drop k := by
  induction buffers generalizing k with
  | nil => simp [skip, remaining]
  | cons v rest ih =>
    obtain ⟨hv, hrest⟩ := List.forall_mem_cons.mp h
    have hlen := hv.length_bytes
    have hcons : remaining (v :: rest) = v.bytes ++ remaining rest := List.flatMap_cons
    rw [skip, hcons]
    split_ifs with hwhole hzero
    · have hdrop : v.bytes.drop k = [] := List.drop_eq_nil_of_le (hlen.le.trans hwhole)
      rw [ih hrest, List.drop_append, hdrop, List.nil_append, hlen]
    · rw [hzero, List.drop_zero, hcons]
    · -- the rest of a buffer
      have hpart : Iovec.bytes { v with base := v.base + k, len := v.len - k } =
          v.bytes.drop k := by
        rw [Iovec.bytes, Iovec.bytes, List.drop_take, List.drop_drop]
      rw [List.drop_append_of_le_length (by omega), ← hpart]
      exact List.flatMap_cons

/-- What is left of the array still lies in the buffers. -/
theorem inside_skip {P : Bytes → Prop} (h : ∀ v ∈ buffers, P v.buffer ∧ v.Inside) (k : ℕ) :
    ∀ v ∈ skip k buffers, P v.buffer ∧ v.Inside := by
  induction buffers generalizing k with
  | nil => exact h
  | cons v rest ih =>
    obtain ⟨hv, hrest⟩ := List.forall_mem_cons.mp h
    rw [skip]
    split_ifs with hwhole hzero
    · exact ih hrest _
    · exact h
    · refine List.forall_mem_cons.mpr ⟨⟨hv.1, ?_⟩, hrest⟩
      have hinside := hv.2
      unfold Iovec.Inside at hinside ⊢
      dsimp only
      omega

end Skip

/-- What holds between two calls of `writev`. -/
structure Orderly (header payload : Bytes) (w : Writing) : Prop where
  /-- Only the two buffers are read, within their bounds. -/
  inside : ∀ v ∈ w.buffers, (v.buffer = header ∨ v.buffer = payload) ∧ v.Inside
  /-- The next bytes offered are those that come after the file. -/
  continues : w.file ++ remaining w.buffers = header ++ payload

section Loop

variable {header payload : Bytes} {w : Writing} {results : ℕ → WritevResult}

theorem orderly_start (header payload : Bytes) :
    Orderly header payload (.start header payload) := by
  constructor
  · intro v hv
    simp only [Writing.start, List.mem_cons, List.not_mem_nil, or_false] at hv
    rcases hv with rfl | rfl
    · exact ⟨.inl rfl, by simp [Iovec.Inside]⟩
    · exact ⟨.inr rfl, by simp [Iovec.Inside]⟩
  · simp [Writing.start, remaining, Iovec.bytes]

/-- A call of `writev` writes the bytes that come next. -/
theorem Orderly.round (h : Orderly header payload w) (result : WritevResult) :
    Orderly header payload (w.round result) := by
  unfold Writing.round
  split_ifs
  · exact h
  · cases result with
    | interrupted => exact h
    | failed => exact ⟨h.inside, h.continues⟩
    | wrote count =>
      dsimp only
      split_ifs
      · exact ⟨h.inside, h.continues⟩
      · refine ⟨inside_skip (P := fun buffer => buffer = header ∨ buffer = payload) h.inside _, ?_⟩
        rw [remaining_skip fun v hv => (h.inside v hv).2, List.append_assoc,
          List.take_append_drop]
        exact h.continues

theorem orderly_rounds (header payload : Bytes) (results : ℕ → WritevResult) (n : ℕ) :
    Orderly header payload ((Writing.start header payload).rounds results n) := by
  induction n with
  | zero => exact orderly_start header payload
  | succ n ih => exact ih.round (results n)

/-- A call that is not interrupted ends the loop or leaves less to write. -/
theorem ended_or_offered_lt (h : w.ended = false) {result : WritevResult}
    (hresult : result ≠ .interrupted) :
    (w.round result).ended = true ∨ offered (w.round result).buffers < offered w.buffers := by
  unfold Writing.round
  simp only [h, Bool.false_eq_true, if_false]
  cases result with
  | interrupted => exact absurd rfl hresult
  | failed => exact .inl rfl
  | wrote count =>
    dsimp only
    split_ifs with hzero
    · exact .inl rfl
    · right
      dsimp only
      rw [offered_skip]
      omega

theorem round_of_ended (h : w.ended = true) (result : WritevResult) : w.round result = w := by
  unfold Writing.round
  exact if_pos h

/-- The loop ends when interrupts do. -/
theorem exists_ended (w : Writing) (hfinite : ∃ N, ∀ i ≥ N, results i ≠ .interrupted) :
    ∃ n, (w.rounds results n).ended = true := by
  obtain ⟨N, hN⟩ := hfinite
  -- from then on every round makes progress
  have hprogress : ∀ k, (w.rounds results (N + k)).ended = true ∨
      offered (w.rounds results (N + k)).buffers + k ≤ offered (w.rounds results N).buffers := by
    intro k
    induction k with
    | zero => exact .inr le_rfl
    | succ k ih =>
      have hround : w.rounds results (N + (k + 1)) =
          (w.rounds results (N + k)).round (results (N + k)) := rfl
      cases hended : (w.rounds results (N + k)).ended with
      | true =>
        rw [hround, round_of_ended hended]
        exact .inl hended
      | false =>
        rw [hround]
        have hle := ih.resolve_left (by simp [hended])
        rcases ended_or_offered_lt hended (hN (N + k) (Nat.le_add_right N k)) with h | h
        · exact .inl h
        · right
          omega
  refine ⟨N + (offered (w.rounds results N).buffers + 1), ?_⟩
  rcases hprogress (offered (w.rounds results N).buffers + 1) with h | h
  · exact h
  · omega

/-- Buffers that were written are skipped, empty ones too. -/
theorem offered_pos_of_skip (k : ℕ) (buffers : List Iovec) (h : skip k buffers ≠ []) :
    0 < offered (skip k buffers) := by
  induction buffers generalizing k with
  | nil => exact absurd rfl h
  | cons v rest ih =>
    rw [skip] at h ⊢
    split_ifs at h ⊢ with hwhole hzero
    · exact ih _ h
    · have hcons : offered (v :: rest) = v.len + offered rest := by simp [offered]
      omega
    · have hpart : offered ({ v with base := v.base + k, len := v.len - k } :: rest) =
          v.len - k + offered rest := by simp [offered]
      omega

/-- While no call of `writev` fails or takes nothing, the loop does not fail. -/
theorem not_failed_rounds (hresults : ∀ i, results i ≠ .failed ∧ results i ≠ .wrote 0)
    (hw : w.failed = false) (hbuffers : w.buffers ≠ [] → 0 < offered w.buffers) (n : ℕ) :
    (w.rounds results n).failed = false ∧
      ((w.rounds results n).buffers ≠ [] → 0 < offered (w.rounds results n).buffers) := by
  -- induction over the rounds: there is something to offer until the loop ends
  induction n with
  | zero => exact ⟨hw, hbuffers⟩
  | succ n ih =>
    obtain ⟨hfailed, hpos⟩ := ih
    rw [Writing.rounds]
    unfold Writing.round
    split_ifs with hended
    · exact ⟨hfailed, hpos⟩
    · have hne : (w.rounds results n).buffers ≠ [] := by
        simpa [Writing.ended, hfailed] using hended
      cases hresult : results n with
      | interrupted => exact ⟨hfailed, hpos⟩
      | failed => exact absurd hresult (hresults n).1
      | wrote count =>
        have hcount : count ≠ 0 := by
          rintro rfl
          exact (hresults n).2 hresult
        have hoffered := hpos hne
        dsimp only
        rw [if_neg (by omega)]
        exact ⟨hfailed, offered_pos_of_skip _ _⟩

end Loop

section Replace

variable {io : IoAnswers} {calls : ℕ} {header payload : Bytes} {files files' : Files}
  {result : Except Bytes Unit}

/-- `writeBinData` leaves the cache alone, and a success leaves the whole content in the temporary
file. -/
theorem writeBinData_spec (h : writeBinData io calls header payload files = some (result, files')) :
    files'.bin = files.bin ∧ (result = .ok () → files'.tmp = some (header ++ payload)) := by
  have horderly := orderly_rounds header payload io.writev calls
  unfold writeBinData at h
  dsimp only at h
  split_ifs at h with hopen hended hfailed hclosed <;>
    obtain ⟨rfl, rfl⟩ := Prod.mk.inj (Option.some.inj h)
  · exact ⟨rfl, nofun⟩
  · exact ⟨rfl, nofun⟩
  · exact ⟨rfl, nofun⟩
  · -- nothing is left to write
    refine ⟨rfl, fun _ => congrArg some ?_⟩
    have hempty : ((Writing.start header payload).rounds io.writev calls).buffers = [] := by
      simpa [Writing.ended, hfailed] using hended
    have hcontinues := horderly.continues
    rw [hempty] at hcontinues
    simpa [remaining] using hcontinues

/-- The cache is replaced as a whole or not at all. -/
theorem replaceBin_spec (h : replaceBin io calls header payload files = some (result, files')) :
    (∀ e, result = .error e → files'.bin = files.bin) ∧
      (result = .ok () → files'.bin = some (header ++ payload)) := by
  obtain ⟨⟨written, files₁⟩, hwrite, heq⟩ := Option.map_eq_some_iff.mp h
  obtain ⟨hbin, htmp⟩ := writeBinData_spec hwrite
  cases written with
  | error e =>
    obtain ⟨rfl, rfl⟩ := Prod.mk.inj heq
    refine ⟨fun _ _ => ?_, nofun⟩
    split_ifs <;> exact hbin
  | ok u =>
    dsimp only at heq
    split at heq
    · obtain ⟨rfl, rfl⟩ := Prod.mk.inj heq
      exact ⟨fun _ _ => hbin, nofun⟩
    · obtain ⟨rfl, rfl⟩ := Prod.mk.inj heq
      exact ⟨nofun, fun _ => htmp rfl⟩

/-- When the file can be opened, written, closed and renamed, the answer is success. -/
theorem replaceBin_ok (hheader : 0 < header.length) (hopened : io.opened = true)
    (hresults : ∀ i, io.writev i ≠ .failed ∧ io.writev i ≠ .wrote 0) (hclosed : io.closed = true)
    (hrename : io.renameError = none)
    (h : replaceBin io calls header payload files = some (result, files')) : result = .ok () := by
  have hstart : 0 < offered (Writing.start header payload).buffers := by
    simp only [Writing.start, offered, List.map_cons, List.sum_cons]
    omega
  have hfailed := (not_failed_rounds (w := .start header payload) hresults rfl
    (fun _ => hstart) calls).1
  obtain ⟨⟨written, files₁⟩, hwrite, heq⟩ := Option.map_eq_some_iff.mp h
  unfold writeBinData at hwrite
  simp only [hopened, hfailed, hclosed, Bool.not_true, Bool.false_eq_true, if_false] at hwrite
  split_ifs at hwrite
  obtain ⟨rfl, rfl⟩ := Prod.mk.inj (Option.some.inj hwrite)
  simp only [hrename] at heq
  exact (Prod.mk.inj heq).1.symm

/-- Writing and renaming end when interrupts do. -/
theorem exists_replaceBin (hfinite : ∃ N, ∀ i ≥ N, io.writev i ≠ .interrupted) :
    ∃ calls result, replaceBin io calls header payload files = some result := by
  obtain ⟨calls, hended⟩ := exists_ended (Writing.start header payload) hfinite
  have hwrite : (writeBinData io calls header payload files).isSome := by
    unfold writeBinData
    simp only [hended]
    split_ifs <;> first | rfl | contradiction
  obtain ⟨written, hwritten⟩ := Option.isSome_iff_exists.mp hwrite
  exact ⟨calls, _, by rw [replaceBin, hwritten, Option.map_some]⟩

end Replace

section Emit

variable {rapidHash : Bytes → UInt64 → UInt64} {known : ℕ → ℕ → Bool} {memory : UInt64}
  {b : COBBuilder}

theorem length_write_header {h : BinHeader} (hmagic : h.magic.length = 8) :
    (header.write h).length = headerSize := by
  simp [header, headerSize, hmagic]

/-- The content begins with a whole header. -/
theorem headerSize_le {content : Bytes}
    (h : emitBin rapidHash known memory b = .done content) : headerSize ≤ content.length := by
  cases himage : Cob.emitBin b with
  | error e => simp [emitBin, himage] at h
  | ok image =>
    rw [emitBin_eq himage] at h
    split_ifs at h
    obtain rfl := Attempt.done.inj h
    rw [fileOf, sealFile, List.length_append]
    exact (length_write_header rfl).ge.trans (Nat.le_add_right _ _)

/-- The payload buffer is filled exactly. -/
theorem emitBin_ne_fault : emitBin rapidHash known memory b ≠ .fault := by
  cases himage : Cob.emitBin b with
  | error e => simp [emitBin, himage]
  | ok image =>
    rw [emitBin_eq himage]
    split_ifs <;> (intro heq; cases heq)

end Emit

/-- `.catalyst.bin` keeps its content after an error, and holds the header and the payload after
a success, which is the answer when no call fails; between two calls of `writev` the array covers
the bytes that come after the file, and the loop ends when interrupts do. -/
theorem replaces_or_keeps (rapidHash : Bytes → UInt64 → UInt64) (known : ℕ → ℕ → Bool)
    (memory : UInt64) (b : COBBuilder) (io : IoAnswers) (files : Files) :
    (∀ calls result files', emitFile rapidHash known memory b io calls files =
        some (result, files') →
      (∀ e, result = .error e → files'.bin = files.bin) ∧
        (result = .ok () → ∃ header payload, header.length = headerSize ∧
          emitBin rapidHash known memory b = .done (header ++ payload) ∧
          files'.bin = some (header ++ payload)) ∧
        ((∃ content, emitBin rapidHash known memory b = .done content) → io.opened = true →
          (∀ i, io.writev i ≠ .failed ∧ io.writev i ≠ .wrote 0) → io.closed = true →
          io.renameError = none → result = .ok ())) ∧
      (∀ header payload n,
        Orderly header payload ((Writing.start header payload).rounds io.writev n)) ∧
      ((∃ N, ∀ i ≥ N, io.writev i ≠ .interrupted) →
        ∃ calls result, emitFile rapidHash known memory b io calls files = some result) := by
  refine ⟨?_, fun header payload n => orderly_rounds header payload io.writev n, ?_⟩
  · intro calls result files' h
    cases hemit : emitBin rapidHash known memory b with
    -- the emitter never reads outside its own buffer
    | fault => exact absurd hemit emitBin_ne_fault
    | failed message =>
      rw [emitFile, hemit] at h
      obtain ⟨rfl, rfl⟩ := Prod.mk.inj (Option.some.inj h)
      exact ⟨fun _ _ => rfl, nofun, nofun⟩
    | done content =>
      rw [emitFile, hemit] at h
      have hheader : (content.take headerSize).length = headerSize := by
        rw [List.length_take]
        exact Nat.min_eq_left (headerSize_le hemit)
      obtain ⟨herror, hok⟩ := replaceBin_spec h
      refine ⟨herror, fun hresult => ⟨content.take headerSize, content.drop headerSize, hheader, ?_,
        hok hresult⟩, fun _ hopened hresults hclosed hrename => ?_⟩
      · rw [List.take_append_drop]
      · have hpos : 0 < (content.take headerSize).length := by
          rw [hheader]
          decide
        exact replaceBin_ok hpos hopened hresults hclosed hrename h
  · intro hfinite
    unfold emitFile
    cases hemit : emitBin rapidHash known memory b with
    | fault => exact absurd hemit emitBin_ne_fault
    | failed message => exact ⟨0, _, rfl⟩
    | done content => exact exists_replaceBin hfinite

end CacheFile

end Cob
