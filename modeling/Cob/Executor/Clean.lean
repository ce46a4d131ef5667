import Cob.Lib.Fueled
import Cob.Tools
import Mathlib.Logic.Function.Iterate

/-!
# Cleaning

`Executor::clean` with `unlinkWithIoUring`: the paths are removed in batches, through a ring to
which the kernel answers as it likes. What it does is recorded in a log.

* `Kernel`, `Ring` — the answers of the kernel, and what `liburing` does with them;
* `Batches` — the log of batches that were completed, each of which has consumed exactly its own
  completions;
* `Cleaned` — what a whole run has done;
* `attempts_all` — every run that returns has cleaned, and it returns when interrupts are finite;
* `mem_cleaned` — what that means for the files of a graph.
-/

namespace Cob

namespace Uring

open Fueled

/-- The error number of an interrupted call. -/
def eintr : ℤ := 4

/-- The error number of a missing file. -/
def enoent : ℤ := 2

/-- The error number of an invalid argument. -/
def einval : ℤ := 22

/-- A submission entry, prepared for `unlinkat`. -/
structure Entry where
  path : Bytes
  /-- the user data -/
  data : ℕ
  deriving DecidableEq

/-- A completion entry. -/
structure Completion where
  /-- the submission that completed; the program sees its user data only -/
  entry : Entry
  res : ℤ
  deriving DecidableEq

/-- What is recorded. -/
inductive Event where
  /-- an entry was prepared, which the kernel may carry out from now on -/
  | queued (entry : Entry)
  /-- `io_uring_cqe_seen` -/
  | consumed (completion : Completion)
  /-- `::unlink` -/
  | unlinked (path : Bytes)
  deriving DecidableEq

/-- The path that an event is about. -/
def Event.path : Event → Bytes
  | .queued entry => entry.path
  | .consumed completion => completion.entry.path
  | .unlinked path => path

/-- What the kernel answers, call after call. -/
structure Kernel where
  /-- `io_uring_queue_init` -/
  queueInit : ℤ
  /-- `io_uring_submit`; a count beyond what is queued means all of it -/
  submit : ℕ → ℤ
  /-- `io_uring_wait_cqe_nr` -/
  wait : ℕ → ℤ
  /-- which of the entries in flight completes next -/
  next : ℕ → ℕ
  /-- the result it completes with -/
  res : ℕ → ℤ

/-- The ring, how often the kernel was asked, and the log. -/
structure Ring where
  /-- the size of the submission queue -/
  capacity : ℕ
  /-- entries that were prepared but not submitted -/
  queued : List Entry
  /-- entries that were submitted but have not completed -/
  inFlight : List Entry
  /-- the completion queue -/
  completed : List Completion
  submits : ℕ
  waits : ℕ
  completions : ℕ
  log : List Event

namespace Ring

/-- The ring after `io_uring_queue_init`. -/
def create (depth : ℕ) : Ring := ⟨depth, [], [], [], 0, 0, 0, []⟩

/-- One more event. -/
def record (r : Ring) (e : Event) : Ring := { r with log := r.log ++ [e] }

/-- `io_uring_get_sqe`, which answers null when the queue is full, and the preparation of the
entry. -/
def prepare (r : Ring) (path : Bytes) (data : ℕ) : Fueled Ring :=
  if r.queued.length < r.capacity then
    pure { r.record (.queued ⟨path, data⟩) with queued := r.queued ++ [⟨path, data⟩] }
  else .error .outOfBounds

/-- `io_uring_submit`: the kernel takes entries from the front of the queue. -/
def submit (k : Kernel) (r : Ring) : ℤ × Ring :=
  let result := min (k.submit r.submits) r.queued.length
  (result,
    { r with
      submits := r.submits + 1
      queued := r.queued.drop result.toNat
      inFlight := r.inFlight ++ r.queued.take result.toNat })

/-- One entry completes. -/
def complete (k : Kernel) (r : Ring) : Ring :=
  let i := k.next r.completions % r.inFlight.length
  match r.inFlight[i]? with
  | some entry =>
    { r with
      inFlight := r.inFlight.eraseIdx i
      completed := r.completed ++ [⟨entry, k.res r.completions⟩]
      completions := r.completions + 1 }
  | none => r

/-- `io_uring_wait_cqe_nr`: an error, or as many completions as were asked for. A call that asks for
more than there can be does not return. -/
def wait (k : Kernel) (count : ℕ) (r : Ring) : Fueled (ℤ × Ring) :=
  let result := k.wait r.waits
  let r := { r with waits := r.waits + 1 }
  if result < 0 then pure (result, r)
  else if r.completed.length + r.inFlight.length < count then .error .outOfFuel
  else pure (result, (complete k)^[count - r.completed.length] r)

/-- `io_uring_cqe_seen`. -/
def seen (r : Ring) (c : Completion) : Ring :=
  { r.record (.consumed c) with completed := r.completed.tail }

end Ring

/-- `unlinkSynchronously`. -/
def unlinkSynchronously (paths : List Bytes) (r : Ring) : Ring :=
  paths.foldl (fun r path => r.record (.unlinked (Bytes.cStr path))) r

/-- One round of the loop that prepares a batch. -/
def prepareEntry (paths : List Bytes) (offset : ℕ) (r : Ring) (i : ℕ) : Fueled Ring :=
  match paths[offset + i]? with
  | some path => r.prepare (Bytes.cStr path) (offset + i)
  | none => .error .outOfBounds

/-- One round of `while (submitted < count)`. -/
def submitRound (k : Kernel) (count : ℕ) (s : Ring × ℕ) : Fueled ((Ring × ℕ) ⊕ (Ring × ℕ)) :=
  if s.2 < count then
    let (result, r) := s.1.submit k
    if result = -eintr then pure (.inl (r, s.2))
    else if result ≤ 0 then pure (.inr (r, s.2))
    else pure (.inl (r, s.2 + result.toNat))
  else pure (.inr s)

/-- One call of `io_uring_wait_cqe_nr`, which is repeated after an interrupt. -/
def waitRound (k : Kernel) (submitted : ℕ) (r : Ring) : Fueled (Ring ⊕ (ℤ × Ring)) := do
  let (result, r) ← r.wait k submitted
  if result = -eintr then pure (.inl r) else pure (.inr (result, r))

/-- The wait for a batch; without a submitted entry there is nothing to wait for. -/
def waitAll (k : Kernel) (fuel submitted : ℕ) (r : Ring) : Fueled (ℤ × Ring) :=
  if submitted > 0 then loop (waitRound k submitted) fuel r else pure (0, r)

/-- One round of the loop over the completions: the first one was returned by the wait, the others
are peeked at, which leaves null when there is none. -/
def reap (paths : List Bytes) (first : Option Completion) (r : Ring) (i : ℕ) : Fueled Ring :=
  match if i = 0 then first else r.completed.head? with
  | none => .error .outOfBounds
  | some completion =>
    if completion.res < 0 ∧ completion.res ≠ -enoent then
      match paths[completion.entry.data]? with
      | some path => pure ((r.record (.unlinked (Bytes.cStr path))).seen completion)
      | none => .error .outOfBounds
    else pure (r.seen completion)

/-- One round of the loop over the batches. -/
def batchRound (k : Kernel) (depth fuel : ℕ) (paths : List Bytes) (s : ℕ × Ring) :
    Fueled ((ℕ × Ring) ⊕ Ring) := do
  let (offset, r) := s
  if offset < paths.length then
    let remaining := paths.length - offset
    let count := if remaining < depth then remaining else depth
    let r ← (List.range count).foldlM (prepareEntry paths offset) r
    let (r, submitted) ← loop (submitRound k count) fuel (r, 0)
    let (waitResult, r) ← waitAll k fuel submitted r
    -- given up: this batch and the rest of the list, by direct calls
    if submitted ≠ count ∨ waitResult < 0 then
      pure (.inr (unlinkSynchronously (paths.drop offset) r))
    else
      let r ← (List.range submitted).foldlM (reap paths r.completed.head?) r
      pure (.inl (offset + count, r))
  else pure (.inr r)

/-- `unlinkWithIoUring`. A ring without entries is an invalid argument of `io_uring_queue_init`. -/
def unlinkWithIoUring (k : Kernel) (depth fuel : ℕ) (paths : List Bytes) : Fueled Ring :=
  let result := if depth = 0 then -einval else k.queueInit
  if result < 0 then pure (unlinkSynchronously paths (.create depth))
  else loop (batchRound k depth fuel paths) fuel (0, .create depth)

/-- `Executor::clean`, which looks at the first letter of every tool. -/
def clean (k : Kernel) (depth fuel : ℕ) (ccOnly : Bool) (g : BuildGraph) : Fueled Ring :=
  match cleanPaths ccOnly g with
  | some paths => unlinkWithIoUring k depth fuel paths
  | none => .error .outOfBounds

/-! ### What a run is to do -/

/-- The entries of a batch. -/
def entries (paths : List Bytes) (offset count : ℕ) : List Entry :=
  (List.range count).filterMap fun i => paths[offset + i]?.map (⟨·, offset + i⟩)

/-- The size of the batch from `offset` on. -/
def batchSize (depth : ℕ) (paths : List Bytes) (offset : ℕ) : ℕ :=
  min (paths.length - offset) depth

/-- The entry did its work: the file is gone. -/
def Completion.settled (c : Completion) : Prop := 0 ≤ c.res ∨ c.res = -enoent

/-- What consuming a completion leaves in the log. -/
def consumption (c : Completion) : List Event :=
  if c.res < 0 ∧ c.res ≠ -enoent then [.unlinked c.entry.path, .consumed c] else [.consumed c]

/-- The log of batches that were carried out, up to an offset. Each one consumes the completions of
its own entries, in some order, before the next begins. -/
inductive Batches (depth : ℕ) (paths : List Bytes) : ℕ → List Event → Prop
  | start : Batches depth paths 0 []
  | batch {offset : ℕ} {log : List Event} {completions : List Completion} :
      Batches depth paths offset log → offset < paths.length →
      (completions.map Completion.entry).Perm
        (entries paths offset (batchSize depth paths offset)) →
      Batches depth paths (offset + batchSize depth paths offset)
        (log ++ ((entries paths offset (batchSize depth paths offset)).map .queued ++
          completions.flatMap consumption))

/-- What is logged after the last whole batch: nothing when all paths are done, else what was
queued for a batch that is given up, and direct calls for all that is left. -/
inductive Ending (depth : ℕ) (paths : List Bytes) : ℕ → List Event → Prop
  | finished : Ending depth paths paths.length []
  | fallback {offset count : ℕ} : Ending depth paths offset
      ((entries paths offset count).map .queued ++ (paths.drop offset).map .unlinked)

/-- A path was removed by an entry of the ring that did its work, or by a direct call. -/
def Attempted (log : List Event) (path : Bytes) (data : ℕ) : Prop :=
  (∃ c : Completion, .consumed c ∈ log ∧ c.entry = ⟨path, data⟩ ∧ c.settled) ∨ .unlinked path ∈ log

/-- What a run has done. -/
structure Cleaned (depth : ℕ) (paths : List Bytes) (log : List Event) : Prop where
  /-- every path was attempted -/
  attempted : ∀ i path, paths[i]? = some path → Attempted log path i
  /-- nothing else was touched -/
  inside : ∀ e ∈ log, e.path ∈ paths
  /-- batch after batch, up to one that was given up -/
  batches : ∃ offset done rest, log = done ++ rest ∧ Batches depth paths offset done ∧
    Ending depth paths offset rest

section Log

variable {depth offset count : ℕ} {paths : List Bytes} {log : List Event}

@[simp] theorem entries_zero : entries paths offset 0 = [] := rfl

theorem entries_succ {path : Bytes} (h : paths[offset + count]? = some path) :
    entries paths offset (count + 1) = entries paths offset count ++ [⟨path, offset + count⟩] := by
  simp [entries, List.range_succ, List.filterMap_append, h]

theorem mem_entries {e : Entry} :
    e ∈ entries paths offset count ↔
      ∃ i < count, e.data = offset + i ∧ paths[offset + i]? = some e.path := by
  rw [entries, List.mem_filterMap]
  constructor
  · rintro ⟨i, hi, he⟩
    obtain ⟨path, hpath, rfl⟩ := Option.map_eq_some_iff.mp he
    exact ⟨i, List.mem_range.mp hi, rfl, hpath⟩
  · rintro ⟨i, hi, hdata, hpath⟩
    refine ⟨i, List.mem_range.mpr hi, ?_⟩
    rw [hpath, ← hdata]
    rfl

theorem path_mem_of_mem_entries {e : Entry} (h : e ∈ entries paths offset count) :
    e.path ∈ paths := by
  obtain ⟨i, _, _, hpath⟩ := mem_entries.mp h
  exact List.mem_of_getElem? hpath

theorem length_entries (h : offset + count ≤ paths.length) :
    (entries paths offset count).length = count := by
  induction count with
  | zero => rfl
  | succ count ih =>
    have hlt : offset + count < paths.length := by omega
    rw [entries_succ (List.getElem?_eq_getElem hlt), List.length_append, ih (by omega)]
    rfl

/-- A longer log shows no less. -/
theorem Attempted.append {path : Bytes} {data : ℕ} {rest : List Event}
    (h : Attempted log path data) : Attempted (log ++ rest) path data := by
  rcases h with ⟨c, hc, hrest⟩ | h
  · exact .inl ⟨c, List.mem_append_left _ hc, hrest⟩
  · exact .inr (List.mem_append_left _ h)

/-- A consumed completion settles its path, or is followed up by a direct call. -/
theorem attempted_of_consumption (log : List Event) {c : Completion}
    (h : ∀ e ∈ consumption c, e ∈ log) :
    Attempted log c.entry.path c.entry.data := by
  unfold consumption at h
  split_ifs at h with hres
  · exact .inr (h _ List.mem_cons_self)
  · refine .inl ⟨c, h _ List.mem_cons_self, rfl, ?_⟩
    rw [Completion.settled]
    omega

/-- Whole batches have attempted every path before their offset. -/
theorem Batches.attempted (h : Batches depth paths offset log) {i : ℕ} {path : Bytes}
    (hi : i < offset) (hpath : paths[i]? = some path) : Attempted log path i := by
  induction h with
  | start => exact absurd hi (Nat.not_lt_zero _)
  | @batch offset log completions _ _ hperm ih =>
    by_cases hold : i < offset
    · exact (ih hold).append
    · -- the entry of the path is in this batch, so its completion was consumed
      have hentry : (⟨path, i⟩ : Entry) ∈ entries paths offset (batchSize depth paths offset) := by
        refine mem_entries.mpr ⟨i - offset, by omega, ?_, ?_⟩
        · rw [Nat.add_sub_cancel' (Nat.le_of_not_lt hold)]
        · rw [Nat.add_sub_cancel' (Nat.le_of_not_lt hold)]
          exact hpath
      obtain ⟨c, hc, heq⟩ := List.mem_map.mp (hperm.mem_iff.mpr hentry)
      have hattempted := attempted_of_consumption (log ++
        ((entries paths offset (batchSize depth paths offset)).map .queued ++
          completions.flatMap consumption)) fun e (he : e ∈ consumption c) =>
        List.mem_append_right _ (List.mem_append_right _ (List.mem_flatMap.mpr ⟨c, hc, he⟩))
      rwa [heq] at hattempted

/-- Queued entries are about paths of the list. -/
theorem inside_queued {e : Event} (h : e ∈ (entries paths offset count).map .queued) :
    e.path ∈ paths := by
  obtain ⟨entry, hentry, rfl⟩ := List.mem_map.mp h
  exact path_mem_of_mem_entries hentry

theorem path_of_mem_consumption {c : Completion} {e : Event} (h : e ∈ consumption c) :
    e.path = c.entry.path := by
  unfold consumption at h
  split_ifs at h with hres
  · rcases List.mem_cons.mp h with rfl | h
    · rfl
    · rw [List.mem_singleton.mp h]
      rfl
  · rw [List.mem_singleton.mp h]
    rfl

/-- Whole batches touch paths of the list only. -/
theorem Batches.inside (h : Batches depth paths offset log) : ∀ e ∈ log, e.path ∈ paths := by
  induction h with
  | start => exact nofun
  | batch _ _ hperm ih =>
    intro e he
    rcases List.mem_append.mp he with he | he
    · exact ih e he
    rcases List.mem_append.mp he with he | he
    · exact inside_queued he
    · obtain ⟨c, hc, he⟩ := List.mem_flatMap.mp he
      rw [path_of_mem_consumption he]
      exact path_mem_of_mem_entries (hperm.mem_iff.mp (List.mem_map_of_mem hc))

/-- Whole batches and an ending are a run that has cleaned. -/
theorem Batches.cleaned {rest : List Event} (h : Batches depth paths offset log)
    (hrest : Ending depth paths offset rest) : Cleaned depth paths (log ++ rest) := by
  refine ⟨fun i path hpath => ?_, fun e he => ?_, ⟨offset, log, rest, rfl, h, hrest⟩⟩
  · have hi := (List.getElem?_eq_some_iff.mp hpath).1
    by_cases hdone : i < offset
    · exact (h.attempted hdone hpath).append
    · -- what the batches have not reached is left to the direct calls
      cases hrest with
      | finished => exact absurd hi hdone
      | fallback =>
        refine .inr (List.mem_append_right _ (List.mem_append_right _ ?_))
        refine List.mem_map_of_mem (List.mem_of_getElem? (i := i - offset) ?_)
        rw [List.getElem?_drop, Nat.add_sub_cancel' (Nat.le_of_not_lt hdone)]
        exact hpath
  · rcases List.mem_append.mp he with he | he
    · exact h.inside e he
    cases hrest with
    | finished => cases he
    | fallback =>
      rcases List.mem_append.mp he with he | he
      · exact inside_queued he
      · obtain ⟨path, hpath, rfl⟩ := List.mem_map.mp he
        exact List.mem_of_mem_drop hpath

end Log

/-! ### The loops -/

section Loops

variable {k : Kernel} {depth fuel offset count : ℕ} {paths : List Bytes} {r : Ring}

/-- What the kernel reads of the paths is all of them. -/
def CStrings (paths : List Bytes) : Prop := ∀ path ∈ paths, Bytes.cStr path = path

theorem log_unlinkSynchronously (hpaths : CStrings paths) (r : Ring) :
    (unlinkSynchronously paths r).log = r.log ++ paths.map .unlinked := by
  induction paths generalizing r with
  | nil => simp [unlinkSynchronously]
  | cons path paths ih =>
    have hstep : unlinkSynchronously (path :: paths) r =
        unlinkSynchronously paths (r.record (.unlinked path)) := by
      rw [unlinkSynchronously, List.foldl_cons, hpaths path List.mem_cons_self]
      rfl
    rw [hstep, ih fun p hp => hpaths p (List.mem_cons_of_mem _ hp)]
    simp [Ring.record]

/-- A batch that fits into the queue is prepared. -/
theorem foldlM_prepareEntry (hpaths : CStrings paths) (hqueued : r.queued = [])
    (hcapacity : count ≤ r.capacity) (hlen : offset + count ≤ paths.length) :
    (List.range count).foldlM (prepareEntry paths offset) r =
      .ok { r with
        queued := entries paths offset count
        log := r.log ++ (entries paths offset count).map .queued } := by
  induction count with
  | zero =>
    obtain ⟨capacity, queued, inFlight, completed, submits, waits, completions, log⟩ := r
    obtain rfl : queued = [] := hqueued
    simp [pure, Except.pure]
  | succ count ih =>
    have hlt : offset + count < paths.length := by omega
    have hget := List.getElem?_eq_getElem hlt
    have hpath := hpaths _ (List.getElem_mem hlt)
    have hroom : (entries paths offset count).length < r.capacity := by
      rw [length_entries (by omega)]
      omega
    rw [List.range_succ, List.foldlM_append, ih (by omega) (by omega), entries_succ hget]
    simp [bind, Except.bind, prepareEntry, hget, hpath, Ring.prepare, hroom, Ring.record, pure,
      Except.pure]

/-- While a batch is being submitted, its entries are in flight or still queued. -/
structure Submitting (r₀ : Ring) (batch : List Entry) (r : Ring) (submitted : ℕ) : Prop where
  entries : r.inFlight ++ r.queued = batch
  count : r.inFlight.length = submitted
  completed : r.completed = []
  capacity : r.capacity = r₀.capacity
  log : r.log = r₀.log

/-- Interrupts are over after `calls` calls, and the rounds suffice. -/
def Calm (k : Kernel) (calls depth : ℕ) (paths : List Bytes) (fuel : ℕ) : Prop :=
  (∀ n, calls ≤ n → k.submit n ≠ -eintr ∧ k.wait n ≠ -eintr) ∧
    calls + depth + paths.length < fuel

variable {calls : ℕ} {r₀ : Ring} {batch : List Entry} {submitted : ℕ}

/-- Submitting takes entries from the queue. -/
theorem Submitting.submit (h : Submitting r₀ batch r submitted) :
    Submitting r₀ batch (r.submit k).2 (submitted + (r.submit k).1.toNat) := by
  have hle : (r.submit k).1.toNat ≤ r.queued.length := by
    simp only [Ring.submit]
    omega
  refine ⟨?_, ?_, h.completed, h.capacity, h.log⟩
  · have hsplit := List.take_append_drop (r.submit k).1.toNat r.queued
    simp only [Ring.submit] at hsplit ⊢
    rw [List.append_assoc, hsplit]
    exact h.entries
  · simp only [Ring.submit] at hle ⊢
    rw [List.length_append, List.length_take, Nat.min_eq_left hle, h.count]

/-- The submit loop ends with some of the entries submitted. -/
theorem returnsIf_submit (hdepth : batch.length ≤ depth) (h : Submitting r₀ batch r 0) :
    ReturnsIf (Calm k calls depth paths fuel) (loop (submitRound k batch.length) fuel (r, 0))
      fun s => Submitting r₀ batch s.1 s.2 := by
  refine returnsIf_loop (fun s => Submitting r₀ batch s.1 s.2)
    (fun s => (calls - s.1.submits) + (batch.length - s.2)) ?_ h fun hcalm => ?_
  · rintro ⟨r, submitted⟩ hs
    have hsubmit := hs.submit (k := k)
    have hresult : (r.submit k).1 ≤ k.submit r.submits := by
      simp only [Ring.submit]
      omega
    have hcalls : (r.submit k).2.submits = r.submits + 1 := rfl
    unfold submitRound
    dsimp only at hs ⊢
    split_ifs with hlt hintr hzero
    · -- an interrupt submits nothing, but is one of finitely many
      have hnone : (r.submit k).1.toNat = 0 := by
        rw [hintr]
        rfl
      rw [hnone, Nat.add_zero] at hsubmit
      refine .inl ⟨_, rfl, hsubmit, fun hcalm => ?_⟩
      dsimp only
      have hearly : r.submits < calls := by
        by_contra hlate
        have hne := (hcalm.1 r.submits (Nat.le_of_not_lt hlate)).1
        have hneg : (r.submit k).1 = min (k.submit r.submits) r.queued.length := rfl
        rw [hintr, eintr] at hneg
        rw [eintr] at hne
        omega
      omega
    · have hnone : (r.submit k).1.toNat = 0 := by omega
      rw [hnone, Nat.add_zero] at hsubmit
      exact .inl ⟨_, rfl, hsubmit⟩
    · refine .inl ⟨_, rfl, hsubmit, fun _ => ?_⟩
      dsimp only
      omega
    · exact .inl ⟨_, rfl, hs⟩
  · have hfuel := hcalm.2
    dsimp only
    omega

/-- What a completion leaves unchanged. -/
structure SameOutside (r₀ r : Ring) : Prop where
  queued : r.queued = r₀.queued
  capacity : r.capacity = r₀.capacity
  log : r.log = r₀.log

theorem SameOutside.trans {r₁ r₂ r₃ : Ring} (h : SameOutside r₁ r₂) (h' : SameOutside r₂ r₃) :
    SameOutside r₁ r₃ :=
  ⟨h'.queued.trans h.queued, h'.capacity.trans h.capacity, h'.log.trans h.log⟩

/-- One of the entries in flight completes. -/
theorem Ring.complete_spec (k : Kernel) (h : r.inFlight ≠ []) :
    ∃ c : Completion, (c.entry :: (r.complete k).inFlight).Perm r.inFlight ∧
      (r.complete k).completed = r.completed ++ [c] ∧ SameOutside r (r.complete k) := by
  have hlt : k.next r.completions % r.inFlight.length < r.inFlight.length :=
    Nat.mod_lt _ (List.length_pos_iff.mpr h)
  have hget := List.getElem?_eq_getElem hlt
  have hperm := ((List.erase_getElem hlt).symm.cons _).trans
    (List.perm_cons_erase (List.getElem_mem hlt)).symm
  simp only [Ring.complete, hget]
  exact ⟨_, hperm, rfl, rfl, rfl, rfl⟩

/-- All entries in flight complete, in some order. -/
theorem Ring.iterate_complete (k : Kernel) (n : ℕ) (r : Ring) (h : r.inFlight.length = n) :
    ∃ completions : List Completion, (completions.map Completion.entry).Perm r.inFlight ∧
      ((Ring.complete k)^[n] r).completed = r.completed ++ completions ∧
      ((Ring.complete k)^[n] r).inFlight = [] ∧ SameOutside r ((Ring.complete k)^[n] r) := by
  induction n generalizing r with
  | zero =>
    have hnil := List.eq_nil_of_length_eq_zero h
    exact ⟨[], by simp [hnil], by simp, by simp [hnil], rfl, rfl, rfl⟩
  | succ n ih =>
    have hne : r.inFlight ≠ [] := List.ne_nil_of_length_eq_add_one h
    obtain ⟨c, hperm, hcompleted, hsame⟩ := r.complete_spec k hne
    have hlen : (r.complete k).inFlight.length = n := by
      have hsum := hperm.length_eq
      rw [List.length_cons, h] at hsum
      omega
    obtain ⟨rest, hrest, hcompleted', hflight, hsame'⟩ := ih (r.complete k) hlen
    rw [Function.iterate_succ_apply]
    refine ⟨c :: rest, (hrest.cons c.entry).trans hperm, ?_, hflight, hsame.trans hsame'⟩
    rw [hcompleted', hcompleted, List.append_assoc, List.singleton_append]

/-- After a successful wait all that was submitted has completed. -/
structure Completed (r₀ : Ring) (batch : List Entry) (r : Ring) : Prop where
  perm : (r.completed.map Completion.entry).Perm batch
  inFlight : r.inFlight = []
  same : SameOutside r₀ r

/-- The wait loop ends with an error, or with the completions. -/
theorem returnsIf_waitAll (hcompleted : r.completed = [])
    (hcount : r.inFlight.length = submitted) :
    ReturnsIf (Calm k calls depth paths fuel) (waitAll k fuel submitted r)
      fun s => s.2.log = r.log ∧ (0 ≤ s.1 → Completed r r.inFlight s.2) := by
  by_cases hpos : submitted > 0
  swap
  · have hnone : r.inFlight = [] := List.eq_nil_of_length_eq_zero (by omega)
    rw [waitAll, if_neg hpos]
    exact .inl ⟨_, rfl, rfl, fun _ => ⟨by simp [hcompleted, hnone], hnone, rfl, rfl, rfl⟩⟩
  rw [waitAll, if_pos hpos]
  refine returnsIf_loop
    (fun s => s.completed = [] ∧ s.inFlight = r.inFlight ∧ SameOutside r s)
    (fun s => calls - s.waits) ?_ ⟨hcompleted, rfl, rfl, rfl, rfl⟩ fun hcalm => ?_
  · rintro s ⟨hnone, hflight, hsame⟩
    unfold waitRound Ring.wait
    dsimp only
    by_cases hneg : k.wait s.waits < 0
    · rw [if_pos hneg]
      simp only [pure_bind]
      split_ifs with hintr
      · refine .inl ⟨_, rfl, ⟨hnone, hflight, hsame.queued, hsame.capacity, hsame.log⟩,
          fun hcalm => ?_⟩
        have hearly : s.waits < calls := by
          by_contra hlate
          exact (hcalm.1 s.waits (Nat.le_of_not_lt hlate)).2 hintr
        dsimp only
        omega
      · exact .inl ⟨_, rfl, hsame.log, fun hpos => absurd hneg (Int.not_lt.mpr hpos)⟩
    · -- as many are in flight as were asked for, so the call returns
      have henough : ¬ s.completed.length + s.inFlight.length < submitted := by
        rw [hnone, hflight, hcount]
        simp
      have hwait : submitted - s.completed.length = submitted := by rw [hnone]; rfl
      obtain ⟨completions, hperm, hall, hempty, hsame'⟩ := Ring.iterate_complete k submitted
        { s with waits := s.waits + 1 } (by rw [hflight, hcount])
      rw [if_neg hneg, if_neg henough, hwait]
      simp only [pure_bind]
      have hintr : k.wait s.waits ≠ -eintr := by
        rw [eintr]
        omega
      rw [if_neg hintr]
      have hfrom : SameOutside r ((Ring.complete k)^[submitted] { s with waits := s.waits + 1 }) :=
        hsame.trans ⟨hsame'.queued, hsame'.capacity, hsame'.log⟩
      refine .inl ⟨_, rfl, hfrom.log, fun _ => ⟨?_, hempty, hfrom⟩⟩
      rw [hall, hnone, List.nil_append, ← hflight]
      exact hperm
  · have hfuel := hcalm.2
    omega

/-- Consuming the completions: each one is matched by its user data. -/
theorem foldlM_reap (hpaths : CStrings paths) {completions : List Completion}
    (hcompleted : r.completed = completions)
    (hdata : ∀ c ∈ completions, paths[c.entry.data]? = some c.entry.path)
    (hcount : count ≤ completions.length) :
    (List.range count).foldlM (reap paths completions.head?) r =
      .ok { r with
        completed := completions.drop count
        log := r.log ++ (completions.take count).flatMap consumption } := by
  induction count with
  | zero => simp [← hcompleted, pure, Except.pure]
  | succ count ih =>
    have hlt : count < completions.length := by omega
    have hget := List.getElem?_eq_getElem hlt
    -- the first completion was peeked when waiting, the later ones are peeked here
    have hpeek : (if count = 0 then completions.head? else (completions.drop count).head?) =
        some completions[count] := by
      rw [← hget]
      split_ifs with hzero
      · rw [hzero, List.head?_eq_getElem?]
      · rw [List.head?_drop]
    have hpath := hdata _ (List.getElem_mem hlt)
    have hcStr := hpaths _ (List.mem_of_getElem? hpath)
    rw [List.range_succ, List.foldlM_append, ih (by omega), List.take_add_one, hget,
      List.flatMap_append]
    simp only [bind, Except.bind, List.foldlM_cons, List.foldlM_nil, reap, hpeek, hpath]
    by_cases hres : completions[count].res < 0 ∧ completions[count].res ≠ -enoent
    · simp [hres, hcStr, Ring.record, Ring.seen, consumption, pure, Except.pure]
    · simp [hres, Ring.record, Ring.seen, consumption, pure, Except.pure]

/-- Between two batches the ring is empty. -/
structure BetweenBatches (depth : ℕ) (paths : List Bytes) (offset : ℕ) (r : Ring) : Prop where
  batches : Batches depth paths offset r.log
  offset_le : offset ≤ paths.length
  queued : r.queued = []
  inFlight : r.inFlight = []
  completed : r.completed = []
  capacity : r.capacity = depth

/-- A round carries out a batch, or gives it up and removes what is left by direct calls. -/
theorem returnsIf_batchRound (hpaths : CStrings paths) (hdepth : 0 < depth)
    (h : BetweenBatches depth paths offset r) :
    ReturnsIf (Calm k calls depth paths fuel) (batchRound k depth fuel paths (offset, r))
      (Sum.elim (fun s => BetweenBatches depth paths s.1 s.2 ∧
        paths.length - s.1 < paths.length - offset) fun r => Cleaned depth paths r.log) := by
  unfold batchRound
  dsimp only
  -- the loop ends when every path has had its batch
  by_cases hlt : offset < paths.length
  swap
  · rw [if_neg hlt]
    obtain rfl : offset = paths.length := le_antisymm h.offset_le (Nat.le_of_not_lt hlt)
    have hcleaned := h.batches.cleaned .finished
    rw [List.append_nil] at hcleaned
    exact .inl ⟨_, rfl, hcleaned⟩
  have hcount : (if paths.length - offset < depth then paths.length - offset else depth) =
      batchSize depth paths offset := by
    rw [batchSize]
    split_ifs <;> omega
  have hsize : offset + batchSize depth paths offset ≤ paths.length := by
    rw [batchSize]
    omega
  have hpos : 0 < batchSize depth paths offset := by
    rw [batchSize]
    omega
  have hfits : batchSize depth paths offset ≤ depth := Nat.min_le_right _ _
  rw [if_pos hlt, hcount]
  -- what the round submits, and what its log says in either of its two ends
  have hprepare := foldlM_prepareEntry hpaths h.queued (h.capacity ▸ hfits) hsize
  have hpath : ∀ e ∈ entries paths offset (batchSize depth paths offset),
      paths[e.data]? = some e.path := by
    intro e he
    obtain ⟨i, _, hdata, hget⟩ := mem_entries.mp he
    rw [hdata, hget]
  have hnext := fun (completions : List Completion)
      (hperm : (completions.map Completion.entry).Perm
        (entries paths offset (batchSize depth paths offset))) =>
    Batches.batch h.batches hlt hperm
  have hending : Ending depth paths offset
      ((entries paths offset (batchSize depth paths offset)).map .queued ++
        (paths.drop offset).map .unlinked) := .fallback
  have hgiveUp := h.batches.cleaned hending
  have hlen := length_entries hsize
  generalize entries paths offset (batchSize depth paths offset) = batch at *
  -- prepare the batch, submit it, wait for all of it, reap the completions
  refine ReturnsIf.bind (.inl ⟨_, hprepare, rfl⟩) fun r₁ hr₁ => ?_
  have hstart : Submitting r₁ batch r₁ 0 := by
    subst hr₁
    exact ⟨by simp [h.inFlight], by simp [h.inFlight], h.completed, rfl, rfl⟩
  rw [← hlen] at hfits ⊢
  refine (returnsIf_submit hfits hstart).bind ?_
  rintro ⟨r₂, submitted⟩ hsubmitted
  dsimp only at hsubmitted
  refine (returnsIf_waitAll hsubmitted.completed hsubmitted.count).bind ?_
  rintro ⟨waitResult, r₃⟩ ⟨hlog, hdone⟩
  have hlog₃ : r₃.log = r.log ++ batch.map .queued := by
    rw [hlog, hsubmitted.log, ← hr₁]
  dsimp only at hdone ⊢
  split_ifs with hfailed
  · -- given up: the completions are left in the ring
    refine .inl ⟨_, rfl, ?_⟩
    have hleft : CStrings (paths.drop offset) := fun p hp => hpaths p (List.mem_of_mem_drop hp)
    rw [Sum.elim_inr, log_unlinkSynchronously hleft, hlog₃, List.append_assoc]
    exact hgiveUp
  · -- every entry was submitted and completed: the ring is empty again
    have hall : submitted = batch.length := by omega
    obtain ⟨hperm, hflight, hsame⟩ := hdone (by omega)
    have hcount₂ := hsubmitted.count
    have hentries := hsubmitted.entries
    have hempty : r₂.queued = [] := by
      have hsum := congrArg List.length hentries
      rw [List.length_append, hcount₂, hall] at hsum
      exact List.eq_nil_of_length_eq_zero (by omega)
    rw [hempty, List.append_nil] at hentries
    rw [hentries] at hperm
    have hlength : r₃.completed.length = submitted := by
      rw [hall, ← hperm.length_eq, List.length_map]
    have hreap := foldlM_reap (r := r₃) hpaths rfl
      (fun c hc => hpath _ (hperm.mem_iff.mp (List.mem_map_of_mem hc))) hlength.ge
    refine ReturnsIf.bind (.inl ⟨_, hreap, rfl⟩) ?_
    rintro r₄ rfl
    rw [← hlength, List.take_length, List.drop_length]
    refine .inl ⟨_, rfl, ⟨?_, ?_, ?_, ?_, rfl, ?_⟩, ?_⟩
    · dsimp only
      rw [hlog₃, hlen, List.append_assoc]
      exact hnext r₃.completed hperm
    · dsimp only
      omega
    · rw [← hempty]
      exact hsame.queued
    · exact hflight
    · rw [hsame.capacity, hsubmitted.capacity, ← hr₁]
      exact h.capacity
    · dsimp only
      omega

/-- A run returns when it is calm, and what returns has cleaned. -/
theorem returnsIf_unlink (k : Kernel) (calls depth fuel : ℕ) (hpaths : CStrings paths) :
    ReturnsIf (Calm k calls depth paths fuel) (unlinkWithIoUring k depth fuel paths)
      fun r => Cleaned depth paths r.log := by
  have hsync : Cleaned depth paths (unlinkSynchronously paths (.create depth)).log := by
    rw [log_unlinkSynchronously hpaths]
    have hending : Ending depth paths 0
        ((entries paths 0 0).map .queued ++ (paths.drop 0).map .unlinked) := .fallback
    exact Batches.start.cleaned hending
  unfold unlinkWithIoUring
  dsimp only
  split_ifs with hzero hfailed hfailed
  · exact .inl ⟨_, rfl, hsync⟩
  · -- a ring without entries is refused
    exact absurd (by decide) hfailed
  · exact .inl ⟨_, rfl, hsync⟩
  · refine returnsIf_loop (fun s => BetweenBatches depth paths s.1 s.2)
      (fun s => paths.length - s.1) (fun s hs => ?_)
      ⟨.start, Nat.zero_le _, rfl, rfl, rfl, rfl⟩ fun hcalm => ?_
    · refine (returnsIf_batchRound hpaths (Nat.pos_of_ne_zero hzero) hs).mono ?_
      rintro (s' | r) hnext
      · exact ⟨hnext.1, fun _ => hnext.2⟩
      · exact hnext
    · have hfuel := hcalm.2
      dsimp only
      omega

/-- The paths are used as C strings only. -/
theorem unlinkWithIoUring_cStr (k : Kernel) (depth fuel : ℕ) (paths : List Bytes) :
    unlinkWithIoUring k depth fuel (paths.map Bytes.cStr) =
      unlinkWithIoUring k depth fuel paths := by
  -- every path is passed on as a C string, which ends at the first zero byte
  have hsync : ∀ (paths : List Bytes) r,
      unlinkSynchronously (paths.map Bytes.cStr) r = unlinkSynchronously paths r := by
    intro paths r
    simp [unlinkSynchronously, List.foldl_map]
  have hprepare : ∀ offset,
      prepareEntry (paths.map Bytes.cStr) offset = prepareEntry paths offset := by
    intro offset
    funext r i
    simp only [prepareEntry, List.getElem?_map]
    cases paths[offset + i]? <;> simp
  have hreap : ∀ first, reap (paths.map Bytes.cStr) first = reap paths first := by
    intro first
    funext r i
    simp only [reap, List.getElem?_map]
    split
    · rfl
    · split_ifs
      · next completion _ _ => cases paths[completion.entry.data]? <;> simp
      · rfl
  have hround : batchRound k depth fuel (paths.map Bytes.cStr) = batchRound k depth fuel paths := by
    funext s
    simp only [batchRound, List.length_map, hprepare, hreap, ← List.map_drop, hsync]
  simp only [unlinkWithIoUring, hsync, hround]

end Loops

/-- **Cleaning.** Whatever the kernel answers, a run that returns has attempted every path, touched
no other, and consumed exactly the completions of each batch before the next; of a path, the kernel
reads what precedes its first NUL. No run accesses anything out of bounds, and a run returns when
interrupts are finite. -/
theorem attempts_all (k : Kernel) (depth : ℕ) (paths : List Bytes) :
    (∀ fuel r, unlinkWithIoUring k depth fuel paths = .ok r →
      Cleaned depth (paths.map Bytes.cStr) r.log ∧
        ((∀ path ∈ paths, 0 ∉ path) → Cleaned depth paths r.log)) ∧
      (∀ fuel, unlinkWithIoUring k depth fuel paths ≠ .error .outOfBounds) ∧
      ((∃ calls, ∀ n, calls ≤ n → k.submit n ≠ -eintr ∧ k.wait n ≠ -eintr) →
        ∃ fuel r, unlinkWithIoUring k depth fuel paths = .ok r) := by
  -- the ring is given C strings; they are the paths when these have no zero byte
  have hpaths : CStrings (paths.map Bytes.cStr) := by
    intro path hpath
    obtain ⟨p, -, rfl⟩ := List.mem_map.mp hpath
    exact Bytes.cStr_cStr p
  refine ⟨fun fuel r hr => ?_, fun fuel => ?_, ?_⟩
  · rw [← unlinkWithIoUring_cStr] at hr
    have hcleaned := (returnsIf_unlink k 0 depth fuel hpaths).of_ok hr
    refine ⟨hcleaned, fun hnul => ?_⟩
    have hsame := List.map_congr_left fun p hp => Bytes.cStr_of_not_mem (hnul p hp)
    rwa [hsame, List.map_id'] at hcleaned
  · rw [← unlinkWithIoUring_cStr]
    exact (returnsIf_unlink k 0 depth fuel hpaths).ne_outOfBounds
  · rintro ⟨calls, hcalls⟩
    obtain ⟨r, hr, _⟩ := (returnsIf_unlink k calls depth
      (calls + depth + (paths.map Bytes.cStr).length + 1) hpaths).returns
        ⟨hcalls, Nat.lt_succ_self _⟩
    rw [unlinkWithIoUring_cStr] at hr
    exact ⟨_, r, hr⟩

/-- A kernel without rings. -/
def ringless : Kernel where
  queueInit := -1
  submit _ := 0
  wait _ := 0
  next _ := 0
  res _ := 0

/-- The file that is removed for a path with a NUL is none of the list. -/
theorem not_inside : ¬ ∀ (k : Kernel) (depth fuel : ℕ) (paths : List Bytes) (r : Ring),
    unlinkWithIoUring k depth fuel paths = .ok r → ∀ e ∈ r.log, e.path ∈ paths := by
  intro hall
  have hlog := hall ringless 64 1 [ascii "a" ++ 0 :: ascii "b"]
    (unlinkSynchronously [ascii "a" ++ 0 :: ascii "b"] (.create 64)) rfl (.unlinked (ascii "a"))
    (by decide +kernel)
  exact absurd hlog (by decide +kernel)

section Graph

/-- The files of a step that `clean` is going to remove. -/
def Removes (ccOnly : Bool) (st : BuildStep) (path : Bytes) : Prop :=
  ∃ isCompileStep, cleansAsCompile st = some isCompileStep ∧
    (ccOnly = true → isCompileStep = true) ∧
    (path = st.output ∨ isCompileStep = true ∧ path = st.output ++ ascii ".d")

/-- The paths of one more step. -/
theorem mem_cleanStep {ccOnly : Bool} {paths paths' : List Bytes} {st : BuildStep}
    (h : cleanStep ccOnly paths st = some paths') (path : Bytes) :
    path ∈ paths' ↔ path ∈ paths ∨ Removes ccOnly st path := by
  obtain ⟨isCompileStep, hst, rfl⟩ := Option.map_eq_some_iff.mp h
  simp only [Removes, hst, Option.some.injEq]
  cases ccOnly <;> cases isCompileStep <;> simp

/-- The paths of all steps. -/
theorem mem_cleanPaths {ccOnly : Bool} {g : BuildGraph} {paths : List Bytes}
    (h : cleanPaths ccOnly g = some paths) (path : Bytes) :
    path ∈ paths ↔ ∃ st ∈ g.steps, Removes ccOnly st path := by
  suffices hall : ∀ (steps : List BuildStep) (start : List Bytes),
      steps.foldlM (cleanStep ccOnly) start = some paths →
        (path ∈ paths ↔ path ∈ start ∨ ∃ st ∈ steps, Removes ccOnly st path) by
    simpa using hall g.steps [] h
  intro steps
  induction steps with
  | nil =>
    intro start hstart
    obtain rfl : start = paths := by simpa using hstart
    simp
  | cons st steps ih =>
    intro start hstart
    obtain ⟨next, hnext, hrest⟩ := Option.bind_eq_some_iff.mp hstart
    rw [ih next hrest, mem_cleanStep hnext]
    simp [or_assoc]

/-- A `clean` that returns has attempted every file of the graph that it removes, and touched no
other, when the names of the outputs have no NUL. -/
theorem mem_cleaned {k : Kernel} {depth fuel : ℕ} {ccOnly : Bool} {g : BuildGraph} {r : Ring}
    (hnul : ∀ st ∈ g.steps, 0 ∉ st.output) (h : clean k depth fuel ccOnly g = .ok r) :
    (∀ st ∈ g.steps, ∀ path, Removes ccOnly st path → ∃ data, Attempted r.log path data) ∧
      ∀ e ∈ r.log, ∃ st ∈ g.steps, Removes ccOnly st e.path := by
  unfold clean at h
  cases hpaths : cleanPaths ccOnly g with
  | none => simp [hpaths] at h
  | some paths =>
    rw [hpaths] at h
    -- no path has a zero byte, so what is unlinked is the path itself
    have hpaths' : CStrings paths := by
      intro path hpath
      obtain ⟨st, hst, _, -, -, hremoves⟩ := (mem_cleanPaths hpaths path).mp hpath
      refine Bytes.cStr_of_not_mem ?_
      rcases hremoves with rfl | ⟨-, rfl⟩
      · exact hnul st hst
      · simpa using ⟨hnul st hst, by decide⟩
    have hcleaned := (returnsIf_unlink k 0 depth fuel hpaths').of_ok h
    refine ⟨fun st hst path hremoves => ?_, fun e he => ?_⟩
    · have hmem := (mem_cleanPaths hpaths path).mpr ⟨st, hst, hremoves⟩
      obtain ⟨i, hi⟩ := List.mem_iff_getElem?.mp hmem
      exact ⟨i, hcleaned.attempted i path hi⟩
    · exact (mem_cleanPaths hpaths e.path).mp (hcleaned.inside e he)

end Graph

end Uring

end Cob
