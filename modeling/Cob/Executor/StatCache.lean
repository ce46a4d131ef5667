import Cob.Disk
import Cob.Lib.Machine
import Cob.Lib.SortedList
import Mathlib.Algebra.GroupWithZero.Nat
import Mathlib.Data.Fintype.Fin

/-!
# The cache of file times

`StatCache` under every interleaving of its lock-protected sections: any number of threads call
`getOrUpdate`, `changedSince` and `invalidate` as often as they like, and the file system answers
each `last_write_time` as it likes.

* `StatCache` — the buckets, and the sections as functions on them;
* `lookup_update`, `lookup_invalidate` — the sections on the cache as a map;
* `Memo` — the cache remembers what was returned for each path since it was invalidated;
* `memoizes` — what holds in every run.
-/

namespace Cob

/-- What `getOrUpdate` returns: a time and an error code, 0 for none. -/
abbrev StatResult := FileTime × ℕ

/-- `StatCache::Entry`. -/
structure StatCache.Entry where
  path : Bytes
  time : FileTime
  ec : ℕ
  deriving DecidableEq

/-- `StatCache`: the entries of its 128 buckets. -/
structure StatCache where
  buckets : Fin 128 → List StatCache.Entry

namespace StatCache

/-! ### The sections -/

section Sections

variable (hash : Bytes → ℕ)

/-- A cache without entries. -/
def empty : StatCache := ⟨fun _ => []⟩

/-- `std::hash<std::string_view>{}(p) % NUM_BUCKETS`. -/
def getBucketIndex (p : Bytes) : Fin 128 := Fin.ofNat 128 (hash p)

/-- The bucket of a path. -/
def bucket (c : StatCache) (p : Bytes) : List Entry := c.buckets (getBucketIndex hash p)

/-- Changing the bucket of a path. -/
def setBucket (c : StatCache) (p : Bytes) (entries : List Entry) : StatCache :=
  ⟨Function.update c.buckets (getBucketIndex hash p) entries⟩

/-- The search for a path, which `getOrUpdate` makes under the shared lock, and again under the
exclusive one. -/
def lookup (c : StatCache) (p : Bytes) : Option StatResult :=
  (SortedList.find Entry.path p (c.bucket hash p)).map fun e => (e.time, e.ec)

/-- The section of `getOrUpdate` under the exclusive lock; `stat` is what `last_write_time` says, if
it is asked. -/
def update (c : StatCache) (p : Bytes) (stat : StatResult) : StatResult × StatCache :=
  match c.lookup hash p with
  | some result => (result, c)
  | none =>
    (stat, c.setBucket hash p (SortedList.insert Entry.path ⟨p, stat.1, stat.2⟩ (c.bucket hash p)))

/-- `invalidate`. -/
def invalidate (c : StatCache) (p : Bytes) : StatCache :=
  c.setBucket hash p (SortedList.erase Entry.path p (c.bucket hash p))

/-- The comparison of `changedSince`. -/
def changed (input : StatResult) (outputTime : FileTime) : Bool :=
  input.2 ≠ 0 || decide (input.1 ≥ outputTime)

/-- `getCacheSize`. -/
def getCacheSize (c : StatCache) : ℕ := ((List.finRange 128).map fun i => (c.buckets i).length).sum

end Sections

/-! ### The threads -/

/-- A call that looks a path up: `changedSince` with its output time, or `getOrUpdate` alone. -/
structure Call where
  path : Bytes
  outputTime : Option FileTime
  deriving DecidableEq

/-- What is recorded. -/
inductive Event where
  /-- `getOrUpdate` returned -/
  | returned (thread : ℕ) (path : Bytes) (result : StatResult)
  /-- `changedSince` returned -/
  | answered (thread : ℕ) (path : Bytes) (outputTime : FileTime) (changed : Bool)
  /-- `invalidate` returned -/
  | invalidated (thread : ℕ) (path : Bytes)
  deriving DecidableEq

/-- The cache and its threads; a thread is between two calls, or in a call that found nothing under
the shared lock. The latest event comes first. -/
structure State where
  cache : StatCache
  threads : List (Option Call)
  log : List Event

/-- The next section that is run. -/
inductive Action where
  /-- a thread begins a lookup, up to the end of its shared section -/
  | look (thread : ℕ) (call : Call)
  /-- a lookup goes on with its exclusive section -/
  | update (thread : ℕ) (stat : StatResult)
  /-- a thread invalidates a path -/
  | invalidate (thread : ℕ) (path : Bytes)
  deriving DecidableEq

section Machine

variable (hash : Bytes → ℕ)

/-- The events of a lookup that returns. -/
def finished (thread : ℕ) (call : Call) (result : StatResult) (log : List Event) : List Event :=
  match call.outputTime with
  | some time =>
    .answered thread call.path time (changed result time) ::
      .returned thread call.path result :: log
  | none => .returned thread call.path result :: log

/-- One section. -/
def step (s : State) : Action → Option State
  | .look thread call =>
    match s.threads[thread]? with
    | some none =>
      match s.cache.lookup hash call.path with
      | some result => some { s with log := finished thread call result s.log }
      | none => some { s with threads := s.threads.set thread (some call) }
    | _ => none
  | .update thread stat =>
    match s.threads[thread]? with
    | some (some call) =>
      let (result, cache) := s.cache.update hash call.path stat
      some ⟨cache, s.threads.set thread none, finished thread call result s.log⟩
    | _ => none
  | .invalidate thread path =>
    match s.threads[thread]? with
    | some none =>
      some { s with
        cache := s.cache.invalidate hash path
        log := .invalidated thread path :: s.log }
    | _ => none

/-- The cache of a number of threads. -/
def statMachine (threads : ℕ) : Machine State Action where
  init s := s = ⟨.empty, List.replicate threads none, []⟩
  step := step hash

end Machine

/-! ### The cache as a map -/

section Map

variable {hash : Bytes → ℕ} {c : StatCache} {p q : Bytes}

/-- Every bucket is sorted by path, without duplicates, and holds paths that hash to it. -/
structure Sorted (hash : Bytes → ℕ) (c : StatCache) : Prop where
  ascending : ∀ i, SortedList.Ascending Entry.path (c.buckets i)
  home : ∀ i, ∀ e ∈ c.buckets i, getBucketIndex hash e.path = i

theorem sorted_empty : Sorted hash empty := ⟨fun _ => List.Pairwise.nil, nofun⟩

/-- Changing a bucket to a sorted one with paths of its own. -/
theorem Sorted.setBucket (h : Sorted hash c) {entries : List Entry}
    (hentries : SortedList.Ascending Entry.path entries)
    (hhome : ∀ e ∈ entries, getBucketIndex hash e.path = getBucketIndex hash p) :
    Sorted hash (c.setBucket hash p entries) := by
  constructor
  · intro i
    by_cases hi : i = getBucketIndex hash p
    · subst hi
      simpa [StatCache.setBucket] using hentries
    · simpa [StatCache.setBucket, hi] using h.ascending i
  · intro i e he
    by_cases hi : i = getBucketIndex hash p
    · subst hi
      exact hhome e (by simpa [StatCache.setBucket] using he)
    · exact h.home i e (by simpa [StatCache.setBucket, hi] using he)

/-- What is found after a bucket was changed. -/
theorem lookup_setBucket {entries : List Entry}
    (h : ∀ q, q ≠ p → getBucketIndex hash q = getBucketIndex hash p →
      SortedList.find Entry.path q entries = SortedList.find Entry.path q (c.bucket hash p))
    (hne : q ≠ p) : (c.setBucket hash p entries).lookup hash q = c.lookup hash q := by
  rw [lookup, lookup, bucket, bucket]
  by_cases hq : getBucketIndex hash q = getBucketIndex hash p
  · have hsame := h q hne hq
    simp only [StatCache.setBucket, hq, Function.update_self, hsame, bucket]
  · simp only [StatCache.setBucket, Function.update_of_ne hq]

theorem lookup_setBucket_self {entries : List Entry} :
    (c.setBucket hash p entries).lookup hash p =
      (SortedList.find Entry.path p entries).map fun e => (e.time, e.ec) := by
  simp only [lookup, bucket, StatCache.setBucket, Function.update_self]

theorem find_eq_none_of_lookup (h : c.lookup hash p = none) :
    SortedList.find Entry.path p (c.bucket hash p) = none := by
  simpa [lookup] using h

/-- The exclusive section keeps the order. -/
theorem Sorted.update (h : Sorted hash c) (p : Bytes) (stat : StatResult) :
    Sorted hash (c.update hash p stat).2 := by
  unfold StatCache.update
  cases hfound : c.lookup hash p with
  | some result => exact h
  | none =>
    have hasc := h.ascending (getBucketIndex hash p)
    refine h.setBucket (hasc.insert (find_eq_none_of_lookup hfound)) fun e he => ?_
    rcases (SortedList.mem_insert hasc.sorted).mp he with rfl | he
    · rfl
    · exact h.home _ e he

/-- After the exclusive section the path has the time that is returned. -/
theorem lookup_update (h : Sorted hash c) (p : Bytes) (stat : StatResult) (q : Bytes) :
    (c.update hash p stat).2.lookup hash q =
      if q = p then some (c.update hash p stat).1 else c.lookup hash q := by
  unfold StatCache.update
  cases hfound : c.lookup hash p with
  | some result =>
    dsimp only
    split_ifs with hq
    · rw [hq, hfound]
    · rfl
  | none =>
    have hfind := (h.ascending (getBucketIndex hash p)).find_insert
      (a := ⟨p, stat.1, stat.2⟩) (find_eq_none_of_lookup hfound)
    dsimp only
    split_ifs with hq
    · rw [hq, lookup_setBucket_self, bucket, hfind p, if_pos rfl]
      rfl
    · refine lookup_setBucket (fun q hne _ => ?_) hq
      rw [bucket, hfind q, if_neg (Ne.symm hne)]

/-- `invalidate` keeps the order. -/
theorem Sorted.invalidate (h : Sorted hash c) (p : Bytes) : Sorted hash (c.invalidate hash p) := by
  have hasc := h.ascending (getBucketIndex hash p)
  refine h.setBucket (hasc.erase p) fun e he => ?_
  exact h.home _ e (hasc.mem_erase.mp he).1

/-- After `invalidate` the path has no time. -/
theorem lookup_invalidate (h : Sorted hash c) (p q : Bytes) :
    (c.invalidate hash p).lookup hash q = if q = p then none else c.lookup hash q := by
  have hfind := (h.ascending (getBucketIndex hash p)).find_erase p
  rw [StatCache.invalidate]
  split_ifs with hq
  · rw [hq, lookup_setBucket_self, bucket, hfind p, if_pos rfl]
    rfl
  · refine lookup_setBucket (fun q hne _ => ?_) hq
    rw [bucket, hfind q, if_neg (Ne.symm hne)]

end Map

/-! ### What the cache remembers -/

/-- The path that an event is about. -/
def Event.path : Event → Bytes
  | .returned _ path _ => path
  | .answered _ path _ _ => path
  | .invalidated _ path => path

/-- The event is an invalidation of the path. -/
def Event.invalidates (p : Bytes) : Event → Bool
  | .invalidated _ path => path = p
  | _ => false

/-- What was returned for a path. -/
def Event.resultOf (p : Bytes) : Event → Option StatResult
  | .returned _ path result => if path = p then some result else none
  | _ => none

/-- What was returned for a path since its last invalidation. -/
def resultsSince (p : Bytes) (log : List Event) : List StatResult :=
  (log.takeWhile (!Event.invalidates p ·)).filterMap (Event.resultOf p)

/-- The paths that were looked up since their last invalidation. -/
def live (log : List Event) : Finset Bytes :=
  (log.map Event.path).toFinset.filter fun p => resultsSince p log ≠ []

/-- The cache is the memo of the log: it has for a path what was returned since its last
invalidation, and the results between two invalidations are the same. -/
structure Memo (hash : Bytes → ℕ) (c : StatCache) (log : List Event) : Prop where
  sorted : Sorted hash c
  lookup_of_mem : ∀ p, ∀ result ∈ resultsSince p log, c.lookup hash p = some result
  ne_nil_of_lookup : ∀ p result, c.lookup hash p = some result → resultsSince p log ≠ []
  same : ∀ p log', log' <:+ log → ∀ result ∈ resultsSince p log', ∀ result' ∈ resultsSince p log',
    result = result'

section Log

variable {hash : Bytes → ℕ} {c c' : StatCache} {log : List Event} {p q : Bytes} {e : Event}

theorem resultsSince_cons_of_invalidates (h : e.invalidates p = true) :
    resultsSince p (e :: log) = [] := by
  simp [resultsSince, h]

theorem resultsSince_cons (h : e.invalidates p = false) :
    resultsSince p (e :: log) = (e.resultOf p).toList ++ resultsSince p log := by
  rw [resultsSince, List.takeWhile_cons_of_pos (by simp [h]), List.filterMap_cons]
  cases e.resultOf p <;> rfl

theorem memo_nil : Memo hash empty [] := by
  refine ⟨sorted_empty, fun p result h => by simp [resultsSince] at h, fun p result h => ?_,
    fun p log' hlog' => ?_⟩
  · simp [lookup, bucket, empty, SortedList.find] at h
  · rw [List.suffix_nil.mp hlog']
    simp [resultsSince]

/-- One more event: what it says about each path must be what the cache has then. -/
theorem Memo.cons (h : Memo hash c log) (hsorted : Sorted hash c')
    (hmem : ∀ p, ∀ result ∈ resultsSince p (e :: log), c'.lookup hash p = some result)
    (hlookup : ∀ p result, c'.lookup hash p = some result → resultsSince p (e :: log) ≠ []) :
    Memo hash c' (e :: log) := by
  refine ⟨hsorted, hmem, hlookup, fun p log' hlog' => ?_⟩
  rcases List.suffix_cons_iff.mp hlog' with rfl | hlog'
  · intro result hresult result' hresult'
    have hsame := (hmem p result hresult).symm.trans (hmem p result' hresult')
    exact Option.some.inj hsame
  · exact h.same p log' hlog'

/-- A lookup returned what the cache has for its path. -/
theorem Memo.returned (h : Memo hash c log) (hsorted : Sorted hash c') {thread : ℕ}
    {result : StatResult} (hlookup : ∀ q, c'.lookup hash q =
      if q = p then some result else c.lookup hash q)
    (hold : ∀ result', c.lookup hash p = some result' → result' = result) :
    Memo hash c' (.returned thread p result :: log) := by
  -- only the results of `p` change
  have hresults : ∀ q, resultsSince q (.returned thread p result :: log) =
      if q = p then result :: resultsSince q log else resultsSince q log := by
    intro q
    rw [resultsSince_cons rfl, Event.resultOf]
    by_cases hq : q = p
    · simp [hq]
    · simp [hq, Ne.symm hq]
  refine h.cons hsorted (fun q r hr => ?_) fun q r hr => ?_
  · rw [hresults] at hr
    rw [hlookup]
    split_ifs at hr ⊢ with hq
    · subst hq
      rcases List.mem_cons.mp hr with rfl | hr
      · rfl
      · rw [hold r (h.lookup_of_mem _ r hr)]
    · exact h.lookup_of_mem q r hr
  · rw [hresults]
    rw [hlookup] at hr
    split_ifs at hr ⊢ with hq
    · exact List.cons_ne_nil _ _
    · exact h.ne_nil_of_lookup q r hr

/-- The comparison of `changedSince` touches nothing. -/
theorem Memo.answered (h : Memo hash c log) (thread : ℕ) (p : Bytes) (time : FileTime)
    (answer : Bool) : Memo hash c (.answered thread p time answer :: log) := by
  have hresults : ∀ q, resultsSince q (.answered thread p time answer :: log) =
      resultsSince q log := fun q => resultsSince_cons rfl
  refine h.cons h.sorted (fun q r hr => ?_) fun q r hr => ?_
  · rw [hresults] at hr
    exact h.lookup_of_mem q r hr
  · rw [hresults]
    exact h.ne_nil_of_lookup q r hr

/-- An invalidated path is forgotten. -/
theorem Memo.invalidated (h : Memo hash c log) (thread : ℕ) (p : Bytes) :
    Memo hash (c.invalidate hash p) (.invalidated thread p :: log) := by
  have hresults : ∀ q, resultsSince q (.invalidated thread p :: log) =
      if q = p then [] else resultsSince q log := by
    intro q
    by_cases hq : q = p
    · rw [if_pos hq]
      exact resultsSince_cons_of_invalidates (by simp [Event.invalidates, hq])
    · rw [if_neg hq]
      exact resultsSince_cons (by simp [Event.invalidates, Ne.symm hq])
  refine h.cons (h.sorted.invalidate p) (fun q r hr => ?_) fun q r hr => ?_
  · rw [hresults] at hr
    rw [lookup_invalidate h.sorted]
    split_ifs at hr ⊢ with hq
    · cases hr
    · exact h.lookup_of_mem q r hr
  · rw [hresults]
    rw [lookup_invalidate h.sorted] at hr
    split_ifs at hr ⊢ with hq
    exact h.ne_nil_of_lookup q r hr

/-- A lookup that returns. -/
theorem Memo.finished (h : Memo hash c log) (hsorted : Sorted hash c') {thread : ℕ} {call : Call}
    {result : StatResult} (hlookup : ∀ q, c'.lookup hash q =
      if q = call.path then some result else c.lookup hash q)
    (hold : ∀ result', c.lookup hash call.path = some result' → result' = result) :
    Memo hash c' (finished thread call result log) := by
  have hreturned : Memo hash c' (.returned thread call.path result :: log) :=
    h.returned hsorted hlookup hold
  unfold StatCache.finished
  cases call.outputTime with
  | none => exact hreturned
  | some time => exact hreturned.answered thread call.path time _

/-- One section keeps the memo. -/
theorem Memo.step {s s' : State} {a : Action} (h : Memo hash s.cache s.log)
    (hstep : step hash s a = some s') : Memo hash s'.cache s'.log := by
  cases a with
  | look thread call =>
    simp only [StatCache.step] at hstep
    split at hstep
    · cases hfound : s.cache.lookup hash call.path with
      | some result =>
        rw [hfound] at hstep
        cases hstep
        refine h.finished h.sorted (fun q => ?_) fun result' hresult' => ?_
        · split_ifs with hq
          · rw [hq, hfound]
          · rfl
        · exact Option.some.inj (hresult'.symm.trans hfound)
      | none =>
        rw [hfound] at hstep
        cases hstep
        exact h
    · cases hstep
  | update thread stat =>
    simp only [StatCache.step] at hstep
    split at hstep
    · cases hstep
      refine h.finished (h.sorted.update _ stat) (lookup_update h.sorted _ stat) ?_
      intro result' hfound
      -- another thread may have filled the entry in between, and then it is returned
      simp [StatCache.update, hfound]
    · cases hstep
  | invalidate thread path =>
    simp only [StatCache.step] at hstep
    split at hstep
    · cases hstep
      exact h.invalidated thread path
    · cases hstep

/-- A path with results occurs in the log. -/
theorem mem_live : p ∈ live log ↔ resultsSince p log ≠ [] := by
  rw [live, Finset.mem_filter, List.mem_toFinset, and_iff_right_iff_imp]
  intro hne
  obtain ⟨result, hresult⟩ := List.exists_mem_of_ne_nil _ hne
  obtain ⟨e, he, hof⟩ := List.mem_filterMap.mp hresult
  refine List.mem_map.mpr ⟨e, (List.takeWhile_prefix _).subset he, ?_⟩
  cases e with
  | returned thread path result' =>
    rw [Event.resultOf] at hof
    split_ifs at hof with hpath
    exact hpath
  | answered thread path time answer => cases hof
  | invalidated thread path => cases hof

/-- The paths of all entries. -/
def paths (c : StatCache) : List Bytes :=
  (List.finRange 128).flatMap fun i => (c.buckets i).map Entry.path

/-- The entries have different paths, in one bucket or in two. -/
theorem Sorted.nodup_paths (h : Sorted hash c) : (paths c).Nodup := by
  refine List.nodup_flatMap.mpr ⟨fun i _ => ?_, ?_⟩
  · exact (List.pairwise_map.mpr (h.ascending i)).imp fun hlt => hlt.ne
  · refine (List.nodup_finRange 128).imp fun {i j} hne p hi hj => ?_
    obtain ⟨e, he, rfl⟩ := List.mem_map.mp hi
    obtain ⟨e', he', heq⟩ := List.mem_map.mp hj
    rw [← h.home i e he, ← h.home j e' he', heq] at hne
    exact hne rfl

/-- An entry is what a lookup of its path finds. -/
theorem Sorted.mem_paths (h : Sorted hash c) : p ∈ paths c ↔ c.lookup hash p ≠ none := by
  have hfind := (h.ascending (getBucketIndex hash p)).find_eq_none_iff (k := p)
  rw [paths, List.mem_flatMap, lookup, Ne, Option.map_eq_none_iff, bucket, hfind]
  push Not
  constructor
  · rintro ⟨i, _, hi⟩
    obtain ⟨e, he, rfl⟩ := List.mem_map.mp hi
    rw [← h.home i e he] at he
    exact ⟨e, he, rfl⟩
  · rintro ⟨e, he, rfl⟩
    exact ⟨_, List.mem_finRange _, List.mem_map_of_mem he⟩

/-- The size of the cache is the number of live paths. -/
theorem Memo.getCacheSize_eq (h : Memo hash c log) : c.getCacheSize = (live log).card := by
  have hlive : (paths c).toFinset = live log := by
    ext p
    rw [List.mem_toFinset, h.sorted.mem_paths, mem_live]
    constructor
    · intro hlookup
      obtain ⟨result, hresult⟩ := Option.ne_none_iff_exists'.mp hlookup
      exact h.ne_nil_of_lookup p result hresult
    · intro hne
      obtain ⟨result, hresult⟩ := List.exists_mem_of_ne_nil _ hne
      rw [h.lookup_of_mem p result hresult]
      exact Option.some_ne_none _
  rw [← hlive, List.toFinset_card_of_nodup h.sorted.nodup_paths, paths, List.length_flatMap,
    getCacheSize]
  simp only [List.length_map]

/-- What was returned in a part of the log without invalidations was returned since the last one,
seen from the end of that part. -/
theorem mem_resultsSince {between earlier : List Event} {thread : ℕ} {result : StatResult}
    (hnone : ∀ e ∈ between, e.invalidates p = false)
    (hmem : .returned thread p result ∈ between) :
    result ∈ resultsSince p (between ++ earlier) := by
  rw [resultsSince, List.takeWhile_append_of_pos (by simpa using hnone)]
  refine List.mem_filterMap.mpr ⟨_, List.mem_append_left _ hmem, ?_⟩
  rw [Event.resultOf, if_pos rfl]

end Log

/-- **The memo.** Whatever the threads and the file system do, every bucket is sorted by path
without duplicates and holds paths that hash to it, the size of the cache is the number of paths
looked up since their last invalidation, and lookups of a path between two invalidations of it
return the same. -/
theorem memoizes (hash : Bytes → ℕ) (threads : ℕ) {s : State}
    (h : (statMachine hash threads).Reachable s) :
    (∀ i, (s.cache.buckets i).Pairwise (fun a b => a.path < b.path) ∧
        ∀ e ∈ s.cache.buckets i, getBucketIndex hash e.path = i) ∧
      s.cache.getCacheSize = (live s.log).card ∧
      ∀ p later between earlier, s.log = later ++ (between ++ earlier) →
        (∀ e ∈ between, e.invalidates p = false) →
        ∀ thread result thread' result', .returned thread p result ∈ between →
          .returned thread' p result' ∈ between → result = result' := by
  have hmemo : Memo hash s.cache s.log := by
    refine h.invariant (I := fun s => Memo hash s.cache s.log) ?_ fun _ _ _ _ hs hstep =>
      hs.step hstep
    rintro s rfl
    exact memo_nil
  refine ⟨fun i => ⟨hmemo.sorted.ascending i, hmemo.sorted.home i⟩, hmemo.getCacheSize_eq, ?_⟩
  intro p later between earlier hlog hnone thread result thread' result' hr hr'
  exact hmemo.same p (between ++ earlier) ⟨later, hlog.symm⟩ _ (mem_resultsSince hnone hr) _
    (mem_resultsSince hnone hr')

/-- Two threads miss the same path, and the one that comes second finds the entry of the first,
before the path is invalidated. -/
theorem memoizes_twoThreads : ∃ s, (statMachine List.length 2).Reachable s ∧
    s.log.length = 4 ∧ s.cache.getCacheSize = (live s.log).card := by
  obtain ⟨tr, s, hrun, hs⟩ := Machine.exists_run_of_exec (M := statMachine List.length 2)
    (s := ⟨.empty, List.replicate 2 none, []⟩) rfl
    [.look 0 ⟨ascii "a.o", none⟩, .look 1 ⟨ascii "a.o", some 3⟩, .update 1 (5, 0), .update 0 (7, 0),
      .invalidate 0 (ascii "a.o")]
    (fun r => r.2.log.length = 4) (by decide +kernel)
  exact ⟨s, ⟨tr, hrun⟩, of_decide_eq_true hs, (memoizes _ _ ⟨tr, hrun⟩).2.1⟩

end StatCache

end Cob
