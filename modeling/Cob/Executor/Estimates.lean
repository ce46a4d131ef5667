import Cob.Executor.Seeding
import Cob.Lib.SortedList
import Mathlib.Data.Prod.Lex

/-!
# Work estimates

`WorkEstimate`, the constructor of `Executor` that loads it, and the order in which `execute`
enqueues the initial tasks.

* `WorkEstimate.getWorkEstimate_load` — with at most one line for each path, the estimate is the
  integer of the file's line;
* `Executor.longestFirst_iff` — the order does not follow the file named by the configuration.
-/

namespace Cob

open BuildGraph

/-- A decimal digit. -/
def isDigit (c : UInt8) : Bool := chr '0' ≤ c ∧ c ≤ chr '9'

/-- The number that a row of digits writes. -/
def decimal (digits : Bytes) : ℕ := digits.foldl (fun n c => 10 * n + (c - chr '0').toNat) 0

/-- `std::from_chars` for a `size_t`: the digits at the front, `none` when there are none or when
the number does not fit. -/
def fromChars (s : Bytes) : Option ℕ :=
  let digits := s.takeWhile isDigit
  if digits = [] then none
  else if decimal digits < 18446744073709551616 then some (decimal digits)
  else none

example : fromChars (ascii "150 ms") = some 150 := by decide +kernel

namespace WorkEstimate

/-- A line of the file, cut at its first pipe. -/
structure EstimateEntry where
  path : Bytes
  value : Bytes
  deriving DecidableEq

/-- The defaulted `operator<=>`, member by member. -/
def EstimateEntry.rank (e : EstimateEntry) : Bytes ×ₗ Bytes := toLex (e.path, e.value)

/-- The entry of one line, none for a line that is empty or has no pipe. -/
def parseLine (line : Bytes) : Option EstimateEntry :=
  if line = [] then none else (line.cut (chr '|')).map fun p => ⟨p.1, p.2⟩

/-- The loop over the lines of the file. -/
def parseLines (content : Bytes) : List EstimateEntry :=
  (content.splitOn (chr '\n')).filterMap parseLine

end WorkEstimate

/-- The estimates of the file, in the order of their paths. -/
structure WorkEstimate where
  estimates : List WorkEstimate.EstimateEntry
  deriving DecidableEq

namespace WorkEstimate

/-- The constructor. `read` answers with the contents of a file that can be mapped; any other
leaves the estimates empty, since the error is caught. -/
def load (read : Bytes → Option Bytes) (pathToEstimates : Bytes) : WorkEstimate :=
  match read pathToEstimates with
  | some content =>
    ⟨(parseLines content).insertionSort fun a b => a.rank ≤ b.rank⟩
  | none => ⟨[]⟩

/-- `getWorkEstimate`: the entry of the path by binary search, and the number of its value. -/
def getWorkEstimate (w : WorkEstimate) (path : Bytes) : ℕ :=
  match SortedList.find EstimateEntry.path path w.estimates with
  | some e => (fromChars e.value).getD 0
  | none => 0

end WorkEstimate

/-- The part of the configuration that the estimates need. -/
structure ExecutorConfig where
  /-- The path to the work estimates file. -/
  estimatesFile : Bytes := ascii "catalyst.estimates"

/-- Moving out of a `std::string`: the new string, and what is left of the old one. -/
def moveString (s : Bytes) : Bytes × Bytes := (s, [])

/-- `std::move` of the configuration: the new one, and what is left of the old one. -/
def ExecutorConfig.move (config : ExecutorConfig) : ExecutorConfig × ExecutorConfig :=
  (⟨(moveString config.estimatesFile).1⟩, ⟨(moveString config.estimatesFile).2⟩)

/-- The executor, with the graph of its builder. -/
structure Executor where
  graph : BuildGraph
  config : ExecutorConfig
  estimator : WorkEstimate

namespace Executor

/-- The constructor. In its body `config` is the parameter, which the member initialiser has moved
from. -/
def create (read : Bytes → Option Bytes) (graph : BuildGraph) (config : ExecutorConfig) :
    Executor :=
  let (member, parameter) := config.move
  { graph, config := member, estimator := .load read parameter.estimatesFile }

/-- `ExecuteContext::Task`. -/
structure Task where
  nodeIdx : ℕ
  estimate : ℕ
  deriving DecidableEq

variable (ex : Executor)

/-- The estimate of an initial task. -/
def estimateOf (v : ℕ) : ℕ :=
  match ex.graph.stepOf v with
  | some st => ex.estimator.getWorkEstimate st.output
  | none => 0

/-- `initial_tasks`, before the sort. -/
def initialTasks : List Task := (rootNodes ex.graph).map fun v => ⟨v, ex.estimateOf v⟩

/-- What `std::ranges::sort` may leave: the tasks by falling estimates, equal ones in any order. -/
def Sorted (tasks : List Task) : Prop :=
  tasks.Perm ex.initialTasks ∧ tasks.Pairwise fun a b => ¬ b.estimate > a.estimate

/-- The pool after the initial tasks were enqueued. -/
def seeded {D C : Type} (tasks : List Task) (data : D) : State D C :=
  initialState ex.graph (tasks.map Task.nodeIdx) data

end Executor

/-! ### What the file says -/

/-- The lines of an estimates file, as paths and estimates. -/
def estimateLines (content : Bytes) : List (Bytes × Bytes) :=
  (content.splitOn (chr '\n')).filterMap (Bytes.cut (chr '|'))

/-- There is one line at most for each path. -/
def OneLinePerPath (content : Option Bytes) : Prop :=
  ∀ text, content = some text → ((estimateLines text).map Prod.fst).Nodup

/-- The integer that a file gives for a path, 0 when it is absent or unparsable. -/
def fileEstimate (content : Option Bytes) (path : Bytes) : ℕ :=
  ((content.bind fun text => (estimateLines text).lookup path).bind fromChars).getD 0

/-- The integer that a file gives for the output of a node's step. -/
def outputEstimate (content : Option Bytes) (g : BuildGraph) (v : ℕ) : ℕ :=
  ((g.stepOf v).map fun st => fileEstimate content st.output).getD 0

section Estimates

/-- In a list of pairs with different keys a key is looked up by membership. -/
theorem lookup_eq_some_iff_mem {l : List (Bytes × Bytes)} (h : (l.map Prod.fst).Nodup)
    {k v : Bytes} : l.lookup k = some v ↔ (k, v) ∈ l := by
  induction l with
  | nil => simp
  | cons p l ih =>
    obtain ⟨k', v'⟩ := p
    rw [List.map_cons, List.nodup_cons] at h
    rw [List.lookup_cons, List.mem_cons, ← ih h.2]
    by_cases hk : k = k'
    · subst hk
      have hnone : l.lookup k ≠ some v := by
        intro hv
        exact h.1 (List.mem_map.mpr ⟨_, (ih h.2).mp hv, rfl⟩)
      simp [hnone, eq_comm]
    · simp [beq_eq_false_iff_ne.mpr hk, hk]

/-- Both cut a line at its first pipe. -/
theorem parseLine_eq (line : Bytes) :
    WorkEstimate.parseLine line = (line.cut (chr '|')).map fun p => ⟨p.1, p.2⟩ := by
  unfold WorkEstimate.parseLine
  split_ifs with h
  · rw [h, Bytes.cut, Option.map_none]
  · rfl

theorem parseLines_eq (content : Bytes) :
    WorkEstimate.parseLines content = (estimateLines content).map fun p => ⟨p.1, p.2⟩ := by
  rw [WorkEstimate.parseLines, estimateLines, List.map_filterMap]
  exact List.filterMap_congr fun line _ => parseLine_eq line

namespace WorkEstimate

/-- Entries sorted by path and value are sorted by path. -/
theorem sorted_load (read : Bytes → Option Bytes) (file : Bytes) :
    SortedList.Sorted EstimateEntry.path (load read file).estimates := by
  unfold load
  cases read file with
  | none => exact List.Pairwise.nil
  | some content =>
    have htotal : Std.Total fun a b : EstimateEntry => a.rank ≤ b.rank :=
      ⟨fun a b => le_total a.rank b.rank⟩
    have htrans : IsTrans EstimateEntry fun a b => a.rank ≤ b.rank :=
      ⟨fun a b c hab hbc => le_trans hab hbc⟩
    refine (List.pairwise_insertionSort (fun a b : EstimateEntry => a.rank ≤ b.rank) _).imp ?_
    intro a b h
    rcases Prod.Lex.toLex_le_toLex.mp h with hlt | ⟨heq, _⟩
    · exact hlt.le
    · exact heq.le

/-- The loaded entries are the lines of the file. -/
theorem mem_load {read : Bytes → Option Bytes} {file content : Bytes}
    (hread : read file = some content) {e : EstimateEntry} :
    e ∈ (load read file).estimates ↔ (e.path, e.value) ∈ estimateLines content := by
  simp only [load, hread, List.mem_insertionSort, parseLines_eq, List.mem_map]
  constructor
  · rintro ⟨p, hp, rfl⟩
    exact hp
  · exact fun he => ⟨_, he, rfl⟩

/-- With at most one line for each path, the paths of the entries rise. -/
theorem ascending_load {read : Bytes → Option Bytes} {file : Bytes}
    (hfile : OneLinePerPath (read file)) :
    SortedList.Ascending EstimateEntry.path (load read file).estimates := by
  have hnodup : ((load read file).estimates.map EstimateEntry.path).Nodup := by
    cases hread : read file with
    | none => simp [load, hread]
    | some content =>
      have hperm := List.perm_insertionSort (fun a b : EstimateEntry => a.rank ≤ b.rank)
        (parseLines content)
      simp only [load, hread]
      rw [(hperm.map _).nodup_iff, parseLines_eq, List.map_map]
      exact hfile content hread
  have hne := List.pairwise_map.mp hnodup
  exact ((sorted_load read file).and hne).imp fun h => lt_of_le_of_ne h.1 h.2

/-- **Estimates.** With at most one line for each path, the entry found by binary search is the
line of the path. -/
theorem getWorkEstimate_load {read : Bytes → Option Bytes} {file : Bytes}
    (hfile : OneLinePerPath (read file)) (path : Bytes) :
    (load read file).getWorkEstimate path = fileEstimate (read file) path := by
  -- the sorted list and the lines hold the same values
  have hvalue : (SortedList.find EstimateEntry.path path (load read file).estimates).map
      EstimateEntry.value = (read file).bind fun text => (estimateLines text).lookup path := by
    cases hread : read file with
    | none =>
      have hnil : (load read file).estimates = [] := by simp [load, hread]
      rw [hnil]
      rfl
    | some content =>
      ext v
      rw [Option.map_eq_some_iff, Option.bind_some, lookup_eq_some_iff_mem (hfile content hread)]
      constructor
      · rintro ⟨e, he, rfl⟩
        obtain ⟨hmem, rfl⟩ := (ascending_load hfile).find_eq_some_iff.mp he
        exact (mem_load hread).mp hmem
      · intro hmem
        exact ⟨⟨path, v⟩, (ascending_load hfile).find_eq_some_iff.mpr
          ⟨(mem_load hread).mpr hmem, rfl⟩, rfl⟩
  rw [fileEstimate, ← hvalue, getWorkEstimate]
  cases SortedList.find EstimateEntry.path path (load read file).estimates with
  | none => rfl
  | some e => rfl

end WorkEstimate

end Estimates

namespace Executor

section Order

variable {ex : Executor} {tasks : List Task} {D C : Type}

/-- The queue holds the initial tasks in the order of the sort. -/
theorem queue_seeded (h : ex.Sorted tasks) (data : D) :
    (ex.seeded tasks data : State D C).shared.queue.cells.map Cell.node =
      tasks.map Task.nodeIdx := by
  have hperm : (tasks.map Task.nodeIdx).Perm (rootNodes ex.graph) := by
    have hmap := h.1.map Task.nodeIdx
    rw [initialTasks, List.map_map] at hmap
    simpa [Function.comp_def] using hmap
  rw [seeded, initialState_eq ex.graph hperm, List.map_map]
  exact List.map_id' _

/-- A task carries the estimate of its node. -/
theorem estimate_of_mem (h : ex.Sorted tasks) {t : Task} (ht : t ∈ tasks) :
    t.nodeIdx ∈ rootNodes ex.graph ∧ t.estimate = ex.estimateOf t.nodeIdx := by
  obtain ⟨v, hv, rfl⟩ := List.mem_map.mp (h.1.mem_iff.mp ht)
  exact ⟨hv, rfl⟩

/-- The estimate of an initial task is the integer of the file that was loaded. -/
theorem estimateOf_of_load {read : Bytes → Option Bytes} {file : Bytes}
    (hload : ex.estimator = .load read file) (hfile : OneLinePerPath (read file)) (v : ℕ) :
    ex.estimateOf v = outputEstimate (read file) ex.graph v := by
  rw [estimateOf, outputEstimate, hload]
  cases ex.graph.stepOf v with
  | none => rfl
  | some st => exact WorkEstimate.getWorkEstimate_load hfile st.output

/-- Two initial tasks can be moved to the front. -/
theorem exists_perm_of_mem {α : Type} [DecidableEq α] {l : List α} {a b : α} (ha : a ∈ l)
    (hb : b ∈ l) (hne : a ≠ b) : ∃ rest, (a :: b :: rest).Perm l :=
  ⟨(l.erase a).erase b,
    ((List.perm_cons_erase ((List.mem_erase_of_ne hne.symm).mpr hb)).symm.cons a).trans
      (List.perm_cons_erase ha).symm⟩

/-- The constructor loads what is left of the path after the move, no file at all. -/
theorem estimateOf_create {read : Bytes → Option Bytes} (hread : read [] = none)
    (g : BuildGraph) (config : ExecutorConfig) (v : ℕ) :
    (create read g config).estimateOf v = 0 := by
  have hload : (create read g config).estimator = .load read [] := rfl
  have hfile : OneLinePerPath (read []) := by simp [OneLinePerPath, hread]
  rw [estimateOf_of_load hload hfile, hread]
  unfold outputEstimate fileEstimate
  cases (create read g config).graph.stepOf v with
  | none => rfl
  | some st => rfl

/-- **Start order.** Whatever the sort does with equal estimates, the initial tasks are enqueued by
falling integers of the file that the configuration names, exactly when that file gives all of them
the same one. -/
theorem longestFirst_iff (read : Bytes → Option Bytes) (hread : read [] = none) (g : BuildGraph)
    (config : ExecutorConfig) (data : D) :
    (∀ tasks, (create read g config).Sorted tasks →
      (((create read g config).seeded tasks data : State D C).shared.queue.cells.map
        Cell.node).Pairwise fun a b =>
          outputEstimate (read config.estimatesFile) g b ≤
            outputEstimate (read config.estimatesFile) g a) ↔
    ∀ a ∈ rootNodes g, ∀ b ∈ rootNodes g,
      outputEstimate (read config.estimatesFile) g a =
        outputEstimate (read config.estimatesFile) g b := by
  constructor
  · intro hall
    have hle : ∀ a ∈ rootNodes g, ∀ b ∈ rootNodes g,
        outputEstimate (read config.estimatesFile) g b ≤
          outputEstimate (read config.estimatesFile) g a := by
      intro a ha b hb
      by_cases hne : a = b
      · rw [hne]
      · -- all estimates are zero, so the sort may put `a` and `b` first
        obtain ⟨rest, hperm⟩ := exists_perm_of_mem ha hb hne
        have hsorted : (create read g config).Sorted
            ((a :: b :: rest).map fun v => ⟨v, (create read g config).estimateOf v⟩) := by
          refine ⟨hperm.map _, List.pairwise_map.mpr (List.pairwise_of_forall fun x y => ?_)⟩
          simp [estimateOf_create hread]
        have horder := hall _ hsorted
        rw [queue_seeded hsorted, List.map_map] at horder
        exact List.rel_of_pairwise_cons horder List.mem_cons_self
    exact fun a ha b hb => le_antisymm (hle b hb a ha) (hle a ha b hb)
  · intro hsame tasks hsorted
    rw [queue_seeded hsorted, List.pairwise_map]
    refine List.pairwise_of_forall_mem_list fun a ha b hb => ?_
    exact (hsame _ (estimate_of_mem hsorted hb).1 _ (estimate_of_mem hsorted ha).1).le

/-- Two independent compilations. -/
def twoRootsSteps : List BuildStep :=
  [{ tool := ascii "cc", inputs := ascii "a.c", output := ascii "a.o" },
   { tool := ascii "cc", inputs := ascii "b.c", output := ascii "b.o" }]

/-- The graph of `twoRootsSteps`. -/
def twoRoots : BuildGraph :=
  ((BuildGraph.empty.addSteps (fun _ => none) twoRootsSteps).toOption).getD .empty

/-- The only file: an estimate for each of the two outputs, the smaller one first. -/
def twoEstimates (path : Bytes) : Option Bytes :=
  if path = ascii "catalyst.estimates" then some (ascii "a.o|1" ++ chr '\n' :: ascii "b.o|2")
  else none

/-- With the estimates in another file than the configuration names, any order will do. -/
theorem longestFirst_iff_otherFile :
    twoEstimates [] = none ∧ ∀ tasks, (create twoEstimates twoRoots ⟨ascii "other"⟩).Sorted tasks →
      (((create twoEstimates twoRoots ⟨ascii "other"⟩).seeded tasks () :
        State Unit Unit).shared.queue.cells.map Cell.node).Pairwise fun a b =>
          outputEstimate (twoEstimates (ascii "other")) twoRoots b ≤
            outputEstimate (twoEstimates (ascii "other")) twoRoots a := by
  have hread : twoEstimates [] = none := by decide +kernel
  refine ⟨hread, ?_⟩
  apply (longestFirst_iff twoEstimates hread twoRoots ⟨ascii "other"⟩ ()).mpr
  decide +kernel

/-- The order ignores the file of the configuration. -/
theorem not_longestFirst : ¬ ∀ (read : Bytes → Option Bytes) (g : BuildGraph)
    (config : ExecutorConfig) (tasks : List Task), read [] = none → g.Built →
    OneLinePerPath (read config.estimatesFile) → (create read g config).Sorted tasks →
      (((create read g config).seeded tasks () : State Unit Unit).shared.queue.cells.map
        Cell.node).Pairwise fun a b =>
          outputEstimate (read config.estimatesFile) g b ≤
            outputEstimate (read config.estimatesFile) g a := by
  intro h
  have hbuilt : twoRoots.Built := Built.empty.addSteps twoRootsSteps (by decide +kernel)
    (show BuildGraph.empty.addSteps (fun _ => none) twoRootsSteps = .ok twoRoots by decide +kernel)
  have hfile : OneLinePerPath (twoEstimates (ascii "catalyst.estimates")) := by
    rintro text ⟨⟩
    decide +kernel
  have hsorted : (create twoEstimates twoRoots {}).Sorted [⟨0, 0⟩, ⟨2, 0⟩] :=
    ⟨.of_eq (by decide +kernel), by decide +kernel⟩
  have horder := h twoEstimates twoRoots {} _ (by decide +kernel) hbuilt hfile hsorted
  exact absurd horder (by decide +kernel)

end Order

end Executor

end Cob
