import Cob.Executor.Moves
import Cob.Executor.Seeding
import Mathlib.Data.List.Nodup

/-!
# Accounting for the nodes

Where every produced node is between being freed by its last input and being finished. A node
passes through four hands: the worker that is to enqueue it (`Pc.target`), the ready queue, the
worker that dequeued it (`Pc.held`), and the worker inside its `processStep` (`Pc.running`).

The module introduces:

* `owed` — the in-degree a node keeps because of producers that did not succeed yet;
* `Accounted` — the invariant: the atomic in-degree is what is owed plus what the workers are
  still to decrement, a node is handed out exactly when that is zero, and no hand loses or
  duplicates it;
* `accounted` — every reachable state is accounted for.

Each part rests on a conservation law of a single move (`Move.running_count` and its siblings).
-/

namespace Cob

open BuildGraph

namespace Pc

variable {C : Type} (g : BuildGraph)

/-- The edges whose in-degree the worker is still to decrement. -/
def edges : Pc C → List ℕ
  | .countSucceeded node => g.outEdges node
  | .decrement edges _ => edges
  | .enqueue _ edges _ => edges
  | .publish _ edges _ => edges
  | .increment edges _ => edges
  | _ => []

/-- The node the worker is to enqueue. -/
def target : Pc C → List ℕ
  | .enqueue target _ _ => [target]
  | _ => []

/-- The node the worker dequeued and did not begin to process. -/
def held : Pc C → List ℕ
  | .release _ node => [node]
  | .subtract node => [node]
  | _ => []

/-- The node whose in-degree the worker decrements next. -/
def decremented : Pc C → List ℕ
  | .decrement (neighbor :: _) _ => [neighbor]
  | _ => []

/-- The node the worker frees: the in-degree it decrements next is the last. -/
def freed (sh : Shared) : Pc C → List ℕ
  | .decrement (neighbor :: _) _ => if sh.inDegrees[neighbor]? = some 1 then [neighbor] else []
  | _ => []

/-- The node the worker processes. -/
def running : Pc C → List ℕ
  | .process node _ => [node]
  | _ => []

end Pc

/-- The edges that the recorded successes hand to their workers. -/
def gainedIn (g : BuildGraph) (events : List Event) : List ℕ :=
  events.flatMap fun | .returned n 0 => g.outEdges n | _ => []

/-! ### Conservation laws of a move -/

section Laws

variable {D C L : Type} {sem : StepSemantics D C L} {cfg : PoolConfig} {g : BuildGraph}
  {sh sh' : Shared} {d d' : D} {pc pc' : Pc C} {events : List Event}

/-- What is started is running until it is finished. -/
theorem Move.running_count (h : Move sem cfg g sh d pc sh' d' pc' events) (v : ℕ) :
    (startedIn events).count v + pc.running.count v =
      (finishedIn events).count v + pc'.running.count v := by
  cases h with
  | idle h => cases h <;> rfl
  | signal h => cases h <;> rfl
  | _ => (try split_ifs) <;> simp [startedIn, finishedIn, Pc.running]

/-- What is dequeued is held until it is started. -/
theorem Move.dequeued_count (h : Move sem cfg g sh d pc sh' d' pc' events)
    (hpos : sh.queue.dequeuePos ≤ sh.queue.cells.length) (v : ℕ) :
    sh'.queue.dequeued.count v + pc.held.count v =
      sh.queue.dequeued.count v + pc'.held.count v + (startedIn events).count v := by
  cases h with
  | idle h => cases h <;> rfl
  | signal h => cases h <;> rfl
  | take hq => simp [ReadyQueue.dequeued_of_take hq, startedIn, Pc.held]
  | claim hq => simp [ReadyQueue.dequeued_of_claim hq hpos, startedIn, Pc.held]
  | _ => (try split_ifs) <;> simp [startedIn, Pc.held]

/-- The dequeue position stays within the positions claimed so far. -/
theorem Move.dequeuePos_le (h : Move sem cfg g sh d pc sh' d' pc' events)
    (hpos : sh.queue.dequeuePos ≤ sh.queue.cells.length) :
    sh'.queue.dequeuePos ≤ sh'.queue.cells.length := by
  cases h with
  | take hq =>
    obtain ⟨-, rfl, c, hc, -⟩ := ReadyQueue.take_eq_some hq
    exact (List.getElem?_eq_some_iff.mp hc).1
  | claim hq =>
    obtain ⟨-, rfl⟩ := ReadyQueue.claim_eq_some hq
    simp only [List.length_append]
    omega
  | _ => simpa using hpos

theorem Move.capacity_eq (h : Move sem cfg g sh d pc sh' d' pc' events) :
    sh'.queue.capacity = sh.queue.capacity := by
  cases h with
  | take hq => obtain ⟨-, rfl, -⟩ := ReadyQueue.take_eq_some hq; rfl
  | claim hq => obtain ⟨-, rfl⟩ := ReadyQueue.claim_eq_some hq; rfl
  | _ => rfl

/-- A freed node is the target of its worker until it is enqueued. -/
theorem Move.enqueued_count (h : Move sem cfg g sh d pc sh' d' pc' events)
    (hrejected : ∀ n, .rejected n ∉ events) (v : ℕ) :
    sh'.queue.enqueued.count v + pc'.target.count v =
      sh.queue.enqueued.count v + pc.target.count v + (pc.freed sh).count v := by
  cases h with
  | idle h => cases h <;> rfl
  | signal h => cases h <;> rfl
  | take hq => simp [ReadyQueue.enqueued_of_take hq, Pc.target, Pc.freed]
  | claim hq => simp [ReadyQueue.enqueued_of_claim hq, Pc.target, Pc.freed]
  | reject => simp at hrejected
  | freed hv => simp [Pc.target, Pc.freed, hv]
  | notFreed hv => simp [Pc.target, Pc.freed, hv]
  | _ => (try split_ifs) <;> simp [Pc.target, Pc.freed]

/-- A worker gains the edges of a node by completing it, and loses one by decrementing it. -/
theorem Move.edges_count (h : Move sem cfg g sh d pc sh' d' pc' events) (v : ℕ) :
    (pc'.edges g).count v + pc.decremented.count v =
      (pc.edges g).count v +
        (gainedIn g events).count v := by
  cases h with
  | idle h => cases h <;> rfl
  | signal h => cases h <;> rfl
  | fail _ hr => simp [gainedIn, Pc.edges, Pc.decremented, hr]
  | _ => (try split_ifs) <;> simp [gainedIn, Pc.edges, Pc.decremented, List.count_cons]

/-- In-degrees change by decrements only. -/
theorem Move.inDegrees_eq (h : Move sem cfg g sh d pc sh' d' pc' events) (v : ℕ) :
    sh'.inDegrees[v]? = (sh.inDegrees[v]?).map (· - (pc.decremented.count v : ℤ)) := by
  have hnone : ∀ o : Option ℤ, o = o.map (· - ((List.count v ([] : List ℕ) : ℕ) : ℤ)) := by
    intro o
    cases o <;> simp
  have hone : ∀ u, (sh.inDegrees.modify u (· - 1))[v]? =
      (sh.inDegrees[v]?).map (· - ((List.count v [u] : ℕ) : ℤ)) := by
    intro u
    rw [List.getElem?_modify]
    cases sh.inDegrees[v]? with
    | none => rfl
    | some k => by_cases huv : u = v <;> simp [huv]
  cases h with
  | idle h => cases h <;> exact hnone _
  | signal h => cases h <;> exact hnone _
  | freed => exact hone _
  | notFreed => exact hone _
  | _ => exact hnone _

/-- What a move records of results: a success when it counts one next, else no success. -/
theorem Move.returned_cases (h : Move sem cfg g sh d pc sh' d' pc' events) :
    (∃ node call, pc = .process node call ∧ pc' = .countSucceeded node ∧
      events = [.returned node 0]) ∨ ∀ n, .returned n 0 ∉ events := by
  cases h with
  | succeed => exact .inl ⟨_, _, rfl, rfl, rfl⟩
  | fail _ hr =>
    refine .inr fun n hn => hr ?_
    obtain ⟨-, hzero⟩ := by simpa using hn
    exact hzero.symm
  | _ => exact .inr (by simp)

end Laws

/-! ### The invariant -/

section Invariant

variable {D C L : Type} {sem : StepSemantics D C L} {cfg : PoolConfig} {g : BuildGraph}

/-- The in-degree that node `v` keeps because of producers that did not succeed yet. -/
def owed (g : BuildGraph) (s : State D C) (v : ℕ) : ℕ :=
  tally (fun u => if g.isStep u ∧ s.succeeded u = false then (g.outEdges u).count v else 0)
    (List.range g.nodes.length)

/-- The in-degree that node `v` has in the eyes of the workers: what is owed, and what the
workers are still to decrement. -/
def outstanding (g : BuildGraph) (s : State D C) (v : ℕ) : ℕ :=
  owed g s v + tally (fun pc => (pc.edges g).count v) s.workers

/-- Every produced node is in exactly one place. -/
structure Accounted (g : BuildGraph) (s : State D C) : Prop where
  /-- Nothing was rejected. -/
  accepted : ∀ n, .rejected n ∉ s.log
  capacity_eq : s.shared.queue.capacity = bitCeil g.nodes.length
  dequeuePos_le : s.shared.queue.dequeuePos ≤ s.shared.queue.cells.length
  /-- Workers decrement the in-degrees of produced nodes. -/
  edges_isStep : ∀ pc ∈ s.workers, ∀ v ∈ pc.edges g, g.isStep v = true
  /-- The atomic in-degree. -/
  degree : ∀ v < g.nodes.length, s.shared.inDegrees[v]? = some (outstanding g s v : ℤ)
  /-- A produced node is handed out when nothing is outstanding. -/
  handedOut : ∀ v, s.shared.queue.enqueued.count v + tally (fun pc => pc.target.count v) s.workers =
    if g.isStep v ∧ outstanding g s v = 0 then 1 else 0
  /-- What was dequeued was started, or is held. -/
  dequeued : ∀ v, s.shared.queue.dequeued.count v =
    s.started.count v + tally (fun pc => pc.held.count v) s.workers
  /-- What was started finished, or is running. -/
  started : ∀ v, s.started.count v =
    s.finished.count v + tally (fun pc => pc.running.count v) s.workers

variable {s : State D C}

theorem count_dequeued_le (q : ReadyQueue) (v : ℕ) : q.dequeued.count v ≤ q.enqueued.count v :=
  (List.take_sublist _ _).count_le _

/-- A node that was handed out is produced, and nothing is outstanding for it. -/
theorem Accounted.of_handedOut (h : Accounted g s) {v : ℕ}
    (hv : 0 < s.shared.queue.enqueued.count v + tally (fun pc => pc.target.count v) s.workers) :
    g.isStep v = true ∧ outstanding g s v = 0 := by
  by_contra hnot
  rw [h.handedOut, if_neg hnot] at hv
  exact absurd hv (lt_irrefl 0)

theorem Accounted.enqueued_le_one (h : Accounted g s) (v : ℕ) :
    s.shared.queue.enqueued.count v + tally (fun pc => pc.target.count v) s.workers ≤ 1 := by
  rw [h.handedOut]
  split_ifs <;> omega

theorem Accounted.started_le_enqueued (h : Accounted g s) (v : ℕ) :
    s.started.count v ≤ s.shared.queue.enqueued.count v := by
  have hd := h.dequeued v
  have hle := count_dequeued_le s.shared.queue v
  omega

/-- A worker runs only produced nodes whose `processStep` has not returned. -/
theorem Accounted.running (h : Accounted g s) {pc : Pc C} (hpc : pc ∈ s.workers) {v : ℕ}
    (hv : v ∈ pc.running) : g.isStep v = true ∧ v ∉ s.finished := by
  have hrun : (pc.running).count v ≤ tally (fun pc => pc.running.count v) s.workers :=
    le_tally_of_mem (f := fun pc : Pc C => pc.running.count v) hpc
  have hpos := List.count_pos_iff.mpr hv
  have hstarted := h.started v
  have hle := h.started_le_enqueued v
  have hone := h.enqueued_le_one v
  refine ⟨(h.of_handedOut (by omega)).1, List.count_eq_zero.mp (by omega)⟩

theorem mem_finished {n : ℕ} : n ∈ s.finished ↔ ∃ result, .returned n result ∈ s.log := by
  simp only [State.finished, finishedIn, List.mem_filterMap]
  constructor
  · rintro ⟨e, he, hn⟩
    cases e <;> simp at hn
    subst hn
    exact ⟨_, he⟩
  · rintro ⟨result, hr⟩
    exact ⟨_, hr, rfl⟩

theorem mem_started {n : ℕ} : n ∈ s.started ↔ .started n ∈ s.log := by
  simp only [State.started, startedIn, List.mem_filterMap]
  constructor
  · rintro ⟨e, he, hn⟩
    cases e <;> simp at hn
    exact hn ▸ he
  · exact fun h => ⟨_, h, rfl⟩

theorem succeeded_iff {n : ℕ} : s.succeeded n = true ↔ .returned n 0 ∈ s.log := by
  simp [State.succeeded]

theorem mem_finished_of_succeeded {n : ℕ} (h : s.succeeded n = true) : n ∈ s.finished :=
  mem_finished.mpr ⟨0, succeeded_iff.mp h⟩

/-- What the workers and the handed-out nodes cannot exceed: the queue never fills up. -/
theorem Accounted.length_lt (h : Accounted g s) {pc : Pc C} (hpc : pc ∈ s.workers) {v : ℕ}
    (hv : v ∈ pc.target) : s.shared.queue.cells.length < g.nodes.length := by
  have htarget : (pc.target).count v ≤ tally (fun pc => pc.target.count v) s.workers :=
    le_tally_of_mem (f := fun pc : Pc C => pc.target.count v) hpc
  have hpos := List.count_pos_iff.mpr hv
  have hnodup : (v :: s.shared.queue.enqueued).Nodup := by
    refine List.nodup_iff_count.mpr fun u => ?_
    have hone := h.enqueued_le_one u
    by_cases huv : u = v
    · subst huv
      rw [List.count_cons_self]
      omega
    · rw [List.count_cons_of_ne (Ne.symm huv)]
      omega
  have hsub : v :: s.shared.queue.enqueued ⊆ List.range g.nodes.length := by
    intro u hu
    refine List.mem_range.mpr (lt_length_of_isStep (h.of_handedOut ?_).1)
    rcases List.mem_cons.mp hu with rfl | hu
    · omega
    · have := List.count_pos_iff.mpr hu
      omega
  have hlen := (List.subperm_of_subset hnodup hsub).length_le
  simp only [List.length_cons, ReadyQueue.length_enqueued, List.length_range] at hlen
  omega

/-! ### A move keeps the account -/

section Step

variable {i : ℕ} {sh : Shared} {d : D} {pc pc' : Pc C} {events : List Event}

theorem started_moved (v : ℕ) : (s.moved i sh d pc' events).started.count v =
    s.started.count v + (startedIn events).count v := by
  simp [State.started, State.moved, startedIn]

theorem finished_moved (v : ℕ) : (s.moved i sh d pc' events).finished.count v =
    s.finished.count v + (finishedIn events).count v := by
  simp [State.finished, State.moved, finishedIn]

theorem succeeded_moved (n : ℕ) : (s.moved i sh d pc' events).succeeded n =
    (s.succeeded n || events.contains (.returned n 0)) := by
  simp [State.succeeded, State.moved]

/-- A success pays what its node owed: the worker takes over the edges. -/
theorem owed_moved (h : Accounted g s) (hi : s.workers[i]? = some pc)
    (hm : Move sem cfg g s.shared s.data pc sh d pc' events) (v : ℕ) :
    owed g (s.moved i sh d pc' events) v + (gainedIn g events).count v = owed g s v := by
  rcases hm.returned_cases with ⟨n, call, rfl, rfl, rfl⟩ | hnone
  · obtain ⟨hstep, hfin⟩ := h.running (List.mem_of_getElem? hi) (v := n) (by simp [Pc.running])
    have hnot : s.succeeded n = false := by
      by_contra hs
      exact hfin (mem_finished_of_succeeded (by simpa using hs))
    have hcount : (List.range g.nodes.length).count n = 1 :=
      List.count_eq_one_of_mem List.nodup_range
        (List.mem_range.mpr (lt_length_of_isStep hstep))
    -- the other nodes owe what they owed
    have hothers : ∀ u ∈ List.range g.nodes.length, u ≠ n →
        (if g.isStep u ∧
            (s.moved i sh d (.countSucceeded n : Pc C) [.returned n 0]).succeeded u = false
          then (g.outEdges u).count v else 0) =
        if g.isStep u ∧ s.succeeded u = false then (g.outEdges u).count v else 0 := by
      intro u _ hu
      simp [succeeded_moved, hu]
    have hupdate := tally_update hcount hothers
    simpa [owed, gainedIn, succeeded_moved, hstep, hnot] using hupdate
  · have hgain : (gainedIn g events).count v = 0 := by
      refine List.count_eq_zero.mpr fun hv => ?_
      obtain ⟨e, he, hve⟩ := List.mem_flatMap.mp hv
      cases e with
      | returned n result =>
        by_cases hr : result = 0
        · exact hnone n (hr ▸ he)
        · simp [hr] at hve
      | _ => simp at hve
    have hsucc : ∀ n, (s.moved i sh d pc' events).succeeded n = s.succeeded n := by
      intro n
      simp [succeeded_moved, hnone n]
    simp [owed, hgain, hsucc]

/-- What is outstanding changes by decrements only. -/
theorem outstanding_moved (h : Accounted g s) (hi : s.workers[i]? = some pc)
    (hm : Move sem cfg g s.shared s.data pc sh d pc' events) (v : ℕ) :
    outstanding g (s.moved i sh d pc' events) v + pc.decremented.count v = outstanding g s v := by
  have howed := owed_moved h hi hm v
  have hedges := hm.edges_count v
  have hset := tally_set (fun pc : Pc C => (pc.edges g).count v) hi pc'
  simp only [outstanding, State.moved] at howed hset ⊢
  omega

theorem Move.edges_isStep (hg : g.Linked) (h : Accounted g s) (hi : s.workers[i]? = some pc)
    (hm : Move sem cfg g s.shared s.data pc sh d pc' events) {v : ℕ} (hv : v ∈ pc'.edges g) :
    g.isStep v = true := by
  have hcount := hm.edges_count v
  have hpos := List.count_pos_iff.mpr hv
  by_cases hold : v ∈ pc.edges g
  · exact h.edges_isStep pc (List.mem_of_getElem? hi) v hold
  · have hgain : v ∈ gainedIn g events := by
      have := List.count_eq_zero.mpr hold
      exact List.count_pos_iff.mp (by omega)
    obtain ⟨e, -, hve⟩ := List.mem_flatMap.mp hgain
    split at hve
    · exact hg.target_isStep _ _ hve
    · simp at hve

/-- The queue accepts every task. -/
theorem Move.accepted (h : Accounted g s) (hi : s.workers[i]? = some pc)
    (hm : Move sem cfg g s.shared s.data pc sh d pc' events) (n : ℕ) : .rejected n ∉ events := by
  cases hm with
  | @reject target edges last hq =>
    have hfull := ReadyQueue.claim_eq_none_iff.mp hq
    have hlt := h.length_lt (List.mem_of_getElem? hi) (v := target) (by simp [Pc.target])
    have hcap := le_bitCeil g.nodes.length
    rw [ReadyQueue.full_eq_false_of_lt (by rw [h.capacity_eq]; omega)] at hfull
    exact absurd hfull (by simp)
  | _ => simp

/-- Nodes are freed exactly when their last outstanding edge is decremented. -/
theorem Accounted.freed_count (h : Accounted g s) (hi : s.workers[i]? = some pc) (v : ℕ) :
    (pc.freed s.shared).count v =
      if pc.decremented.count v = 1 ∧ outstanding g s v = 1 then 1 else 0 := by
  cases pc with
  | decrement edges last =>
    cases edges with
    | nil => simp [Pc.freed, Pc.decremented]
    | cons n edges =>
      have hstep := h.edges_isStep _ (List.mem_of_getElem? hi) n (by simp [Pc.edges])
      have hdeg := h.degree n (lt_length_of_isStep hstep)
      by_cases hv : n = v
      · subst hv
        have hcast : ((outstanding g s n : ℕ) : ℤ) = 1 ↔ outstanding g s n = 1 := by omega
        by_cases hone : outstanding g s n = 1 <;>
          simp [Pc.freed, Pc.decremented, hdeg, hcast, hone]
      · simp only [Pc.freed, Pc.decremented]
        split_ifs <;> simp_all
  | _ => simp [Pc.freed, Pc.decremented]

theorem accounted_moved (hg : g.Linked) (h : Accounted g s) (hi : s.workers[i]? = some pc)
    (hm : Move sem cfg g s.shared s.data pc sh d pc' events) :
    Accounted g (s.moved i sh d pc' events) where
  accepted n hn := by
    rcases List.mem_append.mp hn with hn | hn
    · exact h.accepted n hn
    · exact hm.accepted h hi n hn
  capacity_eq := hm.capacity_eq.trans h.capacity_eq
  dequeuePos_le := hm.dequeuePos_le h.dequeuePos_le
  edges_isStep pc₁ hpc v hv := by
    rcases List.mem_or_eq_of_mem_set hpc with hpc | rfl
    · exact h.edges_isStep pc₁ hpc v hv
    · exact hm.edges_isStep hg h hi hv
  -- the in-degree falls with the decrement that is recorded for it
  degree v hv := by
    have hout := outstanding_moved h hi hm v
    show sh.inDegrees[v]? = _
    rw [hm.inDegrees_eq, h.degree v hv, Option.map_some]
    congr 1
    omega
  -- enqueued or about to be: a node joins the count with the decrement that frees it
  handedOut v := by
    have hout := outstanding_moved h hi hm v
    have hqueue := hm.enqueued_count (hm.accepted h hi) v
    have hset := tally_set (fun pc : Pc C => pc.target.count v) hi pc'
    have hbefore := h.handedOut v
    have hfreed := h.freed_count hi v
    -- only a step's node is ever decremented, and once in a move
    have hstep : pc.decremented.count v ≠ 0 → g.isStep v = true := by
      intro hne
      have hmem := List.count_pos_iff.mp (Nat.pos_of_ne_zero hne)
      refine h.edges_isStep pc (List.mem_of_getElem? hi) v ?_
      cases pc with
      | decrement edges last => cases edges <;> simp_all [Pc.decremented, Pc.edges]
      | _ => simp [Pc.decremented] at hmem
    have hle : pc.decremented.count v ≤ 1 := by
      have hlen : pc.decremented.length ≤ 1 := by
        cases pc with
        | decrement edges last => cases edges <;> simp [Pc.decremented]
        | _ => simp [Pc.decremented]
      exact List.count_le_length.trans hlen
    show sh.queue.enqueued.count v + tally _ (s.workers.set i pc') = _
    by_cases hv : g.isStep v = true
    · simp only [hv, true_and] at hbefore ⊢
      split_ifs at hbefore hfreed ⊢ <;> omega
    · have hzero : pc.decremented.count v = 0 := by
        by_contra hne
        exact hv (hstep hne)
      simp only [Bool.not_eq_true] at hv
      simp only [hv, Bool.false_eq_true, false_and, if_false, hzero, Nat.zero_ne_one]
        at hbefore hfreed ⊢
      omega
  dequeued v := by
    have hqueue := hm.dequeued_count h.dequeuePos_le v
    have hset := tally_set (fun pc : Pc C => pc.held.count v) hi pc'
    have hbefore := h.dequeued v
    rw [started_moved]
    show sh.queue.dequeued.count v = _ + tally _ (s.workers.set i pc')
    omega
  started v := by
    have hrun := hm.running_count v
    have hset := tally_set (fun pc : Pc C => pc.running.count v) hi pc'
    have hbefore := h.started v
    rw [started_moved, finished_moved]
    show _ = _ + tally _ (s.workers.set i pc')
    omega

end Step

/-- Nothing succeeded yet when the pool starts, so the in-degrees are what is owed. -/
theorem outstanding_of_fresh {s : State D C} (hw : s.workers = []) (hlog : s.log = []) (v : ℕ) :
    outstanding g s v = tally (fun u => if g.isStep u then (g.outEdges u).count v else 0)
      (List.range g.nodes.length) := by
  simp [outstanding, owed, hw, State.succeeded, hlog]

theorem count_rootNodes (v : ℕ) : (rootNodes g).count v =
    if g.isStep v ∧ (inDegrees g)[v]? = some 0 then 1 else 0 := by
  rw [(nodup_rootNodes g).count]
  refine if_congr ?_ rfl rfl
  simp only [rootNodes, List.mem_filter, List.mem_range, Bool.and_eq_true, decide_eq_true_eq]
  exact ⟨fun h => h.2, fun h => ⟨lt_length_of_isStep h.1, h⟩⟩

theorem accounted_initialState {order : List ℕ} (h : order.Perm (rootNodes g)) (d₀ : D) :
    Accounted g (initialState g order d₀ : State D C) := by
  rw [initialState_eq g h]
  have hout := fun v => outstanding_of_fresh (g := g) (s := (
    { shared := { freshShared g with
        queue := ⟨bitCeil g.nodes.length, order.map Cell.waiting, 0⟩
        tasksAvailable := order.length % 18446744073709551616 }
      data := d₀, workers := [], spawning := true, log := [] } : State D C)) rfl rfl v
  refine ⟨by simp, rfl, by simp, by simp, ?_, ?_, ?_, ?_⟩
  · intro v hv
    rw [hout]
    exact inDegrees_getElem? g hv
  · intro v
    have henq : (order.map Cell.waiting).map Cell.node = order := by
      rw [List.map_map]
      exact List.map_id order
    simp only [ReadyQueue.enqueued, henq, tally_nil, Nat.add_zero, hout]
    rw [h.count_eq, count_rootNodes]
    by_cases hv : g.isStep v = true
    · rw [inDegrees_getElem? g (lt_length_of_isStep hv)]
      simp
    · simp [hv]
  · simp [ReadyQueue.dequeued, State.started, startedIn]
  · simp [State.started, startedIn, State.finished, finishedIn]

/-- A worker that was just spawned contributes nothing. -/
theorem tally_spawn (f : Pc C → ℕ) (hf : f .dequeue = 0) (workers : List (Pc C)) :
    tally f (workers ++ [.dequeue]) = tally f workers := by
  simp [hf]

/-- A worker that was just spawned changes no account. -/
theorem Accounted.spawned (h : Accounted g s) :
    Accounted g { s with workers := s.workers ++ [.dequeue] } := by
  have hout : ∀ v, outstanding g { s with workers := s.workers ++ [.dequeue] } v =
      outstanding g s v := by
    intro v
    simp [outstanding, owed, State.succeeded, Pc.edges]
  refine ⟨h.1, h.2, h.3, ?_, ?_, ?_, ?_, ?_⟩
  · intro pc hpc v hv
    rcases List.mem_append.mp hpc with hpc | hpc
    · exact h.edges_isStep pc hpc v hv
    · obtain rfl := List.mem_singleton.mp hpc
      simp [Pc.edges] at hv
  · intro v hv
    rw [hout]
    exact h.degree v hv
  · intro v
    show _ + tally _ (s.workers ++ [.dequeue]) = _
    rw [tally_spawn (fun pc : Pc C => pc.target.count v) rfl, hout]
    exact h.handedOut v
  · intro v
    show _ = s.started.count v + tally _ (s.workers ++ [.dequeue])
    rw [tally_spawn (fun pc : Pc C => pc.held.count v) rfl]
    exact h.dequeued v
  · intro v
    show s.started.count v = s.finished.count v + tally _ (s.workers ++ [.dequeue])
    rw [tally_spawn (fun pc : Pc C => pc.running.count v) rfl]
    exact h.started v

/-- The accounts do not look at the data. -/
theorem Accounted.withData (h : Accounted g s) (d : D) : Accounted g { s with data := d } :=
  ⟨h.1, h.2, h.3, h.4, h.5, h.6, h.7, h.8⟩

/-- Every step of the pool keeps the accounts. -/
theorem Accounted.poolStep (hg : g.Linked) (h : Accounted g s) {a : Action L}
    {s' : State D C} (hstep : PoolStep sem cfg g s a s') : Accounted g s' := by
  cases hstep with
  | stop => exact ⟨h.1, h.2, h.3, h.4, h.5, h.6, h.7, h.8⟩
  | spawn => exact h.spawned
  | move hi hm => exact accounted_moved hg h hi hm

/-- Every reachable state is accounted for. -/
theorem accounted (hg : g.Linked) {d₀ : D} {s : State D C}
    (h : (poolMachine sem cfg g d₀).Reachable s) : Accounted g s := by
  refine Machine.Reachable.invariant (I := Accounted g) ?_ ?_ h
  · rintro s ⟨order, horder, rfl⟩
    exact accounted_initialState horder d₀
  · exact fun s a s' _ hI hs => hI.poolStep hg (poolStep_cases hs)

end Invariant

end Cob
