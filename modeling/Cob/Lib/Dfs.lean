import Cob.Lib.Tally
import Mathlib.Data.List.Chain
import Mathlib.Data.List.Nodup
import Mathlib.Data.List.Range
import Mathlib.Logic.Relation

/-!
# Depth-first topological sorting

A directed graph has the nodes `0, …, n - 1`, and `out u` lists the targets of the edges of `u`.
`topoSort` is the depth-first search with an explicit stack and three colours: a node is pushed
when it is first seen, and goes to the end of the post-order when all its edges were followed.

* `Search.Inv` — what holds between two iterations: the stack is a path of the working nodes, and
  each finished node comes after all its targets;
* `advance_spec` — one iteration keeps the invariant, or has found a cycle;
* `topoSort_ok`, `topoSort_error` — an order lists every node once, sources of edges before
  targets; a reported node lies on a cycle;
* `exists_topoSort_iff` — there is an order exactly when there is no cycle.

The search ends because every iteration decreases `Search.size`.
-/

namespace Dfs

/-- The colour of a node. -/
inductive Status where
  | unstarted | working | finished
  deriving DecidableEq

/-- A node on the stack, with the index of its next edge. -/
structure StackFrame where
  node : ℕ
  nextEdgeIdx : ℕ
  deriving DecidableEq

/-- The state of the search; the top of the stack comes first. -/
structure Search where
  status : List Status
  order : List ℕ
  stack : List StackFrame
  deriving DecidableEq

variable (out : ℕ → List ℕ)

/-- One iteration of the search on a stack with a top: the new state, or the node at which a
cycle was found. -/
def advance (s : Search) (frame : StackFrame) (rest : List StackFrame) : Except ℕ Search :=
  match (out frame.node)[frame.nextEdgeIdx]? with
  | some v =>
    let stack := ⟨frame.node, frame.nextEdgeIdx + 1⟩ :: rest
    match s.status[v]? with
    | some .unstarted =>
      .ok { s with status := s.status.set v .working, stack := ⟨v, 0⟩ :: stack }
    | some .working => .error v
    | _ => .ok { s with stack }
  | none =>
    .ok ⟨s.status.set frame.node .finished, s.order ++ [frame.node], rest⟩

/-- What a node that is not started yet will cost. -/
def cost (status : List Status) (v : ℕ) : ℕ :=
  if status[v]? = some .unstarted then (out v).length + 2 else 0

/-- A bound on the iterations still to come. -/
def Search.size (s : Search) : ℕ :=
  tally (cost out s.status) (List.range s.status.length) +
    tally (fun f => (out f.node).length - f.nextEdgeIdx + 1) s.stack

/-- Starting a node removes its cost. -/
theorem tally_cost_set {status : List Status} {v : ℕ} (hv : status[v]? = some .unstarted)
    (new : Status) (hnew : new ≠ .unstarted) :
    tally (cost out (status.set v new)) (List.range (status.set v new).length) +
      ((out v).length + 2) = tally (cost out status) (List.range status.length) := by
  have hlt : v < status.length := (List.getElem?_eq_some_iff.mp hv).1
  have hold : cost out status v = (out v).length + 2 := by simp [cost, hv]
  have hnone : cost out (status.set v new) v = 0 := by simp [cost, hlt, hnew]
  have hother : ∀ u ∈ List.range status.length, u ≠ v →
      cost out (status.set v new) u = cost out status u := by
    intro u _ hne
    simp only [cost, List.getElem?_set_ne hne.symm]
  have hupdate := tally_update
    (List.count_eq_one_of_mem List.nodup_range (List.mem_range.mpr hlt)) hother
  rw [List.length_set]
  omega

/-- Other changes of colour do not add to the cost. -/
theorem tally_cost_set_le (status : List Status) (v : ℕ) (new : Status)
    (hnew : new ≠ .unstarted) :
    tally (cost out (status.set v new)) (List.range (status.set v new).length) ≤
      tally (cost out status) (List.range status.length) := by
  rw [List.length_set]
  refine List.sum_le_sum fun u _ => ?_
  unfold cost
  rw [List.getElem?_set]
  split_ifs <;> simp_all

theorem size_advance {s s' : Search} {frame : StackFrame} {rest : List StackFrame}
    (hstack : s.stack = frame :: rest) (h : advance out s frame rest = .ok s') :
    s'.size out < s.size out := by
  unfold advance at h
  split at h
  · next v hedge =>
    have hlt : frame.nextEdgeIdx < (out frame.node).length :=
      (List.getElem?_eq_some_iff.mp hedge).1
    split at h
    · next hv =>
      obtain rfl := Except.ok.inj h
      have hcost := tally_cost_set out hv .working nofun
      simp only [Search.size, hstack, tally_cons]
      omega
    · cases h
    · obtain rfl := Except.ok.inj h
      simp only [Search.size, hstack, tally_cons]
      omega
  · obtain rfl := Except.ok.inj h
    have hcost := tally_cost_set_le out s.status frame.node .finished nofun
    simp only [Search.size, hstack, tally_cons]
    omega

/-- The iterations until the stack is empty. -/
def loop (s : Search) : Except ℕ Search :=
  match _hstack : s.stack with
  | [] => .ok s
  | frame :: rest =>
    match _h : advance out s frame rest with
    | .ok s' => loop s'
    | .error v => .error v
  termination_by s.size out
  decreasing_by exact size_advance out _hstack _h

/-- The search from a node, when it was not seen yet. -/
def visit (s : Search) (i : ℕ) : Except ℕ Search :=
  if s.status[i]? = some .unstarted then
    loop out { s with status := s.status.set i .working, stack := [⟨i, 0⟩] }
  else .ok s

/-- The search from every node in turn; the order is the post-order reversed. -/
def topoSort (n : ℕ) : Except ℕ (List ℕ) :=
  ((List.range n).foldlM (visit out) ⟨List.replicate n .unstarted, [], []⟩).map
    fun s => s.order.reverse

/-- `v` is a target of `u`. -/
def Edge (u v : ℕ) : Prop := v ∈ out u

/-- The edges already followed lead to nodes of `order`, but for the one to the frame `above`. -/
def Scanned (order : List ℕ) : Option ℕ → List StackFrame → Prop
  | _, [] => True
  | above, f :: rest =>
    (∀ j < f.nextEdgeIdx, ∀ w, (out f.node)[j]? = some w → w ∈ order ∨ some w = above) ∧
      Scanned order (some f.node) rest

/-- The nodes on the stack, the top first. -/
def Search.path (s : Search) : List ℕ := s.stack.map StackFrame.node

/-- What holds between two iterations on a graph with `n` nodes. -/
structure Search.Inv (n : ℕ) (s : Search) : Prop where
  /-- Every node has a colour. -/
  length : s.status.length = n
  /-- The working nodes are those on the stack. -/
  working : ∀ v : ℕ, s.status[v]? = some .working ↔ v ∈ s.path
  /-- The finished nodes are those of the post-order. -/
  finished : ∀ v : ℕ, s.status[v]? = some .finished ↔ v ∈ s.order
  nodup_path : s.path.Nodup
  nodup_order : s.order.Nodup
  /-- Each frame was pushed for an edge of the frame below it. -/
  chain : s.path.IsChain fun v u => Edge out u v
  scanned : Scanned out s.order none s.stack
  /-- The targets of a finished node finished before it. -/
  postOrder : ∀ (a : List ℕ) (u : ℕ) (b : List ℕ), s.order = a ++ u :: b →
    ∀ w, Edge out u w → w ∈ a

variable {out} {n : ℕ} {s s' : Search}

theorem Scanned.mono {order order' : List ℕ} (hsub : ∀ v ∈ order, v ∈ order') {above : Option ℕ}
    {stack : List StackFrame} (h : Scanned out order above stack) :
    Scanned out order' above stack := by
  induction stack generalizing above with
  | nil => trivial
  | cons f rest ih => exact ⟨fun j hj w hw => (h.1 j hj w hw).imp_left (hsub w), ih h.2⟩

/-- The frame above has finished. -/
theorem Scanned.pop {order : List ℕ} {v : ℕ} {stack : List StackFrame}
    (h : Scanned out order (some v) stack) : Scanned out (order ++ [v]) none stack := by
  have hsub : ∀ w ∈ order, w ∈ order ++ [v] := fun w hw => List.mem_append_left _ hw
  cases stack with
  | nil => trivial
  | cons f rest =>
    refine ⟨fun j hj w hw => .inl ?_, h.2.mono hsub⟩
    rcases h.1 j hj w hw with hin | habove
    · exact hsub w hin
    · exact List.mem_append_right _ (List.mem_singleton.mpr (Option.some.inj habove))

/-- Every node on the stack leads to the one on the top. -/
theorem reflTransGen_of_mem_path {u v : ℕ} {path : List ℕ}
    (hchain : (v :: path).IsChain fun v u => Edge out u v) (hu : u ∈ v :: path) :
    Relation.ReflTransGen (Edge out) u v := by
  induction path generalizing v with
  | nil => rw [List.mem_singleton.mp hu]
  | cons w path ih =>
    rw [List.isChain_cons_cons] at hchain
    rcases List.mem_cons.mp hu with rfl | hrest
    · exact .refl
    · exact (ih hchain.2 hrest).tail hchain.1

namespace Search.Inv

theorem lt_length (h : s.Inv out n) {v : ℕ} {st : Status} (hv : s.status[v]? = some st) :
    v < n := by
  rw [← h.length]
  exact (List.getElem?_eq_some_iff.mp hv).1

/-- A node that has not started is neither on the stack nor in the order. -/
theorem notMem_of_unstarted (h : s.Inv out n) {v : ℕ} (hv : s.status[v]? = some .unstarted) :
    v ∉ s.path ∧ v ∉ s.order := by
  rw [← h.working, ← h.finished, hv]
  simp

/-- A node on the stack is not in the order. -/
theorem notMem_order (h : s.Inv out n) {v : ℕ} (hv : v ∈ s.path) : v ∉ s.order := by
  rw [← h.finished, (h.working v).mpr hv]
  simp

/-- The stack `rest` got the unstarted node `v` on its top. -/
theorem push (h : s.Inv out n) {v : ℕ} (hv : s.status[v]? = some .unstarted)
    (rest : List StackFrame) (hpath : rest.map StackFrame.node = s.path)
    (hedge : ∀ u ∈ s.path.head?, Edge out u v) (hscanned : Scanned out s.order (some v) rest) :
    Search.Inv out n ⟨s.status.set v .working, s.order, ⟨v, 0⟩ :: rest⟩ := by
  obtain ⟨hpathv, horderv⟩ := h.notMem_of_unstarted hv
  have hlt : v < s.status.length := (List.getElem?_eq_some_iff.mp hv).1
  have hcons : Search.path ⟨s.status.set v .working, s.order, ⟨v, 0⟩ :: rest⟩ = v :: s.path :=
    congrArg (v :: ·) hpath
  -- `v` turns from unstarted to working and joins the path
  refine ⟨?_, ?_, ?_, ?_, h.nodup_order, ?_, ⟨?_, hscanned⟩, h.postOrder⟩
  · rw [List.length_set]
    exact h.length
  · intro u
    rw [hcons, List.mem_cons, ← h.working]
    by_cases huv : u = v
    · subst huv
      simp [hlt]
    · rw [List.getElem?_set_ne (Ne.symm huv)]
      simp [huv]
  · intro u
    by_cases huv : u = v
    · subst huv
      simp [hlt, horderv]
    · rw [List.getElem?_set_ne (Ne.symm huv)]
      exact h.finished u
  · rw [hcons]
    exact List.nodup_cons.mpr ⟨hpathv, h.nodup_path⟩
  · rw [hcons, List.isChain_cons]
    exact ⟨hedge, h.chain⟩
  · intro j hj
    exact absurd hj (Nat.not_lt_zero j)

/-- The top went past an edge to a node that has finished. -/
theorem skip (h : s.Inv out n) {frame : StackFrame} {rest : List StackFrame}
    (hstack : s.stack = frame :: rest) {v : ℕ}
    (hedge : (out frame.node)[frame.nextEdgeIdx]? = some v)
    (hv : v ∈ s.order) :
    Search.Inv out n ⟨s.status, s.order, ⟨frame.node, frame.nextEdgeIdx + 1⟩ :: rest⟩ := by
  have hpath : Search.path ⟨s.status, s.order, ⟨frame.node, frame.nextEdgeIdx + 1⟩ :: rest⟩ =
      s.path := by
    simp [Search.path, hstack]
  have hscanned := h.scanned
  rw [hstack] at hscanned
  refine ⟨h.length, ?_, h.finished, ?_, h.nodup_order, ?_, ⟨?_, hscanned.2⟩, h.postOrder⟩
  · rw [hpath]
    exact h.working
  · rw [hpath]
    exact h.nodup_path
  · rw [hpath]
    exact h.chain
  · intro j hj w hw
    rcases Nat.lt_succ_iff_lt_or_eq.mp hj with hlt | rfl
    · exact hscanned.1 j hlt w hw
    · rw [hedge] at hw
      exact .inl (Option.some.inj hw ▸ hv)

/-- The top has no edge left, and finishes. -/
theorem finish (h : s.Inv out n) {frame : StackFrame} {rest : List StackFrame}
    (hstack : s.stack = frame :: rest) (hend : (out frame.node)[frame.nextEdgeIdx]? = none) :
    Search.Inv out n ⟨s.status.set frame.node .finished, s.order ++ [frame.node], rest⟩ := by
  have hpath : s.path = frame.node :: rest.map StackFrame.node := by simp [Search.path, hstack]
  have hmem : frame.node ∈ s.path := hpath ▸ List.mem_cons_self
  have hworking := (h.working frame.node).mpr hmem
  have hlt : frame.node < s.status.length := (List.getElem?_eq_some_iff.mp hworking).1
  have hnodup := h.nodup_path
  have hchain := h.chain
  rw [hpath, List.nodup_cons] at hnodup
  rw [hpath] at hchain
  have hscanned := h.scanned
  rw [hstack] at hscanned
  -- every edge of the top was followed, and there is no frame above it
  have htargets : ∀ w, Edge out frame.node w → w ∈ s.order := by
    intro w hw
    obtain ⟨j, hj⟩ := List.getElem?_of_mem hw
    have hlt : j < frame.nextEdgeIdx := by
      have hle := List.getElem?_eq_none_iff.mp hend
      have hjlt := (List.getElem?_eq_some_iff.mp hj).1
      omega
    simpa using hscanned.1 j hlt w hj
  refine ⟨?_, ?_, ?_, hnodup.2, ?_, hchain.of_cons, ?_, ?_⟩
  · rw [List.length_set]
    exact h.length
  · intro v
    have hold := h.working v
    rw [hpath, List.mem_cons] at hold
    by_cases hv : v = frame.node
    · subst hv
      simpa [hlt, Search.path] using hnodup.1
    · rw [List.getElem?_set_ne (Ne.symm hv), hold]
      simp [hv, Search.path]
  · intro v
    rw [List.mem_append, List.mem_singleton, ← h.finished]
    by_cases hv : v = frame.node
    · subst hv
      simp [hlt]
    · rw [List.getElem?_set_ne (Ne.symm hv)]
      simp [hv]
  · rw [List.nodup_append]
    refine ⟨h.nodup_order, List.nodup_singleton _, ?_⟩
    intro v hv w hw
    rw [List.mem_singleton.mp hw]
    rintro rfl
    exact h.notMem_order hmem hv
  · exact hscanned.2.pop
  · intro a u b heq w hw
    rcases List.eq_nil_or_concat b with rfl | ⟨b, x, rfl⟩
    · obtain ⟨rfl, hu⟩ := List.append_inj' heq rfl
      obtain rfl := (List.cons.inj hu).1
      exact htargets w hw
    · rw [List.concat_eq_append, ← List.cons_append, ← List.append_assoc] at heq
      obtain ⟨horder, -⟩ := List.append_inj' heq rfl
      exact h.postOrder a u b horder w hw

end Search.Inv

/-- What a search that began in state `s` may answer: it went on to an empty stack, or it found a
node on a cycle. -/
def Sound (out : ℕ → List ℕ) (n : ℕ) (s : Search) : Except ℕ Search → Prop
  | .ok s' => s'.Inv out n ∧ s'.stack = [] ∧
      ∀ v : ℕ, s'.status[v]? = some .unstarted → s.status[v]? = some .unstarted
  | .error v => Relation.TransGen (Edge out) v v

/-- One iteration keeps the invariant and starts no node anew, or it found a node on a cycle. -/
theorem advance_spec (h : s.Inv out n) (hvalid : ∀ u v, Edge out u v → v < n)
    {frame : StackFrame} {rest : List StackFrame} (hstack : s.stack = frame :: rest) :
    match advance out s frame rest with
    | .ok s' => s'.Inv out n ∧
        ∀ v : ℕ, s'.status[v]? = some .unstarted → s.status[v]? = some .unstarted
    | .error v => Relation.TransGen (Edge out) v v := by
  have hpath : s.path = frame.node :: rest.map StackFrame.node := by simp [Search.path, hstack]
  have hset : ∀ (u v : ℕ) (new : Status), new ≠ .unstarted →
      (s.status.set u new)[v]? = some .unstarted → s.status[v]? = some .unstarted := by
    intro u v new hnew hv
    rw [List.getElem?_set] at hv
    split_ifs at hv with huv hlt
    · exact absurd (Option.some.inj hv) hnew
    · exact hv
  unfold advance
  cases hedge : (out frame.node)[frame.nextEdgeIdx]? with
  | none => exact ⟨h.finish hstack hedge, fun v => hset _ v _ nofun⟩
  | some v =>
    have huv : Edge out frame.node v := List.mem_of_getElem? hedge
    have hlt : v < s.status.length := h.length ▸ hvalid _ v huv
    have hstatus := List.getElem?_eq_getElem hlt
    cases hv : s.status[v] with
    | unstarted =>
      rw [hv] at hstatus
      simp only [hstatus]
      refine ⟨h.push hstatus _ (by simp [Search.path, hstack]) ?_ ⟨?_, ?_⟩,
        fun u => hset _ u _ nofun⟩
      · intro u hu
        rw [hpath, List.head?_cons, Option.mem_some] at hu
        exact hu ▸ huv
      · intro j hj w hw
        have hscanned := h.scanned
        rw [hstack] at hscanned
        rcases Nat.lt_succ_iff_lt_or_eq.mp hj with hlt | rfl
        · exact .inl (by simpa using hscanned.1 j hlt w hw)
        · exact .inr (hw.symm.trans hedge)
      · have hscanned := h.scanned
        rw [hstack] at hscanned
        exact hscanned.2
    | working =>
      -- the stack leads from `v` to the top, whose edge closes the cycle
      rw [hv] at hstatus
      simp only [hstatus]
      have hmem := (h.working v).mp hstatus
      have hchain := h.chain
      rw [hpath] at hmem hchain
      exact .tail' (reflTransGen_of_mem_path hchain hmem) huv
    | finished =>
      rw [hv] at hstatus
      simp only [hstatus]
      exact ⟨h.skip hstack hedge ((h.finished v).mp hstatus), fun _ hu => hu⟩

theorem loop_of_nil (h : s.stack = []) : loop out s = .ok s := by
  rw [loop]
  split
  · rfl
  · next heq => exact absurd (h.symm.trans heq) nofun

theorem loop_of_cons {frame : StackFrame} {rest : List StackFrame}
    (h : s.stack = frame :: rest) : loop out s = (advance out s frame rest).bind (loop out) := by
  rw [loop]
  split
  · next heq => exact absurd (h.symm.trans heq) nofun
  · next heq =>
    obtain ⟨rfl, rfl⟩ := List.cons.inj (h.symm.trans heq)
    split <;> next hadvance => rw [hadvance]; rfl

theorem loop_spec (hvalid : ∀ u v, Edge out u v → v < n) (h : s.Inv out n) :
    Sound out n s (loop out s) := by
  -- induction along the loop: it is done, it goes on, or it has found a cycle
  induction s using loop.induct out with
  | case1 s hstack =>
    rw [loop_of_nil hstack]
    exact ⟨h, hstack, fun _ hv => hv⟩
  | case2 s frame rest hstack s' hadvance ih =>
    have hstep := advance_spec h hvalid hstack
    rw [loop_of_cons hstack, hadvance]
    rw [hadvance] at hstep
    have hrest := ih hstep.1
    change Sound out n s (loop out s')
    cases hresult : loop out s' with
    | error v =>
      rw [hresult] at hrest
      exact hrest
    | ok t =>
      rw [hresult] at hrest
      exact ⟨hrest.1, hrest.2.1, fun v hv => hstep.2 v (hrest.2.2 v hv)⟩
  | case3 s frame rest hstack v hadvance =>
    have hstep := advance_spec h hvalid hstack
    rw [hadvance] at hstep
    rw [loop_of_cons hstack, hadvance]
    exact hstep

/-- What holds after the nodes below `k` were visited. -/
structure Visited (out : ℕ → List ℕ) (n k : ℕ) (s : Search) : Prop where
  inv : s.Inv out n
  stack : s.stack = []
  started : ∀ v < k, s.status[v]? ≠ some .unstarted

theorem visit_spec (hvalid : ∀ u v, Edge out u v → v < n) {k : ℕ} (hk : k < n)
    (h : Visited out n k s) :
    match visit out s k with
    | .ok s' => Visited out n (k + 1) s'
    | .error v => Relation.TransGen (Edge out) v v := by
  unfold visit
  split_ifs with hstatus
  · have hpath : s.path = [] := by simp [Search.path, h.stack]
    have hpush := h.inv.push hstatus [] (by simp [hpath]) (by simp [hpath]) trivial
    have hsound := loop_spec hvalid hpush
    cases hresult : loop out ⟨s.status.set k .working, s.order, [⟨k, 0⟩]⟩ with
    | error v =>
      rw [hresult] at hsound
      exact hsound
    | ok t =>
      rw [hresult] at hsound
      refine ⟨hsound.1, hsound.2.1, fun v hv hun => ?_⟩
      -- the node was working when the search began
      have hbefore := hsound.2.2 v hun
      rcases Nat.lt_succ_iff_lt_or_eq.mp hv with hlt | rfl
      · rw [List.getElem?_set_ne hlt.ne'] at hbefore
        exact h.started v hlt hbefore
      · rw [List.getElem?_set_self (List.getElem?_eq_some_iff.mp hstatus).1] at hbefore
        exact absurd hbefore nofun
  · refine ⟨h.inv, h.stack, fun v hv => ?_⟩
    rcases Nat.lt_succ_iff_lt_or_eq.mp hv with hlt | rfl
    · exact h.started v hlt
    · exact hstatus

/-- The search before the first visit. -/
theorem visited_zero (n : ℕ) : Visited out n 0 ⟨List.replicate n .unstarted, [], []⟩ := by
  refine ⟨⟨List.length_replicate, ?_, ?_, List.nodup_nil, List.nodup_nil, .nil, trivial, ?_⟩, rfl,
    fun v hv => absurd hv (Nat.not_lt_zero v)⟩
  · intro v
    simp [Search.path, List.getElem?_replicate]
  · intro v
    simp [List.getElem?_replicate]
  · intro a u b heq
    simp at heq

/-- The visits in turn. -/
theorem foldlM_visit_spec (hvalid : ∀ u v, Edge out u v → v < n) {k : ℕ} (hk : k ≤ n) :
    match (List.range k).foldlM (visit out) ⟨List.replicate n .unstarted, [], []⟩ with
    | .ok s => Visited out n k s
    | .error v => Relation.TransGen (Edge out) v v := by
  induction k with
  | zero => exact visited_zero n
  | succ k ih =>
    have hprev := ih (Nat.le_of_succ_le hk)
    rw [List.range_succ, List.foldlM_append]
    cases hfold : (List.range k).foldlM (visit out) ⟨List.replicate n .unstarted, [], []⟩ with
    | error v =>
      rw [hfold] at hprev
      exact hprev
    | ok s =>
      rw [hfold] at hprev
      have hvisit := visit_spec hvalid hk hprev
      simp only [List.foldlM_cons, List.foldlM_nil, bind_pure]
      exact hvisit

/-- In a list without repetition, what stands after `u` has the larger index. -/
theorem idxOf_lt_idxOf {a b : List ℕ} {u v : ℕ} (hnodup : (a ++ u :: b).Nodup) (hv : v ∈ b) :
    (a ++ u :: b).idxOf u < (a ++ u :: b).idxOf v := by
  obtain ⟨-, hcons, hdisjoint⟩ := List.nodup_append.mp hnodup
  have hu : u ∉ a := fun hu => hdisjoint u hu u List.mem_cons_self rfl
  have hva : v ∉ a := fun hva => hdisjoint v hva v (List.mem_cons_of_mem _ hv) rfl
  have huv : u ≠ v := fun huv => (List.nodup_cons.mp hcons).1 (huv ▸ hv)
  rw [List.idxOf_append_of_notMem hu, List.idxOf_append_of_notMem hva, List.idxOf_cons_self,
    List.idxOf_cons_ne _ huv]
  omega

/-- After the last visit every node has finished. -/
theorem Visited.mem_order (h : Visited out n n s) (v : ℕ) : v ∈ s.order ↔ v < n := by
  rw [← h.inv.finished]
  constructor
  · exact h.inv.lt_length
  · intro hv
    have hlt : v < s.status.length := h.inv.length ▸ hv
    have hstatus := List.getElem?_eq_getElem hlt
    cases hcolour : s.status[v] with
    | unstarted => exact absurd (hcolour ▸ hstatus) (h.started v hv)
    | working =>
      have hon : v ∈ s.path := (h.inv.working v).mp (hcolour ▸ hstatus)
      rw [Search.path, h.stack] at hon
      exact absurd hon List.not_mem_nil
    | finished => exact hcolour ▸ hstatus

/-- An order lists every node once, and the source of an edge before its target. -/
theorem topoSort_ok (hvalid : ∀ u v, Edge out u v → v < n) {order : List ℕ}
    (h : topoSort out n = .ok order) :
    order.Perm (List.range n) ∧
      ∀ u < n, ∀ v, Edge out u v → order.idxOf u < order.idxOf v := by
  have hspec := foldlM_visit_spec hvalid (le_refl n)
  unfold topoSort at h
  cases hfold : (List.range n).foldlM (visit out) ⟨List.replicate n .unstarted, [], []⟩ with
  | error v =>
    rw [hfold] at h
    cases h
  | ok s =>
    rw [hfold] at h hspec
    obtain rfl : s.order.reverse = order := Except.ok.inj h
    have hnodup : s.order.reverse.Nodup := List.nodup_reverse.mpr hspec.inv.nodup_order
    constructor
    · rw [List.perm_ext_iff_of_nodup hnodup List.nodup_range]
      intro v
      rw [List.mem_reverse, List.mem_range]
      exact hspec.mem_order v
    · intro u hu v huv
      obtain ⟨a, b, heq⟩ := List.append_of_mem ((hspec.mem_order u).mpr hu)
      -- in the post-order the target of an edge comes before its source
      have hv : v ∈ a := hspec.inv.postOrder a u b heq v huv
      have hreverse : s.order.reverse = b.reverse ++ u :: a.reverse := by simp [heq]
      rw [hreverse] at hnodup ⊢
      exact idxOf_lt_idxOf hnodup (List.mem_reverse.mpr hv)

/-- A reported node lies on a cycle. -/
theorem topoSort_error (hvalid : ∀ u v, Edge out u v → v < n) {v : ℕ}
    (h : topoSort out n = .error v) : Relation.TransGen (Edge out) v v := by
  have hspec := foldlM_visit_spec hvalid (le_refl n)
  unfold topoSort at h
  cases hfold : (List.range n).foldlM (visit out) ⟨List.replicate n .unstarted, [], []⟩ with
  | error w =>
    rw [hfold] at h hspec
    obtain rfl := Except.error.inj h
    exact hspec
  | ok s =>
    rw [hfold] at h
    cases h

/-- There is an order exactly when no node lies on a cycle. -/
theorem exists_topoSort_iff (hvalid : ∀ u v, Edge out u v → v < n)
    (hsource : ∀ u v, Edge out u v → u < n) :
    (∃ order, topoSort out n = .ok order) ↔ ∀ v, ¬ Relation.TransGen (Edge out) v v := by
  constructor
  · rintro ⟨order, horder⟩ v hcycle
    have hsorted := (topoSort_ok hvalid horder).2
    -- the index in the order grows along every path
    have hgrows : ∀ u w, Relation.TransGen (Edge out) u w → order.idxOf u < order.idxOf w := by
      intro u w hpath
      induction hpath with
      | single hedge => exact hsorted _ (hsource _ _ hedge) _ hedge
      | tail _ hedge ih => exact ih.trans (hsorted _ (hsource _ _ hedge) _ hedge)
    exact lt_irrefl _ (hgrows v v hcycle)
  · intro hacyclic
    cases hresult : topoSort out n with
    | ok order => exact ⟨order, rfl⟩
    | error v => exact absurd (topoSort_error hvalid hresult) (hacyclic v)

end Dfs
