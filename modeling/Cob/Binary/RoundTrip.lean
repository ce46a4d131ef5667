import Cob.Binary.Emit
import Cob.Tools
import Mathlib.Algebra.Order.BigOperators.Group.List

/-!
# The cache file is read back

What `emitBin` writes, `parseBin` reads. The bytes depend neither on which inputs were known by
their address nor on the memory there was, the records fill the buffer that was allocated for
them, and loading them gives the builder back.

The module introduces:

* `fileOf` — the bytes of an image;
* `emitBin_eq` — `emitBin` writes these bytes, or runs out of memory;
* `parseBin_fileOf` — loading them gives the image back;
* `Reached` — the builders that `addDefinition` and `addStep` can make.
-/

namespace Cob

namespace CacheFile

open Codec

/-! ### Looking up inputs by address -/

section Known

/-- The buffer holds the references of the paths. -/
def Holds (sb : StringBuffer) (paths : List (Bytes × StringRef)) : Prop :=
  ∀ s ref, paths.lookup s = some ref → sb.cache.lookup s = some ref

/-- From buffers that hold the references of the paths, the computations do the same, and the
buffer holds them still. -/
def SameFrom {α : Type} (paths : List (Bytes × StringRef)) (m m' : StateM StringBuffer α) : Prop :=
  ∀ sb, Holds sb paths → m sb = m' sb ∧ Holds (m sb).2 paths

variable {α β : Type} {paths : List (Bytes × StringRef)} {sb : StringBuffer}

/-- What a computation adds leaves the paths held. -/
theorem Emits.sameFrom {pool : Bytes} {m : StateM StringBuffer α} {P : α → Prop}
    (h : Emits pool m P) : SameFrom paths m m := by
  intro sb hsb
  exact ⟨rfl, fun s ref hs => (h sb).1.lookup s ref (hsb s ref hs)⟩

theorem SameFrom.bind {m m' : StateM StringBuffer α} {f f' : α → StateM StringBuffer β}
    (hm : SameFrom paths m m') (hf : ∀ a, SameFrom paths (f a) (f' a)) :
    SameFrom paths (m >>= f) (m' >>= f') := by
  intro sb hsb
  obtain ⟨heq, hheld⟩ := hm sb hsb
  obtain ⟨heq', hheld'⟩ := hf (m sb).1 (m sb).2 hheld
  refine ⟨?_, hheld'⟩
  calc (m >>= f) sb
      = f (m sb).1 (m sb).2 := rfl
    _ = f' (m sb).1 (m sb).2 := heq'
    _ = f' (m' sb).1 (m' sb).2 := by rw [heq]
    _ = (m' >>= f') sb := rfl

theorem SameFrom.mapM {f f' : α → StateM StringBuffer β} (hf : ∀ a, SameFrom paths (f a) (f' a))
    (l : List α) : SameFrom paths (l.mapM f) (l.mapM f') := by
  induction l with
  | nil => exact fun sb hsb => ⟨rfl, hsb⟩
  | cons a l ih =>
    rw [List.mapM_cons, List.mapM_cons]
    refine SameFrom.bind (hf a) fun b => ?_
    exact SameFrom.bind ih fun bs sb hsb => ⟨rfl, hsb⟩

theorem sameFrom_add (s : Bytes) : SameFrom paths (StringBuffer.add s) (StringBuffer.add s) := by
  have hempty : ([] : Bytes).length < 2 ^ 64 := by simp
  exact (emits_add hempty s).sameFrom

/-- An input found by its address has the reference the buffer has for it. -/
theorem sameFrom_emitInput (known : Bool) (input : Bytes) :
    SameFrom paths (emitInput paths known input) (StringBuffer.add input) := by
  intro sb hsb
  cases known with
  | false => exact sameFrom_add input sb hsb
  | true =>
    simp only [emitInput, if_true]
    cases hlookup : paths.lookup input with
    | none => exact sameFrom_add input sb hsb
    | some ref =>
      refine ⟨?_, hsb⟩
      simp only [StringBuffer.add, hsb input ref hlookup]
      rfl

theorem sameFrom_emitStep (known : ℕ → Bool) (st : CachedStep) :
    SameFrom paths (emitStep paths known st) (emitStep paths (fun _ => false) st) := by
  refine SameFrom.bind (sameFrom_add _) fun inputs => ?_
  refine SameFrom.bind (sameFrom_add _) fun output => ?_
  refine SameFrom.bind (sameFrom_add _) fun extraFlags => ?_
  refine SameFrom.bind (SameFrom.mapM (fun p => ?_) _) fun refs sb hsb => ⟨rfl, hsb⟩
  exact sameFrom_emitInput (known p.2) p.1

/-- After the nodes, the buffer holds the references of their paths. -/
theorem holds_emitNodes (nodes : List Node) (sb : StringBuffer) :
    Holds (nodes.mapM emitNode sb).2
      ((nodes.map Node.path).zip ((nodes.mapM emitNode sb).1.map BinNode.path)) := by
  induction nodes generalizing sb with
  | nil => intro s ref h; simp at h
  | cons n nodes ih =>
    have hrun : (n :: nodes).mapM emitNode sb =
        ((emitNode n sb).1 :: (nodes.mapM emitNode (emitNode n sb).2).1,
          (nodes.mapM emitNode (emitNode n sb).2).2) := by
      rw [List.mapM_cons]
      rfl
    rw [hrun, List.map_cons, List.map_cons, List.zip_cons_cons]
    intro s ref hlookup
    by_cases hs : s = n.path
    · -- the path was just added, and later nodes keep it
      have hempty : ([] : Bytes).length < 2 ^ 64 := by simp
      have hext := (Emits.mapM (emits_node hempty) nodes (emitNode n sb).2).1
      apply hext.lookup
      obtain rfl : (emitNode n sb).1.path = ref := by simpa [hs] using hlookup
      rw [hs]
      exact (extends_add n.path sb).2
    · exact ih _ s ref (by simpa [List.lookup_cons, beq_false_of_ne hs] using hlookup)

/-- The records and the pool do not depend on which inputs are known by their address. -/
theorem emitRecords_eq (known : ℕ → ℕ → Bool) (image : CacheImage) (sb : StringBuffer) :
    emitRecords known image sb = emitRecords (fun _ _ => false) image sb := by
  set sb₁ := (image.definitions.mapM emitDefinition sb).2 with hsb₁
  set nodes := (image.nodes.mapM emitNode sb₁).1 with hnodes
  have hsteps : SameFrom (nodePaths image nodes)
      (image.steps.zipIdx.mapM fun p => emitStep (nodePaths image nodes) (known p.2) p.1)
      (image.steps.zipIdx.mapM fun p => emitStep (nodePaths image nodes) (fun _ => false) p.1) :=
    SameFrom.mapM (fun p : CachedStep × ℕ => sameFrom_emitStep (known p.2) p.1) _
  have hrun := (hsteps (image.nodes.mapM emitNode sb₁).2 (holds_emitNodes image.nodes sb₁)).1
  have hpair : ∀ known : ℕ → ℕ → Bool, emitRecords known image sb =
      (fun p : List BinStep × StringBuffer =>
        ((⟨(image.definitions.mapM emitDefinition sb).1, nodes, p.1⟩ : Records), p.2))
        (image.steps.zipIdx.mapM (fun p => emitStep (nodePaths image nodes) (known p.2) p.1)
          (image.nodes.mapM emitNode sb₁).2) := fun _ => rfl
  rw [hpair, hpair, hrun]

end Known

/-! ### Sizes -/

section Sizes

theorem length_write_definition (d : BinDefinition) : (definition.write d).length = 32 := by
  simp [definition]

theorem length_write_node (n : BinNode) : (node.write n).length = 32 + n.edges.length := by
  simp [node]
  omega

theorem length_write_step {st : BinStep} (h : st.padding.length = 7) :
    (step.write st).length = 72 + st.refs.length := by
  simp [step, stepHeader, h]
  omega

/-- The bytes of values of one length. -/
theorem length_flatMap_of_const {α : Type} {f : α → Bytes} {n : ℕ} (h : ∀ a, (f a).length = n)
    (l : List α) : (l.flatMap f).length = l.length * n := by
  simp [List.length_flatMap, h]

/-- The bytes of records that are emitted in a loop. -/
theorem length_flatMap_mapM {α β : Type} {m : α → StateM StringBuffer β} {f : β → Bytes}
    {g : α → ℕ} (h : ∀ a sb, (f (m a sb).1).length = g a) (l : List α)
    (sb : StringBuffer) : ((l.mapM m sb).1.flatMap f).length = (l.map g).sum := by
  induction l generalizing sb with
  | nil => rfl
  | cons a l ih =>
    have hrun : ((a :: l).mapM m sb).1 = (m a sb).1 :: (l.mapM m (m a sb).2).1 := by
      rw [List.mapM_cons]
      rfl
    rw [hrun, List.flatMap_cons, List.length_append, h, ih, List.map_cons, List.sum_cons]

theorem length_emitNode (n : Node) (sb : StringBuffer) :
    (node.write (emitNode n sb).1).length = 16 + 2 * 8 + n.outEdges.length * 8 := by
  rw [length_write_node]
  change 32 + ((n.outEdges.map UInt64.ofNat).flatMap word.write).length = _
  rw [length_flatMap_of_const length_write_word, List.length_map]

theorem length_emitStep (paths : List (Bytes × StringRef)) (known : ℕ → Bool) (st : CachedStep)
    (sb : StringBuffer) : (step.write (emitStep paths known st sb).1).length =
      72 + (st.depfileInputs.getD []).length * 16 := by
  rw [length_write_step (List.length_replicate ..)]
  have hrefs := length_flatMap_mapM (m := fun p : Bytes × ℕ => emitInput paths (known p.2) p.1)
    (f := stringRef.write) (g := fun _ => 16) (fun _ _ => length_write_stringRef _)
    (st.depfileInputs.getD []).zipIdx
  refine congrArg (72 + ·) ((hrefs _).trans ?_)
  simp

/-- The records fill the buffer. -/
theorem length_write_emitRecords (known : ℕ → ℕ → Bool) (image : CacheImage) (sb : StringBuffer) :
    (emitRecords known image sb).1.write.length = recordsSize image := by
  rw [Records.write, List.length_append, List.length_append, recordsSize]
  congr 1
  · congr 1
    · refine (length_flatMap_mapM (g := fun _ => 32)
        (fun e sb => length_write_definition (emitDefinition e sb).1) _ _).trans ?_
      simp
    · exact length_flatMap_mapM length_emitNode _ _
  · refine (length_flatMap_mapM (fun p sb => length_emitStep _ _ p.1 sb) _ _).trans ?_
    have hfst : (image.steps.zipIdx.map Prod.fst).map
        (fun st : CachedStep => 72 + (st.depfileInputs.getD []).length * 16) =
          image.steps.zipIdx.map fun p => 72 + (p.1.depfileInputs.getD []).length * 16 :=
      List.map_map
    rw [← hfst, List.zipIdx_map_fst]

end Sizes

/-! ### The records show the image -/

section Shows

variable {pool : Bytes} {image : CacheImage}

/-- A word below `2^64 / k` times `k` does not wrap. -/
theorem toNat_ofNat_mul {n : ℕ} {k : UInt64} (h : n * k.toNat < 2 ^ 64) (hk : 0 < k.toNat) :
    (UInt64.ofNat n * k).toNat = n * k.toNat := by
  have hn : n < 2 ^ 64 := (Nat.le_mul_of_pos_right n hk).trans_lt h
  rw [UInt64.toNat_mul, toNat_ofNat hn, Nat.mod_eq_of_lt h]

theorem ofNat_ne_noValue {n : ℕ} (h : n + 1 < 2 ^ 64) : UInt64.ofNat n ≠ noValue := by
  intro heq
  have hval := congrArg UInt64.toNat heq
  rw [toNat_ofNat (by omega)] at hval
  have hno : noValue.toNat = 2 ^ 64 - 1 := by decide
  omega

namespace BinNode.Shows

variable {r : BinNode} {n : Node}

theorem length_edges (h : r.Shows pool n) : r.edges.length = n.outEdges.length * 8 := by
  rw [h.edges, length_flatMap_of_const length_write_word, List.length_map]

theorem edgeCount_toNat (h : r.Shows pool n) (hsize : n.outEdges.length * 8 < 2 ^ 64) :
    r.edgeCount.toNat = n.outEdges.length := by
  rw [h.edgeCount, toNat_ofNat (by omega)]

theorem valid (h : r.Shows pool n) (hsize : n.outEdges.length * 8 < 2 ^ 64) : node.Valid r := by
  rw [valid_node, h.length_edges, edgeBytes, h.edgeCount]
  exact (toNat_ofNat_mul (k := 8) hsize (by decide)).symm

theorem edgeList_eq (h : r.Shows pool n) (hsize : n.outEdges.length * 8 < 2 ^ 64)
    (hedge : ∀ v ∈ n.outEdges, v < 2 ^ 64) : r.edgeList = n.outEdges := by
  have hread : (word.many r.edgeCount.toNat).read r.edges =
      some (n.outEdges.map UInt64.ofNat, []) := by
    rw [(word.many _).read_eq_some, List.append_nil]
    exact ⟨⟨by simp [h.edgeCount_toNat hsize], fun _ _ => trivial⟩, h.edges⟩
  rw [edgeList, hread, Option.map_some, Option.getD_some, List.map_map]
  exact (List.map_congr_left fun v hv => toNat_ofNat (hedge v hv)).trans (List.map_id _)

theorem step?_eq (h : r.Shows pool n) (hid : ∀ k, n.stepId = some k → k + 1 < 2 ^ 64) :
    r.step? = n.stepId := by
  rw [step?, h.stepId]
  cases hk : n.stepId with
  | none => rfl
  | some k =>
    have hlt := hid k hk
    simp only [Option.map_some, Option.getD_some, if_neg (ofNat_ne_noValue hlt)]
    rw [toNat_ofNat (by omega)]

end BinNode.Shows

/-- Lists whose elements are related by functions. -/
theorem map_eq_of_forall₂ {α β γ : Type} {R : α → β → Prop} {f : β → γ} {g : α → γ}
    {l : List α} {l' : List β} (h : List.Forall₂ R l l') (hf : ∀ a ∈ l, ∀ b, R a b → f b = g a) :
    l'.map f = l.map g := by
  induction h with
  | nil => rfl
  | cons hab _ ih =>
    rw [List.map_cons, List.map_cons, hf _ List.mem_cons_self _ hab,
      ih fun a ha => hf a (List.mem_cons_of_mem _ ha)]

namespace BinStep.Shows

variable {r : BinStep} {st : CachedStep}

theorem readable (h : r.Shows pool st)
    (hsize : (st.depfileInputs.getD []).length * 16 < 2 ^ 64) : r.Readable pool := by
  obtain ⟨refs, hrefs, hshow⟩ := h.refs
  refine ⟨?_, ⟨h.inputs.1, h.output.1, h.extraFlags.1⟩, ?_⟩
  · rw [valid_step, hrefs, length_flatMap_of_const length_write_stringRef, ← hshow.length_eq,
      h.depfileCount, refBytes]
    refine ⟨h.padding, ?_⟩
    cases hdep : st.depfileInputs with
    | none => simp
    | some l =>
      rw [hdep, Option.getD_some] at hsize
      simp only [Option.map_some, Option.getD_some, if_neg (ofNat_ne_noValue (n := l.length)
        (by omega))]
      exact (toNat_ofNat_mul (k := 16) hsize (by decide)).symm
  · simp [h.tool]

/-- The references of the step are those that were written. -/
theorem exists_refList (h : r.Shows pool st)
    (hsize : (st.depfileInputs.getD []).length * 16 < 2 ^ 64) {l : List Bytes}
    (hdep : st.depfileInputs = some l) :
    r.depfileCount.toNat = l.length ∧ r.depfileCount ≠ noValue ∧ r.refs.length = l.length * 16 ∧
      List.Forall₂ (fun s ref => StringRef.Shows ref pool s) l r.refList := by
  obtain ⟨refs, hrefs, hshow⟩ := h.refs
  have hcount := h.depfileCount
  rw [hdep] at hcount hshow hsize
  simp only [Option.map_some, Option.getD_some] at hcount hshow hsize
  have hnat : r.depfileCount.toNat = l.length := by rw [hcount, toNat_ofNat (by omega)]
  have hread : (stringRef.many r.depfileCount.toNat).read r.refs = some (refs, []) := by
    rw [(stringRef.many _).read_eq_some, List.append_nil]
    exact ⟨⟨by rw [hnat, hshow.length_eq], fun ref _ => valid_stringRef ref⟩, hrefs⟩
  refine ⟨hnat, ?_, ?_, ?_⟩
  · rw [hcount]
    exact ofNat_ne_noValue (by omega)
  · rw [hrefs, length_flatMap_of_const length_write_stringRef, hshow.length_eq]
  · rw [refList, hread]
    exact hshow

theorem cached_eq (h : r.Shows pool st)
    (hsize : (st.depfileInputs.getD []).length * 16 < 2 ^ 64) : r.cached pool = some st := by
  have hdep : r.depfileInputs pool = st.depfileInputs := by
    unfold BinStep.depfileInputs
    cases hst : st.depfileInputs with
    | none => simp [h.depfileCount, hst]
    | some l =>
      obtain ⟨-, hno, -, hshow⟩ := h.exists_refList hsize hst
      rw [if_neg hno]
      rw [map_eq_of_forall₂ (g := id) hshow fun s _ ref hs => hs.2, List.map_id]
  rw [BinStep.cached, h.tool, toolOfByte_byteOfTool, Option.map_some, hdep, h.inputs.2,
    h.output.2, h.extraFlags.2, h.commandHash]

end BinStep.Shows

/-- The numbers in an image are those of its nodes and steps. -/
structure Indexed (image : CacheImage) : Prop where
  edge : ∀ n ∈ image.nodes, ∀ v ∈ n.outEdges, v < image.nodes.length
  stepId : ∀ n ∈ image.nodes, ∀ k, n.stepId = some k → k < image.steps.length

/-- What the size of the records bounds. -/
structure Bounded (image : CacheImage) : Prop where
  definitions : image.definitions.length < 2 ^ 64
  nodes : image.nodes.length < 2 ^ 64
  steps : image.steps.length + 1 < 2 ^ 64
  edges : ∀ n ∈ image.nodes, n.outEdges.length * 8 < 2 ^ 64
  inputs : ∀ st ∈ image.steps, (st.depfileInputs.getD []).length * 16 < 2 ^ 64

theorem bounded_of_recordsSize (h : recordsSize image < 2 ^ 64) : Bounded image := by
  unfold recordsSize at h
  have hnodes : image.nodes.length * 32 ≤
      (image.nodes.map fun n => 16 + 2 * 8 + n.outEdges.length * 8).sum := by
    rw [← List.length_map (f := fun n : Node => 16 + 2 * 8 + n.outEdges.length * 8)]
    exact List.card_nsmul_le_sum _ 32 (by simp)
  have hsteps : image.steps.length * 72 ≤
      (image.steps.map fun st => 72 + (st.depfileInputs.getD []).length * 16).sum := by
    rw [← List.length_map
      (f := fun st : CachedStep => 72 + (st.depfileInputs.getD []).length * 16)]
    exact List.card_nsmul_le_sum _ 72 (by simp)
  refine ⟨by omega, by omega, by omega, fun n hn => ?_, fun st hst => ?_⟩
  · have hle := List.le_sum_of_mem
      (List.mem_map_of_mem (f := fun n : Node => 16 + 2 * 8 + n.outEdges.length * 8) hn)
    omega
  · have hle := List.le_sum_of_mem (List.mem_map_of_mem
      (f := fun st : CachedStep => 72 + (st.depfileInputs.getD []).length * 16) hst)
    omega

/-- Related lists have related elements. -/
theorem exists_of_mem_right {α β : Type} {R : α → β → Prop} {l : List α} {l' : List β}
    (h : List.Forall₂ R l l') {b : β} (hb : b ∈ l') : ∃ a ∈ l, R a b := by
  induction h with
  | nil => simp at hb
  | cons hab _ ih =>
    rcases List.mem_cons.mp hb with rfl | hb
    · exact ⟨_, List.mem_cons_self, hab⟩
    · obtain ⟨a, ha, hr⟩ := ih hb
      exact ⟨a, List.mem_cons_of_mem _ ha, hr⟩

namespace Records.Shows

variable {r : Records}

theorem readable (h : r.Shows pool image) (hb : Bounded image) : r.Readable pool := by
  refine ⟨fun d hd => ?_, fun n' hn' => ?_, fun st' hst' => ?_⟩
  · obtain ⟨e, -, he⟩ := exists_of_mem_right h.definitions hd
    exact ⟨he.1.1, he.2.1⟩
  · obtain ⟨n, hn, hshow⟩ := exists_of_mem_right h.nodes hn'
    exact ⟨hshow.valid (hb.edges n hn), hshow.path.1⟩
  · obtain ⟨st, hst, hshow⟩ := exists_of_mem_right h.steps hst'
    exact hshow.readable (hb.inputs st hst)

/-- The records show the image they were written for. -/
theorem image_eq (h : r.Shows pool image) (hb : Bounded image) (hi : Indexed image) :
    r.image pool = image := by
  have hdefs : r.definitionTexts pool = image.definitions := by
    refine (map_eq_of_forall₂ (g := id) h.definitions fun e _ d hd => ?_).trans (List.map_id _)
    exact Prod.ext hd.1.2 hd.2.2
  have hnodes : (r.nodes.map fun n => (⟨n.path.text pool, n.edgeList, n.step?⟩ : Node)) =
      image.nodes := by
    refine (map_eq_of_forall₂ (g := id) h.nodes fun n hn n' hshow => ?_).trans (List.map_id _)
    -- neither an edge nor a step index is the value that stands for none
    have hedges : n'.edgeList = n.outEdges := by
      apply hshow.edgeList_eq (hb.edges n hn)
      exact fun v hv => (hi.edge n hn v hv).trans hb.nodes
    have hid : n'.step? = n.stepId := by
      apply hshow.step?_eq
      intro k hk
      exact (Nat.succ_le_of_lt (Nat.succ_lt_succ (hi.stepId n hn k hk))).trans hb.steps.le
    rw [hshow.path.2, hedges, hid]
    rfl
  have hsteps : (r.steps.filterMap fun st => st.cached pool) = image.steps := by
    have hmap := map_eq_of_forall₂ (g := some) h.steps fun st hst st' hshow =>
      hshow.cached_eq (hb.inputs st hst)
    calc (r.steps.filterMap fun st => st.cached pool)
        = (r.steps.map fun st => st.cached pool).filterMap id := by
          rw [List.filterMap_map]
          rfl
      _ = (image.steps.map some).filterMap id := by rw [hmap]
      _ = image.steps.filterMap some := List.filterMap_map
      _ = image.steps := List.filterMap_some
  rw [Records.image, hdefs, hnodes, hsteps]

/-- A file that was emitted can be trusted. -/
theorem inside (h : r.Shows pool image) (hb : Bounded image) (hi : Indexed image) :
    r.Inside pool := by
  have hnumNodes := h.nodes.length_eq
  have hnumSteps := h.steps.length_eq
  refine ⟨fun n' hn' => ?_, fun n' hn' v hv => ?_, fun n' hn' k hk => ?_, fun st' hst' hno => ?_⟩
  · obtain ⟨n, hn, hshow⟩ := exists_of_mem_right h.nodes hn'
    rw [hshow.edgeCount_toNat (hb.edges n hn), hshow.length_edges]
  · obtain ⟨n, hn, hshow⟩ := exists_of_mem_right h.nodes hn'
    rw [hshow.edgeList_eq (hb.edges n hn) fun w hw => (hi.edge n hn w hw).trans hb.nodes] at hv
    exact hnumNodes ▸ hi.edge n hn v hv
  · obtain ⟨n, hn, hshow⟩ := exists_of_mem_right h.nodes hn'
    have hid : ∀ k, n.stepId = some k → k + 1 < 2 ^ 64 := fun k hk =>
      (Nat.succ_le_of_lt (Nat.succ_lt_succ (hi.stepId n hn k hk))).trans hb.steps.le
    rw [hshow.step?_eq hid] at hk
    exact hnumSteps ▸ hi.stepId n hn k hk
  · obtain ⟨st, hst, hshow⟩ := exists_of_mem_right h.steps hst'
    cases hdep : st.depfileInputs with
    | none => exact absurd (by simp [hshow.depfileCount, hdep]) hno
    | some l =>
      obtain ⟨hcount, -, hlen, hall⟩ := hshow.exists_refList (hb.inputs st hst) hdep
      refine ⟨by rw [hcount, hlen], fun ref href => ?_⟩
      obtain ⟨s, -, hs⟩ := exists_of_mem_right hall href
      exact hs.1

end Records.Shows

end Shows

/-! ### The file -/

/-- The records and the pool of an image. -/
def recordsOf (image : CacheImage) : Records × StringBuffer :=
  emitRecords (fun _ _ => false) image .empty

/-- The bytes of an image. -/
def fileOf (rapidHash : Bytes → UInt64 → UInt64) (image : CacheImage) : Bytes :=
  sealFile rapidHash (emitHeader image (recordsOf image).2.data)
    ((recordsOf image).1.write ++ (recordsOf image).2.data)

/-- The bytes behind the header. -/
def payloadSize (image : CacheImage) : ℕ := recordsSize image + (recordsOf image).2.data.length

section File

variable {rapidHash : Bytes → UInt64 → UInt64} {known : ℕ → ℕ → Bool} {memory : UInt64}
  {b : COBBuilder} {image : CacheImage}

/-- `emitBin` gives the bytes of the image, or runs out of memory. -/
theorem emitBin_eq (h : Cob.emitBin b = .ok image) :
    emitBin rapidHash known memory b =
      if memory.toNat < payloadSize image + 1 then .failed outOfMemory
      else .done (fileOf rapidHash image) := by
  have hrun : (emitRecords known image).run .empty = recordsOf image :=
    emitRecords_eq known image .empty
  have hlen : (recordsOf image).1.write.length = recordsSize image :=
    length_write_emitRecords _ image .empty
  have hfit : recordsSize image ≤ payloadSize image := Nat.le_add_right _ _
  simp only [emitBin, h, hrun, hlen, ne_eq, not_true_eq_false, if_false]
  by_cases hmem : memory.toNat < recordsSize image + 1
  · rw [if_pos hmem, if_pos (by omega)]
  · rw [if_neg hmem]
    rfl

/-- The records of an image show it. -/
theorem shows_recordsOf (hsize : payloadSize image < 2 ^ 64) :
    (recordsOf image).1.Shows (recordsOf image).2.data image := by
  have hpool : (recordsOf image).2.data.length < 2 ^ 64 :=
    (Nat.le_add_left _ _).trans_lt hsize
  have hsound : StringBuffer.empty.Sound (recordsOf image).2.data := by
    intro e he
    simp [StringBuffer.empty] at he
  exact ((emits_records hpool image .empty).2 hsound List.prefix_rfl).2

/-- The bytes of an image are loaded as the image. -/
theorem parseBin_fileOf (hsize : payloadSize image < 2 ^ 64) (hi : Indexed image) :
    ∃ r pool, r.Inside pool ∧
      parseBin rapidHash (fileOf rapidHash image) b = .loaded r pool (Cob.parseBin image b) := by
  have hshow := shows_recordsOf hsize
  have hb : Bounded image := bounded_of_recordsSize ((Nat.le_add_right _ _).trans_lt hsize)
  set r := (recordsOf image).1
  set pool := (recordsOf image).2.data with hpoolDef
  have hpool : (UInt64.ofNat pool.length).toNat = pool.length :=
    toNat_ofNat ((Nat.le_add_left _ _).trans_lt hsize)
  have hstrings : (emitHeader image pool).stringsSize.toNat ≤ (r.write ++ pool).length := by
    rw [List.length_append]
    exact hpool.le.trans (Nat.le_add_left _ _)
  -- the pool is at the end of the payload
  have hend : (emitHeader image pool).pool (r.write ++ pool) = pool := by
    rw [BinHeader.pool, emitHeader, hpool, List.length_append, Nat.add_sub_cancel,
      List.drop_left]
  have hcount : r.Counted (emitHeader image pool) := by
    refine ⟨?_, ?_⟩
    · rw [← hshow.definitions.length_eq, emitHeader, toNat_ofNat hb.definitions]
    · rw [← hshow.nodes.length_eq, emitHeader, toNat_ofNat hb.nodes]
  have hsteps : r.steps.length = (emitHeader image pool).numSteps.toNat := by
    have hle := hb.steps
    rw [← hshow.steps.length_eq, emitHeader, toNat_ofNat (by omega)]
  refine ⟨r, pool, hshow.inside hb hi, ?_⟩
  have hload : parseRecords (emitHeader image pool) (r.write ++ pool) b =
      .loaded r pool (Cob.parseBin image b) :=
    parseRecords_eq_loaded.mpr ⟨hend, ⟨hcount, hsteps⟩, hshow.readable hb, ⟨pool, rfl⟩,
      by rw [hshow.image_eq hb hi]⟩
  exact (parseBin_sealFile rapidHash rfl rfl hstrings).trans hload

end File

end CacheFile

/-! ### Builders -/

/-- The builders that `addDefinition` and `addStep` make. As every caller does, the inputs of a
step are passed in its inputs column alone; dependency-file inputs and the command hash are
arbitrary. -/
inductive COBBuilder.Reached : COBBuilder → Prop
  | empty : Reached .empty
  | addDefinition {b : COBBuilder} (key value : Bytes) :
      Reached b → Reached (b.addDefinition key value)
  | addStep {b b' : COBBuilder} {read : Bytes → Option Bytes} {step : BuildStep} : Reached b →
      step.opaqueInputs = none → step.parsedInputs = [] → b.addStep read step = .ok b' →
        Reached b'

section Reached

variable {b : COBBuilder} {g g' h h' : BuildGraph} {read : Bytes → Option Bytes}
  {step : BuildStep}

namespace BuildGraph

/-- The graphs differ in their steps only, and have as many. -/
structure SameNodes (g h : BuildGraph) : Prop where
  nodes : g.nodes = h.nodes
  index : g.index = h.index
  steps : g.steps.length = h.steps.length

theorem SameNodes.getOrCreateNode (hs : g.SameNodes h) (p : Bytes) :
    (g.getOrCreateNode p).1.SameNodes (h.getOrCreateNode p).1 ∧
      (g.getOrCreateNode p).2 = (h.getOrCreateNode p).2 := by
  have hfind : g.findNode p = h.findNode p := by rw [findNode, findNode, hs.index]
  unfold BuildGraph.getOrCreateNode
  rw [hfind]
  cases h.findNode p with
  | some i => exact ⟨hs, rfl⟩
  | none => exact ⟨⟨by simp [hs.nodes], by simp [hs.index, hs.nodes], hs.steps⟩, by rw [hs.nodes]⟩

theorem SameNodes.addInputs (hs : g.SameNodes h) (out : ℕ) (paths : List Bytes) :
    (g.addInputs out paths).SameNodes (h.addInputs out paths) := by
  unfold BuildGraph.addInputs
  induction paths generalizing g h with
  | nil => exact hs
  | cons p paths ih =>
    obtain ⟨hs', hid⟩ := hs.getOrCreateNode p
    refine ih ⟨?_, hs'.index, hs'.steps⟩
    rw [addInput, addInput, pushEdge, pushEdge, hid, hs'.nodes]

/-- Dependency-file inputs that are passed to `addStep`, and the command hash, have no part in
the nodes. -/
theorem SameNodes.addStep (hs : g.SameNodes h) (hplain : step.opaqueInputs = none)
    (hparsed : step.parsedInputs = []) (hadd : g.addStep read step = .ok g') :
    ∃ h', h.addStep read step.columns = .ok h' ∧ g'.SameNodes h' := by
  -- the columns of the step split into the inputs it was split into before
  have hsplit : step.splitInputs = { step.columns.splitInputs with
      depfileInputs := step.depfileInputs, commandHash := step.commandHash } := by
    rw [← splitInputs_with]
    congr 1
    obtain ⟨_, _, _, _, _, _, _, _⟩ := step
    simp only at hplain hparsed
    subst hplain hparsed
    rfl
  have hout : step.columns.output = step.output := rfl
  obtain ⟨hcreate, hid⟩ := hs.getOrCreateNode step.output
  simp only [BuildGraph.addStep, hsplit, hout] at hadd ⊢
  rw [hcreate.nodes, hid] at hadd
  split_ifs at hadd ⊢ with hdup
  obtain rfl := Except.ok.inj hadd
  refine ⟨_, rfl, ?_⟩
  refine SameNodes.addInputs (SameNodes.addInputs (SameNodes.addInputs ?_ _ _) _ _) _ _
  refine ⟨?_, hcreate.index, ?_⟩
  · simp only [setStepId, hcreate.nodes, hcreate.steps]
  · simp only [List.length_append, List.length_singleton, hcreate.steps]

end BuildGraph

namespace COBBuilder

/-- `addStep` of a builder is that of its graph. -/
theorem exists_graph_of_addStep {b' : COBBuilder} (hadd : b.addStep read step = .ok b') :
    ∃ g', b.graph.addStep read step = .ok g' ∧ { b with graph := g' } = b' := by
  cases hg : b.graph.addStep read step with
  | error _ => simp [COBBuilder.addStep, hg, Except.map] at hadd
  | ok g' => exact ⟨g', rfl, by simpa [COBBuilder.addStep, hg, Except.map] using hadd⟩

/-- The nodes of a builder are those of a graph built from the columns of its steps. -/
theorem Reached.exists_built (hb : b.Reached) : ∃ h, h.Built ∧ b.graph.SameNodes h := by
  induction hb with
  | empty => exact ⟨.empty, .empty, rfl, rfl, rfl⟩
  | addDefinition key value _ ih => exact ih
  | @addStep b b' read step _ hplain hparsed hadd ih =>
    obtain ⟨h, hbuilt, hs⟩ := ih
    obtain ⟨g', hg, rfl⟩ := exists_graph_of_addStep hadd
    obtain ⟨h', hadd', hs'⟩ := hs.addStep hplain hparsed hg
    exact ⟨h', hbuilt.addStep rfl hadd', hs'⟩

/-- The steps of a builder are split as the cache splits them. -/
theorem Reached.resplit_eq (hb : b.Reached) : ∀ st ∈ b.graph.steps, st.resplit = st := by
  induction hb with
  | empty => simp [COBBuilder.empty, BuildGraph.empty]
  | addDefinition key value _ ih => exact ih
  | @addStep b b' read step _ hplain hparsed hadd ih =>
    obtain ⟨g', hg, rfl⟩ := exists_graph_of_addStep hadd
    intro st hst
    rw [BuildGraph.steps_addStep hg] at hst
    rcases List.mem_append.mp hst with hst | hst
    · exact ih st hst
    · obtain rfl := List.mem_singleton.mp hst
      exact resplit_liveStep hplain hparsed

/-- The index of a builder lists its nodes. -/
theorem Reached.listed (hb : b.Reached) : b.graph.Listed := by
  induction hb with
  | empty => rfl
  | addDefinition key value _ ih => exact ih
  | @addStep b b' read step _ hplain hparsed hadd ih =>
    obtain ⟨g', hg, rfl⟩ := exists_graph_of_addStep hadd
    exact ih.addStep hg

/-- A builder with supported tools can be stored. -/
theorem Reached.exists_emitBin (hb : b.Reached)
    (htools : ∀ st ∈ b.graph.steps, (toolKindFromString st.tool).isSome) :
    ∃ image, Cob.emitBin b = .ok image ∧ Cob.parseBin image .empty = b ∧
      CacheFile.Indexed image := by
  obtain ⟨image, himage⟩ := Cob.exists_emitBin htools
  obtain ⟨h, hbuilt, hs⟩ := hb.exists_built
  have hwf := hbuilt.wellFormed
  have hround : Cob.parseBin image .empty = b :=
    parseBin_emitBin ⟨hb.listed, hb.resplit_eq⟩ himage
  -- the nodes of a builder that was loaded are those of a graph built from columns
  have hnodes : image.nodes = h.nodes :=
    (congrArg (fun b : COBBuilder => b.graph.nodes) hround).trans hs.nodes
  have hsteps : image.steps.length = h.steps.length := by
    rw [← hs.steps, ← hround]
    exact (List.length_map _).symm
  refine ⟨image, himage, hround, ⟨fun n hn v hv => ?_, fun n hn k hk => ?_⟩⟩
  · rw [hnodes] at hn ⊢
    obtain ⟨u, hu⟩ := List.mem_iff_getElem?.mp hn
    exact (hwf.linked.edge_lt ⟨n, hu, hv⟩).2
  · rw [hnodes] at hn
    obtain ⟨u, hu⟩ := List.mem_iff_getElem?.mp hn
    have hid : h.stepIdOf u = some k := by rw [BuildGraph.stepIdOf, hu, Option.bind_some, hk]
    obtain ⟨st, hst, -⟩ := hwf.step_of_node u k hid
    rw [hsteps]
    exact (List.getElem?_eq_some_iff.mp hst).1

/-- Looking up the path of a node gives the node. -/
theorem Reached.findNode_eq (hb : b.Reached) {i : ℕ} {n : Node} (hn : b.graph.nodes[i]? = some n) :
    b.graph.findNode n.path = some i := by
  obtain ⟨h, hbuilt, hs⟩ := hb.exists_built
  rw [hs.nodes] at hn
  rw [BuildGraph.findNode, hs.index]
  exact (hbuilt.wellFormed.indexed n.path i).mpr (by rw [BuildGraph.pathOf, hn, Option.map_some])

end COBBuilder

/-- Unless memory runs out, `emitBin` writes a file from which `parseBin` loads the builder again,
with all its references inside the file; the index of the builder knows its nodes, and the file of
the builder that was loaded is the same. -/
theorem parseBin_of_emitBin {rapidHash : Bytes → UInt64 → UInt64} {known : ℕ → ℕ → Bool}
    {memory : UInt64} (hb : b.Reached) (htools : ∀ st ∈ b.graph.steps, st.tool ∈ supportedTools)
    (hmem : CacheFile.emitBin rapidHash known memory b ≠ .failed CacheFile.outOfMemory) :
    ∃ content, CacheFile.emitBin rapidHash known memory b = .done content ∧
      (∃ r pool, CacheFile.parseBin rapidHash content .empty = .loaded r pool b ∧
        r.Inside pool) ∧
      (∀ i n, b.graph.nodes[i]? = some n → b.graph.findNode n.path = some i) ∧
      ∀ known memory, CacheFile.emitBin rapidHash known memory b ≠ .failed CacheFile.outOfMemory →
        CacheFile.emitBin rapidHash known memory b = .done content := by
  obtain ⟨image, himage, hround, hi⟩ := hb.exists_emitBin fun st hst =>
    isSome_toolKindFromString_iff.mpr (htools st hst)
  -- memory is the only reason for which emitting can fail here
  have hdone : ∀ known memory,
      CacheFile.emitBin rapidHash known memory b ≠ .failed CacheFile.outOfMemory →
        CacheFile.payloadSize image < memory.toNat ∧
          CacheFile.emitBin rapidHash known memory b =
            .done (CacheFile.fileOf rapidHash image) := by
    intro known memory hmem
    rw [CacheFile.emitBin_eq himage] at hmem ⊢
    split_ifs at hmem ⊢ with hsize
    · exact absurd rfl hmem
    · exact ⟨by omega, rfl⟩
  obtain ⟨hsize, hcontent⟩ := hdone known memory hmem
  have hfile : ∃ r pool, r.Inside pool ∧
      CacheFile.parseBin rapidHash (CacheFile.fileOf rapidHash image) .empty =
        .loaded r pool (Cob.parseBin image .empty) :=
    CacheFile.parseBin_fileOf (hsize.trans memory.toNat_lt) hi
  obtain ⟨r, pool, hinside, hload⟩ := hfile
  rw [hround] at hload
  exact ⟨_, hcontent, ⟨r, pool, hload, hinside⟩, fun i n hn => hb.findNode_eq hn,
    fun known memory hmem => (hdone known memory hmem).2⟩

/-- A step with a dependency file, an opaque input and a command hash. -/
def hashedStep : BuildStep where
  tool := ascii "cc"
  inputs := ascii "a.c,!a.cfg,"
  output := ascii "a.o"
  depfileInputs := some [ascii "a.h", ascii "a.c"]
  commandHash := 7

/-- A builder with that step and a definition. -/
def hashedBuilder : COBBuilder :=
  (((COBBuilder.empty.addDefinition (ascii "cc") (ascii "clang")).addStep (fun _ => none)
    hashedStep).toOption).getD .empty

/-- Storing and loading that builder. -/
theorem parseBin_of_emitBin_hashedBuilder :
    ∃ content, CacheFile.emitBin (fun _ _ => 0) (fun _ _ => true) 4096 hashedBuilder =
        .done content ∧
      (∃ r pool, CacheFile.parseBin (fun _ _ => 0) content .empty = .loaded r pool hashedBuilder ∧
        r.Inside pool) ∧
      (∀ i n, hashedBuilder.graph.nodes[i]? = some n →
        hashedBuilder.graph.findNode n.path = some i) ∧
      ∀ known memory, CacheFile.emitBin (fun _ _ => 0) known memory hashedBuilder ≠
          .failed CacheFile.outOfMemory →
        CacheFile.emitBin (fun _ _ => 0) known memory hashedBuilder = .done content := by
  have hadd : (COBBuilder.empty.addDefinition (ascii "cc") (ascii "clang")).addStep
      (fun _ => none) hashedStep = .ok hashedBuilder := by rfl
  refine parseBin_of_emitBin (.addStep (.addDefinition _ _ .empty) rfl rfl hadd) ?_ ?_
  · decide +kernel
  · decide +kernel

/-- A step that comes with an input that its inputs column does not name. -/
def parsedStep : BuildStep where
  tool := ascii "ld"
  inputs := ascii "m.o"
  output := ascii "app"
  parsedInputs := [ascii "x.o"]

/-- The builder with that step alone. -/
def parsedBuilder : COBBuilder :=
  ((COBBuilder.empty.addStep (fun _ => none) parsedStep).toOption).getD .empty

/-- The builder is loaded again from the file that is written for it. -/
def reloads (b : COBBuilder) : Bool :=
  match CacheFile.emitBin (fun _ _ => 0) (fun _ _ => true) 4096 b with
  | .fault => true
  | .failed _ => true
  | .done content =>
    match CacheFile.parseBin (fun _ _ => 0) content .empty with
    | .loaded _ _ b' => decide (b' = b)
    | _ => false

/-- The inputs of a step are read back from its inputs column, whatever it came with. -/
theorem not_parseBin_of_emitBin : ¬ ∀ (rapidHash : Bytes → UInt64 → UInt64)
    (known : ℕ → ℕ → Bool) (memory : UInt64) (read : Bytes → Option Bytes) (step : BuildStep)
    (b : COBBuilder) (content : Bytes), COBBuilder.empty.addStep read step = .ok b →
    step.tool ∈ supportedTools → CacheFile.emitBin rapidHash known memory b = .done content →
    ∃ r pool, CacheFile.parseBin rapidHash content .empty = .loaded r pool b := by
  intro hall
  have hadd : COBBuilder.empty.addStep (fun _ => none) parsedStep = .ok parsedBuilder := by rfl
  have hnot : reloads parsedBuilder = false := by decide +kernel
  unfold reloads at hnot
  split at hnot
  · cases hnot
  · cases hnot
  · next content hcontent =>
    obtain ⟨r, pool, hload⟩ := hall _ _ _ _ _ _ content hadd (by decide +kernel) hcontent
    rw [hload] at hnot
    simp at hnot

end Reached

end Cob
