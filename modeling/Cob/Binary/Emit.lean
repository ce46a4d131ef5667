import Cob.Binary.Load

/-!
# Emitting the cache file

`emitBin` down to the bytes of `.catalyst.bin`. Strings go through the `StringBuffer`, which holds
each of them once; paths of dependency-file inputs may be found in the `AddressCache` instead, by
their address. Addresses are not modelled: `known` says which inputs are views of a node's path.
The size of the records is computed before they are written, and `malloc` fails beyond `memory`
bytes.

The module introduces:

* `StringBuffer` — the pool under construction;
* `emitRecords` — the records and the pool of an image;
* `emitBin` — the contents of the file;
* `Emits` — what a computation over the pool adds to it, with rules for sequences and loops.
-/

namespace Cob

namespace CacheFile

open Codec

/-! ### The string buffer -/

/-- `StringBuffer`: the pool and the references handed out for it. -/
structure StringBuffer where
  data : Bytes
  cache : List (Bytes × StringRef)

namespace StringBuffer

/-- A fresh buffer. -/
def empty : StringBuffer := ⟨[], []⟩

/-- `add`: a string that is there already is not appended again. -/
def add (s : Bytes) : StateM StringBuffer StringRef := fun sb =>
  match sb.cache.lookup s with
  | some ref => (ref, sb)
  | none =>
    let ref : StringRef := ⟨UInt64.ofNat sb.data.length, UInt64.ofNat s.length⟩
    (ref, ⟨sb.data ++ s, (s, ref) :: sb.cache⟩)

end StringBuffer

/-! ### The records -/

/-- The record of a definition. -/
def emitDefinition (e : Bytes × Bytes) : StateM StringBuffer BinDefinition := do
  let key ← StringBuffer.add e.1
  let val ← StringBuffer.add e.2
  return ⟨key, val⟩

/-- The record of a node. -/
def emitNode (n : Node) : StateM StringBuffer BinNode := do
  let path ← StringBuffer.add n.path
  return {
    path := path
    stepId := (n.stepId.map UInt64.ofNat).getD noValue
    edgeCount := UInt64.ofNat n.outEdges.length
    edges := (n.outEdges.map UInt64.ofNat).flatMap word.write }

/-- The reference of a dependency-file input: that of the node's path when the input is known by
its address, and that of the pool otherwise. -/
def emitInput (nodePaths : List (Bytes × StringRef)) (known : Bool) (input : Bytes) :
    StateM StringBuffer StringRef :=
  match if known then nodePaths.lookup input else none with
  | some ref => return ref
  | none => StringBuffer.add input

/-- The record of a step, behind which its references stand. -/
def emitStep (nodePaths : List (Bytes × StringRef)) (known : ℕ → Bool) (st : CachedStep) :
    StateM StringBuffer BinStep := do
  let inputs ← StringBuffer.add st.inputs
  let output ← StringBuffer.add st.output
  let extraFlags ← StringBuffer.add st.extraFlags
  let refs ← (st.depfileInputs.getD []).zipIdx.mapM fun p => emitInput nodePaths (known p.2) p.1
  return {
    inputs := inputs
    output := output
    extraFlags := extraFlags
    commandHash := st.commandHash
    -- no list at all is told apart from an empty one
    depfileCount := (st.depfileInputs.map fun l => UInt64.ofNat l.length).getD noValue
    tool := byteOfTool st.tool
    padding := List.replicate 7 0
    refs := refs.flatMap stringRef.write }

/-- The contents of the `AddressCache` after the nodes: their paths and the references of these. -/
def nodePaths (image : CacheImage) (nodes : List BinNode) : List (Bytes × StringRef) :=
  (image.nodes.map Node.path).zip (nodes.map BinNode.path)

/-- The records of an image; `known i j` says whether input `j` of step `i` is known by its
address. -/
def emitRecords (known : ℕ → ℕ → Bool) (image : CacheImage) : StateM StringBuffer Records := do
  let definitions ← image.definitions.mapM emitDefinition
  let nodes ← image.nodes.mapM emitNode
  let steps ← image.steps.zipIdx.mapM fun p => emitStep (nodePaths image nodes) (known p.2) p.1
  return ⟨definitions, nodes, steps⟩

/-- `records_size`, as it is computed up front. -/
def recordsSize (image : CacheImage) : ℕ :=
  image.definitions.length * 32 +
    (image.nodes.map fun n => 16 + 2 * 8 + n.outEdges.length * 8).sum +
      (image.steps.map fun st => 72 + (st.depfileInputs.getD []).length * 16).sum

/-! ### The file -/

/-- The header of records and a pool; its checksum is not known yet. -/
def emitHeader (image : CacheImage) (pool : Bytes) : BinHeader where
  magic := magic
  endianMarker := endianExpected
  numDefinitions := UInt64.ofNat image.definitions.length
  numNodes := UInt64.ofNat image.nodes.length
  numSteps := UInt64.ofNat image.steps.length
  stringsSize := UInt64.ofNat pool.length
  checksum := 0

/-- The error of a failed allocation. -/
def outOfMemory : Bytes := ascii "Cannot emit .catalyst.bin: out of memory"

/-- `emitBin` up to writing the file: its contents. A payload buffer that the records do not fill
exactly is a fault. -/
def emitBin (rapidHash : Bytes → UInt64 → UInt64) (known : ℕ → ℕ → Bool) (memory : UInt64)
    (b : COBBuilder) : Attempt Bytes :=
  match Cob.emitBin b with
  | .error message => .failed message
  | .ok image =>
    if memory.toNat < recordsSize image + 1 then .failed outOfMemory
    else
      let (records, sb) := (emitRecords known image).run .empty
      if records.write.length ≠ recordsSize image then .fault
      else if memory.toNat < recordsSize image + sb.data.length + 1 then .failed outOfMemory
      else .done (sealFile rapidHash (emitHeader image sb.data) (records.write ++ sb.data))

/-! ### What is added to the pool -/

/-- The reference shows the string in the pool. -/
def StringRef.Shows (r : StringRef) (pool s : Bytes) : Prop := r.InPool pool ∧ r.text pool = s

namespace StringBuffer

/-- The references of the buffer show their strings. -/
def Sound (sb : StringBuffer) (pool : Bytes) : Prop := ∀ e ∈ sb.cache, e.2.Shows pool e.1

/-- The second buffer has what the first one has, and more. -/
structure Extends (sb sb' : StringBuffer) : Prop where
  data : sb.data <+: sb'.data
  lookup : ∀ s ref, sb.cache.lookup s = some ref → sb'.cache.lookup s = some ref

theorem Extends.refl (sb : StringBuffer) : sb.Extends sb := ⟨List.prefix_rfl, fun _ _ h => h⟩

theorem Extends.trans {sb sb' sb'' : StringBuffer} (h : sb.Extends sb') (h' : sb'.Extends sb'') :
    sb.Extends sb'' :=
  ⟨h.data.trans h'.data, fun s ref hs => h'.lookup s ref (h.lookup s ref hs)⟩

end StringBuffer

/-- The computation extends the buffer; when all of it ends up in the pool, the references it
hands out are sound and its result satisfies `P`. -/
def Emits {α : Type} (pool : Bytes) (m : StateM StringBuffer α) (P : α → Prop) : Prop :=
  ∀ sb, sb.Extends (m sb).2 ∧
    (sb.Sound pool → (m sb).2.data <+: pool → (m sb).2.Sound pool ∧ P (m sb).1)

section Emits

/-- Numbers below `2^64` survive in a word. -/
theorem toNat_ofNat {n : ℕ} (h : n < 2 ^ 64) : (UInt64.ofNat n).toNat = n :=
  UInt64.toNat_ofNat_of_lt' h

variable {α β : Type} {pool : Bytes} {P : α → Prop} {Q : β → Prop}

theorem Emits.pure {a : α} (h : P a) : Emits pool (pure a : StateM StringBuffer α) P :=
  fun sb => ⟨.refl sb, fun hsound _ => ⟨hsound, h⟩⟩

theorem Emits.bind {m : StateM StringBuffer α} {f : α → StateM StringBuffer β}
    (hm : Emits pool m P) (hf : ∀ a, Emits pool (f a) fun b => P a → Q b) :
    Emits pool (m >>= f) Q := by
  intro sb
  have hfirst := hm sb
  have hsecond := hf (m sb).1 (m sb).2
  refine ⟨hfirst.1.trans hsecond.1, fun hsound hpool => ?_⟩
  obtain ⟨hsound', hP⟩ := hfirst.2 hsound (hsecond.1.data.trans hpool)
  obtain ⟨hsound'', hQ⟩ := hsecond.2 hsound' hpool
  exact ⟨hsound'', hQ hP⟩

/-- A loop emits what its rounds emit. -/
theorem Emits.mapM {f : α → StateM StringBuffer β} {R : α → β → Prop}
    (hf : ∀ a, Emits pool (f a) (R a)) (l : List α) :
    Emits pool (l.mapM f) (List.Forall₂ R l) := by
  induction l with
  | nil => exact Emits.pure .nil
  | cons a l ih =>
    rw [List.mapM_cons]
    refine Emits.bind (hf a) fun b => ?_
    refine Emits.bind ih fun bs => ?_
    exact Emits.pure fun hbs hb => .cons hb hbs

/-- A loop over numbered elements. -/
theorem Emits.mapM_zipIdx {f : α × ℕ → StateM StringBuffer β} {R : α → β → Prop}
    (hf : ∀ p, Emits pool (f p) (R p.1)) (l : List α) :
    Emits pool (l.zipIdx.mapM f) (List.Forall₂ R l) := by
  intro sb
  obtain ⟨hextends, hemits⟩ := Emits.mapM hf l.zipIdx sb
  refine ⟨hextends, fun hsound hpool => ?_⟩
  obtain ⟨hsound', hnumbered⟩ := hemits hsound hpool
  refine ⟨hsound', ?_⟩
  have hmap : List.Forall₂ R (l.zipIdx.map Prod.fst) _ := List.forall₂_map_left_iff.mpr hnumbered
  rwa [List.zipIdx_map_fst] at hmap

theorem extends_add (s : Bytes) (sb : StringBuffer) :
    sb.Extends (StringBuffer.add s sb).2 ∧
      (StringBuffer.add s sb).2.cache.lookup s = some (StringBuffer.add s sb).1 := by
  unfold StringBuffer.add
  cases hfind : sb.cache.lookup s with
  | some ref => exact ⟨.refl sb, hfind⟩
  | none =>
    refine ⟨⟨List.prefix_append _ _, fun s' ref hs' => ?_⟩, by simp⟩
    -- the new string is not one that was there
    have hne : s' ≠ s := by
      rintro rfl
      simp [hfind] at hs'
    simp [List.lookup_cons, beq_false_of_ne hne, hs']

/-- Adding a string gives a reference that shows it. -/
theorem emits_add (hpool : pool.length < 2 ^ 64) (s : Bytes) :
    Emits pool (StringBuffer.add s) fun ref => ref.Shows pool s := by
  intro sb
  refine ⟨(extends_add s sb).1, ?_⟩
  unfold StringBuffer.add
  cases hfind : sb.cache.lookup s with
  -- a string that was added before has its reference in the cache
  | some ref =>
    intro hsound _
    obtain ⟨l₁, l₂, hcache, -⟩ := List.lookup_eq_some_iff.mp hfind
    exact ⟨hsound, hsound (s, ref) (by simp [hcache])⟩
  | none =>
    rintro hsound ⟨rest, rfl⟩
    simp only [List.length_append] at hpool
    have hoffset : (UInt64.ofNat sb.data.length).toNat = sb.data.length :=
      toNat_ofNat (by omega)
    have hlen : (UInt64.ofNat s.length).toNat = s.length := toNat_ofNat (by omega)
    -- a new string stands at the end of the pool
    have hnew : StringRef.Shows ⟨UInt64.ofNat sb.data.length, UInt64.ofNat s.length⟩
        (sb.data ++ s ++ rest) s := by
      constructor
      · simp only [StringRef.InPool, hoffset, hlen, List.length_append]
        omega
      · simp [StringRef.text, hoffset, hlen]
    refine ⟨?_, hnew⟩
    intro e he
    rcases List.mem_cons.mp he with rfl | he
    · exact hnew
    · exact hsound e he

/-! ### What the records show -/

/-- The record shows the definition. -/
def BinDefinition.Shows (d : BinDefinition) (pool : Bytes) (e : Bytes × Bytes) : Prop :=
  d.key.Shows pool e.1 ∧ d.val.Shows pool e.2

/-- The record shows the node. -/
structure BinNode.Shows (r : BinNode) (pool : Bytes) (n : Node) : Prop where
  path : r.path.Shows pool n.path
  stepId : r.stepId = (n.stepId.map UInt64.ofNat).getD noValue
  edgeCount : r.edgeCount = UInt64.ofNat n.outEdges.length
  edges : r.edges = (n.outEdges.map UInt64.ofNat).flatMap word.write

/-- The record shows the step. -/
structure BinStep.Shows (r : BinStep) (pool : Bytes) (st : CachedStep) : Prop where
  inputs : r.inputs.Shows pool st.inputs
  output : r.output.Shows pool st.output
  extraFlags : r.extraFlags.Shows pool st.extraFlags
  commandHash : r.commandHash = st.commandHash
  depfileCount :
    r.depfileCount = (st.depfileInputs.map fun l => UInt64.ofNat l.length).getD noValue
  tool : r.tool = byteOfTool st.tool
  padding : r.padding.length = 7
  refs : ∃ refs : List StringRef, r.refs = refs.flatMap stringRef.write ∧
    List.Forall₂ (fun s ref => ref.Shows pool s) (st.depfileInputs.getD []) refs

/-- The records show the image. -/
structure Records.Shows (r : Records) (pool : Bytes) (image : CacheImage) : Prop where
  definitions : List.Forall₂ (fun e d => BinDefinition.Shows d pool e) image.definitions
    r.definitions
  nodes : List.Forall₂ (fun n r => BinNode.Shows r pool n) image.nodes r.nodes
  steps : List.Forall₂ (fun st r => BinStep.Shows r pool st) image.steps r.steps

variable (hpool : pool.length < 2 ^ 64)

include hpool in
theorem emits_definition (e : Bytes × Bytes) :
    Emits pool (emitDefinition e) fun d => d.Shows pool e := by
  refine Emits.bind (emits_add hpool e.1) fun key => ?_
  refine Emits.bind (emits_add hpool e.2) fun val => ?_
  exact Emits.pure fun hval hkey => ⟨hkey, hval⟩

include hpool in
theorem emits_node (n : Node) : Emits pool (emitNode n) fun r => r.Shows pool n := by
  refine Emits.bind (emits_add hpool n.path) fun path => ?_
  exact Emits.pure fun hpath => ⟨hpath, rfl, rfl, rfl⟩

include hpool in
/-- The record of a step whose inputs are all resolved by the buffer. -/
theorem emits_step (nodePaths : List (Bytes × StringRef)) (st : CachedStep) :
    Emits pool (emitStep nodePaths (fun _ => false) st) fun r => r.Shows pool st := by
  refine Emits.bind (emits_add hpool st.inputs) fun inputs => ?_
  refine Emits.bind (emits_add hpool st.output) fun output => ?_
  refine Emits.bind (emits_add hpool st.extraFlags) fun extraFlags => ?_
  refine Emits.bind (Emits.mapM_zipIdx (R := fun s ref => ref.Shows pool s)
    (fun p => emits_add hpool p.1) _) fun refs => ?_
  refine Emits.pure fun hrefs hflags houtput hinputs => ?_
  exact ⟨hinputs, houtput, hflags, rfl, rfl, rfl, by simp, refs, rfl, hrefs⟩

include hpool in
theorem emits_records (image : CacheImage) :
    Emits pool (emitRecords (fun _ _ => false) image) fun r => r.Shows pool image := by
  refine Emits.bind (Emits.mapM (emits_definition hpool) _) fun definitions => ?_
  refine Emits.bind (Emits.mapM (emits_node hpool) _) fun nodes => ?_
  refine Emits.bind (Emits.mapM_zipIdx (R := fun st r => BinStep.Shows r pool st)
    (fun p => emits_step hpool (nodePaths image nodes) p.1) _) fun steps => ?_
  exact Emits.pure fun hsteps hnodes hdefinitions => ⟨hdefinitions, hnodes, hsteps⟩

end Emits

end CacheFile

end Cob
