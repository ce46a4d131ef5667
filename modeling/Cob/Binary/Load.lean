import Cob.Binary.Layout
import Cob.Parser

/-!
# Loading the cache file

`parseBin` and the fall-back of `parse`, on the bytes of `.catalyst.bin`. The header is checked,
the records behind it are not: a record or a string outside the file is a `fault`, after which
nothing can be said. Edges and dependency-file references are only borrowed, so loading does not
look at them; `Records.Inside` says when they lie in the file too. That memory runs out is not
modelled, and `rapid_hash` is a parameter.

The module introduces:

* `parseHeader` — the checks of the header, in their order;
* `parseRecords`, `parseBin` — loading the records into a builder;
* `parse` — `parse` of a text next to a cache that is newer;
* `parseRecords_eq_loaded`, `parseRecords_eq_failed` — what loading finds, in terms of the layout.
-/

namespace Cob

namespace CacheFile

open Codec

/-! ### The header -/

/-- `MAGIC`. -/
def magic : Bytes := ascii "CATBL005"

/-- `EndianMarker::EXPECTED`. -/
def endianExpected : UInt64 := 0x0102030405060708

/-- `EndianMarker::BYTE_REVERSED`. -/
def endianReversed : UInt64 := 0x0807060504030201

/-- `calculateChecksum`: the payload is hashed with the hash of the header as its seed. -/
def calculateChecksum (rapidHash : Bytes → UInt64 → UInt64) (h : BinHeader) (payload : Bytes) :
    UInt64 :=
  rapidHash payload (rapidHash (header.write { h with checksum := 0 }) 0)

/-- The checks of `parse_header`, the header and the payload when all pass. -/
def parseHeader (rapidHash : Bytes → UInt64 → UInt64) (content : Bytes) :
    Except Bytes (BinHeader × Bytes) :=
  match header.read content with
  | none => .error (ascii "Malformed .catalyst.bin: too small for header")
  | some (h, payload) =>
    if h.magic ≠ magic then .error (ascii "Invalid magic or version in .catalyst.bin")
    else if h.endianMarker ≠ endianExpected then
      if h.endianMarker = endianReversed then
        .error (ascii "Incompatible endianness in .catalyst.bin")
      else .error (ascii "Invalid endianness marker in .catalyst.bin")
    else if calculateChecksum rapidHash h payload ≠ h.checksum then
      .error (ascii "Checksum mismatch in .catalyst.bin")
    else if payload.length < h.stringsSize.toNat then
      .error (ascii "Malformed .catalyst.bin: strings_size too large")
    else .ok (h, payload)

/-- The file of a header and a payload, with their checksum. -/
def sealFile (rapidHash : Bytes → UInt64 → UInt64) (h : BinHeader) (payload : Bytes) : Bytes :=
  header.write { h with checksum := calculateChecksum rapidHash h payload } ++ payload

/-- A file with the right checksum gets past the header when its other fields are right too. -/
theorem parseHeader_sealFile {rapidHash : Bytes → UInt64 → UInt64} {h : BinHeader}
    {payload : Bytes} (hmagic : h.magic = magic) (hendian : h.endianMarker = endianExpected)
    (hsize : h.stringsSize.toNat ≤ payload.length) :
    parseHeader rapidHash (sealFile rapidHash h payload) =
      .ok ({ h with checksum := calculateChecksum rapidHash h payload }, payload) := by
  have hvalid : header.Valid { h with checksum := calculateChecksum rapidHash h payload } :=
    valid_header.mpr (by rw [hmagic]; rfl)
  have hsum : calculateChecksum rapidHash
      { h with checksum := calculateChecksum rapidHash h payload } payload =
        calculateChecksum rapidHash h payload := rfl
  rw [parseHeader, sealFile, header.read_write hvalid]
  -- each check passes
  exact (if_neg (not_not.mpr hmagic)).trans ((if_neg (not_not.mpr hendian)).trans
    ((if_neg (not_not.mpr hsum)).trans (if_neg (not_lt.mpr hsize))))

/-- The string pool, at the end of the file. -/
def BinHeader.pool (h : BinHeader) (payload : Bytes) : Bytes :=
  payload.drop (payload.length - h.stringsSize.toNat)

/-! ### The records -/

/-- The strings of the definition lie in the pool. -/
def BinDefinition.InPool (d : BinDefinition) (pool : Bytes) : Prop :=
  d.key.InPool pool ∧ d.val.InPool pool

instance (d : BinDefinition) (pool : Bytes) : Decidable (d.InPool pool) :=
  inferInstanceAs (Decidable (_ ∧ _))

/-- The columns of the step lie in the pool. -/
def BinStep.InPool (st : BinStep) (pool : Bytes) : Prop :=
  st.inputs.InPool pool ∧ st.output.InPool pool ∧ st.extraFlags.InPool pool

instance (st : BinStep) (pool : Bytes) : Decidable (st.InPool pool) :=
  inferInstanceAs (Decidable (_ ∧ _ ∧ _))

/-- What comes of working on raw memory: an access outside of it, a returned error, or a value. To
form a view of bytes outside of it is such an access, whether or not they are read. -/
inductive Attempt (α : Type) where
  | fault
  | failed (message : Bytes)
  | done (a : α)
  deriving DecidableEq

/-- The error of `parse_steps`. -/
def invalidTool (kind : UInt8) : Bytes :=
  ascii "Malformed .catalyst.bin: invalid tool kind " ++ ascii (toString kind.toNat)

/-- `parse_definitions`: the definition records. -/
def readDefinitions (pool : Bytes) (n : ℕ) : Bytes → Option (List BinDefinition × Bytes) :=
  ((definition.guard fun d => d.InPool pool).many n).read

/-- `parse_nodes`: the node records; their edges are skipped. -/
def readNodes (pool : Bytes) (n : ℕ) : Bytes → Option (List BinNode × Bytes) :=
  ((node.guard fun n => n.path.InPool pool).many n).read

/-- `parse_steps`: the tool of a step is checked before its references are skipped. A reference that
does not lie in the pool is a fault, as `get_sv` forms its view unchecked. -/
def readSteps (pool : Bytes) : ℕ → Bytes → Attempt (List BinStep)
  | 0, _ => .done []
  | n + 1, s =>
    match stepHeader.read s with
    | none => .fault
    | some (h, s) =>
      if toolOfByte h.tool = none then .failed (invalidTool h.tool)
      else
        match (block (refBytes h.depfileCount)).read s with
        | none => .fault
        | some (refs, s) =>
          let st : BinStep := ⟨h, refs⟩
          if st.InPool pool then
            match readSteps pool n s with
            | .done sts => .done (st :: sts)
            | .failed message => .failed message
            | .fault => .fault
          else .fault

/-- The step of a record, none when its tool kind is invalid. -/
def BinStep.cached (st : BinStep) (pool : Bytes) : Option CachedStep :=
  (toolOfByte st.tool).map fun tool => {
    inputs := st.inputs.text pool
    output := st.output.text pool
    extraFlags := st.extraFlags.text pool
    commandHash := st.commandHash
    depfileInputs := st.depfileInputs pool
    tool := tool }

namespace Records

/-- The definitions that the records show. -/
def definitionTexts (r : Records) (pool : Bytes) : List (Bytes × Bytes) :=
  r.definitions.map fun d => (d.key.text pool, d.val.text pool)

/-- What the records show. -/
def image (r : Records) (pool : Bytes) : CacheImage where
  definitions := r.definitionTexts pool
  nodes := r.nodes.map fun n => ⟨n.path.text pool, n.edgeList, n.step?⟩
  steps := r.steps.filterMap fun st => st.cached pool

end Records

/-- The builder after `addDefinition` of several definitions. -/
def addDefinitions (b : COBBuilder) (definitions : List (Bytes × Bytes)) : COBBuilder :=
  { b with definitions := definitions.foldl (fun d e => d.emplace e.1 e.2) b.definitions }

/-- How `parseBin` ends: with an access outside the file, or with a result and the builder. A graph
that was loaded keeps the records and the pool mapped. -/
inductive Loading where
  | fault
  | failed (message : Bytes) (b : COBBuilder)
  | loaded (records : Records) (pool : Bytes) (b : COBBuilder)
  deriving DecidableEq

/-- `parseBin` behind the header. Definitions go into the builder at once, nodes and steps only
when all of them were read. -/
def parseRecords (h : BinHeader) (payload : Bytes) (b : COBBuilder) : Loading :=
  let pool := h.pool payload
  match readDefinitions pool h.numDefinitions.toNat payload with
  | none => .fault
  | some (definitions, s) =>
    match readNodes pool h.numNodes.toNat s with
    | none => .fault
    | some (nodes, s) =>
      match readSteps pool h.numSteps.toNat s with
      | .fault => .fault
      | .failed message =>
        .failed message (addDefinitions b (Records.definitionTexts ⟨definitions, [], []⟩ pool))
      | .done steps =>
        let r : Records := ⟨definitions, nodes, steps⟩
        .loaded r pool (Cob.parseBin (r.image pool) b)

/-- `parseBin`, for the contents of `.catalyst.bin`. -/
def parseBin (rapidHash : Bytes → UInt64 → UInt64) (content : Bytes) (b : COBBuilder) : Loading :=
  match parseHeader rapidHash content with
  | .error message => .failed message b
  | .ok (h, payload) => parseRecords h payload b

/-- `parse` of a text, with the contents of a cache that is newer: when the cache is rejected, the
text is parsed into the builder as `parseBin` leaves it. None after a fault. -/
def parse (rapidHash : Bytes → UInt64 → UInt64) (read : Bytes → Option Bytes)
    (cache : Option Bytes) (text : Bytes) (b : COBBuilder) : Option (Except Bytes COBBuilder) :=
  match cache with
  | none => some (parseText read text b)
  | some content =>
    match parseBin rapidHash content b with
    | .fault => none
    | .failed _ b' => some (parseText read text b')
    | .loaded _ _ b' => some (.ok b')

/-! ### What loading finds -/

/-- What loading looks at in a step. -/
structure BinStep.Readable (st : BinStep) (pool : Bytes) : Prop where
  valid : step.Valid st
  inPool : st.InPool pool
  tool : toolOfByte st.tool ≠ none

namespace Records

/-- What loading looks at in the records. -/
structure Readable (r : Records) (pool : Bytes) : Prop where
  definition : ∀ d ∈ r.definitions, d.InPool pool
  node : ∀ n ∈ r.nodes, node.Valid n ∧ n.path.InPool pool
  step : ∀ st ∈ r.steps, st.Readable pool

/-- What loading does not look at: the edges and the references have the bytes that their counts
ask for, references lie in the pool, and edges and step ids name nodes and steps. -/
structure Inside (r : Records) (pool : Bytes) : Prop where
  edges : ∀ n ∈ r.nodes, n.edgeCount.toNat * 8 = n.edges.length
  edge : ∀ n ∈ r.nodes, ∀ v ∈ n.edgeList, v < r.nodes.length
  stepId : ∀ n ∈ r.nodes, ∀ k, n.step? = some k → k < r.steps.length
  refs : ∀ st ∈ r.steps, st.depfileCount ≠ noValue →
    st.depfileCount.toNat * 16 = st.refs.length ∧ ∀ ref ∈ st.refList, ref.InPool pool

/-- There are as many definitions and nodes as the header says. -/
def Counted (r : Records) (h : BinHeader) : Prop :=
  r.definitions.length = h.numDefinitions.toNat ∧ r.nodes.length = h.numNodes.toNat

end Records

section Spec

variable {pool s : Bytes}

theorem readDefinitions_eq_some {n : ℕ} {definitions : List BinDefinition} {rest : Bytes} :
    readDefinitions pool n s = some (definitions, rest) ↔
      (definitions.length = n ∧ ∀ d ∈ definitions, d.InPool pool) ∧
        s = definitions.flatMap definition.write ++ rest := by
  refine (Codec.read_eq_some _).trans (and_congr_left' (and_congr_right' ?_))
  exact forall₂_congr fun d _ => and_iff_right (valid_definition d)

theorem readNodes_eq_some {n : ℕ} {nodes : List BinNode} {rest : Bytes} :
    readNodes pool n s = some (nodes, rest) ↔
      (nodes.length = n ∧ ∀ n ∈ nodes, node.Valid n ∧ n.path.InPool pool) ∧
        s = nodes.flatMap node.write ++ rest :=
  Codec.read_eq_some _

/-- Reading one more step. -/
theorem readSteps_succ {n : ℕ} {st : BinStep} (h : st.Readable pool) (rest : Bytes) :
    readSteps pool (n + 1) (step.write st ++ rest) =
      match readSteps pool n rest with
      | .done sts => .done (st :: sts)
      | .failed message => .failed message
      | .fault => .fault := by
  have hwrite : step.write st ++ rest =
      stepHeader.write st.toBinStepHeader ++ (st.refs ++ rest) := List.append_assoc _ _ _
  have hheader : stepHeader.read (stepHeader.write st.toBinStepHeader ++ (st.refs ++ rest)) =
      some (st.toBinStepHeader, st.refs ++ rest) := stepHeader.read_write h.valid.1 _
  have hrefs : (block (refBytes st.depfileCount)).read (st.refs ++ rest) =
      some (st.refs, rest) := (block (refBytes st.depfileCount)).read_write h.valid.2 rest
  rw [readSteps, hwrite, hheader]
  simp only [h.tool, if_false, hrefs, if_pos h.inPool]

/-- The steps that are read are laid out one after the other. -/
theorem readSteps_eq_done {n : ℕ} {sts : List BinStep} :
    readSteps pool n s = .done sts ↔
      (sts.length = n ∧ ∀ st ∈ sts, st.Readable pool) ∧
        ∃ rest, s = sts.flatMap step.write ++ rest := by
  -- induction on the count that is left
  induction n generalizing s sts with
  | zero =>
    simp only [readSteps, Attempt.done.injEq]
    constructor
    · rintro rfl
      simp
    · rintro ⟨⟨hlen, -⟩, -⟩
      exact (List.length_eq_zero_iff.mp hlen).symm
  | succ n ih =>
    constructor
    · -- the tests of one round, each of which is a part of `Readable`
      intro h
      rw [readSteps] at h
      split at h
      · simp at h
      · next hd s' hread =>
        obtain ⟨hvalid, rfl⟩ := stepHeader.read_eq_some.mp hread
        split_ifs at h with htool
        split at h
        · simp at h
        · next refs s'' hrefs =>
          obtain ⟨hlen, rfl⟩ := (block _).read_eq_some.mp hrefs
          simp only at h
          split_ifs at h with hpool
          split at h
          · next sts' hsteps =>
            obtain rfl := Attempt.done.inj h
            obtain ⟨⟨hcount, hall⟩, rest, rfl⟩ := ih.mp hsteps
            have hst : BinStep.Readable ⟨hd, refs⟩ pool := ⟨⟨hvalid, hlen⟩, hpool, htool⟩
            refine ⟨⟨by simp [hcount], ?_⟩, rest, ?_⟩
            · simpa using ⟨hst, hall⟩
            · rw [List.flatMap_cons]
              simp [step]
          · simp at h
          · simp at h
    · rintro ⟨⟨hlen, hall⟩, rest, rfl⟩
      obtain ⟨st, sts', rfl⟩ := List.exists_cons_of_length_eq_add_one hlen
      have hrest : readSteps pool n (sts'.flatMap step.write ++ rest) = .done sts' :=
        ih.mpr ⟨⟨by simpa using hlen, fun st' h => hall st' (List.mem_cons_of_mem _ h)⟩, rest, rfl⟩
      rw [List.flatMap_cons, List.append_assoc, readSteps_succ (hall st List.mem_cons_self), hrest]

/-- An error of the steps comes from a step header with an invalid tool kind, behind steps that
are laid out one after the other. -/
theorem readSteps_eq_failed {n : ℕ} {message : Bytes} :
    readSteps pool n s = .failed message ↔
      ∃ (sts : List BinStep) (hd : BinStepHeader) (rest : Bytes),
        (sts.length < n ∧ ∀ st ∈ sts, st.Readable pool) ∧
          (stepHeader.Valid hd ∧ toolOfByte hd.tool = none ∧ message = invalidTool hd.tool) ∧
            s = sts.flatMap step.write ++ (stepHeader.write hd ++ rest) := by
  induction n generalizing s with
  | zero => simp [readSteps]
  | succ n ih =>
    constructor
    · intro h
      rw [readSteps] at h
      split at h
      · simp at h
      · next hd s' hread =>
        obtain ⟨hvalid, rfl⟩ := stepHeader.read_eq_some.mp hread
        split_ifs at h with htool
        · -- this is the step with the invalid tool
          obtain rfl := Attempt.failed.inj h
          exact ⟨[], hd, s', ⟨by simp, by simp⟩, ⟨hvalid, htool, rfl⟩, rfl⟩
        split at h
        · simp at h
        · next refs s'' hrefs =>
          obtain ⟨hlen, rfl⟩ := (block _).read_eq_some.mp hrefs
          simp only at h
          split_ifs at h with hpool
          split at h
          · simp at h
          · next message' hsteps =>
            obtain rfl := Attempt.failed.inj h
            obtain ⟨sts, hd', rest, ⟨hcount, hall⟩, hfail, rfl⟩ := ih.mp hsteps
            have hst : BinStep.Readable ⟨hd, refs⟩ pool := ⟨⟨hvalid, hlen⟩, hpool, htool⟩
            refine ⟨⟨hd, refs⟩ :: sts, hd', rest, ⟨by simpa using hcount, ?_⟩, hfail, ?_⟩
            · simpa using ⟨hst, hall⟩
            · rw [List.flatMap_cons]
              simp [step]
          · simp at h
    · rintro ⟨sts, hd, rest, ⟨hlen, hall⟩, ⟨hvalid, htool, rfl⟩, rfl⟩
      cases sts with
      | nil =>
        have hread := stepHeader.read_write hvalid rest
        simp only [List.flatMap_nil, List.nil_append, readSteps, hread, htool, if_true]
      | cons st sts =>
        have hrest : readSteps pool n (sts.flatMap step.write ++ (stepHeader.write hd ++ rest)) =
            .failed (invalidTool hd.tool) := by
          refine ih.mpr ⟨sts, hd, rest, ⟨by simpa using hlen, ?_⟩, ⟨hvalid, htool, rfl⟩, rfl⟩
          exact fun st' h => hall st' (List.mem_cons_of_mem _ h)
        rw [List.flatMap_cons, List.append_assoc, readSteps_succ (hall st List.mem_cons_self),
          hrest]

variable {h : BinHeader} {payload message : Bytes} {b b' : COBBuilder} {r : Records}

/-- Loading a file with the right checksum does not depend on the hash. -/
theorem parseBin_sealFile (rapidHash : Bytes → UInt64 → UInt64) (hmagic : h.magic = magic)
    (hendian : h.endianMarker = endianExpected) (hsize : h.stringsSize.toNat ≤ payload.length) :
    parseBin rapidHash (sealFile rapidHash h payload) b = parseRecords h payload b := by
  rw [parseBin, parseHeader_sealFile hmagic hendian hsize]
  rfl

/-- Loading succeeds with the records that the payload begins with. -/
theorem parseRecords_eq_loaded :
    parseRecords h payload b = .loaded r pool b' ↔
      h.pool payload = pool ∧ (r.Counted h ∧ r.steps.length = h.numSteps.toNat) ∧
        r.Readable pool ∧ (∃ rest, payload = r.write ++ rest) ∧
          b' = Cob.parseBin (r.image pool) b := by
  constructor
  · -- the three readers in their order, each inverted by its own lemma
    intro hload
    simp only [parseRecords] at hload
    split at hload
    · simp at hload
    · next definitions s hdefs =>
      obtain ⟨⟨hnumDefs, hinPool⟩, hpayload⟩ := readDefinitions_eq_some.mp hdefs
      split at hload
      · simp at hload
      · next nodes s' hnodes =>
        obtain ⟨⟨hnumNodes, hvalid⟩, rfl⟩ := readNodes_eq_some.mp hnodes
        split at hload
        · simp at hload
        · simp at hload
        · next steps hsteps =>
          obtain ⟨⟨hnumSteps, hreadable⟩, rest, rfl⟩ := readSteps_eq_done.mp hsteps
          obtain ⟨rfl, rfl, rfl⟩ := Loading.loaded.inj hload
          refine ⟨rfl, ⟨⟨hnumDefs, hnumNodes⟩, hnumSteps⟩, ⟨hinPool, hvalid, hreadable⟩,
            ⟨rest, ?_⟩, rfl⟩
          simp [hpayload, Records.write]
  · rintro ⟨rfl, ⟨⟨hnumDefs, hnumNodes⟩, hnumSteps⟩, hr, ⟨rest, hpayload⟩, rfl⟩
    have hdefs : readDefinitions (h.pool payload) h.numDefinitions.toNat payload =
        some (r.definitions, r.nodes.flatMap node.write ++ (r.steps.flatMap step.write ++ rest)) :=
      readDefinitions_eq_some.mpr ⟨⟨hnumDefs, hr.definition⟩, by simp [hpayload, Records.write]⟩
    have hnodes := readNodes_eq_some.mpr
      ⟨⟨hnumNodes, hr.node⟩, Eq.refl (r.nodes.flatMap node.write ++
        (r.steps.flatMap step.write ++ rest))⟩
    have hsteps := readSteps_eq_done.mpr
      ⟨⟨hnumSteps, hr.step⟩, rest, Eq.refl (r.steps.flatMap step.write ++ rest)⟩
    simp only [parseRecords, hdefs, hnodes, hsteps]

/-- Loading fails behind the records that the payload begins with, at a step with an invalid tool
kind. -/
theorem parseRecords_eq_failed :
    parseRecords h payload b = .failed message b' ↔
      ∃ (r : Records) (hd : BinStepHeader) (rest : Bytes),
        (r.Counted h ∧ r.steps.length < h.numSteps.toNat) ∧ r.Readable (h.pool payload) ∧
          (stepHeader.Valid hd ∧ toolOfByte hd.tool = none ∧ message = invalidTool hd.tool) ∧
            payload = r.write ++ (stepHeader.write hd ++ rest) ∧
              b' = addDefinitions b (r.definitionTexts (h.pool payload)) := by
  constructor
  · intro hload
    simp only [parseRecords] at hload
    split at hload
    · simp at hload
    · next definitions s hdefs =>
      obtain ⟨⟨hnumDefs, hinPool⟩, hpayload⟩ := readDefinitions_eq_some.mp hdefs
      split at hload
      · simp at hload
      · next nodes s' hnodes =>
        obtain ⟨⟨hnumNodes, hvalid⟩, rfl⟩ := readNodes_eq_some.mp hnodes
        split at hload
        · simp at hload
        · next message' hsteps =>
          obtain ⟨steps, hd, rest, ⟨hlt, hreadable⟩, hfail, rfl⟩ := readSteps_eq_failed.mp hsteps
          obtain ⟨rfl, rfl⟩ := Loading.failed.inj hload
          refine ⟨⟨definitions, nodes, steps⟩, hd, rest, ⟨⟨hnumDefs, hnumNodes⟩, hlt⟩,
            ⟨hinPool, hvalid, hreadable⟩, hfail, ?_, rfl⟩
          simp [hpayload, Records.write]
        · simp at hload
  · rintro ⟨r, hd, rest, ⟨⟨hnumDefs, hnumNodes⟩, hlt⟩, hr, hfail, hpayload, rfl⟩
    have hdefs : readDefinitions (h.pool payload) h.numDefinitions.toNat payload =
        some (r.definitions, r.nodes.flatMap node.write ++
          (r.steps.flatMap step.write ++ (stepHeader.write hd ++ rest))) :=
      readDefinitions_eq_some.mpr ⟨⟨hnumDefs, hr.definition⟩, by simp [hpayload, Records.write]⟩
    have hnodes := readNodes_eq_some.mpr
      ⟨⟨hnumNodes, hr.node⟩, Eq.refl (r.nodes.flatMap node.write ++
        (r.steps.flatMap step.write ++ (stepHeader.write hd ++ rest)))⟩
    have hsteps := readSteps_eq_failed.mpr
      ⟨r.steps, hd, rest, ⟨hlt, hr.step⟩, hfail, rfl⟩
    simp only [parseRecords, hdefs, hnodes, hsteps]
    rfl

end Spec

end CacheFile

end Cob
