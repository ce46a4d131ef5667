import Cob.Binary
import Cob.Lib.Codec

/-!
# The layout of the cache file

The records of `.catalyst.bin` as bytes: the header, then definitions, nodes with their edges and
steps with their dependency-file references, then the string pool. Words are little-endian and
strings are references into the pool. The lists behind nodes and steps are kept as the bytes that
`parseBin` skips for them, whose number is computed modulo `2^64`.

The module introduces:

* `StringRef`, `BinHeader`, `BinDefinition`, `BinNode`, `BinStep` — the records;
* `stringRef`, `header`, `definition`, `node`, `step` — their codecs;
* `Records` — the records of a file, and when they lie inside it.
-/

namespace Cob

namespace CacheFile

open Codec

/-- A reference into the string pool. -/
structure StringRef where
  offset : UInt64
  len : UInt64
  deriving DecidableEq

namespace StringRef

/-- The string lies inside the pool. -/
def InPool (r : StringRef) (pool : Bytes) : Prop := r.offset.toNat + r.len.toNat ≤ pool.length

instance (r : StringRef) (pool : Bytes) : Decidable (r.InPool pool) :=
  inferInstanceAs (Decidable (_ ≤ _))

/-- The string. -/
def text (r : StringRef) (pool : Bytes) : Bytes := (pool.drop r.offset.toNat).take r.len.toNat

end StringRef

structure BinHeader where
  magic : Bytes
  endianMarker : UInt64
  numDefinitions : UInt64
  numNodes : UInt64
  numSteps : UInt64
  stringsSize : UInt64
  checksum : UInt64
  deriving DecidableEq

structure BinDefinition where
  key : StringRef
  val : StringRef
  deriving DecidableEq

/-- A node record with the bytes of its edges. -/
structure BinNode where
  path : StringRef
  stepId : UInt64
  edgeCount : UInt64
  edges : Bytes
  deriving DecidableEq

structure BinStepHeader where
  inputs : StringRef
  output : StringRef
  extraFlags : StringRef
  commandHash : UInt64
  depfileCount : UInt64
  tool : UInt8
  padding : Bytes
  deriving DecidableEq

/-- A step record with the bytes of its dependency-file references. -/
structure BinStep extends BinStepHeader where
  refs : Bytes
  deriving DecidableEq

/-- `UINT64_MAX`, which stands for no step and for no dependency file. -/
def noValue : UInt64 := 18446744073709551615

/-- `num_out_edges * sizeof(uint64_t)`. -/
def edgeBytes (count : UInt64) : ℕ := (count * 8).toNat

/-- `depfile_count * sizeof(StringRef)`, nothing without a dependency file. -/
def refBytes (count : UInt64) : ℕ := if count = noValue then 0 else (count * 16).toNat

/-! ### Codecs -/

def stringRef : Codec UInt8 StringRef :=
  (word.seq fun _ => word).map
    { toFun := fun p => ⟨p.1, p.2⟩
      invFun := fun r => (r.offset, r.len)
      left_inv := fun _ => rfl
      right_inv := fun _ => rfl }

def header : Codec UInt8 BinHeader :=
  ((block 8).seq fun _ => word.seq fun _ => word.seq fun _ => word.seq fun _ => word.seq fun _ =>
    word.seq fun _ => word).map
    { toFun := fun p => ⟨p.1, p.2.1, p.2.2.1, p.2.2.2.1, p.2.2.2.2.1, p.2.2.2.2.2.1,
        p.2.2.2.2.2.2⟩
      invFun := fun h => (h.magic, h.endianMarker, h.numDefinitions, h.numNodes, h.numSteps,
        h.stringsSize, h.checksum)
      left_inv := fun _ => rfl
      right_inv := fun _ => rfl }

def definition : Codec UInt8 BinDefinition :=
  (stringRef.seq fun _ => stringRef).map
    { toFun := fun p => ⟨p.1, p.2⟩
      invFun := fun d => (d.key, d.val)
      left_inv := fun _ => rfl
      right_inv := fun _ => rfl }

def node : Codec UInt8 BinNode :=
  (stringRef.seq fun _ => word.seq fun _ => word.seq fun count => block (edgeBytes count)).map
    { toFun := fun p => ⟨p.1, p.2.1, p.2.2.1, p.2.2.2⟩
      invFun := fun n => (n.path, n.stepId, n.edgeCount, n.edges)
      left_inv := fun _ => rfl
      right_inv := fun _ => rfl }

def stepHeader : Codec UInt8 BinStepHeader :=
  (stringRef.seq fun _ => stringRef.seq fun _ => stringRef.seq fun _ => word.seq fun _ =>
    word.seq fun _ => symbol.seq fun _ => block 7).map
    { toFun := fun p => ⟨p.1, p.2.1, p.2.2.1, p.2.2.2.1, p.2.2.2.2.1, p.2.2.2.2.2.1,
        p.2.2.2.2.2.2⟩
      invFun := fun h => (h.inputs, h.output, h.extraFlags, h.commandHash, h.depfileCount, h.tool,
        h.padding)
      left_inv := fun _ => rfl
      right_inv := fun _ => rfl }

def step : Codec UInt8 BinStep :=
  (stepHeader.seq fun h => block (refBytes h.depfileCount)).map
    { toFun := fun p => ⟨p.1, p.2⟩
      invFun := fun st => (st.toBinStepHeader, st.refs)
      left_inv := fun _ => rfl
      right_inv := fun _ => rfl }

@[simp]
theorem valid_stringRef (r : StringRef) : stringRef.Valid r := ⟨trivial, trivial⟩

@[simp]
theorem valid_definition (d : BinDefinition) : definition.Valid d :=
  ⟨valid_stringRef d.key, valid_stringRef d.val⟩

theorem valid_header {h : BinHeader} : header.Valid h ↔ h.magic.length = 8 := by
  constructor
  · exact fun hv => hv.1
  · exact fun hlen => ⟨hlen, trivial, trivial, trivial, trivial, trivial, trivial⟩

theorem valid_node {n : BinNode} : node.Valid n ↔ n.edges.length = edgeBytes n.edgeCount := by
  constructor
  · exact fun hv => hv.2.2.2
  · exact fun hlen => ⟨valid_stringRef n.path, trivial, trivial, hlen⟩

theorem valid_stepHeader {h : BinStepHeader} : stepHeader.Valid h ↔ h.padding.length = 7 := by
  constructor
  · exact fun hv => hv.2.2.2.2.2.2
  · exact fun hlen => ⟨valid_stringRef _, valid_stringRef _, valid_stringRef _, trivial, trivial,
      trivial, hlen⟩

theorem valid_step {st : BinStep} : step.Valid st ↔
    st.padding.length = 7 ∧ st.refs.length = refBytes st.depfileCount := by
  constructor
  · exact fun hv => ⟨valid_stepHeader.mp hv.1, hv.2⟩
  · exact fun h => ⟨valid_stepHeader.mpr h.1, h.2⟩

@[simp]
theorem length_write_stringRef (r : StringRef) : (stringRef.write r).length = 16 := by
  simp [stringRef]

/-! ### What the records say -/

/-- `stringFromToolKind` of the byte of a tool, none for an invalid kind. -/
def toolOfByte (b : UInt8) : Option ToolKind :=
  if b = 0 then some .ccCompile
  else if b = 1 then some .cxxCompile
  else if b = 2 then some .link
  else if b = 3 then some .archive
  else if b = 4 then some .sharedLink
  else none

/-- The byte of a tool kind. -/
def byteOfTool : ToolKind → UInt8
  | .ccCompile => 0
  | .cxxCompile => 1
  | .link => 2
  | .archive => 3
  | .sharedLink => 4

@[simp]
theorem toolOfByte_byteOfTool (kind : ToolKind) : toolOfByte (byteOfTool kind) = some kind := by
  cases kind <;> rfl

namespace BinNode

/-- The edges that the graph borrows from the file. -/
def edgeList (n : BinNode) : List ℕ :=
  (((word.many n.edgeCount.toNat).read n.edges).map fun p => p.1.map UInt64.toNat).getD []

/-- `std::optional` of the raw step id. -/
def step? (n : BinNode) : Option ℕ := if n.stepId = noValue then none else some n.stepId.toNat

end BinNode

namespace BinStep

/-- The references that the step borrows from the file. -/
def refList (st : BinStep) : List StringRef :=
  (((stringRef.many st.depfileCount.toNat).read st.refs).map Prod.fst).getD []

/-- The inputs that the step borrows, none without a dependency file. -/
def depfileInputs (st : BinStep) (pool : Bytes) : Option (List Bytes) :=
  if st.depfileCount = noValue then none else some (st.refList.map fun r => r.text pool)

end BinStep

/-- The records of a file. -/
structure Records where
  definitions : List BinDefinition
  nodes : List BinNode
  steps : List BinStep
  deriving DecidableEq

namespace Records

/-- The records as they stand in the file. -/
def write (r : Records) : Bytes :=
  r.definitions.flatMap definition.write ++ r.nodes.flatMap node.write ++
    r.steps.flatMap step.write

end Records

end CacheFile

end Cob
