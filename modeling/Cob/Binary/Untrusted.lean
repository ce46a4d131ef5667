import Cob.Binary.Load

/-!
# Cache files that cannot be trusted

What loading does with an arbitrary `.catalyst.bin`. The header is checked, and a checksum guards
against files damaged by accident; behind the header the only check is that of the tool kinds.
So loading is safe exactly on the files whose records are in order, and a file that is rejected
behind its header has already left its definitions in the builder.

The module introduces:

* `Loading.Safe` — nothing outside the file is read or handed out;
* `LaidOut`, `CutShort` — the payloads that loading gets through, in terms of the layout;
* `LeavesNoTrace` — a rejected file does not matter for the builder and the fall-back.
-/

namespace Cob

namespace CacheFile

/-! ### Safety -/

/-- Nothing outside the file is read or handed out, and the loaded graph is one. -/
inductive Loading.Safe : Loading → Prop
  | failed (message : Bytes) (b : COBBuilder) : Safe (.failed message b)
  | loaded {r : Records} {pool : Bytes} (b : COBBuilder) :
      r.Readable pool → r.Inside pool → Safe (.loaded r pool b)

/-- The payload begins with the records that the header counts, and these are in order. -/
def LaidOut (h : BinHeader) (payload : Bytes) : Prop :=
  ∃ (r : Records) (rest : Bytes), payload = r.write ++ rest ∧
    (r.Counted h ∧ r.steps.length = h.numSteps.toNat) ∧
      r.Readable (h.pool payload) ∧ r.Inside (h.pool payload)

/-- The payload begins with records that loading gets through, up to a step with an invalid tool
kind. -/
def CutShort (h : BinHeader) (payload : Bytes) : Prop :=
  ∃ (r : Records) (hd : BinStepHeader) (rest : Bytes),
    payload = r.write ++ (stepHeader.write hd ++ rest) ∧
      (r.Counted h ∧ r.steps.length < h.numSteps.toNat) ∧ r.Readable (h.pool payload) ∧
        stepHeader.Valid hd ∧ toolOfByte hd.tool = none

section Safety

variable {rapidHash : Bytes → UInt64 → UInt64} {content payload : Bytes} {h : BinHeader}
  {b : COBBuilder}

/-- Loading the records of a payload that is cut short returns an error. -/
theorem CutShort.exists_failed (hcut : CutShort h payload) (b : COBBuilder) :
    ∃ message b', parseRecords h payload b = .failed message b' := by
  obtain ⟨r, hd, rest, hpayload, hcount, hr, hvalid, htool⟩ := hcut
  exact ⟨_, _, parseRecords_eq_failed.mpr
    ⟨r, hd, rest, hcount, hr, ⟨hvalid, htool, rfl⟩, hpayload, rfl⟩⟩

/-- Loading the records of a payload is safe exactly when it is laid out, or cut short. -/
theorem safe_parseRecords_iff :
    (parseRecords h payload b).Safe ↔ LaidOut h payload ∨ CutShort h payload := by
  constructor
  · intro hsafe
    -- the three ways to end, each inverted by its own lemma
    cases hload : parseRecords h payload b with
    | fault =>
      rw [hload] at hsafe
      cases hsafe
    | failed message b' =>
      obtain ⟨r, hd, rest, hcount, hr, ⟨hvalid, htool, -⟩, hpayload, -⟩ :=
        parseRecords_eq_failed.mp hload
      exact .inr ⟨r, hd, rest, hpayload, hcount, hr, hvalid, htool⟩
    | loaded r pool b' =>
      rw [hload] at hsafe
      obtain ⟨rfl, hcount, hr, ⟨rest, hpayload⟩, -⟩ := parseRecords_eq_loaded.mp hload
      cases hsafe with
      | loaded _ _ hinside => exact .inl ⟨r, rest, hpayload, hcount, hr, hinside⟩
  · rintro (⟨r, rest, hpayload, hcount, hr, hinside⟩ | hcut)
    · have hload : parseRecords h payload b = .loaded r (h.pool payload)
          (Cob.parseBin (r.image (h.pool payload)) b) :=
        parseRecords_eq_loaded.mpr ⟨rfl, hcount, hr, ⟨rest, hpayload⟩, rfl⟩
      rw [hload]
      exact .loaded _ hr hinside
    · obtain ⟨message, b', hload⟩ := hcut.exists_failed b
      rw [hload]
      exact .failed _ _

/-- `parseBin` is safe exactly on the files that the checks of the header reject, those whose
payload is laid out as the header says, and those that are cut short by an invalid tool kind. -/
theorem safe_parseBin_iff (rapidHash : Bytes → UInt64 → UInt64) (content : Bytes)
    (b : COBBuilder) :
    (parseBin rapidHash content b).Safe ↔
      (∃ message, parseHeader rapidHash content = .error message) ∨
        ∃ h payload, parseHeader rapidHash content = .ok (h, payload) ∧
          (LaidOut h payload ∨ CutShort h payload) := by
  unfold parseBin
  cases hheader : parseHeader rapidHash content with
  | error message => exact iff_of_true (.failed _ _) (.inl ⟨message, rfl⟩)
  | ok p =>
    obtain ⟨h, payload⟩ := p
    simp only [safe_parseRecords_iff, reduceCtorEq, exists_false, false_or, Except.ok.injEq,
      Prod.mk.injEq]
    constructor
    · exact fun hor => ⟨h, payload, ⟨rfl, rfl⟩, hor⟩
    · rintro ⟨_, _, ⟨rfl, rfl⟩, hor⟩
      exact hor

/-- The header of a file with the given counts and pool size. -/
def countedHeader (numDefinitions numNodes numSteps stringsSize : UInt64) : BinHeader where
  magic := magic
  endianMarker := endianExpected
  numDefinitions := numDefinitions
  numNodes := numNodes
  numSteps := numSteps
  stringsSize := stringsSize
  checksum := 0

/-- A header that counts one definition, with no byte behind it: `parseBin` reads on. -/
theorem loneHeader_not_safe : ¬ ∃ rapidHash : Bytes → UInt64 → UInt64,
    (parseBin rapidHash (sealFile rapidHash (countedHeader 1 0 0 0) []) .empty).Safe := by
  rintro ⟨rapidHash, hsafe⟩
  have hfault : parseRecords (countedHeader 1 0 0 0) [] .empty = .fault := by decide +kernel
  rw [parseBin_sealFile rapidHash rfl rfl (by decide), hfault] at hsafe
  cases hsafe

end Safety

/-! ### What a rejected file leaves behind -/

/-- A file on which `parseBin` fails leaves the builder as it was, and `parse` goes on as if there
were no cache. -/
def LeavesNoTrace (rapidHash : Bytes → UInt64 → UInt64) (content : Bytes) (b b' : COBBuilder) :
    Prop :=
  b' = b ∧ ∀ read text,
    parse rapidHash read (some content) text b = parse rapidHash read none text b

/-- The keys of the definitions in the file are defined in the builder. -/
def DefinitionsKnown (h : BinHeader) (payload : Bytes) (d : Definitions) : Prop :=
  ∃ (definitions : List BinDefinition) (rest : Bytes),
    payload = definitions.flatMap definition.write ++ rest ∧
      definitions.length = h.numDefinitions.toNat ∧
        ∀ e ∈ definitions, (d.find (e.key.text (h.pool payload))).isSome

section Rejected

variable {rapidHash : Bytes → UInt64 → UInt64} {content payload message : Bytes} {h : BinHeader}
  {b b' : COBBuilder}

/-- Adding definitions changes nothing exactly when their keys are defined. -/
theorem addDefinitions_eq_self_iff {definitions : List (Bytes × Bytes)} :
    addDefinitions b definitions = b ↔ ∀ e ∈ definitions, (b.definitions.find e.1).isSome := by
  rw [← Definitions.foldl_emplace_eq_self_iff]
  constructor
  · exact fun heq => congrArg COBBuilder.definitions heq
  · intro heq
    rw [addDefinitions, heq]

/-- The definitions at the front of a payload are the ones it is read as. -/
theorem definitionsKnown_iff {r : Records} {rest : Bytes} {d : Definitions}
    (hcount : r.Counted h) (hpayload : payload = r.write ++ rest) :
    DefinitionsKnown h payload d ↔
      ∀ e ∈ r.definitionTexts (h.pool payload), (d.find e.1).isSome := by
  have hfront : payload = (definition.many h.numDefinitions.toNat).write r.definitions ++
      (r.nodes.flatMap node.write ++ (r.steps.flatMap step.write ++ rest)) := by
    rw [hpayload, Records.write, List.append_assoc, List.append_assoc]
    rfl
  constructor
  · rintro ⟨definitions, rest', hpayload', hlen, hknown⟩
    obtain rfl : definitions = r.definitions := by
      apply (definition.many h.numDefinitions.toNat).eq_of_write_append
      · exact ⟨hlen, fun d _ => valid_definition d⟩
      · exact ⟨hcount.1, fun d _ => valid_definition d⟩
      · exact hpayload'.symm.trans hfront
    intro e he
    obtain ⟨d, hd, rfl⟩ := List.mem_map.mp he
    exact hknown d hd
  · intro hknown
    refine ⟨r.definitions, _, hfront, hcount.1, fun d hd => ?_⟩
    exact hknown _ (List.mem_map_of_mem hd)

/-- An error of `parseBin` leaves no trace exactly when it comes from the header, or the builder
has a value for each definition in the file. -/
theorem leavesNoTrace_iff (hfail : parseBin rapidHash content b = .failed message b') :
    LeavesNoTrace rapidHash content b b' ↔
      (∃ message, parseHeader rapidHash content = .error message) ∨
        ∃ h payload, parseHeader rapidHash content = .ok (h, payload) ∧
          DefinitionsKnown h payload b.definitions := by
  -- the fall-back starts from `b'`
  have hsame : LeavesNoTrace rapidHash content b b' ↔ b' = b := by
    refine ⟨And.left, ?_⟩
    rintro rfl
    refine ⟨rfl, fun read text => ?_⟩
    simp only [parse, hfail]
  rw [hsame]
  unfold parseBin at hfail
  cases hheader : parseHeader rapidHash content with
  | error message' =>
    rw [hheader] at hfail
    obtain ⟨-, rfl⟩ := Loading.failed.inj hfail
    simp
  | ok p =>
    obtain ⟨h, payload⟩ := p
    rw [hheader] at hfail
    obtain ⟨r, hd, rest, ⟨hcount, -⟩, -, -, hpayload, rfl⟩ := parseRecords_eq_failed.mp hfail
    rw [addDefinitions_eq_self_iff, ← definitionsKnown_iff hcount hpayload]
    constructor
    · exact fun hknown => .inr ⟨h, payload, rfl, hknown⟩
    · rintro (⟨_, herror⟩ | ⟨_, _, hok, hknown⟩)
      · simp at herror
      · obtain ⟨rfl, rfl⟩ := Prod.ext_iff.mp (Except.ok.inj hok)
        exact hknown

/-- The records of a cache with the definition of `cc` as `clang` and one step, of the tool kind
5, which there is not. -/
def strayPayload : Bytes :=
  definition.write ⟨⟨0, 2⟩, ⟨2, 5⟩⟩ ++
    stepHeader.write ⟨⟨0, 0⟩, ⟨0, 0⟩, ⟨0, 0⟩, 0, noValue, 5, List.replicate 7 0⟩ ++
      ascii "ccclang"

/-- The compiler of the rejected cache replaces that of the manifest. -/
theorem strayFile_leaves_trace : ¬ ∃ rapidHash : Bytes → UInt64 → UInt64, ∀ message b',
    parseBin rapidHash (sealFile rapidHash (countedHeader 1 0 1 7) strayPayload) .empty =
      .failed message b' →
    LeavesNoTrace rapidHash (sealFile rapidHash (countedHeader 1 0 1 7) strayPayload) .empty
      b' := by
  rintro ⟨rapidHash, htrace⟩
  have hload : parseBin rapidHash (sealFile rapidHash (countedHeader 1 0 1 7) strayPayload)
      .empty = parseRecords (countedHeader 1 0 1 7) strayPayload .empty :=
    parseBin_sealFile rapidHash rfl rfl (by decide +kernel)
  have hfail : parseRecords (countedHeader 1 0 1 7) strayPayload .empty =
      .failed (invalidTool 5) (COBBuilder.empty.addDefinition (ascii "cc") (ascii "clang")) := by
    decide +kernel
  have hfallback := (htrace _ _ (hload.trans hfail)).2 (fun _ => none) (ascii "DEF|cc|gcc")
  simp only [parse, hload, hfail] at hfallback
  revert hfallback
  decide +kernel

/-- A builder that defines `cc` is left as it was. -/
theorem leavesNoTrace_iff_strayFile :
    LeavesNoTrace (fun _ _ => 0) (sealFile (fun _ _ => 0) (countedHeader 1 0 1 7) strayPayload)
        (COBBuilder.empty.addDefinition (ascii "cc") (ascii "gcc"))
        (COBBuilder.empty.addDefinition (ascii "cc") (ascii "gcc")) ↔
      (∃ message, parseHeader (fun _ _ => 0)
          (sealFile (fun _ _ => 0) (countedHeader 1 0 1 7) strayPayload) = .error message) ∨
        ∃ h payload, parseHeader (fun _ _ => 0)
            (sealFile (fun _ _ => 0) (countedHeader 1 0 1 7) strayPayload) = .ok (h, payload) ∧
          DefinitionsKnown h payload
            (COBBuilder.empty.addDefinition (ascii "cc") (ascii "gcc")).definitions := by
  have hfail : parseBin (fun _ _ => 0)
      (sealFile (fun _ _ => 0) (countedHeader 1 0 1 7) strayPayload)
      (COBBuilder.empty.addDefinition (ascii "cc") (ascii "gcc")) =
        .failed (invalidTool 5) (COBBuilder.empty.addDefinition (ascii "cc") (ascii "gcc")) := by
    decide +kernel
  exact leavesNoTrace_iff hfail

end Rejected

end CacheFile

end Cob
