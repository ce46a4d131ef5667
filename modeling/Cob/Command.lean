import Cob.Definitions
import Cob.Graph.BuildGraph
import Mathlib.Data.List.Induction

/-!
# Commands

`buildCommandArgs`, the argument vector of a step, and `hashCommand`. The hash function
`rapid_hash` is a parameter. Whether an `ld` step has a usable response file depends on the disk,
so the caller passes the answer.

The module ends with what the chain of `hashCommand` keeps apart when its hash function does
(`hashChain_injective`).
-/

namespace Cob

/-- `ToolchainFlags`. -/
structure ToolchainFlags where
  cc : List Bytes
  cxx : List Bytes
  linker : List Bytes
  archiver : List Bytes
  cflags : List Bytes
  cxxflags : List Bytes
  ldflags : List Bytes
  ldlibs : List Bytes
  deriving DecidableEq

/-- The flags `execute` reads from the definitions. -/
def ToolchainFlags.ofDefinitions (d : Definitions) : ToolchainFlags where
  cc := d.getDefinitionVec (ascii "cc")
  cxx := d.getDefinitionVec (ascii "cxx")
  linker := d.getLinkerVec (d.getDefinitionVec (ascii "cxx"))
  archiver := d.getArchiverVec
  cflags := d.getDefinitionVec (ascii "cflags")
  cxxflags := d.getDefinitionVec (ascii "cxxflags")
  ldflags := d.getDefinitionVec (ascii "ldflags")
  ldlibs := d.getDefinitionVec (ascii "ldlibs")

/-- `RSP_INPUT_THRESHOLD`, with its configured value. -/
def rspInputThreshold : ℕ := 50

namespace BuildStep

variable (st : BuildStep)

/-- `path(step.output).replace_extension(".rsp")`. -/
def rspPath : Bytes := Bytes.replaceExtension st.output (ascii ".rsp")

/-- `use_rsp`: a usable response file is there, or the inputs are too many for a command line. -/
def useRsp (usable : Bool) : Bool := usable || decide (rspInputThreshold < st.parsedInputs.length)

/-- Whether `buildCommandArgs` writes the response file when it is not a dry run. -/
def writesRsp (usable : Bool) : Bool :=
  !usable && decide (rspInputThreshold < st.parsedInputs.length)

/-- The contents of a response file: each input on a line of its own. -/
def rspContent : Bytes := st.parsedInputs.flatMap fun input => input ++ [chr '\n']

end BuildStep

/-- `add_parts`: the parts that are not empty. -/
def addParts (parts : List Bytes) : List Bytes := parts.filter (· ≠ [])

/-- The arguments of a compile step, after those of its compiler and its flags. -/
def compileArgs (st : BuildStep) : List Bytes :=
  Bytes.words st.extraFlags ++
    [ascii "-MMD", ascii "-MT", st.output, ascii "-MF", st.depfilePath, ascii "-c"] ++
    st.parsedInputs ++ [ascii "-o", st.output]

/-- The arguments of a link step, after those of the linker. -/
def linkArgs (st : BuildStep) (flags : ToolchainFlags) (inputs : List Bytes) : List Bytes :=
  inputs ++ [ascii "-o", st.output] ++ addParts flags.ldflags ++ addParts flags.ldlibs ++
    Bytes.words st.extraFlags

/-- The arguments that name the archiver and its output. -/
def archiveArgs (st : BuildStep) (archiver : List Bytes) : List Bytes :=
  match archiver with
  | [] => [ascii "ar", ascii "rcs", st.output]
  | cmd :: _ =>
    let args := addParts archiver
    if cmd.endsWith (ascii "ar") ∨ cmd.endsWith (ascii "ar.exe") ∨ archiver.length = 1 then
      args ++ [ascii "rcs", st.output]
    else if archiver.getLast? = some (ascii "/out:") then
      args.dropLast ++ [ascii "/out:" ++ st.output]
    else args ++ [st.output]

/-- `buildCommandArgs`: empty for a tool it does not know. -/
def buildCommandArgs (st : BuildStep) (flags : ToolchainFlags) (usable : Bool) : List Bytes :=
  if st.tool = ascii "cc" then addParts flags.cc ++ addParts flags.cflags ++ compileArgs st
  else if st.tool = ascii "cxx" then
    addParts flags.cxx ++ addParts flags.cxxflags ++ compileArgs st
  else if st.tool = ascii "ld" then
    addParts flags.linker ++ linkArgs st flags
      (if st.useRsp usable then [chr '@' :: st.rspPath] else st.parsedInputs)
  else if st.tool = ascii "ar" then
    archiveArgs st flags.archiver ++ st.parsedInputs ++ Bytes.words st.extraFlags
  else if st.tool = ascii "sld" then
    addParts flags.linker ++ [ascii "-shared"] ++ linkArgs st flags st.parsedInputs
  else []

/-- `hashCommand`: a chained hash of the arguments, each followed by a space. -/
def hashCommand (rapidHash : Bytes → UInt64 → UInt64) (args : List Bytes) : UInt64 :=
  args.foldl (fun hash arg => rapidHash (ascii " ") (rapidHash arg hash)) 0

/-! ### Command hashes -/

section HashChain

variable {X A : Type*}

/-- The chain of `hashCommand` over any set of hash values with the seed `zero`. -/
def hashChain (rapidHash : Bytes → X → X) (zero : X) (args : List Bytes) : X :=
  args.foldl (fun hash arg => rapidHash (ascii " ") (rapidHash arg hash)) zero

theorem hashCommand_eq_hashChain (rapidHash : Bytes → UInt64 → UInt64) (args : List Bytes) :
    hashCommand rapidHash args = hashChain rapidHash 0 args := rfl

/-- A chain whose links can be undone, and never lead back to its start, is undone link by link. -/
theorem injective_foldl {f : X → A → X} {start : X} (hf : Function.Injective2 f)
    (hstart : ∀ x a, f x a ≠ start) : Function.Injective fun l : List A => l.foldl f start := by
  intro l l' h
  dsimp only at h
  induction l using List.reverseRec generalizing l' with
  | nil =>
    cases l' using List.reverseRec with
    | nil => rfl
    | append_singleton l' b =>
      rw [List.foldl_concat] at h
      exact absurd h.symm (hstart _ b)
  | append_singleton l a ih =>
    cases l' using List.reverseRec with
    | nil =>
      rw [List.foldl_concat] at h
      exact absurd h (hstart _ a)
    | append_singleton l' b =>
      rw [List.foldl_concat, List.foldl_concat] at h
      obtain ⟨hinit, hlast⟩ := hf h
      rw [ih hinit, hlast]

/-- **Separation.** If the hash function is injective and never gives the seed, commands with the
same hash have the same arguments. -/
theorem hashChain_injective (rapidHash : Bytes → X → X) (zero : X)
    (hinj : Function.Injective2 rapidHash) (hzero : ∀ s hash, rapidHash s hash ≠ zero) :
    Function.Injective (hashChain rapidHash zero) := by
  refine injective_foldl ?_ fun hash arg => hzero (ascii " ") _
  intro hash hash' arg arg' h
  -- the separator is hashed like an argument, so each link is two applications
  have hinner := (hinj h).2
  exact (hinj hinner).symm

/-- With hash values that remember what was hashed, a space moved between two arguments shows. -/
theorem hashChain_injective_cons :
    hashChain (fun s hash => s :: hash) [] [ascii "a b"] ≠
      hashChain (fun s hash => s :: hash) [] [ascii "a", ascii "b"] := by
  have hinj : Function.Injective2 fun (s : Bytes) (hash : List Bytes) => s :: hash :=
    fun _ _ _ _ h => List.cons.inj h
  intro h
  exact absurd (hashChain_injective _ [] hinj (fun s hash => List.cons_ne_nil s hash) h) (by decide)

end HashChain

end Cob
